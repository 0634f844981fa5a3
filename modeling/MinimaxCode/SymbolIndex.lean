import MinimaxCode.CodebaseIndex
import MinimaxCode.Postings

/-!
# The symbol index

The index lists the definitions and the references of every symbol, the aliases that the
files introduce and what `stat` said of each file. A build merges the symbols of the files
one after the other, so of two originals for one alias the later one stays.
-/

namespace MinimaxCode.SymbolIndex

open PyText OrderedDict CodebaseIndex

structure FileMeta where
  size : ℕ
  mtimeSecs : ℕ
  mtimeNanos : ℕ
  deriving DecidableEq

structure StatResult where
  size : ℕ
  mtimeNs : ℤ
  deriving DecidableEq

/-- `FileMeta.from_stat`. A time before the epoch counts as the epoch. -/
def FileMeta.fromStat (st : StatResult) : FileMeta :=
  if st.mtimeNs < 0 then ⟨st.size,0,0⟩
  else ⟨st.size,st.mtimeNs.toNat/1000000000,st.mtimeNs.toNat%1000000000⟩

structure SourceFile where
  stat : Option StatResult
  readable : Bool
  bytes : ByteArray

/-- The files below the root, under their paths from there. -/
abbrev Files := List (PyStr × SourceFile)

/-- What `extract_symbols_fast` gives of a parsed file; the lines count from zero. -/
structure Extracted where
  definitions : List (PyStr × ℕ)
  references : List (PyStr × ℕ)
  aliases : List (PyStr × PyStr)

/-- The symbols of a file by language and content; nothing without a parser or a tree. -/
abbrev Extractor := PyStr → ByteArray → Option Extracted

structure FileSymbols where
  definitions : List (PyStr × ℕ)
  references : List (PyStr × ℕ)
  aliases : List (PyStr × PyStr)
  fileMeta : FileMeta

structure ScopeGraphIndex where
  definitions : Postings PyStr PyStr ℕ
  references : Postings PyStr PyStr ℕ
  aliases : List (PyStr × PyStr)
  reverseAliases : List (PyStr × List PyStr)
  fileMeta : List (PyStr × FileMeta)

def maxIndexableFileSize : ℕ := 5*1024*1024

def u32Max : ℕ := 0xFFFFFFFF

def saturateLine (line : ℕ) : ℕ := if line < u32Max then line else u32Max

/-- The primary language id by file extension. -/
def languages : List (PyStr × PyStr) :=
  [(lit "rs",lit "Rust"),(lit "ts",lit "Typescript"),(lit "tsx",lit "Typescript"),
    (lit "js",lit "JavaScript"),(lit "jsx",lit "JavaScript"),(lit "go",lit "Go"),
    (lit "py",lit "Python")]

def forFilePath (path : PyStr) : Option PyStr :=
  match suffix (fileName path) with
  | [] => none
  | _::ext => lookup languages ext

def isBinaryContent (content : ByteArray) : Bool := 0 ∈ content.data.toList.take 8000

namespace ScopeGraphIndex

def empty : ScopeGraphIndex := ⟨.empty,.empty,[],[],[]⟩

def addDefinition (i : ScopeGraphIndex) (symbol path : PyStr) (line : ℕ) : ScopeGraphIndex :=
  {i with definitions := i.definitions.add symbol path (saturateLine line)}

def addReference (i : ScopeGraphIndex) (symbol path : PyStr) (line : ℕ) : ScopeGraphIndex :=
  {i with references := i.references.add symbol path (saturateLine line)}

def addAlias (i : ScopeGraphIndex) (aliasName original : PyStr) : ScopeGraphIndex :=
  let known := (lookup i.reverseAliases original).getD []
  {i with
    aliases := assign i.aliases aliasName original
    reverseAliases := assign i.reverseAliases original
      (if aliasName ∈ known then known else known++[aliasName])}

def setFileMeta (i : ScopeGraphIndex) (path : PyStr) (fileMeta : FileMeta) : ScopeGraphIndex :=
  {i with fileMeta := assign i.fileMeta path fileMeta}

def removeFile (i : ScopeGraphIndex) (path : PyStr) : ScopeGraphIndex :=
  {i with
    definitions := i.definitions.prune path
    references := i.references.prune path
    fileMeta := remove i.fileMeta path}

/-- What a build adds to the index for a file. -/
def merge (i : ScopeGraphIndex) (path : PyStr) (syms : FileSymbols) : ScopeGraphIndex :=
  let i := syms.definitions.foldl (fun i d => i.addDefinition d.1 path d.2) i
  let i := syms.references.foldl (fun i r => i.addReference r.1 path r.2) i
  let i := syms.aliases.foldl (fun i a => i.addAlias a.1 a.2) i
  i.setFileMeta path syms.fileMeta

end ScopeGraphIndex

def processFileFast (extract : Extractor) (files : Files) (path : PyStr) : Option FileSymbols :=
  match forFilePath path with
  | none => none
  | some lang =>
    match lookup files path with
    | none => none
    | some f =>
      match f.stat with
      | none => none
      | some st =>
        if st.size = 0 ∨ maxIndexableFileSize < st.size then none
        else if f.readable = false then none
        else if isBinaryContent f.bytes then none
        else
          match extract lang f.bytes with
          | none => none
          | some x => some ⟨x.definitions.map fun d => (d.1,d.2+1),
              x.references.map fun r => (r.1,r.2+1),x.aliases,.fromStat st⟩

/-- `_build_fast`. The batches keep the order of the files. -/
def buildFast (extract : Extractor) (files : Files) (filePaths : List PyStr) : ScopeGraphIndex :=
  filePaths.foldl (fun i path =>
    match processFileFast extract files path with
    | none => i
    | some syms => i.merge path syms) .empty

/-- The lines of a symbol, in the order in which the file has them. -/
def linesOf (occurrences : List (PyStr × ℕ)) (k : PyStr) : List ℕ :=
  (occurrences.filter fun o => o.1 = k).map fun o => saturateLine o.2

/-- The original of an alias in a file, which is the last one that the file gives. -/
def FileSymbols.original (syms : FileSymbols) (aliasName : PyStr) : Option PyStr :=
  lookup (ofItems syms.aliases) aliasName

/-- No alias has two originals in the files. -/
def Agreed (taken : PyStr → Option FileSymbols) : Prop :=
  ∀ aliasName p q syms syms' o o', taken p = some syms → taken q = some syms' →
    syms.original aliasName = some o → syms'.original aliasName = some o' → o = o'

namespace ScopeGraphIndex

/-- The occurrences and the entries of the index are those of the files. -/
structure Holds (i : ScopeGraphIndex) (taken : PyStr → Option FileSymbols) : Prop where
  definitions : ∀ k p, i.definitions.positions k p =
    (taken p).elim [] fun syms => linesOf syms.definitions k
  references : ∀ k p, i.references.positions k p =
    (taken p).elim [] fun syms => linesOf syms.references k
  fileMeta : ∀ p, lookup i.fileMeta p = (taken p).map FileSymbols.fileMeta

/-- The aliases of the index are those of the files. -/
def HoldsAliases (i : ScopeGraphIndex) (taken : PyStr → Option FileSymbols) : Prop :=
  ∀ aliasName o, lookup i.aliases aliasName = some o ↔
    ∃ p syms, taken p = some syms ∧ syms.original aliasName = some o

structure Sound (i : ScopeGraphIndex) : Prop where
  definitions : i.definitions.Sound
  references : i.references.Sound

/-- Two indexes answer alike: their maps have the same keys and values, where the places of a
symbol may come in another order. -/
structure Same (i i' : ScopeGraphIndex) : Prop where
  definitions : i.definitions.Same i'.definitions
  references : i.references.Same i'.references
  aliases : ∀ aliasName, lookup i.aliases aliasName = lookup i'.aliases aliasName
  fileMeta : ∀ p, lookup i.fileMeta p = lookup i'.fileMeta p

variable {i i' : ScopeGraphIndex} {path : PyStr} {syms : FileSymbols}
  {taken : PyStr → Option FileSymbols}

theorem Sound.empty : empty.Sound := ⟨.empty,.empty⟩

theorem Holds.empty : empty.Holds fun _ => none := ⟨fun _ _ => rfl,fun _ _ => rfl,fun _ => rfl⟩

theorem HoldsAliases.empty : empty.HoldsAliases fun _ => none := by
  refine fun aliasName o => ⟨fun h => absurd h (Option.some_ne_none o).symm,?_⟩
  rintro ⟨p,syms,hp,-⟩
  cases hp

theorem HoldsAliases.agreed (h : i.HoldsAliases taken) : Agreed taken := by
  intro aliasName p q syms syms' o o' hp hq ho ho'
  have hl := (h aliasName o).mpr ⟨p,syms,hp,ho⟩
  rw [(h aliasName o').mpr ⟨q,syms',hq,ho'⟩] at hl
  exact (Option.some.inj hl).symm

def saturated (occurrences : List (PyStr × ℕ)) : List (PyStr × ℕ) :=
  occurrences.map fun o => (o.1,saturateLine o.2)

theorem foldl_addDefinition (i : ScopeGraphIndex) (path : PyStr) (ds : List (PyStr × ℕ)) :
    ds.foldl (fun i d => i.addDefinition d.1 path d.2) i =
      {i with definitions := i.definitions.addAll path (saturated ds)} := by
  induction ds generalizing i with
  | nil => rfl
  | cons d ds ih =>
    rw [List.foldl_cons,ih]
    rfl

theorem foldl_addReference (i : ScopeGraphIndex) (path : PyStr) (rs : List (PyStr × ℕ)) :
    rs.foldl (fun i r => i.addReference r.1 path r.2) i =
      {i with references := i.references.addAll path (saturated rs)} := by
  induction rs generalizing i with
  | nil => rfl
  | cons r rs ih =>
    rw [List.foldl_cons,ih]
    rfl

theorem foldl_addAlias (i : ScopeGraphIndex) (as : List (PyStr × PyStr)) :
    ∃ reverseAliases, as.foldl (fun i a => i.addAlias a.1 a.2) i =
      {i with aliases := as.foldl (fun d a => assign d a.1 a.2) i.aliases, reverseAliases} := by
  induction as generalizing i with
  | nil => exact ⟨_,rfl⟩
  | cons a as ih =>
    obtain ⟨reverseAliases,h⟩ := ih (i.addAlias a.1 a.2)
    refine ⟨reverseAliases,?_⟩
    rw [List.foldl_cons,h]
    rfl

theorem merge_spec (i : ScopeGraphIndex) (path : PyStr) (syms : FileSymbols) :
    (i.merge path syms).definitions = i.definitions.addAll path (saturated syms.definitions) ∧
    (i.merge path syms).references = i.references.addAll path (saturated syms.references) ∧
    (i.merge path syms).aliases = syms.aliases.foldl (fun d a => assign d a.1 a.2) i.aliases ∧
    (i.merge path syms).fileMeta = assign i.fileMeta path syms.fileMeta := by
  rw [merge,foldl_addDefinition,foldl_addReference]
  obtain ⟨reverseAliases,h⟩ := foldl_addAlias {i with
    definitions := i.definitions.addAll path (saturated syms.definitions)
    references := i.references.addAll path (saturated syms.references)} syms.aliases
  rw [h]
  exact ⟨rfl,rfl,rfl,rfl⟩

theorem Sound.merge (h : i.Sound) (path : PyStr) (syms : FileSymbols) : (i.merge path syms).Sound := by
  obtain ⟨hd,hr,-⟩ := merge_spec i path syms
  refine ⟨?_,?_⟩
  · rw [hd]
    exact h.definitions.addAll _ _
  · rw [hr]
    exact h.references.addAll _ _

theorem linesOf_saturated (occurrences : List (PyStr × ℕ)) (k : PyStr) :
    ((saturated occurrences).filter fun o => o.1 = k).map Prod.snd = linesOf occurrences k := by
  rw [saturated,List.filter_map,List.map_map]
  rfl

theorem Holds.merge (h : i.Holds taken) (hnone : taken path = none) (syms : FileSymbols) :
    (i.merge path syms).Holds (Function.update taken path (some syms)) := by
  obtain ⟨hd,hr,-,hm⟩ := merge_spec i path syms
  refine ⟨fun k p => ?_,fun k p => ?_,fun p => ?_⟩
  · rw [hd,Postings.positions_addAll,h.definitions,linesOf_saturated]
    by_cases hp : path = p
    · subst hp
      rw [hnone,if_pos rfl,Function.update_self]
      rfl
    · rw [if_neg hp,Function.update_of_ne (Ne.symm hp),List.append_nil]
  · rw [hr,Postings.positions_addAll,h.references,linesOf_saturated]
    by_cases hp : path = p
    · subst hp
      rw [hnone,if_pos rfl,Function.update_self]
      rfl
    · rw [if_neg hp,Function.update_of_ne (Ne.symm hp),List.append_nil]
  · rw [hm,lookup_assign,h.fileMeta]
    by_cases hp : path = p
    · subst hp
      rw [if_pos rfl,Function.update_self]
      rfl
    · rw [if_neg hp,Function.update_of_ne (Ne.symm hp)]

theorem lookup_foldl_assign (items d : List (PyStr × PyStr)) (a : PyStr) :
    lookup (items.foldl (fun d kv => assign d kv.1 kv.2) d) a =
      (lookup (ofItems items) a).or (lookup d a) := by
  induction items using List.reverseRecOn with
  | nil => rfl
  | append_singleton items kv ih =>
    rw [List.foldl_append,List.foldl_cons,List.foldl_nil,lookup_assign,ih,ofItems_append,lookup_assign]
    by_cases h : kv.1 = a
    · rw [if_pos h,if_pos h,Option.some_or]
    · rw [if_neg h,if_neg h]

theorem lookup_aliases_merge (i : ScopeGraphIndex) (path : PyStr) (syms : FileSymbols) (a : PyStr) :
    lookup (i.merge path syms).aliases a = (syms.original a).or (lookup i.aliases a) := by
  rw [(merge_spec i path syms).2.2.1]
  exact lookup_foldl_assign _ _ a

theorem Sound.removeFile (h : i.Sound) (path : PyStr) : (i.removeFile path).Sound :=
  ⟨h.definitions.prune path,h.references.prune path⟩

theorem Holds.removeFile (hs : i.Sound) (h : i.Holds taken) (path : PyStr) :
    (i.removeFile path).Holds (Function.update taken path none) := by
  refine ⟨fun k p => ?_,fun k p => ?_,fun p => ?_⟩
  · refine (Postings.positions_prune hs.definitions k path p).trans ?_
    by_cases hp : path = p
    · subst hp
      rw [if_pos rfl,Function.update_self]
      rfl
    · rw [if_neg hp,Function.update_of_ne (Ne.symm hp),h.definitions]
  · refine (Postings.positions_prune hs.references k path p).trans ?_
    by_cases hp : path = p
    · subst hp
      rw [if_pos rfl,Function.update_self]
      rfl
    · rw [if_neg hp,Function.update_of_ne (Ne.symm hp),h.references]
  · refine (lookup_remove i.fileMeta path p).trans ?_
    by_cases hp : path = p
    · subst hp
      rw [if_pos rfl,Function.update_self]
      rfl
    · rw [if_neg hp,Function.update_of_ne (Ne.symm hp),h.fileMeta]

theorem same_of_holds (hs : i.Sound) (hs' : i'.Sound) (h : i.Holds taken) (h' : i'.Holds taken)
    (ha : i.HoldsAliases taken) (ha' : i'.HoldsAliases taken) : i.Same i' := by
  refine ⟨Postings.same_of_positions hs.definitions hs'.definitions fun k p => ?_,
    Postings.same_of_positions hs.references hs'.references fun k p => ?_,fun a => ?_,fun p => ?_⟩
  · rw [h.definitions,h'.definitions]
  · rw [h.references,h'.references]
  · exact Option.ext fun o => (ha a o).trans (ha' a o).symm
  · rw [h.fileMeta,h'.fileMeta]

theorem HoldsAliases.merge (h : i.HoldsAliases taken) (hnone : taken path = none)
    (hagreed : Agreed (Function.update taken path (some syms))) :
    (i.merge path syms).HoldsAliases (Function.update taken path (some syms)) := by
  have hold : ∀ p syms', taken p = some syms' →
      Function.update taken path (some syms) p = some syms' := by
    intro p syms' hp
    rw [Function.update_of_ne,hp]
    rintro rfl
    rw [hnone] at hp
    cases hp
  have hnew : Function.update taken path (some syms) path = some syms := Function.update_self ..
  have hsound : ∀ a o, lookup (i.merge path syms).aliases a = some o →
      ∃ p syms', Function.update taken path (some syms) p = some syms' ∧ syms'.original a = some o := by
    intro a o ho
    rw [lookup_aliases_merge] at ho
    cases hs : syms.original a with
    | some o' =>
      rw [hs,Option.some_or] at ho
      exact ⟨path,syms,hnew,hs.trans ho⟩
    | none =>
      rw [hs,Option.none_or] at ho
      obtain ⟨p,syms',hp,ho⟩ := (h a o).mp ho
      exact ⟨p,syms',hold p syms' hp,ho⟩
  refine fun a o => ⟨hsound a o,?_⟩
  rintro ⟨p,syms',hp,ho⟩
  have hsome : (lookup (i.merge path syms).aliases a).isSome := by
    rw [lookup_aliases_merge,Option.isSome_or,Bool.or_eq_true]
    by_cases hpath : p = path
    · subst hpath
      rw [hnew] at hp
      cases hp
      rw [ho]
      exact .inl rfl
    · rw [Function.update_of_ne hpath] at hp
      rw [(h a o).mpr ⟨p,syms',hp,ho⟩]
      exact .inr rfl
  obtain ⟨o',ho'⟩ := Option.isSome_iff_exists.mp hsome
  obtain ⟨q,syms'',hq,hoq⟩ := hsound a o' ho'
  rw [ho',hagreed a q p syms'' syms' o' o hq hp hoq ho]

/-- What a build of a list of files takes in. -/
def listed (extract : Extractor) (files : Files) (filePaths : List PyStr) (p : PyStr) :
    Option FileSymbols :=
  if p ∈ filePaths then processFileFast extract files p else none

theorem listed_append {extract : Extractor} {files : Files} {filePaths : List PyStr} {q : PyStr}
    (hq : q ∉ filePaths) : listed extract files (filePaths++[q]) =
      Function.update (listed extract files filePaths) q (processFileFast extract files q) := by
  funext p
  by_cases hp : p = q
  · subst hp
    rw [Function.update_self,listed,if_pos (List.mem_append_right _ (List.mem_singleton_self p))]
  · rw [Function.update_of_ne hp,listed,listed]
    refine if_congr ?_ rfl rfl
    rw [List.mem_append,List.mem_singleton]
    exact or_iff_left hp

theorem buildFast_spec (extract : Extractor) (files : Files) {filePaths : List PyStr}
    (hnodup : filePaths.Nodup) : (buildFast extract files filePaths).Sound ∧
      (buildFast extract files filePaths).Holds (listed extract files filePaths) ∧
      (Agreed (listed extract files filePaths) →
        (buildFast extract files filePaths).HoldsAliases (listed extract files filePaths)) := by
  induction filePaths using List.reverseRecOn with
  | nil => exact ⟨.empty,.empty,fun _ => .empty⟩
  | append_singleton filePaths q ih =>
    obtain ⟨hnodup,hq⟩ : filePaths.Nodup ∧ q ∉ filePaths := by
      rw [List.nodup_append_comm,List.singleton_append,List.nodup_cons] at hnodup
      exact hnodup.symm
    obtain ⟨hsound,hholds,haliases⟩ := ih hnodup
    have hnone : listed extract files filePaths q = none := if_neg hq
    rw [listed_append hq,buildFast,List.foldl_append,List.foldl_cons,List.foldl_nil,← buildFast]
    cases hprocess : processFileFast extract files q with
    | none =>
      have hsame : Function.update (listed extract files filePaths) q none =
          listed extract files filePaths := by
        rw [← hnone,Function.update_eq_self]
      rw [hsame]
      exact ⟨hsound,hholds,haliases⟩
    | some syms =>
      refine ⟨hsound.merge q syms,hholds.merge hnone syms,fun hagreed => ?_⟩
      refine (haliases fun a p p' s s' o o' hp hp' ho ho' => ?_).merge hnone hagreed
      have hold : ∀ p s, listed extract files filePaths p = some s →
          Function.update (listed extract files filePaths) q (some syms) p = some s := by
        intro p s hp
        rw [Function.update_of_ne,hp]
        rintro rfl
        rw [hnone] at hp
        cases hp
      exact hagreed a p p' s s' o o' (hold p s hp) (hold p' s' hp') ho ho'

end ScopeGraphIndex

end MinimaxCode.SymbolIndex
