import MinimaxCode.BinaryFormat
import MinimaxCode.Postings
import MinimaxCode.Runs
import MinimaxCode.TextMode

/-!
# The scope graph index

Names and paths are interned, and every table of the index is over their ids. Beside the
definitions and references of a symbol there is a table of the symbols of a file, and beside
the original of an alias a table of the aliases of an original, so that a file can be taken
out or renamed by its own symbols alone.
-/

namespace MinimaxCode.ScopeIndex

open PyText OrderedDict Runs
open BinaryFormat (Bytes)

/-- `s.encode("utf-8")`. -/
def utf8 (s : PyStr) : Option Bytes := (TextMode.encode s).map fun content => content.data.toList

/-- `raw.decode("utf-8")`. -/
def fromUtf8 (raw : Bytes) : Option PyStr := TextMode.decode ⟨raw.toArray⟩

/-- The slot of a string. -/
abbrev StringId := ℕ

structure StringInterner where
  strings : List Bytes
  index : List (Bytes × StringId)
  deriving DecidableEq

namespace StringInterner

def new : StringInterner := ⟨[],[]⟩

def internBytes (n : StringInterner) (s : Bytes) : StringId × StringInterner :=
  match lookup n.index s with
  | some existing => (existing,n)
  | none => (n.strings.length,⟨n.strings++[s],assign n.index s n.strings.length⟩)

def get (n : StringInterner) (id : StringId) : Option PyStr := n.strings[id]?.bind fromUtf8

def fromParts (strings : List Bytes) : StringInterner := ⟨strings,ofItems strings.zipIdx⟩

end StringInterner

structure FileMeta where
  size : ℤ
  mtimeSecs : ℤ
  mtimeNanos : ℤ
  deriving DecidableEq

/-- What `get_definitions` and `get_references` give of a graph: each name with its first line,
counted from zero. -/
structure ScopeGraph where
  definitions : List (PyStr × ℤ)
  references : List (PyStr × ℤ)
  deriving DecidableEq

/-- The tables of the source come in pairs: the definitions with `file_to_defs` and the
references with `file_to_refs`. -/
structure ScopeGraphIndex where
  interner : StringInterner
  graphs : List (StringId × ScopeGraph)
  definitions : Postings StringId StringId ℤ
  references : Postings StringId StringId ℤ
  aliases : List (StringId × StringId)
  reverseAliases : List (StringId × List StringId)
  fileMeta : List (StringId × FileMeta)
  queryVersion : Option ℤ

def u32Max : ℤ := 0xFFFFFFFF

def saturateLine (line : ℤ) : ℤ := if line < u32Max then line else u32Max

namespace ScopeGraphIndex

def new : ScopeGraphIndex := ⟨.new,[],.empty,.empty,[],[],[],none⟩

/-- The id of a string; a string that cannot be encoded raises. -/
def intern (i : ScopeGraphIndex) (s : PyStr) : Option (StringId × ScopeGraphIndex) :=
  (utf8 s).map fun raw =>
    ((i.interner.internBytes raw).1,{i with interner := (i.interner.internBytes raw).2})

def getStr (i : ScopeGraphIndex) (id : StringId) : Option PyStr := i.interner.get id

/-- The id of an interned string. -/
def getId (i : ScopeGraphIndex) (s : PyStr) : Option StringId :=
  (utf8 s).bind (lookup i.interner.index)

/-! ### Operations

Each operation gives the index that it leaves and whether it ran to its end. -/

def linkAlias (i : ScopeGraphIndex) (aliasId originalId : StringId) : ScopeGraphIndex :=
  let known := (lookup i.reverseAliases originalId).getD []
  {i with
    aliases := assign i.aliases aliasId originalId
    reverseAliases := assign i.reverseAliases originalId
      (if aliasId ∈ known then known else known++[aliasId])}

def addAlias (i : ScopeGraphIndex) (aliasName originalName : PyStr) : ScopeGraphIndex × Bool :=
  match i.intern aliasName with
  | none => (i,false)
  | some (aliasId,i) =>
    match i.intern originalName with
    | none => (i,false)
    | some (originalId,i) => (i.linkAlias aliasId originalId,true)

def addDefinitionWithPathId (i : ScopeGraphIndex) (symbol : PyStr) (pathId : StringId) (line : ℤ) :
    ScopeGraphIndex × Bool :=
  match i.intern symbol with
  | none => (i,false)
  | some (symbolId,i) =>
    ({i with definitions := i.definitions.add symbolId pathId (saturateLine line)},true)

def addDefinition (i : ScopeGraphIndex) (symbol path : PyStr) (line : ℤ) : ScopeGraphIndex × Bool :=
  match i.intern path with
  | none => (i,false)
  | some (pathId,i) => i.addDefinitionWithPathId symbol pathId line

def addReferenceWithPathId (i : ScopeGraphIndex) (symbol : PyStr) (pathId : StringId) (line : ℤ) :
    ScopeGraphIndex × Bool :=
  match i.intern symbol with
  | none => (i,false)
  | some (symbolId,i) =>
    ({i with references := i.references.add symbolId pathId (saturateLine line)},true)

def addReference (i : ScopeGraphIndex) (symbol path : PyStr) (line : ℤ) : ScopeGraphIndex × Bool :=
  match i.intern path with
  | none => (i,false)
  | some (pathId,i) => i.addReferenceWithPathId symbol pathId line

def setFileMeta (i : ScopeGraphIndex) (path : PyStr) (fileMeta : FileMeta) : ScopeGraphIndex × Bool :=
  match i.intern path with
  | none => (i,false)
  | some (pathId,i) => ({i with fileMeta := assign i.fileMeta pathId fileMeta},true)

/-- A loop over the occurrences of a graph, which a raise ends. -/
def addAll (put : ScopeGraphIndex → PyStr → StringId → ℤ → ScopeGraphIndex × Bool)
    (pathId : StringId) : ScopeGraphIndex → List (PyStr × ℤ) → ScopeGraphIndex × Bool
  | i, [] => (i,true)
  | i, (name,line)::rest =>
    match put i name pathId (line+1) with
    | (i,false) => (i,false)
    | (i,true) => addAll put pathId i rest

def addFile (i : ScopeGraphIndex) (filePath : PyStr) (graph : ScopeGraph) : ScopeGraphIndex × Bool :=
  match i.intern filePath with
  | none => (i,false)
  | some (pathId,i) =>
    match addAll addDefinitionWithPathId pathId i graph.definitions with
    | (i,false) => (i,false)
    | (i,true) =>
      match addAll addReferenceWithPathId pathId i graph.references with
      | (i,false) => (i,false)
      | (i,true) => ({i with graphs := assign i.graphs pathId graph},true)

def removeFile (i : ScopeGraphIndex) (filePath : PyStr) : ScopeGraphIndex × Bool :=
  match utf8 filePath with
  | none => (i,false)
  | some raw =>
    match lookup i.interner.index raw with
    | none => (i,true)
    | some pathId =>
      ({i with
        graphs := remove i.graphs pathId
        fileMeta := remove i.fileMeta pathId
        definitions := i.definitions.prune pathId
        references := i.references.prune pathId},true)

/-- `d[to] = d.pop(from)`, when there is something to pop. -/
def rekey {V : Type*} (d : List (StringId × V)) (fromId toId : StringId) : List (StringId × V) :=
  match lookup d fromId with
  | none => d
  | some v => assign (remove d fromId) toId v

def renameFile (i : ScopeGraphIndex) (fromPath toPath : PyStr) : ScopeGraphIndex × Bool :=
  match utf8 fromPath with
  | none => (i,false)
  | some raw =>
    match lookup i.interner.index raw with
    | none => (i,true)
    | some fromId =>
      match i.intern toPath with
      | none => (i,false)
      | some (toId,i) =>
        ({i with
          definitions := i.definitions.move fromId toId
          references := i.references.move fromId toId
          graphs := rekey i.graphs fromId toId
          fileMeta := rekey i.fileMeta fromId toId},true)

def setQueryVersion (i : ScopeGraphIndex) (version : ℤ) : ScopeGraphIndex :=
  {i with queryVersion := some version}

/-- The locations of an id whose path the interner knows. -/
def located (i : ScopeGraphIndex) (locs : List (StringId × ℤ)) : List (PyStr × ℤ) :=
  locs.filterMap fun l => (i.getStr l.1).map fun path => (path,l.2)

def definitionSources (i : ScopeGraphIndex) (symbolId : StringId) : List StringId :=
  symbolId::(lookup i.aliases symbolId).toList

/-- The sources are the ids once each, as `dict.fromkeys` leaves them. -/
def referenceSources (i : ScopeGraphIndex) (symbolId : StringId) : List StringId :=
  keys (ofItems ((symbolId::(lookup i.aliases symbolId).toList++
    (lookup i.reverseAliases symbolId).getD []).map fun id => (id,())))

/-- A query by name: nothing for a string that is not interned, and a raise for one that cannot
be encoded. -/
def query {R : Type*} (i : ScopeGraphIndex) (symbol : PyStr) (answer : StringId → List R) :
    Option (List R) :=
  (utf8 symbol).map fun raw => (lookup i.interner.index raw).elim [] answer

def findDefinitions (i : ScopeGraphIndex) (symbol : PyStr) : Option (List (PyStr × ℤ)) :=
  i.query symbol fun symbolId =>
    (i.definitionSources symbolId).flatMap fun sourceId => i.located (i.definitions.places sourceId)

def findReferences (i : ScopeGraphIndex) (symbol : PyStr) : Option (List (PyStr × ℤ)) :=
  i.query symbol fun symbolId =>
    (i.referenceSources symbolId).flatMap fun sourceId => i.located (i.references.places sourceId)

def findReferencesWithNames (i : ScopeGraphIndex) (symbol : PyStr) :
    Option (List (PyStr × PyStr × ℤ)) :=
  i.query symbol fun symbolId =>
    (i.referenceSources symbolId).flatMap fun sourceId =>
      (i.getStr sourceId).elim [] fun name =>
        (i.located (i.references.places sourceId)).map fun pl => (name,pl)

/-! The queries by path and the figures of the index. -/

def hasDefinition (i : ScopeGraphIndex) (symbol : PyStr) : Option Bool :=
  (utf8 symbol).map fun raw => (lookup i.interner.index raw).elim false fun symbolId =>
    decide (symbolId ∈ keys i.definitions.forward)

def getFileMeta (i : ScopeGraphIndex) (path : PyStr) : Option (Option FileMeta) :=
  (utf8 path).map fun raw => (lookup i.interner.index raw).bind (lookup i.fileMeta)

def isIndexed (i : ScopeGraphIndex) (path : PyStr) : Option Bool :=
  (i.getFileMeta path).map Option.isSome

/-- `is_file_stale`, where the metadata that `stat` gives now is nothing for a file that is gone. -/
def isFileStale (i : ScopeGraphIndex) (path : PyStr) (current : Option FileMeta) : Option Bool :=
  (i.getFileMeta path).map fun cached => decide (cached = none ∨ current = none ∨ cached ≠ current)

def filePathsWithMeta (i : ScopeGraphIndex) : List (PyStr × FileMeta) :=
  i.fileMeta.filterMap fun kv => (i.getStr kv.1).map fun path => (path,kv.2)

def indexedFiles (i : ScopeGraphIndex) : List PyStr := i.fileMeta.filterMap fun kv => i.getStr kv.1

def fileCount (i : ScopeGraphIndex) : ℕ := i.fileMeta.length

def stats (i : ScopeGraphIndex) : ℕ × ℕ × ℕ :=
  (i.fileMeta.length,(i.definitions.forward.map fun kv => kv.2.length).sum,
    (i.references.forward.map fun kv => kv.2.length).sum)

def aliasCount (i : ScopeGraphIndex) : ℕ := i.aliases.length

def topReferencedSymbols (i : ScopeGraphIndex) (limit : ℕ) : List (PyStr × ℕ) :=
  let counts := i.references.forward.filterMap fun kv =>
    (i.getStr kv.1).map fun name => (name,kv.2.length)
  (counts.mergeSort fun c c' => decide (c'.2 ≤ c.2)).take limit

def needsQueryRebuild (i : ScopeGraphIndex) (currentVersion : ℤ) : Bool :=
  decide (i.queryVersion ≠ some currentVersion)

end ScopeGraphIndex

/-- `os.path.splitext(path)[1].lstrip(".")`. -/
def extOf (path : PyStr) : PyStr :=
  let name := (path.reverse.takeWhile (· ≠ ch '/')).reverse
  let stem := name.dropWhile (· = ch '.')
  if ch '.' ∈ stem then (stem.reverse.takeWhile (· ≠ ch '.')).reverse else []

/-- Stable sorting by same language first and by path then. -/
def rank {R : Type*} (same : PyStr → PyStr → Bool) (pathOf : R → PyStr) (contextFile : Option PyStr)
    (results : List R) : List R :=
  match contextFile with
  | none => results
  | some context =>
    let sameLang r := decide (extOf (pathOf r) = extOf context) || same (extOf (pathOf r)) (extOf context)
    results.mergeSort fun r r' =>
      if sameLang r = sameLang r' then strLe (pathOf r) (pathOf r') else sameLang r

namespace ScopeGraphIndex

/-- The registry says which extensions are of one language; without one none but the same are. -/
def findDefinitionsSmart (i : ScopeGraphIndex) (symbol : PyStr) (contextFile : Option PyStr)
    (same : PyStr → PyStr → Bool) : Option (List (PyStr × ℤ)) :=
  (i.findDefinitions symbol).map fun locs =>
    rank same Prod.fst contextFile (keys (ofItems (locs.map fun l => (l,()))))

def findReferencesSmart (i : ScopeGraphIndex) (symbol : PyStr) (contextFile : Option PyStr)
    (same : PyStr → PyStr → Bool) : Option (List (PyStr × PyStr × ℤ)) :=
  (i.findReferencesWithNames symbol).map (rank same (fun r => r.2.1) contextFile)

def findDefinitionsByExtension (i : ScopeGraphIndex) (symbol : PyStr) (extensions : List PyStr) :
    Option (List (PyStr × ℤ)) :=
  (i.findDefinitions symbol).map (List.filter fun l => extOf l.1 ∈ extensions)

def findReferencesByExtension (i : ScopeGraphIndex) (symbol : PyStr) (extensions : List PyStr) :
    Option (List (PyStr × PyStr × ℤ)) :=
  (i.findReferencesWithNames symbol).map (List.filter fun r => extOf r.2.1 ∈ extensions)

end ScopeGraphIndex

inductive Op
  | intern (s : PyStr)
  | addFile (filePath : PyStr) (graph : ScopeGraph)
  | addDefinition (symbol path : PyStr) (line : ℤ)
  | addReference (symbol path : PyStr) (line : ℤ)
  | addDefinitionWithPathId (symbol : PyStr) (pathId : StringId) (line : ℤ)
  | addReferenceWithPathId (symbol : PyStr) (pathId : StringId) (line : ℤ)
  | addAlias (aliasName originalName : PyStr)
  | setFileMeta (path : PyStr) (fileMeta : FileMeta)
  | setQueryVersion (version : ℤ)
  | removeFile (filePath : PyStr)
  | renameFile (fromPath toPath : PyStr)

namespace ScopeGraphIndex

def apply (i : ScopeGraphIndex) : Op → ScopeGraphIndex × Bool
  | .intern s => (i.intern s).elim (i,false) fun r => (r.2,true)
  | .addFile filePath graph => i.addFile filePath graph
  | .addDefinition symbol path line => i.addDefinition symbol path line
  | .addReference symbol path line => i.addReference symbol path line
  | .addDefinitionWithPathId symbol pathId line => i.addDefinitionWithPathId symbol pathId line
  | .addReferenceWithPathId symbol pathId line => i.addReferenceWithPathId symbol pathId line
  | .addAlias aliasName originalName => i.addAlias aliasName originalName
  | .setFileMeta path fileMeta => i.setFileMeta path fileMeta
  | .setQueryVersion version => (i.setQueryVersion version,true)
  | .removeFile filePath => i.removeFile filePath
  | .renameFile fromPath toPath => i.renameFile fromPath toPath

/-- The table of the aliases of an original is the inverse of the table of originals. -/
structure AliasesExact (i : ScopeGraphIndex) : Prop where
  inverse : ∀ a o, a ∈ (lookup i.reverseAliases o).getD [] ↔ lookup i.aliases a = some o
  inhabited : ∀ o as, lookup i.reverseAliases o = some as → as ≠ []

/-- No query gives a location in a file. -/
structure Vacated (i : ScopeGraphIndex) (f : PyStr) : Prop where
  definitions : ∀ symbol locs, i.findDefinitions symbol = some locs → ∀ l ∈ locs, l.1 ≠ f
  references : ∀ symbol locs, i.findReferences symbol = some locs → ∀ l ∈ locs, l.1 ≠ f
  named : ∀ symbol locs, i.findReferencesWithNames symbol = some locs → ∀ l ∈ locs, l.2.1 ≠ f
  smartDefinitions : ∀ symbol context same locs,
    i.findDefinitionsSmart symbol context same = some locs → ∀ l ∈ locs, l.1 ≠ f
  smartReferences : ∀ symbol context same locs,
    i.findReferencesSmart symbol context same = some locs → ∀ l ∈ locs, l.2.1 ≠ f
  definitionsByExtension : ∀ symbol extensions locs,
    i.findDefinitionsByExtension symbol extensions = some locs → ∀ l ∈ locs, l.1 ≠ f
  referencesByExtension : ∀ symbol extensions locs,
    i.findReferencesByExtension symbol extensions = some locs → ∀ l ∈ locs, l.2.1 ≠ f

/-- Some symbol has a location in the file. -/
def Occurs (i : ScopeGraphIndex) (f : PyStr) : Prop :=
  ∃ id, i.getId f = some id ∧ (i.definitions.keysOf id ≠ [] ∨ i.references.keysOf id ≠ [])

end ScopeGraphIndex

/-- An index and the file that its last operation took out or renamed. -/
structure Observed where
  index : ScopeGraphIndex
  vacated : Option PyStr

namespace Observed

def new : Observed := ⟨.new,none⟩

def vacates (completed : Bool) : Op → Option PyStr
  | .removeFile filePath => if completed then some filePath else none
  | .renameFile fromPath _ => if completed then some fromPath else none
  | _ => none

def step (s : Observed) (op : Op) : Option Observed :=
  some ⟨(s.index.apply op).1,vacates (s.index.apply op).2 op⟩

/-- The redundant tables agree and the file last taken out is gone. -/
structure Consistent (s : Observed) : Prop where
  definitions : s.index.definitions.Exact
  references : s.index.references.Exact
  aliases : s.index.AliasesExact
  vacated : ∀ f ∈ s.vacated, s.index.Vacated f

/-- An alias keeps its original, and no file that has symbols is renamed to itself. -/
def keeps (s : Observed) : Op → Prop
  | .addAlias aliasName originalName => ∀ aliasId originalId, s.index.getId aliasName = some aliasId →
      lookup s.index.aliases aliasId = some originalId → (utf8 originalName).isSome →
        s.index.getId originalName = some originalId
  | .renameFile fromPath toPath => fromPath = toPath → ¬s.index.Occurs fromPath
  | _ => True

end Observed

theorem fromUtf8_eq_some_iff {raw : Bytes} {s : PyStr} : fromUtf8 raw = some s ↔ utf8 s = some raw := by
  rw [fromUtf8,TextMode.decode_eq_some_iff,utf8,Option.map_eq_some_iff]
  constructor
  · intro h
    exact ⟨_,h,rfl⟩
  · rintro ⟨content,h,rfl⟩
    exact h

namespace StringInterner

/-- The index says of each string which slot it is in, no string is there twice, and all of
them are text. -/
structure Valid (n : StringInterner) : Prop where
  nodup : n.strings.Nodup
  index : n.index = n.strings.zipIdx
  text : ∀ raw ∈ n.strings, (fromUtf8 raw).isSome

variable {n : StringInterner} {raw : Bytes} {id : StringId}

theorem keys_zipIdx (strings : List Bytes) : keys strings.zipIdx = strings := List.zipIdx_map_fst 0 _

theorem Valid.lookup_index (h : n.Valid) : lookup n.index raw = some id ↔ n.strings[id]? = some raw := by
  rw [h.index,← List.mem_zipIdx_iff_getElem? (x := (raw,id))]
  refine ⟨mem_of_lookup,lookup_of_mem ?_⟩
  rw [keys_zipIdx]
  exact h.nodup

theorem Valid.new : new.Valid := ⟨List.nodup_nil,rfl,fun _ h => absurd h List.not_mem_nil⟩

theorem Valid.internBytes (h : n.Valid) (hraw : (fromUtf8 raw).isSome) :
    (n.internBytes raw).2.Valid ∧ n.strings <+: (n.internBytes raw).2.strings ∧
      (n.internBytes raw).2.strings[(n.internBytes raw).1]? = some raw := by
  rw [StringInterner.internBytes]
  cases hl : lookup n.index raw with
  | some existing => exact ⟨h,List.prefix_rfl,h.lookup_index.mp hl⟩
  | none =>
    have hnew : raw ∉ n.strings := by
      intro hmem
      obtain ⟨id,hid⟩ := List.mem_iff_getElem?.mp hmem
      rw [h.lookup_index.mpr hid] at hl
      cases hl
    refine ⟨⟨?_,?_,?_⟩,List.prefix_append _ _,by simp⟩
    · rw [List.nodup_append_comm,List.singleton_append,List.nodup_cons]
      exact ⟨hnew,h.nodup⟩
    · have hkeys : raw ∉ keys n.index := by
        rw [h.index,keys_zipIdx]
        exact hnew
      rw [assign_of_new hkeys,h.index,List.zipIdx_append]
      simp
    · intro s hs
      rcases List.mem_append.mp hs with hs | hs
      · exact h.text s hs
      · rw [List.mem_singleton.mp hs]
        exact hraw

end StringInterner

namespace ScopeGraphIndex

/-- The tables are dictionaries, no set holds an alias twice, and no line is beyond the last. -/
structure Dicts (i : ScopeGraphIndex) : Prop where
  definitions : i.definitions.Keyed
  references : i.references.Keyed
  aliases : (keys i.aliases).Nodup
  fileMeta : (keys i.fileMeta).Nodup
  reverseAliases : ∀ o as, lookup i.reverseAliases o = some as → as.Nodup
  definitionLines : ∀ k, ∀ l ∈ i.definitions.places k, l.2 ≤ u32Max
  referenceLines : ∀ k, ∀ l ∈ i.references.places k, l.2 ≤ u32Max
  files : ∀ k ∈ keys i.fileMeta, k < i.interner.strings.length

/-- What holds of the index whatever becomes of its aliases. -/
structure Inv (i : ScopeGraphIndex) : Prop where
  interner : i.interner.Valid
  definitions : i.definitions.Exact
  references : i.references.Exact
  symbols : ∀ k, i.definitions.places k ≠ [] ∨ i.references.places k ≠ [] →
    k < i.interner.strings.length
  linked : ∀ x y, lookup i.aliases x = some y →
    x < i.interner.strings.length ∧ y < i.interner.strings.length
  dicts : i.Dicts

/-- The invariant is kept and the aliases are left alone. -/
structure Keeps (i i' : ScopeGraphIndex) : Prop where
  inv : i.Inv → i'.Inv
  aliases : i'.aliases = i.aliases
  reverseAliases : i'.reverseAliases = i.reverseAliases

variable {i i' i'' : ScopeGraphIndex} {s symbol path f g : PyStr} {id pathId : StringId}
  {k : StringId} {t : Postings StringId StringId ℤ}

theorem Keeps.refl (i : ScopeGraphIndex) : i.Keeps i := ⟨fun h => h,rfl,rfl⟩

theorem Keeps.trans (h : i.Keeps i') (h' : i'.Keeps i'') : i.Keeps i'' :=
  ⟨fun hinv => h'.inv (h.inv hinv),h'.aliases.trans h.aliases,h'.reverseAliases.trans h.reverseAliases⟩

theorem Inv.new : new.Inv :=
  ⟨.new,.empty,.empty,fun _ h => absurd rfl (h.elim (fun h => h) fun h => h),
    fun _ _ h => absurd h (Option.some_ne_none _).symm,⟨List.nodup_nil,List.nodup_nil,List.nodup_nil,
      List.nodup_nil,fun _ _ h => absurd h (Option.some_ne_none _).symm,
      fun _ _ h => absurd h List.not_mem_nil,fun _ _ h => absurd h List.not_mem_nil,
      fun _ h => absurd h List.not_mem_nil⟩⟩

theorem Inv.getStr_iff (h : i.Inv) : i.getStr id = some s ↔ i.getId s = some id := by
  rw [getStr,StringInterner.get,getId,Option.bind_eq_some_iff,Option.bind_eq_some_iff]
  refine exists_congr fun raw => ?_
  rw [fromUtf8_eq_some_iff,h.interner.lookup_index,and_comm]

theorem intern_spec (h : i.intern s = some (id,i')) :
    ∃ raw, utf8 s = some raw ∧ id = (i.interner.internBytes raw).1 ∧
      i' = {i with interner := (i.interner.internBytes raw).2} := by
  obtain ⟨raw,hraw,heq⟩ := Option.map_eq_some_iff.mp h
  cases heq
  exact ⟨raw,hraw,rfl,rfl⟩

theorem Inv.intern (hi : i.Inv) (h : i.intern s = some (id,i')) :
    i'.Inv ∧ i.interner.strings <+: i'.interner.strings ∧ i'.getId s = some id := by
  obtain ⟨raw,hraw,rfl,rfl⟩ := intern_spec h
  have htext : (fromUtf8 raw).isSome := by rw [fromUtf8_eq_some_iff.mpr hraw]; rfl
  obtain ⟨hvalid,hmore,hslot⟩ := hi.interner.internBytes htext
  have hle := hmore.length_le
  refine ⟨⟨hvalid,hi.definitions,hi.references,fun k hk => (hi.symbols k hk).trans_le hle,
    fun x y hxy => (hi.linked x y hxy).imp (·.trans_le hle) (·.trans_le hle),
    {hi.dicts with files := fun k hk => (hi.dicts.files k hk).trans_le hle}⟩,hmore,?_⟩
  rw [getId,hraw]
  exact hvalid.lookup_index.mpr hslot

theorem lt_of_getId (h : i.Inv) (hid : i.getId s = some id) : id < i.interner.strings.length := by
  obtain ⟨raw,-,hl⟩ := Option.bind_eq_some_iff.mp hid
  exact (List.getElem?_eq_some_iff.mp (h.interner.lookup_index.mp hl)).1

theorem getId_mono (h : i.Inv) (h' : i'.Inv) (hmore : i.interner.strings <+: i'.interner.strings)
    (hid : i.getId s = some id) : i'.getId s = some id := by
  obtain ⟨raw,hraw,hl⟩ := Option.bind_eq_some_iff.mp hid
  refine Option.bind_eq_some_iff.mpr ⟨raw,hraw,h'.interner.lookup_index.mpr ?_⟩
  obtain ⟨rest,hrest⟩ := hmore
  rw [← hrest]
  exact List.getElem?_append_left (List.getElem?_eq_some_iff.mp (h.interner.lookup_index.mp hl)).1
    ▸ h.interner.lookup_index.mp hl

theorem Inv.text (hi : i.Inv) (h : id < i.interner.strings.length) : ∃ s, i.getStr id = some s := by
  rw [getStr,StringInterner.get,List.getElem?_eq_getElem h]
  exact Option.isSome_iff_exists.mp (hi.interner.text _ (List.getElem_mem h))

theorem getId_of_lt (h : i.Inv) (h' : i'.Inv) (hmore : i.interner.strings <+: i'.interner.strings)
    (hid : i'.getId s = some id) (hlt : id < i.interner.strings.length) : i.getId s = some id := by
  obtain ⟨name,hname⟩ := h.text hlt
  have hstr := h'.getStr_iff.mpr (getId_mono h h' hmore (h.getStr_iff.mp hname))
  rw [h'.getStr_iff.mpr hid] at hstr
  cases hstr
  exact h.getStr_iff.mp hname

theorem Keeps.intern (h : i.intern s = some (id,i')) : i.Keeps i' := by
  refine ⟨fun hi => (hi.intern h).1,?_,?_⟩ <;>
  · obtain ⟨raw,-,-,rfl⟩ := intern_spec h
    rfl

theorem lines_add (h : ∀ l ∈ t.places k, l.2 ≤ u32Max)
    (symbolId pathId : StringId) (line : ℤ) :
    ∀ l ∈ (t.add symbolId pathId (saturateLine line)).places k, l.2 ≤ u32Max := by
  intro l hl
  rw [Postings.places_add] at hl
  split at hl
  · rcases List.mem_append.mp hl with hl | hl
    · exact h l hl
    · rw [List.mem_singleton.mp hl,saturateLine]
      split <;> omega
  · exact h l hl

theorem lines_prune (ht : t.Sound)
    (h : ∀ l ∈ t.places k, l.2 ≤ u32Max) (pathId : StringId) :
    ∀ l ∈ (t.prune pathId).places k, l.2 ≤ u32Max := by
  intro l hl
  rw [Postings.places_prune ht] at hl
  exact h l (List.mem_filter.mp hl).1

theorem lines_move (ht : t.Exact)
    (h : ∀ l ∈ t.places k, l.2 ≤ u32Max) (fromId toId : StringId) :
    ∀ l ∈ (t.move fromId toId).places k, l.2 ≤ u32Max := by
  intro l hl
  rw [Postings.places_move ht] at hl
  obtain ⟨l,hmem,rfl⟩ := List.mem_map.mp hl
  rw [Postings.relabel]
  split <;> exact h l hmem

theorem mem_keys_rekey {V : Type*} {d : List (StringId × V)} {fromId toId : StringId}
    (h : k ∈ keys (rekey d fromId toId)) : k = toId ∨ k ∈ keys d := by
  rw [rekey] at h
  split at h
  · exact .inr h
  · exact (mem_keys_assign h).imp_right fun h => (mem_keys_remove h).2

theorem nodup_keys_rekey {V : Type*} {d : List (StringId × V)} (h : (keys d).Nodup)
    (fromId toId : StringId) : (keys (rekey d fromId toId)).Nodup := by
  rw [rekey]
  split
  · exact h
  · exact nodup_keys_assign (nodup_keys_remove h)

theorem Keeps.addDefinitionWithPathId (i : ScopeGraphIndex) (symbol : PyStr) (pathId : StringId)
    (line : ℤ) : i.Keeps (i.addDefinitionWithPathId symbol pathId line).1 := by
  rw [ScopeGraphIndex.addDefinitionWithPathId]
  cases h : i.intern symbol with
  | none => exact .refl i
  | some r =>
    obtain ⟨symbolId,i'⟩ := r
    have hkeeps := Keeps.intern h
    refine ⟨fun hi => ?_,hkeeps.aliases,hkeeps.reverseAliases⟩
    obtain ⟨hi',-,hid⟩ := hi.intern h
    have hlt := lt_of_getId hi' hid
    refine ⟨hi'.interner,hi'.definitions.add _ _ _,hi'.references,fun k hk => ?_,hi'.linked,
      {hi'.dicts with
        definitions := hi'.dicts.definitions.add _ _ _
        definitionLines := fun k => lines_add (hi'.dicts.definitionLines k) symbolId pathId line}⟩
    rw [Postings.places_add] at hk
    by_cases hk' : symbolId = k
    · exact hk' ▸ hlt
    · rw [if_neg hk'] at hk
      exact hi'.symbols k hk

theorem Keeps.addReferenceWithPathId (i : ScopeGraphIndex) (symbol : PyStr) (pathId : StringId)
    (line : ℤ) : i.Keeps (i.addReferenceWithPathId symbol pathId line).1 := by
  rw [ScopeGraphIndex.addReferenceWithPathId]
  cases h : i.intern symbol with
  | none => exact .refl i
  | some r =>
    obtain ⟨symbolId,i'⟩ := r
    have hkeeps := Keeps.intern h
    refine ⟨fun hi => ?_,hkeeps.aliases,hkeeps.reverseAliases⟩
    obtain ⟨hi',-,hid⟩ := hi.intern h
    have hlt := lt_of_getId hi' hid
    refine ⟨hi'.interner,hi'.definitions,hi'.references.add _ _ _,fun k hk => ?_,hi'.linked,
      {hi'.dicts with
        references := hi'.dicts.references.add _ _ _
        referenceLines := fun k => lines_add (hi'.dicts.referenceLines k) symbolId pathId line}⟩
    rw [Postings.places_add] at hk
    by_cases hk' : symbolId = k
    · exact hk' ▸ hlt
    · rw [if_neg hk'] at hk
      exact hi'.symbols k hk

theorem Keeps.addAll {put : ScopeGraphIndex → PyStr → StringId → ℤ → ScopeGraphIndex × Bool}
    (hput : ∀ (i : ScopeGraphIndex) symbol pathId line, i.Keeps (put i symbol pathId line).1) (pathId : StringId)
    (occurrences : List (PyStr × ℤ)) (i : ScopeGraphIndex) :
    i.Keeps (addAll put pathId i occurrences).1 := by
  induction occurrences generalizing i with
  | nil => exact .refl i
  | cons o rest ih =>
    have hi := hput i o.1 pathId (o.2+1)
    rw [ScopeGraphIndex.addAll]
    split
    · next h =>
      rw [h] at hi
      exact hi
    · next h =>
      rw [h] at hi
      exact hi.trans (ih _)

theorem Keeps.addFile (i : ScopeGraphIndex) (filePath : PyStr) (graph : ScopeGraph) :
    i.Keeps (i.addFile filePath graph).1 := by
  rw [ScopeGraphIndex.addFile]
  cases h : i.intern filePath with
  | none => exact .refl i
  | some r =>
    obtain ⟨pathId,i₁⟩ := r
    have h₁ := Keeps.intern h
    have h₂ := h₁.trans (Keeps.addAll Keeps.addDefinitionWithPathId pathId graph.definitions i₁)
    dsimp only
    split
    · next i₂ hd =>
      rw [hd] at h₂
      exact h₂
    · next i₂ hd =>
      rw [hd] at h₂
      have h₃ := h₂.trans (Keeps.addAll Keeps.addReferenceWithPathId pathId graph.references i₂)
      split
      · next i₃ hr =>
        rw [hr] at h₃
        exact h₃
      · next i₃ hr =>
        rw [hr] at h₃
        exact h₃.trans ⟨fun hi => ⟨hi.interner,hi.definitions,hi.references,hi.symbols,hi.linked,
          {hi.dicts with}⟩,rfl,rfl⟩

theorem Keeps.removeFile (i : ScopeGraphIndex) (filePath : PyStr) :
    i.Keeps (i.removeFile filePath).1 := by
  rw [ScopeGraphIndex.removeFile]
  split
  · exact .refl i
  · split
    · exact .refl i
    · next pathId _ =>
      refine ⟨fun hi => ⟨hi.interner,hi.definitions.prune _,hi.references.prune _,fun k hk => ?_,
        hi.linked,{hi.dicts with
          definitions := hi.dicts.definitions.prune _
          references := hi.dicts.references.prune _
          fileMeta := nodup_keys_remove hi.dicts.fileMeta
          definitionLines := fun k => lines_prune hi.definitions.sound (hi.dicts.definitionLines k) _
          referenceLines := fun k => lines_prune hi.references.sound (hi.dicts.referenceLines k) _
          files := fun k hk => hi.dicts.files k (mem_keys_remove hk).2}⟩,rfl,rfl⟩
      rw [Postings.places_prune hi.definitions.sound,Postings.places_prune hi.references.sound] at hk
      refine hi.symbols k (hk.imp ?_ ?_) <;>
      · intro hne hnil
        rw [hnil] at hne
        exact hne rfl

theorem Keeps.renameFile (i : ScopeGraphIndex) (fromPath toPath : PyStr) :
    i.Keeps (i.renameFile fromPath toPath).1 := by
  rw [ScopeGraphIndex.renameFile]
  split
  · exact .refl i
  · split
    · exact .refl i
    · cases h : i.intern toPath with
      | none => exact .refl i
      | some r =>
        have hkeeps := Keeps.intern h
        refine ⟨fun hi₀ => ?_,hkeeps.aliases,hkeeps.reverseAliases⟩
        obtain ⟨hi,-,hid⟩ := hi₀.intern h
        have hlt := lt_of_getId hi hid
        refine ⟨hi.interner,hi.definitions.move _ _,hi.references.move _ _,fun k hk => ?_,hi.linked,
          {hi.dicts with
            definitions := hi.dicts.definitions.move _ _
            references := hi.dicts.references.move _ _
            fileMeta := nodup_keys_rekey hi.dicts.fileMeta _ _
            definitionLines := fun k => lines_move hi.definitions (hi.dicts.definitionLines k) _ _
            referenceLines := fun k => lines_move hi.references (hi.dicts.referenceLines k) _ _
            files := fun k hk => (mem_keys_rekey hk).elim (fun h => h ▸ hlt) (hi.dicts.files k)}⟩
        rw [Postings.places_move hi.definitions,Postings.places_move hi.references] at hk
        refine hi.symbols k (hk.imp ?_ ?_) <;>
        · intro hne hnil
          rw [hnil] at hne
          exact hne rfl

theorem keeps_apply (i : ScopeGraphIndex) (op : Op) (h : ∀ a o, op ≠ .addAlias a o) :
    i.Keeps (i.apply op).1 := by
  cases op with
  | intern s =>
    rw [apply]
    cases hs : i.intern s with
    | none => exact .refl i
    | some r => exact .intern hs
  | addFile filePath graph => exact .addFile i filePath graph
  | addDefinition symbol path line =>
    rw [apply,addDefinition]
    cases hp : i.intern path with
    | none => exact .refl i
    | some r => exact (Keeps.intern hp).trans (.addDefinitionWithPathId r.2 symbol r.1 line)
  | addReference symbol path line =>
    rw [apply,addReference]
    cases hp : i.intern path with
    | none => exact .refl i
    | some r => exact (Keeps.intern hp).trans (.addReferenceWithPathId r.2 symbol r.1 line)
  | addDefinitionWithPathId symbol pathId line => exact .addDefinitionWithPathId i symbol pathId line
  | addReferenceWithPathId symbol pathId line => exact .addReferenceWithPathId i symbol pathId line
  | addAlias a o => exact absurd rfl (h a o)
  | setFileMeta path fileMeta =>
    rw [apply,setFileMeta]
    cases hp : i.intern path with
    | none => exact .refl i
    | some r =>
      have hkeeps := Keeps.intern hp
      refine ⟨fun hi₀ => ?_,hkeeps.aliases,hkeeps.reverseAliases⟩
      obtain ⟨hi,-,hid⟩ := hi₀.intern hp
      have hlt := lt_of_getId hi hid
      exact ⟨hi.interner,hi.definitions,hi.references,hi.symbols,hi.linked,{hi.dicts with
        fileMeta := nodup_keys_assign hi.dicts.fileMeta
        files := fun k hk => (mem_keys_assign hk).elim (fun h => h ▸ hlt) (hi.dicts.files k)}⟩
  | setQueryVersion version =>
    exact ⟨fun hi => ⟨hi.interner,hi.definitions,hi.references,hi.symbols,hi.linked,{hi.dicts with}⟩,rfl,rfl⟩
  | removeFile filePath => exact .removeFile i filePath
  | renameFile fromPath toPath => exact .renameFile i fromPath toPath

theorem addAlias_cases (hi : i.Inv) (a o : PyStr) :
    i.Keeps (i.addAlias a o).1 ∧ ((utf8 o).isSome → utf8 a = none) ∨
    ∃ aliasId originalId j, i.Keeps j ∧ i.interner.strings <+: j.interner.strings ∧
      j.getId a = some aliasId ∧ j.getId o = some originalId ∧ (utf8 o).isSome ∧
      (i.addAlias a o).1 = j.linkAlias aliasId originalId := by
  rw [addAlias]
  cases ha : i.intern a with
  | none =>
    refine .inl ⟨.refl i,fun _ => ?_⟩
    exact Option.map_eq_none_iff.mp ha
  | some r =>
    obtain ⟨aliasId,i₁⟩ := r
    obtain ⟨hi₁,hmore₁,hida⟩ := hi.intern ha
    dsimp only
    cases ho : i₁.intern o with
    | none =>
      refine .inl ⟨.intern ha,fun hsome => ?_⟩
      rw [Option.map_eq_none_iff.mp ho] at hsome
      cases hsome
    | some r =>
      obtain ⟨originalId,i₂⟩ := r
      obtain ⟨hi₂,hmore₂,hido⟩ := hi₁.intern ho
      obtain ⟨raw,hraw,-,-⟩ := intern_spec ho
      refine .inr ⟨aliasId,originalId,i₂,(Keeps.intern ha).trans (.intern ho),
        hmore₁.trans hmore₂,getId_mono hi₁ hi₂ hmore₂ hida,hido,?_,rfl⟩
      rw [hraw]
      rfl

theorem Inv.linkAlias (hi : i.Inv) {aliasId originalId : StringId}
    (ha : aliasId < i.interner.strings.length) (ho : originalId < i.interner.strings.length) :
    (i.linkAlias aliasId originalId).Inv := by
  refine ⟨hi.interner,hi.definitions,hi.references,hi.symbols,fun x y hxy => ?_,
    {hi.dicts with
      aliases := nodup_keys_assign hi.dicts.aliases
      reverseAliases := fun o as has => ?_}⟩
  rotate_left
  · have hknown : ((lookup i.reverseAliases originalId).getD []).Nodup := by
      cases hl : lookup i.reverseAliases originalId with
      | none => exact List.nodup_nil
      | some known => exact hi.dicts.reverseAliases originalId known hl
    rw [ScopeGraphIndex.linkAlias,lookup_assign] at has
    split at has
    · cases has
      split
      · exact hknown
      · next hnew =>
        rw [List.nodup_append_comm,List.singleton_append,List.nodup_cons]
        exact ⟨hnew,hknown⟩
    · exact hi.dicts.reverseAliases o as has
  change lookup (assign i.aliases aliasId originalId) x = some y at hxy
  rw [lookup_assign] at hxy
  split at hxy
  · next hx =>
    cases hxy
    exact ⟨hx ▸ ha,ho⟩
  · exact hi.linked x y hxy

theorem Inv.apply (hi : i.Inv) (op : Op) : (i.apply op).1.Inv := by
  by_cases hop : ∃ a o, op = .addAlias a o
  · obtain ⟨a,o,rfl⟩ := hop
    rcases addAlias_cases hi a o with ⟨hkeeps,-⟩ | ⟨x,y,j,hkeeps,-,hx,hy,-,heq⟩
    · exact hkeeps.inv hi
    · change (i.addAlias a o).1.Inv
      rw [heq]
      exact (hkeeps.inv hi).linkAlias (lt_of_getId (hkeeps.inv hi) hx) (lt_of_getId (hkeeps.inv hi) hy)
  · exact (keeps_apply i op fun a o heq => hop ⟨a,o,heq⟩).inv hi

/-- The index that a sequence of operations builds. -/
def after (ops : List Op) : ScopeGraphIndex := ops.foldl (fun i op => (i.apply op).1) new

theorem inv_after (ops : List Op) : (after ops).Inv := by
  induction ops using List.reverseRecOn with
  | nil => exact .new
  | append_singleton ops op ih =>
    rw [after,List.foldl_append,← after]
    exact ih.apply op

theorem lookup_reverseAliases_linkAlias (i : ScopeGraphIndex) (aliasId originalId o : StringId) :
    (lookup (i.linkAlias aliasId originalId).reverseAliases o).getD [] =
      if originalId = o then
        if aliasId ∈ (lookup i.reverseAliases originalId).getD [] then
          (lookup i.reverseAliases originalId).getD []
        else (lookup i.reverseAliases originalId).getD []++[aliasId]
      else (lookup i.reverseAliases o).getD [] := by
  rw [linkAlias,lookup_assign]
  by_cases ho : originalId = o
  · rw [if_pos ho,if_pos ho,Option.getD_some]
  · rw [if_neg ho,if_neg ho]

theorem mem_reverseAliases_linkAlias (h : i.AliasesExact) (aliasId originalId a o : StringId) :
    a ∈ (lookup (i.linkAlias aliasId originalId).reverseAliases o).getD [] ↔
      lookup i.aliases a = some o ∨ a = aliasId ∧ o = originalId := by
  rw [lookup_reverseAliases_linkAlias]
  by_cases ho : originalId = o
  · subst ho
    rw [if_pos rfl]
    split
    · next hk =>
      rw [h.inverse]
      refine ⟨Or.inl,?_⟩
      rintro (ha | ⟨rfl,-⟩)
      · exact ha
      · exact (h.inverse _ _).mp hk
    · rw [List.mem_append,List.mem_singleton,h.inverse]
      simp
  · rw [if_neg ho,h.inverse]
    exact (or_iff_left fun hne => ho hne.2.symm).symm

theorem aliasesExact_linkAlias_iff (h : i.AliasesExact) (aliasId originalId : StringId) :
    (i.linkAlias aliasId originalId).AliasesExact ↔
      ∀ old, lookup i.aliases aliasId = some old → old = originalId := by
  have hmem := mem_reverseAliases_linkAlias h aliasId originalId
  have hfwd : ∀ a, lookup (i.linkAlias aliasId originalId).aliases a =
      if aliasId = a then some originalId else lookup i.aliases a := fun a => lookup_assign _ _ _ _
  constructor
  · intro h' old hold
    have hin := (hmem aliasId old).mpr (.inl hold)
    rw [h'.inverse,hfwd,if_pos rfl] at hin
    exact (Option.some.inj hin).symm
  · intro hold
    refine ⟨fun a o => ?_,fun o as has => ?_⟩
    · rw [hmem,hfwd]
      by_cases ha : aliasId = a
      · subst ha
        rw [if_pos rfl]
        constructor
        · rintro (hl | ⟨-,rfl⟩)
          · rw [hold o hl]
          · rfl
        · intro heq
          exact .inr ⟨rfl,(Option.some.inj heq).symm⟩
      · rw [if_neg ha]
        exact or_iff_left fun hne => ha hne.1.symm
    · have hget := i.lookup_reverseAliases_linkAlias aliasId originalId o
      rw [has,Option.getD_some] at hget
      rw [hget]
      split
      · split
        · next hk => exact List.ne_nil_of_mem hk
        · exact List.append_ne_nil_of_right_ne_nil _ (List.cons_ne_nil _ _)
      · next ho =>
        rw [linkAlias,lookup_assign,if_neg ho] at has
        rw [has]
        exact h.inhabited o as has

theorem getStr_of_mem_located {l : PyStr × ℤ} {locs : List (StringId × ℤ)} (h : l ∈ i.located locs) :
    ∃ id, (id,l.2) ∈ locs ∧ i.getStr id = some l.1 := by
  obtain ⟨⟨id,line⟩,hmem,hl⟩ := List.mem_filterMap.mp h
  obtain ⟨path,hpath,rfl⟩ := Option.map_eq_some_iff.mp hl
  exact ⟨id,hmem,hpath⟩

theorem mem_query {R : Type*} {answer : StringId → List R} {results : List R}
    (h : i.query symbol answer = some results) {r : R} (hr : r ∈ results) : ∃ id, r ∈ answer id := by
  obtain ⟨raw,-,rfl⟩ := Option.map_eq_some_iff.mp h
  cases hl : lookup i.interner.index raw with
  | none =>
    rw [hl] at hr
    exact absurd hr List.not_mem_nil
  | some id =>
    rw [hl] at hr
    exact ⟨id,hr⟩

theorem mem_rank {R : Type*} {same : PyStr → PyStr → Bool} {pathOf : R → PyStr} {context : Option PyStr}
    {results : List R} {r : R} : r ∈ rank same pathOf context results ↔ r ∈ results := by
  cases context with
  | none => exact Iff.rfl
  | some c => exact (List.mergeSort_perm _ _).mem_iff

theorem mem_fromkeys {R : Type*} [DecidableEq R] {rs : List R} {r : R} :
    r ∈ keys (ofItems (rs.map fun r => (r,()))) ↔ r ∈ rs := by
  rw [mem_keys_ofItems,keys,List.map_map,List.mem_map]
  constructor
  · rintro ⟨_,hr,rfl⟩
    exact hr
  · intro hr
    exact ⟨r,hr,rfl⟩

theorem Inv.occurs (hi : i.Inv) (hid : i.getStr id = some f) {line : ℤ}
    (h : (id,line) ∈ i.definitions.places k ∨ (id,line) ∈ i.references.places k) : i.Occurs f := by
  refine ⟨id,hi.getStr_iff.mp hid,h.imp (fun h => ?_) fun h => ?_⟩
  · exact List.ne_nil_of_mem ((hi.definitions.inverse k id).mpr ⟨_,h,rfl⟩)
  · exact List.ne_nil_of_mem ((hi.references.inverse k id).mpr ⟨_,h,rfl⟩)

theorem Inv.found (hi : i.Inv) (hid : i.getId f = some id) :
    (k ∈ i.definitions.keysOf id →
      ∃ symbol locs line, i.findDefinitions symbol = some locs ∧ (f,line) ∈ locs) ∧
    (k ∈ i.references.keysOf id →
      ∃ symbol locs line, i.findReferences symbol = some locs ∧ (f,line) ∈ locs) := by
  have hlocated : ∀ (locs : List (StringId × ℤ)) l, l ∈ locs → l.1 = id → (f,l.2) ∈ i.located locs := by
    rintro locs l hl rfl
    refine List.mem_filterMap.mpr ⟨l,hl,?_⟩
    rw [hi.getStr_iff.mpr hid]
    rfl
  have hquery : k < i.interner.strings.length → ∃ symbol, ∀ (R : Type) (answer : StringId → List R),
      i.query symbol answer = some (answer k) := by
    intro hk
    obtain ⟨symbol,hs⟩ := hi.text hk
    obtain ⟨raw,hraw,hl⟩ := Option.bind_eq_some_iff.mp (hi.getStr_iff.mp hs)
    refine ⟨symbol,fun R answer => ?_⟩
    rw [query,hraw,Option.map_some,hl]
    rfl
  constructor
  · intro hk
    obtain ⟨l,hl,hlid⟩ := (hi.definitions.inverse k id).mp hk
    obtain ⟨symbol,hs⟩ := hquery (hi.symbols k (.inl (List.ne_nil_of_mem hl)))
    refine ⟨symbol,_,l.2,hs _ _,List.mem_flatMap.mpr ⟨k,List.mem_cons_self,hlocated _ l hl hlid⟩⟩
  · intro hk
    obtain ⟨l,hl,hlid⟩ := (hi.references.inverse k id).mp hk
    obtain ⟨symbol,hs⟩ := hquery (hi.symbols k (.inr (List.ne_nil_of_mem hl)))
    exact ⟨symbol,_,l.2,hs _ _,
      List.mem_flatMap.mpr ⟨k,mem_fromkeys.mpr List.mem_cons_self,hlocated _ l hl hlid⟩⟩

theorem vacated_iff (hi : i.Inv) : i.Vacated f ↔ ¬i.Occurs f := by
  constructor
  · rintro h ⟨id,hid,hk⟩
    rcases hk with hk | hk
    · obtain ⟨k,hk⟩ := List.exists_mem_of_ne_nil _ hk
      obtain ⟨symbol,locs,line,hlocs,hmem⟩ := (hi.found hid).1 hk
      exact h.definitions symbol locs hlocs _ hmem rfl
    · obtain ⟨k,hk⟩ := List.exists_mem_of_ne_nil _ hk
      obtain ⟨symbol,locs,line,hlocs,hmem⟩ := (hi.found hid).2 hk
      exact h.references symbol locs hlocs _ hmem rfl
  · intro h
    have hdefs : ∀ symbol locs, i.findDefinitions symbol = some locs → ∀ l ∈ locs, l.1 ≠ f := by
      rintro symbol locs hlocs l hl rfl
      obtain ⟨k,hl⟩ := mem_query hlocs hl
      obtain ⟨source,-,hl⟩ := List.mem_flatMap.mp hl
      obtain ⟨id,hmem,hid⟩ := getStr_of_mem_located hl
      exact h (hi.occurs hid (.inl hmem))
    have hrefs : ∀ symbol locs, i.findReferences symbol = some locs → ∀ l ∈ locs, l.1 ≠ f := by
      rintro symbol locs hlocs l hl rfl
      obtain ⟨k,hl⟩ := mem_query hlocs hl
      obtain ⟨source,-,hl⟩ := List.mem_flatMap.mp hl
      obtain ⟨id,hmem,hid⟩ := getStr_of_mem_located hl
      exact h (hi.occurs hid (.inr hmem))
    have hnamed : ∀ symbol locs, i.findReferencesWithNames symbol = some locs → ∀ l ∈ locs, l.2.1 ≠ f := by
      rintro symbol locs hlocs l hl rfl
      obtain ⟨k,hl⟩ := mem_query hlocs hl
      obtain ⟨source,-,hl⟩ := List.mem_flatMap.mp hl
      cases hname : i.getStr source with
      | none =>
        rw [hname] at hl
        exact absurd hl List.not_mem_nil
      | some name =>
        rw [hname] at hl
        obtain ⟨pl,hpl,rfl⟩ := List.mem_map.mp hl
        obtain ⟨id,hmem,hid⟩ := getStr_of_mem_located hpl
        exact h (hi.occurs hid (.inr hmem))
    refine ⟨hdefs,hrefs,hnamed,?_,?_,?_,?_⟩
    · intro symbol context same locs hlocs l hl
      obtain ⟨found,hfound,rfl⟩ := Option.map_eq_some_iff.mp hlocs
      exact hdefs symbol found hfound l (mem_fromkeys.mp (mem_rank.mp hl))
    · intro symbol context same locs hlocs l hl
      obtain ⟨found,hfound,rfl⟩ := Option.map_eq_some_iff.mp hlocs
      exact hnamed symbol found hfound l (mem_rank.mp hl)
    · intro symbol extensions locs hlocs l hl
      obtain ⟨found,hfound,rfl⟩ := Option.map_eq_some_iff.mp hlocs
      exact hdefs symbol found hfound l (List.mem_filter.mp hl).1
    · intro symbol extensions locs hlocs l hl
      obtain ⟨found,hfound,rfl⟩ := Option.map_eq_some_iff.mp hlocs
      exact hnamed symbol found hfound l (List.mem_filter.mp hl).1

theorem not_occurs_removeFile (h : (i.removeFile f).2 = true) :
    ¬(i.removeFile f).1.Occurs f := by
  rw [removeFile] at h ⊢
  cases hraw : utf8 f with
  | none =>
    rw [hraw] at h
    cases h
  | some raw =>
    dsimp only
    cases hl : lookup i.interner.index raw with
    | none =>
      rintro ⟨id,hid,-⟩
      rw [getId,hraw,Option.bind_some,hl] at hid
      cases hid
    | some pathId =>
      rintro ⟨id,hid,hk⟩
      have heq : lookup i.interner.index raw = some id := by
        rw [getId,hraw] at hid
        exact hid
      rw [hl] at heq
      cases heq
      rw [Postings.keysOf_prune,Postings.keysOf_prune,if_pos rfl,if_pos rfl] at hk
      exact hk.elim (fun h => h rfl) fun h => h rfl

theorem occurs_renameFile (hi : i.Inv) (h : (i.renameFile f g).2 = true) :
    (i.renameFile f g).1.Occurs f ↔ f = g ∧ i.Occurs f := by
  rw [renameFile] at h ⊢
  cases hraw : utf8 f with
  | none =>
    rw [hraw] at h
    cases h
  | some raw =>
    dsimp only
    rw [hraw] at h
    cases hl : lookup i.interner.index raw with
    | none =>
      have hnot : ¬i.Occurs f := by
        rintro ⟨id,hid,-⟩
        rw [getId,hraw,Option.bind_some,hl] at hid
        cases hid
      exact ⟨fun h => absurd h hnot,fun h => absurd h.2 hnot⟩
    | some fromId =>
      dsimp only at h ⊢
      rw [hl] at h
      have hfrom : i.getId f = some fromId := by rw [getId,hraw,Option.bind_some,hl]
      cases hg : i.intern g with
      | none =>
        rw [hg] at h
        cases h
      | some r =>
        obtain ⟨toId,j⟩ := r
        obtain ⟨hj,hmore,hto⟩ := hi.intern hg
        obtain ⟨raw',-,-,rfl⟩ := intern_spec hg
        have hfrom' := getId_mono hi hj hmore hfrom
        have hmoved (t : Postings StringId StringId ℤ) := Postings.keysOf_move_ne_nil t fromId toId
        have hsame : fromId = toId ↔ f = g := by
          constructor
          · rintro rfl
            have hf := hj.getStr_iff.mpr hfrom'
            rw [hj.getStr_iff.mpr hto] at hf
            exact (Option.some.inj hf).symm
          · rintro rfl
            rw [hfrom'] at hto
            exact Option.some.inj hto
        constructor
        · rintro ⟨id,hid,hk⟩
          have heq : some id = some fromId := hid.symm.trans hfrom'
          cases heq
          rw [hmoved,hmoved,← and_or_left] at hk
          exact ⟨hsame.mp hk.1,fromId,hfrom,hk.2⟩
        · rintro ⟨heq,id,hid,hk⟩
          rw [hfrom] at hid
          cases hid
          refine ⟨fromId,hfrom',?_⟩
          rw [hmoved,hmoved,← and_or_left]
          exact ⟨hsame.mpr heq,hk⟩

theorem not_occurs_of_raise (h : (i.renameFile f g).2 = false) : f = g → ¬i.Occurs f := by
  rintro rfl ⟨id,hid,-⟩
  obtain ⟨raw,hraw,hl⟩ := Option.bind_eq_some_iff.mp hid
  rw [renameFile,hraw] at h
  dsimp only at h
  rw [hl,intern,hraw] at h
  cases h

end ScopeGraphIndex

namespace Observed

variable {s t : Observed} {op : Op}

theorem Consistent.new : new.Consistent :=
  ⟨.empty,.empty,⟨fun _ _ => ⟨fun h => absurd h List.not_mem_nil,fun h => absurd h (Option.some_ne_none _).symm⟩,
    fun _ _ h => absurd h (Option.some_ne_none _).symm⟩,fun _ h => absurd h (Option.some_ne_none _).symm⟩

theorem aliasesExact_of_keeps {i j : ScopeGraphIndex} (h : i.Keeps j) (hi : i.AliasesExact) :
    j.AliasesExact := by
  refine ⟨?_,?_⟩
  · rw [h.aliases,h.reverseAliases]
    exact hi.inverse
  · rw [h.reverseAliases]
    exact hi.inhabited

theorem aliasesExact_addAlias_iff {i : ScopeGraphIndex} (hi : i.Inv) (h : i.AliasesExact) (a o : PyStr) :
    (i.addAlias a o).1.AliasesExact ↔ ∀ aliasId originalId, i.getId a = some aliasId →
      lookup i.aliases aliasId = some originalId → (utf8 o).isSome → i.getId o = some originalId := by
  rcases ScopeGraphIndex.addAlias_cases hi a o with ⟨hkeeps,hraise⟩ | ⟨x,y,j,hkeeps,hmore,hx,hy,ho,heq⟩
  · refine iff_of_true (aliasesExact_of_keeps hkeeps h) fun x y hx _ ho => ?_
    rw [ScopeGraphIndex.getId,hraise ho] at hx
    cases hx
  · have hj := hkeeps.inv hi
    rw [heq,ScopeGraphIndex.aliasesExact_linkAlias_iff (aliasesExact_of_keeps hkeeps h),hkeeps.aliases]
    constructor
    · intro hold x' old hx' hl _
      have hxx := ScopeGraphIndex.getId_mono hi hj hmore hx'
      rw [hx] at hxx
      cases hxx
      obtain rfl := hold old hl
      exact ScopeGraphIndex.getId_of_lt hi hj hmore hy (hi.linked _ _ hl).2
    · intro hcond old hl
      have hx' := ScopeGraphIndex.getId_of_lt hi hj hmore hx (hi.linked _ _ hl).1
      have hy' := ScopeGraphIndex.getId_mono hi hj hmore (hcond x old hx' hl ho)
      rw [hy] at hy'
      exact (Option.some.inj hy').symm

theorem consistent_step_iff (h : step s op = some t) (hi : s.index.Inv) (hc : s.Consistent) :
    t.Consistent ↔ s.keeps op := by
  cases h
  have ht := hi.apply op
  have hrest : ∀ {i' : ScopeGraphIndex} {v : Option PyStr}, i'.Inv → ((⟨i',v⟩ : Observed).Consistent ↔
      i'.AliasesExact ∧ ∀ f ∈ v, ¬i'.Occurs f) := by
    intro i' v hi'
    constructor
    · intro hc'
      exact ⟨hc'.aliases,fun f hf => (ScopeGraphIndex.vacated_iff hi').mp (hc'.vacated f hf)⟩
    · rintro ⟨ha,hv⟩
      exact ⟨hi'.definitions,hi'.references,ha,fun f hf => (ScopeGraphIndex.vacated_iff hi').mpr (hv f hf)⟩
  rw [hrest ht]
  have hnone : ∀ {P : PyStr → Prop}, (∀ f ∈ (none : Option PyStr), P f) :=
    fun f hf => absurd hf (Option.some_ne_none _).symm
  have hother : (∀ a o, op ≠ .addAlias a o) → (s.index.apply op).1.AliasesExact := fun hop =>
    aliasesExact_of_keeps (ScopeGraphIndex.keeps_apply s.index op hop) hc.aliases
  cases op with
  | addAlias a o => exact (and_iff_left hnone).trans (aliasesExact_addAlias_iff hi hc.aliases a o)
  | removeFile filePath =>
    refine iff_of_true ⟨hother fun _ _ => Op.noConfusion,fun f hf => ?_⟩ trivial
    cases hdone : (s.index.removeFile filePath).2 with
    | false =>
      rw [ScopeGraphIndex.apply,vacates,hdone] at hf
      cases hf
    | true =>
      rw [ScopeGraphIndex.apply,vacates,hdone] at hf
      cases hf
      exact ScopeGraphIndex.not_occurs_removeFile hdone
  | renameFile fromPath toPath =>
    refine (and_iff_right (hother fun _ _ => Op.noConfusion)).trans ?_
    cases hdone : (s.index.renameFile fromPath toPath).2 with
    | false =>
      rw [ScopeGraphIndex.apply,vacates,hdone]
      exact iff_of_true hnone (ScopeGraphIndex.not_occurs_of_raise hdone)
    | true =>
      rw [ScopeGraphIndex.apply,vacates,hdone,if_pos rfl]
      have hmoved := ScopeGraphIndex.occurs_renameFile hi hdone
      constructor
      · intro h heq hocc
        exact h fromPath rfl (hmoved.mpr ⟨heq,hocc⟩)
      · intro h f hf
        cases hf
        exact fun hocc => h (hmoved.mp hocc).1 (hmoved.mp hocc).2
  | _ => exact iff_of_true ⟨hother fun _ _ => Op.noConfusion,hnone⟩ trivial

/-- Along the operations the redundant tables agree, and what is taken out or renamed is gone,
exactly when no alias is pointed to another original and no file with symbols is renamed to
itself. -/
theorem consistent_throughout_iff (ops : List Op) :
    Throughout step Consistent new ops ↔ ∃ t, Run step keeps new ops t := by
  have hinv : ∀ (s : Observed) op t, always s op → step s op = some t → s.index.Inv → s.Consistent →
      t.Consistent → t.index.Inv := by
    intro s op t _ h hi _ _
    cases h
    exact hi.apply op
  have hstep : ∀ (s : Observed) op t, always s op → step s op = some t → s.index.Inv → s.Consistent →
      (t.Consistent ↔ s.keeps op) := fun s op t _ h hi hc => consistent_step_iff h hi hc
  constructor
  · intro h
    have htotal : ∀ s op, (step s op).isSome := fun _ _ => rfl
    obtain ⟨t,hrun⟩ := exists_run htotal new ops
    exact ⟨t,(throughout_iff hinv hstep hrun ScopeGraphIndex.Inv.new .new).mp h⟩
  · rintro ⟨t,hrun⟩
    have hall : Run step always new ops t := hrun.mono fun _ _ _ => trivial
    exact (throughout_iff hinv hstep hall ScopeGraphIndex.Inv.new .new).mpr hrun

/-- An alias that is given a second original stays among the aliases of the first. -/
theorem repointed_alias_stays : ∃ t, Run step always new
    [.addAlias (lit "fn") (lit "function"),.addAlias (lit "fn") (lit "method")] t ∧
    lookup t.index.aliases 0 = some 2 ∧ 0 ∈ (lookup t.index.reverseAliases 1).getD [] ∧
    ¬t.Consistent := by
  refine ⟨_,run_of_exec rfl,by decide,by decide,fun h => ?_⟩
  have hstale := (h.aliases.inverse 0 1).mp (by decide)
  revert hstale
  decide

end Observed
end MinimaxCode.ScopeIndex
