import MinimaxCode.OverlaySearch

/-!
# Finding files under a sandbox

`find_files` walks the directories below its root, skips the excluded ones and stops at a
depth. Under a sandbox it adds the files of the mirror that it has not found. They come from a
list of the whole mirror, so the depth is tested once more, and the exclusions are not.
-/

namespace MinimaxCode.OverlayFind

open PyText FileTree FileTree.Tree Sandbox Fnmatch
open OverlaySearch (Files asPosix workspaceRel PlainBelow PlainRel overwrite)

def defaultMaxResults : ℤ := 200
def defaultMaxDepth : ℤ := 20

def defaultExcludeDirs : List PyStr :=
  [lit ".git",lit "node_modules",lit "__pycache__",lit ".venv",lit ".pytest_cache",
    lit ".mypy_cache",lit ".tox",lit "dist",lit "build",lit ".eggs",lit ".minimax"]

def hardExcludedDirs : List PyStr := [minimaxDir]

/-- A call whose root is resolved, below the workspace. -/
structure Query where
  path : Rel
  pattern : PyStr
  maxDepth : ℤ
  excludeDirs : List PyStr
  maxResults : ℤ

namespace Query

variable (q : Query)

def depth : ℤ := if q.maxDepth = 0 then defaultMaxDepth else q.maxDepth
def cap : ℤ := if q.maxResults = 0 then defaultMaxResults else q.maxResults

def excluded (n : PyStr) : Bool :=
  n ∈ (if q.excludeDirs.isEmpty then defaultExcludeDirs else q.excludeDirs) || n ∈ hardExcludedDirs

/-- `_match`. The first three characters of a pattern with a double star are taken off. -/
def takes (name : PyStr) : Bool :=
  if lit "**" <:+: q.pattern then
    fnmatchcase name ((splitOn (ch '/') (q.pattern.drop 3)).getLast?.getD [])
  else fnmatchcase name q.pattern

end Query

inductive Outcome
  | emptyPattern
  | notFound (root : Rel)
  | found (root : Rel) (files : List PyStr)
  deriving DecidableEq

section Find

variable (d : Files) (q : Query) (root : Rel)

/-- The directories that the walk descends to. -/
def descents (rel : Rel) : List PyStr :=
  let dirnames := (d.dirNames (root++rel)).filter fun n => !q.excluded n
  if q.depth ≤ rel.length then [] else dirnames

/-- `_glob_walk` from a directory on, the path below the root of which is given. The fuel is
the number of levels that are left. -/
def globWalk : ℕ → Rel → List Rel
  | 0, _ => []
  | fuel+1, rel =>
    ((d.fileNames (root++rel)).filter q.takes).map (fun n => rel++[n])++
      (descents d q root rel).flatMap fun n => globWalk fuel (rel++[n])

/-- Everything that the walk finds. -/
def walked : List PyStr := (globWalk d q root (d.height+1) []).map workspaceRel

/-- The loop over the mirror adds this file. -/
def adds (found : List PyStr) (p : Rel) : Bool :=
  let sub := p.drop q.path.length
  decide (q.path <+: p) && !(sub == []) && !(asPosix sub ∈ found) &&
    !decide (q.depth ≤ sub.dropLast.length) && q.takes (sub.getLast?.getD [])

def unionMirrorMatches : List PyStr → List Rel → List PyStr
  | found, [] => found
  | found, p::ps =>
    if adds q found p then
      let found := found++[asPosix (p.drop q.path.length)]
      if q.cap ≤ found.length then found else unionMirrorMatches found ps
    else unionMirrorMatches found ps

end Find

def findFiles (d : Files) (ws : Rel) (sandbox : Option Rel) (q : Query) : Outcome :=
  let root := ws++q.path
  if q.pattern = [] then .emptyPattern
  else
    match d.node root with
    | none => .notFound root
    | some (.file _) => .found root [ch '/'::asPosix root]
    | some .dir =>
      let found := (walked d q root).take (max 1 q.cap.toNat)
      match sandbox with
      | none => .found root found
      | some sb =>
        if (found.length : ℤ) < q.cap then
          .found root (unionMirrorMatches q found (sandboxMirrorFiles d sb))
        else .found root found

/-- Both calls return the same files, each once, or fail alike. -/
def SameFiles : Outcome → Outcome → Prop
  | .found root files,.found root' files' => root = root' ∧ files.Perm files' ∧ files.Nodup
  | .notFound root,.notFound root' => root = root'
  | .emptyPattern,.emptyPattern => True
  | _,_ => False

/-- What a call finds in a directory when it has no limit. -/
def allFound (d : Files) (ws : Rel) (sandbox : Option Rel) (q : Query) : List PyStr :=
  walked d q (ws++q.path)++
    ((sandbox.elim [] (sandboxMirrorFiles d)).filter (adds q (walked d q (ws++q.path)))).map
      fun p => asPosix (p.drop q.path.length)

/-- The call does not exceed its limit. -/
def Unlimited (d : Files) (ws : Rel) (sandbox : Option Rel) (q : Query) : Prop :=
  ((allFound d ws sandbox q).length : ℤ) ≤ q.cap

/-- The walk gets as far as this file: no directory on the way is excluded, and there are no
more of them than the depth allows. -/
def Reached (q : Query) (sub : Rel) : Prop :=
  (∀ n ∈ sub.dropLast, q.excluded n = false) ∧ (sub.dropLast = [] ∨ (sub.dropLast.length : ℤ) ≤ q.depth)

/-- The mirrored files that the pattern takes and that lie less than the depth below the root
are in no excluded directory, and the others that the walk gets to are in the workspace. -/
structure DirExact (d : Files) (ws sb : Rel) (q : Query) : Prop where
  shallow : ∀ sub, sub ≠ [] → q.path++sub ∈ sandboxMirrorFiles d sb →
    q.takes (sub.getLast?.getD []) = true → (sub.dropLast.length : ℤ) < q.depth → Reached q sub
  deepest : ∀ sub, sub ≠ [] → q.path++sub ∈ sandboxMirrorFiles d sb →
    q.takes (sub.getLast?.getD []) = true → Reached q sub → q.depth ≤ sub.dropLast.length →
      d.isFile (ws++(q.path++sub)) = true

/-- The call under the sandbox agrees with the call on the merged tree. -/
def Exact (d : Files) (ws sb : Rel) (q : Query) : Prop :=
  q.pattern ≠ [] →
    match d.node (ws++q.path) with
    | none => ∀ p ∈ sandboxMirrorFiles d sb, ¬ q.path <+: p
    | some (.file _) => True
    | some .dir => DirExact d ws sb q

section Proofs

variable {d m : Files} {q : Query} {root ws sb : Rel} {p sub : Rel} {found : List PyStr}

theorem mem_descents {rel : Rel} {n : PyStr} : n ∈ descents d q root rel ↔
    (rel.length : ℤ) < q.depth ∧ d.node (root++rel++[n]) = some .dir ∧ q.excluded n = false := by
  rw [descents]
  split
  · next h => simpa using fun hlt => absurd hlt (not_lt.mpr h)
  · next h => rw [List.mem_filter,mem_dirNames,Bool.not_eq_true',and_iff_right (not_le.mp h)]

theorem mem_globWalk {fuel : ℕ} {rel : Rel}
    (hfuel : ∀ s, d.node (root++(rel++s)) ≠ none → s.length ≤ fuel) :
    p ∈ globWalk d q root fuel rel ↔ ∃ s, p = rel++s ∧ s ≠ [] ∧ d.isFile (root++(rel++s)) = true ∧
      (∀ n ∈ s.dropLast, q.excluded n = false) ∧
      (s.dropLast = [] ∨ (rel.length+s.dropLast.length : ℤ) ≤ q.depth) ∧
      q.takes (s.getLast?.getD []) = true := by
  induction fuel generalizing rel with
  | zero =>
    constructor
    · intro h
      cases h
    · rintro ⟨s,-,hne,hfile,-⟩
      obtain ⟨b,hb⟩ := isFile_iff.mp hfile
      have hlength := hfuel s (by rw [hb]; exact Option.some_ne_none _)
      exact absurd (List.length_eq_zero_iff.mp (Nat.le_zero.mp hlength)) hne
  | succ fuel ih =>
    have hbelow : ∀ n s, d.node (root++(rel++[n]++s)) ≠ none → s.length ≤ fuel := by
      intro n s h
      rw [List.append_assoc] at h
      exact Nat.le_of_succ_le_succ (hfuel (n::s) h)
    rw [globWalk,List.mem_append,List.mem_map,List.mem_flatMap]
    constructor
    · rintro (⟨n,hn,rfl⟩ | ⟨n,hn,hp⟩)
      · obtain ⟨hfile,htakes⟩ := List.mem_filter.mp hn
        rw [mem_fileNames,List.append_assoc] at hfile
        exact ⟨[n],rfl,List.cons_ne_nil _ _,hfile,by simp,.inl rfl,htakes⟩
      · obtain ⟨hdepth,-,hn⟩ := mem_descents.mp hn
        obtain ⟨s,rfl,hne,hfile,hall,hlevels,htakes⟩ := (ih (hbelow n)).mp hp
        obtain ⟨n',s',rfl⟩ := List.exists_cons_of_ne_nil hne
        rw [List.append_assoc] at hfile ⊢
        refine ⟨n::n'::s',rfl,List.cons_ne_nil _ _,hfile,?_,.inr ?_,?_⟩
        · rw [List.dropLast_cons_cons,List.forall_mem_cons]
          exact ⟨hn,hall⟩
        · rw [List.dropLast_cons_cons,List.length_cons]
          rw [List.length_append,List.length_singleton] at hlevels
          push_cast at hlevels ⊢
          rcases hlevels with hnil | hle
          · rw [hnil]
            simp only [List.length_nil]
            omega
          · omega
        · rw [List.getLast?_cons_cons]
          exact htakes
    · rintro ⟨s,rfl,hne,hfile,hall,hlevels,htakes⟩
      obtain ⟨n,s',rfl⟩ := List.exists_cons_of_ne_nil hne
      cases s' with
      | nil =>
        refine .inl ⟨n,List.mem_filter.mpr ⟨?_,htakes⟩,rfl⟩
        rw [mem_fileNames,List.append_assoc]
        exact hfile
      | cons n' s' =>
        rw [List.dropLast_cons_cons,List.forall_mem_cons] at hall
        rw [List.dropLast_cons_cons] at hlevels
        have hle := hlevels.resolve_left (List.cons_ne_nil _ _)
        rw [List.length_cons] at hle
        push_cast at hle
        have hassoc : rel++[n]++n'::s' = rel++n::n'::s' := List.append_assoc _ _ _
        have hdir : d.node (root++rel++[n]) = some .dir := by
          obtain ⟨b,hb⟩ := isFile_iff.mp hfile
          refine d.ancestor_dir (q := n'::s') (List.cons_ne_nil _ _) ?_
          have hpath : root++rel++[n]++n'::s' = root++(rel++n::n'::s') := by simp
          rw [hpath,hb]
          exact Option.some_ne_none _
        refine .inr ⟨n,mem_descents.mpr ⟨by omega,hdir,hall.1⟩,(ih (hbelow n)).mpr ?_⟩
        refine ⟨n'::s',hassoc.symm,List.cons_ne_nil _ _,by rwa [hassoc],hall.2,.inr ?_,?_⟩
        · rw [List.length_append,List.length_singleton]
          push_cast
          omega
        · rwa [List.getLast?_cons_cons] at htakes

theorem below_of_globWalk {fuel : ℕ} {rel : Rel} (h : p ∈ globWalk d q root fuel rel) :
    ∃ n s, p = rel++n::s := by
  induction fuel generalizing rel with
  | zero => cases h
  | succ fuel ih =>
    rw [globWalk,List.mem_append,List.mem_map,List.mem_flatMap] at h
    rcases h with ⟨n,-,rfl⟩ | ⟨n,-,hp⟩
    · exact ⟨n,[],rfl⟩
    · obtain ⟨n',s,rfl⟩ := ih hp
      exact ⟨n,n'::s,by simp⟩

theorem descents_nodup (rel : Rel) : (descents d q root rel).Nodup := by
  rw [descents]
  split
  · exact .nil
  · exact (d.dirNames_nodup _).filter _

theorem globWalk_nodup (fuel : ℕ) (rel : Rel) : (globWalk d q root fuel rel).Nodup := by
  induction fuel generalizing rel with
  | zero => exact .nil
  | succ fuel ih =>
    rw [globWalk,List.nodup_append]
    refine ⟨?_,?_,?_⟩
    · refine List.Nodup.map (fun n n' h => ?_) ((d.fileNames_nodup _).filter _)
      exact List.singleton_inj.mp (List.append_cancel_left h)
    · refine List.nodup_flatMap.mpr ⟨fun n _ => ih _,(descents_nodup rel).imp fun {n n'} hne => ?_⟩
      intro p hp hp'
      obtain ⟨k,s,rfl⟩ := below_of_globWalk hp
      obtain ⟨k',s',heq⟩ := below_of_globWalk hp'
      rw [List.append_assoc,List.append_assoc] at heq
      exact hne (List.cons.inj (List.append_cancel_left heq)).1
    · intro p hp p' hp' heq
      obtain ⟨n,-,rfl⟩ := List.mem_map.mp hp
      obtain ⟨n',-,hp'⟩ := List.mem_flatMap.mp hp'
      obtain ⟨k,s,rfl⟩ := below_of_globWalk hp'
      rw [List.append_assoc] at heq
      have hlength := congrArg List.length (List.append_cancel_left heq)
      simp at hlength

theorem mem_walk : p ∈ globWalk d q root (d.height+1) [] ↔ p ≠ [] ∧
    d.isFile (root++p) = true ∧ Reached q p ∧ q.takes (p.getLast?.getD []) = true := by
  rw [mem_globWalk fun s h => ?_]
  · constructor
    · rintro ⟨s,rfl,hne,hfile,hall,hlevels,htakes⟩
      exact ⟨hne,hfile,⟨hall,by simpa using hlevels⟩,htakes⟩
    · rintro ⟨hne,hfile,⟨hall,hlevels⟩,htakes⟩
      exact ⟨p,rfl,hne,hfile,hall,by simpa using hlevels,htakes⟩
  · have hlength := length_le_height h
    rw [List.length_append] at hlength
    simp only [List.nil_append] at hlength
    omega

theorem adds_iff : adds q found p = true ↔
    ∃ sub, p = q.path++sub ∧ sub ≠ [] ∧ asPosix sub ∉ found ∧ (sub.dropLast.length : ℤ) < q.depth ∧
      q.takes (sub.getLast?.getD []) = true := by
  rw [adds]
  simp only [Bool.and_eq_true,decide_eq_true_eq,Bool.not_eq_true',beq_eq_false_iff_ne,
    decide_eq_false_iff_not,not_le,and_assoc]
  constructor
  · rintro ⟨⟨sub,rfl⟩,h⟩
    rw [List.drop_left] at h
    exact ⟨sub,rfl,h⟩
  · rintro ⟨sub,rfl,h⟩
    rw [List.drop_left]
    exact ⟨List.prefix_append _ _,h⟩

/-- No two files of the list have one text below the root. -/
def Distinct (q : Query) (ps : List Rel) : Prop :=
  ps.Pairwise fun p p' => ∀ sub sub', sub ≠ [] → sub' ≠ [] → p = q.path++sub → p' = q.path++sub' →
    asPosix sub ≠ asPosix sub'

theorem unionMirrorMatches_eq {ps : List Rel} (hps : Distinct q ps)
    (hcap : ((found++(ps.filter (adds q found)).map fun p => asPosix (p.drop q.path.length)).length : ℤ) ≤
      q.cap) : unionMirrorMatches q found ps =
        found++(ps.filter (adds q found)).map fun p => asPosix (p.drop q.path.length) := by
  induction ps generalizing found with
  | nil => simp [unionMirrorMatches]
  | cons p ps ih =>
    obtain ⟨hp,hrest⟩ := List.pairwise_cons.mp hps
    rw [unionMirrorMatches]
    by_cases hadds : adds q found p = true
    · obtain ⟨sub,rfl,hne,-⟩ := adds_iff.mp hadds
      have hsame : ps.filter (adds q (found++[asPosix sub])) = ps.filter (adds q found) := by
        refine List.filter_congr fun p' hp' => Bool.eq_iff_iff.mpr ?_
        rw [adds_iff,adds_iff]
        refine exists_congr fun sub' => and_congr_right fun hpath => and_congr_right fun hne' => ?_
        have htext := (hp p' hp' sub sub' hne hne' rfl hpath).symm
        simp [htext]
      rw [List.filter_cons_of_pos hadds,List.map_cons,List.drop_left] at hcap ⊢
      rw [if_pos hadds]
      dsimp only
      split
      · next hfull =>
        have hnone : ps.filter (adds q found) = [] := by
          refine List.length_eq_zero_iff.mp ?_
          simp only [List.length_append,List.length_cons,List.length_map,List.length_nil] at hcap hfull
          push_cast at hcap hfull
          omega
        rw [hnone]
        rfl
      · rw [ih hrest,hsame,List.append_assoc]
        · rfl
        · rw [hsame,List.append_assoc]
          exact hcap
    · rw [List.filter_cons_of_neg hadds] at hcap ⊢
      rw [if_neg hadds]
      exact ih hrest hcap

theorem plainRel_below {base path : Rel} (h : PlainBelow d base)
    (hfile : d.isFile (base++(path++sub)) = true) (hne : sub ≠ []) : PlainRel sub :=
  ⟨hne,fun n hn => h _ hfile n (List.mem_append_right _ hn)⟩

theorem plainRel_of_mirror {path : Rel} (h : PlainBelow d sb)
    (hsub : path++sub ∈ sandboxMirrorFiles d sb) (hne : sub ≠ []) : PlainRel sub :=
  plainRel_below h (mem_sandboxMirrorFiles.mp hsub).2.1 hne

/-- What the walk finds of the workspace. -/
def Walked (d : Files) (ws : Rel) (q : Query) (sub : Rel) : Prop :=
  sub ≠ [] ∧ d.isFile (ws++(q.path++sub)) = true ∧ Reached q sub ∧ q.takes (sub.getLast?.getD []) = true

/-- What the mirror adds. -/
def Mirrored (d : Files) (sb : Rel) (q : Query) (sub : Rel) : Prop :=
  sub ≠ [] ∧ q.path++sub ∈ sandboxMirrorFiles d sb ∧ (sub.dropLast.length : ℤ) < q.depth ∧
    q.takes (sub.getLast?.getD []) = true

theorem mem_walk_below :
    sub ∈ globWalk d q (ws++q.path) (d.height+1) [] ↔ Walked d ws q sub := by
  rw [mem_walk,List.append_assoc]
  rfl

theorem walked_eq (hws : PlainBelow d ws) : walked d q (ws++q.path) =
    (globWalk d q (ws++q.path) (d.height+1) []).map asPosix := by
  refine List.map_congr_left fun sub hsub => ?_
  obtain ⟨hne,hfile,-⟩ := mem_walk_below.mp hsub
  exact OverlaySearch.workspaceRel_of_plain (plainRel_below hws hfile hne)

theorem mem_walked (hws : PlainBelow d ws) {t : PyStr} :
    t ∈ walked d q (ws++q.path) ↔ ∃ sub, Walked d ws q sub ∧ asPosix sub = t := by
  rw [walked_eq hws,List.mem_map]
  simp only [mem_walk_below]

theorem walked_nodup (hws : PlainBelow d ws) : (walked d q (ws++q.path)).Nodup := by
  rw [walked_eq hws]
  refine (globWalk_nodup _ _).map_on fun sub hsub sub' hsub' heq => ?_
  obtain ⟨hne,hfile,-⟩ := mem_walk_below.mp hsub
  obtain ⟨hne',hfile',-⟩ := mem_walk_below.mp hsub'
  exact OverlaySearch.asPosix_inj (plainRel_below hws hfile hne) (plainRel_below hws hfile' hne') heq

theorem distinct_mirror (hsb : PlainBelow d sb) : Distinct q (sandboxMirrorFiles d sb) := by
  have hnodup := sandboxMirrorFiles_nodup d sb
  refine List.Pairwise.imp_of_mem (fun {p p'} hp hp' hne => ?_) hnodup
  rintro sub sub' hsub hsub' rfl rfl heq
  refine hne (congrArg _ ?_)
  exact OverlaySearch.asPosix_inj (plainRel_of_mirror hsb hp hsub) (plainRel_of_mirror hsb hp' hsub') heq

theorem mem_allFound (hws : PlainBelow d ws) {t : PyStr} : t ∈ allFound d ws (some sb) q ↔
    ∃ sub, (Walked d ws q sub ∨ Mirrored d sb q sub) ∧ asPosix sub = t := by
  rw [allFound,List.mem_append,List.mem_map]
  constructor
  · rintro (hwalk | ⟨p,hp,rfl⟩)
    · obtain ⟨sub,hsub,rfl⟩ := (mem_walked hws).mp hwalk
      exact ⟨sub,.inl hsub,rfl⟩
    · obtain ⟨hmem,hadds⟩ := List.mem_filter.mp hp
      obtain ⟨sub,rfl,hne,-,hdepth,htakes⟩ := adds_iff.mp hadds
      rw [List.drop_left]
      exact ⟨sub,.inr ⟨hne,hmem,hdepth,htakes⟩,rfl⟩
  · rintro ⟨sub,hsub,rfl⟩
    by_cases hwalk : asPosix sub ∈ walked d q (ws++q.path)
    · exact .inl hwalk
    · rcases hsub with hsub | ⟨hne,hmem,hdepth,htakes⟩
      · exact .inl ((mem_walked hws).mpr ⟨sub,hsub,rfl⟩)
      · refine .inr ⟨q.path++sub,List.mem_filter.mpr ⟨hmem,adds_iff.mpr ?_⟩,by rw [List.drop_left]⟩
        exact ⟨sub,rfl,hne,hwalk,hdepth,htakes⟩

theorem allFound_nodup (hws : PlainBelow d ws) (hsb : PlainBelow d sb) :
    (allFound d ws (some sb) q).Nodup := by
  rw [allFound,List.nodup_append]
  refine ⟨walked_nodup hws,?_,?_⟩
  · refine List.Nodup.map_on (fun p hp p' hp' heq => ?_) ((sandboxMirrorFiles_nodup d sb).filter _)
    obtain ⟨hmem,hadds⟩ := List.mem_filter.mp hp
    obtain ⟨hmem',hadds'⟩ := List.mem_filter.mp hp'
    obtain ⟨sub,rfl,hne,-⟩ := adds_iff.mp hadds
    obtain ⟨sub',rfl,hne',-⟩ := adds_iff.mp hadds'
    rw [List.drop_left,List.drop_left] at heq
    rw [OverlaySearch.asPosix_inj (plainRel_of_mirror hsb hmem hne) (plainRel_of_mirror hsb hmem' hne') heq]
  · rintro t hwalk t' hfresh rfl
    obtain ⟨p,hp,rfl⟩ := List.mem_map.mp hfresh
    obtain ⟨sub,rfl,-,hnot,-⟩ := adds_iff.mp (List.mem_filter.mp hp).2
    rw [List.drop_left] at hwalk
    exact hnot hwalk

theorem take_walked (h : (found.length : ℤ) ≤ q.cap) :
    found.take (max 1 q.cap.toNat) = found := by
  refine List.take_of_length_le ?_
  have hle := le_max_right 1 q.cap.toNat
  omega

theorem findFiles_plain (hpattern : q.pattern ≠ []) (hnode : d.node (ws++q.path) = some .dir)
    (hfree : Unlimited d ws none q) :
    findFiles d ws none q = .found (ws++q.path) (walked d q (ws++q.path)) := by
  rw [Unlimited,allFound] at hfree
  simp only [Option.elim_none,List.filter_nil,List.map_nil,List.append_nil] at hfree
  simp only [findFiles,if_neg hpattern,hnode,take_walked hfree]

theorem findFiles_overlay (hpattern : q.pattern ≠ []) (hnode : d.node (ws++q.path) = some .dir)
    (hsb : PlainBelow d sb) (hfree : Unlimited d ws (some sb) q) :
    findFiles d ws (some sb) q = .found (ws++q.path) (allFound d ws (some sb) q) := by
  rw [Unlimited,allFound] at hfree
  simp only [Option.elim_some] at hfree
  have hwalk : ((walked d q (ws++q.path)).length : ℤ) ≤ q.cap := by
    rw [List.length_append] at hfree
    push_cast at hfree
    omega
  simp only [findFiles,if_neg hpattern,hnode,take_walked hwalk,allFound,Option.elim_some]
  split
  · rw [unionMirrorMatches_eq (distinct_mirror hsb) hfree]
  · next hfull =>
    have hnone : (sandboxMirrorFiles d sb).filter (adds q (walked d q (ws++q.path))) = [] := by
      refine List.length_eq_zero_iff.mp ?_
      rw [List.length_append,List.length_map] at hfree
      push_cast at hfree
      omega
    rw [hnone,List.map_nil,List.append_nil]

theorem walked_merged (hm : overwrite d ws sb = some m) : Walked m ws q sub ↔ sub ≠ [] ∧
    (q.path++sub ∈ sandboxMirrorFiles d sb ∨ d.isFile (ws++(q.path++sub)) = true) ∧ Reached q sub ∧
      q.takes (sub.getLast?.getD []) = true := by
  have hfile : m.isFile (ws++(q.path++sub)) = true ↔
      q.path++sub ∈ sandboxMirrorFiles d sb ∨ d.isFile (ws++(q.path++sub)) = true := by
    rw [isFile_iff_bytes,OverlaySearch.bytes_overwrite hm]
    split
    · next hmem =>
      exact ⟨fun _ => .inl hmem,fun _ => isFile_iff_bytes.mp (mem_sandboxMirrorFiles.mp hmem).2.1⟩
    · next hmem => rw [or_iff_right hmem,isFile_iff_bytes]
  rw [Walked,hfile]

theorem dirExact_iff (hm : overwrite d ws sb = some m) :
    DirExact d ws sb q ↔ ∀ sub, (Walked d ws q sub ∨ Mirrored d sb q sub) ↔ Walked m ws q sub := by
  constructor
  · intro h sub
    rw [walked_merged hm]
    constructor
    · rintro (⟨hne,hfile,hreached,htakes⟩ | ⟨hne,hmem,hdepth,htakes⟩)
      · exact ⟨hne,.inr hfile,hreached,htakes⟩
      · exact ⟨hne,.inl hmem,h.shallow sub hne hmem htakes hdepth,htakes⟩
    · rintro ⟨hne,hmem | hfile,hreached,htakes⟩
      · by_cases hdepth : (sub.dropLast.length : ℤ) < q.depth
        · exact .inr ⟨hne,hmem,hdepth,htakes⟩
        · exact .inl ⟨hne,h.deepest sub hne hmem htakes hreached (not_lt.mp hdepth),hreached,htakes⟩
      · exact .inl ⟨hne,hfile,hreached,htakes⟩
  · intro h
    constructor
    · intro sub hne hmem htakes hdepth
      exact ((walked_merged hm).mp ((h sub).mp (.inr ⟨hne,hmem,hdepth,htakes⟩))).2.2.1
    · intro sub hne hmem htakes hreached hdepth
      rcases (h sub).mpr ((walked_merged hm).mpr ⟨hne,.inl hmem,hreached,htakes⟩) with hsub | hsub
      · exact hsub.2.1
      · exact absurd hdepth (not_le.mpr hsub.2.2.1)

theorem texts_iff {P Q : Rel → Prop} (hP : ∀ sub, P sub → PlainRel sub) (hQ : ∀ sub, Q sub → PlainRel sub) :
    (∀ t, (∃ sub, P sub ∧ asPosix sub = t) ↔ ∃ sub, Q sub ∧ asPosix sub = t) ↔ ∀ sub, P sub ↔ Q sub := by
  constructor
  · intro h sub
    constructor
    · intro hp
      obtain ⟨sub',hq,heq⟩ := (h _).mp ⟨sub,hp,rfl⟩
      rwa [← OverlaySearch.asPosix_inj (hQ _ hq) (hP _ hp) heq]
    · intro hq
      obtain ⟨sub',hp,heq⟩ := (h _).mpr ⟨sub,hq,rfl⟩
      rwa [← OverlaySearch.asPosix_inj (hP _ hp) (hQ _ hq) heq]
  · intro h t
    simp only [h]

theorem sameFiles_dir_iff (hm : overwrite d ws sb = some m) (hws : PlainBelow d ws)
    (hsb : PlainBelow d sb) : ((allFound d ws (some sb) q).Perm (walked m q (ws++q.path)) ∧
      (allFound d ws (some sb) q).Nodup) ↔ DirExact d ws sb q := by
  have hmws := OverlaySearch.plainBelow_overwrite hm hws hsb
  rw [and_iff_left (allFound_nodup hws hsb),
    List.perm_ext_iff_of_nodup (allFound_nodup hws hsb) (walked_nodup hmws),dirExact_iff hm]
  simp only [mem_allFound hws,mem_walked hmws]
  refine texts_iff (fun sub hsub => ?_) fun sub hsub => plainRel_below hmws hsub.2.1 hsub.1
  rcases hsub with hsub | hsub
  · exact plainRel_below hws hsub.2.1 hsub.1
  · exact plainRel_of_mirror hsb hsub.2.1 hsub.1

/-- A call with plain names that does not exceed its limit finds the files of the merged tree,
each once, exactly when it is exact. -/
theorem overlay_find_iff (hm : overwrite d ws sb = some m) (hws : PlainBelow d ws)
    (hsb : PlainBelow d sb) (hoverlay : Unlimited d ws (some sb) q) (hmerged : Unlimited m ws none q) :
    SameFiles (findFiles d ws (some sb) q) (findFiles m ws none q) ↔ Exact d ws sb q := by
  by_cases hpattern : q.pattern = []
  · simp [findFiles,hpattern,SameFiles,Exact]
  rw [Exact,imp_iff_right hpattern]
  cases hnode : d.node (ws++q.path) with
  | none =>
    have hnone : findFiles d ws (some sb) q = .notFound (ws++q.path) := by
      simp [findFiles,hpattern,hnode]
    rw [hnone,← OverlaySearch.node_merged_none_iff hm hnode]
    cases hnode' : m.node (ws++q.path) with
    | none => simp [findFiles,hpattern,hnode',SameFiles]
    | some node => cases node <;> simp [findFiles,hpattern,hnode',SameFiles]
  | some node =>
    cases node with
    | file b =>
      have hfile : ∃ b', m.bytes (ws++q.path) = some b' := by
        rw [OverlaySearch.bytes_overwrite hm]
        split
        · next hp => exact isFile_iff_bytes.mp (mem_sandboxMirrorFiles.mp hp).2.1
        · exact ⟨b,bytes_eq_some.mpr hnode⟩
      obtain ⟨b',hb'⟩ := hfile
      have hnode' := bytes_eq_some.mp hb'
      simp [findFiles,hpattern,hnode,hnode',SameFiles]
    | dir =>
      have hnode' := OverlaySearch.node_overwriteFrom_dir hm hnode
      rw [findFiles_overlay hpattern hnode hsb hoverlay,findFiles_plain hpattern hnode' hmerged]
      exact (and_iff_right rfl).trans (sameFiles_dir_iff hm hws hsb)

end Proofs

instance (d : Files) (ws : Rel) (sandbox : Option Rel) (q : Query) : Decidable (Unlimited d ws sandbox q) :=
  inferInstanceAs (Decidable (_ ≤ _))

def demoWs : Rel := [lit "w"]

def demoSandbox : Rel := [lit "w",minimaxDir,lit "sandboxes",lit "r"]

/-- The run has written two files in directories that the workspace does not have. -/
def demoFiles : Files :=
  (((toolWrite .empty (demoWs++[lit "main.py"]) .empty).bind fun d =>
    toolWrite d (demoSandbox++[lit "dist",lit "x.py"]) .empty).bind fun d =>
      toolWrite d (demoSandbox++[lit "src",lit "b.py"]) .empty).getD .empty

def demoMerged : Files := (overwrite demoFiles demoWs demoSandbox).getD .empty

theorem overwrite_demo : overwrite demoFiles demoWs demoSandbox = some demoMerged := by
  have hsome : (overwrite demoFiles demoWs demoSandbox).isSome := by decide +kernel
  obtain ⟨m,hm⟩ := Option.isSome_iff_exists.mp hsome
  rw [demoMerged,hm,Option.getD_some]

def sources (maxDepth : ℤ) (excludeDirs : List PyStr) : Query := ⟨[],lit "**/*.py",maxDepth,excludeDirs,0⟩

theorem find_sources_exact : Exact demoFiles demoWs demoSandbox (sources 2 [lit "build"]) := by
  refine (overlay_find_iff overwrite_demo (OverlaySearch.plainBelow_of_all (by decide +kernel))
    (OverlaySearch.plainBelow_of_all (by decide +kernel)) (by decide +kernel) (by decide +kernel)).mp ?_
  have hoverlay : findFiles demoFiles demoWs (some demoSandbox) (sources 2 [lit "build"]) =
      .found (demoWs++[]) [lit "main.py",lit "dist/x.py",lit "src/b.py"] := by decide +kernel
  have hmerged : findFiles demoMerged demoWs none (sources 2 [lit "build"]) =
      .found (demoWs++[]) [lit "main.py",lit "src/b.py",lit "dist/x.py"] := by decide +kernel
  rw [hoverlay,hmerged]
  exact ⟨rfl,by decide +kernel,by decide +kernel⟩

/-- A mirrored file in an excluded directory is found, and one as deep as the depth allows is
not. -/
theorem find_sources_differ :
    findFiles demoFiles demoWs (some demoSandbox) (sources 0 []) =
      .found demoWs [lit "main.py",lit "dist/x.py",lit "src/b.py"] ∧
    findFiles demoMerged demoWs none (sources 0 []) =
      .found demoWs [lit "main.py",lit "src/b.py"] ∧
    findFiles demoFiles demoWs (some demoSandbox) (sources 1 []) = .found demoWs [lit "main.py"] ∧
    findFiles demoMerged demoWs none (sources 1 []) =
      .found demoWs [lit "main.py",lit "src/b.py"] := by
  refine ⟨?_,?_,?_,?_⟩
  · decide +kernel
  · decide +kernel
  · decide +kernel
  · decide +kernel

end MinimaxCode.OverlayFind
