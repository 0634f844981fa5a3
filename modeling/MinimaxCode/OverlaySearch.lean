import MinimaxCode.Fnmatch
import MinimaxCode.OrderedDict
import MinimaxCode.SandboxLayout
import MinimaxCode.SplitLines
import MinimaxCode.TextMode

/-!
# Searching under a sandbox

The Python engine of `search_files` walks the search root and reads every candidate.
Under a sandbox the files of the mirror are candidates too. Walked files are named by
their path below the search root and mirrored files by their path below the workspace, and
a candidate replaces an earlier one with its name.
-/

namespace MinimaxCode.OverlaySearch

open PyText FileTree FileTree.Tree Sandbox Fnmatch OrderedDict SplitLines

abbrev Files := Disk ByteArray

/-- A search whose root is resolved, below the workspace. The pattern is compiled or the
compiler's message. -/
structure Query where
  path : Rel
  rx : Except PyStr (PyStr → Bool)
  filePattern : PyStr
  maxResults : ℤ

/-- File, line number and text. -/
abbrev Hit := PyStr × ℕ × PyStr

inductive Outcome
  | notFound (root : Rel)
  | invalidRegex (message : PyStr)
  | found (root : Rel) (hits : List Hit)
  deriving DecidableEq

def maxFileBytes : ℕ := 10*1024*1024
def binarySniffBytes : ℕ := 8192

/-- `data.decode("latin-1")`. -/
def decodeLatin1 (data : ByteArray) : PyStr := data.data.toList.map fun b => .scalar (Char.ofNat b.toNat)

/-- The cut of a long line in `_format_match`. -/
def formatLine (line : PyStr) : PyStr :=
  if 400 < line.length then line.take 397++lit "..." else line

def fileHits (rx : PyStr → Bool) (data : ByteArray) : List (ℕ × PyStr) :=
  if maxFileBytes < data.size then []
  else if 0 ∈ data.data.toList.take binarySniffBytes then []
  else ((splitlines ((TextMode.decode data).getD (decodeLatin1 data))).zipIdx 1).filterMap
    fun line => if rx line.1 then some (line.2,formatLine line.1) else none

/-- The hits of what is read at a path; nothing where a read fails. -/
def hitsAt (rx : PyStr → Bool) (d : Files) (p : Rel) : List (ℕ × PyStr) :=
  (d.bytes p).elim [] (fileHits rx)

/-- The directories that a walk skips. -/
def noiseDirs : List PyStr :=
  [lit ".git",lit ".venv",lit "node_modules",lit "__pycache__",lit ".pytest_cache",lit ".minimax"]

/-- The file pattern takes the last component. -/
def globs (filePattern : PyStr) (rel : Rel) : Bool :=
  filePattern == lit "*" || filePattern == [] || fnmatchcase (rel.getLast?.getD []) filePattern

def visited (filePattern : PyStr) (rel : Rel) : Bool :=
  rel.dropLast.all (fun n => n ∉ noiseDirs) && globs filePattern rel

/-- `_walk_files` of a directory, with paths below it. -/
def walkFiles (d : Files) (root : Rel) (filePattern : PyStr) : List Rel :=
  (d.filesUnder root).filter (visited filePattern)

/-- `as_posix` of a relative path. -/
def asPosix : Rel → PyStr
  | [] => []
  | [n] => n
  | n::rest => n++ch '/'::asPosix rest

/-- `_workspace_rel` of a file below the root. -/
def workspaceRel (rel : Rel) : PyStr := (asPosix rel).map fun c => if c = ch '\\' then ch '/' else c

/-- The mirrored files that the file pattern takes. -/
def mirrorCandidates (d : Files) (sandbox : Option Rel) (filePattern : PyStr) : List Rel :=
  (sandbox.elim [] (sandboxMirrorFiles d)).filter (globs filePattern)

/-- The dictionary of candidates, a path to read for each name. -/
def candidates (d : Files) (sandbox : Option Rel) (root : Rel) (filePattern : PyStr) :
    List (PyStr × Rel) :=
  ofItems ((walkFiles d root filePattern).map (fun q => (workspaceRel q,root++q))++
    (mirrorCandidates d sandbox filePattern).map fun p => (asPosix p,sandbox.getD []++p))

def overlayReadTarget (d : Files) (sandbox : Option Rel) (ws target : Rel) : Rel :=
  match sandbox with
  | none => target
  | some sb =>
    match mirrorPath target sb ws with
    | none => target
    | some mirror => if (d.node mirror).isSome then mirror else target

/-- The hits of all candidates. -/
def allHits (rx : PyStr → Bool) (d : Files) (cands : List (PyStr × Rel)) : List Hit :=
  labelled (hitsAt rx d) cands

/-- The loop stops at the hit that reaches the limit. -/
def limit (maxResults : ℤ) : ℕ := max 1 maxResults.toNat

/-- The directory that is searched, and its candidates. -/
def searchSpace (d : Files) (ws : Rel) (sandbox : Option Rel) (q : Query) :
    Option (Rel × List (PyStr × Rel)) :=
  let root := ws++q.path
  match d.node root with
  | none => none
  | some (.file _) => some (root.dropLast,
      [(workspaceRel root.getLast?.toList,overlayReadTarget d sandbox ws root)])
  | some .dir => some (root,candidates d sandbox root q.filePattern)

/-- `search_files` with the Python engine. -/
def searchFiles (d : Files) (ws : Rel) (sandbox : Option Rel) (q : Query) : Outcome :=
  match searchSpace d ws sandbox q,q.rx with
  | none,_ => .notFound (ws++q.path)
  | some _,.error message => .invalidRegex message
  | some (root,cands),.ok rx => .found root ((allHits rx d cands).take (limit q.maxResults))

/-- The workspace with every file of the mirror written over it. -/
def overwriteFrom (d : Files) (ws sb : Rel) (t : Files) : List Rel → Option Files
  | [] => some t
  | p::ps => ((d.bytes (sb++p)).bind (toolWrite t (ws++p))).bind fun u => overwriteFrom d ws sb u ps

def overwrite (d : Files) (ws sb : Rel) : Option Files :=
  overwriteFrom d ws sb d (sandboxMirrorFiles d sb)

/-- Both searches find the same hits, or fail alike. -/
def SameHits : Outcome → Outcome → Prop
  | .found root hits,.found root' hits' => root = root' ∧ hits.Perm hits'
  | .notFound root,.notFound root' => root = root'
  | .invalidRegex message,.invalidRegex message' => message = message'
  | _,_ => False

/-- The search does not reach its limit. -/
def Unlimited (d : Files) (ws : Rel) (sandbox : Option Rel) (q : Query) : Prop :=
  ∀ root cands rx, searchSpace d ws sandbox q = some (root,cands) → q.rx = .ok rx →
    (allHits rx d cands).length ≤ limit q.maxResults

/-- The names below a directory have neither a slash nor a backslash in them. -/
def PlainBelow (d : Files) (base : Rel) : Prop :=
  ∀ rel, d.isFile (base++rel) = true → ∀ n ∈ rel, ch '/' ∉ n ∧ ch '\\' ∉ n

section Exact

variable (rx : PyStr → Bool) (d : Files) (ws sb : Rel)

/-- What the merged tree has at a path of the workspace. -/
def mergedHits (rel : Rel) : List (ℕ × PyStr) :=
  if rel ∈ sandboxMirrorFiles d sb then hitsAt rx d (sb++rel) else hitsAt rx d (ws++rel)

/-- A directory is searched as in the merged tree. Mirrored files are read under their
path below the workspace, so there they must have the lines of the merged file of that
path below the search root. The other files are read from the workspace, so the mirror
must not have changed their lines. -/
structure DirExact (path : Rel) (filePattern : PyStr) : Prop where
  mirrored : ∀ p ∈ sandboxMirrorFiles d sb, globs filePattern p = true →
    (hitsAt rx d (sb++p)).Perm (if visited filePattern p then mergedHits rx d ws sb (path++p) else [])
  walked : ∀ q, q ≠ [] → q ∉ sandboxMirrorFiles d sb → visited filePattern q = true →
    path++q ∈ sandboxMirrorFiles d sb →
    (hitsAt rx d (ws++(path++q))).Perm (hitsAt rx d (sb++(path++q)))

end Exact

/-- The overlay search of a query agrees with the search of the merged tree. -/
def Exact (d : Files) (ws sb : Rel) (q : Query) : Prop :=
  match d.node (ws++q.path) with
  | none => ∀ p ∈ sandboxMirrorFiles d sb, ¬ q.path <+: p
  | some (.file _) => ∀ rx, q.rx = .ok rx →
      (hitsAt rx d (overlayReadTarget d (some sb) ws (ws++q.path))).Perm (mergedHits rx d ws sb q.path)
  | some .dir => ∀ rx, q.rx = .ok rx → DirExact rx d ws sb q.path q.filePattern

/-- A relative path of names. -/
structure PlainRel (rel : Rel) : Prop where
  ne_nil : rel ≠ []
  names : ∀ n ∈ rel, ch '/' ∉ n ∧ ch '\\' ∉ n

variable {rel sb ws : Rel} {d m : Files} {ps : List Rel} {fp : PyStr} {q : Query}
  {rx : PyStr → Bool} {sandbox : Option Rel}

theorem splitOn_asPosix (h : PlainRel rel) : splitOn (ch '/') (asPosix rel) = rel := by
  obtain ⟨hne,hnames⟩ := h
  induction rel with
  | nil => exact absurd rfl hne
  | cons n rest ih =>
    have hn := (hnames n List.mem_cons_self).1
    cases rest with
    | nil => exact splitOn_of_not_mem hn
    | cons n' rest =>
      have hrest := ih (List.cons_ne_nil _ _) fun m hm => hnames m (List.mem_cons_of_mem n hm)
      rw [asPosix,splitOn_append_sep hn,hrest]
      exact List.cons_ne_nil _ _

theorem asPosix_inj {rel' : Rel} (h : PlainRel rel) (h' : PlainRel rel')
    (heq : asPosix rel = asPosix rel') : rel = rel' := by
  rw [← splitOn_asPosix h,heq,splitOn_asPosix h']

theorem not_mem_asPosix (h : ∀ n ∈ rel, ch '\\' ∉ n) : ch '\\' ∉ asPosix rel := by
  induction rel with
  | nil => simp [asPosix]
  | cons n rest ih =>
    have hn := h n List.mem_cons_self
    have hrest := ih fun m hm => h m (List.mem_cons_of_mem n hm)
    cases rest with
    | nil => exact hn
    | cons n' rest =>
      rw [asPosix]
      · simp [hn,hrest]
      · exact List.cons_ne_nil _ _

theorem workspaceRel_of_plain (h : PlainRel rel) : workspaceRel rel = asPosix rel := by
  have hnot := not_mem_asPosix fun n hn => (h.names n hn).2
  refine (List.map_congr_left fun c hc => ?_).trans (List.map_id _)
  have hne : c ≠ ch '\\' := fun he => hnot (he ▸ hc)
  exact if_neg hne

theorem bytes_overwriteFrom {t : Files}
    (h : overwriteFrom d ws sb t ps = some m) (rel : Rel) :
    m.bytes (ws++rel) = if rel ∈ ps then d.bytes (sb++rel) else t.bytes (ws++rel) := by
  induction ps generalizing t with
  | nil =>
    cases h
    simp
  | cons p ps ih =>
    obtain ⟨u,hu,hrest⟩ := Option.bind_eq_some_iff.mp h
    obtain ⟨b,hb,hwrite⟩ := Option.bind_eq_some_iff.mp hu
    rw [ih hrest,bytes_toolWrite hwrite]
    by_cases hp : rel = p
    · simp [hp,hb]
    · simp [hp]

theorem node_overwriteFrom_dir {t : Files} {q : Rel}
    (h : overwriteFrom d ws sb t ps = some m) (hq : t.node q = some .dir) : m.node q = some .dir := by
  induction ps generalizing t with
  | nil =>
    cases h
    exact hq
  | cons p ps ih =>
    obtain ⟨u,hu,hrest⟩ := Option.bind_eq_some_iff.mp h
    obtain ⟨b,hb,hwrite⟩ := Option.bind_eq_some_iff.mp hu
    refine ih hrest ?_
    have hne : t.node q ≠ none := by simp [hq]
    by_cases hqp : q = ws++p
    · obtain ⟨v,hv,hfile⟩ := Option.bind_eq_some_iff.mp hwrite
      have hdir : v.node (ws++p) = some .dir := by
        rw [← hqp,node_mkdirs_of_ne_none hv hne,hq]
      exact absurd hdir (not_dir_of_writeFile hfile)
    · rw [(frame_toolWrite (P := fun r => r = ws++p) rfl hwrite).node_eq_of_ne_none hqp hne,hq]

theorem node_overwriteFrom_none {t : Files} {q : Rel}
    (h : overwriteFrom d ws sb t ps = some m) (hq : t.node q = none)
    (hps : ∀ p ∈ ps, ¬ q <+: ws++p) : m.node q = none := by
  induction ps generalizing t with
  | nil =>
    cases h
    exact hq
  | cons p ps ih =>
    obtain ⟨u,hu,hrest⟩ := Option.bind_eq_some_iff.mp h
    obtain ⟨b,hb,hwrite⟩ := Option.bind_eq_some_iff.mp hu
    have hp := hps p List.mem_cons_self
    refine ih hrest ?_ fun p' hp' => hps p' (List.mem_cons_of_mem p hp')
    have hframe := frame_toolWrite (P := fun r => r = ws++p) rfl hwrite
    rw [hframe.node_eq (fun he => hp (he ▸ List.prefix_rfl)) (fun r hr => hr ▸ hp),hq]

section Merged

variable {d m : Files} {ws sb : Rel}

theorem bytes_overwrite (h : overwrite d ws sb = some m) (rel : Rel) : m.bytes (ws++rel) =
    if rel ∈ sandboxMirrorFiles d sb then d.bytes (sb++rel) else d.bytes (ws++rel) :=
  bytes_overwriteFrom h rel

theorem hitsAt_overwrite (h : overwrite d ws sb = some m) (rx : PyStr → Bool) (rel : Rel) :
    hitsAt rx m (ws++rel) = mergedHits rx d ws sb rel := by
  rw [hitsAt,bytes_overwrite h,mergedHits]
  split <;> rfl

theorem plainBelow_overwrite (h : overwrite d ws sb = some m) (hws : PlainBelow d ws)
    (hsb : PlainBelow d sb) : PlainBelow m ws := by
  intro rel hfile
  obtain ⟨b,hb⟩ := isFile_iff_bytes.mp hfile
  rw [bytes_overwrite h] at hb
  split at hb
  · exact hsb rel (isFile_iff_bytes.mpr ⟨b,hb⟩)
  · exact hws rel (isFile_iff_bytes.mpr ⟨b,hb⟩)

end Merged

theorem mem_walkFiles {root q : Rel} :
    q ∈ walkFiles d root fp ↔ (q ≠ [] ∧ d.isFile (root++q) = true) ∧ visited fp q = true := by
  rw [walkFiles,List.mem_filter,mem_filesUnder]

theorem mem_mirrorCandidates {p : Rel} :
    p ∈ mirrorCandidates d (some sb) fp ↔ p ∈ sandboxMirrorFiles d sb ∧ globs fp p = true := by
  rw [mirrorCandidates,List.mem_filter]
  rfl

/-- The candidates have plain paths. -/
structure PlainSpace (d : Files) (sandbox : Option Rel) (root : Rel) (fp : PyStr) : Prop where
  walk : ∀ q ∈ walkFiles d root fp, PlainRel q
  mirror : ∀ p ∈ mirrorCandidates d sandbox fp, PlainRel p

theorem plainRel_of_walk {path q : Rel} (h : PlainBelow d ws)
    (hq : q ∈ walkFiles d (ws++path) fp) : PlainRel q := by
  obtain ⟨⟨hne,hfile⟩,-⟩ := mem_walkFiles.mp hq
  rw [List.append_assoc] at hfile
  exact ⟨hne,fun n hn => h _ hfile n (List.mem_append_right path hn)⟩

theorem plainRel_of_mirror {p : Rel} (h : PlainBelow d sb)
    (hp : p ∈ sandboxMirrorFiles d sb) : PlainRel p := by
  obtain ⟨hne,hfile,-⟩ := mem_sandboxMirrorFiles.mp hp
  exact ⟨hne,h p hfile⟩

theorem plainSpace_overlay (hws : PlainBelow d ws) (hsb : PlainBelow d sb)
    (path : Rel) (fp : PyStr) : PlainSpace d (some sb) (ws++path) fp where
  walk _ hq := plainRel_of_walk hws hq
  mirror _ hp := plainRel_of_mirror hsb (mem_mirrorCandidates.mp hp).1

theorem plainSpace_merged (hws : PlainBelow m ws) (path : Rel) (fp : PyStr) :
    PlainSpace m none (ws++path) fp where
  walk _ hq := plainRel_of_walk hws hq
  mirror _ hp := by simp [mirrorCandidates] at hp

section Lookup

variable {d : Files} {sandbox : Option Rel} {root : Rel} {fp : PyStr}

/-- The hits of the candidate with a name. -/
def hitsNamed (rx : PyStr → Bool) (d : Files) (sandbox : Option Rel) (root : Rel) (fp name : PyStr) :
    List (ℕ × PyStr) :=
  (lookup (candidates d sandbox root fp) name).elim [] (hitsAt rx d)

theorem hitsNamed_asPosix (rx : PyStr → Bool) (h : PlainSpace d sandbox root fp) {k : Rel}
    (hk : PlainRel k) : hitsNamed rx d sandbox root fp (asPosix k) =
      if k ∈ mirrorCandidates d sandbox fp then hitsAt rx d (sandbox.getD []++k)
      else if visited fp k then hitsAt rx d (root++k) else [] := by
  have hmirror : lookup (ofItems ((mirrorCandidates d sandbox fp).map
      fun p => (asPosix p,sandbox.getD []++p))) (asPosix k) =
      if k ∈ mirrorCandidates d sandbox fp then some (sandbox.getD []++k) else none :=
    lookup_ofItems_map _ fun p hp heq => asPosix_inj (h.mirror p hp) hk heq
  have hname : (walkFiles d root fp).map (fun q => (workspaceRel q,root++q)) =
      (walkFiles d root fp).map fun q => (asPosix q,root++q) :=
    List.map_congr_left fun q hq => by rw [workspaceRel_of_plain (h.walk q hq)]
  have hwalk : lookup (ofItems ((walkFiles d root fp).map fun q => (workspaceRel q,root++q)))
      (asPosix k) = if k ∈ walkFiles d root fp then some (root++k) else none := by
    rw [hname]
    exact lookup_ofItems_map _ fun q hq heq => asPosix_inj (h.walk q hq) hk heq
  rw [hitsNamed,candidates,lookup_ofItems_append,hmirror,hwalk]
  by_cases hin : k ∈ mirrorCandidates d sandbox fp
  · simp [hin]
  · rw [if_neg hin,if_neg hin,Option.none_or]
    by_cases hvisited : visited fp k = true
    · by_cases hfile : d.isFile (root++k) = true
      · simp [mem_walkFiles,hk.ne_nil,hfile,hvisited]
      · have hnone : d.bytes (root++k) = none := by
          rw [Option.eq_none_iff_forall_ne_some]
          exact fun b hb => hfile (isFile_iff_bytes.mpr ⟨b,hb⟩)
        simp [mem_walkFiles,hfile,hvisited,hitsAt,hnone]
    · simp [mem_walkFiles,hvisited]

theorem hitsNamed_other (rx : PyStr → Bool) (h : PlainSpace d sandbox root fp) {name : PyStr}
    (hname : ∀ k, PlainRel k → asPosix k ≠ name) : hitsNamed rx d sandbox root fp name = [] := by
  rw [hitsNamed]
  cases hlookup : lookup (candidates d sandbox root fp) name with
  | none => rfl
  | some path =>
    have hmem := mem_of_mem_ofItems (mem_of_lookup hlookup)
    cases List.mem_append.mp hmem with
    | inl hwalk =>
      obtain ⟨q,hq,heq⟩ := List.mem_map.mp hwalk
      have hplain := h.walk q hq
      rw [workspaceRel_of_plain hplain] at heq
      exact absurd (congrArg Prod.fst heq) (hname q hplain)
    | inr hmirror =>
      obtain ⟨p,hp,heq⟩ := List.mem_map.mp hmirror
      exact absurd (congrArg Prod.fst heq) (hname p (h.mirror p hp))

end Lookup

theorem globs_of_visited {k : Rel} (h : visited fp k = true) : globs fp k = true :=
  (Bool.and_eq_true_iff.mp h).2

theorem dirExact_iff (hm : overwrite d ws sb = some m)
    (hws : PlainBelow d ws) (hsb : PlainBelow d sb) (rx : PyStr → Bool) (path : Rel) (fp : PyStr) :
    (allHits rx d (candidates d (some sb) (ws++path) fp)).Perm
      (allHits rx m (candidates m none (ws++path) fp)) ↔ DirExact rx d ws sb path fp := by
  have hspace := plainSpace_overlay hws hsb path fp
  have hspace' := plainSpace_merged (plainBelow_overwrite hm hws hsb) path fp
  have hoverlay : ∀ k, PlainRel k → hitsNamed rx d (some sb) (ws++path) fp (asPosix k) =
      if k ∈ sandboxMirrorFiles d sb ∧ globs fp k = true then hitsAt rx d (sb++k)
      else if visited fp k then hitsAt rx d (ws++(path++k)) else [] := by
    intro k hk
    simp only [hitsNamed_asPosix rx hspace hk,mem_mirrorCandidates,Option.getD_some,List.append_assoc]
  have hmerged : ∀ k, PlainRel k → hitsNamed rx m none (ws++path) fp (asPosix k) =
      if visited fp k then mergedHits rx d ws sb (path++k) else [] := by
    intro k hk
    rw [hitsNamed_asPosix rx hspace' hk,List.append_assoc,hitsAt_overwrite hm]
    rfl
  have hnames : (allHits rx d (candidates d (some sb) (ws++path) fp)).Perm
      (allHits rx m (candidates m none (ws++path) fp)) ↔
      ∀ name, (hitsNamed rx d (some sb) (ws++path) fp name).Perm
        (hitsNamed rx m none (ws++path) fp name) :=
    labelled_perm_iff (nodup_keys_ofItems _) (nodup_keys_ofItems _)
  rw [hnames]
  constructor
  · intro h
    constructor
    · intro p hp hglob
      have hk := plainRel_of_mirror hsb hp
      have hname := h (asPosix p)
      rwa [hoverlay p hk,hmerged p hk,if_pos ⟨hp,hglob⟩] at hname
    · intro q hne hq hvisited hpath
      have hk : PlainRel q :=
        ⟨hne,fun n hn => (plainRel_of_mirror hsb hpath).names n (List.mem_append_right path hn)⟩
      have hname := h (asPosix q)
      rwa [hoverlay q hk,hmerged q hk,if_neg fun hand => hq hand.1,if_pos hvisited,if_pos hvisited,
        mergedHits,if_pos hpath] at hname
  · intro h name
    by_cases hname : ∃ k, PlainRel k ∧ asPosix k = name
    · obtain ⟨k,hk,rfl⟩ := hname
      rw [hoverlay k hk,hmerged k hk]
      split
      · next hin => exact h.mirrored k hin.1 hin.2
      · next hout =>
        split
        · next hvisited =>
          have hk' : k ∉ sandboxMirrorFiles d sb := fun hin => hout ⟨hin,globs_of_visited hvisited⟩
          rw [mergedHits]
          split
          · next hpath => exact h.walked k hk.ne_nil hk' hvisited hpath
          · exact .refl _
        · exact .refl _
    · have hother : ∀ k, PlainRel k → asPosix k ≠ name := fun k hk heq => hname ⟨k,hk,heq⟩
      rw [hitsNamed_other rx hspace hother,hitsNamed_other rx hspace' hother]

theorem searchFiles_of_space {root : Rel}
    {cands : List (PyStr × Rel)} (hfree : Unlimited d ws sandbox q)
    (hspace : searchSpace d ws sandbox q = some (root,cands)) (hrx : q.rx = .ok rx) :
    searchFiles d ws sandbox q = .found root (allHits rx d cands) := by
  rw [searchFiles,hspace,hrx]
  dsimp only
  rw [List.take_of_length_le (hfree root cands rx hspace hrx)]

theorem searchFiles_invalid
    {space : Rel × List (PyStr × Rel)} {message : PyStr}
    (hspace : searchSpace d ws sandbox q = some space) (hrx : q.rx = .error message) :
    searchFiles d ws sandbox q = .invalidRegex message := by
  rw [searchFiles,hspace,hrx]

theorem sameHits_iff {root : Rel} {sandbox' : Option Rel}
    {cands cands' : List (PyStr × Rel)} (hfree : Unlimited d ws sandbox q)
    (hfree' : Unlimited m ws sandbox' q) (hspace : searchSpace d ws sandbox q = some (root,cands))
    (hspace' : searchSpace m ws sandbox' q = some (root,cands')) :
    SameHits (searchFiles d ws sandbox q) (searchFiles m ws sandbox' q) ↔
      ∀ rx, q.rx = .ok rx → (allHits rx d cands).Perm (allHits rx m cands') := by
  cases hrx : q.rx with
  | error message =>
    rw [searchFiles_invalid hspace hrx,searchFiles_invalid hspace' hrx]
    simp [SameHits]
  | ok rx =>
    rw [searchFiles_of_space hfree hspace hrx,searchFiles_of_space hfree' hspace' hrx]
    simp [SameHits]

theorem node_merged_none_iff {path : Rel} (hm : overwrite d ws sb = some m)
    (hnode : d.node (ws++path) = none) : m.node (ws++path) = none ↔
      ∀ p ∈ sandboxMirrorFiles d sb, ¬ path <+: p := by
  constructor
  · rintro hnone p hp ⟨rest,rfl⟩
    obtain ⟨b,hb⟩ := isFile_iff_bytes.mp (mem_sandboxMirrorFiles.mp hp).2.1
    have hfile : m.bytes (ws++(path++rest)) = some b := by rw [bytes_overwrite hm,if_pos hp,hb]
    rw [← List.append_assoc] at hfile
    have hne : m.node (ws++path++rest) ≠ none := by
      rw [bytes_eq_some.mp hfile]
      exact Option.some_ne_none _
    by_cases hrest : rest = []
    · subst hrest
      rw [List.append_nil] at hne
      exact hne hnone
    · rw [m.ancestor_dir hrest hne] at hnone
      cases hnone
  · intro h
    exact node_overwriteFrom_none hm hnode fun p hp hpre =>
      h p hp (List.prefix_append_right_inj ws |>.mp hpre)

/-- A search with plain names that does not reach its limit finds the hits of the merged
tree exactly when it is exact. -/
theorem overlay_search_iff {d m : Files} {ws sb : Rel} {q : Query}
    (hm : overwrite d ws sb = some m) (hws : PlainBelow d ws) (hsb : PlainBelow d sb)
    (hoverlay : Unlimited d ws (some sb) q) (hmerged : Unlimited m ws none q) :
    SameHits (searchFiles d ws (some sb) q) (searchFiles m ws none q) ↔ Exact d ws sb q := by
  rw [Exact]
  cases hnode : d.node (ws++q.path) with
  | none =>
    have hnone : searchFiles d ws (some sb) q = .notFound (ws++q.path) := by
      simp [searchFiles,searchSpace,hnode]
    rw [hnone,← node_merged_none_iff hm hnode]
    cases hnode' : m.node (ws++q.path) with
    | none => simp [searchFiles,searchSpace,hnode',SameHits]
    | some node =>
      cases node <;> cases hrx : q.rx <;> simp [searchFiles,searchSpace,hnode',hrx,SameHits]
  | some node =>
    cases node with
    | file b =>
      obtain ⟨b',hb'⟩ : ∃ b', m.bytes (ws++q.path) = some b' := by
        rw [bytes_overwrite hm]
        split
        · next hp => exact isFile_iff_bytes.mp (mem_sandboxMirrorFiles.mp hp).2.1
        · exact ⟨b,bytes_eq_some.mpr hnode⟩
      have hspace : searchSpace d ws (some sb) q = some ((ws++q.path).dropLast,
          [(workspaceRel (ws++q.path).getLast?.toList,
            overlayReadTarget d (some sb) ws (ws++q.path))]) := by
        simp only [searchSpace,hnode]
      have hspace' : searchSpace m ws none q = some ((ws++q.path).dropLast,
          [(workspaceRel (ws++q.path).getLast?.toList,ws++q.path)]) := by
        simp only [searchSpace,bytes_eq_some.mp hb',overlayReadTarget]
      rw [sameHits_iff hoverlay hmerged hspace hspace']
      refine forall_congr' fun rx => imp_congr_right fun _ => ?_
      rw [← hitsAt_overwrite hm,allHits,allHits,labelled,labelled,List.flatMap_singleton,
        List.flatMap_singleton,List.map_perm_map_iff (Prod.mk_right_injective _)]
    | dir =>
      have hnode' := node_overwriteFrom_dir hm hnode
      have hspace : searchSpace d ws (some sb) q =
          some (ws++q.path,candidates d (some sb) (ws++q.path) q.filePattern) := by
        simp only [searchSpace,hnode]
      have hspace' : searchSpace m ws none q =
          some (ws++q.path,candidates m none (ws++q.path) q.filePattern) := by
        simp only [searchSpace,hnode']
      rw [sameHits_iff hoverlay hmerged hspace hspace']
      exact forall_congr' fun rx => imp_congr_right fun _ => dirExact_iff hm hws hsb rx _ _

theorem dirExact_root_iff :
    DirExact rx d ws sb [] fp ↔ ∀ p ∈ sandboxMirrorFiles d sb, globs fp p = true →
      visited fp p = false → hitsAt rx d (sb++p) = [] := by
  constructor
  · intro h p hp hglob hskipped
    have hperm := h.mirrored p hp hglob
    rw [hskipped] at hperm
    exact hperm.eq_nil
  · intro h
    constructor
    · intro p hp hglob
      cases hvisited : visited fp p with
      | true => rw [if_pos rfl,List.nil_append,mergedHits,if_pos hp]
      | false =>
        rw [h p hp hglob hvisited]
        exact .refl _
    · intro q _ hq _ hpath
      exact absurd hpath hq

theorem plainBelow_of_all {base : Rel}
    (h : (d.filesUnder base).all (fun rel => rel.all fun n => ch '/' ∉ n ∧ ch '\\' ∉ n) = true) :
    PlainBelow d base := by
  intro rel hfile n hn
  have hne : rel ≠ [] := List.ne_nil_of_mem hn
  have hall := List.all_eq_true.mp h rel (mem_filesUnder.mpr ⟨hne,hfile⟩)
  exact of_decide_eq_true (List.all_eq_true.mp hall n hn)

theorem unlimited_of_all (hrx : q.rx = .ok rx) (h : (searchSpace d ws sandbox q).all
      (fun space => (allHits rx d space.2).length ≤ limit q.maxResults) = true) :
    Unlimited d ws sandbox q := by
  intro root cands rx' hspace hrx'
  rw [hrx] at hrx'
  cases hrx'
  rw [hspace] at h
  exact of_decide_eq_true h

def demoWs : Rel := [lit "w"]

def demoSandbox : Rel := [lit "w",minimaxDir,lit "sandboxes",lit "r"]

/-- The run has replaced the text of one file. -/
def demoFiles : Files :=
  ((toolWrite .empty (demoWs++[lit "src",lit "a.py"]) "old".toByteArray).bind fun d =>
    toolWrite d (demoSandbox++[lit "src",lit "a.py"]) "new".toByteArray).getD .empty

def demoMerged : Files := (overwrite demoFiles demoWs demoSandbox).getD .empty

/-- Every line is a hit. -/
def everyLine (path : Rel) : Query := ⟨path,.ok fun _ => true,lit "*",200⟩

theorem overwrite_demo : overwrite demoFiles demoWs demoSandbox = some demoMerged := by
  have hsome : (overwrite demoFiles demoWs demoSandbox).isSome := by decide +kernel
  obtain ⟨m,hm⟩ := Option.isSome_iff_exists.mp hsome
  rw [demoMerged,hm,Option.getD_some]

theorem search_from_workspace : SameHits
    (searchFiles demoFiles demoWs (some demoSandbox) (everyLine []))
    (searchFiles demoMerged demoWs none (everyLine [])) := by
  refine (overlay_search_iff overwrite_demo (plainBelow_of_all (by decide +kernel))
    (plainBelow_of_all (by decide +kernel)) (unlimited_of_all rfl (by decide +kernel))
    (unlimited_of_all rfl (by decide +kernel))).mpr ?_
  have hnode : demoFiles.node (demoWs++[]) = some .dir := by decide +kernel
  rw [Exact]
  simp only [everyLine,hnode]
  rintro rx -
  rw [dirExact_root_iff]
  intro p hp _ hskipped
  have hvisited : ∀ p ∈ sandboxMirrorFiles demoFiles demoSandbox, visited (lit "*") p = true := by
    decide +kernel
  rw [hvisited p hp] at hskipped
  cases hskipped

/-- A search from the directory of the file finds the old text too, and the new text under
a path that is not its path below the search root. -/
theorem search_below_stale :
    searchFiles demoFiles demoWs (some demoSandbox) (everyLine [lit "src"]) =
      .found (demoWs++[lit "src"]) [(lit "a.py",1,lit "old"),(lit "src/a.py",1,lit "new")] ∧
    searchFiles demoMerged demoWs none (everyLine [lit "src"]) =
      .found (demoWs++[lit "src"]) [(lit "a.py",1,lit "new")] ∧
    ¬ SameHits (searchFiles demoFiles demoWs (some demoSandbox) (everyLine [lit "src"]))
      (searchFiles demoMerged demoWs none (everyLine [lit "src"])) := by
  have hoverlay : searchFiles demoFiles demoWs (some demoSandbox) (everyLine [lit "src"]) =
      .found (demoWs++[lit "src"]) [(lit "a.py",1,lit "old"),(lit "src/a.py",1,lit "new")] := by
    decide +kernel
  have hmerged : searchFiles demoMerged demoWs none (everyLine [lit "src"]) =
      .found (demoWs++[lit "src"]) [(lit "a.py",1,lit "new")] := by
    decide +kernel
  refine ⟨hoverlay,hmerged,?_⟩
  rw [hoverlay,hmerged]
  rintro ⟨-,hperm⟩
  cases hperm.length_eq

end MinimaxCode.OverlaySearch
