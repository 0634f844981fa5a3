import MinimaxCode.GitNames
import MinimaxCode.RunIdContainment

/-!
# The untracked files of a checkpoint

A checkpoint copies the untracked files that git lists to a directory of its own, and a restore
copies them back where nothing is in their place. The lines of the listing are read as paths, so
that a file whose name git quotes is neither copied nor restored.
-/

namespace MinimaxCode.Checkpoints

open PyText SplitLines FileTree FileTree.Tree Sandbox GitNames

variable {B : Type}

inductive Warning
  | snapshotMkdir
  | snapshotCopy (rel : PyStr)
  | snapshotMissing (rel : PyStr)
  | restoreCopy (rel : PyStr)
  deriving DecidableEq

structure Copies (B : Type) where
  disk : Disk B
  copied : List PyStr
  skipped : List PyStr
  warnings : List Warning

def existsAt (d : Disk B) (path : RawPath PyStr) : Bool := ((d.resolve [] path).bind d.node).isSome

/-- `dst.parent.mkdir(parents=True, exist_ok=True)` and then `shutil.copy2(src, dst)`, and whether
neither of them raises. -/
def copyTo (d : Disk B) (src dst : RawPath PyStr) : Disk B × Bool :=
  match d.mkdirsRaw [] dst.dropLast with
  | none => (d,false)
  | some (e,_) =>
    match e.resolve [] src, e.resolve [] dst with
    | some p, some q =>
      if p = q then (e,false)
      else match copy2 e p q .done with
        | .ok u => (u,true)
        | .error u => (u,false)
    | _, _ => (e,false)

def copyOne (cwd dir : Rel) (c : Copies B) (rel : PyStr) : Copies B :=
  let r := copyTo c.disk (joinStr (cwd.map some) rel) (joinStr (dir.map some) rel)
  if r.2 then {c with disk := r.1, copied := c.copied++[rel]}
  else {c with disk := r.1, warnings := c.warnings++[.snapshotCopy rel]}

def copyUntracked (cwd dir : Rel) (files : List PyStr) (d : Disk B) : Copies B :=
  match d.mkdirs [] dir with
  | none => ⟨d,[],[],[.snapshotMkdir]⟩
  | some e => files.foldl (copyOne cwd dir) ⟨e,[],[],[]⟩

def restoreOne (cwd dir : Rel) (c : Copies B) (rel : PyStr) : Copies B :=
  let src := joinStr (dir.map some) rel
  let dst := joinStr (cwd.map some) rel
  if existsAt c.disk src = false then {c with warnings := c.warnings++[.snapshotMissing rel]}
  else if existsAt c.disk dst then {c with skipped := c.skipped++[rel]}
  else
    let r := copyTo c.disk src dst
    if r.2 then {c with disk := r.1, copied := c.copied++[rel]}
    else {c with disk := r.1, warnings := c.warnings++[.restoreCopy rel]}

def restoreUntracked (cwd dir : Rel) (files : List PyStr) (d : Disk B) : Copies B :=
  files.foldl (restoreOne cwd dir) ⟨d,[],[],[]⟩

/-- `_untracked_files`, from what git prints if it does not fail. -/
def untrackedFiles : Option PyStr → List PyStr
  | none => []
  | some out => (splitlines out).filter fun line => !isBlank line

structure Checkpoint where
  untrackedFiles : List PyStr
  hasUntrackedSnapshot : Bool

/-- `create`, and the disk that it leaves. -/
def create (cwd dir : Rel) (out : Option PyStr) (d : Disk B) : Checkpoint × Disk B :=
  let files := untrackedFiles out
  if files = [] then (⟨files,false⟩,d)
  else
    let c := copyUntracked cwd dir files d
    (⟨files,!c.copied.isEmpty⟩,c.disk)

/-- `restore`, once git has applied the tracked changes. -/
def restore (cwd dir : Rel) (checkpoint : Checkpoint) (d : Disk B) : Copies B :=
  if checkpoint.hasUntrackedSnapshot ∧ checkpoint.untrackedFiles ≠ [] then
    restoreUntracked cwd dir checkpoint.untrackedFiles d
  else ⟨d,[],[],[]⟩

/-- `bytes.decode("utf-8", errors="replace")`, on text whose lone surrogates stand for the bytes
that cannot be decoded. -/
structure Decoder where
  decode : PyStr → PyStr
  decode_of_encodes : ∀ s, encodes s = true → decode s = s
  encodes_decode : ∀ s, encodes (decode s) = true

/-- A working tree when a checkpoint is made: its untracked files, and a place for the copies
where nothing is yet. -/
structure Workspace (B : Type) where
  disk : Disk B
  cwd : Rel
  dir : Rel
  untracked : List Rel
  quotePath : Bool
  decoder : Decoder
  named : ∀ f ∈ untracked, f ≠ [] ∧ ∀ n ∈ f, NamesEntry n
  isFile : ∀ f ∈ untracked, disk.isFile (cwd++f) = true
  fresh : disk.node dir = none
  room : ¬disk.Blocked dir

namespace Workspace

/-- What `git ls-files --others --exclude-standard` prints, as it is decoded. -/
def lsFiles (w : Workspace B) : PyStr :=
  w.decoder.decode (unlines (w.untracked.map fun f => printed w.quotePath (pathName f)))

def created (w : Workspace B) : Checkpoint × Disk B := create w.cwd w.dir (some w.lsFiles) w.disk

def restored (w : Workspace B) (d : Disk B) : Copies B := restore w.cwd w.dir w.created.1 d

end Workspace

/-- Something is in the place of the path, or a file where it needs a directory. -/
def Taken (d : Disk B) (p : Rel) : Prop := d.node p ≠ none ∨ d.Blocked p.dropLast

def Reported (c : Copies B) (rel : PyStr) : Prop := rel ∈ c.skipped ∨ .restoreCopy rel ∈ c.warnings

/-- Whatever changes after the checkpoint, the copies apart, a restore brings back every untracked
file or reports that its place is taken, and overwrites no file. -/
def Workspace.RestoresAll (w : Workspace B) : Prop :=
  ∀ d : Disk B, (∀ q, w.dir <+: q → d.node q = w.created.2.node q) →
    (∀ f ∈ w.untracked, (w.restored d).disk.bytes (w.cwd++f) = w.disk.bytes (w.cwd++f) ∨
      Taken d (w.cwd++f) ∧ Reported (w.restored d) (pathName f)) ∧
    ∀ p b, d.bytes p = some b → (w.restored d).disk.bytes p = some b

section Plain

variable {d e u : Disk B} {p q src dst : Rel} {b : B}

theorem resolve_of_parent {cur rest : Rel}
    (h : rest = [] ∨ d.node (cur++rest).dropLast = some .dir) :
    d.resolve cur (rest.map some) = some (cur++rest) := by
  induction rest generalizing cur with
  | nil => rw [List.append_nil]; rfl
  | cons n rest ih =>
    have hdir := h.resolve_left (List.cons_ne_nil n rest)
    have hcur : d.isDir cur = true := by
      rw [isDir_iff]
      cases rest with
      | nil => rwa [List.dropLast_concat] at hdir
      | cons m rest =>
        rw [List.dropLast_append_of_ne_nil (List.cons_ne_nil n _)] at hdir
        have hne : (n::m::rest).dropLast ≠ [] := List.cons_ne_nil n _
        exact d.ancestor_dir hne (by rw [hdir]; simp)
    rw [List.map_cons,resolve,if_pos hcur,walk]
    have hassoc : cur++[n]++rest = cur++n::rest := by simp
    rw [← hassoc] at hdir ⊢
    exact ih (.inr hdir)

theorem node_dropLast (hp : p ≠ []) (h : d.node p ≠ none) : d.node p.dropLast = some .dir := by
  rw [← List.dropLast_append_getLast hp] at h
  exact d.parent_dir h

theorem resolve_of_node (h : d.node p ≠ none) : d.resolve [] (p.map some) = some p := by
  have hparent : p = [] ∨ d.node ([]++p).dropLast = some .dir := by
    by_cases hp : p = []
    · exact .inl hp
    · exact .inr (node_dropLast hp h)
  exact resolve_of_parent hparent

theorem existsAt_map_some (d : Disk B) (p : Rel) :
    existsAt d (p.map some) = (d.node p).isSome := by
  rw [existsAt]
  by_cases h : d.node p = none
  · cases hr : d.resolve [] (p.map some) with
    | none => rw [h]; rfl
    | some q =>
      have hq := resolve_eq_lexical hr
      rw [lexical_map_some,List.nil_append] at hq
      rw [hq]
      rfl
  · rw [resolve_of_node h]
    rfl

theorem mkdirsRaw_map_some (d : Disk B) (cur rest : Rel) :
    d.mkdirsRaw cur (rest.map some) = (d.mkdirs cur rest).map fun e => (e,cur++rest) := by
  induction rest generalizing d cur with
  | nil => simp [mkdirsRaw,mkdirs]
  | cons n rest ih =>
    rw [List.map_cons,mkdirsRaw,mkdirs,walk,Option.map_bind]
    refine Option.bind_congr fun e _ => ?_
    rw [ih,Function.comp_apply,List.append_assoc,List.singleton_append]

theorem joinStr_pathName {base f : Rel} (h : f ≠ [] ∧ ∀ n ∈ f, NamesEntry n) :
    joinStr (base.map some) (pathName f) = (base++f).map some := by
  rw [joinStr,pathName,not_isAbsolute_of_head h.2,pureParts_intercalate h.1 h.2,List.map_append]
  rfl

theorem copyTo_plain (hsrc : d.bytes src = some b) (hne : src ≠ dst)
    (hfree : ¬d.Blocked dst.dropLast) (hdst : d.isDir dst = false) :
    ∃ u, copyTo d (src.map some) (dst.map some) = (u,true) ∧ u.node dst = some (.file b) ∧
      ∀ q, q ≠ dst → u.node q = d.node q ∨
        d.node q = none ∧ u.node q = some .dir ∧ q <+: dst.dropLast := by
  have hroot : dst ≠ [] := by
    rintro rfl
    rw [isDir,node_root] at hdst
    cases hdst
  obtain ⟨e,he⟩ := Option.ne_none_iff_exists'.mp fun hnone => hfree (mkdirs_eq_none_iff.mp hnone)
  have hnode := node_mkdirs he
  have hdir : e.node dst.dropLast = some .dir := by
    have hd := isDir_of_mkdirs (by rw [node_root]) he
    rwa [List.nil_append] at hd
  have hsrc' : e.node src = some (.file b) := by
    rw [node_mkdirs_of_ne_none he (by rw [bytes_eq_some.mp hsrc]; simp)]
    exact bytes_eq_some.mp hsrc
  have hdst' : e.isDir dst = false := by
    rwa [isDir_eq_of_node (node_mkdirs_dropLast he)]
  obtain ⟨u,hu⟩ := writeFile_isSome hroot hdir hdst' b
  have hparent : dst = [] ∨ e.node ([]++dst).dropLast = some .dir := .inr hdir
  have hres : e.resolve [] (dst.map some) = some dst := resolve_of_parent hparent
  refine ⟨u,?_,?_,fun q hq => ?_⟩
  · rw [copyTo,← List.map_dropLast,mkdirsRaw_map_some,he]
    dsimp only [Option.map_some]
    rw [resolve_of_node (by rw [hsrc']; simp),hres]
    dsimp only
    rw [if_neg hne,copy2,bytes_eq_some.mpr hsrc']
    dsimp only
    rw [hdst',if_neg Bool.false_ne_true,hu]
  · rw [node_writeFile hu,if_pos rfl]
  · rw [node_writeFile hu,if_neg hq]
    exact hnode q

theorem copyTo_blocked (h : d.Blocked dst.dropLast) (src : RawPath PyStr) :
    copyTo d src (dst.map some) = (d,false) := by
  rw [copyTo,← List.map_dropLast,mkdirsRaw_map_some,mkdirs_eq_none_iff.mpr h]
  rfl

end Plain

namespace Workspace

variable {w : Workspace B} {f g q r : Rel} {d : Disk B} {fs : List Rel} {c : Copies B}

theorem bytes_isSome (hf : f ∈ w.untracked) : ∃ b, w.disk.bytes (w.cwd++f) = some b :=
  isFile_iff_bytes.mp (w.isFile f hf)

theorem eq_of_prefix (hf : f ∈ w.untracked) (hg : g ∈ w.untracked) (h : f <+: g) : f = g := by
  obtain ⟨r,rfl⟩ := h
  obtain ⟨b,hb⟩ := bytes_isSome hf
  obtain ⟨b',hb'⟩ := bytes_isSome hg
  cases r with
  | nil => rw [List.append_nil]
  | cons n r =>
    have hnone := w.disk.none_below_file hb (List.cons_ne_nil n r)
    rw [List.append_assoc] at hnone
    cases hnone.symm.trans (bytes_eq_some.mp hb')

theorem not_prefix_dropLast (hf : f ∈ w.untracked) (hg : g ∈ w.untracked) (base : Rel) :
    ¬base++f <+: (base++g).dropLast := by
  intro h
  have hfg := eq_of_prefix hf hg
    ((List.prefix_append_right_inj base).mp (h.trans (List.dropLast_prefix _)))
  have hlen := h.length_le
  have hpos := List.length_pos_of_ne_nil (w.named g hg).1
  rw [List.length_dropLast,List.length_append,List.length_append,hfg] at hlen
  omega

theorem node_below (w : Workspace B) (r : Rel) : w.disk.node (w.dir++r) = none := by
  by_contra h
  cases r with
  | nil =>
    rw [List.append_nil] at h
    exact h w.fresh
  | cons n r => cases w.fresh.symm.trans (w.disk.ancestor_dir (List.cons_ne_nil n r) h)

theorem not_dir_prefix (hf : f ∈ w.untracked) : ¬w.dir <+: w.cwd++f := by
  rintro ⟨r,hr⟩
  obtain ⟨b,hb⟩ := bytes_isSome hf
  rw [← hr,bytes_eq_some,w.node_below] at hb
  cases hb

/-- The copies that have been made of the files `fs`, and nothing else but directories on the
way to copies. -/
structure Copied (w : Workspace B) (fs : List Rel) (d : Disk B) : Prop where
  copied : ∀ f ∈ fs, d.node (w.dir++f) = w.disk.node (w.cwd++f)
  others : ∀ q, (∀ f ∈ fs, q ≠ w.dir++f) → d.node q = w.disk.node q ∨
    w.disk.node q = none ∧ d.node q = some .dir ∧ ∃ f ∈ w.untracked, q <+: (w.dir++f).dropLast

theorem copied_mkdirs (h : w.untracked ≠ []) (hd : w.disk.mkdirs [] w.dir = some d) :
    w.Copied [] d := by
  refine ⟨fun f hf => absurd hf List.not_mem_nil,fun q _ => ?_⟩
  rcases node_mkdirs hd q with hs | ⟨hnone,hdir,hpre⟩
  · exact .inl hs
  · obtain ⟨f,fs,hfs⟩ := List.exists_cons_of_ne_nil h
    have hf : f ∈ w.untracked := by rw [hfs]; exact List.mem_cons_self
    refine .inr ⟨hnone,hdir,f,hf,hpre.trans ?_⟩
    rw [List.nil_append,List.dropLast_append_of_ne_nil (w.named f hf).1]
    exact List.prefix_append _ _

theorem Copied.copyTo (h : w.Copied fs d) (hfs : fs ⊆ w.untracked) (hf : f ∈ w.untracked) :
    ∃ u, copyTo d ((w.cwd++f).map some) ((w.dir++f).map some) = (u,true) ∧
      w.Copied (fs++[f]) u := by
  obtain ⟨b,hb⟩ := bytes_isSome hf
  have hnever : ∀ g ∈ fs, w.cwd++f ≠ w.dir++g := by
    intro g _ he
    exact w.not_dir_prefix hf ⟨g,he.symm⟩
  have hsrc : d.bytes (w.cwd++f) = some b := by
    rcases h.others _ hnever with hs | ⟨hnone,-⟩
    · rwa [bytes_eq_of_node hs]
    · rw [bytes_eq_some,hnone] at hb
      cases hb
  have hfree : ¬d.Blocked (w.dir++f).dropLast := by
    rw [blocked_iff]
    rintro ⟨q,x,hq,hx⟩
    by_cases hcopy : ∃ g ∈ fs, q = w.dir++g
    · obtain ⟨g,hg,rfl⟩ := hcopy
      exact w.not_prefix_dropLast (hfs hg) hf w.dir hq
    · rcases h.others q fun g hg he => hcopy ⟨g,hg,he⟩ with hs | ⟨-,hdir,-⟩
      · rw [bytes_eq_of_node hs] at hx
        rcases List.prefix_or_prefix_of_prefix (hq.trans (List.dropLast_prefix _))
          (List.prefix_append w.dir f) with hpre | ⟨r,rfl⟩
        · exact w.room (blocked_iff.mpr ⟨q,x,hpre,hx⟩)
        · rw [bytes_eq_some,w.node_below] at hx
          cases hx
      · rw [bytes_eq_some,hdir] at hx
        cases hx
  have hdst : d.isDir (w.dir++f) = false := by
    by_cases hcopy : ∃ g ∈ fs, w.dir++f = w.dir++g
    · obtain ⟨g,hg,he⟩ := hcopy
      rw [← List.append_cancel_left he] at hg
      rw [isDir,h.copied f hg,bytes_eq_some.mp hb]
    · rcases h.others _ fun g hg he => hcopy ⟨g,hg,he⟩ with hs | ⟨-,-,g,hg,hpre⟩
      · rw [isDir,hs,w.node_below]
      · exact absurd hpre (w.not_prefix_dropLast hf hg w.dir)
  have hne : w.cwd++f ≠ w.dir++f := fun he => w.not_dir_prefix hf ⟨f,he.symm⟩
  obtain ⟨u,hcopy,hnode,hothers⟩ := copyTo_plain hsrc hne hfree hdst
  refine ⟨u,hcopy,fun g hg => ?_,fun q hq => ?_⟩
  · by_cases hgf : w.dir++g = w.dir++f
    · rw [List.append_cancel_left hgf,hnode,bytes_eq_some.mp hb]
    · have hgs : g ∈ fs := (List.mem_append.mp hg).resolve_right fun he =>
        hgf (by rw [List.mem_singleton.mp he])
      rw [← h.copied g hgs]
      rcases hothers _ hgf with hs | ⟨hnone,-⟩
      · exact hs
      · obtain ⟨x,hx⟩ := bytes_isSome (hfs hgs)
        rw [h.copied g hgs,bytes_eq_some.mp hx] at hnone
        cases hnone
  · have hqf : q ≠ w.dir++f := hq f (by simp)
    rcases h.others q fun g hg => hq g (List.mem_append_left _ hg) with hs | ⟨hnone,hdir,hex⟩
    · rcases hothers q hqf with hs' | ⟨hnone',hdir',hpre⟩
      · exact .inl (hs'.trans hs)
      · exact .inr ⟨hs ▸ hnone',hdir',f,hf,hpre⟩
    · rcases hothers q hqf with hs' | ⟨hnone',-⟩
      · exact .inr ⟨hnone,hs'.trans hdir,hex⟩
      · rw [hdir] at hnone'
        cases hnone'

theorem foldl_copyOne (h : w.Copied fs c.disk) (hfs : fs ⊆ w.untracked) {gs : List Rel}
    (hgs : gs ⊆ w.untracked) :
    w.Copied (fs++gs) ((gs.map pathName).foldl (copyOne w.cwd w.dir) c).disk ∧
      ((gs.map pathName).foldl (copyOne w.cwd w.dir) c).copied = c.copied++gs.map pathName := by
  induction gs generalizing fs c with
  | nil => exact ⟨by rwa [List.append_nil],by rw [List.map_nil,List.append_nil]; rfl⟩
  | cons f gs ih =>
    have hf : f ∈ w.untracked := hgs List.mem_cons_self
    obtain ⟨u,hcopy,hu⟩ := h.copyTo hfs hf
    have hone : copyOne w.cwd w.dir c (pathName f) =
        {c with disk := u, copied := c.copied++[pathName f]} := by
      rw [copyOne,joinStr_pathName (w.named f hf),joinStr_pathName (w.named f hf),hcopy]
      rfl
    have hnext : w.Copied (fs++[f]) (copyOne w.cwd w.dir c (pathName f)).disk := by
      rw [hone]
      exact hu
    have hsub : fs++[f] ⊆ w.untracked := List.append_subset.mpr
      ⟨hfs,fun g hg => List.mem_singleton.mp hg ▸ hf⟩
    obtain ⟨hcopied,hlist⟩ := ih hnext hsub fun g hg => hgs (List.mem_cons_of_mem f hg)
    rw [List.map_cons,List.foldl_cons]
    refine ⟨?_,?_⟩
    · rwa [List.append_assoc] at hcopied
    · rw [hlist,hone,List.append_assoc]
      rfl

/-- The files `fs` are back or their places are taken, and beside them there are only new
directories on the way to files. -/
structure Restored (w : Workspace B) (d : Disk B) (fs : List Rel) (c : Copies B) : Prop where
  outcome : ∀ f ∈ fs, c.disk.node (w.cwd++f) = w.disk.node (w.cwd++f) ∨
    Taken d (w.cwd++f) ∧ Reported c (pathName f)
  others : ∀ q, c.disk.node q = d.node q ∨ d.node q = none ∧
    (c.disk.node q = some .dir ∧ (∃ f ∈ w.untracked, q <+: (w.cwd++f).dropLast) ∨
      ∃ f ∈ fs, q = w.cwd++f ∧ c.disk.node q = w.disk.node q)

theorem Restored.restoreOne (h : w.Restored d fs c) (hfs : fs ⊆ w.untracked)
    (hf : f ∈ w.untracked) (hsrc : d.node (w.dir++f) = w.disk.node (w.cwd++f)) :
    w.Restored d (fs++[f]) (restoreOne w.cwd w.dir c (pathName f)) := by
  obtain ⟨b,hb⟩ := bytes_isSome hf
  have hfile : c.disk.node (w.dir++f) = some (.file b) := by
    rcases h.others (w.dir++f) with hs | ⟨hnone,-⟩
    · rw [hs,hsrc,bytes_eq_some.mp hb]
    · rw [hsrc,bytes_eq_some.mp hb] at hnone
      cases hnone
  have hreported : ∀ {c' : Copies B}, c'.disk = c.disk → Reported c' (pathName f) →
      (∀ rel, Reported c rel → Reported c' rel) →
      (c.disk.node (w.cwd++f) = w.disk.node (w.cwd++f) ∨ Taken d (w.cwd++f)) →
      w.Restored d (fs++[f]) c' := by
    intro c' hdisk hrep hmono hplace
    refine ⟨fun g hg => ?_,fun q => ?_⟩
    · rw [hdisk]
      rcases List.mem_append.mp hg with hg | hg
      · exact (h.outcome g hg).imp_right fun ht => ⟨ht.1,hmono _ ht.2⟩
      · rw [List.mem_singleton.mp hg]
        exact hplace.imp_right fun ht => ⟨ht,hrep⟩
    · rw [hdisk]
      rcases h.others q with hs | ⟨hnone,hdir | ⟨g,hg,hq⟩⟩
      · exact .inl hs
      · exact .inr ⟨hnone,.inl hdir⟩
      · exact .inr ⟨hnone,.inr ⟨g,List.mem_append_left _ hg,hq⟩⟩
  rw [Checkpoints.restoreOne,joinStr_pathName (w.named f hf),joinStr_pathName (w.named f hf)]
  dsimp only
  rw [existsAt_map_some,hfile,if_neg (by simp),existsAt_map_some]
  by_cases hnode : c.disk.node (w.cwd++f) = none
  · rw [hnode,if_neg (by simp)]
    have hnode' : d.node (w.cwd++f) = none := by
      rcases h.others (w.cwd++f) with hs | ⟨hnone,-⟩
      · rwa [← hs]
      · exact hnone
    by_cases hblocked : c.disk.Blocked (w.cwd++f).dropLast
    · rw [copyTo_blocked hblocked,if_neg Bool.false_ne_true]
      refine hreported rfl (.inr (List.mem_append_right _ (List.mem_singleton_self _))) ?_ ?_
      · rintro rel (hs | hw)
        · exact .inl hs
        · exact .inr (List.mem_append_left _ hw)
      · -- the file in the way was there before the restore
        refine .inr (.inr ?_)
        obtain ⟨q,x,hq,hx⟩ := blocked_iff.mp hblocked
        refine blocked_iff.mpr ⟨q,x,hq,?_⟩
        rcases h.others q with hs | ⟨-,⟨hdir,-⟩ | ⟨g,hg,rfl,-⟩⟩
        · rwa [← bytes_eq_of_node hs]
        · rw [bytes_eq_some,hdir] at hx
          cases hx
        · exact absurd hq (w.not_prefix_dropLast (hfs hg) hf w.cwd)
    · have hne : w.dir++f ≠ w.cwd++f := fun he => w.not_dir_prefix hf ⟨f,he⟩
      obtain ⟨u,hcopy,hu,hothers⟩ := copyTo_plain (bytes_eq_some.mpr hfile) hne hblocked
        (isDir_of_none hnode)
      rw [hcopy,if_pos rfl]
      refine ⟨fun g hg => ?_,fun q => ?_⟩
      · by_cases hgf : w.cwd++g = w.cwd++f
        · rw [hgf]
          exact .inl (hu.trans (bytes_eq_some.mp hb).symm)
        · have hgs : g ∈ fs := (List.mem_append.mp hg).resolve_right fun he =>
            hgf (by rw [List.mem_singleton.mp he])
          refine (h.outcome g hgs).imp_left fun hs => ?_
          obtain ⟨x,hx⟩ := bytes_isSome (hfs hgs)
          rcases hothers _ hgf with hs' | ⟨hnone,-⟩
          · exact hs'.trans hs
          · rw [hs,bytes_eq_some.mp hx] at hnone
            cases hnone
      · by_cases hqf : q = w.cwd++f
        · subst hqf
          exact .inr ⟨hnode',.inr ⟨f,by simp,rfl,hu.trans (bytes_eq_some.mp hb).symm⟩⟩
        · rcases hothers q hqf with hs | ⟨hnone,hdir,hpre⟩
          · rcases h.others q with hs' | ⟨hnone,⟨hdir,hex⟩ | ⟨g,hg,hq,hval⟩⟩
            · exact .inl (hs.trans hs')
            · exact .inr ⟨hnone,.inl ⟨hs.trans hdir,hex⟩⟩
            · exact .inr ⟨hnone,.inr ⟨g,List.mem_append_left _ hg,hq,hs.trans hval⟩⟩
          · have hnone' : d.node q = none := by
              rcases h.others q with hs | ⟨hnone',-⟩
              · rwa [← hs]
              · exact hnone'
            exact .inr ⟨hnone',.inl ⟨hdir,f,hf,hpre⟩⟩
  · rw [if_pos (Option.isSome_iff_ne_none.mpr hnode)]
    refine hreported rfl (.inl (List.mem_append_right _ (List.mem_singleton_self _))) ?_ ?_
    · rintro rel (hs | hw)
      · exact .inl (List.mem_append_left _ hs)
      · exact .inr hw
    · rcases h.others (w.cwd++f) with hs | ⟨-,⟨-,g,hg,hpre⟩ | ⟨g,hg,-,hval⟩⟩
      · exact .inr (.inl (hs ▸ hnode))
      · exact absurd hpre (w.not_prefix_dropLast hf hg w.cwd)
      · exact .inl hval

theorem foldl_restoreOne (h : w.Restored d fs c) (hfs : fs ⊆ w.untracked)
    (hsrc : ∀ f ∈ w.untracked, d.node (w.dir++f) = w.disk.node (w.cwd++f)) {gs : List Rel}
    (hgs : gs ⊆ w.untracked) :
    w.Restored d (fs++gs) ((gs.map pathName).foldl (Checkpoints.restoreOne w.cwd w.dir) c) := by
  induction gs generalizing fs c with
  | nil => rwa [List.append_nil]
  | cons f gs ih =>
    have hf : f ∈ w.untracked := hgs List.mem_cons_self
    have hsub : fs++[f] ⊆ w.untracked := List.append_subset.mpr
      ⟨hfs,fun g hg => List.mem_singleton.mp hg ▸ hf⟩
    have hrest := ih (h.restoreOne hfs hf (hsrc f hf)) hsub
      fun g hg => hgs (List.mem_cons_of_mem f hg)
    rwa [List.append_assoc] at hrest

theorem untrackedFiles_of_plain (h : ∀ f ∈ w.untracked, PlainName w.quotePath (pathName f)) :
    untrackedFiles (some w.lsFiles) = w.untracked.map pathName := by
  have hprinted : (w.untracked.map fun f => printed w.quotePath (pathName f)) =
      w.untracked.map pathName := by
    refine List.map_congr_left fun f hf => ?_
    rw [printed,if_neg (by rw [(h f hf).1]; exact Bool.false_ne_true)]
  have hall : ∀ line ∈ w.untracked.map pathName, Unbroken line ∧ encodes line = true ∧
      isBlank line = false := by
    intro line hline
    obtain ⟨f,hf,rfl⟩ := List.mem_map.mp hline
    exact (h f hf).2
  rw [untrackedFiles,lsFiles,hprinted,w.decoder.decode_of_encodes,
    splitlines_unlines fun line hline => (hall line hline).1]
  · refine List.filter_eq_self.mpr fun line hline => ?_
    rw [(hall line hline).2.2]
    rfl
  · exact encodes_unlines fun line hline => (hall line hline).2.1

theorem restoresAll_of_plain (h : ∀ f ∈ w.untracked, PlainName w.quotePath (pathName f)) :
    w.RestoresAll := by
  intro d hd
  have hfiles := untrackedFiles_of_plain h
  by_cases hempty : w.untracked = []
  · have hcreated : w.created = (⟨[],false⟩,w.disk) := by
      rw [created,create,hfiles,hempty]
      rfl
    refine ⟨fun f hf => ?_,fun p b hb => ?_⟩
    · rw [hempty] at hf
      cases hf
    · rwa [restored,hcreated]
  · have hne : w.untracked.map pathName ≠ [] := by simpa using hempty
    obtain ⟨e,he⟩ := Option.ne_none_iff_exists'.mp fun hnone =>
      w.room (mkdirs_eq_none_iff.mp hnone)
    obtain ⟨hcopied,hlist⟩ := foldl_copyOne (c := ⟨e,[],[],[]⟩) (copied_mkdirs hempty he)
      (List.nil_subset _) (List.Subset.refl w.untracked)
    have hcreated : w.created = (⟨w.untracked.map pathName,true⟩,
        ((w.untracked.map pathName).foldl (copyOne w.cwd w.dir) ⟨e,[],[],[]⟩).disk) := by
      rw [created,create,hfiles,if_neg hne,copyUntracked,he]
      dsimp only
      rw [hlist,List.nil_append,List.isEmpty_eq_false_iff.mpr hne]
      rfl
    have hsrc : ∀ f ∈ w.untracked, d.node (w.dir++f) = w.disk.node (w.cwd++f) := by
      intro f hf
      rw [hd _ (List.prefix_append _ _),hcreated]
      exact hcopied.copied f hf
    have hrestored : w.restored d =
        (w.untracked.map pathName).foldl (Checkpoints.restoreOne w.cwd w.dir) ⟨d,[],[],[]⟩ := by
      rw [restored,hcreated,restore,if_pos ⟨rfl,hne⟩]
      rfl
    have hstart : w.Restored d [] ⟨d,[],[],[]⟩ :=
      ⟨fun f hf => absurd hf List.not_mem_nil,fun q => .inl rfl⟩
    have hall := foldl_restoreOne hstart (List.nil_subset _) hsrc (List.Subset.refl w.untracked)
    rw [hrestored]
    refine ⟨fun f hf => (hall.outcome f hf).imp_left bytes_eq_of_node,fun p b hb => ?_⟩
    rcases hall.others p with hs | ⟨hnone,-⟩
    · rwa [bytes_eq_of_node hs]
    · rw [bytes_eq_some,hnone] at hb
      cases hb

end Workspace

section Lines

variable {d u : Disk B} {src dst : RawPath PyStr} {p q : Rel} {line : PyStr}

/-- Where a copy can write: at the place it is given, or in it when that is a directory. -/
def Writes (d : Disk B) (src dst : RawPath PyStr) (q : Rel) : Prop :=
  q = lexical [] dst ∨ (∃ b, d.bytes (lexical [] src) = some b) ∧
    ∃ n, (lexical [] src).getLast? = some n ∧ q = lexical [] dst++[n]

theorem copy2_node (d : Disk B) (p p' q : Rel) :
    (diskOf (copy2 d p p' .done)).node q = d.node q ∨ d.node q ≠ some .dir ∧
      (∃ b, d.bytes p = some b) ∧ (q = p' ∨ ∃ n, p.getLast? = some n ∧ q = p'++[n]) := by
  rw [copy2]
  cases hb : d.bytes p with
  | none => exact .inl rfl
  | some b =>
    dsimp only
    set target := if d.isDir p' then p'++p.getLast?.toList else p' with htarget
    have hplace : target = p' ∨ ∃ n, p.getLast? = some n ∧ target = p'++[n] := by
      rw [htarget]
      split
      · cases hlast : p.getLast? with
        | none => exact .inl (List.append_nil p')
        | some n => exact .inr ⟨n,rfl,rfl⟩
      · exact .inl rfl
    cases hw : d.writeFile target b with
    | none => exact .inl rfl
    | some u =>
      change u.node q = _ ∨ _
      by_cases hq : q = target
      · rw [hq]
        exact .inr ⟨not_dir_of_writeFile hw,⟨b,rfl⟩,hplace⟩
      · rw [node_writeFile hw,if_neg hq]
        exact .inl rfl

theorem copyTo_node (d : Disk B) (src dst : RawPath PyStr) (q : Rel) :
    (copyTo d src dst).1.node q = d.node q ∨
      d.node q = none ∧ (copyTo d src dst).1.node q = some .dir ∨
      Writes d src dst q ∧ d.node q ≠ some .dir := by
  rw [copyTo]
  split
  · exact .inl rfl
  · next e path hmk =>
    have hkept := (Kept.of_mkdirsRaw (fun _ => False) hmk).1
    have he : ∀ q, e.node q = d.node q ∨ d.node q = none ∧ e.node q = some .dir :=
      fun q => hkept q not_false
    split
    · next p p' hp hp' =>
      split
      · exact (he q).imp_right .inl
      · have hdisk : (match copy2 e p p' .done with
            | .ok u => (u,true)
            | .error u => (u,false)).1 = diskOf (copy2 e p p' .done) := by
          cases copy2 e p p' .done <;> rfl
        rw [hdisk]
        rcases copy2_node e p p' q with hs | ⟨hdir,⟨b,hb⟩,hplace⟩
        · rw [hs]
          exact (he q).imp_right .inl
        · have hbytes : d.bytes p = some b := by
            rcases he p with hs | ⟨-,hs⟩
            · rwa [← bytes_eq_of_node hs]
            · rw [bytes_eq_some,hs] at hb
              cases hb
          have hnotdir : d.node q ≠ some .dir := by
            rcases he q with hs | ⟨hnone,-⟩
            · rwa [← hs]
            · rw [hnone]
              exact Option.some_ne_none _ ∘ Eq.symm
          refine .inr (.inr ⟨?_,hnotdir⟩)
          rw [resolve_eq_lexical hp] at hbytes hplace
          rw [resolve_eq_lexical hp'] at hplace
          exact hplace.imp_right fun hn => ⟨⟨b,hbytes⟩,hn⟩
    · exact (he q).imp_right .inl

theorem copyTo_dir (h : d.node q = some .dir) : (copyTo d src dst).1.node q = some .dir := by
  rcases copyTo_node d src dst q with hs | ⟨hnone,-⟩ | ⟨-,hdir⟩
  · exact hs.trans h
  · cases hnone.symm.trans h
  · exact absurd h hdir

theorem disk_copyOne (cwd dir : Rel) (c : Copies B) (rel : PyStr) : (copyOne cwd dir c rel).disk =
    (copyTo c.disk (joinStr (cwd.map some) rel) (joinStr (dir.map some) rel)).1 := by
  rw [copyOne]
  split <;> rfl

theorem foldl_copyOne_dir (cwd dir : Rel) (files : List PyStr) {c : Copies B}
    (h : c.disk.node q = some .dir) :
    (files.foldl (copyOne cwd dir) c).disk.node q = some .dir := by
  induction files generalizing c with
  | nil => exact h
  | cons rel files ih =>
    refine ih ?_
    rw [disk_copyOne]
    exact copyTo_dir h

/-- The line is read as the path of a file, or copies into a directory under its name. -/
def Leads (cwd dir : Rel) (line : PyStr) (f : Rel) : Prop :=
  lexical [] (joinStr (cwd.map some) line) = cwd++f ∨
    ∃ n, (lexical [] (joinStr (dir.map some) line)).getLast? = some n ∧
      lexical [] (joinStr (cwd.map some) line)++[n] = cwd++f ∧
      ¬lexical [] (joinStr (dir.map some) line) <+: dir

theorem restoreOne_bytes {cwd dir f : Rel} {c : Copies B} (hdir : c.disk.node dir = some .dir)
    (hnone : c.disk.bytes (cwd++f) = none) (hline : ¬Leads cwd dir line f) :
    (restoreOne cwd dir c line).disk.node dir = some .dir ∧
      (restoreOne cwd dir c line).disk.bytes (cwd++f) = none := by
  rw [restoreOne]
  dsimp only
  split
  · exact ⟨hdir,hnone⟩
  · split
    · exact ⟨hdir,hnone⟩
    · have hcopy : (copyTo c.disk (joinStr (dir.map some) line)
          (joinStr (cwd.map some) line)).1.node dir = some .dir ∧
          (copyTo c.disk (joinStr (dir.map some) line)
            (joinStr (cwd.map some) line)).1.bytes (cwd++f) = none := by
        refine ⟨copyTo_dir hdir,?_⟩
        rcases copyTo_node c.disk (joinStr (dir.map some) line) (joinStr (cwd.map some) line)
          (cwd++f) with hs | ⟨-,hs⟩ | ⟨hq | ⟨⟨b,hb⟩,n,hn,hq⟩,-⟩
        · rwa [bytes_eq_of_node hs]
        · rw [Tree.bytes,hs]
          rfl
        · exact absurd (.inl hq.symm) hline
        · refine absurd (.inr ⟨n,hn,hq.symm,?_⟩) hline
          rintro ⟨r,hr⟩
          have hfile := bytes_eq_some.mp hb
          cases r with
          | nil =>
            rw [List.append_nil] at hr
            rw [hr,hdir] at hfile
            cases hfile
          | cons m r =>
            have hbelow := c.disk.none_below_file hb (List.cons_ne_nil m r)
            rw [hr,hdir] at hbelow
            cases hbelow
      split <;> exact hcopy

theorem foldl_restoreOne_bytes {cwd dir f : Rel} (files : List PyStr) {c : Copies B}
    (hdir : c.disk.node dir = some .dir) (hnone : c.disk.bytes (cwd++f) = none)
    (hlines : ∀ line ∈ files, ¬Leads cwd dir line f) :
    (files.foldl (restoreOne cwd dir) c).disk.bytes (cwd++f) = none := by
  induction files generalizing c with
  | nil => exact hnone
  | cons line files ih =>
    obtain ⟨hdir',hnone'⟩ := restoreOne_bytes hdir hnone (hlines line List.mem_cons_self)
    exact ih hdir' hnone' fun l hl => hlines l (List.mem_cons_of_mem _ hl)

theorem lexical_shape (cur : Rel) (raw : RawPath PyStr) :
    ∃ k ys, lexical cur raw = cur.take k++ys ∧ ∀ y ∈ ys, some y ∈ raw := by
  induction raw generalizing cur with
  | nil =>
    exact ⟨cur.length,[],by rw [List.take_length,List.append_nil]; rfl,
      fun y hy => absurd hy List.not_mem_nil⟩
  | cons c raw ih =>
    obtain ⟨k,ys,heq,hys⟩ := ih (walk cur c)
    cases c with
    | none =>
      refine ⟨min k (cur.length-1),ys,?_,fun y hy => List.mem_cons_of_mem _ (hys y hy)⟩
      rw [← List.take_take,← List.dropLast_eq_take]
      exact heq
    | some n =>
      refine ⟨k,[n].take (k-cur.length)++ys,?_,fun y hy => ?_⟩
      · rw [← List.append_assoc,← List.take_append]
        exact heq
      · rcases List.mem_append.mp hy with hy | hy
        · rw [List.mem_singleton.mp (List.mem_of_mem_take hy)]
          exact List.mem_cons_self
        · exact List.mem_cons_of_mem _ (hys y hy)

theorem joinStr_shape (base : Rel) (line : PyStr) :
    ∃ k ys, lexical [] (joinStr (base.map some) line) = base.take k++ys ∧
      ∀ y ∈ ys, some y ∈ pureParts line := by
  rw [joinStr]
  split
  · obtain ⟨k,ys,heq,hys⟩ := lexical_shape [] (pureParts line)
    rw [List.take_nil] at heq
    exact ⟨0,ys,by rw [heq,List.take_zero],hys⟩
  · have happend : lexical [] (base.map some++pureParts line) = lexical base (pureParts line) := by
      rw [lexical,List.foldl_append]
      have hbase := lexical_map_some [] base
      rw [List.nil_append,lexical] at hbase
      rw [hbase]
      rfl
    rw [happend]
    exact lexical_shape base (pureParts line)

theorem Leads.mem_parts {cwd dir f : Rel} (h : Leads cwd dir line f) :
    ∀ n ∈ f, some n ∈ pureParts line := by
  obtain ⟨k,ys,heq,hys⟩ := joinStr_shape cwd line
  have hmem : ∀ {more : Rel}, (cwd.take k++ys)++more = cwd++f → ∀ n ∈ f, n ∈ ys++more := by
    intro more hmore n hn
    have hdrop := congrArg (List.drop cwd.length) hmore
    rw [List.drop_left,List.append_assoc,List.drop_append,
      List.drop_eq_nil_of_le (List.length_take_le' _ _),List.nil_append] at hdrop
    rw [← hdrop] at hn
    exact List.mem_of_mem_drop hn
  rcases h with h | ⟨last,hlast,h,hdir⟩
  · intro n hn
    rw [heq] at h
    have hin := hmem (by rw [List.append_nil,h]) n hn
    rw [List.append_nil] at hin
    exact hys n hin
  · intro n hn
    rw [heq] at h
    rcases List.mem_append.mp (hmem h n hn) with hin | hin
    · exact hys n hin
    · rw [List.mem_singleton.mp hin]
      obtain ⟨k',zs,heq',hzs⟩ := joinStr_shape dir line
      rw [heq'] at hlast hdir
      by_cases hnil : zs = []
      · rw [hnil,List.append_nil] at hdir
        exact absurd (List.take_prefix _ _) hdir
      · rw [List.getLast?_append_of_ne_nil _ hnil] at hlast
        exact hzs last (List.mem_of_getLast? hlast)

end Lines

namespace Workspace

variable {w : Workspace B} {f g q : Rel} {line : PyStr}

theorem created_dir (h : w.disk.node q = some .dir) : w.created.2.node q = some .dir := by
  rw [created,create]
  dsimp only
  split
  · exact h
  · obtain ⟨e,he⟩ := Option.ne_none_iff_exists'.mp fun hnone =>
      w.room (mkdirs_eq_none_iff.mp hnone)
    dsimp only
    rw [copyUntracked,he]
    refine foldl_copyOne_dir w.cwd w.dir _ ?_
    exact (node_mkdirs_of_ne_none he (by rw [h]; simp)).trans h

theorem created_place (h : w.created.1.untrackedFiles ≠ []) :
    w.created.2.node w.dir = some .dir := by
  rw [created,create] at h ⊢
  dsimp only at h ⊢
  split
  · next hempty =>
    rw [if_pos hempty] at h
    exact absurd hempty h
  · obtain ⟨e,he⟩ := Option.ne_none_iff_exists'.mp fun hnone =>
      w.room (mkdirs_eq_none_iff.mp hnone)
    dsimp only
    rw [copyUntracked,he]
    refine foldl_copyOne_dir w.cwd w.dir _ ?_
    have hdir := isDir_of_mkdirs (by rw [node_root]) he
    rwa [List.nil_append] at hdir

theorem created_files (w : Workspace B) :
    w.created.1.untrackedFiles = untrackedFiles (some w.lsFiles) := by
  rw [created,create]
  split <;> rfl

theorem exists_leads (h : w.RestoresAll) (hf : f ∈ w.untracked) :
    ∃ line ∈ untrackedFiles (some w.lsFiles), Leads w.cwd w.dir line f := by
  by_contra hnone
  have hlines : ∀ line ∈ w.created.1.untrackedFiles, ¬Leads w.cwd w.dir line f := by
    rw [created_files]
    exact fun line hline hlead => hnone ⟨line,hline,hlead⟩
  obtain ⟨b,hb⟩ := bytes_isSome hf
  have hroot : w.cwd++f ≠ [] := fun he => (w.named f hf).1 (List.append_eq_nil_iff.mp he).2
  have hdirRoot : w.dir ≠ [] := by
    intro he
    have hfresh := w.fresh
    rw [he,node_root] at hfresh
    cases hfresh
  have hapart : ∀ q, w.dir <+: q → ¬w.cwd++f <+: q := by
    intro q hdir hfile
    rcases List.prefix_or_prefix_of_prefix hdir hfile with hpre | hpre
    · exact w.not_dir_prefix hf hpre
    · exact w.room (blocked_iff.mpr ⟨_,b,hpre,hb⟩)
  have hnode : ∀ q, q ≠ [] → (w.created.2.rmtree (w.cwd++f)).node q =
      if w.cwd++f <+: q then none else w.created.2.node q := node_rmtree _ _
  obtain ⟨hback,-⟩ := h (w.created.2.rmtree (w.cwd++f)) fun q hq => by
    rw [hnode q (by rintro rfl; exact hdirRoot (List.prefix_nil.mp hq)),if_neg (hapart q hq)]
  have hgone : (w.created.2.rmtree (w.cwd++f)).node (w.cwd++f) = none := by
    rw [hnode _ hroot,if_pos List.prefix_rfl]
  have hbytes : (w.restored (w.created.2.rmtree (w.cwd++f))).disk.bytes (w.cwd++f) = none := by
    have hgone' : (w.created.2.rmtree (w.cwd++f)).bytes (w.cwd++f) = none := by
      rw [Tree.bytes,hgone]
      rfl
    rw [restored,restore]
    split
    · next hhas =>
      refine foldl_restoreOne_bytes _ ?_ hgone' hlines
      change (w.created.2.rmtree (w.cwd++f)).node w.dir = some .dir
      rw [hnode _ hdirRoot,if_neg (hapart _ List.prefix_rfl),created_place hhas.2]
    · exact hgone'
  rcases hback f hf with heq | ⟨hplace | hblocked,-⟩
  · rw [hbytes,hb] at heq
    cases heq
  · exact hplace hgone
  · refine not_blocked_of_dir ?_ hblocked
    by_cases hparent : (w.cwd++f).dropLast = []
    · rw [hparent,node_root]
    · have hlt : ¬w.cwd++f <+: (w.cwd++f).dropLast := by
        intro hpre
        have hlen := hpre.length_le
        have hpos := List.length_pos_of_ne_nil hroot
        rw [List.length_dropLast] at hlen
        omega
      rw [hnode _ hparent,if_neg hlt]
      refine created_dir (node_dropLast hroot ?_)
      rw [bytes_eq_some.mp hb]
      exact Option.some_ne_none _

theorem mem_pathName {x : PyChar} (h : x ∈ pathName f) : x = ch '/' ∨ ∃ n ∈ f, x ∈ n := by
  rw [pathName] at h
  induction f with
  | nil => cases h
  | cons n f ih =>
    cases f with
    | nil =>
      rw [List.intercalate_singleton] at h
      exact .inr ⟨n,List.mem_cons_self,h⟩
    | cons m f =>
      rw [List.intercalate_cons_cons,List.mem_append,List.mem_append] at h
      rcases h with (h | h) | h
      · exact .inr ⟨n,List.mem_cons_self,h⟩
      · exact .inl (List.mem_singleton.mp h)
      · refine (ih h).imp_right fun hex => ?_
        obtain ⟨k,hk,hx⟩ := hex
        exact ⟨k,List.mem_cons_of_mem n hk,hx⟩

theorem Leads.name_subset {cwd dir : Rel} (h : Leads cwd dir line f) {x : PyChar}
    (hx : x ∈ pathName f) : x = ch '/' ∨ x ∈ line := by
  refine (mem_pathName hx).imp_right fun hex => ?_
  obtain ⟨n,hn,hx⟩ := hex
  obtain ⟨piece,hpiece,heq⟩ := List.mem_map.mp (h.mem_parts n hn)
  split at heq
  · cases heq
  · cases heq
    exact subset_of_mem_splitOn (List.mem_filter.mp hpiece).1 hx

theorem encodes_of_subset {s t : PyStr} (h : encodes t = true) (hst : ∀ x ∈ s, x = ch '/' ∨ x ∈ t) :
    encodes s = true := by
  rw [encodes,List.all_eq_true] at h ⊢
  intro x hx
  rcases hst x hx with rfl | hx
  · rfl
  · exact h x hx

theorem clean_of_leads (hline : line ∈ untrackedFiles (some w.lsFiles))
    (h : Leads w.cwd w.dir line f) : Unbroken (pathName f) ∧ encodes (pathName f) = true := by
  have hmem : line ∈ splitlines w.lsFiles := (List.mem_filter.mp hline).1
  have hbreak := unbroken_of_mem_splitlines hmem
  refine ⟨fun x hx => ?_,?_⟩
  · rcases Leads.name_subset h hx with rfl | hin
    · rfl
    · exact hbreak x hin
  · exact encodes_of_subset
      (encodes_of_mem_splitlines (w.decoder.encodes_decode _) hmem) fun x hx =>
        Leads.name_subset h hx

theorem exists_printed (h : ∀ f ∈ w.untracked, Unbroken (pathName f) ∧
    encodes (pathName f) = true) (hline : line ∈ untrackedFiles (some w.lsFiles)) :
    ∃ g ∈ w.untracked, line = printed w.quotePath (pathName g) ∧ isBlank line = false := by
  have hall : ∀ line ∈ w.untracked.map fun f => printed w.quotePath (pathName f),
      Unbroken line ∧ encodes line = true := by
    intro line hline
    obtain ⟨f,hf,rfl⟩ := List.mem_map.mp hline
    exact printed_clean (h f hf).1 (h f hf).2
  obtain ⟨hmem,hblank⟩ := List.mem_filter.mp hline
  rw [lsFiles,w.decoder.decode_of_encodes _ (encodes_unlines fun l hl => (hall l hl).2),
    splitlines_unlines fun l hl => (hall l hl).1] at hmem
  obtain ⟨g,hg,rfl⟩ := List.mem_map.mp hmem
  exact ⟨g,hg,rfl,by simpa using hblank⟩

theorem lexical_joinStr {base qs : Rel} (h : qs ≠ [] ∧ ∀ n ∈ qs, NamesEntry n) :
    lexical [] (joinStr (base.map some) (pathName qs)) = base++qs := by
  rw [joinStr_pathName h,lexical_map_some]
  rfl

theorem of_leads {cwd dir qs : Rel} (hqs : qs ≠ [] ∧ ∀ n ∈ qs, NamesEntry n)
    (h : Leads cwd dir (pathName qs) f) : f = qs ∨ ∃ n, f = qs++[n] := by
  rw [Leads,lexical_joinStr hqs] at h
  rcases h with h | ⟨n,-,h,-⟩
  · exact .inl (List.append_cancel_left h).symm
  · rw [List.append_assoc] at h
    exact .inr ⟨n,(List.append_cancel_left h).symm⟩

theorem length_pathName_append (qs : Rel) (n : PyStr) :
    (pathName qs).length ≤ (pathName (qs++[n])).length := by
  induction qs with
  | nil => exact Nat.zero_le _
  | cons m qs ih =>
    rw [pathName,pathName] at ih ⊢
    cases qs with
    | nil => simp
    | cons k qs =>
      rw [List.cons_append] at ih
      rw [List.cons_append,List.cons_append,List.intercalate_cons_cons,
        List.intercalate_cons_cons]
      simp only [List.length_append]
      omega

theorem plainName_of_leads (h : ∀ f ∈ w.untracked, ∃ line ∈ untrackedFiles (some w.lsFiles),
    Leads w.cwd w.dir line f) (hf : f ∈ w.untracked) : PlainName w.quotePath (pathName f) := by
  have hclean : ∀ f ∈ w.untracked, Unbroken (pathName f) ∧ encodes (pathName f) = true := by
    intro f hf
    obtain ⟨line,hline,hlead⟩ := h f hf
    exact clean_of_leads hline hlead
  induction hn : (pathName f).length using Nat.strong_induction_on generalizing f with
  | _ n ih =>
    obtain ⟨line,hline,hlead⟩ := h f hf
    obtain ⟨g,hg,rfl,hblank⟩ := exists_printed hclean hline
    cases hquote : (pathName g).any (unusual w.quotePath) with
    | false =>
      rw [printed,if_neg (by rw [hquote]; exact Bool.false_ne_true)] at hlead hblank
      rcases of_leads (w.named g hg) hlead with rfl | ⟨m,hm⟩
      · exact ⟨hquote,(hclean f hg).1,(hclean f hg).2,hblank⟩
      · have hfg := w.eq_of_prefix hg hf ⟨[m],hm.symm⟩
        rw [← hfg] at hm
        have hlen := congrArg List.length hm
        rw [List.length_append,List.length_singleton] at hlen
        omega
    | true =>
      rw [printed,if_pos hquote] at hlead
      obtain ⟨qs,heq,hqs⟩ := exists_quoted_parts w.quotePath (w.named g hg).2
      have hquoted : quoted w.quotePath (pathName g) = pathName qs := heq
      rw [hquoted] at hlead
      have hlen : (pathName qs).length ≤ (pathName f).length := by
        rcases of_leads hqs hlead with rfl | ⟨m,rfl⟩
        · exact Nat.le_refl _
        · exact length_pathName_append qs m
      have hlt := length_lt_quoted w.quotePath (pathName g)
      rw [hquoted] at hlt
      have hplain := ih _ (hn ▸ Nat.lt_of_lt_of_le hlt hlen) hg rfl
      cases hquote.symm.trans hplain.1

/-- A restore keeps its promise exactly when git prints the names of all untracked files as they
are, and each of them is a line that is not blank. -/
theorem restoresAll_iff (w : Workspace B) :
    w.RestoresAll ↔ ∀ f ∈ w.untracked, PlainName w.quotePath (pathName f) := by
  constructor
  · intro h f hf
    exact plainName_of_leads (fun f hf => exists_leads h hf) hf
  · exact restoresAll_of_plain

/-- Each byte that cannot be decoded becomes a replacement character. -/
def replacing : Decoder where
  decode s := s.map fun c => if encodes [c] then c else .ofCode 0xFFFD
  decode_of_encodes s h := by
    refine (List.map_congr_left fun c hc => if_pos ?_).trans (List.map_id s)
    rw [encodes,List.all_cons,List.all_nil,Bool.and_true]
    exact List.all_eq_true.mp h c hc
  encodes_decode s := by
    refine List.all_eq_true.mpr fun c hc => ?_
    obtain ⟨x,-,rfl⟩ := List.mem_map.mp hc
    by_cases hx : encodes [x] = true
    · rw [if_pos hx]
      rwa [encodes,List.all_cons,List.all_nil,Bool.and_true] at hx
    · rw [if_neg hx]
      rfl

def oneFile (name : PyStr) : Disk Unit :=
  ((Tree.empty.mkdirs [] [lit "w"]).bind fun d => d.writeFile [lit "w",name] ()).getD Tree.empty

/-- One untracked file with an accent in its name. -/
def accented : Workspace Unit where
  disk := oneFile (lit "\u00e9")
  cwd := [lit "w"]
  dir := [lit "s"]
  untracked := [[lit "\u00e9"]]
  quotePath := true
  decoder := replacing
  named := by decide
  isFile := by decide
  fresh := by decide
  room := by decide

/-- Once it is removed, the file with the accent is not brought back. -/
theorem accented_not_restored : ¬ ∀ w : Workspace Unit, w.RestoresAll := by
  intro h
  have hplain := plainName_of_leads (fun f hf => exists_leads (h accented) hf)
    (List.mem_singleton_self [lit "\u00e9"])
  cases hplain.1

end Workspace

end MinimaxCode.Checkpoints
