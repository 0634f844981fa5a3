import MinimaxCode.SandboxMachine

/-!
# What a run id can reach

The run id comes from the model and is joined to a path in four places. A tool call
is contained when it works on one run's own directory and receipt. Whether every call
with an id is contained can be read off the id: it is where the joined paths lead
when every directory on the way exists.
-/

namespace MinimaxCode.Sandbox

open PyText FileTree FileTree.Tree

/-- The arguments of `collect_subagent`; `runId` is `none` when it is not a string. -/
structure CollectArgs where
  runId : Option PyStr
  onConflict : PyStr
  prune : Bool

/-- Why `collect_subagent` refuses its arguments. -/
inductive CollectError
  | runIdRequired
  | onConflict
  | inFlight (runId : PyStr)

inductive ToolOutcome (h : Host)
  | rejected (error : CollectError)
  | collected (c : Collected h)

def Policy.parse (s : PyStr) : Option Policy :=
  if s = [] ∨ s = lit "fail" then some .fail
  else if s = lit "skip" then some .skip
  else if s = lit "overwrite" then some .overwrite
  else none

/-- `CollectSubagentTool.run`; `inFlight` is `get_background_run(run_id) is not None`. -/
def collectSubagent (h : Host) (f : Faults h.Bytes) (inFlight : PyStr → Bool) (root : Rel)
    (args : CollectArgs) (d : Disk h.Bytes) : ToolOutcome h :=
  match args.runId with
  | none => .rejected .runIdRequired
  | some s =>
    if isBlank s then .rejected .runIdRequired
    else match Policy.parse args.onConflict with
      | none => .rejected .onConflict
      | some policy =>
        if inFlight (strip s) then .rejected (.inFlight (strip s))
        else .collected (collectSandboxRun h f policy args.prune root (strip s) d)

/-- Where the receipt of a run is looked for, when something is there. -/
def receiptAt {B : Type} (d : Disk B) (root : Rel) (runId : PyStr) : Option Rel :=
  (d.resolve [] (collectedMarkerPath root runId)).filter fun p => (d.node p).isSome

def sandboxes (root : Rel) : Rel := root++sandboxRelpath

/-- The part of the tree that belongs to the run in the directory `c`: that directory
and the receipts. -/
def OwnPart (root : Rel) (c : PyStr) (q : Rel) : Prop :=
  sandboxes root++[c] <+: q ∨ ∃ r, r ≠ [] ∧ q = sandboxes root++[collectedDir]++r

/-- Outside `P` nothing is removed and no file changes. -/
def Kept {B : Type} (P : Rel → Prop) (d e : Disk B) : Prop :=
  ∀ q, ¬ P q → e.node q = d.node q ∨ (d.node q = none ∧ e.node q = some .dir)

/-- A collect stays with one run: the directory it merges from and prunes is a direct
child of the sandboxes other than the receipts, the receipt it finds is the run's
own, and it changes nothing but these and the workspace paths it merges into. -/
def ContainedCollect {h : Host} (root : Rel) (runId : PyStr) (d : Disk h.Bytes) (c : Collected h) :
    Prop :=
  ∃ run, run ≠ collectedDir ∧
    (∀ p, sandboxDir d root runId = some p → p = sandboxes root++[run]) ∧
    (∀ m, receiptAt d root runId = some m → OwnPart root run m) ∧
    Kept (fun q => OwnPart root run q ∨
      ∃ rel ∈ sandboxMirrorFiles d (sandboxes root++[run]), root++rel <+: q) d c.disk

/-- The id leads to a direct child of the sandboxes, and its receipt to that run's part. -/
def PlacedSandbox (root : Rel) (runId : PyStr) : Prop :=
  ∃ run, run ≠ collectedDir ∧
    lexical [] (sandboxRootFor root runId) = sandboxes root++[run] ∧
    OwnPart root run (lexical [] (collectedMarkerPath root runId))

section Directories

variable {B : Type}

def NoFiles (d : Disk B) : Prop := ∀ q, d.bytes q = none

theorem noFiles_empty : NoFiles (Tree.empty : Disk B) := by simp [NoFiles]

theorem isDir_walk {d : Disk B} {cur : Rel} (hcur : d.isDir cur) : d.isDir cur.dropLast := by
  by_cases hc : cur = []
  · simpa [hc] using hcur
  · rw [isDir_iff] at hcur ⊢
    have hsplit := List.dropLast_append_getLast hc
    rw [← hsplit] at hcur
    exact d.parent_dir (n:=cur.getLast hc) (by rw [hcur]; simp)

theorem exists_mkdirsRaw {d : Disk B} (hd : NoFiles d) {cur : Rel} (hcur : d.isDir cur)
    (raw : RawPath PyStr) : ∃ e, d.mkdirsRaw cur raw = some (e,lexical cur raw) ∧ NoFiles e ∧
      (∀ q, d.isDir q → e.isDir q) ∧ e.resolve cur raw = some (lexical cur raw) ∧
      e.isDir (lexical cur raw) := by
  induction raw generalizing d cur with
  | nil => exact ⟨d,rfl,hd,fun _ hq => hq,rfl,hcur⟩
  | cons c cs ih =>
    have hm : ∃ u, d.mkdir (walk cur c) = some u := by
      unfold mkdir
      split
      · exact ⟨d,rfl⟩
      · rename_i b hn
        simpa [Tree.bytes,hn] using hd (walk cur c)
      · rename_i hn
        cases c with
        | none => simp [walk,isDir_iff.mp (isDir_walk hcur)] at hn
        | some n =>
          rw [dif_pos ⟨by simp [walk],by simpa [walk] using hcur⟩]
          exact ⟨_,rfl⟩
    obtain ⟨u,hu⟩ := hm
    have hnode := node_mkdir hu
    have hdirs : ∀ q, d.isDir q → u.isDir q := by
      intro q hq
      rw [isDir_iff] at hq ⊢
      rw [hnode]
      split
      · rfl
      · exact hq
    have hfiles : NoFiles u := by
      intro q
      simp only [Tree.bytes,hnode]
      split
      · rfl
      · exact hd q
    have hwalk : u.isDir (walk cur c) := by
      rw [isDir_iff,hnode,if_pos rfl]
    obtain ⟨e,he,hef,hed,her,hel⟩ := ih hfiles hwalk
    refine ⟨e,?_,hef,fun q hq => hed q (hdirs q hq),?_,hel⟩
    · rw [mkdirsRaw,hu,Option.bind_some]
      exact he
    · rw [resolve,if_pos (hed cur (hdirs cur hcur))]
      exact her

theorem resolve_mono {d e : Disk B} (hde : ∀ q, d.isDir q → e.isDir q) {cur p : Rel}
    {raw : RawPath PyStr} (h : d.resolve cur raw = some p) : e.resolve cur raw = some p := by
  induction raw generalizing cur with
  | nil => exact h
  | cons c cs ih =>
    simp only [resolve,Option.ite_none_right_eq_some] at h ⊢
    exact ⟨hde cur h.1,ih h.2⟩

end Directories

section Footprint

namespace Kept

variable {B : Type} {P Q : Rel → Prop} {d e u : Disk B}

theorem refl (P : Rel → Prop) (d : Disk B) : Kept P d d := fun _ _ => .inl rfl

theorem trans (hde : Kept P d e) (heu : Kept P e u) : Kept P d u := by
  intro q hq
  rcases hde q hq with h | ⟨hn,hd⟩
  · rcases heu q hq with h' | ⟨hn',hd'⟩
    · exact .inl (h'.trans h)
    · exact .inr ⟨h ▸ hn',hd'⟩
  · rcases heu q hq with h' | ⟨hn',_⟩
    · exact .inr ⟨hn,h'.trans hd⟩
    · rw [hd] at hn'
      simp at hn'

theorem mono (hPQ : ∀ q, P q → Q q) (h : Kept P d e) : Kept Q d e := fun q hq => h q fun hp => hq (hPQ q hp)

theorem of_frame (h : Frame P d e) : Kept P d e := by
  intro q hq
  rcases h q hq with h | ⟨hn,hd,_⟩
  · exact .inl h
  · exact .inr ⟨hn,hd⟩

theorem of_mkdirsRaw (P : Rel → Prop) {d e : Disk B} {cur p : Rel} {raw : RawPath PyStr}
    (h : d.mkdirsRaw cur raw = some (e,p)) : Kept P d e ∧ p = lexical cur raw := by
  induction raw generalizing d cur with
  | nil =>
    cases h
    exact ⟨.refl P _,rfl⟩
  | cons c cs ih =>
    obtain ⟨u,hu,he⟩ := Option.bind_eq_some_iff.mp h
    obtain ⟨hue,hp⟩ := ih he
    refine ⟨trans (fun q _ => ?_) hue,hp⟩
    by_cases hq : d.node q = none
    · rw [node_mkdir hu]
      split
      · exact .inr ⟨hq,rfl⟩
      · exact .inl rfl
    · exact .inl (node_mkdir_of_ne_none hu hq)

end Kept

theorem lexical_dropLast_getLast (raw : RawPath PyStr) :
    lexical (lexical [] raw.dropLast) raw.getLast?.toList = lexical [] raw := by
  by_cases hraw : raw = []
  · rw [hraw]
    rfl
  · rw [List.getLast?_eq_some_getLast hraw,Option.toList_some]
    simp only [lexical,← List.foldl_append,List.dropLast_append_getLast hraw]

variable {h : Host} (f : Faults h.Bytes) (root : Rel) (runId : PyStr)

theorem kept_writeReceipt (d : Disk h.Bytes) (doc : Doc h.Digest h.Other) :
    Kept (fun q => q = lexical [] (collectedMarkerPath root runId)) d
      (writeReceipt h f d root runId doc).1 := by
  unfold writeReceipt
  simp only
  cases hm : d.mkdirsRaw [] (collectedMarkerPath root runId).dropLast with
  | none => exact .refl _ d
  | some e =>
    obtain ⟨e,dir⟩ := e
    obtain ⟨hk,hdir⟩ := Kept.of_mkdirsRaw
      (fun q => q = lexical [] (collectedMarkerPath root runId)) hm
    have hp : lexical dir (collectedMarkerPath root runId).getLast?.toList =
        lexical [] (collectedMarkerPath root runId) := by
      rw [hdir,lexical_dropLast_getLast]
    simp only [hp]
    cases f.receipt with
    | done =>
      cases hw : e.writeFile (lexical [] (collectedMarkerPath root runId)) (h.dumps doc) with
      | none => exact hk
      | some e' => exact hk.trans (.of_frame (.writeFile hw rfl))
    | refused => exact hk
    | torn => exact hk.trans (.of_frame (frame_getD_writeFile e h.torn rfl))

theorem kept_pruneSandbox (d : Disk h.Bytes) :
    Kept (fun q => lexical [] (sandboxRootFor root runId) <+: q) d
      (pruneSandbox h f d root runId).1 := by
  unfold pruneSandbox
  cases hs : sandboxDir d root runId with
  | none => exact .refl _ d
  | some sb =>
    have hsb : sb = lexical [] (sandboxRootFor root runId) := by
      obtain ⟨hr,_⟩ := Option.filter_eq_some_iff.mp hs
      exact resolve_eq_lexical hr
    subst hsb
    cases f.rmtree with
    | none => exact .of_frame (.rmtree d fun _ hq => hq)
    | some gone =>
      simp only
      have hgone : ∀ e : Disk h.Bytes, Kept (fun q => lexical [] (sandboxRootFor root runId) <+: q) e
          (gone.foldl (fun e q => e.rmtree (lexical [] (sandboxRootFor root runId)++q)) e) := by
        induction gone with
        | nil => exact .refl _
        | cons g gone ih =>
          intro e
          have hone := Frame.rmtree e (P:=fun q => lexical [] (sandboxRootFor root runId) <+: q)
            (p:=lexical [] (sandboxRootFor root runId)++g)
            fun q hq => (List.prefix_append _ g).trans hq
          exact (Kept.of_frame hone).trans (ih _)
      exact hgone d

/-- The paths a collect may change: below the directory the id leads to, the receipt the
id leads to, and the workspace paths of the files below that directory. -/
def Footprint (d : Disk h.Bytes) (q : Rel) : Prop :=
  lexical [] (sandboxRootFor root runId) <+: q ∨ q = lexical [] (collectedMarkerPath root runId) ∨
    ∃ rel ∈ sandboxMirrorFiles d (lexical [] (sandboxRootFor root runId)), root++rel <+: q

theorem kept_replay (prune : Bool) (d : Disk h.Bytes) (doc : Doc h.Digest h.Other) :
    Kept (Footprint root runId d) d (replay h f prune root runId d doc).disk := by
  have hwrite : Kept (Footprint root runId d) d (writeReceipt h f d root runId doc).1 :=
    (kept_writeReceipt f root runId d doc).mono fun _ hq => .inr (.inl hq)
  have hprune : ∀ e : Disk h.Bytes, Kept (Footprint root runId d) e (pruneSandbox h f e root runId).1 :=
    fun e => (kept_pruneSandbox f root runId e).mono fun _ hq => .inl hq
  unfold replay
  cases prune with
  | false => exact .refl _ d
  | true =>
    simp only [if_true]
    split
    · split
      · rename_i e hw
        rw [hw] at hwrite
        exact hwrite.trans (hprune e)
      · rename_i e hw
        rwa [hw] at hwrite
    · split
      · exact .refl _ d
      · exact hprune d

theorem kept_collectSandboxRun (policy : Policy) (prune : Bool) (d : Disk h.Bytes) :
    Kept (Footprint root runId d) d (collectSandboxRun h f policy prune root runId d).disk := by
  unfold collectSandboxRun
  split
  · exact .refl _ d
  · exact kept_replay f root runId prune d _
  · split
    · exact .refl _ d
    · rename_i sb hs
      have hsb : sb = lexical [] (sandboxRootFor root runId) := by
        obtain ⟨hr,_⟩ := Option.filter_eq_some_iff.mp hs
        exact resolve_eq_lexical hr
      have hlist : sandboxFilesWritten d root runId = sandboxMirrorFiles d sb := by
        simp only [sandboxFilesWritten,hs]
      have hwalk : Kept (Footprint root runId d) d
          (collectFiles h f policy root sb d (sandboxFilesWritten d root runId)).1 := by
        have hf := frame_foldl_collectFile (f:=f) policy root sb (sandboxFilesWritten d root runId)
          (d,Tally.start)
        rw [hlist,hsb] at hf ⊢
        exact (Kept.of_frame hf).mono fun _ hq => .inr (.inr hq)
      have hwrite : ∀ (e : Disk h.Bytes) doc, Kept (Footprint root runId d) e
          (writeReceipt h f e root runId doc).1 :=
        fun e doc => (kept_writeReceipt f root runId e doc).mono fun _ hq => .inr (.inl hq)
      simp only
      split
      · exact hwalk
      · split
        · exact (hwalk.trans (hwrite _ _)).trans
            ((kept_pruneSandbox f root runId _).mono fun _ hq => .inl hq)
        · exact hwalk.trans (hwrite _ _)

end Footprint

theorem containedCollect_iff (h : Host) (root : Rel) (runId : PyStr) :
    (∀ (f : Faults h.Bytes) (policy : Policy) (prune : Bool) (d : Disk h.Bytes),
      ContainedCollect root runId d (collectSandboxRun h f policy prune root runId d)) ↔
      PlacedSandbox root runId := by
  constructor
  · intro hall
    have hroot : (Tree.empty : Disk h.Bytes).isDir [] := by simp [isDir_iff]
    obtain ⟨d₁,_,hf₁,_,hr₁,hl₁⟩ :=
      exists_mkdirsRaw noFiles_empty hroot (sandboxRootFor root runId)
    obtain ⟨d₂,_,_,hd₂,hr₂,hl₂⟩ :=
      exists_mkdirsRaw hf₁ (isDir_iff.mpr (node_root d₁)) (collectedMarkerPath root runId)
    obtain ⟨run,hrun,hsb,hrec,_⟩ := hall (.none _) .fail true d₂
    refine ⟨run,hrun,hsb _ ?_,hrec _ ?_⟩
    · exact Option.filter_eq_some_iff.mpr ⟨resolve_mono hd₂ hr₁,hd₂ _ hl₁⟩
    · exact Option.filter_eq_some_iff.mpr ⟨hr₂,by simp [isDir_iff.mp hl₂]⟩
  · rintro ⟨run,hrun,hsb,hrec⟩ f policy prune d
    refine ⟨run,hrun,?_,?_,?_⟩
    · intro p hp
      obtain ⟨hr,_⟩ := Option.filter_eq_some_iff.mp hp
      rw [resolve_eq_lexical hr,hsb]
    · intro m hm
      obtain ⟨hr,_⟩ := Option.filter_eq_some_iff.mp hm
      rw [resolve_eq_lexical hr]
      exact hrec
    · refine (kept_collectSandboxRun f root runId policy prune d).mono ?_
      rintro q (hq | rfl | hq)
      · exact .inl (.inl (hsb ▸ hq))
      · exact .inl hrec
      · exact .inr (hsb ▸ hq)

/-- A `PurePosixPath`: whether it is absolute, and its components. -/
structure PurePath where
  absolute : Bool
  parts : RawPath PyStr
  deriving DecidableEq

def PurePath.ofStr (s : PyStr) : PurePath := ⟨isAbsolute s,pureParts s⟩

def partText : Option PyStr → PyStr
  | none => lit ".."
  | some n => n

/-- `str` of a path; an empty relative path is `.`. -/
def PurePath.str (p : PurePath) : PyStr :=
  if p.absolute then PyChar.scalar '/'::List.intercalate (lit "/") (p.parts.map partText)
  else if p.parts = [] then lit "."
  else List.intercalate (lit "/") (p.parts.map partText)

/-- `Path.expanduser`; `home` gives the home directory of a first component that
starts with a tilde, and `none` when there is none. -/
def PurePath.expandUser (home : PyStr → Option PyStr) (p : PurePath) : Option PurePath :=
  match p.absolute, p.parts with
  | false, some n::rest =>
    if n.head? = some (.scalar '~') then
      (home n).map fun dir => ⟨isAbsolute dir,pureParts dir++rest⟩
    else some p
  | _, _ => some p

/-- Why `safe_resolve` raises: its `PathSecurityError`s, and no home directory. -/
inductive PathError
  | noHome
  | empty
  | traversal (path : PyStr)
  | outside (candidate ws : Rel)
  | sensitive (candidate : Rel)

/-- `safe_resolve`. There are no symbolic links, so resolving is lexical. -/
def safeResolve (home : PyStr → Option PyStr) (sensitive : Rel → Bool) (ws : Rel) (path : PyStr) :
    Except PathError Rel :=
  match (PurePath.ofStr path).expandUser home with
  | none => .error .noHome
  | some raw =>
    let s := strip raw.str
    if s = [] then .error .empty
    else if none ∈ (PurePath.ofStr s).parts then .error (.traversal path)
    else
      let candidate := lexical (if raw.absolute then [] else ws) raw.parts
      if ws <+: candidate then
        if sensitive candidate then .error (.sensitive candidate)
        else .ok candidate
      else .error (.outside candidate ws)

def artifacts (root : Rel) : Rel := root++[minimaxDir,lit "artifacts"]

def artifactDir (root : Rel) (runId : PyStr) : Rel :=
  lexical [] (joinStr ((artifacts root).map some) runId)

inductive ReadError
  | runIdRequired
  | relPathRequired
  | noRoot
  | rejected (error : PathError)
  | notFound (relPath runId : PyStr)
  | os

inductive ReadOutcome (B : Type)
  | failed (error : ReadError)
  | content (path : Rel) (bytes : B)

/-- `ReadArtifactTool.run`. -/
def readArtifact {B : Type} (f : Faults B) (home : PyStr → Option PyStr) (sensitive : Rel → Bool)
    (root : Option Rel) (runId relPath : PyStr) (d : Disk B) : ReadOutcome B :=
  if isBlank runId then .failed .runIdRequired
  else if isBlank relPath then .failed .relPathRequired
  else match root with
    | none => .failed .noRoot
    | some root =>
      match safeResolve home sensitive (artifactDir root (strip runId)) relPath with
      | .error e => .failed (.rejected e)
      | .ok target =>
        match d.bytes target with
        | none => .failed (.notFound relPath (strip runId))
        | some b =>
          if f.read target then .failed .os else .content target b

/-- Whatever is read with an id lies at or below one direct child of the artifacts
directory. -/
def ContainedRead (B : Type) (root : Rel) (s : PyStr) : Prop :=
  ∃ run, ∀ (f : Faults B) home sensitive relPath (d : Disk B) target x,
    readArtifact f home sensitive (some root) s relPath d = .content target x →
    artifacts root++[run] <+: target

/-- The id leads to a direct child of the artifacts directory or below one. -/
def PlacedArtifacts (root : Rel) (runId : PyStr) : Prop :=
  ∃ run, artifacts root++[run] <+: artifactDir root runId

theorem prefix_of_safeResolve {home : PyStr → Option PyStr} {sensitive : Rel → Bool} {ws p : Rel}
    {path : PyStr} (hp : safeResolve home sensitive ws path = .ok p) : ws <+: p := by
  unfold safeResolve at hp
  cases hraw : (PurePath.ofStr path).expandUser home with
  | none => simp [hraw] at hp
  | some raw =>
    simp only [hraw,Except.ok.injEq,reduceCtorEq,apply_ite (· = Except.ok p),if_false_left,
      if_false_right] at hp
    obtain ⟨_,_,hpre,_,rfl⟩ := hp
    exact hpre

/-- A name that every step of `safe_resolve` leaves as it is. -/
def PlainName (n : PyStr) : Prop :=
  isBlank n = false ∧ (PurePath.ofStr n).expandUser (fun _ => none) = some ⟨false,[some n]⟩ ∧
    strip n = n ∧ n ≠ [] ∧ pureParts n = [some n]

instance (n : PyStr) : Decidable (PlainName n) := inferInstanceAs (Decidable (_ ∧ _))

theorem safeResolve_plain (ws : Rel) {n : PyStr} (hn : PlainName n) :
    safeResolve (fun _ => none) (fun _ => false) ws n = .ok (ws++[n]) := by
  obtain ⟨_,hexpand,hstrip,hne,hparts⟩ := hn
  have hstr : PurePath.str ⟨false,[some n]⟩ = n := by
    simp [PurePath.str,partText,List.intercalate]
  simp only [safeResolve,hexpand,hstr,hstrip,if_neg hne]
  simp [PurePath.ofStr,hparts,lexical,walk]

theorem exists_file {B : Type} (b : B) (base : Rel) (n : PyStr) :
    ∃ d : Disk B, d.bytes (base++[n]) = some b := by
  obtain ⟨e,he⟩ := mkdirs_isSome base (node_root (Tree.empty : Disk B)) (by simp)
  have hpar := isDir_of_mkdirs (node_root _) he
  have hnone : e.node (base++[n]) = none := by
    rcases node_mkdirs he (base++[n]) with hs | ⟨_,_,hpre⟩
    · rw [hs,node_empty,if_neg (by simp)]
    · have hlen := hpre.length_le
      simp only [List.nil_append,List.length_append,List.length_singleton] at hlen
      omega
  obtain ⟨u,hu⟩ := writeFile_isSome (p:=base++[n]) (by simp) (by simpa using hpar)
    (isDir_of_none hnone) b
  exact ⟨u,by rw [bytes_writeFile hu,if_pos rfl]⟩

theorem path_of_readArtifact {B : Type} {f : Faults B} {home : PyStr → Option PyStr}
    {sensitive : Rel → Bool} {root : Rel} {s relPath : PyStr} {d : Disk B} {target : Rel} {x : B}
    (h : readArtifact f home sensitive (some root) s relPath d = .content target x) :
    isBlank s = false ∧ artifactDir root (strip s) <+: target := by
  unfold readArtifact at h
  split at h
  · simp at h
  · rename_i hs
    refine ⟨by simpa using hs,?_⟩
    split at h
    · simp at h
    · simp only at h
      split at h
      · simp at h
      · rename_i p hp
        cases hb : d.bytes p with
        | none => simp [hb] at h
        | some y =>
          simp only [hb] at h
          split at h
          · simp at h
          · obtain ⟨rfl,_⟩ := by simpa using h
            exact prefix_of_safeResolve hp

theorem exists_readArtifact {B : Type} (b : B) (root : Rel) {s n : PyStr} (hs : isBlank s = false)
    (hn : PlainName n) :
    ∃ d : Disk B, readArtifact (.none B) (fun _ => none) (fun _ => false) (some root) s n d =
      .content (artifactDir root (strip s)++[n]) b := by
  obtain ⟨d,hd⟩ := exists_file b (artifactDir root (strip s)) n
  refine ⟨d,?_⟩
  simp [readArtifact,hs,hn.1,safeResolve_plain _ hn,hd,Faults.none]

theorem containedRead_iff {B : Type} (b : B) (root : Rel) {s : PyStr} (hs : isBlank s = false) :
    ContainedRead B root s ↔ PlacedArtifacts root (strip s) := by
  constructor
  · rintro ⟨run,hall⟩
    obtain ⟨d,hd⟩ := exists_readArtifact b root (n:=lit "x") hs (by decide)
    obtain ⟨e,he⟩ := exists_readArtifact b root (n:=lit "y") hs (by decide)
    refine ⟨run,?_⟩
    rcases List.prefix_concat_iff.mp (hall _ _ _ _ _ _ _ hd) with hx | hx
    · rcases List.prefix_concat_iff.mp (hall _ _ _ _ _ _ _ he) with hy | hy
      · have hxy : [lit "x"] = [lit "y"] := List.append_cancel_left (hx.symm.trans hy)
        exact absurd hxy (by decide)
      · exact hy
    · exact hx
  · rintro ⟨run,hrun⟩
    exact ⟨run,fun _ _ _ _ _ _ _ h => hrun.trans (path_of_readArtifact h).2⟩

/-- Every call of `collect_subagent` with the id stays with one run or is refused. -/
def ContainedCollects (h : Host) (root : Rel) (s : PyStr) : Prop :=
  ∀ (f : Faults h.Bytes) inFlight onConflict prune (d : Disk h.Bytes) c,
    collectSubagent h f inFlight root ⟨some s,onConflict,prune⟩ d = .collected c →
    ContainedCollect root (strip s) d c

theorem containedCollects_iff (h : Host) (root : Rel) {s : PyStr} (hs : isBlank s = false) :
    ContainedCollects h root s ↔ PlacedSandbox root (strip s) := by
  rw [← containedCollect_iff h]
  constructor
  · intro hall f policy prune d
    have hparse : ∃ text, Policy.parse text = some policy := by
      cases policy with
      | fail => exact ⟨lit "fail",by decide⟩
      | skip => exact ⟨lit "skip",by decide⟩
      | overwrite => exact ⟨lit "overwrite",by decide⟩
    obtain ⟨text,htext⟩ := hparse
    apply hall f (fun _ => false) text prune d
    simp [collectSubagent,hs,htext]
  · intro hall f inFlight onConflict prune d c hc
    simp only [collectSubagent,hs,Bool.false_eq_true,if_false] at hc
    split at hc
    · simp at hc
    · split at hc
      · simp at hc
      · obtain rfl := by simpa using hc
        exact hall f _ prune d

/-- Both tools are contained for a run id exactly when it is blank or leads, lexically,
to one direct child of the sandboxes other than the receipts with its receipt in that
run's part, and to a direct child of the artifacts or below. -/
theorem run_id_contained_iff (h : Host) (root : Rel) (s : PyStr) :
    ContainedCollects h root s ∧ ContainedRead h.Bytes root s ↔
      isBlank s ∨ PlacedSandbox root (strip s) ∧ PlacedArtifacts root (strip s) := by
  cases hs : isBlank s with
  | true =>
    simp only [true_or,iff_true]
    constructor
    · intro f inFlight onConflict prune d c hc
      simp [collectSubagent,hs] at hc
    · refine ⟨[],fun _ _ _ _ _ _ _ hr => ?_⟩
      simp [readArtifact,hs] at hr
  | false =>
    rw [containedCollects_iff h root hs,containedRead_iff h.torn root hs]
    simp

/-- With the run id `../../src` a collect merges from and deletes a source directory. -/
theorem run_id_escapes :
    ∃ (d : Disk plainHost.Bytes) (c : Collected plainHost),
      collectSubagent plainHost (.none _) (fun _ => false) demoRoot ⟨some (lit "../../src"),[],true⟩ d =
        .collected c ∧
      d.bytes (demoRoot++[lit "src",lit "a"]) = some (Content.raw 1) ∧
      c.disk.bytes (demoRoot++[lit "src",lit "a"]) = none ∧
      ¬ ContainedCollect demoRoot (lit "../../src") d c := by
  let d : Disk plainHost.Bytes :=
    ((toolWrite .empty (demoRoot++[lit "src",lit "a"]) (.raw 1)).bind fun e =>
      e.mkdirs [] (sandboxes demoRoot)).getD .empty
  refine ⟨d,collectSandboxRun plainHost (.none _) .fail true demoRoot (lit "../../src") d,rfl,?_,?_,?_⟩
  · decide +kernel
  · decide +kernel
  · rintro ⟨run,_,hsb,_⟩
    have hdir : sandboxDir d demoRoot (lit "../../src") = some [lit "w",lit "src"] := by decide +kernel
    have hlen := congrArg List.length (hsb _ hdir)
    simp [sandboxes,sandboxRelpath,demoRoot] at hlen

end MinimaxCode.Sandbox
