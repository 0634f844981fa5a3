import MinimaxCode.Runs
import MinimaxCode.SandboxVisibility

/-!
# A sandboxed run over time

The run writes through the redirect while it is in flight, the workspace changes
underneath it, and after it has finished it is collected, any number of times.
Beside the disk, a world remembers what the run first saw at each path, which
contents a collect has found in the workspace, and which files the last collect
left skipped or failed.
-/

namespace MinimaxCode.Sandbox

open PyText FileTree FileTree.Tree

/-- A path of the workspace proper. -/
def Outside (p : Rel) : Prop := p ≠ [] ∧ p.head? ≠ some minimaxDir

instance (p : Rel) : Decidable (Outside p) := inferInstanceAs (Decidable (_ ∧ _))

/-- Somebody else changes the workspace. -/
inductive Change (B : Type)
  | write (b : B)
  | mkdir
  | remove

def Change.apply {B : Type} (d : Disk B) (p : Rel) : Change B → Option (Disk B)
  | .write b => toolWrite d p b
  | .mkdir => d.mkdirs [] p
  | .remove => some (d.rmtree p)

structure World (h : Host) where
  disk : Disk h.Bytes
  inFlight : Bool
  /-- What the workspace held at a path when the run first wrote it. -/
  seen : Rel → Option (Option h.Bytes)
  /-- The bytes a collect has found both in the mirror and in the workspace. -/
  landed : Rel → Option h.Bytes
  /-- The files the last merge reported as skipped or failed. -/
  pending : List Rel

inductive Action (h : Host)
  | write (p : Rel) (b : Option h.Bytes) (o : CopyOutcome h.Bytes)
  | outside (p : Rel) (c : Change h.Bytes)
  | finish
  | collect (policy : Policy) (prune : Bool) (f : Faults h.Bytes)

def noteSeen {B : Type} (seen : Rel → Option (Option B)) (p : Rel) (cur : Option B) (q : Rel) :
    Option (Option B) :=
  if q = p ∧ seen p = none then some cur else seen q

/-- The bytes of two files that agree. -/
def agreed (h : Host) (ws mirror : Option h.Bytes) : Option h.Bytes :=
  match ws, mirror with
  | some a, some b => if h.sha256 a = h.sha256 b then some b else none
  | _, _ => none

def Report.outstanding {D : Type} (r : Report D) : List Rel := r.skipped++r.errors.map Prod.fst

def Result.pending {D O : Type} (old : List Rel) : Result D O → List Rel
  | .refused report => report.outstanding
  | .collected report _ => report.outstanding
  | _ => old

section Machine

variable {h : Host} (root : Rel) (id : RunId)

def World.mirror (w : World h) (q : Rel) : Option h.Bytes := w.disk.bytes (id.sandbox root++q)

def World.baseline (w : World h) (q : Rel) : Option h.Bytes :=
  w.disk.bytes (id.sandbox root++[baseDir]++q)

def World.workspace (w : World h) (q : Rel) : Option h.Bytes := w.disk.bytes (root++q)

/-- The world a collect leaves. -/
def World.after (w : World h) (c : Collected h) : World h :=
  { w with
    disk := c.disk
    landed := fun q => (agreed h (c.disk.bytes (root++q)) (w.mirror root id q)).or (w.landed q)
    pending := c.result.pending w.pending }

/-- A collect waits for the run to finish. -/
def step (w : World h) : Action h → Option (World h)
  | .write p b o =>
    if w.inFlight ∧ Outside p then
      some { w with
        disk := (sandboxedWrite w.disk (id.sandbox root) root p b o).1
        seen := noteSeen w.seen p (w.workspace root p) }
    else none
  | .outside p c =>
    if Outside p then (c.apply w.disk (root++p)).map fun e => { w with disk := e } else none
  | .finish => some { w with inFlight := false }
  | .collect policy prune f =>
    if w.inFlight then none
    else some (w.after root id (collectSandboxRun h f policy prune root id.name w.disk))

/-- A run that has just been given its empty sandbox. -/
structure Fresh (w : World h) : Prop where
  inFlight : w.inFlight = true
  made : w.disk.node (id.sandbox root) = some .dir
  empty : ∀ q, q ≠ [] → w.disk.node (id.sandbox root++q) = none
  uncollected : w.disk.node (id.receipt root) = none
  seen : ∀ q, w.seen q = none
  landed : ∀ q, w.landed q = none
  pending : w.pending = []

end Machine

section Frames

variable {B : Type} {root : Rel} {id : RunId}

theorem not_prefix_minimax {r x : Rel} (hr : Outside r) : ¬ root++r <+: root++minimaxDir::x := by
  rw [List.prefix_append_right_inj]
  obtain ⟨hne,hhead⟩ := hr
  cases r with
  | nil => exact absurd rfl hne
  | cons c cs =>
    rintro hpre
    have hc : c = minimaxDir := (List.cons_prefix_cons.mp hpre).1
    simp [hc] at hhead

theorem node_below_minimax (rels : List Rel) {d e : Disk B}
    (hf : Frame (fun q => ∃ r ∈ rels, root++r <+: q) d e) (hr : ∀ r ∈ rels, Outside r) (x : Rel) :
    e.node (root++minimaxDir::x) = d.node (root++minimaxDir::x) := by
  apply hf.node_eq
  · rintro ⟨r,hmem,hpre⟩
    exact not_prefix_minimax (hr r hmem) hpre
  · rintro s ⟨r,hmem,hrs⟩ hxs
    rcases List.prefix_or_prefix_of_prefix hrs hxs with hpre | hpre
    · exact not_prefix_minimax (hr r hmem) hpre
    · obtain ⟨hne,hhead⟩ := hr r hmem
      rw [List.prefix_append_right_inj] at hpre
      obtain ⟨y,rfl⟩ := hpre
      simp at hhead

theorem frame_change {d e : Disk B} {p : Rel} {c : Change B} (h : c.apply d p = some e) :
    Frame (fun q => p <+: q) d e := by
  cases c with
  | write b => exact frame_toolWrite List.prefix_rfl h
  | mkdir => exact .mkdirs h (by simp) List.prefix_rfl
  | remove =>
    cases h
    exact .rmtree d fun _ hq => hq

theorem frame_takeBaseline {d : Disk B} {sb rel : Rel} (o : CopyOutcome B) :
    Frame (fun q => q = sb++[baseDir]++rel) d (takeBaseline d sb root (root++rel) o) := by
  unfold takeBaseline
  simp only [List.drop_left]
  split
  · split
    · rename_i hn
      cases hm : d.mkdirs [] (sb++[baseDir]++rel).dropLast with
      | none => exact .refl _ d
      | some e =>
        have hf : Frame (fun q => q = sb++[baseDir]++rel) d e :=
          .mkdirs hm (List.dropLast_prefix _) rfl
        have hdir : e.isDir (sb++[baseDir]++rel) = false :=
          isDir_of_none ((node_mkdirs_dropLast hm).trans (by simpa using hn))
        exact hf.trans (frame_copy2_file hdir _ o)
    · exact .refl _ d
  · exact .refl _ d

theorem frame_sandboxedWrite (d : Disk B) (sb root : Rel) {p : Rel} (hp : p.head? ≠ some minimaxDir)
    (b : Option B) (o : CopyOutcome B) :
    Frame (fun q => q = sb++p ∨ q = sb++[baseDir]++p) d (sandboxedWrite d sb root p b o).1 := by
  have hredirect : Frame (fun q => q = sb++p ∨ q = sb++[baseDir]++p) d
      (redirectWriteTarget d (some sb) root (root++p) o).1 := by
    rw [redirectWriteTarget_mirror d hp]
    cases hm : d.mkdirs [] (sb++p).dropLast with
    | none => exact .refl _ d
    | some e =>
      have hf : Frame (fun q => q = sb++p ∨ q = sb++[baseDir]++p) d e :=
        .mkdirs hm (List.dropLast_prefix _) (.inl rfl)
      exact hf.trans ((frame_takeBaseline o).mono fun _ hq => .inr hq)
  rw [sandboxedWrite_fst d hp]
  cases hw : b.bind (toolWrite (redirectWriteTarget d (some sb) root (root++p) o).1 (sb++p)) with
  | none => exact hredirect
  | some e =>
    obtain ⟨x,_,hx⟩ := Option.bind_eq_some_iff.mp hw
    exact hredirect.trans (frame_toolWrite (.inl rfl) hx)

theorem mkdirsRaw_map_some (d : Disk B) (cur rest : Rel) :
    d.mkdirsRaw cur (rest.map some) = (d.mkdirs cur rest).map fun e => (e,cur++rest) := by
  induction rest generalizing d cur with
  | nil => simp [mkdirsRaw,Tree.mkdirs]
  | cons n rest ih =>
    simp only [List.map_cons,mkdirsRaw,Tree.mkdirs,walk]
    cases d.mkdir (cur++[n]) with
    | none => rfl
    | some e => simp [ih]

end Frames

section Receipts

variable {h : Host} (f : Faults h.Bytes) (root : Rel) (id : RunId) {d : Disk h.Bytes}

theorem writeReceipt_spec (d : Disk h.Bytes) (doc : Doc h.Digest h.Other) :
    Frame (fun q => q = id.receipt root) d (writeReceipt h f d root id.name doc).1 ∧
    ((writeReceipt h f d root id.name doc).2 = true →
      (writeReceipt h f d root id.name doc).1.bytes (id.receipt root) = some (h.dumps doc)) ∧
    ((writeReceipt h f d root id.name doc).2 = false →
      (writeReceipt h f d root id.name doc).1.node (id.receipt root) = d.node (id.receipt root) ∨
      (writeReceipt h f d root id.name doc).1.bytes (id.receipt root) = some h.torn) := by
  simp only [writeReceipt,id.collectedMarkerPath_eq,← List.map_dropLast,mkdirsRaw_map_some]
  cases hm : d.mkdirs [] (id.receipt root).dropLast with
  | none => exact ⟨.refl _ d,by simp,by simp⟩
  | some e =>
    have hp : lexical ([]++(id.receipt root).dropLast) ((id.receipt root).map some).getLast?.toList =
        id.receipt root := by
      simp [RunId.receipt,lexical,walk]
    have hf : Frame (fun q => q = id.receipt root) d e := .mkdirs hm (List.dropLast_prefix _) rfl
    have hsame : e.node (id.receipt root) = d.node (id.receipt root) := node_mkdirs_dropLast hm
    simp only [Option.map_some,hp]
    cases f.receipt with
    | done =>
      cases hw : e.writeFile (id.receipt root) (h.dumps doc) with
      | none => exact ⟨hf,by simp,fun _ => .inl hsame⟩
      | some e' =>
        refine ⟨hf.trans (.writeFile hw rfl),fun _ => ?_,by simp⟩
        simp [bytes_writeFile hw]
    | refused => exact ⟨hf,by simp,fun _ => .inl hsame⟩
    | torn =>
      cases hw : e.writeFile (id.receipt root) h.torn with
      | none => exact ⟨by simpa [hw] using hf,by simp,fun _ => .inl (by simpa [hw] using hsame)⟩
      | some e' =>
        refine ⟨?_,by simp,fun _ => .inr ?_⟩
        · simpa [hw] using hf.trans (.writeFile hw rfl)
        · simp [bytes_writeFile hw]

theorem pruneSandbox_spec (d : Disk h.Bytes) :
    Frame (fun q => id.sandbox root <+: q) d (pruneSandbox h f d root id.name).1 ∧
    ∀ q, (pruneSandbox h f d root id.name).1.node q = none ∨
      (pruneSandbox h f d root id.name).1.node q = d.node q := by
  have hgone : ∀ (gone : List Rel) (e : Disk h.Bytes),
      Frame (fun q => id.sandbox root <+: q) e (gone.foldl (fun e q => e.rmtree (id.sandbox root++q)) e) ∧
      ∀ q, (gone.foldl (fun e q => e.rmtree (id.sandbox root++q)) e).node q = none ∨
        (gone.foldl (fun e q => e.rmtree (id.sandbox root++q)) e).node q = e.node q := by
    intro gone
    induction gone with
    | nil => exact fun e => ⟨.refl _ e,fun q => .inr rfl⟩
    | cons g gone ih =>
      intro e
      have hone : Frame (fun q => id.sandbox root <+: q) e (e.rmtree (id.sandbox root++g)) :=
        .rmtree e fun q hq => (List.prefix_append _ g).trans hq
      refine ⟨hone.trans (ih _).1,fun q => ?_⟩
      rcases (ih (e.rmtree (id.sandbox root++g))).2 q with hq | hq
      · exact .inl hq
      · rw [List.foldl_cons,hq]
        exact node_rmtree_or e _ q
  unfold pruneSandbox
  rw [sandboxDir_of_plain]
  split
  · exact ⟨.refl _ d,fun q => .inr rfl⟩
  · rename_i sb hsb
    have hsb : id.sandbox root = sb := by
      split at hsb
      · exact Option.some.inj hsb
      · simp at hsb
    subst hsb
    cases f.rmtree with
    | none => exact ⟨.rmtree d fun _ hq => hq,node_rmtree_or d _⟩
    | some gone => exact hgone gone d

theorem sandbox_not_prefix_receipt : ¬ id.sandbox root <+: id.receipt root := by
  simp only [RunId.sandbox,RunId.receipt,List.append_assoc,List.prefix_append_right_inj,
    List.cons_prefix_cons]
  exact fun hpre => id.run hpre.1

theorem receipt_not_prefix_sandbox (x : Rel) : ¬ id.receipt root <+: id.sandbox root++x := by
  simp only [RunId.sandbox,RunId.receipt,List.append_assoc,List.prefix_append_right_inj,
    List.singleton_append,List.cons_prefix_cons]
  exact fun hpre => id.run hpre.1.symm

theorem node_sandbox_writeReceipt (d : Disk h.Bytes) (doc : Doc h.Digest h.Other) (x : Rel) :
    (writeReceipt h f d root id.name doc).1.node (id.sandbox root++x) = d.node (id.sandbox root++x) := by
  have hapart : ¬ id.sandbox root++x <+: id.receipt root :=
    fun hpre => sandbox_not_prefix_receipt root id ((List.prefix_append _ x).trans hpre)
  apply (writeReceipt_spec f root id d doc).1.node_eq
  · rintro he
    exact hapart (he ▸ List.prefix_rfl)
  · rintro r rfl
    exact hapart

theorem node_receipt_pruneSandbox (d : Disk h.Bytes) :
    (pruneSandbox h f d root id.name).1.node (id.receipt root) = d.node (id.receipt root) := by
  apply (pruneSandbox_spec f root id d).1.node_eq (sandbox_not_prefix_receipt root id)
  rintro r ⟨x,rfl⟩
  exact receipt_not_prefix_sandbox root id x

theorem readMarker_ne_none {p : Rel} (hp : d.node p ≠ none) :
    readMarker h f d (p.map some) ≠ none := by
  have hr : d.resolve [] (p.map some) = some p := by
    have := resolve_map_some [] p (by simpa using hp)
    simpa using this
  simp only [readMarker,hr,exists?]
  split
  · simp
  · rename_i hs
    split at hs
    · simp at hs
    · simp [Option.isSome_iff_ne_none.mpr hp] at hs
  · split
    · simp
    · split <;> simp

theorem node_ne_none_of_readMarker {p : Rel} {loaded : Loaded h.Digest h.Other}
    (hm : readMarker h f d (p.map some) = some loaded)
    (hs : ¬ (d.resolve [] (p.map some)).any f.stat) : d.node p ≠ none := by
  simp only [readMarker] at hm
  cases hr : d.resolve [] (p.map some) with
  | none => simp [hr] at hm
  | some q =>
    have hq : q = p := by
      rw [resolve_eq_lexical hr,lexical_map_some,List.nil_append]
    subst q
    have hstat : f.stat p = false := by simpa [hr] using hs
    intro hn
    simp [hr,exists?,hstat,hn] at hm

/-- What a replay does to the disk: it removes files of the sandbox only beside a
receipt, and writes a receipt only where there was none. -/
structure Replayed (h : Host) (root : Rel) (id : RunId) (d e : Disk h.Bytes) : Prop where
  frame : Frame (fun q => q = id.receipt root ∨ id.sandbox root <+: q) d e
  shrinks : ∀ q, e.node (id.sandbox root++q) = none ∨
    e.node (id.sandbox root++q) = d.node (id.sandbox root++q)
  receipt : e.node (id.receipt root) = d.node (id.receipt root) ∨
    d.node (id.receipt root) = none ∧ ∃ x, e.bytes (id.receipt root) = some x ∧ h.loads x ≠ .null
  kept : e.node (id.receipt root) = none →
    ∀ q, e.node (id.sandbox root++q) = d.node (id.sandbox root++q)

theorem Replayed.refl (d : Disk h.Bytes) : Replayed h root id d d where
  frame := .refl _ d
  shrinks _ := .inr rfl
  receipt := .inl rfl
  kept _ _ := rfl

theorem Replayed.prune {e : Disk h.Bytes} (hde : Replayed h root id d e)
    (hr : e.node (id.receipt root) ≠ none) :
    Replayed h root id d (pruneSandbox h f e root id.name).1 where
  frame := hde.frame.trans ((pruneSandbox_spec f root id e).1.mono fun _ hq => .inr hq)
  shrinks q := by
    rcases (pruneSandbox_spec f root id e).2 (id.sandbox root++q) with hq | hq
    · exact .inl hq
    · rw [hq]
      exact hde.shrinks q
  receipt := by
    have hsame := node_receipt_pruneSandbox f root id e
    rw [hsame,bytes_eq_of_node hsame]
    exact hde.receipt
  kept hn := absurd (node_receipt_pruneSandbox f root id e ▸ hn) hr

theorem replayed_writeReceipt (hd : d.node (id.receipt root) = none)
    (doc : Doc h.Digest h.Other) :
    Replayed h root id d (writeReceipt h f d root id.name doc).1 where
  frame := (writeReceipt_spec f root id d doc).1.mono fun _ hq => .inl hq
  shrinks q := .inr (node_sandbox_writeReceipt f root id d doc q)
  receipt := by
    obtain ⟨_,hdone,hfail⟩ := writeReceipt_spec f root id d doc
    cases hw : (writeReceipt h f d root id.name doc).2 with
    | true => exact .inr ⟨hd,_,hdone hw,by simp [h.loads_dumps]⟩
    | false =>
      rcases hfail hw with hsame | htorn
      · exact .inl hsame
      · exact .inr ⟨hd,_,htorn,by simp [h.loads_torn]⟩
  kept _ q := node_sandbox_writeReceipt f root id d doc q

theorem replayed_replay (prune : Bool) (d : Disk h.Bytes) (doc : Doc h.Digest h.Other) :
    Replayed h root id d (replay h f prune root id.name d doc).disk := by
  unfold replay
  rw [id.collectedMarkerPath_eq]
  cases prune with
  | false => exact .refl root id d
  | true =>
    simp only [if_true]
    cases hm : readMarker h f d ((id.receipt root).map some) with
    | none =>
      have hd : d.node (id.receipt root) = none := by
        by_contra hne
        exact readMarker_ne_none f hne hm
      have hwrite := replayed_writeReceipt f root id hd doc
      have hdone := (writeReceipt_spec f root id d doc).2.1
      simp only
      split
      · rename_i e hw
        simp only [hw] at hwrite hdone
        refine hwrite.prune f root id ?_
        simp [bytes_eq_some.mp (hdone trivial)]
      · rename_i e hw
        rwa [hw] at hwrite
    | some loaded =>
      simp only
      split
      · exact .refl root id d
      · rename_i hs
        exact (Replayed.refl root id d).prune f root id (node_ne_none_of_readMarker f hm hs)

/-- The ways a collect can go. -/
inductive CollectCase (h : Host) (f : Faults h.Bytes) (policy : Policy) (root : Rel) (id : RunId)
    (d : Disk h.Bytes) : Collected h → Prop
  | stands {c : Collected h} (hprior : readCollectedReport h f d root id.name ≠ none)
      (hdisk : Replayed h root id d c.disk)
      (hres : c.result = .crashed ∨ ∃ doc pruned, c.result = .replayed doc pruned) :
      CollectCase h f policy root id d c
  | noSandbox (hprior : readCollectedReport h f d root id.name = none)
      (hdir : d.isDir (id.sandbox root) = false) :
      CollectCase h f policy root id d ⟨d,.noSandbox,[],[]⟩
  | refused {e t} (hprior : readCollectedReport h f d root id.name = none)
      (hwalk : collectFiles h f policy root (id.sandbox root) d
        (sandboxMirrorFiles d (id.sandbox root)) = (e,t)) (hconf : t.conflicts ≠ []) :
      CollectCase h f policy root id d ⟨e,.refused (mkReport policy root id.name t),t.created,t.modified⟩
  | merged {e e' t durable pruned} {c : Collected h}
      (hprior : readCollectedReport h f d root id.name = none)
      (hwalk : collectFiles h f policy root (id.sandbox root) d
        (sandboxMirrorFiles d (id.sandbox root)) = (e,t)) (hconf : t.conflicts = [])
      (hreceipt : writeReceipt h f e root id.name (.report (mkReport policy root id.name t)) = (e',durable))
      (hdisk : c.disk = e' ∨ durable = true ∧ t.errors = [] ∧ t.skipped = [] ∧
        c.disk = (pruneSandbox h f e' root id.name).1)
      (hres : c.result = .collected (mkReport policy root id.name t) pruned) :
      CollectCase h f policy root id d c

theorem collect_case (policy : Policy) (prune : Bool) (d : Disk h.Bytes) :
    CollectCase h f policy root id d (collectSandboxRun h f policy prune root id.name d) := by
  unfold collectSandboxRun
  cases hprior : readCollectedReport h f d root id.name with
  | some prior =>
    cases prior with
    | notMapping => exact .stands (by simp [hprior]) (.refl root id d) (.inl rfl)
    | mapping doc =>
      refine .stands (by simp [hprior]) (replayed_replay f root id prune d doc) ?_
      simp only [replay]
      repeat' split
      all_goals first | exact .inl rfl | exact .inr ⟨_,_,rfl⟩
  | none =>
    simp only
    by_cases hdir : d.isDir (id.sandbox root)
    · rw [sandboxDir_of_plain,if_pos hdir,sandboxFilesWritten_of_dir hdir]
      simp only
      cases hwalk : collectFiles h f policy root (id.sandbox root) d
          (sandboxMirrorFiles d (id.sandbox root)) with
      | mk e t =>
        simp only
        split
        · rename_i hconf
          exact .refused hprior hwalk hconf
        · rename_i hconf
          have hconf : t.conflicts = [] := by simpa using hconf
          cases hreceipt : writeReceipt h f e root id.name (.report (mkReport policy root id.name t)) with
          | mk e' durable =>
            simp only
            split
            · rename_i hprune
              exact .merged hprior hwalk hconf hreceipt
                (.inr ⟨hprune.2.1,hprune.2.2.1,hprune.2.2.2,rfl⟩) rfl
            · exact .merged hprior hwalk hconf hreceipt (.inl rfl) rfl
    · rw [sandboxDir_of_plain,if_neg hdir]
      exact .noSandbox hprior (by simpa using hdir)

end Receipts

section Mirrored

variable {h : Host} {root : Rel} {id : RunId} {q : Rel} {d : Disk h.Bytes}

/-- Every file of the sandbox is a baseline or a path the run has written, and the
run writes outside `.minimax` and `_base`. -/
structure Mirrored (root : Rel) (id : RunId) (w : World h) : Prop where
  outside : ∀ q, w.seen q ≠ none → Outside q ∧ q.head? ≠ some baseDir
  written : ∀ q b, w.mirror root id q = some b → q.head? = some baseDir ∨ w.seen q ≠ none

theorem Mirrored.of_fresh {w : World h} (hw : Fresh root id w) : Mirrored root id w where
  outside q hq := absurd (hw.seen q) hq
  written q b hb := by
    have hn := bytes_eq_some.mp hb
    by_cases hq : q = []
    · rw [hq,List.append_nil,hw.made] at hn
      simp at hn
    · rw [hw.empty q hq] at hn
      simp at hn

theorem sandbox_append (root : Rel) (id : RunId) (q : Rel) :
    id.sandbox root++q = root++minimaxDir::lit "sandboxes"::id.name::q := by
  simp [RunId.sandbox,sandboxRelpath]

theorem receipt_eq : id.receipt root =
    root++minimaxDir::lit "sandboxes"::collectedDir::[id.name++lit ".json"] := by
  simp [RunId.receipt,sandboxRelpath]

theorem noteSeen_ne_none {B : Type} {seen : Rel → Option (Option B)} {p : Rel} {cur : Option B} :
    noteSeen seen p cur q ≠ none ↔ q = p ∨ seen q ≠ none := by
  unfold noteSeen
  split
  · rename_i hc
    simp [hc.1]
  · rename_i hc
    constructor
    · exact .inr
    · rintro (rfl | hq)
      · exact fun hn => hc ⟨rfl,hn⟩
      · exact hq

theorem node_minimax_change {e : Disk h.Bytes} {p : Rel} {c : Change h.Bytes} (hp : Outside p)
    (hc : c.apply d (root++p) = some e) (x : Rel) :
    e.node (root++minimaxDir::x) = d.node (root++minimaxDir::x) :=
  node_below_minimax [p] (by simpa using frame_change hc) (by simpa using hp) x

namespace Mirrored

variable {w : World h} {f : Faults h.Bytes} {policy : Policy}

theorem outside_of_listed (hw : Mirrored root id w) {r : Rel}
    (hr : r ∈ sandboxMirrorFiles w.disk (id.sandbox root)) :
    w.seen r ≠ none ∧ Outside r ∧ ∃ b, w.mirror root id r = some b := by
  obtain ⟨_,hf,hbase,_⟩ := mem_sandboxMirrorFiles.mp hr
  obtain ⟨b,hb⟩ := isFile_iff_bytes.mp hf
  have hs : w.seen r ≠ none := (hw.written r b hb).resolve_left hbase
  exact ⟨hs,(hw.outside r hs).1,b,hb⟩

theorem frame_walk {e : Disk h.Bytes} {t : Tally h.Digest}
    (hwalk : collectFiles h f policy root (id.sandbox root) w.disk
      (sandboxMirrorFiles w.disk (id.sandbox root)) = (e,t)) :
    Frame (fun q => ∃ r ∈ sandboxMirrorFiles w.disk (id.sandbox root), root++r <+: q) w.disk e := by
  have hf := frame_foldl_collectFile (f:=f) policy root (id.sandbox root)
    (sandboxMirrorFiles w.disk (id.sandbox root)) (w.disk,Tally.start)
  unfold collectFiles at hwalk
  rwa [hwalk] at hf

theorem node_walk (hw : Mirrored root id w) {e : Disk h.Bytes}
    {t : Tally h.Digest} (hwalk : collectFiles h f policy root (id.sandbox root) w.disk
      (sandboxMirrorFiles w.disk (id.sandbox root)) = (e,t)) (x : Rel) :
    e.node (root++minimaxDir::x) = w.disk.node (root++minimaxDir::x) :=
  node_below_minimax _ (frame_walk hwalk) (fun _ hr => (hw.outside_of_listed hr).2.1) x

theorem node_collect (hw : Mirrored root id w)
    {c : Collected h} (hc : CollectCase h f policy root id w.disk c) (q : Rel) :
    c.disk.node (id.sandbox root++q) = none ∨
      c.disk.node (id.sandbox root++q) = w.disk.node (id.sandbox root++q) := by
  cases hc with
  | stands _ hdisk _ => exact hdisk.shrinks q
  | noSandbox _ _ => exact .inr rfl
  | refused _ hwalk _ =>
    right
    rw [sandbox_append]
    exact hw.node_walk hwalk _
  | @merged e e' t durable _ _ _ hwalk _ hreceipt hdisk _ =>
    have he : e.node (id.sandbox root++q) = w.disk.node (id.sandbox root++q) := by
      rw [sandbox_append]
      exact hw.node_walk hwalk _
    have he' := node_sandbox_writeReceipt f root id e
      (.report (mkReport policy root id.name t)) q
    rw [hreceipt] at he'
    rcases hdisk with hd | ⟨_,_,_,hd⟩
    · rw [hd]
      exact .inr (he'.trans he)
    · rw [hd,← he,← he']
      exact (pruneSandbox_spec f root id e').2 _

theorem mirror_collect (hw : Mirrored root id w)
    {c : Collected h} (hc : CollectCase h f policy root id w.disk c) (q : Rel) :
    c.disk.bytes (id.sandbox root++q) = none ∨ c.disk.bytes (id.sandbox root++q) = w.mirror root id q := by
  rcases hw.node_collect hc q with hn | hsame
  · exact .inl (by simp only [Tree.bytes,hn,Option.bind_none])
  · exact .inr (bytes_eq_of_node hsame)

theorem step {f : Action h} {w' : World h} (hw : Mirrored root id w)
    (hok : ∀ p b o, f = .write p b o → p.head? ≠ some baseDir) (hs : step root id w f = some w') :
    Mirrored root id w' := by
  cases f with
  | write p b o =>
    simp only [Sandbox.step,Option.ite_none_right_eq_some,Option.some.injEq] at hs
    obtain ⟨⟨_,hout⟩,rfl⟩ := hs
    constructor
    · intro q hq
      rcases noteSeen_ne_none.mp hq with rfl | hq
      · exact ⟨hout,hok _ _ _ rfl⟩
      · exact hw.outside q hq
    · intro q b' hb
      by_cases hqp : q = p
      · exact .inr (noteSeen_ne_none.mpr (.inl hqp))
      · by_cases hqb : q = baseDir::p
        · exact .inl (by simp [hqb])
        · have hsame := (frame_sandboxedWrite w.disk (id.sandbox root) root
            hout.2 b o).bytes_eq (q:=id.sandbox root++q) (by simp [hqp,hqb])
          rcases hw.written q b' (hsame.symm.trans hb) with h' | h'
          · exact .inl h'
          · exact .inr (noteSeen_ne_none.mpr (.inr h'))
  | outside p c =>
    simp only [Sandbox.step,Option.ite_none_right_eq_some,Option.map_eq_some_iff] at hs
    obtain ⟨hout,e,he,rfl⟩ := hs
    refine ⟨hw.outside,fun q b hb => hw.written q b ?_⟩
    rw [← hb]
    apply bytes_eq_of_node
    rw [sandbox_append]
    exact (node_minimax_change hout he _).symm
  | finish =>
    cases hs
    exact ⟨hw.outside,hw.written⟩
  | collect policy prune f =>
    simp only [Sandbox.step,Option.ite_none_left_eq_some,Option.some.injEq] at hs
    obtain ⟨_,rfl⟩ := hs
    refine ⟨hw.outside,fun q b hb => hw.written q b ?_⟩
    rcases hw.mirror_collect (collect_case f root id policy prune w.disk) q with hn | hsame
    · exact absurd (hn.symm.trans hb) (by simp)
    · exact hsame.symm.trans hb

end Mirrored

theorem readCollectedReport_ne_none {x : h.Bytes} (f : Faults h.Bytes)
    (hx : d.bytes (id.receipt root) = some x) (hnull : h.loads x ≠ .null) :
    readCollectedReport h f d root id.name ≠ none := by
  have hn : d.node (id.receipt root) ≠ none := by simp [bytes_eq_some.mp hx]
  unfold readCollectedReport
  rw [id.collectedMarkerPath_eq]
  cases hm : readMarker h f d ((id.receipt root).map some) with
  | none => exact absurd hm (readMarker_ne_none f hn)
  | some loaded =>
    have hl : loaded ≠ .null := by
      have hr : d.resolve [] ((id.receipt root).map some) = some (id.receipt root) := by
        simpa using resolve_map_some [] (id.receipt root) (by simpa using hn)
      simp only [readMarker,hr,exists?,hx] at hm
      rintro rfl
      split at hm
      · simp at hm
      · simp at hm
      · split at hm
        · simp at hm
        · exact hnull (Option.some.inj hm)
    cases loaded with
    | null => exact absurd rfl hl
    | object doc => simp [Loaded.prior]
    | notObject => simp [Loaded.prior]
    | invalid => simp [Loaded.prior]

theorem mirror_antichain {sb r : Rel} {b c : h.Bytes}
    (hq : d.bytes (sb++q) = some b) (hr : d.bytes (sb++r) = some c) (hpre : r <+: q) : r = q := by
  obtain ⟨x,rfl⟩ := hpre
  by_cases hx : x = []
  · simp [hx]
  · have hn := d.none_below_file hr hx
    rw [List.append_assoc,bytes_eq_some.mp hq] at hn
    simp at hn

theorem outside_of_mirror {w : World h} (hw : Mirrored root id w) {m : h.Bytes}
    (hm : w.mirror root id q = some m) : Outside q := by
  rcases hw.written q m hm with hbase | hseen
  · refine ⟨by rintro rfl; simp at hbase,?_⟩
    rw [hbase]
    decide
  · exact (hw.outside q hseen).1

theorem not_minimax_prefix (hq : Outside q) (x : Rel) : ¬ root++minimaxDir::x <+: root++q := by
  rw [List.prefix_append_right_inj]
  rintro ⟨y,rfl⟩
  exact hq.2 (by simp)

theorem bytes_workspace_writeReceipt {e : Disk h.Bytes} {f : Faults h.Bytes}
    {doc : Doc h.Digest h.Other} {durable : Bool} (hr : writeReceipt h f d root id.name doc = (e,durable)) (hq : Outside q) : e.bytes (root++q) = d.bytes (root++q) := by
  have hf := (writeReceipt_spec f root id d doc).1
  rw [hr] at hf
  apply hf.bytes_eq
  intro he
  exact not_minimax_prefix hq _ (by rw [he,receipt_eq])

theorem bytes_workspace_pruneSandbox (d : Disk h.Bytes) (f : Faults h.Bytes) (hq : Outside q) :
    (pruneSandbox h f d root id.name).1.bytes (root++q) = d.bytes (root++q) := by
  apply (pruneSandbox_spec f root id d).1.bytes_eq
  intro hpre
  have hsb := sandbox_append root id []
  rw [List.append_nil] at hsb
  exact not_minimax_prefix hq _ (hsb ▸ hpre)

end Mirrored

/-- The run `run_1` in the workspace `/w`, which is empty. -/
noncomputable def freshWorld : World plainHost where
  disk := ((Tree.empty : Disk plainHost.Bytes).mkdirs [] (runOne.sandbox demoRoot)).getD .empty
  inFlight := true
  seen _ := none
  landed _ := none
  pending := []

theorem fresh_freshWorld : Fresh demoRoot runOne freshWorld := by
  obtain ⟨e,he⟩ : ∃ e, (Tree.empty : Disk plainHost.Bytes).mkdirs [] (runOne.sandbox demoRoot) = some e :=
    mkdirs_isSome _ (node_root _) (by simp)
  have hdisk : freshWorld.disk = e := by simp [freshWorld,he]
  refine ⟨rfl,?_,fun q hq => ?_,?_,fun _ => rfl,fun _ => rfl,rfl⟩
  · rw [hdisk]
    simpa using isDir_of_mkdirs (node_root _) he
  · rw [hdisk]
    rcases node_mkdirs he (runOne.sandbox demoRoot++q) with hs | ⟨_,_,hpre⟩
    · rw [hs,node_empty,if_neg (by simp [hq])]
    · have hlen := hpre.length_le
      have hpos := List.length_pos_iff.mpr hq
      simp only [List.nil_append,List.length_append] at hlen
      omega
  · rw [hdisk]
    rcases node_mkdirs he (runOne.receipt demoRoot) with hs | ⟨_,_,hpre⟩
    · rw [hs,node_empty,if_neg (by simp [RunId.receipt])]
    · exact absurd hpre (by simpa using receipt_not_prefix_sandbox demoRoot runOne [])

end MinimaxCode.Sandbox
