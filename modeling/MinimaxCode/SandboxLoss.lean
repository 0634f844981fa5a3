import MinimaxCode.SandboxMachine

/-!
# A collect does not lose the run's work

The files of a mirror may disappear only after each of them has been found in the
workspace, and a file that a merge skipped or failed on is considered again. The
gate in front of the prune sees to this within one call. A later call replays the
receipt instead of merging and prunes without the gate, so the property holds when
every receipt that is replayed is one of a merge that left nothing over.
-/

namespace MinimaxCode.Sandbox

open PyText FileTree FileTree.Tree

section Walk

variable {h : Host} {f : Faults h.Bytes} {d : Disk h.Bytes} {policy : Policy} {root sb : Rel}
  {s : Disk h.Bytes × Tally h.Digest} {t : Tally h.Digest}

/-- The files a walk has not brought into the workspace. -/
def Tally.unlanded {D : Type} (t : Tally D) : List Rel :=
  t.conflicts.map Conflict.path++t.skipped++t.errors.map Prod.fst

theorem Turn.unlanded_mono {rel : Rel} (ht : Turn h f policy root sb d t rel s)
    {q : Rel} (hq : q ∈ t.unlanded) : q ∈ s.2.unlanded := by
  simp only [Tally.unlanded,List.mem_append] at hq ⊢
  cases ht with
  | failed e => simp only [Tally.addError,List.map_append,List.mem_append]; tauto
  | same _ _ => exact hq
  | refused c _ hc => simp only [Tally.addConflict,List.map_append,List.mem_append]; tauto
  | skipped _ => simp only [Tally.addSkipped,List.mem_append]; tauto
  | raised _ _ => simp only [Tally.addError,List.map_append,List.mem_append]; tauto
  | applied _ _ _ _ => exact hq

theorem unlanded_foldl_mono {q : Rel} (rels : List Rel)
    (s : Disk h.Bytes × Tally h.Digest) (hq : q ∈ s.2.unlanded) :
    q ∈ (rels.foldl (collectFile h f policy root sb) s).2.unlanded := by
  induction rels generalizing s with
  | nil => exact hq
  | cons r rels ih => exact ih _ ((collectFile_turn policy root sb s.1 s.2 r).unlanded_mono hq)

theorem frame_applySandbox_file (f : Faults h.Bytes) (sbFile : Rel) {wsFile : Rel} (hd : d.isDir wsFile = false) :
    Frame (fun q => q = wsFile) d (diskOf (applySandbox h f d sbFile wsFile)) := by
  unfold applySandbox
  split
  · exact .refl _ d
  · cases hm : d.mkdirs [] wsFile.dropLast with
    | none => exact .refl _ d
    | some e =>
      have hf : Frame (fun q => q = wsFile) d e := .mkdirs hm (List.dropLast_prefix wsFile) rfl
      have he : e.isDir wsFile = false := by rw [isDir_eq_of_node (node_mkdirs_dropLast hm),hd]
      exact hf.trans (frame_copy2_file he sbFile (f.copy wsFile))

theorem bytes_of_applySandbox_ok {e : Disk h.Bytes} {sbFile wsFile : Rel}
    (hd : d.isDir wsFile = false) (ha : applySandbox h f d sbFile wsFile = .ok e) :
    ∃ b, e.bytes wsFile = some b ∧ d.bytes sbFile = some b := by
  unfold applySandbox at ha
  split at ha
  · simp at ha
  · cases hm : d.mkdirs [] wsFile.dropLast with
    | none => simp [hm] at ha
    | some u =>
      simp only [hm] at ha
      have hu : u.isDir wsFile = false := by rw [isDir_eq_of_node (node_mkdirs_dropLast hm),hd]
      have hcopy := bytes_of_copy2_ok ha hu
      rw [bytes_mkdirs hm] at hcopy
      cases hb : d.bytes sbFile with
      | some b => exact ⟨b,hcopy.trans hb,rfl⟩
      | none => simp [copy2,bytes_mkdirs hm,hb] at ha

theorem Turn.frame_file {rel : Rel} (ht : Turn h f policy root sb d t rel s)
    (hd : d.isDir (root++rel) = false) : Frame (fun q => q = root++rel) d s.1 := by
  have happly := frame_applySandbox_file f (sb++rel) hd
  cases ht with
  | failed e => exact .refl _ d
  | same _ _ => exact .refl _ d
  | refused _ _ _ => exact .refl _ d
  | skipped _ => exact .refl _ d
  | raised _ ha => rwa [ha] at happly
  | applied _ _ _ ha => rwa [ha] at happly

theorem Turn.landed {rel : Rel} (ht : Turn h f policy root sb d t rel s)
    (hd : d.isDir (root++rel) = false) :
    rel ∈ s.2.unlanded ∨ ∃ b, s.1.bytes (root++rel) = some b ∧ d.bytes (sb++rel) = some b := by
  cases ht with
  | failed e => exact .inl (by simp [Tally.unlanded,Tally.addError])
  | same hws hsb => exact .inr ⟨_,hws,hsb⟩
  | refused c _ hc => exact .inl (by simp [Tally.unlanded,Tally.addConflict,hc])
  | skipped _ => exact .inl (by simp [Tally.unlanded,Tally.addSkipped])
  | raised _ _ => exact .inl (by simp [Tally.unlanded,Tally.addError])
  | applied _ _ _ ha => exact .inr (bytes_of_applySandbox_ok hd ha)

theorem landed_of_walk (f : Faults h.Bytes) (policy : Policy) (root : Rel) (id : RunId) (rels : List Rel)
    (s : Disk h.Bytes × Tally h.Digest) (hnodup : rels.Nodup)
    (hanti : ∀ r ∈ rels, ∀ r' ∈ rels, r <+: r' → r = r') (hout : ∀ r ∈ rels, Outside r)
    (hdir : ∀ r ∈ rels, s.1.isDir (root++r) = false) :
    Frame (fun q => ∃ r ∈ rels, q = root++r) s.1
      (rels.foldl (collectFile h f policy root (id.sandbox root)) s).1 ∧
    ∀ r ∈ rels, r ∈ (rels.foldl (collectFile h f policy root (id.sandbox root)) s).2.unlanded ∨
      ∃ b, (rels.foldl (collectFile h f policy root (id.sandbox root)) s).1.bytes (root++r) = some b ∧
        s.1.bytes (id.sandbox root++r) = some b := by
  induction rels generalizing s with
  | nil => exact ⟨.refl _ s.1,by simp⟩
  | cons r rels ih =>
    have hturn := collectFile_turn (f:=f) policy root (id.sandbox root) s.1 s.2 r
    have hrdir := hdir r List.mem_cons_self
    have hone := hturn.frame_file hrdir
    obtain ⟨hr,hnodup⟩ := List.nodup_cons.mp hnodup
    have hne : ∀ r' ∈ rels, r' ≠ r := by
      rintro r' hr' rfl
      exact hr hr'
    -- the turn leaves the other visited paths and the mirror alone
    have hdir' : ∀ r' ∈ rels,
        (collectFile h f policy root (id.sandbox root) s r).1.isDir (root++r') = false := by
      intro r' hr'
      have hmem := List.mem_cons_of_mem r hr'
      rw [← hdir r' hmem]
      apply isDir_eq_of_node
      apply hone.node_eq
      · exact fun he => hne r' hr' (List.append_cancel_left he)
      · rintro _ rfl hpre
        exact hne r' hr' (hanti r' hmem r List.mem_cons_self ((List.prefix_append_right_inj root).mp hpre))
    have hmirror : ∀ r', (collectFile h f policy root (id.sandbox root) s r).1.bytes
        (id.sandbox root++r') = s.1.bytes (id.sandbox root++r') := by
      intro r'
      apply bytes_eq_of_node
      rw [sandbox_append]
      exact node_below_minimax [r] (by simpa using hturn.frame)
        (by simpa using hout r List.mem_cons_self) _
    obtain ⟨hrest,hland⟩ := ih (collectFile h f policy root (id.sandbox root) s r) hnodup
      (fun a ha b hb => hanti a (List.mem_cons_of_mem r ha) b (List.mem_cons_of_mem r hb))
      (fun a ha => hout a (List.mem_cons_of_mem r ha)) hdir'
    rw [List.foldl_cons]
    refine ⟨?_,?_⟩
    · apply Frame.trans (hone.mono fun q hq => ⟨r,List.mem_cons_self,hq⟩)
      exact hrest.mono fun q ⟨a,ha,hq⟩ => ⟨a,List.mem_cons_of_mem r ha,hq⟩
    · intro a ha
      rcases List.mem_cons.mp ha with rfl | ha
      · rcases hturn.landed hrdir with hbad | ⟨b,hb,hsb⟩
        · exact .inl (unlanded_foldl_mono rels _ hbad)
        · refine .inr ⟨b,?_,hsb⟩
          rw [hrest.bytes_eq,hb]
          rintro ⟨r',hr',he⟩
          exact hne r' hr' (List.append_cancel_left he).symm
      · rcases hland a ha with hbad | ⟨b,hb,hsb⟩
        · exact .inl hbad
        · exact .inr ⟨b,hb,(hmirror a).symm.trans hsb⟩

end Walk

section Runs

variable {h : Host} {root : Rel} {id : RunId} {w w' : World h} {f : Faults h.Bytes}
  {policy : Policy} {c : Collected h}

/-- A report that left no file over. -/
def Report.clean {D : Type} (r : Report D) : Prop := r.skipped = [] ∧ r.errors = []

/-- The steps that keep the run's work. A written path does not look like a baseline
or a marker. A collect finds no earlier report and no workspace directory in the
place of a mirrored file, or it finds the report of a merge that left nothing over. -/
def KeepsWork (root : Rel) (id : RunId) (w : World h) : Action h → Prop
  | .write p _ _ => p.head? ≠ some baseDir ∧ p.head? ≠ some mergedMarker ∧
      p.getLast? ≠ some mergedMarker
  | .collect _ _ f =>
    (readCollectedReport h f w.disk root id.name = none ∧
      ∀ q, w.seen q ≠ none → w.mirror root id q ≠ none → w.disk.isDir (root++q) = false) ∨
    ∃ r : Report h.Digest,
      readCollectedReport h f w.disk root id.name = some (.mapping (.report r)) ∧ r.clean
  | _ => True

/-- What every step that keeps the run's work preserves. -/
structure Safe (root : Rel) (id : RunId) (w : World h) : Prop extends Mirrored root id w where
  named : ∀ q, w.seen q ≠ none → q.getLast? ≠ some mergedMarker
  unmarked : w.disk.node (id.sandbox root++[mergedMarker]) = none
  receipt : w.disk.node (id.receipt root) = none ∨
    ∃ x, w.disk.bytes (id.receipt root) = some x ∧ h.loads x ≠ .null
  flying : w.inFlight = true → w.disk.node (id.receipt root) = none ∧ w.pending = []
  clean : ∀ x r, w.disk.bytes (id.receipt root) = some x → h.loads x = .object (.report r) → r.clean →
    w.pending = [] ∧ ∀ q b, w.seen q ≠ none → w.mirror root id q = some b → w.landed q = some b
  held : ∀ q ∈ w.pending, w.seen q ≠ none ∧ ∃ b, w.mirror root id q = some b

theorem Safe.of_fresh (hw : Fresh root id w) : Safe root id w where
  toMirrored := .of_fresh hw
  named q hq := absurd (hw.seen q) hq
  unmarked := hw.empty _ (by simp)
  receipt := .inl hw.uncollected
  flying _ := ⟨hw.uncollected,hw.pending⟩
  clean x r hx := by simp [Tree.bytes,hw.uncollected] at hx
  held q hq := by simp [hw.pending] at hq

theorem agreed_eq_some {a b : Option h.Bytes} {c : h.Bytes} (hc : agreed h a b = some c) :
    a = some c ∧ b = some c := by
  cases a with
  | none => simp [agreed] at hc
  | some a =>
    cases b with
    | none => simp [agreed] at hc
    | some b =>
      simp only [agreed,Option.ite_none_right_eq_some,Option.some.injEq] at hc
      obtain ⟨hab,rfl⟩ := hc
      exact ⟨congrArg some (h.sha256_injective hab),rfl⟩

theorem agreed_self (b : h.Bytes) : agreed h (some b) (some b) = some b := by simp [agreed]

theorem landed_or {ws : Option h.Bytes} {b : h.Bytes} {old : Option h.Bytes} (hold : old = some b) :
    (agreed h ws (some b)).or old = some b := by
  cases ha : agreed h ws (some b) with
  | none => simpa using hold
  | some c =>
    have hc := (agreed_eq_some ha).2
    rw [Option.some_or,hc]

theorem receipt_of_prior {d : Disk h.Bytes} {r : Report h.Digest}
    (hd : d.node (id.sandbox root++[mergedMarker]) = none)
    (hr : readCollectedReport h f d root id.name = some (.mapping (.report r))) :
    ∃ x, d.bytes (id.receipt root) = some x ∧ h.loads x = .object (.report r) := by
  have hread : ∀ {p : Rel} {loaded : Loaded h.Digest h.Other},
      readMarker h f d (p.map some) = some loaded → loaded.prior = some (.mapping (.report r)) →
      ∃ x, d.bytes p = some x ∧ h.loads x = .object (.report r) := by
    intro p loaded hm hl
    have hobj : loaded = .object (.report r) := by
      cases loaded with
      | object doc => simpa [Loaded.prior] using hl
      | null => simp [Loaded.prior] at hl
      | notObject => simp [Loaded.prior] at hl
      | invalid => simp [Loaded.prior] at hl
    subst hobj
    simp only [readMarker] at hm
    cases hp : d.resolve [] (p.map some) with
    | none => simp [hp] at hm
    | some q =>
      have hq : q = p := by rw [resolve_eq_lexical hp,lexical_map_some,List.nil_append]
      subst q
      simp only [hp] at hm
      split at hm
      · simp at hm
      · simp at hm
      · split at hm
        · simp at hm
        · cases hb : d.bytes p with
          | none => simp [hb] at hm
          | some x => exact ⟨x,rfl,by simpa [hb] using hm⟩
  unfold readCollectedReport at hr
  have hlegacy : (id.sandbox root).map some++[some mergedMarker] =
      (id.sandbox root++[mergedMarker]).map some := by simp
  rw [id.collectedMarkerPath_eq,id.sandboxRootFor_eq,hlegacy] at hr
  cases hm : readMarker h f d ((id.receipt root).map some) with
  | some loaded =>
    simp only [hm] at hr
    exact hread hm hr
  | none =>
    simp only [hm] at hr
    cases hl : readMarker h f d ((id.sandbox root++[mergedMarker]).map some) with
    | none =>
      rw [hl] at hr
      simp at hr
    | some loaded =>
      simp only [hl] at hr
      obtain ⟨x,hx,_⟩ := hread hl hr
      simp [Tree.bytes,hd] at hx

theorem Safe.congr (hw : Safe root id w) (hmir : Mirrored root id w')
    (hseen : w'.seen = w.seen) (hfly : w'.inFlight = true → w.inFlight = true)
    (hland : w'.landed = w.landed) (hpend : w'.pending = w.pending)
    (hnode : ∀ x, w'.disk.node (root++minimaxDir::x) = w.disk.node (root++minimaxDir::x)) :
    Safe root id w' := by
  have hr : w'.disk.node (id.receipt root) = w.disk.node (id.receipt root) := by
    rw [receipt_eq]
    exact hnode _
  have hsb : ∀ q, w'.disk.node (id.sandbox root++q) = w.disk.node (id.sandbox root++q) := by
    intro q
    rw [sandbox_append]
    exact hnode _
  have hm : ∀ q, w'.mirror root id q = w.mirror root id q := fun q => bytes_eq_of_node (hsb q)
  refine ⟨hmir,?_,?_,?_,?_,?_,?_⟩
  · rw [hseen]
    exact hw.named
  · rw [hsb]
    exact hw.unmarked
  · rw [hr,bytes_eq_of_node hr]
    exact hw.receipt
  · intro hf
    rw [hr,hpend]
    exact hw.flying (hfly hf)
  · intro x r hx hl hc
    rw [bytes_eq_of_node hr] at hx
    simp only [hseen,hland,hpend,hm]
    exact hw.clean x r hx hl hc
  · simp only [hseen,hpend,hm]
    exact hw.held

theorem Safe.write (hw : Safe root id w) {p : Rel} {b : Option h.Bytes}
    {o : CopyOutcome h.Bytes} (hok : KeepsWork root id w (.write p b o))
    (hs : step root id w (.write p b o) = some w') : Safe root id w' := by
  obtain ⟨hbase,hhead,hlast⟩ := hok
  have hmir : Mirrored root id w' := hw.toMirrored.step (by rintro _ _ _ ⟨⟩; exact hbase) hs
  simp only [step,Option.ite_none_right_eq_some,Option.some.injEq] at hs
  obtain ⟨⟨hfly,hout⟩,rfl⟩ := hs
  have hframe := frame_sandboxedWrite w.disk (id.sandbox root) root hout.2 b o
  have hnone : (sandboxedWrite w.disk (id.sandbox root) root p b o).1.node (id.receipt root) = none := by
    have hfar : ∀ r, r = id.sandbox root++p ∨ r = id.sandbox root++[baseDir]++p →
        ¬ id.receipt root <+: r := by
      rintro r (rfl | rfl)
      · exact receipt_not_prefix_sandbox root id p
      · rw [List.append_assoc]
        exact receipt_not_prefix_sandbox root id _
    rw [hframe.node_eq (fun hr => hfar _ hr List.prefix_rfl) hfar,(hw.flying hfly).1]
  have hpend := (hw.flying hfly).2
  refine ⟨hmir,?_,?_,.inl hnone,fun _ => ⟨hnone,hpend⟩,?_,?_⟩
  · intro q hq
    rcases noteSeen_ne_none.mp hq with rfl | hq
    · exact hlast
    · exact hw.named q hq
  · have hfar : ∀ r, r = id.sandbox root++p ∨ r = id.sandbox root++[baseDir]++p →
        ¬ id.sandbox root++[mergedMarker] <+: r := by
      rintro r (rfl | rfl) hpre
      · rw [List.prefix_append_right_inj] at hpre
        obtain ⟨x,rfl⟩ := hpre
        exact hhead (by simp)
      · rw [List.append_assoc,List.prefix_append_right_inj,List.singleton_append,
          List.cons_prefix_cons] at hpre
        exact absurd hpre.1 (by decide)
    show (sandboxedWrite w.disk (id.sandbox root) root p b o).1.node _ = none
    rw [hframe.node_eq (fun hr => hfar _ hr List.prefix_rfl) hfar,hw.unmarked]
  · intro x r hx
    simp [Tree.bytes,hnone] at hx
  · intro q hq
    rw [show w.pending = [] from hpend] at hq
    simp at hq

theorem Safe.listed (hw : Safe root id w) {q : Rel} {b : h.Bytes} (hq : w.seen q ≠ none)
    (hb : w.mirror root id q = some b) : q ∈ sandboxMirrorFiles w.disk (id.sandbox root) :=
  mem_sandboxMirrorFiles.mpr ⟨(hw.outside q hq).1.1,isFile_iff_bytes.mpr ⟨b,hb⟩,(hw.outside q hq).2,
    hw.named q hq⟩

theorem Safe.landed_of_walk (hw : Safe root id w)
    (hdir : ∀ q, w.seen q ≠ none → w.mirror root id q ≠ none → w.disk.isDir (root++q) = false)
    {e : Disk h.Bytes} {t : Tally h.Digest}
    (hwalk : collectFiles h f policy root (id.sandbox root) w.disk
      (sandboxMirrorFiles w.disk (id.sandbox root)) = (e,t)) {q : Rel} {b : h.Bytes}
    (hq : w.seen q ≠ none) (hb : w.mirror root id q = some b) :
    q ∈ t.unlanded ∨ e.bytes (root++q) = some b := by
  have hmem := hw.listed hq hb
  have hland := (Sandbox.landed_of_walk f policy root id
    (sandboxMirrorFiles w.disk (id.sandbox root)) (w.disk,Tally.start)
    (sandboxMirrorFiles_nodup _ _)
    (fun r hr r' hr' hpre => by
      obtain ⟨_,_,c,hc⟩ := hw.outside_of_listed hr
      obtain ⟨_,_,c',hc'⟩ := hw.outside_of_listed hr'
      exact mirror_antichain hc' hc hpre)
    (fun r hr => (hw.outside_of_listed hr).2.1)
    (fun r hr => by
      obtain ⟨hs,_,c,hc⟩ := hw.outside_of_listed hr
      exact hdir r hs (by simp [hc]))).2 q hmem
  unfold collectFiles at hwalk
  rw [hwalk] at hland
  rcases hland with hbad | ⟨c,hc,hsb⟩
  · exact .inl hbad
  · have hcb : c = b := Option.some.inj (hsb.symm.trans hb)
    exact .inr (hcb ▸ hc)

/-- What a collect owes the run: a safe world afterwards, no file gone that has not
landed, and every pending file considered. -/
def Owed (root : Rel) (id : RunId) (w : World h) (c : Collected h) : Prop :=
  Safe root id (w.after root id c) ∧
  (∀ q b, w.seen q ≠ none → w.mirror root id q = some b →
    (w.after root id c).mirror root id q = some b ∨ (w.after root id c).landed q = some b) ∧
  ∀ q ∈ w.pending, q ∈ c.result.considered

theorem Safe.owed_replay (hw : Safe root id w) (hland : w.inFlight = false) {r : Report h.Digest} (hclean : r.clean)
    (hprior : readCollectedReport h f w.disk root id.name = some (.mapping (.report r))) (hmir : Mirrored root id (w.after root id c))
    (hdisk : Replayed h root id w.disk c.disk)
    (hres : c.result = .crashed ∨ ∃ doc pruned, c.result = .replayed doc pruned) : Owed root id w c := by
  obtain ⟨x,hx,hl⟩ := receipt_of_prior hw.unmarked hprior
  obtain ⟨hpend,hlanded⟩ := hw.clean x r hx hl hclean
  have hrec : c.disk.node (id.receipt root) = w.disk.node (id.receipt root) := by
    refine hdisk.receipt.resolve_right fun hn => ?_
    simp [Tree.bytes,hn.1] at hx
  have hpend' : (w.after root id c).pending = [] := by
    show c.result.pending w.pending = []
    rcases hres with hr | ⟨doc,pruned,hr⟩ <;> rw [hr] <;> exact hpend
  have hlanded' : ∀ q b, w.seen q ≠ none → w.mirror root id q = some b →
      (w.after root id c).landed q = some b := by
    intro q b hq hb
    show (agreed h _ (w.mirror root id q)).or (w.landed q) = some b
    rw [hb]
    exact landed_or (hlanded q b hq hb)
  refine ⟨⟨hmir,hw.named,?_,?_,fun hf => ?_,fun y r' _ _ _ => ⟨hpend',?_⟩,?_⟩,?_,?_⟩
  · rcases hdisk.shrinks [mergedMarker] with hn | hs
    · exact hn
    · exact hs.trans hw.unmarked
  · show c.disk.node _ = none ∨ ∃ x, c.disk.bytes _ = some x ∧ _
    rw [hrec,bytes_eq_of_node hrec]
    exact hw.receipt
  · exact absurd (hland.symm.trans hf) (by simp)
  · intro q b hq hb
    apply hlanded' q b hq
    rcases hdisk.shrinks q with hn | hs
    · have hgone : c.disk.bytes (id.sandbox root++q) = none := by simp only [Tree.bytes,hn,Option.bind_none]
      exact absurd (hgone.symm.trans hb) (by simp)
    · exact (bytes_eq_of_node hs).symm.trans hb
  · intro q hq
    rw [hpend'] at hq
    simp at hq
  · exact fun q b hq hb => .inr (hlanded' q b hq hb)
  · intro q hq
    rw [hpend] at hq
    simp at hq

theorem Safe.owed_unreceipted (hw : Safe root id w) (hland : w.inFlight = false) (hmir : Mirrored root id (w.after root id c))
    (hsb : ∀ q, c.disk.node (id.sandbox root++q) = w.disk.node (id.sandbox root++q))
    (hrec : c.disk.node (id.receipt root) = none ∨ c.disk.bytes (id.receipt root) = some h.torn)
    (hpend : ∀ q ∈ c.result.pending w.pending, q ∈ sandboxMirrorFiles w.disk (id.sandbox root))
    (hcon : ∀ q ∈ w.pending, q ∈ c.result.considered) : Owed root id w c := by
  have hm : ∀ q, (w.after root id c).mirror root id q = w.mirror root id q :=
    fun q => bytes_eq_of_node (hsb q)
  refine ⟨⟨hmir,hw.named,(hsb _).trans hw.unmarked,?_,fun hf => ?_,?_,?_⟩,?_,hcon⟩
  · rcases hrec with hn | ht
    · exact .inl hn
    · exact .inr ⟨_,ht,by simp [h.loads_torn]⟩
  · exact absurd (hland.symm.trans hf) (by simp)
  · intro x r hx hl
    replace hx : c.disk.bytes (id.receipt root) = some x := hx
    rcases hrec with hn | ht
    · simp [Tree.bytes,hn] at hx
    · rw [ht] at hx
      rw [← Option.some.inj hx,h.loads_torn] at hl
      simp at hl
  · intro q hq
    obtain ⟨hs,_,b,hb⟩ := hw.outside_of_listed (hpend q hq)
    exact ⟨hs,b,(hm q).trans hb⟩
  · exact fun q b _ hb => .inl ((hm q).trans hb)

theorem Safe.owed_receipted (hw : Safe root id w) (hland : w.inFlight = false) {t : Tally h.Digest} {pruned : Option Bool}
    (hmir : Mirrored root id (w.after root id c))
    (hres : c.result = .collected (mkReport policy root id.name t) pruned)
    (hconf : t.conflicts = [])
    (hsb : ∀ q, c.disk.node (id.sandbox root++q) = none ∨
      c.disk.node (id.sandbox root++q) = w.disk.node (id.sandbox root++q))
    (hstands : t.skipped = [] ∧ t.errors = [] ∨
      ∀ q, c.disk.node (id.sandbox root++q) = w.disk.node (id.sandbox root++q))
    (hrec : c.disk.bytes (id.receipt root) = some (h.dumps (.report (mkReport policy root id.name t))))
    (hwalk : ∀ q b, w.seen q ≠ none → w.mirror root id q = some b →
      q ∈ t.unlanded ∨ c.disk.bytes (root++q) = some b)
    (hpend : ∀ q ∈ t.skipped++t.errors.map Prod.fst,
      q ∈ sandboxMirrorFiles w.disk (id.sandbox root))
    (hcon : ∀ q ∈ w.pending, q ∈ c.result.considered) : Owed root id w c := by
  have hpend' : (w.after root id c).pending = t.skipped++t.errors.map Prod.fst := by
    show c.result.pending w.pending = _
    rw [hres]
    rfl
  have hlanded : t.skipped = [] → t.errors = [] → ∀ q b, w.seen q ≠ none →
      w.mirror root id q = some b → (w.after root id c).landed q = some b := by
    intro hskip herr q b hq hb
    have hws := (hwalk q b hq hb).resolve_left (by simp [Tally.unlanded,hconf,hskip,herr])
    show (agreed h (c.disk.bytes (root++q)) (w.mirror root id q)).or (w.landed q) = some b
    rw [hws,hb,agreed_self,Option.some_or]
  refine ⟨⟨hmir,hw.named,?_,.inr ⟨_,hrec,by simp [h.loads_dumps]⟩,fun hf => ?_,?_,?_⟩,?_,hcon⟩
  · rcases hsb [mergedMarker] with hn | hs
    · exact hn
    · exact hs.trans hw.unmarked
  · exact absurd (hland.symm.trans hf) (by simp)
  · intro x r hx hl hclean
    replace hx : c.disk.bytes (id.receipt root) = some x := hx
    rw [hrec] at hx
    rw [← Option.some.inj hx,h.loads_dumps] at hl
    have hr : mkReport policy root id.name t = r := by simpa using hl
    subst hr
    obtain ⟨hskip,herr⟩ : t.skipped = [] ∧ t.errors = [] := hclean
    refine ⟨by rw [hpend',hskip,herr]; rfl,?_⟩
    intro q b hq hb
    apply hlanded hskip herr q b hq
    rcases hsb q with hn | hs
    · have hgone : c.disk.bytes (id.sandbox root++q) = none := by simp only [Tree.bytes,hn,Option.bind_none]
      exact absurd (hgone.symm.trans hb) (by simp)
    · exact (bytes_eq_of_node hs).symm.trans hb
  · intro q hq
    rw [hpend'] at hq
    rcases hstands with ⟨hskip,herr⟩ | hstands
    · simp [hskip,herr] at hq
    · obtain ⟨hs,_,b,hb⟩ := hw.outside_of_listed (hpend q hq)
      exact ⟨hs,b,(bytes_eq_of_node (hstands q)).trans hb⟩
  · intro q b hq hb
    rcases hstands with ⟨hskip,herr⟩ | hstands
    · exact .inr (hlanded hskip herr q b hq hb)
    · exact .inl ((bytes_eq_of_node (hstands q)).trans hb)

theorem Safe.owed (hw : Safe root id w) (hland : w.inFlight = false)
    {prune : Bool} (hok : KeepsWork root id w (.collect policy prune f))
    (hmir : Mirrored root id
      (w.after root id (collectSandboxRun h f policy prune root id.name w.disk))) :
    Owed root id w (collectSandboxRun h f policy prune root id.name w.disk) := by
  have hcase := collect_case f root id policy prune w.disk
  rcases hok with ⟨hnone,hdir⟩ | ⟨r,hprior,hclean⟩
  · have hcon : ∀ q ∈ w.pending,
        q ∈ (collectSandboxRun h f policy prune root id.name w.disk).result.considered := by
      intro q hq
      obtain ⟨hs,b,hb⟩ := hw.held q hq
      have hdirsb : w.disk.isDir (id.sandbox root) :=
        isDir_iff.mpr (w.disk.ancestor_dir (hw.outside q hs).1.1 (by simp [bytes_eq_some.mp hb]))
      rw [mem_considered_iff,sandboxFilesWritten_of_dir hdirsb]
      exact ⟨hnone,hw.listed hs hb⟩
    have hrec : w.disk.node (id.receipt root) = none := by
      rcases hw.receipt with hn | ⟨x,hx,hnull⟩
      · exact hn
      · exact absurd hnone (readCollectedReport_ne_none f hx hnull)
    have hpaths : ∀ {e : Disk h.Bytes} {t : Tally h.Digest},
        collectFiles h f policy root (id.sandbox root) w.disk
          (sandboxMirrorFiles w.disk (id.sandbox root)) = (e,t) →
        ∀ q ∈ t.skipped++t.errors.map Prod.fst, q ∈ sandboxMirrorFiles w.disk (id.sandbox root) := by
      intro e t hwalk q hq
      have hmem := mem_paths_collectFiles (f:=f) policy root (id.sandbox root) w.disk
        (sandboxMirrorFiles w.disk (id.sandbox root)) q
      rw [hwalk] at hmem
      apply hmem.mp
      simp only [Tally.paths,List.mem_append] at hq ⊢
      tauto
    generalize collectSandboxRun h f policy prune root id.name w.disk = c at hcase hmir hcon
    cases hcase with
    | stands hprior _ _ => exact absurd hnone hprior
    | noSandbox _ hd =>
      refine hw.owed_unreceipted hland hmir (fun _ => rfl) (.inl hrec) ?_ hcon
      intro q hq
      obtain ⟨hs,b,hb⟩ := hw.held q hq
      exact hw.listed hs hb
    | refused _ hwalk _ =>
      refine hw.owed_unreceipted hland hmir (fun q => ?_) (.inl ?_) (hpaths hwalk) hcon
      · rw [sandbox_append]
        exact hw.node_walk hwalk _
      · rw [receipt_eq,hw.node_walk hwalk,← receipt_eq,hrec]
    | @merged e e' t durable pruned _ _ hwalk hconf hreceipt hdisk hres =>
      have he : ∀ q, e.node (id.sandbox root++q) = w.disk.node (id.sandbox root++q) := by
        intro q
        rw [sandbox_append]
        exact hw.node_walk hwalk _
      have he' := node_sandbox_writeReceipt f root id e
        (.report (mkReport policy root id.name t))
      obtain ⟨_,hdone,hfail⟩ := writeReceipt_spec f root id e
        (.report (mkReport policy root id.name t))
      rw [hreceipt] at he' hdone hfail
      cases durable with
      | false =>
        have hd : c.disk = e' := hdisk.resolve_right fun hp => by simp at hp
        refine hw.owed_unreceipted hland hmir (fun q => ?_) ?_ (by rw [hres]; exact hpaths hwalk) hcon
        · rw [hd]
          exact (he' q).trans (he q)
        · rw [hd]
          refine (hfail rfl).imp_left fun hs => ?_
          rw [receipt_eq] at hrec hs ⊢
          exact hs.trans ((hw.node_walk hwalk _).trans hrec)
      | true =>
        have hws : ∀ q, Outside q → c.disk.bytes (root++q) = e.bytes (root++q) := by
          intro q hq
          rw [← bytes_workspace_writeReceipt hreceipt hq]
          rcases hdisk with hd | ⟨_,_,_,hd⟩
          · rw [hd]
          · rw [hd,bytes_workspace_pruneSandbox e' f hq]
        refine hw.owed_receipted hland hmir hres hconf (fun q => ?_) ?_ ?_ ?_ (hpaths hwalk) hcon
        · rcases hdisk with hd | ⟨_,_,_,hd⟩
          · rw [hd]
            exact .inr ((he' q).trans (he q))
          · rw [hd,← he q,← he' q]
            exact (pruneSandbox_spec f root id e').2 _
        · rcases hdisk with hd | ⟨_,herr,hskip,_⟩
          · right
            intro q
            rw [hd]
            exact (he' q).trans (he q)
          · exact .inl ⟨hskip,herr⟩
        · rw [← hdone rfl]
          rcases hdisk with hd | ⟨_,_,_,hd⟩
          · rw [hd]
          · rw [hd,bytes_eq_of_node (node_receipt_pruneSandbox f root id e')]
        · intro q b hq hb
          rw [hws q (hw.outside q hq).1]
          exact hw.landed_of_walk hdir hwalk hq hb
  · generalize collectSandboxRun h f policy prune root id.name w.disk = c at hcase hmir
    cases hcase with
    | stands _ hdisk hres => exact hw.owed_replay hland hclean hprior hmir hdisk hres
    | noSandbox hnone _ => simp [hprior] at hnone
    | refused hnone _ _ => simp [hprior] at hnone
    | merged hnone _ _ _ _ _ => simp [hprior] at hnone

theorem Safe.step (hw : Safe root id w) {a : Action h} (hok : KeepsWork root id w a)
    (hs : step root id w a = some w') : Safe root id w' := by
  have hmir : Mirrored root id w' := by
    refine hw.toMirrored.step ?_ hs
    rintro p b o rfl
    exact hok.1
  cases a with
  | write p b o => exact hw.write hok hs
  | outside p c =>
    simp only [Sandbox.step,Option.ite_none_right_eq_some,Option.map_eq_some_iff] at hs
    obtain ⟨hout,e,he,rfl⟩ := hs
    exact hw.congr hmir rfl (fun hf => hf) rfl rfl (node_minimax_change hout he)
  | finish =>
    cases hs
    exact hw.congr hmir rfl (by simp) rfl rfl fun _ => rfl
  | collect policy prune f =>
    simp only [Sandbox.step,Option.ite_none_left_eq_some,Option.some.injEq] at hs
    obtain ⟨hfly,rfl⟩ := hs
    exact (hw.owed (by simpa using hfly) hok hmir).1

/-- In every run whose steps keep the run's work, a collect removes a file the run has
written only when its bytes have been found in the workspace at the end of a collect,
and considers every file the last merge reported as skipped or failed. -/
theorem collect_loses_nothing {w₀ w w' : World h} {as : List (Action h)} {policy : Policy}
    {prune : Bool} {f : Faults h.Bytes} (hfresh : Fresh root id w₀)
    (hrun : Runs.Run (Sandbox.step root id) (KeepsWork root id) w₀ as w)
    (hok : KeepsWork root id w (.collect policy prune f))
    (hs : Sandbox.step root id w (.collect policy prune f) = some w') :
    (∀ q b, w.seen q ≠ none → w.mirror root id q = some b →
      w'.mirror root id q = some b ∨ w'.landed q = some b) ∧
    ∀ q ∈ w.pending,
      q ∈ (collectSandboxRun h f policy prune root id.name w.disk).result.considered := by
  have hinv : Safe root id w :=
    hrun.invariant (fun _ _ _ hok hs hw => hw.step hok hs) (.of_fresh hfresh)
  have hmir : Mirrored root id w' := hinv.toMirrored.step (by simp) hs
  simp only [Sandbox.step,Option.ite_none_left_eq_some,Option.some.injEq] at hs
  obtain ⟨hfly,rfl⟩ := hs
  exact (hinv.owed (by simpa using hfly) hok hmir).2

end Runs

/-- A clean merge, a prune and a second collect. -/
theorem collect_loses_nothing_plain :
    ∃ w w' : World plainHost,
      step demoRoot runOne w (.collect .fail true (.none _)) = some w' ∧
      w.mirror demoRoot runOne [lit "a"] = some (Content.raw 1) ∧
      (w'.mirror demoRoot runOne [lit "a"] = some (Content.raw 1) ∨
        w'.landed [lit "a"] = some (Content.raw 1)) := by
  let w₁ := Runs.last (step demoRoot runOne) freshWorld [.write [lit "a"] (some (.raw 1)) .done]
  let w₂ := Runs.last (step demoRoot runOne) w₁ [.finish]
  let w₃ := Runs.last (step demoRoot runOne) w₂ [.collect .fail true (.none _)]
  have h₁ : step demoRoot runOne freshWorld (.write [lit "a"] (some (.raw 1)) .done) = some w₁ :=
    Runs.step_last (by decide +kernel)
  have h₂ : step demoRoot runOne w₁ .finish = some w₂ := Runs.step_last rfl
  have h₃ : step demoRoot runOne w₂ (.collect .fail true (.none _)) = some w₃ :=
    Runs.step_last (by decide +kernel)
  have hrun : Runs.Run (step demoRoot runOne) (KeepsWork demoRoot runOne) freshWorld
      [.write [lit "a"] (some (.raw 1)) .done,.finish] w₂ :=
    .succ (by unfold KeepsWork; decide) h₁ (.succ trivial h₂ (.refl _))
  have hok : KeepsWork demoRoot runOne w₂ (.collect .fail true (.none _)) := by
    left
    have hnone : (readCollectedReport plainHost (.none _) w₂.disk demoRoot runOne.name).isNone := by
      decide +kernel
    refine ⟨Option.isNone_iff_eq_none.mp hnone,fun q hq _ => ?_⟩
    have hqa : q = [lit "a"] := by
      rcases noteSeen_ne_none.mp hq with he | hn
      · exact he
      · exact absurd rfl hn
    subst hqa
    decide +kernel
  have hm : w₂.mirror demoRoot runOne [lit "a"] = some (Content.raw 1) := by decide +kernel
  have hseen : w₂.seen [lit "a"] ≠ none := by decide +kernel
  exact ⟨w₂,w₃,h₃,hm,(collect_loses_nothing fresh_freshWorld hrun hok h₃).1 _ _ hseen hm⟩

/-- A run edits a file that somebody else edits too. A collect with `skip` reports the
file as skipped and keeps the tree; the next collect, with `overwrite`, replays that
report and prunes the tree, and the run's bytes are nowhere. -/
theorem collect_loses_skipped_file :
    ∃ (w₀ w w' : World plainHost) (as : List (Action plainHost)) (q : Rel),
      Fresh demoRoot runOne w₀ ∧ Runs.Run (step demoRoot runOne) Runs.always w₀ as w ∧
      step demoRoot runOne w (.collect .overwrite true (.none _)) = some w' ∧
      w.seen q ≠ none ∧ w.mirror demoRoot runOne q = some (Content.raw 2) ∧ q ∈ w.pending ∧
      w'.mirror demoRoot runOne q = none ∧ w'.landed q = none ∧
      w'.workspace demoRoot q = some (Content.raw 3) ∧
      q ∉ (collectSandboxRun plainHost (.none _) .overwrite true demoRoot runOne.name
        w.disk).result.considered := by
  refine ⟨freshWorld,_,_,[.outside [lit "a"] (.write (.raw 1)),.write [lit "a"] (some (.raw 2)) .done,
    .outside [lit "a"] (.write (.raw 3)),.finish,.collect .skip true (.none _)],[lit "a"],
    fresh_freshWorld,Runs.run_last (by decide +kernel),Runs.step_last (by decide +kernel),
    ?_,?_,?_,?_,?_,?_,?_⟩
  all_goals decide +kernel

end MinimaxCode.Sandbox
