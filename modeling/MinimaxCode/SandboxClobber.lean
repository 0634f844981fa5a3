import MinimaxCode.SandboxMachine

/-!
# A collect does not overwrite independent work

A collect that neither overwrites conflicts nor meets one changes a workspace file
only if the workspace still holds what the run first saw there. This rests on the
baseline being that first content, which the lazy snapshot does not ensure: a
file created between two writes of the run is snapshotted at the second one.
-/

namespace MinimaxCode.Sandbox

open PyText FileTree FileTree.Tree

section Walk

variable {h : Host} {f : Faults h.Bytes}

theorem Unmoved.congr {root sb q : Rel} {d e : Disk h.Bytes}
    (hbase : e.node (sb++[baseDir]++q) = d.node (sb++[baseDir]++q))
    (hws : e.bytes (root++q) = d.bytes (root++q)) (hu : Unmoved h f root sb e q) :
    Unmoved h f root sb d q := by
  have hb := bytes_eq_of_node hbase
  simpa only [Unmoved,hbase,hb,hws] using hu

theorem unmoved_of_walk (f : Faults h.Bytes) {policy : Policy} (hpol : policy ≠ .overwrite)
    (root sb : Rel) {q : Rel}
    (rels : List Rel) (s : Disk h.Bytes × Tally h.Digest)
    (hq : ∀ r ∈ rels, root++r <+: root++q → r = q)
    (hsb : ∀ r ∈ rels, ∀ d e : Disk h.Bytes, Frame (fun p => root++r <+: p) d e →
      e.node (sb++[baseDir]++q) = d.node (sb++[baseDir]++q))
    (hch : (rels.foldl (collectFile h f policy root sb) s).1.bytes (root++q) ≠ s.1.bytes (root++q)) :
    q ∈ rels ∧ Unmoved h f root sb s.1 q := by
  induction rels generalizing s with
  | nil => exact absurd rfl hch
  | cons r rels ih =>
    have hturn := collectFile_turn (f:=f) policy root sb s.1 s.2 r
    have hbase := hsb r List.mem_cons_self _ _ hturn.frame
    have ih := ih (collectFile h f policy root sb s r)
      (fun r' hr' => hq r' (List.mem_cons_of_mem r hr'))
      (fun r' hr' => hsb r' (List.mem_cons_of_mem r hr'))
    rw [List.foldl_cons] at hch
    by_cases hfirst : (collectFile h f policy root sb s r).1.bytes (root++q) = s.1.bytes (root++q)
    · obtain ⟨hmem,hu⟩ := ih (by rwa [hfirst])
      exact ⟨List.mem_cons_of_mem r hmem,hu.congr hbase hfirst⟩
    · -- only the turn of the file itself changes it
      have hrq : r = q := by
        by_contra hne
        apply hfirst
        exact hturn.frame.bytes_eq fun hpre => hne (hq r List.mem_cons_self hpre)
      subst r
      refine ⟨List.mem_cons_self,?_⟩
      have hcase : Turn h f policy root sb s.1 s.2 q (collectFile h f policy root sb s q) := hturn
      generalize collectFile h f policy root sb s q = s' at hcase hfirst
      cases hcase with
      | failed e => exact absurd rfl hfirst
      | same _ _ => exact absurd rfl hfirst
      | refused _ _ _ => exact absurd rfl hfirst
      | skipped _ => exact absurd rfl hfirst
      | raised hc _ => exact hc.resolve_left hpol
      | applied _ _ hc _ => exact hc.resolve_left hpol

end Walk

section Runs

variable {h : Host} {root : Rel} {id : RunId} {w w' : World h} {d : Disk h.Bytes} {p : Rel}
  {f : Faults h.Bytes} {policy : Policy} {prune : Bool}

/-- Nothing prevents a file from being created: there is no entry, and no file on the way. -/
def Creatable {B : Type} (d : Disk B) (p : Rel) : Prop :=
  d.node p = none ∧ ∀ q, q <+: p → d.bytes q = none

/-- The steps that keep the baseline the first content. A written path does not start
with `_base`. At the first write of an existing file the copy is made; at a later
write of a path that held no file, there is still none. A collect can read the
workspace files that have no baseline. -/
def KeepsBaseline (root : Rel) (id : RunId) (w : World h) : Action h → Prop
  | .write p _ o =>
    p.head? ≠ some baseDir ∧
    match w.seen p with
    | none => w.workspace root p ≠ none → o = .done ∧
      (∀ q, q <+: (id.sandbox root++p).dropLast → w.disk.bytes q = none) ∧
      Creatable w.disk (id.sandbox root++[baseDir]++p)
    | some none => w.workspace root p = none
    | some (some _) => True
  | .collect _ _ f => ∀ q, w.mirror root id q ≠ none →
      w.disk.node (id.sandbox root++[baseDir]++q) = none → w.workspace root q ≠ none →
      f.read (root++q) = false
  | _ => True

/-- While no receipt stands, the baselines are the contents the run first saw. -/
structure FirstSeen (root : Rel) (id : RunId) (w : World h) : Prop extends Mirrored root id w where
  receipt : w.disk.node (id.receipt root) = none ∨
    ∃ x, w.disk.bytes (id.receipt root) = some x ∧ h.loads x ≠ .null
  flying : w.inFlight = true → w.disk.node (id.receipt root) = none
  first : w.disk.node (id.receipt root) = none → ∀ q, w.baseline root id q = (w.seen q).join

theorem FirstSeen.of_fresh (hw : Fresh root id w) : FirstSeen root id w where
  toMirrored := .of_fresh hw
  receipt := .inl hw.uncollected
  flying _ := hw.uncollected
  first _ q := by
    rw [hw.seen q,Option.join_none,World.baseline,List.append_assoc]
    simp [Tree.bytes,hw.empty]

theorem bytes_baseline_sandboxedWrite {sb : Rel} (hmin : p.head? ≠ some minimaxDir)
    (b : Option h.Bytes) (o : CopyOutcome h.Bytes) :
    (sandboxedWrite d sb root p b o).1.bytes (sb++[baseDir]++p) =
      ((d.mkdirs [] (sb++p).dropLast).elim d fun e =>
        takeBaseline e sb root (root++p) o).bytes (sb++[baseDir]++p) := by
  have hne : sb++[baseDir]++p ≠ sb++p := by
    intro he
    have hlen := congrArg List.length he
    simp at hlen
  rw [sandboxedWrite_fst d hmin,redirectWriteTarget_mirror d hmin]
  simp only
  cases hw : b.bind (toolWrite _ (sb++p)) with
  | none => rfl
  | some e' =>
    obtain ⟨x,_,hx⟩ := Option.bind_eq_some_iff.mp hw
    exact (frame_toolWrite (P:=fun q => q = sb++p) rfl hx).bytes_eq hne

theorem baseline_kept {sb : Rel} (hmin : p.head? ≠ some minimaxDir)
    (b : Option h.Bytes) (o : CopyOutcome h.Bytes)
    (hc : d.bytes (root++p) = none ∨ d.node (sb++[baseDir]++p) ≠ none) :
    (sandboxedWrite d sb root p b o).1.bytes (sb++[baseDir]++p) = d.bytes (sb++[baseDir]++p) := by
  rw [bytes_baseline_sandboxedWrite hmin]
  cases hm : d.mkdirs [] (sb++p).dropLast with
  | none => rfl
  | some e =>
    have hsame : takeBaseline e sb root (root++p) o = e := by
      unfold takeBaseline
      rcases hc with hws | hb
      · rw [if_neg]
        rw [isFile_iff_bytes,bytes_mkdirs hm,hws]
        simp
      · have hb' : (e.node (sb++[baseDir]++p)).isNone = false := by
          rw [node_mkdirs_of_ne_none hm hb]
          exact Option.isNone_eq_false_iff.mpr (Option.isSome_iff_ne_none.mpr hb)
        simp only [List.drop_left,hb',Bool.false_eq_true,if_false,ite_self]
    simp only [Option.elim_some,hsame]
    exact bytes_mkdirs hm _

theorem baseline_taken {sb : Rel} {c : h.Bytes} (hmin : p.head? ≠ some minimaxDir)
    (b : Option h.Bytes) (hws : d.bytes (root++p) = some c)
    (hway : ∀ q, q <+: (sb++p).dropLast → d.bytes q = none) (hnew : Creatable d (sb++[baseDir]++p)) :
    (sandboxedWrite d sb root p b .done).1.bytes (sb++[baseDir]++p) = some c := by
  rw [bytes_baseline_sandboxedWrite hmin]
  obtain ⟨e,hm⟩ := mkdirs_isSome (sb++p).dropLast (node_root d) (by simpa using hway)
  have hen : e.node (sb++[baseDir]++p) = none := by
    rcases node_mkdirs hm (sb++[baseDir]++p) with hs | ⟨_,_,hpre⟩
    · exact hs.trans hnew.1
    · have hlen := hpre.length_le
      simp at hlen
      omega
  obtain ⟨e₂,hm₂⟩ := mkdirs_isSome (sb++[baseDir]++p).dropLast (node_root e) (by
    intro q hq
    rw [bytes_mkdirs hm]
    exact hnew.2 q (hq.trans (List.dropLast_prefix _)))
  have he₂ : e₂.isDir (sb++[baseDir]++p) = false :=
    isDir_of_none ((node_mkdirs_dropLast hm₂).trans hen)
  obtain ⟨e₃,hw⟩ := writeFile_isSome (t:=e₂) (p:=sb++[baseDir]++p) (by simp)
    (by simpa using isDir_of_mkdirs (node_root e) hm₂) he₂ c
  have hcopy : copy2 e₂ (root++p) (sb++[baseDir]++p) .done = .ok e₃ := by
    simp only [copy2,bytes_mkdirs hm₂,bytes_mkdirs hm,hws,he₂,Bool.false_eq_true,if_false,hw]
  have htake : takeBaseline e sb root (root++p) .done = e₃ := by
    unfold takeBaseline
    have hf : e.isFile (root++p) := isFile_iff_bytes.mpr ⟨c,by rw [bytes_mkdirs hm,hws]⟩
    rw [if_pos hf]
    simp only [List.drop_left,hen,Option.isNone_none,if_true,hm₂,hcopy,diskOf]
  simp only [hm,Option.elim_some,htake]
  rw [bytes_writeFile hw,if_pos rfl]

theorem FirstSeen.congr (hw : FirstSeen root id w)
    (hmir : Mirrored root id w') (hseen : w'.seen = w.seen) (hfly : w'.inFlight = true → w.inFlight = true)
    (hnode : ∀ x, w'.disk.node (root++minimaxDir::x) = w.disk.node (root++minimaxDir::x)) :
    FirstSeen root id w' where
  toMirrored := hmir
  receipt := by
    have hr : w'.disk.node (id.receipt root) = w.disk.node (id.receipt root) := by
      rw [receipt_eq]
      exact hnode _
    rw [hr,bytes_eq_of_node hr]
    exact hw.receipt
  flying hf := by
    rw [receipt_eq,hnode,← receipt_eq]
    exact hw.flying (hfly hf)
  first hn q := by
    rw [receipt_eq,hnode,← receipt_eq] at hn
    rw [hseen,← hw.first hn q]
    apply bytes_eq_of_node
    rw [List.append_assoc,sandbox_append]
    exact hnode _

theorem FirstSeen.write (hw : FirstSeen root id w) {b : Option h.Bytes}
    {o : CopyOutcome h.Bytes} (hok : KeepsBaseline root id w (.write p b o))
    (hs : step root id w (.write p b o) = some w') : FirstSeen root id w' := by
  have hmir : Mirrored root id w' := hw.toMirrored.step (by rintro _ _ _ ⟨⟩; exact hok.1) hs
  simp only [step,Option.ite_none_right_eq_some,Option.some.injEq] at hs
  obtain ⟨⟨hfly,hout⟩,rfl⟩ := hs
  have hreceipt := hw.flying hfly
  have hframe := frame_sandboxedWrite w.disk (id.sandbox root) root hout.2 b o
  have hsame : (sandboxedWrite w.disk (id.sandbox root) root p b o).1.node (id.receipt root) = none := by
    have hfar : ∀ r, r = id.sandbox root++p ∨ r = id.sandbox root++[baseDir]++p →
        ¬ id.receipt root <+: r := by
      rintro r (rfl | rfl)
      · exact receipt_not_prefix_sandbox root id p
      · rw [List.append_assoc]
        exact receipt_not_prefix_sandbox root id _
    rw [hframe.node_eq (fun hr => hfar _ hr List.prefix_rfl) hfar,hreceipt]
  refine ⟨hmir,.inl hsame,fun _ => hsame,fun _ q => ?_⟩
  have hfirst := hw.first hreceipt
  show _ = (noteSeen w.seen p (w.workspace root p) q).join
  by_cases hq : q = p
  · subst q
    have hok := hok.2
    have hpfirst : w.disk.bytes (id.sandbox root++[baseDir]++p) = (w.seen p).join := hfirst p
    cases hseen : w.seen p with
    | none =>
      have hnote : noteSeen w.seen p (w.workspace root p) p = some (w.workspace root p) := by
        simp [noteSeen,hseen]
      rw [hnote,Option.join_some]
      cases hws : w.workspace root p with
      | none =>
        exact (baseline_kept hout.2 b o (.inl hws)).trans (by rw [hpfirst,hseen,Option.join_none])
      | some c =>
        simp only [hseen,hws] at hok
        obtain ⟨rfl,hway,hnew⟩ := hok (by simp)
        exact baseline_taken hout.2 b hws hway hnew
    | some first =>
      have hnote : noteSeen w.seen p (w.workspace root p) p = some first := by simp [noteSeen,hseen]
      rw [hnote,← hseen,← hpfirst]
      apply baseline_kept hout.2 b o
      cases first with
      | none =>
        simp only [hseen] at hok
        exact .inl hok
      | some c =>
        right
        rw [hseen] at hpfirst
        rw [bytes_eq_some.mp hpfirst]
        exact Option.some_ne_none _
  · have hnote : noteSeen w.seen p (w.workspace root p) q = w.seen q := by simp [noteSeen,hq]
    rw [hnote,← hfirst q]
    apply hframe.bytes_eq
    rintro (he | he)
    · rw [List.append_assoc,List.append_cancel_left_eq] at he
      exact hok.1 (by simp [← he])
    · exact hq (List.append_cancel_left he)

theorem FirstSeen.collect (hw : FirstSeen root id w) (hs : step root id w (.collect policy prune f) = some w') :
    FirstSeen root id w' := by
  have hmir : Mirrored root id w' := hw.toMirrored.step (by simp) hs
  simp only [step,Option.ite_none_left_eq_some,Option.some.injEq] at hs
  obtain ⟨hfly,rfl⟩ := hs
  have hland : w.inFlight = false := by simpa using hfly
  have hcase := collect_case f root id policy prune w.disk
  generalize collectSandboxRun h f policy prune root id.name w.disk = c at hcase hmir
  cases hcase with
  | stands _ hdisk _ =>
    refine ⟨hmir,?_,fun hf => absurd (hland.symm.trans hf) (by simp),fun hn q => ?_⟩
    · show c.disk.node _ = none ∨ ∃ x, c.disk.bytes _ = some x ∧ _
      rcases hdisk.receipt with hsame | ⟨_,hx⟩
      · rw [hsame,bytes_eq_of_node hsame]
        exact hw.receipt
      · exact .inr hx
    · have hbase : c.disk.bytes (id.sandbox root++[baseDir]++q) = w.baseline root id q := by
        apply bytes_eq_of_node
        rw [List.append_assoc]
        exact hdisk.kept hn _
      exact hbase.trans (hw.first (hdisk.receipt.elim (fun hs => hs ▸ hn) fun hr => hr.1) q)
  | noSandbox _ _ => exact hw.congr hmir rfl (fun hf => hf) fun _ => rfl
  | refused _ hwalk _ => exact hw.congr hmir rfl (fun hf => hf) fun x => hw.node_walk hwalk x
  | @merged e e' t durable pruned _ _ hwalk _ hreceipt hdisk _ =>
    obtain ⟨_,hdone,hfail⟩ := writeReceipt_spec f root id e
      (.report (mkReport policy root id.name t))
    have hkeep := node_sandbox_writeReceipt f root id e
      (.report (mkReport policy root id.name t))
    rw [hreceipt] at hdone hfail hkeep
    have hsame : c.disk.node (id.receipt root) = e'.node (id.receipt root) := by
      rcases hdisk with hd | ⟨_,_,_,hd⟩
      · rw [hd]
      · rw [hd,node_receipt_pruneSandbox]
    have hwalkreceipt : e.node (id.receipt root) = w.disk.node (id.receipt root) := by
      rw [receipt_eq]
      exact hw.node_walk hwalk _
    refine ⟨hmir,?_,fun hf => absurd (hland.symm.trans hf) (by simp),fun hn q => ?_⟩
    · show c.disk.node _ = none ∨ ∃ x, c.disk.bytes _ = some x ∧ _
      rw [hsame,bytes_eq_of_node hsame]
      cases durable with
      | true => exact .inr ⟨_,hdone rfl,by simp [h.loads_dumps]⟩
      | false =>
        rcases hfail rfl with hs | htorn
        · rw [hs,bytes_eq_of_node hs,hwalkreceipt,bytes_eq_of_node hwalkreceipt]
          exact hw.receipt
        · exact .inr ⟨_,htorn,by simp [h.loads_torn]⟩
    · -- without a receipt nothing was pruned
      have hn : e'.node (id.receipt root) = none := hsame.symm.trans hn
      have hlost : durable = false := by
        cases durable with
        | false => rfl
        | true => simp [bytes_eq_some.mp (hdone rfl)] at hn
      have hd : c.disk = e' := hdisk.resolve_right fun hp => by simp [hlost] at hp
      have hold : w.disk.node (id.receipt root) = none := by
        rcases hfail hlost with hs | htorn
        · exact hwalkreceipt.symm.trans (hs.symm.trans hn)
        · simp [bytes_eq_some.mp htorn] at hn
      refine Eq.trans ?_ (hw.first hold q)
      apply bytes_eq_of_node
      show c.disk.node _ = _
      rw [hd,List.append_assoc,hkeep,sandbox_append]
      exact hw.node_walk hwalk _

theorem FirstSeen.step (hw : FirstSeen root id w) {a : Action h}
    (hok : KeepsBaseline root id w a) (hs : step root id w a = some w') : FirstSeen root id w' := by
  have hmir : Mirrored root id w' := by
    refine hw.toMirrored.step ?_ hs
    rintro p b o rfl
    exact hok.1
  cases a with
  | write p b o => exact hw.write hok hs
  | outside p c =>
    simp only [Sandbox.step,Option.ite_none_right_eq_some,Option.map_eq_some_iff] at hs
    obtain ⟨hout,e,he,rfl⟩ := hs
    exact hw.congr hmir rfl (fun hf => hf) (node_minimax_change hout he)
  | finish =>
    cases hs
    exact hw.congr hmir rfl (by simp) fun _ => rfl
  | collect policy prune f => exact hw.collect hs

theorem FirstSeen.seen_of_walk (hw : FirstSeen root id w) (hpol : policy ≠ .overwrite)
    (hok : KeepsBaseline root id w (.collect policy prune f))
    (hprior : readCollectedReport h f w.disk root id.name = none) {e : Disk h.Bytes}
    {t : Tally h.Digest} (hwalk : collectFiles h f policy root (id.sandbox root) w.disk
      (sandboxMirrorFiles w.disk (id.sandbox root)) = (e,t)) {q : Rel} {m : h.Bytes}
    (hm : w.mirror root id q = some m) (hch : e.bytes (root++q) ≠ w.workspace root q) :
    w.seen q = some (w.workspace root q) := by
  have hreceipt : w.disk.node (id.receipt root) = none := by
    rcases hw.receipt with hn | ⟨x,hx,hnull⟩
    · exact hn
    · exact absurd hprior (readCollectedReport_ne_none f hx hnull)
  have hlisted : ∀ r ∈ sandboxMirrorFiles w.disk (id.sandbox root), root++r <+: root++q → r = q := by
    intro r hr hpre
    obtain ⟨_,_,b,hb⟩ := hw.outside_of_listed hr
    exact mirror_antichain hm hb ((List.prefix_append_right_inj root).mp hpre)
  have hbelow : ∀ r ∈ sandboxMirrorFiles w.disk (id.sandbox root), ∀ d e : Disk h.Bytes,
      Frame (fun p => root++r <+: p) d e →
      e.node (id.sandbox root++[baseDir]++q) = d.node (id.sandbox root++[baseDir]++q) := by
    intro r hr d e hf
    rw [List.append_assoc,sandbox_append]
    exact node_below_minimax [r] (by simpa using hf)
      (by simpa using (hw.outside_of_listed hr).2.1) _
  unfold collectFiles at hwalk
  obtain ⟨hmem,hun⟩ := unmoved_of_walk f hpol root (id.sandbox root)
    (sandboxMirrorFiles w.disk (id.sandbox root)) (w.disk,Tally.start) hlisted hbelow (by rwa [hwalk])
  have hseen := (hw.outside_of_listed hmem).1
  have hfirst : w.disk.bytes (id.sandbox root++[baseDir]++q) = (w.seen q).join := hw.first hreceipt q
  obtain ⟨cur,hcur⟩ := Option.ne_none_iff_exists'.mp hseen
  rw [hcur,Option.join_some] at hfirst
  rw [hcur]
  rcases hun with ⟨b,hb,hws⟩ | ⟨hnone,hws⟩
  · exact congrArg some (hfirst.symm.trans (hb.trans hws.symm))
  · have hcn : cur = none := by
      rw [← hfirst]
      simp only [Tree.bytes,hnone,Option.bind_none]
    rcases hws with hws | hread
    · rw [hcn]
      exact congrArg some hws.symm
    · by_cases hws : w.workspace root q = none
      · rw [hcn,hws]
      · have hreads := hok q (by simp [hm]) hnone hws
        simp [hreads] at hread

theorem FirstSeen.unclobbered (hw : FirstSeen root id w) (hpol : policy ≠ .overwrite)
    (hok : KeepsBaseline root id w (.collect policy prune f))
    (hs : Sandbox.step root id w (.collect policy prune f) = some w') {q : Rel} {m : h.Bytes}
    (hm : w.mirror root id q = some m) (hch : w'.workspace root q ≠ w.workspace root q) :
    w.seen q = some (w.workspace root q) := by
  have hq := outside_of_mirror hw.toMirrored hm
  simp only [Sandbox.step,Option.ite_none_left_eq_some,Option.some.injEq] at hs
  obtain ⟨_,rfl⟩ := hs
  have hcase := collect_case f root id policy prune w.disk
  replace hch : (collectSandboxRun h f policy prune root id.name w.disk).disk.bytes (root++q) ≠
    w.workspace root q := hch
  generalize collectSandboxRun h f policy prune root id.name w.disk = c at hcase hch
  cases hcase with
  | stands _ hdisk _ =>
    exfalso
    apply hch
    apply hdisk.frame.bytes_eq
    rintro (he | hpre)
    · exact not_minimax_prefix hq _ (by rw [he,receipt_eq])
    · have hsb := sandbox_append root id []
      rw [List.append_nil] at hsb
      exact not_minimax_prefix hq _ (hsb ▸ hpre)
  | noSandbox _ _ => exact absurd rfl hch
  | refused hprior hwalk _ => exact hw.seen_of_walk hpol hok hprior hwalk hm hch
  | @merged e e' t durable pruned _ hprior hwalk _ hreceipt hdisk _ =>
    refine hw.seen_of_walk hpol hok hprior hwalk hm ?_
    rw [← bytes_workspace_writeReceipt hreceipt hq]
    rcases hdisk with hd | ⟨_,_,_,hd⟩
    · rwa [hd] at hch
    · rwa [hd,bytes_workspace_pruneSandbox e' f hq] at hch

/-- In every run that keeps its baselines, a collect with `fail` or `skip` changes the
workspace file of a path the run has written only when the file still is what the
run first saw there, absence included. -/
theorem collect_never_clobbers {w₀ w w' : World h} {as : List (Action h)} {policy : Policy}
    {prune : Bool} {f : Faults h.Bytes} (hfresh : Fresh root id w₀)
    (hrun : Runs.Run (Sandbox.step root id) (KeepsBaseline root id) w₀ as w)
    (hok : KeepsBaseline root id w (.collect policy prune f)) (hpol : policy ≠ .overwrite)
    (hs : Sandbox.step root id w (.collect policy prune f) = some w') {q : Rel} {m : h.Bytes}
    (hm : w.mirror root id q = some m) (hch : w'.workspace root q ≠ w.workspace root q) :
    w.seen q = some (w.workspace root q) := by
  have hinv : FirstSeen root id w :=
    hrun.invariant (fun _ _ _ hok hs hw => hw.step hok hs) (.of_fresh hfresh)
  exact hinv.unclobbered hpol hok hs hm hch

end Runs

theorem collect_never_clobbers_plain :
    ∃ w w' : World plainHost,
      step demoRoot runOne w (.collect .fail true (.none _)) = some w' ∧
      w'.workspace demoRoot [lit "a"] ≠ w.workspace demoRoot [lit "a"] ∧
      w.seen [lit "a"] = some (w.workspace demoRoot [lit "a"]) := by
  let w₁ := Runs.last (step demoRoot runOne) freshWorld [.write [lit "a"] (some (.raw 1)) .done]
  let w₂ := Runs.last (step demoRoot runOne) w₁ [.finish]
  let w₃ := Runs.last (step demoRoot runOne) w₂ [.collect .fail true (.none _)]
  have h₁ : step demoRoot runOne freshWorld (.write [lit "a"] (some (.raw 1)) .done) = some w₁ :=
    Runs.step_last (by decide +kernel)
  have h₂ : step demoRoot runOne w₁ .finish = some w₂ := Runs.step_last rfl
  have h₃ : step demoRoot runOne w₂ (.collect .fail true (.none _)) = some w₃ :=
    Runs.step_last (by decide +kernel)
  have habsent : freshWorld.workspace demoRoot [lit "a"] = none := by decide +kernel
  have hrun : Runs.Run (step demoRoot runOne) (KeepsBaseline demoRoot runOne) freshWorld
      [.write [lit "a"] (some (.raw 1)) .done,.finish] w₂ :=
    .succ ⟨by decide,fun hws => absurd habsent hws⟩ h₁ (.succ trivial h₂ (.refl _))
  have hm : w₂.mirror demoRoot runOne [lit "a"] = some (Content.raw 1) := by decide +kernel
  have hws : w₂.workspace demoRoot [lit "a"] = none := by decide +kernel
  have hws' : w₃.workspace demoRoot [lit "a"] = some (Content.raw 1) := by decide +kernel
  have hch : w₃.workspace demoRoot [lit "a"] ≠ w₂.workspace demoRoot [lit "a"] := by
    rw [hws,hws']
    exact Option.some_ne_none _
  exact ⟨w₂,w₃,h₃,hch,
    collect_never_clobbers fresh_freshWorld hrun (fun _ _ _ _ => rfl) (by simp) h₃ hm hch⟩

/-- A file the run writes where there is none, created by somebody else and written
again by the run, is overwritten by a collect with `fail`. -/
theorem collect_clobbers_created_file :
    ∃ (w₀ w w' : World plainHost) (as : List (Action plainHost)) (q : Rel),
      Fresh demoRoot runOne w₀ ∧ Runs.Run (step demoRoot runOne) Runs.always w₀ as w ∧
      step demoRoot runOne w (.collect .fail true (.none _)) = some w' ∧
      w.seen q = some none ∧ w.workspace demoRoot q = some (Content.raw 2) ∧
      w.mirror demoRoot runOne q = some (Content.raw 3) ∧
      w'.workspace demoRoot q = some (Content.raw 3) := by
  refine ⟨freshWorld,_,_,[.write [lit "a"] (some (.raw 1)) .done,
    .outside [lit "a"] (.write (.raw 2)),.write [lit "a"] (some (.raw 3)) .done,.finish],[lit "a"],
    fresh_freshWorld,Runs.run_last (by decide +kernel),Runs.step_last (by decide +kernel),?_,?_,?_,?_⟩
  all_goals decide +kernel

end MinimaxCode.Sandbox
