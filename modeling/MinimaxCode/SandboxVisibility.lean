import MinimaxCode.SandboxCollect

/-!
# Which sandboxed writes a collect sees

The mirror shares its directory with the baselines and the legacy marker, so a
written file is listed only when its path is not mistaken for one of them, and it
is merged only when no receipt stands.
-/

namespace MinimaxCode.Sandbox

open PyText FileTree FileTree.Tree

theorem sandboxFilesWritten_of_dir {B : Type} {d : Disk B} {root : Rel} {id : RunId}
    (hd : d.isDir (id.sandbox root)) :
    sandboxFilesWritten d root id.name = sandboxMirrorFiles d (id.sandbox root) := by
  simp [sandboxFilesWritten,sandboxDir_of_plain,hd]

theorem mem_sandboxFilesWritten {B : Type} {d : Disk B} {root p : Rel} {id : RunId} {b : B}
    (hp : p ≠ []) (hb : d.bytes (id.sandbox root++p) = some b) :
    p ∈ sandboxFilesWritten d root id.name ↔
      p.head? ≠ some baseDir ∧ p.getLast? ≠ some mergedMarker := by
  have hn := bytes_eq_some.mp hb
  have hd : d.isDir (id.sandbox root) := isDir_iff.mpr (d.ancestor_dir hp (by simp [hn]))
  have hf : d.isFile (id.sandbox root++p) := isFile_iff_bytes.mpr ⟨b,hb⟩
  rw [sandboxFilesWritten_of_dir hd,mem_sandboxMirrorFiles]
  tauto

/-- A redirected write outside `.minimax` is listed and considered exactly when its
path neither starts with `_base` nor ends in `.merged` and no receipt or marker
stands when the run is collected. -/
theorem redirected_write_visible_iff (h : Host) (f : Faults h.Bytes) (policy : Policy) (prune : Bool)
    (root : Rel) (id : RunId) {d e : Disk h.Bytes} {p : Rel} {b : h.Bytes} {o : CopyOutcome h.Bytes}
    (hp : p ≠ [] ∧ p.head? ≠ some minimaxDir)
    (hw : sandboxedWrite d (id.sandbox root) root p (some b) o = (e,true)) :
    (p ∈ sandboxFilesWritten e root id.name ∧
      p ∈ (collectSandboxRun h f policy prune root id.name e).result.considered) ↔
      p.head? ≠ some baseDir ∧ p.getLast? ≠ some mergedMarker ∧
        readCollectedReport h f e root id.name = none := by
  rw [mem_considered_iff,mem_sandboxFilesWritten hp.1 (bytes_sandboxedWrite hp.2 hw)]
  tauto

/-- The workspace of the concrete runs. -/
def demoRoot : Rel := [lit "w"]

theorem redirected_write_visible_iff_plain :
    ([lit "a"] ∈ sandboxFilesWritten
        (sandboxedWrite (.empty : Disk plainHost.Bytes) (runOne.sandbox demoRoot) demoRoot [lit "a"]
          (some (.raw 1)) .done).1 demoRoot runOne.name ∧
      [lit "a"] ∈ (collectSandboxRun plainHost (.none _) .fail true demoRoot runOne.name
        (sandboxedWrite (.empty : Disk plainHost.Bytes) (runOne.sandbox demoRoot) demoRoot [lit "a"]
          (some (.raw 1)) .done).1).result.considered) ↔
      [lit "a"].head? ≠ some baseDir ∧ [lit "a"].getLast? ≠ some mergedMarker ∧
        readCollectedReport plainHost (.none _)
          (sandboxedWrite (.empty : Disk plainHost.Bytes) (runOne.sandbox demoRoot) demoRoot [lit "a"]
            (some (.raw 1)) .done).1 demoRoot runOne.name = none := by
  apply redirected_write_visible_iff plainHost (.none _) .fail true demoRoot runOne (b:=.raw 1)
    (o:=.done) (d:=.empty)
  · decide
  · rw [Prod.mk.injEq]
    exact ⟨rfl,by decide +kernel⟩

/-- Writes to `_base/a` and to `a/.merged` succeed and are not listed. -/
theorem redirected_write_invisible :
    ∃ (p q : Rel) (d e : Disk plainHost.Bytes),
      p.head? ≠ some minimaxDir ∧ q.head? ≠ some minimaxDir ∧
      sandboxedWrite .empty (runOne.sandbox demoRoot) demoRoot p (some (.raw 1)) .done = (d,true) ∧
      p ∉ sandboxFilesWritten d demoRoot runOne.name ∧
      sandboxedWrite .empty (runOne.sandbox demoRoot) demoRoot q (some (.raw 1)) .done = (e,true) ∧
      q ∉ sandboxFilesWritten e demoRoot runOne.name := by
  refine ⟨[lit "_base",lit "a"],[lit "a",lit ".merged"],
    (sandboxedWrite .empty (runOne.sandbox demoRoot) demoRoot [lit "_base",lit "a"]
      (some (.raw 1)) .done).1,
    (sandboxedWrite .empty (runOne.sandbox demoRoot) demoRoot [lit "a",lit ".merged"]
      (some (.raw 1)) .done).1,by decide,by decide,?_,?_,?_,?_⟩
  · rw [Prod.ext_iff]
    exact ⟨rfl,by decide +kernel⟩
  · decide +kernel
  · rw [Prod.ext_iff]
    exact ⟨rfl,by decide +kernel⟩
  · decide +kernel

end MinimaxCode.Sandbox
