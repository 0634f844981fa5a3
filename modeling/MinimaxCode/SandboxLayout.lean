import MinimaxCode.FileTree
import MinimaxCode.PyText
import Mathlib.Data.List.Sort

/-!
# The layout of a run's write sandbox

A sandboxed run writes into `<root>/.minimax/sandboxes/<run_id>`. Every write is
redirected there, and the first write to an existing workspace file copies the
original below `_base`. Mirrored files, originals and the merge marker share one
directory, and the listing tells them apart by name.
-/

namespace MinimaxCode.Sandbox

open PyText FileTree FileTree.Tree

abbrev Rel := Path PyStr

def minimaxDir : PyStr := lit ".minimax"
def sandboxRelpath : Rel := [minimaxDir,lit "sandboxes"]
def baseDir : PyStr := lit "_base"
def mergedMarker : PyStr := lit ".merged"
def collectedDir : PyStr := lit ".collected"

/-- The components `PurePosixPath` keeps of a string: empty ones and `.` are dropped. -/
def pureParts (s : PyStr) : RawPath PyStr :=
  ((splitOn (.scalar '/') s).filter fun c => !(c == [] || c == lit ".")).map
    fun c => if c = lit ".." then none else some c

def isAbsolute (s : PyStr) : Bool := s.head? == some (.scalar '/')

/-- `base / s`: an absolute right operand replaces the left one. -/
def joinStr (base : RawPath PyStr) (s : PyStr) : RawPath PyStr :=
  if isAbsolute s then pureParts s else base++pureParts s

def sandboxRootFor (root : Rel) (runId : PyStr) : RawPath PyStr :=
  joinStr ((root++sandboxRelpath).map some) runId

def collectedMarkerPath (root : Rel) (runId : PyStr) : RawPath PyStr :=
  joinStr ((root++sandboxRelpath++[collectedDir]).map some) (runId++lit ".json")

def mirrorPath (target sandbox root : Rel) : Option Rel :=
  if root <+: target then
    let rel := target.drop root.length
    if rel.head? = some minimaxDir then none else some (sandbox++rel)
  else none

/-- A run id as the spawner makes them: one plain path component, and not the name
of the receipts directory. -/
structure RunId where
  name : PyStr
  noSep : PyChar.scalar '/' ∉ name
  named : name ≠ [] ∧ name ≠ lit "." ∧ name ≠ lit ".."
  run : name ≠ collectedDir

def RunId.sandbox (root : Rel) (id : RunId) : Rel := root++sandboxRelpath++[id.name]

def RunId.receipt (root : Rel) (id : RunId) : Rel :=
  root++sandboxRelpath++[collectedDir,id.name++lit ".json"]

theorem pureParts_of_plain {s : PyStr} (hs : PyChar.scalar '/' ∉ s)
    (h : s ≠ [] ∧ s ≠ lit "." ∧ s ≠ lit "..") : pureParts s = [some s] := by
  obtain ⟨hnil,hdot,hup⟩ := h
  simp [pureParts,splitOn_of_not_mem hs,hnil,hdot,hup]

theorem not_isAbsolute_of_plain {s : PyStr} (hs : PyChar.scalar '/' ∉ s) : isAbsolute s = false := by
  cases s with
  | nil => rfl
  | cons c cs =>
    have hc : c ≠ .scalar '/' := by rintro rfl; simp at hs
    simp [isAbsolute,hc]

theorem RunId.sandboxRootFor_eq (root : Rel) (id : RunId) :
    sandboxRootFor root id.name = (id.sandbox root).map some := by
  simp [sandboxRootFor,joinStr,not_isAbsolute_of_plain id.noSep,
    pureParts_of_plain id.noSep id.named,RunId.sandbox]

theorem RunId.collectedMarkerPath_eq (root : Rel) (id : RunId) :
    collectedMarkerPath root id.name = (id.receipt root).map some := by
  have hsep : PyChar.scalar '/' ∉ id.name++lit ".json" := by
    have hj : PyChar.scalar '/' ∉ lit ".json" := by decide
    simp [id.noSep,hj]
  have hlen : (id.name++lit ".json").length = id.name.length+5 := by simp [lit]
  have hnamed : id.name++lit ".json" ≠ [] ∧ id.name++lit ".json" ≠ lit "." ∧
      id.name++lit ".json" ≠ lit ".." := by
    refine ⟨?_,?_,?_⟩ <;> intro h <;> rw [h] at hlen <;> simp [lit] at hlen
  simp [collectedMarkerPath,joinStr,not_isAbsolute_of_plain hsep,pureParts_of_plain hsep hnamed,
    RunId.receipt]

/-- How a copy goes: it succeeds, or raises `OSError` and leaves the destination
untouched or, when writing had begun, holding other bytes. -/
inductive CopyOutcome (B : Type)
  | done
  | raises (left : Option B)
  deriving DecidableEq

variable {B : Type} {p root sandbox : Rel}

abbrev Disk (B : Type) := Tree PyStr B

/-- `shutil.copy2`: a destination that is a directory receives the file inside it.
An error carries the disk it leaves. -/
def copy2 (d : Disk B) (src dst : Rel) (o : CopyOutcome B) : Except (Disk B) (Disk B) :=
  match d.bytes src with
  | none => .error d
  | some b =>
    let p := if d.isDir dst then dst++src.getLast?.toList else dst
    match o with
    | .done => match d.writeFile p b with
      | some e => .ok e
      | none => .error d
    | .raises none => .error d
    | .raises (some x) => .error ((d.writeFile p x).getD d)

def diskOf : Except (Disk B) (Disk B) → Disk B
  | .ok d => d
  | .error d => d

theorem frame_getD_writeFile {P : Rel → Prop} (d : Disk B) (x : B) (hP : P p) :
    Frame P d ((d.writeFile p x).getD d) := by
  cases h : d.writeFile p x with
  | none => exact .refl P d
  | some e => exact .writeFile h hP

theorem frame_copy2 (d : Disk B) (src dst : Rel) (o : CopyOutcome B) :
    Frame (fun q => dst <+: q) d (diskOf (copy2 d src dst o)) := by
  unfold copy2
  cases d.bytes src with
  | none => exact .refl _ d
  | some b =>
    have hP : dst <+: if d.isDir dst then dst++src.getLast?.toList else dst := by
      split
      · exact List.prefix_append ..
      · exact List.prefix_rfl
    cases o with
    | done =>
      have hf := frame_getD_writeFile d b hP
      revert hf
      simp only
      cases d.writeFile (if d.isDir dst then dst++src.getLast?.toList else dst) b <;> exact id
    | raises left =>
      cases left with
      | none => exact .refl _ d
      | some x => exact frame_getD_writeFile d x hP

variable {d e : Disk B}

theorem frame_copy2_file {dst : Rel} (hdst : d.isDir dst = false) (src : Rel)
    (o : CopyOutcome B) : Frame (fun q => q = dst) d (diskOf (copy2 d src dst o)) := by
  unfold copy2
  cases d.bytes src with
  | none => exact .refl _ d
  | some b =>
    simp only [hdst]
    cases o with
    | done =>
      have hf := frame_getD_writeFile (P:=fun q => q = dst) d b rfl
      revert hf
      simp only [Bool.false_eq_true,if_false]
      cases d.writeFile dst b <;> exact id
    | raises left =>
      cases left with
      | none => exact .refl _ d
      | some x => exact frame_getD_writeFile d x rfl

theorem bytes_of_copy2_ok {src dst : Rel} {o : CopyOutcome B}
    (h : copy2 d src dst o = .ok e) (hdst : d.isDir dst = false) : e.bytes dst = d.bytes src := by
  unfold copy2 at h
  cases hb : d.bytes src with
  | none => simp [hb] at h
  | some b =>
    simp only [hb,hdst] at h
    cases o with
    | raises left => cases left <;> simp at h
    | done =>
      cases hw : d.writeFile dst b with
      | none => simp [hw] at h
      | some e' =>
        simp only [Bool.false_eq_true,if_false,hw,Except.ok.injEq] at h
        rw [← h,bytes_writeFile hw,if_pos rfl]

/-- The original is copied when the target is a file and has no baseline yet. -/
def takeBaseline (d : Disk B) (sandbox root target : Rel) (o : CopyOutcome B) : Disk B :=
  if d.isFile target then
    let baseline := sandbox++[baseDir]++target.drop root.length
    if (d.node baseline).isNone then
      match d.mkdirs [] baseline.dropLast with
      | none => d
      | some e => diskOf (copy2 e target baseline o)
    else d
  else d

/-- `redirect_write_target`: where the write should land, and the disk after the
copy-on-write step. An `OSError` on the way is swallowed. -/
def redirectWriteTarget (d : Disk B) (sandbox : Option Rel) (root target : Rel)
    (o : CopyOutcome B) : Disk B × Rel :=
  match sandbox with
  | none => (d,target)
  | some sb =>
    match mirrorPath target sb root with
    | none => (d,target)
    | some mirror =>
      match d.mkdirs [] mirror.dropLast with
      | none => (d,mirror)
      | some e => (takeBaseline e sb root target o,mirror)

/-- The rest of a write tool: make the parent directory and write the bytes. -/
def toolWrite (d : Disk B) (p : Rel) (b : B) : Option (Disk B) :=
  (d.mkdirs [] p.dropLast).bind fun e => e.writeFile p b

theorem frame_toolWrite {b : B} {P : Rel → Prop} (hP : P p)
    (h : toolWrite d p b = some e) : Frame P d e := by
  obtain ⟨u,hu,he⟩ := Option.bind_eq_some_iff.mp h
  exact (Frame.mkdirs hu (List.dropLast_prefix p) hP).trans (.writeFile he hP)

theorem bytes_toolWrite {b : B} (h : toolWrite d p b = some e) (q : Rel) :
    e.bytes q = if q = p then some b else d.bytes q := by
  obtain ⟨u,hu,he⟩ := Option.bind_eq_some_iff.mp h
  rw [bytes_writeFile he,bytes_mkdirs hu]

/-- A write of the file `p` by a sandboxed run, and whether it succeeded. A tool may
stop after the redirect, when it has no bytes to write. -/
def sandboxedWrite (d : Disk B) (sandbox root p : Rel) (b : Option B) (o : CopyOutcome B) :
    Disk B × Bool :=
  let (e,target) := redirectWriteTarget d (some sandbox) root (root++p) o
  match b.bind (toolWrite e target) with
  | some e' => (e',true)
  | none => (e,false)

def sandboxMirrorFiles (d : Disk B) (sandbox : Rel) : List Rel :=
  if d.isDir sandbox then
    ((d.filesUnder sandbox).insertionSort fun p q => partsLe p q).filter fun rel =>
      !(rel.head? == some baseDir) && !(rel.getLast? == some mergedMarker)
  else []

/-- The directory `sandbox_root_for(run_id)` names, when it is one. -/
def sandboxDir (d : Disk B) (root : Rel) (runId : PyStr) : Option Rel :=
  (d.resolve [] (sandboxRootFor root runId)).filter fun p => d.isDir p

def sandboxFilesWritten (d : Disk B) (root : Rel) (runId : PyStr) : List Rel :=
  match sandboxDir d root runId with
  | none => []
  | some sb => sandboxMirrorFiles d sb

theorem mirrorPath_append {rel : Rel} (h : rel.head? ≠ some minimaxDir) :
    mirrorPath (root++rel) sandbox root = some (sandbox++rel) := by
  simp [mirrorPath,h]

theorem redirectWriteTarget_mirror (d : Disk B) (hp : p.head? ≠ some minimaxDir)
    (o : CopyOutcome B) : redirectWriteTarget d (some sandbox) root (root++p) o =
      ((d.mkdirs [] (sandbox++p).dropLast).elim d fun e => takeBaseline e sandbox root (root++p) o,
        sandbox++p) := by
  simp only [redirectWriteTarget,mirrorPath_append hp]
  cases d.mkdirs [] (sandbox++p).dropLast <;> rfl

theorem sandboxedWrite_fst (d : Disk B) (hp : p.head? ≠ some minimaxDir)
    (b : Option B) (o : CopyOutcome B) : (sandboxedWrite d sandbox root p b o).1 =
      (b.bind (toolWrite (redirectWriteTarget d (some sandbox) root (root++p) o).1 (sandbox++p))).getD
        (redirectWriteTarget d (some sandbox) root (root++p) o).1 := by
  simp only [sandboxedWrite,redirectWriteTarget_mirror d hp]
  split
  · rename_i e hw
    rw [hw,Option.getD_some]
  · rename_i hw
    rw [hw,Option.getD_none]

theorem bytes_sandboxedWrite {b : B} {o : CopyOutcome B}
    (hp : p.head? ≠ some minimaxDir) (h : sandboxedWrite d sandbox root p (some b) o = (e,true)) :
    e.bytes (sandbox++p) = some b := by
  simp only [sandboxedWrite,redirectWriteTarget_mirror d hp,Option.bind_some] at h
  split at h
  · rename_i e' hw
    obtain ⟨u,_,hu⟩ := Option.bind_eq_some_iff.mp hw
    have he : e' = e := by simpa using h
    rw [← he,bytes_writeFile hu,if_pos rfl]
  · simp at h

theorem mem_sandboxMirrorFiles {rel : Rel} :
    rel ∈ sandboxMirrorFiles d sandbox ↔
      rel ≠ [] ∧ d.isFile (sandbox++rel) ∧ rel.head? ≠ some baseDir ∧
        rel.getLast? ≠ some mergedMarker := by
  unfold sandboxMirrorFiles
  split
  · simp [Tree.mem_filesUnder,List.mem_insertionSort,and_assoc]
  · rename_i hd
    constructor
    · simp
    · rintro ⟨hne,hf,_⟩
      obtain ⟨b,hb⟩ := Tree.isFile_iff.mp hf
      exact absurd (Tree.isDir_iff.mpr (d.ancestor_dir hne (by simp [hb]))) hd

theorem sandboxMirrorFiles_nodup (d : Disk B) (sandbox : Rel) : (sandboxMirrorFiles d sandbox).Nodup := by
  unfold sandboxMirrorFiles
  split
  · exact ((List.perm_insertionSort _ _).nodup_iff.mpr (d.filesUnder_nodup sandbox)).filter _
  · exact List.nodup_nil

theorem sandboxMirrorFiles_congr
    (h : ∀ p, sandbox <+: p → e.node p = d.node p) :
    sandboxMirrorFiles e sandbox = sandboxMirrorFiles d sandbox := by
  have : Std.Total fun p q : Rel => partsLe p q = true := ⟨partsLe_total⟩
  have : IsTrans Rel fun p q => partsLe p q = true := ⟨fun _ _ _ => partsLe_trans⟩
  have hdir : e.isDir sandbox = d.isDir sandbox := isDir_eq_of_node (h _ List.prefix_rfl)
  have hperm : (e.filesUnder sandbox).Perm (d.filesUnder sandbox) := by
    refine (List.perm_ext_iff_of_nodup (e.filesUnder_nodup _) (d.filesUnder_nodup _)).mpr fun rel => ?_
    rw [mem_filesUnder,mem_filesUnder,isFile_iff,isFile_iff,h _ (List.prefix_append ..)]
  have hsorted : (e.filesUnder sandbox).insertionSort (fun p q => partsLe p q) =
      (d.filesUnder sandbox).insertionSort fun p q => partsLe p q := by
    refine List.Perm.eq_of_pairwise (fun _ _ _ _ hab hba => partsLe_antisymm hab hba)
      (List.pairwise_insertionSort _ _) (List.pairwise_insertionSort _ _) ?_
    exact (List.perm_insertionSort _ _).trans (hperm.trans (List.perm_insertionSort _ _).symm)
  rw [sandboxMirrorFiles,sandboxMirrorFiles,hdir,hsorted]

theorem resolve_map_some (cur rest : Rel) (h : d.node (cur++rest) ≠ none) :
    d.resolve cur (rest.map some) = some (cur++rest) := by
  induction rest generalizing cur with
  | nil => simp [Tree.resolve]
  | cons n rest ih =>
    have hdir : d.isDir cur := Tree.isDir_iff.mpr (d.ancestor_dir (by simp) h)
    have hassoc : cur++[n]++rest = cur++n::rest := by simp
    rw [List.map_cons,Tree.resolve,if_pos hdir]
    have hih := ih (cur++[n]) (by rwa [hassoc])
    rwa [hassoc] at hih

theorem sandboxDir_of_plain (id : RunId) :
    sandboxDir d root id.name = if d.isDir (id.sandbox root) then some (id.sandbox root) else none := by
  unfold sandboxDir
  rw [id.sandboxRootFor_eq]
  split
  · rename_i hd
    have hn : d.node ([]++id.sandbox root) ≠ none := by
      rw [List.nil_append,Tree.isDir_iff.mp hd]
      simp
    rw [resolve_map_some _ _ hn]
    simp [hd]
  · rename_i hd
    rw [Option.filter_eq_none_iff]
    intro p hp
    have hl := Tree.resolve_eq_lexical hp
    have hpl : p = id.sandbox root := by rw [hl,lexical_map_some,List.nil_append]
    simpa [hpl] using hd

end MinimaxCode.Sandbox
