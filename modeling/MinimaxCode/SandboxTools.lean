import MinimaxCode.Backups
import MinimaxCode.EditFile
import MinimaxCode.OverlaySearch

/-!
# The file tools of a sandboxed run

`write_file`, `append_file` and `edit_file` redirect their target before they check anything:
the directory of the mirror is made and the baseline is taken. An append also copies the file
into the mirror before it compares hashes. A call that fails leaves all of this behind, and a
file that was emptied for a text that cannot be encoded.
-/

namespace MinimaxCode.SandboxTools

open PyText PyJson TextMode FileTree FileTree.Tree Sandbox OverlaySearch Backups

/-- A sandboxed run and its platform. -/
structure Host where
  root : Rel
  id : RunId
  linesep : Linesep
  sha256 : ByteArray → PyStr
  safeResolve : PyStr → Except PyStr Rel
  closestHint : PyStr → PyStr → PyStr
  /-- The rival run that has claimed a path. -/
  inFlightWriter : Rel → Option PyStr
  now : Stamp

/-- How the device behaves during a call. A write that fails may leave something behind. -/
structure Faults where
  baseline : CopyOutcome ByteArray
  staging : CopyOutcome ByteArray
  unreadable : Option PyStr
  hashable : Bool
  write : Option (PyStr × Option ByteArray)
  osError : PyStr

/-- The arguments of a write or an append; an absent one is null. -/
structure WriteCall where
  path : Json
  content : Json
  expectedSha256 : Json

/-- What a successful call says beside its result. -/
structure Notes where
  backup : Option Made
  concurrentWriter : Option PyStr
  sandboxPath : Option Rel

structure Report where
  path : PyStr
  created : Bool
  sizeBytes : ℕ
  appendedBytes : Option ℕ
  previousSha256 : Option PyStr
  sha256 : Option PyStr

inductive Reply
  | failed (message : PyStr) (output : List (PyStr × Json))
  | raised
  | written (report : Report) (notes : Notes)
  | edited (report : EditFile.Report) (notes : Notes)

def Reply.isError : Reply → Bool
  | .failed _ _ => true
  | .raised => true
  | .written _ _ => false
  | .edited _ _ => false

def fail (message : PyStr) : Reply := .failed message []

def pathText (p : Rel) : PyStr := ch '/'::asPosix p

section Tools

variable (h : Host) (f : Faults)

def Host.sandbox : Rel := h.id.sandbox h.root

def readTarget (d : Files) (target : Rel) : Rel :=
  overlayReadTarget d (some h.sandbox) h.root target

/-- The disk after the redirect. -/
def redirected (d : Files) (target : Rel) : Files :=
  (redirectWriteTarget d (some h.sandbox) h.root target f.baseline).1

def writeTarget (d : Files) (target : Rel) : Rel :=
  (redirectWriteTarget d (some h.sandbox) h.root target f.baseline).2

def notes (backup : Option Made) (target write : Rel) : Notes where
  backup := backup
  concurrentWriter := h.inFlightWriter target
  sandboxPath := if write ≠ target then some write else none

def fileSha256 (d : Files) (p : Rel) : Option PyStr :=
  if f.hashable then (d.bytes p).map h.sha256 else none

def backupFile (d : Files) (read : Rel) : Option Made × Files := backup h.root d read h.now

/-- The checks on the arguments. -/
def writeArgs (call : WriteCall) : Except Reply (Rel × PyStr) :=
  match call.path,call.content with
  | .str [],_ => .error (fail (lit "'path' must be a non-empty string"))
  | .str path,.str content =>
    match h.safeResolve path with
    | .error message => .error (fail message)
    | .ok target => .ok (target,content)
  | .str _,_ => .error (fail (lit "'content' must be a string"))
  | _,_ => .error (fail (lit "'path' must be a non-empty string"))

/-- The check of `expected_sha256`. -/
def checkLock (tool change : PyStr) (target : Rel) (existed : Bool) (previousSha : Option PyStr)
    (expected : Json) : Option Reply :=
  match expected with
  | .null => none
  | .str e =>
    if e.length ≠ 64 then some (fail (lit "'expected_sha256' must be a 64-char hex string"))
    else if existed = false then
      some (.failed (tool++lit " blocked: file no longer exists (deleted since your read)")
        [(lit "path",.str (pathText target)),(lit "expected_sha256",.str e),
          (lit "file_exists",.bool false)])
    else if previousSha ≠ some (EditFile.lower (strip e)) then
      some (.failed (tool++lit " blocked: file changed since your read (sha256 mismatch) — re-read the file and reapply your "++change)
        [(lit "path",.str (pathText target)),(lit "expected_sha256",.str e),
          (lit "current_sha256",previousSha.elim .null .str),(lit "file_exists",.bool true)])
    else none
  | _ => some (fail (lit "'expected_sha256' must be a 64-char hex string"))

/-- The lock of `write_file` and `append_file`, on the file as it is read. -/
def locked (tool change : PyStr) (existed : Bool) (d : Files) (target read : Rel)
    (call : WriteCall) : Option Reply :=
  checkLock tool change target existed (if existed then fileSha256 h f d read else none)
    call.expectedSha256

inductive Landing
  | done
  | failed (message : PyStr)
  | raised

/-- A file that was opened for writing and holds what is left of the write. -/
def leave (d : Files) (p : Rel) (left : Option ByteArray) : Files := (left.bind (d.writeFile p)).getD d

/-- Opens the file, which empties it, and writes; a text without bytes cannot be encoded. -/
def landing (d : Files) (p : Rel) (content : Option ByteArray) : Landing :=
  match f.write,d.writeFile p .empty,content with
  | some (message,_),_,_ => .failed message
  | none,none,_ => .failed f.osError
  | none,some _,none => .raised
  | none,some _,some _ => .done

def leftBehind (content : Option ByteArray) : Option ByteArray :=
  match f.write with
  | some (_,left) => left
  | none => some (content.getD .empty)

/-- Makes the directory and writes. -/
def openWrite (d : Files) (p : Rel) (content : Option ByteArray) : Landing × Files :=
  match d.mkdirs [] p.dropLast with
  | none => (.failed f.osError,d)
  | some e => (landing f e p content,leave e p (leftBehind f content))

/-- Backs up what is there and writes. -/
def backupAndWrite (verb : PyStr) (existed : Bool) (d : Files) (target read write : Rel)
    (content : Files → Option ByteArray) (appended : Option ℕ) : Reply × Files :=
  let b := if existed then backupFile h d read else (none,d)
  match openWrite f b.2 write (content b.2) with
  | (.failed message,e) => (fail (verb++lit " failed: "++message),e)
  | (.raised,e) => (.raised,e)
  | (.done,e) =>
    (.written ⟨pathText target,!existed,((e.bytes write).getD .empty).size,appended,
      if existed then fileSha256 h f d read else none,fileSha256 h f e write⟩
      (notes h b.1 target write),e)

def directoryReply (target : Rel) : Reply :=
  fail (lit "path is an existing directory: "++pathText target)

/-- `write_file` after the redirect. -/
def writeChecked (d : Files) (target read write : Rel) (content : PyStr) (call : WriteCall) :
    Reply × Files :=
  if d.isDir read then (directoryReply target,d)
  else
    let existed := (d.node read).isSome
    match locked h f (lit "write_file") (lit "change") existed d target read call with
    | some reply => (reply,d)
    | none =>
      backupAndWrite h f (lit "write") existed d target read write (fun _ => encode content) none

/-- `WriteFileTool.run`. -/
def writeFileTool (d : Files) (call : WriteCall) : Reply × Files :=
  match writeArgs h call with
  | .error reply => (reply,d)
  | .ok (target,content) =>
    writeChecked h f (redirected h f d target) target (readTarget h d target)
      (writeTarget h f d target) content call

/-- The mirror of an append is not there yet. -/
def Unstaged (d : Files) (read write : Rel) : Prop :=
  write ≠ read ∧ d.isFile read = true ∧ d.node write = none

instance (d : Files) (read write : Rel) : Decidable (Unstaged d read write) :=
  inferInstanceAs (Decidable (_ ∧ _ ∧ _))

/-- The file is copied into the mirror. -/
def stageMirror (d : Files) (read write : Rel) : Except Files Files :=
  if Unstaged d read write then
    match d.mkdirs [] write.dropLast with
    | none => .error d
    | some e => copy2 e read write f.staging
  else .ok d

/-- `append_file` behind the staging. A text that cannot be encoded is found out after the
backup and before the file is opened. -/
def appendStaged (existed : Bool) (d : Files) (target read write : Rel) (content : PyStr)
    (call : WriteCall) : Reply × Files :=
  match locked h f (lit "append_file") (lit "append") existed d target read call with
  | some reply => (reply,d)
  | none =>
    match encode content with
    | none => (.raised,if existed then (backupFile h d read).2 else d)
    | some tail => backupAndWrite h f (lit "append") existed d target read write
        (fun e => some ((e.bytes write).getD .empty++tail)) (some tail.size)

/-- `append_file` after the redirect. -/
def appendChecked (d : Files) (target read write : Rel) (content : PyStr) (call : WriteCall) :
    Reply × Files :=
  if d.isDir read then (directoryReply target,d)
  else
    match stageMirror f d read write with
    | .error e => (fail (lit "append failed while staging the sandbox mirror: "++f.osError),e)
    | .ok e => appendStaged h f (d.node read).isSome e target read write content call

/-- `AppendFileTool.run`. -/
def appendFileTool (d : Files) (call : WriteCall) : Reply × Files :=
  match writeArgs h call with
  | .error reply => (reply,d)
  | .ok (target,content) =>
    appendChecked h f (redirected h f d target) target (readTarget h d target)
      (writeTarget h f d target) content call

def editArgs (call : EditFile.EditCall) : Except Reply (Rel × PyStr × PyStr) :=
  match call.path,call.oldString,call.newString with
  | .str [],_,_ => .error (fail (lit "'path' must be a non-empty string"))
  | .str path,.str old,.str new =>
    if old = new then
      .error (fail (lit "'old_string' and 'new_string' are identical — nothing to do"))
    else
      match h.safeResolve path with
      | .error message => .error (fail message)
      | .ok target => .ok (target,old,new)
  | .str _,.str _,_ => .error (fail (lit "'new_string' must be a string"))
  | .str _,_,_ => .error (fail (lit "'old_string' must be a string"))
  | _,_,_ => .error (fail (lit "'path' must be a non-empty string"))

def onDisk (d : Files) (read : Rel) : EditFile.OnDisk :=
  match d.node read,f.unreadable with
  | none,_ => .missing
  | some .dir,_ => .directory
  | some (.file _),some message => .unreadable message
  | some (.file content),none => .file content

/-- What an edit finds after the redirect. The file is opened for writing when the backup
has been made. -/
def editTarget (d : Files) (target read write : Rel) : EditFile.Target where
  path := pathText target
  name := target.getLast?.getD []
  onDisk := onDisk f d read
  hashable := f.hashable
  writeFault :=
    match (backupFile h d read).2.writeFile write .empty with
    | none => some (f.osError,none)
    | some _ => f.write

def editHost (d : Files) : EditFile.Host where
  linesep := h.linesep
  sha256 := h.sha256
  safeResolve path := (h.safeResolve path).map fun target =>
    editTarget h f (redirected h f d target) target (readTarget h d target) (writeTarget h f d target)
  closestHint := h.closestHint

def replyOf (notes : Notes) : EditFile.Outcome → Reply
  | .failed message output => .failed message (output.map fun entry => (entry.1,.str entry.2))
  | .raised => .raised
  | .edited report => .edited report notes

/-- `edit_file` after the redirect. -/
def editChecked (host : EditFile.Host) (d : Files) (target read write : Rel) (old new : PyStr)
    (call : EditFile.EditCall) : Reply × Files :=
  let b := backupFile h d read
  let reply := replyOf (notes h b.1 target write)
  match EditFile.checkTarget host call.expectedSha256 (editTarget h f d target read write) old new with
  | .error outcome => (reply outcome,d)
  | .ok c =>
    let (outcome,left) := EditFile.apply host (truthy call.replaceAll) c
    (reply outcome,leave b.2 write left)

/-- `EditFileTool.run`. -/
def editFileTool (d : Files) (call : EditFile.EditCall) : Reply × Files :=
  match editArgs h call with
  | .error reply => (reply,d)
  | .ok (target,old,new) =>
    editChecked h f (editHost h f d) (redirected h f d target) target (readTarget h d target)
      (writeTarget h f d target) old new call

inductive Call
  | write (call : WriteCall)
  | append (call : WriteCall)
  | edit (call : EditFile.EditCall)

def run (d : Files) : Call → Reply × Files
  | .write call => writeFileTool h f d call
  | .append call => appendFileTool h f d call
  | .edit call => editFileTool h f d call

/-- Mirror, baselines, the list of files written and the workspace are as before. -/
structure Untouched (d e : Files) : Prop where
  sandbox : ∀ p, h.sandbox <+: p → e.node p = d.node p
  written : sandboxFilesWritten e h.root h.id.name = sandboxFilesWritten d h.root h.id.name
  workspace : ∀ r, Outside r → e.node (h.root++r) = d.node (h.root++r)

/-- The baseline is there, or cannot be taken and leaves nothing. -/
def Snapped (d : Files) (baseline : Rel) : Prop :=
  (d.node baseline).isSome = true ∨ d.Blocked baseline.dropLast ∨
    d.isDir baseline.dropLast = true ∧ f.baseline = .raises none

/-- The redirect finds the directory of the mirror and the baseline, or a file in the way. -/
def Settled (d : Files) (target : Rel) : Prop :=
  ∀ mirror, mirrorPath target h.sandbox h.root = some mirror →
    d.Blocked mirror.dropLast ∨ d.isDir mirror.dropLast = true ∧
      (d.isFile target = true → Snapped f d (h.sandbox++[baseDir]++target.drop h.root.length))

/-- What a write leaves behind was in the sandbox before, or it is elsewhere. -/
def Kept (d : Files) (p : Rel) (left : Option ByteArray) : Prop :=
  h.sandbox <+: p → d.Blocked p.dropLast ∨ d.isDir p.dropLast = true ∧
    ∀ x, left = some x → d.bytes p = some x

/-- The old text was found, once or with `replace_all`. -/
def Found (replaceAll : Bool) (c : EditFile.Checked) : Prop :=
  Substrings.count c.old c.original ≠ 0 ∧
    (1 < Substrings.count c.old c.original → replaceAll = true)

/-- When a call that fails leaves everything as it was. -/
def Harmless (d : Files) : Call → Prop
  | .write call => ∀ target content, writeArgs h call = .ok (target,content) →
    Settled h f d target ∧
      let read := readTarget h d target
      (d.isDir read = false →
        locked h f (lit "write_file") (lit "change") (d.node read).isSome d target read call = none →
        Kept h d (writeTarget h f d target) (leftBehind f none))
  | .append call => ∀ target content, writeArgs h call = .ok (target,content) →
    Settled h f d target ∧
      let read := readTarget h d target
      let write := writeTarget h f d target
      if Unstaged d read write then d.Blocked write.dropLast ∨ f.staging = .raises none
      else d.isDir read = false →
        locked h f (lit "append_file") (lit "append") (d.node read).isSome d target read call = none →
        encode content ≠ none → Kept h d write (f.write.bind Prod.snd)
  | .edit call => ∀ target old new, editArgs h call = .ok (target,old,new) →
    Settled h f d target ∧
      let read := readTarget h d target
      let write := writeTarget h f d target
      ∀ c, EditFile.checkTarget (editHost h f d) call.expectedSha256 (editTarget h f d target read write)
          old new = .ok c →
        Found (truthy call.replaceAll) c → Kept h d write (leftBehind f none)

end Tools

section Proofs

variable {h : Host} {f : Faults} {d e u : Files} {target read write p : Rel}
  {left : Option ByteArray} {call : WriteCall} {content : PyStr} {c : EditFile.Checked}
  {host : EditFile.Host}

theorem sandbox_eq (rel : Rel) :
    h.sandbox++rel = h.root++minimaxDir::lit "sandboxes"::h.id.name::rel := by
  simp [Host.sandbox,RunId.sandbox,sandboxRelpath]

theorem mirrorPath_eq_some {mirror : Rel} (hm : mirrorPath target h.sandbox h.root = some mirror) :
    ∃ rel, target = h.root++rel ∧ rel.head? ≠ some minimaxDir ∧ mirror = h.sandbox++rel := by
  rw [mirrorPath] at hm
  split at hm
  · next hpre =>
    obtain ⟨rel,rfl⟩ := hpre
    rw [List.drop_left] at hm
    dsimp only at hm
    split at hm
    · cases hm
    · next hrel => exact ⟨rel,rfl,hrel,(Option.some.inj hm).symm⟩
  · cases hm

theorem writeTarget_eq : writeTarget h f d target =
    (mirrorPath target h.sandbox h.root).getD target := by
  simp only [writeTarget,redirectWriteTarget]
  cases mirrorPath target h.sandbox h.root with
  | none => rfl
  | some mirror => cases hm : d.mkdirs [] mirror.dropLast <;> simp [hm]

theorem readTarget_eq : readTarget h d target = if (d.node (writeTarget h f d target)).isSome = true then
    writeTarget h f d target else target := by
  rw [readTarget,overlayReadTarget,writeTarget_eq]
  cases mirrorPath target h.sandbox h.root <;> simp

theorem writeTarget_not_dir (hdir : d.isDir (readTarget h d target) = false) :
    d.isDir (writeTarget h f d target) = false := by
  rw [readTarget_eq (f:=f)] at hdir
  split at hdir
  · exact hdir
  · next hnone => exact isDir_of_none (by simpa using hnone)

theorem takeBaseline_of_snapped {sb root : Rel}
    (hs : d.isFile target = true → Snapped f d (sb++[baseDir]++target.drop root.length)) :
    takeBaseline d sb root target f.baseline = d := by
  rw [takeBaseline]
  split
  · next hfile =>
    dsimp only
    split
    · next hnone =>
      rcases hs hfile with hsome | hblocked | ⟨hdir,hraises⟩
      · rw [Option.isNone_iff_eq_none.mp hnone] at hsome
        cases hsome
      · rw [mkdirs_eq_none_iff.mpr hblocked]
      · rw [mkdirs_nil_of_dir (isDir_iff.mp hdir),hraises]
        cases hb : d.bytes target <;> simp [copy2,hb,diskOf]
    · rfl
  · rfl

theorem redirected_of_settled (hs : Settled h f d target) : redirected h f d target = d := by
  rw [redirected,redirectWriteTarget]
  cases hm : mirrorPath target h.sandbox h.root with
  | none => rfl
  | some mirror =>
    rcases hs mirror hm with hblocked | ⟨hdir,hbase⟩
    · simp [mkdirs_eq_none_iff.mpr hblocked]
    · simp only [mkdirs_nil_of_dir (isDir_iff.mp hdir)]
      exact takeBaseline_of_snapped hbase

/-- Nothing below the sandbox goes away. -/
def Grows (h : Host) (d e : Files) : Prop :=
  ∀ q, h.sandbox <+: q → d.node q ≠ none → e.node q ≠ none

/-- Something new is below the sandbox. -/
def Added (h : Host) (d e : Files) : Prop := ∃ q, h.sandbox <+: q ∧ d.node q = none ∧ e.node q ≠ none

theorem Grows.trans (hde : Grows h d e) (heu : Grows h e u) : Grows h d u :=
  fun q hq hn => heu q hq (hde q hq hn)

theorem Added.grow (hde : Added h d e) (heu : Grows h e u) : Added h d u := by
  obtain ⟨q,hq,hd,he⟩ := hde
  exact ⟨q,hq,hd,heu q hq he⟩

/-- The sandbox is as before. -/
def Same (h : Host) (d e : Files) : Prop := ∀ q, h.sandbox <+: q → e.node q = d.node q

theorem Same.grows (hde : Same h d e) : Grows h d e := fun q hq hn => by rwa [hde q hq]

theorem Same.trans (hde : Same h d e) (heu : Same h e u) : Same h d u :=
  fun q hq => (heu q hq).trans (hde q hq)

theorem Same.symm (hde : Same h d e) : Same h e d := fun q hq => (hde q hq).symm

theorem same_backupFile (d : Files) (read : Rel) : Same h d (backupFile h d read).2 := by
  have hapart : ∀ q r, h.sandbox <+: q → backupRoot h.root <+: r → ¬q <+: r := by
    rintro q r hq hr hqr
    rcases List.prefix_or_prefix_of_prefix (hq.trans hqr) hr with hpre | hpre
    · have hlen := hpre.length_le
      simp [Host.sandbox,RunId.sandbox,backupRoot,sandboxRelpath,backupDir] at hlen
    · rw [← List.append_nil h.sandbox,sandbox_eq,backupRoot,backupDir,List.prefix_append_right_inj,
        List.cons_prefix_cons,List.cons_prefix_cons] at hpre
      exact absurd hpre.2.1 (by decide)
  intro q hq
  exact (frame_backup h.root d read h.now).node_eq (fun hr => hapart q q hq hr List.prefix_rfl)
    fun r hr => hapart q r hq hr

/-- A path that is no part of the workspace proper. -/
def Aside (h : Host) (q : Rel) : Prop := ∀ r, Outside r → ¬h.root++r <+: q

theorem aside_minimax {x : Rel} (hx : h.root++minimaxDir::x <+: p) : Aside h p := by
  obtain ⟨y,rfl⟩ := hx
  intro r hr
  rw [List.append_assoc,List.cons_append]
  exact not_prefix_minimax hr

theorem aside_sandbox (hp : h.sandbox <+: p) : Aside h p := by
  rw [← List.append_nil h.sandbox,sandbox_eq] at hp
  exact aside_minimax hp

theorem aside_writeTarget : Aside h (writeTarget h f d target) := by
  rw [writeTarget_eq]
  cases hm : mirrorPath target h.sandbox h.root with
  | some mirror =>
    obtain ⟨rel,_,_,rfl⟩ := mirrorPath_eq_some hm
    exact aside_sandbox (List.prefix_append ..)
  | none =>
    rintro r ⟨hne,hhead⟩ ⟨x,rfl⟩
    rw [mirrorPath,List.append_assoc,if_pos (List.prefix_append ..),List.drop_left] at hm
    dsimp only at hm
    cases r with
    | nil => exact hne rfl
    | cons n r =>
      rw [if_neg (by simpa using hhead)] at hm
      cases hm

section Keeping

variable {verb : PyStr} {existed : Bool} {content : Files → Option ByteArray} {appended : Option ℕ}

/-- The disk behind the backup. -/
def backedUp (h : Host) (existed : Bool) (d : Files) (read : Rel) : Files :=
  (if existed then backupFile h d read else (none,d)).2

theorem same_backedUp : Same h d (backedUp h existed d read) := by
  cases existed with
  | false => exact fun _ _ => rfl
  | true => exact same_backupFile d read

theorem backupAndWrite_snd :
    (backupAndWrite h f verb existed d target read write content appended).2 =
      (openWrite f (backedUp h existed d read) write (content (backedUp h existed d read))).2 := by
  rw [backupAndWrite,← backedUp]
  rcases openWrite f (backedUp h existed d read) write (content (backedUp h existed d read)) with
    ⟨_ | _ | _,e⟩ <;> rfl

/-- A relation of disks that a write to a file of the kind keeps, and a backup. -/
structure Writes (h : Host) (P : Rel → Prop) (R : Files → Files → Prop) : Prop where
  refl : ∀ d, R d d
  trans : ∀ {d e u}, R d e → R e u → R d u
  mkdirs : ∀ {d e p}, P p → d.mkdirs [] p.dropLast = some e → R d e
  writeFile : ∀ {d e p} {b : ByteArray}, P p → d.writeFile p b = some e → R d e
  backup : ∀ d read, R d (backupFile h d read).2

namespace Writes

variable {P : Rel → Prop} {R : Files → Files → Prop} (hw : Writes h P R)
include hw

theorem leave (d : Files) (left : Option ByteArray) (hp : P p) : R d (leave d p left) := by
  rw [SandboxTools.leave]
  cases he : left.bind (d.writeFile p) with
  | none => exact hw.refl d
  | some e =>
    obtain ⟨x,_,hx⟩ := Option.bind_eq_some_iff.mp he
    exact hw.writeFile hp hx

theorem copy2 (src : Rel) (o : CopyOutcome ByteArray) (hp : P p) (hdir : d.isDir p = false) :
    R d (diskOf (copy2 d src p o)) := by
  rw [Sandbox.copy2]
  simp only [hdir,Bool.false_eq_true,if_false]
  cases d.bytes src with
  | none => exact hw.refl d
  | some b =>
    cases o with
    | done =>
      dsimp only
      cases he : d.writeFile p b with
      | none => exact hw.refl d
      | some e => exact hw.writeFile hp he
    | raises left =>
      cases left with
      | none => exact hw.refl d
      | some x => exact hw.leave d (some x) hp

theorem copyNew (src : Rel) (o : CopyOutcome ByteArray) (hp : P p) (hm : d.mkdirs [] p.dropLast = some e)
    (hnew : d.node p = none) : R d (diskOf (Sandbox.copy2 e src p o)) :=
  hw.trans (hw.mkdirs hp hm)
    (hw.copy2 src o hp (isDir_of_none ((node_mkdirs_dropLast hm).trans hnew)))

theorem takeBaseline {sb root : Rel} (o : CopyOutcome ByteArray)
    (hp : P (sb++[baseDir]++target.drop root.length)) : R d (takeBaseline d sb root target o) := by
  rw [Sandbox.takeBaseline]
  split
  · dsimp only
    split
    · next hnone =>
      split
      · exact hw.refl d
      · next e he => exact hw.copyNew target o hp he (Option.isNone_iff_eq_none.mp hnone)
    · exact hw.refl d
  · exact hw.refl d

theorem stageMirror (d : Files) (read : Rel) (hp : P write) :
    R d (diskOf (stageMirror f d read write)) := by
  rw [SandboxTools.stageMirror]
  split
  · next hu =>
    cases hm : d.mkdirs [] write.dropLast with
    | none => exact hw.refl d
    | some e => exact hw.copyNew read f.staging hp hm hu.2.2
  · exact hw.refl d

theorem backedUp (existed : Bool) (d : Files) (read : Rel) : R d (backedUp h existed d read) := by
  cases existed with
  | false => exact hw.refl d
  | true => exact hw.backup d read

theorem backupAndWrite (hp : P write) :
    R d (backupAndWrite h f verb existed d target read write content appended).2 := by
  rw [backupAndWrite_snd,openWrite]
  refine hw.trans (hw.backedUp existed d read) ?_
  cases hm : (SandboxTools.backedUp h existed d read).mkdirs [] write.dropLast with
  | none => exact hw.refl _
  | some e => exact hw.trans (hw.mkdirs hp hm) (hw.leave e _ hp)

theorem writeChecked (d : Files) (target read : Rel) (content : PyStr) (call : WriteCall)
    (hp : P write) : R d (writeChecked h f d target read write content call).2 := by
  rw [SandboxTools.writeChecked]
  split
  · exact hw.refl d
  · dsimp only
    split
    · exact hw.refl d
    · exact hw.backupAndWrite hp

theorem appendStaged (existed : Bool) (d : Files) (target read : Rel) (content : PyStr)
    (call : WriteCall) (hp : P write) :
    R d (appendStaged h f existed d target read write content call).2 := by
  rw [SandboxTools.appendStaged]
  split
  · exact hw.refl d
  · split
    · have hback := hw.backedUp existed d read
      cases existed with
      | false => exact hback
      | true => exact hback
    · exact hw.backupAndWrite hp

theorem behind_staging (content : PyStr) (call : WriteCall) (hdir : d.isDir read = false)
    (hp : P write) : R (diskOf (SandboxTools.stageMirror f d read write))
      (appendChecked h f d target read write content call).2 := by
  rw [SandboxTools.appendChecked,if_neg (by simp [hdir])]
  cases SandboxTools.stageMirror f d read write with
  | error e => exact hw.refl e
  | ok e => exact hw.appendStaged _ e target read content call hp

theorem appendChecked (d : Files) (target read : Rel) (content : PyStr) (call : WriteCall)
    (hp : P write) : R d (appendChecked h f d target read write content call).2 := by
  by_cases hdir : d.isDir read = true
  · rw [SandboxTools.appendChecked,if_pos hdir]
    exact hw.refl d
  · exact hw.trans (hw.stageMirror d read hp)
      (hw.behind_staging content call (by simpa using hdir) hp)

theorem editChecked (host : EditFile.Host) (d : Files) (target read : Rel) (old new : PyStr)
    (call : EditFile.EditCall) (hp : P write) :
    R d (editChecked h f host d target read write old new call).2 := by
  rw [SandboxTools.editChecked]
  dsimp only
  split
  · exact hw.refl d
  · exact hw.trans (hw.backup d read) (hw.leave _ _ hp)

end Writes

theorem writes_grows : Writes h (fun _ => True) (Grows h) where
  refl _ := fun _ _ hn => hn
  trans := Grows.trans
  mkdirs _ hm := fun _ _ hn => by rwa [node_mkdirs_of_ne_none hm hn]
  writeFile _ hm := fun q _ hn => by
    rw [node_writeFile hm]
    split
    · simp
    · exact hn
  backup d read := (same_backupFile d read).grows

theorem writes_frame : Writes h (Aside h) (Frame (Aside h)) where
  refl d := .refl _ d
  trans := Frame.trans
  mkdirs hp hm := .mkdirs hm (List.dropLast_prefix _) hp
  writeFile hp hm := .writeFile hm hp
  backup d read := (frame_backup h.root d read h.now).mono fun q hq => by
    rw [backupRoot,backupDir] at hq
    exact aside_minimax hq

theorem frame_redirected (d : Files) (target : Rel) : Frame (Aside h) d (redirected h f d target) := by
  rw [redirected,redirectWriteTarget]
  cases hm : mirrorPath target h.sandbox h.root with
  | none => exact .refl _ d
  | some mirror =>
    obtain ⟨rel,rfl,_,rfl⟩ := mirrorPath_eq_some hm
    dsimp only
    cases he : d.mkdirs [] (h.sandbox++rel).dropLast with
    | none => exact .refl _ d
    | some e =>
      refine (writes_frame.mkdirs (aside_sandbox (List.prefix_append ..)) he).trans ?_
      refine writes_frame.takeBaseline f.baseline (aside_sandbox ?_)
      rw [List.append_assoc]
      exact List.prefix_append ..

end Keeping

theorem added_mkdirs {q : Rel} (hm : d.mkdirs [] q = some e) (hq : h.sandbox <+: q)
    (hdir : d.isDir q = false) : Added h d e := by
  have hnode : e.node q = some .dir := by simpa using isDir_of_mkdirs (by simp) hm
  refine ⟨q,hq,?_,by simp [hnode]⟩
  rcases node_mkdirs hm q with hsame | ⟨hnone,_⟩
  · rw [hnode] at hsame
    rw [isDir_iff.mpr hsame.symm] at hdir
    cases hdir
  · exact hnone

theorem added_copy2 {src dst : Rel} {o : CopyOutcome ByteArray} (hsrc : d.isFile src = true)
    (hdst : d.node dst = none) (hdir : d.node dst.dropLast = some .dir) (hsb : h.sandbox <+: dst)
    (ho : o ≠ .raises none) : Added h d (diskOf (copy2 d src dst o)) := by
  have hne : dst ≠ [] := by
    rintro rfl
    simp at hdst
  obtain ⟨b,hb⟩ := isFile_iff_bytes.mp hsrc
  have hwrite : ∀ x, ∃ e, d.writeFile dst x = some e ∧ e.node dst = some (.file x) := by
    intro x
    obtain ⟨e,he⟩ := writeFile_isSome hne hdir (isDir_of_none hdst) x
    exact ⟨e,he,by simp [node_writeFile he]⟩
  refine ⟨dst,hsb,hdst,?_⟩
  rw [copy2,hb]
  simp only [isDir_of_none hdst,Bool.false_eq_true,if_false]
  cases o with
  | done =>
    obtain ⟨e,he,hnode⟩ := hwrite b
    simp [he,diskOf,hnode]
  | raises left =>
    cases left with
    | none => exact absurd rfl ho
    | some x =>
      obtain ⟨e,he,hnode⟩ := hwrite x
      simp [he,diskOf,hnode]

theorem sandbox_prefix_dropLast {x : Rel} (hx : x ≠ []) : h.sandbox <+: (h.sandbox++x).dropLast := by
  rw [List.dropLast_append_of_ne_nil hx]
  exact List.prefix_append ..

theorem added_takeBaseline {root : Rel} (hfile : d.isFile target = true)
    (hs : ¬Snapped f d (h.sandbox++[baseDir]++target.drop root.length)) :
    Added h d (takeBaseline d h.sandbox root target f.baseline) := by
  have hsb : h.sandbox <+: (h.sandbox++[baseDir]++target.drop root.length).dropLast := by
    rw [List.append_assoc]
    exact sandbox_prefix_dropLast (by simp)
  rw [takeBaseline,if_pos hfile]
  dsimp only
  generalize h.sandbox++[baseDir]++target.drop root.length = baseline at *
  simp only [Snapped,not_or,not_and] at hs
  obtain ⟨hnone,hfree,hraises⟩ := hs
  have hnone : d.node baseline = none := by simpa using hnone
  rw [hnone,Option.isNone_none,if_pos rfl]
  cases hm : d.mkdirs [] baseline.dropLast with
  | none => exact absurd (mkdirs_eq_none_iff.mp hm) hfree
  | some e =>
    by_cases hdir : d.isDir baseline.dropLast = true
    · have hnode := isDir_iff.mp hdir
      cases (mkdirs_nil_of_dir hnode).symm.trans hm
      exact added_copy2 hfile hnone hnode (hsb.trans (List.dropLast_prefix _)) (hraises hdir)
    · exact (added_mkdirs hm hsb (by simpa using hdir)).grow (writes_grows.copy2 _ _ trivial
        (isDir_of_none ((node_mkdirs_dropLast hm).trans hnone)))

theorem added_of_not_settled (hsb : d.node h.sandbox = some .dir) (hs : ¬Settled h f d target) :
    Added h d (redirected h f d target) := by
  simp only [Settled,not_forall,not_or,not_and] at hs
  obtain ⟨mirror,hm,hfree,hbase⟩ := hs
  obtain ⟨rel,rfl,_,rfl⟩ := mirrorPath_eq_some hm
  rw [redirected,redirectWriteTarget]
  simp only [hm]
  cases he : d.mkdirs [] (h.sandbox++rel).dropLast with
  | none => exact absurd (mkdirs_eq_none_iff.mp he) hfree
  | some e =>
    by_cases hdir : d.isDir (h.sandbox++rel).dropLast = true
    · obtain ⟨hfile,hsnap⟩ := hbase hdir
      cases (mkdirs_nil_of_dir (isDir_iff.mp hdir)).symm.trans he
      exact added_takeBaseline hfile hsnap
    · have hrel : rel ≠ [] := by
        rintro rfl
        rw [List.append_nil] at hdir
        refine hdir (isDir_iff.mpr ?_)
        have hsplit : h.sandbox.dropLast++[h.id.name] = h.sandbox := by
          simp [Host.sandbox,RunId.sandbox,List.dropLast_append_of_ne_nil]
        refine d.ancestor_dir (q:=[h.id.name]) (by simp) ?_
        rw [hsplit,hsb]
        simp
      exact (added_mkdirs he (sandbox_prefix_dropLast hrel) (by simpa using hdir)).grow
        (writes_grows.takeBaseline _ trivial)

theorem Added.not_same (hde : Added h d e) : ¬Same h d e := by
  obtain ⟨q,hq,hd,he⟩ := hde
  exact fun hsame => he ((hsame q hq).trans hd)

theorem Same.node_eq (hde : Same h d e) (hsb : d.node h.sandbox = some .dir)
    (hp : h.sandbox <+: p) {q : Rel} (hq : q <+: p) : e.node q = d.node q := by
  rcases List.prefix_or_prefix_of_prefix hp hq with hpre | ⟨r,hr⟩
  · exact hde q hpre
  · cases r with
    | nil =>
      rw [List.append_nil] at hr
      exact hde q (hr ▸ List.prefix_rfl)
    | cons n r =>
      have hdir : ∀ u : Files, u.node h.sandbox = some .dir → u.node q = some .dir := by
        intro u hu
        refine u.ancestor_dir (List.cons_ne_nil n r) ?_
        rw [hr,hu]
        simp
      exact (hdir e ((hde _ List.prefix_rfl).trans hsb)).trans (hdir d hsb).symm

theorem Same.blocked_iff (hde : Same h d e) (hsb : d.node h.sandbox = some .dir)
    (hp : h.sandbox <+: p) : e.Blocked p.dropLast ↔ d.Blocked p.dropLast :=
  blocked_congr fun _ hq => bytes_eq_of_node (hde.node_eq hsb hp (hq.trans (List.dropLast_prefix p)))

theorem Same.kept_iff (hde : Same h d e)
    (hsb : d.node h.sandbox = some .dir) : Kept h e p left ↔ Kept h d p left := by
  refine forall_congr' fun hp => ?_
  rw [hde.blocked_iff hsb hp,isDir_eq_of_node (hde.node_eq hsb hp (List.dropLast_prefix p)),
    bytes_eq_of_node (hde.node_eq hsb hp List.prefix_rfl)]

theorem leave_same
    (hleft : h.sandbox <+: p → ∀ x, left = some x → d.bytes p = some x) :
    Same h d (leave d p left) := by
  intro q hq
  rw [leave]
  cases hw : left.bind (d.writeFile p) with
  | none => rfl
  | some e =>
    obtain ⟨x,hx,he⟩ := Option.bind_eq_some_iff.mp hw
    rw [Option.getD_some,node_writeFile he]
    split
    · next heq =>
      subst heq
      exact (bytes_eq_some.mp (hleft hq x hx)).symm
    · rfl

theorem bytes_leave {x : ByteArray} (hne : p ≠ []) (hdir : d.node p.dropLast = some .dir)
    (hp : d.isDir p = false) : (leave d p (some x)).bytes p = some x := by
  obtain ⟨e,he⟩ := writeFile_isSome hne hdir hp x
  rw [leave,Option.bind_some,he,Option.getD_some,bytes_writeFile he,if_pos rfl]

theorem openWrite_same_iff {content : Option ByteArray} (hsb : d.node h.sandbox = some .dir)
    (hdir : h.sandbox <+: p → d.isDir p = false) :
    Same h d (openWrite f d p content).2 ↔ Kept h d p (leftBehind f content) := by
  rw [openWrite]
  cases hm : d.mkdirs [] p.dropLast with
  | none => exact ⟨fun _ _ => .inl (mkdirs_eq_none_iff.mp hm),fun _ _ _ => rfl⟩
  | some e =>
    have hfree : ¬d.Blocked p.dropLast := by
      rw [← mkdirs_eq_none_iff,hm]
      simp
    dsimp only
    constructor
    · intro hsame hp
      have hdir := hdir hp
      have hparent : h.sandbox <+: p.dropLast := by
        obtain ⟨x,rfl⟩ := hp
        refine sandbox_prefix_dropLast ?_
        rintro rfl
        rw [List.append_nil,isDir_iff.mpr hsb] at hdir
        cases hdir
      have hisDir : d.isDir p.dropLast = true := by
        by_contra hno
        exact ((added_mkdirs hm hparent (by simpa using hno)).grow (writes_grows.leave e _ trivial)).not_same hsame
      cases (mkdirs_nil_of_dir (isDir_iff.mp hisDir)).symm.trans hm
      refine .inr ⟨hisDir,fun x hx => ?_⟩
      rw [hx] at hsame
      have hne : p ≠ [] := by
        rintro rfl
        simp [isDir_iff.mpr] at hdir
      rw [← bytes_eq_of_node (hsame p hp),bytes_leave hne (isDir_iff.mp hisDir) hdir]
    · intro hkept
      by_cases hp : h.sandbox <+: p
      · obtain ⟨hisDir,hleft⟩ := (hkept hp).resolve_left hfree
        cases (mkdirs_nil_of_dir (isDir_iff.mp hisDir)).symm.trans hm
        exact leave_same fun _ => hleft
      · have hmade : Same h d e := by
          intro q hq
          refine (node_mkdirs hm q).resolve_right ?_
          rintro ⟨_,_,hpre⟩
          exact hp (hq.trans (hpre.trans (List.dropLast_prefix p)))
        exact hmade.trans (leave_same fun hp' => absurd hp' hp)

theorem blocked_of_landing {content : ByteArray} (hw : f.write = none) (hdir : d.isDir p = false)
    (herr : ∀ e, openWrite f d p (some content) ≠ (.done,e)) : d.Blocked p.dropLast := by
  rw [← mkdirs_eq_none_iff]
  by_contra hsome
  obtain ⟨e,he⟩ := Option.ne_none_iff_exists'.mp hsome
  have hne : p ≠ [] := by
    rintro rfl
    simp [isDir_iff.mpr] at hdir
  have hparent : e.node p.dropLast = some .dir := by simpa using isDir_of_mkdirs (by simp) he
  have hp : e.isDir p = false := by rwa [isDir_eq_of_node (node_mkdirs_dropLast he)]
  obtain ⟨u,hu⟩ := writeFile_isSome hne hparent hp .empty
  refine herr (leave e p (leftBehind f (some content))) ?_
  simp [openWrite,he,landing,hw,hu]

section BackupAndWrite

variable {verb : PyStr} {existed : Bool} {content : Files → Option ByteArray} {appended : Option ℕ}

theorem backupAndWrite_isError
    (herr : (backupAndWrite h f verb existed d target read write content appended).1.isError = true)
    (e : Files) :
    openWrite f (backedUp h existed d read) write (content (backedUp h existed d read)) ≠ (.done,e) := by
  intro hdone
  rw [backupAndWrite,← backedUp,hdone] at herr
  cases herr

theorem backupAndWrite_same_iff {left : Option ByteArray} (hsb : d.node h.sandbox = some .dir)
    (hdir : d.isDir write = false)
    (herr : (backupAndWrite h f verb existed d target read write content appended).1.isError = true)
    (hleft : leftBehind f (content (backedUp h existed d read)) = left ∨
      f.write = none ∧ ∃ c, content (backedUp h existed d read) = some c) :
    Same h d (backupAndWrite h f verb existed d target read write content appended).2 ↔
      Kept h d write left := by
  have hback : Same h d (backedUp h existed d read) := same_backedUp
  have hopen : h.sandbox <+: write → (backedUp h existed d read).isDir write = false := fun hp => by
    rwa [isDir_eq_of_node (hback.node_eq hsb hp List.prefix_rfl)]
  have hsb' : (backedUp h existed d read).node h.sandbox = some .dir :=
    (hback _ List.prefix_rfl).trans hsb
  have hsame : Same h d (backupAndWrite h f verb existed d target read write content appended).2 ↔
      Kept h d write (leftBehind f (content (backedUp h existed d read))) := by
    rw [← hback.kept_iff hsb,← openWrite_same_iff hsb' hopen,backupAndWrite_snd]
    exact ⟨hback.symm.trans,hback.trans⟩
  rw [hsame]
  rcases hleft with hleft | ⟨hnone,c,hc⟩
  · rw [hleft]
  · have hblocked : h.sandbox <+: write → d.Blocked write.dropLast := by
      intro hp
      rw [← hback.blocked_iff hsb hp]
      have hland := backupAndWrite_isError herr
      rw [hc] at hland
      exact blocked_of_landing hnone (hopen hp) hland
    exact ⟨fun _ hp => .inl (hblocked hp),fun _ hp => .inl (hblocked hp)⟩

end BackupAndWrite

theorem writeChecked_same_iff (hsb : d.node h.sandbox = some .dir)
    (hwrite : d.isDir read = false → d.isDir write = false)
    (herr : (writeChecked h f d target read write content call).1.isError = true) :
    Same h d (writeChecked h f d target read write content call).2 ↔ (d.isDir read = false →
      locked h f (lit "write_file") (lit "change") (d.node read).isSome d target read call = none →
      Kept h d write (leftBehind f none)) := by
  rw [writeChecked] at herr ⊢
  split
  · next hdir => exact ⟨fun _ hno => by simp [hdir] at hno,fun _ _ _ => rfl⟩
  · next hdir =>
    rw [if_neg hdir] at herr
    have hdir : d.isDir read = false := by simpa using hdir
    dsimp only at herr ⊢
    split
    · next hlock => exact ⟨fun _ _ hno => by simp [hlock] at hno,fun _ _ _ => rfl⟩
    · next hlock =>
      rw [hlock] at herr
      rw [backupAndWrite_same_iff hsb (hwrite hdir) herr]
      · exact ⟨fun hk _ _ => hk,fun hk => hk hdir hlock⟩
      · cases hc : encode content with
        | none => exact .inl rfl
        | some c =>
          cases hw : f.write with
          | none => exact .inr ⟨rfl,c,rfl⟩
          | some fault => exact .inl (by simp [leftBehind,hw])

theorem appendStaged_same_iff {existed : Bool}
    (hsb : d.node h.sandbox = some .dir) (hwrite : d.isDir write = false)
    (herr : (appendStaged h f existed d target read write content call).1.isError = true) :
    Same h d (appendStaged h f existed d target read write content call).2 ↔
      (locked h f (lit "append_file") (lit "append") existed d target read call = none →
        encode content ≠ none → Kept h d write (f.write.bind Prod.snd)) := by
  rw [appendStaged] at herr ⊢
  split
  · next hlock => exact ⟨fun _ hno => by simp [hlock] at hno,fun _ _ _ => rfl⟩
  · next hlock =>
    rw [hlock] at herr
    dsimp only at herr
    cases hc : encode content with
    | none =>
      refine ⟨fun _ _ hno => absurd rfl hno,fun _ => ?_⟩
      cases existed with
      | false => exact fun _ _ => rfl
      | true => exact same_backupFile d read
    | some tail =>
      rw [hc] at herr
      dsimp only at herr ⊢
      rw [backupAndWrite_same_iff hsb hwrite herr]
      · exact ⟨fun hk _ _ => hk,fun hk => hk hlock (Option.some_ne_none tail)⟩
      · cases hw : f.write with
        | none => exact .inr ⟨rfl,_,rfl⟩
        | some fault => exact .inl (by simp [leftBehind,hw])

theorem stageMirror_error (hu : Unstaged d read write) (hs : d.Blocked write.dropLast ∨
    d.isDir write.dropLast = true ∧ f.staging = .raises none) : stageMirror f d read write = .error d := by
  rw [stageMirror,if_pos hu]
  rcases hs with hblocked | ⟨hdir,hraises⟩
  · rw [mkdirs_eq_none_iff.mpr hblocked]
  · rw [mkdirs_nil_of_dir (isDir_iff.mp hdir),hraises]
    cases hb : d.bytes read <;> simp [copy2,hb]

theorem added_stageMirror (hu : Unstaged d read write) (hp : h.sandbox <+: write)
    (hdir : d.isDir write.dropLast = true) (hraises : f.staging ≠ .raises none) :
    Added h d (diskOf (stageMirror f d read write)) := by
  rw [stageMirror,if_pos hu,mkdirs_nil_of_dir (isDir_iff.mp hdir)]
  exact added_copy2 hu.2.1 hu.2.2 (isDir_iff.mp hdir) hp hraises

theorem appendChecked_same_iff (hsb : d.node h.sandbox = some .dir)
    (hwrite : d.isDir read = false → d.isDir write = false)
    (hstage : Unstaged d read write → h.sandbox <+: write ∧
      (d.Blocked write.dropLast ∨ d.isDir write.dropLast = true))
    (herr : (appendChecked h f d target read write content call).1.isError = true) :
    Same h d (appendChecked h f d target read write content call).2 ↔
      if Unstaged d read write then d.Blocked write.dropLast ∨ f.staging = .raises none
      else d.isDir read = false →
        locked h f (lit "append_file") (lit "append") (d.node read).isSome d target read call = none →
        encode content ≠ none → Kept h d write (f.write.bind Prod.snd) := by
  by_cases hdir : d.isDir read = true
  · have hnot : ¬Unstaged d read write := by
      rintro ⟨_,hfile,_⟩
      obtain ⟨b,hb⟩ := isFile_iff.mp hfile
      rw [isDir_iff,hb] at hdir
      cases hdir
    rw [if_neg hnot,appendChecked,if_pos hdir]
    exact ⟨fun _ hno => by simp [hdir] at hno,fun _ _ _ => rfl⟩
  · have hread : d.isDir read = false := by simpa using hdir
    split
    · next hu =>
      obtain ⟨hp,hparent⟩ := hstage hu
      have hfails : d.Blocked write.dropLast ∨ d.isDir write.dropLast = true ∧ f.staging = .raises none →
          Same h d (appendChecked h f d target read write content call).2 := by
        intro hs
        rw [appendChecked,if_neg hdir,stageMirror_error hu hs]
        exact fun _ _ => rfl
      constructor
      · intro hsame
        by_contra hno
        rw [not_or] at hno
        have hnew := added_stageMirror hu hp (hparent.resolve_left hno.1) hno.2
        exact (hnew.grow (writes_grows.behind_staging content call hread trivial)).not_same hsame
      · rintro (hblocked | hraises)
        · exact hfails (.inl hblocked)
        · exact hfails (hparent.imp id fun hparent => ⟨hparent,hraises⟩)
    · next hu =>
      have hstaged : appendChecked h f d target read write content call =
          appendStaged h f (d.node read).isSome d target read write content call := by
        rw [appendChecked,if_neg hdir,stageMirror,if_neg hu]
      rw [hstaged] at herr ⊢
      rw [appendStaged_same_iff hsb (hwrite hread) herr]
      exact ⟨fun hk _ => hk,fun hk => hk hread⟩

theorem check_editHost (h : Host) (f : Faults) (d : Files) (call : EditFile.EditCall) :
    (∃ message, editArgs h call = .error (fail message) ∧
      EditFile.check (editHost h f d) call = .error (EditFile.fail message)) ∨
    ∃ target old new, editArgs h call = .ok (target,old,new) ∧
      EditFile.check (editHost h f d) call = EditFile.checkTarget (editHost h f d) call.expectedSha256
        (editTarget h f (redirected h f d target) target (readTarget h d target)
          (writeTarget h f d target)) old new := by
  obtain ⟨path,oldString,newString,replaceAll,expected⟩ := call
  cases path with
  | str path =>
    cases path with
    | nil => exact .inl ⟨_,rfl,rfl⟩
    | cons c path =>
      cases oldString with
      | str old =>
        cases newString with
        | str new =>
          simp only [editArgs,EditFile.check]
          by_cases hsame : old = new
          · exact .inl ⟨_,by rw [if_pos hsame],by rw [if_pos hsame]⟩
          · rw [if_neg hsame,if_neg hsame]
            cases hr : h.safeResolve (c::path) with
            | error message => exact .inl ⟨message,rfl,by simp [editHost,hr,Except.map]⟩
            | ok target => exact .inr ⟨target,old,new,rfl,by simp [editHost,hr,Except.map]⟩
        | _ => exact .inl ⟨_,rfl,rfl⟩
      | _ => exact .inl ⟨_,rfl,rfl⟩
  | _ => exact .inl ⟨_,rfl,rfl⟩

theorem apply_not_found {replaceAll : Bool}
    (hc : ¬Found replaceAll c) : (EditFile.apply host replaceAll c).2 = none := by
  rw [EditFile.apply]
  dsimp only
  split
  · rfl
  · next hsome =>
    split
    · rfl
    · next hmany =>
      refine absurd ⟨hsome,fun hlt => ?_⟩ hc
      cases replaceAll with
      | true => rfl
      | false => exact absurd ⟨hlt,rfl⟩ hmany

theorem apply_found {replaceAll : Bool}
    (hc : Found replaceAll c) (herr : ∀ report, (EditFile.apply host replaceAll c).1 ≠ .edited report) :
    (EditFile.apply host replaceAll c).2 = match c.target.writeFault with
      | some (_,left) => left
      | none => some .empty := by
  have hmany : ¬(1 < Substrings.count c.old c.original ∧ replaceAll = false) := by
    rintro ⟨hlt,hno⟩
    rw [hc.2 hlt] at hno
    cases hno
  rw [EditFile.apply] at herr ⊢
  dsimp only at herr ⊢
  rw [if_neg hc.1,if_neg hmany] at herr ⊢
  cases hw : c.target.writeFault with
  | some fault => rfl
  | none =>
    simp only [hw] at herr ⊢
    split
    · rfl
    · next written hwritten =>
      simp only [hwritten] at herr
      exact absurd rfl (herr _)

theorem checkTarget_eq_ok {expected : Json} {t : EditFile.Target} {old new : PyStr} (hc : EditFile.checkTarget host expected t old new = .ok c) :
    c.target = t ∧ ∃ content, t.onDisk = .file content := by
  rw [EditFile.checkTarget] at hc
  cases hdisk : t.onDisk with
  | missing =>
    rw [hdisk] at hc
    cases hc
  | directory =>
    rw [hdisk] at hc
    cases hc
  | unreadable message =>
    rw [hdisk] at hc
    cases hc
  | file content =>
    simp only [hdisk] at hc
    split at hc
    · cases hc
    · split at hc
      · cases hc
      · cases hc
        exact ⟨rfl,content,rfl⟩

theorem onDisk_eq_file {content : ByteArray} (hdisk : onDisk f d read = .file content) :
    d.node read = some (.file content) := by
  rw [onDisk] at hdisk
  split at hdisk
  · cases hdisk
  · cases hdisk
  · cases hdisk
  · next hnode _ =>
    cases hdisk
    exact hnode

theorem leave_opened_same_iff (hsb : d.node h.sandbox = some .dir)
    (hback : Same h d u) (hdir : d.isDir write = false)
    (hparent : h.sandbox <+: write → d.Blocked write.dropLast ∨ d.isDir write.dropLast = true) :
    Same h d (leave u write (if (u.writeFile write .empty).isSome then left else none)) ↔
      Kept h d write left := by
  have hne : write ≠ [] := by
    rintro rfl
    simp [isDir_iff.mpr] at hdir
  have hopen : h.sandbox <+: write → d.isDir write.dropLast = true →
      u.node write.dropLast = some .dir ∧ u.isDir write = false := by
    intro hp hisDir
    rw [hback.node_eq hsb hp (List.dropLast_prefix _),
      isDir_eq_of_node (hback.node_eq hsb hp List.prefix_rfl)]
    exact ⟨isDir_iff.mp hisDir,hdir⟩
  split
  · next hsome =>
    constructor
    · intro hsame hp
      refine (hparent hp).imp id fun hisDir => ⟨hisDir,fun x hx => ?_⟩
      obtain ⟨hup,hudir⟩ := hopen hp hisDir
      rw [← bytes_eq_of_node (hsame write hp),hx]
      exact bytes_leave hne hup hudir
    · refine fun hkept => hback.trans (leave_same fun hp x hx => ?_)
      rw [bytes_eq_of_node (hback write hp)]
      refine ((hkept hp).resolve_left fun hblocked => ?_).2 x hx
      obtain ⟨e,he⟩ := Option.isSome_iff_exists.mp hsome
      rw [← hback.blocked_iff hsb hp] at hblocked
      exact not_blocked_of_dir (parent_of_writeFile he) hblocked
  · next hnone =>
    refine ⟨fun _ hp => (hparent hp).imp id fun hisDir => absurd ?_ hnone,fun _ => hback⟩
    obtain ⟨hup,hudir⟩ := hopen hp hisDir
    obtain ⟨e,he⟩ := writeFile_isSome hne hup hudir .empty
    simp [he]

theorem editChecked_same_iff {old new : PyStr} {call : EditFile.EditCall}
    (hsb : d.node h.sandbox = some .dir)
    (hwrite : d.isFile read = true → d.isDir write = false ∧ (h.sandbox <+: write →
      d.Blocked write.dropLast ∨ d.isDir write.dropLast = true))
    (herr : (editChecked h f host d target read write old new call).1.isError = true) :
    Same h d (editChecked h f host d target read write old new call).2 ↔
      ∀ c, EditFile.checkTarget host call.expectedSha256 (editTarget h f d target read write) old new =
        .ok c → Found (truthy call.replaceAll) c → Kept h d write (leftBehind f none) := by
  rw [editChecked] at herr ⊢
  dsimp only at herr ⊢
  cases hcheck : EditFile.checkTarget host call.expectedSha256 (editTarget h f d target read write)
      old new with
  | error outcome => exact ⟨fun _ c hno => (by cases hno),fun _ _ _ => rfl⟩
  | ok c =>
    rw [hcheck] at herr
    dsimp only at herr ⊢
    obtain ⟨htarget,content,hdisk⟩ := checkTarget_eq_ok hcheck
    obtain ⟨hdir,hparent⟩ := hwrite (isFile_iff.mpr ⟨content,onDisk_eq_file hdisk⟩)
    have hback : Same h d (backupFile h d read).2 := same_backupFile d read
    by_cases hc : Found (truthy call.replaceAll) c
    · have hedited : ∀ report, (EditFile.apply host (truthy call.replaceAll) c).1 ≠ .edited report := by
        intro report hedited
        rw [hedited] at herr
        cases herr
      have hopened : (EditFile.apply host (truthy call.replaceAll) c).2 =
          if ((backupFile h d read).2.writeFile write .empty).isSome then leftBehind f none else none := by
        rw [apply_found hc hedited,htarget,editTarget]
        cases (backupFile h d read).2.writeFile write .empty <;> rfl
      rw [hopened,leave_opened_same_iff hsb hback hdir hparent]
      exact ⟨fun hk _ _ _ => hk,fun hk => hk c rfl hc⟩
    · rw [apply_not_found hc]
      refine ⟨fun _ c' hc' hfound => ?_,fun _ => hback⟩
      cases hc'
      exact absurd hfound hc

theorem node_workspace (hf : Frame (Aside h) d e) {r : Rel} (hr : Outside r) :
    e.node (h.root++r) = d.node (h.root++r) :=
  hf.node_eq (fun ha => ha r hr List.prefix_rfl) fun _ ha => ha r hr

theorem frame_run (d : Files) (call : Call) : Frame (Aside h) d (run h f d call).2 := by
  cases call with
  | write call =>
    rw [run,writeFileTool]
    split
    · exact .refl _ d
    · exact (frame_redirected d _).trans (writes_frame.writeChecked _ _ _ _ _ aside_writeTarget)
  | append call =>
    rw [run,appendFileTool]
    split
    · exact .refl _ d
    · exact (frame_redirected d _).trans (writes_frame.appendChecked _ _ _ _ _ aside_writeTarget)
  | edit call =>
    rw [run,editFileTool]
    split
    · exact .refl _ d
    · exact (frame_redirected d _).trans (writes_frame.editChecked _ _ _ _ _ _ _ aside_writeTarget)

/-- The calls of any runs, and their faults, leave the workspace outside of `.minimax` as it was. -/
theorem calls_spare_workspace {root : Rel} (d : Files) (calls : List (Host × Faults × Call))
    (hroot : ∀ c ∈ calls, c.1.root = root) {r : Rel} (hr : Outside r) :
    (calls.foldl (fun d c => (run c.1 c.2.1 d c.2.2).2) d).node (root++r) = d.node (root++r) := by
  induction calls generalizing d with
  | nil => rfl
  | cons c calls ih =>
    obtain rfl := hroot c List.mem_cons_self
    rw [List.foldl_cons,ih _ fun c' hc' => hroot c' (List.mem_cons_of_mem c hc')]
    exact node_workspace (frame_run d c.2.2) hr

theorem untouched_iff (hsb : d.node h.sandbox = some .dir) (hf : Frame (Aside h) d e) :
    Untouched h d e ↔ Same h d e := by
  refine ⟨fun hu => hu.sandbox,fun hsame => ⟨hsame,?_,fun r hr => node_workspace hf hr⟩⟩
  have hsb' : e.node h.sandbox = some .dir := (hsame _ List.prefix_rfl).trans hsb
  rw [sandboxFilesWritten_of_dir (isDir_iff.mpr hsb),sandboxFilesWritten_of_dir (isDir_iff.mpr hsb')]
  exact sandboxMirrorFiles_congr hsame

theorem same_redirected_iff (target : Rel) {g : Files → Files} {P : Prop} (hsb : d.node h.sandbox = some .dir)
    (hgrows : ∀ e, Grows h e (g e)) (hP : Settled h f d target → (Same h d (g d) ↔ P)) :
    Same h d (g (redirected h f d target)) ↔ Settled h f d target ∧ P := by
  by_cases hs : Settled h f d target
  · rw [redirected_of_settled hs,hP hs]
    exact ⟨fun h => ⟨hs,h⟩,And.right⟩
  · have hnew := (added_of_not_settled hsb hs).grow (hgrows _)
    exact ⟨fun hsame => absurd hsame hnew.not_same,fun hboth => absurd hboth.1 hs⟩

theorem parent_of_writeTarget (hs : Settled h f d target) (hnew : writeTarget h f d target ≠ target) :
    h.sandbox <+: writeTarget h f d target ∧ (d.Blocked (writeTarget h f d target).dropLast ∨
      d.isDir (writeTarget h f d target).dropLast = true) := by
  rw [writeTarget_eq] at hnew ⊢
  cases hm : mirrorPath target h.sandbox h.root with
  | none =>
    rw [hm] at hnew
    exact absurd rfl hnew
  | some mirror =>
    obtain ⟨rel,_,_,rfl⟩ := mirrorPath_eq_some hm
    exact ⟨List.prefix_append ..,(hs _ hm).imp id And.left⟩

theorem parent_of_file {b : ByteArray} (hp : d.node p = some (.file b)) : d.node p.dropLast = some .dir := by
  have hne : p ≠ [] := by
    rintro rfl
    simp at hp
  have hsplit := List.dropLast_append_getLast hne
  refine d.parent_dir (n:=p.getLast hne) ?_
  rw [hsplit,hp]
  simp

theorem writeFileTool_same_iff (hsb : d.node h.sandbox = some .dir)
    (herr : (writeFileTool h f d call).1.isError = true) :
    Same h d (writeFileTool h f d call).2 ↔ Harmless h f d (.write call) := by
  rw [writeFileTool] at herr ⊢
  rw [Harmless]
  cases hargs : writeArgs h call with
  | error reply => exact ⟨fun _ _ _ hno => (by cases hno),fun _ _ _ => rfl⟩
  | ok args =>
    obtain ⟨target,content⟩ := args
    rw [hargs] at herr
    dsimp only at herr ⊢
    have hiff := same_redirected_iff (f:=f) target
      (g:=fun e => (writeChecked h f e target (readTarget h d target) (writeTarget h f d target)
        content call).2) hsb (fun e => writes_grows.writeChecked e _ _ _ _ trivial) fun hs =>
      writeChecked_same_iff hsb writeTarget_not_dir (by rwa [redirected_of_settled hs] at herr)
    rw [hiff]
    constructor
    · rintro hboth _ _ ⟨⟩
      exact hboth
    · exact fun hall => hall target content rfl

theorem appendFileTool_same_iff (hsb : d.node h.sandbox = some .dir)
    (herr : (appendFileTool h f d call).1.isError = true) :
    Same h d (appendFileTool h f d call).2 ↔ Harmless h f d (.append call) := by
  rw [appendFileTool] at herr ⊢
  rw [Harmless]
  cases hargs : writeArgs h call with
  | error reply => exact ⟨fun _ _ _ hno => (by cases hno),fun _ _ _ => rfl⟩
  | ok args =>
    obtain ⟨target,content⟩ := args
    rw [hargs] at herr
    dsimp only at herr ⊢
    have hnew : Unstaged d (readTarget h d target) (writeTarget h f d target) →
        writeTarget h f d target ≠ target := by
      rintro ⟨hne,_,hnone⟩ heq
      rw [readTarget_eq (f:=f),heq,ite_self] at hne
      exact hne rfl
    have hiff := same_redirected_iff (f:=f) target
      (g:=fun e => (appendChecked h f e target (readTarget h d target) (writeTarget h f d target)
        content call).2) hsb (fun e => writes_grows.appendChecked e _ _ _ _ trivial) fun hs =>
      appendChecked_same_iff hsb writeTarget_not_dir (fun hu => parent_of_writeTarget hs (hnew hu))
        (by rwa [redirected_of_settled hs] at herr)
    rw [hiff]
    constructor
    · rintro hboth _ _ ⟨⟩
      exact hboth
    · exact fun hall => hall target content rfl

theorem editFileTool_same_iff {call : EditFile.EditCall} (hsb : d.node h.sandbox = some .dir)
    (herr : (editFileTool h f d call).1.isError = true) :
    Same h d (editFileTool h f d call).2 ↔ Harmless h f d (.edit call) := by
  rw [editFileTool] at herr ⊢
  rw [Harmless]
  cases hargs : editArgs h call with
  | error reply => exact ⟨fun _ _ _ _ hno => (by cases hno),fun _ _ _ => rfl⟩
  | ok args =>
    obtain ⟨target,old,new⟩ := args
    rw [hargs] at herr
    dsimp only at herr ⊢
    have hwrite : Settled h f d target → d.isFile (readTarget h d target) = true →
        d.isDir (writeTarget h f d target) = false ∧ (h.sandbox <+: writeTarget h f d target →
          d.Blocked (writeTarget h f d target).dropLast ∨
            d.isDir (writeTarget h f d target).dropLast = true) := by
      intro hs hfile
      obtain ⟨b,hb⟩ := isFile_iff.mp hfile
      refine ⟨writeTarget_not_dir ?_,fun _ => ?_⟩
      · rw [isDir,hb]
      · by_cases hnew : writeTarget h f d target = target
        · rw [readTarget_eq (f:=f),hnew,ite_self] at hb
          rw [hnew]
          exact .inr (isDir_iff.mpr (parent_of_file hb))
        · exact (parent_of_writeTarget hs hnew).2
    have hiff := same_redirected_iff (f:=f) target
      (g:=fun e => (editChecked h f (editHost h f d) e target (readTarget h d target)
        (writeTarget h f d target) old new call).2) hsb
      (fun e => writes_grows.editChecked _ e _ _ _ _ _ trivial) fun hs =>
      editChecked_same_iff hsb (hwrite hs) (by rwa [redirected_of_settled hs] at herr)
    rw [hiff]
    constructor
    · rintro hboth _ _ _ ⟨⟩
      exact hboth
    · exact fun hall => hall target old new rfl

end Proofs

/-- A call of a sandboxed run that fails leaves mirror, baselines, listing and workspace as they
were exactly when it stops before the redirect or everything that the redirect, the staging and
the write would leave behind is there already. -/
theorem failed_call_untouched_iff (h : Host) (f : Faults) (d : Files) (call : Call)
    (hsb : d.node h.sandbox = some .dir) (herr : (run h f d call).1.isError = true) :
    Untouched h d (run h f d call).2 ↔ Harmless h f d call := by
  rw [untouched_iff hsb (frame_run d call)]
  cases call with
  | write call => exact writeFileTool_same_iff hsb herr
  | append call => exact appendFileTool_same_iff hsb herr
  | edit call => exact editFileTool_same_iff hsb herr

/-- A device that does not fail. -/
def noFaults : Faults := ⟨.done,.done,none,true,none,lit "[Errno 20] Not a directory"⟩

/-- The hash is that of the one text that is hashed. -/
def demoHost : Host where
  root := demoRoot
  id := runOne
  linesep := .lf
  sha256 _ := lit "ca978112ca1bbdcafac231b39a23dc4da786eff8147c4e72b9807785afee48bb"
  safeResolve path := .ok (demoRoot++[path])
  closestHint _ _ := []
  inFlightWriter _ := none
  now := stampAt '0' '0'

/-- The workspace has one file, and the sandbox is empty. -/
def demoFiles : Files :=
  ((toolWrite .empty (demoRoot++[lit "f"]) "a".toByteArray).bind fun d =>
    d.mkdirs [] demoHost.sandbox).getD .empty

/-- A call whose expected hash is that of another text. -/
def staleCall : WriteCall := ⟨.str (lit "f"),.str (lit "a"),.str (List.replicate 64 (ch '0'))⟩

/-- The run has written the file. -/
def writtenFiles : Files :=
  (run demoHost noFaults demoFiles (.write ⟨.str (lit "f"),.str (lit "a"),.null⟩)).2

theorem calls_spare_demoFiles :
    ([(demoHost,noFaults,Call.write staleCall),
      (demoHost,noFaults,.write ⟨.str (lit "f"),.str (lit "b"),.null⟩)].foldl
        (fun d c => (run c.1 c.2.1 d c.2.2).2) demoFiles).node (demoRoot++[lit "f"]) =
      demoFiles.node (demoRoot++[lit "f"]) :=
  calls_spare_workspace demoFiles _ (by simp [demoHost]) (by decide)

theorem refused_write_untouched :
    Untouched demoHost writtenFiles (run demoHost noFaults writtenFiles (.write staleCall)).2 := by
  refine (failed_call_untouched_iff demoHost noFaults writtenFiles (.write staleCall)
    (by decide +kernel) (by decide +kernel)).mpr ?_
  rintro target content ⟨⟩
  refine ⟨?_,fun _ hlock => ?_⟩
  · have hmirror : mirrorPath (demoRoot++[lit "f"]) demoHost.sandbox demoHost.root =
        some (demoHost.sandbox++[lit "f"]) := by decide +kernel
    intro mirror hm
    cases hmirror.symm.trans hm
    exact .inr ⟨by decide +kernel,fun _ => .inl (by decide +kernel)⟩
  · have hsome : (locked demoHost noFaults (lit "write_file") (lit "change")
        (writtenFiles.node (readTarget demoHost writtenFiles (demoRoot++[lit "f"]))).isSome writtenFiles
        (demoRoot++[lit "f"]) (readTarget demoHost writtenFiles (demoRoot++[lit "f"])) staleCall).isSome =
        true := by decide +kernel
    rw [hlock] at hsome
    cases hsome

/-- An append that is refused for its hash has copied the file into the mirror, where it is
listed as written. -/
theorem refused_append_listed : ¬∀ (h : Host) (f : Faults) (d : Files) (call : Call),
    d.node h.sandbox = some .dir → (run h f d call).1.isError = true →
    Untouched h d (run h f d call).2 := by
  intro hall
  have hlisted := (hall demoHost noFaults demoFiles (.append staleCall) (by decide +kernel)
    (by decide +kernel)).written
  revert hlisted
  decide +kernel

end MinimaxCode.SandboxTools
