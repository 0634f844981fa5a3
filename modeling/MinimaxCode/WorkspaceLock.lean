import MinimaxCode.LockFile
import MinimaxCode.OrderedDict
import MinimaxCode.Runs

/-!
# The lock of a workspace index

An index operation takes a lock in the memory of its process and, when it is exclusive, a
claim in a file that all processes share. A claim is stale when its process is dead or it is
older than a time limit, and a contender then writes its own claim over it. A release gives
the memory back and removes the file.
-/

namespace MinimaxCode.WorkspaceLock

open PyText OrderedDict Runs

structure InMemoryLockState where
  operation : IndexOperation
  readers : ℕ
  exclusive : Bool

/-- `_try_acquire_in_memory_lock`: the state with the lock taken. -/
def tryAcquireInMemoryLock (state : Option InMemoryLockState) (op : IndexOperation) :
    Option InMemoryLockState :=
  match state with
  | none => some ⟨op,if op.isExclusive then 0 else 1,op.isExclusive⟩
  | some state =>
    if op.isExclusive then
      if 0 < state.readers || state.exclusive then none
      else some { state with exclusive := true, operation := op }
    else if state.exclusive then none
    else some { state with readers := state.readers+1 }

def releaseInMemoryLock (state : Option InMemoryLockState) (op : IndexOperation) :
    Option InMemoryLockState :=
  state.bind fun state =>
    let state := if op.isExclusive then { state with exclusive := false }
      else { state with readers := state.readers-1 }
    if !state.exclusive && state.readers == 0 then none else some state

/-- Where a call of `try_lock` stands. -/
inductive Stage
  | acquired
  | cleared
  | refused (operation : PyStr) (pid : Option ℤ)
  | granted
  deriving DecidableEq

/-- A call that has taken the lock in memory, and then its guard: whether it is released, and how many
calls of `release` have found that it is not, have said so, and have given the memory back. -/
structure Holder where
  pid : ℕ
  operation : IndexOperation
  stage : Stage
  started : ℕ
  released : Bool
  checked : ℕ
  marked : ℕ
  freed : ℕ

/-- The text of the lock file and the guard whose claim it is. -/
structure LockFile where
  text : PyStr
  writer : Option ℕ

/-- The live processes with what their memory holds for the workspace, the calls and guards in them, the
file, and the guards whose claim was written over. -/
structure World where
  now : ℕ
  processes : List (ℕ × Option InMemoryLockState)
  holders : List (ℕ × Holder)
  nextHolder : ℕ
  file : Option LockFile
  overtaken : List ℕ

inductive Action
  | passes (seconds : ℕ)
  | starts (pid : ℕ)
  | dies (pid : ℕ)
  | tryLock (pid : ℕ) (op : IndexOperation)
  | readFile (holder : ℕ) (fails others : Bool)
  | writeFile (holder : ℕ)
  | writeFails (holder : ℕ) (left : Option ℕ) (error : PyStr)
  | rollBack (holder : ℕ)
  | releaseCall (holder : ℕ)
  | releaseMark (holder : ℕ)
  | releaseMemory (holder : ℕ)
  | unlink (holder : ℕ) (fails : Bool)

def Holder.new (pid : ℕ) (op : IndexOperation) : Holder :=
  ⟨pid,op,if op.isExclusive then .acquired else .granted,0,false,0,0,0⟩

/-- The guard has been given out and not been released. -/
def Holder.held (g : Holder) : Bool := g.stage = .granted && !g.released

/-- The age of a guard is below the time limit of its own operation. -/
def Holder.young (now : ℕ) (g : Holder) : Bool := decide ((now : ℤ)-g.started < g.operation.staleTimeout)

namespace World

/-- A workspace without processes; a lock file may have been left behind. -/
def new (now : ℕ) (left : Option PyStr) : World :=
  ⟨now,[],[],0,left.map fun text => ⟨text,none⟩,[]⟩

/-- `_is_process_alive`; `others` is the answer for a process that takes no lock here, and for any where
there are no signals. -/
def isProcessAlive (w : World) (others : Bool) (pid : ℤ) : Bool :=
  others || (keys w.processes).any fun p => decide ((p : ℤ) = pid)

/-- The claim that makes `_try_acquire_file_lock` give up. -/
def blocker (d : Decimals) (w : World) (op : IndexOperation) (others : Bool) (existing : Option PyStr) :
    Option (PyStr × ℤ) :=
  match existing.bind (parseLockFile d) with
  | none => none
  | some (operation,pid,started) =>
    if (w.now : ℤ)-started < op.staleTimeout && w.isProcessAlive others pid then some (operation,pid)
    else none

def setHolder (w : World) (i : ℕ) (g : Holder) : World := { w with holders := assign w.holders i g }

def releaseMemoryOf (w : World) (g : Holder) : World :=
  match lookup w.processes g.pid with
  | none => w
  | some state =>
    { w with processes := assign w.processes g.pid (releaseInMemoryLock state g.operation) }

/-- The file gets a text, and the guard whose claim stood there is overtaken. -/
def overwrite (w : World) (f : LockFile) : World :=
  { w with file := some f, overtaken := (w.file.bind LockFile.writer).toList++w.overtaken }

def tryLock (w : World) (pid : ℕ) (op : IndexOperation) : Option World :=
  match lookup w.processes pid with
  | none => none
  | some state =>
    match tryAcquireInMemoryLock state op with
    | none => some w
    | some state => some { w with
        processes := assign w.processes pid (some state)
        holders := assign w.holders w.nextHolder (.new pid op), nextHolder := w.nextHolder+1 }

/-- A claim reads the file while no other claim stands between its read and its write. -/
def readFile (d : Decimals) (w : World) (i : ℕ) (g : Holder) (fails others : Bool) : Option World :=
  if g.stage = .acquired ∧ ∀ kg ∈ w.holders, kg.2.stage ≠ .cleared then
    let existing := if fails then none else w.file.map fun f => TextMode.translate f.text
    match w.blocker d g.operation others existing with
    | some (operation,pid) => some (w.setHolder i { g with stage := .refused operation (some pid) })
    | none => some (w.setHolder i { g with stage := .cleared })
  else none

def writeFile (name : PyStr) (w : World) (i : ℕ) (g : Holder) : Option World :=
  if g.stage = .cleared then
    some ((w.overwrite ⟨claimText name g.operation g.pid w.now,some i⟩).setHolder i
      { g with stage := .granted, started := w.now })
  else none

/-- The write raises: the file is as it was, or holds the beginning of the claim. -/
def writeFails (name : PyStr) (w : World) (i : ℕ) (g : Holder) (left : Option ℕ) (error : PyStr) : Option World :=
  if g.stage = .cleared then
    let w' := match left with
      | none => w
      | some n => w.overwrite ⟨(claimText name g.operation g.pid w.now).take n,none⟩
    some (w'.setHolder i { g with stage := .refused (lit "io_error: "++error) none })
  else none

def rollBack (w : World) (i : ℕ) (g : Holder) : Option World :=
  match g.stage with
  | .refused _ _ => some { w.releaseMemoryOf g with holders := remove w.holders i }
  | _ => none

def releaseCall (w : World) (i : ℕ) (g : Holder) : Option World :=
  if g.stage = .granted then
    if g.released then some w else some (w.setHolder i { g with checked := g.checked+1 })
  else none

def releaseMark (w : World) (i : ℕ) (g : Holder) : Option World :=
  if 0 < g.checked then
    some (w.setHolder i { g with checked := g.checked-1, marked := g.marked+1, released := true })
  else none

def releaseMemory (w : World) (i : ℕ) (g : Holder) : Option World :=
  if 0 < g.marked then
    some ((w.releaseMemoryOf g).setHolder i
      { g with marked := g.marked-1, freed := if g.operation.isExclusive then g.freed+1 else g.freed })
  else none

def unlink (w : World) (i : ℕ) (g : Holder) (fails : Bool) : Option World :=
  if 0 < g.freed then
    some { w.setHolder i { g with freed := g.freed-1 } with file := if fails then w.file else none }
  else none

variable (d : Decimals) (name : PyStr)

def step (w : World) : Action → Option World
  | .passes seconds => some { w with now := w.now+seconds }
  | .starts pid =>
    if pid ∈ keys w.processes then none else some { w with processes := assign w.processes pid none }
  | .dies pid =>
    if pid ∈ keys w.processes then some { w with
      processes := remove w.processes pid, holders := w.holders.filter fun kg => kg.2.pid ≠ pid }
    else none
  | .tryLock pid op => w.tryLock pid op
  | .readFile i fails others => (lookup w.holders i).bind fun g => w.readFile d i g fails others
  | .writeFile i => (lookup w.holders i).bind fun g => w.writeFile name i g
  | .writeFails i left error => (lookup w.holders i).bind fun g => w.writeFails name i g left error
  | .rollBack i => (lookup w.holders i).bind fun g => w.rollBack i g
  | .releaseCall i => (lookup w.holders i).bind fun g => w.releaseCall i g
  | .releaseMark i => (lookup w.holders i).bind fun g => w.releaseMark i g
  | .releaseMemory i => (lookup w.holders i).bind fun g => w.releaseMemory i g
  | .unlink i fails => (lookup w.holders i).bind fun g => w.unlink i g fails

/-- An exclusive guard is given out while no other guard is held in its process, and while none of
another process is exclusive and young. -/
def GrantsAlone (w w' : World) : Prop :=
  ∀ i g, lookup w'.holders i = some g → g.operation.isExclusive → g.held →
    (∀ g', lookup w.holders i = some g' → g'.held = false) →
    ∀ j other, lookup w.holders j = some other → other.held →
      other.pid ≠ g.pid ∧ (other.operation.isExclusive → other.young w.now = false)

/-- A file with the claim of a guard goes only when this guard removes it. -/
def RemovesOwn (w w' : World) (a : Action) : Prop :=
  ∀ f i, w.file = some f → f.writer = some i → w'.file = none → ∃ fails, a = .unlink i fails

def Exclusive (w : World) (a : Action) : Prop :=
  ∀ w', w.step d name a = some w' → GrantsAlone w w' ∧ RemovesOwn w w' a

/-- While an exclusive guard is held and young, a claim that is begun reads the file, finds the claim there
and has a time limit that the guard has not reached; a release says that it takes place before another one
does; and a guard whose claim was written over removes no file. -/
def Keeps (w : World) : Action → Prop
  | .readFile i fails _ => ∀ g, lookup w.holders i = some g →
      ∀ j other, lookup w.holders j = some other → other.operation.isExclusive → other.held →
        other.young w.now → fails = false ∧ PlainName name ∧
          (w.now : ℤ)-other.started < g.operation.staleTimeout
  | .releaseMark i => ∀ g, lookup w.holders i = some g → g.released = false
  | .unlink i fails => fails = false → i ∈ w.overtaken → w.file = none
  | _ => True

end World

end MinimaxCode.WorkspaceLock
