import MinimaxCode.LiveIndex

/-!
# The mailbox of the index manager

Callers put commands into the mailbox and wait for the responses of their requests. The actor
takes the commands in their order, in turns that no caller interrupts, until a shutdown or a
handler that raises ends it; only then the handle refuses commands.
-/

namespace MinimaxCode.IndexActor

open PyText OrderedDict Runs
open LiveIndex (FileEvent CoalescedEvents coalesce)

inductive Request
  | getSnapshot
  | gotoDefinition (filePath : PyStr) (row col : ℤ)
  | gotoReferences (filePath : PyStr) (row col : ℤ) (includeDefinition : Bool)
  | findDefinitions (symbol : PyStr) (contextFile : Option PyStr)
  | findReferences (symbol : PyStr) (contextFile : Option PyStr)
  | getFileCount
  | getStats
  | getQueryVersion
  | hasDefinition (symbol : PyStr)

/-- The commands of the mailbox; a request carries the future of its response. -/
inductive IndexCommand
  | fileEvent (e : FileEvent)
  | fileEventBatch (es : List FileEvent)
  | rebuild
  | backgroundRefresh (staleFiles deletedFiles : List PyStr)
  | shutdown
  | query (request : Request) (response : ℕ)

def IndexCommand.isEvent : IndexCommand → Bool
  | .fileEvent _ => true
  | .fileEventBatch _ => true
  | _ => false

/-- What the handlers do with an index `I` over the files `D`; an answer is a `V`. -/
structure Handlers (D I V : Type*) where
  applyCoalesced : D → I → CoalescedEvents → I
  rebuildIndex : D → I → I
  processBackgroundRefresh : D → I → List PyStr → List PyStr → I
  answer : D → I → Request → V

/-- The state of a response future. -/
inductive Response (V : Type*)
  | waiting
  | resolved (v : V)
  | cancelled

def Response.done {V : Type*} : Response V → Bool
  | .waiting => false
  | _ => true

inductive Actor
  | waiting
  | running
  | ended
  deriving DecidableEq

/-- The point at which the handlers of a turn raise. -/
inductive Fault
  | events
  | command
  deriving DecidableEq

/-- What the loop does after a command. -/
inductive Verdict
  | goesOn
  | stops
  | raises

structure Manager (I V : Type*) where
  index : I
  mailbox : List IndexCommand
  responses : List (ℕ × Response V)
  nextResponse : ℕ
  actor : Actor
  closed : Bool
  exited : Bool

/-- What a caller asks of the handle. -/
inductive Call
  | sendEvent (e : FileEvent)
  | sendEvents (es : List FileEvent)
  | rebuild
  | shutdown
  | request (r : Request)

inductive Action (D : Type*)
  | call (c : Call)
  | cancel (response : ℕ)
  | wakes
  | takes (disk : D) (fault : Option Fault) (saves : Bool)
  | rests

/-- What the caller sees of a send: the command is on its way, `ManagerClosedError`, or `None`. -/
inductive Sent
  | accepted
  | managerClosed
  | absent
  deriving DecidableEq

/-- The probes swallow the closed state. -/
def Request.isProbe : Request → Bool
  | .getFileCount => true
  | .getStats => true
  | .getQueryVersion => true
  | .hasDefinition _ => true
  | _ => false

namespace Manager

variable {D I V : Type*}

def new (index : I) : Manager I V := ⟨index,[],[],0,.waiting,false,false⟩

def sendStrict (m : Manager I V) (c : IndexCommand) : Manager I V × Sent :=
  if m.closed then (m,.managerClosed) else ({ m with mailbox := m.mailbox++[c] },.accepted)

def sendProbe (m : Manager I V) (c : IndexCommand) : Manager I V × Sent :=
  if m.closed then (m,.absent) else ({ m with mailbox := m.mailbox++[c] },.accepted)

/-- A request with a future of its own. A future whose command is refused is never awaited. -/
def request (m : Manager I V) (r : Request) : Manager I V × Sent :=
  let c := IndexCommand.query r m.nextResponse
  match if r.isProbe then m.sendProbe c else m.sendStrict c with
  | (m',.accepted) => ({ m' with
      responses := assign m'.responses m.nextResponse .waiting, nextResponse := m.nextResponse+1 },.accepted)
  | refused => refused

def call (m : Manager I V) : Call → Manager I V × Sent
  | .sendEvent e => m.sendStrict (.fileEvent e)
  | .sendEvents es => if es.isEmpty then (m,.accepted) else m.sendStrict (.fileEventBatch es)
  | .rebuild => m.sendStrict .rebuild
  | .shutdown => m.sendStrict .shutdown
  | .request r => m.request r

/-- A caller that waits for a response is cancelled. -/
def cancel (m : Manager I V) (response : ℕ) : Option (Manager I V) :=
  match lookup m.responses response with
  | some .waiting => some { m with responses := assign m.responses response .cancelled }
  | _ => none

variable (h : Handlers D I V)

def resolveResponse (m : Manager I V) (response : ℕ) (v : V) : Manager I V :=
  match lookup m.responses response with
  | some .waiting => { m with responses := assign m.responses response (.resolved v) }
  | _ => m

/-- `_process_command` of a command that has been taken out and is no file event. -/
def processOther (m : Manager I V) (disk : D) (fault : Option Fault) : IndexCommand → Manager I V × Verdict
  | .shutdown => (m,.stops)
  | c =>
    if fault = some .command then (m,.raises)
    else
      match c with
      | .rebuild => ({ m with index := h.rebuildIndex disk m.index },.goesOn)
      | .backgroundRefresh stale deleted =>
        ({ m with index := h.processBackgroundRefresh disk m.index stale deleted },.goesOn)
      | .query r response => (m.resolveResponse response (h.answer disk m.index r),.goesOn)
      | _ => (m,.goesOn)

/-- The file events at the head of the mailbox, folded, and the commands from the first other on. -/
def drain : List IndexCommand → CoalescedEvents → CoalescedEvents × List IndexCommand
  | .fileEvent e::rest, events => drain rest (coalesce events e)
  | .fileEventBatch es::rest, events => drain rest (es.foldl coalesce events)
  | rest, events => (events,rest)

def drainAndApply (m : Manager I V) (disk : D) (fault : Option Fault) : Manager I V × Verdict :=
  let (events,rest) := drain m.mailbox []
  if fault = some .events then ({ m with mailbox := rest.tail },.raises)
  else
    let m := { m with index := h.applyCoalesced disk m.index events, mailbox := rest.tail }
    match rest with
    | [] => (m,.goesOn)
    | other::_ => m.processOther h disk fault other

/-- `_process_command` of the next command. -/
def processCommand (m : Manager I V) (disk : D) (fault : Option Fault) : Option (Manager I V × Verdict) :=
  match m.mailbox with
  | [] => none
  | c::rest =>
    if c.isEvent then some (m.drainAndApply h disk fault)
    else some (processOther h { m with mailbox := rest } disk fault c)

/-- The `finally` blocks of the loop and of its task: the beacon is closed unless the save raises, and
the handle is closed in any case. -/
def finish (m : Manager I V) (saves : Bool) : Manager I V :=
  { m with actor := .ended, closed := true, exited := saves }

def takes (m : Manager I V) (disk : D) (fault : Option Fault) (saves : Bool) : Option (Manager I V) :=
  match m.processCommand h disk fault with
  | none => none
  | some (m,.goesOn) => some m
  | some (m,_) => some (m.finish saves)

/-- The turns of the actor run on the loop of the callers, who move only between them. -/
def step (m : Manager I V) : Action D → Option (Manager I V)
  | .call c => if m.actor = .running then none else some (m.call c).1
  | .cancel response => if m.actor = .running then none else m.cancel response
  | .wakes =>
    if m.actor = .waiting ∧ m.mailbox ≠ [] then some { m with actor := .running } else none
  | .takes disk fault saves => if m.actor = .running then m.takes h disk fault saves else none
  | .rests =>
    if m.actor = .running ∧ m.mailbox = [] then some { m with actor := .waiting } else none

/-- When the actor has ended, no response is waited for. -/
def Answered (m : Manager I V) : Prop :=
  m.actor = .ended → ∀ response r, lookup m.responses response = some r → r.done

/-- The turn meets a shutdown or a handler that raises. -/
def endsLoop (mailbox : List IndexCommand) (fault : Option Fault) : Bool :=
  (fault == some .events && (mailbox.head?.any IndexCommand.isEvent)) ||
    match (mailbox.dropWhile IndexCommand.isEvent).head? with
    | none => false
    | some .shutdown => true
    | some _ => fault == some .command

/-- When a turn ends the loop, nobody waits for the response of a request in the mailbox. -/
def Keeps (m : Manager I V) : Action D → Prop
  | .takes _ fault _ => endsLoop m.mailbox fault = true →
    ∀ request response, .query request response ∈ m.mailbox →
      ∀ r, lookup m.responses response = some r → r.done
  | _ => True

variable {h} {m m' : Manager I V} {disk : D} {fault : Option Fault} {v : Verdict} {c : IndexCommand}

/-- Who waits after a command has waited before it, and for a response to another command. -/
structure Resolves (c : IndexCommand) (m m' : Manager I V) : Prop where
  actor : m'.actor = m.actor
  closed : m'.closed = m.closed
  mailbox : m'.mailbox = m.mailbox
  waiting : ∀ response, lookup m'.responses response = some .waiting →
    lookup m.responses response = some .waiting ∧ ∀ r, c ≠ .query r response

theorem Resolves.of_other {index : I} (hc : ∀ r response, c ≠ .query r response) :
    Resolves c m { m with index } :=
  ⟨rfl,rfl,rfl,fun response hw => ⟨hw,fun r => hc r response⟩⟩

theorem resolves_resolveResponse (m : Manager I V) (r : Request) (response : ℕ) (v : V) :
    Resolves (.query r response) m (m.resolveResponse response v) := by
  rw [resolveResponse]
  split
  · next hw =>
    refine ⟨rfl,rfl,rfl,fun response' hw' => ?_⟩
    rw [lookup_assign] at hw'
    split at hw'
    · cases hw'
    · next hne =>
      refine ⟨hw',fun r' heq => hne ?_⟩
      cases heq
      rfl
  · next hw =>
    refine ⟨rfl,rfl,rfl,fun response' hw' => ⟨hw',fun r' heq => ?_⟩⟩
    cases heq
    exact hw hw'

theorem processOther_cases (hc : c.isEvent = false) (hp : m.processOther h disk fault c = (m',v)) :
    ((c = .shutdown ∨ fault = some .command) ∧ v ≠ .goesOn ∧ m' = m) ∨
      (c ≠ .shutdown ∧ fault ≠ some .command ∧ v = .goesOn ∧ Resolves c m m') := by
  cases c with
  | shutdown =>
    cases hp
    exact .inl ⟨.inl rfl,Verdict.noConfusion,rfl⟩
  | fileEvent e => cases hc
  | fileEventBatch es => cases hc
  | rebuild =>
    rw [processOther] at hp
    split at hp
    · next hf =>
      cases hp
      exact .inl ⟨.inr hf,Verdict.noConfusion,rfl⟩
    · next hf =>
      cases hp
      exact .inr ⟨IndexCommand.noConfusion,hf,rfl,.of_other fun _ _ => IndexCommand.noConfusion⟩
  | backgroundRefresh stale deleted =>
    rw [processOther] at hp
    split at hp
    · next hf =>
      cases hp
      exact .inl ⟨.inr hf,Verdict.noConfusion,rfl⟩
    · next hf =>
      cases hp
      exact .inr ⟨IndexCommand.noConfusion,hf,rfl,.of_other fun _ _ => IndexCommand.noConfusion⟩
  | query r response =>
    rw [processOther] at hp
    split at hp
    · next hf =>
      cases hp
      exact .inl ⟨.inr hf,Verdict.noConfusion,rfl⟩
    · next hf =>
      cases hp
      exact .inr ⟨IndexCommand.noConfusion,hf,rfl,resolves_resolveResponse _ _ _ _⟩

theorem drain_spec (cs : List IndexCommand) (events : CoalescedEvents) :
    (drain cs events).2 = cs.dropWhile IndexCommand.isEvent := by
  induction cs generalizing events with
  | nil => rfl
  | cons c cs ih =>
    cases c with
    | fileEvent e => exact ih _
    | fileEventBatch es => exact ih _
    | _ => rfl

theorem mem_dropWhile_of_query {r : Request} {response : ℕ} {cs : List IndexCommand}
    (hmem : .query r response ∈ cs) : .query r response ∈ cs.dropWhile IndexCommand.isEvent := by
  rw [← List.takeWhile_append_dropWhile (p := IndexCommand.isEvent) (l := cs)] at hmem
  rcases List.mem_append.mp hmem with htake | hdrop
  · cases List.mem_takeWhile_imp htake
  · exact hdrop

/-- What a turn that goes on leaves: who waits has waited, and for a request that is still there. -/
structure GoesOn (m m' : Manager I V) : Prop where
  actor : m'.actor = m.actor
  closed : m'.closed = m.closed
  waiting : ∀ response, lookup m'.responses response = some .waiting →
    lookup m.responses response = some .waiting ∧
      ∀ r, .query r response ∈ m.mailbox → .query r response ∈ m'.mailbox

theorem endsLoop_iff {cs : List IndexCommand} : endsLoop cs fault = true ↔
    (fault = some .events ∧ ∃ c rest, cs = c::rest ∧ c.isEvent = true) ∨
      ∃ c rest, cs.dropWhile IndexCommand.isEvent = c::rest ∧ (c = .shutdown ∨ fault = some .command) := by
  rw [endsLoop,Bool.or_eq_true,Bool.and_eq_true,beq_iff_eq]
  refine or_congr (and_congr_right fun _ => ?_) ?_
  · cases cs with
    | nil => simp
    | cons c rest => simp
  · cases cs.dropWhile IndexCommand.isEvent with
    | nil => simp
    | cons c rest => cases c <;> simp

theorem turn_cases {m₀ : Manager I V} {rest : List IndexCommand} (hc : c.isEvent = false)
    (hdrop : m₀.mailbox.dropWhile IndexCommand.isEvent = c::rest)
    (hf : fault ≠ some .events ∨ ∃ cs, m₀.mailbox = c::cs)
    (hp : m.processOther h disk fault c = (m',v))
    (hm : m.mailbox = rest ∧ m.responses = m₀.responses ∧ m.actor = m₀.actor ∧ m.closed = m₀.closed) :
    (endsLoop m₀.mailbox fault = true ∧ v ≠ .goesOn ∧ m'.responses = m₀.responses) ∨
      (endsLoop m₀.mailbox fault = false ∧ v = .goesOn ∧ GoesOn m₀ m') := by
  obtain ⟨hmailbox,hresponses,hactor,hclosed⟩ := hm
  rcases processOther_cases hc hp with ⟨hends,hv,rfl⟩ | ⟨hne,hcommand,hv,hr⟩
  · exact .inl ⟨endsLoop_iff.mpr (.inr ⟨c,rest,hdrop,hends⟩),hv,hresponses⟩
  · refine .inr ⟨Bool.eq_false_iff.mpr fun hends => ?_,hv,hr.actor.trans hactor,hr.closed.trans hclosed,
      fun response hw => ?_⟩
    · rcases endsLoop_iff.mp hends with ⟨hevents,c',rest',hcs,hevent⟩ | ⟨c',rest',hcs,hor⟩
      · rcases hf with hf | ⟨cs,hcs'⟩
        · exact hf hevents
        · rw [hcs'] at hcs
          cases hcs
          rw [hc] at hevent
          cases hevent
      · rw [hdrop] at hcs
        cases hcs
        exact hor.elim hne hcommand
    · obtain ⟨hwaiting,hother⟩ := hr.waiting response hw
      refine ⟨hresponses ▸ hwaiting,fun r hmem => ?_⟩
      have hdropped := mem_dropWhile_of_query hmem
      rw [hdrop] at hdropped
      rw [hr.mailbox,hmailbox]
      rcases List.mem_cons.mp hdropped with heq | hrest
      · exact absurd heq.symm (hother r)
      · exact hrest

theorem processCommand_cases (hp : m.processCommand h disk fault = some (m',v)) :
    (endsLoop m.mailbox fault = true ∧ v ≠ .goesOn ∧ m'.responses = m.responses) ∨
      (endsLoop m.mailbox fault = false ∧ v = .goesOn ∧ GoesOn m m') := by
  rw [processCommand] at hp
  split at hp
  · cases hp
  · next c rest hmailbox =>
    split at hp
    · next hevent =>
      have hdrain := drain_spec m.mailbox []
      rw [drainAndApply] at hp
      dsimp only at hp
      split at hp
      · next hfault =>
        cases hp
        exact .inl ⟨endsLoop_iff.mpr (.inl ⟨hfault,c,rest,hmailbox,hevent⟩),Verdict.noConfusion,rfl⟩
      · next hfault =>
        generalize hrest : (drain m.mailbox []).2 = others at hp hdrain
        cases others with
        | nil =>
          -- only file events were there
          cases hp
          have hnone : ∀ r response, .query r response ∉ m.mailbox := by
            intro r response hmem
            have hdropped := mem_dropWhile_of_query hmem
            rw [← hdrain] at hdropped
            cases hdropped
          refine .inr ⟨Bool.eq_false_iff.mpr fun hends => ?_,rfl,rfl,rfl,
            fun response hw => ⟨hw,fun r hmem => absurd hmem (hnone r response)⟩⟩
          rcases endsLoop_iff.mp hends with ⟨hevents,-⟩ | ⟨c',rest',hcs,-⟩
          · exact hfault hevents
          · rw [← hdrain] at hcs
            cases hcs
        | cons other rest' =>
          have hother : other.isEvent = false := by
            have hhead := List.head?_dropWhile_not IndexCommand.isEvent m.mailbox
            rw [← hdrain] at hhead
            simpa using hhead
          exact turn_cases hother hdrain.symm (.inl hfault) (Option.some.inj hp) ⟨rfl,rfl,rfl,rfl⟩
    · next hevent =>
      have hother : c.isEvent = false := Bool.eq_false_iff.mpr hevent
      have hdrop : m.mailbox.dropWhile IndexCommand.isEvent = c::rest := by
        rw [hmailbox,List.dropWhile_cons_of_neg hevent]
      exact turn_cases hother hdrop (.inr ⟨rest,hmailbox⟩) (Option.some.inj hp) ⟨rfl,rfl,rfl,rfl⟩

/-- An open handle has a loop behind it that has not ended, and who waits has a request in the mailbox. -/
structure Inv (m : Manager I V) : Prop where
  closed_iff : m.closed = true ↔ m.actor = .ended
  queued : m.actor ≠ .ended → ∀ response, lookup m.responses response = some .waiting →
    ∃ r, .query r response ∈ m.mailbox

theorem Inv.new (index : I) : Inv (new index : Manager I V) :=
  ⟨⟨Bool.noConfusion,Actor.noConfusion⟩,fun _ _ hw => by cases hw⟩

theorem call_cases (m : Manager I V) (c : Call) :
    (m.call c).1 = m ∨ (m.closed = false ∧ ∃ cmd, (m.call c).1 = { m with mailbox := m.mailbox++[cmd] }) ∨
      (m.closed = false ∧ ∃ r, (m.call c).1 = { m with
        mailbox := m.mailbox++[.query r m.nextResponse]
        responses := assign m.responses m.nextResponse .waiting, nextResponse := m.nextResponse+1 }) := by
  rcases Bool.eq_false_or_eq_true m.closed with hclosed | hclosed
  · left
    cases c with
    | sendEvents es =>
      rw [call]
      split
      · rfl
      · rw [sendStrict,if_pos hclosed]
    | request r =>
      rw [call,request]
      cases r.isProbe <;> simp [sendProbe,sendStrict,hclosed]
    | _ => rw [call,sendStrict,if_pos hclosed]
  · have hopen : ¬m.closed = true := Bool.eq_false_iff.mp hclosed
    cases c with
    | sendEvents es =>
      rw [call]
      split
      · exact .inl rfl
      · rw [sendStrict,if_neg hopen]
        exact .inr (.inl ⟨hclosed,_,rfl⟩)
    | request r =>
      refine .inr (.inr ⟨hclosed,r,?_⟩)
      rw [call,request]
      cases r.isProbe <;> simp [sendProbe,sendStrict,hclosed]
    | _ =>
      rw [call,sendStrict,if_neg hopen]
      exact .inr (.inl ⟨hclosed,_,rfl⟩)

theorem Inv.call (hi : Inv m) (c : Call) : Inv (m.call c).1 := by
  rcases call_cases m c with heq | ⟨-,cmd,heq⟩ | ⟨-,r,heq⟩
  · rw [heq]
    exact hi
  · rw [heq]
    refine ⟨hi.closed_iff,fun hne response hw => ?_⟩
    obtain ⟨r,hr⟩ := hi.queued hne response hw
    exact ⟨r,List.mem_append_left _ hr⟩
  · rw [heq]
    refine ⟨hi.closed_iff,fun hne response hw => ?_⟩
    dsimp only at hw
    rw [lookup_assign] at hw
    split at hw
    · next hnew =>
      subst hnew
      exact ⟨r,List.mem_append_right _ List.mem_cons_self⟩
    · obtain ⟨r',hr'⟩ := hi.queued hne response hw
      exact ⟨r',List.mem_append_left _ hr'⟩

theorem cancel_cases {response : ℕ} (hc : m.cancel response = some m') :
    m' = { m with responses := assign m.responses response .cancelled } := by
  rw [cancel] at hc
  split at hc
  · cases hc
    rfl
  · cases hc

theorem Inv.cancel {response : ℕ} (hi : Inv m) (hc : m.cancel response = some m') : Inv m' := by
  rw [cancel_cases hc]
  refine ⟨hi.closed_iff,fun hne response' hw => ?_⟩
  dsimp only at hw
  rw [lookup_assign] at hw
  split at hw
  · cases hw
  · exact hi.queued hne response' hw

theorem takes_cases {saves : Bool} (ht : m.takes h disk fault saves = some m') :
    (endsLoop m.mailbox fault = true ∧ m'.actor = .ended ∧ m'.closed = true ∧ m'.responses = m.responses) ∨
      (endsLoop m.mailbox fault = false ∧ GoesOn m m') := by
  rw [takes] at ht
  split at ht
  · cases ht
  · next m₁ hp =>
    cases ht
    rcases processCommand_cases hp with ⟨-,hv,-⟩ | ⟨hends,-,hgoes⟩
    · exact absurd rfl hv
    · exact .inr ⟨hends,hgoes⟩
  · next m₁ v hv hp =>
    cases ht
    rcases processCommand_cases hp with ⟨hends,-,hresponses⟩ | ⟨-,rfl,-⟩
    · exact .inl ⟨hends,rfl,rfl,hresponses⟩
    · exact absurd rfl hv

theorem Inv.step {a : Action D} (hi : Inv m) (hs : m.step h a = some m') : Inv m' := by
  cases a with
  | call c =>
    rw [Manager.step] at hs
    split at hs
    · cases hs
    · cases hs
      exact hi.call c
  | cancel response =>
    rw [Manager.step] at hs
    split at hs
    · cases hs
    · exact hi.cancel hs
  | wakes =>
    rw [Manager.step] at hs
    split at hs
    · next hw =>
      cases hs
      have hopen : m.actor ≠ .ended := by
        rw [hw.1]
        exact Actor.noConfusion
      refine ⟨?_,fun _ => hi.queued hopen⟩
      exact ⟨fun hclosed => absurd (hi.closed_iff.mp hclosed) hopen,Actor.noConfusion⟩
    · cases hs
  | takes disk fault saves =>
    rw [Manager.step] at hs
    split at hs
    · next hrunning =>
      rcases takes_cases hs with ⟨-,hactor,hclosed,-⟩ | ⟨-,hgoes⟩
      · exact ⟨⟨fun _ => hactor,fun _ => hclosed⟩,fun hne => absurd hactor hne⟩
      · refine ⟨?_,fun hne response hw => ?_⟩
        · rw [hgoes.closed,hgoes.actor]
          exact hi.closed_iff
        · rw [hgoes.actor] at hne
          obtain ⟨hwaiting,hleft⟩ := hgoes.waiting response hw
          obtain ⟨r,hr⟩ := hi.queued hne response hwaiting
          exact ⟨r,hleft r hr⟩
    · cases hs
  | rests =>
    rw [Manager.step] at hs
    split at hs
    · next hr =>
      cases hs
      have hopen : m.actor ≠ .ended := by
        rw [hr.1]
        exact Actor.noConfusion
      refine ⟨?_,fun _ => hi.queued hopen⟩
      exact ⟨fun hclosed => absurd (hi.closed_iff.mp hclosed) hopen,Actor.noConfusion⟩
    · cases hs

theorem answered_step {a : Action D} (hi : Inv m) (ha : Answered m) (hs : m.step h a = some m') :
    Answered m' ↔ Keeps m a := by
  cases a with
  | call c =>
    refine iff_of_true ?_ trivial
    rw [Manager.step] at hs
    split at hs
    · cases hs
    · cases hs
      rcases call_cases m c with heq | ⟨hopen,cmd,heq⟩ | ⟨hopen,r,heq⟩
      · rw [heq]
        exact ha
      · rw [heq]
        intro hended
        rw [hi.closed_iff.mpr hended] at hopen
        cases hopen
      · rw [heq]
        intro hended
        rw [hi.closed_iff.mpr hended] at hopen
        cases hopen
  | cancel response =>
    refine iff_of_true ?_ trivial
    rw [Manager.step] at hs
    split at hs
    · cases hs
    · rw [cancel_cases hs]
      intro hended response' r hr
      dsimp only at hr
      rw [lookup_assign] at hr
      split at hr
      · cases hr
        rfl
      · exact ha hended response' r hr
  | wakes =>
    refine iff_of_true ?_ trivial
    rw [Manager.step] at hs
    split at hs
    · cases hs
      exact Actor.noConfusion
    · cases hs
  | takes disk fault saves =>
    rw [Manager.step] at hs
    split at hs
    · next hrunning =>
      rcases takes_cases hs with ⟨hends,hactor,-,hresponses⟩ | ⟨hends,hgoes⟩
      · have hopen : m.actor ≠ .ended := by
          rw [hrunning]
          exact Actor.noConfusion
        constructor
        · intro hm' _ request response _ r hr
          rw [← hresponses] at hr
          exact hm' hactor response r hr
        · intro hk _ response r hr
          rw [hresponses] at hr
          cases r with
          | waiting =>
            obtain ⟨request,hmem⟩ := hi.queued hopen response hr
            exact hk hends request response hmem _ hr
          | _ => rfl
      · refine iff_of_true ?_ ?_
        · intro hended
          rw [hgoes.actor,hrunning] at hended
          cases hended
        · intro htrue
          rw [hends] at htrue
          cases htrue
    · cases hs
  | rests =>
    refine iff_of_true ?_ trivial
    rw [Manager.step] at hs
    split at hs
    · cases hs
      exact Actor.noConfusion
    · cases hs

/-- Along every run the end of the actor leaves nobody waiting exactly when no turn that ends the loop
finds a request in the mailbox whose response is waited for. -/
theorem answered_throughout_iff (h : Handlers D I V) (index : I) {as : List (Action D)}
    (hrun : Run (Manager.step h) always (new index) as m) :
    Throughout (Manager.step h) Answered (new index) as ↔
      Run (Manager.step h) Keeps (new index) as m := by
  have hinv : ∀ (s : Manager I V) a t, always s a → s.step h a = some t → Inv s → Answered s →
      Answered t → Inv t := fun s a t _ hs hi _ _ => hi.step hs
  have hstep : ∀ (s : Manager I V) a t, always s a → s.step h a = some t → Inv s → Answered s →
      (Answered t ↔ Keeps s a) := fun s a t _ hs hi ha => answered_step hi ha hs
  exact throughout_iff hinv hstep hrun (Inv.new index) Actor.noConfusion

end Manager

/-- Handlers over an index that is a number. -/
def countHandlers : Handlers Unit ℕ ℕ := ⟨fun _ i _ => i,fun _ i => i,fun _ i _ _ => i,fun _ i _ => i⟩

/-- A probe is answered, and the shutdown behind it ends the actor. -/
def answeredRun : List (Action Unit) :=
  [.call (.request .getFileCount),.call .shutdown,.wakes,.takes () none true,.takes () none true]

theorem Manager.answered_probe : Throughout (Manager.step countHandlers) Answered (.new 0) answeredRun := by
  have hrun : ∃ m, Run (Manager.step countHandlers) Keeps (.new 0) answeredRun m := by
    refine ⟨_,.succ trivial rfl (.succ trivial rfl (.succ trivial rfl (.succ ?_ rfl (.succ ?_ rfl (.refl _)))))⟩
    · exact fun hends => Bool.noConfusion hends
    · intro _ request response hmem
      rcases List.mem_singleton.mp hmem with ⟨⟩
  obtain ⟨m,hkeeps⟩ := hrun
  exact (answered_throughout_iff countHandlers 0 (hkeeps.mono fun _ _ _ => trivial)).mpr hkeeps

/-- A snapshot is asked for behind a shutdown that has not been taken. -/
def strandedRun : List (Action Unit) :=
  [.call .shutdown,.call (.request .getSnapshot),.wakes,.takes () none true]

/-- The request is accepted, and nobody is left to answer it. -/
theorem Manager.request_behind_shutdown : ∃ m,
    Run (Manager.step countHandlers) always (.new 0) strandedRun m ∧ m.actor = .ended ∧
    m.mailbox = [.query .getSnapshot 0] ∧ lookup m.responses 0 = some .waiting ∧ ¬Answered m := by
  refine ⟨_,run_of_exec rfl,rfl,rfl,rfl,fun ha => ?_⟩
  exact Bool.noConfusion (ha rfl 0 .waiting rfl)

end MinimaxCode.IndexActor
