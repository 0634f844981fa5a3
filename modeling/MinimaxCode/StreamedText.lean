import MinimaxCode.AgentTurn

/-!
# The text that is streamed

While the model answers, each piece of text is delivered as it arrives; the message that is
kept is put together from the chunks of the attempt that came to its end. An attempt that
breaks off is made again, and what it has delivered stays delivered.
-/

namespace MinimaxCode.StreamedText

open PyText PyJson Agent AgentTurn Runs

/-- What a stream can raise, and what `_stream_turn` makes of a timeout. -/
inductive StreamException
  | timeoutError
  | llmStreamTimeout
  | connectionError
  | llmError (breakerOpen : Bool) (statusCode : Option ℤ)
  | other
  deriving DecidableEq

inductive Disposition
  | retryable
  | terminal
  deriving DecidableEq

def retryableStatus : List ℤ := [429,500,502,503,504]

def terminalStatus : List ℤ := [400,401,403,404,422]

def classifyException : StreamException → Disposition
  | .llmStreamTimeout => .retryable
  | .timeoutError => .retryable
  | .connectionError => .retryable
  | .llmError breakerOpen statusCode =>
    if breakerOpen then .terminal
    else match statusCode with
      | none => .retryable
      | some code =>
        if code ∈ retryableStatus then .retryable
        else if code ∈ terminalStatus then .terminal
        else .retryable
  | .other => .terminal

def isLLMError : StreamException → Bool
  | .llmStreamTimeout | .llmError _ _ => true
  | _ => false

def timeoutNotice : PyStr :=
  lit "\n\nLLM stream stopped responding. This run was stopped; "++lit "retry to continue."

/-- The pieces of text that `on_chunk` has been given and the contents of the assistant
messages in the history, by the iteration they belong to, and what the attempts of this
iteration that broke off have delivered. -/
@[ext] structure Pieces where
  delivered : List (ℕ × PyStr)
  stored : List (ℕ × PyStr)
  spilled : List PyStr

structure State where
  turn : Turn
  pieces : Pieces

def start : State := ⟨AgentTurn.start,⟨[],[],[]⟩⟩

inductive Action
  | turn (a : AgentTurn.Action)
  /-- The stream raises an exception, or stalls. -/
  | breaksOff (e : StreamException)

section Steps

variable (host : Host) (maxAttempts : ℕ)

/-- What a step of the turn delivers. -/
def emits (s : Turn) : AgentTurn.Action → List (ℕ × PyStr)
  | .chunk c =>
    match s.phase with
    | .streaming i _ _ => if s.flag || c.delta.isEmpty then [] else [(i,c.delta)]
    | _ => []
  | .close =>
    match s.phase with
    | .completing i _ => [(i,[])]
    | _ => []
  | .leave => [(host.maxIterations,limitText host)]
  | _ => []

/-- The assistant message that a step of the turn appends. The message about the limit is
appended and then delivered. -/
def stores (s : Turn) : AgentTurn.Action → List (ℕ × PyStr)
  | .answer _ =>
    match s.phase with
    | .answered i m => [(i,m.content)]
    | _ => []
  | .leave => [(host.maxIterations,limitText host)]
  | _ => []

/-- An exception ends an attempt as an error of the model only while the attempt is not
streaming; otherwise the stream breaks off. -/
def quiet (s : Turn) : AgentTurn.Action → Bool
  | .retry => false
  | .llmError =>
    match s.phase with
    | .opening _ attempt => attempt = 0
    | _ => false
  | _ => true

def noticeOf (i : ℕ) : StreamException → List (ℕ × PyStr)
  | .timeoutError => [(i,timeoutNotice)]
  | _ => []

/-- What `_stream_turn` raises. -/
def raisedBy : StreamException → StreamException
  | .timeoutError => .llmStreamTimeout
  | e => e

/-- What `with_retry` and then the loop make of an exception. -/
def handle (attempt : ℕ) (e : StreamException) : AgentTurn.Action :=
  if classifyException e = .retryable ∧ attempt+1 < maxAttempts then .retry
  else if isLLMError e then .llmError
  else .raises

def deltas (chunks : List StreamChunk) : List PyStr :=
  (chunks.map StreamChunk.delta).filter fun d => !d.isEmpty

/-- A step of the turn; an iteration starts with nothing spilled. -/
def after (p : Pieces) (u : Turn) (a : AgentTurn.Action) : Pieces where
  delivered := p.delivered++emits host u a
  stored := p.stored++stores host u a
  spilled :=
    match a with
    | .check => []
    | _ => p.spilled

/-- An attempt breaks off. -/
def spill (p : Pieces) (i : ℕ) (chunks : List StreamChunk) (e : StreamException) : Pieces where
  delivered := p.delivered++noticeOf i e
  stored := p.stored
  spilled := p.spilled++deltas chunks++(noticeOf i e).map Prod.snd

def step (s : State) : Action → Option State
  | .turn a =>
    if quiet s.turn a then
      (AgentTurn.step host maxAttempts s.turn a).map fun t => ⟨t,after host s.pieces s.turn a⟩
    else none
  | .breaksOff e =>
    match s.turn.phase with
    | .streaming i attempt chunks =>
      (AgentTurn.step host maxAttempts s.turn (handle maxAttempts attempt (raisedBy e))).map fun t =>
        ⟨t,spill s.pieces i chunks e⟩
    | _ => none

end Steps

/-- The text of an iteration. -/
def textOf (pieces : List (ℕ × PyStr)) (i : ℕ) : PyStr :=
  (pieces.filter fun p => p.1 = i).flatMap Prod.snd

/-- What has been delivered for an iteration is the content of its message. -/
def Faithful (p : Pieces) : Prop := ∀ m ∈ p.stored, textOf p.delivered m.1 = m.2

/-- A message is kept only if the attempts before the one it comes from delivered nothing. -/
def unspilled (s : State) : Action → Bool
  | .turn (.answer _) => s.pieces.spilled.isEmpty
  | _ => true

def Below (pieces : List (ℕ × PyStr)) (i : ℕ) : Prop := ∀ p ∈ pieces, p.1 < i

variable {i : ℕ} {pieces : List (ℕ × PyStr)}

theorem Below.mono {j : ℕ} (h : Below pieces i) (hij : i ≤ j) :
    Below pieces j := fun p hp => Nat.lt_of_lt_of_le (h p hp) hij

theorem below_nil (i : ℕ) : Below [] i := fun _ hp => absurd hp List.not_mem_nil

theorem Below.append {pieces' : List (ℕ × PyStr)} (h : Below pieces i)
    (h' : Below pieces' i) : Below (pieces++pieces') i :=
  fun p hp => (List.mem_append.mp hp).elim (h p) (h' p)

theorem textOf_append (pieces pieces' : List (ℕ × PyStr)) (i : ℕ) :
    textOf (pieces++pieces') i = textOf pieces i++textOf pieces' i := by
  rw [textOf,List.filter_append,List.flatMap_append]
  rfl

@[simp] theorem textOf_nil (i : ℕ) : textOf [] i = [] := rfl

@[simp] theorem textOf_self (i : ℕ) (d : PyStr) : textOf [(i,d)] i = d := by simp [textOf]

theorem textOf_of_ne {j : ℕ} (h : i ≠ j) (d : PyStr) : textOf [(i,d)] j = [] := by
  simp [textOf,h]

theorem textOf_of_below (h : Below pieces i) :
    textOf pieces i = [] := by
  have hnone : pieces.filter (fun p => p.1 = i) = [] := by
    refine List.filter_eq_nil_iff.mpr fun p hp heq => ?_
    exact Nat.ne_of_lt (h p hp) (of_decide_eq_true heq)
  rw [textOf,hnone,List.flatMap_nil]

/-- The pieces of the iteration that runs, and nothing of later ones. -/
structure Current (p : Pieces) (i : ℕ) (text : PyStr) : Prop where
  delivered : Below p.delivered (i+1)
  stored : Below p.stored i
  text : textOf p.delivered i = p.spilled.flatten++text

/-- The pieces of the iterations up to one. -/
structure Past (p : Pieces) (i : ℕ) : Prop where
  delivered : Below p.delivered i
  stored : Below p.stored i

/-- What a phase says of the pieces. -/
def Placed (maxIterations : ℕ) (p : Pieces) : Phase → Prop
  | .setup => Past p 0
  | .opening i _ => i < maxIterations ∧ Current p i []
  | .streaming i _ chunks => i < maxIterations ∧ Current p i (chunks.flatMap StreamChunk.delta)
  | .answered i m => i < maxIterations ∧ Current p i m.content
  | .preparing i _ _ | .consulting i _ _ _ | .executing i _ _ | .persisting i | .draining i
  | .completing i _ | .aborting i => i < maxIterations ∧ Past p (i+1)
  | .exhausted | .limited => Past p maxIterations
  | .failing | .returned _ | .raised => True

structure Inv (host : Host) (s : State) : Prop where
  spilled : ∀ d ∈ s.pieces.spilled, d ≠ []
  placed : Placed host.maxIterations s.pieces s.turn.phase

section Proofs

variable {host : Host} {maxAttempts : ℕ} {p : Pieces} {i : ℕ} {chunks : List StreamChunk}
  {a : AgentTurn.Action} {u t : Turn}

theorem inv_start : Inv host start := ⟨nofun,nofun,nofun⟩

theorem Current.past {text : PyStr} (h : Current p i text) : Past p (i+1) :=
  ⟨h.delivered,h.stored.mono (Nat.le_succ i)⟩

theorem placed_enter (flag : Bool) (h : Past p i) (hle : i ≤ host.maxIterations)
    (hspilled : p.spilled = []) : Placed host.maxIterations p (enter host flag i) := by
  rw [enter]
  split
  · next hlt =>
    have hcurrent : Current p i [] := by
      refine ⟨h.delivered.mono (Nat.le_succ i),h.stored,?_⟩
      rw [textOf_of_below h.delivered,hspilled]
      rfl
    split
    · exact ⟨hlt,hcurrent.past⟩
    · exact ⟨hlt,hcurrent⟩
  · next hge =>
    have heq : i = host.maxIterations := Nat.le_antisymm hle (Nat.le_of_not_lt hge)
    exact heq ▸ h

theorem placed_assemble (hlt : i < host.maxIterations)
    (h : Current p i (chunks.flatMap StreamChunk.delta)) :
    Placed host.maxIterations p (assemble host i chunks) := by
  rw [assemble]
  split
  · trivial
  · next r hr =>
    obtain ⟨slots,-,hslots⟩ := Option.bind_eq_some_iff.mp hr
    obtain ⟨calls,-,rfl⟩ := Option.map_eq_some_iff.mp hslots
    exact ⟨hlt,h⟩

theorem placed_afterAnswer (m : AssistantMessage) (calls : List ToolCall)
    (hlt : i < host.maxIterations) (h : Past p (i+1)) :
    Placed host.maxIterations p (afterAnswer i m calls) := by
  cases calls <;> exact ⟨hlt,h⟩

theorem placed_afterPrepare (prepared : List PreparedToolCall) (rest : List ToolCall)
    (q : Option PreparedToolCall) (hlt : i < host.maxIterations) (h : Past p (i+1)) :
    Placed host.maxIterations p (afterPrepare i prepared rest q) := by
  cases q with
  | none => trivial
  | some q => exact ⟨hlt,h⟩

theorem Current.piece {text d : PyStr} (h : Current p i text) {stored : List (ℕ × PyStr)}
    (hstored : stored = p.stored) : Current ⟨p.delivered++[(i,d)],stored,p.spilled⟩ i (text++d) where
  delivered := h.delivered.append fun q hq => by
    rw [List.mem_singleton.mp hq]
    exact Nat.lt_succ_self i
  stored := hstored ▸ h.stored
  text := by rw [textOf_append,h.text,textOf_self,List.append_assoc]

theorem after_of_silent (hemits : emits host u a = [])
    (hstores : stores host u a = []) (hspilled : (after host p u a).spilled = p.spilled) :
    after host p u a = p := by
  refine Pieces.ext ?_ ?_ hspilled
  · change p.delivered++emits host u a = p.delivered
    rw [hemits,List.append_nil]
  · change p.stored++stores host u a = p.stored
    rw [hstores,List.append_nil]

theorem placed_chunk {c : StreamChunk} {n : ℕ}
    (hphase : u.phase = .streaming i n chunks) (hlt : i < host.maxIterations)
    (h : Current p i (chunks.flatMap StreamChunk.delta)) :
    Placed host.maxIterations (after host p u (.chunk c))
      (u.goto (if u.flag then assemble host i chunks else .streaming i n (chunks++[c]))).phase := by
  have hsilent : emits host u (.chunk c) = [] → after host p u (.chunk c) = p :=
    fun hemits => after_of_silent hemits rfl rfl
  rw [goto_phase]
  cases hflag : u.flag with
  | true =>
    rw [hsilent (by simp [emits,hphase,hflag])]
    exact placed_assemble hlt h
  | false =>
    have htext : (chunks++[c]).flatMap StreamChunk.delta = chunks.flatMap StreamChunk.delta++c.delta := by
      simp
    rw [if_neg (by simp),Placed,htext]
    refine ⟨hlt,?_⟩
    cases hdelta : c.delta with
    | nil =>
      rw [hsilent (by simp [emits,hphase,hdelta]),List.append_nil]
      exact h
    | cons d ds =>
      have hafter : after host p u (.chunk c) = ⟨p.delivered++[(i,d::ds)],p.stored,p.spilled⟩ := by
        simp [after,emits,stores,hphase,hflag,hdelta]
      rw [hafter]
      exact h.piece rfl

theorem placed_turn
    (h : AgentTurn.step host maxAttempts u a = some t) (hquiet : quiet u a = true)
    (hs : Placed host.maxIterations p u.phase) :
    Placed host.maxIterations (after host p u a) t.phase := by
  have hsilent : emits host u a = [] → stores host u a = [] →
      (after host p u a).spilled = p.spilled → after host p u a = p := after_of_silent
  cases AgentTurn.move_of_step h with
  | cancel => exact (hsilent rfl rfl rfl).symm ▸ hs
  | begin hphase =>
    rw [hphase] at hs
    refine placed_enter u.flag ⟨?_,?_⟩ (Nat.zero_le _) rfl
    · exact hs.delivered.append (below_nil _)
    · exact hs.stored.append (below_nil _)
  | again hphase =>
    rw [hphase] at hs
    refine placed_enter u.flag ⟨?_,?_⟩ hs.1 rfl
    · exact hs.2.delivered.append (below_nil _)
    · exact hs.2.stored.append (below_nil _)
  | openStream hphase =>
    rw [hphase] at hs
    rw [hsilent rfl rfl rfl]
    exact hs
  | chunk hphase =>
    rw [hphase] at hs
    exact placed_chunk hphase hs.1 hs.2
  | endStream hphase =>
    rw [hphase] at hs
    rw [hsilent rfl rfl rfl]
    exact placed_assemble hs.1 hs.2
  | retry => cases hquiet
  | @answer uuids i m hphase =>
    rw [hphase] at hs
    have hstores : stores host u (.answer uuids) = [(i,m.content)] := by simp [stores,hphase]
    refine placed_afterAnswer m _ hs.1 ⟨hs.2.delivered.append (below_nil _),?_⟩
    refine hs.2.past.stored.append fun q hq => ?_
    rw [hstores] at hq
    rw [List.mem_singleton.mp hq]
    exact Nat.lt_succ_self i
  | turnOf hphase =>
    rw [hphase] at hs
    rw [hsilent rfl rfl rfl,goto_phase]
    split <;> exact hs
  | prepare hphase =>
    rw [hphase] at hs
    rw [hsilent rfl rfl rfl]
    exact placed_afterPrepare _ _ _ hs.1 hs.2
  | persisted hphase =>
    rw [hphase] at hs
    rw [hsilent rfl rfl rfl,goto_phase]
    split <;> exact hs
  | exhaust hphase =>
    rw [hphase] at hs
    rw [hsilent (by simp [emits,hphase]) rfl rfl]
    exact hs
  | gather hphase | finish hphase | gathered hphase | dispatch hphase =>
    rw [hphase] at hs
    rw [hsilent rfl rfl rfl]
    exact hs
  | _ => trivial

theorem mem_deltas {d : PyStr} (h : d ∈ deltas chunks) : d ≠ [] := by
  rintro rfl
  have hd := (List.mem_filter.mp h).2
  cases hd

theorem flatten_deltas (chunks : List StreamChunk) :
    (deltas chunks).flatten = chunks.flatMap StreamChunk.delta := by
  induction chunks with
  | nil => rfl
  | cons c chunks ih =>
    rw [List.flatMap_cons,← ih]
    cases hdelta : c.delta <;> simp [deltas,hdelta]

theorem noticeOf_eq (i : ℕ) (e : StreamException) :
    noticeOf i e = [] ∨ noticeOf i e = [(i,timeoutNotice)] := by
  cases e <;> simp [noticeOf]

theorem mem_noticeOf {e : StreamException} {q : ℕ × PyStr} (h : q ∈ noticeOf i e) :
    q = (i,timeoutNotice) := by
  rcases noticeOf_eq i e with hnone | hsome
  · rw [hnone] at h
    cases h
  · rw [hsome] at h
    exact List.mem_singleton.mp h

theorem current_spill (e : StreamException)
    (h : Current p i (chunks.flatMap StreamChunk.delta)) : Current (spill p i chunks e) i [] where
  delivered := by
    refine h.delivered.append fun q hq => ?_
    rw [mem_noticeOf hq]
    exact Nat.lt_succ_self i
  stored := h.stored
  text := by
    rw [spill,textOf_append,h.text]
    dsimp only
    rw [List.flatten_append,List.flatten_append,flatten_deltas,List.append_nil]
    rcases noticeOf_eq i e with hnone | hsome
    · rw [hnone]
      rfl
    · rw [hsome,textOf_self]
      simp

theorem placed_spill {n : ℕ} {e : StreamException}
    (hphase : u.phase = .streaming i n chunks)
    (h : AgentTurn.step host maxAttempts u (handle maxAttempts n (raisedBy e)) = some t)
    (hlt : i < host.maxIterations) (hs : Current p i (chunks.flatMap StreamChunk.delta)) :
    Placed host.maxIterations (spill p i chunks e) t.phase := by
  rw [handle] at h
  split at h
  · next hretry =>
    simp only [AgentTurn.step,hphase,if_pos hretry.2] at h
    cases h
    exact ⟨hlt,current_spill e hs⟩
  · split at h
    · simp only [AgentTurn.step,hphase] at h
      cases h
      trivial
    · simp only [AgentTurn.step,hphase,Phase.over] at h
      cases h
      trivial

theorem inv_step {s t : State} {a : Action} (h : step host maxAttempts s a = some t)
    (hs : Inv host s) : Inv host t := by
  cases a with
  | turn a =>
    simp only [step] at h
    split at h
    · next hquiet =>
      obtain ⟨u,hu,rfl⟩ := Option.map_eq_some_iff.mp h
      refine ⟨?_,placed_turn hu hquiet hs.placed⟩
      intro d hd
      cases a <;> first | exact hs.spilled d hd | cases hd
    · cases h
  | breaksOff e =>
    simp only [step] at h
    split at h
    · next i n chunks hphase =>
      obtain ⟨u,hu,rfl⟩ := Option.map_eq_some_iff.mp h
      have hplaced := hs.placed
      rw [hphase] at hplaced
      refine ⟨fun d hd => ?_,placed_spill hphase hu hplaced.1 hplaced.2⟩
      rcases List.mem_append.mp hd with hd | hd
      · exact (List.mem_append.mp hd).elim (hs.spilled d) mem_deltas
      · obtain ⟨q,hq,rfl⟩ := List.mem_map.mp hd
        rw [mem_noticeOf hq]
        nofun
    · cases h

theorem flatten_eq_nil_iff {ds : List PyStr} (h : ∀ d ∈ ds, d ≠ []) : ds.flatten = [] ↔ ds = [] := by
  cases ds with
  | nil => simp
  | cons d ds => simp [h d List.mem_cons_self]

theorem faithful_append {delivered : List (ℕ × PyStr)} {spilled : List PyStr}
    (h : ∀ m ∈ p.stored, textOf delivered m.1 = []) (hp : Faithful p) :
    Faithful ⟨p.delivered++delivered,p.stored,spilled⟩ := by
  intro m hm
  rw [textOf_append,h m hm,List.append_nil]
  exact hp m hm

theorem textOf_piece {d : PyStr} (h : Below p.stored i) : ∀ m ∈ p.stored, textOf [(i,d)] m.1 = [] :=
  fun m hm => textOf_of_ne (Nat.ne_of_gt (h m hm)) d

theorem textOf_emits (hs : Placed host.maxIterations p u.phase)
    (ha : a ≠ .leave) : ∀ m ∈ p.stored, textOf (emits host u a) m.1 = [] := by
  intro m hm
  cases a with
  | chunk c =>
    simp only [emits]
    split
    · next i n chunks hphase =>
      rw [hphase] at hs
      split
      · rfl
      · exact textOf_piece hs.2.stored m hm
    · rfl
  | close =>
    simp only [emits]
    split
    · next i text hphase =>
      by_cases heq : i = m.1
      · rw [heq,textOf_self]
      · exact textOf_of_ne heq []
    · rfl
  | leave => exact absurd rfl ha
  | _ => rfl

theorem faithful_answer {uuids : ℕ → PyStr}
    (h : AgentTurn.step host maxAttempts u (.answer uuids) = some t)
    (hs : Placed host.maxIterations p u.phase) (hspilled : ∀ d ∈ p.spilled, d ≠ [])
    (hp : Faithful p) : Faithful (after host p u (.answer uuids)) ↔ p.spilled = [] := by
  cases AgentTurn.move_of_step h with
  | @answer _ i m hphase =>
    rw [hphase] at hs
    obtain ⟨-,hcurrent⟩ := hs
    have hafter : after host p u (.answer uuids) = ⟨p.delivered,p.stored++[(i,m.content)],p.spilled⟩ := by
      simp [after,emits,stores,hphase]
    rw [hafter,← flatten_eq_nil_iff hspilled]
    constructor
    · intro hfaithful
      have htext := hfaithful (i,m.content) (by simp)
      dsimp only at htext
      rw [hcurrent.text] at htext
      exact List.append_left_eq_self.mp htext
    · intro hnil q hq
      rcases List.mem_append.mp hq with hq | hq
      · exact hp q hq
      · rw [List.mem_singleton.mp hq]
        dsimp only
        rw [hcurrent.text,hnil,List.nil_append]

theorem faithful_leave (h : AgentTurn.step host maxAttempts u .leave = some t)
    (hs : Placed host.maxIterations p u.phase) (hp : Faithful p) :
    Faithful (after host p u .leave) := by
  cases AgentTurn.move_of_step h with
  | leave hphase =>
    rw [hphase] at hs
    intro m hm
    change textOf (p.delivered++[(host.maxIterations,limitText host)]) m.1 = m.2
    rw [textOf_append]
    rcases List.mem_append.mp hm with hm | hm
    · rw [textOf_piece hs.stored m hm,List.append_nil]
      exact hp m hm
    · rw [List.mem_singleton.mp hm]
      dsimp only
      rw [textOf_of_below hs.delivered,textOf_self,List.nil_append]

theorem faithful_step_iff {s t : State} {a : Action} (h : step host maxAttempts s a = some t)
    (hs : Inv host s) (hp : Faithful s.pieces) : Faithful t.pieces ↔ unspilled s a = true := by
  cases a with
  | breaksOff e =>
    simp only [step] at h
    split at h
    · next i n chunks hphase =>
      obtain ⟨u,-,rfl⟩ := Option.map_eq_some_iff.mp h
      have hplaced := hs.placed
      rw [hphase] at hplaced
      refine iff_of_true (faithful_append (fun m hm => ?_) hp) rfl
      rcases noticeOf_eq i e with hnone | hsome
      · rw [hnone]
        rfl
      · rw [hsome]
        exact textOf_piece hplaced.2.stored m hm
    · cases h
  | turn a =>
    simp only [step] at h
    split at h
    · obtain ⟨u,hu,rfl⟩ := Option.map_eq_some_iff.mp h
      cases a with
      | answer uuids =>
        rw [unspilled,List.isEmpty_iff]
        exact faithful_answer hu hs.placed hs.spilled hp
      | leave => exact iff_of_true (faithful_leave hu hs.placed hp) rfl
      | _ =>
        refine iff_of_true ?_ rfl
        simp only [after,stores,List.append_nil]
        exact faithful_append (textOf_emits hs.placed nofun) hp
    · cases h

theorem faithful_start : Faithful start.pieces := nofun

/-- In a run, what is delivered for each message is its content throughout exactly when each
message is kept from a first attempt, or behind attempts that delivered nothing. -/
theorem faithful_throughout_iff {as : List Action} {s : State}
    (h : Run (step host maxAttempts) always start as s) :
    Throughout (step host maxAttempts) (fun s => Faithful s.pieces) start as ↔
      Run (step host maxAttempts) (fun s a => unspilled s a = true) start as s :=
  throughout_iff (fun _ _ _ _ hst hs _ _ => inv_step hst hs)
    (fun _ _ _ _ hst hs hp => faithful_step_iff hst hs hp) h inv_start faithful_start

end Proofs

def textOnly (text : PyStr) : Action := .turn (.chunk ⟨text,[],none,[]⟩)

/-- A first attempt delivers a piece of text and breaks off, the second one answers. -/
def retried (first : PyStr) : List Action :=
  [.turn .check,.turn .openStream,textOnly first,.breaksOff .connectionError,
    .turn .openStream,textOnly (lit "Hello"),.turn .endStream,.turn (.answer fun _ => []),.turn .close]

theorem run_retried (first : PyStr) : Run (step plainHost 3) always start (retried first)
    (last (step plainHost 3) start (retried first)) := run_last (by rfl)

/-- An attempt that broke off before its first piece of text leaves nothing behind. -/
theorem faithful_retried_silent :
    Throughout (step plainHost 3) (fun s => Faithful s.pieces) start (retried []) := by
  refine (faithful_throughout_iff (run_retried [])).mpr ?_
  refine .succ rfl rfl (.succ rfl rfl (.succ rfl rfl (.succ rfl rfl (.succ rfl rfl ?_))))
  exact .succ rfl rfl (.succ rfl rfl (.succ rfl rfl (.succ rfl rfl (.refl _))))

/-- What the first attempt has delivered stays in front of the answer. -/
theorem retried_text_repeats : ∃ s, Run (step plainHost 3) always start (retried (lit "Hel")) s ∧
    s.pieces.stored = [(0,lit "Hello")] ∧ textOf s.pieces.delivered 0 = lit "HelHello" ∧
    ¬ Faithful s.pieces := by
  have htext : textOf (last (step plainHost 3) start (retried (lit "Hel"))).pieces.delivered 0 =
      lit "HelHello" := by rfl
  refine ⟨_,run_retried (lit "Hel"),rfl,htext,fun h => ?_⟩
  have heq := h (0,lit "Hello") List.mem_cons_self
  rw [htext] at heq
  revert heq
  decide

end MinimaxCode.StreamedText
