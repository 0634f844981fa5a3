import MinimaxCode.PyJson
import MinimaxCode.Runs

/-!
# Questions to the user

A tool call that asks the user suspends the turn until an answer, a timeout or a
cancellation of the turn. The waits of one core, the answers from the client, the
cancellation and the next turn take their steps in any order; one step is what happens
between two suspensions.
-/

namespace MinimaxCode.AskUser

open PyJson Runs

inductive Future
  | unresolved
  | result (answers : Option (List Json))
  | cancelled

def Future.done : Future → Bool
  | unresolved => false
  | _ => true

/-- Where a call of `_wait_for_ask_user` is suspended: in the callback that shows the
question, or at the future. -/
inductive Stage
  | emitting
  | waiting
  deriving DecidableEq

/-- What has been thrown at a suspended call: the timeout, or a cancellation of its task. -/
inductive Interrupt
  | timeout
  | taskCancel
  deriving DecidableEq

structure Wait where
  id : ℕ
  run : ℕ
  stage : Stage
  interrupt : Option Interrupt

inductive Reply
  | skipped
  | timedOut
  | failed
  | aborted
  | turnCancelled
  | answered (answers : List Json)

/-- A core, with its own entries of the route table. `prepared` has the run of every question
that has passed the check of its batch, `flagged` the runs whose cancel flag was set. -/
structure Core where
  run : ℕ
  cancelled : Bool
  pending : List ℕ
  routes : List ℕ
  future : ℕ → Future
  prepared : List ℕ
  waits : List Wait
  replies : List (ℕ × Reply)
  flagged : List ℕ

def start : Core := ⟨0,false,[],[],fun _ => .unresolved,[],[],[],[]⟩

/-- `future.set_result` on a future that is not done. -/
def setResult (future : ℕ → Future) (id : ℕ) (answers : Option (List Json)) : ℕ → Future :=
  if (future id).done then future else Function.update future id (.result answers)

def cancel (s : Core) : Core where
  run := s.run
  cancelled := true
  pending := s.pending
  routes := s.routes
  future := s.pending.foldl (fun future id => setResult future id none) s.future
  prepared := s.prepared
  waits := s.waits
  replies := s.replies
  flagged := s.run::s.flagged

def resolveAskUser (s : Core) (id : ℕ) (answers : List Json) : Core × Bool :=
  if id ∈ s.pending ∧ (s.future id).done = false then
    ({ s with future := setResult s.future id (some answers) },true)
  else (s,false)

/-- `handle_agent_answer_user`, for the part that reaches the core. -/
def answerUser (s : Core) (id : ℕ) (answers : List Json) : Core :=
  if answers.isEmpty then s
  else if id ∈ s.routes then (resolveAskUser s id answers).1
  else s

/-- `_run_tool_batch` passes a question on unless the turn is cancelled. -/
def prepare (s : Core) : Core :=
  if s.cancelled then s else { s with prepared := s.prepared++[s.run] }

/-- A call leaves `_wait_for_ask_user`. -/
def leave (s : Core) (id : ℕ) (reply : Reply) : Core :=
  { s with
    pending := s.pending.filter (· ≠ id)
    routes := s.routes.filter (· ≠ id)
    waits := s.waits.filter (·.id ≠ id)
    replies := s.replies++[(id,reply)] }

/-- `_wait_for_ask_user` up to its first suspension. Without a callback it does not suspend. -/
def register (hasCallback : Bool) (s : Core) (id run : ℕ) : Core :=
  let entered := { s with
    prepared := s.prepared.erase run
    pending := s.pending++[id]
    routes := s.routes++[id]
    future := Function.update s.future id .unresolved
    waits := s.waits++[⟨id,run,.emitting,none⟩] }
  if hasCallback then entered else leave entered id .skipped

def waits (s : Core) (id : ℕ) (p : Wait → Bool) : Bool := s.waits.any fun w => w.id = id && p w

def modifyWait (s : Core) (id : ℕ) (f : Wait → Wait) : List Wait :=
  s.waits.map fun w => if w.id = id then f w else w

/-- The future is cancelled with the task that awaits it. -/
def cancelFuture (future : ℕ → Future) (id : ℕ) : ℕ → Future :=
  if (future id).done then future else Function.update future id .cancelled

def interruptOf (s : Core) (id : ℕ) : Option Interrupt := (s.waits.find? (·.id = id)).bind Wait.interrupt

/-- What a call returns when it is resumed at its future. -/
def replyOf (s : Core) (id : ℕ) : Reply :=
  match interruptOf s id with
  | some .timeout => .timedOut
  | some .taskCancel => .aborted
  | none =>
    match s.future id with
    | .result (some answers) => .answered answers
    | .result none => .turnCancelled
    | _ => .failed

inductive Action
  | begin
  | prepare
  | register (id run : ℕ)
  | emitted (id : ℕ)
  | emitFailed (id : ℕ)
  | expire (id : ℕ)
  | abort (id : ℕ)
  | wake (id : ℕ)
  | answer (id : ℕ) (answers : List Json)
  | cancel

/-- A step of the core. A question draws an identifier that is not pending. -/
def step (hasCallback : Bool) (s : Core) : Action → Option Core
  | .begin => some { s with run := s.run+1, cancelled := false }
  | .prepare => some (prepare s)
  | .register id run =>
    if run ∈ s.prepared ∧ id ∉ s.pending then some (register hasCallback s id run) else none
  | .emitted id =>
    if waits s id fun w => w.stage = .emitting && w.interrupt = none then
      some { s with waits := modifyWait s id fun w => { w with stage := .waiting } }
    else none
  | .emitFailed id =>
    if waits s id fun w => w.stage = .emitting then
      some (leave s id (if interruptOf s id = none then .failed else .aborted))
    else none
  | .expire id =>
    if (waits s id fun w => w.stage = .waiting && w.interrupt = none) && !(s.future id).done then
      some { s with
        waits := modifyWait s id fun w => { w with interrupt := some .timeout }
        future := cancelFuture s.future id }
    else none
  | .abort id =>
    if waits s id fun w => w.interrupt = none then
      some { s with
        waits := modifyWait s id fun w => { w with interrupt := some .taskCancel }
        future := if waits s id fun w => w.stage = .waiting then cancelFuture s.future id else s.future }
    else none
  | .wake id =>
    if (waits s id fun w => w.stage = .waiting) && ((s.future id).done || interruptOf s id ≠ none) then
      some (leave s id (replyOf s id))
    else none
  | .answer id answers => some (answerUser s id answers)
  | .cancel => some (cancel s)

/-- The pending futures and the routes are those of the calls that still wait, each once. -/
structure PendingExact (s : Core) : Prop where
  pending : s.pending = s.waits.map Wait.id
  routes : s.routes = s.pending
  nodup : s.pending.Nodup

/-- No wait of a run whose flag was set is unresolved. -/
def FlaggedSettled (s : Core) : Prop := ∀ w ∈ s.waits, w.run ∈ s.flagged → (s.future w.id).done = true

/-- The futures that one map has settled stay settled in another. -/
def SettledIn (future future' : ℕ → Future) : Prop :=
  ∀ id, (future id).done = true → (future' id).done = true

variable {id : ℕ} {f : Wait → Wait} {s t : Core} {hasCallback : Bool} {a : Action}

theorem settledIn_update {future : ℕ → Future} {f : Future} (h : f.done = true) :
    SettledIn future (Function.update future id f) := by
  intro j hj
  by_cases hji : j = id
  · rw [hji,Function.update_self,h]
  · rwa [Function.update_of_ne hji]

theorem setResult_settledIn (future : ℕ → Future) (id : ℕ) (answers : Option (List Json)) :
    SettledIn future (setResult future id answers) := by
  unfold setResult
  split
  · exact fun _ h => h
  · exact settledIn_update rfl

theorem setResult_done (future : ℕ → Future) (id : ℕ) (answers : Option (List Json)) :
    (setResult future id answers id).done = true := by
  unfold setResult
  split
  · assumption
  · rw [Function.update_self]
    rfl

theorem cancelFuture_settledIn (future : ℕ → Future) (id : ℕ) : SettledIn future (cancelFuture future id) := by
  unfold cancelFuture
  split
  · exact fun _ h => h
  · exact settledIn_update rfl

theorem cancel_loop (ids : List ℕ) (future : ℕ → Future) :
    SettledIn future (ids.foldl (fun future id => setResult future id none) future) ∧
      ∀ id ∈ ids, (ids.foldl (fun future id => setResult future id none) future id).done = true := by
  induction ids generalizing future with
  | nil => exact ⟨fun _ h => h,by simp⟩
  | cons i ids ih =>
    obtain ⟨hkeep,hall⟩ := ih (setResult future i none)
    refine ⟨fun j hj => hkeep j (setResult_settledIn future i none j hj),fun j hj => ?_⟩
    cases List.mem_cons.mp hj with
    | inl h => exact hkeep j (h ▸ setResult_done future i none)
    | inr h => exact hall j h

theorem modifyWait_ids (s : Core) (id : ℕ) (hf : ∀ w, (f w).id = w.id) :
    (modifyWait s id f).map Wait.id = s.waits.map Wait.id := by
  rw [modifyWait,List.map_map]
  refine List.map_congr_left fun w _ => ?_
  rw [Function.comp_apply]
  split
  · exact hf w
  · rfl

theorem of_mem_modifyWait
    (hf : ∀ w, (f w).id = w.id ∧ (f w).run = w.run) {w : Wait} (h : w ∈ modifyWait s id f) :
    ∃ v ∈ s.waits, w.id = v.id ∧ w.run = v.run := by
  obtain ⟨v,hv,rfl⟩ := List.mem_map.mp h
  refine ⟨v,hv,?_⟩
  split
  · exact hf v
  · exact ⟨rfl,rfl⟩

theorem PendingExact.leave (h : PendingExact s) (id : ℕ) (reply : Reply) :
    PendingExact (leave s id reply) where
  pending := by
    rw [AskUser.leave,h.pending,List.filter_map]
    rfl
  routes := by rw [AskUser.leave,h.routes]
  nodup := h.nodup.filter _

theorem PendingExact.modify (h : PendingExact s) (id : ℕ)
    (hf : ∀ w, (f w).id = w.id) (future : ℕ → Future) :
    PendingExact { s with waits := modifyWait s id f, future := future } where
  pending := h.pending.trans (modifyWait_ids s id hf).symm
  routes := h.routes
  nodup := h.nodup

theorem PendingExact.register (h : PendingExact s) {run : ℕ}
    (hid : id ∉ s.pending) : PendingExact (register hasCallback s id run) := by
  have hentered : PendingExact { s with
      prepared := s.prepared.erase run
      pending := s.pending++[id]
      routes := s.routes++[id]
      future := Function.update s.future id .unresolved
      waits := s.waits++[⟨id,run,.emitting,none⟩] } :=
    { pending := by rw [List.map_append,← h.pending]; rfl
      routes := by rw [h.routes]
      nodup := List.concat_eq_append ▸ h.nodup.concat hid }
  unfold AskUser.register
  cases hasCallback with
  | true => exact hentered
  | false => exact hentered.leave id .skipped

theorem PendingExact.answerUser (h : PendingExact s) (id : ℕ) (answers : List Json) :
    PendingExact (answerUser s id answers) := by
  unfold AskUser.answerUser resolveAskUser
  split
  · exact h
  · split
    · split
      · exact ⟨h.pending,h.routes,h.nodup⟩
      · exact h
    · exact h

theorem pendingExact_step
    (hs : step hasCallback s a = some t) (h : PendingExact s) : PendingExact t := by
  cases a with
  | begin =>
    cases hs
    exact ⟨h.pending,h.routes,h.nodup⟩
  | prepare =>
    cases hs
    unfold AskUser.prepare
    split
    · exact h
    · exact ⟨h.pending,h.routes,h.nodup⟩
  | register id run =>
    obtain ⟨hguard,hs⟩ := Option.ite_none_right_eq_some.mp hs
    cases hs
    exact h.register hguard.2
  | emitted id =>
    obtain ⟨_,hs⟩ := Option.ite_none_right_eq_some.mp hs
    cases hs
    refine h.modify id ?_ s.future
    exact fun _ => rfl
  | emitFailed id =>
    obtain ⟨_,hs⟩ := Option.ite_none_right_eq_some.mp hs
    cases hs
    exact h.leave id _
  | expire id =>
    obtain ⟨_,hs⟩ := Option.ite_none_right_eq_some.mp hs
    cases hs
    refine h.modify id ?_ _
    exact fun _ => rfl
  | abort id =>
    obtain ⟨_,hs⟩ := Option.ite_none_right_eq_some.mp hs
    cases hs
    refine h.modify id ?_ _
    exact fun _ => rfl
  | wake id =>
    obtain ⟨_,hs⟩ := Option.ite_none_right_eq_some.mp hs
    cases hs
    exact h.leave id _
  | answer id answers =>
    cases hs
    exact h.answerUser id answers
  | cancel =>
    cases hs
    exact ⟨h.pending,h.routes,h.nodup⟩

theorem FlaggedSettled.mono (h : FlaggedSettled s)
    (hw : ∀ w ∈ t.waits, ∃ v ∈ s.waits, w.id = v.id ∧ w.run = v.run) (hf : t.flagged = s.flagged)
    (hsettled : SettledIn s.future t.future) : FlaggedSettled t := by
  intro w hwt hflag
  obtain ⟨v,hv,hid,hrun⟩ := hw w hwt
  rw [hf,hrun] at hflag
  rw [hid]
  exact hsettled _ (h v hv hflag)

theorem FlaggedSettled.leave (h : FlaggedSettled s) (id : ℕ) (reply : Reply) :
    FlaggedSettled (leave s id reply) :=
  h.mono (fun w hw => ⟨w,(List.mem_filter.mp hw).1,rfl,rfl⟩) rfl fun _ h => h

theorem FlaggedSettled.answerUser (h : FlaggedSettled s) (id : ℕ) (answers : List Json) :
    FlaggedSettled (answerUser s id answers) := by
  unfold AskUser.answerUser resolveAskUser
  split
  · exact h
  · split
    · split
      · exact h.mono (fun w hw => ⟨w,hw,rfl,rfl⟩) rfl (setResult_settledIn _ _ _)
      · exact h
    · exact h

theorem flaggedSettled_cancel (h : PendingExact s) : FlaggedSettled (cancel s) := by
  intro w hw _
  refine (cancel_loop s.pending s.future).2 w.id ?_
  rw [h.pending]
  exact List.mem_map_of_mem hw

theorem flaggedSettled_register (hp : PendingExact s) (h : FlaggedSettled s)
    {run : ℕ} (hid : id ∉ s.pending) :
    FlaggedSettled (register hasCallback s id run) ↔ (hasCallback = true → run ∉ s.flagged) := by
  have hne : ∀ w ∈ s.waits, w.id ≠ id := by
    rintro w hw rfl
    exact hid (hp.pending ▸ List.mem_map_of_mem hw)
  have hold : ∀ w ∈ s.waits, w.run ∈ s.flagged →
      (Function.update s.future id .unresolved w.id).done = true := by
    intro w hw hflag
    rw [Function.update_of_ne (hne w hw)]
    exact h w hw hflag
  unfold register
  cases hasCallback with
  | false =>
    refine ⟨fun _ hfalse => absurd hfalse Bool.false_ne_true,fun _ w hw hflag => ?_⟩
    obtain ⟨hw,hwid⟩ := List.mem_filter.mp hw
    cases List.mem_append.mp hw with
    | inl hw => exact hold w hw hflag
    | inr hw =>
      rw [List.mem_singleton.mp hw] at hwid
      simp at hwid
  | true =>
    constructor
    · intro hnew _ hflag
      have hdone := hnew ⟨id,run,.emitting,none⟩ (List.mem_append_right _ List.mem_cons_self) hflag
      simp [Future.done] at hdone
    · intro hlate w hw hflag
      cases List.mem_append.mp hw with
      | inl hw => exact hold w hw hflag
      | inr hw =>
        rw [List.mem_singleton.mp hw] at hflag
        exact absurd hflag (hlate rfl)

/-- A question registers late when the flag of its run is set, so that nobody will wake it. -/
def NotLate (hasCallback : Bool) (s : Core) (a : Action) : Prop :=
  ∀ id run, a = .register id run → hasCallback = true → run ∉ s.flagged

theorem flaggedSettled_of_ne_register
    (hs : step hasCallback s a = some t) (hp : PendingExact s) (h : FlaggedSettled s)
    (hne : ∀ id run, a ≠ .register id run) : FlaggedSettled t := by
  have hmodify : ∀ id (f : Wait → Wait) future, (∀ w, (f w).id = w.id ∧ (f w).run = w.run) →
      SettledIn s.future future → FlaggedSettled { s with waits := modifyWait s id f, future := future } :=
    fun id f future hf hfuture => h.mono (fun w hw => of_mem_modifyWait hf hw) rfl hfuture
  cases a with
  | register id run => exact absurd rfl (hne id run)
  | begin =>
    cases hs
    exact h
  | prepare =>
    cases hs
    unfold AskUser.prepare
    split
    · exact h
    · exact h
  | emitted id =>
    obtain ⟨_,hs⟩ := Option.ite_none_right_eq_some.mp hs
    cases hs
    refine hmodify id _ s.future ?_ fun _ h => h
    exact fun _ => ⟨rfl,rfl⟩
  | emitFailed id =>
    obtain ⟨_,hs⟩ := Option.ite_none_right_eq_some.mp hs
    cases hs
    exact h.leave id _
  | expire id =>
    obtain ⟨_,hs⟩ := Option.ite_none_right_eq_some.mp hs
    cases hs
    refine hmodify id _ _ ?_ (cancelFuture_settledIn _ _)
    exact fun _ => ⟨rfl,rfl⟩
  | abort id =>
    obtain ⟨_,hs⟩ := Option.ite_none_right_eq_some.mp hs
    cases hs
    refine hmodify id _ _ ?_ ?_
    · exact fun _ => ⟨rfl,rfl⟩
    · split
      · exact cancelFuture_settledIn _ _
      · exact fun _ h => h
  | wake id =>
    obtain ⟨_,hs⟩ := Option.ite_none_right_eq_some.mp hs
    cases hs
    exact h.leave id _
  | answer id answers =>
    cases hs
    exact h.answerUser id answers
  | cancel =>
    cases hs
    exact flaggedSettled_cancel hp

theorem flaggedSettled_step
    (hs : step hasCallback s a = some t) (hp : PendingExact s) (h : FlaggedSettled s) :
    FlaggedSettled t ↔ NotLate hasCallback s a := by
  by_cases hreg : ∃ id run, a = .register id run
  · obtain ⟨id,run,rfl⟩ := hreg
    obtain ⟨hguard,hs⟩ := Option.ite_none_right_eq_some.mp hs
    cases hs
    rw [flaggedSettled_register hp h hguard.2]
    constructor
    · rintro hlate i r heq
      cases heq
      exact hlate
    · exact fun hlate => hlate id run rfl
  · have hne : ∀ id run, a ≠ .register id run := fun id run heq => hreg ⟨id,run,heq⟩
    exact iff_of_true (flaggedSettled_of_ne_register hs hp h hne)
      fun id run heq => absurd heq (hne id run)

/-- Asking keeps its promise: what is pending is what waits, and no wait outlives the
cancellation of its run. -/
def WaitsSettled (s : Core) : Prop := PendingExact s ∧ FlaggedSettled s

theorem start_waitsSettled : WaitsSettled start := ⟨⟨rfl,rfl,List.nodup_nil⟩,by simp [FlaggedSettled,start]⟩

/-- In every run, the pending futures are those of the waiting calls. -/
theorem pendingExact_of_run {as : List Action}
    (h : Run (step hasCallback) always s as t) (hs : PendingExact s) : PendingExact t :=
  h.invariant (fun _ _ _ _ hst => pendingExact_step hst) hs

/-- The waits stay settled throughout a run exactly when no question registers after the flag of
its run was set. -/
theorem waits_settled_iff_not_late {hasCallback : Bool} {as : List Action} {u : Core}
    (h : Run (step hasCallback) always start as u) :
    Throughout (step hasCallback) WaitsSettled start as ↔
      Run (step hasCallback) (NotLate hasCallback) start as u := by
  refine throughout_iff (fun _ _ _ _ hst hp _ _ => pendingExact_step hst hp) ?_ h
    start_waitsSettled.1 start_waitsSettled
  intro s a t _ hst _ hP
  rw [WaitsSettled,and_iff_right (pendingExact_step hst hP.1)]
  exact flaggedSettled_step hst hP.1 hP.2

/-- A turn that is cancelled while its question is on the way to the user: the wait is
registered after the flag was set, and stays. -/
theorem late_question_hangs :
    ¬ ∀ as u, Run (step true) always start as u → WaitsSettled u := by
  intro h
  have hrun : Run (step true) always start [.prepare,.cancel,.register 0 0,.emitted 0]
      (last (step true) start [.prepare,.cancel,.register 0 0,.emitted 0]) := run_last rfl
  have hdone := (h _ _ hrun).2 ⟨0,0,.waiting,none⟩ List.mem_cons_self List.mem_cons_self
  exact absurd hdone Bool.false_ne_true

/-- A question that waits when the turn is cancelled. -/
theorem question_cancelled_in_time :
    Throughout (step true) WaitsSettled start [.prepare,.register 0 0,.emitted 0,.cancel,.wake 0] := by
  refine (waits_settled_iff_not_late (run_last rfl)).mpr ?_
  refine .succ ?_ rfl (.succ ?_ rfl (.succ ?_ rfl (.succ ?_ rfl (.succ ?_ rfl (.refl _)))))
  · intro id run heq
    cases heq
  · intro id run heq _
    cases heq
    exact List.not_mem_nil
  · intro id run heq
    cases heq
  · intro id run heq
    cases heq
  · intro id run heq
    cases heq

theorem pendingExact_late_question :
    PendingExact (last (step true) start [.prepare,.cancel,.register 0 0,.emitted 0]) :=
  pendingExact_of_run (run_last rfl) start_waitsSettled.1

end MinimaxCode.AskUser
