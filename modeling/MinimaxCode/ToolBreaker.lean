import MinimaxCode.AgentHistory
import MinimaxCode.OrderedDict
import MinimaxCode.Pool

/-!
# The circuit breaker of the tools

Each tool has a breaker. A batch of calls is prepared in order, where the breaker is asked,
and then executed side by side, where the outcome is recorded; each exit of either phase is
an action of its own. The calls that were admitted and the outcomes that were recorded are
logged beside the state.
-/

namespace MinimaxCode.ToolBreaker

open PyText PyJson OrderedDict Pool Runs Agent

inductive BreakerState
  | closed
  | open
  | halfOpen
  deriving DecidableEq

inductive Outcome
  | success
  | failure
  deriving DecidableEq

structure BreakerConfig where
  windowDuration : ℚ
  minSamples : ℤ
  errorRateThreshold : ℚ
  openDuration : ℚ
  halfOpenMaxProbes : ℤ
  failureCodes : List ℤ
  enabled : Bool

def defaultFailureCodes : List ℤ := [429,500,502,503,504]

/-- `BreakerConfig.client()`, the configuration that the tools get. -/
def BreakerConfig.client : BreakerConfig := ⟨60,3,1/2,60,1,defaultFailureCodes,true⟩

structure CircuitBreaker where
  state : BreakerState
  openedAt : ℚ
  samples : List (ℚ × Outcome)
  halfOpenInflight : ℤ

namespace CircuitBreaker

def fresh : CircuitBreaker := ⟨.closed,0,[],0⟩

variable (cfg : BreakerConfig) (now : ℚ) (b : CircuitBreaker)

/-- The half-open gate. -/
def probe : Option ℚ × CircuitBreaker :=
  if cfg.halfOpenMaxProbes ≤ b.halfOpenInflight then (some cfg.openDuration,b)
  else (none,{ b with halfOpenInflight := b.halfOpenInflight+1 })

/-- A `BreakerOpen` gives back how long to wait. -/
def check : Option ℚ × CircuitBreaker :=
  if !cfg.enabled then (none,b)
  else match b.state with
    | .closed => (none,b)
    | .halfOpen => probe cfg b
    | .open =>
      if cfg.openDuration ≤ now-b.openedAt then
        probe cfg { b with state := .halfOpen, halfOpenInflight := 0 }
      else (some (cfg.openDuration-(now-b.openedAt)),b)

def errorRate (samples : List (ℚ × Outcome)) : ℚ :=
  if samples.isEmpty then 0
  else (samples.countP fun s => s.2 = .failure : ℚ)/samples.length

def prune (samples : List (ℚ × Outcome)) : List (ℚ × Outcome) :=
  samples.dropWhile fun s => s.1 < now-cfg.windowDuration

def trip : CircuitBreaker := { b with state := .open, openedAt := now }

/-- A failure with a status that is no failure code counts as a success. -/
def coerce (outcome : Outcome) (statusCode : Option ℤ) : Outcome :=
  if outcome = .failure ∧ statusCode.any (· ∉ cfg.failureCodes) then .success else outcome

def record (outcome : Outcome) (statusCode : Option ℤ) : CircuitBreaker :=
  if !cfg.enabled then b
  else
    let outcome := coerce cfg outcome statusCode
    let samples := prune cfg now (b.samples++[(now,outcome)])
    match b.state with
    | .halfOpen =>
      let b := { b with samples := samples, halfOpenInflight := max 0 (b.halfOpenInflight-1) }
      if outcome = .failure then trip now b else { b with state := .closed, samples := [] }
    | .closed =>
      let b := { b with samples := samples }
      if cfg.minSamples ≤ samples.length ∧ cfg.errorRateThreshold ≤ errorRate samples then trip now b
      else b
    | .open => { b with samples := samples }

end CircuitBreaker

/-- A prepared call and the tool whose breaker has admitted it. -/
structure Prepared where
  call : PreparedToolCall
  breaker : Option PyStr

inductive Batch
  | preparing (todo : List ToolCall) (prepared : List Prepared)
  | executing (running : List Prepared)

/-- The tools whose breakers wait for an outcome. -/
def Batch.held : Batch → List PyStr
  | .preparing _ prepared => prepared.filterMap Prepared.breaker
  | .executing running => running.filterMap Prepared.breaker

structure State where
  breakers : List (PyStr × CircuitBreaker)
  batches : List Batch
  admitted : List PyStr
  recorded : List PyStr

def start : State := ⟨[],[],[],[]⟩

def key (name : PyStr) : PyStr := lit "tool:"++name

/-- `get_or_create`. -/
def State.breaker (s : State) (name : PyStr) : CircuitBreaker :=
  (lookup s.breakers (key name)).getD .fresh

/-- How many admitted calls of a tool are still running. -/
def State.running (s : State) (name : PyStr) : ℕ := (s.batches.flatMap Batch.held).count name

/-- How an execution ends: the tool returns; it crashes or exceeds its time; or a
cancellation, or an exception outside the guarded dispatch, leaves it. -/
inductive Ending
  | returns
  | fails
  | escapes

def Ending.outcome : Ending → Option Outcome
  | .returns => some .success
  | .fails => some .failure
  | .escapes => none

/-- The outcome that an execution records; the lookup of the write lock raises on arguments
that are no dictionary. -/
def outcomeOf (p : PreparedToolCall) (ending : Ending) : Option Outcome :=
  if p.name ∈ writeTools ∧ isDict p.args = false then none else ending.outcome

inductive Action
  | batch (calls : List ToolCall)
  | prepare (i : ℕ) (env : CallEnv) (now : ℚ)
  | gather (i : ℕ)
  | finish (i k : ℕ) (ending : Ending) (now : ℚ)
  /-- An exception or a cancellation escapes while a batch is prepared. -/
  | abandon (i : ℕ)

section Step

variable (host : Host) (seconds : ℚ → PyStr) (cfg : BreakerConfig)

/-- The preparation up to the breaker; nothing where it raises. -/
def beforeBreaker (env : CallEnv) (c : ToolCall) : Option PreparedToolCall :=
  if env.cancelled then some (cancelPrepared c)
  else prepareToolCall host { env with circuitOpen := none } c

def prepare (s : State) (i : ℕ) (env : CallEnv) (now : ℚ) (c : ToolCall) (todo : List ToolCall)
    (prepared : List Prepared) : State :=
  match beforeBreaker host env c with
  | none => { s with batches := put s.batches i none }
  | some p =>
    if p.shortCircuit.isSome || c.name.isEmpty then
      { s with batches := put s.batches i (some (.preparing todo (prepared++[⟨p,none⟩]))) }
    else
      match (s.breaker c.name).check cfg now with
      | (some retryAfter,b) =>
        let p := { p with shortCircuit := some (circuitOpenResult c.name (seconds retryAfter)) }
        { s with
          breakers := assign s.breakers (key c.name) b
          batches := put s.batches i (some (.preparing todo (prepared++[⟨p,none⟩]))) }
      | (none,b) =>
        { s with
          breakers := assign s.breakers (key c.name) b
          batches := put s.batches i (some (.preparing todo (prepared++[⟨p,some c.name⟩])))
          admitted := s.admitted++[c.name] }

def finish (s : State) (i k : ℕ) (ending : Ending) (now : ℚ) (running : List Prepared)
    (p : Prepared) : State :=
  let batches := put s.batches i (some (.executing (running.eraseIdx k)))
  match p.breaker,outcomeOf p.call ending with
  | some name,some outcome =>
    { s with
      breakers := assign s.breakers (key name) ((s.breaker name).record cfg now outcome none)
      batches := batches
      recorded := s.recorded++[name] }
  | _,_ => { s with batches := batches }

def step (s : State) : Action → Option State
  | .batch calls => some { s with batches := s.batches++[.preparing calls []] }
  | .prepare i env now =>
    match s.batches[i]? with
    | some (.preparing (c::todo) prepared) => some (prepare host seconds cfg s i env now c todo prepared)
    | _ => none
  | .gather i =>
    match s.batches[i]? with
    | some (.preparing [] prepared) =>
      some { s with batches := put s.batches i (some (.executing prepared)) }
    | _ => none
  | .finish i k ending now =>
    match s.batches[i]? with
    | some (.executing running) => running[k]?.map (finish cfg s i k ending now running)
    | _ => none
  | .abandon i =>
    match s.batches[i]? with
    | some (.preparing _ _) => some { s with batches := put s.batches i none }
    | _ => none

/-- A breaker whose open period is over, if it is open, and that waits for no outcome
admits the next check. -/
def Progresses (s : State) : Prop :=
  ∀ name now, s.running name = 0 →
    ((s.breaker name).state = .open → cfg.openDuration ≤ now-(s.breaker name).openedAt) →
    ((s.breaker name).check cfg now).1 = none

/-- Each admitted call has recorded one outcome, or is still running. -/
def Matched (s : State) : Prop :=
  ∀ name, s.admitted.count name = s.recorded.count name+s.running name

/-- The admitted calls that end with a step and leave no outcome. -/
def lost (s : State) : Action → List PyStr
  | .prepare i env _ =>
    match s.batches[i]? with
    | some (.preparing (c::todo) prepared) =>
      if (beforeBreaker host env c).isNone then (Batch.preparing todo prepared).held else []
    | _ => []
  | .finish i k ending _ =>
    match s.batches[i]? with
    | some (.executing running) =>
      (running[k]?.filter fun p => (outcomeOf p.call ending).isNone).bind Prepared.breaker |>.toList
    | _ => []
  | .abandon i => s.batches[i]?.elim [] Batch.held
  | _ => []

/-- No admitted call ends without an outcome. -/
def Keeps (s : State) (a : Action) : Prop := lost host s a = []

end Step

/-- The effect of a step on a tool, with the number of its calls that are lost. -/
inductive Effect (cfg : BreakerConfig) (s t : State) (name : PyStr) (n : ℕ) : Prop
  | kept (hbreaker : t.breaker name = s.breaker name)
      (hadmitted : t.admitted.count name = s.admitted.count name)
      (hrecorded : t.recorded.count name = s.recorded.count name)
      (hrunning : t.running name+n = s.running name)
  | vetoed (now retryAfter : ℚ) (hn : n = 0)
      (hcheck : (s.breaker name).check cfg now = (some retryAfter,t.breaker name))
      (hadmitted : t.admitted.count name = s.admitted.count name)
      (hrecorded : t.recorded.count name = s.recorded.count name)
      (hrunning : t.running name = s.running name)
  | admitted (now : ℚ) (hn : n = 0) (hcheck : (s.breaker name).check cfg now = (none,t.breaker name))
      (hadmitted : t.admitted.count name = s.admitted.count name+1)
      (hrecorded : t.recorded.count name = s.recorded.count name)
      (hrunning : t.running name = s.running name+1)
  | recorded (now : ℚ) (outcome : Outcome) (hn : n = 0)
      (hrecord : t.breaker name = (s.breaker name).record cfg now outcome none)
      (hadmitted : t.admitted.count name = s.admitted.count name)
      (hrecorded : t.recorded.count name = s.recorded.count name+1)
      (hrunning : t.running name+1 = s.running name)

section Proofs

variable {host : Host} {seconds : ℚ → PyStr} {cfg : BreakerConfig} {s t : State} {name : PyStr}
  {i : ℕ} {p : Prepared} {running : List Prepared} {a : Action}

theorem key_inj {name' : PyStr} : key name = key name' ↔ name = name' :=
  ⟨fun h => List.append_cancel_left h,fun h => h ▸ rfl⟩

theorem breaker_assign (s : State) (name : PyStr) (b : CircuitBreaker) (batches : List Batch)
    (admitted recorded : List PyStr) (name' : PyStr) :
    State.breaker ⟨assign s.breakers (key name) b,batches,admitted,recorded⟩ name' =
      if name = name' then b else s.breaker name' := by
  rw [State.breaker,lookup_assign]
  simp only [key_inj]
  split <;> rfl

theorem running_put {old : Batch} (hi : s.batches[i]? = some old) (new : Option Batch)
    (breakers : List (PyStr × CircuitBreaker)) (admitted recorded : List PyStr) (name : PyStr) :
    State.running ⟨breakers,put s.batches i new,admitted,recorded⟩ name+old.held.count name =
      s.running name+(new.elim [] Batch.held).count name :=
  count_put Batch.held hi name

theorem held_preparing (todo : List ToolCall) (prepared : List Prepared) (p : Prepared) (name : PyStr) :
    (Batch.held (.preparing todo (prepared++[p]))).count name =
      (prepared.filterMap Prepared.breaker).count name+p.breaker.toList.count name := by
  rw [Batch.held,List.filterMap_append,List.count_append]
  cases hp : p.breaker <;> simp [hp]

theorem held_eraseIdx {k : ℕ} (hk : running[k]? = some p)
    (name : PyStr) : ((running.eraseIdx k).filterMap Prepared.breaker).count name+
      p.breaker.toList.count name = (running.filterMap Prepared.breaker).count name := by
  obtain ⟨hlt,rfl⟩ := List.getElem?_eq_some_iff.mp hk
  have hperm := (List.getElem_cons_eraseIdx_perm hlt).filterMap Prepared.breaker
  rw [← hperm.count_eq name,List.filterMap_cons]
  cases hp : running[k].breaker with
  | none => simp
  | some name' => simp [List.count_cons]

theorem count_singleton_of_ne {name' : PyStr} (h : name ≠ name') : [name].count name' = 0 :=
  List.count_eq_zero.mpr fun hmem => h (List.mem_singleton.mp hmem).symm

theorem prepare_effect {c : ToolCall} {todo : List ToolCall} {prepared : List Prepared}
    (hi : s.batches[i]? = some (.preparing (c::todo) prepared)) (env : CallEnv) (now : ℚ) (name : PyStr) :
    Effect cfg s (prepare host seconds cfg s i env now c todo prepared) name
      ((lost host s (.prepare i env now)).count name) := by
  have hold : (Batch.preparing (c::todo) prepared).held = prepared.filterMap Prepared.breaker := rfl
  rw [prepare,lost,hi]
  dsimp only
  split
  · next hraises =>
    rw [hraises,Option.isNone_none,if_pos rfl]
    have hrun := running_put hi none s.breakers s.admitted s.recorded name
    exact .kept rfl rfl rfl hrun
  · next p hp =>
    rw [hp,Option.isNone_some,if_neg Bool.false_ne_true]
    split
    · have hrun := running_put hi (some (.preparing todo (prepared++[⟨p,none⟩]))) s.breakers s.admitted
        s.recorded name
      rw [hold,Option.elim_some,held_preparing] at hrun
      exact .kept rfl rfl rfl (by simpa using hrun)
    · split
      · next retryAfter b hcheck =>
        have hrun := running_put hi (some (.preparing todo (prepared++[
          ⟨{ p with shortCircuit := some (circuitOpenResult c.name (seconds retryAfter)) },none⟩])))
          (assign s.breakers (key c.name) b) s.admitted s.recorded name
        rw [hold,Option.elim_some,held_preparing] at hrun
        simp only [Option.toList_none,List.count_nil,Nat.add_zero] at hrun
        have hrun' := Nat.add_right_cancel hrun
        by_cases hname : c.name = name
        · subst hname
          refine .vetoed now retryAfter rfl ?_ rfl rfl hrun'
          rw [breaker_assign,if_pos rfl,hcheck]
        · exact .kept (by rw [breaker_assign,if_neg hname]) rfl rfl hrun'
      · next b hcheck =>
        have hrun := running_put hi (some (.preparing todo (prepared++[⟨p,some c.name⟩])))
          (assign s.breakers (key c.name) b) (s.admitted++[c.name]) s.recorded name
        rw [hold,Option.elim_some,held_preparing,Option.toList_some] at hrun
        by_cases hname : c.name = name
        · subst hname
          rw [List.count_singleton_self] at hrun
          refine .admitted now rfl ?_ (by simp) rfl (by omega)
          rw [breaker_assign,if_pos rfl,hcheck]
        · rw [count_singleton_of_ne hname] at hrun
          refine .kept (by rw [breaker_assign,if_neg hname]) ?_ rfl (by simp; omega)
          rw [List.count_append,count_singleton_of_ne hname]
          rfl

theorem lost_finish {k : ℕ}
    (hi : s.batches[i]? = some (.executing running)) (hk : running[k]? = some p) (ending : Ending)
    (now : ℚ) : lost host s (.finish i k ending now) =
      if (outcomeOf p.call ending).isNone then p.breaker.toList else [] := by
  rw [lost,hi]
  dsimp only
  rw [hk,Option.filter_some]
  split <;> rfl

theorem finish_effect {k : ℕ}
    (hi : s.batches[i]? = some (.executing running)) (hk : running[k]? = some p) (ending : Ending)
    (now : ℚ) (name : PyStr) : Effect cfg s (finish cfg s i k ending now running p) name
      ((lost host s (.finish i k ending now)).count name) := by
  have hrun := running_put hi (some (.executing (running.eraseIdx k))) s.breakers s.admitted s.recorded
    name
  have herase := held_eraseIdx hk name
  change _+(running.filterMap Prepared.breaker).count name =
    s.running name+((running.eraseIdx k).filterMap Prepared.breaker).count name at hrun
  rw [finish,lost_finish hi hk]
  cases hb : p.breaker with
  | none =>
    rw [hb,Option.toList_none,List.count_nil] at herase
    rw [Option.toList_none,ite_self]
    exact .kept rfl rfl rfl (by simp; omega)
  | some tool =>
    rw [hb,Option.toList_some] at herase
    cases ho : outcomeOf p.call ending with
    | none =>
      rw [Option.isNone_none,if_pos rfl,Option.toList_some]
      dsimp only
      exact .kept rfl rfl rfl (by omega)
    | some outcome =>
      rw [Option.isNone_some,if_neg Bool.false_ne_true]
      dsimp only
      have hrun' : State.running ⟨assign s.breakers (key tool) ((s.breaker tool).record cfg now outcome none),
          put s.batches i (some (.executing (running.eraseIdx k))),s.admitted,s.recorded++[tool]⟩ name+
          (running.filterMap Prepared.breaker).count name =
          s.running name+((running.eraseIdx k).filterMap Prepared.breaker).count name := hrun
      by_cases hname : tool = name
      · subst hname
        rw [List.count_singleton_self] at herase
        refine .recorded now outcome rfl ?_ rfl (by simp) (by omega)
        exact (breaker_assign _ _ _ _ _ _ _).trans (if_pos rfl)
      · rw [count_singleton_of_ne hname] at herase
        refine .kept ?_ rfl ?_ (by simp; omega)
        · exact (breaker_assign _ _ _ _ _ _ _).trans (if_neg hname)
        · rw [List.count_append,count_singleton_of_ne hname]
          rfl

theorem step_effect (h : step host seconds cfg s a = some t) (name : PyStr) :
    Effect cfg s t name ((lost host s a).count name) := by
  cases a with
  | batch calls =>
    cases h
    refine .kept rfl rfl rfl ?_
    simp [State.running,Batch.held,lost]
  | prepare i env now =>
    rw [step] at h
    split at h
    · next c todo prepared hi =>
      cases h
      exact prepare_effect hi env now name
    · cases h
  | gather i =>
    rw [step] at h
    split at h
    · next prepared hi =>
      cases h
      exact .kept rfl rfl rfl (running_put hi (some (.executing prepared)) s.breakers s.admitted s.recorded
        name |> Nat.add_right_cancel)
    · cases h
  | finish i k ending now =>
    rw [step] at h
    split at h
    · next running hi =>
      obtain ⟨p,hk,rfl⟩ := Option.map_eq_some_iff.mp h
      exact finish_effect hi hk ending now name
    · cases h
  | abandon i =>
    rw [step] at h
    split at h
    · next todo prepared hi =>
      cases h
      rw [lost,hi]
      exact .kept rfl rfl rfl (running_put hi none s.breakers s.admitted s.recorded name)
    · cases h

/-- The quota of a half-open breaker is covered by calls that are still running. -/
def Covered (cfg : BreakerConfig) (s : State) : Prop :=
  ∀ name, (s.breaker name).state = .halfOpen →
    cfg.enabled = true ∧ (s.breaker name).halfOpenInflight ≤ s.running name

theorem record_not_halfOpen (now : ℚ) (b : CircuitBreaker) (outcome : Outcome) (status : Option ℤ)
    (h : b.state = .halfOpen → cfg.enabled = true) :
    (b.record cfg now outcome status).state ≠ .halfOpen := by
  rw [CircuitBreaker.record]
  split
  · next hdisabled =>
    intro hstate
    rw [h hstate] at hdisabled
    cases hdisabled
  · dsimp only
    split
    · split <;> nofun
    · next hclosed =>
      split
      · nofun
      · rw [hclosed]
        nofun
    · next hopen =>
      rw [hopen]
      nofun

theorem check_inflight {now : ℚ} {b b' : CircuitBreaker} {verdict : Option ℚ} {n : ℕ}
    (h : b.check cfg now = (verdict,b'))
    (hb : b.state = .halfOpen → cfg.enabled = true ∧ b.halfOpenInflight ≤ n)
    (hstate : b'.state = .halfOpen) :
    cfg.enabled = true ∧ b'.halfOpenInflight ≤ if verdict.isNone then n+1 else n := by
  have hprobe : ∀ b : CircuitBreaker, b.halfOpenInflight ≤ n → b.probe cfg = (verdict,b') →
      b'.halfOpenInflight ≤ ((if verdict.isNone then n+1 else n : ℕ) : ℤ) := by
    intro b hle hgate
    rw [CircuitBreaker.probe] at hgate
    split at hgate
    · cases hgate
      exact hle
    · cases hgate
      exact Int.add_le_add_right hle 1
  rw [CircuitBreaker.check] at h
  split at h
  · next hdisabled =>
    cases h
    rw [(hb hstate).1] at hdisabled
    cases hdisabled
  next henabled =>
  rw [Bool.not_eq_true,Bool.not_eq_false'] at henabled
  refine ⟨henabled,?_⟩
  split at h
  · next hclosed =>
    cases h
    rw [hclosed] at hstate
    cases hstate
  · next hhalf => exact hprobe _ (hb hhalf).2 h
  · next hopen =>
    split at h
    · exact hprobe _ (Int.natCast_nonneg n) h
    · cases h
      rw [hopen] at hstate
      cases hstate

theorem check_admits {now : ℚ} {b : CircuitBreaker} (hprobes : 0 < cfg.halfOpenMaxProbes)
    (hfree : b.state = .halfOpen → b.halfOpenInflight ≤ 0)
    (helapsed : b.state = .open → cfg.openDuration ≤ now-b.openedAt) :
    (b.check cfg now).1 = none := by
  have hprobe : ∀ b : CircuitBreaker, b.halfOpenInflight ≤ 0 → (b.probe cfg).1 = none := by
    intro b hle
    rw [CircuitBreaker.probe,if_neg (by omega)]
  rw [CircuitBreaker.check]
  split
  · rfl
  split
  · rfl
  · next hhalf => exact hprobe b (hfree hhalf)
  · next hopen =>
    rw [if_pos (helapsed hopen)]
    exact hprobe _ le_rfl

theorem matched_step_iff (h : step host seconds cfg s a = some t) (hs : Matched s) :
    Matched t ↔ Keeps host s a := by
  have hname : ∀ name, t.admitted.count name = t.recorded.count name+t.running name ↔
      (lost host s a).count name = 0 := by
    intro name
    have hold := hs name
    cases step_effect h name with
    | kept _ hadmitted hrecorded hrunning => omega
    | vetoed _ _ _ _ hadmitted hrecorded hrunning => omega
    | admitted _ _ _ hadmitted hrecorded hrunning => omega
    | recorded _ _ _ _ hadmitted hrecorded hrunning => omega
  rw [Keeps,List.eq_nil_iff_forall_not_mem]
  simp only [Matched,hname,List.count_eq_zero]

theorem covered_step (h : step host seconds cfg s a = some t) (hkeeps : Keeps host s a)
    (hs : Covered cfg s) : Covered cfg t := by
  intro name hstate
  have heffect := step_effect h name
  rw [hkeeps,List.count_nil] at heffect
  cases heffect with
  | kept hbreaker _ _ hrunning =>
    rw [hbreaker] at hstate ⊢
    rw [Nat.add_zero] at hrunning
    rw [hrunning]
    exact hs name hstate
  | vetoed now retryAfter _ hcheck _ _ hrunning =>
    rw [hrunning]
    exact check_inflight hcheck (hs name) hstate
  | admitted now _ hcheck _ _ hrunning =>
    rw [hrunning]
    exact check_inflight hcheck (hs name) hstate
  | recorded now outcome _ hrecord _ _ _ =>
    rw [hrecord] at hstate
    exact absurd hstate (record_not_halfOpen now _ outcome none fun hhalf => (hs name hhalf).1)

theorem progresses_of_covered (hprobes : 0 < cfg.halfOpenMaxProbes) (hs : Covered cfg s) :
    Progresses cfg s := by
  intro name now hidle helapsed
  refine check_admits hprobes (fun hhalf => ?_) helapsed
  have hle := (hs name hhalf).2
  rwa [hidle] at hle

theorem covered_start : Covered cfg start := nofun

theorem matched_start : Matched start := fun _ => rfl

/-- In every state of a run each admitted call has recorded one outcome or still runs, and a
breaker that waits for none makes progress, exactly when no step of the run loses an
admitted call. -/
theorem matched_throughout_iff (hprobes : 0 < cfg.halfOpenMaxProbes) {as : List Action} {u : State}
    (h : Run (step host seconds cfg) always start as u) :
    Throughout (step host seconds cfg) (fun s => Progresses cfg s ∧ Matched s) start as ↔
      Run (step host seconds cfg) (Keeps host) start as u := by
  refine throughout_iff (fun s a t _ h (hs : Covered cfg s) hP hQ => ?_)
    (fun s a t _ h hs hP => ?_) h covered_start ⟨progresses_of_covered hprobes covered_start,matched_start⟩
  · exact covered_step h ((matched_step_iff h hP.2).mp hQ.2) hs
  · constructor
    · exact fun hQ => (matched_step_iff h hP.2).mp hQ.2
    · exact fun hkeeps => ⟨progresses_of_covered hprobes (covered_step h hkeeps hs),
        (matched_step_iff h hP.2).mpr hkeeps⟩

/-- The quota is used up and no call is left to return it. -/
structure Stuck (cfg : BreakerConfig) (s : State) (name : PyStr) : Prop where
  enabled : cfg.enabled = true
  state : (s.breaker name).state = .halfOpen
  used : cfg.halfOpenMaxProbes ≤ (s.breaker name).halfOpenInflight
  idle : s.running name = 0

theorem Stuck.check (h : Stuck cfg s name) (now : ℚ) :
    (s.breaker name).check cfg now = (some cfg.openDuration,s.breaker name) := by
  rw [CircuitBreaker.check,h.enabled,h.state]
  exact if_pos h.used

theorem stuck_step (h : step host seconds cfg s a = some t)
    (hs : Stuck cfg s name) : Stuck cfg t name := by
  cases step_effect h name with
  | kept hbreaker _ _ hrunning =>
    have hidle := hs.idle
    exact ⟨hs.enabled,hbreaker ▸ hs.state,hbreaker ▸ hs.used,by omega⟩
  | vetoed now retryAfter _ hcheck _ _ hrunning =>
    rw [hs.check now] at hcheck
    obtain ⟨-,hbreaker⟩ := Prod.mk.inj hcheck
    exact ⟨hs.enabled,hbreaker ▸ hs.state,hbreaker ▸ hs.used,hrunning ▸ hs.idle⟩
  | admitted now _ hcheck _ _ _ =>
    rw [hs.check now] at hcheck
    cases hcheck
  | recorded _ _ _ _ _ _ hrunning =>
    rw [hs.idle] at hrunning
    cases hrunning

/-- The tool of a stuck breaker stays disabled whatever happens and however long it takes. -/
theorem stuck_run {as : List Action} (h : Run (step host seconds cfg) always s as t)
    (hs : Stuck cfg s name) (now : ℚ) : ((t.breaker name).check cfg now).1 = some cfg.openDuration := by
  have hstuck := h.invariant (fun s _ t _ hst (hs : Stuck cfg s name) => stuck_step hst hs) hs
  rw [hstuck.check now]

end Proofs

def flaky : ToolCall := ⟨lit "toolu_1",.str (lit "function"),lit "flaky",[]⟩

/-- A batch of one call, which is executed as far as it gets. -/
def attempt (i : ℕ) (now : ℚ) (ending : Ending) : List Action :=
  [.batch [flaky],.prepare i plainEnv now,.gather i,.finish i 0 ending now]

def tripping : List Action := attempt 0 0 .fails++attempt 1 0 .fails++attempt 2 0 .fails

/-- The third failure opens the breaker, which vetoes a call at once and admits one after a
minute. -/
def recovering : List Action :=
  tripping++[.batch [flaky],.prepare 3 plainEnv 0,.gather 3]++attempt 4 60 .returns

/-- How long the veto at once tells to wait. -/
def sixty : ℚ → PyStr := fun _ => lit "60"

theorem matched_recovering :
    Throughout (step plainHost sixty .client) (fun s => Progresses .client s ∧ Matched s) start
        recovering ↔
      Run (step plainHost sixty .client) (Keeps plainHost) start recovering
        (last (step plainHost sixty .client) start recovering) :=
  matched_throughout_iff (by decide) (run_last (by decide +kernel))

/-- The probe is cancelled while the tool runs. -/
def probeCancelled : List Action := tripping++attempt 3 60 .escapes

theorem stuck_probeCancelled :
    Stuck .client (last (step plainHost sixty .client) start probeCancelled) (lit "flaky") :=
  ⟨rfl,by decide +kernel,by decide +kernel,by decide +kernel⟩

/-- The next call is vetoed, an hour later, and the call after that will be. -/
theorem disabled_probeCancelled : (((last (step plainHost sixty .client)
    (last (step plainHost sixty .client) start probeCancelled)
    [.batch [flaky],.prepare 4 plainEnv 3600,.gather 4]).breaker (lit "flaky")).check .client 7200).1 =
      some BreakerConfig.client.openDuration :=
  stuck_run (run_last (by decide +kernel)) stuck_probeCancelled 7200

theorem probeCancelled_not_matched : ¬∀ as s, Run (step plainHost sixty .client) always start as s →
    Progresses .client s ∧ Matched s := by
  intro h
  have hprogress := (h probeCancelled _ (run_last (by decide +kernel))).1
  have hstate := stuck_probeCancelled.state
  have hadmits := hprogress (lit "flaky") 0 stuck_probeCancelled.idle fun hopen => by
    rw [hstate] at hopen
    cases hopen
  rw [stuck_probeCancelled.check 0] at hadmits
  cases hadmits

end MinimaxCode.ToolBreaker
