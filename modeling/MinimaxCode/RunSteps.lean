import MinimaxCode.PyJson
import MinimaxCode.Pool
import MinimaxCode.Runs
import Mathlib.Order.Basic

/-!
# Steps of a run

`create_step` reads the next ordinal of its run and inserts its row in a later transaction.
Each statement holds the lock of the connection until its caller goes on, so what one call
does between two waits is one step; calls in flight take their steps in any order.
-/

namespace MinimaxCode.RunSteps

open PyText PyJson Pool Runs

def validStepKind : List PyStr :=
  [lit "thought",lit "status",lit "plan",lit "tool_call",lit "observation",lit "approval",
    lit "patch",lit "final"]

def validStepStatus : List PyStr :=
  [lit "pending",lit "running",lit "completed",lit "failed",lit "cancelled"]

structure StepRequest where
  runId : PyStr
  sessionId : PyStr
  kind : PyStr
  id : Option PyStr
  status : PyStr
  title : PyStr
  summary : PyStr
  toolCallId : Option PyStr
  toolName : Option PyStr
  parentId : Option PyStr
  payload : Option Json
  ordinal : Option ℤ

/-- A row of `agent_run_steps`; its payload is kept as a value. -/
structure StepRow where
  id : PyStr
  request : StepRequest
  startedAt : PyStr
  ordinal : ℤ

/-- What a call waits for. One that has its ordinal also carries how many rows its run had
when the ordinal was read. -/
inductive Stage
  | reading
  | inserting (ordinal : ℤ) (seen : ℕ)
  | fetching

structure Call where
  request : StepRequest
  stepId : PyStr
  stage : Stage

structure State where
  rows : List StepRow
  calls : List Call

def start : State := ⟨[],[]⟩

/-- The rows of a run in the order of their insertion. -/
def rowsOf (rows : List StepRow) (runId : PyStr) : List StepRow :=
  rows.filter fun r => r.request.runId = runId

def ordinals (rows : List StepRow) (runId : PyStr) : List ℤ := (rowsOf rows runId).map StepRow.ordinal

/-- `COALESCE(MAX(ordinal), 0) + 1`. -/
def nextOrdinal (rows : List StepRow) (runId : PyStr) : ℤ := (ordinals rows runId).max?.getD 0+1

/-- `id or f"step_{hex}"`. -/
def stepId (r : StepRequest) (hex : PyStr) : PyStr :=
  match r.id with
  | some id => if id.isEmpty then lit "step_"++hex else id
  | none => lit "step_"++hex

/-- The call up to its first wait; `none` is a `ValueError`. -/
def createStep (r : StepRequest) (hex : PyStr) : Option Call :=
  if r.kind ∈ validStepKind ∧ r.status ∈ validStepStatus then
    some ⟨r,stepId r hex,match r.ordinal with | none => .reading | some n => .inserting n 0⟩
  else none

/-- The transaction is rolled back on an id that is taken and where a key refers to nothing. -/
def accepts (rows : List StepRow) (c : Call) (referenced : Bool) : Bool :=
  referenced && c.stepId ∉ rows.map StepRow.id

inductive Action
  | call (r : StepRequest) (hex : PyStr)
  | resume (i : ℕ) (now : PyStr) (referenced : Bool)
  | abandon (i : ℕ)

/-- A call that ends gives its row, or an exception, to its caller. -/
def resume (s : State) (i : ℕ) (now : PyStr) (referenced : Bool) (c : Call) : State :=
  match c.stage with
  | .reading =>
    { s with calls := put s.calls i (some { c with
        stage := .inserting (nextOrdinal s.rows c.request.runId)
          (rowsOf s.rows c.request.runId).length }) }
  | .inserting n _ =>
    if accepts s.rows c referenced then
      ⟨s.rows++[⟨c.stepId,c.request,now,n⟩],put s.calls i (some { c with stage := .fetching })⟩
    else { s with calls := put s.calls i none }
  | .fetching => { s with calls := put s.calls i none }

def step (s : State) : Action → Option State
  | .call r hex => some { s with calls := s.calls++(createStep r hex).toList }
  | .resume i now referenced => s.calls[i]?.map (resume s i now referenced)
  | .abandon i => s.calls[i]?.map fun _ => { s with calls := put s.calls i none }

/-- The ordinals of each run's rows are distinct and increase in the order of insertion. -/
def Increasing (s : State) : Prop := ∀ runId, (ordinals s.rows runId).Pairwise (· < ·)

/-- The caller leaves the ordinal to the method, as every caller does. -/
def Automatic : Action → Prop
  | .call r _ => r.ordinal = none
  | _ => True

/-- No row of its run was inserted since a call that now inserts its own read the ordinal. -/
def Alone (s : State) : Action → Prop
  | .resume i _ referenced => ∀ c n seen, s.calls[i]? = some c → c.stage = .inserting n seen →
      accepts s.rows c referenced → seen = (rowsOf s.rows c.request.runId).length
  | _ => True

/-- An ordinal that was read is the next one still, or some row has overtaken it. -/
structure Read (rows : List StepRow) (runId : PyStr) (n : ℤ) (seen : ℕ) : Prop where
  le : seen ≤ (rowsOf rows runId).length
  next : seen = (rowsOf rows runId).length → n = nextOrdinal rows runId
  overtaken : seen < (rowsOf rows runId).length → ∃ m ∈ ordinals rows runId, n ≤ m

def Reads (s : State) : Prop :=
  ∀ c ∈ s.calls, ∀ n seen, c.stage = .inserting n seen → Read s.rows c.request.runId n seen

theorem lt_nextOrdinal {rows : List StepRow} {runId : PyStr} {m : ℤ}
    (h : m ∈ ordinals rows runId) : m < nextOrdinal rows runId := by
  obtain ⟨top,htop⟩ := Option.isSome_iff_exists.mp (List.isSome_max?_of_mem h)
  have hle := (List.max?_eq_some_iff.mp htop).2 m h
  rw [nextOrdinal,htop,Option.getD_some]
  omega

theorem rowsOf_append (rows : List StepRow) (row : StepRow) (runId : PyStr) :
    rowsOf (rows++[row]) runId =
      rowsOf rows runId++if row.request.runId = runId then [row] else [] := by
  rw [rowsOf,List.filter_append]
  split
  · next h => simp [rowsOf,h]
  · next h => simp [rowsOf,h]

theorem ordinals_append (rows : List StepRow) (row : StepRow) (runId : PyStr) :
    ordinals (rows++[row]) runId =
      ordinals rows runId++if row.request.runId = runId then [row.ordinal] else [] := by
  rw [ordinals,rowsOf_append,List.map_append]
  split <;> rfl

theorem increasing_insert {s : State} {row : StepRow} {calls : List Call} (h : Increasing s) :
    Increasing ⟨s.rows++[row],calls⟩ ↔
      ∀ m ∈ ordinals s.rows row.request.runId, m < row.ordinal := by
  constructor
  · intro hrow m hm
    have hpair := hrow row.request.runId
    rw [ordinals_append,if_pos rfl,List.pairwise_append] at hpair
    exact hpair.2.2 m hm row.ordinal (List.mem_singleton_self _)
  · intro hlt runId
    rw [ordinals_append]
    split
    · next heq =>
      subst heq
      refine List.pairwise_append.mpr ⟨h _,List.pairwise_singleton _ _,fun m hm n hn => ?_⟩
      rw [List.mem_singleton.mp hn]
      exact hlt m hm
    · simpa using h runId

theorem read_now (rows : List StepRow) (runId : PyStr) :
    Read rows runId (nextOrdinal rows runId) (rowsOf rows runId).length :=
  ⟨le_rfl,fun _ => rfl,fun h => absurd h (lt_irrefl _)⟩

theorem read_insert {rows : List StepRow} {row : StepRow} {runId : PyStr} {n : ℤ} {seen : ℕ}
    (h : Read rows runId n seen) (hrow : row.ordinal = nextOrdinal rows row.request.runId) :
    Read (rows++[row]) runId n seen := by
  by_cases heq : row.request.runId = runId
  · have hlength : (rowsOf (rows++[row]) runId).length = (rowsOf rows runId).length+1 := by
      simp [rowsOf_append,heq]
    have hle := h.le
    refine ⟨by omega,fun hseen => by omega,fun _ => ?_⟩
    rw [ordinals_append,if_pos heq]
    rcases hle.eq_or_lt with hseen | hseen
    · refine ⟨row.ordinal,by simp,?_⟩
      rw [hrow,heq,h.next hseen]
    · obtain ⟨m,hm,hnm⟩ := h.overtaken hseen
      exact ⟨m,List.mem_append_left _ hm,hnm⟩
  · have hrows : rowsOf (rows++[row]) runId = rowsOf rows runId := by simp [rowsOf_append,heq]
    have hordinals : ordinals (rows++[row]) runId = ordinals rows runId := by rw [ordinals,hrows]; rfl
    have hnext : nextOrdinal (rows++[row]) runId = nextOrdinal rows runId := by
      rw [nextOrdinal,hordinals]; rfl
    exact ⟨hrows ▸ h.le,hrows ▸ hnext ▸ h.next,hrows ▸ hordinals ▸ h.overtaken⟩

theorem increasing_read {s : State} {row : StepRow} {calls : List Call} {seen : ℕ}
    (h : Increasing s) (hread : Read s.rows row.request.runId row.ordinal seen) :
    Increasing ⟨s.rows++[row],calls⟩ ↔ seen = (rowsOf s.rows row.request.runId).length := by
  rw [increasing_insert h]
  constructor
  · intro hlt
    rcases hread.le.eq_or_lt with heq | hseen
    · exact heq
    · obtain ⟨m,hm,hnm⟩ := hread.overtaken hseen
      exact absurd (hlt m hm) (not_lt.mpr hnm)
  · intro hseen m hm
    rw [hread.next hseen]
    exact lt_nextOrdinal hm

theorem alone_step {s t : State} {a : Action} (h : step s a = some t)
    (hreads : Reads s) (hs : Increasing s) : Increasing t ↔ Alone s a := by
  cases a with
  | call r hex =>
    cases h
    exact iff_of_true hs trivial
  | abandon i =>
    obtain ⟨c,-,rfl⟩ := Option.map_eq_some_iff.mp h
    exact iff_of_true hs trivial
  | resume i now referenced =>
    obtain ⟨c,hi,rfl⟩ := Option.map_eq_some_iff.mp h
    have hc := List.mem_of_getElem? hi
    fun_cases resume s i now referenced c with
    | case1 hstage =>
      refine iff_of_true hs fun c' n seen hi' hstage' _ => ?_
      rw [hi] at hi'
      cases hi'
      rw [hstage] at hstage'
      cases hstage'
    | case2 n seen hstage haccepts =>
      rw [increasing_read hs (hreads c hc n seen hstage)]
      constructor
      · intro hseen c' n' seen' hi' hstage' _
        rw [hi] at hi'
        cases hi'
        rw [hstage] at hstage'
        cases hstage'
        exact hseen
      · intro halone
        exact halone c n seen hi hstage haccepts
    | case3 n seen hstage hrejects =>
      refine iff_of_true hs fun c' _ _ hi' _ haccepts => ?_
      rw [hi] at hi'
      cases hi'
      exact absurd haccepts hrejects
    | case4 hstage =>
      refine iff_of_true hs fun c' n seen hi' hstage' _ => ?_
      rw [hi] at hi'
      cases hi'
      rw [hstage] at hstage'
      cases hstage'

theorem reads_step {s t : State} {a : Action} (hauto : Automatic a) (h : step s a = some t)
    (hreads : Reads s) (hs : Increasing s) (ht : Increasing t) : Reads t := by
  have halone := (alone_step h hreads hs).mp ht
  cases a with
  | call r hex =>
    cases h
    intro c hc n seen hstage
    rcases mem_push hc with hnew | hold
    · rw [createStep] at hnew
      split at hnew
      · cases hnew
        have hordinal : r.ordinal = none := hauto
        simp [hordinal] at hstage
      · cases hnew
    · exact hreads c hold n seen hstage
  | abandon i =>
    obtain ⟨c,-,rfl⟩ := Option.map_eq_some_iff.mp h
    exact fun c' (hc' : c' ∈ put s.calls i none) => hreads c' (mem_put_none hc')
  | resume i now referenced =>
    obtain ⟨c,hi,rfl⟩ := Option.map_eq_some_iff.mp h
    have hc := List.mem_of_getElem? hi
    revert halone
    fun_cases resume s i now referenced c with
    | case1 hstage =>
      intro _ c' hc' n seen hstage'
      rcases mem_put_some hc' with rfl | hold
      · cases hstage'
        exact read_now _ _
      · exact hreads c' hold n seen hstage'
    | case2 n seen hstage haccepts =>
      intro halone c' hc' n' seen' hstage'
      have hseen := halone c n seen hi hstage haccepts
      have hnext : n = nextOrdinal s.rows c.request.runId := (hreads c hc n seen hstage).next hseen
      rcases mem_put_some hc' with rfl | hold
      · cases hstage'
      · exact read_insert (hreads c' hold n' seen' hstage') hnext
    | case3 n seen hstage hrejects =>
      exact fun _ c' (hc' : c' ∈ put s.calls i none) => hreads c' (mem_put_none hc')
    | case4 hstage => exact fun _ c' (hc' : c' ∈ put s.calls i none) => hreads c' (mem_put_none hc')

theorem reads_start : Reads start := by
  intro c hc
  cases hc

theorem increasing_start : Increasing start := fun _ => List.Pairwise.nil

/-- The ordinals of every run are increasing throughout exactly when each call that inserts
a row is alone in its run between its read and its insert. -/
theorem increasing_throughout_iff {as : List Action} {u : State}
    (h : Run step (fun _ => Automatic) start as u) :
    Throughout step Increasing start as ↔ Run step Alone start as u :=
  throughout_iff (fun _ _ _ hauto h hreads hs ht => reads_step hauto h hreads hs ht)
    (fun _ _ _ _ h hreads hs => alone_step h hreads hs) h reads_start increasing_start

def toolStep (name : PyStr) : StepRequest :=
  ⟨lit "run_1",lit "s",lit "tool_call",none,lit "running",name,[],none,some name,none,none,none⟩

/-- One call opens its step after another. -/
def oneByOne : List Action :=
  [.call (toolStep (lit "read_file")) (lit "a"),.resume 0 [] true,.resume 0 [] true,.resume 0 [] true,
    .call (toolStep (lit "find_files")) (lit "b"),.resume 0 [] true,.resume 0 [] true]

theorem increasing_oneByOne : Throughout step Increasing start oneByOne ↔
    Run step Alone start oneByOne (last step start oneByOne) :=
  increasing_throughout_iff (Run.of_forall (run_last rfl) (by simp [oneByOne,Automatic,toolStep]))

/-- Two calls of one run both read before either inserts. -/
def twoReads : List Action :=
  [.call (toolStep (lit "read_file")) (lit "a"),.call (toolStep (lit "find_files")) (lit "b"),
    .resume 0 [] true,.resume 1 [] true,.resume 0 [] true,.resume 1 [] true]

theorem twoReads_not_increasing : ¬ Throughout step Increasing start twoReads := by
  intro h
  have hpair := h twoReads _ (List.prefix_refl _) (run_last rfl) (lit "run_1")
  have hordinals : ordinals (last step start twoReads).rows (lit "run_1") = [1,1] := by decide +kernel
  rw [hordinals] at hpair
  simp at hpair

end MinimaxCode.RunSteps
