import MinimaxCode.AgentHistory
import MinimaxCode.EventPairing

/-!
# The tool events of a run

The preparation of a tool call announces it with a `tool_call` event; a rejection is
reported with a `tool_result` event at once, a dispatch when it returns. The dispatches of
a batch overlap, so their events come in any order behind those of the preparations.
-/

namespace MinimaxCode.Agent

open PyText PyJson Runs OptionMaps EventPairing

/-- `on_tool_call` and `on_tool_result`. The arguments are missing when they do not parse. -/
inductive Event
  | toolCall (call : ToolCall) (args : Option Json)
  | toolResult (call : ToolCall) (result : CallOutcome)

@[simp] def Event.opened : Event → Option PyStr
  | .toolCall c _ => some c.id
  | .toolResult _ _ => none

@[simp] def Event.closed : Event → Option PyStr
  | .toolCall _ _ => none
  | .toolResult c _ => some c.id

section Events

variable (host : Host)

/-- `_prepare_tool_call` with its events. -/
def prepareEvents (env : CallEnv) (c : ToolCall) : List Event × Option PreparedToolCall :=
  match parseArgs host c.arguments with
  | .raises => ([],none)
  | .malformed m => ([.toolCall c none],some ⟨c.name,.obj [],some (malformedResult c.name m)⟩)
  | .args args =>
    let called : Event := .toolCall c (some args)
    if env.rule = some (lit "deny") then
      let denied := deniedResult c.name args
      ([called,.toolResult c (.rejected denied)],some ⟨c.name,args,some denied⟩)
    else if asks host env && !dictAccepts args then ([called],none)
    else if asks host env && !env.consents then
      let denied := userDeniedResult c.name args
      ([called,.toolResult c (.rejected denied)],some ⟨c.name,args,some denied⟩)
    else
      let emitted := if asks host env then [called] else []
      match env.hookBlock with
      | some reason =>
        -- emitted again although the consent path has emitted it
        let blocked := hookBlockedResult c.name reason args
        (emitted++[called,.toolResult c (.rejected blocked)],some ⟨c.name,args,some blocked⟩)
      | none =>
        let emitted := if asks host env then emitted else emitted++[called]
        match env.circuitOpen with
        | some retryAfter =>
          let blocked := circuitOpenResult c.name retryAfter
          (emitted++[.toolResult c (.rejected blocked)],some ⟨c.name,args,some blocked⟩)
        | none => (emitted,some ⟨c.name,args,none⟩)

/-- `_execute_tool_call` with its event. -/
def executeEvents (env : CallEnv) (c : ToolCall) (p : PreparedToolCall) :
    List Event × Option CallOutcome :=
  match p.shortCircuit with
  | some r => ([],some (.rejected r))
  | none =>
    if p.name ∈ writeTools ∧ isDict p.args = false then ([],none)
    else match env.dispatch with
      | .returns content => ([.toolResult c (.dispatched content)],some (.dispatched content))
      | .escapes => ([],none)

/-- The preparation of a call whose turn has come; a cancellation is silent. -/
def prepareInTurnEvents (e : CallEnv × ToolCall) : List Event × Option PreparedToolCall :=
  if e.1.cancelled then ([],some (cancelPrepared e.2)) else prepareEvents host e.1 e.2

abbrev Batch := List (CallEnv × ToolCall)

/-- The preparations of a batch, up to the first that raises. -/
def prepareBatch : Batch → List Event × Option (List ((CallEnv × ToolCall) × PreparedToolCall))
  | [] => ([],some [])
  | e::rest =>
    match prepareInTurnEvents host e with
    | (es,none) => (es,none)
    | (es,some p) => (es++(prepareBatch rest).1,(prepareBatch rest).2.map ((e,p)::·))

/-- The events of `_run_tool_batch`. -/
def BatchEvents (b : Batch) (es : List Event) : Prop :=
  ∃ results, es = (prepareBatch host b).1++results ∧
    match (prepareBatch host b).2 with
    | none => results = []
    | some prepared =>
      results.Perm (prepared.flatMap fun ep => (executeEvents ep.1.1 ep.1.2 ep.2).1)

/-- The calls that an iteration runs. -/
def batchOf (s : State) : Action → Batch
  | .iterate input =>
    match s.iteration with
    | none => []
    | some i =>
      if i < host.maxIterations ∧ input.cancelledBefore = false then
        match input.stream.bind (assembleChunks host.intOfStr) with
        | none => []
        | some r => (extractToolCalls input.uuids r.message).mapIdx fun i c => (input.calls i,c)
      else []
  | _ => []

/-- The events of a run from one state to another. -/
inductive Emits : State → List Action → List Event → State → Prop
  | refl (s) : Emits s [] [] s
  | succ {s t u a as es es'} : step host s a = some t → BatchEvents host (batchOf host s a) es →
      Emits t as es' u → Emits s (a::as) (es++es') u

/-- The batches of a run. -/
def batches (s : State) : List Action → List Batch
  | [] => []
  | a::as =>
    batchOf host s a::
      match step host s a with
      | none => []
      | some t => batches t as

/-- The ways a tool call can end. -/
inductive Ending
  | cancelled | unparsed | malformed | denied | unasked | refused | blocked | blockedAfterConsent
  | circuitOpen | escaped | returned
  deriving DecidableEq

/-- The way a call ends whose turn comes. -/
def ending (e : CallEnv × ToolCall) : Ending :=
  let (env,c) := e
  if env.cancelled then .cancelled
  else match parseArgs host c.arguments with
    | .raises => .unparsed
    | .malformed _ => .malformed
    | .args args =>
      if env.rule = some (lit "deny") then .denied
      else if asks host env && !dictAccepts args then .unasked
      else if asks host env && !env.consents then .refused
      else if env.hookBlock.isSome then
        if asks host env then .blockedAfterConsent else .blocked
      else if env.circuitOpen.isSome then .circuitOpen
      else if c.name ∈ writeTools ∧ isDict args = false then .escaped
      else match env.dispatch with
        | .returns _ => .returned
        | .escapes => .escaped

/-- The preparation raises. -/
@[simp] def Ending.raises : Ending → Bool
  | .unparsed | .unasked => true
  | _ => false

/-- The `tool_call` events of a call. -/
@[simp] def Ending.opens : Ending → ℕ
  | .cancelled | .unparsed => 0
  | .blockedAfterConsent => 2
  | _ => 1

/-- The `tool_result` events of its preparation. -/
@[simp] def Ending.rejections : Ending → ℕ
  | .denied | .refused | .blocked | .blockedAfterConsent | .circuitOpen => 1
  | _ => 0

/-- The `tool_result` events of its execution. -/
@[simp] def Ending.returns : Ending → ℕ
  | .returned => 1
  | _ => 0

/-- The calls of a batch that are prepared: those up to the first that raises. -/
def reached : Batch → Batch
  | [] => []
  | e::rest => e::if (ending host e).raises then [] else reached rest

/-- No preparation raises, so the batch is executed. -/
def completes (b : Batch) : Bool := b.all fun e => !(ending host e).raises

/-- What is announced is answered: a call that is announced is rejected, or returns in a
batch that is executed, and is announced once. -/
@[simp] def Ending.settled (completes : Bool) : Ending → Bool
  | .cancelled | .unparsed | .denied | .refused | .blocked | .circuitOpen => true
  | .returned => completes
  | .malformed | .unasked | .blockedAfterConsent | .escaped => false

/-- The identifiers of the announced calls. -/
def announced (b : Batch) : List PyStr :=
  ((reached host b).filter fun e => 0 < (ending host e).opens).map fun e => e.2.id

/-- Every call of the batches is settled, and no two announced calls share an identifier. -/
structure Settled (bs : List Batch) : Prop where
  calls : ∀ b ∈ bs, ∀ e ∈ reached host b, (ending host e).settled (completes host b)
  distinct : (bs.flatMap (announced host)).Nodup

end Events

section Proofs

variable {host : Host}

theorem prepareEvents_result (env : CallEnv) (c : ToolCall) :
    (prepareEvents host env c).2 = prepareToolCall host env c := by
  rw [prepareEvents,prepareToolCall]
  cases parseArgs host c.arguments with
  | raises => rfl
  | malformed m => rfl
  | args args =>
    dsimp only
    split_ifs <;> cases env.hookBlock <;> cases env.circuitOpen <;> rfl

theorem prepareInTurnEvents_result (e : CallEnv × ToolCall) :
    (prepareInTurnEvents host e).2 = (prepareInTurn host e).map Prod.snd := by
  rw [prepareInTurnEvents,prepareInTurn]
  split
  · rfl
  · simp [prepareEvents_result]

theorem executeEvents_result (env : CallEnv) (c : ToolCall) (p : PreparedToolCall) :
    (executeEvents env c p).2 = executeToolCall env p := by
  rw [executeEvents,executeToolCall]
  cases p.shortCircuit with
  | some r => rfl
  | none =>
    dsimp only
    split
    · rfl
    · cases env.dispatch <;> rfl

theorem prepareBatch_result (b : Batch) : b.mapM (prepareInTurn host) =
    (prepareBatch host b).2.map fun prepared => prepared.map fun ep => (ep.1.1,ep.2) := by
  induction b with
  | nil => rfl
  | cons e rest ih =>
    have hprep := @prepareInTurnEvents_result host e
    rw [List.mapM_cons,ih,prepareBatch]
    cases hturn : prepareInTurn host e with
    | none =>
      have hnone : (prepareInTurnEvents host e).2 = none := by rw [hprep,hturn]; rfl
      rcases hevents : prepareInTurnEvents host e with ⟨es,p⟩
      rw [hevents] at hnone
      subst hnone
      rfl
    | some q =>
      have henv : q.1 = e.1 := by
        obtain ⟨p,_,rfl⟩ := Option.map_eq_some_iff.mp hturn
        rfl
      have hsome : (prepareInTurnEvents host e).2 = some q.2 := by rw [hprep,hturn]; rfl
      rcases hevents : prepareInTurnEvents host e with ⟨es,p⟩
      rw [hevents] at hsome
      subst hsome
      cases (prepareBatch host rest).2 with
      | none => rfl
      | some prepared => simp [← henv]

/-- The events are those of the batch that a run executes. -/
theorem runToolBatch_events (envs : ℕ → CallEnv) (calls : List ToolCall) :
    runToolBatch host envs calls = (prepareBatch host (calls.mapIdx fun i c => (envs i,c))).2.bind
      fun prepared => prepared.mapM fun ep => (executeEvents ep.1.1 ep.1.2 ep.2).2 := by
  rw [runToolBatch,prepareBatch_result]
  cases (prepareBatch host (calls.mapIdx fun i c => (envs i,c))).2 with
  | none => rfl
  | some prepared => simp [List.mapM_map,executeEvents_result,Function.comp_def]

/-- What a call emits, by the way it ends. -/
structure CallSpec (e : CallEnv × ToolCall) (es : List Event) (p : Option PreparedToolCall)
    (en : Ending) : Prop where
  raised : p.isNone = en.raises
  opens : es.filterMap Event.opened = List.replicate en.opens e.2.id
  rejections : es.filterMap Event.closed = List.replicate en.rejections e.2.id
  preceded : Preceded Event.opened Event.closed [] es
  executes : ∀ q, p = some q → (executeEvents e.1 e.2 q).1.filterMap Event.opened = [] ∧
    (executeEvents e.1 e.2 q).1.filterMap Event.closed = List.replicate en.returns e.2.id

theorem callSpec (e : CallEnv × ToolCall) :
    CallSpec e (prepareInTurnEvents host e).1 (prepareInTurnEvents host e).2 (ending host e) := by
  obtain ⟨env,c⟩ := e
  cases hcan : env.cancelled with
  | true => constructor <;> simp [prepareInTurnEvents,ending,hcan,cancelPrepared,executeEvents]
  | false =>
    simp only [prepareInTurnEvents,ending,hcan,Bool.false_eq_true,if_false,prepareEvents]
    cases hargs : parseArgs host c.arguments with
    | raises => constructor <;> simp
    | malformed m => constructor <;> simp [executeEvents]
    | args args =>
      dsimp only
      by_cases hdeny : env.rule = some (lit "deny")
      · simp only [if_pos hdeny]
        constructor <;> simp [executeEvents,List.filterMap_cons]
      simp only [if_neg hdeny]
      by_cases hunasked : (asks host env && !dictAccepts args) = true
      · simp only [if_pos hunasked]
        constructor <;> simp
      simp only [if_neg hunasked]
      by_cases hrefused : (asks host env && !env.consents) = true
      · simp only [if_pos hrefused]
        constructor <;> simp [executeEvents,List.filterMap_cons]
      simp only [if_neg hrefused]
      cases hhook : env.hookBlock with
      | some reason =>
        cases asks host env <;> constructor <;> simp [executeEvents,List.filterMap_cons]
      | none =>
        cases hopen : env.circuitOpen with
        | some retry =>
          cases asks host env <;> constructor <;> simp [executeEvents,List.filterMap_cons]
        | none =>
          by_cases hlock : c.name ∈ writeTools ∧ isDict args = false
          · cases asks host env <;> constructor <;> simp [hlock,executeEvents]
          · cases hdispatch : env.dispatch <;> cases asks host env <;> constructor <;>
              simp [hlock,hdispatch,executeEvents]

/-- The tallies of the calls of a batch. -/
def tallies (host : Host) (b : Batch) : List (Tally PyStr) :=
  (reached host b).map fun e => ⟨e.2.id,(ending host e).opens,
    (ending host e).rejections+if completes host b then (ending host e).returns else 0⟩

/-- What the preparations of a batch emit, and its executions. -/
structure BatchSpec (host : Host) (b : Batch) (es : List Event)
    (prepared : Option (List ((CallEnv × ToolCall) × PreparedToolCall))) : Prop where
  completed : prepared.isSome = completes host b
  opens : es.filterMap Event.opened =
    (reached host b).flatMap fun e => List.replicate (ending host e).opens e.2.id
  rejections : es.filterMap Event.closed =
    (reached host b).flatMap fun e => List.replicate (ending host e).rejections e.2.id
  preceded : Preceded Event.opened Event.closed [] es
  executes : ∀ ps, prepared = some ps →
    (ps.flatMap fun ep => (executeEvents ep.1.1 ep.1.2 ep.2).1).filterMap Event.opened = [] ∧
    (ps.flatMap fun ep => (executeEvents ep.1.1 ep.1.2 ep.2).1).filterMap Event.closed =
      (reached host b).flatMap fun e => List.replicate (ending host e).returns e.2.id

theorem batchSpec (b : Batch) : BatchSpec host b (prepareBatch host b).1 (prepareBatch host b).2 := by
  induction b with
  | nil => constructor <;> simp [prepareBatch,completes,reached]
  | cons e rest ih =>
    obtain ⟨hraised,hopens,hrejections,hpreceded,hexecutes⟩ := @callSpec host e
    rw [prepareBatch]
    rcases hprep : prepareInTurnEvents host e with ⟨es,p⟩
    rw [hprep] at hraised hopens hrejections hpreceded hexecutes
    cases p with
    | none =>
      have hen : (ending host e).raises = true := by simpa using hraised.symm
      constructor <;> simp_all [completes,reached]
    | some p =>
      have hen : (ending host e).raises = false := by simpa using hraised.symm
      obtain ⟨hexec₁,hexec₂⟩ := hexecutes p rfl
      have hreached : reached host (e::rest) = e::reached host rest := by
        rw [reached,hen]
        rfl
      constructor
      · rw [completes,List.all_cons,hen,← completes]
        simpa only [Option.isSome_map,Bool.not_false,Bool.true_and] using ih.completed
      · simp only [List.filterMap_append,hopens,ih.opens,hreached,List.flatMap_cons]
      · simp only [List.filterMap_append,hrejections,ih.rejections,hreached,List.flatMap_cons]
      · exact preceded_append hpreceded (ih.preceded.mono (List.nil_subset _))
      · intro ps hps
        obtain ⟨ps',hps',rfl⟩ := Option.map_eq_some_iff.mp hps
        obtain ⟨hexec₁',hexec₂'⟩ := ih.executes ps' hps'
        simp only [List.flatMap_cons,List.filterMap_append,hexec₁,hexec₂,hexec₁',hexec₂',hreached]
        exact ⟨rfl,trivial⟩

theorem filterMap_opened_perm {es es' : List Event} (h : es.Perm es')
    (hnil : es'.filterMap Event.opened = []) : es.filterMap Event.opened = [] := by
  have hperm := h.filterMap Event.opened
  rw [hnil] at hperm
  exact hperm.eq_nil

theorem count_replicate_of {k k' : PyStr} (n : ℕ) :
    (List.replicate n k').count k = if k' == k then n else 0 :=
  List.count_replicate

theorem batchEvents_tally {b : Batch} {es : List Event} (h : BatchEvents host b es) :
    es.filterMap Event.opened = (tallies host b).flatMap Tally.keys ∧
    (∀ k, (es.filterMap Event.closed).count k = ((tallies host b).map (Tally.closesOf k)).sum) ∧
    Preceded Event.opened Event.closed [] es := by
  obtain ⟨results,rfl,hresults⟩ := h
  have hspec := @batchSpec host b
  have hkeys : (tallies host b).flatMap Tally.keys =
      (reached host b).flatMap fun e => List.replicate (ending host e).opens e.2.id := by
    rw [tallies,List.flatMap_map]
    rfl
  have hrejections : ∀ k, ((prepareBatch host b).1.filterMap Event.closed).count k =
      ((reached host b).map fun e => if e.2.id == k then (ending host e).rejections else 0).sum := by
    intro k
    rw [hspec.rejections,List.count_flatMap]
    congr 1
    exact List.map_congr_left fun e _ => count_replicate_of _
  cases hprepared : (prepareBatch host b).2 with
  | none =>
    have hcompletes : completes host b = false := by
      rw [← hspec.completed,hprepared]
      rfl
    rw [hprepared] at hresults
    subst hresults
    rw [List.append_nil,hkeys]
    refine ⟨hspec.opens,fun k => ?_,hspec.preceded⟩
    rw [hrejections,tallies,List.map_map]
    congr 1
    exact List.map_congr_left fun e _ => by simp [Tally.closesOf,hcompletes]
  | some prepared =>
    have hcompletes : completes host b = true := by
      rw [← hspec.completed,hprepared]
      rfl
    rw [hprepared] at hresults
    obtain ⟨hopens,hreturns⟩ := hspec.executes prepared hprepared
    have hclosed := hresults.filterMap Event.closed
    rw [hreturns] at hclosed
    refine ⟨?_,fun k => ?_,?_⟩
    · rw [List.filterMap_append,filterMap_opened_perm hresults hopens,List.append_nil,hkeys]
      exact hspec.opens
    · rw [List.filterMap_append,List.count_append,hrejections,hclosed.count_eq,List.count_flatMap,
        ← List.sum_map_add,tallies,List.map_map]
      congr 1
      refine List.map_congr_left fun e _ => ?_
      simp only [Function.comp,count_replicate_of,Tally.closesOf,hcompletes,if_true]
      split <;> rfl
    · refine preceded_append hspec.preceded (preceded_of_mem fun e he k hk => ?_)
      have hmem := hclosed.mem_iff.mp (List.mem_filterMap.mpr ⟨e,he,hk⟩)
      obtain ⟨call,hcall,hk'⟩ := List.mem_flatMap.mp hmem
      rw [List.append_nil,hspec.opens]
      refine List.mem_flatMap.mpr ⟨call,hcall,?_⟩
      obtain ⟨hne,rfl⟩ := List.mem_replicate.mp hk'
      cases hen : ending host call <;> simp_all

theorem emits_tally {s u : State} {as : List Action} {es : List Event} (h : Emits host s as es u) :
    es.filterMap Event.opened =
      ((batches host s as).flatMap (tallies host)).flatMap Tally.keys ∧
    (∀ k, (es.filterMap Event.closed).count k =
      (((batches host s as).flatMap (tallies host)).map (Tally.closesOf k)).sum) ∧
    Preceded Event.opened Event.closed [] es := by
  induction h with
  | refl s => simp [batches]
  | succ hstep hbatch _ ih =>
    obtain ⟨hopens,hcloses,hpreceded⟩ := batchEvents_tally hbatch
    obtain ⟨ihopens,ihcloses,ihpreceded⟩ := ih
    simp only [batches,hstep,List.flatMap_cons,List.flatMap_append,List.map_append,List.sum_append,
      List.filterMap_append,List.count_append]
    refine ⟨by rw [hopens,ihopens],fun k => by rw [hcloses,ihcloses],?_⟩
    exact preceded_append hpreceded (ihpreceded.mono (List.nil_subset _))

theorem keys_tallies {b : Batch} (h : ∀ e ∈ reached host b, (ending host e).opens ≤ 1) :
    (tallies host b).flatMap Tally.keys = announced host b := by
  rw [tallies,announced,List.flatMap_map]
  generalize reached host b = calls at h ⊢
  induction calls with
  | nil => rfl
  | cons e rest ih =>
    have hle := h e List.mem_cons_self
    have ih := ih fun e' he' => h e' (List.mem_cons_of_mem e he')
    rw [List.flatMap_cons,ih,List.filter_cons]
    by_cases hopens : 0 < (ending host e).opens
    · have hone : (ending host e).opens = 1 := by omega
      simp [Tally.keys,hone,-Ending.opens]
    · have hzero : (ending host e).opens = 0 := by omega
      simp [Tally.keys,hzero,-Ending.opens]

theorem settled_iff (en : Ending) (completes : Bool) : en.settled completes = true ↔
    en.opens ≤ 1 ∧
      (en.opens ≠ 0 → en.rejections+(if completes then en.returns else 0) = 1) := by
  cases en <;> cases completes <;> decide

theorem keys_of_settled {bs : List Batch}
    (h : ∀ b ∈ bs, ∀ e ∈ reached host b, (ending host e).settled (completes host b)) :
    (bs.flatMap (tallies host)).flatMap Tally.keys = bs.flatMap (announced host) := by
  rw [List.flatMap_assoc]
  refine List.flatMap_congr fun b hb => keys_tallies fun e he => ?_
  exact ((settled_iff _ _).mp (h b hb e he)).1

/-- Every tool call of a run is announced at most once and answered once behind that
exactly when its calls are settled. -/
theorem events_paired_iff {as : List Action} {es : List Event} {s u : State}
    (h : Emits host s as es u) :
    EventPairing.Paired Event.opened Event.closed es ↔ Settled host (batches host s as) := by
  obtain ⟨hopens,hcloses,hpreceded⟩ := emits_tally h
  have hself : ∀ (e : Event) k, e.opened = some k → e.closed = none := by
    intro e k hk
    cases e with
    | toolCall c args => rfl
    | toolResult c r => cases hk
  rw [paired_iff hpreceded hself,hopens]
  simp only [hcloses]
  generalize batches host s as = bs
  have hclosed : ∀ t ∈ bs.flatMap (tallies host), t.closes ≠ 0 → t.opens ≠ 0 := by
    intro t ht
    obtain ⟨b,_,ht⟩ := List.mem_flatMap.mp ht
    obtain ⟨e,_,rfl⟩ := List.mem_map.mp ht
    dsimp only
    cases ending host e <;> simp
  constructor
  · rintro ⟨hnodup,hcount⟩
    have hcalls : ∀ b ∈ bs, ∀ e ∈ reached host b,
        (ending host e).settled (completes host b) := by
      intro b hb e he
      let t : Tally PyStr := ⟨e.2.id,(ending host e).opens,
        (ending host e).rejections+if completes host b then (ending host e).returns else 0⟩
      have ht : t ∈ bs.flatMap (tallies host) :=
        List.mem_flatMap.mpr ⟨b,hb,List.mem_map.mpr ⟨e,he,rfl⟩⟩
      rw [settled_iff]
      constructor
      · have hkeys := (List.nodup_flatMap.mp hnodup).1 t ht
        exact List.nodup_replicate.mp hkeys
      · intro hopen
        rw [← hcount t.key (List.mem_flatMap.mpr ⟨t,ht,by simp [Tally.keys,t,hopen,-Ending.opens]⟩)]
        exact (closes_of_nodup hnodup hclosed ht hopen).symm
    exact ⟨hcalls,keys_of_settled hcalls ▸ hnodup⟩
  · rintro ⟨hcalls,hdistinct⟩
    rw [← keys_of_settled hcalls] at hdistinct
    refine ⟨hdistinct,fun k hk => ?_⟩
    obtain ⟨t,ht,hk⟩ := List.mem_flatMap.mp hk
    obtain ⟨hopen,rfl⟩ := List.mem_replicate.mp hk
    rw [closes_of_nodup hdistinct hclosed ht hopen]
    obtain ⟨b,hb,ht⟩ := List.mem_flatMap.mp ht
    obtain ⟨e,he,rfl⟩ := List.mem_map.mp ht
    exact ((settled_iff _ _).mp (hcalls b hb e he)).2 hopen

end Proofs

def readCall : ToolCall := ⟨lit "call_1",.str (lit "function"),lit "read_file",[]⟩

/-- The events of a call that returns. -/
def readEvents : List Event :=
  [.toolCall readCall (some (.obj [])),.toolResult readCall (.dispatched (some (lit "null")))]

theorem emits_turn {host : Host} {content : Json} {input : Iteration} {s t : State} {es : List Event}
    (hbegin : step host start (.begin content) = some s)
    (hiterate : step host s (.iterate input) = some t)
    (hbatch : BatchEvents host (batchOf host s (.iterate input)) es) :
    Emits host start [.begin content,.iterate input] es t := by
  have hnone : BatchEvents host (batchOf host start (.begin content)) [] :=
    ⟨[],rfl,List.Perm.refl _⟩
  have hone := Emits.succ hiterate hbatch (.refl t)
  rw [List.append_nil] at hone
  exact .succ hbegin hnone hone

theorem emits_read : Emits plainHost start (oneCallRun (lit "read_file")) readEvents
    (last (step plainHost) start (oneCallRun (lit "read_file"))) := by
  have hbatch : BatchEvents plainHost [(plainEnv,readCall)] readEvents :=
    ⟨[.toolResult readCall (.dispatched (some (lit "null")))],rfl,List.Perm.refl _⟩
  exact emits_turn rfl rfl hbatch

theorem events_paired_read : EventPairing.Paired Event.opened Event.closed readEvents := by
  refine (events_paired_iff emits_read).mpr ⟨?_,?_⟩
  · have hreached : ∀ b ∈ batches plainHost start (oneCallRun (lit "read_file")),
        b = [] ∨ b = [(plainEnv,readCall)] := by
      intro b hb
      cases hb with
      | head => exact .inl rfl
      | tail _ hb =>
        cases hb with
        | head => exact .inr rfl
        | tail _ hb => cases hb
    intro b hb e he
    rcases hreached b hb with rfl | rfl
    · cases he
    · cases List.mem_singleton.mp he
      rfl
  · exact List.nodup_singleton _

def truncatedCall : ToolCall := ⟨lit "call_1",.str (lit "function"),lit "read_file",lit "\x7b"⟩

/-- The output limit has cut the arguments of the call. -/
def truncated : Iteration where
  cancelledBefore := false
  stream := some [⟨[],[[(lit "index",.int 0),(lit "id",.str (lit "call_1")),
    (lit "function",.obj [(lit "name",.str (lit "read_file")),
      (lit "arguments",.str (lit "\x7b"))])]],some (lit "length"),[]⟩]
  uuids _ := []
  calls _ := plainEnv
  cancelledAfter := false
  interjections := []

/-- A call with malformed arguments is announced and gets no `tool_result` event. -/
theorem truncated_unpaired : ∃ u, Emits plainHost start [.begin (.str (lit "hi")),.iterate truncated]
    [.toolCall truncatedCall none] u ∧
    ¬ EventPairing.Paired Event.opened Event.closed [.toolCall truncatedCall none] := by
  refine ⟨last (step plainHost) start [.begin (.str (lit "hi")),.iterate truncated],?_,?_⟩
  · have hbatch : BatchEvents plainHost [(plainEnv,truncatedCall)] [.toolCall truncatedCall none] :=
      ⟨[],rfl,List.Perm.refl _⟩
    exact emits_turn rfl rfl hbatch
  · intro h
    have hone := h.followed [] _ [] (lit "call_1") rfl rfl
    simp at hone

end MinimaxCode.Agent
