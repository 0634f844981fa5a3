import MinimaxCode.OrderedDict
import MinimaxCode.Pool
import MinimaxCode.PyJson
import MinimaxCode.Runs

/-!
# The job scheduler

The table of scheduled jobs and the timer that mirrors it. Each statement holds the lock of
the connection until its caller goes on, so what one call does between two waits is one
step; calls in flight take their steps in any order.
-/

namespace MinimaxCode.JobScheduler

open PyText PyJson OrderedDict Pool Runs

/-- The triggers of the timer library: which expressions it parses, and the next time an
expression fires after a time. The outer `none` is an exception. -/
structure Cron where
  fromCrontab : PyStr → Bool
  nextFireTime : PyStr → PyStr → Option (Option PyStr)

/-- A row of `scheduled_jobs`; its payload is kept as a value. -/
structure JobRow where
  id : PyStr
  name : PyStr
  cronExpr : PyStr
  payload : Option Json
  enabled : Bool
  lastRunAt : Option PyStr
  nextRunAt : Option PyStr
  createdAt : PyStr

/-- `_parse_cron`; `none` is an `InvalidCronError`. -/
def parseCron (cron : Cron) (cronExpr now : PyStr) : Option PyStr :=
  if cron.fromCrontab cronExpr then (cron.nextFireTime cronExpr now).map (·.getD []) else none

def apsId (jobId : PyStr) : PyStr := lit "job_"++jobId

/-- What a call waits for: the start lock, or the statement it has handed over. -/
inductive Stage
  | locking
  | reloading
  | creating (row : JobRow) (nextRun : PyStr)
  | created (id : PyStr) (enabled : Bool) (nextRun : PyStr)
  | scheduling (row : JobRow) (enabled : Bool) (nextRun : PyStr)
  | scheduled (row : JobRow) (enabled : Bool)
  | reading (id : PyStr)
  | enabling (id : PyStr)
  | fetching (id : PyStr)
  | disabling (id : PyStr)
  | deleting (id : PyStr)

/-- The timer holds the row that a registration was made from. -/
structure State where
  rows : List (PyStr × JobRow)
  aps : List (PyStr × JobRow)
  started : Bool
  calls : List Stage

def init : State := ⟨[],[],false,[]⟩

/-- `none` is an `IntegrityError`. -/
def insert (rows : List (PyStr × JobRow)) (row : JobRow) : Option (List (PyStr × JobRow)) :=
  if (lookup rows row.id).isSome then none else some (assign rows row.id row)

def update (rows : List (PyStr × JobRow)) (id : PyStr) (f : JobRow → JobRow) :
    List (PyStr × JobRow) :=
  match lookup rows id with
  | some row => assign rows id (f row)
  | none => rows

def setEnabled (rows : List (PyStr × JobRow)) (id : PyStr) (enabled : Bool) :
    List (PyStr × JobRow) :=
  update rows id fun row => { row with enabled := enabled }

def updateNextRun (rows : List (PyStr × JobRow)) (id ts : PyStr) : List (PyStr × JobRow) :=
  update rows id fun row => { row with nextRunAt := some ts }

/-- `list(enabled=True, order_by="name ASC")`. -/
def listEnabled (rows : List (PyStr × JobRow)) : List JobRow :=
  ((rows.map Prod.snd).filter JobRow.enabled).mergeSort fun r r' => strLe r.name r'.name

/-- The row exists and is enabled. -/
def isEnabled (rows : List (PyStr × JobRow)) (id : PyStr) : Bool :=
  (lookup rows id).any JobRow.enabled

/-- An earlier job of the same id goes first, also when the expression does not parse. -/
def registerWithAps (cron : Cron) (aps : List (PyStr × JobRow)) (row : JobRow) :
    List (PyStr × JobRow) :=
  if cron.fromCrontab row.cronExpr then assign (remove aps (apsId row.id)) (apsId row.id) row
  else remove aps (apsId row.id)

def unregisterFromAps (aps : List (PyStr × JobRow)) (jobId : PyStr) : List (PyStr × JobRow) :=
  remove aps (apsId jobId)

def reload (cron : Cron) (rows aps : List (PyStr × JobRow)) : List (PyStr × JobRow) :=
  (listEnabled rows).foldl (registerWithAps cron) aps

def hasJob (aps : List (PyStr × JobRow)) (jobId : PyStr) : Bool := (lookup aps (apsId jobId)).isSome

inductive Request
  | add (name cronExpr : PyStr) (payload : Option Json) (enabled : Bool) (hex now createdAt : PyStr)
  | remove (id : PyStr)
  | enable (id : PyStr)
  | disable (id : PyStr)
  | start

def Stage.isReloading : Stage → Bool
  | .reloading => true
  | _ => false

def Stage.isLocking : Stage → Bool
  | .locking => true
  | _ => false

/-- What a call does up to its first wait. -/
def call (cron : Cron) (s : State) : Request → State
  | .add name cronExpr payload enabled hex now createdAt =>
    let first := (parseCron cron cronExpr now).map fun nextRun =>
      Stage.creating ⟨lit "job_"++hex,name,cronExpr,payload,enabled,none,none,createdAt⟩ nextRun
    { s with calls := s.calls++first.toList }
  | .remove id =>
    { s with aps := unregisterFromAps s.aps id, calls := s.calls++[.deleting id] }
  | .enable id => { s with calls := s.calls++[.enabling id] }
  | .disable id =>
    { s with aps := unregisterFromAps s.aps id, calls := s.calls++[.disabling id] }
  | .start =>
    if s.calls.any fun c => c.isReloading || c.isLocking then
      { s with calls := s.calls++[.locking] }
    else if s.started then s
    else { s with started := true, calls := s.calls++[.reloading] }

/-- What a call does from its wait to the next one. -/
def resume (cron : Cron) (s : State) (i : ℕ) : Stage → State
  | .locking =>
    if s.started then { s with calls := put s.calls i none }
    else { s with started := true, calls := put s.calls i (some .reloading) }
  | .reloading => { s with aps := reload cron s.rows s.aps, calls := put s.calls i none }
  | .creating row nextRun =>
    match insert s.rows row with
    | some rows =>
      { s with rows := rows, calls := put s.calls i (some (.created row.id row.enabled nextRun)) }
    | none => { s with calls := put s.calls i none }
  | .created id enabled nextRun =>
    match lookup s.rows id with
    | some row => { s with calls := put s.calls i (some (.scheduling row enabled nextRun)) }
    -- A row that is gone is a `TypeError`.
    | none => { s with calls := put s.calls i none }
  | .scheduling row enabled nextRun =>
    { s with
      rows := updateNextRun s.rows row.id nextRun
      calls := put s.calls i (some (.scheduled row enabled)) }
  | .scheduled row enabled =>
    if enabled && s.started then
      { s with
        aps := registerWithAps cron s.aps row
        calls := put s.calls i (if cron.fromCrontab row.cronExpr then some (.reading row.id) else none) }
    else { s with calls := put s.calls i (some (.reading row.id)) }
  | .reading _ => { s with calls := put s.calls i none }
  | .enabling id =>
    { s with rows := setEnabled s.rows id true, calls := put s.calls i (some (.fetching id)) }
  | .fetching id =>
    match lookup s.rows id with
    | some row =>
      if s.started && row.enabled && !hasJob s.aps id then
        { s with aps := registerWithAps cron s.aps row, calls := put s.calls i none }
      else { s with calls := put s.calls i none }
    | none => { s with calls := put s.calls i none }
  | .disabling id =>
    { s with rows := setEnabled s.rows id false, calls := put s.calls i (some (.reading id)) }
  | .deleting id => { s with rows := remove s.rows id, calls := put s.calls i none }

/-- A call is made, goes on, or ends early by a cancellation or a statement that raises; the
process ends and another begins on the same table. -/
inductive Action
  | call (r : Request)
  | resume (i : ℕ)
  | abandon (i : ℕ)
  | restart

/-- The start lock is held while the table is read. -/
def blocked (s : State) (c : Stage) : Bool := c.isLocking && s.calls.any Stage.isReloading

def step (cron : Cron) (s : State) : Action → Option State
  | .call r => some (call cron s r)
  | .resume i => s.calls[i]?.bind fun c => if blocked s c then none else some (resume cron s i c)
  | .abandon i => s.calls[i]?.map fun _ => { s with calls := put s.calls i none }
  | .restart => some ⟨s.rows,[],false,[]⟩

/-- The jobs are registered that have an enabled row. -/
def Agrees (s : State) : Prop := ∀ id, hasJob s.aps id = isEnabled s.rows id

/-- A call in flight has yet to register the job if its row stays enabled, or to write that
it is not. -/
def Stage.owes : Stage → PyStr → Bool
  | .reloading, _ => true
  | .created id' enabled _, id => enabled && id' = id
  | .scheduling row enabled _, id => enabled && row.id = id
  | .scheduled row enabled, id => enabled && row.id = id
  | .fetching id', id => id' = id
  | .disabling id', id => id' = id
  | .deleting id', id => id' = id
  | _, _ => false

/-- No job is registered when a call writes that it is disabled or gone; a new job is
registered while its row is enabled; a call that ends early leaves no enabled job that is
unregistered and that no other call will settle. -/
def keeps (s : State) : Action → Bool
  | .resume i =>
    match s.calls[i]? with
    | some (.disabling id) => !hasJob s.aps id
    | some (.deleting id) => !hasJob s.aps id
    | some (.scheduled row enabled) => !(enabled && s.started) || isEnabled s.rows row.id
    | _ => true
  | .abandon i =>
    !s.started || (keys s.rows).all fun id =>
      !isEnabled s.rows id || hasJob s.aps id || (put s.calls i none).any (·.owes id)
  | _ => true

variable {cron : Cron} {rows aps : List (PyStr × JobRow)} {row : JobRow} {id id' : PyStr}

theorem apsId_inj : apsId id = apsId id' ↔ id = id' :=
  ⟨fun h => List.append_cancel_left h,fun h => h ▸ rfl⟩

theorem isEnabled_iff : isEnabled rows id ↔ ∃ row, lookup rows id = some row ∧ row.enabled := by
  rw [isEnabled,Option.any_eq_true]

theorem not_isEnabled_of_none (h : lookup rows id = none) : ¬ isEnabled rows id := by
  rw [isEnabled,h]
  nofun

theorem lookup_update (f : JobRow → JobRow) :
    lookup (update rows id f) id' =
      if id = id' then (lookup rows id').map f else lookup rows id' := by
  cases h : lookup rows id with
  | some row =>
    rw [update,h]
    dsimp only
    rw [lookup_assign]
    split
    · next heq => rw [← heq,h,Option.map_some]
    · rfl
  | none =>
    rw [update,h]
    dsimp only
    split
    · next heq => rw [← heq,h,Option.map_none]
    · rfl

theorem mem_listEnabled (hrows : (keys rows).Nodup) :
    row ∈ listEnabled rows ↔ ∃ id, lookup rows id = some row ∧ row.enabled := by
  rw [listEnabled,List.mem_mergeSort,List.mem_filter,List.mem_map]
  constructor
  · rintro ⟨⟨⟨id,row⟩,hmem,rfl⟩,henabled⟩
    exact ⟨id,lookup_of_mem hrows hmem,henabled⟩
  · rintro ⟨id,hlookup,henabled⟩
    exact ⟨⟨(id,row),mem_of_lookup hlookup,rfl⟩,henabled⟩

theorem hasJob_register (hcron : cron.fromCrontab row.cronExpr) :
    hasJob (registerWithAps cron aps row) id = (row.id = id || hasJob aps id) := by
  rw [registerWithAps,if_pos hcron,hasJob,hasJob,lookup_assign,lookup_remove]
  simp only [apsId_inj]
  by_cases h : row.id = id <;> simp [h]

theorem hasJob_unregister :
    hasJob (unregisterFromAps aps id) id' = (id ≠ id' && hasJob aps id') := by
  rw [unregisterFromAps,hasJob,hasJob,lookup_remove]
  simp only [apsId_inj]
  by_cases h : id = id' <;> simp [h]

theorem hasJob_foldl {listed : List JobRow} (hcron : ∀ row ∈ listed, cron.fromCrontab row.cronExpr) :
    hasJob (listed.foldl (registerWithAps cron) aps) id ↔
      (∃ row ∈ listed, row.id = id) ∨ hasJob aps id := by
  induction listed generalizing aps with
  | nil => simp
  | cons row listed ih =>
    rw [List.foldl_cons,ih fun row' h => hcron row' (List.mem_cons_of_mem _ h),
      hasJob_register (hcron row List.mem_cons_self)]
    simp [or_left_comm,or_assoc]

/-- What holds of the table and the timer in every state of a run that keeps them in step. -/
structure Mirrored (cron : Cron) (rows aps : List (PyStr × JobRow)) (started : Bool) : Prop where
  nodup : (keys rows).Nodup
  fits : ∀ id row, lookup rows id = some row → row.id = id ∧ cron.fromCrontab row.cronExpr
  sound : ∀ id, hasJob aps id → isEnabled rows id
  idle : ∀ id, hasJob aps id → started

namespace Mirrored

variable {started : Bool}

theorem insert {rows' : List (PyStr × JobRow)} (h : Mirrored cron rows aps started)
    (hrow : cron.fromCrontab row.cronExpr) (hinsert : JobScheduler.insert rows row = some rows') :
    Mirrored cron rows' aps started := by
  rw [JobScheduler.insert] at hinsert
  split at hinsert
  · cases hinsert
  next hnew =>
  cases hinsert
  refine ⟨nodup_keys_assign h.nodup,fun id row' hlookup => ?_,fun id hjob => ?_,h.idle⟩
  · rw [lookup_assign] at hlookup
    split at hlookup
    · next heq => cases hlookup; exact ⟨heq,hrow⟩
    · exact h.fits id row' hlookup
  · have hold := h.sound id hjob
    have hne : row.id ≠ id := by
      rintro rfl
      exact not_isEnabled_of_none (Option.not_isSome_iff_eq_none.mp hnew) hold
    rwa [isEnabled,lookup_assign,if_neg hne]

theorem update {f : JobRow → JobRow} (h : Mirrored cron rows aps started)
    (hf : ∀ row, (f row).id = row.id ∧ (f row).cronExpr = row.cronExpr)
    (henabled : ∀ row, row.enabled → hasJob aps id → (f row).enabled) :
    Mirrored cron (JobScheduler.update rows id f) aps started := by
  refine ⟨?_,fun id' row hlookup => ?_,fun id' hjob => ?_,h.idle⟩
  · rw [JobScheduler.update]
    split
    · exact nodup_keys_assign h.nodup
    · exact h.nodup
  · rw [lookup_update] at hlookup
    split at hlookup
    · obtain ⟨row',hlookup',rfl⟩ := Option.map_eq_some_iff.mp hlookup
      rw [(hf row').1,(hf row').2]
      exact h.fits id' row' hlookup'
    · exact h.fits id' row hlookup
  · obtain ⟨row,hlookup,hrow⟩ := isEnabled_iff.mp (h.sound id' hjob)
    rw [isEnabled_iff,lookup_update]
    split
    · next heq =>
      subst heq
      exact ⟨f row,by rw [hlookup,Option.map_some],henabled row hrow hjob⟩
    · exact ⟨row,hlookup,hrow⟩

theorem delete (h : Mirrored cron rows aps started) (hjob : hasJob aps id = false) :
    Mirrored cron (remove rows id) aps started := by
  refine ⟨nodup_keys_remove h.nodup,fun id' row hlookup => ?_,fun id' hjob' => ?_,h.idle⟩
  · rw [lookup_remove] at hlookup
    split at hlookup
    · cases hlookup
    · exact h.fits id' row hlookup
  · have hne : id ≠ id' := by
      rintro rfl
      rw [hjob] at hjob'
      cases hjob'
    rw [isEnabled,lookup_remove,if_neg hne]
    exact h.sound id' hjob'

theorem register (h : Mirrored cron rows aps started) (hcron : cron.fromCrontab row.cronExpr)
    (hstarted : started) (henabled : isEnabled rows row.id) :
    Mirrored cron rows (registerWithAps cron aps row) started := by
  refine ⟨h.nodup,h.fits,fun id hjob => ?_,fun _ _ => hstarted⟩
  rw [hasJob_register hcron,Bool.or_eq_true,decide_eq_true_iff] at hjob
  rcases hjob with rfl | hjob
  · exact henabled
  · exact h.sound id hjob

theorem unregister (h : Mirrored cron rows aps started) :
    Mirrored cron rows (unregisterFromAps aps id) started := by
  have hold : ∀ id', hasJob (unregisterFromAps aps id) id' → hasJob aps id' := by
    intro id' hjob
    rw [hasJob_unregister,Bool.and_eq_true] at hjob
    exact hjob.2
  exact ⟨h.nodup,h.fits,fun id' hjob => h.sound id' (hold id' hjob),
    fun id' hjob => h.idle id' (hold id' hjob)⟩

theorem start (h : Mirrored cron rows aps started) : Mirrored cron rows aps true :=
  ⟨h.nodup,h.fits,h.sound,fun _ _ => rfl⟩

theorem hasJob_reload (h : Mirrored cron rows aps started) :
    hasJob (reload cron rows aps) id ↔ isEnabled rows id := by
  rw [reload,hasJob_foldl fun row hrow => ?_]
  · simp only [mem_listEnabled h.nodup]
    constructor
    · rintro (⟨row,⟨id',hlookup,hrow⟩,rfl⟩ | hjob)
      · rw [← (h.fits id' row hlookup).1] at hlookup
        exact isEnabled_iff.mpr ⟨row,hlookup,hrow⟩
      · exact h.sound id hjob
    · intro henabled
      obtain ⟨row,hlookup,hrow⟩ := isEnabled_iff.mp henabled
      exact .inl ⟨row,⟨id,hlookup,hrow⟩,(h.fits id row hlookup).1⟩
  · obtain ⟨id',hlookup,-⟩ := (mem_listEnabled h.nodup).mp hrow
    exact (h.fits id' row hlookup).2

theorem reload (h : Mirrored cron rows aps started) (hstarted : started) :
    Mirrored cron rows (JobScheduler.reload cron rows aps) started :=
  ⟨h.nodup,h.fits,fun _ hjob => h.hasJob_reload.mp hjob,fun _ _ => hstarted⟩

end Mirrored

/-- What a call carries to a later registration. -/
def Fit (cron : Cron) (started : Bool) : Stage → Prop
  | .reloading => started
  | .creating row _ => cron.fromCrontab row.cronExpr
  | .scheduling row _ _ => cron.fromCrontab row.cronExpr
  | .scheduled row _ => cron.fromCrontab row.cronExpr
  | _ => True

structure Inv (cron : Cron) (s : State) : Prop where
  tables : Mirrored cron s.rows s.aps s.started
  fit : ∀ c ∈ s.calls, Fit cron s.started c
  covered : s.started → ∀ id, isEnabled s.rows id → hasJob s.aps id ∨ ∃ c ∈ s.calls, c.owes id

theorem Fit.mono {started started' : Bool} {c : Stage} (h : Fit cron started c)
    (himp : started → started') : Fit cron started' c := by
  cases c with
  | reloading => exact himp h
  | _ => exact h

theorem none_fits {P : Stage → Prop} : ∀ c', none = some c' → P c' := by
  intro c' h
  cases h

theorem inv_idle (hrows : (keys rows).Nodup)
    (hfits : ∀ id row, lookup rows id = some row → row.id = id ∧ cron.fromCrontab row.cronExpr) :
    Inv cron ⟨rows,[],false,[]⟩ := by
  refine ⟨⟨hrows,hfits,fun id hjob => ?_,fun id hjob => ?_⟩,fun c hc => ?_,fun hstart => ?_⟩
  · cases hjob
  · cases hjob
  · cases hc
  · cases hstart

namespace Inv

variable {s : State} {i : ℕ} {c : Stage} {new : Option Stage} {started : Bool}

theorem moved (h : Inv cron s) (hi : s.calls[i]? = some c) (htables : Mirrored cron rows aps started)
    (hstarted : s.started → started) (hfit : ∀ c', new = some c' → Fit cron started c')
    (hcovered : started → ∀ id, isEnabled rows id → hasJob aps id ∨
      (∃ c', new = some c' ∧ c'.owes id) ∨
      s.started ∧ isEnabled s.rows id ∧ (hasJob s.aps id → hasJob aps id) ∧ c.owes id = false) :
    Inv cron ⟨rows,aps,started,put s.calls i new⟩ := by
  refine ⟨htables,fun c' (hc' : c' ∈ put s.calls i new) => ?_,fun hstart id henabled => ?_⟩
  · cases new with
    | none => exact (h.fit c' (mem_put_none hc')).mono hstarted
    | some c'' =>
      rcases mem_put_some hc' with rfl | hold
      · exact hfit c' rfl
      · exact (h.fit c' hold).mono hstarted
  · rcases hcovered hstart id henabled with hjob | ⟨c',rfl,howes⟩ | ⟨hstart',henabled',hjob,hnot⟩
    · exact .inl hjob
    · exact .inr ⟨c',mem_put_self hi,howes⟩
    · rcases h.covered hstart' id henabled' with hold | ⟨c',hc',howes⟩
      · exact .inl (hjob hold)
      · refine .inr ⟨c',mem_put_of_ne hi hc' ?_,howes⟩
        rintro rfl
        rw [hnot] at howes
        cases howes

theorem moved_on (h : Inv cron s) (hi : s.calls[i]? = some c)
    (hfit : ∀ c', new = some c' → Fit cron s.started c')
    (howes : ∀ id, c.owes id → (s.started → isEnabled s.rows id → hasJob s.aps id) ∨
      ∃ c', new = some c' ∧ c'.owes id) :
    Inv cron { s with calls := put s.calls i new } := by
  refine h.moved hi h.tables (fun hs => hs) hfit fun hstart id henabled => ?_
  cases hc : c.owes id with
  | false => exact .inr (.inr ⟨hstart,henabled,fun hjob => hjob,rfl⟩)
  | true =>
    rcases howes id hc with hjob | hnew
    · exact .inl (hjob hstart henabled)
    · exact .inr (.inl hnew)

theorem registered (h : Inv cron s) (hi : s.calls[i]? = some c)
    (hcron : cron.fromCrontab row.cronExpr) (hstarted : s.started) (henabled : isEnabled s.rows row.id)
    (hfit : ∀ c', new = some c' → Fit cron s.started c') (howes : ∀ id, c.owes id → row.id = id) :
    Inv cron { s with aps := registerWithAps cron s.aps row, calls := put s.calls i new } := by
  refine h.moved hi (h.tables.register hcron hstarted henabled) (fun hs => hs) hfit fun _ id hid => ?_
  rw [hasJob_register hcron]
  by_cases heq : row.id = id
  · exact .inl (by simp [heq])
  · refine .inr (.inr ⟨hstarted,hid,fun hjob => by simp [hjob],?_⟩)
    exact Bool.eq_false_iff.mpr fun hc => heq (howes id hc)

theorem pushed (h : Inv cron s) (new : Option Stage) (htables : Mirrored cron s.rows aps started)
    (hstarted : s.started → started) (hfit : ∀ c', new = some c' → Fit cron started c')
    (hcovered : ∀ id, (∃ c', new = some c' ∧ c'.owes id) ∨
      (started → s.started) ∧ (hasJob s.aps id → hasJob aps id)) :
    Inv cron ⟨s.rows,aps,started,s.calls++new.toList⟩ := by
  refine ⟨htables,fun c' (hc' : c' ∈ s.calls++new.toList) => ?_,fun hstart id henabled => ?_⟩
  · rcases mem_push hc' with rfl | hold
    · exact hfit c' rfl
    · exact (h.fit c' hold).mono hstarted
  · rcases hcovered id with ⟨c',rfl,howes⟩ | ⟨hstart',hjob⟩
    · exact .inr ⟨c',List.mem_append_right _ (Option.mem_toList.mpr rfl),howes⟩
    · rcases h.covered (hstart' hstart) id henabled with hold | ⟨c',hc',howes⟩
      · exact .inl (hjob hold)
      · exact .inr ⟨c',List.mem_append_left _ hc',howes⟩

end Inv

theorem inv_init : Inv cron init :=
  inv_idle List.nodup_nil fun _ _ hrow => by cases hrow

theorem hasJob_unregister_of_ne (hne : id ≠ id') (h : hasJob aps id') :
    hasJob (unregisterFromAps aps id) id' := by
  rw [hasJob_unregister,h,Bool.and_true]
  exact decide_eq_true hne

variable {s t : State} {i : ℕ} {c : Stage}

theorem inv_call (h : Inv cron s) (r : Request) : Inv cron (call cron s r) := by
  -- A call that unregisters a job owes it until its row says so.
  have howing : ∀ {first : Stage} {id : PyStr}, (∀ id', first.owes id' = decide (id = id')) →
      Fit cron s.started first →
      Inv cron { s with aps := unregisterFromAps s.aps id, calls := s.calls++[first] } := by
    intro first id howes hfit
    refine h.pushed (some first) h.tables.unregister (fun hs => hs)
      (fun c' hc' => Option.some.inj hc' ▸ hfit) fun id' => ?_
    by_cases hid : id = id'
    · exact .inl ⟨first,rfl,by rw [howes,decide_eq_true hid]⟩
    · exact .inr ⟨fun hs => hs,hasJob_unregister_of_ne hid⟩
  have hplain : ∀ new : Option Stage, (∀ c', new = some c' → Fit cron s.started c') →
      Inv cron { s with calls := s.calls++new.toList } := fun new hfit =>
    h.pushed new h.tables (fun hs => hs) hfit fun _ => .inr ⟨fun hs => hs,fun hjob => hjob⟩
  cases r with
  | add name cronExpr payload enabled hex now createdAt =>
    refine hplain _ fun c' hc' => ?_
    obtain ⟨nextRun,hparse,rfl⟩ := Option.map_eq_some_iff.mp hc'
    rw [parseCron] at hparse
    split at hparse
    · next hcron => exact hcron
    · cases hparse
  | remove id => exact howing (fun _ => rfl) trivial
  | enable id => exact hplain (some (.enabling id)) fun c' hc' => Option.some.inj hc' ▸ trivial
  | disable id => exact howing (fun _ => rfl) trivial
  | start =>
    rw [call]
    split
    · exact hplain (some .locking) fun c' hc' => Option.some.inj hc' ▸ trivial
    split
    · exact h
    · refine h.pushed (some .reloading) h.tables.start (fun _ => rfl)
        (fun c' hc' => Option.some.inj hc' ▸ rfl) fun _ => .inl ⟨.reloading,rfl,rfl⟩

theorem isEnabled_insert {rows' : List (PyStr × JobRow)} (h : insert rows row = some rows')
    (henabled : isEnabled rows' id) : row.id = id ∧ row.enabled ∨ isEnabled rows id := by
  rw [insert] at h
  split at h
  · cases h
  cases h
  rw [isEnabled,lookup_assign] at henabled
  split at henabled
  · next heq => exact .inl ⟨heq,henabled⟩
  · exact .inr henabled

theorem isEnabled_updateNextRun (ts : PyStr) :
    isEnabled (updateNextRun rows id ts) id' = isEnabled rows id' := by
  rw [isEnabled,isEnabled,updateNextRun,lookup_update]
  split
  · cases lookup rows id' <;> rfl
  · rfl

theorem isEnabled_setEnabled {enabled : Bool} (h : isEnabled (setEnabled rows id enabled) id') :
    id = id' ∧ enabled ∨ id ≠ id' ∧ isEnabled rows id' := by
  rw [isEnabled,setEnabled,lookup_update] at h
  split at h
  · next heq =>
    refine .inl ⟨heq,?_⟩
    cases hlookup : lookup rows id' with
    | none => rw [hlookup] at h; cases h
    | some row => rw [hlookup] at h; exact h
  · next hne => exact .inr ⟨hne,h⟩

theorem inv_resume (h : Inv cron s) (hi : s.calls[i]? = some c) (hkeeps : keeps s (.resume i)) :
    Inv cron (resume cron s i c) := by
  have hfit := h.fit c (List.mem_of_getElem? hi)
  rw [keeps,hi] at hkeeps
  cases c with
  | locking =>
    rw [resume]
    split
    · exact h.moved_on hi none_fits fun _ howes => absurd howes Bool.false_ne_true
    · refine h.moved hi h.tables.start (fun _ => rfl) (fun c' hc' => Option.some.inj hc' ▸ rfl)
        fun _ id _ => .inr (.inl ⟨.reloading,rfl,rfl⟩)
  | reloading =>
    refine h.moved hi (h.tables.reload hfit) (fun hs => hs) none_fits fun _ id henabled => ?_
    exact .inl (h.tables.hasJob_reload.mpr henabled)
  | creating row nextRun =>
    rw [resume]
    split
    · next rows hinsert =>
      refine h.moved hi (h.tables.insert hfit hinsert) (fun hs => hs)
        (fun c' hc' => Option.some.inj hc' ▸ trivial) fun hstart id henabled => ?_
      rcases isEnabled_insert hinsert henabled with ⟨heq,hrow⟩ | hold
      · exact .inr (.inl ⟨_,rfl,by simp [Stage.owes,heq,hrow]⟩)
      · exact .inr (.inr ⟨hstart,hold,fun hjob => hjob,rfl⟩)
    · exact h.moved_on hi none_fits fun _ howes => absurd howes Bool.false_ne_true
  | created id enabled nextRun =>
    rw [resume]
    split
    · next row hlookup =>
      obtain ⟨hid,hcron⟩ := h.tables.fits id row hlookup
      refine h.moved_on hi (fun c' hc' => Option.some.inj hc' ▸ hcron) fun id' howes => ?_
      exact .inr ⟨_,rfl,by rwa [Stage.owes,hid]⟩
    · next hnone =>
      refine h.moved_on hi none_fits fun id' howes => .inl fun _ henabled => ?_
      -- The row that the call owes is gone.
      rw [Stage.owes,Bool.and_eq_true,decide_eq_true_iff] at howes
      exact absurd (howes.2 ▸ henabled) (not_isEnabled_of_none hnone)
  | scheduling row enabled nextRun =>
    refine h.moved hi (h.tables.update (fun _ => ⟨rfl,rfl⟩) fun _ hrow _ => hrow) (fun hs => hs)
      (fun c' hc' => Option.some.inj hc' ▸ hfit) fun hstart id henabled => ?_
    have hrow := (isEnabled_updateNextRun nextRun).symm.trans henabled
    cases howes : (Stage.scheduling row enabled nextRun).owes id with
    | true => exact .inr (.inl ⟨_,rfl,howes⟩)
    | false => exact .inr (.inr ⟨hstart,hrow,fun hjob => hjob,rfl⟩)
  | scheduled row enabled =>
    rw [resume]
    split
    · next hcond =>
      obtain ⟨henabled,hstart⟩ := Bool.and_eq_true_iff.mp hcond
      have hrow : isEnabled s.rows row.id := by simpa [hcond] using hkeeps
      have hcron : cron.fromCrontab row.cronExpr := hfit
      rw [if_pos hcron]
      refine h.registered hi hcron hstart hrow (fun c' hc' => Option.some.inj hc' ▸ trivial) ?_
      intro id howes
      rw [Stage.owes,Bool.and_eq_true,decide_eq_true_iff] at howes
      exact howes.2
    · next hcond =>
      refine h.moved_on hi (fun c' hc' => Option.some.inj hc' ▸ trivial) fun id howes => ?_
      rw [Stage.owes,Bool.and_eq_true] at howes
      exact .inl fun hstart _ => absurd (by rw [howes.1,hstart]; rfl) hcond
  | reading id => exact h.moved_on hi none_fits fun _ howes => absurd howes Bool.false_ne_true
  | enabling id =>
    refine h.moved hi (h.tables.update (fun _ => ⟨rfl,rfl⟩) fun _ _ _ => rfl) (fun hs => hs)
      (fun c' hc' => Option.some.inj hc' ▸ trivial) fun hstart id' henabled => ?_
    rcases isEnabled_setEnabled henabled with ⟨rfl,-⟩ | ⟨hne,hold⟩
    · exact .inr (.inl ⟨_,rfl,by simp [Stage.owes]⟩)
    · exact .inr (.inr ⟨hstart,hold,fun hjob => hjob,rfl⟩)
  | fetching id =>
    rw [resume]
    split
    · next row hlookup =>
      obtain ⟨hid,hcron⟩ := h.tables.fits id row hlookup
      split
      · next hcond =>
        rw [Bool.and_eq_true,Bool.and_eq_true] at hcond
        obtain ⟨⟨hstart,hrow⟩,-⟩ := hcond
        have henabled : isEnabled s.rows row.id := by
          rw [hid]
          exact isEnabled_iff.mpr ⟨row,hlookup,hrow⟩
        exact h.registered hi hcron hstart henabled none_fits fun id' howes =>
          hid.trans (of_decide_eq_true howes)
      · next hcond =>
        refine h.moved_on hi none_fits fun id' howes => .inl fun hstart henabled => ?_
        obtain rfl : id = id' := of_decide_eq_true howes
        rw [isEnabled,hlookup,Option.any_some] at henabled
        by_contra hjob
        exact hcond (by simp [hstart,henabled,hjob])
    · next hnone =>
      refine h.moved_on hi none_fits fun id' howes => .inl fun _ henabled => ?_
      obtain rfl : id = id' := of_decide_eq_true howes
      exact absurd henabled (not_isEnabled_of_none hnone)
  | disabling id =>
    have hjob : hasJob s.aps id = false := by simpa using hkeeps
    refine h.moved hi (h.tables.update (fun _ => ⟨rfl,rfl⟩) fun _ _ hjob' => ?_) (fun hs => hs)
      (fun c' hc' => Option.some.inj hc' ▸ trivial) fun hstart id' henabled => ?_
    · rw [hjob] at hjob'
      cases hjob'
    · rcases isEnabled_setEnabled henabled with ⟨-,hfalse⟩ | ⟨hne,hold⟩
      · cases hfalse
      · exact .inr (.inr ⟨hstart,hold,fun hjob => hjob,by simp [Stage.owes,hne]⟩)
  | deleting id =>
    have hjob : hasJob s.aps id = false := by simpa using hkeeps
    refine h.moved hi (h.tables.delete hjob) (fun hs => hs) none_fits fun hstart id' henabled => ?_
    rw [isEnabled,lookup_remove] at henabled
    split at henabled
    · cases henabled
    · next hne =>
      exact .inr (.inr ⟨hstart,henabled,fun hjob => hjob,by simp [Stage.owes,hne]⟩)

theorem mem_keys_of_isEnabled (h : isEnabled rows id) : id ∈ keys rows := by
  by_contra hmem
  exact not_isEnabled_of_none (lookup_eq_none hmem) h

theorem inv_step {a : Action} (h : Inv cron s) (hkeeps : keeps s a) (hs : step cron s a = some t) :
    Inv cron t := by
  cases a with
  | call r =>
    cases hs
    exact inv_call h r
  | resume i =>
    obtain ⟨c,hi,hc⟩ := Option.bind_eq_some_iff.mp hs
    split at hc
    · cases hc
    · cases hc
      exact inv_resume h hi hkeeps
  | abandon i =>
    obtain ⟨c,-,rfl⟩ := Option.map_eq_some_iff.mp hs
    refine ⟨h.tables,fun c' (hc' : c' ∈ put s.calls i none) => h.fit c' (mem_put_none hc'),
      fun hstart id henabled => ?_⟩
    have hall : ∀ id ∈ keys s.rows, isEnabled s.rows id → hasJob s.aps id ∨
        ∃ c' ∈ put s.calls i none, c'.owes id := by
      simpa [keeps,show s.started = true from hstart,or_assoc,imp_iff_not_or] using hkeeps
    exact hall id (mem_keys_of_isEnabled henabled) henabled
  | restart =>
    cases hs
    exact inv_idle h.tables.nodup h.tables.fits

/-- When no call is in flight after such a run, the registered jobs are the enabled ones
exactly when the scheduler has been started or no job is enabled. -/
theorem agrees_at_rest_iff {as : List Action}
    (h : Run (step cron) (fun s a => keeps s a = true) init as s) (hrest : s.calls = []) :
    Agrees s ↔ s.started = true ∨ ∀ id, isEnabled s.rows id = false := by
  have hinv := h.invariant (fun s a t hkeeps hs hi => inv_step hi hkeeps hs) inv_init
  have hcovered : s.started → ∀ id, isEnabled s.rows id → hasJob s.aps id := by
    intro hstart id henabled
    rcases hinv.covered hstart id henabled with hjob | ⟨c,hc,-⟩
    · exact hjob
    · rw [hrest] at hc
      cases hc
  constructor
  · intro hagrees
    by_contra hnot
    obtain ⟨hstart,hsome⟩ := not_or.mp hnot
    refine hsome fun id => ?_
    rw [← hagrees id]
    by_contra hjob
    exact hstart (hinv.tables.idle id (Bool.not_eq_false _ ▸ hjob))
  · intro hcond id
    rw [Bool.eq_iff_iff]
    refine ⟨hinv.tables.sound id,fun henabled => ?_⟩
    rcases hcond with hstart | hnone
    · exact hcovered hstart id henabled
    · rw [hnone id] at henabled
      cases henabled

/-- A cron that fires on the minute, asked on the minute. -/
def everyMinute : Cron := ⟨fun expr => expr = lit "* * * * *",fun _ now => some (some now)⟩

def addJob : Request :=
  .add (lit "x") (lit "* * * * *") none true (lit "a") (lit "2026-01-01T00:00:00Z")
    (lit "2026-01-01T00:00:00Z")

def jobId : PyStr := lit "job_a"

/-- The job is added, and the scheduler is started while that call waits for its row. -/
def startWhileAdding : List Action :=
  [.call addJob,.resume 0,.call .start,.resume 0,.resume 0,.resume 1,.resume 0,.resume 0]

theorem agrees_startWhileAdding : Agrees (last (step everyMinute) init startWhileAdding) := by
  have hrun : Run (step everyMinute) (fun s a => keeps s a = true) init startWhileAdding
      (last (step everyMinute) init startWhileAdding) := run_of_checked rfl
  exact (agrees_at_rest_iff hrun rfl).mpr (.inl rfl)

/-- The job is disabled and enabled at once. The second call has registered the job by the
time the first one writes that the job is disabled. -/
def disableWhileEnabling : List Action :=
  [.call .start,.resume 0,.call addJob,.resume 0,.resume 0,.resume 0,.resume 0,.resume 0,
    .call (.enable jobId),.resume 0,.call (.disable jobId),.resume 0,.resume 0,.resume 0]

theorem disableWhileEnabling_disagrees : ¬∀ as s, Run (step everyMinute) always init as s →
    s.calls = [] → s.started = true → Agrees s := by
  intro h
  have hagrees := h disableWhileEnabling _ (run_last (by decide +kernel)) (by decide +kernel)
    (by decide +kernel) jobId
  have hjob : hasJob (last (step everyMinute) init disableWhileEnabling).aps jobId = true := by
    decide +kernel
  have hrow : isEnabled (last (step everyMinute) init disableWhileEnabling).rows jobId = false := by
    decide +kernel
  rw [hjob,hrow] at hagrees
  cases hagrees

end MinimaxCode.JobScheduler
