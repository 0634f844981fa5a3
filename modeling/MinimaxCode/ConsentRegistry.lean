import MinimaxCode.OrderedDict
import MinimaxCode.Pool
import MinimaxCode.PyJson
import MinimaxCode.Runs

/-!
# The consent registry

Each run of a session has a gater, which keeps the consent requests of the run; the server
finds the gaters by session, and the last one in a slot of its own. Runs, requests, answers
and timeouts take their steps in any order.
-/

namespace MinimaxCode.ConsentRegistry

open PyText PyJson OrderedDict Pool Runs

inductive Future
  | pending
  | result (decision : Bool)
  deriving DecidableEq

structure PendingRequest where
  tool : PyStr
  args : List (PyStr × Json)
  future : Future

/-- A gater, by its number, and the identifier of a request. -/
abbrev Key := ℕ × PyStr

inductive Stage
  | emitting
  | waiting
  deriving DecidableEq

/-- A call of `request_consent` in flight. -/
structure Call where
  key : Key
  stage : Stage

/-- A run with its gater; it has started when it is inside the block that unregisters. -/
structure LiveRun where
  session : PyStr
  gater : ℕ
  started : Bool

/-- The maps of all gaters are one, by gater and identifier. Beside them stand the requests
that an answer has allowed in time and those whose call has returned `True`. -/
structure State where
  gaters : ℕ
  registry : List (PyStr × ℕ)
  legacy : Option ℕ
  pending : List (Key × PendingRequest)
  runs : List LiveRun
  calls : List Call
  delivered : List Key
  allowed : List Key

def start : State := ⟨0,[],none,[],[],[],[],[]⟩

def State.future (s : State) (key : Key) : Option Future :=
  (lookup s.pending key).map PendingRequest.future

/-- `resolve` on a request that the gater has; a future that is done stays as it is. -/
def settle (pending : List (Key × PendingRequest)) (key : Key) (decision : Bool) :
    List (Key × PendingRequest) :=
  match lookup pending key with
  | some p =>
    match p.future with
    | .pending => assign pending key { p with future := .result decision }
    | .result _ => pending
  | none => pending

def cancelAll (pending : List (Key × PendingRequest)) (g : ℕ) : List (Key × PendingRequest) :=
  ((keys pending).filter fun key => key.1 = g).foldl (fun d key => settle d key false) pending

def registerGater (s : State) (session : PyStr) (g : ℕ) : State :=
  { s with registry := assign s.registry session g, legacy := some g }

def unregisterGater (s : State) (session : PyStr) : State :=
  match lookup s.registry session with
  | some g =>
    { s with
      registry := remove s.registry session
      legacy := if s.legacy = some g then none else s.legacy }
  | none => s

/-- The first gater that recognises the request: those of the sessions in order, then the
one in the slot. -/
def claimant (s : State) (id : PyStr) : Option ℕ :=
  (s.registry.map Prod.snd++s.legacy.toList).find? fun g => (lookup s.pending (g,id)).isSome

def resolveAnyGater (s : State) (id : PyStr) (decision : Bool) : Bool × State :=
  match claimant s id with
  | some g =>
    let delivered :=
      if decision && s.future (g,id) = some .pending then s.delivered++[(g,id)] else s.delivered
    (true,{ s with pending := settle s.pending (g,id) decision, delivered := delivered })
  | none => (false,s)

inductive Action
  /-- A run creates its gater and registers it. -/
  | begin (session : PyStr)
  | enter (i : ℕ)
  /-- An exception or a cancellation before the block that unregisters. -/
  | escape (i : ℕ)
  | finish (i : ℕ)
  | request (i : ℕ) (id tool : PyStr) (args : List (PyStr × Json))
  | emitted (j : ℕ)
  | emitFails (j : ℕ)
  | emitCancelled (j : ℕ)
  | decide (j : ℕ)
  /-- A wait times out or is cancelled. -/
  | giveUp (j : ℕ)
  | resolve (id : PyStr) (decision : Bool)
  | cancelAll (g : ℕ)

/-- A call that ends behind `_forget`. -/
def forget (s : State) (j : ℕ) (c : Call) : State :=
  { s with pending := remove s.pending c.key, calls := put s.calls j none }

def withRun (s : State) (i : ℕ) (started : Bool) (f : LiveRun → Option State) : Option State :=
  s.runs[i]?.bind fun r => if r.started = started then f r else none

def withCall (s : State) (j : ℕ) (stage : Stage) (f : Call → Option State) : Option State :=
  s.calls[j]?.bind fun c => if c.stage = stage then f c else none

/-- A run ends when its requests have. Identifiers are new. -/
def step (s : State) : Action → Option State
  | .begin session =>
    some { registerGater s session s.gaters with
      gaters := s.gaters+1, runs := s.runs++[⟨session,s.gaters,false⟩] }
  | .enter i => withRun s i false fun r =>
    some { s with runs := put s.runs i (some { r with started := true }) }
  | .escape i => withRun s i false fun _ => some { s with runs := put s.runs i none }
  | .finish i => withRun s i true fun r =>
    if s.calls.any fun c => c.key.1 = r.gater then none
    else some { unregisterGater s r.session with runs := put s.runs i none }
  | .request i id tool args => withRun s i true fun r =>
    if (keys s.pending).any fun key => key.2 = id then none
    else some { s with
      pending := assign s.pending (r.gater,id) ⟨tool,args,.pending⟩
      calls := s.calls++[⟨(r.gater,id),.emitting⟩] }
  | .emitted j => withCall s j .emitting fun c =>
    some { s with calls := put s.calls j (some { c with stage := .waiting }) }
  | .emitFails j => withCall s j .emitting fun c => some (forget s j c)
  | .emitCancelled j => withCall s j .emitting fun _ => some { s with calls := put s.calls j none }
  | .decide j => withCall s j .waiting fun c =>
    match s.future c.key with
    | some (.result decision) =>
      some { forget s j c with allowed := if decision then s.allowed++[c.key] else s.allowed }
    | _ => none
  | .giveUp j => withCall s j .waiting fun c => some (forget s j c)
  | .resolve id decision => some (resolveAnyGater s id decision).2
  | .cancelAll g => some { s with pending := cancelAll s.pending g }

/-- A call returns `True` only for a request that was allowed in time; each request in flight
is on record, and an answer through the registry reaches it; nothing is on record for a
request or a run that has ended. -/
structure Safe (s : State) : Prop where
  honest : ∀ key ∈ s.allowed, key ∈ s.delivered
  found : ∀ c ∈ s.calls, (s.future c.key).isSome ∧ (s.future c.key = some .pending →
    ∀ decision, (resolveAnyGater s c.key.2 decision).1 = true ∧
      (resolveAnyGater s c.key.2 decision).2.future c.key = some (.result decision))
  clean : ∀ key, (s.future key).isSome → ∃ c ∈ s.calls, c.key = key
  live : ∀ session g, lookup s.registry session = some g → ∃ r ∈ s.runs, r.session = session ∧ r.gater = g
  slot : ∀ g, s.legacy = some g → ∃ r ∈ s.runs, r.gater = g

/-- No run of a session begins while another one is live; no exception or cancellation comes
between the registration of a run and the block that unregisters it, and no cancellation
while a request is being emitted. -/
def Orderly (s : State) : Action → Prop
  | .begin session => ∀ r ∈ s.runs, r.session ≠ session
  | .escape _ => False
  | .emitCancelled _ => False
  | _ => True

section Proofs

variable {s t : State} {key key' : Key} {pending : List (Key × PendingRequest)}

/-- The future on record in the maps of the gaters. -/
def futureIn (pending : List (Key × PendingRequest)) (key : Key) : Option Future :=
  (lookup pending key).map PendingRequest.future

theorem futureIn_assign (p : PendingRequest) : futureIn (assign pending key p) key' =
    if key = key' then some p.future else futureIn pending key' := by
  rw [futureIn,lookup_assign]
  split <;> rfl

theorem futureIn_remove : futureIn (remove pending key) key' =
    if key = key' then none else futureIn pending key' := by
  rw [futureIn,lookup_remove]
  split <;> rfl

theorem futureIn_settle (decision : Bool) : futureIn (settle pending key decision) key' =
    if key = key' ∧ futureIn pending key = some .pending then some (.result decision)
    else futureIn pending key' := by
  cases hp : lookup pending key with
  | none =>
    have hfuture : futureIn pending key = none := by rw [futureIn,hp,Option.map_none]
    rw [settle,hp,if_neg (by rw [hfuture]; nofun)]
  | some p =>
    have hfuture : futureIn pending key = some p.future := by rw [futureIn,hp,Option.map_some]
    rw [settle,hp,hfuture]
    dsimp only
    cases hf : p.future with
    | pending =>
      dsimp only
      rw [futureIn_assign]
      simp only [and_true]
    | result d => rw [if_neg (by simp)]

theorem isSome_futureIn_settle (decision : Bool) :
    (futureIn (settle pending key decision) key').isSome = (futureIn pending key').isSome := by
  rw [futureIn_settle]
  split
  · next h => rw [← h.1,h.2]; rfl
  · rfl

theorem futureIn_cancelAll (g : ℕ) (key : Key) :
    (futureIn (cancelAll pending g) key).isSome = (futureIn pending key).isSome ∧
      (futureIn (cancelAll pending g) key = some (.result true) →
        futureIn pending key = some (.result true)) := by
  rw [cancelAll]
  generalize (keys pending).filter (fun key => key.1 = g) = ks
  induction ks generalizing pending with
  | nil => exact ⟨rfl,id⟩
  | cons k ks ih =>
    rw [List.foldl_cons]
    obtain ⟨hsome,htrue⟩ := @ih (settle pending k false)
    rw [isSome_futureIn_settle] at hsome
    refine ⟨hsome,fun h => ?_⟩
    have hsettled := htrue h
    rw [futureIn_settle] at hsettled
    split at hsettled
    · cases hsettled
    · exact hsettled

/-- What the registry and the slot have to do with the live runs. -/
structure Registered (gaters : ℕ) (registry : List (PyStr × ℕ)) (legacy : Option ℕ)
    (runs : List LiveRun) : Prop where
  sessions : (runs.map LiveRun.session).Nodup
  distinct : (runs.map LiveRun.gater).Nodup
  created : ∀ r ∈ runs, r.gater < gaters
  found : ∀ r ∈ runs, lookup registry r.session = some r.gater
  live : ∀ session g, lookup registry session = some g → ∃ r ∈ runs, r.session = session ∧ r.gater = g
  slot : ∀ g, legacy = some g → ∃ r ∈ runs, r.gater = g

namespace Registered

variable {gaters : ℕ} {registry : List (PyStr × ℕ)} {legacy : Option ℕ} {runs : List LiveRun}

theorem begin (h : Registered gaters registry legacy runs) {session : PyStr}
    (hnew : ∀ r ∈ runs, r.session ≠ session) :
    Registered (gaters+1) (assign registry session gaters) (some gaters)
      (runs++[⟨session,gaters,false⟩]) := by
  have hlast : (⟨session,gaters,false⟩ : LiveRun) ∈ runs++[⟨session,gaters,false⟩] :=
    List.mem_append_right _ (List.mem_singleton_self _)
  refine ⟨?_,?_,fun r hr => ?_,fun r hr => ?_,fun session' g hg => ?_,fun g hg => ?_⟩
  · rw [List.map_append,List.map_singleton,← List.concat_eq_append]
    refine List.Nodup.concat (fun hmem => ?_) h.sessions
    obtain ⟨r,hr,heq⟩ := List.mem_map.mp hmem
    exact hnew r hr heq
  · rw [List.map_append,List.map_singleton,← List.concat_eq_append]
    refine List.Nodup.concat (fun hmem => ?_) h.distinct
    obtain ⟨r,hr,heq⟩ := List.mem_map.mp hmem
    exact Nat.lt_irrefl _ (heq ▸ h.created r hr)
  · rcases List.mem_append.mp hr with hr | hr
    · exact Nat.lt_succ_of_lt (h.created r hr)
    · rw [List.mem_singleton.mp hr]
      exact Nat.lt_succ_self _
  · rw [lookup_assign]
    rcases List.mem_append.mp hr with hr | hr
    · rw [if_neg (hnew r hr).symm]
      exact h.found r hr
    · rw [List.mem_singleton.mp hr]
      exact if_pos rfl
  · rw [lookup_assign] at hg
    split at hg
    · next heq => exact ⟨_,hlast,heq,Option.some.inj hg⟩
    · obtain ⟨r,hr,hlive⟩ := h.live session' g hg
      exact ⟨r,List.mem_append_left _ hr,hlive⟩
  · exact ⟨_,hlast,Option.some.inj hg⟩

theorem enter (h : Registered gaters registry legacy runs) {i : ℕ} {r : LiveRun}
    (hi : runs[i]? = some r) :
    Registered gaters registry legacy (put runs i (some { r with started := true })) := by
  have hr := List.mem_of_getElem? hi
  refine ⟨?_,?_,fun r' hr' => ?_,fun r' hr' => ?_,fun session g hg => ?_,fun g hg => ?_⟩
  · have hnames : (put runs i (some { r with started := true })).map LiveRun.session =
        runs.map LiveRun.session := map_put_some hi rfl
    rw [hnames]
    exact h.sessions
  · have hnames : (put runs i (some { r with started := true })).map LiveRun.gater =
        runs.map LiveRun.gater := map_put_some hi rfl
    rw [hnames]
    exact h.distinct
  · rcases mem_put_some hr' with rfl | hr'
    · exact h.created r hr
    · exact h.created r' hr'
  · rcases mem_put_some hr' with rfl | hr'
    · exact h.found r hr
    · exact h.found r' hr'
  · obtain ⟨r',hr',hlive⟩ := h.live session g hg
    exact exists_mem_put hi id hr' hlive
  · obtain ⟨r',hr',hgater⟩ := h.slot g hg
    exact exists_mem_put hi id hr' hgater

theorem finish (h : Registered gaters registry legacy runs) {i : ℕ} {r : LiveRun}
    (hi : runs[i]? = some r) : Registered gaters (remove registry r.session)
      (if legacy = some r.gater then none else legacy) (put runs i none) := by
  have hother : ∀ r' ∈ runs, r'.gater ≠ r.gater → r' ∈ put runs i none := fun r' hr' hne =>
    mem_put_of_ne hi hr' fun heq => hne (heq ▸ rfl)
  refine ⟨nodup_put_none h.sessions i,nodup_put_none h.distinct i,
    fun r' hr' => h.created r' (mem_put_none hr'),fun r' hr' => ?_,fun session g hg => ?_,fun g hg => ?_⟩
  · rw [lookup_remove,if_neg (ne_of_mem_put_none h.sessions hi hr').symm]
    exact h.found r' (mem_put_none hr')
  · rw [lookup_remove] at hg
    split at hg
    · cases hg
    · next hne =>
      obtain ⟨r',hr',hsession,hgater⟩ := h.live session g hg
      refine ⟨r',mem_put_of_ne hi hr' fun heq => hne ?_,hsession,hgater⟩
      rw [← heq,hsession]
  · split at hg
    · cases hg
    · next hne =>
      obtain ⟨r',hr',hgater⟩ := h.slot g hg
      refine ⟨r',hother r' hr' fun heq => hne ?_,hgater⟩
      rw [hg,← hgater,heq]

end Registered

/-- What the maps of the gaters have to do with the requests in flight. -/
structure Tracked (pending : List (Key × PendingRequest)) (calls : List Call) (runs : List LiveRun) :
    Prop where
  ids : (calls.map fun c => c.key.2).Nodup
  owned : ∀ c ∈ calls, (futureIn pending c.key).isSome ∧ ∃ r ∈ runs, r.gater = c.key.1
  clean : ∀ key, (futureIn pending key).isSome → ∃ c ∈ calls, c.key = key

namespace Tracked

variable {calls : List Call} {runs runs' : List LiveRun}

theorem withRuns (h : Tracked pending calls runs)
    (hruns : ∀ c ∈ calls, ∀ r ∈ runs, r.gater = c.key.1 → ∃ r' ∈ runs', r'.gater = c.key.1) :
    Tracked pending calls runs' := by
  refine ⟨h.ids,fun c hc => ?_,h.clean⟩
  obtain ⟨hsome,r,hr,hgater⟩ := h.owned c hc
  exact ⟨hsome,hruns c hc r hr hgater⟩

theorem withFutures {pending' : List (Key × PendingRequest)} (h : Tracked pending calls runs)
    (hsame : ∀ key, (futureIn pending' key).isSome = (futureIn pending key).isSome) :
    Tracked pending' calls runs := by
  refine ⟨h.ids,fun c hc => ?_,fun key hkey => h.clean key ?_⟩
  · rw [hsame]
    exact h.owned c hc
  · rw [← hsame]
    exact hkey

theorem request (h : Tracked pending calls runs) {r : LiveRun} (hr : r ∈ runs) {id : PyStr}
    (hnew : ¬((keys pending).any fun key => key.2 = id) = true) (p : PendingRequest) :
    Tracked (assign pending (r.gater,id) p) (calls++[⟨(r.gater,id),.emitting⟩]) runs := by
  have hother : ∀ key, (futureIn pending key).isSome → key.2 ≠ id := by
    intro key hkey heq
    rw [futureIn,Option.isSome_map] at hkey
    obtain ⟨p',hp'⟩ := Option.isSome_iff_exists.mp hkey
    refine hnew (List.any_eq_true.mpr ⟨key,List.mem_map_of_mem (mem_of_lookup hp'),?_⟩)
    exact decide_eq_true heq
  refine ⟨?_,fun c hc => ?_,fun key hkey => ?_⟩
  · rw [List.map_append,List.map_singleton,← List.concat_eq_append]
    refine List.Nodup.concat (fun hmem => ?_) h.ids
    obtain ⟨c,hc,heq⟩ := List.mem_map.mp hmem
    exact hother c.key (h.owned c hc).1 heq
  · rw [futureIn_assign]
    rcases List.mem_append.mp hc with hc | hc
    · obtain ⟨hsome,hlive⟩ := h.owned c hc
      rw [if_neg fun heq : (r.gater,id) = c.key => hother c.key hsome (congrArg Prod.snd heq).symm]
      exact ⟨hsome,hlive⟩
    · rw [List.mem_singleton.mp hc]
      exact ⟨by rw [if_pos rfl]; rfl,r,hr,rfl⟩
  · rw [futureIn_assign] at hkey
    split at hkey
    · next heq => exact ⟨_,List.mem_append_right _ (List.mem_singleton_self _),heq⟩
    · obtain ⟨c,hc,heq⟩ := h.clean key hkey
      exact ⟨c,List.mem_append_left _ hc,heq⟩

theorem emitted (h : Tracked pending calls runs) {j : ℕ} {c : Call} (hj : calls[j]? = some c) :
    Tracked pending (put calls j (some { c with stage := .waiting })) runs := by
  have hnames : (put calls j (some { c with stage := .waiting })).map (fun c => c.key.2) =
      calls.map fun c => c.key.2 := map_put_some hj rfl
  refine ⟨by rw [hnames]; exact h.ids,fun c' hc' => ?_,fun key hkey => ?_⟩
  · rcases mem_put_some hc' with rfl | hc'
    · exact h.owned c (List.mem_of_getElem? hj)
    · exact h.owned c' hc'
  · obtain ⟨c',hc',heq⟩ := h.clean key hkey
    exact exists_mem_put hj id hc' heq

theorem forget (h : Tracked pending calls runs) {j : ℕ} {c : Call} (hj : calls[j]? = some c) :
    Tracked (remove pending c.key) (put calls j none) runs := by
  refine ⟨nodup_put_none h.ids j,fun c' hc' => ?_,fun key hkey => ?_⟩
  · have hne := ne_of_mem_put_none (f := fun c : Call => c.key.2) h.ids hj hc'
    rw [futureIn_remove,if_neg fun heq : c.key = c'.key => hne (congrArg Prod.snd heq).symm]
    exact h.owned c' (mem_put_none hc')
  · rw [futureIn_remove] at hkey
    split at hkey
    · cases hkey
    · next hne =>
      obtain ⟨c',hc',heq⟩ := h.clean key hkey
      exact ⟨c',mem_put_of_ne hj hc' fun hsame => hne (hsame ▸ heq),heq⟩

end Tracked

theorem claimant_eq (hruns : Registered s.gaters s.registry s.legacy s.runs)
    (hcalls : Tracked s.pending s.calls s.runs) {c : Call} (hc : c ∈ s.calls) :
    claimant s c.key.2 = some c.key.1 := by
  obtain ⟨hsome,r,hr,hgater⟩ := hcalls.owned c hc
  rw [futureIn,Option.isSome_map] at hsome
  have hmem : c.key.1 ∈ s.registry.map Prod.snd++s.legacy.toList := by
    refine List.mem_append_left _ (List.mem_map.mpr ⟨_,mem_of_lookup (hruns.found r hr),hgater⟩)
  have hfound : (claimant s c.key.2).isSome := List.find?_isSome.mpr ⟨c.key.1,hmem,hsome⟩
  obtain ⟨g,hg⟩ := Option.isSome_iff_exists.mp hfound
  have howns := List.find?_some hg
  -- Identifiers are not shared, so a gater that has this one is the gater of the call.
  obtain ⟨c',hc',heq⟩ := hcalls.clean (g,c.key.2) (by rwa [futureIn,Option.isSome_map])
  have hsame : c' = c := List.inj_on_of_nodup_map hcalls.ids hc' hc (by rw [heq])
  rw [hg,← hsame,heq]

theorem resolve_found (hruns : Registered s.gaters s.registry s.legacy s.runs)
    (hcalls : Tracked s.pending s.calls s.runs) {c : Call} (hc : c ∈ s.calls)
    (hpending : s.future c.key = some .pending) (decision : Bool) :
    (resolveAnyGater s c.key.2 decision).1 = true ∧
      (resolveAnyGater s c.key.2 decision).2.future c.key = some (.result decision) := by
  rw [resolveAnyGater,claimant_eq hruns hcalls hc]
  exact ⟨rfl,(futureIn_settle decision).trans (if_pos ⟨rfl,hpending⟩)⟩

/-- A request that was allowed, on record or as a result, was allowed in time. -/
structure Delivered (s : State) : Prop where
  recorded : ∀ key, s.future key = some (.result true) → key ∈ s.delivered
  returned : ∀ key ∈ s.allowed, key ∈ s.delivered

structure Inv (s : State) : Prop where
  runs : Registered s.gaters s.registry s.legacy s.runs
  calls : Tracked s.pending s.calls s.runs

theorem safe_of_inv (h : Inv s) (hdelivered : Delivered s) : Safe s :=
  ⟨hdelivered.returned,fun c hc => ⟨(h.calls.owned c hc).1,fun hpending =>
    resolve_found h.runs h.calls hc hpending⟩,h.calls.clean,h.runs.live,h.runs.slot⟩

theorem withRun_some {i : ℕ} {started : Bool} {f : LiveRun → Option State}
    (h : withRun s i started f = some t) : ∃ r, s.runs[i]? = some r ∧ f r = some t := by
  obtain ⟨r,hi,hr⟩ := Option.bind_eq_some_iff.mp h
  split at hr
  · exact ⟨r,hi,hr⟩
  · cases hr

theorem withCall_some {j : ℕ} {stage : Stage} {f : Call → Option State}
    (h : withCall s j stage f = some t) : ∃ c, s.calls[j]? = some c ∧ f c = some t := by
  obtain ⟨c,hj,hc⟩ := Option.bind_eq_some_iff.mp h
  split at hc
  · exact ⟨c,hj,hc⟩
  · cases hc

theorem resolve_state (s : State) (id : PyStr) (decision : Bool) :
    (resolveAnyGater s id decision).2 = s ∨ ∃ g, (resolveAnyGater s id decision).2 =
      { s with
        pending := settle s.pending (g,id) decision
        delivered := if decision && s.future (g,id) = some .pending then s.delivered++[(g,id)]
          else s.delivered } := by
  rw [resolveAnyGater]
  split
  · next g hg => exact .inr ⟨g,rfl⟩
  · exact .inl rfl

namespace Delivered

theorem mono (h : Delivered s) (hfuture : ∀ key, t.future key = some (.result true) →
    s.future key = some (.result true)) (hdelivered : t.delivered = s.delivered)
    (hallowed : t.allowed = s.allowed) : Delivered t :=
  ⟨fun key hkey => hdelivered ▸ h.recorded key (hfuture key hkey),
    fun key hkey => hdelivered ▸ h.returned key (hallowed ▸ hkey)⟩

theorem forget (h : Delivered s) (j : ℕ) (c : Call) : Delivered (ConsentRegistry.forget s j c) := by
  refine h.mono (fun key hkey => ?_) rfl rfl
  rw [State.future,← futureIn,ConsentRegistry.forget,futureIn_remove] at hkey
  split at hkey
  · cases hkey
  · exact hkey

theorem resolve (h : Delivered s) (id : PyStr) (decision : Bool) :
    Delivered (resolveAnyGater s id decision).2 := by
  rcases resolve_state s id decision with hsame | ⟨g,hset⟩
  · rw [hsame]
    exact h
  rw [hset]
  have hgrows : ∀ key ∈ s.delivered, key ∈ if decision && s.future (g,id) = some .pending then
      s.delivered++[(g,id)] else s.delivered := by
    intro key hkey
    split
    · exact List.mem_append_left _ hkey
    · exact hkey
  refine ⟨fun key hkey => ?_,fun key hkey => hgrows key (h.returned key hkey)⟩
  rw [State.future,← futureIn,futureIn_settle] at hkey
  split at hkey
  · next heq =>
    obtain ⟨rfl,hpending⟩ := heq
    cases hkey
    have hfuture : s.future (g,id) = some .pending := hpending
    dsimp only
    rw [hfuture,if_pos (by simp)]
    exact List.mem_append_right _ (List.mem_singleton_self _)
  · exact hgrows key (h.recorded key hkey)

end Delivered

theorem delivered_step {a : Action} (h : step s a = some t) (hs : Delivered s) : Delivered t := by
  cases a with
  | begin session =>
    cases h
    exact hs.mono (fun _ hkey => hkey) rfl rfl
  | enter i =>
    obtain ⟨r,-,hr⟩ := withRun_some h
    cases hr
    exact hs.mono (fun _ hkey => hkey) rfl rfl
  | escape i =>
    obtain ⟨r,-,hr⟩ := withRun_some h
    cases hr
    exact hs.mono (fun _ hkey => hkey) rfl rfl
  | finish i =>
    obtain ⟨r,-,hr⟩ := withRun_some h
    split at hr
    · cases hr
    · cases hr
      rw [unregisterGater]
      split <;> exact hs.mono (fun _ hkey => hkey) rfl rfl
  | request i id tool args =>
    obtain ⟨r,-,hr⟩ := withRun_some h
    split at hr
    · cases hr
    · cases hr
      refine hs.mono (fun key hkey => ?_) rfl rfl
      rw [State.future,← futureIn,futureIn_assign] at hkey
      split at hkey
      · cases hkey
      · exact hkey
  | emitted j =>
    obtain ⟨c,-,hc⟩ := withCall_some h
    cases hc
    exact hs.mono (fun _ hkey => hkey) rfl rfl
  | emitFails j =>
    obtain ⟨c,-,hc⟩ := withCall_some h
    cases hc
    exact hs.forget j c
  | emitCancelled j =>
    obtain ⟨c,-,hc⟩ := withCall_some h
    cases hc
    exact hs.mono (fun _ hkey => hkey) rfl rfl
  | decide j =>
    obtain ⟨c,-,hc⟩ := withCall_some h
    split at hc
    · next decision hfuture =>
      cases hc
      obtain ⟨hrecorded,hreturned⟩ := hs.forget j c
      refine ⟨hrecorded,fun key hkey => ?_⟩
      dsimp only at hkey
      split at hkey
      · next htrue =>
        rcases List.mem_append.mp hkey with hkey | hkey
        · exact hreturned key hkey
        · rw [List.mem_singleton.mp hkey]
          exact hs.recorded c.key (htrue ▸ hfuture)
      · exact hreturned key hkey
    · cases hc
  | giveUp j =>
    obtain ⟨c,-,hc⟩ := withCall_some h
    cases hc
    exact hs.forget j c
  | resolve id decision =>
    cases h
    exact hs.resolve id decision
  | cancelAll g =>
    cases h
    exact hs.mono (fun key hkey => (futureIn_cancelAll g key).2 hkey) rfl rfl

theorem inv_step {a : Action} (h : step s a = some t) (horderly : Orderly s a) (hs : Inv s) : Inv t := by
  obtain ⟨hruns,hcalls⟩ := hs
  cases a with
  | begin session =>
    cases h
    exact ⟨hruns.begin horderly,
      hcalls.withRuns fun _ _ r hr hgater => ⟨r,List.mem_append_left _ hr,hgater⟩⟩
  | enter i =>
    obtain ⟨r,hi,hr⟩ := withRun_some h
    cases hr
    exact ⟨hruns.enter hi,hcalls.withRuns fun _ _ _ hr' hgater => exists_mem_put hi id hr' hgater⟩
  | escape i => exact horderly.elim
  | finish i =>
    obtain ⟨r,hi,hr⟩ := withRun_some h
    split at hr
    · cases hr
    next hidle =>
    cases hr
    rw [unregisterGater,hruns.found r (List.mem_of_getElem? hi)]
    refine ⟨hruns.finish hi,hcalls.withRuns fun c hc r' hr' hgater => ?_⟩
    have hmem : r' ∈ put s.runs i none := by
      refine mem_put_of_ne hi hr' fun heq => hidle ?_
      exact List.any_eq_true.mpr ⟨c,hc,decide_eq_true (by rw [← hgater,heq])⟩
    exact ⟨r',hmem,hgater⟩
  | request i id tool args =>
    obtain ⟨r,hi,hr⟩ := withRun_some h
    split at hr
    · cases hr
    · next hnew =>
      cases hr
      exact ⟨hruns,hcalls.request (List.mem_of_getElem? hi) hnew _⟩
  | emitted j =>
    obtain ⟨c,hj,hc⟩ := withCall_some h
    cases hc
    exact ⟨hruns,hcalls.emitted hj⟩
  | emitFails j =>
    obtain ⟨c,hj,hc⟩ := withCall_some h
    cases hc
    exact ⟨hruns,hcalls.forget hj⟩
  | emitCancelled j => exact horderly.elim
  | decide j =>
    obtain ⟨c,hj,hc⟩ := withCall_some h
    split at hc
    · cases hc
      exact ⟨hruns,hcalls.forget hj⟩
    · cases hc
  | giveUp j =>
    obtain ⟨c,hj,hc⟩ := withCall_some h
    cases hc
    exact ⟨hruns,hcalls.forget hj⟩
  | resolve id decision =>
    cases h
    rcases resolve_state s id decision with hsame | ⟨g,hset⟩
    · rw [hsame]
      exact ⟨hruns,hcalls⟩
    · rw [hset]
      exact ⟨hruns,hcalls.withFutures fun _ => isSome_futureIn_settle decision⟩
  | cancelAll g =>
    cases h
    exact ⟨hruns,hcalls.withFutures fun key => (futureIn_cancelAll g key).1⟩

theorem delivered_start : Delivered start := ⟨nofun,nofun⟩

theorem inv_start : Inv start :=
  ⟨⟨List.nodup_nil,List.nodup_nil,nofun,nofun,nofun,nofun⟩,⟨List.nodup_nil,nofun,nofun⟩⟩

/-- On every run a call returns `True` only for a request that was allowed in time. -/
theorem allowed_delivered {as : List Action} (h : Run step always start as s) :
    ∀ key ∈ s.allowed, key ∈ s.delivered :=
  (h.invariant (fun _ _ _ _ hst hs => delivered_step hst hs) delivered_start).returned

/-- An orderly run is safe in every state. -/
theorem safe_run {as : List Action} (h : Run step Orderly start as s) : Safe s :=
  safe_of_inv (h.invariant (fun _ _ _ hok hst hs => inv_step hst hok hs) inv_start)
    (h.invariant (fun _ _ _ _ hst hs => delivered_step hst hs) delivered_start)

end Proofs

def ask (i : ℕ) (id : PyStr) : Action := .request i id (lit "exec") []

/-- Two sessions ask at the same time; one is answered, the other one is cancelled. -/
def twoSessions : List Action :=
  [.begin (lit "a"),.begin (lit "b"),.enter 0,.enter 1,ask 0 (lit "perm_1"),.emitted 0,
    ask 1 (lit "perm_2"),.emitted 1,.resolve (lit "perm_1") true,.decide 0,.giveUp 0,.finish 1]

theorem safe_twoSessions : Safe (last step start twoSessions) ∧
    (last step start twoSessions).allowed = [(0,lit "perm_1")] := by
  have hrun : Run step Orderly start twoSessions (last step start twoSessions) := by
    refine run_last_cons (fun _ h => nomatch h) rfl ?_
    refine run_last_cons (fun r h => ?_) rfl ?_
    · obtain rfl := List.mem_singleton.mp h
      decide
    iterate 10 refine run_last_cons trivial rfl ?_
    exact run_last_nil
  exact ⟨safe_run hrun,rfl⟩

theorem delivered_twoSessions : (0,lit "perm_1") ∈ (last step start twoSessions).delivered :=
  allowed_delivered (run_last rfl) _ (by decide)

/-- The second run of a session takes the place of the first one, and when it ends takes the
slot with it; a request of the first run cannot be answered. -/
def twoRuns : List Action :=
  [.begin (lit "a"),.enter 0,ask 0 (lit "perm_1"),.emitted 0,.begin (lit "a"),.enter 1,.finish 1]

theorem twoRuns_not_safe : ¬∀ as s, Run step always start as s → Safe s := by
  intro h
  have hsafe := h twoRuns _ (run_last rfl)
  have hfound := (hsafe.found ⟨(0,lit "perm_1"),.waiting⟩ (List.mem_singleton_self _)).2 rfl true
  exact Bool.false_ne_true hfound.1

end MinimaxCode.ConsentRegistry
