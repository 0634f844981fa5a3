import MinimaxCode.McpClient

/-!
# The demultiplexing of the MCP client

A request is to end once, with its own answer or an error of the client, no message is to
end the reader, and nothing is to wait in the table behind it. Every step that keeps this
meets a condition on the message or the call, and every step that meets it keeps it.
-/

namespace MinimaxCode.McpClient

open PyText PyJson Runs

/-- The bits of a float that is a whole number. -/
def isWhole (b : FiniteBits) : Bool :=
  let bits := b.val.toNat
  let exponent := bits/2^52%2^11
  let mantissa := bits%2^52+if exponent = 0 then 0 else 2^52
  decide (1075 ≤ exponent ∨ mantissa%2^(1075-exponent) = 0)

/-- The value is the number `id`. -/
def Carries (id : ℕ) : Json → Prop
  | .int n => n = id
  | .float (.finite bits) => isWhole bits = true ∧ bits.truncate = id
  | _ => False

/-- A request may end with the result or error that carries its id, with an error of the client, or
because its caller cancels it. -/
def Proper (id : ℕ) : Outcome → Prop
  | .result raw _ => Carries id raw
  | .serverError raw _ => Carries id raw
  | .raised => False
  | _ => True

structure Sound (s : Client) : Prop where
  futures : ∀ r ∈ s.requests, ∀ o, r.future = .done o → Proper r.id o
  outcomes : ∀ r ∈ s.requests, ∀ o, r.stage = .ended o → Proper r.id o
  reader : s.reader ≠ .ended .message ∧ s.reader ≠ .ended .handler
  settled : ∀ cause, s.reader = .ended cause → s.closing = false →
    s.pending = [] ∧ ∀ r ∈ s.requests, (∀ o, r.stage ≠ .ended o) → r.future.isUndone = false

/-- A message is one that the reader can read; a response for a future in the table carries its id and
has an error that is a dictionary or empty; no handler raises; no request is made after the reader
ended unless the client is closed; and sending fails with a transport error only. -/
def Keeps (codec : Codec) (s : Client) : Action → Prop
  | .request => s.closed = true ∨ ∀ cause, s.reader ≠ .ended cause
  | .sendFails _ isTransportError => isTransportError = true
  | .inbound msg handling =>
    match readMessage codec msg with
    | .raises => False
    | .response id raw answer => ∀ k : ℕ, (k : ℤ) = id → s.isOpen k = true →
      answer ≠ .malformed ∧ Carries k raw
    | .notification => handling ≠ .raises
    | .ignored => True
  | .handled raises => raises = false
  | _ => True

/-- What holds of a request beside a table with the keys `pending`. -/
structure Request.Fine (pending : List ℕ) (r : Request) : Prop where
  future : ∀ o, r.future = .done o → Proper r.id o
  outcome : ∀ o, r.stage = .ended o → Proper r.id o
  waits : (∀ o, r.stage ≠ .ended o) → r.future.isUndone = true → r.id ∈ pending

structure Inv (s : Client) : Prop where
  fine : ∀ r ∈ s.requests, r.Fine s.pending
  reader : s.reader ≠ .ended .message ∧ s.reader ≠ .ended .handler
  emptied : ∀ cause, s.reader = .ended cause → s.closing = false → s.pending = []
  cleaned : s.closed = true → s.closing = false → s.pending = []
  closing : s.closing = true → s.closed = true

variable {codec : Codec} {s t : Client} {r : Request} {pending : List ℕ} {id : ℕ}
  {f : Request → Request} {o : Outcome}

theorem Inv.sound (h : Inv s) : Sound s where
  futures r hr := (h.fine r hr).future
  outcomes r hr := (h.fine r hr).outcome
  reader := h.reader
  settled cause hcause hclosing := by
    have hpending := h.emptied cause hcause hclosing
    refine ⟨hpending,fun r hr hopen => ?_⟩
    by_contra hundone
    have hmem := (h.fine r hr).waits hopen (by simpa using hundone)
    rw [hpending] at hmem
    cases hmem

theorem Inv.new : Inv .new where
  fine r hr := by cases hr
  reader := ⟨Reader.noConfusion,Reader.noConfusion⟩
  emptied _ h := by cases h
  cleaned h := by cases h
  closing h := by cases h

namespace Request.Fine

theorem finish (h : r.Fine pending) {o : Outcome} (ho : Proper r.id o) (more : List ℕ) :
    (r.finish o).Fine more where
  future := h.future
  outcome o' heq := by
    cases heq
    exact ho
  waits hopen := absurd rfl (hopen o)

theorem wait (h : r.Fine pending) : r.wait.Fine pending := by
  rw [Request.wait]
  split
  · next hstage =>
    refine ⟨h.future,fun o ho => ?_,fun _ hundone => h.waits (fun o ho => ?_) hundone⟩
    · cases ho
    · rw [hstage] at ho
      cases ho
  · exact h

theorem resume (h : r.Fine pending) : r.resume.Fine pending := by
  rw [Request.resume]
  split
  · next hfuture => exact h.finish (h.future _ hfuture) pending
  · exact h

theorem abandon (h : r.Fine pending) : r.abandon.Fine pending := by
  rw [Request.abandon]
  split
  · refine ⟨fun o ho => ?_,h.outcome,fun _ hundone => ?_⟩
    · cases ho
    · cases hundone
  · exact h

theorem abandon_id : r.abandon.id = r.id := by
  rw [Request.abandon]
  split <;> rfl

theorem cancel (h : r.Fine pending) : r.cancel.Fine pending := by
  rw [Request.cancel]
  split
  · exact h.finish (o := .cancelled) trivial pending
  · exact h.abandon.finish (o := .cancelled) trivial pending
  · exact h

theorem resolve (h : r.Fine pending) {o : Outcome} (ho : Proper r.id o) (more : List ℕ) :
    (r.resolve o).Fine more := by
  rw [Request.resolve]
  split
  · refine ⟨fun o' heq => ?_,h.outcome,fun _ hundone => ?_⟩
    · cases heq
      exact ho
    · cases hundone
  · next hdone => exact ⟨h.future,h.outcome,fun _ hundone => absurd hundone hdone⟩

theorem keep (h : r.Fine pending) {more : List ℕ} (hmore : r.id ∈ pending → r.id ∈ more) :
    r.Fine more :=
  ⟨h.future,h.outcome,fun hopen hundone => hmore (h.waits hopen hundone)⟩

end Request.Fine

theorem mem_modify : r ∈ (s.modify id f).requests ↔
    ∃ q ∈ s.requests, (if q.id = id then f q else q) = r :=
  List.mem_map

theorem fine_modify_pop (h : ∀ r ∈ s.requests, r.Fine s.pending)
    (hf : ∀ r ∈ s.requests, r.id = id → (f r).Fine (s.pending.erase id)) :
    ∀ r ∈ ((s.pop id).modify id f).requests, r.Fine ((s.pop id).modify id f).pending := by
  intro r hr
  obtain ⟨q,hq,rfl⟩ := mem_modify.mp hr
  split
  · next hid => exact hf q hq hid
  · next hid => exact (h q hq).keep fun hmem => (List.mem_erase_of_ne hid).mpr hmem

theorem fine_modify (h : ∀ r ∈ s.requests, r.Fine s.pending)
    (hf : ∀ r ∈ s.requests, r.Fine s.pending → (f r).Fine s.pending) :
    ∀ r ∈ (s.modify id f).requests, r.Fine (s.modify id f).pending := by
  intro r hr
  obtain ⟨q,hq,rfl⟩ := mem_modify.mp hr
  split
  · exact hf q hq (h q hq)
  · exact h q hq

theorem fine_failPending (h : ∀ r ∈ s.requests, r.Fine s.pending) (ho : ∀ id, Proper id o) :
    ∀ r ∈ (s.failPending o).requests, r.Fine (s.failPending o).pending := by
  intro r hr
  obtain ⟨q,hq,rfl⟩ := List.mem_map.mp hr
  split
  · exact (h q hq).resolve (ho _) []
  · next hmem => exact (h q hq).keep fun hmem' => absurd hmem' hmem

theorem Inv.of_fine (h : Inv s) (hfine : ∀ r ∈ t.requests, r.Fine t.pending) (hreader : t.reader = s.reader)
    (hclosed : t.closed = s.closed) (hclosing : t.closing = s.closing)
    (hpending : t.pending.Sublist s.pending) : Inv t where
  fine := hfine
  reader := by
    rw [hreader]
    exact h.reader
  emptied cause hcause hc := by
    rw [hreader] at hcause
    rw [hclosing] at hc
    rw [h.emptied cause hcause hc] at hpending
    exact List.sublist_nil.mp hpending
  cleaned hcl hc := by
    rw [hclosed] at hcl
    rw [hclosing] at hc
    rw [h.cleaned hcl hc] at hpending
    exact List.sublist_nil.mp hpending
  closing := by
    rw [hclosed,hclosing]
    exact h.closing

theorem Inv.endReader (h : Inv s) {cause : Cause} (hmessage : cause ≠ .message) (hhandler : cause ≠ .handler) :
    Inv (s.endReader cause) where
  fine := fine_failPending h.fine fun _ => trivial
  reader := ⟨fun heq => hmessage (Reader.ended.inj heq),fun heq => hhandler (Reader.ended.inj heq)⟩
  emptied _ _ _ := rfl
  cleaned _ _ := rfl
  closing := h.closing

theorem isOpen_iff : s.isOpen id = true ↔
    id ∈ s.pending ∧ ∃ r ∈ s.requests, r.id = id ∧ r.future.isUndone = true := by
  simp [Client.isOpen,Client.someRequest]

theorem Inv.request (h : Inv s) (hk : Keeps codec s .request) : Inv s.request := by
  rw [Client.request]
  split
  · exact h.of_fine h.fine rfl rfl rfl (List.Sublist.refl _)
  · next hopen =>
    have hreader := hk.resolve_left hopen
    refine ⟨fun r hr => ?_,h.reader,fun cause hcause => absurd hcause (hreader cause),
      fun hclosed => absurd hclosed hopen,h.closing⟩
    rw [List.mem_append,List.mem_singleton] at hr
    obtain hr | rfl := hr
    · exact (h.fine r hr).keep fun hmem => List.mem_append_left _ hmem
    · refine ⟨fun o ho => ?_,fun o ho => ?_,fun _ _ => List.mem_append_right _ List.mem_cons_self⟩
      · cases ho
      · cases ho

theorem Inv.dispatchResponse (h : Inv s) {n : ℤ} {raw : Json} {answer : Answer}
    (hk : ∀ k : ℕ, (k : ℤ) = n → s.isOpen k = true → answer ≠ .malformed ∧ Carries k raw) :
    Inv (s.dispatchResponse n raw answer) := by
  rw [Client.dispatchResponse]
  split
  · exact h
  · next k hfind =>
    have hkn : (k : ℤ) = n := by simpa using List.find?_some hfind
    have hmem : k ∈ s.pending := List.mem_of_find?_eq_some hfind
    cases hopen : s.isOpen k with
    | true =>
      obtain ⟨hanswer,hcarries⟩ := hk k hkn hopen
      rw [if_pos rfl]
      cases answer with
      | malformed => exact absurd rfl hanswer
      | result v =>
        refine h.of_fine (fine_modify_pop h.fine fun r hr hid => ?_) rfl rfl rfl List.erase_sublist
        refine (h.fine r hr).resolve (o := .result raw v) ?_ _
        rw [hid]
        exact hcarries
      | serverError text =>
        refine h.of_fine (fine_modify_pop h.fine fun r hr hid => ?_) rfl rfl rfl List.erase_sublist
        refine (h.fine r hr).resolve (o := .serverError raw text) ?_ _
        rw [hid]
        exact hcarries
    | false =>
      rw [if_neg Bool.false_ne_true]
      refine h.of_fine (fun r hr => ?_) rfl rfl rfl List.erase_sublist
      refine ⟨(h.fine r hr).future,(h.fine r hr).outcome,fun hstage hundone => ?_⟩
      have hne : r.id ≠ k := by
        rintro rfl
        rw [isOpen_iff.mpr ⟨hmem,r,hr,rfl,hundone⟩] at hopen
        cases hopen
      exact (List.mem_erase_of_ne hne).mpr ((h.fine r hr).waits hstage hundone)

theorem Inv.receive (h : Inv s) {msg : Json} {handling : Handling} (hk : Keeps codec s (.inbound msg handling)) :
    Inv (s.receive codec msg handling) := by
  rw [Keeps] at hk
  unfold Client.receive
  cases hread : readMessage codec msg with
  | raises =>
    rw [hread] at hk
    exact hk.elim
  | response n raw answer =>
    rw [hread] at hk
    exact h.dispatchResponse hk
  | notification =>
    rw [hread] at hk
    cases handling with
    | returns => exact h
    | raises => exact absurd rfl hk
    | suspends =>
      refine ⟨h.fine,⟨Reader.noConfusion,Reader.noConfusion⟩,fun cause hcause => ?_,h.cleaned,h.closing⟩
      cases hcause
  | ignored => exact h

/-- A step that meets the condition keeps the invariant. -/
theorem Inv.step {a : Action} (h : Inv s) (hk : Keeps codec s a) (hs : s.step codec a = some t) : Inv t := by
  cases a with
  | start =>
    rw [Client.step] at hs
    split at hs
    · cases hs
      refine ⟨h.fine,⟨Reader.noConfusion,Reader.noConfusion⟩,fun cause hcause => ?_,h.cleaned,h.closing⟩
      cases hcause
    · cases hs
      exact h
  | request =>
    cases hs
    exact h.request hk
  | sent id =>
    rw [Client.step] at hs
    split at hs
    · cases hs
      exact h.of_fine (fine_modify h.fine fun r _ hr => hr.wait) rfl rfl rfl (List.Sublist.refl _)
    · cases hs
  | sendFails id isTransportError =>
    cases hk
    rw [Client.step] at hs
    split at hs
    · cases hs
      exact h.of_fine (fine_modify_pop h.fine fun r hr _ => (h.fine r hr).finish (o := .sendFailed) trivial _)
        rfl rfl rfl List.erase_sublist
    · cases hs
  | resumes id =>
    cases hs
    exact h.of_fine (fine_modify h.fine fun r _ hr => hr.resume) rfl rfl rfl (List.Sublist.refl _)
  | timesOut id =>
    rw [Client.step] at hs
    split at hs
    · cases hs
      exact h.of_fine (fine_modify_pop h.fine fun r hr _ =>
        (h.fine r hr).abandon.finish (o := .timeout) trivial _) rfl rfl rfl List.erase_sublist
    · cases hs
  | isCancelled id =>
    cases hs
    exact h.of_fine (fine_modify h.fine fun r _ hr => hr.cancel) rfl rfl rfl (List.Sublist.refl _)
  | inbound msg handling =>
    rw [Client.step] at hs
    split at hs
    · cases hs
      exact h.receive hk
    · cases hs
  | handled raises =>
    cases hk
    rw [Client.step] at hs
    split at hs
    · cases hs
      refine ⟨h.fine,⟨Reader.noConfusion,Reader.noConfusion⟩,fun cause hcause => ?_,h.cleaned,h.closing⟩
      cases hcause
    · cases hs
  | streamEnds =>
    rw [Client.step] at hs
    split at hs
    · cases hs
      exact h.endReader Cause.noConfusion Cause.noConfusion
    · cases hs
  | close =>
    rw [Client.step] at hs
    split at hs
    · cases hs
      exact h
    · cases hs
      refine ⟨h.fine,h.reader,fun _ _ hclosing => ?_,fun _ hclosing => ?_,fun _ => rfl⟩
      · cases hclosing
      · cases hclosing
  | readerCancelled =>
    have hended : s.closed = true → t = { s with reader := .ended .cancelled } → Inv t := by
      rintro hclosed rfl
      refine ⟨h.fine,⟨fun heq => ?_,fun heq => ?_⟩,fun _ _ => h.cleaned hclosed,h.cleaned,h.closing⟩
      · cases heq
      · cases heq
    rw [Client.step] at hs
    split at hs
    · next hclosed =>
      split at hs
      · exact hended hclosed (Option.some.inj hs).symm
      · exact hended hclosed (Option.some.inj hs).symm
      · cases hs
    · cases hs
  | closeCleans =>
    rw [Client.step] at hs
    split at hs
    · cases hs
      refine ⟨fine_failPending h.fine fun _ => trivial,h.reader,fun _ _ _ => rfl,fun _ _ => rfl,
        fun hclosing => ?_⟩
      cases hclosing
    · cases hs

theorem endReader_not_sound {cause : Cause} (h : cause = .message ∨ cause = .handler) :
    ¬Sound (s.endReader cause) := by
  intro hsound
  obtain rfl | rfl := h
  · exact hsound.reader.1 rfl
  · exact hsound.reader.2 rfl

theorem exists_of_someRequest {test : Request → Bool} (h : s.someRequest id test = true) :
    ∃ r ∈ s.requests, r.id = id ∧ test r = true := by
  simpa [Client.someRequest] using h

theorem proper_of_sound (hopen : s.isOpen id = true)
    (h : Sound ((s.pop id).modify id fun r => r.resolve o)) : Proper id o := by
  obtain ⟨-,r,hr,hid,hundone⟩ := isOpen_iff.mp hopen
  have hresolve : r.resolve o = { r with future := .done o } := if_pos hundone
  have hmem : ({ r with future := .done o } : Request) ∈ ((s.pop id).modify id fun r => r.resolve o).requests :=
    mem_modify.mpr ⟨r,hr,by rw [if_pos hid,hresolve]⟩
  have hproper := h.futures _ hmem o rfl
  rwa [hid] at hproper

theorem find_pending {k : ℕ} (h : k ∈ s.pending) :
    s.pending.find? (fun j : ℕ => (j : ℤ) = (k : ℤ)) = some k := by
  cases hfind : s.pending.find? fun j : ℕ => (j : ℤ) = (k : ℤ) with
  | none => simpa using List.find?_eq_none.mp hfind k h
  | some j =>
    have hj : (j : ℤ) = (k : ℤ) := by simpa using List.find?_some hfind
    rw [Int.ofNat_inj.mp hj]

theorem keeps_dispatchResponse {n : ℤ} {raw : Json} {answer : Answer}
    (h : Sound (s.dispatchResponse n raw answer)) {k : ℕ} (hk : (k : ℤ) = n) (hopen : s.isOpen k = true) :
    answer ≠ .malformed ∧ Carries k raw := by
  subst hk
  rw [Client.dispatchResponse,find_pending (isOpen_iff.mp hopen).1] at h
  simp only [hopen,if_true] at h
  cases answer with
  | malformed => exact absurd h (endReader_not_sound (.inl rfl))
  | result v => exact ⟨Answer.noConfusion,proper_of_sound hopen h⟩
  | serverError text => exact ⟨Answer.noConfusion,proper_of_sound hopen h⟩

theorem keeps_of_sound {a : Action} (hinv : Inv s) (hs : s.step codec a = some t) (h : Sound t) :
    Keeps codec s a := by
  cases a with
  | request =>
    cases hs
    rw [Keeps]
    by_contra hbad
    rw [not_or] at hbad
    obtain ⟨hclosed,hreader⟩ := hbad
    obtain ⟨cause,hcause⟩ := not_forall.mp hreader
    rw [Client.request,if_neg hclosed] at h
    have hclosing : s.closing = false := by
      cases hc : s.closing with
      | false => rfl
      | true => exact absurd (hinv.closing hc) hclosed
    have hempty := (h.settled cause (not_not.mp hcause) hclosing).1
    exact absurd (List.append_eq_nil_iff.mp hempty).2 (List.cons_ne_nil _ _)
  | sendFails id isTransportError =>
    cases isTransportError with
    | true => rfl
    | false =>
      rw [Client.step] at hs
      split at hs
      · next hsending =>
        cases hs
        obtain ⟨r,hr,hid,-⟩ := exists_of_someRequest hsending
        have hmem : r.finish .raised ∈ (s.modify id fun r => r.finish .raised).requests :=
          mem_modify.mpr ⟨r,hr,if_pos hid⟩
        exact (h.outcomes _ hmem .raised rfl).elim
      · cases hs
  | inbound msg handling =>
    rw [Client.step] at hs
    split at hs
    · cases hs
      unfold Client.receive at h
      rw [Keeps]
      cases hread : readMessage codec msg with
      | raises =>
        rw [hread] at h
        exact endReader_not_sound (.inl rfl) h
      | response n raw answer =>
        rw [hread] at h
        exact fun k hk hopen => keeps_dispatchResponse h hk hopen
      | notification =>
        rw [hread] at h
        cases handling with
        | raises => exact absurd h (endReader_not_sound (.inr rfl))
        | returns => exact Handling.noConfusion
        | suspends => exact Handling.noConfusion
      | ignored => exact trivial
    · cases hs
  | handled raises =>
    cases raises with
    | false => rfl
    | true =>
      rw [Client.step] at hs
      split at hs
      · cases hs
        exact absurd h (endReader_not_sound (.inr rfl))
      · cases hs
  | _ => trivial

/-- The identifiers are distinct, an end is never changed, and each request can end. -/
structure EndsOnce (codec : Codec) (s : Client) : Prop where
  distinct : (s.requests.map Request.id).Nodup
  stays : ∀ r ∈ s.requests, ∀ o, r.stage = .ended o → ∀ as u, Run (Client.step codec) always s as u →
    ∃ q ∈ u.requests, q.id = r.id ∧ q.stage = .ended o
  ends : ∀ r ∈ s.requests, (∀ o, r.stage ≠ .ended o) → ∃ a u, s.step codec a = some u ∧
    ∃ q ∈ u.requests, q.id = r.id ∧ ∃ o, q.stage = .ended o

/-- The requests are numbered in the order in which they were made. -/
structure Numbered (s : Client) : Prop where
  distinct : (s.requests.map Request.id).Nodup
  known : ∀ r ∈ s.requests, r.id ≤ s.lastId

/-- What a step does to the requests: they keep their numbers and ends, and new ones come behind. -/
structure Follows (s t : Client) : Prop where
  numbered : Numbered t
  stays : ∀ r ∈ s.requests, ∀ o, r.stage = .ended o → ∃ q ∈ t.requests, q.id = r.id ∧ q.stage = .ended o

theorem Follows.of_map (hn : Numbered s) (ht : t.requests = s.requests.map f)
    (hlast : t.lastId = s.lastId) (hid : ∀ r, (f r).id = r.id)
    (hstage : ∀ r ∈ s.requests, ∀ o, r.stage = .ended o → (f r).stage = .ended o) : Follows s t where
  numbered := by
    refine ⟨?_,fun q hq => ?_⟩
    · have hids : t.requests.map Request.id = s.requests.map Request.id := by
        rw [ht,List.map_map]
        exact List.map_congr_left fun r _ => hid r
      rw [hids]
      exact hn.distinct
    · rw [ht] at hq
      obtain ⟨r,hr,rfl⟩ := List.mem_map.mp hq
      rw [hid,hlast]
      exact hn.known r hr
  stays r hr o ho := by
    refine ⟨f r,?_,hid r,hstage r hr o ho⟩
    rw [ht]
    exact List.mem_map_of_mem hr

theorem Follows.refl (hn : Numbered s) (ht : t.requests = s.requests) (hlast : t.lastId = s.lastId) :
    Follows s t :=
  .of_map hn (ht.trans (List.map_id _).symm) hlast (fun _ => rfl) fun _ _ _ ho => ho

theorem Follows.modify (hn : Numbered s) (hid : ∀ r, (f r).id = r.id)
    (hstage : ∀ r ∈ s.requests, r.id = id → ∀ o, r.stage = .ended o → (f r).stage = .ended o) :
    Follows s (s.modify id f) := by
  refine .of_map hn rfl rfl (fun r => ?_) fun r hr o ho => ?_
  · split
    · exact hid r
    · rfl
  · split
    · next h => exact hstage r hr h o ho
    · exact ho

theorem resolve_id (r : Request) (o : Outcome) : (r.resolve o).id = r.id := by
  rw [Request.resolve]
  split <;> rfl

theorem resolve_stage (r : Request) (o : Outcome) : (r.resolve o).stage = r.stage := by
  rw [Request.resolve]
  split <;> rfl

theorem Follows.failPending (hn : Numbered s) (o : Outcome) : Follows s (s.failPending o) := by
  refine .of_map hn rfl rfl (fun r => ?_) fun r _ o' ho => ?_
  · split
    · exact resolve_id r o
    · rfl
  · split
    · rw [resolve_stage,ho]
    · exact ho

theorem Numbered.eq_of_id (hn : Numbered s) {q : Request} (hq : q ∈ s.requests) (hr : r ∈ s.requests)
    (h : q.id = r.id) : q = r :=
  List.inj_on_of_nodup_map hn.distinct hq hr h

theorem Follows.finish (hn : Numbered s) {test : Request → Bool}
    (hid : ∀ r, (f r).id = r.id) (htest : ∀ r o, test r = true → r.stage ≠ .ended o)
    (h : s.someRequest id test = true) : Follows s (s.modify id f) := by
  refine .modify hn hid fun r hr hrid o ho => ?_
  obtain ⟨q,hq,hqid,hqtest⟩ := exists_of_someRequest h
  rw [hn.eq_of_id hr hq (hrid.trans hqid.symm)] at ho
  exact absurd ho (htest q o hqtest)

theorem not_ended_of_isSending (h : r.isSending = true) : r.stage ≠ .ended o := by
  intro ho
  rw [Request.isSending,ho] at h
  cases h

theorem not_ended_of_isWaiting (h : r.isWaiting = true) : r.stage ≠ .ended o := by
  intro ho
  rw [Request.isWaiting,ho] at h
  cases h

theorem Follows.dispatchResponse (hn : Numbered s) (n : ℤ) (raw : Json) (answer : Answer) :
    Follows s (s.dispatchResponse n raw answer) := by
  have hpop : ∀ k, Numbered (s.pop k) := fun k => ⟨hn.distinct,hn.known⟩
  have hresolve : ∀ k o, Follows s ((s.pop k).modify k fun r => r.resolve o) := by
    intro k o
    have hmod : Follows (s.pop k) ((s.pop k).modify k fun r => r.resolve o) :=
      .modify (hpop k) (fun r => resolve_id r o) fun r _ _ o' ho => by rw [resolve_stage,ho]
    exact ⟨hmod.numbered,hmod.stays⟩
  rw [Client.dispatchResponse]
  split
  · exact .refl hn rfl rfl
  · next k _ =>
    split
    · cases answer with
      | result v => exact hresolve k _
      | serverError text => exact hresolve k _
      | malformed =>
        have hfail := Follows.failPending (hpop k) .transportClosed
        exact ⟨⟨hfail.numbered.distinct,hfail.numbered.known⟩,hfail.stays⟩
    · exact .refl hn rfl rfl

theorem Follows.endReader (hn : Numbered s) (cause : Cause) : Follows s (s.endReader cause) :=
  ⟨⟨(Follows.failPending hn .transportClosed).numbered.distinct,
    (Follows.failPending hn .transportClosed).numbered.known⟩,(Follows.failPending hn .transportClosed).stays⟩

theorem Follows.request (hn : Numbered s) : Follows s s.request := by
  rw [Client.request]
  split
  · exact .refl hn rfl rfl
  · have hnew : s.lastId+1 ∉ s.requests.map Request.id := by
      intro hmem
      obtain ⟨r,hr,hid⟩ := List.mem_map.mp hmem
      have hle := hn.known r hr
      omega
    refine ⟨⟨?_,fun r hr => ?_⟩,fun r hr o ho => ⟨r,List.mem_append_left _ hr,rfl,ho⟩⟩
    · rw [List.map_append,List.map_singleton]
      refine List.nodup_append.mpr ⟨hn.distinct,List.nodup_singleton _,fun a ha b hb heq => ?_⟩
      rw [heq,List.mem_singleton.mp hb] at ha
      exact hnew ha
    · rw [List.mem_append,List.mem_singleton] at hr
      obtain hr | rfl := hr
      · exact Nat.le_succ_of_le (hn.known r hr)
      · exact le_refl _

theorem Follows.receive (hn : Numbered s) (msg : Json) (handling : Handling) :
    Follows s (s.receive codec msg handling) := by
  unfold Client.receive
  cases readMessage codec msg with
  | raises => exact .endReader hn _
  | response n raw answer => exact .dispatchResponse hn n raw answer
  | notification =>
    cases handling with
    | returns => exact .refl hn rfl rfl
    | raises => exact .endReader hn _
    | suspends => exact .refl hn rfl rfl
  | ignored => exact .refl hn rfl rfl

theorem wait_spec (r : Request) : r.wait.id = r.id ∧ ∀ o, r.stage = .ended o → r.wait.stage = .ended o := by
  rw [Request.wait]
  split
  · next hstage =>
    refine ⟨rfl,fun o ho => ?_⟩
    rw [hstage] at ho
    cases ho
  · exact ⟨rfl,fun _ ho => ho⟩

theorem resume_spec (r : Request) :
    r.resume.id = r.id ∧ ∀ o, r.stage = .ended o → r.resume.stage = .ended o := by
  rw [Request.resume]
  split
  · next hstage _ =>
    refine ⟨rfl,fun o ho => ?_⟩
    rw [hstage] at ho
    cases ho
  · exact ⟨rfl,fun _ ho => ho⟩

theorem cancel_spec (r : Request) :
    r.cancel.id = r.id ∧ ∀ o, r.stage = .ended o → r.cancel.stage = .ended o := by
  rw [Request.cancel]
  split
  · next hstage =>
    refine ⟨rfl,fun o ho => ?_⟩
    rw [hstage] at ho
    cases ho
  · next hstage =>
    refine ⟨Request.Fine.abandon_id,fun o ho => ?_⟩
    rw [hstage] at ho
    cases ho
  · exact ⟨rfl,fun _ ho => ho⟩

theorem follows_of_step {a : Action} (hn : Numbered s) (hs : s.step codec a = some t) : Follows s t := by
  have hpop : ∀ {u : Client} {k : ℕ}, Follows (s.pop k) u → Follows s u := fun h => ⟨h.numbered,h.stays⟩
  have hpopped : ∀ k, Numbered (s.pop k) := fun k => ⟨hn.distinct,hn.known⟩
  cases a with
  | start =>
    rw [Client.step] at hs
    split at hs <;> cases hs <;> exact .refl hn rfl rfl
  | request =>
    cases hs
    exact .request hn
  | sent id =>
    rw [Client.step] at hs
    split at hs
    · cases hs
      exact .modify hn (fun r => (wait_spec r).1) fun r _ _ => (wait_spec r).2
    · cases hs
  | sendFails id isTransportError =>
    rw [Client.step] at hs
    split at hs
    · next hsending =>
      split at hs
      · cases hs
        exact hpop (.finish (hpopped id) (fun _ => rfl) (fun _ _ => not_ended_of_isSending) hsending)
      · cases hs
        exact .finish hn (fun _ => rfl) (fun _ _ => not_ended_of_isSending) hsending
    · cases hs
  | resumes id =>
    cases hs
    exact .modify hn (fun r => (resume_spec r).1) fun r _ _ => (resume_spec r).2
  | timesOut id =>
    rw [Client.step] at hs
    split at hs
    · next hwaiting =>
      cases hs
      exact hpop (.finish (hpopped id) (fun _ => Request.Fine.abandon_id)
        (fun _ _ => not_ended_of_isWaiting) hwaiting)
    · cases hs
  | isCancelled id =>
    cases hs
    exact .modify hn (fun r => (cancel_spec r).1) fun r _ _ => (cancel_spec r).2
  | inbound msg handling =>
    rw [Client.step] at hs
    split at hs
    · cases hs
      exact .receive hn msg handling
    · cases hs
  | handled raises =>
    rw [Client.step] at hs
    split at hs
    · split at hs
      · cases hs
        exact .endReader hn _
      · cases hs
        exact .refl hn rfl rfl
    · cases hs
  | streamEnds =>
    rw [Client.step] at hs
    split at hs
    · cases hs
      exact .endReader hn _
    · cases hs
  | close =>
    rw [Client.step] at hs
    split at hs <;> cases hs <;> exact .refl hn rfl rfl
  | readerCancelled =>
    rw [Client.step] at hs
    split at hs
    · split at hs <;> cases hs <;> exact .refl hn rfl rfl
    · cases hs
  | closeCleans =>
    rw [Client.step] at hs
    split at hs
    · cases hs
      have hfail := Follows.failPending hn .clientClosed
      exact ⟨⟨hfail.numbered.distinct,hfail.numbered.known⟩,hfail.stays⟩
    · cases hs

theorem stays_of_run {as : List Action} (h : Run (Client.step codec) always s as t) (hn : Numbered s)
    (hr : r ∈ s.requests) (ho : r.stage = .ended o) :
    ∃ q ∈ t.requests, q.id = r.id ∧ q.stage = .ended o := by
  induction h generalizing r with
  | refl => exact ⟨r,hr,rfl,ho⟩
  | succ _ hs _ ih =>
    have hfollows := follows_of_step hn hs
    obtain ⟨q,hq,hid,hstage⟩ := hfollows.stays r hr o ho
    obtain ⟨q',hq',hid',hstage'⟩ := ih hfollows.numbered hq hstage
    exact ⟨q',hq',hid'.trans hid,hstage'⟩

theorem Numbered.new : Numbered .new := ⟨List.nodup_nil,fun r hr => by cases hr⟩

theorem endsOnce_of_run {as : List Action} (h : Run (Client.step codec) always .new as t) :
    EndsOnce codec t := by
  have hstep : ∀ (s : Client) a t, always s a → s.step codec a = some t → Numbered s → Numbered t :=
    fun s a t _ hs hn => (follows_of_step hn hs).numbered
  have hn := h.invariant hstep .new
  refine ⟨hn.distinct,fun r hr o ho as u hrun => stays_of_run hrun hn hr ho,fun r hr hopen => ?_⟩
  cases hstage : r.stage with
  | ended o => exact absurd hstage (hopen o)
  | sending =>
    -- the transport may fail
    have hsome : t.someRequest r.id Request.isSending = true :=
      List.any_eq_true.mpr ⟨r,hr,by rw [Request.isSending,hstage]; simp⟩
    have hstep : t.step codec (.sendFails r.id true) =
        some ((t.pop r.id).modify r.id fun r => r.finish .sendFailed) := by
      rw [Client.step,if_pos hsome,if_pos rfl]
    exact ⟨_,_,hstep,r.finish .sendFailed,mem_modify.mpr ⟨r,hr,if_pos rfl⟩,rfl,.sendFailed,rfl⟩
  | waiting =>
    -- the time limit may pass
    have hsome : t.someRequest r.id Request.isWaiting = true :=
      List.any_eq_true.mpr ⟨r,hr,by rw [Request.isWaiting,hstage]; simp⟩
    have hstep : t.step codec (.timesOut r.id) =
        some ((t.pop r.id).modify r.id fun r => r.abandon.finish .timeout) := by
      rw [Client.step,if_pos hsome]
    exact ⟨_,_,hstep,r.abandon.finish .timeout,mem_modify.mpr ⟨r,hr,if_pos rfl⟩,Request.Fine.abandon_id,
      .timeout,rfl⟩

/-- In every run each request ends once. Along it each gets its own answer, no message ends the reader
and nothing is left behind it exactly when each step meets the condition. -/
theorem demultiplexes_throughout_iff (codec : Codec) {as : List Action}
    (h : Run (Client.step codec) always .new as t) :
    EndsOnce codec t ∧
      (Throughout (Client.step codec) Sound .new as ↔ Run (Client.step codec) (Keeps codec) .new as t) := by
  have hinv : ∀ (s : Client) a t, always s a → s.step codec a = some t → Inv s → Sound s → Sound t →
      Inv t := fun s a t _ hs hi _ ht => hi.step (keeps_of_sound hi hs ht) hs
  have hstep : ∀ (s : Client) a t, always s a → s.step codec a = some t → Inv s → Sound s →
      (Sound t ↔ Keeps codec s a) :=
    fun s a t _ hs hi _ => ⟨keeps_of_sound hi hs,fun hk => (hi.step hk hs).sound⟩
  exact ⟨endsOnce_of_run h,throughout_iff hinv hstep h .new Inv.new.sound⟩

def textCodec : Codec := ⟨fun _ => none,fun _ => []⟩

/-- A request, its answer and the end of the stream. -/
def answeredRun : List Action :=
  [.start,.request,.sent 1,.inbound (.obj [(lit "id",.int 1),(lit "result",.bool true)]) .returns,
    .resumes 1,.streamEnds]

theorem demultiplexes_answered : Throughout (Client.step textCodec) Sound .new answeredRun := by
  have hrun : ∃ t, Run (Client.step textCodec) (Keeps textCodec) .new answeredRun t := by
    refine ⟨_,.succ trivial rfl (.succ (.inr ?_) rfl (.succ trivial rfl (.succ ?_ rfl
      (.succ trivial rfl (.succ trivial rfl (.refl _))))))⟩
    · exact fun _ => Reader.noConfusion
    · intro k hk _
      exact ⟨Answer.noConfusion,hk.symm⟩
  obtain ⟨t,hkeeps⟩ := hrun
  exact (demultiplexes_throughout_iff textCodec (hkeeps.mono fun _ _ _ => trivial)).2.mpr hkeeps

/-- A request is answered with an error that is a text. -/
def textErrorRun : List Action :=
  [.start,.request,.sent 1,.inbound (.obj [(lit "id",.int 1),(lit "error",.str (lit "no"))]) .returns]

/-- The message ends the reader, and the request it is for waits on without an entry. -/
theorem text_error_ends_reader : ∃ t, Run (Client.step textCodec) always .new textErrorRun t ∧
    t.reader = .ended .message ∧ t.requests = [⟨1,.undone,.waiting⟩] ∧ t.pending = [] ∧ ¬Sound t :=
  ⟨_,run_of_exec rfl,rfl,rfl,rfl,fun h => h.reader.1 rfl⟩

end MinimaxCode.McpClient
