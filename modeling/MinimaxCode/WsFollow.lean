import MinimaxCode.WsEpoch

/-!
# What a client dispatches

Under conditions on the order of events, what is under way to a client are the next
events of the log of the server, so that it dispatches this log from its first
connection on without a gap and without a repetition.
-/

namespace MinimaxCode.Ws

open SequencedLog

variable {C E : Type*}

/-- The conditions under which a client loses and doubles nothing. While it has been
connected before: an event is recorded only when it is not too far behind, its replay has
run and its queue has room; it connects without anything dispatched only when nothing was
recorded since it first connected; and its replay fits its queue. -/
def Smooth (c : C) (s : State C E) : Action C E → Prop
  | .publish _ => (s.web c).first ≠ none → s.listener = true →
    s.recorded.length < (s.web c).base+(s.web c).dispatched.length+historySize ∧
    ((s.web c).connected = true → s.serves c → ¬Doomed (s.web c) (s.conn c) →
      (s.conn c).pending = none ∧ (s.conn c).queue.length < maxQueueDepth)
  | .connect c' => c' = c → (s.web c).first ≠ none → (s.web c).dispatched = [] →
    s.recorded.length = (s.web c).base
  | .replay c' i => c' = c → i = (s.web c).conn → (s.web c).connected = true → s.serves c →
    ¬Doomed (s.web c) (s.conn c) → ∀ since, (s.conn c).pending = some since →
      (s.conn c).queue.length+(after since s.history).length ≤ maxQueueDepth
  | _ => True

/-- The events among the frames. -/
def events : List (Frame E) → List (Entry E)
  | [] => []
  | .ready _::fs => events fs
  | .event e::fs => e::events fs

/-- What is under way on a connection: the next recorded events, and all of them while
the connection is served; nothing before its replay. -/
structure Pipe (recorded : List (Entry E)) (w : Client E) (k : Conn E) (serves : Prop) : Prop where
  ready : ∀ n rest, k.wire = .ready n::rest → w.lastSeq < n
  cursor : w.dispatched = [] → w.lastSeq = 0
  waiting : ∀ since, k.pending = some since →
    since = w.lastSeq ∧ w.dispatched ≠ [] ∧ k.queue = [] ∧ events k.wire = []
  running : k.pending = none →
    events k.wire++k.queue <+: recorded.drop (w.base+w.dispatched.length)
  served : k.pending = none → serves →
    events k.wire++k.queue = recorded.drop (w.base+w.dispatched.length)

/-- What a client dispatched are the recorded events since its first connection, and its
cursor is the number of the last of them. -/
structure Followed (recorded : List (Entry E)) (w : Client E) (k : Conn E) (serves : Prop) : Prop where
  bound : w.base+w.dispatched.length ≤ recorded.length
  reach : recorded.length ≤ w.base+w.dispatched.length+historySize
  dispatched : w.dispatched <+: recorded.drop w.base
  cursor : w.dispatched ≠ [] → w.lastSeq = w.base+w.dispatched.length
  fresh : w.dispatched = [] → w.lastSeq = 0 ∨ w.base = 0
  pipe : w.connected = true → Doomed w k ∧ w.dispatched = [] ∨ Pipe recorded w k serves

theorem events_append (fs gs : List (Frame E)) : events (fs++gs) = events fs++events gs := by
  induction fs with
  | nil => rfl
  | cons f fs ih => cases f <;> simp [events,ih]

theorem drop_append_extends (l m : List (Entry E)) (n : ℕ) : l.drop n <+: (l++m).drop n := by
  rw [List.drop_append]
  exact List.prefix_append _ _

theorem foldl_enqueue {queue l : List (Entry E)} (h : queue.length+l.length ≤ maxQueueDepth) :
    l.foldl enqueue queue = queue++l := by
  induction l generalizing queue with
  | nil => simp
  | cons e l ih =>
    rw [List.length_cons] at h
    have hroom : queue.length < maxQueueDepth := by omega
    rw [List.foldl_cons,enqueue,if_pos hroom,ih]
    · simp
    · rw [List.length_append,List.length_singleton]
      omega

theorem Pipe.not_doomed {recorded : List (Entry E)} {w : Client E} {k : Conn E} {serves : Prop}
    (h : Pipe recorded w k serves) : ¬Doomed w k := by
  rintro ⟨n,rest,hwire,hle⟩
  have hlt := h.ready n rest hwire
  omega

section Followed

variable {recorded : List (Entry E)} {w : Client E} {k : Conn E} {serves : Prop}
  {rest : List (Frame E)}

theorem Followed.disconnect (h : Followed recorded w k serves) :
    Followed recorded { w with connected := false } k serves :=
  ⟨h.bound,h.reach,h.dispatched,h.cursor,h.fresh,fun hc => by simp at hc⟩

theorem Followed.record [Decidable serves] (h : Followed recorded w k serves) (e : Entry E)
    (hreach : recorded.length < w.base+w.dispatched.length+historySize)
    (hroom : w.connected = true → serves → ¬Doomed w k →
      k.pending = none ∧ k.queue.length < maxQueueDepth) :
    Followed (recorded++[e]) w
      (if serves then { k with queue := enqueue k.queue e } else k) serves := by
  refine ⟨?_,?_,?_,h.cursor,h.fresh,?_⟩
  · rw [List.length_append]
    exact Nat.le_add_right_of_le h.bound
  · rw [List.length_append,List.length_singleton]
    omega
  · exact h.dispatched.trans (drop_append_extends _ _ _)
  · intro hc
    cases h.pipe hc with
    | inl hd =>
      left
      by_cases hs : serves
      · simpa [hs,Doomed] using hd
      · simpa [hs,Doomed] using hd
    | inr hp =>
      right
      by_cases hs : serves
      · obtain ⟨hnone,hlt⟩ := hroom hc hs hp.not_doomed
        have hq : enqueue k.queue e = k.queue++[e] := by rw [enqueue,if_pos hlt]
        have hall : events k.wire++(k.queue++[e]) =
            (recorded++[e]).drop (w.base+w.dispatched.length) := by
          rw [← List.append_assoc,hp.served hnone hs,List.drop_append_of_le_length h.bound]
        rw [if_pos hs,hq]
        exact ⟨hp.ready,hp.cursor,fun since hsome => by simp [hnone] at hsome,
          fun _ => hall ▸ List.prefix_rfl,fun _ _ => hall⟩
      · rw [if_neg hs]
        exact ⟨hp.ready,hp.cursor,hp.waiting,fun hn => (hp.running hn).trans (drop_append_extends _ _ _),
          fun _ hs' => absurd hs' hs⟩

theorem Followed.connect (h : Followed recorded w k serves)
    (hfresh : w.dispatched = [] → recorded.length = w.base) (first : Option ℕ) (i : ℕ) :
    Followed recorded { w with connected := true, conn := i, first := first }
      ⟨[],[.ready (recorded.length+1)],if 0 < w.lastSeq then some w.lastSeq else none⟩ True := by
  refine ⟨h.bound,h.reach,h.dispatched,h.cursor,h.fresh,fun _ => ?_⟩
  by_cases hdoom : recorded.length+1 ≤ w.lastSeq
  · left
    refine ⟨⟨_,_,rfl,hdoom⟩,?_⟩
    by_contra hne
    have hcursor := h.cursor hne
    have hbound := h.bound
    omega
  · right
    have hzero : w.dispatched = [] → w.lastSeq = 0 := by
      intro hnil
      have hlen := hfresh hnil
      cases h.fresh hnil with
      | inl h0 => exact h0
      | inr h0 => omega
    constructor
    · intro n rest hw
      cases hw
      show w.lastSeq < recorded.length+1
      omega
    · exact hzero
    · intro since hsome
      by_cases hpos : 0 < w.lastSeq
      · have hsince : w.lastSeq = since := by simpa [hpos] using hsome
        refine ⟨hsince.symm,fun hnil => ?_,rfl,rfl⟩
        have := hzero hnil
        omega
      · simp [hpos] at hsome
    all_goals
      intro hnone
      have hlast : w.lastSeq = 0 := by
        by_contra hne
        have hpos : 0 < w.lastSeq := by omega
        simp [hpos] at hnone
      have hnil : w.dispatched = [] := by
        by_contra hne
        have hcursor := h.cursor hne
        have hlen := List.length_pos_iff.mpr hne
        omega
      have hlen := hfresh hnil
      simp [events,hnil,hlen]

theorem Followed.replay [Decidable serves] (h : Followed recorded w k serves)
    (hnum : Numbered recorded) {since : ℕ} (hpending : k.pending = some since)
    (hroom : w.connected = true → serves → ¬Doomed w k →
      k.queue.length+(after since (ring historySize recorded)).length ≤ maxQueueDepth) :
    Followed recorded w
      { k with
        pending := none
        queue := if serves then (after since (ring historySize recorded)).foldl enqueue k.queue
          else k.queue } serves := by
  refine ⟨h.bound,h.reach,h.dispatched,h.cursor,h.fresh,fun hc => ?_⟩
  cases h.pipe hc with
  | inl hd => exact .inl hd
  | inr hp =>
    right
    obtain ⟨hsince,hne,hqueue,hevents⟩ := hp.waiting since hpending
    have hcursor := h.cursor hne
    have hreach := h.reach
    have hafter : after since (ring historySize recorded) =
        recorded.drop (w.base+w.dispatched.length) := by
      rw [after_ring hnum (by omega),hsince,hcursor]
    refine ⟨hp.ready,hp.cursor,fun since' hsome => by simp at hsome,fun _ => ?_,fun _ hs => ?_⟩
    · by_cases hs : serves
      · simp only [if_pos hs]
        rw [foldl_enqueue (hroom hc hs hp.not_doomed),hqueue,hevents,hafter]
        exact List.prefix_rfl
      · simp [hs,hqueue,hevents]
    · simp only [if_pos hs]
      rw [foldl_enqueue (hroom hc hs hp.not_doomed),hqueue,hevents,hafter]
      rfl

theorem Followed.send (h : Followed recorded w k serves) {e : Entry E} {rest : List (Entry E)}
    (hqueue : k.queue = e::rest) :
    Followed recorded w { k with queue := rest, wire := k.wire++[.event e] } serves := by
  have hevents : events (k.wire++[.event e])++rest = events k.wire++k.queue := by
    rw [events_append,hqueue,List.append_assoc]
    rfl
  refine ⟨h.bound,h.reach,h.dispatched,h.cursor,h.fresh,fun hc => ?_⟩
  cases h.pipe hc with
  | inl hd =>
    obtain ⟨⟨n,fs,hw,hle⟩,hnil⟩ := hd
    exact .inl ⟨⟨n,fs++[.event e],by simp [hw],hle⟩,hnil⟩
  | inr hp =>
    right
    refine ⟨fun n fs hw => ?_,hp.cursor,fun since hsome => ?_,fun hn => ?_,fun hn hs => ?_⟩
    · cases hwire : k.wire with
      | nil => simp [hwire] at hw
      | cons f gs =>
        simp only [hwire,List.cons_append,List.cons.injEq] at hw
        exact hp.ready n gs (by rw [hwire,hw.1])
    · have hnil := (hp.waiting since hsome).2.2.1
      simp [hqueue] at hnil
    · rw [hevents]
      exact hp.running hn
    · rw [hevents]
      exact hp.served hn hs

theorem Followed.cleanup (h : Followed recorded w k serves) :
    Followed recorded w { k with queue := [] } False := by
  refine ⟨h.bound,h.reach,h.dispatched,h.cursor,h.fresh,fun hc => ?_⟩
  cases h.pipe hc with
  | inl hd => exact .inl hd
  | inr hp =>
    right
    refine ⟨hp.ready,hp.cursor,fun since hsome => ?_,fun hn => ?_,fun _ hs => hs.elim⟩
    · have hw := hp.waiting since hsome
      exact ⟨hw.1,hw.2.1,rfl,hw.2.2.2⟩
    · rw [List.append_nil]
      exact (List.prefix_append _ _).trans (hp.running hn)

theorem Followed.receiveReady (h : Followed recorded w k serves) (hc : w.connected = true) {n : ℕ} (hwire : k.wire = .ready n::rest) (hno : ∀ m, .ready m ∉ rest) :
    Followed recorded (handleEnvelope w (.ready n)) { k with wire := rest } serves := by
  rw [handleEnvelope]
  cases h.pipe hc with
  | inl hd =>
    obtain ⟨⟨m,fs,hw,hle⟩,hnil⟩ := hd
    have hle' : n ≤ w.lastSeq := by
      rw [hwire] at hw
      cases hw
      exact hle
    rw [if_pos hle']
    exact ⟨h.bound,h.reach,h.dispatched,fun hne => absurd hnil hne,fun _ => .inl rfl,
      fun hc' => by simp at hc'⟩
  | inr hp =>
    have hlt := hp.ready n rest hwire
    have hevents : events k.wire = events rest := by
      rw [hwire]
      rfl
    rw [if_neg (by omega)]
    refine ⟨h.bound,h.reach,h.dispatched,h.cursor,h.fresh,fun _ => .inr ?_⟩
    refine ⟨fun m fs hw => ?_,hp.cursor,fun since hsome => ?_,fun hn => ?_,fun hn hs => ?_⟩
    · have hw' : rest = .ready m::fs := hw
      exact absurd (by rw [hw']; exact List.mem_cons_self) (hno m)
    · have hwait := hp.waiting since hsome
      rwa [hevents] at hwait
    · have hrun := hp.running hn
      rwa [hevents] at hrun
    · have hserved := hp.served hn hs
      rwa [hevents] at hserved

theorem Followed.receiveEvent (h : Followed recorded w k serves) (hnum : Numbered recorded)
    (hc : w.connected = true) {e : Entry E}
    (hwire : k.wire = .event e::rest) (hno : ∀ m, .ready m ∉ rest) :
    Followed recorded (handleEnvelope w (.event e)) { k with wire := rest } serves := by
  have hevents : events k.wire = e::events rest := by
    rw [hwire]
    rfl
  cases h.pipe hc with
  | inl hd =>
    obtain ⟨⟨m,fs,hw,-⟩,-⟩ := hd
    simp [hwire] at hw
  | inr hp =>
    have hnone : k.pending = none := by
      cases hk : k.pending with
      | none => rfl
      | some since =>
        have hwait := (hp.waiting since hk).2.2.2
        simp [hevents] at hwait
    obtain ⟨u,hu⟩ := h.dispatched
    have hdrop : recorded.drop (w.base+w.dispatched.length) = u := by
      rw [← List.drop_drop,← hu,List.drop_left]
    have hrun := hp.running hnone
    rw [hevents,hdrop,List.cons_append] at hrun
    obtain ⟨v,hv⟩ := hrun
    have hnext : recorded.drop (w.base+w.dispatched.length) = e::(events rest++k.queue++v) :=
      hdrop.trans hv.symm
    have htail : recorded.drop (w.base+(w.dispatched++[e]).length) = events rest++k.queue++v := by
      rw [List.length_append,List.length_singleton,← Nat.add_assoc,← List.tail_drop,hnext,
        List.tail_cons]
    have hlt : w.base+w.dispatched.length < recorded.length := by
      have hlen := congrArg List.length hnext
      rw [List.length_drop,List.length_cons] at hlen
      omega
    have hseq : e.seq = w.base+w.dispatched.length+1 := by
      apply hnum
      have hget := congrArg (·[0]?) hnext
      simpa using hget
    have hless : w.lastSeq < e.seq := by
      by_cases hnil : w.dispatched = []
      · have hzero := hp.cursor hnil
        omega
      · have hcursor := h.cursor hnil
        omega
    have hreach := h.reach
    rw [handleEnvelope,if_pos hless]
    refine ⟨?_,?_,?_,fun _ => ?_,fun hnil => by simp at hnil,fun _ => .inr ?_⟩
    · simp only [List.length_append,List.length_singleton]
      omega
    · simp only [List.length_append,List.length_singleton]
      omega
    · refine ⟨events rest++k.queue++v,?_⟩
      rw [← hu,← hv,List.append_assoc]
      rfl
    · simp only [List.length_append,List.length_singleton]
      omega
    · refine ⟨fun m fs hw => ?_,fun hnil => by simp at hnil,fun since hsome => ?_,fun _ => ?_,
        fun _ hs => ?_⟩
      · have hw' : rest = .ready m::fs := hw
        exact absurd (by rw [hw']; exact List.mem_cons_self) (hno m)
      · simp [hnone] at hsome
      · rw [htail]
        exact List.prefix_append _ _
      · have hserved := hp.served hnone hs
        rw [hevents,hnext,List.cons_append,List.cons.injEq] at hserved
        rw [htail]
        exact hserved.2

theorem Followed.receive (h : Followed recorded w k serves) (hnum : Numbered recorded)
    (hc : w.connected = true) {f : Frame E} (hwire : k.wire = f::rest)
    (hno : ∀ m, .ready m ∉ rest) :
    Followed recorded (handleEnvelope w f) { k with wire := rest } serves := by
  cases f with
  | ready n => exact h.receiveReady hc hwire hno
  | event e => exact h.receiveEvent hnum hc hwire hno

end Followed

section Machine

variable [DecidableEq C]

/-- What a client depends on: nothing but its own state, its connection and the log. -/
structure SameView (c : C) (s t : State C E) : Prop where
  web : t.web c = s.web c
  conn : t.conn c = s.conn c
  serves : t.serves c ↔ s.serves c
  recorded : t.recorded = s.recorded

/-- A client that has connected is followed from its first connection on. -/
structure Follows (c : C) (s : State C E) : Prop where
  unseen : (s.web c).first = none →
    (s.web c).lastSeq = 0 ∧ (s.web c).dispatched = [] ∧ (s.web c).connected = false
  seen : (s.web c).first ≠ none → Followed s.recorded (s.web c) (s.conn c) (s.serves c)

variable {c : C} {s t : State C E} {c' : C} {i : ℕ}

omit [DecidableEq C] in
theorem Follows.congr (h : Follows c s) (hv : SameView c s t) : Follows c t := by
  constructor
  · rw [hv.web]
    exact h.unseen
  · rw [hv.web,hv.conn,hv.recorded,propext hv.serves]
    exact h.seen

theorem Follows.publish (h : Follows c s) {p : E} (hok : Smooth c s (.publish p)) :
    Follows c (publish s p) := by
  cases hl : s.listener with
  | false =>
    have hsame : SameView c s (Ws.publish s p) := by
      constructor <;> simp [Ws.publish,hl,State.conn,State.serves]
    exact h.congr hsame
  | true =>
    have hweb : (Ws.publish s p).web = s.web := by simp [Ws.publish,hl]
    have hserves : (Ws.publish s p).serves c ↔ s.serves c := by simp [Ws.publish,hl,State.serves]
    have hrecorded : (Ws.publish s p).recorded = s.recorded++[⟨s.nextSeq+1,p⟩] := by
      simp [Ws.publish,hl]
    have hconn : (Ws.publish s p).conn c =
        if s.serves c then { s.conn c with queue := enqueue (s.conn c).queue ⟨s.nextSeq+1,p⟩ }
        else s.conn c := by
      simp only [Ws.publish,hl,if_true,State.conn]
      rfl
    constructor
    · rw [hweb]
      exact h.unseen
    · intro hfirst
      rw [hweb] at hfirst
      obtain ⟨hreach,hroom⟩ := hok hfirst hl
      rw [hweb,hrecorded,hconn,propext hserves]
      exact (h.seen hfirst).record _ hreach hroom

theorem Follows.connect (h : Follows c s) (hlog : Logged s) (hok : Smooth c s (.connect c)) :
    Follows c (connect s c) := by
  have hconn : (Ws.connect s c).conn c = ⟨[],[.ready (s.recorded.length+1)],
      if 0 < (s.web c).lastSeq then some (s.web c).lastSeq else none⟩ := by
    simp [Ws.connect,State.conn,hlog.seq,State.setConn,State.setClient]
  have hserves : (Ws.connect s c).serves c ↔ True := by
    simp [Ws.connect,State.serves]
  have hrecorded : (Ws.connect s c).recorded = s.recorded := rfl
  have hweb : (Ws.connect s c).web c = { s.web c with
      connected := true
      conn := (s.web c).conn+1
      first := some ((s.web c).first.getD s.published.length)
      base := if (s.web c).first.isSome then (s.web c).base else s.recorded.length } := by
    simp only [Ws.connect,setClient_web]
    rfl
  refine ⟨fun hnone => by simp [hweb] at hnone,fun _ => ?_⟩
  rw [hweb,hconn,hrecorded,propext hserves]
  cases hfirst : (s.web c).first with
  | none =>
    have hstart : Followed s.recorded { s.web c with base := s.recorded.length } (s.conn c) True := by
      obtain ⟨hlast,hnil,hdown⟩ := h.unseen hfirst
      exact ⟨by simp [hnil],Nat.le_add_right_of_le (Nat.le_add_right _ _),by simp [hnil],by simp [hnil],
        fun _ => .inl hlast,by simp [hdown]⟩
    exact hstart.connect (fun _ => rfl) _ _
  | some f =>
    have hseen := h.seen (by simp [hfirst])
    exact hseen.connect (hok rfl (by simp [hfirst])) _ _

theorem Follows.setConn (h : Follows c s) {k : Conn E}
    (hown : c' = c → i = (s.web c).conn → (s.web c).first ≠ none →
      Followed s.recorded (s.web c) (s.conn c) (s.serves c) →
      Followed s.recorded (s.web c) k (s.serves c)) : Follows c (s.setConn c' i k) := by
  by_cases hcur : c = c' ∧ (s.web c).conn = i
  · obtain ⟨rfl,rfl⟩ := hcur
    refine ⟨h.unseen,fun hfirst => ?_⟩
    have hconn : (s.setConn c (s.web c).conn k).conn c = k := setConn_conns _ _ _ _
    rw [hconn]
    exact hown rfl rfl hfirst (h.seen hfirst)
  · have hconn : (s.setConn c' i k).conn c = s.conn c := setConn_conns_ne _ _ hcur
    exact ⟨h.unseen,hconn.symm ▸ h.seen⟩

theorem Follows.replay (h : Follows c s) (hlog : Logged s) {since : ℕ}
    (hpending : (s.conns c' i).pending = some since) (hok : Smooth c s (.replay c' i)) :
    Follows c (replay s c' i since) := by
  apply h.setConn
  rintro rfl rfl - hf
  rw [hlog.history]
  exact hf.replay hlog.numbered hpending
    fun hc hs hd => hlog.history ▸ hok rfl rfl hc hs hd since hpending

theorem Follows.send (h : Follows c s) {e : Entry E} {rest : List (Entry E)}
    (hqueue : (s.conns c' i).queue = e::rest) :
    Follows c (s.setConn c' i
      { s.conns c' i with queue := rest, wire := (s.conns c' i).wire++[.event e] }) := by
  apply h.setConn
  rintro rfl rfl - hf
  exact hf.send hqueue

theorem Follows.cleanup (h : Follows c s) : Follows c (cleanup s c' i) := by
  by_cases hcur : c = c' ∧ (s.web c).conn = i
  · obtain ⟨rfl,rfl⟩ := hcur
    have hconn : (Ws.cleanup s c (s.web c).conn).conn c = { s.conn c with queue := [] } :=
      setConn_conns _ _ _ _
    have hserves : (Ws.cleanup s c (s.web c).conn).serves c ↔ False := by
      simp [Ws.cleanup,State.serves]
    refine ⟨h.unseen,fun hfirst => ?_⟩
    rw [hconn,propext hserves]
    exact (h.seen hfirst).cleanup
  · apply h.congr
    refine ⟨rfl,setConn_conns_ne _ _ hcur,?_,rfl⟩
    have hne : (c,(s.web c).conn) ≠ (c',i) := fun heq => hcur (by simpa using heq)
    simp [Ws.cleanup,State.serves,hne]

theorem Follows.receive (h : Follows c s) (hlog : Logged s) (hw : Wired s) {f : Frame E}
    {rest : List (Frame E)} (hc : (s.web c').connected = true)
    (hwire : (s.conns c' (s.web c').conn).wire = f::rest) :
    Follows c ((s.setConn c' (s.web c').conn
      { s.conns c' (s.web c').conn with wire := rest }).setClient c'
        (handleEnvelope (s.web c') f)) := by
  by_cases heq : c = c'
  · subst heq
    have hfirst : (s.web c).first ≠ none := by
      intro hnone
      have hdown := (h.unseen hnone).2.2
      rw [hc] at hdown
      cases hdown
    refine ⟨fun hnone => ?_,fun _ => ?_⟩
    · rw [setClient_web,handleEnvelope_first] at hnone
      exact absurd hnone hfirst
    · have hf := (h.seen hfirst).receive hlog.numbered hc hwire (hw.tail c hwire)
      simpa [State.conn,State.serves] using hf
  · apply h.congr
    refine ⟨setClient_web_ne _ _ heq,?_,?_,rfl⟩
    · rw [State.conn,setClient_web_ne _ _ heq,setClient_conns,setConn_web,
        setConn_conns_ne _ _ fun hb => heq hb.1]
      rfl
    · rw [State.serves,setClient_web_ne _ _ heq]
      rfl

theorem Follows.drop (h : Follows c s) :
    Follows c (s.setClient c' { s.web c' with connected := false }) := by
  by_cases heq : c = c'
  · subst heq
    refine ⟨fun hnone => ?_,fun hfirst => ?_⟩
    · rw [setClient_web] at hnone ⊢
      have hun := h.unseen hnone
      exact ⟨hun.1,hun.2.1,rfl⟩
    · rw [setClient_web] at hfirst
      have hf := (h.seen hfirst).disconnect
      simpa [State.conn,State.serves] using hf
  · apply h.congr
    refine ⟨setClient_web_ne _ _ heq,?_,?_,rfl⟩
    · rw [State.conn,setClient_web_ne _ _ heq]
      rfl
    · rw [State.serves,setClient_web_ne _ _ heq]
      rfl

theorem Follows.connectOther (h : Follows c s) (hne : c ≠ c') :
    Follows c (Ws.connect s c') := by
  have hweb : (Ws.connect s c').web c = s.web c := setClient_web_ne _ _ hne
  apply h.congr
  refine ⟨hweb,?_,?_,rfl⟩
  · rw [State.conn,hweb]
    exact setConn_conns_ne _ _ fun hb => hne hb.1
  · rw [State.serves,hweb]
    simp [Ws.connect,State.serves,hne]

theorem Follows.step (h : Follows c s) (hlog : Logged s) (hw : Wired s) {a : Action C E} (hok : Smooth c s a)
    (hstep : step s a = some t) : Follows c t := by
  cases stepped hstep with
  | publish p => exact h.publish hok
  | connect c' =>
    by_cases heq : c = c'
    · subst heq
      exact h.connect hlog hok
    · exact h.connectOther heq
  | replay c' i since hpending => exact h.replay hlog hpending hok
  | send c' i e rest hqueue => exact h.send hqueue
  | receive c' f rest hc hwire => exact h.receive hlog hw hc hwire
  | drop c' => exact h.drop
  | cleanup c' i => exact h.cleanup

end Machine

end MinimaxCode.Ws
