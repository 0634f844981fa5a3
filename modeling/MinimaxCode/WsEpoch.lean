import MinimaxCode.WsBroadcast

/-!
# Sequence epochs

The counter of the server starts at zero in every process. A client whose cursor is not
ahead of the counter is never reset, and a reset leaves it so: one process resets a
client at most once, whatever the order of events.
-/

namespace MinimaxCode.Ws

open Runs SequencedLog

variable {C E : Type*}

/-- What is under way was numbered by this process, and the ready frame of a connection
is its first frame. -/
structure Wired (s : State C E) : Prop where
  queue : ∀ c i, ∀ e ∈ (s.conns c i).queue, e.seq ≤ s.nextSeq
  wire : ∀ c i e, .event e ∈ (s.conns c i).wire → e.seq ≤ s.nextSeq
  onlyFirst : ∀ c i n, .ready n ∉ (s.conns c i).wire.tail

/-- The cursor of a client is not ahead of the counter, and no frame under way resets it. -/
structure Caught (c : C) (s : State C E) : Prop where
  cursor : (s.web c).lastSeq ≤ s.nextSeq
  ready : (s.web c).connected = true → ¬Doomed (s.web c) (s.conn c)

theorem mem_enqueue {queue : List (Entry E)} {e e' : Entry E} (h : e' ∈ enqueue queue e) :
    e' ∈ queue ∨ e' = e := by
  rw [enqueue] at h
  split at h
  · simpa using h
  · cases List.mem_append.mp h with
    | inl hm => exact .inl (List.mem_of_mem_tail hm)
    | inr hm => exact .inr (List.mem_singleton.mp hm)

theorem mem_foldl_enqueue {queue l : List (Entry E)} {e : Entry E}
    (h : e ∈ l.foldl enqueue queue) : e ∈ queue ∨ e ∈ l := by
  induction l generalizing queue with
  | nil => exact .inl h
  | cons a l ih =>
    cases ih h with
    | inl hm =>
      cases mem_enqueue hm with
      | inl hq => exact .inl hq
      | inr he => exact .inr (he ▸ List.mem_cons_self)
    | inr hm => exact .inr (List.mem_cons_of_mem _ hm)

section Machine

variable [DecidableEq C] {c : C} {s t : State C E} {a : Action C E} {rest : List (Frame E)}

theorem Wired.setConn (h : Wired s) {i : ℕ} {k : Conn E}
    (hqueue : ∀ e ∈ k.queue, e.seq ≤ s.nextSeq) (hwire : ∀ e, .event e ∈ k.wire → e.seq ≤ s.nextSeq)
    (hfirst : ∀ n, .ready n ∉ k.wire.tail) : Wired (s.setConn c i k) := by
  have hcases : ∀ c' i', (s.setConn c i k).conns c' i' = k ∨
      (s.setConn c i k).conns c' i' = s.conns c' i' := by
    intro c' i'
    by_cases heq : c' = c ∧ i' = i
    · exact .inl (if_pos heq)
    · exact .inr (if_neg heq)
  refine ⟨fun c' i' => ?_,fun c' i' => ?_,fun c' i' => ?_⟩
  · cases hcases c' i' with
    | inl hk => rw [hk]; exact hqueue
    | inr hk => rw [hk]; exact h.queue c' i'
  · cases hcases c' i' with
    | inl hk => rw [hk]; exact hwire
    | inr hk => rw [hk]; exact h.wire c' i'
  · cases hcases c' i' with
    | inl hk => rw [hk]; exact hfirst
    | inr hk => rw [hk]; exact h.onlyFirst c' i'

theorem Wired.publish (h : Wired s) (p : E) : Wired (publish s p) := by
  cases hl : s.listener with
  | false =>
    have heq : Ws.publish s p = { s with published := s.published++[p] } := by
      simp [Ws.publish,hl]
    rw [heq]
    exact ⟨h.queue,h.wire,h.onlyFirst⟩
  | true =>
    have hseq : (Ws.publish s p).nextSeq = s.nextSeq+1 := by simp [Ws.publish,hl]
    have hconns : ∀ c i, (Ws.publish s p).conns c i = s.conns c i ∨ (Ws.publish s p).conns c i =
        { s.conns c i with queue := enqueue (s.conns c i).queue ⟨s.nextSeq+1,p⟩ } := by
      intro c i
      by_cases hm : (c,i) ∈ s.clients
      · exact .inr (by simp [Ws.publish,hl,hm])
      · exact .inl (by simp [Ws.publish,hl,hm])
    refine ⟨fun c i e he => ?_,fun c i e he => ?_,fun c i n => ?_⟩
    · rw [hseq]
      cases hconns c i with
      | inl hk =>
        rw [hk] at he
        exact Nat.le_succ_of_le (h.queue c i e he)
      | inr hk =>
        rw [hk] at he
        cases mem_enqueue he with
        | inl hq => exact Nat.le_succ_of_le (h.queue c i e hq)
        | inr heq => exact heq ▸ Nat.le_refl _
    · rw [hseq]
      cases hconns c i with
      | inl hk => rw [hk] at he; exact Nat.le_succ_of_le (h.wire c i e he)
      | inr hk => rw [hk] at he; exact Nat.le_succ_of_le (h.wire c i e he)
    · cases hconns c i with
      | inl hk => rw [hk]; exact h.onlyFirst c i n
      | inr hk => rw [hk]; exact h.onlyFirst c i n

theorem Wired.step (h : Wired s) (hlog : Logged s) (hstep : step s a = some t) :
    Wired t := by
  cases stepped hstep with
  | publish p => exact h.publish p
  | connect c =>
    have hconn : Wired (s.setConn c ((s.web c).conn+1) ⟨[],[.ready (s.nextSeq+1)],
        if 0 < (s.web c).lastSeq then some (s.web c).lastSeq else none⟩) :=
      h.setConn (by simp) (by simp) (by simp)
    exact ⟨hconn.queue,hconn.wire,hconn.onlyFirst⟩
  | replay c i since hpending =>
    apply h.setConn
    · intro e he
      by_cases hm : (c,i) ∈ s.clients
      · rw [if_pos hm] at he
        cases mem_foldl_enqueue he with
        | inl hq => exact h.queue c i e hq
        | inr ha =>
          have hh : e ∈ s.history := List.mem_of_mem_filter ha
          rw [hlog.history] at hh
          rw [hlog.seq]
          exact seq_le_of_mem hlog.numbered (List.mem_of_mem_drop hh)
      · rw [if_neg hm] at he
        exact h.queue c i e he
    · exact h.wire c i
    · exact h.onlyFirst c i
  | send c i e rest hqueue =>
    have hq := h.queue c i
    rw [hqueue] at hq
    apply h.setConn
    · exact fun e' he => hq e' (List.mem_cons_of_mem _ he)
    · intro e' he
      cases List.mem_append.mp he with
      | inl hm => exact h.wire c i e' hm
      | inr hm =>
        obtain rfl : e' = e := by simpa using hm
        exact hq e' List.mem_cons_self
    · intro n hm
      cases hw : (s.conns c i).wire with
      | nil => simp [hw] at hm
      | cons f fs =>
        have hno := h.onlyFirst c i n
        simp only [hw,List.cons_append,List.tail_cons,List.mem_append,List.mem_singleton,
          reduceCtorEq,or_false] at hm hno
        exact hno hm
  | receive c f rest hc hwire =>
    have hw := h.wire c (s.web c).conn
    have hno := h.onlyFirst c (s.web c).conn
    rw [hwire] at hw hno
    have hconn : Wired (s.setConn c (s.web c).conn
        { s.conns c (s.web c).conn with wire := rest }) :=
      h.setConn (h.queue c _) (fun e he => hw e (List.mem_cons_of_mem _ he))
        (fun n hm => hno n (List.mem_of_mem_tail hm))
    exact ⟨hconn.queue,hconn.wire,hconn.onlyFirst⟩
  | drop c => exact ⟨h.queue,h.wire,h.onlyFirst⟩
  | cleanup c i =>
    have hconn : Wired (s.setConn c i { s.conns c i with queue := [] }) :=
      h.setConn (by simp) (h.wire c i) (h.onlyFirst c i)
    exact ⟨hconn.queue,hconn.wire,hconn.onlyFirst⟩

omit [DecidableEq C] in
theorem Wired.tail (h : Wired s) (c : C) {i : ℕ} {f : Frame E}
    (hwire : (s.conns c i).wire = f::rest) (n : ℕ) : .ready n ∉ rest := by
  have hno := h.onlyFirst c i n
  rwa [hwire,List.tail_cons] at hno

theorem Caught.setConn (h : Caught c s) {c' : C} {i : ℕ} {k : Conn E}
    (hown : c' = c → i = (s.web c).conn → (s.web c).connected = true → Doomed (s.web c) k →
      Doomed (s.web c) (s.conn c)) : Caught c (s.setConn c' i k) := by
  refine ⟨h.cursor,fun hc hd => h.ready hc ?_⟩
  by_cases hcur : c = c' ∧ (s.web c).conn = i
  · obtain ⟨rfl,rfl⟩ := hcur
    rw [State.conn,setConn_web,setConn_conns] at hd
    exact hown rfl rfl hc hd
  · rwa [State.conn,setConn_web,setConn_conns_ne _ _ hcur] at hd

theorem Caught.setClient (h : Caught c s) {c' : C} (hne : c ≠ c') (w : Client E) :
    Caught c (s.setClient c' w) := by
  have hweb := setClient_web_ne s w hne
  refine ⟨hweb ▸ h.cursor,?_⟩
  rw [State.conn,hweb]
  exact h.ready

theorem Caught.publish (h : Caught c s) (p : E) : Caught c (publish s p) := by
  have hweb : (Ws.publish s p).web = s.web := by
    rw [Ws.publish]
    split <;> rfl
  have hseq : s.nextSeq ≤ (Ws.publish s p).nextSeq := by
    rw [Ws.publish]
    split
    · exact Nat.le_succ _
    · exact Nat.le_refl _
  have hwire : ((Ws.publish s p).conn c).wire = (s.conn c).wire := by
    rw [State.conn,hweb,Ws.publish]
    split
    · dsimp only
      split <;> rfl
    · rfl
  refine ⟨hweb ▸ Nat.le_trans h.cursor hseq,?_⟩
  rw [Doomed,hweb,hwire]
  exact h.ready

theorem Caught.connect (h : Caught c s) (c' : C) : Caught c (connect s c') := by
  by_cases heq : c = c'
  · subst heq
    have hweb : ((Ws.connect s c).web c).lastSeq = (s.web c).lastSeq := by simp [Ws.connect]
    refine ⟨hweb ▸ h.cursor,fun _ => ?_⟩
    rintro ⟨n,rest,hwire,hle⟩
    have hn : n = s.nextSeq+1 := by
      simp only [Ws.connect,State.conn,setClient_web,setClient_conns,setConn_conns,
        List.cons.injEq,Frame.ready.injEq] at hwire
      exact hwire.1.symm
    rw [hweb,hn] at hle
    have hcursor := h.cursor
    omega
  · have hconn : Caught c (s.setConn c' ((s.web c').conn+1) ⟨[],[.ready (s.nextSeq+1)],
        if 0 < (s.web c').lastSeq then some (s.web c').lastSeq else none⟩) :=
      h.setConn fun he => absurd he.symm heq
    have hclient := hconn.setClient heq { s.web c' with
      connected := true
      conn := (s.web c').conn+1
      first := some ((s.web c').first.getD s.published.length)
      base := if (s.web c').first.isSome then (s.web c').base else s.recorded.length }
    exact ⟨hclient.cursor,hclient.ready⟩

omit [DecidableEq C] in
theorem Caught.handleEnvelope (h : Caught c s) (hc : (s.web c).connected = true) {f : Frame E} (hwire : (s.conn c).wire = f::rest) :
    (handleEnvelope (s.web c) f).resets = (s.web c).resets ∧
      ∀ n, f = .ready n → Ws.handleEnvelope (s.web c) f = s.web c := by
  cases f with
  | event e => exact ⟨rfl,fun n hn => by cases hn⟩
  | ready n =>
    have hkeep : Ws.handleEnvelope (s.web c) (.ready n) = s.web c :=
      if_neg fun hle => h.ready hc ⟨n,rest,hwire,hle⟩
    exact ⟨by rw [hkeep],fun _ _ => hkeep⟩

theorem Caught.receive (h : Caught c s) (hw : Wired s) {c' : C} {f : Frame E} (hc : (s.web c').connected = true)
    (hwire : (s.conns c' (s.web c').conn).wire = f::rest) :
    Caught c ((s.setConn c' (s.web c').conn
      { s.conns c' (s.web c').conn with wire := rest }).setClient c'
        (Ws.handleEnvelope (s.web c') f)) := by
  have hno := hw.tail c' hwire
  have hconn : Caught c (s.setConn c' (s.web c').conn
      { s.conns c' (s.web c').conn with wire := rest }) := by
    apply h.setConn
    rintro rfl - - ⟨n,fs,hfs,-⟩
    have hrest : rest = .ready n::fs := hfs
    exact absurd (hrest ▸ List.mem_cons_self) (hno n)
  by_cases heq : c = c'
  · subst heq
    refine ⟨?_,fun _ => ?_⟩
    · rw [setClient_web]
      cases f with
      | ready n =>
        rw [(h.handleEnvelope hc hwire).2 n rfl]
        exact h.cursor
      | event e =>
        have hseq := hw.wire c _ e (hwire ▸ List.mem_cons_self)
        rw [Ws.handleEnvelope]
        show (if (s.web c).lastSeq < e.seq then e.seq else (s.web c).lastSeq) ≤ s.nextSeq
        split
        · exact hseq
        · exact h.cursor
    · rintro ⟨n,fs,hfs,-⟩
      simp only [State.conn,setClient_web,handleEnvelope_conn,setClient_conns,setConn_conns] at hfs
      exact absurd (hfs ▸ List.mem_cons_self) (hno n)
  · exact hconn.setClient heq _

theorem Caught.step (h : Caught c s) (hw : Wired s) (hstep : step s a = some t) :
    Caught c t ∧ (t.web c).resets = (s.web c).resets := by
  cases stepped hstep with
  | publish p =>
    refine ⟨h.publish p,?_⟩
    rw [Ws.publish]
    split <;> rfl
  | connect c' =>
    refine ⟨h.connect c',?_⟩
    by_cases heq : c = c'
    · subst heq
      simp [Ws.connect]
    · have hweb : (Ws.connect s c').web c = s.web c := setClient_web_ne _ _ heq
      rw [hweb]
  | replay c' i since hpending =>
    refine ⟨h.setConn ?_,rfl⟩
    rintro rfl rfl - hd
    exact hd
  | send c' i e rest hqueue =>
    refine ⟨h.setConn ?_,rfl⟩
    rintro rfl rfl - ⟨n,fs,hfs,hle⟩
    cases hwire : (s.conn c').wire with
    | nil =>
      rw [State.conn] at hwire
      simp [hwire] at hfs
    | cons f gs =>
      have hwire' := hwire
      rw [State.conn] at hwire'
      simp only [hwire',List.cons_append,List.cons.injEq] at hfs
      exact ⟨n,gs,by rw [hwire,hfs.1],hle⟩
  | receive c' f rest hc hwire =>
    refine ⟨h.receive hw hc hwire,?_⟩
    by_cases heq : c = c'
    · subst heq
      rw [setClient_web]
      exact (h.handleEnvelope hc hwire).1
    · rw [setClient_web_ne _ _ heq]
      rfl
  | drop c' =>
    by_cases heq : c = c'
    · subst heq
      refine ⟨⟨?_,fun hc => ?_⟩,?_⟩
      · rw [setClient_web]
        exact h.cursor
      · rw [setClient_web] at hc
        cases hc
      · rw [setClient_web]
    · exact ⟨h.setClient heq _,by rw [setClient_web_ne _ _ heq]⟩
  | cleanup c' i =>
    have hconn : Caught c (s.setConn c' i { s.conns c' i with queue := [] }) := by
      apply h.setConn
      rintro rfl rfl - hd
      exact hd
    exact ⟨⟨hconn.cursor,hconn.ready⟩,rfl⟩

/-- After its first reset a client is caught up. -/
def ResetOnce (c : C) (s : State C E) : Prop :=
  (s.web c).resets = 0 ∨ (s.web c).resets = 1 ∧ Caught c s

theorem ResetOnce.step (h : ResetOnce c s) (hw : Wired s)
    (hstep : step s a = some t) : ResetOnce c t := by
  cases h with
  | inr hone =>
    have hcaught := hone.2.step hw hstep
    exact .inr ⟨hcaught.2.trans hone.1,hcaught.1⟩
  | inl hzero =>
    cases stepped hstep with
    | publish p =>
      left
      rw [Ws.publish]
      split <;> exact hzero
    | connect c' =>
      left
      by_cases heq : c = c'
      · subst heq
        simpa [Ws.connect] using hzero
      · have hweb : (Ws.connect s c').web c = s.web c := setClient_web_ne _ _ heq
        rwa [hweb]
    | replay c' i since hpending => exact .inl hzero
    | send c' i e rest hqueue => exact .inl hzero
    | receive c' f rest hc hwire =>
      by_cases heq : c = c'
      · subst heq
        cases f with
        | event e =>
          left
          rw [setClient_web]
          exact hzero
        | ready n =>
          by_cases hle : n ≤ (s.web c).lastSeq
          · have hreset : handleEnvelope (s.web c) (.ready n) =
                { s.web c with lastSeq := 0, connected := false, resets := (s.web c).resets+1 } :=
              if_pos hle
            right
            refine ⟨?_,?_,fun hc' => ?_⟩
            · rw [setClient_web,hreset,hzero]
            · rw [setClient_web,hreset]
              exact Nat.zero_le _
            · rw [setClient_web,hreset] at hc'
              cases hc'
          · have hkeep : handleEnvelope (s.web c) (.ready n) = s.web c := if_neg hle
            left
            rw [setClient_web,hkeep]
            exact hzero
      · left
        rw [setClient_web_ne _ _ heq]
        exact hzero
    | drop c' =>
      left
      by_cases heq : c = c'
      · subst heq
        rw [setClient_web]
        exact hzero
      · rw [setClient_web_ne _ _ heq]
        exact hzero
    | cleanup c' i => exact .inl hzero

end Machine

end MinimaxCode.Ws
