import MinimaxCode.OrderedDict
import MinimaxCode.PyText
import MinimaxCode.Runs

/-!
# The pool of hub connections

The pool keeps one connection for each URL and principal and counts the handles to it. A
handle finds its entry again by the key, and behind the key there may be another connection
by then.
-/

namespace MinimaxCode.HubPool

open PyText OrderedDict Runs

structure ConnKey where
  url : PyStr
  principal : PyStr
  deriving DecidableEq

inductive ConnectionKind
  | harness
  | toolServer
  deriving DecidableEq

def ConnectionKind.repr : ConnectionKind → PyStr
  | .harness => lit "<ConnectionKind.Harness: 'harness'>"
  | .toolServer => lit "<ConnectionKind.ToolServer: 'tool_server'>"

/-- A connection, told from others by its number. -/
structure HubConnection where
  id : ℕ
  kind : ConnectionKind
  deriving DecidableEq

structure Pooled where
  conn : HubConnection
  lastHandout : ℤ
  inUse : ℕ

structure PooledConnection where
  conn : HubConnection
  key : ConnKey
  released : Bool

/-- The scheme and the host of a URL, both in lower case. -/
structure ParsedUrl where
  scheme : PyStr
  hostname : Option PyStr

inductive PoolError
  | valueError
  | insecureScheme (url : PyStr)
  | invalidConfig (message : PyStr)

inductive Acquired
  | handle (h : PooledConnection)
  | opening
  | error (e : PoolError)

def loopbackHosts : List PyStr := [lit "127.0.0.1",lit "::1",lit "localhost"]

def hostIsLoopback (url : ParsedUrl) : Bool :=
  match url.hostname with
  | none => false
  | some host => host ∈ loopbackHosts

/-- The pool, the calls that wait for the opener and the handles given out so far. The
connections are numbered in the order in which they were opened, and those that a sweep
removed are remembered. -/
structure HubConnectionPool where
  connections : List (ConnKey × Pooled)
  opener : Bool
  now : ℤ
  opening : List (ConnKey × ConnectionKind)
  opened : ℕ
  issued : List PooledConnection
  swept : List HubConnection

namespace HubConnectionPool

def new (opener : Bool) : HubConnectionPool := ⟨[],opener,0,[],0,[],[]⟩

/-- What `get_or_connect` does with an entry that it finds under its key. The clock of the
entry is set before the kinds are compared. -/
def reuse (p : HubConnectionPool) (key : ConnKey) (kind : ConnectionKind) (entry : Pooled) :
    Acquired × HubConnectionPool :=
  let entry := {entry with lastHandout := p.now}
  if entry.conn.kind ≠ kind then
    (.error (.invalidConfig (lit "pool entry for "++key.url++lit " bound to "++
        entry.conn.kind.repr++lit "; rebuild requested "++kind.repr)),
      {p with connections := assign p.connections key entry})
  else
    let h : PooledConnection := ⟨entry.conn,key,false⟩
    (.handle h,{p with
      connections := assign p.connections key {entry with inUse := entry.inUse+1}
      issued := p.issued++[h]})

/-- `get_or_connect` up to its wait for the opener. -/
def getOrConnect (urlparse : PyStr → Option ParsedUrl) (p : HubConnectionPool)
    (url principal : PyStr) (kind : ConnectionKind) (allowInsecureWs : Bool) :
    Acquired × HubConnectionPool :=
  match urlparse url with
  | none => (.error .valueError,p)
  | some parsed =>
    if parsed.scheme ≠ lit "wss" ∧ hostIsLoopback parsed = false ∧ allowInsecureWs = false then
      (.error (.insecureScheme url),p)
    else
      let key : ConnKey := ⟨url,principal⟩
      match lookup p.connections key with
      | some existing => p.reuse key kind existing
      | none =>
        if p.opener then (.opening,{p with opening := p.opening++[(key,kind)]})
        else (.error (.invalidConfig (lit "no HubConnection opener registered "++
            lit "(connection.rs not yet migrated); "++
            lit "pass opener= to HubConnectionPool for tests")),p)

/-- The opener gives the `i`-th waiting call a connection, which may find a winner in its
place. -/
def openSucceeds (p : HubConnectionPool) (i : ℕ) (announced : ConnectionKind) :
    Option (Acquired × HubConnectionPool) :=
  match p.opening[i]? with
  | none => none
  | some (key,kind) =>
    let conn : HubConnection := ⟨p.opened,announced⟩
    let p := {p with opening := p.opening.eraseIdx i, opened := p.opened+1}
    match lookup p.connections key with
    | some winner => some (p.reuse key kind winner)
    | none =>
      let h : PooledConnection := ⟨conn,key,false⟩
      some (.handle h,{p with
        connections := assign p.connections key ⟨conn,p.now,1⟩
        issued := p.issued++[h]})

/-- The opener raises, or the waiting call is cancelled. -/
def openFails (p : HubConnectionPool) (i : ℕ) : HubConnectionPool :=
  {p with opening := p.opening.eraseIdx i}

/-- `_release`. -/
def releaseKey (p : HubConnectionPool) (key : ConnKey) : HubConnectionPool :=
  match lookup p.connections key with
  | none => p
  | some pooled =>
    if 0 < pooled.inUse then
      {p with connections := assign p.connections key {pooled with inUse := pooled.inUse-1}}
    else p

/-- `PooledConnection.release` of the `i`-th handle. -/
def release (p : HubConnectionPool) (i : ℕ) : Option HubConnectionPool :=
  match p.issued[i]? with
  | none => none
  | some h =>
    if h.released then some p
    else some (releaseKey {p with issued := p.issued.set i {h with released := true}} h.key)

def forget (p : HubConnectionPool) (key : ConnKey) : HubConnectionPool :=
  {p with connections := remove p.connections key}

def forgetIf (p : HubConnectionPool) (key : ConnKey) (predicate : HubConnection → Bool) :
    Bool × HubConnectionPool :=
  match lookup p.connections key with
  | none => (false,p)
  | some pooled => if predicate pooled.conn then (true,p.forget key) else (false,p)

def evictable (p : HubConnectionPool) (idleTtl : ℤ) (pooled : Pooled) : Bool :=
  pooled.inUse = 0 && idleTtl ≤ p.now-pooled.lastHandout

def sweepIdle (p : HubConnectionPool) (idleTtl : ℤ) : ℕ × HubConnectionPool :=
  let evicted := p.connections.filter fun kv => p.evictable idleTtl kv.2
  (evicted.length,{p with
    connections := (keys evicted).foldl remove p.connections
    swept := p.swept++evicted.map fun kv => kv.2.conn})

inductive Event
  | tick (d : ℕ)
  | setOpener (opener : Bool)
  | getOrConnect (url principal : PyStr) (kind : ConnectionKind) (allowInsecureWs : Bool)
  | openSucceeds (i : ℕ) (announced : ConnectionKind)
  | openFails (i : ℕ)
  | release (i : ℕ)
  | forget (key : ConnKey)
  | forgetIf (key : ConnKey) (predicate : HubConnection → Bool)
  | sweepIdle (idleTtl : ℤ)

def step (urlparse : PyStr → Option ParsedUrl) (p : HubConnectionPool) :
    Event → Option HubConnectionPool
  | .tick d => some {p with now := p.now+d}
  | .setOpener opener => some {p with opener}
  | .getOrConnect url principal kind allow => some (p.getOrConnect urlparse url principal kind allow).2
  | .openSucceeds i announced => (p.openSucceeds i announced).map Prod.snd
  | .openFails i => some (p.openFails i)
  | .release i => p.release i
  | .forget key => some (p.forget key)
  | .forgetIf key predicate => some (p.forgetIf key predicate).2
  | .sweepIdle idleTtl => some (p.sweepIdle idleTtl).2

variable {p t : HubConnectionPool} {key key' : ConnKey} {c : HubConnection} {e : Pooled}
  {h : PooledConnection}

/-- The number of unreleased handles to a connection. -/
def live (p : HubConnectionPool) (c : HubConnection) : ℕ :=
  p.issued.countP fun h => !h.released && h.conn = c

/-- Every entry counts the unreleased handles to its connection, and there are none to a
connection that a sweep removed. -/
structure Accounted (p : HubConnectionPool) : Prop where
  inUse : ∀ key e, lookup p.connections key = some e → e.inUse = p.live e.conn
  swept : ∀ c ∈ p.swept, p.live c = 0

/-- A handle that is released finds its own connection behind its key, or nothing that it
could take from. -/
def Keeps (p : HubConnectionPool) : Event → Prop
  | .release i => ∀ h, p.issued[i]? = some h → h.released = false →
    ∀ e, lookup p.connections h.key = some e → e.conn = h.conn ∨ e.inUse = 0
  | _ => True

/-- The connection was given out under the key or stands behind it. -/
def Known (p : HubConnectionPool) (c : HubConnection) (key : ConnKey) : Prop :=
  (∃ h ∈ p.issued, h.conn = c ∧ h.key = key) ∨ ∃ e, lookup p.connections key = some e ∧ e.conn = c

/-- A connection has one key for all time, and a swept one is not behind any. -/
structure Sound (p : HubConnectionPool) : Prop where
  nodup : (keys p.connections).Nodup
  fresh : ∀ c key, p.Known c key → c.id < p.opened
  unique : ∀ c key key', p.Known c key → p.Known c key' → key = key'
  gone : ∀ c ∈ p.swept, c.id < p.opened ∧ ∀ key e, lookup p.connections key = some e → e.conn ≠ c

theorem known_of_issued (hh : h ∈ p.issued) : p.Known h.conn h.key :=
  .inl ⟨h,hh,rfl,rfl⟩

theorem known_of_lookup (he : lookup p.connections key = some e) : p.Known e.conn key :=
  .inr ⟨e,he,rfl⟩

theorem Sound.new (opener : Bool) : (new opener).Sound := by
  have hnone : ∀ c key, ¬ (HubConnectionPool.new opener).Known c key := by
    rintro c key (⟨h,hh,-⟩ | ⟨e,he,-⟩)
    · cases hh
    · cases he
  exact ⟨List.nodup_nil,fun c key hk => (hnone c key hk).elim,
    fun c key _ hk => (hnone c key hk).elim,fun c hc => absurd hc List.not_mem_nil⟩

theorem Accounted.new (opener : Bool) : (new opener).Accounted :=
  ⟨fun _ _ he => absurd he (Option.some_ne_none _).symm,fun _ hc => absurd hc List.not_mem_nil⟩

/-- What is known afterwards was known before, but for a connection opened meanwhile, which
comes behind one key. -/
theorem Sound.step (h : p.Sound) (hnodup : (keys t.connections).Nodup)
    (hopened : p.opened ≤ t.opened)
    (hknown : ∀ c key, t.Known c key →
      p.Known c key ∨ p.opened ≤ c.id ∧ c.id < t.opened ∧ ∀ key', t.Known c key' → key' = key)
    (hswept : ∀ c ∈ t.swept, c.id < p.opened ∧
      ∀ key e, lookup t.connections key = some e → e.conn ≠ c) : t.Sound := by
  refine ⟨hnodup,fun c key hk => ?_,fun c key key' hk hk' => ?_,fun c hc => ?_⟩
  · rcases hknown c key hk with hold | ⟨-,hlt,-⟩
    · exact (h.fresh c key hold).trans_le hopened
    · exact hlt
  · rcases hknown c key hk with hold | ⟨-,-,huniq⟩
    · rcases hknown c key' hk' with hold' | ⟨-,-,huniq⟩
      · exact h.unique c key key' hold hold'
      · exact huniq key hk
    · exact (huniq key' hk').symm
  · exact ⟨(hswept c hc).1.trans_le hopened,(hswept c hc).2⟩

theorem Sound.of_known (h : p.Sound) (hnodup : (keys t.connections).Nodup)
    (hopened : p.opened ≤ t.opened) (hswept : t.swept = p.swept)
    (hentry : ∀ key e, lookup t.connections key = some e →
      ∃ e₀, lookup p.connections key = some e₀ ∧ e₀.conn = e.conn)
    (hissued : ∀ h ∈ t.issued, p.Known h.conn h.key) : t.Sound := by
  refine h.step hnodup hopened (fun c key hk => .inl ?_) (fun c hc => ?_)
  · rcases hk with ⟨x,hx,rfl,rfl⟩ | ⟨e,he,rfl⟩
    · exact hissued x hx
    · obtain ⟨e₀,he₀,hconn⟩ := hentry key e he
      exact .inr ⟨e₀,he₀,hconn⟩
  · rw [hswept] at hc
    refine ⟨(h.gone c hc).1,fun key e he => ?_⟩
    obtain ⟨e₀,he₀,hconn⟩ := hentry key e he
    rw [← hconn]
    exact (h.gone c hc).2 key e₀ he₀

theorem entry_of_assign {d : List (ConnKey × Pooled)} {e e' : Pooled}
    (he : lookup d key = some e) (hconn : e.conn = e'.conn) (key' : ConnKey) (x : Pooled)
    (hx : lookup (assign d key e') key' = some x) :
    ∃ e₀, lookup d key' = some e₀ ∧ e₀.conn = x.conn := by
  rw [lookup_assign] at hx
  by_cases hk : key = key'
  · subst hk
    rw [if_pos rfl] at hx
    cases hx
    exact ⟨e,he,hconn⟩
  · rw [if_neg hk] at hx
    exact ⟨x,hx,rfl⟩

theorem live_append (hi : t.issued = p.issued++[h])
    (hr : h.released = false) (c : HubConnection) :
    t.live c = p.live c+if h.conn = c then 1 else 0 := by
  rw [live,live,hi,List.countP_append,List.countP_singleton,hr]
  simp

theorem reuse_sound (h : p.Sound) (kind : ConnectionKind)
    (he : lookup p.connections key = some e) : (p.reuse key kind e).2.Sound := by
  rw [reuse]
  split
  · exact h.of_known (nodup_keys_assign h.nodup) le_rfl rfl (entry_of_assign he rfl)
      fun x hx => known_of_issued hx
  · refine h.of_known (nodup_keys_assign h.nodup) le_rfl rfl (entry_of_assign he rfl)
      fun x hx => ?_
    rcases List.mem_append.mp hx with hx | hx
    · exact known_of_issued hx
    · rw [List.mem_singleton.mp hx]
      exact known_of_lookup he

theorem reuse_accounted (h : p.Sound) (ha : p.Accounted) (kind : ConnectionKind)
    (he : lookup p.connections key = some e) : (p.reuse key kind e).2.Accounted := by
  rw [reuse]
  split
  · refine ⟨fun key' x hx => ?_,ha.swept⟩
    dsimp only at hx
    rw [lookup_assign] at hx
    by_cases hk : key = key'
    · rw [if_pos hk] at hx
      cases hx
      exact ha.inUse key e he
    · rw [if_neg hk] at hx
      exact ha.inUse key' x hx
  · refine ⟨fun key' x hx => ?_,fun c hc => ?_⟩
    · dsimp only at hx ⊢
      rw [live_append (p := p) rfl rfl]
      rw [lookup_assign] at hx
      by_cases hk : key = key'
      · rw [if_pos hk] at hx
        cases hx
        dsimp only
        rw [if_pos rfl,ha.inUse key e he]
      · rw [if_neg hk] at hx
        have hne : e.conn ≠ x.conn := fun heq =>
          hk (h.unique e.conn key key' (known_of_lookup he) (.inr ⟨x,hx,heq.symm⟩))
        dsimp only
        rw [if_neg hne,Nat.add_zero]
        exact ha.inUse key' x hx
    · dsimp only
      rw [live_append rfl rfl,if_neg ((h.gone c hc).2 key e he),ha.swept c hc]

/-- An operation keeps what is known and keeps the accounts in order. -/
def Settles (p t : HubConnectionPool) : Prop := t.Sound ∧ (p.Accounted → t.Accounted)

theorem Settles.refl (h : p.Sound) : Settles p p := ⟨h,id⟩

theorem Settles.of_eq (h : p.Sound) (hc : t.connections = p.connections)
    (hi : t.issued = p.issued) (hs : t.swept = p.swept) (ho : p.opened ≤ t.opened) :
    Settles p t := by
  have hlive : ∀ c, t.live c = p.live c := fun c => by rw [live,live,hi]
  refine ⟨h.of_known (by rw [hc]; exact h.nodup) ho hs (fun key e he => ⟨e,hc ▸ he,rfl⟩)
    fun x hx => known_of_issued (hi ▸ hx),fun ha => ⟨fun key e he => ?_,fun c hc' => ?_⟩⟩
  · rw [hc] at he
    rw [hlive]
    exact ha.inUse key e he
  · rw [hs] at hc'
    rw [hlive]
    exact ha.swept c hc'

theorem getOrConnect_settles (urlparse : PyStr → Option ParsedUrl) (h : p.Sound)
    (url principal : PyStr) (kind : ConnectionKind) (allow : Bool) :
    Settles p (p.getOrConnect urlparse url principal kind allow).2 := by
  rw [getOrConnect]
  cases urlparse url with
  | none => exact .refl h
  | some parsed =>
    dsimp only
    split
    · exact .refl h
    · cases he : lookup p.connections ⟨url,principal⟩ with
      | some e => exact ⟨reuse_sound h kind he,fun ha => reuse_accounted h ha kind he⟩
      | none =>
        dsimp only
        split
        · exact .of_eq h rfl rfl rfl le_rfl
        · exact .refl h

theorem insert_settles (h : p.Sound) (he : lookup p.connections key = none)
    (announced : ConnectionKind) (opening : List (ConnKey × ConnectionKind)) :
    Settles p {p with
      opening, opened := p.opened+1
      connections := assign p.connections key ⟨⟨p.opened,announced⟩,p.now,1⟩
      issued := p.issued++[⟨⟨p.opened,announced⟩,key,false⟩]} := by
  have hfresh : ∀ c key, p.Known c key → (⟨p.opened,announced⟩ : HubConnection) ≠ c := by
    rintro c key hk rfl
    exact (h.fresh _ _ hk).ne rfl
  have hentry : ∀ key' x, lookup (assign p.connections key ⟨⟨p.opened,announced⟩,p.now,1⟩) key' =
      some x → key = key' ∧ x = ⟨⟨p.opened,announced⟩,p.now,1⟩ ∨
        lookup p.connections key' = some x := by
    intro key' x hx
    rw [lookup_assign] at hx
    by_cases hk : key = key'
    · rw [if_pos hk] at hx
      cases hx
      exact .inl ⟨hk,rfl⟩
    · rw [if_neg hk] at hx
      exact .inr hx
  refine ⟨h.step (nodup_keys_assign h.nodup) (Nat.le_succ _) ?_ ?_,fun ha => ⟨?_,?_⟩⟩
  · have hknown : ∀ c key', Known {p with
          opening, opened := p.opened+1
          connections := assign p.connections key ⟨⟨p.opened,announced⟩,p.now,1⟩
          issued := p.issued++[⟨⟨p.opened,announced⟩,key,false⟩]} c key' →
        p.Known c key' ∨ c = ⟨p.opened,announced⟩ ∧ key' = key := by
      rintro c key' (⟨x,hx,rfl,rfl⟩ | ⟨x,hx,rfl⟩)
      · rcases List.mem_append.mp hx with hx | hx
        · exact .inl (known_of_issued hx)
        · rw [List.mem_singleton.mp hx]
          exact .inr ⟨rfl,rfl⟩
      · rcases hentry key' x hx with ⟨rfl,rfl⟩ | hx
        · exact .inr ⟨rfl,rfl⟩
        · exact .inl (known_of_lookup hx)
    intro c key' hk
    rcases hknown c key' hk with hold | ⟨rfl,rfl⟩
    · exact .inl hold
    · refine .inr ⟨le_rfl,Nat.lt_succ_self _,fun key' hk' => ?_⟩
      rcases hknown _ key' hk' with hold | ⟨-,hkey⟩
      · exact absurd rfl (hfresh _ _ hold)
      · exact hkey
  · refine fun c hc => ⟨(h.gone c hc).1,fun key' x hx => ?_⟩
    rcases hentry key' x hx with ⟨-,rfl⟩ | hx
    · rintro rfl
      exact (h.gone _ hc).1.ne rfl
    · exact (h.gone c hc).2 key' x hx
  · intro key' x hx
    rw [live_append (p := p) rfl rfl]
    rcases hentry key' x hx with ⟨-,rfl⟩ | hx
    · have hnone : p.live ⟨p.opened,announced⟩ = 0 := by
        refine List.countP_eq_zero.mpr fun x hx hcount => ?_
        have hconn := of_decide_eq_true (Bool.and_eq_true_iff.mp hcount).2
        exact hfresh _ _ (known_of_issued hx) hconn.symm
      dsimp only
      rw [hnone,if_pos rfl]
    · dsimp only
      rw [if_neg (hfresh _ _ (known_of_lookup hx)),Nat.add_zero]
      exact ha.inUse key' x hx
  · intro c hc
    have hne : (⟨p.opened,announced⟩ : HubConnection) ≠ c := by
      rintro rfl
      exact (h.gone _ hc).1.ne rfl
    rw [live_append (p := p) rfl rfl]
    dsimp only
    rw [if_neg hne,Nat.add_zero]
    exact ha.swept c hc

theorem openSucceeds_settles {a : Acquired} {i : ℕ} {announced : ConnectionKind} (h : p.Sound)
    (hst : p.openSucceeds i announced = some (a,t)) : Settles p t := by
  rw [openSucceeds] at hst
  split at hst
  · cases hst
  · next key kind _ =>
    dsimp only at hst
    split at hst
    · next e he =>
      have hp := Settles.of_eq (t := {p with opening := p.opening.eraseIdx i, opened := p.opened+1}) h
        rfl rfl rfl (Nat.le_succ _)
      have ht : t = _ := (congrArg Prod.snd (Option.some.inj hst)).symm
      rw [ht]
      exact ⟨reuse_sound hp.1 kind he,fun ha => reuse_accounted hp.1 (hp.2 ha) kind he⟩
    · next he =>
      cases hst
      exact insert_settles h he announced _

theorem remove_settles (h : p.Sound) (connections : List (ConnKey × Pooled))
    (hnodup : (keys connections).Nodup)
    (hsub : ∀ key e, lookup connections key = some e → lookup p.connections key = some e)
    (swept : List HubConnection)
    (hswept : ∀ c ∈ swept, ∃ key e, lookup p.connections key = some e ∧ e.conn = c ∧
      e.inUse = 0 ∧ lookup connections key = none) :
    Settles p {p with connections, swept := p.swept++swept} := by
  refine ⟨h.step hnodup le_rfl (fun c key hk => .inl ?_) fun c hc => ?_,
    fun ha => ⟨fun key e he => ha.inUse key e (hsub key e he),fun c hc => ?_⟩⟩
  · rcases hk with hk | ⟨e,he,hconn⟩
    · exact .inl hk
    · exact .inr ⟨e,hsub key e he,hconn⟩
  · rcases List.mem_append.mp hc with hc | hc
    · exact ⟨(h.gone c hc).1,fun key e he => (h.gone c hc).2 key e (hsub key e he)⟩
    · obtain ⟨key,e,he,rfl,-,hnone⟩ := hswept c hc
      refine ⟨h.fresh _ key (known_of_lookup he),fun key' e' he' heq => ?_⟩
      have hkey : key = key' :=
        h.unique e.conn key key' (known_of_lookup he) (.inr ⟨e',hsub key' e' he',heq⟩)
      rw [← hkey,hnone] at he'
      cases he'
  · rcases List.mem_append.mp hc with hc | hc
    · exact ha.swept c hc
    · obtain ⟨key,e,he,rfl,hzero,-⟩ := hswept c hc
      exact (ha.inUse key e he).symm.trans hzero

theorem forget_settles (h : p.Sound) (key : ConnKey) : Settles p (p.forget key) := by
  have hsub : ∀ key' e, lookup (remove p.connections key) key' = some e →
      lookup p.connections key' = some e := by
    intro key' e he
    rw [lookup_remove] at he
    split at he
    · cases he
    · exact he
  have hp := remove_settles h (remove p.connections key) (nodup_keys_remove h.nodup) hsub []
    fun c hc => absurd hc List.not_mem_nil
  rw [List.append_nil] at hp
  exact hp

theorem forgetIf_settles (h : p.Sound) (key : ConnKey) (predicate : HubConnection → Bool) :
    Settles p (p.forgetIf key predicate).2 := by
  rw [forgetIf]
  cases lookup p.connections key with
  | none => exact .refl h
  | some e =>
    dsimp only
    split
    · exact forget_settles h key
    · exact .refl h

theorem lookup_foldl_remove (d : List (ConnKey × Pooled)) (ks : List ConnKey) (key : ConnKey) :
    lookup (ks.foldl remove d) key = if key ∈ ks then none else lookup d key := by
  induction ks generalizing d with
  | nil => rw [List.foldl_nil,if_neg List.not_mem_nil]
  | cons k ks ih =>
    rw [List.foldl_cons,ih,lookup_remove]
    by_cases hk : key ∈ ks
    · rw [if_pos hk,if_pos (List.mem_cons_of_mem k hk)]
    · rw [if_neg hk]
      by_cases he : k = key
      · rw [if_pos he,if_pos (he ▸ List.mem_cons_self)]
      · rw [if_neg he,if_neg]
        rintro (_ | ⟨_,hmem⟩)
        · exact he rfl
        · exact hk hmem

theorem nodup_keys_foldl_remove {d : List (ConnKey × Pooled)} (hd : (keys d).Nodup)
    (ks : List ConnKey) : (keys (ks.foldl remove d)).Nodup := by
  induction ks generalizing d with
  | nil => exact hd
  | cons k ks ih => exact ih (nodup_keys_remove hd)

theorem sweepIdle_settles (h : p.Sound) (idleTtl : ℤ) : Settles p (p.sweepIdle idleTtl).2 := by
  refine remove_settles h _ (nodup_keys_foldl_remove h.nodup _) (fun key e he => ?_) _
    fun c hc => ?_
  · rw [lookup_foldl_remove] at he
    split at he
    · cases he
    · exact he
  · obtain ⟨⟨key,e⟩,hmem,rfl⟩ := List.mem_map.mp hc
    obtain ⟨hd,hevict⟩ := List.mem_filter.mp hmem
    refine ⟨key,e,lookup_of_mem h.nodup hd,rfl,?_,?_⟩
    · exact of_decide_eq_true (Bool.and_eq_true_iff.mp hevict).1
    · exact (lookup_foldl_remove _ _ _).trans (if_pos (List.mem_map.mpr ⟨_,hmem,rfl⟩))

theorem live_release {i : ℕ} (hi : p.issued[i]? = some h)
    (hr : h.released = false) (ht : t.issued = p.issued.set i {h with released := true})
    (c : HubConnection) : p.live c = t.live c+if h.conn = c then 1 else 0 := by
  obtain ⟨hlt,hget⟩ := List.getElem?_eq_some_iff.mp hi
  rw [live,live,ht]
  have hpos : h.conn = c → 0 < p.issued.countP fun h => !h.released && h.conn = c := by
    intro hc
    refine List.countP_pos_iff.mpr ⟨h,List.mem_of_getElem? hi,?_⟩
    rw [hr,hc]
    simp
  rw [List.countP_set hlt,hget,hr]
  by_cases hc : h.conn = c
  · have := hpos hc
    simp [hc]
    omega
  · simp [hc]

theorem releaseKey_eq (p : HubConnectionPool) (key : ConnKey) :
    ∃ connections, p.releaseKey key = {p with connections} ∧
      ((keys p.connections).Nodup → (keys connections).Nodup) := by
  rw [releaseKey]
  split
  · exact ⟨p.connections,rfl,id⟩
  · split
    · exact ⟨_,rfl,nodup_keys_assign⟩
    · exact ⟨p.connections,rfl,id⟩

theorem lookup_releaseKey (p : HubConnectionPool) (key key' : ConnKey) :
    lookup (p.releaseKey key).connections key' = (lookup p.connections key').map fun e =>
      if key = key' then {e with inUse := e.inUse-1} else e := by
  rw [releaseKey]
  cases he : lookup p.connections key with
  | none =>
    dsimp only
    by_cases hk : key = key'
    · rw [← hk,he]
      rfl
    · simp [hk]
  | some e =>
    dsimp only
    by_cases hk : key = key'
    · subst hk
      by_cases hpos : 0 < e.inUse
      · rw [if_pos hpos]
        dsimp only
        rw [lookup_assign,if_pos rfl,he]
        simp
      · have hzero : e.inUse-1 = e.inUse := by omega
        rw [if_neg hpos,he]
        simp [hzero]
    · by_cases hpos : 0 < e.inUse
      · rw [if_pos hpos]
        dsimp only
        rw [lookup_assign,if_neg hk]
        simp [hk]
      · rw [if_neg hpos]
        simp [hk]

theorem release_spec {i : ℕ} (h : p.Sound) (hst : p.release i = some t) :
    t.Sound ∧ (p.Accounted → (t.Accounted ↔ p.Keeps (.release i))) := by
  rw [release] at hst
  split at hst
  · cases hst
  next x hi =>
  cases hr : x.released with
  | true =>
    rw [hr,if_pos rfl] at hst
    cases hst
    refine ⟨h,fun ha => ⟨fun _ y hy hfalse => ?_,fun _ => ha⟩⟩
    rw [hi] at hy
    cases hy
    rw [hr] at hfalse
    cases hfalse
  | false =>
    rw [hr,if_neg Bool.false_ne_true] at hst
    have ht := (Option.some.inj hst).symm
    have hlookup := lookup_releaseKey {p with issued := p.issued.set i {x with released := true}} x.key
    obtain ⟨connections,hc,hnodup⟩ :=
      releaseKey_eq {p with issued := p.issued.set i {x with released := true}} x.key
    rw [← ht] at hlookup hc
    have hissued : t.issued = p.issued.set i {x with released := true} := by rw [hc]
    have hswept : t.swept = p.swept := by rw [hc]
    have hlive := fun c => live_release (c := c) hi hr hissued
    have hmem : x ∈ p.issued := List.mem_of_getElem? hi
    constructor
    · refine h.of_known (by rw [hc]; exact hnodup h.nodup) (by rw [hc]) hswept (fun key e he => ?_)
        fun y hy => ?_
      · rw [hlookup] at he
        obtain ⟨e₀,he₀,rfl⟩ := Option.map_eq_some_iff.mp he
        refine ⟨e₀,he₀,?_⟩
        split <;> rfl
      · rw [hissued] at hy
        rcases List.mem_or_eq_of_mem_set hy with hy | rfl
        · exact known_of_issued hy
        · exact known_of_issued (h := x) hmem
    · intro ha
      constructor
      · intro hat y hy _ e he
        rw [hi] at hy
        cases hy
        by_cases hconn : x.conn = e.conn
        · exact .inl hconn.symm
        · have hle := hat.inUse x.key {e with inUse := e.inUse-1} (by
            rw [hlookup]
            dsimp only
            rw [he,Option.map_some,if_pos rfl])
          have hl := hlive e.conn
          rw [if_neg hconn] at hl
          have hin := ha.inUse x.key e he
          dsimp only at hle
          right
          omega
      · intro hk
        refine ⟨fun key e he => ?_,fun c hcs => ?_⟩
        · rw [hlookup] at he
          obtain ⟨e₀,he₀,rfl⟩ := Option.map_eq_some_iff.mp he
          dsimp only at he₀
          have hin := ha.inUse key e₀ he₀
          have hl := hlive e₀.conn
          by_cases hkey : x.key = key
          · subst hkey
            rw [if_pos rfl]
            dsimp only
            by_cases hconn : x.conn = e₀.conn
            · rw [if_pos hconn] at hl
              omega
            · rw [if_neg hconn] at hl
              rcases hk x hi hr e₀ he₀ with heq | hzero
              · exact absurd heq.symm hconn
              · omega
          · have hconn : x.conn ≠ e₀.conn := fun heq =>
              hkey (h.unique e₀.conn x.key key (heq ▸ known_of_issued hmem) (known_of_lookup he₀))
            rw [if_neg hconn] at hl
            rw [if_neg hkey]
            omega
        · rw [hswept] at hcs
          have hl := hlive c
          have hzero := ha.swept c hcs
          omega

theorem step_spec {urlparse : PyStr → Option ParsedUrl} {ev : Event} (h : p.Sound)
    (hst : step urlparse p ev = some t) : t.Sound ∧ (p.Accounted → (t.Accounted ↔ p.Keeps ev)) := by
  have hsettles : Settles p t → p.Keeps ev → t.Sound ∧ (p.Accounted → (t.Accounted ↔ p.Keeps ev)) :=
    fun hs hk => ⟨hs.1,fun ha => ⟨fun _ => hk,fun _ => hs.2 ha⟩⟩
  cases ev with
  | tick d =>
    cases hst
    exact hsettles (.of_eq h rfl rfl rfl le_rfl) trivial
  | setOpener opener =>
    cases hst
    exact hsettles (.of_eq h rfl rfl rfl le_rfl) trivial
  | getOrConnect url principal kind allow =>
    cases hst
    exact hsettles (getOrConnect_settles urlparse h url principal kind allow) trivial
  | openSucceeds i announced =>
    obtain ⟨⟨a,_⟩,ho,rfl⟩ := Option.map_eq_some_iff.mp hst
    exact hsettles (openSucceeds_settles h ho) trivial
  | openFails i =>
    cases hst
    exact hsettles (.of_eq h rfl rfl rfl le_rfl) trivial
  | release i => exact release_spec h hst
  | forget key =>
    cases hst
    exact hsettles (forget_settles h key) trivial
  | forgetIf key predicate =>
    cases hst
    exact hsettles (forgetIf_settles h key predicate) trivial
  | sweepIdle idleTtl =>
    cases hst
    exact hsettles (sweepIdle_settles h idleTtl) trivial

/-- The accounts are in order throughout a run exactly when no handle is released while
another connection that is in use stands behind its key. -/
theorem accounted_throughout_iff {urlparse : PyStr → Option ParsedUrl} {opener : Bool}
    {events : List Event} (h : Run (step urlparse) always (new opener) events t) :
    Throughout (step urlparse) Accounted (new opener) events ↔
      Run (step urlparse) Keeps (new opener) events t := by
  have hinv : ∀ p ev t, always p ev → step urlparse p ev = some t → p.Sound → p.Accounted →
      t.Accounted → t.Sound := fun _ _ _ _ hst hs _ _ => (step_spec hs hst).1
  have hstep : ∀ p ev t, always p ev → step urlparse p ev = some t → p.Sound → p.Accounted →
      (t.Accounted ↔ p.Keeps ev) := fun _ _ _ _ hst hs ha => (step_spec hs hst).2 ha
  exact throughout_iff hinv hstep h (.new opener) (.new opener)

/-- What `urlparse` gives for the URL of the two runs below. -/
def hubUrl (url : PyStr) : Option ParsedUrl :=
  if url = lit "wss://hub.example/ws" then some ⟨lit "wss",some (lit "hub.example")⟩ else none

def hubKey : ConnKey := ⟨lit "wss://hub.example/ws",lit "alice"⟩

/-- A call that opens a connection. -/
def connecting : List Event :=
  [.getOrConnect hubKey.url hubKey.principal .toolServer false,.openSucceeds 0 .toolServer]

/-- The connection is forgotten and its handle released before the next one is opened. -/
def reconnect : List Event :=
  connecting++[.forget hubKey,.release 0]++connecting++[.release 1,.tick 300,.sweepIdle 300]

theorem accounted_reconnect : Throughout (step hubUrl) Accounted (new true) reconnect ∧
    (last (step hubUrl) (new true) reconnect).swept = [⟨1,.toolServer⟩] := by
  have hrun : Run (step hubUrl) always (new true) reconnect
      (last (step hubUrl) (new true) reconnect) := run_last (by decide)
  refine ⟨(accounted_throughout_iff hrun).mpr ?_,by decide⟩
  refine .succ trivial rfl (.succ trivial rfl (.succ trivial rfl (.succ ?_ rfl (.succ trivial rfl
    (.succ trivial rfl (.succ ?_ rfl (.succ trivial rfl (.succ trivial rfl (.refl _)))))))))
  · intro h hi _ e he
    cases hi
    cases he
  · intro h hi _ e he
    cases hi
    cases he
    exact .inl rfl

/-- An old handle that is released takes the new connection's count, and a sweep closes the
connection under the handle that is still out. -/
theorem old_handle_frees_new : ∃ t, Run (step hubUrl) always (new true)
      (connecting++[.forget hubKey]++connecting++[.release 0,.tick 300,.sweepIdle 300]) t ∧
    t.connections.isEmpty = true ∧ t.swept = [⟨1,.toolServer⟩] ∧ t.live ⟨1,.toolServer⟩ = 1 ∧
    ¬ t.Accounted :=
  ⟨last (step hubUrl) (new true)
      (connecting++[.forget hubKey]++connecting++[.release 0,.tick 300,.sweepIdle 300]),
    run_last (by decide),by decide,by decide,by decide,fun h => absurd
      (h.swept ⟨1,.toolServer⟩ (by decide)) (by decide)⟩

end HubConnectionPool

end MinimaxCode.HubPool
