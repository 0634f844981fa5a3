import MinimaxCode.PyJson
import MinimaxCode.OrderedDict

/-!
# Shared memory

The key/value store of a workspace that its agents share. Scope, run, namespace and key
are flattened into one storage key. The store file holds one JSON object, and a put reads
it, assigns one item and writes it back.
-/

namespace MinimaxCode.SharedMemory

open PyText PyJson OrderedDict

/-- An item of the store. -/
structure Entry where
  value : Json
  ns : PyStr
  key : PyStr
  scope : PyStr
  runId : Option PyStr
  updatedAt : PyFloat

abbrev Store := List (PyStr × Entry)

/-- `ToolResult`, or an exception that leaves the tool. -/
inductive ToolResult (A : Type)
  | fail (error : PyStr)
  | ok (output : A)
  | raises

def workspaceScope : PyStr := lit "workspace"

def runScope : PyStr := lit "run"

/-- `run_id or "_anon"`. -/
def orAnon (runId : Option PyStr) : PyStr :=
  if runId.getD [] = [] then lit "_anon" else runId.getD []

/-- `_scope_key`; `none` is the `ValueError`. -/
def scopeKey (scope ns key : PyStr) (runId : Option PyStr) : Option PyStr :=
  if scope = workspaceScope then some (lit "workspace::"++ns++lit "::"++key)
  else if scope = runScope then some (lit "run_"++orAnon runId++lit "::"++ns++lit "::"++key)
  else none

/-- A string that is not blank, stripped. -/
def nonEmpty : Json → Option PyStr
  | .str s => if isBlank s then none else some (strip s)
  | _ => none

/-- `scope in ("workspace", "run")`. -/
def knownScope : Json → Option PyStr
  | .str s => if s = workspaceScope ∨ s = runScope then some s else none
  | _ => none

/-- The checks that a put and a get make on their arguments: the stripped namespace and
key, and the scope. -/
def checkArgs (ns key scope : Json) : Except PyStr (PyStr × PyStr × PyStr) :=
  match nonEmpty ns,nonEmpty key,knownScope scope with
  | none,_,_ => .error (lit "namespace must be a non-empty string")
  | _,none,_ => .error (lit "key must be a non-empty string")
  | _,_,none => .error (lit "scope must be 'workspace' or 'run'")
  | some ns,some key,some scope => .ok (ns,key,scope)

/-- The store with its new item can be written as UTF-8. -/
def Entry.encodes (e : Entry) : Bool :=
  e.value.encodes && PyText.encodes e.ns && PyText.encodes e.key && PyText.encodes e.scope &&
    PyText.encodes (e.runId.getD [])

/-- A call of `shared_memory_put`, with the run id of the caller, whether a workspace root
is active, and the time. -/
structure Put where
  runId : Option PyStr
  root : Bool
  ns : Json
  key : Json
  value : Json
  scope : Json
  now : PyFloat

structure PutOutput where
  ns : PyStr
  key : PyStr
  scope : PyStr
  runId : Option PyStr

/-- `SharedMemoryPutTool.run`. -/
def put (p : Put) (store : Store) : ToolResult PutOutput × Store :=
  match checkArgs p.ns p.key p.scope with
  | .error message => (.fail message,store)
  | .ok (ns,key,scope) =>
    let runId := if scope = runScope then p.runId else none
    if p.root = false then
      (.fail (lit "no workspace root is active — shared memory is unavailable"),store)
    else if scope = runScope ∧ runId.getD [] = [] then
      (.fail (lit ("scope='run' requires a sub-agent run_id; "++
        "the main agent cannot use run-scope (use 'workspace')")),store)
    else
      match scopeKey scope ns key runId with
      | none => (.raises,store)
      | some flat =>
        let entry : Entry := ⟨p.value,ns,key,scope,runId,p.now⟩
        if entry.encodes then (.ok ⟨ns,key,scope,runId⟩,assign store flat entry)
        else (.raises,store)

/-- A call of `shared_memory_get`. -/
structure Get where
  runId : Option PyStr
  root : Bool
  ns : Json
  key : Json
  scope : Json
  default : Json

inductive GetOutput
  | noRoot (value : Json)
  | absent (ns key : PyStr) (value : Json)
  | found (entry : Entry)

/-- `SharedMemoryGetTool.run`. -/
def get (q : Get) (store : Store) : ToolResult GetOutput :=
  match checkArgs q.ns q.key q.scope with
  | .error message => .fail message
  | .ok (ns,key,scope) =>
    if q.root = false then .ok (.noRoot q.default)
    else
      match scopeKey scope ns key (if scope = runScope then q.runId else none) with
      | none => .raises
      | some flat =>
        match lookup store flat with
        | none => .ok (.absent ns key q.default)
        | some entry => .ok (.found entry)

/-- The store after a history of puts. -/
def after (history : List Put) : Store := history.foldl (fun store p => (put p store).2) []

/-- The four strings that the tools record for a call: the stripped namespace and key,
and the run for the run scope only. -/
structure Address where
  scope : PyStr
  ns : PyStr
  key : PyStr
  runId : Option PyStr
  deriving DecidableEq

def Address.flat (a : Address) : Option PyStr := scopeKey a.scope a.ns a.key a.runId

/-- The address of accepted arguments. -/
def addressOf (runId : Option PyStr) (ns key scope : Json) : Option Address :=
  match checkArgs ns key scope with
  | .error _ => none
  | .ok (ns,key,scope) => some ⟨scope,ns,key,if scope = runScope then runId else none⟩

def Put.address (p : Put) : Option Address := addressOf p.runId p.ns p.key p.scope

def Get.address (q : Get) : Option Address := addressOf q.runId q.ns q.key q.scope

def Address.entry (a : Address) (value : Json) (now : PyFloat) : Entry :=
  ⟨value,a.ns,a.key,a.scope,a.runId,now⟩

/-- What a call of `put` stores, and where. -/
def Put.stores (p : Put) : Option (Address × Entry) :=
  match p.address with
  | none => none
  | some a =>
    if p.root = false then none
    else if a.scope = runScope ∧ a.runId.getD [] = [] then none
    else if (a.entry p.value p.now).encodes then some (a,a.entry p.value p.now)
    else none

variable {runId : Option PyStr} {key ns scope : Json} {a : Address} {p : Put} {T : Set Address}

theorem scopeKey_isSome {scope ns key : PyStr}
    (h : scope = workspaceScope ∨ scope = runScope) :
    ∃ flat, scopeKey scope ns key runId = some flat := by
  rw [scopeKey]
  by_cases hw : scope = workspaceScope
  · rw [if_pos hw]
    exact ⟨_,rfl⟩
  · rw [if_neg hw,if_pos (h.resolve_left hw)]
    exact ⟨_,rfl⟩

theorem knownScope_eq_some {j : Json} {s : PyStr} (h : knownScope j = some s) :
    s = workspaceScope ∨ s = runScope := by
  cases j with
  | str t =>
    rw [knownScope] at h
    split at h
    · next ht => cases h; exact ht
    · cases h
  | _ => cases h

theorem checkArgs_eq_ok {n k s : PyStr}
    (h : checkArgs ns key scope = .ok (n,k,s)) :
    nonEmpty ns = some n ∧ nonEmpty key = some k ∧ knownScope scope = some s := by
  rw [checkArgs] at h
  split at h
  · cases h
  · cases h
  · cases h
  · next hn hk hs =>
    cases h
    exact ⟨hn,hk,hs⟩

theorem scopeKey_of_checkArgs {n k s : PyStr}
    (h : checkArgs ns key scope = .ok (n,k,s)) (runId : Option PyStr) :
    ∃ flat, scopeKey s n k runId = some flat :=
  scopeKey_isSome (knownScope_eq_some (checkArgs_eq_ok h).2.2)

theorem put_store (p : Put) (store : Store) :
    (put p store).2 =
      match p.stores with
      | none => store
      | some (a,e) => assign store (a.flat.getD []) e := by
  rw [put,Put.stores,Put.address,addressOf]
  cases hargs : checkArgs p.ns p.key p.scope with
  | error message => rfl
  | ok args =>
    obtain ⟨ns,key,scope⟩ := args
    obtain ⟨flat,hflat⟩ := scopeKey_of_checkArgs hargs (if scope = runScope then p.runId else none)
    dsimp only
    rw [hflat]
    dsimp only
    by_cases hroot : p.root = false
    · rw [if_pos hroot,if_pos hroot]
    · rw [if_neg hroot,if_neg hroot]
      by_cases hrun : scope = runScope ∧ (if scope = runScope then p.runId else none).getD [] = []
      · rw [if_pos hrun,if_pos hrun]
      · rw [if_neg hrun,if_neg hrun,Address.entry]
        dsimp only
        by_cases he : (Entry.mk p.value ns key scope
            (if scope = runScope then p.runId else none) p.now).encodes = true
        · rw [if_pos he,if_pos he]
          dsimp only
          rw [Address.flat,hflat]
          rfl
        · rw [if_neg he,if_neg he]

/-- What a get answers when it finds `found`. -/
def answer (a : Address) (default : Json) (found : Option Entry) : ToolResult GetOutput :=
  match found with
  | none => .ok (.absent a.ns a.key default)
  | some entry => .ok (.found entry)

theorem get_eq {q : Get} (hroot : q.root = true) (ha : q.address = some a)
    (store : Store) : get q store = answer a q.default (lookup store (a.flat.getD [])) := by
  rw [Get.address,addressOf] at ha
  rw [get]
  cases hargs : checkArgs q.ns q.key q.scope with
  | error message => simp [hargs] at ha
  | ok args =>
    obtain ⟨ns,key,scope⟩ := args
    obtain ⟨flat,hflat⟩ := scopeKey_of_checkArgs hargs (if scope = runScope then q.runId else none)
    rw [hargs] at ha
    obtain rfl := Option.some.inj ha
    dsimp only
    rw [Address.flat,hflat,Option.getD_some,if_neg (by simp [hroot])]
    cases hl : lookup store flat <;> simp [hl,answer]

theorem flat_of_address
    (h : addressOf runId ns key scope = some a) : ∃ flat, a.flat = some flat := by
  rw [addressOf] at h
  cases hargs : checkArgs ns key scope with
  | error message => simp [hargs] at h
  | ok args =>
    obtain ⟨ns',key',scope'⟩ := args
    rw [hargs] at h
    obtain rfl := Option.some.inj h
    exact scopeKey_of_checkArgs hargs _

theorem address_of_stores {e : Entry} (h : p.stores = some (a,e)) :
    p.address = some a := by
  rw [Put.stores] at h
  split at h
  · cases h
  · next a' ha =>
    split_ifs at h
    cases h
    exact ha

/-- The entry that the last put to an address stored. -/
def lastPut (history : List Put) (a : Address) : Option Entry :=
  history.foldl (fun last p =>
    match p.stores with
    | none => last
    | some (a',e) => if a' = a then some e else last) none

/-- The puts of a history go to addresses in `T`. -/
def Uses (T : Set Address) (history : List Put) : Prop :=
  ∀ p ∈ history, ∀ a, p.address = some a → a ∈ T

/-- The laws for callers that use the addresses in `T`: a get finds what the last put to
its address stored, and a put to another address does not change what it finds. -/
structure Laws (T : Set Address) : Prop where
  last : ∀ history, Uses T history → ∀ (q : Get) (a : Address), q.root = true →
    q.address = some a → a ∈ T →
    get q (after history) = answer a q.default (lastPut history a)
  frame : ∀ history p, Uses T (history++[p]) → ∀ (q : Get) (a : Address), q.root = true →
    q.address = some a → a ∈ T → p.address ≠ some a →
    get q (after (history++[p])) = get q (after history)

/-- Where a put stores and where a get reads, the storage keys of different addresses
differ. -/
def Separated (T : Set Address) : Prop :=
  ∀ a ∈ T, ∀ b ∈ T, (∃ p e, Put.stores p = some (a,e)) → (∃ q, Get.address q = some b) →
    a.flat = b.flat → a = b

theorem after_append (history : List Put) (p : Put) :
    after (history++[p]) = (put p (after history)).2 := by
  rw [after,List.foldl_append]
  rfl

theorem lastPut_append (history : List Put) (p : Put) (a : Address) :
    lastPut (history++[p]) a =
      match p.stores with
      | none => lastPut history a
      | some (a',e) => if a' = a then some e else lastPut history a := by
  rw [lastPut,List.foldl_append]
  rfl

theorem Uses.init {history : List Put} (h : Uses T (history++[p])) :
    Uses T history :=
  fun p' hp' => h p' (List.mem_append_left _ hp')

theorem lookup_put (hT : Separated T) {q : Get} {b : Address}
    (hp : ∀ a, p.address = some a → a ∈ T) (hq : q.address = some b) (hb : b ∈ T)
    (store : Store) :
    lookup (put p store).2 (b.flat.getD []) =
      match p.stores with
      | none => lookup store (b.flat.getD [])
      | some (a,e) => if a = b then some e else lookup store (b.flat.getD []) := by
  rw [put_store]
  cases hs : p.stores with
  | none => rfl
  | some ae =>
    obtain ⟨a,e⟩ := ae
    dsimp only
    rw [lookup_assign]
    have ha := address_of_stores hs
    obtain ⟨flat,hflat⟩ := flat_of_address ha
    obtain ⟨flat',hflat'⟩ := flat_of_address hq
    rw [hflat,hflat',Option.getD_some,Option.getD_some]
    by_cases heq : a = b
    · rw [if_pos heq]
      subst heq
      rw [if_pos (Option.some.inj (hflat.symm.trans hflat'))]
    · have hne : flat ≠ flat' := by
        rintro rfl
        exact heq (hT a (hp a ha) b hb ⟨p,e,hs⟩ ⟨q,hq⟩ (hflat.trans hflat'.symm))
      rw [if_neg heq,if_neg hne]

theorem lookup_after (hT : Separated T) {history : List Put}
    (hh : Uses T history) {q : Get} {b : Address} (hq : q.address = some b) (hb : b ∈ T) :
    lookup (after history) (b.flat.getD []) = lastPut history b := by
  induction history using List.reverseRecOn with
  | nil => rfl
  | append_singleton history p ih =>
    have hp := hh p (by simp)
    rw [after_append,lookup_put hT hp hq hb,lastPut_append,ih hh.init]

/-- The laws hold for callers that use the addresses in `T` exactly when no two of these
share a storage key. -/
theorem laws_iff (T : Set Address) : Laws T ↔ Separated T := by
  constructor
  · intro h a ha b hb hstores haddr hflat
    obtain ⟨p,e,hp⟩ := hstores
    obtain ⟨q,hq⟩ := haddr
    by_contra hne
    have huse : Uses T [p] := by
      intro p' hp' a' ha'
      rw [List.mem_singleton.mp hp'] at ha'
      rw [address_of_stores hp] at ha'
      exact Option.some.inj ha' ▸ ha
    have hq' : Get.address { q with root := true } = some b := hq
    have hlaw := h.last [p] huse { q with root := true } b rfl hq' hb
    have hfound : lookup (after [p]) (b.flat.getD []) = some e := by
      rw [after,List.foldl_cons,List.foldl_nil,put_store,hp]
      dsimp only
      rw [hflat,lookup_assign,if_pos rfl]
    have hlast : lastPut [p] b = none := by
      rw [lastPut,List.foldl_cons,List.foldl_nil,hp]
      exact if_neg hne
    rw [get_eq rfl hq',hfound,hlast] at hlaw
    cases hlaw
  · intro hT
    refine ⟨fun history hh q a hroot hq ha => ?_,fun history p hh q a hroot hq ha hne => ?_⟩
    · rw [get_eq hroot hq,lookup_after hT hh hq ha]
    · have hp := hh p (by simp)
      rw [get_eq hroot hq,get_eq hroot hq,after_append,lookup_put hT hp hq ha]
      cases hs : p.stores with
      | none => rfl
      | some ae =>
        have hother : ae.1 ≠ a := by
          rintro rfl
          exact hne (address_of_stores hs)
        dsimp only
        rw [if_neg hother]

theorem scope_of_addressOf
    (h : addressOf runId ns key scope = some a) :
    a.scope = workspaceScope ∧ a.runId = none ∨ a.scope = runScope := by
  rw [addressOf] at h
  cases hargs : checkArgs ns key scope with
  | error message => simp [hargs] at h
  | ok args =>
    obtain ⟨ns',key',scope'⟩ := args
    rw [hargs] at h
    obtain rfl := Option.some.inj h
    by_cases hrun : scope' = runScope
    · exact .inr hrun
    · have hknown := knownScope_eq_some (checkArgs_eq_ok hargs).2.2
      exact .inl ⟨hknown.resolve_right hrun,if_neg hrun⟩

theorem run_of_stores {e : Entry} (h : p.stores = some (a,e))
    (hrun : a.scope = runScope) : ∃ r, a.runId = some r ∧ r ≠ [] := by
  rw [Put.stores] at h
  split at h
  · cases h
  · split_ifs at h with hroot hempty
    cases h
    cases hr : a.runId with
    | none => exact absurd ⟨hrun,by rw [hr]; rfl⟩ hempty
    | some r => exact ⟨r,rfl,fun hnil => hempty ⟨hrun,by rw [hr,hnil]; rfl⟩⟩

theorem flat_workspace (h : a.scope = workspaceScope) :
    a.flat = some (lit "workspace"++ch ':'::(ch ':'::(a.ns++ch ':'::(ch ':'::a.key)))) := by
  rw [Address.flat,scopeKey,if_pos h]
  simp [lit]

theorem flat_run (h : a.scope = runScope) :
    a.flat = some (lit "run_"++orAnon a.runId++ch ':'::(ch ':'::(a.ns++ch ':'::(ch ':'::a.key)))) := by
  have hne : a.scope ≠ workspaceScope := by
    rw [h]
    decide
  rw [Address.flat,scopeKey,if_neg hne,if_pos h]
  simp [lit]

theorem anon_plain {r : Option PyStr} (h : ch ':' ∉ r.getD []) : ch ':' ∉ lit "run_"++orAnon r := by
  have hlit : ch ':' ∉ lit "run_" := by decide
  have hanon : ch ':' ∉ lit "_anon" := by decide
  rw [orAnon]
  split <;> simp [hlit,hanon,h]

theorem owner_of_flat {b : Address} {e : Entry} (hp : p.stores = some (a,e)) (hq : addressOf runId ns key scope = some b)
    (ha : ch ':' ∉ a.runId.getD [] ∧ a.runId ≠ some (lit "_anon")) (hb : ch ':' ∉ b.runId.getD [])
    (hflat : a.flat = b.flat) :
    a.scope = b.scope ∧ a.runId = b.runId ∧
      a.ns++ch ':'::(ch ':'::a.key) = b.ns++ch ':'::(ch ':'::b.key) := by
  have hplace : ch ':' ∉ lit "workspace" := by decide
  cases scope_of_addressOf (address_of_stores hp) with
  | inl hws =>
    cases scope_of_addressOf hq with
    | inl hwsb =>
      rw [flat_workspace hws.1,flat_workspace hwsb.1] at hflat
      have hrest := (append_sep_inj hplace hplace (Option.some.inj hflat)).2
      exact ⟨hws.1.trans hwsb.1.symm,hws.2.trans hwsb.2.symm,(List.cons.inj hrest).2⟩
    | inr hrunb =>
      rw [flat_workspace hws.1,flat_run hrunb] at hflat
      have hhead := congrArg List.head? (Option.some.inj hflat)
      simp [lit] at hhead
  | inr hrun =>
    cases scope_of_addressOf hq with
    | inl hwsb =>
      rw [flat_run hrun,flat_workspace hwsb.1] at hflat
      have hhead := congrArg List.head? (Option.some.inj hflat)
      simp [lit] at hhead
    | inr hrunb =>
      rw [flat_run hrun,flat_run hrunb] at hflat
      obtain ⟨hruns,hrest⟩ := append_sep_inj (anon_plain ha.1) (anon_plain hb)
        (Option.some.inj hflat)
      have horAnon : orAnon a.runId = orAnon b.runId := List.append_cancel_left hruns
      obtain ⟨r,hr,hne⟩ := run_of_stores hp hrun
      have hra : orAnon a.runId = r := by
        rw [orAnon,hr,Option.getD_some,if_neg hne]
      have hrb : b.runId = some r := by
        rw [hra,orAnon] at horAnon
        split at horAnon
        · exact absurd (hr.trans (congrArg some horAnon)) ha.2
        · next hbne =>
          cases hb' : b.runId with
          | none => simp [hb'] at hbne
          | some r' => rw [horAnon,hb']; rfl
      exact ⟨hrun.trans hrunb.symm,hr.trans hrb.symm,(List.cons.inj hrest).2⟩

/-- Puts to two addresses that share the storage key `workspace::a::b::c`. -/
def putNested : Put :=
  ⟨none,true,.str (lit "a::b"),.str (lit "c"),.int 1,.str workspaceScope,.finite ⟨0,zero_finiteBits⟩⟩

def putOuter : Put :=
  ⟨none,true,.str (lit "a"),.str (lit "b::c"),.int 2,.str workspaceScope,.finite ⟨0,zero_finiteBits⟩⟩

theorem separator_in_namespace : ¬Laws Set.univ := by
  intro h
  have hframe := h.frame [putNested] putOuter (fun _ _ _ _ => trivial)
    ⟨none,true,.str (lit "a::b"),.str (lit "c"),.str workspaceScope,.null⟩
    ⟨workspaceScope,lit "a::b",lit "c",none⟩ rfl rfl trivial (by decide)
  injection hframe with hout
  injection hout with hentry
  injection hentry with hvalue
  injection hvalue with hint
  exact absurd hint (by decide)

end MinimaxCode.SharedMemory
