import MinimaxCode.JsonText
import MinimaxCode.SharedMemory

/-!
# What a run sees of the others

Two histories look the same to a run when they differ only in what other runs stored
under the run scope. Its gets and its listings with a scope answer the same after both;
a listing without a scope shows the items of all runs.
-/

namespace MinimaxCode.SharedMemory

open PyText PyJson OrderedDict

def isHexDigit (c : PyChar) : Bool := c ∈ lit "0123456789abcdef"

/-- `[A-Za-z0-9._-]`. -/
def isSafe (c : PyChar) : Bool :=
  c ∈ lit "ABCDEFGHIJKLMNOPQRSTUVWXYZabcdefghijklmnopqrstuvwxyz0123456789._-"

/-- `re.sub(r"[^A-Za-z0-9._-]+", "_", name)`; `gap` says that the last character was
replaced. -/
def flatten (gap : Bool) : PyStr → PyStr
  | [] => []
  | c::cs =>
    if isSafe c then c::flatten false cs
    else if gap then flatten true cs
    else ch '_'::flatten true cs

/-- `.strip("_") or "agent"`, and at most forty characters. -/
def safeName (name : PyStr) : PyStr :=
  let safe := ((flatten false name).dropWhile (· = ch '_')).rdropWhile (· = ch '_')
  (if safe = [] then lit "agent" else safe).take 40

/-- The run ids that are published: of a spawned agent, and of a member of a team. -/
inductive RunId
  | subagent (hex : PyStr) (isHex : hex.all isHexDigit)
  | member (hex : PyStr) (isHex : hex.all isHexDigit) (index : ℕ) (agentName : PyStr)

/-- `f"{index:02d}"`. -/
def twoDigits (n : ℕ) : PyStr := if n < 10 then ch '0'::natText n else natText n

/-- `run_<hex>`, and `_sandbox_run_id` of `teamrun_<hex>`. -/
def RunId.text : RunId → PyStr
  | .subagent hex _ => lit "run_"++hex
  | .member hex _ index agentName =>
    lit "team_"++(lit "teamrun_"++hex)++lit "_"++twoDigits index++lit "_"++safeName agentName

theorem flatten_safe (gap : Bool) (name : PyStr) : ∀ c ∈ flatten gap name, isSafe c = true := by
  induction name generalizing gap with
  | nil => simp [flatten]
  | cons c cs ih =>
    intro c' hc'
    rw [flatten] at hc'
    split at hc'
    · next hsafe =>
      cases List.mem_cons.mp hc' with
      | inl h => rw [h]; exact hsafe
      | inr h => exact ih false c' h
    · split at hc'
      · exact ih true c' hc'
      · cases List.mem_cons.mp hc' with
        | inl h => rw [h]; decide
        | inr h => exact ih true c' h

theorem colon_not_safe : isSafe (ch ':') = false := by decide

theorem safeName_plain (name : PyStr) : ch ':' ∉ safeName name := by
  intro hm
  have hmem := List.mem_of_mem_take hm
  split at hmem
  · exact absurd hmem (by decide)
  · have hflat : ch ':' ∈ flatten false name :=
      (List.dropWhile_subset _) ((List.rdropWhile_prefix _ _).subset hmem)
    exact absurd (flatten_safe false name _ hflat) (by simp [colon_not_safe])

theorem hex_plain {hex : PyStr} (h : hex.all isHexDigit) : ch ':' ∉ hex := by
  intro hm
  exact absurd (List.all_eq_true.mp h _ hm) (by decide)

theorem twoDigits_plain (n : ℕ) : ch ':' ∉ twoDigits n := by
  have hnat : ch ':' ∉ natText n := fun hm => absurd (natText_digits n _ hm) (by decide)
  have hzero : ch ':' ≠ ch '0' := by decide
  rw [twoDigits]
  split <;> simp [hnat,hzero]

theorem RunId.text_plain (id : RunId) : ch ':' ∉ id.text ∧ id.text ≠ lit "_anon" := by
  cases id with
  | subagent hex isHex =>
    have hlit : ch ':' ∉ lit "run_" := by decide
    refine ⟨by simp [RunId.text,hlit,hex_plain isHex],fun h => ?_⟩
    have hhead := congrArg List.head? h
    simp [RunId.text,lit] at hhead
  | member hex isHex index agentName =>
    have hteam : ch ':' ∉ lit "team_" := by decide
    have hrun : ch ':' ∉ lit "teamrun_" := by decide
    have hgap : ch ':' ∉ lit "_" := by decide
    refine ⟨by simp [RunId.text,hteam,hrun,hgap,hex_plain isHex,twoDigits_plain,safeName_plain],
      fun h => ?_⟩
    have hhead := congrArg List.head? h
    simp [RunId.text,lit] at hhead

/-- What `int` makes of an argument: a number, a `TypeError` or `ValueError`, or the
`OverflowError` of an infinity. -/
inductive IntOutcome
  | value (n : ℤ)
  | rejected
  | raises

/-- `int`, with its parser of texts as a parameter. -/
def pyInt (intOfStr : PyStr → Option ℤ) : Json → IntOutcome
  | .int n => .value n
  | .bool b => .value (if b then 1 else 0)
  | .float (.finite bits) => .value bits.truncate
  | .float (.inf _) => .raises
  | .str s =>
    match intOfStr s with
    | none => .rejected
    | some n => .value n
  | _ => .rejected

/-- A call of `shared_memory_list`. -/
structure ListCall where
  runId : Option PyStr
  root : Bool
  ns : Json
  scope : Json
  limit : Json

/-- An entry as it is listed. -/
structure Listed where
  ns : PyStr
  key : PyStr
  scope : PyStr
  runId : Option PyStr
  updatedAt : PyFloat

structure ListOutput where
  entries : List Listed
  count : ℕ
  noRoot : Bool

def Entry.listed (e : Entry) : Listed := ⟨e.ns,e.key,e.scope,e.runId,e.updatedAt⟩

/-- `value == s` for a string. -/
def isStr (value : Json) (s : PyStr) : Bool :=
  match value with
  | .str t => t = s
  | _ => false

/-- The filters of the listing loop. -/
def ListCall.shows (q : ListCall) (e : Entry) : Bool :=
  (q.scope.isNull || isStr q.scope e.scope) &&
  (match nonEmpty q.ns with
    | none => true
    | some ns => e.ns = ns) &&
  (!isStr q.scope runScope || e.runId = q.runId)

/-- `SharedMemoryListTool.run`. -/
def list (intOfStr : PyStr → Option ℤ) (q : ListCall) (store : Store) : ToolResult ListOutput :=
  if q.root = false then .ok ⟨[],0,true⟩
  else
    match pyInt intOfStr q.limit with
    | .raises => .raises
    | outcome =>
      let cap : ℤ := match outcome with
        | .value n => max 1 (min n 500)
        | _ => 100
      let entries := (((store.map Prod.snd).filter q.shows).map Entry.listed).take cap.toNat
      .ok ⟨entries,entries.length,false⟩

inductive Op
  | put (p : Put)
  | get (q : Get)
  | list (q : ListCall)

def Op.runId : Op → Option PyStr
  | .put p => p.runId
  | .get q => q.runId
  | .list q => q.runId

/-- Only a put changes the store. -/
def Op.apply (store : Store) : Op → Store
  | .put p => (SharedMemory.put p store).2
  | _ => store

def replay (history : List Op) : Store := history.foldl Op.apply []

/-- The operation stores under the run scope of a run other than `r`. -/
def Op.foreign (r : PyStr) : Op → Bool
  | .put p =>
    match p.stores with
    | none => false
    | some (a,_) => a.scope = runScope && a.runId ≠ some r
  | _ => false

/-- A history without what other runs stored under the run scope. -/
def visible (r : PyStr) (history : List Op) : List Op := history.filter fun op => !op.foreign r

/-- The callers are the main agent and runs with published ids. -/
def Published (history : List Op) : Prop :=
  ∀ op ∈ history, ∀ r, op.runId = some r → ∃ id : RunId, r = id.text

/-- The entry is not under the run scope of another run. -/
def own (r : PyStr) (kv : PyStr × Entry) : Bool := !(kv.2.scope = runScope && kv.2.runId ≠ some r)

/-- Each item lies at the storage key of its address, and was stored by the main agent or
by a run with a published id. -/
def Addressed (store : Store) : Prop :=
  ∀ kv ∈ store, ∃ p a, Put.stores p = some (a,kv.2) ∧ a.flat = some kv.1 ∧
    ∀ r, p.runId = some r → ∃ id : RunId, r = id.text

variable {r : PyStr} {history : List Op} {store : Store}

theorem run_plain {p : Put} {a : Address} {e : Entry} (hp : p.stores = some (a,e))
    (hids : ∀ r, p.runId = some r → ∃ id : RunId, r = id.text) :
    ch ':' ∉ a.runId.getD [] ∧ a.runId ≠ some (lit "_anon") := by
  have ha := address_of_stores hp
  have hcases : a.runId = none ∨ a.runId = p.runId := by
    rw [Put.address,addressOf] at ha
    split at ha
    · cases ha
    · obtain rfl := Option.some.inj ha
      dsimp only
      split
      · exact .inr rfl
      · exact .inl rfl
  cases hcases with
  | inl hnone => simp [hnone]
  | inr hsame =>
    cases hr : p.runId with
    | none => simp [hsame,hr]
    | some r =>
      obtain ⟨id,rfl⟩ := hids r hr
      simpa [hsame,hr] using id.text_plain

theorem entry_of_stores {p : Put} {a : Address} {e : Entry} (h : p.stores = some (a,e)) :
    e.scope = a.scope ∧ e.runId = a.runId := by
  rw [Put.stores] at h
  split at h
  · cases h
  · split_ifs at h
    cases h
    exact ⟨rfl,rfl⟩

theorem Addressed.apply (h : Addressed store) {op : Op}
    (hids : ∀ r, op.runId = some r → ∃ id : RunId, r = id.text) : Addressed (op.apply store) := by
  cases op with
  | put p =>
    intro kv hkv
    rw [Op.apply,put_store] at hkv
    cases hs : p.stores with
    | none =>
      rw [hs] at hkv
      exact h kv hkv
    | some ae =>
      obtain ⟨a,e⟩ := ae
      rw [hs] at hkv
      cases mem_assign hkv with
      | inl heq =>
        obtain ⟨flat,hflat⟩ := flat_of_address (address_of_stores hs)
        refine ⟨p,a,?_,?_,hids⟩
        · rw [heq]
          exact hs
        · rw [heq,hflat]
          rfl
      | inr hold => exact h kv hold
  | get q => exact h
  | list q => exact h

theorem owner_of_item (h : Addressed store) {kv : PyStr × Entry} (hkv : kv ∈ store) {b : Address}
    {runId : Option PyStr} {ns key scope : Json} (hq : addressOf runId ns key scope = some b)
    (hb : ch ':' ∉ b.runId.getD []) (hkey : b.flat = some kv.1) :
    kv.2.scope = b.scope ∧ kv.2.runId = b.runId := by
  obtain ⟨p,a,hp,hflat,hids⟩ := h kv hkv
  obtain ⟨hscope,hrun,-⟩ := owner_of_flat hp hq (run_plain hp hids) hb (hflat.trans hkey.symm)
  obtain ⟨hes,her⟩ := entry_of_stores hp
  exact ⟨hes.trans hscope,her.trans hrun⟩

theorem own_apply (h : Addressed store) {op : Op}
    (hids : ∀ r, op.runId = some r → ∃ id : RunId, r = id.text) :
    (op.apply store).filter (own r) =
      if op.foreign r then store.filter (own r) else op.apply (store.filter (own r)) := by
  cases op with
  | put p =>
    rw [Op.apply,Op.apply,put_store,put_store,Op.foreign]
    cases hs : p.stores with
    | none => rfl
    | some ae =>
      obtain ⟨a,e⟩ := ae
      obtain ⟨flat,hflat⟩ := flat_of_address (address_of_stores hs)
      obtain ⟨hes,her⟩ := entry_of_stores hs
      have hsame : ∀ kv ∈ store, kv.1 = flat → own r kv = own r (flat,e) := by
        intro kv hkv hkey
        have howner := owner_of_item h hkv (address_of_stores hs) (run_plain hs hids).1
          (hflat.trans (congrArg some hkey.symm))
        rw [own,own,howner.1,howner.2,hes,her]
      have hown : own r (flat,e) = !(a.scope = runScope && a.runId ≠ some r : Bool) := by
        rw [own,hes,her]
      dsimp only
      rw [hflat,Option.getD_some]
      by_cases hforeign : (a.scope = runScope && a.runId ≠ some r : Bool) = true
      · rw [hforeign] at hown
        rw [if_pos hforeign]
        exact filter_assign_of_neg hown fun kv hkv hkey => (hsame kv hkv hkey).trans hown
      · rw [Bool.eq_false_of_not_eq_true hforeign] at hown
        rw [if_neg hforeign]
        exact filter_assign_of_pos hown fun kv hkv hkey => (hsame kv hkv hkey).trans hown
  | get q => rfl
  | list q => rfl

theorem replay_append (history : List Op) (op : Op) :
    replay (history++[op]) = op.apply (replay history) := by
  rw [replay,List.foldl_append]
  rfl

theorem addressed_replay (h : Published history) : Addressed (replay history) := by
  induction history using List.reverseRecOn with
  | nil => intro kv hkv; cases hkv
  | append_singleton history op ih =>
    rw [replay_append]
    exact (ih fun op' hop' => h op' (List.mem_append_left _ hop')).apply (h op (by simp))

theorem own_replay (h : Published history) :
    (replay history).filter (own r) = replay (visible r history) := by
  induction history using List.reverseRecOn with
  | nil => rfl
  | append_singleton history op ih =>
    have hpre : Published history := fun op' hop' => h op' (List.mem_append_left _ hop')
    rw [replay_append,own_apply (addressed_replay hpre) (h op (by simp)),ih hpre]
    cases hf : op.foreign r with
    | true => simp [hf,visible]
    | false => simp [hf,visible,replay_append]

theorem get_own (h : Addressed store) {q : Get} (id : RunId) (hq : q.runId = some id.text) :
    get q (store.filter (own id.text)) = get q store := by
  cases haddr : q.address with
  | none =>
    rw [Get.address,addressOf] at haddr
    rw [get,get]
    cases hargs : checkArgs q.ns q.key q.scope with
    | error message => rfl
    | ok args => simp [hargs] at haddr
  | some b =>
    cases hroot : q.root with
    | false =>
      rw [get,get]
      split
      · rfl
      · rw [if_pos hroot,if_pos hroot]
    | true =>
      rw [get_eq hroot haddr,get_eq hroot haddr]
      obtain ⟨flat,hflat⟩ := flat_of_address haddr
      have hrun : b.scope = runScope → b.runId = some id.text := by
        intro hscope
        rw [Get.address,addressOf] at haddr
        split at haddr
        · cases haddr
        · obtain rfl := Option.some.inj haddr
          dsimp only at hscope ⊢
          rw [if_pos hscope,hq]
      have hplain : ch ':' ∉ b.runId.getD [] := by
        cases scope_of_addressOf haddr with
        | inl hws => simp [hws.2]
        | inr hscope => simpa [hrun hscope] using id.text_plain.1
      rw [hflat,Option.getD_some]
      congr 1
      apply lookup_filter
      intro kv hkv hkey
      obtain ⟨hscope,hrunId⟩ := owner_of_item h hkv haddr hplain
        (hflat.trans (congrArg some hkey.symm))
      rw [own,hscope,hrunId]
      by_cases hs : b.scope = runScope
      · simp [hs,hrun hs]
      · simp [hs]

theorem list_own (intOfStr : PyStr → Option ℤ) {q : ListCall} (hq : q.runId = some r)
    (hscope : q.scope.isNull = false) (store : Store) :
    list intOfStr q (store.filter (own r)) = list intOfStr q store := by
  have hshows : ∀ kv : PyStr × Entry, q.shows kv.2 = true → own r kv = true := by
    intro kv hshow
    rw [ListCall.shows,hscope,Bool.false_or] at hshow
    simp only [Bool.and_eq_true,Bool.or_eq_true,Bool.not_eq_true',decide_eq_true_eq] at hshow
    obtain ⟨⟨hfilter,-⟩,hrun⟩ := hshow
    rw [own]
    by_cases hs : kv.2.scope = runScope
    · rw [hs] at hfilter
      have hid := hrun.resolve_left (by simp [hfilter])
      simp [hid,hq]
    · simp [hs]
  have hentries : ((store.filter (own r)).map Prod.snd).filter q.shows =
      (store.map Prod.snd).filter q.shows := by
    rw [List.filter_map,List.filter_map,List.filter_filter]
    congr 1
    apply List.filter_congr
    intro kv _
    cases hshow : (q.shows ∘ Prod.snd) kv with
    | false => rfl
    | true => rw [hshows kv hshow]; rfl
  rw [list,list,hentries]

/-- What other runs store under the run scope changes no get of a run and no listing of a
run that gives a scope. -/
theorem run_isolated (intOfStr : PyStr → Option ℤ) (id : RunId) {h₁ h₂ : List Op}
    (hpub₁ : Published h₁) (hpub₂ : Published h₂)
    (hvisible : visible id.text h₁ = visible id.text h₂) :
    (∀ q : Get, q.runId = some id.text → get q (replay h₁) = get q (replay h₂)) ∧
      ∀ q : ListCall, q.runId = some id.text → q.scope.isNull = false →
        list intOfStr q (replay h₁) = list intOfStr q (replay h₂) := by
  have hown : (replay h₁).filter (own id.text) = (replay h₂).filter (own id.text) := by
    rw [own_replay hpub₁,own_replay hpub₂,hvisible]
  refine ⟨fun q hq => ?_,fun q hq hscope => ?_⟩
  · rw [← get_own (addressed_replay hpub₁) id hq,hown,get_own (addressed_replay hpub₂) id hq]
  · rw [← list_own intOfStr hq hscope,hown,list_own intOfStr hq hscope]

/-- Two runs, and a put of the second one under its run scope. -/
def runA : RunId := .subagent (lit "aaaaaaaaaaaa") (by decide)

def runB : RunId := .subagent (lit "bbbbbbbbbbbb") (by decide)

def scratchPut : Op :=
  .put ⟨some runB.text,true,.str (lit "scratch"),.str (lit "k"),.int 1,.str runScope,
    .finite ⟨0,zero_finiteBits⟩⟩

theorem published_scratchPut : Published [scratchPut] := by
  intro op hop r hr
  rw [List.mem_singleton.mp hop] at hr
  exact ⟨runB,(Option.some.inj hr).symm⟩

theorem published_nil : Published [] := fun _ hop => by cases hop

theorem run_isolated_scratch :
    get ⟨some runA.text,true,.str (lit "scratch"),.str (lit "k"),.str runScope,.null⟩
        (replay [scratchPut]) = .ok (.absent (lit "scratch") (lit "k") .null) ∧
      list (fun _ => none) ⟨some runA.text,true,.null,.str runScope,.int 100⟩
        (replay [scratchPut]) = .ok ⟨[],0,false⟩ := by
  have h := run_isolated (fun _ => none) runA published_scratchPut published_nil rfl
  exact ⟨h.1 _ rfl,h.2 _ rfl rfl⟩

/-- A listing without a scope shows the item of the other run. -/
theorem unscoped_list_shows : ¬∀ (id : RunId) (h₁ h₂ : List Op), Published h₁ → Published h₂ →
    visible id.text h₁ = visible id.text h₂ → ∀ q : ListCall, q.runId = some id.text →
      list (fun _ => none) q (replay h₁) = list (fun _ => none) q (replay h₂) := by
  intro h
  have hlist := h runA [scratchPut] [] published_scratchPut published_nil rfl
    ⟨some runA.text,true,.null,.null,.int 100⟩ rfl
  injection hlist with hout
  injection hout with _ hcount
  exact absurd hcount (by decide)

end MinimaxCode.SharedMemory
