import Mathlib.Data.List.Sort
import MinimaxCode.Fnmatch
import MinimaxCode.OrderedDict
import MinimaxCode.Runs

/-!
# The permission store

Rules for tool names, kept in a database and in a cache that is scanned in insertion
order. A restart rebuilds the cache from the rows ordered by creation time and id.
-/

namespace MinimaxCode.Permissions

open PyText Fnmatch OrderedDict Runs

inductive RuleAction
  | allow
  | deny
  | ask
  deriving DecidableEq

/-- A row of `permission_rules`, or a factory default. -/
structure Rule where
  id : PyStr
  toolPattern : PyStr
  action : RuleAction
  scope : PyStr
  createdAt : PyStr
  isDefault : Bool
  deriving DecidableEq

/-- `action in _VALID_ACTIONS`. -/
def RuleAction.parse (s : PyStr) : Option RuleAction :=
  if s = lit "allow" then some .allow
  else if s = lit "deny" then some .deny
  else if s = lit "ask" then some .ask
  else none

def defaultRules : List Rule :=
  [⟨lit "pr_default_exec",lit "exec_*",.ask,lit "global",[],true⟩]

/-- `_matches`. -/
def matchesTool (pattern toolName : PyStr) : Bool :=
  if pattern = toolName then true
  else if pattern.any fun c => c ∈ lit "*?[" then fnmatchcase toolName pattern
  else false

def defaultMatching (toolName : PyStr) : Option Rule :=
  defaultRules.find? fun r => matchesTool r.toolPattern toolName

/-- Why a rule is refused; `storage` stands for an exception of the database. -/
inductive UpsertError
  | toolPattern
  | action (got : PyStr)
  | scope
  | ruleToolPattern
  | ruleScope
  | storage

/-- `ORDER BY created_at ASC, id ASC`. -/
def ruleLe (a b : Rule) : Prop :=
  if a.createdAt = b.createdAt then strLe a.id b.id = true else strLe a.createdAt b.createdAt = true

instance : DecidableRel ruleLe := fun a b => by
  unfold ruleLe
  infer_instance

def listAll (db : List Rule) : List Rule := db.insertionSort ruleLe

/-- `PermissionRuleDAO.upsert` with the id and the time of a new row: the row and the
table. -/
def daoUpsert (db : List Rule) (toolPattern action scope newId now : PyStr) :
    Except UpsertError (Rule × List Rule) :=
  if isBlank toolPattern then .error .ruleToolPattern
  else
    match RuleAction.parse action with
    | none => .error (.action action)
    | some action =>
      let scope := if scope = [] then lit "global" else scope
      if isBlank scope then .error .ruleScope
      else if !(encodes toolPattern && encodes scope) then .error .storage
      else
        match db.find? fun r => r.toolPattern = toolPattern with
        | none =>
          if newId ∈ db.map Rule.id then .error .storage
          else
            let row : Rule := ⟨newId,toolPattern,action,scope,now,false⟩
            .ok (row,db++[row])
        | some existing =>
          .ok ({ existing with action := action, scope := scope },
            db.map fun r =>
              if r.toolPattern = toolPattern then { r with action := action, scope := scope } else r)

/-- `PermissionRuleDAO.delete`. -/
def daoDelete (db : List Rule) (toolPattern : PyStr) : List Rule :=
  db.filter fun r => r.toolPattern ≠ toolPattern

/-- The table and the cache. -/
structure State where
  db : List Rule
  rules : List (PyStr × Rule)

def loadFromDb (db : List Rule) : List (PyStr × Rule) :=
  ofItems (((listAll db).filter fun r => r.toolPattern ≠ []).map fun r => (r.toolPattern,r))

/-- `PermissionStore.lookup`. -/
def lookupRule (rules : List (PyStr × Rule)) (toolName : PyStr) : Option Rule :=
  if toolName = [] then none
  else
    match (rules.map Prod.snd).find? fun r => matchesTool r.toolPattern toolName with
    | some rule => some rule
    | none => defaultMatching toolName

def upsert (s : State) (toolPattern action scope newId now : PyStr) :
    Except UpsertError Rule × State :=
  if toolPattern = [] then (.error .toolPattern,s)
  else if (RuleAction.parse action).isNone then (.error (.action action),s)
  else if scope = [] then (.error .scope,s)
  else
    match daoUpsert s.db toolPattern action scope newId now with
    | .error e => (.error e,s)
    | .ok (rule,db) => (.ok rule,⟨db,assign s.rules rule.toolPattern rule⟩)

def delete (s : State) (toolPattern : PyStr) : State :=
  if encodes toolPattern then ⟨daoDelete s.db toolPattern,remove s.rules toolPattern⟩ else s

inductive Action
  | upsert (toolPattern action scope newId now : PyStr)
  | delete (toolPattern : PyStr)
  | restart

def step (s : State) : Action → Option State
  | .upsert toolPattern action scope newId now =>
    some (upsert s toolPattern action scope newId now).2
  | .delete toolPattern => some (delete s toolPattern)
  | .restart => some ⟨s.db,loadFromDb s.db⟩

/-- An empty table and its cache. -/
def start : State := ⟨[],[]⟩

theorem ruleLe_total (a b : Rule) : ruleLe a b ∨ ruleLe b a := by
  rw [ruleLe,ruleLe]
  by_cases h : a.createdAt = b.createdAt
  · rw [if_pos h,if_pos h.symm]
    exact strLe_total _ _
  · rw [if_neg h,if_neg (Ne.symm h)]
    exact strLe_total _ _

theorem ruleLe_refl (a : Rule) : ruleLe a a := by
  rw [ruleLe,if_pos rfl]
  exact strLe_refl _

theorem ruleLe_trans {a b c : Rule} (hab : ruleLe a b) (hbc : ruleLe b c) : ruleLe a c := by
  rw [ruleLe] at *
  by_cases h₁ : a.createdAt = b.createdAt
  · by_cases h₂ : b.createdAt = c.createdAt
    · rw [if_pos h₁] at hab
      rw [if_pos h₂] at hbc
      rw [if_pos (h₁.trans h₂)]
      exact strLe_trans hab hbc
    · rw [if_neg h₂] at hbc
      rw [if_neg (h₁ ▸ h₂),h₁]
      exact hbc
  · rw [if_neg h₁] at hab
    by_cases h₂ : b.createdAt = c.createdAt
    · rw [if_neg (h₂ ▸ h₁),← h₂]
      exact hab
    · rw [if_neg h₂] at hbc
      have hac := strLe_trans hab hbc
      by_cases h₃ : a.createdAt = c.createdAt
      · exact absurd (strLe_antisymm hab (h₃ ▸ hbc)) h₁
      · rw [if_neg h₃]
        exact hac

theorem id_of_ruleLe {a b : Rule} (hab : ruleLe a b) (hba : ruleLe b a) : a.id = b.id := by
  rw [ruleLe] at hab hba
  by_cases h : a.createdAt = b.createdAt
  · rw [if_pos h] at hab
    rw [if_pos h.symm] at hba
    exact strLe_antisymm hab hba
  · rw [if_neg h] at hab
    rw [if_neg (Ne.symm h)] at hba
    exact absurd (strLe_antisymm hab hba) h

instance : Std.Total ruleLe := ⟨ruleLe_total⟩

instance : IsTrans Rule ruleLe := ⟨fun _ _ _ => ruleLe_trans⟩

theorem listAll_perm (db : List Rule) : (listAll db).Perm db := List.perm_insertionSort _ _

theorem listAll_sorted (db : List Rule) : (listAll db).Pairwise ruleLe :=
  List.pairwise_insertionSort _ _

/-- Ids and patterns are unique, and the cache holds the rows in some order. -/
structure Cached (s : State) : Prop where
  ids : (s.db.map Rule.id).Nodup
  patterns : (s.db.map Rule.toolPattern).Nodup
  named : ∀ r ∈ s.db, r.toolPattern ≠ []
  keyed : ∀ kv ∈ s.rules, kv.1 = kv.2.toolPattern
  rules : (s.rules.map Prod.snd).Perm s.db

/-- The new action and scope of an old row. -/
def Rule.update (r : Rule) (action : RuleAction) (scope : PyStr) : Rule :=
  { r with action := action, scope := scope }

variable {db : List Rule} {s : State}

theorem daoUpsert_ok {db' : List Rule} {toolPattern action scope newId now : PyStr} {row : Rule}
    (h : daoUpsert db toolPattern action scope newId now = .ok (row,db')) :
    row.toolPattern = toolPattern ∧
      ((toolPattern ∉ db.map Rule.toolPattern ∧ newId ∉ db.map Rule.id ∧ row.id = newId ∧
          row.createdAt = now ∧ db' = db++[row]) ∨
        ∃ existing ∈ db, ∃ a sc, row = existing.update a sc ∧
          db' = db.map fun r => if r.toolPattern = toolPattern then r.update a sc else r) := by
  rw [daoUpsert] at h
  split at h
  · cases h
  split at h
  · cases h
  next a _ =>
  dsimp only at h
  generalize (if scope = [] then lit "global" else scope) = sc at h
  split at h
  · cases h
  split at h
  · cases h
  cases hfind : db.find? fun r => r.toolPattern = toolPattern with
  | none =>
    rw [hfind] at h
    dsimp only at h
    split at h
    · cases h
    · next hid =>
      cases h
      have hnew : toolPattern ∉ db.map Rule.toolPattern := by
        intro hm
        obtain ⟨r,hr,heq⟩ := List.mem_map.mp hm
        exact List.find?_eq_none.mp hfind r hr (by simpa using heq)
      exact ⟨rfl,.inl ⟨hnew,hid,rfl,rfl,rfl⟩⟩
  | some existing =>
    rw [hfind] at h
    cases h
    have hpattern : existing.toolPattern = toolPattern := by simpa using List.find?_some hfind
    exact ⟨hpattern,.inr ⟨existing,List.mem_of_find?_eq_some hfind,_,_,rfl,rfl⟩⟩

theorem upsert_cases (s : State) (toolPattern action scope newId now : PyStr) :
    (upsert s toolPattern action scope newId now).2 = s ∨
      ∃ row db', toolPattern ≠ [] ∧ daoUpsert s.db toolPattern action scope newId now = .ok (row,db') ∧
        (upsert s toolPattern action scope newId now).2 = ⟨db',assign s.rules row.toolPattern row⟩ := by
  rw [upsert]
  split
  · exact .inl rfl
  · next hpattern =>
    split
    · exact .inl rfl
    · split
      · exact .inl rfl
      · cases h : daoUpsert s.db toolPattern action scope newId now with
        | error e => exact .inl rfl
        | ok rd => exact .inr ⟨rd.1,rd.2,hpattern,rfl,rfl⟩

theorem eq_of_pattern (h : (db.map Rule.toolPattern).Nodup) {a b : Rule} (ha : a ∈ db)
    (hb : b ∈ db) (hab : a.toolPattern = b.toolPattern) : a = b :=
  List.inj_on_of_nodup_map h ha hb hab

theorem Cached.mem_keys (h : Cached s) (toolPattern : PyStr) :
    toolPattern ∈ keys s.rules ↔ toolPattern ∈ s.db.map Rule.toolPattern := by
  have hkeys : keys s.rules = (s.rules.map Prod.snd).map Rule.toolPattern := by
    rw [List.map_map]
    exact List.map_congr_left h.keyed
  rw [hkeys,(h.rules.map _).mem_iff]

theorem Cached.append (h : Cached s) {row : Rule}
    (hnew : row.toolPattern ∉ s.db.map Rule.toolPattern) (hid : row.id ∉ s.db.map Rule.id)
    (hnamed : row.toolPattern ≠ []) :
    Cached ⟨s.db++[row],assign s.rules row.toolPattern row⟩ := by
  have hkey : row.toolPattern ∉ keys s.rules := fun hm => hnew ((h.mem_keys _).mp hm)
  rw [assign_of_new hkey]
  refine ⟨?_,?_,?_,?_,?_⟩
  · rw [List.map_append,List.map_singleton]
    exact List.nodup_append.mpr ⟨h.ids,List.nodup_singleton _,
      fun a ha b hb heq => hid (by rwa [← List.mem_singleton.mp hb,← heq])⟩
  · rw [List.map_append,List.map_singleton]
    exact List.nodup_append.mpr ⟨h.patterns,List.nodup_singleton _,
      fun a ha b hb heq => hnew (by rwa [← List.mem_singleton.mp hb,← heq])⟩
  · intro r hr
    cases List.mem_append.mp hr with
    | inl hr => exact h.named r hr
    | inr hr => rwa [List.mem_singleton.mp hr]
  · intro kv hkv
    cases List.mem_append.mp hkv with
    | inl hkv => exact h.keyed kv hkv
    | inr hkv => rw [List.mem_singleton.mp hkv]
  · rw [List.map_append]
    exact h.rules.append_right [row]

theorem update_map (h : Cached s) {existing : Rule} (hmem : existing ∈ s.db)
    (a : RuleAction) (sc : PyStr) :
    (assign s.rules existing.toolPattern (existing.update a sc)).map Prod.snd =
      (s.rules.map Prod.snd).map fun r =>
        if r.toolPattern = existing.toolPattern then r.update a sc else r := by
  have hkey : existing.toolPattern ∈ keys s.rules := (h.mem_keys _).mpr (List.mem_map_of_mem hmem)
  rw [assign,if_pos hkey,List.map_map,List.map_map]
  apply List.map_congr_left
  intro kv hkv
  have hkeyed := h.keyed kv hkv
  have hdb : kv.2 ∈ s.db := h.rules.mem_iff.mp (List.mem_map_of_mem hkv)
  by_cases heq : kv.1 = existing.toolPattern
  · have hsame : kv.2 = existing := eq_of_pattern h.patterns hdb hmem (hkeyed.symm.trans heq)
    simp [heq,hsame]
  · have hne : kv.2.toolPattern ≠ existing.toolPattern := hkeyed ▸ heq
    simp [heq,hne]

theorem Cached.update (h : Cached s) {existing : Rule} (hmem : existing ∈ s.db)
    (a : RuleAction) (sc : PyStr) :
    Cached ⟨s.db.map fun r => if r.toolPattern = existing.toolPattern then r.update a sc else r,
      assign s.rules existing.toolPattern (existing.update a sc)⟩ := by
  have hid : ∀ r : Rule,
      (if r.toolPattern = existing.toolPattern then r.update a sc else r).id = r.id := by
    intro r
    split <;> rfl
  have hpattern : ∀ r : Rule, (if r.toolPattern = existing.toolPattern then r.update a sc else
      r).toolPattern = r.toolPattern := by
    intro r
    split <;> rfl
  refine ⟨?_,?_,?_,?_,?_⟩
  · rw [List.map_map]
    exact (List.map_congr_left fun r _ => hid r) ▸ h.ids
  · rw [List.map_map]
    exact (List.map_congr_left fun r _ => hpattern r) ▸ h.patterns
  · intro r hr
    obtain ⟨r',hr',rfl⟩ := List.mem_map.mp hr
    rw [hpattern]
    exact h.named r' hr'
  · intro kv hkv
    cases mem_assign hkv with
    | inl heq => rw [heq]; rfl
    | inr hold => exact h.keyed kv hold
  · rw [update_map h hmem]
    exact h.rules.map _

theorem Cached.delete (h : Cached s) (toolPattern : PyStr) :
    Cached (delete s toolPattern) := by
  rw [Permissions.delete]
  split
  · refine ⟨(List.filter_sublist.map _).nodup h.ids,(List.filter_sublist.map _).nodup h.patterns,
      fun r hr => h.named r (List.mem_filter.mp hr).1,
      fun kv hkv => h.keyed kv (List.mem_filter.mp hkv).1,?_⟩
    have hfilter : (remove s.rules toolPattern).map Prod.snd =
        (s.rules.map Prod.snd).filter fun r => r.toolPattern ≠ toolPattern := by
      rw [remove,List.filter_map]
      congr 1
      apply List.filter_congr
      intro kv hkv
      simp [h.keyed kv hkv]
    dsimp only
    rw [hfilter]
    exact h.rules.filter _
  · exact h

theorem loadFromDb_eq (hpatterns : (db.map Rule.toolPattern).Nodup)
    (hnamed : ∀ r ∈ db, r.toolPattern ≠ []) :
    loadFromDb db = (listAll db).map fun r => (r.toolPattern,r) := by
  have hperm := listAll_perm db
  have hfilter : ((listAll db).filter fun r => r.toolPattern ≠ []) = listAll db := by
    rw [List.filter_eq_self]
    intro r hr
    simpa using hnamed r (hperm.mem_iff.mp hr)
  have hkeys : keys ((listAll db).map fun r => (r.toolPattern,r)) =
      (listAll db).map Rule.toolPattern := by
    rw [keys,List.map_map]
    rfl
  rw [loadFromDb,hfilter]
  apply ofItems_of_nodup
  rw [hkeys]
  exact (hperm.map _).nodup_iff.mpr hpatterns

theorem values_loadFromDb (h : Cached s) :
    (loadFromDb s.db).map Prod.snd = listAll s.db := by
  rw [loadFromDb_eq h.patterns h.named,List.map_map]
  exact List.map_id _

theorem Cached.restart (h : Cached s) : Cached ⟨s.db,loadFromDb s.db⟩ := by
  refine ⟨h.ids,h.patterns,h.named,fun kv hkv => ?_,?_⟩
  · rw [loadFromDb_eq h.patterns h.named] at hkv
    obtain ⟨r,-,rfl⟩ := List.mem_map.mp hkv
    rfl
  · rw [values_loadFromDb h]
    exact listAll_perm s.db

theorem Cached.step {t : State} (h : Cached s) {a : Action} (hstep : step s a = some t) :
    Cached t := by
  cases a with
  | upsert toolPattern action scope newId now =>
    cases hstep
    cases upsert_cases s toolPattern action scope newId now with
    | inl hsame => rw [hsame]; exact h
    | inr hok =>
      obtain ⟨row,db',hnamed,hdao,hupsert⟩ := hok
      rw [hupsert]
      obtain ⟨hrow,hcases⟩ := daoUpsert_ok hdao
      cases hcases with
      | inl hnew =>
        obtain ⟨hpattern,hid,hrowid,-,rfl⟩ := hnew
        exact h.append (hrow ▸ hpattern) (hrowid ▸ hid) (hrow ▸ hnamed)
      | inr hold =>
        obtain ⟨existing,hmem,a,sc,rfl,rfl⟩ := hold
        have hexisting : existing.toolPattern = toolPattern := hrow
        subst hexisting
        exact h.update hmem a sc
  | delete toolPattern =>
    cases hstep
    exact h.delete toolPattern
  | restart =>
    cases hstep
    exact h.restart

theorem cached_start : Cached start := ⟨by simp [start],by simp [start],by simp [start],
  by simp [start],by simp [start]⟩

theorem cached_of_run {as : List Action} (h : Run step always start as s) : Cached s :=
  h.invariant (fun _ _ _ _ hstep hc => hc.step hstep) cached_start

/-- Among the rules that match a tool, the first one is also the first by creation time
and id. -/
def FirstIsLeast (rules : List (PyStr × Rule)) (toolName : PyStr) : Prop :=
  toolName ≠ [] → ∀ first,
    (rules.map Prod.snd).find? (fun r => matchesTool r.toolPattern toolName) = some first →
    ∀ r ∈ rules.map Prod.snd, matchesTool r.toolPattern toolName → ruleLe first r

theorem least_of_find {l : List Rule} (hsorted : l.Pairwise ruleLe) {p : Rule → Bool} {m : Rule}
    (h : l.find? p = some m) : ∀ r ∈ l, p r → ruleLe m r := by
  obtain ⟨-,as,bs,rfl,has⟩ := List.find?_eq_some_iff_append.mp h
  intro r hr hp
  cases List.mem_append.mp hr with
  | inl hr => exact absurd hp (by simpa using has r hr)
  | inr hr =>
    cases List.mem_cons.mp hr with
    | inl heq => rw [heq]; exact ruleLe_refl m
    | inr hbs => exact (List.pairwise_cons.mp (List.pairwise_append.mp hsorted).2.1).1 r hbs

theorem lookup_loadFromDb_iff (hc : Cached s) (toolName : PyStr) :
    lookupRule s.rules toolName = lookupRule (loadFromDb s.db) toolName ↔
      FirstIsLeast s.rules toolName := by
  have hperm := hc.rules.trans (listAll_perm s.db).symm
  rw [lookupRule,lookupRule,values_loadFromDb hc,FirstIsLeast]
  by_cases hname : toolName = []
  · simp [hname]
  · rw [if_neg hname,if_neg hname]
    cases hlive : (s.rules.map Prod.snd).find? fun r => matchesTool r.toolPattern toolName with
    | none =>
      have hnone : (listAll s.db).find? (fun r => matchesTool r.toolPattern toolName) = none := by
        rw [List.find?_eq_none] at hlive ⊢
        exact fun r hr => hlive r (hperm.mem_iff.mpr hr)
      rw [hnone]
      constructor
      · intro _ _ first hfirst
        cases hfirst
      · exact fun _ => rfl
    | some first =>
      have hfirst := List.mem_of_find?_eq_some hlive
      have hmatch : matchesTool first.toolPattern toolName = true := by
        simpa using List.find?_some hlive
      cases hsorted : (listAll s.db).find? fun r => matchesTool r.toolPattern toolName with
      | none =>
        have hno := List.find?_eq_none.mp hsorted first (hperm.mem_iff.mp hfirst)
        exact absurd hmatch hno
      | some least =>
        have hleast := least_of_find (listAll_sorted s.db) hsorted
        dsimp only
        constructor
        · intro heq _ first' hfirst' r hr hp
          cases hfirst'
          cases heq
          exact hleast r (hperm.mem_iff.mp hr) hp
        · intro hall
          have hmem := List.mem_of_find?_eq_some hsorted
          have hle := hall hname first rfl least (hperm.mem_iff.mpr hmem)
            (by simpa using List.find?_some hsorted)
          have hge := hleast first (hperm.mem_iff.mp hfirst) hmatch
          have hdb := hc.rules.mem_iff.mp hfirst
          have hsame := List.inj_on_of_nodup_map hc.ids hdb ((listAll_perm _).mem_iff.mp hmem)
            (id_of_ruleLe hle hge)
          rw [hsame]

/-- A lookup answers the same after a restart exactly when the first match is the least. -/
theorem survives_restart_iff {as : List Action} {s : State} (h : Run step always start as s)
    (toolName : PyStr) :
    lookupRule s.rules toolName = lookupRule (loadFromDb s.db) toolName ↔
      FirstIsLeast s.rules toolName :=
  lookup_loadFromDb_iff (cached_of_run h) toolName

/-- A new row comes last by creation time and id. -/
def Later (s : State) : Action → Prop
  | .upsert toolPattern _ _ newId now => toolPattern ∉ s.db.map Rule.toolPattern →
    ∀ r ∈ s.db, if r.createdAt = now then strLe r.id newId = true else strLe r.createdAt now = true
  | _ => True

/-- If each new row comes last by creation time and id, every lookup survives a restart. -/
theorem survives_of_later {as : List Action} {s : State} (h : Run step Later start as s)
    (toolName : PyStr) :
    lookupRule s.rules toolName = lookupRule (loadFromDb s.db) toolName := by
  have hinv : Cached s ∧ (s.rules.map Prod.snd).Pairwise ruleLe := by
    refine @Run.invariant _ _ _ _ (fun s => Cached s ∧ (s.rules.map Prod.snd).Pairwise ruleLe)
      (fun s a t hok hstep hi => ?_) _ _ _ h ⟨cached_start,by simp [start]⟩
    refine ⟨hi.1.step hstep,?_⟩
    obtain ⟨hc,hsorted⟩ := hi
    cases a with
    | upsert toolPattern action scope newId now =>
      cases hstep
      cases upsert_cases s toolPattern action scope newId now with
      | inl hsame => rw [hsame]; exact hsorted
      | inr hupsert =>
        obtain ⟨row,db',-,hdao,hnew⟩ := hupsert
        obtain ⟨hrow,hcases⟩ := daoUpsert_ok hdao
        rw [hnew]
        cases hcases with
        | inl hfresh =>
          obtain ⟨hpattern,-,hrowid,hrowtime,-⟩ := hfresh
          have hkey : row.toolPattern ∉ keys s.rules := by
            rw [hc.mem_keys,hrow]
            exact hpattern
          dsimp only
          rw [assign_of_new hkey,List.map_append,List.pairwise_append]
          refine ⟨hsorted,List.pairwise_singleton _ _,fun r hr r' hr' => ?_⟩
          rw [List.map_singleton,List.mem_singleton] at hr'
          rw [hr',ruleLe,hrowid,hrowtime]
          exact hok hpattern r (hc.rules.mem_iff.mp hr)
        | inr hold =>
          obtain ⟨existing,hmem,a,sc,rfl,-⟩ := hold
          have hexisting : (existing.update a sc).toolPattern = existing.toolPattern := rfl
          dsimp only
          rw [hexisting,update_map hc hmem,List.pairwise_map]
          refine hsorted.imp fun {r r'} hle => ?_
          have hkeep : ∀ q : Rule, (if q.toolPattern = existing.toolPattern then q.update a sc
              else q).createdAt = q.createdAt ∧ (if q.toolPattern = existing.toolPattern then
              q.update a sc else q).id = q.id := by
            intro q
            split <;> exact ⟨rfl,rfl⟩
          rw [ruleLe,(hkeep r).1,(hkeep r).2,(hkeep r').1,(hkeep r').2]
          exact hle
    | delete toolPattern =>
      cases hstep
      rw [Permissions.delete]
      split
      · exact hsorted.sublist (List.filter_sublist.map _)
      · exact hsorted
    | restart =>
      cases hstep
      rw [values_loadFromDb hc]
      exact listAll_sorted s.db
  apply (lookup_loadFromDb_iff hinv.1 toolName).mpr
  intro _ first hfirst r hr hp
  exact least_of_find hinv.2 hfirst r hr hp

/-- A rule for all tools, and one second later a rule for shell commands. -/
def oneByOne : List Action :=
  [.upsert (lit "*") (lit "allow") (lit "global") (lit "pr_bbbbbbbbbbbb") (lit "2026-01-01T00:00:00Z"),
    .upsert (lit "exec_*") (lit "deny") (lit "global") (lit "pr_aaaaaaaaaaaa")
      (lit "2026-01-01T00:00:01Z")]

theorem survives_oneByOne :
    lookupRule (last step start oneByOne).rules (lit "exec_shell") =
      lookupRule (loadFromDb (last step start oneByOne).db) (lit "exec_shell") := by
  refine (survives_restart_iff (run_last rfl) _).mpr ?_
  intro _ first hfirst r hr _
  obtain rfl := Option.some.inj hfirst
  have hle : ∀ r ∈ (last step start oneByOne).rules.map Prod.snd, ruleLe
      ⟨lit "pr_bbbbbbbbbbbb",lit "*",.allow,lit "global",lit "2026-01-01T00:00:00Z",false⟩ r := by
    decide
  exact hle r hr

theorem survives_restart_delete :
    lookupRule (last step start (oneByOne++[.restart,.delete (lit "*")])).rules (lit "exec_shell") =
      lookupRule (loadFromDb (last step start (oneByOne++[.restart,.delete (lit "*")])).db) (lit "exec_shell") := by
  refine @survives_of_later (oneByOne++[.restart,.delete (lit "*")]) _ ?_ _
  refine run_last_cons (fun _ r hr => nomatch hr) rfl (run_last_cons ?_ rfl ?_)
  · intro _ r hr
    obtain rfl := List.mem_singleton.mp hr
    decide
  · exact run_last_cons trivial rfl (run_last_cons trivial rfl run_last_nil)

/-- Both rules within one second. -/
def sameSecond : List Action :=
  [.upsert (lit "*") (lit "allow") (lit "global") (lit "pr_bbbbbbbbbbbb") (lit "2026-01-01T00:00:00Z"),
    .upsert (lit "exec_*") (lit "deny") (lit "global") (lit "pr_aaaaaaaaaaaa")
      (lit "2026-01-01T00:00:00Z")]

theorem sameSecond_differs : ¬∀ (as : List Action) (s : State), Run step always start as s →
    ∀ toolName, lookupRule s.rules toolName = lookupRule (loadFromDb s.db) toolName := by
  intro h
  have heq := h sameSecond _ (run_last rfl) (lit "exec_shell")
  exact absurd heq (by decide)

end MinimaxCode.Permissions
