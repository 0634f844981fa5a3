import MinimaxCode.JsonText
import MinimaxCode.Runs

/-!
# Tools of skills

A skill's provider adds its tools to the registry of the agent when the skill is invoked and
removes them when the invocation ends. Installing leaves a name alone that is already there,
removing drops every name the provider declares, and an installation that raises is not
undone. So the tools of the agent and of other skills survive as long as no provider finds
one of its names in the registry, and none raises part way.
-/

namespace MinimaxCode.SkillRuntime

open PyText PyJson Runs

/-- The tools by name, each with its instance. -/
structure ToolRegistry where
  tools : List (PyStr × ℕ)
  named : ∀ t ∈ tools, t.1 ≠ []
  distinct : (tools.map Prod.fst).Nodup

inductive RegisterError
  | emptyName
  | duplicate (name : PyStr)

namespace ToolRegistry

def names (r : ToolRegistry) : List PyStr := r.tools.map Prod.fst

def has (r : ToolRegistry) (name : PyStr) : Bool := r.names.contains name

theorem has_iff {r : ToolRegistry} {name : PyStr} : r.has name = true ↔ name ∈ r.names :=
  List.contains_iff_mem

theorem has_empty (r : ToolRegistry) : r.has [] = false := by
  rw [Bool.eq_false_iff,Ne,has_iff]
  intro h
  obtain ⟨t,ht,hname⟩ := List.mem_map.mp h
  exact r.named t ht hname

def register (r : ToolRegistry) (name : PyStr) (tool : ℕ) : Except RegisterError ToolRegistry :=
  if hname : name = [] then .error .emptyName
  else if hhas : name ∈ r.names then .error (.duplicate name)
  else .ok {
    tools := r.tools++[(name,tool)]
    named := by
      intro t ht
      obtain ht | ht := List.mem_append.mp ht
      · exact r.named t ht
      · obtain rfl := List.mem_singleton.mp ht
        exact hname
    distinct := by
      rw [List.map_append,List.nodup_append]
      refine ⟨r.distinct,List.nodup_singleton _,?_⟩
      rintro a ha b hb rfl
      obtain rfl := List.mem_singleton.mp hb
      exact hhas ha }

/-- `dict.pop(name, None)`. -/
def unregister (r : ToolRegistry) (name : PyStr) : ToolRegistry where
  tools := r.tools.filter fun t => t.1 ≠ name
  named := fun t ht => r.named t (List.mem_filter.mp ht).1
  distinct := r.distinct.sublist (List.filter_sublist.map Prod.fst)

end ToolRegistry

/-- The registry while tools are added to it, how many tools were made, and the names added. -/
structure Installing where
  registry : ToolRegistry
  made : ℕ
  added : List PyStr

/-- `Provider.install` over the names of its tools, which may raise at one of them; the result
says if it came to the end. -/
def install : Option ℕ → List PyStr → Installing → Bool × Installing
  | _, [], i => (true,i)
  | some 0, _::_, i => (false,i)
  | fault, n::ns, i =>
    if i.registry.has n then install (fault.map (·-1)) ns i
    else
      match i.registry.register n i.made with
      | .error _ => (false,{ i with made := i.made+1 })
      | .ok r => install (fault.map (·-1)) ns ⟨r,i.made+1,i.added++[n]⟩

/-- `Provider.uninstall`, which may raise at one of the names; the caller logs that. -/
def uninstall : Option ℕ → List PyStr → ToolRegistry → ToolRegistry
  | _, [], r => r
  | some 0, _::_, r => r
  | fault, n::ns, r => uninstall (fault.map (·-1)) ns (r.unregister n)

/-- The names a provider gets through before it raises. -/
def handled : Option ℕ → List PyStr → List PyStr
  | _, [] => []
  | some 0, _::_ => []
  | fault, n::ns => if n = [] then [] else n::handled (fault.map (·-1)) ns

def dropped (fault : Option ℕ) (names : List PyStr) : List PyStr :=
  match fault with
  | none => names
  | some k => names.take k

structure Skill where
  skillId : PyStr
  enabled : Bool
  tools : List PyStr

/-- The skills by their ids, the names of the tools of each registered provider, and `repr`. -/
structure Runtime where
  skills : PyStr → Option Skill
  toolProviders : PyStr → Option (List PyStr)
  repr : PyStr → PyStr

inductive InvokeError
  | invoke (message : PyStr)
  | notFound (skillId : PyStr)

/-- The checks of `invoke`, and the names its provider declares. -/
def declared (rt : Runtime) (skillId : PyStr) (request : Json) : Except InvokeError (List PyStr) :=
  match request with
  | .str text =>
    if isBlank text then .error (.invoke (lit "'request' is empty"))
    else
      match rt.skills skillId with
      | none => .error (.notFound skillId)
      | some skill =>
        if skill.enabled = false then
          .error (.invoke (lit "skill "++rt.repr skillId++lit " is disabled"))
        else
          match rt.toolProviders skillId with
          | some names => .ok names
          | none =>
            if skill.tools = [] then .ok []
            else .error (.invoke (lit "no tool provider registered for skill "++rt.repr skillId))
  | _ => .error (.invoke (lit "'request' must be a string"))

structure Invocation where
  skillId : PyStr
  names : List PyStr
  deriving DecidableEq

/-- The registry, who waits for the lock of a skill and who runs, and what the skill registry
records as added. -/
structure State where
  registry : ToolRegistry
  made : ℕ
  waiting : List Invocation
  running : List Invocation
  recorded : List (PyStr × List PyStr)

/-- How the agent ends. -/
inductive Outcome
  | succeeded
  | failed
  | cancelled

inductive Action
  /-- `invoke` up to the lock of the skill. -/
  | invoke (skillId : PyStr) (request : Json)
  /-- A cancellation at the lock. -/
  | abandon (index : ℕ)
  /-- The lock is taken, and the provider may raise at one of its tools. -/
  | start (skillId : PyStr) (fault : Option ℕ)
  /-- The guarded block ends, and the provider may raise at one of its names. -/
  | finish (skillId : PyStr) (outcome : Outcome) (fault : Option ℕ)

def initial (registry : ToolRegistry) (made : ℕ) : State := ⟨registry,made,[],[],[]⟩

/-- A lock goes to the first who waits for it. -/
def nextFor (s : State) (skillId : PyStr) : Option Invocation :=
  if s.running.any (·.skillId == skillId) then none else s.waiting.find? (·.skillId == skillId)

def startInvocation (s : State) (inv : Invocation) (fault : Option ℕ) : State :=
  let r := install fault inv.names ⟨s.registry,s.made,[]⟩
  let waiting := s.waiting.erase inv
  if r.1 then
    { registry := r.2.registry, made := r.2.made, waiting := waiting, running := inv::s.running,
      recorded := (inv.skillId,r.2.added)::s.recorded.filter (·.1 ≠ inv.skillId) }
  else { s with registry := r.2.registry, made := r.2.made, waiting := waiting }

def finishInvocation (s : State) (inv : Invocation) (fault : Option ℕ) : State :=
  { s with
    registry := uninstall fault inv.names s.registry
    running := s.running.filter (·.skillId ≠ inv.skillId)
    recorded := s.recorded.filter (·.1 ≠ inv.skillId) }

def step (rt : Runtime) (s : State) : Action → Option State
  | .invoke skillId request =>
    match declared rt skillId request with
    | .error _ => some s
    | .ok names => some { s with waiting := s.waiting++[⟨skillId,names⟩] }
  | .abandon index => some { s with waiting := s.waiting.eraseIdx index }
  | .start skillId fault => (nextFor s skillId).map fun inv => startInvocation s inv fault
  | .finish skillId _ fault =>
    (s.running.find? (·.skillId == skillId)).map fun inv => finishInvocation s inv fault

/-- The tools of all running skills are registered, and when none runs the registry holds
exactly what it held at the start. -/
structure Scoped (registry : ToolRegistry) (s : State) : Prop where
  registered : ∀ inv ∈ s.running, ∀ n ∈ inv.names, n ∈ s.registry.names
  restored : s.running = [] → ∀ t, t ∈ s.registry.tools ↔ t ∈ registry.tools

/-- A provider finds none of its names in the registry, one that raises has added nothing,
and all names are dropped at the end. -/
def Safe (s : State) : Action → Prop
  | .start skillId fault => ∀ inv ∈ nextFor s skillId,
    if handled fault inv.names = inv.names then ∀ n ∈ inv.names, n ∉ s.registry.names
    else ∀ n ∈ handled fault inv.names, n ∈ s.registry.names
  | .finish skillId _ fault => ∀ inv ∈ s.running.find? (·.skillId == skillId),
    inv.names ⊆ dropped fault inv.names
  | _ => True

namespace ToolRegistry

theorem mem_names {r : ToolRegistry} {t : PyStr × ℕ} (h : t ∈ r.tools) : t.1 ∈ r.names :=
  List.mem_map_of_mem h

variable {name : PyStr}

theorem register_spec {r r' : ToolRegistry} {tool : ℕ}
    (h : r.register name tool = .ok r') : name ≠ [] ∧ r'.tools = r.tools++[(name,tool)] := by
  rw [register] at h
  split at h
  · cases h
  case isFalse hname =>
    split at h
    · cases h
    · cases h
      exact ⟨hname,rfl⟩

theorem register_error {r : ToolRegistry} {tool : ℕ} {e : RegisterError}
    (h : r.register name tool = .error e) (hhas : r.has name = false) : name = [] := by
  rw [register] at h
  split at h
  case isTrue hname => exact hname
  case isFalse =>
    split at h
    case isTrue hmem =>
      rw [has_iff.mpr hmem] at hhas
      cases hhas
    case isFalse => cases h

theorem mem_unregister {r : ToolRegistry} {t : PyStr × ℕ} :
    t ∈ (r.unregister name).tools ↔ t ∈ r.tools ∧ t.1 ≠ name := by
  simp [unregister]

end ToolRegistry

variable {fault : Option ℕ} {n : PyStr} {ns : List PyStr} {r : ToolRegistry}

theorem handled_cons (h : fault ≠ some 0) :
    handled fault (n::ns) = if n = [] then [] else n::handled (fault.map (·-1)) ns := by
  cases fault with
  | none => rfl
  | some k =>
    cases k with
    | zero => exact absurd rfl h
    | succ k => rfl

theorem install_cons {i : Installing}
    (h : fault ≠ some 0) : install fault (n::ns) i =
    if i.registry.has n then install (fault.map (·-1)) ns i
    else
      match i.registry.register n i.made with
      | .error _ => (false,{ i with made := i.made+1 })
      | .ok r => install (fault.map (·-1)) ns ⟨r,i.made+1,i.added++[n]⟩ := by
  cases fault with
  | none => rfl
  | some k =>
    cases k with
    | zero => exact absurd rfl h
    | succ k => rfl

theorem uninstall_cons
    (h : fault ≠ some 0) :
    uninstall fault (n::ns) r = uninstall (fault.map (·-1)) ns (r.unregister n) := by
  cases fault with
  | none => rfl
  | some k =>
    cases k with
    | zero => exact absurd rfl h
    | succ k => rfl

theorem dropped_cons (h : fault ≠ some 0) :
    dropped fault (n::ns) = n::dropped (fault.map (·-1)) ns := by
  cases fault with
  | none => rfl
  | some k =>
    cases k with
    | zero => exact absurd rfl h
    | succ k => rfl

theorem dropped_subset {names : List PyStr} : dropped fault names ⊆ names := by
  cases fault with
  | none => exact List.Subset.refl names
  | some k => exact (List.take_sublist k names).subset

/-- What an installation does: the names it gets through are registered, the tools it adds have
such names and stand behind those that were there, and it raises when it gets stuck. -/
structure Installed (names : List PyStr) (r r' : ToolRegistry) : Prop where
  registered : ∀ n ∈ names, n ∈ r'.names
  kept : ∀ t ∈ r.tools, t ∈ r'.tools
  added : ∀ t ∈ r'.tools, t ∈ r.tools ∨ t.1 ∈ names ∧ t.1 ∉ r.names

theorem Installed.names {r' : ToolRegistry} (h : Installed ns r r')
    (hn : n ∈ r.names) : n ∈ r'.names := by
  obtain ⟨t,ht,rfl⟩ := List.mem_map.mp hn
  exact ToolRegistry.mem_names (h.kept t ht)

theorem install_spec (fault : Option ℕ) (names : List PyStr) (i : Installing) :
    Installed (handled fault names) i.registry (install fault names i).2.registry ∧
      ((install fault names i).1 = true ↔ handled fault names = names) := by
  induction names generalizing fault i with
  | nil =>
    refine ⟨⟨?_,fun t ht => ht,fun t ht => Or.inl ht⟩,?_⟩
    · simp [handled]
    · simp [handled,install]
  | cons n ns ih =>
    by_cases hfault : fault = some 0
    · subst hfault
      refine ⟨⟨?_,fun t ht => ht,fun t ht => Or.inl ht⟩,?_⟩
      · simp [handled]
      · simp [handled,install]
    · rw [handled_cons hfault,install_cons hfault]
      cases hhas : i.registry.has n with
      | true =>
        have hname : n ≠ [] := by
          rintro rfl
          rw [i.registry.has_empty] at hhas
          cases hhas
        obtain ⟨h,hiff⟩ := ih (fault.map (·-1)) i
        rw [if_pos rfl,if_neg hname]
        refine ⟨⟨?_,h.kept,fun t ht => ?_⟩,by rw [hiff,List.cons_inj_right]⟩
        · refine List.forall_mem_cons.mpr ⟨?_,h.registered⟩
          obtain ⟨t,ht,rfl⟩ := List.mem_map.mp (ToolRegistry.has_iff.mp hhas)
          exact ToolRegistry.mem_names (h.kept t ht)
        · obtain hold | ⟨hnew,hout⟩ := h.added t ht
          · exact Or.inl hold
          · exact Or.inr ⟨List.mem_cons_of_mem n hnew,hout⟩
      | false =>
        rw [if_neg Bool.false_ne_true]
        cases hregister : i.registry.register n i.made with
        | error e =>
          rw [if_pos (ToolRegistry.register_error hregister hhas)]
          exact ⟨⟨by simp,fun t ht => ht,fun t ht => Or.inl ht⟩,by simp⟩
        | ok r =>
          obtain ⟨hname,htools⟩ := ToolRegistry.register_spec hregister
          obtain ⟨h,hiff⟩ := ih (fault.map (·-1)) ⟨r,i.made+1,i.added++[n]⟩
          have hout : n ∉ i.registry.names := by
            rw [← ToolRegistry.has_iff,hhas]
            exact Bool.false_ne_true
          have hmem : ∀ t, t ∈ r.tools ↔ t ∈ i.registry.tools ∨ t = (n,i.made) := by simp [htools]
          rw [if_neg hname]
          refine ⟨⟨?_,fun t ht => h.kept t ((hmem t).mpr (Or.inl ht)),fun t ht => ?_⟩,
            by rw [hiff,List.cons_inj_right]⟩
          · refine List.forall_mem_cons.mpr ⟨?_,h.registered⟩
            exact @ToolRegistry.mem_names _ (n,i.made) (h.kept _ ((hmem _).mpr (Or.inr rfl)))
          · obtain hold | ⟨hnew,hnot⟩ := h.added t ht
            · obtain hold | rfl := (hmem t).mp hold
              · exact Or.inl hold
              · exact Or.inr ⟨List.mem_cons_self,hout⟩
            · refine Or.inr ⟨List.mem_cons_of_mem n hnew,fun hin => hnot ?_⟩
              obtain ⟨u,hu,heq⟩ := List.mem_map.mp hin
              exact heq ▸ ToolRegistry.mem_names ((hmem u).mpr (Or.inl hu))

theorem mem_uninstall {names : List PyStr} {t : PyStr × ℕ} :
    t ∈ (uninstall fault names r).tools ↔ t ∈ r.tools ∧ t.1 ∉ dropped fault names := by
  induction names generalizing fault r with
  | nil => cases fault <;> simp [uninstall,dropped]
  | cons n ns ih =>
    by_cases hfault : fault = some 0
    · subst hfault
      simp [uninstall,dropped]
    · rw [uninstall_cons hfault,dropped_cons hfault,ih,ToolRegistry.mem_unregister,List.mem_cons,
        not_or,and_assoc]

theorem mem_names_uninstall {names : List PyStr} :
    n ∈ (uninstall fault names r).names ↔ n ∈ r.names ∧ n ∉ dropped fault names := by
  constructor
  · intro h
    obtain ⟨t,ht,rfl⟩ := List.mem_map.mp h
    obtain ⟨htools,hout⟩ := mem_uninstall.mp ht
    exact ⟨ToolRegistry.mem_names htools,hout⟩
  · rintro ⟨h,hout⟩
    obtain ⟨t,ht,rfl⟩ := List.mem_map.mp h
    exact ToolRegistry.mem_names (mem_uninstall.mpr ⟨ht,hout⟩)

/-- The running invocations are of different skills, their tools are there and of different
names, and all other tools are those of the start. -/
structure Inv (registry : ToolRegistry) (s : State) : Prop where
  unique : ∀ a ∈ s.running, ∀ b ∈ s.running, a.skillId = b.skillId → a = b
  registered : ∀ inv ∈ s.running, ∀ n ∈ inv.names, n ∈ s.registry.names
  apart : ∀ a ∈ s.running, ∀ b ∈ s.running, a ≠ b → List.Disjoint a.names b.names
  own : ∀ t, t ∈ registry.tools ↔ t ∈ s.registry.tools ∧ ∀ inv ∈ s.running, t.1 ∉ inv.names

section Runs

variable {rt : Runtime} {registry : ToolRegistry} {s t : State} {inv : Invocation} {skillId : PyStr}
  {a : Action}

theorem Inv.scoped (h : Inv registry s) : Scoped registry s := by
  refine ⟨h.registered,fun hidle t => ?_⟩
  rw [h.own,hidle]
  simp

theorem inv_initial (made : ℕ) : Inv registry (initial registry made) where
  unique := by simp [initial]
  registered := by simp [initial]
  apart := by simp [initial]
  own := by simp [initial]

theorem nextFor_spec (h : inv ∈ nextFor s skillId) :
    inv.skillId = skillId ∧ ∀ a ∈ s.running, a.skillId ≠ skillId := by
  rw [nextFor] at h
  split at h
  · cases h
  case isFalse hfree =>
    refine ⟨by simpa using List.find?_some h,fun a ha heq => hfree ?_⟩
    exact List.any_eq_true.mpr ⟨a,ha,by simpa using heq⟩

theorem find_running (h : inv ∈ s.running.find? (·.skillId == skillId)) :
    inv ∈ s.running ∧ inv.skillId = skillId :=
  ⟨List.mem_of_find?_eq_some h,by simpa using List.find?_some h⟩

/-- What a step does: a change of the queue, an installation that raises, one that comes to its
end, or the end of an invocation. -/
inductive Move (s t : State) : Action → Prop
  | invoked {skillId : PyStr} {request : Json} (hregistry : t.registry = s.registry)
    (hrunning : t.running = s.running) : Move s t (.invoke skillId request)
  | abandoned {index : ℕ} (hregistry : t.registry = s.registry) (hrunning : t.running = s.running) :
    Move s t (.abandon index)
  | raised {skillId : PyStr} {fault : Option ℕ} {inv : Invocation} (hnext : inv ∈ nextFor s skillId)
    (hfault : handled fault inv.names ≠ inv.names)
    (hinstalled : Installed (handled fault inv.names) s.registry t.registry)
    (hrunning : t.running = s.running) : Move s t (.start skillId fault)
  | started {skillId : PyStr} {fault : Option ℕ} {inv : Invocation} (hnext : inv ∈ nextFor s skillId)
    (hfault : handled fault inv.names = inv.names)
    (hinstalled : Installed inv.names s.registry t.registry)
    (hrunning : t.running = inv::s.running) : Move s t (.start skillId fault)
  | finished {skillId : PyStr} {outcome : Outcome} {fault : Option ℕ} {inv : Invocation}
    (hfind : inv ∈ s.running.find? (·.skillId == skillId))
    (hregistry : t.registry = uninstall fault inv.names s.registry)
    (hrunning : t.running = s.running.filter (·.skillId ≠ inv.skillId)) :
    Move s t (.finish skillId outcome fault)

theorem startInvocation_registry (s : State) (inv : Invocation) (fault : Option ℕ) :
    (startInvocation s inv fault).registry = (install fault inv.names ⟨s.registry,s.made,[]⟩).2.registry := by
  rw [startInvocation]
  split <;> rfl

theorem move_of_step (h : step rt s a = some t) : Move s t a := by
  cases a with
  | invoke skillId request =>
    rw [step] at h
    split at h <;> cases h <;> exact .invoked rfl rfl
  | abandon index =>
    cases h
    exact .abandoned rfl rfl
  | start skillId fault =>
    obtain ⟨inv,hnext,rfl⟩ := Option.map_eq_some_iff.mp h
    obtain ⟨hinstalled,hiff⟩ := install_spec fault inv.names ⟨s.registry,s.made,[]⟩
    rw [← startInvocation_registry] at hinstalled
    by_cases hfault : handled fault inv.names = inv.names
    · rw [hfault] at hinstalled
      exact .started hnext hfault hinstalled (by rw [startInvocation,if_pos (hiff.mpr hfault)])
    · exact .raised hnext hfault hinstalled (by rw [startInvocation,if_neg (mt hiff.mp hfault)])
  | finish skillId outcome fault =>
    obtain ⟨inv,hfind,rfl⟩ := Option.map_eq_some_iff.mp h
    exact .finished hfind rfl rfl

theorem Inv.congr (h : Inv registry s) (hregistry : ∀ u, u ∈ t.registry.tools ↔ u ∈ s.registry.tools)
    (hrunning : t.running = s.running) : Inv registry t := by
  have hnames : ∀ n, n ∈ s.registry.names → n ∈ t.registry.names := by
    intro n hn
    obtain ⟨u,hu,rfl⟩ := List.mem_map.mp hn
    exact ToolRegistry.mem_names ((hregistry u).mpr hu)
  constructor
  case unique => exact hrunning ▸ h.unique
  case registered => exact fun inv hinv n hn => hnames n (h.registered inv (hrunning ▸ hinv) n hn)
  case apart => exact hrunning ▸ h.apart
  case own =>
    intro u
    rw [h.own,hregistry,hrunning]

theorem mem_others {a : Invocation}
    (hunique : ∀ a ∈ s.running, ∀ b ∈ s.running, a.skillId = b.skillId → a = b)
    (hinv : inv ∈ s.running) :
    a ∈ s.running.filter (·.skillId ≠ inv.skillId) ↔ a ∈ s.running ∧ a ≠ inv := by
  rw [List.mem_filter,decide_eq_true_eq]
  refine and_congr_right fun ha => not_congr ⟨hunique a ha inv hinv,?_⟩
  rintro rfl
  rfl

theorem unique_start (h : Inv registry s) (hnext : inv ∈ nextFor s skillId)
    (hrunning : t.running = inv::s.running) :
    ∀ a ∈ t.running, ∀ b ∈ t.running, a.skillId = b.skillId → a = b := by
  obtain ⟨hskill,hfree⟩ := nextFor_spec hnext
  rw [hrunning]
  intro a ha b hb heq
  obtain rfl | harun := List.mem_cons.mp ha
  · obtain rfl | hbrun := List.mem_cons.mp hb
    · rfl
    · exact absurd (heq.symm.trans hskill) (hfree b hbrun)
  · obtain rfl | hbrun := List.mem_cons.mp hb
    · exact absurd (heq.trans hskill) (hfree a harun)
    · exact h.unique a harun b hbrun heq

theorem inv_step (hsafe : Safe s a) (hstep : step rt s a = some t)
    (h : Inv registry s) : Inv registry t := by
  cases move_of_step hstep with
  | invoked hregistry hrunning => exact h.congr (fun u => by rw [hregistry]) hrunning
  | abandoned hregistry hrunning => exact h.congr (fun u => by rw [hregistry]) hrunning
  | @raised skillId fault inv hnext hfault hinstalled hrunning =>
    have hpresent := hsafe inv hnext
    rw [if_neg hfault] at hpresent
    refine h.congr (fun u => ⟨fun hu => ?_,hinstalled.kept u⟩) hrunning
    obtain hold | ⟨hnew,hout⟩ := hinstalled.added u hu
    · exact hold
    · exact absurd (hpresent _ hnew) hout
  | @started skillId fault inv hnext hfault hinstalled hrunning =>
    have habsent := hsafe inv hnext
    rw [if_pos hfault] at habsent
    have hdisjoint : ∀ b ∈ s.running, List.Disjoint inv.names b.names :=
      fun b hb n hn hn' => habsent n hn (h.registered b hb n hn')
    constructor
    case unique => exact unique_start h hnext hrunning
    case registered =>
      rw [hrunning]
      exact List.forall_mem_cons.mpr ⟨hinstalled.registered,fun b hb n hn =>
        hinstalled.names (h.registered b hb n hn)⟩
    case apart =>
      rw [hrunning]
      intro a ha b hb hne
      obtain rfl | harun := List.mem_cons.mp ha
      · obtain rfl | hbrun := List.mem_cons.mp hb
        · exact absurd rfl hne
        · exact hdisjoint b hbrun
      · obtain rfl | hbrun := List.mem_cons.mp hb
        · exact (hdisjoint a harun).symm
        · exact h.apart a harun b hbrun hne
    case own =>
      intro u
      rw [h.own,hrunning,List.forall_mem_cons]
      constructor
      · rintro ⟨hu,hout⟩
        exact ⟨hinstalled.kept u hu,fun hn => habsent _ hn (ToolRegistry.mem_names hu),hout⟩
      · rintro ⟨hu,hnot,hout⟩
        obtain hold | ⟨hnew,_⟩ := hinstalled.added u hu
        · exact ⟨hold,hout⟩
        · exact absurd hnew hnot
  | @finished skillId outcome fault inv hfind hregistry hrunning =>
    obtain ⟨hmem,hskill⟩ := find_running hfind
    have hall := hsafe inv hfind
    have hdropped : ∀ n, n ∈ dropped fault inv.names ↔ n ∈ inv.names :=
      fun n => ⟨fun hn => dropped_subset hn,fun hn => hall hn⟩
    have hothers : ∀ a, a ∈ t.running ↔ a ∈ s.running ∧ a ≠ inv :=
      fun a => hrunning ▸ mem_others h.unique hmem
    constructor
    case unique => exact fun a ha b hb => h.unique a ((hothers a).mp ha).1 b ((hothers b).mp hb).1
    case registered =>
      intro a ha n hn
      obtain ⟨ha,hne⟩ := (hothers a).mp ha
      rw [hregistry,mem_names_uninstall,hdropped]
      exact ⟨h.registered a ha n hn,h.apart a ha inv hmem hne hn⟩
    case apart => exact fun a ha b hb => h.apart a ((hothers a).mp ha).1 b ((hothers b).mp hb).1
    case own =>
      intro u
      rw [h.own,hregistry,mem_uninstall,hdropped,and_assoc]
      refine and_congr_right fun _ => ⟨fun hout => ⟨hout inv hmem,fun a ha => ?_⟩,?_⟩
      · exact hout a ((hothers a).mp ha).1
      · rintro ⟨hinv,hout⟩ a ha
        by_cases heq : a = inv
        · exact heq ▸ hinv
        · exact hout a ((hothers a).mpr ⟨ha,heq⟩)

theorem scoped_of_safe {made : ℕ} {as : List Action}
    (h : Run (step rt) Safe (initial registry made) as s) : Scoped registry s :=
  (h.invariant (fun _ _ _ => inv_step) (inv_initial made)).scoped

theorem step_finish {outcome : Outcome} (hinv : inv ∈ s.running)
    (hunique : ∀ a ∈ s.running, ∀ b ∈ s.running, a.skillId = b.skillId → a = b) :
    step rt s (.finish inv.skillId outcome none) = some (finishInvocation s inv none) := by
  have hfind : s.running.find? (·.skillId == inv.skillId) = some inv := by
    cases hfound : s.running.find? (·.skillId == inv.skillId) with
    | none => exact absurd (List.find?_eq_none.mp hfound inv hinv) (by simp)
    | some found =>
      obtain ⟨hmem,hskill⟩ := find_running hfound
      rw [hunique found hmem inv hinv hskill]
  rw [step,hfind]
  rfl

/-- An action that ends an invocation and removes all its names. -/
def Ends (a : Action) : Prop := ∃ skillId outcome, a = .finish skillId outcome none

theorem exists_idle (hunique : ∀ a ∈ s.running, ∀ b ∈ s.running, a.skillId = b.skillId → a = b) :
    ∃ as u, (∀ a ∈ as, Ends a) ∧ Run (step rt) always s as u ∧ u.running = [] ∧
      ∀ t, t ∈ u.registry.tools ↔ t ∈ s.registry.tools ∧ ∀ inv ∈ s.running, t.1 ∉ inv.names := by
  induction hlength : s.running.length using Nat.strong_induction_on generalizing s with
  | _ n ih =>
    cases hrunning : s.running with
    | nil => exact ⟨[],s,by simp,.refl s,hrunning,by simp⟩
    | cons inv rest =>
      have hmem : inv ∈ s.running := hrunning ▸ List.mem_cons_self
      have hstep := @step_finish rt s inv .succeeded hmem hunique
      have hothers : ∀ a, a ∈ (finishInvocation s inv none).running ↔ a ∈ s.running ∧ a ≠ inv :=
        fun a => mem_others hunique hmem
      have hshorter : (finishInvocation s inv none).running.length < n := by
        rw [← hlength]
        exact List.length_filter_lt_length_iff_exists.mpr ⟨inv,hmem,by simp⟩
      obtain ⟨as,u,hends,hrun,hidle,htools⟩ := ih _ hshorter
        (fun a ha b hb => hunique a ((hothers a).mp ha).1 b ((hothers b).mp hb).1) rfl
      refine ⟨_::as,u,List.forall_mem_cons.mpr ⟨⟨_,_,rfl⟩,hends⟩,.succ trivial hstep hrun,hidle,
        fun t => ?_⟩
      have hregistry : t ∈ (finishInvocation s inv none).registry.tools ↔
          t ∈ s.registry.tools ∧ t.1 ∉ inv.names := mem_uninstall
      rw [htools,hregistry,and_assoc,← hrunning]
      refine and_congr_right fun _ => ⟨?_,fun hout => ⟨hout inv hmem,fun a ha => ?_⟩⟩
      · rintro ⟨hinv,hout⟩ a ha
        by_cases heq : a = inv
        · exact heq ▸ hinv
        · exact hout a ((hothers a).mpr ⟨ha,heq⟩)
      · exact hout a ((hothers a).mp ha).1

theorem unscoped_of_bad (h : Inv registry s) (hstep : step rt s a = some t)
    (hbad : ¬ Safe s a) : ∃ as u, (∀ a ∈ as, Ends a) ∧ Run (step rt) always t as u ∧
      ¬ Scoped registry u := by
  cases move_of_step hstep with
  | invoked => exact absurd trivial hbad
  | abandoned => exact absurd trivial hbad
  | @raised skillId fault inv hnext hfault hinstalled hrunning =>
    have hleft : ∃ n ∈ handled fault inv.names, n ∉ s.registry.names := by
      by_contra hnone
      push Not at hnone
      refine hbad fun found hfound => ?_
      obtain rfl := Option.some.inj (hnext.symm.trans hfound)
      rwa [if_neg hfault]
    obtain ⟨n,hn,hnew⟩ := hleft
    obtain ⟨tool,htool,rfl⟩ := List.mem_map.mp (hinstalled.registered n hn)
    obtain ⟨as,u,hends,hrun,hidle,htools⟩ := @exists_idle rt t (hrunning ▸ h.unique)
    refine ⟨as,u,hends,hrun,fun hscoped => hnew ?_⟩
    have hkept : tool ∈ u.registry.tools := by
      rw [htools,hrunning]
      exact ⟨htool,fun b hb hmem => hnew (h.registered b hb _ hmem)⟩
    exact ToolRegistry.mem_names ((h.own tool).mp ((hscoped.restored hidle tool).mp hkept)).1
  | @started skillId fault inv hnext hfault hinstalled hrunning =>
    have hfound : ∃ n ∈ inv.names, n ∈ s.registry.names := by
      by_contra hnone
      push Not at hnone
      refine hbad fun found hfound => ?_
      obtain rfl := Option.some.inj (hnext.symm.trans hfound)
      rwa [if_pos hfault]
    obtain ⟨n,hn,hold⟩ := hfound
    have hunique := unique_start h hnext hrunning
    have hmem : inv ∈ t.running := hrunning ▸ List.mem_cons_self
    by_cases hshared : ∃ b ∈ s.running, n ∈ b.names
    · -- the other skill runs on without the tool
      obtain ⟨b,hb,hnb⟩ := hshared
      refine ⟨[_],finishInvocation t inv none,List.forall_mem_singleton.mpr ⟨_,_,rfl⟩,
        .succ trivial (@step_finish rt t inv .succeeded hmem hunique) (.refl _),fun hscoped => ?_⟩
      have hne : b ≠ inv := by
        rintro rfl
        exact (nextFor_spec hnext).2 b hb (nextFor_spec hnext).1
      have hmissing := hscoped.registered b
        ((mem_others hunique hmem).mpr ⟨hrunning ▸ List.mem_cons_of_mem inv hb,hne⟩) n hnb
      exact (mem_names_uninstall.mp hmissing).2 hn
    · -- the tool is one of the start
      push Not at hshared
      obtain ⟨tool,htool,rfl⟩ := List.mem_map.mp hold
      obtain ⟨as,u,hends,hrun,hidle,htools⟩ := @exists_idle rt t hunique
      refine ⟨as,u,hends,hrun,fun hscoped => ?_⟩
      have hstart := (h.own tool).mpr ⟨htool,hshared⟩
      exact ((htools tool).mp ((hscoped.restored hidle tool).mpr hstart)).2 inv hmem hn
  | @finished skillId outcome fault inv hfind hregistry hrunning =>
    obtain ⟨hmem,hskill⟩ := find_running hfind
    have hleft : ∃ n ∈ inv.names, n ∉ dropped fault inv.names := by
      by_contra hnone
      push Not at hnone
      refine hbad fun found hfound => ?_
      obtain rfl := Option.some.inj (hfind.symm.trans hfound)
      exact hnone
    obtain ⟨n,hn,hkept⟩ := hleft
    obtain ⟨tool,htool,rfl⟩ := List.mem_map.mp (h.registered inv hmem n hn)
    have hothers : ∀ a, a ∈ t.running ↔ a ∈ s.running ∧ a ≠ inv :=
      fun a => hrunning ▸ mem_others h.unique hmem
    obtain ⟨as,u,hends,hrun,hidle,htools⟩ := @exists_idle rt t
      fun a ha b hb => h.unique a ((hothers a).mp ha).1 b ((hothers b).mp hb).1
    refine ⟨as,u,hends,hrun,fun hscoped => ?_⟩
    have hleft : tool ∈ u.registry.tools := by
      rw [htools,hregistry,mem_uninstall]
      refine ⟨⟨htool,hkept⟩,fun a ha hna => ?_⟩
      obtain ⟨hrun,hne⟩ := (hothers a).mp ha
      exact h.apart a hrun inv hmem hne hna hn
    exact ((h.own tool).mp ((hscoped.restored hidle tool).mp hleft)).2 inv hmem hn

theorem Ends.safe (h : Ends a) (s : State) : Safe s a := by
  obtain ⟨skillId,outcome,rfl⟩ := h
  exact fun inv _ => List.Subset.refl inv.names

/-- The tools are scoped in every state of a run, and wherever its invocations merely end from
there. -/
def ScopedThroughout (rt : Runtime) (registry : ToolRegistry) (made : ℕ) (as : List Action) : Prop :=
  ∀ before after bs t u, as = before++after → Run (step rt) always (initial registry made) before t →
    (∀ b ∈ bs, Ends b) → Run (step rt) always t bs u → Scoped registry u

/-- The tools are scoped in every state of a run, and wherever its invocations merely end from
there, exactly when no provider finds one of its names in the registry, one that raises has
added nothing, and all names are dropped at the end. -/
theorem scoped_iff {made : ℕ} {as : List Action}
    (h : Run (step rt) always (initial registry made) as s) :
    ScopedThroughout rt registry made as ↔ Run (step rt) Safe (initial registry made) as s := by
  constructor
  · intro hscoped
    induction as using List.reverseRecOn generalizing s with
    | nil =>
      cases h
      exact .refl _
    | append_singleton as a ih =>
      obtain ⟨t,hrun,hlast⟩ := h.split
      cases hlast with
      | succ _ hstep hend =>
        cases hend
        have hsafe := ih hrun fun before after bs v u heq =>
          hscoped before (after++[a]) bs v u (by rw [heq,List.append_assoc])
        refine hsafe.trans (.succ ?_ hstep (.refl _))
        by_contra hbad
        obtain ⟨bs,u,hends,hrest,hbroken⟩ := unscoped_of_bad
          (hsafe.invariant (fun _ _ _ => inv_step) (inv_initial made)) hstep hbad
        exact hbroken (hscoped (as++[a]) [] bs s u (List.append_nil _).symm h hends hrest)
  · rintro hsafe before after bs t u rfl hbefore hends hrest
    obtain ⟨t',hbefore',_⟩ := hsafe.split
    obtain rfl := Option.some.inj ((exec_of_run hbefore).symm.trans (exec_of_run hbefore'))
    have hrest' := (hrest.of_forall hends).mono fun s a (ha : Ends a) => ha.safe s
    exact scoped_of_safe (hbefore'.trans hrest')

end Runs

/-- Two skills whose providers declare tools. -/
def twoSkills (first second : List PyStr) : Runtime where
  skills skillId := some ⟨skillId,true,[]⟩
  toolProviders skillId := if skillId = lit "a" then some first else some second
  repr := id

def agentTools : ToolRegistry where
  tools := [(lit "read_file",0)]
  named := by decide
  distinct := by decide

/-- The second skill starts while the first runs, and ends before it. -/
def nested : List Action :=
  [.invoke (lit "a") (.str (lit "go")),.start (lit "a") none,.invoke (lit "b") (.str (lit "go")),
    .start (lit "b") none,.finish (lit "b") .succeeded none]

instance (s : State) (a : Action) : Decidable (Safe s a) := by
  cases a <;> unfold Safe <;> infer_instance

/-- Skills with tools of different names do not touch each other's. -/
theorem scoped_nested : ScopedThroughout (twoSkills [lit "x"] [lit "y"]) agentTools 1 nested :=
  (scoped_iff (run_last (by decide))).mpr <|
    run_last_cons (by decide) (by decide) <| run_last_cons (by decide) (by decide) <|
    run_last_cons (by decide) (by decide) <| run_last_cons (by decide) (by decide) <|
    run_last_cons (by decide) (by decide) run_last_nil

/-- The second skill leaves the tool alone that the first has registered, and removes it. -/
theorem shared_name_lost : ∃ s, Run (step (twoSkills [lit "x"] [lit "x"])) always
    (initial agentTools 1) nested s ∧ ¬ Scoped agentTools s := by
  refine ⟨_,run_last (by decide),fun h => ?_⟩
  have hrunning : (⟨lit "a",[lit "x"]⟩ : Invocation) ∈
      (last (step (twoSkills [lit "x"] [lit "x"])) (initial agentTools 1) nested).running := by decide
  have hmissing : lit "x" ∉
      (last (step (twoSkills [lit "x"] [lit "x"])) (initial agentTools 1) nested).registry.names := by decide
  exact hmissing (h.registered _ hrunning _ List.mem_cons_self)

end MinimaxCode.SkillRuntime
