import MinimaxCode.GraphLib
import MinimaxCode.Runs

/-!
# The forest of a compound graph

`set_node`, `set_parent` and `remove_node` keep a forest below the synthetic root. The
cycle check of `set_parent` starts above the new parent, so it does not see a node that
becomes its own parent, and nothing keeps the id of the root from being used for a node.
-/

namespace MinimaxCode.GraphLib
namespace Graph

open PyText OrderedDict Forests Runs

variable {N E : Type}

/-- What the two forest tables of a compound graph promise. -/
structure Forest (g : Graph N E) : Prop where
  acyclic : Acyclic (lookup g.parent)
  rooted : ∀ v ∈ keys g.nodes, Rooted (lookup g.parent) graphNode v
  children : ∀ p c, c ∈ g.childrenOf p ↔ lookup g.parent c = some p

/-- The calls that work on the forest. -/
inductive ForestOp (N : Type)
  | setNode (v : PyStr) (value : Option N)
  | setParent (v : PyStr) (parent : Option PyStr)
  | removeNode (v : PyStr)

def forestCall (g : Graph N E) : ForestOp N → Option (Outcome N E)
  | .setNode v value => some ⟨none,g.setNode v value⟩
  | .setParent v parent => g.setParent v parent
  | .removeNode v => some ⟨none,g.removeNode v⟩

/-- A call that returns or raises, and what it leaves. -/
def forestStep (g : Graph N E) (op : ForestOp N) : Option (Graph N E) :=
  (g.forestCall op).map Outcome.graph

/-- No node goes by the id of the synthetic root, and none becomes its own parent. -/
def Plain (_ : Graph N E) : ForestOp N → Prop
  | .setNode v _ => v ≠ graphNode
  | .setParent v none => v ≠ graphNode
  | .setParent v (some p) => v ≠ graphNode ∧ p ≠ graphNode ∧ p ≠ v
  | .removeNode _ => True

/-- What holds of the nodes and the parents besides. -/
structure Grown (g : Graph N E) : Prop where
  compound : g.isCompound = true
  covered : ∀ v, v ∈ keys g.nodes ↔ (lookup g.parent v).isSome
  parents : ∀ v p, lookup g.parent v = some p → p = graphNode ∨ p ∈ keys g.nodes
  root : graphNode ∉ keys g.nodes

variable {g s t : Graph N E} {v p x : PyStr}

theorem mem_childrenOf (hc : g.isCompound = true) {c : PyStr} :
    c ∈ g.childrenOf p ↔ c ∈ keys (table g.children p) := by
  rw [childrenOf,if_pos hc]

namespace Grown

theorem root_parent (h : g.Grown) : lookup g.parent graphNode = none := by
  rw [← Option.not_isSome_iff_eq_none,← h.covered]
  exact h.root

theorem acyclic (h : g.Grown) (hr : ∀ v ∈ keys g.nodes, Rooted (lookup g.parent) graphNode v) :
    Acyclic (lookup g.parent) := by
  refine acyclic_of_rooted h.root_parent fun x p hx => hr x ?_
  rw [h.covered,hx]
  rfl

end Grown

theorem setNode_of_mem (h : v ∈ keys g.nodes) (value : Option N) :
    (g.setNode v value).isCompound = g.isCompound ∧ (g.setNode v value).parent = g.parent ∧
      (g.setNode v value).children = g.children ∧ keys (g.setNode v value).nodes = keys g.nodes := by
  cases value with
  | none =>
    rw [setNode,if_pos h]
    exact ⟨rfl,rfl,rfl,rfl⟩
  | some _ =>
    rw [setNode,if_pos h]
    exact ⟨rfl,rfl,rfl,keys_assign_of_mem h _⟩

theorem setNode_none_of_mem (h : v ∈ keys g.nodes) : g.setNode v none = g := by
  rw [setNode,if_pos h]

theorem setNode_of_new (h : v ∉ keys g.nodes) (value : Option N) :
    g.setNode v value = g.createNode v (value.or (g.defaultNodeLabel v)) := by
  cases value with
  | none => rw [setNode,if_neg h]
  | some _ => rw [setNode,if_neg h]

theorem mem_nodes_setNode (value : Option N) :
    x ∈ keys (g.setNode v value).nodes ↔ x = v ∨ x ∈ keys g.nodes := by
  by_cases h : v ∈ keys g.nodes
  · rw [(setNode_of_mem h value).2.2.2]
    constructor
    · exact Or.inr
    · rintro (rfl | hx)
      · exact h
      · exact hx
  · rw [setNode_of_new h]
    exact mem_keys_assign_iff

theorem isCompound_setNode (value : Option N) : (g.setNode v value).isCompound = g.isCompound := by
  by_cases h : v ∈ keys g.nodes
  · exact (setNode_of_mem h value).1
  · rw [setNode_of_new h]
    rfl

theorem parent_setNode_of_new (hc : g.isCompound = true) (h : v ∉ keys g.nodes)
    (value : Option N) : (g.setNode v value).parent = assign g.parent v graphNode := by
  rw [setNode_of_new h]
  exact if_pos hc

theorem Forest.setNode (hg : g.Grown) (hf : g.Forest) (hv : v ≠ graphNode) (value : Option N) :
    (g.setNode v value).Grown ∧ (g.setNode v value).Forest := by
  by_cases hmem : v ∈ keys g.nodes
  · obtain ⟨hc,hp,hk,hn⟩ := setNode_of_mem hmem value
    constructor
    · constructor
      · rw [hc]; exact hg.compound
      · rw [hn,hp]; exact hg.covered
      · rw [hn,hp]; exact hg.parents
      · rw [hn]; exact hg.root
    · constructor
      · rw [hp]; exact hf.acyclic
      · rw [hn,hp]; exact hf.rooted
      · intro p c
        rw [mem_childrenOf (hc.trans hg.compound),hk,hp,← mem_childrenOf hg.compound]
        exact hf.children p c
  · have hcomp : (g.setNode v value).isCompound = true := (isCompound_setNode value).trans hg.compound
    have hparent := parent_setNode_of_new hg.compound hmem value
    have hlookup : ∀ x, lookup (g.setNode v value).parent x =
        if v = x then some graphNode else lookup g.parent x := by
      intro x
      rw [hparent,lookup_assign]
    have hroot : lookup (g.setNode v value).parent graphNode = none := by
      rw [hlookup,if_neg hv]
      exact hg.root_parent
    have hgrown : (g.setNode v value).Grown := by
      refine ⟨hcomp,fun x => ?_,fun x p hx => ?_,fun hx => ?_⟩
      · rw [mem_nodes_setNode,hlookup]
        by_cases hxv : v = x
        · simp [hxv]
        · simp [hxv,Ne.symm hxv,hg.covered]
      · rw [hlookup] at hx
        rw [mem_nodes_setNode]
        split at hx
        · exact .inl (Option.some.inj hx).symm
        · exact (hg.parents x p hx).imp_right .inr
      · rcases (mem_nodes_setNode value).mp hx with he | hx
        · exact hv he.symm
        · exact hg.root hx
    have hrooted : ∀ x ∈ keys (g.setNode v value).nodes,
        Rooted (lookup (g.setNode v value).parent) graphNode x := by
      intro x hx
      have hnew : lookup (g.setNode v value).parent v = some graphNode := by
        rw [hlookup,if_pos rfl]
      rcases (mem_nodes_setNode value).mp hx with rfl | hx
      · exact .step hnew .root
      · refine Rooted.move .root (fun habove => ?_) hnew (fun y hy => ?_) (hf.rooted x hx)
        · rcases Relation.reflTransGen_iff_eq_or_transGen.mp habove with he | habove
          · exact hv he
          · exact not_above_of_none hg.root_parent habove
        · rw [hlookup,if_neg (Ne.symm hy)]
    refine ⟨hgrown,hgrown.acyclic hrooted,hrooted,fun p c => ?_⟩
    have hchildren : (g.setNode v value).children =
        insertIn (assign g.children v []) graphNode v true := by
      rw [setNode_of_new hmem]
      exact if_pos hg.compound
    have hold := hf.children p c
    rw [mem_childrenOf hg.compound] at hold
    -- nothing lay below the new node before
    have hempty : ¬ lookup g.parent c = some v := by
      intro hc
      rcases hg.parents c v hc with he | hm
      · exact hv he
      · exact hmem hm
    have hfresh : lookup g.parent v = none := by
      rw [← Option.not_isSome_iff_eq_none,← hg.covered]
      exact hmem
    rw [mem_childrenOf hcomp,hchildren,table_insertIn,table_assign,hlookup]
    by_cases hpr : graphNode = p
    · subst hpr
      rw [if_pos rfl,mem_keys_assign_iff,if_neg hv]
      by_cases hcv : v = c
      · simp [hcv]
      · simp [hcv,Ne.symm hcv,hold]
    · rw [if_neg hpr]
      by_cases hvp : v = p
      · subst hvp
        rw [if_pos rfl]
        by_cases hcv : v = c
        · subst hcv
          simp [keys,hpr]
        · simp [hcv,keys,hempty]
      · rw [if_neg hvp,hold]
        by_cases hcv : v = c
        · subst hcv
          simp [hfresh,hpr]
        · simp [hcv]

/-- The child lists are the inverse of the parent map. -/
def Inverse (g : Graph N E) : Prop :=
  ∀ p c, c ∈ keys (table g.children p) ↔ lookup g.parent c = some p

theorem removeFromParentsChildList_eq (g : Graph N E) (v : PyStr) :
    ∃ children, g.removeFromParentsChildList v = {g with children := children} ∧
      ∀ q c, c ∈ keys (table children q) ↔
        c ∈ keys (table g.children q) ∧ ¬ (c = v ∧ lookup g.parent v = some q) := by
  rw [removeFromParentsChildList]
  cases hp : lookup g.parent v with
  | none => exact ⟨g.children,rfl,by simp⟩
  | some p =>
    refine ⟨adjust g.children p (remove · v),rfl,fun q c => ?_⟩
    rw [table_adjust rfl]
    by_cases hpq : p = q
    · subst hpq
      rw [if_pos rfl,mem_keys_remove_iff]
      constructor
      · rintro ⟨hne,hc⟩
        exact ⟨hc,fun h => hne h.1⟩
      · rintro ⟨hc,hne⟩
        exact ⟨fun he => hne ⟨he,rfl⟩,hc⟩
    · simp [hpq]

theorem attach_eq (g : Graph N E) (v p : PyStr) :
    ∃ children, g.attach v p = {g with parent := assign g.parent v p, children := children} ∧
      ∀ q c, c ∈ keys (table children q) ↔ (c = v ∧ q = p) ∨
        (c ∈ keys (table g.children q) ∧ ¬ (c = v ∧ lookup g.parent v = some q)) := by
  obtain ⟨children,heq,hmem⟩ := g.removeFromParentsChildList_eq v
  refine ⟨insertIn children p v true,by rw [attach,heq],fun q c => ?_⟩
  rw [table_insertIn,← hmem q c]
  by_cases hpq : p = q
  · subst hpq
    rw [if_pos rfl,mem_keys_assign_iff]
    simp
  · rw [if_neg hpq]
    simp [Ne.symm hpq]

/-- A child list has only nodes that have its node for their parent. -/
def Listed (g : Graph N E) : Prop :=
  ∀ p c, c ∈ keys (table g.children p) → lookup g.parent c = some p

theorem Inverse.listed (h : g.Inverse) : g.Listed := fun p c => (h p c).mp

theorem Listed.attach (h : g.Listed) (v p : PyStr) : (g.attach v p).Listed := by
  obtain ⟨children,heq,hmem⟩ := g.attach_eq v p
  intro q c hc
  rw [heq] at hc ⊢
  rw [lookup_assign]
  rcases (hmem q c).mp hc with ⟨rfl,rfl⟩ | ⟨hc,hne⟩
  · exact if_pos rfl
  · have hcq := h q c hc
    have hcv : v ≠ c := by
      rintro rfl
      exact hne ⟨rfl,hcq⟩
    rw [if_neg hcv]
    exact hcq

theorem Inverse.attach (h : g.Inverse) (v p : PyStr) : (g.attach v p).Inverse := by
  intro q c
  refine ⟨h.listed.attach v p q c,fun hc => ?_⟩
  obtain ⟨children,heq,hmem⟩ := g.attach_eq v p
  rw [heq,lookup_assign] at hc
  rw [heq,hmem]
  by_cases hcv : v = c
  · rw [if_pos hcv] at hc
    exact .inl ⟨hcv.symm,(Option.some.inj hc).symm⟩
  · rw [if_neg hcv] at hc
    exact .inr ⟨(h q c).mpr hc,fun he => hcv he.1.symm⟩

theorem Forest.inverse (hg : g.Grown) (hf : g.Forest) : g.Inverse := by
  intro p c
  rw [← mem_childrenOf hg.compound]
  exact hf.children p c

theorem Forest.attach (hg : g.Grown) (hf : g.Forest) (hv : v ∈ keys g.nodes)
    (hp : p = graphNode ∨ p ∈ keys g.nodes)
    (habove : ¬ Relation.ReflTransGen (Up (lookup g.parent)) p v) :
    (g.attach v p).Grown ∧ (g.attach v p).Forest := by
  obtain ⟨children,heq,-⟩ := g.attach_eq v p
  have hparent : ∀ x, lookup (g.attach v p).parent x =
      if v = x then some p else lookup g.parent x := by
    intro x
    rw [heq,lookup_assign]
  have hnodes : (g.attach v p).nodes = g.nodes := by rw [heq]
  have hcomp : (g.attach v p).isCompound = true := by rw [heq]; exact hg.compound
  have hvroot : v ≠ graphNode := fun he => hg.root (he ▸ hv)
  have hgrown : (g.attach v p).Grown := by
    refine ⟨hcomp,fun x => ?_,fun x q hx => ?_,by rw [hnodes]; exact hg.root⟩
    · rw [hnodes,hparent]
      by_cases hxv : v = x
      · simp [← hxv,hv]
      · rw [if_neg hxv]
        exact hg.covered x
    · rw [hparent] at hx
      rw [hnodes]
      split at hx
      · cases hx
        exact hp
      · exact hg.parents x q hx
  have hrooted : ∀ x ∈ keys (g.attach v p).nodes,
      Rooted (lookup (g.attach v p).parent) graphNode x := by
    intro x hx
    rw [hnodes] at hx
    have hproot : Rooted (lookup g.parent) graphNode p := by
      rcases hp with rfl | hp
      · exact .root
      · exact hf.rooted p hp
    refine Rooted.move hproot habove ?_ (fun y hy => ?_) (hf.rooted x hx)
    · rw [hparent,if_pos rfl]
    · rw [hparent,if_neg (Ne.symm hy)]
  refine ⟨hgrown,hgrown.acyclic hrooted,hrooted,fun q c => ?_⟩
  rw [mem_childrenOf hcomp]
  exact (hf.inverse hg).attach v p q c

theorem not_above_setNode (hg : g.Grown) (value : Option N)
    (hroot : v ≠ graphNode) (h : ¬ Relation.ReflTransGen (Up (lookup g.parent)) p v) :
    ¬ Relation.ReflTransGen (Up (lookup (g.setNode x value).parent)) p v := by
  by_cases hmem : x ∈ keys g.nodes
  · rwa [(setNode_of_mem hmem value).2.1]
  · have hparent : ∀ y, lookup (g.setNode x value).parent y =
        if x = y then some graphNode else lookup g.parent y := by
      intro y
      rw [parent_setNode_of_new hg.compound hmem,lookup_assign]
    intro habove
    refine h ?_
    have htop : ∀ y, Relation.ReflTransGen (Up (lookup (g.setNode x value).parent)) y v →
        Relation.ReflTransGen (Up (lookup g.parent)) y v := by
      intro y hy
      induction hy using Relation.ReflTransGen.head_induction_on with
      | refl => exact .refl
      | @head y q hyq hqv ih =>
        rw [Up,hparent] at hyq
        split at hyq
        · -- the walk through the new node ends at the root
          cases hyq
          rcases Relation.reflTransGen_iff_eq_or_transGen.mp ih with he | ha
          · exact absurd he hroot
          · exact absurd ha (not_above_of_none hg.root_parent)
        · exact .head hyq ih
    exact htop p habove

theorem above_parentOf (hc : g.isCompound = true) (hr : lookup g.parent graphNode = none)
    (hv : v ≠ graphNode) :
    Relation.TransGen (Up g.parentOf) p v ↔ Relation.TransGen (Up (lookup g.parent)) p v := by
  have hsub : ∀ x q, g.parentOf x = some q ↔ lookup g.parent x = some q ∧ q ≠ graphNode := by
    intro x q
    rw [parentOf,if_pos hc,Option.filter_eq_some_iff,decide_eq_true_iff]
  constructor
  · exact Relation.TransGen.mono (fun x q => And.left ∘ (hsub x q).mp) p v
  · intro h
    induction h using Relation.TransGen.head_induction_on with
    | single hx => exact .single ((hsub _ _).mpr ⟨hx,hv⟩)
    | head hx hqv ih =>
      refine .head ((hsub _ _).mpr ⟨hx,?_⟩) ih
      rintro rfl
      exact not_above_of_none hr hqv

theorem setParent_none (hc : g.isCompound = true) (v : PyStr) :
    g.setParent v none = some ⟨none,g.reparent v graphNode⟩ := by
  rw [setParent,if_pos hc]

theorem setParent_cases {parent : Option PyStr} {o : Outcome N E} (h : g.setParent v parent = some o) :
    (o.raised.isSome ∧ o.graph = g ∧
      ∀ p, parent = some p → g.isCompound = true → g.walkMeets v p = some true) ∨
    (parent = none ∧ o = ⟨none,g.reparent v graphNode⟩) ∨
    ∃ p, parent = some p ∧ g.walkMeets v p = some false ∧
      o = ⟨none,(g.setNode p none).reparent v p⟩ := by
  by_cases hc : g.isCompound = true
  · cases parent with
    | none =>
      rw [setParent_none hc] at h
      cases h
      exact .inr (.inl ⟨rfl,rfl⟩)
    | some p =>
      rw [setParent,if_pos hc] at h
      cases hw : g.walkMeets v p with
      | none => simp only [hw] at h; cases h
      | some b =>
        cases b with
        | true =>
          simp only [hw] at h
          cases h
          exact .inl ⟨rfl,rfl,fun q hq _ => by cases hq; exact hw⟩
        | false =>
          simp only [hw] at h
          cases h
          exact .inr (.inr ⟨p,rfl,hw,rfl⟩)
  · rw [setParent.eq_def,if_neg hc] at h
    cases h
    exact .inl ⟨rfl,rfl,fun _ _ hc' => absurd hc' hc⟩

theorem Forest.setParent (hg : g.Grown) (hf : g.Forest) (hv : v ≠ graphNode)
    {parent : Option PyStr} (hp : ∀ p, parent = some p → p ≠ graphNode ∧ p ≠ v) {o : Outcome N E}
    (h : g.setParent v parent = some o) : o.graph.Grown ∧ o.graph.Forest := by
  rcases setParent_cases h with ⟨-,hgraph,-⟩ | ⟨-,rfl⟩ | ⟨p,hpar,hw,rfl⟩
  · rw [hgraph]
    exact ⟨hg,hf⟩
  · obtain ⟨hg',hf'⟩ := hf.setNode hg hv none
    refine hf'.attach hg' ((mem_nodes_setNode none).mpr (.inl rfl)) (.inl rfl) fun habove => ?_
    rcases Relation.reflTransGen_iff_eq_or_transGen.mp habove with he | ha
    · exact hv he
    · exact not_above_of_none hg'.root_parent ha
  · obtain ⟨hpr,hpv⟩ := hp p hpar
    have hnot : ¬ Relation.ReflTransGen (Up (lookup g.parent)) p v := by
      rw [Relation.reflTransGen_iff_eq_or_transGen]
      rintro (he | ha)
      · exact hpv he.symm
      · exact not_above_of_meets hw ((above_parentOf hg.compound hg.root_parent hv).mpr ha)
    have h₁ := not_above_setNode hg (x := p) none hv hnot
    obtain ⟨hg₁,hf₁⟩ := hf.setNode hg hpr none
    have h₂ := not_above_setNode hg₁ (x := v) none hv h₁
    obtain ⟨hg₂,hf₂⟩ := hf₁.setNode hg₁ hv none
    refine hf₂.attach hg₂ ((mem_nodes_setNode none).mpr (.inl rfl)) (.inr ?_) h₂
    exact (mem_nodes_setNode none).mpr (.inr ((mem_nodes_setNode none).mpr (.inl rfl)))

theorem foldl_reparent (cs : List PyStr) (g : Graph N E) (hcs : ∀ c ∈ cs, c ∈ keys g.nodes) :
    ∃ parent children, cs.foldl (fun g c => g.reparent c graphNode) g =
        {g with parent := parent, children := children} ∧
      (∀ x, lookup parent x = if x ∈ cs then some graphNode else lookup g.parent x) ∧
      (g.Listed → ({g with parent := parent, children := children} : Graph N E).Listed) ∧
      (g.Inverse → ({g with parent := parent, children := children} : Graph N E).Inverse) := by
  induction cs generalizing g with
  | nil => exact ⟨g.parent,g.children,rfl,fun x => by simp,id,id⟩
  | cons c cs ih =>
    have hstep : g.reparent c graphNode = g.attach c graphNode := by
      rw [reparent,setNode_none_of_mem (hcs c List.mem_cons_self)]
    obtain ⟨children,heq,-⟩ := g.attach_eq c graphNode
    obtain ⟨P,C,hfold,hP,hL,hI⟩ := ih (g.attach c graphNode) fun c' hc' => by
      rw [heq]
      exact hcs c' (List.mem_cons_of_mem c hc')
    have hsame : ({g.attach c graphNode with parent := P, children := C} : Graph N E) =
        {g with parent := P, children := C} := by rw [heq]
    rw [hsame] at hfold hL hI
    refine ⟨P,C,by rw [List.foldl_cons,hstep,hfold],fun x => ?_,fun h => hL (h.attach _ _),
      fun h => hI (h.attach _ _)⟩
    rw [hP,heq,lookup_assign]
    by_cases hx : x ∈ cs
    · simp [hx]
    · by_cases hxc : c = x
      · simp [hxc]
      · simp [hx,hxc,Ne.symm hxc]

theorem leaveForest_eq (hc : g.isCompound = true) (hl : g.Listed)
    (hdom : ∀ c, (lookup g.parent c).isSome → c ≠ v → c ∈ keys g.nodes) :
    ∃ parent children, g.leaveForest v = {g with parent := parent, children := children} ∧
      (∀ x, x ≠ v → (lookup parent x).isSome → (lookup g.parent x).isSome) ∧
      lookup parent v = none ∧
      ({g with parent := parent, children := children} : Graph N E).Listed ∧
      (g.Inverse → v ≠ graphNode →
        (∀ x, x ≠ v → lookup parent x =
          if lookup g.parent x = some v then some graphNode else lookup g.parent x) ∧
        ({g with parent := parent, children := children} : Graph N E).Inverse) := by
  obtain ⟨C₀,heq,hC₀⟩ := g.removeFromParentsChildList_eq v
  -- the node has left the list of its parent
  have hdetached : ∀ q c, c ∈ keys (table C₀ q) → c ≠ v ∧ lookup g.parent c = some q := by
    intro q c hmem
    obtain ⟨hcq,hne⟩ := (hC₀ q c).mp hmem
    have hpar := hl q c hcq
    refine ⟨?_,hpar⟩
    rintro rfl
    exact hne ⟨rfl,hpar⟩
  generalize hg₁ : ({g with parent := remove g.parent v, children := C₀} : Graph N E) = g₁
  have hparent₁ : ∀ x, lookup g₁.parent x = if v = x then none else lookup g.parent x := by
    intro x
    rw [← hg₁,lookup_remove]
  have hlisted₁ : g₁.Listed := by
    intro q c hmem
    rw [hparent₁]
    rw [← hg₁] at hmem
    obtain ⟨hne,hpar⟩ := hdetached q c hmem
    rw [if_neg (Ne.symm hne)]
    exact hpar
  have hkids : ∀ c ∈ g₁.childrenOf v, c ≠ v ∧ lookup g.parent c = some v := by
    intro c hmem
    rw [mem_childrenOf (by rw [← hg₁]; exact hc),← hg₁] at hmem
    exact hdetached v c hmem
  obtain ⟨P,C,hfold,hP,hL,hI⟩ := foldl_reparent (g₁.childrenOf v) g₁ fun c hmem => by
    obtain ⟨hne,hpar⟩ := hkids c hmem
    rw [← hg₁]
    exact hdom c (by rw [hpar]; rfl) hne
  have hleave : g.leaveForest v = {g with parent := P, children := remove C v} := by
    rw [leaveForest,heq]
    dsimp only
    rw [hg₁,hfold,← hg₁]
  have hvP : lookup P v = none := by
    rw [hP,if_neg fun hmem => (hkids v hmem).1 rfl,hparent₁,if_pos rfl]
  refine ⟨P,remove C v,hleave,fun x hx hsome => ?_,hvP,fun q c hmem => ?_,fun hinv hroot => ?_⟩
  · rw [hP] at hsome
    split at hsome
    · next hmem =>
      rw [(hkids x hmem).2]
      rfl
    · rwa [hparent₁,if_neg (Ne.symm hx)] at hsome
  · rw [table_remove] at hmem
    split at hmem
    · cases hmem
    · exact hL hlisted₁ q c hmem
  · have hinv₁ : g₁.Inverse := by
      intro q c
      refine ⟨hlisted₁ q c,fun hpar => ?_⟩
      rw [hparent₁] at hpar
      split at hpar
      · cases hpar
      · next hne =>
        rw [← hg₁]
        exact (hC₀ q c).mpr ⟨(hinv q c).mpr hpar,fun he => hne he.1.symm⟩
    have hmoved : ∀ x, x ≠ v → lookup P x =
        if lookup g.parent x = some v then some graphNode else lookup g.parent x := by
      intro x hx
      have hiff : x ∈ g₁.childrenOf v ↔ lookup g.parent x = some v := by
        rw [mem_childrenOf (by rw [← hg₁]; exact hc),hinv₁,hparent₁,if_neg (Ne.symm hx)]
      rw [hP,hparent₁,if_neg (Ne.symm hx)]
      simp only [hiff]
    refine ⟨hmoved,fun q c => ?_⟩
    rw [table_remove]
    by_cases hvq : v = q
    · subst hvq
      rw [if_pos rfl]
      constructor
      · intro hmem
        cases hmem
      · intro hpar
        have hcv : c ≠ v := by
          rintro rfl
          cases hvP.symm.trans hpar
        dsimp only at hpar
        rw [hmoved c hcv] at hpar
        split at hpar
        · exact absurd (Option.some.inj hpar).symm hroot
        · next hne => exact absurd hpar hne
    · rw [if_neg hvq]
      exact hI hinv₁ q c

/-- The nodes and the forest tables are the same. -/
def SameForest (g g' : Graph N E) : Prop :=
  g'.isCompound = g.isCompound ∧ g'.nodes = g.nodes ∧ g'.parent = g.parent ∧
    g'.children = g.children

theorem SameForest.refl (g : Graph N E) : SameForest g g := ⟨rfl,rfl,rfl,rfl⟩

theorem SameForest.trans (h : SameForest g s) (h' : SameForest s t) : SameForest g t :=
  ⟨h'.1.trans h.1,h'.2.1.trans h.2.1,h'.2.2.1.trans h.2.2.1,h'.2.2.2.trans h.2.2.2⟩

theorem sameForest_removeEdge (g : Graph N E) (v w : PyStr) (name : Option PyStr) :
    SameForest g (g.removeEdge v w name) := by
  rw [removeEdge]
  split
  · exact ⟨rfl,rfl,rfl,rfl⟩
  · exact .refl g

theorem sameForest_cascade (es : List PyStr) (g : Graph N E) :
    SameForest g (es.foldl cascade g) := by
  induction es generalizing g with
  | nil => exact .refl g
  | cons e es ih =>
    refine SameForest.trans ?_ (ih (g.cascade e))
    rw [cascade]
    split
    · exact sameForest_removeEdge g _ _ _
    · exact .refl g

theorem sameForest_dropIns (g : Graph N E) (v : PyStr) : SameForest g (g.dropIns v) := by
  rw [dropIns]
  split
  · exact sameForest_cascade _ g
  · exact .refl g

theorem sameForest_dropOuts (g : Graph N E) (v : PyStr) : SameForest g (g.dropOuts v) := by
  rw [dropOuts]
  split
  · exact sameForest_cascade _ g
  · exact .refl g

theorem sameForest_removeNode (hmem : v ∈ keys g.nodes) (hc : g.isCompound = true) :
    SameForest (({g with nodes := remove g.nodes v} : Graph N E).leaveForest v) (g.removeNode v) := by
  rw [removeNode,if_pos hmem]
  dsimp only
  rw [if_pos hc]
  have h₁ := sameForest_dropIns (({g with nodes := remove g.nodes v} : Graph N E).leaveForest v) v
  exact h₁.trans (sameForest_dropOuts _ v)

theorem Forest.removeNode (hg : g.Grown) (hf : g.Forest) (v : PyStr) :
    (g.removeNode v).Grown ∧ (g.removeNode v).Forest := by
  by_cases hmem : v ∈ keys g.nodes
  · have hroot : v ≠ graphNode := fun he => hg.root (he ▸ hmem)
    have hsame := sameForest_removeNode hmem hg.compound
    have hinverse := hf.inverse hg
    have hlisted := hinverse.listed
    obtain ⟨P,C,hleave,hP,hPv,-,hinv⟩ :=
      leaveForest_eq (v := v) (g := {g with nodes := remove g.nodes v}) hg.compound hlisted
        fun c hsome hne => by
          rw [mem_keys_remove_iff,hg.covered]
          exact ⟨hne,hsome⟩
    obtain ⟨hmoved,hinv⟩ := hinv hinverse hroot
    rw [hleave] at hsame
    obtain ⟨hcomp,hnodes,hparent,hchildren⟩ := hsame
    dsimp only at hcomp hnodes hparent hchildren hP hmoved
    have hgrown : (g.removeNode v).Grown := by
      refine ⟨hcomp.trans hg.compound,fun x => ?_,fun x p hx => ?_,fun hx => ?_⟩
      · rw [hnodes,hparent,mem_keys_remove_iff,hg.covered]
        by_cases hxv : x = v
        · simp [hxv,hPv]
        · rw [hmoved x hxv]
          by_cases hkid : lookup g.parent x = some v
          · simp [hkid,hxv]
          · simp [hkid,hxv]
      · rw [hparent] at hx
        rw [hnodes,mem_keys_remove_iff]
        have hxv : x ≠ v := by
          rintro rfl
          cases hPv.symm.trans hx
        rw [hmoved x hxv] at hx
        split at hx
        · exact .inl (Option.some.inj hx).symm
        · next hne =>
          refine (hg.parents x p hx).imp_right fun hp => ⟨?_,hp⟩
          rintro rfl
          exact hne hx
      · rw [hnodes] at hx
        exact hg.root (mem_keys_remove_iff.mp hx).2
    have hrooted : ∀ x ∈ keys (g.removeNode v).nodes,
        Rooted (lookup (g.removeNode v).parent) graphNode x := by
      intro x hx
      rw [hnodes,mem_keys_remove_iff] at hx
      rw [hparent]
      refine (hf.rooted x hx.2).remove (v := v) (fun y hy hkid => ?_) (fun y hy hkid => ?_) hx.1
      · rw [hmoved y hy,if_pos hkid]
      · rw [hmoved y hy,if_neg hkid]
    refine ⟨hgrown,hgrown.acyclic hrooted,hrooted,fun p c => ?_⟩
    rw [mem_childrenOf hgrown.compound,hchildren,hparent]
    exact hinv p c
  · rw [Graph.removeNode,if_neg hmem]
    exact ⟨hg,hf⟩

theorem Forest.root_absent (hf : t.Forest)
    (hp : ∀ p, lookup t.parent graphNode = some p → p = graphNode ∨ p ∈ keys t.nodes) :
    lookup t.parent graphNode = none := by
  rw [Option.eq_none_iff_forall_not_mem]
  intro p hpar
  have hreach : ∀ x, Rooted (lookup t.parent) graphNode x →
      Relation.ReflTransGen (Up (lookup t.parent)) x graphNode := by
    intro x hx
    induction hx with
    | root => exact .refl
    | step hx _ ih => exact .head hx ih
  have hback : Relation.ReflTransGen (Up (lookup t.parent)) p graphNode := by
    rcases hp p hpar with rfl | hmem
    · exact .refl
    · exact hreach p (hf.rooted p hmem)
  exact hf.acyclic graphNode (.head' hpar hback)

theorem attach_parent (g : Graph N E) (v p x : PyStr) :
    lookup (g.attach v p).parent x = if v = x then some p else lookup g.parent x := by
  obtain ⟨children,heq,-⟩ := g.attach_eq v p
  rw [heq,lookup_assign]

theorem attach_nodes (g : Graph N E) (v p : PyStr) : (g.attach v p).nodes = g.nodes := by
  obtain ⟨children,heq,-⟩ := g.attach_eq v p
  rw [heq]

theorem setNode_parent (hc : g.isCompound = true) (v x : PyStr) (value : Option N) :
    lookup (g.setNode v value).parent x =
      if v ∉ keys g.nodes ∧ v = x then some graphNode else lookup g.parent x := by
  by_cases hmem : v ∈ keys g.nodes
  · rw [(setNode_of_mem hmem value).2.1,if_neg fun h => h.1 hmem]
  · rw [parent_setNode_of_new hc hmem,lookup_assign]
    simp [hmem]

theorem reparent_parent (hc : g.isCompound = true) :
    lookup (g.reparent v p).parent x = if v = x then some p else lookup g.parent x := by
  rw [reparent,attach_parent,setNode_parent hc]
  by_cases hvx : v = x
  · simp [hvx]
  · simp [hvx]

theorem Forest.ne_root_of_setNode (hg : g.Grown) {value : Option N}
    (hf : (g.setNode v value).Forest) : v ≠ graphNode := by
  rintro rfl
  refine hf.acyclic graphNode (.single ?_)
  rw [Up,setNode_parent hg.compound,if_pos ⟨hg.root,rfl⟩]

theorem Forest.ne_root_of_reparent (hg : g.Grown) (hp : p = graphNode ∨ p ∈ keys g.nodes)
    (hf : (g.reparent v p).Forest) : v ≠ graphNode ∧ p ≠ v := by
  have hparent : lookup (g.reparent v p).parent v = some p := by
    rw [reparent_parent hg.compound,if_pos rfl]
  have hne : p ≠ v := hf.acyclic.ne hparent
  refine ⟨?_,hne⟩
  rintro rfl
  have hnone := hf.root_absent fun q hq => by
    rw [hparent] at hq
    cases hq
    refine hp.imp_right fun hmem => ?_
    rw [reparent,attach_nodes]
    exact (mem_nodes_setNode none).mpr (.inr hmem)
  cases hparent.symm.trans hnone

theorem ne_root_of_raises (hg : g.Grown) (hf : g.Forest) (hw : g.walkMeets v p = some true) :
    v ≠ graphNode ∧ p ≠ graphNode ∧ p ≠ v := by
  have habove : Relation.TransGen (Up g.parentOf) p v := above_of_meets hw
  have hsub : ∀ x q, g.parentOf x = some q → lookup g.parent x = some q ∧ q ≠ graphNode := by
    intro x q hx
    rwa [parentOf,if_pos hg.compound,Option.filter_eq_some_iff,decide_eq_true_iff] at hx
  refine ⟨?_,?_,?_⟩
  · obtain ⟨q,-,hq⟩ := Relation.TransGen.tail'_iff.mp habove
    exact (hsub q v hq).2
  · rintro rfl
    obtain ⟨q,hq,-⟩ := Relation.TransGen.head'_iff.mp habove
    cases (hsub _ q hq).1.symm.trans hg.root_parent
  · rintro rfl
    exact hf.acyclic p (Relation.TransGen.mono (fun x q => And.left ∘ hsub x q) p p habove)

theorem forest_step {op : ForestOp N} (hstep : s.forestStep op = some t) (hg : s.Grown)
    (hf : s.Forest) : (s.Plain op → t.Grown ∧ t.Forest) ∧ (t.Forest → s.Plain op) := by
  obtain ⟨o,ho,rfl⟩ := Option.map_eq_some_iff.mp hstep
  cases op with
  | setNode v value =>
    cases ho
    exact ⟨fun hok => hf.setNode hg hok value,fun hf' => hf'.ne_root_of_setNode hg⟩
  | removeNode v =>
    cases ho
    exact ⟨fun _ => hf.removeNode hg v,fun _ => trivial⟩
  | setParent v parent =>
    have ho : s.setParent v parent = some o := ho
    cases parent with
    | none =>
      refine ⟨fun hok => hf.setParent hg hok (fun q hq => by cases hq) ho,fun hf' => ?_⟩
      rw [setParent_none hg.compound] at ho
      cases ho
      exact (hf'.ne_root_of_reparent hg (.inl rfl)).1
    | some p =>
      refine ⟨fun hok => hf.setParent hg hok.1 (fun q hq => by cases hq; exact hok.2) ho,
        fun hf' => ?_⟩
      rcases setParent_cases ho with ⟨-,-,hw⟩ | ⟨hnone,-⟩ | ⟨q,hq,-,rfl⟩
      · exact ne_root_of_raises hg hf (hw p rfl hg.compound)
      · cases hnone
      · cases hq
        by_cases hp : p = graphNode
        · -- the call makes a node with the id of the root
          subst hp
          have hroot : lookup ((s.setNode graphNode none).reparent v graphNode).parent graphNode =
              some graphNode := by
            have hnew : lookup (s.setNode graphNode none).parent graphNode = some graphNode := by
              rw [setNode_parent hg.compound]
              exact if_pos ⟨hg.root,rfl⟩
            rw [reparent_parent ((isCompound_setNode none).trans hg.compound),hnew]
            exact ite_self _
          exact absurd hroot fun h => hf'.acyclic graphNode (.single h)
        · obtain ⟨hg',-⟩ := hf.setNode hg hp none
          obtain ⟨hv,hpv⟩ := hf'.ne_root_of_reparent hg' (.inr ((mem_nodes_setNode none).mpr (.inl rfl)))
          exact ⟨hv,hp,hpv⟩

theorem grown_new (opts : GraphOption) (nd : Option N) (ed : Option E)
    (hc : opts.compound = some true) :
    (Graph.new opts nd ed).Grown ∧ (Graph.new opts nd ed).Forest := by
  have hcomp : (Graph.new opts nd ed).isCompound = true := by simp [Graph.new,hc]
  have hgrown : (Graph.new opts nd ed).Grown :=
    ⟨hcomp,by simp [Graph.new,keys],by simp [Graph.new],by simp [Graph.new,keys]⟩
  have hrooted : ∀ v ∈ keys (Graph.new opts nd ed).nodes,
      Rooted (lookup (Graph.new opts nd ed).parent) graphNode v := fun v hv => by cases hv
  refine ⟨hgrown,hgrown.acyclic hrooted,hrooted,fun p c => ?_⟩
  rw [mem_childrenOf hcomp]
  by_cases hp : graphNode = p
  · simp [Graph.new,hc,table,lookup_cons,hp,keys]
  · simp [Graph.new,hc,table,lookup_cons,hp,keys]

/-- The calls keep the forest throughout exactly when none of them names a node like the
root or moves a node below itself; a call of `set_parent` that raises changes nothing. -/
theorem forest_throughout_iff (opts : GraphOption) (nd : Option N) (ed : Option E)
    (hc : opts.compound = some true) {ops : List (ForestOp N)}
    (h : Run forestStep always (Graph.new opts nd ed) ops t) :
    (Throughout forestStep Forest (Graph.new opts nd ed) ops ↔
      Run forestStep Plain (Graph.new opts nd ed) ops t) ∧
    ∀ (g : Graph N E) (v : PyStr) (parent : Option PyStr) (o : Outcome N E),
      g.setParent v parent = some o → o.raised.isSome → o.graph = g := by
  obtain ⟨hg,hf⟩ := grown_new opts nd ed hc
  constructor
  · refine throughout_iff (fun s op t _ hst hg hf hf' => ?_) (fun s op t _ hst hg hf => ?_) h hg hf
    · exact ((forest_step hst hg hf).1 ((forest_step hst hg hf).2 hf')).1
    · exact ⟨(forest_step hst hg hf).2,fun hok => ((forest_step hst hg hf).1 hok).2⟩
  · intro g v parent o ho hraised
    rcases setParent_cases ho with ⟨-,hgraph,-⟩ | ⟨-,rfl⟩ | ⟨p,-,-,rfl⟩
    · exact hgraph
    · cases hraised
    · cases hraised

/-- An empty compound graph. -/
def emptyForest : Graph Unit Unit := Graph.new ⟨none,none,some true⟩ none none

/-- A group goes below another one, the other way round raises, and a group goes away. -/
def regrouping : List (ForestOp Unit) := [.setNode [ch 'a'] none,.setParent [ch 'b'] (some [ch 'a']),
  .setParent [ch 'a'] (some [ch 'b']),.removeNode [ch 'a']]

theorem forest_regrouping : Throughout forestStep Forest emptyForest regrouping := by
  have hrun : Run forestStep always emptyForest regrouping (last forestStep emptyForest regrouping) :=
    run_last (by rfl)
  refine ((forest_throughout_iff ⟨none,none,some true⟩ none none rfl hrun).1).mpr ?_
  refine .succ (by simp [Plain,graphNode]) rfl (.succ ?_ rfl (.succ ?_ rfl (.succ trivial rfl ?_)))
  · simp [Plain,graphNode]
  · simp [Plain,graphNode]
  · exact .refl _

/-- The cycle check does not see a node that becomes its own parent. -/
theorem own_parent_breaks : ∃ t, Run forestStep always emptyForest
      [.setParent [ch 'a'] (some [ch 'a'])] t ∧
    lookup t.parent [ch 'a'] = some [ch 'a'] ∧ ¬ t.Forest := by
  have hparent : lookup (last forestStep emptyForest
      [.setParent [ch 'a'] (some [ch 'a'])]).parent [ch 'a'] = some [ch 'a'] := by rfl
  exact ⟨_,run_last (by rfl),hparent,fun h => h.acyclic [ch 'a'] (.single hparent)⟩

theorem setParent_isSome (hg : g.Grown) (hf : g.Forest) (v : PyStr) (parent : Option PyStr) :
    (g.setParent v parent).isSome := by
  cases parent with
  | none =>
    rw [setParent_none hg.compound]
    rfl
  | some p =>
    have hsub : ∀ x q, g.parentOf x = some q → lookup g.parent x = some q := by
      intro x q hx
      rw [parentOf,if_pos hg.compound,Option.filter_eq_some_iff] at hx
      exact hx.1
    have hwalk : (g.walkMeets v p).isSome := by
      have hlength : g.parent.length = (keys g.parent).length := (List.length_map _).symm
      rw [walkMeets,hlength]
      refine meets_isSome (hf.acyclic.mono hsub) (keys g.parent) p fun y _ hy => ?_
      obtain ⟨q,hq⟩ := Option.isSome_iff_exists.mp hy
      rw [← isSome_lookup_iff,hsub y q hq]
      rfl
    obtain ⟨b,hb⟩ := Option.isSome_iff_exists.mp hwalk
    rw [setParent,if_pos hg.compound]
    cases b with
    | true => simp [hb]
    | false => simp [hb]

end Graph
end MinimaxCode.GraphLib
