import MinimaxCode.DagreCrossings
import Mathlib.Algebra.Field.Defs

/-!
# The graph of one layer

To sort a rank, its nodes and the groups around them go into a graph of their own, below a
new root, with the edges that come from the rank before or go to the rank after. An end of
such an edge that is not in the rank itself comes into the graph with a blank label.
-/

namespace MinimaxCode
namespace GraphLib
namespace Graph

open PyText OrderedDict

variable {N E : Type}

def node (g : Graph N E) (v : PyStr) : Option N := (lookup g.nodes v).join

/-- `in_edges(v, None) or []`. -/
def inEdges (g : Graph N E) (v : PyStr) : List Edge := (table g.ins v).map Prod.snd

end Graph
end GraphLib

namespace DagreLayerGraph

open PyText OrderedDict GraphLib DagreCrossings
open GraphLib.Graph hiding GraphEdge

/-- A node label: the ranks, the place in the rank and the borders, and the rest. -/
structure GraphNode (D : Type) where
  data : D
  rank : Option ℤ
  minRank : Option ℤ
  maxRank : Option ℤ
  order : Option ℤ
  borderLeft : Option (List (ℤ × PyStr))
  borderRight : Option (List (ℤ × PyStr))
  borderLeft_ : Option PyStr
  borderRight_ : Option PyStr

inductive GraphRelationship
  | inEdges
  | outEdges
  deriving DecidableEq

variable {D A R : Type}

abbrev LayerGraph (D A R : Type) := GraphLib.Graph (GraphNode D) (GraphEdge A R)

section Model

variable [Inhabited D] [Inhabited A] [Field R]

/-- `GraphNode()`. -/
def GraphNode.blank : GraphNode D := ⟨default,none,none,none,none,none,none,none,none⟩

def rootName (n : ℕ) : PyStr := lit "_root"++PyJson.natText n

/-- The first of the numbers of `unique_id` whose name no node has, and the number after it. -/
def createRootNode (g : LayerGraph D A R) (uniqueId : ℕ) : PyStr × ℕ :=
  let skipped := ((List.range (g.nodes.length+1)).find? fun k =>
    !g.hasNode (rootName (uniqueId+k))).getD 0
  (rootName (uniqueId+skipped),uniqueId+skipped+1)

/-- A node of the rank, or a group that spans it. -/
def inLayer (node : GraphNode D) (rank : ℤ) : Bool :=
  node.rank == some rank || match node.minRank,node.maxRank with
    | some minRank,some maxRank => minRank ≤ rank && rank ≤ maxRank
    | _,_ => false

def relationshipEdges (g : LayerGraph D A R) (v : PyStr) : GraphRelationship → List Edge
  | .inEdges => g.inEdges v
  | .outEdges => g.outEdges v

def otherEnd (v : PyStr) (e : Edge) : PyStr := if e.v = v then e.w else e.v

/-- The weight of the edge between two nodes, zero where there is none. -/
def linkWeight (g : LayerGraph D A R) (u v : PyStr) : R :=
  ((g.edge u v none).join.bind GraphEdge.weight).getD 0

/-- A round of the loop over the edges of a node. -/
def copyEdge (g : LayerGraph D A R) (v : PyStr) (result : LayerGraph D A R) (e : Edge) :
    LayerGraph D A R :=
  (result.setEdge (otherEnd v e) v
    (some ⟨default,some (weightOf g e+linkWeight result (otherEnd v e) v)⟩) none).graph

/-- The label of a group: its borders at the rank. -/
def bordersAt (node : GraphNode D) (rank : ℤ) : GraphNode D :=
  {(.blank : GraphNode D) with
    borderLeft_ := node.borderLeft.bind (lookup · rank)
    borderRight_ := node.borderRight.bind (lookup · rank)}

/-- A round of the loop over the nodes. -/
def addLayerNode (g : LayerGraph D A R) (root : PyStr) (rank : ℤ)
    (relationship : GraphRelationship) (result : LayerGraph D A R) (v : PyStr) :
    Option (Outcome (GraphNode D) (GraphEdge A R)) :=
  match g.node v with
  | none => some ⟨none,result⟩
  | some node =>
    if inLayer node rank then
      match (result.setNode v (some node)).setParent v (some ((g.parentOf v).getD root)) with
      | some ⟨none,result⟩ =>
        let result := (relationshipEdges g v relationship).foldl (copyEdge g v) result
        some ⟨none,if node.minRank.isSome then result.setNode v (some (bordersAt node rank))
          else result⟩
      | outcome => outcome
    else some ⟨none,result⟩

def addLayerNodes (g : LayerGraph D A R) (root : PyStr) (rank : ℤ)
    (relationship : GraphRelationship) :
    List PyStr → LayerGraph D A R → Option (Outcome (GraphNode D) (GraphEdge A R))
  | [],result => some ⟨none,result⟩
  | v::vs,result =>
    match addLayerNode g root rank relationship result v with
    | some ⟨none,result⟩ => addLayerNodes g root rank relationship vs result
    | outcome => outcome

/-- The layer graph with its root, or how its making ended, and the next number of
`unique_id`. -/
structure Layer (D A R : Type) where
  root : PyStr
  uniqueId : ℕ
  outcome : Option (Outcome (GraphNode D) (GraphEdge A R))

def emptyLayer : LayerGraph D A R :=
  .new ⟨some true,none,some true⟩ (some .blank) (some ⟨default,some 1⟩)

def buildLayerGraph (g : LayerGraph D A R) (rank : ℤ) (relationship : GraphRelationship)
    (uniqueId : ℕ) : Layer D A R :=
  let (root,uniqueId) := createRootNode g uniqueId
  ⟨root,uniqueId,addLayerNodes g root rank relationship (keys g.nodes) emptyLayer⟩

/-- A mean, or no number where the weights add up to zero. -/
inductive Center (R : Type)
  | nan
  | mean (x : R)
  deriving DecidableEq

structure Barycenter (R : Type) where
  v : PyStr
  barycenter : Option (Center R)
  weight : Option R
  deriving DecidableEq

/-- The place of a node in its rank; none counts as zero. -/
def orderOf (g : LayerGraph D A R) (v : PyStr) : ℤ := ((g.node v).bind GraphNode.order).getD 0

/-- A weighted sum over its weights. -/
def center [DecidableEq R] (sum weight : R) : Center R :=
  if weight = 0 then .nan else .mean (sum/weight)

/-- A round of the loop of `barycenter` over the nodes. -/
def barycenterOf [DecidableEq R] (g : LayerGraph D A R) (v : PyStr) : Barycenter R :=
  if g.inEdges v = [] then ⟨v,none,none⟩
  else
    let s := (g.inEdges v).foldl
      (fun s e => (s.1+weightOf g e*(orderOf g e.v : ℤ),s.2+weightOf g e)) ((0,0) : R × R)
    ⟨v,some (center s.1 s.2),some s.2⟩

def barycenter [DecidableEq R] (g : LayerGraph D A R) (movable : List PyStr) :
    List (Barycenter R) := movable.map (barycenterOf g)

end Model

section Tables

variable {N E : Type} {g t : GraphLib.Graph N E} {u v x : PyStr}

/-- The edges and the label that a new node gets are the same. -/
structure SameEdges (g t : GraphLib.Graph N E) : Prop where
  directed : t.isDirected = g.isDirected
  compound : t.isCompound = g.isCompound
  labels : t.edgeLabels = g.edgeLabels
  ins : ∀ x, table t.ins x = table g.ins x
  default : ∀ x, t.defaultNodeLabel x = g.defaultNodeLabel x
  nodes : keys g.nodes ⊆ keys t.nodes

theorem SameEdges.refl (g : GraphLib.Graph N E) : SameEdges g g :=
  ⟨rfl,rfl,rfl,fun _ => rfl,fun _ => rfl,List.Subset.refl _⟩

theorem SameEdges.trans {s : GraphLib.Graph N E} (h : SameEdges g s) (h' : SameEdges s t) :
    SameEdges g t :=
  ⟨h'.directed.trans h.directed,h'.compound.trans h.compound,h'.labels.trans h.labels,
    fun x => (h'.ins x).trans (h.ins x),fun x => (h'.default x).trans (h.default x),
    List.Subset.trans h.nodes h'.nodes⟩

theorem sameEdges_setNode (hnew : v ∉ keys g.nodes → table g.ins v = []) (value : Option N) :
    SameEdges g (g.setNode v value) := by
  by_cases hv : v ∈ keys g.nodes
  · cases value with
    | none =>
      rw [setNode_none_of_mem hv]
      exact .refl g
    | some a =>
      rw [setNode,if_pos hv]
      exact ⟨rfl,rfl,rfl,fun _ => rfl,fun _ => rfl,
        fun x hx => mem_keys_assign_iff.mpr (.inr hx)⟩
  · rw [setNode_of_new hv]
    refine ⟨rfl,rfl,rfl,fun x => ?_,fun _ => rfl,fun x hx => mem_keys_assign_iff.mpr (.inr hx)⟩
    rw [createNode,table_assign]
    split
    · next hvx => rw [← hvx,hnew hv]
    · rfl

theorem sameEdges_attach (g : GraphLib.Graph N E) (v p : PyStr) : SameEdges g (g.attach v p) := by
  obtain ⟨children,heq,-⟩ := g.attach_eq v p
  rw [heq]
  exact ⟨rfl,rfl,rfl,fun _ => rfl,fun _ => rfl,List.Subset.refl _⟩

theorem node_setNode_some (a : N) : (g.setNode v (some a)).node x =
    if v = x then some a else g.node x := by
  by_cases hv : v ∈ keys g.nodes
  · rw [setNode,if_pos hv,node,lookup_assign]
    split <;> rfl
  · rw [setNode_of_new hv,createNode,node,lookup_assign]
    split <;> rfl

theorem node_setNode_none : (g.setNode v none).node x = g.node x ∨
    (g.setNode v none).node x = g.defaultNodeLabel v := by
  by_cases hv : v ∈ keys g.nodes
  · rw [setNode_none_of_mem hv]
    exact .inl rfl
  · rw [setNode_of_new hv,createNode,node,lookup_assign]
    split
    · exact .inr rfl
    · exact .inl rfl

theorem node_attach (p : PyStr) : (g.attach v p).node x = g.node x := by
  rw [node,attach_nodes,node]

theorem parentOf_setNode (hc : g.isCompound = true) (value : Option N) {p : PyStr}
    (h : (g.setNode v value).parentOf x = some p) : g.parentOf x = some p := by
  rw [parentOf,isCompound_setNode,if_pos hc,setNode_parent hc] at h
  rw [parentOf,if_pos hc]
  split at h
  · simp [Option.filter] at h
  · exact h

theorem parentOf_attach (hc : g.isCompound = true) {p q : PyStr}
    (h : (g.attach v p).parentOf x = some q) : x = v ∧ q = p ∨ g.parentOf x = some q := by
  have hcompound : (g.attach v p).isCompound = true := (sameEdges_attach g v p).compound.trans hc
  rw [parentOf,hcompound,if_pos rfl,attach_parent] at h
  rw [parentOf,if_pos hc]
  split at h
  · next hvx =>
    obtain ⟨hq,-⟩ := Option.filter_eq_some_iff.mp h
    exact .inl ⟨hvx.symm,(Option.some.inj hq).symm⟩
  · exact .inr h

end Tables

section Ends

variable {g r : LayerGraph D A R} {ends : PyStr → List PyStr} {u v x : PyStr} {e : Edge}

/-- The edges into each node come from the given ones, have no names and are in step with the
labels. A new node has no place. -/
structure Shows (ends : PyStr → List PyStr) (r : LayerGraph D A R) : Prop where
  directed : r.isDirected = true
  compound : r.isCompound = true
  ins : ∀ v, table r.ins v = (ends v).map fun u => (key ⟨u,v,none⟩,⟨u,v,none⟩)
  labelled : ∀ u v, Tidy ⟨u,v,none⟩ → (u ∈ ends v ↔ key ⟨u,v,none⟩ ∈ keys r.edgeLabels)
  tidy : ∀ v, ∀ u ∈ ends v, Tidy ⟨u,v,none⟩
  nodes : ∀ v, v ∉ keys r.nodes → ends v = []
  default : ∀ v, (r.defaultNodeLabel v).bind GraphNode.order = none

theorem Shows.congr {t : LayerGraph D A R} (h : Shows ends r) (hsame : SameEdges r t) :
    Shows ends t where
  directed := hsame.directed.trans h.directed
  compound := hsame.compound.trans h.compound
  ins := fun v => (hsame.ins v).trans (h.ins v)
  labelled := by
    rw [hsame.labels]
    exact h.labelled
  tidy := h.tidy
  nodes := fun v hv => h.nodes v fun hmem => hv (hsame.nodes hmem)
  default := fun v => by rw [hsame.default,h.default]

theorem Shows.table_nil (h : Shows ends r) (hv : v ∉ keys r.nodes) : table r.ins v = [] := by
  rw [h.ins,h.nodes v hv,List.map_nil]

theorem Shows.sameEdges_setNode (h : Shows ends r) (v : PyStr) (value : Option (GraphNode D)) :
    SameEdges r (r.setNode v value) :=
  DagreLayerGraph.sameEdges_setNode h.table_nil value

theorem linkWeight_congr [Field R] {t : LayerGraph D A R} (hsame : SameEdges r t) (u v : PyStr) :
    linkWeight t u v = linkWeight r u v := by
  rw [linkWeight,linkWeight,Graph.edge,Graph.edge,hsame.labels,hsame.directed]

theorem Shows.inEdges (h : Shows ends r) (v : PyStr) :
    r.inEdges v = (ends v).map fun u => ⟨u,v,none⟩ := by
  rw [Graph.inEdges,h.ins,List.map_map]
  rfl

theorem key_inj {u u' v v' : PyStr} (h : Tidy ⟨u,v,none⟩) (h' : Tidy ⟨u',v',none⟩)
    (hkey : key ⟨u,v,none⟩ = key ⟨u',v',none⟩) : u = u' ∧ v = v' := by
  rw [key_eq,key_eq] at hkey
  obtain ⟨hu,hv,-⟩ := split_key h h' hkey
  exact ⟨hu,hv⟩

/-- The ends with one more. -/
def addEnd (ends : PyStr → List PyStr) (u v : PyStr) : PyStr → List PyStr := fun x =>
  if x = v ∧ u ∉ ends v then ends v++[u] else ends x

theorem Shows.setEdge (h : Shows ends r) (htidy : Tidy ⟨u,v,none⟩) (l : GraphEdge A R) :
    Shows (addEnd ends u v) (r.setEdge u v (some l) none).graph := by
  have hkey : edgeArgsToId r.isDirected u v none = key ⟨u,v,none⟩ := by
    rw [h.directed]
    rfl
  have hlabelled : ∀ x y, Tidy ⟨x,y,none⟩ → (x ∈ addEnd ends u v y ↔
      key ⟨x,y,none⟩ = key ⟨u,v,none⟩ ∨ key ⟨x,y,none⟩ ∈ keys r.edgeLabels) := by
    intro x y hxy
    rw [← h.labelled x y hxy,addEnd]
    constructor
    · intro hx
      split at hx
      · next hyv =>
        rw [hyv.1]
        obtain hx | hx := List.mem_append.mp hx
        · exact .inr hx
        · rw [List.mem_singleton.mp hx]
          exact .inl rfl
      · exact .inr hx
    · rintro (heq | hx)
      · obtain ⟨rfl,rfl⟩ := key_inj hxy htidy heq
        split
        · exact List.mem_append_right _ List.mem_cons_self
        · next hnot => exact not_not.mp fun hmem => hnot ⟨rfl,hmem⟩
      · split
        · next hyv => exact List.mem_append_left _ (hyv.1 ▸ hx)
        · exact hx
  have htidy' : ∀ y, ∀ x ∈ addEnd ends u v y, Tidy ⟨x,y,none⟩ := by
    intro y x hx
    rw [addEnd] at hx
    split at hx
    · next hyv =>
      rw [hyv.1]
      obtain hx | hx := List.mem_append.mp hx
      · exact h.tidy v x hx
      · rw [List.mem_singleton.mp hx]
        exact htidy
    · exact h.tidy y x hx
  obtain ⟨hold,heq⟩ | ⟨hnew,⟨hname,-⟩ | ⟨-,heq⟩⟩ := r.setEdge_cases u v (some l) none
  · -- the edge is there and gets another label
    rw [hkey] at hold
    have hmem : u ∈ ends v := (h.labelled u v htidy).mpr hold
    have hsame : addEnd ends u v = ends := by
      funext x
      rw [addEnd,if_neg fun hx => hx.2 hmem]
    rw [hsame] at hlabelled ⊢
    rw [heq,hkey]
    refine ⟨h.directed,h.compound,h.ins,fun x y hxy => ?_,h.tidy,h.nodes,h.default⟩
    rw [hlabelled x y hxy,Graph.relabel,mem_keys_assign_iff]
  · cases hname
  · rw [hkey] at hnew
    have hmem : u ∉ ends v := fun hu => hnew ((h.labelled u v htidy).mp hu)
    have hsame₁ := h.sameEdges_setNode u none
    have h₁ := h.congr hsame₁
    have hsame := hsame₁.trans (h₁.sameEdges_setNode v none)
    have h₂ := h.congr hsame
    have hkey₂ : edgeArgsToId ((r.setNode u none).setNode v none).isDirected u v none =
        key ⟨u,v,none⟩ := by
      rw [h₂.directed]
      rfl
    rw [heq]
    refine ⟨h₂.directed,h₂.compound,fun x => ?_,fun x y hxy => ?_,htidy',fun x hx => ?_,
      h₂.default⟩
    · rw [createEdge,linkEdge]
      dsimp only
      rw [hkey₂,table_insertIn,h₂.ins,addEnd]
      by_cases hvx : v = x
      · subst hvx
        have hid : key ⟨u,v,none⟩ ∉ keys ((ends v).map fun u => (key ⟨u,v,none⟩,Edge.mk u v none)) := by
          intro hid
          obtain ⟨y,hy,heqy⟩ := List.mem_map.mp (show key ⟨u,v,none⟩ ∈ List.map Prod.fst _ from hid)
          obtain ⟨u',hu',rfl⟩ := List.mem_map.mp hy
          exact hmem ((key_inj (h.tidy v u' hu') htidy heqy).1 ▸ hu')
        rw [if_pos rfl,if_pos ⟨rfl,hmem⟩,assign_of_new hid,h₂.directed,List.map_append]
        rfl
      · rw [if_neg hvx,if_neg fun hx => hvx hx.1.symm]
    · rw [hlabelled x y hxy,createEdge,linkEdge]
      dsimp only
      rw [hkey₂,mem_keys_assign_iff,hsame.labels]
    · have hnodes : keys (r.createEdge u v (some l) none).nodes =
          keys ((r.setNode u none).setNode v none).nodes := rfl
      rw [hnodes] at hx
      rw [addEnd,if_neg,h₂.nodes x hx]
      rintro ⟨rfl,-⟩
      exact hx ((mem_nodes_setNode none).mpr (.inl rfl))

theorem lookup_setEdge (h : Shows ends r) (l : GraphEdge A R) (i : PyStr) :
    lookup (r.setEdge u v (some l) none).graph.edgeLabels i =
      if key ⟨u,v,none⟩ = i then some (some l) else lookup r.edgeLabels i := by
  have hkey : edgeArgsToId r.isDirected u v none = key ⟨u,v,none⟩ := by
    rw [h.directed]
    rfl
  obtain ⟨-,heq⟩ | ⟨-,⟨hname,-⟩ | ⟨-,heq⟩⟩ := r.setEdge_cases u v (some l) none
  · rw [heq,hkey]
    exact lookup_assign _ _ _ _
  · cases hname
  · have hsame := (h.sameEdges_setNode u none).trans
      ((h.congr (h.sameEdges_setNode u none)).sameEdges_setNode v none)
    rw [heq,createEdge,linkEdge]
    dsimp only
    rw [hsame.directed,hkey,hsame.labels]
    exact lookup_assign _ _ _ _

/-- No node gets an order or a parent. -/
structure Within (r t : LayerGraph D A R) : Prop where
  orders : ∀ x k, (t.node x).bind GraphNode.order = some k → (r.node x).bind GraphNode.order = some k
  parents : ∀ x p, t.parentOf x = some p → r.parentOf x = some p

theorem Within.trans {s t : LayerGraph D A R} (h : Within r s) (h' : Within s t) : Within r t :=
  ⟨fun x k hk => h.orders x k (h'.orders x k hk),fun x p hp => h.parents x p (h'.parents x p hp)⟩

theorem Shows.within_setNode (h : Shows ends r) (v : PyStr) : Within r (r.setNode v none) := by
  refine ⟨fun x k hk => ?_,fun x p => parentOf_setNode h.compound none⟩
  obtain heq | heq := node_setNode_none (g := r) (v := v) (x := x)
  · rwa [heq] at hk
  · rw [heq,h.default] at hk
    cases hk

theorem Shows.within_setEdge (h : Shows ends r) (l : GraphEdge A R) :
    Within r (r.setEdge u v (some l) none).graph := by
  obtain ⟨-,heq⟩ | ⟨-,⟨hname,-⟩ | ⟨-,heq⟩⟩ := r.setEdge_cases u v (some l) none
  · rw [heq]
    exact ⟨fun _ _ => id,fun _ _ => id⟩
  · cases hname
  · rw [heq]
    have hwithin := (h.within_setNode u).trans
      ((h.congr (h.sameEdges_setNode u none)).within_setNode v)
    exact ⟨hwithin.orders,hwithin.parents⟩

end Ends

section Links

variable [Field R]
variable {g r : LayerGraph D A R} {ends : PyStr → List PyStr} {u v x y : PyStr} {e : Edge}

theorem linkWeight_setEdge (h : Shows ends r) (huv : Tidy ⟨u,v,none⟩) (hxy : Tidy ⟨x,y,none⟩)
    (l : GraphEdge A R) : linkWeight (r.setEdge u v (some l) none).graph x y =
      if x = u ∧ y = v then l.weight.getD 0 else linkWeight r x y := by
  have hdirected := (h.setEdge huv l).directed
  rw [linkWeight,Graph.edge,hdirected,edgeArgsToId_true,lookup_setEdge h]
  by_cases heq : x = u ∧ y = v
  · rw [if_pos heq,if_pos (by rw [heq.1,heq.2])]
    rfl
  · rw [if_neg heq,if_neg fun hkey => heq (key_inj hxy huv hkey.symm),linkWeight,Graph.edge,
      h.directed]
    rfl

/-- The ends with those of some edges more. -/
def addEnds (v : PyStr) (es : List Edge) (ends : PyStr → List PyStr) : PyStr → List PyStr :=
  es.foldl (fun ends e => addEnd ends (otherEnd v e) v) ends

theorem copyEdges_spec [Inhabited D] [Inhabited A] {es : List Edge} (h : Shows ends r)
    (htidy : ∀ e ∈ es, Tidy ⟨otherEnd v e,v,none⟩) :
    Shows (addEnds v es ends) (es.foldl (copyEdge g v) r) ∧
      Within r (es.foldl (copyEdge g v) r) ∧
      ∀ x y, Tidy ⟨x,y,none⟩ → linkWeight (es.foldl (copyEdge g v) r) x y = linkWeight r x y+
        if y = v then ((es.filter fun e => otherEnd v e = x).map (weightOf g)).sum else 0 := by
  induction es generalizing r ends with
  | nil => exact ⟨h,⟨fun _ _ => id,fun _ _ => id⟩,fun x y _ => by simp⟩
  | cons e es ih =>
    have hhead := htidy e List.mem_cons_self
    have hnext : Shows (addEnd ends (otherEnd v e) v) (copyEdge g v r e) := h.setEdge hhead _
    obtain ⟨hshows,hwithin,hweight⟩ := ih hnext fun e' he' => htidy e' (List.mem_cons_of_mem e he')
    refine ⟨hshows,(h.within_setEdge _).trans hwithin,fun x y hxy => ?_⟩
    rw [List.foldl_cons,hweight x y hxy,copyEdge,linkWeight_setEdge h hhead hxy]
    by_cases hy : y = v
    · by_cases hx : otherEnd v e = x
      · simp [hx,hy]
        ring
      · simp [hx,hy,Ne.symm hx]
    · simp [hy]

theorem addEnds_of_ne {es : List Edge} (hx : x ≠ v) : addEnds v es ends x = ends x := by
  induction es generalizing ends with
  | nil => rfl
  | cons e es ih =>
    show addEnds v es (addEnd ends (otherEnd v e) v) x = ends x
    rw [ih,addEnd,if_neg fun h => hx h.1]

theorem addEnds_self (es : List Edge) (hnodup : (ends v).Nodup) :
    (addEnds v es ends v).Nodup ∧
      ∀ u, u ∈ addEnds v es ends v ↔ u ∈ ends v ∨ ∃ e ∈ es, otherEnd v e = u := by
  induction es generalizing ends with
  | nil => exact ⟨hnodup,by simp [addEnds]⟩
  | cons e es ih =>
    have hnext : (addEnd ends (otherEnd v e) v v).Nodup ∧
        ∀ u, u ∈ addEnd ends (otherEnd v e) v v ↔ u ∈ ends v ∨ otherEnd v e = u := by
      by_cases hmem : otherEnd v e ∈ ends v
      · rw [addEnd,if_neg fun h => h.2 hmem]
        refine ⟨hnodup,fun u => ⟨.inl,?_⟩⟩
        rintro (hu | rfl)
        · exact hu
        · exact hmem
      · rw [addEnd,if_pos ⟨rfl,hmem⟩]
        refine ⟨List.nodup_append.mpr ⟨hnodup,List.nodup_singleton _,?_⟩,fun u => ?_⟩
        · intro a ha b hb hab
          rw [List.mem_singleton.mp hb] at hab
          exact hmem (hab ▸ ha)
        · rw [List.mem_append,List.mem_singleton,eq_comm (a := u)]
    obtain ⟨hnodup',hmem'⟩ := ih hnext.1
    refine ⟨hnodup',fun u => (hmem' u).trans ?_⟩
    rw [hnext.2,or_assoc]
    simp

end Links

end DagreLayerGraph
end MinimaxCode
