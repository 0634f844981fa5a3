import MinimaxCode.DagreLayerGraph
import MinimaxCode.GraphContents
import Mathlib.Algebra.Order.BigOperators.Group.List
import Mathlib.Algebra.Order.Ring.Cast

/-!
# Barycenters of a layer

The barycenter of a node is to be the mean of the orders of its neighbours in the rank before
or after. The layer graph has the weights of these, but not their orders.
-/

namespace MinimaxCode.DagreLayerGraph

open PyText OrderedDict GraphLib DagreCrossings
open GraphLib.Graph hiding GraphEdge

variable {D A R : Type}

def rankOf (g : LayerGraph D A R) (v : PyStr) : Option ℤ := (g.node v).bind GraphNode.rank

/-- The nodes of the layer graph that come from the graph. -/
def isMovable (g : LayerGraph D A R) (rank : ℤ) (v : PyStr) : Bool :=
  (g.node v).any (inLayer · rank)

def movable (g : LayerGraph D A R) (rank : ℤ) : List PyStr := (keys g.nodes).filter (isMovable g rank)

def adjacentRank (rank : ℤ) : GraphRelationship → ℤ
  | .inEdges => rank-1
  | .outEdges => rank+1

/-- The edge comes from a neighbour to the node, or goes from the node to the neighbour. -/
def joins (v u : PyStr) : GraphRelationship → Edge → Bool
  | .inEdges,e => e.v = u && e.w = v
  | .outEdges,e => e.v = v && e.w = u

/-- The neighbours of a node in the adjacent rank. -/
def neighbours (g : LayerGraph D A R) (rank : ℤ) (relationship : GraphRelationship) (v : PyStr) :
    List PyStr :=
  (keys g.nodes).filter fun u =>
    rankOf g u = some (adjacentRank rank relationship) && g.edges.any (joins v u relationship)

section Means

variable [Field R] (g : LayerGraph D A R) (rank : ℤ) (relationship : GraphRelationship)

/-- The weights of parallel edges are added. -/
def weightBetween (v u : PyStr) : R :=
  ((g.edges.filter (joins v u relationship)).map (weightOf g)).sum

def totalWeight (v : PyStr) : R :=
  ((neighbours g rank relationship v).map (weightBetween g relationship v)).sum

def orderSum (v : PyStr) : R :=
  ((neighbours g rank relationship v).map fun u =>
    weightBetween g relationship v u*(orderOf g u : ℤ)).sum

variable [DecidableEq R]

/-- The weighted mean of the orders of the neighbours, if there are any. -/
def meanOrder (v : PyStr) : Option (Center R) :=
  if neighbours g rank relationship v = [] then none
  else some (center (orderSum g rank relationship v) (totalWeight g rank relationship v))

/-- The layer graph is built, and its barycenters are the means. -/
def BarycentersReal [Inhabited D] [Inhabited A] (uniqueId : ℕ) : Prop :=
  ∃ layer, (buildLayerGraph g rank relationship uniqueId).outcome = some ⟨none,layer⟩ ∧
    (barycenter layer (movable g rank)).map Barycenter.barycenter =
      (movable g rank).map (meanOrder g rank relationship)

end Means

/-- A directed multigraph with a forest of groups, in which edges lead from one rank to the
next, nodes with a rank have an order, and groups have no rank. -/
structure Layered (g : LayerGraph D A R) : Prop where
  multi : g.DiMulti
  tidy : g.TidyNodes
  distinct : (keys g.nodes).Nodup
  inKeys : ∀ v, (keys (table g.ins v)).Nodup
  forest : Forests.Acyclic g.parentOf
  spans : ∀ e ∈ g.edges, ∃ rank, rankOf g e.v = some rank ∧ rankOf g e.w = some (rank+1)
  groups : ∀ v node, g.node v = some node → node.minRank.isSome → node.rank = none
  ordered : ∀ v, (rankOf g v).isSome → ((g.node v).bind GraphNode.order).isSome

theorem rootName_injective {n m : ℕ} (h : rootName n = rootName m) : n = m := by
  have htext := List.append_cancel_left h
  rw [← PyJson.natOf_natText n,htext,PyJson.natOf_natText]

section Root

variable {g : LayerGraph D A R}

theorem createRootNode_fresh (uniqueId : ℕ) : (createRootNode g uniqueId).1 ∉ keys g.nodes := by
  rw [createRootNode]
  cases hfind : (List.range (g.nodes.length+1)).find? fun k =>
      !g.hasNode (rootName (uniqueId+k)) with
  | some k => simpa [hasNode] using List.find?_some hfind
  | none =>
    have hnodup : ((List.range (g.nodes.length+1)).map fun k => rootName (uniqueId+k)).Nodup :=
      List.nodup_range.map fun k k' h => Nat.add_left_cancel (rootName_injective h)
    have hsub : (List.range (g.nodes.length+1)).map (fun k => rootName (uniqueId+k)) ⊆
        keys g.nodes := by
      intro name hname
      obtain ⟨k,hk,rfl⟩ := List.mem_map.mp hname
      simpa [hasNode] using List.find?_eq_none.mp hfind k hk
    have hle := (List.subperm_of_subset hnodup hsub).length_le
    simp [keys] at hle

/-- The parents in the layer graph: what has no parent hangs below the root. -/
def hang (g : LayerGraph D A R) (root x : PyStr) : Option PyStr :=
  (g.parentOf x).or (if x = root then none else some root)

theorem parentOf_root (h : g.DiMulti) {root : PyStr} (hroot : root ∉ keys g.nodes) :
    g.parentOf root = none := by
  rw [parentOf]
  split
  · next hc =>
    have hnone : lookup g.parent root = none := by
      by_contra hsome
      exact hroot (h.sound.domain hc root (Option.isSome_iff_ne_none.mpr hsome))
    rw [hnone]
    rfl
  · rfl

theorem hang_acyclic (h : g.DiMulti) (hforest : Forests.Acyclic g.parentOf) {root : PyStr}
    (hroot : root ∉ keys g.nodes) : Forests.Acyclic (hang g root) := by
  have htop : hang g root root = none := by
    rw [hang,parentOf_root h hroot]
    simp
  have hup : ∀ x p, hang g root x = some p → g.parentOf x = some p ∨ p = root := by
    intro x p hp
    rw [hang,Option.or_eq_some_iff] at hp
    obtain hp | ⟨-,hp⟩ := hp
    · exact .inl hp
    · split at hp
      · cases hp
      · exact .inr (Option.some.inj hp).symm
  -- a way up that does not end at the root stays in the forest
  have hway : ∀ x y, Relation.TransGen (Forests.Up (hang g root)) x y →
      Relation.TransGen (Forests.Up g.parentOf) x y ∨ y = root := by
    intro x y hxy
    induction hxy with
    | single hstep =>
      obtain hp | hp := hup _ _ hstep
      · exact .inl (.single hp)
      · exact .inr hp
    | tail _ hstep ih =>
      obtain hbelow | rfl := ih
      · obtain hp | hp := hup _ _ hstep
        · exact .inl (.tail hbelow hp)
        · exact .inr hp
      · cases htop.symm.trans hstep
  intro x hx
  obtain hcycle | rfl := hway x x hx
  · exact hforest x hcycle
  · exact Forests.not_above_of_none htop hx

end Root

section Edges

variable {g : LayerGraph D A R} {relationship : GraphRelationship} {u v : PyStr} {e : Edge}

theorem mem_inEdges {N E : Type} {g : GraphLib.Graph N E} (h : g.Linked)
    (hkeys : (keys (table g.ins v)).Nodup) : e ∈ g.inEdges v ↔ e ∈ g.edges ∧ e.w = v := by
  rw [h.mem_edges]
  constructor
  · intro he
    obtain ⟨⟨i,o⟩,hio,rfl⟩ := List.mem_map.mp he
    have hlook := lookup_of_mem hkeys hio
    rw [h.ins v i,Option.filter_eq_some_iff] at hlook
    exact ⟨by rw [h.own i o hlook.1]; exact hlook.1,of_decide_eq_true hlook.2⟩
  · rintro ⟨he,rfl⟩
    have hlook : lookup (table g.ins e.w) (edgeObjToId g.isDirected e) = some e := by
      rw [h.ins e.w (edgeObjToId g.isDirected e),he]
      simp [Option.filter]
    exact List.mem_map_of_mem (mem_of_lookup hlook)

theorem inEdges_nodup {N E : Type} {g : GraphLib.Graph N E} (h : g.Linked)
    (hkeys : (keys (table g.ins v)).Nodup) : (g.inEdges v).Nodup := by
  refine List.Nodup.of_map (edgeObjToId g.isDirected) ?_
  have hids : (g.inEdges v).map (edgeObjToId g.isDirected) = keys (table g.ins v) := by
    rw [Graph.inEdges,keys,List.map_map]
    refine List.map_congr_left fun io hio => ?_
    have hlook := lookup_of_mem hkeys (k := io.1) (v := io.2) hio
    rw [h.ins v io.1,Option.filter_eq_some_iff] at hlook
    exact h.own _ _ hlook.1
  rw [hids]
  exact hkeys

theorem Layered.ends_ne (h : Layered g) (he : e ∈ g.edges) : e.v ≠ e.w := by
  obtain ⟨rank,hv,hw⟩ := h.spans e he
  intro heq
  rw [heq,hw] at hv
  have := Option.some.inj hv
  omega

theorem Layered.mem_relationshipEdges (h : Layered g) :
    e ∈ relationshipEdges g v relationship ∧ otherEnd v e = u ↔
      e ∈ g.edges ∧ joins v u relationship e := by
  cases relationship with
  | inEdges =>
    rw [relationshipEdges,mem_inEdges h.multi.sound.linked (h.inKeys v),joins]
    constructor
    · rintro ⟨⟨he,rfl⟩,rfl⟩
      simp [he,otherEnd,h.ends_ne he]
    · rintro ⟨he,hjoins⟩
      obtain ⟨rfl,rfl⟩ : e.v = u ∧ e.w = v := by simpa using hjoins
      simp [he,otherEnd,h.ends_ne he]
  | outEdges =>
    rw [relationshipEdges,h.multi.sound.linked.mem_outEdges,joins]
    constructor
    · rintro ⟨⟨he,rfl⟩,rfl⟩
      simp [he,otherEnd]
    · rintro ⟨he,hjoins⟩
      obtain ⟨rfl,rfl⟩ : e.v = v ∧ e.w = u := by simpa using hjoins
      simp [he,otherEnd]

theorem Layered.relationshipEdges_nodup (h : Layered g) :
    (relationshipEdges g v relationship).Nodup := by
  cases relationship with
  | inEdges => exact inEdges_nodup h.multi.sound.linked (h.inKeys v)
  | outEdges => exact h.multi.sound.linked.outEdges_nodup v

theorem Layered.weightBetween_eq [Field R] (h : Layered g) (v u : PyStr) :
    (((relationshipEdges g v relationship).filter fun e => otherEnd v e = u).map
      (weightOf g)).sum = weightBetween g relationship v u := by
  rw [weightBetween]
  apply List.Perm.sum_eq
  apply List.Perm.map
  apply (List.perm_ext_iff_of_nodup (h.relationshipEdges_nodup.filter _)
    (h.multi.sound.linked.edges_nodup.filter _)).mpr
  intro e
  rw [List.mem_filter,List.mem_filter,decide_eq_true_eq]
  exact h.mem_relationshipEdges

theorem Layered.rank_of_joins (h : Layered g) (he : e ∈ g.edges) (hjoins : joins v u relationship e) :
    u ∈ keys g.nodes ∧ v ∈ keys g.nodes ∧ ∃ rank, rankOf g v = some rank ∧
      rankOf g u = some (adjacentRank rank relationship) := by
  obtain ⟨rank,hv,hw⟩ := h.spans e he
  have hends : e.v ∈ keys g.nodes ∧ e.w ∈ keys g.nodes := by
    obtain ⟨l,hl⟩ := h.multi.has_edge he
    exact h.multi.ends hl
  cases relationship with
  | inEdges =>
    obtain ⟨rfl,rfl⟩ : e.v = u ∧ e.w = v := by simpa [joins] using hjoins
    exact ⟨hends.1,hends.2,rank+1,hw,by simpa [adjacentRank] using hv⟩
  | outEdges =>
    obtain ⟨rfl,rfl⟩ : e.v = v ∧ e.w = u := by simpa [joins] using hjoins
    exact ⟨hends.2,hends.1,rank,hv,hw⟩

end Edges

section Rounds

variable [Field R] {g layer : LayerGraph D A R} {root : PyStr} {rank : ℤ}
variable {relationship : GraphRelationship} {ends : PyStr → List PyStr} {done : List PyStr} {v : PyStr}

/-- Some nodes have been worked off: the edges into the movable ones come from their
neighbours, only a node of the rank has an order, and the parents are as they should be. -/
structure Progress (g : LayerGraph D A R) (root : PyStr) (rank : ℤ)
    (relationship : GraphRelationship) (ends : PyStr → List PyStr) (done : List PyStr)
    (layer : LayerGraph D A R) : Prop where
  shows : Shows ends layer
  distinct : ∀ y, (ends y).Nodup
  sources : ∀ y u, u ∈ ends y ↔
    (y ∈ done ∧ isMovable g rank y) ∧ ∃ e ∈ relationshipEdges g y relationship, otherEnd y e = u
  weights : ∀ x y, Tidy ⟨x,y,none⟩ → linkWeight layer x y =
    if y ∈ done ∧ isMovable g rank y then weightBetween g relationship y x else 0
  orders : ∀ x k, (layer.node x).bind GraphNode.order = some k → rankOf g x = some rank
  parents : ∀ x p, layer.parentOf x = some p → hang g root x = some p

theorem Progress.skip (h : Progress g root rank relationship ends done layer)
    (hv : isMovable g rank v = false) :
    Progress g root rank relationship ends (done++[v]) layer := by
  have hiff : ∀ y, (y ∈ done++[v] ∧ isMovable g rank y) ↔ (y ∈ done ∧ isMovable g rank y) := by
    intro y
    constructor
    · rintro ⟨hy,hmovable⟩
      obtain hy | hy := List.mem_append.mp hy
      · exact ⟨hy,hmovable⟩
      · rw [List.mem_singleton.mp hy,hv] at hmovable
        cases hmovable
    · exact fun hy => ⟨List.mem_append_left _ hy.1,hy.2⟩
  refine ⟨h.shows,h.distinct,fun y u => ?_,fun x y hxy => ?_,h.orders,h.parents⟩
  · rw [hiff]
    exact h.sources y u
  · simp only [hiff]
    exact h.weights x y hxy

omit [Field R] in
theorem setParent_hang (hparents : ∀ x p, layer.parentOf x = some p → hang g root x = some p)
    (hacyclic : Forests.Acyclic (hang g root)) (hc : layer.isCompound = true) {p : PyStr}
    (hp : hang g root v = some p) :
    layer.setParent v (some p) = some ⟨none,(layer.setNode p none).reparent v p⟩ := by
  have hsub := Forests.Acyclic.mono hacyclic hparents
  have hlength : layer.parent.length = (keys layer.parent).length := (List.length_map _).symm
  have hends : (layer.walkMeets v p).isSome := by
    rw [walkMeets,hlength]
    apply Forests.meets_isSome hsub
    intro y _ hy
    obtain ⟨q,hq⟩ := Option.isSome_iff_exists.mp hy
    rw [parentOf,if_pos hc] at hq
    rw [← isSome_lookup_iff,(Option.filter_eq_some_iff.mp hq).1]
    rfl
  obtain ⟨b,hb⟩ := Option.isSome_iff_exists.mp hends
  cases b with
  | false => rw [setParent,if_pos hc,hb]
  | true =>
    have habove : Relation.TransGen (Forests.Up (hang g root)) p v :=
      Relation.TransGen.mono hparents p v (Forests.above_of_meets hb)
    exact absurd (Relation.TransGen.head (show Forests.Up (hang g root) v p from hp) habove) (hacyclic v)

theorem Progress.place (hg : Layered g) (hroot : root ∉ keys g.nodes)
    (h : Progress g root rank relationship ends done layer) (hv : v ∈ keys g.nodes)
    (node : GraphNode D) :
    ∃ placed, (layer.setNode v (some node)).setParent v (some ((g.parentOf v).getD root)) =
        some ⟨none,placed⟩ ∧ SameEdges layer placed ∧
      (∀ x k, (placed.node x).bind GraphNode.order = some k →
        if v = x then node.order = some k else (layer.node x).bind GraphNode.order = some k) ∧
      ∀ x p, placed.parentOf x = some p → hang g root x = some p := by
  have hhang : hang g root v = some ((g.parentOf v).getD root) := by
    have hne : v ≠ root := fun heq => hroot (heq ▸ hv)
    rw [hang,if_neg hne]
    cases g.parentOf v <;> rfl
  generalize (g.parentOf v).getD root = p at hhang ⊢
  have hsame₁ := h.shows.sameEdges_setNode v (some node)
  have hshows₁ := h.shows.congr hsame₁
  have hparents₁ : ∀ x p, (layer.setNode v (some node)).parentOf x = some p →
      hang g root x = some p :=
    fun x p hp => h.parents x p (parentOf_setNode h.shows.compound _ hp)
  have hsame₂ := hshows₁.sameEdges_setNode p none
  have hshows₂ := hshows₁.congr hsame₂
  have hsame₃ := hshows₂.sameEdges_setNode v none
  have hwithin := (hshows₁.within_setNode p).trans (hshows₂.within_setNode v)
  refine ⟨_,setParent_hang hparents₁ (hang_acyclic hg.multi hg.forest hroot) hshows₁.compound hhang,
    ((hsame₁.trans hsame₂).trans hsame₃).trans (sameEdges_attach _ v p),fun x k hk => ?_,
    fun x q hq => ?_⟩
  · rw [reparent,node_attach] at hk
    have hk₁ := hwithin.orders x k hk
    rw [node_setNode_some] at hk₁
    split at hk₁
    · next hx => rwa [if_pos hx]
    · next hx => rwa [if_neg hx]
  · obtain ⟨rfl,rfl⟩ | hq := parentOf_attach (hshows₂.congr hsame₃).compound hq
    · exact hhang
    · exact hparents₁ x q (hwithin.parents x q hq)

variable [Inhabited D] [Inhabited A]

theorem Progress.round (hg : Layered g) (hroot : root ∉ keys g.nodes)
    (h : Progress g root rank relationship ends done layer) (hv : v ∈ keys g.nodes)
    (hnew : v ∉ done) :
    ∃ ends' layer', addLayerNode g root rank relationship layer v = some ⟨none,layer'⟩ ∧
      Progress g root rank relationship ends' (done++[v]) layer' := by
  rw [addLayerNode]
  cases hnode : g.node v with
  | none => exact ⟨ends,layer,rfl,h.skip (by simp [isMovable,hnode])⟩
  | some node =>
    by_cases hin : inLayer node rank = true
    · have hmovable : isMovable g rank v := by simpa [isMovable,hnode] using hin
      obtain ⟨placed,hset,hsame,horders,hparents⟩ := h.place hg hroot hv node
      simp only [hin,if_true,hset]
      have htidy : ∀ e ∈ relationshipEdges g v relationship, Tidy ⟨otherEnd v e,v,none⟩ := by
        intro e he
        obtain ⟨hmem,hjoins⟩ := hg.mem_relationshipEdges.mp ⟨he,rfl⟩
        obtain ⟨hu,hv,-⟩ := hg.rank_of_joins hmem hjoins
        exact ⟨hg.tidy _ hu,hg.tidy _ hv⟩
      obtain ⟨hshows,hwithin,hweights⟩ := copyEdges_spec (g := g) (h.shows.congr hsame) htidy
      generalize (relationshipEdges g v relationship).foldl (copyEdge g v) placed = linked at *
      have hends : ends v = [] := by
        rw [List.eq_nil_iff_forall_not_mem]
        exact fun u hu => hnew ((h.sources v u).mp hu).1.1
      obtain ⟨hdistinct,hsources⟩ := addEnds_self (relationshipEdges g v relationship)
        (h.distinct v)
      -- a group gets the label with its borders
      have hgroup : SameEdges linked (if node.minRank.isSome then
          linked.setNode v (some (bordersAt node rank)) else linked) := by
        split
        · exact hshows.sameEdges_setNode v _
        · exact .refl linked
      refine ⟨_,_,rfl,hshows.congr hgroup,fun y => ?_,fun y u => ?_,fun x y hxy => ?_,
        fun x k hk => ?_,fun x q hq => ?_⟩
      · by_cases hy : y = v
        · exact hy ▸ hdistinct
        · rw [addEnds_of_ne hy]
          exact h.distinct y
      · by_cases hy : y = v
        · subst hy
          rw [hsources,hends]
          simp [hmovable]
        · rw [addEnds_of_ne hy,h.sources]
          simp [hy]
      · rw [linkWeight_congr hgroup,hweights x y hxy,linkWeight_congr hsame,h.weights x y hxy]
        by_cases hy : y = v
        · subst hy
          simp [hnew,hmovable,hg.weightBetween_eq]
        · simp [hy]
      · by_cases hx : v = x
        · subst hx
          cases hmin : node.minRank with
          | some lo =>
            rw [hmin,Option.isSome_some,if_pos rfl,node_setNode_some,if_pos rfl] at hk
            cases hk
          | none =>
            have hrank : node.rank = some rank := by simpa [inLayer,hmin] using hin
            rw [rankOf,hnode]
            exact hrank
        · have hlinked : (linked.node x).bind GraphNode.order = some k := by
            split at hk
            · rwa [node_setNode_some,if_neg hx] at hk
            · exact hk
          have hold := horders x k (hwithin.orders x k hlinked)
          rw [if_neg hx] at hold
          exact h.orders x k hold
      · apply hparents x q
        apply hwithin.parents x q
        split at hq
        · exact parentOf_setNode hshows.compound _ hq
        · exact hq
    · rw [Bool.not_eq_true] at hin
      simp only [hin]
      exact ⟨ends,layer,rfl,h.skip (by simp [isMovable,hnode,hin])⟩

/-- The loop works all nodes off. -/
theorem Progress.run (hg : Layered g) (hroot : root ∉ keys g.nodes)
    (h : Progress g root rank relationship ends done layer) {vs : List PyStr}
    (hvs : vs ⊆ keys g.nodes) (hnodup : (done++vs).Nodup) :
    ∃ ends' layer', addLayerNodes g root rank relationship vs layer = some ⟨none,layer'⟩ ∧
      Progress g root rank relationship ends' (done++vs) layer' := by
  induction vs generalizing ends layer done with
  | nil => exact ⟨ends,layer,rfl,by simpa using h⟩
  | cons v vs ih =>
    have hnew : v ∉ done := fun hmem =>
      (List.nodup_append.mp hnodup).2.2 v hmem v List.mem_cons_self rfl
    obtain ⟨ends₁,layer₁,hround,h₁⟩ := h.round hg hroot (hvs List.mem_cons_self) hnew
    rw [List.append_cons] at hnodup
    obtain ⟨ends₂,layer₂,hrun,h₂⟩ := ih h₁ (fun x hx => hvs (List.mem_cons_of_mem v hx)) hnodup
    rw [List.append_cons]
    exact ⟨ends₂,layer₂,by rw [addLayerNodes,hround]; exact hrun,h₂⟩

theorem progress_empty : Progress g root rank relationship (fun _ => []) [] emptyLayer := by
  refine ⟨⟨rfl,rfl,fun _ => rfl,?_,?_,fun _ _ => rfl,fun _ => rfl⟩,?_,?_,?_,?_,?_⟩
  · simp [emptyLayer,GraphLib.Graph.new,keys]
  · simp
  · simp
  · simp
  · intro x y _
    simp [linkWeight,Graph.edge,emptyLayer,GraphLib.Graph.new]
  · intro x k hk
    cases hk
  · intro x p hp
    cases hp

theorem buildLayerGraph_spec (hg : Layered g) (rank : ℤ) (relationship : GraphRelationship)
    (uniqueId : ℕ) :
    ∃ ends layer, (buildLayerGraph g rank relationship uniqueId).outcome = some ⟨none,layer⟩ ∧
      Progress g (createRootNode g uniqueId).1 rank relationship ends (keys g.nodes) layer :=
  progress_empty.run hg (createRootNode_fresh uniqueId) (List.Subset.refl _)
    (by simpa using hg.distinct)

end Rounds

section Barycenters

variable {g layer : LayerGraph D A R} {root : PyStr} {rank : ℤ}
variable {relationship : GraphRelationship} {ends : PyStr → List PyStr} {v : PyStr}

theorem mem_neighbours (hg : Layered g) (hv : isMovable g rank v) {u : PyStr} :
    u ∈ neighbours g rank relationship v ↔
      ∃ e ∈ relationshipEdges g v relationship, otherEnd v e = u := by
  have hjoined : (∃ e ∈ relationshipEdges g v relationship, otherEnd v e = u) ↔
      ∃ e ∈ g.edges, joins v u relationship e :=
    exists_congr fun e => hg.mem_relationshipEdges
  rw [hjoined,neighbours,List.mem_filter,Bool.and_eq_true,decide_eq_true_eq,List.any_eq_true]
  refine ⟨fun h => h.2.2,fun h => ?_⟩
  obtain ⟨e,he,hjoins⟩ := h
  obtain ⟨hu,-,r,hr,hadjacent⟩ := hg.rank_of_joins he hjoins
  -- a movable node with a rank is of the rank of the layer
  obtain ⟨node,hnode,hin⟩ : ∃ node, g.node v = some node ∧ inLayer node rank := by
    rw [isMovable] at hv
    cases hnode : g.node v with
    | none => simp [hnode] at hv
    | some node => exact ⟨node,rfl,by simpa [hnode] using hv⟩
  rw [rankOf,hnode,Option.bind_some] at hr
  have hmin : node.minRank = none := by
    by_contra hsome
    have hnone := hg.groups v node hnode (Option.isSome_iff_ne_none.mpr hsome)
    rw [hr] at hnone
    cases hnone
  have hrank : r = rank := by simpa [inLayer,hmin,hr] using hin
  exact ⟨hu,hrank ▸ hadjacent,e,he,hjoins⟩

theorem rank_ne_of_neighbour {u : PyStr} (hu : u ∈ neighbours g rank relationship v) :
    rankOf g u ≠ some rank := by
  have hrank := (List.mem_filter.mp hu).2
  rw [Bool.and_eq_true,decide_eq_true_eq] at hrank
  rw [hrank.1]
  cases relationship with
  | inEdges => simp [adjacentRank]
  | outEdges => simp [adjacentRank]

variable [Field R]

theorem foldl_sums (f w : PyStr → R) (us : List PyStr) (s : R × R) :
    us.foldl (fun s u => (s.1+f u,s.2+w u)) s = (s.1+(us.map f).sum,s.2+(us.map w).sum) := by
  induction us generalizing s with
  | nil => simp
  | cons u us ih =>
    rw [List.foldl_cons,ih]
    simp [add_assoc]

variable [DecidableEq R]

theorem barycenterOf_spec (hg : Layered g)
    (h : Progress g root rank relationship ends (keys g.nodes) layer) (hv : v ∈ movable g rank) :
    (barycenterOf layer v).barycenter = if neighbours g rank relationship v = [] then none
      else some (center 0 (totalWeight g rank relationship v)) := by
  obtain ⟨hnode,hmovable⟩ := List.mem_filter.mp hv
  have hdistinct : (neighbours g rank relationship v).Nodup := hg.distinct.filter _
  have hperm : (ends v).Perm (neighbours g rank relationship v) := by
    apply (List.perm_ext_iff_of_nodup (h.distinct v) hdistinct).mpr
    intro u
    rw [h.sources,mem_neighbours hg hmovable]
    exact and_iff_right ⟨hnode,hmovable⟩
  have hweight : ∀ u ∈ ends v, linkWeight layer u v = weightBetween g relationship v u := by
    intro u hu
    rw [h.weights u v (h.shows.tidy v u hu),if_pos ⟨hnode,hmovable⟩]
  have horder : ∀ u ∈ ends v, orderOf layer u = 0 := by
    intro u hu
    rw [orderOf]
    cases hk : (layer.node u).bind GraphNode.order with
    | none => rfl
    | some k => exact absurd (h.orders u k hk) (rank_ne_of_neighbour (hperm.mem_iff.mp hu))
  have htotal : ((ends v).map fun u => linkWeight layer u v).sum =
      totalWeight g rank relationship v := by
    rw [List.map_congr_left hweight]
    exact (hperm.map _).sum_eq
  have hsum : ((ends v).map fun u => linkWeight layer u v*(orderOf layer u : ℤ)).sum = 0 := by
    apply List.sum_eq_zero
    intro x hx
    obtain ⟨u,hu,rfl⟩ := List.mem_map.mp hx
    rw [horder u hu,Int.cast_zero,mul_zero]
  have hfold : (layer.inEdges v).foldl
      (fun s e => (s.1+weightOf layer e*(orderOf layer e.v : ℤ),s.2+weightOf layer e))
      ((0,0) : R × R) = (0,totalWeight g rank relationship v) := by
    rw [h.shows.inEdges,List.foldl_map]
    refine (foldl_sums (fun u => linkWeight layer u v*(orderOf layer u : ℤ))
      (fun u => linkWeight layer u v) (ends v) (0,0)).trans ?_
    rw [hsum,htotal,add_zero,zero_add]
  have hnil : layer.inEdges v = [] ↔ neighbours g rank relationship v = [] := by
    rw [h.shows.inEdges,List.map_eq_nil_iff]
    exact ⟨fun hends => (hends ▸ hperm).nil_eq.symm,fun hnone => (hnone ▸ hperm).eq_nil⟩
  rw [barycenterOf,hfold]
  by_cases hnone : neighbours g rank relationship v = []
  · rw [if_pos (hnil.mpr hnone),if_pos hnone]
  · rw [if_neg fun hends => hnone (hnil.mp hends),if_neg hnone]

theorem center_eq_iff (sum weight : R) : center 0 weight = center sum weight ↔
    (weight ≠ 0 → sum = 0) := by
  rw [center,center]
  by_cases hw : weight = 0
  · simp [hw]
  · simp [hw,eq_comm]

/-- The code gives the means exactly where they are zero. -/
theorem barycenters_real_iff [Inhabited D] [Inhabited A] (hg : Layered g) (uniqueId : ℕ) :
    BarycentersReal g rank relationship uniqueId ↔ ∀ v ∈ movable g rank,
      totalWeight g rank relationship v ≠ 0 → orderSum g rank relationship v = 0 := by
  obtain ⟨ends,layer,hbuilt,hprogress⟩ := buildLayerGraph_spec hg rank relationship uniqueId
  have hiff : ∀ v ∈ movable g rank, (barycenterOf layer v).barycenter =
      meanOrder g rank relationship v ↔
        (totalWeight g rank relationship v ≠ 0 → orderSum g rank relationship v = 0) := by
    intro v hv
    rw [barycenterOf_spec hg hprogress hv,meanOrder]
    split
    · next hnil => simp [totalWeight,hnil]
    · rw [Option.some_inj,center_eq_iff]
  rw [BarycentersReal,← forall₂_congr hiff]
  constructor
  · rintro ⟨layer',hbuilt',hmeans⟩ v hv
    obtain rfl : layer = layer' := by
      rw [hbuilt] at hbuilt'
      injection hbuilt' with houtcome
      injection houtcome
    rw [barycenter,List.map_map] at hmeans
    exact List.map_inj_left.mp hmeans v hv
  · intro hmeans
    refine ⟨layer,hbuilt,?_⟩
    rw [barycenter,List.map_map]
    exact List.map_inj_left.mpr hmeans

end Barycenters

def nodeAt (rank order : ℤ) : GraphNode Unit :=
  {(.blank : GraphNode Unit) with rank := some rank, order := some order}

/-- The nodes `a` and `b` in a rank, and `c` in the next one with an edge from one of them. -/
def fed (source : PyStr) : LayerGraph Unit Unit ℚ :=
  (((((GraphLib.Graph.new ⟨none,some true,some true⟩ none none : LayerGraph Unit Unit ℚ).setNode
    [ch 'a'] (some (nodeAt 0 0))).setNode
    [ch 'b'] (some (nodeAt 0 1))).setNode
    [ch 'c'] (some (nodeAt 1 0))).setEdge
    source [ch 'c'] (some ⟨(),some 1⟩) none).graph

theorem layered_fed {source : PyStr} (hsource : source = [ch 'a'] ∨ source = [ch 'b']) :
    Layered (fed source) := by
  have hnew :
      (GraphLib.Graph.new ⟨none,some true,some true⟩ none none : LayerGraph Unit Unit ℚ).DiMulti :=
    ⟨rfl,rfl,sound_new _ _ _⟩
  have hmulti := ((((hnew.setNode [ch 'a'] (some (nodeAt 0 0))).setNode [ch 'b']
    (some (nodeAt 0 1))).setNode [ch 'c'] (some (nodeAt 1 0))).setEdge source [ch 'c']
    ⟨(),some 1⟩ none).1
  have hnodes : (fed source).nodes = [([ch 'a'],some (nodeAt 0 0)),([ch 'b'],some (nodeAt 0 1)),
      ([ch 'c'],some (nodeAt 1 0))] := by
    obtain rfl | rfl := hsource <;> rfl
  have hedges : (fed source).edges = [⟨source,[ch 'c'],none⟩] := by
    obtain rfl | rfl := hsource <;> rfl
  have hins : (fed source).ins = [([ch 'a'],[]),([ch 'b'],[]),
      ([ch 'c'],[(key ⟨source,[ch 'c'],none⟩,⟨source,[ch 'c'],none⟩)])] := by
    obtain rfl | rfl := hsource <;> rfl
  have hparent : (fed source).parent = [([ch 'a'],graphNode),([ch 'b'],graphNode),
      ([ch 'c'],graphNode)] := by
    obtain rfl | rfl := hsource <;> rfl
  have hnode : ∀ v, (fed source).node v = none ∨ ∃ rank order,
      (fed source).node v = some (nodeAt rank order) := by
    intro v
    rw [node,hnodes,lookup_cons,lookup_cons,lookup_cons]
    split_ifs
    · exact .inr ⟨0,0,rfl⟩
    · exact .inr ⟨0,1,rfl⟩
    · exact .inr ⟨1,0,rfl⟩
    · exact .inl rfl
  constructor
  case multi => exact hmulti
  case tidy =>
    rw [TidyNodes,hnodes]
    decide
  case distinct =>
    rw [hnodes]
    decide
  case inKeys =>
    intro v
    rw [table,hins,lookup_cons,lookup_cons,lookup_cons]
    split_ifs <;> simp [keys]
  case forest =>
    intro v
    apply Forests.not_above_of_none
    rw [parentOf,hparent,lookup_cons,lookup_cons,lookup_cons]
    split_ifs <;> simp [Option.filter]
  case spans =>
    rw [hedges]
    intro e he
    rw [List.mem_singleton.mp he]
    obtain rfl | rfl := hsource <;> exact ⟨0,rfl,rfl⟩
  case groups =>
    intro v node hv hmin
    obtain hnone | ⟨rank,order,hsome⟩ := hnode v
    · rw [hnone] at hv
      cases hv
    · rw [hsome] at hv
      cases hv
      cases hmin
  case ordered =>
    intro v hv
    obtain hnone | ⟨rank,order,hsome⟩ := hnode v
    · rw [rankOf,hnone] at hv
      cases hv
    · rw [hsome]
      rfl

theorem fed_first_real : BarycentersReal (fed [ch 'a']) 1 .inEdges 1 := by
  refine (barycenters_real_iff (layered_fed (.inl rfl)) 1).mpr fun v hv _ => ?_
  have horders : ∀ v ∈ movable (fed [ch 'a']) 1, ∀ u ∈ neighbours (fed [ch 'a']) 1 .inEdges v,
      orderOf (fed [ch 'a']) u = 0 := by decide
  apply List.sum_eq_zero
  intro x hx
  obtain ⟨u,hu,rfl⟩ := List.mem_map.mp hx
  rw [horders v hv u hu,Int.cast_zero,mul_zero]

/-- The node below the second one has the mean one, and its barycenter is zero. -/
theorem fed_second_not_real : Layered (fed [ch 'b']) ∧
    ¬ BarycentersReal (fed [ch 'b']) 1 .inEdges 1 := by
  refine ⟨layered_fed (.inr rfl),?_⟩
  rintro ⟨layer,hbuilt,hmeans⟩
  obtain ⟨ends,layer',hbuilt',hprogress⟩ :=
    buildLayerGraph_spec (layered_fed (.inr rfl)) 1 .inEdges 1
  obtain rfl : layer' = layer := by
    rw [hbuilt] at hbuilt'
    injection hbuilt' with houtcome
    injection houtcome with _ hgraph
    exact hgraph.symm
  have hmem : [ch 'c'] ∈ movable (fed [ch 'b']) 1 := by decide
  have hneighbours : neighbours (fed [ch 'b']) 1 .inEdges [ch 'c'] = [[ch 'b']] := by decide
  have hweight : weightBetween (fed [ch 'b']) .inEdges [ch 'c'] [ch 'b'] = 1 := by
    have hedges : (fed [ch 'b']).edges.filter (joins [ch 'c'] [ch 'b'] .inEdges) =
        [⟨[ch 'b'],[ch 'c'],none⟩] := by decide
    have hone : weightOf (fed [ch 'b']) ⟨[ch 'b'],[ch 'c'],none⟩ = 1 := rfl
    rw [weightBetween,hedges,List.map_singleton,List.sum_singleton,hone]
  have horder : orderOf (fed [ch 'b']) [ch 'b'] = 1 := by decide
  rw [barycenter,List.map_map] at hmeans
  have hmean := List.map_inj_left.mp hmeans [ch 'c'] hmem
  rw [Function.comp_apply,barycenterOf_spec (layered_fed (.inr rfl)) hprogress hmem,meanOrder,
    totalWeight,orderSum,hneighbours] at hmean
  simp [hweight,horder,center] at hmean

end MinimaxCode.DagreLayerGraph
