import MinimaxCode.DagreReversal

/-!
# What a directed multigraph holds

The tables of a graph in step hold edges with labels and nodes with labels. Each
operation is described by what the graph holds after it.
-/

namespace MinimaxCode.GraphLib
namespace Graph

open PyText OrderedDict

variable {N E : Type} {g t : Graph N E} {o e : Edge} {v w : PyStr} {l l' : Option E}

/-- The graph has an edge with a label. -/
def Has (g : Graph N E) (o : Edge) (l : Option E) : Prop :=
  lookup g.edgeObjs (key o) = some o ∧ lookup g.edgeLabels (key o) = some l

theorem Has.unique (h : g.Has o l) (h' : g.Has o l') : l = l' :=
  Option.some.inj (h.2.symm.trans h'.2)

theorem Has.same_key (h : g.Has o l) (h' : g.Has e l') (hk : key o = key e) : o = e := by
  have ho := h.1
  rw [hk,h'.1] at ho
  exact (Option.some.inj ho).symm

/-- The end points of an edge are free of the delimiter where all nodes are. -/
def TidyNodes (g : Graph N E) : Prop := ∀ v ∈ keys g.nodes, ch '\x01' ∉ v

namespace DiMulti

theorem has_edge (h : g.DiMulti) (ho : o ∈ g.edges) : ∃ l, g.Has o l := by
  have hlook := h.mem_edges.mp ho
  have hmem : key o ∈ keys g.edgeLabels := by
    rw [h.sound.linked.ids,← isSome_lookup_iff,hlook]
    rfl
  obtain ⟨l,hl⟩ := Option.isSome_iff_exists.mp (isSome_lookup_iff.mpr hmem)
  exact ⟨l,hlook,hl⟩

theorem mem_of_has (h : g.DiMulti) (ho : g.Has o l) : o ∈ g.edges := h.mem_edges.mpr ho.1

theorem edgeWithObj_of_has (h : g.DiMulti) (ho : g.Has o l) : g.edgeWithObj o = some l := by
  rw [edgeWithObj,h.directed]
  exact ho.2

theorem ends (h : g.DiMulti) (ho : g.Has o l) : o.v ∈ keys g.nodes ∧ o.w ∈ keys g.nodes :=
  h.sound.endpoints _ o ho.1

theorem tidy (h : g.DiMulti) (ht : g.TidyNodes) (ho : g.Has o l) : Tidy o :=
  ⟨ht _ (h.ends ho).1,ht _ (h.ends ho).2⟩

theorem has_of_lookup (h : g.DiMulti) {i : PyStr} (ho : lookup g.edgeObjs i = some o) :
    ∃ l, g.Has o l := h.has_edge (mem_edges_of_lookup ho)

theorem edgeMutWithObj_has (h : g.DiMulti) (f : E → E) (he : g.Has e l') :
    (g.edgeMutWithObj e f).Has o l ↔
      if o = e then l = l'.map f else g.Has o l := by
  have hid : edgeObjToId true e = key e := rfl
  rw [Has,Graph.edgeMutWithObj,lookup_adjust,h.directed,hid]
  by_cases hoe : o = e
  · subst hoe
    rw [if_pos rfl,if_pos rfl,he.2]
    constructor
    · exact fun hl => (Option.some.inj hl.2).symm
    · exact fun hl => ⟨he.1,by rw [hl]; rfl⟩
  · rw [if_neg hoe]
    by_cases hk : key e = key o
    · rw [if_pos hk]
      refine ⟨fun hl => absurd ?_ hoe,fun hl => absurd (hl.same_key he hk.symm) hoe⟩
      have hlook := he.1
      rw [hk,hl.1] at hlook
      exact Option.some.inj hlook
    · rw [if_neg hk]
      rfl

theorem removeEdgeWithObj_has (h : g.DiMulti) (he : g.Has e l') (hname : e.name = none) :
    (g.removeEdgeWithObj e).Has o l ↔ o ≠ e ∧ g.Has o l := by
  have hkey : bareKey e = key e := by rw [bareKey_eq,key_eq,hname]; rfl
  obtain ⟨-,hobjs,hlabels,-⟩ := h.removeEdgeWithObj e
  rw [Has,hobjs,hlabels,lookup_remove,lookup_remove,hkey]
  by_cases hk : key e = key o
  · rw [if_pos hk,if_pos hk]
    refine ⟨fun hl => ?_,fun hl => absurd (hl.2.same_key he hk.symm) hl.1⟩
    cases hl.1
  · rw [if_neg hk,if_neg hk]
    refine ⟨fun hl => ⟨?_,hl⟩,fun hl => hl.2⟩
    rintro rfl
    exact hk rfl

theorem setEdge_has (h : g.DiMulti) (x : E) {name : Option PyStr}
    (hnew : ∀ o l, g.Has o l → key o ≠ key ⟨v,w,name⟩) :
    (g.setEdge v w (some x) name).graph.Has o l ↔
      (o = ⟨v,w,name⟩ ∧ l = some x) ∨ g.Has o l := by
  obtain ⟨-,hobjs,hlabels⟩ := h.setEdge v w x name
  have hid : key ⟨v,w,name⟩ ∉ keys g.edgeObjs := by
    rw [← isSome_lookup_iff,Option.isSome_iff_exists]
    rintro ⟨o,ho⟩
    obtain ⟨l,hl⟩ := h.has_of_lookup ho
    exact hnew o l hl (h.own ho)
  rw [if_neg hid] at hobjs
  rw [Has,hobjs,hlabels,← assign_of_new hid,lookup_assign]
  by_cases hk : key ⟨v,w,name⟩ = key o
  · rw [if_pos hk,if_pos hk]
    constructor
    · exact fun hl => .inl ⟨(Option.some.inj hl.1).symm,(Option.some.inj hl.2).symm⟩
    · rintro (⟨rfl,rfl⟩ | hl)
      · exact ⟨rfl,rfl⟩
      · exact absurd hk.symm (hnew o l hl)
  · rw [if_neg hk,if_neg hk]
    refine ⟨.inr,fun hl => hl.resolve_left ?_⟩
    rintro ⟨rfl,-⟩
    exact hk rfl

theorem setNode_has (v : PyStr) (x : Option N) : (g.setNode v x).Has o l ↔ g.Has o l := by
  rw [Has,(edgeLabels_setNode g v x).1,(edgeLabels_setNode g v x).2.1]
  rfl

end DiMulti

theorem setEdge_nodes (hv : v ∈ keys g.nodes) (hw : w ∈ keys g.nodes) (x : Option E)
    (name : Option PyStr) : (g.setEdge v w x name).graph.nodes = g.nodes := by
  rcases g.setEdge_cases v w x name with ⟨-,heq⟩ | ⟨-,⟨-,-,heq,-⟩ | ⟨-,heq⟩⟩
  · rw [heq]
    cases x <;> rfl
  · rw [heq]
  · rw [heq,createEdge,setNode_none_of_mem hv,setNode_none_of_mem hw]
    rfl

theorem DiMulti.mem_successors (h : g.DiMulti) :
    w ∈ keys (table g.sucs v) ↔ ∃ o l, g.Has o l ∧ o.v = v ∧ o.w = w := by
  rw [← isSome_lookup_iff,h.sound.linked.sucs v w,entry]
  constructor
  · intro hsome
    have hpos : 0 < g.multiplicity v w := by
      by_contra hzero
      rw [if_pos (by omega)] at hsome
      cases hsome
    obtain ⟨⟨i,o⟩,hio,hvw⟩ := List.countP_pos_iff.mp hpos
    obtain ⟨l,hl⟩ := h.has_of_lookup (lookup_of_mem h.sound.linked.distinct hio)
    have hends : o.v = v ∧ o.w = w := by simpa using hvw
    exact ⟨o,l,hl,hends⟩
  · rintro ⟨o,l,hl,hv,hw⟩
    have hpos : 0 < g.multiplicity v w :=
      List.countP_pos_iff.mpr ⟨(key o,o),mem_of_lookup hl.1,by simp [hv,hw]⟩
    rw [if_neg (by omega)]
    rfl

/-- Some edges have gone, with their labels, in a graph of the same kind. -/
structure Trims (g t : Graph N E) : Prop where
  kind : SameKind g t
  subset : t.edgeObjs ⊆ g.edgeObjs
  labels : ∀ i, lookup t.edgeLabels i = none ∨ lookup t.edgeLabels i = lookup g.edgeLabels i
  edges : ∀ i, lookup t.edgeObjs i = none ∨
    lookup t.edgeObjs i = lookup g.edgeObjs i ∧ lookup t.edgeLabels i = lookup g.edgeLabels i

theorem trims_of_eq (hkind : SameKind g t) (hobjs : t.edgeObjs = g.edgeObjs)
    (hlabels : t.edgeLabels = g.edgeLabels) : g.Trims t :=
  ⟨hkind,by rw [hobjs]; exact List.Subset.refl _,fun i => .inr (by rw [hlabels]),
    fun i => .inr ⟨by rw [hobjs],by rw [hlabels]⟩⟩

theorem Trims.refl (g : Graph N E) : g.Trims g := trims_of_eq ⟨rfl,rfl,rfl⟩ rfl rfl

theorem Trims.trans {s : Graph N E} (h : g.Trims s) (h' : s.Trims t) : g.Trims t := by
  refine ⟨⟨h'.kind.1.trans h.kind.1,h'.kind.2.1.trans h.kind.2.1,h'.kind.2.2.trans h.kind.2.2⟩,
    fun _ ho => h.subset (h'.subset ho),fun i => ?_,fun i => ?_⟩
  · rcases h'.labels i with hnone | hlabel
    · exact .inl hnone
    · rw [hlabel]
      exact h.labels i
  rcases h'.edges i with hnone | ⟨hobj,hlabel⟩
  · exact .inl hnone
  · rcases h.edges i with hnone | ⟨hobj',hlabel'⟩
    · exact .inl (hobj.trans hnone)
    · exact .inr ⟨hobj.trans hobj',hlabel.trans hlabel'⟩

theorem trims_removeEdge (g : Graph N E) (v w : PyStr) (name : Option PyStr) :
    g.Trims (g.removeEdge v w name) := by
  rw [removeEdge]
  split
  · refine ⟨⟨rfl,rfl,rfl⟩,fun _ ho => List.mem_of_mem_filter ho,fun i => ?_,fun i => ?_⟩
    · rw [dropEdge,lookup_remove]
      split
      · exact .inl rfl
      · exact .inr rfl
    · rw [dropEdge,lookup_remove,lookup_remove]
      split
      · exact .inl rfl
      · exact .inr ⟨rfl,rfl⟩
  · exact .refl g

theorem trims_cascade (is : List PyStr) (g : Graph N E) : g.Trims (is.foldl cascade g) := by
  induction is generalizing g with
  | nil => exact .refl g
  | cons i is ih =>
    refine Trims.trans ?_ (ih (g.cascade i))
    rw [cascade]
    split
    · exact trims_removeEdge g _ _ _
    · exact .refl g

theorem trims_dropIns (g : Graph N E) (v : PyStr) : g.Trims (g.dropIns v) := by
  rw [dropIns]
  split
  · exact (trims_cascade _ g).trans (trims_of_eq ⟨rfl,rfl,rfl⟩ rfl rfl)
  · exact .refl g

theorem trims_dropOuts (g : Graph N E) (v : PyStr) : g.Trims (g.dropOuts v) := by
  rw [dropOuts]
  split
  · exact (trims_cascade _ g).trans (trims_of_eq ⟨rfl,rfl,rfl⟩ rfl rfl)
  · exact .refl g

theorem trims_removeFromParentsChildList (g : Graph N E) (v : PyStr) :
    g.Trims (g.removeFromParentsChildList v) := by
  rw [removeFromParentsChildList]
  split <;> exact trims_of_eq ⟨rfl,rfl,rfl⟩ rfl rfl

theorem trims_reparent (g : Graph N E) (v p : PyStr) : g.Trims (g.reparent v p) := by
  obtain ⟨hlabels,hobjs,-⟩ := edgeLabels_setNode g v none
  refine (trims_of_eq (sameKind_setNode g v none) hobjs hlabels).trans ?_
  exact (trims_removeFromParentsChildList _ v).trans (trims_of_eq ⟨rfl,rfl,rfl⟩ rfl rfl)

theorem trims_leaveForest (g : Graph N E) (v : PyStr) : g.Trims (g.leaveForest v) := by
  have hloop : ∀ (cs : List PyStr) (s : Graph N E),
      s.Trims (cs.foldl (fun s c => s.reparent c graphNode) s) := by
    intro cs
    induction cs with
    | nil => exact Trims.refl
    | cons c cs ih => exact fun s => (trims_reparent s c graphNode).trans (ih _)
  have hdetached : g.Trims {g.removeFromParentsChildList v with
      parent := remove (g.removeFromParentsChildList v).parent v} :=
    (trims_removeFromParentsChildList g v).trans (trims_of_eq ⟨rfl,rfl,rfl⟩ rfl rfl)
  exact hdetached.trans ((hloop _ _).trans (trims_of_eq ⟨rfl,rfl,rfl⟩ rfl rfl))

theorem trims_removeNode (g : Graph N E) (v : PyStr) : g.Trims (g.removeNode v) := by
  rw [removeNode]
  split
  · have hgone : g.Trims {g with nodes := remove g.nodes v} := trims_of_eq ⟨rfl,rfl,rfl⟩ rfl rfl
    have hforest : g.Trims (if g.isCompound then
        ({g with nodes := remove g.nodes v} : Graph N E).leaveForest v
        else {g with nodes := remove g.nodes v}) := by
      split
      · exact hgone.trans (trims_leaveForest _ v)
      · exact hgone
    have hpreds : ∀ s : Graph N E, s.Trims {s with preds := remove s.preds v} :=
      fun s => trims_of_eq ⟨rfl,rfl,rfl⟩ rfl rfl
    have hsucs : ∀ s : Graph N E,
        s.Trims {s with sucs := remove s.sucs v, nodeCount := s.nodeCount-1} :=
      fun s => trims_of_eq ⟨rfl,rfl,rfl⟩ rfl rfl
    exact (((hforest.trans (trims_dropIns _ v)).trans (hpreds _)).trans
      (trims_dropOuts _ v)).trans (hsucs _)
  · exact .refl g

theorem DiMulti.removeNode (h : g.DiMulti)
    (hn : ∀ o l, g.Has o l → (o.v = v ∨ o.w = v) → o.name = none) (hv : v ∈ keys g.nodes) :
    (g.removeNode v).DiMulti ∧ (g.removeNode v).nodes = remove g.nodes v ∧
      ∀ o l, (g.removeNode v).Has o l ↔ o.v ≠ v ∧ o.w ≠ v ∧ g.Has o l := by
  have hnameless : g.Nameless v := by
    intro o ho hat
    obtain ⟨l,hl⟩ := h.has_edge ho
    rw [edgeObjToId,hn o l hl hat]
  obtain ⟨P,C,g',heq,-,-,⟨hcomp,hnodes,-,-⟩,hobjs,-⟩ := h.sound.removeNode_eq hnameless hv
  have hnodes' : (g.removeNode v).nodes = remove g.nodes v := by rw [heq]; exact hnodes
  have hobjs' : ∀ i o, lookup (g.removeNode v).edgeObjs i = some o ↔
      o.v ≠ v ∧ o.w ≠ v ∧ lookup g.edgeObjs i = some o := by
    rw [heq]
    exact hobjs
  have hkind := (g.trims_removeNode v).kind
  refine ⟨⟨hkind.1.trans h.directed,hkind.2.1.trans h.multi,h.sound.removeNode hnameless⟩,hnodes',
    fun o l => ?_⟩
  rw [Has,hobjs',and_assoc,and_assoc]
  refine and_congr_right fun hov => and_congr_right fun how => and_congr_right fun ho => ?_
  rcases (g.trims_removeNode v).edges (key o) with hnone | ⟨-,hlabel⟩
  · cases hnone.symm.trans ((hobjs' (key o) o).mpr ⟨hov,how,ho⟩)
  · rw [hlabel]

end Graph
end MinimaxCode.GraphLib
