import MinimaxCode.GraphTables

/-!
# The subgraph of a filter

`filter_nodes` copies the accepted nodes, then the edges between them, and then hangs each
node of a compound graph below its nearest accepted ancestor. The edges are copied without
their names, so the copy is the induced subgraph only where no copied edge has a name.
-/

namespace MinimaxCode.GraphLib
namespace Graph

open PyText OrderedDict Forests

variable {N E : Type}

/-- The nearest accepted node above a node, where there is one. -/
inductive Nearest (g : Graph N E) (filter : PyStr → Bool) : PyStr → Option PyStr → Prop
  | root {v : PyStr} (h : g.parentOf v = none) : Nearest g filter v none
  | here {v p : PyStr} (h : g.parentOf v = some p) (hp : filter p = true) :
    Nearest g filter v (some p)
  | above {v p : PyStr} {o : Option PyStr} (h : g.parentOf v = some p) (hp : filter p = false)
    (ho : Nearest g filter p o) : Nearest g filter v o

/-- The accepted nodes with their labels, the edges between them with theirs, and the
parents that are left. -/
structure Induced (g : Graph N E) (filter : PyStr → Bool) (copy : Graph N E) : Prop where
  nodes : ∀ v, lookup copy.nodes v = if filter v then lookup g.nodes v else none
  edges : ∀ o, o ∈ copy.edges ↔ o ∈ g.edges ∧ filter o.v = true ∧ filter o.w = true
  labels : ∀ o ∈ copy.edges, copy.edgeWithObj o = g.edgeWithObj o
  parents : g.isCompound = true → ∀ v ∈ keys copy.nodes, Nearest g filter v (copy.parentOf v)

/-- A graph as the operations make it: the tables are in step, a label is only missing where
the graph has none to give, and a compound graph has its forest. -/
structure WellFormed (g : Graph N E) : Prop where
  sound : g.Sound
  distinct : (keys g.nodes).Nodup
  nodeLabels : ∀ v, lookup g.nodes v = some none → g.nodeDefault = none
  edgeLabels : ∀ e, lookup g.edgeLabels e = some none → g.edgeDefault = none
  forest : g.isCompound = true → g.Grown ∧ g.Forest

variable {g copy s t : Graph N E} {filter : PyStr → Bool} {v w p : PyStr} {o : Edge}
  {r : Option PyStr} {memo : List (PyStr × PyStr)}

/-- A copy in progress has the kind and the default labels of the graph. -/
def Blank (g copy : Graph N E) : Prop :=
  copy.isDirected = g.isDirected ∧ copy.isCompound = g.isCompound ∧
    (copy.defaultNodeLabelFn = .value none ∧ copy.defaultEdgeLabelFn = .value none) ∧
    copy.nodeDefault = g.nodeDefault ∧ copy.edgeDefault = g.edgeDefault

theorem foldl_copyNode (hlabels : ∀ kv ∈ g.nodes, kv.2 = none → g.nodeDefault = none)
    (hroot : g.isCompound = true → graphNode ∉ keys g.nodes) (kvs : List (PyStr × Option N))
    (hsub : ∀ kv ∈ kvs, kv ∈ g.nodes) (copy : Graph N E)
    (hdistinct : (keys copy.nodes++keys kvs).Nodup) (hblank : Blank g copy)
    (hforest : g.isCompound = true → copy.Grown ∧ copy.Forest)
    (hparent : ∀ v p, lookup copy.parent v = some p → p = graphNode) :
    let t := kvs.foldl (fun copy kv => copy.setNode kv.1 kv.2) copy
    t.nodes = copy.nodes++kvs ∧ Blank g t ∧ (g.isCompound = true → t.Grown ∧ t.Forest) ∧
      ∀ v p, lookup t.parent v = some p → p = graphNode := by
  induction kvs generalizing copy with
  | nil => exact ⟨(List.append_nil _).symm,hblank,hforest,hparent⟩
  | cons kv kvs ih =>
    have hmem : kv ∈ g.nodes := hsub kv List.mem_cons_self
    have hfresh : kv.1 ∉ keys copy.nodes := fun hin =>
      (List.nodup_append.mp hdistinct).2.2 kv.1 hin kv.1 List.mem_cons_self rfl
    have hlabel : kv.2.or (copy.defaultNodeLabel kv.1) = kv.2 := by
      obtain ⟨-,-,⟨hfn,-⟩,hdefault,-⟩ := hblank
      cases hkv : kv.2 with
      | some label => rfl
      | none => rw [defaultNodeLabel,hfn,hdefault,hlabels kv hmem hkv]; rfl
    have hset := setNode_of_new hfresh kv.2
    rw [hlabel] at hset
    have hnodes : (copy.setNode kv.1 kv.2).nodes = copy.nodes++[kv] := by
      rw [hset,createNode,assign_of_new hfresh]
    have hdistinct' : (keys (copy.setNode kv.1 kv.2).nodes++keys kvs).Nodup := by
      rw [hnodes,keys,List.map_append,List.append_assoc]
      exact hdistinct
    have hblank' : Blank g (copy.setNode kv.1 kv.2) := by
      rw [hset]
      exact hblank
    have hforest' : g.isCompound = true →
        (copy.setNode kv.1 kv.2).Grown ∧ (copy.setNode kv.1 kv.2).Forest := by
      intro hc
      obtain ⟨hg,hf⟩ := hforest hc
      exact hf.setNode hg (fun he => hroot hc (he ▸ List.mem_map_of_mem hmem)) kv.2
    have hparent' : ∀ v p, lookup (copy.setNode kv.1 kv.2).parent v = some p → p = graphNode := by
      intro v p hv
      rw [hset,createNode] at hv
      dsimp only at hv
      split at hv
      · rw [lookup_assign] at hv
        split at hv
        · exact (Option.some.inj hv).symm
        · exact hparent v p hv
      · exact hparent v p hv
    obtain ⟨hall,hrest⟩ := ih (fun kv' hkv' => hsub kv' (List.mem_cons_of_mem kv hkv')) _
      hdistinct' hblank' hforest' hparent'
    refine ⟨?_,hrest⟩
    rw [List.foldl_cons,hall,hnodes,List.append_assoc,List.singleton_append]

theorem copyNodes_nodes (h : g.WellFormed) (filter : PyStr → Bool) :
    (g.copyNodes filter).nodes = g.nodes.filter (fun kv => filter kv.1) ∧
      Blank g (g.copyNodes filter) ∧
      (g.isCompound = true → (g.copyNodes filter).Grown ∧ (g.copyNodes filter).Forest) ∧
      ∀ v p, lookup (g.copyNodes filter).parent v = some p → p = graphNode := by
  have hlabels : ∀ kv ∈ g.nodes, kv.2 = none → g.nodeDefault = none := by
    intro kv hkv hnone
    refine h.nodeLabels kv.1 (lookup_of_mem h.distinct ?_)
    rw [← hnone]
    exact hkv
  have hkeys : (keys (g.nodes.filter fun kv => filter kv.1)).Nodup :=
    h.distinct.sublist (List.filter_sublist.map Prod.fst)
  exact foldl_copyNode hlabels (fun hc => (h.forest hc).1.root) _
    (fun kv hkv => (List.mem_filter.mp hkv).1)
    (new ⟨some g.isDirected,some g.isMultigraph,some g.isCompound⟩ g.nodeDefault g.edgeDefault)
    hkeys ⟨rfl,rfl,⟨rfl,rfl⟩,rfl,rfl⟩ (fun hc => grown_new _ _ _ (congrArg some hc))
    fun v p hv => by cases hv

theorem foldl_copyEdge_names (es : List Edge) (copy : Graph N E)
    (h : ∀ o ∈ copy.edges, o.name = none) : ∀ o ∈ (es.foldl g.copyEdge copy).edges, o.name = none := by
  induction es generalizing copy with
  | nil => exact h
  | cons e es ih =>
    refine ih _ fun o ho => ?_
    rw [copyEdge] at ho
    split at ho
    · rw [setEdgeWithObj] at ho
      rcases copy.setEdge_cases e.v e.w (g.edgeWithObj e).join none with
        ⟨-,heq⟩ | ⟨-,⟨-,-,heq,-⟩ | ⟨-,heq⟩⟩
      · have hsame : ∀ (i : PyStr) (l : Option E), (copy.relabel i l).edges = copy.edges := by
          intro i l
          cases l <;> rfl
        rw [heq,hsame] at ho
        exact h o ho
      · rw [heq] at ho
        exact h o ho
      · rw [heq] at ho
        obtain ⟨io,hio,rfl⟩ := List.mem_map.mp ho
        rw [createEdge,linkEdge] at hio
        dsimp only at hio
        rcases mem_assign hio with rfl | hold
        · rfl
        · rw [(edgeLabels_setNode _ e.w none).2.1,(edgeLabels_setNode copy e.v none).2.1] at hold
          exact h io.2 (List.mem_map_of_mem hold)
    · exact h o ho

theorem Nearest.above_of (h : Nearest g filter v r) :
    ∀ p, r = some p → Relation.TransGen (Up g.parentOf) v p ∧ filter p = true := by
  induction h with
  | root h => exact fun p hp => by cases hp
  | here h hp => exact fun q hq => by cases hq; exact ⟨.single h,hp⟩
  | above h _ _ ih => exact fun q hq => ⟨.head h (ih q hq).1,(ih q hq).2⟩

theorem findParent_isSome {n : ℕ}
    (h : meets g.parentOf graphNode n v = some false) :
    (g.findParent copy n v memo).isSome := by
  induction n generalizing v with
  | zero => cases h
  | succ n ih =>
    rw [findParent]
    cases hv : g.parentOf v with
    | none => rfl
    | some p =>
      dsimp only
      split
      · rfl
      · cases lookup memo p with
        | some m => rfl
        | none =>
          have hne : p ≠ graphNode := by
            rintro rfl
            rw [meets_of_eq n hv] at h
            cases h
          rw [meets_of_ne n hv hne] at h
          exact ih h

theorem nearest_of_findParent {n : ℕ} {memo' : List (PyStr × PyStr)}
    (hmemo : ∀ k m, lookup memo k = some m → Nearest g filter k (some m))
    (hcopy : ∀ v p, g.parentOf v = some p → (p ∈ keys copy.nodes ↔ filter p = true))
    (h : g.findParent copy n v memo = some (r,memo')) :
    Nearest g filter v r ∧ ∀ k m, lookup memo' k = some m → Nearest g filter k (some m) := by
  induction n generalizing v with
  | zero => cases h
  | succ n ih =>
    rw [findParent] at h
    cases hv : g.parentOf v with
    | none =>
      rw [hv] at h
      cases h
      exact ⟨.root hv,hmemo⟩
    | some p =>
      rw [hv] at h
      dsimp only at h
      by_cases hp : p ∈ keys copy.nodes
      · rw [if_pos hp] at h
        cases h
        have hnear : Nearest g filter v (some p) := .here hv ((hcopy v p hv).mp hp)
        refine ⟨hnear,fun k m hk => ?_⟩
        rw [lookup_assign] at hk
        split at hk
        · next hvk =>
          cases hk
          exact hvk ▸ hnear
        · exact hmemo k m hk
      · rw [if_neg hp] at h
        have hrejected : filter p = false := by
          rw [Bool.eq_false_iff]
          exact fun hacc => hp ((hcopy v p hv).mpr hacc)
        cases hm : lookup memo p with
        | some m =>
          rw [hm] at h
          cases h
          exact ⟨.above hv hrejected (hmemo p m hm),hmemo⟩
        | none =>
          rw [hm] at h
          obtain ⟨hnear,hmemo'⟩ := ih h
          exact ⟨.above hv hrejected hnear,hmemo'⟩

theorem parentOf_iff (hc : g.isCompound = true) :
    g.parentOf v = some p ↔ lookup g.parent v = some p ∧ p ≠ graphNode := by
  rw [parentOf,if_pos hc,Option.filter_eq_some_iff,decide_eq_true_iff]

theorem reparent_eq (h : v ∈ keys g.nodes) : ∃ children,
    g.reparent v p = {g with parent := assign g.parent v p, children := children} := by
  obtain ⟨children,heq,-⟩ := g.attach_eq v p
  exact ⟨children,by rw [reparent,setNode_none_of_mem h,heq]⟩

/-- The copy while its nodes are hung up: what is above a node was above it before. -/
structure Threading (g copy : Graph N E) (filter : PyStr → Bool) : Prop where
  grown : copy.Grown
  forest : copy.Forest
  nodes : ∀ v, v ∈ keys copy.nodes ↔ v ∈ keys g.nodes ∧ filter v = true
  above : ∀ v p, copy.parentOf v = some p → Relation.TransGen (Up g.parentOf) v p

theorem Threading.setParent (h : Threading g copy filter) (hacyclic : Acyclic g.parentOf)
    (hv : v ∈ keys copy.nodes) (hr : Nearest g filter v r)
    (hmem : ∀ p, r = some p → p ∈ keys g.nodes) :
    ∃ parent children, copy.setParent v r =
        some ⟨none,{copy with parent := parent, children := children}⟩ ∧
      Threading g {copy with parent := parent, children := children} filter ∧
      ∀ x, ({copy with parent := parent, children := children} : Graph N E).parentOf x =
        if v = x then r else copy.parentOf x := by
  have hvroot : v ≠ graphNode := fun he => h.grown.root (he ▸ hv)
  have hp : ∀ p, r = some p → p ≠ graphNode ∧ p ≠ v := by
    intro p hrp
    obtain ⟨habove,hacc⟩ := hr.above_of p hrp
    refine ⟨?_,?_⟩
    · rintro rfl
      exact h.grown.root ((h.nodes graphNode).mpr ⟨hmem _ hrp,hacc⟩)
    · rintro rfl
      exact hacyclic p habove
  have hreparent : ∃ q, copy.setParent v r = some ⟨none,copy.reparent v q⟩ ∧
      (some q).filter (fun q => decide (q ≠ graphNode)) = r := by
    cases r with
    | none =>
      refine ⟨graphNode,setParent_none h.grown.compound v,?_⟩
      simp [Option.filter]
    | some p =>
      obtain ⟨o,ho⟩ := Option.isSome_iff_exists.mp (setParent_isSome h.grown h.forest v (some p))
      obtain ⟨habove,hacc⟩ := hr.above_of p rfl
      refine ⟨p,?_,by simp [Option.filter,(hp p rfl).1]⟩
      rcases setParent_cases ho with ⟨-,-,hw⟩ | ⟨hnone,-⟩ | ⟨q,hq,-,rfl⟩
      · -- a walk up in the copy is one up in the graph, and would close a cycle
        have hwalk := above_of_meets (hw p rfl h.grown.compound)
        have hup := Relation.TransGen.mono (fun x q hx => h.above x q hx) p v hwalk
        rw [Relation.transGen_eq_self] at hup
        exact absurd (habove.trans hup) (hacyclic v)
      · cases hnone
      · cases hq
        rw [ho,setNode_none_of_mem ((h.nodes p).mpr ⟨hmem p rfl,hacc⟩)]
  obtain ⟨q,hset,hq⟩ := hreparent
  obtain ⟨children,heq⟩ := reparent_eq (p := q) hv
  have hthread := h.forest.setParent h.grown hvroot hp hset
  rw [heq] at hset hthread
  have hparent : ∀ x, ({copy with parent := assign copy.parent v q, children := children} :
      Graph N E).parentOf x = if v = x then r else copy.parentOf x := by
    intro x
    rw [parentOf,if_pos hthread.1.compound,lookup_assign,parentOf,if_pos h.grown.compound]
    split
    · exact hq
    · rfl
  refine ⟨_,children,hset,⟨hthread.1,hthread.2,h.nodes,fun x p hx => ?_⟩,hparent⟩
  rw [hparent] at hx
  split at hx
  · next hvx => exact hvx ▸ (hr.above_of p hx).1
  · exact h.above x p hx

theorem threadParents_nearest (h : g.WellFormed) (hc : g.isCompound = true) (vs : List PyStr) {copy : Graph N E} (hthread : Threading g copy filter)
    (hvs : ∀ v ∈ vs, v ∈ keys copy.nodes)
    (hmemo : ∀ k m, lookup memo k = some m → Nearest g filter k (some m)) :
    ∃ parent children, g.threadParents vs memo copy =
        some ⟨none,{copy with parent := parent, children := children}⟩ ∧
      Threading g {copy with parent := parent, children := children} filter ∧
      ∀ x, (x ∈ vs → Nearest g filter x
          (({copy with parent := parent, children := children} : Graph N E).parentOf x)) ∧
        (x ∉ vs → ({copy with parent := parent, children := children} : Graph N E).parentOf x =
          copy.parentOf x) := by
  obtain ⟨hgrown,hforest⟩ := h.forest hc
  have hsub : ∀ x q, g.parentOf x = some q → lookup g.parent x = some q := fun x q hx =>
    ((parentOf_iff hc).mp hx).1
  have hacyclic : Acyclic g.parentOf := hforest.acyclic.mono hsub
  have hnode : ∀ x q, g.parentOf x = some q → q ∈ keys g.nodes := by
    intro x q hx
    obtain ⟨hlook,hne⟩ := (parentOf_iff hc).mp hx
    exact (hgrown.parents x q hlook).resolve_left hne
  induction vs generalizing memo copy with
  | nil => exact ⟨copy.parent,copy.children,rfl,hthread,by simp⟩
  | cons v vs ih =>
    have hcopy : ∀ x q, g.parentOf x = some q → (q ∈ keys copy.nodes ↔ filter q = true) := by
      intro x q hx
      rw [hthread.nodes]
      exact and_iff_right (hnode x q hx)
    -- the way up is as long as there are parents at most, and does not meet the root
    have hwalk : meets g.parentOf graphNode (g.parent.length+1) v = some false := by
      have hsome : (meets g.parentOf graphNode (g.parent.length+1) v).isSome := by
        have hlength : g.parent.length = (keys g.parent).length := (List.length_map _).symm
        rw [hlength]
        refine meets_isSome hacyclic (keys g.parent) v fun y _ hy => ?_
        obtain ⟨q,hq⟩ := Option.isSome_iff_exists.mp hy
        rw [← isSome_lookup_iff,hsub y q hq]
        rfl
      obtain ⟨b,hb⟩ := Option.isSome_iff_exists.mp hsome
      cases b with
      | false => exact hb
      | true =>
        obtain ⟨q,-,hq⟩ := Relation.TransGen.tail'_iff.mp (above_of_meets hb)
        exact absurd rfl ((parentOf_iff hc).mp hq).2
    obtain ⟨⟨r,memo'⟩,hfind⟩ := Option.isSome_iff_exists.mp
      (findParent_isSome hwalk)
    obtain ⟨hnear,hmemo'⟩ := nearest_of_findParent hmemo hcopy hfind
    have hmem : ∀ q, r = some q → q ∈ keys g.nodes := by
      intro q hq
      obtain ⟨y,-,hy⟩ := Relation.TransGen.tail'_iff.mp (hnear.above_of q hq).1
      exact hnode y q hy
    obtain ⟨parent,children,hset,hthread',hparent⟩ :=
      hthread.setParent hacyclic (hvs v List.mem_cons_self) hnear hmem
    obtain ⟨parent',children',hrest,hthread'',hall⟩ :=
      ih hthread' (fun x hx => hvs x (List.mem_cons_of_mem v hx)) hmemo'
    refine ⟨parent',children',?_,hthread'',fun x => ⟨fun hx => ?_,fun hx => ?_⟩⟩
    · rw [threadParents,hfind]
      dsimp only
      rw [hset]
      exact hrest
    · by_cases hin : x ∈ vs
      · exact (hall x).1 hin
      · obtain rfl := (List.mem_cons.mp hx).resolve_right hin
        rw [(hall x).2 hin,hparent,if_pos rfl]
        exact hnear
    · obtain ⟨hne,hin⟩ := not_or.mp (List.mem_cons.not.mp hx)
      rw [(hall x).2 hin,hparent,if_neg (Ne.symm hne)]

theorem copyEdges_induced (h : g.WellFormed)
    (hnames : ∀ o ∈ g.edges, filter o.v = true → filter o.w = true → o.name = none) :
    let copy := g.edges.foldl g.copyEdge (g.copyNodes filter)
    (∀ v, lookup copy.nodes v = if filter v then lookup g.nodes v else none) ∧
    (∀ o, o ∈ copy.edges ↔ o ∈ g.edges ∧ filter o.v = true ∧ filter o.w = true) ∧
    (∀ o ∈ copy.edges, copy.edgeWithObj o = g.edgeWithObj o) ∧
    (g.isCompound = true → Threading g copy filter) := by
  obtain ⟨hnodes,⟨hdir,-,⟨-,hfn⟩,-,hdefault⟩,hforest,hparent⟩ := copyNodes_nodes h filter
  obtain ⟨hs,hd,hnil,hmem⟩ := g.copyNodes_spec filter
  have hkept : ∀ o ∈ g.edges, (o.v ∈ keys (g.copyNodes filter).nodes ∧
      o.w ∈ keys (g.copyNodes filter).nodes) ↔ keptBy filter o = true := by
    intro o ho
    obtain ⟨hv,hw⟩ := h.sound.represents.endpoints o ho
    rw [hmem,hmem,keptBy,Bool.and_eq_true]
    simp [hv,hw]
  have hnames' : ∀ o ∈ g.edges, keptBy filter o = true → o.name = none := by
    intro o ho hk
    rw [keptBy,Bool.and_eq_true] at hk
    exact hnames o ho hk.1 hk.2
  obtain ⟨hobjs,⟨⟨hcomp,hn,hp,hch⟩,hdir',-⟩,-,hlabels⟩ :=
    foldl_copyEdge_edges h.sound g.edgeObjs [] rfl hnames' hs hd hkept hnil
  rw [List.nil_append] at hobjs
  change (g.edges.foldl g.copyEdge (g.copyNodes filter)).isCompound = _ at hcomp
  change (g.edges.foldl g.copyEdge (g.copyNodes filter)).nodes = _ at hn
  change (g.edges.foldl g.copyEdge (g.copyNodes filter)).parent = _ at hp
  change (g.edges.foldl g.copyEdge (g.copyNodes filter)).children = _ at hch
  change (g.edges.foldl g.copyEdge (g.copyNodes filter)).isDirected = _ at hdir'
  have hedges : ∀ o, o ∈ (g.edges.foldl g.copyEdge (g.copyNodes filter)).edges ↔
      o ∈ g.edges ∧ filter o.v = true ∧ filter o.w = true := by
    intro o
    have hlist : (g.edges.foldl g.copyEdge (g.copyNodes filter)).edges =
        g.edges.filter (keptBy filter) := by
      rw [edges,edges,hobjs,List.filter_map]
      rfl
    rw [hlist,List.mem_filter,keptBy,Bool.and_eq_true]
  refine ⟨fun v => ?_,hedges,fun o ho => ?_,fun hc => ?_⟩
  · rw [hn,hnodes]
    by_cases hv : filter v = true
    · rw [if_pos hv]
      exact lookup_filter fun kv _ hk => by rw [hk]; exact hv
    · rw [if_neg hv]
      refine lookup_eq_none fun hin => hv ?_
      obtain ⟨kv,hkv,rfl⟩ := List.mem_map.mp hin
      exact (List.mem_filter.mp hkv).2
  · obtain ⟨hog,hv,hw⟩ := (hedges o).mp ho
    have hlook := h.sound.linked.mem_edges.mp hog
    have hkeep : keptBy filter o = true := by rw [keptBy,hv,hw]; rfl
    have hlab := hlabels _ (mem_of_lookup hlook) hkeep
    have hid : edgeObjToId (g.edges.foldl g.copyEdge (g.copyNodes filter)).isDirected o =
        edgeObjToId g.isDirected o := by rw [hdir',hdir]
    obtain ⟨label,hlabel⟩ := Option.isSome_iff_exists.mp
      (isSome_lookup_iff.mpr (h.sound.linked.mem_labels.mpr (Option.isSome_of_eq_some hlook)))
    rw [edgeWithObj,hid]
    refine hlab.trans ?_
    rw [edgeWithObj,hlabel,defaultEdgeLabel,hfn,hdefault]
    cases label with
    | some l => rfl
    | none => rw [h.edgeLabels _ hlabel]; rfl
  · obtain ⟨hgrown,hf⟩ := hforest hc
    have hgrown' : (g.edges.foldl g.copyEdge (g.copyNodes filter)).Grown :=
      ⟨hcomp.trans hgrown.compound,by rw [hn,hp]; exact hgrown.covered,
        by rw [hn,hp]; exact hgrown.parents,by rw [hn]; exact hgrown.root⟩
    refine ⟨hgrown',⟨by rw [hp]; exact hf.acyclic,by rw [hn,hp]; exact hf.rooted,fun p c => ?_⟩,
      fun v => by rw [hn]; exact hmem v,fun v p hv => ?_⟩
    · rw [mem_childrenOf hgrown'.compound,hch,hp,← mem_childrenOf hgrown.compound]
      exact hf.children p c
    · obtain ⟨hlook,hne⟩ := (parentOf_iff hgrown'.compound).mp hv
      rw [hp] at hlook
      exact absurd (hparent v p hlook) hne

/-- The copy is the induced subgraph exactly when no edge that is copied has a name. -/
theorem filterNodes_induced_iff (h : g.WellFormed) (filter : PyStr → Bool) :
    (∃ copy, g.filterNodes filter = some ⟨none,copy⟩ ∧ Induced g filter copy) ↔
      ∀ o ∈ g.edges, filter o.v = true → filter o.w = true → o.name = none := by
  constructor
  · rintro ⟨copy,hcopy,hind⟩ o ho hv hw
    obtain ⟨hs,hd,hnil,-⟩ := g.copyNodes_spec filter
    have hnames : ∀ o ∈ (g.edges.foldl g.copyEdge (g.copyNodes filter)).edges, o.name = none :=
      foldl_copyEdge_names g.edges (g.copyNodes filter) fun o ho => by
        rw [edges,hnil] at ho
        cases ho
    have hmem := (hind.edges o).mpr ⟨ho,hv,hw⟩
    have hobjs : copy.edgeObjs = (g.edges.foldl g.copyEdge (g.copyNodes filter)).edgeObjs := by
      rw [filterNodes] at hcopy
      split at hcopy
      · exact (threadParents_spec g _ (h.sound.foldl_copyEdge g.edges (fun _ => id) hs hd) hcopy).2
      · cases hcopy
        rfl
    rw [edges,hobjs] at hmem
    exact hnames o hmem
  · intro hnames
    obtain ⟨hnodes,hedges,hlabels,hthread⟩ := copyEdges_induced h hnames
    rw [filterNodes]
    generalize g.edges.foldl g.copyEdge (g.copyNodes filter) = copy at hnodes hedges hlabels hthread
    by_cases hc : g.isCompound = true
    · rw [if_pos hc]
      have hmemo : ∀ k m, lookup ([] : List (PyStr × PyStr)) k = some m →
          Nearest g filter k (some m) := fun k m hk => by cases hk
      obtain ⟨parent,children,hrun,-,hnear⟩ := threadParents_nearest h hc (keys copy.nodes)
        (hthread hc) (fun _ => id) hmemo
      refine ⟨_,hrun,?_⟩
      exact ⟨hnodes,hedges,hlabels,fun _ v hv => (hnear v).1 hv⟩
    · rw [if_neg hc]
      exact ⟨copy,rfl,hnodes,hedges,hlabels,fun hc' => absurd hc' hc⟩

theorem resolve_eq_none {L : Type} {d : DefaultLabel L} {fallback : Option L} {id : PyStr}
    (h : d.resolve fallback id = none) : fallback = none := by
  cases d with
  | value l => exact (Option.or_eq_none_iff.mp h).2
  | factory f => exact (Option.or_eq_none_iff.mp h).2

namespace WellFormed

theorem new (opts : GraphOption) (nd : Option N) (ed : Option E) : (new opts nd ed).WellFormed where
  sound := sound_new opts nd ed
  distinct := List.nodup_nil
  nodeLabels := fun v hv => by cases hv
  edgeLabels := fun e he => by cases he
  forest := fun hc => by
    refine grown_new opts nd ed ?_
    obtain ⟨directed,multigraph,compound⟩ := opts
    cases compound with
    | none => cases hc
    | some c => exact congrArg some hc

theorem setNode (h : g.WellFormed) (hv : v ≠ graphNode) (value : Option N) :
    (g.setNode v value).WellFormed := by
  obtain ⟨hlabels,-,-,hdefault⟩ := edgeLabels_setNode g v value
  have hnode : (g.setNode v value).nodeDefault = g.nodeDefault := by
    by_cases hmem : v ∈ keys g.nodes
    · cases value with
      | none => rw [setNode_none_of_mem hmem]
      | some l => rw [Graph.setNode,if_pos hmem]
    · rw [setNode_of_new hmem]
      rfl
  refine ⟨h.sound.setNode v value,?_,fun x hx => ?_,fun e he => ?_,fun hc => ?_⟩
  · by_cases hmem : v ∈ keys g.nodes
    · rw [(setNode_of_mem hmem value).2.2.2]
      exact h.distinct
    · rw [setNode_of_new hmem]
      exact nodup_keys_assign h.distinct
  · rw [hnode]
    by_cases hmem : v ∈ keys g.nodes
    · cases value with
      | none =>
        rw [setNode_none_of_mem hmem] at hx
        exact h.nodeLabels x hx
      | some l =>
        rw [Graph.setNode,if_pos hmem] at hx
        dsimp only at hx
        rw [lookup_assign] at hx
        split at hx
        · cases hx
        · exact h.nodeLabels x hx
    · rw [setNode_of_new hmem,createNode] at hx
      dsimp only at hx
      rw [lookup_assign] at hx
      split at hx
      · exact resolve_eq_none (Option.or_eq_none_iff.mp (Option.some.inj hx)).2
      · exact h.nodeLabels x hx
  · rw [hlabels] at he
    rw [hdefault]
    exact h.edgeLabels e he
  · rw [isCompound_setNode] at hc
    obtain ⟨hg,hf⟩ := h.forest hc
    exact hf.setNode hg hv value

theorem setParent (h : g.WellFormed) (hv : v ≠ graphNode)
    {parent : Option PyStr} (hp : ∀ p, parent = some p → p ≠ graphNode ∧ p ≠ v) {o : Outcome N E}
    (ho : g.setParent v parent = some o) : o.graph.WellFormed := by
  have hattach : ∀ (t : Graph N E) (q : PyStr), t.WellFormed → (t.reparent v q).Sound →
      (t.isCompound = true → (t.reparent v q).Grown ∧ (t.reparent v q).Forest) →
      (t.reparent v q).WellFormed := by
    intro t q ht hs hforest
    have hset := ht.setNode hv none
    have hkind : (t.setNode v none).isCompound = t.isCompound := isCompound_setNode none
    obtain ⟨children,heq,-⟩ := (t.setNode v none).attach_eq v q
    rw [reparent,heq] at hs hforest ⊢
    exact ⟨hs,hset.distinct,hset.nodeLabels,hset.edgeLabels,fun hc => hforest (hkind ▸ hc)⟩
  have hsound := h.sound.setParent ho
  have hforest : g.isCompound = true → o.graph.Grown ∧ o.graph.Forest :=
    fun hc => (h.forest hc).2.setParent (h.forest hc).1 hv hp ho
  rcases setParent_cases ho with ⟨-,hgraph,-⟩ | ⟨rfl,rfl⟩ | ⟨p,hpar,hw,rfl⟩
  · rw [hgraph]
    exact h
  · exact hattach g graphNode h hsound hforest
  · refine hattach (g.setNode p none) p (h.setNode (hp p hpar).1 none) hsound fun hc => hforest ?_
    rwa [isCompound_setNode] at hc

theorem linkEdge (h : g.WellFormed) (label : Option E) (name : Option PyStr)
    (hs : (g.linkEdge v w label name).Sound) : (g.linkEdge v w label name).WellFormed := by
  refine ⟨hs,h.distinct,h.nodeLabels,fun e he => ?_,fun hc => ?_⟩
  · rw [Graph.linkEdge] at he
    dsimp only at he
    rw [lookup_assign] at he
    split at he
    · exact resolve_eq_none (Option.or_eq_none_iff.mp (Option.some.inj he)).2
    · exact h.edgeLabels e he
  · obtain ⟨hg,hf⟩ := h.forest hc
    exact ⟨⟨hg.compound,hg.covered,hg.parents,hg.root⟩,⟨hf.acyclic,hf.rooted,hf.children⟩⟩

theorem setEdge (h : g.WellFormed) (label : Option E) {name : Option PyStr}
    (hk : g.KeepsOrder v w name) (hv : v ≠ graphNode) (hw : w ≠ graphNode) :
    (g.setEdge v w label name).graph.WellFormed := by
  have hs := h.sound.setEdge label hk
  rcases g.setEdge_cases v w label name with ⟨he,heq⟩ | ⟨he,⟨-,-,heq,-⟩ | ⟨-,heq⟩⟩
  · rw [heq] at hs ⊢
    cases label with
    | none => exact h
    | some l =>
      refine ⟨hs,h.distinct,h.nodeLabels,fun i hi => ?_,fun hc => ?_⟩
      · rw [relabel] at hi
        dsimp only at hi
        rw [lookup_assign] at hi
        split at hi
        · cases hi
        · exact h.edgeLabels i hi
      · obtain ⟨hg,hf⟩ := h.forest hc
        exact ⟨⟨hg.compound,hg.covered,hg.parents,hg.root⟩,⟨hf.acyclic,hf.rooted,hf.children⟩⟩
  · rw [heq]
    exact h
  · rw [heq] at hs ⊢
    exact ((h.setNode hv none).setNode hw none).linkEdge label name hs

end WellFormed

/-- The operations that build a graph: no node has the id of the root or is its own parent,
and an undirected edge is made in its stored order. -/
def Builds (g : Graph N E) : Op N E → Prop
  | .setNode v _ => v ≠ graphNode
  | .setParent v parent => v ≠ graphNode ∧ ∀ p, parent = some p → p ≠ graphNode ∧ p ≠ v
  | .setEdge v w _ name => g.KeepsOrder v w name ∧ v ≠ graphNode ∧ w ≠ graphNode
  | _ => False

theorem wellFormed_of_builds (opts : GraphOption) (nd : Option N) (ed : Option E)
    {ops : List (Op N E)} (h : Runs.Run graphStep Builds (Graph.new opts nd ed) ops t) :
    t.WellFormed := by
  refine h.invariant (fun s op t hb hst hs => ?_) (.new opts nd ed)
  obtain ⟨o,ho,rfl⟩ := Option.map_eq_some_iff.mp hst
  cases op with
  | setNode v value => cases ho; exact hs.setNode hb value
  | setParent v parent => exact hs.setParent hb.1 hb.2 ho
  | setEdge v w label name => cases ho; exact hs.setEdge label hb.1 hb.2.1 hb.2.2
  | _ => exact hb.elim

/-- An empty compound graph that takes parallel edges. -/
def emptyNest : Graph ℕ ℕ := Graph.new ⟨none,some true,some true⟩ none none

/-- A node in a group in a group, and an edge to a node outside. -/
def nest : List (Op ℕ ℕ) := [.setNode [ch 'a'] (some 1),.setParent [ch 'a'] (some [ch 'g']),
  .setParent [ch 'g'] (some [ch 'h']),.setEdge [ch 'a'] [ch 'b'] (some 7) none]

/-- Without the inner group the node is in the outer one. -/
theorem induced_nest : ∃ copy, (Runs.last graphStep emptyNest nest).filterNodes
      (fun v => decide (v ≠ [ch 'g'])) = some ⟨none,copy⟩ ∧
    Induced (Runs.last graphStep emptyNest nest) (fun v => decide (v ≠ [ch 'g'])) copy := by
  have hrun : Runs.Run graphStep Builds emptyNest nest (Runs.last graphStep emptyNest nest) := by
    refine .succ ?_ rfl (.succ ?_ rfl (.succ ?_ rfl (.succ ?_ rfl (.refl _))))
    · show [ch 'a'] ≠ graphNode
      decide
    · exact ⟨by decide,fun p hp => by cases hp; decide⟩
    · exact ⟨by decide,fun p hp => by cases hp; decide⟩
    · exact ⟨fun hs => (by cases hs),by decide,by decide⟩
  refine (filterNodes_induced_iff (wellFormed_of_builds _ none none hrun) _).mpr ?_
  decide

/-- Two edges of different names. -/
def parallel : List (Op ℕ ℕ) := [.setEdge [ch 'a'] [ch 'b'] (some 1) (some [ch 'x']),
  .setEdge [ch 'a'] [ch 'b'] (some 2) (some [ch 'y'])]

/-- The copy of all the nodes has one edge without a name in their place. -/
theorem parallel_not_induced : (Runs.last graphStep emptyNest parallel).WellFormed ∧
    ((Runs.last graphStep emptyNest parallel).filterNodes fun _ => true).map (·.graph.edges) =
      some [⟨[ch 'a'],[ch 'b'],none⟩] ∧
    ¬ ∃ copy, (Runs.last graphStep emptyNest parallel).filterNodes (fun _ => true) =
      some ⟨none,copy⟩ ∧ Induced (Runs.last graphStep emptyNest parallel) (fun _ => true) copy := by
  have hrun : Runs.Run graphStep Builds emptyNest parallel
      (Runs.last graphStep emptyNest parallel) := by
    refine .succ ?_ rfl (.succ ?_ rfl (.refl _))
    · exact ⟨fun hs => (by cases hs),by decide,by decide⟩
    · exact ⟨fun hs => (by cases hs),by decide,by decide⟩
  have hedges : ((Runs.last graphStep emptyNest parallel).filterNodes fun _ => true).map
      (·.graph.edges) = some [⟨[ch 'a'],[ch 'b'],none⟩] := by rfl
  refine ⟨wellFormed_of_builds _ none none hrun,hedges,?_⟩
  rintro ⟨copy,hcopy,hind⟩
  rw [hcopy] at hedges
  have hmem := (hind.edges ⟨[ch 'a'],[ch 'b'],some [ch 'x']⟩).mpr (by decide)
  rw [show copy.edges = [⟨[ch 'a'],[ch 'b'],none⟩] from Option.some.inj hedges] at hmem
  revert hmem
  decide

end Graph
end MinimaxCode.GraphLib
