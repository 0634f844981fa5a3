import MinimaxCode.GraphTables
import MinimaxCode.DepthFirst
import MinimaxCode.JsonText
import Mathlib.Data.List.Perm.Basic

/-!
# Cycle removal in the layout

The layout turns the back edges of a depth-first search round, ranks a copy of the graph
without its groups, takes the labels over from the copy, and turns the edges back at the
end. The copy is made edge object by edge object, so it has one edge for each pair of
nodes, and the edges turned round are told from others only by their names.
-/

namespace MinimaxCode.GraphLib
namespace Graph

open PyText OrderedDict

variable {N D P : Type}

/-- An edge label: the fields that tell of a reversal, the points, and the rest. -/
structure GraphEdge (D P : Type) where
  data : D
  forwardName : Option PyStr
  reversed : Option Bool
  points : Option (List P)

/-- `out_edges(v, None) or []`. -/
def outEdges {E : Type} (g : Graph N E) (v : PyStr) : List Edge := (table g.outs v).map Prod.snd

theorem Linked.mem_outEdges {E : Type} {g : Graph N E} {v : PyStr} {o : Edge} (h : g.Linked) :
    o ∈ g.outEdges v ↔ o ∈ g.edges ∧ o.v = v := by
  rw [h.mem_edges]
  constructor
  · intro ho
    obtain ⟨⟨i,o⟩,hio,rfl⟩ := List.mem_map.mp ho
    have hlook := lookup_of_mem (h.outKeys v) hio
    rw [h.outs v i,Option.filter_eq_some_iff] at hlook
    exact ⟨by rw [h.own i o hlook.1]; exact hlook.1,of_decide_eq_true hlook.2⟩
  · rintro ⟨ho,rfl⟩
    have hlook : lookup (table g.outs o.v) (edgeObjToId g.isDirected o) = some o := by
      rw [h.outs o.v (edgeObjToId g.isDirected o),ho]
      simp [Option.filter]
    exact List.mem_map_of_mem (mem_of_lookup hlook)

theorem Linked.edges_nodup {E : Type} {g : Graph N E} (h : g.Linked) : g.edges.Nodup := by
  refine List.Nodup.of_map (edgeObjToId g.isDirected) ?_
  have hkeys : g.edges.map (edgeObjToId g.isDirected) = keys g.edgeObjs := by
    rw [edges,keys,List.map_map]
    exact List.map_congr_left fun eo heo => h.own _ _ (lookup_of_mem h.distinct heo)
  rw [hkeys]
  exact h.distinct

theorem Linked.outEdges_nodup {E : Type} {g : Graph N E} (h : g.Linked) (v : PyStr) :
    (g.outEdges v).Nodup := by
  refine List.Nodup.of_map (edgeObjToId g.isDirected) ?_
  have hkeys : (g.outEdges v).map (edgeObjToId g.isDirected) = keys (table g.outs v) := by
    rw [outEdges,keys,List.map_map]
    refine List.map_congr_left fun io hio => ?_
    have hlook := lookup_of_mem (h.outKeys v) (k := io.1) (v := io.2) hio
    rw [h.outs v io.1,Option.filter_eq_some_iff] at hlook
    exact h.own _ _ hlook.1
  rw [hkeys]
  exact h.outKeys v

def dfsFas {E : Type} (g : Graph N E) : List Edge :=
  DepthFirst.search g.outEdges Edge.w (keys g.nodes)

def revName (n : ℕ) : PyStr := lit "rev"++PyJson.natText n

/-- One round of the loop of `acyclic.run`; the number is the next one of `unique_id`. -/
def reverseEdge (s : Graph N (GraphEdge D P) × ℕ) (edge : Edge) :
    Graph N (GraphEdge D P) × ℕ :=
  match (s.1.edgeWithObj edge).join with
  | none => s
  | some label =>
    (((s.1.removeEdgeWithObj edge).setEdge edge.w edge.v
      (some {label with forwardName := edge.name, reversed := some true})
      (some (revName s.2))).graph,s.2+1)

/-- The edges that `acyclic.run` turns round; the greedy way of choosing them chooses none. -/
def feedback (acyclicer : Option PyStr) (g : Graph N (GraphEdge D P)) : List Edge :=
  if acyclicer = some (lit "greedy") then [] else g.dfsFas

def run (acyclicer : Option PyStr) (g : Graph N (GraphEdge D P)) (uid : ℕ) :
    Graph N (GraphEdge D P) :=
  ((g.feedback acyclicer).foldl reverseEdge (g,uid)).1

/-- The loop over the edges of `as_non_compound_graph` and `transfer_node_edge_labels`. -/
def copyEdges (source destination : Graph N (GraphEdge D P)) : Graph N (GraphEdge D P) :=
  source.edges.foldl (fun d e => (d.setEdgeWithObj e (source.edgeWithObj e).join).graph) destination

/-- The loop of the two over the nodes without children; `blank` is `GraphNode()`. -/
def copyLeaves (blank : N) (source destination : Graph N (GraphEdge D P)) :
    Graph N (GraphEdge D P) :=
  (source.nodes.filter fun kv => (source.childrenOf kv.1).isEmpty).foldl
    (fun d kv => d.setNode kv.1 (some (kv.2.getD blank))) destination

def asNonCompoundGraph (blank : N) (g : Graph N (GraphEdge D P)) : Graph N (GraphEdge D P) :=
  g.copyEdges (g.copyLeaves blank (new ⟨some true,some true,some false⟩ none none))

def transferNodeEdgeLabels (blank : N) (source destination : Graph N (GraphEdge D P)) :
    Graph N (GraphEdge D P) :=
  source.copyEdges (source.copyLeaves blank destination)

/-- Ranking writes to the labels of the nodes. -/
def rankNodes (ranks : PyStr → Option N → Option N) (g : Graph N (GraphEdge D P)) :
    Graph N (GraphEdge D P) :=
  {g with nodes := g.nodes.map fun kv => (kv.1,ranks kv.1 kv.2)}

/-- The ranking phases behind cycle removal. -/
def ranked (blank : N) (ranks : PyStr → Option N → Option N) (g : Graph N (GraphEdge D P)) :
    Graph N (GraphEdge D P) :=
  transferNodeEdgeLabels blank ((g.asNonCompoundGraph blank).rankNodes ranks) g

/-- The positions phases give every edge its points. -/
def routeEdges (paths : Edge → List P) (g : Graph N (GraphEdge D P)) : Graph N (GraphEdge D P) :=
  g.edges.foldl
    (fun g e => g.edgeMutWithObj e fun label => {label with points := some (paths e)}) g

def flipPoints (label : GraphEdge D P) : GraphEdge D P :=
  if label.reversed = some true then {label with points := label.points.map List.reverse} else label

def reversePointsForReversedEdges (g : Graph N (GraphEdge D P)) : Graph N (GraphEdge D P) :=
  g.edges.foldl (fun g e => g.edgeMutWithObj e flipPoints) g

/-- One round of the loop of `acyclic.undo`. -/
def restoreEdge (g : Graph N (GraphEdge D P)) (e : Edge) : Graph N (GraphEdge D P) :=
  match (g.edgeWithObj e).join with
  | none => g
  | some edge =>
    if edge.reversed = some true then
      (g.setEdge e.w e.v (some {edge with reversed := none, forwardName := none})
        edge.forwardName).graph
    else g

/-- `acyclic.undo`; the edge turned round stays. -/
def undo (g : Graph N (GraphEdge D P)) : Graph N (GraphEdge D P) := g.edges.foldl restoreEdge g

/-- The phases of the layout that matter to the edges and their labels. -/
def laidOut (acyclicer : Option PyStr) (blank : N) (ranks : PyStr → Option N → Option N)
    (paths : Edge → List P) (g : Graph N (GraphEdge D P)) (uid : ℕ) : Graph N (GraphEdge D P) :=
  (((g.run acyclicer uid).ranked blank ranks).routeEdges paths).reversePointsForReversedEdges.undo

section Multigraphs

variable {E : Type} {g t : Graph N E} {e o : Edge} {v w : PyStr}

/-- A directed multigraph whose tables are in step. -/
structure DiMulti (g : Graph N E) : Prop where
  directed : g.isDirected = true
  multi : g.isMultigraph = true
  sound : g.Sound

/-- The id of an edge, and the id that it has without its name. -/
def key (e : Edge) : PyStr := edgeObjToId true e

def bareKey (e : Edge) : PyStr := edgeArgsToId true e.v e.w none

theorem key_eq (e : Edge) :
    key e = e.v++ch '\x01'::(e.w++ch '\x01'::e.name.getD defaultEdgeName) := by
  simp [key,edgeObjToId,edgeArgsToId,swapped,edgeKeyDelim]

theorem bareKey_eq (e : Edge) :
    bareKey e = e.v++ch '\x01'::(e.w++ch '\x01'::defaultEdgeName) := by
  simp [bareKey,edgeArgsToId,swapped,edgeKeyDelim]

/-- No end point contains the delimiter of the ids. -/
def Tidy (e : Edge) : Prop := ch '\x01' ∉ e.v ∧ ch '\x01' ∉ e.w

theorem cut_inj {c : PyChar} {s s' r r' : PyStr} (hs : c ∉ s) (hs' : c ∉ s')
    (h : s++c::r = s'++c::r') : s = s' ∧ r = r' := by
  induction s generalizing s' with
  | nil =>
    cases s' with
    | nil => exact ⟨rfl,(List.cons.inj h).2⟩
    | cons d s' => exact absurd ((List.cons.inj h).1 ▸ List.mem_cons_self) hs'
  | cons d s ih =>
    cases s' with
    | nil => exact absurd ((List.cons.inj h).1 ▸ List.mem_cons_self) hs
    | cons d' s' =>
      obtain ⟨hd,hrest⟩ := List.cons.inj h
      obtain ⟨hs₁,hr⟩ := ih (fun hm => hs (List.mem_cons_of_mem d hm))
        (fun hm => hs' (List.mem_cons_of_mem d' hm)) hrest
      exact ⟨by rw [hd,hs₁],hr⟩

theorem split_key {e o : Edge} {x y : PyStr} (he : Tidy e) (ho : Tidy o)
    (h : e.v++ch '\x01'::(e.w++ch '\x01'::x) = o.v++ch '\x01'::(o.w++ch '\x01'::y)) :
    e.v = o.v ∧ e.w = o.w ∧ x = y := by
  obtain ⟨hv,hrest⟩ := cut_inj he.1 ho.1 h
  obtain ⟨hw,hx⟩ := cut_inj he.2 ho.2 hrest
  exact ⟨hv,hw,hx⟩

theorem edgeArgsToId_true (v w : PyStr) (name : Option PyStr) :
    edgeArgsToId true v w name = key ⟨v,w,name⟩ := rfl

theorem edgeArgsToObj_true (v w : PyStr) (name : Option PyStr) :
    edgeArgsToObj true v w name = ⟨v,w,name⟩ := edgeArgsToObj_of_stored rfl name

theorem mem_edges_of_lookup {i : PyStr} (ho : lookup g.edgeObjs i = some o) : o ∈ g.edges :=
  List.mem_map_of_mem (mem_of_lookup ho)

namespace DiMulti

theorem mem_edges (h : g.DiMulti) : o ∈ g.edges ↔ lookup g.edgeObjs (key o) = some o := by
  rw [h.sound.linked.mem_edges,h.directed]
  rfl

theorem own (h : g.DiMulti) {i : PyStr} (ho : lookup g.edgeObjs i = some o) : key o = i := by
  have hown := h.sound.linked.own i o ho
  rwa [h.directed] at hown

theorem edges_nodup (h : g.DiMulti) : g.edges.Nodup := h.sound.linked.edges_nodup

theorem setEdge (h : g.DiMulti) (v w : PyStr) (l : E) (name : Option PyStr) :
    (g.setEdge v w (some l) name).graph.DiMulti ∧
    (g.setEdge v w (some l) name).graph.edgeObjs =
      (if key ⟨v,w,name⟩ ∈ keys g.edgeObjs then g.edgeObjs
        else g.edgeObjs++[(key ⟨v,w,name⟩,⟨v,w,name⟩)]) ∧
    ∀ i, lookup (g.setEdge v w (some l) name).graph.edgeLabels i =
      if key ⟨v,w,name⟩ = i then some (some l) else lookup g.edgeLabels i := by
  have hkind := g.sameKind_setEdge v w (some l) name
  have hkeeps : g.KeepsOrder v w name := by
    intro hs
    rw [h.directed] at hs
    cases hs
  refine ⟨⟨hkind.1.trans h.directed,hkind.2.1.trans h.multi,h.sound.setEdge (some l) hkeeps⟩,?_⟩
  rcases g.setEdge_cases v w (some l) name with ⟨hmem,heq⟩ | ⟨hmem,⟨-,hm,-⟩ | ⟨-,heq⟩⟩
  · rw [h.directed,edgeArgsToId_true] at hmem heq
    rw [heq,if_pos (h.sound.linked.ids ▸ hmem)]
    exact ⟨rfl,fun i => lookup_assign _ _ _ _⟩
  · rw [h.multi] at hm
    cases hm
  · rw [h.directed,edgeArgsToId_true] at hmem
    have hdir : ((g.setNode v none).setNode w none).isDirected = true :=
      ((sameKind_setNode _ w none).1.trans (sameKind_setNode g v none).1).trans h.directed
    obtain ⟨hlabels₁,hobjs₁,-⟩ := edgeLabels_setNode g v none
    obtain ⟨hlabels₂,hobjs₂,-⟩ := edgeLabels_setNode (g.setNode v none) w none
    have hnew : key ⟨v,w,name⟩ ∉ keys g.edgeObjs := h.sound.linked.ids ▸ hmem
    rw [heq,if_neg hnew,createEdge,linkEdge]
    dsimp only
    rw [hdir,edgeArgsToId_true,edgeArgsToObj_true,hobjs₂,hobjs₁,hlabels₂,hlabels₁,
      assign_of_new hnew]
    exact ⟨rfl,fun i => lookup_assign _ _ _ _⟩

theorem removeEdgeWithObj (h : g.DiMulti) (e : Edge) :
    (g.removeEdgeWithObj e).DiMulti ∧
    (g.removeEdgeWithObj e).edgeObjs = remove g.edgeObjs (bareKey e) ∧
    (g.removeEdgeWithObj e).edgeLabels = remove g.edgeLabels (bareKey e) ∧
    (g.removeEdgeWithObj e).nodes = g.nodes := by
  have hsound := h.sound.removeEdge e.v e.w none
  rw [Graph.removeEdgeWithObj,Graph.removeEdge,h.directed] at *
  cases hl : lookup g.edgeObjs (edgeArgsToId true e.v e.w none) with
  | none =>
    have hnot : bareKey e ∉ keys g.edgeObjs := by
      rw [← isSome_lookup_iff,bareKey,hl]
      exact Bool.false_ne_true
    have hnot' : bareKey e ∉ keys g.edgeLabels := by rwa [h.sound.linked.ids]
    exact ⟨h,(remove_of_not_mem hnot).symm,(remove_of_not_mem hnot').symm,rfl⟩
  | some o =>
    exact ⟨⟨h.directed,h.multi,h.sound.dropEdge hl⟩,rfl,rfl,rfl⟩

theorem edgeMutWithObj (h : g.DiMulti) (e : Edge) (f : E → E) : (g.edgeMutWithObj e f).DiMulti :=
  ⟨h.directed,h.multi,h.sound.withLabels (keys_adjust _ _ _)⟩

end DiMulti

end Multigraphs

section Turning

variable {g t : Graph N (GraphEdge D P)} {s : Graph N (GraphEdge D P) × ℕ} {e f o : Edge}
variable {l : GraphEdge D P} {n m : ℕ}

/-- The edge that takes the place of one that is turned round, and its label. -/
def revOf (n : ℕ) (f : Edge) : Edge := ⟨f.w,f.v,some (revName n)⟩

def turned (f : Edge) (l : GraphEdge D P) : GraphEdge D P :=
  {l with forwardName := f.name, reversed := some true}

theorem revName_inj (h : revName n = revName m) : n = m := by
  have hn := List.append_cancel_left h
  rw [← PyJson.natOf_natText n,hn,PyJson.natOf_natText]

theorem revName_ne (n : ℕ) : revName n ≠ defaultEdgeName := by
  intro h
  have hhead := congrArg List.head? h
  have hr : (revName n).head? = some (ch 'r') := by rfl
  rw [hr] at hhead
  exact absurd hhead (by decide)

/-- The state in the loop of `acyclic.run`: the names still to come are not in use. -/
structure Turning (g : Graph N (GraphEdge D P)) (n : ℕ) : Prop where
  multi : g.DiMulti
  tidy : ∀ o ∈ g.edges, Tidy o
  fresh : ∀ o ∈ g.edges, ∀ m, n ≤ m → o.name ≠ some (revName m)

theorem edgeWithObj_eq (h : g.DiMulti) (e : Edge) : g.edgeWithObj e = lookup g.edgeLabels (key e) := by
  rw [edgeWithObj,h.directed]
  rfl

theorem eq_revOf_of_key (ho : Tidy o) (hf : Tidy f) (h : key o = key (revOf n f)) :
    o = revOf n f := by
  rw [key_eq,key_eq] at h
  obtain ⟨hv,hw,hname⟩ := split_key ho (o := revOf n f) ⟨hf.2,hf.1⟩ h
  have hsome : o.name = some (revName n) := by
    cases hn : o.name with
    | none =>
      rw [hn] at hname
      exact absurd hname.symm (revName_ne n)
    | some x =>
      rw [hn] at hname
      exact congrArg some hname
  obtain ⟨v,w,name⟩ := o
  dsimp only at hv hw hsome
  rw [hv,hw,hsome]
  rfl

theorem Turning.key_ne (h : Turning g n) (hf : Tidy f) (hnm : n ≤ m) (ho : o ∈ g.edges) :
    key o ≠ key (revOf m f) := by
  intro hkey
  have heq := eq_revOf_of_key (h.tidy o ho) hf hkey
  exact h.fresh o ho m hnm (by rw [heq]; rfl)

/-- What a round of the loop does. -/
theorem Turning.step (h : Turning s.1 s.2) (hf : Tidy f) :
    ((s.1.edgeWithObj f).join = none ∧ reverseEdge s f = s) ∨
    ∃ l, (s.1.edgeWithObj f).join = some l ∧ (reverseEdge s f).2 = s.2+1 ∧
      Turning (reverseEdge s f).1 (s.2+1) ∧
      (reverseEdge s f).1.edgeObjs =
        remove s.1.edgeObjs (bareKey f)++[(key (revOf s.2 f),revOf s.2 f)] ∧
      ∀ i, lookup (reverseEdge s f).1.edgeLabels i =
        if key (revOf s.2 f) = i then some (some (turned f l))
        else if bareKey f = i then none else lookup s.1.edgeLabels i := by
  cases hl : (s.1.edgeWithObj f).join with
  | none => exact .inl ⟨rfl,by rw [reverseEdge,hl]⟩
  | some l =>
    right
    obtain ⟨hm,hobjs,hlabels,-⟩ := h.multi.removeEdgeWithObj f
    obtain ⟨hm',hobjs',hlabels'⟩ := hm.setEdge f.w f.v (turned f l) (some (revName s.2))
    have hstep : reverseEdge s f = (((s.1.removeEdgeWithObj f).setEdge f.w f.v (some (turned f l))
        (some (revName s.2))).graph,s.2+1) := by
      rw [reverseEdge,hl]
      rfl
    have hsub : ∀ o ∈ (s.1.removeEdgeWithObj f).edges, o ∈ s.1.edges := by
      intro o ho
      rw [edges,hobjs] at ho
      exact (List.filter_sublist.map Prod.snd).subset ho
    have hnew : key ⟨f.w,f.v,some (revName s.2)⟩ ∉ keys (s.1.removeEdgeWithObj f).edgeObjs := by
      rw [← isSome_lookup_iff,Option.isSome_iff_exists]
      rintro ⟨o,ho⟩
      exact h.key_ne hf (Nat.le_refl _) (hsub o (mem_edges_of_lookup ho)) (hm.own ho)
    rw [if_neg hnew] at hobjs'
    have hedges : ∀ o ∈ (reverseEdge s f).1.edges, o ∈ s.1.edges ∨ o = revOf s.2 f := by
      intro o ho
      rw [hstep,edges,hobjs',List.map_append,List.mem_append] at ho
      exact ho.imp (hsub o) List.mem_singleton.mp
    refine ⟨l,rfl,by rw [hstep],⟨by rw [hstep]; exact hm',fun o ho => ?_,fun o ho m hsm => ?_⟩,
      by rw [hstep,hobjs',hobjs]; rfl,fun i => ?_⟩
    · rcases hedges o ho with ho | rfl
      · exact h.tidy o ho
      · exact ⟨hf.2,hf.1⟩
    · rcases hedges o ho with ho | rfl
      · exact h.fresh o ho m (Nat.le_of_succ_le hsm)
      · intro hname
        have hmn := revName_inj (Option.some.inj hname)
        omega
    · rw [hstep,hlabels',hlabels,lookup_remove]
      rfl

theorem Turning.foldl_keeps (h : Turning s.1 s.2) (fs : List Edge) (hfs : ∀ f ∈ fs, Tidy f)
    {i : PyStr} (hbare : ∀ f ∈ fs, bareKey f ≠ i)
    (hrev : ∀ f ∈ fs, ∀ m, s.2 ≤ m → key (revOf m f) ≠ i) :
    Turning (fs.foldl reverseEdge s).1 (fs.foldl reverseEdge s).2 ∧
      lookup (fs.foldl reverseEdge s).1.edgeObjs i = lookup s.1.edgeObjs i ∧
      lookup (fs.foldl reverseEdge s).1.edgeLabels i = lookup s.1.edgeLabels i := by
  induction fs generalizing s with
  | nil => exact ⟨h,rfl,rfl⟩
  | cons f fs ih =>
    have hf := hfs f List.mem_cons_self
    have hfs' : ∀ f ∈ fs, Tidy f := fun f' hf' => hfs f' (List.mem_cons_of_mem f hf')
    have hbare' : ∀ f ∈ fs, bareKey f ≠ i := fun f' hf' => hbare f' (List.mem_cons_of_mem f hf')
    rw [List.foldl_cons]
    rcases h.step hf with ⟨-,heq⟩ | ⟨l,-,hn,ht,hobjs,hlabels⟩
    · rw [heq]
      exact ih h hfs' hbare' fun f' hf' => hrev f' (List.mem_cons_of_mem f hf')
    · have hne := hrev f List.mem_cons_self s.2 (Nat.le_refl _)
      obtain ⟨ht',hobjs',hlabels'⟩ := ih (s := reverseEdge s f) (hn ▸ ht) hfs' hbare'
        fun f' hf' m hm => hrev f' (List.mem_cons_of_mem f hf') m (by omega)
      refine ⟨ht',?_,?_⟩
      · have hlook : lookup (reverseEdge s f).1.edgeObjs i =
            lookup (remove s.1.edgeObjs (bareKey f)) i := by
          rw [hobjs,lookup,lookup,List.find?_append,List.find?_singleton]
          rw [if_neg (by simpa using hne),Option.or_none]
        rw [hobjs',hlook,lookup_remove,if_neg (hbare f List.mem_cons_self)]
      · rw [hlabels',hlabels,if_neg hne,if_neg (hbare f List.mem_cons_self)]

/-- The edges turned round, in their order. -/
def revs (n : ℕ) (fs : List Edge) : List (PyStr × Edge) :=
  (fs.zipIdx n).map fun fm => (key (revOf fm.2 fm.1),revOf fm.2 fm.1)

/-- An edge whose id is the one that it has without its name. -/
def Anonymous (e : Edge) : Prop := bareKey e = key e

theorem Turning.foldl_turns (h : Turning s.1 s.2) (fs : List Edge) (hnodup : fs.Nodup)
    (hmem : ∀ f ∈ fs, f ∈ s.1.edges) (hanon : ∀ f ∈ fs, Anonymous f) (label : Edge → GraphEdge D P)
    (hlabel : ∀ f ∈ fs, lookup s.1.edgeLabels (key f) = some (some (label f))) :
    Turning (fs.foldl reverseEdge s).1 (fs.foldl reverseEdge s).2 ∧
      (fs.foldl reverseEdge s).1.edgeObjs =
        s.1.edgeObjs.filter (fun io => io.2 ∉ fs)++revs s.2 fs ∧
      (∀ o ∈ s.1.edges, o ∉ fs → lookup (fs.foldl reverseEdge s).1.edgeLabels (key o) =
        lookup s.1.edgeLabels (key o)) ∧
      ∀ fm ∈ fs.zipIdx s.2, lookup (fs.foldl reverseEdge s).1.edgeLabels (key (revOf fm.2 fm.1)) =
        some (some (turned fm.1 (label fm.1))) := by
  induction fs generalizing s with
  | nil => exact ⟨h,by simp [revs],fun o _ _ => rfl,by simp⟩
  | cons f fs ih =>
    have hf := hmem f List.mem_cons_self
    have htidy := h.tidy f hf
    obtain ⟨hnot,hnodup⟩ := List.nodup_cons.mp hnodup
    have hfs : ∀ f' ∈ fs, f' ∈ s.1.edges := fun f' hf' => hmem f' (List.mem_cons_of_mem f hf')
    have hbare : bareKey f = key f := hanon f List.mem_cons_self
    -- different edges have different ids
    have hkey : ∀ o ∈ s.1.edges, o ≠ f → key f ≠ key o := by
      intro o ho hne hk
      have hlo := h.multi.mem_edges.mp ho
      rw [← hk,h.multi.mem_edges.mp hf] at hlo
      exact hne (Option.some.inj hlo).symm
    rcases h.step htidy with ⟨hnone,-⟩ | ⟨l,hl,hn,ht,hobjs,hlabels⟩
    · rw [edgeWithObj_eq h.multi,hlabel f List.mem_cons_self] at hnone
      cases hnone
    · have hlf : l = label f := by
        rw [edgeWithObj_eq h.multi,hlabel f List.mem_cons_self] at hl
        exact (Option.some.inj hl).symm
      rw [hbare] at hobjs hlabels
      have hlab : ∀ o ∈ s.1.edges, o ≠ f → lookup (reverseEdge s f).1.edgeLabels (key o) =
          lookup s.1.edgeLabels (key o) := by
        intro o ho hne
        rw [hlabels,if_neg (h.key_ne htidy (Nat.le_refl _) ho).symm,if_neg (hkey o ho hne)]
      have hin : ∀ o ∈ s.1.edges, o ≠ f → o ∈ (reverseEdge s f).1.edges := by
        intro o ho hne
        obtain ⟨⟨i,o⟩,hio,rfl⟩ := List.mem_map.mp ho
        rw [edges,hobjs,List.map_append,List.mem_append]
        refine .inl (List.mem_map_of_mem (List.mem_filter.mpr ⟨hio,decide_eq_true ?_⟩))
        have hown := h.multi.own (lookup_of_mem h.multi.sound.linked.distinct hio)
        intro hik
        exact hkey o ho hne (hik.symm.trans hown.symm)
      have hne : ∀ f' ∈ fs, f' ≠ f := fun f' hf' he => hnot (he ▸ hf')
      obtain ⟨ht',hobjs',hkeep,hrev⟩ := ih (s := reverseEdge s f) (hn ▸ ht) hnodup
        (fun f' hf' => hin f' (hfs f' hf') (hne f' hf'))
        (fun f' hf' => hanon f' (List.mem_cons_of_mem f hf'))
        (fun f' hf' => by
          rw [hlab f' (hfs f' hf') (hne f' hf')]
          exact hlabel f' (List.mem_cons_of_mem f hf'))
      rw [List.foldl_cons]
      have hR : revOf s.2 f ∉ fs := fun hin => h.fresh _ (hfs _ hin) s.2 (Nat.le_refl _) rfl
      refine ⟨ht',?_,fun o ho ho' => ?_,fun fm hfm => ?_⟩
      · have hfilter : (remove s.1.edgeObjs (key f)).filter (fun io => io.2 ∉ fs) =
            s.1.edgeObjs.filter fun io => io.2 ∉ f::fs := by
          rw [remove,List.filter_filter]
          refine List.filter_congr fun io hio => ?_
          have hown := h.multi.own (lookup_of_mem h.multi.sound.linked.distinct (k := io.1)
            (v := io.2) hio)
          have hiff : io.1 = key f ↔ io.2 = f := by
            constructor
            · intro hik
              by_contra hne
              exact hkey io.2 (List.mem_map_of_mem hio) hne (hik.symm.trans hown.symm)
            · rintro rfl
              exact hown.symm
          rw [Bool.eq_iff_iff]
          simp [hiff,and_comm]
        have hrevs : revs s.2 (f::fs) = (key (revOf s.2 f),revOf s.2 f)::revs (s.2+1) fs := rfl
        rw [hobjs',hobjs,List.filter_append,hfilter,hn,hrevs,List.append_assoc]
        simp [hR]
      · rw [List.mem_cons,not_or] at ho'
        rw [hkeep o (hin o ho ho'.1) ho'.2,hlab o ho ho'.1]
      · rw [List.zipIdx_cons,List.mem_cons] at hfm
        rcases hfm with rfl | hfm
        · have hRin : revOf s.2 f ∈ (reverseEdge s f).1.edges := by
            rw [edges,hobjs,List.map_append]
            simp
          rw [hkeep _ hRin hR,hlabels,if_pos rfl,hlf]
        · exact hrev fm (hn ▸ hfm)

end Turning

end Graph
end MinimaxCode.GraphLib
