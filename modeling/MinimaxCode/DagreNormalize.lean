import MinimaxCode.GraphContents
import Mathlib.Algebra.Notation.Defs

/-!
# Splitting long edges

An edge that spans more than one rank is taken out of the graph and a chain of dummies is
put in its place, one for each rank between its ends. The dummies hold the edge object and
the label, from which the edge is put back when the dummies have their places. Edges are
taken out and put back without their names.
-/

namespace MinimaxCode.DagreNormalize

open PyText OrderedDict GraphLib GraphLib.Graph

structure GraphEdgePoint (C : Type) where
  x : C
  y : C
  deriving DecidableEq

/-- An edge label: the fields of a split, and the rest. -/
structure GraphEdge (D C : Type) where
  data : D
  weight : Option C
  width : Option C
  height : Option C
  labelRank : Option ℤ
  labelpos : Option PyStr
  points : Option (List (GraphEdgePoint C))
  x : C
  y : C
  deriving DecidableEq

/-- A node label; a dummy holds the label and the object of the edge it is for. -/
structure GraphNode (D C : Type) where
  x : C
  y : C
  width : C
  height : C
  labelpos : Option PyStr
  dummy : Option PyStr
  rank : Option ℤ
  edgeLabel : Option (GraphEdge D C)
  edgeObj : Option Edge
  deriving DecidableEq

abbrev LayoutGraph (D C : Type) := GraphLib.Graph (GraphNode D C) (GraphEdge D C)

/-- The graph, the `dummy_chains` of its configuration, and the next number that
`unique_id` gives out. -/
structure Layout (D C : Type) where
  graph : LayoutGraph D C
  dummyChains : Option (List PyStr)
  uniqueId : ℕ

variable {D C : Type}

section Model

variable [Inhabited D] [Zero C] [One C]

/-- `GraphEdge()`. -/
def GraphEdge.blank : GraphEdge D C :=
  ⟨default,some 1,some 0,some 0,none,some (lit "r"),none,0,0⟩

/-- `GraphNode()`. -/
def GraphNode.blank : GraphNode D C := ⟨0,0,0,0,none,none,none,none,none⟩

/-- The rank of a node, zero where it has none. -/
def rankOf (g : LayoutGraph D C) (v : PyStr) : ℤ :=
  ((lookup g.nodes v).join.bind GraphNode.rank).getD 0

/-- The loop of `add_dummy_node` over the numbers of `unique_id`. Each number that is passed
over belongs to a node. -/
def mintId (g : LayoutGraph D C) (name : PyStr) : ℕ → ℕ → PyStr × ℕ
  | 0, n => (name++PyJson.natText n,n+1)
  | fuel+1, n =>
    if g.hasNode (name++PyJson.natText n) then mintId g name fuel (n+1)
    else (name++PyJson.natText n,n+1)

def addDummyNode (s : Layout D C) (nodeType : PyStr) (data : GraphNode D C) (name : PyStr) :
    PyStr × Layout D C :=
  let (nodeId,uniqueId) := mintId s.graph name s.graph.nodes.length s.uniqueId
  (nodeId,{ s with
    graph := s.graph.setNode nodeId (some {data with dummy := some nodeType})
    uniqueId })

/-- The kind of the dummy at a rank. -/
def dummyType (label : GraphEdge D C) (rank : ℤ) : PyStr :=
  if rank = label.labelRank.getD 0 then lit "edge-label" else lit "edge"

/-- The attributes of the dummy at a rank. -/
def attrs (e : Edge) (label : GraphEdge D C) (rank : ℤ) : GraphNode D C :=
  let attrs : GraphNode D C :=
    {(.blank : GraphNode D C) with edgeLabel := some label, edgeObj := some e, rank := some rank}
  if rank = label.labelRank.getD 0 then { attrs with
    width := label.width.getD 0
    height := label.height.getD 0
    labelpos := label.labelpos }
  else attrs

/-- The label of a piece of an edge. -/
def segment (label : GraphEdge D C) : GraphEdge D C := {GraphEdge.blank with weight := label.weight}

/-- The state of the loop of `_normalize_edge`. -/
structure Splitting (D C : Type) where
  layout : Layout D C
  v : PyStr
  i : ℕ

/-- A round of the loop of `_normalize_edge`. -/
def splitAt (e : Edge) (label : GraphEdge D C) (c : Splitting D C) (vRank : ℤ) :
    Splitting D C :=
  let (dummy,s) :=
    addDummyNode c.layout (dummyType label vRank) (attrs e label vRank) (lit "_d")
  { layout := { s with
      graph := (s.graph.setEdge c.v dummy (some (segment label)) none).graph
      dummyChains := if c.i = 0 then some (s.dummyChains.getD []++[dummy]) else s.dummyChains }
    v := dummy
    i := c.i+1 }

/-- So many ranks one after the other. -/
def ranksFrom : ℕ → ℤ → List ℤ
  | 0, _ => []
  | n+1, rank => rank::ranksFrom n (rank+1)

def normalizeEdge (s : Layout D C) (e : Edge) : Layout D C :=
  let vRank := rankOf s.graph e.v
  let wRank := rankOf s.graph e.w
  match (s.graph.edgeWithObj e).join with
  | none => s
  | some label =>
    let label := {label with points := some []}
    let g := s.graph.edgeMutWithObj e fun label => {label with points := some []}
    if wRank = vRank+1 then {s with graph := g}
    else
      let c := (ranksFrom (wRank-vRank-1).toNat (vRank+1)).foldl (splitAt e label)
        ⟨{s with graph := g.removeEdgeWithObj e},e.v,0⟩
      {c.layout with graph := (c.layout.graph.setEdge c.v e.w (some (segment label)) none).graph}

def run (s : Layout D C) : Layout D C :=
  s.graph.edges.foldl normalizeEdge {s with dummyChains := some []}

/-- A dummy becomes a waypoint, and lends the label its place. -/
def waypoint (label : GraphEdge D C) (points : List (GraphEdgePoint C)) (node : GraphNode D C)
    (dummy : PyStr) : GraphEdge D C :=
  let label := {label with points := some (points++[⟨node.x,node.y⟩])}
  if dummy = lit "edge-label" then { label with
    x := node.x
    y := node.y
    width := some node.width
    height := some node.height }
  else label

/-- The loop of `undo` along a chain; `none` where an assertion fails. Each round removes a
node, so there are at most as many rounds as nodes. -/
def walk : ℕ → LayoutGraph D C → PyStr → GraphNode D C → GraphEdge D C →
    Option (LayoutGraph D C × GraphEdge D C)
  | 0, _, _, _, _ => none
  | fuel+1, g, v, node, origLabel =>
    match node.dummy with
    | none => some (g,origLabel)
    | some dummy =>
      let w := (keys (table g.sucs v)).head?.getD []
      let g := g.removeNode v
      match origLabel.points with
      | none => none
      | some points =>
        match (lookup g.nodes w).join with
        | none => none
        | some nextNode => walk fuel g w nextNode (waypoint origLabel points node dummy)

/-- A round of the loop of `undo`. -/
def undoChain (g : LayoutGraph D C) (v : PyStr) : Option (LayoutGraph D C) :=
  match (lookup g.nodes v).join with
  | none => some g
  | some node =>
    match node.edgeObj with
    | none => none
    | some edgeObj =>
      match walk (g.nodes.length+1) g v node (node.edgeLabel.getD .blank) with
      | none => none
      | some (g,origLabel) => some (g.setEdgeWithObj edgeObj (some origLabel)).graph

def undo (s : Layout D C) : Option (LayoutGraph D C) :=
  match s.dummyChains with
  | none => some s.graph
  | some dummyChains => dummyChains.foldlM undoChain s.graph

/-- The edges along a path. -/
def hops : PyStr → List PyStr → List Edge
  | _, [] => []
  | v, w::path => ⟨v,w,none⟩::hops w path

/-- The edges that stand for an edge with a chain of dummies. -/
def chainEdges (e : Edge) (ds : List PyStr) : List Edge :=
  if ds = [] then [e] else hops e.v (ds++[e.w])

/-- The kind of dummy that a node is. -/
def dummyOf (g : LayoutGraph D C) (v : PyStr) : Option PyStr :=
  (lookup g.nodes v).join.bind GraphNode.dummy

/-- After the split each edge joins adjacent ranks, each edge of the graph stands as a chain
of dummies, and no dummy is in two chains. -/
structure Normalised (g t : LayoutGraph D C) (chains : List (Edge × List PyStr)) : Prop where
  all : chains.map Prod.fst = g.edges
  adjacent : ∀ o ∈ t.edges, rankOf t o.w = rankOf t o.v+1
  nodes : keys t.nodes = keys g.nodes++chains.flatMap Prod.snd
  distinct : (keys t.nodes).Nodup
  dummies : ∀ c ∈ chains, ∀ d ∈ c.2, (dummyOf t d).isSome
  edges : ∀ o, o ∈ t.edges ↔ ∃ c ∈ chains, o ∈ chainEdges c.1 c.2

/-- The nodes are placed. -/
def placed (pos : PyStr → GraphEdgePoint C) (g : LayoutGraph D C) : LayoutGraph D C :=
  {g with nodes := g.nodes.map fun kv =>
    (kv.1,kv.2.map fun node => {node with x := (pos kv.1).x, y := (pos kv.1).y})}

/-- The label of an edge with a chain of dummies, drawn: its points are the places of the
dummies, and its place is that of the dummy for the label. -/
def drawn (pos : PyStr → GraphEdgePoint C) (t : LayoutGraph D C) (ds : List PyStr)
    (label : GraphEdge D C) : GraphEdge D C :=
  let label := {label with points := some (ds.map pos)}
  match ds.find? fun d => dummyOf t d = some (lit "edge-label") with
  | some d => {label with x := (pos d).x, y := (pos d).y}
  | none => label

/-- The nodes and the edges are those of the graph, and the labels are its labels, drawn. -/
structure Restores (pos : PyStr → GraphEdgePoint C) (g t : LayoutGraph D C)
    (chains : List (Edge × List PyStr)) (u : LayoutGraph D C) : Prop where
  nodes : u.nodes = (placed pos g).nodes
  edges : u.edges.Perm g.edges
  labels : ∀ c ∈ chains,
    u.edgeWithObj c.1 = (g.edgeWithObj c.1).map (Option.map (drawn pos t c.2))

/-- The long edges are split, and put back when the nodes have been placed. -/
def RoundTrips (s : Layout D C) : Prop :=
  ∃ chains, Normalised s.graph (run s).graph chains ∧ ∀ pos, ∃ u,
    undo {run s with graph := placed pos (run s).graph} = some u ∧
      Restores pos s.graph (run s).graph chains u

/-- A directed multigraph with a rank at every node whose edges lead to no dummies yet. -/
structure Ranked (g : LayoutGraph D C) : Prop where
  multi : g.DiMulti
  tidy : g.TidyNodes
  distinct : (keys g.nodes).Nodup
  ranked : ∀ v ∈ keys g.nodes, ∃ node rank, lookup g.nodes v = some (some node) ∧
    node.rank = some rank
  plain : ∀ e ∈ g.edges, dummyOf g e.w = none

/-- An edge that needs no split or goes through one: it has a label but no name, leads to a
higher rank, and its label has a size where it gets a dummy. -/
def Splits (g : LayoutGraph D C) (e : Edge) : Prop :=
  rankOf g e.w = rankOf g e.v+1 ∨
  rankOf g e.v < rankOf g e.w ∧ e.name = none ∧ ∃ label, g.edgeWithObj e = some (some label) ∧
    (rankOf g e.v < label.labelRank.getD 0 → label.labelRank.getD 0 < rankOf g e.w →
      label.width.isSome ∧ label.height.isSome)

end Model

variable {s t : Layout D C} {g : LayoutGraph D C} {e o : Edge} {v w d : PyStr}
variable {label : GraphEdge D C} {l : Option (GraphEdge D C)}

theorem mintId_of_free (name : PyStr) (fuel n m : ℕ) (hm : m ≤ fuel)
    (hfree : name++PyJson.natText (n+m) ∉ keys g.nodes) :
    (mintId g name fuel n).1 ∉ keys g.nodes ∧
      ∃ k, (mintId g name fuel n).1 = name++PyJson.natText k := by
  induction fuel generalizing n m with
  | zero =>
    cases Nat.le_zero.mp hm
    exact ⟨hfree,n,rfl⟩
  | succ fuel ih =>
    rw [mintId,hasNode]
    by_cases hused : name++PyJson.natText n ∈ keys g.nodes
    · rw [if_pos (decide_eq_true hused)]
      cases m with
      | zero => exact absurd hused hfree
      | succ m => exact ih (n+1) m (by omega) (by rwa [Nat.add_assoc,Nat.add_comm 1 m])
    · rw [if_neg (by simpa using hused)]
      exact ⟨hused,n,rfl⟩

theorem mintId_spec (g : LayoutGraph D C) (name : PyStr) (n : ℕ) :
    (mintId g name g.nodes.length n).1 ∉ keys g.nodes ∧
      ∃ k, (mintId g name g.nodes.length n).1 = name++PyJson.natText k := by
  by_cases hall : ∀ m ≤ g.nodes.length, name++PyJson.natText (n+m) ∈ keys g.nodes
  · have hinj : ∀ m m', name++PyJson.natText (n+m) = name++PyJson.natText (n+m') → m = m' := by
      intro m m' heq
      have htext := congrArg PyJson.natOf (List.append_cancel_left heq)
      rw [PyJson.natOf_natText,PyJson.natOf_natText] at htext
      omega
    have hnodup : ((List.range (g.nodes.length+1)).map fun m => name++PyJson.natText (n+m)).Nodup :=
      List.nodup_range.map fun m m' => hinj m m'
    have hsub : (List.range (g.nodes.length+1)).map (fun m => name++PyJson.natText (n+m)) ⊆
        keys g.nodes := by
      intro x hx
      obtain ⟨m,hm,rfl⟩ := List.mem_map.mp hx
      exact hall m (Nat.le_of_lt_succ (List.mem_range.mp hm))
    have hlen := (hnodup.subperm hsub).length_le
    rw [List.length_map,List.length_range,keys,List.length_map] at hlen
    omega
  · push Not at hall
    obtain ⟨m,hm,hfree⟩ := hall
    exact mintId_of_free name _ n m hm hfree

section Split

variable [Inhabited D] [Zero C] [One C]

/-- The dummy at a rank. -/
def dummyNode (e : Edge) (label : GraphEdge D C) (rank : ℤ) : GraphNode D C :=
  {attrs e label rank with dummy := some (dummyType label rank)}

/-- What a round does: there is a new dummy, and an edge leads to it. -/
structure Rounds (e : Edge) (label : GraphEdge D C) (rank : ℤ) (c c' : Splitting D C) : Prop where
  multi : c'.layout.graph.DiMulti
  fresh : c'.v ∉ keys c.layout.graph.nodes
  tidy : ch '\x01' ∉ c'.v
  nodes : c'.layout.graph.nodes = c.layout.graph.nodes++[(c'.v,some (dummyNode e label rank))]
  has : ∀ o l, c'.layout.graph.Has o l ↔
    (o = ⟨c.v,c'.v,none⟩ ∧ l = some (segment label)) ∨ c.layout.graph.Has o l
  chains : c'.layout.dummyChains =
    if c.i = 0 then some (c.layout.dummyChains.getD []++[c'.v]) else c.layout.dummyChains
  round : c'.i = c.i+1

theorem tidy_dummy (n : ℕ) : ch '\x01' ∉ lit "_d"++PyJson.natText n := by
  intro hmem
  rcases List.mem_append.mp hmem with hd | hdigit
  · exact absurd hd (by decide)
  · exact absurd (PyJson.natText_digits n _ hdigit) (by decide)

theorem splitAt_rounds (e : Edge) (label : GraphEdge D C) (rank : ℤ) {c : Splitting D C}
    (hm : c.layout.graph.DiMulti) (ht : c.layout.graph.TidyNodes)
    (hv : c.v ∈ keys c.layout.graph.nodes) : Rounds e label rank c (splitAt e label c rank) := by
  obtain ⟨hfresh,n,hname⟩ := mintId_spec c.layout.graph (lit "_d") c.layout.uniqueId
  have hd : (splitAt e label c rank).v =
      (mintId c.layout.graph (lit "_d") c.layout.graph.nodes.length c.layout.uniqueId).1 := rfl
  have hgraph : (splitAt e label c rank).layout.graph =
      ((c.layout.graph.setNode (splitAt e label c rank).v (some (dummyNode e label rank))).setEdge
        c.v (splitAt e label c rank).v (some (segment label)) none).graph := rfl
  have hchains : (splitAt e label c rank).layout.dummyChains =
      if c.i = 0 then some (c.layout.dummyChains.getD []++[(splitAt e label c rank).v])
        else c.layout.dummyChains := rfl
  rw [← hd] at hfresh hname
  have hnodes : (c.layout.graph.setNode (splitAt e label c rank).v
      (some (dummyNode e label rank))).nodes = c.layout.graph.nodes++
        [((splitAt e label c rank).v,some (dummyNode e label rank))] := by
    rw [setNode_of_new hfresh,createNode]
    exact assign_of_new hfresh _
  have hm₁ := hm.setNode (splitAt e label c rank).v (some (dummyNode e label rank))
  refine ⟨?_,hfresh,by rw [hname]; exact tidy_dummy n,?_,fun o l => ?_,hchains,rfl⟩
  · rw [hgraph]
    exact (hm₁.setEdge _ _ _ none).1
  · rw [hgraph,setEdge_nodes ?_ ?_,hnodes]
    · rw [hnodes,keys,List.map_append]
      exact List.mem_append_left _ hv
    · rw [hnodes,keys,List.map_append]
      exact List.mem_append_right _ List.mem_cons_self
  · rw [hgraph,hm₁.setEdge_has _ fun o l hl hkey => ?_,DiMulti.setNode_has]
    rw [DiMulti.setNode_has] at hl
    have htidy : Tidy ⟨c.v,(splitAt e label c rank).v,none⟩ :=
      ⟨ht _ hv,by rw [hname]; exact tidy_dummy n⟩
    rw [key_eq,key_eq] at hkey
    obtain ⟨-,hw,-⟩ := split_key (hm.tidy ht hl) htidy hkey
    have hend := (hm.ends hl).2
    rw [hw] at hend
    exact hfresh hend

/-- The nodes of a chain, from a rank on. -/
def chainNodes (e : Edge) (label : GraphEdge D C) : List PyStr → ℤ →
    List (PyStr × Option (GraphNode D C))
  | [], _ => []
  | d::ds, rank => (d,some (dummyNode e label rank))::chainNodes e label ds (rank+1)

omit [Inhabited D] [One C] in
theorem keys_chainNodes (e : Edge) (label : GraphEdge D C) (ds : List PyStr) (rank : ℤ) :
    keys (chainNodes e label ds rank) = ds := by
  induction ds generalizing rank with
  | nil => rfl
  | cons d ds ih => exact congrArg (d::·) (ih (rank+1))

/-- The state after the rounds of a loop, with the dummies that they made. -/
structure Chained (e : Edge) (label : GraphEdge D C) (rank : ℤ) (c : Splitting D C)
    (ds : List PyStr) (c' : Splitting D C) : Prop where
  multi : c'.layout.graph.DiMulti
  tidy : c'.layout.graph.TidyNodes
  nodes : c'.layout.graph.nodes = c.layout.graph.nodes++chainNodes e label ds rank
  fresh : ∀ d ∈ ds, d ∉ keys c.layout.graph.nodes
  nodup : ds.Nodup
  has : ∀ o l, c'.layout.graph.Has o l ↔
    (o ∈ hops c.v ds ∧ l = some (segment label)) ∨ c.layout.graph.Has o l
  last : c'.v = ds.getLastD c.v
  chains : ∀ cs, c.layout.dummyChains = some cs →
    c'.layout.dummyChains = some (cs++if c.i = 0 then ds.head?.toList else [])

theorem Rounds.tidyNodes {rank : ℤ} {c c' : Splitting D C} (h : Rounds e label rank c c')
    (ht : c.layout.graph.TidyNodes) : c'.layout.graph.TidyNodes := by
  intro v hv
  rw [h.nodes,keys,List.map_append] at hv
  rcases List.mem_append.mp hv with hold | hnew
  · exact ht v hold
  · rw [List.mem_singleton.mp hnew]
    exact h.tidy

theorem foldl_splitAt (e : Edge) (label : GraphEdge D C) (n : ℕ) (rank : ℤ) {c : Splitting D C}
    (hm : c.layout.graph.DiMulti) (ht : c.layout.graph.TidyNodes)
    (hv : c.v ∈ keys c.layout.graph.nodes) : ∃ ds, ds.length = n ∧
      Chained e label rank c ds ((ranksFrom n rank).foldl (splitAt e label) c) := by
  induction n generalizing rank c with
  | zero =>
    refine ⟨[],rfl,⟨hm,ht,(List.append_nil _).symm,fun d hd => ?_,List.nodup_nil,
      fun o l => ⟨.inr,fun hl => hl.resolve_left fun hl => ?_⟩,rfl,fun cs hcs => ?_⟩⟩
    · cases hd
    · cases hl.1
    · rw [List.head?_nil,Option.toList_none,ite_self,List.append_nil]
      exact hcs
  | succ n ih =>
    have hround := splitAt_rounds e label rank hm ht hv
    have hkeys : keys (splitAt e label c rank).layout.graph.nodes =
        keys c.layout.graph.nodes++[(splitAt e label c rank).v] := by
      rw [hround.nodes,keys,List.map_append]
      rfl
    obtain ⟨ds,hlen,h⟩ := ih (rank+1) hround.multi (hround.tidyNodes ht)
      (by rw [hkeys]; exact List.mem_append_right _ List.mem_cons_self)
    rw [ranksFrom,List.foldl_cons]
    refine ⟨(splitAt e label c rank).v::ds,by rw [List.length_cons,hlen],⟨h.multi,h.tidy,?_,
      fun d hd => ?_,List.nodup_cons.mpr ⟨fun hmem => ?_,h.nodup⟩,fun o l => ?_,?_,
      fun cs hcs => ?_⟩⟩
    · rw [h.nodes,hround.nodes,List.append_assoc]
      rfl
    · rcases List.mem_cons.mp hd with rfl | hd
      · exact hround.fresh
      · intro hold
        exact h.fresh d hd (by rw [hkeys]; exact List.mem_append_left _ hold)
    · exact h.fresh _ hmem (by rw [hkeys]; exact List.mem_append_right _ List.mem_cons_self)
    · rw [h.has,hround.has,hops,List.mem_cons]
      tauto
    · rw [h.last,List.getLastD_cons]
    · have hchains := hround.chains
      rw [hcs] at hchains
      by_cases hi : c.i = 0
      · rw [if_pos hi] at hchains
        rw [h.chains _ hchains,if_neg (by rw [hround.round]; omega),if_pos hi,List.append_nil]
        rfl
      · rw [if_neg hi] at hchains
        rw [h.chains _ hchains,if_neg (by rw [hround.round]; omega),if_neg hi]

end Split

theorem hops_append (v : PyStr) (ds : List PyStr) (w : PyStr) :
    hops v (ds++[w]) = hops v ds++[⟨ds.getLastD v,w,none⟩] := by
  induction ds generalizing v with
  | nil => rfl
  | cons d ds ih =>
    rw [List.cons_append,hops,hops,ih d,List.getLastD_cons]
    rfl

theorem ends_of_hop {v : PyStr} {path : List PyStr} {o : Edge} (ho : o ∈ hops v path) :
    o.w ∈ path ∧ o.v ∈ v::path ∧ o.name = none := by
  induction path generalizing v with
  | nil => cases ho
  | cons w path ih =>
    rcases List.mem_cons.mp ho with rfl | ho
    · exact ⟨List.mem_cons_self,List.mem_cons_self,rfl⟩
    · obtain ⟨hw,hv,hname⟩ := ih ho
      exact ⟨List.mem_cons_of_mem w hw,List.mem_cons_of_mem v hv,hname⟩

section Split

variable [Inhabited D] [Zero C] [One C]

/-- A graph in the course of the split. -/
structure Sorted (g : LayoutGraph D C) : Prop where
  multi : g.DiMulti
  tidy : g.TidyNodes
  distinct : (keys g.nodes).Nodup

/-- A label whose points have been cleared. -/
def cleared (label : GraphEdge D C) : GraphEdge D C := {label with points := some []}

/-- Nodes have been added, and the rest is in order. -/
def Extends (g t : LayoutGraph D C) : Prop := Sorted t ∧ ∃ items, t.nodes = g.nodes++items

theorem normalizeEdge_chained (hs : Sorted s.graph) (hv : e.v ∈ keys s.graph.nodes)
    (hw : e.w ∈ keys s.graph.nodes) (hl : (s.graph.edgeWithObj e).join = some label)
    (hlong : rankOf s.graph e.w ≠ rankOf s.graph e.v+1) :
    ∃ ds c, ds.length = (rankOf s.graph e.w-rankOf s.graph e.v-1).toNat ∧
      Chained e (cleared label) (rankOf s.graph e.v+1)
        ⟨{s with graph := (s.graph.edgeMutWithObj e cleared).removeEdgeWithObj e},e.v,0⟩ ds c ∧
      normalizeEdge s e = { c.layout with
        graph := (c.layout.graph.setEdge c.v e.w (some (segment label)) none).graph } ∧
      (c.v ∈ keys c.layout.graph.nodes ∧ e.w ∈ keys c.layout.graph.nodes) ∧
      Sorted (normalizeEdge s e).graph ∧ (normalizeEdge s e).graph.nodes =
        s.graph.nodes++chainNodes e (cleared label) ds (rankOf s.graph e.v+1) := by
  obtain ⟨hm,-,-,hnodes₂⟩ := (hs.multi.edgeMutWithObj e cleared).removeEdgeWithObj e
  have hnodes₂ : ((s.graph.edgeMutWithObj e cleared).removeEdgeWithObj e).nodes =
      s.graph.nodes := hnodes₂
  obtain ⟨ds,hlen,h⟩ := foldl_splitAt e (cleared label)
    (rankOf s.graph e.w-rankOf s.graph e.v-1).toNat (rankOf s.graph e.v+1)
    (c := ⟨{s with graph := (s.graph.edgeMutWithObj e cleared).removeEdgeWithObj e},e.v,0⟩) hm
    (fun v hv => hs.tidy v (by rwa [hnodes₂] at hv)) (by dsimp only; rwa [hnodes₂])
  generalize hc : (ranksFrom (rankOf s.graph e.w-rankOf s.graph e.v-1).toNat
    (rankOf s.graph e.v+1)).foldl (splitAt e (cleared label))
      ⟨{s with graph := (s.graph.edgeMutWithObj e cleared).removeEdgeWithObj e},e.v,0⟩ = c at h
  have heq : normalizeEdge s e = { c.layout with
      graph := (c.layout.graph.setEdge c.v e.w (some (segment label)) none).graph } := by
    rw [normalizeEdge,hl]
    dsimp only
    rw [if_neg hlong,← hc]
    rfl
  have hnodes : c.layout.graph.nodes =
      s.graph.nodes++chainNodes e (cleared label) ds (rankOf s.graph e.v+1) := by
    rw [h.nodes,hnodes₂]
  have hkeys : keys c.layout.graph.nodes = keys s.graph.nodes++ds := by
    rw [hnodes,keys,List.map_append]
    exact congrArg (_++·) (keys_chainNodes e _ ds _)
  have hcv : c.v ∈ keys c.layout.graph.nodes := by
    rw [hkeys,h.last,List.getLastD_eq_getLast?]
    cases hlast : ds.getLast? with
    | none => exact List.mem_append_left _ hv
    | some d => exact List.mem_append_right _ (List.mem_of_getLast? hlast)
  have hcw : e.w ∈ keys c.layout.graph.nodes := by
    rw [hkeys]
    exact List.mem_append_left _ hw
  have hnodes' : (normalizeEdge s e).graph.nodes = c.layout.graph.nodes := by
    rw [heq]
    exact setEdge_nodes hcv hcw _ none
  refine ⟨ds,c,hlen,h,heq,⟨hcv,hcw⟩,⟨?_,fun v hv => h.tidy v ?_,?_⟩,hnodes'.trans hnodes⟩
  · rw [heq]
    exact (h.multi.setEdge _ _ _ none).1
  · rwa [hnodes'] at hv
  · rw [hnodes',hkeys]
    refine List.nodup_append.mpr ⟨hs.distinct,h.nodup,fun v hv d hd hvd => ?_⟩
    exact h.fresh d hd (by rw [hnodes₂,← hvd]; exact hv)

/-- What the round of a long edge does. -/
structure SplitInto (s : Layout D C) (e : Edge) (label : GraphEdge D C) (ds : List PyStr)
    (t : Layout D C) : Prop where
  sorted : Sorted t.graph
  nodes : t.graph.nodes =
    s.graph.nodes++chainNodes e (cleared label) ds (rankOf s.graph e.v+1)
  has : ∀ o l, t.graph.Has o l ↔
    (o ∈ hops e.v (ds++[e.w]) ∧ l = some (segment label)) ∨ (o ≠ e ∧ s.graph.Has o l)
  chains : ∀ cs, s.dummyChains = some cs → t.dummyChains = some (cs++ds.head?.toList)

theorem normalizeEdge_splits (hs : Sorted s.graph) (he : s.graph.Has e (some label))
    (hname : e.name = none) (hlong : rankOf s.graph e.v+1 < rankOf s.graph e.w) :
    ∃ ds, ds ≠ [] ∧ ds.length = (rankOf s.graph e.w-rankOf s.graph e.v-1).toNat ∧
      SplitInto s e label ds (normalizeEdge s e) := by
  obtain ⟨hv,hw⟩ := hs.multi.ends he
  have hjoin : (s.graph.edgeWithObj e).join = some label := by
    rw [hs.multi.edgeWithObj_of_has he]
    rfl
  obtain ⟨ds,c,hlen,h,heq,⟨hcv,hcw⟩,hsorted,hnodes⟩ :=
    normalizeEdge_chained hs hv hw hjoin (by omega)
  have hds : ds ≠ [] := by
    rintro rfl
    rw [List.length_nil] at hlen
    omega
  -- the edges that are left when the edge has been taken out
  have hm₁ := hs.multi.edgeMutWithObj e cleared
  have he₁ : (s.graph.edgeMutWithObj e cleared).Has e (some (cleared label)) := by
    rw [hs.multi.edgeMutWithObj_has _ he,if_pos rfl]
    rfl
  have hhas₂ : ∀ o l, ((s.graph.edgeMutWithObj e cleared).removeEdgeWithObj e).Has o l ↔
      o ≠ e ∧ s.graph.Has o l := by
    intro o l
    rw [hm₁.removeEdgeWithObj_has he₁ hname]
    refine and_congr_right fun hoe => ?_
    rw [hs.multi.edgeMutWithObj_has _ he,if_neg hoe]
  have hfresh : ∀ d ∈ ds, d ∉ keys s.graph.nodes := fun d hd => by
    have hd' := h.fresh d hd
    rwa [(hm₁.removeEdgeWithObj e).2.2.2] at hd'
  have hlast : c.v ∈ ds := by
    rw [h.last,List.getLastD_eq_getLast?,List.getLast?_eq_some_getLast hds]
    exact List.getLast_mem hds
  refine ⟨ds,hds,hlen,⟨hsorted,hnodes,fun o l => ?_,fun cs hcs => ?_⟩⟩
  · rw [heq,h.multi.setEdge_has _ fun o l hl hkey => ?_,h.has,hhas₂,hops_append,← h.last,
      List.mem_append,List.mem_singleton]
    · exact ⟨fun hl => by tauto,fun hl => by tauto⟩
    · -- no edge leads from the last dummy to the target yet
      rw [key_eq,key_eq] at hkey
      obtain ⟨hov,how,-⟩ := split_key (h.multi.tidy h.tidy hl) (o := ⟨c.v,e.w,none⟩)
        ⟨h.tidy _ hcv,h.tidy _ hcw⟩ hkey
      rcases (h.has o l).mp hl with ⟨ho,-⟩ | ho
      · exact hfresh _ (how ▸ (ends_of_hop ho).1) hw
      · have hsource := (hs.multi.ends ((hhas₂ o l).mp ho).2).1
        rw [hov] at hsource
        exact hfresh _ hlast hsource
  · have hchains := h.chains cs hcs
    rw [if_pos rfl] at hchains
    rw [heq]
    exact hchains

theorem extends_normalizeEdge (hs : Sorted s.graph) (hv : e.v ∈ keys s.graph.nodes)
    (hw : e.w ∈ keys s.graph.nodes) : Extends s.graph (normalizeEdge s e).graph := by
  cases hl : (s.graph.edgeWithObj e).join with
  | none =>
    rw [normalizeEdge,hl]
    exact ⟨hs,[],(List.append_nil _).symm⟩
  | some label =>
    by_cases hshort : rankOf s.graph e.w = rankOf s.graph e.v+1
    · rw [normalizeEdge,hl]
      dsimp only
      rw [if_pos hshort]
      exact ⟨⟨hs.multi.edgeMutWithObj e cleared,hs.tidy,hs.distinct⟩,[],(List.append_nil _).symm⟩
    · obtain ⟨ds,c,-,-,-,-,hsorted,hnodes⟩ := normalizeEdge_chained hs hv hw hl hshort
      exact ⟨hsorted,_,hnodes⟩

omit [Inhabited D] [Zero C] [One C] in
theorem Extends.trans {u : LayoutGraph D C} {t : LayoutGraph D C} (h : Extends g t)
    (h' : Extends t u) : Extends g u := by
  obtain ⟨-,items,hitems⟩ := h
  obtain ⟨hu,items',hitems'⟩ := h'
  exact ⟨hu,items++items',by rw [hitems',hitems,List.append_assoc]⟩

omit [Inhabited D] [Zero C] [One C] in
theorem Extends.lookup_eq {t : LayoutGraph D C} (h : Extends g t) (hv : v ∈ keys g.nodes) :
    lookup t.nodes v = lookup g.nodes v := by
  obtain ⟨-,items,hitems⟩ := h
  obtain ⟨x,hx⟩ := Option.isSome_iff_exists.mp (isSome_lookup_iff.mpr hv)
  rw [hitems,hx]
  rw [lookup,Option.map_eq_some_iff] at hx ⊢
  obtain ⟨kv,hkv,rfl⟩ := hx
  exact ⟨kv,by rw [List.find?_append,hkv,Option.some_or],rfl⟩

omit [Inhabited D] [Zero C] [One C] in
theorem Extends.rankOf_eq {t : LayoutGraph D C} (h : Extends g t) (hv : v ∈ keys g.nodes) :
    rankOf t v = rankOf g v := by
  rw [rankOf,h.lookup_eq hv,rankOf]

theorem extends_run (hs : Sorted s.graph) : Extends s.graph (run s).graph := by
  have hloop : ∀ (es : List Edge) (t : Layout D C), Extends s.graph t.graph →
      (∀ e ∈ es, e.v ∈ keys s.graph.nodes ∧ e.w ∈ keys s.graph.nodes) →
      Extends s.graph (es.foldl normalizeEdge t).graph := by
    intro es
    induction es with
    | nil => exact fun t ht _ => ht
    | cons e es ih =>
      intro t ht hes
      have hold : ∀ v ∈ keys s.graph.nodes, v ∈ keys t.graph.nodes := fun v hv => by
        rwa [← isSome_lookup_iff,ht.lookup_eq hv,isSome_lookup_iff]
      obtain ⟨hv,hw⟩ := hes e List.mem_cons_self
      exact ih _ (ht.trans (extends_normalizeEdge ht.1 (hold _ hv) (hold _ hw)))
        fun e' he' => hes e' (List.mem_cons_of_mem e he')
  exact hloop _ _ ⟨hs,[],(List.append_nil _).symm⟩ fun e he =>
    hs.multi.sound.endpoints _ e (hs.multi.mem_edges.mp he)

omit [Inhabited D] [Zero C] [One C] in
theorem normalizeEdge_clears (h : g.DiMulti) (he : g.Has e (some label)) (o : Edge)
    (l : Option (GraphEdge D C)) : (g.edgeMutWithObj e cleared).Has o l ↔
      (o = e ∧ l = some (cleared label)) ∨ (o ≠ e ∧ g.Has o l) := by
  rw [h.edgeMutWithObj_has _ he]
  by_cases hoe : o = e
  · simp [hoe]
  · simp [hoe]

/-- The edges, with their labels, that stand for an edge with its chain. -/
def Stands (g : LayoutGraph D C) (c : Edge × List PyStr) (o : Edge) (l : Option (GraphEdge D C)) :
    Prop :=
  o ∈ chainEdges c.1 c.2 ∧ ∃ l₀, g.Has c.1 l₀ ∧ l = l₀.map (if c.2 = [] then cleared else segment)

/-- The nodes of the chain of an edge. -/
def nodesOf (g : LayoutGraph D C) (c : Edge × List PyStr) :
    List (PyStr × Option (GraphNode D C)) :=
  chainNodes c.1 (cleared ((g.edgeWithObj c.1).join.getD .blank)) c.2 (rankOf g c.1.v+1)

/-- An edge that is split where it is long. -/
def Plain (g : LayoutGraph D C) (e : Edge) : Prop :=
  rankOf g e.w = rankOf g e.v+1 ∨
    rankOf g e.v < rankOf g e.w ∧ e.name = none ∧ ∃ label, g.Has e (some label)

/-- What the round of an edge does. -/
structure Replaces (g : LayoutGraph D C) (c : Edge × List PyStr) (s t : Layout D C) : Prop where
  length : c.2.length = (rankOf g c.1.w-rankOf g c.1.v-1).toNat
  sorted : Sorted t.graph
  nodes : t.graph.nodes = s.graph.nodes++nodesOf g c
  has : ∀ o l, t.graph.Has o l ↔ Stands g c o l ∨ (o ≠ c.1 ∧ s.graph.Has o l)
  chains : ∀ cs, s.dummyChains = some cs → t.dummyChains = some (cs++c.2.head?.toList)

theorem normalizeEdge_replaces (hs : Sorted s.graph) (hl : g.Has e l) (hl' : s.graph.Has e l)
    (hg : g.DiMulti) (hv : rankOf s.graph e.v = rankOf g e.v)
    (hw : rankOf s.graph e.w = rankOf g e.w) (hplain : Plain g e) :
    ∃ ds, Replaces g (e,ds) s (normalizeEdge s e) := by
  by_cases hshort : rankOf g e.w = rankOf g e.v+1
  · refine ⟨[],?_⟩
    have hlen : ([] : List PyStr).length = (rankOf g e.w-rankOf g e.v-1).toNat := by
      rw [hshort,List.length_nil]
      omega
    have hstands : ∀ o l', Stands g (e,[]) o l' ↔ o = e ∧ l' = l.map cleared := by
      intro o l'
      rw [Stands,chainEdges,if_pos rfl,if_pos rfl,List.mem_singleton]
      refine and_congr_right fun _ => ⟨?_,fun h => ⟨l,hl,h⟩⟩
      rintro ⟨l₀,hl₀,rfl⟩
      rw [hl₀.unique hl]
    cases l with
    | none =>
      have heq : normalizeEdge s e = s := by
        rw [normalizeEdge,hs.multi.edgeWithObj_of_has hl']
        rfl
      rw [heq]
      refine ⟨hlen,hs,(List.append_nil _).symm,fun o l => ?_,fun cs hcs => ?_⟩
      · rw [hstands]
        by_cases hoe : o = e
        · subst hoe
          exact ⟨fun h => .inl ⟨rfl,h.unique hl'⟩,fun h => by
            rcases h with ⟨-,rfl⟩ | ⟨hne,-⟩
            · exact hl'
            · exact absurd rfl hne⟩
        · simp [hoe]
      · rw [hcs,List.head?_nil,Option.toList_none,List.append_nil]
    | some label =>
      have heq : normalizeEdge s e = {s with graph := s.graph.edgeMutWithObj e cleared} := by
        rw [normalizeEdge,hs.multi.edgeWithObj_of_has hl']
        dsimp only [Option.join_some]
        rw [if_pos (by rw [hv,hw,hshort])]
        rfl
      rw [heq]
      refine ⟨hlen,⟨hs.multi.edgeMutWithObj e cleared,hs.tidy,hs.distinct⟩,
        (List.append_nil _).symm,fun o l => ?_,fun cs hcs => ?_⟩
      · rw [hstands,normalizeEdge_clears hs.multi hl']
        rfl
      · rw [List.head?_nil,Option.toList_none,List.append_nil]
        exact hcs
  · obtain ⟨hrise,hname,label,hlabel⟩ := hplain.resolve_left hshort
    cases hlabel.unique hl
    obtain ⟨ds,hds,hlen,h⟩ := normalizeEdge_splits hs hl' hname (by rw [hv,hw]; omega)
    rw [hv,hw] at hlen
    refine ⟨ds,hlen,h.sorted,?_,fun o l => ?_,h.chains⟩
    · rw [h.nodes,nodesOf,hg.edgeWithObj_of_has hl,hv]
      rfl
    · rw [h.has,Stands,chainEdges,if_neg hds,if_neg hds]
      refine or_congr (and_congr_right fun _ => ⟨fun h => ⟨some label,hl,h⟩,?_⟩) Iff.rfl
      rintro ⟨l₀,hl₀,rfl⟩
      rw [hl₀.unique hl]
      rfl

theorem keys_nodesOf (g : LayoutGraph D C) (c : Edge × List PyStr) :
    keys (nodesOf g c) = c.2 := keys_chainNodes _ _ _ _

theorem keys_flatMap_nodesOf (g : LayoutGraph D C) (done : List (Edge × List PyStr)) :
    keys (done.flatMap (nodesOf g)) = done.flatMap Prod.snd := by
  rw [keys,List.map_flatMap]
  exact List.flatMap_congr fun c _ => keys_nodesOf g c

/-- The loop over the edges, with the chains that it has made. -/
structure Normalising (g : LayoutGraph D C) (done : List (Edge × List PyStr)) (todo : List Edge)
    (s : Layout D C) : Prop where
  all : done.map Prod.fst++todo = g.edges
  lengths : ∀ c ∈ done, c.2.length = (rankOf g c.1.w-rankOf g c.1.v-1).toNat
  sorted : Sorted s.graph
  nodes : s.graph.nodes = g.nodes++done.flatMap (nodesOf g)
  chains : s.dummyChains = some (done.flatMap fun c => c.2.head?.toList)
  has : ∀ o l, s.graph.Has o l ↔ (∃ c ∈ done, Stands g c o l) ∨ (o ∈ todo ∧ g.Has o l)

namespace Normalising

variable {done : List (Edge × List PyStr)} {todo : List Edge} {c : Edge × List PyStr}

theorem keys_nodes (h : Normalising g done todo s) :
    keys s.graph.nodes = keys g.nodes++done.flatMap Prod.snd := by
  rw [h.nodes,← keys_flatMap_nodesOf g done]
  exact List.map_append

theorem dummy_new (h : Normalising g done todo s) (hc : c ∈ done) (hd : d ∈ c.2) :
    d ∉ keys g.nodes := by
  have hnodup := h.sorted.distinct
  rw [h.keys_nodes] at hnodup
  intro hmem
  exact (List.nodup_append.mp hnodup).2.2 d hmem d (List.mem_flatMap.mpr ⟨c,hc,hd⟩) rfl

theorem extends_graph (h : Normalising g done todo s) : Extends g s.graph := ⟨h.sorted,_,h.nodes⟩

theorem rankOf_old (h : Normalising g done todo s) (hv : v ∈ keys g.nodes) :
    rankOf s.graph v = rankOf g v := h.extends_graph.rankOf_eq hv

end Normalising

end Split

theorem hop_meets {v : PyStr} {ds : List PyStr} {w : PyStr} {o : Edge} (hds : ds ≠ [])
    (ho : o ∈ hops v (ds++[w])) : o.v ∈ ds ∨ o.w ∈ ds := by
  induction ds generalizing v with
  | nil => exact absurd rfl hds
  | cons d ds ih =>
    rcases List.mem_cons.mp ho with rfl | ho
    · exact .inr List.mem_cons_self
    · cases ds with
      | nil =>
        rw [List.mem_singleton.mp ho]
        exact .inl List.mem_cons_self
      | cons d' ds =>
        exact (ih (List.cons_ne_nil d' ds) ho).imp (List.mem_cons_of_mem d) (List.mem_cons_of_mem d)

section Split

variable [Inhabited D] [Zero C] [One C]

namespace Normalising

variable {done : List (Edge × List PyStr)} {todo : List Edge} {c : Edge × List PyStr}

theorem stands_ne (h : Normalising g done todo s) (hg : g.DiMulti) (hc : c ∈ done)
    (ho : Stands g c o l) (he : e ∈ todo) : o ≠ e := by
  have hmem : e ∈ g.edges := h.all ▸ List.mem_append_right _ he
  have hends := hg.sound.endpoints _ e (hg.mem_edges.mp hmem)
  have hedge := ho.1
  rw [chainEdges] at hedge
  rintro rfl
  by_cases hds : c.2 = []
  · rw [if_pos hds,List.mem_singleton] at hedge
    have hnodup := hg.edges_nodup
    rw [← h.all] at hnodup
    exact (List.nodup_append.mp hnodup).2.2 _ (List.mem_map_of_mem hc) o he hedge.symm
  · rw [if_neg hds] at hedge
    rcases hop_meets hds hedge with hv | hw
    · exact h.dummy_new hc hv hends.1
    · exact h.dummy_new hc hw hends.2

theorem step (h : Normalising g done (e::todo) s) (hg : g.DiMulti) (hplain : Plain g e) :
    ∃ ds, Normalising g (done++[(e,ds)]) todo (normalizeEdge s e) := by
  have hmem : e ∈ g.edges := h.all ▸ List.mem_append_right _ List.mem_cons_self
  obtain ⟨l,hl⟩ := hg.has_edge hmem
  obtain ⟨hv,hw⟩ := hg.ends hl
  have hl' := (h.has e l).mpr (.inr ⟨List.mem_cons_self,hl⟩)
  obtain ⟨ds,hr⟩ := normalizeEdge_replaces h.sorted hl hl' hg (h.rankOf_old hv) (h.rankOf_old hw)
    hplain
  have hrest : e ∉ todo := by
    have hnodup := hg.edges_nodup
    rw [← h.all] at hnodup
    exact (List.nodup_cons.mp (List.nodup_append.mp hnodup).2.1).1
  refine ⟨ds,by rw [List.map_append,List.append_assoc]; exact h.all,fun c hc => ?_,hr.sorted,?_,?_,
    fun o l => ?_⟩
  · rcases List.mem_append.mp hc with hc | hc
    · exact h.lengths c hc
    · rw [List.mem_singleton.mp hc]
      exact hr.length
  · rw [hr.nodes,h.nodes,List.flatMap_append,List.append_assoc,List.flatMap_singleton]
  · rw [hr.chains _ h.chains,List.flatMap_append,List.flatMap_singleton]
  · rw [hr.has,h.has]
    have hne : ∀ c ∈ done, Stands g c o l → o ≠ e := fun c hc ho =>
      h.stands_ne hg hc ho List.mem_cons_self
    constructor
    · rintro (ho | ⟨hoe,⟨c,hc,ho⟩ | ⟨ho,hol⟩⟩)
      · exact .inl ⟨(e,ds),List.mem_append_right _ List.mem_cons_self,ho⟩
      · exact .inl ⟨c,List.mem_append_left _ hc,ho⟩
      · exact .inr ⟨(List.mem_cons.mp ho).resolve_left hoe,hol⟩
    · rintro (⟨c,hc,ho⟩ | ⟨ho,hol⟩)
      · rcases List.mem_append.mp hc with hc | hc
        · exact .inr ⟨hne c hc ho,.inl ⟨c,hc,ho⟩⟩
        · rw [List.mem_singleton.mp hc] at ho
          exact .inl ho
      · have hoe : o ≠ e := by
          rintro rfl
          exact hrest ho
        exact .inr ⟨hoe,.inr ⟨List.mem_cons_of_mem e ho,hol⟩⟩

theorem foldl (h : Normalising g done todo s) (hg : g.DiMulti)
    (hplain : ∀ e ∈ g.edges, Plain g e) :
    ∃ chains, Normalising g chains [] (todo.foldl normalizeEdge s) := by
  induction todo generalizing done s with
  | nil => exact ⟨done,h⟩
  | cons e todo ih =>
    have hmem : e ∈ g.edges := h.all ▸ List.mem_append_right _ List.mem_cons_self
    obtain ⟨ds,hstep⟩ := h.step hg (hplain e hmem)
    exact ih hstep

end Normalising

theorem normalising_run (h : Sorted s.graph) (hplain : ∀ e ∈ s.graph.edges, Plain s.graph e) :
    ∃ chains, Normalising s.graph chains [] (run s) := by
  have hstart : Normalising s.graph [] s.graph.edges {s with dummyChains := some []} := by
    refine ⟨rfl,fun c hc => ?_,h,(List.append_nil _).symm,rfl,
      fun o l => ⟨fun hl => ?_,fun hl => ?_⟩⟩
    · cases hc
    · exact .inr ⟨h.multi.mem_of_has hl,hl⟩
    · rcases hl with ⟨c,hc,-⟩ | ⟨-,hl⟩
      · cases hc
      · exact hl
  exact hstart.foldl h.multi hplain

omit [Inhabited D] [Zero C] [One C] in
theorem rankOf_of_mem (hd : (keys g.nodes).Nodup) {node : GraphNode D C}
    (h : (v,some node) ∈ g.nodes) : rankOf g v = node.rank.getD 0 := by
  rw [rankOf,lookup_of_mem hd h]
  rfl

omit [Inhabited D] [One C] in
theorem rank_dummyNode (e : Edge) (label : GraphEdge D C) (rank : ℤ) :
    (dummyNode e label rank).rank = some rank := by
  rw [dummyNode,attrs]
  dsimp only
  split <;> rfl

omit [Inhabited D] [One C] in
theorem hops_adjacent {ds : List PyStr} {rank : ℤ} (hd : (keys g.nodes).Nodup)
    (hnodes : ∀ kv ∈ chainNodes e label ds rank, kv ∈ g.nodes) (hv : rankOf g v+1 = rank)
    (hw : rankOf g w = rank+ds.length) (ho : o ∈ hops v (ds++[w])) :
    rankOf g o.w = rankOf g o.v+1 := by
  induction ds generalizing v rank with
  | nil =>
    rw [List.mem_singleton.mp ho]
    rw [List.length_nil] at hw
    dsimp only
    omega
  | cons d ds ih =>
    have hrank : rankOf g d = rank := by
      rw [rankOf_of_mem hd (hnodes _ List.mem_cons_self),rank_dummyNode]
      rfl
    rcases List.mem_cons.mp ho with rfl | ho
    · dsimp only
      omega
    · rw [List.length_cons] at hw
      exact ih (fun kv hkv => hnodes kv (List.mem_cons_of_mem _ hkv)) (by rw [hrank])
        (by push_cast at hw; omega) ho

omit [Inhabited D] [One C] in
theorem mem_chainNodes (e : Edge) (label : GraphEdge D C) (rank : ℤ) {ds : List PyStr}
    (hd : d ∈ ds) :
    ∃ r, (rank ≤ r ∧ r < rank+ds.length) ∧
      (d,some (dummyNode e label r)) ∈ chainNodes e label ds rank := by
  induction ds generalizing rank with
  | nil => cases hd
  | cons d' ds ih =>
    rw [List.length_cons]
    push_cast
    rcases List.mem_cons.mp hd with rfl | hd
    · exact ⟨rank,⟨by omega,by omega⟩,List.mem_cons_self⟩
    · obtain ⟨r,⟨hle,hlt⟩,hr⟩ := ih (rank+1) hd
      exact ⟨r,⟨by omega,by omega⟩,List.mem_cons_of_mem _ hr⟩

theorem Normalising.normalised {chains : List (Edge × List PyStr)}
    (h : Normalising g chains [] s) (hg : g.DiMulti) (hplain : ∀ e ∈ g.edges, Plain g e) :
    Normalised g s.graph chains := by
  have hall : chains.map Prod.fst = g.edges := by
    rw [← h.all,List.append_nil]
  have hmem : ∀ c ∈ chains, c.1 ∈ g.edges := fun c hc => hall ▸ List.mem_map_of_mem hc
  have hin : ∀ c ∈ chains, ∀ kv ∈ nodesOf g c, kv ∈ s.graph.nodes := by
    intro c hc kv hkv
    rw [h.nodes]
    exact List.mem_append_right _ (List.mem_flatMap.mpr ⟨c,hc,hkv⟩)
  refine ⟨hall,fun o ho => ?_,h.keys_nodes,h.sorted.distinct,fun c hc d hd => ?_,fun o => ?_⟩
  · obtain ⟨l,hl⟩ := h.sorted.multi.has_edge ho
    obtain ⟨c,hc,ho,-⟩ := ((h.has o l).mp hl).resolve_right fun h => by cases h.1
    obtain ⟨hv,hw⟩ := hg.sound.endpoints _ c.1 (hg.mem_edges.mp (hmem c hc))
    have hlen := h.lengths c hc
    have hrises := hplain c.1 (hmem c hc)
    rw [chainEdges] at ho
    by_cases hds : c.2 = []
    · rw [if_pos hds,List.mem_singleton] at ho
      rw [ho,h.rankOf_old hv,h.rankOf_old hw]
      rw [hds,List.length_nil] at hlen
      rcases hrises with hshort | ⟨hlong,-⟩ <;> omega
    · rw [if_neg hds] at ho
      have hpos := List.length_pos_iff.mpr hds
      refine hops_adjacent h.sorted.distinct (hin c hc) (by rw [h.rankOf_old hv]) ?_ ho
      rw [h.rankOf_old hw]
      omega
  · obtain ⟨r,-,hr⟩ := mem_chainNodes c.1 (cleared ((g.edgeWithObj c.1).join.getD .blank))
      (rankOf g c.1.v+1) hd
    rw [dummyOf,lookup_of_mem h.sorted.distinct (hin c hc _ hr)]
    rfl
  · constructor
    · intro ho
      obtain ⟨l,hl⟩ := h.sorted.multi.has_edge ho
      obtain ⟨c,hc,ho,-⟩ := ((h.has o l).mp hl).resolve_right fun h => by cases h.1
      exact ⟨c,hc,ho⟩
    · rintro ⟨c,hc,ho⟩
      obtain ⟨l,hl⟩ := hg.has_edge (hmem c hc)
      exact h.sorted.multi.mem_of_has ((h.has o _).mpr (.inl ⟨c,hc,ho,l,hl,rfl⟩))

end Split

end MinimaxCode.DagreNormalize
