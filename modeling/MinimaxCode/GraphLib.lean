import MinimaxCode.PyText
import MinimaxCode.OrderedDict
import MinimaxCode.Forests

/-!
# The graph of the layout engine

A graph keeps its edges in eight tables: the edge objects and labels under the text id of
the edge, and for every node the edges that come in and go out and how many there are
from each predecessor and to each successor. A compound graph also keeps a forest of
nodes below a synthetic root.
-/

namespace MinimaxCode.GraphLib

open PyText OrderedDict

def defaultEdgeName : PyStr := [ch '\x00']
def graphNode : PyStr := [ch '\x00']
def edgeKeyDelim : PyStr := [ch '\x01']

/-- An edge object; `name` tells parallel edges of a multigraph apart. -/
structure Edge where
  v : PyStr
  w : PyStr
  name : Option PyStr
  deriving DecidableEq

/-- The order of the end points in which an undirected edge is stored. -/
def swapped (isDirected : Bool) (v w : PyStr) : Bool := !isDirected && !strLe v w

def edgeArgsToId (isDirected : Bool) (v w : PyStr) (name : Option PyStr) : PyStr :=
  let (v,w) := if swapped isDirected v w then (w,v) else (v,w)
  v++edgeKeyDelim++w++edgeKeyDelim++name.getD defaultEdgeName

def edgeArgsToObj (isDirected : Bool) (v w : PyStr) (name : Option PyStr) : Edge :=
  let (v,w) := if swapped isDirected v w then (w,v) else (v,w)
  ⟨v,w,name⟩

def edgeObjToId (isDirected : Bool) (edge : Edge) : PyStr :=
  edgeArgsToId isDirected edge.v edge.w edge.name

/-- `NodeLabelValue` and `NodeLabelFactory`, `EdgeLabelValue` and `EdgeLabelFactory`. -/
inductive DefaultLabel (L : Type)
  | value (v : Option L)
  | factory (f : PyStr → Option L)

/-- A label made without an explicit value; the last resort is the factory of the graph. -/
def DefaultLabel.resolve {L : Type} (d : DefaultLabel L) (fallback : Option L) (id : PyStr) :
    Option L :=
  match d with
  | .factory f => (f id).or fallback
  | .value v => v.or fallback

/-- The state of a graph. A label is absent where Python stores `None`. -/
structure Graph (N E : Type) where
  isDirected : Bool
  isMultigraph : Bool
  isCompound : Bool
  nodeDefault : Option N
  edgeDefault : Option E
  defaultNodeLabelFn : DefaultLabel N
  defaultEdgeLabelFn : DefaultLabel E
  nodes : List (PyStr × Option N)
  ins : List (PyStr × List (PyStr × Edge))
  preds : List (PyStr × List (PyStr × ℤ))
  outs : List (PyStr × List (PyStr × Edge))
  sucs : List (PyStr × List (PyStr × ℤ))
  edgeObjs : List (PyStr × Edge)
  edgeLabels : List (PyStr × Option E)
  nodeCount : ℤ
  edgeCount : ℤ
  parent : List (PyStr × PyStr)
  children : List (PyStr × List (PyStr × Bool))

structure GraphOption where
  directed : Option Bool
  multigraph : Option Bool
  compound : Option Bool

section Tables

variable {V : Type}

/-- The table under a key, empty where there is none. -/
def table (tables : List (PyStr × List (PyStr × V))) (k : PyStr) : List (PyStr × V) :=
  (lookup tables k).getD []

/-- The table under a key is changed in place; nothing happens where there is none. -/
def adjust (tables : List (PyStr × V)) (k : PyStr) (f : V → V) : List (PyStr × V) :=
  match lookup tables k with
  | some t => assign tables k (f t)
  | none => tables

/-- An item goes into the table under a key, which is made where it is missing. -/
def insertIn (tables : List (PyStr × List (PyStr × V))) (k i : PyStr) (x : V) :
    List (PyStr × List (PyStr × V)) :=
  assign tables k (assign (table tables k) i x)

variable {tables : List (PyStr × List (PyStr × V))}

theorem lookup_adjust (ts : List (PyStr × V)) (k k' : PyStr) (f : V → V) :
    lookup (adjust ts k f) k' = if k = k' then (lookup ts k).map f else lookup ts k' := by
  rw [adjust]
  cases h : lookup ts k with
  | none =>
    by_cases hk : k = k'
    · rw [if_pos hk,← hk,h]
      rfl
    · rw [if_neg hk]
  | some t => rw [lookup_assign,Option.map_some]

theorem mem_keys_adjust {ts : List (PyStr × V)} {k k' : PyStr} {f : V → V} :
    k' ∈ keys (adjust ts k f) ↔ k' ∈ keys ts := by
  rw [← isSome_lookup_iff,lookup_adjust,← isSome_lookup_iff]
  by_cases h : k = k'
  · simp [h]
  · simp [h]

theorem table_adjust {k : PyStr} {f : List (PyStr × V) → List (PyStr × V)} (hf : f [] = [])
    (k' : PyStr) :
    table (adjust tables k f) k' = if k = k' then f (table tables k') else table tables k' := by
  rw [table,lookup_adjust,table]
  by_cases h : k = k'
  · subst h
    rw [if_pos rfl,if_pos rfl]
    cases lookup tables k with
    | none => exact hf.symm
    | some t => rfl
  · rw [if_neg h,if_neg h]

theorem table_assign (k : PyStr) (t : List (PyStr × V)) (k' : PyStr) :
    table (assign tables k t) k' = if k = k' then t else table tables k' := by
  rw [table,lookup_assign,table]
  split <;> rfl

theorem table_remove (k k' : PyStr) :
    table (remove tables k) k' = if k = k' then [] else table tables k' := by
  rw [table,lookup_remove,table]
  split <;> rfl

theorem table_insertIn (k i : PyStr) (x : V) (k' : PyStr) : table (insertIn tables k i x) k' =
    if k = k' then assign (table tables k') i x else table tables k' := by
  rw [insertIn,table_assign]
  split
  · next h => rw [h]
  · rfl

theorem mem_keys_insertIn {k i k' : PyStr} {x : V} :
    k' ∈ keys (insertIn tables k i x) ↔ k' = k ∨ k' ∈ keys tables :=
  mem_keys_assign_iff

end Tables

def incrementOrInitEntry (key : PyStr) (counterMap : List (PyStr × ℤ)) : List (PyStr × ℤ) :=
  match lookup counterMap key with
  | some n => assign counterMap key (n+1)
  | none => assign counterMap key 1

def decrementOrRemoveEntry (key : PyStr) (counterMap : List (PyStr × ℤ)) : List (PyStr × ℤ) :=
  match lookup counterMap key with
  | none => counterMap
  | some n => if n-1 ≤ 0 then remove counterMap key else assign counterMap key (n-1)

namespace Graph

variable {N E : Type}

/-- `Graph(opts, ...)`. The child list of the synthetic root is there from the start. -/
def new (opts : GraphOption) (nodeDefault : Option N) (edgeDefault : Option E) : Graph N E :=
  let isCompound := opts.compound.getD false
  {
    isDirected := opts.directed.getD true
    isMultigraph := opts.multigraph.getD false
    isCompound
    nodeDefault
    edgeDefault
    defaultNodeLabelFn := .value none
    defaultEdgeLabelFn := .value none
    nodes := []
    ins := []
    preds := []
    outs := []
    sucs := []
    edgeObjs := []
    edgeLabels := []
    nodeCount := 0
    edgeCount := 0
    parent := []
    children := if isCompound then [(graphNode,[])] else []
  }

def setDefaultNodeLabel (g : Graph N E) (d : DefaultLabel N) : Graph N E :=
  {g with defaultNodeLabelFn := d}

def defaultNodeLabel (g : Graph N E) (nodeId : PyStr) : Option N :=
  g.defaultNodeLabelFn.resolve g.nodeDefault nodeId

/-- The part of `set_node` behind the check whether the node exists. -/
def createNode (g : Graph N E) (v : PyStr) (label : Option N) : Graph N E :=
  { g with
    nodes := assign g.nodes v label
    parent := if g.isCompound then assign g.parent v graphNode else g.parent
    children :=
      if g.isCompound then insertIn (assign g.children v []) graphNode v true else g.children
    ins := assign g.ins v []
    preds := assign g.preds v []
    outs := assign g.outs v []
    sucs := assign g.sucs v []
    nodeCount := g.nodeCount+1
  }

def setNode (g : Graph N E) (v : PyStr) (value : Option N) : Graph N E :=
  if v ∈ keys g.nodes then
    match value with
    | some _ => {g with nodes := assign g.nodes v value}
    | none => g
  else g.createNode v (value.or (g.defaultNodeLabel v))

def setNodes (g : Graph N E) (nodeIds : List PyStr) (value : Option N) : Graph N E :=
  nodeIds.foldl (fun g v => g.setNode v value) g

def hasNode (g : Graph N E) (v : PyStr) : Bool := decide (v ∈ keys g.nodes)

/-- `parent`: the synthetic root does not count as a parent. -/
def parentOf (g : Graph N E) (v : PyStr) : Option PyStr :=
  if g.isCompound then (lookup g.parent v).filter (· ≠ graphNode) else none

/-- `children`. -/
def childrenOf (g : Graph N E) (v : PyStr) : List PyStr :=
  if g.isCompound then keys (table g.children v)
  else if v = graphNode then keys g.nodes else []

def removeFromParentsChildList (g : Graph N E) (v : PyStr) : Graph N E :=
  match lookup g.parent v with
  | some p => {g with children := adjust g.children p (remove · v)}
  | none => g

/-- The end of `set_parent`, when the node is there. -/
def attach (g : Graph N E) (v newParent : PyStr) : Graph N E :=
  let g := g.removeFromParentsChildList v
  {g with parent := assign g.parent v newParent, children := insertIn g.children newParent v true}

/-- The part of `set_parent` behind the cycle check. -/
def reparent (g : Graph N E) (v newParent : PyStr) : Graph N E :=
  (g.setNode v none).attach v newParent

/-- The walk of `set_parent` up from the new parent, looking for `v` above it. A walk over
more nodes than have a parent never ends. -/
def walkMeets (g : Graph N E) (v newParent : PyStr) : Option Bool :=
  Forests.meets g.parentOf v (g.parent.length+1) newParent

/-- What a call leaves behind: the message of the exception it raised, and the graph. -/
structure Outcome (N E : Type) where
  raised : Option PyStr
  graph : Graph N E

/-- `set_parent`; `none` stands for a call that never returns. -/
def setParent (g : Graph N E) (v : PyStr) (parent : Option PyStr) : Option (Outcome N E) :=
  if g.isCompound then
    match parent with
    | none => some ⟨none,g.reparent v graphNode⟩
    | some newParent =>
      match g.walkMeets v newParent with
      | none => none
      | some true => some ⟨some (lit "Setting "++newParent++lit " as parent of "++v++
          lit " would create a cycle"),g⟩
      | some false => some ⟨none,(g.setNode newParent none).reparent v newParent⟩
  else some ⟨some (lit "Cannot set parent in a non-compound graph"),g⟩

def setDefaultEdgeLabel (g : Graph N E) (d : DefaultLabel E) : Graph N E :=
  {g with defaultEdgeLabelFn := d}

def defaultEdgeLabel (g : Graph N E) (edgeId : PyStr) : Option E :=
  g.defaultEdgeLabelFn.resolve g.edgeDefault edgeId

def edges (g : Graph N E) : List Edge := g.edgeObjs.map Prod.snd

/-- The end of `set_edge`, when the end points are there. The tables go by the end points
as the caller gave them, the edge object has them in their stored order. -/
def linkEdge (g : Graph N E) (v w : PyStr) (label : Option E) (name : Option PyStr) :
    Graph N E :=
  let e := edgeArgsToId g.isDirected v w name
  let edgeObj := edgeArgsToObj g.isDirected v w name
  { g with
    edgeLabels := assign g.edgeLabels e (label.or (g.defaultEdgeLabel e))
    edgeObjs := assign g.edgeObjs e edgeObj
    preds := adjust g.preds w (incrementOrInitEntry v)
    sucs := adjust g.sucs v (incrementOrInitEntry w)
    ins := insertIn g.ins w e edgeObj
    outs := insertIn g.outs v e edgeObj
    edgeCount := g.edgeCount+1
  }

/-- The part of `set_edge` behind the checks. -/
def createEdge (g : Graph N E) (v w : PyStr) (label : Option E) (name : Option PyStr) :
    Graph N E :=
  ((g.setNode v none).setNode w none).linkEdge v w label name

/-- The label under an edge id is replaced, when a new one is given. -/
def relabel (g : Graph N E) (e : PyStr) (label : Option E) : Graph N E :=
  match label with
  | some _ => {g with edgeLabels := assign g.edgeLabels e label}
  | none => g

def setEdge (g : Graph N E) (v w : PyStr) (label : Option E) (name : Option PyStr) :
    Outcome N E :=
  if edgeArgsToId g.isDirected v w name ∈ keys g.edgeLabels then
    ⟨none,g.relabel (edgeArgsToId g.isDirected v w name) label⟩
  else if name.isSome ∧ g.isMultigraph = false then
    ⟨some (lit "Cannot set a named edge when isMultigraph = false"),g⟩
  else ⟨none,g.createEdge v w label name⟩

/-- The name of the edge object is not passed on. -/
def setEdgeWithObj (g : Graph N E) (e : Edge) (label : Option E) : Outcome N E :=
  g.setEdge e.v e.w label none

def setPath (g : Graph N E) (vs : List PyStr) (value : Option E) : Graph N E :=
  (vs.zip vs.tail).foldl (fun g vw => (g.setEdge vw.1 vw.2 value none).graph) g

/-- `edge`; the outer layer says whether there is such an edge. -/
def edge (g : Graph N E) (v w : PyStr) (name : Option PyStr) : Option (Option E) :=
  lookup g.edgeLabels (edgeArgsToId g.isDirected v w name)

def edgeWithObj (g : Graph N E) (e : Edge) : Option (Option E) :=
  lookup g.edgeLabels (edgeObjToId g.isDirected e)

/-- The caller changes the label that `edge_mut_with_obj` hands out. -/
def edgeMutWithObj (g : Graph N E) (e : Edge) (f : E → E) : Graph N E :=
  {g with edgeLabels := adjust g.edgeLabels (edgeObjToId g.isDirected e) (Option.map f)}

def hasEdge (g : Graph N E) (v w : PyStr) (name : Option PyStr) : Bool :=
  decide (edgeArgsToId g.isDirected v w name ∈ keys g.edgeLabels)

def hasEdgeWithObj (g : Graph N E) (e : Edge) : Bool :=
  decide (edgeObjToId g.isDirected e ∈ keys g.edgeLabels)

/-- The part of `remove_edge` behind the look-up of the edge object. -/
def dropEdge (g : Graph N E) (e : PyStr) (edge : Edge) : Graph N E :=
  { g with
    edgeLabels := remove g.edgeLabels e
    edgeObjs := remove g.edgeObjs e
    preds := adjust g.preds edge.w (decrementOrRemoveEntry edge.v)
    sucs := adjust g.sucs edge.v (decrementOrRemoveEntry edge.w)
    ins := adjust g.ins edge.w (remove · e)
    outs := adjust g.outs edge.v (remove · e)
    edgeCount := g.edgeCount-1
  }

def removeEdge (g : Graph N E) (v w : PyStr) (name : Option PyStr) : Graph N E :=
  match lookup g.edgeObjs (edgeArgsToId g.isDirected v w name) with
  | some edge => g.dropEdge (edgeArgsToId g.isDirected v w name) edge
  | none => g

/-- The name of the edge object is not passed on. -/
def removeEdgeWithObj (g : Graph N E) (e : Edge) : Graph N E := g.removeEdge e.v e.w none

/-- The forest part of `remove_node`: the children of the node move to the root. -/
def leaveForest (g : Graph N E) (v : PyStr) : Graph N E :=
  let g := g.removeFromParentsChildList v
  let g := {g with parent := remove g.parent v}
  let g := (g.childrenOf v).foldl (fun g child => g.reparent child graphNode) g
  {g with children := remove g.children v}

/-- One round of the loops of `remove_node` over the edges at the node. -/
def cascade (g : Graph N E) (edgeId : PyStr) : Graph N E :=
  match lookup g.edgeObjs edgeId with
  | some edge => g.removeEdgeWithObj edge
  | none => g

/-- The loop of `remove_node` over the edges that come in. -/
def dropIns (g : Graph N E) (v : PyStr) : Graph N E :=
  match lookup g.ins v with
  | some inEdges =>
    let g := (keys inEdges).foldl cascade g
    {g with ins := remove g.ins v}
  | none => g

/-- The loop of `remove_node` over the edges that go out. -/
def dropOuts (g : Graph N E) (v : PyStr) : Graph N E :=
  match lookup g.outs v with
  | some outEdges =>
    let g := (keys outEdges).foldl cascade g
    {g with outs := remove g.outs v}
  | none => g

def removeNode (g : Graph N E) (v : PyStr) : Graph N E :=
  if v ∈ keys g.nodes then
    let g := {g with nodes := remove g.nodes v}
    let g := if g.isCompound then g.leaveForest v else g
    let g := g.dropIns v
    let g := {g with preds := remove g.preds v}
    let g := g.dropOuts v
    {g with sucs := remove g.sucs v, nodeCount := g.nodeCount-1}
  else g

/-- `_find_parent`: the closest ancestor that is in the copy, and what has been found out
so far. A walk longer than the parent map goes round for ever. -/
def findParent (g copy : Graph N E) : ℕ → PyStr → List (PyStr × PyStr) →
    Option (Option PyStr × List (PyStr × PyStr))
  | 0, _, _ => none
  | fuel+1, v, parents =>
    match g.parentOf v with
    | none => some (none,parents)
    | some p =>
      if p ∈ keys copy.nodes then some (some p,assign parents v p)
      else match lookup parents p with
        | some memoized => some (some memoized,parents)
        | none => findParent g copy fuel p parents

/-- The loop of `filter_nodes` over the nodes of the copy. -/
def threadParents (g : Graph N E) : List PyStr → List (PyStr × PyStr) → Graph N E →
    Option (Outcome N E)
  | [], _, copy => some ⟨none,copy⟩
  | nodeId::rest, parents, copy =>
    match g.findParent copy (g.parent.length+1) nodeId parents with
    | none => none
    | some (parent,parents) =>
      match copy.setParent nodeId parent with
      | none => none
      | some ⟨some message,copy⟩ => some ⟨some message,copy⟩
      | some ⟨none,copy⟩ => threadParents g rest parents copy

/-- One round of the loop of `filter_nodes` over the edges. -/
def copyEdge (g copy : Graph N E) (e : Edge) : Graph N E :=
  if e.v ∈ keys copy.nodes ∧ e.w ∈ keys copy.nodes ∧ g.hasEdgeWithObj e then
    (copy.setEdgeWithObj e (g.edgeWithObj e).join).graph
  else copy

/-- The nodes of the copy that `filter_nodes` makes. -/
def copyNodes (g : Graph N E) (filter : PyStr → Bool) : Graph N E :=
  (g.nodes.filter fun kv => filter kv.1).foldl (fun copy kv => copy.setNode kv.1 kv.2)
    (new ⟨some g.isDirected,some g.isMultigraph,some g.isCompound⟩ g.nodeDefault g.edgeDefault)

def filterNodes (g : Graph N E) (filter : PyStr → Bool) : Option (Outcome N E) :=
  let copy := g.edges.foldl g.copyEdge (g.copyNodes filter)
  if g.isCompound then g.threadParents (keys copy.nodes) [] copy else some ⟨none,copy⟩

end Graph

end MinimaxCode.GraphLib
