import MinimaxCode.Nesting
import MinimaxCode.PyText

/-!
# The scope graph of a file

Scopes, definitions, imports and references are the nodes of a graph. A scope has an edge to
its parent, a definition or an import to its scope, and a reference to all definitions and
imports that it may mean.
-/

namespace MinimaxCode.ScopeGraphs

open PyText

structure Position where
  line : ℕ
  character : ℕ
  byteOffset : ℕ
  deriving DecidableEq

structure Range where
  startPosition : Position
  endPosition : Position
  deriving DecidableEq

namespace Range

def startByte (r : Range) : ℕ := r.startPosition.byteOffset

def endByte (r : Range) : ℕ := r.endPosition.byteOffset

def startLine (r : Range) : ℕ := r.startPosition.line

def endLine (r : Range) : ℕ := r.endPosition.line

def startColumn (r : Range) : ℕ := r.startPosition.character

def endColumn (r : Range) : ℕ := r.endPosition.character

def containsCheckLineColumn (r other : Range) : Bool :=
  (r.startLine < other.startLine ||
    r.startLine == other.startLine && r.startColumn ≤ other.startColumn) &&
  (other.endLine < r.endLine ||
    r.endLine == other.endLine && other.endColumn ≤ r.endColumn)

def contains (r other : Range) : Bool := r.containsCheckLineColumn other

/-- `src[start_byte : end_byte]`. -/
def slice (src : List UInt8) (r : Range) : List UInt8 := (src.take r.endByte).drop r.startByte

theorem contains_trans (a b d : Range) (hab : a.contains b) (hbd : b.contains d) :
    a.contains d := by
  simp only [contains,containsCheckLineColumn,Bool.and_eq_true,Bool.or_eq_true,decide_eq_true_eq,
    beq_iff_eq] at hab hbd ⊢
  omega

end Range

structure SymbolId where
  namespaceIdx : ℕ
  symbolIdx : ℕ
  deriving DecidableEq

structure LocalScope where
  range : Range
  deriving DecidableEq

structure LocalDef where
  range : Range
  symbolId : Option SymbolId
  scope : LocalScope
  deriving DecidableEq

structure LocalImport where
  range : Range
  deriving DecidableEq

structure Reference where
  range : Range
  symbolId : Option SymbolId
  deriving DecidableEq

inductive NodeKind
  | scope (s : LocalScope)
  | definition (d : LocalDef)
  | imported (i : LocalImport)
  | reference (r : Reference)
  deriving DecidableEq

/-- For a definition the range of its scope. -/
def NodeKind.range : NodeKind → Range
  | .scope s => s.range
  | .definition d => d.scope.range
  | .imported i => i.range
  | .reference r => r.range

inductive EdgeKind
  | scopeToScope
  | defToScope
  | importToScope
  | refToDef
  | refToImport
  deriving DecidableEq

/-- `_DiGraph`: an edge goes from a node to what it belongs to. -/
structure DiGraph where
  nodes : List NodeKind
  outAdj : List (List (ℕ × EdgeKind))
  inAdj : List (List (ℕ × EdgeKind))
  deriving DecidableEq

namespace DiGraph

def empty : DiGraph := ⟨[],[],[]⟩

def addNode (g : DiGraph) (weight : NodeKind) : DiGraph :=
  ⟨g.nodes++[weight],g.outAdj++[[]],g.inAdj++[[]]⟩

def addEdge (g : DiGraph) (a b : ℕ) (weight : EdgeKind) : DiGraph :=
  {g with
    outAdj := g.outAdj.modify a (·++[(b,weight)])
    inAdj := g.inAdj.modify b (·++[(a,weight)])}

def outEdges (g : DiGraph) (idx : ℕ) : List (ℕ × EdgeKind) := g.outAdj.getD idx []

def inEdges (g : DiGraph) (idx : ℕ) : List (ℕ × EdgeKind) := g.inAdj.getD idx []

variable (g : DiGraph) (weight : NodeKind) (a b i : ℕ) (w : EdgeKind)

@[simp] theorem nodes_addNode : (g.addNode weight).nodes = g.nodes++[weight] := rfl

@[simp] theorem nodes_addEdge : (g.addEdge a b w).nodes = g.nodes := rfl

@[simp] theorem length_outAdj_addNode : (g.addNode weight).outAdj.length = g.outAdj.length+1 := by
  simp [addNode]

@[simp] theorem length_inAdj_addNode : (g.addNode weight).inAdj.length = g.inAdj.length+1 := by
  simp [addNode]

@[simp] theorem length_outAdj_addEdge : (g.addEdge a b w).outAdj.length = g.outAdj.length := by
  simp [addEdge]

@[simp] theorem length_inAdj_addEdge : (g.addEdge a b w).inAdj.length = g.inAdj.length := by
  simp [addEdge]

theorem getD_concat_nil {β : Type} (l : List (List β)) (i : ℕ) : (l++[[]]).getD i [] = l.getD i [] := by
  simp only [List.getD_eq_getElem?_getD,List.getElem?_append]
  split
  · rfl
  · next hge =>
    rw [List.getElem?_eq_none (Nat.le_of_not_lt hge)]
    cases h : i-l.length <;> simp

theorem getD_modify_append {β : Type} {l : List (List β)} {j : ℕ} (hj : j < l.length) (x : β)
    (i : ℕ) : (l.modify j (·++[x])).getD i [] = if i = j then l.getD i []++[x] else l.getD i [] := by
  simp only [List.getD_eq_getElem?_getD,List.getElem?_modify]
  by_cases hij : i = j
  · subst hij
    simp [List.getElem?_eq_getElem hj]
  · rw [if_neg hij]
    simp [Ne.symm hij]

@[simp] theorem outEdges_addNode : (g.addNode weight).outEdges i = g.outEdges i :=
  getD_concat_nil g.outAdj i

@[simp] theorem inEdges_addNode : (g.addNode weight).inEdges i = g.inEdges i :=
  getD_concat_nil g.inAdj i

theorem outEdges_addEdge (h : a < g.outAdj.length) :
    (g.addEdge a b w).outEdges i =
      if i = a then g.outEdges i++[(b,w)] else g.outEdges i :=
  getD_modify_append h (b,w) i

theorem inEdges_addEdge (h : b < g.inAdj.length) :
    (g.addEdge a b w).inEdges i =
      if i = b then g.inEdges i++[(a,w)] else g.inEdges i :=
  getD_modify_append h (a,w) i

theorem outEdges_of_le {g : DiGraph} {i : ℕ} (h : g.outAdj.length ≤ i) : g.outEdges i = [] := by
  simp [outEdges,List.getElem?_eq_none h]

end DiGraph

structure ScopeGraph where
  graph : DiGraph
  rootIdx : ℕ
  lang : PyStr
  deriving DecidableEq

namespace ScopeGraph

def new (range : Range) (lang : PyStr) : ScopeGraph :=
  ⟨DiGraph.empty.addNode (.scope ⟨range⟩),0,lang⟩

variable (g : ScopeGraph)

def childScopes (start : ℕ) : List ℕ :=
  ((g.graph.inEdges start).filter fun e => e.2 = .scopeToScope).map Prod.fst

/-- The target of the first edge to a scope. -/
def outScope (start : ℕ) : Option ℕ :=
  ((g.graph.outEdges start).find? fun e => e.2 = .scopeToScope).map Prod.fst

/-- `_scope_by_range`; the depth of the recursion is bounded by the number of nodes. -/
def scopeByRange (range : Range) : ℕ → ℕ → Option ℕ
  | 0,_ => none
  | depth+1,start =>
    match g.graph.nodes[start]? with
    | some node =>
      if node.range.contains range then
        some (((g.childScopes start).findSome? (scopeByRange range depth)).getD start)
      else none
    | none => none

/-- `_scope_by_range` from the root. -/
def definingScope (range : Range) : Option ℕ :=
  g.scopeByRange range g.graph.nodes.length g.rootIdx

/-- A new node with one edge. -/
def attach (node : NodeKind) (target : ℕ) (weight : EdgeKind) : ScopeGraph :=
  {g with graph := (g.graph.addNode node).addEdge g.graph.nodes.length target weight}

def insertLocalScope (new : LocalScope) : ScopeGraph :=
  match g.definingScope new.range with
  | some parentScope => g.attach (.scope new) parentScope .scopeToScope
  | none => g

def parentScope (start : ℕ) : Option ℕ :=
  match g.graph.nodes[start]? with
  | some (.scope _) => g.outScope start
  | _ => none

def insertHoistedDef (new : LocalDef) : ScopeGraph :=
  match g.definingScope new.range with
  | some definingScope =>
    g.attach (.definition new) ((g.parentScope definingScope).getD definingScope) .defToScope
  | none => g

def insertGlobalDef (new : LocalDef) : ScopeGraph :=
  g.attach (.definition new) g.rootIdx .defToScope

def insertLocalDef (new : LocalDef) : ScopeGraph :=
  match g.definingScope new.range with
  | some definingScope => g.attach (.definition new) definingScope .defToScope
  | none => g

def insertLocalImport (new : LocalImport) : ScopeGraph :=
  match g.definingScope new.range with
  | some definingScope => g.attach (.imported new) definingScope .importToScope
  | none => g

/-- `ScopeStack`, at most as long as the graph has nodes. -/
def scopeStack : ℕ → ℕ → List ℕ
  | 0,_ => []
  | n+1,start => start::(g.outScope start).elim [] (scopeStack n)

end ScopeGraph

/-- The names are the same, and where both have a symbol id so are the namespaces. -/
def namesDef (src : List UInt8) (new : Reference) (d : LocalDef) : Bool :=
  new.range.slice src == d.range.slice src &&
    match d.symbolId,new.symbolId with
    | some dSym,some rSym => dSym.namespaceIdx == rSym.namespaceIdx
    | _,_ => true

def namesImport (src : List UInt8) (new : Reference) (i : LocalImport) : Bool :=
  new.range.slice src == i.range.slice src

namespace ScopeGraph

variable (g : ScopeGraph) (src : List UInt8)

def possibleDefs (new : Reference) (scope : ℕ) : List ℕ :=
  (g.graph.inEdges scope).filterMap fun e =>
    match e.2,g.graph.nodes[e.1]? with
    | .defToScope,some (.definition d) => if namesDef src new d then some e.1 else none
    | _,_ => none

def possibleImports (new : Reference) (scope : ℕ) : List ℕ :=
  (g.graph.inEdges scope).filterMap fun e =>
    match e.2,g.graph.nodes[e.1]? with
    | .importToScope,some (.imported i) => if namesImport src new i then some e.1 else none
    | _,_ => none

def addEdges (graph : DiGraph) (refIdx : ℕ) (weight : EdgeKind) (targets : List ℕ) : DiGraph :=
  targets.foldl (fun graph target => graph.addEdge refIdx target weight) graph

def insertRef (new : Reference) : ScopeGraph :=
  let stack := (g.definingScope new.range).elim [] (g.scopeStack g.graph.nodes.length)
  let defs := stack.flatMap (g.possibleDefs src new)
  let imports := stack.flatMap (g.possibleImports src new)
  if defs ≠ [] ∨ imports ≠ [] then
    let refIdx := g.graph.nodes.length
    let graph := addEdges (g.graph.addNode (.reference new)) refIdx .refToDef defs
    {g with graph := addEdges graph refIdx .refToImport imports}
  else g

/-- The first definition that a reference node has an edge to. -/
def defInfo (decode : List UInt8 → PyStr) (idx : ℕ) : Option (PyStr × Range) :=
  (g.graph.outEdges idx).findSome? fun e =>
    match e.2,g.graph.nodes[e.1]? with
    | .refToDef,some (.definition d) => some (decode (d.range.slice src),d.range)
    | _,_ => none

/-- `get_references_with_definitions`; `decode` is `bytes.decode("utf-8", "replace")`. -/
def getReferencesWithDefinitions (decode : List UInt8 → PyStr) :
    List (PyStr × Range × Option (PyStr × Range)) :=
  (List.range g.graph.nodes.length).filterMap fun idx : ℕ =>
    match g.graph.nodes[idx]? with
    | some (.reference r) => some (decode (r.range.slice src),r.range,g.defInfo src decode idx)
    | _ => none

end ScopeGraph

/-- What is inserted before the references. -/
inductive Insert
  | localScope (new : LocalScope)
  | localDef (new : LocalDef)
  | hoistedDef (new : LocalDef)
  | globalDef (new : LocalDef)
  | localImport (new : LocalImport)

namespace ScopeGraph

def insert (g : ScopeGraph) : Insert → ScopeGraph
  | .localScope new => g.insertLocalScope new
  | .localDef new => g.insertLocalDef new
  | .hoistedDef new => g.insertHoistedDef new
  | .globalDef new => g.insertGlobalDef new
  | .localImport new => g.insertLocalImport new

/-- A graph with all that is inserted before the references, and then these. -/
def build (src : List UInt8) (root : Range) (lang : PyStr) (inserts : List Insert)
    (refs : List Reference) : ScopeGraph :=
  refs.foldl (insertRef · src) (inserts.foldl insert (new root lang))

end ScopeGraph

end MinimaxCode.ScopeGraphs
