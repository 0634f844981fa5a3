import MinimaxCode.ScopeGraphs

/-!
# What references resolve to

What a graph means is a list of scopes, and of definitions and imports each with its scope.
Where scopes are nested or disjoint and come outer ones first, a reference is linked to the
definitions and imports of its name in the scopes around it, inner scopes first.
-/

namespace MinimaxCode.ScopeGraphs

open PyText Nesting

/-- The number of nodes, the scopes by their nodes, and the definitions and imports with the
nodes of their scopes. -/
structure Attached where
  size : ℕ
  scopes : List (ℕ × Range)
  defs : List (ℕ × LocalDef)
  imports : List (ℕ × LocalImport)

namespace Attached

def start (root : Range) : Attached := ⟨1,[(0,root)],[],[]⟩

variable (a : Attached)

def innermostScope (r : Range) : Option ℕ := innermost Range.contains a.scopes r

/-- The last but one of the scopes around a range, if there are two. -/
def outerScope (r : Range) : Option ℕ :=
  (around Range.contains a.scopes r).dropLast.getLast?.map Prod.fst

/-- A scope, a local definition or an import belongs to the innermost scope around it, a
hoisted definition to the next one, and a global one to the root. -/
def insert : Insert → Attached
  | .localScope new => match a.innermostScope new.range with
    | some _ => {a with size := a.size+1, scopes := a.scopes++[(a.size,new.range)]}
    | none => a
  | .localDef new => match a.innermostScope new.range with
    | some scope => {a with size := a.size+1, defs := a.defs++[(scope,new)]}
    | none => a
  | .hoistedDef new => match a.innermostScope new.range with
    | some scope =>
      {a with
        size := a.size+1
        defs := a.defs++[((a.outerScope new.range).getD scope,new)]}
    | none => a
  | .globalDef new => {a with size := a.size+1, defs := a.defs++[(0,new)]}
  | .localImport new => match a.innermostScope new.range with
    | some scope => {a with size := a.size+1, imports := a.imports++[(scope,new)]}
    | none => a

/-- The definitions of a scope. -/
def defsOf (scope : ℕ) : List LocalDef := (a.defs.filter fun d => d.1 = scope).map Prod.snd

def importsOf (scope : ℕ) : List LocalImport :=
  (a.imports.filter fun i => i.1 = scope).map Prod.snd

end Attached

/-- A reference with the definitions and imports that it is linked to. -/
structure Resolved where
  reference : Reference
  defs : List LocalDef
  imports : List LocalImport

section Resolution

variable (a : Attached) (src : List UInt8)

/-- The definitions that a reference may mean, inner scopes first. -/
def resolveDefs (new : Reference) : List LocalDef :=
  (around Range.contains a.scopes new.range).reverse.flatMap fun scope =>
    (a.defsOf scope.1).filter (namesDef src new)

def resolveImports (new : Reference) : List LocalImport :=
  (around Range.contains a.scopes new.range).reverse.flatMap fun scope =>
    (a.importsOf scope.1).filter (namesImport src new)

/-- A reference that means nothing is not kept. -/
def resolve (new : Reference) : Option Resolved :=
  if resolveDefs a src new ≠ [] ∨ resolveImports a src new ≠ [] then
    some ⟨new,resolveDefs a src new,resolveImports a src new⟩
  else none

/-- What the query says of a reference: its first definition. -/
def report (decode : List UInt8 → PyStr) (r : Resolved) :
    PyStr × Range × Option (PyStr × Range) :=
  (decode (r.reference.range.slice src),r.reference.range,
    r.defs.head?.map fun d => (decode (d.range.slice src),d.range))

end Resolution

namespace ScopeGraph

variable (g : ScopeGraph)

def definitionOf (idx : ℕ) : Option LocalDef :=
  match g.graph.nodes[idx]? with
  | some (.definition d) => some d
  | _ => none

def importOf (idx : ℕ) : Option LocalImport :=
  match g.graph.nodes[idx]? with
  | some (.imported i) => some i
  | _ => none

/-- The definitions at the ends of the edges of a kind. -/
def defsAt (weight : EdgeKind) (edges : List (ℕ × EdgeKind)) : List LocalDef :=
  (edges.filter fun e => e.2 = weight).filterMap fun e => g.definitionOf e.1

def importsAt (weight : EdgeKind) (edges : List (ℕ × EdgeKind)) : List LocalImport :=
  (edges.filter fun e => e.2 = weight).filterMap fun e => g.importOf e.1

/-- A reference node with what it has edges to. -/
def linkAt (idx : ℕ) : Option Resolved :=
  match g.graph.nodes[idx]? with
  | some (.reference r) =>
    some ⟨r,g.defsAt .refToDef (g.graph.outEdges idx),g.importsAt .refToImport (g.graph.outEdges idx)⟩
  | _ => none

def linked : List Resolved := (List.range g.graph.nodes.length).filterMap g.linkAt

end ScopeGraph

def Insert.range : Insert → Range
  | .localScope new => new.range
  | .localDef new => new.range
  | .hoistedDef new => new.range
  | .globalDef new => new.range
  | .localImport new => new.range

/-- The ranges of the scopes, in their order. -/
def scopesOf (inserts : List Insert) : List Range :=
  inserts.filterMap fun
    | .localScope new => some new.range
    | _ => none

/-- Scopes are inserted outer before inner, and two of them are nested or disjoint: no range
that is inserted lies in both. -/
structure NestedOrDisjoint (inserts : List Insert) (refs : List Reference) : Prop where
  outerFirst : (scopesOf inserts).Pairwise fun s t => t.contains s → s.contains t
  nested : ∀ s ∈ scopesOf inserts, ∀ t ∈ scopesOf inserts, s.contains t ∨ t.contains s ∨
    ∀ r ∈ inserts.map Insert.range++refs.map Reference.range, ¬ (s.contains r ∧ t.contains r)

def attached (root : Range) (inserts : List Insert) : Attached :=
  inserts.foldl Attached.insert (.start root)

/-- References are linked to what they mean, the query reports the first definition, the
scopes around a reference are nested, later ones inner, and the first definition is of the
innermost of them that has one. -/
structure ResolvesInnermost (src : List UInt8) (root : Range) (lang : PyStr)
    (inserts : List Insert) (refs : List Reference) : Prop where
  linked : (ScopeGraph.build src root lang inserts refs).linked =
    refs.filterMap (resolve (attached root inserts) src)
  reported : ∀ decode,
    (ScopeGraph.build src root lang inserts refs).getReferencesWithDefinitions src decode =
      (refs.filterMap (resolve (attached root inserts) src)).map (report src decode)
  chained : ∀ ref ∈ refs, Chained Range.contains (attached root inserts).scopes ref.range
  innermost : ∀ ref d, (resolveDefs (attached root inserts) src ref).head? = some d →
    ∃ s ∈ around Range.contains (attached root inserts).scopes ref.range,
      (s.1,d) ∈ (attached root inserts).defs ∧ namesDef src ref d ∧
      ∀ t ∈ around Range.contains (attached root inserts).scopes ref.range,
        ∀ d', (t.1,d') ∈ (attached root inserts).defs → namesDef src ref d' → t.1 ≤ s.1

/-- The graph has the scopes with their parents, and what is attached to them. -/
structure Sim (g : ScopeGraph) (a : Attached) : Prop where
  rootIdx : g.rootIdx = 0
  nodes : g.graph.nodes.length = a.size
  outAdj : g.graph.outAdj.length = a.size
  inAdj : g.graph.inAdj.length = a.size
  rising : Rising a.scopes
  below : ∀ s ∈ a.scopes, s.1 < a.size
  root : ∃ r rest, a.scopes = (0,r)::rest ∧ ∀ s ∈ rest, r.contains s.2
  scopes : ∀ s ∈ a.scopes, g.graph.nodes[s.1]? = some (.scope ⟨s.2⟩)
  children : ∀ i, g.childScopes i =
    (a.scopes.filter fun s => parent Range.contains a.scopes s = some i).map Prod.fst
  parents : ∀ s ∈ a.scopes, g.outScope s.1 = parent Range.contains a.scopes s
  defs : ∀ i, g.defsAt .defToScope (g.graph.inEdges i) = a.defsOf i
  imports : ∀ i, g.importsAt .importToScope (g.graph.inEdges i) = a.importsOf i
  inBelow : ∀ i, ∀ e ∈ g.graph.inEdges i, e.1 < a.size
  outBelow : ∀ i, ∀ e ∈ g.graph.outEdges i, e.1 < a.size

theorem findSome?_unique {β γ : Type} {f : β → Option γ} {l : List β} {m : γ}
    (hall : ∀ x ∈ l, f x = none ∨ f x = some m) (hex : ∃ x ∈ l, f x = some m) :
    l.findSome? f = some m := by
  induction l with
  | nil => simp at hex
  | cons x l ih =>
    rw [List.findSome?_cons]
    obtain hx | hx := hall x List.mem_cons_self
    · rw [hx]
      apply ih fun y hy => hall y (List.mem_cons_of_mem x hy)
      obtain ⟨y,hy,hfy⟩ := hex
      obtain rfl | hy := List.mem_cons.mp hy
      · rw [hx] at hfy
        cases hfy
      · exact ⟨y,hy,hfy⟩
    · rw [hx]

section Lookup

variable {g : ScopeGraph} {a : Attached} {r : Range}

theorem scopeByRange_outside (hs : Sim g a) {s : ℕ × Range} (hmem : s ∈ a.scopes)
    (hout : s.2.contains r = false) (depth : ℕ) : g.scopeByRange r depth s.1 = none := by
  cases depth with
  | zero => rfl
  | succ depth => simp [ScopeGraph.scopeByRange,hs.scopes s hmem,NodeKind.range,hout]

theorem scopeByRange_chain (hs : Sim g a) (hchain : Chained Range.contains a.scopes r)
    {pre post : List (ℕ × Range)} {t : ℕ × Range} {depth : ℕ}
    (h : around Range.contains a.scopes r = pre++t::post) (hdepth : post.length < depth) :
    g.scopeByRange r depth t.1 = ((t::post).getLast?).map Prod.fst := by
  induction post generalizing pre t depth with
  | nil =>
    obtain ⟨ht,htr⟩ := mem_around.mp (h ▸ List.mem_append_right pre List.mem_cons_self :
      t ∈ around Range.contains a.scopes r)
    obtain ⟨depth,rfl⟩ : ∃ d, depth = d+1 := ⟨depth-1,by simp at hdepth; omega⟩
    have hnone : (g.childScopes t.1).findSome? (g.scopeByRange r depth) = none := by
      rw [List.findSome?_eq_none_iff,hs.children]
      intro idx hidx
      obtain ⟨s,hsmem,rfl⟩ := List.mem_map.mp hidx
      obtain ⟨hsfam,hparent⟩ := List.mem_filter.mp hsmem
      rw [decide_eq_true_eq] at hparent
      apply scopeByRange_outside hs hsfam
      -- a child around the range would be a later member of the chain
      by_contra hsr
      rw [Bool.not_eq_false] at hsr
      have hlt := (parent_spec Range.contains_trans hs.rising hchain hsfam hsr hparent).1
      have hsa : s ∈ pre++[t] := h ▸ mem_around.mpr ⟨hsfam,hsr⟩
      have hlast : (pre++[t]).getLast?.map Prod.fst = some t.1 := by simp
      have hle := le_last (h ▸ hs.rising.around r) hlast hsa
      exact absurd hlt (Nat.not_lt.mpr hle)
    simp [ScopeGraph.scopeByRange,hs.scopes t ht,NodeKind.range,htr,hnone]
  | cons u post ih =>
    have hmem : ∀ s ∈ pre++t::u::post, s ∈ a.scopes ∧ s.2.contains r :=
      fun s hsmem => mem_around.mp (h ▸ hsmem)
    obtain ⟨ht,htr⟩ := hmem t (by simp)
    obtain ⟨hu,hur⟩ := hmem u (by simp)
    obtain ⟨depth,rfl⟩ : ∃ d, depth = d+1 := ⟨depth-1,by simp at hdepth; omega⟩
    have hnext : around Range.contains a.scopes r = (pre++[t])++u::post := by simpa using h
    have hfound : g.scopeByRange r depth u.1 = ((u::post).getLast?).map Prod.fst :=
      ih hnext (by simpa using hdepth)
    obtain ⟨l,hl⟩ : ∃ l, (u::post).getLast? = some l := ⟨_,List.getLast?_eq_some_getLast (by simp)⟩
    rw [hl,Option.map_some] at hfound
    have hrising : Rising (pre++t::u::post) := h ▸ hs.rising.around r
    have hchild : (g.childScopes t.1).findSome? (g.scopeByRange r depth) = some l.1 := by
      rw [hs.children]
      apply findSome?_unique
      · intro idx hidx
        obtain ⟨s,hsmem,rfl⟩ := List.mem_map.mp hidx
        obtain ⟨hsfam,hparent⟩ := List.mem_filter.mp hsmem
        rw [decide_eq_true_eq] at hparent
        by_cases hsr : s.2.contains r = true
        · -- the only member of the chain whose parent is this one is the next one
          obtain ⟨hlt,hmax⟩ := parent_spec Range.contains_trans hs.rising hchain hsfam hsr hparent
          have htu : t.1 < u.1 := (List.pairwise_cons.mp
            (List.pairwise_append.mp hrising).2.1).1 u List.mem_cons_self
          have hsu : s.1 ≤ u.1 := by
            by_contra hgt
            have hle := hmax u (mem_around.mpr ⟨hu,hur⟩) (Nat.lt_of_not_le hgt)
            omega
          have hsa : s ∈ pre++t::u::post := h ▸ mem_around.mpr ⟨hsfam,hsr⟩
          have heq : s.1 = u.1 := by
            obtain hpre | htail := List.mem_append.mp hsa
            · have := (List.pairwise_append.mp hrising).2.2 s hpre t List.mem_cons_self
              omega
            · obtain rfl | htail := List.mem_cons.mp htail
              · omega
              · obtain rfl | htail := List.mem_cons.mp htail
                · rfl
                · have := (List.pairwise_cons.mp (List.pairwise_cons.mp
                    (List.pairwise_append.mp hrising).2.1).2).1 s htail
                  omega
          right
          rw [heq,hfound]
        · left
          exact scopeByRange_outside hs hsfam (by simpa using hsr) depth
      · refine ⟨u.1,List.mem_map.mpr ⟨u,List.mem_filter.mpr ⟨hu,?_⟩,rfl⟩,hfound⟩
        rw [decide_eq_true_eq,parent_of_chain Range.contains_trans hs.rising hchain hnext]
        simp
    have hlast : (t::u::post).getLast? = some l := by rw [List.getLast?_cons_cons,hl]
    rw [hlast]
    simp [ScopeGraph.scopeByRange,hs.scopes t ht,NodeKind.range,htr,hchild]

theorem definingScope_eq (hs : Sim g a) (hchain : Chained Range.contains a.scopes r) :
    g.definingScope r = a.innermostScope r := by
  obtain ⟨root,rest,hscopes,hcovered⟩ := hs.root
  have hroot : (0,root) ∈ a.scopes := hscopes ▸ List.mem_cons_self
  rw [ScopeGraph.definingScope,hs.rootIdx,hs.nodes,Attached.innermostScope,innermost]
  by_cases hin : root.contains r = true
  · have haround : around Range.contains a.scopes r = []++(0,root)::around Range.contains rest r := by
      simp [around,hscopes,hin]
    have hlength := hs.rising.length_le hs.below
    have hle : (around Range.contains rest r).length ≤ rest.length := List.length_filter_le _ _
    rw [scopeByRange_chain hs hchain haround (by simp [hscopes] at hlength; omega),haround]
    rfl
  · rw [Bool.not_eq_true] at hin
    have hnone : around Range.contains a.scopes r = [] := by
      rw [around,List.filter_eq_nil_iff]
      intro s hsmem hsr
      rw [hscopes] at hsmem
      obtain rfl | hrest := List.mem_cons.mp hsmem
      · rw [hin] at hsr
        cases hsr
      · rw [Range.contains_trans _ _ _ (hcovered s hrest) hsr] at hin
        cases hin
    rw [hnone]
    exact scopeByRange_outside hs hroot hin _

theorem scopeStack_chain (hs : Sim g a) (hchain : Chained Range.contains a.scopes r)
    {pre post : List (ℕ × Range)} {t : ℕ × Range} {n : ℕ}
    (h : around Range.contains a.scopes r = pre++t::post) (hn : pre.length < n) :
    g.scopeStack n t.1 = ((pre++[t]).reverse).map Prod.fst := by
  induction pre using List.reverseRecOn generalizing t post n with
  | nil =>
    obtain ⟨n,rfl⟩ : ∃ m, n = m+1 := ⟨n-1,by simp at hn; omega⟩
    have ht : t ∈ a.scopes := (mem_around.mp (h ▸ by simp :
      t ∈ around Range.contains a.scopes r)).1
    rw [ScopeGraph.scopeStack,hs.parents t ht,
      parent_of_chain Range.contains_trans hs.rising hchain h]
    rfl
  | append_singleton pre u ih =>
    obtain ⟨n,rfl⟩ : ∃ m, n = m+1 := ⟨n-1,by simp at hn; omega⟩
    have ht : t ∈ a.scopes := (mem_around.mp (h ▸ by simp :
      t ∈ around Range.contains a.scopes r)).1
    have hbefore : around Range.contains a.scopes r = pre++u::(t::post) := by simpa using h
    rw [ScopeGraph.scopeStack,hs.parents t ht,
      parent_of_chain Range.contains_trans hs.rising hchain h]
    simp only [List.getLast?_append,List.getLast?_singleton,Option.some_or,Option.map_some,
      Option.elim_some]
    rw [ih hbefore (by simpa using hn)]
    simp

theorem stack_eq (hs : Sim g a) (hchain : Chained Range.contains a.scopes r) :
    (g.definingScope r).elim [] (g.scopeStack g.graph.nodes.length) =
      (around Range.contains a.scopes r).reverse.map Prod.fst := by
  rw [definingScope_eq hs hchain,Attached.innermostScope,innermost,hs.nodes]
  cases hlast : (around Range.contains a.scopes r).getLast? with
  | none =>
    rw [List.getLast?_eq_none_iff.mp hlast]
    rfl
  | some t =>
    obtain ⟨pre,h⟩ := List.getLast?_eq_some_iff.mp hlast
    have hlength := hs.rising.length_le hs.below
    have hle : (around Range.contains a.scopes r).length ≤ a.scopes.length :=
      List.length_filter_le _ _
    rw [Option.map_some,Option.elim_some,
      scopeStack_chain hs hchain h (by simp [h] at hle; omega),h]

end Lookup

section Attach

variable {g : ScopeGraph} {a : Attached} {node : NodeKind} {target : ℕ} {weight : EdgeKind}

theorem inEdges_attach (hs : Sim g a) (htarget : target < a.size) (i : ℕ) :
    (g.attach node target weight).graph.inEdges i =
      if i = target then g.graph.inEdges i++[(a.size,weight)] else g.graph.inEdges i := by
  rw [ScopeGraph.attach,DiGraph.inEdges_addEdge _ _ _ _ _ (by simp [hs.inAdj]; omega),
    DiGraph.inEdges_addNode,hs.nodes]

theorem outEdges_attach (hs : Sim g a) (i : ℕ) :
    (g.attach node target weight).graph.outEdges i =
      if i = a.size then [(target,weight)] else g.graph.outEdges i := by
  rw [ScopeGraph.attach,DiGraph.outEdges_addEdge _ _ _ _ _ (by simp [hs.outAdj,hs.nodes]),
    DiGraph.outEdges_addNode,hs.nodes]
  by_cases hi : i = a.size
  · rw [if_pos hi,if_pos hi,DiGraph.outEdges_of_le (by rw [hs.outAdj,hi]),List.nil_append]
  · rw [if_neg hi,if_neg hi]

theorem getElem?_attach (hs : Sim g a) {i : ℕ} (hi : i < a.size) :
    (g.attach node target weight).graph.nodes[i]? = g.graph.nodes[i]? := by
  simp only [ScopeGraph.attach,DiGraph.nodes_addEdge,DiGraph.nodes_addNode]
  exact List.getElem?_append_left (by rwa [hs.nodes])

theorem getElem?_attach_new (hs : Sim g a) :
    (g.attach node target weight).graph.nodes[a.size]? = some node := by
  simp [ScopeGraph.attach,← hs.nodes]

theorem defsAt_congr {k : ScopeGraph} {edges : List (ℕ × EdgeKind)} (w : EdgeKind)
    (h : ∀ e ∈ edges, k.graph.nodes[e.1]? = g.graph.nodes[e.1]?) :
    k.defsAt w edges = g.defsAt w edges ∧ k.importsAt w edges = g.importsAt w edges := by
  constructor
  · apply List.filterMap_congr
    intro e he
    simp only [ScopeGraph.definitionOf,h e (List.mem_filter.mp he).1]
  · apply List.filterMap_congr
    intro e he
    simp only [ScopeGraph.importOf,h e (List.mem_filter.mp he).1]

theorem defsAt_attach (hs : Sim g a) (htarget : target < a.size) (w : EdgeKind) (i : ℕ) :
    (g.attach node target weight).defsAt w ((g.attach node target weight).graph.inEdges i) =
      g.defsAt w (g.graph.inEdges i)++
        if i = target ∧ weight = w then
          ((g.attach node target weight).definitionOf a.size).toList else [] := by
  have hold := (defsAt_congr (k := g.attach node target weight) (g := g) w
    fun e he => getElem?_attach hs (hs.inBelow i e he)).1
  rw [inEdges_attach hs htarget,← hold]
  by_cases hi : i = target
  · subst hi
    by_cases hw : weight = w
    · cases h : (g.attach node i weight).definitionOf a.size <;>
        simp [ScopeGraph.defsAt,hw]
      all_goals simp [← hw,h]
    · simp [ScopeGraph.defsAt,hw]
  · simp [hi]

theorem importsAt_attach (hs : Sim g a) (htarget : target < a.size) (w : EdgeKind) (i : ℕ) :
    (g.attach node target weight).importsAt w ((g.attach node target weight).graph.inEdges i) =
      g.importsAt w (g.graph.inEdges i)++
        if i = target ∧ weight = w then
          ((g.attach node target weight).importOf a.size).toList else [] := by
  have hold := (defsAt_congr (k := g.attach node target weight) (g := g) w
    fun e he => getElem?_attach hs (hs.inBelow i e he)).2
  rw [inEdges_attach hs htarget,← hold]
  by_cases hi : i = target
  · subst hi
    by_cases hw : weight = w
    · cases h : (g.attach node i weight).importOf a.size <;>
        simp [ScopeGraph.importsAt,hw]
      all_goals simp [← hw,h]
    · simp [ScopeGraph.importsAt,hw]
  · simp [hi]

theorem childScopes_attach (hs : Sim g a) (htarget : target < a.size) (i : ℕ) :
    (g.attach node target weight).childScopes i =
      g.childScopes i++if i = target ∧ weight = .scopeToScope then [a.size] else [] := by
  rw [ScopeGraph.childScopes,inEdges_attach hs htarget,ScopeGraph.childScopes]
  by_cases hi : i = target
  · by_cases hw : weight = .scopeToScope <;> simp [hi,hw]
  · simp [hi]

theorem outScope_attach (hs : Sim g a) {i : ℕ} (hi : i < a.size) :
    (g.attach node target weight).outScope i = g.outScope i := by
  rw [ScopeGraph.outScope,outEdges_attach hs,if_neg (Nat.ne_of_lt hi),ScopeGraph.outScope]

theorem sim_attach (hs : Sim g a) (htarget : target < a.size) (hweight : weight ≠ .scopeToScope)
    {defs : List (ℕ × LocalDef)} {imports : List (ℕ × LocalImport)}
    (hdefs : ∀ i, (g.attach node target weight).defsAt .defToScope
      ((g.attach node target weight).graph.inEdges i) =
        Attached.defsOf ⟨a.size+1,a.scopes,defs,imports⟩ i)
    (himports : ∀ i, (g.attach node target weight).importsAt .importToScope
      ((g.attach node target weight).graph.inEdges i) =
        Attached.importsOf ⟨a.size+1,a.scopes,defs,imports⟩ i) :
    Sim (g.attach node target weight) ⟨a.size+1,a.scopes,defs,imports⟩ where
  rootIdx := hs.rootIdx
  nodes := by simp [ScopeGraph.attach,hs.nodes]
  outAdj := by simp [ScopeGraph.attach,hs.outAdj]
  inAdj := by simp [ScopeGraph.attach,hs.inAdj]
  rising := hs.rising
  below := fun s hmem => Nat.lt_succ_of_lt (hs.below s hmem)
  root := hs.root
  scopes := fun s hmem => by rw [getElem?_attach hs (hs.below s hmem),hs.scopes s hmem]
  children := fun i => by rw [childScopes_attach hs htarget]; simp [hweight,hs.children]
  parents := fun s hmem => by rw [outScope_attach hs (hs.below s hmem),hs.parents s hmem]
  defs := hdefs
  imports := himports
  inBelow := by
    intro i e he
    rw [inEdges_attach hs htarget] at he
    split at he
    · obtain he | he := List.mem_append.mp he
      · exact Nat.lt_succ_of_lt (hs.inBelow i e he)
      · rw [List.mem_singleton.mp he]
        exact Nat.lt_succ_self _
    · exact Nat.lt_succ_of_lt (hs.inBelow i e he)
  outBelow := by
    intro i e he
    rw [outEdges_attach hs] at he
    split at he
    · rw [List.mem_singleton.mp he]
      exact Nat.lt_succ_of_lt htarget
    · exact Nat.lt_succ_of_lt (hs.outBelow i e he)

theorem sim_attachDef (hs : Sim g a) (htarget : target < a.size) (d : LocalDef) :
    Sim (g.attach (.definition d) target .defToScope)
      {a with size := a.size+1, defs := a.defs++[(target,d)]} := by
  apply sim_attach hs htarget (by simp)
  · intro i
    rw [defsAt_attach hs htarget,hs.defs,ScopeGraph.definitionOf,getElem?_attach_new hs]
    by_cases hi : i = target
    · simp [Attached.defsOf,hi]
    · simp [Attached.defsOf,hi,Ne.symm hi]
  · intro i
    rw [importsAt_attach hs htarget,hs.imports]
    simp [Attached.importsOf]

theorem sim_attachImport (hs : Sim g a) (htarget : target < a.size) (new : LocalImport) :
    Sim (g.attach (.imported new) target .importToScope)
      {a with size := a.size+1, imports := a.imports++[(target,new)]} := by
  apply sim_attach hs htarget (by simp)
  · intro i
    rw [defsAt_attach hs htarget,hs.defs]
    simp [Attached.defsOf]
  · intro i
    rw [importsAt_attach hs htarget,hs.imports,ScopeGraph.importOf,getElem?_attach_new hs]
    by_cases hi : i = target
    · simp [Attached.importsOf,hi]
    · simp [Attached.importsOf,hi,Ne.symm hi]

theorem innermostScope_spec {r : Range} (h : a.innermostScope r = some target) :
    ∃ s ∈ a.scopes, s.1 = target ∧ s.2.contains r := by
  obtain ⟨s,hs,rfl⟩ := Option.map_eq_some_iff.mp h
  obtain ⟨hmem,hsr⟩ := mem_around.mp (List.mem_of_getLast? hs)
  exact ⟨s,hmem,rfl,hsr⟩

theorem sim_attachScope (hs : Sim g a) {r : Range} (h : a.innermostScope r = some target) :
    Sim (g.attach (.scope ⟨r⟩) target .scopeToScope)
      {a with size := a.size+1, scopes := a.scopes++[(a.size,r)]} := by
  obtain ⟨around,haround,rfl,hcontains⟩ := innermostScope_spec h
  have htarget := hs.below around haround
  have hparent : ∀ s ∈ a.scopes, parent Range.contains (a.scopes++[(a.size,r)]) s =
      parent Range.contains a.scopes s :=
    fun s hmem => parent_append (Nat.le_of_lt (hs.below s hmem))
  have hnew : parent Range.contains (a.scopes++[(a.size,r)]) (a.size,r) = some around.1 := by
    rw [parent_new hs.below]
    exact h
  obtain ⟨root,rest,hscopes,hcovered⟩ := hs.root
  constructor
  case rootIdx => exact hs.rootIdx
  case nodes => simp [ScopeGraph.attach,hs.nodes]
  case outAdj => simp [ScopeGraph.attach,hs.outAdj]
  case inAdj => simp [ScopeGraph.attach,hs.inAdj]
  case rising =>
    apply List.pairwise_append.mpr ⟨hs.rising,List.pairwise_singleton _ _,?_⟩
    intro s hmem t ht
    rw [List.mem_singleton.mp ht]
    exact hs.below s hmem
  case below =>
    intro s hmem
    obtain hmem | heq := List.mem_append.mp hmem
    · exact Nat.lt_succ_of_lt (hs.below s hmem)
    · rw [List.mem_singleton.mp heq]
      exact Nat.lt_succ_self _
  case root =>
    refine ⟨root,rest++[(a.size,r)],by simp [hscopes],fun s hmem => ?_⟩
    obtain hmem | heq := List.mem_append.mp hmem
    · exact hcovered s hmem
    · rw [List.mem_singleton.mp heq]
      rw [hscopes] at haround
      obtain rfl | hrest := List.mem_cons.mp haround
      · exact hcontains
      · exact Range.contains_trans _ _ _ (hcovered around hrest) hcontains
  case scopes =>
    intro s hmem
    obtain hmem | heq := List.mem_append.mp hmem
    · rw [getElem?_attach hs (hs.below s hmem),hs.scopes s hmem]
    · rw [List.mem_singleton.mp heq]
      exact getElem?_attach_new hs
  case children =>
    intro i
    have hold : (a.scopes.filter fun s =>
        parent Range.contains (a.scopes++[(a.size,r)]) s = some i) =
        a.scopes.filter fun s => parent Range.contains a.scopes s = some i := by
      apply List.filter_congr
      intro s hmem
      rw [hparent s hmem]
    rw [childScopes_attach hs htarget,hs.children,List.filter_append,hold,List.map_append]
    congr 1
    by_cases hi : i = around.1
    · simp [hi,hnew]
    · simp [hi,hnew,Ne.symm hi]
  case parents =>
    intro s hmem
    obtain hmem | heq := List.mem_append.mp hmem
    · rw [outScope_attach hs (hs.below s hmem),hs.parents s hmem,hparent s hmem]
    · rw [List.mem_singleton.mp heq,hnew,ScopeGraph.outScope,outEdges_attach hs,if_pos rfl]
      rfl
  case defs =>
    intro i
    rw [defsAt_attach hs htarget,hs.defs]
    simp [Attached.defsOf]
  case imports =>
    intro i
    rw [importsAt_attach hs htarget,hs.imports]
    simp [Attached.importsOf]
  case inBelow =>
    intro i e he
    rw [inEdges_attach hs htarget] at he
    split at he
    · obtain he | he := List.mem_append.mp he
      · exact Nat.lt_succ_of_lt (hs.inBelow i e he)
      · rw [List.mem_singleton.mp he]
        exact Nat.lt_succ_self _
    · exact Nat.lt_succ_of_lt (hs.inBelow i e he)
  case outBelow =>
    intro i e he
    rw [outEdges_attach hs] at he
    split at he
    · rw [List.mem_singleton.mp he]
      exact Nat.lt_succ_of_lt htarget
    · exact Nat.lt_succ_of_lt (hs.outBelow i e he)

end Attach

end MinimaxCode.ScopeGraphs
