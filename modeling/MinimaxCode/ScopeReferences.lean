import MinimaxCode.ScopeResolution

/-!
# References over whole runs

The insertions keep the graph to its meaning, and with every scope around an inserted range
in a chain the references are linked to what they mean.
-/

namespace MinimaxCode.ScopeGraphs

open PyText Nesting

theorem sim_start (root : Range) (lang : PyStr) : Sim (.new root lang) (.start root) := by
  have hin : ∀ i, (ScopeGraph.new root lang).graph.inEdges i = [] := by
    intro i
    rw [ScopeGraph.new,DiGraph.inEdges_addNode]
    rfl
  have hout : ∀ i, (ScopeGraph.new root lang).graph.outEdges i = [] := by
    intro i
    rw [ScopeGraph.new,DiGraph.outEdges_addNode]
    rfl
  constructor
  case rootIdx => rfl
  case nodes => rfl
  case outAdj => rfl
  case inAdj => rfl
  case rising => exact List.pairwise_singleton _ _
  case below => simp [Attached.start]
  case root => exact ⟨root,[],rfl,by simp⟩
  case scopes => simp [Attached.start,ScopeGraph.new,DiGraph.empty]
  case children =>
    intro i
    simp [ScopeGraph.childScopes,hin,Attached.start,parent,innermost,around]
  case parents =>
    intro s hmem
    obtain rfl := List.mem_singleton.mp hmem
    simp [ScopeGraph.outScope,hout,Attached.start,parent,innermost,around]
  case defs =>
    intro i
    rw [hin]
    rfl
  case imports =>
    intro i
    rw [hin]
    rfl
  case inBelow =>
    intro i e he
    rw [hin] at he
    cases he
  case outBelow =>
    intro i e he
    rw [hout] at he
    cases he

section Insertions

variable {g : ScopeGraph} {a : Attached}

theorem parentScope_innermost (hs : Sim g a) {r : Range}
    (hchain : Chained Range.contains a.scopes r) {scope : ℕ}
    (h : a.innermostScope r = some scope) : g.parentScope scope = a.outerScope r := by
  obtain ⟨s,hlast,rfl⟩ := Option.map_eq_some_iff.mp h
  obtain ⟨pre,hpre⟩ := List.getLast?_eq_some_iff.mp hlast
  have hmem : s ∈ a.scopes := (mem_around.mp (List.mem_of_getLast? hlast)).1
  rw [ScopeGraph.parentScope,hs.scopes s hmem,Attached.outerScope,hpre,List.dropLast_concat]
  exact (hs.parents s hmem).trans (parent_of_chain Range.contains_trans hs.rising hchain hpre)

theorem outerScope_lt (hs : Sim g a) {r : Range} {scope : ℕ}
    (h : a.innermostScope r = some scope) : (a.outerScope r).getD scope < a.size := by
  cases houter : a.outerScope r with
  | none =>
    obtain ⟨s,hmem,rfl,-⟩ := innermostScope_spec h
    exact hs.below s hmem
  | some outer =>
    obtain ⟨s,hlast,rfl⟩ := Option.map_eq_some_iff.mp houter
    exact hs.below s (mem_around.mp (List.mem_of_mem_dropLast (List.mem_of_getLast? hlast))).1

theorem sim_insert (hs : Sim g a) (op : Insert)
    (hchain : Chained Range.contains a.scopes op.range) : Sim (g.insert op) (a.insert op) := by
  have hbelow : ∀ scope, a.innermostScope op.range = some scope → scope < a.size := by
    intro scope h
    obtain ⟨s,hmem,rfl,-⟩ := innermostScope_spec h
    exact hs.below s hmem
  cases op with
  | localScope new =>
    have hfound : g.definingScope new.range = _ := definingScope_eq hs hchain
    rw [ScopeGraph.insert,ScopeGraph.insertLocalScope,Attached.insert]
    cases h : a.innermostScope new.range with
    | none => simpa [hfound.trans h] using hs
    | some scope => simpa [hfound.trans h] using sim_attachScope hs h
  | localDef new =>
    have hfound : g.definingScope new.range = _ := definingScope_eq hs hchain
    rw [ScopeGraph.insert,ScopeGraph.insertLocalDef,Attached.insert]
    cases h : a.innermostScope new.range with
    | none => simpa [hfound.trans h] using hs
    | some scope => simpa [hfound.trans h] using sim_attachDef hs (hbelow scope h) new
  | hoistedDef new =>
    have hfound : g.definingScope new.range = _ := definingScope_eq hs hchain
    have habove : ∀ scope, a.innermostScope new.range = some scope →
        g.parentScope scope = a.outerScope new.range := fun _ => parentScope_innermost hs hchain
    rw [ScopeGraph.insert,ScopeGraph.insertHoistedDef,Attached.insert]
    cases h : a.innermostScope new.range with
    | none => simpa [hfound.trans h] using hs
    | some scope =>
      simpa [hfound.trans h,habove scope h] using sim_attachDef hs (outerScope_lt hs h) new
  | globalDef new =>
    obtain ⟨root,rest,hscopes,-⟩ := hs.root
    have hroot : 0 < a.size := hs.below (0,root) (hscopes ▸ List.mem_cons_self)
    rw [ScopeGraph.insert,ScopeGraph.insertGlobalDef,Attached.insert,hs.rootIdx]
    exact sim_attachDef hs hroot new
  | localImport new =>
    have hfound : g.definingScope new.range = _ := definingScope_eq hs hchain
    rw [ScopeGraph.insert,ScopeGraph.insertLocalImport,Attached.insert]
    cases h : a.innermostScope new.range with
    | none => simpa [hfound.trans h] using hs
    | some scope => simpa [hfound.trans h] using sim_attachImport hs (hbelow scope h) new

end Insertions

theorem attached_concat (root : Range) (inserts : List Insert) (op : Insert) :
    attached root (inserts++[op]) = (attached root inserts).insert op := by
  simp [attached]

theorem scopes_attached (root : Range) (inserts : List Insert) :
    ((attached root inserts).scopes.map Prod.snd).Sublist (root::scopesOf inserts) := by
  induction inserts using List.reverseRecOn with
  | nil => exact List.Sublist.refl _
  | append_singleton inserts op ih =>
    have hgrow : (root::scopesOf inserts).Sublist (root::scopesOf (inserts++[op])) := by
      rw [scopesOf,scopesOf,List.filterMap_append]
      exact (List.sublist_append_left _ _).cons_cons root
    rw [attached_concat]
    cases op with
    | localScope new =>
      rw [Attached.insert]
      split
      · simpa [scopesOf] using ih.append_right [new.range]
      · exact ih.trans hgrow
    | localDef new => rw [Attached.insert]; split <;> exact ih.trans hgrow
    | hoistedDef new => rw [Attached.insert]; split <;> exact ih.trans hgrow
    | globalDef new => exact ih.trans hgrow
    | localImport new => rw [Attached.insert]; split <;> exact ih.trans hgrow

variable {a : Attached} {refs : List Reference}

theorem NestedOrDisjoint.chained {inserts : List Insert}
    (h : NestedOrDisjoint inserts refs) {g : ScopeGraph} (hs : Sim g a)
    {root : Range} (hsub : (a.scopes.map Prod.snd).Sublist (root::scopesOf inserts)) {r : Range}
    (hr : r ∈ inserts.map Insert.range++refs.map Reference.range) :
    Chained Range.contains a.scopes r := by
  obtain ⟨first,rest,hscopes,hcovered⟩ := hs.root
  rw [hscopes,List.map_cons] at hsub
  have htail : (rest.map Prod.snd).Sublist (scopesOf inserts) := hsub.tail
  have hin : ∀ s ∈ rest, s.2 ∈ scopesOf inserts :=
    fun s hmem => htail.subset (List.mem_map_of_mem hmem)
  have hself : first.contains first := by simp [Range.contains,Range.containsCheckLineColumn]
  have hrising := hs.rising
  rw [hscopes] at hrising ⊢
  apply chained_of_nested hrising
  · apply List.pairwise_cons.mpr ⟨fun t ht _ => hcovered t ht,?_⟩
    exact List.pairwise_map.mp (h.outerFirst.sublist htail)
  · intro s hsmem t htmem
    obtain rfl | hsrest := List.mem_cons.mp hsmem
    · obtain rfl | htrest := List.mem_cons.mp htmem
      · exact Or.inl hself
      · exact Or.inl (hcovered t htrest)
    · obtain rfl | htrest := List.mem_cons.mp htmem
      · exact Or.inr (Or.inl (hcovered s hsrest))
      · obtain hst | hts | hapart := h.nested s.2 (hin s hsrest) t.2 (hin t htrest)
        · exact Or.inl hst
        · exact Or.inr (Or.inl hts)
        · exact Or.inr (Or.inr (hapart r hr))

theorem sim_attached (root : Range) (lang : PyStr) {inserts : List Insert}
    (h : NestedOrDisjoint inserts refs) {done rest : List Insert} (hsplit : inserts = done++rest) :
    Sim (done.foldl ScopeGraph.insert (.new root lang)) (attached root done) := by
  induction done using List.reverseRecOn generalizing rest with
  | nil => exact sim_start root lang
  | append_singleton done op ih =>
    have hbefore : Sim (done.foldl ScopeGraph.insert (.new root lang)) (attached root done) :=
      ih (hsplit.trans (List.append_assoc done [op] rest))
    have hsub : (scopesOf done).Sublist (scopesOf inserts) := by
      rw [hsplit,scopesOf,scopesOf,List.filterMap_append,List.filterMap_append,List.append_assoc]
      exact List.sublist_append_left _ _
    rw [List.foldl_append,attached_concat]
    apply sim_insert hbefore
    apply h.chained hbefore ((scopes_attached root done).trans (hsub.cons_cons root))
    simp [hsplit]

section Edges

variable {d : DiGraph} {refIdx : ℕ} (w : EdgeKind)

theorem nodes_addEdges (targets : List ℕ) (d : DiGraph) :
    (ScopeGraph.addEdges d refIdx w targets).nodes = d.nodes ∧
      (ScopeGraph.addEdges d refIdx w targets).outAdj.length = d.outAdj.length ∧
      (ScopeGraph.addEdges d refIdx w targets).inAdj.length = d.inAdj.length := by
  induction targets generalizing d with
  | nil => exact ⟨rfl,rfl,rfl⟩
  | cons target targets ih => simpa [ScopeGraph.addEdges] using ih (d.addEdge refIdx target w)

theorem outEdges_addEdges (hrefIdx : refIdx < d.outAdj.length) (targets : List ℕ) (i : ℕ) :
    (ScopeGraph.addEdges d refIdx w targets).outEdges i =
      d.outEdges i++if i = refIdx then targets.map (·,w) else [] := by
  induction targets generalizing d with
  | nil => simp [ScopeGraph.addEdges]
  | cons target targets ih =>
    have hnext := ih (d := d.addEdge refIdx target w) (by simpa using hrefIdx)
    rw [DiGraph.outEdges_addEdge _ _ _ _ _ hrefIdx] at hnext
    refine hnext.trans ?_
    by_cases hi : i = refIdx <;> simp [hi]

theorem inEdges_addEdges {targets : List ℕ} (htargets : ∀ t ∈ targets, t < d.inAdj.length)
    (i : ℕ) : (ScopeGraph.addEdges d refIdx w targets).inEdges i =
      d.inEdges i++(targets.filter (· = i)).map fun _ => (refIdx,w) := by
  induction targets generalizing d with
  | nil => simp [ScopeGraph.addEdges]
  | cons target targets ih =>
    have hnext := ih (d := d.addEdge refIdx target w)
      (by simpa using fun t ht => htargets t (List.mem_cons_of_mem target ht))
    rw [DiGraph.inEdges_addEdge _ _ _ _ _ (htargets target List.mem_cons_self)] at hnext
    refine hnext.trans ?_
    by_cases hi : i = target
    · simp [hi]
    · simp [hi,Ne.symm hi]

end Edges

section Candidates

variable {g : ScopeGraph} {a : Attached} (src : List UInt8) (new : Reference)

theorem possibleDefs_spec (i : ℕ) :
    (g.possibleDefs src new i).map g.definitionOf =
      ((g.defsAt .defToScope (g.graph.inEdges i)).filter (namesDef src new)).map some := by
  rw [ScopeGraph.possibleDefs,ScopeGraph.defsAt]
  induction g.graph.inEdges i with
  | nil => rfl
  | cons e edges ih =>
    obtain ⟨idx,w⟩ := e
    cases w <;> try simpa using ih
    cases hnode : g.graph.nodes[idx]? with
    | none => simpa [ScopeGraph.definitionOf,hnode] using ih
    | some node =>
      cases node with
      | definition d =>
        by_cases hd : namesDef src new d <;> simpa [ScopeGraph.definitionOf,hnode,hd] using ih
      | scope s => simpa [ScopeGraph.definitionOf,hnode] using ih
      | imported i => simpa [ScopeGraph.definitionOf,hnode] using ih
      | reference r => simpa [ScopeGraph.definitionOf,hnode] using ih

theorem possibleImports_spec (i : ℕ) :
    (g.possibleImports src new i).map g.importOf =
      ((g.importsAt .importToScope (g.graph.inEdges i)).filter (namesImport src new)).map some := by
  rw [ScopeGraph.possibleImports,ScopeGraph.importsAt]
  induction g.graph.inEdges i with
  | nil => rfl
  | cons e edges ih =>
    obtain ⟨idx,w⟩ := e
    cases w <;> try simpa using ih
    cases hnode : g.graph.nodes[idx]? with
    | none => simpa [ScopeGraph.importOf,hnode] using ih
    | some node =>
      cases node with
      | imported i =>
        by_cases hi : namesImport src new i <;> simpa [ScopeGraph.importOf,hnode,hi] using ih
      | scope s => simpa [ScopeGraph.importOf,hnode] using ih
      | definition d => simpa [ScopeGraph.importOf,hnode] using ih
      | reference r => simpa [ScopeGraph.importOf,hnode] using ih

theorem defs_resolve (hs : Sim g a) :
    (((around Range.contains a.scopes new.range).reverse.map Prod.fst).flatMap
      (g.possibleDefs src new)).map g.definitionOf = (resolveDefs a src new).map some := by
  rw [resolveDefs,List.flatMap_map,List.map_flatMap,List.map_flatMap]
  congr 1
  funext s
  rw [possibleDefs_spec,hs.defs]

theorem imports_resolve (hs : Sim g a) :
    (((around Range.contains a.scopes new.range).reverse.map Prod.fst).flatMap
      (g.possibleImports src new)).map g.importOf = (resolveImports a src new).map some := by
  rw [resolveImports,List.flatMap_map,List.map_flatMap,List.map_flatMap]
  congr 1
  funext s
  rw [possibleImports_spec,hs.imports]

end Candidates

section Located

variable {β γ : Type} {f : β → Option γ} {xs : List β} {ys : List γ}

theorem filterMap_of_map (h : xs.map f = ys.map some) : xs.filterMap f = ys := by
  have hid := congrArg (List.filterMap id) h
  simpa [List.filterMap_map] using hid

theorem ne_nil_of_map (h : xs.map f = ys.map some) : xs ≠ [] ↔ ys ≠ [] := by
  have hlength := congrArg List.length h
  simp only [List.length_map] at hlength
  rw [ne_eq,ne_eq,← List.length_eq_zero_iff,← List.length_eq_zero_iff,hlength]

theorem found_of_map (h : xs.map f = ys.map some) {x : β} (hx : x ∈ xs) : ∃ y, f x = some y := by
  have hmem : f x ∈ ys.map some := h ▸ List.mem_map_of_mem hx
  obtain ⟨y,-,hy⟩ := List.mem_map.mp hmem
  exact ⟨y,hy.symm⟩

end Located

section Linking

variable {g : ScopeGraph} {a : Attached}

theorem lt_of_definitionOf (hs : Sim g a) {idx : ℕ} {d : LocalDef}
    (h : g.definitionOf idx = some d) : idx < a.size := by
  by_contra hge
  rw [← hs.nodes,Nat.not_lt] at hge
  simp [ScopeGraph.definitionOf,List.getElem?_eq_none hge] at h

theorem lt_of_importOf (hs : Sim g a) {idx : ℕ} {new : LocalImport}
    (h : g.importOf idx = some new) : idx < a.size := by
  by_contra hge
  rw [← hs.nodes,Nat.not_lt] at hge
  simp [ScopeGraph.importOf,List.getElem?_eq_none hge] at h

/-- A new reference node with its edges. -/
def ScopeGraph.link (g : ScopeGraph) (new : Reference) (defs imports : List ℕ) : ScopeGraph :=
  {g with graph := addEdges (addEdges (g.graph.addNode (.reference new)) g.graph.nodes.length
    .refToDef defs) g.graph.nodes.length .refToImport imports}

variable {new : Reference} {defs imports : List ℕ}

theorem nodes_link : (g.link new defs imports).graph.nodes = g.graph.nodes++[.reference new] ∧
    (g.link new defs imports).graph.outAdj.length = g.graph.outAdj.length+1 ∧
    (g.link new defs imports).graph.inAdj.length = g.graph.inAdj.length+1 := by
  simp [ScopeGraph.link,nodes_addEdges]

theorem outEdges_link (hs : Sim g a) (i : ℕ) : (g.link new defs imports).graph.outEdges i =
    if i = a.size then defs.map (·,EdgeKind.refToDef)++imports.map (·,EdgeKind.refToImport)
    else g.graph.outEdges i := by
  have hlast : g.graph.nodes.length < (g.graph.addNode (.reference new)).outAdj.length := by
    simp [hs.nodes,hs.outAdj]
  rw [ScopeGraph.link,outEdges_addEdges _ (by simpa [nodes_addEdges] using hlast),
    outEdges_addEdges _ hlast,DiGraph.outEdges_addNode,hs.nodes]
  by_cases hi : i = a.size
  · simp [hi,DiGraph.outEdges_of_le (Nat.le_of_eq hs.outAdj)]
  · simp [hi]

theorem inEdges_link (hs : Sim g a) (hdefs : ∀ t ∈ defs, t < a.size)
    (himports : ∀ t ∈ imports, t < a.size) (i : ℕ) :
    (g.link new defs imports).graph.inEdges i = g.graph.inEdges i++
      ((defs.filter (· = i)).map (fun _ => (a.size,EdgeKind.refToDef))++
        (imports.filter (· = i)).map fun _ => (a.size,EdgeKind.refToImport)) := by
  have hlt : ∀ t, t < a.size → t < (g.graph.addNode (.reference new)).inAdj.length := by
    intro t ht
    simpa [hs.inAdj] using Nat.lt_succ_of_lt ht
  rw [ScopeGraph.link,inEdges_addEdges _ (by
      simpa only [nodes_addEdges] using fun t ht => hlt t (himports t ht)),
    inEdges_addEdges _ fun t ht => hlt t (hdefs t ht),DiGraph.inEdges_addNode,hs.nodes,
    List.append_assoc]

theorem getElem?_link (hs : Sim g a) {i : ℕ} (hi : i < a.size) :
    (g.link new defs imports).graph.nodes[i]? = g.graph.nodes[i]? := by
  rw [nodes_link.1]
  exact List.getElem?_append_left (by rwa [hs.nodes])

theorem filter_inEdges_link (hs : Sim g a) (hdefs : ∀ t ∈ defs, t < a.size)
    (himports : ∀ t ∈ imports, t < a.size) {w : EdgeKind} (hdef : w ≠ .refToDef)
    (himport : w ≠ .refToImport) (i : ℕ) :
    ((g.link new defs imports).graph.inEdges i).filter (fun e => e.2 = w) =
      (g.graph.inEdges i).filter fun e => e.2 = w := by
  rw [inEdges_link hs hdefs himports]
  simp [List.filter_append,hdef.symm,himport.symm]

theorem sim_link (hs : Sim g a) (hdefs : ∀ t ∈ defs, t < a.size)
    (himports : ∀ t ∈ imports, t < a.size) :
    Sim (g.link new defs imports) {a with size := a.size+1} := by
  obtain ⟨hnodes,hout,hin⟩ := @nodes_link g new defs imports
  have hends : ∀ w i, (g.link new defs imports).defsAt w (g.graph.inEdges i) =
      g.defsAt w (g.graph.inEdges i) ∧ (g.link new defs imports).importsAt w (g.graph.inEdges i) =
      g.importsAt w (g.graph.inEdges i) :=
    fun w i => defsAt_congr w fun e he => getElem?_link hs (hs.inBelow i e he)
  constructor
  case rootIdx => exact hs.rootIdx
  case nodes => simp [hnodes,hs.nodes]
  case outAdj => rw [hout,hs.outAdj]
  case inAdj => rw [hin,hs.inAdj]
  case rising => exact hs.rising
  case below => exact fun s hmem => Nat.lt_succ_of_lt (hs.below s hmem)
  case root => exact hs.root
  case scopes =>
    intro s hmem
    rw [getElem?_link hs (hs.below s hmem),hs.scopes s hmem]
  case children =>
    intro i
    rw [ScopeGraph.childScopes,filter_inEdges_link hs hdefs himports (by decide) (by decide)]
    exact hs.children i
  case parents =>
    intro s hmem
    rw [ScopeGraph.outScope,outEdges_link hs,if_neg (Nat.ne_of_lt (hs.below s hmem))]
    exact hs.parents s hmem
  case defs =>
    intro i
    rw [ScopeGraph.defsAt,filter_inEdges_link hs hdefs himports (by decide) (by decide)]
    exact (hends .defToScope i).1.trans (hs.defs i)
  case imports =>
    intro i
    rw [ScopeGraph.importsAt,filter_inEdges_link hs hdefs himports (by decide) (by decide)]
    exact (hends .importToScope i).2.trans (hs.imports i)
  case inBelow =>
    intro i e he
    rw [inEdges_link hs hdefs himports] at he
    obtain hold | hnew := List.mem_append.mp he
    · exact Nat.lt_succ_of_lt (hs.inBelow i e hold)
    · obtain hd | hi := List.mem_append.mp hnew
      · obtain ⟨t,-,rfl⟩ := List.mem_map.mp hd
        exact Nat.lt_succ_self _
      · obtain ⟨t,-,rfl⟩ := List.mem_map.mp hi
        exact Nat.lt_succ_self _
  case outBelow =>
    intro i e he
    rw [outEdges_link hs] at he
    split at he
    · obtain hd | hi := List.mem_append.mp he
      · obtain ⟨t,ht,rfl⟩ := List.mem_map.mp hd
        exact Nat.lt_succ_of_lt (hdefs t ht)
      · obtain ⟨t,ht,rfl⟩ := List.mem_map.mp hi
        exact Nat.lt_succ_of_lt (himports t ht)
    · exact Nat.lt_succ_of_lt (hs.outBelow i e he)

theorem linked_link (hs : Sim g a) : (g.link new defs imports).linked = g.linked++
    [⟨new,defs.filterMap (g.link new defs imports).definitionOf,
      imports.filterMap (g.link new defs imports).importOf⟩] := by
  have hold : ∀ i < a.size, (g.link new defs imports).linkAt i = g.linkAt i := by
    intro i hi
    have hends := fun w => defsAt_congr (k := g.link new defs imports) (g := g) w
      fun e he => getElem?_link hs (hs.outBelow i e he)
    rw [ScopeGraph.linkAt,ScopeGraph.linkAt,getElem?_link hs hi,outEdges_link hs,
      if_neg (Nat.ne_of_lt hi),(hends .refToDef).1,(hends .refToImport).2]
  have hnew : (g.link new defs imports).linkAt a.size =
      some ⟨new,defs.filterMap (g.link new defs imports).definitionOf,
        imports.filterMap (g.link new defs imports).importOf⟩ := by
    have hnode : (g.link new defs imports).graph.nodes[a.size]? = some (.reference new) := by
      simp [nodes_link,← hs.nodes]
    rw [ScopeGraph.linkAt,hnode,outEdges_link hs,if_pos rfl]
    simp [ScopeGraph.defsAt,ScopeGraph.importsAt,List.filter_append,List.filter_map,
      List.filterMap_map,Function.comp_def]
  rw [ScopeGraph.linked,nodes_link.1,List.length_append,List.length_singleton,hs.nodes,
    List.range_succ,List.filterMap_append,ScopeGraph.linked,hs.nodes]
  congr 1
  · apply List.filterMap_congr
    intro i hi
    exact hold i (List.mem_range.mp hi)
  · simp [hnew]

theorem insertRef_eq (src : List UInt8) (hs : Sim g a)
    (hchain : Chained Range.contains a.scopes new.range) :
    g.insertRef src new =
      if resolveDefs a src new ≠ [] ∨ resolveImports a src new ≠ [] then
        g.link new
          (((around Range.contains a.scopes new.range).reverse.map Prod.fst).flatMap
            (g.possibleDefs src new))
          (((around Range.contains a.scopes new.range).reverse.map Prod.fst).flatMap
            (g.possibleImports src new))
      else g := by
  simp only [ScopeGraph.insertRef,stack_eq hs hchain,ne_nil_of_map (defs_resolve src new hs),
    ne_nil_of_map (imports_resolve src new hs)]
  rfl

theorem insertRef_spec (src : List UInt8) (hs : Sim g a)
    (hchain : Chained Range.contains a.scopes new.range) :
    ∃ n, Sim (g.insertRef src new) {a with size := n} ∧
      (g.insertRef src new).linked = g.linked++(resolve a src new).toList := by
  have hdefs := defs_resolve src new hs
  have himports := imports_resolve src new hs
  by_cases h : resolveDefs a src new ≠ [] ∨ resolveImports a src new ≠ []
  · rw [insertRef_eq src hs hchain,if_pos h,resolve,if_pos h]
    generalize ((around Range.contains a.scopes new.range).reverse.map Prod.fst).flatMap
      (g.possibleDefs src new) = defs at hdefs ⊢
    generalize ((around Range.contains a.scopes new.range).reverse.map Prod.fst).flatMap
      (g.possibleImports src new) = imports at himports ⊢
    have hdefsBelow : ∀ t ∈ defs, t < a.size := by
      intro t ht
      obtain ⟨d,hd⟩ := found_of_map hdefs ht
      exact lt_of_definitionOf hs hd
    have himportsBelow : ∀ t ∈ imports, t < a.size := by
      intro t ht
      obtain ⟨i,hi⟩ := found_of_map himports ht
      exact lt_of_importOf hs hi
    refine ⟨_,sim_link hs hdefsBelow himportsBelow,(linked_link hs).trans ?_⟩
    -- the ends of the edges are older nodes, which the new one leaves as they were
    have hdefsEnds : defs.filterMap (g.link new defs imports).definitionOf =
        resolveDefs a src new := by
      rw [← filterMap_of_map hdefs]
      apply List.filterMap_congr
      intro t ht
      simp only [ScopeGraph.definitionOf,getElem?_link hs (hdefsBelow t ht)]
    have himportsEnds : imports.filterMap (g.link new defs imports).importOf =
        resolveImports a src new := by
      rw [← filterMap_of_map himports]
      apply List.filterMap_congr
      intro t ht
      simp only [ScopeGraph.importOf,getElem?_link hs (himportsBelow t ht)]
    rw [hdefsEnds,himportsEnds]
    rfl
  · rw [insertRef_eq src hs hchain,if_neg h,resolve,if_neg h]
    exact ⟨a.size,hs,by simp⟩

end Linking

theorem linked_refs (src : List UInt8) {g : ScopeGraph} (hs : Sim g a) (hchain : ∀ ref ∈ refs, Chained Range.contains a.scopes ref.range) :
    (refs.foldl (ScopeGraph.insertRef · src) g).linked =
      g.linked++refs.filterMap (resolve a src) := by
  induction refs generalizing g a with
  | nil => simp
  | cons ref refs ih =>
    obtain ⟨n,hnext,hlinked⟩ := insertRef_spec src hs (hchain ref List.mem_cons_self)
    have hrest : ∀ r ∈ refs, Chained Range.contains a.scopes r.range :=
      fun r hr => hchain r (List.mem_cons_of_mem ref hr)
    rw [List.foldl_cons,ih hnext hrest,hlinked,List.append_assoc]
    congr 1
    cases h : resolve a src ref with
    | none =>
      rw [List.filterMap_cons_none h]
      rfl
    | some r =>
      rw [List.filterMap_cons_some h]
      rfl

theorem linked_inserts (root : Range) (lang : PyStr) (inserts : List Insert) :
    (inserts.foldl ScopeGraph.insert (.new root lang)).linked = [] := by
  have hattach : ∀ (g : ScopeGraph) node target w, (∀ r, node ≠ .reference r) →
      (∀ n ∈ g.graph.nodes, ∀ r, n ≠ .reference r) →
      ∀ n ∈ (g.attach node target w).graph.nodes, ∀ r, n ≠ .reference r := by
    intro g node target w hnode h n hn
    obtain hn | hn := List.mem_append.mp hn
    · exact h n hn
    · exact List.mem_singleton.mp hn ▸ hnode
  have hnone : ∀ n ∈ (inserts.foldl ScopeGraph.insert (.new root lang)).graph.nodes,
      ∀ r, n ≠ .reference r := by
    induction inserts using List.reverseRecOn with
    | nil => simp [ScopeGraph.new,DiGraph.empty]
    | append_singleton inserts op ih =>
      rw [List.foldl_append,List.foldl_cons,List.foldl_nil]
      cases op with
      | localScope new =>
        rw [ScopeGraph.insert,ScopeGraph.insertLocalScope]
        split
        · exact hattach _ _ _ _ (by simp) ih
        · exact ih
      | localDef new =>
        rw [ScopeGraph.insert,ScopeGraph.insertLocalDef]
        split
        · exact hattach _ _ _ _ (by simp) ih
        · exact ih
      | hoistedDef new =>
        rw [ScopeGraph.insert,ScopeGraph.insertHoistedDef]
        split
        · exact hattach _ _ _ _ (by simp) ih
        · exact ih
      | globalDef new => exact hattach _ _ _ _ (by simp) ih
      | localImport new =>
        rw [ScopeGraph.insert,ScopeGraph.insertLocalImport]
        split
        · exact hattach _ _ _ _ (by simp) ih
        · exact ih
  rw [ScopeGraph.linked,List.filterMap_eq_nil_iff]
  intro i _
  rw [ScopeGraph.linkAt]
  split
  · next r hr => exact absurd rfl (hnone _ (List.mem_of_getElem? hr) r)
  · rfl

theorem reported_linked (g : ScopeGraph) (src : List UInt8) (decode : List UInt8 → PyStr) :
    g.getReferencesWithDefinitions src decode = g.linked.map (report src decode) := by
  rw [ScopeGraph.getReferencesWithDefinitions,ScopeGraph.linked,List.map_filterMap]
  apply List.filterMap_congr
  intro i _
  have hfirst : g.defInfo src decode i = (g.defsAt .refToDef (g.graph.outEdges i)).head?.map
      fun d => (decode (d.range.slice src),d.range) := by
    rw [ScopeGraph.defInfo,ScopeGraph.defsAt,List.filterMap_filter,List.head?_filterMap,
      List.map_findSome?]
    congr 1
    funext e
    obtain ⟨idx,w⟩ := e
    cases w <;> simp [ScopeGraph.definitionOf]
    rcases g.graph.nodes[idx]? with _ | (_ | _ | _ | _) <;> rfl
  simp only [ScopeGraph.linkAt,hfirst]
  rcases g.graph.nodes[i]? with _ | (_ | _ | _ | _) <;> rfl

theorem head?_flatMap_spec {β γ : Type} {R : β → β → Prop} {F : β → List γ} {d : γ} {l : List β}
    (hpair : l.Pairwise R) (h : (l.flatMap F).head? = some d) :
    ∃ s ∈ l, d ∈ F s ∧ ∀ t ∈ l, F t ≠ [] → t = s ∨ R s t := by
  induction l with
  | nil => cases h
  | cons x l ih =>
    obtain ⟨hx,htail⟩ := List.pairwise_cons.mp hpair
    rw [List.flatMap_cons] at h
    cases hFx : F x with
    | nil =>
      rw [hFx,List.nil_append] at h
      obtain ⟨s,hs,hd,hfirst⟩ := ih htail h
      refine ⟨s,List.mem_cons_of_mem x hs,hd,fun t ht hne => ?_⟩
      obtain rfl | ht := List.mem_cons.mp ht
      · exact absurd hFx hne
      · exact hfirst t ht hne
    | cons y ys =>
      rw [hFx] at h
      obtain rfl : y = d := by simpa using h
      refine ⟨x,List.mem_cons_self,hFx ▸ List.mem_cons_self,fun t ht _ => ?_⟩
      obtain rfl | ht := List.mem_cons.mp ht
      · exact Or.inl rfl
      · exact Or.inr (hx t ht)

theorem resolveDefs_innermost (hrising : Rising a.scopes) {src : List UInt8}
    {ref : Reference} {d : LocalDef} (h : (resolveDefs a src ref).head? = some d) :
    ∃ s ∈ around Range.contains a.scopes ref.range, (s.1,d) ∈ a.defs ∧ namesDef src ref d ∧
      ∀ t ∈ around Range.contains a.scopes ref.range, ∀ d', (t.1,d') ∈ a.defs →
        namesDef src ref d' → t.1 ≤ s.1 := by
  have hmem : ∀ i d, d ∈ (a.defsOf i).filter (namesDef src ref) ↔
      (i,d) ∈ a.defs ∧ namesDef src ref d := by
    intro i d
    simp [Attached.defsOf,List.mem_filter]
  have hfalling : ((around Range.contains a.scopes ref.range).reverse).Pairwise
      fun s t => t.1 < s.1 := List.pairwise_reverse.mpr (hrising.around ref.range)
  obtain ⟨s,hs,hd,hfirst⟩ := head?_flatMap_spec hfalling h
  obtain ⟨hattached,hnames⟩ := (hmem s.1 d).mp hd
  refine ⟨s,List.mem_reverse.mp hs,hattached,hnames,fun t ht d' hd' hnames' => ?_⟩
  have hne : (a.defsOf t.1).filter (namesDef src ref) ≠ [] :=
    List.ne_nil_of_mem ((hmem t.1 d').mpr ⟨hd',hnames'⟩)
  obtain rfl | hlt := hfirst t (List.mem_reverse.mpr ht) hne
  · exact Nat.le_refl _
  · exact Nat.le_of_lt hlt

/-- A range that ends before another starts, or where it starts. -/
def Range.Before (s t : Range) : Prop :=
  s.endLine < t.startLine ∨ s.endLine = t.startLine ∧ s.endColumn ≤ t.startColumn

/-- A range with a character. -/
def Range.Inhabited (r : Range) : Prop :=
  r.startLine < r.endLine ∨ r.startLine = r.endLine ∧ r.startColumn < r.endColumn

theorem Range.Before.apart {s t r : Range} (h : s.Before t) (hr : r.Inhabited) :
    ¬ (s.contains r ∧ t.contains r) := by
  rintro ⟨hs,ht⟩
  simp only [contains,containsCheckLineColumn,Bool.and_eq_true,Bool.or_eq_true,decide_eq_true_eq,
    beq_iff_eq] at hs ht
  rw [Range.Before] at h
  rw [Range.Inhabited] at hr
  omega

/-- Scopes of which one holds or follows the other are nested or disjoint. -/
theorem NestedOrDisjoint.of_before {inserts : List Insert} {refs : List Reference}
    (houter : (scopesOf inserts).Pairwise fun s t => t.contains s → s.contains t)
    (hinhabited : ∀ r ∈ inserts.map Insert.range++refs.map Reference.range, r.Inhabited)
    (hnested : ∀ s ∈ scopesOf inserts, ∀ t ∈ scopesOf inserts,
      s.contains t ∨ t.contains s ∨ s.Before t ∨ t.Before s) : NestedOrDisjoint inserts refs where
  outerFirst := houter
  nested := by
    intro s hs t ht
    obtain hst | hts | hbefore | hafter := hnested s hs t ht
    · exact Or.inl hst
    · exact Or.inr (Or.inl hts)
    · exact Or.inr (Or.inr fun r hr => hbefore.apart (hinhabited r hr))
    · exact Or.inr (Or.inr fun r hr h => hafter.apart (hinhabited r hr) h.symm)

/-- With nested or disjoint scopes a reference is linked to the definitions and imports of its
name in the scopes around it, and the one reported is of the innermost such scope. -/
theorem references_resolve_innermost (src : List UInt8) (root : Range) (lang : PyStr)
    {inserts : List Insert} {refs : List Reference} (h : NestedOrDisjoint inserts refs) :
    ResolvesInnermost src root lang inserts refs := by
  have hs := sim_attached root lang h (List.append_nil inserts).symm
  have hchain : ∀ ref ∈ refs, Chained Range.contains (attached root inserts).scopes ref.range :=
    fun ref href => h.chained hs (scopes_attached root inserts)
      (List.mem_append_right _ (List.mem_map_of_mem href))
  have hlinked : (ScopeGraph.build src root lang inserts refs).linked =
      refs.filterMap (resolve (attached root inserts) src) := by
    rw [ScopeGraph.build,linked_refs src hs hchain,linked_inserts,List.nil_append]
  constructor
  case linked => exact hlinked
  case reported =>
    intro decode
    rw [reported_linked,hlinked]
  case chained => exact hchain
  case innermost => exact fun ref d hd => resolveDefs_innermost hs.rising hd

/-- A range on one line. -/
def onLine (line start stop : ℕ) : Range := ⟨⟨line,start,start⟩,⟨line,stop,stop⟩⟩

/-- A scope with two in it that follow each other, and a definition of the name in each of the
outer and the first inner one. -/
theorem shadowed_resolves_innermost : ResolvesInnermost [120,120,120] (onLine 0 0 30) []
    [.localScope ⟨onLine 0 0 20⟩,.localScope ⟨onLine 0 0 10⟩,.localScope ⟨onLine 0 10 20⟩,
      .localDef ⟨onLine 0 0 1,none,⟨onLine 0 0 10⟩⟩,
      .hoistedDef ⟨onLine 0 1 2,none,⟨onLine 0 0 10⟩⟩]
    [⟨onLine 0 2 3,none⟩] := by
  apply references_resolve_innermost
  constructor <;> decide

end MinimaxCode.ScopeGraphs
