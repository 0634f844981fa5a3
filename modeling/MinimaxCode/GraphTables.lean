import MinimaxCode.GraphForest

/-!
# The edge tables of a graph

The tables say of each node which edges come in and go out and how many there are. They
are what the edge objects make them, as long as no undirected edge is made with its end
points swapped and no named edge stands at a node that is removed. The operations that
take an edge object act on another edge than that object when it has a name.
-/

namespace MinimaxCode.GraphLib
namespace Graph

open PyText OrderedDict Runs

variable {N E : Type}

/-- How a counter map shows a count: a count of zero has no entry. -/
def entry (n : ℕ) : Option ℤ := if n = 0 then none else some n

theorem incrementOrInitEntry_entry {m : List (PyStr × ℤ)} {k k' : PyStr} {n : ℕ}
    (h : lookup m k' = entry n) :
    lookup (incrementOrInitEntry k m) k' = entry (n+if k = k' then 1 else 0) := by
  by_cases hk : k = k'
  · subst hk
    rw [incrementOrInitEntry,h,entry,if_pos rfl]
    by_cases hn : n = 0
    · subst hn
      rw [if_pos rfl,lookup_assign,if_pos rfl]
      rfl
    · rw [if_neg hn,lookup_assign,if_pos rfl,entry,if_neg (Nat.succ_ne_zero n)]
      push_cast
      rfl
  · rw [if_neg hk,Nat.add_zero,← h,incrementOrInitEntry]
    split <;> rw [lookup_assign,if_neg hk]

theorem decrementOrRemoveEntry_entry {m : List (PyStr × ℤ)} {k k' : PyStr} {n : ℕ}
    (h : lookup m k' = entry (n+if k = k' then 1 else 0)) :
    lookup (decrementOrRemoveEntry k m) k' = entry n := by
  by_cases hk : k = k'
  · subst hk
    rw [if_pos rfl,entry,if_neg (Nat.succ_ne_zero n)] at h
    rw [decrementOrRemoveEntry,h,entry]
    by_cases hn : n = 0
    · subst hn
      simp [lookup_remove]
    · have hpos : ¬ ((n+1 : ℕ) : ℤ)-1 ≤ 0 := by omega
      rw [if_neg hn]
      dsimp only
      rw [if_neg hpos,lookup_assign,if_pos rfl]
      push_cast
      simp
  · rw [if_neg hk,Nat.add_zero] at h
    rw [← h,decrementOrRemoveEntry]
    split
    · rfl
    · split
      · rw [lookup_remove,if_neg hk]
      · rw [lookup_assign,if_neg hk]

/-- The number of edges from one node to another. -/
def multiplicity (g : Graph N E) (v w : PyStr) : ℕ :=
  g.edgeObjs.countP fun kv => decide (kv.2.v = v ∧ kv.2.w = w)

/-- The table of each node holds the edges that end there, at the given one of their ends. -/
def Side (objs : List (PyStr × Edge)) (side : Edge → PyStr)
    (tables : List (PyStr × List (PyStr × Edge))) : Prop :=
  ∀ v e, lookup (table tables v) e = (lookup objs e).filter (side · = v)

/-- The counter map of each node shows the counts. -/
def Tally (count : PyStr → PyStr → ℕ) (tables : List (PyStr × List (PyStr × ℤ))) : Prop :=
  ∀ v u, lookup (table tables v) u = entry (count v u)

/-- The edge objects determine the tables. -/
structure Represents (g : Graph N E) : Prop where
  objs : g.edgeCount = g.edgeObjs.length
  labels : g.edgeCount = g.edgeLabels.length
  endpoints : ∀ o ∈ g.edges, o.v ∈ keys g.nodes ∧ o.w ∈ keys g.nodes
  tables : ∀ v, (v ∈ keys g.ins ↔ v ∈ keys g.nodes) ∧ (v ∈ keys g.preds ↔ v ∈ keys g.nodes) ∧
    (v ∈ keys g.outs ↔ v ∈ keys g.nodes) ∧ (v ∈ keys g.sucs ↔ v ∈ keys g.nodes)
  ins : Side g.edgeObjs Edge.w g.ins
  outs : Side g.edgeObjs Edge.v g.outs
  preds : Tally (fun v u => g.multiplicity u v) g.preds
  sucs : Tally g.multiplicity g.sucs

/-- The part of it that does not speak of the nodes, and how edges are stored. -/
structure Linked (g : Graph N E) : Prop where
  ids : keys g.edgeLabels = keys g.edgeObjs
  distinct : (keys g.edgeObjs).Nodup
  own : ∀ e o, lookup g.edgeObjs e = some o → edgeObjToId g.isDirected o = e
  stored : ∀ e o, lookup g.edgeObjs e = some o → swapped g.isDirected o.v o.w = false
  count : g.edgeCount = g.edgeObjs.length
  ins : Side g.edgeObjs Edge.w g.ins
  outs : Side g.edgeObjs Edge.v g.outs
  preds : Tally (fun v u => g.multiplicity u v) g.preds
  sucs : Tally g.multiplicity g.sucs
  outKeys : ∀ v, (keys (table g.outs v)).Nodup

variable {g s t : Graph N E} {v w x e : PyStr} {o : Edge} {objs : List (PyStr × Edge)}
  {side : Edge → PyStr} {tables : List (PyStr × List (PyStr × Edge))} {count : PyStr → PyStr → ℕ}
  {copy : Graph N E} {out : Outcome N E}

theorem Side.insert (h : Side objs side tables)
    (hnew : lookup objs e = none) : Side (assign objs e o) side (insertIn tables (side o) e o) := by
  intro v e'
  rw [table_insertIn,lookup_assign]
  by_cases hv : side o = v
  · rw [if_pos hv,lookup_assign]
    split
    · simp [Option.filter,hv]
    · exact h v e'
  · rw [if_neg hv,h v e']
    split
    · next he => simp [Option.filter,← he,hnew,hv]
    · rfl

theorem Side.remove (h : Side objs side tables)
    (ho : lookup objs e = some o) :
    Side (remove objs e) side (adjust tables (side o) (remove · e)) := by
  intro v e'
  rw [table_adjust rfl,lookup_remove]
  by_cases he : e = e'
  · subst he
    split
    · rw [lookup_remove,if_pos rfl,if_pos rfl]
      rfl
    · next hv =>
      rw [h v e,ho,if_pos rfl]
      simp [Option.filter,hv]
  · rw [if_neg he]
    split
    · rw [lookup_remove,if_neg he,h v e']
    · rw [h v e']

theorem Tally.increment {count' : PyStr → PyStr → ℕ}
    {tables : List (PyStr × List (PyStr × ℤ))} (h : Tally count tables) (hv : v ∈ keys tables)
    (hcount : ∀ a b, count' a b = count a b+if v = a ∧ w = b then 1 else 0) :
    Tally count' (adjust tables v (incrementOrInitEntry w)) := by
  intro x u
  rw [hcount,table,lookup_adjust]
  obtain ⟨m,hm⟩ := Option.isSome_iff_exists.mp (isSome_lookup_iff.mpr hv)
  by_cases hx : v = x
  · subst hx
    have hu := incrementOrInitEntry_entry (k := w) (h v u)
    rw [table,hm,Option.getD_some] at hu
    rw [if_pos rfl,hm,Option.map_some,Option.getD_some,hu]
    simp
  · have hxu := h x u
    rw [table] at hxu
    rw [if_neg hx]
    simpa [hx] using hxu

theorem Tally.decrement {count' : PyStr → PyStr → ℕ}
    {tables : List (PyStr × List (PyStr × ℤ))} (h : Tally count tables)
    (hcount : ∀ a b, count a b = count' a b+if v = a ∧ w = b then 1 else 0) :
    Tally count' (adjust tables v (decrementOrRemoveEntry w)) := by
  intro x u
  have hx := h x u
  rw [hcount] at hx
  rw [table_adjust rfl]
  by_cases hvx : v = x
  · rw [if_pos hvx]
    refine decrementOrRemoveEntry_entry (hx.trans ?_)
    simp [hvx]
  · rw [if_neg hvx,hx]
    simp [hvx]

theorem edgeArgsToObj_of_stored {d : Bool} (h : swapped d v w = false) (name : Option PyStr) :
    edgeArgsToObj d v w name = ⟨v,w,name⟩ := by
  simp [edgeArgsToObj,h]

theorem Linked.linkEdge (h : g.Linked) (label : Option E) (name : Option PyStr)
    (hstored : swapped g.isDirected v w = false)
    (hnew : edgeArgsToId g.isDirected v w name ∉ keys g.edgeLabels)
    (hw : w ∈ keys g.preds) (hv : v ∈ keys g.sucs) : (g.linkEdge v w label name).Linked := by
  have hnewObj : edgeArgsToId g.isDirected v w name ∉ keys g.edgeObjs := by rwa [← h.ids]
  have hnone := lookup_eq_none hnewObj
  have hcount : ∀ a b, (g.linkEdge v w label name).multiplicity a b =
      g.multiplicity a b+if v = a ∧ w = b then 1 else 0 := by
    intro a b
    rw [multiplicity,Graph.linkEdge]
    dsimp only
    rw [edgeArgsToObj_of_stored hstored,assign_of_new hnewObj,List.countP_append,
      List.countP_singleton]
    simp [multiplicity]
  have hlookup : ∀ e o, lookup (g.linkEdge v w label name).edgeObjs e = some o →
      (o = ⟨v,w,name⟩ ∧ edgeArgsToId g.isDirected v w name = e) ∨ lookup g.edgeObjs e = some o := by
    intro e o ho
    rw [Graph.linkEdge] at ho
    dsimp only at ho
    rw [edgeArgsToObj_of_stored hstored,lookup_assign] at ho
    split at ho
    · next he => exact .inl ⟨(Option.some.inj ho).symm,he⟩
    · exact .inr ho
  refine ⟨?_,nodup_keys_assign h.distinct,fun e o ho => ?_,fun e o ho => ?_,?_,?_,?_,?_,?_,
    fun x => ?_⟩
  · dsimp only [Graph.linkEdge]
    rw [keys_assign_of_new hnew,keys_assign_of_new hnewObj,h.ids]
  · rcases hlookup e o ho with ⟨rfl,he⟩ | ho
    · exact he
    · exact h.own e o ho
  · rcases hlookup e o ho with ⟨rfl,-⟩ | ho
    · exact hstored
    · exact h.stored e o ho
  · dsimp only [Graph.linkEdge]
    rw [assign_of_new hnewObj,List.length_append,h.count]
    push_cast
    rfl
  · dsimp only [Graph.linkEdge]
    rw [edgeArgsToObj_of_stored hstored]
    exact h.ins.insert (o := ⟨v,w,name⟩) hnone
  · dsimp only [Graph.linkEdge]
    rw [edgeArgsToObj_of_stored hstored]
    exact h.outs.insert (o := ⟨v,w,name⟩) hnone
  · refine h.preds.increment hw fun a b => ?_
    rw [hcount]
    simp only [and_comm]
  · exact h.sucs.increment hv hcount
  · dsimp only [Graph.linkEdge]
    rw [table_insertIn]
    split
    · exact nodup_keys_assign (h.outKeys x)
    · exact h.outKeys x

theorem Linked.dropEdge (h : g.Linked) (ho : lookup g.edgeObjs e = some o) :
    (g.dropEdge e o).Linked := by
  have hcount : ∀ a b, g.multiplicity a b =
      (g.dropEdge e o).multiplicity a b+if o.v = a ∧ o.w = b then 1 else 0 := by
    intro a b
    rw [multiplicity,← countP_remove h.distinct ho]
    simp [multiplicity,Graph.dropEdge]
  have hlookup : ∀ e' o', lookup (g.dropEdge e o).edgeObjs e' = some o' →
      lookup g.edgeObjs e' = some o' := by
    intro e' o' ho'
    rw [Graph.dropEdge,lookup_remove] at ho'
    split at ho'
    · cases ho'
    · exact ho'
  refine ⟨?_,nodup_keys_remove h.distinct,fun e' o' ho' => h.own e' o' (hlookup e' o' ho'),
    fun e' o' ho' => h.stored e' o' (hlookup e' o' ho'),?_,h.ins.remove ho,h.outs.remove ho,?_,?_,
    fun x => ?_⟩
  · dsimp only [Graph.dropEdge]
    rw [keys_remove,keys_remove,h.ids]
  · have hlen := countP_remove (q := fun _ => true) h.distinct ho
    simp only [List.countP_true,if_true] at hlen
    dsimp only [Graph.dropEdge]
    rw [h.count,← hlen]
    push_cast
    omega
  · refine h.preds.decrement fun a b => ?_
    rw [hcount]
    simp only [and_comm]
  · exact h.sucs.decrement hcount
  · dsimp only [Graph.dropEdge]
    rw [table_adjust rfl]
    split
    · exact nodup_keys_remove (h.outKeys x)
    · exact h.outKeys x

/-- The tables, and what `remove_node` needs of the forest. -/
structure Sound (g : Graph N E) : Prop where
  linked : g.Linked
  endpoints : ∀ e o, lookup g.edgeObjs e = some o → o.v ∈ keys g.nodes ∧ o.w ∈ keys g.nodes
  tables : ∀ v, (v ∈ keys g.ins ↔ v ∈ keys g.nodes) ∧ (v ∈ keys g.preds ↔ v ∈ keys g.nodes) ∧
    (v ∈ keys g.outs ↔ v ∈ keys g.nodes) ∧ (v ∈ keys g.sucs ↔ v ∈ keys g.nodes)
  listed : g.isCompound = true → g.Listed
  domain : g.isCompound = true → ∀ c, (lookup g.parent c).isSome → c ∈ keys g.nodes

theorem Sound.represents (h : g.Sound) : g.Represents := by
  have hlen : g.edgeLabels.length = g.edgeObjs.length := by
    have hids := congrArg List.length h.linked.ids
    rwa [keys,keys,List.length_map,List.length_map] at hids
  refine ⟨h.linked.count,by rw [hlen]; exact h.linked.count,fun o ho => ?_,h.tables,h.linked.ins,
    h.linked.outs,h.linked.preds,h.linked.sucs⟩
  obtain ⟨⟨e,o⟩,hmem,rfl⟩ := List.mem_map.mp ho
  exact h.endpoints e o (lookup_of_mem h.linked.distinct hmem)

/-- The kind of a graph does not change. -/
def SameKind (g g' : Graph N E) : Prop :=
  g'.isDirected = g.isDirected ∧ g'.isMultigraph = g.isMultigraph ∧ g'.isCompound = g.isCompound

theorem Linked.congr (h : g.Linked) (hkind : t.isDirected = g.isDirected)
    (hobjs : t.edgeObjs = g.edgeObjs) (hlabels : keys t.edgeLabels = keys g.edgeLabels)
    (hcount : t.edgeCount = g.edgeCount) (hins : ∀ v, table t.ins v = table g.ins v)
    (houts : ∀ v, table t.outs v = table g.outs v) (hpreds : ∀ v, table t.preds v = table g.preds v)
    (hsucs : ∀ v, table t.sucs v = table g.sucs v) : t.Linked := by
  have hmult : t.multiplicity = g.multiplicity := by
    funext a b
    rw [multiplicity,multiplicity,hobjs]
  refine ⟨by rw [hlabels,hobjs,h.ids],by rw [hobjs]; exact h.distinct,?_,?_,
    by rw [hcount,hobjs,h.count],fun v e => ?_,fun v e => ?_,fun v u => ?_,fun v u => ?_,
    fun v => by rw [houts]; exact h.outKeys v⟩
  · rw [hobjs,hkind]
    exact h.own
  · rw [hobjs,hkind]
    exact h.stored
  · rw [hins,hobjs]
    exact h.ins v e
  · rw [houts,hobjs]
    exact h.outs v e
  · rw [hpreds,hmult]
    exact h.preds v u
  · rw [hsucs,hmult]
    exact h.sucs v u

theorem table_assign_nil {V : Type} {tables : List (PyStr × List (PyStr × V))}
    (h : v ∉ keys tables) (x : PyStr) : table (assign tables v []) x = table tables x := by
  rw [table_assign]
  split
  · next hvx =>
    rw [table,← hvx,lookup_eq_none h]
    rfl
  · rfl

theorem Sound.createNode (h : g.Sound) (hv : v ∉ keys g.nodes) (label : Option N) :
    (g.createNode v label).Sound := by
  have htables := h.tables v
  have hmem : ∀ x, x ∈ keys (g.createNode v label).nodes ↔ x = v ∨ x ∈ keys g.nodes :=
    fun x => mem_keys_assign_iff
  refine ⟨?_,fun e o ho => ?_,fun x => ?_,fun hc => ?_,fun hc c hsome => ?_⟩
  · exact h.linked.congr rfl rfl rfl rfl
      (table_assign_nil (mt htables.1.mp hv)) (table_assign_nil (mt htables.2.2.1.mp hv))
      (table_assign_nil (mt htables.2.1.mp hv)) (table_assign_nil (mt htables.2.2.2.mp hv))
  · obtain ⟨hov,how⟩ := h.endpoints e o ho
    exact ⟨(hmem _).mpr (.inr hov),(hmem _).mpr (.inr how)⟩
  · have hx := h.tables x
    rw [hmem]
    refine ⟨?_,?_,?_,?_⟩
    · exact mem_keys_assign_iff.trans (or_congr_right hx.1)
    · exact mem_keys_assign_iff.trans (or_congr_right hx.2.1)
    · exact mem_keys_assign_iff.trans (or_congr_right hx.2.2.1)
    · exact mem_keys_assign_iff.trans (or_congr_right hx.2.2.2)
  · have hc' : g.isCompound = true := hc
    intro p c hmemc
    dsimp only [Graph.createNode] at hmemc ⊢
    rw [if_pos hc',table_insertIn,table_assign] at hmemc
    rw [if_pos hc',lookup_assign]
    -- the old lists hold old nodes only
    have hold : c ∈ keys (if v = p then [] else table g.children p) →
        v ≠ c ∧ lookup g.parent c = some p := by
      intro hm
      split at hm
      · cases hm
      · have hpar := h.listed hc' p c hm
        refine ⟨?_,hpar⟩
        rintro rfl
        exact hv (h.domain hc' v (by rw [hpar]; rfl))
    by_cases hp : graphNode = p
    · rw [if_pos hp,mem_keys_assign_iff] at hmemc
      rcases hmemc with rfl | hmemc
      · rw [if_pos rfl,hp]
      · obtain ⟨hne,hpar⟩ := hold hmemc
        rw [if_neg hne,hpar]
    · rw [if_neg hp] at hmemc
      obtain ⟨hne,hpar⟩ := hold hmemc
      rw [if_neg hne,hpar]
  · have hc' : g.isCompound = true := hc
    dsimp only [Graph.createNode] at hsome
    rw [if_pos hc',lookup_assign] at hsome
    rw [hmem]
    split at hsome
    · next hvc => exact .inl hvc.symm
    · exact .inr (h.domain hc' c hsome)

theorem Sound.setNode (h : g.Sound) (v : PyStr) (value : Option N) : (g.setNode v value).Sound := by
  by_cases hv : v ∈ keys g.nodes
  · cases value with
    | none => rwa [setNode_none_of_mem hv]
    | some a =>
      rw [Graph.setNode,if_pos hv]
      have hkeys := keys_assign_of_mem hv (some a)
      refine ⟨h.linked.congr rfl rfl rfl rfl (fun _ => rfl) (fun _ => rfl) (fun _ => rfl)
        fun _ => rfl,?_,?_,h.listed,?_⟩
      · dsimp only
        rw [hkeys]
        exact h.endpoints
      · dsimp only
        rw [hkeys]
        exact h.tables
      · dsimp only
        rw [hkeys]
        exact h.domain
  · rw [setNode_of_new hv]
    exact h.createNode hv _

theorem sameKind_setNode (g : Graph N E) (v : PyStr) (value : Option N) :
    SameKind g (g.setNode v value) := by
  by_cases hv : v ∈ keys g.nodes
  · cases value with
    | none =>
      rw [setNode_none_of_mem hv]
      exact ⟨rfl,rfl,rfl⟩
    | some a =>
      rw [setNode,if_pos hv]
      exact ⟨rfl,rfl,rfl⟩
  · rw [setNode_of_new hv]
    exact ⟨rfl,rfl,rfl⟩

theorem Sound.withForest (h : g.Sound) {parent : List (PyStr × PyStr)}
    {children : List (PyStr × List (PyStr × Bool))}
    (hl : g.isCompound = true → ({g with parent := parent, children := children} : Graph N E).Listed)
    (hd : g.isCompound = true → ∀ c, (lookup parent c).isSome → c ∈ keys g.nodes) :
    ({g with parent := parent, children := children} : Graph N E).Sound :=
  ⟨h.linked.congr rfl rfl rfl rfl (fun _ => rfl) (fun _ => rfl) (fun _ => rfl) fun _ => rfl,
    h.endpoints,h.tables,hl,hd⟩

theorem Sound.reparent (h : g.Sound) (hc : g.isCompound = true) (v p : PyStr) :
    (g.reparent v p).Sound := by
  have h' := h.setNode v none
  have hc' := (isCompound_setNode (v := v) (g := g) none).trans hc
  obtain ⟨children,heq,-⟩ := (g.setNode v none).attach_eq v p
  have hlisted := (h'.listed hc').attach v p
  rw [Graph.reparent,heq]
  rw [heq] at hlisted
  refine h'.withForest (fun _ => hlisted) fun _ c hsome => ?_
  rw [lookup_assign] at hsome
  split at hsome
  · next hvc => exact hvc ▸ (mem_nodes_setNode none).mpr (.inl rfl)
  · exact h'.domain hc' c hsome

theorem Sound.setParent (h : g.Sound) {parent : Option PyStr} {o : Outcome N E}
    (ho : g.setParent v parent = some o) : o.graph.Sound := by
  by_cases hc : g.isCompound = true
  · rcases setParent_cases ho with ⟨-,hgraph,-⟩ | ⟨-,rfl⟩ | ⟨p,-,-,rfl⟩
    · rwa [hgraph]
    · exact h.reparent hc v graphNode
    · exact (h.setNode p none).reparent ((isCompound_setNode none).trans hc) v p
  · rw [Graph.setParent.eq_def,if_neg hc] at ho
    cases ho
    exact h

theorem Sound.linkEdge (h : g.Sound) (label : Option E) (name : Option PyStr)
    (hstored : swapped g.isDirected v w = false)
    (hnew : edgeArgsToId g.isDirected v w name ∉ keys g.edgeLabels)
    (hv : v ∈ keys g.nodes) (hw : w ∈ keys g.nodes) : (g.linkEdge v w label name).Sound := by
  have hlinked := h.linked.linkEdge label name hstored hnew ((h.tables w).2.1.mpr hw)
    ((h.tables v).2.2.2.mpr hv)
  refine ⟨hlinked,fun e o ho => ?_,fun x => ?_,h.listed,h.domain⟩
  · rw [Graph.linkEdge] at ho ⊢
    dsimp only at ho ⊢
    rw [edgeArgsToObj_of_stored hstored,lookup_assign] at ho
    split at ho
    · cases ho
      exact ⟨hv,hw⟩
    · exact h.endpoints e o ho
  · have hx := h.tables x
    refine ⟨?_,mem_keys_adjust.trans hx.2.1,?_,mem_keys_adjust.trans hx.2.2.2⟩
    · refine mem_keys_insertIn.trans ((or_iff_right_of_imp ?_).trans hx.1)
      rintro rfl
      exact hx.1.mpr hw
    · refine mem_keys_insertIn.trans ((or_iff_right_of_imp ?_).trans hx.2.2.1)
      rintro rfl
      exact hx.2.2.1.mpr hv

theorem Sound.dropEdge (h : g.Sound) (ho : lookup g.edgeObjs e = some o) :
    (g.dropEdge e o).Sound := by
  refine ⟨h.linked.dropEdge ho,fun e' o' ho' => ?_,fun x => ?_,h.listed,h.domain⟩
  · rw [Graph.dropEdge,lookup_remove] at ho'
    split at ho'
    · cases ho'
    · exact h.endpoints e' o' ho'
  · have hx := h.tables x
    exact ⟨mem_keys_adjust.trans hx.1,mem_keys_adjust.trans hx.2.1,mem_keys_adjust.trans hx.2.2.1,
      mem_keys_adjust.trans hx.2.2.2⟩

theorem Sound.removeEdge (h : g.Sound) (v w : PyStr) (name : Option PyStr) :
    (g.removeEdge v w name).Sound := by
  rw [Graph.removeEdge]
  split
  · next ho => exact h.dropEdge ho
  · exact h

theorem Sound.withLabels (h : g.Sound) {labels : List (PyStr × Option E)}
    (hkeys : keys labels = keys g.edgeLabels) :
    ({g with edgeLabels := labels} : Graph N E).Sound :=
  ⟨h.linked.congr rfl rfl hkeys rfl (fun _ => rfl) (fun _ => rfl) (fun _ => rfl) fun _ => rfl,
    h.endpoints,h.tables,h.listed,h.domain⟩

theorem Sound.relabel (h : g.Sound) (he : e ∈ keys g.edgeLabels) (label : Option E) :
    (g.relabel e label).Sound := by
  cases label with
  | none => exact h
  | some l => exact h.withLabels (keys_assign_of_mem he _)

/-- An undirected edge is not made with its end points swapped. -/
def KeepsOrder (g : Graph N E) (v w : PyStr) (name : Option PyStr) : Prop :=
  swapped g.isDirected v w = true → edgeArgsToId g.isDirected v w name ∈ keys g.edgeLabels ∨
    name.isSome ∧ g.isMultigraph = false

theorem edgeLabels_setNode (g : Graph N E) (v : PyStr) (value : Option N) :
    (g.setNode v value).edgeLabels = g.edgeLabels ∧ (g.setNode v value).edgeObjs = g.edgeObjs ∧
      (g.setNode v value).defaultEdgeLabelFn = g.defaultEdgeLabelFn ∧
      (g.setNode v value).edgeDefault = g.edgeDefault := by
  by_cases hv : v ∈ keys g.nodes
  · cases value with
    | none =>
      rw [setNode_none_of_mem hv]
      exact ⟨rfl,rfl,rfl,rfl⟩
    | some a =>
      rw [setNode,if_pos hv]
      exact ⟨rfl,rfl,rfl,rfl⟩
  · rw [setNode_of_new hv]
    exact ⟨rfl,rfl,rfl,rfl⟩

theorem Sound.createEdge (h : g.Sound) (label : Option E) (name : Option PyStr)
    (hstored : swapped g.isDirected v w = false)
    (hnew : edgeArgsToId g.isDirected v w name ∉ keys g.edgeLabels) :
    (g.createEdge v w label name).Sound := by
  have hdir : ((g.setNode v none).setNode w none).isDirected = g.isDirected :=
    (sameKind_setNode _ w none).1.trans (sameKind_setNode g v none).1
  refine ((h.setNode v none).setNode w none).linkEdge label name (by rwa [hdir]) ?_ ?_ ?_
  · rwa [hdir,(edgeLabels_setNode _ w none).1,(edgeLabels_setNode g v none).1]
  · exact (mem_nodes_setNode none).mpr (.inr ((mem_nodes_setNode none).mpr (.inl rfl)))
  · exact (mem_nodes_setNode none).mpr (.inl rfl)

theorem setEdge_cases (g : Graph N E) (v w : PyStr) (label : Option E) (name : Option PyStr) :
    (edgeArgsToId g.isDirected v w name ∈ keys g.edgeLabels ∧
      g.setEdge v w label name = ⟨none,g.relabel (edgeArgsToId g.isDirected v w name) label⟩) ∨
    (edgeArgsToId g.isDirected v w name ∉ keys g.edgeLabels ∧
      ((name.isSome ∧ g.isMultigraph = false ∧ (g.setEdge v w label name).graph = g ∧
          (g.setEdge v w label name).raised.isSome) ∨
        (¬ (name.isSome ∧ g.isMultigraph = false) ∧
          g.setEdge v w label name = ⟨none,g.createEdge v w label name⟩))) := by
  rw [setEdge]
  by_cases he : edgeArgsToId g.isDirected v w name ∈ keys g.edgeLabels
  · rw [if_pos he]
    exact .inl ⟨he,rfl⟩
  · rw [if_neg he]
    by_cases hn : name.isSome ∧ g.isMultigraph = false
    · rw [if_pos hn]
      exact .inr ⟨he,.inl ⟨hn.1,hn.2,rfl,rfl⟩⟩
    · rw [if_neg hn]
      exact .inr ⟨he,.inr ⟨hn,rfl⟩⟩

theorem Sound.setEdge (h : g.Sound) (label : Option E) {name : Option PyStr}
    (hk : g.KeepsOrder v w name) : (g.setEdge v w label name).graph.Sound := by
  rcases g.setEdge_cases v w label name with ⟨he,heq⟩ | ⟨he,⟨-,-,heq,-⟩ | ⟨hn,heq⟩⟩
  · rw [heq]
    exact h.relabel he label
  · rwa [heq]
  · rw [heq]
    refine h.createEdge label name (Bool.eq_false_iff.mpr fun hs => ?_) he
    rcases hk hs with hmem | hnamed
    · exact he hmem
    · exact hn hnamed

/-- Every edge at the node has the id that it would have without its name. -/
def Nameless (g : Graph N E) (v : PyStr) : Prop :=
  ∀ o ∈ g.edges, (o.v = v ∨ o.w = v) →
    edgeArgsToId g.isDirected o.v o.w none = edgeObjToId g.isDirected o

/-- Nothing but the edges has changed, and the same nodes have tables. -/
def SameNodes (g g' : Graph N E) : Prop :=
  g'.isDirected = g.isDirected ∧ SameForest g g' ∧ keys g'.ins = keys g.ins ∧
    keys g'.preds = keys g.preds ∧ keys g'.outs = keys g.outs ∧ keys g'.sucs = keys g.sucs

theorem keys_adjust {V : Type} (ts : List (PyStr × V)) (k : PyStr) (f : V → V) :
    keys (adjust ts k f) = keys ts := by
  rw [adjust]
  split
  · next ht =>
    refine keys_assign_of_mem ?_ _
    rw [← isSome_lookup_iff,ht]
    rfl
  · rfl

theorem sameNodes_dropEdge (g : Graph N E) (e : PyStr) (o : Edge) : SameNodes g (g.dropEdge e o) :=
  ⟨rfl,⟨rfl,rfl,rfl,rfl⟩,keys_adjust _ _ _,keys_adjust _ _ _,keys_adjust _ _ _,keys_adjust _ _ _⟩

theorem SameNodes.trans (h : SameNodes g s) (h' : SameNodes s t) : SameNodes g t :=
  ⟨h'.1.trans h.1,h.2.1.trans h'.2.1,h'.2.2.1.trans h.2.2.1,h'.2.2.2.1.trans h.2.2.2.1,
    h'.2.2.2.2.1.trans h.2.2.2.2.1,h'.2.2.2.2.2.trans h.2.2.2.2.2⟩

theorem foldl_cascade (es : List PyStr) (h : g.Linked)
    (hes : ∀ e ∈ es, ∀ o, lookup g.edgeObjs e = some o →
      edgeArgsToId g.isDirected o.v o.w none = e) :
    (es.foldl cascade g).Linked ∧ SameNodes g (es.foldl cascade g) ∧
      ∀ e o, lookup (es.foldl cascade g).edgeObjs e = some o ↔
        e ∉ es ∧ lookup g.edgeObjs e = some o := by
  induction es generalizing g with
  | nil => exact ⟨h,⟨rfl,.refl g,rfl,rfl,rfl,rfl⟩,fun e o => by simp⟩
  | cons e es ih =>
    rw [List.foldl_cons]
    cases ho : lookup g.edgeObjs e with
    | none =>
      have hstep : g.cascade e = g := by rw [cascade,ho]
      rw [hstep]
      obtain ⟨hl,hs,hiff⟩ := ih h fun e' he' => hes e' (List.mem_cons_of_mem e he')
      refine ⟨hl,hs,fun e' o => ?_⟩
      rw [hiff,List.mem_cons,not_or,and_assoc]
      refine (and_iff_right_of_imp fun h' => ?_).symm
      rintro rfl
      cases ho.symm.trans h'.2
    | some o =>
      have hid := hes e List.mem_cons_self o ho
      have hstep : g.cascade e = g.dropEdge e o := by
        rw [cascade,ho]
        dsimp only
        rw [removeEdgeWithObj,removeEdge,hid,ho]
      have hobjs : ∀ e', lookup (g.dropEdge e o).edgeObjs e' =
          if e = e' then none else lookup g.edgeObjs e' := lookup_remove g.edgeObjs e
      rw [hstep]
      obtain ⟨hl,hs,hiff⟩ := ih (h.dropEdge ho) fun e' he' o' ho' => by
        rw [hobjs] at ho'
        split at ho'
        · cases ho'
        · exact hes e' (List.mem_cons_of_mem e he') o' ho'
      refine ⟨hl,(sameNodes_dropEdge g e o).trans hs,fun e' o' => ?_⟩
      rw [hiff,List.mem_cons,not_or,hobjs]
      by_cases he : e = e'
      · simp [he]
      · simp [he,Ne.symm he]

theorem Side.mem_keys (h : Side objs side tables) :
    e ∈ keys (table tables v) ↔ ∃ o, lookup objs e = some o ∧ side o = v := by
  rw [← isSome_lookup_iff,h v e,Option.isSome_iff_exists]
  simp only [Option.filter_eq_some_iff,decide_eq_true_eq]

/-- A table that no edge belongs to is as good as none. -/
theorem Side.drop (h : Side objs side tables)
    (hv : ∀ e o, lookup objs e = some o → side o ≠ v) : Side objs side (OrderedDict.remove tables v) := by
  intro x e
  rw [table_remove]
  split
  · next hx =>
    subst hx
    cases ho : lookup objs e with
    | none => rfl
    | some o => simp [Option.filter,hv e o ho]
  · exact h x e

theorem Tally.drop {tables : List (PyStr × List (PyStr × ℤ))}
    (h : Tally count tables) (hv : ∀ u, count v u = 0) : Tally count (remove tables v) := by
  intro x u
  rw [table_remove]
  split
  · next hx =>
    subst hx
    rw [hv]
    rfl
  · exact h x u

theorem multiplicity_eq_zero (h : g.Linked)
    (hne : ∀ e o, lookup g.edgeObjs e = some o → ¬ (o.v = v ∧ o.w = w)) :
    g.multiplicity v w = 0 := by
  rw [multiplicity,List.countP_eq_zero]
  intro kv hkv
  have hl := lookup_of_mem h.distinct (k := kv.1) (v := kv.2) hkv
  simpa using hne kv.1 kv.2 hl

theorem foldl_cascade_at (tip : Edge → PyStr) {es : List PyStr} (h : g.Linked)
    (hkeys : ∀ e, e ∈ es ↔ ∃ o, lookup g.edgeObjs e = some o ∧ tip o = v)
    (hes : ∀ e o, lookup g.edgeObjs e = some o → tip o = v →
      edgeArgsToId g.isDirected o.v o.w none = e) :
    (es.foldl cascade g).Linked ∧ SameNodes g (es.foldl cascade g) ∧
      ∀ e o, lookup (es.foldl cascade g).edgeObjs e = some o ↔
        tip o ≠ v ∧ lookup g.edgeObjs e = some o := by
  obtain ⟨hl,hs,hiff⟩ := foldl_cascade es h fun e he o ho => by
    obtain ⟨o',ho',hw⟩ := (hkeys e).mp he
    cases ho.symm.trans ho'
    exact hes e o ho hw
  refine ⟨hl,hs,fun e o => ?_⟩
  rw [hiff,hkeys]
  refine and_congr_left fun ho => not_congr ?_
  simp [ho]

theorem dropIns_spec (h : g.Linked) (hv : v ∈ keys g.ins)
    (hes : ∀ e o, lookup g.edgeObjs e = some o → o.w = v →
      edgeArgsToId g.isDirected o.v o.w none = e) :
    ∃ g', g.dropIns v = {g' with ins := remove g'.ins v} ∧ SameNodes g g' ∧ g'.Linked ∧
      (∀ e o, lookup g'.edgeObjs e = some o ↔ o.w ≠ v ∧ lookup g.edgeObjs e = some o) ∧
      ({g' with ins := remove g'.ins v, preds := remove g'.preds v} : Graph N E).Linked := by
  obtain ⟨inEdges,hin⟩ := Option.isSome_iff_exists.mp (isSome_lookup_iff.mpr hv)
  have htable : table g.ins v = inEdges := by rw [table,hin]; rfl
  obtain ⟨hl,hs,hobjs⟩ := foldl_cascade_at Edge.w h (fun e => htable ▸ h.ins.mem_keys) hes
  refine ⟨(keys inEdges).foldl cascade g,by rw [dropIns,hin],hs,hl,hobjs,?_⟩
  refine ⟨hl.ids,hl.distinct,hl.own,hl.stored,hl.count,hl.ins.drop fun e o ho => ?_,hl.outs,
    hl.preds.drop fun u => multiplicity_eq_zero hl fun e o ho hvw => ?_,hl.sucs,hl.outKeys⟩
  · exact ((hobjs e o).mp ho).1
  · exact ((hobjs e o).mp ho).1 hvw.2

theorem dropOuts_spec (h : g.Linked) (hv : v ∈ keys g.outs)
    (hes : ∀ e o, lookup g.edgeObjs e = some o → o.v = v →
      edgeArgsToId g.isDirected o.v o.w none = e) :
    ∃ g', g.dropOuts v = {g' with outs := remove g'.outs v} ∧ SameNodes g g' ∧
      (∀ e o, lookup g'.edgeObjs e = some o ↔ o.v ≠ v ∧ lookup g.edgeObjs e = some o) ∧
      ({g' with outs := remove g'.outs v, sucs := remove g'.sucs v} : Graph N E).Linked := by
  obtain ⟨outEdges,hout⟩ := Option.isSome_iff_exists.mp (isSome_lookup_iff.mpr hv)
  have htable : table g.outs v = outEdges := by rw [table,hout]; rfl
  obtain ⟨hl,hs,hobjs⟩ := foldl_cascade_at Edge.v h (fun e => htable ▸ h.outs.mem_keys) hes
  refine ⟨(keys outEdges).foldl cascade g,by rw [dropOuts,hout],hs,hobjs,?_⟩
  refine ⟨hl.ids,hl.distinct,hl.own,hl.stored,hl.count,hl.ins,hl.outs.drop fun e o ho => ?_,
    hl.preds,hl.sucs.drop fun u => multiplicity_eq_zero hl fun e o ho hvw => ?_,fun x => ?_⟩
  · exact ((hobjs e o).mp ho).1
  · exact ((hobjs e o).mp ho).1 hvw.1
  · rw [table_remove]
    split
    · exact List.nodup_nil
    · exact hl.outKeys x

theorem dropAt_spec (h : g.Linked) (hin : v ∈ keys g.ins) (hout : v ∈ keys g.outs)
    (hes : ∀ e o, lookup g.edgeObjs e = some o → o.v = v ∨ o.w = v →
      edgeArgsToId g.isDirected o.v o.w none = e) :
    ∃ g', ({g.dropIns v with preds := remove (g.dropIns v).preds v} : Graph N E).dropOuts v =
        {g' with outs := remove g'.outs v} ∧
      ({g' with outs := remove g'.outs v, sucs := remove g'.sucs v} : Graph N E).Linked ∧
      g'.isDirected = g.isDirected ∧ SameForest g g' ∧
      (∀ e o, lookup g'.edgeObjs e = some o ↔ o.v ≠ v ∧ o.w ≠ v ∧ lookup g.edgeObjs e = some o) ∧
      keys g'.ins = (keys g.ins).filter (· ≠ v) ∧ keys g'.preds = (keys g.preds).filter (· ≠ v) ∧
      keys g'.outs = keys g.outs ∧ keys g'.sucs = keys g.sucs := by
  obtain ⟨g₁,heq₁,hsame₁,hl₁,hobjs₁,hlinked₁⟩ := dropIns_spec h hin fun e o ho hw =>
    hes e o ho (.inr hw)
  obtain ⟨hdir₁,hf₁,hins₁,hpreds₁,houts₁,hsucs₁⟩ := hsame₁
  have hout₁ : v ∈ keys g₁.outs := by rwa [houts₁]
  obtain ⟨g₂,heq₂,⟨hdir₂,hf₂,hins₂,hpreds₂,houts₂,hsucs₂⟩,hobjs₂,hlinked₂⟩ :=
    dropOuts_spec hlinked₁ hout₁ fun e o ho hv => by
      dsimp only
      rw [hdir₁]
      exact hes e o ((hobjs₁ e o).mp ho).2 (.inl hv)
  refine ⟨g₂,by rw [heq₁]; exact heq₂,hlinked₂,hdir₂.trans hdir₁,hf₁.trans hf₂,fun e o => ?_,
    ?_,?_,houts₂.trans houts₁,hsucs₂.trans hsucs₁⟩
  · rw [hobjs₂,hobjs₁]
  · rw [hins₂,keys_remove,hins₁]
  · rw [hpreds₂,keys_remove,hpreds₁]

theorem Sound.removeNode_eq (h : g.Sound) (hn : g.Nameless v) (hmem : v ∈ keys g.nodes) :
    ∃ P C g', g.removeNode v = {g' with
        outs := remove g'.outs v, sucs := remove g'.sucs v, nodeCount := g'.nodeCount-1} ∧
      (g.isCompound = true → ({g with
        nodes := remove g.nodes v, parent := P, children := C} : Graph N E).Listed ∧
        ∀ c, (lookup P c).isSome → c ∈ keys (remove g.nodes v)) ∧
      ({g' with outs := remove g'.outs v, sucs := remove g'.sucs v} : Graph N E).Linked ∧
      SameForest {g with nodes := remove g.nodes v, parent := P, children := C} g' ∧
      (∀ e o, lookup g'.edgeObjs e = some o ↔ o.v ≠ v ∧ o.w ≠ v ∧ lookup g.edgeObjs e = some o) ∧
      keys g'.ins = (keys g.ins).filter (· ≠ v) ∧ keys g'.preds = (keys g.preds).filter (· ≠ v) ∧
      keys g'.outs = keys g.outs ∧ keys g'.sucs = keys g.sucs := by
  have hes : ∀ e o, lookup g.edgeObjs e = some o → o.v = v ∨ o.w = v →
      edgeArgsToId g.isDirected o.v o.w none = e := by
    intro e o ho hat
    rw [hn o (List.mem_map_of_mem (mem_of_lookup ho)) hat]
    exact h.linked.own e o ho
  -- the node leaves the node list and the forest
  have hforest : ∃ parent children,
      (if g.isCompound then ({g with nodes := remove g.nodes v} : Graph N E).leaveForest v
        else {g with nodes := remove g.nodes v}) =
        {g with nodes := remove g.nodes v, parent := parent, children := children} ∧
      (g.isCompound = true → ({g with
        nodes := remove g.nodes v, parent := parent, children := children} : Graph N E).Listed ∧
        ∀ c, (lookup parent c).isSome → c ∈ keys (remove g.nodes v)) := by
    by_cases hc : g.isCompound = true
    · have hlisted := h.listed hc
      obtain ⟨P,C,hleave,hdom,hPv,hl,-⟩ :=
        leaveForest_eq (v := v) (g := {g with nodes := remove g.nodes v}) hc hlisted
          fun c hsome hne => mem_keys_remove_iff.mpr ⟨hne,h.domain hc c hsome⟩
      rw [if_pos hc]
      refine ⟨P,C,hleave,fun _ => ⟨hl,fun c hsome => mem_keys_remove_iff.mpr ?_⟩⟩
      have hcv : c ≠ v := by
        rintro rfl
        rw [hPv] at hsome
        cases hsome
      exact ⟨hcv,h.domain hc c (hdom c hcv hsome)⟩
    · rw [if_neg hc]
      exact ⟨g.parent,g.children,rfl,fun hc' => absurd hc' hc⟩
  obtain ⟨P,C,hleave,hPC⟩ := hforest
  obtain ⟨g',heq,hlinked,-,hsame,hobjs,hkeys⟩ :=
    dropAt_spec (v := v) (g := {g with nodes := remove g.nodes v, parent := P, children := C})
      (h.linked.congr rfl rfl rfl rfl (fun _ => rfl) (fun _ => rfl) (fun _ => rfl) fun _ => rfl)
      ((h.tables v).1.mpr hmem) ((h.tables v).2.2.1.mpr hmem) hes
  refine ⟨P,C,g',?_,hPC,hlinked,hsame,hobjs,hkeys⟩
  rw [Graph.removeNode,if_pos hmem]
  dsimp only
  rw [hleave,heq]

theorem Sound.removeNode (h : g.Sound) (hn : g.Nameless v) : (g.removeNode v).Sound := by
  by_cases hmem : v ∈ keys g.nodes
  · obtain ⟨P,C,g',hremove,hPC,hlinked,⟨hcomp,hnodes,hparent,hchildren⟩,hobjs,hins,hpreds,houts,
      hsucs⟩ := h.removeNode_eq hn hmem
    rw [hremove]
    refine ⟨?_,fun e o ho => ?_,fun x => ?_,fun hc => ?_,fun hc c hsome => ?_⟩
    · exact hlinked.congr rfl rfl rfl rfl (fun _ => rfl) (fun _ => rfl) (fun _ => rfl) fun _ => rfl
    · obtain ⟨hv,hw,ho⟩ := (hobjs e o).mp ho
      obtain ⟨hov,how⟩ := h.endpoints e o ho
      dsimp only
      rw [hnodes]
      exact ⟨mem_keys_remove_iff.mpr ⟨hv,hov⟩,mem_keys_remove_iff.mpr ⟨hw,how⟩⟩
    · have hx := h.tables x
      dsimp only at hins hpreds houts hsucs hnodes ⊢
      rw [hnodes,hins,hpreds,keys_remove,keys_remove,keys_remove,houts,hsucs]
      simp only [List.mem_filter,hx.1,hx.2.1,hx.2.2.1,hx.2.2.2,and_self]
    · dsimp only at hc
      rw [hcomp] at hc
      have hl := (hPC hc).1
      rw [Listed] at hl ⊢
      dsimp only at hl hchildren hparent ⊢
      rwa [hchildren,hparent]
    · dsimp only at hc hsome hnodes hparent ⊢
      rw [hcomp] at hc
      rw [hparent] at hsome
      rw [hnodes]
      exact (hPC hc).2 c hsome
  · rw [Graph.removeNode,if_neg hmem]
    exact h

/-- The pairs of a path whose end points are swapped name edges that are there by then. -/
def PathKeeps (isDirected : Bool) : List PyStr → List (PyStr × PyStr) → Prop
  | _, [] => True
  | known, (v,w)::rest =>
    (swapped isDirected v w = true → edgeArgsToId isDirected v w none ∈ known) ∧
      PathKeeps isDirected (edgeArgsToId isDirected v w none::known) rest

theorem sameKind_setEdge (g : Graph N E) (v w : PyStr) (label : Option E) (name : Option PyStr) :
    SameKind g (g.setEdge v w label name).graph := by
  rcases g.setEdge_cases v w label name with ⟨-,heq⟩ | ⟨-,⟨-,-,heq,-⟩ | ⟨-,heq⟩⟩
  · rw [heq]
    cases label <;> exact ⟨rfl,rfl,rfl⟩
  · rw [heq]
    exact ⟨rfl,rfl,rfl⟩
  · rw [heq]
    obtain ⟨h₁,h₂,h₃⟩ := sameKind_setNode g v none
    obtain ⟨h₁',h₂',h₃'⟩ := sameKind_setNode (g.setNode v none) w none
    exact ⟨h₁'.trans h₁,h₂'.trans h₂,h₃'.trans h₃⟩

theorem mem_labels_setEdge (g : Graph N E) (v w : PyStr) (label : Option E) :
    ∀ e, e = edgeArgsToId g.isDirected v w none ∨ e ∈ keys g.edgeLabels →
      e ∈ keys (g.setEdge v w label none).graph.edgeLabels := by
  intro e he
  rcases g.setEdge_cases v w label none with ⟨hmem,heq⟩ | ⟨-,⟨hn,-⟩ | ⟨-,heq⟩⟩
  · have hold : e ∈ keys g.edgeLabels := by
      rcases he with rfl | he
      · exact hmem
      · exact he
    rw [heq]
    cases label with
    | none => exact hold
    | some l => exact mem_keys_assign_iff.mpr (.inr hold)
  · cases hn
  · have hdir : ((g.setNode v none).setNode w none).isDirected = g.isDirected :=
      (sameKind_setNode _ w none).1.trans (sameKind_setNode g v none).1
    rw [heq,createEdge,linkEdge]
    dsimp only
    rw [hdir,(edgeLabels_setNode _ w none).1,(edgeLabels_setNode g v none).1]
    exact mem_keys_assign_iff.mpr he

theorem foldl_setEdge_sound (pairs : List (PyStr × PyStr)) (value : Option E) (known : List PyStr)
    (h : g.Sound) (hknown : ∀ e ∈ known, e ∈ keys g.edgeLabels)
    (hk : PathKeeps g.isDirected known pairs) :
    (pairs.foldl (fun g vw => (g.setEdge vw.1 vw.2 value none).graph) g).Sound := by
  induction pairs generalizing g known with
  | nil => exact h
  | cons vw pairs ih =>
    obtain ⟨hvw,hrest⟩ := hk
    have hsame := (sameKind_setEdge g vw.1 vw.2 value none).1
    refine ih _ (h.setEdge value fun hs => .inl (hknown _ (hvw hs))) (fun e he => ?_)
      (by rw [hsame]; exact hrest)
    refine mem_labels_setEdge g vw.1 vw.2 value e ?_
    exact (List.mem_cons.mp he).imp_right (hknown e)

theorem Sound.setPath (h : g.Sound) {vs : List PyStr} (value : Option E)
    (hk : PathKeeps g.isDirected (keys g.edgeLabels) (vs.zip vs.tail)) :
    (g.setPath vs value).Sound :=
  foldl_setEdge_sound (vs.zip vs.tail) value (keys g.edgeLabels) h (fun _ => id) hk

theorem Sound.setNodes (h : g.Sound) (vs : List PyStr) (value : Option N) :
    (g.setNodes vs value).Sound := by
  rw [Graph.setNodes]
  induction vs generalizing g with
  | nil => exact h
  | cons v vs ih => exact ih (h.setNode v value)

theorem sound_new (opts : GraphOption) (nd : Option N) (ed : Option E) :
    (Graph.new opts nd ed).Sound := by
  refine ⟨⟨rfl,List.nodup_nil,?_,?_,rfl,fun v e => rfl,fun v e => rfl,fun v u => rfl,
    fun v u => rfl,fun v => List.nodup_nil⟩,?_,?_,?_,?_⟩
  · intro e o ho
    cases ho
  · intro e o ho
    cases ho
  · intro e o ho
    cases ho
  · intro v
    simp [Graph.new,keys]
  · intro hc p c hmem
    have hchildren : (Graph.new opts nd ed).children = [(graphNode,[])] := if_pos hc
    rw [hchildren,table,lookup_cons] at hmem
    split at hmem
    · cases hmem
    · cases hmem
  · intro _ c hsome
    cases hsome

theorem copyNodes_spec (g : Graph N E) (filter : PyStr → Bool) :
    (g.copyNodes filter).Sound ∧ (g.copyNodes filter).isDirected = g.isDirected ∧
      (g.copyNodes filter).edgeObjs = [] ∧ (∀ v, v ∈ keys (g.copyNodes filter).nodes ↔
        v ∈ keys g.nodes ∧ filter v = true) := by
  have hfold : ∀ (kvs : List (PyStr × Option N)) (c : Graph N E), c.Sound →
      (kvs.foldl (fun copy kv => copy.setNode kv.1 kv.2) c).Sound ∧
      (kvs.foldl (fun copy kv => copy.setNode kv.1 kv.2) c).isDirected = c.isDirected ∧
      (kvs.foldl (fun copy kv => copy.setNode kv.1 kv.2) c).edgeObjs = c.edgeObjs ∧
      ∀ v, v ∈ keys (kvs.foldl (fun copy kv => copy.setNode kv.1 kv.2) c).nodes ↔
        v ∈ keys c.nodes ∨ v ∈ kvs.map Prod.fst := by
    intro kvs
    induction kvs with
    | nil => exact fun c hc => ⟨hc,rfl,rfl,fun v => by simp⟩
    | cons kv kvs ih =>
      intro c hc
      obtain ⟨hs,hd,ho,hn⟩ := ih (c.setNode kv.1 kv.2) (hc.setNode kv.1 kv.2)
      refine ⟨hs,hd.trans (sameKind_setNode c kv.1 kv.2).1,
        ho.trans (edgeLabels_setNode c kv.1 kv.2).2.1,fun v => ?_⟩
      rw [List.foldl_cons,hn,mem_nodes_setNode,List.map_cons,List.mem_cons,or_assoc]
      exact or_left_comm
  obtain ⟨hs,hd,ho,hn⟩ := hfold (g.nodes.filter fun kv => filter kv.1)
    (new ⟨some g.isDirected,some g.isMultigraph,some g.isCompound⟩ g.nodeDefault g.edgeDefault)
    (sound_new _ _ _)
  refine ⟨hs,hd,ho,fun v => (hn v).trans ?_⟩
  simp [Graph.new,keys]

theorem Linked.mem_edges (h : g.Linked) :
    o ∈ g.edges ↔ lookup g.edgeObjs (edgeObjToId g.isDirected o) = some o := by
  constructor
  · intro ho
    obtain ⟨⟨e,o⟩,hmem,rfl⟩ := List.mem_map.mp ho
    have hl := lookup_of_mem h.distinct hmem
    rwa [h.own e o hl]
  · intro ho
    exact List.mem_map_of_mem (mem_of_lookup ho)

theorem Sound.copyEdge (h : g.Sound) (hc : copy.Sound)
    (hdir : copy.isDirected = g.isDirected) (ho : o ∈ g.edges) :
    (g.copyEdge copy o).Sound ∧ (g.copyEdge copy o).isDirected = g.isDirected := by
  rw [Graph.copyEdge]
  split
  · have hstored := h.linked.stored _ o (h.linked.mem_edges.mp ho)
    refine ⟨hc.setEdge _ fun hs => ?_,(sameKind_setEdge copy o.v o.w _ none).1.trans hdir⟩
    rw [hdir,hstored] at hs
    cases hs
  · exact ⟨hc,hdir⟩

theorem Sound.foldl_copyEdge (h : g.Sound) (es : List Edge)
    (hes : ∀ o ∈ es, o ∈ g.edges) (hc : copy.Sound) (hdir : copy.isDirected = g.isDirected) :
    (es.foldl g.copyEdge copy).Sound := by
  induction es generalizing copy with
  | nil => exact hc
  | cons o es ih =>
    obtain ⟨hc',hdir'⟩ := h.copyEdge hc hdir (hes o List.mem_cons_self)
    exact ih (fun o' ho' => hes o' (List.mem_cons_of_mem o ho')) hc' hdir'

theorem edgeObjs_setParent {parent : Option PyStr}
    (ho : g.setParent v parent = some out) : out.graph.edgeObjs = g.edgeObjs := by
  have hreparent : ∀ (g : Graph N E) (p : PyStr), (g.reparent v p).edgeObjs = g.edgeObjs := by
    intro g p
    obtain ⟨children,heq,-⟩ := (g.setNode v none).attach_eq v p
    rw [reparent,heq]
    exact (edgeLabels_setNode g v none).2.1
  rcases setParent_cases ho with ⟨-,hgraph,-⟩ | ⟨-,rfl⟩ | ⟨p,-,-,rfl⟩
  · rw [hgraph]
  · exact hreparent g graphNode
  · exact (hreparent _ p).trans (edgeLabels_setNode g p none).2.1

theorem threadParents_spec (g : Graph N E) (vs : List PyStr) {memo : List (PyStr × PyStr)} (hc : copy.Sound)
    (ho : g.threadParents vs memo copy = some out) :
    out.graph.Sound ∧ out.graph.edgeObjs = copy.edgeObjs := by
  induction vs generalizing memo copy with
  | nil =>
    cases ho
    exact ⟨hc,rfl⟩
  | cons v vs ih =>
    rw [threadParents] at ho
    cases hf : g.findParent copy (g.parent.length+1) v memo with
    | none => simp only [hf] at ho; cases ho
    | some found =>
      simp only [hf] at ho
      cases hp : copy.setParent v found.1 with
      | none => simp only [hp] at ho; cases ho
      | some out' =>
        have hc' := hc.setParent hp
        have he' := edgeObjs_setParent hp
        obtain ⟨raised,copy'⟩ := out'
        simp only [hp] at ho
        cases raised with
        | some message =>
          cases ho
          exact ⟨hc',he'⟩
        | none =>
          obtain ⟨hs,he⟩ := ih hc' ho
          exact ⟨hs,he.trans he'⟩

theorem Sound.filterNodes (h : g.Sound) {filter : PyStr → Bool}
    (ho : g.filterNodes filter = some out) : out.graph.Sound := by
  obtain ⟨hs,hd,-,-⟩ := g.copyNodes_spec filter
  have hcopy := h.foldl_copyEdge g.edges (fun _ => id) hs hd
  rw [Graph.filterNodes] at ho
  split at ho
  · exact (threadParents_spec g _ hcopy ho).1
  · cases ho
    exact hcopy

theorem copyEdge_of_new (h : g.Sound) (hdir : copy.isDirected = g.isDirected)
    (hlook : lookup g.edgeObjs e = some o) (hname : o.name = none) (hv : o.v ∈ keys copy.nodes)
    (hw : o.w ∈ keys copy.nodes) (hfresh : e ∉ keys copy.edgeLabels) :
    g.copyEdge copy o = copy.linkEdge o.v o.w (g.edgeWithObj o).join none ∧
      edgeArgsToId copy.isDirected o.v o.w none = e ∧
      edgeArgsToObj copy.isDirected o.v o.w none = o := by
  have hid := h.linked.own e o hlook
  have he : edgeArgsToId copy.isDirected o.v o.w none = e := by
    rw [hdir,← hname]
    exact hid
  have hstored : swapped copy.isDirected o.v o.w = false := by
    rw [hdir]
    exact h.linked.stored e o hlook
  have hhas : g.hasEdgeWithObj o = true := by
    rw [hasEdgeWithObj,hid,h.linked.ids]
    exact decide_eq_true (List.mem_map_of_mem (mem_of_lookup hlook))
  refine ⟨?_,he,?_⟩
  · rw [copyEdge,if_pos ⟨hv,hw,hhas⟩,setEdgeWithObj]
    rcases copy.setEdge_cases o.v o.w (g.edgeWithObj o).join none with
      ⟨hold,-⟩ | ⟨-,⟨hn,-⟩ | ⟨-,heq⟩⟩
    · exact absurd (he ▸ hold) hfresh
    · cases hn
    · rw [heq,createEdge,setNode_none_of_mem hv,setNode_none_of_mem hw]
  · rw [edgeArgsToObj_of_stored hstored,← hname]

/-- The nodes, the forest and what a label is when none is given. -/
def SameFrame (g t : Graph N E) : Prop :=
  SameForest g t ∧ t.isDirected = g.isDirected ∧ t.defaultEdgeLabel = g.defaultEdgeLabel

theorem foldl_copyEdge_edges {kept : Edge → Bool} (h : g.Sound)
    (rest done : List (PyStr × Edge)) (hobjs : g.edgeObjs = done++rest)
    (hnames : ∀ o ∈ g.edges, kept o = true → o.name = none) (hc : copy.Sound)
    (hdir : copy.isDirected = g.isDirected)
    (hkept : ∀ o ∈ g.edges, (o.v ∈ keys copy.nodes ∧ o.w ∈ keys copy.nodes) ↔ kept o = true)
    (hdone : copy.edgeObjs = done.filter fun eo => kept eo.2) :
    let t := (rest.map Prod.snd).foldl g.copyEdge copy
    t.edgeObjs = (done++rest).filter (fun eo => kept eo.2) ∧ SameFrame copy t ∧
      (∀ i ∈ keys copy.edgeObjs, lookup t.edgeLabels i = lookup copy.edgeLabels i) ∧
      ∀ eo ∈ rest, kept eo.2 = true → lookup t.edgeLabels eo.1 =
        some ((g.edgeWithObj eo.2).join.or (copy.defaultEdgeLabel eo.1)) := by
  induction rest generalizing copy done with
  | nil =>
    rw [List.append_nil,← hdone]
    exact ⟨rfl,⟨.refl copy,rfl,rfl⟩,fun _ _ => rfl,by simp⟩
  | cons eo rest ih =>
    obtain ⟨e,o⟩ := eo
    have hmem : (e,o) ∈ g.edgeObjs := by rw [hobjs]; simp
    have hlook := lookup_of_mem h.linked.distinct hmem
    have ho : o ∈ g.edges := List.mem_map_of_mem hmem
    have hobjs' : g.edgeObjs = (done++[(e,o)])++rest := by rw [hobjs]; simp
    have hsplit := h.linked.distinct
    rw [hobjs,keys,List.map_append,List.map_cons,List.nodup_append] at hsplit
    have hnew : e ∉ keys copy.edgeObjs := by
      rw [hdone]
      intro hin
      obtain ⟨eo,heo,rfl⟩ := List.mem_map.mp hin
      exact hsplit.2.2 eo.1 (List.mem_map_of_mem (List.mem_filter.mp heo).1) eo.1
        List.mem_cons_self rfl
    obtain ⟨hs,hd⟩ := h.copyEdge hc hdir ho
    rw [List.map_cons,List.foldl_cons]
    by_cases hk : kept o = true
    · obtain ⟨hv,hw⟩ := (hkept o ho).mpr hk
      obtain ⟨hcopy,hid,hobj⟩ := copyEdge_of_new h hdir hlook (hnames o ho hk) hv hw
        (by rwa [hc.linked.ids])
      have hobjs'' : (g.copyEdge copy o).edgeObjs = copy.edgeObjs++[(e,o)] := by
        rw [hcopy,linkEdge]
        dsimp only
        rw [hid,hobj,assign_of_new hnew]
      have hlabels : ∀ i, lookup (g.copyEdge copy o).edgeLabels i = if e = i then
          some ((g.edgeWithObj o).join.or (copy.defaultEdgeLabel e)) else
            lookup copy.edgeLabels i := by
        intro i
        rw [hcopy,linkEdge]
        dsimp only
        rw [hid,lookup_assign]
      have hframe : SameFrame copy (g.copyEdge copy o) := by
        rw [hcopy]
        exact ⟨⟨rfl,rfl,rfl,rfl⟩,rfl,rfl⟩
      obtain ⟨⟨hcomp,hnodes,hpar,hchild⟩,-,hdefault⟩ := id hframe
      obtain ⟨hall,hframe',hold,hlab⟩ := ih (done++[(e,o)]) hobjs' hs hd
        (by rw [hnodes]; exact hkept) (by rw [hobjs'',hdone,List.filter_append]; simp [hk])
      have hkeys : ∀ i, i ∈ keys copy.edgeObjs ∨ i = e →
          i ∈ keys (g.copyEdge copy o).edgeObjs := by
        intro i hi
        rw [hobjs'',keys,List.map_append,List.mem_append,List.map_singleton,List.mem_singleton]
        exact hi
      refine ⟨by rw [hall,List.append_assoc,List.singleton_append],
        ⟨hframe.1.trans hframe'.1,hframe'.2.1.trans hframe.2.1,hframe'.2.2.trans hdefault⟩,
        fun i hi => ?_,fun eo heo hkeep => ?_⟩
      · have hne : e ≠ i := fun he => hnew (he ▸ hi)
        rw [hold i (hkeys i (.inl hi)),hlabels,if_neg hne]
      · rcases List.mem_cons.mp heo with rfl | heo
        · rw [hold e (hkeys e (.inr rfl)),hlabels,if_pos rfl]
        · rw [hlab eo heo hkeep,hdefault]
    · have hcopy : g.copyEdge copy o = copy := by
        rw [copyEdge,if_neg fun hin => hk ((hkept o ho).mp ⟨hin.1,hin.2.1⟩)]
      rw [hcopy]
      obtain ⟨hall,hframe,hold,hlab⟩ := ih (done++[(e,o)]) hobjs' hc hdir hkept
        (by rw [hdone,List.filter_append]; simp [hk])
      refine ⟨by rw [hall,List.append_assoc,List.singleton_append],hframe,hold,
        fun eo heo hkeep => ?_⟩
      rcases List.mem_cons.mp heo with rfl | heo
      · exact absurd hkeep hk
      · exact hlab eo heo hkeep

/-- The edges between nodes that a filter keeps. -/
def keptBy (filter : PyStr → Bool) (o : Edge) : Bool := filter o.v && filter o.w

theorem edges_filterNodes (h : g.Sound) {filter : PyStr → Bool}
    (hnames : ∀ o ∈ g.edges, keptBy filter o = true → o.name = none)
    (ho : g.filterNodes filter = some out) :
    out.graph.edges = g.edges.filter (keptBy filter) := by
  obtain ⟨hs,hd,hnil,hnodes⟩ := g.copyNodes_spec filter
  have hkept : ∀ o ∈ g.edges, (o.v ∈ keys (g.copyNodes filter).nodes ∧
      o.w ∈ keys (g.copyNodes filter).nodes) ↔ keptBy filter o = true := by
    intro o ho
    obtain ⟨hv,hw⟩ := h.represents.endpoints o ho
    rw [hnodes,hnodes,keptBy,Bool.and_eq_true]
    simp [hv,hw]
  have hfold := (foldl_copyEdge_edges h g.edgeObjs [] rfl hnames hs hd hkept hnil).1
  have hedges : (g.edges.foldl g.copyEdge (g.copyNodes filter)).edges =
      g.edges.filter (keptBy filter) := by
    rw [edges,edges,hfold,List.nil_append,List.filter_map]
    rfl
  have hcopy := h.foldl_copyEdge g.edges (fun _ => id) hs hd
  rw [filterNodes] at ho
  split at ho
  · rw [← hedges,edges,edges,(threadParents_spec g _ hcopy ho).2]
  · cases ho
    exact hedges

/-- The edge object as the graph stores it. -/
def canon (g : Graph N E) (e : Edge) : Edge := edgeArgsToObj g.isDirected e.v e.w e.name

/-- The label that the edge set gives to the edge `(v, w, name)`. -/
def labelOf (g : Graph N E) (e : Edge) : Option (Option E) :=
  (g.edgeObjs.find? fun kv => kv.2 = g.canon e).bind fun kv => lookup g.edgeLabels kv.1

/-- An operation gives a label to the edge, or takes it away, and does nothing to others. -/
def Gives (s t : Graph N E) (e : Edge) (label : Option (Option E)) : Prop :=
  t.labelOf e = label ∧ ∀ e', s.canon e' ≠ s.canon e → t.labelOf e' = s.labelOf e'

theorem edgeObjToId_canon (g : Graph N E) (e : Edge) :
    edgeObjToId g.isDirected (g.canon e) = edgeObjToId g.isDirected e := by
  by_cases hs : swapped g.isDirected e.v e.w = true
  · have hback : swapped g.isDirected e.w e.v = false := by
      rw [swapped,Bool.and_eq_true,Bool.not_eq_true',Bool.not_eq_true'] at hs
      rw [swapped]
      rcases strLe_total e.v e.w with hle | hle
      · rw [hle] at hs
        cases hs.2
      · rw [hle,Bool.not_true,Bool.and_false]
    simp [canon,edgeArgsToObj,edgeObjToId,edgeArgsToId,hs,hback]
  · simp [canon,edgeArgsToObj,edgeObjToId,edgeArgsToId,hs]

theorem labelOf_eq (h : g.Linked) (e : Edge) : g.labelOf e =
    if lookup g.edgeObjs (edgeObjToId g.isDirected e) = some (g.canon e) then
      lookup g.edgeLabels (edgeObjToId g.isDirected e) else none := by
  rw [labelOf]
  cases hf : g.edgeObjs.find? fun kv => decide (kv.2 = g.canon e) with
  | none =>
    have hnone : lookup g.edgeObjs (edgeObjToId g.isDirected e) ≠ some (g.canon e) := by
      intro hl
      have hne := List.find?_eq_none.mp hf _ (mem_of_lookup hl)
      simp at hne
    rw [if_neg hnone]
    rfl
  | some kv =>
    have hkv : kv.2 = g.canon e := by simpa using List.find?_some hf
    have hl := lookup_of_mem h.distinct (k := kv.1) (v := kv.2) (List.mem_of_find?_eq_some hf)
    have hid := h.own kv.1 kv.2 hl
    rw [hkv,edgeObjToId_canon] at hid
    rw [hid,if_pos (hkv ▸ hl)]
    rfl

/-- No other edge has the id of the edge. -/
def OwnId (g : Graph N E) (e : Edge) : Prop :=
  ∀ o, lookup g.edgeObjs (edgeObjToId g.isDirected e) = some o → o = g.canon e

theorem labelOf_of_ownId (h : g.Linked) {e : Edge} (hown : g.OwnId e) :
    g.labelOf e = lookup g.edgeLabels (edgeObjToId g.isDirected e) := by
  rw [labelOf_eq h]
  split
  · rfl
  · next hne =>
    have hnone : lookup g.edgeObjs (edgeObjToId g.isDirected e) = none := by
      rw [Option.eq_none_iff_forall_not_mem]
      intro o ho
      exact hne (hown o ho ▸ ho)
    rw [← Option.not_isSome_iff_eq_none,isSome_lookup_iff,← h.ids,← isSome_lookup_iff,
      Option.not_isSome_iff_eq_none] at hnone
    exact hnone.symm

theorem gives_of_tables (hs : s.Linked) (ht : t.Linked) {e : Edge} {label : Option (Option E)}
    (hdir : t.isDirected = s.isDirected) (hown : s.OwnId e) (hown' : t.OwnId e)
    (hlabel : lookup t.edgeLabels (edgeObjToId s.isDirected e) = label)
    (hrest : ∀ i, edgeObjToId s.isDirected e ≠ i →
      lookup t.edgeObjs i = lookup s.edgeObjs i ∧ lookup t.edgeLabels i = lookup s.edgeLabels i) :
    Gives s t e label := by
  have hcanon : ∀ e', t.canon e' = s.canon e' := fun e' => by rw [canon,canon,hdir]
  constructor
  · rw [labelOf_of_ownId ht hown',hdir,hlabel]
  · intro e' hne
    rw [labelOf_eq ht,labelOf_eq hs,hcanon,hdir]
    by_cases he : edgeObjToId s.isDirected e = edgeObjToId s.isDirected e'
    · have hother : ∀ o, o = s.canon e → o ≠ s.canon e' := by
        intro o ho heq
        exact hne (heq.symm.trans ho)
      rw [if_neg fun hl => hother _ (hcanon e ▸ hown' _ (by rw [hdir,he]; exact hl)) rfl,
        if_neg fun hl => hother _ (hown _ (by rw [he]; exact hl)) rfl]
    · obtain ⟨hobjs,hlabels⟩ := hrest _ he
      rw [hobjs,hlabels]

theorem OwnId.of_lookup {e : Edge}
    (h : lookup g.edgeObjs (edgeObjToId g.isDirected e) = some (g.canon e)) :
    g.OwnId e := fun _ ho => Option.some.inj (ho.symm.trans h)

/-- `set_edge` without a name acts on the edge: the edge is the one without a name, or
nothing changes on either of the two. -/
def SetsOwn (g : Graph N E) (e : Edge) (label : Option E) : Prop :=
  lookup g.edgeObjs (edgeArgsToId g.isDirected e.v e.w none) = some (g.canon e) ∨
  (lookup g.edgeObjs (edgeArgsToId g.isDirected e.v e.w none) = none ∧ e.name = none) ∨
  (lookup g.edgeObjs (edgeObjToId g.isDirected e) = some (g.canon e) ∧
    edgeArgsToId g.isDirected e.v e.w none ∈ keys g.edgeObjs ∧ ∀ l, label = some l →
      lookup g.edgeLabels (edgeArgsToId g.isDirected e.v e.w none) = some (some l) ∧
      lookup g.edgeLabels (edgeObjToId g.isDirected e) = some (some l))

/-- `remove_edge` without a name acts on the edge: it finds the edge itself, or it finds
none and the edge is not there. -/
def RemovesOwn (g : Graph N E) (e : Edge) : Prop :=
  match lookup g.edgeObjs (edgeArgsToId g.isDirected e.v e.w none) with
  | some o => o = g.canon e
  | none => lookup g.edgeObjs (edgeObjToId g.isDirected e) ≠ some (g.canon e)

/-- The label of the edge after it has been set. -/
def labelSet (g : Graph N E) (e : Edge) (label : Option E) : Option (Option E) :=
  some (label.or ((g.labelOf e).getD (g.defaultEdgeLabel (edgeObjToId g.isDirected e))))

theorem Linked.id_of_lookup (h : g.Linked) {i : PyStr} {e : Edge}
    (hl : lookup g.edgeObjs i = some (g.canon e)) : edgeObjToId g.isDirected e = i := by
  rw [← edgeObjToId_canon]
  exact h.own i _ hl

theorem Linked.mem_labels (h : g.Linked) {i : PyStr} :
    i ∈ keys g.edgeLabels ↔ (lookup g.edgeObjs i).isSome := by
  rw [h.ids,isSome_lookup_iff]

theorem gives_setEdgeWithObj (h : g.Sound) {e : Edge} {label : Option E}
    (hk : g.KeepsOrder e.v e.w none) (hown : g.SetsOwn e label) :
    Gives g (g.setEdgeWithObj e label).graph e (g.labelSet e label) := by
  have hsound : (g.setEdgeWithObj e label).graph.Sound := h.setEdge label hk
  have hdir : (g.setEdgeWithObj e label).graph.isDirected = g.isDirected :=
    (sameKind_setEdge g e.v e.w label none).1
  rw [SetsOwn] at hown
  generalize hi : edgeArgsToId g.isDirected e.v e.w none = i at hown
  rcases hown with hl | ⟨hnone,hname⟩ | ⟨hl,hmem,hsame⟩
  · -- the edge itself is found and gets the label
    have hid := h.linked.id_of_lookup hl
    have hmem : i ∈ keys g.edgeLabels := by
      rw [h.linked.mem_labels,hl]
      rfl
    have hown : g.OwnId e := .of_lookup (by rw [hid,hl])
    have hgraph : (g.setEdgeWithObj e label).graph = g.relabel i label := by
      rw [setEdgeWithObj,setEdge,hi,if_pos hmem]
    rw [hgraph] at hsound hdir ⊢
    obtain ⟨old,hold⟩ := Option.isSome_iff_exists.mp (isSome_lookup_iff.mpr hmem)
    have hlabel : g.labelOf e = some old := by rw [labelOf_of_ownId h.linked hown,hid,hold]
    cases label with
    | none =>
      refine ⟨?_,fun _ _ => rfl⟩
      rw [labelSet,hlabel]
      exact hlabel
    | some l =>
      refine gives_of_tables h.linked hsound.linked hdir hown hown ?_ fun j hj => ⟨rfl,?_⟩
      · rw [hid,relabel,lookup_assign,if_pos rfl]
        rfl
      · rw [relabel,lookup_assign,if_neg (hid ▸ hj)]
  · -- the edge is made
    have hid : edgeObjToId g.isDirected e = i := by rw [edgeObjToId,hname,hi]
    have hfresh : i ∉ keys g.edgeLabels := by
      rw [h.linked.mem_labels,hnone]
      exact Bool.false_ne_true
    have hown : g.OwnId e := fun o ho => by
      rw [hid,hnone] at ho
      cases ho
    have hdir' : ((g.setNode e.v none).setNode e.w none).isDirected = g.isDirected :=
      (sameKind_setNode _ e.w none).1.trans (sameKind_setNode g e.v none).1
    obtain ⟨hlabels₁,hobjs₁,hfn₁,hdef₁⟩ := edgeLabels_setNode g e.v none
    obtain ⟨hlabels₂,hobjs₂,hfn₂,hdef₂⟩ := edgeLabels_setNode (g.setNode e.v none) e.w none
    have hdefault : ((g.setNode e.v none).setNode e.w none).defaultEdgeLabel i = g.defaultEdgeLabel i := by
      rw [defaultEdgeLabel,defaultEdgeLabel,hfn₂,hfn₁,hdef₂,hdef₁]
    have hgraph : (g.setEdgeWithObj e label).graph = g.createEdge e.v e.w label none := by
      rw [setEdgeWithObj,setEdge,hi,if_neg hfresh,if_neg fun hn => Bool.false_ne_true hn.1]
    have hobjs : (g.createEdge e.v e.w label none).edgeObjs = assign g.edgeObjs i (g.canon e) := by
      rw [createEdge,linkEdge,canon,hname]
      dsimp only
      rw [hdir',hobjs₂,hobjs₁,hi]
    have hlabels : (g.createEdge e.v e.w label none).edgeLabels =
        assign g.edgeLabels i (label.or (g.defaultEdgeLabel i)) := by
      rw [createEdge,linkEdge]
      dsimp only
      rw [hdir',hlabels₂,hlabels₁,hi,hdefault]
    have hlabel : g.labelOf e = none := by
      rw [labelOf_of_ownId h.linked hown,hid,lookup_eq_none hfresh]
    rw [hgraph] at hsound hdir ⊢
    refine gives_of_tables h.linked hsound.linked hdir hown (.of_lookup ?_) ?_ fun j hj => ⟨?_,?_⟩
    · rw [hdir,hobjs,lookup_assign,if_pos hid.symm,canon,canon,hdir]
    · rw [hlabels,lookup_assign,if_pos hid.symm,labelSet,hlabel,hid]
      rfl
    · rw [hobjs,lookup_assign,if_neg (hid ▸ hj)]
    · rw [hlabels,lookup_assign,if_neg (hid ▸ hj)]
  · -- nothing changes
    have hown : g.OwnId e := .of_lookup hl
    have hmem' : i ∈ keys g.edgeLabels := by rwa [h.linked.ids]
    have hmemE : edgeObjToId g.isDirected e ∈ keys g.edgeLabels := by
      rw [h.linked.mem_labels,hl]
      rfl
    obtain ⟨old,hold⟩ := Option.isSome_iff_exists.mp (isSome_lookup_iff.mpr hmemE)
    have hlabel : g.labelOf e = some old := by rw [labelOf_of_ownId h.linked hown,hold]
    have hgraph : (g.setEdgeWithObj e label).graph = g.relabel i label := by
      rw [setEdgeWithObj,setEdge,hi,if_pos hmem']
    rw [hgraph] at hsound hdir ⊢
    cases label with
    | none =>
      refine ⟨?_,fun _ _ => rfl⟩
      rw [labelSet,hlabel]
      exact hlabel
    | some l =>
      obtain ⟨hli,hle⟩ := hsame l rfl
      refine gives_of_tables h.linked hsound.linked hdir hown hown ?_ fun j hj => ⟨rfl,?_⟩
      · rw [relabel,lookup_assign,hle]
        split <;> rfl
      · rw [relabel,lookup_assign]
        split
        · next hij => rw [← hij,hli]
        · rfl

theorem gives_removeEdgeWithObj (h : g.Sound) {e : Edge} (hown : g.RemovesOwn e) :
    Gives g (g.removeEdgeWithObj e) e none := by
  rw [RemovesOwn] at hown
  generalize hi : edgeArgsToId g.isDirected e.v e.w none = i at hown
  cases hl : lookup g.edgeObjs i with
  | none =>
    have hgraph : g.removeEdgeWithObj e = g := by rw [removeEdgeWithObj,removeEdge,hi,hl]
    rw [hl] at hown
    rw [hgraph]
    refine ⟨?_,fun _ _ => rfl⟩
    rw [labelOf_eq h.linked,if_neg hown]
  | some o =>
    rw [hl] at hown
    dsimp only at hown
    subst hown
    have hid := h.linked.id_of_lookup hl
    have hgraph : g.removeEdgeWithObj e = g.dropEdge i (g.canon e) := by
      rw [removeEdgeWithObj,removeEdge,hi,hl]
    have hdrop : ∀ j, lookup (g.dropEdge i (g.canon e)).edgeObjs j =
        if i = j then none else lookup g.edgeObjs j := lookup_remove g.edgeObjs i
    have hdropL : ∀ j, lookup (g.dropEdge i (g.canon e)).edgeLabels j =
        if i = j then none else lookup g.edgeLabels j := lookup_remove g.edgeLabels i
    rw [hgraph]
    refine gives_of_tables h.linked (h.linked.dropEdge hl) rfl (.of_lookup (by rw [hid,hl]))
      (fun o ho => ?_) ?_ fun j hj => ⟨?_,?_⟩
    · have hdir : (g.dropEdge i (g.canon e)).isDirected = g.isDirected := rfl
      rw [hdir,hid,hdrop,if_pos rfl] at ho
      cases ho
    · rw [hid,hdropL,if_pos rfl]
    · rw [hdrop,if_neg (hid ▸ hj)]
    · rw [hdropL,if_neg (hid ▸ hj)]

theorem gives_edgeMutWithObj (h : g.Sound) {e : Edge} (f : E → E) (hown : g.OwnId e) :
    (g.edgeMutWithObj e f).Sound ∧
      Gives g (g.edgeMutWithObj e f) e ((g.labelOf e).map (Option.map f)) := by
  have hsound : (g.edgeMutWithObj e f).Sound := h.withLabels (keys_adjust _ _ _)
  refine ⟨hsound,gives_of_tables h.linked hsound.linked rfl hown hown ?_ fun j hj => ⟨rfl,?_⟩⟩
  · rw [edgeMutWithObj,lookup_adjust,if_pos rfl,labelOf_of_ownId h.linked hown]
  · rw [edgeMutWithObj,lookup_adjust,if_neg hj]

/-- The operations of a graph. -/
inductive Op (N E : Type)
  | setDefaultNodeLabel (d : DefaultLabel N)
  | setDefaultEdgeLabel (d : DefaultLabel E)
  | setNode (v : PyStr) (value : Option N)
  | setNodes (vs : List PyStr) (value : Option N)
  | removeNode (v : PyStr)
  | setParent (v : PyStr) (parent : Option PyStr)
  | setEdge (v w : PyStr) (label : Option E) (name : Option PyStr)
  | setEdgeWithObj (e : Edge) (label : Option E)
  | setPath (vs : List PyStr) (value : Option E)
  | edgeWithObj (e : Edge)
  | hasEdgeWithObj (e : Edge)
  | edgeMutWithObj (e : Edge) (f : E → E)
  | removeEdge (v w : PyStr) (name : Option PyStr)
  | removeEdgeWithObj (e : Edge)
  | filterNodes (filter : PyStr → Bool)

/-- What a call leaves behind. The caller goes on with the copy that `filter_nodes` returns,
and with the old graph when it raises. -/
def graphCall (g : Graph N E) : Op N E → Option (Outcome N E)
  | .setDefaultNodeLabel d => some ⟨none,g.setDefaultNodeLabel d⟩
  | .setDefaultEdgeLabel d => some ⟨none,g.setDefaultEdgeLabel d⟩
  | .setNode v value => some ⟨none,g.setNode v value⟩
  | .setNodes vs value => some ⟨none,g.setNodes vs value⟩
  | .removeNode v => some ⟨none,g.removeNode v⟩
  | .setParent v parent => g.setParent v parent
  | .setEdge v w label name => some (g.setEdge v w label name)
  | .setEdgeWithObj e label => some (g.setEdgeWithObj e label)
  | .setPath vs value => some ⟨none,g.setPath vs value⟩
  | .edgeWithObj _ => some ⟨none,g⟩
  | .hasEdgeWithObj _ => some ⟨none,g⟩
  | .edgeMutWithObj e f => some ⟨none,g.edgeMutWithObj e f⟩
  | .removeEdge v w name => some ⟨none,g.removeEdge v w name⟩
  | .removeEdgeWithObj e => some ⟨none,g.removeEdgeWithObj e⟩
  | .filterNodes filter => (g.filterNodes filter).map fun o =>
    if o.raised.isSome then ⟨o.raised,g⟩ else o

def graphStep (g : Graph N E) (op : Op N E) : Option (Graph N E) :=
  (g.graphCall op).map Outcome.graph

/-- The operation keeps clear of the defects: an undirected edge is made in its stored
order, and a name plays no part where an edge object is taken apart. -/
def Keeps (g : Graph N E) : Op N E → Prop
  | .removeNode v => g.Nameless v
  | .setEdge v w _ name => g.KeepsOrder v w name
  | .setEdgeWithObj e label => g.KeepsOrder e.v e.w none ∧ g.SetsOwn e label
  | .setPath vs _ => PathKeeps g.isDirected (keys g.edgeLabels) (vs.zip vs.tail)
  | .edgeWithObj e => g.OwnId e
  | .hasEdgeWithObj e => g.OwnId e
  | .edgeMutWithObj e _ => g.OwnId e
  | .removeEdgeWithObj e => g.RemovesOwn e
  | .filterNodes filter => ∀ o ∈ g.edges, keptBy filter o = true → o.name = none
  | _ => True

/-- An operation that takes an edge object acts on the edge `(v, w, name)` of the object;
`filter_nodes` does so with every edge that it copies. -/
def ActsOnArgument (g : Graph N E) (op : Op N E) (o : Outcome N E) : Prop :=
  match op with
  | .setEdgeWithObj e label => Gives g o.graph e (g.labelSet e label)
  | .removeEdgeWithObj e => Gives g o.graph e none
  | .edgeMutWithObj e f => Gives g o.graph e ((g.labelOf e).map (Option.map f))
  | .edgeWithObj e => g.edgeWithObj e = g.labelOf e
  | .hasEdgeWithObj e => g.hasEdgeWithObj e = (g.labelOf e).isSome
  | .filterNodes filter => o.raised = none → o.graph.edges = g.edges.filter (keptBy filter)
  | _ => True

theorem graphCall_spec (h : g.Sound) {op : Op N E} (hk : g.Keeps op) {o : Outcome N E}
    (ho : g.graphCall op = some o) : o.graph.Sound ∧ g.ActsOnArgument op o := by
  cases op with
  | setDefaultNodeLabel d | setDefaultEdgeLabel d =>
    cases ho
    exact ⟨⟨h.linked.congr rfl rfl rfl rfl (fun _ => rfl) (fun _ => rfl) (fun _ => rfl)
      fun _ => rfl,h.endpoints,h.tables,h.listed,h.domain⟩,trivial⟩
  | setNode v value => cases ho; exact ⟨h.setNode v value,trivial⟩
  | setNodes vs value => cases ho; exact ⟨h.setNodes vs value,trivial⟩
  | removeNode v => cases ho; exact ⟨h.removeNode hk,trivial⟩
  | setParent v parent => exact ⟨h.setParent ho,trivial⟩
  | setEdge v w label name => cases ho; exact ⟨h.setEdge label hk,trivial⟩
  | setEdgeWithObj e label =>
    cases ho
    exact ⟨h.setEdge label hk.1,gives_setEdgeWithObj h hk.1 hk.2⟩
  | setPath vs value => cases ho; exact ⟨h.setPath value hk,trivial⟩
  | edgeWithObj e => cases ho; exact ⟨h,(labelOf_of_ownId h.linked hk).symm⟩
  | hasEdgeWithObj e =>
    cases ho
    refine ⟨h,?_⟩
    rw [ActsOnArgument,labelOf_of_ownId h.linked hk,hasEdgeWithObj,Bool.eq_iff_iff,
      decide_eq_true_iff,isSome_lookup_iff]
  | edgeMutWithObj e f => cases ho; exact gives_edgeMutWithObj h f hk
  | removeEdge v w name => cases ho; exact ⟨h.removeEdge v w name,trivial⟩
  | removeEdgeWithObj e =>
    cases ho
    exact ⟨h.removeEdge e.v e.w none,gives_removeEdgeWithObj h hk⟩
  | filterNodes filter =>
    obtain ⟨out,hout,rfl⟩ := Option.map_eq_some_iff.mp ho
    by_cases hr : out.raised.isSome
    · rw [if_pos hr]
      refine ⟨h,fun hn => ?_⟩
      rw [hn] at hr
      cases hr
    · rw [if_neg hr]
      exact ⟨h.filterNodes hout,fun _ => edges_filterNodes h hk hout⟩

/-- In every run whose operations keep clear of the defects, the edge objects determine
the tables in every state, and every operation acts on the edge it is given. -/
theorem represents_of_keeps (opts : GraphOption) (nd : Option N) (ed : Option E)
    {ops : List (Op N E)} (h : Run graphStep Keeps (Graph.new opts nd ed) ops t) :
    t.Represents ∧ ∀ op o, t.Keeps op → t.graphCall op = some o → t.ActsOnArgument op o := by
  have hstep : ∀ (s : Graph N E) (op : Op N E) (t : Graph N E), s.Keeps op →
      s.graphStep op = some t → s.Sound → t.Sound := by
    intro s op t hk hst hs
    obtain ⟨o,ho,rfl⟩ := Option.map_eq_some_iff.mp hst
    exact (graphCall_spec hs hk ho).1
  have hsound : t.Sound := h.invariant hstep (sound_new opts nd ed)
  exact ⟨hsound.represents,fun op o hk ho => (graphCall_spec hsound hk ho).2⟩

/-- An empty graph that takes parallel edges. -/
def emptyMulti : Graph Unit Unit := Graph.new ⟨none,some true,none⟩ none none

/-- A pair of edges both ways, a node between them and a removal. -/
def crossing : List (Op Unit Unit) := [.setEdge [ch 'a'] [ch 'b'] none (some [ch 'x']),
  .setEdge [ch 'b'] [ch 'c'] none none,.removeEdgeWithObj ⟨[ch 'b'],[ch 'c'],none⟩,
  .removeNode [ch 'c']]

theorem represents_crossing :
    (last graphStep emptyMulti crossing).Represents ∧
      (last graphStep emptyMulti crossing).hasEdge [ch 'a'] [ch 'b'] (some [ch 'x']) = true := by
  have hrun : Run graphStep Keeps emptyMulti crossing (last graphStep emptyMulti crossing) := by
    refine .succ ?_ rfl (.succ ?_ rfl (.succ ?_ rfl (.succ ?_ rfl (.refl _))))
    · intro hs
      cases hs
    · intro hs
      cases hs
    · rfl
    · intro o ho hat
      have hedges : ∀ o ∈ [(⟨[ch 'a'],[ch 'b'],some [ch 'x']⟩ : Edge)],
          ¬ (o.v = [ch 'c'] ∨ o.w = [ch 'c']) := by decide
      exact absurd hat (hedges o ho)
  exact ⟨(represents_of_keeps ⟨none,some true,none⟩ none none hrun).1,by rfl⟩

/-- A named edge stays behind, with an end point that is gone, when its node is removed. -/
theorem named_edge_stays : ∃ t, Run graphStep always emptyMulti
      [.setEdge [ch 'a'] [ch 'b'] none (some [ch 'x']),.removeNode [ch 'a']] t ∧
    t.edges = [⟨[ch 'a'],[ch 'b'],some [ch 'x']⟩] ∧ t.hasNode [ch 'a'] = false ∧
    ¬ t.Represents := by
  generalize ht : last graphStep emptyMulti
    [.setEdge [ch 'a'] [ch 'b'] none (some [ch 'x']),.removeNode [ch 'a']] = t
  have hedges : t.edges = [⟨[ch 'a'],[ch 'b'],some [ch 'x']⟩] := by rw [← ht]; rfl
  have hgone : t.hasNode [ch 'a'] = false := by rw [← ht]; rfl
  refine ⟨t,by rw [← ht]; exact run_last (by rfl),hedges,hgone,fun h => ?_⟩
  have hend := (h.endpoints ⟨[ch 'a'],[ch 'b'],some [ch 'x']⟩ (by rw [hedges]; exact .head _)).1
  rw [hasNode,decide_eq_false_iff_not] at hgone
  exact hgone hend

end Graph
end MinimaxCode.GraphLib
