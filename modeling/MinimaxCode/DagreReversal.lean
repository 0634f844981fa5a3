import MinimaxCode.DagreAcyclic

/-!
# What cycle removal gives back

Two edges that run both ways between two nodes lose their labels to each other: the copy
that is ranked has an edge without a name for the one that was turned round, and its label
goes over that of the other one. Where no such pair is there, every back edge has no name
and the parallel edges agree on their labels, the graph comes back as it was.
-/

namespace MinimaxCode.GraphLib
namespace Graph

open PyText OrderedDict

variable {N D P : Type}

section Search

variable {E : Type} {g : Graph N E} {v : PyStr} {o : Edge}

namespace DiMulti

theorem mem_outEdges (h : g.DiMulti) : o ∈ g.outEdges v ↔ o ∈ g.edges ∧ o.v = v :=
  h.sound.linked.mem_outEdges

theorem key_inj (h : g.DiMulti) {e o : Edge} (he : e ∈ g.edges) (ho : o ∈ g.edges)
    (hk : key e = key o) : e = o := by
  rw [h.mem_edges] at he ho
  rw [hk,ho] at he
  exact (Option.some.inj he).symm

theorem closed (h : g.DiMulti) : DepthFirst.Closed g.outEdges Edge.v Edge.w (keys g.nodes) where
  source := fun _ _ he => (h.mem_outEdges.mp he).2
  target := fun _ _ e he => by
    have hmem := h.mem_edges.mp (h.mem_outEdges.mp he).1
    exact (h.sound.endpoints _ e hmem).2
  nodup := h.sound.linked.outEdges_nodup

theorem dfsFas_spec (h : g.DiMulti) : g.dfsFas.Nodup ∧ (∀ f ∈ g.dfsFas, f ∈ g.edges) ∧
    ∃ place : PyStr → ℕ, ∀ e ∈ g.edges, (e ∈ g.dfsFas → e.v = e.w ∨ place e.v < place e.w) ∧
      (e ∉ g.dfsFas → place e.w < place e.v) := by
  obtain ⟨honce,hout,place,hplace⟩ := DepthFirst.search_spec h.closed
  refine ⟨honce,fun f hf => (h.mem_outEdges.mp (hout f hf).2).1,place,fun e he => ?_⟩
  obtain ⟨hv,-⟩ := h.sound.endpoints _ e (h.mem_edges.mp he)
  exact hplace e.v hv e (h.mem_outEdges.mpr ⟨he,rfl⟩)

end DiMulti

end Search

section Feedback

variable {g : Graph N (GraphEdge D P)} {acyclicer : Option PyStr} {e o f : Edge}

theorem feedback_of_ne (h : acyclicer ≠ some (lit "greedy")) : g.feedback acyclicer = g.dfsFas :=
  if_neg h

theorem feedback_nodup (h : g.DiMulti) : (g.feedback acyclicer).Nodup := by
  rw [feedback]
  split
  · exact List.nodup_nil
  · exact h.dfsFas_spec.1

theorem mem_edges_of_feedback (h : g.DiMulti) (hf : f ∈ g.feedback acyclicer) : f ∈ g.edges := by
  rw [feedback] at hf
  split at hf
  · cases hf
  · exact h.dfsFas_spec.2.1 f hf

theorem feedback_parallel (h : g.DiMulti) (he : e ∈ g.edges) (hf : f ∈ g.feedback acyclicer)
    (hv : e.v = f.v) (hw : e.w = f.w) : e ∈ g.feedback acyclicer := by
  have hfe := mem_edges_of_feedback h hf
  rw [feedback] at hf ⊢
  split at hf
  · cases hf
  · next hgreedy =>
    rw [if_neg hgreedy]
    obtain ⟨-,-,place,hplace⟩ := h.dfsFas_spec
    by_contra hne
    have hdown := (hplace e he).2 hne
    rw [hv,hw] at hdown
    rcases (hplace f hfe).1 hf with hloop | hup
    · rw [hloop] at hdown
      exact Nat.lt_irrefl _ hdown
    · omega

theorem feedback_one_way (h : g.DiMulti) (hgreedy : acyclicer ≠ some (lit "greedy"))
    (he : e ∈ g.edges) (ho : o ∈ g.edges) (hv : e.v = o.w) (hw : e.w = o.v) (hne : e.v ≠ e.w) :
    (e ∈ g.feedback acyclicer ↔ o ∉ g.feedback acyclicer) := by
  rw [feedback_of_ne hgreedy]
  obtain ⟨-,-,place,hplace⟩ := h.dfsFas_spec
  have hpe := hplace e he
  have hpo := hplace o ho
  rw [← hv,← hw] at hpo
  constructor
  · intro hef hof
    rcases hpe.1 hef with heq | hlt
    · exact hne heq
    · rcases hpo.1 hof with heq | hlt'
      · exact hne heq.symm
      · omega
  · intro hof
    by_contra hef
    have hlt := hpe.2 hef
    have hlt' := hpo.2 hof
    omega

end Feedback

section Copying

variable {g s t : Graph N (GraphEdge D P)} {e o : Edge} {i : PyStr} {es : List Edge}
  {label : Edge → GraphEdge D P}

theorem DiMulti.setNode {E : Type} {g : Graph N E} (h : g.DiMulti) (v : PyStr) (value : Option N) :
    (g.setNode v value).DiMulti :=
  ⟨(sameKind_setNode g v value).1.trans h.directed,
    (sameKind_setNode g v value).2.1.trans h.multi,h.sound.setNode v value⟩

theorem copyLeaves_spec (blank : N) (source : Graph N (GraphEdge D P)) (h : t.DiMulti) :
    (source.copyLeaves blank t).DiMulti ∧ (source.copyLeaves blank t).edgeObjs = t.edgeObjs ∧
      (source.copyLeaves blank t).edgeLabels = t.edgeLabels := by
  rw [copyLeaves]
  induction source.nodes.filter (fun kv => (source.childrenOf kv.1).isEmpty) generalizing t with
  | nil => exact ⟨h,rfl,rfl⟩
  | cons kv kvs ih =>
    obtain ⟨hm,hobjs,hlabels⟩ := ih (h.setNode kv.1 (some (kv.2.getD blank)))
    obtain ⟨hlabels',hobjs',-⟩ := edgeLabels_setNode t kv.1 (some (kv.2.getD blank))
    exact ⟨hm,hobjs.trans hobjs',hlabels.trans hlabels'⟩

/-- The last edge of a list with an id, leaving names out of account. -/
def lastUnder (es : List Edge) (i : PyStr) : Option Edge :=
  (es.filter fun e => bareKey e = i).getLast?

theorem lastUnder_cons (e : Edge) (es : List Edge) (i : PyStr) :
    lastUnder (e::es) i = if bareKey e = i then some ((lastUnder es i).getD e) else lastUnder es i := by
  rw [lastUnder,List.filter_cons]
  by_cases h : bareKey e = i
  · rw [if_pos h,if_pos (decide_eq_true h),List.getLast?_cons,lastUnder]
  · rw [if_neg h,if_neg (by simpa using h),lastUnder]

theorem lastUnder_append (es es' : List Edge) (i : PyStr) :
    lastUnder (es++es') i = (lastUnder es' i).or (lastUnder es i) := by
  rw [lastUnder,List.filter_append,List.getLast?_append]
  rfl

theorem lastUnder_eq_none (h : ∀ e ∈ es, bareKey e ≠ i) : lastUnder es i = none := by
  rw [lastUnder,List.getLast?_eq_none_iff,List.filter_eq_nil_iff]
  intro e he hk
  exact h e he (of_decide_eq_true hk)

theorem lastUnder_filter {p : Edge → Bool}
    (h : ∀ e ∈ es, bareKey e = i → p e = true) : lastUnder (es.filter p) i = lastUnder es i := by
  rw [lastUnder,List.filter_filter,lastUnder]
  congr 1
  refine List.filter_congr fun e he => ?_
  by_cases hk : bareKey e = i
  · rw [h e he hk,Bool.and_true]
  · rw [decide_eq_false hk,Bool.false_and]

theorem mem_of_lastUnder (h : lastUnder es i = some e) :
    e ∈ es ∧ bareKey e = i := by
  have hmem := List.mem_filter.mp (List.mem_of_getLast? h)
  exact ⟨hmem.1,of_decide_eq_true hmem.2⟩

theorem lastUnder_isSome (he : e ∈ es) : ∃ l, lastUnder es (bareKey e) = some l := by
  cases h : lastUnder es (bareKey e) with
  | some l => exact ⟨l,rfl⟩
  | none =>
    have hnil := List.getLast?_eq_none_iff.mp h
    have hmem : e ∈ es.filter fun e' => bareKey e' = bareKey e :=
      List.mem_filter.mpr ⟨he,decide_eq_true rfl⟩
    rw [hnil] at hmem
    cases hmem

/-- The edge that copying makes of an edge. -/
def bare (e : Edge) : Edge := ⟨e.v,e.w,none⟩

theorem copyLoop_spec (es : List Edge) (label : Edge → GraphEdge D P) (h : t.DiMulti) :
    let t' := es.foldl (fun d e => (d.setEdgeWithObj e (some (label e))).graph) t
    t'.DiMulti ∧
    (∀ i, lookup t'.edgeLabels i =
      ((lastUnder es i).map fun e => some (label e)).or (lookup t.edgeLabels i)) ∧
    ∀ o, (o ∈ t'.edges → o ∈ t.edges ∨ ∃ e ∈ es, o = bare e) ∧ (o ∈ t.edges → o ∈ t'.edges) := by
  induction es generalizing t with
  | nil => exact ⟨h,fun i => rfl,fun o => ⟨.inl,id⟩⟩
  | cons e es ih =>
    obtain ⟨hm,hobjs,hlabels⟩ := h.setEdge e.v e.w (label e) none
    obtain ⟨hm',hlabels',hedges'⟩ := ih hm
    have hedges : ∀ o, (o ∈ (t.setEdge e.v e.w (some (label e)) none).graph.edges →
        o ∈ t.edges ∨ o = bare e) ∧
        (o ∈ t.edges → o ∈ (t.setEdge e.v e.w (some (label e)) none).graph.edges) := by
      intro o
      rw [edges,hobjs]
      split
      · exact ⟨.inl,id⟩
      · rw [List.map_append,List.mem_append]
        exact ⟨fun ho => ho.imp_right List.mem_singleton.mp,.inl⟩
    refine ⟨hm',fun i => ?_,fun o => ⟨fun ho => ?_,fun ho => (hedges' o).2 ((hedges o).2 ho)⟩⟩
    · rw [List.foldl_cons]
      refine (hlabels' i).trans ?_
      rw [hlabels,lastUnder_cons]
      have hbare : key ⟨e.v,e.w,none⟩ = bareKey e := rfl
      rw [hbare]
      split
      · cases lastUnder es i <;> rfl
      · rfl
    · rcases (hedges' o).1 ho with ho | ⟨e',he',rfl⟩
      · rcases (hedges o).1 ho with ho | rfl
        · exact .inl ho
        · exact .inr ⟨e,List.mem_cons_self,rfl⟩
      · exact .inr ⟨e',List.mem_cons_of_mem e he',rfl⟩

/-- Every edge has a label. -/
def Labelled (g : Graph N (GraphEdge D P)) (label : Edge → GraphEdge D P) : Prop :=
  ∀ o ∈ g.edges, lookup g.edgeLabels (key o) = some (some (label o))

theorem copyEdges_spec (hg : g.DiMulti) (hlabel : g.Labelled label)
    (h : t.DiMulti) : (g.copyEdges t).DiMulti ∧
    (∀ i, lookup (g.copyEdges t).edgeLabels i =
      ((lastUnder g.edges i).map fun e => some (label e)).or (lookup t.edgeLabels i)) ∧
    ∀ o, (o ∈ (g.copyEdges t).edges → o ∈ t.edges ∨ ∃ e ∈ g.edges, o = bare e) ∧
      (o ∈ t.edges → o ∈ (g.copyEdges t).edges) := by
  have hloop : g.copyEdges t =
      g.edges.foldl (fun d e => (d.setEdgeWithObj e (some (label e))).graph) t := by
    refine List.foldl_ext _ _ _ fun d e he => ?_
    rw [edgeWithObj_eq hg,hlabel e he]
    rfl
  rw [hloop]
  exact copyLoop_spec g.edges label h

theorem DiMulti.rankNodes (h : g.DiMulti) (ranks : PyStr → Option N → Option N) :
    (g.rankNodes ranks).DiMulti := by
  have hkeys : keys (g.rankNodes ranks).nodes = keys g.nodes := by
    rw [Graph.rankNodes,keys,keys,List.map_map]
    rfl
  refine ⟨h.directed,h.multi,h.sound.linked.congr rfl rfl rfl rfl (fun _ => rfl) (fun _ => rfl)
    (fun _ => rfl) fun _ => rfl,?_,?_,h.sound.listed,?_⟩
  · rw [hkeys]
    exact h.sound.endpoints
  · rw [hkeys]
    exact h.sound.tables
  · rw [hkeys]
    exact h.sound.domain

theorem asNonCompoundGraph_spec (blank : N) (h : t.DiMulti)
    (hlabel : t.Labelled label) : (t.asNonCompoundGraph blank).DiMulti ∧
    (∀ i, lookup (t.asNonCompoundGraph blank).edgeLabels i =
      (lastUnder t.edges i).map fun e => some (label e)) ∧
    ∀ o ∈ (t.asNonCompoundGraph blank).edges, ∃ e ∈ t.edges, o = bare e := by
  have hnew : (new ⟨some true,some true,some false⟩ none none : Graph N (GraphEdge D P)).DiMulti :=
    ⟨rfl,rfl,sound_new _ none none⟩
  obtain ⟨hm₀,hobjs₀,hlabels₀⟩ := copyLeaves_spec blank t hnew
  obtain ⟨hm,hlabels,hedges⟩ := copyEdges_spec h hlabel hm₀
  refine ⟨hm,fun i => ?_,fun o ho => ?_⟩
  · refine (hlabels i).trans ?_
    rw [hlabels₀]
    exact Option.or_none
  · refine ((hedges o).1 ho).resolve_left fun hold => ?_
    rw [edges,hobjs₀] at hold
    cases hold

theorem ranked_spec (blank : N) (ranks : PyStr → Option N → Option N)
    (h : t.DiMulti) (hlabel : t.Labelled label) : (t.ranked blank ranks).DiMulti ∧
    (∀ i, lookup (t.ranked blank ranks).edgeLabels i =
      ((lastUnder t.edges i).map fun e => some (label e)).or (lookup t.edgeLabels i)) ∧
    ∀ o, (o ∈ (t.ranked blank ranks).edges → o ∈ t.edges ∨ ∃ e ∈ t.edges, o = bare e) ∧
      (o ∈ t.edges → o ∈ (t.ranked blank ranks).edges) := by
  obtain ⟨hm,hcopy,hbare⟩ := asNonCompoundGraph_spec blank h hlabel
  have hmr : ((t.asNonCompoundGraph blank).rankNodes ranks).DiMulti := hm.rankNodes ranks
  have hlabelr : ((t.asNonCompoundGraph blank).rankNodes ranks).Labelled
      fun o => label ((lastUnder t.edges (key o)).getD o) := by
    intro o ho
    obtain ⟨e,he,rfl⟩ := hbare o ho
    obtain ⟨l,hl⟩ := lastUnder_isSome he
    refine (hcopy _).trans ?_
    have hkey : key (bare e) = bareKey e := rfl
    dsimp only
    rw [hkey,hl,Option.map_some,Option.getD_some]
  obtain ⟨hm₁,hobjs₁,hlabels₁⟩ :=
    copyLeaves_spec blank ((t.asNonCompoundGraph blank).rankNodes ranks) h
  obtain ⟨hm₂,hlabels₂,hedges₂⟩ := copyEdges_spec hmr hlabelr hm₁
  refine ⟨hm₂,fun i => ?_,fun o => ⟨fun ho => ?_,fun ho => (hedges₂ o).2 ?_⟩⟩
  · refine (hlabels₂ i).trans ?_
    rw [hlabels₁]
    congr 1
    cases hl : lastUnder ((t.asNonCompoundGraph blank).rankNodes ranks).edges i with
    | some o =>
      obtain ⟨ho,hi⟩ := mem_of_lastUnder hl
      obtain ⟨e,he,rfl⟩ := hbare o ho
      have hkey : key (bare e) = i := hi
      obtain ⟨l,hl'⟩ := lastUnder_isSome he
      have hl'' : lastUnder t.edges i = some l := by rw [← hkey]; exact hl'
      rw [Option.map_some,hkey,hl'',Option.getD_some,Option.map_some]
    | none =>
      cases hl' : lastUnder t.edges i with
      | none => rfl
      | some l =>
        -- the copy has an edge under that id
        have hmem : (lookup (t.asNonCompoundGraph blank).edgeObjs i).isSome := by
          rw [isSome_lookup_iff,← hm.sound.linked.ids,← isSome_lookup_iff]
          have hi := hcopy i
          rw [hl'] at hi
          exact hi ▸ rfl
        obtain ⟨o,ho⟩ := Option.isSome_iff_exists.mp hmem
        obtain ⟨e,he,rfl⟩ := hbare o (mem_edges_of_lookup ho)
        have hkey : bareKey (bare e) = i := hm.own ho
        obtain ⟨l',hl''⟩ := lastUnder_isSome (mem_edges_of_lookup ho)
        rw [hkey] at hl''
        exact absurd (hl.symm.trans hl'') (by simp)
  · rcases (hedges₂ o).1 ho with ho | ⟨e,he,rfl⟩
    · rw [edges,hobjs₁] at ho
      exact .inl ho
    · obtain ⟨e',he',rfl⟩ := hbare e he
      exact .inr ⟨e',he',rfl⟩
  · rw [edges,hobjs₁]
    exact ho

end Copying

section Points

variable {g : Graph N (GraphEdge D P)} {label : Edge → GraphEdge D P} {o : Edge}

theorem mutLoop_spec (change : Edge → GraphEdge D P → GraphEdge D P) (h : g.DiMulti)
    (hlabel : g.Labelled label) :
    let t := g.edges.foldl (fun g e => g.edgeMutWithObj e (change e)) g
    t.DiMulti ∧ t.edgeObjs = g.edgeObjs ∧ t.Labelled fun o => change o (label o) := by
  have hloop : ∀ (es : List Edge) (s : Graph N (GraphEdge D P)), s.DiMulti → es.Nodup →
      (∀ e ∈ es, e ∈ s.edges) →
      let t := es.foldl (fun g e => g.edgeMutWithObj e (change e)) s
      t.DiMulti ∧ t.edgeObjs = s.edgeObjs ∧ ∀ o ∈ s.edges, lookup t.edgeLabels (key o) =
        if o ∈ es then (lookup s.edgeLabels (key o)).map (Option.map (change o))
        else lookup s.edgeLabels (key o) := by
    intro es
    induction es with
    | nil => exact fun s hs _ _ => ⟨hs,rfl,fun o _ => rfl⟩
    | cons e es ih =>
      intro s hs hnodup hes
      obtain ⟨hnot,hnodup⟩ := List.nodup_cons.mp hnodup
      obtain ⟨hm,hobjs,hlabels⟩ := ih (s.edgeMutWithObj e (change e))
        (hs.edgeMutWithObj e (change e)) hnodup fun e' he' => hes e' (List.mem_cons_of_mem e he')
      have hstep : ∀ o ∈ s.edges, lookup (s.edgeMutWithObj e (change e)).edgeLabels (key o) =
          if o = e then (lookup s.edgeLabels (key o)).map (Option.map (change o))
          else lookup s.edgeLabels (key o) := by
        intro o ho
        have hid : edgeObjToId true e = key e := rfl
        rw [Graph.edgeMutWithObj,lookup_adjust,hs.directed,hid]
        by_cases hoe : o = e
        · subst hoe
          rw [if_pos rfl,if_pos rfl]
        · rw [if_neg hoe,if_neg fun hk => hoe (hs.key_inj ho (hes e List.mem_cons_self) hk.symm)]
      refine ⟨hm,hobjs,fun o ho => ?_⟩
      refine (hlabels o ho).trans ?_
      rw [hstep o ho]
      by_cases hoe : o = e
      · subst hoe
        rw [if_neg hnot,if_pos rfl,if_pos List.mem_cons_self]
      · rw [if_neg hoe]
        by_cases hin : o ∈ es
        · rw [if_pos hin,if_pos (List.mem_cons_of_mem e hin)]
        · rw [if_neg hin,if_neg fun hc => hin ((List.mem_cons.mp hc).resolve_left hoe)]
  obtain ⟨hm,hobjs,hlabels⟩ := hloop g.edges g h h.edges_nodup fun _ => id
  refine ⟨hm,hobjs,fun o ho => ?_⟩
  have ho' : o ∈ g.edges := by
    rw [edges,hobjs] at ho
    exact ho
  rw [hlabels o ho',if_pos ho',hlabel o ho']
  rfl

/-- The label of an edge when its points have been found and flipped. -/
def drawn (paths : Edge → List P) (o : Edge) (l : GraphEdge D P) : GraphEdge D P :=
  flipPoints {l with points := some (paths o)}

theorem drawn_spec (paths : Edge → List P) (h : g.DiMulti) (hlabel : g.Labelled label) :
    let t := (g.routeEdges paths).reversePointsForReversedEdges
    t.DiMulti ∧ t.edges = g.edges ∧ t.Labelled fun o => drawn paths o (label o) := by
  obtain ⟨hm,hobjs,hlabel₁⟩ :=
    mutLoop_spec (fun e label => {label with points := some (paths e)}) h hlabel
  obtain ⟨hm',hobjs',hlabel₂⟩ := mutLoop_spec (fun _ => flipPoints) hm hlabel₁
  refine ⟨hm',?_,hlabel₂⟩
  exact congrArg (List.map Prod.snd) (hobjs'.trans hobjs)

end Points

section Undo

variable {g s : Graph N (GraphEdge D P)} {o f : Edge} {l : GraphEdge D P}

/-- The edge that a label of one turned round remembers. -/
def forward (o : Edge) (l : GraphEdge D P) : Edge := ⟨o.w,o.v,l.forwardName⟩

/-- A label without the marks of a reversal. -/
def cleared (l : GraphEdge D P) : GraphEdge D P := {l with reversed := none, forwardName := none}

theorem restoreEdge_spec (h : s.DiMulti)
    (hl : lookup s.edgeLabels (key o) = some (some l)) :
    (l.reversed ≠ some true ∧ restoreEdge s o = s) ∨
    (l.reversed = some true ∧ (restoreEdge s o).DiMulti ∧
      ∀ i, lookup (restoreEdge s o).edgeLabels i =
        if key (forward o l) = i then some (some (cleared l)) else lookup s.edgeLabels i) := by
  have hjoin : (s.edgeWithObj o).join = some l := by
    rw [edgeWithObj_eq h,hl]
    rfl
  rw [restoreEdge,hjoin]
  dsimp only
  by_cases hrev : l.reversed = some true
  · rw [if_pos hrev]
    obtain ⟨hm,-,hlabels⟩ := h.setEdge o.w o.v (cleared l) l.forwardName
    exact .inr ⟨hrev,hm,hlabels⟩
  · rw [if_neg hrev]
    exact .inl ⟨hrev,rfl⟩

theorem undoLoop_spec (fs : List Edge) (right : Edge → GraphEdge D P → Prop)
    (hkeys : ∀ f ∈ fs, ∀ f' ∈ fs, key f = key f' → f = f') (es : List Edge) (hs : s.DiMulti)
    (hlabels : ∀ o ∈ es, ∃ l, lookup s.edgeLabels (key o) = some (some l) ∧
      (l.reversed = some true → forward o l ∈ fs ∧ right (forward o l) (cleared l))) :
    (es.foldl restoreEdge s).DiMulti ∧
    (∀ i, (∀ f ∈ fs, key f ≠ i) →
      lookup (es.foldl restoreEdge s).edgeLabels i = lookup s.edgeLabels i) ∧
    (∀ f ∈ fs, (∃ l, lookup s.edgeLabels (key f) = some (some l) ∧ right f l) →
      ∃ l, lookup (es.foldl restoreEdge s).edgeLabels (key f) = some (some l) ∧ right f l) ∧
    ∀ o ∈ es, (∀ f ∈ fs, key f ≠ key o) →
      ∀ l, lookup s.edgeLabels (key o) = some (some l) → l.reversed = some true →
        ∃ l', lookup (es.foldl restoreEdge s).edgeLabels (key (forward o l)) = some (some l') ∧
          right (forward o l) l' := by
  induction es generalizing s with
  | nil => exact ⟨hs,fun i _ => rfl,fun f _ h => h,by simp⟩
  | cons o es ih =>
    obtain ⟨l,hl,hright⟩ := hlabels o List.mem_cons_self
    have hrest : ∀ o' ∈ es, ∃ l', lookup s.edgeLabels (key o') = some (some l') ∧
        (l'.reversed = some true → forward o' l' ∈ fs ∧ right (forward o' l') (cleared l')) :=
      fun o' ho' => hlabels o' (List.mem_cons_of_mem o ho')
    rw [List.foldl_cons]
    rcases restoreEdge_spec hs hl with ⟨hrev,heq⟩ | ⟨hrev,hm,hwrite⟩
    · rw [heq]
      obtain ⟨hm,hkeep,hstay,hback⟩ := ih hs hrest
      refine ⟨hm,hkeep,hstay,fun o' ho' hnot l' hl' hrev' => ?_⟩
      rcases List.mem_cons.mp ho' with rfl | ho'
      · rw [hl] at hl'
        rw [Option.some.inj (Option.some.inj hl')] at hrev
        exact absurd hrev' hrev
      · exact hback o' ho' hnot l' hl' hrev'
    · obtain ⟨hmem,hright⟩ := hright hrev
      obtain ⟨hm',hkeep,hstay,hback⟩ := ih hm fun o' ho' => by
        obtain ⟨l',hl',hright'⟩ := hrest o' ho'
        rw [hwrite]
        split
        · -- the label just written is not one of an edge turned round
          refine ⟨cleared l,rfl,fun hbad => ?_⟩
          cases hbad
        · exact ⟨l',hl',hright'⟩
      have hnew : ∃ l', lookup (restoreEdge s o).edgeLabels (key (forward o l)) = some (some l') ∧
          right (forward o l) l' := ⟨cleared l,by rw [hwrite,if_pos rfl],hright⟩
      refine ⟨hm',fun i hi => ?_,fun f hf hgood => hstay f hf ?_,fun o' ho' hnot l' hl' hrev' => ?_⟩
      · rw [hkeep i hi,hwrite,if_neg (hi _ hmem)]
      · by_cases hk : key (forward o l) = key f
        · rw [← hkeys _ hmem f hf hk]
          exact hnew
        · rw [hwrite,if_neg hk]
          exact hgood
      · rcases List.mem_cons.mp ho' with rfl | ho'
        · rw [hl] at hl'
          rw [← Option.some.inj (Option.some.inj hl')]
          exact hstay _ hmem hnew
        · refine hback o' ho' hnot l' ?_ hrev'
          rw [hwrite,if_neg (hnot _ hmem),hl']

end Undo

section Reversal

variable {g : Graph N (GraphEdge D P)} {uid : ℕ} {acyclicer : Option PyStr}
variable {blank : N} {ranks : PyStr → Option N → Option N} {paths : Edge → List P}
variable {lies : P → PyStr → Prop} {e o f : Edge} {l : GraphEdge D P} {label : Edge → GraphEdge D P}

/-- A directed multigraph as the layout gets it: every edge has a label without the marks of
a reversal, no node contains the delimiter of the edge ids, and no edge has a name that
`acyclic.run` has yet to give out. -/
structure Layable (g : Graph N (GraphEdge D P)) (uid : ℕ) : Prop where
  turning : Turning g uid
  labels : ∀ o ∈ g.edges, ∃ l, lookup g.edgeLabels (key o) = some (some l) ∧
    l.reversed = none ∧ l.forwardName = none

/-- There is an edge from one node to another. -/
def Arc (g : Graph N (GraphEdge D P)) (a b : PyStr) : Prop :=
  a ≠ b ∧ ∃ o ∈ g.edges, o.v = a ∧ o.w = b

def NoCycle (g : Graph N (GraphEdge D P)) : Prop := ∀ a, ¬ Relation.TransGen g.Arc a a

/-- The data of an edge. -/
def dataOf (g : Graph N (GraphEdge D P)) (o : Edge) : Option D :=
  (g.edgeWithObj o).join.map GraphEdge.data

/-- The edge that an edge was before it was turned round. -/
def original (g : Graph N (GraphEdge D P)) (o : Edge) : Edge :=
  match (g.edgeWithObj o).join with
  | some l => if l.reversed = some true then forward o l else o
  | none => o

/-- The two graphs have the same edges with the same data up to reversal. -/
def SameEdges (g t : Graph N (GraphEdge D P)) : Prop :=
  (t.edges.map fun o => (t.original o,t.dataOf o)).Perm (g.edges.map fun o => (o,g.dataOf o))

/-- The points run from one node to another. -/
def RunsFrom (lies : P → PyStr → Prop) (points : List P) (a b : PyStr) : Prop :=
  (∃ p, points.head? = some p ∧ lies p a) ∧ ∃ p, points.getLast? = some p ∧ lies p b

/-- The label is the edge's own, with points from its source to its target. -/
def Own (lies : P → PyStr → Prop) (g : Graph N (GraphEdge D P)) (o : Edge) (l : GraphEdge D P) :
    Prop :=
  g.dataOf o = some l.data ∧ l.reversed = none ∧ l.forwardName = none ∧
    ∃ points, l.points = some points ∧ RunsFrom lies points o.v o.w

/-- Cycle removal does what it is for, and the layout takes it back. -/
structure Reversible (lies : P → PyStr → Prop) (acyclicer : Option PyStr) (blank : N)
    (ranks : PyStr → Option N → Option N) (paths : Edge → List P) (g : Graph N (GraphEdge D P))
    (uid : ℕ) : Prop where
  acyclic : (g.run acyclicer uid).NoCycle
  same : SameEdges g (g.run acyclicer uid)
  restored : ∀ o ∈ g.edges, ∃ l,
    (laidOut acyclicer blank ranks paths g uid).edgeWithObj o = some (some l) ∧ Own lies g o l

/-- The condition: there is no cycle where the greedy way leaves them, the search meets no
named edge to a node on its stack, no two edges without names run both ways between two
nodes, and the last of the edges beside one without a name has the same data. -/
structure Restorable (acyclicer : Option PyStr) (g : Graph N (GraphEdge D P)) : Prop where
  greedy : acyclicer = some (lit "greedy") → g.NoCycle
  back : ∀ f ∈ g.feedback acyclicer, Anonymous f
  oneWay : ∀ e ∈ g.edges, ∀ o ∈ g.edges, Anonymous e → Anonymous o → e.v = o.w → e.w = o.v →
    e.v = e.w
  parallel : ∀ o ∈ g.edges, Anonymous o → ∀ e, lastUnder g.edges (key o) = some e →
    g.dataOf e = g.dataOf o

theorem dataOf_of_label (h : g.DiMulti) (hl : lookup g.edgeLabels (key o) = some (some l)) :
    g.dataOf o = some l.data := by
  rw [dataOf,edgeWithObj_eq h,hl]
  rfl

theorem original_of_label (h : g.DiMulti) (hl : lookup g.edgeLabels (key o) = some (some l)) :
    g.original o = if l.reversed = some true then forward o l else o := by
  rw [original,edgeWithObj_eq h,hl]
  rfl

theorem anonymous_iff : Anonymous e ↔ e.name.getD defaultEdgeName = defaultEdgeName := by
  rw [Anonymous,bareKey_eq,key_eq,List.append_cancel_left_eq,List.cons_inj_right,
    List.append_cancel_left_eq,List.cons_inj_right]
  exact eq_comm

theorem ends_of_bareKey (he : Tidy e) (ho : Tidy o) (h : bareKey e = key o) :
    e.v = o.v ∧ e.w = o.w ∧ Anonymous o := by
  have hkey := h
  rw [bareKey_eq,key_eq] at hkey
  obtain ⟨hv,hw,hname⟩ := split_key he ho hkey
  exact ⟨hv,hw,anonymous_iff.mpr hname.symm⟩

theorem bareKey_revOf_iff {n : ℕ} (hf : Tidy f) (ho : Tidy o) (h : Anonymous o) :
    bareKey (revOf n f) = key o ↔ f.w = o.v ∧ f.v = o.w := by
  constructor
  · intro hk
    obtain ⟨hv,hw,-⟩ := ends_of_bareKey (e := revOf n f) ⟨hf.2,hf.1⟩ ho hk
    exact ⟨hv,hw⟩
  · rintro ⟨hv,hw⟩
    rw [← h,bareKey_eq,bareKey_eq,revOf,hv,hw]

theorem run_spec (h : Layable g uid) (hlabel : g.Labelled label)
    (hanon : ∀ f ∈ g.feedback acyclicer, Anonymous f) :
    (∃ n, Turning (g.run acyclicer uid) n) ∧
    (g.run acyclicer uid).edges = g.edges.filter (fun o => o ∉ g.feedback acyclicer)++
      ((g.feedback acyclicer).zipIdx uid).map (fun fm => revOf fm.2 fm.1) ∧
    ∃ label', (g.run acyclicer uid).Labelled label' ∧
      (∀ o ∈ g.edges, o ∉ g.feedback acyclicer → label' o = label o) ∧
      ∀ fm ∈ (g.feedback acyclicer).zipIdx uid,
        label' (revOf fm.2 fm.1) = turned fm.1 (label fm.1) := by
  have hm := h.turning.multi
  obtain ⟨hturning,hobjs,hkeep,hrev⟩ := Turning.foldl_turns (s := (g,uid)) h.turning
    (g.feedback acyclicer) (feedback_nodup hm) (fun f => mem_edges_of_feedback hm) hanon label
    fun f hf => hlabel f (mem_edges_of_feedback hm hf)
  have ht : Turning (g.run acyclicer uid) _ := hturning
  have hedges : (g.run acyclicer uid).edges = g.edges.filter (fun o => o ∉ g.feedback acyclicer)++
      ((g.feedback acyclicer).zipIdx uid).map (fun fm => revOf fm.2 fm.1) := by
    rw [edges,run,hobjs,List.map_append,revs,List.map_map,edges,List.filter_map]
    rfl
  have hold : ∀ o ∈ g.edges, o ∉ g.feedback acyclicer →
      lookup (g.run acyclicer uid).edgeLabels (key o) = some (some (label o)) :=
    fun o ho hnot => (hkeep o ho hnot).trans (hlabel o ho)
  refine ⟨⟨_,ht⟩,hedges,fun o => ((g.run acyclicer uid).edgeWithObj o).join.getD (label o),?_,?_,?_⟩
  · intro o ho
    have hsome : ∃ l, lookup (g.run acyclicer uid).edgeLabels (key o) = some (some l) := by
      rw [hedges,List.mem_append,List.mem_filter,List.mem_map] at ho
      rcases ho with ⟨ho,hnot⟩ | ⟨fm,hfm,rfl⟩
      · exact ⟨_,hold o ho (of_decide_eq_true hnot)⟩
      · exact ⟨_,hrev fm hfm⟩
    obtain ⟨l,hl⟩ := hsome
    dsimp only
    rw [edgeWithObj_eq ht.multi,hl]
    rfl
  · intro o ho hnot
    dsimp only
    rw [edgeWithObj_eq ht.multi,hold o ho hnot]
    rfl
  · intro fm hfm
    have hfm' : lookup (g.run acyclicer uid).edgeLabels (key (revOf fm.2 fm.1)) =
        some (some (turned fm.1 (label fm.1))) := hrev fm hfm
    dsimp only
    rw [edgeWithObj_eq ht.multi,hfm']
    rfl

theorem fst_mem_of_zipIdx {α : Type} {l : List α} {n : ℕ} {am : α × ℕ} (h : am ∈ l.zipIdx n) :
    am.1 ∈ l := by
  rw [← List.zipIdx_map_fst n l]
  exact List.mem_map_of_mem h

theorem sameEdges_run (h : Layable g uid) (hlabel : g.Labelled label)
    (hclean : ∀ o ∈ g.edges, (label o).reversed = none)
    (hanon : ∀ f ∈ g.feedback acyclicer, Anonymous f) : SameEdges g (g.run acyclicer uid) := by
  have hm := h.turning.multi
  obtain ⟨⟨n,ht⟩,hedges,label',hlabel',hold,hrev⟩ := run_spec h hlabel hanon
  have hfilter : ∀ o ∈ g.edges.filter (fun o => o ∉ g.feedback acyclicer),
      ((g.run acyclicer uid).original o,(g.run acyclicer uid).dataOf o) = (o,g.dataOf o) := by
    intro o ho
    have hin : o ∈ (g.run acyclicer uid).edges := by
      rw [hedges]
      exact List.mem_append_left _ ho
    obtain ⟨ho,hnot⟩ := List.mem_filter.mp ho
    have hl := hlabel' o hin
    rw [hold o ho (of_decide_eq_true hnot)] at hl
    rw [original_of_label ht.multi hl,dataOf_of_label ht.multi hl,dataOf_of_label hm (hlabel o ho),
      if_neg]
    rw [hclean o ho]
    exact (Option.some_ne_none true).symm
  have hturned : ∀ fm ∈ (g.feedback acyclicer).zipIdx uid,
      ((g.run acyclicer uid).original (revOf fm.2 fm.1),(g.run acyclicer uid).dataOf
        (revOf fm.2 fm.1)) = (fm.1,g.dataOf fm.1) := by
    intro fm hfm
    have hin : revOf fm.2 fm.1 ∈ (g.run acyclicer uid).edges := by
      rw [hedges]
      exact List.mem_append_right _ (List.mem_map_of_mem hfm)
    have hl := hlabel' _ hin
    have hf := mem_edges_of_feedback hm (fst_mem_of_zipIdx hfm)
    rw [hrev fm hfm] at hl
    rw [original_of_label ht.multi hl,dataOf_of_label ht.multi hl,dataOf_of_label hm (hlabel _ hf)]
    rfl
  have hback : (g.edges.filter (fun o => o ∈ g.feedback acyclicer)).Perm (g.feedback acyclicer) := by
    rw [List.perm_ext_iff_of_nodup (hm.edges_nodup.filter _) (feedback_nodup hm)]
    intro o
    rw [List.mem_filter,decide_eq_true_iff]
    exact ⟨And.right,fun ho => ⟨mem_edges_of_feedback hm ho,ho⟩⟩
  have hpairs : (((g.feedback acyclicer).zipIdx uid).map fun fm => revOf fm.2 fm.1).map
      (fun o => ((g.run acyclicer uid).original o,(g.run acyclicer uid).dataOf o)) =
      (g.feedback acyclicer).map fun o => (o,g.dataOf o) := by
    conv_rhs => rw [← List.zipIdx_map_fst uid (g.feedback acyclicer),List.map_map]
    rw [List.map_map]
    exact List.map_congr_left hturned
  rw [SameEdges,hedges,List.map_append,List.map_congr_left hfilter,hpairs,← List.map_append]
  refine List.Perm.map _ ?_
  refine ((List.Perm.append_left _ hback.symm).trans List.perm_append_comm).trans ?_
  have hsplit := List.filter_append_perm (fun o => decide (o ∈ g.feedback acyclicer)) g.edges
  simpa using hsplit

theorem anonymous_of_same (h : Layable g uid) (hsame : SameEdges g (g.run acyclicer uid)) :
    ∀ f ∈ g.feedback acyclicer, Anonymous f := by
  intro f hf
  by_contra hnamed
  have hm := h.turning.multi
  have hfe := mem_edges_of_feedback hm hf
  have hft := h.turning.tidy f hfe
  have hall : ∀ f' ∈ g.feedback acyclicer, Tidy f' :=
    fun f' hf' => h.turning.tidy f' (mem_edges_of_feedback hm hf')
  obtain ⟨l,hl,hrevl,-⟩ := h.labels f hfe
  have hbare : ∀ f' ∈ g.feedback acyclicer, bareKey f' ≠ key f :=
    fun f' hf' hk => hnamed (ends_of_bareKey (hall f' hf') hft hk).2.2
  have hrev : ∀ f' ∈ g.feedback acyclicer, ∀ m, uid ≤ m → key (revOf m f') ≠ key f :=
    fun f' hf' m hum hk => h.turning.key_ne (hall f' hf') hum hfe hk.symm
  -- the named edge is still there at the end
  obtain ⟨hturning,hobjs,hlabels⟩ := Turning.foldl_keeps (s := (g,uid)) h.turning
    (g.feedback acyclicer) hall hbare hrev
  have ht : Turning (g.run acyclicer uid) _ := hturning
  have hstay : f ∈ (g.run acyclicer uid).edges :=
    ht.multi.mem_edges.mpr (hobjs.trans (hm.mem_edges.mp hfe))
  have hlstay : lookup (g.run acyclicer uid).edgeLabels (key f) = some (some l) := hlabels.trans hl
  -- and so is the edge made in its place
  obtain ⟨pre,post,hF⟩ := List.append_of_mem hf
  have hpre : ∀ f' ∈ pre, f' ∈ g.feedback acyclicer := fun f' hf' => by
    rw [hF]
    exact List.mem_append_left _ hf'
  have hpost : ∀ f' ∈ post, f' ∈ g.feedback acyclicer := fun f' hf' => by
    rw [hF]
    exact List.mem_append_right _ (List.mem_cons_of_mem f hf')
  have hrun : g.run acyclicer uid =
      (post.foldl reverseEdge (reverseEdge (pre.foldl reverseEdge (g,uid)) f)).1 := by
    rw [run,hF,List.foldl_append,List.foldl_cons]
  obtain ⟨ht₁,hobjs₁,hlabels₁⟩ := Turning.foldl_keeps (s := (g,uid)) h.turning pre
    (fun f' hf' => hall f' (hpre f' hf')) (fun f' hf' => hbare f' (hpre f' hf'))
    fun f' hf' => hrev f' (hpre f' hf')
  generalize pre.foldl reverseEdge (g,uid) = s at *
  have hfs : f ∈ s.1.edges := ht₁.multi.mem_edges.mpr (hobjs₁.trans (hm.mem_edges.mp hfe))
  rcases ht₁.step hft with ⟨hnone,-⟩ | ⟨l',hl',hn,ht₂,hobjs₂,hlabels₂⟩
  · rw [edgeWithObj_eq ht₁.multi,hlabels₁,hl] at hnone
    cases hnone
  · rw [edgeWithObj_eq ht₁.multi,hlabels₁,hl] at hl'
    cases hl'
    have hends : ∀ f' ∈ post, bareKey f' ≠ key (revOf s.2 f) := by
      intro f' hf' hk
      have hname := (ends_of_bareKey (o := revOf s.2 f) (hall f' (hpost f' hf')) ⟨hft.2,hft.1⟩ hk).2.2
      exact revName_ne s.2 (anonymous_iff.mp hname)
    have hnames : ∀ f' ∈ post, ∀ m, (reverseEdge s f).2 ≤ m →
        key (revOf m f') ≠ key (revOf s.2 f) := by
      intro f' hf' m hsm hk
      have hft' := hall f' (hpost f' hf')
      have heq := eq_revOf_of_key (o := revOf m f') (f := f) ⟨hft'.2,hft'.1⟩ hft hk
      have hmn := revName_inj (Option.some.inj (congrArg Edge.name heq))
      omega
    obtain ⟨-,hobjs₃,hlabels₃⟩ := Turning.foldl_keeps (s := reverseEdge s f) (hn ▸ ht₂) post
      (fun f' hf' => hall f' (hpost f' hf')) hends hnames
    rw [← hrun] at hobjs₃ hlabels₃
    have hin : revOf s.2 f ∈ (reverseEdge s f).1.edges := by
      rw [edges,hobjs₂,List.map_append]
      exact List.mem_append_right _ List.mem_cons_self
    have hstay' : revOf s.2 f ∈ (g.run acyclicer uid).edges :=
      ht.multi.mem_edges.mpr (hobjs₃.trans (ht₂.multi.mem_edges.mp hin))
    have hlstay' : lookup (g.run acyclicer uid).edgeLabels (key (revOf s.2 f)) =
        some (some (turned f l)) := by rw [hlabels₃,hlabels₂,if_pos rfl]
    -- both were the same edge before
    have himage : ((g.run acyclicer uid).original f,(g.run acyclicer uid).dataOf f) =
        ((g.run acyclicer uid).original (revOf s.2 f),(g.run acyclicer uid).dataOf (revOf s.2 f)) := by
      rw [original_of_label ht.multi hlstay,original_of_label ht.multi hlstay',
        dataOf_of_label ht.multi hlstay,dataOf_of_label ht.multi hlstay',hrevl,
        if_neg (Option.some_ne_none true).symm]
      rfl
    have hnodup : ((g.run acyclicer uid).edges.map fun o =>
        ((g.run acyclicer uid).original o,(g.run acyclicer uid).dataOf o)).Nodup := by
      rw [hsame.nodup_iff]
      exact hm.edges_nodup.map fun a b hab => congrArg Prod.fst hab
    have heq : f = revOf s.2 f := List.inj_on_of_nodup_map hnodup hstay hstay' himage
    exact ht₁.fresh f hfs s.2 (Nat.le_refl _) (by rw [heq]; rfl)

theorem noCycle_run (h : Layable g uid) (hgreedy : acyclicer = some (lit "greedy") → g.NoCycle)
    (hanon : ∀ f ∈ g.feedback acyclicer, Anonymous f) (hlabel : g.Labelled label) :
    (g.run acyclicer uid).NoCycle := by
  by_cases hg : acyclicer = some (lit "greedy")
  · have hrun : g.run acyclicer uid = g := by
      rw [run,feedback,if_pos hg]
      rfl
    rw [hrun]
    exact hgreedy hg
  · have hm := h.turning.multi
    obtain ⟨-,hedges,-⟩ := run_spec h hlabel hanon
    obtain ⟨-,hmem,place,hplace⟩ := hm.dfsFas_spec
    rw [feedback_of_ne hg] at hedges
    refine DepthFirst.no_cycle place fun a b hab => ?_
    obtain ⟨hne,o,ho,rfl,rfl⟩ := hab
    rw [hedges,List.mem_append,List.mem_filter,List.mem_map] at ho
    rcases ho with ⟨ho,hnot⟩ | ⟨fm,hfm,rfl⟩
    · exact (hplace o ho).2 (of_decide_eq_true hnot)
    · have hf := fst_mem_of_zipIdx hfm
      exact ((hplace fm.1 (hmem _ hf)).1 hf).resolve_left hne.symm

theorem RunsFrom.reverse {points : List P} {a b : PyStr} (h : RunsFrom lies points a b) :
    RunsFrom lies points.reverse b a := by
  rw [RunsFrom,List.head?_reverse,List.getLast?_reverse]
  exact ⟨h.2,h.1⟩

theorem drawn_of_reversed (h : l.reversed = some true) :
    drawn paths o l = {l with points := some (paths o).reverse} := by
  rw [drawn,flipPoints,if_pos h]
  rfl

theorem drawn_of_clean (h : l.reversed = none) :
    drawn paths o l = {l with points := some (paths o)} := by
  rw [drawn,flipPoints,if_neg]
  rw [h]
  exact (Option.some_ne_none true).symm

variable (blank ranks) in
theorem ranked_labelled {t : Graph N (GraphEdge D P)} {label' : Edge → GraphEdge D P} {n : ℕ}
    (ht : t.Turning n) (hlabel' : t.Labelled label') : (t.ranked blank ranks).DiMulti ∧
    (∀ o ∈ t.edges, o ∈ (t.ranked blank ranks).edges) ∧
    (t.ranked blank ranks).Labelled (fun o => label' ((lastUnder t.edges (key o)).getD o)) ∧
    ∀ o ∈ (t.ranked blank ranks).edges, ∃ e ∈ t.edges, e.v = o.v ∧ e.w = o.w ∧
      (lastUnder t.edges (key o)).getD o = e := by
  obtain ⟨hm,hlabels,hedges⟩ := ranked_spec blank ranks ht.multi hlabel'
  have hcases : ∀ o ∈ (t.ranked blank ranks).edges, Tidy o ∧
      (o ∈ t.edges ∨ ∃ e, lastUnder t.edges (key o) = some e) := by
    intro o ho
    rcases (hedges o).1 ho with hot | ⟨e,he,rfl⟩
    · exact ⟨ht.tidy o hot,.inl hot⟩
    · obtain ⟨l,hl⟩ := lastUnder_isSome he
      exact ⟨ht.tidy e he,.inr ⟨l,hl⟩⟩
  refine ⟨hm,fun o => (hedges o).2,fun o ho => ?_,fun o ho => ?_⟩
  · refine (hlabels (key o)).trans ?_
    dsimp only
    cases hl : lastUnder t.edges (key o) with
    | some e => rfl
    | none =>
      have hot : o ∈ t.edges := by
        rcases (hcases o ho).2 with hot | ⟨e,he⟩
        · exact hot
        · rw [hl] at he
          cases he
      exact hlabel' o hot
  · obtain ⟨htidy,hot⟩ := hcases o ho
    cases hl : lastUnder t.edges (key o) with
    | some e =>
      obtain ⟨het,hk⟩ := mem_of_lastUnder hl
      obtain ⟨hv,hw,-⟩ := ends_of_bareKey (ht.tidy e het) htidy hk
      exact ⟨e,het,hv,hw,rfl⟩
    | none =>
      refine ⟨o,?_,rfl,rfl,rfl⟩
      rcases hot with hot | ⟨e,he⟩
      · exact hot
      · rw [hl] at he
        cases he

variable (blank ranks) in
theorem laidOut_spec (h : Layable g uid) (hlabel : g.Labelled label)
    (hclean : ∀ o ∈ g.edges, (label o).reversed = none ∧ (label o).forwardName = none)
    (hpaths : ∀ o, RunsFrom lies (paths o) o.v o.w)
    (hanon : ∀ f ∈ g.feedback acyclicer, Anonymous f) :
    (∀ f ∈ g.feedback acyclicer, ∃ l,
      (laidOut acyclicer blank ranks paths g uid).edgeWithObj f = some (some l) ∧ Own lies g f l) ∧
    ∀ o ∈ g.edges, o ∉ g.feedback acyclicer → ∃ l,
      (laidOut acyclicer blank ranks paths g uid).edgeWithObj o = some (some (drawn paths o l)) ∧
      ((∃ f ∈ g.feedback acyclicer, f.w = o.v ∧ f.v = o.w ∧ Anonymous o) ∧ l.reversed = some true ∨
        (∀ f ∈ g.feedback acyclicer, f.w = o.v → f.v = o.w → ¬ Anonymous o) ∧
          l = label ((lastUnder g.edges (key o)).getD o)) := by
  have hm := h.turning.multi
  obtain ⟨⟨n,ht⟩,hedges,label',hlabel',hold,hrev⟩ := run_spec h hlabel hanon
  have hmem : ∀ o, o ∈ (g.run acyclicer uid).edges ↔ (o ∈ g.edges ∧ o ∉ g.feedback acyclicer) ∨
      ∃ fm ∈ (g.feedback acyclicer).zipIdx uid, revOf fm.2 fm.1 = o := by
    intro o
    rw [hedges,List.mem_append,List.mem_filter,List.mem_map,decide_eq_true_iff]
  have htidy : ∀ f ∈ g.feedback acyclicer, Tidy f :=
    fun f hf => h.turning.tidy f (mem_edges_of_feedback hm hf)
  obtain ⟨hmr,hsub,hlabelr,hbeside⟩ := ranked_labelled blank ranks ht hlabel'
  obtain ⟨hmp,hedgesp,hlabelp⟩ := drawn_spec paths hmr hlabelr
  have hout : laidOut acyclicer blank ranks paths g uid = (((g.run acyclicer uid).ranked blank
    ranks).routeEdges paths).reversePointsForReversedEdges.undo := rfl
  generalize (((g.run acyclicer uid).ranked blank ranks).routeEdges
    paths).reversePointsForReversedEdges = p at hout hmp hedgesp hlabelp
  -- what is known of an edge whose label says that it has been turned round
  have hback : ∀ o ∈ p.edges, ∃ l, lookup p.edgeLabels (key o) = some (some l) ∧
      (l.reversed = some true →
        forward o l ∈ g.feedback acyclicer ∧ Own lies g (forward o l) (cleared l)) := by
    intro o ho
    obtain ⟨e,het,hv,hw,he⟩ := hbeside o (hedgesp ▸ ho)
    refine ⟨_,hlabelp o ho,?_⟩
    dsimp only
    rw [he]
    intro hrevd
    rcases (hmem e).mp het with ⟨heg,hnot⟩ | ⟨fm,hfm,rfl⟩
    · rw [hold e heg hnot,drawn_of_clean (hclean e heg).1] at hrevd
      exact absurd ((hclean e heg).1.symm.trans hrevd) (Option.some_ne_none true).symm
    · have hf := fst_mem_of_zipIdx hfm
      have hfg := mem_edges_of_feedback hm hf
      rw [hrev fm hfm,drawn_of_reversed rfl]
      have hforward : forward o {turned fm.1 (label fm.1) with points := some (paths o).reverse} =
          fm.1 := by
        rw [forward,← hv,← hw]
        rfl
      have hruns := (hpaths o).reverse
      rw [← hv,← hw] at hruns
      rw [hforward]
      have hdata := dataOf_of_label hm (hlabel _ hfg)
      exact ⟨hf,hdata,rfl,rfl,_,rfl,hruns⟩
  obtain ⟨hmu,hkeep,-,hgood⟩ := undoLoop_spec (g.feedback acyclicer) (Own lies g)
    (fun f hf f' hf' => hm.key_inj (mem_edges_of_feedback hm hf) (mem_edges_of_feedback hm hf'))
    p.edges hmp hback
  have hlookup : ∀ o, (laidOut acyclicer blank ranks paths g uid).edgeWithObj o =
      lookup (p.edges.foldl restoreEdge p).edgeLabels (key o) := by
    intro o
    rw [hout]
    exact edgeWithObj_eq hmu o
  refine ⟨fun f hf => ?_,fun o ho hnot => ?_⟩
  · -- the edge that was made in its place leads back to it
    have hzip := hf
    rw [← List.zipIdx_map_fst uid (g.feedback acyclicer)] at hzip
    obtain ⟨⟨f,m⟩,hfm,rfl⟩ := List.mem_map.mp hzip
    have hin : revOf m f ∈ p.edges := by
      rw [hedgesp]
      exact hsub _ ((hmem _).mpr (.inr ⟨(f,m),hfm,rfl⟩))
    have hnone : lastUnder (g.run acyclicer uid).edges (key (revOf m f)) = none := by
      refine lastUnder_eq_none fun e he hk => ?_
      have hname := (ends_of_bareKey (o := revOf m f) (ht.tidy e he)
        ⟨(htidy f hf).2,(htidy f hf).1⟩ hk).2.2
      exact revName_ne m (anonymous_iff.mp hname)
    have hl := hlabelp _ hin
    dsimp only at hl
    rw [hnone,Option.getD_none,hrev _ hfm,drawn_of_reversed rfl] at hl
    rw [hlookup]
    exact hgood _ hin (fun f' hf' hk => h.turning.key_ne (htidy f hf) (List.le_snd_of_mem_zipIdx hfm)
      (mem_edges_of_feedback hm hf') hk) _ hl rfl
  · have hin : o ∈ p.edges := by
      rw [hedgesp]
      exact hsub o ((hmem o).mpr (.inl ⟨ho,hnot⟩))
    have hkeyo : ∀ f ∈ g.feedback acyclicer, key f ≠ key o := fun f hf hk =>
      hnot (hm.key_inj (mem_edges_of_feedback hm hf) ho hk ▸ hf)
    refine ⟨_,by rw [hlookup,hkeep _ hkeyo]; exact hlabelp o hin,?_⟩
    have hto := h.turning.tidy o ho
    rw [hedges,lastUnder_append]
    by_cases hopp : ∃ f ∈ g.feedback acyclicer, f.w = o.v ∧ f.v = o.w ∧ Anonymous o
    · -- the last edge beside it is one that was turned round
      left
      refine ⟨hopp,?_⟩
      obtain ⟨f,hf,hv,hw,ha⟩ := hopp
      have hzip := hf
      rw [← List.zipIdx_map_fst uid (g.feedback acyclicer)] at hzip
      obtain ⟨⟨f,m⟩,hfm,rfl⟩ := List.mem_map.mp hzip
      obtain ⟨e,he⟩ := lastUnder_isSome (List.mem_map_of_mem (f := fun fm => revOf fm.2 fm.1) hfm)
      have hk : bareKey (revOf m f) = key o := (bareKey_revOf_iff (htidy f hf) hto ha).mpr ⟨hv,hw⟩
      dsimp only at he
      rw [hk] at he
      rw [he,Option.some_or,Option.getD_some]
      obtain ⟨fm,hfm',rfl⟩ := List.mem_map.mp (mem_of_lastUnder he).1
      rw [hrev fm hfm']
      rfl
    · right
      refine ⟨fun f hf hv hw ha => hopp ⟨f,hf,hv,hw,ha⟩,?_⟩
      rw [lastUnder_eq_none,Option.none_or,lastUnder_filter]
      · cases hl : lastUnder g.edges (key o) with
        | none => exact hold o ho hnot
        | some e =>
          obtain ⟨he,hk⟩ := mem_of_lastUnder hl
          obtain ⟨hv,hw,-⟩ := ends_of_bareKey (h.turning.tidy e he) hto hk
          exact hold e he fun hef => hnot (feedback_parallel hm ho hef hv.symm hw.symm)
      · intro e he hk
        obtain ⟨hv,hw,-⟩ := ends_of_bareKey (h.turning.tidy e he) hto hk
        exact decide_eq_true fun hef => hnot (feedback_parallel hm ho hef hv.symm hw.symm)
      · intro e he hk
        obtain ⟨fm,hfm,rfl⟩ := List.mem_map.mp he
        have hf := fst_mem_of_zipIdx hfm
        obtain ⟨hv,hw,ha⟩ := ends_of_bareKey (e := revOf fm.2 fm.1) ⟨(htidy _ hf).2,(htidy _ hf).1⟩ hto hk
        exact hopp ⟨fm.1,hf,hv,hw,ha⟩

theorem restorable_of_reversible (h : Layable g uid) (hlabel : g.Labelled label)
    (hclean : ∀ o ∈ g.edges, (label o).reversed = none ∧ (label o).forwardName = none)
    (hpaths : ∀ o, RunsFrom lies (paths o) o.v o.w)
    (hr : Reversible lies acyclicer blank ranks paths g uid) : Restorable acyclicer g := by
  have hm := h.turning.multi
  have hanon := anonymous_of_same h hr.same
  obtain ⟨-,hout⟩ := laidOut_spec blank ranks h hlabel hclean hpaths hanon
  have hgreedy : acyclicer = some (lit "greedy") → g.NoCycle := by
    intro hg
    have hrun : g.run acyclicer uid = g := by
      rw [run,feedback,if_pos hg]
      rfl
    rw [← hrun]
    exact hr.acyclic
  -- an edge that stays keeps its label, so no edge beside it has been turned round
  have hstays : ∀ o ∈ g.edges, o ∉ g.feedback acyclicer →
      (∀ f ∈ g.feedback acyclicer, f.w = o.v → f.v = o.w → ¬ Anonymous o) ∧
      g.dataOf o = some (label ((lastUnder g.edges (key o)).getD o)).data := by
    intro o ho hnot
    obtain ⟨l,hl,hcases⟩ := hout o ho hnot
    obtain ⟨l',hl',hdata,hclear,-⟩ := hr.restored o ho
    rw [hl] at hl'
    cases hl'
    rcases hcases with ⟨-,hrev⟩ | ⟨hopp,rfl⟩
    · rw [drawn_of_reversed hrev] at hclear
      exact absurd (hrev.symm.trans hclear) (Option.some_ne_none true)
    · refine ⟨hopp,hdata.trans ?_⟩
      rw [drawn,flipPoints]
      split <;> rfl
  refine ⟨hgreedy,hanon,fun e he o ho hea hoa hv hw => ?_,fun o ho ha e hlast => ?_⟩
  · by_contra hne
    by_cases hg : acyclicer = some (lit "greedy")
    · have hforth : g.Arc e.v e.w := ⟨hne,e,he,rfl,rfl⟩
      have hback : g.Arc e.w e.v := ⟨Ne.symm hne,o,ho,hw.symm,hv.symm⟩
      exact hgreedy hg e.v (.tail (.single hforth) hback)
    · have hone := feedback_one_way hm hg he ho hv hw hne
      by_cases hef : e ∈ g.feedback acyclicer
      · exact (hstays o ho (hone.mp hef)).1 e hef hw hv hoa
      · have hof : o ∈ g.feedback acyclicer := by
          by_contra hof
          exact hef (hone.mpr hof)
        exact (hstays e he hef).1 o hof hv.symm hw.symm hea
  · obtain ⟨hee,hk⟩ := mem_of_lastUnder hlast
    obtain ⟨hv,hw,-⟩ := ends_of_bareKey (h.turning.tidy e hee) (h.turning.tidy o ho) hk
    by_cases hof : o ∈ g.feedback acyclicer
    · have hef := feedback_parallel hm hee hof hv hw
      rw [hm.key_inj hee ho ((hanon e hef).symm.trans hk)]
    · rw [(hstays o ho hof).2,hlast,Option.getD_some]
      exact dataOf_of_label hm (hlabel e hee)

theorem reversible_of_restorable (h : Layable g uid) (hlabel : g.Labelled label)
    (hclean : ∀ o ∈ g.edges, (label o).reversed = none ∧ (label o).forwardName = none)
    (hpaths : ∀ o, RunsFrom lies (paths o) o.v o.w) (hr : Restorable acyclicer g) :
    Reversible lies acyclicer blank ranks paths g uid := by
  have hm := h.turning.multi
  obtain ⟨hback,hout⟩ := laidOut_spec blank ranks h hlabel hclean hpaths hr.back
  refine ⟨noCycle_run h hr.greedy hr.back hlabel,
    sameEdges_run h hlabel (fun o ho => (hclean o ho).1) hr.back,fun o ho => ?_⟩
  by_cases hof : o ∈ g.feedback acyclicer
  · exact hback o hof
  · obtain ⟨l,hl,hcases⟩ := hout o ho hof
    rcases hcases with ⟨⟨f,hf,hv,hw,ha⟩,-⟩ | ⟨-,rfl⟩
    · -- a back edge the other way would be a loop
      have hfe := mem_edges_of_feedback hm hf
      have hloop := hr.oneWay f hfe o ho (hr.back f hf) ha hw hv
      exact absurd (feedback_parallel hm ho hf (hv.symm.trans hloop.symm) (hw.symm.trans hloop)) hof
    · have hlast : ∃ e ∈ g.edges, (lastUnder g.edges (key o)).getD o = e ∧
          g.dataOf e = g.dataOf o := by
        cases hl' : lastUnder g.edges (key o) with
        | none => exact ⟨o,ho,rfl,rfl⟩
        | some e =>
          obtain ⟨he,hk⟩ := mem_of_lastUnder hl'
          have ha := (ends_of_bareKey (h.turning.tidy e he) (h.turning.tidy o ho) hk).2.2
          exact ⟨e,he,rfl,hr.parallel o ho ha e hl'⟩
      obtain ⟨e,he,hlast,hdata⟩ := hlast
      obtain ⟨hrev,hname⟩ := hclean e he
      rw [hlast,drawn_of_clean hrev] at hl
      have hown : g.dataOf o = some (label e).data := by
        rw [← hdata]
        exact dataOf_of_label hm (hlabel e he)
      exact ⟨_,hl,hown,hrev,hname,_,rfl,hpaths o⟩

/-- A flowchart: edges without names, numbered in their order. -/
def flowchart (links : List (PyStr × PyStr)) : Graph Unit (GraphEdge ℕ PyStr) :=
  links.zipIdx.foldl
    (fun g link => (g.setEdge link.1.1 link.1.2 (some ⟨link.2,none,none,none⟩) none).graph)
    (new ⟨some true,some true,none⟩ none none)

theorem layable_flowchart {links : List (PyStr × PyStr)}
    (h : ∀ link ∈ links, ch '\x01' ∉ link.1 ∧ ch '\x01' ∉ link.2) : (flowchart links).Layable 0 := by
  have hloop : ∀ (todo : List ((PyStr × PyStr) × ℕ)) (g : Graph Unit (GraphEdge ℕ PyStr)),
      (∀ link ∈ todo, ch '\x01' ∉ link.1.1 ∧ ch '\x01' ∉ link.1.2) → g.DiMulti →
      (∀ o ∈ g.edges, Tidy o ∧ o.name = none) →
      (∀ i l, lookup g.edgeLabels i = some l → ∃ n, l = some ⟨n,none,none,none⟩) →
      let t := todo.foldl (fun g link =>
        (g.setEdge link.1.1 link.1.2 (some ⟨link.2,none,none,none⟩) none).graph) g
      t.DiMulti ∧ (∀ o ∈ t.edges, Tidy o ∧ o.name = none) ∧
        ∀ i l, lookup t.edgeLabels i = some l → ∃ n, l = some ⟨n,none,none,none⟩ := by
    intro todo
    induction todo with
    | nil => exact fun g _ hm hedges hlabels => ⟨hm,hedges,hlabels⟩
    | cons link todo ih =>
      intro g htidy hm hedges hlabels
      obtain ⟨hm',hobjs,hlabels'⟩ := hm.setEdge link.1.1 link.1.2 ⟨link.2,none,none,none⟩ none
      refine ih _ (fun link' hl => htidy link' (List.mem_cons_of_mem link hl)) hm'
        (fun o ho => ?_) fun i l hl => ?_
      · rw [edges,hobjs] at ho
        split at ho
        · exact hedges o ho
        · rw [List.map_append,List.mem_append] at ho
          rcases ho with ho | ho
          · exact hedges o ho
          · rw [List.mem_singleton.mp ho]
            exact ⟨htidy link List.mem_cons_self,rfl⟩
      · rw [hlabels'] at hl
        split at hl
        · exact ⟨link.2,(Option.some.inj hl).symm⟩
        · exact hlabels i l hl
  have hall := hloop links.zipIdx (new ⟨some true,some true,none⟩ none none)
    (fun link hl => h link.1 (fst_mem_of_zipIdx hl)) ⟨rfl,rfl,sound_new _ none none⟩
    (fun o ho => by cases ho) fun i l hl => by cases hl
  change (flowchart links).DiMulti ∧ (∀ o ∈ (flowchart links).edges, Tidy o ∧ o.name = none) ∧
    ∀ i l, lookup (flowchart links).edgeLabels i = some l → ∃ n, l = some ⟨n,none,none,none⟩ at hall
  obtain ⟨hm,hedges,hlabels⟩ := hall
  refine ⟨⟨hm,fun o ho => (hedges o ho).1,fun o ho m _ => ?_⟩,fun o ho => ?_⟩
  · rw [(hedges o ho).2]
    exact (Option.some_ne_none (revName m)).symm
  · have hmem : (lookup (flowchart links).edgeLabels (key o)).isSome := by
      rw [isSome_lookup_iff,hm.sound.linked.ids,← isSome_lookup_iff]
      exact Option.isSome_of_eq_some (hm.mem_edges.mp ho)
    obtain ⟨l,hl⟩ := Option.isSome_iff_exists.mp hmem
    obtain ⟨n,rfl⟩ := hlabels _ l hl
    exact ⟨_,hl,rfl,rfl⟩

/-- Points that are the ends of the edge. -/
def straight (o : Edge) : List PyStr := [o.v,o.w]

theorem runsFrom_straight (o : Edge) : RunsFrom (· = ·) (straight o) o.v o.w :=
  ⟨⟨o.v,rfl,rfl⟩,o.w,rfl,rfl⟩

instance : Decidable (Anonymous e) := inferInstanceAs (Decidable (bareKey e = key e))

/-- A cycle of three nodes. -/
def triangle : Graph Unit (GraphEdge ℕ PyStr) :=
  flowchart [([ch 'a'],[ch 'b']),([ch 'b'],[ch 'c']),([ch 'c'],[ch 'a'])]

/-- Two nodes with edges both ways. -/
def twoCycle : Graph Unit (GraphEdge ℕ PyStr) :=
  flowchart [([ch 'a'],[ch 'b']),([ch 'b'],[ch 'a'])]

end Reversal

end Graph
end MinimaxCode.GraphLib
