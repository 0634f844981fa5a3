import MinimaxCode.DagreNormalize

/-!
# Putting long edges back

The undoing of a split walks along each chain, takes its dummies out of the graph and puts
the edge back with their places as its points. The edges whose chains are still to be
walked stay as they are.
-/

namespace MinimaxCode.DagreNormalize

open PyText OrderedDict GraphLib GraphLib.Graph

variable {D C : Type} {pos : PyStr → GraphEdgePoint C} {g t u : LayoutGraph D C} {e o : Edge}
variable {v w d : PyStr} {label orig : GraphEdge D C} {l : Option (GraphEdge D C)} {ds : List PyStr}

def placeNode (pos : PyStr → GraphEdgePoint C) (v : PyStr) (node : GraphNode D C) :
    GraphNode D C :=
  {node with x := (pos v).x, y := (pos v).y}

/-- An item of the node list with its place. -/
def placeItem (pos : PyStr → GraphEdgePoint C) (kv : PyStr × Option (GraphNode D C)) :
    PyStr × Option (GraphNode D C) :=
  (kv.1,kv.2.map (placeNode pos kv.1))

theorem placed_nodes (pos : PyStr → GraphEdgePoint C) (g : LayoutGraph D C) :
    (placed pos g).nodes = g.nodes.map (placeItem pos) := rfl

theorem keys_map_placeItem (pos : PyStr → GraphEdgePoint C)
    (items : List (PyStr × Option (GraphNode D C))) :
    keys (items.map (placeItem pos)) = keys items := by
  rw [keys,List.map_map]
  rfl

theorem keys_placed (pos : PyStr → GraphEdgePoint C) (g : LayoutGraph D C) :
    keys (placed pos g).nodes = keys g.nodes := keys_map_placeItem pos _

theorem diMulti_placed (h : g.DiMulti) : (placed pos g).DiMulti := by
  have hs := h.sound
  refine ⟨h.directed,h.multi,⟨?_,fun i o ho => ?_,fun v => ?_,hs.listed,fun hc c hsome => ?_⟩⟩
  · exact hs.linked.congr rfl rfl rfl rfl (fun _ => rfl) (fun _ => rfl) (fun _ => rfl) fun _ => rfl
  · rw [keys_placed]
    exact hs.endpoints i o ho
  · rw [keys_placed]
    exact hs.tables v
  · rw [keys_placed]
    exact hs.domain hc c hsome

theorem head_successors (h : u.DiMulti) (hone : ∀ o l, u.Has o l → o.v = v → o.w = w)
    (hsome : ∃ o l, u.Has o l ∧ o.v = v) : (keys (table u.sucs v)).head?.getD [] = w := by
  have hmem : w ∈ keys (table u.sucs v) := by
    obtain ⟨o,l,hl,hv⟩ := hsome
    exact h.mem_successors.mpr ⟨o,l,hl,hv,hone o l hl hv⟩
  cases hkeys : keys (table u.sucs v) with
  | nil =>
    rw [hkeys] at hmem
    cases hmem
  | cons x xs =>
    have hx : x ∈ keys (table u.sucs v) := by
      rw [hkeys]
      exact List.mem_cons_self
    obtain ⟨o,l,hl,hv,hw⟩ := h.mem_successors.mp hx
    exact hw.symm.trans (hone o l hl hv)

section Walk

variable [Zero C]

/-- The label of an edge, after so many dummies of its chain. -/
def collect (pos : PyStr → GraphEdgePoint C) (e : Edge) (label : GraphEdge D C) :
    List PyStr → ℤ → GraphEdge D C → GraphEdge D C
  | [], _, orig => orig
  | d::ds, rank, orig => collect pos e label ds (rank+1)
      (waypoint orig (orig.points.getD []) (placeNode pos d (dummyNode e label rank))
        (dummyType label rank))

omit [Zero C] in
theorem points_waypoint (orig : GraphEdge D C) (points : List (GraphEdgePoint C))
    (node : GraphNode D C) (dummy : PyStr) :
    (waypoint orig points node dummy).points = some (points++[⟨node.x,node.y⟩]) := by
  rw [waypoint]
  split <;> rfl

/-- A chain from one node to another, whose first edge need not be there any more. -/
structure Threaded (pos : PyStr → GraphEdgePoint C) (e : Edge) (label : GraphEdge D C)
    (u : LayoutGraph D C) (v : PyStr) (ds : List PyStr) (rank : ℤ) (w : PyStr) : Prop where
  multi : u.DiMulti
  nodup : ds.Nodup
  source : v ∉ ds
  target : w ∉ ds
  nodes : ∀ kv ∈ chainNodes e label ds rank, lookup u.nodes kv.1 = some (placeItem pos kv).2
  plain : ∃ node, lookup u.nodes w = some (some node) ∧ node.dummy = none
  edges : ∀ o l, u.Has o l → o.v ∈ ds ∨ o.w ∈ ds → o ∈ hops v (ds++[w])
  path : ∀ o ∈ (hops v (ds++[w])).tail, o ∈ u.edges

namespace Threaded

variable {ds : List PyStr} {rank : ℤ}

theorem head_edge (ds : List PyStr) : (⟨d,ds.headD w,none⟩ : Edge) ∈ hops d (ds++[w]) := by
  cases ds <;> exact List.mem_cons_self

theorem eq_head_edge (h : Threaded pos e label u v (d::ds) rank w) (ho : u.Has o l)
    (hv : o.v = d) : o.w = ds.headD w := by
  have hd : d ∉ ds := (List.nodup_cons.mp h.nodup).1
  have hmem := h.edges o l ho (.inl (hv ▸ List.mem_cons_self))
  rcases List.mem_cons.mp hmem with rfl | hmem
  · exact absurd (hv ▸ List.mem_cons_self) h.source
  · have hfrom : ∀ path : List PyStr, d ∉ path → ∀ x, o ∈ hops x path → x ≠ d → False := by
      intro path hpath x hx hne
      rcases List.mem_cons.mp (ends_of_hop hx).2.1 with heq | hin
      · exact hne (heq.symm.trans hv)
      · exact hpath (hv ▸ hin)
    cases ds with
    | nil =>
      rcases List.mem_cons.mp hmem with rfl | hnil
      · rfl
      · cases hnil
    | cons d' ds =>
      rcases List.mem_cons.mp hmem with rfl | hmem
      · rfl
      · refine (hfrom (ds++[w]) (fun hin => ?_) d' hmem fun heq => ?_).elim
        · rcases List.mem_append.mp hin with hin | hin
          · exact hd (List.mem_cons_of_mem d' hin)
          · exact h.target (List.mem_singleton.mp hin ▸ List.mem_cons_self)
        · exact hd (heq ▸ List.mem_cons_self)

theorem successor (h : Threaded pos e label u v (d::ds) rank w) :
    (keys (table u.sucs d)).head?.getD [] = ds.headD w := by
  obtain ⟨l,hl⟩ := h.multi.has_edge (h.path _ (head_edge ds))
  exact head_successors h.multi (fun o l ho hv => h.eq_head_edge ho hv) ⟨_,l,hl,rfl⟩

theorem removeNode (h : Threaded pos e label u v (d::ds) rank w) :
    (u.removeNode d).nodes = remove u.nodes d ∧
      (∀ o l, (u.removeNode d).Has o l ↔ o.v ≠ d ∧ o.w ≠ d ∧ u.Has o l) ∧
      Threaded pos e label (u.removeNode d) d ds (rank+1) w := by
  have hd : d ∈ keys u.nodes := by
    rw [← isSome_lookup_iff,h.nodes _ List.mem_cons_self]
    rfl
  have hname : ∀ o l, u.Has o l → o.v = d ∨ o.w = d → o.name = none := by
    intro o l ho hat
    have hdummy : o.v ∈ d::ds ∨ o.w ∈ d::ds := by
      rcases hat with rfl | rfl
      · exact .inl List.mem_cons_self
      · exact .inr List.mem_cons_self
    exact (ends_of_hop (h.edges o l ho hdummy)).2.2
  obtain ⟨hm,hnodes,hhas⟩ := h.multi.removeNode hname hd
  obtain ⟨hnot,hnodup⟩ := List.nodup_cons.mp h.nodup
  refine ⟨hnodes,hhas,⟨hm,hnodup,hnot,fun hw => h.target (List.mem_cons_of_mem d hw),
    fun kv hkv => ?_,?_,fun o l ho hat => ?_,fun o ho => ?_⟩⟩
  · have hne : d ≠ kv.1 := by
      rintro rfl
      refine hnot ?_
      rw [← keys_chainNodes e label ds (rank+1)]
      exact List.mem_map_of_mem hkv
    rw [hnodes,lookup_remove,if_neg hne]
    exact h.nodes kv (List.mem_cons_of_mem _ hkv)
  · have hne : d ≠ w := by
      rintro rfl
      exact h.target List.mem_cons_self
    rw [hnodes,lookup_remove,if_neg hne]
    exact h.plain
  · obtain ⟨-,hw,ho⟩ := (hhas o l).mp ho
    rcases List.mem_cons.mp (h.edges o l ho (hat.imp (List.mem_cons_of_mem d)
      (List.mem_cons_of_mem d))) with rfl | hmem
    · exact absurd rfl hw
    · exact hmem
  · cases ds with
    | nil => cases ho
    | cons d' ds =>
      obtain ⟨l,hl⟩ := h.multi.has_edge (h.path o (List.mem_cons_of_mem _ ho))
      obtain ⟨how,hov,-⟩ := ends_of_hop ho
      have haway : ∀ x, x ∈ d'::(ds++[w]) → x ≠ d := by
        rintro x hx rfl
        rcases List.mem_cons.mp hx with rfl | hx
        · exact hnot List.mem_cons_self
        · rcases List.mem_append.mp hx with hx | hx
          · exact hnot (List.mem_cons_of_mem d' hx)
          · exact h.target (List.mem_singleton.mp hx ▸ List.mem_cons_self)
      exact hm.mem_of_has ((hhas o l).mpr ⟨haway _ hov,haway _ (List.mem_cons_of_mem d' how),hl⟩)

theorem walk_collects (h : Threaded pos e label u v ds rank w) {fuel : ℕ}
    (hfuel : ds.length < fuel) {node : GraphNode D C}
    (hnode : lookup u.nodes (ds.headD w) = some (some node))
    {points : List (GraphEdgePoint C)} (hpoints : orig.points = some points) :
    ∃ u', walk fuel u (ds.headD w) node orig = some (u',collect pos e label ds rank orig) ∧
      u'.DiMulti ∧ u'.nodes = u.nodes.filter (fun kv => kv.1 ∉ ds) ∧
      ∀ o l, u'.Has o l ↔ (o.v ∉ ds ∧ o.w ∉ ds) ∧ u.Has o l := by
  induction ds generalizing u v rank orig points fuel node with
  | nil =>
    obtain ⟨node',hnode',hplain⟩ := h.plain
    cases hnode.symm.trans hnode'
    cases fuel with
    | zero => omega
    | succ fuel =>
      refine ⟨u,?_,h.multi,(List.filter_eq_self.mpr fun kv _ => ?_).symm,fun o l => ?_⟩
      · rw [walk,hplain]
        rfl
      · simp
      · simp
  | cons d ds ih =>
    cases fuel with
    | zero => omega
    | succ fuel =>
      obtain ⟨hnodes,hhas,hrest⟩ := h.removeNode
      cases hnode.symm.trans (h.nodes _ List.mem_cons_self)
      obtain ⟨next,hnext⟩ :
          ∃ next, lookup (u.removeNode d).nodes (ds.headD w) = some (some next) := by
        cases ds with
        | nil =>
          obtain ⟨next,hnext,-⟩ := hrest.plain
          exact ⟨next,hnext⟩
        | cons d' ds => exact ⟨_,hrest.nodes _ List.mem_cons_self⟩
      have hfuel' : ds.length < fuel := Nat.lt_of_succ_lt_succ hfuel
      obtain ⟨u',hwalk,hm,hnodes',hhas'⟩ := ih hrest hfuel' hnext (points_waypoint orig points
        (placeNode pos d (dummyNode e label rank)) (dummyType label rank))
      refine ⟨u',?_,hm,?_,fun o l => ?_⟩
      · have hdummy : (placeNode pos d (dummyNode e label rank)).dummy =
            some (dummyType label rank) := rfl
        have hhead : (d::ds).headD w = d := rfl
        rw [hhead,walk,hdummy]
        dsimp only
        rw [h.successor,hpoints]
        dsimp only
        rw [hnext,collect,hpoints]
        exact hwalk
      · rw [hnodes',hnodes,remove,List.filter_filter]
        refine List.filter_congr fun kv _ => ?_
        rw [Bool.eq_iff_iff]
        simp only [Bool.and_eq_true,decide_eq_true_eq,List.mem_cons,not_or]
        exact and_comm
      · rw [hhas',hhas]
        simp only [List.mem_cons,not_or]
        tauto

end Threaded

end Walk

theorem chain_ends (ho : o ∈ chainEdges e ds) :
    (o.v = e.v ∨ o.v = e.w ∨ o.v ∈ ds) ∧ (o.w = e.w ∨ o.w ∈ ds) := by
  rw [chainEdges] at ho
  split at ho
  · rw [List.mem_singleton.mp ho]
    exact ⟨.inl rfl,.inl rfl⟩
  · obtain ⟨hw,hv,-⟩ := ends_of_hop ho
    simp only [List.mem_cons,List.mem_append,List.not_mem_nil,or_false] at hv hw
    exact ⟨by tauto,hw.symm⟩

section Join

variable [Inhabited D] [Zero C] [One C]

/-- The label of an edge, drawn with the places of its dummies. -/
def redrawn (pos : PyStr → GraphEdgePoint C) (g : LayoutGraph D C) (c : Edge × List PyStr)
    (label : GraphEdge D C) : GraphEdge D C :=
  collect pos c.1 (cleared label) c.2 (rankOf g c.1.v+1) (cleared label)

/-- An edge of the graph, put back. -/
def PutBack (pos : PyStr → GraphEdgePoint C) (g : LayoutGraph D C) (c : Edge × List PyStr)
    (o : Edge) (l : Option (GraphEdge D C)) : Prop :=
  o = c.1 ∧ ∃ l₀, g.Has c.1 l₀ ∧ l = l₀.map (redrawn pos g c)

/-- The loop over the chains. -/
structure Joining (pos : PyStr → GraphEdgePoint C) (g : LayoutGraph D C)
    (done todo : List (Edge × List PyStr)) (u : LayoutGraph D C) : Prop where
  all : (done++todo).map Prod.fst = g.edges
  sorted : Sorted u
  nodes : u.nodes = (placed pos g).nodes++todo.flatMap fun c => (nodesOf g c).map (placeItem pos)
  has : ∀ o l, u.Has o l ↔ (∃ c ∈ done, PutBack pos g c o l) ∨ ∃ c ∈ todo, Stands g c o l

namespace Joining

variable {done todo : List (Edge × List PyStr)} {c c' : Edge × List PyStr} {ds : List PyStr}

theorem keys_nodes (h : Joining pos g done todo u) :
    keys u.nodes = keys g.nodes++todo.flatMap Prod.snd := by
  rw [h.nodes,keys,List.map_append,List.map_flatMap]
  refine congrArg₂ (·++·) (keys_placed pos g) (List.flatMap_congr fun c _ => ?_)
  exact (keys_map_placeItem pos _).trans (keys_nodesOf g c)

theorem skip (h : Joining pos g done (c::todo) u) (hc : c.2 = []) :
    Joining pos g (done++[c]) todo u := by
  refine ⟨by rw [List.append_assoc]; exact h.all,h.sorted,?_,fun o l => ?_⟩
  · rw [h.nodes,List.flatMap_cons,nodesOf,hc]
    rfl
  · have hsame : Stands g c o l ↔ PutBack pos g c o l := by
      rw [Stands,PutBack,hc,chainEdges,if_pos rfl,if_pos rfl,List.mem_singleton]
      have hlabel : (redrawn pos g c : GraphEdge D C → GraphEdge D C) = cleared := by
        funext label
        rw [redrawn,hc]
        rfl
      rw [hlabel]
    rw [h.has]
    simp only [List.mem_append,List.mem_cons,List.not_mem_nil,or_false,or_and_right,exists_or,
      exists_eq_left,hsame]
    exact or_assoc.symm

theorem dummy_new (h : Joining pos g done todo u) (hc : c ∈ todo) (hd : d ∈ c.2) :
    d ∉ keys g.nodes := by
  have hnodup := h.sorted.distinct
  rw [h.keys_nodes] at hnodup
  intro hmem
  exact (List.nodup_append.mp hnodup).2.2 d hmem d (List.mem_flatMap.mpr ⟨c,hc,hd⟩) rfl

theorem dummy_own (h : Joining pos g done (c::todo) u) (hd : d ∈ c.2) (hc' : c' ∈ todo) :
    d ∉ c'.2 := by
  have hnodup := h.sorted.distinct
  rw [h.keys_nodes,List.flatMap_cons] at hnodup
  intro hmem
  refine (List.nodup_append.mp (List.nodup_append.mp hnodup).2.1).2.2 d hd d ?_ rfl
  exact List.mem_flatMap.mpr ⟨c',hc',hmem⟩

theorem mem_edges (h : Joining pos g done todo u) (hc : c ∈ done++todo) : c.1 ∈ g.edges := by
  rw [← h.all]
  exact List.mem_map_of_mem hc

theorem apart (h : Joining pos g done (c::todo) u) (hg : g.DiMulti)
    (ho : (∃ c' ∈ done, PutBack pos g c' o l) ∨ ∃ c' ∈ todo, Stands g c' o l) :
    o.v ∉ c.2 ∧ o.w ∉ c.2 := by
  have hends : ∀ c' ∈ done++c::todo, c'.1.v ∈ keys g.nodes ∧ c'.1.w ∈ keys g.nodes := fun c' hc' =>
    hg.sound.endpoints _ c'.1 (hg.mem_edges.mp (h.mem_edges hc'))
  rcases ho with ⟨c',hc',rfl,-⟩ | ⟨c',hc',ho,-⟩
  · obtain ⟨hv,hw⟩ := hends c' (List.mem_append_left _ hc')
    exact ⟨fun hin => h.dummy_new List.mem_cons_self hin hv,
      fun hin => h.dummy_new List.mem_cons_self hin hw⟩
  · obtain ⟨hv,hw⟩ := hends c' (List.mem_append_right _ (List.mem_cons_of_mem c hc'))
    have hnot : ∀ x, x = c'.1.v ∨ x = c'.1.w ∨ x ∈ c'.2 → x ∉ c.2 := by
      rintro x (rfl | rfl | hx) hin
      · exact h.dummy_new List.mem_cons_self hin hv
      · exact h.dummy_new List.mem_cons_self hin hw
      · exact h.dummy_own hin hc' hx
    obtain ⟨hov,how⟩ := chain_ends ho
    exact ⟨hnot _ hov,hnot _ (.inr how)⟩

theorem threaded (h : Joining pos g done (c::todo) u) (hg : Ranked g) (hds : c.2 ≠ [])
    (hlabel : g.Has c.1 (some label)) :
    Threaded pos c.1 (cleared label) u c.1.v c.2 (rankOf g c.1.v+1) c.1.w := by
  obtain ⟨hv,hw⟩ := hg.multi.ends hlabel
  have hkeys := h.sorted.distinct
  rw [h.keys_nodes,List.flatMap_cons] at hkeys
  have hstands : ∀ o, o ∈ hops c.1.v (c.2++[c.1.w]) → ∃ l, u.Has o l := by
    intro o ho
    refine ⟨_,(h.has o _).mpr (.inr ⟨c,List.mem_cons_self,?_,some label,hlabel,rfl⟩)⟩
    rw [chainEdges,if_neg hds]
    exact ho
  refine ⟨h.sorted.multi,(List.nodup_append.mp (List.nodup_append.mp hkeys).2.1).1,
    fun hin => h.dummy_new List.mem_cons_self hin hv,
    fun hin => h.dummy_new List.mem_cons_self hin hw,fun kv hkv => ?_,?_,
    fun o l ho hat => ?_,fun o ho => ?_⟩
  · refine lookup_of_mem h.sorted.distinct ?_
    rw [h.nodes,List.flatMap_cons,nodesOf,hg.multi.edgeWithObj_of_has hlabel]
    exact List.mem_append_right _ (List.mem_append_left _ (List.mem_map_of_mem hkv))
  · obtain ⟨node,rank,hnode,-⟩ := hg.ranked c.1.w hw
    have hplain := hg.plain c.1 (h.mem_edges (List.mem_append_right _ List.mem_cons_self))
    rw [dummyOf,hnode] at hplain
    refine ⟨placeNode pos c.1.w node,lookup_of_mem h.sorted.distinct ?_,hplain⟩
    rw [h.nodes]
    exact List.mem_append_left _ (List.mem_map_of_mem (f := placeItem pos) (mem_of_lookup hnode))
  · rcases (h.has o l).mp ho with ho | ⟨c',hc',ho⟩
    · obtain ⟨hov,how⟩ := h.apart hg.multi (.inl ho)
      rcases hat with hat | hat
      · exact absurd hat hov
      · exact absurd hat how
    · rcases List.mem_cons.mp hc' with rfl | hc'
      · have hin := ho.1
        rwa [chainEdges,if_neg hds] at hin
      · obtain ⟨hov,how⟩ := h.apart hg.multi (.inr ⟨c',hc',ho⟩)
        rcases hat with hat | hat
        · exact absurd hat hov
        · exact absurd hat how
  · obtain ⟨l,hl⟩ := hstands o (List.mem_of_mem_tail ho)
    exact h.sorted.multi.mem_of_has hl

theorem nodes_rest (h : Joining pos g done (c::todo) u) : u.nodes.filter (fun kv => kv.1 ∉ c.2) =
    (placed pos g).nodes++todo.flatMap fun c => (nodesOf g c).map (placeItem pos) := by
  have hkeep : ∀ items : List (PyStr × Option (GraphNode D C)), (∀ d ∈ keys items, d ∉ c.2) →
      items.filter (fun kv => kv.1 ∉ c.2) = items := fun items hitems =>
    List.filter_eq_self.mpr fun kv hkv => decide_eq_true (hitems kv.1 (List.mem_map_of_mem hkv))
  have hdrop : ((nodesOf g c).map (placeItem pos)).filter (fun kv => kv.1 ∉ c.2) = [] := by
    refine List.filter_eq_nil_iff.mpr fun kv hkv hin => of_decide_eq_true hin ?_
    rw [← keys_nodesOf g c,← keys_map_placeItem pos]
    exact List.mem_map_of_mem hkv
  have hold := hkeep (placed pos g).nodes fun d hd hin =>
    h.dummy_new List.mem_cons_self hin (keys_placed pos g ▸ hd)
  have hrest := hkeep (todo.flatMap fun c => (nodesOf g c).map (placeItem pos)) fun d hd hin => by
    rw [keys,List.map_flatMap] at hd
    obtain ⟨c',hc',hd⟩ := List.mem_flatMap.mp hd
    have hd' : d ∈ keys ((nodesOf g c').map (placeItem pos)) := hd
    rw [keys_map_placeItem,keys_nodesOf] at hd'
    exact h.dummy_own hin hc' hd'
  rw [h.nodes,List.flatMap_cons,List.filter_append,List.filter_append,hdrop,List.nil_append,hold,
    hrest]

theorem undoChain_eq (hlook : lookup u.nodes d = some (some (placeNode pos d
    (dummyNode e label (rankOf g e.v+1))))) {u' : LayoutGraph D C} {orig : GraphEdge D C}
    (hwalk : walk (u.nodes.length+1) u d (placeNode pos d (dummyNode e label (rankOf g e.v+1)))
      label = some (u',orig)) :
    undoChain u d = some (u'.setEdgeWithObj e (some orig)).graph := by
  have hnode : (placeNode pos d (dummyNode e label (rankOf g e.v+1))).edgeObj = some e ∧
      (placeNode pos d (dummyNode e label (rankOf g e.v+1))).edgeLabel = some label := by
    rw [placeNode,dummyNode,attrs]
    dsimp only
    split <;> exact ⟨rfl,rfl⟩
  rw [undoChain,hlook]
  dsimp only [Option.join_some]
  rw [hnode.1,hnode.2]
  dsimp only [Option.getD_some]
  rw [hwalk]

theorem rejoin (h : Joining pos g done (c::todo) u) (hg : Ranked g) {ds : List PyStr}
    (hds : c.2 = d::ds) (hname : c.1.name = none) (hlabel : g.Has c.1 (some label)) :
    ∃ u', undoChain u d = some u' ∧ Joining pos g (done++[c]) todo u' := by
  have hne : c.2 ≠ [] := hds ▸ List.cons_ne_nil d ds
  have hthread := h.threaded hg hne hlabel
  have hlook : lookup u.nodes d = some (some (placeNode pos d
      (dummyNode c.1 (cleared label) (rankOf g c.1.v+1)))) := by
    rw [hds] at hthread
    exact hthread.nodes _ List.mem_cons_self
  have hfuel : c.2.length < u.nodes.length+1 := by
    have hlen := congrArg List.length h.keys_nodes
    rw [keys,List.length_map,List.flatMap_cons,List.length_append,List.length_append] at hlen
    omega
  have hhead : c.2.headD c.1.w = d := by rw [hds]; rfl
  have hpoints : (cleared label).points = some [] := rfl
  obtain ⟨u',hwalk,hm,hnodes,hhas⟩ :=
    hthread.walk_collects hfuel (by rw [hhead]; exact hlook) hpoints
  rw [hhead] at hwalk
  have hsub : ∀ v ∈ keys u'.nodes, v ∈ keys u.nodes := by
    intro v hv
    rw [hnodes] at hv
    exact (List.filter_sublist.map Prod.fst).subset hv
  have hdistinct : (keys u'.nodes).Nodup := by
    rw [hnodes]
    exact h.sorted.distinct.sublist (List.filter_sublist.map Prod.fst)
  rw [h.nodes_rest] at hnodes
  -- the edges that are left are those of the other chains
  have hothers : ∀ o l, u'.Has o l ↔
      (∃ c' ∈ done, PutBack pos g c' o l) ∨ ∃ c' ∈ todo, Stands g c' o l := by
    intro o l
    rw [hhas,h.has]
    constructor
    · rintro ⟨⟨hov,how⟩,ho | ⟨c',hc',ho⟩⟩
      · exact .inl ho
      · rcases List.mem_cons.mp hc' with rfl | hc'
        · have hhop := ho.1
          rw [chainEdges,if_neg hne] at hhop
          exact absurd (hop_meets hne hhop) (not_or.mpr ⟨hov,how⟩)
        · exact .inr ⟨c',hc',ho⟩
    · intro ho
      refine ⟨h.apart hg.multi ho,ho.imp_right ?_⟩
      rintro ⟨c',hc',ho⟩
      exact ⟨c',List.mem_cons_of_mem c hc',ho⟩
  obtain ⟨hv,hw⟩ := hg.multi.ends hlabel
  have hold : ∀ x ∈ keys g.nodes, x ∈ keys u'.nodes := by
    intro x hx
    rw [hnodes,keys,List.map_append]
    exact List.mem_append_left _ (by rwa [← keys,keys_placed])
  have htidy : u'.TidyNodes := fun v hv => h.sorted.tidy v (hsub v hv)
  -- none of them has the id of the edge
  have hnew : ∀ o l, u'.Has o l → key o ≠ key ⟨c.1.v,c.1.w,none⟩ := by
    intro o l ho hkey
    have hdistinct : c.1 ∉ done.map Prod.fst++todo.map Prod.fst := by
      have hnodup := hg.multi.edges_nodup
      rw [← h.all,List.map_append,List.map_cons,List.nodup_middle] at hnodup
      exact (List.nodup_cons.mp hnodup).1
    have hself : ∀ c' ∈ done++todo, o ≠ c'.1 := by
      rintro c' hc' rfl
      refine hdistinct ?_
      have hmem : c'.1 ∈ g.edges := h.mem_edges (by simp at hc' ⊢; tauto)
      obtain ⟨l',hl'⟩ := hg.multi.has_edge hmem
      rw [← hl'.same_key hlabel (by rw [hkey,← hname]),← List.map_append]
      exact List.mem_map_of_mem hc'
    rcases (hothers o l).mp ho with ⟨c',hc',hoc,-⟩ | ⟨c',hc',hoc⟩
    · exact hself c' (List.mem_append_left _ hc') hoc
    · have hchain := hoc.1
      rw [chainEdges] at hchain
      by_cases hshort : c'.2 = []
      · rw [if_pos hshort,List.mem_singleton] at hchain
        exact hself c' (List.mem_append_right _ hc') hchain
      · rw [if_neg hshort] at hchain
        rw [key_eq,key_eq] at hkey
        have hown := hg.multi.tidy hg.tidy hlabel
        obtain ⟨hov,how,-⟩ := split_key (hm.tidy htidy ho) (o := ⟨c.1.v,c.1.w,none⟩)
          ⟨hown.1,hown.2⟩ hkey
        rcases hop_meets hshort hchain with hin | hin
        · exact h.dummy_new (List.mem_cons_of_mem c hc') hin (by rw [hov]; exact hv)
        · exact h.dummy_new (List.mem_cons_of_mem c hc') hin (by rw [how]; exact hw)
  have hedge : (⟨c.1.v,c.1.w,none⟩ : Edge) = c.1 := by
    rw [← hname]
  have hsame := setEdge_nodes (hold _ hv) (hold _ hw)
    (some (collect pos c.1 (cleared label) c.2 (rankOf g c.1.v+1) (cleared label))) none
  refine ⟨_,undoChain_eq hlook hwalk,⟨by rw [List.append_assoc]; exact h.all,
    ⟨(hm.setEdge _ _ _ none).1,fun v hv => ?_,?_⟩,hsame.trans hnodes,fun o l => ?_⟩⟩
  · rw [setEdgeWithObj,hsame] at hv
    exact htidy v hv
  · rw [setEdgeWithObj,hsame]
    exact hdistinct
  · rw [setEdgeWithObj,hm.setEdge_has _ hnew,hothers,hedge]
    have hback : PutBack pos g c o l ↔ o = c.1 ∧ l = some (redrawn pos g c label) := by
      refine and_congr_right fun _ => ⟨?_,fun hl => ⟨some label,hlabel,hl⟩⟩
      rintro ⟨l₀,hl₀,rfl⟩
      rw [hl₀.unique hlabel]
      rfl
    simp only [List.mem_append,List.mem_cons,List.not_mem_nil,or_false,or_and_right,exists_or,
      exists_eq_left,hback]
    exact or_left_comm.trans or_assoc.symm

theorem foldlM (h : Joining pos g done todo u) (hg : Ranked g)
    (hlong : ∀ c ∈ todo, c.2 ≠ [] → c.1.name = none ∧ ∃ label, g.Has c.1 (some label)) :
    ∃ u', (todo.flatMap fun c => c.2.head?.toList).foldlM undoChain u = some u' ∧
      Joining pos g (done++todo) [] u' := by
  induction todo generalizing done u with
  | nil => exact ⟨u,rfl,by rwa [List.append_nil]⟩
  | cons c todo ih =>
    have hlong' : ∀ c ∈ todo, c.2 ≠ [] → c.1.name = none ∧ ∃ label, g.Has c.1 (some label) :=
      fun c' hc' => hlong c' (List.mem_cons_of_mem c hc')
    rw [List.flatMap_cons]
    cases hds : c.2 with
    | nil =>
      obtain ⟨u',hfold,hjoin⟩ := ih (h.skip hds) hlong'
      rw [List.append_assoc] at hjoin
      exact ⟨u',hfold,hjoin⟩
    | cons d ds =>
      obtain ⟨hname,label,hlabel⟩ := hlong c List.mem_cons_self (hds ▸ List.cons_ne_nil d ds)
      obtain ⟨u₁,hundo,hjoin₁⟩ := h.rejoin hg hds hname hlabel
      obtain ⟨u',hfold,hjoin⟩ := ih hjoin₁ hlong'
      rw [List.append_assoc] at hjoin
      refine ⟨u',?_,hjoin⟩
      rw [List.head?_cons,Option.toList_some,List.singleton_append,List.foldlM_cons,hundo]
      exact hfold

end Joining

theorem Normalising.long {chains : List (Edge × List PyStr)} {s : Layout D C}
    (h : Normalising g chains [] s) (hplain : ∀ e ∈ g.edges, Plain g e) :
    ∀ c ∈ chains, c.2 ≠ [] → c.1.name = none ∧ ∃ label, g.Has c.1 (some label) := by
  intro c hc hds
  have hmem : c.1 ∈ g.edges := by
    rw [← h.all,List.append_nil]
    exact List.mem_map_of_mem hc
  rcases hplain c.1 hmem with hshort | ⟨-,hname,hlabel⟩
  · have hlen := h.lengths c hc
    have hpos := List.length_pos_iff.mpr hds
    omega
  · exact ⟨hname,hlabel⟩

theorem undo_joins {chains : List (Edge × List PyStr)} {s : Layout D C} (hg : Ranked g)
    (h : Normalising g chains [] s) (hplain : ∀ e ∈ g.edges, Plain g e)
    (pos : PyStr → GraphEdgePoint C) :
    ∃ u, undo {s with graph := placed pos s.graph} = some u ∧ Joining pos g chains [] u := by
  have hstart : Joining pos g [] chains (placed pos s.graph) := by
    refine ⟨by rw [← h.all,List.append_nil]; rfl,
      ⟨diMulti_placed h.sorted.multi,fun v hv => h.sorted.tidy v ?_,?_⟩,?_,fun o l => ?_⟩
    · rwa [keys_placed] at hv
    · rw [keys_placed]
      exact h.sorted.distinct
    · rw [placed_nodes,h.nodes,List.map_append,List.map_flatMap]
      rfl
    · refine (h.has o l).trans ⟨fun ho => ?_,fun ho => ?_⟩
      · exact .inr (ho.resolve_right fun h => by cases h.1)
      · rcases ho with ⟨c,hc,-⟩ | ho
        · cases hc
        · exact .inl ho
  obtain ⟨u,hfold,hjoin⟩ := hstart.foldlM hg (h.long hplain)
  refine ⟨u,?_,hjoin⟩
  rw [undo,h.chains]
  exact hfold

end Join

theorem dummyType_eq_iff (label : GraphEdge D C) (rank : ℤ) :
    dummyType label rank = lit "edge-label" ↔ rank = label.labelRank.getD 0 := by
  rw [dummyType]
  split
  · next h => exact ⟨fun _ => h,fun _ => rfl⟩
  · next h => exact ⟨fun heq => absurd heq (by decide),fun heq => absurd heq h⟩

section Label

variable [Zero C]

/-- A label with the place and the size that its dummy lends it. -/
def lent (pos : PyStr → GraphEdgePoint C) (label orig : GraphEdge D C) :
    Option PyStr → GraphEdge D C
  | some d => { orig with
    x := (pos d).x
    y := (pos d).y
    width := some (label.width.getD 0)
    height := some (label.height.getD 0) }
  | none => orig

/-- The dummy of a chain for the label. -/
def labelDummy (t : LayoutGraph D C) (ds : List PyStr) : Option PyStr :=
  ds.find? fun d => dummyOf t d = some (lit "edge-label")

theorem dummyOf_of_mem (hd : (keys t.nodes).Nodup) {rank : ℤ}
    (h : (d,some (dummyNode e label rank)) ∈ t.nodes) :
    dummyOf t d = some (dummyType label rank) := by
  rw [dummyOf,lookup_of_mem hd h]
  rfl

theorem labelDummy_none {ds : List PyStr} {rank : ℤ} (hd : (keys t.nodes).Nodup)
    (hnodes : ∀ kv ∈ chainNodes e label ds rank, kv ∈ t.nodes)
    (hlate : label.labelRank.getD 0 < rank) : labelDummy t ds = none := by
  refine List.find?_eq_none.mpr fun d hmem heq => ?_
  obtain ⟨r,⟨hle,-⟩,hr⟩ := mem_chainNodes e label rank hmem
  have htype := of_decide_eq_true heq
  rw [dummyOf_of_mem hd (hnodes _ hr),Option.some.injEq,dummyType_eq_iff] at htype
  omega

theorem collect_eq {ds : List PyStr} {rank : ℤ} {points : List (GraphEdgePoint C)}
    (hd : (keys t.nodes).Nodup) (hnodes : ∀ kv ∈ chainNodes e label ds rank, kv ∈ t.nodes)
    (hpoints : orig.points = some points) : collect pos e label ds rank orig =
      lent pos label {orig with points := some (points++ds.map pos)} (labelDummy t ds) := by
  induction ds generalizing rank orig points with
  | nil =>
    obtain ⟨data,weight,width,height,labelRank,labelpos,points',x,y⟩ := orig
    dsimp only at hpoints
    rw [hpoints]
    simp [collect,lent,labelDummy]
  | cons d ds ih =>
    have hrest : ∀ kv ∈ chainNodes e label ds (rank+1), kv ∈ t.nodes := fun kv hkv =>
      hnodes kv (List.mem_cons_of_mem _ hkv)
    have hdummy := dummyOf_of_mem hd (hnodes _ List.mem_cons_self)
    rw [collect,hpoints,ih hrest (points_waypoint orig _ _ _)]
    by_cases hr : rank = label.labelRank.getD 0
    · have htype := (dummyType_eq_iff label rank).mpr hr
      have hfind : labelDummy t (d::ds) = some d := by
        rw [labelDummy,List.find?_cons_of_pos (by rw [hdummy,htype]; exact decide_eq_true rfl)]
      rw [labelDummy_none hd hrest (by omega),hfind,htype]
      simp [lent,waypoint,placeNode,dummyNode,attrs,hr]
    · have htype := mt (dummyType_eq_iff label rank).mp hr
      have hfind : labelDummy t (d::ds) = labelDummy t ds := by
        rw [labelDummy,List.find?_cons_of_neg (by rw [hdummy]; simpa using htype),labelDummy]
      rw [hfind,Option.getD_some,waypoint,if_neg htype]
      simp [placeNode]

end Label

/-- The edges and their labels are old or were set without a name and with a label. -/
structure Grows (g u : LayoutGraph D C) : Prop where
  kind : SameKind g u
  named : ∀ o ∈ u.edges, o.name ≠ none → o ∈ g.edges
  blank : ∀ i, lookup u.edgeLabels i = some none → lookup g.edgeLabels i = some none

namespace Grows

theorem refl (g : LayoutGraph D C) : Grows g g := ⟨⟨rfl,rfl,rfl⟩,fun _ ho _ => ho,fun _ hi => hi⟩

theorem trans (h : Grows g t) (h' : Grows t u) : Grows g u :=
  ⟨⟨h'.kind.1.trans h.kind.1,h'.kind.2.1.trans h.kind.2.1,h'.kind.2.2.trans h.kind.2.2⟩,
    fun o ho hname => h.named o (h'.named o ho hname) hname,fun i hi => h.blank i (h'.blank i hi)⟩

theorem of_trims (h : g.Trims u) : Grows g u := by
  refine ⟨h.kind,fun o ho _ => ?_,fun i hi => ?_⟩
  · obtain ⟨kv,hkv,rfl⟩ := List.mem_map.mp ho
    exact List.mem_map_of_mem (h.subset hkv)
  · rcases h.labels i with hnone | hsame
    · cases hnone.symm.trans hi
    · rwa [← hsame]

theorem setEdge (g : LayoutGraph D C) (v w : PyStr) (label : GraphEdge D C) :
    Grows g (g.setEdge v w (some label) none).graph := by
  refine ⟨sameKind_setEdge g v w _ none,fun o ho hname => ?_,fun i hi => ?_⟩
  all_goals rcases g.setEdge_cases v w (some label) none with ⟨-,heq⟩ | ⟨-,⟨-,-,heq,-⟩ | ⟨-,heq⟩⟩
  · rw [heq] at ho
    exact ho
  · rwa [heq] at ho
  · rw [heq] at ho
    obtain ⟨kv,hkv,rfl⟩ := List.mem_map.mp ho
    rcases mem_assign hkv with rfl | hold
    · refine absurd ?_ hname
      rw [edgeArgsToObj]
    · rw [(edgeLabels_setNode _ w none).2.1,(edgeLabels_setNode g v none).2.1] at hold
      exact List.mem_map_of_mem hold
  · rw [heq,relabel,lookup_assign] at hi
    split at hi
    · cases hi
    · exact hi
  · rwa [heq] at hi
  · rw [heq,createEdge,linkEdge,lookup_assign] at hi
    split at hi
    · cases hi
    · rwa [(edgeLabels_setNode _ w none).1,(edgeLabels_setNode g v none).1] at hi

theorem walk {fuel : ℕ} {node : GraphNode D C} {orig' : GraphEdge D C}
    (h : walk fuel g v node orig = some (u,orig')) : Grows g u := by
  induction fuel generalizing g v node orig with
  | zero => cases h
  | succ fuel ih =>
    rw [DagreNormalize.walk] at h
    split at h
    · cases h
      exact .refl _
    · dsimp only at h
      split at h
      · cases h
      · split at h
        · cases h
        · exact (of_trims (g.trims_removeNode v)).trans (ih h)

theorem undoChain [Inhabited D] [Zero C] [One C] (h : undoChain g v = some u) : Grows g u := by
  rw [DagreNormalize.undoChain] at h
  split at h
  · cases h
    exact .refl _
  · split at h
    · cases h
    · split at h
      · cases h
      · next hwalk =>
        cases h
        exact (walk hwalk).trans (setEdge _ _ _ _)

theorem foldlM [Inhabited D] [Zero C] [One C] {chains : List PyStr}
    (h : chains.foldlM DagreNormalize.undoChain g = some u) : Grows g u := by
  induction chains generalizing g with
  | nil =>
    cases h
    exact .refl _
  | cons d chains ih =>
    rw [List.foldlM_cons] at h
    obtain ⟨t,hundo,hrest⟩ := Option.bind_eq_some_iff.mp h
    exact (undoChain hundo).trans (ih hrest)

theorem undo [Inhabited D] [Zero C] [One C] {s : Layout D C} (h : undo s = some u) :
    Grows s.graph u := by
  rw [DagreNormalize.undo] at h
  split at h
  · cases h
    exact .refl _
  · exact foldlM h

end Grows

theorem Ranked.sorted (h : Ranked g) : Sorted g := ⟨h.multi,h.tidy,h.distinct⟩

theorem Splits.plain (hg : g.DiMulti) (he : e ∈ g.edges) (h : Splits g e) : Plain g e := by
  rcases h with hshort | ⟨hrise,hname,label,hlabel,-⟩
  · exact .inl hshort
  · obtain ⟨l,hl⟩ := hg.has_edge he
    rw [hg.edgeWithObj_of_has hl,Option.some.injEq] at hlabel
    exact .inr ⟨hrise,hname,label,hlabel ▸ hl⟩

theorem rank_of_hops
    (h : ∀ o ∈ hops v (ds++[w]), rankOf g o.w = rankOf g o.v+1) :
    rankOf g w = rankOf g v+1+ds.length := by
  induction ds generalizing v with
  | nil =>
    have hstep := h ⟨v,w,none⟩ List.mem_cons_self
    simpa using hstep
  | cons d ds ih =>
    have hstep := h ⟨v,d,none⟩ List.mem_cons_self
    have hrest := ih fun o ho => h o (List.mem_cons_of_mem _ ho)
    rw [List.length_cons]
    push_cast
    dsimp only at hstep
    omega

theorem drawn_of_none (h : labelDummy t ds = none) :
    drawn pos t ds label = {label with points := some (ds.map pos)} := by
  rw [labelDummy] at h
  rw [drawn,h]

theorem drawn_of_some (h : labelDummy t ds = some d) :
    drawn pos t ds label =
      {label with points := some (ds.map pos), x := (pos d).x, y := (pos d).y} := by
  rw [labelDummy] at h
  rw [drawn,h]

theorem size_drawn (pos : PyStr → GraphEdgePoint C) (t : LayoutGraph D C) (ds : List PyStr)
    (label : GraphEdge D C) : (drawn pos t ds label).width = label.width ∧
    (drawn pos t ds label).height = label.height := by
  cases h : labelDummy t ds with
  | none => rw [drawn_of_none h]; exact ⟨rfl,rfl⟩
  | some d => rw [drawn_of_some h]; exact ⟨rfl,rfl⟩

theorem chainNodes_at [Zero C] (e : Edge) (label : GraphEdge D C) (rank r : ℤ) (ds : List PyStr)
    (hle : rank ≤ r) (hlt : r < rank+ds.length) :
    ∃ d ∈ ds, (d,some (dummyNode e label r)) ∈ chainNodes e label ds rank := by
  induction ds generalizing rank with
  | nil =>
    rw [List.length_nil] at hlt
    omega
  | cons d ds ih =>
    by_cases hr : r = rank
    · subst hr
      exact ⟨d,List.mem_cons_self,List.mem_cons_self⟩
    · rw [List.length_cons] at hlt
      push_cast at hlt
      obtain ⟨d',hd',hmem⟩ := ih (rank+1) (by omega) (by omega)
      exact ⟨d',List.mem_cons_of_mem d hd',List.mem_cons_of_mem _ hmem⟩

section RoundTrip

variable [Inhabited D] [Zero C] [One C] {s : Layout D C} {chains : List (Edge × List PyStr)}

namespace Normalising

variable {c : Edge × List PyStr}

theorem chainNodes_mem (h : Normalising g chains [] s) (hg : g.DiMulti) (hc : c ∈ chains)
    (hlabel : g.Has c.1 (some label)) :
    ∀ kv ∈ chainNodes c.1 (cleared label) c.2 (rankOf g c.1.v+1), kv ∈ s.graph.nodes := by
  intro kv hkv
  rw [h.nodes]
  refine List.mem_append_right _ (List.mem_flatMap.mpr ⟨c,hc,?_⟩)
  rwa [nodesOf,hg.edgeWithObj_of_has hlabel]

theorem redrawn_eq (h : Normalising g chains [] s) (hg : g.DiMulti) (hc : c ∈ chains)
    (hlabel : g.Has c.1 (some label)) :
    redrawn pos g c label = lent pos label {label with points := some (c.2.map pos)}
      (labelDummy s.graph c.2) := by
  have hpoints : (cleared label).points = some [] := rfl
  rw [redrawn,collect_eq h.sorted.distinct (h.chainNodes_mem hg hc hlabel) hpoints]
  cases labelDummy s.graph c.2 <;> rfl

theorem labelDummy_iff (h : Normalising g chains [] s) (hg : g.DiMulti) (hc : c ∈ chains)
    (hlabel : g.Has c.1 (some label)) : (labelDummy s.graph c.2).isSome ↔
      rankOf g c.1.v < label.labelRank.getD 0 ∧ label.labelRank.getD 0 < rankOf g c.1.w := by
  have hnodes := h.chainNodes_mem hg hc hlabel
  have hlen := h.lengths c hc
  have hrank : (cleared label).labelRank.getD 0 = label.labelRank.getD 0 := rfl
  rw [labelDummy,List.find?_isSome]
  constructor
  · rintro ⟨d,hd,htype⟩
    obtain ⟨r,⟨hle,hlt⟩,hr⟩ := mem_chainNodes c.1 (cleared label) (rankOf g c.1.v+1) hd
    have htype := of_decide_eq_true htype
    rw [dummyOf_of_mem h.sorted.distinct (hnodes _ hr),Option.some.injEq,dummyType_eq_iff,
      hrank] at htype
    omega
  · rintro ⟨hle,hlt⟩
    obtain ⟨d,hd,hmem⟩ := chainNodes_at c.1 (cleared label) (rankOf g c.1.v+1)
      (label.labelRank.getD 0) c.2 (by omega) (by omega)
    refine ⟨d,hd,decide_eq_true ?_⟩
    rw [dummyOf_of_mem h.sorted.distinct (hnodes _ hmem),Option.some.injEq,dummyType_eq_iff,hrank]

end Normalising

theorem roundTrips_of_splits (h : Ranked s.graph)
    (hsplits : ∀ e ∈ s.graph.edges, Splits s.graph e) : RoundTrips s := by
  have hplain : ∀ e ∈ s.graph.edges, Plain s.graph e := fun e he => (hsplits e he).plain h.multi he
  obtain ⟨chains,hn⟩ := normalising_run h.sorted hplain
  refine ⟨chains,hn.normalised h.multi hplain,fun pos => ?_⟩
  obtain ⟨u,hundo,hjoin⟩ := undo_joins h hn hplain pos
  have hmem : ∀ c ∈ chains, c.1 ∈ s.graph.edges := fun c hc =>
    hjoin.mem_edges (List.mem_append_left _ hc)
  have hback : ∀ c ∈ chains, ∀ l, s.graph.Has c.1 l →
      u.Has c.1 (l.map (redrawn pos s.graph c)) := fun c hc l hl =>
    (hjoin.has _ _).mpr (.inl ⟨c,hc,rfl,l,hl,rfl⟩)
  refine ⟨u,hundo,⟨?_,?_,fun c hc => ?_⟩⟩
  · rw [hjoin.nodes]
    exact List.append_nil _
  · refine (List.perm_ext_iff_of_nodup hjoin.sorted.multi.edges_nodup h.multi.edges_nodup).mpr
      fun o => ⟨fun ho => ?_,fun ho => ?_⟩
    · obtain ⟨l,hl⟩ := hjoin.sorted.multi.has_edge ho
      rcases (hjoin.has o l).mp hl with ⟨c,hc,rfl,-⟩ | ⟨c,hc,-⟩
      · exact hmem c hc
      · cases hc
    · rw [← hjoin.all,List.append_nil] at ho
      obtain ⟨c,hc,rfl⟩ := List.mem_map.mp ho
      obtain ⟨l,hl⟩ := h.multi.has_edge (hmem c hc)
      exact hjoin.sorted.multi.mem_of_has (hback c hc l hl)
  · obtain ⟨l,hl⟩ := h.multi.has_edge (hmem c hc)
    rw [hjoin.sorted.multi.edgeWithObj_of_has (hback c hc l hl),h.multi.edgeWithObj_of_has hl]
    cases l with
    | none => rfl
    | some label =>
      have hlabel : redrawn pos s.graph c label = drawn pos (run s).graph c.2 label := by
        rw [hn.redrawn_eq h.multi hc hl]
        cases hd : labelDummy (run s).graph c.2 with
        | none => exact (drawn_of_none hd).symm
        | some d =>
          obtain ⟨hlow,hhigh⟩ := (hn.labelDummy_iff h.multi hc hl).mp (by rw [hd]; rfl)
          rcases hsplits c.1 (hmem c hc) with hshort | ⟨-,-,label',hlabel',hsize⟩
          · omega
          · rw [h.multi.edgeWithObj_of_has hl,Option.some.injEq,Option.some.injEq] at hlabel'
            subst hlabel'
            obtain ⟨hwidth,hheight⟩ := hsize hlow hhigh
            obtain ⟨width,hwidth⟩ := Option.isSome_iff_exists.mp hwidth
            obtain ⟨height,hheight⟩ := Option.isSome_iff_exists.mp hheight
            rw [drawn_of_some hd,lent,hwidth,hheight]
            rfl
      exact congrArg (some ∘ some) hlabel

theorem plain_of_roundTrips (h : Ranked s.graph) (hback : RoundTrips s) (he : e ∈ s.graph.edges) :
    Plain s.graph e := by
  obtain ⟨chains,hn,hundo⟩ := hback
  obtain ⟨u,hu,hr⟩ := hundo fun _ => ⟨0,0⟩
  have hgrows := Grows.undo hu
  have hext := extends_run h.sorted
  obtain ⟨hv,hw⟩ := h.multi.sound.endpoints _ e (h.multi.mem_edges.mp he)
  by_cases hshort : rankOf s.graph e.w = rankOf s.graph e.v+1
  · exact .inl hshort
  -- nothing joins the ends of the edge any more
  have hnone : ∀ o ∈ (run s).graph.edges, o.v = e.v → o.w = e.w → False := by
    intro o ho hov how
    have hadj := hn.adjacent o ho
    rw [hov,how,hext.rankOf_eq hv,hext.rankOf_eq hw] at hadj
    exact hshort hadj
  obtain ⟨c,hc,rfl⟩ := List.mem_map.mp (hn.all ▸ he)
  obtain ⟨l,hl⟩ := h.multi.has_edge he
  refine .inr ⟨?_,?_,?_⟩
  · have hin : ∀ o ∈ chainEdges c.1 c.2, o ∈ (run s).graph.edges := fun o ho =>
      (hn.edges o).mpr ⟨c,hc,ho⟩
    rw [chainEdges] at hin
    by_cases hds : c.2 = []
    · rw [if_pos hds] at hin
      exact (hnone c.1 (hin c.1 List.mem_cons_self) rfl rfl).elim
    · rw [if_neg hds] at hin
      have hrank := rank_of_hops fun o ho => hn.adjacent o (hin o ho)
      rw [hext.rankOf_eq hv,hext.rankOf_eq hw] at hrank
      omega
  · by_contra hname
    exact hnone c.1 (hgrows.named c.1 (hr.edges.mem_iff.mpr he) hname) rfl rfl
  · cases l with
    | some label => exact ⟨label,hl⟩
    | none =>
      have hlabel := hr.labels c hc
      have hdir : u.isDirected = true := hgrows.kind.1.trans hext.1.multi.directed
      rw [h.multi.edgeWithObj_of_has hl,edgeWithObj,hdir] at hlabel
      have hlook : lookup (run s).graph.edgeLabels (key c.1) = some none := hgrows.blank _ hlabel
      have hkey : key c.1 ∈ keys (run s).graph.edgeObjs := by
        rw [← hext.1.multi.sound.linked.ids,← isSome_lookup_iff,hlook]
        rfl
      obtain ⟨o,ho⟩ := Option.isSome_iff_exists.mp (isSome_lookup_iff.mpr hkey)
      obtain ⟨l,hol⟩ := hext.1.multi.has_of_lookup ho
      have hown := hext.1.multi.own ho
      rw [key_eq,key_eq] at hown
      obtain ⟨hov,how,-⟩ := split_key (hext.1.multi.tidy hext.1.tidy hol)
        (h.multi.tidy h.tidy hl) hown
      exact (hnone o (hext.1.multi.mem_of_has hol) hov how).elim

theorem splits_of_roundTrips (h : Ranked s.graph) (hback : RoundTrips s) (he : e ∈ s.graph.edges) :
    Splits s.graph e := by
  have hplain : ∀ e ∈ s.graph.edges, Plain s.graph e := fun e he => plain_of_roundTrips h hback he
  obtain ⟨chains₀,hn₀,hundo⟩ := hback
  obtain ⟨u,hu,hr⟩ := hundo fun _ => ⟨0,0⟩
  obtain ⟨chains,hn⟩ := normalising_run h.sorted hplain
  obtain ⟨u',hu',hjoin⟩ := undo_joins h hn hplain fun _ => ⟨0,0⟩
  cases hu.symm.trans hu'
  refine (hplain e he).imp_right ?_
  rintro ⟨hrise,hname,label,hlabel⟩
  refine ⟨hrise,hname,label,h.multi.edgeWithObj_of_has hlabel,fun hlow hhigh => ?_⟩
  obtain ⟨c₀,hc₀,heq₀⟩ := List.mem_map.mp (hn₀.all ▸ he)
  obtain ⟨c,hc,rfl⟩ := List.mem_map.mp ((List.append_nil chains ▸ hjoin.all) ▸ he)
  have hput : u.Has c.1 (some (redrawn _ s.graph c label)) :=
    (hjoin.has _ _).mpr (.inl ⟨c,hc,rfl,some label,hlabel,rfl⟩)
  have hdrawn := hr.labels c₀ hc₀
  rw [heq₀,h.multi.edgeWithObj_of_has hlabel,hjoin.sorted.multi.edgeWithObj_of_has hput,
    hn.redrawn_eq h.multi hc hlabel] at hdrawn
  obtain ⟨d,hd⟩ := Option.isSome_iff_exists.mp
    ((hn.labelDummy_iff h.multi hc hlabel).mpr ⟨hlow,hhigh⟩)
  have hsame := Option.some.inj (Option.some.inj hdrawn)
  obtain ⟨hwidth,hheight⟩ := size_drawn (fun _ => (⟨0,0⟩ : GraphEdgePoint C)) (run s).graph
    c₀.2 label
  rw [← hwidth,← hheight,← hsame,hd]
  exact ⟨rfl,rfl⟩

/-- The exact condition. -/
theorem roundTrips_iff (h : Ranked s.graph) :
    RoundTrips s ↔ ∀ e ∈ s.graph.edges, Splits s.graph e :=
  ⟨fun hback _ he => splits_of_roundTrips h hback he,roundTrips_of_splits h⟩

end RoundTrip

def nodeAt (rank : ℤ) : GraphNode Unit ℤ := {(.blank : GraphNode Unit ℤ) with rank := some rank}

/-- Two nodes at the ranks zero and two, and an edge from one to the other. -/
def spanning (name : Option PyStr) : Layout Unit ℤ where
  graph := ((((GraphLib.Graph.new ⟨none,some true,some true⟩ none none : LayoutGraph Unit ℤ).setNode
    [ch 'a'] (some (nodeAt 0))).setNode
    [ch 'b'] (some (nodeAt 2))).setEdge
    [ch 'a'] [ch 'b'] (some .blank) name).graph
  dummyChains := none
  uniqueId := 1

theorem ranked_spanning (name : Option PyStr) : Ranked (spanning name).graph := by
  have hnew :
      (GraphLib.Graph.new ⟨none,some true,some true⟩ none none : LayoutGraph Unit ℤ).DiMulti :=
    ⟨rfl,rfl,sound_new _ _ _⟩
  have hnodes : (spanning name).graph.nodes =
      [([ch 'a'],some (nodeAt 0)),([ch 'b'],some (nodeAt 2))] := by
    cases name <;> rfl
  have hedges : (spanning name).graph.edges = [⟨[ch 'a'],[ch 'b'],name⟩] := by
    cases name <;> rfl
  refine ⟨(((hnew.setNode _ _).setNode _ _).setEdge _ _ _ name).1,?_,?_,?_,?_⟩
  · rw [TidyNodes,hnodes]
    decide
  · rw [hnodes]
    decide
  · rw [hnodes]
    intro v hv
    rcases List.mem_cons.mp hv with rfl | hv
    · exact ⟨nodeAt 0,0,rfl,rfl⟩
    · rw [List.mem_singleton.mp hv]
      exact ⟨nodeAt 2,2,rfl,rfl⟩
  · rw [hedges]
    intro e he
    rw [List.mem_singleton.mp he,dummyOf,hnodes]
    rfl

theorem roundTrips_spanning : RoundTrips (spanning none) := by
  refine (roundTrips_iff (ranked_spanning none)).mpr fun e he => .inr ?_
  have hedges : (spanning none).graph.edges = [⟨[ch 'a'],[ch 'b'],none⟩] := rfl
  rw [hedges] at he
  rw [List.mem_singleton.mp he]
  exact ⟨by decide,rfl,.blank,rfl,fun hlow => absurd hlow (by decide)⟩

theorem named_not_restored : Ranked (spanning (some [ch 'x'])).graph ∧
    ¬ RoundTrips (spanning (some [ch 'x'])) := by
  refine ⟨ranked_spanning _,fun hback => ?_⟩
  have hsplits := splits_of_roundTrips (ranked_spanning _) hback
    (e := ⟨[ch 'a'],[ch 'b'],some [ch 'x']⟩) (by decide)
  rcases hsplits with hshort | ⟨-,hname,-⟩
  · exact absurd hshort (by decide)
  · cases hname

end MinimaxCode.DagreNormalize
