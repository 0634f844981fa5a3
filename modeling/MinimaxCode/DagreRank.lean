import MinimaxCode.AcyclicPaths
import MinimaxCode.DagreAcyclic
import Mathlib.Data.Rat.Floor

/-!
# Longest-path ranking

Ranks are given to the nodes in a depth-first search from the sources, each node once. A
node without a label keeps no rank and counts as rank zero when it is met again, so the
ranking is only right where every node has a label.
-/

namespace MinimaxCode.DagreRank

open PyText OrderedDict GraphLib GraphLib.Graph Relation AcyclicPaths

/-- A node label: its rank, and the rest. -/
structure GraphNode (D : Type) where
  data : D
  rank : Option ℤ
  deriving DecidableEq

/-- An edge label: the minimal length of the edge, and the rest. -/
structure GraphEdge (D : Type) where
  data : D
  minlen : Option ℚ
  deriving DecidableEq

/-- `round`: a number half way between two integers goes to the even one. -/
def pyRound (q : ℚ) : ℤ :=
  if q-⌊q⌋ < 1/2 then ⌊q⌋
  else if 1/2 < q-⌊q⌋ then ⌊q⌋+1
  else if ⌊q⌋%2 = 0 then ⌊q⌋ else ⌊q⌋+1

theorem pyRound_intCast (n : ℤ) : pyRound n = n := by
  rw [pyRound,Int.floor_intCast,sub_self]
  exact if_pos (by norm_num)

variable {N D : Type}

/-- The minimal length of an edge as `longest_path` reads it. -/
def minlenOf (g : GraphLib.Graph N (GraphEdge D)) (e : Edge) : ℤ :=
  match (g.edgeWithObj e).join with
  | none => 1
  | some label =>
    match label.minlen with
    | none => 0
    | some minlen => pyRound minlen

/-- `node_label.rank`, where there is a label. -/
def rankAt (g : GraphLib.Graph (GraphNode N) (GraphEdge D)) (v : PyStr) : Option ℤ :=
  (lookup g.nodes v).join.bind GraphNode.rank

def setRank (g : GraphLib.Graph (GraphNode N) (GraphEdge D)) (v : PyStr) (rank : ℤ) :
    GraphLib.Graph (GraphNode N) (GraphEdge D) :=
  {g with nodes := adjust g.nodes v (Option.map fun label => {label with rank := some rank})}

def sources {E : Type} (g : GraphLib.Graph N E) : List PyStr :=
  (keys g.nodes).filter fun v => (table g.ins v).isEmpty

structure Search (N D : Type) where
  graph : GraphLib.Graph (GraphNode N) (GraphEdge D)
  visited : List PyStr

/-- `_longest_path_dfs`, with the rank that it returns. The fuel bounds the depth of the
recursion. -/
def longestPathDfs : ℕ → PyStr → Search N D → ℤ × Search N D
  | 0, _, s => (0,s)
  | fuel+1, v, s =>
    if v ∈ s.visited then ((rankAt s.graph v).getD 0,s)
    else
      let r := (s.graph.outEdges v).foldl
        (fun (acc : List ℤ × Search N D) e =>
          let child := longestPathDfs fuel e.w acc.2
          (acc.1++[child.1-minlenOf child.2.graph e],child.2))
        ([],{s with visited := s.visited++[v]})
      let rank := r.1.min?.getD 0
      (rank,{r.2 with graph := setRank r.2.graph v rank})

def longestPath (g : GraphLib.Graph (GraphNode N) (GraphEdge D)) :
    GraphLib.Graph (GraphNode N) (GraphEdge D) :=
  ((sources g).foldl (fun s v => (longestPathDfs ((keys g.nodes).length+1) v s).2) ⟨g,[]⟩).graph

/-- A path of edges from a node to a node that no edge leaves. -/
inductive PathToSink {E : Type} (g : GraphLib.Graph N E) : PyStr → List Edge → Prop
  | sink {v : PyStr} (h : ∀ e ∈ g.edges, e.v ≠ v) : PathToSink g v []
  | edge {e : Edge} {path : List Edge} (he : e ∈ g.edges) (hp : PathToSink g e.w path) :
    PathToSink g e.v (e::path)

/-- The minimal length of an edge: one where there is no label, none where the label has
none. -/
def minlen (g : GraphLib.Graph N (GraphEdge D)) (e : Edge) : ℚ :=
  match (g.edgeWithObj e).join with
  | none => 1
  | some label => label.minlen.getD 0

/-- A directed graph without cycles whose tables are in step. -/
structure Dag {E : Type} (g : GraphLib.Graph N E) : Prop where
  sound : g.Sound
  directed : g.isDirected = true
  acyclic : ∀ v, ¬ TransGen (fun a b => ∃ e ∈ g.edges, e.v = a ∧ e.w = b) v v

def IntegerMinlens (g : GraphLib.Graph N (GraphEdge D)) : Prop :=
  ∀ e ∈ g.edges, ∀ label, (g.edgeWithObj e).join = some label → ∀ q, label.minlen = some q →
    ∃ n : ℤ, q = n

def Labelled {E : Type} (g : GraphLib.Graph N E) : Prop :=
  ∀ v ∈ keys g.nodes, ∃ label, lookup g.nodes v = some (some label)

/-- Every node has a rank, every edge spans its minimal length, and minus the rank of a node
is the length of a longest path from it to a sink. -/
def Optimal (g t : GraphLib.Graph (GraphNode N) (GraphEdge D)) : Prop :=
  ∃ rank : PyStr → ℤ, (∀ v ∈ keys g.nodes, rankAt t v = some (rank v)) ∧
    (∀ e ∈ g.edges, minlen g e ≤ rank e.w-rank e.v) ∧
    ∀ v ∈ keys g.nodes,
      IsGreatest {q | ∃ path, PathToSink g v path ∧ (path.map (minlen g)).sum = q} (-rank v)

variable {g t : GraphLib.Graph (GraphNode N) (GraphEdge D)} {v w : PyStr} {e : Edge}

section Relations

theorem minlen_eq (h : IntegerMinlens g) (he : e ∈ g.edges) : minlen g e = minlenOf g e := by
  rw [minlen,minlenOf]
  cases hl : (g.edgeWithObj e).join with
  | none => exact Int.cast_one.symm
  | some label =>
    dsimp only
    cases hm : label.minlen with
    | none => exact Int.cast_zero.symm
    | some q =>
      obtain ⟨n,rfl⟩ := h e he label hl q hm
      show (n : ℚ) = (pyRound n : ℤ)
      rw [pyRound_intCast]

namespace Dag

variable {E : Type} {g : GraphLib.Graph N E}

theorem arc_iff (h : Dag g) {a b : PyStr} :
    Arc g.outEdges Edge.w a b ↔ ∃ e ∈ g.edges, e.v = a ∧ e.w = b := by
  constructor
  · rintro ⟨e,he,hw⟩
    obtain ⟨hmem,hv⟩ := h.sound.linked.mem_outEdges.mp he
    exact ⟨e,hmem,hv,hw⟩
  · rintro ⟨e,he,hv,hw⟩
    exact ⟨e,h.sound.linked.mem_outEdges.mpr ⟨he,hv⟩,hw⟩

theorem noCycle (h : Dag g) (v : PyStr) : ¬ TransGen (Arc g.outEdges Edge.w) v v := by
  have hrel : Arc g.outEdges Edge.w = fun a b => ∃ e ∈ g.edges, e.v = a ∧ e.w = b := by
    funext a b
    exact propext h.arc_iff
  rw [hrel]
  exact h.acyclic v

theorem ends (h : Dag g) {a b : PyStr} (hab : Arc g.outEdges Edge.w a b) :
    a ∈ keys g.nodes ∧ b ∈ keys g.nodes := by
  obtain ⟨e,he,rfl,rfl⟩ := h.arc_iff.mp hab
  exact h.sound.endpoints _ e (h.sound.linked.mem_edges.mp he)

theorem wellFounded (h : Dag g) : WellFounded (Arc g.outEdges Edge.w) := by
  refine wellFounded_of_acyclic ((keys g.nodes).finite_toSet.subset ?_) h.noCycle
  rintro a ⟨b,hab⟩
  exact (h.ends hab).1

theorem wellFounded_flip (h : Dag g) : WellFounded (flip (Arc g.outEdges Edge.w)) := by
  refine wellFounded_of_acyclic ((keys g.nodes).finite_toSet.subset ?_) fun v hv => ?_
  · rintro a ⟨b,hab⟩
    exact (h.ends hab).2
  · exact h.noCycle v (transGen_swap.mp hv)

theorem toSink_iff (h : Dag g) {path : List Edge} :
    ToSink g.outEdges Edge.w v path ↔ PathToSink g v path := by
  constructor
  · intro hp
    induction hp with
    | nil hnil =>
      refine .sink fun e he hv => ?_
      have hmem := h.sound.linked.mem_outEdges.mpr ⟨he,hv⟩
      rw [hnil] at hmem
      cases hmem
    | cons he _ ih =>
      obtain ⟨hmem,rfl⟩ := h.sound.linked.mem_outEdges.mp he
      exact .edge hmem ih
  · intro hp
    induction hp with
    | sink hnone =>
      refine .nil (List.eq_nil_iff_forall_not_mem.mpr fun e he => ?_)
      obtain ⟨hmem,hv⟩ := h.sound.linked.mem_outEdges.mp he
      exact hnone e hmem hv
    | edge he _ ih => exact .cons (h.sound.linked.mem_outEdges.mpr ⟨he,rfl⟩) ih

theorem mem_sources (h : Dag g) (hv : v ∈ keys g.nodes)
    (hsrc : ∀ b, ¬ Arc g.outEdges Edge.w b v) : v ∈ sources g := by
  refine List.mem_filter.mpr ⟨hv,?_⟩
  cases hins : table g.ins v with
  | nil => rfl
  | cons io rest =>
    have hlook : lookup (table g.ins v) io.1 = some io.2 := by
      rw [hins,lookup_cons,if_pos rfl]
    rw [h.sound.linked.ins v io.1,Option.filter_eq_some_iff] at hlook
    refine absurd (h.arc_iff.mpr ⟨io.2,?_,rfl,of_decide_eq_true hlook.2⟩) (hsrc io.2.v)
    exact List.mem_map_of_mem (mem_of_lookup hlook.1)

end Dag

end Relations

/-- The search has only written to the labels of the nodes, all of which are there. -/
structure Over (g : GraphLib.Graph (GraphNode N) (GraphEdge D)) (s : Search N D) : Prop where
  graph : s.graph = {g with nodes := s.graph.nodes}
  labels : ∀ v ∈ keys g.nodes, ∃ label, lookup s.graph.nodes v = some (some label)

/-- The node has been seen and has its rank. -/
def Done (f : PyStr → ℤ) (s : Search N D) (v : PyStr) : Prop :=
  v ∈ s.visited ∧ rankAt s.graph v = some (f v)

/-- Every node seen that a path leads to is done, with all that can be reached from it. -/
def Finished (g : GraphLib.Graph (GraphNode N) (GraphEdge D)) (f : PyStr → ℤ) (s : Search N D)
    (leads : PyStr → Prop) : Prop :=
  ∀ u ∈ s.visited, leads u → ∀ x, ReflTransGen (Arc g.outEdges Edge.w) u x → Done f s x

/-- What part of a search does: nothing that is done is undone, and it only sees nodes that
a path leads to. -/
structure Explores (f : PyStr → ℤ) (leads : PyStr → Prop) (s t : Search N D) : Prop where
  kept : ∀ x, Done f s x → Done f t x
  visited : ∀ x ∈ s.visited, x ∈ t.visited
  new : ∀ x ∈ t.visited, x ∈ s.visited ∨ leads x

def unseen (g : GraphLib.Graph (GraphNode N) (GraphEdge D)) (s : Search N D) : ℕ :=
  DepthFirst.unseen (keys g.nodes) (⟨[],s.visited,[]⟩ : DepthFirst.Search PyStr Edge)

variable {f : PyStr → ℤ} {leads : PyStr → Prop} {s u : Search N D} {fuel : ℕ}

namespace Over

theorem outEdges (h : Over g s) (v : PyStr) : s.graph.outEdges v = g.outEdges v := by
  rw [h.graph]
  rfl

theorem minlenOf (h : Over g s) (e : Edge) : minlenOf s.graph e = DagreRank.minlenOf g e := by
  rw [h.graph]
  rfl

theorem seen (h : Over g s) (v : PyStr) : Over g {s with visited := s.visited++[v]} :=
  ⟨h.graph,h.labels⟩

theorem setRank (h : Over g s) (v : PyStr) (r : ℤ) :
    Over g {s with graph := setRank s.graph v r} := by
  constructor
  · rw [DagreRank.setRank,h.graph]
  · intro x hx
    obtain ⟨label,hl⟩ := h.labels x hx
    simp only [DagreRank.setRank,lookup_adjust]
    by_cases hvx : v = x
    · subst hvx
      exact ⟨{label with rank := some r},by rw [if_pos rfl,hl]; rfl⟩
    · exact ⟨label,by rw [if_neg hvx,hl]⟩

end Over

theorem rankAt_setRank (g : GraphLib.Graph (GraphNode N) (GraphEdge D)) {label : GraphNode N}
    (hl : lookup g.nodes v = some (some label)) (r : ℤ) :
    rankAt (setRank g v r) v = some r := by
  rw [rankAt,setRank]
  dsimp only
  rw [lookup_adjust,if_pos rfl,hl]
  rfl

theorem rankAt_setRank_of_ne (g : GraphLib.Graph (GraphNode N) (GraphEdge D)) (h : v ≠ w) (r : ℤ) :
    rankAt (setRank g v r) w = rankAt g w := by
  rw [rankAt,setRank]
  dsimp only
  rw [lookup_adjust,if_neg h,rankAt]

namespace Explores

theorem refl (f : PyStr → ℤ) (leads : PyStr → Prop) (s : Search N D) : Explores f leads s s :=
  ⟨fun _ => id,fun _ => id,fun _ => .inl⟩

theorem trans {t : Search N D} (h : Explores f leads s t) (h' : Explores f leads t u) :
    Explores f leads s u where
  kept := fun x hx => h'.kept x (h.kept x hx)
  visited := fun x hx => h'.visited x (h.visited x hx)
  new := fun x hx => (h'.new x hx).elim (h.new x) .inr

theorem mono {leads' : PyStr → Prop} {t : Search N D} (h : Explores f leads s t)
    (hle : ∀ x, leads x → leads' x) : Explores f leads' s t :=
  ⟨h.kept,h.visited,fun x hx => (h.new x hx).imp_right (hle x)⟩

theorem finished {leads' : PyStr → Prop} {t : Search N D}
    (h : Explores f (ReflTransGen (Arc g.outEdges Edge.w) v) s t)
    (hdone : ∀ x, ReflTransGen (Arc g.outEdges Edge.w) v x → Done f t x)
    (hfin : Finished g f s leads') : Finished g f t leads' := by
  intro u hu hlead x hx
  rcases h.new u hu with hu | hvu
  · exact h.kept x (hfin u hu hlead x hx)
  · exact hdone x (hvu.trans hx)

theorem unseen_le {t : Search N D} (h : Explores f leads s t) : unseen g t ≤ unseen g s :=
  DepthFirst.unseen_le h.visited

end Explores

/-- What a call of the search is to do at a node. -/
def Visits (g : GraphLib.Graph (GraphNode N) (GraphEdge D)) (f : PyStr → ℤ) (v : PyStr)
    (s : Search N D)
    (r : ℤ × Search N D) : Prop :=
  r.1 = f v ∧ Over g r.2 ∧ Explores f (ReflTransGen (Arc g.outEdges Edge.w) v) s r.2 ∧
    ∀ x, ReflTransGen (Arc g.outEdges Edge.w) v x → Done f r.2 x

theorem follow_spec (hg : Dag g)
    (ih : ∀ (w : PyStr) (s : Search N D), w ∈ keys g.nodes → Over g s →
      Finished g f s (ReflTransGen (Arc g.outEdges Edge.w) w) → unseen g s < fuel →
      Visits g f w s (longestPathDfs fuel w s))
    (es : List Edge) (hes : ∀ e ∈ es, e ∈ g.outEdges v) (ranks : List ℤ) (s : Search N D)
    (hover : Over g s) (hfin : Finished g f s (TransGen (Arc g.outEdges Edge.w) v))
    (hfuel : unseen g s < fuel) :
    ∃ t, es.foldl (fun (acc : List ℤ × Search N D) e =>
        let child := longestPathDfs fuel e.w acc.2
        (acc.1++[child.1-minlenOf child.2.graph e],child.2)) (ranks,s) =
          (ranks++es.map (fun e => f e.w-minlenOf g e),t) ∧
      Over g t ∧ Explores f (TransGen (Arc g.outEdges Edge.w) v) s t ∧
      ∀ e ∈ es, ∀ x, ReflTransGen (Arc g.outEdges Edge.w) e.w x → Done f t x := by
  induction es generalizing ranks s with
  | nil => exact ⟨s,by simp,hover,.refl f _ s,by simp⟩
  | cons e es ihes =>
    have harc : Arc g.outEdges Edge.w v e.w := ⟨e,hes e List.mem_cons_self,rfl⟩
    have hlead : ∀ x, ReflTransGen (Arc g.outEdges Edge.w) e.w x →
        TransGen (Arc g.outEdges Edge.w) v x := fun x => TransGen.head' harc
    obtain ⟨hval,hover₁,hex₁,hdone₁⟩ := ih e.w s (hg.ends harc).2 hover
      (fun u hu hwu => hfin u hu (hlead u hwu)) hfuel
    rw [List.foldl_cons]
    dsimp only
    generalize longestPathDfs fuel e.w s = r at hval hover₁ hex₁ hdone₁
    obtain ⟨t,ht,hover',hex,hdone⟩ := ihes (fun e' he' => hes e' (List.mem_cons_of_mem e he'))
      (ranks++[r.1-minlenOf r.2.graph e]) r.2 hover₁ (hex₁.finished hdone₁ hfin)
      (Nat.lt_of_le_of_lt hex₁.unseen_le hfuel)
    refine ⟨t,?_,hover',(hex₁.mono hlead).trans hex,fun e' he' => ?_⟩
    · rw [ht,hval,hover₁.minlenOf,List.append_assoc]
      rfl
    · rcases List.mem_cons.mp he' with rfl | he'
      · exact fun x hx => hex.kept x (hdone₁ x hx)
      · exact hdone e' he'

theorem longestPathDfs_spec (hg : Dag g) (hf : Ranks g.outEdges Edge.w (minlenOf g) f) (fuel : ℕ)
    (v : PyStr) (s : Search N D) (hv : v ∈ keys g.nodes) (hover : Over g s)
    (hfin : Finished g f s (ReflTransGen (Arc g.outEdges Edge.w) v)) (hfuel : unseen g s < fuel) :
    Visits g f v s (longestPathDfs fuel v s) := by
  induction fuel generalizing v s with
  | zero => exact absurd hfuel (Nat.not_lt_zero _)
  | succ fuel ih =>
    rw [longestPathDfs]
    by_cases hmem : v ∈ s.visited
    · have hdone := hfin v hmem .refl
      rw [if_pos hmem,(hdone v .refl).2]
      exact ⟨rfl,hover,.refl f _ s,hdone⟩
    · rw [if_neg hmem,hover.outEdges]
      -- the node itself is seen but not done, and no path leads back to it
      have hstart : Finished g f {s with visited := s.visited++[v]}
          (TransGen (Arc g.outEdges Edge.w) v) := by
        intro u hu hvu x hx
        rcases List.mem_append.mp hu with hu | hu
        · obtain ⟨hseen,hrank⟩ := hfin u hu hvu.to_reflTransGen x hx
          exact ⟨List.mem_append_left _ hseen,hrank⟩
        · rw [List.mem_singleton.mp hu] at hvu
          exact absurd hvu (hg.noCycle v)
      obtain ⟨t,ht,hover',hex,hdone⟩ := follow_spec hg ih (g.outEdges v) (fun _ => id) [] _
        (hover.seen v) hstart (Nat.lt_of_lt_of_le
          (DepthFirst.unseen_lt hv hmem (by simp) fun x => List.mem_append_left _)
          (Nat.le_of_lt_succ hfuel))
      dsimp only
      rw [ht]
      have hrank : (([] : List ℤ)++(g.outEdges v).map fun e => f e.w-minlenOf g e).min?.getD 0 =
          f v := (hf v).symm
      rw [hrank]
      obtain ⟨label,hl⟩ := hover'.labels v hv
      have hseen : v ∈ t.visited := hex.visited v (by simp)
      -- a done node keeps its rank, or is the node itself
      have hkeep : ∀ x, Done f t x → Done f {t with graph := setRank t.graph v (f v)} x := by
        rintro x ⟨hx,hrank⟩
        refine ⟨hx,?_⟩
        by_cases hvx : v = x
        · rw [← hvx]
          exact rankAt_setRank t.graph hl (f v)
        · exact (rankAt_setRank_of_ne t.graph hvx (f v)).trans hrank
      refine ⟨rfl,hover'.setRank v (f v),⟨fun x hx => ?_,fun x hx => ?_,fun x hx => ?_⟩,fun x hx => ?_⟩
      · exact hkeep x (hex.kept x ⟨List.mem_append_left _ hx.1,hx.2⟩)
      · exact hex.visited x (List.mem_append_left _ hx)
      · rcases hex.new x hx with hx | hx
        · rcases List.mem_append.mp hx with hx | hx
          · exact .inl hx
          · rw [List.mem_singleton.mp hx]
            exact .inr .refl
        · exact .inr hx.to_reflTransGen
      · rcases ReflTransGen.cases_head hx with rfl | ⟨w,⟨e,he,rfl⟩,hwx⟩
        · exact ⟨hseen,rankAt_setRank t.graph hl (f v)⟩
        · exact hkeep x (hdone e he x hwx)

theorem foldl_spec (hg : Dag g) (hf : Ranks g.outEdges Edge.w (minlenOf g) f) (todo : List PyStr)
    (htodo : ∀ v ∈ todo, v ∈ keys g.nodes) (s : Search N D) (hover : Over g s)
    (hfin : Finished g f s fun _ => True) :
    let t := todo.foldl (fun s v => (longestPathDfs ((keys g.nodes).length+1) v s).2) s
    (∀ x, Done f s x → Done f t x) ∧
      ∀ v ∈ todo, ∀ x, ReflTransGen (Arc g.outEdges Edge.w) v x → Done f t x := by
  induction todo generalizing s with
  | nil => exact ⟨fun _ => id,by simp⟩
  | cons v todo ih =>
    obtain ⟨-,hover',hex,hdone⟩ := longestPathDfs_spec hg hf ((keys g.nodes).length+1) v s
      (htodo v List.mem_cons_self) hover (fun u hu _ => hfin u hu trivial)
      (Nat.lt_succ_of_le (List.length_filter_le _ _))
    obtain ⟨hkept,hall⟩ := ih (fun w hw => htodo w (List.mem_cons_of_mem v hw)) _ hover'
      (hex.finished hdone hfin)
    rw [List.foldl_cons]
    refine ⟨fun x hx => hkept x (hex.kept x hx),fun w hw => ?_⟩
    rcases List.mem_cons.mp hw with rfl | hw
    · exact fun x hx => hkept x (hdone x hx)
    · exact hall w hw

theorem rankAt_longestPath (hg : Dag g) (hlabels : Labelled g)
    (hf : Ranks g.outEdges Edge.w (minlenOf g) f) (hv : v ∈ keys g.nodes) :
    rankAt (longestPath g) v = some (f v) := by
  obtain ⟨a,hsrc,hpath⟩ := exists_source hg.wellFounded v
  have ha : a ∈ keys g.nodes := by
    rcases ReflTransGen.cases_head hpath with rfl | ⟨w,harc,-⟩
    · exact hv
    · exact (hg.ends harc).1
  obtain ⟨-,hall⟩ := foldl_spec hg hf (sources g) (fun v hv => (List.mem_filter.mp hv).1) ⟨g,[]⟩
    ⟨rfl,hlabels⟩ fun u hu => by cases hu
  exact (hall a (hg.mem_sources ha hsrc) v hpath).2

theorem optimal_of_ranks (hg : Dag g) (hint : IntegerMinlens g)
    (hf : Ranks g.outEdges Edge.w (minlenOf g) f)
    (hrank : ∀ v ∈ keys g.nodes, rankAt t v = some (f v)) : Optimal g t := by
  have hsum : ∀ v path, PathToSink g v path →
      (path.map (minlen g)).sum = ((path.map (minlenOf g)).sum : ℤ) := by
    intro v path hp
    induction hp with
    | sink => exact Int.cast_zero.symm
    | edge he _ ih =>
      rw [List.map_cons,List.map_cons,List.sum_cons,List.sum_cons,ih,minlen_eq hint he,Int.cast_add]
  refine ⟨f,hrank,fun e he => ?_,fun v _ => ?_⟩
  · rw [minlen_eq hint he,← Int.cast_sub]
    exact Int.cast_le.mpr (hf.feasible (hg.sound.linked.mem_outEdges.mpr ⟨he,rfl⟩))
  · obtain ⟨⟨path,hp,hlen⟩,hle⟩ := hf.isGreatest hg.wellFounded_flip v
    rw [hg.toSink_iff] at hp
    constructor
    · exact ⟨path,hp,by rw [hsum v path hp,hlen,Int.cast_neg]⟩
    · rintro _ ⟨path,hp,rfl⟩
      rw [hsum v path hp,← Int.cast_neg]
      exact Int.cast_le.mpr (hle ⟨path,hg.toSink_iff.mpr hp,rfl⟩)

theorem longestPathDfs_unlabelled (fuel : ℕ) (v : PyStr) (s : Search N D)
    (h : (lookup s.graph.nodes w).join = none) :
    (lookup (longestPathDfs fuel v s).2.graph.nodes w).join = none := by
  induction fuel generalizing v s with
  | zero => exact h
  | succ fuel ih =>
    rw [longestPathDfs]
    split
    · exact h
    · have hloop : ∀ (es : List Edge) (acc : List ℤ × Search N D),
          (lookup acc.2.graph.nodes w).join = none →
          (lookup (es.foldl (fun (acc : List ℤ × Search N D) e =>
            let child := longestPathDfs fuel e.w acc.2
            (acc.1++[child.1-minlenOf child.2.graph e],child.2)) acc).2.graph.nodes w).join =
              none := by
        intro es
        induction es with
        | nil => exact fun _ hacc => hacc
        | cons e es ihes => exact fun acc hacc => ihes _ (ih e.w acc.2 hacc)
      have hend := hloop (s.graph.outEdges v) ([],{s with visited := s.visited++[v]}) h
      dsimp only [setRank]
      rw [lookup_adjust]
      split
      · next hvw =>
        subst hvw
        revert hend
        cases lookup (List.foldl _ _ _ : List ℤ × Search N D).2.graph.nodes v with
        | none => exact fun _ => rfl
        | some label =>
          intro hlabel
          rw [show label = none from hlabel]
          rfl
      · exact hend

/-- Two ways into a node with an edge on; the node itself has the given label. -/
def junction (label : Option (GraphNode Unit)) : GraphLib.Graph (GraphNode Unit) (GraphEdge Unit) :=
  let g : GraphLib.Graph (GraphNode Unit) (GraphEdge Unit) := new ⟨none,some true,none⟩ none none
  let g := g.setNodes [[ch 'a'],[ch 'b'],[ch 'd']] (some ⟨(),none⟩)
  let g := g.setNode [ch 'c'] label
  [([ch 'a'],[ch 'c']),([ch 'b'],[ch 'c']),([ch 'c'],[ch 'd'])].foldl
    (fun g link => (g.setEdge link.1 link.2 (some ⟨(),some 1⟩) none).graph) g

theorem dag_junction {label : Option (GraphNode Unit)}
    (hedges : (junction label).edges = [⟨[ch 'a'],[ch 'c'],none⟩,⟨[ch 'b'],[ch 'c'],none⟩,
      ⟨[ch 'c'],[ch 'd'],none⟩]) : Dag (junction label) := by
  have hstart : (((new ⟨none,some true,none⟩ none none :
      GraphLib.Graph (GraphNode Unit) (GraphEdge Unit)).setNodes [[ch 'a'],[ch 'b'],[ch 'd']]
        (some ⟨(),none⟩)).setNode [ch 'c'] label).DiMulti :=
    ⟨rfl,rfl,((sound_new _ none none).setNodes _ _).setNode _ _⟩
  have hm : (junction label).DiMulti :=
    (((hstart.setEdge _ _ _ none).1.setEdge _ _ _ none).1.setEdge _ _ _ none).1
  refine ⟨hm.sound,hm.directed,DepthFirst.no_cycle
    (fun v => if v = [ch 'c'] then 1 else if v = [ch 'd'] then 0 else 2) fun a b hab => ?_⟩
  obtain ⟨e,he,rfl,rfl⟩ := hab
  rw [hedges] at he
  revert e
  decide

theorem integerMinlens_of_one {g : GraphLib.Graph (GraphNode Unit) (GraphEdge Unit)}
    (h : ∀ e ∈ g.edges, (g.edgeWithObj e).join = some ⟨(),some 1⟩) : IntegerMinlens g := by
  intro e he l hl q hq
  rw [h e he] at hl
  cases hl
  exact ⟨1,(Option.some.inj hq).symm⟩

end MinimaxCode.DagreRank
