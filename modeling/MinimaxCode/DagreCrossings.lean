import MinimaxCode.DagreAcyclic
import MinimaxCode.SumTrees
import Mathlib.Algebra.Order.Ring.Rat

/-!
# The crossing count of two layers

The edges between two layers are listed by their north ends and then by their south ends.
Their weights go one after another into a binary tree over the south layer, which gives for
each edge the weights of the edges that came before and end further to the right.
-/

namespace MinimaxCode.DagreCrossings

open PyText OrderedDict GraphLib GraphLib.Graph SumTrees

/-- An edge label: the weight of the edge, and the rest. -/
structure GraphEdge (D R : Type) where
  data : D
  weight : Option R

variable {N D R : Type} [CommSemiring R]

/-- The weight of an edge; none counts as zero. -/
def weightOf (g : GraphLib.Graph N (GraphEdge D R)) (e : Edge) : R :=
  ((g.edgeWithObj e).join.bind GraphEdge.weight).getD 0

def southPos (south : List PyStr) : List (PyStr × ℕ) := ofItems south.zipIdx

/-- The edges of a north node that end in the south layer. -/
def outPair (g : GraphLib.Graph N (GraphEdge D R)) (south : List PyStr) (v : PyStr) :
    List (ℕ × R) :=
  ((g.outEdges v).filterMap fun e => (lookup (southPos south) e.w).map (·,weightOf g e)).mergeSort
    fun a b => decide (a.1 ≤ b.1)

def southEntries (g : GraphLib.Graph N (GraphEdge D R)) (north south : List PyStr) : List (ℕ × R) :=
  north.flatMap (outPair g south)

/-- The loop that doubles `first_index` up to the size of the layer. -/
def grow (n : ℕ) : ℕ → ℕ → ℕ
  | 0, firstIndex => firstIndex
  | fuel+1, firstIndex => if firstIndex < n then grow n fuel (2*firstIndex) else firstIndex

/-- `tree[index] += weight`; an index out of range raises. -/
def addAt (tree : List R) (index : ℕ) (weight : R) : Option (List R) :=
  tree[index]?.map fun x => tree.set index (x+weight)

/-- At a left child the weights below its right sibling are added. -/
def addSibling (tree : List R) (index : ℕ) (weightSum : R) : Option R :=
  if index%2 ≠ 0 then tree[index+1]?.map (weightSum+·) else some weightSum

/-- The loop from a leaf up to the root. -/
def climb (weight : R) : ℕ → ℕ → List R → R → Option (List R × R)
  | 0, _, tree, weightSum => some (tree,weightSum)
  | fuel+1, index, tree, weightSum =>
    if 0 < index then do
      let weightSum ← addSibling tree index weightSum
      let tree ← addAt tree ((index-1)/2) weight
      climb weight fuel ((index-1)/2) tree weightSum
    else some (tree,weightSum)

/-- One round of the loop over the edges. -/
def countEntry (firstIndex : ℕ) (s : List R × R) (entry : ℕ × R) : Option (List R × R) := do
  let index := entry.1+firstIndex
  let tree ← addAt s.1 index entry.2
  let (tree,weightSum) ← climb entry.2 index index tree 0
  some (tree,s.2+entry.2*weightSum)

/-- `two_layer_cross_count`; `none` stands for an `IndexError`. -/
def twoLayerCrossCount (g : GraphLib.Graph N (GraphEdge D R)) (north south : List PyStr) :
    Option R :=
  let firstIndex := grow south.length south.length 1
  ((southEntries g north south).foldlM (countEntry (firstIndex-1))
    (List.replicate (2*firstIndex-1) 0,0)).map Prod.snd

def crossCount (g : GraphLib.Graph N (GraphEdge D R)) (layering : List (List PyStr)) : Option R :=
  (layering.zip layering.tail).foldlM
    (fun cc layers => (twoLayerCrossCount g layers.1 layers.2).map (cc+·)) 0

/-- Two edges between the layers whose ends are in opposite orders. -/
def Crosses (north south : List PyStr) (e f : Edge) : Prop :=
  (e.v ∈ north ∧ e.w ∈ south) ∧ (f.v ∈ north ∧ f.w ∈ south) ∧
    north.idxOf e.v < north.idxOf f.v ∧ south.idxOf f.w < south.idxOf e.w

instance (north south : List PyStr) (e f : Edge) : Decidable (Crosses north south e f) :=
  inferInstanceAs (Decidable (_ ∧ _))

/-- The weights of the pairs of edges that cross. -/
def crossings (g : GraphLib.Graph N (GraphEdge D R)) (north south : List PyStr) : R :=
  crossSum (fun e f => if Crosses north south e f then weightOf g e*weightOf g f else 0)
    g.edges g.edges

section Tree

theorem grow_spec {n fuel c : ℕ} (h : n ≤ 2^(c+fuel)) :
    ∃ d, grow n fuel (2^c) = 2^d ∧ n ≤ 2^d := by
  induction fuel generalizing c with
  | zero => exact ⟨c,rfl,h⟩
  | succ fuel ih =>
    rw [grow]
    split
    · rw [← Nat.pow_succ']
      exact ih (by rwa [Nat.succ_add])
    · next hn => exact ⟨c,rfl,Nat.le_of_not_lt hn⟩

/-- The items under the numbers of their leaves. -/
def leaves (d : ℕ) (entries : List (ℕ × R)) : List (ℕ × R) :=
  entries.map fun entry => (2^d+entry.1,entry.2)

/-- The tree holds the sums below its nodes, and a weight more at the ancestors of a leaf up
to a height. -/
def Climbed (d : ℕ) (items : List (ℕ × R)) (L : ℕ) (weight : R) (h : ℕ) (tree : List R) : Prop :=
  tree.length = 2^(d+1)-1 ∧ ∀ i < 2^(d+1)-1, tree[i]? = some (under d items (i+1)+
    if height d (i+1) < h ∧ L/2^height d (i+1) = i+1 then weight else 0)

def Holds (d : ℕ) (items : List (ℕ × R)) (tree : List R) : Prop :=
  tree.length = 2^(d+1)-1 ∧ ∀ i < 2^(d+1)-1, tree[i]? = some (under d items (i+1))

variable {d L h : ℕ} {items entries : List (ℕ × R)} {weight : R} {tree : List R}

theorem Holds.climbed (ht : Holds d items tree) : Climbed d items L weight 0 tree := by
  refine ⟨ht.1,fun i hi => ?_⟩
  rw [ht.2 i hi,if_neg fun h => Nat.not_lt_zero _ h.1,add_zero]

theorem Climbed.holds (ht : Climbed d items L weight (d+1) tree) :
    Holds d (items++[(L,weight)]) tree := by
  refine ⟨ht.1,fun i hi => ?_⟩
  rw [ht.2 i hi,under,under,List.map_append,List.sum_append,List.map_singleton,
    List.sum_singleton]
  have hheight : height d (i+1) < d+1 := Nat.lt_succ_of_le (Nat.sub_le d _)
  simp only [hheight,true_and]

theorem Climbed.addAt (hL : IsLeaf d L) (hh : h ≤ d) (ht : Climbed d items L weight h tree) :
    ∃ tree', addAt tree (L/2^h-1) weight = some tree' ∧
      Climbed d items L weight (h+1) tree' := by
  have hpos := ancestor_pos hL hh
  have hlt : L/2^h < 2^(d+1) := ancestor_lt hL
  have hi : L/2^h-1 < 2^(d+1)-1 := by omega
  have hsucc : L/2^h-1+1 = L/2^h := by omega
  have hread := ht.2 _ hi
  rw [hsucc,height_ancestor hL hh,if_neg fun h => Nat.lt_irrefl _ h.1,add_zero] at hread
  refine ⟨_,by rw [DagreCrossings.addAt,hread]; rfl,?_,fun i hi' => ?_⟩
  · rw [List.length_set]
    exact ht.1
  · by_cases hii : L/2^h-1 = i
    · subst hii
      rw [List.getElem?_set_self (by rw [ht.1]; exact hi),hsucc,height_ancestor hL hh,
        if_pos ⟨Nat.lt_succ_self h,rfl⟩]
    · rw [List.getElem?_set_ne hii,ht.2 i hi']
      have hiff : (height d (i+1) < h ∧ L/2^height d (i+1) = i+1) ↔
          height d (i+1) < h+1 ∧ L/2^height d (i+1) = i+1 := by
        refine and_congr_left fun hanc => ⟨Nat.lt_succ_of_lt,fun hle => ?_⟩
        refine Nat.lt_of_le_of_ne (Nat.le_of_lt_succ hle) fun he => hii ?_
        rw [he] at hanc
        omega
      simp only [hiff]

theorem Climbed.sibling (hL : IsLeaf d L) (hh : h < d)
    (ht : Climbed d items L weight (h+1) tree) (heven : (L/2^h)%2 = 0) :
    tree[L/2^h]? = some (under d items (L/2^h+1)) := by
  have hlt : L/2^h < 2^(d+1) := ancestor_lt hL
  have hi : L/2^h < 2^(d+1)-1 := by
    rw [Nat.pow_succ] at hlt ⊢
    omega
  rw [ht.2 _ hi,height_sibling hL hh heven,if_neg,add_zero]
  omega

theorem climb_spec (hL : IsLeaf d L) {fuel : ℕ} (hfuel : d-h ≤ fuel) (hh : h ≤ d)
    (ht : Climbed d items L weight (h+1) tree) :
    ∃ tree', climb weight fuel (L/2^h-1) tree (laterWithin items L h) =
      some (tree',laterWithin items L d) ∧ Holds d (items++[(L,weight)]) tree' := by
  induction fuel generalizing h tree with
  | zero =>
    obtain rfl : h = d := by omega
    exact ⟨tree,rfl,ht.holds⟩
  | succ fuel ih =>
    rw [climb]
    by_cases htop : h = d
    · subst htop
      rw [ancestor_top hL,if_neg (Nat.lt_irrefl 0)]
      exact ⟨tree,rfl,ht.holds⟩
    · have hlt : h < d := Nat.lt_of_le_of_ne hh htop
      have htwo : 0 < L/2^h/2 := by
        rw [← ancestor_succ]
        exact ancestor_pos hL hlt
      have hup : (L/2^h-1-1)/2 = L/2^(h+1)-1 := by
        rw [ancestor_succ]
        omega
      have hread : addSibling tree (L/2^h-1) (laterWithin items L h) =
          some (laterWithin items L (h+1)) := by
        rw [addSibling,laterWithin_succ items hL hlt]
        by_cases heven : (L/2^h)%2 = 0
        · rw [if_pos (by omega),if_pos heven,show L/2^h-1+1 = L/2^h by omega,
            ht.sibling hL hlt heven]
          rfl
        · rw [if_neg (by omega),if_neg heven,add_zero]
      obtain ⟨tree',hadd,ht'⟩ := ht.addAt hL hlt
      obtain ⟨tree'',hclimb,hholds⟩ := ih (by omega) hlt ht'
      refine ⟨tree'',?_,hholds⟩
      rw [if_pos (by omega),hread,hup]
      simp only [Option.bind_eq_bind,Option.bind_some,hadd,hclimb]

/-- The weights of two entries of which the later one ends further to the left. -/
def inverted (a b : ℕ × R) : R := if b.1 < a.1 then a.2*b.2 else 0

theorem isLeaf_add {pos : ℕ} (h : pos < 2^d) : IsLeaf d (2^d+pos) :=
  ⟨Nat.le_add_right _ _,by rw [Nat.pow_succ]; omega⟩

theorem countEntry_spec (hentries : ∀ a ∈ entries, a.1 < 2^d) {entry : ℕ × R}
    (hentry : entry.1 < 2^d) (ht : Holds d (leaves d entries) tree) (cc : R) :
    ∃ tree', countEntry (2^d-1) (tree,cc) entry =
        some (tree',cc+(entries.map (inverted · entry)).sum) ∧
      Holds d (leaves d (entries++[entry])) tree' := by
  have hL : IsLeaf d (2^d+entry.1) := isLeaf_add hentry
  have hpow : 0 < 2^d := Nat.two_pow_pos d
  have hindex : entry.1+(2^d-1) = (2^d+entry.1)/2^0-1 := by omega
  have hstart : Climbed d (leaves d entries) (2^d+entry.1) entry.2 0 tree := ht.climbed
  obtain ⟨tree',hadd,ht'⟩ := hstart.addAt hL (Nat.zero_le d)
  have hfuel : d-0 ≤ entry.1+(2^d-1) := by
    have hlt : d < 2^d := Nat.lt_two_pow_self
    omega
  obtain ⟨tree'',hclimb,hholds⟩ := climb_spec hL hfuel (Nat.zero_le d) ht'
  rw [laterWithin_zero] at hclimb
  have hsum : entry.2*laterWithin (leaves d entries) (2^d+entry.1) d =
      (entries.map (inverted · entry)).sum := by
    rw [laterWithin_top _ hL,leaves,List.map_map,← List.sum_map_mul_left]
    · refine congrArg List.sum (List.map_congr_left fun a _ => ?_)
      by_cases hlt : entry.1 < a.1
      · simp [inverted,hlt,mul_comm]
      · simp [inverted,hlt]
    · intro item hitem
      obtain ⟨a,ha,rfl⟩ := List.mem_map.mp hitem
      exact isLeaf_add (hentries a ha)
  refine ⟨tree'',?_,?_⟩
  · rw [countEntry]
    dsimp only
    rw [hindex] at hclimb ⊢
    simp only [hadd,hclimb,Option.bind_eq_bind,Option.bind_some,hsum]
  · rw [leaves,List.map_append]
    exact hholds

theorem foldlM_countEntry {todo : List (ℕ × R)} (hentries : ∀ a ∈ entries, a.1 < 2^d)
    (htodo : ∀ a ∈ todo, a.1 < 2^d) (ht : Holds d (leaves d entries) tree) (cc : R) :
    (todo.foldlM (countEntry (2^d-1)) (tree,cc)).map Prod.snd =
      some (cc+crossSum inverted entries todo+pairSum inverted todo) := by
  induction todo generalizing entries tree cc with
  | nil => simp [crossSum_nil_right,pairSum]
  | cons a todo ih =>
    obtain ⟨tree',hcount,ht'⟩ := countEntry_spec hentries (htodo a List.mem_cons_self) ht cc
    have hnext : ∀ b ∈ entries++[a], b.1 < 2^d := by
      intro b hb
      rcases List.mem_append.mp hb with hb | hb
      · exact hentries b hb
      · rw [List.mem_singleton.mp hb]
        exact htodo a List.mem_cons_self
    rw [List.foldlM_cons,hcount,Option.bind_eq_bind,Option.bind_some,
      ih hnext (fun b hb => htodo b (List.mem_cons_of_mem a hb)) ht',crossSum_append_left]
    have hcons : crossSum inverted entries (a::todo) =
        (entries.map (inverted · a)).sum+crossSum inverted entries todo := by
      rw [← List.singleton_append,crossSum_append_right]
      simp [crossSum]
    have hone : crossSum inverted [a] todo = (todo.map (inverted a)).sum := by simp [crossSum]
    rw [hcons,hone,pairSum]
    congr 1
    abel

end Tree

section Layers

variable {g : GraphLib.Graph N (GraphEdge D R)} {north south : List PyStr}

theorem lookup_southPos (hs : south.Nodup) (v : PyStr) :
    lookup (southPos south) v = if v ∈ south then some (south.idxOf v) else none := by
  have hkeys : ∀ n, keys (south.zipIdx n) = south := fun n => List.zipIdx_map_fst n south
  rw [southPos,ofItems_of_nodup (by rwa [hkeys])]
  split
  · next hv =>
    refine lookup_of_mem (by rwa [hkeys]) ?_
    rw [List.mem_zipIdx_iff_getElem?]
    exact List.getElem?_idxOf hv
  · next hv => exact lookup_eq_none (by rwa [hkeys])

/-- The entry of an edge. -/
def entryOf (g : GraphLib.Graph N (GraphEdge D R)) (south : List PyStr) (e : Edge) :
    Option (ℕ × R) :=
  (lookup (southPos south) e.w).map (·,weightOf g e)

theorem outPair_perm (g : GraphLib.Graph N (GraphEdge D R)) (south : List PyStr) (v : PyStr) :
    (outPair g south v).Perm ((g.outEdges v).filterMap (entryOf g south)) :=
  List.mergeSort_perm _ _

theorem pairSum_outPair (g : GraphLib.Graph N (GraphEdge D R)) (south : List PyStr) (v : PyStr) :
    pairSum inverted (outPair g south v) = 0 := by
  refine pairSum_eq_zero ((List.pairwise_mergeSort (fun a b c hab hbc => ?_) (fun a b => ?_)
    _).imp fun {a b} hab => ?_)
  · simp only [decide_eq_true_eq] at hab hbc ⊢
    exact Nat.le_trans hab hbc
  · simp only [Bool.or_eq_true,decide_eq_true_eq]
    exact Nat.le_total a.1 b.1
  · exact if_neg (Nat.not_lt_of_le (of_decide_eq_true hab))

theorem lt_of_mem_southEntries (hs : south.Nodup) {a : ℕ × R}
    (ha : a ∈ southEntries g north south) : a.1 < south.length := by
  obtain ⟨v,-,ha⟩ := List.mem_flatMap.mp ha
  obtain ⟨e,-,he⟩ := List.mem_filterMap.mp ((outPair_perm g south v).mem_iff.mp ha)
  rw [entryOf,lookup_southPos hs] at he
  split at he
  · next hw =>
    cases he
    exact List.idxOf_lt_length_of_mem hw
  · cases he

omit [CommSemiring R] in
theorem perm_layer (hg : g.Sound) (hn : north.Nodup) :
    (north.flatMap g.outEdges).Perm (g.edges.filter fun e => decide (e.v ∈ north)) := by
  have hlinked := hg.linked
  rw [List.perm_ext_iff_of_nodup _ (hlinked.edges_nodup.filter _)]
  · intro e
    rw [List.mem_flatMap,List.mem_filter,decide_eq_true_iff]
    constructor
    · rintro ⟨v,hv,hout⟩
      obtain ⟨he,rfl⟩ := hlinked.mem_outEdges.mp hout
      exact ⟨he,hv⟩
    · rintro ⟨he,hv⟩
      exact ⟨e.v,hv,hlinked.mem_outEdges.mpr ⟨he,rfl⟩⟩
  · refine List.nodup_flatMap.mpr ⟨fun v _ => hlinked.outEdges_nodup v,hn.imp fun hne => ?_⟩
    intro e he he'
    obtain ⟨-,rfl⟩ := hlinked.mem_outEdges.mp he
    exact hne (hlinked.mem_outEdges.mp he').2

/-- What two edges count, apart from the order of their north ends. -/
def southInverted (g : GraphLib.Graph N (GraphEdge D R)) (south : List PyStr) (e f : Edge) : R :=
  ((entryOf g south e).bind fun a => (entryOf g south f).map (inverted a)).getD 0

theorem southInverted_eq (hs : south.Nodup) (e f : Edge) : southInverted g south e f =
    if (e.w ∈ south ∧ f.w ∈ south) ∧ south.idxOf f.w < south.idxOf e.w then
      weightOf g e*weightOf g f else 0 := by
  rw [southInverted,entryOf,entryOf,lookup_southPos hs,lookup_southPos hs]
  by_cases he : e.w ∈ south
  · by_cases hf : f.w ∈ south
    · simp [he,hf,inverted]
    · simp [he,hf]
  · simp [he]

theorem pairSum_southEntries (hg : g.Sound) (hn : north.Nodup) (hs : south.Nodup) :
    pairSum inverted (southEntries g north south) = crossings g north south := by
  have hruns : (fun v u => crossSum inverted (outPair g south v) (outPair g south u)) =
      fun v u => crossSum (southInverted g south) (g.outEdges v) (g.outEdges u) := by
    funext v u
    rw [crossSum_perm (outPair_perm g south v) (outPair_perm g south u),crossSum_filterMap]
    rfl
  have hpush : ∀ v ∈ north, ∀ u ∈ north, (if north.idxOf v < north.idxOf u then
      crossSum (southInverted g south) (g.outEdges v) (g.outEdges u) else 0) =
        crossSum (fun e f => if north.idxOf e.v < north.idxOf f.v then southInverted g south e f
          else 0) (g.outEdges v) (g.outEdges u) := by
    intro v _ u _
    have hends : ∀ e ∈ g.outEdges v, ∀ f ∈ g.outEdges u, e.v = v ∧ f.v = u := fun e he f hf =>
      ⟨(hg.linked.mem_outEdges.mp he).2,(hg.linked.mem_outEdges.mp hf).2⟩
    split
    · next hlt =>
      refine crossSum_congr fun e he f hf => ?_
      obtain ⟨hv,hu⟩ := hends e he f hf
      rw [hv,hu,if_pos hlt]
    · next hlt =>
      rw [crossSum_eq_zero]
      intro e he f hf
      obtain ⟨hv,hu⟩ := hends e he f hf
      rw [hv,hu,if_neg hlt]
  rw [southEntries,pairSum_flatMap (pairSum_outPair g south),hruns,pairSum_eq_crossSum hn]
  refine (crossSum_congr hpush).trans ?_
  rw [← crossSum_flatMap,crossSum_perm (perm_layer hg hn) (perm_layer hg hn),crossSum_filter,
    crossings]
  refine crossSum_congr fun e _ f _ => ?_
  rw [southInverted_eq hs]
  by_cases hcross : Crosses north south e f
  · obtain ⟨⟨hev,hew⟩,⟨hfv,hfw⟩,hlt,hlt'⟩ := id hcross
    rw [if_pos hcross,if_pos (by simp [hev,hfv]),if_pos hlt,if_pos ⟨⟨hew,hfw⟩,hlt'⟩]
  · rw [if_neg hcross]
    split
    · next hmem =>
      rw [decide_eq_true_iff,decide_eq_true_iff] at hmem
      split
      · next hlt =>
        refine if_neg fun h => hcross ⟨⟨hmem.1,h.1.1⟩,⟨hmem.2,h.1.2⟩,hlt,h.2⟩
      · rfl
    · rfl

theorem twoLayerCrossCount_spec (hg : g.Sound) (hn : north.Nodup) (hs : south.Nodup) :
    twoLayerCrossCount g north south = some (crossings g north south) := by
  have hfuel : south.length ≤ 2^(0+south.length) := by
    rw [Nat.zero_add]
    exact Nat.le_of_lt Nat.lt_two_pow_self
  obtain ⟨d,hd,hsize⟩ := grow_spec hfuel
  rw [Nat.pow_zero] at hd
  have hempty : Holds d (leaves d ([] : List (ℕ × R))) (List.replicate (2*2^d-1) 0) := by
    rw [← Nat.pow_succ']
    refine ⟨List.length_replicate,fun i hi => ?_⟩
    rw [List.getElem?_replicate,if_pos hi]
    rfl
  have hentries : ∀ a ∈ southEntries g north south, a.1 < 2^d := fun a ha =>
    Nat.lt_of_lt_of_le (lt_of_mem_southEntries hs ha) hsize
  have hrun := foldlM_countEntry (by simp) hentries hempty 0
  rw [twoLayerCrossCount,hd,hrun,pairSum_southEntries hg hn hs,zero_add,crossSum,List.map_nil,
    List.sum_nil,zero_add]

theorem crossCount_spec (hg : g.Sound) {layering : List (List PyStr)}
    (hlayers : ∀ layer ∈ layering, layer.Nodup) : crossCount g layering =
      some ((layering.zip layering.tail).map fun layers => crossings g layers.1 layers.2).sum := by
  have hloop : ∀ (todo : List (List PyStr × List PyStr)) (cc : R),
      (∀ layers ∈ todo, layers.1.Nodup ∧ layers.2.Nodup) →
      todo.foldlM (fun cc layers => (twoLayerCrossCount g layers.1 layers.2).map (cc+·)) cc =
        some (cc+(todo.map fun layers => crossings g layers.1 layers.2).sum) := by
    intro todo
    induction todo with
    | nil => exact fun cc _ => by simp
    | cons layers todo ih =>
      intro cc htodo
      obtain ⟨hn,hs⟩ := htodo layers List.mem_cons_self
      rw [List.foldlM_cons,twoLayerCrossCount_spec hg hn hs,Option.map_some,
        Option.bind_eq_bind,Option.bind_some,
        ih _ fun layers' hl => htodo layers' (List.mem_cons_of_mem layers hl),List.map_cons,
        List.sum_cons,add_assoc]
  rw [crossCount,hloop,zero_add]
  intro layers hl
  exact ⟨hlayers _ (List.of_mem_zip hl).1,hlayers _ (List.mem_of_mem_tail (List.of_mem_zip hl).2)⟩

end Layers

/-- Two edges of weights two and three that cross. -/
def twoLinks : GraphLib.Graph Unit (GraphEdge Unit ℚ) :=
  let g : GraphLib.Graph Unit (GraphEdge Unit ℚ) := new ⟨none,some true,none⟩ none none
  ((g.setEdge [ch 'a'] [ch 'd'] (some ⟨(),some 2⟩) none).graph.setEdge [ch 'b'] [ch 'c']
    (some ⟨(),some 3⟩) none).graph

end MinimaxCode.DagreCrossings
