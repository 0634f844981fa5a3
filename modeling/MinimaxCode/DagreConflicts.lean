import MinimaxCode.AcyclicPaths
import MinimaxCode.DagreLayerGraph
import MinimaxCode.OptionMaps
import MinimaxCode.TopologicalSweep
import Mathlib.Data.List.Sort

/-!
# Conflicts of the order in a rank

Before a rank is sorted by barycenters, an entry whose barycenter conflicts with a constraint
is merged with the entry before it. The sort then puts the entries without a barycenter where
their index has been reached. Both can lose nodes, and a group is sorted through both.
-/

namespace MinimaxCode.DagreConflicts

open PyText OrderedDict GraphLib DagreLayerGraph TopologicalSweep

variable {R N E D A : Type}

structure ResolvedBaryEntry (R : Type) where
  vs : List PyStr
  i : ℕ
  barycenter : Option (Center R)
  weight : Option R

/-- The edges of an entry are kept by the sweep. -/
structure ConflictEntry (R : Type) extends ResolvedBaryEntry R where
  merged : Bool

structure SubgraphResult (R : Type) where
  vs : List PyStr
  barycenter : Option (Center R)
  weight : Option R

section Model

variable [Field R] [LinearOrder R]

def add : Center R → Center R → Center R
  | .mean x,.mean y => .mean (x+y)
  | _,_ => .nan

def times : Center R → R → Center R
  | .mean x,w => .mean (x*w)
  | .nan,_ => .nan

def per : Center R → R → Center R
  | .mean x,w => center x w
  | .nan,_ => .nan

def less : Center R → Center R → Bool
  | .mean x,.mean y => x < y
  | _,_ => false

def atLeast : Center R → Center R → Bool
  | .mean x,.mean y => y ≤ x
  | _,_ => false

/-- What an entry adds to the sum and to the weight. -/
def share (e : ResolvedBaryEntry R) : Center R × R :=
  match e.barycenter,e.weight with
  | some x,some w => (times x w,w)
  | _,_ => (.mean 0,0)

def mergeEntries (entries : ℕ → ConflictEntry R) (target source : ℕ) : ℕ → ConflictEntry R :=
  let t := entries target
  let s := entries source
  let weight := (share t.1).2+(share s.1).2
  let entries := Function.update entries target
    {t with
      vs := s.vs++t.vs
      barycenter := some (per (add (share t.1).1 (share s.1).1) weight)
      weight := some weight
      i := min s.i t.i}
  Function.update entries source {entries source with merged := true}

def handleIn (v : ℕ) (entries : ℕ → ConflictEntry R) (u : ℕ) : ℕ → ConflictEntry R :=
  if (entries u).merged then entries
  else
    match (entries u).barycenter,(entries v).barycenter with
    | some x,some y => if atLeast x y then mergeEntries entries v u else entries
    | _,_ => mergeEntries entries v u

/-- The last index of a name. -/
def idToIdx (entries : List (Barycenter R)) (v : PyStr) : Option ℕ :=
  (List.range entries.length).reverse.find? fun i => entries[i]?.any (·.v = v)

def mapped (entries : List (Barycenter R)) (i : ℕ) : ConflictEntry R :=
  match entries[i]? with
  | some e => ⟨⟨[e.v],i,e.barycenter,e.weight⟩,false⟩
  | none => ⟨⟨[],i,none,none⟩,false⟩

/-- The constraints between entries. -/
def constraints (entries : List (Barycenter R)) (cg : GraphLib.Graph N E) : List (ℕ × ℕ) :=
  cg.edges.filterMap fun e =>
    (idToIdx entries e.v).bind fun v => (idToIdx entries e.w).map fun w => (v,w)

def swept (entries : List (Barycenter R)) (cg : GraphLib.Graph N E) : Sweep ℕ (ℕ → ConflictEntry R) :=
  sweep (List.range entries.length) (constraints entries cg) handleIn (mapped entries)

def resolveConflicts (entries : List (Barycenter R)) (cg : GraphLib.Graph N E) : List (ResolvedBaryEntry R) :=
  let s := swept entries cg
  (s.order.filter fun i => !(s.data i).merged).map fun i => (s.data i).toResolvedBaryEntry

def compareWithBias (biasRight : Bool) (v w : ResolvedBaryEntry R) : Ordering :=
  let bv := v.barycenter.getD (.mean 0)
  let bw := w.barycenter.getD (.mean 0)
  if less bv bw then .lt
  else if less bw bv then .gt
  else if biasRight then compare w.i v.i
  else compare v.i w.i

/-- The entries taken, those left, and the new index. -/
def consumeUnsortable : List (ResolvedBaryEntry R) → ℕ →
    List (ResolvedBaryEntry R) × List (ResolvedBaryEntry R) × ℕ
  | [],index => ([],[],index)
  | e::es,index =>
    if index < e.i then ([],e::es,index)
    else
      let r := consumeUnsortable es (index+1)
      (e::r.1,r.2)

def interleave : List (ResolvedBaryEntry R) → List (ResolvedBaryEntry R) → ℕ → List (List PyStr)
  | [],unsortable,index => (consumeUnsortable unsortable index).1.map (·.vs)
  | e::sortable,unsortable,index =>
    let r := consumeUnsortable unsortable index
    r.1.map (·.vs)++e.vs::interleave sortable r.2.1 (r.2.2+e.vs.length)

variable (timsort : (ResolvedBaryEntry R → ResolvedBaryEntry R → Ordering) →
  List (ResolvedBaryEntry R) → List (ResolvedBaryEntry R))

def sort (entries : List (ResolvedBaryEntry R)) (biasRight : Bool) : SubgraphResult R :=
  let sortable := timsort (compareWithBias biasRight) (entries.filter (·.barycenter.isSome))
  let unsortable := (entries.filter fun e => !e.barycenter.isSome).mergeSort fun a b => b.i ≤ a.i
  let sum := sortable.foldl
    (fun s e => add s (times (e.barycenter.getD (.mean 0)) (e.weight.getD 0))) (.mean 0)
  let weight := sortable.foldl (fun s e => s+e.weight.getD 0) 0
  ⟨(interleave sortable unsortable.reverse 0).flatten,
    if weight = 0 then none else some (per sum weight),if weight = 0 then none else some weight⟩

/-- What stands in the place of a node. -/
def expand (subgraphs : List (PyStr × SubgraphResult R)) (w : PyStr) : List PyStr :=
  ((lookup subgraphs w).map (·.vs)).getD [w]

def expandSubgraphs (entries : List (ResolvedBaryEntry R)) (subgraphs : List (PyStr × SubgraphResult R)) :
    List (ResolvedBaryEntry R) := entries.map fun e => {e with vs := e.vs.flatMap (expand subgraphs)}

/-- Here and below `none` stands for a division by zero. -/
def mergeBarycenters (target : Barycenter R) (other : SubgraphResult R) : Option (Barycenter R) :=
  match other.barycenter,other.weight with
  | some x,some w =>
    match target.barycenter,target.weight with
    | some y,some u =>
      if u+w = 0 then none
      else some {target with
        barycenter := some (per (add (times y u) (times x w)) (u+w)), weight := some (u+w)}
    | _,_ => some {target with barycenter := some x, weight := some w}
  | _,_ => some target

variable (g : LayerGraph D A R)

/-- The borders of a group that has both. -/
def borders (v : PyStr) : Option (PyStr × PyStr) :=
  (g.node v).bind fun node => node.borderLeft_.bind fun bl => node.borderRight_.map fun br => (bl,br)

def movableChildren (v : PyStr) : List PyStr :=
  match borders g v with
  | some (bl,br) => (g.childrenOf v).filter fun w => w ≠ bl ∧ w ≠ br
  | none => g.childrenOf v

/-- The barycenter with the places of the nodes before the borders. -/
def addBorders (bl br : PyStr) (result : SubgraphResult R) : Option (SubgraphResult R) :=
  let vs := bl::result.vs++[br]
  match keys (table g.preds bl),keys (table g.preds br) with
  | a::_,b::_ =>
    if (g.node a).isSome && (g.node b).isSome then
      let weight := result.weight.getD 0
      let sum := add (add (times (result.barycenter.getD (.mean 0)) weight) (.mean (orderOf g a : ℤ)))
        (.mean (orderOf g b : ℤ))
      let weight := weight+(2 : ℕ)
      if weight = 0 then none else some ⟨vs,some (per sum weight),some weight⟩
    else some {result with vs}
  | _,_ => some {result with vs}

/-- A round of the loop over the barycenters: the entry, and the result of its group. -/
def score (sortGroup : PyStr → Option (SubgraphResult R)) (entry : Barycenter R) :
    Option (Barycenter R × Option (SubgraphResult R)) :=
  if g.childrenOf entry.v = [] then some (entry,none)
  else (sortGroup entry.v).bind fun sub => (mergeBarycenters entry sub).map fun entry => (entry,some sub)

def subgraphsOf (scored : List (Barycenter R × Option (SubgraphResult R))) : List (PyStr × SubgraphResult R) :=
  scored.filterMap fun p => p.2.map fun sub => (p.1.v,sub)

/-- The fuel bounds the depth of the recursion. -/
def sortSubgraph (cg : GraphLib.Graph N E) (biasRight : Bool) : ℕ → PyStr → Option (SubgraphResult R)
  | 0,_ => none
  | fuel+1,v => do
    let scored ← (barycenter g (movableChildren g v)).mapM (score g (sortSubgraph cg biasRight fuel))
    let entries := expandSubgraphs (resolveConflicts (scored.map Prod.fst) cg) (subgraphsOf scored)
    let result := sort timsort entries biasRight
    match borders g v with
    | some (bl,br) => addBorders g bl br result
    | none => some result

end Model

section Kept

variable {entries : List (Barycenter R)} {p q : ℕ → ConflictEntry R} {l l' : List ℕ} {u v : ℕ}

/-- The nodes of the entries that are not merged into others. -/
def kept (p : ℕ → ConflictEntry R) (l : List ℕ) : List PyStr :=
  (l.filter fun i => !(p i).merged).flatMap fun i => (p i).vs

theorem kept_perm (h : l.Perm l') : (kept p l).Perm (kept p l') := (h.filter _).flatMap_right _

theorem kept_congr (h : ∀ i ∈ l, p i = q i) : kept p l = kept q l := by
  rw [kept,kept,List.filter_congr fun i hi => by rw [h i hi]]
  exact List.flatMap_congr fun i hi => by rw [h i (List.mem_filter.mp hi).1]

theorem kept_cons (p : ℕ → ConflictEntry R) (i : ℕ) (l : List ℕ) :
    kept p (i::l) = (if (p i).merged then [] else (p i).vs)++kept p l := by
  cases h : (p i).merged <;> simp [kept,h]

theorem merged_mapped (i : ℕ) : (mapped entries i).merged = false := by
  rw [mapped]
  split <;> rfl

variable [Field R] [LinearOrder R]

theorem handleIn_cases (v : ℕ) (p : ℕ → ConflictEntry R) (u : ℕ) : handleIn v p u = p ∨
    (p u).merged = false ∧ handleIn v p u = mergeEntries p v u := by
  fun_cases handleIn v p u <;> simp_all

theorem mergeEntries_of_ne {i : ℕ} (hiv : i ≠ v) (hiu : i ≠ u) : mergeEntries p v u i = p i := by
  simp [mergeEntries,hiv,hiu]

theorem merged_mergeEntries : (mergeEntries p v u u).merged := by simp [mergeEntries]

section Merge

variable (hne : u ≠ v)
include hne

theorem mergeEntries_target (p : ℕ → ConflictEntry R) : (mergeEntries p v u v).vs = (p u).vs++(p v).vs ∧
    (mergeEntries p v u v).barycenter.isSome ∧ (mergeEntries p v u v).merged = (p v).merged := by
  simp [mergeEntries,hne.symm]

theorem kept_mergeEntries (hl : l.Nodup) (hu : u ∈ l) (hv : v ∈ l)
    (hpu : (p u).merged = false) (hpv : (p v).merged = false) :
    (kept (mergeEntries p v u) l).Perm (kept p l) := by
  have hl' := (List.perm_cons_erase hu).trans
    ((List.perm_cons_erase ((List.mem_erase_of_ne hne.symm).mpr hv)).cons u)
  have hnodup := hl'.nodup_iff.mp hl
  simp only [List.nodup_cons,List.mem_cons,not_or] at hnodup
  have hrest : kept (mergeEntries p v u) ((l.erase u).erase v) = kept p ((l.erase u).erase v) :=
    kept_congr fun i hi => mergeEntries_of_ne (fun h => hnodup.2.1 (h ▸ hi)) fun h => hnodup.1.2 (h ▸ hi)
  obtain ⟨hvs,-,hmerged⟩ := mergeEntries_target hne p
  refine (kept_perm hl').trans (.trans (.of_eq ?_) (kept_perm hl').symm)
  rw [kept_cons,kept_cons,kept_cons,kept_cons,hrest,hvs,hmerged,merged_mergeEntries,hpu,hpv]
  simp

end Merge

/-- What the sweep makes of the entries taken. -/
structure Keeps (entries : List (Barycenter R)) (order : List ℕ) (p : ℕ → ConflictEntry R) : Prop where
  fresh : ∀ i ∉ order, p i = mapped entries i
  keeps : (kept p order).Perm (kept (mapped entries) order)
  single : ∀ i, (p i).barycenter = none → p i = mapped entries i ∨ (p i).merged

theorem Keeps.mergeEntries {order : List ℕ} (h : Keeps entries order p) (hnodup : order.Nodup)
    (hu : u ∈ order) (hv : v ∈ order) (hne : u ≠ v) (hpu : (p u).merged = false)
    (hpv : (p v).merged = false) : Keeps entries order (mergeEntries p v u) where
  fresh i hi := by
    rw [mergeEntries_of_ne (ne_of_mem_of_not_mem hv hi).symm (ne_of_mem_of_not_mem hu hi).symm]
    exact h.fresh i hi
  keeps := (kept_mergeEntries hne hnodup hu hv hpu hpv).trans h.keeps
  single i hnone := by
    by_cases hiu : i = u
    · subst hiu
      exact .inr merged_mergeEntries
    by_cases hiv : i = v
    · subst hiv
      have hsome := (mergeEntries_target hne p).2.1
      rw [hnone] at hsome
      cases hsome
    · rw [mergeEntries_of_ne hiv hiu] at hnone ⊢
      exact h.single i hnone

theorem Keeps.visit {order us : List ℕ} (h : Keeps entries order p) (hv : v ∉ order)
    (hnodup : order.Nodup) (hus : ∀ u ∈ us, u ∈ order) :
    Keeps entries (order++[v]) (us.foldl (handleIn v) p) := by
  have hperm : (order++[v]).Perm (v::order) := List.perm_append_singleton v order
  have hnodup' : (order++[v]).Nodup := hperm.nodup_iff.mpr (List.nodup_cons.mpr ⟨hv,hnodup⟩)
  have hstart : Keeps entries (order++[v]) p := by
    refine ⟨fun i hi => h.fresh i fun hmem => hi (List.mem_append_left _ hmem),?_,h.single⟩
    refine (kept_perm hperm).trans (.trans ?_ (kept_perm hperm).symm)
    rw [kept_cons,kept_cons,h.fresh v hv]
    exact h.keeps.append_left _
  have hpv : (p v).merged = false := by rw [h.fresh v hv,merged_mapped]
  clear h
  induction us generalizing p with
  | nil => exact hstart
  | cons u us ih =>
    have hu := hus u List.mem_cons_self
    have hne : u ≠ v := ne_of_mem_of_not_mem hu hv
    rw [List.foldl_cons]
    refine ih (fun x hx => hus x (List.mem_cons_of_mem u hx)) ?_ ?_ <;>
      obtain hsame | ⟨hpu,hmerge⟩ := handleIn_cases v p u
    · rwa [hsame]
    · rw [hmerge]
      exact hstart.mergeEntries hnodup' (List.mem_append_left _ hu) (by simp) hne hpu hpv
    · rwa [hsame]
    · rw [hmerge,(mergeEntries_target hne p).2.2,hpv]

end Kept

section Interleave

variable {es : List (ResolvedBaryEntry R)}

theorem consumeUnsortable_spec (es : List (ResolvedBaryEntry R)) (k : ℕ) :
    (consumeUnsortable es k).1++(consumeUnsortable es k).2.1 = es ∧
      (consumeUnsortable es k).2.2 = k+(consumeUnsortable es k).1.length := by
  induction es generalizing k with
  | nil => exact ⟨rfl,rfl⟩
  | cons e es ih =>
    rw [consumeUnsortable]
    split
    · exact ⟨rfl,rfl⟩
    · refine ⟨congrArg (e::·) (ih (k+1)).1,(ih (k+1)).2.trans ?_⟩
      rw [List.length_cons]
      omega

/-- Their indices ascend, and there are as many of them as the last index needs. -/
def Reaching (es : List (ResolvedBaryEntry R)) (k : ℕ) : Prop :=
  es.Pairwise (·.i < ·.i) ∧ ∀ e ∈ es, e.i < k+es.length

theorem Reaching.head_le {e : ResolvedBaryEntry R} {k : ℕ} (h : Reaching (e::es) k) : e.i ≤ k := by
  obtain ⟨hsorted,hlt⟩ := h
  rw [List.length_cons] at hlt
  induction es generalizing e k with
  | nil => exact Nat.lt_succ_iff.mp (hlt e List.mem_cons_self)
  | cons e' es ih =>
    obtain ⟨hfirst,hsorted⟩ := List.pairwise_cons.mp hsorted
    have hnext := ih hsorted (k:=k+1) fun x hx => by
      have hx := hlt x (List.mem_cons_of_mem e hx)
      rw [List.length_cons] at hx
      omega
    have hbefore := hfirst e' List.mem_cons_self
    omega

theorem consumeUnsortable_all {k : ℕ} (h : Reaching es k) : (consumeUnsortable es k).1 = es := by
  induction es generalizing k with
  | nil => rfl
  | cons e es ih =>
    rw [consumeUnsortable,if_neg (Nat.not_lt.mpr h.head_le)]
    refine congrArg (e::·) (ih ⟨(List.pairwise_cons.mp h.1).2,fun x hx => ?_⟩)
    have hx := h.2 x (List.mem_cons_of_mem e hx)
    rw [List.length_cons] at hx
    omega

theorem interleave_perm (sortable es : List (ResolvedBaryEntry R)) (k : ℕ) : ∃ left : List (ResolvedBaryEntry R),
    ((interleave sortable es k).flatten++left.flatMap (·.vs)).Perm
      (sortable.flatMap (·.vs)++es.flatMap (·.vs)) ∧
    (Reaching es (k+(sortable.flatMap (·.vs)).length) → left = []) := by
  induction sortable generalizing es k with
  | nil =>
    have happend := (consumeUnsortable_spec es k).1
    refine ⟨(consumeUnsortable es k).2.1,.of_eq ?_,fun h => ?_⟩
    · rw [interleave,← List.flatMap_def,← List.flatMap_append,happend]
      rfl
    · rw [consumeUnsortable_all (by simpa using h)] at happend
      exact List.append_right_eq_self.mp happend
  | cons e sortable ih =>
    obtain ⟨happend,hindex⟩ := consumeUnsortable_spec es k
    rw [interleave]
    generalize consumeUnsortable es k = r at happend hindex
    obtain ⟨taken,rest,index⟩ := r
    dsimp only at happend hindex ⊢
    subst happend hindex
    obtain ⟨left,hperm,hall⟩ := ih rest (k+taken.length+e.vs.length)
    refine ⟨left,List.perm_iff_count.mpr fun x => ?_,fun h => hall ⟨(List.pairwise_append.mp h.1).2.1,fun x hx => ?_⟩⟩
    · have hx := hperm.count_eq x
      simp only [List.flatten_append,List.flatten_cons,List.flatMap_append,List.flatMap_cons,
        List.count_append,← List.flatMap_def] at hx ⊢
      omega
    · have hx := h.2 x (List.mem_append_right _ hx)
      simp only [List.length_append,List.flatMap_cons] at hx ⊢
      omega

end Interleave

section Constraints

variable {entries : List (Barycenter R)} {cg : GraphLib.Graph N E} {l : List ℕ} {i j : ℕ} {a b : Barycenter R}
  {x : PyStr}

/-- A constraint puts the one entry directly before the other. -/
def Precedes (entries : List (Barycenter R)) (cg : GraphLib.Graph N E) (u v : PyStr) : Prop :=
  ∃ e ∈ cg.edges, e.v = u ∧ e.w = v ∧ u ∈ entries.map (·.v) ∧ v ∈ entries.map (·.v)

theorem idToIdx_eq_some_iff (hdistinct : (entries.map (·.v)).Nodup) {v : PyStr} :
    idToIdx entries v = some i ↔ ∃ e, entries[i]? = some e ∧ e.v = v := by
  have hfound {i : ℕ} (h : idToIdx entries v = some i) : ∃ e, entries[i]? = some e ∧ e.v = v := by
    simpa [Option.any_eq_true] using List.find?_some h
  refine ⟨hfound,fun ⟨e,he,hev⟩ => ?_⟩
  obtain ⟨hlt,rfl⟩ := List.getElem?_eq_some_iff.mp he
  cases h : idToIdx entries v with
  | none =>
    have hnone := List.find?_eq_none.mp h i (by simpa using hlt)
    simp [he,hev] at hnone
  | some k =>
    obtain ⟨e',he',hev'⟩ := hfound h
    obtain ⟨hlt',rfl⟩ := List.getElem?_eq_some_iff.mp he'
    have hsame := (List.nodup_iff_injective_getElem.mp hdistinct).eq_iff (a:=⟨k,by simpa using hlt'⟩)
      (b:=⟨i,by simpa using hlt⟩)
    simp only [List.getElem_map,Fin.mk.injEq] at hsame
    exact congrArg some (hsame.mp (hev'.trans hev.symm))

theorem before_iff (hdistinct : (entries.map (·.v)).Nodup) (ha : entries[i]? = some a)
    (hb : entries[j]? = some b) : Before (constraints entries cg) i j ↔ Precedes entries cg a.v b.v := by
  have hidx {k : ℕ} {e : Barycenter R} (he : entries[k]? = some e) (v : PyStr) :
      idToIdx entries v = some k ↔ v = e.v := by
    rw [idToIdx_eq_some_iff hdistinct]
    simp [he,eq_comm]
  have hmem {k : ℕ} {e : Barycenter R} (he : entries[k]? = some e) : e.v ∈ entries.map (·.v) :=
    List.mem_map_of_mem (List.mem_of_getElem? he)
  simp [Before,constraints,Precedes,Option.bind_eq_some_iff,hidx ha,hidx hb,hmem ha,hmem hb]

theorem mem_of_before (h : Before (constraints entries cg) i j) :
    i ∈ List.range entries.length ∧ j ∈ List.range entries.length := by
  obtain ⟨e,-,he⟩ := List.mem_filterMap.mp h
  obtain ⟨v,hv,he⟩ := Option.bind_eq_some_iff.mp he
  obtain ⟨w,hw,he⟩ := Option.map_eq_some_iff.mp he
  cases he
  exact ⟨List.mem_reverse.mp (List.mem_of_find?_eq_some hv),
    List.mem_reverse.mp (List.mem_of_find?_eq_some hw)⟩

theorem acc_iff (hdistinct : (entries.map (·.v)).Nodup) (ha : entries[i]? = some a) :
    Acc (Before (constraints entries cg)) i ↔ Acc (Precedes entries cg) a.v := by
  constructor
  · intro h
    induction h generalizing a with
    | intro i _ ih =>
      refine .intro _ fun u hu => ?_
      have hmem : u ∈ entries.map (·.v) := by
        obtain ⟨_,_,_,_,h,_⟩ := hu
        exact h
      obtain ⟨b,hb,rfl⟩ := List.mem_map.mp hmem
      obtain ⟨k,hk⟩ := List.mem_iff_getElem?.mp hb
      exact ih k ((before_iff hdistinct hk ha).mpr hu) hk
  · generalize hv : a.v = v
    intro h
    induction h generalizing a i with
    | intro v _ ih =>
      subst hv
      refine .intro _ fun k hk => ?_
      obtain ⟨b,hb⟩ : ∃ b, entries[k]? = some b :=
        ⟨_,List.getElem?_eq_getElem (List.mem_range.mp (mem_of_before hk).1)⟩
      exact ih b.v ((before_iff hdistinct hb ha).mp hk) hb rfl

theorem kept_mapped (entries : List (Barycenter R)) (l : List ℕ) :
    kept (mapped entries) l = l.filterMap fun i => entries[i]?.map (·.v) := by
  induction l with
  | nil => rfl
  | cons i l ih =>
    rw [kept_cons,merged_mapped,ih,List.filterMap_cons,mapped]
    cases entries[i]? <;> rfl

theorem mem_kept : x ∈ kept (mapped entries) l ↔ ∃ i ∈ l, ∃ e, entries[i]? = some e ∧ e.v = x := by
  simp [kept_mapped]

theorem nodup_kept (hdistinct : (entries.map (·.v)).Nodup) (hl : l.Nodup) :
    (kept (mapped entries) l).Nodup := by
  rw [kept_mapped]
  refine hl.filterMap fun i j v hi hj => ?_
  obtain ⟨a,ha,rfl⟩ := Option.map_eq_some_iff.mp hi
  obtain ⟨b,hb,hba⟩ := Option.map_eq_some_iff.mp hj
  exact Option.some.inj (((idToIdx_eq_some_iff hdistinct).mpr ⟨a,ha,rfl⟩).symm.trans
    ((idToIdx_eq_some_iff hdistinct).mpr ⟨b,hb,hba⟩))

theorem acc_all_iff : (∀ x, Acc (Precedes entries cg) x) ↔
    ∀ x, ¬ Relation.TransGen (Precedes entries cg) x x := by
  refine ⟨fun h => (WellFounded.intro h).transGen.irrefl.irrefl,fun h => ?_⟩
  refine (AcyclicPaths.wellFounded_of_acyclic ((entries.map (·.v)).finite_toSet.subset ?_) h).apply
  rintro u ⟨v,_,_,_,_,hu,_⟩
  exact hu

end Constraints

section Main

variable [Field R] [LinearOrder R]
  {timsort : (ResolvedBaryEntry R → ResolvedBaryEntry R → Ordering) →
    List (ResolvedBaryEntry R) → List (ResolvedBaryEntry R)}
  {entries : List (Barycenter R)} {cg : GraphLib.Graph N E}

/-- The sort reaches every entry without a barycenter. -/
structure Fits (es : List (ResolvedBaryEntry R)) : Prop where
  distinct : (es.filter fun e => !e.barycenter.isSome).Pairwise (·.i ≠ ·.i)
  reached : ∀ e ∈ es, e.barycenter = none → e.i <
    ((es.filter (·.barycenter.isSome)).flatMap (·.vs)).length+(es.filter fun e => !e.barycenter.isSome).length

theorem sort_perm (htimsort : ∀ cmp l, (timsort cmp l).Perm l) (es : List (ResolvedBaryEntry R))
    (biasRight : Bool) : ∃ left : List (ResolvedBaryEntry R),
    ((sort timsort es biasRight).vs++left.flatMap (·.vs)).Perm (es.flatMap (·.vs)) ∧ (Fits es → left = []) := by
  let sortable := timsort (compareWithBias biasRight) (es.filter (·.barycenter.isSome))
  let unsortable := ((es.filter fun e => !e.barycenter.isSome).mergeSort fun a b => b.i ≤ a.i).reverse
  have hsortable : sortable.Perm (es.filter (·.barycenter.isSome)) := htimsort _ _
  have hunsortable : unsortable.Perm (es.filter fun e => !e.barycenter.isSome) :=
    (List.reverse_perm _).trans (List.mergeSort_perm _ _)
  have hparts : (sortable.flatMap (·.vs)++unsortable.flatMap (·.vs)).Perm (es.flatMap (·.vs)) := by
    rw [← List.flatMap_append]
    exact ((hsortable.append hunsortable).trans (List.filter_append_perm _ es)).flatMap_right _
  obtain ⟨left,hperm,hall⟩ := interleave_perm sortable unsortable 0
  refine ⟨left,hperm.trans hparts,fun hfits => hall ⟨?_,fun e he => ?_⟩⟩
  · have hdesc : unsortable.Pairwise (·.i ≤ ·.i) := by
      refine List.pairwise_reverse.mpr ((List.pairwise_mergeSort ?_ ?_ _).imp fun h => of_decide_eq_true h)
      · simp only [decide_eq_true_eq]
        exact fun _ _ _ h h' => h'.trans h
      · simp only [Bool.or_eq_true,decide_eq_true_eq]
        exact fun a b => Nat.le_total b.i a.i
    have hne := (hunsortable.pairwise_iff fun h => h.symm).mpr hfits.distinct
    exact (hdesc.and hne).imp fun h => lt_of_le_of_ne h.1 h.2
  · obtain ⟨hmem,hnone⟩ := List.mem_filter.mp (hunsortable.mem_iff.mp he)
    have hlt := hfits.reached e hmem (by simpa using hnone)
    rwa [← (hsortable.flatMap_right _).length_eq,← hunsortable.length_eq,← Nat.zero_add (List.length _)] at hlt

theorem keeps_swept (entries : List (Barycenter R)) (cg : GraphLib.Graph N E) :
    Keeps entries (swept entries cg).order (swept entries cg).data :=
  data_induction (P:=Keeps entries) _ List.nodup_range (fun _ he => mem_of_before he)
    ⟨fun _ _ => rfl,.refl _,fun _ _ => .inl rfl⟩ fun _ _ _ _ _ hv hnodup hus h => h.visit hv hnodup hus

theorem flatMap_resolveConflicts (entries : List (Barycenter R)) (cg : GraphLib.Graph N E) :
    ((resolveConflicts entries cg).flatMap (·.vs)).Perm (kept (mapped entries) (swept entries cg).order) := by
  rw [resolveConflicts,List.flatMap_map]
  exact (keeps_swept entries cg).keeps

theorem mem_swept (hdistinct : (entries.map (·.v)).Nodup) (x : PyStr) :
    x ∈ kept (mapped entries) (swept entries cg).order ↔
      x ∈ entries.map (·.v) ∧ Acc (Precedes entries cg) x := by
  have horder (i : ℕ) : i ∈ (swept entries cg).order ↔
      i ∈ List.range entries.length ∧ Acc (Before (constraints entries cg)) i :=
    mem_order_iff _ List.nodup_range fun _ he => mem_of_before he
  rw [mem_kept]
  constructor
  · rintro ⟨i,hi,e,he,rfl⟩
    exact ⟨List.mem_map_of_mem (List.mem_of_getElem? he),(acc_iff hdistinct he).mp ((horder i).mp hi).2⟩
  · rintro ⟨hx,hacc⟩
    obtain ⟨e,he,rfl⟩ := List.mem_map.mp hx
    obtain ⟨i,hi⟩ := List.mem_iff_getElem?.mp he
    obtain ⟨hlt,-⟩ := List.getElem?_eq_some_iff.mp hi
    exact ⟨i,(horder i).mpr ⟨List.mem_range.mpr hlt,(acc_iff hdistinct hi).mpr hacc⟩,e,hi,rfl⟩

theorem nodup_swept (hdistinct : (entries.map (·.v)).Nodup) :
    (kept (mapped entries) (swept entries cg).order).Nodup :=
  nodup_kept hdistinct (nodup_order _ List.nodup_range fun _ he => mem_of_before he)

theorem data_eq_mapped {i : ℕ} (hi : ((swept entries cg).data i).merged = false)
    (hnone : ((swept entries cg).data i).barycenter = none) : (swept entries cg).data i = mapped entries i := by
  simpa [hi] using (keeps_swept entries cg).single i hnone

/-- Just the nodes are kept that no cycle of constraints comes before, and each once. -/
theorem resolveConflicts_exact (hdistinct : (entries.map (·.v)).Nodup) :
    ((resolveConflicts entries cg).flatMap (·.vs)).Nodup ∧
      ∀ x, x ∈ (resolveConflicts entries cg).flatMap (·.vs) ↔
        x ∈ entries.map (·.v) ∧ Acc (Precedes entries cg) x :=
  ⟨(flatMap_resolveConflicts entries cg).nodup_iff.mpr (nodup_swept hdistinct),
    fun x => (flatMap_resolveConflicts entries cg).mem_iff.trans (mem_swept hdistinct x)⟩

theorem fits_resolveConflicts (hdistinct : (entries.map (·.v)).Nodup)
    (hacc : ∀ x, Acc (Precedes entries cg) x) :
    ((resolveConflicts entries cg).flatMap (·.vs)).Perm (entries.map (·.v)) ∧ Fits (resolveConflicts entries cg) := by
  have hperm : ((resolveConflicts entries cg).flatMap (·.vs)).Perm (entries.map (·.v)) :=
    (flatMap_resolveConflicts entries cg).trans ((List.perm_ext_iff_of_nodup (nodup_swept hdistinct) hdistinct).mpr
      fun x => (mem_swept hdistinct x).trans (and_iff_left (hacc x)))
  have hnodup : (swept entries cg).order.Nodup :=
    nodup_order _ List.nodup_range fun _ he => mem_of_before he
  have hentry {i : ℕ} (hi : i ∈ (swept entries cg).order.filter fun i => !((swept entries cg).data i).merged)
      (hnone : ((swept entries cg).data i).barycenter = none) : ((swept entries cg).data i).i = i ∧
        i < entries.length ∧ ((swept entries cg).data i).vs.length = 1 := by
    obtain ⟨hi,hmerged⟩ := List.mem_filter.mp hi
    have hlt := List.mem_range.mp
      ((mem_order_iff _ List.nodup_range fun _ he => mem_of_before he).mp hi).1
    rw [data_eq_mapped (by simpa using hmerged) hnone,mapped,List.getElem?_eq_getElem hlt]
    exact ⟨rfl,hlt,rfl⟩
  refine ⟨hperm,?_,fun e he hnone => ?_⟩
  · rw [List.pairwise_filter,resolveConflicts,List.pairwise_map]
    refine (hnodup.filter _).imp_of_mem fun ha hb hne hnone hnone' h => hne ?_
    exact (hentry ha (by simpa using hnone)).1.symm.trans (h.trans (hentry hb (by simpa using hnone')).1)
  · have hlength : (((resolveConflicts entries cg).filter fun e => !e.barycenter.isSome).flatMap (·.vs)).length =
        ((resolveConflicts entries cg).filter fun e => !e.barycenter.isSome).length := by
      rw [List.length_flatMap,List.map_congr_left (g:=fun _ => 1) fun e he => ?_]
      · simp
      obtain ⟨he,hnone⟩ := List.mem_filter.mp he
      obtain ⟨i,hi,rfl⟩ := List.mem_map.mp he
      exact (hentry hi (by simpa using hnone)).2.2
    have hparts := ((List.filter_append_perm (·.barycenter.isSome) (resolveConflicts entries cg)).flatMap_right
      (·.vs)).trans hperm
    have htotal := hparts.length_eq
    rw [List.flatMap_append,List.length_append,hlength,List.length_map] at htotal
    rw [htotal]
    obtain ⟨i,hi,rfl⟩ := List.mem_map.mp he
    obtain ⟨hindex,hlt,-⟩ := hentry hi hnone
    exact hindex.symm ▸ hlt

/-- The sort of the entries resolved loses no node just when the constraints have no cycle. -/
theorem sort_perm_iff (htimsort : ∀ cmp l, (timsort cmp l).Perm l)
    (hdistinct : (entries.map (·.v)).Nodup) (biasRight : Bool) :
    (sort timsort (resolveConflicts entries cg) biasRight).vs.Perm (entries.map (·.v)) ↔
      ∀ x, ¬ Relation.TransGen (Precedes entries cg) x x := by
  obtain ⟨left,hperm,hleft⟩ := sort_perm htimsort (resolveConflicts entries cg) biasRight
  rw [← acc_all_iff]
  constructor
  · intro h x
    by_cases hx : x ∈ entries.map (·.v)
    · have hmem := hperm.mem_iff.mp (List.mem_append_left _ (h.mem_iff.mpr hx))
      exact ((mem_swept hdistinct x).mp ((flatMap_resolveConflicts entries cg).mem_iff.mp hmem)).2
    · refine .intro x fun u hu => ?_
      obtain ⟨_,_,_,_,_,hv⟩ := hu
      exact absurd hv hx
  · intro h
    obtain ⟨hresolved,hfits⟩ := fits_resolveConflicts hdistinct h
    obtain rfl := hleft hfits
    simpa using hperm.trans hresolved

end Main

section Subgraphs

variable {g : LayerGraph D A R} {cg : GraphLib.Graph N E} {biasRight : Bool} {fuel : ℕ} {v : PyStr}
  {r : SubgraphResult R} {subgraphs : List (PyStr × SubgraphResult R)} {es : List (ResolvedBaryEntry R)}

/-- The nodes without children below a group, and the borders. -/
def nodesBelow (g : LayerGraph D A R) : ℕ → PyStr → List PyStr
  | 0,_ => []
  | fuel+1,v =>
    let inner := (movableChildren g v).flatMap fun w =>
      if g.childrenOf w = [] then [w] else nodesBelow g fuel w
    match borders g v with
    | some (bl,br) => bl::inner++[br]
    | none => inner

theorem flatMap_expandSubgraphs (es : List (ResolvedBaryEntry R)) (subgraphs : List (PyStr × SubgraphResult R)) :
    (expandSubgraphs es subgraphs).flatMap (·.vs) = (es.flatMap (·.vs)).flatMap (expand subgraphs) := by
  rw [expandSubgraphs,List.flatMap_map,List.flatMap_assoc]

theorem length_le_flatMap {l : List PyStr} (h : ∀ w ∈ l, expand subgraphs w ≠ []) :
    l.length ≤ (l.flatMap (expand subgraphs)).length := by
  induction l with
  | nil => exact Nat.zero_le _
  | cons w l ih =>
    have hw := List.length_pos_iff.mpr (h w List.mem_cons_self)
    have hl := ih fun x hx => h x (List.mem_cons_of_mem w hx)
    rw [List.flatMap_cons,List.length_append,List.length_cons]
    omega

theorem lookup_subgraphsOf {scored : List (Barycenter R × Option (SubgraphResult R))}
    (hdistinct : (scored.map (·.1.v)).Nodup) {p : Barycenter R × Option (SubgraphResult R)} (hp : p ∈ scored) :
    lookup (subgraphsOf scored) p.1.v = p.2 := by
  rw [subgraphsOf]
  cases hsub : p.2 with
  | some sub =>
    refine lookup_of_mem ?_ (List.mem_filterMap.mpr ⟨p,hp,by rw [hsub]; rfl⟩)
    rw [keys,List.Nodup,List.pairwise_map,List.pairwise_filterMap]
    refine (List.pairwise_map.mp hdistinct).imp fun hne b hb c hc => ?_
    obtain ⟨_,_,rfl⟩ := Option.map_eq_some_iff.mp hb
    obtain ⟨_,_,rfl⟩ := Option.map_eq_some_iff.mp hc
    exact hne
  | none =>
    refine lookup_eq_none fun hmem => ?_
    obtain ⟨kv,hkv,hname⟩ := List.mem_map.mp hmem
    obtain ⟨q,hq,hkv⟩ := List.mem_filterMap.mp hkv
    obtain ⟨sub,hsome,rfl⟩ := Option.map_eq_some_iff.mp hkv
    rw [List.inj_on_of_nodup_map hdistinct hq hp hname,hsub] at hsome
    cases hsome

theorem Fits.expand (h : Fits es) (hne : ∀ w ∈ es.flatMap (·.vs), expand subgraphs w ≠ []) :
    Fits (expandSubgraphs es subgraphs) where
  distinct := by
    rw [expandSubgraphs,List.filter_map,List.pairwise_map]
    exact h.distinct
  reached e he hnone := by
    obtain ⟨e',he',rfl⟩ := List.mem_map.mp he
    have hlt := h.reached e' he' hnone
    have hle : ((es.filter (·.barycenter.isSome)).flatMap (·.vs)).length ≤
        ((expandSubgraphs (es.filter (·.barycenter.isSome)) subgraphs).flatMap (·.vs)).length := by
      rw [flatMap_expandSubgraphs]
      refine length_le_flatMap fun w hw => hne w ?_
      obtain ⟨e,he,hw⟩ := List.mem_flatMap.mp hw
      exact List.mem_flatMap.mpr ⟨e,(List.mem_filter.mp he).1,hw⟩
    simp only [expandSubgraphs,List.filter_map,List.length_map] at hle ⊢
    exact hlt.trans_le (Nat.add_le_add_right hle _)

theorem nodup_movableChildren (hchildren : ∀ v, (g.childrenOf v).Nodup) (v : PyStr) :
    (movableChildren g v).Nodup := by
  rw [movableChildren]
  split
  · exact (hchildren v).filter _
  · exact hchildren v

variable [Field R] [LinearOrder R]
  {timsort : (ResolvedBaryEntry R → ResolvedBaryEntry R → Ordering) →
    List (ResolvedBaryEntry R) → List (ResolvedBaryEntry R)}

theorem v_mergeBarycenters {entry merged : Barycenter R} {sub : SubgraphResult R}
    (h : mergeBarycenters entry sub = some merged) : merged.v = entry.v := by
  revert h
  fun_cases mergeBarycenters entry sub <;> rintro ⟨⟩ <;> rfl

theorem vs_addBorders {bl br : PyStr} {result : SubgraphResult R} (h : addBorders g bl br result = some r) :
    r.vs = bl::result.vs++[br] := by
  revert h
  fun_cases addBorders g bl br result <;> rintro ⟨⟩ <;> rfl

section Scored

variable {movable : List PyStr} {sortGroup : PyStr → Option (SubgraphResult R)}
  {scored : List (Barycenter R × Option (SubgraphResult R))}
  (h : (barycenter g movable).mapM (score g sortGroup) = some scored)
include h

theorem names_scored : scored.map (·.1.v) = movable := by
  refine (OptionMaps.map_of_mapM (q:=Barycenter.v) (fun entry p hp => ?_) h).trans ?_
  · rw [score] at hp
    split at hp
    · cases hp
      rfl
    · obtain ⟨sub,-,hp⟩ := Option.bind_eq_some_iff.mp hp
      obtain ⟨merged,hmerged,rfl⟩ := Option.map_eq_some_iff.mp hp
      exact v_mergeBarycenters hmerged
  · rw [barycenter,List.map_map]
    refine (List.map_congr_left fun w _ => ?_).trans (List.map_id _)
    rw [Function.comp_apply,barycenterOf]
    split <;> rfl

theorem expand_scored (hdistinct : movable.Nodup) {w : PyStr} (hw : w ∈ movable) :
    g.childrenOf w = [] ∧ expand (subgraphsOf scored) w = [w] ∨ g.childrenOf w ≠ [] ∧
      ∃ sub, sortGroup w = some sub ∧ expand (subgraphsOf scored) w = sub.vs := by
  rw [← names_scored h] at hdistinct hw
  obtain ⟨p,hp,rfl⟩ := List.mem_map.mp hw
  rw [expand,lookup_subgraphsOf hdistinct hp]
  obtain ⟨entry,-,hround⟩ := OptionMaps.mem_of_mapM h hp
  rw [score] at hround
  split at hround
  case isTrue hleaf =>
    cases hround
    exact .inl ⟨hleaf,rfl⟩
  case isFalse hgroup =>
    obtain ⟨sub,hsub,hround⟩ := Option.bind_eq_some_iff.mp hround
    obtain ⟨merged,hmerged,rfl⟩ := Option.map_eq_some_iff.mp hround
    rw [← v_mergeBarycenters hmerged] at hgroup hsub
    exact .inr ⟨hgroup,sub,hsub,rfl⟩

/-- The sort of the entries scored keeps every node, where no group is empty. -/
theorem sort_scored (htimsort : ∀ cmp l, (timsort cmp l).Perm l) (hdistinct : movable.Nodup)
    (hcg : ∀ x, ¬ Relation.TransGen (fun u v => ∃ e ∈ cg.edges, e.v = u ∧ e.w = v) x x)
    (hne : ∀ w ∈ movable, expand (subgraphsOf scored) w ≠ []) (biasRight : Bool) :
    (sort timsort (expandSubgraphs (resolveConflicts (scored.map Prod.fst) cg) (subgraphsOf scored)) biasRight).vs.Perm
      (movable.flatMap (expand (subgraphsOf scored))) := by
  have hnames : (scored.map Prod.fst).map (·.v) = movable := by
    rw [List.map_map]
    exact names_scored h
  have hacc : ∀ x, Acc (Precedes (scored.map Prod.fst) cg) x := by
    refine acc_all_iff.mpr fun x hx => hcg x (Relation.TransGen.mono (fun u v hu => ?_) x x hx)
    obtain ⟨e,he,hv,hw,-⟩ := hu
    exact ⟨e,he,hv,hw⟩
  obtain ⟨hresolved,hfits⟩ := fits_resolveConflicts (by rwa [hnames]) hacc
  rw [hnames] at hresolved
  obtain ⟨left,hperm,hleft⟩ := sort_perm htimsort
    (expandSubgraphs (resolveConflicts (scored.map Prod.fst) cg) (subgraphsOf scored)) biasRight
  obtain rfl := hleft (hfits.expand fun w hw => hne w (hresolved.mem_iff.mp hw))
  rw [flatMap_expandSubgraphs,List.flatMap_nil,List.append_nil] at hperm
  exact hperm.trans (hresolved.flatMap_right _)

end Scored

/-- Whenever the sort of a group returns, just the nodes below the group and the borders are
there, each once. -/
theorem sortSubgraph_perm (htimsort : ∀ cmp l, (timsort cmp l).Perm l)
    (hchildren : ∀ v, (g.childrenOf v).Nodup)
    (hcg : ∀ x, ¬ Relation.TransGen (fun u v => ∃ e ∈ cg.edges, e.v = u ∧ e.w = v) x x)
    (h : sortSubgraph timsort g cg biasRight fuel v = some r) : r.vs.Perm (nodesBelow g fuel v) := by
  suffices r.vs.Perm (nodesBelow g fuel v) ∧ (g.childrenOf v ≠ [] → r.vs ≠ []) from this.1
  induction fuel generalizing v r with
  | zero => cases h
  | succ fuel ih =>
    obtain ⟨scored,hscored,h⟩ := Option.bind_eq_some_iff.mp h
    have hnodup := nodup_movableChildren hchildren v
    have hexpand : ∀ w ∈ movableChildren g v, (expand (subgraphsOf scored) w).Perm
        (if g.childrenOf w = [] then [w] else nodesBelow g fuel w) ∧ expand (subgraphsOf scored) w ≠ [] := by
      intro w hw
      obtain ⟨hleaf,hself⟩ | ⟨hgroup,sub,hsub,hvs⟩ := expand_scored hscored hnodup hw
      · rw [if_pos hleaf,hself]
        exact ⟨.refl _,List.cons_ne_nil _ _⟩
      · rw [if_neg hgroup,hvs]
        exact ⟨(ih hsub).1,(ih hsub).2 hgroup⟩
    have hsorted := sort_scored hscored htimsort hnodup hcg (fun w hw => (hexpand w hw).2) biasRight
    have hinner := hsorted.trans (List.Perm.flatMap_left _ fun w hw => (hexpand w hw).1)
    rw [nodesBelow]
    cases hborders : borders g v with
    | none =>
      rw [hborders] at h
      cases h
      refine ⟨hinner,fun hne => ?_⟩
      have hmovable : movableChildren g v = g.childrenOf v := by simp [movableChildren,hborders]
      obtain ⟨w,hw⟩ := List.exists_mem_of_ne_nil _ (hmovable.symm ▸ hne)
      obtain ⟨x,hx⟩ := List.exists_mem_of_ne_nil _ (hexpand w hw).2
      exact List.ne_nil_of_mem (hsorted.mem_iff.mpr (List.mem_flatMap.mpr ⟨w,hw,hx⟩))
    | some b =>
      obtain ⟨bl,br⟩ := b
      rw [hborders] at h
      rw [vs_addBorders h]
      exact ⟨(hinner.append_right _).cons bl,fun _ => List.cons_ne_nil _ _⟩

end Subgraphs

def stableSort (cmp : ResolvedBaryEntry ℚ → ResolvedBaryEntry ℚ → Ordering) (es : List (ResolvedBaryEntry ℚ)) :
    List (ResolvedBaryEntry ℚ) := es.mergeSort fun a b => cmp a b != .gt

/-- The first of two nodes is to stand before the second. -/
def firstBefore : GraphLib.Graph Unit Unit :=
  {Graph.new ⟨none,none,none⟩ none none with edgeObjs := [([],⟨[ch 'a'],[ch 'b'],none⟩)]}

theorem firstBefore_acyclic {r : PyStr → PyStr → Prop} (hr : ∀ u v, r u v → u = [ch 'a'] ∧ v = [ch 'b'])
    (x : PyStr) : ¬ Relation.TransGen r x x := by
  have hends : ∀ v, Relation.TransGen r x v → x = [ch 'a'] ∧ v = [ch 'b'] := fun v h => by
    induction h with
    | single h => exact hr _ _ h
    | tail _ h ih => exact ⟨ih.1,(hr _ _ h).2⟩
  intro h
  obtain ⟨hx,hx'⟩ := hends x h
  exact absurd (hx.symm.trans hx') (by decide)

/-- The second node has the smaller barycenter, and the third one has none. -/
def threeEntries : List (Barycenter ℚ) :=
  [⟨[ch 'a'],some (.mean 2),some 1⟩,⟨[ch 'b'],some (.mean 1),some 1⟩,⟨[ch 'c'],none,none⟩]

theorem sort_threeEntries : (sort stableSort (resolveConflicts threeEntries firstBefore) false).vs.Perm
    [[ch 'a'],[ch 'b'],[ch 'c']] := by
  refine (sort_perm_iff (fun cmp l => List.mergeSort_perm l _) (by decide) false).mpr (firstBefore_acyclic ?_)
  rintro u v ⟨e,he,rfl,rfl,-⟩
  obtain rfl := List.mem_singleton.mp he
  exact ⟨rfl,rfl⟩

theorem resolved_threeEntries : [ch 'c'] ∈ (resolveConflicts threeEntries firstBefore).flatMap (·.vs) := by
  refine ((resolveConflicts_exact (by decide)).2 _).mpr ⟨by decide,.intro _ fun u hu => ?_⟩
  obtain ⟨e,he,-,hw,-⟩ := hu
  obtain rfl := List.mem_singleton.mp he
  exact absurd hw (by decide)

/-- A group of two nodes. -/
def pair : LayerGraph Unit Unit ℚ :=
  {Graph.new ⟨none,none,some true⟩ none none with children := [([ch 's'],[([ch 'a'],true),([ch 'b'],true)])]}

theorem sort_pair : ∃ r, sortSubgraph stableSort pair firstBefore false 1 [ch 's'] = some r ∧
    r.vs.Perm [[ch 'a'],[ch 'b']] := by
  have hchildren : ∀ v, (pair.childrenOf v).Nodup := fun v => by
    by_cases hv : v = [ch 's']
    · subst hv
      decide
    · have hnil : pair.childrenOf v = [] := by
        simp [pair,Graph.childrenOf,Graph.new,table,lookup_cons,Ne.symm hv,keys]
      rw [hnil]
      exact List.nodup_nil
  obtain ⟨r,hr⟩ : ∃ r, sortSubgraph stableSort pair firstBefore false 1 [ch 's'] = some r := ⟨_,rfl⟩
  have hperm := sortSubgraph_perm (fun cmp l => List.mergeSort_perm l _) hchildren
    (firstBefore_acyclic fun u v huv => by
      obtain ⟨e,he,rfl,rfl⟩ := huv
      obtain rfl := List.mem_singleton.mp he
      exact ⟨rfl,rfl⟩) hr
  exact ⟨r,hr,hperm⟩

end MinimaxCode.DagreConflicts
