import Mathlib.Data.Int.Notation
import Mathlib.Data.List.Nodup
import Mathlib.Logic.Function.Iterate
import Mathlib.Tactic.Common

/-!
# Sweeps in topological order

A sweep takes nodes without an edge left into them from a stack, and each node it takes
absorbs what came before it. It reaches just the nodes that no backward path leads away from
for ever, so a node is left out exactly when it lies on a cycle or behind one.
-/

namespace MinimaxCode.TopologicalSweep

variable {α S : Type*} [DecidableEq α]

/-- The number of edges left into a node, the sources of those worked off, the stack, the
nodes taken from it, and what the nodes have absorbed. -/
structure Sweep (α S : Type*) where
  indegree : α → ℤ
  ins : α → List α
  sources : List α
  order : List α
  data : S

def outs (es : List (α × α)) (v : α) : List α := (es.filter fun e => e.1 = v).map Prod.snd

/-- An edge from `v` is worked off, and with the last one its target goes on the stack. -/
def record (v : α) (s : Sweep α S) (w : α) : Sweep α S :=
  {s with
    indegree := Function.update s.indegree w (s.indegree w-1)
    ins := Function.update s.ins w (s.ins w++[v])
    sources := if s.indegree w-1 = 0 then w::s.sources else s.sources}

def visit (es : List (α × α)) (absorb : α → S → α → S) (s : Sweep α S) : Sweep α S :=
  match s.sources with
  | [] => s
  | v::rest => (outs es v).foldl (record v)
      {s with
        sources := rest
        order := s.order++[v]
        data := (s.ins v).reverse.foldl (absorb v) s.data}

def begin (nodes : List α) (es : List (α × α)) (data : S) : Sweep α S where
  indegree w := es.countP fun e => e.2 = w
  ins _ := []
  sources := (nodes.filter fun w => es.countP (fun e => e.2 = w) = 0).reverse
  order := []
  data := data

/-- A node is taken once at most, so there is fuel for all of them. -/
def sweep (nodes : List α) (es : List (α × α)) (absorb : α → S → α → S) (data : S) : Sweep α S :=
  (visit es absorb)^[nodes.length] (begin nodes es data)

/-- There is an edge from the one node to the other. -/
def Before (es : List (α × α)) (u v : α) : Prop := (u,v) ∈ es

variable {nodes ws : List α} {es : List (α × α)} {absorb : α → S → α → S} {s : Sweep α S} {u v w : α}

section Fold

variable (v) (ws : List α) (s : Sweep α S)

@[simp] theorem order_foldl : (ws.foldl (record v) s).order = s.order := by
  induction ws generalizing s with
  | nil => rfl
  | cons w ws ih => rw [List.foldl_cons,ih]; rfl

@[simp] theorem data_foldl : (ws.foldl (record v) s).data = s.data := by
  induction ws generalizing s with
  | nil => rfl
  | cons w ws ih => rw [List.foldl_cons,ih]; rfl

theorem indegree_foldl (x : α) : (ws.foldl (record v) s).indegree x = s.indegree x-ws.count x := by
  induction ws generalizing s with
  | nil => simp
  | cons w ws ih =>
    rw [List.foldl_cons,ih,record,List.count_cons]
    by_cases hx : w = x
    · subst hx
      simp
      omega
    · simp [hx,Function.update_of_ne (Ne.symm hx)]

theorem mem_ins_foldl (h : u ∈ (ws.foldl (record v) s).ins w) : u ∈ s.ins w ∨ u = v := by
  induction ws generalizing s with
  | nil => exact .inl h
  | cons x ws ih =>
    rw [List.foldl_cons] at h
    refine (ih _ h).elim (fun h => ?_) .inr
    by_cases hx : w = x
    · subst hx
      simpa [record] using h
    · left
      simpa [record,Function.update_of_ne hx] using h

end Fold

/-- The nodes that are taken or on the stack are those with no edge left into them. -/
structure Ready (nodes : List α) (s : Sweep α S) : Prop where
  fresh : (s.sources++s.order).Nodup
  mem_iff : ∀ w, w ∈ s.sources++s.order ↔ w ∈ nodes ∧ s.indegree w = 0

theorem Ready.record (h : Ready nodes s) (hw : w ∈ nodes) (hpos : 0 < s.indegree w) :
    Ready nodes (record v s w) := by
  have hne : s.indegree w ≠ 0 := by omega
  have hnew : w ∉ s.sources++s.order := fun hmem => hne ((h.mem_iff w).mp hmem).2
  by_cases hlast : s.indegree w-1 = 0
  · refine ⟨?_,fun x => ?_⟩
    · rw [TopologicalSweep.record,if_pos hlast]
      exact List.nodup_cons.mpr ⟨hnew,h.fresh⟩
    · rw [TopologicalSweep.record,if_pos hlast,List.cons_append,List.mem_cons,h.mem_iff]
      by_cases hx : x = w
      · subst hx
        simp [hw,hlast]
      · simp [hx]
  · refine ⟨?_,fun x => ?_⟩
    · rw [TopologicalSweep.record,if_neg hlast]
      exact h.fresh
    · rw [TopologicalSweep.record,if_neg hlast,h.mem_iff]
      by_cases hx : x = w
      · subst hx
        simp [hlast,hne]
      · simp [Function.update_of_ne hx]

theorem Ready.foldl (h : Ready nodes s) (hnodes : ∀ w ∈ ws, w ∈ nodes)
    (hcount : ∀ w, ws.count w ≤ s.indegree w) : Ready nodes (ws.foldl (TopologicalSweep.record v) s) := by
  induction ws generalizing s with
  | nil => exact h
  | cons w ws ih =>
    have hpos : 0 < s.indegree w := by
      have hw := hcount w
      rw [List.count_cons_self] at hw
      omega
    refine ih (h.record (hnodes w List.mem_cons_self) hpos)
      (fun x hx => hnodes x (List.mem_cons_of_mem w hx)) fun x => ?_
    have hx := hcount x
    rw [TopologicalSweep.record]
    by_cases hxw : x = w
    · subst hxw
      rw [List.count_cons_self] at hx
      simp only [Function.update_self]
      omega
    · rw [List.count_cons_of_ne (Ne.symm hxw)] at hx
      simpa [Function.update_of_ne hxw] using hx

structure Inv (nodes : List α) (es : List (α × α)) (s : Sweep α S) : Prop extends Ready nodes s where
  indegree : ∀ w, s.indegree w = es.countP fun e => e.1 ∉ s.order ∧ e.2 = w
  ins : ∀ w, ∀ u ∈ s.ins w, u ∈ s.order
  sound : ∀ w ∈ s.order, Acc (Before es) w

theorem inv_begin (data : S) (hnodes : nodes.Nodup) : Inv nodes es (begin nodes es data) where
  fresh := by simpa [begin] using hnodes.filter _
  mem_iff w := by simp [begin]
  indegree w := by simp [begin]
  ins w u hu := by simp [begin] at hu
  sound w hw := by simp [begin] at hw

theorem count_outs (w : α) : (outs es v).count w = es.countP fun e => e.1 = v ∧ e.2 = w := by
  induction es with
  | nil => rfl
  | cons e es ih =>
    rw [List.countP_cons,← ih,outs,outs,List.filter_cons]
    by_cases he : e.1 = v <;> by_cases hw : e.2 = w <;> simp [he,hw]

theorem countP_take (hv : v ∉ s.order) (w : α) :
    (es.countP fun e => e.1 ∉ s.order ∧ e.2 = w) =
      (es.countP fun e => e.1 ∉ s.order++[v] ∧ e.2 = w)+(outs es v).count w := by
  rw [count_outs]
  induction es with
  | nil => rfl
  | cons e es ih =>
    simp only [List.countP_cons,ih]
    by_cases hw : e.2 = w <;> by_cases he : e.1 = v
    · subst he
      simp [hw,hv]
      omega
    · simp [hw,he]
      omega
    · simp [hw]
    · simp [hw]

theorem Inv.taken (h : Inv nodes es s) (hw : w ∈ s.sources++s.order) (hu : Before es u w) :
    u ∈ s.order := by
  have hzero := (h.indegree w).symm.trans ((h.mem_iff w).mp hw).2
  by_contra hnot
  have hnone := List.countP_eq_zero.mp (Int.ofNat_eq_zero.mp hzero) _ hu
  simp [hnot] at hnone

theorem Inv.visit (h : Inv nodes es s) (hes : ∀ e ∈ es, e.2 ∈ nodes) : Inv nodes es (visit es absorb s) := by
  rw [TopologicalSweep.visit]
  split
  · exact h
  next v rest hsources =>
  have hperm : (s.sources++s.order).Perm (rest++(s.order++[v])) := by
    rw [hsources,← List.append_assoc]
    exact (List.perm_append_singleton v (rest++s.order)).symm
  have hv : v ∉ s.order := fun hmem =>
    (List.nodup_append.mp h.fresh).2.2 v (hsources ▸ List.mem_cons_self) v hmem rfl
  have hmem : v ∈ s.sources++s.order := List.mem_append_left _ (hsources ▸ List.mem_cons_self)
  have hready : Ready nodes {s with sources := rest, order := s.order++[v], data := (s.ins v).reverse.foldl (absorb v) s.data} :=
    ⟨hperm.nodup_iff.mp h.fresh,fun w => hperm.mem_iff.symm.trans (h.mem_iff w)⟩
  refine ⟨hready.foldl (fun w hw => ?_) fun w => ?_,fun w => ?_,fun w u hu => ?_,fun w hw => ?_⟩
  · obtain ⟨e,he,rfl⟩ := List.mem_map.mp hw
    exact hes e (List.mem_filter.mp he).1
  · rw [h.indegree,countP_take hv]
    omega
  · rw [indegree_foldl,h.indegree,countP_take hv,order_foldl]
    dsimp only
    omega
  · rw [order_foldl]
    refine List.mem_append.mpr ((mem_ins_foldl v _ _ hu).imp (h.ins w u) fun hu => ?_)
    exact List.mem_singleton.mpr hu
  · rw [order_foldl,List.mem_append,List.mem_singleton] at hw
    obtain hw | rfl := hw
    · exact h.sound w hw
    · exact .intro w fun u hu => h.sound u (h.taken hmem hu)

theorem inv_sweep (data : S) (hnodes : nodes.Nodup) (hes : ∀ e ∈ es, e.2 ∈ nodes) (k : ℕ) :
    Inv nodes es ((visit es absorb)^[k] (begin nodes es data)) := by
  induction k with
  | zero => exact inv_begin data hnodes
  | succ k ih =>
    rw [Function.iterate_succ_apply']
    exact ih.visit hes

theorem length_iterate (s : Sweep α S) (k : ℕ) :
    ((visit es absorb)^[k] s).sources = [] ∨ ((visit es absorb)^[k] s).order.length = s.order.length+k := by
  induction k with
  | zero => exact .inr rfl
  | succ k ih =>
    rw [Function.iterate_succ_apply']
    generalize (visit es absorb)^[k] s = t at ih
    rw [visit]
    split
    · next hnil => exact .inl hnil
    · next v rest hcons =>
      right
      obtain hnil | hlen := ih
      · rw [hnil] at hcons
        cases hcons
      · rw [order_foldl,List.length_append,hlen,List.length_singleton]
        omega

section End

variable (data : S) (hnodes : nodes.Nodup) (hes : ∀ e ∈ es, e.1 ∈ nodes ∧ e.2 ∈ nodes)
include hnodes hes

theorem sources_sweep : (sweep nodes es absorb data).sources = [] := by
  have hinv : Inv nodes es ((visit es absorb)^[nodes.length] (begin nodes es data)) :=
    inv_sweep data hnodes (fun e he => (hes e he).2) _
  refine (length_iterate (begin nodes es data) nodes.length).elim id fun hlen => ?_
  have hsub : ∀ w ∈ (sweep nodes es absorb data).sources++(sweep nodes es absorb data).order, w ∈ nodes :=
    fun w hw => ((hinv.mem_iff w).mp hw).1
  have hle := List.Nodup.length_le_of_subset hinv.fresh hsub
  rw [List.length_append] at hle
  change _ = 0+nodes.length at hlen
  exact List.length_eq_zero_iff.mp (by simp only [sweep] at hle ⊢; omega)

theorem nodup_order : (sweep nodes es absorb data).order.Nodup :=
  (List.nodup_append.mp (inv_sweep data hnodes (fun e he => (hes e he).2) nodes.length).fresh).2.1

theorem mem_order_iff : w ∈ (sweep nodes es absorb data).order ↔ w ∈ nodes ∧ Acc (Before es) w := by
  have hinv : Inv nodes es ((visit es absorb)^[nodes.length] (begin nodes es data)) :=
    inv_sweep data hnodes (fun e he => (hes e he).2) _
  have hempty : (sweep nodes es absorb data).sources = [] := sources_sweep data hnodes hes
  rw [sweep] at hempty ⊢
  constructor
  · intro hw
    exact ⟨((hinv.mem_iff w).mp (List.mem_append_right _ hw)).1,hinv.sound w hw⟩
  · rintro ⟨hw,hacc⟩
    induction hacc with
    | intro w _ ih =>
      have hzero : es.countP (fun e => e.1 ∉ ((visit es absorb)^[nodes.length] (begin nodes es data)).order ∧
          e.2 = w) = 0 := by
        refine List.countP_eq_zero.mpr fun e he => ?_
        by_cases hew : e.2 = w
        · subst hew
          simpa using ih e.1 he (hes e he).1
        · simp [hew]
      have hmem := (hinv.mem_iff w).mpr ⟨hw,by rw [hinv.indegree,hzero]; rfl⟩
      rwa [hempty,List.nil_append] at hmem

theorem data_induction {P : List α → S → Prop} (hbegin : P [] data)
    (hvisit : ∀ order (us : List α) v p, v ∈ nodes → v ∉ order → order.Nodup → (∀ u ∈ us, u ∈ order) →
      P order p → P (order++[v]) (us.foldl (absorb v) p)) :
    P (sweep nodes es absorb data).order (sweep nodes es absorb data).data := by
  rw [sweep]
  induction nodes.length with
  | zero => exact hbegin
  | succ k ih =>
    have hinv : Inv nodes es ((visit es absorb)^[k] (begin nodes es data)) :=
      inv_sweep data hnodes (fun e he => (hes e he).2) k
    rw [Function.iterate_succ_apply']
    generalize (visit es absorb)^[k] (begin nodes es data) = s at ih hinv
    rw [visit]
    split
    · exact ih
    next v rest hsources =>
    have hmem : v ∈ s.sources := hsources ▸ List.mem_cons_self
    obtain ⟨-,hnodup,hapart⟩ := List.nodup_append.mp hinv.fresh
    rw [order_foldl,data_foldl]
    exact hvisit _ _ _ _ ((hinv.mem_iff v).mp (List.mem_append_left _ hmem)).1
      (fun hold => hapart v hmem v hold rfl) hnodup (fun u hu => hinv.ins v u (List.mem_reverse.mp hu)) ih

end End

end MinimaxCode.TopologicalSweep
