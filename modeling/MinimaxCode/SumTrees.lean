import Mathlib.Algebra.BigOperators.Group.List.Basic
import Mathlib.Algebra.BigOperators.Ring.List
import Mathlib.Data.Nat.Log
import Mathlib.Tactic.Abel

/-!
# Sums over a complete binary tree

The leaves of a complete binary tree of depth `d` are numbered from `2^d` on and its root is
number one, so that the number of a parent is half of that of a child. The leaves to the
right of a leaf lie below the right siblings of the left children on the way up from it.
-/

namespace MinimaxCode.SumTrees

variable {R : Type*} {L d h : ℕ}

/-- How far above the leaves a node is. -/
def height (d I : ℕ) : ℕ := d-Nat.log 2 I

/-- The number is that of a leaf. -/
def IsLeaf (d L : ℕ) : Prop := 2^d ≤ L ∧ L < 2^(d+1)

theorem log_ancestor (hL : IsLeaf d L) (hh : h ≤ d) : Nat.log 2 (L/2^h) = d-h := by
  refine Nat.log_eq_of_pow_le_of_lt_pow ?_ ?_
  · rw [Nat.le_div_iff_mul_le (Nat.two_pow_pos h),← Nat.pow_add,Nat.sub_add_cancel hh]
    exact hL.1
  · rw [Nat.div_lt_iff_lt_mul (Nat.two_pow_pos h),← Nat.pow_add]
    have hd : d-h+1+h = d+1 := by omega
    rw [hd]
    exact hL.2

theorem height_ancestor (hL : IsLeaf d L) (hh : h ≤ d) : height d (L/2^h) = h := by
  rw [height,log_ancestor hL hh]
  omega

theorem ancestor_pos (hL : IsLeaf d L) (hh : h ≤ d) : 0 < L/2^h := by
  refine Nat.div_pos ?_ (Nat.two_pow_pos h)
  exact Nat.le_trans (Nat.pow_le_pow_right Nat.two_pos hh) hL.1

theorem ancestor_lt (hL : IsLeaf d L) : L/2^h < 2^(d+1) :=
  Nat.lt_of_le_of_lt (Nat.div_le_self L _) hL.2

theorem ancestor_top (hL : IsLeaf d L) : L/2^d = 1 := by
  refine Nat.div_eq_of_lt_le ?_ ?_
  · rw [Nat.one_mul]
    exact hL.1
  · rw [← Nat.pow_succ']
    exact hL.2

theorem height_sibling (hL : IsLeaf d L) (hh : h < d) (heven : (L/2^h)%2 = 0) :
    height d (L/2^h+1) = h := by
  have hlog := log_ancestor hL (Nat.le_of_lt hh)
  have hpos := ancestor_pos hL (Nat.le_of_lt hh)
  have hbelow := Nat.lt_pow_succ_log_self Nat.one_lt_two (L/2^h)
  have hodd : L/2^h+1 ≠ 2^(Nat.log 2 (L/2^h)+1) := by
    rw [Nat.pow_succ]
    omega
  have hsib : Nat.log 2 (L/2^h+1) = d-h := by
    rw [← hlog]
    refine Nat.log_eq_of_pow_le_of_lt_pow ?_ (by omega)
    exact Nat.le_succ_of_le (Nat.pow_log_le_self 2 (Nat.pos_iff_ne_zero.mp hpos))
  rw [height,hsib]
  omega

theorem ancestor_succ (L h : ℕ) : L/2^(h+1) = L/2^h/2 := by
  rw [Nat.pow_succ,Nat.div_div_eq_div_mul]

section Monoids

variable [AddCommMonoid R]

/-- The items below a node. -/
def under (d : ℕ) (items : List (ℕ × R)) (I : ℕ) : R :=
  (items.map fun item => if item.1/2^height d I = I then item.2 else 0).sum

/-- The items to the right of a leaf that have the same ancestor at the height. -/
def laterWithin (items : List (ℕ × R)) (L h : ℕ) : R :=
  (items.map fun item => if L < item.1 ∧ item.1/2^h = L/2^h then item.2 else 0).sum

theorem laterWithin_zero (items : List (ℕ × R)) (L : ℕ) : laterWithin items L 0 = 0 := by
  refine List.sum_eq_zero fun x hx => ?_
  obtain ⟨item,-,rfl⟩ := List.mem_map.mp hx
  refine if_neg fun h => ?_
  rw [Nat.pow_zero,Nat.div_one,Nat.div_one] at h
  omega

theorem within_succ (L l h : ℕ) : (L < l ∧ l/2^(h+1) = L/2^(h+1)) ↔
    (L < l ∧ l/2^h = L/2^h) ∨ ((L/2^h)%2 = 0 ∧ l/2^h = L/2^h+1) := by
  rw [ancestor_succ,ancestor_succ]
  have hle : L < l → L/2^h ≤ l/2^h := fun hlt => Nat.div_le_div_right (Nat.le_of_lt hlt)
  have hlt : L/2^h < l/2^h → L < l := Nat.lt_of_div_lt_div
  omega

theorem laterWithin_succ {d L h : ℕ} (items : List (ℕ × R)) (hL : IsLeaf d L) (hh : h < d) :
    laterWithin items L (h+1) =
      laterWithin items L h+if (L/2^h)%2 = 0 then under d items (L/2^h+1) else 0 := by
  have hsum : laterWithin items L (h+1) = laterWithin items L h+
      (items.map fun item =>
        if (L/2^h)%2 = 0 ∧ item.1/2^h = L/2^h+1 then item.2 else 0).sum := by
    rw [laterWithin,laterWithin,← List.sum_map_add]
    refine congrArg List.sum (List.map_congr_left fun item _ => ?_)
    simp only [within_succ L item.1 h]
    by_cases hold : L < item.1 ∧ item.1/2^h = L/2^h
    · have hnew : ¬ ((L/2^h)%2 = 0 ∧ item.1/2^h = L/2^h+1) := by omega
      rw [if_pos (.inl hold),if_pos hold,if_neg hnew,add_zero]
    · by_cases hnew : (L/2^h)%2 = 0 ∧ item.1/2^h = L/2^h+1
      · rw [if_pos (.inr hnew),if_neg hold,if_pos hnew,zero_add]
      · rw [if_neg (not_or.mpr ⟨hold,hnew⟩),if_neg hold,if_neg hnew,add_zero]
  rw [hsum]
  by_cases heven : (L/2^h)%2 = 0
  · rw [if_pos heven,under,height_sibling hL hh heven]
    simp only [heven,true_and]
  · rw [if_neg heven]
    simp only [heven,false_and,if_false]
    rw [List.map_const',List.sum_replicate,nsmul_zero]

theorem laterWithin_top {d L : ℕ} (items : List (ℕ × R)) (hL : IsLeaf d L)
    (hitems : ∀ item ∈ items, IsLeaf d item.1) :
    laterWithin items L d = (items.map fun item => if L < item.1 then item.2 else 0).sum := by
  refine congrArg List.sum (List.map_congr_left fun item hitem => ?_)
  rw [ancestor_top hL,ancestor_top (hitems item hitem)]
  simp only [and_true]

variable {α β : Type*} {f f' : α → α → R} {l m : List α}

/-- The sum over the pairs of an item and a later one. -/
def pairSum (f : α → α → R) : List α → R
  | [] => 0
  | a::l => (l.map (f a)).sum+pairSum f l

/-- The sum over the pairs of an item of one list and one of another. -/
def crossSum (f : α → α → R) (l m : List α) : R := (l.map fun a => (m.map (f a)).sum).sum

theorem crossSum_append_left (f : α → α → R) (l l' m : List α) :
    crossSum f (l++l') m = crossSum f l m+crossSum f l' m := by
  rw [crossSum,List.map_append,List.sum_append]
  rfl

theorem crossSum_append_right (f : α → α → R) (l m m' : List α) :
    crossSum f l (m++m') = crossSum f l m+crossSum f l m' := by
  rw [crossSum,crossSum,crossSum,← List.sum_map_add]
  refine congrArg List.sum (List.map_congr_left fun a _ => ?_)
  rw [List.map_append,List.sum_append]

theorem crossSum_perm {l l' m m' : List α} (hl : l.Perm l') (hm : m.Perm m') :
    crossSum f l m = crossSum f l' m' := by
  have hright : (fun a => (m.map (f a)).sum) = fun a => (m'.map (f a)).sum := by
    funext a
    exact (hm.map (f a)).sum_eq
  rw [crossSum,crossSum,hright]
  exact (hl.map _).sum_eq

theorem crossSum_congr (h : ∀ a ∈ l, ∀ b ∈ m, f a b = f' a b) :
    crossSum f l m = crossSum f' l m := by
  refine congrArg List.sum (List.map_congr_left fun a ha => ?_)
  exact congrArg List.sum (List.map_congr_left (h a ha))

theorem crossSum_eq_zero (h : ∀ a ∈ l, ∀ b ∈ m, f a b = 0) : crossSum f l m = 0 := by
  refine List.sum_eq_zero fun x hx => ?_
  obtain ⟨a,ha,rfl⟩ := List.mem_map.mp hx
  refine List.sum_eq_zero fun y hy => ?_
  obtain ⟨b,hb,rfl⟩ := List.mem_map.mp hy
  exact h a ha b hb

theorem crossSum_nil_right (f : α → α → R) (l : List α) : crossSum f l [] = 0 :=
  crossSum_eq_zero fun _ _ _ hb => absurd hb List.not_mem_nil

theorem crossSum_flatMap_right (f : α → α → R) (g : β → List α) (l : List α) (m : List β) :
    crossSum f l (m.flatMap g) = (m.map fun c => crossSum f l (g c)).sum := by
  induction m with
  | nil => exact crossSum_nil_right f l
  | cons c m ih =>
    rw [List.flatMap_cons,crossSum_append_right,ih,List.map_cons,List.sum_cons]

theorem crossSum_flatMap (f : α → α → R) (g : β → List α) (l m : List β) :
    crossSum f (l.flatMap g) (m.flatMap g) = crossSum (fun b c => crossSum f (g b) (g c)) l m := by
  induction l with
  | nil => rfl
  | cons b l ih =>
    rw [List.flatMap_cons,crossSum_append_left,ih,crossSum_flatMap_right]
    rfl

theorem crossSum_filterMap (f : β → β → R) (g : α → Option β) (l m : List α) :
    crossSum f (l.filterMap g) (m.filterMap g) =
      crossSum (fun a b => ((g a).bind fun x => (g b).map (f x)).getD 0) l m := by
  have hsum : ∀ (h : β → R) (k : List α),
      ((k.filterMap g).map h).sum = (k.map fun a => ((g a).map h).getD 0).sum := by
    intro h k
    induction k with
    | nil => rfl
    | cons a k ih =>
      rw [List.filterMap_cons,List.map_cons,List.sum_cons]
      cases hg : g a with
      | none =>
        dsimp only
        rw [ih,Option.map_none,Option.getD_none,zero_add]
      | some x =>
        dsimp only
        rw [List.map_cons,List.sum_cons,ih]
        rfl
  rw [crossSum,hsum,crossSum]
  refine congrArg List.sum (List.map_congr_left fun a _ => ?_)
  cases g a with
  | none =>
    rw [Option.map_none,Option.getD_none]
    refine (List.sum_eq_zero fun x hx => ?_).symm
    obtain ⟨b,-,rfl⟩ := List.mem_map.mp hx
    rfl
  | some x => exact hsum (f x) m

theorem crossSum_filter (f : α → α → R) (p : α → Bool) (l m : List α) :
    crossSum f (l.filter p) (m.filter p) =
      crossSum (fun a b => if p a ∧ p b then f a b else 0) l m := by
  have hmap : ∀ k : List α, k.filter p = k.filterMap fun a => if p a then some a else none := by
    intro k
    rw [← List.filterMap_eq_filter]
    rfl
  rw [hmap,hmap,crossSum_filterMap]
  refine crossSum_congr fun a _ b _ => ?_
  by_cases ha : p a
  · by_cases hb : p b <;> simp [ha,hb]
  · simp [ha]

theorem pairSum_append (f : α → α → R) (l m : List α) :
    pairSum f (l++m) = pairSum f l+crossSum f l m+pairSum f m := by
  induction l with
  | nil => rw [List.nil_append,pairSum,crossSum,List.map_nil,List.sum_nil,zero_add,zero_add]
  | cons a l ih =>
    rw [List.cons_append,pairSum,pairSum,ih,List.map_append,List.sum_append,crossSum,crossSum,
      List.map_cons,List.sum_cons]
    abel

theorem pairSum_eq_zero (h : l.Pairwise fun a b => f a b = 0) : pairSum f l = 0 := by
  induction h with
  | nil => rfl
  | @cons a l ha _ ih =>
    rw [pairSum,ih,add_zero]
    refine List.sum_eq_zero fun x hx => ?_
    obtain ⟨b,hb,rfl⟩ := List.mem_map.mp hx
    exact ha b hb

theorem pairSum_flatMap {g : β → List α} (h : ∀ b, pairSum f (g b) = 0) (l : List β) :
    pairSum f (l.flatMap g) = pairSum (fun b c => crossSum f (g b) (g c)) l := by
  induction l with
  | nil => rfl
  | cons b l ih =>
    rw [List.flatMap_cons,pairSum_append,h,ih,zero_add,crossSum_flatMap_right,pairSum]

theorem pairSum_eq_crossSum [BEq α] [LawfulBEq α] (h : l.Nodup) :
    pairSum f l = crossSum (fun a b => if l.idxOf a < l.idxOf b then f a b else 0) l l := by
  induction l with
  | nil => rfl
  | cons a l ih =>
    obtain ⟨ha,hl⟩ := List.nodup_cons.mp h
    have hne : ∀ b ∈ l, a ≠ b := fun b hb he => ha (he ▸ hb)
    have hhead : (((a::l).map fun b =>
        if (a::l).idxOf a < (a::l).idxOf b then f a b else 0)).sum = (l.map (f a)).sum := by
      rw [List.map_cons,List.sum_cons,if_neg (Nat.lt_irrefl _),zero_add]
      refine congrArg List.sum (List.map_congr_left fun b hb => ?_)
      rw [List.idxOf_cons_self,List.idxOf_cons_ne _ (hne b hb)]
      exact if_pos (Nat.succ_pos _)
    have htail : ∀ b ∈ l, ((a::l).map fun c =>
        if (a::l).idxOf b < (a::l).idxOf c then f b c else 0).sum =
          (l.map fun c => if l.idxOf b < l.idxOf c then f b c else 0).sum := by
      intro b hb
      rw [List.map_cons,List.sum_cons,List.idxOf_cons_self,if_neg (Nat.not_lt_zero _),zero_add]
      refine congrArg List.sum (List.map_congr_left fun c hc => ?_)
      rw [List.idxOf_cons_ne _ (hne b hb),List.idxOf_cons_ne _ (hne c hc)]
      simp only [Nat.succ_lt_succ_iff]
    rw [pairSum,ih hl,crossSum,crossSum,List.map_cons,List.sum_cons,hhead]
    exact congrArg _ (congrArg List.sum (List.map_congr_left htail).symm)

end Monoids

end MinimaxCode.SumTrees
