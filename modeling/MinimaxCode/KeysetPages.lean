import Mathlib.Data.List.Sort
import Mathlib.Order.Basic

/-!
# Pages below a key

A list with falling keys is read in pages. A page holds the first elements whose keys lie
below a cursor, and the key of its last element is the next cursor. The pages make up the
whole list exactly when the key falls strictly from the last element of a full page to the
element after it.
-/

namespace MinimaxCode.KeysetPages

variable {α κ : Type*} [LinearOrder κ] (key : α → κ) (limit : ℕ)

/-- What lies below a cursor. -/
def below (before : Option κ) (xs : List α) : List α := xs.filter fun x => before.all (key x < ·)

def page (before : Option κ) (xs : List α) : List α := (below key before xs).take limit

/-- The pages read from a cursor on, up to the first empty one. -/
inductive Walk (xs : List α) : Option κ → List (List α) → Prop
  | stop {before : Option κ} (h : page key limit before xs = []) : Walk xs before []
  | next {before : Option κ} {last : α} {pages : List (List α)}
      (hlast : (page key limit before xs).getLast? = some last)
      (hrest : Walk xs (some (key last)) pages) :
      Walk xs before (page key limit before xs::pages)

/-- The key falls strictly behind every full page. -/
def Clean (xs : List α) : Prop :=
  ∀ i x y, limit ∣ i+1 → xs[i]? = some x → xs[i+1]? = some y → key y < key x

variable {key limit} {xs : List α} {before : Option κ} {pages : List (List α)}

@[simp] theorem mem_below {x : α} :
    x ∈ below key before xs ↔ x ∈ xs ∧ ∀ b ∈ before, key x < b := by
  cases before <;> simp [below]

@[simp] theorem below_none : below key none xs = xs := by simp [below]

theorem below_below {c : κ} (h : ∀ b ∈ before, c ≤ b) :
    below key (some c) (below key before xs) = below key (some c) xs := by
  rw [below,below,List.filter_filter,below]
  refine List.filter_congr fun x _ => ?_
  cases before with
  | none => simp
  | some b =>
    have hc := h b rfl
    by_cases hx : key x < c
    · simp [hx,hx.trans_le hc]
    · simp [hx]

theorem mem_of_last {last : α} (h : (page key limit before xs).getLast? = some last) :
    last ∈ below key before xs :=
  List.mem_of_mem_take (List.mem_of_getLast? h)

theorem below_last {last : α} (h : (page key limit before xs).getLast? = some last) :
    below key (some (key last)) (below key before xs) = below key (some (key last)) xs :=
  below_below fun b hb => ((mem_below.mp (mem_of_last h)).2 b hb).le

theorem walk_exists (key : α → κ) (limit : ℕ) (xs : List α) (before : Option κ) :
    ∃ pages, Walk key limit xs before pages := by
  induction hn : (below key before xs).length using Nat.strong_induction_on generalizing before with
  | _ n ih =>
    cases hpage : (page key limit before xs).getLast? with
    | none => exact ⟨[],.stop (List.getLast?_eq_none_iff.mp hpage)⟩
    | some last =>
      have hless : (below key (some (key last)) xs).length < n := by
        rw [← hn,← below_last hpage]
        exact List.length_filter_lt_length_iff_exists.mpr ⟨last,mem_of_last hpage,by simp⟩
      obtain ⟨pages,hpages⟩ := ih _ hless (some (key last)) rfl
      exact ⟨_,.next hpage hpages⟩

theorem clean_iff_drop (hlimit : 0 < limit) : Clean key limit xs ↔
    (∀ x y, xs[limit-1]? = some x → xs[limit]? = some y → key y < key x) ∧
      Clean key limit (xs.drop limit) := by
  constructor
  · intro h
    refine ⟨fun x y hx hy => h (limit-1) x y ?_ hx ?_,fun i x y hi hx hy => ?_⟩
    · exact Nat.sub_add_cancel hlimit ▸ Nat.dvd_refl limit
    · rwa [Nat.sub_add_cancel hlimit]
    · rw [List.getElem?_drop] at hx hy
      exact h (limit+i) x y ((Nat.dvd_add_right (Nat.dvd_refl limit)).mpr hi) hx hy
  · rintro ⟨hcut,hdrop⟩ i x y hi hx hy
    by_cases hfirst : i+1 = limit
    · exact hcut x y (by rwa [← hfirst]) (by rwa [← hfirst])
    · have hle := Nat.le_of_dvd (Nat.succ_pos i) hi
      have hi' : limit ∣ i-limit+1 := by
        have := Nat.dvd_sub hi (Nat.dvd_refl limit)
        rwa [show i+1-limit = i-limit+1 by omega] at this
      refine hdrop (i-limit) x y hi' ?_ ?_
      · rwa [List.getElem?_drop,show limit+(i-limit) = i by omega]
      · rwa [List.getElem?_drop,show limit+(i-limit+1) = i+1 by omega]

theorem last_le {last : α} (hsorted : xs.Pairwise fun x y => key y ≤ key x)
    (hlast : xs.getLast? = some last) : ∀ x ∈ xs, key last ≤ key x := by
  obtain ⟨ys,rfl⟩ := List.getLast?_eq_some_iff.mp hlast
  intro x hx
  cases List.mem_append.mp hx with
  | inl hys => exact (List.pairwise_append.mp hsorted).2.2 x hys last (by simp)
  | inr hsame => rw [List.mem_singleton.mp hsame]

theorem last_of_take {last : α} (hlimit : 0 < limit) (hlast : (xs.take limit).getLast? = some last)
    (hmore : limit < xs.length) : xs[limit-1]? = some last := by
  rw [List.getLast?_take,if_neg (by omega),List.getElem?_eq_getElem (by omega)] at hlast
  rw [List.getElem?_eq_getElem (by omega)]
  simpa using hlast

section Step

variable {last : α} (hsorted : xs.Pairwise fun x y => key y ≤ key x)
  (hlast : (xs.take limit).getLast? = some last)

include hsorted hlast

theorem below_take :
    below key (some (key last)) xs = (xs.drop limit).filter fun x => key x < key last := by
  have hleast := last_le (hsorted.sublist (List.take_sublist limit xs)) hlast
  have hsplit := congrArg (below key (some (key last))) (List.take_append_drop limit xs)
  rw [← hsplit,below,List.filter_append]
  simpa using hleast

theorem below_eq_drop_iff (hlimit : 0 < limit) : below key (some (key last)) xs = xs.drop limit ↔
    ∀ x y, xs[limit-1]? = some x → xs[limit]? = some y → key y < key x := by
  rw [below_take hsorted hlast,List.filter_eq_self]
  constructor
  · intro h x y hx hy
    have hmore : limit < xs.length := by
      by_contra hshort
      rw [List.getElem?_eq_none (by omega)] at hy
      cases hy
    obtain rfl : last = x := Option.some.inj ((last_of_take hlimit hlast hmore).symm.trans hx)
    have hmem : y ∈ xs.drop limit := List.mem_of_getElem? (i := 0) (by simpa using hy)
    simpa using h y hmem
  · intro hcut y hy
    cases hrest : xs.drop limit with
    | nil => simp [hrest] at hy
    | cons first rest =>
      have hmore : limit < xs.length := by
        have hlen := congrArg List.length hrest
        simp only [List.length_drop,List.length_cons] at hlen
        omega
      have hfirst : xs[limit]? = some first := by
        simpa [hrest] using (@List.getElem?_drop _ xs limit 0).symm
      have hless := hcut last first (last_of_take hlimit hlast hmore) hfirst
      have hdrop := hsorted.sublist (List.drop_sublist limit xs)
      rw [hrest] at hy hdrop
      cases List.mem_cons.mp hy with
      | inl hsame => simpa [hsame] using hless
      | inr hy => simpa using ((List.pairwise_cons.mp hdrop).1 y hy).trans_lt hless

end Step

theorem walk_flatten (hlimit : 0 < limit) (hsorted : xs.Pairwise fun x y => key y ≤ key x)
    (h : Walk key limit xs before pages) : pages.flatten.Sublist (below key before xs) ∧
      (pages.flatten = below key before xs ↔ Clean key limit (below key before xs)) := by
  induction h with
  | @stop before hpage =>
    have hnil : below key before xs = [] := by simpa [page,hlimit.ne'] using hpage
    simp [hnil,Clean]
  | @next before last pages hlast hrest ih =>
    have hM : (below key before xs).Pairwise fun x y => key y ≤ key x :=
      hsorted.sublist List.filter_sublist
    have hnext := below_last hlast
    rw [← hnext] at ih
    have hdrop : (below key (some (key last)) (below key before xs)).Sublist
        ((below key before xs).drop limit) := by
      rw [below_take hM hlast]
      exact List.filter_sublist
    have hparts := List.take_append_drop limit (below key before xs)
    refine ⟨?_,?_⟩
    · conv_rhs => rw [← hparts]
      exact (ih.1.trans hdrop).append_left _
    · rw [clean_iff_drop hlimit,← below_eq_drop_iff hM hlast hlimit]
      have hsplit : (page key limit before xs::pages).flatten = below key before xs ↔
          pages.flatten = (below key before xs).drop limit := by
        conv_lhs => rw [← hparts]
        exact List.append_right_inj ((below key before xs).take limit)
      rw [hsplit]
      constructor
      · intro hall
        have hsame := hdrop.eq_of_length_le (by rw [← hall]; exact ih.1.length_le)
        exact ⟨hsame,hsame ▸ ih.2.mp (hall.trans hsame.symm)⟩
      · rintro ⟨hsame,hclean⟩
        rw [← hsame] at hclean ⊢
        exact ih.2.mpr hclean

/-- A stable sort by the key. -/
def sortByKey (key : α → κ) (xs : List α) : List α := xs.mergeSort fun x y => key x ≤ key y

theorem sortByKey_pairwise (key : α → κ) (xs : List α) :
    (sortByKey key xs).Pairwise fun x y => key x ≤ key y := by
  have hsorted := @List.pairwise_mergeSort _ (fun x y => decide (key x ≤ key y))
    (fun x y z hxy hyz => by simpa using (of_decide_eq_true hxy).trans (of_decide_eq_true hyz))
    (fun x y => by simpa using le_total (key x) (key y)) xs
  exact hsorted.imp of_decide_eq_true

theorem split_unique {a : α} {u u' v v' : List α} (h : u++v = u'++v')
    (hu : ∀ x ∈ u, key x < key a) (hu' : ∀ x ∈ u', key x < key a)
    (hv : ∀ x ∈ v, key a ≤ key x) (hv' : ∀ x ∈ v', key a ≤ key x) : u = u' ∧ v = v' := by
  have hfront : ∀ u v : List α, (∀ x ∈ u, key x < key a) → (∀ x ∈ v, key a ≤ key x) →
      (u++v).filter (fun x => key x < key a) = u := by
    intro u v hu hv
    rw [List.filter_append,List.filter_eq_self.mpr (by simpa using hu),
      List.filter_eq_nil_iff.mpr (by simpa using hv),List.append_nil]
  have hsame : u = u' := by rw [← hfront u v hu hv,h,hfront u' v' hu' hv']
  subst hsame
  exact ⟨rfl,List.append_cancel_left h⟩

theorem sortByKey_cons (key : α → κ) (a : α) (xs : List α) : ∃ u v, sortByKey key (a::xs) = u++a::v ∧
    sortByKey key xs = u++v ∧ (∀ x ∈ u, key x < key a) ∧ ∀ x ∈ v, key a ≤ key x := by
  obtain ⟨u,v,hcons,hxs,hu⟩ := @List.mergeSort_cons _ (fun x y => decide (key x ≤ key y))
    (fun x y z hxy hyz => by simpa using (of_decide_eq_true hxy).trans (of_decide_eq_true hyz))
    (fun x y => by simpa using le_total (key x) (key y)) a xs
  refine ⟨u,v,hcons,hxs,fun x hx => by simpa using hu x hx,?_⟩
  have hsorted := sortByKey_pairwise key (a::xs)
  rw [sortByKey,hcons] at hsorted
  exact (List.pairwise_cons.mp (List.pairwise_append.mp hsorted).2.1).1

theorem filter_sortByKey (p : α → Bool) (xs : List α) :
    sortByKey key (xs.filter p) = (sortByKey key xs).filter p := by
  induction xs with
  | nil => simp [sortByKey]
  | cons a xs ih =>
    obtain ⟨u,v,hcons,hxs,hu,hv⟩ := sortByKey_cons key a xs
    rw [hcons]
    rw [hxs,List.filter_append] at ih
    by_cases ha : p a
    · obtain ⟨u',v',hcons',hxs',hu',hv'⟩ := sortByKey_cons key a (xs.filter p)
      have hparts := split_unique (hxs'.symm.trans ih) hu'
        (fun x hx => hu x (List.mem_of_mem_filter hx)) hv'
        fun x hx => hv x (List.mem_of_mem_filter hx)
      simp [ha,hcons',hparts]
    · simp [ha,ih]

theorem below_sortByKey (before : Option κ) (xs : List α) :
    below key before (sortByKey key xs).reverse = (sortByKey key (below key before xs)).reverse := by
  rw [below,List.filter_reverse,← filter_sortByKey,below]

end MinimaxCode.KeysetPages
