import Mathlib.Algebra.GroupWithZero.Nat
import Mathlib.Data.List.Basic

/-!
# Words between separators

The elements for which a predicate holds divide a list into words. An edit inside a word
changes this word and leaves the others and the separators as they are, so the words that
differ behind several edits tell where the edits were made.
-/

namespace MinimaxCode.Words

variable {α : Type*} {p : α → Bool} {a b xs w : List α} {ws : List (List α)} {ss : List α}

/-- Words and separators in turn. -/
def weave : List (List α) → List α → List α
  | [], _ => []
  | w::_, [] => w
  | w::ws, s::ss => w++s::weave ws ss

/-- Where the word with an index begins. -/
def start (ws : List (List α)) (j : ℕ) : ℕ := ((ws.take j).map List.length).sum+j

/-- The words with these indices are replaced. -/
def replaceWords (p : α → Bool) (sites : List ℕ) (new xs : List α) : List α :=
  weave ((xs.splitOnP p).mapIdx fun j w => if j ∈ sites then new else w) (xs.filter p)

theorem weave_cons {x : α} (h : ws ≠ []) : weave (ws.modifyHead (List.cons x)) ss = x::weave ws ss := by
  cases ws with
  | nil => exact absurd rfl h
  | cons w ws => cases ss <;> rfl

theorem weave_splitOnP (p : α → Bool) (xs : List α) : weave (xs.splitOnP p) (xs.filter p) = xs := by
  induction xs with
  | nil => simp [weave]
  | cons x xs ih =>
    rw [List.splitOnP_cons_eq_if_modifyHead]
    cases hx : p x with
    | true =>
      rw [if_pos rfl,List.filter_cons_of_pos hx,weave,ih,List.nil_append]
    | false =>
      rw [if_neg (by simp),List.filter_cons_of_neg (by simp [hx]),
        weave_cons (List.splitOnP_ne_nil p xs),ih]

theorem sep_of_mem_splitOnP (h : w ∈ xs.splitOnP p) {x : α} (hx : x ∈ w) : p x = false := by
  induction xs generalizing w with
  | nil =>
    rw [List.splitOnP_nil,List.mem_singleton] at h
    simp [h] at hx
  | cons c xs ih =>
    rw [List.splitOnP_cons_eq_if_modifyHead] at h
    cases hc : p c with
    | true =>
      rw [hc,if_pos rfl] at h
      rcases List.mem_cons.mp h with rfl | h
      · cases hx
      · exact ih h hx
    | false =>
      rw [hc,if_neg (by simp)] at h
      obtain ⟨v,vs,hvs⟩ := List.exists_cons_of_ne_nil (List.splitOnP_ne_nil p xs)
      rw [hvs,List.modifyHead_cons] at h
      rcases List.mem_cons.mp h with rfl | h
      · rcases List.mem_cons.mp hx with rfl | hx
        · exact hc
        · exact ih (hvs ▸ List.mem_cons_self) hx
      · exact ih (hvs ▸ List.mem_cons_of_mem v h) hx

theorem splitOnP_weave (hws : ∀ w ∈ ws, ∀ x ∈ w, p x = false) (hss : ∀ s ∈ ss, p s = true)
    (hlength : ws.length = ss.length+1) :
    (weave ws ss).splitOnP p = ws ∧ (weave ws ss).filter p = ss := by
  induction ss generalizing ws with
  | nil =>
    obtain ⟨w,rfl⟩ := List.length_eq_one_iff.mp hlength
    have hw := hws w List.mem_cons_self
    refine ⟨List.splitOnP_eq_singleton hw,?_⟩
    rw [weave,List.filter_eq_nil_iff]
    exact fun x hx => by simp [hw x hx]
  | cons s ss ih =>
    cases ws with
    | nil => simp at hlength
    | cons w ws =>
      have hw := hws w List.mem_cons_self
      obtain ⟨hsplit,hfilter⟩ := ih (fun v hv => hws v (List.mem_cons_of_mem w hv))
        (fun t ht => hss t (List.mem_cons_of_mem s ht)) (by simpa using hlength)
      have hs := hss s List.mem_cons_self
      rw [weave,List.splitOnP_append_cons_of_forall_mem hw s hs,hsplit,List.filter_append,
        List.filter_cons_of_pos hs,hfilter]
      refine ⟨rfl,?_⟩
      rw [List.filter_eq_nil_iff.mpr fun x hx => by simp [hw x hx],List.nil_append]

theorem length_splitOnP (p : α → Bool) (xs : List α) :
    (xs.splitOnP p).length = (xs.filter p).length+1 := by
  induction xs with
  | nil => simp
  | cons x xs ih =>
    rw [List.splitOnP_cons_eq_if_modifyHead]
    cases hx : p x <;> simp [hx,ih]

theorem splitOnP_snoc (p : α → Bool) (a : List α) :
    ∃ ws x, a.splitOnP p = ws++[x] ∧ ws.length = (a.filter p).length := by
  have hne := List.splitOnP_ne_nil p a
  refine ⟨(a.splitOnP p).dropLast,(a.splitOnP p).getLast hne,(List.dropLast_append_getLast hne).symm,?_⟩
  rw [List.length_dropLast,length_splitOnP,Nat.add_sub_cancel]

theorem splitOnP_append {as bs : List (List α)} {x y : List α} (ha : a.splitOnP p = as++[x])
    (hb : b.splitOnP p = y::bs) : (a++b).splitOnP p = as++(x++y)::bs := by
  induction a generalizing as x with
  | nil =>
    rw [List.splitOnP_nil] at ha
    obtain ⟨rfl,rfl⟩ : as = [] ∧ x = [] := by
      cases as with
      | nil => simpa using ha.symm
      | cons v as => simp at ha
    exact hb
  | cons c a ih =>
    rw [List.cons_append,List.splitOnP_cons_eq_if_modifyHead]
    rw [List.splitOnP_cons_eq_if_modifyHead] at ha
    obtain ⟨vs,z,hvs,-⟩ := splitOnP_snoc p a
    rw [ih hvs]
    rw [hvs] at ha
    cases hc : p c with
    | true =>
      rw [hc,if_pos rfl,← List.cons_append] at ha
      obtain ⟨rfl,hx⟩ := List.append_inj' ha rfl
      obtain rfl := List.cons.inj hx |>.1
      rfl
    | false =>
      rw [hc,if_neg (by simp)] at ha
      rw [if_neg (by simp)]
      cases vs with
      | nil =>
        obtain ⟨rfl,rfl⟩ : as = [] ∧ x = c::z := by
          cases as with
          | nil => simpa using ha.symm
          | cons v as => simp at ha
        rfl
      | cons v vs =>
        rw [List.cons_append,List.modifyHead_cons,← List.cons_append] at ha
        obtain ⟨rfl,hx⟩ := List.append_inj' ha rfl
        obtain rfl := List.cons.inj hx |>.1
        rfl

theorem splitOnP_inside (p : α → Bool) (a b : List α) : ∃ as x y bs,
    a.splitOnP p = as++[x] ∧ as.length = (a.filter p).length ∧
    ∀ w : List α, (∀ c ∈ w, p c = false) → (a++w++b).splitOnP p = as++(x++w++y)::bs := by
  obtain ⟨as,x,ha,hlength⟩ := splitOnP_snoc p a
  obtain ⟨y,bs,hb⟩ := List.exists_cons_of_ne_nil (List.splitOnP_ne_nil p b)
  refine ⟨as,x,y,bs,ha,hlength,fun w hw => ?_⟩
  have hwb : (w++b).splitOnP p = (w++y)::bs := by
    have hsingle : w.splitOnP p = []++[w] := List.splitOnP_eq_singleton hw
    exact splitOnP_append hsingle hb
  rw [List.append_assoc,splitOnP_append ha hwb,List.append_assoc]

theorem start_succ {j : ℕ} (h : ws[j]? = some w) : start ws (j+1) = start ws j+w.length+1 := by
  rw [start,start,List.take_add_one,h]
  simp only [Option.toList_some,List.map_append,List.map_cons,List.map_nil,List.sum_append,
    List.sum_cons,List.sum_nil]
  omega

theorem start_le {j k : ℕ} (h : j ≤ k) : start ws j ≤ start ws k := by
  induction k with
  | zero =>
    obtain rfl := Nat.le_zero.mp h
    exact Nat.le_refl _
  | succ k ih =>
    rcases Nat.lt_or_eq_of_le h with hlt | rfl
    · refine Nat.le_trans (ih (Nat.le_of_lt_succ hlt)) ?_
      cases hw : ws[k]? with
      | some w => rw [start_succ hw]; omega
      | none =>
        have hlen := List.getElem?_eq_none_iff.mp hw
        rw [start,start,List.take_of_length_le hlen,List.take_of_length_le (by omega)]
        omega
    · exact Nat.le_refl _

theorem start_lt {j k : ℕ} (hw : ws[j]? = some w) (h : j < k) : start ws j+w.length < start ws k := by
  have hle := @start_le _ ws (j+1) k h
  rw [start_succ hw] at hle
  omega

theorem length_eq {as : List (List α)} {x : List α} (h : a.splitOnP p = as++[x])
    (hlength : as.length = (a.filter p).length) : a.length = start (as++[x]) as.length+x.length := by
  have hweave := weave_splitOnP p a
  rw [h] at hweave
  generalize a.filter p = ss at hweave hlength
  rw [← hweave,start,List.take_left]
  clear hweave h
  induction as generalizing ss with
  | nil =>
    obtain rfl := List.length_eq_zero_iff.mp hlength.symm
    simp [weave]
  | cons v as ih =>
    cases ss with
    | nil => simp at hlength
    | cons s ss =>
      have ih := ih ss (by simpa using hlength)
      rw [List.cons_append,weave,List.length_append,List.length_cons,ih]
      simp only [List.map_cons,List.sum_cons,List.length_cons]
      omega

theorem site_of_start {as bs : List (List α)} {x y : List α} {j : ℕ} (h : a.splitOnP p = as++[x])
    (hlength : as.length = (a.filter p).length) (hj : j < (as++(x++y)::bs).length)
    (hstart : a.length = start (as++(x++y)::bs) j) : j = as.length ∧ x = [] := by
  have ha := length_eq h hlength
  have hsame : start (as++[x]) as.length = start (as++(x++y)::bs) as.length := by
    rw [start,start,List.take_left,List.take_left]
  rw [hsame] at ha
  have hword : (as++(x++y)::bs)[as.length]? = some (x++y) := by simp
  rcases Nat.lt_trichotomy j as.length with hlt | rfl | hgt
  · have hw := List.getElem?_eq_getElem hj
    have hlt' := start_lt hw hlt
    omega
  · refine ⟨rfl,List.length_eq_zero_iff.mp ?_⟩
    omega
  · have hlt' := start_lt hword hgt
    rw [List.length_append] at hlt'
    omega

theorem splitOnP_replaceWords {sites : List ℕ} {new : List α} (hnew : ∀ c ∈ new, p c = false) :
    (replaceWords p sites new xs).splitOnP p =
        (xs.splitOnP p).mapIdx (fun j w => if j ∈ sites then new else w) ∧
      (replaceWords p sites new xs).filter p = xs.filter p := by
  refine splitOnP_weave ?_ (fun s hs => (List.mem_filter.mp hs).2) ?_
  · intro w hw x hx
    obtain ⟨j,hj,rfl⟩ := List.mem_mapIdx.mp hw
    split at hx
    · exact hnew x hx
    · exact sep_of_mem_splitOnP (List.getElem_mem hj) hx
  · rw [List.length_mapIdx,length_splitOnP]

theorem eq_of_splitOnP {ys : List α} (hwords : xs.splitOnP p = ys.splitOnP p)
    (hseps : xs.filter p = ys.filter p) : xs = ys := by
  rw [← weave_splitOnP p xs,hwords,hseps,weave_splitOnP]

end MinimaxCode.Words
