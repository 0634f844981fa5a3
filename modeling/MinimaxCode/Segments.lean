import Mathlib.Data.List.DropRight

/-!
# Segments of a list

A list is cut in front of each marked element: what stands before the first mark, then
one segment for each mark. The same cuts are found by a scan that keeps the place where
the running segment began.
-/

namespace MinimaxCode.Segments

variable {α : Type*}

/-- What stands before the first mark, and the segments behind it. -/
def cut (p : α → Bool) : List α → List α × List (List α)
  | [] => ([],[])
  | a::rest =>
    if p a then ([],(a::(cut p rest).1)::(cut p rest).2) else (a::(cut p rest).1,(cut p rest).2)

theorem cut_cons (p : α → Bool) (a : α) (rest : List α) : cut p (a::rest) =
    if p a then ([],(a::(cut p rest).1)::(cut p rest).2) else (a::(cut p rest).1,(cut p rest).2) := rfl

/-- The elements before the first mark. -/
def lead (p : α → Bool) (xs : List α) : List α := (cut p xs).1

/-- One segment for each mark. -/
def segments (p : α → Bool) (xs : List α) : List (List α) := (cut p xs).2

variable {p : α → Bool} {a : α} {xs ys : List α}

@[simp] theorem lead_nil : lead p [] = [] := rfl

@[simp] theorem segments_nil : segments p [] = [] := rfl

theorem lead_cons_pos (h : p a = true) : lead p (a::xs) = [] := by simp [lead,cut_cons,h]

theorem lead_cons_neg (h : p a = false) : lead p (a::xs) = a::lead p xs := by simp [lead,cut_cons,h]

theorem segments_cons_pos (h : p a = true) :
    segments p (a::xs) = (a::lead p xs)::segments p xs := by
  simp [lead,segments,cut_cons,h]

theorem segments_cons_neg (h : p a = false) : segments p (a::xs) = segments p xs := by
  simp [segments,cut_cons,h]

theorem lead_append_flatten (p : α → Bool) (xs : List α) : lead p xs++(segments p xs).flatten = xs := by
  induction xs with
  | nil => rfl
  | cons a rest ih =>
    cases h : p a with
    | true => rw [lead_cons_pos h,segments_cons_pos h,List.flatten_cons,List.nil_append,List.cons_append,ih]
    | false => rw [lead_cons_neg h,segments_cons_neg h,List.cons_append,ih]

theorem not_mark_of_mem_lead (h : a ∈ lead p xs) : p a = false := by
  induction xs with
  | nil => cases h
  | cons b rest ih =>
    cases hb : p b with
    | true =>
      rw [lead_cons_pos hb] at h
      cases h
    | false =>
      rw [lead_cons_neg hb] at h
      cases h with
      | head => exact hb
      | tail _ h => exact ih h

theorem length_segments (p : α → Bool) (xs : List α) : (segments p xs).length = xs.countP p := by
  induction xs with
  | nil => rfl
  | cons a rest ih =>
    cases h : p a with
    | true => rw [segments_cons_pos h,List.length_cons,ih,List.countP_cons_of_pos h]
    | false => rw [segments_cons_neg h,ih,List.countP_cons_of_neg (by simp [h])]

theorem segment_eq_cons {s : List α} (h : s ∈ segments p xs) : ∃ a tail, s = a::tail ∧ p a = true := by
  induction xs with
  | nil => cases h
  | cons b rest ih =>
    cases hb : p b with
    | true =>
      rw [segments_cons_pos hb] at h
      cases h with
      | head => exact ⟨b,_,rfl,hb⟩
      | tail _ h => exact ih h
    | false =>
      rw [segments_cons_neg hb] at h
      exact ih h

theorem lead_eq_nil_iff : lead p xs = [] ↔ ∀ b, xs.head? = some b → p b = true := by
  cases xs with
  | nil => simp
  | cons b rest =>
    cases hb : p b with
    | true => simp [lead_cons_pos hb,hb]
    | false => simp [lead_cons_neg hb,hb]

/-- `xs[i:j]`. -/
def slice (xs : List α) (span : ℕ × ℕ) : List α := (xs.take span.2).drop span.1

/-- The spans found by a scan that is at place `i` and began the running span at `start`. -/
def spansFrom (p : α → Bool) : ℕ → Option ℕ → List α → List (ℕ × ℕ)
  | i, start, [] => (start.map fun s => (s,i)).toList
  | i, start, a::rest =>
    if p a then (start.map fun s => (s,i)).toList++spansFrom p (i+1) (some i) rest
    else spansFrom p (i+1) start rest

variable {pre : List α} {s i : ℕ}

theorem map_slice_spansFrom (h : s ≤ pre.length) :
    (spansFrom p pre.length (some s) xs).map (slice (pre++xs)) =
      (pre.drop s++lead p xs)::segments p xs ∧
    (spansFrom p pre.length none xs).map (slice (pre++xs)) = segments p xs := by
  induction xs generalizing pre s with
  | nil =>
    simp [spansFrom,slice]
  | cons a rest ih =>
    have hlength : pre.length+1 = (pre++[a]).length := by simp
    have hmove : pre++a::rest = (pre++[a])++rest := by simp
    cases ha : p a with
    | true =>
      have hdrop : (pre++[a]).drop pre.length = [a] := List.drop_left
      have hbegin : pre.length ≤ (pre++[a]).length := by simp
      have hrun := (ih hbegin).1
      rw [hdrop,← hlength,← hmove] at hrun
      simp [spansFrom,ha,hrun,slice,lead_cons_pos ha,segments_cons_pos ha]
    | false =>
      have hbegin : s ≤ (pre++[a]).length := by simp; omega
      obtain ⟨hrun,hnone⟩ := ih hbegin
      rw [← hlength,← hmove] at hrun hnone
      rw [List.drop_append_of_le_length h] at hrun
      simp [spansFrom,ha,hrun,hnone,lead_cons_neg ha,segments_cons_neg ha]

theorem drop_spansFrom (h : s ≤ pre.length) :
    (∀ n b, (spansFrom p pre.length (some s) xs)[n]? = some b →
      (pre++xs).drop b.1 = (((pre.drop s++lead p xs)::segments p xs).drop n).flatten) ∧
    ∀ n b, (spansFrom p pre.length none xs)[n]? = some b →
      (pre++xs).drop b.1 = ((segments p xs).drop n).flatten := by
  induction xs generalizing pre s with
  | nil =>
    refine ⟨fun n b hb => ?_,fun n b hb => by simp [spansFrom] at hb⟩
    cases n with
    | zero =>
      simp only [spansFrom,Option.map_some,Option.toList_some,List.getElem?_cons_zero,Option.some.injEq] at hb
      subst hb
      simp
    | succ n => simp [spansFrom] at hb
  | cons a rest ih =>
    have hlength : pre.length+1 = (pre++[a]).length := by simp
    have hmove : pre++a::rest = (pre++[a])++rest := by simp
    cases ha : p a with
    | true =>
      have hdrop : (pre++[a]).drop pre.length = [a] := List.drop_left
      have hbegin : pre.length ≤ (pre++[a]).length := by simp
      have hrun := (ih hbegin).1
      rw [hdrop,← hlength,← hmove] at hrun
      rw [lead_cons_pos ha,segments_cons_pos ha]
      refine ⟨fun n b hb => ?_,fun n b hb => ?_⟩
      · cases n with
        | zero =>
          simp only [spansFrom,ha,if_true,Option.map_some,Option.toList_some,List.cons_append,
            List.getElem?_cons_zero,Option.some.injEq] at hb
          subst hb
          have hall := lead_append_flatten p rest
          simp [List.drop_append_of_le_length h,hall]
        | succ n =>
          simp only [spansFrom,ha,if_true,Option.map_some,Option.toList_some,List.cons_append,
            List.nil_append,List.getElem?_cons_succ] at hb
          exact hrun n b hb
      · simp only [spansFrom,ha,if_true,Option.map_none,Option.toList_none,List.nil_append] at hb
        exact hrun n b hb
    | false =>
      have hbegin : s ≤ (pre++[a]).length := by simp; omega
      obtain ⟨hrun,hnone⟩ := ih hbegin
      rw [← hlength,← hmove] at hrun hnone
      rw [List.drop_append_of_le_length h] at hrun
      simp only [spansFrom,ha,Bool.false_eq_true,if_false,lead_cons_neg ha,segments_cons_neg ha]
      exact ⟨fun n b hb => by simpa using hrun n b hb,hnone⟩

theorem map_slice_spans (p : α → Bool) (xs : List α) :
    (spansFrom p 0 none xs).map (slice xs) = segments p xs :=
  (map_slice_spansFrom (Nat.le_refl ([] : List α).length)).2

theorem drop_spans {n : ℕ} {b : ℕ × ℕ} (h : (spansFrom p 0 none xs)[n]? = some b) :
    xs.drop b.1 = ((segments p xs).drop n).flatten :=
  (drop_spansFrom (Nat.le_refl ([] : List α).length)).2 n b h

end MinimaxCode.Segments
