import Mathlib.Data.List.Basic
import Mathlib.Data.List.Induction
import Mathlib.Order.Lattice
import Mathlib.Tactic.Common

/-!
# Sequenced logs and their rings

Entries numbered from one in the order of their arrival, and a ring that keeps the last
of them. What lies behind a cursor can be read off the ring as long as the cursor is not
further back than the ring reaches.
-/

namespace MinimaxCode.SequencedLog

variable {E : Type*}

structure Entry (E : Type*) where
  seq : ℕ
  payload : E
  deriving DecidableEq

/-- The entries are numbered from one. -/
def Numbered (log : List (Entry E)) : Prop := ∀ i e, log[i]? = some e → e.seq = i+1

/-- The last `r` entries. -/
def ring (r : ℕ) (log : List (Entry E)) : List (Entry E) := log.drop (log.length-r)

/-- A bounded queue of length `r` that drops its first entry when it is full. -/
def pushRing (r : ℕ) (h : List (Entry E)) (e : Entry E) : List (Entry E) :=
  (h++[e]).drop (h.length+1-r)

/-- The entries behind a cursor. -/
def after (cursor : ℕ) (h : List (Entry E)) : List (Entry E) := h.filter fun e => cursor < e.seq

theorem numbered_nil : Numbered ([] : List (Entry E)) := by simp [Numbered]

variable {log : List (Entry E)} {e : Entry E}

theorem Numbered.append (h : Numbered log) (p : E) :
    Numbered (log++[⟨log.length+1,p⟩]) := by
  intro i e he
  by_cases hi : i < log.length
  · rw [List.getElem?_append_left hi] at he
    exact h i e he
  · rw [List.getElem?_append_right (by omega)] at he
    obtain ⟨hlt,rfl⟩ := List.getElem?_eq_some_iff.mp he
    rw [List.length_singleton] at hlt
    have hlen : i = log.length := by omega
    simp [hlen]

theorem ring_append (r : ℕ) (log : List (Entry E)) (e : Entry E) :
    ring r (log++[e]) = pushRing r (ring r log) e := by
  have hlen : (ring r log).length = min r log.length := by
    simp only [ring,List.length_drop]
    omega
  have hdrop : ring r log++[e] = (log++[e]).drop (log.length-r) :=
    (List.drop_append_of_le_length (Nat.sub_le _ _)).symm
  have hcount : log.length+1-r = log.length-r+(min r log.length+1-r) := by omega
  rw [pushRing,hdrop,hlen,List.drop_drop,ring,List.length_append,List.length_singleton,hcount]

theorem seq_of_mem_drop (h : Numbered log) {m : ℕ}
    (he : e ∈ log.drop m) : m < e.seq := by
  obtain ⟨i,hi⟩ := List.mem_iff_getElem?.mp he
  rw [List.getElem?_drop] at hi
  have hseq := h _ _ hi
  omega

theorem seq_of_mem_take (h : Numbered log) {m : ℕ}
    (he : e ∈ log.take m) : e.seq ≤ m := by
  obtain ⟨i,hi⟩ := List.mem_iff_getElem?.mp he
  rw [List.getElem?_take] at hi
  split at hi
  · next hlt =>
    have hseq := h _ _ hi
    omega
  · simp at hi

theorem seq_le_of_mem (h : Numbered log) (he : e ∈ log) :
    e.seq ≤ log.length :=
  seq_of_mem_take h (by rwa [List.take_length])

theorem after_ring (h : Numbered log) {r cursor : ℕ}
    (hreach : log.length ≤ cursor+r) : after cursor (ring r log) = log.drop cursor := by
  have hzero : log.length-r-(log.take cursor).length = 0 := by
    rw [List.length_take]
    omega
  have hsplit : ring r log = (log.take cursor).drop (log.length-r)++log.drop cursor := by
    calc ring r log = (log.take cursor++log.drop cursor).drop (log.length-r) := by
          rw [List.take_append_drop,ring]
      _ = (log.take cursor).drop (log.length-r)++log.drop cursor := by
          rw [List.drop_append,hzero,List.drop_zero]
  have hold : after cursor ((log.take cursor).drop (log.length-r)) = [] := by
    rw [after,List.filter_eq_nil_iff]
    intro e he
    have hseq := seq_of_mem_take h (List.mem_of_mem_drop he)
    simpa using hseq
  have hnew : after cursor (log.drop cursor) = log.drop cursor := by
    rw [after,List.filter_eq_self]
    intro e he
    simpa using seq_of_mem_drop h he
  rw [hsplit,after,List.filter_append]
  exact (congrArg₂ (·++·) hold hnew).trans (List.nil_append _)

theorem ring_ring (r m : ℕ) (log : List (Entry E)) : ring r (ring m log) = ring (min r m) log := by
  rw [ring,ring,List.drop_drop,List.length_drop,ring]
  congr 1
  omega

theorem after_drop (h : Numbered log) (cursor k : ℕ) :
    after cursor (log.drop k) = log.drop (max cursor k) := by
  by_cases hk : cursor ≤ k
  · rw [max_eq_right hk,after,List.filter_eq_self]
    intro e he
    simpa using hk.trans_lt (seq_of_mem_drop h he)
  · have hle : k ≤ cursor := by omega
    have hreach : log.length ≤ cursor+(log.length-k) := by omega
    rw [max_eq_left hle]
    by_cases hlong : k ≤ log.length
    · have hring : ring (log.length-k) log = log.drop k := by
        rw [ring]
        congr 1
        omega
      rw [← hring,after_ring h hreach]
    · rw [List.drop_of_length_le (by omega),List.drop_of_length_le (by omega)]
      rfl

/-- The highest number seen. -/
def maxSeq (start : ℕ) (h : List (Entry E)) : ℕ := h.foldl (fun m e => max m e.seq) start

theorem maxSeq_append (start : ℕ) (h : List (Entry E)) (e : Entry E) :
    maxSeq start (h++[e]) = max (maxSeq start h) e.seq := by
  simp [maxSeq]

theorem maxSeq_le {start bound : ℕ} {h : List (Entry E)} (hstart : start ≤ bound)
    (hall : ∀ e ∈ h, e.seq ≤ bound) : maxSeq start h ≤ bound := by
  induction h using List.reverseRecOn with
  | nil => exact hstart
  | append_singleton h e ih =>
    rw [maxSeq_append]
    exact max_le (ih fun e he => hall e (List.mem_append_left _ he)) (hall e (by simp))

theorem start_le_maxSeq (start : ℕ) (h : List (Entry E)) : start ≤ maxSeq start h := by
  induction h using List.reverseRecOn with
  | nil => exact Nat.le_refl start
  | append_singleton h e ih =>
    rw [maxSeq_append]
    exact ih.trans (Nat.le_max_left _ _)

theorem le_maxSeq {start : ℕ} {h : List (Entry E)} (he : e ∈ h) :
    e.seq ≤ maxSeq start h := by
  induction h using List.reverseRecOn with
  | nil => cases he
  | append_singleton h last ih =>
    rw [maxSeq_append]
    cases List.mem_append.mp he with
    | inl hold => exact (ih hold).trans (Nat.le_max_left _ _)
    | inr hlast =>
      rw [List.mem_singleton.mp hlast]
      exact Nat.le_max_right _ _

theorem maxSeq_after (h : Numbered log) {start k : ℕ}
    (hstart : start ≤ log.length) (hk : k < log.length ∨ log = []) :
    maxSeq start (after start (log.drop k)) = log.length := by
  rw [after_drop h]
  refine Nat.le_antisymm (maxSeq_le hstart fun e he => seq_le_of_mem h (List.mem_of_mem_drop he)) ?_
  by_cases hnew : max start k < log.length
  · have hlt : log.length-1 < log.length := by omega
    have hlast : log[log.length-1]? = some log[log.length-1] := List.getElem?_eq_getElem hlt
    have hseq := h _ _ hlast
    have hmem : log[log.length-1] ∈ log.drop (max start k) := by
      refine List.mem_of_getElem? (i := log.length-1-max start k) ?_
      rw [List.getElem?_drop,← hlast]
      congr 1
      omega
    have hle := @le_maxSeq _ _ start _ hmem
    omega
  · have hend : log.length ≤ start := by
      cases hk with
      | inl hk => omega
      | inr hnil => simp [hnil]
    rw [List.drop_of_length_le (by omega)]
    exact hend

end MinimaxCode.SequencedLog
