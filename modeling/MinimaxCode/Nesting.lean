import Mathlib.Data.List.Basic
import Mathlib.Data.List.Perm.Subperm
import Mathlib.Data.Nat.Notation

/-!
# Families of nested regions

A family is a list of regions with rising keys. Where the regions around a given one are
nested, outer ones first, they form a chain, and the parent of each region of the chain is
the one before it.
-/

namespace MinimaxCode.Nesting

variable {α : Type} (c : α → α → Bool)

/-- Keys rise along the family. -/
def Rising (fam : List (ℕ × α)) : Prop := fam.Pairwise fun s t => s.1 < t.1

/-- The members around a region. -/
def around (fam : List (ℕ × α)) (r : α) : List (ℕ × α) := fam.filter fun s => c s.2 r

/-- The key of the last member around a region. -/
def innermost (fam : List (ℕ × α)) (r : α) : Option ℕ := (around c fam r).getLast?.map Prod.fst

/-- The key of the last earlier member around a member. -/
def parent (fam : List (ℕ × α)) (s : ℕ × α) : Option ℕ :=
  innermost c (fam.filter fun t => t.1 < s.1) s.2

/-- Of two members around the region the earlier one is around the later one. -/
def Chained (fam : List (ℕ × α)) (r : α) : Prop :=
  ∀ s ∈ fam, ∀ t ∈ fam, s.1 < t.1 → c s.2 r → c t.2 r → c s.2 t.2

variable {c} {fam : List (ℕ × α)} {r : α} {s t : ℕ × α}

theorem mem_around : s ∈ around c fam r ↔ s ∈ fam ∧ c s.2 r := by
  simp [around]

theorem Rising.around (h : Rising fam) (r : α) : Rising (around c fam r) := h.filter _

theorem around_below (htrans : ∀ a b d, c a b → c b d → c a d) (hchain : Chained c fam r)
    (ht : t ∈ fam) (htr : c t.2 r) :
    around c (fam.filter fun s => s.1 < t.1) t.2 = (around c fam r).filter fun s => s.1 < t.1 := by
  simp only [around,List.filter_filter]
  apply List.filter_congr
  intro s hs
  by_cases hlt : s.1 < t.1
  · have hiff : c s.2 t.2 = c s.2 r := by
      rw [Bool.eq_iff_iff]
      exact ⟨fun h => htrans _ _ _ h htr,fun h => hchain s hs t ht hlt h htr⟩
    simp [hlt,hiff]
  · simp [hlt]

theorem filter_below {pre post : List (ℕ × α)} (h : Rising (pre++t::post)) :
    (pre++t::post).filter (fun s => s.1 < t.1) = pre := by
  have hsplit := List.pairwise_append.mp h
  have hpre : pre.filter (fun s => s.1 < t.1) = pre := by
    rw [List.filter_eq_self]
    intro s hs
    simpa using hsplit.2.2 s hs t List.mem_cons_self
  have hpost : post.filter (fun s => s.1 < t.1) = [] := by
    rw [List.filter_eq_nil_iff]
    intro s hs
    have hlt := (List.pairwise_cons.mp hsplit.2.1).1 s hs
    simp only [decide_eq_true_eq]
    exact Nat.lt_asymm hlt
  rw [List.filter_append,hpre,List.filter_cons_of_neg (by simp),hpost,List.append_nil]

theorem parent_of_chain (htrans : ∀ a b d, c a b → c b d → c a d) (hrising : Rising fam)
    (hchain : Chained c fam r) {pre post : List (ℕ × α)} (h : around c fam r = pre++t::post) :
    parent c fam t = pre.getLast?.map Prod.fst := by
  have ht : t ∈ around c fam r := by simp [h]
  obtain ⟨htfam,htr⟩ := mem_around.mp ht
  have hsorted : Rising (pre++t::post) := h ▸ hrising.around r
  rw [parent,innermost,around_below htrans hchain htfam htr,h,filter_below hsorted]

theorem le_last (h : Rising fam) {p : ℕ} (hlast : fam.getLast?.map Prod.fst = some p)
    (hs : s ∈ fam) : s.1 ≤ p := by
  obtain ⟨l,hl,rfl⟩ := Option.map_eq_some_iff.mp hlast
  obtain ⟨init,rfl⟩ := List.getLast?_eq_some_iff.mp hl
  obtain hinit | heq := List.mem_append.mp hs
  · exact Nat.le_of_lt ((List.pairwise_append.mp h).2.2 s hinit l (by simp))
  · obtain rfl := List.mem_singleton.mp heq
    exact Nat.le_refl _

theorem parent_spec (htrans : ∀ a b d, c a b → c b d → c a d) (hrising : Rising fam)
    (hchain : Chained c fam r) (ht : t ∈ fam) (htr : c t.2 r) {p : ℕ}
    (hp : parent c fam t = some p) :
    p < t.1 ∧ ∀ s ∈ around c fam r, s.1 < t.1 → s.1 ≤ p := by
  rw [parent,innermost,around_below htrans hchain ht htr] at hp
  constructor
  · obtain ⟨l,hl,rfl⟩ := Option.map_eq_some_iff.mp hp
    simpa using (List.mem_filter.mp (List.mem_of_getLast? hl)).2
  · intro s hs hlt
    exact le_last ((hrising.around r).filter _) hp (List.mem_filter.mpr ⟨hs,by simpa using hlt⟩)

theorem parent_append {u : ℕ × α} (h : s.1 ≤ u.1) : parent c (fam++[u]) s = parent c fam s := by
  rw [parent,parent,List.filter_append,List.filter_cons_of_neg (by simpa using h),List.filter_nil,
    List.append_nil]

theorem parent_new {u : ℕ × α} (h : ∀ s ∈ fam, s.1 < u.1) :
    parent c (fam++[u]) u = innermost c fam u.2 := by
  have hall : fam.filter (fun s => s.1 < u.1) = fam := by
    rw [List.filter_eq_self]
    intro s hs
    simpa using h s hs
  rw [parent_append (Nat.le_refl _),parent,hall]

theorem Rising.pair {R : ℕ × α → ℕ × α → Prop} (h : Rising fam) (hR : fam.Pairwise R)
    (hs : s ∈ fam) (ht : t ∈ fam) (hlt : s.1 < t.1) : R s t := by
  induction fam with
  | nil => cases hs
  | cons x fam ih =>
    obtain ⟨hx,htail⟩ := List.pairwise_cons.mp h
    obtain ⟨hRx,hRtail⟩ := List.pairwise_cons.mp hR
    obtain rfl | hsfam := List.mem_cons.mp hs
    · obtain rfl | htfam := List.mem_cons.mp ht
      · exact absurd hlt (Nat.lt_irrefl _)
      · exact hRx t htfam
    · obtain rfl | htfam := List.mem_cons.mp ht
      · exact absurd hlt (Nat.lt_asymm (hx s hsfam))
      · exact ih htail hRtail hsfam htfam

theorem Rising.length_le (h : Rising fam) {n : ℕ} (hbelow : ∀ s ∈ fam, s.1 < n) :
    fam.length ≤ n := by
  have hnodup : (fam.map Prod.fst).Nodup := List.pairwise_map.mpr (h.imp Nat.ne_of_lt)
  have hsub : fam.map Prod.fst ⊆ List.range n := by
    intro k hk
    obtain ⟨s,hs,rfl⟩ := List.mem_map.mp hk
    exact List.mem_range.mpr (hbelow s hs)
  simpa using (List.subperm_of_subset hnodup hsub).length_le

theorem chained_of_nested (h : Rising fam)
    (houter : fam.Pairwise fun s t => c t.2 s.2 → c s.2 t.2)
    (hnested : ∀ s ∈ fam, ∀ t ∈ fam, c s.2 t.2 ∨ c t.2 s.2 ∨ ¬ (c s.2 r ∧ c t.2 r)) :
    Chained c fam r := by
  intro s hs t ht hlt hsr htr
  obtain hst | hts | hapart := hnested s hs t ht
  · exact hst
  · exact h.pair houter hs ht hlt hts
  · exact absurd ⟨hsr,htr⟩ hapart

end MinimaxCode.Nesting
