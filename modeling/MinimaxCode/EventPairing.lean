import Mathlib.Data.List.Nodup
import Mathlib.Algebra.BigOperators.Group.List.Basic
import Mathlib.Algebra.GroupWithZero.Nat

/-!
# Paired events

Some events of a stream open something under a key and some close it. A stream is paired
when every key is opened once and closed once behind that. In a stream where nothing is
closed before it was opened, this can be told from the numbers of openings and closings.
-/

namespace MinimaxCode.EventPairing

variable {E K : Type*} (opened closed : E → Option K)

/-- Each key is opened at most once, and each opening is followed by one closing. -/
structure Paired [BEq K] (es : List E) : Prop where
  once : (es.filterMap opened).Nodup
  followed : ∀ before e later k, es = before++e::later → opened e = some k →
    (later.filterMap closed).count k = 1

/-- What is closed is known or was opened before. -/
@[simp] def Preceded (known : List K) : List E → Prop
  | [] => True
  | e::es => (∀ k, closed e = some k → k ∈ known) ∧ Preceded ((opened e).toList++known) es

variable {opened closed} {known known' : List K} {es es' : List E}

theorem Preceded.mono (h : Preceded opened closed known es) (hsub : known ⊆ known') :
    Preceded opened closed known' es := by
  induction es generalizing known known' with
  | nil => trivial
  | cons e es ih =>
    refine ⟨fun k hk => hsub (h.1 k hk),ih h.2 fun k hk => ?_⟩
    cases List.mem_append.mp hk with
    | inl hopen => exact List.mem_append_left _ hopen
    | inr hknown => exact List.mem_append_right _ (hsub hknown)

theorem preceded_append (h : Preceded opened closed known es)
    (h' : Preceded opened closed (es.filterMap opened++known) es') :
    Preceded opened closed known (es++es') := by
  induction es generalizing known with
  | nil => exact h'
  | cons e es ih =>
    refine ⟨h.1,ih h.2 (h'.mono fun k hk => ?_)⟩
    cases he : opened e with
    | none => simpa [he] using hk
    | some k' => simpa [he] using or_left_comm.mp (by simpa [he] using hk)

theorem preceded_of_mem (h : ∀ e ∈ es, ∀ k, closed e = some k → k ∈ known) :
    Preceded opened closed known es := by
  induction es generalizing known with
  | nil => trivial
  | cons e es ih =>
    refine ⟨h e List.mem_cons_self,ih fun e' he' k hk => ?_⟩
    exact List.mem_append_right _ (h e' (List.mem_cons_of_mem e he') k hk)

theorem mem_of_preceded {before : List E} {e : E} {later : List E} {k : K}
    (h : Preceded opened closed known (before++e::later)) (he : closed e = some k) :
    k ∈ before.filterMap opened++known := by
  induction before generalizing known with
  | nil => exact h.1 k he
  | cons e' before ih =>
    have hmem := ih h.2
    cases he' : opened e' with
    | none => simpa [he'] using hmem
    | some k' => simpa [he'] using or_left_comm.mp (by simpa [he'] using hmem)

variable [BEq K]

theorem count_front [LawfulBEq K] {before : List E} {e : E} {later : List E} {k : K}
    (h : Preceded opened closed [] (before++e::later)) (he : opened e = some k)
    (hself : closed e = none) (hnodup : ((before++e::later).filterMap opened).Nodup) :
    (later.filterMap closed).count k = ((before++e::later).filterMap closed).count k := by
  have hnew : k ∉ before.filterMap opened := by
    intro hk
    rw [List.filterMap_append,List.filterMap_cons_some he] at hnodup
    exact (List.nodup_append.mp hnodup).2.2 k hk k List.mem_cons_self rfl
  have hzero : (before.filterMap closed).count k = 0 := by
    rw [List.count_eq_zero]
    intro hk
    obtain ⟨c,hc,hck⟩ := List.mem_filterMap.mp hk
    obtain ⟨front,back,rfl⟩ := List.append_of_mem hc
    rw [List.append_assoc,List.cons_append] at h
    have hopen := mem_of_preceded h hck
    rw [List.append_nil] at hopen
    exact hnew (by rw [List.filterMap_append]; exact List.mem_append_left _ hopen)
  rw [List.filterMap_append,List.count_append,hzero,List.filterMap_cons_none hself,Nat.zero_add]

theorem paired_iff [LawfulBEq K] (h : Preceded opened closed [] es)
    (hself : ∀ e k, opened e = some k → closed e = none) : Paired opened closed es ↔
      (es.filterMap opened).Nodup ∧ ∀ k ∈ es.filterMap opened, (es.filterMap closed).count k = 1 := by
  constructor
  · intro hpaired
    refine ⟨hpaired.once,fun k hk => ?_⟩
    obtain ⟨e,he,hek⟩ := List.mem_filterMap.mp hk
    obtain ⟨before,later,rfl⟩ := List.append_of_mem he
    rw [← count_front h hek (hself e k hek) hpaired.once]
    exact hpaired.followed before e later k rfl hek
  · rintro ⟨hnodup,hcount⟩
    refine ⟨hnodup,?_⟩
    rintro before e later k rfl hek
    rw [count_front h hek (hself e k hek) hnodup]
    exact hcount k (List.mem_filterMap.mpr ⟨e,by simp,hek⟩)

/-- How often a part of the stream opens and closes a key. -/
structure Tally (K : Type*) where
  key : K
  opens : ℕ
  closes : ℕ

def Tally.keys (t : Tally K) : List K := List.replicate t.opens t.key

def Tally.closesOf (k : K) (t : Tally K) : ℕ := if t.key == k then t.closes else 0

theorem closes_of_nodup [LawfulBEq K] {ts : List (Tally K)} (hnodup : (ts.flatMap Tally.keys).Nodup)
    (hts : ∀ t ∈ ts, t.closes ≠ 0 → t.opens ≠ 0) {t : Tally K} (ht : t ∈ ts) (hopen : t.opens ≠ 0) :
    (ts.map (Tally.closesOf t.key)).sum = t.closes := by
  have hmem : ∀ t : Tally K, t.opens ≠ 0 → t.key ∈ t.keys := by
    intro t hopen
    simp [Tally.keys,hopen]
  induction ts with
  | nil => cases ht
  | cons t' ts ih =>
    rw [List.flatMap_cons,List.nodup_append] at hnodup
    obtain ⟨-,hrest,hdisjoint⟩ := hnodup
    have hapart : ∀ t'' ∈ ts, t''.opens ≠ 0 → t'.opens ≠ 0 → t''.key ≠ t'.key := by
      intro t'' ht'' hopen'' hopen' heq
      have hin : t''.key ∈ ts.flatMap Tally.keys := List.mem_flatMap.mpr ⟨t'',ht'',hmem t'' hopen''⟩
      exact hdisjoint t'.key (hmem t' hopen') t''.key hin heq.symm
    have hrestClosed : ∀ t ∈ ts, t.closes ≠ 0 → t.opens ≠ 0 :=
      fun t ht => hts t (List.mem_cons_of_mem t' ht)
    rw [List.map_cons,List.sum_cons]
    cases List.mem_cons.mp ht with
    | inl hsame =>
      subst hsame
      have hzero : ∀ n ∈ ts.map (Tally.closesOf t.key), n = 0 := by
        intro n hn
        obtain ⟨t'',ht'',rfl⟩ := List.mem_map.mp hn
        rw [Tally.closesOf]
        split
        · next heq =>
          by_contra hne
          exact hapart t'' ht'' (hrestClosed t'' ht'' hne) hopen (eq_of_beq heq)
        · rfl
      rw [List.sum_eq_zero hzero,Tally.closesOf,if_pos (beq_self_eq_true _),Nat.add_zero]
    | inr hin =>
      have hzero : Tally.closesOf t.key t' = 0 := by
        rw [Tally.closesOf]
        split
        · next heq =>
          by_contra hne
          exact hapart t hin hopen (hts t' List.mem_cons_self hne) (eq_of_beq heq).symm
        · rfl
      rw [hzero,Nat.zero_add]
      exact ih hrest hrestClosed hin

end MinimaxCode.EventPairing
