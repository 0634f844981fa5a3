import Mathlib.Data.Int.Order.Lemmas
import Mathlib.Data.List.Basic
import Mathlib.Tactic.Positivity
import Mathlib.Tactic.Ring
import Mathlib.Tactic.Zify

/-!
# Binary formats

A writer packs numbers into fields of a fixed width and fails on a number that does not fit. A
reader takes a value from the front of the bytes. What a reader reads is delimited when it reads
the same whatever comes behind, and nothing of it can be cut off.
-/

namespace MinimaxCode.BinaryFormat

abbrev Bytes := List UInt8

abbrev Reader := StateT Bytes Option

/-- The little-endian bytes of a number. -/
def leBytes : ℕ → ℕ → Bytes
  | 0, _ => []
  | w+1, n => UInt8.ofNat n::leBytes w (n/256)

def leNat : Bytes → ℕ
  | [] => 0
  | b::bs => b.toNat+256*leNat bs

/-- An unsigned field of so many bytes. -/
def pack (w : ℕ) (n : ℤ) : Option Bytes := if 0 ≤ n ∧ n < 256^w then some (leBytes w n.toNat) else none

/-- A signed field of so many bytes. -/
def packSigned (w : ℕ) (n : ℤ) : Option Bytes :=
  if -(256^w) ≤ 2*n ∧ 2*n < 256^w then some (leBytes w (n%256^w).toNat) else none

/-- The parts one behind the other, when none of them fails. -/
def concat (parts : List (Option Bytes)) : Option Bytes := (parts.mapM id).map List.flatten

/-- Exactly so many bytes, or a failure. -/
def readExact (n : ℕ) : Reader Bytes := fun bs =>
  if bs.length < n then none else some (bs.take n,bs.drop n)

def unpack (w : ℕ) : Reader ℕ := do
  let bs ← readExact w
  pure (leNat bs)

def unpackSigned (w : ℕ) : Reader ℤ := do
  let n ← unpack w
  pure (if 2*n < 256^w then (n:ℤ) else n-256^w)

def readMany {A : Type} (r : Reader A) : ℕ → Reader (List A)
  | 0 => pure []
  | n+1 => do
    let a ← r
    let as ← readMany r n
    pure (a::as)

/-- The reader takes these bytes from the front whatever comes behind, and fails on less. -/
structure Reads {A : Type} (r : Reader A) (bs : Bytes) (a : A) : Prop where
  whole : ∀ rest, r (bs++rest) = some (a,rest)
  cut : ∀ p, p <+: bs → p ≠ bs → r p = none

variable {A B : Type} {r : Reader A} {f : A → Reader B} {bs cs : Bytes} {a : A} {b : B}

theorem Reads.pure (a : A) : Reads (pure a) [] a :=
  ⟨fun _ => rfl,fun _ hp hne => absurd (List.prefix_nil.mp hp) hne⟩

/-- Two readers, the second of which follows the first. -/
theorem Reads.bind (h : Reads r bs a) (h' : Reads (f a) cs b) : Reads (r >>= f) (bs++cs) b := by
  have hrun : ∀ p q, r p = some (a,q) → (r >>= f) p = f a q := by
    intro p q hp
    change (r p).bind (fun x => f x.1 x.2) = _
    rw [hp]
    rfl
  refine ⟨fun rest => ?_,fun p hp hne => ?_⟩
  · rw [List.append_assoc,hrun _ _ (h.whole (cs++rest)),h'.whole]
  · obtain ⟨t,ht⟩ := hp
    rcases List.append_eq_append_iff.mp ht with ⟨u,rfl,-⟩ | ⟨q,rfl,rfl⟩
    · by_cases hu : u = []
      · subst hu
        have hfirst := h.whole []
        rw [List.append_nil,List.append_nil] at hfirst
        rw [List.append_nil] at hne
        rw [hrun _ _ hfirst]
        refine h'.cut [] List.nil_prefix ?_
        rintro rfl
        exact hne (List.append_nil p).symm
      · change (r p).bind (fun x => f x.1 x.2) = none
        rw [h.cut p (List.prefix_append p u) fun heq => hu (List.self_eq_append_right.mp heq)]
        rfl
    · rw [hrun _ _ (h.whole q)]
      refine h'.cut q (List.prefix_append q t) ?_
      rintro heq
      exact hne (congrArg (bs++·) heq)

theorem Reads.map (h : Reads r bs a) (g : A → B) : Reads (g <$> r) bs (g a) := by
  refine ⟨fun rest => ?_,fun p hp hne => ?_⟩
  · change (r _).bind (fun x => some (g x.1,x.2)) = _
    rw [h.whole]
    rfl
  · change (r p).bind (fun x => some (g x.1,x.2)) = none
    rw [h.cut p hp hne]
    rfl

theorem reads_check {p : Prop} [Decidable p] (h : ¬p) :
    Reads (if p then failure else Pure.pure PUnit.unit) [] PUnit.unit := by
  rw [if_neg h]
  exact .pure _

theorem reads_exact {n : ℕ} (h : bs.length = n) : Reads (readExact n) bs bs := by
  subst h
  refine ⟨fun rest => ?_,fun p hp hne => if_pos ?_⟩
  · rw [readExact,if_neg,List.take_left,List.drop_left]
    rw [List.length_append]
    omega
  · refine lt_of_le_of_ne hp.length_le fun heq => hne (hp.eq_of_length heq)

@[simp] theorem length_leBytes (w n : ℕ) : (leBytes w n).length = w := by
  induction w generalizing n with
  | zero => rfl
  | succ w ih => rw [leBytes,List.length_cons,ih]

theorem leNat_leBytes (w n : ℕ) (h : n < 256^w) : leNat (leBytes w n) = n := by
  induction w generalizing n with
  | zero =>
    rw [pow_zero] at h
    rw [leBytes,leNat]
    omega
  | succ w ih =>
    have hdiv : n/256 < 256^w := by
      rw [Nat.div_lt_iff_lt_mul (by omega),← pow_succ]
      exact h
    rw [leBytes,leNat,ih _ hdiv,UInt8.toNat_ofNat']
    omega

theorem isSome_pack {w : ℕ} {n : ℤ} : (pack w n).isSome ↔ 0 ≤ n ∧ n < 256^w := by
  rw [pack]
  split
  · next h => exact iff_of_true rfl h
  · next h => exact iff_of_false Bool.false_ne_true h

theorem reads_pack {w n : ℕ} (h : pack w n = some bs) : Reads (unpack w) bs n := by
  rw [pack] at h
  split at h
  · next hn =>
    cases h
    have hlt : n < 256^w := by exact_mod_cast hn.2
    have hread := Reads.map (reads_exact (length_leBytes w n)) leNat
    rw [leNat_leBytes w n hlt] at hread
    exact hread
  · cases h

theorem isSome_packSigned {w : ℕ} {n : ℤ} : (packSigned w n).isSome ↔ -(256^w) ≤ 2*n ∧ 2*n < 256^w := by
  rw [packSigned]
  split
  · next h => exact iff_of_true rfl h
  · next h => exact iff_of_false Bool.false_ne_true h

theorem reads_packSigned {w : ℕ} {n : ℤ} (h : packSigned w n = some bs) : Reads (unpackSigned w) bs n := by
  rw [packSigned] at h
  split at h
  · next hn =>
    cases h
    have hpos : (0:ℤ) < 256^w := by positivity
    have hmod := Int.emod_nonneg n hpos.ne'
    have hlt := Int.emod_lt_of_pos n hpos
    have hnat : (n%256^w).toNat < 256^w := by
      zify
      rw [Int.toNat_of_nonneg hmod]
      exact hlt
    have hcast : ((n%256^w).toNat:ℤ) = n%256^w := Int.toNat_of_nonneg hmod
    have hsmall : 2*(n%256^w).toNat < 256^w ↔ 2*(n%256^w) < 256^w := by
      rw [← hcast]
      exact_mod_cast Iff.rfl
    have hvalue : (if 2*(n%256^w).toNat < 256^w then ((n%256^w).toNat:ℤ) else (n%256^w).toNat-256^w) = n := by
      rw [hcast,if_congr hsmall rfl rfl]
      rcases lt_or_ge n 0 with hneg | hneg
      · have hmodn : n%256^w = n+256^w := by
          rw [← Int.add_emod_right]
          exact Int.emod_eq_of_lt (by omega) (by omega)
        rw [hmodn,if_neg (by omega)]
        omega
      · rw [Int.emod_eq_of_lt hneg (by omega),if_pos hn.2]
    have hread := Reads.map (Reads.map (reads_exact (length_leBytes w (n%256^w).toNat)) leNat)
      fun m => if 2*m < 256^w then (m:ℤ) else m-256^w
    rw [leNat_leBytes _ _ hnat,hvalue] at hread
    exact hread
  · cases h

theorem concat_cons {part : Option Bytes} {parts : List (Option Bytes)} :
    concat (part::parts) = some bs ↔
      ∃ b c, part = some b ∧ concat parts = some c ∧ bs = b++c := by
  simp only [concat,List.mapM_cons,Option.map_eq_some_iff,Option.bind_eq_bind,Option.bind_eq_some_iff,
    Option.pure_def,Option.some.injEq,id_eq]
  constructor
  · rintro ⟨_,⟨b,hb,c,hc,rfl⟩,rfl⟩
    exact ⟨b,c.flatten,hb,⟨c,hc,rfl⟩,List.flatten_cons⟩
  · rintro ⟨b,_,hb,⟨c,hc,rfl⟩,rfl⟩
    exact ⟨_,⟨b,hb,c,hc,rfl⟩,List.flatten_cons⟩

theorem isSome_concat {parts : List (Option Bytes)} :
    (concat parts).isSome ↔ ∀ part ∈ parts, part.isSome := by
  induction parts with
  | nil => exact iff_of_true rfl fun _ h => absurd h List.not_mem_nil
  | cons part parts ih =>
    rw [List.forall_mem_cons,← ih]
    constructor
    · intro h
      obtain ⟨bs,hbs⟩ := Option.isSome_iff_exists.mp h
      obtain ⟨b,c,hb,hc,-⟩ := concat_cons.mp hbs
      rw [hb,hc]
      exact ⟨rfl,rfl⟩
    · rintro ⟨hb,hc⟩
      obtain ⟨b,hb⟩ := Option.isSome_iff_exists.mp hb
      obtain ⟨c,hc⟩ := Option.isSome_iff_exists.mp hc
      rw [concat_cons.mpr ⟨b,c,hb,hc,rfl⟩]
      rfl

theorem reads_many {w : A → Option Bytes} {as : List A}
    (hr : ∀ a ∈ as, ∀ bs, w a = some bs → Reads r bs a) (h : concat (as.map w) = some bs) :
    Reads (readMany r as.length) bs as := by
  induction as generalizing bs with
  | nil =>
    cases h
    exact .pure []
  | cons a as ih =>
    obtain ⟨b,c,hb,hc,rfl⟩ := concat_cons.mp h
    have hrest := ih (fun a ha => hr a (List.mem_cons_of_mem _ ha)) hc
    exact (hr a List.mem_cons_self b hb).bind (hrest.map (a::·))

end MinimaxCode.BinaryFormat
