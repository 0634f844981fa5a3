import MinimaxCode.JsonText
import Mathlib.Data.List.Lex
import Mathlib.Data.Prod.Lex

/-!
# Semantic versions

The grammar of semver 2.0.0 and the precedence of its section 11, which compares the numbers of
two versions and then the identifiers of their pre-releases.
-/

namespace MinimaxCode.Semver

open PyText PyJson

def letter (c : PyChar) : Bool := (65 ≤ c.code && c.code ≤ 90) || (97 ≤ c.code && c.code ≤ 122)

def identifierChar (c : PyChar) : Bool := isDigit c || letter c || c == ch '-'

def Digits (s : PyStr) : Prop := s ≠ [] ∧ ∀ c ∈ s, isDigit c = true

/-- A number without leading zeros. -/
def NumericIdentifier (s : PyStr) : Prop := Digits s ∧ (s.head? = some (ch '0') → s = lit "0")

def AlphanumericIdentifier (s : PyStr) : Prop :=
  (∀ c ∈ s, identifierChar c = true) ∧ ∃ c ∈ s, isDigit c = false

def PreReleaseIdentifier (s : PyStr) : Prop := AlphanumericIdentifier s ∨ NumericIdentifier s

def BuildIdentifier (s : PyStr) : Prop := AlphanumericIdentifier s ∨ Digits s

/-- Identifiers with dots between them. -/
def dotted (ids : List PyStr) : PyStr := List.intercalate (lit ".") ids

/-- What stands behind its mark, if anything does. -/
def marked (mark : Char) : Option PyStr → PyStr
  | none => []
  | some s => ch mark::s

structure Parts where
  major : PyStr
  minor : PyStr
  patch : PyStr
  pre : Option (List PyStr)
  build : Option (List PyStr)

structure Parts.Valid (p : Parts) : Prop where
  major : NumericIdentifier p.major
  minor : NumericIdentifier p.minor
  patch : NumericIdentifier p.patch
  pre : ∀ ids ∈ p.pre, ids ≠ [] ∧ ∀ id ∈ ids, PreReleaseIdentifier id
  build : ∀ ids ∈ p.build, ids ≠ [] ∧ ∀ id ∈ ids, BuildIdentifier id

def Parts.text (p : Parts) : PyStr :=
  p.major++ch '.'::p.minor++ch '.'::p.patch++marked '-' (p.pre.map dotted)++
    marked '+' (p.build.map dotted)

/-- The text is a version. -/
def Valid (s : PyStr) : Prop := ∃ p : Parts, p.Valid ∧ s = p.text

/-- Numbers rank below other identifiers, and compare as numbers; those compare as ASCII text. -/
inductive IdentifierLower (a b : PyStr) : Prop
  | numbers (ha : Digits a) (hb : Digits b) (h : natOf a < natOf b)
  | number (ha : Digits a) (hb : ¬ Digits b)
  | texts (ha : ¬ Digits a) (hb : ¬ Digits b) (hle : strLe a b = true) (hne : a ≠ b)

def SameIdentifier (a b : PyStr) : Prop := a = b ∨ Digits a ∧ Digits b ∧ natOf a = natOf b

/-- The first identifiers that differ decide, or else the number of identifiers. -/
inductive PreReleaseLower : List PyStr → List PyStr → Prop
  | fewer (b : PyStr) (bs : List PyStr) : PreReleaseLower [] (b::bs)
  | first {a b : PyStr} (as bs : List PyStr) (h : IdentifierLower a b) : PreReleaseLower (a::as) (b::bs)
  | next {a b : PyStr} {as bs : List PyStr} (hsame : SameIdentifier a b) (h : PreReleaseLower as bs) :
      PreReleaseLower (a::as) (b::bs)

/-- What the precedence of a version depends on. -/
structure Rank where
  major : ℕ
  minor : ℕ
  patch : ℕ
  pre : Option (List PyStr)

inductive Lower (v w : Rank) : Prop
  | major (h : v.major < w.major)
  | minor (hmajor : v.major = w.major) (h : v.minor < w.minor)
  | patch (hmajor : v.major = w.major) (hminor : v.minor = w.minor) (h : v.patch < w.patch)
  | release (hmajor : v.major = w.major) (hminor : v.minor = w.minor) (hpatch : v.patch = w.patch)
      {as : List PyStr} (hv : v.pre = some as) (hw : w.pre = none)
  | preRelease (hmajor : v.major = w.major) (hminor : v.minor = w.minor) (hpatch : v.patch = w.patch)
      {as bs : List PyStr} (hv : v.pre = some as) (hw : w.pre = some bs) (h : PreReleaseLower as bs)

section Dotted

variable {ids : List PyStr} {id : PyStr}

theorem dotted_cons (id : PyStr) (h : ids ≠ []) :
    dotted (id::ids) = id++ch '.'::dotted ids :=
  intercalate_cons (ch '.') id h

theorem dotted_singleton (id : PyStr) : dotted [id] = id := by
  rw [dotted,List.intercalate_singleton]

theorem splitOn_dotted (hne : ids ≠ []) (h : ∀ id ∈ ids, ch '.' ∉ id) :
    splitOn (ch '.') (dotted ids) = ids :=
  splitOn_intercalate hne h

theorem dotted_splitOn (s : PyStr) : dotted (splitOn (ch '.') s) = s := intercalate_splitOn (ch '.') s

theorem mem_dotted {c : PyChar} (h : c ∈ dotted ids) : c = ch '.' ∨ ∃ id ∈ ids, c ∈ id := by
  induction ids with
  | nil => cases h
  | cons id ids ih =>
    by_cases hids : ids = []
    · rw [hids,dotted_singleton] at h
      exact Or.inr ⟨id,List.mem_cons_self,h⟩
    · rw [dotted_cons id hids] at h
      obtain h | h := List.mem_append.mp h
      · exact Or.inr ⟨id,List.mem_cons_self,h⟩
      · obtain rfl | h := List.mem_cons.mp h
        · exact Or.inl rfl
        · exact (ih h).imp_right fun ⟨id',hid',hc⟩ => ⟨id',List.mem_cons_of_mem _ hid',hc⟩

theorem dotted_ne_nil (hne : ids ≠ []) (h : ∀ id ∈ ids, id ≠ []) : dotted ids ≠ [] := by
  cases ids with
  | nil => exact absurd rfl hne
  | cons id ids =>
    have hid := h id List.mem_cons_self
    by_cases hids : ids = []
    · rw [hids,dotted_singleton]
      exact hid
    · rw [dotted_cons id hids]
      exact List.append_ne_nil_of_left_ne_nil hid _

theorem dot_not_mem (h : ∀ c ∈ id, identifierChar c = true) : ch '.' ∉ id :=
  fun hdot => absurd (h _ hdot) (by decide)

theorem identifierChar_of_isDigit {c : PyChar} (h : isDigit c = true) : identifierChar c = true := by
  rw [identifierChar,h,Bool.true_or,Bool.true_or]

theorem PreReleaseIdentifier.chars (h : PreReleaseIdentifier id) :
    ∀ c ∈ id, identifierChar c = true := by
  obtain h | h := h
  · exact h.1
  · exact fun c hc => identifierChar_of_isDigit (h.1.2 c hc)

theorem BuildIdentifier.chars (h : BuildIdentifier id) :
    ∀ c ∈ id, identifierChar c = true := by
  obtain h | h := h
  · exact h.1
  · exact fun c hc => identifierChar_of_isDigit (h.2 c hc)

theorem PreReleaseIdentifier.ne_nil (h : PreReleaseIdentifier id) : id ≠ [] := by
  obtain ⟨_,c,hc,_⟩ | h := h
  · exact List.ne_nil_of_mem hc
  · exact h.1.1

theorem BuildIdentifier.ne_nil (h : BuildIdentifier id) : id ≠ [] := by
  obtain ⟨_,c,hc,_⟩ | h := h
  · exact List.ne_nil_of_mem hc
  · exact h.1

end Dotted

end MinimaxCode.Semver
