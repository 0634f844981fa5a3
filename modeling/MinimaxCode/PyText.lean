import Mathlib.Data.List.DropRight
import Mathlib.Data.List.TakeWhile
import Mathlib.Data.Fintype.Basic
import Mathlib.Tactic.Common

/-!
# Python text

A Python string is a list of code points, and a code point is a Unicode scalar
value or a lone surrogate. Lone surrogates matter: they come out of JSON escapes
and undecodable file names, and they have no UTF-8 encoding.
-/

namespace MinimaxCode.PyText

inductive PyChar
  | scalar (c : Char)
  | surrogate (n : Fin 2048)
  deriving DecidableEq

abbrev PyStr := List PyChar

instance : LawfulBEq PyStr := inferInstance

/-- A string literal. -/
def lit (s : String) : PyStr := s.toList.map .scalar

/-- A character literal. -/
abbrev ch (c : Char) : PyChar := .scalar c

def PyChar.code : PyChar → ℕ
  | .scalar c => c.toNat
  | .surrogate n => 0xD800+n

/-- `chr`. -/
def PyChar.ofCode (n : ℕ) : PyChar :=
  if h : 0xD800 ≤ n ∧ n < 0xE000 then .surrogate ⟨n-0xD800,by omega⟩ else .scalar (Char.ofNat n)

/-- The code points for which `str.isspace` holds. -/
def PyChar.isSpace (c : PyChar) : Bool :=
  let n := c.code
  (9 ≤ n && n ≤ 13) || (28 ≤ n && n ≤ 32) || n == 0x85 || n == 0xA0 || n == 0x1680 ||
    (0x2000 ≤ n && n ≤ 0x200A) || n == 0x2028 || n == 0x2029 || n == 0x202F || n == 0x205F ||
    n == 0x3000

/-- `str.strip` without an argument. -/
def strip (s : PyStr) : PyStr := (s.dropWhile PyChar.isSpace).rdropWhile PyChar.isSpace

/-- `not s.strip()`. -/
def isBlank (s : PyStr) : Bool := s.all PyChar.isSpace

/-- `s.encode("utf-8")` succeeds exactly on strings without lone surrogates. -/
def encodes (s : PyStr) : Bool := s.all fun
  | .scalar _ => true
  | .surrogate _ => false

/-- `str.split(sep)` for a one-character separator. -/
def splitOn (sep : PyChar) : PyStr → List PyStr
  | [] => [[]]
  | c::cs =>
    if c = sep then [] :: splitOn sep cs
    else match splitOn sep cs with
      | [] => [[c]]
      | w::ws => (c::w)::ws

/-- Lexicographic comparison by code point, Python's `<=` on strings. -/
def strLe : PyStr → PyStr → Bool
  | [], _ => true
  | _::_, [] => false
  | a::as, b::bs => a.code < b.code || (a.code == b.code && strLe as bs)

/-- Python's `<=` on lists of strings. -/
def partsLe : List PyStr → List PyStr → Bool
  | [], _ => true
  | _::_, [] => false
  | a::as, b::bs => if a = b then partsLe as bs else strLe a b

@[simp] theorem ofCode_code (c : PyChar) : PyChar.ofCode c.code = c := by
  cases c with
  | scalar c =>
    have hvalid : ¬ (0xD800 ≤ c.toNat ∧ c.toNat < 0xE000) := by
      have hc : c.toNat < 0xD800 ∨ 0xDFFF < c.toNat ∧ c.toNat < 0x110000 := c.valid
      omega
    simp [PyChar.ofCode,PyChar.code,hvalid]
  | surrogate n =>
    have hn : 0xD800+n.val < 0xE000 := by omega
    simp [PyChar.ofCode,PyChar.code,hn]

theorem encodes_append (a b : PyStr) : encodes (a++b) = (encodes a && encodes b) := by
  simp [encodes]

@[simp] theorem encodes_nil : encodes [] = true := rfl

@[simp] theorem encodes_scalar_cons (c : Char) (s : PyStr) :
    encodes (.scalar c::s) = encodes s := rfl

theorem encodes_cons (c : PyChar) (s : PyStr) : encodes (c::s) = (encodes [c] && encodes s) :=
  encodes_append [c] s

@[simp] theorem encodes_lit (s : String) : encodes (lit s) = true := by
  simp [encodes,lit]

@[simp] theorem splitOn_nil (sep : PyChar) : splitOn sep [] = [[]] := rfl

theorem splitOn_cons (sep c : PyChar) (cs : PyStr) : splitOn sep (c::cs) =
    if c = sep then []::splitOn sep cs
    else match splitOn sep cs with
      | [] => [[c]]
      | w::ws => (c::w)::ws := rfl

theorem splitOn_ne_nil (sep : PyChar) (s : PyStr) : splitOn sep s ≠ [] := by
  cases s with
  | nil => exact List.cons_ne_nil [] []
  | cons c cs =>
    rw [splitOn_cons]
    split
    · exact List.cons_ne_nil _ _
    · cases splitOn sep cs <;> exact List.cons_ne_nil _ _

variable {sep : PyChar} {s : PyStr}

theorem splitOn_of_not_mem (h : sep ∉ s) : splitOn sep s = [s] := by
  induction s with
  | nil => rfl
  | cons c cs ih =>
    have hc : c ≠ sep := by rintro rfl; simp at h
    have hcs := ih fun hm => h (List.mem_cons_of_mem c hm)
    simp [splitOn_cons,hc,hcs]

theorem splitOn_append_sep {t : PyStr} (h : sep ∉ s) :
    splitOn sep (s++sep::t) = s::splitOn sep t := by
  induction s with
  | nil => simp [splitOn_cons]
  | cons c s ih =>
    have hc : c ≠ sep := fun he => h (he ▸ List.mem_cons_self)
    have hs := ih fun hm => h (List.mem_cons_of_mem c hm)
    simp [splitOn_cons,hc,hs]

theorem subset_of_mem_splitOn {piece : PyStr} (h : piece ∈ splitOn sep s) :
    piece ⊆ s := by
  induction s generalizing piece with
  | nil => simp_all
  | cons c cs ih =>
    rw [splitOn_cons] at h
    split at h
    · obtain rfl | h := List.mem_cons.mp h
      · exact List.nil_subset _
      · exact List.subset_cons_of_subset c (ih h)
    · split at h
      · obtain rfl := List.mem_singleton.mp h
        simp
      · rename_i w ws hpieces
        obtain rfl | h := List.mem_cons.mp h
        · exact List.cons_subset_cons c (ih (by simp [hpieces]))
        · exact List.subset_cons_of_subset c (ih (by simp [hpieces,h]))

theorem strip_subset (s : PyStr) : strip s ⊆ s :=
  fun _ h => (List.dropWhile_suffix _).subset ((List.rdropWhile_prefix _ _).subset h)

theorem sep_not_mem_of_mem_splitOn {piece : PyStr} (h : piece ∈ splitOn sep s) :
    sep ∉ piece := by
  induction s generalizing piece with
  | nil => simp_all
  | cons c cs ih =>
    rw [splitOn_cons] at h
    split at h
    · obtain rfl | h := List.mem_cons.mp h
      · exact List.not_mem_nil
      · exact ih h
    · rename_i hc
      split at h
      · obtain rfl := List.mem_singleton.mp h
        simpa [eq_comm] using hc
      · rename_i w ws hpieces
        obtain rfl | h := List.mem_cons.mp h
        · simpa [Ne.symm hc] using ih (by simp [hpieces] : w ∈ _)
        · exact ih (by simp [hpieces,h])

theorem intercalate_cons (sep : PyChar) (w : PyStr) {ws : List PyStr} (h : ws ≠ []) :
    List.intercalate [sep] (w::ws) = w++sep::List.intercalate [sep] ws := by
  cases ws with
  | nil => exact absurd rfl h
  | cons w' ws => rw [List.intercalate_cons_cons,List.append_assoc,List.singleton_append]

theorem splitOn_intercalate {ws : List PyStr} (hne : ws ≠ []) (h : ∀ w ∈ ws, sep ∉ w) :
    splitOn sep (List.intercalate [sep] ws) = ws := by
  induction ws with
  | nil => exact absurd rfl hne
  | cons w ws ih =>
    have hw := h w List.mem_cons_self
    by_cases hws : ws = []
    · rw [hws,List.intercalate_singleton,splitOn_of_not_mem hw]
    · rw [intercalate_cons sep w hws,splitOn_append_sep hw,ih hws fun w hw => h w (List.mem_cons_of_mem _ hw)]

theorem intercalate_splitOn (sep : PyChar) (s : PyStr) : List.intercalate [sep] (splitOn sep s) = s := by
  induction s with
  | nil => rfl
  | cons c cs ih =>
    rw [splitOn_cons]
    split
    case isTrue hsep => rw [intercalate_cons sep [] (splitOn_ne_nil _ _),ih,hsep,List.nil_append]
    case isFalse =>
      split
      case h_1 hnil => exact absurd hnil (splitOn_ne_nil _ _)
      case h_2 w ws hpieces =>
        rw [hpieces] at ih
        by_cases hws : ws = []
        · rw [hws,List.intercalate_singleton] at ih
          rw [hws,List.intercalate_singleton,ih]
        · rw [intercalate_cons sep w hws] at ih
          rw [intercalate_cons sep _ hws,List.cons_append,ih]

theorem span_append {α : Type*} {p : α → Bool} {a b : List α} (ha : ∀ c ∈ a, p c = true)
    (hb : ∀ c ∈ b.head?, p c = false) : (a++b).takeWhile p = a ∧ (a++b).dropWhile p = b := by
  have hrest : b.takeWhile p = [] ∧ b.dropWhile p = b := by
    cases b with
    | nil => exact ⟨rfl,rfl⟩
    | cons c b =>
      have hc : ¬ p c = true := Bool.eq_false_iff.mp (hb c rfl)
      exact ⟨List.takeWhile_cons_of_neg hc,List.dropWhile_cons_of_neg hc⟩
  rw [List.takeWhile_append_of_pos ha,List.dropWhile_append_of_pos ha,hrest.1,hrest.2,List.append_nil]
  exact ⟨rfl,rfl⟩

theorem rdropWhile_append {α : Type*} {p : α → Bool} {a : List α}
    (h : ∀ c ∈ a.getLast?, p c = false) (b : List α) : (a++b).rdropWhile p = a++b.rdropWhile p := by
  induction b using List.reverseRecOn with
  | nil =>
    rw [List.append_nil,List.rdropWhile_nil,List.append_nil,List.rdropWhile_eq_self_iff]
    intro hne
    simp [h _ (List.getLast?_eq_getLast_of_ne_nil hne)]
  | append_singleton b x ih =>
    rw [← List.append_assoc,List.rdropWhile_concat,List.rdropWhile_concat]
    split
    · exact ih
    · exact List.append_assoc a b [x]

theorem strip_of_head (h : ∀ c ∈ s.head?, c.isSpace = false) :
    strip s = s.rdropWhile PyChar.isSpace := by
  cases s with
  | nil => rfl
  | cons c s => rw [strip,List.dropWhile_cons_of_neg (by simp [h c rfl])]

@[simp] theorem strip_strip (s : PyStr) : strip (strip s) = strip s := by
  have hhead : ∀ c ∈ (strip s).head?, c.isSpace = false := by
    intro c hc
    obtain ⟨rest,hrest⟩ := List.rdropWhile_prefix PyChar.isSpace (s.dropWhile PyChar.isSpace)
    cases hs : strip s with
    | nil => simp [hs] at hc
    | cons d t =>
      obtain rfl : d = c := by simpa [hs] using hc
      rw [← strip,hs] at hrest
      have hne : s.dropWhile PyChar.isSpace ≠ [] := by simp [← hrest]
      have hnot := List.head_dropWhile_not PyChar.isSpace hne
      simpa [← hrest] using hnot
  rw [strip_of_head hhead]
  exact List.rdropWhile_idempotent _ _

theorem append_sep_inj {x y z w : PyStr} (hx : sep ∉ x) (hy : sep ∉ y)
    (h : x++sep::z = y++sep::w) : x = y ∧ z = w := by
  induction x generalizing y with
  | nil =>
    cases y with
    | nil => exact ⟨rfl,(List.cons.inj h).2⟩
    | cons c y =>
      have hc : sep = c := (List.cons.inj h).1
      exact absurd (hc ▸ List.mem_cons_self) hy
  | cons c x ih =>
    cases y with
    | nil =>
      have hc : c = sep := (List.cons.inj h).1
      exact absurd (hc ▸ List.mem_cons_self) hx
    | cons c' y =>
      obtain ⟨rfl,hrest⟩ := List.cons.inj h
      have htail := ih (fun hm => hx (List.mem_cons_of_mem _ hm))
        (fun hm => hy (List.mem_cons_of_mem _ hm)) hrest
      exact ⟨by rw [htail.1],htail.2⟩

theorem code_inj {c d : PyChar} (h : c.code = d.code) : c = d := by
  rw [← ofCode_code c,h,ofCode_code]

theorem strLe_cons {c d : PyChar} {a b : PyStr} :
    strLe (c::a) (d::b) = true ↔ c.code < d.code ∨ c.code = d.code ∧ strLe a b = true := by
  simp [strLe]

theorem strLe_refl (a : PyStr) : strLe a a = true := by
  induction a with
  | nil => rfl
  | cons c a ih => exact strLe_cons.mpr (.inr ⟨rfl,ih⟩)

theorem strLe_total (a b : PyStr) : strLe a b = true ∨ strLe b a = true := by
  induction a generalizing b with
  | nil => exact .inl rfl
  | cons c a ih =>
    cases b with
    | nil => exact .inr rfl
    | cons d b =>
      rw [strLe_cons,strLe_cons]
      rcases Nat.lt_trichotomy c.code d.code with hlt | heq | hgt
      · exact .inl (.inl hlt)
      · exact (ih b).imp (fun h => .inr ⟨heq,h⟩) (fun h => .inr ⟨heq.symm,h⟩)
      · exact .inr (.inl hgt)

theorem strLe_antisymm {a b : PyStr} (hab : strLe a b = true) (hba : strLe b a = true) : a = b := by
  induction a generalizing b with
  | nil =>
    cases b with
    | nil => rfl
    | cons d b => cases hba
  | cons c a ih =>
    cases b with
    | nil => cases hab
    | cons d b =>
      rw [strLe_cons] at hab hba
      have hcode : c.code = d.code := by omega
      have hrest := ih (hab.resolve_left (by omega)).2 (hba.resolve_left (by omega)).2
      rw [code_inj hcode,hrest]

theorem strLe_trans {a b c : PyStr} (hab : strLe a b = true) (hbc : strLe b c = true) :
    strLe a c = true := by
  induction a generalizing b c with
  | nil => rfl
  | cons x a ih =>
    cases b with
    | nil => cases hab
    | cons y b =>
      cases c with
      | nil => cases hbc
      | cons z c =>
        rw [strLe_cons] at *
        by_cases hlt : x.code < z.code
        · exact .inl hlt
        · have hxy := hab.resolve_left (by omega)
          have hyz := hbc.resolve_left (by omega)
          exact .inr ⟨hxy.1.trans hyz.1,ih hxy.2 hyz.2⟩

theorem partsLe_total (a b : List PyStr) : partsLe a b = true ∨ partsLe b a = true := by
  induction a generalizing b with
  | nil => exact .inl rfl
  | cons x a ih =>
    cases b with
    | nil => exact .inr rfl
    | cons y b =>
      by_cases h : x = y
      · simpa [partsLe,h] using ih b
      · simpa [partsLe,h,Ne.symm h] using strLe_total x y

theorem partsLe_antisymm {a b : List PyStr} (hab : partsLe a b = true) (hba : partsLe b a = true) :
    a = b := by
  induction a generalizing b with
  | nil =>
    cases b with
    | nil => rfl
    | cons y b => cases hba
  | cons x a ih =>
    cases b with
    | nil => cases hab
    | cons y b =>
      by_cases h : x = y
      · subst h
        rw [ih (by simpa [partsLe] using hab) (by simpa [partsLe] using hba)]
      · rw [partsLe,if_neg h] at hab
        rw [partsLe,if_neg (Ne.symm h)] at hba
        exact absurd (strLe_antisymm hab hba) h

theorem partsLe_trans {a b c : List PyStr} (hab : partsLe a b = true) (hbc : partsLe b c = true) :
    partsLe a c = true := by
  induction a generalizing b c with
  | nil => rfl
  | cons x a ih =>
    cases b with
    | nil => cases hab
    | cons y b =>
      cases c with
      | nil => cases hbc
      | cons z c =>
        by_cases hxy : x = y
        · subst hxy
          by_cases hxz : x = z
          · subst hxz
            rw [partsLe,if_pos rfl] at hab hbc ⊢
            exact ih hab hbc
          · rw [partsLe,if_neg hxz] at hbc ⊢
            exact hbc
        · rw [partsLe,if_neg hxy] at hab
          by_cases hyz : y = z
          · subst hyz
            rw [partsLe,if_neg hxy]
            exact hab
          · rw [partsLe,if_neg hyz] at hbc
            have hxz : x ≠ z := by
              rintro rfl
              exact hxy (strLe_antisymm hab hbc)
            rw [partsLe,if_neg hxz]
            exact strLe_trans hab hbc

end MinimaxCode.PyText
