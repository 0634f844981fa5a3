import MinimaxCode.FrontMatter

/-!
# The layout of front matter

A value stands behind the colon of its key or on the lines below, two columns to the right. For
each kind of value this says exactly when the readers take the lines for it and give it back,
whatever stands at the left margin behind them.
-/

namespace MinimaxCode.FrontMatter

open PyText PyJson SplitLines
open Audit (lower)
open WorkspaceLock (Decimals intOfStr unsignedOf intOfStr_natText isSpace_of_isDigit)

inductive Mark
  | double
  | single
  deriving DecidableEq

def Mark.char : Mark → PyChar
  | double => ch '"'
  | single => ch '\''

/-- A string of one line, with quotes or without. -/
inductive Text
  | plain (s : PyStr)
  | quoted (mark : Mark) (s : PyStr)
  deriving DecidableEq

namespace Text

def value : Text → PyStr
  | plain s => s
  | quoted _ s => s

def shown : Text → PyStr
  | plain s => s
  | quoted mark s => mark.char::s++[mark.char]

end Text

/-- The documented kinds of values. -/
inductive Value
  | text (t : Text)
  | int (n : ℤ)
  | bool (b : Bool)
  | empty
  | literal (lines : List PyStr)
  | list (items : List Text)
  /-- A block on the next lines, without a marker. -/
  | block (lines : List PyStr)
  deriving DecidableEq

def indented (line : PyStr) : PyStr := lit "  "++line

def itemLine (t : Text) : PyStr := lit "  - "++t.shown

namespace Value

/-- What the value is. -/
def data : Value → Data
  | text t => .str t.value
  | int n => .int n
  | bool b => .bool b
  | empty => .str []
  | literal lines => .str (join '\n' lines)
  | list items => .list (items.map fun t => .str t.value)
  | block lines => .str (join '\n' lines)

/-- What stands behind the colon. -/
def inline : Value → PyStr
  | text t => ch ' '::t.shown
  | int n => ch ' '::intText n
  | bool b => if b then lit " true" else lit " false"
  | empty => []
  | literal _ => lit " |"
  | list [] => lit " []"
  | list (_::_) => []
  | block _ => []

/-- The lines below. -/
def below : Value → List PyStr
  | literal lines => lines.map indented
  | list items => items.map itemLine
  | block lines => lines.map indented
  | _ => []

def lines (key : PyStr) (v : Value) : List PyStr := (key++ch ':'::v.inline)::v.below

/-- The lines of text in a value. -/
def strings : Value → List PyStr
  | text t => [t.value]
  | literal lines => lines
  | list items => items.map Text.value
  | block lines => lines
  | _ => []

end Value

section Readable

variable (d : Decimals)

/-- A text that is not read as anything else than a string without quotes. -/
structure ReadsPlain (s : PyStr) : Prop where
  emptyList : s ≠ lit "[]"
  quoted : isQuoted s = false
  word : lower s ∉ trueWords++falseWords++nullWords
  int : intShape d s = false
  float : floatShape d s = false

/-- The lines of a literal block that are all read: there are none, or one empty line, or the first
is not blank and not indented any further, the last is not blank, and blank lines are empty. -/
def LiteralOk (lines : List PyStr) : Prop :=
  lines = [] ∨ lines = [[]] ∨
    (∀ line ∈ lines.head?, isBlank line = false ∧ measureIndent line = 0) ∧
      (∀ line ∈ lines.getLast?, line ≠ []) ∧ ∀ line ∈ lines, isBlank line = true → line = []

/-- The value is given back. -/
def Value.Readable : Value → Prop
  | .text (.plain s) => s = [] ∨ strip s = s ∧ s ∉ markers ∧ ReadsPlain d s
  | .int n => (natText n.natAbs).length ≤ maxStrDigits
  | .literal lines => LiteralOk lines
  | .list items => ∀ t ∈ items, ∀ s, t = .plain s → s = [] ∨ lstrip s = s ∧ ReadsPlain d s
  | .block lines => lines = [] ∨ lines = [[]]
  | _ => True

end Readable

/-- The left margin: what stands behind the lines of a value. -/
def Margin (rest : List PyStr) : Prop :=
  ∀ line ∈ rest.head?, isBlank line = false ∧ measureIndent line = 0

section Scalars

variable {d : Decimals}

theorem parseScalar_eq_str {text s : PyStr} (hne : text ≠ []) (hle : text.length ≤ s.length) :
    parseScalar d text = .ok (.str s) ↔ text = s ∧ ReadsPlain d text := by
  constructor
  · intro h
    unfold parseScalar at h
    rw [if_neg hne] at h
    split at h
    · cases h
    next hlist =>
    split at h
    · cases h
      have hpos := List.length_pos_iff.mpr hne
      rw [List.length_dropLast,List.length_tail] at hle
      omega
    next hquoted =>
    split at h
    · cases h
    next htrue =>
    split at h
    · cases h
    next hfalse =>
    split at h
    · cases h
    next hnull =>
    split at h
    · split at h <;> cases h
    next hint =>
    split at h
    · cases h
    next hfloat =>
    cases h
    refine ⟨rfl,hlist,Bool.not_eq_true _ ▸ hquoted,?_,Bool.not_eq_true _ ▸ hint,Bool.not_eq_true _ ▸ hfloat⟩
    rw [List.mem_append,List.mem_append,not_or,not_or]
    exact ⟨⟨htrue,hfalse⟩,hnull⟩
  · rintro ⟨rfl,h⟩
    have hword := h.word
    rw [List.mem_append,List.mem_append,not_or,not_or] at hword
    unfold parseScalar
    rw [if_neg hne,if_neg h.emptyList,if_neg (by simp [h.quoted]),if_neg hword.1.1,if_neg hword.1.2,
      if_neg hword.2,if_neg (by simp [h.int]),if_neg (by simp [h.float])]

theorem parseScalar_quoted (mark : Mark) (s : PyStr) :
    parseScalar d (Text.quoted mark s).shown = .ok (.str s) := by
  have hlist : ∀ mark : Mark, some mark.char ≠ (lit "[]").head? := by
    intro mark
    cases mark <;> decide
  have hne : (Text.quoted mark s).shown ≠ lit "[]" := fun h => hlist mark (congrArg List.head? h)
  have hhead : (Text.quoted mark s).shown.head? = some mark.char := rfl
  have hlast : (Text.quoted mark s).shown.getLast? = some mark.char := List.getLast?_concat
  have hquoted : isQuoted (Text.quoted mark s).shown = true := by
    rw [isQuoted,hhead,hlast]
    cases mark <;> rfl
  have hinner : (Text.quoted mark s).shown.tail.dropLast = s := by simp [Text.shown]
  unfold parseScalar
  rw [if_neg (by simp [Text.shown]),if_neg hne,if_pos hquoted,hinner]

theorem unsignedOf_natText (n : ℕ) : unsignedOf d (natText n) = some n := by
  have hint := intOfStr_natText (d := d) n
  obtain ⟨c,cs,htext,hdigit⟩ := natText_starts n
  have hstrip := WorkspaceLock.strip_of_digits (natText_digits n)
  have hminus : c ≠ ch '-' := by
    rintro rfl
    exact absurd hdigit (by decide)
  have hplus : c ≠ ch '+' := by
    rintro rfl
    exact absurd hdigit (by decide)
  rw [intOfStr,hstrip,htext] at hint
  simp only [if_neg hminus,if_neg hplus,← htext] at hint
  cases hvalue : unsignedOf d (natText n) with
  | none => simp [hvalue] at hint
  | some m =>
    rw [hvalue,Option.map_some,Option.some.injEq,Nat.cast_inj] at hint
    rw [hint]

theorem unsigned_intText (n : ℤ) : unsigned (intText n) = natText n.natAbs := by
  unfold intText
  split
  · rw [unsigned,if_pos rfl]
  · obtain ⟨c,cs,htext,hdigit⟩ := natText_starts n.natAbs
    rw [htext,unsigned,if_neg]
    rintro rfl
    exact absurd hdigit (by decide)

theorem strip_intText (n : ℤ) : strip (intText n) = intText n := by
  have hstrip := WorkspaceLock.strip_of_digits (natText_digits n.natAbs)
  unfold intText
  split
  · have hhead : ∀ c ∈ (natText n.natAbs).head?, c.isSpace = false := fun c hc =>
      isSpace_of_isDigit (natText_digits _ c (List.mem_of_head? hc))
    have hminus : ∀ c ∈ [ch '-'].getLast?, c.isSpace = false := by decide
    rw [strip_of_head hhead] at hstrip
    rw [strip_of_head (by simp; decide),← List.singleton_append,rdropWhile_append hminus,hstrip]
  · exact hstrip

theorem intOfStr_intText (n : ℤ) : intOfStr d (intText n) = some n := by
  have hstrip := strip_intText n
  unfold intText at hstrip ⊢
  split
  next hneg =>
    rw [if_pos hneg] at hstrip
    rw [intOfStr,hstrip]
    simp only [if_true,unsignedOf_natText,Option.map_some,Option.some.injEq]
    omega
  next hpos =>
    rw [intOfStr_natText,Option.some.injEq]
    omega

theorem isDecimal_digit {c : PyChar} (h : isDigit c = true) : isDecimal d c = true := by
  have hascii : c.code < 128 := by
    rw [isDigit,Bool.and_eq_true,decide_eq_true_iff,decide_eq_true_iff] at h
    omega
  rw [isDecimal,if_pos hascii,h]

theorem countP_intText (n : ℤ) : (intText n).countP (isDecimal d) = (natText n.natAbs).length := by
  have hdigits : (natText n.natAbs).countP (isDecimal d) = (natText n.natAbs).length :=
    List.countP_eq_length.mpr fun c hc => isDecimal_digit (natText_digits _ c hc)
  have hminus : isDecimal d (ch '-') = false := by
    rw [isDecimal,if_pos (by decide)]
    rfl
  unfold intText
  split
  · rw [List.countP_cons_of_neg (by simp [hminus]),hdigits]
  · exact hdigits

theorem getLast?_intText (n : ℤ) : ∃ c, (intText n).getLast? = some c ∧ isDigit c = true := by
  have hne : natText n.natAbs ≠ [] := by
    obtain ⟨c,cs,htext,-⟩ := natText_starts n.natAbs
    exact htext ▸ List.cons_ne_nil c cs
  refine ⟨(natText n.natAbs).getLast hne,?_,natText_digits _ _ (List.getLast_mem hne)⟩
  rw [intText_eq,List.getLast?_append_of_ne_nil _ hne,List.getLast?_eq_getLast_of_ne_nil hne]

theorem intText_ne {n : ℤ} {text : PyStr} (h : ∀ c ∈ text, isDigit c = false) : intText n ≠ text := by
  rintro rfl
  obtain ⟨c,hlast,hdigit⟩ := getLast?_intText n
  rw [h c (List.mem_of_getLast? hlast)] at hdigit
  cases hdigit

theorem mem_lower_digit {s : PyStr} {c : PyChar} (hc : c ∈ s) (h : isDigit c = true) : c ∈ lower s := by
  refine List.mem_map.mpr ⟨c,hc,?_⟩
  cases c with
  | surrogate n => rfl
  | scalar x =>
    have hle : x.toNat ≤ 57 := by
      rw [isDigit,Bool.and_eq_true] at h
      exact of_decide_eq_true h.2
    have hkelvin : x ≠ '\u212a' := by
      rintro rfl
      exact absurd hle (by decide)
    have hlower : x.toLower = x := by
      unfold Char.toLower
      refine dif_neg fun hupper => ?_
      have : 65 ≤ x.toNat := hupper.1
      omega
    simp only [if_neg hkelvin,hlower]

theorem lower_intText_not_mem {words : List PyStr} (h : ∀ w ∈ words, ∀ c ∈ w, isDigit c = false)
    (n : ℤ) : lower (intText n) ∉ words := by
  intro hmem
  obtain ⟨c,hlast,hdigit⟩ := getLast?_intText n
  have hlower := mem_lower_digit (List.mem_of_getLast? hlast) hdigit
  rw [h _ hmem c hlower] at hdigit
  cases hdigit

theorem parseScalar_intText (n : ℤ) : parseScalar d (intText n) =
    if (natText n.natAbs).length ≤ maxStrDigits then .ok (.int n) else .error (.notAnInt (intText n)) := by
  obtain ⟨c,hlast,hdigit⟩ := getLast?_intText n
  have hquoted : isQuoted (intText n) = false := by
    rw [isQuoted,hlast,Bool.and_eq_false_iff,Bool.or_eq_false_iff,or_iff_not_imp_left]
    intro hhead
    rw [Bool.not_eq_false,beq_iff_eq] at hhead
    rw [hhead]
    constructor <;> rw [beq_eq_false_iff_ne,ne_eq,Option.some.injEq] <;> rintro rfl <;>
      exact absurd hdigit (by decide)
  have hshape : intShape d (intText n) = true := by
    have hall : (natText n.natAbs).all (isDecimal d) = true :=
      List.all_eq_true.mpr fun c hc => isDecimal_digit (natText_digits _ c hc)
    obtain ⟨c,cs,htext,-⟩ := natText_starts n.natAbs
    rw [intShape,unsigned_intText,hall,htext]
    rfl
  unfold parseScalar toInt
  rw [if_neg (intText_ne (by decide)),if_neg (intText_ne (by decide)),if_neg (by simp [hquoted]),
    if_neg (lower_intText_not_mem (by decide) n),if_neg (lower_intText_not_mem (by decide) n),
    if_neg (lower_intText_not_mem (by decide) n),if_pos hshape,countP_intText]
  by_cases hlen : (natText n.natAbs).length ≤ maxStrDigits
  · rw [if_pos hlen,if_pos hlen,intOfStr_intText]
  · rw [if_neg hlen,if_neg hlen]

end Scalars

section Inline

variable {d : Decimals} {rest : List PyStr}

theorem parseBlock_margin (hrest : Margin rest) (implicit : Bool) (i : ℕ) :
    parseBlock d 0 implicit i rest = .ok (0,.none) := by
  cases rest with
  | nil => rfl
  | cons line rest =>
    obtain ⟨hblank,hindent⟩ := hrest line rfl
    unfold parseBlock
    dsimp only
    rw [if_neg (by simp [hblank]),if_pos (le_of_eq hindent)]

theorem parseBlockScalarAfterMarker_margin (hrest : Margin rest) (marker : PyChar) :
    parseBlockScalarAfterMarker 0 marker rest = (0,[]) := by
  cases rest with
  | nil => rfl
  | cons line rest =>
    obtain ⟨hblank,hindent⟩ := hrest line rfl
    unfold parseBlockScalarAfterMarker
    dsimp only
    rw [if_neg (by simp [hblank]),if_pos (le_of_eq hindent)]

theorem parseValue_nil (hrest : Margin rest) (i : ℕ) :
    parseValue d 0 i [] rest = .ok (0,.str []) := by
  rw [parseValue,if_pos rfl,parseBlock_margin hrest]
  rfl

theorem parseValue_marker {text : PyStr} (htext : text ∈ markers) (hrest : Margin rest) (i : ℕ) :
    parseValue d 0 i text rest = .ok (0,.str []) := by
  have hne : text ≠ [] := by
    rintro rfl
    exact absurd htext (by decide)
  rw [parseValue,if_neg hne,if_pos htext,parseBlockScalarAfterMarker_margin hrest]

theorem parseValue_scalar {text : PyStr} (hne : text ≠ []) (htext : text ∉ markers) (base i : ℕ) :
    parseValue d base i text rest = (parseScalar d text).map fun v => (0,v) := by
  rw [parseValue,if_neg hne,if_neg htext]
  cases parseScalar d text <;> rfl

theorem strip_space (s : PyStr) : strip (ch ' '::s) = strip s := by
  rw [strip,List.dropWhile_cons_of_pos (by decide)]
  rfl

theorem length_strip_le (s : PyStr) : (strip s).length ≤ s.length :=
  ((List.rdropWhile_prefix _ _).length_le).trans (List.dropWhile_sublist _).length_le

theorem parseValue_plain (hrest : Margin rest) (i : ℕ) (s : PyStr) :
    (∃ consumed, parseValue d 0 i (strip (ch ' '::s)) rest = .ok (consumed,.str s)) ↔
      s = [] ∨ strip s = s ∧ s ∉ markers ∧ ReadsPlain d s := by
  rw [strip_space]
  by_cases hnil : strip s = []
  · rw [hnil,parseValue_nil hrest]
    constructor
    · rintro ⟨consumed,h⟩
      cases h
      exact .inl rfl
    · rintro (rfl | ⟨hstrip,-⟩)
      · exact ⟨0,rfl⟩
      · exact ⟨0,by rw [← hstrip]⟩
  have hs : s ≠ [] := by
    rintro rfl
    exact hnil rfl
  by_cases hmarker : strip s ∈ markers
  · rw [parseValue_marker hmarker hrest]
    constructor
    · rintro ⟨consumed,h⟩
      cases h
      exact absurd rfl hs
    · rintro (rfl | ⟨hstrip,hno,-⟩)
      · exact absurd rfl hs
      · exact absurd (hstrip ▸ hmarker) hno
  · rw [parseValue_scalar hnil hmarker]
    constructor
    · rintro ⟨consumed,h⟩
      cases hv : parseScalar d (strip s) with
      | error e =>
        rw [hv] at h
        cases h
      | ok v =>
        rw [hv] at h
        cases h
        obtain ⟨hstrip,hplain⟩ := (parseScalar_eq_str hnil (length_strip_le s)).mp hv
        rw [hstrip] at hplain hmarker
        exact .inr ⟨hstrip,hmarker,hplain⟩
    · rintro (rfl | ⟨hstrip,-,hplain⟩)
      · exact absurd rfl hs
      · rw [hstrip,(parseScalar_eq_str hs le_rfl).mpr ⟨rfl,hplain⟩]
        exact ⟨0,rfl⟩

theorem strip_quoted (mark : Mark) (s : PyStr) :
    strip (Text.quoted mark s).shown = (Text.quoted mark s).shown := by
  have hmark : mark.char.isSpace = false := by cases mark <;> rfl
  have hhead : ∀ c ∈ (Text.quoted mark s).shown.head?, c.isSpace = false := by
    intro c hc
    cases hc
    exact hmark
  rw [strip_of_head hhead,Text.shown,List.rdropWhile_concat_neg]
  simp [hmark]

theorem parseValue_quoted (base i : ℕ) (mark : Mark) (s : PyStr) :
    parseValue d base i (strip (ch ' '::(Text.quoted mark s).shown)) rest = .ok (0,.str s) := by
  have hmarkers : ∀ mark : Mark, ∀ m ∈ markers, m.head? ≠ some mark.char := by
    intro mark
    cases mark <;> decide
  have hne : (Text.quoted mark s).shown ≠ [] := List.cons_ne_nil _ _
  rw [strip_space,strip_quoted,parseValue_scalar hne fun h => hmarkers mark _ h rfl,parseScalar_quoted]
  rfl

theorem parseValue_int (base i : ℕ) (n : ℤ) :
    (∃ consumed, parseValue d base i (strip (ch ' '::intText n)) rest = .ok (consumed,.int n)) ↔
      (natText n.natAbs).length ≤ maxStrDigits := by
  have hmarkers : intText n ∉ markers := fun h => by
    have hno : ∀ m ∈ markers, ∀ c ∈ m, isDigit c = false := by decide
    exact intText_ne (hno _ h) rfl
  rw [strip_space,strip_intText,parseValue_scalar (intText_ne (by decide)) hmarkers,parseScalar_intText]
  by_cases hlen : (natText n.natAbs).length ≤ maxStrDigits
  · rw [if_pos hlen]
    exact ⟨fun _ => hlen,fun _ => ⟨0,rfl⟩⟩
  · rw [if_neg hlen]
    exact ⟨(fun ⟨_,h⟩ => nomatch h),fun h => absurd h hlen⟩

theorem parseValue_bool (base i : ℕ) (b : Bool) :
    parseValue d base i (strip (Value.bool b).inline) rest = .ok (0,.bool b) := by
  cases b <;> rfl

theorem parseValue_emptyList (base i : ℕ) :
    parseValue d base i (strip (Value.list []).inline) rest = .ok (0,.list []) := rfl

end Inline

theorem measureIndent_indented (line : PyStr) : measureIndent (indented line) = measureIndent line+2 := rfl

theorem isBlank_indented (line : PyStr) : isBlank (indented line) = isBlank line := rfl

theorem drop_indented (k : ℕ) (line : PyStr) : (indented line).drop (k+2) = line.drop k := rfl

variable {rest lines : List PyStr}

theorem bodyLines_margin (hrest : Margin rest) {indent : ℕ} (hindent : 0 < indent) :
    bodyLines indent rest = (0,[]) := by
  cases rest with
  | nil => rfl
  | cons line rest =>
    obtain ⟨hblank,hmargin⟩ := hrest line rfl
    rw [bodyLines,if_neg (by simp [hblank]),if_pos (hmargin ▸ hindent)]

/-- What is kept of a line of a block. -/
def keptLine (line : PyStr) : PyStr := if isBlank line then [] else line

theorem bodyLines_indented (hrest : Margin rest) (lines : List PyStr) :
    bodyLines 2 (lines.map indented++rest) = (lines.length,lines.map keptLine) := by
  induction lines with
  | nil => exact bodyLines_margin hrest (by decide)
  | cons line lines ih =>
    rw [List.map_cons,List.cons_append,bodyLines,ih,isBlank_indented,measureIndent_indented,List.map_cons,
      keptLine,if_neg (not_lt.mpr (Nat.le_add_left 2 _)),drop_indented 0,List.drop_zero]
    split <;> rfl

theorem join_eq_nil_iff : join '\n' lines = [] ↔ lines = [] ∨ lines = [[]] := by
  cases lines with
  | nil => exact ⟨fun _ => .inl rfl,fun _ => rfl⟩
  | cons line lines =>
    by_cases hnil : lines = []
    · rw [hnil,join,List.intercalate_singleton]
      simp
    · rw [join,intercalate_cons _ line hnil]
      simp [hnil]

theorem join_inj {a b : List PyStr} (ha : a ≠ []) (hb : b ≠ []) (hua : ∀ line ∈ a, Unbroken line)
    (hub : ∀ line ∈ b, Unbroken line) (h : join '\n' a = join '\n' b) : a = b := by
  rw [← splitOn_intercalate ha fun line hline => (hua line hline).lf_not_mem,
    ← splitOn_intercalate hb fun line hline => (hub line hline).lf_not_mem]
  exact congrArg (splitOn (ch '\n')) h

theorem map_keptLine :
    lines.map keptLine = lines ↔ ∀ line ∈ lines, isBlank line = true → line = [] := by
  have hid : lines.map keptLine = lines ↔ ∀ line ∈ lines, keptLine line = line := by
    conv_lhs => rhs; rw [← List.map_id lines]
    exact List.map_inj_left
  rw [hid]
  refine forall_congr' fun line => imp_congr_right fun _ => ?_
  unfold keptLine
  split
  next h => exact ⟨fun heq _ => heq.symm,fun heq => (heq h).symm⟩
  next h => exact ⟨fun _ hblank => absurd hblank h,fun _ => rfl⟩

theorem dropBlank_keptLine : dropBlank (lines.map keptLine) = lines ↔
    (∀ line ∈ lines.getLast?, line ≠ []) ∧ ∀ line ∈ lines, isBlank line = true → line = [] := by
  constructor
  · intro h
    have hkept : dropBlank (lines.map keptLine) <+: lines.map keptLine := List.rdropWhile_prefix _ _
    have hmap : lines.map keptLine = lines := by
      rw [h] at hkept
      exact (hkept.eq_of_length (by rw [List.length_map])).symm
    rw [hmap] at h
    refine ⟨fun line hline => ?_,map_keptLine.mp hmap⟩
    have hself := List.rdropWhile_eq_self_iff.mp h
    have hne : lines ≠ [] := by
      rintro rfl
      cases hline
    have hlast := hself hne
    rw [List.getLast?_eq_getLast_of_ne_nil hne,Option.mem_some_iff] at hline
    simpa [hline] using hlast
  · rintro ⟨hlast,hblank⟩
    rw [map_keptLine.mpr hblank,dropBlank,List.rdropWhile_eq_self_iff]
    intro hne
    simpa using hlast _ (List.getLast?_eq_getLast_of_ne_nil hne)

theorem drop_measureIndent {line : PyStr} (h : isBlank line = false) :
    line.drop (measureIndent line) ≠ [] := by
  intro hnil
  have hle : line.length ≤ measureIndent line := List.drop_eq_nil_iff.mp hnil
  have hall : line.takeWhile (· = ch ' ') = line :=
    (List.takeWhile_prefix _).eq_of_length_le hle
  have hblank : isBlank line = true := by
    refine List.all_eq_true.mpr fun c hc => ?_
    rw [← hall] at hc
    obtain rfl : c = ch ' ' := by simpa using List.mem_takeWhile_imp hc
    rfl
  rw [h] at hblank
  cases hblank

section Below

variable {d : Decimals} {rest : List PyStr} {line : PyStr}

theorem afterMarker_blank (h : isBlank line = true) (lines : List PyStr) (marker : PyChar) :
    parseBlockScalarAfterMarker 0 marker (line::lines) = (0,[]) := by
  unfold parseBlockScalarAfterMarker
  dsimp only
  rw [if_pos h]

theorem afterMarker_lines (h : isBlank line = false) (lines : List PyStr) :
    parseBlockScalarAfterMarker 0 (ch '|') ((line::lines).map indented++rest) =
      ((bodyLines (measureIndent line+2) ((line::lines).map indented++rest)).1,join '\n'
        (dropBlank (bodyLines (measureIndent line+2) ((line::lines).map indented++rest)).2)) := by
  rw [List.map_cons,List.cons_append]
  unfold parseBlockScalarAfterMarker
  dsimp only
  rw [isBlank_indented,if_neg (by simp [h]),measureIndent_indented,if_neg (by omega)]
  rfl

theorem measureIndent_of_join {lines : List PyStr} (hblank : isBlank line = false)
    (hlines : ∀ l ∈ line::lines, Unbroken l) (hrest : ∀ l ∈ rest, Unbroken l)
    (h : join '\n' (dropBlank (bodyLines (measureIndent line+2)
      ((line::lines).map indented++rest)).2) = join '\n' (line::lines)) : measureIndent line = 0 := by
  have hdrop := drop_measureIndent hblank
  have hbody : (bodyLines (measureIndent line+2) ((line::lines).map indented++rest)).2 =
      line.drop (measureIndent line)::
        (bodyLines (measureIndent line+2) (lines.map indented++rest)).2 := by
    rw [List.map_cons,List.cons_append,bodyLines,isBlank_indented,if_neg (by simp [hblank]),
      measureIndent_indented,if_neg (lt_irrefl _)]
    rfl
  have hall : ∀ l ∈ (line::lines).map indented++rest, Unbroken l := by
    refine List.forall_mem_append.mpr ⟨fun l hl => ?_,hrest⟩
    obtain ⟨l',hl',rfl⟩ := List.mem_map.mp hl
    exact unbroken_append.mpr ⟨by decide,hlines l' hl'⟩
  have hkept : dropBlank (line.drop (measureIndent line)::
      (bodyLines (measureIndent line+2) (lines.map indented++rest)).2) = line.drop (measureIndent line)::
      dropBlank (bodyLines (measureIndent line+2) (lines.map indented++rest)).2 :=
    rdropWhile_append (a := [line.drop (measureIndent line)]) (by simpa using hdrop) _
  have heq := join_inj (by rw [hbody,hkept]; exact List.cons_ne_nil _ _) (List.cons_ne_nil _ _)
    (unbroken_dropBlank (unbroken_bodyLines hall)) hlines h
  rw [hbody,hkept] at heq
  have hlength := congrArg List.length (List.cons.inj heq).1
  rw [List.length_drop] at hlength
  have hpos := List.length_pos_iff.mpr hdrop
  rw [List.length_drop] at hpos
  omega

theorem parseValue_literal (hrest : Margin rest) (hrest' : ∀ l ∈ rest, Unbroken l) {lines : List PyStr}
    (hlines : ∀ l ∈ lines, Unbroken l) (i : ℕ) :
    (∃ consumed, parseValue d 0 i (strip (Value.literal lines).inline) (lines.map indented++rest) =
      .ok (consumed,.str (join '\n' lines))) ↔ LiteralOk lines := by
  have hvalue : parseValue d 0 i (strip (Value.literal lines).inline) (lines.map indented++rest) =
      .ok ((parseBlockScalarAfterMarker 0 (ch '|') (lines.map indented++rest)).1,
        .str (parseBlockScalarAfterMarker 0 (ch '|') (lines.map indented++rest)).2) := rfl
  have hiff : (∃ consumed, parseValue d 0 i (strip (Value.literal lines).inline)
      (lines.map indented++rest) = .ok (consumed,.str (join '\n' lines))) ↔
      (parseBlockScalarAfterMarker 0 (ch '|') (lines.map indented++rest)).2 = join '\n' lines := by
    rw [hvalue]
    constructor
    · rintro ⟨consumed,h⟩
      exact Data.str.inj (congrArg Prod.snd (Except.ok.inj h))
    · exact fun h => ⟨_,by rw [h]⟩
  rw [hiff]
  cases lines with
  | nil =>
    rw [List.map_nil,List.nil_append,parseBlockScalarAfterMarker_margin hrest]
    exact ⟨fun _ => .inl rfl,fun _ => rfl⟩
  | cons line lines =>
    cases hblank : isBlank line with
    | true =>
      rw [List.map_cons,List.cons_append,afterMarker_blank ((isBlank_indented line).trans hblank),eq_comm,join_eq_nil_iff]
      constructor
      · rintro (h | h)
        · cases h
        · exact .inr (.inl h)
      · rintro (h | h | ⟨h,-⟩)
        · cases h
        · exact .inr h
        · exact absurd (h line rfl).1 (by simp [hblank])
    | false =>
      rw [afterMarker_lines hblank]
      constructor
      · intro h
        have hindent := measureIndent_of_join hblank hlines hrest' h
        rw [hindent,Nat.zero_add,bodyLines_indented hrest] at h
        refine .inr (.inr ⟨fun l hl => ?_,dropBlank_keptLine.mp ?_⟩)
        · cases hl
          exact ⟨hblank,hindent⟩
        have hne : dropBlank ((line::lines).map keptLine) ≠ [] := by
          intro hnil
          have hall := List.rdropWhile_eq_nil_iff.mp hnil (keptLine line) List.mem_cons_self
          have hline : line = [] := by simpa [keptLine,hblank] using hall
          rw [hline] at hblank
          cases hblank
        refine join_inj hne (List.cons_ne_nil _ _) (unbroken_dropBlank fun l hl => ?_) hlines h
        obtain ⟨l',hl',rfl⟩ := List.mem_map.mp hl
        unfold keptLine
        split
        · exact unbroken_nil
        · exact hlines l' hl'
      · rintro (h | h | ⟨hhead,hkept⟩)
        · cases h
        · obtain ⟨rfl,-⟩ := List.cons.inj h
          cases hblank
        · rw [(hhead line rfl).2,Nat.zero_add,bodyLines_indented hrest,dropBlank_keptLine.mpr hkept]

/-- A string stands as an item of a list. -/
def ItemOk (d : Decimals) (t : Text) : Prop := ∀ s, t = .plain s → s = [] ∨ lstrip s = s ∧ ReadsPlain d s

theorem length_lstrip_le (s : PyStr) : (lstrip s).length ≤ s.length := (List.dropWhile_sublist _).length_le

theorem listItem_shown (t : Text) :
    listItem d (lstrip t.shown) = .ok (.str t.value) ↔ ItemOk d t := by
  cases t with
  | quoted mark s =>
    have hmark : mark.char.isSpace = false := by cases mark <;> rfl
    have hstrip : lstrip (Text.quoted mark s).shown = (Text.quoted mark s).shown :=
      List.dropWhile_cons_of_neg (by simp [hmark])
    have hne : (Text.quoted mark s).shown ≠ [] := List.cons_ne_nil _ _
    rw [hstrip,listItem,if_neg hne,parseScalar_quoted]
    exact ⟨(fun _ _ h => nomatch h),fun _ => rfl⟩
  | plain s =>
    have hok : ItemOk d (.plain s) ↔ s = [] ∨ lstrip s = s ∧ ReadsPlain d s :=
      ⟨fun h => h s rfl,fun h s' heq => by cases heq; exact h⟩
    rw [hok,Text.shown,Text.value,listItem]
    by_cases hnil : lstrip s = []
    · rw [if_pos hnil]
      constructor
      · intro h
        cases h
        exact .inl rfl
      · rintro (rfl | ⟨hstrip,-⟩)
        · rfl
        · rw [← hstrip,hnil]
    · rw [if_neg hnil,parseScalar_eq_str hnil (length_lstrip_le s)]
      constructor
      · rintro ⟨hstrip,hplain⟩
        rw [hstrip] at hplain
        exact .inr ⟨hstrip,hplain⟩
      · rintro (rfl | ⟨hstrip,hplain⟩)
        · exact absurd rfl hnil
        · rw [hstrip]
          exact ⟨rfl,hplain⟩

theorem parseBlockList_itemLine (t : Text) (i : ℕ) :
    parseBlockList d 2 i (itemLine t::rest) = do
      let item ← listItem d (lstrip t.shown)
      let (consumed,items) ← parseBlockList d 2 (i+1) rest
      return (consumed+1,item::items) := by
  have hindent : measureIndent (itemLine t) = 2 := rfl
  have hblank : isBlank (itemLine t) = false := rfl
  have hstrip : lstrip (itemLine t) = ch '-'::ch ' '::t.shown := rfl
  have hitem : lstrip (ch ' '::t.shown) = lstrip t.shown := rfl
  rw [parseBlockList,hblank,hindent,hstrip]
  dsimp only
  rw [if_neg Bool.false_ne_true,if_neg (lt_irrefl 2),if_neg (lt_irrefl 2),if_neg (by simp),hitem]

theorem parseBlockList_margin (hrest : Margin rest) (i : ℕ) :
    parseBlockList d 2 i rest = .ok (0,[]) := by
  cases rest with
  | nil => rfl
  | cons line rest =>
    obtain ⟨hblank,hindent⟩ := hrest line rfl
    rw [parseBlockList,if_neg (by simp [hblank]),if_pos (by omega)]

theorem parseBlockList_items (hrest : Margin rest) (items : List Text) : ∀ i consumed,
    parseBlockList d 2 i (items.map itemLine++rest) =
      .ok (consumed,items.map fun t => .str t.value) ↔
    consumed = items.length ∧ ∀ t ∈ items, ItemOk d t := by
  induction items with
  | nil =>
    intro i consumed
    rw [List.map_nil,List.nil_append,parseBlockList_margin hrest]
    constructor
    · intro h
      cases h
      exact ⟨rfl,fun _ h => nomatch h⟩
    · rintro ⟨rfl,-⟩
      rfl
  | cons t items ih =>
    intro i consumed
    rw [List.map_cons,List.cons_append,parseBlockList_itemLine,List.forall_mem_cons,List.map_cons]
    constructor
    · intro h
      obtain ⟨item,hitem,h⟩ := bind_ok h
      obtain ⟨⟨n,vs⟩,hmore,h⟩ := bind_ok h
      cases h
      obtain ⟨rfl,hitems⟩ := (ih (i+1) n).mp hmore
      exact ⟨rfl,(listItem_shown t).mp hitem,hitems⟩
    · rintro ⟨rfl,ht,hitems⟩
      rw [(listItem_shown t).mpr ht,(ih (i+1) items.length).mpr ⟨rfl,hitems⟩]
      rfl

theorem parseValue_list (hrest : Margin rest) (t : Text) (items : List Text) (i consumed : ℕ) :
    parseValue d 0 i (strip (Value.list (t::items)).inline) ((t::items).map itemLine++rest) =
      .ok (consumed,.list ((t::items).map fun t => .str t.value)) ↔
    consumed = (t::items).length ∧ ∀ u ∈ t::items, ItemOk d u := by
  rw [← parseBlockList_items hrest (t::items) (i+1) consumed]
  have hblank : isBlank (itemLine t) = false := rfl
  have hindent : measureIndent (itemLine t) = 2 := rfl
  have hstrip : lstrip (itemLine t) = ch '-'::ch ' '::t.shown := rfl
  have hblock : parseBlock d 0 true (i+1) ((t::items).map itemLine++rest) =
      (parseBlockList d 2 (i+1) ((t::items).map itemLine++rest)).bind fun r => .ok (r.1,.list r.2) := by
    rw [List.map_cons,List.cons_append]
    unfold parseBlock
    dsimp only
    rw [hblank,if_neg Bool.false_ne_true,hindent,if_neg (by decide),hstrip]
    dsimp only
    rw [if_pos rfl]
    rfl
  have hvalue : parseValue d 0 i (strip (Value.list (t::items)).inline) ((t::items).map itemLine++rest) =
      (parseBlock d 0 true (i+1) ((t::items).map itemLine++rest)).bind fun r =>
        .ok (r.1,if r.1 = 0 then .str [] else r.2) := rfl
  rw [hvalue,hblock]
  cases hlist : parseBlockList d 2 (i+1) ((t::items).map itemLine++rest) with
  | error e => exact ⟨(fun h => nomatch h),fun h => nomatch h⟩
  | ok r =>
    obtain ⟨n,vs⟩ := r
    constructor
    · intro h
      have hpair := Except.ok.inj h
      obtain ⟨rfl,hdata⟩ := Prod.mk.inj hpair
      dsimp only at hdata ⊢
      split at hdata
      · cases hdata
      · rw [Data.list.inj hdata]
    · intro h
      cases h
      have hlen := ((parseBlockList_items hrest (t::items) (i+1) consumed).mp hlist).1
      have hpos : consumed ≠ 0 := hlen ▸ Nat.succ_ne_zero _
      simp only [Except.bind,if_neg hpos]

end Below

/-- The characters of lines, with one more for each line. -/
def size (lines : List PyStr) : ℕ := (lines.map fun line => line.length+1).sum

@[simp] theorem size_nil : size [] = 0 := rfl

@[simp] theorem size_cons (line : PyStr) (lines : List PyStr) :
    size (line::lines) = line.length+1+size lines := by
  simp [size]

@[simp] theorem size_append (a b : List PyStr) : size (a++b) = size a+size b := by
  simp [size]

theorem length_join (sep : Char) (lines : List PyStr) : (join sep lines).length = size lines-1 := by
  induction lines with
  | nil => rfl
  | cons line lines ih =>
    by_cases hnil : lines = []
    · rw [hnil,join,List.intercalate_singleton,size_cons,size_nil]
      omega
    · have hpos : 0 < size lines := by
        obtain ⟨l,ls,rfl⟩ := List.exists_cons_of_ne_nil hnil
        rw [size_cons]
        omega
      rw [join] at ih
      rw [join,intercalate_cons _ line hnil,List.length_append,List.length_cons,ih,size_cons]
      omega

theorem size_le_of_prefix {a b : List PyStr} (h : a <+: b) : size a ≤ size b := by
  obtain ⟨c,rfl⟩ := h
  rw [size_append]
  omega

theorem size_paragraph (buf : List PyStr) : size (if buf = [] then [] else [join ' ' buf]) = size buf := by
  split
  next h => rw [h]
  next h =>
    obtain ⟨l,ls,rfl⟩ := List.exists_cons_of_ne_nil h
    rw [size_cons,length_join,size_cons,size_nil]
    omega

theorem size_foldLines (body : List PyStr) : ∀ buf : List PyStr,
    size (foldLines buf body) = size buf+size body := by
  induction body with
  | nil => exact fun buf => by rw [foldLines,size_paragraph,size_nil,Nat.add_zero]
  | cons ln rest ih =>
    intro buf
    rw [foldLines]
    split
    next h => rw [size_append,size_paragraph,size_cons,ih,size_cons,h,size_nil,Nat.zero_add]
    next => rw [ih,size_append,size_cons,size_cons,size_nil]; omega

theorem length_blockText (marker : PyChar) (body : List PyStr) :
    (blockText marker body).length = size body-1 := by
  unfold blockText
  split
  · rw [length_join,size_foldLines,size_nil,Nat.zero_add]
  · exact length_join '\n' body

theorem size_chompLines (chomp : Option PyChar) (body : List PyStr) :
    size (chompLines chomp body) ≤ size body+1 := by
  have hdrop : size (dropBlank body) ≤ size body := size_le_of_prefix (List.rdropWhile_prefix _ body)
  have hlast : size body.dropLast ≤ size body := size_le_of_prefix (List.dropLast_prefix body)
  have hkept : size (if chomp = some (ch '-') then
      (if body.getLast? = some [] then body.dropLast else body) else dropBlank body) ≤ size body := by
    split
    · split
      · exact hlast
      · exact le_rfl
    · exact hdrop
  unfold chompLines
  dsimp only
  split
  · rw [size_append,size_cons,size_nil]
    exact Nat.add_le_add_right hkept 1
  · omega

theorem size_bodyLines (hrest : Margin rest) (k : ℕ) (lines : List PyStr) :
    size (bodyLines (k+2) (lines.map indented++rest)).2 ≤ size lines := by
  induction lines with
  | nil =>
    rw [List.map_nil,List.nil_append,bodyLines_margin hrest (by omega)]
  | cons line lines ih =>
    rw [List.map_cons,List.cons_append,bodyLines]
    split
    · rw [size_cons,size_cons,List.length_nil]
      omega
    split
    · exact Nat.zero_le _
    · rw [size_cons,size_cons,drop_indented,List.length_drop]
      omega

section Unmarked

variable {d : Decimals} {rest : List PyStr}

theorem length_parseBlockScalar (hrest : Margin rest) {k : ℕ} {marker : PyChar} {line : PyStr}
    {lines : List PyStr} {r : ℕ × PyStr}
    (h : parseBlockScalar d (k+2) marker (indented line) (lines.map indented++rest) = .ok r) :
    r.2.length ≤ size lines := by
  unfold parseBlockScalar at h
  dsimp only at h
  split at h
  · cases h
  · cases h
    dsimp only
    have hbody := size_bodyLines hrest k lines
    have hchomp := size_chompLines (headerChomp (lstrip (indented line)).tail).1
      (bodyLines (k+2) (lines.map indented++rest)).2
    rw [length_blockText]
    omega

theorem parseValue_block (hrest : Margin rest) (lines : List PyStr) (i : ℕ) :
    (∃ consumed, parseValue d 0 i (strip (Value.block lines).inline) (lines.map indented++rest) =
      .ok (consumed,.str (join '\n' lines))) ↔ lines = [] ∨ lines = [[]] := by
  rw [← join_eq_nil_iff]
  have hvalue : parseValue d 0 i (strip (Value.block lines).inline) (lines.map indented++rest) =
      (parseBlock d 0 true (i+1) (lines.map indented++rest)).bind fun r =>
        .ok (r.1,if r.1 = 0 then .str [] else r.2) := rfl
  have hzero : parseBlock d 0 true (i+1) (lines.map indented++rest) = .ok (0,.none) →
      ((∃ consumed, parseValue d 0 i (strip (Value.block lines).inline) (lines.map indented++rest) =
        .ok (consumed,.str (join '\n' lines))) ↔ join '\n' lines = []) := by
    intro hblock
    rw [hvalue,hblock]
    constructor
    · rintro ⟨consumed,h⟩
      have hpair := Prod.mk.inj (Except.ok.inj h)
      exact (Data.str.inj hpair.2).symm
    · exact fun h => ⟨0,by rw [h]; rfl⟩
  cases lines with
  | nil => exact hzero (parseBlock_margin hrest true (i+1))
  | cons line lines =>
    cases hblank : isBlank line with
    | true =>
      refine hzero ?_
      rw [List.map_cons,List.cons_append]
      unfold parseBlock
      dsimp only
      rw [isBlank_indented,if_pos hblank]
    | false =>
      have hlen : (join '\n' (line::lines)).length = line.length+size lines := by
        rw [length_join,size_cons]
        omega
      have hpos : 0 < line.length := by
        refine List.length_pos_iff.mpr ?_
        rintro rfl
        cases hblank
      have hne : join '\n' (line::lines) ≠ [] := by
        rw [← List.length_pos_iff]
        omega
      refine iff_of_false ?_ hne
      rintro ⟨consumed,h⟩
      rw [hvalue] at h
      obtain ⟨⟨n,value⟩,hblock,h⟩ := bind_ok h
      obtain ⟨rfl,hdata⟩ := Prod.mk.inj (Except.ok.inj h)
      split at hdata
      · exact hne (Data.str.inj hdata).symm
      subst hdata
      rw [List.map_cons,List.cons_append] at hblock
      unfold parseBlock at hblock
      dsimp only at hblock
      rw [isBlank_indented,hblank,if_neg Bool.false_ne_true,measureIndent_indented,if_neg (by omega)] at hblock
      split at hblock
      · cases hblock
      split at hblock
      · obtain ⟨r,-,hok⟩ := bind_ok hblock
        cases hok
      split at hblock
      · obtain ⟨r,hr,hok⟩ := bind_ok hblock
        have hshort := length_parseBlockScalar hrest hr
        have htext := Data.str.inj (congrArg Prod.snd (Except.ok.inj hok))
        rw [htext] at hshort
        omega
      · obtain ⟨r,hr,hok⟩ := bind_ok hblock
        have hshort := length_parseBlockScalar hrest hr
        have htext := Data.str.inj (congrArg Prod.snd (Except.ok.inj hok))
        rw [htext] at hshort
        omega

end Unmarked
section Entry

variable {d : Decimals} {rest : List PyStr}

theorem parseValue_iff (hrest : Margin rest) (hrest' : ∀ l ∈ rest, Unbroken l) {v : Value}
    (hv : ∀ s ∈ v.strings, Unbroken s) (i : ℕ) :
    (∃ consumed, parseValue d 0 i (strip v.inline) (v.below++rest) = .ok (consumed,v.data)) ↔
      v.Readable d := by
  cases v with
  | text t =>
    cases t with
    | plain s => exact parseValue_plain hrest i s
    | quoted mark s => exact ⟨fun _ => trivial,fun _ => ⟨0,parseValue_quoted 0 i mark s⟩⟩
  | int n => exact parseValue_int 0 i n
  | bool b => exact ⟨fun _ => trivial,fun _ => ⟨0,parseValue_bool 0 i b⟩⟩
  | empty => exact ⟨fun _ => trivial,fun _ => ⟨0,parseValue_nil hrest i⟩⟩
  | literal lines => exact parseValue_literal hrest hrest' hv i
  | list items =>
    cases items with
    | nil => exact ⟨(fun _ _ h => nomatch h),fun _ => ⟨0,parseValue_emptyList 0 i⟩⟩
    | cons t items =>
      constructor
      · rintro ⟨consumed,h⟩
        exact ((parseValue_list hrest t items i consumed).mp h).2
      · exact fun h => ⟨_,(parseValue_list hrest t items i _).mpr ⟨rfl,h⟩⟩
  | block lines => exact parseValue_block hrest lines i

theorem consumed_margin (hrest : Margin rest) {i consumed : ℕ} {text : PyStr} {value : Data}
    (h : parseValue d 0 i text rest = .ok (consumed,value)) : consumed = 0 := by
  by_cases hnil : text = []
  · rw [hnil,parseValue_nil hrest] at h
    cases h
    rfl
  by_cases hmarker : text ∈ markers
  · rw [parseValue_marker hmarker hrest] at h
    cases h
    rfl
  · rw [parseValue_scalar hnil hmarker] at h
    cases hv : parseScalar d text with
    | error e =>
      rw [hv] at h
      cases h
    | ok v =>
      rw [hv] at h
      cases h
      rfl

theorem parseLines_below (hrest : Margin rest) {v : Value} (hv : v.Readable d) {i consumed : ℕ}
    {value : Data} (h : parseValue d 0 i (strip v.inline) (v.below++rest) = .ok (consumed,value))
    (j : ℕ) (result : List (PyStr × Data)) :
    parseLines d (v.below++rest) consumed j result =
      parseLines d rest 0 (j+v.below.length) result := by
  have hinline : v.below = [] → parseLines d (v.below++rest) consumed j result =
      parseLines d rest 0 (j+v.below.length) result := by
    intro hbelow
    rw [hbelow,List.nil_append] at h ⊢
    rw [consumed_margin hrest h]
    rfl
  have hblank : ∀ lines : List PyStr, v.below = lines.map indented → lines = [[]] → consumed = 0 →
      parseLines d (v.below++rest) consumed j result =
        parseLines d rest 0 (j+v.below.length) result := by
    rintro lines hbelow rfl rfl
    rw [hbelow]
    rfl
  cases v with
  | text t => exact hinline rfl
  | int n => exact hinline rfl
  | bool b => exact hinline rfl
  | empty => exact hinline rfl
  | literal lines =>
    have hconsumed : (parseBlockScalarAfterMarker 0 (ch '|') (lines.map indented++rest)).1 = consumed :=
      congrArg Prod.fst (Except.ok.inj h)
    obtain rfl | rfl | ⟨hhead,-⟩ := hv
    · exact hinline rfl
    · exact hblank [[]] rfl rfl hconsumed.symm
    · cases lines with
      | nil => exact hinline rfl
      | cons line lines =>
        rw [afterMarker_lines (hhead line rfl).1,(hhead line rfl).2,Nat.zero_add,
          bodyLines_indented hrest] at hconsumed
        rw [← hconsumed,← List.length_map indented]
        exact parseLines_append _ rest j result
  | list items =>
    cases items with
    | nil => exact hinline rfl
    | cons t items =>
      have hlist := (parseValue_list hrest t items i _).mpr ⟨rfl,hv⟩
      obtain ⟨hconsumed,-⟩ := Prod.mk.inj (Except.ok.inj (h.symm.trans hlist))
      rw [hconsumed,← List.length_map itemLine]
      exact parseLines_append _ rest j result
  | block lines =>
    obtain rfl | rfl := hv
    · exact hinline rfl
    · exact hblank [[]] rfl rfl (congrArg Prod.fst (Except.ok.inj h)).symm

end Entry
end MinimaxCode.FrontMatter
