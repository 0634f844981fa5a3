import MinimaxCode.PyJson
import Mathlib.Data.Nat.Digits.Lemmas

/-!
# JSON text

`json.dumps` with its default separators and `json.loads`. A value without repeated
keys is read back from its text; with `ensure_ascii` its strings must not contain lone
surrogates, since two of them may come back as one code point.
-/

namespace MinimaxCode.PyJson

open PyText

def isDigit (c : PyChar) : Bool := 48 ≤ c.code && c.code ≤ 57

def digitText (d : ℕ) : PyChar := ch (Nat.digitChar d)

def natText (n : ℕ) : PyStr :=
  if n = 0 then [ch '0'] else (Nat.digits 10 n).reverse.map digitText

/-- `int` of a string of digits. -/
def natOf (digits : PyStr) : ℕ := Nat.ofDigits 10 (digits.map fun c => c.code-48).reverse

def intText (n : ℤ) : PyStr :=
  if n < 0 then ch '-'::natText n.natAbs else natText n.natAbs

/-- `int` of a JSON number without fraction and exponent. -/
def intOf : PyStr → ℤ
  | [] => 0
  | c::cs => if c = ch '-' then -(natOf cs) else natOf (c::cs)

/-- The decimal form `float.__repr__` gives a finite float: it has a fraction or an
exponent. -/
structure FloatToken where
  negative : Bool
  whole : ℕ
  fraction : List (Fin 10)
  exponent : Option (Bool × List (Fin 10))
  exponent_digits : ∀ e, exponent = some e → e.2 ≠ []
  not_int : fraction ≠ [] ∨ exponent ≠ none

def finText (ds : List (Fin 10)) : PyStr := ds.map fun d : Fin 10 => digitText d.val

def FloatToken.fractionText (t : FloatToken) : PyStr :=
  if t.fraction = [] then [] else ch '.'::finText t.fraction

def FloatToken.exponentText (t : FloatToken) : PyStr :=
  match t.exponent with
  | none => []
  | some (negative,ds) => ch 'e'::(if negative then ch '-' else ch '+')::finText ds

def FloatToken.text (t : FloatToken) : PyStr :=
  (if t.negative then [ch '-'] else [])++natText t.whole++t.fractionText++t.exponentText

/-- How floats are written and read: reading what `repr` wrote gives the float back. -/
structure FloatText where
  repr : FiniteBits → FloatToken
  parse : PyStr → PyFloat
  parse_repr : ∀ b, parse (repr b).text = .finite b

/-- The characters with a short escape, and the letter of the escape. -/
def shortEscapes : List (Char × Char) :=
  [('"','"'),('\\','\\'),('\n','n'),('\r','r'),('\t','t'),('\x0c','f'),('\x08','b')]

def codeUnitDigits (n : ℕ) : PyStr :=
  [digitText (n/0x1000),digitText (n/0x100%0x10),digitText (n/0x10%0x10),digitText (n%0x10)]

def codeUnit (n : ℕ) : PyStr := ch '\\'::ch 'u'::codeUnitDigits n

/-- A code point as one escape, or as the two escapes of its surrogate pair. -/
def escapeCode (n : ℕ) : PyStr :=
  if n < 0x10000 then codeUnit n
  else codeUnit (0xD800+(n-0x10000)/0x400)++codeUnit (0xDC00+(n-0x10000)%0x400)

def quoteChar (ensureAscii : Bool) (c : PyChar) : PyStr :=
  match shortEscapes.find? fun p => ch p.1 = c with
  | some p => [ch '\\',ch p.2]
  | none => if c.code < 0x20 ∨ (ensureAscii ∧ 0x7E < c.code) then escapeCode c.code else [c]

def quote (ensureAscii : Bool) (s : PyStr) : PyStr :=
  ch '"'::s.flatMap (quoteChar ensureAscii)++[ch '"']

section Dumps

variable (ft : FloatText) (ensureAscii : Bool)

def floatText : PyFloat → PyStr
  | .nan => lit "NaN"
  | .inf false => lit "Infinity"
  | .inf true => lit "-Infinity"
  | .finite b => (ft.repr b).text

mutual

/-- `json.dumps(v, ensure_ascii=…)`. -/
def dumps : Json → PyStr
  | .null => lit "null"
  | .bool b => if b then lit "true" else lit "false"
  | .int n => intText n
  | .float x => floatText ft x
  | .str s => quote ensureAscii s
  | .arr xs => ch '['::dumpsItems xs++[ch ']']
  | .obj fields => ch '\x7b'::dumpsFields fields++[ch '\x7d']

def dumpsItems : List Json → PyStr
  | [] => []
  | [x] => dumps x
  | x::y::ys => dumps x++ch ','::ch ' '::dumpsItems (y::ys)

def dumpsFields : List (PyStr × Json) → PyStr
  | [] => []
  | [(k,v)] => quote ensureAscii k++ch ':'::ch ' '::dumps v
  | (k,v)::kv::fields =>
    quote ensureAscii k++ch ':'::ch ' '::dumps v++ch ','::ch ' '::dumpsFields (kv::fields)

end

theorem dumps_int (n : ℤ) : dumps ft ensureAscii (.int n) = intText n := rfl

theorem dumps_float (x : PyFloat) : dumps ft ensureAscii (.float x) = floatText ft x := rfl

theorem dumps_str (s : PyStr) : dumps ft ensureAscii (.str s) = quote ensureAscii s := rfl

theorem dumps_arr (xs : List Json) :
    dumps ft ensureAscii (.arr xs) = ch '['::dumpsItems ft ensureAscii xs++[ch ']'] := rfl

theorem dumps_obj (fields : List (PyStr × Json)) : dumps ft ensureAscii (.obj fields) =
    ch '\x7b'::dumpsFields ft ensureAscii fields++[ch '\x7d'] := rfl

theorem dumpsItems_single (x : Json) : dumpsItems ft ensureAscii [x] = dumps ft ensureAscii x := rfl

theorem dumpsItems_cons (x y : Json) (ys : List Json) : dumpsItems ft ensureAscii (x::y::ys) =
    dumps ft ensureAscii x++ch ','::ch ' '::dumpsItems ft ensureAscii (y::ys) := rfl

end Dumps

def isWs (c : PyChar) : Bool := c = ch ' ' || c = ch '\t' || c = ch '\n' || c = ch '\r'

def skipWs (s : PyStr) : PyStr := s.dropWhile isWs

def hexVal (c : PyChar) : Option ℕ :=
  let n := c.code
  if 48 ≤ n ∧ n ≤ 57 then some (n-48)
  else if 97 ≤ n ∧ n ≤ 102 then some (n-87)
  else if 65 ≤ n ∧ n ≤ 70 then some (n-55)
  else none

/-- Four hexadecimal digits. -/
def hex4 : PyStr → Option (ℕ × PyStr)
  | a::b::c::d::rest =>
    match hexVal a,hexVal b,hexVal c,hexVal d with
    | some a,some b,some c,some d => some (a*0x1000+b*0x100+c*0x10+d,rest)
    | _,_,_,_ => none
  | _ => none

/-- An escape of a code point, behind its `\u`. A high surrogate takes a low surrogate
behind it along. -/
def scanCode (s : PyStr) : Option (PyChar × PyStr) :=
  match hex4 s with
  | none => none
  | some (n,rest) =>
    if 0xD800 ≤ n ∧ n < 0xDC00 then
      match rest.dropPrefix? [ch '\\',ch 'u'] with
      | none => some (.ofCode n,rest)
      | some rest' =>
        match hex4 rest' with
        | none => none
        | some (m,rest'') =>
          if 0xDC00 ≤ m ∧ m < 0xE000 then
            some (.ofCode (0x10000+(n-0xD800)*0x400+(m-0xDC00)),rest'')
          else some (.ofCode n,rest)
    else some (.ofCode n,rest)

def unescape (e : PyChar) : Option PyChar :=
  (('/','/')::shortEscapes).findSome? fun p => if ch p.2 = e then some (ch p.1) else none

/-- One character of a string, before its closing quote. -/
def scanChar : PyStr → Option (PyChar × PyStr)
  | [] => none
  | c::cs =>
    if c = ch '\\' then
      match cs with
      | [] => none
      | e::es => if e = ch 'u' then scanCode es else (unescape e).map fun d => (d,es)
    else if c.code < 0x20 then none
    else some (c,cs)

def scanStr : ℕ → PyStr → Option (PyStr × PyStr)
  | 0, _ => none
  | _+1, [] => none
  | fuel+1, c::cs =>
    if c = ch '"' then some ([],cs)
    else (scanChar (c::cs)).bind fun p => (scanStr fuel p.2).map fun q => (p.1::q.1,q.2)

/-- A string, behind its opening quote. Each step reads a character, so the length of
the text is fuel enough. -/
def scanString (s : PyStr) : Option (PyStr × PyStr) := scanStr s.length s

def scanWhole : PyStr → Option (PyStr × PyStr)
  | [] => none
  | c::cs =>
    if c = ch '0' then some ([c],cs)
    else if isDigit c then some ((c::cs).takeWhile isDigit,(c::cs).dropWhile isDigit)
    else none

def scanFraction : PyStr → PyStr × PyStr
  | [] => ([],[])
  | c::cs =>
    if c = ch '.' ∧ cs.takeWhile isDigit ≠ [] then (c::cs.takeWhile isDigit,cs.dropWhile isDigit)
    else ([],c::cs)

def scanSign (isSign : PyChar → Bool) : PyStr → PyStr × PyStr
  | [] => ([],[])
  | c::cs => if isSign c then ([c],cs) else ([],c::cs)

def scanExponent : PyStr → PyStr × PyStr
  | [] => ([],[])
  | c::cs =>
    let (sign,ds) := scanSign (fun c => c = ch '+' || c = ch '-') cs
    if (c = ch 'e' ∨ c = ch 'E') ∧ ds.takeWhile isDigit ≠ [] then
      (c::sign++ds.takeWhile isDigit,ds.dropWhile isDigit)
    else ([],c::cs)

section Loads

variable (ft : FloatText)

def scanNumber (s : PyStr) : Option (Json × PyStr) :=
  let (sign,s₁) := scanSign (fun c => c = ch '-') s
  (scanWhole s₁).map fun (whole,s₂) =>
    let (fraction,s₃) := scanFraction s₂
    let (exponent,s₄) := scanExponent s₃
    if fraction = [] ∧ exponent = [] then (.int (intOf (sign++whole)),s₄)
    else (.float (ft.parse (sign++whole++fraction++exponent)),s₄)

/-- The words that are values. -/
def words : List (PyStr × Json) :=
  [(lit "null",.null),(lit "true",.bool true),(lit "false",.bool false),(lit "NaN",.float .nan),
    (lit "Infinity",.float (.inf false)),(lit "-Infinity",.float (.inf true))]

def scanWord (s : PyStr) : Option (Json × PyStr) :=
  words.findSome? fun w => (s.dropPrefix? w.1).map fun rest => (w.2,rest)

mutual

/-- One value. Each nested call starts further on, so the length of the text is fuel
enough. -/
def parseValue : ℕ → PyStr → Option (Json × PyStr)
  | 0, _ => none
  | _+1, [] => none
  | fuel+1, c::cs =>
    if c = ch '"' then (scanString cs).map fun p => (.str p.1,p.2)
    else if c = ch '\x7b' then
      match skipWs cs with
      | [] => none
      | d::ds =>
        if d = ch '\x7d' then some (.obj [],ds)
        else if d = ch '"' then (parseFields fuel ds).map fun p => (.obj (dictOf p.1),p.2)
        else none
    else if c = ch '[' then
      match skipWs cs with
      | [] => none
      | d::ds =>
        if d = ch ']' then some (.arr [],ds)
        else (parseItems fuel (d::ds)).map fun p => (.arr p.1,p.2)
    else (scanWord (c::cs)).or (scanNumber ft (c::cs))

/-- The elements of an array up to its closing bracket. -/
def parseItems : ℕ → PyStr → Option (List Json × PyStr)
  | 0, _ => none
  | fuel+1, s =>
    (parseValue fuel s).bind fun p =>
      match skipWs p.2 with
      | [] => none
      | c::cs =>
        if c = ch ']' then some ([p.1],cs)
        else if c = ch ',' then (parseItems fuel (skipWs cs)).map fun q => (p.1::q.1,q.2)
        else none

/-- The fields of an object, from behind the quote of the first key to the closing
brace. -/
def parseFields : ℕ → PyStr → Option (List (PyStr × Json) × PyStr)
  | 0, _ => none
  | fuel+1, s =>
    (scanString s).bind fun k =>
      match skipWs k.2 with
      | [] => none
      | c::cs =>
        if c = ch ':' then
          (parseValue fuel (skipWs cs)).bind fun p =>
            match skipWs p.2 with
            | [] => none
            | d::ds =>
              if d = ch '\x7d' then some ([(k.1,p.1)],ds)
              else if d = ch ',' then
                match skipWs ds with
                | [] => none
                | e::es =>
                  if e = ch '"' then
                    (parseFields fuel es).map fun q => ((k.1,p.1)::q.1,q.2)
                  else none
              else none
        else none

end

/-- `json.loads`; nothing where it raises `JSONDecodeError`. -/
def loads (s : PyStr) : Option Json :=
  if s.head? = some (ch '\ufeff') then none
  else (parseValue ft (s.length+1) (skipWs s)).bind fun p =>
    if skipWs p.2 = [] then some p.1 else none

end Loads

/-- A text that does not continue a number. -/
def Stops (s : PyStr) : Prop :=
  ∀ c ∈ s.head?, isDigit c = false ∧ c ≠ ch '.' ∧ c ≠ ch 'e' ∧ c ≠ ch 'E'

theorem code_digitText : ∀ d < 10, (digitText d).code = 48+d := by decide

theorem isDigit_digitText : ∀ d < 10, isDigit (digitText d) = true := by decide

variable {rest : PyStr} {n : ℕ}

theorem takeWhile_digits {ds : PyStr} (hds : ∀ c ∈ ds, isDigit c = true)
    (hrest : ∀ c ∈ rest.head?, isDigit c = false) :
    (ds++rest).takeWhile isDigit = ds ∧ (ds++rest).dropWhile isDigit = rest :=
  span_append hds hrest

theorem natText_digits (n : ℕ) : ∀ c ∈ natText n, isDigit c = true := by
  intro c hc
  unfold natText at hc
  split at hc
  · rw [List.mem_singleton.mp hc]
    decide
  · obtain ⟨d,hd,rfl⟩ := List.mem_map.mp hc
    exact isDigit_digitText d (Nat.digits_lt_base (by decide) (List.mem_reverse.mp hd))

theorem natOf_natText (n : ℕ) : natOf (natText n) = n := by
  unfold natText natOf
  split
  · next h => simp [h,PyChar.code]
  · have hcodes : ((Nat.digits 10 n).reverse.map digitText).map (fun c => c.code-48) =
        (Nat.digits 10 n).reverse := by
      rw [List.map_map]
      apply (List.map_congr_left ?_).trans (List.map_id _)
      intro d hd
      have hlt := Nat.digits_lt_base (b:=10) (by decide) (List.mem_reverse.mp hd)
      simp [code_digitText d hlt]
    rw [hcodes,List.reverse_reverse,Nat.ofDigits_digits]

theorem natText_cons (hn : n ≠ 0) : ∃ c cs, natText n = c::cs ∧ c ≠ ch '0' := by
  have hne : Nat.digits 10 n ≠ [] := Nat.digits_ne_nil_iff_ne_zero.mpr hn
  have hlast := Nat.getLast_digit_ne_zero 10 hn
  have hlt := Nat.digits_lt_base (b:=10) (by decide) (List.getLast_mem hne)
  have hhead : ∀ d < 10, d ≠ 0 → digitText d ≠ ch '0' := by decide
  refine ⟨digitText ((Nat.digits 10 n).getLast hne),
    (Nat.digits 10 n).dropLast.reverse.map digitText,?_,hhead _ hlt hlast⟩
  rw [natText,if_neg hn]
  conv_lhs => rw [← List.dropLast_append_getLast hne]
  simp

theorem scanWhole_natText (h : ∀ c ∈ rest.head?, isDigit c = false) :
    scanWhole (natText n++rest) = some (natText n,rest) := by
  by_cases hn : n = 0
  · simp [hn,natText,scanWhole]
  · obtain ⟨c,cs,htext,hzero⟩ := natText_cons hn
    have hdigits := natText_digits n
    have hspan := takeWhile_digits hdigits h
    rw [htext,List.cons_append] at hspan ⊢
    have hc : isDigit c = true := hdigits c (by simp [htext])
    rw [scanWhole,if_neg hzero,if_pos hc,hspan.1,hspan.2]

theorem scanFraction_of_stops (h : ∀ c ∈ rest.head?, c ≠ ch '.') :
    scanFraction rest = ([],rest) := by
  cases rest with
  | nil => rfl
  | cons c cs => simp [scanFraction,h c (by simp)]

theorem scanExponent_of_stops (h : Stops rest) : scanExponent rest = ([],rest) := by
  cases rest with
  | nil => rfl
  | cons c cs =>
    have hc := h c (by simp)
    simp [scanExponent,hc.2.2.1,hc.2.2.2]

theorem scanSign_number (negative : Bool) :
    scanSign (fun c => c = ch '-') ((if negative then [ch '-'] else [])++natText n++rest) =
      (if negative then [ch '-'] else [],natText n++rest) := by
  cases negative with
  | true => simp [scanSign]
  | false =>
    cases htext : natText n with
    | nil =>
      by_cases hn : n = 0
      · simp [hn,natText] at htext
      · obtain ⟨c,cs,hc,_⟩ := natText_cons hn
        simp [htext] at hc
    | cons c cs =>
      have hdigit := natText_digits n c (by simp [htext])
      have hminus : c ≠ ch '-' := by
        rintro rfl
        revert hdigit
        decide
      simp [scanSign,hminus]

theorem intText_eq (n : ℤ) : intText n =
    (if decide (n < 0) then [ch '-'] else [])++natText n.natAbs := by
  unfold intText
  by_cases h : n < 0 <;> simp [h]

theorem intOf_intText (n : ℤ) : intOf (intText n) = n := by
  by_cases h : n < 0
  · have habs : (n.natAbs : ℤ) = -n := by omega
    simp [intText,h,intOf,natOf_natText,habs]
  · have habs : (n.natAbs : ℤ) = n := by omega
    rw [intText,if_neg h]
    cases htext : natText n.natAbs with
    | nil =>
      have hval := natOf_natText n.natAbs
      rw [htext] at hval
      simp [natOf] at hval
      simp [intOf,← hval] at habs ⊢
      exact habs
    | cons c cs =>
      have hdigit := natText_digits n.natAbs c (by simp [htext])
      have hminus : c ≠ ch '-' := by
        rintro rfl
        revert hdigit
        decide
      rw [intOf,if_neg hminus,← htext,natOf_natText,habs]

section NumberRoundTrip

variable (ft : FloatText)

theorem scanNumber_int (n : ℤ) {rest : PyStr} (h : Stops rest) :
    scanNumber ft (intText n++rest) = some (.int n,rest) := by
  unfold scanNumber
  rw [intText_eq,scanSign_number]
  simp only [scanWhole_natText fun c hc => (h c hc).1,scanFraction_of_stops fun c hc => (h c hc).2.1,
    scanExponent_of_stops h,Option.map_some,and_self,if_true]
  rw [← intText_eq,intOf_intText]

theorem finText_digits (ds : List (Fin 10)) : ∀ c ∈ finText ds, isDigit c = true := by
  intro c hc
  obtain ⟨d,_,rfl⟩ := List.mem_map.mp hc
  exact isDigit_digitText d d.isLt

theorem finText_eq_nil {ds : List (Fin 10)} : finText ds = [] ↔ ds = [] := List.map_eq_nil_iff

theorem scanExponent_text (t : FloatToken) {rest : PyStr} (h : Stops rest) :
    scanExponent (t.exponentText++rest) = (t.exponentText,rest) := by
  unfold FloatToken.exponentText
  cases he : t.exponent with
  | none => exact scanExponent_of_stops h
  | some e =>
    obtain ⟨negative,ds⟩ := e
    have hne : finText ds ≠ [] := fun hn => t.exponent_digits _ he (finText_eq_nil.mp hn)
    have hspan := takeWhile_digits (finText_digits ds) fun c hc => (h c hc).1
    cases negative <;> simp [scanExponent,scanSign,hspan.1,hspan.2,hne]

theorem exponentText_head (t : FloatToken) {rest : PyStr} (h : Stops rest) :
    ∀ c ∈ (t.exponentText++rest).head?, isDigit c = false ∧ c ≠ ch '.' := by
  intro c hc
  unfold FloatToken.exponentText at hc
  cases he : t.exponent with
  | none =>
    rw [he] at hc
    exact ⟨(h c hc).1,(h c hc).2.1⟩
  | some e =>
    rw [he] at hc
    simp only [List.cons_append,List.head?_cons,Option.mem_def,Option.some.injEq] at hc
    rw [← hc]
    decide

theorem scanFraction_text (t : FloatToken) {rest : PyStr} (h : Stops rest) :
    scanFraction (t.fractionText++(t.exponentText++rest)) =
      (t.fractionText,t.exponentText++rest) := by
  have hhead := exponentText_head t h
  unfold FloatToken.fractionText
  by_cases hf : t.fraction = []
  · rw [if_pos hf]
    exact scanFraction_of_stops fun c hc => (hhead c hc).2
  · have hne : finText t.fraction ≠ [] := fun hn => hf (finText_eq_nil.mp hn)
    have hspan := takeWhile_digits (finText_digits t.fraction) fun c hc => (hhead c hc).1
    simp [hf,scanFraction,hspan.1,hspan.2,hne]

theorem scanNumber_float (t : FloatToken) {rest : PyStr} (h : Stops rest) :
    scanNumber ft (t.text++rest) = some (.float (ft.parse t.text),rest) := by
  have hwhole : scanWhole (natText t.whole++(t.fractionText++(t.exponentText++rest))) =
      some (natText t.whole,t.fractionText++(t.exponentText++rest)) := by
    apply scanWhole_natText
    unfold FloatToken.fractionText
    split
    · exact fun c hc => (exponentText_head t h c hc).1
    · intro c hc
      simp only [List.cons_append,List.head?_cons,Option.mem_def,Option.some.injEq] at hc
      rw [← hc]
      decide
  have hfloat : ¬ (t.fractionText = [] ∧ t.exponentText = []) := by
    rintro ⟨hf,he⟩
    cases t.not_int with
    | inl hne => simp [FloatToken.fractionText,hne] at hf
    | inr hne =>
      unfold FloatToken.exponentText at he
      split at he
      · exact hne ‹_›
      · simp at he
  have hassoc : t.text++rest = (if t.negative then [ch '-'] else [])++natText t.whole++
      (t.fractionText++(t.exponentText++rest)) := by
    simp [FloatToken.text]
  unfold scanNumber
  rw [hassoc,scanSign_number]
  simp only [hwhole,scanFraction_text t h,scanExponent_text t h,Option.map_some,if_neg hfloat]
  rfl

end NumberRoundTrip

theorem hexVal_digitText : ∀ d < 16, hexVal (digitText d) = some d := by decide

theorem hex4_codeUnitDigits (hn : n < 0x10000) (rest : PyStr) :
    hex4 (codeUnitDigits n++rest) = some (n,rest) := by
  have hval : n/0x1000*0x1000+n/0x100%0x10*0x100+n/0x10%0x10*0x10+n%0x10 = n := by omega
  simp only [codeUnitDigits,List.cons_append,List.nil_append,hex4,
    hexVal_digitText (n/0x1000) (by omega),hexVal_digitText (n/0x100%0x10) (by omega),
    hexVal_digitText (n/0x10%0x10) (by omega),hexVal_digitText (n%0x10) (by omega),hval]

theorem scanChar_codeUnit (hn : n < 0x10000) (hnot : ¬ (0xD800 ≤ n ∧ n < 0xDC00))
    (rest : PyStr) : scanChar (codeUnit n++rest) = some (.ofCode n,rest) := by
  simp only [codeUnit,List.cons_append,scanChar,if_true,scanCode,hex4_codeUnitDigits hn,if_neg hnot]

theorem scanChar_pair {m : ℕ} (hm : m < 0x400) (hn : n < 0x400) (rest : PyStr) :
    scanChar (codeUnit (0xD800+m)++(codeUnit (0xDC00+n)++rest)) =
      some (.ofCode (0x10000+m*0x400+n),rest) := by
  have hhigh : 0xD800+m < 0x10000 := by omega
  have hlow : 0xDC00+n < 0x10000 := by omega
  have hh : 0xD800 ≤ 0xD800+m ∧ 0xD800+m < 0xDC00 := by omega
  have hl : 0xDC00 ≤ 0xDC00+n ∧ 0xDC00+n < 0xE000 := by omega
  have hescape : ∀ t : PyStr, (ch '\\'::ch 'u'::t).dropPrefix? [ch '\\',ch 'u'] = some t := by
    intro t
    simp [List.dropPrefix?]
  simp only [codeUnit,List.cons_append,scanChar,if_true,scanCode,hex4_codeUnitDigits hhigh,
    if_pos hh,hescape,hex4_codeUnitDigits hlow,if_pos hl,Nat.add_sub_cancel_left]

theorem scanChar_escapeCode (c : Char) (rest : PyStr) :
    scanChar (escapeCode (ch c).code++rest) = some (ch c,rest) := by
  have hback := ofCode_code (ch c)
  have hvalid : (ch c).code < 0xD800 ∨ 0xDFFF < (ch c).code ∧ (ch c).code < 0x110000 := c.valid
  generalize (ch c).code = n at hback hvalid
  unfold escapeCode
  by_cases hn : n < 0x10000
  · have hnot : ¬ (0xD800 ≤ n ∧ n < 0xDC00) := by omega
    rw [if_pos hn,scanChar_codeUnit hn hnot,hback]
  · have hjoin : 0x10000+(n-0x10000)/0x400*0x400+(n-0x10000)%0x400 = n := by omega
    rw [if_neg hn,List.append_assoc,scanChar_pair (by omega) (by omega),hjoin,hback]

theorem unescape_short : ∀ p ∈ shortEscapes, p.2 ≠ 'u' ∧ unescape (ch p.2) = some (ch p.1) := by
  decide

theorem scanChar_quoteChar {a : Bool} {c : PyChar} (h : a = true → encodes [c] = true)
    (rest : PyStr) : scanChar (quoteChar a c++rest) = some (c,rest) := by
  unfold quoteChar
  cases hfind : shortEscapes.find? fun p => ch p.1 = c with
  | some p =>
    have hp := unescape_short p (List.mem_of_find?_eq_some hfind)
    have hc : ch p.1 = c := by simpa using List.find?_some hfind
    have hu : ch p.2 ≠ ch 'u' := by simpa using hp.1
    simp [scanChar,hp.1,hp.2,hc]
  | none =>
    simp only
    split
    · next hesc =>
      cases c with
      | scalar c => exact scanChar_escapeCode c rest
      | surrogate n =>
        simp only [PyChar.code] at hesc
        cases hesc with
        | inl hlt => omega
        | inr ha => simpa [encodes] using h ha.1
    · next hesc =>
      have hback : c ≠ ch '\\' := by
        rintro rfl
        simp [shortEscapes] at hfind
      have hlow : ¬ c.code < 0x20 := fun hlt => hesc (.inl hlt)
      simp [scanChar,hback,hlow]

theorem quoteChar_cons (a : Bool) (c : PyChar) :
    ∃ d ds, quoteChar a c = d::ds ∧ d ≠ ch '"' := by
  unfold quoteChar
  cases hfind : shortEscapes.find? fun p => ch p.1 = c with
  | some p => exact ⟨_,_,rfl,by decide⟩
  | none =>
    simp only
    split
    · unfold escapeCode
      split
      · exact ⟨_,_,rfl,by decide⟩
      · exact ⟨_,_,rfl,by decide⟩
    · refine ⟨c,[],rfl,?_⟩
      rintro rfl
      simp [shortEscapes] at hfind

theorem scanStr_quoted {a : Bool} {s : PyStr} (h : a = true → encodes s = true) (rest : PyStr)
    {fuel : ℕ} (hfuel : s.length < fuel) :
    scanStr fuel (s.flatMap (quoteChar a)++ch '"'::rest) = some (s,rest) := by
  induction s generalizing fuel with
  | nil =>
    cases fuel with
    | zero => simp at hfuel
    | succ fuel => simp [scanStr]
  | cons c s ih =>
    cases fuel with
    | zero => simp at hfuel
    | succ fuel =>
      have hc : a = true → encodes [c] = true := by
        intro ha
        have hs := h ha
        simp [encodes] at hs ⊢
        exact hs.1
      have hs : a = true → encodes s = true := by
        intro ha
        have hs := h ha
        simp only [encodes,List.all_cons,Bool.and_eq_true] at hs
        exact hs.2
      have hread := scanChar_quoteChar hc (s.flatMap (quoteChar a)++ch '"'::rest)
      have hrest := ih hs (by simpa using hfuel)
      obtain ⟨d,ds,hd,hquote⟩ := quoteChar_cons a c
      rw [List.flatMap_cons,List.append_assoc]
      rw [hd,List.cons_append] at hread ⊢
      rw [scanStr,if_neg hquote,hread,Option.bind_some,hrest]
      rfl

theorem length_flatMap_quoteChar (a : Bool) (s : PyStr) :
    s.length ≤ (s.flatMap (quoteChar a)).length := by
  induction s with
  | nil => simp
  | cons c s ih =>
    obtain ⟨d,ds,hd,_⟩ := quoteChar_cons a c
    simp only [List.flatMap_cons,hd,List.length_append,List.length_cons]
    omega

theorem scanString_quote {a : Bool} {s : PyStr} (h : a = true → encodes s = true) (rest : PyStr) :
    scanString (s.flatMap (quoteChar a)++ch '"'::rest) = some (s,rest) := by
  have hlen := length_flatMap_quoteChar a s
  apply scanStr_quoted h
  simp only [List.length_append,List.length_cons]
  omega

theorem skipWs_cons {c : PyChar} (h : isWs c = false) (cs : PyStr) : skipWs (c::cs) = c::cs := by
  simp [skipWs,h]

theorem skipWs_space (s : PyStr) : skipWs (ch ' '::s) = skipWs s := by
  simp [skipWs,isWs]

/-- A character a value may start with. -/
def Starts (c : PyChar) : Prop := isWs c = false ∧ c ≠ ch ']' ∧ c ≠ ch '\ufeff'

instance (c : PyChar) : Decidable (Starts c) := inferInstanceAs (Decidable (_ ∧ _ ∧ _))

theorem starts_of_digit {c : PyChar} (h : isDigit c = true) : Starts c := by
  constructor
  · cases hws : isWs c with
    | false => rfl
    | true =>
      simp only [isWs,Bool.or_eq_true,decide_eq_true_eq] at hws
      rcases hws with ((rfl | rfl) | rfl) | rfl <;> revert h <;> decide
  · constructor <;> rintro rfl <;> revert h <;> decide

theorem natText_starts (n : ℕ) : ∃ c cs, natText n = c::cs ∧ isDigit c = true := by
  cases htext : natText n with
  | nil =>
    by_cases hn : n = 0
    · simp [hn,natText] at htext
    · obtain ⟨c,cs,hc,_⟩ := natText_cons hn
      simp [htext] at hc
  | cons c cs => exact ⟨c,cs,rfl,natText_digits n c (by simp [htext])⟩

section RoundTrip

variable (ft : FloatText) (a : Bool) {v : Json} {s : PyStr}

theorem ne_of_isDigit {c d : PyChar} (hc : isDigit c = true) (hd : isDigit d = false) : c ≠ d := by
  rintro rfl
  simp [hd] at hc

theorem scanWord_digit {c : PyChar} (hc : isDigit c = true) (cs : PyStr) :
    scanWord (c::cs) = none := by
  have hn := ne_of_isDigit hc (d:=ch 'n') (by decide)
  have ht := ne_of_isDigit hc (d:=ch 't') (by decide)
  have hf := ne_of_isDigit hc (d:=ch 'f') (by decide)
  have hN := ne_of_isDigit hc (d:=ch 'N') (by decide)
  have hI := ne_of_isDigit hc (d:=ch 'I') (by decide)
  have hm := ne_of_isDigit hc (d:=ch '-') (by decide)
  simp [scanWord,words,lit,List.dropPrefix?,hn,ht,hf,hN,hI,hm]

theorem scanWord_minus {c : PyChar} (hc : isDigit c = true) (cs : PyStr) :
    scanWord (ch '-'::c::cs) = none := by
  have hI := ne_of_isDigit hc (d:=ch 'I') (by decide)
  simp [scanWord,words,lit,List.dropPrefix?,hI]

theorem parseValue_number (negative : Bool) (n : ℕ) (rest : PyStr) (fuel : ℕ) :
    parseValue ft (fuel+1) ((if negative then [ch '-'] else [])++natText n++rest) =
      scanNumber ft ((if negative then [ch '-'] else [])++natText n++rest) := by
  obtain ⟨c,cs,htext,hdigit⟩ := natText_starts n
  rw [htext]
  cases negative with
  | true =>
    have hword := scanWord_minus hdigit (cs++rest)
    show parseValue ft (fuel+1) (ch '-'::c::(cs++rest)) = scanNumber ft (ch '-'::c::(cs++rest))
    rw [parseValue,if_neg (by decide),if_neg (by decide),if_neg (by decide),hword,Option.none_or]
  | false =>
    have hword := scanWord_digit hdigit (cs++rest)
    have hquote := ne_of_isDigit hdigit (d:=ch '"') (by decide)
    have hbrace := ne_of_isDigit hdigit (d:=ch '\x7b') (by decide)
    have hbracket := ne_of_isDigit hdigit (d:=ch '[') (by decide)
    show parseValue ft (fuel+1) (c::(cs++rest)) = scanNumber ft (c::(cs++rest))
    rw [parseValue,if_neg hquote,if_neg hbrace,if_neg hbracket,hword,Option.none_or]

/-- The text of a value is read back in front of what cannot continue it. -/
def Parses (v : Json) : Prop :=
  ∀ rest fuel, Stops rest → (dumps ft a v).length < fuel →
    parseValue ft fuel (dumps ft a v++rest) = some (v,rest)

theorem parses_word {w : PyStr} (hdumps : dumps ft a v = w)
    (hword : ∀ rest fuel, parseValue ft (fuel+1) (w++rest) = some (v,rest)) : Parses ft a v := by
  intro rest fuel _ hfuel
  cases fuel with
  | zero => simp at hfuel
  | succ fuel => rw [hdumps,hword]

theorem parses_int (n : ℤ) : Parses ft a (.int n) := by
  intro rest fuel hrest hfuel
  cases fuel with
  | zero => simp at hfuel
  | succ fuel =>
    have hnum := scanNumber_int ft n hrest
    rw [dumps_int,intText_eq] at *
    rw [parseValue_number,hnum]

theorem parses_float (x : PyFloat) : Parses ft a (.float x) := by
  cases x with
  | nan =>
    apply parses_word ft a (w:=lit "NaN") (dumps_float ft a _)
    intro rest fuel
    simp [lit,parseValue,scanWord,words,List.dropPrefix?]
  | inf negative =>
    cases negative with
    | false =>
      apply parses_word ft a (w:=lit "Infinity") (dumps_float ft a _)
      intro rest fuel
      simp [lit,parseValue,scanWord,words,List.dropPrefix?]
    | true =>
      apply parses_word ft a (w:=lit "-Infinity") (dumps_float ft a _)
      intro rest fuel
      simp [lit,parseValue,scanWord,words,List.dropPrefix?]
  | finite b =>
    intro rest fuel hrest hfuel
    cases fuel with
    | zero => simp at hfuel
    | succ fuel =>
      have hnum := scanNumber_float ft (ft.repr b) hrest
      rw [ft.parse_repr] at hnum
      have hassoc : (ft.repr b).text++rest = (if (ft.repr b).negative then [ch '-'] else [])++
          natText (ft.repr b).whole++((ft.repr b).fractionText++((ft.repr b).exponentText++rest)) := by
        simp [FloatToken.text]
      rw [dumps_float,floatText,hassoc,parseValue_number,← hassoc,hnum]

theorem parses_str (h : a = true → encodes s = true) : Parses ft a (.str s) := by
  intro rest fuel _ hfuel
  cases fuel with
  | zero => simp at hfuel
  | succ fuel =>
    have hscan := scanString_quote h rest
    simp [dumps_str,quote,parseValue,hscan]

theorem dumps_starts (v : Json) : ∃ c cs, dumps ft a v = c::cs ∧ Starts c := by
  have hnumber : ∀ (negative : Bool) (n : ℕ) (rest : PyStr),
      ∃ c cs, (if negative then [ch '-'] else [])++natText n++rest = c::cs ∧ Starts c := by
    intro negative n rest
    obtain ⟨c,cs,htext,hdigit⟩ := natText_starts n
    cases negative with
    | true => exact ⟨_,_,rfl,by decide⟩
    | false => exact ⟨c,cs++rest,by simp [htext],starts_of_digit hdigit⟩
  cases v with
  | null => exact ⟨ch 'n',lit "ull",rfl,by decide⟩
  | bool b =>
    cases b with
    | true => exact ⟨ch 't',lit "rue",rfl,by decide⟩
    | false => exact ⟨ch 'f',lit "alse",rfl,by decide⟩
  | int n =>
    rw [dumps_int,intText_eq]
    simpa using hnumber (decide (n < 0)) n.natAbs []
  | float x =>
    cases x with
    | nan => exact ⟨ch 'N',lit "aN",rfl,by decide⟩
    | inf negative =>
      cases negative with
      | true => exact ⟨ch '-',lit "Infinity",rfl,by decide⟩
      | false => exact ⟨ch 'I',lit "nfinity",rfl,by decide⟩
    | finite b =>
      rw [dumps_float,floatText,FloatToken.text,List.append_assoc]
      exact hnumber _ _ _
  | str s => exact ⟨_,_,rfl,by decide⟩
  | arr xs => exact ⟨_,_,rfl,by decide⟩
  | obj fields => exact ⟨_,_,rfl,by decide⟩

theorem dumpsItems_starts (x : Json) (xs : List Json) :
    ∃ c cs, dumpsItems ft a (x::xs) = c::cs ∧ Starts c := by
  obtain ⟨c,cs,hc,hstart⟩ := dumps_starts ft a x
  cases xs with
  | nil => exact ⟨c,cs,by rw [dumpsItems_single,hc],hstart⟩
  | cons y ys => exact ⟨c,_,by rw [dumpsItems_cons,hc,List.cons_append],hstart⟩

theorem stops_comma (s : PyStr) : Stops (ch ','::s) := by
  intro c hc
  rw [← Option.some.inj hc]
  decide

theorem stops_bracket (s : PyStr) : Stops (ch ']'::s) := by
  intro c hc
  rw [← Option.some.inj hc]
  decide

theorem stops_brace (s : PyStr) : Stops (ch '\x7d'::s) := by
  intro c hc
  rw [← Option.some.inj hc]
  decide

theorem parseItems_dumpsItems {xs : List Json} (hne : xs ≠ []) (hxs : ∀ x ∈ xs, Parses ft a x)
    (rest : PyStr) {fuel : ℕ} (hfuel : (dumpsItems ft a xs).length+1 < fuel) :
    parseItems ft fuel (dumpsItems ft a xs++ch ']'::rest) = some (xs,rest) := by
  induction xs generalizing fuel with
  | nil => exact absurd rfl hne
  | cons x xs ih =>
    cases fuel with
    | zero => simp at hfuel
    | succ fuel =>
      have hx := hxs x List.mem_cons_self
      cases xs with
      | nil =>
        rw [dumpsItems_single] at hfuel ⊢
        rw [parseItems,hx _ fuel (stops_bracket rest) (by omega)]
        simp [skipWs_cons (c:=ch ']') (by decide)]
      | cons y ys =>
        have hys : ∀ z ∈ y::ys, Parses ft a z := fun z hz => hxs z (List.mem_cons_of_mem x hz)
        obtain ⟨c,cs,hc,hstart⟩ := dumpsItems_starts ft a y ys
        have hskip : ∀ s, skipWs (dumpsItems ft a (y::ys)++s) = dumpsItems ft a (y::ys)++s := by
          intro s
          rw [hc]
          exact skipWs_cons hstart.1 _
        rw [dumpsItems_cons] at hfuel ⊢
        simp only [List.length_append,List.length_cons] at hfuel
        simp only [List.append_assoc,List.cons_append]
        rw [parseItems,hx _ fuel (stops_comma _) (by omega),Option.bind_some]
        simp only [skipWs_cons (c:=ch ',') (by decide),skipWs_space,hskip]
        rw [if_neg (by decide),if_pos trivial,ih (by simp) hys (by omega)]
        rfl

theorem quote_append (s rest : PyStr) :
    quote a s++rest = ch '"'::(s.flatMap (quoteChar a)++ch '"'::rest) := by
  simp [quote]

theorem parseFields_dumpsFields {fields : List (PyStr × Json)} (hne : fields ≠ [])
    (hfields : ∀ kv ∈ fields, (a = true → encodes kv.1 = true) ∧ Parses ft a kv.2)
    {rest : PyStr} {fuel : ℕ} (hs : dumpsFields ft a fields++ch '\x7d'::rest = ch '"'::s)
    (hfuel : (dumpsFields ft a fields).length < fuel) :
    parseFields ft fuel s = some (fields,rest) := by
  induction fields generalizing fuel s with
  | nil => exact absurd rfl hne
  | cons kv fields ih =>
    obtain ⟨k,v⟩ := kv
    have hk := (hfields (k,v) List.mem_cons_self).1
    have hv : Parses ft a v := (hfields (k,v) List.mem_cons_self).2
    have hscan := fun r => scanString_quote hk r
    obtain ⟨c,cs,hc,hstart⟩ := dumps_starts ft a v
    have hskip : ∀ s, skipWs (dumps ft a v++s) = dumps ft a v++s := by
      intro s
      rw [hc]
      exact skipWs_cons hstart.1 _
    cases fuel with
    | zero => simp at hfuel
    | succ fuel =>
      cases fields with
      | nil =>
        rw [dumpsFields] at hfuel hs
        simp only [List.length_append,List.length_cons] at hfuel
        rw [List.append_assoc,quote_append,List.cons.injEq] at hs
        rw [← hs.2,parseFields,hscan,Option.bind_some]
        simp only [List.cons_append,skipWs_cons (c:=ch ':') (by decide),skipWs_space,hskip]
        rw [if_pos trivial,hv _ fuel (stops_brace rest) (by omega)]
        simp [skipWs_cons (c:=ch '\x7d') (by decide)]
      | cons kv' fields =>
        have htail : ∀ kv ∈ kv'::fields, (a = true → encodes kv.1 = true) ∧ Parses ft a kv.2 :=
          fun kv hkv => hfields kv (List.mem_cons_of_mem _ hkv)
        obtain ⟨t,ht⟩ : ∃ t, dumpsFields ft a (kv'::fields)++ch '\x7d'::rest = ch '"'::t := by
          cases fields with
          | nil => exact ⟨_,by rw [dumpsFields,List.append_assoc,quote_append]⟩
          | cons kv'' fields =>
            exact ⟨_,by rw [dumpsFields,List.append_assoc,List.append_assoc,quote_append]⟩
        rw [dumpsFields] at hfuel hs
        simp only [List.length_append,List.length_cons] at hfuel
        simp only [List.append_assoc,List.cons_append] at hs
        rw [quote_append,List.cons.injEq,ht] at hs
        rw [← hs.2,parseFields,hscan,Option.bind_some]
        simp only [skipWs_cons (c:=ch ':') (by decide),skipWs_space,hskip]
        rw [if_pos trivial,hv _ fuel (stops_comma _) (by omega),Option.bind_some]
        simp only [skipWs_cons (c:=ch ',') (by decide),skipWs_space,skipWs_cons (c:=ch '"') (by decide)]
        rw [if_neg (by decide),if_pos trivial,if_pos trivial,ih (by simp) htail ht (by omega)]
        rfl

theorem parses (v : Json) (hd : v.distinct = true) (he : a = true → v.encodes = true) :
    Parses ft a v := by
  induction v using Json.induct with
  | null =>
    apply parses_word ft a (w:=lit "null") rfl
    intro rest fuel
    simp [lit,parseValue,scanWord,words,List.dropPrefix?]
  | bool b =>
    cases b with
    | true =>
      apply parses_word ft a (w:=lit "true") rfl
      intro rest fuel
      simp [lit,parseValue,scanWord,words,List.dropPrefix?]
    | false =>
      apply parses_word ft a (w:=lit "false") rfl
      intro rest fuel
      simp [lit,parseValue,scanWord,words,List.dropPrefix?]
  | int n => exact parses_int ft a n
  | float x => exact parses_float ft a x
  | str s => exact parses_str ft a fun ha => by simpa [Json.encodes] using he ha
  | arr xs ih =>
    intro rest fuel hrest hfuel
    have hxs : ∀ x ∈ xs, Parses ft a x := by
      intro x hx
      rw [Json.distinct,allDistinct_iff] at hd
      apply ih x hx (hd x hx)
      intro ha
      have hall := he ha
      rw [Json.encodes,allEncode_iff] at hall
      exact hall x hx
    rw [dumps_arr] at hfuel ⊢
    cases fuel with
    | zero => simp at hfuel
    | succ fuel =>
      simp only [List.cons_append,List.append_assoc,List.nil_append,List.length_cons,
        List.length_append,List.length_nil] at hfuel ⊢
      rw [parseValue,if_neg (by decide),if_neg (by decide),if_pos rfl]
      cases xs with
      | nil =>
        simp [dumpsItems,skipWs_cons (c:=ch ']') (by decide)]
      | cons x xs =>
        have hlen : (dumpsItems ft a (x::xs)).length+1 < fuel := by omega
        have hparse := parseItems_dumpsItems ft a (by simp) hxs rest hlen
        obtain ⟨c,cs,hc,hstart⟩ := dumpsItems_starts ft a x xs
        rw [hc,List.cons_append] at hparse ⊢
        simp [skipWs_cons hstart.1,hstart.2.1,hparse]
  | obj fields ih =>
    intro rest fuel hrest hfuel
    rw [Json.distinct,Bool.and_eq_true,fieldsDistinct_iff] at hd
    have hfields : ∀ kv ∈ fields, (a = true → encodes kv.1 = true) ∧ Parses ft a kv.2 := by
      intro kv hkv
      have hall : a = true → encodes kv.1 = true ∧ kv.2.encodes = true := by
        intro ha
        have hall := he ha
        rw [Json.encodes,fieldsEncode_iff] at hall
        exact hall kv hkv
      exact ⟨fun ha => (hall ha).1,ih kv hkv (hd.2 kv hkv) fun ha => (hall ha).2⟩
    rw [dumps_obj] at hfuel ⊢
    cases fuel with
    | zero => simp at hfuel
    | succ fuel =>
      simp only [List.cons_append,List.append_assoc,List.nil_append,List.length_cons,
        List.length_append,List.length_nil] at hfuel ⊢
      rw [parseValue,if_neg (by decide),if_pos rfl]
      cases fields with
      | nil =>
        simp [dumpsFields,skipWs_cons (c:=ch '\x7d') (by decide)]
      | cons kv fields =>
        obtain ⟨t,ht⟩ : ∃ t, dumpsFields ft a (kv::fields)++ch '\x7d'::rest = ch '"'::t := by
          cases fields with
          | nil => exact ⟨_,by rw [dumpsFields,List.append_assoc,quote_append]⟩
          | cons kv' fields =>
            exact ⟨_,by rw [dumpsFields,List.append_assoc,List.append_assoc,quote_append]⟩
        have hlen : (dumpsFields ft a (kv::fields)).length < fuel := by omega
        have hparse := parseFields_dumpsFields ft a (by simp) hfields ht hlen
        rw [ht]
        have hdict := dictOf_of_nodup (of_decide_eq_true hd.1)
        simp [skipWs_cons (c:=ch '"') (by decide),hparse,hdict]

theorem loads_dumps (v : Json) (hd : v.distinct = true) (he : a = true → v.encodes = true) :
    loads ft (dumps ft a v) = some v := by
  obtain ⟨c,cs,hc,hstart⟩ := dumps_starts ft a v
  have hparse := parses ft a v hd he [] ((dumps ft a v).length+1) (by simp [Stops]) (by omega)
  have hskip : skipWs (dumps ft a v) = dumps ft a v := by
    rw [hc]
    exact skipWs_cons hstart.1 _
  have hmark : (dumps ft a v).head? ≠ some (ch '\ufeff') := by
    rw [hc]
    simpa using hstart.2.2
  rw [List.append_nil] at hparse
  rw [loads,if_neg hmark,hskip,hparse]
  rfl

theorem scanNumber_distinct {rest : PyStr} (h : scanNumber ft s = some (v,rest)) :
    v.distinct = true := by
  obtain ⟨p,_,hp⟩ := Option.map_eq_some_iff.mp h
  simp only at hp
  split at hp <;> cases hp <;> rfl

theorem scanWord_distinct {rest : PyStr} (h : scanWord s = some (v,rest)) :
    v.distinct = true := by
  have hwords : ∀ w ∈ words, w.2.distinct = true := by simp [words,Json.distinct]
  obtain ⟨w,hw,hrest⟩ := List.exists_of_findSome?_eq_some h
  obtain ⟨r,_,hr⟩ := Option.map_eq_some_iff.mp hrest
  cases hr
  exact hwords w hw

theorem parse_distinct (fuel : ℕ) :
    (∀ s v rest, parseValue ft fuel s = some (v,rest) → v.distinct = true) ∧
    (∀ s xs rest, parseItems ft fuel s = some (xs,rest) → allDistinct xs = true) ∧
    (∀ s fields rest, parseFields ft fuel s = some (fields,rest) → fieldsDistinct fields = true) := by
  induction fuel with
  | zero => simp [parseValue,parseItems,parseFields]
  | succ fuel ih =>
    obtain ⟨hvalue,hitems,hfields⟩ := ih
    refine ⟨?_,?_,?_⟩
    · intro s v rest h
      cases s with
      | nil => simp [parseValue] at h
      | cons c cs =>
        rw [parseValue] at h
        split at h
        · obtain ⟨p,_,hp⟩ := Option.map_eq_some_iff.mp h
          cases hp
          rfl
        split at h
        · split at h
          · simp at h
          · split at h
            · cases h
              rfl
            · split at h
              · obtain ⟨p,hp,heq⟩ := Option.map_eq_some_iff.mp h
                cases heq
                exact dictOf_distinct (hfields _ _ _ hp)
              · simp at h
        split at h
        · split at h
          · simp at h
          · split at h
            · cases h
              rfl
            · obtain ⟨p,hp,heq⟩ := Option.map_eq_some_iff.mp h
              cases heq
              rw [Json.distinct]
              exact hitems _ _ _ hp
        · cases Option.or_eq_some_iff.mp h with
          | inl h => exact scanWord_distinct h
          | inr h => exact scanNumber_distinct ft h.2
    · intro s xs rest h
      rw [parseItems] at h
      obtain ⟨p,hp,h⟩ := Option.bind_eq_some_iff.mp h
      have hhead := hvalue _ _ _ hp
      split at h
      · simp at h
      · split at h
        · cases h
          simp [allDistinct,hhead]
        · split at h
          · obtain ⟨q,hq,heq⟩ := Option.map_eq_some_iff.mp h
            cases heq
            simp [allDistinct,hhead,hitems _ _ _ hq]
          · simp at h
    · intro s fields rest h
      rw [parseFields] at h
      obtain ⟨k,_,h⟩ := Option.bind_eq_some_iff.mp h
      split at h
      · simp at h
      · split at h
        · obtain ⟨p,hp,h⟩ := Option.bind_eq_some_iff.mp h
          have hhead := hvalue _ _ _ hp
          split at h
          · simp at h
          · split at h
            · cases h
              simp [fieldsDistinct,hhead]
            · split at h
              · split at h
                · simp at h
                · split at h
                  · obtain ⟨q,hq,heq⟩ := Option.map_eq_some_iff.mp h
                    cases heq
                    simp [fieldsDistinct,hhead,hfields _ _ _ hq]
                  · simp at h
              · simp at h
        · simp at h

theorem loads_distinct (h : loads ft s = some v) : v.distinct = true := by
  unfold loads at h
  split at h
  · simp at h
  · obtain ⟨p,hp,h⟩ := Option.bind_eq_some_iff.mp h
    split at h
    · cases h
      exact (parse_distinct ft _).1 _ _ _ hp
    · simp at h

theorem encodes_digits (ds : List ℕ) : encodes (ds.map digitText) = true := by
  simp [encodes,digitText]

theorem encodes_natText (n : ℕ) : encodes (natText n) = true := by
  unfold natText
  split
  · decide
  · exact encodes_digits _

theorem encodes_finText (ds : List (Fin 10)) : encodes (finText ds) = true := by
  simp [encodes,finText,digitText]

theorem encodes_floatToken (t : FloatToken) : encodes t.text = true := by
  have hfraction : encodes t.fractionText = true := by
    unfold FloatToken.fractionText
    split
    · rfl
    · simp [encodes_finText]
  have hexponent : encodes t.exponentText = true := by
    unfold FloatToken.exponentText
    cases t.exponent with
    | none => rfl
    | some e => cases he : e.1 <;> simp [he,encodes_finText]
  cases ht : t.negative <;>
    simp [FloatToken.text,encodes_append,encodes_natText,hfraction,hexponent,ht]

theorem encodes_escapeCode (n : ℕ) : encodes (escapeCode n) = true := by
  unfold escapeCode
  split <;> rfl

theorem encodes_quoteChar (c : PyChar) : encodes (quoteChar a c) = (a || encodes [c]) := by
  unfold quoteChar
  cases hfind : shortEscapes.find? fun p => ch p.1 = c with
  | some p =>
    have hc : ch p.1 = c := by simpa using List.find?_some hfind
    rw [← hc]
    simp
  | none =>
    cases c with
    | scalar c =>
      simp only
      split
      · simp [encodes_escapeCode]
      · simp
    | surrogate n =>
      have hlow : ¬ 0xD800+n.val < 0x20 := by omega
      have hhigh : 0x7E < 0xD800+n.val := by omega
      cases a with
      | true => simp [PyChar.code,hhigh,encodes_escapeCode]
      | false => simp [PyChar.code,hlow,encodes]

theorem encodes_quote (s : PyStr) : encodes (quote a s) = (a || encodes s) := by
  have hbody : encodes (s.flatMap (quoteChar a)) = (a || encodes s) := by
    induction s with
    | nil => simp
    | cons c s ih =>
      rw [List.flatMap_cons,encodes_append,encodes_quoteChar,ih,encodes_cons c s]
      cases a <;> rfl
  simp [quote,encodes_append,hbody]

theorem encodes_dumpsItems {xs : List Json}
    (hxs : ∀ x ∈ xs, encodes (dumps ft a x) = (a || x.encodes)) :
    encodes (dumpsItems ft a xs) = (a || allEncode xs) := by
  induction xs with
  | nil => simp [dumpsItems,allEncode]
  | cons x xs ih =>
    have hx := hxs x List.mem_cons_self
    cases xs with
    | nil => simp [dumpsItems,allEncode,hx]
    | cons y ys =>
      have htail := ih fun z hz => hxs z (List.mem_cons_of_mem x hz)
      rw [dumpsItems,encodes_append,encodes_scalar_cons,encodes_scalar_cons,hx,htail,allEncode]
      cases a <;> rfl

theorem encodes_dumpsFields {fields : List (PyStr × Json)}
    (hfields : ∀ kv ∈ fields, encodes (dumps ft a kv.2) = (a || kv.2.encodes)) :
    encodes (dumpsFields ft a fields) = (a || fieldsEncode fields) := by
  induction fields with
  | nil => simp [dumpsFields,fieldsEncode]
  | cons kv fields ih =>
    have hkv : encodes (dumps ft a kv.2) = (a || kv.2.encodes) := hfields kv List.mem_cons_self
    cases fields with
    | nil =>
      rw [dumpsFields,encodes_append,encodes_quote,encodes_scalar_cons,encodes_scalar_cons,hkv]
      cases a <;> simp [fieldsEncode]
    | cons kv' fields =>
      have htail := ih fun z hz => hfields z (List.mem_cons_of_mem kv hz)
      simp only [dumpsFields,encodes_append,encodes_quote,encodes_scalar_cons,hkv,htail,fieldsEncode]
      cases a <;> simp

theorem encodes_dumps (v : Json) : encodes (dumps ft a v) = (a || v.encodes) := by
  induction v using Json.induct with
  | null => simp [dumps,Json.encodes]
  | bool b => cases b <;> simp [dumps,Json.encodes]
  | int n =>
    rw [dumps_int,intText]
    split <;> simp [encodes_natText,Json.encodes]
  | float x =>
    cases x with
    | nan => simp [dumps_float,floatText,Json.encodes]
    | inf negative => cases negative <;> simp [dumps_float,floatText,Json.encodes]
    | finite b => simp [dumps_float,floatText,encodes_floatToken,Json.encodes]
  | str s => rw [dumps_str,encodes_quote,Json.encodes]
  | arr xs ih =>
    simp [dumps_arr,encodes_append,encodes_dumpsItems ft a ih,Json.encodes]
  | obj fields ih =>
    simp [dumps_obj,encodes_append,encodes_dumpsFields ft a ih,Json.encodes]

end RoundTrip

/-- Floats written as the number of their bit pattern, followed by `.0`. -/
def plainFloats : FloatText where
  repr b := ⟨false,b.val.toNat,[0],none,by simp,by simp⟩
  parse s :=
    let bits := UInt64.ofNat (natOf (s.takeWhile isDigit))
    if h : (bits >>> 52) &&& 0x7FF ≠ 0x7FF then .finite ⟨bits,h⟩ else .nan
  parse_repr b := by
    have hpoint : ∀ c ∈ (ch '.'::finText [0]).head?, isDigit c = false := by
      intro c hc
      rw [← Option.some.inj hc]
      decide
    have hspan := takeWhile_digits (natText_digits b.val.toNat) hpoint
    have hbits : UInt64.ofNat (natOf (natText b.val.toNat)) = b.val := by
      rw [natOf_natText,UInt64.ofNat_toNat]
    simp only [FloatToken.text,FloatToken.fractionText,FloatToken.exponentText]
    simp [hspan.1,hbits,b.property]
    rfl

end MinimaxCode.PyJson
