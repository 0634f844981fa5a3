import MinimaxCode.OptionMaps
import MinimaxCode.PyText

/-!
# Files in text mode

Text is stored in UTF-8. In text mode a read turns every line break into a line feed, and
a write turns line feeds into the line break of the platform, so a file comes back from a
read and a write as it was only when all its line breaks are the platform's.
-/

namespace MinimaxCode.TextMode

open PyText OptionMaps

inductive Linesep
  | lf
  | crlf
  deriving DecidableEq

def Linesep.text : Linesep → PyStr
  | .lf => [ch '\n']
  | .crlf => [ch '\r',ch '\n']

/-- What is read of the line breaks. -/
def translate : PyStr → PyStr
  | [] => []
  | c::cs =>
    if c = ch '\r' then if cs.head? = some (ch '\n') then translate cs else ch '\n'::translate cs
    else c::translate cs

/-- What is written for the line feeds. -/
def lineBreaks (sep : Linesep) (s : PyStr) : PyStr :=
  s.flatMap fun c => if c = ch '\n' then sep.text else [c]

def scalar? : PyChar → Option Char
  | .scalar c => some c
  | .surrogate _ => none

/-- `s.encode("utf-8")`. -/
def encode (s : PyStr) : Option ByteArray :=
  (s.mapM scalar?).map fun chars => (chars.flatMap String.utf8EncodeChar).toByteArray

/-- `content.decode("utf-8")`. -/
def decode (content : ByteArray) : Option PyStr :=
  content.utf8Decode?.map fun chars => chars.toList.map .scalar

/-- `read_text(encoding="utf-8")`. -/
def readText (content : ByteArray) : Option PyStr := (decode content).map translate

/-- `write_text(s, encoding="utf-8")`. -/
def writeText (sep : Linesep) (s : PyStr) : Option ByteArray := encode (lineBreaks sep s)

/-- Text mode reads the text and writes it as it was. -/
def Native (sep : Linesep) (s : PyStr) : Prop := lineBreaks sep (translate s) = s

variable {s : PyStr} {content : ByteArray}

theorem mapM_scalar_iff {chars : List Char} :
    s.mapM scalar? = some chars ↔ s = chars.map .scalar := by
  constructor
  · intro h
    have hback := map_of_mapM (p := PyChar.scalar) (q := id) (f := scalar?) (fun x y hxy => ?_) h
    · simpa using hback.symm
    · cases x <;> simp_all [scalar?]
  · rintro rfl
    rw [List.mapM_map]
    exact (mapM_some (g := id) fun c _ => rfl).trans (by rw [List.map_id])

theorem encode_eq_some_iff :
    encode s = some content ↔ ∃ chars : List Char, s = chars.map .scalar ∧ chars.utf8Encode = content := by
  simp only [encode,Option.map_eq_some_iff,mapM_scalar_iff]
  rfl

theorem decode_eq_some_iff :
    decode content = some s ↔ encode s = some content := by
  rw [encode_eq_some_iff,decode,Option.map_eq_some_iff]
  constructor
  · rintro ⟨chars,hchars,rfl⟩
    refine ⟨chars.toList,rfl,?_⟩
    have hsome : content.utf8Decode?.isSome := Option.isSome_of_eq_some hchars
    have hget : content.utf8Decode?.get hsome = chars := by simp [hchars]
    rw [← hget]
    exact ByteArray.utf8Encode_get_utf8Decode?
  · rintro ⟨chars,rfl,rfl⟩
    exact ⟨chars.toArray,List.utf8Decode?_utf8Encode,by simp⟩

theorem encode_of_encodes (h : encodes s = true) : ∃ content, encode s = some content := by
  suffices hchars : ∃ chars : List Char, s = chars.map .scalar by
    obtain ⟨chars,hchars⟩ := hchars
    exact ⟨_,encode_eq_some_iff.mpr ⟨chars,hchars,rfl⟩⟩
  induction s with
  | nil => exact ⟨[],rfl⟩
  | cons c s ih =>
    cases c with
    | surrogate n => cases h
    | scalar c =>
      obtain ⟨chars,rfl⟩ := ih h
      exact ⟨c::chars,rfl⟩

theorem encodes_of_decode (h : decode content = some s) :
    encodes s = true := by
  obtain ⟨chars,rfl,-⟩ := encode_eq_some_iff.mp (decode_eq_some_iff.mp h)
  simp [encodes]

theorem decode_prefix {t : PyStr} {k : ℕ} (hk : k ≤ content.size)
    (h : decode content = some s) (ht : decode (content.extract 0 k) = some t) : t <+: s := by
  obtain ⟨chars,rfl,hchars⟩ := encode_eq_some_iff.mp (decode_eq_some_iff.mp h)
  obtain ⟨cut,rfl,hcut⟩ := encode_eq_some_iff.mp (decode_eq_some_iff.mp ht)
  have hsplit := @ByteArray.extract_eq_extract_append_extract content 0 content.size k k.zero_le hk
  rw [ByteArray.extract_zero_size] at hsplit
  have hprefix : cut <+: chars := by
    apply List.isPrefix_of_utf8Encode_append_eq_utf8Encode (content.extract k content.size)
    rw [hcut,hchars,← hsplit]
  exact hprefix.map _

theorem encode_lit (s : String) : encode (lit s) = some s.toByteArray :=
  encode_eq_some_iff.mpr ⟨s.toList,rfl,String.utf8Encode_toList⟩

theorem decode_lit (s : String) : decode s.toByteArray = some (lit s) :=
  decode_eq_some_iff.mpr (encode_lit s)

theorem encode_inj {s' : PyStr} (h : encode s = some content)
    (h' : encode s' = some content) : s = s' := by
  have hs := decode_eq_some_iff.mpr h
  rw [decode_eq_some_iff.mpr h'] at hs
  exact (Option.some.inj hs).symm

theorem encode_append_iff {s' : PyStr} :
    encode (s++s') = some content ↔
      ∃ a b, encode s = some a ∧ encode s' = some b ∧ a++b = content := by
  simp only [encode_eq_some_iff]
  constructor
  · rintro ⟨chars,hchars,rfl⟩
    obtain ⟨a,b,rfl,rfl,rfl⟩ := List.map_eq_append_iff.mp hchars.symm
    exact ⟨_,_,⟨a,rfl,rfl⟩,⟨b,rfl,rfl⟩,List.utf8Encode_append.symm⟩
  · rintro ⟨_,_,⟨a,rfl,rfl⟩,⟨b,rfl,rfl⟩,rfl⟩
    exact ⟨a++b,by simp,List.utf8Encode_append⟩

@[simp] theorem lineBreaks_lf (s : PyStr) : lineBreaks .lf s = s := by
  induction s with
  | nil => rfl
  | cons c cs ih =>
    rw [lineBreaks,List.flatMap_cons,← lineBreaks,ih]
    split
    · next h => rw [h]; rfl
    · rfl

theorem lineBreaks_append (sep : Linesep) (s s' : PyStr) :
    lineBreaks sep (s++s') = lineBreaks sep s++lineBreaks sep s' := List.flatMap_append

theorem cr_not_mem_translate (s : PyStr) : ch '\r' ∉ translate s := by
  induction s with
  | nil => exact List.not_mem_nil
  | cons c cs ih =>
    rw [translate]
    split
    · split
      · exact ih
      · simp [ih]
    · next h => simp [ih,Ne.symm h]

theorem translate_of_not_mem (h : ch '\r' ∉ s) : translate s = s := by
  induction s with
  | nil => rfl
  | cons c cs ih =>
    rw [List.mem_cons,not_or] at h
    rw [translate,if_neg (Ne.symm h.1),ih h.2]

theorem translate_append {s' : PyStr}
    (h : ¬ (s.getLast? = some (ch '\r') ∧ s'.head? = some (ch '\n'))) :
    translate (s++s') = translate s++translate s' := by
  induction s with
  | nil => rfl
  | cons c cs ih =>
    cases cs with
    | nil =>
      by_cases hc : c = ch '\r'
      · have hs' : s'.head? ≠ some (ch '\n') := fun hs' => h ⟨by simp [hc],hs'⟩
        simp [translate,hc,hs']
      · simp [translate,hc]
    | cons d ds =>
      have hrest := ih (by simpa using h)
      rw [List.cons_append,translate,hrest,translate.eq_def (c::d::ds)]
      by_cases hc : c = ch '\r' <;> by_cases hd : d = ch '\n' <;> simp [hc,hd]

theorem native_lf : Native .lf s ↔ ch '\r' ∉ s := by
  rw [Native,lineBreaks_lf]
  constructor
  · intro h
    rw [← h]
    exact cr_not_mem_translate s
  · exact translate_of_not_mem

theorem Native.getLast?_ne {sep : Linesep} (h : Native sep s) :
    s.getLast? ≠ some (ch '\r') := by
  rw [← h]
  have hcr := cr_not_mem_translate s
  cases hs : (translate s).reverse with
  | nil => simp [List.reverse_eq_nil_iff.mp hs,lineBreaks]
  | cons c cs =>
    have hsplit : translate s = cs.reverse++[c] := by
      rw [← List.reverse_reverse (translate s),hs,List.reverse_cons]
    rw [hsplit] at hcr ⊢
    rw [lineBreaks_append,List.getLast?_append]
    by_cases hc : c = ch '\n'
    · cases sep <;> simp [lineBreaks,hc,Linesep.text]
    · have hne : c ≠ ch '\r' := by
        rintro rfl
        simp at hcr
      simp [lineBreaks,hc,hne]

end MinimaxCode.TextMode
