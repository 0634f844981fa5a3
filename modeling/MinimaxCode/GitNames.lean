import MinimaxCode.SandboxLayout
import MinimaxCode.SplitLines

/-!
# The names that git prints

`git ls-files` prints a name on a line of its own. A name with an unusual character stands in
double quotes, with the unusual characters behind backslashes. Whoever reads the line as the
name takes the quotes for a part of it.
-/

namespace MinimaxCode.GitNames

open PyText SplitLines Sandbox FileTree

/-- The characters that git quotes. With `core.quotePath` off those beyond ASCII are not. -/
def unusual (quotePath : Bool) (c : PyChar) : Bool :=
  c == ch '"' || c == ch '\\' || c.code < 32 || c.code == 127 || (quotePath && 128 ≤ c.code)

def octalDigit (n : ℕ) : PyChar := ((lit "01234567")[n%8]?).getD (ch '0')

/-- The bytes of a character in UTF-8; a lone surrogate stands for a byte. -/
def utf8Bytes (c : PyChar) : List ℕ :=
  let n := c.code
  match c with
  | .surrogate _ => [n-0xDC00]
  | .scalar _ =>
    if n < 0x80 then [n]
    else if n < 0x800 then [0xC0+n/64,0x80+n%64]
    else if n < 0x10000 then [0xE0+n/4096,0x80+n/64%64,0x80+n%64]
    else [0xF0+n/262144,0x80+n/4096%64,0x80+n/64%64,0x80+n%64]

/-- The letter that stands for a character behind a backslash, as in C. -/
def cEscape (c : PyChar) : Option PyChar :=
  if c = ch '"' ∨ c = ch '\\' then some c
  else if 7 ≤ c.code ∧ c.code ≤ 13 then (lit "abtnvfr")[c.code-7]?
  else none

/-- What stands for a character between the quotes. -/
def escape (quotePath : Bool) (c : PyChar) : PyStr :=
  if unusual quotePath c then
    match cEscape c with
    | some letter => [ch '\\',letter]
    | none => (utf8Bytes c).flatMap fun b =>
      [ch '\\',octalDigit (b/64),octalDigit (b/8),octalDigit b]
  else [c]

/-- The path of a file below the root of the working tree. -/
def pathName (file : Rel) : PyStr := (lit "/").intercalate file

def quoted (quotePath : Bool) (name : PyStr) : PyStr :=
  ch '"'::(name.flatMap (escape quotePath)++[ch '"'])

/-- What git prints for a name. -/
def printed (quotePath : Bool) (name : PyStr) : PyStr :=
  if name.any (unusual quotePath) then quoted quotePath name else name

/-- A name that git prints as it is, and whose line is read as it is. -/
def PlainName (quotePath : Bool) (name : PyStr) : Prop :=
  name.any (unusual quotePath) = false ∧ Unbroken name ∧ encodes name = true ∧ isBlank name = false

/-- A component of a path that names a file or a directory. -/
def NamesEntry (n : PyStr) : Prop :=
  ch '/' ∉ n ∧ n ≠ [] ∧ n ≠ lit "." ∧ n ≠ lit ".."

instance (n : PyStr) : Decidable (NamesEntry n) := inferInstanceAs (Decidable (_ ∧ _ ∧ _))

example : printed true (lit "caf\u00e9.txt") = lit "\"caf\\303\\251.txt\"" := by decide

variable {quotePath : Bool} {c x : PyChar} {name s : PyStr} {file : Rel} {ns : List PyStr}

/-- Characters that leave lines and paths as they are. -/
def Harmless (c : PyChar) : Prop := c ≠ ch '/' ∧ isLineBreak c = false ∧ encodes [c] = true

instance (c : PyChar) : Decidable (Harmless c) := inferInstanceAs (Decidable (_ ∧ _ ∧ _))

theorem harmless_octalDigit (n : ℕ) : Harmless (octalDigit n) := by
  have hall : ∀ c ∈ lit "01234567", Harmless c := by decide
  rw [octalDigit]
  cases h : (lit "01234567")[n%8]? with
  | none => exact hall _ (by decide)
  | some c => exact hall c (List.mem_of_getElem? h)

theorem harmless_cEscape (h : cEscape c = some x) : Harmless x := by
  rw [cEscape] at h
  split at h
  · next hc =>
    cases h
    rcases hc with rfl | rfl <;> decide
  · split at h
    · have hall : ∀ c ∈ lit "abtnvfr", Harmless c := by decide
      exact hall x (List.mem_of_getElem? h)
    · cases h

theorem escape_of_unusual (h : unusual quotePath c = true) :
    ch '\\' ∈ escape quotePath c ∧ ∀ x ∈ escape quotePath c, Harmless x := by
  have hback : Harmless (ch '\\') := by decide
  rw [escape,if_pos h]
  split
  · next letter hletter =>
    refine ⟨List.mem_cons_self,fun x hx => ?_⟩
    rcases List.mem_cons.mp hx with rfl | hx
    · exact hback
    · rw [List.mem_singleton.mp hx]
      exact harmless_cEscape hletter
  · have hbytes : utf8Bytes c ≠ [] := by
      cases c with
      | surrogate n => exact List.cons_ne_nil _ _
      | scalar c =>
        rw [utf8Bytes]
        split
        · exact List.cons_ne_nil _ _
        · split
          · exact List.cons_ne_nil _ _
          · split <;> exact List.cons_ne_nil _ _
    obtain ⟨b,bs,hb⟩ := List.exists_cons_of_ne_nil hbytes
    refine ⟨List.mem_flatMap.mpr ⟨b,by rw [hb]; exact List.mem_cons_self,List.mem_cons_self⟩,?_⟩
    intro x hx
    obtain ⟨b,-,hx⟩ := List.mem_flatMap.mp hx
    simp only [List.mem_cons,List.not_mem_nil,or_false] at hx
    rcases hx with rfl | rfl | rfl | rfl
    · exact hback
    · exact harmless_octalDigit _
    · exact harmless_octalDigit _
    · exact harmless_octalDigit _

theorem escape_of_usual (h : unusual quotePath c = false) : escape quotePath c = [c] := by
  rw [escape,if_neg (by rw [h]; exact Bool.false_ne_true)]

theorem flatMap_escape_of_usual (h : name.any (unusual quotePath) = false) :
    name.flatMap (escape quotePath) = name := by
  induction name with
  | nil => rfl
  | cons c name ih =>
    rw [List.any_cons,Bool.or_eq_false_iff] at h
    rw [List.flatMap_cons,escape_of_usual h.1,ih h.2]
    rfl

theorem mem_flatMap_escape (h : x ∈ name.flatMap (escape quotePath)) : Harmless x ∨ x ∈ name := by
  obtain ⟨c,hc,hx⟩ := List.mem_flatMap.mp h
  cases hu : unusual quotePath c with
  | true => exact .inl ((escape_of_unusual hu).2 x hx)
  | false =>
    rw [escape_of_usual hu,List.mem_singleton] at hx
    exact .inr (hx ▸ hc)

theorem length_le_flatMap_escape (quotePath : Bool) (name : PyStr) :
    name.length ≤ (name.flatMap (escape quotePath)).length := by
  induction name with
  | nil => exact Nat.le_refl 0
  | cons c name ih =>
    have hone : 1 ≤ (escape quotePath c).length := by
      cases hu : unusual quotePath c with
      | true => exact List.length_pos_of_mem (escape_of_unusual hu).1
      | false => rw [escape_of_usual hu]; exact Nat.le_refl 1
    rw [List.flatMap_cons,List.length_append,List.length_cons]
    omega

theorem length_lt_quoted (quotePath : Bool) (name : PyStr) :
    name.length < (quoted quotePath name).length := by
  have hle := length_le_flatMap_escape quotePath name
  rw [quoted,List.length_cons,List.length_append,List.length_singleton]
  omega

theorem printed_clean (hunbroken : Unbroken name) (hencodes : encodes name = true) :
    Unbroken (printed quotePath name) ∧ encodes (printed quotePath name) = true := by
  have hquote : Harmless (ch '"') := by decide
  have hname : ∀ x ∈ name, encodes [x] = true := by
    intro x hx
    rw [encodes,List.all_eq_true] at hencodes
    rw [encodes,List.all_cons,List.all_nil,Bool.and_true]
    exact hencodes x hx
  have hall : ∀ x ∈ printed quotePath name, isLineBreak x = false ∧ encodes [x] = true := by
    intro x hx
    rw [printed] at hx
    split at hx
    · rw [quoted,List.mem_cons,List.mem_append,List.mem_singleton] at hx
      rcases hx with rfl | hx | rfl
      · exact hquote.2
      · rcases mem_flatMap_escape hx with hx | hx
        · exact hx.2
        · exact ⟨hunbroken x hx,hname x hx⟩
      · exact hquote.2
    · exact ⟨hunbroken x hx,hname x hx⟩
  refine ⟨fun x hx => (hall x hx).1,?_⟩
  rw [encodes,List.all_eq_true]
  intro x hx
  have hone := (hall x hx).2
  rwa [encodes,List.all_cons,List.all_nil,Bool.and_true] at hone

theorem pureParts_cons {n : PyStr} (h : NamesEntry n) (s : PyStr) :
    pureParts (n++ch '/'::s) = some n::pureParts s := by
  obtain ⟨hslash,hnil,hdot,hup⟩ := h
  rw [pureParts,splitOn_append_sep hslash,List.filter_cons_of_pos (by simp [hnil,hdot]),
    List.map_cons,if_neg hup]
  rfl

theorem pureParts_intercalate (hne : ns ≠ []) (h : ∀ n ∈ ns, NamesEntry n) :
    pureParts ((lit "/").intercalate ns) = ns.map some := by
  induction ns with
  | nil => exact absurd rfl hne
  | cons n ns ih =>
    have hn := h n List.mem_cons_self
    cases ns with
    | nil =>
      rw [List.intercalate_singleton,pureParts_of_plain hn.1 hn.2]
      rfl
    | cons m ns =>
      rw [List.intercalate_cons_cons,List.append_assoc]
      have hrest := ih (List.cons_ne_nil m ns) fun k hk => h k (List.mem_cons_of_mem n hk)
      have hcons := pureParts_cons hn ((lit "/").intercalate (m::ns))
      rw [hrest] at hcons
      exact hcons

theorem not_isAbsolute_of_head (h : ∀ n ∈ ns, NamesEntry n) :
    isAbsolute ((lit "/").intercalate ns) = false := by
  cases ns with
  | nil => rfl
  | cons n ns =>
    obtain ⟨hslash,hnil,-⟩ := h n List.mem_cons_self
    obtain ⟨c,cs,rfl⟩ := List.exists_cons_of_ne_nil hnil
    have hc : c ≠ ch '/' := by
      rintro rfl
      exact hslash List.mem_cons_self
    cases ns with
    | nil => simp [isAbsolute,hc]
    | cons m ns => simp [isAbsolute,hc]

theorem namesEntry_of_quote (hslash : ch '/' ∉ s) (hquote : ch '"' ∈ s) : NamesEntry s := by
  refine ⟨hslash,List.ne_nil_of_mem hquote,?_,?_⟩ <;> rintro rfl <;> revert hquote <;> decide

theorem namesEntry_escape {n : PyStr} (h : NamesEntry n) (quotePath : Bool) :
    NamesEntry (n.flatMap (escape quotePath)) := by
  cases hu : n.any (unusual quotePath) with
  | false => rwa [flatMap_escape_of_usual hu]
  | true =>
    obtain ⟨c,hc,hcu⟩ := List.any_eq_true.mp hu
    have hback : ch '\\' ∈ n.flatMap (escape quotePath) :=
      List.mem_flatMap.mpr ⟨c,hc,(escape_of_unusual hcu).1⟩
    refine ⟨fun hslash => ?_,List.ne_nil_of_mem hback,?_,?_⟩
    · rcases mem_flatMap_escape hslash with hx | hx
      · exact hx.1 rfl
      · exact h.1 hx
    · intro he
      rw [he] at hback
      revert hback
      decide
    · intro he
      rw [he] at hback
      revert hback
      decide

theorem escape_slash (quotePath : Bool) : escape quotePath (ch '/') = [ch '/'] := by
  cases quotePath <;> decide

/-- The components of a quoted name, the first one without the quote in front. -/
def quotedTail (quotePath : Bool) : List PyStr → List PyStr
  | [] => [[ch '"']]
  | [n] => [n.flatMap (escape quotePath)++[ch '"']]
  | n::ns => n.flatMap (escape quotePath)::quotedTail quotePath ns

theorem quotedTail_spec (quotePath : Bool) (h : ∀ n ∈ ns, NamesEntry n) :
    ((lit "/").intercalate ns).flatMap (escape quotePath)++[ch '"'] =
        (lit "/").intercalate (quotedTail quotePath ns) ∧
      (∀ n ∈ quotedTail quotePath ns, NamesEntry n) ∧ quotedTail quotePath ns ≠ [] := by
  induction ns with
  | nil =>
    refine ⟨rfl,fun n hn => ?_,List.cons_ne_nil _ _⟩
    rw [List.mem_singleton.mp hn]
    exact namesEntry_of_quote (by decide) (by decide)
  | cons n ns ih =>
    have hn := namesEntry_escape (h n List.mem_cons_self) quotePath
    cases ns with
    | nil =>
      refine ⟨by rw [List.intercalate_singleton,quotedTail,List.intercalate_singleton],
        fun m hm => ?_,List.cons_ne_nil _ _⟩
      rw [List.mem_singleton.mp hm]
      refine namesEntry_of_quote (fun hslash => ?_) (by simp)
      rcases List.mem_append.mp hslash with hs | hs
      · exact hn.1 hs
      · cases List.mem_singleton.mp hs
    | cons m ns =>
      obtain ⟨heq,hall,hne⟩ := ih fun k hk => h k (List.mem_cons_of_mem n hk)
      obtain ⟨t,ts,ht⟩ := List.exists_cons_of_ne_nil hne
      refine ⟨?_,fun k hk => ?_,List.cons_ne_nil _ _⟩
      · have htail : quotedTail quotePath (n::m::ns) =
            n.flatMap (escape quotePath)::quotedTail quotePath (m::ns) := rfl
        have hslash : (lit "/").flatMap (escape quotePath) = lit "/" :=
          (List.flatMap_singleton _ _).trans (escape_slash quotePath)
        rw [htail,ht,List.intercalate_cons_cons,List.intercalate_cons_cons,List.flatMap_append,
          List.flatMap_append,hslash,List.append_assoc,List.append_assoc,← ht,← heq]
        rw [List.append_assoc]
      · rcases List.mem_cons.mp hk with rfl | hk
        · exact hn
        · exact hall k hk

theorem exists_quoted_parts (quotePath : Bool) (h : ∀ n ∈ ns, NamesEntry n) :
    ∃ qs, quoted quotePath ((lit "/").intercalate ns) = (lit "/").intercalate qs ∧
      qs ≠ [] ∧ ∀ n ∈ qs, NamesEntry n := by
  obtain ⟨heq,hall,hne⟩ := quotedTail_spec quotePath h
  obtain ⟨t,ts,ht⟩ := List.exists_cons_of_ne_nil hne
  rw [ht] at heq hall
  refine ⟨(ch '"'::t)::ts,?_,List.cons_ne_nil _ _,fun n hn => ?_⟩
  · rw [quoted,heq]
    cases ts with
    | nil => rw [List.intercalate_singleton,List.intercalate_singleton]
    | cons u ts => rw [List.intercalate_cons_cons,List.intercalate_cons_cons]; rfl
  · rcases List.mem_cons.mp hn with rfl | hn
    · refine namesEntry_of_quote (fun hslash => ?_) List.mem_cons_self
      rcases List.mem_cons.mp hslash with hs | hs
      · cases hs
      · exact (hall t List.mem_cons_self).1 hs
    · exact hall n (List.mem_cons_of_mem _ hn)

end MinimaxCode.GitNames
