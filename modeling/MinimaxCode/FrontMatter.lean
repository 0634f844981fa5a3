import MinimaxCode.AuditRedaction
import MinimaxCode.LockFile
import MinimaxCode.OrderedDict

/-!
# The front matter of a skill

A skill file starts with a block between two lines of dashes. The block is read line by line: a
line at the left margin has a key, and the lines below may belong to its value. Each reader of such
lines tells how many it took, and the loop goes on behind them.
-/

namespace MinimaxCode.FrontMatter

open PyText PyJson SplitLines
open Audit (lower)
open WorkspaceLock (Decimals intOfStr)

/-- What a value is read as. A float is known by its text. -/
inductive Data
  | str (text : PyStr)
  | int (n : ℤ)
  | float (text : PyStr)
  | bool (b : Bool)
  | none
  | list (items : List Data)

/-- `_YAMLError`, with what its message tells. -/
inductive YamlError
  | expectedColon (line : ℕ) (text : PyStr)
  | emptyKey (line : ℕ)
  | unexpectedIndentation (line : ℕ)
  | overIndent (line : ℕ) (text : PyStr)
  | blockScalarHeader (head : PyStr)
  | notAnInt (text : PyStr)
  deriving DecidableEq

inductive SkillLoadError
  | malformed
  | invalid (e : YamlError)
  deriving DecidableEq

def lstrip (s : PyStr) : PyStr := s.dropWhile PyChar.isSpace

def join (sep : Char) (texts : List PyStr) : PyStr := [ch sep].intercalate texts

section Scalar

variable (d : Decimals)

/-- `\d`. -/
def isDecimal (c : PyChar) : Bool := if c.code < 128 then isDigit c else (d.value c).isSome

/-- `sys.get_int_max_str_digits()`. -/
def maxStrDigits : ℕ := 4300

/-- `int` of a text, or `none` where it raises. -/
def toInt (text : PyStr) : Option ℤ :=
  if text.countP (isDecimal d) ≤ maxStrDigits then intOfStr d text else none

/-- What is left of a text for `-?`. -/
def unsigned : PyStr → PyStr
  | [] => []
  | c::cs => if c = ch '-' then cs else c::cs

/-- `re.fullmatch(r"-?\d+", text)`. -/
def intShape (text : PyStr) : Bool := unsigned text != [] && (unsigned text).all (isDecimal d)

/-- `re.fullmatch(r"-?\d+\.\d+", text)`. -/
def floatShape (text : PyStr) : Bool :=
  match (unsigned text).span (isDecimal d) with
  | (whole,c::fraction) => whole != [] && c == ch '.' && fraction != [] && fraction.all (isDecimal d)
  | (_,[]) => false

/-- `text[0] == text[-1]` is a quote. -/
def isQuoted (text : PyStr) : Bool :=
  text.head? == text.getLast? && (text.head? == some (ch '"') || text.head? == some (ch '\''))

def trueWords : List PyStr := [lit "true",lit "yes",lit "on"]
def falseWords : List PyStr := [lit "false",lit "no",lit "off"]
def nullWords : List PyStr := [lit "null",lit "~",[]]

def parseScalar (text : PyStr) : Except YamlError Data :=
  if text = [] then .ok (.str [])
  else if text = lit "[]" then .ok (.list [])
  else if isQuoted text then .ok (.str text.tail.dropLast)
  else if lower text ∈ trueWords then .ok (.bool true)
  else if lower text ∈ falseWords then .ok (.bool false)
  else if lower text ∈ nullWords then .ok .none
  else if intShape d text then
    match toInt d text with
    | some n => .ok (.int n)
    | none => .error (.notAnInt text)
  else if floatShape d text then .ok (.float text)
  else .ok (.str text)

end Scalar

def measureIndent (line : PyStr) : ℕ := (line.takeWhile (· = ch ' ')).length

/-- The loop of both block scalar readers: how many lines it takes, and what it makes of them. -/
def bodyLines (indent : ℕ) : List PyStr → ℕ × List PyStr
  | [] => (0,[])
  | line::rest =>
    if isBlank line then ((bodyLines indent rest).1+1,[]::(bodyLines indent rest).2)
    else if measureIndent line < indent then (0,[])
    else ((bodyLines indent rest).1+1,line.drop indent::(bodyLines indent rest).2)

def dropBlank (body : List PyStr) : List PyStr := body.rdropWhile (· = [])

/-- The loop that folds lines, with the lines of the current paragraph. -/
def foldLines (buf : List PyStr) : List PyStr → List PyStr
  | [] => if buf = [] then [] else [join ' ' buf]
  | ln::rest =>
    if ln = [] then (if buf = [] then [] else [join ' ' buf])++[]::foldLines [] rest
    else foldLines (buf++[ln]) rest

def blockText (marker : PyChar) (body : List PyStr) : PyStr :=
  if marker = ch '>' then join '\n' (foldLines [] body) else join '\n' body

/-- `_parse_block_scalar_after_marker`, on the lines from `start` on. -/
def parseBlockScalarAfterMarker (baseIndent : ℕ) (marker : PyChar) : List PyStr → ℕ × PyStr
  | [] => (0,[])
  | first::rest =>
    if isBlank first then (0,[])
    else if measureIndent first ≤ baseIndent then (0,[])
    else
      let (consumed,body) := bodyLines (measureIndent first) (first::rest)
      (consumed,blockText marker (dropBlank body))

section Block

variable (d : Decimals)

/-- The trailing lines that go by the chomping indicator. -/
def chompLines (chomp : Option PyChar) (body : List PyStr) : List PyStr :=
  let body :=
    if chomp = some (ch '-') then (if body.getLast? = some [] then body.dropLast else body)
    else dropBlank body
  if chomp = some (ch '+') then body++[[]] else body

/-- The chomping indicator of a header, and what is behind it. -/
def headerChomp (header : PyStr) : Option PyChar × PyStr :=
  match strip header with
  | [] => (none,[])
  | c::cs => if c = ch '+' ∨ c = ch '-' then (some c,strip cs) else (none,c::cs)

/-- `_parse_block_scalar`, on the line that is taken for the header and those behind it. -/
def parseBlockScalar (indent : ℕ) (marker : PyChar) (first : PyStr) (rest : List PyStr) :
    Except YamlError (ℕ × PyStr) :=
  let head := lstrip first
  let (chomp,number) := headerChomp head.tail
  if number ≠ [] ∧ toInt d number = none then .error (.blockScalarHeader head)
  else
    let (consumed,body) := bodyLines indent rest
    .ok (consumed,blockText marker (chompLines chomp body))

/-- An item of a list. -/
def listItem (rest : PyStr) : Except YamlError Data :=
  if rest = [] then .ok (.str []) else parseScalar d rest

/-- `_parse_block_list`, on the lines from number `i` on. -/
def parseBlockList (indent : ℕ) : ℕ → List PyStr → Except YamlError (ℕ × List Data)
  | _, [] => .ok (0,[])
  | i, line::rest =>
    if isBlank line then do
      let (consumed,items) ← parseBlockList indent (i+1) rest
      return (consumed+1,items)
    else if measureIndent line < indent then .ok (0,[])
    else if indent < measureIndent line then .error (.overIndent (i+1) line)
    else
      match lstrip line with
      | [] => .ok (0,[])
      | c::cs =>
        if c ≠ ch '-' then .ok (0,[])
        else do
          let item ← listItem d (lstrip cs)
          let (consumed,items) ← parseBlockList indent (i+1) rest
          return (consumed+1,item::items)

/-- `_parse_block`, on the lines from number `i` on; a value of `None` is only given where no line
is consumed. -/
def parseBlock (baseIndent : ℕ) (allowImplicit : Bool) (i : ℕ) :
    List PyStr → Except YamlError (ℕ × Data)
  | [] => .ok (0,.none)
  | first::rest =>
    if isBlank first then .ok (0,.none)
    else if measureIndent first ≤ baseIndent then .ok (0,.none)
    else
      match lstrip first with
      | [] => .ok (0,.none)
      | c::_ =>
        if c = ch '-' then do
          let (consumed,items) ← parseBlockList d (measureIndent first) i (first::rest)
          return (consumed,.list items)
        else if c = ch '|' ∨ c = ch '>' then do
          let (consumed,text) ← parseBlockScalar d (measureIndent first) c first rest
          return (consumed,.str text)
        else if allowImplicit then do
          let (consumed,text) ← parseBlockScalar d (measureIndent first) (ch '|') first rest
          return (consumed,.str text)
        else .ok (0,.none)

def markers : List PyStr := [lit "|",lit "|-",lit "|+",lit ">",lit ">-",lit ">+"]

/-- The value of a key: what is behind the colon, and the lines below it. -/
def parseValue (baseIndent : ℕ) (i : ℕ) (text : PyStr) (rest : List PyStr) :
    Except YamlError (ℕ × Data) :=
  if text = [] then do
    let (consumed,value) ← parseBlock d baseIndent true (i+1) rest
    return (consumed,if consumed = 0 then .str [] else value)
  else if text ∈ markers then
    let (consumed,value) := parseBlockScalarAfterMarker baseIndent (text.headD (ch '|')) rest
    .ok (consumed,.str value)
  else do
    let value ← parseScalar d text
    return (0,value)

/-- A line at the left margin, with the lines below it. -/
def parseEntry (i : ℕ) (line : PyStr) (rest : List PyStr) : Except YamlError (PyStr × ℕ × Data) :=
  match line.dropWhile (· ≠ ch ':') with
  | [] => .error (.expectedColon (i+1) line)
  | _::text =>
    let key := strip (line.takeWhile (· ≠ ch ':'))
    if key = [] then .error (.emptyKey (i+1))
    else do
      let (consumed,value) ← parseValue d (measureIndent line) i (strip text) rest
      return (key,consumed,value)

/-- `not line.strip() or line.lstrip().startswith("#")`. -/
def isSkipped (line : PyStr) : Bool := isBlank line || (lstrip line).head? == some (ch '#')

/-- `line.startswith((" ", "\t"))`. -/
def isIndented (line : PyStr) : Bool :=
  line.head? == some (ch ' ') || line.head? == some (ch '\t')

/-- The loop of `_parse_yaml_subset` on the lines from number `i` on, of which the first `skip`
are consumed. -/
def parseLines : List PyStr → ℕ → ℕ → List (PyStr × Data) → Except YamlError (List (PyStr × Data))
  | [], _, _, result => .ok result
  | _::rest, skip+1, i, result => parseLines rest skip (i+1) result
  | line::rest, 0, i, result =>
    if isSkipped line then parseLines rest 0 (i+1) result
    else if isIndented line then .error (.unexpectedIndentation (i+1))
    else
      match parseEntry d i line rest with
      | .error e => .error e
      | .ok (key,consumed,value) => parseLines rest consumed (i+1) (OrderedDict.assign result key value)

def parseYamlSubset (text : PyStr) : Except YamlError (List (PyStr × Data)) :=
  parseLines d (splitlines text) 0 0 []

/-- `(?P<yaml>.*?)\n---`, and what is behind it. -/
def closing : PyStr → Option (PyStr × PyStr)
  | [] => none
  | c::cs =>
    match (lit "\n---").isPrefixOf? (c::cs) with
    | some after => some ([],after)
    | none => (closing cs).map fun r => (c::r.1,r.2)

/-- `\s*\n(?P<yaml>.*?)\n---`: the last line feed of the white space that can be matched is. -/
def opening : PyStr → Option (PyStr × PyStr)
  | [] => none
  | c::cs =>
    if c.isSpace then
      match opening cs with
      | some r => some r
      | none => if c = ch '\n' then closing cs else none
    else none

/-- `_FRONTMATTER_RE.match`. -/
def frontmatterRe (text : PyStr) : Option (PyStr × PyStr) :=
  match (lit "---").isPrefixOf? (lstrip text) with
  | none => none
  | some after => (opening after).map fun r => (r.1,lstrip r.2)

def parseFrontmatter (text : PyStr) : Except SkillLoadError (List (PyStr × Data) × PyStr) :=
  match frontmatterRe text with
  | none => .error .malformed
  | some (yaml,body) =>
    match parseYamlSubset d yaml with
    | .error e => .error (.invalid e)
    | .ok result => .ok (result,body)

end Block

theorem mem_join {sep : Char} {texts : List PyStr} {c : PyChar} (h : c ∈ join sep texts) :
    c = ch sep ∨ ∃ t ∈ texts, c ∈ t := by
  induction texts with
  | nil => cases h
  | cons t texts ih =>
    rw [join] at h
    by_cases hnil : texts = []
    · rw [hnil,List.intercalate_singleton] at h
      exact .inr ⟨t,List.mem_cons_self,h⟩
    · rw [intercalate_cons _ t hnil,List.mem_append,List.mem_cons] at h
      obtain h | h | h := h
      · exact .inr ⟨t,List.mem_cons_self,h⟩
      · exact .inl h
      · exact (ih h).imp_right fun ⟨u,hu,hc⟩ => ⟨u,List.mem_cons_of_mem t hu,hc⟩

theorem subset_join {sep : Char} {texts : List PyStr} {t : PyStr} (h : t ∈ texts) : t ⊆ join sep texts := by
  induction texts with
  | nil => cases h
  | cons u texts ih =>
    rw [join]
    by_cases hnil : texts = []
    · rw [hnil] at h ⊢
      rw [List.mem_singleton.mp h,List.intercalate_singleton]
      exact List.Subset.refl u
    · rw [intercalate_cons _ u hnil]
      obtain rfl | h := List.mem_cons.mp h
      · exact List.subset_append_left t _
      · exact fun c hc => List.mem_append_right u (List.mem_cons_of_mem _ (ih h hc))

theorem lstrip_subset (s : PyStr) : lstrip s ⊆ s := (List.dropWhile_sublist _).subset

/-- The texts in a value. -/
def Data.texts : Data → List PyStr
  | .str text => [text]
  | .list items => items.filterMap fun
    | .str text => some text
    | _ => Option.none
  | _ => []

theorem bind_ok {E A B : Type} {x : Except E A} {f : A → Except E B} {b : B} (h : x >>= f = .ok b) :
    ∃ a, x = .ok a ∧ f a = .ok b := by
  cases x with
  | error e => cases h
  | ok a => exact ⟨a,rfl,h⟩

section Texts

variable {d : Decimals} {indent : ℕ} {lines body : List PyStr} {marker : PyChar}

theorem subset_of_parseScalar {text : PyStr} {v : Data} (h : parseScalar d text = .ok v) :
    ∀ t ∈ v.texts, t ⊆ text := by
  unfold parseScalar at h
  intro t ht
  split at h
  · cases h
    rw [List.mem_singleton.mp ht]
    exact List.nil_subset text
  split at h
  · cases h
    cases ht
  split at h
  · cases h
    rw [List.mem_singleton.mp ht]
    exact fun c hc => List.mem_of_mem_tail (List.mem_of_mem_dropLast hc)
  split at h
  · cases h
    cases ht
  split at h
  · cases h
    cases ht
  split at h
  · cases h
    cases ht
  split at h
  · split at h <;> cases h
    cases ht
  split at h <;> cases h
  · cases ht
  · rw [List.mem_singleton.mp ht]
    exact List.Subset.refl text

theorem unbroken_bodyLines (h : ∀ line ∈ lines, Unbroken line) :
    ∀ b ∈ (bodyLines indent lines).2, Unbroken b := by
  induction lines with
  | nil => exact fun b hb => nomatch hb
  | cons line rest ih =>
    have ih := ih fun l hl => h l (List.mem_cons_of_mem line hl)
    have hline := h line List.mem_cons_self
    unfold bodyLines
    split
    · exact List.forall_mem_cons.mpr ⟨unbroken_nil,ih⟩
    split
    · exact fun b hb => nomatch hb
    · exact List.forall_mem_cons.mpr ⟨hline.subset (List.drop_subset _ line),ih⟩

theorem unbroken_dropBlank (h : ∀ b ∈ body, Unbroken b) :
    ∀ b ∈ dropBlank body, Unbroken b :=
  fun b hb => h b ((List.rdropWhile_prefix _ body).subset hb)

theorem unbroken_chompLines {chomp : Option PyChar} (h : ∀ b ∈ body, Unbroken b) :
    ∀ b ∈ chompLines chomp body, Unbroken b := by
  intro b hb
  unfold chompLines at hb
  have hkept : ∀ b ∈ (if chomp = some (ch '-') then
      (if body.getLast? = some [] then body.dropLast else body) else dropBlank body), Unbroken b := by
    split
    · split
      · exact fun b hb => h b (List.mem_of_mem_dropLast hb)
      · exact h
    · exact unbroken_dropBlank h
  simp only at hb
  split at hb
  · obtain hb | hb := List.mem_append.mp hb
    · exact hkept b hb
    · rw [List.mem_singleton.mp hb]
      exact unbroken_nil
  · exact hkept b hb

theorem unbroken_paragraph {buf : List PyStr} (h : ∀ b ∈ buf, Unbroken b) :
    ∀ b ∈ if buf = [] then [] else [join ' ' buf], Unbroken b := by
  split
  · exact fun b hb => nomatch hb
  · rw [List.forall_mem_singleton]
    intro c hc
    obtain rfl | ⟨t,ht,hct⟩ := mem_join hc
    · decide
    · exact h t ht c hct

theorem unbroken_foldLines (h : ∀ b ∈ body, Unbroken b) :
    ∀ buf : List PyStr, (∀ b ∈ buf, Unbroken b) → ∀ b ∈ foldLines buf body, Unbroken b := by
  induction body with
  | nil => exact fun buf hbuf => unbroken_paragraph hbuf
  | cons ln rest ih =>
    obtain ⟨hln,hrest⟩ := List.forall_mem_cons.mp h
    intro buf hbuf
    unfold foldLines
    split
    · refine List.forall_mem_append.mpr ⟨unbroken_paragraph hbuf,List.forall_mem_cons.mpr ⟨unbroken_nil,?_⟩⟩
      exact ih hrest [] fun b hb => nomatch hb
    · exact ih hrest _ (List.forall_mem_append.mpr ⟨hbuf,List.forall_mem_singleton.mpr hln⟩)

theorem lfOnly_join (h : ∀ b ∈ body, Unbroken b) : LfOnly (join '\n' body) := by
  intro c hc hbreak
  obtain rfl | ⟨b,hb,hcb⟩ := mem_join hc
  · rfl
  · rw [h b hb c hcb] at hbreak
    cases hbreak

theorem lfOnly_blockText (h : ∀ b ∈ body, Unbroken b) :
    LfOnly (blockText marker body) := by
  unfold blockText
  split
  · exact lfOnly_join (unbroken_foldLines h [] fun b hb => nomatch hb)
  · exact lfOnly_join h

theorem lfOnly_of_unbroken {s : PyStr} (h : Unbroken s) : LfOnly s := fun c hc hbreak => by
  rw [h c hc] at hbreak
  cases hbreak

theorem lfOnly_parseBlockScalarAfterMarker {base : ℕ}
    (h : ∀ line ∈ lines, Unbroken line) :
    LfOnly (parseBlockScalarAfterMarker base marker lines).2 := by
  unfold parseBlockScalarAfterMarker
  split
  · exact lfOnly_of_unbroken unbroken_nil
  split
  · exact lfOnly_of_unbroken unbroken_nil
  split
  · exact lfOnly_of_unbroken unbroken_nil
  · exact lfOnly_blockText (unbroken_dropBlank (unbroken_bodyLines h))

theorem lfOnly_parseBlockScalar {first : PyStr} {rest : List PyStr}
    {r : ℕ × PyStr} (h : ∀ line ∈ rest, Unbroken line)
    (hr : parseBlockScalar d indent marker first rest = .ok r) : LfOnly r.2 := by
  unfold parseBlockScalar at hr
  simp only at hr
  split at hr
  · cases hr
  · cases hr
    exact lfOnly_blockText (unbroken_chompLines (unbroken_bodyLines h))

theorem unbroken_parseBlockList (h : ∀ line ∈ lines, Unbroken line) :
    ∀ i r, parseBlockList d indent i lines = .ok r → ∀ t ∈ (Data.list r.2).texts, Unbroken t := by
  induction lines with
  | nil =>
    intro i r hr
    cases hr
    exact fun t ht => nomatch ht
  | cons line rest ih =>
    obtain ⟨hline,hrest⟩ := List.forall_mem_cons.mp h
    intro i r hr
    unfold parseBlockList at hr
    split at hr
    · obtain ⟨r',hr',hok⟩ := bind_ok hr
      cases hok
      exact ih hrest _ r' hr'
    split at hr
    · cases hr
      exact fun t ht => nomatch ht
    split at hr
    · cases hr
    split at hr
    · cases hr
      exact fun t ht => nomatch ht
    next c cs hstrip =>
      split at hr
      · cases hr
        exact fun t ht => nomatch ht
      obtain ⟨item,hitem,hr⟩ := bind_ok hr
      obtain ⟨r',hr',hok⟩ := bind_ok hr
      cases hok
      have htexts := ih hrest _ r' hr'
      have hcs : Unbroken (lstrip cs) := by
        refine hline.subset fun c' hc' => lstrip_subset line ?_
        rw [hstrip]
        exact List.mem_cons_of_mem c (lstrip_subset cs hc')
      have hitems : ∀ t ∈ item.texts, Unbroken t := by
        unfold listItem at hitem
        split at hitem
        · cases hitem
          exact List.forall_mem_singleton.mpr unbroken_nil
        · exact fun t ht => hcs.subset (subset_of_parseScalar hitem t ht)
      intro t ht
      simp only [Data.texts,List.filterMap_cons] at ht
      cases item with
      | str text =>
        obtain rfl | ht := List.mem_cons.mp ht
        · exact hitems t (List.mem_singleton_self t)
        · exact htexts t ht
      | _ => exact htexts t ht

theorem lfOnly_parseBlock {base i : ℕ} {implicit : Bool} {r : ℕ × Data}
    (h : ∀ line ∈ lines, Unbroken line) (hr : parseBlock d base implicit i lines = .ok r) :
    ∀ t ∈ r.2.texts, LfOnly t := by
  unfold parseBlock at hr
  split at hr
  · cases hr
    exact fun t ht => nomatch ht
  next first rest =>
    have hrest := (List.forall_mem_cons.mp h).2
    split at hr
    · cases hr
      exact fun t ht => nomatch ht
    split at hr
    · cases hr
      exact fun t ht => nomatch ht
    split at hr
    · cases hr
      exact fun t ht => nomatch ht
    split at hr
    · obtain ⟨r',hr',hok⟩ := bind_ok hr
      cases hok
      exact fun t ht => lfOnly_of_unbroken (unbroken_parseBlockList h _ r' hr' t ht)
    split at hr
    · obtain ⟨r',hr',hok⟩ := bind_ok hr
      cases hok
      exact List.forall_mem_singleton.mpr (lfOnly_parseBlockScalar hrest hr')
    split at hr
    · obtain ⟨r',hr',hok⟩ := bind_ok hr
      cases hok
      exact List.forall_mem_singleton.mpr (lfOnly_parseBlockScalar hrest hr')
    · cases hr
      exact fun t ht => nomatch ht

theorem lfOnly_parseValue {base i : ℕ} {text : PyStr} {rest : List PyStr} {r : ℕ × Data}
    (htext : Unbroken text) (h : ∀ line ∈ rest, Unbroken line)
    (hr : parseValue d base i text rest = .ok r) : ∀ t ∈ r.2.texts, LfOnly t := by
  unfold parseValue at hr
  split at hr
  · obtain ⟨r',hr',hok⟩ := bind_ok hr
    cases hok
    intro t ht
    simp only at ht
    split at ht
    · rw [List.mem_singleton.mp ht]
      exact lfOnly_of_unbroken unbroken_nil
    · exact lfOnly_parseBlock h hr' t ht
  split at hr
  · cases hr
    exact List.forall_mem_singleton.mpr (lfOnly_parseBlockScalarAfterMarker h)
  · obtain ⟨v,hv,hok⟩ := bind_ok hr
    cases hok
    exact fun t ht => lfOnly_of_unbroken (htext.subset (subset_of_parseScalar hv t ht))

end Texts

/-- What can be the key of a line. -/
structure IsKey (key : PyStr) : Prop where
  ne_nil : key ≠ []
  stripped : strip key = key
  colon : ch ':' ∉ key
  comment : key.head? ≠ some (ch '#')
  unbroken : Unbroken key

/-- The key that a line is read with. -/
def keyOf (line : PyStr) : PyStr := strip (line.takeWhile (· ≠ ch ':'))

theorem head?_strip {s : PyStr} (h : strip s ≠ []) : (strip s).head? = (lstrip s).head? := by
  obtain ⟨rest,hrest⟩ := List.rdropWhile_prefix PyChar.isSpace (lstrip s)
  have hstrip : (lstrip s).rdropWhile PyChar.isSpace = strip s := rfl
  rw [hstrip] at hrest
  rw [← hrest,List.head?_append_of_ne_nil _ h]

theorem head?_lstrip_takeWhile {s : PyStr} {p : PyChar → Bool} (h : lstrip (s.takeWhile p) ≠ []) :
    (lstrip (s.takeWhile p)).head? = (lstrip s).head? := by
  have hsplit := List.takeWhile_append_dropWhile (p := p) (l := s)
  have happend : lstrip s = lstrip (s.takeWhile p)++s.dropWhile p := by
    nth_rewrite 1 [← hsplit]
    rw [lstrip,List.dropWhile_append]
    exact if_neg fun hempty => h (List.isEmpty_iff.mp hempty)
  rw [happend,List.head?_append_of_ne_nil _ h]

theorem isKey_keyOf {line : PyStr} (hline : Unbroken line) (hskip : isSkipped line = false)
    (hne : keyOf line ≠ []) : IsKey (keyOf line) := by
  have hsub : keyOf line ⊆ line.takeWhile (· ≠ ch ':') := strip_subset _
  refine ⟨hne,strip_strip _,fun hmem => ?_,fun hhead => ?_,
    hline.subset fun c hc => (List.takeWhile_subset _ (hsub hc))⟩
  · simpa using List.mem_takeWhile_imp (hsub hmem)
  · have hne' : lstrip (line.takeWhile (· ≠ ch ':')) ≠ [] := by
      intro hnil
      apply hne
      have hstrip : keyOf line = (lstrip (line.takeWhile (· ≠ ch ':'))).rdropWhile PyChar.isSpace := rfl
      rw [hstrip,hnil,List.rdropWhile_nil]
    rw [keyOf,head?_strip hne,head?_lstrip_takeWhile hne'] at hhead
    simp [isSkipped,hhead] at hskip

section Lines

variable {d : Decimals}

theorem parseEntry_ok {i : ℕ} {line : PyStr} {rest : List PyStr} {r : PyStr × ℕ × Data}
    (h : parseEntry d i line rest = .ok r) : r.1 = keyOf line ∧ keyOf line ≠ [] ∧
      ∃ text : PyStr, text ⊆ line ∧ parseValue d (measureIndent line) i text rest = .ok r.2 := by
  unfold parseEntry at h
  split at h
  · cases h
  next c text hdrop =>
    simp only at h
    split at h
    · cases h
    next hne =>
      obtain ⟨r',hr',hok⟩ := bind_ok h
      cases hok
      refine ⟨rfl,hne,strip text,fun c' hc' => ?_,hr'⟩
      have hmem : c' ∈ line.dropWhile (· ≠ ch ':') := by
        rw [hdrop]
        exact List.mem_cons_of_mem c (strip_subset text hc')
      exact (List.dropWhile_sublist _).subset hmem

theorem parseLines_cons {line : PyStr} {rest : List PyStr} {i : ℕ} {result out : List (PyStr × Data)}
    (h : parseLines d (line::rest) 0 i result = .ok out) :
    isSkipped line = true ∧ parseLines d rest 0 (i+1) result = .ok out ∨
      isSkipped line = false ∧ isIndented line = false ∧ ∃ consumed value,
        parseEntry d i line rest = .ok (keyOf line,consumed,value) ∧
        parseLines d rest consumed (i+1) (OrderedDict.assign result (keyOf line) value) = .ok out := by
  unfold parseLines at h
  split at h
  next hskip => exact .inl ⟨hskip,h⟩
  next hskip =>
    split at h
    · cases h
    next hindent =>
      split at h
      · cases h
      next key consumed value hentry =>
        obtain rfl : key = keyOf line := (parseEntry_ok hentry).1
        exact .inr ⟨Bool.not_eq_true _ ▸ hskip,Bool.not_eq_true _ ▸ hindent,consumed,value,hentry,h⟩

/-- Keys and texts of what is read have the form of what can be read. -/
structure Legible (result : List (PyStr × Data)) : Prop where
  keys : ∀ kv ∈ result, IsKey kv.1
  texts : ∀ kv ∈ result, ∀ t ∈ kv.2.texts, LfOnly t

theorem Legible.assign {result : List (PyStr × Data)} (h : Legible result) {key : PyStr} {value : Data}
    (hkey : IsKey key) (hvalue : ∀ t ∈ value.texts, LfOnly t) :
    Legible (OrderedDict.assign result key value) := by
  constructor
  · intro kv hkv
    obtain rfl | hkv := OrderedDict.mem_assign hkv
    · exact hkey
    · exact h.keys kv hkv
  · intro kv hkv
    obtain rfl | hkv := OrderedDict.mem_assign hkv
    · exact hvalue
    · exact h.texts kv hkv

theorem legible_parseLines {lines : List PyStr} (hlines : ∀ line ∈ lines, Unbroken line) :
    ∀ skip i result out, Legible result → parseLines d lines skip i result = .ok out → Legible out := by
  induction lines with
  | nil =>
    intro skip i result out hresult h
    cases h
    exact hresult
  | cons line rest ih =>
    obtain ⟨hline,hrest⟩ := List.forall_mem_cons.mp hlines
    intro skip i result out hresult h
    cases skip with
    | succ skip => exact ih hrest skip _ result out hresult h
    | zero =>
      obtain ⟨_,h⟩ | ⟨hskip,_,consumed,value,hentry,h⟩ := parseLines_cons h
      · exact ih hrest 0 _ result out hresult h
      · obtain ⟨-,hne,text,htext,hvalue⟩ := parseEntry_ok hentry
        have hassign := hresult.assign (isKey_keyOf hline hskip hne)
          (lfOnly_parseValue (hline.subset htext) hrest hvalue)
        exact ih hrest consumed _ _ out hassign h

theorem legible_parseYamlSubset {text : PyStr} {out : List (PyStr × Data)}
    (h : parseYamlSubset d text = .ok out) : Legible out :=
  legible_parseLines (fun _ => unbroken_of_mem_splitlines) 0 0 [] out
    ⟨(fun _ h => nomatch h),fun _ h => nomatch h⟩ h

theorem lookup_parseLines {lines : List PyStr} {key : PyStr}
    (hlines : ∀ line ∈ lines, isIndented line = false → keyOf line ≠ key) :
    ∀ skip i result out, parseLines d lines skip i result = .ok out →
      OrderedDict.lookup out key = OrderedDict.lookup result key := by
  induction lines with
  | nil =>
    intro skip i result out h
    cases h
    rfl
  | cons line rest ih =>
    obtain ⟨hline,hrest⟩ := List.forall_mem_cons.mp hlines
    intro skip i result out h
    cases skip with
    | succ skip => exact ih hrest skip _ result out h
    | zero =>
      obtain ⟨_,h⟩ | ⟨_,hindent,consumed,value,_,h⟩ := parseLines_cons h
      · exact ih hrest 0 _ result out h
      · rw [ih hrest consumed _ _ out h,OrderedDict.lookup_assign,if_neg (hline hindent)]

theorem parseLines_append (lines rest : List PyStr) (i : ℕ) (result : List (PyStr × Data)) :
    parseLines d (lines++rest) lines.length i result =
      parseLines d rest 0 (i+lines.length) result := by
  induction lines generalizing i with
  | nil => rfl
  | cons line lines ih =>
    rw [List.cons_append,List.length_cons,parseLines,ih]
    congr 1
    omega

end Lines
end MinimaxCode.FrontMatter
