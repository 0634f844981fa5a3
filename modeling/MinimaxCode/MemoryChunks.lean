import MinimaxCode.SplitLines

/-!
# The chunks of a memory file

A memory text that is too large is cut at its headers, and a section that is too large in front
of the line that does not fit any more. A chunk has the lines of its range, with the headers
above it and some of the chunk before it in front.
-/

namespace MinimaxCode.MemoryChunks

open PyText SplitLines

/-- A chunk of a file and its lines, from the first up to the end. -/
structure Chunk where
  text : PyStr
  startLine : ℕ
  endLine : ℕ
  deriving DecidableEq

def headerLevel (line : PyStr) : Option ℕ :=
  let trimmed := line.dropWhile PyChar.isSpace
  let level := (trimmed.takeWhile (· == ch '#')).length
  let rest := trimmed.dropWhile (· == ch '#')
  if level = 0 then none
  else if rest = [] ∨ rest.head? = some (ch ' ') then some level
  else none

/-- `_format_header_context`; the last header is the one of the section itself. -/
def formatHeaderContext (stack : List (ℕ × PyStr)) : PyStr :=
  if stack.length ≤ 1 then [] else (lit " > ").intercalate (stack.dropLast.map fun h => strip h.2)

def addHeaderContext (context text : PyStr) : PyStr :=
  if context = [] then text else lit "[Context: "++context++lit "]\n\n"++text

/-- The headers that are open after a line. -/
def pushHeader (stack : List (ℕ × PyStr)) (line : PyStr) : List (ℕ × PyStr) :=
  match headerLevel line with
  | none => stack
  | some level => (stack.rdropWhile fun h => level ≤ h.1)++[(level,line)]

structure MarkdownSection where
  lines : List PyStr
  startLine : ℕ
  headerContext : PyStr

structure Headers where
  sections : List MarkdownSection
  currentLines : List PyStr
  currentStart : ℕ
  stack : List (ℕ × PyStr)

namespace Headers

def flush (s : Headers) : List MarkdownSection :=
  if s.currentLines = [] then s.sections
  else s.sections++[⟨s.currentLines,s.currentStart,formatHeaderContext s.stack⟩]

/-- One round of the loop over the lines. -/
def step (s : Headers) (i : ℕ) (line : PyStr) : Headers :=
  if (headerLevel line).isSome then ⟨s.flush,[line],i,pushHeader s.stack line⟩
  else {s with currentLines := s.currentLines++[line]}

def run : Headers → ℕ → List PyStr → Headers
  | s, _, [] => s
  | s, i, line::lines => run (s.step i line) (i+1) lines

end Headers

def splitByHeaders (lines : List PyStr) : List MarkdownSection :=
  (Headers.run ⟨[],[],0,[]⟩ 0 lines).flush

/-- `str.rfind` for one character. -/
def rfind (c : PyChar) : PyStr → Option ℕ
  | [] => none
  | x::s =>
    match rfind c s with
    | some i => some (i+1)
    | none => if x = c then some 0 else none

structure Splitter where
  chunks : List Chunk
  text : PyStr
  start : ℕ
  lineOffset : ℕ

def appendLine (text line : PyStr) : PyStr := if text = [] then line else text++ch '\n'::line

/-- The overlap that a chunk leaves to the next one. -/
def overlapOf (overlapChars : ℤ) (flushed : PyStr) : PyStr :=
  if 0 < overlapChars then flushed.drop (flushed.length-overlapChars.toNat) else []

namespace Splitter

variable (sec : MarkdownSection) (maxChars overlapChars : ℤ)

/-- One round of the loop over the lines of a section: a blank line is a paragraph boundary when
the text is full, and a line with which it would be too long starts the next chunk. -/
def step (s : Splitter) (i : ℕ) (line : PyStr) : Splitter :=
  if isBlank line ∧ s.text ≠ [] ∧ maxChars < s.text.length+line.length then
    ⟨s.chunks++[⟨addHeaderContext sec.headerContext (strip s.text),s.start,sec.startLine+i⟩],
      overlapOf overlapChars (strip s.text),sec.startLine+i+1,i+1⟩
  else
    let text := appendLine s.text line
    if maxChars < text.length ∧ s.lineOffset < i then
      let splitAt := (rfind (ch '\n') text).getD text.length
      ⟨s.chunks++[⟨addHeaderContext sec.headerContext (strip (text.take splitAt)),s.start,
        sec.startLine+i⟩],(text.drop splitAt).dropWhile (· == ch '\n'),sec.startLine+i,i⟩
    else {s with text := text}

def run : Splitter → ℕ → List PyStr → Splitter
  | s, _, [] => s
  | s, i, line::lines => run (s.step sec maxChars overlapChars i line) (i+1) lines

def finish (s : Splitter) : List Chunk :=
  if isBlank s.text then s.chunks
  else s.chunks++[⟨addHeaderContext sec.headerContext (strip s.text),s.start,
    sec.startLine+sec.lines.length⟩]

end Splitter

def splitSectionByParagraphs (sec : MarkdownSection) (maxChars overlapChars : ℤ) : List Chunk :=
  (Splitter.run sec maxChars overlapChars ⟨[],[],sec.startLine,0⟩ 0 sec.lines).finish sec

def chunkSection (maxChars overlapChars : ℤ) (sec : MarkdownSection) : List Chunk :=
  let sectionText := (lit "\n").intercalate sec.lines
  if sectionText.length ≤ maxChars then
    [⟨addHeaderContext sec.headerContext sectionText,sec.startLine,
      sec.startLine+sec.lines.length⟩]
  else splitSectionByParagraphs sec maxChars overlapChars

def chunkMarkdown (content : PyStr) (maxChars overlapChars : ℤ) : List Chunk :=
  if content = [] then []
  else
    let lines := splitlines content
    if lines = [] then []
    else if content.length ≤ maxChars then [⟨content,0,lines.length⟩]
    else (splitByHeaders lines).flatMap (chunkSection maxChars overlapChars)

example : chunkMarkdown (lit "aaaa\n\nbbbb") 5 0 = [⟨lit "aaaa",0,2⟩,⟨lit "bbbb",2,3⟩] := by decide

/-- `lines[a:b]`. -/
def slice (lines : List PyStr) (a b : ℕ) : List PyStr := (lines.take b).drop a

/-- The lines, each behind a line break. -/
def lined (lines : List PyStr) : PyStr := lines.flatMap (ch '\n'::·)

/-- The headers above the section that the line before the `n`-th is in. -/
def contextBefore (lines : List PyStr) (n : ℕ) : PyStr :=
  formatHeaderContext ((lines.take n).foldl pushHeader [])

/-- A line in a run of lines over the limit that follows an empty line. -/
def Stray (lines : List PyStr) (maxChars : ℤ) (k : ℕ) : Prop :=
  ∃ j < k, lines[j]? = some [] ∧ ∀ m, j < m → m ≤ k → ∃ l : PyStr, lines[m]? = some l ∧
    maxChars < l.length

/-- The line is in the range and, up to white space at its ends, in the text of the chunk. -/
def Holds (lines : List PyStr) (k : ℕ) (c : Chunk) : Prop :=
  c.startLine ≤ k ∧ k < c.endLine ∧ ∀ l ∈ lines[k]?, strip l <:+: c.text

/-- The text of a chunk is that of the lines of its range, which may follow the end of the text
of the chunk before it. -/
def IsText (lines : List PyStr) (overlapChars : ℤ) (before : List Chunk) (c : Chunk) : Prop :=
  ∃ body, c.text = addHeaderContext (contextBefore lines c.endLine) body ∧
    (body = (lit "\n").intercalate (slice lines c.startLine c.endLine) ∨
      ∃ overlap : PyStr, body = strip (overlap++lined (slice lines c.startLine c.endLine)) ∧
        (overlap = [] ∨ (overlap.length : ℤ) ≤ overlapChars ∧
          ∃ p ∈ before.getLast?, overlap <:+ p.text))

/-- The chunks of the lines from `a` up to `b`: their ranges are in order, no line is lost, and
each chunk has the text of its range. Nothing is said of stray lines, and of the chunks that
begin or end at one. -/
structure Faithful (lines : List PyStr) (maxChars overlapChars : ℤ) (a b : ℕ)
    (chunks : List Chunk) : Prop where
  ordered : chunks.Pairwise fun c c' => c.endLine ≤ c'.startLine
  within : ∀ c ∈ chunks, a ≤ c.startLine ∧ c.startLine ≤ c.endLine ∧ c.endLine ≤ b
  holds : ∀ k l, a ≤ k → k < b → lines[k]? = some l → isBlank l = false →
    ¬Stray lines maxChars k → ∃ c ∈ chunks, Holds lines k c
  texts : ∀ before c after, chunks = before++c::after → ¬Stray lines maxChars c.startLine →
    ¬Stray lines maxChars c.endLine → IsText lines overlapChars before c

variable {lines ls : List PyStr} {maxChars overlapChars : ℤ} {a b k : ℕ} {chunks : List Chunk}
  {s t l : PyStr}

namespace Faithful

theorem nil (lines : List PyStr) (maxChars overlapChars : ℤ) (a : ℕ) :
    Faithful lines maxChars overlapChars a a [] := by
  refine ⟨.nil,fun c hc => absurd hc List.not_mem_nil,fun k l hak hka => absurd hka (by omega),
    fun before c after h => ?_⟩
  cases (List.append_eq_nil_iff.mp h.symm).2

theorem append {n : ℕ} {more : List Chunk} (h : Faithful lines maxChars overlapChars a n chunks)
    (h' : Faithful lines maxChars overlapChars n b more) (han : a ≤ n) (hnb : n ≤ b) :
    Faithful lines maxChars overlapChars a b (chunks++more) := by
  refine ⟨?_,fun c hc => ?_,fun k l hak hkb hl hblank hstray => ?_,fun before c after heq => ?_⟩
  · refine List.pairwise_append.mpr ⟨h.ordered,h'.ordered,fun c hc c' hc' => ?_⟩
    exact (h.within c hc).2.2.trans (h'.within c' hc').1
  · rcases List.mem_append.mp hc with hc | hc
    · obtain ⟨hstart,hle,hend⟩ := h.within c hc
      exact ⟨hstart,hle,hend.trans hnb⟩
    · obtain ⟨hstart,hle,hend⟩ := h'.within c hc
      exact ⟨han.trans hstart,hle,hend⟩
  · by_cases hkn : k < n
    · obtain ⟨c,hc,hholds⟩ := h.holds k l hak hkn hl hblank hstray
      exact ⟨c,List.mem_append_left _ hc,hholds⟩
    · obtain ⟨c,hc,hholds⟩ := h'.holds k l (by omega) hkb hl hblank hstray
      exact ⟨c,List.mem_append_right _ hc,hholds⟩
  · rcases List.append_eq_append_iff.mp heq with ⟨mid,rfl,hmid⟩ | ⟨mid,hmid,hmore⟩
    · intro hs he
      obtain ⟨body,hbody,hplain | ⟨overlap,hover,hnil | ⟨hlen,p,hp,hsuffix⟩⟩⟩ :=
        h'.texts mid c after hmid hs he
      · exact ⟨body,hbody,.inl hplain⟩
      · exact ⟨body,hbody,.inr ⟨overlap,hover,.inl hnil⟩⟩
      · refine ⟨body,hbody,.inr ⟨overlap,hover,.inr ⟨hlen,p,?_,hsuffix⟩⟩⟩
        rw [List.getLast?_append,hp]
        rfl
    · cases mid with
      | nil =>
        rw [List.nil_append] at hmore
        rw [List.append_nil] at hmid
        intro hs he
        obtain ⟨body,hbody,hplain | ⟨overlap,hover,hnil | ⟨-,p,hp,-⟩⟩⟩ :=
          h'.texts [] c after hmore.symm hs he
        · exact ⟨body,hbody,.inl hplain⟩
        · exact ⟨body,hbody,.inr ⟨overlap,hover,.inl hnil⟩⟩
        · cases hp
      | cons d mid =>
        obtain ⟨rfl,-⟩ := List.cons.inj hmore
        exact h.texts before c mid hmid

theorem snoc {c : Chunk} {m n : ℕ} (h : Faithful lines maxChars overlapChars a m chunks)
    (hm : m ≤ c.startLine) (hc : c.startLine ≤ c.endLine) (hn : c.endLine ≤ n) (ham : a ≤ m)
    (hholds : ∀ k l, m ≤ k → k < n → lines[k]? = some l → isBlank l = false →
      ¬Stray lines maxChars k → Holds lines k c)
    (htext : ¬Stray lines maxChars c.startLine → ¬Stray lines maxChars c.endLine →
      IsText lines overlapChars chunks c) :
    Faithful lines maxChars overlapChars a n (chunks++[c]) := by
  refine ⟨?_,fun d hd => ?_,fun k l hak hkn hl hblank hstray => ?_,fun before d after heq => ?_⟩
  · refine List.pairwise_append.mpr ⟨h.ordered,List.pairwise_singleton _ c,fun d hd d' hd' => ?_⟩
    rw [List.mem_singleton.mp hd']
    exact (h.within d hd).2.2.trans hm
  · rcases List.mem_append.mp hd with hd | hd
    · obtain ⟨hstart,hle,hend⟩ := h.within d hd
      exact ⟨hstart,hle,by omega⟩
    · rw [List.mem_singleton.mp hd]
      exact ⟨ham.trans hm,hc,hn⟩
  · by_cases hkm : k < m
    · obtain ⟨d,hd,hholds⟩ := h.holds k l hak hkm hl hblank hstray
      exact ⟨d,List.mem_append_left _ hd,hholds⟩
    · exact ⟨c,by simp,hholds k l (by omega) hkn hl hblank hstray⟩
  · rcases List.eq_nil_or_concat after with rfl | ⟨after,e,rfl⟩
    · obtain ⟨rfl,hd⟩ := List.append_inj' heq rfl
      rw [← (List.cons.inj hd).1]
      exact htext
    · rw [List.concat_eq_append,← List.cons_append,← List.append_assoc] at heq
      obtain ⟨hold,-⟩ := List.append_inj' heq rfl
      exact h.texts before d after hold

theorem widen {m n : ℕ} (h : Faithful lines maxChars overlapChars a m chunks) (hmn : m ≤ n)
    (hlost : ∀ k l, m ≤ k → k < n → lines[k]? = some l → isBlank l = false →
      Stray lines maxChars k) : Faithful lines maxChars overlapChars a n chunks := by
  refine ⟨h.ordered,fun c hc => ?_,fun k l hak hkn hl hblank hstray => ?_,h.texts⟩
  · obtain ⟨hstart,hle,hend⟩ := h.within c hc
    exact ⟨hstart,hle,hend.trans hmn⟩
  · by_cases hkm : k < m
    · exact h.holds k l hak hkm hl hblank hstray
    · exact absurd (hlost k l (by omega) hkn hl hblank) hstray

end Faithful

theorem strip_eq_nil_iff : strip s = [] ↔ isBlank s = true := by
  rw [strip,List.rdropWhile_eq_nil_iff,isBlank,List.all_eq_true]
  constructor
  · intro h c hc
    rw [← List.takeWhile_append_dropWhile (p := PyChar.isSpace) (l := s)] at hc
    rcases List.mem_append.mp hc with hc | hc
    · exact List.mem_takeWhile_imp hc
    · exact h c hc
  · exact fun h c hc => h c ((List.dropWhile_suffix _).subset hc)

theorem dropWhile_append_of_head {p : PyChar → Bool} {c : PyChar} (hc : p c = false)
    (s t : PyStr) : (s++c::t).dropWhile p = s.dropWhile p++c::t := by
  induction s with
  | nil => exact List.dropWhile_cons_of_neg (by rw [hc]; exact Bool.false_ne_true)
  | cons d s ih =>
    rw [List.cons_append,List.dropWhile_cons,List.dropWhile_cons]
    split
    · exact ih
    · rfl

theorem infix_strip_of_ends (h : s <:+: t) (hhead : ∀ c ∈ s.head?, c.isSpace = false)
    (hlast : ∀ c ∈ s.getLast?, c.isSpace = false) : s <:+: strip t := by
  cases s with
  | nil => exact List.nil_infix
  | cons c s =>
    obtain ⟨u,v,rfl⟩ := h
    have hlast' : ∀ d ∈ (u.dropWhile PyChar.isSpace++c::s).getLast?, d.isSpace = false := by
      intro d hd
      rw [List.getLast?_append_of_ne_nil _ (List.cons_ne_nil c s)] at hd
      exact hlast d hd
    rw [strip,List.append_assoc,List.cons_append,
      dropWhile_append_of_head (hhead c rfl),← List.cons_append,← List.append_assoc,
      rdropWhile_append hlast']
    exact ⟨_,_,rfl⟩

theorem strip_infix_self (s : PyStr) : strip s <:+: s :=
  (List.rdropWhile_prefix _ _).isInfix.trans (List.dropWhile_suffix _).isInfix

theorem strip_of_infix_le (h : s <:+: t) : strip s <:+: strip t := by
  refine infix_strip_of_ends ((strip_infix_self s).trans h) (fun c hc => ?_) fun c hc => ?_
  · obtain ⟨rest,hrest⟩ := List.rdropWhile_prefix PyChar.isSpace (s.dropWhile PyChar.isSpace)
    cases hs : strip s with
    | nil =>
      rw [hs] at hc
      cases hc
    | cons d t =>
      rw [hs] at hc
      cases hc
      rw [← strip,hs] at hrest
      have hne : s.dropWhile PyChar.isSpace ≠ [] := by simp [← hrest]
      have hnot := List.head_dropWhile_not PyChar.isSpace hne
      simpa [← hrest] using hnot
  · have hne : strip s ≠ [] := by
      intro he
      rw [he] at hc
      cases hc
    have hnot := List.rdropWhile_last_not PyChar.isSpace (s.dropWhile PyChar.isSpace) hne
    rw [List.getLast?_eq_getLast_of_ne_nil hne] at hc
    cases hc
    exact Bool.eq_false_iff.mpr hnot

theorem strip_replicate (n : ℕ) (s : PyStr) : strip (List.replicate n (ch '\n')++s) = strip s := by
  induction n with
  | zero => rfl
  | succ n ih =>
    rw [List.replicate_succ,List.cons_append,strip,List.dropWhile_cons_of_pos (by decide)]
    exact ih

theorem infix_appendLine (text line : PyStr) :
    text <:+: appendLine text line ∧ line <:+: appendLine text line := by
  rw [appendLine]
  split
  · next h =>
    rw [h]
    exact ⟨List.nil_infix,List.infix_rfl⟩
  · exact ⟨(List.prefix_append _ _).isInfix,
      ((List.suffix_cons (ch '\n') line).trans (List.suffix_append text _)).isInfix⟩

theorem infix_addHeaderContext (context text : PyStr) :
    text <:+ addHeaderContext context text := by
  rw [addHeaderContext]
  split
  · exact List.suffix_rfl
  · exact List.suffix_append _ _

theorem rfind_eq_none {c : PyChar} (h : c ∉ s) : rfind c s = none := by
  induction s with
  | nil => rfl
  | cons x s ih =>
    rw [rfind,ih fun hm => h (List.mem_cons_of_mem x hm)]
    refine if_neg fun he => h ?_
    rw [he]
    exact List.mem_cons_self

theorem rfind_append {c : PyChar} (h : c ∉ t) (s : PyStr) : rfind c (s++c::t) = some s.length := by
  induction s with
  | nil =>
    rw [List.nil_append,rfind,rfind_eq_none h]
    exact if_pos rfl
  | cons x s ih => rw [List.cons_append,rfind,ih,List.length_cons]

theorem dropWhile_of_not_mem {c : PyChar} (h : c ∉ s) : s.dropWhile (· == c) = s := by
  cases s with
  | nil => rfl
  | cons x s =>
    refine List.dropWhile_cons_of_neg fun he => h ?_
    rw [eq_of_beq he]
    exact List.mem_cons_self

theorem slice_self (lines : List PyStr) (a : ℕ) : slice lines a a = [] :=
  List.drop_eq_nil_of_le (List.length_take_le _ _)

theorem slice_succ (hl : lines[k]? = some l) (hak : a ≤ k) :
    slice lines a (k+1) = slice lines a k++[l] := by
  obtain ⟨hlt,rfl⟩ := List.getElem?_eq_some_iff.mp hl
  rw [slice,slice,List.take_succ_eq_append_getElem hlt,List.drop_append_of_le_length]
  rw [List.length_take]
  omega

theorem lined_append (ls ls' : List PyStr) : lined (ls++ls') = lined ls++lined ls' :=
  List.flatMap_append

theorem lined_singleton (l : PyStr) : lined [l] = ch '\n'::l := List.flatMap_singleton _ _

/-- What holds before the `k`-th line of a section that begins at line `a`: the chunks are faithful,
and the text has the lines since then. -/
structure Splitting (lines : List PyStr) (maxChars overlapChars : ℤ) (a k : ℕ) (s : Splitter) :
    Prop where
  faithful : Faithful lines maxChars overlapChars a s.start s.chunks
  start_le : a ≤ s.start ∧ s.start ≤ k
  offset_le : a+s.lineOffset ≤ k
  pending : ∀ m l, s.start ≤ m → m < k → lines[m]? = some l → isBlank l = false →
    ¬Stray lines maxChars m → strip l <:+: strip s.text
  text : ¬Stray lines maxChars s.start → ∃ (overlap : PyStr) (n : ℕ),
    overlap++lined (slice lines s.start k) = List.replicate n (ch '\n')++s.text ∧
    (overlap = [] ∨ (overlap.length : ℤ) ≤ overlapChars ∧
      ∃ p ∈ s.chunks.getLast?, overlap <:+ p.text)
  fresh : s.text = [] → a+s.lineOffset = k ∨
    ∃ j, j+1 = k ∧ (lines[j]? = some [] ∨ Stray lines maxChars j)
  first : k = a → s.text = []

namespace Splitting

variable {s : Splitter} {sec : MarkdownSection} {line : PyStr} {i : ℕ}

theorem begin (lines : List PyStr) (maxChars overlapChars : ℤ) (a : ℕ) :
    Splitting lines maxChars overlapChars a a ⟨[],[],a,0⟩ := by
  refine ⟨.nil lines maxChars overlapChars a,⟨Nat.le_refl a,Nat.le_refl a⟩,Nat.le_refl a,
    fun m l ham hma => absurd hma (Nat.not_lt.mpr ham),fun _ => ⟨[],0,?_,.inl rfl⟩,
    fun _ => .inl rfl,fun _ => rfl⟩
  rw [slice_self]
  rfl

theorem flush (h : Splitting lines maxChars overlapChars a k s)
    (hcontext : contextBefore lines k = sec.headerContext) {n : ℕ} (hn : k ≤ n)
    (hlost : ∀ m l, k ≤ m → m < n → lines[m]? = some l → isBlank l = true) :
    Faithful lines maxChars overlapChars a n
      (s.chunks++[⟨addHeaderContext sec.headerContext (strip s.text),s.start,k⟩]) := by
  refine h.faithful.snoc (Nat.le_refl _) h.start_le.2 hn h.start_le.1
    (fun m l hm hmn hl hblank hstray => ?_) fun hstart _ => ?_
  · have hmk : m < k := by
      by_contra hkm
      rw [hlost m l (by omega) hmn hl] at hblank
      cases hblank
    refine ⟨hm,hmk,fun l' hl' => ?_⟩
    rw [hl] at hl'
    cases hl'
    exact (h.pending m l hm hmk hl hblank hstray).trans (infix_addHeaderContext _ _).isInfix
  · obtain ⟨overlap,n,heq,hoverlap⟩ := h.text hstart
    refine ⟨strip s.text,by rw [hcontext],.inr ⟨overlap,?_,hoverlap⟩⟩
    rw [heq,strip_replicate]

theorem restart {m offset : ℕ} {text : PyStr}
    (hfaithful : Faithful lines maxChars overlapChars a m chunks) (ham : a ≤ m) (hmk : m ≤ k)
    (hoffset : a+offset ≤ k) (hak : a < k)
    (hpending : ∀ j l, m ≤ j → j < k → lines[j]? = some l → isBlank l = false →
      ¬Stray lines maxChars j → strip l <:+: strip text)
    (htext : ¬Stray lines maxChars m → ∃ (overlap : PyStr) (n : ℕ),
      overlap++lined (slice lines m k) = List.replicate n (ch '\n')++text ∧
      (overlap = [] ∨ (overlap.length : ℤ) ≤ overlapChars ∧
        ∃ p ∈ chunks.getLast?, overlap <:+ p.text))
    (hfresh : text = [] → a+offset = k ∨
      ∃ j, j+1 = k ∧ (lines[j]? = some [] ∨ Stray lines maxChars j)) :
    Splitting lines maxChars overlapChars a k ⟨chunks,text,m,offset⟩ :=
  ⟨hfaithful,⟨ham,hmk⟩,hoffset,hpending,htext,hfresh,fun he => absurd he (Nat.ne_of_gt hak)⟩

theorem length_overlapOf (overlapChars : ℤ) (flushed : PyStr) :
    overlapOf overlapChars flushed = [] ∨
      ((overlapOf overlapChars flushed).length : ℤ) ≤ overlapChars := by
  rw [overlapOf]
  split
  · refine .inr ?_
    rw [List.length_drop]
    omega
  · exact .inl rfl

theorem overlapOf_suffix (overlapChars : ℤ) (flushed : PyStr) :
    overlapOf overlapChars flushed <:+ flushed := by
  rw [overlapOf]
  split
  · exact List.drop_suffix _ _
  · exact List.nil_suffix

theorem paragraph (h : Splitting lines maxChars overlapChars a k s) (hk : a+i = k)
    (hl : lines[k]? = some line) (hblank : isBlank line = true)
    (hcontext : contextBefore lines k = sec.headerContext) :
    Splitting lines maxChars overlapChars a (k+1)
      ⟨s.chunks++[⟨addHeaderContext sec.headerContext (strip s.text),s.start,k⟩],
        overlapOf overlapChars (strip s.text),k+1,i+1⟩ := by
  refine restart (h.flush hcontext (Nat.le_succ k) fun m l hkm hmk hl' => ?_)
    (h.start_le.1.trans (h.start_le.2.trans (Nat.le_succ k))) (Nat.le_refl _) (by omega)
    (by omega) (fun m l hm hmk => absurd hmk (by omega)) (fun _ => ?_) fun _ => .inl (by omega)
  · obtain rfl : m = k := by omega
    rw [hl] at hl'
    cases hl'
    exact hblank
  · refine ⟨overlapOf overlapChars (strip s.text),0,?_,?_⟩
    · rw [slice_self]
      exact List.append_nil _
    · refine (length_overlapOf overlapChars (strip s.text)).imp_right fun hlen => ?_
      exact ⟨hlen,_,Option.mem_def.mpr List.getLast?_concat,
        (overlapOf_suffix _ _).trans (infix_addHeaderContext _ _)⟩

theorem keep (h : Splitting lines maxChars overlapChars a k s) (hl : lines[k]? = some line) :
    Splitting lines maxChars overlapChars a (k+1) {s with text := appendLine s.text line} := by
  refine restart h.faithful h.start_le.1 (h.start_le.2.trans (Nat.le_succ k))
    (h.offset_le.trans (Nat.le_succ k)) (Nat.lt_succ_of_le (h.start_le.1.trans h.start_le.2))
    (fun m l hm hmk hl' hblank hstray => ?_) (fun hstart => ?_) fun htext => ?_
  · obtain ⟨hold,hnew⟩ := infix_appendLine s.text line
    by_cases hmk' : m = k
    · rw [hmk',hl] at hl'
      cases hl'
      exact strip_of_infix_le hnew
    · exact (h.pending m l hm (by omega) hl' hblank hstray).trans (strip_of_infix_le hold)
  · obtain ⟨overlap,n,heq,hoverlap⟩ := h.text hstart
    have hline : overlap++lined (slice lines s.start (k+1)) =
        List.replicate n (ch '\n')++(s.text++ch '\n'::line) := by
      rw [slice_succ hl h.start_le.2,lined_append,lined_singleton,← List.append_assoc,heq,
        List.append_assoc]
    rw [appendLine]
    split
    · next htext =>
      refine ⟨overlap,n+1,?_,hoverlap⟩
      rw [hline,htext,List.nil_append,List.replicate_succ',List.append_assoc]
      rfl
    · exact ⟨overlap,n,hline,hoverlap⟩
  · refine .inr ⟨k,rfl,.inl ?_⟩
    rw [appendLine] at htext
    split at htext
    · rw [hl,htext]
    · cases (List.append_eq_nil_iff.mp htext).2

theorem breakLine (h : Splitting lines maxChars overlapChars a k s) (hk : a+i = k) (hak : a < k)
    (hl : lines[k]? = some line) (hcontext : contextBefore lines k = sec.headerContext) :
    Splitting lines maxChars overlapChars a (k+1)
      ⟨s.chunks++[⟨addHeaderContext sec.headerContext (strip s.text),s.start,k⟩],line,k,i⟩ := by
  refine restart (h.flush hcontext (Nat.le_refl k) fun m l hkm hmk => absurd hmk (by omega))
    hak.le (Nat.le_succ k) (by omega) (Nat.lt_succ_of_lt hak) (fun m l hm hmk hl' _ _ => ?_)
    (fun _ => ?_) fun hline => .inr ⟨k,rfl,.inl (by rw [hl,hline])⟩
  · obtain rfl : m = k := by omega
    rw [hl] at hl'
    cases hl'
    exact List.infix_rfl
  · refine ⟨[],1,?_,.inl rfl⟩
    rw [slice_succ hl (Nat.le_refl k),slice_self]
    exact lined_singleton line

theorem strand (h : Splitting lines maxChars overlapChars a k s) (hk : a+i = k)
    (hl : lines[k]? = some line) (hlong : maxChars < line.length) (htext : s.text = [])
    (hoffset : s.lineOffset < i) (text : PyStr) :
    Splitting lines maxChars overlapChars a (k+1) ⟨s.chunks++[⟨text,s.start,k⟩],[],k,i⟩ := by
  have hstray : Stray lines maxChars k := by
    obtain hfresh | ⟨j,rfl,hempty | ⟨j',hj',hempty,hrun⟩⟩ := h.fresh htext
    · omega
    · refine ⟨j,Nat.lt_succ_self j,hempty,fun m hm hmk => ?_⟩
      obtain rfl : m = j+1 := by omega
      exact ⟨line,hl,hlong⟩
    · refine ⟨j',Nat.lt_succ_of_lt hj',hempty,fun m hm hmk => ?_⟩
      by_cases hmj : m ≤ j
      · exact hrun m hm hmj
      · obtain rfl : m = j+1 := by omega
        exact ⟨line,hl,hlong⟩
  have hak : a < k := by omega
  refine restart (h.faithful.snoc (Nat.le_refl _) h.start_le.2 (Nat.le_refl k) h.start_le.1
    (fun m l hm hmk hl' hblank hnot => ?_) fun _ hend => absurd hstray hend) hak.le
    (Nat.le_succ k) (by omega) (Nat.lt_succ_of_lt hak) (fun m l hm hmk _ _ hnot => ?_)
    (fun hstart => absurd hstray hstart) fun _ => .inr ⟨k,rfl,.inr hstray⟩
  · have hlost := h.pending m l hm hmk hl' hblank hnot
    rw [htext] at hlost
    rw [strip_eq_nil_iff.mp (List.infix_nil.mp hlost)] at hblank
    cases hblank
  · obtain rfl : m = k := by omega
    exact absurd hstray hnot

/-- One line more. -/
theorem step (h : Splitting lines maxChars overlapChars a k s) (hsec : sec.startLine = a)
    (hk : a+i = k) (hl : lines[k]? = some line) (hbreak : Unbroken line)
    (hcontext : a < k → contextBefore lines k = sec.headerContext) :
    Splitting lines maxChars overlapChars a (k+1) (s.step sec maxChars overlapChars i line) := by
  have hlater : s.text ≠ [] → a < k := fun htext =>
    Nat.lt_of_le_of_ne (by omega) fun he => htext (h.first he.symm)
  rw [Splitter.step,hsec,hk]
  split
  · next hboundary =>
    exact h.paragraph hk hl hboundary.1 (hcontext (hlater hboundary.2.1))
  · dsimp only
    split
    · next hlong =>
      have hlf : ch '\n' ∉ line := hbreak.lf_not_mem
      by_cases htext : s.text = []
      · have happend : appendLine s.text line = line := if_pos htext
        rw [happend] at hlong ⊢
        rw [rfind_eq_none hlf,Option.getD_none,List.take_length,List.drop_length]
        exact h.strand hk hl hlong.1 htext hlong.2 _
      · have happend : appendLine s.text line = s.text++ch '\n'::line := if_neg htext
        have hdrop : (ch '\n'::line).dropWhile (· == ch '\n') = line :=
          (List.dropWhile_cons_of_pos rfl).trans (dropWhile_of_not_mem hlf)
        rw [happend,rfind_append hlf,Option.getD_some,List.take_left,List.drop_left,hdrop]
        exact h.breakLine hk (hlater htext) hl (hcontext (hlater htext))
    · exact h.keep hl

/-- The loop over the lines of a section. -/
theorem run (h : Splitting lines maxChars overlapChars a k s) (hsec : sec.startLine = a)
    (hk : a+i = k) {rest : List PyStr}
    (hrest : ∀ j l, rest[j]? = some l → lines[k+j]? = some l ∧ Unbroken l)
    (hcontext : ∀ m, a < m → m ≤ k+rest.length → contextBefore lines m = sec.headerContext) :
    Splitting lines maxChars overlapChars a (k+rest.length)
      (Splitter.run sec maxChars overlapChars s i rest) := by
  induction rest generalizing k i s with
  | nil => exact h
  | cons line rest ih =>
    obtain ⟨hl,hbreak⟩ := hrest 0 line rfl
    have hlen : k+1+rest.length = k+(line::rest).length := by rw [List.length_cons]; omega
    have hstep := h.step hsec hk hl hbreak fun hak => hcontext k hak (by omega)
    rw [← hlen]
    refine ih hstep (by omega) (fun j l hj => ?_) fun m ham hm => hcontext m ham (by omega)
    have hnext := hrest (j+1) l hj
    rwa [Nat.add_right_comm,Nat.add_assoc]

theorem finish (h : Splitting lines maxChars overlapChars a b s)
    (hend : sec.startLine+sec.lines.length = b)
    (hcontext : contextBefore lines b = sec.headerContext) :
    Faithful lines maxChars overlapChars a b (s.finish sec) := by
  rw [Splitter.finish,hend]
  split
  · next hblank =>
    refine h.faithful.widen h.start_le.2 fun m l hm hmb hl hl' => ?_
    by_contra hstray
    have hlost := h.pending m l hm hmb hl hl' hstray
    rw [strip_eq_nil_iff.mpr hblank] at hlost
    rw [strip_eq_nil_iff.mp (List.infix_nil.mp hlost)] at hl'
    cases hl'
  · exact h.flush hcontext (Nat.le_refl b) fun m l hm hmb => absurd hmb (by omega)

end Splitting

/-- The section has the lines from `a` up to `b`, none of which but the first is a header. -/
structure SectionOf (lines : List PyStr) (a b : ℕ) (sec : MarkdownSection) : Prop where
  start : sec.startLine = a
  length : a+sec.lines.length = b
  nonempty : a < b
  slice_eq : sec.lines = slice lines a b
  context : ∀ m, a < m → m ≤ b → contextBefore lines m = sec.headerContext

/-- The sections follow one another from `a` to `b`. -/
inductive Tiled (lines : List PyStr) : ℕ → ℕ → List MarkdownSection → Prop
  | nil (n : ℕ) : Tiled lines n n []
  | snoc {n m k : ℕ} {secs sec} : Tiled lines n m secs → SectionOf lines m k sec →
      Tiled lines n k (secs++[sec])

theorem getElem?_slice {j : ℕ} (h : (slice lines a b)[j]? = some l) : lines[a+j]? = some l := by
  rw [slice,List.getElem?_drop] at h
  rwa [List.getElem?_take_of_lt] at h
  have hlt := (List.getElem?_eq_some_iff.mp h).1
  rw [List.length_take] at hlt
  omega

theorem infix_intercalate (sep : PyStr) (h : l ∈ ls) : l <:+: sep.intercalate ls := by
  induction ls with
  | nil => cases h
  | cons m ls ih =>
    cases ls with
    | nil =>
      rw [List.intercalate_singleton,List.mem_singleton.mp h]
    | cons n ls =>
      rw [List.intercalate_cons_cons,List.append_assoc]
      rcases List.mem_cons.mp h with rfl | h
      · exact (List.prefix_append _ _).isInfix
      · exact (ih h).trans ((List.suffix_append _ _).trans (List.suffix_append _ _)).isInfix

theorem faithful_chunkSection {sec : MarkdownSection} (h : SectionOf lines a b sec)
    (hbreak : ∀ l ∈ lines, Unbroken l) :
    Faithful lines maxChars overlapChars a b (chunkSection maxChars overlapChars sec) := by
  have hget : ∀ j l, sec.lines[j]? = some l → lines[a+j]? = some l := by
    intro j l hj
    rw [h.slice_eq] at hj
    exact getElem?_slice hj
  rw [chunkSection]
  split
  · refine (Faithful.nil lines maxChars overlapChars a).snoc h.start.ge (Nat.le_add_right _ _)
      (by rw [h.start,h.length]) (Nat.le_refl a) (fun k l hak hkb hl _ _ => ?_) fun _ _ => ?_
    · have hmem : l ∈ sec.lines := by
        obtain ⟨hlt,rfl⟩ := List.getElem?_eq_some_iff.mp hl
        rw [h.slice_eq,slice,List.mem_drop_iff_getElem]
        exact ⟨k-a,by rw [List.length_take]; omega,by
          rw [List.getElem_take]
          congr 1
          omega⟩
      refine ⟨h.start.trans_le hak,by rw [h.start,h.length]; exact hkb,fun l' hl' => ?_⟩
      rw [hl] at hl'
      cases hl'
      exact (strip_infix_self l).trans ((infix_intercalate _ hmem).trans
        (infix_addHeaderContext _ _).isInfix)
    · refine ⟨(lit "\n").intercalate sec.lines,?_,.inl ?_⟩
      · rw [h.start,h.length,h.context b h.nonempty (Nat.le_refl b)]
      · rw [h.start,h.length,h.slice_eq]
  · rw [splitSectionByParagraphs,h.start]
    have hrun := (Splitting.begin lines maxChars overlapChars a).run (i := 0) h.start rfl
      (fun j l hj => ⟨hget j l hj,hbreak l (List.mem_of_getElem? (hget j l hj))⟩)
      fun m ham hm => h.context m ham (h.length ▸ hm)
    rw [h.length] at hrun
    exact hrun.finish (by rw [h.start,h.length]) (h.context b h.nonempty (Nat.le_refl b))

/-- The state of the loop over the lines before the `k`-th of them. -/
structure Splits (lines : List PyStr) (k : ℕ) (s : Headers) : Prop where
  stack : s.stack = (lines.take k).foldl pushHeader []
  tiled : Tiled lines 0 s.currentStart s.sections
  current : s.currentStart+s.currentLines.length = k
  slice_eq : s.currentLines = slice lines s.currentStart k
  context : ∀ m, s.currentStart < m → m ≤ k →
    (lines.take m).foldl pushHeader [] = s.stack

namespace Splits

variable {s : Headers} {line : PyStr}

theorem flush (h : Splits lines k s) : Tiled lines 0 k s.flush := by
  rw [Headers.flush]
  split
  · next hnil =>
    have hcurrent := h.current
    rw [hnil] at hcurrent
    have htiled := h.tiled
    rwa [show s.currentStart = k from hcurrent] at htiled
  · next hne =>
    have hpos := List.length_pos_of_ne_nil hne
    refine h.tiled.snoc ⟨rfl,h.current,?_,h.slice_eq,fun m hm hmk => ?_⟩
    · have := h.current
      omega
    · rw [contextBefore,h.context m hm hmk]

theorem step (h : Splits lines k s) (hl : lines[k]? = some line) :
    Splits lines (k+1) (s.step k line) := by
  obtain ⟨hlt,rfl⟩ := List.getElem?_eq_some_iff.mp hl
  have htake : (lines.take (k+1)).foldl pushHeader [] = pushHeader s.stack lines[k] := by
    rw [List.take_succ_eq_append_getElem hlt,List.foldl_append,← h.stack]
    rfl
  rw [Headers.step]
  split
  · refine ⟨htake.symm,h.flush,rfl,?_,fun m hm hmk => ?_⟩
    · exact ((slice_succ hl (Nat.le_refl k)).trans (by rw [slice_self]; rfl)).symm
    · obtain rfl : m = k+1 := Nat.le_antisymm hmk hm
      exact htake
  · next hnone =>
    have hpush : pushHeader s.stack lines[k] = s.stack := by
      rw [pushHeader,Option.not_isSome_iff_eq_none.mp hnone]
    have hcurrent := h.current
    refine ⟨hpush ▸ htake.symm,h.tiled,?_,?_,fun m hm hmk => ?_⟩
    · change s.currentStart+(s.currentLines++[lines[k]]).length = k+1
      rw [List.length_append,List.length_singleton,← Nat.add_assoc,hcurrent]
    · change s.currentLines++[lines[k]] = _
      rw [h.slice_eq]
      exact (slice_succ hl (by omega)).symm
    · by_cases hmk' : m = k+1
      · rw [hmk',htake,hpush]
      · exact h.context m hm (by omega)

theorem run (h : Splits lines k s) {rest : List PyStr} (hrest : lines.drop k = rest) :
    Splits lines (k+rest.length) (Headers.run s k rest) := by
  induction rest generalizing k s with
  | nil => exact h
  | cons line rest ih =>
    have hl : lines[k]? = some line := by
      rw [← List.head?_drop,hrest]
      rfl
    have hdrop : lines.drop (k+1) = rest := by rw [← List.tail_drop,hrest,List.tail_cons]
    have hlen : k+1+rest.length = k+(line::rest).length := by rw [List.length_cons]; omega
    rw [← hlen]
    exact ih (h.step hl) hdrop

end Splits

theorem tiled_splitByHeaders (lines : List PyStr) :
    Tiled lines 0 lines.length (splitByHeaders lines) := by
  have hstart : Splits lines 0 ⟨[],[],0,[]⟩ :=
    ⟨rfl,.nil 0,rfl,(slice_self lines 0).symm,fun m hm hmk => absurd hmk (Nat.not_le.mpr hm)⟩
  have hrun := (hstart.run rfl).flush
  rwa [List.drop_zero,Nat.zero_add] at hrun

theorem faithful_flatMap {secs : List MarkdownSection} (h : Tiled lines a b secs)
    (hbreak : ∀ l ∈ lines, Unbroken l) : a ≤ b ∧
    Faithful lines maxChars overlapChars a b (secs.flatMap (chunkSection maxChars overlapChars)) := by
  induction h with
  | nil => exact ⟨Nat.le_refl _,.nil lines maxChars overlapChars _⟩
  | snoc _ hsec ih =>
    obtain ⟨ham,hfaithful⟩ := ih
    refine ⟨ham.trans hsec.nonempty.le,?_⟩
    rw [List.flatMap_append,List.flatMap_singleton]
    exact hfaithful.append (faithful_chunkSection hsec hbreak) ham hsec.nonempty.le

theorem prefix_of_splitlines {l : PyStr} {ls : List PyStr} (h : splitlinesFrom false s = l::ls) :
    l <+: s := by
  induction s generalizing l ls with
  | nil => cases h
  | cons c s ih =>
    rw [splitlinesFrom,Bool.false_and,if_neg Bool.false_ne_true] at h
    split at h
    · cases h
      exact List.nil_prefix
    · split at h
      · cases h
        exact (List.prefix_cons_inj c).mpr List.nil_prefix
      · next hlines =>
        cases h
        exact (List.prefix_cons_inj c).mpr (ih hlines)

theorem infix_of_mem_splitlines {cr : Bool} (h : l ∈ splitlinesFrom cr s) : l <:+: s := by
  induction s generalizing cr l with
  | nil => cases h
  | cons c s ih =>
    rw [splitlinesFrom] at h
    split at h
    · exact (ih h).trans (List.suffix_cons c s).isInfix
    · split at h
      · rcases List.mem_cons.mp h with rfl | h
        · exact List.nil_infix
        · exact (ih h).trans (List.suffix_cons c s).isInfix
      · split at h
        · rw [List.mem_singleton.mp h]
          exact ((List.prefix_cons_inj c).mpr List.nil_prefix).isInfix
        · next hlines =>
          rcases List.mem_cons.mp h with rfl | h
          · exact ((List.prefix_cons_inj c).mpr (prefix_of_splitlines hlines)).isInfix
          · exact (ih (by rw [hlines]; exact List.mem_cons_of_mem _ h)).trans
              (List.suffix_cons c s).isInfix

/-- The ranges of the chunks are in order, every line that is not blank is in the range and the
text of a chunk, and each chunk has the text of its range, which the whole text is as it stands. -/
structure Chunked (content : PyStr) (maxChars overlapChars : ℤ) (chunks : List Chunk) : Prop where
  ordered : chunks.Pairwise fun c c' => c.endLine ≤ c'.startLine
  within : ∀ c ∈ chunks, c.startLine ≤ c.endLine ∧ c.endLine ≤ (splitlines content).length
  holds : ∀ k l, (splitlines content)[k]? = some l → isBlank l = false →
    ¬Stray (splitlines content) maxChars k → ∃ c ∈ chunks, Holds (splitlines content) k c
  texts : chunks = [⟨content,0,(splitlines content).length⟩] ∨
    ∀ before c after, chunks = before++c::after →
      ¬Stray (splitlines content) maxChars c.startLine →
      ¬Stray (splitlines content) maxChars c.endLine →
      IsText (splitlines content) overlapChars before c

end MinimaxCode.MemoryChunks
