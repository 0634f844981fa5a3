import MinimaxCode.PyText

/-!
# Lines of Python text

`str.splitlines` ends a line at more characters than the line feed: the other line
controls, the separators of the control block, and the Unicode line and paragraph
separators. A carriage return with a line feed behind it is one line break.
-/

namespace MinimaxCode.SplitLines

open PyText

/-- The characters at which `str.splitlines` ends a line. -/
def isLineBreak (c : PyChar) : Bool :=
  let n := c.code
  (10 ≤ n && n ≤ 13) || (28 ≤ n && n ≤ 30) || n == 0x85 || n == 0x2028 || n == 0x2029

/-- The lines of a text, and whether a carriage return stands in front of it. -/
def splitlinesFrom : Bool → PyStr → List PyStr
  | _, [] => []
  | cr, c::cs =>
    if cr && c == ch '\n' then splitlinesFrom false cs
    else if isLineBreak c then []::splitlinesFrom (c == ch '\r') cs
    else match splitlinesFrom false cs with
      | [] => [[c]]
      | line::lines => (c::line)::lines

def splitlines (s : PyStr) : List PyStr := splitlinesFrom false s

/-- `"\n".join(lines)+"\n"` for a list with a first line. -/
def unlines (lines : List PyStr) : PyStr := lines.flatMap (·++[ch '\n'])

/-- No character of the text ends a line. -/
def Unbroken (s : PyStr) : Prop := ∀ c ∈ s, isLineBreak c = false

instance (s : PyStr) : Decidable (Unbroken s) := inferInstanceAs (Decidable (∀ c ∈ s, _))

example : splitlines (lit "a\r\nb\n\nc") = [lit "a",lit "b",[],lit "c"] := by decide

@[simp] theorem unbroken_nil : Unbroken [] := by simp [Unbroken]

variable {c : PyChar} {s t line cs : PyStr} {lines : List PyStr}

@[simp] theorem unbroken_cons :
    Unbroken (c::s) ↔ isLineBreak c = false ∧ Unbroken s := by
  simp [Unbroken]

@[simp] theorem unbroken_append : Unbroken (s++t) ↔ Unbroken s ∧ Unbroken t := by
  simp [Unbroken,or_imp,forall_and]

theorem Unbroken.subset (h : Unbroken t) (hst : s ⊆ t) : Unbroken s :=
  fun c hc => h c (hst hc)

theorem Unbroken.lf_not_mem (h : Unbroken s) : ch '\n' ∉ s :=
  fun hm => absurd (h _ hm) (by decide)

theorem unbroken_of_mem_splitlinesFrom {cr : Bool}
    (h : line ∈ splitlinesFrom cr s) : Unbroken line := by
  induction s generalizing cr line with
  | nil => simp [splitlinesFrom] at h
  | cons c cs ih =>
    rw [splitlinesFrom] at h
    split at h
    · exact ih h
    · split at h
      · obtain rfl | h := List.mem_cons.mp h
        · exact unbroken_nil
        · exact ih h
      · rename_i hbreak
        have hc : isLineBreak c = false := by simpa using hbreak
        split at h
        · obtain rfl := List.mem_singleton.mp h
          simp [hc]
        · rename_i l ls hlines
          obtain rfl | h := List.mem_cons.mp h
          · have hl : l ∈ splitlinesFrom false cs := by simp [hlines]
            exact unbroken_cons.mpr ⟨hc,ih hl⟩
          · have hline : line ∈ splitlinesFrom false cs := by simp [hlines,h]
            exact ih hline

theorem unbroken_of_mem_splitlines (h : line ∈ splitlines s) : Unbroken line :=
  unbroken_of_mem_splitlinesFrom h

theorem splitlines_line {rest : PyStr} (h : Unbroken line) :
    splitlines (line++ch '\n'::rest) = line::splitlines rest := by
  induction line with
  | nil =>
    have hbreak : isLineBreak (ch '\n') = true := rfl
    have hcr : (ch '\n' == ch '\r') = false := rfl
    simp [splitlines,splitlinesFrom,hbreak,hcr]
  | cons c line ih =>
    obtain ⟨hc,hline⟩ := unbroken_cons.mp h
    have ih := ih hline
    simp only [splitlines] at ih ⊢
    simp [splitlinesFrom,hc,ih]

theorem splitlines_unlines (h : ∀ line ∈ lines, Unbroken line) :
    splitlines (unlines lines) = lines := by
  induction lines with
  | nil => rfl
  | cons line lines ih =>
    have hline := h line List.mem_cons_self
    have hlines := ih fun l hl => h l (List.mem_cons_of_mem _ hl)
    have hcons : unlines (line::lines) = line++ch '\n'::unlines lines := by simp [unlines]
    rw [hcons,splitlines_line hline,hlines]

theorem splitOn_unlines (h : ∀ line ∈ lines, ch '\n' ∉ line) :
    splitOn (ch '\n') (unlines lines) = lines++[[]] := by
  induction lines with
  | nil => rfl
  | cons line lines ih =>
    have hline := h line List.mem_cons_self
    have hlines := ih fun l hl => h l (List.mem_cons_of_mem _ hl)
    have hcons : unlines (line::lines) = line++ch '\n'::unlines lines := by simp [unlines]
    rw [hcons,splitOn_append_sep hline,hlines,List.cons_append]

/-- A line ends at the character: a carriage return with a line feed behind it is the first
half of a line break. -/
def endsLine (c : PyChar) (next : PyStr) : Bool :=
  isLineBreak c && !(c == ch '\r' && next.head? == some (ch '\n'))

/-- The character stands in front of the first line. -/
def glue (c : PyChar) : List PyStr → List PyStr
  | [] => [[c]]
  | line::lines => (c::line)::lines

/-- `str.splitlines(keepends=True)`. -/
def splitlinesKeep : PyStr → List PyStr
  | [] => []
  | c::cs => if endsLine c cs then [c]::splitlinesKeep cs else glue c (splitlinesKeep cs)

/-- A line without its line break. -/
def content (line : PyStr) : PyStr := line.takeWhile fun c => !isLineBreak c

theorem flatten_splitlinesKeep (s : PyStr) : (splitlinesKeep s).flatten = s := by
  induction s with
  | nil => rfl
  | cons c cs ih =>
    rw [splitlinesKeep]
    split
    · rw [List.flatten_cons,ih]
      rfl
    · cases hlines : splitlinesKeep cs with
      | nil =>
        rw [hlines] at ih
        simp [glue,← ih]
      | cons line lines =>
        rw [hlines,List.flatten_cons] at ih
        rw [glue,List.flatten_cons,List.cons_append,ih]

theorem endsLine_of_not_break (h : isLineBreak c = false) :
    endsLine c cs = false := by
  simp [endsLine,h]

theorem content_glue (h : isLineBreak c = false) (lines : List PyStr) :
    (glue c lines).map content = glue c (lines.map content) := by
  cases lines <;> simp [glue,content,h]

/-- A line feed behind a carriage return belongs to the line before it. -/
def afterCr : PyStr → PyStr
  | [] => []
  | c::cs => if c = ch '\n' then cs else c::cs

theorem splitlinesKeep_ends (h : endsLine c cs = true) :
    splitlinesKeep (c::cs) = [c]::splitlinesKeep cs := by
  rw [splitlinesKeep,if_pos h]

theorem splitlinesKeep_glue (h : endsLine c cs = false) :
    splitlinesKeep (c::cs) = glue c (splitlinesKeep cs) := by
  rw [splitlinesKeep,if_neg (by simp [h])]

theorem splitlinesKeep_cr (cs : PyStr) : (splitlinesKeep (ch '\r'::cs)).map content =
    []::(splitlinesKeep (afterCr cs)).map content := by
  cases cs with
  | nil => rfl
  | cons d ds =>
    by_cases hd : d = ch '\n'
    · subst hd
      rw [splitlinesKeep_glue rfl,splitlinesKeep_ends rfl,afterCr,if_pos rfl]
      rfl
    · have hends : endsLine (ch '\r') (d::ds) = true := by
        simp [endsLine,hd]
        rfl
      rw [splitlinesKeep_ends hends,afterCr,if_neg hd]
      rfl

theorem splitlinesFrom_eq (s : PyStr) :
    splitlinesFrom false s = (splitlinesKeep s).map content ∧
      splitlinesFrom true s = (splitlinesKeep (afterCr s)).map content := by
  induction s with
  | nil => exact ⟨rfl,rfl⟩
  | cons c cs ih =>
    have hfalse : splitlinesFrom false (c::cs) = (splitlinesKeep (c::cs)).map content := by
      rw [splitlinesFrom,if_neg (by simp)]
      cases hc : isLineBreak c with
      | false =>
        rw [splitlinesKeep,endsLine_of_not_break hc,if_neg (by simp),if_neg (by simp),content_glue hc,
          ← ih.1]
        cases splitlinesFrom false cs <;> rfl
      | true =>
        rw [if_pos rfl]
        by_cases hcr : c = ch '\r'
        · subst hcr
          rw [splitlinesKeep_cr,← ih.2]
          rfl
        · have hends : endsLine c cs = true := by simp [endsLine,hc,hcr]
          have hne : (c == ch '\r') = false := by simpa using hcr
          rw [splitlinesKeep_ends hends,hne,ih.1,List.map_cons]
          simp [content,hc]
    refine ⟨hfalse,?_⟩
    by_cases hlf : c = ch '\n'
    · subst hlf
      simp [splitlinesFrom,afterCr,ih.1]
    · have hne : (true && c == ch '\n') = false := by simpa using hlf
      rw [afterCr,if_neg hlf,← hfalse,splitlinesFrom,splitlinesFrom,hne]
      simp

theorem splitlines_eq (s : PyStr) : splitlines s = (splitlinesKeep s).map content :=
  (splitlinesFrom_eq s).1

theorem endsLine_shorter (ht : t <+: cs) :
    endsLine c cs = true → endsLine c t = true := by
  cases t with
  | nil => simp +contextual [endsLine]
  | cons d t =>
    obtain ⟨u,rfl⟩ := ht
    exact id

theorem endsLine_congr {u : PyStr} (h : t.head? = u.head?) :
    endsLine c t = endsLine c u := by
  rw [endsLine,endsLine,h]

theorem head_take_splitlinesKeep (s : PyStr) (n : ℕ) :
    ((splitlinesKeep s).take (n+1)).flatten.head? = s.head? := by
  cases s with
  | nil => rfl
  | cons c cs =>
    rw [splitlinesKeep]
    split
    · rfl
    · cases splitlinesKeep cs <;> rfl

theorem splitlinesKeep_take (s : PyStr) (n : ℕ) :
    splitlinesKeep ((splitlinesKeep s).take n).flatten = (splitlinesKeep s).take n := by
  induction s generalizing n with
  | nil => simp [splitlinesKeep]
  | cons c cs ih =>
    cases n with
    | zero => rfl
    | succ n =>
      have hinit : ∀ m, ((splitlinesKeep cs).take m).flatten <+: cs := by
        intro m
        have hsplit := flatten_splitlinesKeep cs
        rw [← List.take_append_drop m (splitlinesKeep cs),List.flatten_append] at hsplit
        exact ⟨_,hsplit⟩
      cases hends : endsLine c cs with
      | true =>
        rw [splitlinesKeep_ends hends,List.take_succ_cons,List.flatten_cons,List.cons_append,
          List.nil_append,splitlinesKeep_ends (endsLine_shorter (hinit n) hends),ih]
      | false =>
        have htake : (splitlinesKeep (c::cs)).take (n+1) = glue c ((splitlinesKeep cs).take (n+1)) := by
          rw [splitlinesKeep_glue hends]
          cases splitlinesKeep cs <;> simp [glue]
        have hflatten : (glue c ((splitlinesKeep cs).take (n+1))).flatten =
            c::((splitlinesKeep cs).take (n+1)).flatten := by
          cases (splitlinesKeep cs).take (n+1) <;> simp [glue]
        have hends' : endsLine c ((splitlinesKeep cs).take (n+1)).flatten = false :=
          (endsLine_congr (head_take_splitlinesKeep cs n)).trans hends
        rw [htake,hflatten,splitlinesKeep_glue hends',ih]

theorem splitlinesKeep_drop (s : PyStr) (n : ℕ) :
    splitlinesKeep ((splitlinesKeep s).drop n).flatten = (splitlinesKeep s).drop n := by
  induction s generalizing n with
  | nil => simp [splitlinesKeep]
  | cons c cs ih =>
    cases n with
    | zero => rw [List.drop_zero,flatten_splitlinesKeep]
    | succ n =>
      cases hends : endsLine c cs with
      | true => rw [splitlinesKeep_ends hends,List.drop_succ_cons,ih]
      | false =>
        have hdrop : (splitlinesKeep (c::cs)).drop (n+1) = (splitlinesKeep cs).drop (n+1) := by
          rw [splitlinesKeep_glue hends]
          cases splitlinesKeep cs <;> simp [glue]
        rw [hdrop,ih]

theorem splitlinesKeep_unbroken (h : Unbroken s) (hne : s ≠ []) : splitlinesKeep s = [s] := by
  induction s with
  | nil => exact absurd rfl hne
  | cons c cs ih =>
    obtain ⟨hc,hcs⟩ := unbroken_cons.mp h
    rw [splitlinesKeep_glue (endsLine_of_not_break hc)]
    cases cs with
    | nil => rfl
    | cons d ds =>
      rw [ih hcs (List.cons_ne_nil d ds)]
      rfl

theorem length_splitlines (s : PyStr) : (splitlines s).length = (splitlinesKeep s).length := by
  rw [splitlines_eq,List.length_map]

/-- The only line breaks of the text are line feeds. -/
def LfOnly (s : PyStr) : Prop := ∀ c ∈ s, isLineBreak c = true → c = ch '\n'

instance (s : PyStr) : Decidable (LfOnly s) := inferInstanceAs (Decidable (∀ c ∈ s, _ → _))

/-- The line feed that a text lacks behind its last line. -/
def missingLf (s : PyStr) : PyStr :=
  if s = [] ∨ s.getLast? = some (ch '\n') then [] else [ch '\n']

theorem LfOnly.tail (h : LfOnly (c::cs)) : LfOnly cs :=
  fun d hd => h d (List.mem_cons_of_mem c hd)

theorem splitlines_lf (cs : PyStr) : splitlines (ch '\n'::cs) = []::splitlines cs :=
  splitlines_line unbroken_nil

theorem splitlines_glue (h : isLineBreak c = false) (cs : PyStr) :
    splitlines (c::cs) = glue c (splitlines cs) := by
  rw [splitlines_eq,splitlinesKeep_glue (endsLine_of_not_break h),content_glue h,← splitlines_eq]

theorem splitlines_ne_nil (h : s ≠ []) : splitlines s ≠ [] := by
  intro hnil
  have hflatten := flatten_splitlinesKeep s
  rw [splitlines_eq,List.map_eq_nil_iff] at hnil
  rw [hnil] at hflatten
  exact h hflatten.symm

theorem unlines_glue (h : lines ≠ []) :
    unlines (glue c lines) = c::unlines lines := by
  cases lines with
  | nil => exact absurd rfl h
  | cons line lines => rfl

theorem missingLf_cons (h : c = ch '\n' ∨ cs ≠ []) :
    missingLf (c::cs) = missingLf cs := by
  cases cs with
  | nil => simp_all [missingLf]
  | cons d ds => simp [missingLf]

theorem unlines_splitlines (h : LfOnly s) : unlines (splitlines s) = s++missingLf s := by
  induction s with
  | nil => rfl
  | cons c cs ih =>
    have ih := ih h.tail
    cases hc : isLineBreak c with
    | true =>
      obtain rfl := h c List.mem_cons_self hc
      rw [splitlines_lf,missingLf_cons (Or.inl rfl),List.cons_append,← ih]
      rfl
    | false =>
      rw [splitlines_glue hc]
      by_cases hcs : cs = []
      · subst hcs
        have hne : c ≠ ch '\n' := by
          rintro rfl
          exact absurd hc (by decide)
        simp [splitlines,splitlinesFrom,glue,unlines,missingLf,hne]
      · rw [unlines_glue (splitlines_ne_nil hcs),ih,missingLf_cons (Or.inr hcs),List.cons_append]

theorem intercalate_lf (h : lines ≠ []) :
    [ch '\n'].intercalate lines++[ch '\n'] = unlines lines := by
  induction lines with
  | nil => exact absurd rfl h
  | cons line lines ih =>
    cases lines with
    | nil => simp [unlines]
    | cons next lines =>
      rw [List.intercalate_cons_cons,List.append_assoc,ih (List.cons_ne_nil next lines)]
      simp [unlines]

theorem unlines_append (a b : List PyStr) : unlines (a++b) = unlines a++unlines b :=
  List.flatMap_append

theorem mem_of_mem_splitlines (h : line ∈ splitlines s) : line ⊆ s := by
  rw [splitlines_eq] at h
  obtain ⟨kept,hkept,rfl⟩ := List.mem_map.mp h
  intro c hc
  have hmem : c ∈ kept := (List.takeWhile_prefix _).subset hc
  rw [← flatten_splitlinesKeep s]
  exact List.mem_flatten_of_mem hkept hmem

theorem encodes_unlines (h : ∀ line ∈ lines, encodes line = true) :
    encodes (unlines lines) = true := by
  rw [encodes,List.all_eq_true]
  intro c hc
  obtain ⟨line,hline,hc⟩ := List.mem_flatMap.mp hc
  rcases List.mem_append.mp hc with hc | hc
  · exact List.all_eq_true.mp (h line hline) c hc
  · rw [List.mem_singleton.mp hc]

theorem encodes_of_mem_splitlines (h : encodes s = true)
    (hline : line ∈ splitlines s) : encodes line = true := by
  rw [encodes,List.all_eq_true] at h ⊢
  exact fun c hc => h c (mem_of_mem_splitlines hline hc)

end MinimaxCode.SplitLines
