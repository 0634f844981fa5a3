import MinimaxCode.EditFile
import MinimaxCode.SplitLines

/-!
# Extracting a function

`extract_function` rebuilds a file from five pieces and joins them by line feeds. It puts
every line of the body at one indentation, puts the definition behind the call unless told
otherwise, and then at the top of the file, and never ends the file with a line feed. So
it keeps the structure of a file when the definition is asked for in front, the lines stand
at the left margin, and the file has no other breaks than line feeds and none at its end.
-/

namespace MinimaxCode.ExtractFunction

open PyText PyJson SplitLines TextMode

section Names

variable (isWord : PyChar → Bool)

/-- The characters `[a-zA-Z_]`. -/
def startsName (c : PyChar) : Bool :=
  let n := c.code
  (65 ≤ n && n ≤ 90) || n == 95 || (97 ≤ n && n ≤ 122)

/-- The matches of `\b([a-zA-Z_]\w*)\b` behind a character that is one of a word or not. -/
def namesFrom : Bool → PyStr → List PyStr
  | _, [] => []
  | inWord, c::cs =>
    if !inWord && startsName c then (c::cs.takeWhile isWord)::namesFrom true cs
    else namesFrom (isWord c) cs

def namesIn (line : PyStr) : List PyStr := namesFrom isWord false line

def lstrip (s : PyStr) : PyStr := s.dropWhile PyChar.isSpace

/-- `[a-zA-Z_]\w*` at the start of a text, and what is behind it. -/
def nameAt : PyStr → Option (PyStr × PyStr)
  | [] => none
  | c::cs => if startsName c then some (c::cs.takeWhile isWord,cs.dropWhile isWord) else none

/-- `\s+` followed by a name. -/
def spacedName : PyStr → Option (PyStr × PyStr)
  | [] => none
  | c::cs => if c.isSpace then nameAt isWord (lstrip cs) else none

/-- What is behind a word at the start of a text. -/
def behind (word s : PyStr) : Option PyStr := if word <+: s then some (s.drop word.length) else none

/-- `\s*([a-zA-Z_]\w*)\s*=`. -/
def assigned (line : PyStr) : Option PyStr :=
  (nameAt isWord (lstrip line)).bind fun r =>
    if lit "=" <+: lstrip r.2 then some r.1 else none

/-- `\s*for\s+([a-zA-Z_]\w*)\s+in`. -/
def loopName (line : PyStr) : Option PyStr :=
  (behind (lit "for") (lstrip line)).bind fun rest => (spacedName isWord rest).bind fun r =>
    match r.2 with
    | [] => none
    | c::cs => if c.isSpace && (lit "in").isPrefixOf (lstrip cs) then some r.1 else none

/-- `\s+as\s+([a-zA-Z_]\w*)` at the start of a text. -/
def asName : PyStr → Option PyStr
  | [] => none
  | c::cs =>
    if c.isSpace then
      (behind (lit "as") (lstrip cs)).bind fun rest => (spacedName isWord rest).map Prod.fst
    else none

/-- The last place where `asName` matches, as `.*` takes all it can. -/
def lastAsName : PyStr → Option PyStr
  | [] => none
  | c::cs => (lastAsName cs).or (asName isWord (c::cs))

/-- `\s*with\s+.*\s+as\s+([a-zA-Z_]\w*)`. -/
def withName (line : PyStr) : Option PyStr :=
  (behind (lit "with") (lstrip line)).bind fun rest =>
    match rest with
    | [] => none
    | c::cs => if c.isSpace then lastAsName isWord cs else none

example : withName startsName (lit "with a as b, c as d:") = some (lit "d") := by decide

def kwlist : List PyStr :=
  ["False","None","True","and","as","assert","async","await","break","class","continue","def","del",
    "elif","else","except","finally","for","from","global","if","import","in","is","lambda","nonlocal",
    "not","or","pass","raise","return","try","while","with","yield"].map lit

/-- The other names that are never parameters. -/
def builtinNames : List PyStr :=
  ["True","False","None","print","len","range","str","int","float","list","dict","set","tuple","bool",
    "type","isinstance","issubclass","enumerate","zip","map","filter","sorted","reversed","open",
    "super","property","classmethod","staticmethod","self","cls"].map lit

/-- A set of names, sorted. -/
def sortedSet (names : List PyStr) : List PyStr := names.dedup.mergeSort strLe

def inferParams (extracted outer : List PyStr) : List PyStr :=
  let outerNames := outer.flatMap fun line =>
    (assigned isWord line).toList++(loopName isWord line).toList++(withName isWord line).toList
  sortedSet ((extracted.flatMap (namesIn isWord)).filter fun n =>
    outerNames.contains n && !kwlist.contains n && !builtinNames.contains n)

def inferReturns (extracted after : List PyStr) : List PyStr :=
  let namesAfter := after.flatMap (namesIn isWord)
  sortedSet ((extracted.filterMap (assigned isWord)).filter fun n =>
    namesAfter.contains n && n != lit "self")

end Names

def detectIndent : List PyStr → PyStr
  | [] => lit "    "
  | line::lines => if lstrip line = [] then detectIndent lines else line.takeWhile PyChar.isSpace

/-- `", ".join(names)`. -/
def commaJoin (names : List PyStr) : PyStr := (lit ", ").intercalate names

/-- A line of the body. -/
def bodyLine (indent line : PyStr) : PyStr :=
  if lstrip line = [] then [] else indent++lit "    "++lstrip line

section Tool

variable (isWord : PyChar → Bool) (lines : List PyStr) (start stop : ℕ)

def extracted : List PyStr := (lines.take stop).drop (start-1)

def params : List PyStr := inferParams isWord (extracted lines start stop) (lines.take (start-1))

def returns : List PyStr := inferReturns isWord (extracted lines start stop) (lines.drop stop)

def headerLine (funcName : PyStr) : PyStr :=
  detectIndent (extracted lines start stop)++lit "def "++funcName++lit "("++
    commaJoin (params isWord lines start stop)++lit "):"

/-- The line that returns what is used behind the range, if anything is. -/
def returnLines : List PyStr :=
  match returns isWord lines start stop with
  | [] => []
  | r::rs => [detectIndent (extracted lines start stop)++lit "    return "++commaJoin (r::rs)]

def funcLines (funcName : PyStr) : List PyStr :=
  headerLine isWord lines start stop funcName::
    (extracted lines start stop).map (bodyLine (detectIndent (extracted lines start stop)))++
    returnLines isWord lines start stop

/-- What stands in front of the call. -/
def target : PyStr :=
  match returns isWord lines start stop with
  | [] => []
  | r::rs => commaJoin (r::rs)++lit " = "

def callLine (funcName : PyStr) : PyStr :=
  detectIndent (extracted lines start stop)++target isWord lines start stop++funcName++lit "("++
    commaJoin (params isWord lines start stop)++lit ")"

def resultLines (funcName : PyStr) (insertBefore : Bool) : List PyStr :=
  if insertBefore then
    funcLines isWord lines start stop funcName++[[]]++lines.take (start-1)++
      callLine isWord lines start stop funcName::lines.drop stop
  else
    lines.take (start-1)++callLine isWord lines start stop funcName::[]::
      (funcLines isWord lines start stop funcName++lines.drop stop)

end Tool

/-- A resolved path with the file behind it, and the message of a write that fails. -/
structure Target where
  path : PyStr
  onDisk : EditFile.OnDisk
  writeFault : Option PyStr

structure Host where
  linesep : Linesep
  isWord : PyChar → Bool
  safeResolve : PyStr → Except PyStr Target

structure ExtractCall where
  filePath : PyStr
  startLine : ℤ
  endLine : ℤ
  functionName : PyStr
  dryRun : Bool
  insertBefore : Bool

structure Report where
  file : PyStr
  dryRun : Bool
  functionName : PyStr
  parameters : List PyStr
  returns : List PyStr
  extractedLines : PyStr
  newContent : Option PyStr

inductive Outcome
  | failed (message : PyStr)
  | raised
  | extracted (report : Report)

/-- What the tool makes of a text: the message of a wrong range, or its parameters, what it
returns and the new content. -/
def rebuild (isWord : PyChar → Bool) (call : ExtractCall) (text : PyStr) :
    Except PyStr (List PyStr × List PyStr × PyStr) :=
  let lines := splitlines text
  if call.startLine < 1 ∨ (lines.length : ℤ) < call.endLine ∨ call.endLine < call.startLine then
    .error (lit "invalid line range: "++intText call.startLine++lit "-"++intText call.endLine++
      lit " (file has "++natText lines.length++lit " lines)")
  else
    let start := call.startLine.toNat
    let stop := call.endLine.toNat
    .ok (params isWord lines start stop,returns isWord lines start stop,
      [ch '\n'].intercalate (resultLines isWord lines start stop call.functionName call.insertBefore))

/-- `ExtractFunctionTool.run`. The second component is what the file holds when it was opened
for writing; a text that cannot be encoded leaves it empty. -/
def run (host : Host) (call : ExtractCall) : Outcome × Option ByteArray :=
  match host.safeResolve call.filePath with
  | .error message => (.failed message,none)
  | .ok target =>
    match target.onDisk with
    | .missing => (.failed (lit "file not found: "++call.filePath),none)
    | .directory => (.failed (lit "not a file: "++call.filePath),none)
    | .unreadable message => (.failed (lit "cannot read file: "++message),none)
    | .file content =>
      match readText content with
      | none => (.raised,none)
      | some text =>
        match rebuild host.isWord call text with
        | .error message => (.failed message,none)
        | .ok (parameters,returns,newContent) =>
          let report : Report := ⟨target.path,call.dryRun,call.functionName,parameters,returns,
            intText call.startLine++lit "-"++intText call.endLine,
            if call.dryRun then some newContent else none⟩
          if call.dryRun then (.extracted report,none)
          else
            match target.writeFault with
            | some message => (.failed (lit "cannot write file: "++message),none)
            | none =>
              match writeText host.linesep newContent with
              | none => (.raised,some ByteArray.empty)
              | some written => (.extracted report,some written)

/-- The pieces between the line feeds: the lines, and an empty one behind a final line feed. -/
def pieces (text : PyStr) : List PyStr := splitOn (ch '\n') text

/-- The piece behind the last line of a text that is empty or ends with a line feed. -/
def tail (text : PyStr) : List PyStr := if text = [] ∨ text.getLast? = some (ch '\n') then [[]] else []

/-- The number of lines of a source. -/
def lineCount (text : PyStr) : ℕ := (pieces text).length-(tail text).length

/-- A character that indents. -/
def isIndent (c : PyChar) : Bool := c == ch ' ' || c == ch '\t'

def indentOf (line : PyStr) : PyStr := line.takeWhile PyChar.isSpace

/-- A line is another one with the indentation `a` replaced by `b`. -/
inductive Shifted (a b : PyStr) : PyStr → PyStr → Prop
  | blank {line moved : PyStr} (hline : line.all isIndent = true) (hmoved : moved.all isIndent = true) :
    Shifted a b line moved
  | text {rest : PyStr} (h : rest.all isIndent = false) : Shifted a b (a++rest) (b++rest)

/-- The new pieces of a file: an empty or blank margin around a definition at indentation
`outer`, with its body and perhaps a line that returns names, and the call. -/
structure Parts where
  earlier : List PyStr
  above : List PyStr
  outer : PyStr
  parameters : PyStr
  body : List PyStr
  returned : Option (PyStr × PyStr)
  below : List PyStr
  later : List PyStr
  indent : PyStr
  target : PyStr

namespace Parts

variable (p : Parts) (funcName : PyStr)

def header : PyStr := p.outer++lit "def "++funcName++lit "("++p.parameters++lit "):"

def returning : List PyStr :=
  match p.returned with
  | none => []
  | some (deeper,names) => [p.outer++deeper++lit "return "++names]

def definition : List PyStr := p.above++p.header funcName::(p.body++p.returning++p.below)

def callLine : PyStr := p.indent++p.target++funcName++lit "("++p.parameters++lit ")"

end Parts

/-- The line begins a statement and is the first one from `start` to `stop` that does. -/
def FirstStatement (starts : List PyStr → ℕ → Prop) (lines : List PyStr) (start stop i : ℕ) : Prop :=
  start-1 ≤ i ∧ i < stop ∧ starts lines i ∧ ∀ j, start-1 ≤ j → j < i → ¬ starts lines j

/-- A line with nothing but a comment. -/
def isComment (line : PyStr) : Bool := (lit "#").isPrefixOf (lstrip line)

/-- The structure is kept: the lines outside the range stand as they did, with the end of the
file; the range is one call, in the indentation of its first statement; the body is the range
with its indentation replaced by one that is deeper than the definition's; and the definition
stands above the call in a block that encloses it, in a file whose first statement is not
indented. -/
structure Extracted (starts : List PyStr → ℕ → Prop) (text : PyStr) (start stop : ℕ)
    (funcName out : PyStr) (p : Parts) : Prop where
  outside : (pieces text).take (start-1) = p.earlier++p.later
  produced : pieces out = p.earlier++p.definition funcName++p.later++
    p.callLine funcName::(pieces text).drop stop
  margin : ∀ line ∈ p.above++p.below, line.all isIndent = true
  outer : p.outer.all PyChar.isSpace = true
  body : ∃ a b, a.all isIndent = true ∧ b.all isIndent = true ∧ p.outer <+: b ∧ p.outer ≠ b ∧
    List.Forall₂ (Shifted a b) (extracted (pieces text) start stop) p.body
  returned : ∀ r ∈ p.returned, r.1.all PyChar.isSpace = true ∧ r.1 ≠ []
  called : ∃ i line, FirstStatement starts (pieces text) start stop i ∧
    (pieces text)[i]? = some line ∧ p.indent = indentOf line
  encloses : ∀ i line, p.earlier.length ≤ i →
    i ≤ p.earlier.length+(p.definition funcName).length+p.later.length →
    starts (pieces out) i → (pieces out)[i]? = some line → p.outer <+: indentOf line
  begins : ∀ line, (pieces out).find? (fun l => !l.all isIndent && !isComment l) = some line →
    indentOf line = []

def KeepsStructure (starts : List PyStr → ℕ → Prop) (isWord : PyChar → Bool) (call : ExtractCall)
    (text : PyStr) : Prop :=
  ∃ parameters returns out p, rebuild isWord call text = .ok (parameters,returns,out) ∧
    Extracted starts text call.startLine.toNat call.endLine.toNat call.functionName out p

variable {c : PyChar} {isWord : PyChar → Bool} {line text : PyStr}

theorem isSpace_of_isLineBreak (h : isLineBreak c = true) : c.isSpace = true := by
  simp only [isLineBreak,PyChar.isSpace,Bool.or_eq_true,Bool.and_eq_true,decide_eq_true_eq,
    beq_iff_eq] at h ⊢
  omega

theorem isSpace_of_isIndent (h : isIndent c = true) : c.isSpace = true := by
  rw [isIndent,Bool.or_eq_true,beq_iff_eq,beq_iff_eq] at h
  obtain rfl | rfl := h <;> decide

theorem unbroken_of_isIndent {s : PyStr} (h : s.all isIndent = true) : Unbroken s := by
  intro c hc
  have hindent := List.all_eq_true.mp h c hc
  rw [isIndent,Bool.or_eq_true,beq_iff_eq,beq_iff_eq] at hindent
  obtain rfl | rfl := hindent <;> decide

theorem namesFrom_subset {inWord : Bool} {n : PyStr}
    (h : n ∈ namesFrom isWord inWord line) : n ⊆ line := by
  induction line generalizing inWord with
  | nil => cases h
  | cons c cs ih =>
    rw [namesFrom] at h
    split at h
    · obtain rfl | h := List.mem_cons.mp h
      · exact List.cons_subset_cons c (List.takeWhile_prefix _).subset
      · exact List.subset_cons_of_subset c (ih h)
    · exact List.subset_cons_of_subset c (ih h)

theorem isSpace_of_startsName (h : startsName c = true) : c.isSpace = false := by
  simp only [startsName,PyChar.isSpace,Bool.or_eq_true,Bool.and_eq_true,decide_eq_true_eq,
    beq_iff_eq] at h ⊢
  simp only [Bool.or_eq_false_iff,Bool.and_eq_false_iff,decide_eq_false_iff_not,beq_eq_false_iff_ne]
  omega

theorem assigned_spec {n : PyStr} (h : assigned isWord line = some n) :
    n ⊆ line ∧ ∃ c cs, n = c::cs ∧ c.isSpace = false := by
  obtain ⟨r,hr,hn⟩ := Option.bind_eq_some_iff.mp h
  split at hn
  · obtain rfl := Option.some.inj hn
    have hstripped : lstrip line ⊆ line := (List.dropWhile_suffix _).subset
    cases hline : lstrip line with
    | nil =>
      rw [hline] at hr
      cases hr
    | cons c cs =>
      rw [hline,nameAt] at hr
      split at hr
      case isTrue hc =>
        obtain rfl := Option.some.inj hr
        rw [hline] at hstripped
        exact ⟨List.Subset.trans (List.cons_subset_cons c (List.takeWhile_prefix _).subset) hstripped,
          c,_,rfl,isSpace_of_startsName hc⟩
      case isFalse => cases hr
  · cases hn

theorem unbroken_commaJoin {names : List PyStr} (h : ∀ n ∈ names, Unbroken n) :
    Unbroken (commaJoin names) := by
  induction names with
  | nil => exact unbroken_nil
  | cons n names ih =>
    cases names with
    | nil => simpa [commaJoin] using h n List.mem_cons_self
    | cons next names =>
      rw [commaJoin,List.intercalate_cons_cons]
      have hrest := ih fun m hm => h m (List.mem_cons_of_mem n hm)
      exact unbroken_append.mpr ⟨unbroken_append.mpr ⟨h n List.mem_cons_self,by decide⟩,hrest⟩

theorem mem_of_mem_sortedSet {names : List PyStr} {n : PyStr} (h : n ∈ sortedSet names) : n ∈ names :=
  List.mem_dedup.mp (List.mem_mergeSort.mp h)

section Lines

variable {isWord : PyChar → Bool} {lines : List PyStr} {start stop : ℕ} {funcName : PyStr}

theorem mem_of_mem_extracted {line : PyStr} (h : line ∈ extracted lines start stop) : line ∈ lines :=
  List.mem_of_mem_take (List.mem_of_mem_drop h)

theorem unbroken_params (h : ∀ line ∈ lines, Unbroken line) :
    Unbroken (commaJoin (params isWord lines start stop)) := by
  refine unbroken_commaJoin fun n hn => ?_
  obtain ⟨line,hline,hn⟩ := List.mem_flatMap.mp (List.mem_filter.mp (mem_of_mem_sortedSet hn)).1
  exact (h line (mem_of_mem_extracted hline)).subset (namesFrom_subset hn)

theorem unbroken_returns (h : ∀ line ∈ lines, Unbroken line) :
    Unbroken (commaJoin (returns isWord lines start stop)) := by
  refine unbroken_commaJoin fun n hn => ?_
  obtain ⟨line,hline,hn⟩ := List.mem_filterMap.mp (List.mem_filter.mp (mem_of_mem_sortedSet hn)).1
  exact (h line (mem_of_mem_extracted hline)).subset (assigned_spec hn).1

theorem detectIndent_spec (ls : List PyStr) :
    ((∀ line ∈ ls, lstrip line = []) ∧ detectIndent ls = lit "    ") ∨
      ∃ line ∈ ls, lstrip line ≠ [] ∧ detectIndent ls = indentOf line := by
  induction ls with
  | nil => exact Or.inl ⟨by simp,rfl⟩
  | cons line ls ih =>
    rw [detectIndent]
    split
    case isTrue hblank =>
      obtain ⟨hls,h⟩ | ⟨l,hl,h⟩ := ih
      · exact Or.inl ⟨List.forall_mem_cons.mpr ⟨hblank,hls⟩,h⟩
      · exact Or.inr ⟨l,List.mem_cons_of_mem line hl,h⟩
    case isFalse hne => exact Or.inr ⟨line,List.mem_cons_self,hne,rfl⟩

theorem isSpace_detectIndent (ls : List PyStr) : (detectIndent ls).all PyChar.isSpace = true := by
  obtain ⟨_,h⟩ | ⟨line,_,_,h⟩ := detectIndent_spec ls
  · rw [h]
    decide
  · rw [h]
    exact List.all_takeWhile

theorem unbroken_detectIndent (h : ∀ line ∈ lines, Unbroken line) :
    Unbroken (detectIndent (extracted lines start stop)) := by
  obtain ⟨_,heq⟩ | ⟨line,hline,_,heq⟩ := detectIndent_spec (extracted lines start stop)
  · rw [heq]
    decide
  · rw [heq]
    exact (h line (mem_of_mem_extracted hline)).subset (List.takeWhile_prefix _).subset

theorem unbroken_resultLines {insertBefore : Bool} (hname : Unbroken funcName)
    (h : ∀ line ∈ lines, Unbroken line) :
    ∀ line ∈ resultLines isWord lines start stop funcName insertBefore, Unbroken line := by
  have hindent := @unbroken_detectIndent lines start stop h
  have hparams := @unbroken_params isWord lines start stop h
  have hreturns := @unbroken_returns isWord lines start stop h
  have hcall : Unbroken (callLine isWord lines start stop funcName) := by
    have htarget : Unbroken (target isWord lines start stop) := by
      unfold target
      split
      · exact unbroken_nil
      case h_2 heq => exact unbroken_append.mpr ⟨heq ▸ hreturns,by decide⟩
    simp only [callLine,unbroken_append]
    exact ⟨⟨⟨⟨⟨hindent,htarget⟩,hname⟩,by decide⟩,hparams⟩,by decide⟩
  have hfunc : ∀ line ∈ funcLines isWord lines start stop funcName, Unbroken line := by
    intro line hline
    rw [funcLines,List.cons_append,List.mem_cons,List.mem_append] at hline
    obtain rfl | hline | hline := hline
    · simp only [headerLine,unbroken_append]
      exact ⟨⟨⟨⟨⟨hindent,by decide⟩,hname⟩,by decide⟩,hparams⟩,by decide⟩
    · obtain ⟨source,hsource,rfl⟩ := List.mem_map.mp hline
      rw [bodyLine]
      split
      · exact unbroken_nil
      · have hstrip : Unbroken (lstrip source) :=
          (h source (mem_of_mem_extracted hsource)).subset (List.dropWhile_suffix _).subset
        simp only [unbroken_append]
        exact ⟨⟨hindent,by decide⟩,hstrip⟩
    · unfold returnLines at hline
      split at hline
      · cases hline
      case h_2 heq =>
        obtain rfl := List.mem_singleton.mp hline
        simp only [unbroken_append]
        exact ⟨⟨hindent,by decide⟩,heq ▸ hreturns⟩
  intro line hline
  rw [resultLines] at hline
  split at hline
  · simp only [List.mem_append,List.mem_cons,List.not_mem_nil,or_false] at hline
    obtain ((hline | rfl) | hline) | rfl | hline := hline
    · exact hfunc line hline
    · exact unbroken_nil
    · exact h line (List.mem_of_mem_take hline)
    · exact hcall
    · exact h line (List.mem_of_mem_drop hline)
  · simp only [List.mem_append,List.mem_cons] at hline
    obtain hline | rfl | rfl | hline | hline := hline
    · exact h line (List.mem_of_mem_take hline)
    · exact hcall
    · exact unbroken_nil
    · exact hfunc line hline
    · exact h line (List.mem_of_mem_drop hline)

end Lines

theorem pieces_join {lines : List PyStr} (hne : lines ≠ []) (h : ∀ line ∈ lines, Unbroken line) :
    pieces ([ch '\n'].intercalate lines) = lines := by
  induction lines with
  | nil => exact absurd rfl hne
  | cons line lines ih =>
    have hline := (h line List.mem_cons_self).lf_not_mem
    cases lines with
    | nil => simpa [pieces] using splitOn_of_not_mem hline
    | cons next lines =>
      have hrest := ih (List.cons_ne_nil next lines) fun l hl => h l (List.mem_cons_of_mem line hl)
      rw [pieces] at hrest ⊢
      rw [List.intercalate_cons_cons,List.append_assoc,List.singleton_append,splitOn_append_sep hline,
        hrest]

theorem mem_pieces (hc : c ∈ text) (hne : c ≠ ch '\n') :
    ∃ piece ∈ pieces text, c ∈ piece := by
  induction text with
  | nil => cases hc
  | cons d text ih =>
    rw [pieces,splitOn_cons]
    split
    case isTrue heq =>
      obtain rfl | hc := List.mem_cons.mp hc
      · exact absurd heq hne
      · obtain ⟨piece,hpiece,hc⟩ := ih hc
        exact ⟨piece,List.mem_cons_of_mem [] hpiece,hc⟩
    case isFalse =>
      cases hsplit : splitOn (ch '\n') text with
      | nil =>
        obtain rfl | hc := List.mem_cons.mp hc
        · exact ⟨[c],List.mem_cons_self,List.mem_cons_self⟩
        · obtain ⟨piece,hpiece,_⟩ := ih hc
          rw [pieces,hsplit] at hpiece
          cases hpiece
      | cons w ws =>
        obtain rfl | hc := List.mem_cons.mp hc
        · exact ⟨c::w,List.mem_cons_self,List.mem_cons_self⟩
        · obtain ⟨piece,hpiece,hc⟩ := ih hc
          rw [pieces,hsplit] at hpiece
          obtain rfl | hpiece := List.mem_cons.mp hpiece
          · exact ⟨d::piece,List.mem_cons_self,List.mem_cons_of_mem d hc⟩
          · exact ⟨piece,List.mem_cons_of_mem _ hpiece,hc⟩

theorem lfOnly_of_pieces (h : ∀ piece ∈ pieces text, Unbroken piece) : LfOnly text := by
  intro c hc hbreak
  by_contra hne
  obtain ⟨piece,hpiece,hmem⟩ := mem_pieces hc hne
  exact absurd hbreak (by rw [h piece hpiece c hmem]; exact Bool.false_ne_true)

theorem pieces_snoc (text : PyStr) : pieces (text++[ch '\n']) = pieces text++[[]] := by
  induction text with
  | nil => rfl
  | cons c text ih =>
    rw [pieces,pieces] at ih
    rw [pieces,pieces,List.cons_append,splitOn_cons,ih,splitOn_cons]
    split
    · rfl
    · cases hsplit : splitOn (ch '\n') text with
      | nil => exact absurd hsplit (splitOn_ne_nil _ _)
      | cons w ws => rfl

theorem pieces_eq (h : LfOnly text) : pieces text = splitlines text++tail text := by
  have hlines : ∀ line ∈ splitlines text, ch '\n' ∉ line :=
    fun line hline => (unbroken_of_mem_splitlines hline).lf_not_mem
  have hsplit := splitOn_unlines hlines
  rw [unlines_splitlines h,← pieces] at hsplit
  by_cases hend : text = [] ∨ text.getLast? = some (ch '\n')
  · rw [missingLf,if_pos hend,List.append_nil] at hsplit
    rw [tail,if_pos hend,hsplit]
  · rw [missingLf,if_neg hend,pieces_snoc] at hsplit
    rw [tail,if_neg hend,List.append_nil]
    exact List.append_cancel_right hsplit

theorem lineCount_eq (h : LfOnly text) : lineCount text = (splitlines text).length := by
  rw [lineCount,pieces_eq h,List.length_append,Nat.add_sub_cancel]

/-- The lines that are not blank. -/
def solid (lines : List PyStr) : List PyStr := lines.filter fun l => !l.all isIndent

/-- A line is indented deeper than `outer`. -/
def Deeper (outer line : PyStr) : Prop := ∃ d, d ≠ [] ∧ indentOf line = outer++d

theorem indentOf_append {a : PyStr} (h : a.all PyChar.isSpace = true) :
    indentOf (a++line) = a++indentOf line :=
  List.takeWhile_append_of_pos (List.all_eq_true.mp h)

theorem all_isSpace {a : PyStr} (h : a.all isIndent = true) : a.all PyChar.isSpace = true :=
  List.all_eq_true.mpr fun c hc => isSpace_of_isIndent (List.all_eq_true.mp h c hc)

theorem indentOf_text {a : PyStr} (h : a.all PyChar.isSpace = true) (hc : c.isSpace = false)
    (cs : PyStr) : indentOf (a++c::cs) = a := by
  rw [indentOf_append h,indentOf,List.takeWhile_cons_of_neg (by rw [hc]; exact Bool.false_ne_true),
    List.append_nil]

theorem solid_of_mem (hc : c ∈ line) (hspace : c.isSpace = false) :
    line.all isIndent = false := by
  rw [List.all_eq_false]
  refine ⟨c,hc,fun hindent => ?_⟩
  rw [isSpace_of_isIndent hindent] at hspace
  cases hspace

theorem lstrip_ne_nil : lstrip line ≠ [] ↔ ∃ c ∈ line, c.isSpace = false := by
  rw [lstrip,Ne,List.dropWhile_eq_nil_iff]
  simp

theorem indentOf_lstrip (line : PyStr) : indentOf (lstrip line) = [] := by
  rw [indentOf,List.takeWhile_eq_nil_iff]
  intro h
  have hne : line.dropWhile PyChar.isSpace ≠ [] := List.ne_nil_of_length_pos h
  have hhead := List.head_dropWhile_not PyChar.isSpace hne
  rw [List.head_eq_getElem] at hhead
  exact Bool.eq_false_iff.mp hhead

section Blocks

variable {x y : PyStr} {xs ys : List PyStr} {a b : PyStr}

theorem head_of_perm (hx : indentOf x = a) (hxs : ∀ l ∈ xs, Deeper a l) (hy : indentOf y = b)
    (hys : ∀ l ∈ ys, Deeper b l) (h : (x::xs).Perm (y::ys)) : x = y ∧ xs.Perm ys := by
  have heq : x = y := by
    by_contra hne
    obtain hxy | hmem := List.mem_cons.mp (h.mem_iff.mp List.mem_cons_self)
    · exact hne hxy
    · obtain hyx | hmem' := List.mem_cons.mp (h.mem_iff.mpr List.mem_cons_self)
      · exact hne hyx.symm
      · obtain ⟨d,hd,hdeep⟩ := hys x hmem
        obtain ⟨e,_,hdeep'⟩ := hxs y hmem'
        have hlength := congrArg List.length (hx.symm.trans hdeep)
        have hlength' := congrArg List.length (hy.symm.trans hdeep')
        have hpos := List.length_pos_of_ne_nil hd
        rw [List.length_append] at hlength hlength'
        omega
  subst heq
  exact ⟨rfl,h.cons_inv⟩

theorem not_perm_of_two {z : PyStr} (hx : indentOf x = a) (hxs : ∀ l ∈ xs, Deeper a l)
    (hy : indentOf y = b) (hz : indentOf z = b) (hys : ∀ l ∈ ys, Deeper b l) :
    ¬ (x::xs).Perm (y::z::ys) := by
  intro h
  have hcount := h.countP_eq fun l => decide ((indentOf l).length ≤ b.length)
  have hdeep : ∀ l ∈ ys, b.length < (indentOf l).length := by
    intro l hl
    obtain ⟨d,hd,heq⟩ := hys l hl
    have hpos := List.length_pos_of_ne_nil hd
    rw [heq,List.length_append]
    omega
  have hright : (y::z::ys).countP (fun l => decide ((indentOf l).length ≤ b.length)) = 2 := by
    rw [List.countP_cons_of_pos (by simp [hy]),List.countP_cons_of_pos (by simp [hz]),
      List.countP_eq_zero.mpr fun l hl => by simpa using hdeep l hl]
  have hle : b.length ≤ a.length := by
    obtain rfl | hmem := List.mem_cons.mp (h.mem_iff.mp List.mem_cons_self)
    · rw [← hx,hy]
    · obtain rfl | hmem := List.mem_cons.mp hmem
      · rw [← hx,hz]
      · have hlt := hdeep x hmem
        rw [hx] at hlt
        exact hlt.le
  have hleft : xs.countP (fun l => decide ((indentOf l).length ≤ b.length)) = 0 := by
    refine List.countP_eq_zero.mpr fun l hl => ?_
    obtain ⟨d,hd,heq⟩ := hxs l hl
    have hpos := List.length_pos_of_ne_nil hd
    simp only [heq,List.length_append,decide_eq_true_eq]
    omega
  rw [hright,List.countP_cons,hleft] at hcount
  split at hcount <;> omega

end Blocks

theorem perm_of_around {α : Type*} {e l d xs : List α} (h : (e++l++xs).Perm (e++d++l)) : xs.Perm d := by
  rw [List.append_assoc,List.append_assoc] at h
  exact (List.perm_append_left_iff l).mp
    (((List.perm_append_left_iff e).mp h).trans List.perm_append_comm)

theorem solid_append (a b : List PyStr) : solid (a++b) = solid a++solid b := List.filter_append a b

theorem solid_cons (h : line.all isIndent = false) (ls : List PyStr) :
    solid (line::ls) = line::solid ls :=
  List.filter_cons_of_pos (by rw [h]; rfl)

theorem solid_nil : solid [] = [] := rfl

theorem solid_empty (ls : List PyStr) : solid ([]::ls) = solid ls := rfl

theorem solid_blank {ls : List PyStr} (h : ∀ line ∈ ls, line.all isIndent = true) : solid ls = [] :=
  List.filter_eq_nil_iff.mpr fun line hline => by rw [h line hline]; exact Bool.false_ne_true

theorem solid_tail (text : PyStr) : solid (tail text) = [] := by
  refine solid_blank fun line hline => ?_
  rw [tail] at hline
  split at hline
  · obtain rfl := List.mem_singleton.mp hline
    rfl
  · cases hline

section Code

variable {isWord : PyChar → Bool} {lines : List PyStr} {start stop : ℕ} {funcName : PyStr}

/-- The lines of the definition below its header. -/
def innerLines (isWord : PyChar → Bool) (lines : List PyStr) (start stop : ℕ) : List PyStr :=
  (extracted lines start stop).map (bodyLine (detectIndent (extracted lines start stop)))++
    returnLines isWord lines start stop

theorem indentOf_headerLine : indentOf (headerLine isWord lines start stop funcName) =
    detectIndent (extracted lines start stop) := by
  simp only [headerLine,List.append_assoc]
  exact indentOf_text (isSpace_detectIndent _) (c := ch 'd') (by decide) _

theorem headerLine_solid : (headerLine isWord lines start stop funcName).all isIndent = false :=
  solid_of_mem (c:=ch 'd') (by simp [headerLine,lit]) (by decide)

theorem funcLines_solid : solid (funcLines isWord lines start stop funcName) =
    headerLine isWord lines start stop funcName::solid (innerLines isWord lines start stop) :=
  solid_cons headerLine_solid _

theorem isSpace_inner (ls : List PyStr) : (detectIndent ls++lit "    ").all PyChar.isSpace = true := by
  rw [List.all_append,isSpace_detectIndent]
  decide

theorem indentOf_inner {line : PyStr} (h : line ∈ solid (innerLines isWord lines start stop)) :
    indentOf line = detectIndent (extracted lines start stop)++lit "    " := by
  obtain ⟨hline,hsolid⟩ := List.mem_filter.mp h
  obtain hline | hline := List.mem_append.mp hline
  · obtain ⟨source,hsource,rfl⟩ := List.mem_map.mp hline
    rw [bodyLine] at hsolid ⊢
    split at hsolid
    · cases hsolid
    case isFalse hne =>
      rw [if_neg hne,indentOf_append (isSpace_inner _),indentOf_lstrip,List.append_nil]
  · unfold returnLines at hline
    split at hline
    · cases hline
    · obtain rfl := List.mem_singleton.mp hline
      have hreturn : lit "    return " = lit "    "++lit "return " := rfl
      simp only [hreturn,← List.append_assoc]
      rw [List.append_assoc]
      exact indentOf_text (isSpace_inner _) (c := ch 'r') (by decide) _

theorem deeper_inner {line : PyStr} (h : line ∈ solid (innerLines isWord lines start stop)) :
    Deeper (detectIndent (extracted lines start stop)) line :=
  ⟨lit "    ",by decide,indentOf_inner h⟩

theorem bodyLine_mem {line : PyStr} (h : line ∈ extracted lines start stop) (hne : lstrip line ≠ []) :
    bodyLine (detectIndent (extracted lines start stop)) line ∈ solid (innerLines isWord lines start stop) := by
  refine List.mem_filter.mpr ⟨List.mem_append_left _ (List.mem_map_of_mem h),?_⟩
  obtain ⟨c,hc,hspace⟩ := lstrip_ne_nil.mp hne
  have hmem : c ∈ lstrip line := by
    rw [← List.takeWhile_append_dropWhile (p := PyChar.isSpace) (l := line)] at hc
    obtain hc | hc := List.mem_append.mp hc
    · have := List.mem_takeWhile_imp hc
      rw [hspace] at this
      cases this
    · exact hc
  rw [bodyLine,if_neg hne,solid_of_mem (List.mem_append_right _ hmem) hspace]
  rfl

theorem callLine_solid (hname : lstrip funcName ≠ []) :
    (callLine isWord lines start stop funcName).all isIndent = false := by
  obtain ⟨c,hc,hspace⟩ := lstrip_ne_nil.mp hname
  exact solid_of_mem (by simp [callLine,hc]) hspace

theorem indentOf_callLine (hname : ∃ c cs, funcName = c::cs ∧ c.isSpace = false) :
    indentOf (callLine isWord lines start stop funcName) = detectIndent (extracted lines start stop) := by
  have hindent := isSpace_detectIndent (extracted lines start stop)
  simp only [callLine,List.append_assoc]
  unfold target
  split
  · obtain ⟨c,cs,rfl,hspace⟩ := hname
    exact indentOf_text hindent hspace _
  case h_2 r rs heq =>
    have hmem : r ∈ returns isWord lines start stop := heq ▸ List.mem_cons_self
    obtain ⟨line,_,hline⟩ := List.mem_filterMap.mp (List.mem_filter.mp (mem_of_mem_sortedSet hmem)).1
    obtain ⟨_,c,cs,rfl,hspace⟩ := assigned_spec hline
    cases rs with
    | nil => exact indentOf_text hindent hspace _
    | cons next rs => exact indentOf_text hindent hspace _

end Code

namespace Parts

variable {p : Parts} {funcName : PyStr}

theorem callLine_solid (hname : lstrip funcName ≠ []) : (p.callLine funcName).all isIndent = false := by
  obtain ⟨c,hc,hspace⟩ := lstrip_ne_nil.mp hname
  exact solid_of_mem (by simp [callLine,hc]) hspace

end Parts

section Kept

variable {starts : List PyStr → ℕ → Prop} {text funcName out : PyStr} {start stop : ℕ} {p : Parts}

theorem Extracted.indentOf_header (h : Extracted starts text start stop funcName out p) :
    indentOf (p.header funcName) = p.outer := by
  simp only [Parts.header,List.append_assoc]
  exact indentOf_text h.outer (c := ch 'd') (by decide) _

theorem Extracted.solid_definition (h : Extracted starts text start stop funcName out p) :
    solid (p.definition funcName) = p.header funcName::solid (p.body++p.returning) := by
  have hheader : (p.header funcName).all isIndent = false :=
    solid_of_mem (c:=ch 'd') (by simp [Parts.header,lit]) (by decide)
  have habove := solid_blank fun line hline => h.margin line (List.mem_append_left _ hline)
  have hbelow := solid_blank fun line hline => h.margin line (List.mem_append_right _ hline)
  rw [Parts.definition,solid_append,habove,List.nil_append,solid_cons hheader,solid_append _ p.below,
    hbelow,List.append_nil]

theorem mem_body {a b : PyStr} {ls body : List PyStr} (h : List.Forall₂ (Shifted a b) ls body)
    {line : PyStr} (hmem : line ∈ solid body) : ∃ rest, a++rest ∈ ls ∧ line = b++rest := by
  obtain ⟨hline,hsolid⟩ := List.mem_filter.mp hmem
  clear hmem
  induction h with
  | nil => cases hline
  | cons hshift _ ih =>
    obtain rfl | hline := List.mem_cons.mp hline
    · cases hshift with
      | blank _ hmoved =>
        rw [hmoved] at hsolid
        cases hsolid
      | text _ => exact ⟨_,List.mem_cons_self,rfl⟩
    · obtain ⟨rest,hrest,heq⟩ := ih hline
      exact ⟨rest,List.mem_cons_of_mem _ hrest,heq⟩

theorem mem_range {a b : PyStr} {ls body : List PyStr} (h : List.Forall₂ (Shifted a b) ls body)
    {line : PyStr} (hline : line ∈ ls) : line.all isIndent = true ∨
      ∃ rest, rest.all isIndent = false ∧ line = a++rest ∧ b++rest ∈ body := by
  induction h with
  | nil => cases hline
  | cons hshift _ ih =>
    obtain rfl | hline := List.mem_cons.mp hline
    · cases hshift with
      | blank hblank _ => exact Or.inl hblank
      | text hrest => exact Or.inr ⟨_,hrest,rfl,List.mem_cons_self⟩
    · obtain hblank | ⟨rest,hrest,heq,hmem⟩ := ih hline
      · exact Or.inl hblank
      · exact Or.inr ⟨rest,hrest,heq,List.mem_cons_of_mem _ hmem⟩

theorem Extracted.deeper (h : Extracted starts text start stop funcName out p) :
    ∀ line ∈ solid (p.body++p.returning), Deeper p.outer line := by
  obtain ⟨a,b,_,hb,⟨d,rfl⟩,hne,hshift⟩ := h.body
  intro line hline
  rw [solid_append,List.mem_append] at hline
  obtain hline | hline := hline
  · obtain ⟨rest,_,rfl⟩ := mem_body hshift hline
    refine ⟨d++indentOf rest,fun hnil => hne ?_,?_⟩
    · rw [(List.append_eq_nil_iff.mp hnil).1,List.append_nil]
    · rw [indentOf_append (all_isSpace hb),List.append_assoc]
  · have hline := (List.mem_filter.mp hline).1
    have hreturned := h.returned
    unfold Parts.returning at hline
    split at hline
    · cases hline
    case h_2 deeper names heq =>
      obtain rfl := List.mem_singleton.mp hline
      obtain ⟨hspace,hd⟩ := hreturned _ heq
      refine ⟨deeper,hd,?_⟩
      rw [List.append_assoc]
      exact indentOf_text (by rw [List.all_append,h.outer,hspace]; rfl) (c := ch 'r') (by decide) _

theorem solid_callLine (hname : lstrip funcName ≠ []) (ls : List PyStr) :
    solid (p.callLine funcName::ls) = p.callLine funcName::solid ls :=
  solid_cons (Parts.callLine_solid hname) ls

theorem Extracted.lfOnly (h : Extracted starts text start stop funcName out p)
    (hout : ∀ line ∈ pieces out, Unbroken line) : LfOnly text := by
  refine lfOnly_of_pieces fun piece hpiece => ?_
  rw [h.produced] at hout
  rw [← List.take_append_drop stop (pieces text),List.mem_append] at hpiece
  obtain hpiece | hpiece := hpiece
  · rw [← List.take_append_drop (start-1) ((pieces text).take stop),List.mem_append] at hpiece
    obtain hpiece | hpiece := hpiece
    · rw [List.take_take] at hpiece
      have hmem := List.take_subset_take_left (pieces text) (min_le_left (start-1) stop) hpiece
      rw [h.outside] at hmem
      refine hout piece ?_
      obtain hmem | hmem := List.mem_append.mp hmem
      · simp [hmem]
      · simp [hmem]
    · obtain ⟨a,b,ha,_,_,_,hshift⟩ := h.body
      obtain hblank | ⟨rest,_,rfl,hmem⟩ := mem_range hshift hpiece
      · exact unbroken_of_isIndent hblank
      · have hmoved := hout (b++rest) (by simp [Parts.definition,hmem])
        exact unbroken_append.mpr ⟨unbroken_of_isIndent ha,(unbroken_append.mp hmoved).2⟩
  · exact hout piece (by simp [hpiece])

section Produced

variable {isWord : PyChar → Bool} {lines : List PyStr} {insertBefore : Bool}

theorem Extracted.inserted (h : Extracted starts text start stop funcName out p)
    (hhead : ∃ c cs, funcName = c::cs ∧ c.isSpace = false) (hpieces : pieces text = lines++tail text)
    (hstart : start-1 ≤ lines.length) (hstop : stop ≤ lines.length)
    (hsolid : ∃ line ∈ extracted lines start stop, lstrip line ≠ [])
    (hout : pieces out = resultLines isWord lines start stop funcName insertBefore) :
    insertBefore = true := by
  have hname : lstrip funcName ≠ [] := by
    obtain ⟨c,cs,rfl,hspace⟩ := hhead
    exact lstrip_ne_nil.mpr ⟨c,List.mem_cons_self,hspace⟩
  by_contra hbehind
  have heq := congrArg solid (hout.symm.trans h.produced)
  have hbefore := congrArg solid h.outside
  rw [hpieces,List.take_append_of_le_length hstart,solid_append] at hbefore
  rw [resultLines,if_neg hbehind,hpieces,List.drop_append_of_le_length hstop] at heq
  simp only [solid_append,solid_cons (callLine_solid hname),solid_callLine hname,solid_empty,
    h.solid_definition,funcLines_solid,hbefore,solid_tail,List.append_nil] at heq
  obtain ⟨line,hline,hne⟩ := hsolid
  obtain ⟨inner,last,hinner⟩ := (List.eq_nil_or_concat' _).resolve_left
    (List.ne_nil_of_mem (@bodyLine_mem isWord lines start stop line hline hne))
  have hdeep : ∀ l ∈ inner, Deeper (detectIndent (extracted lines start stop)) l :=
    fun l hl => @deeper_inner isWord _ _ _ _ (hinner ▸ List.mem_append_left _ hl)
  have hsplit : (solid p.earlier++solid p.later++(callLine isWord lines start stop funcName::
        headerLine isWord lines start stop funcName::inner)++[last])++solid (lines.drop stop) =
      (solid p.earlier++(p.header funcName::solid (p.body++p.returning))++solid p.later++
        [p.callLine funcName])++solid (lines.drop stop) := by
    rw [hinner] at heq
    simpa [solid_append] using heq
  have hperm := perm_of_around (List.Perm.of_eq (List.append_inj' (List.append_cancel_right hsplit) rfl).1)
  exact not_perm_of_two h.indentOf_header h.deeper (indentOf_callLine hhead) indentOf_headerLine hdeep hperm.symm

theorem Extracted.unended (h : Extracted starts text start stop funcName out p)
    (hname : lstrip funcName ≠ []) (hpieces : pieces text = lines++tail text)
    (hstop : stop ≤ lines.length) (hout : pieces out = resultLines isWord lines start stop funcName true) :
    text.getLast? ≠ some (ch '\n') := by
  intro hend
  have heq := hout.symm.trans h.produced
  have htail : tail text = [[]] := if_pos (Or.inr hend)
  rw [resultLines,if_pos rfl,hpieces,List.drop_append_of_le_length hstop,htail,
    List.append_cons _ (p.callLine funcName)] at heq
  obtain ⟨_,hlast⟩ := List.append_inj' heq (by simp)
  have hsolid := @callLine_solid isWord lines start stop funcName hname
  have hne : callLine isWord lines start stop funcName ≠ [] := by
    intro hnil
    rw [hnil] at hsolid
    cases hsolid
  have hcount := congrArg (List.count []) hlast
  rw [List.count_cons_of_ne hne,List.count_append,List.count_singleton_self] at hcount
  omega

theorem lstrip_append {a line : PyStr} (h : a.all PyChar.isSpace = true) : lstrip (a++line) = lstrip line :=
  List.dropWhile_append_of_pos (List.all_eq_true.mp h)

theorem find_headerLine (hout : pieces out = resultLines isWord lines start stop funcName true) :
    (pieces out).find? (fun l => !l.all isIndent && !isComment l) =
      some (headerLine isWord lines start stop funcName) := by
  have hcomment : isComment (headerLine isWord lines start stop funcName) = false := by
    simp only [isComment,headerLine,List.append_assoc,lstrip_append (isSpace_detectIndent _)]
    rfl
  rw [hout,resultLines,if_pos rfl,funcLines,List.cons_append,List.cons_append,List.cons_append,
    List.cons_append,List.find?_cons_of_pos]
  rw [headerLine_solid,hcomment]
  rfl

theorem Extracted.unindented (h : Extracted starts text start stop funcName out p)
    (hout : pieces out = resultLines isWord lines start stop funcName true) :
    detectIndent (extracted lines start stop) = [] := by
  rw [← @indentOf_headerLine isWord lines start stop funcName]
  exact h.begins _ (find_headerLine hout)

theorem Extracted.atMargin (h : Extracted starts text start stop funcName out p)
    (hname : lstrip funcName ≠ []) (hpieces : pieces text = lines++tail text)
    (hstart : start-1 ≤ lines.length) (hstop : stop ≤ lines.length)
    (hrange : extracted (pieces text) start stop = extracted lines start stop)
    (hsolid : ∃ line ∈ extracted lines start stop, lstrip line ≠ [])
    (hout : pieces out = resultLines isWord lines start stop funcName true) :
    ∀ line ∈ extracted lines start stop, line.all isIndent = true ∨ indentOf line = [] := by
  have hindent := h.unindented hout
  have heq := congrArg solid (hout.symm.trans h.produced)
  have hbefore := congrArg solid h.outside
  rw [hpieces,List.take_append_of_le_length hstart,solid_append] at hbefore
  rw [resultLines,if_pos rfl,hpieces,List.drop_append_of_le_length hstop] at heq
  simp only [solid_append,solid_cons (callLine_solid hname),solid_callLine hname,solid_empty,solid_nil,
    h.solid_definition,funcLines_solid,hbefore,solid_tail,List.append_nil] at heq
  have hsplit : (headerLine isWord lines start stop funcName::solid (innerLines isWord lines start stop)++
        (solid p.earlier++solid p.later)++[callLine isWord lines start stop funcName])++
        solid (lines.drop stop) =
      (solid p.earlier++(p.header funcName::solid (p.body++p.returning))++solid p.later++
        [p.callLine funcName])++solid (lines.drop stop) := by
    simpa [solid_append] using heq
  have hperm := perm_of_around (List.perm_append_comm.trans
    (List.Perm.of_eq (List.append_inj' (List.append_cancel_right hsplit) rfl).1))
  obtain ⟨_,hinner⟩ := head_of_perm indentOf_headerLine (fun l hl => deeper_inner hl)
    h.indentOf_header h.deeper hperm
  obtain ⟨a,b,ha,hb,_,_,hshift⟩ := h.body
  rw [hrange] at hshift
  have hmoved : ∀ rest, rest.all isIndent = false → b++rest ∈ p.body →
      b++indentOf rest = lit "    " := by
    intro rest hrest hmem
    have hsolid : b++rest ∈ solid (p.body++p.returning) := by
      refine List.mem_filter.mpr ⟨List.mem_append_left _ hmem,?_⟩
      rw [List.all_append,hrest,Bool.and_false]
      rfl
    have hat := indentOf_inner (hinner.mem_iff.mpr hsolid)
    rwa [indentOf_append (all_isSpace hb),hindent,List.nil_append] at hat
  have hfirst : a = [] ∧ b = lit "    " := by
    obtain ⟨hblank,_⟩ | ⟨line,hline,hne,heq⟩ := detectIndent_spec (extracted lines start stop)
    · obtain ⟨line,hline,hne⟩ := hsolid
      exact absurd (hblank line hline) hne
    · obtain hblank | ⟨rest,hrest,rfl,hmem⟩ := mem_range hshift hline
      · obtain ⟨c,hc,hspace⟩ := lstrip_ne_nil.mp hne
        rw [solid_of_mem hc hspace] at hblank
        cases hblank
      · rw [hindent,indentOf_append (all_isSpace ha)] at heq
        obtain ⟨hnil,hat⟩ := List.append_eq_nil_iff.mp heq.symm
        have hindent := hmoved rest hrest hmem
        rw [hat,List.append_nil] at hindent
        exact ⟨hnil,hindent⟩
  obtain ⟨rfl,rfl⟩ := hfirst
  intro line hline
  obtain hblank | ⟨rest,hrest,heq,hmem⟩ := mem_range hshift hline
  · exact Or.inl hblank
  · rw [heq]
    exact Or.inr (List.append_right_eq_self.mp (hmoved rest hrest hmem))

end Produced

end Kept

/-- The definition is asked for in front, the lines end with line feeds and the last one with
nothing, and those of the range that are not blank stand at the left margin. -/
structure Plain (text : PyStr) (start stop : ℕ) (insertBefore : Bool) : Prop where
  before : insertBefore = true
  lfOnly : LfOnly text
  unended : text.getLast? ≠ some (ch '\n')
  atMargin : ∀ line ∈ extracted (pieces text) start stop, line.all isIndent = true ∨ indentOf line = []

theorem resultLines_ne_nil {lines : List PyStr} {start stop : ℕ}
    {funcName : PyStr} {insertBefore : Bool} :
    resultLines isWord lines start stop funcName insertBefore ≠ [] := by
  rw [resultLines]
  split <;> simp

theorem unbroken_of_spaceless {s : PyStr} (h : ∀ c ∈ s, c.isSpace = false) : Unbroken s := by
  intro c hc
  by_contra hbreak
  rw [Bool.not_eq_false] at hbreak
  have hspace := h c hc
  rw [isSpace_of_isLineBreak hbreak] at hspace
  cases hspace

theorem pieces_rebuild {call : ExtractCall} {out : PyStr}
    {parameters returned : List PyStr} (hspace : ∀ c ∈ call.functionName, c.isSpace = false)
    (h : rebuild isWord call text = .ok (parameters,returned,out)) :
    pieces out = resultLines isWord (splitlines text) call.startLine.toNat call.endLine.toNat
      call.functionName call.insertBefore ∧ ∀ piece ∈ pieces out, Unbroken piece := by
  rw [rebuild] at h
  split at h
  · cases h
  · cases h
    have hunbroken := @unbroken_resultLines isWord (splitlines text) call.startLine.toNat
      call.endLine.toNat call.functionName call.insertBefore (unbroken_of_spaceless hspace)
      fun line => unbroken_of_mem_splitlines
    rw [pieces_join resultLines_ne_nil hunbroken]
    exact ⟨rfl,hunbroken⟩

/-- What the tool puts at the top of a file. -/
def partsOf (isWord : PyChar → Bool) (lines : List PyStr) (start stop : ℕ) : Parts where
  earlier := []
  above := []
  outer := []
  parameters := commaJoin (params isWord lines start stop)
  body := (extracted lines start stop).map (bodyLine [])
  returned := match returns isWord lines start stop with
    | [] => none
    | r::rs => some (lit "    ",commaJoin (r::rs))
  below := [[]]
  later := lines.take (start-1)
  indent := []
  target := target isWord lines start stop

section Top

variable {isWord : PyChar → Bool} {lines : List PyStr} {start stop : ℕ} {funcName : PyStr}

theorem partsOf_definition (h : detectIndent (extracted lines start stop) = []) :
    (partsOf isWord lines start stop).definition funcName = funcLines isWord lines start stop funcName++[[]] := by
  have hreturning : (partsOf isWord lines start stop).returning = returnLines isWord lines start stop := by
    rw [Parts.returning,returnLines,partsOf,h]
    cases returns isWord lines start stop <;> rfl
  rw [Parts.definition,hreturning,funcLines,headerLine,h]
  simp [partsOf,Parts.header]

theorem partsOf_callLine (h : detectIndent (extracted lines start stop) = []) :
    (partsOf isWord lines start stop).callLine funcName = callLine isWord lines start stop funcName := by
  rw [Parts.callLine,callLine,h]
  rfl

theorem shifted_body {ls : List PyStr} (h : ∀ line ∈ ls, line.all isIndent = true ∨ indentOf line = []) :
    List.Forall₂ (Shifted [] (lit "    ")) ls (ls.map (bodyLine [])) := by
  rw [List.forall₂_map_right_iff,List.forall₂_same]
  intro line hline
  have hsplit : indentOf line++lstrip line = line := List.takeWhile_append_dropWhile
  rw [bodyLine]
  by_cases hblank : line.all isIndent = true
  · have hstripped : lstrip line = [] := List.dropWhile_eq_nil_iff.mpr fun c hc =>
      isSpace_of_isIndent (List.all_eq_true.mp hblank c hc)
    rw [if_pos hstripped]
    exact .blank hblank rfl
  · have hindent := (h line hline).resolve_left hblank
    rw [hindent,List.nil_append] at hsplit
    rw [hsplit,if_neg (by rintro rfl; exact hblank rfl)]
    exact @Shifted.text [] _ line (Bool.eq_false_iff.mpr hblank)

end Top

theorem extracted_pieces {start stop : ℕ} (h : LfOnly text)
    (hstop : stop ≤ (splitlines text).length) :
    extracted (pieces text) start stop = extracted (splitlines text) start stop := by
  rw [extracted,pieces_eq h,List.take_append_of_le_length hstop,extracted]

section Main

variable {starts : List PyStr → ℕ → Prop} {isWord : PyChar → Bool} {call : ExtractCall} {text : PyStr}
  {start stop : ℕ}

theorem exists_solid
    (hstarts : ∀ lines i line, starts lines i → lines[i]? = some line → isBlank line = false)
    (hstop : stop ≤ lineCount text) {i : ℕ} (hstart : start-1 ≤ i) (hi : i < stop)
    (hstatement : starts (pieces text) i) : ∃ line, (pieces text)[i]? = some line ∧
      line ∈ extracted (pieces text) start stop ∧ lstrip line ≠ [] := by
  have hlength : i < (pieces text).length := by
    rw [lineCount] at hstop
    omega
  have hline := List.getElem?_eq_getElem hlength
  refine ⟨_,hline,?_,?_⟩
  · refine List.mem_of_getElem? (i := i-(start-1)) ?_
    rw [extracted,List.getElem?_drop,Nat.add_sub_cancel' hstart,List.getElem?_take_of_lt hi,hline]
  · have hblank := hstarts _ i _ hstatement hline
    rw [isBlank,List.all_eq_false] at hblank
    obtain ⟨c,hc,hspace⟩ := hblank
    exact lstrip_ne_nil.mpr ⟨c,hc,Bool.eq_false_iff.mpr hspace⟩

theorem Plain.of_extracted {out : PyStr} {p : Parts} {parameters returned : List PyStr}
    (hstarts : ∀ lines i line, starts lines i → lines[i]? = some line → isBlank line = false)
    (hname : call.functionName ≠ []) (hspace : ∀ c ∈ call.functionName, c.isSpace = false)
    (hstop : call.endLine.toNat ≤ lineCount text)
    (hrebuild : rebuild isWord call text = .ok (parameters,returned,out))
    (h : Extracted starts text call.startLine.toNat call.endLine.toNat call.functionName out p) :
    Plain text call.startLine.toNat call.endLine.toNat call.insertBefore := by
  obtain ⟨hout,hunbroken⟩ := pieces_rebuild hspace hrebuild
  have hhead : ∃ c cs, call.functionName = c::cs ∧ c.isSpace = false := by
    obtain ⟨c,cs,heq⟩ := List.exists_cons_of_ne_nil hname
    exact ⟨c,cs,heq,hspace c (heq ▸ List.mem_cons_self)⟩
  have hsolid : lstrip call.functionName ≠ [] := by
    obtain ⟨c,cs,heq,hc⟩ := hhead
    exact lstrip_ne_nil.mpr ⟨c,heq ▸ List.mem_cons_self,hc⟩
  have hlf := h.lfOnly hunbroken
  have hlines := pieces_eq hlf
  have hlength := lineCount_eq hlf ▸ hstop
  have hrange := @extracted_pieces text call.startLine.toNat _ hlf hlength
  obtain ⟨i,_,⟨hfirst,hi,hi',_⟩,_,_⟩ := h.called
  obtain ⟨line,_,hline,hne⟩ := exists_solid hstarts hstop hfirst hi hi'
  rw [hrange] at hline
  have hbefore := h.inserted hhead hlines (by omega) hlength ⟨line,hline,hne⟩ hout
  rw [hbefore] at hout
  exact ⟨hbefore,hlf,h.unended hsolid hlines hlength hout,hrange ▸
    h.atMargin hsolid hlines (by omega) hlength hrange ⟨line,hline,hne⟩ hout⟩

theorem Plain.rebuild_eq (h : Plain text call.startLine.toNat call.endLine.toNat call.insertBefore)
    (hstart : 1 ≤ call.startLine) (hle : call.startLine ≤ call.endLine)
    (hstop : call.endLine.toNat ≤ lineCount text) : ∃ parameters returned out,
      rebuild isWord call text = .ok (parameters,returned,out) := by
  have hlength := lineCount_eq h.lfOnly ▸ hstop
  rw [rebuild,if_neg (by omega)]
  exact ⟨_,_,_,rfl⟩

theorem Plain.kept {out : PyStr} {i : ℕ}
    (hstarts : ∀ lines i line, starts lines i → lines[i]? = some line → isBlank line = false)
    (h : Plain text start stop true) (hstart : start-1 ≤ stop) (hstop : stop ≤ lineCount text)
    (hfirst : FirstStatement starts (pieces text) start stop i) {funcName : PyStr}
    (hout : pieces out = resultLines isWord (splitlines text) start stop funcName true) :
    Extracted starts text start stop funcName out (partsOf isWord (splitlines text) start stop) := by
  have hlines := pieces_eq h.lfOnly
  have hlength := lineCount_eq h.lfOnly ▸ hstop
  have hrange := @extracted_pieces text start _ h.lfOnly hlength
  obtain ⟨line,hi,hline,hne⟩ := exists_solid hstarts hstop hfirst.1 hfirst.2.1 hfirst.2.2.1
  have hatMargin := h.atMargin
  have hat : ∀ l ∈ extracted (pieces text) start stop, lstrip l ≠ [] → indentOf l = [] := by
    intro l hl hsolid
    obtain hblank | hat := hatMargin l hl
    · obtain ⟨c,hc,hspace⟩ := lstrip_ne_nil.mp hsolid
      rw [solid_of_mem hc hspace] at hblank
      cases hblank
    · exact hat
  have hindent : detectIndent (extracted (splitlines text) start stop) = [] := by
    rw [← hrange]
    obtain ⟨hblank,_⟩ | ⟨l,hl,hsolid,heq⟩ := detectIndent_spec (extracted (pieces text) start stop)
    · exact absurd (hblank line hline) hne
    · rw [heq]
      exact hat l hl hsolid
  rw [hrange] at hatMargin
  have hdrop : (pieces text).drop stop = (splitlines text).drop stop := by
    have htail : tail text = [] := by
      refine if_neg ?_
      rintro (rfl | hend)
      · have hnone : lineCount [] = 0 := rfl
        have hlt := hfirst.2.1
        omega
      · exact h.unended hend
    rw [hlines,htail,List.append_nil]
  constructor
  case outside => rw [hlines,List.take_append_of_le_length (hstart.trans hlength)]; rfl
  case produced =>
    rw [hout,resultLines,if_pos rfl,partsOf_definition hindent,partsOf_callLine hindent,hdrop]
    rfl
  case margin =>
    intro l hl
    obtain rfl := List.mem_singleton.mp hl
    rfl
  case outer => rfl
  case body =>
    have hne : [] ≠ lit "    " := by decide
    exact ⟨[],lit "    ",rfl,by decide,List.nil_prefix,hne,hrange ▸ shifted_body hatMargin⟩
  case returned =>
    intro r hr
    simp only [partsOf] at hr
    split at hr
    · cases hr
    · cases hr
      have hfour : (lit "    ").all PyChar.isSpace = true ∧ lit "    " ≠ [] := by decide
      exact hfour
  case called => exact ⟨i,line,hfirst,hi,(hat line hline hne).symm⟩
  case encloses => exact fun _ _ _ _ _ _ => List.nil_prefix
  case begins =>
    intro l hl
    obtain rfl := Option.some.inj ((find_headerLine hout).symm.trans hl)
    rw [indentOf_headerLine,hindent]

theorem exists_firstStatement {lines : List PyStr}
    (h : ∃ i, start-1 ≤ i ∧ i < stop ∧ starts lines i) : ∃ i, FirstStatement starts lines start stop i := by
  classical
  obtain ⟨hfirst,hlast,hstarts⟩ := Nat.find_spec h
  refine ⟨Nat.find h,hfirst,hlast,hstarts,fun j hj hlt hstarts' => ?_⟩
  exact Nat.find_min h hlt ⟨hj,hlt.trans hlast,hstarts'⟩

/-- The structure of the file is kept exactly when the definition is asked for in front of the
call, the file has no line breaks but line feeds and none at its end, and no line of the range
is indented. -/
theorem keepsStructure_iff
    (hstarts : ∀ lines i line, starts lines i → lines[i]? = some line → isBlank line = false)
    (hname : call.functionName ≠ []) (hspace : ∀ c ∈ call.functionName, c.isSpace = false)
    (hstart : 1 ≤ call.startLine) (hle : call.startLine ≤ call.endLine)
    (hstop : call.endLine ≤ lineCount text)
    (hstatement : ∃ i, call.startLine.toNat-1 ≤ i ∧ i < call.endLine.toNat ∧ starts (pieces text) i) :
    KeepsStructure starts isWord call text ↔
      Plain text call.startLine.toNat call.endLine.toNat call.insertBefore := by
  have hstop' : call.endLine.toNat ≤ lineCount text := by omega
  constructor
  · rintro ⟨parameters,returned,out,p,hrebuild,h⟩
    exact .of_extracted hstarts hname hspace hstop' hrebuild h
  · intro h
    obtain ⟨parameters,returned,out,hrebuild⟩ := @Plain.rebuild_eq isWord _ _ h hstart hle hstop'
    obtain ⟨hout,_⟩ := pieces_rebuild hspace hrebuild
    obtain ⟨i,hfirst⟩ := exists_firstStatement hstatement
    have hbefore := h.before
    rw [hbefore] at h hout
    exact ⟨parameters,returned,out,_,hrebuild,h.kept hstarts (by omega) hstop' hfirst hout⟩

end Main

/-- Where no statement goes over more than one line. -/
def LineStarts (lines : List PyStr) (i : ℕ) : Prop :=
  ∃ line, lines[i]? = some line ∧ isBlank line = false ∧ isComment line = false

theorem lineStarts_solid (lines : List PyStr) (i : ℕ) (line : PyStr) (h : LineStarts lines i)
    (hline : lines[i]? = some line) : isBlank line = false := by
  obtain ⟨l,hl,hblank,_⟩ := h
  obtain rfl := Option.some.inj (hl.symm.trans hline)
  exact hblank

/-- The second line is to become a function. -/
def secondLine (insertBefore : Bool) : ExtractCall :=
  ⟨lit "m.py",2,2,lit "f",false,insertBefore⟩

def asciiWord (c : PyChar) : Bool := startsName c || (48 ≤ c.code && c.code ≤ 57)

theorem keepsStructure_secondLine :
    KeepsStructure LineStarts asciiWord (secondLine true) (lit "x=1\nprint(x)") :=
  (keepsStructure_iff lineStarts_solid (by decide) (by decide) (by decide) (by decide) (by decide)
    ⟨1,by decide,by decide,lit "print(x)",by decide,by decide,by decide⟩).mpr
    ⟨rfl,by decide,by decide,by decide⟩

/-- By default the function is called before it is defined. -/
theorem definition_behind_call :
    ¬ KeepsStructure LineStarts asciiWord (secondLine false) (lit "x=1\nprint(x)\n") := by
  rintro ⟨parameters,returned,out,p,hrebuild,h⟩
  have hplain := Plain.of_extracted lineStarts_solid (by decide) (by decide) (by decide) hrebuild h
  exact absurd hplain.before (by decide)

end MinimaxCode.ExtractFunction
