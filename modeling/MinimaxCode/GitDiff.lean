import MinimaxCode.UnifiedDiff

/-!
# Patches as git prints and applies them

A file diff says what happens to one file: its path, what kind of change it is, and
the hunks. `git diff` prints a list of them, with the path names in quotes where
they hold special characters. `git apply` reads a patch by its extended header, its
labels, and the line counts of its hunk headers.
-/

namespace MinimaxCode.GitDiff

open PyText PyJson SplitLines UnifiedDiff

inductive FileMode
  | regular
  | executable
  | symlink
  deriving DecidableEq

def FileMode.text : FileMode → PyStr
  | .regular => lit "100644"
  | .executable => lit "100755"
  | .symlink => lit "120000"

/-- A path below the top of the work tree. -/
structure GitPath where
  chars : List Char
  nonempty : chars ≠ []
  relative : chars.head? ≠ some '/'
  deriving DecidableEq

def GitPath.text (p : GitPath) : PyStr := p.chars.map .scalar

inductive EditKind
  | context
  | delete
  | add
  deriving DecidableEq

/-- A line of a hunk, and whether it is a last line without a line feed. -/
structure Edit where
  kind : EditKind
  content : PyStr
  noNewline : Bool
  deriving DecidableEq

/-- A line as files have it: line feeds end lines, so a line holds none. -/
structure Line extends Edit where
  one_line : ch '\n' ∉ content
  deriving DecidableEq

/-- The positions are machine integers. -/
structure Hunk where
  oldStart : ℕ
  newStart : ℕ
  heading : PyStr
  lines : List Line
  old_long : oldStart < 2^63
  new_long : newStart < 2^63
  one_line : ch '\n' ∉ heading
  deriving DecidableEq

inductive Change
  | modified (modes : Option (FileMode × FileMode))
  | added (mode : FileMode)
  | deleted (mode : FileMode)
  | renamed (source : GitPath) (similarity : ℕ) (modes : Option (FileMode × FileMode))
  deriving DecidableEq

/-- The object names of the two contents, abbreviated, and the mode they share. -/
structure IndexLine where
  old : List (Fin 16)
  new : List (Fin 16)
  mode : Option FileMode
  deriving DecidableEq

structure FileDiff where
  path : GitPath
  change : Change
  index : Option IndexLine
  hunks : List Hunk
  moved : ∀ source similarity modes, change = .renamed source similarity modes → source ≠ path

def FileDiff.oldPath (f : FileDiff) : GitPath :=
  match f.change with
  | .renamed source _ _ => source
  | _ => f.path

section quotes

variable (quotePath : Bool)

/-- The characters a path name is quoted for; `core.quotePath` adds those beyond ASCII. -/
def special (c : Char) : Bool :=
  c.toNat < 0x20 || c.toNat == 0x22 || c.toNat == 0x5C || c.toNat == 0x7F ||
    (quotePath && 0x80 ≤ c.toNat)

/-- The special characters with a letter of their own. -/
def escapeLetters : List (ℕ × Char) :=
  [(7,'a'),(8,'b'),(9,'t'),(10,'n'),(11,'v'),(12,'f'),(13,'r'),(34,'"'),(92,'\\')]

def octal (b : UInt8) : PyStr :=
  ch '\\'::[b.toNat/64,b.toNat/8%8,b.toNat%8].map digitText

def escape (c : Char) : PyStr :=
  if special quotePath c then
    match escapeLetters.lookup c.toNat with
    | some letter => [ch '\\',ch letter]
    | none => (String.utf8EncodeChar c).flatMap octal
  else [.scalar c]

def needsQuotes (p : GitPath) : Bool := p.chars.any (special quotePath)

/-- A path name under a prefix, in quotes where it holds a special character. -/
def quoted (pre : String) (p : GitPath) : PyStr :=
  if needsQuotes quotePath p then
    lit "\""++lit pre++p.chars.flatMap (escape quotePath)++lit "\""
  else lit pre++p.text

/-- A name behind `---` or `+++`. A tab ends one that holds a space. -/
def label (pre : String) (p : GitPath) : PyStr :=
  quoted quotePath pre p++(if ch ' ' ∈ quoted quotePath pre p then lit "\t" else [])

end quotes

def EditKind.text : EditKind → PyStr
  | .context => lit " "
  | .delete => lit "-"
  | .add => lit "+"

def noNewlineMark : PyStr := lit "\\ No newline at end of file"

def Edit.text (e : Edit) : PyStr := e.kind.text++e.content

def Line.print (l : Line) : List PyStr :=
  l.text::(if l.noNewline then [noNewlineMark] else [])

/-- How many lines of the old file a line of a hunk stands for. -/
def EditKind.oldLines (k : EditKind) : ℕ := if k = .add then 0 else 1

def EditKind.newLines (k : EditKind) : ℕ := if k = .delete then 0 else 1

def oldCount (ls : List Line) : ℕ := (ls.map fun l => l.kind.oldLines).sum

def newCount (ls : List Line) : ℕ := (ls.map fun l => l.kind.newLines).sum

def rangeText (start count : ℕ) : PyStr :=
  natText start++(if count = 1 then [] else lit ","++natText count)

def Hunk.headerText (h : Hunk) : PyStr :=
  lit "@@ -"++rangeText h.oldStart (oldCount h.lines)++lit " +"++
    rangeText h.newStart (newCount h.lines)++lit " @@"++
    (if h.heading = [] then [] else lit " "++h.heading)

def Hunk.print (h : Hunk) : List PyStr := h.headerText::h.lines.flatMap Line.print

def modeLines : Option (FileMode × FileMode) → List PyStr
  | none => []
  | some (old,new) => [lit "old mode "++old.text,lit "new mode "++new.text]

def IndexLine.print (i : IndexLine) : PyStr :=
  lit "index "++hex i.old++lit ".."++hex i.new++((i.mode.map fun m => lit " "++m.text).getD [])
where
  hex (name : List (Fin 16)) : PyStr := name.map fun d : Fin 16 => digitText d.val

section print

variable (quotePath : Bool)

/-- The lines of the extended header. -/
def FileDiff.extended (f : FileDiff) : List PyStr :=
  match f.change with
  | .modified modes => modeLines modes
  | .added mode => [lit "new file mode "++mode.text]
  | .deleted mode => [lit "deleted file mode "++mode.text]
  | .renamed source similarity modes =>
    modeLines modes++[lit "similarity index "++natText similarity++lit "%",
      lit "rename from "++quoted quotePath "" source,
      lit "rename to "++quoted quotePath "" f.path]

def FileDiff.oldLabel (f : FileDiff) : PyStr :=
  match f.change with
  | .added _ => devNull
  | _ => label quotePath "a/" f.oldPath

def FileDiff.newLabel (f : FileDiff) : PyStr :=
  match f.change with
  | .deleted _ => devNull
  | _ => label quotePath "b/" f.path

/-- The labels stand only before hunks. -/
def FileDiff.labels (f : FileDiff) : List PyStr :=
  if f.hunks = [] then []
  else [lit "--- "++f.oldLabel quotePath,lit "+++ "++f.newLabel quotePath]

def FileDiff.gitLine (f : FileDiff) : PyStr :=
  lit "diff --git "++quoted quotePath "a/" f.oldPath++lit " "++quoted quotePath "b/" f.path

def FileDiff.headers (f : FileDiff) : List PyStr :=
  f.extended quotePath++f.index.toList.map IndexLine.print++f.labels quotePath

def FileDiff.print (f : FileDiff) : List PyStr :=
  f.gitLine quotePath::(f.headers quotePath++f.hunks.flatMap Hunk.print)

/-- The text of `git diff`. -/
def printDiff (fs : List FileDiff) : PyStr := unlines (fs.flatMap (·.print quotePath))

end print

structure HunkEffect where
  oldStart : ℕ
  newStart : ℕ
  edits : List Edit
  deriving DecidableEq

/-- A patch without an old name creates the file, one without a new name deletes it. -/
structure Effect where
  oldName : Option PyStr
  newName : Option PyStr
  oldMode : Option PyStr
  newMode : Option PyStr
  hunks : List HunkEffect
  deriving DecidableEq

def Hunk.effect (h : Hunk) : HunkEffect := ⟨h.oldStart,h.newStart,h.lines.map Line.toEdit⟩

def FileDiff.effect (f : FileDiff) : Effect :=
  let hunks := f.hunks.map Hunk.effect
  match f.change with
  | .modified modes =>
    ⟨some f.path.text,some f.path.text,modes.map (·.1.text),modes.map (·.2.text),hunks⟩
  | .added mode => ⟨none,some f.path.text,none,some mode.text,hunks⟩
  | .deleted mode => ⟨some f.path.text,none,some mode.text,none,hunks⟩
  | .renamed source _ modes =>
    ⟨some source.text,some f.path.text,modes.map (·.1.text),modes.map (·.2.text),hunks⟩

/-- What a hunk alone does to a file that stays where it is. -/
def FileDiff.hunkEffect (f : FileDiff) (h : Hunk) : Effect :=
  ⟨some f.path.text,some f.path.text,none,none,[h.effect]⟩

/-- The lines of a patch, each with whether the mark of a missing line feed follows. -/
def markLines : List PyStr → List (PyStr × Bool)
  | [] => []
  | [l] => [(l,false)]
  | l::next::rest =>
    if startsWith next "\\ " then (l,true)::markLines rest else (l,false)::markLines (next::rest)

def gitLines (text : PyStr) : List PyStr :=
  let pieces := splitOn (ch '\n') text
  if pieces.getLast? = some [] then pieces.dropLast else pieces

/-- A name is read up to a tab. Quoted names are not read here. -/
def plainName (text : PyStr) : Option PyStr :=
  let name := text.takeWhile fun c => c ≠ ch '\t'
  if startsWith name "\"" then none else some name

/-- The name behind the first slash of a label. -/
def labelName (text : PyStr) : Option PyStr := do
  let name ← plainName text
  if ch '/' ∈ name then some ((name.dropWhile fun c => c ≠ ch '/').drop 1) else none

structure PatchHeader where
  created : Bool
  deleted : Bool
  oldName : Option PyStr
  newName : Option PyStr
  oldMode : Option PyStr
  newMode : Option PyStr
  deriving DecidableEq

/-- A second name must be the first one again. -/
def agree (known name : Option PyStr) : Option (Option PyStr) :=
  if name ≠ none ∧ (known = none ∨ known = name) then some name else none

def readHeaderLine (h : PatchHeader) (raw : PyStr) : Option PatchHeader :=
  if startsWith raw "old mode " then some { h with oldMode := some (raw.drop 9) }
  else if startsWith raw "new mode " then some { h with newMode := some (raw.drop 9) }
  else if startsWith raw "new file mode " then
    some { h with created := true, newMode := some (raw.drop 14) }
  else if startsWith raw "deleted file mode " then
    some { h with deleted := true, oldMode := some (raw.drop 18) }
  else if startsWith raw "rename from " then
    (agree h.oldName (plainName (raw.drop 12))).map fun name => { h with oldName := name }
  else if startsWith raw "rename to " then
    (agree h.newName (plainName (raw.drop 10))).map fun name => { h with newName := name }
  else if startsWith raw "similarity index " || startsWith raw "index " then some h
  else if startsWith raw "--- " then
    if h.created then (if raw.drop 4 = devNull then some h else none)
    else (agree h.oldName (labelName (raw.drop 4))).map fun name => { h with oldName := name }
  else if startsWith raw "+++ " then
    if h.deleted then (if raw.drop 4 = devNull then some h else none)
    else (agree h.newName (labelName (raw.drop 4))).map fun name => { h with newName := name }
  else none

/-- The header so far, the lines the open hunk still has to come, and the hunks. -/
structure Reader where
  header : PatchHeader
  oldLeft : ℕ
  newLeft : ℕ
  hunks : List HunkEffect
  deriving DecidableEq

def readEdit (raw : PyStr) (mark : Bool) : Option Edit :=
  match raw with
  | [] => some ⟨.context,[],mark⟩
  | c::content =>
    if c = ch ' ' then some ⟨.context,content,mark⟩
    else if c = ch '-' then some ⟨.delete,content,mark⟩
    else if c = ch '+' then some ⟨.add,content,mark⟩
    else none

def HunkEffect.addEdit (e : Edit) (h : HunkEffect) : HunkEffect := { h with edits := h.edits++[e] }

/-- The counts of the hunk header say how many lines belong to the hunk. -/
def Reader.addEdit (r : Reader) (e : Edit) : Option Reader :=
  if e.kind.oldLines ≤ r.oldLeft ∧ e.kind.newLines ≤ r.newLeft then
    some { r with
      oldLeft := r.oldLeft-e.kind.oldLines
      newLeft := r.newLeft-e.kind.newLines
      hunks := r.hunks.modifyLast (·.addEdit e) }
  else none

def Reader.step (r : Reader) (raw : PyStr × Bool) : Option Reader :=
  if r.oldLeft ≠ 0 ∨ r.newLeft ≠ 0 then (readEdit raw.1 raw.2).bind r.addEdit
  else match hunkRe (fun _ => none) raw.1 with
    | some h =>
      some { r with
        oldLeft := h.oldLines
        newLeft := h.newLines
        hunks := r.hunks++[⟨h.oldStart,h.newStart,[]⟩] }
    | none =>
      if r.hunks = [] then (readHeaderLine r.header raw.1).map fun h => { r with header := h }
      else none

def Reader.finish (r : Reader) : Option Effect :=
  let h := r.header
  if r.oldLeft = 0 ∧ r.newLeft = 0 ∧ (h.created ∨ h.oldName ≠ none) ∧ (h.deleted ∨ h.newName ≠ none)
  then some ⟨h.oldName,h.newName,h.oldMode,h.newMode,r.hunks⟩ else none

def Reader.init : Reader := ⟨⟨false,false,none,none,none,none⟩,0,0,[]⟩

/-- What `git apply` makes of a patch of one file with labels. -/
def readPatch (text : PyStr) : Option Effect :=
  match markLines (gitLines text) with
  | [] => none
  | first::rest =>
    if startsWith first.1 "diff --git " then
      (rest.foldlM Reader.step Reader.init).bind Reader.finish
    else none

theorem gitLines_unlines {lines : List PyStr} (h : ∀ line ∈ lines, ch '\n' ∉ line) :
    gitLines (unlines lines) = lines := by
  simp [gitLines,splitOn_unlines h]

/-- A line with the mark behind it, where it has one. -/
def withMark (line : PyStr × Bool) : List PyStr :=
  line.1::(if line.2 then [noNewlineMark] else [])

theorem markLines_withMark {lines : List (PyStr × Bool)}
    (h : ∀ line ∈ lines, startsWith line.1 "\\ " = false) :
    markLines (lines.flatMap withMark) = lines := by
  have hmark : startsWith noNewlineMark "\\ " = true := by decide
  induction lines with
  | nil => rfl
  | cons line lines ih =>
    have ih := ih fun l hl => h l (List.mem_cons_of_mem _ hl)
    obtain ⟨text,mark⟩ := line
    cases mark with
    | true => simp [withMark,markLines,hmark,ih]
    | false =>
      cases lines with
      | nil => simp [withMark,markLines]
      | cons next lines =>
        have hnext := h next (by simp)
        simp only [List.flatMap_cons,withMark,List.cons_append] at ih ⊢
        simp [markLines,hnext,ih]

def Line.marked (l : Line) : PyStr × Bool := (l.text,l.noNewline)

def Hunk.marked (h : Hunk) : List (PyStr × Bool) := (h.headerText,false)::h.lines.map Line.marked

theorem withMark_marked (h : Hunk) : h.marked.flatMap withMark = h.print := by
  have hline : ∀ l : Line, withMark l.marked = l.print := fun _ => rfl
  rw [Hunk.marked,List.flatMap_cons,List.flatMap_map]
  simp only [hline]
  rfl

@[simp] theorem readEdit_text (e : Edit) (mark : Bool) :
    readEdit e.text mark = some { e with noNewline := mark } := by
  obtain ⟨kind,content,noNewline⟩ := e
  cases kind with
  | context => rfl
  | delete => rfl
  | add => rfl

theorem read_lines (hd : PatchHeader) (hs : List HunkEffect) (hk : HunkEffect) (ls : List Line) :
    (ls.map Line.marked).foldlM Reader.step ⟨hd,oldCount ls,newCount ls,hs++[hk]⟩ =
      some ⟨hd,0,0,hs++[{ hk with edits := hk.edits++ls.map Line.toEdit }]⟩ := by
  induction ls generalizing hk with
  | nil => simp [oldCount,newCount]
  | cons l ls ih =>
    have hleft : oldCount (l::ls) ≠ 0 ∨ newCount (l::ls) ≠ 0 := by
      cases hk : l.kind <;> simp [oldCount,newCount,hk,EditKind.oldLines,EditKind.newLines]
    have hstep : Reader.step ⟨hd,oldCount (l::ls),newCount (l::ls),hs++[hk]⟩ l.marked =
        some ⟨hd,oldCount ls,newCount ls,hs++[hk.addEdit l.toEdit]⟩ := by
      rw [Reader.step,if_pos hleft]
      simp [Line.marked,Reader.addEdit,oldCount,newCount,List.modifyLast_concat]
    rw [List.map_cons,List.foldlM_cons,hstep]
    simpa [HunkEffect.addEdit] using ih (hk.addEdit l.toEdit)

theorem headerText_eq (h : Hunk) (lines : List DiffLine) :
    h.headerText = hunkHeader
      ⟨h.oldStart,oldCount h.lines,h.newStart,newCount h.lines,h.heading,lines⟩ := by
  have hrange : ∀ start count, rangeText start count = formatRange start count := by
    intro start count
    rw [rangeText,formatRange]
    split <;> simp
  simp [Hunk.headerText,hunkHeader,hrange]

theorem read_hunk (hd : PatchHeader) (hs : List HunkEffect) (h : Hunk) :
    h.marked.foldlM Reader.step ⟨hd,0,0,hs⟩ = some ⟨hd,0,0,hs++[h.effect]⟩ := by
  have hstep : Reader.step ⟨hd,0,0,hs⟩ (h.headerText,false) =
      some ⟨hd,oldCount h.lines,newCount h.lines,hs++[⟨h.oldStart,h.newStart,[]⟩]⟩ := by
    simp [Reader.step,headerText_eq h [],hunkRe_hunkHeader]
  rw [Hunk.marked,List.foldlM_cons,hstep]
  exact read_lines hd hs ⟨h.oldStart,h.newStart,[]⟩ h.lines

theorem read_hunks (hd : PatchHeader) (hs : List HunkEffect) (hunks : List Hunk) :
    (hunks.flatMap Hunk.marked).foldlM Reader.step ⟨hd,0,0,hs⟩ =
      some ⟨hd,0,0,hs++hunks.map Hunk.effect⟩ := by
  induction hunks generalizing hs with
  | nil => simp
  | cons h hunks ih =>
    rw [List.flatMap_cons,List.foldlM_append,read_hunk]
    simpa using ih (hs++[h.effect])

theorem no_mark_of_marked {h : Hunk} {line : PyStr × Bool} (hline : line ∈ h.marked) :
    startsWith line.1 "\\ " = false := by
  obtain rfl | hline := List.mem_cons.mp hline
  · simp [Hunk.headerText,startsWith,lit,List.isPrefixOf]
  · obtain ⟨l,_,rfl⟩ := List.mem_map.mp hline
    cases hkind : l.kind <;> simp [Line.marked,Edit.text,hkind,EditKind.text,startsWith,lit,List.isPrefixOf]

theorem readPatch_hunks {first : PyStr} {header : List PyStr} {hunks : List Hunk} {hd : PatchHeader}
    (hfirst : startsWith first "diff --git " = true)
    (hlf : ∀ line ∈ first::header++hunks.flatMap Hunk.print, ch '\n' ∉ line)
    (hmark : ∀ line ∈ first::header, startsWith line "\\ " = false)
    (hread : (header.map (·,false)).foldlM Reader.step Reader.init = some ⟨hd,0,0,[]⟩)
    (hold : hd.created ∨ hd.oldName ≠ none) (hnew : hd.deleted ∨ hd.newName ≠ none) :
    readPatch (unlines (first::header++hunks.flatMap Hunk.print)) =
      some ⟨hd.oldName,hd.newName,hd.oldMode,hd.newMode,hunks.map Hunk.effect⟩ := by
  have hlines : first::header++hunks.flatMap Hunk.print =
      (((first::header).map (·,false))++hunks.flatMap Hunk.marked).flatMap withMark := by
    simp [withMark,List.flatMap_append,List.flatMap_assoc,withMark_marked,List.flatMap_map]
  have hmarks : markLines (gitLines (unlines (first::header++hunks.flatMap Hunk.print))) =
      (first,false)::(header.map (·,false)++hunks.flatMap Hunk.marked) := by
    rw [gitLines_unlines hlf,hlines,markLines_withMark]
    · rfl
    · intro line hline
      obtain hline | hline := List.mem_append.mp hline
      · obtain ⟨text,htext,rfl⟩ := List.mem_map.mp hline
        exact hmark text htext
      · obtain ⟨h,_,hline⟩ := List.mem_flatMap.mp hline
        exact no_mark_of_marked hline
  rw [readPatch,hmarks]
  simp only [hfirst,if_true,List.foldlM_append,hread]
  have hhunks := read_hunks hd [] hunks
  simp only [List.nil_append] at hhunks
  simp [hhunks,Reader.finish,hold,hnew]

theorem readHeaderLine_minus (hd : PatchHeader) (label : PyStr) (h : hd.created = false) :
    readHeaderLine hd (lit "--- "++label) =
      (agree hd.oldName (labelName label)).map fun name => { hd with oldName := name } := by
  simp [readHeaderLine,startsWith,lit,List.isPrefixOf,h]

theorem readHeaderLine_plus (hd : PatchHeader) (label : PyStr) (h : hd.deleted = false) :
    readHeaderLine hd (lit "+++ "++label) =
      (agree hd.newName (labelName label)).map fun name => { hd with newName := name } := by
  simp [readHeaderLine,startsWith,lit,List.isPrefixOf,h]

theorem step_minus (hd : PatchHeader) (mark : Bool) (label : PyStr) (h : hd.created = false) :
    Reader.step ⟨hd,0,0,[]⟩ (lit "--- "++label,mark) =
      (agree hd.oldName (labelName label)).map fun name => ⟨{ hd with oldName := name },0,0,[]⟩ := by
  have hhunk : hunkRe (fun _ => none) (lit "--- "++label) = none := by
    simp [hunkRe,lit,List.isPrefixOf?]
  simp [Reader.step,hhunk,readHeaderLine_minus hd label h,Function.comp_def]

theorem step_plus (hd : PatchHeader) (mark : Bool) (label : PyStr) (h : hd.deleted = false) :
    Reader.step ⟨hd,0,0,[]⟩ (lit "+++ "++label,mark) =
      (agree hd.newName (labelName label)).map fun name => ⟨{ hd with newName := name },0,0,[]⟩ := by
  have hhunk : hunkRe (fun _ => none) (lit "+++ "++label) = none := by
    simp [hunkRe,lit,List.isPrefixOf?]
  simp [Reader.step,hhunk,readHeaderLine_plus hd label h,Function.comp_def]

theorem step_keeps {r r' : Reader} {raw : PyStr × Bool} (h : r.step raw = some r')
    (hhunks : r.hunks ≠ []) : r'.header = r.header ∧ r'.hunks ≠ [] := by
  revert h
  fun_cases Reader.step r raw with
  | case1 =>
    intro h
    obtain ⟨e,_,hadd⟩ := Option.bind_eq_some_iff.mp h
    revert hadd
    fun_cases Reader.addEdit r e with
    | case1 =>
      rintro ⟨⟩
      obtain ⟨hunks,last,hlast⟩ := (List.eq_nil_or_concat r.hunks).resolve_left hhunks
      rw [List.concat_eq_append] at hlast
      exact ⟨rfl,by simp [hlast,List.modifyLast_concat]⟩
    | case2 => rintro ⟨⟩
  | case2 => rintro ⟨⟩; exact ⟨rfl,by simp⟩
  | case3 _ _ hnil => exact absurd hnil hhunks
  | case4 => rintro ⟨⟩

theorem run_keeps {r r' : Reader} {lines : List (PyStr × Bool)}
    (h : lines.foldlM Reader.step r = some r') (hhunks : r.hunks ≠ []) : r'.header = r.header := by
  induction lines generalizing r with
  | nil => cases h; rfl
  | cons line lines ih =>
    rw [List.foldlM_cons] at h
    obtain ⟨s,hs,hrest⟩ := Option.bind_eq_some_iff.mp h
    obtain ⟨hheader,hhunks'⟩ := step_keeps hs hhunks
    rw [ih hrest hhunks',hheader]

theorem markLines_cons {line next : PyStr} (h : startsWith next "\\ " = false) (rest : List PyStr) :
    markLines (line::next::rest) = (line,false)::markLines (next::rest) := by
  simp [markLines,h]

theorem markLines_head (line : PyStr) (rest : List PyStr) :
    ∃ mark marked, markLines (line::rest) = (line,mark)::marked := by
  cases rest with
  | nil => exact ⟨_,_,rfl⟩
  | cons next rest =>
    rw [markLines]
    split
    · exact ⟨_,_,rfl⟩
    · exact ⟨_,_,rfl⟩

theorem agree_none {name known : Option PyStr} (h : agree none name = some known) : known ≠ none := by
  revert h
  fun_cases agree none name with
  | case1 hname => rintro ⟨⟩; exact hname.1
  | case2 => rintro ⟨⟩

theorem read_labels {first oldLabel newLabel : PyStr} {hunk : DiffHunk} {rest : List PyStr}
    {e : Effect}
    (hlf : ∀ line ∈ first::(lit "--- "++oldLabel)::(lit "+++ "++newLabel)::hunkHeader hunk::rest,
      ch '\n' ∉ line)
    (h : readPatch (unlines (first::(lit "--- "++oldLabel)::(lit "+++ "++newLabel)::
      hunkHeader hunk::rest)) = some e) :
    e.oldName ≠ none ∧ e.newName ≠ none ∧ e.oldMode = none ∧ e.newMode = none := by
  have hminus : startsWith (lit "--- "++oldLabel) "\\ " = false := by
    simp [startsWith,lit,List.isPrefixOf]
  have hplus : startsWith (lit "+++ "++newLabel) "\\ " = false := by
    simp [startsWith,lit,List.isPrefixOf]
  have hhunk : startsWith (hunkHeader hunk) "\\ " = false := by
    simp [hunkHeader,startsWith,lit,List.isPrefixOf]
  obtain ⟨mark,marked,hmarked⟩ := markLines_head (hunkHeader hunk) rest
  have hopen : ∀ hd, Reader.step ⟨hd,0,0,[]⟩ (hunkHeader hunk,mark) =
      some ⟨hd,hunk.oldLines,hunk.newLines,[⟨hunk.oldStart,hunk.newStart,[]⟩]⟩ := by
    simp [Reader.step,hunkRe_hunkHeader]
  rw [readPatch,gitLines_unlines hlf,markLines_cons hminus,markLines_cons hplus,markLines_cons hhunk,
    hmarked] at h
  dsimp only at h
  split at h
  case isFalse => simp at h
  case isTrue =>
    simp only [List.foldlM_cons,Option.bind_eq_bind] at h
    obtain ⟨r,hrun,hfinish⟩ := Option.bind_eq_some_iff.mp h
    obtain ⟨r₁,h₁,hrun⟩ := Option.bind_eq_some_iff.mp hrun
    obtain ⟨old,hold,rfl⟩ := Option.map_eq_some_iff.mp ((step_minus _ _ _ rfl).symm.trans h₁)
    obtain ⟨r₂,h₂,hrun⟩ := Option.bind_eq_some_iff.mp hrun
    obtain ⟨new,hnew,rfl⟩ := Option.map_eq_some_iff.mp ((step_plus _ _ _ rfl).symm.trans h₂)
    obtain ⟨r₃,h₃,hrun⟩ := Option.bind_eq_some_iff.mp hrun
    obtain rfl := Option.some.inj ((hopen _).symm.trans h₃)
    have hkeep := run_keeps hrun (by simp)
    rw [Reader.finish,hkeep] at hfinish
    split at hfinish
    · obtain rfl := Option.some.inj hfinish
      exact ⟨agree_none hold,agree_none hnew,rfl,rfl⟩
    · cases hfinish

end MinimaxCode.GitDiff
