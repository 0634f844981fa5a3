import MinimaxCode.JsonText
import MinimaxCode.SplitLines
import Mathlib.Data.List.ModifyLast

/-!
# The patch preview

`parse_unified_diff` turns the text of `git diff` into records of files, hunks and
lines, going by the prefix of each line. `_single_hunk_patch` and `_full_file_patch`
write such records as patches for `git apply`.
-/

namespace MinimaxCode.UnifiedDiff

open PyText PyJson SplitLines

inductive LineKind
  | add
  | delete
  | context
  | metaLine
  deriving DecidableEq

structure DiffLine where
  kind : LineKind
  oldLine : Option ℕ
  newLine : Option ℕ
  content : PyStr
  deriving DecidableEq

structure DiffHunk where
  oldStart : ℕ
  oldLines : ℕ
  newStart : ℕ
  newLines : ℕ
  header : PyStr
  lines : List DiffLine
  deriving DecidableEq

inductive FileStatus
  | modified
  | added
  | deleted
  | renamed
  deriving DecidableEq

structure DiffFile where
  oldPath : PyStr
  newPath : PyStr
  path : PyStr
  status : FileStatus
  additions : ℕ
  deletions : ℕ
  binary : Bool
  hunks : List DiffHunk
  deriving DecidableEq

structure DiffStats where
  files : ℕ
  additions : ℕ
  deletions : ℕ
  deriving DecidableEq

structure ParsedDiff where
  files : List DiffFile
  stats : DiffStats
  deriving DecidableEq

def devNull : PyStr := lit "/dev/null"

/-- `raw.startswith(pre)`. -/
def startsWith (raw : PyStr) (pre : String) : Bool := (lit pre).isPrefixOf raw

def stripPrefix (path : PyStr) : PyStr :=
  if path = devNull then path
  else if startsWith path "a/" || startsWith path "b/" then path.drop 2
  else path

section hunkRe

variable (decimal : PyChar → Option ℕ)

/-- The value of a digit, where `decimal` knows those that are not ASCII ones. -/
def digitValue (c : PyChar) : Option ℕ :=
  if c.code < 128 then (if isDigit c then some (c.code-48) else none) else decimal c

def isDecimal (c : PyChar) : Bool := (digitValue decimal c).isSome

/-- `int` of a match of `\d+`. -/
def intOfDigits (digits : PyStr) : ℕ :=
  Nat.ofDigits 10 (digits.map fun c => (digitValue decimal c).getD 0).reverse

/-- `(\d+)(?:,(\d+))?` in front of a text, and what stands behind it. -/
def rangeRe (s : PyStr) : Option ((ℕ × Option ℕ) × PyStr) :=
  let start := s.takeWhile (isDecimal decimal)
  if start = [] then none
  else match s.dropWhile (isDecimal decimal) with
    | [] => some ((intOfDigits decimal start,none),[])
    | c::rest =>
      let count := rest.takeWhile (isDecimal decimal)
      if c = ch ',' ∧ count ≠ [] then
        some ((intOfDigits decimal start,some (intOfDigits decimal count)),
          rest.dropWhile (isDecimal decimal))
      else some ((intOfDigits decimal start,none),c::rest)

/-- `_HUNK_RE.match`, with the hunk the groups make. -/
def hunkRe (raw : PyStr) : Option DiffHunk := do
  let s ← (lit "@@ -").isPrefixOf? raw
  let (old,s) ← rangeRe decimal s
  let s ← (lit " +").isPrefixOf? s
  let (new,s) ← rangeRe decimal s
  let header ← (lit " @@").isPrefixOf? s
  return {
    oldStart := old.1
    oldLines := old.2.getD 1
    newStart := new.1
    newLines := new.2.getD 1
    header := strip header
    lines := [] }

end hunkRe

def statusForFile (file : DiffFile) : FileStatus :=
  if file.status = .added ∨ file.status = .deleted then file.status
  else if file.oldPath = devNull then .added
  else if file.newPath = devNull then .deleted
  else if file.oldPath ≠ [] ∧ file.newPath ≠ [] ∧ file.oldPath ≠ file.newPath then .renamed
  else .modified

/-- The variables of the loop. The open hunk is the last one of the current file. -/
structure Parser where
  files : List DiffFile
  current : Option DiffFile
  oldLine : ℕ
  newLine : ℕ
  deriving DecidableEq

def Parser.init : Parser := ⟨[],none,0,0⟩

def Parser.finishFile (s : Parser) : Parser :=
  match s.current with
  | none => s
  | some file =>
    { s with files := s.files++[{ file with status := statusForFile file }], current := none }

/-- The record a line `diff --git` opens. -/
def openFile (raw : PyStr) : DiffFile :=
  let parts := splitOn (ch ' ') raw
  let oldPath := (parts[2]?.map stripPrefix).getD []
  let newPath := (parts[3]?.map stripPrefix).getD oldPath
  { oldPath, newPath
    path := if newPath ≠ devNull then newPath else oldPath
    status := .modified
    additions := 0
    deletions := 0
    binary := false
    hunks := [] }

/-- The path behind `---` or `+++`. -/
def labelPath (raw : PyStr) : PyStr :=
  stripPrefix (strip ((raw.drop 4).takeWhile fun c => c ≠ ch '\t'))

/-- What a line of the file header makes of the file. -/
def fileHeader (file : DiffFile) (raw : PyStr) : Option DiffFile :=
  if startsWith raw "rename from " then some { file with oldPath := strip (raw.drop 12) }
  else if startsWith raw "rename to " then
    some { file with newPath := strip (raw.drop 10), path := strip (raw.drop 10) }
  else if startsWith raw "new file mode " then some { file with status := .added }
  else if startsWith raw "deleted file mode " then some { file with status := .deleted }
  else if startsWith raw "Binary files " then some { file with binary := true }
  else if startsWith raw "--- " then some { file with oldPath := labelPath raw }
  else if startsWith raw "+++ " then
    some { file with
      newPath := labelPath raw
      path := if labelPath raw ≠ devNull then labelPath raw else file.oldPath }
  else none

def DiffHunk.addLine (line : DiffLine) (hunk : DiffHunk) : DiffHunk :=
  { hunk with lines := hunk.lines++[line] }

def DiffFile.addLine (line : DiffLine) (file : DiffFile) : DiffFile :=
  { file with hunks := file.hunks.modifyLast (·.addLine line) }

/-- A line inside a hunk. -/
def feedHunk (s : Parser) (file : DiffFile) (raw : PyStr) : Parser :=
  if startsWith raw "+" then
    { s with
      current := some { file.addLine ⟨.add,none,some s.newLine,raw.drop 1⟩ with
        additions := file.additions+1 }
      newLine := s.newLine+1 }
  else if startsWith raw "-" then
    { s with
      current := some { file.addLine ⟨.delete,some s.oldLine,none,raw.drop 1⟩ with
        deletions := file.deletions+1 }
      oldLine := s.oldLine+1 }
  else if startsWith raw " " then
    { s with
      current := some (file.addLine ⟨.context,some s.oldLine,some s.newLine,raw.drop 1⟩)
      oldLine := s.oldLine+1
      newLine := s.newLine+1 }
  else { s with current := some (file.addLine ⟨.metaLine,none,none,raw⟩) }

section parse

variable (decimal : PyChar → Option ℕ)

/-- One round of the loop of `parse_unified_diff`. -/
def feed (s : Parser) (raw : PyStr) : Parser :=
  if startsWith raw "diff --git " then { s.finishFile with current := some (openFile raw) }
  else match s.current with
    | none => s
    | some file =>
      match fileHeader file raw with
      | some file => { s with current := some file }
      | none =>
        match hunkRe decimal raw with
        | some hunk =>
          { s with
            current := some { file with hunks := file.hunks++[hunk] }
            oldLine := hunk.oldStart
            newLine := hunk.newStart }
        | none => if file.hunks = [] then s else feedHunk s file raw

def parseUnifiedDiff (diffText : PyStr) : ParsedDiff :=
  let files := ((splitlines diffText).foldl (feed decimal) .init).finishFile.files
  { files
    stats := {
      files := files.length
      additions := (files.map DiffFile.additions).sum
      deletions := (files.map DiffFile.deletions).sum } }

end parse

def invalidParams : ℤ := -32602

/-- The `data` of a stale anchor: its key, the start of the hunk, and the value received. -/
structure StaleAnchor where
  key : PyStr
  expected : ℕ
  received : ℤ
  deriving DecidableEq

structure HandlerError where
  code : ℤ
  message : PyStr
  data : Option StaleAnchor
  deriving DecidableEq

def refuse {α : Type} (message : String) : Except HandlerError α :=
  .error ⟨invalidParams,lit message,none⟩

def formatRange (start count : ℕ) : PyStr :=
  if count = 1 then natText start else natText start++lit ","++natText count

def linePrefix : LineKind → PyStr
  | .add => lit "+"
  | .delete => lit "-"
  | _ => lit " "

/-- `str(file.get(key) or file.get("path") or "")`. -/
def pathOr (key path : PyStr) : PyStr := if key ≠ [] then key else path

def hunkHeader (hunk : DiffHunk) : PyStr :=
  lit "@@ -"++formatRange hunk.oldStart hunk.oldLines++lit " +"++
    formatRange hunk.newStart hunk.newLines++lit " @@"++
    (if hunk.header ≠ [] then lit " "++hunk.header else [])

def lineText (line : DiffLine) : PyStr :=
  if line.kind = .metaLine then line.content else linePrefix line.kind++line.content

def hunkText (hunk : DiffHunk) : List PyStr := hunkHeader hunk::hunk.lines.map lineText

def singleHunkPatch (file : DiffFile) (hunk : DiffHunk) : Except HandlerError PyStr :=
  let oldPath := pathOr file.oldPath file.path
  let newPath := pathOr file.newPath file.path
  if oldPath = [] ∨ newPath = [] then refuse "patch file paths are incomplete"
  else if oldPath = devNull ∨ newPath = devNull then
    refuse "added/deleted files do not support partial hunk operations yet"
  else
    let oldLabel := lit "a/"++oldPath
    let newLabel := lit "b/"++newPath
    .ok (unlines ([lit "diff --git "++oldLabel++lit " "++newLabel,
      lit "--- "++oldLabel,
      lit "+++ "++newLabel]++hunkText hunk))

def fullFilePatch (file : DiffFile) : Except HandlerError PyStr :=
  if file.binary then refuse "binary files do not support patch operations"
  else if file.status = .renamed then refuse "renamed files do not support patch operations yet"
  else
    let oldPath := pathOr file.oldPath file.path
    let newPath := pathOr file.newPath file.path
    if oldPath = [] ∨ newPath = [] then refuse "patch file paths are incomplete"
    else if file.hunks = [] then refuse "file has no hunks to apply"
    else
      let oldLabel := if oldPath = devNull then devNull else lit "a/"++oldPath
      let newLabel := if newPath = devNull then devNull else lit "b/"++newPath
      .ok (unlines ([lit "diff --git "++oldLabel++lit " "++newLabel,
        lit "--- "++oldLabel,
        lit "+++ "++newLabel]++file.hunks.flatMap hunkText))

/-- The first record under a path, old or new. -/
def recordOf (files : List DiffFile) (filePath : PyStr) : Option DiffFile :=
  files.find? fun file => file.path = filePath ∨ file.oldPath = filePath

def findFile (files : List DiffFile) (filePath : PyStr) : Except HandlerError DiffFile :=
  match recordOf files filePath with
  | none => refuse "file_path was not found in the current diff"
  | some file =>
    if file.binary then refuse "binary files do not support file operations"
    else if file.status = .renamed then refuse "renamed files do not support file operations yet"
    else .ok file

/-- `params.get("old_start")` or `params.get("new_start")`. -/
inductive Anchor
  | absent
  | notInt
  | int (value : ℤ)
  deriving DecidableEq

/-- One round of `_validate_hunk_anchor`. -/
def validateAnchor (key : String) (anchor : Anchor) (start : ℕ) : Except HandlerError Unit :=
  match anchor with
  | .absent => .ok ()
  | .notInt => .error ⟨invalidParams,lit "'"++lit key++lit "' must be an integer when provided",none⟩
  | .int value =>
    if (start : ℤ) = value then .ok ()
    else .error ⟨invalidParams,lit "hunk anchor is stale; refresh the diff and try again",
      some ⟨lit key,start,value⟩⟩

def validateHunkAnchor (oldStart newStart : Anchor) (hunk : DiffHunk) : Except HandlerError Unit := do
  validateAnchor "old_start" oldStart hunk.oldStart
  validateAnchor "new_start" newStart hunk.newStart

def findHunk (files : List DiffFile) (filePath : PyStr) (hunkIndex : ℕ) (oldStart newStart : Anchor) :
    Except HandlerError (DiffFile × DiffHunk) :=
  match recordOf files filePath with
  | none => refuse "file_path was not found in the current diff"
  | some file =>
    if file.binary then refuse "binary files do not support hunk operations"
    else if file.status = .renamed then refuse "renamed files do not support hunk operations yet"
    else match file.hunks[hunkIndex]? with
      | none => refuse "hunk_index is out of range"
      | some hunk => (validateHunkAnchor oldStart newStart hunk).map fun _ => (file,hunk)

variable {file : DiffFile} {filePath raw : PyStr} {files : List DiffFile}

theorem recordOf_eq_some
    (h : recordOf files filePath = some file) :
    file ∈ files ∧ (file.path = filePath ∨ file.oldPath = filePath) :=
  ⟨List.mem_of_find?_eq_some h,by simpa using List.find?_some h⟩

@[simp] theorem refuse_ne_ok {α : Type} (message : String) (a : α) : refuse message ≠ .ok a := nofun

theorem findFile_eq_ok
    (h : findFile files filePath = .ok file) :
    recordOf files filePath = some file ∧ file.status ≠ .renamed := by
  revert h
  fun_cases findFile files filePath with
  | case1 | case2 | case3 => simp
  | case4 found hfound _ hrenamed => rintro ⟨⟩; exact ⟨hfound,hrenamed⟩

theorem findHunk_eq_ok {hunkIndex : ℕ}
    {oldStart newStart : Anchor} {hunk : DiffHunk}
    (h : findHunk files filePath hunkIndex oldStart newStart = .ok (file,hunk)) :
    recordOf files filePath = some file ∧ file.status ≠ .renamed ∧
      file.hunks[hunkIndex]? = some hunk := by
  revert h
  fun_cases findHunk files filePath hunkIndex oldStart newStart with
  | case1 | case2 | case3 | case4 => simp
  | case5 found hfound _ hrenamed chosen hchosen =>
    cases hvalid : validateHunkAnchor oldStart newStart chosen with
    | error e => simp [Except.map]
    | ok =>
      rintro ⟨⟩
      exact ⟨hfound,hrenamed,hchosen⟩

/-! ### What the records hold

Every text in a record comes out of a line of `str.splitlines`, so it holds no line
break, and a line read as a file header is never a line of a hunk. -/

/-- A line that is read as a file header instead. -/
def LooksLikeLabel (kind : LineKind) (content : PyStr) : Prop :=
  kind = .delete ∧ startsWith content "-- " ∨ kind = .add ∧ startsWith content "++ "

structure DiffLine.Clean (line : DiffLine) : Prop where
  unbroken : Unbroken line.content
  no_label : ¬ LooksLikeLabel line.kind line.content

structure DiffHunk.Clean (hunk : DiffHunk) : Prop where
  unbroken : Unbroken hunk.header
  stripped : strip hunk.header = hunk.header
  lines : ∀ line ∈ hunk.lines, line.Clean

structure DiffFile.Clean (file : DiffFile) : Prop where
  old_path : Unbroken file.oldPath
  new_path : Unbroken file.newPath
  path : Unbroken file.path
  hunks : ∀ hunk ∈ file.hunks, hunk.Clean

structure Parser.Clean (s : Parser) : Prop where
  files : ∀ file ∈ s.files, file.Clean
  current : ∀ file ∈ s.current, file.Clean

theorem stripPrefix_subset (path : PyStr) : stripPrefix path ⊆ path := by
  fun_cases stripPrefix path with
  | case2 => exact List.drop_subset _ _
  | case1 | case3 => exact List.Subset.refl _

theorem unbroken_stripPrefix {path : PyStr} (h : Unbroken path) : Unbroken (stripPrefix path) :=
  h.subset (stripPrefix_subset path)

theorem unbroken_labelPath (h : Unbroken raw) : Unbroken (labelPath raw) := by
  exact unbroken_stripPrefix (h.subset fun c hc =>
    List.drop_subset _ _ (List.takeWhile_subset _ (strip_subset _ hc)))

theorem openFile_paths {P : PyStr → Prop} (hnil : P [])
    (hpiece : ∀ piece ∈ splitOn (ch ' ') raw, P (stripPrefix piece)) :
    P (openFile raw).oldPath ∧ P (openFile raw).newPath ∧ P (openFile raw).path := by
  have hpart : ∀ (i : ℕ) (path : PyStr), (splitOn (ch ' ') raw)[i]?.map stripPrefix = some path →
      P path := by
    intro i path hpath
    obtain ⟨piece,hmem,rfl⟩ := Option.map_eq_some_iff.mp hpath
    exact hpiece piece (List.mem_of_getElem? hmem)
  have hold : P (openFile raw).oldPath := by
    rw [openFile]
    cases hold : (splitOn (ch ' ') raw)[2]?.map stripPrefix with
    | none => exact hnil
    | some path => exact hpart 2 path hold
  have hnew : P (openFile raw).newPath := by
    rw [openFile]
    cases hnew : (splitOn (ch ' ') raw)[3]?.map stripPrefix with
    | none => exact hold
    | some path => exact hpart 3 path hnew
  refine ⟨hold,hnew,?_⟩
  change P (if (openFile raw).newPath ≠ devNull then (openFile raw).newPath
    else (openFile raw).oldPath)
  split
  · exact hnew
  · exact hold

theorem clean_openFile (h : Unbroken raw) : (openFile raw).Clean := by
  obtain ⟨hold,hnew,hpath⟩ := openFile_paths unbroken_nil fun piece hpiece =>
    unbroken_stripPrefix (h.subset (subset_of_mem_splitOn hpiece))
  exact ⟨hold,hnew,hpath,by simp [openFile]⟩

theorem clean_fileHeader {file' : DiffFile} (hfile : file.Clean)
    (hraw : Unbroken raw) (h : fileHeader file raw = some file') : file'.Clean := by
  have hdrop : ∀ n, Unbroken (strip (raw.drop n)) :=
    fun n => hraw.subset fun c hc => List.drop_subset _ _ (strip_subset _ hc)
  have hlabel := unbroken_labelPath hraw
  revert h
  fun_cases fileHeader file raw <;> rintro ⟨⟩
  case case1 => exact { hfile with old_path := hdrop 12 }
  case case2 => exact { hfile with new_path := hdrop 10, path := hdrop 10 }
  case case3 | case4 | case5 => exact { hfile with }
  case case6 => exact { hfile with old_path := hlabel }
  case case7 =>
    refine { hfile with new_path := hlabel, path := ?_ }
    dsimp only
    split
    · exact hlabel
    · exact hfile.old_path

theorem rangeRe_subset {decimal : PyChar → Option ℕ} {s rest : PyStr} {range : ℕ × Option ℕ}
    (h : rangeRe decimal s = some (range,rest)) : rest ⊆ s := by
  have hdrop := (List.dropWhile_suffix (isDecimal decimal) (l := s)).subset
  revert h
  fun_cases rangeRe decimal s <;> rintro ⟨⟩
  case case2 => exact List.nil_subset _
  case case3 c tail _ hs _ _ =>
    rw [hs] at hdrop
    exact fun x hx => hdrop (List.mem_cons_of_mem _ ((List.dropWhile_suffix _).subset hx))
  case case4 hs _ _ => exact hs ▸ hdrop

theorem hunkRe_clean {decimal : PyChar → Option ℕ} {hunk : DiffHunk}
    (hraw : Unbroken raw) (h : hunkRe decimal raw = some hunk) : hunk.Clean := by
  simp only [hunkRe,Option.bind_eq_bind,Option.bind_eq_some_iff,Option.pure_def,
    List.isPrefixOf?_eq_some_iff_append_eq] at h
  obtain ⟨s₁,rfl,⟨old,s₂⟩,hold,s₃,rfl,⟨new,s₄⟩,hnew,header,rfl,⟨⟩⟩ := h
  have h₂ := (unbroken_append.mp hraw).2.subset (rangeRe_subset hold)
  have h₄ := (unbroken_append.mp h₂).2.subset (rangeRe_subset hnew)
  have hheader := (unbroken_append.mp h₄).2.subset (strip_subset header)
  exact ⟨hheader,strip_strip header,by simp⟩

theorem clean_addLine {line : DiffLine} (hfile : file.Clean)
    (hline : line.Clean) : (file.addLine line).Clean := by
  refine { hfile with hunks := fun hunk hmem => ?_ }
  obtain hnil | ⟨hunks,last,hhunks⟩ := List.eq_nil_or_concat file.hunks
  · simp [DiffFile.addLine,hnil,List.modifyLast,List.modifyLast.go] at hmem
  · rw [List.concat_eq_append] at hhunks
    have hclean := hfile.hunks
    rw [hhunks] at hclean
    simp only [DiffFile.addLine,hhunks,List.modifyLast_concat,List.mem_append,
      List.mem_singleton] at hmem
    obtain hmem | rfl := hmem
    · exact hclean hunk (List.mem_append_left _ hmem)
    · have hlast := hclean last (by simp)
      refine { hlast with lines := fun l hl => ?_ }
      obtain hl | hl := List.mem_append.mp hl
      · exact hlast.lines l hl
      · exact List.mem_singleton.mp hl ▸ hline

theorem startsWith_iff {pre : String} :
    startsWith raw pre = true ↔ ∃ rest, lit pre++rest = raw := List.isPrefixOf_iff_prefix

theorem startsWith_delete (content : PyStr) :
    startsWith (lit "-"++content) "--- " = startsWith content "-- " := by
  simp [startsWith,lit]

theorem startsWith_add (content : PyStr) :
    startsWith (lit "+"++content) "+++ " = startsWith content "++ " := by
  simp [startsWith,lit]

theorem fileHeader_none (h : fileHeader file raw = none) :
    startsWith raw "--- " = false ∧ startsWith raw "+++ " = false := by
  revert h
  fun_cases fileHeader file raw <;> rintro ⟨⟩
  case case8 h₁ h₂ => exact ⟨by simpa using h₁,by simpa using h₂⟩

theorem clean_feedHunk {s : Parser} (hs : s.Clean)
    (hfile : file.Clean) (hraw : Unbroken raw) (hheader : fileHeader file raw = none) :
    (feedHunk s file raw).Clean := by
  obtain ⟨hminus,hplus⟩ := fileHeader_none hheader
  have hdrop : Unbroken (raw.drop 1) := hraw.subset (List.drop_subset _ _)
  fun_cases feedHunk s file raw with
  | case1 hadd =>
    obtain ⟨content,rfl⟩ := startsWith_iff.mp hadd
    rw [startsWith_add] at hplus
    have hline : DiffLine.Clean ⟨.add,none,some s.newLine,content⟩ :=
      ⟨hdrop,by simp [LooksLikeLabel,hplus]⟩
    exact { hs with current := fun f hf => Option.some.inj hf ▸ { clean_addLine hfile hline with } }
  | case2 _ hdelete =>
    obtain ⟨content,rfl⟩ := startsWith_iff.mp hdelete
    rw [startsWith_delete] at hminus
    have hline : DiffLine.Clean ⟨.delete,some s.oldLine,none,content⟩ :=
      ⟨hdrop,by simp [LooksLikeLabel,hminus]⟩
    exact { hs with current := fun f hf => Option.some.inj hf ▸ { clean_addLine hfile hline with } }
  | case3 =>
    have hline : DiffLine.Clean ⟨.context,some s.oldLine,some s.newLine,raw.drop 1⟩ :=
      ⟨hdrop,by simp [LooksLikeLabel]⟩
    exact { hs with current := fun f hf => Option.some.inj hf ▸ clean_addLine hfile hline }
  | case4 =>
    have hline : DiffLine.Clean ⟨.metaLine,none,none,raw⟩ := ⟨hraw,by simp [LooksLikeLabel]⟩
    exact { hs with current := fun f hf => Option.some.inj hf ▸ clean_addLine hfile hline }

theorem clean_finishFile {s : Parser} (hs : s.Clean) : s.finishFile.Clean := by
  fun_cases Parser.finishFile s with
  | case1 => exact hs
  | case2 file hfile =>
    refine ⟨fun f hf => ?_,by simp⟩
    obtain hf | hf := List.mem_append.mp hf
    · exact hs.files f hf
    · exact List.mem_singleton.mp hf ▸ { hs.current file hfile with }

section parse

variable {decimal : PyChar → Option ℕ}

theorem clean_feed {s : Parser} {raw : PyStr} (hs : s.Clean) (hraw : Unbroken raw) :
    (feed decimal s raw).Clean := by
  fun_cases feed decimal s raw with
  | case1 =>
    exact { clean_finishFile hs with
      current := fun f hf => Option.some.inj hf ▸ clean_openFile hraw }
  | case2 => exact hs
  | case3 _ file hfile _ hheader =>
    exact { hs with
      current := fun f hf => Option.some.inj hf ▸ clean_fileHeader (hs.current file hfile) hraw hheader }
  | case4 _ file hfile _ _ hhunk =>
    have hclean := hs.current file hfile
    refine { hs with current := fun f hf => Option.some.inj hf ▸ { hclean with hunks := ?_ } }
    intro h hh
    obtain hh | hh := List.mem_append.mp hh
    · exact hclean.hunks h hh
    · exact List.mem_singleton.mp hh ▸ hunkRe_clean hraw hhunk
  | case5 => exact hs
  | case6 _ file hfile hheader => exact clean_feedHunk hs (hs.current file hfile) hraw hheader

theorem clean_run {s : Parser} {lines : List PyStr} (hs : s.Clean)
    (hlines : ∀ line ∈ lines, Unbroken line) : (lines.foldl (feed decimal) s).Clean := by
  induction lines generalizing s with
  | nil => exact hs
  | cons line lines ih =>
    have hstep : (feed decimal s line).Clean := clean_feed hs (hlines line List.mem_cons_self)
    exact ih hstep fun l hl => hlines l (List.mem_cons_of_mem _ hl)

theorem clean_parse {diffText : PyStr} {file : DiffFile}
    (h : file ∈ (parseUnifiedDiff decimal diffText).files) : file.Clean := by
  have hinit : Parser.init.Clean := ⟨by simp [Parser.init],by simp [Parser.init]⟩
  have hrun : ((splitlines diffText).foldl (feed decimal) .init).Clean :=
    clean_run hinit fun line => unbroken_of_mem_splitlines
  exact (clean_finishFile hrun).files file h

end parse

section hunkHeader

variable {decimal : PyChar → Option ℕ}

theorem digitValue_digit {c : PyChar} (h : isDigit c = true) :
    digitValue decimal c = some (c.code-48) := by
  have hc : c.code < 128 := by
    simp only [isDigit,Bool.and_eq_true,decide_eq_true_eq] at h
    omega
  simp [digitValue,hc,h]

theorem intOfDigits_natText (n : ℕ) : intOfDigits decimal (natText n) = n := by
  have hvalues : (natText n).map (fun c => (digitValue decimal c).getD 0) =
      (natText n).map fun c => c.code-48 := by
    apply List.map_congr_left
    intro c hc
    rw [digitValue_digit (natText_digits n c hc)]
    rfl
  rw [intOfDigits,hvalues,← natOf,natOf_natText]

theorem span_natText (n : ℕ) {c : PyChar} (hc : isDecimal decimal c = false) (rest : PyStr) :
    (natText n++c::rest).takeWhile (isDecimal decimal) = natText n ∧
      (natText n++c::rest).dropWhile (isDecimal decimal) = c::rest := by
  have hdigits : ∀ d ∈ natText n, isDecimal decimal d = true := by
    intro d hd
    rw [isDecimal,digitValue_digit (natText_digits n d hd)]
    rfl
  constructor
  · rw [List.takeWhile_append_of_pos hdigits,List.takeWhile_cons_of_neg (by simp [hc]),
      List.append_nil]
  · rw [List.dropWhile_append_of_pos hdigits,List.dropWhile_cons_of_neg (by simp [hc])]

theorem natText_ne_nil (n : ℕ) : natText n ≠ [] := by
  obtain ⟨c,cs,htext,_⟩ := natText_starts n
  simp [htext]

theorem rangeRe_formatRange (start count : ℕ) (rest : PyStr) :
    rangeRe decimal (formatRange start count++ch ' '::rest) =
      some ((start,if count = 1 then none else some count),ch ' '::rest) := by
  have hspace : isDecimal decimal (ch ' ') = false := rfl
  have hcomma : isDecimal decimal (ch ',') = false := rfl
  by_cases hcount : count = 1
  · obtain ⟨htake,hdrop⟩ := span_natText start hspace rest
    have hne : ch ' ' ≠ ch ',' := by decide
    simp [formatRange,hcount,rangeRe,htake,hdrop,natText_ne_nil,hne,intOfDigits_natText]
  · obtain ⟨htake,hdrop⟩ := span_natText start hcomma (natText count++ch ' '::rest)
    obtain ⟨htake',hdrop'⟩ := span_natText count hspace rest
    have hassoc : formatRange start count++ch ' '::rest =
        natText start++ch ','::(natText count++ch ' '::rest) := by
      simp [formatRange,hcount,lit]
    simp [hassoc,hcount,rangeRe,htake,hdrop,htake',hdrop',natText_ne_nil,intOfDigits_natText]

theorem strip_space_cons (s : PyStr) : strip (lit " "++s) = strip s := by
  have hspace : PyChar.isSpace (ch ' ') = true := by decide
  simp [strip,lit,hspace]

theorem hunkRe_hunkHeader (hunk : DiffHunk) :
    hunkRe decimal (hunkHeader hunk) = some { hunk with header := strip hunk.header, lines := [] } := by
  have hheader : strip (if hunk.header ≠ [] then lit " "++hunk.header else []) =
      strip hunk.header := by
    split
    · exact strip_space_cons _
    · simp_all
  have hone : ∀ n : ℕ, (if n = 1 then none else some n : Option ℕ).getD 1 = n := by
    intro n
    split <;> simp_all
  generalize hrest : (if hunk.header ≠ [] then lit " "++hunk.header else []) = rest at hheader
  have htext : hunkHeader hunk =
      lit "@@ -"++(formatRange hunk.oldStart hunk.oldLines++(lit " +"++
        (formatRange hunk.newStart hunk.newLines++(lit " @@"++rest)))) := by
    simp [hunkHeader,hrest]
  have hpre : ∀ pre tail : PyStr, pre.isPrefixOf? (pre++tail) = some tail :=
    fun _ _ => List.isPrefixOf?_eq_some_iff_append_eq.mpr rfl
  have hnew : rangeRe decimal (formatRange hunk.newStart hunk.newLines++(lit " @@"++rest)) =
      some (_,lit " @@"++rest) := rangeRe_formatRange _ _ (lit "@@"++rest)
  have hold : rangeRe decimal (formatRange hunk.oldStart hunk.oldLines++(lit " +"++
        (formatRange hunk.newStart hunk.newLines++(lit " @@"++rest)))) = some (_,lit " +"++_) :=
    rangeRe_formatRange _ _ (lit "+"++(formatRange hunk.newStart hunk.newLines++(lit " @@"++rest)))
  rw [htext]
  simp only [hunkRe,hpre,Option.bind_eq_bind,Option.bind_some,hold,hnew,hone,hheader,Option.pure_def]

end hunkHeader

end MinimaxCode.UnifiedDiff
