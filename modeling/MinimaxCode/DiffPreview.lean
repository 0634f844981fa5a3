import MinimaxCode.GitDiff

/-!
# The patch preview of a git diff

What `parse_unified_diff` makes of the text git prints. It goes by line prefixes and
by the line breaks of `str.splitlines`, where git goes by line counts and line feeds.
Hunks without traps come out as they went in; the path of a file comes out as far as
the labels of the header say it plainly.
-/

namespace MinimaxCode.DiffPreview

open PyText PyJson SplitLines UnifiedDiff GitDiff

def showKind : EditKind → LineKind
  | .context => .context
  | .delete => .delete
  | .add => .add

/-- A line with its line numbers in the old and in the new file. -/
def showEdit (oldLine newLine : ℕ) (e : Edit) : DiffLine where
  kind := showKind e.kind
  oldLine := if e.kind = .add then none else some oldLine
  newLine := if e.kind = .delete then none else some newLine
  content := e.content

def showMark : DiffLine := ⟨.metaLine,none,none,noNewlineMark⟩

def showLines : ℕ → ℕ → List Line → List DiffLine
  | _, _, [] => []
  | oldLine, newLine, l::ls =>
    showEdit oldLine newLine l.toEdit::((if l.noNewline then [showMark] else [])++
      showLines (oldLine+l.kind.oldLines) (newLine+l.kind.newLines) ls)

def showHunk (h : Hunk) : DiffHunk where
  oldStart := h.oldStart
  oldLines := oldCount h.lines
  newStart := h.newStart
  newLines := newCount h.lines
  header := h.heading
  lines := showLines h.oldStart h.newStart h.lines

def changeStatus : Change → FileStatus
  | .modified _ => .modified
  | .added _ => .added
  | .deleted _ => .deleted
  | .renamed _ _ _ => .renamed

def additions (hunks : List Hunk) : ℕ :=
  (hunks.map fun h => h.lines.countP fun l => l.kind = .add).sum

def deletions (hunks : List Hunk) : ℕ :=
  (hunks.map fun h => h.lines.countP fun l => l.kind = .delete).sum

/-- The record is that of the file diff. -/
structure Shows (f : FileDiff) (file : DiffFile) : Prop where
  path : file.path = f.path.text
  status : file.status = changeStatus f.change
  old_path : file.status = .renamed → file.oldPath = f.oldPath.text
  additions : file.additions = additions f.hunks
  deletions : file.deletions = deletions f.hunks
  binary : file.binary = false
  hunks : file.hunks = f.hunks.map showHunk

/-- No line break of Python's inside, and not the look of a file header. -/
structure PlainLine (l : Line) : Prop where
  unbroken : Unbroken l.content
  no_label : ¬ LooksLikeLabel (showKind l.kind) l.content

structure PlainHunk (h : Hunk) : Prop where
  unbroken : Unbroken h.heading
  stripped : strip h.heading = h.heading
  lines : ∀ l ∈ h.lines, PlainLine l

section parse

variable {decimal : PyChar → Option ℕ} {file : DiffFile}

theorem text_of_kind (e : Edit) :
    e.kind = .context ∧ e.text = ch ' '::e.content ∨ e.kind = .delete ∧ e.text = ch '-'::e.content ∨
      e.kind = .add ∧ e.text = ch '+'::e.content := by
  cases hkind : e.kind with
  | context => exact .inl ⟨rfl,by simp [Edit.text,hkind,EditKind.text,lit]⟩
  | delete => exact .inr (.inl ⟨rfl,by simp [Edit.text,hkind,EditKind.text,lit]⟩)
  | add => exact .inr (.inr ⟨rfl,by simp [Edit.text,hkind,EditKind.text,lit]⟩)

theorem feed_hunkLine {s : Parser} {c : PyChar} {content : PyStr}
    (hcurrent : s.current = some file) (hhunks : file.hunks ≠ [])
    (hc : c ∈ [ch ' ',ch '-',ch '+',ch '\\'])
    (hminus : startsWith (c::content) "--- " = false)
    (hplus : startsWith (c::content) "+++ " = false) :
    feed decimal s (c::content) = feedHunk s file (c::content) := by
  have hhead : ∀ pre ∈ ["diff --git ","rename from ","rename to ","new file mode ",
      "deleted file mode ","Binary files "], startsWith (c::content) pre = false := by
    intro pre hpre
    simp only [List.mem_cons,List.not_mem_nil,or_false] at hpre hc
    rcases hpre with rfl | rfl | rfl | rfl | rfl | rfl <;>
      rcases hc with rfl | rfl | rfl | rfl <;> simp [startsWith,lit,List.isPrefixOf]
  have hhunk : hunkRe decimal (c::content) = none := by
    simp only [List.mem_cons,List.not_mem_nil,or_false] at hc
    rcases hc with rfl | rfl | rfl | rfl <;> simp [hunkRe,lit,List.isPrefixOf?]
  have hheader : fileHeader file (c::content) = none := by
    simp [fileHeader,hhead,hminus,hplus]
  simp [feed,hcurrent,hhead,hheader,hhunk,hhunks]

/-- The file after a line of a hunk. -/
def withEdit (oldLine newLine : ℕ) (e : Edit) (file : DiffFile) : DiffFile :=
  { file.addLine (showEdit oldLine newLine e) with
    additions := file.additions+(if e.kind = .add then 1 else 0)
    deletions := file.deletions+(if e.kind = .delete then 1 else 0) }

theorem feed_edit {files : List DiffFile} {oldLine newLine : ℕ} {l : Line}
    (hhunks : file.hunks ≠ []) (hl : PlainLine l) :
    feed decimal ⟨files,some file,oldLine,newLine⟩ l.text =
      ⟨files,some (withEdit oldLine newLine l.toEdit file),
        oldLine+l.kind.oldLines,newLine+l.kind.newLines⟩ := by
  have hlabel := hl.no_label
  obtain ⟨hkind,htext⟩ | ⟨hkind,htext⟩ | ⟨hkind,htext⟩ := text_of_kind l.toEdit
  · rw [htext,feed_hunkLine rfl hhunks (by simp) (by simp [startsWith,lit,List.isPrefixOf])
      (by simp [startsWith,lit,List.isPrefixOf])]
    simp [feedHunk,startsWith,lit,List.isPrefixOf,hkind,withEdit,showEdit,showKind,
      EditKind.oldLines,EditKind.newLines,DiffFile.addLine]
  · simp only [hkind,showKind,LooksLikeLabel] at hlabel
    have hminus : startsWith (ch '-'::l.content) "--- " = false := by
      rw [← startsWith_delete] at hlabel
      simpa [lit] using hlabel
    rw [htext,feed_hunkLine rfl hhunks (by simp) hminus (by simp [startsWith,lit,List.isPrefixOf])]
    simp [feedHunk,startsWith,lit,List.isPrefixOf,hkind,withEdit,showEdit,showKind,
      EditKind.oldLines,EditKind.newLines,DiffFile.addLine]
  · simp only [hkind,showKind,LooksLikeLabel] at hlabel
    have hplus : startsWith (ch '+'::l.content) "+++ " = false := by
      rw [← startsWith_add] at hlabel
      simpa [lit] using hlabel
    rw [htext,feed_hunkLine rfl hhunks (by simp) (by simp [startsWith,lit,List.isPrefixOf]) hplus]
    simp [feedHunk,startsWith,lit,List.isPrefixOf,hkind,withEdit,showEdit,showKind,
      EditKind.oldLines,EditKind.newLines,DiffFile.addLine]

theorem feed_mark {files : List DiffFile} {oldLine newLine : ℕ}
    (hhunks : file.hunks ≠ []) :
    feed decimal ⟨files,some file,oldLine,newLine⟩ noNewlineMark =
      ⟨files,some (file.addLine showMark),oldLine,newLine⟩ := by
  have htext : noNewlineMark = ch '\\'::lit " No newline at end of file" := rfl
  rw [htext,feed_hunkLine rfl hhunks (by simp) (by simp [startsWith,lit,List.isPrefixOf])
    (by simp [startsWith,lit,List.isPrefixOf]),← htext]
  rfl

/-- The file with its counts and hunks replaced. -/
def withHunks (file : DiffFile) (adds dels : ℕ) (hunks : List DiffHunk) : DiffFile :=
  { file with additions := adds, deletions := dels, hunks }

theorem feed_line (files : List DiffFile) (file : DiffFile) (adds dels : ℕ)
    (hunks : List DiffHunk) (hunk : DiffHunk) (oldLine newLine : ℕ) {l : Line} (hl : PlainLine l) :
    l.print.foldl (feed decimal)
      ⟨files,some (withHunks file adds dels (hunks++[hunk])),oldLine,newLine⟩ =
      ⟨files,some (withHunks file (adds+(if l.kind = .add then 1 else 0))
          (dels+(if l.kind = .delete then 1 else 0))
          (hunks++[{ hunk with
            lines := hunk.lines++showEdit oldLine newLine l.toEdit::
              (if l.noNewline then [showMark] else []) }])),
        oldLine+l.kind.oldLines,newLine+l.kind.newLines⟩ := by
  have hne : (withHunks file adds dels (hunks++[hunk])).hunks ≠ [] := by simp [withHunks]
  have hne' : (withEdit oldLine newLine l.toEdit
      (withHunks file adds dels (hunks++[hunk]))).hunks ≠ [] := by
    simp [withEdit,withHunks,DiffFile.addLine,List.modifyLast_concat]
  rw [Line.print,List.foldl_cons,feed_edit hne hl]
  cases l.noNewline with
  | false =>
    simp [withEdit,withHunks,DiffFile.addLine,DiffHunk.addLine,List.modifyLast_concat]
  | true =>
    simp only [if_true,List.foldl_cons,feed_mark hne',List.foldl_nil]
    simp [withEdit,withHunks,DiffFile.addLine,DiffHunk.addLine,List.modifyLast_concat]

theorem feed_lines (files : List DiffFile) (file : DiffFile) (adds dels : ℕ)
    (hunks : List DiffHunk) (hunk : DiffHunk) (oldLine newLine : ℕ) {ls : List Line}
    (hls : ∀ l ∈ ls, PlainLine l) :
    (ls.flatMap Line.print).foldl (feed decimal)
      ⟨files,some (withHunks file adds dels (hunks++[hunk])),oldLine,newLine⟩ =
      ⟨files,some (withHunks file (adds+ls.countP fun l => l.kind = .add)
          (dels+ls.countP fun l => l.kind = .delete)
          (hunks++[{ hunk with lines := hunk.lines++showLines oldLine newLine ls }])),
        oldLine+oldCount ls,newLine+newCount ls⟩ := by
  induction ls generalizing adds dels hunk oldLine newLine with
  | nil => simp [showLines,oldCount,newCount]
  | cons l ls ih =>
    have ih := fun adds dels hunk oldLine newLine =>
      ih adds dels hunk oldLine newLine fun l' hl' => hls l' (List.mem_cons_of_mem _ hl')
    rw [List.flatMap_cons,List.foldl_append,
      feed_line files file adds dels hunks hunk oldLine newLine (hls l List.mem_cons_self),ih]
    simp [List.countP_cons,showLines,oldCount,newCount,Nat.add_assoc,Nat.add_comm]

theorem feed_hunk (files : List DiffFile) (file : DiffFile) (adds dels : ℕ)
    (hunks : List DiffHunk) (oldLine newLine : ℕ) {h : Hunk} (hh : PlainHunk h) :
    h.print.foldl (feed decimal) ⟨files,some (withHunks file adds dels hunks),oldLine,newLine⟩ =
      ⟨files,some (withHunks file (adds+h.lines.countP fun l => l.kind = .add)
          (dels+h.lines.countP fun l => l.kind = .delete) (hunks++[showHunk h])),
        h.oldStart+oldCount h.lines,h.newStart+newCount h.lines⟩ := by
  have hheader : ∀ file, fileHeader file h.headerText = none := by
    simp [fileHeader,Hunk.headerText,startsWith,lit,List.isPrefixOf]
  have hfirst : startsWith h.headerText "diff --git " = false := by
    simp [Hunk.headerText,startsWith,lit,List.isPrefixOf]
  have hhunk : hunkRe decimal h.headerText = some { showHunk h with lines := [] } := by
    rw [headerText_eq h [],hunkRe_hunkHeader,hh.stripped]
    rfl
  have hfeed : feed decimal ⟨files,some (withHunks file adds dels hunks),oldLine,newLine⟩
      h.headerText = ⟨files,some (withHunks file adds dels (hunks++[{ showHunk h with lines := [] }])),
        h.oldStart,h.newStart⟩ := by
    simp only [feed,hfirst,Bool.false_eq_true,if_false,hheader,hhunk]
    rfl
  rw [Hunk.print,List.foldl_cons,hfeed,feed_lines _ _ _ _ _ _ _ _ hh.lines]
  rfl

theorem feed_hunks (files : List DiffFile) (file : DiffFile) (adds dels : ℕ)
    (shown : List DiffHunk) (oldLine newLine : ℕ) {hunks : List Hunk}
    (hh : ∀ h ∈ hunks, PlainHunk h) :
    ∃ oldLine' newLine', (hunks.flatMap Hunk.print).foldl (feed decimal)
      ⟨files,some (withHunks file adds dels shown),oldLine,newLine⟩ =
      ⟨files,some (withHunks file (adds+additions hunks) (dels+deletions hunks)
        (shown++hunks.map showHunk)),oldLine',newLine'⟩ := by
  induction hunks generalizing adds dels shown oldLine newLine with
  | nil => exact ⟨oldLine,newLine,by simp [additions,deletions]⟩
  | cons h hunks ih =>
    rw [List.flatMap_cons,List.foldl_append,feed_hunk _ _ _ _ _ _ _ (hh h List.mem_cons_self)]
    obtain ⟨o,n,hrest⟩ := ih (adds+h.lines.countP fun l => l.kind = .add)
      (dels+h.lines.countP fun l => l.kind = .delete) (shown++[showHunk h])
      (h.oldStart+oldCount h.lines) (h.newStart+newCount h.lines)
      fun h' hh' => hh h' (List.mem_cons_of_mem _ hh')
    refine ⟨o,n,hrest.trans ?_⟩
    simp [additions,deletions,Nat.add_assoc]

/-- A line that opens neither a file nor a hunk. -/
structure IsHeader (decimal : PyChar → Option ℕ) (raw : PyStr) : Prop where
  no_file : startsWith raw "diff --git " = false
  no_hunk : hunkRe decimal raw = none

def applyHeader (file : DiffFile) (raw : PyStr) : DiffFile := (fileHeader file raw).getD file

theorem hunks_applyHeader (file : DiffFile) (raw : PyStr) :
    (applyHeader file raw).hunks = file.hunks := by
  rw [applyHeader]
  fun_cases fileHeader file raw <;> rfl

theorem feed_headers (files : List DiffFile) (file : DiffFile) (oldLine newLine : ℕ)
    (hhunks : file.hunks = []) {lines : List PyStr} (hlines : ∀ raw ∈ lines, IsHeader decimal raw) :
    lines.foldl (feed decimal) ⟨files,some file,oldLine,newLine⟩ =
      ⟨files,some (lines.foldl applyHeader file),oldLine,newLine⟩ := by
  induction lines generalizing file with
  | nil => rfl
  | cons raw lines ih =>
    have hraw := hlines raw List.mem_cons_self
    have hfeed : feed decimal ⟨files,some file,oldLine,newLine⟩ raw =
        ⟨files,some (applyHeader file raw),oldLine,newLine⟩ := by
      cases hheader : fileHeader file raw with
      | none => simp [feed,hraw.no_file,hraw.no_hunk,hheader,hhunks,applyHeader]
      | some file' => simp [feed,hraw.no_file,hheader,applyHeader]
    rw [List.foldl_cons,List.foldl_cons,hfeed]
    exact ih _ ((hunks_applyHeader file raw).trans hhunks) fun l hl =>
      hlines l (List.mem_cons_of_mem _ hl)

/-- How the lines of a file header start. -/
def headerPrefixes : List String :=
  ["old mode ","new mode ","new file mode ","deleted file mode ","similarity index ",
    "rename from ","rename to ","index ","--- ","+++ "]

theorem isHeader_of_starts :
    ∀ pre ∈ headerPrefixes, ∀ rest, IsHeader decimal (lit pre++rest) := by
  have hfile : ∀ pre ∈ headerPrefixes, ∀ rest,
      startsWith (lit pre++rest) "diff --git " = false := by
    simp [headerPrefixes,startsWith,lit,List.isPrefixOf]
  have hhunk : ∀ pre ∈ headerPrefixes, ∀ rest, hunkRe decimal (lit pre++rest) = none := by
    simp [headerPrefixes,hunkRe,lit]
  exact fun pre hpre rest => ⟨hfile pre hpre rest,hhunk pre hpre rest⟩

end parse

section headers

variable {quotePath : Bool}

theorem index_starts (i : IndexLine) : ∃ rest, i.print = lit "index "++rest := by
  rw [IndexLine.print,List.append_assoc,List.append_assoc,List.append_assoc]
  exact ⟨_,rfl⟩

theorem prefix_of_header {f : FileDiff} {raw : PyStr} (h : raw ∈ f.headers quotePath) :
    ∃ pre ∈ headerPrefixes, ∃ rest, raw = lit pre++rest := by
  have hmodes : ∀ modes, raw ∈ modeLines modes → ∃ pre ∈ headerPrefixes, ∃ rest, raw = lit pre++rest := by
    intro modes hraw
    cases modes with
    | none => simp [modeLines] at hraw
    | some modes =>
      simp only [modeLines,List.mem_cons,List.not_mem_nil,or_false] at hraw
      obtain rfl | rfl := hraw
      · exact ⟨"old mode ",by simp [headerPrefixes],_,rfl⟩
      · exact ⟨"new mode ",by simp [headerPrefixes],_,rfl⟩
  simp only [FileDiff.headers,List.mem_append,List.mem_map,Option.mem_toList] at h
  obtain (h | ⟨i,_,rfl⟩) | h := h
  · rw [FileDiff.extended] at h
    cases hchange : f.change with
    | modified modes => exact hmodes modes (by simpa [hchange] using h)
    | added mode =>
      obtain rfl : raw = lit "new file mode "++mode.text := by simpa [hchange] using h
      exact ⟨"new file mode ",by simp [headerPrefixes],_,rfl⟩
    | deleted mode =>
      obtain rfl : raw = lit "deleted file mode "++mode.text := by simpa [hchange] using h
      exact ⟨"deleted file mode ",by simp [headerPrefixes],_,rfl⟩
    | renamed source similarity modes =>
      simp only [hchange,List.mem_append,List.mem_cons,List.not_mem_nil,or_false] at h
      obtain h | rfl | rfl | rfl := h
      · exact hmodes modes h
      · exact ⟨"similarity index ",by simp [headerPrefixes],_,List.append_assoc _ _ _⟩
      · exact ⟨"rename from ",by simp [headerPrefixes],_,rfl⟩
      · exact ⟨"rename to ",by simp [headerPrefixes],_,rfl⟩
  · exact ⟨"index ",by simp [headerPrefixes],index_starts i⟩
  · rw [FileDiff.labels] at h
    split at h
    · simp at h
    · simp only [List.mem_cons,List.not_mem_nil,or_false] at h
      obtain rfl | rfl := h
      · exact ⟨"--- ",by simp [headerPrefixes],_,rfl⟩
      · exact ⟨"+++ ",by simp [headerPrefixes],_,rfl⟩

theorem applyHeader_other : ∀ pre ∈ ["old mode ","new mode ","similarity index ","index "],
    ∀ (file : DiffFile) (rest : PyStr), applyHeader file (lit pre++rest) = file := by
  simp [applyHeader,fileHeader,startsWith,lit]

theorem applyHeader_minus (file : DiffFile) (label : PyStr) :
    applyHeader file (lit "--- "++label) = { file with oldPath := labelPath (lit "--- "++label) } := by
  simp [applyHeader,fileHeader,startsWith,lit,List.isPrefixOf]

theorem applyHeader_plus (file : DiffFile) (label : PyStr) :
    applyHeader file (lit "+++ "++label) =
      { file with
        newPath := labelPath (lit "+++ "++label)
        path :=
          if labelPath (lit "+++ "++label) ≠ devNull then labelPath (lit "+++ "++label)
          else file.oldPath } := by
  simp [applyHeader,fileHeader,startsWith,lit,List.isPrefixOf]

theorem applyHeader_rename (file : DiffFile) (source path : PyStr) :
    applyHeader (applyHeader file (lit "rename from "++source)) (lit "rename to "++path) =
      { file with oldPath := strip source, newPath := strip path, path := strip path } := by
  simp [applyHeader,fileHeader,startsWith,lit,List.isPrefixOf]

theorem applyHeader_created (file : DiffFile) (mode : PyStr) :
    applyHeader file (lit "new file mode "++mode) = { file with status := .added } ∧
      applyHeader file (lit "deleted file mode "++mode) = { file with status := .deleted } := by
  simp [applyHeader,fileHeader,startsWith,lit,List.isPrefixOf]

theorem apply_modeLines (file : DiffFile) (modes : Option (FileMode × FileMode)) :
    (modeLines modes).foldl applyHeader file = file := by
  cases modes with
  | none => rfl
  | some modes =>
    have hold := applyHeader_other "old mode " (by simp) file modes.1.text
    have hnew := applyHeader_other "new mode " (by simp) file modes.2.text
    simp [modeLines,hold,hnew]

theorem apply_extended (file : DiffFile) (f : FileDiff) :
    (f.extended quotePath).foldl applyHeader file =
      match f.change with
      | .modified _ => file
      | .added _ => { file with status := .added }
      | .deleted _ => { file with status := .deleted }
      | .renamed source _ _ =>
        { file with
          oldPath := strip (quoted quotePath "" source)
          newPath := strip (quoted quotePath "" f.path)
          path := strip (quoted quotePath "" f.path) } := by
  rw [FileDiff.extended]
  cases f.change with
  | modified modes => exact apply_modeLines file modes
  | added mode => exact (applyHeader_created file mode.text).1
  | deleted mode => exact (applyHeader_created file mode.text).2
  | renamed source similarity modes =>
    have hsimilarity := applyHeader_other "similarity index " (by simp) file (natText similarity++lit "%")
    rw [← List.append_assoc] at hsimilarity
    simp only [List.foldl_append,apply_modeLines,List.foldl_cons,List.foldl_nil,hsimilarity,
      applyHeader_rename]

theorem apply_index (file : DiffFile) (index : Option IndexLine) :
    (index.toList.map IndexLine.print).foldl applyHeader file = file := by
  cases index with
  | none => rfl
  | some i =>
    obtain ⟨rest,hprint⟩ := index_starts i
    have hindex := applyHeader_other "index " (by simp) file rest
    simpa [hprint] using hindex

theorem apply_labels (file : DiffFile) {f : FileDiff} (hhunks : f.hunks ≠ []) :
    (f.labels quotePath).foldl applyHeader file =
      { file with
        oldPath := labelPath (lit "--- "++f.oldLabel quotePath)
        newPath := labelPath (lit "+++ "++f.newLabel quotePath)
        path :=
          if labelPath (lit "+++ "++f.newLabel quotePath) ≠ devNull then
            labelPath (lit "+++ "++f.newLabel quotePath)
          else labelPath (lit "--- "++f.oldLabel quotePath) } := by
  rw [FileDiff.labels,if_neg hhunks]
  simp only [List.foldl_cons,List.foldl_nil,applyHeader_minus,applyHeader_plus]

/-- The record the header of a file diff makes. -/
def headerFile (quotePath : Bool) (f : FileDiff) : DiffFile :=
  (f.headers quotePath).foldl applyHeader (openFile (f.gitLine quotePath))

theorem headerFile_eq (f : FileDiff) :
    headerFile quotePath f = (f.labels quotePath).foldl applyHeader
      ((f.extended quotePath).foldl applyHeader (openFile (f.gitLine quotePath))) := by
  rw [headerFile,FileDiff.headers,List.foldl_append,List.foldl_append,apply_index]

theorem headerFile_fields (f : FileDiff) :
    (headerFile quotePath f).additions = 0 ∧ (headerFile quotePath f).deletions = 0 ∧
      (headerFile quotePath f).binary = false ∧ (headerFile quotePath f).hunks = [] := by
  rw [headerFile_eq,apply_extended]
  by_cases hhunks : f.hunks = []
  · cases f.change <;> simp [FileDiff.labels,hhunks,openFile]
  · rw [apply_labels _ hhunks]
    cases f.change <;> simp [openFile]

end headers

section print

variable {decimal : PyChar → Option ℕ} {quotePath : Bool}

/-- `finish_file` on a record. -/
def finish (file : DiffFile) : DiffFile := { file with status := statusForFile file }

/-- The record of a printed file diff. -/
def shownFile (quotePath : Bool) (f : FileDiff) : DiffFile :=
  finish (withHunks (headerFile quotePath f) (additions f.hunks) (deletions f.hunks)
    (f.hunks.map showHunk))

theorem feed_file (s : Parser) {f : FileDiff} (hhunks : ∀ h ∈ f.hunks, PlainHunk h) :
    ((f.print quotePath).foldl (feed decimal) s).finishFile.files =
      s.finishFile.files++[shownFile quotePath f] := by
  have hopen : feed decimal s (f.gitLine quotePath) =
      ⟨s.finishFile.files,some (openFile (f.gitLine quotePath)),s.finishFile.oldLine,
        s.finishFile.newLine⟩ := by
    have hstart : startsWith (f.gitLine quotePath) "diff --git " = true := by
      simp [FileDiff.gitLine,startsWith,lit,List.isPrefixOf]
    simp [feed,hstart]
  have hheaders : ∀ raw ∈ f.headers quotePath, IsHeader decimal raw := by
    intro raw hraw
    obtain ⟨pre,hpre,rest,rfl⟩ := prefix_of_header hraw
    exact isHeader_of_starts pre hpre rest
  have hheader : (f.headers quotePath).foldl applyHeader (openFile (f.gitLine quotePath)) =
      withHunks (headerFile quotePath f) 0 0 [] := by
    obtain ⟨hadds,hdels,_,hnone⟩ := @headerFile_fields quotePath f
    have heq : withHunks (headerFile quotePath f) (headerFile quotePath f).additions
        (headerFile quotePath f).deletions (headerFile quotePath f).hunks = headerFile quotePath f := rfl
    rw [hadds,hdels,hnone] at heq
    exact heq.symm
  rw [FileDiff.print,List.foldl_cons,hopen,List.foldl_append,feed_headers _ _ _ _ rfl hheaders,hheader]
  obtain ⟨o,n,hrun⟩ := @feed_hunks decimal s.finishFile.files (headerFile quotePath f) 0 0 []
    s.finishFile.oldLine s.finishFile.newLine f.hunks hhunks
  rw [hrun]
  simp [Parser.finishFile,shownFile,finish]

theorem feed_files (s : Parser) {fs : List FileDiff} (hfs : ∀ f ∈ fs, ∀ h ∈ f.hunks, PlainHunk h) :
    ((fs.flatMap (·.print quotePath)).foldl (feed decimal) s).finishFile.files =
      s.finishFile.files++fs.map (shownFile quotePath) := by
  induction fs generalizing s with
  | nil => simp
  | cons f fs ih =>
    have hf := hfs f List.mem_cons_self
    rw [List.flatMap_cons,List.foldl_append,ih _ fun f' hf' => hfs f' (List.mem_cons_of_mem _ hf'),
      feed_file s hf,List.map_cons,List.append_assoc]
    rfl

theorem parse_print {fs : List FileDiff} (hfs : ∀ f ∈ fs, ∀ h ∈ f.hunks, PlainHunk h)
    (hlines : ∀ f ∈ fs, ∀ line ∈ f.print quotePath, Unbroken line) :
    (parseUnifiedDiff decimal (printDiff quotePath fs)).files = fs.map (shownFile quotePath) := by
  have hsplit : splitlines (printDiff quotePath fs) = fs.flatMap (·.print quotePath) := by
    refine splitlines_unlines fun line hline => ?_
    obtain ⟨f,hf,hline⟩ := List.mem_flatMap.mp hline
    exact hlines f hf line hline
  rw [parseUnifiedDiff,hsplit]
  exact feed_files .init hfs

end print

section labels

variable {quotePath : Bool} {p : GitPath} {pre : String} {text : PyStr} {f : FileDiff}

theorem quoted_of_plain (h : needsQuotes quotePath p = false) :
    quoted quotePath pre p = lit pre++p.text := by
  simp [quoted,h]

theorem not_special (h : needsQuotes quotePath p = false) {c : Char}
    (hc : special quotePath c = true) : ch c ∉ p.text := by
  intro hm
  obtain ⟨d,hd,⟨⟩⟩ := List.mem_map.mp hm
  simp only [needsQuotes,List.any_eq_false] at h
  exact h c hd hc

theorem printable_octal {b : UInt8} {d : PyChar} (h : d ∈ octal b) : 33 ≤ d.code ∧ d.code ≤ 126 := by
  have hdigit : ∀ n < 8, 33 ≤ (digitText n).code ∧ (digitText n).code ≤ 126 := by decide
  have hb : b.toNat < 256 := b.toNat_lt
  obtain rfl | h := List.mem_cons.mp h
  · decide
  · obtain ⟨n,hn,rfl⟩ := List.mem_map.mp h
    simp only [List.mem_cons,List.not_mem_nil,or_false] at hn
    exact hdigit n (by omega)

theorem mem_escape {c : Char} {d : PyChar} (h : d ∈ escape quotePath c) :
    d = ch c ∧ special quotePath c = false ∨ 33 ≤ d.code ∧ d.code ≤ 126 := by
  have hletters : ∀ pair ∈ escapeLetters, 33 ≤ (ch pair.2).code ∧ (ch pair.2).code ≤ 126 := by decide
  revert h
  fun_cases escape quotePath c with
  | case1 _ letter hletter =>
    intro h
    simp only [List.mem_cons,List.not_mem_nil,or_false] at h
    obtain rfl | rfl := h
    · exact .inr (by decide)
    · obtain ⟨before,after,htable,_⟩ := List.lookup_eq_some_iff.mp hletter
      exact .inr (hletters (c.toNat,letter) (by simp [htable]))
  | case2 =>
    intro h
    obtain ⟨b,_,hd⟩ := List.mem_flatMap.mp h
    exact .inr (printable_octal hd)
  | case3 hc =>
    intro h
    exact .inl ⟨List.mem_singleton.mp h,by simpa using hc⟩

theorem escape_ne_nil (c : Char) : escape quotePath c ≠ [] := by
  fun_cases escape quotePath c with
  | case1 => simp
  | case2 =>
    obtain ⟨b,bs,hbytes⟩ := List.exists_cons_of_ne_nil (@String.utf8EncodeChar_ne_nil c)
    simp [hbytes,octal]
  | case3 => simp

/-- The two prefixes of git's path names. -/
def sides : List String := ["a/","b/"]

theorem tab_not_mem_side : ∀ pre ∈ sides, ch '\t' ∉ lit pre := by decide

theorem tab_not_mem_quoted (hpre : pre ∈ sides) (p : GitPath) :
    ch '\t' ∉ quoted quotePath pre p := by
  have htab := tab_not_mem_side pre hpre
  by_cases h : needsQuotes quotePath p = true
  · have hquote : ch '\t' ∉ lit "\"" := by decide
    have hescape : ch '\t' ∉ p.chars.flatMap (escape quotePath) := by
      intro hm
      obtain ⟨c,_,hc⟩ := List.mem_flatMap.mp hm
      obtain ⟨heq,hspecial⟩ | ⟨hle,_⟩ := mem_escape hc
      · obtain rfl : '\t' = c := PyChar.scalar.inj heq
        simp [special] at hspecial
      · exact absurd hle (by decide)
    simp only [quoted,h,if_true,List.mem_append,not_or]
    exact ⟨⟨⟨hquote,htab⟩,hescape⟩,hquote⟩
  · have h : needsQuotes quotePath p = false := by simpa using h
    rw [quoted_of_plain h,List.mem_append,not_or]
    exact ⟨htab,not_special h (by simp [special])⟩

theorem takeWhile_label (hpre : pre ∈ sides) (p : GitPath) :
    (label quotePath pre p).takeWhile (fun c => c ≠ ch '\t') = quoted quotePath pre p := by
  have htab : ch '\t' ∉ quoted quotePath pre p := tab_not_mem_quoted hpre p
  have hall : ∀ c ∈ quoted quotePath pre p, decide (c ≠ ch '\t') = true := by
    intro c hc
    exact decide_eq_true fun heq => htab (heq ▸ hc)
  rw [label,List.takeWhile_append_of_pos hall]
  split <;> simp [lit]

theorem labelPath_label {mark : String} (hmark : (lit mark).length = 4) (hpre : pre ∈ sides)
    (p : GitPath) :
    labelPath (lit mark++label quotePath pre p) = stripPrefix (strip (quoted quotePath pre p)) := by
  have hdrop : (lit mark++label quotePath pre p).drop 4 = label quotePath pre p := by
    rw [← hmark,List.drop_left]
  rw [labelPath,hdrop,takeWhile_label hpre]

theorem strip_quoted (hpre : pre ∈ sides)
    (h : needsQuotes quotePath p = false) :
    stripPrefix (strip (quoted quotePath pre p)) = p.text.rdropWhile PyChar.isSpace := by
  have hlast : ∀ c ∈ (lit pre).getLast?, PyChar.isSpace c = false := by
    revert pre
    decide
  have hspace : PyChar.isSpace (ch 'a') = false ∧ PyChar.isSpace (ch 'b') = false := by decide
  have hhead : ∀ c ∈ (lit pre++p.text).head?, PyChar.isSpace c = false := by
    simp only [sides,List.mem_cons,List.not_mem_nil,or_false] at hpre
    obtain rfl | rfl := hpre <;> simp [lit,hspace]
  rw [quoted_of_plain h,strip_of_head hhead,rdropWhile_append hlast]
  simp only [sides,List.mem_cons,List.not_mem_nil,or_false] at hpre
  obtain rfl | rfl := hpre <;> simp [stripPrefix,startsWith,lit,List.isPrefixOf,devNull]

theorem quoted_of_special (h : needsQuotes quotePath p = true) :
    quoted quotePath pre p =
      lit "\""++(lit pre++p.chars.flatMap (escape quotePath)++lit "\"") := by
  simp [quoted,h]

theorem strip_of_special (h : needsQuotes quotePath p = true) :
    strip (quoted quotePath pre p) = quoted quotePath pre p := by
  have hspace : PyChar.isSpace (ch '"') = false := by decide
  have hhead : ∀ c ∈ (quoted quotePath pre p).head?, PyChar.isSpace c = false := by
    simp [quoted_of_special h,lit,hspace]
  rw [strip_of_head hhead,quoted,if_pos h]
  exact List.rdropWhile_concat_neg _ _ _ (by decide)

theorem stripPrefix_of_special (h : needsQuotes quotePath p = true) :
    stripPrefix (quoted quotePath pre p) = quoted quotePath pre p := by
  rw [quoted_of_special h]
  simp [stripPrefix,startsWith,lit,List.isPrefixOf,devNull]

theorem unbroken_of_printable {s : PyStr} (h : ∀ c ∈ s, 33 ≤ c.code ∧ c.code ≤ 126) :
    Unbroken s := by
  intro c hc
  have hcode := h c hc
  simp only [isLineBreak,Bool.or_eq_false_iff,Bool.and_eq_false_iff,decide_eq_false_iff_not,
    beq_eq_false_iff_ne]
  omega

theorem unbroken_quoted (hpre : Unbroken (lit pre))
    (hp : Unbroken p.text) : Unbroken (quoted quotePath pre p) := by
  have hquote : Unbroken (lit "\"") := by decide
  have hescape : Unbroken (p.chars.flatMap (escape quotePath)) := by
    intro d hd
    obtain ⟨c,hc,hd⟩ := List.mem_flatMap.mp hd
    obtain ⟨rfl,_⟩ | hprintable := mem_escape hd
    · exact hp _ (List.mem_map_of_mem hc)
    · exact unbroken_of_printable (by simpa using hprintable : ∀ x ∈ [d],_) d (by simp)
  rw [quoted]
  split
  · simp [hquote,hpre,hescape]
  · simp [hpre,hp]

theorem unbroken_label (hpre : Unbroken (lit pre))
    (hp : Unbroken p.text) : Unbroken (label quotePath pre p) := by
  have htab : Unbroken (lit "\t") := by decide
  rw [label]
  split <;> simp [unbroken_quoted hpre hp,htab]

theorem unbroken_natText (n : ℕ) : Unbroken (natText n) := by
  refine unbroken_of_printable fun c hc => ?_
  have hdigit := natText_digits n c hc
  simp only [isDigit,Bool.and_eq_true,decide_eq_true_eq] at hdigit
  omega

theorem unbroken_hunkHeader {hunk : DiffHunk} (h : Unbroken hunk.header) :
    Unbroken (hunkHeader hunk) := by
  have hrange : ∀ start count, Unbroken (formatRange start count) := by
    have hcomma : Unbroken (lit ",") := by decide
    intro start count
    rw [formatRange]
    split <;> simp [unbroken_natText,hcomma]
  have hlit : ∀ text ∈ ["@@ -"," +"," @@"," "], Unbroken (lit text) := by decide
  rw [hunkHeader]
  split <;> simp [hrange,hlit,h]

theorem unbroken_hunkText {hunk : DiffHunk} (h : hunk.Clean)
    (ht : text ∈ hunkText hunk) : Unbroken text := by
  obtain rfl | ht := List.mem_cons.mp ht
  · exact unbroken_hunkHeader h.unbroken
  · obtain ⟨line,hline,rfl⟩ := List.mem_map.mp ht
    have hpre : ∀ kind, Unbroken (linePrefix kind) := by
      intro kind
      cases kind <;> decide
    rw [lineText]
    split <;> simp [hpre,(h.lines line hline).unbroken]

theorem unbroken_mode (m : FileMode) : Unbroken m.text := by
  cases m <;> decide

theorem unbroken_modeLines {modes : Option (FileMode × FileMode)}
    (h : text ∈ modeLines modes) : Unbroken text := by
  have hlit : ∀ s ∈ ["old mode ","new mode "], Unbroken (lit s) := by decide
  cases modes with
  | none => simp [modeLines] at h
  | some modes =>
    simp only [modeLines,List.mem_cons,List.not_mem_nil,or_false] at h
    obtain rfl | rfl := h <;> simp [hlit,unbroken_mode]

theorem unbroken_index (i : IndexLine) : Unbroken i.print := by
  have hhex : ∀ name, Unbroken (IndexLine.print.hex name) := by
    have hdigit : ∀ d < 16, 33 ≤ (digitText d).code ∧ (digitText d).code ≤ 126 := by decide
    intro name
    refine unbroken_of_printable fun c hc => ?_
    obtain ⟨d,_,rfl⟩ := List.mem_map.mp hc
    exact hdigit d.val d.isLt
  have hlit : ∀ text ∈ ["index ",".."," "], Unbroken (lit text) := by decide
  rw [IndexLine.print]
  cases i.mode <;> simp [hhex,hlit,unbroken_mode]

theorem unbroken_linePrint {l : Line} (hl : PlainLine l) (h : text ∈ l.print) :
    Unbroken text := by
  obtain rfl | h := List.mem_cons.mp h
  · have hkind : ∀ k : EditKind, Unbroken k.text := by
      intro k
      cases k <;> decide
    simp [Edit.text,hkind,hl.unbroken]
  · split at h
    · obtain rfl := List.mem_singleton.mp h
      decide
    · simp at h

theorem unbroken_hunkPrint {h : Hunk} (hh : PlainHunk h) (ht : text ∈ h.print) :
    Unbroken text := by
  obtain rfl | ht := List.mem_cons.mp ht
  · rw [headerText_eq h []]
    exact unbroken_hunkHeader hh.unbroken
  · obtain ⟨l,hl,ht⟩ := List.mem_flatMap.mp ht
    exact unbroken_linePrint (hh.lines l hl) ht

theorem unbroken_extended (hold : Unbroken f.oldPath.text)
    (hpath : Unbroken f.path.text) (ht : text ∈ f.extended quotePath) :
    Unbroken text := by
  have hlit : ∀ s ∈ ["new file mode ","deleted file mode ","similarity index ","%","rename from ",
      "rename to ",""], Unbroken (lit s) := by decide
  rw [FileDiff.extended] at ht
  cases hchange : f.change with
  | modified modes => exact unbroken_modeLines (by simpa [hchange] using ht)
  | added mode =>
    obtain rfl : text = _ := by simpa [hchange] using ht
    simp [hlit,unbroken_mode]
  | deleted mode =>
    obtain rfl : text = _ := by simpa [hchange] using ht
    simp [hlit,unbroken_mode]
  | renamed source similarity modes =>
    rw [FileDiff.oldPath,hchange] at hold
    have hnone : Unbroken (lit "") := by decide
    simp only [hchange,List.mem_append,List.mem_cons,List.not_mem_nil,or_false] at ht
    obtain ht | rfl | rfl | rfl := ht
    · exact unbroken_modeLines ht
    · simp [hlit,unbroken_natText]
    · simp [hlit,unbroken_quoted hnone hold]
    · simp [hlit,unbroken_quoted hnone hpath]

theorem unbroken_labels (hold : Unbroken f.oldPath.text)
    (hpath : Unbroken f.path.text) (ht : text ∈ f.labels quotePath) :
    Unbroken text := by
  have hlit : ∀ s ∈ ["--- ","+++ "], Unbroken (lit s) := by decide
  have hdev : Unbroken devNull := by decide
  have ha : Unbroken (label quotePath "a/" f.oldPath) := unbroken_label (by decide) hold
  have hb : Unbroken (label quotePath "b/" f.path) := unbroken_label (by decide) hpath
  have holdLabel : Unbroken (f.oldLabel quotePath) := by
    rw [FileDiff.oldLabel]
    split
    · exact hdev
    · exact ha
  have hnewLabel : Unbroken (f.newLabel quotePath) := by
    rw [FileDiff.newLabel]
    split
    · exact hdev
    · exact hb
  rw [FileDiff.labels] at ht
  split at ht
  · simp at ht
  · simp only [List.mem_cons,List.not_mem_nil,or_false] at ht
    obtain rfl | rfl := ht
    · simp [hlit,holdLabel]
    · simp [hlit,hnewLabel]

theorem unbroken_print (hold : Unbroken f.oldPath.text) (hpath : Unbroken f.path.text)
    (hhunks : ∀ h ∈ f.hunks, PlainHunk h) (ht : text ∈ f.print quotePath) :
    Unbroken text := by
  have hlit : ∀ s ∈ ["diff --git "," "], Unbroken (lit s) := by decide
  have ha : Unbroken (quoted quotePath "a/" f.oldPath) := unbroken_quoted (by decide) hold
  have hb : Unbroken (quoted quotePath "b/" f.path) := unbroken_quoted (by decide) hpath
  simp only [FileDiff.print,FileDiff.headers,List.mem_cons,List.mem_append,List.mem_map,
    Option.mem_toList,List.mem_flatMap] at ht
  obtain rfl | ((ht | ⟨i,_,rfl⟩) | ht) | ⟨h,hh,ht⟩ := ht
  · simp [FileDiff.gitLine,hlit,ha,hb]
  · exact unbroken_extended hold hpath ht
  · exact unbroken_index i
  · exact unbroken_labels hold hpath ht
  · exact unbroken_hunkPrint (hhunks h hh) ht

end labels

end MinimaxCode.DiffPreview
