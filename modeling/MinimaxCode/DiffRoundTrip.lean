import MinimaxCode.DiffPreview

/-!
# From git through the preview and back to git

A list of file diffs goes through the round trip when the preview shows the same
files, hunks and lines, and the patches written from its records do to the files what
the file diffs do. Renamed files and files without hunks are refused when a patch is
asked for, and so are single hunks of created and deleted files; there nothing more is
asked than the right record.
-/

namespace MinimaxCode.DiffRoundTrip

open PyText PyJson SplitLines UnifiedDiff GitDiff DiffPreview

/-- A patch was written, and git reads it as one with the given effect. -/
def HasEffect (patch : Except HandlerError PyStr) (effect : Effect) : Prop :=
  ∃ text, patch = .ok text ∧ readPatch text = some effect

/-- The patches written from the record do what the file diff does, all of it or one hunk. -/
structure Reissues (f : FileDiff) (file : DiffFile) : Prop where
  full : f.hunks ≠ [] → changeStatus f.change ≠ .renamed → HasEffect (fullFilePatch file) f.effect
  single : changeStatus f.change = .modified →
    List.Forall₂ (fun h hunk => HasEffect (singleHunkPatch file hunk) (f.hunkEffect h))
      f.hunks file.hunks

/-- The preview of the printed file diffs has a faithful record for each, in order. -/
def RoundTrips (decimal : PyChar → Option ℕ) (quotePath : Bool) (fs : List FileDiff) : Prop :=
  List.Forall₂ (fun f file => Shows f file ∧ Reissues f file) fs
    (parseUnifiedDiff decimal (printDiff quotePath fs)).files

/-- A path the header shows as it is: a label drops white space at the end, a line of a
rename drops it at both ends, and the first line is cut at spaces. -/
def Legible (f : FileDiff) (path : PyStr) : Prop :=
  if f.hunks ≠ [] then path.rdropWhile PyChar.isSpace = path
  else if changeStatus f.change = .renamed then strip path = path
  else ch ' ' ∉ path

structure PlainPath (quotePath : Bool) (f : FileDiff) (p : GitPath) : Prop where
  unquoted : needsQuotes quotePath p = false
  unbroken : Unbroken p.text
  legible : Legible f p.text

/-- A file diff without traps. The patches with hunks name no file mode, so they create no
file, delete none and change no mode. -/
structure PlainFile (quotePath : Bool) (f : FileDiff) : Prop where
  kind : f.hunks ≠ [] → f.change = .modified none ∨ changeStatus f.change = .renamed
  hunks : ∀ h ∈ f.hunks, PlainHunk h
  old_path : PlainPath quotePath f f.oldPath
  path : PlainPath quotePath f f.path

theorem text_ne_nil (p : GitPath) : p.text ≠ [] := by
  simpa [GitPath.text] using p.nonempty

theorem text_ne_devNull (p : GitPath) : p.text ≠ devNull := by
  intro h
  have hhead := congrArg List.head? h
  obtain ⟨c,hc,hslash⟩ : ∃ c, p.chars.head? = some c ∧ ch c = ch '/' := by
    simpa [GitPath.text,devNull,lit] using hhead
  exact p.relative (PyChar.scalar.inj hslash ▸ hc)

theorem text_inj {p q : GitPath} (h : p.text = q.text) : p = q := by
  obtain ⟨cs,_,_⟩ := p
  obtain ⟨ds,_,_⟩ := q
  obtain rfl : cs = ds := List.map_injective_iff.mpr (fun a b => PyChar.scalar.inj) h
  rfl

section paths

variable {quotePath : Bool} {pre : String}

theorem length_quoted {p : GitPath}
    (h : needsQuotes quotePath p = true) : p.text.length < (quoted quotePath pre p).length := by
  have hescape : ∀ cs : List Char, cs.length ≤ (cs.flatMap (escape quotePath)).length := by
    intro cs
    induction cs with
    | nil => simp
    | cons c cs ih =>
      have hc : 0 < (escape quotePath c).length := List.length_pos_iff.mpr (escape_ne_nil c)
      simp only [List.flatMap_cons,List.length_append,List.length_cons]
      omega
  have hlen := hescape p.chars
  simp only [quoted,h,if_true,List.length_append,GitPath.text,List.length_map]
  have hquote : (lit "\"").length = 1 := rfl
  omega

theorem quoted_ne_text {p : GitPath} (h : needsQuotes quotePath p = true) :
    quoted quotePath pre p ≠ p.text := by
  intro heq
  have hlen : p.text.length < (quoted quotePath pre p).length := length_quoted h
  simp [heq] at hlen

/-- The path a label is read as. -/
def readLabel (quotePath : Bool) (pre : String) (p : GitPath) : PyStr :=
  stripPrefix (strip (quoted quotePath pre p))

theorem readLabel_eq_iff (hpre : pre ∈ sides) (p : GitPath) :
    readLabel quotePath pre p = p.text ↔
      needsQuotes quotePath p = false ∧ p.text.rdropWhile PyChar.isSpace = p.text := by
  cases hquotes : needsQuotes quotePath p with
  | true =>
    simp [readLabel,strip_of_special hquotes,stripPrefix_of_special hquotes,quoted_ne_text hquotes]
  | false => simp [readLabel,strip_quoted hpre hquotes]

theorem readLabel_ne_devNull (hpre : pre ∈ sides) (p : GitPath) :
    readLabel quotePath pre p ≠ devNull := by
  intro h
  cases hquotes : needsQuotes quotePath p with
  | true =>
    rw [readLabel,strip_of_special hquotes,stripPrefix_of_special hquotes,
      quoted_of_special hquotes] at h
    simp [lit,devNull] at h
  | false =>
    rw [readLabel,strip_quoted hpre hquotes] at h
    have hpre := List.rdropWhile_prefix PyChar.isSpace p.text
    rw [h] at hpre
    obtain ⟨rest,hrest⟩ := hpre
    have hhead := congrArg List.head? hrest
    obtain ⟨c,hc,hslash⟩ : ∃ c, p.chars.head? = some c ∧ ch c = ch '/' := by
      simpa [GitPath.text,devNull,lit,eq_comm] using hhead
    exact p.relative (PyChar.scalar.inj hslash ▸ hc)

theorem strip_quoted_eq_iff (p : GitPath) :
    strip (quoted quotePath "" p) = p.text ↔ needsQuotes quotePath p = false ∧ strip p.text = p.text := by
  cases hquotes : needsQuotes quotePath p with
  | true => simp [strip_of_special hquotes,quoted_ne_text hquotes]
  | false => simp [quoted_of_plain hquotes,lit]

theorem splitOn_gitLine {f : FileDiff} (hold : ch ' ' ∉ quoted quotePath "a/" f.oldPath)
    (hnew : ch ' ' ∉ quoted quotePath "b/" f.path) :
    splitOn (ch ' ') (f.gitLine quotePath) =
      [lit "diff",lit "--git",quoted quotePath "a/" f.oldPath,quoted quotePath "b/" f.path] := by
  have hdiff : ch ' ' ∉ lit "diff" := by decide
  have hgit : ch ' ' ∉ lit "--git" := by decide
  have htext : f.gitLine quotePath = lit "diff"++ch ' '::(lit "--git"++ch ' '::
      (quoted quotePath "a/" f.oldPath++ch ' '::quoted quotePath "b/" f.path)) := by
    simp [FileDiff.gitLine,lit]
  rw [htext,splitOn_append_sep hdiff,splitOn_append_sep hgit,splitOn_append_sep hold,
    splitOn_of_not_mem hnew]

theorem space_not_mem_quoted (hpre : pre ∈ sides) {p : GitPath}
    (hspace : ch ' ' ∉ p.text) : ch ' ' ∉ quoted quotePath pre p := by
  have hside : ∀ pre ∈ sides, ch ' ' ∉ lit pre := by decide
  have hquote : ch ' ' ∉ lit "\"" := by decide
  have hescape : ch ' ' ∉ p.chars.flatMap (escape quotePath) := by
    intro hm
    obtain ⟨c,hc,hm⟩ := List.mem_flatMap.mp hm
    obtain ⟨heq,_⟩ | ⟨hle,_⟩ := mem_escape hm
    · exact hspace (heq ▸ List.mem_map_of_mem hc)
    · exact absurd hle (by decide)
  rw [quoted]
  split
  · simp [hquote,hside pre hpre,hescape]
  · simp [hside pre hpre,hspace]

theorem space_not_mem_openFile (raw : PyStr) : ch ' ' ∉ (openFile raw).path := by
  refine (openFile_paths (P := fun path => ch ' ' ∉ path) List.not_mem_nil fun piece hpiece => ?_).2.2
  exact fun hm => sep_not_mem_of_mem_splitOn hpiece (stripPrefix_subset piece hm)

theorem shownFile_of_labels {f : FileDiff} (hhunks : f.hunks ≠ [])
    (hkind : f.change = .modified none ∨ changeStatus f.change = .renamed) :
    shownFile quotePath f = finish
      ⟨readLabel quotePath "a/" f.oldPath,readLabel quotePath "b/" f.path,
        readLabel quotePath "b/" f.path,.modified,additions f.hunks,deletions f.hunks,false,
        f.hunks.map showHunk⟩ := by
  have hdev : readLabel quotePath "b/" f.path ≠ devNull := readLabel_ne_devNull (by decide) _
  have hlabels : f.oldLabel quotePath = label quotePath "a/" f.oldPath ∧
      f.newLabel quotePath = label quotePath "b/" f.path := by
    rw [FileDiff.oldLabel,FileDiff.newLabel]
    cases hchange : f.change <;> simp_all [changeStatus]
  have hold : labelPath (lit "--- "++f.oldLabel quotePath) = readLabel quotePath "a/" f.oldPath := by
    rw [hlabels.1,labelPath_label rfl (by decide)]
    rfl
  have hnew : labelPath (lit "+++ "++f.newLabel quotePath) = readLabel quotePath "b/" f.path := by
    rw [hlabels.2,labelPath_label rfl (by decide)]
    rfl
  have hheader : headerFile quotePath f =
      ⟨readLabel quotePath "a/" f.oldPath,readLabel quotePath "b/" f.path,
        readLabel quotePath "b/" f.path,.modified,0,0,false,[]⟩ := by
    rw [headerFile_eq,apply_extended,apply_labels _ hhunks,hold,hnew,if_pos hdev]
    cases hchange : f.change <;> simp_all [changeStatus,openFile]
  rw [shownFile,hheader]
  rfl

theorem shownFile_of_rename {f : FileDiff} (hhunks : f.hunks = [])
    (hkind : changeStatus f.change = .renamed) :
    shownFile quotePath f = finish
      ⟨strip (quoted quotePath "" f.oldPath),strip (quoted quotePath "" f.path),
        strip (quoted quotePath "" f.path),.modified,additions f.hunks,deletions f.hunks,false,
        f.hunks.map showHunk⟩ := by
  have hheader : headerFile quotePath f =
      ⟨strip (quoted quotePath "" f.oldPath),strip (quoted quotePath "" f.path),
        strip (quoted quotePath "" f.path),.modified,0,0,false,[]⟩ := by
    rw [headerFile_eq,apply_extended]
    cases hchange : f.change <;>
      simp_all [changeStatus,openFile,FileDiff.labels,FileDiff.oldPath]
  rw [shownFile,hheader]
  rfl

theorem shownFile_of_gitLine {f : FileDiff} (hhunks : f.hunks = [])
    (hkind : changeStatus f.change ≠ .renamed) :
    shownFile quotePath f = finish
      { openFile (f.gitLine quotePath) with
        status := changeStatus f.change
        additions := additions f.hunks
        deletions := deletions f.hunks
        hunks := f.hunks.map showHunk } := by
  have hheader : headerFile quotePath f =
      { openFile (f.gitLine quotePath) with status := changeStatus f.change } := by
    rw [headerFile_eq,apply_extended]
    cases hchange : f.change <;> simp_all [changeStatus,openFile,FileDiff.labels]
  rw [shownFile,hheader]
  rfl

theorem oldPath_of_kept {f : FileDiff} (hkind : changeStatus f.change ≠ .renamed) :
    f.oldPath = f.path := by
  rw [FileDiff.oldPath]
  cases hchange : f.change <;> simp_all [changeStatus]

theorem oldPath_of_renamed {f : FileDiff} (hkind : changeStatus f.change = .renamed) :
    f.oldPath.text ≠ f.path.text := by
  rw [FileDiff.oldPath]
  cases hchange : f.change with
  | renamed source similarity modes =>
    exact fun h => f.moved source similarity modes hchange (text_inj h)
  | modified => simp [hchange,changeStatus] at hkind
  | added => simp [hchange,changeStatus] at hkind
  | deleted => simp [hchange,changeStatus] at hkind

theorem shows_of_names {f : FileDiff}
    (hkind : changeStatus f.change = .modified ∨ changeStatus f.change = .renamed) :
    Shows f (finish
      ⟨f.oldPath.text,f.path.text,f.path.text,.modified,additions f.hunks,deletions f.hunks,false,
        f.hunks.map showHunk⟩) := by
  have hdevOld := text_ne_devNull f.oldPath
  have hdevNew := text_ne_devNull f.path
  refine ⟨rfl,?_,fun _ => rfl,rfl,rfl,rfl,rfl⟩
  obtain hkind | hkind := hkind
  · have hsame : f.oldPath = f.path := oldPath_of_kept (by simp [hkind])
    simp [finish,statusForFile,hdevNew,hsame,hkind]
  · have hmoved := oldPath_of_renamed hkind
    simp [finish,statusForFile,hdevOld,hdevNew,text_ne_nil,hmoved,hkind]

theorem openFile_gitLine {f : FileDiff} (hkind : changeStatus f.change ≠ .renamed)
    (hspace : ch ' ' ∉ f.path.text) :
    openFile (f.gitLine quotePath) =
      ⟨stripPrefix (quoted quotePath "a/" f.path),stripPrefix (quoted quotePath "b/" f.path),
        if stripPrefix (quoted quotePath "b/" f.path) ≠ devNull then
          stripPrefix (quoted quotePath "b/" f.path)
        else stripPrefix (quoted quotePath "a/" f.path),.modified,0,0,false,[]⟩ := by
  have hsame := oldPath_of_kept hkind
  have hsplit := splitOn_gitLine (hsame ▸ space_not_mem_quoted (by decide) hspace)
    (@space_not_mem_quoted quotePath "b/" (by decide) f.path hspace)
  rw [openFile,hsplit,hsame]
  rfl

theorem stripPrefix_side (hpre : pre ∈ sides) (path : PyStr) :
    stripPrefix (lit pre++path) = path := by
  simp only [sides,List.mem_cons,List.not_mem_nil,or_false] at hpre
  obtain rfl | rfl := hpre <;> simp [stripPrefix,startsWith,lit,List.isPrefixOf,devNull]

theorem shows_of_plain {f : FileDiff} (hf : PlainFile quotePath f) : Shows f (shownFile quotePath f) := by
  by_cases hhunks : f.hunks = []
  · by_cases hkind : changeStatus f.change = .renamed
    · have hlegible : ∀ p, PlainPath quotePath f p → strip (quoted quotePath "" p) = p.text := by
        intro p hp
        refine (strip_quoted_eq_iff p).mpr ⟨hp.unquoted,?_⟩
        simpa [Legible,hhunks,hkind] using hp.legible
      rw [shownFile_of_rename hhunks hkind,hlegible _ hf.old_path,hlegible _ hf.path]
      exact shows_of_names (.inr hkind)
    · have hspace : ch ' ' ∉ f.path.text := by
        simpa [Legible,hhunks,hkind] using hf.path.legible
      have hopen : openFile (f.gitLine quotePath) =
          ⟨f.path.text,f.path.text,f.path.text,.modified,0,0,false,[]⟩ := by
        rw [openFile_gitLine hkind hspace,quoted_of_plain hf.path.unquoted,
          quoted_of_plain hf.path.unquoted,stripPrefix_side (by decide),stripPrefix_side (by decide),
          ite_self]
      rw [shownFile_of_gitLine hhunks hkind,hopen]
      have hdev := text_ne_devNull f.path
      refine ⟨rfl,?_,fun _ => (oldPath_of_kept hkind).symm ▸ rfl,rfl,rfl,rfl,rfl⟩
      cases hchange : changeStatus f.change <;> simp_all [finish,statusForFile]
  · have hkind := hf.kind hhunks
    have hlegible : ∀ pre ∈ sides, ∀ p, PlainPath quotePath f p →
        readLabel quotePath pre p = p.text := by
      intro pre hpre p hp
      refine (readLabel_eq_iff hpre p).mpr ⟨hp.unquoted,?_⟩
      simpa [Legible,hhunks] using hp.legible
    rw [shownFile_of_labels hhunks hkind,hlegible "a/" (by decide) _ hf.old_path,
      hlegible "b/" (by decide) _ hf.path]
    exact shows_of_names (hkind.imp_left fun h => by simp [h,changeStatus])

theorem oldPath_of_shows {f : FileDiff} {file : DiffFile} (h : Shows f file)
    (hkind : changeStatus f.change = .renamed) : file.oldPath = f.oldPath.text :=
  h.old_path (h.status.trans hkind)

theorem plainPath_of_shows {f : FileDiff} (h : Shows f (shownFile quotePath f))
    (hkind : f.hunks ≠ [] → f.change = .modified none ∨ changeStatus f.change = .renamed)
    (hold : Unbroken f.oldPath.text) (hpath : Unbroken f.path.text) :
    PlainPath quotePath f f.oldPath ∧ PlainPath quotePath f f.path := by
  by_cases hhunks : f.hunks = []
  · by_cases hrenamed : changeStatus f.change = .renamed
    · have hlegible : ∀ p, Unbroken p.text → strip (quoted quotePath "" p) = p.text →
          PlainPath quotePath f p := by
        intro p hp hstrip
        obtain ⟨hquotes,hstrip⟩ := (strip_quoted_eq_iff p).mp hstrip
        exact ⟨hquotes,hp,by simp [Legible,hhunks,hrenamed,hstrip]⟩
      have hshowsOld := oldPath_of_shows h hrenamed
      have hshowsNew := h.path
      rw [shownFile_of_rename hhunks hrenamed] at hshowsOld hshowsNew
      exact ⟨hlegible _ hold hshowsOld,hlegible _ hpath hshowsNew⟩
    · have hshows := h.path
      rw [shownFile_of_gitLine hhunks hrenamed] at hshows
      have hopen : (openFile (f.gitLine quotePath)).path = f.path.text := hshows
      have hspace : ch ' ' ∉ f.path.text := hopen ▸ space_not_mem_openFile _
      rw [openFile_gitLine hrenamed hspace] at hopen
      have hplain : PlainPath quotePath f f.path := by
        refine ⟨?_,hpath,by simp [Legible,hhunks,hrenamed,hspace]⟩
        cases hquotes : needsQuotes quotePath f.path with
        | false => rfl
        | true =>
          simp only [stripPrefix_of_special hquotes] at hopen
          split at hopen
          · exact absurd hopen (quoted_ne_text hquotes)
          · exact absurd hopen (quoted_ne_text hquotes)
      exact ⟨oldPath_of_kept hrenamed ▸ hplain,hplain⟩
  · have hlegible : ∀ pre ∈ sides, ∀ p : GitPath, Unbroken p.text →
        readLabel quotePath pre p = p.text → PlainPath quotePath f p := by
      intro pre hpre p hp hread
      obtain ⟨hquotes,htrimmed⟩ := (readLabel_eq_iff hpre p).mp hread
      exact ⟨hquotes,hp,by simp [Legible,hhunks,htrimmed]⟩
    have hshows := h.path
    rw [shownFile_of_labels hhunks (hkind hhunks)] at hshows
    have hplain := hlegible "b/" (by decide) _ hpath hshows
    by_cases hrenamed : changeStatus f.change = .renamed
    · have hshowsOld := oldPath_of_shows h hrenamed
      rw [shownFile_of_labels hhunks (hkind hhunks)] at hshowsOld
      exact ⟨hlegible "a/" (by decide) _ hold hshowsOld,hplain⟩
    · exact ⟨oldPath_of_kept hrenamed ▸ hplain,hplain⟩

end paths

theorem lineText_showLines (oldLine newLine : ℕ) (ls : List Line) :
    (showLines oldLine newLine ls).map lineText = ls.flatMap Line.print := by
  have hedit : ∀ o n (e : Edit), lineText (showEdit o n e) = e.text := by
    intro o n ⟨kind,_,_⟩
    cases kind <;> rfl
  have hmark : lineText showMark = noNewlineMark := rfl
  induction ls generalizing oldLine newLine with
  | nil => rfl
  | cons l ls ih =>
    simp only [showLines,List.map_cons,hedit,List.map_append,ih,List.flatMap_cons,Line.print]
    cases l.noNewline <;> simp [hmark]

theorem hunkText_showHunk (h : Hunk) : hunkText (showHunk h) = h.print := by
  rw [hunkText,Hunk.print,headerText_eq h (showHunk h).lines]
  congr 1
  exact lineText_showLines h.oldStart h.newStart h.lines

/-- The header both functions write for a file that stays where it is. -/
def patchHeader (path : PyStr) : List PyStr :=
  [lit "diff --git "++(lit "a/"++path)++lit " "++(lit "b/"++path),
    lit "--- "++(lit "a/"++path),
    lit "+++ "++(lit "b/"++path)]

variable {path : PyStr} {f : FileDiff} {file : DiffFile}

theorem labelName_eq {pre : String} (hpre : pre ∈ sides) {text : PyStr}
    (h : text.takeWhile (fun c => c ≠ ch '\t') = lit pre++path) : labelName text = some path := by
  rw [labelName,plainName,h]
  simp only [sides,List.mem_cons,List.not_mem_nil,or_false] at hpre
  obtain rfl | rfl := hpre <;> simp [startsWith,lit,List.isPrefixOf]

theorem labelName_side {pre : String} (hpre : pre ∈ sides) (htab : ch '\t' ∉ path) :
    labelName (lit pre++path) = some path := by
  refine labelName_eq hpre (List.takeWhile_eq_self_iff.mpr fun c hc => ?_)
  have hne : ch '\t' ∉ lit pre++path := by
    rw [List.mem_append,not_or]
    exact ⟨tab_not_mem_side pre hpre,htab⟩
  exact decide_eq_true fun heq => hne (heq ▸ hc)

theorem read_patchHeader (hpath : Unbroken path) (htab : ch '\t' ∉ path)
    {hunks : List Hunk} (hhunks : ∀ h ∈ hunks, PlainHunk h) :
    readPatch (unlines (patchHeader path++hunks.flatMap Hunk.print)) =
      some ⟨some path,some path,none,none,hunks.map Hunk.effect⟩ := by
  have hlit : ∀ s ∈ ["diff --git ","--- ","+++ "," ","a/","b/"], Unbroken (lit s) := by decide
  have hheader : ∀ line ∈ patchHeader path, Unbroken line := by simp [patchHeader,hlit,hpath]
  have hmark : ∀ line ∈ patchHeader path, startsWith line "\\ " = false := by
    simp [patchHeader,startsWith,lit,List.isPrefixOf]
  have hlf : ∀ line ∈ patchHeader path++hunks.flatMap Hunk.print, ch '\n' ∉ line := by
    intro line hline
    obtain hline | hline := List.mem_append.mp hline
    · exact (hheader line hline).lf_not_mem
    · obtain ⟨h,hh,hline⟩ := List.mem_flatMap.mp hline
      exact (unbroken_hunkPrint (hhunks h hh) hline).lf_not_mem
  have hold : labelName (lit "a/"++path) = some path := labelName_side (by decide) htab
  have hnew : labelName (lit "b/"++path) = some path := labelName_side (by decide) htab
  refine @readPatch_hunks _ _ _ ⟨false,false,some path,some path,none,none⟩ ?_ hlf hmark ?_
    (by simp) (by simp)
  · simp [startsWith,lit,List.isPrefixOf]
  · simp [Reader.init,step_minus,step_plus,hold,hnew,agree]

theorem fullFilePatch_plain (hne : path ≠ []) (hdev : path ≠ devNull)
    (adds dels : ℕ) {hunks : List Hunk} (hhunks : hunks ≠ []) :
    fullFilePatch ⟨path,path,path,.modified,adds,dels,false,hunks.map showHunk⟩ =
      .ok (unlines (patchHeader path++hunks.flatMap Hunk.print)) := by
  have htext : (hunks.map showHunk).flatMap hunkText = hunks.flatMap Hunk.print := by
    simp [List.flatMap_map,hunkText_showHunk]
  have hmap : hunks.map showHunk ≠ [] := by simpa using hhunks
  simp [fullFilePatch,pathOr,hne,hdev,hhunks,htext,patchHeader]

theorem singleHunkPatch_plain (hne : path ≠ []) (hdev : path ≠ devNull)
    (adds dels : ℕ) (hunks : List DiffHunk) (h : Hunk) :
    singleHunkPatch ⟨path,path,path,.modified,adds,dels,false,hunks⟩ (showHunk h) =
      .ok (unlines (patchHeader path++[h].flatMap Hunk.print)) := by
  simp [singleHunkPatch,pathOr,hne,hdev,hunkText_showHunk,patchHeader]

theorem shownFile_of_modified {quotePath : Bool} (hf : PlainFile quotePath f)
    (hhunks : f.hunks ≠ []) (hmodified : f.change = .modified none) :
    shownFile quotePath f =
      ⟨f.path.text,f.path.text,f.path.text,.modified,additions f.hunks,deletions f.hunks,false,
        f.hunks.map showHunk⟩ := by
  have hread : ∀ pre ∈ sides, readLabel quotePath pre f.path = f.path.text := by
    intro pre hpre
    refine (readLabel_eq_iff hpre f.path).mpr ⟨hf.path.unquoted,?_⟩
    simpa [Legible,hhunks] using hf.path.legible
  have hsame : f.oldPath = f.path := oldPath_of_kept (by simp [hmodified,changeStatus])
  rw [shownFile_of_labels hhunks (.inl hmodified),hsame,hread "a/" (by decide),hread "b/" (by decide)]
  simp [finish,statusForFile,text_ne_devNull]

theorem reissues_of_plain {quotePath : Bool} (hf : PlainFile quotePath f) :
    Reissues f (shownFile quotePath f) := by
  have htab : ch '\t' ∉ f.path.text := not_special hf.path.unquoted (by simp [special])
  have hne := text_ne_nil f.path
  have hdev := text_ne_devNull f.path
  constructor
  · intro hhunks hkept
    have hmodified := (hf.kind hhunks).resolve_right hkept
    rw [shownFile_of_modified hf hhunks hmodified]
    refine ⟨_,fullFilePatch_plain hne hdev _ _ hhunks,?_⟩
    rw [read_patchHeader hf.path.unbroken htab hf.hunks]
    simp [FileDiff.effect,hmodified]
  · intro hkind
    by_cases hhunks : f.hunks = []
    · simp [hhunks,shownFile,finish,withHunks]
    · have hmodified := (hf.kind hhunks).resolve_right (by simp [hkind])
      rw [shownFile_of_modified hf hhunks hmodified]
      rw [List.forall₂_map_right_iff,List.forall₂_same]
      intro h hh
      have hplain : ∀ h' ∈ [h], PlainHunk h' := fun h' hh' => List.mem_singleton.mp hh' ▸ hf.hunks h hh
      exact ⟨_,singleHunkPatch_plain hne hdev _ _ _ h,read_patchHeader hf.path.unbroken htab hplain⟩

section operations

variable {decimal : PyChar → Option ℕ} {quotePath : Bool} {fs : List FileDiff} {filePath : PyStr}

theorem parse_plain (hfs : ∀ f ∈ fs, PlainFile quotePath f) :
    (parseUnifiedDiff decimal (printDiff quotePath fs)).files = fs.map (shownFile quotePath) :=
  parse_print (fun f hf => (hfs f hf).hunks) fun f hf _ =>
    unbroken_print (hfs f hf).old_path.unbroken (hfs f hf).path.unbroken (hfs f hf).hunks

/-- The patch for a chosen file does what the file diff does. -/
theorem chosen_file_effect (hfs : ∀ f ∈ fs, PlainFile quotePath f) {file : DiffFile}
    (h : findFile (parseUnifiedDiff decimal (printDiff quotePath fs)).files filePath = .ok file)
    (hhunks : file.hunks ≠ []) :
    ∃ f ∈ fs, f.path.text = filePath ∧ HasEffect (fullFilePatch file) f.effect := by
  obtain ⟨hrecord,hkept⟩ := findFile_eq_ok h
  obtain ⟨hmem,hpath⟩ := recordOf_eq_some hrecord
  rw [parse_plain hfs] at hmem
  obtain ⟨f,hf,rfl⟩ := List.mem_map.mp hmem
  have hplain := hfs f hf
  have hshows := shows_of_plain hplain
  have hkept : changeStatus f.change ≠ .renamed := hshows.status ▸ hkept
  have hhunks : f.hunks ≠ [] := by simpa [hshows.hunks] using hhunks
  have hrecordOf := shownFile_of_modified hplain hhunks ((hplain.kind hhunks).resolve_right hkept)
  exact ⟨f,hf,by simpa [hrecordOf] using hpath,(reissues_of_plain hplain).full hhunks hkept⟩

end operations

theorem mem_showLines {l : Line} {ls : List Line} (h : l ∈ ls) (oldLine newLine : ℕ) :
    ∃ o n, showEdit o n l.toEdit ∈ showLines oldLine newLine ls := by
  induction ls generalizing oldLine newLine with
  | nil => simp at h
  | cons l' ls ih =>
    obtain rfl | h := List.mem_cons.mp h
    · exact ⟨oldLine,newLine,by simp [showLines]⟩
    · obtain ⟨o,n,hmem⟩ := ih h (oldLine+l'.kind.oldLines) (newLine+l'.kind.newLines)
      exact ⟨o,n,by simp [showLines,hmem]⟩

theorem plainHunk_of_clean {h : Hunk} (hclean : (showHunk h).Clean) : PlainHunk h := by
  refine ⟨hclean.unbroken,hclean.stripped,fun l hl => ?_⟩
  obtain ⟨o,n,hmem⟩ := mem_showLines hl h.oldStart h.newStart
  have hline := hclean.lines _ hmem
  exact ⟨hline.unbroken,hline.no_label⟩

theorem effect_of_fullFilePatch (hclean : file.Clean) {effect : Effect}
    (h : HasEffect (fullFilePatch file) effect) :
    effect.oldName ≠ none ∧ effect.newName ≠ none ∧ effect.oldMode = none ∧
      effect.newMode = none := by
  obtain ⟨text,hpatch,hread⟩ := h
  revert hpatch
  fun_cases fullFilePatch file <;> rintro ⟨⟩
  case case5 _ oldPath newPath _ hhunks oldLabel newLabel =>
    obtain ⟨hunk,hunks,hfile⟩ := List.exists_cons_of_ne_nil hhunks
    have hlit : ∀ s ∈ ["diff --git ","--- ","+++ "," ","a/","b/"], Unbroken (lit s) := by decide
    have hdev : Unbroken devNull := by decide
    have hpathOr : ∀ key path, Unbroken key → Unbroken path → Unbroken (pathOr key path) := by
      intro key path hkey hpath
      rw [pathOr]
      split <;> assumption
    have hlabel : ∀ s ∈ ["a/","b/"], ∀ path, Unbroken path →
        Unbroken (if path = devNull then devNull else lit s++path) := by
      intro s hs path hpath
      have hside : Unbroken (lit s) := hlit s (by simp_all)
      split <;> simp [hdev,hside,hpath]
    have hold : Unbroken oldLabel := hlabel "a/" (by simp) _ (hpathOr _ _ hclean.old_path hclean.path)
    have hnew : Unbroken newLabel := hlabel "b/" (by simp) _ (hpathOr _ _ hclean.new_path hclean.path)
    have hlines : ∀ text ∈ file.hunks.flatMap hunkText, Unbroken text := by
      intro text ht
      obtain ⟨hunk,hhunk,ht⟩ := List.mem_flatMap.mp ht
      exact unbroken_hunkText (hclean.hunks hunk hhunk) ht
    rw [hfile,List.flatMap_cons] at hread hlines
    refine read_labels (fun line hline => Unbroken.lf_not_mem ?_) hread
    simp only [List.mem_cons] at hline
    obtain rfl | rfl | rfl | hline := hline
    · simp [hlit,hold,hnew]
    · simp [hlit,hold]
    · simp [hlit,hnew]
    · exact hlines line (by simpa [hunkText] using hline)

theorem exists_of_forall₂ {α β : Type*} {R : α → β → Prop} {as : List α} {bs : List β}
    (h : List.Forall₂ R as bs) {a : α} (ha : a ∈ as) : ∃ b ∈ bs, R a b := by
  induction h with
  | nil => simp at ha
  | cons hab _ ih =>
    obtain rfl | ha := List.mem_cons.mp ha
    · exact ⟨_,List.mem_cons_self,hab⟩
    · obtain ⟨b,hb,hR⟩ := ih ha
      exact ⟨b,List.mem_cons_of_mem _ hb,hR⟩

theorem body_of_roundTrip (hclean : file.Clean) (hshows : Shows f file)
    (hreissues : Reissues f file) :
    (∀ h ∈ f.hunks, PlainHunk h) ∧
      (f.hunks ≠ [] → f.change = .modified none ∨ changeStatus f.change = .renamed) ∧
      Unbroken f.oldPath.text ∧ Unbroken f.path.text := by
  have hpath : Unbroken f.path.text := hshows.path ▸ hclean.path
  refine ⟨fun h hh => ?_,fun hhunks => ?_,?_,hpath⟩
  · exact plainHunk_of_clean (hclean.hunks _ (hshows.hunks ▸ List.mem_map_of_mem hh))
  · by_cases hrenamed : changeStatus f.change = .renamed
    · exact .inr hrenamed
    · obtain ⟨hold,hnew,holdMode,_⟩ :=
        effect_of_fullFilePatch hclean (hreissues.full hhunks hrenamed)
      left
      cases hchange : f.change with
      | modified modes =>
        cases modes with
        | none => rfl
        | some modes => simp [FileDiff.effect,hchange] at holdMode
      | added mode => simp [FileDiff.effect,hchange] at hold
      | deleted mode => simp [FileDiff.effect,hchange] at hnew
      | renamed source similarity modes => simp [hchange,changeStatus] at hrenamed
  · by_cases hrenamed : changeStatus f.change = .renamed
    · exact oldPath_of_shows hshows hrenamed ▸ hclean.old_path
    · exact oldPath_of_kept hrenamed ▸ hpath

/-- A comment of a query, deleted: git prints the line `--- total`. -/
def deletedComment : FileDiff where
  path := ⟨['q','.','s','q','l'],by decide,by decide⟩
  change := .modified none
  index := none
  hunks := [⟨1,0,[],[⟨⟨.delete,lit "-- total",false⟩,by decide⟩],by decide,by decide,by decide⟩]
  moved := by simp

/-- A line of a query, deleted. -/
def deletedLine : FileDiff where
  path := ⟨['q','.','s','q','l'],by decide,by decide⟩
  change := .modified none
  index := none
  hunks := [⟨1,0,[],[⟨⟨.delete,lit "total",false⟩,by decide⟩],by decide,by decide,by decide⟩]
  moved := by simp

theorem plain_deletedLine : ∀ f ∈ [deletedLine], PlainFile true f := by
  intro f hf
  obtain rfl := List.mem_singleton.mp hf
  refine ⟨fun _ => .inl rfl,fun h hh => ?_,⟨by decide,by decide,rfl⟩,⟨by decide,by decide,rfl⟩⟩
  obtain rfl := List.mem_singleton.mp hh
  refine ⟨by decide,rfl,fun l hl => ?_⟩
  obtain rfl := List.mem_singleton.mp hl
  exact ⟨by decide,by rintro (⟨-,h⟩ | ⟨h,-⟩) <;> revert h <;> decide⟩

def deletedLinePreview : List DiffFile := (parseUnifiedDiff (fun _ => none) (printDiff true [deletedLine])).files

theorem deleted_line_file_effect : ∃ file, findFile deletedLinePreview (lit "q.sql") = .ok file ∧
    ∃ f ∈ [deletedLine], f.path.text = lit "q.sql" ∧ HasEffect (fullFilePatch file) f.effect := by
  have hfound : (findFile deletedLinePreview (lit "q.sql")).toOption.any (·.hunks != []) := by decide +kernel
  cases hfile : findFile deletedLinePreview (lit "q.sql") with
  | error e =>
    rw [hfile] at hfound
    cases hfound
  | ok file =>
    rw [hfile] at hfound
    exact ⟨file,rfl,chosen_file_effect plain_deletedLine hfile (by simpa [Except.toOption] using hfound)⟩

end MinimaxCode.DiffRoundTrip
