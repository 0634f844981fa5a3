import MinimaxCode.EditScript
import MinimaxCode.JsonText
import MinimaxCode.SplitLines
import MinimaxCode.TextMode

/-!
# Hunks of an edited file

The lines of a text before and after an edit are compared; each run of blocks that differ
is a hunk. The patch of a hunk is printed with lines of context around it.
-/

namespace MinimaxCode.Hunks

open PyText PyJson SplitLines EditScript

def contextLines : ℕ := 3

def maxDiffFileSize : ℕ := 1024*1024

inductive HunkSource
  | agentEdit (promptIndex : ℤ)
  | externalEditOnAgentFile
  | external
  deriving DecidableEq

structure HunkLineInfo where
  oldStart : ℕ
  oldCount : ℕ
  newStart : ℕ
  newCount : ℕ
  deriving DecidableEq

structure Hunk where
  id : PyStr
  path : PyStr
  lineInfo : HunkLineInfo
  source : HunkSource
  oldText : Option PyStr
  newText : PyStr
  deriving DecidableEq

structure HunkBuilder where
  oldStart : ℕ
  newStart : ℕ
  oldLines : List PyStr
  newLines : List PyStr

def HunkBuilder.addOldLines (b : HunkBuilder) (lines : List PyStr) : HunkBuilder :=
  { b with oldLines := b.oldLines++lines }

def HunkBuilder.addNewLines (b : HunkBuilder) (lines : List PyStr) : HunkBuilder :=
  { b with newLines := b.newLines++lines }

def HunkBuilder.build (b : HunkBuilder) (id path : PyStr) (source : HunkSource) : Hunk where
  id := id
  path := path
  lineInfo := ⟨b.oldStart,b.oldLines.length,b.newStart,b.newLines.length⟩
  source := source
  oldText := if b.oldLines.isEmpty then none else some b.oldLines.flatten
  newText := b.newLines.flatten

/-- The variables of the loop over the opcodes. -/
structure Walk where
  hunks : List Hunk
  builder : Option HunkBuilder

section Compute

-- `newId` is what `HunkId.new` gives for the hunks in turn.
variable (newId : ℕ → PyStr) (path : PyStr) (source : HunkSource) (oldLines newLines : List PyStr)

/-- The builder is built into a hunk, if there is one. -/
def Walk.close (w : Walk) : Walk :=
  match w.builder with
  | some b => ⟨w.hunks++[b.build (newId w.hunks.length) path source],none⟩
  | none => w

def Walk.opened (w : Walk) (o : Opcode) : HunkBuilder :=
  w.builder.getD ⟨o.i1+1,o.j1+1,[],[]⟩

def Walk.opcode (w : Walk) (o : Opcode) : Walk :=
  match o.tag with
  | .equal => w.close newId path source
  | .delete => { w with builder := some ((w.opened o).addOldLines (slice oldLines o.i1 o.i2)) }
  | .insert => { w with builder := some ((w.opened o).addNewLines (slice newLines o.j1 o.j2)) }
  | .replace =>
    { w with
      builder := some (((w.opened o).addOldLines (slice oldLines o.i1 o.i2)).addNewLines
        (slice newLines o.j1 o.j2)) }

def hunksOf (opcodes : List Opcode) : List Hunk :=
  ((opcodes.foldl (Walk.opcode newId path source oldLines newLines) ⟨[],none⟩).close
    newId path source).hunks

/-- `_byte_len`, which raises on a text that has no encoding. -/
def byteLen (text : PyStr) : Option ℕ := (TextMode.encode text).map ByteArray.size

/-- `compute_hunks` with the opcodes that `difflib` answers for the lines. -/
def computeHunks (baseline current : PyStr) (opcodes : List Opcode) : Option (List Hunk) :=
  if baseline = current then some []
  else (byteLen baseline).bind fun baselineLen =>
    if maxDiffFileSize < baselineLen then some []
    else (byteLen current).map fun currentLen =>
      if maxDiffFileSize < currentLen then []
      else hunksOf newId path source (splitlinesKeep baseline) (splitlinesKeep current) opcodes

end Compute

/-- The numbers in the header of a patch, and the lines below it. -/
structure PatchText where
  oldStart : ℕ
  oldTotal : ℤ
  newStart : ℕ
  newTotal : ℤ
  body : List PyStr

def PatchText.header (p : PatchText) : PyStr :=
  lit "@@ -"++natText p.oldStart++lit ","++intText p.oldTotal++lit " +"++natText p.newStart++
    lit ","++intText p.newTotal++lit " @@"

/-- The lines whose numbers stand in a range, as far as there are any. -/
def contextOf (lines : List PyStr) (start stop : ℕ) : List PyStr :=
  ((List.range' start (stop-start)).filterMap fun i => lines[i]?).map (ch ' '::·)

def hunkPatch (baseline current : PyStr) (hunk : Hunk) : PatchText :=
  let oldLines := splitlines baseline
  let newLines := splitlines current
  let oldStartIdx := hunk.lineInfo.oldStart-1
  let newStartIdx := hunk.lineInfo.newStart-1
  let contextBeforeStart := oldStartIdx-contextLines
  let changesEndNew := newStartIdx+hunk.lineInfo.newCount
  let contextAfterEnd := min (changesEndNew+contextLines) newLines.length
  let changesEndOld := oldStartIdx+hunk.lineInfo.oldCount
  let contextAfterEndOld := min (changesEndOld+contextLines) oldLines.length
  let before : ℤ := oldStartIdx-contextBeforeStart
  { oldStart := contextBeforeStart+1
    oldTotal := before+hunk.lineInfo.oldCount+(contextAfterEndOld-changesEndOld)
    newStart := contextBeforeStart+1
    newTotal := before+hunk.lineInfo.newCount+(contextAfterEnd-changesEndNew)
    body := contextOf oldLines contextBeforeStart oldStartIdx++
      ((hunk.oldText.map splitlines).getD []).map (ch '-'::·)++
      (splitlines hunk.newText).map (ch '+'::·)++
      contextOf newLines changesEndNew contextAfterEnd }

def generateHunkPatch (baseline current : PyStr) (hunk : Hunk) : PyStr :=
  let p := hunkPatch baseline current hunk
  unlines (p.header::p.body)

def hunksOverlap (a b : Hunk) : Bool :=
  if a.path ≠ b.path then false
  else
    let aStart := a.lineInfo.oldStart
    let aEnd := a.lineInfo.oldStart+a.lineInfo.oldCount
    let bStart := b.lineInfo.oldStart
    let bEnd := b.lineInfo.oldStart+b.lineInfo.oldCount
    if a.lineInfo.oldCount = 0 ∧ b.lineInfo.oldCount = 0 then aStart = bStart
    else if a.lineInfo.oldCount = 0 then bStart ≤ aStart && aStart ≤ bEnd
    else if b.lineInfo.oldCount = 0 then aStart ≤ bStart && bStart ≤ aEnd
    else !(aEnd < bStart || bEnd < aStart)

def patchLines (content : PyStr) (startLine removeCount : ℕ) (insertText : PyStr) : PyStr :=
  let lines := splitlines content
  let startIdx := startLine-1
  let endIdx := min (startIdx+removeCount) lines.length
  let result := lines.take (min startIdx lines.length)++
    (if insertText.isEmpty then [] else splitlines insertText)++lines.drop endIdx
  let output := [ch '\n'].intercalate result
  if [ch '\n'] <:+ content ∧ output ≠ [] then output++[ch '\n'] else output

/-- The lines of the old text in the hunk give way to those of its new text. -/
def Hunk.change (h : Hunk) : Change PyStr :=
  ⟨h.lineInfo.oldStart-1,h.lineInfo.oldCount,splitlinesKeep h.newText⟩

def applyHunks (baseline : PyStr) (hunks : List Hunk) : PyStr :=
  (apply (splitlinesKeep baseline) (hunks.map Hunk.change)).flatten

/-- The first hunk ends before the second one begins, in both texts. -/
def Before (h h' : Hunk) : Prop :=
  h.lineInfo.oldStart+h.lineInfo.oldCount < h'.lineInfo.oldStart ∧
    h.lineInfo.newStart+h.lineInfo.newCount < h'.lineInfo.newStart

/-- What the lines of a patch say of one text: those with its mark and those of both. -/
def sideOf (mark : Char) (body : List PyStr) : List PyStr :=
  body.filterMap fun line =>
    match line with
    | c::rest => if c = ch ' ' ∨ c = ch mark then some rest else none
    | [] => none

/-- The change of the lines that a patch stands for, in place of its hunk. -/
def PatchText.change (p : PatchText) : Change PyStr :=
  ⟨p.oldStart-1,(sideOf '-' p.body).length,sideOf '+' p.body⟩

/-- The counts are those of the lines, the lines of the old text stand in the baseline where
the header says, and the patch does to the baseline what the hunk does. -/
structure Sound (baseline : PyStr) (h : Hunk) (p : PatchText) : Prop where
  oldTotal : p.oldTotal = (sideOf '-' p.body).length
  newTotal : p.newTotal = (sideOf '+' p.body).length
  applies : slice (splitlines baseline) (p.oldStart-1) (p.oldStart-1+(sideOf '-' p.body).length) =
    sideOf '-' p.body
  effect : apply (splitlines baseline) [p.change] = apply (splitlines baseline)
    [⟨h.lineInfo.oldStart-1,h.lineInfo.oldCount,splitlines h.newText⟩]

/-- Behind the hunk the texts go on with the same lines, as far as there is context. -/
def GoesOn (baseline current : PyStr) (h : Hunk) : Prop :=
  ((splitlines baseline).drop (h.lineInfo.oldStart-1+h.lineInfo.oldCount)).take contextLines =
    ((splitlines current).drop (h.lineInfo.newStart-1+h.lineInfo.newCount)).take contextLines

/-- A text that is not too long to be compared. -/
def Small (text : PyStr) : Prop := ∃ n, byteLen text = some n ∧ n ≤ maxDiffFileSize

/-- The hunk is made of a block of lines in each text. -/
structure Block (old new : List PyStr) (i i' j j' : ℕ) (h : Hunk) : Prop where
  old_le : i ≤ i'
  new_le : j ≤ j'
  old_length : i' ≤ old.length
  new_length : j' ≤ new.length
  lineInfo : h.lineInfo = ⟨i+1,i'-i,j+1,j'-j⟩
  oldText : h.oldText.getD [] = (slice old i i').flatten
  newText : h.newText = (slice new j j').flatten

theorem splitlinesKeep_slice (s : PyStr) (i j : ℕ) :
    splitlinesKeep (slice (splitlinesKeep s) i j).flatten = slice (splitlinesKeep s) i j := by
  have hdrop := splitlinesKeep_drop s i
  have htake := splitlinesKeep_take ((splitlinesKeep s).drop i).flatten (j-i)
  rwa [hdrop] at htake

section Walks

variable {baseline current : PyStr} {i j i' j' : ℕ} {hunks : List Hunk}

theorem Block.change {h : Hunk}
    (hb : Block (splitlinesKeep baseline) (splitlinesKeep current) i i' j j' h) :
    h.change = ⟨i,i'-i,slice (splitlinesKeep current) j j'⟩ := by
  rw [Hunk.change,hb.lineInfo,hb.newText,splitlinesKeep_slice]
  rfl

variable (baseline current) in
/-- Up to a place in each text, these are the hunks. -/
structure Built (i j : ℕ) (hunks : List Hunk) : Prop where
  rebuilds : Rebuilds (splitlinesKeep baseline) (splitlinesKeep current) i j (hunks.map Hunk.change)
  blocks : ∀ h ∈ hunks, ∃ i i' j j', Block (splitlinesKeep baseline) (splitlinesKeep current) i i' j j' h
  sorted : hunks.Pairwise Before

/-- All hunks end before a line of each text. -/
def EndBefore (i j : ℕ) (hunks : List Hunk) : Prop :=
  ∀ h ∈ hunks, h.lineInfo.oldStart+h.lineInfo.oldCount ≤ i ∧ h.lineInfo.newStart+h.lineInfo.newCount ≤ j

theorem EndBefore.mono (h : EndBefore i j hunks) (hi : i ≤ i') (hj : j ≤ j') : EndBefore i' j' hunks :=
  fun k hk => ⟨(h k hk).1.trans hi,(h k hk).2.trans hj⟩

theorem Built.push {h : Hunk} (hs : Built baseline current i j hunks) (hends : EndBefore i j hunks)
    (hb : Block (splitlinesKeep baseline) (splitlinesKeep current) i i' j j' h) :
    Built baseline current i' j' (hunks++[h]) ∧ EndBefore (i'+1) (j'+1) (hunks++[h]) := by
  have hi := hb.old_le
  have hj := hb.new_le
  refine ⟨⟨?_,?_,?_⟩,?_⟩
  · rw [List.map_append,List.map_singleton,hb.change]
    exact hs.rebuilds.change hi hj
  · intro k hk
    rcases List.mem_append.mp hk with hk | hk
    · exact hs.blocks k hk
    · rw [List.mem_singleton.mp hk]
      exact ⟨i,i',j,j',hb⟩
  · refine List.pairwise_append.mpr ⟨hs.sorted,List.pairwise_singleton _ _,fun k hk h' hh' => ?_⟩
    have hk := hends k hk
    rw [List.mem_singleton.mp hh',Before,hb.lineInfo]
    dsimp only
    omega
  · intro k hk
    rcases List.mem_append.mp hk with hk | hk
    · have hk := hends k hk
      omega
    · rw [List.mem_singleton.mp hk,hb.lineInfo]
      dsimp only
      omega

variable (baseline current) in
/-- The loop has come to a place in each text; an open builder has what lies between the
last equal block and there. -/
structure Walked (i₀ j₀ i j : ℕ) (w : Walk) : Prop where
  built : Built baseline current i₀ j₀ w.hunks
  ends : EndBefore i₀ j₀ w.hunks
  old_le : i₀ ≤ i
  new_le : j₀ ≤ j
  old_length : i ≤ (splitlinesKeep baseline).length
  new_length : j ≤ (splitlinesKeep current).length
  builder : (w.builder = none ∧ i₀ = i ∧ j₀ = j) ∨ w.builder =
    some ⟨i₀+1,j₀+1,slice (splitlinesKeep baseline) i₀ i,slice (splitlinesKeep current) j₀ j⟩

variable {i₀ j₀ : ℕ} {w : Walk}

theorem block_build (id path : PyStr) (source : HunkSource) (h : Walked baseline current i₀ j₀ i j w) :
    Block (splitlinesKeep baseline) (splitlinesKeep current) i₀ i j₀ j
      ((⟨i₀+1,j₀+1,slice (splitlinesKeep baseline) i₀ i,slice (splitlinesKeep current) j₀ j⟩ :
        HunkBuilder).build id path source) where
  old_le := h.old_le
  new_le := h.new_le
  old_length := h.old_length
  new_length := h.new_length
  lineInfo := by
    rw [HunkBuilder.build,length_slice h.old_length,length_slice h.new_length]
  oldText := by
    rw [HunkBuilder.build]
    dsimp only
    split
    · next hempty =>
      rw [List.isEmpty_iff.mp hempty]
      rfl
    · rfl
  newText := rfl

variable (newId : ℕ → PyStr) (path : PyStr) (source : HunkSource)

theorem Walked.close (h : Walked baseline current i₀ j₀ i j w) :
    (w.close newId path source).builder = none ∧
      Built baseline current i j (w.close newId path source).hunks ∧
      EndBefore (i+1) (j+1) (w.close newId path source).hunks := by
  rcases h.builder with ⟨hnone,rfl,rfl⟩ | hsome
  · have hclose : w.close newId path source = w := by rw [Walk.close,hnone]
    rw [hclose]
    exact ⟨hnone,h.built,h.ends.mono (Nat.le_succ _) (Nat.le_succ _)⟩
  · rw [Walk.close,hsome]
    exact ⟨rfl,h.built.push h.ends (block_build _ path source h)⟩

theorem Walked.opened {o : Opcode} (h : Walked baseline current i₀ j₀ o.i1 o.j1 w) :
    w.opened o = ⟨i₀+1,j₀+1,slice (splitlinesKeep baseline) i₀ o.i1,
      slice (splitlinesKeep current) j₀ o.j1⟩ := by
  rcases h.builder with ⟨hnone,rfl,rfl⟩ | hsome
  · rw [Walk.opened,hnone,slice_self,slice_self]
    rfl
  · rw [Walk.opened,hsome]
    rfl

theorem Walked.opcode {o : Opcode} (h : Walked baseline current i₀ j₀ o.i1 o.j1 w)
    (hfits : o.Fits (splitlinesKeep baseline) (splitlinesKeep current))
    (hi : o.i2 ≤ (splitlinesKeep baseline).length) (hj : o.j2 ≤ (splitlinesKeep current).length) :
    ∃ i₁ j₁, Walked baseline current i₁ j₁ o.i2 o.j2
      (w.opcode newId path source (splitlinesKeep baseline) (splitlinesKeep current) o) := by
  have hle := hfits.le
  have hold := h.old_le
  have hnew := h.new_le
  cases htag : o.tag with
  | equal =>
    simp only [Opcode.Fits,htag] at hfits
    obtain ⟨hi',hj',heq⟩ := hfits
    obtain ⟨hnone,hbuilt,hends⟩ := h.close newId path source
    have hbuilt' : Built baseline current o.i2 o.j2 (w.close newId path source).hunks :=
      ⟨hbuilt.rebuilds.equal hle.1 hle.2 heq,hbuilt.blocks,hbuilt.sorted⟩
    simp only [Walk.opcode,htag]
    exact ⟨o.i2,o.j2,hbuilt',hends.mono hi' hj',Nat.le_refl _,Nat.le_refl _,hi,hj,.inl ⟨hnone,rfl,rfl⟩⟩
  | delete =>
    simp only [Opcode.Fits,htag] at hfits
    simp only [Walk.opcode,htag]
    refine ⟨i₀,j₀,h.built,h.ends,hold.trans hle.1,hnew.trans hle.2,hi,hj,.inr ?_⟩
    rw [h.opened,HunkBuilder.addOldLines,slice_append hold hle.1,hfits.2]
  | insert =>
    simp only [Opcode.Fits,htag] at hfits
    simp only [Walk.opcode,htag]
    refine ⟨i₀,j₀,h.built,h.ends,hold.trans hle.1,hnew.trans hle.2,hi,hj,.inr ?_⟩
    rw [h.opened,HunkBuilder.addNewLines,slice_append hnew hle.2,hfits.1]
  | replace =>
    simp only [Walk.opcode,htag]
    refine ⟨i₀,j₀,h.built,h.ends,hold.trans hle.1,hnew.trans hle.2,hi,hj,.inr ?_⟩
    rw [h.opened,HunkBuilder.addOldLines,HunkBuilder.addNewLines,slice_append hold hle.1,
      slice_append hnew hle.2]

theorem walked_foldl (opcodes : List Opcode) (h : Walked baseline current i₀ j₀ i j w)
    (hvalid : ValidFrom (splitlinesKeep baseline) (splitlinesKeep current) i j opcodes) :
    ∃ i₁ j₁, Walked baseline current i₁ j₁ (splitlinesKeep baseline).length
      (splitlinesKeep current).length (opcodes.foldl (Walk.opcode newId path source
        (splitlinesKeep baseline) (splitlinesKeep current)) w) := by
  induction opcodes generalizing i₀ j₀ i j w with
  | nil =>
    obtain ⟨rfl,rfl⟩ := hvalid
    exact ⟨i₀,j₀,h⟩
  | cons o opcodes ih =>
    obtain ⟨rfl,rfl,hi,hj,hfits,hrest⟩ := hvalid
    obtain ⟨i₁,j₁,hstep⟩ := h.opcode newId path source hfits hi hj
    exact ih hstep hrest

theorem built_hunksOf (opcodes : List Opcode)
    (hvalid : Valid (splitlinesKeep baseline) (splitlinesKeep current) opcodes) :
    Built baseline current (splitlinesKeep baseline).length (splitlinesKeep current).length
      (hunksOf newId path source (splitlinesKeep baseline) (splitlinesKeep current) opcodes) := by
  have hstart : Walked baseline current 0 0 0 0 ⟨[],none⟩ :=
    ⟨⟨rebuilds_nil _ _,nofun,.nil⟩,nofun,Nat.le_refl _,Nat.le_refl _,Nat.zero_le _,Nat.zero_le _,
      .inl ⟨rfl,rfl,rfl⟩⟩
  obtain ⟨i₁,j₁,hwalked⟩ := walked_foldl newId path source opcodes hstart hvalid
  exact (hwalked.close newId path source).2.1

end Walks

theorem contextOf_eq (lines : List PyStr) (start stop : ℕ) :
    contextOf lines start stop = (slice lines start stop).map (ch ' '::·) := by
  rw [contextOf,filterMap_range']
  rfl

theorem sideOf_append (mark : Char) (body body' : List PyStr) :
    sideOf mark (body++body') = sideOf mark body++sideOf mark body' :=
  List.filterMap_append

theorem sideOf_map {mark c : Char} (h : c = ' ' ∨ c = mark) (lines : List PyStr) :
    sideOf mark (lines.map (ch c::·)) = lines := by
  rw [sideOf,List.filterMap_map]
  refine (List.filterMap_congr fun line _ => ?_).trans List.filterMap_some
  rcases h with rfl | rfl <;> simp

theorem sideOf_map_of_ne {mark c : Char} (hc : c ≠ ' ') (hne : c ≠ mark) (lines : List PyStr) :
    sideOf mark (lines.map (ch c::·)) = [] := by
  rw [sideOf,List.filterMap_map]
  refine List.filterMap_eq_nil_iff.mpr fun line _ => ?_
  simp [hc,hne]

theorem splitlines_slice (s : PyStr) (i j : ℕ) :
    splitlines (slice (splitlinesKeep s) i j).flatten = slice (splitlines s) i j := by
  rw [splitlines_eq,splitlines_eq,splitlinesKeep_slice,slice_map]

section Patches

variable {baseline current : PyStr} {i j i' j' : ℕ} {h : Hunk}

theorem lines_of_block
    (hb : Block (splitlinesKeep baseline) (splitlinesKeep current) i i' j j' h) :
    (h.oldText.map splitlines).getD [] = slice (splitlines baseline) i i' ∧
      splitlines h.newText = slice (splitlines current) j j' := by
  refine ⟨?_,by rw [hb.newText,splitlines_slice]⟩
  rw [← splitlines_slice,← hb.oldText]
  cases h.oldText <;> rfl

theorem body_hunkPatch
    (hb : Block (splitlinesKeep baseline) (splitlinesKeep current) i i' j j' h) :
    (hunkPatch baseline current h).body =
      (slice (splitlines baseline) (i-contextLines) i).map (ch ' '::·)++
        (slice (splitlines baseline) i i').map (ch '-'::·)++
        (slice (splitlines current) j j').map (ch '+'::·)++
        (slice (splitlines current) j' (j'+contextLines)).map (ch ' '::·) := by
  obtain ⟨hold,hnew⟩ := lines_of_block hb
  have hi := hb.old_le
  have hj := hb.new_le
  have hlen : j' ≤ (splitlines current).length := by
    rw [length_splitlines]
    exact hb.new_length
  have hstop : j+(j'-j) = j' := by omega
  simp only [hunkPatch,hold,hnew,contextOf_eq,hb.lineInfo,Nat.add_sub_cancel,hstop,slice_min hlen]

theorem oldSide_hunkPatch
    (hb : Block (splitlinesKeep baseline) (splitlinesKeep current) i i' j j' h) :
    sideOf '-' (hunkPatch baseline current h).body =
      slice (splitlines baseline) (i-contextLines) i'++
        slice (splitlines current) j' (j'+contextLines) := by
  rw [body_hunkPatch hb,sideOf_append,sideOf_append,sideOf_append,sideOf_map (.inl rfl),
    sideOf_map (.inr rfl),sideOf_map_of_ne (by decide) (by decide),sideOf_map (.inl rfl),
    List.append_nil,slice_append (Nat.sub_le i _) hb.old_le]

theorem newSide_hunkPatch
    (hb : Block (splitlinesKeep baseline) (splitlinesKeep current) i i' j j' h) :
    sideOf '+' (hunkPatch baseline current h).body =
      slice (splitlines baseline) (i-contextLines) i++slice (splitlines current) j j'++
        slice (splitlines current) j' (j'+contextLines) := by
  rw [body_hunkPatch hb,sideOf_append,sideOf_append,sideOf_append,sideOf_map (.inl rfl),
    sideOf_map_of_ne (by decide) (by decide),sideOf_map (.inr rfl),sideOf_map (.inl rfl),
    List.append_nil]

theorem numbers_hunkPatch
    (hb : Block (splitlinesKeep baseline) (splitlinesKeep current) i i' j j' h) :
    (hunkPatch baseline current h).oldStart = i-contextLines+1 ∧
      (hunkPatch baseline current h).oldTotal = (i:ℤ)-(i-contextLines:ℕ)+(i'-i:ℕ)+
        (min (i'+contextLines) (splitlines baseline).length-i') ∧
      (hunkPatch baseline current h).newTotal = (i:ℤ)-(i-contextLines:ℕ)+(j'-j:ℕ)+
        (min (j'+contextLines) (splitlines current).length-j') := by
  have hi : i+(i'-i) = i' := Nat.add_sub_cancel' hb.old_le
  have hj : j+(j'-j) = j' := Nat.add_sub_cancel' hb.new_le
  refine ⟨?_,?_,?_⟩ <;> simp only [hunkPatch,hb.lineInfo,Nat.add_sub_cancel,hi,hj]

theorem length_of_block
    (hb : Block (splitlinesKeep baseline) (splitlinesKeep current) i i' j j' h) :
    i' ≤ (splitlines baseline).length ∧ j' ≤ (splitlines current).length := by
  rw [length_splitlines,length_splitlines]
  exact ⟨hb.old_length,hb.new_length⟩

theorem goesOn_iff
    (hb : Block (splitlinesKeep baseline) (splitlinesKeep current) i i' j j' h) :
    GoesOn baseline current h ↔ slice (splitlines baseline) i' (i'+contextLines) =
      slice (splitlines current) j' (j'+contextLines) := by
  have hi : i+(i'-i) = i' := Nat.add_sub_cancel' hb.old_le
  have hj : j+(j'-j) = j' := Nat.add_sub_cancel' hb.new_le
  simp only [GoesOn,hb.lineInfo,Nat.add_sub_cancel,hi,hj,slice,Nat.add_sub_cancel_left]

theorem length_slice_context (lines : List PyStr) {k : ℕ} (hk : k ≤ lines.length) :
    (slice lines k (k+contextLines)).length = min (k+contextLines) lines.length-k := by
  rw [← slice_min hk,length_slice (Nat.min_le_right _ _)]

theorem le_window {k n : ℕ} (hk : k ≤ n) : k ≤ min (k+contextLines) n :=
  Nat.le_min.mpr ⟨Nat.le_add_right k contextLines,hk⟩

theorem oldSide_of_goesOn
    (hb : Block (splitlinesKeep baseline) (splitlinesKeep current) i i' j j' h)
    (hgoes : GoesOn baseline current h) : sideOf '-' (hunkPatch baseline current h).body =
      slice (splitlines baseline) (i-contextLines)
        (min (i'+contextLines) (splitlines baseline).length) := by
  have hfront : i-contextLines ≤ i' := Nat.le_trans (Nat.sub_le i _) hb.old_le
  rw [oldSide_hunkPatch hb,← (goesOn_iff hb).mp hgoes,
    slice_append hfront (Nat.le_add_right i' contextLines),slice_min]
  exact Nat.le_trans hfront (length_of_block hb).1

theorem length_oldSide_of_goesOn
    (hb : Block (splitlinesKeep baseline) (splitlinesKeep current) i i' j j' h)
    (hgoes : GoesOn baseline current h) : (sideOf '-' (hunkPatch baseline current h).body).length =
      min (i'+contextLines) (splitlines baseline).length-(i-contextLines) := by
  rw [oldSide_of_goesOn hb hgoes,length_slice (Nat.min_le_right _ _)]

theorem oldTotal_of_goesOn
    (hb : Block (splitlinesKeep baseline) (splitlinesKeep current) i i' j j' h)
    (hgoes : GoesOn baseline current h) : (hunkPatch baseline current h).oldTotal =
      (sideOf '-' (hunkPatch baseline current h).body).length := by
  have hi := hb.old_le
  have hfront := Nat.sub_le i contextLines
  have hback := le_window (length_of_block hb).1
  rw [(numbers_hunkPatch hb).2.1,length_oldSide_of_goesOn hb hgoes]
  generalize i-contextLines = c at hfront
  generalize min (i'+contextLines) (splitlines baseline).length = n at hback
  rw [Nat.cast_sub hi,Nat.cast_sub (Nat.le_trans hfront (Nat.le_trans hi hback))]
  ring

theorem newTotal_hunkPatch
    (hb : Block (splitlinesKeep baseline) (splitlinesKeep current) i i' j j' h) :
    (hunkPatch baseline current h).newTotal =
      (sideOf '+' (hunkPatch baseline current h).body).length := by
  obtain ⟨hi',hj'⟩ := length_of_block hb
  have hi := Nat.le_trans hb.old_le hi'
  have hfront := Nat.sub_le i contextLines
  have hback := le_window hj'
  rw [(numbers_hunkPatch hb).2.2,newSide_hunkPatch hb,List.length_append,List.length_append,
    length_slice hi,length_slice hj',length_slice_context _ hj']
  generalize i-contextLines = c at hfront
  generalize min (j'+contextLines) (splitlines current).length = n at hback
  rw [Nat.cast_add,Nat.cast_add,Nat.cast_sub hfront,Nat.cast_sub hback]

theorem effect_of_goesOn
    (hb : Block (splitlinesKeep baseline) (splitlinesKeep current) i i' j j' h)
    (hgoes : GoesOn baseline current h) :
    apply (splitlines baseline) [(hunkPatch baseline current h).change] =
      apply (splitlines baseline)
        [⟨h.lineInfo.oldStart-1,h.lineInfo.oldCount,splitlines h.newText⟩] := by
  obtain ⟨hi',-⟩ := length_of_block hb
  have hwindow := le_window hi'
  have hstop : i-contextLines+(sideOf '-' (hunkPatch baseline current h).body).length =
      min (i'+contextLines) (splitlines baseline).length := by
    rw [length_oldSide_of_goesOn hb hgoes]
    exact Nat.add_sub_cancel' (Nat.le_trans (Nat.sub_le i _) (Nat.le_trans hb.old_le hwindow))
  have hback : i+(i'-i) = i' := Nat.add_sub_cancel' hb.old_le
  have hfront := slice_append (a := splitlines baseline) (Nat.zero_le _) (Nat.sub_le i contextLines)
  have hrest : slice (splitlines baseline) i' (min (i'+contextLines) (splitlines baseline).length)++
      slice (splitlines baseline) (min (i'+contextLines) (splitlines baseline).length)
        (splitlines baseline).length = slice (splitlines baseline) i' (splitlines baseline).length :=
    slice_append hwindow (Nat.min_le_right _ _)
  simp only [apply,applyTo,PatchText.change,Change.stop,(numbers_hunkPatch hb).1,Nat.add_sub_cancel,
    hstop,newSide_hunkPatch hb,hb.lineInfo,hback,(lines_of_block hb).2]
  rw [← (goesOn_iff hb).mp hgoes,← slice_min hi',← hfront,← hrest]
  simp only [List.append_assoc]

theorem sound_of_goesOn
    (hb : Block (splitlinesKeep baseline) (splitlinesKeep current) i i' j j' h)
    (hgoes : GoesOn baseline current h) : Sound baseline h (hunkPatch baseline current h) where
  oldTotal := oldTotal_of_goesOn hb hgoes
  newTotal := newTotal_hunkPatch hb
  applies := by
    rw [(numbers_hunkPatch hb).1,Nat.add_sub_cancel,oldSide_of_goesOn hb hgoes,slice_of_length]
  effect := effect_of_goesOn hb hgoes

theorem sound_iff
    (hb : Block (splitlinesKeep baseline) (splitlinesKeep current) i i' j j' h) :
    Sound baseline h (hunkPatch baseline current h) ↔ GoesOn baseline current h := by
  refine ⟨fun hsound => (goesOn_iff hb).mpr ?_,sound_of_goesOn hb⟩
  obtain ⟨hstart,hold,-⟩ := numbers_hunkPatch hb
  obtain ⟨hi',-⟩ := length_of_block hb
  have hi := hb.old_le
  have hlength := hsound.oldTotal
  have happlies := hsound.applies
  rw [hold,oldSide_hunkPatch hb,List.length_append,length_slice hi'] at hlength
  rw [hstart,Nat.add_sub_cancel,oldSide_hunkPatch hb,List.length_append,length_slice hi'] at happlies
  have hstop : i-contextLines+(i'-(i-contextLines)+
      (slice (splitlines current) j' (j'+contextLines)).length) =
        min (i'+contextLines) (splitlines baseline).length := by omega
  rw [hstop,← slice_append (Nat.le_trans (Nat.sub_le i _) hi) (by omega)] at happlies
  rw [← slice_min hi']
  exact List.append_cancel_left happlies

end Patches

theorem lf_not_mem_natText (n : ℕ) : ch '\n' ∉ natText n :=
  fun h => absurd (natText_digits n _ h) (by decide)

theorem lf_not_mem_intText (n : ℤ) : ch '\n' ∉ intText n := by
  rw [intText]
  split
  · simp [lf_not_mem_natText]
  · exact lf_not_mem_natText _

theorem lf_not_mem_header (p : PatchText) : ch '\n' ∉ p.header := by
  simp [PatchText.header,lf_not_mem_natText,lf_not_mem_intText,lit]

variable {line : PyStr} {lines : List PyStr}

theorem lf_not_mem_marked (hlines : ∀ line ∈ lines, Unbroken line) {c : Char}
    (hc : c ≠ '\n') (hline : line ∈ lines.map (ch c::·)) : ch '\n' ∉ line := by
  obtain ⟨rest,hrest,rfl⟩ := List.mem_map.mp hline
  have hlf := (hlines rest hrest).lf_not_mem
  simp [hlf,Ne.symm hc]

theorem unbroken_slice {s : PyStr} {i j : ℕ} (h : line ∈ slice (splitlines s) i j) :
    Unbroken line :=
  unbroken_of_mem_splitlines (List.mem_of_mem_drop (List.mem_of_mem_take h))

theorem lf_not_mem_body {baseline current : PyStr} {h : Hunk}
    (hline : line ∈ (hunkPatch baseline current h).body) : ch '\n' ∉ line := by
  simp only [hunkPatch,contextOf_eq,List.mem_append] at hline
  rcases hline with ((hline | hline) | hline) | hline
  · exact lf_not_mem_marked (fun _ => unbroken_slice) (by decide) hline
  · refine lf_not_mem_marked (fun rest hrest => ?_) (by decide) hline
    cases htext : h.oldText with
    | none => simp [htext] at hrest
    | some text =>
      rw [htext] at hrest
      exact unbroken_of_mem_splitlines hrest
  · exact lf_not_mem_marked (fun _ => unbroken_of_mem_splitlines) (by decide) hline
  · exact lf_not_mem_marked (fun _ => unbroken_slice) (by decide) hline

theorem splitOn_generateHunkPatch (baseline current : PyStr) (h : Hunk) :
    splitOn (ch '\n') (generateHunkPatch baseline current h) =
      (hunkPatch baseline current h).header::(hunkPatch baseline current h).body++[[]] := by
  refine splitOn_unlines fun line hline => ?_
  rcases List.mem_cons.mp hline with rfl | hline
  · exact lf_not_mem_header _
  · exact lf_not_mem_body hline

theorem intercalate_ne_nil (h : lines ≠ []) (hne : lines ≠ [[]]) :
    [ch '\n'].intercalate lines ≠ [] := by
  match lines with
  | [line] =>
    intro hnil
    apply hne
    simpa [List.intercalate] using hnil
  | line::line'::lines =>
    rw [List.intercalate_cons_cons]
    simp

theorem unbroken_of_mem_apply {start count : ℕ} {text : PyStr}
    (hlines : ∀ line ∈ lines, Unbroken line)
    (h : line ∈ apply lines [⟨start,count,splitlines text⟩]) : Unbroken line := by
  simp only [apply,applyTo,List.mem_append] at h
  rcases h with (h | h) | h
  · exact hlines line (List.mem_of_mem_drop (List.mem_of_mem_take h))
  · exact unbroken_of_mem_splitlines h
  · exact hlines line (List.mem_of_mem_drop (List.mem_of_mem_take h))

theorem patchLines_eq {content : PyStr} (hends : [ch '\n'] <:+ content)
    (startLine removeCount : ℕ) (insertText : PyStr) :
    let output := [ch '\n'].intercalate
      (apply (splitlines content) [⟨startLine-1,removeCount,splitlines insertText⟩])
    patchLines content startLine removeCount insertText =
      if output ≠ [] then output++[ch '\n'] else output := by
  have hinsert : (if insertText.isEmpty then [] else splitlines insertText) = splitlines insertText := by
    cases insertText <;> rfl
  have hfront : (splitlines content).take (min (startLine-1) (splitlines content).length) =
      slice (splitlines content) 0 (startLine-1) := by
    rw [← slice_zero,slice_min (Nat.zero_le _)]
  have hrest : (splitlines content).drop (min (startLine-1+removeCount) (splitlines content).length) =
      slice (splitlines content) (startLine-1+removeCount) (splitlines content).length := by
    rw [slice_length]
    rcases Nat.le_total (startLine-1+removeCount) (splitlines content).length with h | h
    · rw [Nat.min_eq_left h]
    · rw [Nat.min_eq_right h,List.drop_length,List.drop_eq_nil_of_le h]
  simp only [patchLines,hinsert,hfront,hrest,hends,true_and]
  rfl

/-- In a text that ends with a line feed the lines are changed as a hunk says, unless only an
empty line is left. -/
theorem splitlines_patchLines {content : PyStr} (hends : [ch '\n'] <:+ content)
    (startLine removeCount : ℕ) (insertText : PyStr)
    (hne : apply (splitlines content) [⟨startLine-1,removeCount,splitlines insertText⟩] ≠ [[]]) :
    splitlines (patchLines content startLine removeCount insertText) =
      apply (splitlines content) [⟨startLine-1,removeCount,splitlines insertText⟩] := by
  rw [patchLines_eq hends]
  generalize hresult : apply (splitlines content) [⟨startLine-1,removeCount,splitlines insertText⟩] =
    result at hne ⊢
  cases hnil : result with
  | nil => rfl
  | cons line lines =>
    have hcons : result ≠ [] := hnil ▸ List.cons_ne_nil line lines
    rw [← hnil]
    rw [if_pos (intercalate_ne_nil hcons hne),intercalate_lf hcons]
    refine splitlines_unlines fun l hl => ?_
    rw [← hresult] at hl
    exact unbroken_of_mem_apply (fun _ => unbroken_of_mem_splitlines) hl

theorem splitlines_patchLines_two : splitlines (patchLines (lit "a\nb\n") 1 1 (lit "c\nd")) =
    apply (splitlines (lit "a\nb\n")) [⟨1-1,1,splitlines (lit "c\nd")⟩] :=
  splitlines_patchLines (by decide) 1 1 _ (by decide)

section Results

variable (newId : ℕ → PyStr) (path : PyStr) (source : HunkSource)

theorem not_overlap_of_before {h h' : Hunk} (hbefore : Before h h') : hunksOverlap h h' = false := by
  have hold := hbefore.1
  simp only [hunksOverlap]
  split
  · rfl
  · split
    · exact decide_eq_false (by omega)
    · split
      · simp
        omega
      · split
        · simp
          omega
        · simp
          omega

theorem computeHunks_small {baseline current : PyStr} (opcodes : List Opcode) (hne : baseline ≠ current)
    (hbaseline : Small baseline) (hcurrent : Small current) :
    computeHunks newId path source baseline current opcodes =
      some (hunksOf newId path source (splitlinesKeep baseline) (splitlinesKeep current) opcodes) := by
  obtain ⟨n,hn,hle⟩ := hbaseline
  obtain ⟨m,hm,hle'⟩ := hcurrent
  rw [computeHunks,if_neg hne,hn,Option.bind_some,if_neg (Nat.not_lt.mpr hle),hm,Option.map_some,
    if_neg (Nat.not_lt.mpr hle')]

/-- The hunks make the new text of the old one, come one after another, and their patches
print what they say. -/
def Reconstructs (sound : Hunk → Prop) (baseline current : PyStr) (opcodes : List Opcode) : Prop :=
  ∃ hunks, computeHunks newId path source baseline current opcodes = some hunks ∧
    applyHunks baseline hunks = current ∧
    hunks.Pairwise (fun h h' => Before h h' ∧ hunksOverlap h h' = false) ∧
    ∀ h ∈ hunks, splitOn (ch '\n') (generateHunkPatch baseline current h) =
      (hunkPatch baseline current h).header::(hunkPatch baseline current h).body++[[]] ∧
        (sound h → Sound baseline h (hunkPatch baseline current h))

/-- Texts that are not too long are rebuilt from their hunks, and a patch behind which the
texts go on alike is sound. -/
theorem reconstructs {baseline current : PyStr} {opcodes : List Opcode}
    (hvalid : Valid (splitlinesKeep baseline) (splitlinesKeep current) opcodes)
    (hsmall : baseline = current ∨ Small baseline ∧ Small current) :
    Reconstructs newId path source (GoesOn baseline current) baseline current opcodes := by
  by_cases heq : baseline = current
  · subst heq
    refine ⟨[],if_pos rfl,?_,.nil,nofun⟩
    rw [applyHunks,List.map_nil,apply,applyTo,slice_length,List.drop_zero,flatten_splitlinesKeep]
  · obtain ⟨hbaseline,hcurrent⟩ := hsmall.resolve_left heq
    have hbuilt := built_hunksOf newId path source opcodes hvalid
    refine ⟨_,computeHunks_small newId path source opcodes heq hbaseline hcurrent,?_,?_,?_⟩
    · rw [applyHunks,hbuilt.rebuilds.apply,flatten_splitlinesKeep]
    · exact hbuilt.sorted.imp fun hbefore => ⟨hbefore,not_overlap_of_before hbefore⟩
    · intro h hh
      obtain ⟨i,i',j,j',hb⟩ := hbuilt.blocks h hh
      exact ⟨splitOn_generateHunkPatch baseline current h,sound_of_goesOn hb⟩

end Results

/-- One line in the middle changes. -/
theorem reconstructs_oneLine : Reconstructs natText (lit "t.py") .external
    (GoesOn (lit "a\nold\nc") (lit "a\nnew\nc")) (lit "a\nold\nc") (lit "a\nnew\nc")
    [⟨.equal,0,1,0,1⟩,⟨.replace,1,2,1,2⟩,⟨.equal,2,3,2,3⟩] :=
  reconstructs natText (lit "t.py") .external (by decide +kernel)
    (.inr ⟨⟨7,by decide +kernel,by decide⟩,⟨7,by decide +kernel,by decide⟩⟩)

def oversized : PyStr := List.replicate (maxDiffFileSize+1) (ch 'x')

theorem byteLen_replicate (n : ℕ) : byteLen (List.replicate n (ch 'x')) = some n := by
  have hencode := TextMode.encode_eq_some_iff.mpr
    ⟨List.replicate n 'x',(List.map_replicate (f := PyChar.scalar)).symm,rfl⟩
  have hwidth : (String.utf8EncodeChar 'x').length = 1 := by decide
  rw [byteLen,hencode,Option.map_some,List.utf8Encode,List.size_toByteArray,List.length_flatMap,
    List.map_replicate,hwidth]
  simp

theorem oversized_not_rebuilt :
    ¬ Reconstructs natText (lit "t.py") .external (fun _ => True) oversized []
      [⟨.delete,0,1,0,0⟩] := by
  rintro ⟨hunks,hhunks,hrebuilt,-,-⟩
  have hne : oversized ≠ [] := by simp [oversized]
  have hover : maxDiffFileSize < maxDiffFileSize+1 := Nat.lt_succ_self _
  rw [computeHunks,if_neg hne,oversized,byteLen_replicate,Option.bind_some,if_pos hover] at hhunks
  cases hhunks
  rw [applyHunks,List.map_nil,apply,applyTo,slice_length,List.drop_zero,flatten_splitlinesKeep]
    at hrebuilt
  exact hne hrebuilt

theorem valid_oversized : Valid (splitlinesKeep oversized) (splitlinesKeep []) [⟨.delete,0,1,0,0⟩] := by
  have hunbroken : Unbroken oversized := by
    intro c hc
    rw [List.eq_of_mem_replicate hc]
    rfl
  rw [splitlinesKeep_unbroken hunbroken (by simp [oversized])]
  decide

/-- A text that is too long has no hunks, one without an encoding raises an exception, and
the patch of a hunk near the end counts the lines behind it in the wrong text. -/
theorem limits_of_reconstruction :
    (Valid (splitlinesKeep oversized) (splitlinesKeep []) [⟨.delete,0,1,0,0⟩] ∧
      ¬ Reconstructs natText (lit "t.py") .external (fun _ => True) oversized []
        [⟨.delete,0,1,0,0⟩]) ∧
    (Valid (splitlinesKeep [.surrogate 0]) (splitlinesKeep []) [⟨.delete,0,1,0,0⟩] ∧
      ¬ Reconstructs natText (lit "t.py") .external (fun _ => True) [.surrogate 0] []
        [⟨.delete,0,1,0,0⟩]) ∧
    (Valid (splitlinesKeep (lit "a\nb\nc\n")) (splitlinesKeep (lit "A\nb\n"))
        [⟨.replace,0,1,0,1⟩,⟨.equal,1,2,1,2⟩,⟨.delete,2,3,2,2⟩] ∧
      ¬ Reconstructs natText (lit "t.py") .external (fun _ => True) (lit "a\nb\nc\n") (lit "A\nb\n")
        [⟨.replace,0,1,0,1⟩,⟨.equal,1,2,1,2⟩,⟨.delete,2,3,2,2⟩]) := by
  refine ⟨⟨valid_oversized,oversized_not_rebuilt⟩,⟨by decide +kernel,?_⟩,⟨by decide +kernel,?_⟩⟩
  · rintro ⟨hunks,hhunks,-⟩
    have hnone : computeHunks natText (lit "t.py") .external [.surrogate 0] [] [⟨.delete,0,1,0,0⟩] =
        none := by decide +kernel
    rw [hnone] at hhunks
    cases hhunks
  · rintro ⟨hunks,hhunks,-,-,hall⟩
    have hsome : computeHunks natText (lit "t.py") .external (lit "a\nb\nc\n") (lit "A\nb\n")
        [⟨.replace,0,1,0,1⟩,⟨.equal,1,2,1,2⟩,⟨.delete,2,3,2,2⟩] =
          some [⟨lit "0",lit "t.py",⟨1,1,1,1⟩,.external,some (lit "a\n"),lit "A\n"⟩,
            ⟨lit "1",lit "t.py",⟨3,1,3,0⟩,.external,some (lit "c\n"),[]⟩] := by decide +kernel
    rw [hsome] at hhunks
    cases hhunks
    have hsound := ((hall _ List.mem_cons_self).2 trivial).oldTotal
    revert hsound
    decide +kernel

end MinimaxCode.Hunks
