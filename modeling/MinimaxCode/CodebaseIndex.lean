import Mathlib.Data.List.Sort
import MinimaxCode.EditFile
import MinimaxCode.OrderedDict
import MinimaxCode.Runs
import MinimaxCode.SplitLines
import MinimaxCode.TextMode

/-!
# The codebase index

An indexer cuts the source files of a workspace into chunks and stores them in its shard of
the database, beside the time and size of each file it has read. A forced build starts from
an empty shard, an incremental one reads the files again whose time or size has changed.
-/

namespace MinimaxCode.CodebaseIndex

open PyText OrderedDict Runs SplitLines TextMode EditFile

structure FileStat where
  mtime : ℚ
  size : ℕ
  deriving DecidableEq

/-- A file, with what `stat` says of it unless it fails. -/
structure File where
  stat : Option FileStat
  readable : Bool
  bytes : ByteArray

/-- The files below the workspace, in the order in which `os.walk` meets them. -/
structure Workspace where
  files : List (PyStr × File)
  distinct : (keys files).Nodup

inductive SymbolNode
  | mk (name kind : PyStr) (line : ℕ) (children : List SymbolNode)

/-- An indexer. The parsers are given the extension, the text and the name of a file, and
raise when they give nothing. -/
structure Indexer where
  rootKey : PyStr
  maxFiles : ℕ := 500
  maxFileSize : ℕ := 2*1024*1024
  parser : PyStr → PyStr → PyStr → Option (List SymbolNode)

def sourceExtensions : List PyStr :=
  [lit ".py",lit ".js",lit ".jsx",lit ".ts",lit ".tsx",lit ".mjs",lit ".cjs",lit ".java",lit ".go"]

def skipDirs : List PyStr :=
  [lit ".git",lit ".venv",lit "node_modules",lit "__pycache__",lit ".pytest_cache",
    lit ".mypy_cache",lit ".tox",lit "dist",lit "build",lit ".eggs",lit ".minimax",
    lit ".hg",lit ".svn",lit "vendor",lit ".next",lit ".nuxt",lit "coverage",lit ".coverage",
    lit "htmlcov",lit ".terraform",lit ".serverless",lit ".playwright-mcp",lit ".ruff_cache",
    lit "grok-build"]

def skipFiles : List PyStr :=
  [lit "package-lock.json",lit "yarn.lock",lit "pnpm-lock.yaml",lit "uv.lock",lit "poetry.lock",
    lit "go.sum",lit ".DS_Store",lit "Thumbs.db"]

def binarySniff : ℕ := 8192

def chunkSize : ℕ := 50

def chunkOverlap : ℕ := 5

def fileName (relPath : PyStr) : PyStr := (splitOn (ch '/') relPath).getLast?.getD []

def parentNames (relPath : PyStr) : List PyStr := (splitOn (ch '/') relPath).dropLast

/-- `Path.suffix` of a name. -/
def suffix (name : PyStr) : PyStr :=
  let i := name.length-(name.reverse.takeWhile (· ≠ ch '.')).length-1
  if ch '.' ∈ name ∧ 0 < i ∧ i < name.length-1 then name.drop i else []

/-- What the walk makes of a file. -/
def Indexer.accepts (ix : Indexer) (f : PyStr × File) : Option (PyStr × FileStat) :=
  if (parentNames f.1).any (· ∈ skipDirs) then none
  else if fileName f.1 ∈ skipFiles then none
  else if lower (suffix (fileName f.1)) ∉ sourceExtensions then none
  else
    match f.2.stat with
    | none => none
    | some st => if ix.maxFileSize < st.size then none else some (f.1,st)

/-- `_sync_discover_files`. The walk ends with the file that makes the number full. -/
def Indexer.discoverFiles (ix : Indexer) (ws : Workspace) : List (PyStr × FileStat) :=
  ((ws.files.filterMap ix.accepts).take ix.maxFiles).insertionSort fun f f' => strLe f.1 f'.1

mutual

/-- A symbol of the window, or what of it lies there. -/
def SymbolNode.inRange (startLine endLine : ℕ) : SymbolNode → List SymbolNode
  | .mk name kind line children =>
    if startLine ≤ line ∧ line ≤ endLine then
      [.mk name kind line (symbolsInRange startLine endLine children)]
    else symbolsInRange startLine endLine children

def symbolsInRange (startLine endLine : ℕ) : List SymbolNode → List SymbolNode
  | [] => []
  | s::ss => s.inRange startLine endLine++symbolsInRange startLine endLine ss

end

/-- The first and the last line of each chunk from a line on. -/
def windows (totalLines : ℕ) : ℕ → ℕ → List (ℕ × ℕ)
  | 0, _ => []
  | fuel+1, start =>
    if start < totalLines then
      let stop := min (start+chunkSize) totalLines
      if stop < totalLines then
        (start,min (stop+chunkOverlap) totalLines)::windows totalLines fuel stop
      else (start,stop)::windows totalLines fuel totalLines
    else []

structure ChunkRow where
  root : PyStr
  filePath : PyStr
  startLine : ℕ
  endLine : ℕ
  content : PyStr
  language : PyStr
  totalLines : ℕ
  symbols : List SymbolNode

/-- The tables of the chunks and of the files that have been read. -/
structure Store where
  chunks : List ChunkRow
  fileMeta : List ((PyStr × PyStr) × FileStat)

namespace Store

def empty : Store := ⟨[],[]⟩

def saveChunk (s : Store) (row : ChunkRow) : Store := {s with chunks := s.chunks++[row]}

def deleteChunksForFile (s : Store) (root filePath : PyStr) : Store :=
  {s with chunks := s.chunks.filter fun r => !(r.filePath = filePath && r.root = root)}

def clear (s : Store) (root : PyStr) : Store :=
  ⟨s.chunks.filter fun r => r.root ≠ root,s.fileMeta.filter fun m => m.1.1 ≠ root⟩

def getFileIndexState (s : Store) (root : PyStr) : List (PyStr × FileStat) :=
  (s.fileMeta.filter fun m => m.1.1 = root).map fun m => (m.1.2,m.2)

def saveFileIndexState (s : Store) (root filePath : PyStr) (st : FileStat) : Store :=
  {s with fileMeta := assign s.fileMeta (root,filePath) st}

def deleteFileIndexState (s : Store) (root filePath : PyStr) : Store :=
  {s with fileMeta := remove s.fileMeta (root,filePath)}

def clearFileIndexState (s : Store) (root : PyStr) : Store :=
  {s with fileMeta := s.fileMeta.filter fun m => m.1.1 ≠ root}

end Store

/-- The text of a file, unless it looks binary or is not UTF-8. -/
def sniff (data : ByteArray) : Option PyStr :=
  if 0 ∈ data.data.toList.take binarySniff then none else decode data

/-- The text that `_index_file` finds under a path. -/
def Workspace.text (ws : Workspace) (relPath : PyStr) : Option PyStr :=
  match lookup ws.files relPath with
  | none => none
  | some f => if f.readable then sniff f.bytes else none

/-- The chunks of a text, unless the parser raises or the path cannot be stored. -/
def Indexer.chunksOf (ix : Indexer) (relPath text : PyStr) : Option (List ChunkRow) :=
  let ext := lower (suffix (fileName relPath))
  match ix.parser ext text (fileName relPath) with
  | none => none
  | some symbols =>
    if encodes relPath then
      let lines := splitlines text
      some ((windows lines.length lines.length 0).map fun w =>
        ⟨ix.rootKey,relPath,w.1+1,w.2,List.intercalate [ch '\n'] ((lines.take w.2).drop w.1),
          ext.dropWhile (· = ch '.'),lines.length,symbolsInRange (w.1+1) w.2 symbols⟩)
    else none

/-- `_index_file`; nothing when it raises. -/
def Indexer.indexFile (ix : Indexer) (ws : Workspace) (s : Store) (f : PyStr × FileStat) :
    Option Store :=
  match ws.text f.1 with
  | none => some s
  | some text =>
    match ix.chunksOf f.1 text with
    | none => none
    | some rows =>
      some ((rows.foldl Store.saveChunk (s.deleteChunksForFile ix.rootKey f.1)).saveFileIndexState
        ix.rootKey f.1 f.2)

/-- `_run_build`; nothing when it does not run to the end. -/
def Indexer.runBuild (ix : Indexer) (ws : Workspace) (s : Store) (force : Bool) : Option Store :=
  let currentFiles := ix.discoverFiles ws
  if force then
    currentFiles.foldlM (ix.indexFile ws) ((s.clear ix.rootKey).clearFileIndexState ix.rootKey)
  else
    let previousState := s.getFileIndexState ix.rootKey
    let deletedPaths := (keys previousState).filter fun p => p ∉ keys currentFiles
    let filesToIndex := currentFiles.filter fun f => lookup previousState f.1 ≠ some f.2
    filesToIndex.foldlM (ix.indexFile ws) (deletedPaths.foldl (fun s p =>
      (s.deleteChunksForFile ix.rootKey p).deleteFileIndexState ix.rootKey p) s)

namespace Store

variable {s t : Store} {root root' p p' : PyStr}

def chunksAt (s : Store) (root p : PyStr) : List ChunkRow :=
  s.chunks.filter fun r => r.filePath = p && r.root = root

/-- The state and the chunks of a file. -/
def view (s : Store) (root p : PyStr) : Option FileStat × List ChunkRow :=
  (lookup s.fileMeta (root,p),s.chunksAt root p)

/-- The chunks of a root, and those of all others. -/
def shard (s : Store) (root : PyStr) : List ChunkRow := s.chunks.filter fun r => r.root = root

def others (s : Store) (root : PyStr) : List ChunkRow := s.chunks.filter fun r => r.root ≠ root

/-- The shards of all other roots are as they were. -/
structure Apart (root : PyStr) (s t : Store) : Prop where
  others : t.others root = s.others root
  fileMeta : ∀ root', root' ≠ root → ∀ p,
    lookup t.fileMeta (root',p) = lookup s.fileMeta (root',p)

theorem Apart.refl (root : PyStr) (s : Store) : Apart root s s := ⟨rfl,fun _ _ _ => rfl⟩

theorem Apart.trans {u : Store} (hst : Apart root s t) (htu : Apart root t u) : Apart root s u :=
  ⟨htu.others.trans hst.others,fun r hr p => (htu.fileMeta r hr p).trans (hst.fileMeta r hr p)⟩

theorem lookup_getFileIndexState (s : Store) (root p : PyStr) :
    lookup (s.getFileIndexState root) p = lookup s.fileMeta (root,p) := by
  rw [getFileIndexState]
  generalize s.fileMeta = d
  induction d with
  | nil => rfl
  | cons m d ih =>
    obtain ⟨⟨r,q⟩,st⟩ := m
    rw [lookup_cons]
    by_cases hr : r = root
    · subst hr
      rw [List.filter_cons_of_pos (by simp),List.map_cons,lookup_cons,ih]
      simp
    · rw [List.filter_cons_of_neg (by simpa using hr),ih,if_neg]
      exact fun h => hr (congrArg Prod.fst h)

theorem lookup_clear (s : Store) (root p : PyStr) :
    lookup (s.fileMeta.filter fun m => m.1.1 ≠ root) (root,p) = none := by
  refine lookup_eq_none fun hmem => ?_
  obtain ⟨m,hm,heq⟩ := List.mem_map.mp hmem
  exact of_decide_eq_true (List.mem_filter.mp hm).2 (congrArg Prod.fst heq)

theorem chunksAt_filter_of_pos {q : ChunkRow → Bool}
    (h : ∀ r, r.filePath = p → r.root = root → q r = true) :
    (s.chunks.filter q).filter (fun r => r.filePath = p && r.root = root) = s.chunksAt root p := by
  rw [List.filter_filter,chunksAt]
  refine List.filter_congr fun r _ => ?_
  by_cases hr : r.filePath = p ∧ r.root = root
  · rw [h r hr.1 hr.2]
    simp [hr]
  · have hfalse : (decide (r.filePath = p) && decide (r.root = root)) = false := by
      rw [← Bool.decide_and]
      exact decide_eq_false hr
    rw [hfalse,Bool.false_and]

theorem chunksAt_filter_of_neg {q : ChunkRow → Bool}
    (h : ∀ r, r.filePath = p → r.root = root → q r = false) :
    (s.chunks.filter q).filter (fun r => r.filePath = p && r.root = root) = [] := by
  rw [List.filter_filter,List.filter_eq_nil_iff]
  intro r _ hr
  obtain ⟨hat,hq⟩ := Bool.and_eq_true_iff.mp hr
  obtain ⟨hp,hroot⟩ := Bool.and_eq_true_iff.mp hat
  rw [h r (of_decide_eq_true hp) (of_decide_eq_true hroot)] at hq
  cases hq

theorem chunksAt_delete_self (s : Store) (root p : PyStr) :
    (s.deleteChunksForFile root p).chunksAt root p = [] :=
  chunksAt_filter_of_neg fun r hp hr => by
    rw [hp,hr]
    simp

theorem chunksAt_delete_of_ne (h : p ≠ p') :
    (s.deleteChunksForFile root p).chunksAt root p' = s.chunksAt root p' :=
  chunksAt_filter_of_pos fun r hp _ => by
    rw [hp]
    simp [Ne.symm h]

/-- A file that is forgotten. -/
def forget (s : Store) (root p : PyStr) : Store :=
  (s.deleteChunksForFile root p).deleteFileIndexState root p

theorem view_forget_self (s : Store) (root p : PyStr) : (s.forget root p).view root p = (none,[]) := by
  refine Prod.ext ?_ (chunksAt_delete_self s root p)
  exact (lookup_remove s.fileMeta (root,p) (root,p)).trans (if_pos rfl)

theorem view_forget_of_ne (h : p ≠ p') : (s.forget root p).view root p' = s.view root p' := by
  refine Prod.ext ?_ (chunksAt_delete_of_ne h)
  refine (lookup_remove s.fileMeta (root,p) (root,p')).trans (if_neg ?_)
  exact fun heq => h (congrArg Prod.snd heq)

theorem apart_forget (s : Store) (root p : PyStr) : Apart root s (s.forget root p) := by
  refine ⟨(List.filter_filter).trans (List.filter_congr fun r _ => ?_),fun r hr q => ?_⟩
  · by_cases hr : r.root = root <;> simp [hr]
  · refine (lookup_remove s.fileMeta (root,p) (r,q)).trans (if_neg ?_)
    exact fun heq => hr (congrArg Prod.fst heq).symm

theorem apart_foldl_forget (s : Store) (root : PyStr) (ps : List PyStr) :
    Apart root s (ps.foldl (fun s p => s.forget root p) s) := by
  induction ps generalizing s with
  | nil => exact .refl root s
  | cons p ps ih => exact (apart_forget s root p).trans (ih _)

theorem apart_clear (s : Store) (root : PyStr) :
    Apart root s ((s.clear root).clearFileIndexState root) := by
  refine ⟨(List.filter_filter).trans (List.filter_congr fun r _ => Bool.and_self _),fun r hr p => ?_⟩
  refine (lookup_filter fun m _ hm => ?_).trans (lookup_filter fun m _ hm => ?_)
  all_goals
    rw [hm]
    exact decide_eq_true hr

theorem view_foldl_forget (s : Store) (root : PyStr) (ps : List PyStr) (p : PyStr) :
    (ps.foldl (fun s p => s.forget root p) s).view root p =
      if p ∈ ps then (none,[]) else s.view root p := by
  induction ps using List.reverseRecOn with
  | nil => rfl
  | append_singleton ps q ih =>
    rw [List.foldl_append,List.foldl_cons,List.foldl_nil]
    by_cases hq : q = p
    · rw [hq,view_forget_self,if_pos (List.mem_append_right _ (List.mem_singleton_self p))]
    · rw [view_forget_of_ne hq,ih]
      by_cases hp : p ∈ ps
      · rw [if_pos hp,if_pos (List.mem_append_left _ hp)]
      · rw [if_neg hp,if_neg]
        intro hmem
        rcases List.mem_append.mp hmem with hmem | hmem
        · exact hp hmem
        · exact hq (List.mem_singleton.mp hmem).symm

theorem view_clear (s : Store) (root p : PyStr) :
    ((s.clear root).clearFileIndexState root).view root p = (none,[]) := by
  refine Prod.ext (lookup_clear (s.clear root) root p) (chunksAt_filter_of_neg fun r _ hr => ?_)
  rw [hr]
  simp

theorem chunks_foldl_saveChunk (s : Store) (rows : List ChunkRow) :
    rows.foldl saveChunk s = {s with chunks := s.chunks++rows} := by
  induction rows generalizing s with
  | nil => rw [List.foldl_nil,List.append_nil]
  | cons r rows ih => rw [List.foldl_cons,ih,saveChunk,List.append_assoc,List.singleton_append]

end Store

variable {ix : Indexer} {ws : Workspace} {s t : Store} {p : PyStr} {f : PyStr × FileStat}
  {rows : List ChunkRow} {text : PyStr}

theorem chunksOf_mem (h : ix.chunksOf p text = some rows) {r : ChunkRow} (hr : r ∈ rows) :
    r.filePath = p ∧ r.root = ix.rootKey := by
  rw [Indexer.chunksOf] at h
  dsimp only at h
  split at h
  · cases h
  · split at h
    · cases h
      obtain ⟨w,-,rfl⟩ := List.mem_map.mp hr
      exact ⟨rfl,rfl⟩
    · cases h

/-- What a reading of the file makes of its view; nothing when it raises. -/
def Indexer.reread (ix : Indexer) (ws : Workspace) (v : Option FileStat × List ChunkRow)
    (f : PyStr × FileStat) : Option (Option FileStat × List ChunkRow) :=
  match ws.text f.1 with
  | none => some v
  | some text => (ix.chunksOf f.1 text).map fun rows => (some f.2,rows)

theorem view_indexFile (h : ix.indexFile ws s f = some t) :
    ix.reread ws (s.view ix.rootKey f.1) f = some (t.view ix.rootKey f.1) := by
  rw [Indexer.indexFile] at h
  rw [Indexer.reread]
  cases htext : ws.text f.1 with
  | none =>
    rw [htext] at h
    cases h
    rfl
  | some text =>
    rw [htext] at h
    dsimp only at h ⊢
    cases hrows : ix.chunksOf f.1 text with
    | none =>
      rw [hrows] at h
      cases h
    | some rows =>
      rw [hrows] at h
      cases h
      rw [Option.map_some,Store.chunks_foldl_saveChunk]
      refine congrArg some (Prod.ext ?_ ?_)
      · exact ((lookup_assign s.fileMeta _ (ix.rootKey,f.1) f.2).trans (if_pos rfl)).symm
      · refine Eq.symm ((List.filter_append _ _).trans ?_)
        rw [← Store.chunksAt,Store.chunksAt_delete_self,List.nil_append]
        refine List.filter_eq_self.mpr fun r hr => ?_
        obtain ⟨hp,hroot⟩ := chunksOf_mem hrows hr
        rw [hp,hroot]
        simp

theorem view_indexFile_of_ne (h : ix.indexFile ws s f = some t) (hp : p ≠ f.1) :
    t.view ix.rootKey p = s.view ix.rootKey p := by
  rw [Indexer.indexFile] at h
  split at h
  · cases h
    rfl
  · split at h
    · cases h
    · next rows hrows =>
      cases h
      rw [Store.chunks_foldl_saveChunk]
      refine Prod.ext ?_ ?_
      · refine (lookup_assign s.fileMeta _ (ix.rootKey,p) f.2).trans (if_neg ?_)
        exact fun heq => hp (congrArg Prod.snd heq).symm
      · refine (List.filter_append _ _).trans ?_
        rw [← Store.chunksAt,Store.chunksAt_delete_of_ne (Ne.symm hp)]
        have hnone : (rows.filter fun r => r.filePath = p && r.root = ix.rootKey) = [] := by
          refine List.filter_eq_nil_iff.mpr fun r hr hat => ?_
          have hq := of_decide_eq_true (Bool.and_eq_true_iff.mp hat).1
          exact hp (hq.symm.trans (chunksOf_mem hrows hr).1)
        rw [hnone,List.append_nil]
        rfl

theorem apart_indexFile (h : ix.indexFile ws s f = some t) : s.Apart ix.rootKey t := by
  rw [Indexer.indexFile] at h
  split at h
  · cases h
    exact .refl _ s
  · split at h
    · cases h
    · next rows hrows =>
      cases h
      rw [Store.chunks_foldl_saveChunk]
      refine ⟨(List.filter_append _ _).trans ?_,fun r hr q => ?_⟩
      · have hnone : (rows.filter fun r => r.root ≠ ix.rootKey) = [] := by
          refine List.filter_eq_nil_iff.mpr fun r hr hne => ?_
          exact of_decide_eq_true hne (chunksOf_mem hrows hr).2
        rw [hnone,List.append_nil,Store.deleteChunksForFile,List.filter_filter,Store.others]
        refine List.filter_congr fun r _ => ?_
        by_cases hr : r.root = ix.rootKey <;> simp [hr]
      · refine (lookup_assign s.fileMeta _ (r,q) f.2).trans (if_neg ?_)
        exact fun heq => hr (congrArg Prod.fst heq).symm

variable {fs : List (PyStr × FileStat)} {x : File} {st : FileStat}

theorem view_indexFiles (hd : (keys fs).Nodup) (h : fs.foldlM (ix.indexFile ws) s = some t) :
    (∀ f ∈ fs, ix.reread ws (s.view ix.rootKey f.1) f = some (t.view ix.rootKey f.1)) ∧
    (∀ p, p ∉ keys fs → t.view ix.rootKey p = s.view ix.rootKey p) ∧ s.Apart ix.rootKey t := by
  induction fs generalizing s with
  | nil =>
    cases h
    exact ⟨fun f hf => absurd hf List.not_mem_nil,fun p _ => rfl,.refl _ _⟩
  | cons g fs ih =>
    obtain ⟨u,hu,ht⟩ := Option.bind_eq_some_iff.mp h
    obtain ⟨hg,hd⟩ := List.nodup_cons.mp hd
    obtain ⟨hread,hsame,hapart⟩ := ih hd ht
    refine ⟨fun f hf => ?_,fun p hp => ?_,(apart_indexFile hu).trans hapart⟩
    · rcases List.mem_cons.mp hf with rfl | hf
      · rw [hsame f.1 hg]
        exact view_indexFile hu
      · have hne : f.1 ≠ g.1 := fun heq => hg (List.mem_map.mpr ⟨f,hf,heq⟩)
        rw [← view_indexFile_of_ne hu hne]
        exact hread f hf
    · rw [hsame p fun hmem => hp (List.mem_cons_of_mem _ hmem)]
      refine view_indexFile_of_ne hu fun heq => hp ?_
      rw [heq]
      exact List.mem_cons_self

theorem indexFiles_isSome (h : ∀ f ∈ fs, ∀ text, ws.text f.1 = some text →
    (ix.chunksOf f.1 text).isSome) (s : Store) : ∃ t, fs.foldlM (ix.indexFile ws) s = some t := by
  induction fs generalizing s with
  | nil => exact ⟨s,rfl⟩
  | cons g fs ih =>
    have hg : ∃ u, ix.indexFile ws s g = some u := by
      rw [Indexer.indexFile]
      cases htext : ws.text g.1 with
      | none => exact ⟨s,rfl⟩
      | some text =>
        obtain ⟨rows,hrows⟩ := Option.isSome_iff_exists.mp (h g List.mem_cons_self text htext)
        dsimp only
        rw [hrows]
        exact ⟨_,rfl⟩
    obtain ⟨u,hu⟩ := hg
    obtain ⟨t,ht⟩ := ih (fun f hf => h f (List.mem_cons_of_mem _ hf)) u
    exact ⟨t,Option.bind_eq_some_iff.mpr ⟨u,hu,ht⟩⟩

theorem accepts_spec (h : ix.accepts (p,x) = some f) : f.1 = p ∧ x.stat = some f.2 := by
  rw [Indexer.accepts] at h
  split at h
  · cases h
  split at h
  · cases h
  split at h
  · cases h
  split at h
  · cases h
  · next st hst =>
    split at h
    · cases h
    · cases h
      exact ⟨rfl,hst⟩

theorem mem_discoverFiles (h : f ∈ ix.discoverFiles ws) : ∃ x, (f.1,x) ∈ ws.files ∧ x.stat = some f.2 := by
  have hmem := List.mem_of_mem_take ((List.perm_insertionSort _ _).mem_iff.mp h)
  obtain ⟨⟨p,x⟩,hx,haccept⟩ := List.mem_filterMap.mp hmem
  obtain ⟨rfl,hst⟩ := accepts_spec haccept
  exact ⟨x,hx,hst⟩

theorem nodup_discoverFiles (ix : Indexer) (ws : Workspace) : (keys (ix.discoverFiles ws)).Nodup := by
  have hperm := (List.perm_insertionSort (fun f f' : PyStr × FileStat => strLe f.1 f'.1 = true)
    ((ws.files.filterMap ix.accepts).take ix.maxFiles)).map Prod.fst
  refine hperm.nodup_iff.mpr (List.Nodup.sublist ((List.take_sublist _ _).map _) ?_)
  have hsub : ((ws.files.filterMap ix.accepts).map Prod.fst).Sublist (keys ws.files) := by
    generalize ws.files = files
    induction files with
    | nil => exact .slnil
    | cons kv files ih =>
      rw [List.filterMap_cons]
      split
      · exact ih.cons _
      · next g hg =>
        rw [List.map_cons,(accepts_spec hg).1]
        exact ih.cons_cons _
  exact ws.distinct.sublist hsub

theorem view_rebuild (h : ix.runBuild ws s true = some t) :
    (∀ f ∈ ix.discoverFiles ws, ix.reread ws (none,[]) f = some (t.view ix.rootKey f.1)) ∧
    (∀ p, p ∉ keys (ix.discoverFiles ws) → t.view ix.rootKey p = (none,[])) ∧
    s.Apart ix.rootKey t := by
  obtain ⟨hread,hsame,hapart⟩ := view_indexFiles (nodup_discoverFiles ix ws) h
  refine ⟨fun f hf => ?_,fun p hp => ?_,(Store.apart_clear s ix.rootKey).trans hapart⟩
  · rw [← hread f hf,Store.view_clear]
  · rw [hsame p hp,Store.view_clear]

theorem mem_deletedPaths (s : Store) (current : List (PyStr × FileStat)) (root p : PyStr) :
    p ∈ (keys (s.getFileIndexState root)).filter (fun p => p ∉ keys current) ↔
      (lookup s.fileMeta (root,p)).isSome ∧ p ∉ keys current := by
  rw [List.mem_filter,← isSome_lookup_iff,Store.lookup_getFileIndexState,decide_eq_true_iff]

theorem view_increment (h : ix.runBuild ws s false = some t) :
    (∀ f ∈ ix.discoverFiles ws, (s.view ix.rootKey f.1).1 = some f.2 →
      t.view ix.rootKey f.1 = s.view ix.rootKey f.1) ∧
    (∀ f ∈ ix.discoverFiles ws, (s.view ix.rootKey f.1).1 ≠ some f.2 →
      ix.reread ws (s.view ix.rootKey f.1) f = some (t.view ix.rootKey f.1)) ∧
    (∀ p, p ∉ keys (ix.discoverFiles ws) → t.view ix.rootKey p =
      if (s.view ix.rootKey p).1.isSome then (none,[]) else s.view ix.rootKey p) ∧
    s.Apart ix.rootKey t := by
  have hnodup := nodup_discoverFiles ix ws
  have hsub : (keys ((ix.discoverFiles ws).filter fun f =>
      lookup (s.getFileIndexState ix.rootKey) f.1 ≠ some f.2)).Nodup :=
    hnodup.sublist (List.filter_sublist.map Prod.fst)
  obtain ⟨hread,hsame,hapart⟩ := view_indexFiles hsub h
  have hdeleted := fun p => Store.view_foldl_forget s ix.rootKey
    ((keys (s.getFileIndexState ix.rootKey)).filter fun p => p ∉ keys (ix.discoverFiles ws)) p
  have hfound : ∀ f ∈ ix.discoverFiles ws, f.1 ∉
      (keys (s.getFileIndexState ix.rootKey)).filter fun p => p ∉ keys (ix.discoverFiles ws) := by
    intro f hf hmem
    exact ((mem_deletedPaths s _ _ _).mp hmem).2 (List.mem_map_of_mem hf)
  refine ⟨fun f hf hst => ?_,fun f hf hst => ?_,fun p hp => ?_,
    (Store.apart_foldl_forget s ix.rootKey _).trans hapart⟩
  · rw [hsame f.1]
    · exact (hdeleted f.1).trans (if_neg (hfound f hf))
    · intro hmem
      obtain ⟨g,hg,heq⟩ := List.mem_map.mp hmem
      obtain ⟨hg,hne⟩ := List.mem_filter.mp hg
      have hgf : g = f := List.inj_on_of_nodup_map hnodup hg hf heq
      rw [hgf,Store.lookup_getFileIndexState] at hne
      exact of_decide_eq_true hne hst
  · rw [← hread f (List.mem_filter.mpr ⟨hf,?_⟩)]
    · exact congrArg (ix.reread ws · f) ((hdeleted f.1).trans (if_neg (hfound f hf))).symm
    · rw [Store.lookup_getFileIndexState]
      exact decide_eq_true hst
  · rw [hsame p]
    · refine (hdeleted p).trans ?_
      by_cases hsome : (s.view ix.rootKey p).1.isSome
      · rw [if_pos hsome,if_pos ((mem_deletedPaths s _ _ _).mpr ⟨hsome,hp⟩)]
      · rw [if_neg hsome,if_neg fun hmem => hsome ((mem_deletedPaths s _ _ _).mp hmem).1]
    · exact fun hmem => hp ((List.filter_sublist.map Prod.fst).subset hmem)

/-- A version of a file: its path, time and size, and its content. -/
def Workspace.versions (ws : Workspace) : List (PyStr × FileStat × ByteArray) :=
  ws.files.filterMap fun f => f.2.stat.map fun st => (f.1,st,f.2.bytes)

/-- The workspace, the database and the versions that there have been of the files. -/
structure History where
  workspace : Workspace
  store : Store
  seen : List (PyStr × FileStat × ByteArray)

inductive Event
  | change (ws : Workspace)
  | build (force : Bool)
  | otherBuild (other : Indexer) (ws : Workspace) (force : Bool)

namespace History

def start : History := ⟨⟨[],List.nodup_nil⟩,.empty,[]⟩

/-- The workspace changes in any way, its index is built, or that of another root is. A build
that does not run to the end is no step. -/
def step (ix : Indexer) (h : History) : Event → Option History
  | .change ws => some {h with workspace := ws, seen := h.seen++ws.versions}
  | .build force => (ix.runBuild h.workspace h.store force).map fun store => {h with store}
  | .otherBuild other ws force =>
    if other.rootKey = ix.rootKey then none
    else (other.runBuild ws h.store force).map fun store => {h with store}

/-- Another content comes with another time or size. -/
def Honest (h : History) : Event → Prop
  | .change ws => ∀ v ∈ h.seen++ws.versions, ∀ v' ∈ h.seen++ws.versions,
    v.1 = v'.1 → v.2.1 = v'.2.1 → v.2.2 = v'.2.2
  | _ => True

/-- The chunks of the root are those that a forced build of the workspace stores. -/
def Exact (ix : Indexer) (ws : Workspace) (s : Store) : Prop :=
  ∃ t, ix.runBuild ws s true = some t ∧ (s.shard ix.rootKey).Perm (t.shard ix.rootKey)

/-- Every file of the workspace that has chunks is still text. -/
def Readable (ix : Indexer) (h : History) : Prop :=
  ∀ f ∈ ix.discoverFiles h.workspace, h.store.chunksAt ix.rootKey f.1 ≠ [] →
    (h.workspace.text f.1).isSome

/-- What is stored of a file comes from a version of it. -/
def Recorded (ix : Indexer) (seen : List (PyStr × FileStat × ByteArray)) (p : PyStr)
    (v : Option FileStat × List ChunkRow) : Prop :=
  (v.1 = none → v.2 = []) ∧ ∀ st, v.1 = some st →
    ∃ bytes text, (p,st,bytes) ∈ seen ∧ sniff bytes = some text ∧ ix.chunksOf p text = some v.2

structure Sound (ix : Indexer) (h : History) : Prop where
  recorded : ∀ p, Recorded ix h.seen p (h.store.view ix.rootKey p)
  consistent : ∀ v ∈ h.seen, ∀ v' ∈ h.seen, v.1 = v'.1 → v.2.1 = v'.2.1 → v.2.2 = v'.2.2
  current : ∀ v ∈ h.workspace.versions, v ∈ h.seen

variable {h h' : History} {seen seen' : List (PyStr × FileStat × ByteArray)}
  {v : Option FileStat × List ChunkRow}

theorem Recorded.nil (ix : Indexer) (seen : List (PyStr × FileStat × ByteArray)) (p : PyStr) :
    Recorded ix seen p (none,[]) :=
  ⟨fun _ => rfl,fun _ hst => absurd hst (Option.some_ne_none _).symm⟩

theorem Recorded.mono (hsub : seen ⊆ seen') (hv : Recorded ix seen p v) : Recorded ix seen' p v := by
  refine ⟨hv.1,fun st hst => ?_⟩
  obtain ⟨bytes,text,hmem,htext,hrows⟩ := hv.2 st hst
  exact ⟨bytes,text,hsub hmem,htext,hrows⟩

theorem version_of_text (hf : f ∈ ix.discoverFiles ws) (htext : ws.text f.1 = some text) :
    ∃ bytes, (f.1,f.2,bytes) ∈ ws.versions ∧ sniff bytes = some text := by
  obtain ⟨x,hx,hst⟩ := mem_discoverFiles hf
  rw [Workspace.text,lookup_of_mem ws.distinct hx] at htext
  dsimp only at htext
  split at htext
  · refine ⟨x.bytes,List.mem_filterMap.mpr ⟨(f.1,x),hx,?_⟩,htext⟩
    rw [hst]
    rfl
  · cases htext

theorem Recorded.reread (hsub : ∀ v ∈ ws.versions, v ∈ seen) (hf : f ∈ ix.discoverFiles ws)
    {v' : Option FileStat × List ChunkRow} (hv : Recorded ix seen f.1 v)
    (hread : ix.reread ws v f = some v') : Recorded ix seen f.1 v' := by
  rw [Indexer.reread] at hread
  cases htext : ws.text f.1 with
  | none =>
    rw [htext] at hread
    cases hread
    exact hv
  | some text =>
    rw [htext] at hread
    obtain ⟨rows,hrows,rfl⟩ := Option.map_eq_some_iff.mp hread
    obtain ⟨bytes,hmem,hsniff⟩ := version_of_text hf htext
    refine ⟨fun hnone => absurd hnone (Option.some_ne_none _),fun st hst => ?_⟩
    cases hst
    exact ⟨bytes,text,hsub _ hmem,hsniff,hrows⟩

theorem Sound.start (ix : Indexer) : start.Sound ix :=
  ⟨fun p => .nil ix [] p,fun _ hv => absurd hv List.not_mem_nil,fun _ hv => hv⟩

theorem Sound.build {force : Bool} (hs : h.Sound ix)
    (hb : ix.runBuild h.workspace h.store force = some t) : ({h with store := t} : History).Sound ix := by
  refine ⟨fun p => ?_,hs.consistent,hs.current⟩
  by_cases hp : p ∈ keys (ix.discoverFiles h.workspace)
  · obtain ⟨f,hf,rfl⟩ := List.mem_map.mp hp
    cases force with
    | true =>
      exact (Recorded.nil ix h.seen f.1).reread hs.current hf ((view_rebuild hb).1 f hf)
    | false =>
      obtain ⟨hsame,hread,-⟩ := view_increment hb
      by_cases hst : (h.store.view ix.rootKey f.1).1 = some f.2
      · rw [hsame f hf hst]
        exact hs.recorded f.1
      · exact (hs.recorded f.1).reread hs.current hf (hread f hf hst)
  · cases force with
    | true =>
      rw [(view_rebuild hb).2.1 p hp]
      exact .nil ix h.seen p
    | false =>
      rw [(view_increment hb).2.2.1 p hp]
      split
      · exact .nil ix h.seen p
      · exact hs.recorded p

theorem view_of_apart {root root' : PyStr} (hst : s.Apart root t) (hne : root' ≠ root) (p : PyStr) :
    t.view root' p = s.view root' p := by
  have hat : ∀ u : Store, u.chunksAt root' p =
      (u.others root).filter fun r => r.filePath = p && r.root = root' := fun u =>
    (Store.chunksAt_filter_of_pos fun r _ hr => by rw [hr]; exact decide_eq_true hne).symm
  refine Prod.ext (hst.fileMeta root' hne p) ?_
  change t.chunksAt root' p = s.chunksAt root' p
  rw [hat,hat,hst.others]

theorem runBuild_apart {force : Bool} (hb : ix.runBuild ws s force = some t) :
    s.Apart ix.rootKey t := by
  cases force with
  | true => exact (view_rebuild hb).2.2
  | false => exact (view_increment hb).2.2.2

theorem step_sound {e : Event} (hs : h.Sound ix) (hst : step ix h e = some h')
    (hok : h.Honest e) : h'.Sound ix := by
  cases e with
  | change ws =>
    cases hst
    exact ⟨fun p => (hs.recorded p).mono (List.subset_append_left _ _),hok,
      fun v hv => List.mem_append_right _ hv⟩
  | build force =>
    obtain ⟨t,ht,rfl⟩ := Option.map_eq_some_iff.mp hst
    exact hs.build ht
  | otherBuild other ws force =>
    rw [step] at hst
    split at hst
    · cases hst
    · next hne =>
      obtain ⟨t,ht,rfl⟩ := Option.map_eq_some_iff.mp hst
      refine ⟨fun p => ?_,hs.consistent,hs.current⟩
      rw [view_of_apart (runBuild_apart ht) (Ne.symm hne)]
      exact hs.recorded p

theorem shard_perm {root : PyStr} (h : ∀ p, s.chunksAt root p = t.chunksAt root p) :
    (s.shard root).Perm (t.shard root) := by
  classical
  refine List.perm_iff_count.mpr fun r => ?_
  by_cases hr : r.root = root
  · have hcount : ∀ u : Store, (u.shard root).count r = (u.chunksAt root r.filePath).count r := by
      intro u
      rw [Store.shard,Store.chunksAt,List.count_filter (by simp [hr]),List.count_filter (by simp [hr])]
    rw [hcount,hcount,h]
  · have hzero : ∀ u : Store, (u.shard root).count r = 0 := by
      intro u
      refine List.count_eq_zero.mpr fun hmem => hr ?_
      exact of_decide_eq_true (List.mem_filter.mp hmem).2
    rw [hzero,hzero]

theorem chunksAt_perm {root : PyStr} (h : (s.shard root).Perm (t.shard root)) (p : PyStr) :
    (s.chunksAt root p).Perm (t.chunksAt root p) := by
  have hat : ∀ u : Store, u.chunksAt root p = (u.shard root).filter fun r => r.filePath = p := by
    intro u
    rw [Store.shard,List.filter_filter,Store.chunksAt]
  rw [hat,hat]
  exact h.filter _

theorem Sound.chunksOf_unchanged (hs : h.Sound ix) (hf : f ∈ ix.discoverFiles h.workspace)
    (hst : (h.store.view ix.rootKey f.1).1 = some f.2) (htext : h.workspace.text f.1 = some text) :
    ix.chunksOf f.1 text = some (h.store.chunksAt ix.rootKey f.1) := by
  obtain ⟨bytes,text',hmem,hsniff,hrows⟩ := (hs.recorded f.1).2 f.2 hst
  obtain ⟨bytes',hmem',hsniff'⟩ := version_of_text hf htext
  have hbytes : bytes = bytes' := hs.consistent _ hmem _ (hs.current _ hmem') rfl rfl
  rw [hbytes,hsniff'] at hsniff
  cases hsniff
  exact hrows

theorem Sound.exists_rebuild (hs : h.Sound ix)
    (hb : ix.runBuild h.workspace h.store false = some t) :
    ∃ u, ix.runBuild h.workspace t true = some u := by
  refine indexFiles_isSome (fun f hf text htext => ?_) _
  by_cases hst : (h.store.view ix.rootKey f.1).1 = some f.2
  · rw [hs.chunksOf_unchanged hf hst htext]
    rfl
  · have hread := (view_increment hb).2.1 f hf hst
    rw [Indexer.reread,htext] at hread
    obtain ⟨rows,hrows,-⟩ := Option.map_eq_some_iff.mp hread
    rw [hrows]
    rfl

theorem chunksAt_of_no_text {u : Store} (hf : f ∈ ix.discoverFiles ws)
    (hb : ix.runBuild ws s false = some t) (hu : ix.runBuild ws t true = some u)
    (htext : ws.text f.1 = none) :
    t.chunksAt ix.rootKey f.1 = s.chunksAt ix.rootKey f.1 ∧ u.chunksAt ix.rootKey f.1 = [] := by
  obtain ⟨hsame,hread,-⟩ := view_increment hb
  constructor
  · by_cases hst : (s.view ix.rootKey f.1).1 = some f.2
    · exact congrArg Prod.snd (hsame f hf hst)
    · have hread := hread f hf hst
      rw [Indexer.reread,htext] at hread
      exact (congrArg Prod.snd (Option.some.inj hread)).symm
  · have hread := (view_rebuild hu).1 f hf
    rw [Indexer.reread,htext] at hread
    exact (congrArg Prod.snd (Option.some.inj hread)).symm

theorem Sound.chunksAt_of_text {u : Store} (hs : h.Sound ix) (hf : f ∈ ix.discoverFiles h.workspace)
    (hb : ix.runBuild h.workspace h.store false = some t)
    (hu : ix.runBuild h.workspace t true = some u) (htext : h.workspace.text f.1 = some text) :
    t.chunksAt ix.rootKey f.1 = u.chunksAt ix.rootKey f.1 := by
  obtain ⟨hsame,hread,-⟩ := view_increment hb
  have hrebuilt := (view_rebuild hu).1 f hf
  rw [Indexer.reread,htext] at hrebuilt
  obtain ⟨rows,hrows,hview⟩ := Option.map_eq_some_iff.mp hrebuilt
  have hu' : rows = u.chunksAt ix.rootKey f.1 := congrArg Prod.snd hview
  rw [← hu']
  by_cases hst : (h.store.view ix.rootKey f.1).1 = some f.2
  · have hkept := hs.chunksOf_unchanged hf hst htext
    rw [hrows] at hkept
    rw [Option.some.inj hkept]
    exact congrArg Prod.snd (hsame f hf hst)
  · have hread := hread f hf hst
    rw [Indexer.reread,htext] at hread
    dsimp only at hread
    rw [hrows] at hread
    exact (congrArg Prod.snd (Option.some.inj hread)).symm

theorem Sound.increment_exact (hs : h.Sound ix) (hb : ix.runBuild h.workspace h.store false = some t) :
    Exact ix h.workspace t ↔ h.Readable ix := by
  obtain ⟨u,hu⟩ := hs.exists_rebuild hb
  constructor
  · rintro ⟨u',hu',hperm⟩ f hf hne
    rw [hu] at hu'
    cases hu'
    by_contra hnone
    obtain ⟨hkept,hempty⟩ := chunksAt_of_no_text hf hb hu (Option.not_isSome_iff_eq_none.mp hnone)
    have hat := chunksAt_perm hperm f.1
    rw [hkept,hempty] at hat
    exact hne hat.eq_nil
  · intro hreadable
    refine ⟨u,hu,shard_perm fun p => ?_⟩
    by_cases hp : p ∈ keys (ix.discoverFiles h.workspace)
    · obtain ⟨f,hf,rfl⟩ := List.mem_map.mp hp
      cases htext : h.workspace.text f.1 with
      | some text => exact hs.chunksAt_of_text hf hb hu htext
      | none =>
        obtain ⟨hkept,hempty⟩ := chunksAt_of_no_text hf hb hu htext
        rw [hkept,hempty]
        by_contra hne
        have hsome := hreadable f hf hne
        rw [htext] at hsome
        cases hsome
    · have hempty : u.chunksAt ix.rootKey p = [] := congrArg Prod.snd ((view_rebuild hu).2.1 p hp)
      have hview := (view_increment hb).2.2.1 p hp
      rw [hempty]
      refine (congrArg Prod.snd hview).trans ?_
      cases hst : (h.store.view ix.rootKey p).1 with
      | none =>
        rw [if_neg (by simp)]
        exact (hs.recorded p).1 hst
      | some st => rw [if_pos (by simp)]

/-- After an incremental build the chunks of the root are those of a forced one exactly when
every file that has chunks is still text; those of the other roots are as they were. -/
theorem increment_exact_iff {events : List Event} (hr : Run (step ix) Honest start events h)
    (hb : step ix h (.build false) = some h') :
    Exact ix h'.workspace h'.store ∧ h'.store.others ix.rootKey = h.store.others ix.rootKey ↔
      h.Readable ix := by
  have hs : h.Sound ix := by
    refine hr.invariant (fun h e h' hok hst hs => ?_) (Sound.start ix)
    exact step_sound hs hst hok
  obtain ⟨t,ht,rfl⟩ := Option.map_eq_some_iff.mp hb
  rw [← hs.increment_exact ht]
  exact and_iff_left (runBuild_apart ht).others

/-- An indexer whose parser finds no symbols. -/
def plainIndexer : Indexer := {rootKey := lit "/w", parser := fun _ _ _ => some []}

def plainFile (mtime : ℚ) (text : String) : File :=
  ⟨some ⟨mtime,text.toByteArray.size⟩,true,text.toByteArray⟩

/-- Two source files, and later one of them changed, the other gone and a third one new. -/
def before : Workspace :=
  ⟨[(lit "a.py",plainFile 1 "x = 1"),(lit "b.py",plainFile 1 "y = 2")],by decide⟩

def after : Workspace :=
  ⟨[(lit "a.py",plainFile 2 "x = 3"),(lit "c.py",plainFile 2 "z = 4")],by decide⟩

/-- The first file with a null byte in it. -/
def binaryAfter : Workspace := ⟨[(lit "a.py",plainFile 2 "x\x00")],by decide⟩

theorem increment_exact_edit : Exact plainIndexer after
    (last (step plainIndexer) start [.change before,.build false,.change after,.build false]).store ∧
    (last (step plainIndexer) start
      [.change before,.build false,.change after,.build false]).store.chunks.length = 2 := by
  have hr : Run (step plainIndexer) Honest start [.change before,.build false,.change after]
      (last (step plainIndexer) start [.change before,.build false,.change after]) := by
    refine run_last_cons ?_ rfl (run_last_cons trivial (by decide) (run_last_cons ?_ rfl run_last_nil))
    · unfold Honest
      decide
    · unfold Honest
      decide
  have hb : step plainIndexer
      (last (step plainIndexer) start [.change before,.build false,.change after]) (.build false) =
      some (last (step plainIndexer)
        (last (step plainIndexer) start [.change before,.build false,.change after]) [.build false]) :=
    step_last (by decide)
  have hreadable : Readable plainIndexer
      (last (step plainIndexer) start [.change before,.build false,.change after]) := by
    unfold Readable
    decide
  exact ⟨((increment_exact_iff hr hb).mpr hreadable).1,by decide⟩

/-- A file that has become binary keeps the chunks of its old text. -/
theorem binary_keeps_chunks : ∃ h h', Run (step plainIndexer) Honest start
      [.change before,.build false,.change binaryAfter] h ∧
    step plainIndexer h (.build false) = some h' ∧
    h'.store.chunks.map ChunkRow.content = [lit "x = 1"] ∧
    ¬ (Exact plainIndexer h'.workspace h'.store ∧
      h'.store.others plainIndexer.rootKey = h.store.others plainIndexer.rootKey) := by
  refine ⟨last (step plainIndexer) start [.change before,.build false,.change binaryAfter],_,?_,
    step_last (by decide),by decide,?_⟩
  · refine run_last_cons ?_ rfl (run_last_cons trivial (by decide) (run_last_cons ?_ rfl run_last_nil))
    · unfold Honest
      decide
    · unfold Honest
      decide
  · rintro ⟨⟨u,hu,hperm⟩,-⟩
    have hlen := hperm.length_eq
    have hnone : (plainIndexer.runBuild binaryAfter (last (step plainIndexer) start
        [.change before,.build false,.change binaryAfter,.build false]).store true).map
        (fun u => u.chunks.length) = some 0 := by decide
    obtain ⟨u',hu',hzero⟩ := Option.map_eq_some_iff.mp hnone
    have heq : u = u' := Option.some.inj (hu.symm.trans hu')
    have hempty : u.shard plainIndexer.rootKey = [] := by
      rw [heq,Store.shard,List.eq_nil_of_length_eq_zero hzero,List.filter_nil]
    rw [hempty] at hlen
    exact absurd hlen (by decide)

end History

end MinimaxCode.CodebaseIndex
