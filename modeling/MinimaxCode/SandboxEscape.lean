import MinimaxCode.FsNotify
import MinimaxCode.GitNames
import Mathlib.Data.List.AList

/-!
# The escape report of a sandboxed command

The workspace is walked before and after the command, and what differs is reported but for the
paths that other actors' file tools have announced on the bus since a watermark, which is taken
after the first walk. So a file that both sides change is not reported, and a file that others
change is, when its name begins with two dots or its event came before the watermark. Names are
those of a POSIX system, where `_normkey` leaves a path as it is.
-/

namespace MinimaxCode.SandboxEscape

open PyText PyJson Sandbox FsNotify SequencedLog GitNames

/-- `(st_mtime_ns, st_size)`. -/
structure Stat where
  mtimeNs : ℤ
  size : ℕ
  deriving DecidableEq

/-- The regular files of the workspace in the order of a walk. -/
abbrev Files := AList fun _ : Rel => Stat

abbrev Snapshot := List (PyStr × Stat)

inductive Change
  | added
  | modified
  | removed
  deriving DecidableEq

def Change.value : Change → PyStr
  | .added => lit "added"
  | .modified => lit "modified"
  | .removed => lit "removed"

/-- `_ESCAPE_KIND_MAP`. -/
def Change.kind : Change → FsEventKind
  | .added => .created
  | .modified => .modified
  | .removed => .removed

def escapeExcludeDirs : List PyStr :=
  [lit ".git",lit ".hg",lit ".svn",lit ".venv",lit "venv",lit "node_modules",lit "__pycache__",
    lit ".pytest_cache",lit ".mypy_cache",lit ".ruff_cache",lit ".minimax"]

def attributedCauses : List PyStr :=
  [lit "write_file",lit "edit_file",lit "append_file",lit "collect_subagent"]

def escapeMaxReport : ℕ := 50

def escapeBusLookback : ℕ := 500

/-- No directory on the way is pruned. -/
def visited (file : Rel) : Bool := file.dropLast.all fun d => !escapeExcludeDirs.contains d

def scanWorkspace (files : Files) : Snapshot :=
  files.entries.filterMap fun p => if visited p.1 then some (pathName p.1,p.2) else none

def diffSnapshots (pre post : Snapshot) : List (Change × PyStr) :=
  let out := post.filterMap fun p =>
    match pre.lookup p.1 with
    | none => some (Change.added,p.1)
    | some old => if old ≠ p.2 then some (Change.modified,p.1) else none
  let gone := pre.filterMap fun p => if (post.lookup p.1).isNone then some (Change.removed,p.1) else none
  (out++gone).mergeSort fun a b => strLe a.2 b.2

/-- `os.path.relpath` of absolute paths without dots. -/
def pathParts (path : PyStr) : Rel := (splitOn (ch '/') path).filter fun n => !n.isEmpty

def commonLength : Rel → Rel → ℕ
  | a::as, b::bs => if a = b then commonLength as bs+1 else 0
  | _, _ => 0

def relpath (path start : PyStr) : PyStr :=
  let common := commonLength (pathParts start) (pathParts path)
  let rel := List.replicate ((pathParts start).length-common) (lit "..")++(pathParts path).drop common
  if rel = [] then lit "." else pathName rel

/-- `str` of an absolute path. -/
def pathStr (path : Rel) : PyStr := ch '/'::pathName path

def busWatermark (bus : FsEventBus) : ℕ :=
  match (bus.recentEvents 1 none none none).getLast? with
  | none => 0
  | some e => e.seq

/-- The paths of an event that count for another actor. -/
def eventPaths (root : PyStr) (watermark : ℕ) (ownRun : Option PyStr) (e : Entry FsEvent) : List PyStr :=
  if e.seq ≤ watermark then []
  else if e.payload.cause ∉ attributedCauses then []
  else if ownRun ≠ none ∧ e.payload.attribute (lit "run_id") = ownRun then []
  else e.payload.paths.filterMap fun path =>
    if (lit "..").isPrefixOf (relpath path root) then none else some (relpath path root)

def attributedPaths (bus : FsEventBus) (root : PyStr) (watermark : ℕ) (ownRun : Option PyStr) : List PyStr :=
  (bus.recentEvents escapeBusLookback none none none).flatMap (eventPaths root watermark ownRun)

/-- The differences that nobody else accounts for. -/
def changedBetween (pre post : Snapshot) (attributed : List PyStr) : List (Change × PyStr) :=
  (diffSnapshots pre post).filter fun c => !attributed.contains c.2

structure EscapeInfo where
  changed : List PyStr
  changedCount : ℕ
  changedTruncated : Bool
  warning : PyStr

def escapeInfo (changed : List (Change × PyStr)) : Option EscapeInfo :=
  if changed = [] then none
  else some {
    changed := (changed.take escapeMaxReport).map fun c => c.1.value++ch ':'::c.2
    changedCount := changed.length
    changedTruncated := escapeMaxReport < changed.length
    warning := lit "exec_command wrote the shared workspace while this run is sandboxed — these changes bypass collect_subagent. Re-write deliverables with write_file before reporting completion." }

/-- The events of `_emit_escape`: one for each kind, in the order in which they come up. -/
def escapeEvents (changed : List (Change × PyStr)) (root : Rel) (runId : Option PyStr) : List EmitCall :=
  (changed.map Prod.fst).eraseDups.map fun change =>
    { kind := change.kind.value
      paths := (changed.filter fun c => c.1 = change).map fun c => pathStr (root++splitOn (ch '/') c.2)
      cause := lit "exec_command_sandbox_escape"
      sessionId := none
      toolCallId := none
      attributes := (runId.map fun id => (lit "run_id",id)).toList }

def emitEscape (bus : FsEventBus) (changed : List (Change × PyStr)) (root : Rel) (runId : Option PyStr) :
    FsEventBus :=
  (escapeEvents changed root runId).foldl FsEventBus.emit bus

/-- A call of another actor's file tool: the files it changes, and its events with the paths of
each. -/
structure ToolCall where
  changes : List (Rel × Option Stat)
  events : List (FsEventKind × List Rel)
  cause : PyStr
  runId : Option PyStr

inductive Action
  | command (file : Rel) (stat : Option Stat)
  | tool (call : ToolCall)

structure World where
  files : Files
  bus : FsEventBus

/-- A file gets a new stat, or is removed. -/
def change (files : Files) (c : Rel × Option Stat) : Files :=
  match c.2 with
  | none => files.erase c.1
  | some stat => files.insert c.1 stat

def ToolCall.emit (call : ToolCall) (event : FsEventKind × List Rel) : EmitCall where
  kind := event.1.value
  paths := event.2.map pathStr
  cause := call.cause
  sessionId := none
  toolCallId := none
  attributes := (call.runId.map fun id => (lit "run_id",id)).toList

def ToolCall.emits (call : ToolCall) : List EmitCall := call.events.map call.emit

def act (w : World) : Action → World
  | .command file stat => { w with files := change w.files (file,stat) }
  | .tool call =>
    { files := call.changes.foldl change w.files, bus := call.emits.foldl FsEventBus.emit w.bus }

/-- A path that names a file. -/
def NamesFile (file : Rel) : Prop := file ≠ [] ∧ ∀ n ∈ file, NamesEntry n

/-- A tool of another actor announces every file it changes. -/
structure ToolCall.Announced (root : Rel) (ownRun : Option PyStr) (call : ToolCall) : Prop where
  cause : call.cause ∈ attributedCauses
  other : ownRun ≠ none → call.runId ≠ ownRun
  files : ∀ c ∈ call.changes, NamesFile c.1 ∧ ∃ e ∈ call.events, root++c.1 ∈ e.2
  paths : ∀ e ∈ call.events, ∀ p ∈ e.2, ∀ n ∈ p, NamesEntry n

def Action.Valid (root : Rel) (ownRun : Option PyStr) : Action → Prop
  | .command file _ => NamesFile file
  | .tool call => call.Announced root ownRun

def Action.emits : Action → List EmitCall
  | .command _ _ => []
  | .tool call => call.emits

/-- The bus holds the end of a log. -/
structure Holds (bus : FsEventBus) (log : List (Entry FsEvent)) : Prop where
  recent : bus.recent = ring bus.capacity log
  nextSeq : bus.nextSeq = log.length+1
  numbered : Numbered log

/-- A call of `exec_command` in a sandbox: what others do between the first walk and the watermark,
and what happens from then to the second walk, with no more events than the bus keeps. -/
structure Call where
  root : Rel
  ownRun : Option PyStr
  files : Files
  bus : FsEventBus
  log : List (Entry FsEvent)
  before : List ToolCall
  during : List Action
  rootNames : ∀ n ∈ root, NamesEntry n
  fileNames : ∀ f ∈ files, NamesFile f
  holds : Holds bus log
  capacity : bus.capacity = escapeBusLookback
  beforeValid : ∀ c ∈ before, c.Announced root ownRun
  duringValid : ∀ a ∈ during, a.Valid root ownRun
  window : (during.flatMap Action.emits).length ≤ escapeBusLookback

namespace Call

variable (call : Call)

/-- When the watermark is taken. -/
def started : World := (call.before.map Action.tool).foldl act ⟨call.files,call.bus⟩

/-- When the second walk begins. -/
def ended : World := call.during.foldl act call.started

/-- The files that are reported, as the events on the bus list them; the result of the call shows
the first of them and their number. -/
def changed : List (Change × PyStr) :=
  changedBetween (scanWorkspace call.files) (scanWorkspace call.ended.files)
    (attributedPaths call.ended.bus (pathStr call.root) (busWatermark call.started.bus) call.ownRun)

/-- The part of the result that tells of the escape. -/
def info : Option EscapeInfo := escapeInfo call.changed

/-- The bus when the call returns. -/
def reportedBus : FsEventBus := emitEscape call.ended.bus call.changed call.root call.ownRun

/-- The command changed the file. -/
def ChangedByCommand (file : Rel) : Prop := ∃ stat, Action.command file stat ∈ call.during

end Call

/-- How a file differs. -/
def difference : Option Stat → Option Stat → Option Change
  | none, some _ => some .added
  | some _, none => some .removed
  | some old, some stat => if old ≠ stat then some .modified else none
  | none, none => none

/-- The command's changes are reported with their kinds, and no file that others alone changed. -/
structure Exact (call : Call) : Prop where
  escapes : ∀ f, NamesFile f → visited f = true → call.ChangedByCommand f →
    ∀ c, difference (call.files.lookup f) (call.ended.files.lookup f) = some c →
      (c,pathName f) ∈ call.changed
  others : ∀ f, NamesFile f → ¬ call.ChangedByCommand f → ∀ c, (c,pathName f) ∉ call.changed

/-- Another actor's event names the file after the watermark, and the name does not begin with
two dots. -/
def Call.Attributed (call : Call) (f : Rel) : Prop :=
  (∃ tool, Action.tool tool ∈ call.during ∧ ∃ e ∈ tool.events, call.root++f ∈ e.2) ∧
    (lit "..").isPrefixOf (pathName f) = false

/-- The files that differ are those of the command alone and those of others that are announced in
time. -/
def Separate (call : Call) : Prop :=
  ∀ f, NamesFile f → visited f = true →
    difference (call.files.lookup f) (call.ended.files.lookup f) ≠ none →
      (call.ChangedByCommand f ↔ ¬ call.Attributed f)

section Names

variable {f g : Rel}

theorem splitOn_pathName (hne : f ≠ []) (h : ∀ n ∈ f, NamesEntry n) : splitOn (ch '/') (pathName f) = f :=
  splitOn_intercalate hne fun n hn => (h n hn).1

theorem pathName_inj (hf : NamesFile f) (hg : NamesFile g) (h : pathName f = pathName g) : f = g := by
  rw [← splitOn_pathName hf.1 hf.2,h,splitOn_pathName hg.1 hg.2]

theorem pathParts_pathStr (h : ∀ n ∈ f, NamesEntry n) : pathParts (pathStr f) = f := by
  have hsplit : splitOn (ch '/') (pathStr f) = []::splitOn (ch '/') (pathName f) :=
    @splitOn_append_sep (ch '/') [] (pathName f) List.not_mem_nil
  have hkeep : ∀ n ∈ f, (!n.isEmpty) = true := by
    intro n hn
    rw [Bool.not_eq_true',List.isEmpty_eq_false_iff]
    exact (h n hn).2.1
  by_cases hnil : f = []
  · rw [hnil]
    rfl
  · rw [pathParts,hsplit,splitOn_pathName hnil h,List.filter_cons_of_neg (by simp)]
    exact List.filter_eq_self.mpr hkeep

theorem commonLength_append (root f : Rel) : commonLength root (root++f) = root.length := by
  induction root with
  | nil => cases f <;> rfl
  | cons n root ih => rw [List.cons_append,commonLength,if_pos rfl,ih,List.length_cons]

theorem commonLength_le (root p : Rel) : commonLength root p ≤ root.length := by
  induction root generalizing p with
  | nil => cases p <;> exact Nat.le_refl 0
  | cons n root ih =>
    cases p with
    | nil => exact Nat.zero_le _
    | cons m p =>
      rw [commonLength]
      split
      · exact Nat.succ_le_succ (ih p)
      · exact Nat.zero_le _

theorem prefix_of_commonLength {root p : Rel} (h : commonLength root p = root.length) :
    root++p.drop root.length = p := by
  induction root generalizing p with
  | nil => rfl
  | cons n root ih =>
    cases p with
    | nil => cases h
    | cons m p =>
      rw [commonLength] at h
      split at h
      case isTrue heq =>
        rw [heq,List.length_cons,List.drop_succ_cons,List.cons_append,ih (Nat.succ.inj h)]
      · cases h

theorem relpath_file {root : Rel} (hroot : ∀ n ∈ root, NamesEntry n) (hf : NamesFile f) :
    relpath (pathStr (root++f)) (pathStr root) = pathName f := by
  have hpath : ∀ n ∈ root++f, NamesEntry n := fun n hn => (List.mem_append.mp hn).elim (hroot n) (hf.2 n)
  rw [relpath,pathParts_pathStr hroot,pathParts_pathStr hpath,commonLength_append,Nat.sub_self,
    List.replicate_zero,List.nil_append,List.drop_left]
  exact if_neg hf.1

theorem startsWith_dots (rest : Rel) : (lit "..").isPrefixOf (pathName (lit ".."::rest)) = true := by
  cases rest with
  | nil => rfl
  | cons n rest =>
    rw [pathName,show lit "/" = [ch '/'] from rfl,intercalate_cons (ch '/') _ (List.cons_ne_nil n rest)]
    rfl

theorem file_of_relpath {root p : Rel} (hroot : ∀ n ∈ root, NamesEntry n) (hp : ∀ n ∈ p, NamesEntry n)
    (hf : NamesFile f) (h : relpath (pathStr p) (pathStr root) = pathName f)
    (hdots : (lit "..").isPrefixOf (pathName f) = false) : p = root++f := by
  rw [relpath,pathParts_pathStr hroot,pathParts_pathStr hp] at h
  by_cases hcommon : commonLength root p = root.length
  · rw [hcommon,Nat.sub_self,List.replicate_zero,List.nil_append] at h
    split at h
    case isTrue =>
      have hdot : f = [lit "."] := by
        rw [← splitOn_pathName hf.1 hf.2,← h]
        rfl
      rw [hdot] at hf
      exact absurd rfl (hf.2 _ List.mem_cons_self).2.2.1
    case isFalse hne =>
      have hdrop : p.drop root.length = f :=
        pathName_inj ⟨hne,fun n hn => hp n (List.mem_of_mem_drop hn)⟩ hf h
      rw [← hdrop,prefix_of_commonLength hcommon]
  · have hlt := Nat.lt_of_le_of_ne (commonLength_le root p) hcommon
    obtain ⟨k,hk⟩ := Nat.exists_eq_succ_of_ne_zero (Nat.sub_ne_zero_of_lt hlt)
    rw [hk,List.replicate_succ,List.cons_append,if_neg (List.cons_ne_nil _ _)] at h
    rw [← h,startsWith_dots] at hdots
    cases hdots

end Names

section Differences

variable {files post : Files} {f : Rel} {c : Change}

theorem lookup_filterMap {entries : List (Sigma fun _ : Rel => Stat)} (hentries : ∀ e ∈ entries, NamesFile e.1)
    (hf : NamesFile f) : (entries.filterMap fun p =>
      if visited p.1 then some (pathName p.1,p.2) else none).lookup (pathName f) =
        if visited f then entries.dlookup f else none := by
  induction entries with
  | nil => exact (ite_self none).symm
  | cons e entries ih =>
    obtain ⟨g,stat⟩ := e
    have hg : NamesFile g := hentries _ List.mem_cons_self
    have htail := ih fun e he => hentries e (List.mem_cons_of_mem _ he)
    by_cases hgf : g = f
    · subst hgf
      rw [List.filterMap_cons]
      by_cases hvisited : visited g = true
      · rw [if_pos hvisited,if_pos hvisited,List.dlookup_cons_eq]
        exact List.lookup_cons_self
      · rw [if_neg hvisited,if_neg hvisited]
        rw [if_neg hvisited] at htail
        exact htail
    · have hname : (pathName f == pathName g) = false :=
        beq_eq_false_iff_ne.mpr fun heq => hgf (pathName_inj hg hf heq.symm)
      rw [List.filterMap_cons,List.dlookup_cons_ne _ _ (fun heq => hgf heq.symm),← htail]
      by_cases hvisited : visited g = true
      · rw [if_pos hvisited]
        rw [List.lookup_cons,hname]
      · rw [if_neg hvisited]

theorem lookup_scan (hfiles : ∀ g ∈ files, NamesFile g) (hf : NamesFile f) :
    (scanWorkspace files).lookup (pathName f) = if visited f then files.lookup f else none :=
  lookup_filterMap (fun _ he => hfiles _ (List.mem_keys_of_mem he)) hf

theorem mem_scan {key : PyStr} {stat : Stat} : (key,stat) ∈ scanWorkspace files ↔
    ∃ f, files.lookup f = some stat ∧ visited f = true ∧ key = pathName f := by
  rw [scanWorkspace,List.mem_filterMap]
  constructor
  · rintro ⟨⟨g,s⟩,hmem,hsome⟩
    dsimp only at hsome
    split at hsome
    case isTrue hvisited =>
      cases hsome
      exact ⟨g,AList.mem_lookup_iff.mpr hmem,hvisited,rfl⟩
    · cases hsome
  · rintro ⟨g,hlookup,hvisited,rfl⟩
    exact ⟨⟨g,stat⟩,AList.mem_lookup_iff.mp hlookup,if_pos hvisited⟩

theorem mem_scan_file (hpost : ∀ g ∈ post, NamesFile g) (hf : NamesFile f) {stat : Stat} :
    (pathName f,stat) ∈ scanWorkspace post ↔ visited f = true ∧ post.lookup f = some stat := by
  rw [mem_scan]
  constructor
  · rintro ⟨g,hlookup,hvisited,hname⟩
    obtain rfl := pathName_inj hf (hpost g (AList.lookup_isSome.mp (by rw [hlookup]; rfl))) hname
    exact ⟨hvisited,hlookup⟩
  · rintro ⟨hvisited,hlookup⟩
    exact ⟨f,hlookup,hvisited,rfl⟩

theorem mem_diff (hfiles : ∀ g ∈ files, NamesFile g) (hpost : ∀ g ∈ post, NamesFile g) (hf : NamesFile f) :
    (c,pathName f) ∈ diffSnapshots (scanWorkspace files) (scanWorkspace post) ↔
      visited f = true ∧ difference (files.lookup f) (post.lookup f) = some c := by
  rw [diffSnapshots,List.mem_mergeSort,List.mem_append,List.mem_filterMap,List.mem_filterMap]
  constructor
  · rintro (⟨⟨key,stat⟩,hmem,hsome⟩ | ⟨⟨key,stat⟩,hmem,hsome⟩)
    · dsimp only at hsome
      have hkey : key = pathName f := by
        split at hsome
        · cases hsome
          rfl
        · split at hsome
          · cases hsome
            rfl
          · cases hsome
      subst hkey
      obtain ⟨hvisited,hlookup⟩ := (mem_scan_file hpost hf).mp hmem
      rw [lookup_scan hfiles hf,if_pos hvisited] at hsome
      refine ⟨hvisited,?_⟩
      rw [hlookup]
      cases hold : files.lookup f with
      | none =>
        rw [hold] at hsome
        cases hsome
        rfl
      | some old =>
        rw [hold] at hsome
        dsimp only at hsome
        split at hsome
        case isTrue hne =>
          cases hsome
          exact if_pos hne
        · cases hsome
    · dsimp only at hsome
      split at hsome
      case isTrue hgone =>
        cases hsome
        obtain ⟨hvisited,hlookup⟩ := (mem_scan_file hfiles hf).mp hmem
        rw [lookup_scan hpost hf,if_pos hvisited,Option.isNone_iff_eq_none] at hgone
        rw [hgone,hlookup]
        exact ⟨hvisited,rfl⟩
      · cases hsome
  · rintro ⟨hvisited,hdifference⟩
    cases hold : files.lookup f with
    | none =>
      cases hnew : post.lookup f with
      | none =>
        rw [hold,hnew] at hdifference
        cases hdifference
      | some stat =>
        rw [hold,hnew] at hdifference
        cases hdifference
        refine Or.inl ⟨(pathName f,stat),(mem_scan_file hpost hf).mpr ⟨hvisited,hnew⟩,?_⟩
        rw [lookup_scan hfiles hf,if_pos hvisited,hold]
    | some old =>
      cases hnew : post.lookup f with
      | none =>
        rw [hold,hnew] at hdifference
        cases hdifference
        refine Or.inr ⟨(pathName f,old),(mem_scan_file hfiles hf).mpr ⟨hvisited,hold⟩,?_⟩
        rw [lookup_scan hpost hf,if_pos hvisited,hnew]
        rfl
      | some stat =>
        rw [hold,hnew,difference] at hdifference
        split at hdifference
        case isTrue hne =>
          cases hdifference
          refine Or.inl ⟨(pathName f,stat),(mem_scan_file hpost hf).mpr ⟨hvisited,hnew⟩,?_⟩
          rw [lookup_scan hfiles hf,if_pos hvisited,hold]
          exact if_pos hne
        · cases hdifference

end Differences

section Bus

variable {bus : FsEventBus} {log : List (Entry FsEvent)} {root : Rel} {ownRun : Option PyStr}

theorem holds_emit (h : Holds bus log) (c : EmitCall) : ∃ new : List (Entry FsEvent),
    Holds (bus.emit c) (log++new) ∧ new.map Entry.payload = c.event.toList ∧
      (bus.emit c).capacity = bus.capacity := by
  rw [FsEventBus.emit]
  cases hevent : c.event with
  | none => exact ⟨[],by rw [List.append_nil]; exact h,rfl,rfl⟩
  | some e =>
    refine ⟨[⟨log.length+1,e⟩],⟨?_,?_,h.numbered.append e⟩,rfl,rfl⟩
    · dsimp only
      rw [ring_append,h.recent,h.nextSeq]
    · dsimp only
      rw [h.nextSeq,List.length_append,List.length_singleton]

theorem holds_emits (h : Holds bus log) (calls : List EmitCall) : ∃ new : List (Entry FsEvent),
    Holds (calls.foldl FsEventBus.emit bus) (log++new) ∧
      new.map Entry.payload = calls.filterMap EmitCall.event ∧
      (calls.foldl FsEventBus.emit bus).capacity = bus.capacity := by
  induction calls generalizing bus log with
  | nil => exact ⟨[],by rw [List.append_nil]; exact h,rfl,rfl⟩
  | cons c calls ih =>
    obtain ⟨first,hfirst,hpayload,hcapacity⟩ := holds_emit h c
    obtain ⟨rest,hrest,hpayloads,hcapacities⟩ := ih hfirst
    refine ⟨first++rest,?_,?_,hcapacities.trans hcapacity⟩
    · rw [← List.append_assoc]
      exact hrest
    · rw [List.map_append,hpayload,hpayloads,List.filterMap_cons]
      cases c.event <;> rfl

theorem holds_run {w : World} (h : Holds w.bus log) (as : List Action) : ∃ new : List (Entry FsEvent),
    Holds (as.foldl act w).bus (log++new) ∧
      new.map Entry.payload = (as.flatMap Action.emits).filterMap EmitCall.event ∧
      (as.foldl act w).bus.capacity = w.bus.capacity := by
  induction as generalizing w log with
  | nil => exact ⟨[],by rw [List.append_nil]; exact h,rfl,rfl⟩
  | cons a as ih =>
    have hbus : (act w a).bus = a.emits.foldl FsEventBus.emit w.bus := by cases a <;> rfl
    obtain ⟨first,hfirst,hpayload,hcapacity⟩ := holds_emits h a.emits
    rw [← hbus] at hfirst hcapacity
    obtain ⟨rest,hrest,hpayloads,hcapacities⟩ := ih hfirst
    refine ⟨first++rest,?_,?_,hcapacities.trans hcapacity⟩
    · rw [← List.append_assoc]
      exact hrest
    · rw [List.map_append,hpayload,hpayloads,List.flatMap_cons,List.filterMap_append]

theorem watermark_eq (h : Holds bus log) : busWatermark bus = log.length := by
  have hrecent : bus.recentEvents 1 none none none = ring 1 bus.recent := by
    simp [FsEventBus.recentEvents]
  have hpos := bus.positive
  rw [busWatermark,hrecent,h.recent,ring_ring,Nat.min_eq_left hpos,ring]
  cases log using List.reverseRecOn with
  | nil => rfl
  | append_singleton log e =>
    have hlast := h.numbered log.length e (by rw [List.getElem?_append_right (Nat.le_refl _)]; simp)
    rw [List.length_append,List.length_singleton,Nat.add_sub_cancel,List.drop_left]
    exact hlast

theorem ofValue_value (kind : FsEventKind) : FsEventKind.ofValue kind.value = some kind := by
  cases kind <;> decide

theorem tool_event (tool : ToolCall) (e : FsEventKind × List Rel) : ∃ event, (tool.emit e).event = some event ∧
    event.paths = e.2.map pathStr ∧ event.cause = tool.cause ∧
    event.attribute (lit "run_id") = tool.runId := by
  refine ⟨_,by rw [EmitCall.event,ToolCall.emit,ofValue_value,Option.map_some],rfl,rfl,?_⟩
  rw [FsEvent.attribute]
  dsimp only
  cases tool.runId with
  | none =>
    rw [Option.map_none,Option.toList_none,List.mergeSort_nil]
    rfl
  | some id =>
    rw [Option.map_some,Option.toList_some,List.mergeSort_singleton]
    exact List.lookup_cons_self

theorem mem_eventPaths {path rootPath : PyStr} {watermark : ℕ} {e : Entry FsEvent} :
    path ∈ eventPaths rootPath watermark ownRun e ↔ watermark < e.seq ∧ e.payload.cause ∈ attributedCauses ∧
      ¬ (ownRun ≠ none ∧ e.payload.attribute (lit "run_id") = ownRun) ∧
      (∃ p ∈ e.payload.paths, relpath p rootPath = path) ∧ (lit "..").isPrefixOf path = false := by
  rw [eventPaths]
  split
  case isTrue hold => exact ⟨(fun h => nomatch h),fun h => absurd hold (Nat.not_le_of_lt h.1)⟩
  case isFalse hnew =>
    split
    case isTrue hcause => exact ⟨(fun h => nomatch h),fun h => absurd h.2.1 hcause⟩
    case isFalse hcause =>
      split
      case isTrue hown => exact ⟨(fun h => nomatch h),fun h => absurd hown h.2.2.1⟩
      case isFalse hown =>
        rw [List.mem_filterMap]
        constructor
        · rintro ⟨p,hp,hsome⟩
          split at hsome
          · cases hsome
          case isFalse hdots =>
            cases hsome
            exact ⟨Nat.lt_of_not_le hnew,not_not.mp hcause,hown,⟨p,hp,rfl⟩,Bool.eq_false_iff.mpr hdots⟩
        · rintro ⟨_,_,_,⟨p,hp,rfl⟩,hdots⟩
          exact ⟨p,hp,if_neg (Bool.eq_false_iff.mp hdots)⟩

theorem mem_window {new : List (Entry FsEvent)} (h : Holds bus (log++new))
    (hcapacity : bus.capacity = escapeBusLookback) (hnew : new.length ≤ escapeBusLookback) {e : Entry FsEvent} :
    (e ∈ bus.recentEvents escapeBusLookback none none none ∧ log.length < e.seq) ↔ e ∈ new := by
  have hrecent : bus.recentEvents escapeBusLookback none none none = ring escapeBusLookback bus.recent := by
    simp [FsEventBus.recentEvents,escapeBusLookback]
  have hafter : after log.length (ring escapeBusLookback (log++new)) = new := by
    rw [after_ring h.numbered (by rw [List.length_append]; omega),List.drop_left]
  rw [hrecent,h.recent,hcapacity,ring_ring,Nat.min_self]
  constructor
  · rintro ⟨hmem,hlt⟩
    rw [← hafter]
    exact List.mem_filter.mpr ⟨hmem,decide_eq_true hlt⟩
  · intro hmem
    rw [← hafter] at hmem
    obtain ⟨hring,hlt⟩ := List.mem_filter.mp hmem
    exact ⟨hring,of_decide_eq_true hlt⟩

end Bus

section Report

variable {call : Call} {f : Rel} {c : Change}

theorem mem_attributed (call : Call) (hf : NamesFile f) :
    pathName f ∈ attributedPaths call.ended.bus (pathStr call.root) (busWatermark call.started.bus)
      call.ownRun ↔ call.Attributed f := by
  obtain ⟨earlier,hstarted,_,hcapacity⟩ :=
    @holds_run call.log ⟨call.files,call.bus⟩ call.holds (call.before.map Action.tool)
  obtain ⟨new,hended,hpayload,hcapacity'⟩ := holds_run hstarted call.during
  have hcap : call.ended.bus.capacity = escapeBusLookback := hcapacity'.trans (hcapacity.trans call.capacity)
  have hlength : new.length ≤ escapeBusLookback := by
    have hcount : (new.map Entry.payload).length ≤ escapeBusLookback := by
      rw [hpayload]
      exact Nat.le_trans (List.length_filterMap_le _ _) call.window
    rwa [List.length_map] at hcount
  have hmark : busWatermark call.started.bus = (call.log++earlier).length := watermark_eq hstarted
  rw [attributedPaths,List.mem_flatMap,hmark]
  constructor
  · rintro ⟨e,hrecent,hpath⟩
    obtain ⟨hlt,_,_,⟨p,hp,hrel⟩,hdots⟩ := mem_eventPaths.mp hpath
    have hnew := (mem_window hended hcap hlength).mp ⟨hrecent,hlt⟩
    have hmem := List.mem_map_of_mem (f := Entry.payload) hnew
    rw [hpayload] at hmem
    obtain ⟨emit,hemit,hevent⟩ := List.mem_filterMap.mp hmem
    obtain ⟨a,ha,hemits⟩ := List.mem_flatMap.mp hemit
    cases a with
    | command file stat => cases hemits
    | tool tool =>
      obtain ⟨ev,hev,rfl⟩ := List.mem_map.mp hemits
      obtain ⟨event,hsome,hpaths,_,_⟩ := tool_event tool ev
      rw [hevent] at hsome
      cases hsome
      rw [hpaths] at hp
      obtain ⟨q,hq,rfl⟩ := List.mem_map.mp hp
      have hvalid : tool.Announced call.root call.ownRun := call.duringValid _ ha
      have hfile := file_of_relpath call.rootNames (hvalid.paths ev hev q hq) hf hrel hdots
      exact ⟨⟨tool,ha,ev,hev,hfile ▸ hq⟩,hdots⟩
  · rintro ⟨⟨tool,htool,ev,hev,hq⟩,hdots⟩
    obtain ⟨event,hsome,hpaths,hcause,hrun⟩ := tool_event tool ev
    have hvalid : tool.Announced call.root call.ownRun := call.duringValid _ htool
    have hmem : event ∈ new.map Entry.payload := by
      rw [hpayload]
      refine List.mem_filterMap.mpr ⟨tool.emit ev,List.mem_flatMap.mpr ⟨_,htool,?_⟩,hsome⟩
      exact List.mem_map_of_mem hev
    obtain ⟨e,hnew,rfl⟩ := List.mem_map.mp hmem
    obtain ⟨hrecent,hlt⟩ := (mem_window hended hcap hlength).mpr hnew
    refine ⟨e,hrecent,mem_eventPaths.mpr ⟨hlt,hcause ▸ hvalid.cause,?_,⟨_,?_,relpath_file call.rootNames hf⟩,hdots⟩⟩
    · rw [hrun]
      exact fun h => hvalid.other h.1 h.2
    · rw [hpaths]
      exact List.mem_map_of_mem hq

theorem namesFile_change {files : Files} (hfiles : ∀ g ∈ files, NamesFile g) {p : Rel × Option Stat}
    (hp : NamesFile p.1) : ∀ g ∈ change files p, NamesFile g := by
  intro g hg
  rw [change] at hg
  split at hg
  · exact hfiles g (AList.mem_erase.mp hg).2
  · obtain rfl | hg := (AList.mem_insert _).mp hg
    · exact hp
    · exact hfiles g hg

theorem namesFile_changes {files : Files} (hfiles : ∀ g ∈ files, NamesFile g)
    {changes : List (Rel × Option Stat)} (hchanges : ∀ p ∈ changes, NamesFile p.1) :
    ∀ g ∈ changes.foldl change files, NamesFile g := by
  induction changes generalizing files with
  | nil => exact hfiles
  | cons p changes ih =>
    exact ih (namesFile_change hfiles (hchanges p List.mem_cons_self))
      fun q hq => hchanges q (List.mem_cons_of_mem _ hq)

theorem namesFile_run {w : World} {root : Rel} {ownRun : Option PyStr} {as : List Action}
    (hfiles : ∀ g ∈ w.files, NamesFile g) (has : ∀ a ∈ as, a.Valid root ownRun) :
    ∀ g ∈ (as.foldl act w).files, NamesFile g := by
  induction as generalizing w with
  | nil => exact hfiles
  | cons a as ih =>
    have ha := has a List.mem_cons_self
    refine ih ?_ fun b hb => has b (List.mem_cons_of_mem _ hb)
    cases a with
    | command file stat => exact namesFile_change hfiles ha
    | tool tool => exact namesFile_changes hfiles fun p hp => (ha.files p hp).1

theorem namesFile_ended (call : Call) : ∀ g ∈ call.ended.files, NamesFile g := by
  refine namesFile_run (@namesFile_run _ call.root call.ownRun _ call.fileNames fun a ha => ?_) call.duringValid
  obtain ⟨tool,htool,rfl⟩ := List.mem_map.mp ha
  exact call.beforeValid tool htool

theorem mem_changed (hf : NamesFile f) : (c,pathName f) ∈ call.changed ↔
    visited f = true ∧ difference (call.files.lookup f) (call.ended.files.lookup f) = some c ∧
      ¬ call.Attributed f := by
  rw [Call.changed,changedBetween,List.mem_filter,mem_diff call.fileNames (namesFile_ended call) hf,
    and_assoc,← mem_attributed call hf]
  simp

theorem kind_value_inj {c c' : Change} (h : c.kind.value = c'.kind.value) : c = c' := by
  cases c <;> cases c' <;> first | rfl | exact absurd h (by decide)

/-- The report is exact exactly when the files that differ divide into those of the command and
those that others announced in time. -/
theorem report_exact_iff (call : Call) : Exact call ↔ Separate call := by
  constructor
  · intro h f hf hvisited hdiffers
    obtain ⟨c,hc⟩ := Option.ne_none_iff_exists'.mp hdiffers
    constructor
    · exact fun hcommand => ((mem_changed hf).mp (h.escapes f hf hvisited hcommand c hc)).2.2
    · intro hattributed
      by_contra hcommand
      exact h.others f hf hcommand c ((mem_changed hf).mpr ⟨hvisited,hc,hattributed⟩)
  · intro h
    constructor
    case escapes =>
      intro f hf hvisited hcommand c hc
      have hdiffers := Option.ne_none_iff_exists'.mpr ⟨c,hc⟩
      exact (mem_changed hf).mpr ⟨hvisited,hc,(h f hf hvisited hdiffers).mp hcommand⟩
    case others =>
      intro f hf hcommand c hmem
      obtain ⟨hvisited,hc,hattributed⟩ := (mem_changed hf).mp hmem
      exact hcommand ((h f hf hvisited (Option.ne_none_iff_exists'.mpr ⟨c,hc⟩)).mpr hattributed)

end Report

section BothSides

def report : Rel := [lit "report.txt"]

def mainWrite : ToolCall where
  changes := [(report,some ⟨1,10⟩)]
  events := [(.created,[[lit "w",lit "report.txt"]])]
  cause := lit "write_file"
  runId := none

/-- The main agent writes a file of the workspace `/w`, and the command overwrites it. -/
def bothSides : Call where
  root := [lit "w"]
  ownRun := some (lit "r1")
  files := ∅
  bus := .new escapeBusLookback (by decide)
  log := []
  before := []
  during := [.tool mainWrite,.command report (some ⟨2,20⟩)]
  rootNames := by decide
  fileNames := fun f hf => absurd hf (AList.notMem_empty f)
  holds := ⟨rfl,rfl,numbered_nil⟩
  capacity := rfl
  beforeValid := fun c hc => nomatch hc
  duringValid := by
    have hreport : NamesFile report := ⟨List.cons_ne_nil _ _,by decide⟩
    intro a ha
    obtain rfl | ha := List.mem_cons.mp ha
    · refine ⟨by decide,fun _ => (Option.some_ne_none _).symm,fun c hc => ?_,fun e he p hp => ?_⟩
      · obtain rfl := List.mem_singleton.mp hc
        exact ⟨hreport,_,List.mem_singleton_self _,List.mem_singleton_self _⟩
      · obtain rfl := List.mem_singleton.mp he
        obtain rfl := List.mem_singleton.mp hp
        decide
    · obtain rfl := List.mem_singleton.mp ha
      exact hreport
  window := by decide

/-- The event of the main agent hides what the command did. -/
theorem overwrite_not_reported : ¬ Exact bothSides := by
  intro h
  have hreport : NamesFile report := ⟨List.cons_ne_nil _ _,by decide⟩
  have hcommand : bothSides.ChangedByCommand report := ⟨_,List.mem_cons_of_mem _ (List.mem_singleton_self _)⟩
  have hmem := h.escapes report hreport (by decide) hcommand .added (by decide)
  refine ((mem_changed hreport).mp hmem).2.2 ⟨⟨mainWrite,List.mem_cons_self,_,List.mem_singleton_self _,?_⟩,?_⟩
  · exact List.mem_singleton_self _
  · decide

end BothSides

end MinimaxCode.SandboxEscape
