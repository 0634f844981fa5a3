import MinimaxCode.Runs
import MinimaxCode.SymbolIndex

/-!
# The index manager

The manager follows the files of a workspace by the events that it is sent. What waits in its
mailbox is folded to one kind for each path, and each path is then read again or removed. An
event that is folded away never reaches the index.
-/

namespace MinimaxCode.LiveIndex

open PyText OrderedDict Runs CodebaseIndex SymbolIndex ScopeGraphIndex

inductive FileEventKind
  | created
  | modified
  | removed
  | renamed
  deriving DecidableEq

structure FileEvent where
  paths : List PyStr
  kind : FileEventKind

/-- `CoalescedEvents`: the kind of each path. -/
abbrev CoalescedEvents := List (PyStr × FileEventKind)

/-- What a kind makes of the one that stands there. -/
def mergeKinds : Option FileEventKind → FileEventKind → Option FileEventKind
  | none, kind => some kind
  | some .created, .removed => none
  | some .modified, .removed => none
  | some .removed, .created => some .created
  | some .removed, .modified => some .created
  | some _, kind => some kind

/-- `_insert`. -/
def insertKind (events : CoalescedEvents) (path : PyStr) (kind : FileEventKind) : CoalescedEvents :=
  match mergeKinds (lookup events path) kind with
  | none => remove events path
  | some kind => assign events path kind

/-- The entries that an event makes: a rename is a removal and a creation. -/
def FileEvent.entries (e : FileEvent) : List (PyStr × FileEventKind) :=
  match e.kind, e.paths with
  | .renamed, source::target::_ => [(source,.removed),(target,.created)]
  | kind, paths => paths.map fun p => (p,kind)

def coalesce (events : CoalescedEvents) (e : FileEvent) : CoalescedEvents :=
  e.entries.foldl (fun d k => insertKind d k.1 k.2) events

def isUnderHiddenDir (path : PyStr) : Bool :=
  (splitOn (ch '/') path).any fun p => p.head? = some (ch '.') && 1 < p.length

/-- `_should_index`, for a path below the root. -/
def shouldIndex (path : PyStr) : Bool := (forFilePath path).isSome && !isUnderHiddenDir path

def internSymbols (i : ScopeGraphIndex) (path : PyStr) (x : Extracted) : ScopeGraphIndex :=
  let i := x.definitions.foldl (fun i d => i.addDefinition d.1 path (d.2+1)) i
  let i := x.references.foldl (fun i r => i.addReference r.1 path (r.2+1)) i
  x.aliases.foldl (fun i a => i.addAlias a.1 a.2) i

def reindexFile (extract : Extractor) (files : Files) (i : ScopeGraphIndex) (path : PyStr) :
    ScopeGraphIndex :=
  let i := i.removeFile path
  match forFilePath path with
  | none => i
  | some lang =>
    match lookup files path with
    | none => i
    | some f =>
      match f.stat with
      | none => i
      | some st =>
        if st.size = 0 ∨ maxIndexableFileSize < st.size then i
        else if f.readable = false then i
        else if isBinaryContent f.bytes then i
        else
          match extract lang f.bytes with
          | none => i
          | some x => (internSymbols i path x).setFileMeta path (.fromStat st)

def applyEntry (extract : Extractor) (files : Files) (i : ScopeGraphIndex)
    (entry : PyStr × FileEventKind) : ScopeGraphIndex :=
  if shouldIndex entry.1 = false then i
  else if entry.2 = .removed then i.removeFile entry.1
  else reindexFile extract files i entry.1

def applyCoalesced (extract : Extractor) (files : Files) (i : ScopeGraphIndex)
    (events : CoalescedEvents) : ScopeGraphIndex := events.foldl (applyEntry extract files) i

/-- The commands of the mailbox. A query changes nothing, but a drain stops at it. -/
inductive IndexCommand
  | fileEvent (e : FileEvent)
  | fileEventBatch (es : List FileEvent)
  | query

/-- The events at the head of the mailbox, and the commands from the first query on. -/
def drain : List IndexCommand → List FileEvent × List IndexCommand
  | .fileEvent e::rest => (e::(drain rest).1,(drain rest).2)
  | .fileEventBatch es::rest => (es++(drain rest).1,(drain rest).2)
  | rest => ([],rest)

/-- The manager with its mailbox, the files, and the events that have not been sent yet. What
the index has taken in of each file is remembered. -/
structure Manager where
  index : ScopeGraphIndex
  mailbox : List IndexCommand
  pending : List FileEvent
  files : Files
  taken : PyStr → Option FileSymbols

/-- What a build takes in of the files that are to be indexed. -/
def expected (extract : Extractor) (files : Files) (path : PyStr) : Option FileSymbols :=
  if shouldIndex path then processFileFast extract files path else none

/-- What the index has taken in after an entry. -/
def takeEntry (extract : Extractor) (files : Files) (taken : PyStr → Option FileSymbols)
    (entry : PyStr × FileEventKind) : PyStr → Option FileSymbols :=
  Function.update taken entry.1
    (if entry.2 = .removed then none else expected extract files entry.1)

namespace Manager

/-- A manager that has built its index over the files that there are. -/
def start (extract : Extractor) (files : Files) (filePaths : List PyStr) : Manager :=
  ⟨buildFast extract files filePaths,[],[],files,expected extract files⟩

/-- The turn of the actor. -/
def process (extract : Extractor) (m : Manager) : Option Manager :=
  match m.mailbox with
  | [] => none
  | .query::rest => some {m with mailbox := rest}
  | mailbox =>
    let (events,rest) := drain mailbox
    let coalesced := events.foldl coalesce []
    some {m with
      index := applyCoalesced extract m.files m.index coalesced
      mailbox := rest.tail
      taken := coalesced.foldl (takeEntry extract m.files) m.taken}

inductive Action
  | change (files : Files) (e : FileEvent)
  | send
  | sendBatch (n : ℕ)
  | query
  | process

/-- The files change and the change is reported; reports are sent in their order, alone or
in batches of any size, and the actor takes its turns. -/
def step (extract : Extractor) (m : Manager) : Action → Option Manager
  | .change files e => some {m with files, pending := m.pending++[e]}
  | .send =>
    match m.pending with
    | [] => none
    | e::rest => some {m with mailbox := m.mailbox++[.fileEvent e], pending := rest}
  | .sendBatch n => some {m with
      mailbox := m.mailbox++[.fileEventBatch (m.pending.take n)], pending := m.pending.drop n}
  | .query => some {m with mailbox := m.mailbox++[.query]}
  | .process => m.process extract

end Manager

section Coalescing

variable {d : CoalescedEvents} {p q : PyStr} {kind : FileEventKind}
  {entries : List (PyStr × FileEventKind)}

/-- The last kind that is reported for a path. -/
def lastKind (entries : List (PyStr × FileEventKind)) (p : PyStr) : Option FileEventKind :=
  ((entries.filter fun k => k.1 = p).getLast?).map Prod.snd

def entriesOf (events : List FileEvent) : List (PyStr × FileEventKind) :=
  events.flatMap FileEvent.entries

def coalesceEntries (entries : List (PyStr × FileEventKind)) : CoalescedEvents :=
  entries.foldl (fun d k => insertKind d k.1 k.2) []

theorem foldl_coalesce (events : List FileEvent) :
    events.foldl coalesce [] = coalesceEntries (entriesOf events) := by
  rw [coalesceEntries,entriesOf,List.foldl_flatMap]
  rfl

theorem lookup_insertKind (d : CoalescedEvents) (p q : PyStr) (kind : FileEventKind) :
    lookup (insertKind d p kind) q = if p = q then mergeKinds (lookup d p) kind else lookup d q := by
  rw [insertKind]
  cases hm : mergeKinds (lookup d p) kind with
  | none =>
    dsimp only
    rw [lookup_remove]
  | some k =>
    dsimp only
    rw [lookup_assign]

theorem nodup_keys_coalesceEntries (entries : List (PyStr × FileEventKind)) :
    (keys (coalesceEntries entries)).Nodup := by
  induction entries using List.reverseRecOn with
  | nil => exact List.nodup_nil
  | append_singleton entries e ih =>
    rw [coalesceEntries,List.foldl_append,List.foldl_cons,List.foldl_nil,← coalesceEntries,insertKind]
    split
    · exact nodup_keys_remove ih
    · exact nodup_keys_assign ih

theorem lastKind_append (entries : List (PyStr × FileEventKind)) (e : PyStr × FileEventKind) :
    lastKind (entries++[e]) p = if e.1 = p then some e.2 else lastKind entries p := by
  rw [lastKind,List.filter_append,lastKind]
  by_cases h : e.1 = p
  · simp [h]
  · simp [h]

theorem lastKind_append_of_not_mem (entries : List (PyStr × FileEventKind))
    {entries' : List (PyStr × FileEventKind)} (h : p ∉ keys entries') :
    lastKind (entries++entries') p = lastKind entries p := by
  have hnil : (entries'.filter fun k => k.1 = p) = [] := by
    refine List.filter_eq_nil_iff.mpr fun k hk heq => h ?_
    exact List.mem_map.mpr ⟨k,hk,of_decide_eq_true heq⟩
  rw [lastKind,List.filter_append,hnil,List.append_nil,lastKind]

theorem lastKind_append_of_mem {entries' : List (PyStr × FileEventKind)}
    (h : p ∈ keys entries') : lastKind (entries++entries') p = lastKind entries' p := by
  obtain ⟨k,hk,rfl⟩ := List.mem_map.mp h
  have hne : (entries'.filter fun k' => k'.1 = k.1) ≠ [] :=
    List.ne_nil_of_mem (List.mem_filter.mpr ⟨hk,decide_eq_true rfl⟩)
  rw [lastKind,List.filter_append,List.getLast?_append,List.getLast?_eq_some_getLast hne,Option.some_or,
    lastKind,List.getLast?_eq_some_getLast hne]

theorem lastKind_of_lookup (hmem : p ∈ keys entries)
    (h : lookup (coalesceEntries entries) p = none ∨
      lookup (coalesceEntries entries) p = some .removed) : lastKind entries p = some .removed := by
  induction entries using List.reverseRecOn with
  | nil => cases hmem
  | append_singleton entries e ih =>
    rw [coalesceEntries,List.foldl_append,List.foldl_cons,List.foldl_nil,← coalesceEntries,
      lookup_insertKind] at h
    rw [lastKind_append]
    by_cases hp : e.1 = p
    · rw [if_pos hp] at h ⊢
      revert h
      generalize lookup (coalesceEntries entries) e.1 = previous
      generalize e.2 = kind
      cases previous with
      | none => cases kind <;> simp [mergeKinds]
      | some k => cases k <;> cases kind <;> simp [mergeKinds]
    · rw [if_neg hp] at h ⊢
      refine ih ?_ h
      rw [keys,List.map_append] at hmem
      rcases List.mem_append.mp hmem with hmem | hmem
      · exact hmem
      · exact absurd (List.mem_singleton.mp hmem).symm hp

theorem lookup_coalesceEntries_of_not_mem (hmem : p ∉ keys entries) :
    lookup (coalesceEntries entries) p = none := by
  induction entries using List.reverseRecOn with
  | nil => rfl
  | append_singleton entries e ih =>
    rw [keys,List.map_append,List.mem_append,not_or] at hmem
    rw [coalesceEntries,List.foldl_append,List.foldl_cons,List.foldl_nil,← coalesceEntries,
      lookup_insertKind,if_neg,ih hmem.1]
    exact fun h => hmem.2 (List.mem_singleton.mpr h.symm)

end Coalescing

section Applying

variable {extract : Extractor} {files : Files} {i : ScopeGraphIndex} {p : PyStr}
  {taken : PyStr → Option FileSymbols} {entry : PyStr × FileEventKind} {d : CoalescedEvents}

theorem reindexFile_eq (extract : Extractor) (files : Files) (i : ScopeGraphIndex) (path : PyStr) :
    reindexFile extract files i path =
      match processFileFast extract files path with
      | none => i.removeFile path
      | some syms => (i.removeFile path).merge path syms := by
  rw [reindexFile,processFileFast]
  cases forFilePath path with
  | none => rfl
  | some lang =>
    dsimp only
    cases lookup files path with
    | none => rfl
    | some f =>
      dsimp only
      cases f.stat with
      | none => rfl
      | some st =>
        dsimp only
        by_cases hsize : st.size = 0 ∨ maxIndexableFileSize < st.size
        · rw [if_pos hsize,if_pos hsize]
        rw [if_neg hsize,if_neg hsize]
        by_cases hread : f.readable = false
        · rw [if_pos hread,if_pos hread]
        rw [if_neg hread,if_neg hread]
        by_cases hbinary : isBinaryContent f.bytes
        · rw [if_pos hbinary,if_pos hbinary]
        rw [if_neg hbinary,if_neg hbinary]
        cases extract lang f.bytes with
        | none => rfl
        | some x =>
          dsimp only
          rw [internSymbols,merge,List.foldl_map,List.foldl_map]

theorem applyEntry_holds (hs : i.Sound) (h : i.Holds taken)
    (hwanted : ∀ p, (taken p).isSome → shouldIndex p) (entry : PyStr × FileEventKind) :
    (applyEntry extract files i entry).Sound ∧
      (applyEntry extract files i entry).Holds (takeEntry extract files taken entry) := by
  obtain ⟨p,kind⟩ := entry
  rw [applyEntry,takeEntry]
  dsimp only
  by_cases hp : shouldIndex p = false
  · have hnone : taken p = none := by
      by_contra hne
      have hsome := hwanted p (Option.isSome_iff_ne_none.mpr hne)
      rw [hp] at hsome
      cases hsome
    have hexpected : expected extract files p = none := by
      rw [expected,hp]
      rfl
    rw [if_pos hp,hexpected,ite_self,← hnone,Function.update_eq_self]
    exact ⟨hs,h⟩
  rw [if_neg hp]
  by_cases hkind : kind = .removed
  · rw [if_pos hkind,if_pos hkind]
    exact ⟨hs.removeFile p,h.removeFile hs p⟩
  have hexpected : expected extract files p = processFileFast extract files p :=
    if_pos (Bool.eq_true_of_not_eq_false hp)
  rw [if_neg hkind,if_neg hkind,hexpected,reindexFile_eq]
  cases processFileFast extract files p with
  | none => exact ⟨hs.removeFile p,h.removeFile hs p⟩
  | some syms =>
    refine ⟨(hs.removeFile p).merge p syms,?_⟩
    have hm := (h.removeFile hs p).merge (Function.update_self p none taken) syms
    rw [Function.update_idem] at hm
    exact hm

theorem takeEntry_wanted (hwanted : ∀ p, (taken p).isSome → shouldIndex p)
    (entry : PyStr × FileEventKind) (p : PyStr)
    (hp : (takeEntry extract files taken entry p).isSome) : shouldIndex p := by
  rw [takeEntry] at hp
  by_cases he : p = entry.1
  · subst he
    rw [Function.update_self] at hp
    split at hp
    · cases hp
    · rw [expected] at hp
      split at hp
      · assumption
      · cases hp
  · rw [Function.update_of_ne he] at hp
    exact hwanted p hp

theorem applyCoalesced_holds (extract : Extractor) (files : Files) (d : CoalescedEvents)
    (hs : i.Sound) (h : i.Holds taken)
    (hwanted : ∀ p, (taken p).isSome → shouldIndex p) :
    (applyCoalesced extract files i d).Sound ∧
      (applyCoalesced extract files i d).Holds (d.foldl (takeEntry extract files) taken) ∧
      ∀ p, (d.foldl (takeEntry extract files) taken p).isSome → shouldIndex p := by
  induction d generalizing i taken with
  | nil => exact ⟨hs,h,hwanted⟩
  | cons entry d ih =>
    obtain ⟨hs',h'⟩ := applyEntry_holds hs h hwanted entry
    exact ih hs' h' (takeEntry_wanted hwanted entry)

theorem foldl_takeEntry (hd : (keys d).Nodup) (p : PyStr) :
    d.foldl (takeEntry extract files) taken p =
      match lookup d p with
      | none => taken p
      | some kind => if kind = .removed then none else expected extract files p := by
  induction d generalizing taken with
  | nil => rfl
  | cons entry d ih =>
    obtain ⟨hentry,hd⟩ := List.nodup_cons.mp hd
    rw [List.foldl_cons,ih hd,lookup_cons]
    by_cases he : entry.1 = p
    · subst he
      rw [lookup_eq_none hentry,if_pos rfl]
      exact Function.update_self ..
    · rw [if_neg he,takeEntry,Function.update_of_ne (Ne.symm he)]

theorem lookup_aliases_applyEntry (i : ScopeGraphIndex) (entry : PyStr × FileEventKind) (a : PyStr) :
    lookup (applyEntry extract files i entry).aliases a =
      if entry.2 = .removed then lookup i.aliases a
      else ((expected extract files entry.1).bind fun syms => syms.original a).or
        (lookup i.aliases a) := by
  obtain ⟨p,kind⟩ := entry
  rw [applyEntry,expected]
  dsimp only
  cases hp : shouldIndex p with
  | false =>
    rw [if_pos rfl,if_neg Bool.false_ne_true]
    exact (ite_self _).symm
  | true =>
    rw [if_neg (Ne.symm Bool.false_ne_true),if_pos rfl]
    by_cases hkind : kind = .removed
    · rw [if_pos hkind,if_pos hkind]
      rfl
    rw [if_neg hkind,if_neg hkind,reindexFile_eq]
    cases processFileFast extract files p with
    | none => rfl
    | some syms =>
      dsimp only
      rw [lookup_aliases_merge]
      rfl

theorem lookup_aliases_applyCoalesced (extract : Extractor) (files : Files) (d : CoalescedEvents) (i : ScopeGraphIndex) (a : PyStr) :
    (∃ entry ∈ d, entry.2 ≠ .removed ∧ ∃ syms, expected extract files entry.1 = some syms ∧
      (syms.original a).isSome ∧
      lookup (applyCoalesced extract files i d).aliases a = syms.original a) ∨
    (∀ entry ∈ d, entry.2 ≠ .removed → ∀ syms, expected extract files entry.1 = some syms →
      syms.original a = none) ∧
      lookup (applyCoalesced extract files i d).aliases a = lookup i.aliases a := by
  induction d generalizing i with
  | nil => exact .inr ⟨fun _ h => absurd h List.not_mem_nil,rfl⟩
  | cons entry d ih =>
    rw [applyCoalesced,List.foldl_cons,← applyCoalesced]
    rcases ih (applyEntry extract files i entry) with ⟨e,he,hkind,syms,hsyms,hsome,hl⟩ | ⟨hnone,hl⟩
    · exact .inl ⟨e,List.mem_cons_of_mem _ he,hkind,syms,hsyms,hsome,hl⟩
    rw [hl,lookup_aliases_applyEntry]
    by_cases hkind : entry.2 = .removed
    · rw [if_pos hkind]
      refine .inr ⟨fun e he hne => ?_,rfl⟩
      rcases List.mem_cons.mp he with rfl | he
      · exact absurd hkind hne
      · exact hnone e he hne
    rw [if_neg hkind]
    cases hentry : (expected extract files entry.1).bind fun syms => syms.original a with
    | none =>
      rw [Option.none_or]
      refine .inr ⟨fun e he hne => ?_,rfl⟩
      rcases List.mem_cons.mp he with rfl | he
      · intro syms hsyms
        rw [hsyms] at hentry
        exact hentry
      · exact hnone e he hne
    | some o =>
      obtain ⟨syms,hsyms,ho⟩ := Option.bind_eq_some_iff.mp hentry
      rw [Option.some_or]
      refine .inl ⟨entry,List.mem_cons_self,hkind,syms,hsyms,?_,ho.symm⟩
      rw [ho]
      rfl

end Applying

namespace Manager

def mailboxEvents (mailbox : List IndexCommand) : List FileEvent :=
  mailbox.flatMap fun
    | .fileEvent e => [e]
    | .fileEventBatch es => es
    | .query => []

/-- The entries of all events on their way, in the order in which the actor will see them. -/
def queued (m : Manager) : List (PyStr × FileEventKind) :=
  entriesOf (mailboxEvents m.mailbox++m.pending)

/-- The kinds that the next turn of the actor works on, and the entries that stay behind. -/
def nextEntries (m : Manager) : List (PyStr × FileEventKind) := entriesOf (drain m.mailbox).1

def laterEntries (m : Manager) : List (PyStr × FileEventKind) :=
  entriesOf (mailboxEvents (drain m.mailbox).2++m.pending)

/-- What the index has taken in after the next turn of the actor. -/
def takenNext (extract : Extractor) (m : Manager) : PyStr → Option FileSymbols :=
  (coalesceEntries m.nextEntries).foldl (takeEntry extract m.files) m.taken

/-- Every change of a file that is to be indexed is reported, and what is reported as removed
is gone. -/
def Honest (m : Manager) : Action → Prop
  | .change files e => (∀ p, shouldIndex p → lookup files p ≠ lookup m.files p → p ∈ keys e.entries) ∧
    ∀ p, lastKind e.entries p = some .removed → lookup files p = none
  | _ => True

/-- The index holds what it has taken in, and of each file without an event on its way that is
what a build would take in. -/
structure Followed (extract : Extractor) (m : Manager) : Prop where
  sound : m.index.Sound
  holds : m.index.Holds m.taken
  aliases : m.index.HoldsAliases m.taken
  current : ∀ p, p ∉ keys m.queued → m.taken p = expected extract m.files p

/-- No event is folded away for a file that the index has an entry of, unless another one is
to come, and the turn takes no alias away and leaves none with two originals. -/
structure KeepsTurn (extract : Extractor) (m : Manager) : Prop where
  cancelled : ∀ p ∈ keys m.nextEntries, lookup (coalesceEntries m.nextEntries) p = none →
    p ∉ keys m.laterEntries → lookup m.index.fileMeta p = none
  kept : ∀ a p syms, m.taken p = some syms → (syms.original a).isSome →
    ∃ q syms', m.takenNext extract q = some syms' ∧ (syms'.original a).isSome
  agreed : Agreed (m.takenNext extract)

def Keeps (extract : Extractor) (m : Manager) : Action → Prop
  | .process => m.KeepsTurn extract
  | _ => True

/-- A list of the files that a build is to take in, in any order. -/
def Lists (extract : Extractor) (files : Files) (filePaths : List PyStr) : Prop :=
  filePaths.Nodup ∧ (∀ p ∈ filePaths, shouldIndex p) ∧
    ∀ p, shouldIndex p → (processFileFast extract files p).isSome → p ∈ filePaths

/-- When every event has been drained the index answers as any fresh build. -/
def Converged (extract : Extractor) (m : Manager) : Prop :=
  m.pending = [] → m.mailbox = [] → ∀ filePaths, Lists extract m.files filePaths →
    m.index.Same (buildFast extract m.files filePaths)

variable {extract : Extractor} {m t : Manager} {p : PyStr} {files : Files} {a : Manager.Action}

theorem Lists.listed_eq {filePaths : List PyStr} (h : Lists extract files filePaths) :
    listed extract files filePaths = expected extract files := by
  obtain ⟨-,hwanted,hall⟩ := h
  funext p
  rw [listed,expected]
  by_cases hp : p ∈ filePaths
  · rw [if_pos hp,if_pos (hwanted p hp)]
  · rw [if_neg hp]
    split
    · next hwant =>
      by_contra hne
      exact hp (hall p hwant (Option.isSome_iff_ne_none.mpr (Ne.symm hne)))
    · rfl

theorem Followed.converged (h : m.Followed extract) : m.Converged extract := by
  intro hpending hmailbox filePaths hlists
  have htaken : m.taken = listed extract m.files filePaths := by
    rw [hlists.listed_eq]
    funext p
    refine h.current p ?_
    rw [queued,hpending,hmailbox]
    exact List.not_mem_nil
  obtain ⟨hsound,hholds,haliases⟩ := buildFast_spec extract m.files hlists.1
  have hagreed := h.aliases.agreed
  rw [htaken] at hagreed
  refine same_of_holds h.sound hsound h.holds ?_ h.aliases ?_
  · rw [htaken]
    exact hholds
  · rw [htaken]
    exact haliases hagreed

structure Sound (m : Manager) : Prop where
  index : m.index.Sound
  holds : m.index.Holds m.taken
  wanted : ∀ p, (m.taken p).isSome → shouldIndex p
  truthful : ∀ p, shouldIndex p → lastKind m.queued p = some .removed → lookup m.files p = none

theorem expected_of_missing (h : shouldIndex p → lookup files p = none) :
    expected extract files p = none := by
  rw [expected]
  split
  · next hp =>
    rw [processFileFast,h hp]
    cases forFilePath p <;> rfl
  · rfl

theorem mailboxEvents_drain (mailbox : List IndexCommand) :
    mailboxEvents mailbox = (drain mailbox).1++mailboxEvents (drain mailbox).2 := by
  induction mailbox with
  | nil => rfl
  | cons c rest ih =>
    cases c with
    | fileEvent e =>
      change e::mailboxEvents rest = e::((drain rest).1++mailboxEvents (drain rest).2)
      rw [← ih]
    | fileEventBatch es =>
      change es++mailboxEvents rest = es++(drain rest).1++mailboxEvents (drain rest).2
      rw [ih,List.append_assoc]
    | query => rfl

theorem mailboxEvents_tail (mailbox : List IndexCommand) :
    mailboxEvents (drain mailbox).2.tail = mailboxEvents (drain mailbox).2 := by
  induction mailbox with
  | nil => rfl
  | cons c rest ih =>
    cases c with
    | fileEvent e => exact ih
    | fileEventBatch es => exact ih
    | query => rfl

theorem queued_eq (m : Manager) : m.queued = m.nextEntries++m.laterEntries := by
  rw [queued,mailboxEvents_drain,nextEntries,laterEntries,entriesOf,entriesOf,entriesOf,
    ← List.flatMap_append,List.append_assoc]

theorem process_eq (h : m.process extract = some t) : t = {m with
      index := applyCoalesced extract m.files m.index (coalesceEntries m.nextEntries)
      mailbox := (drain m.mailbox).2.tail
      taken := m.takenNext extract} := by
  rw [takenNext,nextEntries,← foldl_coalesce]
  rw [process] at h
  split at h
  · cases h
  · next rest hmailbox =>
    cases h
    rw [hmailbox]
    rfl
  · cases h
    rfl

theorem queued_of_process (h : m.process extract = some t) : t.queued = m.laterEntries := by
  rw [process_eq h,queued,laterEntries]
  dsimp only
  rw [mailboxEvents_tail]

theorem mailboxEvents_append (mailbox mailbox' : List IndexCommand) :
    mailboxEvents (mailbox++mailbox') = mailboxEvents mailbox++mailboxEvents mailbox' :=
  List.flatMap_append

theorem queued_of_send {rest : List FileEvent} {c : IndexCommand} (events : List FileEvent)
    (hpending : m.pending = events++rest) (hc : mailboxEvents [c] = events) :
    queued {m with mailbox := m.mailbox++[c], pending := rest} = m.queued := by
  rw [queued,queued]
  dsimp only
  rw [mailboxEvents_append,hc,hpending,List.append_assoc]

theorem queued_of_change (m : Manager) (files : Files) (e : FileEvent) :
    queued {m with files, pending := m.pending++[e]} = m.queued++e.entries := by
  rw [queued,queued]
  dsimp only
  rw [entriesOf,← List.append_assoc,List.flatMap_append,List.flatMap_singleton]
  rfl

theorem quiet_step (hst : m.step extract a = some t)
    (ha : a = .send ∨ (∃ n, a = .sendBatch n) ∨ a = .query) :
    t.queued = m.queued ∧ t.index = m.index ∧ t.files = m.files ∧ t.taken = m.taken := by
  rcases ha with rfl | ⟨n,rfl⟩ | rfl
  · rw [step] at hst
    split at hst
    · cases hst
    · next e rest hpending =>
      cases hst
      exact ⟨queued_of_send [e] hpending rfl,rfl,rfl,rfl⟩
  · cases hst
    exact ⟨queued_of_send _ (List.take_append_drop n m.pending).symm (List.append_nil _),rfl,rfl,rfl⟩
  · cases hst
    exact ⟨queued_of_send _ (List.nil_append m.pending).symm rfl,rfl,rfl,rfl⟩

theorem lookup_of_honest {e : FileEvent} (h : m.Honest (.change files e))
    (hp : shouldIndex p) (hmem : p ∉ keys e.entries) : lookup files p = lookup m.files p := by
  by_contra hne
  exact hmem (h.1 p hp hne)

theorem Sound.step (hs : m.Sound) (hst : m.step extract a = some t)
    (hok : m.Honest a) : t.Sound := by
  have hquiet : (a = .send ∨ (∃ n, a = .sendBatch n) ∨ a = .query) → t.Sound := by
    intro ha
    obtain ⟨hq,hi,hf,ht⟩ := quiet_step hst ha
    refine ⟨by rw [hi]; exact hs.index,by rw [hi,ht]; exact hs.holds,by rw [ht]; exact hs.wanted,?_⟩
    rw [hq,hf]
    exact hs.truthful
  cases a with
  | change files e =>
    cases hst
    refine ⟨hs.index,hs.holds,hs.wanted,fun p hp hlast => ?_⟩
    rw [queued_of_change] at hlast
    dsimp only
    by_cases hmem : p ∈ keys e.entries
    · rw [lastKind_append_of_mem hmem] at hlast
      exact hok.2 p hlast
    · rw [lastKind_append_of_not_mem _ hmem] at hlast
      rw [lookup_of_honest hok hp hmem]
      exact hs.truthful p hp hlast
  | send => exact hquiet (.inl rfl)
  | sendBatch n => exact hquiet (.inr (.inl ⟨n,rfl⟩))
  | query => exact hquiet (.inr (.inr rfl))
  | process =>
    have hq := queued_of_process hst
    obtain ⟨hsound,hholds,hwanted⟩ := applyCoalesced_holds extract m.files
      (coalesceEntries m.nextEntries) hs.index hs.holds hs.wanted
    have ht := process_eq hst
    refine ⟨by rw [ht]; exact hsound,by rw [ht]; exact hholds,by rw [ht]; exact hwanted,
      fun p hp hlast => ?_⟩
    rw [hq] at hlast
    have hmem : p ∈ keys m.laterEntries := by
      by_contra hmem
      have hnone := lastKind_append_of_not_mem [] hmem
      rw [List.nil_append,hlast] at hnone
      cases hnone
    rw [ht]
    refine hs.truthful p hp ?_
    rw [queued_eq,lastKind_append_of_mem hmem,hlast]

theorem Sound.expected_none (hs : m.Sound) (hmem : p ∈ keys m.nextEntries)
    (hlater : p ∉ keys m.laterEntries)
    (hl : lookup (coalesceEntries m.nextEntries) p = none ∨
      lookup (coalesceEntries m.nextEntries) p = some .removed) :
    expected extract m.files p = none := by
  refine expected_of_missing fun hp => hs.truthful p hp ?_
  rw [queued_eq,lastKind_append_of_not_mem _ hlater]
  exact lastKind_of_lookup hmem hl

theorem takenNext_eq (m : Manager) (p : PyStr) : m.takenNext extract p =
    match lookup (coalesceEntries m.nextEntries) p with
    | none => m.taken p
    | some kind => if kind = .removed then none else expected extract m.files p :=
  foldl_takeEntry (nodup_keys_coalesceEntries _) p

theorem current_iff (hs : m.Sound) (hf : m.Followed extract) :
    (∀ p, p ∉ keys m.laterEntries → m.takenNext extract p = expected extract m.files p) ↔
      ∀ p ∈ keys m.nextEntries, lookup (coalesceEntries m.nextEntries) p = none →
        p ∉ keys m.laterEntries → lookup m.index.fileMeta p = none := by
  constructor
  · intro hcurrent p hmem hl hlater
    have htaken := hcurrent p hlater
    rw [hs.expected_none hmem hlater (.inl hl),takenNext_eq,hl] at htaken
    dsimp only at htaken
    rw [hs.holds.fileMeta p,htaken,Option.map_none]
  · intro hcancelled p hlater
    rw [takenNext_eq]
    by_cases hmem : p ∈ keys m.nextEntries
    · cases hl : lookup (coalesceEntries m.nextEntries) p with
      | none =>
        have hmeta := hcancelled p hmem hl hlater
        rw [hs.holds.fileMeta p,Option.map_eq_none_iff] at hmeta
        rw [hs.expected_none hmem hlater (.inl hl)]
        exact hmeta
      | some kind =>
        dsimp only
        by_cases hkind : kind = .removed
        · subst hkind
          rw [if_pos rfl,hs.expected_none hmem hlater (.inr hl)]
        · rw [if_neg hkind]
    · rw [lookup_coalesceEntries_of_not_mem hmem]
      refine hf.current p ?_
      rw [queued_eq,keys,List.map_append,List.mem_append,not_or]
      exact ⟨hmem,hlater⟩

theorem aliases_iff (hf : m.Followed extract) :
    (applyCoalesced extract m.files m.index (coalesceEntries m.nextEntries)).HoldsAliases
        (m.takenNext extract) ↔
      (∀ a p syms, m.taken p = some syms → (syms.original a).isSome →
        ∃ q syms', m.takenNext extract q = some syms' ∧ (syms'.original a).isSome) ∧
      Agreed (m.takenNext extract) := by
  have hcases := fun a => lookup_aliases_applyCoalesced extract m.files
    (coalesceEntries m.nextEntries) m.index a
  have hnodup := nodup_keys_coalesceEntries m.nextEntries
  have hreread : ∀ entry ∈ coalesceEntries m.nextEntries, entry.2 ≠ .removed →
      m.takenNext extract entry.1 = expected extract m.files entry.1 := by
    intro entry hentry hkind
    rw [takenNext_eq,lookup_of_mem hnodup hentry]
    exact if_neg hkind
  constructor
  · intro h
    refine ⟨fun a p syms hp ho => ?_,h.agreed⟩
    obtain ⟨o,ho⟩ := Option.isSome_iff_exists.mp ho
    have hold := (hf.aliases a o).mpr ⟨p,syms,hp,ho⟩
    rcases hcases a with ⟨entry,hentry,hkind,syms',hsyms',hsome,-⟩ | ⟨-,hl⟩
    · exact ⟨entry.1,syms',(hreread entry hentry hkind).trans hsyms',hsome⟩
    · rw [hold] at hl
      obtain ⟨q,syms',hq,hoq⟩ := (h a o).mp hl
      exact ⟨q,syms',hq,Option.isSome_of_eq_some hoq⟩
  · rintro ⟨hkept,hagreed⟩
    -- what stands in the map is given by a file that was read again, or by one left alone
    have hsound : ∀ a o, lookup (applyCoalesced extract m.files m.index
        (coalesceEntries m.nextEntries)).aliases a = some o →
        ∃ p syms, m.takenNext extract p = some syms ∧ syms.original a = some o := by
      intro a o hl
      rcases hcases a with ⟨entry,hentry,hkind,syms,hsyms,-,heq⟩ | ⟨hnone,heq⟩
      · exact ⟨entry.1,syms,(hreread entry hentry hkind).trans hsyms,heq.symm.trans hl⟩
      · rw [heq] at hl
        obtain ⟨p,syms,hp,ho⟩ := (hf.aliases a o).mp hl
        obtain ⟨q,syms',hq,hsome⟩ := hkept a p syms hp (Option.isSome_of_eq_some ho)
        obtain ⟨o',ho'⟩ := Option.isSome_iff_exists.mp hsome
        have hsame : m.taken q = some syms' := by
          rw [takenNext_eq] at hq
          cases hlq : lookup (coalesceEntries m.nextEntries) q with
          | none =>
            rw [hlq] at hq
            exact hq
          | some kind =>
            rw [hlq] at hq
            dsimp only at hq
            by_cases hkind : kind = .removed
            · rw [if_pos hkind] at hq
              cases hq
            · rw [if_neg hkind] at hq
              rw [hnone (q,kind) (mem_of_lookup hlq) hkind syms' hq] at ho'
              cases ho'
        have hlq := (hf.aliases a o').mpr ⟨q,syms',hsame,ho'⟩
        rw [hl] at hlq
        exact ⟨q,syms',hq,ho'.trans hlq.symm⟩
    refine fun a o => ⟨hsound a o,?_⟩
    rintro ⟨p,syms,hp,ho⟩
    have hsome : (lookup (applyCoalesced extract m.files m.index
        (coalesceEntries m.nextEntries)).aliases a).isSome := by
      rcases hcases a with ⟨_,_,_,syms',_,hsome,heq⟩ | ⟨hnone,heq⟩
      · rw [heq]
        exact hsome
      · rw [heq]
        rw [takenNext_eq] at hp
        cases hlp : lookup (coalesceEntries m.nextEntries) p with
        | none =>
          rw [hlp] at hp
          exact Option.isSome_of_eq_some ((hf.aliases a o).mpr ⟨p,syms,hp,ho⟩)
        | some kind =>
          rw [hlp] at hp
          dsimp only at hp
          by_cases hkind : kind = .removed
          · rw [if_pos hkind] at hp
            cases hp
          · rw [if_neg hkind] at hp
            rw [hnone (p,kind) (mem_of_lookup hlp) hkind syms hp] at ho
            cases ho
    obtain ⟨o',ho'⟩ := Option.isSome_iff_exists.mp hsome
    obtain ⟨q,syms',hq,hoq⟩ := hsound a o' ho'
    rw [ho',hagreed a q p syms' syms o' o hq hp hoq ho]

theorem process_followed_iff (hs : m.Sound) (hf : m.Followed extract)
    (hst : m.process extract = some t) : t.Followed extract ↔ m.KeepsTurn extract := by
  have hq := queued_of_process hst
  have ht := process_eq hst
  have hindex : t.index = applyCoalesced extract m.files m.index (coalesceEntries m.nextEntries) := by
    rw [ht]
  have htaken : t.taken = m.takenNext extract := by rw [ht]
  have hfiles : t.files = m.files := by rw [ht]
  obtain ⟨hsound,hholds,-⟩ := applyCoalesced_holds extract m.files
    (coalesceEntries m.nextEntries) hs.index hs.holds hs.wanted
  constructor
  · rintro ⟨-,-,haliases,hcurrent⟩
    rw [hindex,htaken,aliases_iff hf] at haliases
    rw [hq,htaken,hfiles] at hcurrent
    exact ⟨(current_iff hs hf).mp hcurrent,haliases.1,haliases.2⟩
  · rintro ⟨hcancelled,hkept,hagreed⟩
    refine ⟨?_,?_,?_,?_⟩
    · rw [hindex]
      exact hsound
    · rw [hindex,htaken]
      exact hholds
    · rw [hindex,htaken,aliases_iff hf]
      exact ⟨hkept,hagreed⟩
    · rw [hq,htaken,hfiles]
      exact (current_iff hs hf).mpr hcancelled

theorem followed_iff (hs : m.Sound) (hf : m.Followed extract)
    (hst : m.step extract a = some t) (hok : m.Honest a) :
    t.Followed extract ↔ m.Keeps extract a := by
  have hquiet : (a = .send ∨ (∃ n, a = .sendBatch n) ∨ a = .query) → t.Followed extract := by
    intro ha
    obtain ⟨hq,hi,hfiles,ht⟩ := quiet_step hst ha
    refine ⟨by rw [hi]; exact hf.sound,by rw [hi,ht]; exact hf.holds,
      by rw [hi,ht]; exact hf.aliases,?_⟩
    rw [hq,hfiles,ht]
    exact hf.current
  cases a with
  | change files e =>
    cases hst
    refine ⟨fun _ => trivial,fun _ => ⟨hf.sound,hf.holds,hf.aliases,fun p hp => ?_⟩⟩
    rw [queued_of_change,keys,List.map_append,List.mem_append,not_or] at hp
    refine (hf.current p hp.1).trans ?_
    dsimp only
    rw [expected,expected]
    by_cases hwant : shouldIndex p
    · rw [if_pos hwant,if_pos hwant,processFileFast,processFileFast,lookup_of_honest hok hwant hp.2]
    · rw [if_neg hwant,if_neg hwant]
  | send => exact ⟨fun _ => trivial,fun _ => hquiet (.inl rfl)⟩
  | sendBatch n => exact ⟨fun _ => trivial,fun _ => hquiet (.inr (.inl ⟨n,rfl⟩))⟩
  | query => exact ⟨fun _ => trivial,fun _ => hquiet (.inr (.inr rfl))⟩
  | process => exact process_followed_iff hs hf hst

theorem start_followed {filePaths : List PyStr}
    (hlists : Lists extract files filePaths) (hagreed : Agreed (expected extract files)) :
    (start extract files filePaths).Sound ∧ (start extract files filePaths).Followed extract := by
  obtain ⟨hsound,hholds,haliases⟩ := buildFast_spec extract files hlists.1
  rw [hlists.listed_eq] at hholds haliases
  refine ⟨⟨hsound,hholds,fun p hp => ?_,fun p _ hlast => ?_⟩,hsound,hholds,haliases hagreed,fun p _ => rfl⟩
  · change (expected extract files p).isSome at hp
    rw [expected] at hp
    split at hp
    · assumption
    · cases hp
  · cases hlast

/-- The index follows the files throughout a run exactly when no turn of the actor folds away
the removal of a file that the index has, or spoils an alias; and then it answers as any fresh
build whenever every event has been drained. -/
theorem follows_iff {files : Files} {filePaths : List PyStr} {actions : List Action}
    (hlists : Lists extract files filePaths) (hagreed : Agreed (expected extract files))
    (h : Run (step extract) Honest (start extract files filePaths) actions t) :
    (Throughout (step extract) (Followed extract) (start extract files filePaths) actions ↔
      Run (step extract) (Keeps extract) (start extract files filePaths) actions t) ∧
    (Run (step extract) (Keeps extract) (start extract files filePaths) actions t →
      Throughout (step extract) (Converged extract) (start extract files filePaths) actions) := by
  obtain ⟨hs,hf⟩ := start_followed hlists hagreed
  have hinv : ∀ (m : Manager) a t, m.Honest a → m.step extract a = some t → m.Sound →
      m.Followed extract → t.Followed extract → t.Sound :=
    fun _ _ _ hok hst hs _ _ => hs.step hst hok
  have hstep : ∀ (m : Manager) a t, m.Honest a → m.step extract a = some t → m.Sound →
      m.Followed extract → (t.Followed extract ↔ m.Keeps extract a) :=
    fun _ _ _ hok hst hs hf => followed_iff hs hf hst hok
  have hiff := throughout_iff hinv hstep h hs hf
  exact ⟨hiff,fun hkeeps before u hbefore hrun => (hiff.mpr hkeeps before u hbefore hrun).converged⟩

/-- A file of one function, as it was and as it is after an edit above the function. -/
def functionFile (text : String) (mtimeNs : ℤ) : SourceFile :=
  ⟨some ⟨text.toByteArray.size,mtimeNs⟩,true,text.toByteArray⟩

def before : Files := [(lit "a.py",functionFile "def f(): pass\n" 1)]

def after : Files := [(lit "a.py",functionFile "\ndef f(): pass\n" 2)]

/-- What the parser finds in the two files: one function. -/
def functionExtractor : Extractor := fun _ content =>
  some ⟨[(lit "f",if content.data.toList.head? = some 10 then 1 else 0)],[],[]⟩

theorem original_of_function {syms : FileSymbols}
    (h : expected functionExtractor files p = some syms) (a : PyStr) : syms.original a = none := by
  rw [expected] at h
  split at h
  · rw [processFileFast] at h
    split at h
    · cases h
    split at h
    · cases h
    split at h
    · cases h
    split at h
    · cases h
    split at h
    · cases h
    split at h
    · cases h
    cases h
    rfl
  · cases h

/-- An edit that is reported and drained. -/
def edit : List Action := [.change after ⟨[lit "a.py"],.modified⟩,.send,.process]

theorem lists_before (extract : Extractor) : Lists extract before [lit "a.py"] := by
  refine ⟨by decide,by decide,fun p _ hp => ?_⟩
  by_contra hne
  have hnone : processFileFast extract before p = none := by
    rw [processFileFast,before,lookup_cons,if_neg fun h => hne (List.mem_singleton.mpr h.symm)]
    cases forFilePath p <;> rfl
  rw [hnone] at hp
  cases hp

theorem honest_single {path : PyStr} {kind : FileEventKind}
    (hothers : ∀ p, path ≠ p → lookup files p = lookup m.files p)
    (hgone : kind = .removed → lookup files path = none) (hkind : kind ≠ .renamed) :
    m.Honest (.change files ⟨[path],kind⟩) := by
  have hentries : FileEvent.entries ⟨[path],kind⟩ = [(path,kind)] := by
    cases kind with
    | renamed => exact absurd rfl hkind
    | created | modified | removed => rfl
  refine ⟨fun p _ hne => ?_,fun p hlast => ?_⟩
  · rw [hentries]
    by_contra hmem
    exact hne (hothers p fun h => hmem (List.mem_singleton.mpr h.symm))
  · have hsingle := lastKind_append (p := p) [] (path,kind)
    rw [List.nil_append] at hsingle
    rw [hentries,hsingle] at hlast
    split at hlast
    · next hp =>
      rw [← hp]
      exact hgone (Option.some.inj hlast)
    · cases hlast

theorem honest_edit {m : Manager} (hm : m.files = before) :
    m.Honest (.change after ⟨[lit "a.py"],.modified⟩) := by
  refine honest_single (fun p hp => ?_) (fun h => ?_) (by decide)
  · rw [hm,after,before,lookup_cons,lookup_cons,if_neg hp,if_neg hp]
  · cases h

theorem honest_removal {m : Manager} {f : SourceFile} (hm : m.files = [(lit "a.py",f)]) :
    m.Honest (.change [] ⟨[lit "a.py"],.removed⟩) := by
  refine honest_single (fun p hp => ?_) (fun _ => rfl) (by decide)
  rw [hm,lookup_cons,if_neg hp]

theorem follows_edit : Throughout (step functionExtractor) (Converged functionExtractor)
    (start functionExtractor before [lit "a.py"]) edit := by
  have hagreed : Agreed (expected functionExtractor before) := by
    intro a p q syms syms' o o' hp _ ho
    rw [original_of_function hp] at ho
    cases ho
  have hrun : Run (step functionExtractor) Honest (start functionExtractor before [lit "a.py"]) edit
      (last (step functionExtractor) (start functionExtractor before [lit "a.py"]) edit) :=
    .succ (honest_edit rfl) rfl (.succ trivial rfl (.succ trivial rfl (.refl _)))
  refine (follows_iff (lists_before _) hagreed hrun).2 (.succ trivial rfl (.succ trivial rfl
    (.succ ⟨?_,?_,?_⟩ rfl (.refl _))))
  · intro p hp hl
    rw [List.mem_singleton.mp hp] at hl
    cases hl
  · intro a p syms hp hsome
    rw [original_of_function hp] at hsome
    cases hsome
  · intro a p q syms syms' o o' hp _ ho
    rw [takenNext_eq] at hp
    split at hp
    · rw [original_of_function hp] at ho
      cases ho
    · split at hp
      · cases hp
      · rw [original_of_function hp] at ho
        cases ho

/-- The edit and a removal, drained together. -/
def editAndRemoval : List Action :=
  [.change after ⟨[lit "a.py"],.modified⟩,.change [] ⟨[lit "a.py"],.removed⟩,.sendBatch 2,.process]

def removal : List Action := [.change [] ⟨[lit "a.py"],.removed⟩,.send,.process]

/-- A file that imports a module under an alias. -/
def aliasExtractor : Extractor := fun _ _ => some ⟨[],[],[(lit "np",lit "numpy")]⟩

/-- The removal that is folded with an edit never reaches the index, and the alias of a file
that is removed alone stays. -/
theorem removal_leaves_symbols :
    (∃ t, Run (step functionExtractor) Honest (start functionExtractor before [lit "a.py"])
        editAndRemoval t ∧
      t.index.definitions.places (lit "f") = [(lit "a.py",1)] ∧ ¬ t.Converged functionExtractor) ∧
    ∃ t, Run (step aliasExtractor) Honest (start aliasExtractor before [lit "a.py"]) removal t ∧
      lookup t.index.aliases (lit "np") = some (lit "numpy") ∧ ¬ t.Converged aliasExtractor := by
  have hempty : ∀ extract, Lists extract [] [] := by
    refine fun extract => ⟨List.nodup_nil,fun _ h => absurd h List.not_mem_nil,fun p _ hp => ?_⟩
    rw [processFileFast] at hp
    cases h : forFilePath p <;> simp [h] at hp
  constructor
  · refine ⟨last (step functionExtractor) (start functionExtractor before [lit "a.py"])
      editAndRemoval,.succ (honest_edit rfl) rfl (.succ (honest_removal rfl) rfl
        (.succ trivial rfl (.succ trivial rfl (.refl _)))),by decide,fun h => ?_⟩
    have hmeta := (h rfl rfl [] (hempty _)).fileMeta (lit "a.py")
    exact absurd hmeta (by decide)
  · refine ⟨last (step aliasExtractor) (start aliasExtractor before [lit "a.py"]) removal,
      .succ (honest_removal rfl) rfl (.succ trivial rfl (.succ trivial rfl (.refl _))),
      by decide,fun h => ?_⟩
    have haliases := (h rfl rfl [] (hempty _)).aliases (lit "np")
    exact absurd haliases (by decide)

end Manager

end MinimaxCode.LiveIndex
