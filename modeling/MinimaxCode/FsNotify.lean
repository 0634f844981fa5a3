import MinimaxCode.JsonText
import MinimaxCode.OrderedDict
import MinimaxCode.SequencedLog

/-!
# Foreign-change notes

The write tools publish file events on a bus that keeps the last of them. A run polls the
bus once in each iteration and is told which files other runs changed. A poll looks at the
64 newest events only and moves the watermark past all of them, so a path that no foreign
event among these touches is never told.
-/

namespace MinimaxCode.FsNotify

open PyText PyJson OrderedDict SequencedLog

inductive FsEventKind
  | created | modified | removed | renamed
  deriving DecidableEq

def FsEventKind.value : FsEventKind → PyStr
  | .created => lit "created"
  | .modified => lit "modified"
  | .removed => lit "removed"
  | .renamed => lit "renamed"

/-- `FsEventKind(kind)`, which raises on any other text. -/
def FsEventKind.ofValue (kind : PyStr) : Option FsEventKind :=
  [.created,.modified,.removed,.renamed].find? fun k => k.value = kind

/-- An event without its number. -/
structure FsEvent where
  kind : FsEventKind
  paths : List PyStr
  cause : PyStr
  sessionId : Option PyStr
  toolCallId : Option PyStr
  attributes : List (PyStr × PyStr)

def FsEvent.attribute (e : FsEvent) (key : PyStr) : Option PyStr := e.attributes.lookup key

/-- The arguments of `emit`. -/
structure EmitCall where
  kind : PyStr
  paths : List PyStr
  cause : PyStr
  sessionId : Option PyStr
  toolCallId : Option PyStr
  attributes : List (PyStr × PyStr)

/-- The order of pairs of texts. -/
def pairLe (a b : PyStr × PyStr) : Bool := if a.1 = b.1 then strLe a.2 b.2 else strLe a.1 b.1

/-- The event of a call, unless its kind is unknown. -/
def EmitCall.event (c : EmitCall) : Option FsEvent :=
  (FsEventKind.ofValue c.kind).map fun kind =>
    ⟨kind,c.paths,c.cause,c.sessionId,c.toolCallId,c.attributes.mergeSort pairLe⟩

structure FsEventBus where
  capacity : ℕ
  positive : 0 < capacity
  recent : List (Entry FsEvent)
  nextSeq : ℕ

def FsEventBus.new (capacity : ℕ) (positive : 0 < capacity) : FsEventBus := ⟨capacity,positive,[],1⟩

def FsEventBus.emit (bus : FsEventBus) (c : EmitCall) : FsEventBus :=
  match c.event with
  | none => bus
  | some e =>
    { bus with
      recent := pushRing bus.capacity bus.recent ⟨bus.nextSeq,e⟩
      nextSeq := bus.nextSeq+1 }

/-- `recent`: the newest events that pass the filters, oldest first. -/
def FsEventBus.recentEvents (bus : FsEventBus) (limit : ℤ) (kind cause sessionId : Option PyStr) :
    List (Entry FsEvent) :=
  match kind.map FsEventKind.ofValue with
  | some none => []
  | wantKind =>
    let out := bus.recent.filter fun e =>
      wantKind.join.all (e.payload.kind = ·) && cause.all (e.payload.cause = ·) &&
        sessionId.all fun s => e.payload.sessionId = some s
    if 0 < limit then ring limit.toNat out else out

@[simp] theorem recentEvents_none (bus : FsEventBus) :
    bus.recentEvents 64 none none none = ring 64 bus.recent := by
  simp [FsEventBus.recentEvents]

def maxListed : ℕ := 8

def sandboxMarker : PyStr := lit ".minimax/sandboxes/"

/-- What follows the first occurrence of a marker. -/
def restAfter (marker : PyStr) : PyStr → Option PyStr
  | [] => if marker = [] then some [] else none
  | c::cs => if marker <+: c::cs then some ((c::cs).drop marker.length) else restAfter marker cs

def displayPath (path : PyStr) : PyStr :=
  match restAfter sandboxMarker (path.map fun c => if c = ch '\\' then ch '/' else c) with
  | none => path
  | some rest =>
    let runId := rest.takeWhile (· ≠ ch '/')
    let rel := (rest.dropWhile (· ≠ ch '/')).drop 1
    if runId = [] ∨ rel = [] then path else rel++lit " (sandboxed by "++runId++lit ")"

/-- A path with the kind and the cause of its latest event. -/
abbrev Change := PyStr × (PyStr × PyStr)

/-- A note, by the changes in the order in which they are listed. -/
structure Note where
  listed : List Change

/-- The changes that have a line of their own. -/
def Note.shown (note : Note) : List Change := note.listed.take maxListed

/-- The changes that are only counted. -/
def Note.more (note : Note) : List Change := note.listed.drop maxListed

def Note.line (c : Change) : PyStr :=
  lit "- "++displayPath c.1++lit " ("++c.2.1++lit " via "++c.2.2++lit ")"

/-- The text the model is given. -/
def Note.text (note : Note) : PyStr :=
  let lines := note.shown.map Note.line++
    if note.more = [] then [] else [lit "- … and "++natText note.more.length++lit " more file(s)"]
  lit "[system note] Files changed by other agents while you work:\n"++
    (lines.intersperse [ch '\n']).flatten++
    lit "\nThis note is informational: do not acknowledge it in your reply — if a listed path affects your task, re-read it before editing, and prefer expected_sha256 when writing."

/-- An event of another run. -/
def foreign (self : Option PyStr) (e : FsEvent) : Bool := e.attribute (lit "run_id") ≠ self

/-- The events a poll turns into a note. -/
def fresh (self : Option PyStr) (watermark : ℕ) (events : List (Entry FsEvent)) :
    List (Entry FsEvent) :=
  (after watermark events).filter fun e => foreign self e.payload

def FsEvent.changes (e : FsEvent) : List Change := e.paths.map fun p => (p,(e.kind.value,e.cause))

/-- `foreign_change_note`. The paths of `latest` are distinct, so they alone order it. -/
def foreignChangeNote (events : List (Entry FsEvent)) (self : Option PyStr) (watermark : ℕ) :
    Option Note × ℕ :=
  let newWatermark := maxSeq watermark (after watermark events)
  let latest := ofItems ((fresh self watermark events).flatMap fun e => e.payload.changes)
  if latest = [] then (none,newWatermark)
  else (some ⟨latest.mergeSort fun c c' => strLe c.1 c'.1⟩,newWatermark)

def drainForeignChanges (bus : Option FsEventBus) (self : Option PyStr) (watermark : Option ℕ) :
    Option Note × Option ℕ :=
  match bus,watermark with
  | none,_ => (none,watermark)
  | some bus,none => (none,some (maxSeq 0 (bus.recentEvents 64 none none none)))
  | some bus,some w =>
    let result := foreignChangeNote (bus.recentEvents 64 none none none) self w
    (result.1,some result.2)

/-- What happens to the bus: someone publishes, or the run polls. -/
inductive Action
  | emit (c : EmitCall)
  | poll

/-- The bus, and the watermark of the run. -/
structure World where
  bus : FsEventBus
  watermark : Option ℕ

/-- The note of a poll. -/
def World.note (self : Option PyStr) (w : World) : Option Note :=
  (drainForeignChanges (some w.bus) self w.watermark).1

/-- The events a poll turns into a note. -/
def World.contributes (self : Option PyStr) (w : World) : List (Entry FsEvent) :=
  match w.watermark with
  | none => []
  | some watermark => fresh self watermark (w.bus.recentEvents 64 none none none)

def step (self : Option PyStr) (w : World) : Action → World
  | .emit c => { w with bus := w.bus.emit c }
  | .poll => { w with watermark := (drainForeignChanges (some w.bus) self w.watermark).2 }

/-- All events of a schedule, with their numbers. -/
def publish (log : List (Entry FsEvent)) : Action → List (Entry FsEvent)
  | .emit c =>
    match c.event with
    | none => log
    | some e => log++[⟨log.length+1,e⟩]
  | .poll => log

def published (schedule : List Action) : List (Entry FsEvent) := schedule.foldl publish []

section Schedules

variable {capacity : ℕ} (positive : 0 < capacity) (self : Option PyStr)

/-- The world after a schedule. -/
def run (schedule : List Action) : World :=
  schedule.foldl (step self) ⟨.new capacity positive,none⟩

/-- The schedule polls after `before` and next after `between`. -/
def Consecutive (schedule before between : List Action) : Prop :=
  (∃ rest, schedule = before++.poll::(between++.poll::rest)) ∧ .poll ∉ between

/-- The kind and the cause of the latest foreign event that touches a path. -/
def latestChange (log : List (Entry FsEvent)) (p : PyStr) : Option (PyStr × PyStr) :=
  ((log.filter fun e => foreign self e.payload && p ∈ e.payload.paths).getLast?).map
    fun e => (e.payload.kind.value,e.payload.cause)

/-- Every path of a foreign event that was published after a poll and is still on the bus
at the next one is listed in its note, or counted there, with its latest change. -/
def Complete (schedule : List Action) : Prop :=
  ∀ before between, Consecutive schedule before between →
    let now := run positive self (before++.poll::between)
    ∀ e ∈ after (published before).length now.bus.recent, foreign self e.payload →
      ∀ p ∈ e.payload.paths, ∃ note change, now.note self = some note ∧
        latestChange self (published (before++.poll::between)) p = some change ∧
        ((p,change) ∈ note.shown ∨ (p,change) ∈ note.more)

/-- No event contributes to the notes of two polls. -/
def Once (schedule : List Action) : Prop :=
  ∀ first second rest, schedule = first++.poll::(second++.poll::rest) →
    ∀ e ∈ (run positive self first).contributes self,
      e ∉ (run positive self (first++.poll::second)).contributes self

/-- Between two polls each path of a foreign event that stays on the bus is touched by a
foreign event among the 64 newest. -/
def Covered (capacity : ℕ) (schedule : List Action) : Prop :=
  ∀ before between, Consecutive schedule before between →
    let kept := ring capacity (published (before++.poll::between))
    ∀ e ∈ after (published before).length kept, foreign self e.payload → ∀ p ∈ e.payload.paths,
      ∃ e' ∈ after (published before).length (ring 64 kept),
        foreign self e'.payload ∧ p ∈ e'.payload.paths

end Schedules

/-- The bus holds the end of the log, and the watermark lies within it. -/
structure Agrees (capacity : ℕ) (w : World) (log : List (Entry FsEvent)) : Prop where
  sameCapacity : w.bus.capacity = capacity
  recent : w.bus.recent = ring capacity log
  nextSeq : w.bus.nextSeq = log.length+1
  numbered : Numbered log
  watermark : ∀ m, w.watermark = some m → m ≤ log.length

variable {capacity : ℕ} {positive : 0 < capacity} {self : Option PyStr} {w : World}
  {log : List (Entry FsEvent)} {schedule before between : List Action}

theorem published_append (as bs : List Action) :
    published (as++bs) = bs.foldl publish (published as) := List.foldl_append

theorem run_append (as bs : List Action) :
    run positive self (as++bs) = bs.foldl (step self) (run positive self as) := List.foldl_append

theorem recentEvents_eq (h : Agrees capacity w log) :
    w.bus.recentEvents 64 none none none = log.drop (log.length-min 64 capacity) := by
  rw [recentEvents_none,h.recent,ring_ring,ring]

theorem watermark_poll (hpositive : 0 < capacity) (h : Agrees capacity w log) :
    (step self w .poll).watermark = some log.length := by
  have hreach : log.length-min 64 capacity < log.length ∨ log = [] := by
    cases log with
    | nil => exact .inr rfl
    | cons e log =>
      rw [List.length_cons]
      omega
  cases hw : w.watermark with
  | none =>
    have hall : after 0 (log.drop (log.length-min 64 capacity)) =
        log.drop (log.length-min 64 capacity) := by
      rw [after_drop h.numbered,Nat.zero_max]
    have hmax := maxSeq_after h.numbered (Nat.zero_le _) hreach
    rw [hall] at hmax
    simp only [step,drainForeignChanges,hw,recentEvents_eq h,hmax]
  | some m =>
    have hmax := maxSeq_after h.numbered (h.watermark m hw) hreach
    simp only [step,drainForeignChanges,hw,recentEvents_eq h,foreignChangeNote]
    split <;> rw [hmax]

theorem Agrees.step (hpositive : 0 < capacity) (h : Agrees capacity w log) (a : Action) :
    Agrees capacity (step self w a) (publish log a) := by
  cases a with
  | poll =>
    refine ⟨h.sameCapacity,h.recent,h.nextSeq,h.numbered,fun m hm => ?_⟩
    rw [watermark_poll hpositive h] at hm
    exact (Option.some.inj hm).ge
  | emit c =>
    cases hevent : c.event with
    | none => simpa [FsNotify.step,FsEventBus.emit,publish,hevent] using h
    | some e =>
      simp only [FsNotify.step,FsEventBus.emit,publish,hevent]
      refine ⟨h.sameCapacity,?_,?_,h.numbered.append e,fun m hm => ?_⟩
      · dsimp only
        rw [ring_append,h.sameCapacity,h.recent,h.nextSeq]
      · simp [h.nextSeq]
      · have hle := h.watermark m hm
        simp only [List.length_append]
        omega

theorem run_agrees (positive : 0 < capacity) (self : Option PyStr) (schedule : List Action) :
    Agrees capacity (run positive self schedule) (published schedule) := by
  induction schedule using List.reverseRecOn with
  | nil => exact ⟨rfl,by simp [run,FsEventBus.new,published,ring],rfl,numbered_nil,by simp [run]⟩
  | append_singleton schedule a ih =>
    rw [run_append,published_append]
    exact ih.step positive a

theorem watermark_between (w : World) (h : .poll ∉ between) :
    (between.foldl (step self) w).watermark = w.watermark := by
  induction between generalizing w with
  | nil => rfl
  | cons a between ih =>
    rw [List.mem_cons,not_or] at h
    rw [List.foldl_cons,ih _ h.2]
    cases a with
    | emit c => rfl
    | poll => exact absurd rfl h.1

theorem watermark_consecutive (h : Consecutive schedule before between) :
    (run positive self (before++.poll::between)).watermark = some (published before).length := by
  rw [run_append,List.foldl_cons,watermark_between _ h.2]
  exact watermark_poll positive (run_agrees positive self before)

theorem changes_lookup (e : FsEvent) (p : PyStr) :
    ((e.changes.filter fun c => c.1 = p).getLast?).map Prod.snd =
      if p ∈ e.paths then some (e.kind.value,e.cause) else none := by
  rw [FsEvent.changes,List.filter_map,List.getLast?_map,Option.map_map]
  by_cases hp : p ∈ e.paths
  · have hmem : p ∈ e.paths.filter ((fun c : Change => decide (c.1 = p)) ∘
        fun p => (p,(e.kind.value,e.cause))) := by simp [hp]
    rw [List.getLast?_eq_some_getLast (List.ne_nil_of_mem hmem),if_pos hp]
    rfl
  · have hempty : e.paths.filter ((fun c : Change => decide (c.1 = p)) ∘
        fun p => (p,(e.kind.value,e.cause))) = [] := by
      rw [List.filter_eq_nil_iff]
      intro p' hp' heq
      exact hp (of_decide_eq_true heq ▸ hp')
    rw [hempty,if_neg hp]
    rfl

theorem latest_changes (self : Option PyStr) (events : List (Entry FsEvent)) (p : PyStr) :
    lookup (ofItems ((events.filter fun e => foreign self e.payload).flatMap
      fun e => e.payload.changes)) p = latestChange self events p := by
  rw [lookup_ofItems]
  induction events using List.reverseRecOn with
  | nil => rfl
  | append_singleton events e ih =>
    rw [latestChange] at ih ⊢
    rw [List.filter_append,List.flatMap_append,List.filter_append,List.filter_append,
      List.getLast?_append,List.getLast?_append,Option.map_or,Option.map_or,ih]
    congr 1
    by_cases hforeign : foreign self e.payload
    · have hown := changes_lookup e.payload p
      by_cases hp : p ∈ e.payload.paths <;> simpa [hforeign,hp] using hown
    · simp [hforeign]

theorem latestChange_drop {k : ℕ} {p : PyStr} {e : Entry FsEvent} (he : e ∈ log.drop k)
    (hforeign : foreign self e.payload) (hp : p ∈ e.payload.paths) :
    latestChange self (log.drop k) p = latestChange self log p := by
  have hmem : e ∈ (log.drop k).filter fun e => foreign self e.payload && p ∈ e.payload.paths := by
    simp [he,hforeign,hp]
  conv_rhs => rw [latestChange,← List.take_append_drop k log,List.filter_append]
  rw [List.getLast?_append_of_ne_nil _ (List.ne_nil_of_mem hmem)]
  rfl

/-- The changes a poll assigns to the paths. -/
def latest (self : Option PyStr) (watermark : ℕ) (events : List (Entry FsEvent)) : List Change :=
  ofItems ((fresh self watermark events).flatMap fun e => e.payload.changes)

theorem note_accounts (self : Option PyStr) (events : List (Entry FsEvent)) (m : ℕ) (c : Change) :
    (∃ note, (foreignChangeNote events self m).1 = some note ∧ (c ∈ note.shown ∨ c ∈ note.more)) ↔
      c ∈ latest self m events := by
  have hparts : ∀ note : Note, c ∈ note.shown ∨ c ∈ note.more ↔ c ∈ note.listed := by
    intro note
    rw [Note.shown,Note.more,← List.mem_append,List.take_append_drop]
  have hnote : (foreignChangeNote events self m).1 =
      if latest self m events = [] then none
      else some ⟨(latest self m events).mergeSort fun c c' => strLe c.1 c'.1⟩ := by
    rw [foreignChangeNote,latest]
    split <;> rfl
  simp only [hnote,hparts]
  by_cases hempty : latest self m events = []
  · simp [hempty]
  · simp [hempty]

theorem accounted_iff (h : Agrees capacity w log) {m : ℕ} (hm : w.watermark = some m) (p : PyStr) :
    (∃ note change, w.note self = some note ∧ latestChange self log p = some change ∧
        ((p,change) ∈ note.shown ∨ (p,change) ∈ note.more)) ↔
      ∃ e ∈ after m (ring 64 w.bus.recent), foreign self e.payload ∧ p ∈ e.payload.paths := by
  have hwindow : after m (ring 64 w.bus.recent) =
      log.drop (max m (log.length-min 64 capacity)) := by
    rw [← recentEvents_none,recentEvents_eq h,after_drop h.numbered]
  have hnote : w.note self = (foreignChangeNote (ring 64 w.bus.recent) self m).1 := by
    rw [World.note,hm,drainForeignChanges,recentEvents_none]
  have haccounts := note_accounts self (ring 64 w.bus.recent) m
  rw [← hnote] at haccounts
  constructor
  · rintro ⟨note,change,hsome,_,hlisted⟩
    have hitem := mem_of_mem_ofItems ((haccounts _).mp ⟨note,hsome,hlisted⟩)
    obtain ⟨e,he,hchange⟩ := List.mem_flatMap.mp hitem
    obtain ⟨he,hforeign⟩ := List.mem_filter.mp he
    obtain ⟨p',hp',heq⟩ := List.mem_map.mp hchange
    cases heq
    exact ⟨e,he,hforeign,hp'⟩
  · rintro ⟨e,he,hforeign,hp⟩
    have hlookup := latest_changes self (after m (ring 64 w.bus.recent)) p
    rw [hwindow] at he
    have hsame := latestChange_drop he hforeign hp
    have hmem : e ∈ log.filter fun e => foreign self e.payload && p ∈ e.payload.paths := by
      simp [List.mem_of_mem_drop he,hforeign,hp]
    obtain ⟨change,hchange⟩ : ∃ change, latestChange self log p = some change := by
      rw [latestChange,List.getLast?_eq_some_getLast (List.ne_nil_of_mem hmem)]
      exact ⟨_,rfl⟩
    have hlatest : (p,change) ∈ latest self m (ring 64 w.bus.recent) := by
      apply mem_of_lookup
      rw [latest,fresh,hlookup,hwindow,hsame,hchange]
    obtain ⟨note,hsome,hlisted⟩ := (haccounts _).mpr hlatest
    exact ⟨note,change,hsome,hchange,hlisted⟩

theorem complete_iff (schedule : List Action) :
    Complete positive self schedule ↔ Covered self capacity schedule := by
  have hpoll : ∀ before between, Consecutive schedule before between → ∀ p,
      (∃ note change, (run positive self (before++.poll::between)).note self = some note ∧
          latestChange self (published (before++.poll::between)) p = some change ∧
          ((p,change) ∈ note.shown ∨ (p,change) ∈ note.more)) ↔
        ∃ e ∈ after (published before).length
            (ring 64 (ring capacity (published (before++.poll::between)))),
          foreign self e.payload ∧ p ∈ e.payload.paths := by
    intro before between hcons p
    have hagrees := run_agrees positive self (before++.poll::between)
    rw [accounted_iff hagrees (watermark_consecutive hcons),hagrees.recent]
  constructor
  · intro h before between hcons kept e he hforeign p hp
    refine (hpoll before between hcons p).mp (h before between hcons e ?_ hforeign p hp)
    rwa [(run_agrees positive self _).recent]
  · intro h before between hcons now e he hforeign p hp
    refine (hpoll before between hcons p).mpr (h before between hcons e ?_ hforeign p hp)
    rwa [← (run_agrees positive self _).recent]

theorem watermark_mono (self : Option PyStr) {m : ℕ} {w : World} (hm : w.watermark = some m)
    (schedule : List Action) :
    ∃ m', (schedule.foldl (step self) w).watermark = some m' ∧ m ≤ m' := by
  induction schedule generalizing w m with
  | nil => exact ⟨m,hm,Nat.le_refl m⟩
  | cons a schedule ih =>
    cases a with
    | emit c => exact ih hm
    | poll =>
      have hnext : (step self w .poll).watermark =
          some (maxSeq m (after m (w.bus.recentEvents 64 none none none))) := by
        simp only [step,hm,drainForeignChanges,foreignChangeNote]
        split <;> rfl
      obtain ⟨m',hm',hle⟩ := ih hnext
      exact ⟨m',hm',(start_le_maxSeq m _).trans hle⟩

theorem once (schedule : List Action) : Once positive self schedule := by
  intro first second rest _ e he he'
  have hagrees := run_agrees positive self first
  have hfirst : e.seq ≤ (published first).length := by
    rw [World.contributes] at he
    split at he
    · cases he
    · have hmem := List.mem_of_mem_filter (List.mem_of_mem_filter he)
      rw [recentEvents_eq hagrees] at hmem
      exact seq_le_of_mem hagrees.numbered (List.mem_of_mem_drop hmem)
  obtain ⟨m,hm,hle⟩ := watermark_mono self (watermark_poll positive hagrees) second
  have hsecond : m < e.seq := by
    have hrun : (run positive self (first++.poll::second)).watermark = some m := by
      rw [run_append,List.foldl_cons,hm]
    rw [World.contributes,hrun] at he'
    simpa using (List.mem_filter.mp (List.mem_of_mem_filter he')).2
  omega

/-- The notes of a run are complete, and no event is told twice, exactly when no poll
leaves behind a path that only older events than the 64 newest touch. -/
theorem notes_exact_iff (schedule : List Action) :
    Complete positive self schedule ∧ Once positive self schedule ↔
      Covered self capacity schedule := by
  rw [complete_iff]
  exact and_iff_left (once schedule)

theorem published_length_le (log : List (Entry FsEvent)) (schedule : List Action) :
    (schedule.foldl publish log).length ≤ log.length+schedule.length := by
  induction schedule generalizing log with
  | nil => exact Nat.le_refl _
  | cons a schedule ih =>
    have hone : (publish log a).length ≤ log.length+1 := by
      cases a with
      | poll => exact Nat.le_succ _
      | emit c =>
        rw [publish]
        split <;> simp
    have hrest := ih (publish log a)
    rw [List.foldl_cons,List.length_cons]
    omega

theorem covered_of_often (h : ∀ before between, Consecutive schedule before between →
    between.length ≤ 64) : Covered self capacity schedule := by
  intro before between hcons kept e he hforeign p hp
  have hnumbered : Numbered (published (before++.poll::between)) :=
    (run_agrees Nat.one_pos self _).numbered
  have hlength : (published (before++.poll::between)).length ≤ (published before).length+64 := by
    have hle := published_length_le (published before) between
    have hfew := h before between hcons
    rw [published_append,List.foldl_cons]
    exact hle.trans (by omega)
  refine ⟨e,?_,hforeign,hp⟩
  simp only [kept,ring_ring] at he ⊢
  rw [ring,after_drop hnumbered] at he ⊢
  have hsame : max (published before).length
      ((published (before++.poll::between)).length-min 64 capacity) =
      max (published before).length ((published (before++.poll::between)).length-capacity) := by
    omega
  rwa [hsame]

/-- The main agent edits a file of its own. -/
def ownEdit : EmitCall := ⟨lit "modified",[lit "b"],lit "edit_file",none,none,[]⟩

/-- Another run writes a file. -/
def foreignWrite : EmitCall :=
  ⟨lit "modified",[lit "a"],lit "write_file",none,none,[(lit "run_id",lit "r")]⟩

def ownEvent : FsEvent := ⟨.modified,[lit "b"],lit "edit_file",none,none,[]⟩

def foreignEvent : FsEvent :=
  ⟨.modified,[lit "a"],lit "write_file",none,none,[(lit "run_id",lit "r")]⟩

theorem ownEdit_event : ownEdit.event = some ownEvent := by
  simp [EmitCall.event,ownEdit,ownEvent,show FsEventKind.ofValue (lit "modified") = some .modified by decide]

theorem foreignWrite_event : foreignWrite.event = some foreignEvent := by
  simp [EmitCall.event,foreignWrite,foreignEvent,
    show FsEventKind.ofValue (lit "modified") = some .modified by decide]

/-- A foreign write between two polls. -/
def singleWrite : List Action := [.poll,.emit foreignWrite,.poll]

/-- One write between two polls is told at the second one. -/
theorem notes_exact_singleWrite : Complete (by decide : 0 < 500) none singleWrite ∧
    Once (by decide : 0 < 500) none singleWrite := by
  have hfew : ∀ before between, Consecutive singleWrite before between → between.length ≤ 64 := by
    rintro before between ⟨⟨rest,hschedule⟩,_⟩
    have hlength := congrArg List.length hschedule
    simp only [singleWrite,List.length_append,List.length_cons,List.length_nil] at hlength
    omega
  exact (notes_exact_iff singleWrite).mpr (covered_of_often hfew)

theorem published_ownEdits (log : List (Entry FsEvent)) (n : ℕ) :
    ∃ rest, (List.replicate n (.emit ownEdit)).foldl publish log = log++rest ∧ rest.length = n ∧
      ∀ e ∈ rest, e.payload = ownEvent := by
  induction n generalizing log with
  | zero => exact ⟨[],by simp⟩
  | succ n ih =>
    obtain ⟨rest,hlog,hlength,hown⟩ := ih (log++[⟨log.length+1,ownEvent⟩])
    refine ⟨⟨log.length+1,ownEvent⟩::rest,?_,by simp [hlength],?_⟩
    · rw [List.replicate_succ,List.foldl_cons,publish,ownEdit_event]
      simp [hlog]
    · intro e he
      cases List.mem_cons.mp he with
      | inl hfirst => rw [hfirst]
      | inr he => exact hown e he

/-- A foreign write and 64 own edits between two polls. -/
def burst : List Action := .poll::((.emit foreignWrite::List.replicate 64 (.emit ownEdit))++[.poll])

/-- The foreign write is still on the bus and is never told. -/
theorem burst_not_exact : ¬ (Complete (by decide : 0 < 500) none burst ∧
    Once (by decide : 0 < 500) none burst) := by
  rintro ⟨hcomplete,-⟩
  have hcovered := (complete_iff burst).mp hcomplete
  obtain ⟨rest,hlog,hlength,hown⟩ := published_ownEdits [⟨1,foreignEvent⟩] 64
  have hpublished : published ([]++.poll::(.emit foreignWrite::List.replicate 64 (.emit ownEdit))) =
      ⟨1,foreignEvent⟩::rest := by
    rw [List.nil_append,published,List.foldl_cons,List.foldl_cons,publish,publish,foreignWrite_event]
    exact hlog
  have hconsecutive : Consecutive burst [] (.emit foreignWrite::List.replicate 64 (.emit ownEdit)) :=
    ⟨⟨[],rfl⟩,by simp⟩
  have hcover := hcovered _ _ hconsecutive ⟨1,foreignEvent⟩
  rw [hpublished] at hcover
  obtain ⟨e,he,_,hp⟩ := hcover (by simp [after,ring,hlength,published]) (by decide) (lit "a") (by decide)
  have hrest : e ∈ rest := by
    have hmem := List.mem_of_mem_filter he
    simpa [ring,hlength] using hmem
  rw [hown e hrest] at hp
  revert hp
  decide

end MinimaxCode.FsNotify
