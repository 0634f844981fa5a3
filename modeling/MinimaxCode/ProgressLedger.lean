import MinimaxCode.JsonText
import MinimaxCode.SplitLines
import MinimaxCode.TextMode
import Mathlib.Data.Fintype.Basic

/-!
# The progress ledger

`report_progress` appends one JSON line to the run's `PROGRESS.jsonl`, and `read_progress`
reads the lines back. The writer leaves the characters U+0085, U+2028 and U+2029 of a note
as they are, and the reader's `splitlines` ends a line at each of them.
-/

namespace MinimaxCode.ProgressLedger

open PyText PyJson SplitLines TextMode

/-- The time of a call, to the second. -/
structure Instant where
  year : ℕ
  month : ℕ
  day : ℕ
  hour : ℕ
  minute : ℕ
  second : ℕ

def pad (width n : ℕ) : PyStr :=
  List.replicate (width-(natText n).length) (ch '0')++natText n

/-- `datetime.now(UTC).isoformat(timespec="seconds")`. -/
def Instant.isoformat (t : Instant) : PyStr :=
  pad 4 t.year++ch '-'::pad 2 t.month++ch '-'::pad 2 t.day++ch 'T'::pad 2 t.hour++
    ch ':'::pad 2 t.minute++ch ':'::pad 2 t.second++lit "+00:00"

/-- A clamped percent. -/
def Percent : Type := {n : ℤ // 0 ≤ n ∧ n ≤ 100}

/-- `max(0, min(100, n))`. -/
def clamp (n : ℤ) : Percent := ⟨max 0 (min 100 n),by omega⟩

structure Entry where
  runId : PyStr
  note : PyStr
  percent : Option Percent
  writtenAt : Instant

/-- The dictionary of an entry. -/
def Entry.fields (e : Entry) : List (PyStr × Json) :=
  [(lit "run_id",.str e.runId),(lit "note",.str e.note)]++
    (e.percent.map fun n => (lit "percent",Json.int n.val)).toList++
    [(lit "written_at",.str e.writtenAt.isoformat)]

/-- The limits of the interpreter `json.loads` can run into: the digits of an integer, a
`ValueError`, and the depth of the recursion, a `RecursionError`. -/
inductive Limit
  | digits
  | depth

/-- What the tool takes from the interpreter. An entry is an object of strings and of a
number up to 100, so reading one runs into no limit. -/
structure Python where
  ft : FloatText
  intOfStr : PyStr → Option ℤ
  limit : PyStr → Option Limit
  limit_entry : ∀ e : Entry, limit (dumps ft false (.obj e.fields)) = none

/-- What `int(percent)` does: it refuses with a `TypeError` or a `ValueError`, and an
infinite float is an `OverflowError`. -/
inductive IntOutcome
  | value (n : ℤ)
  | refused
  | overflows

inductive Fault
  | unicodeEncodeError
  | overflowError
  | recursionError

/-- What `report_progress` returns. -/
inductive Outcome
  | ok (entry : Entry) (entriesTotal : ℕ)
  | skipped (entry : Entry)
  | fail (message : PyStr)
  | raises (fault : Fault)

/-- The arguments of a call, its time, and the `OSError` writing meets. -/
structure Call where
  note : Json
  percent : Json
  now : Instant
  osError : Option PyStr

section Tool

variable (py : Python)

/-- `int(percent)`. -/
def toInt : Json → IntOutcome
  | .bool b => .value (if b then 1 else 0)
  | .int n => .value n
  | .float .nan => .refused
  | .float (.inf _) => .overflows
  | .float (.finite bits) => .value bits.truncate
  | .str s => match py.intOfStr s with
    | some n => .value n
    | none => .refused
  | _ => .refused

/-- The clamped percent of a call that gives one. -/
def clampPercent (percent : Json) : Except Outcome (Option Percent) :=
  if percent.isNull then .ok none
  else match toInt py percent with
    | .value n => .ok (some (clamp n))
    | .refused => .error (.fail (lit "'percent' must be an integer between 0 and 100"))
    | .overflows => .error (.raises .overflowError)

/-- The entry of a call, or the answer to a call with a bad argument. -/
def entryOf (runId : PyStr) (c : Call) : Except Outcome Entry :=
  match c.note with
  | .str note =>
    if isBlank note then .error (.fail (lit "'note' must be a non-empty string"))
    else (clampPercent py c.percent).map fun percent => ⟨runId,strip note,percent,c.now⟩
  | _ => .error (.fail (lit "'note' must be a non-empty string"))

/-- `json.dumps(entry, ensure_ascii=False)`. -/
def entryText (e : Entry) : PyStr := dumps py.ft false (.obj e.fields)

/-- What one line adds to the entries; nothing where `json.loads` raises what is not a
`ValueError`. -/
def readLine (line : PyStr) : Option (List (List (PyStr × Json))) :=
  let stripped := strip line
  if stripped = [] then some []
  else match py.limit stripped with
    | some .depth => none
    | some .digits => some []
    | none => match loads py.ft stripped with
      | some (.obj fields) => some [fields]
      | _ => some []

def readLines : List PyStr → Option (List (List (PyStr × Json)))
  | [] => some []
  | line::lines => (readLine py line).bind fun es => (readLines lines).map (es++·)

/-- `entries[-n:]`. -/
def tail {α : Type*} (n : ℤ) (xs : List α) : List α :=
  xs.drop (if 0 < n then xs.length-n.toNat else (-n).toNat)

/-- The entries a reader asks for. -/
def limited {α : Type*} (limit : Option ℤ) (entries : List α) : List α :=
  match limit with
  | none => entries
  | some n => tail n entries

/-- `read_progress`; nothing where it raises. `root` tells whether there is a workspace
root, without which a run has no directory. -/
def readProgress (root : Bool) (ledger : Option PyStr) (limit : Option ℤ) :
    Option (List (List (PyStr × Json))) :=
  if !root then some []
  else match ledger with
    | none => some []
    | some text => (readLines py (splitlines (TextMode.translate text))).map (limited limit)

/-- What the envelope of a run says about its ledger. -/
structure Summary where
  total : ℕ
  recent : List (Json × Option Json)
  latestPercent : Json

/-- The note and the percent of an entry in a summary. -/
def recentItem (fields : List (PyStr × Json)) : Json × Option Json :=
  ((get fields (lit "note")).getD .null,(get fields (lit "percent")).filter fun v => !v.isNull)

def progressSummary (root : Bool) (ledger : Option PyStr) (recent : ℤ) :
    Option (Option Summary) :=
  (readProgress py root ledger none).map fun entries => entries.getLast?.map fun latest =>
    { total := entries.length
      recent := (tail recent entries).map recentItem
      latestPercent := (get latest (lit "percent")).getD .null }

/-- `ReportProgressTool.run`, and the ledger behind it. -/
def run (root : Bool) (runId : PyStr) (ledger : Option PyStr) (c : Call) :
    Outcome × Option PyStr :=
  match entryOf py runId c with
  | .error answer => (answer,ledger)
  | .ok entry =>
    if !root then (.skipped entry,ledger)
    else match c.osError with
      | some message => (.fail (lit "progress write failed: "++message),ledger)
      | none =>
        -- The file is there once it is open, also when the text has no encoding.
        let opened := ledger.getD []
        if encodes (entryText py entry) then
          let written := some (opened++entryText py entry++[ch '\n'])
          match readProgress py root written none with
          | some entries => (.ok entry entries.length,written)
          | none => (.raises .recursionError,written)
        else (.raises .unicodeEncodeError,some opened)

end Tool

/-- The lines end, and none of them is read as an entry. -/
def Corrupt (py : Python) (text : PyStr) : Prop :=
  [ch '\n'] <:+ text ∧ ∀ line ∈ splitlines text, ∀ entries ∈ readLine py line, entries = []

/-- What happens to the ledger of a run: the tool is called, or something else leaves lines
in it. -/
inductive Event (py : Python)
  | call (c : Call)
  | corrupt (text : PyStr) (h : Corrupt py text)

/-- The entry of a call that answers with success and did not skip the ledger. -/
def Outcome.recorded : Outcome → Option Entry
  | .ok entry _ => some entry
  | _ => none

section Run

variable (py : Python) (root : Bool) (runId : PyStr)

/-- What the calls of a run answer, and the ledger they leave. -/
def runEvents : Option PyStr → List (Event py) → List Outcome × Option PyStr
  | ledger, [] => ([],ledger)
  | ledger, .call c::evs =>
    let (outcome,ledger) := run py root runId ledger c
    let (outcomes,ledger) := runEvents ledger evs
    (outcome::outcomes,ledger)
  | ledger, .corrupt text _::evs => runEvents (some (ledger.getD []++text)) evs

/-- The summary of a list of entries. -/
def summaryOf (recent : ℤ) (entries : List Entry) : Option Summary :=
  entries.getLast?.map fun latest =>
    { total := entries.length
      recent := (tail recent entries).map fun e =>
        (.str e.note,e.percent.map fun n => .int n.val)
      latestPercent := (latest.percent.map fun n => .int n.val).getD .null }

/-- The entries of the calls that answer with success come back, and the summary is
theirs. -/
def RoundTrips (evs : List (Event py)) : Prop :=
  let (outcomes,ledger) := runEvents py root runId none evs
  let entries := outcomes.filterMap Outcome.recorded
  (∀ limit, readProgress py root ledger limit = some (limited limit (entries.map Entry.fields))) ∧
    ∀ recent, progressSummary py root ledger recent = some (summaryOf recent entries)

end Run

theorem splitlines_translate (s : PyStr) : splitlines (TextMode.translate s) = splitlines s := by
  have hlf : isLineBreak (ch '\n') = true := rfl
  have hcr : isLineBreak (ch '\r') = true := rfl
  have hne : (ch '\n' == ch '\r') = false := rfl
  have hself : (ch '\r' == ch '\r') = true := rfl
  simp only [splitlines]
  induction s with
  | nil => rfl
  | cons c cs ih =>
    by_cases hc : c = ch '\r'
    · cases cs with
      | nil => simp [hc,TextMode.translate,splitlinesFrom,hlf,hcr]
      | cons d cs =>
        by_cases hd : d = ch '\n'
        · rw [TextMode.translate,if_pos hc,if_pos (by simp [hd]),ih,hc,hd]
          simp [splitlinesFrom,hlf,hcr,hne]
        · have hbeq : (d == ch '\n') = false := by simpa using hd
          rw [TextMode.translate,if_pos hc,if_neg (by simpa using hd),splitlinesFrom,hc,splitlinesFrom]
          simp only [hlf,hcr,hne,hself,ih,Bool.false_and,Bool.false_eq_true,if_false,if_true]
          rw [splitlinesFrom,splitlinesFrom]
          simp [hbeq]
    · have hbeq : (c == ch '\r') = false := by simpa using hc
      rw [TextMode.translate,if_neg hc,splitlinesFrom,splitlinesFrom,hbeq,ih]

theorem splitlinesFrom_append_lf (cr : Bool) (a b : PyStr) :
    splitlinesFrom cr (a++ch '\n'::b) = splitlinesFrom cr (a++[ch '\n'])++splitlines b := by
  have hlf : isLineBreak (ch '\n') = true := rfl
  have hne : (ch '\n' == ch '\r') = false := rfl
  induction a generalizing cr with
  | nil => cases cr <;> simp [splitlinesFrom,splitlines,hlf,hne]
  | cons c a ih =>
    simp only [List.cons_append,splitlinesFrom]
    split
    · exact ih false
    · split
      · rw [ih,List.cons_append]
      · have hmore : splitlinesFrom false (a++[ch '\n']) ≠ [] := by
          cases a with
          | nil => simp [splitlinesFrom,hlf]
          | cons d a =>
            rw [List.cons_append,splitlinesFrom]
            split
            · simp_all
            · split
              · simp
              · split <;> simp
        rw [ih]
        cases hlines : splitlinesFrom false (a++[ch '\n']) with
        | nil => exact absurd hlines hmore
        | cons l ls => simp

variable {s p t : PyStr}

theorem splitlines_pieces (h : ch '\r' ∉ s) :
    splitlines (s++[ch '\n']) = s.splitOnP isLineBreak := by
  have hlf : isLineBreak (ch '\n') = true := rfl
  induction s with
  | nil => rfl
  | cons c s ih =>
    obtain ⟨hc,hs⟩ : ch '\r' ≠ c ∧ ch '\r' ∉ s := by simpa using h
    have hbeq : (c == ch '\r') = false := by simpa using Ne.symm hc
    have ih : splitlinesFrom false (s++[ch '\n']) = _ := ih hs
    rw [splitlines,List.cons_append,splitlinesFrom,List.splitOnP_cons_eq_if_modifyHead]
    simp only [Bool.false_and,Bool.false_eq_true,if_false,hbeq,ih]
    split
    · rfl
    · cases hp : s.splitOnP isLineBreak with
      | nil => exact absurd hp (List.splitOnP_ne_nil _ _)
      | cons l ls => simp

/-- What stands between the quotes of a string. -/
abbrev inner (s : PyStr) : PyStr := s.flatMap (quoteChar false)

/-- The characters the writer leaves as they are and the reader ends a line at. -/
def cuts (c : PyChar) : Bool := c.code == 0x85 || c.code == 0x2028 || c.code == 0x2029

/-- No character of the text ends a line of the ledger. -/
def Uncut (s : PyStr) : Prop := ∀ c ∈ s, cuts c = false

instance (s : PyStr) : Decidable (Uncut s) := inferInstanceAs (Decidable (∀ c ∈ s, _))

theorem quoteChar_cuts {c : PyChar} (h : cuts c = true) :
    quoteChar false c = [c] ∧ isLineBreak c = true := by
  have hcode : c.code = 0x85 ∨ c.code = 0x2028 ∨ c.code = 0x2029 := by simpa [cuts,or_assoc] using h
  have hfind : (shortEscapes.find? fun p => ch p.1 = c) = none := by
    rw [List.find?_eq_none]
    intro p hp hpc
    have hsmall : ∀ p ∈ shortEscapes, (ch p.1).code < 0x80 := by decide
    have := hsmall p hp
    rw [of_decide_eq_true hpc] at this
    omega
  constructor
  · have hlarge : ¬ c.code < 0x20 := by omega
    simp [quoteChar,hfind,hlarge]
  · obtain h | h | h := hcode <;> simp [isLineBreak,h]

theorem quoteChar_unbroken {c : PyChar} (h : cuts c = false) : Unbroken (quoteChar false c) := by
  have hletters : ∀ p ∈ shortEscapes, Unbroken [ch '\\',ch p.2] := by decide
  have hcontrol : ∀ n < 0x20, Unbroken (escapeCode n) := by decide
  unfold quoteChar
  cases hfind : shortEscapes.find? fun p => ch p.1 = c with
  | some p => exact hletters p (List.mem_of_find?_eq_some hfind)
  | none =>
    simp only [Bool.false_eq_true,false_and,or_false]
    split
    · next hsmall => exact hcontrol _ hsmall
    · next hlarge =>
      have hcode : c.code ≠ 0x85 ∧ c.code ≠ 0x2028 ∧ c.code ≠ 0x2029 := by
        simpa [cuts,and_assoc] using h
      simp [isLineBreak]
      omega

theorem inner_unbroken (h : Uncut s) : Unbroken (inner s) := by
  intro d hd
  obtain ⟨c,hc,hd⟩ := List.mem_flatMap.mp hd
  exact quoteChar_unbroken (h c hc) d hd

theorem splitOnP_unbroken_append {a : PyStr} (h : Unbroken a) (b : PyStr) :
    (a++b).splitOnP isLineBreak = (b.splitOnP isLineBreak).modifyHead (a++·) := by
  induction a with
  | nil => cases hp : b.splitOnP isLineBreak <;> simp [hp]
  | cons c a ih =>
    obtain ⟨hc,ha⟩ := unbroken_cons.mp h
    rw [List.cons_append,List.splitOnP_cons_eq_if_modifyHead,if_neg (by simp [hc]),ih ha]
    cases b.splitOnP isLineBreak <;> rfl

theorem piece_at_start (s : PyStr) : ∀ p ∈ (s.splitOnP isLineBreak).head?, p <+: s := by
  induction s with
  | nil => simp
  | cons c s ih =>
    rw [List.splitOnP_cons_eq_if_modifyHead]
    split
    · simp
    · cases hp : s.splitOnP isLineBreak with
      | nil => simp
      | cons l ls =>
        have hl : l <+: s := ih l (by simp [hp])
        simpa using hl

theorem mem_splitOnP_inner (h : p ∈ (inner s++t).splitOnP isLineBreak) :
    (∃ s', p <+: inner s'++t) ∨ p ∈ (t.splitOnP isLineBreak).tail := by
  induction s generalizing p with
  | nil =>
    cases hp : t.splitOnP isLineBreak with
    | nil => exact absurd hp (List.splitOnP_ne_nil _ _)
    | cons l ls =>
      change p ∈ t.splitOnP isLineBreak at h
      rw [hp] at h
      obtain rfl | h := List.mem_cons.mp h
      · exact .inl ⟨[],piece_at_start t _ (by simp [hp])⟩
      · exact .inr h
  | cons c s ih =>
    have hcons : inner (c::s)++t = quoteChar false c++(inner s++t) := by simp
    rw [hcons] at h
    cases hc : cuts c with
    | true =>
      obtain ⟨hquote,hbreak⟩ := quoteChar_cuts hc
      rw [hquote,List.cons_append,List.nil_append,List.splitOnP_cons_eq_if_modifyHead,
        if_pos hbreak] at h
      obtain rfl | h := List.mem_cons.mp h
      · exact .inl ⟨[],List.nil_prefix⟩
      · exact ih h
    | false =>
      rw [splitOnP_unbroken_append (quoteChar_unbroken hc)] at h
      cases hp : (inner s++t).splitOnP isLineBreak with
      | nil => exact absurd hp (List.splitOnP_ne_nil _ _)
      | cons l ls =>
        rw [hp,List.modifyHead_cons] at h
        obtain rfl | h := List.mem_cons.mp h
        · have hl : l <+: inner s++t := piece_at_start _ _ (by simp [hp])
          refine .inl ⟨c::s,?_⟩
          rw [hcons]
          exact (List.prefix_append_right_inj _).mpr hl
        · exact ih (by simp [hp,h])

theorem splitOnP_cut {a : PyStr} (ha : Unbroken a) (hs : ¬ Uncut s) :
    ∃ s₁ s₂, (a++(inner s++t)).splitOnP isLineBreak =
      (a++inner s₁)::(inner s₂++t).splitOnP isLineBreak := by
  induction s generalizing a with
  | nil => simp [Uncut] at hs
  | cons c s ih =>
    have hcons : inner (c::s)++t = quoteChar false c++(inner s++t) := by simp
    rw [hcons]
    cases hc : cuts c with
    | true =>
      obtain ⟨hquote,hbreak⟩ := quoteChar_cuts hc
      refine ⟨[],s,?_⟩
      rw [hquote,splitOnP_unbroken_append ha,List.cons_append,List.nil_append,
        List.splitOnP_cons_eq_if_modifyHead,if_pos hbreak]
      simp
    | false =>
      have hs : ¬ Uncut s := by
        intro hs
        apply ‹¬ Uncut (c::s)›
        simpa [Uncut,hc] using hs
      obtain ⟨s₁,s₂,h⟩ := ih (unbroken_append.mpr ⟨ha,quoteChar_unbroken hc⟩) hs
      refine ⟨c::s₁,s₂,?_⟩
      rw [← List.append_assoc,h]
      simp

theorem quoteChar_form (c : PyChar) : (∃ ds, quoteChar false c = ch '\\'::ds) ∨
    quoteChar false c = [c] ∧ c ≠ ch '"' := by
  obtain ⟨d,ds,hquote,hd⟩ := quoteChar_cons false c
  unfold quoteChar at hquote ⊢
  cases hfind : shortEscapes.find? fun p => ch p.1 = c with
  | some p => exact .inl ⟨_,rfl⟩
  | none =>
    simp only [hfind,Bool.false_eq_true,false_and,or_false] at hquote ⊢
    split
    · left
      unfold escapeCode
      split <;> exact ⟨_,rfl⟩
    · next hlarge =>
      rw [if_neg hlarge] at hquote
      obtain ⟨rfl,-⟩ := List.cons.inj hquote
      exact .inr ⟨rfl,hd⟩

theorem skipWs_within {ds : PyStr} {d : PyChar} (h : p <+: inner s++ch '"'::t)
    (hskip : skipWs p = d::ds) :
    d = ch '"' ∧ ds <+: t ∨ d = ch '\\' ∨ d ≠ ch '"' ∧ ∃ s', ds <+: inner s'++ch '"'::t := by
  induction s generalizing p with
  | nil =>
    cases p with
    | nil => simp [skipWs] at hskip
    | cons e p =>
      obtain ⟨rfl,hp⟩ := List.cons_prefix_cons.mp h
      rw [skipWs_cons (by decide)] at hskip
      obtain ⟨rfl,rfl⟩ := List.cons.inj hskip
      exact .inl ⟨rfl,hp⟩
  | cons c s ih =>
    cases p with
    | nil => simp [skipWs] at hskip
    | cons e p =>
      have hcons : inner (c::s)++ch '"'::t = quoteChar false c++(inner s++ch '"'::t) := by simp
      rw [hcons] at h
      obtain ⟨es,hquote⟩ | ⟨hquote,hc⟩ := quoteChar_form c
      · rw [hquote,List.cons_append] at h
        obtain ⟨rfl,-⟩ := List.cons_prefix_cons.mp h
        rw [skipWs_cons (by decide)] at hskip
        exact .inr (.inl (List.cons.inj hskip).1.symm)
      · rw [hquote,List.cons_append,List.nil_append] at h
        obtain ⟨rfl,hp⟩ := List.cons_prefix_cons.mp h
        cases hws : isWs e with
        | true => exact ih hp (by simpa [skipWs,hws] using hskip)
        | false =>
          rw [skipWs_cons hws] at hskip
          obtain ⟨rfl,rfl⟩ := List.cons.inj hskip
          exact .inr (.inr ⟨hc,s,hp⟩)

theorem lstrip_within (h : p <+: inner s++ch '"'::t) :
    ∃ s', p.dropWhile PyChar.isSpace <+: inner s'++ch '"'::t := by
  induction s generalizing p with
  | nil =>
    refine ⟨[],?_⟩
    cases p with
    | nil => exact List.nil_prefix
    | cons e p =>
      obtain ⟨rfl,hp⟩ := List.cons_prefix_cons.mp h
      simpa [show (ch '"').isSpace = false from rfl] using hp
  | cons c s ih =>
    cases p with
    | nil => exact ⟨[],List.nil_prefix⟩
    | cons e p =>
      have hcons : inner (c::s)++ch '"'::t = quoteChar false c++(inner s++ch '"'::t) := by simp
      cases hspace : e.isSpace with
      | false =>
        rw [List.dropWhile_cons_of_neg (by simp [hspace])]
        exact ⟨c::s,h⟩
      | true =>
        rw [hcons] at h
        obtain ⟨es,hquote⟩ | ⟨hquote,hc⟩ := quoteChar_form c
        · rw [hquote,List.cons_append] at h
          obtain ⟨rfl,-⟩ := List.cons_prefix_cons.mp h
          exact absurd hspace (by decide)
        · rw [hquote,List.cons_append,List.nil_append] at h
          obtain ⟨rfl,hp⟩ := List.cons_prefix_cons.mp h
          rw [List.dropWhile_cons_of_pos hspace]
          exact ih hp

theorem strip_within (h : p <+: inner s++ch '"'::t) :
    ∃ s', strip p <+: inner s'++ch '"'::t := by
  obtain ⟨s',hs'⟩ := lstrip_within h
  exact ⟨s',(List.rdropWhile_prefix _ _).trans hs'⟩

section Loads

variable {ft : FloatText} {rest : PyStr} {fields : List (PyStr × Json)}

theorem scanNumber_not_obj {s : PyStr} {v : Json} (h : scanNumber ft s = some (v,rest)) :
    ∀ fields, v ≠ .obj fields := by
  unfold scanNumber at h
  obtain ⟨w,-,hw⟩ := Option.map_eq_some_iff.mp h
  simp only at hw
  split at hw
  · obtain ⟨rfl,-⟩ := Prod.mk.inj hw
    simp
  · obtain ⟨rfl,-⟩ := Prod.mk.inj hw
    simp

theorem scanWord_not_obj {s : PyStr} {v : Json} (h : scanWord s = some (v,rest)) :
    ∀ fields, v ≠ .obj fields := by
  obtain ⟨w,hw,hv⟩ := List.exists_of_findSome?_eq_some h
  obtain ⟨r,-,hr⟩ := Option.map_eq_some_iff.mp hv
  obtain ⟨rfl,-⟩ := Prod.mk.inj hr
  simp only [words,List.mem_cons,List.not_mem_nil,or_false] at hw
  obtain rfl | rfl | rfl | rfl | rfl | rfl := hw <;> simp

theorem parseFields_colon {fuel : ℕ} {s : PyStr} {q : List (PyStr × Json) × PyStr}
    (h : parseFields ft fuel s = some q) :
    ∃ k r r', scanString s = some (k,r) ∧ skipWs r = ch ':'::r' := by
  cases fuel with
  | zero => simp [parseFields] at h
  | succ fuel =>
    rw [parseFields] at h
    obtain ⟨⟨k,r⟩,hk,h⟩ := Option.bind_eq_some_iff.mp h
    simp only at h
    split at h
    · simp at h
    · next c cs hr =>
      split at h
      · next hc => exact ⟨k,r,cs,hk,by rw [hr,hc]⟩
      · simp at h

theorem parseValue_field {fuel : ℕ} {s : PyStr} {kv : PyStr × Json} (h : parseValue ft fuel s = some (.obj (kv::fields),rest)) :
    ∃ cs ds k r r', s = ch '\x7b'::cs ∧ skipWs cs = ch '"'::ds ∧ scanString ds = some (k,r) ∧
      skipWs r = ch ':'::r' := by
  cases fuel with
  | zero => simp [parseValue] at h
  | succ fuel =>
    cases s with
    | nil => simp [parseValue] at h
    | cons c cs =>
      rw [parseValue] at h
      split at h
      · obtain ⟨p,-,hp⟩ := Option.map_eq_some_iff.mp h
        simp at hp
      · split at h
        · next hc =>
          split at h
          · simp at h
          · next d ds hcs =>
            split at h
            · simp at h
            · split at h
              · next hd =>
                obtain ⟨q,hq,-⟩ := Option.map_eq_some_iff.mp h
                obtain ⟨k,r,r',hk,hr⟩ := parseFields_colon hq
                exact ⟨cs,ds,k,r,r',by rw [hc],by rw [hcs,hd],hk,hr⟩
              · simp at h
        · split at h
          · split at h
            · simp at h
            · split at h
              · simp at h
              · obtain ⟨p,-,hp⟩ := Option.map_eq_some_iff.mp h
                simp at hp
          · obtain h | ⟨-,h⟩ := Option.or_eq_some_iff.mp h
            · exact absurd rfl (scanWord_not_obj h _)
            · exact absurd rfl (scanNumber_not_obj h _)

theorem loads_field {s : PyStr} {kv : PyStr × Json}
    (h : loads ft s = some (.obj (kv::fields))) : ∃ cs ds k r r', skipWs s = ch '\x7b'::cs ∧
      skipWs cs = ch '"'::ds ∧ scanString ds = some (k,r) ∧ skipWs r = ch ':'::r' := by
  unfold loads at h
  split at h
  · simp at h
  · obtain ⟨⟨v,rest⟩,hparse,hv⟩ := Option.bind_eq_some_iff.mp h
    simp only at hv
    split at hv
    · obtain rfl := Option.some.inj hv
      exact parseValue_field hparse
    · simp at hv

theorem prefix_split {ds t : PyStr} (h : ds <+: ch ','::ch ' '::ch '"'::t) :
    scanString ds = none ∨ ∃ rest, ds = ch ','::ch ' '::ch '"'::rest ∧ rest <+: t := by
  cases ds with
  | nil => exact .inl rfl
  | cons a ds =>
    obtain ⟨rfl,h₁⟩ := List.cons_prefix_cons.mp h
    cases ds with
    | nil => exact .inl rfl
    | cons b ds =>
      obtain ⟨rfl,h₂⟩ := List.cons_prefix_cons.mp h₁
      cases ds with
      | nil => exact .inl rfl
      | cons c ds =>
        obtain ⟨rfl,h₃⟩ := List.cons_prefix_cons.mp h₂
        exact .inr ⟨ds,rfl,h₃⟩

theorem loads_within {s t p : PyStr} {x : PyChar}
    (hx : isWs x = false) (hcolon : x ≠ ch ':')
    (hp : p <+: inner s++ch '"'::ch ','::ch ' '::ch '"'::x::t)
    (h : loads ft (strip p) = some (.obj fields)) : fields = [] := by
  cases fields with
  | nil => rfl
  | cons kv fields =>
    exfalso
    obtain ⟨s',hs'⟩ := strip_within hp
    obtain ⟨cs,ds,k,r,r',hbrace,hquote,hscan,hr⟩ := loads_field h
    obtain ⟨hd,-⟩ | hd | ⟨-,s'',hcs⟩ := skipWs_within hs' hbrace
    · exact absurd hd (by decide)
    · exact absurd hd (by decide)
    obtain ⟨-,hds⟩ | hd | ⟨hd,-⟩ := skipWs_within hcs hquote
    · -- The key is what stands between the closing quote and the next opening one.
      obtain hshort | ⟨rest,rfl,hrest⟩ := prefix_split hds
      · exact absurd (hscan.symm.trans hshort) (by simp)
      · have hkey := scanString_quote (a:=false) (s:=lit ", ") (by simp) rest
        have htext : ch ','::ch ' '::ch '"'::rest =
            (lit ", ").flatMap (quoteChar false)++ch '"'::rest := rfl
        rw [htext,hkey] at hscan
        obtain ⟨-,rfl⟩ := Prod.mk.inj (Option.some.inj hscan)
        cases rest with
        | nil => simp [skipWs] at hr
        | cons y rest =>
          obtain ⟨rfl,-⟩ := List.cons_prefix_cons.mp hrest
          rw [skipWs_cons hx] at hr
          exact hcolon (List.cons.inj hr).1
    · exact absurd hd (by decide)
    · exact hd rfl

theorem scanStr_open (s : PyStr) (fuel : ℕ) : scanStr fuel (inner s) = none := by
  induction s generalizing fuel with
  | nil => cases fuel <;> rfl
  | cons c s ih =>
    cases fuel with
    | zero => rfl
    | succ fuel =>
      have hread := scanChar_quoteChar (a:=false) (c:=c) (by simp) (inner s)
      obtain ⟨d,ds,hd,hquote⟩ := quoteChar_cons false c
      rw [inner,List.flatMap_cons]
      rw [hd,List.cons_append] at hread ⊢
      rw [scanStr,if_neg hquote,hread,Option.bind_some,ih]
      rfl

theorem parseFields_open (k s : PyStr) (fuel : ℕ) :
    parseFields ft fuel (inner k++ch '"'::ch ':'::ch ' '::ch '"'::inner s) = none := by
  have hopen : scanString (inner s) = none := scanStr_open s _
  cases fuel with
  | zero => rfl
  | succ fuel =>
    rw [parseFields,scanString_quote (by simp)]
    cases fuel with
    | zero => simp [skipWs,isWs,parseValue]
    | succ fuel => simp [skipWs,isWs,parseValue,hopen]

theorem parseFields_next (h : ∀ fuel, parseFields ft fuel rest = none)
    (k s : PyStr) (fuel : ℕ) :
    parseFields ft fuel (inner k++ch '"'::ch ':'::ch ' '::ch '"'::
      (inner s++ch '"'::ch ','::ch ' '::ch '"'::rest)) = none := by
  have hread := scanString_quote (a:=false) (s:=s) (by simp) (ch ','::ch ' '::ch '"'::rest)
  cases fuel with
  | zero => rfl
  | succ fuel =>
    rw [parseFields,scanString_quote (by simp)]
    cases fuel with
    | zero => simp [skipWs,isWs,parseValue]
    | succ fuel => simp [skipWs,isWs,parseValue,hread,h]

theorem loads_brace (h : ∀ fuel, parseFields ft fuel rest = none) :
    loads ft (ch '\x7b'::ch '"'::rest) = none := by
  simp [loads,skipWs,isWs,parseValue,h]

end Loads

section EntryText

variable (py : Python) {e : Entry}

/-- What stands behind the quote of the key that follows the note. -/
def entryRest (e : Entry) : PyStr :=
  let written := inner (lit "written_at")++ch '"'::ch ':'::ch ' '::ch '"'::
    (inner e.writtenAt.isoformat++[ch '"',ch '\x7d'])
  match e.percent with
  | none => written
  | some n => inner (lit "percent")++ch '"'::ch ':'::ch ' '::
      (intText n.val++ch ','::ch ' '::ch '"'::written)

/-- The text of an entry up to its run id. -/
def entryHead : PyStr :=
  ch '\x7b'::ch '"'::(inner (lit "run_id")++ch '"'::ch ':'::ch ' '::[])

/-- The text between the run id and the note. -/
def entryMid : PyStr :=
  ch '"'::ch ','::ch ' '::ch '"'::(inner (lit "note")++ch '"'::ch ':'::ch ' '::[])

theorem entryText_eq (e : Entry) : entryText py e = entryHead++ch '"'::(inner e.runId++
    (entryMid++ch '"'::(inner e.note++ch '"'::ch ','::ch ' '::ch '"'::entryRest e))) := by
  unfold entryText entryHead entryMid entryRest
  cases hp : e.percent <;> simp [Entry.fields,hp,dumps,dumpsFields,quote]

theorem unbroken_digits {s : PyStr} (h : ∀ c ∈ s, isDigit c = true) : Unbroken s := by
  intro c hc
  have hdigit := h c hc
  simp only [isDigit,Bool.and_eq_true,decide_eq_true_eq] at hdigit
  simp [isLineBreak]
  omega

theorem unbroken_intText (n : ℤ) : Unbroken (intText n) := by
  have hdigits := unbroken_digits (natText_digits n.natAbs)
  unfold intText
  split
  · exact unbroken_cons.mpr ⟨rfl,hdigits⟩
  · exact hdigits

theorem uncut_of_unbroken {s : PyStr} (h : Unbroken s) : Uncut s := by
  intro c hc
  cases hcut : cuts c with
  | false => rfl
  | true => exact absurd (h c hc) (by simp [(quoteChar_cuts hcut).2])

theorem unbroken_pad (width n : ℕ) : Unbroken (pad width n) := by
  refine unbroken_append.mpr ⟨?_,unbroken_digits (natText_digits n)⟩
  intro c hc
  rw [(List.mem_replicate.mp hc).2]
  rfl

theorem unbroken_isoformat (t : Instant) : Unbroken t.isoformat := by
  have hzone : Unbroken (lit "+00:00") := by decide
  have hdash : isLineBreak (ch '-') = false := rfl
  have htime : isLineBreak (ch 'T') = false := rfl
  have hcolon : isLineBreak (ch ':') = false := rfl
  simp [Instant.isoformat,unbroken_pad,hzone,hdash,htime,hcolon]

theorem encodes_isoformat (t : Instant) : encodes t.isoformat = true := by
  have hpad : ∀ width n, encodes (pad width n) = true := by
    intro width n
    have hzeros : encodes (List.replicate (width-(natText n).length) (ch '0')) = true := by
      refine List.all_eq_true.mpr fun c hc => ?_
      rw [(List.mem_replicate.mp hc).2]
    rw [pad,encodes_append,hzeros,encodes_natText]
    rfl
  simp [Instant.isoformat,encodes_append,hpad]

theorem encodes_entryText (e : Entry) :
    encodes (entryText py e) = (encodes e.runId && encodes e.note) := by
  rw [entryText,encodes_dumps]
  cases hp : e.percent <;>
    simp [Entry.fields,hp,Json.encodes,fieldsEncode,encodes_isoformat]

theorem unbroken_entryHead : Unbroken entryHead := by decide

theorem unbroken_entryMid : Unbroken entryMid := by decide

theorem unbroken_entryRest (e : Entry) : Unbroken (entryRest e) := by
  have hkeys : Unbroken (inner (lit "written_at")) ∧ Unbroken (inner (lit "percent")) ∧
      Unbroken [ch '"',ch '\x7d',ch ':',ch ' ',ch ','] := by decide
  have htime := inner_unbroken (uncut_of_unbroken (unbroken_isoformat e.writtenAt))
  simp only [unbroken_cons,unbroken_nil,and_true] at hkeys
  unfold entryRest
  cases e.percent with
  | none => simp [hkeys,htime,unbroken_append,-List.append_assoc]
  | some n => simp [hkeys,htime,unbroken_intText]

theorem entryRest_cons (e : Entry) :
    ∃ x rest, entryRest e = x::rest ∧ isWs x = false ∧ x ≠ ch ':' := by
  unfold entryRest
  cases e.percent with
  | none => exact ⟨ch 'w',_,rfl,rfl,by decide⟩
  | some n => exact ⟨ch 'p',_,rfl,rfl,by decide⟩

theorem unbroken_entryText (hrun : Uncut e.runId) (hnote : Uncut e.note) :
    Unbroken (entryText py e) := by
  have hmarks : isLineBreak (ch '"') = false ∧ isLineBreak (ch ',') = false ∧
      isLineBreak (ch ' ') = false := by decide
  rw [entryText_eq]
  simp only [unbroken_append,unbroken_cons]
  exact ⟨unbroken_entryHead,hmarks.1,inner_unbroken hrun,unbroken_entryMid,hmarks.1,
    inner_unbroken hnote,hmarks.1,hmarks.2.1,hmarks.2.2,hmarks.1,unbroken_entryRest e⟩

theorem strip_entryText (e : Entry) : strip (entryText py e) = entryText py e := by
  have htext : entryText py e = ch '\x7b'::dumpsFields py.ft false e.fields++[ch '\x7d'] := rfl
  rw [htext,strip_of_head (by simp [show (ch '\x7b').isSpace = false from rfl]),
    List.rdropWhile_concat_neg]
  decide

theorem distinct_fields (e : Entry) : (Json.obj e.fields).distinct = true := by
  unfold Entry.fields
  cases e.percent with
  | none => simp [Json.distinct,fieldsDistinct,lit]
  | some n => simp [Json.distinct,fieldsDistinct,lit]

theorem readLine_entryText (e : Entry) : readLine py (entryText py e) = some [e.fields] := by
  have hloads := loads_dumps py.ft false (.obj e.fields) (distinct_fields e) (by simp)
  have hne : entryText py e ≠ [] := by simp [entryText,dumps]
  simp only [readLine,strip_entryText,if_neg hne]
  simp only [entryText,py.limit_entry,hloads]

/-- Whatever the line is read as has no field. -/
def Harmless (line : PyStr) : Prop :=
  ∀ fields, loads py.ft (strip line) = some (.obj fields) → fields = []

theorem readLine_harmless {line : PyStr} (h : Harmless py line)
    {entries : List (List (PyStr × Json))} (hread : readLine py line = some entries) :
    ∀ fields ∈ entries, fields = [] := by
  unfold readLine at hread
  simp only at hread
  split at hread
  · cases hread
    simp
  · split at hread
    · simp at hread
    · cases hread
      simp
    · split at hread
      · next fields hloads =>
        cases hread
        simpa using h fields hloads
      · cases hread
        simp

theorem readLines_harmless {lines : List PyStr} (h : ∀ line ∈ lines, Harmless py line)
    {entries : List (List (PyStr × Json))} (hread : readLines py lines = some entries) :
    ∀ fields ∈ entries, fields = [] := by
  induction lines generalizing entries with
  | nil =>
    cases hread
    simp
  | cons line lines ih =>
    rw [readLines] at hread
    obtain ⟨es,hes,hread⟩ := Option.bind_eq_some_iff.mp hread
    obtain ⟨es',hes',rfl⟩ := Option.map_eq_some_iff.mp hread
    have hline := readLine_harmless py (h line List.mem_cons_self) hes
    have hlines := ih (fun l hl => h l (List.mem_cons_of_mem _ hl)) hes'
    simpa [or_imp,forall_and] using ⟨hline,hlines⟩

theorem escape_no_space {c : PyChar} {ds : PyStr} (h : quoteChar false c = ch '\\'::ds) :
    ∀ d ∈ quoteChar false c, d.isSpace = false := by
  have hletters : ∀ p ∈ shortEscapes, ∀ d ∈ [ch '\\',ch p.2], d.isSpace = false := by decide
  have hcontrol : ∀ n < 0x20, ∀ d ∈ escapeCode n, d.isSpace = false := by decide
  unfold quoteChar at h ⊢
  cases hfind : shortEscapes.find? fun p => ch p.1 = c with
  | some p => exact hletters p (List.mem_of_find?_eq_some hfind)
  | none =>
    simp only [hfind,Bool.false_eq_true,false_and,or_false] at h ⊢
    split
    · next hsmall => exact hcontrol _ hsmall
    · next hlarge =>
      rw [if_neg hlarge] at h
      obtain ⟨rfl,-⟩ := List.cons.inj h
      decide

theorem rstrip_inner (s : PyStr) : ∃ s', (inner s).rdropWhile PyChar.isSpace = inner s' := by
  induction s using List.reverseRecOn with
  | nil => exact ⟨[],rfl⟩
  | append_singleton s c ih =>
    have hconcat : inner (s++[c]) = inner s++quoteChar false c := by simp
    by_cases hspace : ∀ d ∈ quoteChar false c, d.isSpace = false
    · refine ⟨s++[c],?_⟩
      rw [List.rdropWhile_eq_self_iff]
      intro hne
      have hlast : (inner (s++[c])).getLast hne ∈ quoteChar false c := by
        obtain ⟨d,ds,hquote,-⟩ := quoteChar_cons false c
        simp only [hconcat]
        rw [List.getLast_append_of_ne_nil _ (by simp [hquote])]
        exact List.getLast_mem _
      rw [hspace _ hlast]
      exact Bool.false_ne_true
    · obtain ⟨ds,hquote⟩ | ⟨hquote,-⟩ := quoteChar_form c
      · exact absurd (escape_no_space hquote) hspace
      · have hc : c.isSpace = true := by simpa [hquote] using hspace
        rw [hconcat,hquote,List.rdropWhile_concat_pos _ _ _ hc]
        exact ih

theorem strip_open {a s : PyStr} (ha : ∀ c ∈ a.head?, c.isSpace = false) (hne : a ≠ []) :
    ∃ s', strip (a++ch '"'::inner s) = a++ch '"'::inner s' := by
  obtain ⟨s',hs'⟩ := rstrip_inner s
  refine ⟨s',?_⟩
  have hhead : ∀ c ∈ (a++ch '"'::inner s).head?, c.isSpace = false := by
    rw [List.head?_append_of_ne_nil _ hne]
    exact ha
  have hsplit : a++ch '"'::inner s = (a++[ch '"'])++inner s := by simp
  rw [strip_of_head hhead,hsplit,rdropWhile_append (by simp; decide),hs']
  simp

theorem harmless_cut_runId (s : PyStr) : Harmless py (entryHead++ch '"'::inner s) := by
  intro fields h
  have hhead : ∀ c ∈ entryHead.head?, c.isSpace = false := by decide
  obtain ⟨s',hs'⟩ := strip_open (s:=s) hhead (by decide)
  have hopen : ∀ fuel, parseFields py.ft fuel _ = none := parseFields_open (lit "run_id") s'
  have hbrace := loads_brace hopen
  rw [hs'] at h
  simp only [entryHead,List.cons_append,List.append_assoc,List.nil_append] at h
  exact absurd (h.symm.trans hbrace) (by simp)

theorem harmless_cut_note (r s : PyStr) :
    Harmless py (entryHead++ch '"'::(inner r++entryMid)++ch '"'::inner s) := by
  intro fields h
  have hhead : ∀ c ∈ (entryHead++ch '"'::(inner r++entryMid)).head?, c.isSpace = false := by
    intro c hc
    obtain rfl : ch '\x7b' = c := by simpa [entryHead] using hc
    rfl
  obtain ⟨s',hs'⟩ := strip_open (s:=s) hhead (by simp)
  have hopen : ∀ fuel, parseFields py.ft fuel _ = none := parseFields_open (lit "note") s'
  have hnext := fun fuel => parseFields_next hopen (lit "run_id") r fuel
  have hbrace := loads_brace hnext
  rw [hs'] at h
  simp only [entryHead,entryMid,List.cons_append,List.append_assoc,List.nil_append] at h
  exact absurd (h.symm.trans hbrace) (by simp)

theorem harmless_within_note {s p : PyStr}
    (h : p ∈ (inner s++ch '"'::ch ','::ch ' '::ch '"'::entryRest e).splitOnP isLineBreak) :
    Harmless py p := by
  obtain ⟨x,rest,hrest,hx,hcolon⟩ := entryRest_cons e
  obtain ⟨s',hs'⟩ | h := mem_splitOnP_inner h
  · intro fields hloads
    rw [hrest] at hs'
    exact loads_within hx hcolon hs' hloads
  · have hmarks : Unbroken [ch '"',ch ',',ch ' ',ch '"'] := by decide
    have hun : Unbroken (ch '"'::ch ','::ch ' '::ch '"'::entryRest e) :=
      unbroken_append.mpr ⟨hmarks,unbroken_entryRest e⟩
    rw [List.splitOnP_eq_singleton hun] at h
    simp at h

theorem harmless_within_runId {s p : PyStr}
    (h : p ∈ (inner s++(entryMid++ch '"'::(inner e.note++ch '"'::ch ','::ch ' '::ch '"'::
      entryRest e))).splitOnP isLineBreak) : Harmless py p := by
  obtain ⟨s',hs'⟩ | h := mem_splitOnP_inner h
  · intro fields hloads
    simp only [entryMid,List.cons_append] at hs'
    exact loads_within (x:=ch 'n') rfl (by decide) hs' hloads
  · have hun : Unbroken (entryMid++[ch '"']) := by decide
    have hsplit : ∀ t, entryMid++ch '"'::t = (entryMid++[ch '"'])++t := by simp
    rw [hsplit,splitOnP_unbroken_append hun] at h
    refine harmless_within_note py (s:=e.note) (e:=e) ?_
    exact List.mem_of_mem_tail (by simpa using h)

theorem harmless_pieces (h : ¬ (Uncut e.runId ∧ Uncut e.note)) :
    ∀ p ∈ (entryText py e).splitOnP isLineBreak, Harmless py p := by
  intro p hp
  have hquote : isLineBreak (ch '"') = false := rfl
  rw [entryText_eq] at hp
  by_cases hrun : Uncut e.runId
  · have hnote : ¬ Uncut e.note := fun hnote => h ⟨hrun,hnote⟩
    have ha : Unbroken (entryHead++ch '"'::(inner e.runId++entryMid)++[ch '"']) := by
      simp [unbroken_append,unbroken_entryHead,unbroken_entryMid,hquote,inner_unbroken hrun]
    obtain ⟨s₁,s₂,hsplit⟩ := splitOnP_cut (t:=ch '"'::ch ','::ch ' '::ch '"'::entryRest e) ha hnote
    have hassoc : ∀ t, entryHead++ch '"'::(inner e.runId++(entryMid++ch '"'::t)) =
        entryHead++ch '"'::(inner e.runId++entryMid)++[ch '"']++t := by simp
    rw [hassoc,hsplit] at hp
    obtain rfl | hp := List.mem_cons.mp hp
    · have := harmless_cut_note py e.runId s₁
      simpa using this
    · exact harmless_within_note py hp
  · have ha : Unbroken (entryHead++[ch '"']) := by decide
    obtain ⟨s₁,s₂,hsplit⟩ := splitOnP_cut (t:=entryMid++ch '"'::(inner e.note++
      ch '"'::ch ','::ch ' '::ch '"'::entryRest e)) ha hrun
    have hassoc : ∀ t, entryHead++ch '"'::t = entryHead++[ch '"']++t := by simp
    rw [hassoc,hsplit] at hp
    obtain rfl | hp := List.mem_cons.mp hp
    · have := harmless_cut_runId py s₁
      simpa using this
    · exact harmless_within_runId py hp

end EntryText

section Ledger

variable (py : Python) (root : Bool) (runId : PyStr) {entries : List (List (PyStr × Json))}
  {evs : List (Event py)}

/-- The entries of a ledger text; nothing where reading raises. -/
def readText (text : PyStr) : Option (List (List (PyStr × Json))) :=
  readLines py (splitlines text)

/-- The line of an entry. -/
def entryLine (e : Entry) : PyStr := entryText py e++[ch '\n']

/-- The entry a call writes to the ledger. -/
def written (c : Call) : Option Entry :=
  match entryOf py runId c with
  | .error _ => none
  | .ok entry =>
    if root ∧ c.osError = none ∧ encodes (entryText py entry) then some entry else none

/-- What an event adds to the ledger. -/
def Event.text : Event py → PyStr
  | .call c => ((written py root runId c).map (entryLine py)).getD []
  | .corrupt text _ => text

def Event.entry : Event py → Option Entry
  | .call c => written py root runId c
  | .corrupt _ _ => none

theorem readProgress_eq (ledger : Option PyStr) (limit : Option ℤ) :
    readProgress py true ledger limit = (readText py (ledger.getD [])).map (limited limit) := by
  cases ledger with
  | none => cases limit <;> simp [readProgress,readText,splitlines,splitlinesFrom,readLines,limited,tail]
  | some text =>
    simp [readProgress,readText,splitlines_translate]

theorem readLines_append (a b : List PyStr) : readLines py (a++b) =
    (readLines py a).bind fun es => (readLines py b).map (es++·) := by
  induction a with
  | nil => cases h : readLines py b <;> simp [readLines,h]
  | cons line a ih =>
    rw [List.cons_append,readLines,readLines,ih]
    cases readLine py line <;> cases readLines py a <;> cases readLines py b <;> simp

theorem readText_append_lf (a b : PyStr) : readText py (a++[ch '\n']++b) =
    (readText py (a++[ch '\n'])).bind fun es => (readText py b).map (es++·) := by
  have hlf : splitlines (a++[ch '\n']++b) = splitlines (a++[ch '\n'])++splitlines b := by
    rw [List.append_assoc]
    exact splitlinesFrom_append_lf false a b
  rw [readText,hlf,readLines_append]
  rfl

/-- The ledger ends a line, or is empty. -/
def Ended (text : PyStr) : Prop := text = [] ∨ [ch '\n'] <:+ text

theorem readText_append {a : PyStr} (ha : Ended a) (b : PyStr) : readText py (a++b) =
    (readText py a).bind fun es => (readText py b).map (es++·) := by
  obtain rfl | ⟨a,rfl⟩ := ha
  · cases h : readLines py (splitlinesFrom false b) <;>
      simp [readText,splitlines,splitlinesFrom,readLines,h]
  · exact readText_append_lf py a b

theorem written_of_entry {c : Call} {e : Entry} (hentry : entryOf py runId c = .ok e)
    (hroot : root = true) (herror : c.osError = none) (hencodes : encodes (entryText py e) = true) :
    written py root runId c = some e := by
  rw [written,hentry]
  exact if_pos ⟨hroot,herror,hencodes⟩

theorem inner_no_cr (s : PyStr) : ch '\r' ∉ inner s := by
  intro h
  obtain ⟨c,-,hc⟩ := List.mem_flatMap.mp h
  cases hcut : cuts c with
  | true =>
    rw [(quoteChar_cuts hcut).1] at hc
    obtain rfl := List.mem_singleton.mp hc
    exact absurd hcut (by decide)
  | false => exact absurd (quoteChar_unbroken hcut _ hc) (by decide)

theorem entryText_no_cr (e : Entry) : ch '\r' ∉ entryText py e := by
  have hun : ∀ s : PyStr, Unbroken s → ch '\r' ∉ s := fun s hs h => absurd (hs _ h) (by decide)
  rw [entryText_eq]
  simp [hun _ unbroken_entryHead,hun _ unbroken_entryMid,hun _ (unbroken_entryRest e),
    inner_no_cr,-List.mem_flatMap]

theorem readText_entryLine (e : Entry) : readText py (entryLine py e) =
    readLines py ((entryText py e).splitOnP isLineBreak) := by
  rw [readText,entryLine,splitlines_pieces (entryText_no_cr py e)]

theorem readLines_eq_nil {lines : List PyStr}
    (h : ∀ line ∈ lines, ∀ es ∈ readLine py line, es = [])
    (hread : readLines py lines = some entries) : entries = [] := by
  induction lines generalizing entries with
  | nil => exact (Option.some.inj hread).symm
  | cons line lines ih =>
    rw [readLines] at hread
    obtain ⟨es,hes,hread⟩ := Option.bind_eq_some_iff.mp hread
    obtain ⟨es',hes',rfl⟩ := Option.map_eq_some_iff.mp hread
    rw [h line List.mem_cons_self es hes,ih (fun l hl => h l (List.mem_cons_of_mem _ hl)) hes']
    rfl

/-- Nothing cuts the entry a call writes, and no line something else leaves takes
`json.loads` too deep. -/
def Clean : Event py → Prop
  | .call c => ∀ e ∈ written py root runId c, Uncut e.runId ∧ Uncut e.note
  | .corrupt text _ => ∀ line ∈ splitlines text, strip line ≠ [] → py.limit (strip line) ≠ some .depth

theorem readLine_isSome {line : PyStr} :
    (readLine py line).isSome ↔ (strip line ≠ [] → py.limit (strip line) ≠ some .depth) := by
  unfold readLine
  simp only
  split
  · simp_all
  · split
    · simp_all
    · simp_all
    · split <;> simp_all

theorem readLines_isSome {lines : List PyStr} :
    (readLines py lines).isSome ↔ ∀ line ∈ lines, (readLine py line).isSome := by
  induction lines with
  | nil => simp [readLines]
  | cons line lines ih =>
    rw [readLines]
    cases hline : readLine py line with
    | none => simp [hline]
    | some es => simp [hline,ih]

theorem readText_clean {ev : Event py} (h : Clean py root runId ev) :
    readText py (ev.text py root runId) =
      some ((ev.entry py root runId).toList.map Entry.fields) := by
  cases ev with
  | call c =>
    simp only [Event.text,Event.entry]
    cases hw : written py root runId c with
    | none => rfl
    | some e =>
      obtain ⟨hrun,hnote⟩ := h e hw
      have hun := unbroken_entryText py hrun hnote
      rw [Option.map_some,Option.getD_some,readText_entryLine,List.splitOnP_eq_singleton hun]
      simp [readLines,readLine_entryText]
  | corrupt text hcorrupt =>
    have hsome : (readText py text).isSome :=
      (readLines_isSome py).mpr fun line hline => (readLine_isSome py).mpr (h line hline)
    obtain ⟨entries,hentries⟩ := Option.isSome_iff_exists.mp hsome
    have hnil := readLines_eq_nil py hcorrupt.2 hentries
    simp only [Event.text,Event.entry,hentries,hnil]
    rfl

theorem readText_unclean {ev : Event py} (h : ¬ Clean py root runId ev)
    (hread : readText py (ev.text py root runId) = some entries) :
    (∀ fields ∈ entries, fields = []) ∧ (ev.entry py root runId).isSome := by
  cases ev with
  | call c =>
    simp only [Clean,not_forall] at h
    obtain ⟨e,hw,hcut⟩ := h
    have hw : written py root runId c = some e := hw
    simp only [Event.text,Event.entry,hw,Option.map_some,Option.getD_some] at hread ⊢
    rw [readText_entryLine] at hread
    exact ⟨readLines_harmless py (harmless_pieces py hcut) hread,rfl⟩
  | corrupt text hcorrupt =>
    have hsome : (readText py text).isSome := by
      simp only [Event.text] at hread
      simp [hread]
    exact absurd (fun line hline =>
      (readLine_isSome py).mp ((readLines_isSome py).mp hsome line hline)) h

theorem ended_text (ev : Event py) : Ended (ev.text py root runId) := by
  cases ev with
  | call c =>
    simp only [Event.text]
    cases written py root runId c with
    | none => exact .inl rfl
    | some e => exact .inr (List.suffix_append _ _)
  | corrupt text hcorrupt => exact .inr hcorrupt.1

theorem Ended.append {a b : PyStr} (ha : Ended a) (hb : Ended b) : Ended (a++b) := by
  obtain rfl | hb := hb
  · simpa using ha
  · exact .inr (hb.trans (List.suffix_append _ _))

theorem readText_cons (ev : Event py) (evs : List (Event py)) :
    readText py ((ev::evs).flatMap fun ev => ev.text py root runId) =
      (readText py (ev.text py root runId)).bind fun es =>
        (readText py (evs.flatMap fun ev => ev.text py root runId)).map (es++·) := by
  rw [List.flatMap_cons]
  exact readText_append py (ended_text py root runId ev) _

theorem readText_events (h : ∀ ev ∈ evs, Clean py root runId ev) :
    readText py (evs.flatMap fun ev => ev.text py root runId) =
      some ((evs.filterMap fun ev => ev.entry py root runId).map Entry.fields) := by
  induction evs with
  | nil => rfl
  | cons ev evs ih =>
    have hev := readText_clean py root runId (h ev List.mem_cons_self)
    have hevs := ih fun ev hev => h ev (List.mem_cons_of_mem _ hev)
    rw [readText_cons,hev,hevs]
    cases hentry : ev.entry py root runId <;> simp [hentry]

theorem fields_ne_nil (e : Entry) : e.fields ≠ [] := by simp [Entry.fields]

theorem countP_events
    (hread : readText py (evs.flatMap fun ev => ev.text py root runId) = some entries) :
    entries.countP (fun fields => !fields.isEmpty) ≤
        (evs.filterMap fun ev => ev.entry py root runId).length ∧
      (entries.countP (fun fields => !fields.isEmpty) =
        (evs.filterMap fun ev => ev.entry py root runId).length →
          ∀ ev ∈ evs, Clean py root runId ev) := by
  induction evs generalizing entries with
  | nil => simp [(Option.some.inj hread).symm]
  | cons ev evs ih =>
    rw [readText_cons] at hread
    obtain ⟨es,hes,hread⟩ := Option.bind_eq_some_iff.mp hread
    obtain ⟨es',hes',rfl⟩ := Option.map_eq_some_iff.mp hread
    obtain ⟨hle,hall⟩ := ih hes'
    rw [List.countP_append,List.filterMap_cons]
    by_cases hclean : Clean py root runId ev
    · have hsame := readText_clean py root runId hclean
      obtain rfl := Option.some.inj (hes.symm.trans hsame)
      have hcount : ∀ o : Option Entry,
          (o.toList.map Entry.fields).countP (fun fields => !fields.isEmpty) = o.toList.length := by
        intro o
        cases o with
        | none => rfl
        | some e => simp [fields_ne_nil]
      rw [hcount]
      cases hentry : ev.entry py root runId with
      | none => simpa [hclean] using ⟨hle,hall⟩
      | some e =>
        simp only [Option.toList_some,List.length_cons,List.length_nil]
        refine ⟨by omega,fun heq => List.forall_mem_cons.mpr ⟨hclean,hall (by omega)⟩⟩
    · obtain ⟨hempty,hsome⟩ := readText_unclean py root runId hclean hes
      obtain ⟨e,hentry⟩ := Option.isSome_iff_exists.mp hsome
      have hzero : es.countP (fun fields => !fields.isEmpty) = 0 := by
        rw [List.countP_eq_zero]
        intro fields hf
        simp [hempty fields hf]
      simp only [hentry,hzero,List.length_cons]
      exact ⟨by omega,fun heq => by omega⟩

theorem isSome_of_append {a b : PyStr} (ha : Ended a) (h : (readText py (a++b)).isSome) :
    (readText py a).isSome := by
  rw [readText_append py ha] at h
  cases hread : readText py a with
  | none => simp [hread] at h
  | some es => rfl

theorem entryOf_error {c : Call} {answer : Outcome} (h : entryOf py runId c = .error answer) :
    answer.recorded = none := by
  unfold entryOf clampPercent at h
  split at h
  · split at h
    · cases h
      rfl
    · split at h
      · simp [Except.map] at h
      · split at h <;> cases h <;> rfl
  · cases h
    rfl

theorem run_spec (ledger : Option PyStr) (c : Call) :
    (run py true runId ledger c).2.getD [] =
        ledger.getD []++Event.text py true runId (.call c) ∧
      ((readText py ((run py true runId ledger c).2.getD [])).isSome →
        (run py true runId ledger c).1.recorded = written py true runId c) := by
  simp only [run,written,Event.text]
  cases hentry : entryOf py runId c with
  | error answer =>
    have hanswer : answer.recorded = none := entryOf_error py runId hentry
    simp [hanswer]
  | ok entry =>
    cases herror : c.osError with
    | some message => simp [Outcome.recorded]
    | none =>
      cases hencodes : encodes (entryText py entry) with
      | false => simp [hencodes,Outcome.recorded]
      | true =>
        have hprogress :=
          readProgress_eq py (some (ledger.getD []++entryText py entry++[ch '\n'])) none
        rw [Option.getD_some] at hprogress
        cases hread : readText py (ledger.getD []++entryText py entry++[ch '\n']) with
        | none =>
          rw [hread,Option.map_none] at hprogress
          simp only [hencodes,hprogress,Bool.not_true,Bool.false_eq_true,if_false,if_true]
          exact ⟨by simp [entryLine],fun h => absurd h (by rw [Option.getD_some,hread]; simp)⟩
        | some entries =>
          rw [hread,Option.map_some] at hprogress
          simp only [hencodes,hprogress,Bool.not_true,Bool.false_eq_true,if_false,if_true]
          exact ⟨by simp [entryLine],fun _ => by simp [Outcome.recorded]⟩

theorem runEvents_spec (ledger : Option PyStr) (evs : List (Event py))
    (hended : Ended (ledger.getD [])) :
    (runEvents py true runId ledger evs).2.getD [] =
        ledger.getD []++evs.flatMap (fun ev => ev.text py true runId) ∧
      ((readText py ((runEvents py true runId ledger evs).2.getD [])).isSome →
        (runEvents py true runId ledger evs).1.filterMap Outcome.recorded =
          evs.filterMap fun ev => ev.entry py true runId) := by
  induction evs generalizing ledger with
  | nil => simp [runEvents]
  | cons ev evs ih =>
    have hnext := hended.append (ended_text py true runId ev)
    cases ev with
    | corrupt text hcorrupt =>
      have ih := ih (some (ledger.getD []++text)) hnext
      simp only [Option.getD_some] at ih
      simpa [runEvents,Event.text,Event.entry] using ih
    | call c =>
      obtain ⟨htext,houtcome⟩ := run_spec py runId ledger c
      rw [← htext] at hnext
      obtain ⟨hfinal,houtcomes⟩ := ih (run py true runId ledger c).2 hnext
      simp only [runEvents]
      rw [hfinal,htext] at houtcomes ⊢
      refine ⟨by simp,fun hread => ?_⟩
      have hhead := houtcome (by
        rw [htext] at hnext ⊢
        exact isSome_of_append py hnext hread)
      rw [List.filterMap_cons,List.filterMap_cons,houtcomes hread,hhead]
      rfl

theorem progressSummary_eq {ledger : Option PyStr} {entries : List Entry}
    (h : readProgress py root ledger none = some (entries.map Entry.fields)) (recent : ℤ) :
    progressSummary py root ledger recent = some (summaryOf recent entries) := by
  have hpercent : ∀ e : Entry,
      PyJson.get e.fields (lit "percent") = e.percent.map fun n => .int n.val := by
    intro e
    cases hp : e.percent <;> simp [Entry.fields,PyJson.get,hp,lit,List.lookup_cons]
  have hitem : ∀ e : Entry,
      recentItem e.fields = (.str e.note,e.percent.map fun n => .int n.val) := by
    intro e
    have hnote : PyJson.get e.fields (lit "note") = some (.str e.note) := by
      simp [Entry.fields,PyJson.get,lit,List.lookup_cons]
    simp only [recentItem,hnote,hpercent]
    cases e.percent <;> rfl
  rw [progressSummary,h,Option.map_some,summaryOf,List.getLast?_map]
  cases entries.getLast? with
  | none => rfl
  | some latest =>
    simp only [Option.map_some,hpercent,List.length_map,tail,← List.map_drop,List.map_map]
    have hrecent : recentItem ∘ Entry.fields =
        fun e : Entry => ((.str e.note : Json),e.percent.map fun n => .int n.val) := funext hitem
    rw [hrecent]

theorem roundTrips_iff_read (evs : List (Event py)) :
    RoundTrips py true runId evs ↔
      readText py (evs.flatMap fun ev => ev.text py true runId) =
        some ((evs.filterMap fun ev => ev.entry py true runId).map Entry.fields) := by
  obtain ⟨htext,houtcomes⟩ := runEvents_spec py runId none evs (.inl rfl)
  rw [Option.getD_none,List.nil_append] at htext
  rw [htext] at houtcomes
  unfold RoundTrips
  constructor
  · rintro ⟨hprogress,-⟩
    have hall := hprogress none
    rw [readProgress_eq,htext] at hall
    cases hread : readText py (evs.flatMap fun ev => ev.text py true runId) with
    | none => simp [hread] at hall
    | some entries =>
      rw [houtcomes (by simp [hread]),hread] at hall
      simpa [limited] using hall
  · intro hread
    have hprogress : ∀ limit, readProgress py true (runEvents py true runId none evs).2 limit =
        some (limited limit ((evs.filterMap fun ev => ev.entry py true runId).map Entry.fields)) := by
      intro limit
      rw [readProgress_eq,htext,hread]
      rfl
    rw [← houtcomes (by simp [hread])] at hprogress
    exact ⟨hprogress,progressSummary_eq py true (hprogress none)⟩

theorem recorded_no_root (ledger : Option PyStr) (evs : List (Event py)) :
    (runEvents py false runId ledger evs).1.filterMap Outcome.recorded = [] := by
  induction evs generalizing ledger with
  | nil => rfl
  | cons ev evs ih =>
    cases ev with
    | corrupt text _ => exact ih _
    | call c =>
      have hnone : (run py false runId ledger c).1.recorded = none := by
        unfold run
        cases hentry : entryOf py runId c with
        | error answer => exact entryOf_error py runId hentry
        | ok entry => rfl
      simp only [runEvents]
      rw [List.filterMap_cons,hnone,ih]

theorem roundTrips_no_root (evs : List (Event py)) : RoundTrips py false runId evs := by
  have hnone := recorded_no_root py runId none evs
  unfold RoundTrips
  simp only [hnone]
  refine ⟨fun limit => ?_,progressSummary_eq py false rfl⟩
  cases limit <;> simp [readProgress,limited,tail]

theorem clean_of_roundTrips (h : RoundTrips py true runId evs) :
    ∀ ev ∈ evs, Clean py true runId ev := by
  rw [roundTrips_iff_read] at h
  refine (countP_events py true runId h).2 ?_
  have hall : ∀ fields ∈ (evs.filterMap fun ev => ev.entry py true runId).map Entry.fields,
      (!fields.isEmpty) = true := by
    intro fields hf
    obtain ⟨e,-,rfl⟩ := List.mem_map.mp hf
    simp [fields_ne_nil]
  rw [List.countP_eq_length.mpr hall,List.length_map]

/-- Exactly what the calls with success recorded comes back when no run id or note of an
entry is cut and no line takes `json.loads` too deep; a run without a workspace root records
nothing. -/
theorem ledger_roundTrips_iff (evs : List (Event py)) :
    RoundTrips py root runId evs ↔ root = false ∨ ∀ ev ∈ evs, Clean py root runId ev := by
  cases root with
  | false => simp [roundTrips_no_root]
  | true =>
    constructor
    · exact fun h => .inr (clean_of_roundTrips py runId h)
    · rintro (h | h)
      · simp at h
      · exact (roundTrips_iff_read py runId evs).mpr (readText_events py true runId h)

end Ledger

/-- An interpreter without limits. -/
def plainPython : Python where
  ft := plainFloats
  intOfStr _ := none
  limit _ := none
  limit_entry _ := rfl

/-- A note with a line separator in it. -/
def cutCall : Call :=
  ⟨.str (lit "half\u2028done"),.int 50,⟨2026,1,1,0,0,0⟩,none⟩

def cutEntry : Entry := ⟨lit "run",lit "half\u2028done",some (clamp 50),⟨2026,1,1,0,0,0⟩⟩

theorem written_cutCall : written plainPython true (lit "run") cutCall = some cutEntry := by
  have hencodes : encodes (entryText plainPython cutEntry) = true := by
    rw [encodes_entryText]
    rfl
  exact written_of_entry plainPython true (lit "run") rfl rfl rfl hencodes

theorem cutCall_not_clean : ¬ Clean plainPython true (lit "run") (.call cutCall) := by
  simp only [Clean,written_cutCall]
  decide

/-- A note with a line separator does not come back. -/
theorem cut_note_lost : ¬ RoundTrips plainPython true (lit "run") [.call cutCall] :=
  mt (clean_of_roundTrips plainPython (lit "run")) fun h =>
    cutCall_not_clean (h _ List.mem_cons_self)

end MinimaxCode.ProgressLedger
