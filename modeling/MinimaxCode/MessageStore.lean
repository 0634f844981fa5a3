import MinimaxCode.JsonText
import MinimaxCode.OptionMaps

/-!
# The message store

The chat handler persists every message of a session as a row and rebuilds the history
of the session from its rows. Tool calls go through a JSON column in both directions;
the content column is plain text, and a list is written to it as JSON.
-/

namespace MinimaxCode.Messages

open PyText PyJson OptionMaps

/-- A list of values whose objects have distinct keys, as Python dictionaries do. -/
def ToolCalls : Type := {xs : List Json // allDistinct xs = true}

inductive Content
  | text (s : PyStr)
  | parts (xs : List Json)

/-- What the model and the history agree on. -/
structure Message where
  role : PyStr
  content : Content
  toolCalls : Option ToolCalls
  toolCallId : Option PyStr

/-- The numbers the agent loop attaches to a message. The message that ends a truncated
turn also counts the compactions. -/
structure Metadata where
  thinkingCount : ℤ
  tokensIn : ℤ
  tokensOut : ℤ
  compactions : Option ℤ

/-- The identifier of a row: `msg_` and twelve hexadecimal digits. -/
abbrev MessageId := Fin (16^12)

instance messageIds_neZero : NeZero (16^12) := inferInstance

/-- One call of `_persist`: the message, the identifier drawn for it, and the time. -/
structure Call where
  message : Message
  metadata : Option Metadata
  id : MessageId
  now : ℕ

/-- A row of `messages`. Time stamps are seconds; their texts have a fixed width and
order as the numbers do. -/
structure Row where
  id : MessageId
  sessionId : PyStr
  role : PyStr
  content : PyStr
  toolCalls : Option PyStr
  toolCallId : Option PyStr
  createdAt : ℕ
  tokensIn : ℤ
  tokensOut : ℤ
  metadata : Option PyStr

/-- The sessions, and the messages in the order of their row numbers. -/
structure Db where
  sessions : List PyStr
  messages : List Row

def validRoles : List PyStr := [lit "system",lit "user",lit "assistant",lit "tool"]

/-- An SQLite integer. -/
def fits (n : ℤ) : Bool := -2^63 ≤ n ∧ n < 2^63

/-- Text is bound as UTF-8 and numbers as 64-bit integers; else the statement raises. -/
def Row.binds (r : Row) : Bool :=
  encodes r.sessionId && encodes r.role && encodes r.content && r.toolCalls.all encodes &&
    r.toolCallId.all encodes && r.metadata.all encodes && fits r.tokensIn && fits r.tokensOut

/-- `MessagesDAO.create`: the row is inserted, or an exception leaves the table as it
was. -/
def create (db : Db) (row : Row) : Option Db :=
  if row.role ∈ validRoles ∧ row.binds ∧ row.sessionId ∈ db.sessions ∧
      row.id ∉ db.messages.map Row.id then
    some { db with messages := db.messages++[row] }
  else none

section Store

variable (ft : FloatText)

def Metadata.fields (md : Metadata) : List (PyStr × Json) :=
  [(lit "thinking_count",.int md.thinkingCount),(lit "tokens_in",.int md.tokensIn),
    (lit "tokens_out",.int md.tokensOut)]++
  match md.compactions with
  | none => []
  | some n => [(lit "truncated",.bool true),(lit "compactions",.int n)]

/-- The text of the content column. -/
def contentText : Content → PyStr
  | .text s => s
  | .parts xs => dumps ft true (.arr xs)

def dumpsJson (v : Json) : PyStr := dumps ft false v

/-- The row `_persist` writes. -/
def toRow (sid : PyStr) (c : Call) : Row where
  id := c.id
  sessionId := sid
  role := c.message.role
  content := contentText ft c.message.content
  toolCalls := c.message.toolCalls.map fun calls => dumpsJson ft (.arr calls.val)
  toolCallId := c.message.toolCallId
  createdAt := c.now
  tokensIn := (c.metadata.map Metadata.tokensIn).getD 0
  tokensOut := (c.metadata.map Metadata.tokensOut).getD 0
  metadata := c.metadata.map fun md => dumpsJson ft (.obj md.fields)

/-- `_persist`: a failure is logged and the message is dropped. -/
def persist (sid : PyStr) (db : Db) (c : Call) : Db := (create db (toRow ft sid c)).getD db

def persistAll (sid : PyStr) (db : Db) (calls : List Call) : Db := calls.foldl (persist ft sid) db

/-- `loads_json` of the tool calls. The column is only written from lists, whose texts
SQLite does not take for numbers. -/
def loadToolCalls (s : PyStr) : Option ToolCalls :=
  match h : loads ft s with
  | some (.arr xs) => some ⟨xs,by simpa [Json.distinct] using loads_distinct ft h⟩
  | _ => none

/-- `list_for_session`: ordered by time, rows of one second in the order of their row
numbers, as the index on session and time yields them. -/
def listForSession (db : Db) (sid : PyStr) : List Row :=
  (db.messages.filter fun r => r.sessionId = sid).mergeSort fun r r' => r.createdAt ≤ r'.createdAt

/-- The decoded JSON columns of a row; nothing when one of them does not decode. -/
def hydrate (r : Row) : Option (Option ToolCalls) :=
  if r.metadata.all fun s => (loads ft s).isSome then
    match r.toolCalls with
    | none => some none
    | some s => (loadToolCalls ft s).map some
  else none

/-- A message of the history. Empty fields are left out. -/
def rebuild (r : Row) : Option Message :=
  (hydrate ft r).map fun toolCalls =>
    { role := if r.role = [] then lit "user" else r.role
      content := .text r.content
      toolCalls := toolCalls.filter fun calls => !calls.val.isEmpty
      toolCallId := r.toolCallId.filter fun id => !id.isEmpty }

/-- `_history`: an exception empties it. -/
def history (db : Db) (sid : PyStr) : List Message :=
  ((listForSession db sid).mapM (rebuild ft)).getD []

end Store

/-- A message the history can hold: text, with tool calls and a tool call id that are
absent or not empty. -/
def Plain (m : Message) : Prop :=
  (∃ s, m.content = .text s) ∧ (∀ calls, m.toolCalls = some calls → calls.val ≠ []) ∧
    m.toolCallId ≠ some []

/-- What can be stored of a call, apart from its identifier. -/
def Storable (c : Call) : Prop :=
  c.message.role ∈ validRoles ∧
  (∀ s, c.message.content = .text s → encodes s = true) ∧
  (∀ calls, c.message.toolCalls = some calls → allEncode calls.val = true) ∧
  (∀ id, c.message.toolCallId = some id → encodes id = true) ∧
  ∀ md, c.metadata = some md → fits md.tokensIn = true ∧ fits md.tokensOut = true

/-- The calls can be stored, in a session that exists and under identifiers that are new
and distinct. -/
def Accepted (db : Db) (sid : PyStr) (calls : List Call) : Prop :=
  (∀ c ∈ calls, Storable c ∧ encodes sid = true ∧ sid ∈ db.sessions ∧
    c.id ∉ db.messages.map Row.id) ∧
  (calls.map Call.id).Nodup

/-- Put in the order of their seconds, the messages keep their order. -/
def InOrder (calls : List Call) : Prop :=
  (calls.mergeSort fun c c' => c.now ≤ c'.now).map Call.message = calls.map Call.message

theorem inOrder_of_clock {calls : List Call} (h : calls.Pairwise fun c c' => c.now ≤ c'.now) :
    InOrder calls := by
  rw [InOrder,List.mergeSort_of_pairwise (h.imp fun hle => decide_eq_true hle)]

section RoundTrip

variable (ft : FloatText)

/-- What the history makes of a message. -/
def normal (m : Message) : Message where
  role := if m.role = [] then lit "user" else m.role
  content := .text (contentText ft m.content)
  toolCalls := m.toolCalls.filter fun calls => !calls.val.isEmpty
  toolCallId := m.toolCallId.filter fun id => !id.isEmpty

theorem loadToolCalls_dumps (calls : ToolCalls) :
    loadToolCalls ft (dumpsJson ft (.arr calls.val)) = some calls := by
  have hloads : loads ft (dumpsJson ft (.arr calls.val)) = some (.arr calls.val) :=
    loads_dumps ft false (.arr calls.val) (by simpa [Json.distinct] using calls.property) (by simp)
  unfold loadToolCalls
  split
  · next xs h =>
    have hxs : xs = calls.val := by simpa [h] using hloads
    exact congrArg some (Subtype.ext hxs)
  · next h => exact absurd hloads (h _)

theorem metadata_distinct (md : Metadata) : (Json.obj md.fields).distinct = true := by
  cases h : md.compactions <;>
    simp [Json.distinct,fieldsDistinct_iff,Metadata.fields,h] <;> decide

theorem hydrate_toRow (sid : PyStr) (c : Call) :
    hydrate ft (toRow ft sid c) = some c.message.toolCalls := by
  have hmetadata : (toRow ft sid c).metadata.all (fun s => (loads ft s).isSome) = true := by
    cases hmd : c.metadata with
    | none => simp [toRow,hmd]
    | some md =>
      have hloads := loads_dumps ft false (.obj md.fields) (metadata_distinct md) (by simp)
      simp [toRow,hmd,dumpsJson,hloads]
  rw [hydrate,if_pos hmetadata]
  cases htc : c.message.toolCalls with
  | none => simp [toRow,htc]
  | some calls => simp [toRow,htc,loadToolCalls_dumps]

theorem rebuild_toRow (sid : PyStr) (c : Call) :
    rebuild ft (toRow ft sid c) = some (normal ft c.message) := by
  rw [rebuild,hydrate_toRow]
  rfl

/-- The row can be inserted. -/
def accepts (sid : PyStr) (db : Db) (c : Call) : Bool := (create db (toRow ft sid c)).isSome

/-- The calls whose rows are inserted. -/
def stored (sid : PyStr) : Db → List Call → List Call
  | _, [] => []
  | db, c::cs =>
    if accepts ft sid db c then c::stored sid (persist ft sid db c) cs
    else stored sid (persist ft sid db c) cs

theorem persist_eq (sid : PyStr) (db : Db) (c : Call) :
    persist ft sid db c =
      if accepts ft sid db c then { db with messages := db.messages++[toRow ft sid c] } else db := by
  unfold persist accepts create
  split <;> simp

theorem persistAll_messages (sid : PyStr) (db : Db) (calls : List Call) :
    (persistAll ft sid db calls).messages =
      db.messages++(stored ft sid db calls).map (toRow ft sid) := by
  induction calls generalizing db with
  | nil => simp [persistAll,stored]
  | cons c cs ih =>
    have htail : persistAll ft sid db (c::cs) = persistAll ft sid (persist ft sid db c) cs := rfl
    rw [htail,ih]
    by_cases h : accepts ft sid db c
    · simp [stored,h,persist_eq]
    · simp [stored,h,persist_eq]

theorem stored_sublist (sid : PyStr) (db : Db) (calls : List Call) :
    (stored ft sid db calls).Sublist calls := by
  induction calls generalizing db with
  | nil => exact .slnil
  | cons c cs ih =>
    rw [stored]
    split
    · exact (ih _).cons_cons c
    · exact (ih _).cons c

theorem binds_toRow (sid : PyStr) (c : Call) (hrole : c.message.role ∈ validRoles) :
    (toRow ft sid c).binds = true ↔ encodes sid = true ∧ Storable c := by
  have hroles : ∀ r ∈ validRoles, encodes r = true := by simp [validRoles]
  have hcontent : encodes (contentText ft c.message.content) = true ↔
      ∀ s, c.message.content = .text s → encodes s = true := by
    cases c.message.content with
    | text s => simp [contentText]
    | parts xs => simp [contentText,encodes_dumps]
  have hmd : ∀ md : Metadata, fieldsEncode md.fields = true := by
    intro md
    cases h : md.compactions <;> simp [Json.encodes,fieldsEncode,Metadata.fields,h]
  have hzero : fits 0 = true := by decide
  cases htc : c.message.toolCalls <;> cases hid : c.message.toolCallId <;>
    cases hm : c.metadata <;>
    simp [Row.binds,toRow,Storable,hrole,hroles _ hrole,hcontent,htc,hid,hm,hmd,hzero,dumpsJson,
      encodes_dumps,Json.encodes] <;> tauto

theorem create_isSome_iff (db : Db) (row : Row) :
    (create db row).isSome ↔ row.role ∈ validRoles ∧ row.binds = true ∧
      row.sessionId ∈ db.sessions ∧ row.id ∉ db.messages.map Row.id := by
  unfold create
  split <;> simp_all

theorem accepts_iff (sid : PyStr) (db : Db) (c : Call) :
    accepts ft sid db c = true ↔
      Storable c ∧ encodes sid = true ∧ sid ∈ db.sessions ∧ c.id ∉ db.messages.map Row.id := by
  have hcreate : accepts ft sid db c = true ↔ c.message.role ∈ validRoles ∧
      (toRow ft sid c).binds = true ∧ sid ∈ db.sessions ∧ c.id ∉ db.messages.map Row.id :=
    create_isSome_iff db (toRow ft sid c)
  rw [hcreate]
  constructor
  · intro h
    have hb := (binds_toRow ft sid c h.1).mp h.2.1
    exact ⟨hb.2,hb.1,h.2.2⟩
  · intro h
    exact ⟨h.1.1,(binds_toRow ft sid c h.1.1).mpr ⟨h.2.1,h.1⟩,h.2.2⟩

theorem stored_eq_iff (sid : PyStr) (db : Db) (calls : List Call) :
    stored ft sid db calls = calls ↔ Accepted db sid calls := by
  induction calls generalizing db with
  | nil => simp [stored,Accepted]
  | cons c cs ih =>
    by_cases h : accepts ft sid db c
    · have hc := (accepts_iff ft sid db c).mp h
      have hnext : persist ft sid db c = { db with messages := db.messages++[toRow ft sid c] } := by
        rw [persist_eq,if_pos h]
      have hids : ∀ d : Call, d.id ∉ (db.messages++[toRow ft sid c]).map Row.id ↔
          d.id ∉ db.messages.map Row.id ∧ d.id ≠ c.id := by
        intro d
        rw [List.map_append,List.mem_append,not_or,List.map_singleton,List.mem_singleton]
        rfl
      rw [stored,if_pos h,List.cons.injEq,ih,hnext]
      simp only [true_and,Accepted,hids,List.forall_mem_cons,List.map_cons,List.nodup_cons]
      constructor
      · intro hcs
        refine ⟨⟨hc,?_⟩,?_,hcs.2⟩
        · intro d hd
          have hd' := hcs.1 d hd
          exact ⟨hd'.1,hd'.2.1,hd'.2.2.1,hd'.2.2.2.1⟩
        · intro hm
          obtain ⟨d,hd,heq⟩ := List.mem_map.mp hm
          exact (hcs.1 d hd).2.2.2.2 heq
      · intro hall
        refine ⟨?_,hall.2.2⟩
        intro d hd
        have hd' := hall.1.2 d hd
        have hne : d.id ≠ c.id := fun heq => hall.2.1 (heq ▸ List.mem_map_of_mem hd)
        exact ⟨hd'.1,hd'.2.1,hd'.2.2.1,hd'.2.2.2,hne⟩
    · have hshort : stored ft sid db (c::cs) ≠ c::cs := by
        intro heq
        have hlen := (stored_sublist ft sid (persist ft sid db c) cs).length_le
        rw [stored,if_neg h] at heq
        rw [heq,List.length_cons] at hlen
        omega
      have hnot : ¬ Accepted db sid (c::cs) := by
        intro hacc
        exact h ((accepts_iff ft sid db c).mpr (hacc.1 c List.mem_cons_self))
      exact ⟨fun heq => absurd heq hshort,fun hacc => absurd hacc hnot⟩

theorem history_persistAll {db : Db} {sid : PyStr} (hnew : ∀ r ∈ db.messages, r.sessionId ≠ sid)
    (calls : List Call) : history ft (persistAll ft sid db calls) sid =
      ((stored ft sid db calls).mergeSort fun c c' => c.now ≤ c'.now).map
        fun c => normal ft c.message := by
  have hold : db.messages.filter (fun r => decide (r.sessionId = sid)) = [] := by
    simpa using hnew
  have hrows : listForSession (persistAll ft sid db calls) sid =
      ((stored ft sid db calls).mergeSort fun c c' => c.now ≤ c'.now).map (toRow ft sid) := by
    rw [listForSession,persistAll_messages,List.filter_append,hold,List.nil_append,
      List.filter_eq_self.mpr]
    · rw [List.map_mergeSort]
      intro c _ c' _
      rfl
    · intro r hr
      obtain ⟨c,_,rfl⟩ := List.mem_map.mp hr
      simp [toRow]
  rw [history,hrows,List.mapM_map]
  have hrebuild : ∀ cs : List Call, cs.mapM (rebuild ft ∘ toRow ft sid) =
      some (cs.map fun c => normal ft c.message) :=
    fun cs => mapM_some fun c _ => rebuild_toRow ft sid c
  rw [hrebuild,Option.getD_some]

theorem plain_normal (m : Message) : Plain (normal ft m) := by
  refine ⟨⟨_,rfl⟩,?_,?_⟩
  · intro calls hcalls
    have hne := (Option.filter_eq_some_iff.mp hcalls).2
    simpa using hne
  · intro hid
    have hne := (Option.filter_eq_some_iff.mp hid).2
    simp at hne

theorem normal_of_plain {m : Message} (hrole : m.role ∈ validRoles) (h : Plain m) :
    normal ft m = m := by
  obtain ⟨⟨s,hs⟩,hcalls,hid⟩ := h
  have hne : m.role ≠ [] := by
    intro hn
    rw [hn] at hrole
    revert hrole
    decide
  have htc : (m.toolCalls.filter fun calls => !calls.val.isEmpty) = m.toolCalls := by
    cases htc : m.toolCalls with
    | none => rfl
    | some calls => simp [Option.filter,hcalls calls htc]
  have hti : (m.toolCallId.filter fun id => !id.isEmpty) = m.toolCallId := by
    cases hti : m.toolCallId with
    | none => rfl
    | some id =>
      have hnil : id ≠ [] := fun hn => hid (hn ▸ hti)
      simp [Option.filter,hnil]
  rw [normal,if_neg hne,hs,htc,hti,contentText,← hs]

/-- A new session is rebuilt as it was persisted exactly when its messages are plain,
all of them are stored, and their seconds keep their order. -/
theorem history_persistAll_iff {db : Db} {sid : PyStr}
    (hnew : ∀ r ∈ db.messages, r.sessionId ≠ sid) (calls : List Call) :
    history ft (persistAll ft sid db calls) sid = calls.map Call.message ↔
      (∀ c ∈ calls, Plain c.message) ∧ Accepted db sid calls ∧ InOrder calls := by
  have hnormal : ∀ cs : List Call, (∀ c ∈ cs, c.message.role ∈ validRoles ∧ Plain c.message) →
      cs.map (fun c => normal ft c.message) = cs.map Call.message := by
    intro cs hcs
    apply List.map_congr_left
    intro c hc
    exact normal_of_plain ft (hcs c hc).1 (hcs c hc).2
  have hsorted : ∀ c, c ∈ (calls.mergeSort fun c c' => c.now ≤ c'.now) ↔ c ∈ calls :=
    fun c => (List.mergeSort_perm calls _).mem_iff
  rw [history_persistAll ft hnew]
  constructor
  · intro h
    have hlen := congrArg List.length h
    rw [List.length_map,List.length_map,List.length_mergeSort] at hlen
    have hstored := (stored_sublist ft sid db calls).eq_of_length hlen
    have haccepted := (stored_eq_iff ft sid db calls).mp hstored
    have hplain : ∀ c ∈ calls, Plain c.message := by
      intro c hc
      have hm : c.message ∈ calls.map Call.message := List.mem_map_of_mem hc
      rw [← h] at hm
      obtain ⟨c',_,hc'⟩ := List.mem_map.mp hm
      rw [← hc']
      exact plain_normal ft c'.message
    refine ⟨hplain,haccepted,?_⟩
    rw [hstored] at h
    rw [InOrder,← h,hnormal]
    intro c hc
    have hc' := (hsorted c).mp hc
    exact ⟨(haccepted.1 c hc').1.1,hplain c hc'⟩
  · rintro ⟨hplain,haccepted,horder⟩
    rw [(stored_eq_iff ft sid db calls).mpr haccepted,hnormal,horder]
    intro c hc
    have hc' := (hsorted c).mp hc
    exact ⟨(haccepted.1 c hc').1.1,hplain c hc'⟩

end RoundTrip

/-- One session and no messages. -/
def plainDb : Db := ⟨[lit "s"],[]⟩

def plainCall (content : Content) : Call :=
  ⟨⟨lit "user",content,none,none⟩,none,0,0⟩

theorem history_persistAll_plain :
    history plainFloats (persistAll plainFloats (lit "s") plainDb [plainCall (.text (lit "hi"))])
      (lit "s") = [(plainCall (.text (lit "hi"))).message] := by
  apply (history_persistAll_iff plainFloats (by simp [plainDb]) _).mpr
  refine ⟨?_,?_,?_⟩
  · simp [Plain,plainCall]
  · simp [Accepted,Storable,plainCall,plainDb,validRoles]
  · exact inOrder_of_clock (List.pairwise_singleton _ _)

/-- A message whose content is a list comes back as text. -/
theorem history_of_parts :
    history plainFloats (persistAll plainFloats (lit "s") plainDb [plainCall (.parts [.str (lit "hi")])])
      (lit "s") ≠ [(plainCall (.parts [.str (lit "hi")])).message] := by
  intro h
  rw [history_persistAll plainFloats (by simp [plainDb])] at h
  have hm : (plainCall (.parts [.str (lit "hi")])).message ∈
      [(plainCall (.parts [.str (lit "hi")])).message] := List.mem_singleton_self _
  rw [← h] at hm
  obtain ⟨c,_,hc⟩ := List.mem_map.mp hm
  have hplain := plain_normal plainFloats c.message
  rw [hc] at hplain
  simp [Plain,plainCall] at hplain

end MinimaxCode.Messages
