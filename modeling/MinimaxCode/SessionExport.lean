import MinimaxCode.MessagePages

/-!
# Exporting a session

`session.get` and `session.export` read the newest messages of a session and order them by
second and identifier. Identifiers are drawn at random, so the messages of one second come back
in the order in which they were added only where their identifiers happen to rise.
-/

namespace MinimaxCode.Messages

open PyText PyJson OptionMaps

/-- A row as `get_messages` answers it: only the tool calls are decoded. -/
structure Fetched where
  row : Row
  toolCalls : Option ToolCalls

/-- `ORDER BY created_at DESC, id DESC`. -/
def newerFirst (r r' : Row) : Bool :=
  r'.createdAt < r.createdAt || (r'.createdAt == r.createdAt && r'.id ≤ r.id)

/-- The limit, with 1 in place of 0, clamped to 1 and 1000. -/
def effectiveLimit (limit : ℤ) : ℕ := (max 1 (min (if limit = 0 then 1 else limit) 1000)).toNat

/-- The rows of the query of `get_messages`. -/
def fetchRows (db : Db) (sid : PyStr) (limit : ℤ) : List Row :=
  ((sessionRows db sid).mergeSort newerFirst).take (effectiveLimit limit)

section Handler

variable (ft : FloatText)

/-- `loads_json` of the tool calls of a row. -/
def fetch (r : Row) : Option Fetched :=
  match r.toolCalls with
  | none => some ⟨r,none⟩
  | some s => (loadToolCalls ft s).map fun calls => ⟨r,some calls⟩

/-- `get_messages`; nothing when a column does not decode. -/
def getMessages (db : Db) (sid : PyStr) (limit : ℤ) : Option (List Fetched) :=
  (fetchRows db sid limit).mapM (fetch ft)

/-- A session as Markdown, or an error. -/
inductive Exported
  | markdown (text : PyStr)
  | error (code : ℤ) (message : PyStr)
  deriving DecidableEq

variable (title : PyStr → PyStr) (stampText : ℕ → PyStr) (pyRepr : PyStr → PyStr) (exc : PyStr)

/-- The lines of one message. Rows have no tool name, so every tool is called `tool`. -/
def exportLines (r : Row) : List PyStr :=
  [lit "<!-- created_at: "++stampText r.createdAt++lit " -->\n"]++
  (if r.role = lit "user" then [lit "## User\n",r.content++lit "\n"]
  else if r.role = lit "tool" then [lit "### Tool: tool\n",r.content++lit "\n"]
  else [lit "## Assistant\n",r.content++lit "\n"])++
  [lit ""]

def exportMarkdown (sid : PyStr) (rows : List Row) : PyStr :=
  let heading := if (title sid).isEmpty then lit "Untitled session" else title sid
  strip (List.intercalate (lit "\n")
    ([lit "# "++heading++lit "\n",lit "<!-- session_id: "++sid++lit " -->\n"]++
      rows.flatMap (exportLines stampText)))

/-- `handle_session_export`. -/
def sessionExport (db : Db) (sid : PyStr) : Exported :=
  if sid ∉ db.sessions then .error invalidParams (lit "unknown session_id: "++pyRepr sid)
  else
    match getMessages ft db sid 1000 with
    | none => .error internalError (lit "session.export failed: "++exc)
    | some fetched =>
      .markdown (exportMarkdown title stampText sid (fetched.map Fetched.row).reverse)

end Handler

/-- The first message is of an earlier second, or of the same one with a smaller identifier. -/
def Rises (r r' : Row) : Prop :=
  r.createdAt < r'.createdAt ∨ r.createdAt = r'.createdAt ∧ r.id < r'.id

section Order

variable {rows : List Row}

theorem newerFirst_iff {r r' : Row} : newerFirst r r' = true ↔
    r'.createdAt < r.createdAt ∨ r'.createdAt = r.createdAt ∧ r'.id.val ≤ r.id.val := by
  rw [newerFirst,Bool.or_eq_true,Bool.and_eq_true,decide_eq_true_eq,beq_iff_eq,decide_eq_true_eq,
    Fin.le_def]

theorem rises_iff {r r' : Row} : Rises r r' ↔
    r.createdAt < r'.createdAt ∨ r.createdAt = r'.createdAt ∧ r.id.val < r'.id.val := by
  rw [Rises,Fin.lt_def]

theorem newerFirst_trans (a b c : Row) (hab : newerFirst a b = true) (hbc : newerFirst b c = true) :
    newerFirst a c = true := by
  rw [newerFirst_iff] at *
  omega

theorem newerFirst_total (a b : Row) : (newerFirst a b || newerFirst b a) = true := by
  rw [Bool.or_eq_true,newerFirst_iff,newerFirst_iff]
  omega

theorem sorted_eq_reverse_iff (hids : (rows.map Row.id).Nodup) :
    rows.mergeSort newerFirst = rows.reverse ↔ rows.Pairwise Rises := by
  have hsorted := List.pairwise_mergeSort newerFirst_trans newerFirst_total rows
  constructor
  · intro h
    rw [h,List.pairwise_reverse] at hsorted
    refine (hsorted.and (List.pairwise_map.mp hids)).imp fun {r r'} hboth => ?_
    obtain ⟨hle,hne⟩ := hboth
    rw [newerFirst_iff] at hle
    rw [rises_iff]
    have hval := Fin.val_ne_of_ne hne
    omega
  · intro h
    have hreverse : rows.reverse.Pairwise fun r r' => newerFirst r r' = true := by
      rw [List.pairwise_reverse]
      refine h.imp fun {r r'} hrises => ?_
      rw [rises_iff] at hrises
      rw [newerFirst_iff]
      omega
    refine ((List.mergeSort_perm rows _).trans (List.reverse_perm rows).symm).eq_of_pairwise
      (fun r r' hr hr' hle hge => ?_) hsorted hreverse
    rw [newerFirst_iff] at hle hge
    have hid : r.id = r'.id := Fin.ext (by omega)
    exact List.inj_on_of_nodup_map hids (List.mem_mergeSort.mp hr) (List.mem_reverse.mp hr') hid

theorem take_sorted_iff (hids : (rows.map Row.id).Nodup) (k : ℕ) :
    (rows.mergeSort newerFirst).take k = rows.reverse ↔ rows.length ≤ k ∧ rows.Pairwise Rises := by
  rw [← sorted_eq_reverse_iff hids]
  constructor
  · intro h
    have hlength := congrArg List.length h
    rw [List.length_take,List.length_mergeSort,List.length_reverse] at hlength
    have hk : rows.length ≤ k := by omega
    rw [List.take_of_length_le (by rw [List.length_mergeSort]; exact hk)] at h
    exact ⟨hk,h⟩
  · rintro ⟨hk,h⟩
    rw [List.take_of_length_le (by rw [List.length_mergeSort]; exact hk),h]

end Order

section Exact

variable (ft : FloatText) (title : PyStr → PyStr) (stampText : ℕ → PyStr) (pyRepr : PyStr → PyStr)
  (exc : PyStr) {db : Db} {sid : PyStr}

/-- The rows that calls add to a session, in the order of the calls. -/
def added (sid : PyStr) (db : Db) (calls : List Call) : List Row :=
  (stored ft sid db calls).map (toRow ft sid)

theorem sessionRows_persistAll (hnew : ∀ r ∈ db.messages, r.sessionId ≠ sid) (calls : List Call) :
    sessionRows (persistAll ft sid db calls) sid = added ft sid db calls := by
  have hold : db.messages.filter (fun r => decide (r.sessionId = sid)) = [] := by
    simpa using hnew
  rw [sessionRows,persistAll_messages,List.filter_append,hold,List.nil_append,added]
  refine List.filter_eq_self.mpr fun r hr => ?_
  obtain ⟨c,_,rfl⟩ := List.mem_map.mp hr
  exact decide_eq_true rfl

theorem nodup_added (db : Db) (calls : List Call) :
    ((added ft sid db calls).map Row.id).Nodup ∧
      ∀ r ∈ added ft sid db calls, r.id ∉ db.messages.map Row.id := by
  induction calls generalizing db with
  | nil => exact ⟨.nil,fun r hr => absurd hr List.not_mem_nil⟩
  | cons c cs ih =>
    obtain ⟨hnodup,hfresh⟩ := ih (persist ft sid db c)
    rw [added,stored]
    split
    · next hc =>
      rw [persist_eq,if_pos hc] at hnodup hfresh ⊢
      have hids : ∀ r ∈ added ft sid { db with messages := db.messages++[toRow ft sid c] } cs,
          r.id ∉ db.messages.map Row.id ∧ r.id ≠ c.id := by
        intro r hr
        have hnot := hfresh r hr
        rw [List.map_append,List.mem_append,not_or,List.map_singleton,List.mem_singleton] at hnot
        exact hnot
      rw [List.map_cons,List.map_cons,List.nodup_cons]
      refine ⟨⟨fun hmem => ?_,hnodup⟩,fun r hr => ?_⟩
      · obtain ⟨r,hr,heq⟩ := List.mem_map.mp hmem
        exact (hids r hr).2 heq
      · cases List.mem_cons.mp hr with
        | inl heq =>
          rw [heq]
          exact ((accepts_iff ft sid db c).mp hc).2.2.2
        | inr hr => exact (hids r hr).1
    · next hc =>
      rw [persist_eq,if_neg hc] at hnodup hfresh ⊢
      exact ⟨hnodup,hfresh⟩

theorem fetch_toRow (c : Call) :
    fetch ft (toRow ft sid c) = some ⟨toRow ft sid c,c.message.toolCalls⟩ := by
  rw [fetch]
  cases hcalls : c.message.toolCalls with
  | none => simp [toRow,hcalls]
  | some calls => simp [toRow,hcalls,loadToolCalls_dumps]

theorem getMessages_rows (hnew : ∀ r ∈ db.messages, r.sessionId ≠ sid) (calls : List Call) (limit : ℤ) :
    (getMessages ft (persistAll ft sid db calls) sid limit).map (List.map Fetched.row) =
      some (fetchRows (persistAll ft sid db calls) sid limit) := by
  have hsome : ((fetchRows (persistAll ft sid db calls) sid limit).mapM (fetch ft)).isSome := by
    refine mapM_isSome_iff.mpr fun r hr => ?_
    rw [fetchRows,sessionRows_persistAll ft hnew] at hr
    obtain ⟨c,_,rfl⟩ := List.mem_map.mp (List.mem_mergeSort.mp (List.mem_of_mem_take hr))
    rw [fetch_toRow]
    rfl
  obtain ⟨fetched,hfetched⟩ := Option.isSome_iff_exists.mp hsome
  have hrow : ∀ r f, fetch ft r = some f → f.row = r := by
    intro r f hf
    rw [fetch] at hf
    split at hf
    · cases hf
      rfl
    · obtain ⟨_,_,rfl⟩ := Option.map_eq_some_iff.mp hf
      rfl
  have hmap := map_of_mapM (q := id) hrow hfetched
  rw [getMessages,hfetched,Option.map_some,hmap,List.map_id]

theorem persistAll_sessions (db : Db) (calls : List Call) :
    (persistAll ft sid db calls).sessions = db.sessions := by
  induction calls generalizing db with
  | nil => rfl
  | cons c cs ih =>
    have hstep : (persist ft sid db c).sessions = db.sessions := by
      rw [persist_eq]
      split <;> rfl
    exact (ih _).trans hstep

theorem sessionExport_rows (hnew : ∀ r ∈ db.messages, r.sessionId ≠ sid) (hsid : sid ∈ db.sessions)
    (calls : List Call) : sessionExport ft title stampText pyRepr exc (persistAll ft sid db calls) sid =
      .markdown (exportMarkdown title stampText sid
        (fetchRows (persistAll ft sid db calls) sid 1000).reverse) := by
  have hrows := getMessages_rows ft hnew calls 1000
  obtain ⟨fetched,hfetched,heq⟩ := Option.map_eq_some_iff.mp hrows
  rw [sessionExport,persistAll_sessions,if_neg (not_not_intro hsid),hfetched,← heq]

/-- In every session the messages that were added come back, each once, the last one first,
exactly when the limit covers them and they were added in the order of seconds and identifiers.
The export shows them in the order in which they were added exactly when this holds of it. -/
theorem chronological_iff (hnew : ∀ r ∈ db.messages, r.sessionId ≠ sid) (hsid : sid ∈ db.sessions)
    (calls : List Call) (limit : ℤ) :
    ((getMessages ft (persistAll ft sid db calls) sid limit).map (List.map Fetched.row) =
        some (added ft sid db calls).reverse ↔
      (added ft sid db calls).length ≤ effectiveLimit limit ∧
        (added ft sid db calls).Pairwise Rises) ∧
    ∃ rows, sessionExport ft title stampText pyRepr exc (persistAll ft sid db calls) sid =
        .markdown (exportMarkdown title stampText sid rows) ∧
      (rows = added ft sid db calls ↔
        (added ft sid db calls).length ≤ 1000 ∧ (added ft sid db calls).Pairwise Rises) := by
  have hids : ((added ft sid db calls).map Row.id).Nodup := (nodup_added ft db calls).1
  have hrows : ∀ limit, fetchRows (persistAll ft sid db calls) sid limit =
      ((added ft sid db calls).mergeSort newerFirst).take (effectiveLimit limit) := by
    intro limit
    rw [fetchRows,sessionRows_persistAll ft hnew]
  refine ⟨?_,_,sessionExport_rows ft title stampText pyRepr exc hnew hsid calls,?_⟩
  · rw [getMessages_rows ft hnew,Option.some.injEq,hrows,take_sorted_iff hids]
  · rw [List.reverse_eq_iff,hrows,take_sorted_iff hids]
    rfl

/-- A new session in an empty database. -/
def newSession : Db := ⟨[lit "ses_1"],[]⟩

def plainMessage (role text : String) : Message := ⟨lit role,.text (lit text),none,none⟩

/-- A question and its answer, with the seconds and the identifiers that are drawn for them. -/
def exchange (id id' : MessageId) (now now' : ℕ) : List Call :=
  [⟨plainMessage "user" "question",none,id,now⟩,⟨plainMessage "assistant" "answer",none,id',now'⟩]

theorem chronological_exchange :
    let db := persistAll plainFloats (lit "ses_1") newSession (exchange 2 1 0 1)
    let rows := added plainFloats (lit "ses_1") newSession (exchange 2 1 0 1)
    ((getMessages plainFloats db (lit "ses_1") 100).map (List.map Fetched.row) = some rows.reverse ↔
      rows.length ≤ effectiveLimit 100 ∧ rows.Pairwise Rises) ∧
    ∃ shown, sessionExport plainFloats (fun s => s) (fun _ => []) (fun s => s) [] db (lit "ses_1") =
        .markdown (exportMarkdown (fun s => s) (fun _ => []) (lit "ses_1") shown) ∧
      (shown = rows ↔ rows.length ≤ 1000 ∧ rows.Pairwise Rises) :=
  chronological_iff plainFloats (fun s => s) (fun _ => []) (fun s => s) [] (by decide) (by decide) _ 100

/-- The text of every second. -/
def newYear (_ : ℕ) : PyStr := lit "2026-01-01T00:00:00Z"

/-- Within a second the answer comes before the question when its identifier is smaller. -/
theorem answer_before_question :
    let db := persistAll plainFloats (lit "ses_1") newSession (exchange 2 1 0 0)
    (added plainFloats (lit "ses_1") newSession (exchange 2 1 0 0)).map Row.content =
        [lit "question",lit "answer"] ∧
      (getMessages plainFloats db (lit "ses_1") 100).map (List.map fun f => f.row.content) =
        some [lit "question",lit "answer"] ∧
      sessionExport plainFloats (fun _ => []) newYear (fun s => s) [] db (lit "ses_1") =
        .markdown (lit ("# Untitled session\n\n<!-- session_id: ses_1 -->\n\n"++
          "<!-- created_at: 2026-01-01T00:00:00Z -->\n\n## Assistant\n\nanswer\n\n\n"++
          "<!-- created_at: 2026-01-01T00:00:00Z -->\n\n## User\n\nquestion")) := by
  dsimp only
  have hsorted : (sessionRows (persistAll plainFloats (lit "ses_1") newSession (exchange 2 1 0 0))
      (lit "ses_1")).mergeSort newerFirst =
        sessionRows (persistAll plainFloats (lit "ses_1") newSession (exchange 2 1 0 0)) (lit "ses_1") :=
    List.mergeSort_of_pairwise (by decide +kernel)
  refine ⟨by decide +kernel,?_,?_⟩
  · rw [getMessages,fetchRows,hsorted]
    decide +kernel
  · rw [sessionExport,getMessages,fetchRows,hsorted]
    decide +kernel

end Exact

end MinimaxCode.Messages
