import MinimaxCode.KeysetPages
import MinimaxCode.MessageStore
import MinimaxCode.OptionMaps
import MinimaxCode.OrderedDict
import MinimaxCode.SharedMemoryIsolation

/-!
# Paging through a session

`message.list` answers with the newest messages before a cursor, the oldest of them first.
A client walks back through a session by passing the time stamp of the oldest message it
was shown. The walk shows the whole session exactly when every full page ends between two
seconds.
-/

namespace MinimaxCode.Messages

open PyText PyJson OptionMaps OrderedDict KeysetPages SharedMemory

def invalidParams : ℤ := -32602

def internalError : ℤ := -32603

/-- `before`: absent, the text of a time stamp, or a value that is not a text. -/
inductive Cursor
  | absent
  | stamp (t : ℕ)
  | notText

structure ListParams where
  sessionId : PyStr
  limit : Json
  before : Cursor

/-- What a tool message shows of the call it answers. -/
structure ToolInfo where
  name : PyStr
  args : Json

/-- A message as the frontend receives it. -/
structure Shown where
  id : MessageId
  role : PyStr
  text : PyStr
  streaming : Bool
  createdAt : ℕ
  toolCallId : Option PyStr
  tool : Option ToolInfo
  metadata : Option Json
  toolCalls : Option ToolCalls

inductive Reply
  | messages (shown : List Shown)
  | error (code : ℤ) (message : PyStr)

/-- A row with its decoded JSON columns. -/
structure Hydrated where
  row : Row
  toolCalls : Option ToolCalls
  metadata : Option Json

/-- `a or b`. -/
def pyOr (a b : Json) : Json := if truthy a then a else b

/-- `fields.get(key)`. -/
def field (fields : List (PyStr × Json)) (key : PyStr) : Json := (get fields key).getD .null

section Handler

variable (ft : FloatText) (intOfStr : PyStr → Option ℤ) (pyStr : Json → PyStr)
  (pyLoads : PyStr → LoadsOutcome)

/-- `_clamp_int`; nothing for an infinity, at which `int` overflows. -/
def clampInt (value : Json) (default lo hi : ℤ) : Option ℤ :=
  if value.isNull then some default
  else
    match pyInt intOfStr value with
    | .value n => some (max lo (min n hi))
    | .rejected => some default
    | .raises => none

/-- `str`. -/
def pyText : Json → PyStr
  | .str s => s
  | v => pyStr v

/-- `_decode_tool_args`; nothing when `json.loads` raises more than a decode error. -/
def decodeToolArgs : Json → Option Json
  | .null => some .null
  | .obj fields => some (.obj fields)
  | .str s =>
    match pyLoads s with
    | .decodeError _ => some (.obj [(lit "arguments",.str s)])
    | .value (.obj fields) => some (.obj fields)
    | .value v => some (.obj [(lit "arguments",v)])
    | _ => none
  | v => some (.obj [(lit "arguments",v)])

/-- What one tool call adds to the index. -/
def indexEntry : Json → Option (List (PyStr × ToolInfo))
  | .obj call =>
    let callId := strip (pyText pyStr (pyOr (field call (lit "id")) (.str [])))
    if callId = [] then some []
    else
      let fn := match get call (lit "function") with
        | some (.obj fn) => fn
        | _ => []
      let name := pyText pyStr
        (pyOr (pyOr (field call (lit "name")) (field fn (lit "name"))) (.str (lit "tool")))
      let rawArgs := field call (lit "args")
      let rawArgs := if rawArgs.isNull then field call (lit "arguments") else rawArgs
      let rawArgs := if rawArgs.isNull then field fn (lit "arguments") else rawArgs
      (decodeToolArgs pyLoads rawArgs).map fun args => [(callId,⟨name,args⟩)]
  | _ => some []

/-- What the tool calls of a row add to the index. -/
def rowEntries (h : Hydrated) : Option (List (PyStr × ToolInfo)) :=
  match h.toolCalls with
  | none => some []
  | some calls => (calls.val.mapM (indexEntry pyStr pyLoads)).map List.flatten

def toolCallIndex (rows : List Hydrated) : Option (List (PyStr × ToolInfo)) :=
  (rows.mapM (rowEntries pyStr pyLoads)).map fun entries => ofItems entries.flatten

/-- `_hydrate`. -/
def hydrateRow (r : Row) : Option Hydrated :=
  (hydrate ft r).map fun toolCalls => ⟨r,toolCalls,r.metadata.bind (loads ft)⟩

/-- `list_for_session` with a cursor and `order_by="created_at DESC"`: the index is read
backwards. -/
def listBefore (db : Db) (sid : PyStr) (before : Option ℕ) (limit : ℤ) : List Row :=
  let rows := (db.messages.filter fun r =>
    r.sessionId = sid ∧ before.all (r.createdAt < ·)).mergeSort
      fun r r' => r.createdAt ≤ r'.createdAt
  if limit ≤ 0 then rows.reverse else rows.reverse.take limit.toNat

def Hydrated.shown (index : List (PyStr × ToolInfo)) (h : Hydrated) : Shown :=
  let toolCallId := h.row.toolCallId.filter fun id => !id.isEmpty
  { id := h.row.id
    role := h.row.role
    text := h.row.content
    streaming := false
    createdAt := h.row.createdAt
    toolCallId
    tool := if h.row.role = lit "tool" then toolCallId.bind (lookup index) else none
    metadata := h.metadata.filter truthy
    toolCalls := h.toolCalls.filter fun calls => !calls.val.isEmpty }

/-- The rows of a page as messages, the oldest first. -/
def showRows (rows : List Row) : Option (List Shown) := do
  let rows := (← rows.mapM (hydrateRow ft)).reverse
  let index ← toolCallIndex pyStr pyLoads rows
  return rows.map (Hydrated.shown index)

/-- `handle_message_list`. -/
def messageList (db : Db) (p : ListParams) : Reply :=
  match clampInt intOfStr p.limit 100 1 500,p.before with
  | none,_ => .error internalError (lit "message.list failed")
  | some _,.notText => .error invalidParams (lit "before must be an ISO timestamp string")
  | some limit,.absent => answer (listBefore db p.sessionId none limit)
  | some limit,.stamp t => answer (listBefore db p.sessionId (some t) limit)
where
  answer (rows : List Row) : Reply :=
    match showRows ft pyStr pyLoads rows with
    | none => .error internalError (lit "message.list failed")
    | some shown => .messages shown

/-- The pages a client receives from a cursor on, up to the first empty one. -/
inductive PageWalk (db : Db) (sid : PyStr) (limit : Json) : Cursor → List (List Shown) → Prop
  | stop {before : Cursor}
      (h : messageList ft intOfStr pyStr pyLoads db ⟨sid,limit,before⟩ = .messages []) :
      PageWalk db sid limit before []
  | next {before : Cursor} {oldest : Shown} {newer : List Shown} {pages : List (List Shown)}
      (h : messageList ft intOfStr pyStr pyLoads db ⟨sid,limit,before⟩ = .messages (oldest::newer))
      (hrest : PageWalk db sid limit (.stamp oldest.createdAt) pages) :
      PageWalk db sid limit before ((oldest::newer)::pages)

end Handler

/-- The rows of a session in the order in which they were inserted. -/
def sessionRows (db : Db) (sid : PyStr) : List Row := db.messages.filter fun r => r.sessionId = sid

/-- What identifies a message and what it says. -/
def Row.body (r : Row) : MessageId × PyStr × PyStr × ℕ := (r.id,r.role,r.content,r.createdAt)

def Shown.body (m : Shown) : MessageId × PyStr × PyStr × ℕ := (m.id,m.role,m.text,m.createdAt)

section Exact

variable (ft : FloatText) (intOfStr : PyStr → Option ℤ) (pyStr : Json → PyStr)
  (pyLoads : PyStr → LoadsOutcome)

/-- Walking back from the newest message ends, and the pages, the last one first, show
every message of the session once and in the order of insertion. -/
def PagesExact (db : Db) (sid : PyStr) (limit : Json) : Prop :=
  ∃ pages, PageWalk ft intOfStr pyStr pyLoads db sid limit .absent pages ∧
    pages.reverse.flatten.map Shown.body = (sessionRows db sid).map Row.body

/-- The JSON columns of a row decode, and so do the arguments of its tool calls. -/
def Readable (r : Row) : Prop := ((hydrateRow ft r).bind (rowEntries pyStr pyLoads)).isSome

variable {ft intOfStr pyStr pyLoads} {db : Db} {sid : PyStr} {limit : Json} {n : ℤ}
  {rows : List Row} {shown : List Shown} {pages : List (List Shown)} {ps : List (List Row)}

theorem clampInt_pos {value : Json} (h : clampInt intOfStr value 100 1 500 = some n) : 0 < n := by
  rw [clampInt] at h
  split at h
  · cases h
    decide
  · split at h
    · cases h
      exact lt_max_of_lt_left Int.one_pos
    · cases h
      decide
    · cases h

theorem showRows_isSome_iff (rows : List Row) :
    (showRows ft pyStr pyLoads rows).isSome ↔ ∀ r ∈ rows, Readable ft pyStr pyLoads r := by
  have hboth := congrArg Option.isSome
    (mapM_bind_mapM (hydrateRow ft) (rowEntries pyStr pyLoads) rows)
  have hreadable : (∀ r ∈ rows, Readable ft pyStr pyLoads r) ↔
      ((rows.mapM (hydrateRow ft)).bind fun hs => hs.mapM (rowEntries pyStr pyLoads)).isSome := by
    rw [hboth,mapM_isSome_iff]
    rfl
  rw [hreadable,showRows]
  cases rows.mapM (hydrateRow ft) with
  | none => simp
  | some hs =>
    have hreverse : (hs.reverse.mapM (rowEntries pyStr pyLoads)).isSome ↔
        (hs.mapM (rowEntries pyStr pyLoads)).isSome := by
      simp [mapM_isSome_iff]
    rw [Option.bind_some,← hreverse]
    cases h : hs.reverse.mapM (rowEntries pyStr pyLoads) <;> simp [toolCallIndex,h]

theorem showRows_body
    (h : showRows ft pyStr pyLoads rows = some shown) :
    shown.map Shown.body = (rows.map Row.body).reverse := by
  rw [showRows] at h
  cases hrows : rows.mapM (hydrateRow ft) with
  | none => simp [hrows] at h
  | some hs =>
    have hrow : ∀ r h, hydrateRow ft r = some h → h.row.body = r.body := by
      intro r h hr
      obtain ⟨_,_,rfl⟩ := Option.map_eq_some_iff.mp hr
      rfl
    have hbody : hs.map (fun h => h.row.body) = rows.map Row.body := map_of_mapM hrow hrows
    cases hindex : toolCallIndex pyStr pyLoads hs.reverse with
    | none => simp [hrows,hindex] at h
    | some index =>
      have hshown : hs.reverse.map (Hydrated.shown index) = shown := by
        simpa [hrows,hindex] using h
      rw [← hshown,List.map_map,← hbody,← List.map_reverse]
      rfl

/-- The rows of the session as the index yields them backwards. -/
def newestFirst (db : Db) (sid : PyStr) : List Row :=
  (sortByKey Row.createdAt (sessionRows db sid)).reverse

theorem newestFirst_pairwise (db : Db) (sid : PyStr) :
    (newestFirst db sid).Pairwise fun r r' => r'.createdAt ≤ r.createdAt :=
  List.pairwise_reverse.mpr (sortByKey_pairwise _ _)

theorem listBefore_eq_page (hn : 0 < n) (before : Option ℕ) :
    listBefore db sid before n = page Row.createdAt n.toNat before (newestFirst db sid) := by
  have hfilter : (db.messages.filter fun r => r.sessionId = sid ∧ before.all (r.createdAt < ·)) =
      below Row.createdAt before (sessionRows db sid) := by
    rw [below,sessionRows,List.filter_filter]
    refine List.filter_congr fun r _ => ?_
    rw [Bool.decide_and,Bool.and_comm,Bool.decide_eq_true]
  rw [listBefore,if_neg (by omega),page,newestFirst,below_sortByKey,hfilter]
  rfl

/-- A cursor that `message.list` accepts. -/
def cursor : Option ℕ → Cursor
  | none => .absent
  | some t => .stamp t

theorem messageList_eq (hn : clampInt intOfStr limit 100 1 500 = some n) (before : Option ℕ) :
    messageList ft intOfStr pyStr pyLoads db ⟨sid,limit,cursor before⟩ =
      messageList.answer ft pyStr pyLoads
        (page Row.createdAt n.toNat before (newestFirst db sid)) := by
  rw [← listBefore_eq_page (clampInt_pos hn)]
  cases before <;> simp [messageList,cursor,hn]

theorem answer_eq_messages :
    messageList.answer ft pyStr pyLoads rows = .messages shown ↔
      showRows ft pyStr pyLoads rows = some shown := by
  rw [messageList.answer]
  cases showRows ft pyStr pyLoads rows <;> simp

/-- Both walks show the same messages, page by page. -/
def SamePages (pages : List (List Shown)) (ps : List (List Row)) : Prop :=
  pages.map (List.map Shown.body) = ps.map fun p => (p.map Row.body).reverse

theorem SamePages.flatten
    (h : SamePages pages ps) :
    pages.reverse.flatten.map Shown.body = (ps.flatten.map Row.body).reverse := by
  have hreverse : (ps.map fun p => (p.map Row.body).reverse) =
      (ps.map (List.map Row.body)).map List.reverse := by simp
  rw [List.map_flatten,List.map_reverse,h,hreverse,← List.reverse_flatten,List.map_flatten]

theorem SamePages.cons (h : SamePages pages ps)
    (hbody : shown.map Shown.body = (rows.map Row.body).reverse) :
    SamePages (shown::pages) (rows::ps) := by
  rw [SamePages,List.map_cons,List.map_cons,hbody,h]

theorem oldest_of_body {oldest : Shown} {newer : List Shown}
    (h : (oldest::newer).map Shown.body = (rows.map Row.body).reverse) :
    ∃ last, rows.getLast? = some last ∧ oldest.createdAt = last.createdAt := by
  have hhead := congrArg List.head? h
  rw [List.head?_reverse,List.getLast?_map] at hhead
  obtain ⟨last,hlast,hbody⟩ := Option.map_eq_some_iff.mp hhead.symm
  exact ⟨last,hlast,congrArg (fun b => b.2.2.2) hbody.symm⟩

theorem walk_of_pageWalk (hn : clampInt intOfStr limit 100 1 500 = some n) {before : Option ℕ}
    (h : PageWalk ft intOfStr pyStr pyLoads db sid limit (cursor before) pages) :
    ∃ ps, Walk Row.createdAt n.toNat (newestFirst db sid) before ps ∧ SamePages pages ps ∧
      ∀ p ∈ ps, ∀ r ∈ p, Readable ft pyStr pyLoads r := by
  generalize hcursor : cursor before = c at h
  induction h generalizing before with
  | stop hpage =>
    rw [← hcursor,messageList_eq hn,answer_eq_messages] at hpage
    have hempty := showRows_body hpage
    refine ⟨[],.stop ?_,rfl,by simp⟩
    simpa using hempty.symm
  | @next _ oldest newer pages hpage _ ih =>
    rw [← hcursor,messageList_eq hn,answer_eq_messages] at hpage
    have hbody := showRows_body hpage
    obtain ⟨last,hlast,htime⟩ := oldest_of_body hbody
    obtain ⟨ps,hwalk,hsame,hreadable⟩ := @ih (some last.createdAt) (by rw [htime,cursor])
    refine ⟨_,.next hlast hwalk,hsame.cons hbody,?_⟩
    intro p hp
    cases List.mem_cons.mp hp with
    | inl hfirst =>
      rw [hfirst]
      exact (showRows_isSome_iff _).mp (Option.isSome_of_eq_some hpage)
    | inr hp => exact hreadable p hp

theorem pageWalk_of_walk (hn : clampInt intOfStr limit 100 1 500 = some n)
    (hreadable : ∀ r ∈ sessionRows db sid, Readable ft pyStr pyLoads r) {before : Option ℕ}
    (h : Walk Row.createdAt n.toNat (newestFirst db sid) before ps) :
    ∃ pages, PageWalk ft intOfStr pyStr pyLoads db sid limit (cursor before) pages ∧
      SamePages pages ps := by
  induction h with
  | @stop before hpage =>
    refine ⟨[],.stop ?_,rfl⟩
    rw [messageList_eq hn,hpage]
    rfl
  | @next before last ps hlast _ ih =>
    obtain ⟨pages,hwalk,hsame⟩ := ih
    have hrows : ∀ r ∈ page Row.createdAt n.toNat before (newestFirst db sid),
        Readable ft pyStr pyLoads r := by
      intro r hr
      have hr := (mem_below.mp (List.mem_of_mem_take hr)).1
      exact hreadable r (List.mem_mergeSort.mp (List.mem_reverse.mp hr))
    obtain ⟨shown,hshown⟩ := Option.isSome_iff_exists.mp ((showRows_isSome_iff _).mpr hrows)
    have hbody := showRows_body hshown
    cases shown with
    | nil =>
      have hempty : page Row.createdAt n.toNat before (newestFirst db sid) = [] := by
        simpa using hbody.symm
      rw [hempty] at hlast
      cases hlast
    | cons oldest newer =>
      obtain ⟨last',hlast',htime⟩ := oldest_of_body hbody
      obtain rfl : last = last' := Option.some.inj (hlast.symm.trans hlast')
      refine ⟨(oldest::newer)::pages,.next ?_ ?_,hsame.cons hbody⟩
      · rw [messageList_eq hn,answer_eq_messages]
        exact hshown
      · rw [htime]
        exact hwalk

/-- Whatever it leaves out, the walk comes to an end. -/
theorem pageWalk_ends (hn : clampInt intOfStr limit 100 1 500 = some n)
    (hreadable : ∀ r ∈ sessionRows db sid, Readable ft pyStr pyLoads r) :
    ∃ pages, PageWalk ft intOfStr pyStr pyLoads db sid limit .absent pages := by
  obtain ⟨ps,hwalk⟩ := walk_exists Row.createdAt n.toNat (newestFirst db sid) none
  obtain ⟨pages,hpages,_⟩ := pageWalk_of_walk hn hreadable hwalk
  exact ⟨pages,hpages⟩

theorem length_newestFirst : (newestFirst db sid).length = (sessionRows db sid).length := by
  simp [newestFirst,sortByKey]

theorem newestFirst_of_clock
    (hclock : (sessionRows db sid).Pairwise fun r r' => r.createdAt ≤ r'.createdAt) :
    newestFirst db sid = (sessionRows db sid).reverse := by
  rw [newestFirst,sortByKey,List.mergeSort_of_pairwise (hclock.imp fun h => by simpa using h)]

theorem clock_of_sorted
    (h : (sortByKey Row.createdAt rows).map Row.body = rows.map Row.body) :
    rows.Pairwise fun r r' => r.createdAt ≤ r'.createdAt := by
  have htimes : (sortByKey Row.createdAt rows).map Row.createdAt = rows.map Row.createdAt := by
    have htimes := congrArg (List.map fun b => b.2.2.2) h
    rw [List.map_map,List.map_map] at htimes
    exact htimes
  have hsorted := List.pairwise_map.mpr (sortByKey_pairwise Row.createdAt rows)
  rw [htimes] at hsorted
  exact List.pairwise_map.mp hsorted

theorem pagesExact_conditions (h : PagesExact ft intOfStr pyStr pyLoads db sid limit) :
    ∃ n, clampInt intOfStr limit 100 1 500 = some n ∧
      (∀ r ∈ sessionRows db sid, Readable ft pyStr pyLoads r) ∧
      (sessionRows db sid).Pairwise (fun r r' => r.createdAt ≤ r'.createdAt) ∧
      Clean Row.createdAt n.toNat (sessionRows db sid).reverse := by
  obtain ⟨pages,hpages,hall⟩ := h
  cases hn : clampInt intOfStr limit 100 1 500 with
  | none => cases hpages <;> simp_all [messageList]
  | some n =>
    have hnewest : PageWalk ft intOfStr pyStr pyLoads db sid limit (cursor none) pages := hpages
    obtain ⟨ps,hwalk,hsame,hreadable⟩ := walk_of_pageWalk hn hnewest
    have hflatten := walk_flatten (by have := clampInt_pos hn; omega) (newestFirst_pairwise db sid) hwalk
    rw [below_none] at hflatten
    rw [hsame.flatten] at hall
    have hlength : ps.flatten.length = (newestFirst db sid).length := by
      have hlength := congrArg List.length hall
      rw [List.length_reverse,List.length_map,List.length_map] at hlength
      rw [hlength,length_newestFirst]
    have hshown := hflatten.1.eq_of_length hlength
    have hclean := hflatten.2.mp hshown
    rw [hshown,newestFirst,List.map_reverse,List.reverse_reverse] at hall
    have hclock := clock_of_sorted hall
    refine ⟨n,rfl,?_,hclock,?_⟩
    · intro r hr
      have hr : r ∈ ps.flatten := by
        rw [hshown,newestFirst_of_clock hclock]
        exact List.mem_reverse.mpr hr
      obtain ⟨p,hp,hrp⟩ := List.mem_flatten.mp hr
      exact hreadable p hp r hrp
    · rw [← newestFirst_of_clock hclock]
      exact hclean

/-- The walk shows the session exactly when the limit is no infinity, every message can be
read, the clock was not set back between two messages, and every full page ends between
two seconds. -/
theorem pagesExact_iff (db : Db) (sid : PyStr) (limit : Json) :
    PagesExact ft intOfStr pyStr pyLoads db sid limit ↔
      ∃ n, clampInt intOfStr limit 100 1 500 = some n ∧
        (∀ r ∈ sessionRows db sid, Readable ft pyStr pyLoads r) ∧
        (sessionRows db sid).Pairwise (fun r r' => r.createdAt ≤ r'.createdAt) ∧
        Clean Row.createdAt n.toNat (sessionRows db sid).reverse := by
  refine ⟨pagesExact_conditions,?_⟩
  rintro ⟨n,hn,hreadable,hclock,hclean⟩
  obtain ⟨ps,hwalk⟩ := walk_exists Row.createdAt n.toNat (newestFirst db sid) none
  obtain ⟨pages,hpages,hsame⟩ := pageWalk_of_walk hn hreadable hwalk
  have hflatten := walk_flatten (by have := clampInt_pos hn; omega) (newestFirst_pairwise db sid) hwalk
  rw [below_none,newestFirst_of_clock hclock] at hflatten
  refine ⟨pages,hpages,?_⟩
  rw [hsame.flatten,hflatten.2.mpr hclean,List.map_reverse,List.reverse_reverse]

end Exact

/-- Three messages of one second. -/
def oneSecond : Db :=
  persistAll plainFloats (lit "s") plainDb
    [{ plainCall (.text (lit "a")) with id := 0 },{ plainCall (.text (lit "b")) with id := 1 },
      { plainCall (.text (lit "c")) with id := 2 }]

theorem pageWalk_oneSecond : ∃ pages, PageWalk plainFloats (fun _ => none) (fun _ => [])
    (fun _ => .decodeError []) oneSecond (lit "s") (.int 2) .absent pages :=
  pageWalk_ends rfl ((showRows_isSome_iff _).mp rfl)

/-- Pages of two messages leave out the first of three messages of one second. -/
theorem oneSecond_not_exact :
    ¬ PagesExact plainFloats (fun _ => none) (fun _ => []) (fun _ => .decodeError []) oneSecond
      (lit "s") (.int 2) := by
  intro h
  obtain ⟨n,hn,_,_,hclean⟩ := pagesExact_conditions h
  cases hn
  exact Nat.lt_irrefl 0 (hclean 1 _ _ (Nat.dvd_refl 2) rfl rfl)

end MinimaxCode.Messages
