import MinimaxCode.AgentHistory
import MinimaxCode.OrderedDict

/-!
# Write conflicts in a team

The members of a team run one after another or side by side. Each leaves the log of its
tool calls, as the agent core keeps it, and the conflict detection reads the logs.
-/

namespace MinimaxCode.TeamConflicts

open PyText PyJson Agent OrderedDict

structure AgentRunResult where
  agentName : PyStr
  success : Bool
  text : PyStr
  error : PyStr
  iterations : ℤ
  toolCalls : List (List (PyStr × Json))
  stub : Bool
  runId : Option PyStr

structure TeamConflict where
  filePath : PyStr
  agents : List PyStr
  conflictType : PyStr

/-- An element of the list that `_extract_tool_calls` returns and the core logs. -/
def logEntry (c : ToolCall) : List (PyStr × Json) :=
  [(lit "id",.str c.id),(lit "type",c.type),(lit "name",.str c.name),
    (lit "arguments",.str c.arguments)]

/-- An assistant message of a run, with the identifiers that are generated for its calls. -/
structure Answer where
  uuids : ℕ → PyStr
  message : AssistantMessage

def toolCallsLog (answers : List Answer) : List (List (PyStr × Json)) :=
  answers.flatMap fun a => (extractToolCalls a.uuids a.message).map logEntry

/-- How the run of one member ends. -/
inductive Invocation
  | refused (error : PyStr)
  | completed (text : PyStr) (iterations : ℤ) (answers : List Answer) (stub : Bool)
  | timedOut (seconds : PyStr)
  | failed (error : PyStr)

/-- A member that fails leaves no log; one whose sandbox is refused has no run either. -/
def runSingleAgent (agentName : PyStr) (runId : Option PyStr) : Invocation → AgentRunResult
  | .refused error => ⟨agentName,false,[],error,0,[],true,none⟩
  | .completed text iterations answers stub =>
    ⟨agentName,true,text,[],iterations,toolCallsLog answers,stub,runId⟩
  | .timedOut seconds =>
    ⟨agentName,false,[],lit "timed out after "++seconds++lit "s wall clock",0,[],true,runId⟩
  | .failed error => ⟨agentName,false,[],error,0,[],true,runId⟩

structure Member where
  agentName : PyStr
  runId : Option PyStr
  invocation : Invocation

def Member.result (m : Member) : AgentRunResult := runSingleAgent m.agentName m.runId m.invocation

def writes (name : Option Json) : Bool :=
  match name with
  | some (.str s) => s = lit "write_file" || s = lit "edit_file"
  | _ => false

/-- `args.get("path") or args.get("file_path")`. -/
def pathArg (args : List (PyStr × Json)) : Option Json :=
  match get args (lit "path") with
  | some v => if truthy v then some v else get args (lit "file_path")
  | none => get args (lit "file_path")

/-- The path of a logged write. The outer `none` is an exception; a path other than a text
is one as well, the tools take texts only. -/
def loggedWrite (tc : List (PyStr × Json)) : Option (Option PyStr) :=
  if writes (get tc (lit "name")) then
    match (get tc (lit "args")).getD (.obj []) with
    | .obj args =>
      match pathArg args with
      | some (.str p) => some (if p.isEmpty then none else some p)
      | some v => if truthy v then none else some none
      | none => some none
    | _ => none
  else some none

/-- `writes_by_file.setdefault(fpath, []).append(r.agent_name)`. -/
def addWrite (writesByFile : List (PyStr × List PyStr)) (agentName : PyStr) :
    Option PyStr → List (PyStr × List PyStr)
  | some p => assign writesByFile p ((lookup writesByFile p).getD []++[agentName])
  | none => writesByFile

def addLog (writesByFile : List (PyStr × List PyStr)) (r : AgentRunResult) :
    Option (List (PyStr × List PyStr)) :=
  r.toolCalls.foldlM (fun d tc => (loggedWrite tc).map (addWrite d r.agentName)) writesByFile

def detectConflicts (results : List AgentRunResult) : Option (List TeamConflict) :=
  (results.foldlM addLog []).map fun writesByFile =>
    (writesByFile.filter fun kv => 1 < kv.2.length).map
      fun kv => ⟨kv.1,kv.2,lit "concurrent_write"⟩

section Written

variable (host : Host) (normalise : PyStr → PyStr) (took : Member → ℕ → Bool)

/-- The path that the write tools read from the arguments of a logged call. -/
def target (tc : List (PyStr × Json)) : Option PyStr :=
  match writes (get tc (lit "name")),get tc (lit "arguments") with
  | true,some (.str s) =>
    match parseArgs host s with
    | .args (.obj args) =>
      match get args (lit "path") with
      | some (.str p) => some p
      | _ => none
    | _ => none
  | _,_ => none

/-- Some write in a member's log took effect at the path. -/
def Wrote (m : Member) (p : PyStr) : Prop :=
  ∃ i tc q, m.result.toolCalls[i]? = some tc ∧ took m i ∧ target host tc = some q ∧ normalise q = p

def WrittenByTwo (team : List Member) (p : PyStr) : Prop :=
  ∃ m ∈ team, ∃ m' ∈ team, m.agentName ≠ m'.agentName ∧
    Wrote host normalise took m p ∧ Wrote host normalise took m' p

/-- The paths that are flagged are the ones that two distinct members wrote. -/
def Exact (team : List Member) : Prop :=
  ∃ conflicts, detectConflicts (team.map Member.result) = some conflicts ∧
    ∀ p, (∃ c ∈ conflicts, normalise c.filePath = p) ↔ WrittenByTwo host normalise took team p

end Written

/-- How many logged writes name a path. -/
def writeCount (log : List (List (PyStr × Json))) (p : PyStr) : ℕ :=
  log.countP fun tc => loggedWrite tc = some (some p)

/-- The dictionary lists an agent for each write that names the path. -/
structure Counted (writesByFile : List (PyStr × List PyStr)) (count : PyStr → ℕ) : Prop where
  nodup : (keys writesByFile).Nodup
  length : ∀ p, ((lookup writesByFile p).getD []).length = count p

variable {count : PyStr → ℕ} {d : List (PyStr × List PyStr)}

theorem counted_addWrite (h : Counted d count)
    (agentName : PyStr) (o : Option PyStr) :
    Counted (addWrite d agentName o) fun p => count p+if o = some p then 1 else 0 := by
  cases o with
  | none => exact ⟨h.nodup,fun p => by simpa [addWrite] using h.length p⟩
  | some p =>
    refine ⟨nodup_keys_assign h.nodup,fun p' => ?_⟩
    rw [addWrite,lookup_assign]
    by_cases hp : p = p'
    · subst hp
      simp [h.length p]
    · simp [hp,h.length p']

theorem counted_addLog {log : List (List (PyStr × Json))} {d' : List (PyStr × List PyStr)} {agentName : PyStr} (h : Counted d count)
    (hlog : log.foldlM (fun d tc => (loggedWrite tc).map (addWrite d agentName)) d = some d') :
    Counted d' fun p => count p+writeCount log p := by
  induction log generalizing d count with
  | nil => cases hlog; simpa [writeCount] using h
  | cons tc log ih =>
    rw [List.foldlM_cons] at hlog
    obtain ⟨d₁,hd₁,hrest⟩ := Option.bind_eq_some_iff.mp hlog
    obtain ⟨o,ho,rfl⟩ := Option.map_eq_some_iff.mp hd₁
    have hcounted := ih (counted_addWrite h agentName o) hrest
    refine ⟨hcounted.nodup,fun p => ?_⟩
    rw [hcounted.length p,writeCount,writeCount,List.countP_cons,ho]
    simp only [Option.some.injEq,decide_eq_true_eq]
    omega

theorem counted_addLogs {results : List AgentRunResult} {d' : List (PyStr × List PyStr)} (h : Counted d count) (hresults : results.foldlM addLog d = some d') :
    Counted d' fun p => count p+writeCount (results.flatMap AgentRunResult.toolCalls) p := by
  induction results generalizing d count with
  | nil => cases hresults; simpa [writeCount] using h
  | cons r results ih =>
    rw [List.foldlM_cons] at hresults
    obtain ⟨d₁,hd₁,hrest⟩ := Option.bind_eq_some_iff.mp hresults
    have hcounted := ih (counted_addLog h hd₁) hrest
    refine ⟨hcounted.nodup,fun p => ?_⟩
    rw [hcounted.length p,List.flatMap_cons,writeCount,writeCount,writeCount,List.countP_append]
    omega

/-- A path is flagged exactly when two logged writes name it, be they of one agent or two. -/
theorem flagged_iff {results : List AgentRunResult} {conflicts : List TeamConflict}
    (h : detectConflicts results = some conflicts) (p : PyStr) :
    (∃ c ∈ conflicts, c.filePath = p) ↔
      1 < writeCount (results.flatMap AgentRunResult.toolCalls) p := by
  obtain ⟨d,hd,rfl⟩ := Option.map_eq_some_iff.mp h
  have hstart : Counted [] fun _ => 0 := ⟨List.nodup_nil,fun _ => rfl⟩
  have hcounted := counted_addLogs hstart hd
  have hlength := hcounted.length p
  rw [Nat.zero_add] at hlength
  rw [← hlength]
  constructor
  · rintro ⟨c,hc,rfl⟩
    obtain ⟨kv,hkv,rfl⟩ := List.mem_map.mp hc
    obtain ⟨hmem,hlong⟩ := List.mem_filter.mp hkv
    rw [lookup_of_mem hcounted.nodup hmem]
    simpa using hlong
  · intro hlong
    cases hlookup : lookup d p with
    | none => simp [hlookup] at hlong
    | some agents =>
      rw [hlookup,Option.getD_some] at hlong
      refine ⟨⟨p,agents,lit "concurrent_write"⟩,?_,rfl⟩
      exact List.mem_map.mpr ⟨(p,agents),List.mem_filter.mpr ⟨mem_of_lookup hlookup,by simpa using hlong⟩,rfl⟩

/-- A result whose log has one write. -/
def loggedResult (name path : PyStr) : AgentRunResult where
  agentName := name
  success := true
  text := []
  error := []
  iterations := 1
  toolCalls := [[(lit "name",.str (lit "write_file")),(lit "args",.obj [(lit "path",.str path)])]]
  stub := false
  runId := none

theorem flagged_twice : (∃ c ∈ [TeamConflict.mk (lit "a") [lit "ann",lit "bob"] (lit "concurrent_write")],
    c.filePath = lit "a") ↔ 1 < writeCount ([loggedResult (lit "ann") (lit "a"),
      loggedResult (lit "bob") (lit "a")].flatMap AgentRunResult.toolCalls) (lit "a") :=
  @flagged_iff [loggedResult (lit "ann") (lit "a"),loggedResult (lit "bob") (lit "a")] _ rfl (lit "a")

theorem loggedWrite_logEntry (c : ToolCall) : loggedWrite (logEntry c) = some none := by
  have hargs : get (logEntry c) (lit "args") = none := rfl
  rw [loggedWrite,hargs]
  split <;> rfl

theorem loggedWrite_of_core {m : Member} {tc : List (PyStr × Json)} (h : tc ∈ m.result.toolCalls) :
    loggedWrite tc = some none := by
  rw [Member.result] at h
  cases hm : m.invocation with
  | completed text iterations answers stub =>
    rw [hm] at h
    obtain ⟨a,-,hc⟩ := List.mem_flatMap.mp h
    obtain ⟨c,-,rfl⟩ := List.mem_map.mp hc
    exact loggedWrite_logEntry c
  | refused => rw [hm] at h; cases h
  | timedOut => rw [hm] at h; cases h
  | failed => rw [hm] at h; cases h

theorem detectConflicts_core (team : List Member) :
    detectConflicts (team.map Member.result) = some [] := by
  have hlog : ∀ (agentName : PyStr) (log : List (List (PyStr × Json))),
      (∀ tc ∈ log, loggedWrite tc = some none) →
      log.foldlM (fun d tc => (loggedWrite tc).map (addWrite d agentName)) [] = some [] := by
    intro agentName log h
    induction log with
    | nil => rfl
    | cons tc log ih =>
      rw [List.foldlM_cons,h tc List.mem_cons_self]
      exact ih fun tc htc => h tc (List.mem_cons_of_mem _ htc)
  have hteam : (team.map Member.result).foldlM addLog [] = some [] := by
    induction team with
    | nil => rfl
    | cons m team ih =>
      have hm : addLog [] m.result = some [] := hlog _ _ fun tc htc => loggedWrite_of_core htc
      rw [List.map_cons,List.foldlM_cons,hm]
      exact ih
  rw [detectConflicts,hteam]
  rfl

/-- A member that writes the file `a` in one call. -/
def writer (name : PyStr) : Member where
  agentName := name
  runId := none
  invocation := .completed [] 2
    [⟨fun _ => [],⟨[],[⟨lit "call_1",.str (lit "function"),lit "write_file",lit "\x7b\"path\": \"a\"\x7d"⟩]⟩⟩]
    false

end MinimaxCode.TeamConflicts
