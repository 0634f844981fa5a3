import Mathlib.Algebra.Order.Group.Int
import Mathlib.Data.List.Basic
import MinimaxCode.ChatMessages
import MinimaxCode.JsonText
import MinimaxCode.Segments

/-!
# Compaction of a conversation

`compact_history` keeps the system messages and the last turns of a conversation and puts
one summary in the place of the older turns. A turn begins at a user message.
-/

namespace MinimaxCode.Compaction

open PyText PyJson ChatMessages Segments

variable (str : Json → PyStr)

def isCjk (c : PyChar) : Bool :=
  let n := c.code
  (0x4E00 ≤ n && n ≤ 0x9FFF) || (0x3400 ≤ n && n ≤ 0x4DBF) || (0xF900 ≤ n && n ≤ 0xFAFF)

def estimateTokens (text : PyStr) : ℕ :=
  if text.isEmpty then 0
  else
    let cjkCount := text.countP isCjk
    let asciiCount := text.length-cjkCount
    asciiCount/4+cjkCount+cjkCount/2

def partText : Json → PyStr
  | .str s => s
  | v => str v

def msgText (m : ChatMessage) : PyStr :=
  match m.content with
  | none => []
  | some (.str s) => s
  | some (.arr parts) => (lit " ").intercalate (parts.map (partText str))
  | some v => str v

def totalTokens (turns : List ChatMessage) : ℕ := (turns.map fun m => estimateTokens (msgText str m)).sum

/-- `text[:n] + ("..." if len(text) > n else "")`. -/
def truncated (n : ℕ) (text : PyStr) : PyStr := text.take n++if n < text.length then lit "..." else []

/-- What the loop over a turn collects. -/
structure TurnSummary where
  userMsg : PyStr
  toolCount : ℕ
  assistantParts : List PyStr

def TurnSummary.add (s : TurnSummary) (m : ChatMessage) : TurnSummary :=
  let content := msgText str m
  match m.role with
  | .user => { s with userMsg := truncated 200 content }
  | .assistant =>
    if content.isEmpty then s else { s with assistantParts := s.assistantParts++[truncated 150 content] }
  | .tool => { s with toolCount := s.toolCount+1 }
  | _ => s

def TurnSummary.line (s : TurnSummary) : PyStr :=
  lit "User: "++s.userMsg++
    (if s.assistantParts.isEmpty then []
      else lit " → Assistant: "++(lit "; ").intercalate (s.assistantParts.take 2))++
    if s.toolCount = 0 then [] else lit " ["++natText s.toolCount++lit " tool call(s)]"

def summariseOldTurns (groups : List (List ChatMessage)) : PyStr :=
  (lit "\n").intercalate (groups.map fun group => (group.foldl (TurnSummary.add str) ⟨[],0,[]⟩).line)

def summaryMessage (summary : PyStr) : ChatMessage :=
  ⟨.user,some (.str (lit "[Conversation summary (compacted)]\n"++summary)),[],none⟩

def findTurnBoundaries (turns : List ChatMessage) : List (ℕ × ℕ) :=
  spansFrom ChatMessage.isUser 0 none turns

/-- `max(0, len(turn_boundaries) - keep_recent)`. -/
def recentStart (turns : List ChatMessage) (keepRecent : ℤ) : ℕ :=
  ((findTurnBoundaries turns).length-keepRecent).toNat

/-- The turns that are handed to the summary. -/
def oldTurns (turns : List ChatMessage) (keepRecent : ℤ) : List (List ChatMessage) :=
  ((findTurnBoundaries turns).take (recentStart turns keepRecent)).map (slice turns)

def recentMsgs (turns : List ChatMessage) (keepRecent : ℤ) : List ChatMessage :=
  match (findTurnBoundaries turns)[recentStart turns keepRecent]? with
  | some b => turns.drop b.1
  | none => []

def systemMsgs (messages : List ChatMessage) : List ChatMessage := messages.filter ChatMessage.isSystem

def conversation (messages : List ChatMessage) : List ChatMessage :=
  messages.filter fun m => !m.isSystem

def compactHistory (messages : List ChatMessage) (maxTokens keepRecent : ℤ) : List ChatMessage :=
  let turns := conversation messages
  if messages.isEmpty then []
  else if turns.isEmpty then systemMsgs messages
  else if totalTokens str turns ≤ maxTokens then messages
  else if (oldTurns turns keepRecent).isEmpty then systemMsgs messages++turns
  else
    let summary := summariseOldTurns str (oldTurns turns keepRecent)
    systemMsgs messages++(if summary.isEmpty then [] else [summaryMessage summary])++
      recentMsgs turns keepRecent

/-- The turns that `compact_history` hands to its summariser, if it calls it. -/
def handedOver (messages : List ChatMessage) (maxTokens keepRecent : ℤ) : List (List ChatMessage) :=
  if totalTokens str (conversation messages) ≤ maxTokens then []
  else oldTurns (conversation messages) keepRecent

/-- The last `keepRecent` turns. -/
def lastTurns (keepRecent : ℤ) (turns : List ChatMessage) : List ChatMessage :=
  ((segments ChatMessage.isUser turns).rtake keepRecent.toNat).flatten

/-- The result `r` of a compaction that handed over `handed` keeps the conversation well formed. -/
structure Preserves (messages : List ChatMessage) (keepRecent : ℤ) (r : List ChatMessage)
    (handed : List (List ChatMessage)) : Prop where
  systems : systemMsgs r = systemMsgs messages
  recent : r = messages ∨ lastTurns keepRecent (conversation messages) <:+ r
  noOrphan : ∀ before m after, r = before++m::after → m.role = .tool →
    ∃ a ∈ before, m.answeredId ∈ a.callIds
  noOpenCall : ∀ before m after, r = before++m::after → ∀ id ∈ m.callIds,
    ∃ t ∈ after, t.role = .tool ∧ t.answeredId = id
  paired : WellPaired r
  noLoss : (conversation messages).Subperm (handed.flatten++r)

variable {str} {messages turns : List ChatMessage} {maxTokens keepRecent : ℤ}

theorem length_findTurnBoundaries (turns : List ChatMessage) :
    (findTurnBoundaries turns).length = turns.countP ChatMessage.isUser := by
  have hlength := congrArg List.length (map_slice_spans ChatMessage.isUser turns)
  rwa [List.length_map,length_segments] at hlength

theorem oldTurns_eq (turns : List ChatMessage) (keepRecent : ℤ) :
    oldTurns turns keepRecent =
      (segments ChatMessage.isUser turns).take (recentStart turns keepRecent) := by
  rw [oldTurns,List.map_take]
  exact congrArg (List.take _) (map_slice_spans ChatMessage.isUser turns)

theorem recentMsgs_eq (turns : List ChatMessage) (keepRecent : ℤ) :
    recentMsgs turns keepRecent =
      ((segments ChatMessage.isUser turns).drop (recentStart turns keepRecent)).flatten := by
  rw [recentMsgs]
  cases hb : (findTurnBoundaries turns)[recentStart turns keepRecent]? with
  | some b => exact drop_spans hb
  | none =>
    have hlength := List.getElem?_eq_none_iff.mp hb
    rw [length_findTurnBoundaries,← length_segments] at hlength
    rw [List.drop_eq_nil_of_le hlength]
    rfl

theorem recentMsgs_eq_lastTurns (turns : List ChatMessage) (keepRecent : ℤ) :
    recentMsgs turns keepRecent = lastTurns keepRecent turns := by
  rw [recentMsgs_eq,lastTurns,List.rtake]
  have hstart : recentStart turns keepRecent =
      ((segments ChatMessage.isUser turns).length-keepRecent).toNat := by
    rw [recentStart,length_findTurnBoundaries,length_segments]
  rw [hstart]
  obtain hneg | hpos := Int.lt_or_le keepRecent 0
  · rw [List.drop_eq_nil_of_le (by omega),List.drop_eq_nil_of_le (by omega)]
  · congr 2
    omega

theorem lead_oldTurns_lastTurns (turns : List ChatMessage) (keepRecent : ℤ) :
    lead ChatMessage.isUser turns++((oldTurns turns keepRecent).flatten++lastTurns keepRecent turns) = turns := by
  rw [← recentMsgs_eq_lastTurns,oldTurns_eq,recentMsgs_eq,← List.flatten_append,List.take_append_drop,
    lead_append_flatten]

theorem oldTurns_isEmpty_iff :
    (oldTurns turns keepRecent).isEmpty = true ↔
      (turns.countP ChatMessage.isUser : ℤ) ≤ max keepRecent 0 := by
  rw [List.isEmpty_iff,← List.length_eq_zero_iff,oldTurns,List.length_map,List.length_take,recentStart,
    length_findTurnBoundaries]
  omega

theorem systemMsgs_systemMsgs : systemMsgs (systemMsgs messages) = systemMsgs messages := by
  rw [systemMsgs,systemMsgs,List.filter_filter]
  simp

theorem systemMsgs_eq_nil (h : ∀ m ∈ turns, m.isSystem = false) : systemMsgs turns = [] :=
  List.filter_eq_nil_iff.mpr fun m hm => by simp [h m hm]

theorem not_system_of_mem_conversation {m : ChatMessage} (h : m ∈ conversation messages) :
    m.isSystem = false := by
  simpa using (List.mem_filter.mp h).2

theorem pairedFrom_systemMsgs {ids : List PyStr} {ys : List ChatMessage} :
    PairedFrom ids (systemMsgs messages++ys) ↔ PairedFrom ids ys := by
  induction messages with
  | nil => rfl
  | cons m rest ih =>
    cases hm : m.isSystem with
    | false => rwa [systemMsgs,List.filter_cons_of_neg (by simp [hm])]
    | true =>
      rw [systemMsgs,List.filter_cons_of_pos hm,List.cons_append,
        pairedFrom_system (ChatMessage.isSystem_iff.mp hm)]
      exact ih

theorem preserves_of_wellPaired {r : List ChatMessage} {handed : List (List ChatMessage)}
    (hsystems : systemMsgs r = systemMsgs messages)
    (hrecent : r = messages ∨ lastTurns keepRecent (conversation messages) <:+ r)
    (hpaired : WellPaired r) (hloss : (conversation messages).Subperm (handed.flatten++r)) :
    Preserves messages keepRecent r handed where
  systems := hsystems
  recent := hrecent
  noOrphan before m after heq hm := by
    rw [WellPaired,heq] at hpaired
    obtain h | h := hpaired.call_before hm
    · cases h
    · exact h
  noOpenCall before m after heq id hid := by
    rw [WellPaired,heq] at hpaired
    exact hpaired.answered hid
  paired := hpaired
  noLoss := hloss

theorem preserves_self (h : WellPaired messages) (handed : List (List ChatMessage)) :
    Preserves messages keepRecent messages handed := by
  refine preserves_of_wellPaired rfl (.inl rfl) h ?_
  exact List.filter_sublist.subperm.trans (List.sublist_append_right _ _).subperm

theorem lastTurns_suffix (keepRecent : ℤ) (turns : List ChatMessage) : lastTurns keepRecent turns <:+ turns := by
  refine ⟨lead ChatMessage.isUser turns++(oldTurns turns keepRecent).flatten,?_⟩
  rw [List.append_assoc,lead_oldTurns_lastTurns]

theorem preserves_reordered (h : WellPaired messages) (handed : List (List ChatMessage)) :
    Preserves messages keepRecent (systemMsgs messages++conversation messages) handed := by
  refine preserves_of_wellPaired ?_ (.inr ?_) ?_ ?_
  · rw [systemMsgs,List.filter_append]
    have hnone : (conversation messages).filter ChatMessage.isSystem = [] :=
      systemMsgs_eq_nil fun _ => not_system_of_mem_conversation
    have hall : (systemMsgs messages).filter ChatMessage.isSystem = systemMsgs messages := systemMsgs_systemMsgs
    rw [hnone,hall,List.append_nil,systemMsgs]
  · exact (lastTurns_suffix _ _).trans (List.suffix_append _ _)
  · rw [WellPaired,pairedFrom_systemMsgs]
    exact pairedFrom_filter.mpr h
  · rw [← List.append_assoc]
    exact (List.sublist_append_right _ _).subperm

theorem lastTurns_eq_nil_or (keepRecent : ℤ) (turns : List ChatMessage) :
    lastTurns keepRecent turns = [] ∨
      ∃ m rest, lastTurns keepRecent turns = m::rest ∧ m.role = .user := by
  rw [lastTurns]
  cases hsegs : (segments ChatMessage.isUser turns).rtake keepRecent.toNat with
  | nil => exact .inl rfl
  | cons s rest =>
    have hmem : s ∈ segments ChatMessage.isUser turns := by
      refine List.mem_of_mem_drop (i := (segments ChatMessage.isUser turns).length-keepRecent.toNat) ?_
      rw [List.rtake] at hsegs
      rw [hsegs]
      exact List.mem_cons_self
    obtain ⟨m,tail,rfl,hm⟩ := segment_eq_cons hmem
    exact .inr ⟨m,tail++rest.flatten,rfl,ChatMessage.isUser_iff.mp hm⟩

theorem wellPaired_lastTurns (h : WellPaired turns) : WellPaired (lastTurns keepRecent turns) := by
  obtain hnil | ⟨m,rest,heq,hm⟩ := lastTurns_eq_nil_or keepRecent turns
  · rw [hnil]
    rfl
  · obtain ⟨before,happend⟩ := lastTurns_suffix keepRecent turns
    rw [WellPaired,← happend,heq,pairedFrom_append_user hm] at h
    rw [heq]
    exact h.2

theorem summaryMessage_role (summary : PyStr) : (summaryMessage summary).role = .user := rfl

theorem noLoss_iff (summary : PyStr) :
    (conversation messages).Subperm ((oldTurns (conversation messages) keepRecent).flatten++
        (systemMsgs messages++[summaryMessage summary]++lastTurns keepRecent (conversation messages))) ↔
      lead ChatMessage.isUser (conversation messages) = [] := by
  have hturns := lead_oldTurns_lastTurns (conversation messages) keepRecent
  constructor
  · intro h
    -- the messages before the first turn are neither system nor user messages
    have hcount := h.countP_le fun m => !m.isSystem && !m.isUser
    have hlead : ∀ m ∈ lead ChatMessage.isUser (conversation messages),
        (!m.isSystem && !m.isUser) = true := by
      intro m hm
      have hmem : m ∈ conversation messages := by
        rw [← hturns]
        exact List.mem_append_left _ hm
      simp [not_system_of_mem_conversation hmem,not_mark_of_mem_lead hm]
    have hsystems : (systemMsgs messages).countP (fun m => !m.isSystem && !m.isUser) = 0 := by
      rw [List.countP_eq_zero]
      intro m hm
      simp [(List.mem_filter.mp hm).2]
    have hsummary : [summaryMessage summary].countP (fun m => !m.isSystem && !m.isUser) = 0 := rfl
    rw [← List.countP_eq_length] at hlead
    conv at hcount => lhs; rw [← hturns]
    simp only [List.countP_append,hsystems,hsummary,hlead] at hcount
    rw [← List.length_eq_zero_iff]
    omega
  · intro h
    rw [h,List.nil_append] at hturns
    conv => lhs; rw [← hturns]
    exact ((List.Sublist.refl _).append (List.sublist_append_right _ _)).subperm

theorem summariseOldTurns_ne_nil {groups : List (List ChatMessage)} (h : groups ≠ []) :
    summariseOldTurns str groups ≠ [] := by
  obtain ⟨g,rest,rfl⟩ := List.exists_cons_of_ne_nil h
  rw [summariseOldTurns,List.map_cons]
  cases hrest : rest.map fun group => (group.foldl (TurnSummary.add str) ⟨[],0,[]⟩).line with
  | nil => simp [TurnSummary.line,lit]
  | cons line lines => simp [List.intercalate_cons_cons,TurnSummary.line,lit]

/-- The history is short enough, begins with a turn, or has no old turn. -/
def Safe (str : Json → PyStr) (messages : List ChatMessage) (maxTokens keepRecent : ℤ) : Prop :=
  totalTokens str (conversation messages) ≤ maxTokens ∨
    (∀ m, (conversation messages).head? = some m → m.role = .user) ∨
    ((conversation messages).countP ChatMessage.isUser : ℤ) ≤ max keepRecent 0

theorem begins_with_turn_iff : (∀ m, turns.head? = some m → m.role = .user) ↔
    lead ChatMessage.isUser turns = [] := by
  rw [lead_eq_nil_iff]
  simp only [ChatMessage.isUser_iff]

theorem eq_systemMsgs (h : conversation messages = []) : systemMsgs messages = messages := by
  rw [systemMsgs,List.filter_eq_self]
  intro m hm
  simpa using List.filter_eq_nil_iff.mp h m hm

theorem compactHistory_of_old (hbudget : ¬totalTokens str (conversation messages) ≤ maxTokens)
    (hold : ¬(oldTurns (conversation messages) keepRecent).isEmpty = true) :
    compactHistory str messages maxTokens keepRecent = systemMsgs messages++
      [summaryMessage (summariseOldTurns str (oldTurns (conversation messages) keepRecent))]++
        lastTurns keepRecent (conversation messages) := by
  have hne : conversation messages ≠ [] := by
    intro hnil
    rw [hnil] at hold
    exact hold (by simp [oldTurns,findTurnBoundaries,spansFrom])
  have hmessages : ¬messages.isEmpty = true := by
    rw [List.isEmpty_iff]
    rintro rfl
    exact hne rfl
  have hturns : ¬(conversation messages).isEmpty = true := by rwa [List.isEmpty_iff]
  have hsummary : summariseOldTurns str (oldTurns (conversation messages) keepRecent) ≠ [] :=
    summariseOldTurns_ne_nil fun hnil => hold (List.isEmpty_iff.mpr hnil)
  rw [← List.isEmpty_eq_false_iff] at hsummary
  rw [compactHistory,if_neg hmessages,if_neg hturns,if_neg hbudget,if_neg hold,
    recentMsgs_eq_lastTurns]
  simp [hsummary]

theorem compactHistory_of_fits (h : totalTokens str (conversation messages) ≤ maxTokens ∨
      (oldTurns (conversation messages) keepRecent).isEmpty = true) :
    compactHistory str messages maxTokens keepRecent = messages ∨
      compactHistory str messages maxTokens keepRecent = systemMsgs messages++conversation messages := by
  rw [compactHistory]
  split
  · next hnil => exact .inl (List.isEmpty_iff.mp hnil).symm
  · split
    · next hnil => exact .inl (eq_systemMsgs (List.isEmpty_iff.mp hnil))
    · split
      · exact .inl rfl
      · next hbudget =>
        rw [if_pos (h.resolve_left hbudget)]
        exact .inr rfl

theorem preserves_of_safe (h : WellPaired messages) (hsafe : Safe str messages maxTokens keepRecent) :
    Preserves messages keepRecent (compactHistory str messages maxTokens keepRecent)
      (handedOver str messages maxTokens keepRecent) := by
  rw [Safe,← oldTurns_isEmpty_iff,begins_with_turn_iff] at hsafe
  by_cases hfits : totalTokens str (conversation messages) ≤ maxTokens ∨
      (oldTurns (conversation messages) keepRecent).isEmpty = true
  · obtain heq | heq := compactHistory_of_fits hfits
    · rw [heq]
      exact preserves_self h _
    · rw [heq]
      exact preserves_reordered h _
  · rw [not_or] at hfits
    obtain ⟨hbudget,hold⟩ := hfits
    have hlead := (hsafe.resolve_left hbudget).resolve_right hold
    rw [handedOver,if_neg hbudget,compactHistory_of_old hbudget hold]
    refine preserves_of_wellPaired ?_ (.inr (List.suffix_append _ _)) ?_ ((noLoss_iff _).mpr hlead)
    · have hsummary := summaryMessage_role
        (summariseOldTurns str (oldTurns (conversation messages) keepRecent))
      have hlast : (lastTurns keepRecent (conversation messages)).filter ChatMessage.isSystem = [] :=
        systemMsgs_eq_nil fun m hm =>
          not_system_of_mem_conversation ((lastTurns_suffix _ _).subset hm)
      have hall : (systemMsgs messages).filter ChatMessage.isSystem = systemMsgs messages :=
        systemMsgs_systemMsgs
      rw [systemMsgs,List.filter_append,List.filter_append,hall,hlast]
      simp [ChatMessage.isSystem,hsummary]
    · rw [WellPaired,List.append_assoc,pairedFrom_systemMsgs,List.singleton_append,
        pairedFrom_user (summaryMessage_role _)]
      exact ⟨rfl,wellPaired_lastTurns (pairedFrom_filter.mpr h)⟩

theorem safe_of_noLoss (h : (conversation messages).Subperm
    ((handedOver str messages maxTokens keepRecent).flatten++
      compactHistory str messages maxTokens keepRecent)) :
    Safe str messages maxTokens keepRecent := by
  rw [Safe,← oldTurns_isEmpty_iff,begins_with_turn_iff]
  by_contra hunsafe
  rw [not_or,not_or] at hunsafe
  obtain ⟨hbudget,hlead,hold⟩ := hunsafe
  rw [handedOver,if_neg hbudget,compactHistory_of_old hbudget hold] at h
  exact hlead ((noLoss_iff _).mp h)

/-- A compaction keeps a well-paired conversation well formed exactly when no message stands
before the old turns that it takes out. -/
theorem preserves_iff (str : Json → PyStr) {messages : List ChatMessage} (h : WellPaired messages)
    (maxTokens keepRecent : ℤ) :
    Preserves messages keepRecent (compactHistory str messages maxTokens keepRecent)
        (handedOver str messages maxTokens keepRecent) ↔
      Safe str messages maxTokens keepRecent := by
  constructor
  · intro hkeeps
    exact safe_of_noLoss hkeeps.noLoss
  · exact preserves_of_safe h

theorem preserves_tool_turn : Preserves
    [⟨.user,some (.str (lit "read the file")),[],none⟩,
      ⟨.assistant,none,[⟨some (lit "c1"),some (lit "read"),none,none⟩],none⟩,
      ⟨.tool,some (.str (lit "text")),[],some (lit "c1")⟩,⟨.user,some (.str (lit "and now?")),[],none⟩] 1
    (compactHistory (fun _ => []) [⟨.user,some (.str (lit "read the file")),[],none⟩,
      ⟨.assistant,none,[⟨some (lit "c1"),some (lit "read"),none,none⟩],none⟩,
      ⟨.tool,some (.str (lit "text")),[],some (lit "c1")⟩,⟨.user,some (.str (lit "and now?")),[],none⟩] 1 1)
    (handedOver (fun _ => []) [⟨.user,some (.str (lit "read the file")),[],none⟩,
      ⟨.assistant,none,[⟨some (lit "c1"),some (lit "read"),none,none⟩],none⟩,
      ⟨.tool,some (.str (lit "text")),[],some (lit "c1")⟩,⟨.user,some (.str (lit "and now?")),[],none⟩] 1 1) := by
  refine (preserves_iff (fun _ => []) ?_ 1 1).mpr (.inr (.inl ?_))
  · simp [WellPaired,PairedFrom,ChatMessage.callIds,ChatMessage.answeredId,CallDict.ident]
  · intro m hm
    cases hm
    rfl

/-- A greeting before the first turn is neither kept nor handed over. -/
theorem greeting_lost : WellPaired [⟨.assistant,some (.str (lit "Welcome")),[],none⟩,
      ⟨.user,some (.str (lit "Hello")),[],none⟩,⟨.user,some (.str (lit "Who are you?")),[],none⟩] ∧
    ¬Preserves [⟨.assistant,some (.str (lit "Welcome")),[],none⟩,
        ⟨.user,some (.str (lit "Hello")),[],none⟩,⟨.user,some (.str (lit "Who are you?")),[],none⟩] 1
      (compactHistory (fun _ => []) [⟨.assistant,some (.str (lit "Welcome")),[],none⟩,
        ⟨.user,some (.str (lit "Hello")),[],none⟩,⟨.user,some (.str (lit "Who are you?")),[],none⟩] 1 1)
      (handedOver (fun _ => []) [⟨.assistant,some (.str (lit "Welcome")),[],none⟩,
        ⟨.user,some (.str (lit "Hello")),[],none⟩,⟨.user,some (.str (lit "Who are you?")),[],none⟩] 1 1) := by
  constructor
  · simp [WellPaired,PairedFrom,ChatMessage.callIds]
  · intro h
    obtain hbudget | hturn | hfew := safe_of_noLoss h.noLoss
    · exact absurd hbudget (by decide)
    · exact absurd (hturn _ rfl) (by decide)
    · exact absurd hfew (by decide)

end MinimaxCode.Compaction
