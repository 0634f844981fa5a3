import MinimaxCode.PyJson

/-!
# Messages of a chat

The dictionaries that go to a model, with the fields that the compaction and the
transports read. A list is well paired when each tool message answers a call of the last
assistant message and no call is open where a user or assistant message stands.
-/

namespace MinimaxCode.ChatMessages

open PyText PyJson

/-- `msg.get("role")`: one of the four roles, another text, or nothing. -/
inductive Role
  | system
  | user
  | assistant
  | tool
  | other (name : Option PyStr)
  deriving DecidableEq

/-- The `function` entry of a call. Its name may be missing or null. -/
structure FunctionDict where
  name : Option (Option PyStr)
  arguments : Option Json

structure CallDict where
  id : Option PyStr
  name : Option PyStr
  function : Option FunctionDict
  arguments : Option Json

structure ChatMessage where
  role : Role
  content : Option Json
  toolCalls : List CallDict
  toolCallId : Option PyStr

/-- `tc.get("id") or ""`. -/
def CallDict.ident (c : CallDict) : PyStr := c.id.getD []

namespace ChatMessage

/-- `msg.get("tool_call_id") or ""`. -/
def answeredId (m : ChatMessage) : PyStr := m.toolCallId.getD []

def isUser (m : ChatMessage) : Bool := m.role == .user

def isSystem (m : ChatMessage) : Bool := m.role == .system

/-- The calls of an assistant message. -/
def callIds (m : ChatMessage) : List PyStr :=
  if m.role = .assistant then m.toolCalls.map CallDict.ident else []

variable {m : ChatMessage}

@[simp] theorem isUser_iff : m.isUser = true ↔ m.role = .user := beq_iff_eq

@[simp] theorem isSystem_iff : m.isSystem = true ↔ m.role = .system := beq_iff_eq

theorem callIds_eq_nil (h : m.role ≠ .assistant) : m.callIds = [] := if_neg h

theorem role_of_mem_callIds {id : PyStr} (h : id ∈ m.callIds) : m.role = .assistant := by
  by_contra hrole
  rw [callIds_eq_nil hrole] at h
  cases h

end ChatMessage

/-- The messages continue a list in which the calls `ids` are open. -/
def PairedFrom : List PyStr → List ChatMessage → Prop
  | ids, [] => ids = []
  | ids, m::rest =>
    match m.role with
    | .tool => m.answeredId ∈ ids ∧ PairedFrom (ids.erase m.answeredId) rest
    | .user => ids = [] ∧ PairedFrom [] rest
    | .assistant => ids = [] ∧ PairedFrom m.callIds rest
    | _ => PairedFrom ids rest

def WellPaired (messages : List ChatMessage) : Prop := PairedFrom [] messages

variable {m : ChatMessage} {ids : List PyStr} {xs ys : List ChatMessage}

theorem pairedFrom_nil : PairedFrom ids [] ↔ ids = [] := Iff.rfl

theorem pairedFrom_cons : PairedFrom ids (m::xs) ↔
    match m.role with
    | .tool => m.answeredId ∈ ids ∧ PairedFrom (ids.erase m.answeredId) xs
    | .user => ids = [] ∧ PairedFrom [] xs
    | .assistant => ids = [] ∧ PairedFrom m.callIds xs
    | _ => PairedFrom ids xs := Iff.rfl

theorem pairedFrom_tool (h : m.role = .tool) :
    PairedFrom ids (m::xs) ↔ m.answeredId ∈ ids ∧ PairedFrom (ids.erase m.answeredId) xs := by
  rw [pairedFrom_cons,h]

theorem pairedFrom_user (h : m.role = .user) :
    PairedFrom ids (m::xs) ↔ ids = [] ∧ PairedFrom [] xs := by
  rw [pairedFrom_cons,h]

theorem pairedFrom_assistant (h : m.role = .assistant) :
    PairedFrom ids (m::xs) ↔ ids = [] ∧ PairedFrom m.callIds xs := by
  rw [pairedFrom_cons,h]

theorem pairedFrom_system (h : m.role = .system) : PairedFrom ids (m::xs) ↔ PairedFrom ids xs := by
  rw [pairedFrom_cons,h]

theorem pairedFrom_other {name : Option PyStr} (h : m.role = .other name) :
    PairedFrom ids (m::xs) ↔ PairedFrom ids xs := by
  rw [pairedFrom_cons,h]

theorem pairedFrom_append_user (hm : m.role = .user) :
    PairedFrom ids (xs++m::ys) ↔ PairedFrom ids xs ∧ PairedFrom [] (m::ys) := by
  induction xs generalizing ids with
  | nil =>
    rw [List.nil_append,pairedFrom_user hm,pairedFrom_user hm,pairedFrom_nil]
    tauto
  | cons a rest ih =>
    rw [List.cons_append]
    cases ha : a.role with
    | system => rw [pairedFrom_system ha,pairedFrom_system ha,ih]
    | user => rw [pairedFrom_user ha,pairedFrom_user ha,ih,and_assoc]
    | assistant => rw [pairedFrom_assistant ha,pairedFrom_assistant ha,ih,and_assoc]
    | tool => rw [pairedFrom_tool ha,pairedFrom_tool ha,ih,and_assoc]
    | other name => rw [pairedFrom_other ha,pairedFrom_other ha,ih]

theorem pairedFrom_filter :
    PairedFrom ids (xs.filter fun m => !m.isSystem) ↔ PairedFrom ids xs := by
  induction xs generalizing ids with
  | nil => rfl
  | cons a rest ih =>
    have hsystem : a.isSystem = (a.role == Role.system) := rfl
    rw [List.filter_cons,hsystem]
    cases ha : a.role with
    | system => simp [pairedFrom_system ha,ih]
    | user => simp [pairedFrom_user ha,ih]
    | assistant => simp [pairedFrom_assistant ha,ih]
    | tool => simp [pairedFrom_tool ha,ih]
    | other name => simp [pairedFrom_other ha,ih]

theorem PairedFrom.call_before (h : PairedFrom ids (xs++m::ys)) (hm : m.role = .tool) :
    m.answeredId ∈ ids ∨ ∃ a ∈ xs, m.answeredId ∈ a.callIds := by
  induction xs generalizing ids with
  | nil => exact .inl ((pairedFrom_tool hm).mp h).1
  | cons a rest ih =>
    rw [List.cons_append] at h
    have hmore : ∀ {ids' : List PyStr}, PairedFrom ids' (rest++m::ys) → (∀ id ∈ ids', id ∈ ids ∨ id ∈ a.callIds) →
        m.answeredId ∈ ids ∨ ∃ a' ∈ a::rest, m.answeredId ∈ a'.callIds := by
      intro ids' h' hids
      obtain hid | ⟨b,hb,hid⟩ := ih h'
      · exact (hids _ hid).imp_right fun hcall => ⟨a,List.mem_cons_self,hcall⟩
      · exact .inr ⟨b,List.mem_cons_of_mem _ hb,hid⟩
    cases ha : a.role with
    | system => exact hmore ((pairedFrom_system ha).mp h) fun _ => .inl
    | user => exact hmore ((pairedFrom_user ha).mp h).2 (by simp)
    | assistant => exact hmore ((pairedFrom_assistant ha).mp h).2 fun _ => .inr
    | tool => exact hmore ((pairedFrom_tool ha).mp h).2 fun _ hid => .inl (List.mem_of_mem_erase hid)
    | other name => exact hmore ((pairedFrom_other ha).mp h) fun _ => .inl

theorem PairedFrom.answer_behind (h : PairedFrom ids xs) {id : PyStr} (hid : id ∈ ids) :
    ∃ t ∈ xs, t.role = .tool ∧ t.answeredId = id := by
  induction xs generalizing ids with
  | nil =>
    rw [PairedFrom] at h
    rw [h] at hid
    cases hid
  | cons a rest ih =>
    have hmore : ∀ {ids' : List PyStr}, PairedFrom ids' rest → id ∈ ids' →
        ∃ t ∈ a::rest, t.role = .tool ∧ t.answeredId = id := by
      intro ids' h' hid'
      obtain ⟨t,ht,hrole⟩ := ih h' hid'
      exact ⟨t,List.mem_cons_of_mem _ ht,hrole⟩
    cases ha : a.role with
    | system => exact hmore ((pairedFrom_system ha).mp h) hid
    | user =>
      rw [((pairedFrom_user ha).mp h).1] at hid
      cases hid
    | assistant =>
      rw [((pairedFrom_assistant ha).mp h).1] at hid
      cases hid
    | tool =>
      by_cases heq : a.answeredId = id
      · exact ⟨a,List.mem_cons_self,ha,heq⟩
      · exact hmore ((pairedFrom_tool ha).mp h).2 ((List.mem_erase_of_ne (Ne.symm heq)).mpr hid)
    | other name => exact hmore ((pairedFrom_other ha).mp h) hid

theorem PairedFrom.answered (h : PairedFrom ids (xs++m::ys)) {id : PyStr} (hid : id ∈ m.callIds) :
    ∃ t ∈ ys, t.role = .tool ∧ t.answeredId = id := by
  induction xs generalizing ids with
  | nil =>
    rw [List.nil_append,pairedFrom_assistant (ChatMessage.role_of_mem_callIds hid)] at h
    exact h.2.answer_behind hid
  | cons a rest ih =>
    rw [List.cons_append] at h
    cases ha : a.role with
    | system => exact ih ((pairedFrom_system ha).mp h)
    | user => exact ih ((pairedFrom_user ha).mp h).2
    | assistant => exact ih ((pairedFrom_assistant ha).mp h).2
    | tool => exact ih ((pairedFrom_tool ha).mp h).2
    | other name => exact ih ((pairedFrom_other ha).mp h)

end MinimaxCode.ChatMessages
