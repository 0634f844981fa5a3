import MinimaxCode.JsonText
import MinimaxCode.SplitLines
import MinimaxCode.TextMode

/-!
# The lock file of a workspace

A claim tells its operation, its process and the time it was written, each on a line of its
own; the line behind them holds the name of the directory. It is read back line by line.
-/

namespace MinimaxCode.WorkspaceLock

open PyText PyJson SplitLines

/-- The values of the characters that are decimal digits. -/
structure Decimals where
  value : PyChar → Option ℕ
  ascii : ∀ c, isDigit c = true → value c = some (c.code-48)

inductive IndexOperation
  | load
  | save
  | build
  | backgroundRefresh
  deriving DecidableEq

namespace IndexOperation

def value : IndexOperation → PyStr
  | .load => lit "load"
  | .save => lit "save"
  | .build => lit "build"
  | .backgroundRefresh => lit "background_refresh"

def isExclusive (op : IndexOperation) : Bool := op ≠ .load

def staleTimeout : IndexOperation → ℕ
  | .load => 120
  | .save => 120
  | .build => 600
  | .backgroundRefresh => 300

end IndexOperation

/-- The digits behind a first one; an underscore may stand between two. -/
def intDigits (d : Decimals) : ℕ → PyStr → Option ℕ
  | acc, [] => some acc
  | acc, [c] => (d.value c).map fun n => 10*acc+n
  | acc, c::c'::cs =>
    match d.value c with
    | some n => intDigits d (10*acc+n) (c'::cs)
    | none =>
      if c = ch '_' then
        match d.value c' with
        | some n => intDigits d (10*acc+n) cs
        | none => none
      else none

def unsignedOf (d : Decimals) : PyStr → Option ℕ
  | [] => none
  | c::cs => (d.value c).bind fun n => intDigits d n cs

/-- `int` of a text. -/
def intOfStr (d : Decimals) (s : PyStr) : Option ℤ :=
  match strip s with
  | [] => none
  | c::cs =>
    if c = ch '-' then (unsignedOf d cs).map fun n : ℕ => -(n : ℤ)
    else if c = ch '+' then (unsignedOf d cs).map fun n : ℕ => (n : ℤ)
    else (unsignedOf d (c::cs)).map fun n : ℕ => (n : ℤ)

def operationKey : PyStr := lit "operation="
def pidKey : PyStr := lit "pid="
def startedKey : PyStr := lit "started="

/-- What the lines of a lock file have told. -/
structure Parsed where
  operation : Option PyStr
  pid : Option ℤ
  started : Option ℤ

def parseLine (d : Decimals) (p : Parsed) (line : PyStr) : Parsed :=
  if operationKey <+: line then { p with operation := some (line.drop operationKey.length) }
  else if pidKey <+: line then { p with pid := intOfStr d (line.drop pidKey.length) }
  else if startedKey <+: line then { p with started := intOfStr d (line.drop startedKey.length) }
  else p

def parseLockFile (d : Decimals) (contents : PyStr) : Option (PyStr × ℤ × ℤ) :=
  match (splitlines contents).foldl (parseLine d) ⟨none,none,none⟩ with
  | ⟨some operation,some pid,some started⟩ => some (operation,pid,started)
  | _ => none

/-- The text of a claim. The name of the directory is written as it is. -/
def claimText (name : PyStr) (op : IndexOperation) (pid started : ℕ) : PyStr :=
  operationKey++op.value++ch '\n'::(pidKey++natText pid++ch '\n'::(startedKey++natText started++
    ch '\n'::(lit "workspace="++(if name.isEmpty then lit "unknown" else name)++[ch '\n'])))

/-- No line that the name of the directory makes of the claim is taken for one of the three. -/
def PlainName (name : PyStr) : Prop :=
  ∀ line ∈ splitlines (TextMode.translate
      (lit "workspace="++(if name.isEmpty then lit "unknown" else name)++[ch '\n'])),
    ¬operationKey <+: line ∧ ¬pidKey <+: line ∧ ¬startedKey <+: line

instance (name : PyStr) : Decidable (PlainName name) :=
  inferInstanceAs (Decidable (∀ line ∈ _, _))

variable {d : Decimals}

theorem natOf_eq_foldl (cs : PyStr) : natOf cs = cs.foldl (fun acc c => 10*acc+(c.code-48)) 0 := by
  rw [natOf,Nat.ofDigits_eq_foldr,List.foldr_reverse,List.foldl_map]
  congr 1
  funext acc c
  simp [Nat.add_comm]

theorem intDigits_of_digits {cs : PyStr} (h : ∀ c ∈ cs, isDigit c = true) (acc : ℕ) :
    intDigits d acc cs = some (cs.foldl (fun acc c => 10*acc+(c.code-48)) acc) := by
  induction cs generalizing acc with
  | nil => rfl
  | cons c cs ih =>
    have hc := d.ascii c (h c List.mem_cons_self)
    have hcs := ih fun c' hc' => h c' (List.mem_cons_of_mem _ hc')
    cases cs with
    | nil => simp [intDigits,hc]
    | cons c' cs =>
      rw [intDigits,hc]
      exact hcs _

theorem isSpace_of_isDigit {c : PyChar} (h : isDigit c = true) : c.isSpace = false := by
  rw [isDigit,Bool.and_eq_true,decide_eq_true_iff,decide_eq_true_iff] at h
  simp only [PyChar.isSpace,Bool.or_eq_false_iff,Bool.and_eq_false_iff,decide_eq_false_iff_not,
    beq_eq_false_iff_ne]
  omega

theorem strip_of_digits {s : PyStr} (h : ∀ c ∈ s, isDigit c = true) : strip s = s := by
  rw [strip_of_head fun c hc => isSpace_of_isDigit (h c (List.mem_of_head? hc)),
    List.rdropWhile_eq_self_iff]
  intro hne
  rw [isSpace_of_isDigit (h _ (List.getLast_mem hne))]
  exact Bool.false_ne_true

theorem intOfStr_natText (n : ℕ) : intOfStr d (natText n) = some (n : ℤ) := by
  have hdigits := natText_digits n
  have hvalue := natOf_natText n
  rw [intOfStr,strip_of_digits hdigits]
  cases htext : natText n with
  | nil =>
    by_cases hn : n = 0
    · rw [natText,if_pos hn] at htext
      cases htext
    · obtain ⟨c,cs,hcons,-⟩ := natText_cons hn
      rw [hcons] at htext
      cases htext
  | cons c cs =>
    rw [htext] at hdigits hvalue
    have hc := hdigits c List.mem_cons_self
    have hminus : c ≠ ch '-' := fun heq => absurd (heq ▸ hc) (by decide)
    have hplus : c ≠ ch '+' := fun heq => absurd (heq ▸ hc) (by decide)
    have hcs : ∀ c' ∈ cs, isDigit c' = true := fun c' hc' => hdigits c' (List.mem_cons_of_mem _ hc')
    rw [natOf_eq_foldl,List.foldl_cons,Nat.mul_zero,Nat.zero_add] at hvalue
    simp only [if_neg hminus,if_neg hplus,unsignedOf,d.ascii c hc,Option.bind_some,
      intDigits_of_digits hcs,hvalue,Option.map_some]

theorem unbroken_of_digits {s : PyStr} (h : ∀ c ∈ s, isDigit c = true) : Unbroken s := by
  intro c hc
  have hdigit := h c hc
  rw [isDigit,Bool.and_eq_true,decide_eq_true_iff,decide_eq_true_iff] at hdigit
  simp only [isLineBreak,Bool.or_eq_false_iff,Bool.and_eq_false_iff,decide_eq_false_iff_not,
    beq_eq_false_iff_ne]
  omega

theorem unbroken_value (op : IndexOperation) : Unbroken op.value := by
  cases op <;> decide

theorem cr_not_mem_of_unbroken {s : PyStr} (h : Unbroken s) : ch '\r' ∉ s :=
  fun hm => absurd (h _ hm) (by decide)

theorem translate_line {line rest : PyStr} (h : Unbroken line) :
    TextMode.translate (line++ch '\n'::rest) = line++ch '\n'::TextMode.translate rest := by
  have hcr : ch '\r' ∉ line++[ch '\n'] := by
    rw [List.mem_append,not_or]
    exact ⟨cr_not_mem_of_unbroken h,by decide⟩
  have happend : line++ch '\n'::rest = (line++[ch '\n'])++rest := by simp
  rw [happend,TextMode.translate_append fun hlast => hcr (List.mem_of_getLast? hlast.1),
    TextMode.translate_of_not_mem hcr,List.append_assoc]
  rfl

theorem foldl_parseLine_of_plain {lines : List PyStr}
    (h : ∀ line ∈ lines, ¬operationKey <+: line ∧ ¬pidKey <+: line ∧ ¬startedKey <+: line) (p : Parsed) :
    lines.foldl (parseLine d) p = p := by
  induction lines with
  | nil => rfl
  | cons line lines ih =>
    obtain ⟨hop,hpid,hstarted⟩ := h line List.mem_cons_self
    rw [List.foldl_cons,parseLine,if_neg hop,if_neg hpid,if_neg hstarted]
    exact ih fun l hl => h l (List.mem_cons_of_mem _ hl)

theorem parse_claimText {name : PyStr} (h : PlainName name) (op : IndexOperation) (pid started : ℕ) :
    parseLockFile d (TextMode.translate (claimText name op pid started)) =
      some (op.value,(pid : ℤ),(started : ℤ)) := by
  have hop : Unbroken (operationKey++op.value) := unbroken_append.mpr ⟨by decide,unbroken_value op⟩
  have hpid : Unbroken (pidKey++natText pid) :=
    unbroken_append.mpr ⟨by decide,unbroken_of_digits (natText_digits pid)⟩
  have hstarted : Unbroken (startedKey++natText started) :=
    unbroken_append.mpr ⟨by decide,unbroken_of_digits (natText_digits started)⟩
  have hopLine : ∀ p, parseLine d p (operationKey++op.value) = { p with operation := some op.value } := by
    intro p
    rw [parseLine,if_pos (List.prefix_append _ _),List.drop_left]
  have hpidLine : ∀ p, parseLine d p (pidKey++natText pid) = { p with pid := some pid } := by
    intro p
    have hne : ¬operationKey <+: pidKey++natText pid := by
      rintro ⟨rest,hrest⟩
      cases hrest
    rw [parseLine,if_neg hne,if_pos (List.prefix_append _ _),List.drop_left,intOfStr_natText]
  have hstartedLine : ∀ p, parseLine d p (startedKey++natText started) = { p with started := some started } := by
    intro p
    have hne : ¬operationKey <+: startedKey++natText started := by
      rintro ⟨rest,hrest⟩
      cases hrest
    have hne' : ¬pidKey <+: startedKey++natText started := by
      rintro ⟨rest,hrest⟩
      cases hrest
    rw [parseLine,if_neg hne,if_neg hne',if_pos (List.prefix_append _ _),List.drop_left,intOfStr_natText]
  rw [claimText,translate_line hop,translate_line hpid,translate_line hstarted,parseLockFile,
    splitlines_line hop,splitlines_line hpid,splitlines_line hstarted,List.foldl_cons,List.foldl_cons,
    List.foldl_cons,hopLine,hpidLine,hstartedLine,foldl_parseLine_of_plain h]

end MinimaxCode.WorkspaceLock
