import Mathlib.Data.List.TakeWhile

/-!
# Options on a command line

A program is told its options in a list of arguments, and most options can be written in several
ways: a letter in an argument of its own or clustered with other letters, its value in the next
argument or joined to the letter, a word with its value behind a sign such as `=`. A grammar says
which letters and words a program knows. Reading the arguments with it keeps how each option was
written next to what it means, and loses nothing of the line.
-/

namespace Getopt

/-- An option, whichever of its names is used for it. -/
structure Opt (α : Type*) where
  name : List α
  /-- The option needs a value. -/
  takes : Bool
  /-- Everything behind the option is an operand. -/
  last : Bool
  deriving DecidableEq

/-- The options that a program knows. -/
structure Grammar (α : Type*) where
  /-- The signs an option starts with. -/
  leads : List α
  /-- The sign between a word and its value. -/
  equals : α
  /-- The argument that ends the options. -/
  stop : List α
  letter : α → Option (Opt α)
  /-- The options with a whole argument for a name, signs included. -/
  word : List α → Option (Opt α)
  /-- Options may stand behind operands. -/
  permutes : Bool

/-- What a part of the command line means. -/
inductive Item (α : Type*)
  | option (o : Opt α) (value : Option (List α))
  | operand (arg : List α)
  deriving DecidableEq

/-- A part of the command line as it is written. -/
inductive Written (α : Type*)
  /-- Options in one argument, the last perhaps joined to its value. -/
  | here (arg : List α) (flags : List (Opt α)) (joined : Option (Opt α × List α))
  /-- A word and its value in one argument. -/
  | equals (word : List α) (sign : α) (o : Opt α) (value : List α)
  /-- Options in one argument, with the value of the last in the next. -/
  | apart (arg : List α) (flags : List (Opt α)) (o : Opt α) (value : List α)
  | stop (arg : List α)
  | operand (arg : List α)

namespace Written

variable {α : Type*}

/-- The arguments that a part takes up. -/
def args : Written α → List (List α)
  | here arg _ _ => [arg]
  | equals word sign _ value => [word++sign::value]
  | apart arg _ _ value => [arg,value]
  | stop arg => [arg]
  | operand arg => [arg]

def items : Written α → List (Item α)
  | here _ flags joined => flags.map (.option · none)++joined.toList.map fun j => .option j.1 (some j.2)
  | equals _ _ o value => [.option o (some value)]
  | apart _ flags o value => flags.map (.option · none)++[.option o (some value)]
  | stop _ => []
  | operand arg => [.operand arg]

/-- Nothing behind the part is an option. -/
def last : Written α → Bool
  | here _ flags joined => flags.any (·.last) || joined.any (·.1.last)
  | equals _ _ o _ => o.last
  | apart _ flags o _ => flags.any (·.last) || o.last
  | stop _ => true
  | operand _ => false

end Written

/-- What a command line means. -/
def meaning {α : Type*} (ws : List (Written α)) : List (Item α) := ws.flatMap Written.items

/-- What one argument is, taken by itself. -/
inductive Argument (α : Type*)
  | operand
  | stop
  | complete (flags : List (Opt α)) (joined : Option (Opt α × List α))
  | equals (word : List α) (o : Opt α) (value : List α)
  /-- The last option still needs its value. -/
  | awaiting (flags : List (Opt α)) (o : Opt α)
  /-- No option of the program. -/
  | unknown

section Line

variable {α : Type*}

/-- The parts of a line that goes on behind `w` with `rest`, whose reading is `tail`. -/
def proceed (w : Written α) (rest : List (List α)) (tail : Option (List (Written α))) :
    Option (List (Written α)) :=
  if w.last then some (w::rest.map .operand) else tail.map (w::·)

theorem proceed_eq_some {w : Written α} {rest : List (List α)} {tail : Option (List (Written α))}
    {ws : List (Written α)} (h : proceed w rest tail = some ws) :
    ws = w::rest.map .operand ∨ ∃ ws', tail = some ws' ∧ ws = w::ws' := by
  unfold proceed at h
  split at h
  · exact .inl (Option.some.inj h).symm
  · obtain ⟨ws',htail,rfl⟩ := Option.map_eq_some_iff.mp h
    exact .inr ⟨ws',htail,rfl⟩

theorem args_operands (rest : List (List α)) :
    (rest.map Written.operand).flatMap Written.args = rest := by
  induction rest with
  | nil => rfl
  | cons arg rest ih => simp [Written.args,ih]

end Line

section Read

variable {α : Type*} (g : Grammar α)

/-- The letters of a cluster: the first that takes a value has the rest for it. -/
def letters : List α → Option (List (Opt α) × Option (Opt α × List α))
  | [] => some ([],none)
  | c::cs => do
    let o ← g.letter c
    if o.takes then some ([],some (o,cs))
    else
      let (flags,joined) ← letters cs
      some (o::flags,joined)

def cluster (cs : List α) : Argument α :=
  match letters g cs with
  | none => .unknown
  | some (flags,none) => .complete flags none
  | some (flags,some (o,[])) => .awaiting flags o
  | some (flags,some (o,value)) => .complete flags (some (o,value))

theorem cluster_ne_equals (cs : List α) (word : List α) (o : Opt α) (value : List α) :
    cluster g cs ≠ .equals word o value := by
  unfold cluster
  split <;> exact fun h => nomatch h

variable [DecidableEq α]

/-- A word before the first sign, with what stands behind it. -/
def wordValue (arg : List α) : Option (List α × Opt α × List α) :=
  match arg.dropWhile (· ≠ g.equals) with
  | [] => none
  | _::value => (g.word (arg.takeWhile (· ≠ g.equals))).map fun o =>
      (arg.takeWhile (· ≠ g.equals),o,value)

def classify (arg : List α) : Argument α :=
  if arg = g.stop then .stop
  else
    match g.word arg with
    | some o => if o.takes then .awaiting [] o else .complete [o] none
    | none =>
      match wordValue g arg with
      | some (word,o,value) => .equals word o value
      | none =>
        match arg with
        | lead::c::cs => if lead ∈ g.leads then cluster g (c::cs) else .operand
        | _ => .operand

/-- The command line as the program reads it, or `none` where it gives up with a usage error. -/
def read : List (List α) → Option (List (Written α))
  | [] => some []
  | arg::rest =>
    match classify g arg with
    | .operand =>
      if g.permutes then (read rest).map (.operand arg::·)
      else some (.operand arg::rest.map .operand)
    | .stop => some (.stop arg::rest.map .operand)
    | .complete flags joined => proceed (.here arg flags joined) rest (read rest)
    | .equals word o value => proceed (.equals word g.equals o value) rest (read rest)
    | .awaiting flags o =>
      match rest with
      | [] => none
      | value::rest => proceed (.apart arg flags o value) rest (read rest)
    | .unknown => none

theorem wordValue_eq_some {arg word value : List α} {o : Opt α}
    (h : wordValue g arg = some (word,o,value)) : arg = word++g.equals::value ∧ g.equals ∉ word := by
  have hsplit := List.takeWhile_append_dropWhile (p := (· ≠ g.equals)) (l := arg)
  have hhead := List.head?_dropWhile_not (· ≠ g.equals) arg
  unfold wordValue at h
  split at h
  · cases h
  next sign value' heq =>
    obtain ⟨o',_,hprod⟩ := Option.map_eq_some_iff.mp h
    cases hprod
    rw [heq] at hsplit hhead
    have hsign : sign = g.equals := by simpa using hhead
    refine ⟨by rw [← hsign] at hsplit ⊢; exact hsplit.symm,fun hmem => ?_⟩
    simpa using List.mem_takeWhile_imp hmem

theorem classify_equals {arg word value : List α} {o : Opt α}
    (h : classify g arg = .equals word o value) :
    arg = word++g.equals::value ∧ g.equals ∉ word := by
  apply wordValue_eq_some
  unfold classify at h
  split at h
  · cases h
  split at h
  · split at h <;> cases h
  split at h
  next heq =>
    cases h
    exact heq
  next =>
    split at h
    · split at h
      · exact absurd h (cluster_ne_equals g _ word o value)
      · cases h
    · cases h

/-- What reading guarantees of a part: the sign of a word is the first of its argument. -/
def Written.Formed : Written α → Prop
  | equals word sign _ _ => sign = g.equals ∧ g.equals ∉ word
  | _ => True

theorem read_induction {Q : List (List α) → List (Written α) → Prop}
    (operands : ∀ rest, Q rest (rest.map .operand))
    (cons : ∀ w rest ws, w.Formed g → Q rest ws → Q (w.args++rest) (w::ws)) (args : List (List α)) :
    ∀ ws, read g args = some ws → Q args ws := by
  have step : ∀ {w : Written α} {rest : List (List α)} {tail : Option (List (Written α))},
      w.Formed g → (∀ ws, tail = some ws → Q rest ws) →
      ∀ ws, proceed w rest tail = some ws → Q (w.args++rest) ws := by
    intro w rest tail hw ih ws h
    obtain rfl | ⟨ws',htail,rfl⟩ := proceed_eq_some h
    · exact cons w rest _ hw (operands rest)
    · exact cons w rest ws' hw (ih ws' htail)
  fun_induction read g args with
  | case1 => exact fun ws h => by cases h; exact operands []
  | case2 arg rest hclass hpermutes ih =>
    intro ws h
    obtain ⟨ws',htail,rfl⟩ := Option.map_eq_some_iff.mp h
    exact cons (.operand arg) rest ws' trivial (ih ws' htail)
  | case3 arg rest hclass hpermutes => exact fun ws h => by cases h; exact operands (arg::rest)
  | case4 arg rest hclass =>
    intro ws h
    cases h
    exact cons (.stop arg) rest _ trivial (operands rest)
  | case5 arg rest flags joined hclass ih => exact step (w := .here arg flags joined) trivial ih
  | case6 arg rest word o value hclass ih =>
    obtain ⟨rfl,hsign⟩ := classify_equals g hclass
    have h := step (w := .equals word g.equals o value) ⟨rfl,hsign⟩ ih
    exact h
  | case7 => exact fun ws h => nomatch h
  | case8 arg flags o hclass value rest ih =>
    exact step (w := .apart arg flags o value) trivial ih
  | case9 => exact fun ws h => nomatch h

theorem args_read {args : List (List α)} {ws : List (Written α)} (h : read g args = some ws) :
    ws.flatMap Written.args = args := by
  refine read_induction g (Q := fun args ws => ws.flatMap Written.args = args) args_operands ?_ args ws h
  intro w rest ws _ ih
  rw [List.flatMap_cons,ih]

theorem formed_read {args : List (List α)} {ws : List (Written α)} (h : read g args = some ws) :
    ∀ w ∈ ws, w.Formed g := by
  refine read_induction g (Q := fun _ ws => ∀ w ∈ ws, w.Formed g) ?_ ?_ args ws h
  · intro rest w hw
    obtain ⟨arg,_,rfl⟩ := List.mem_map.mp hw
    trivial
  · exact fun w rest ws hw ih => List.forall_mem_cons.mpr ⟨hw,ih⟩

end Read
end Getopt
