import MinimaxCode.AuditRedaction
import MinimaxCode.Getopt

/-!
# The deny list of the terminal tool

A command is refused when its first argument names a program of the list and, for most of the
programs, when one argument is a listed flag by itself or in front of `=`. What the programs make
of their arguments is not in the repository: the parameter `Cli` says for every program how it
reads its command line, which of its options run code given inline, and what `rm` deletes.
-/

namespace MinimaxCode.DenyList

open PyText Getopt
open Audit (lower)

def denyCommands : List (PyStr × List PyStr) := [
  (lit "bash",[lit "-c",lit "--command"]),
  (lit "sh",[lit "-c"]),
  (lit "zsh",[lit "-c"]),
  (lit "fish",[lit "-c"]),
  (lit "cmd",[lit "/c",lit "/C",lit "-c"]),
  (lit "powershell",[lit "-command",lit "-Command",lit "-c",lit "-enc",lit "-encodedcommand"]),
  (lit "pwsh",[lit "-command",lit "-Command",lit "-c",lit "-enc",lit "-encodedcommand"]),
  (lit "python",[lit "-c"]),
  (lit "python3",[lit "-c"]),
  (lit "node",[lit "-e",lit "--eval",lit "-c",lit "--print"]),
  (lit "perl",[lit "-e",lit "-E"]),
  (lit "ruby",[lit "-e"]),
  (lit "php",[lit "-r"]),
  (lit "sudo",[]),
  (lit "su",[]),
  (lit "runas",[]),
  (lit "format",[]),
  (lit "shutdown",[]),
  (lit "halt",[]),
  (lit "poweroff",[]),
  (lit "reboot",[]),
  (lit "init",[lit "0",lit "6"])]

def argLevelDanger : List PyStr :=
  ["bash","sh","zsh","fish","cmd","powershell","pwsh","python","python3","node","perl","ruby","php",
    "init"].map lit

def unconditionalBlock : List PyStr := (denyCommands.filter (·.2.isEmpty)).map (·.1)

def winExecExts : List PyStr := [".exe",".bat",".cmd",".com",".ps1"].map lit

/-- `s.rsplit(sep, 1)[-1]`. -/
def afterLast (sep : PyChar) (s : PyStr) : PyStr := s.rtakeWhile (· ≠ sep)

/-- `s.rpartition(sep)` without the separator, where it occurs. -/
def rpartition (sep : PyChar) (s : PyStr) : Option (PyStr × PyStr) :=
  if sep ∈ s then some ((s.rdropWhile (· ≠ sep)).dropLast,s.rtakeWhile (· ≠ sep)) else none

/-- `_strip_executable_name`; `win32` says whether `sys.platform` is that. -/
def stripExecutableName (win32 : Bool) (base : PyStr) : PyStr :=
  let base :=
    if ch '/' ∈ base ∨ ch '\\' ∈ base then afterLast (ch '\\') (afterLast (ch '/') base) else base
  match rpartition (ch '.') base with
  | some (stem,ext) => if ch '.'::ext ∈ winExecExts ∨ win32 then stem else base
  | none => base

def matchesDenyArg (arg pattern : PyStr) : Bool :=
  if arg = pattern then true
  else if (lit "--").isPrefixOf pattern || (lit "-").isPrefixOf pattern then
    (pattern++lit "=").isPrefixOf arg
  else false

/-- `re.fullmatch(r"[a-z]:[\\/]?", arg)`. -/
def driveRoot : PyStr → Bool
  | .scalar c::.scalar ':'::rest => 'a' ≤ c && c ≤ 'z' && (rest == [] || rest == lit "\\" || rest == lit "/")
  | _ => false

/-- What `recursive_force` asks of one argument. -/
def recursiveForce (arg : PyStr) : Bool :=
  (lit "-").isPrefixOf arg && arg.contains (ch 'r') && arg.contains (ch 'f')

/-- What `root_target` asks of one argument. -/
def rootTarget (arg : PyStr) : Bool := arg == lit "/" || arg == lit "\\" || driveRoot arg

def rootDeletion (args : List PyStr) : Bool :=
  (args.map lower).any recursiveForce && (args.map lower).any rootTarget

/-- Some pattern of a list matches an argument. -/
def listed (patterns : List PyStr) (arg : PyStr) : Bool :=
  patterns.any fun pat => matchesDenyArg (lower arg) (lower pat)

/-- The loop over `cmd[1:]`. -/
def argReason (first : PyStr) (patterns args : List PyStr) : Option PyStr :=
  args.findSome? fun arg =>
    if listed patterns arg then
      some (lit "'"++first++lit " "++arg++lit "' is blocked (shell escape / eval pattern)")
    else none

def isDangerousCmd (win32 : Bool) : List PyStr → Option PyStr
  | [] => none
  | first::args =>
    let base := stripExecutableName win32 (lower first)
    if base ∈ unconditionalBlock then
      some (lit "'"++first++lit "' is blocked (privilege escalation / destructive)")
    else if base ∈ [lit "rm",lit "rmdir"] ∧ rootDeletion args then
      some (lit "'"++first++lit "' is blocked (destructive root deletion)")
    else
      match denyCommands.lookup base with
      | none => none
      | some patterns => if base ∈ argLevelDanger then argReason first patterns args else none

/-- The programs that the check knows. -/
def programs : List PyStr := denyCommands.map (·.1)++[lit "rm",lit "rmdir"]

variable {sep : PyChar} {prog : PyStr}

theorem afterLast_append_sep {b : PyStr} (h : sep ∉ b) (a : PyStr) :
    afterLast sep (a++sep::b) = b := by
  have hspan := span_append (p := (· ≠ sep)) (a := b.reverse) (b := sep::a.reverse)
    (fun c hc => by
      have : c ≠ sep := fun hcs => h (hcs ▸ List.mem_reverse.mp hc)
      simpa using this) (by simp)
  have hrev : (a++sep::b).reverse = b.reverse++sep::a.reverse := by simp
  rw [afterLast,List.rtakeWhile,hrev,hspan.1,List.reverse_reverse]

theorem afterLast_append {b : PyStr} (h : sep ∉ b) (a : PyStr) :
    afterLast sep (a++b) = afterLast sep a++b := by
  have hpos : ∀ c ∈ b.reverse, (decide (c ≠ sep)) = true := fun c hc => by
    have : c ≠ sep := fun hcs => h (hcs ▸ List.mem_reverse.mp hc)
    simpa using this
  rw [afterLast,List.rtakeWhile,List.reverse_append,List.takeWhile_append_of_pos hpos,
    List.reverse_append,List.reverse_reverse]
  rfl

theorem afterLast_of_not_mem {s : PyStr} (h : sep ∉ s) : afterLast sep s = s :=
  afterLast_append h []

theorem rpartition_append_sep {ext : PyStr} (h : sep ∉ ext) (stem : PyStr) :
    rpartition sep (stem++sep::ext) = some (stem,ext) := by
  have hmem : sep ∈ stem++sep::ext := by simp
  have hext : ext.rdropWhile (· ≠ sep) = [] := by
    rw [List.rdropWhile_eq_nil_iff]
    intro c hc
    have : c ≠ sep := fun hcs => h (hcs ▸ hc)
    simpa using this
  have hdrop : (stem++sep::ext).rdropWhile (· ≠ sep) = stem++[sep] := by
    have h := rdropWhile_append (p := (· ≠ sep)) (a := stem++[sep]) (by simp) ext
    rw [hext,List.append_nil,List.append_assoc] at h
    exact h
  rw [rpartition,if_pos hmem,hdrop,List.dropLast_concat]
  exact congrArg some (congrArg (Prod.mk stem) (afterLast_append_sep h stem))

/-- What may stand in front of a program's name. -/
def IsDir (dir : PyStr) : Prop := ∀ c ∈ dir.getLast?, c = ch '/' ∨ c = ch '\\'

instance : DecidablePred IsDir := fun dir =>
  inferInstanceAs (Decidable (∀ c ∈ dir.getLast?, c = ch '/' ∨ c = ch '\\'))

/-- What may stand behind it. -/
def IsExt (ext : PyStr) : Prop := ext = [] ∨ lower ext ∈ winExecExts

theorem lower_append (a b : PyStr) : lower (a++b) = lower a++lower b := List.map_append

theorem lower_slash : lower [ch '/'] = [ch '/'] ∧ lower [ch '\\'] = [ch '\\'] := by decide

theorem afterSeparators {dir m : PyStr} (hdir : IsDir dir) (hslash : ch '/' ∉ m)
    (hback : ch '\\' ∉ m) :
    afterLast (ch '\\') (afterLast (ch '/') (lower dir++m)) = m := by
  obtain rfl | ⟨front,c,rfl⟩ := List.eq_nil_or_concat' dir
  · rw [show lower []++m = m from rfl,afterLast_of_not_mem hslash,afterLast_of_not_mem hback]
  obtain rfl | rfl := hdir c (by simp)
  · rw [lower_append,lower_slash.1,List.append_assoc,List.singleton_append,
      afterLast_append_sep hslash,afterLast_of_not_mem hback]
  · have hslash' : ch '/' ∉ ch '\\'::m := by simpa using hslash
    rw [lower_append,lower_slash.2,List.append_assoc,List.singleton_append,afterLast_append hslash',
      afterLast_append_sep hback]

theorem stripExecutableName_spelling (win32 : Bool) {dir name ext : PyStr} (hdir : IsDir dir)
    (hname : lower name = prog) (hprog : prog ∈ programs) (hext : IsExt ext) :
    stripExecutableName win32 (lower (dir++name++ext)) = prog := by
  have hplain : ∀ p ∈ programs, ch '/' ∉ p ∧ ch '\\' ∉ p ∧ ch '.' ∉ p := by decide
  obtain ⟨hslash,hback,hdot⟩ := hplain prog hprog
  have hexts : ∀ e ∈ []::winExecExts, ch '/' ∉ e ∧ ch '\\' ∉ e := by decide
  have hmem : lower ext ∈ []::winExecExts := by
    obtain rfl | h := hext
    · exact List.mem_cons_self
    · exact List.mem_cons_of_mem _ h
  obtain ⟨hslash',hback'⟩ := hexts _ hmem
  have hbase : afterLast (ch '\\') (afterLast (ch '/') (lower (dir++name++ext))) = prog++lower ext := by
    rw [lower_append,lower_append,hname,List.append_assoc]
    exact afterSeparators hdir (by simp [hslash,hslash']) (by simp [hback,hback'])
  have hsplit : (if ch '/' ∈ lower (dir++name++ext) ∨ ch '\\' ∈ lower (dir++name++ext) then
      afterLast (ch '\\') (afterLast (ch '/') (lower (dir++name++ext)))
      else lower (dir++name++ext)) = prog++lower ext := by
    split
    · exact hbase
    next hno =>
      obtain ⟨h₁,h₂⟩ := not_or.mp hno
      rwa [afterLast_of_not_mem h₁,afterLast_of_not_mem h₂] at hbase
  simp only [stripExecutableName,hsplit]
  obtain rfl | h := hext
  · have hnone : rpartition (ch '.') (prog++lower []) = none := by
      rw [show lower [] = [] from rfl,List.append_nil,rpartition,if_neg hdot]
    rw [hnone]
    exact List.append_nil prog
  · have hdots : ∀ e ∈ winExecExts, e = ch '.'::e.tail ∧ ch '.' ∉ e.tail := by decide
    obtain ⟨heq,htail⟩ := hdots _ h
    have hpart : rpartition (ch '.') (prog++lower ext) = some (prog,(lower ext).tail) := by
      rw [heq]
      exact rpartition_append_sep htail prog
    rw [hpart]
    exact if_pos (.inl (heq ▸ h))

/-- The listed flags of a program. -/
def patterns (prog : PyStr) : List PyStr := (denyCommands.lookup prog).getD []

theorem argReason_ne_none {first : PyStr} {pats args : List PyStr} :
    argReason first pats args ≠ none ↔ ∃ arg ∈ args, listed pats arg = true := by
  simp [argReason]

theorem isDangerousCmd_ne_none (win32 : Bool) {first : PyStr} {args : List PyStr}
    (hbase : stripExecutableName win32 (lower first) = prog) (hprog : prog ∈ programs) :
    isDangerousCmd win32 (first::args) ≠ none ↔ prog ∈ unconditionalBlock ∨
      prog ∈ [lit "rm",lit "rmdir"] ∧ rootDeletion args = true ∨
      ∃ arg ∈ args, listed (patterns prog) arg = true := by
  have hdanger : ∀ p ∈ programs, p ∈ argLevelDanger ∨ patterns p = [] := by decide
  simp only [isDangerousCmd,hbase]
  by_cases hblock : prog ∈ unconditionalBlock
  · simp [hblock]
  by_cases hroot : prog ∈ [lit "rm",lit "rmdir"] ∧ rootDeletion args = true
  · rw [if_neg hblock,if_pos hroot]
    exact ⟨fun _ => .inr (.inl hroot),fun _ => Option.some_ne_none _⟩
  have hrest : (∃ arg ∈ args, listed (patterns prog) arg = true) ↔ prog ∈ unconditionalBlock ∨
      prog ∈ [lit "rm",lit "rmdir"] ∧ rootDeletion args = true ∨
      ∃ arg ∈ args, listed (patterns prog) arg = true :=
    ⟨fun h => .inr (.inr h),fun h => (h.resolve_left hblock).resolve_left hroot⟩
  rw [if_neg hblock,if_neg hroot,← hrest]
  cases hlook : denyCommands.lookup prog with
  | none => simp [patterns,hlook,listed]
  | some pats =>
    have hpats : patterns prog = pats := by rw [patterns,hlook]; rfl
    rw [hpats]
    by_cases harg : prog ∈ argLevelDanger
    · simp only [if_pos harg]
      exact argReason_ne_none
    · have hnil : pats = [] := hpats ▸ (hdanger prog hprog).resolve_left harg
      simp [harg,hnil,listed]

theorem toLower_equals {c : Char} (h : c.toLower = '=') : c = '=' := by
  unfold Char.toLower at h
  split at h
  next hupper =>
    have hval : c.val + ('a'.val - 'A'.val) = '='.val := congrArg Char.val h
    grind [UInt32.toNat_add]
  next => exact h

theorem lower_equals {s : PyStr} (h : ch '=' ∉ s) : ch '=' ∉ lower s := by
  intro hmem
  obtain ⟨c,hc,hlower⟩ := List.mem_map.mp hmem
  cases c with
  | surrogate n => cases hlower
  | scalar c =>
    simp only [PyChar.scalar.injEq] at hlower
    split at hlower
    · exact absurd hlower (by decide)
    · exact h (toLower_equals hlower ▸ hc)

theorem matchesDenyArg_iff {arg pattern : PyStr} : matchesDenyArg arg pattern = true ↔
    arg = pattern ∨ (lit "-").isPrefixOf pattern = true ∧ ∃ value, arg = pattern++ch '='::value := by
  have hdash : ((lit "--").isPrefixOf pattern || (lit "-").isPrefixOf pattern) =
      (lit "-").isPrefixOf pattern := by
    rw [Bool.or_eq_right_iff_imp]
    intro h
    have htrans : lit "-" <+: lit "--" := ⟨lit "-",rfl⟩
    exact List.isPrefixOf_iff_prefix.mpr (htrans.trans (List.isPrefixOf_iff_prefix.mp h))
  have hvalue : (pattern++lit "=").isPrefixOf arg = true ↔ ∃ value, arg = pattern++ch '='::value := by
    rw [List.isPrefixOf_iff_prefix]
    exact exists_congr fun value => by
      rw [List.append_assoc]
      exact eq_comm
  unfold matchesDenyArg
  split
  next h => simp [h]
  next h =>
    rw [hdash,← hvalue]
    simp [h]

/-- The argument is a flag of the list in any letter case, alone or in front of `=`. -/
def IsFlag (pats : List PyStr) (arg : PyStr) : Prop :=
  ∃ pat ∈ pats, lower arg = lower pat ∨
    (lit "-").isPrefixOf (lower pat) = true ∧ ∃ value, lower arg = lower pat++ch '='::value

theorem listed_iff {pats : List PyStr} {arg : PyStr} : listed pats arg = true ↔ IsFlag pats arg := by
  rw [listed,List.any_eq_true]
  exact exists_congr fun pat => and_congr_right fun _ => matchesDenyArg_iff

/-- The part of the line is a listed flag to whoever looks at whole arguments: it is the flag alone,
or a word of the list with its value, or a value or an operand that reads like a flag. -/
def Shows (pats : List PyStr) : Written PyChar → Prop
  | .here arg _ _ => IsFlag pats arg
  | .equals word sign _ value =>
    if sign = ch '=' then ∃ pat ∈ pats, (lit "-").isPrefixOf (lower pat) = true ∧ lower word = lower pat
    else IsFlag pats (word++sign::value)
  | .apart arg _ _ value => IsFlag pats arg ∨ IsFlag pats value
  | .stop arg => IsFlag pats arg
  | .operand arg => IsFlag pats arg

theorem isFlag_equals {word : PyStr} (hprog : prog ∈ programs) (hword : ch '=' ∉ word)
    (value : PyStr) : IsFlag (patterns prog) (word++ch '='::value) ↔
      ∃ pat ∈ patterns prog, (lit "-").isPrefixOf (lower pat) = true ∧ lower word = lower pat := by
  have hpats : ∀ p ∈ programs, ∀ pat ∈ patterns p, ch '=' ∉ lower pat := by decide
  have hlower : lower (word++ch '='::value) = lower word++ch '='::lower value := lower_append _ _
  refine exists_congr fun pat => and_congr_right fun hpat => ?_
  have hno := hpats prog hprog pat hpat
  rw [hlower]
  refine ⟨fun h => ?_,fun ⟨hdash,heq⟩ => .inr ⟨hdash,lower value,by rw [heq]⟩⟩
  obtain heq | ⟨hdash,value',heq⟩ := h
  · exact absurd (by simp [← heq]) hno
  · exact ⟨hdash,(append_sep_inj (lower_equals hword) hno heq).1⟩

theorem shows_iff {g : Grammar PyChar} (hprog : prog ∈ programs) {w : Written PyChar}
    (hw : w.Formed g) : Shows (patterns prog) w ↔ ∃ arg ∈ w.args, IsFlag (patterns prog) arg := by
  cases w with
  | equals word sign o value =>
    obtain ⟨rfl,hword⟩ := hw
    simp only [Written.args,List.mem_singleton,exists_eq_left,Shows]
    split
    next hsign =>
      rw [hsign] at hword ⊢
      exact (isFlag_equals hprog hword value).symm
    next => exact Iff.rfl
  | here arg flags joined => simp [Written.args,Shows]
  | apart arg flags o value => simp [Written.args,Shows]
  | stop arg => simp [Written.args,Shows]
  | operand arg => simp [Written.args,Shows]

/-- How the programs of the list take their command lines. -/
structure Cli where
  grammar : PyStr → Grammar PyChar
  /-- The option makes a program run code from the command line: its value, or the first operand
  where it takes none. -/
  code : PyStr → Opt PyChar → Bool
  /-- The option makes `rm` descend into directories. -/
  recursive : Opt PyChar → Bool
  /-- The option makes `rm` ask nothing. -/
  force : Opt PyChar → Bool
  /-- The target names a root directory. -/
  root : PyStr → Bool

/-- The program is given inline code. -/
def Cli.GivesCode (cli : Cli) (prog : PyStr) (items : List (Item PyChar)) : Prop :=
  ∃ o value, .option o value ∈ items ∧ cli.code prog o = true ∧
    (value = none → ∃ arg, .operand arg ∈ items)

/-- `rm` deletes a root directory. -/
def Cli.DeletesRoot (cli : Cli) (items : List (Item PyChar)) : Prop :=
  (∃ o value, .option o value ∈ items ∧ cli.recursive o = true) ∧
    (∃ o value, .option o value ∈ items ∧ cli.force o = true) ∧
    ∃ arg, .operand arg ∈ items ∧ cli.root arg = true

/-- A command line that runs a program with given options and operands. -/
structure Spelling (cli : Cli) (prog : PyStr) (items : List (Item PyChar)) where
  dir : PyStr
  name : PyStr
  ext : PyStr
  args : List PyStr
  parts : List (Written PyChar)
  isDir : IsDir dir
  isName : lower name = prog
  isExt : IsExt ext
  reads : read (cli.grammar prog) args = some parts
  means : meaning parts = items

section Verdict

variable {cli : Cli} {prog : PyStr} {items : List (Item PyChar)}

def Spelling.cmd (s : Spelling cli prog items) : List PyStr := (s.dir++s.name++s.ext)::s.args

/-- The check has something to go by: the program is blocked as such, or `rm` has a dash argument
with both letters and a target in one of the listed forms, or a part of the line shows a flag. -/
def Spelling.Shown (s : Spelling cli prog items) : Prop :=
  prog ∈ unconditionalBlock ∨
    prog ∈ [lit "rm",lit "rmdir"] ∧ (∃ arg ∈ s.args, recursiveForce (lower arg) = true) ∧
      (∃ arg ∈ s.args, rootTarget (lower arg) = true) ∨
    ∃ w ∈ s.parts, Shows (patterns prog) w

theorem shown_iff (win32 : Bool) (hprog : prog ∈ programs) (s : Spelling cli prog items) :
    isDangerousCmd win32 s.cmd ≠ none ↔ s.Shown := by
  have hbase := stripExecutableName_spelling win32 s.isDir s.isName hprog s.isExt
  have hargs : (∃ arg ∈ s.args, listed (patterns prog) arg = true) ↔
      ∃ w ∈ s.parts, Shows (patterns prog) w := by
    simp only [← args_read _ s.reads,List.mem_flatMap,listed_iff]
    constructor
    · rintro ⟨arg,⟨w,hw,harg⟩,hflag⟩
      exact ⟨w,hw,(shows_iff hprog (formed_read _ s.reads w hw)).mpr ⟨arg,harg,hflag⟩⟩
    · rintro ⟨w,hw,hshows⟩
      obtain ⟨arg,harg,hflag⟩ := (shows_iff hprog (formed_read _ s.reads w hw)).mp hshows
      exact ⟨arg,⟨w,hw,harg⟩,hflag⟩
  rw [Spelling.cmd,isDangerousCmd_ne_none win32 hbase hprog,Spelling.Shown,hargs]
  simp [rootDeletion]

/-- The list cannot be spelled around: inline code and the deletion of a root are refused, and
another spelling `t` of the same command gets the same verdict. -/
structure Unevadable (win32 : Bool) (s t : Spelling cli prog items) : Prop where
  code : cli.GivesCode prog items → isDangerousCmd win32 s.cmd ≠ none
  root : prog = lit "rm" → cli.DeletesRoot items → isDangerousCmd win32 s.cmd ≠ none
  same : isDangerousCmd win32 s.cmd = none ↔ isDangerousCmd win32 t.cmd = none

/-- What the check needs of the spelling. -/
structure InSight (s t : Spelling cli prog items) : Prop where
  code : cli.GivesCode prog items → s.Shown
  root : prog = lit "rm" → cli.DeletesRoot items → s.Shown
  same : s.Shown ↔ t.Shown

theorem unevadable_iff (win32 : Bool) (hprog : prog ∈ programs) (s t : Spelling cli prog items) :
    Unevadable win32 s t ↔ InSight s t := by
  have hs := shown_iff win32 hprog s
  have ht := shown_iff win32 hprog t
  constructor
  · intro h
    exact ⟨fun hcode => hs.mp (h.code hcode),fun hrm hroot => hs.mp (h.root hrm hroot),
      hs.symm.trans ((not_congr h.same).trans ht)⟩
  · intro h
    exact ⟨fun hcode => hs.mpr (h.code hcode),fun hrm hroot => hs.mpr (h.root hrm hroot),
      not_iff_not.mp (hs.trans (h.same.trans ht.symm))⟩

end Verdict

/-- A program with single letters: flags, options with a value, and such that end the options. -/
def letterOf (flags valued last : String) (c : PyChar) : Option (Opt PyChar) :=
  if c ∈ lit flags then some ⟨[ch '-',c],false,false⟩
  else if c ∈ lit valued then some ⟨[ch '-',c],true,false⟩
  else if c ∈ lit last then some ⟨[ch '-',c],true,true⟩
  else none

def bare : Grammar PyChar where
  leads := [ch '-']
  equals := ch '='
  stop := lit "--"
  letter _ := none
  word _ := none
  permutes := false

def pythonGrammar : Grammar PyChar :=
  { bare with
    letter := letterOf "bBdEhiIOPqRsSuvVx?" "WX" "cm"
    word := fun arg =>
      if arg ∈ [lit "--help",lit "--version"] then some ⟨arg,false,false⟩
      else if arg = lit "--check-hash-based-pycs" then some ⟨arg,true,false⟩
      else none }

/-- `-r`, `-R` and `--recursive` are one option, `-f` and `--force` another. -/
def rmGrammar : Grammar PyChar :=
  { bare with
    letter := fun c => letterOf "dfiIrv" "" "" (if c = ch 'R' then ch 'r' else c)
    word := fun arg =>
      if arg = lit "--recursive" then some ⟨lit "-r",false,false⟩
      else if arg = lit "--force" then some ⟨lit "-f",false,false⟩
      else if arg ∈ [lit "--one-file-system",lit "--no-preserve-root",lit "--preserve-root"] then
        some ⟨arg,false,false⟩
      else none
    permutes := true }

/-- `python`, `python3` and `rm`; of the other programs no option is known. -/
def someCli : Cli where
  grammar prog :=
    if prog ∈ [lit "python",lit "python3"] then pythonGrammar
    else if prog = lit "rm" then rmGrammar
    else bare
  code prog o := decide (prog ∈ [lit "python",lit "python3"]) && o.name == lit "-c"
  recursive o := o.name == lit "-r"
  force o := o.name == lit "-f"
  root arg := arg != [] && arg.all (· == ch '/')

/-- `print(1)` as the code of a command. -/
def printOne : List (Item PyChar) := [.option ⟨lit "-c",true,true⟩ (some (lit "print(1)"))]

/-- `python -c print(1)` -/
def apart : Spelling someCli (lit "python") printOne where
  dir := []
  name := lit "python"
  ext := []
  args := [lit "-c",lit "print(1)"]
  parts := [.apart (lit "-c") [] ⟨lit "-c",true,true⟩ (lit "print(1)")]
  isDir := by decide
  isName := by decide
  isExt := .inl rfl
  reads := by rfl
  means := rfl

/-- `C:\Python312\PYTHON.Exe -c print(1)` -/
def windows : Spelling someCli (lit "python") printOne :=
  { apart with
    dir := lit "C:\\Python312\\"
    name := lit "PYTHON"
    ext := lit ".Exe"
    isDir := by decide
    isName := by decide
    isExt := .inr (by decide) }

/-- `python -cprint(1)` -/
def joined : Spelling someCli (lit "python") printOne :=
  { apart with
    args := [lit "-cprint(1)"]
    parts := [.here (lit "-cprint(1)") [] (some (⟨lit "-c",true,true⟩,lit "print(1)"))]
    reads := by rfl
    means := rfl }

theorem givesCode_printOne : someCli.GivesCode (lit "python") printOne :=
  ⟨_,_,List.mem_cons_self,by decide,fun h => nomatch h⟩

theorem shown_apart : apart.Shown := by
  exact .inr (.inr ⟨_,List.mem_cons_self,.inl ⟨lit "-c",by decide,.inl rfl⟩⟩)

theorem unevadable_apart : Unevadable false apart windows :=
  (unevadable_iff false (by decide) apart windows).mpr
    ⟨fun _ => shown_apart,fun h => absurd h (by decide),fun _ => shown_apart,fun _ => shown_apart⟩

/-- Code behind its flag in one argument is accepted. -/
theorem joined_code_accepted : ¬ Unevadable false joined apart := fun h =>
  h.code givesCode_printOne (by decide)

example : isDangerousCmd false [lit "rm",lit "-r",lit "-f",lit "/"] = none := by decide

end MinimaxCode.DenyList
