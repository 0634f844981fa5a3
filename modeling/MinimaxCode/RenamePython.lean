import MinimaxCode.SplitLines
import MinimaxCode.TextMode
import MinimaxCode.Words

/-!
# Renaming in Python source

`_rename_python` collects the positions of the nodes that are named `symbol` and replaces
the text it finds there. A position leads to the identifier of a name or an argument, in
lines and bytes; of the other nodes it leads to the first keyword or the left operand, and
the lines and columns are those of `str.splitlines` and of characters.
-/

namespace MinimaxCode.RenamePython

open PyText SplitLines Words

/-- The kinds of nodes that carry an identifier to be renamed, and all others. -/
inductive Kind
  | name | attribute | functionDef | asyncFunctionDef | classDef | arg
  | other (type : PyStr)
  deriving DecidableEq

/-- A node with its identifier (`id`, `attr`, `name` or `arg`), its other fields and where it
stands. -/
structure Node where
  kind : Kind
  ident : PyStr
  fields : PyStr
  lineno : ℕ
  colOffset : ℕ
  endLineno : ℕ
  endColOffset : ℕ
  deriving DecidableEq

inductive Tree
  | node (n : Node) (children : List Tree)

mutual

/-- `ast.walk`, whose order is not specified. -/
def walk : Tree → List Node
  | .node n children => n::walkAll children

def walkAll : List Tree → List Node
  | [] => []
  | t::ts => walk t++walkAll ts

end

/-- The node has one of the six kinds. -/
def Node.carries (n : Node) : Bool :=
  match n.kind with
  | .other _ => false
  | _ => true

def Node.named (symbol : PyStr) (n : Node) : Bool := n.carries && n.ident == symbol

/-- A replacement at an exact position. -/
def renameAt (symbol newName : PyStr) (s : List PyStr × ℕ) (position : ℕ × ℕ) : List PyStr × ℕ :=
  match s.1[position.1-1]? with
  | none => s
  | some line =>
    let stop := position.2+symbol.length
    if stop ≤ line.length ∧ (line.take stop).drop position.2 = symbol then
      (s.1.set (position.1-1) (line.take position.2++newName++line.drop stop),s.2+1)
    else s

/-- The order of `sorted(positions, reverse=True)`. -/
def notBefore (p q : ℕ × ℕ) : Bool := q.1 < p.1 || (q.1 == p.1 && q.2 ≤ p.2)

/-- `re.sub` with the pattern `\bsymbol\b`, from behind `prev` and past the rest of a match. -/
def substituteWords (isWord : PyChar → Bool) (symbol newName : PyStr) :
    Option PyChar → ℕ → PyStr → PyStr × ℕ
  | _, _, [] => ([],0)
  | _, skip+1, c::cs => substituteWords isWord symbol newName (some c) skip cs
  | prev, 0, c::cs =>
    let before := (prev.map isWord).getD false
    let after := (((c::cs).drop symbol.length).head?.map isWord).getD false
    if symbol <+: c::cs ∧ before ≠ (symbol.head?.map isWord).getD false ∧
        after ≠ (symbol.getLast?.map isWord).getD false then
      let r := substituteWords isWord symbol newName (some c) (symbol.length-1) cs
      (newName++r.1,r.2+1)
    else
      let r := substituteWords isWord symbol newName (some c) 0 cs
      (c::r.1,r.2)

section Source

variable (parse : PyStr → Option Tree) (isWord : PyChar → Bool)

def renameRegex (text symbol newName : PyStr) : PyStr × ℕ :=
  substituteWords isWord symbol newName none 0 text

def renamePython (text symbol newName : PyStr) : PyStr × ℕ :=
  match parse text with
  | none => renameRegex isWord text symbol newName
  | some tree =>
    let positions := ((walk tree).filter (Node.named symbol)).map fun n => (n.lineno,n.colOffset)
    if positions = [] then (text,0)
    else
      let r := (positions.mergeSort notBefore).foldl (renameAt symbol newName) (splitlinesKeep text,0)
      (r.1.flatten,r.2)

/-- `_rename_in_file` on what a file holds: the number of replacements, and what is written
unless the run is dry. Nothing is reported of a file that cannot be read or has none; writing
raises where the new text cannot be encoded. -/
def renameInFile (linesep : TextMode.Linesep) (python dryRun : Bool) (symbol newName : PyStr)
    (content : ByteArray) : Option (ℕ × Except Unit (Option ByteArray)) :=
  (TextMode.readText content).bind fun text =>
    let r := if python then renamePython parse isWord text symbol newName
      else renameRegex isWord text symbol newName
    if r.2 = 0 then none
    else if dryRun then some (r.2,.ok none)
    else
      match TextMode.writeText linesep r.1 with
      | none => some (r.2,.error ())
      | some written => some (r.2,.ok (some written))

end Source

example : renameRegex (fun c => 97 ≤ c.code) (lit "x=xy+x") (lit "x") (lit "z") = (lit "z=xy+z",2) := by
  decide

/-- A character that can be part of an identifier: a letter of ASCII, a digit, the underscore
or any character beyond ASCII. -/
def isIdentChar (c : PyChar) : Bool :=
  let n := c.code
  (48 ≤ n && n ≤ 57) || (65 ≤ n && n ≤ 90) || n == 95 || (97 ≤ n && n ≤ 122) || 128 ≤ n

def isSep (c : PyChar) : Bool := !isIdentChar c

/-- Where the lines of a source begin: behind a line feed, a carriage return or both. -/
def lineStart : ℕ → PyStr → ℕ
  | 0, _ => 0
  | _+1, [] => 0
  | l+1, c::cs =>
    if c = ch '\n' ∨ (c = ch '\r' ∧ cs.head? ≠ some (ch '\n')) then 1+lineStart l cs
    else 1+lineStart (l+1) cs

def utf8Size : PyChar → ℕ
  | .scalar c => c.utf8Size
  | .surrogate _ => 3

/-- How many characters make up the bytes. -/
def charsOf : PyStr → ℕ → ℕ
  | [], _ => 0
  | c::cs, bytes => if bytes = 0 then 0 else 1+charsOf cs (bytes-utf8Size c)

/-- The place of a line number and a column in UTF-8 bytes. -/
def offset (text : PyStr) (lineno col : ℕ) : ℕ :=
  let begin := lineStart (lineno-1) text
  begin+charsOf (text.drop begin) col

/-- The word with a place in it or at its end. -/
def wordAt (text : PyStr) (place : ℕ) : ℕ := ((text.take place).filter isSep).length

/-- The next word that is not empty. -/
def nextWord (text : PyStr) (j : ℕ) : ℕ :=
  j+1+((text.splitOnP isSep).drop (j+1)).findIdx fun w => !w.isEmpty

/-- The word that is the identifier of a node. -/
def site (text : PyStr) (n : Node) : ℕ :=
  let first := wordAt text (offset text n.lineno n.colOffset)
  match n.kind with
  | .attribute => wordAt text (offset text n.endLineno n.endColOffset)
  | .functionDef | .classDef => nextWord text first
  | .asyncFunctionDef => nextWord text (nextWord text first)
  | _ => first

def Node.rename (symbol newName : PyStr) (n : Node) : Node :=
  if n.named symbol then { n with ident := newName } else n

def Node.unplaced (n : Node) : Node := ⟨n.kind,n.ident,n.fields,0,0,0,0⟩

mutual

def Tree.map (f : Node → Node) : Tree → Tree
  | .node n children => .node (f n) (mapAll f children)

def mapAll (f : Node → Node) : List Tree → List Tree
  | [] => []
  | t::ts => t.map f::mapAll f ts

end

/-- The tree of the text is the tree with the nodes renamed, wherever the nodes stand. -/
def HasRenamedTree (parse : PyStr → Option Tree) (tree : Tree) (symbol newName text : PyStr) : Prop :=
  ∃ t, parse text = some t ∧ t.map Node.unplaced = (tree.map (Node.rename symbol newName)).map Node.unplaced

def namedNodes (tree : Tree) (symbol : PyStr) : List Node := (walk tree).filter (Node.named symbol)

/-- The source with the identifiers of the nodes replaced. -/
def renamedText (text : PyStr) (tree : Tree) (symbol newName : PyStr) : PyStr :=
  replaceWords isSep ((namedNodes tree symbol).map (site text)) newName text

/-- Every occurrence is renamed and nothing else. -/
structure Renames (parse : PyStr → Option Tree) (isWord : PyChar → Bool) (text : PyStr) (tree : Tree)
    (symbol newName : PyStr) : Prop where
  parsed : HasRenamedTree parse tree symbol newName (renamePython parse isWord text symbol newName).1
  written : (renamePython parse isWord text symbol newName).1 = renamedText text tree symbol newName
  count : (renamePython parse isWord text symbol newName).2 = (namedNodes tree symbol).length

/-- What Python documents of a parsed source: line numbers begin at one, and the words at the
nodes' positions are their identifiers, up to the normal form of identifiers. -/
structure Documented (norm : PyStr → PyStr) (text : PyStr) (tree : Tree) : Prop where
  numbered : ∀ n ∈ walk tree, n.carries = true → 1 ≤ n.lineno
  spelled : ∀ n ∈ walk tree, n.carries = true →
    ∃ w, (text.splitOnP isSep)[site text n]? = some w ∧ norm w = n.ident
  distinct : (((walk tree).filter Node.carries).map (site text)).Nodup

/-- An identifier is made of the characters for identifiers. -/
structure Identifier (s : PyStr) : Prop where
  chars : ∀ c ∈ s, isSep c = false
  nonempty : s ≠ []

/-- The symbol stands at a position, taken as a line of `str.splitlines` and a column in
characters. -/
def Reads (symbol : PyStr) (lines : List PyStr) (position : ℕ × ℕ) : Prop :=
  ∃ line, lines[position.1-1]? = some line ∧ position.2+symbol.length ≤ line.length ∧
    (line.take (position.2+symbol.length)).drop position.2 = symbol

/-- The place of a position that is so taken, when the symbol fits in the line. -/
def placeOf (symbol : PyStr) (lines : List PyStr) (position : ℕ × ℕ) : Option ℕ :=
  match lines[position.1-1]? with
  | none => none
  | some line =>
    if position.2+symbol.length ≤ line.length then
      some ((lines.take (position.1-1)).flatten.length+position.2)
    else none

/-- The identifiers are spelled as the symbol, and the positions of their nodes, taken as lines
of `str.splitlines` and columns in characters, are the places of the identifiers. -/
structure Aims (text : PyStr) (tree : Tree) (symbol newName : PyStr) : Prop where
  spelled : ∀ n ∈ namedNodes tree symbol, (text.splitOnP isSep)[site text n]? = some symbol
  hits : if symbol = newName then
      ∀ n ∈ namedNodes tree symbol, Reads symbol (splitlinesKeep text) (n.lineno,n.colOffset)
    else ((namedNodes tree symbol).map fun n =>
        placeOf symbol (splitlinesKeep text) (n.lineno,n.colOffset)).Perm
      ((namedNodes tree symbol).map fun n => some (start (text.splitOnP isSep) (site text n)))

section Steps

variable {symbol newName : PyStr} {p : ℕ × ℕ} {lines out : List PyStr} {ps : List (ℕ × ℕ)}

/-- The text in front of a position. -/
def before (lines : List PyStr) (position : ℕ × ℕ) : PyStr :=
  (lines.take (position.1-1)).flatten++((lines[position.1-1]?).getD []).take position.2

/-- The lines with the text at a position replaced. -/
def edit (symbol newName : PyStr) (lines : List PyStr) (position : ℕ × ℕ) : List PyStr :=
  (renameAt symbol newName (lines,0) position).1

theorem renameAt_of_reads {s : List PyStr × ℕ} (h : Reads symbol s.1 p) :
    renameAt symbol newName s p = (edit symbol newName s.1 p,s.2+1) := by
  obtain ⟨line,hline,hread⟩ := h
  rw [edit,renameAt,renameAt,hline]
  simp only [if_pos hread]

theorem renameAt_of_not_reads {s : List PyStr × ℕ} (h : ¬ Reads symbol s.1 p) :
    renameAt symbol newName s p = s := by
  rw [renameAt]
  cases hline : s.1[p.1-1]? with
  | none => rfl
  | some line => exact if_neg fun hread => h ⟨line,hline,hread⟩

theorem edit_eq {line : PyStr} (hline : lines[p.1-1]? = some line)
    (hfits : p.2+symbol.length ≤ line.length)
    (hread : (line.take (p.2+symbol.length)).drop p.2 = symbol) : edit symbol newName lines p =
      lines.set (p.1-1) (line.take p.2++newName++line.drop (p.2+symbol.length)) := by
  rw [edit,renameAt,hline]
  simp only [if_pos (And.intro hfits hread)]

theorem flatten_edit (h : Reads symbol lines p) :
    ∃ b, lines.flatten = before lines p++symbol++b ∧
      (edit symbol newName lines p).flatten = before lines p++newName++b := by
  obtain ⟨line,hline,hfits,hread⟩ := h
  obtain ⟨hlt,hget⟩ := List.getElem?_eq_some_iff.mp hline
  have hsplit : line = line.take p.2++symbol++line.drop (p.2+symbol.length) := by
    have htake : line.take (p.2+symbol.length) = line.take p.2++symbol := by
      conv_lhs => rw [← List.take_append_drop p.2 (line.take (p.2+symbol.length)),hread]
      rw [List.take_take,min_eq_left (Nat.le_add_right _ _)]
    rw [← htake,List.take_append_drop]
  have hlines : lines = lines.take (p.1-1)++line::lines.drop (p.1-1+1) := by
    rw [← hget,List.getElem_cons_drop,List.take_append_drop]
  have hbefore : before lines p = (lines.take (p.1-1)).flatten++line.take p.2 := by
    rw [before,hline,Option.getD_some]
  refine ⟨line.drop (p.2+symbol.length)++(lines.drop (p.1-1+1)).flatten,?_,?_⟩
  · conv_lhs => rw [hlines,hsplit]
    rw [hbefore,List.flatten_append,List.flatten_cons]
    simp only [List.append_assoc]
  · rw [edit_eq hline hfits hread,List.set_eq_take_append_cons_drop,if_pos hlt,hbefore,
      List.flatten_append,List.flatten_cons]
    simp only [List.append_assoc]

/-- The order in which positions stand in the text. -/
def Precedes (p q : ℕ × ℕ) : Prop := p.1 < q.1 ∨ p.1 = q.1 ∧ p.2 ≤ q.2

theorem same_line_edit {q : ℕ × ℕ} (h : Reads symbol lines q) (hp : 1 ≤ p.1)
    (hpq : Precedes p q) : (edit symbol newName lines q).take (p.1-1) = lines.take (p.1-1) ∧
      ((edit symbol newName lines q)[p.1-1]?).map (List.take p.2) =
        (lines[p.1-1]?).map (List.take p.2) := by
  obtain ⟨line,hline,hfits,hread⟩ := h
  rw [edit_eq hline hfits hread]
  refine ⟨List.take_set_of_le (by rcases hpq with h | h <;> omega),?_⟩
  rcases hpq with hlt | ⟨heq,hle⟩
  · rw [List.getElem?_set_ne (by omega)]
  · have hlt := (List.getElem?_eq_some_iff.mp hline).1
    rw [heq,List.getElem?_set_self hlt,hline,Option.map_some,Option.map_some,List.append_assoc,
      List.take_append_of_le_length,List.take_take,min_eq_left hle]
    rw [List.length_take]
    omega

/-- The positions are read and replaced one by one, the last one first. -/
inductive Renamed (symbol newName : PyStr) (lines : List PyStr) : List (ℕ × ℕ) → List PyStr → Prop
  | nil : Renamed symbol newName lines [] lines
  | cons {p : ℕ × ℕ} {ps : List (ℕ × ℕ)} {cur : List PyStr} (rest : Renamed symbol newName lines ps cur)
      (reads : Reads symbol cur p) : Renamed symbol newName lines (p::ps) (edit symbol newName cur p)

theorem count_le (lines : List PyStr) (ps : List (ℕ × ℕ)) :
    (ps.foldr (fun p s => renameAt symbol newName s p) (lines,0)).2 ≤ ps.length := by
  induction ps with
  | nil => exact Nat.le_refl 0
  | cons p ps ih =>
    rw [List.foldr_cons,List.length_cons]
    by_cases h : Reads symbol (ps.foldr (fun p s => renameAt symbol newName s p) (lines,0)).1 p
    · rw [renameAt_of_reads h]
      exact Nat.succ_le_succ ih
    · rw [renameAt_of_not_reads h]
      omega

theorem renamed_of_count
    (h : (ps.foldr (fun p s => renameAt symbol newName s p) (lines,0)).2 = ps.length) :
    Renamed symbol newName lines ps (ps.foldr (fun p s => renameAt symbol newName s p) (lines,0)).1 := by
  induction ps with
  | nil => exact .nil
  | cons p ps ih =>
    have hle := @count_le symbol newName lines ps
    rw [List.foldr_cons,List.length_cons] at h
    rw [List.foldr_cons]
    by_cases hreads : Reads symbol (ps.foldr (fun p s => renameAt symbol newName s p) (lines,0)).1 p
    · rw [renameAt_of_reads hreads] at h ⊢
      exact .cons (ih (Nat.succ.inj h)) hreads
    · rw [renameAt_of_not_reads hreads] at h
      omega

theorem Renamed.foldr (h : Renamed symbol newName lines ps out) :
    ps.foldr (fun p s => renameAt symbol newName s p) (lines,0) = (out,ps.length) := by
  induction h with
  | nil => rfl
  | cons _ hreads ih => rw [List.foldr_cons,ih,renameAt_of_reads hreads,List.length_cons]

theorem Renamed.same_line
    (h : Renamed symbol newName lines ps out) (hp : 1 ≤ p.1)
    (hps : ∀ q ∈ ps, Precedes p q) : out.take (p.1-1) = lines.take (p.1-1) ∧
      (out[p.1-1]?).map (List.take p.2) = (lines[p.1-1]?).map (List.take p.2) := by
  induction h with
  | nil => exact ⟨rfl,rfl⟩
  | cons _ hreads ih =>
    obtain ⟨htake,hline⟩ := @same_line_edit symbol newName _ _ _ hreads hp (hps _ List.mem_cons_self)
    obtain ⟨htakes,hlines⟩ := ih fun q hq => hps q (List.mem_cons_of_mem _ hq)
    exact ⟨htake.trans htakes,hline.trans hlines⟩

theorem Renamed.before_eq
    (h : Renamed symbol newName lines ps out) (hp : 1 ≤ p.1)
    (hps : ∀ q ∈ ps, Precedes p q) : before out p = before lines p := by
  obtain ⟨htake,hline⟩ := h.same_line hp hps
  have hmap : ∀ o : Option PyStr, (o.getD []).take p.2 = (o.map (List.take p.2)).getD [] := by
    intro o
    cases o <;> simp
  rw [before,before,htake,hmap,hmap,hline]

/-- The word in which a position stands. -/
def wordOf (lines : List PyStr) (p : ℕ × ℕ) : ℕ := ((before lines p).filter isSep).length

def words (lines : List PyStr) : List PyStr := lines.flatten.splitOnP isSep

theorem words_edit (hsymbol : ∀ c ∈ symbol, isSep c = false) (hnew : ∀ c ∈ newName, isSep c = false) (h : Reads symbol lines p) : ∃ as x y bs,
      (before lines p).splitOnP isSep = as++[x] ∧ as.length = wordOf lines p ∧
      words lines = as++(x++symbol++y)::bs ∧ words (edit symbol newName lines p) = as++(x++newName++y)::bs ∧
      (edit symbol newName lines p).flatten.filter isSep = lines.flatten.filter isSep := by
  obtain ⟨b,hlines,hedit⟩ := @flatten_edit symbol newName _ _ h
  obtain ⟨as,x,y,bs,has,hlength,hinside⟩ := splitOnP_inside isSep (before lines p) b
  refine ⟨as,x,y,bs,has,hlength,?_,?_,?_⟩
  · rw [words,hlines,hinside symbol hsymbol]
  · rw [words,hedit,hinside newName hnew]
  · have hnone : ∀ w : PyStr, (∀ c ∈ w, isSep c = false) → w.filter isSep = [] := fun w hw =>
      List.filter_eq_nil_iff.mpr fun c hc => by simp [hw c hc]
    rw [hlines,hedit]
    simp only [List.filter_append,hnone symbol hsymbol,hnone newName hnew]

section Sorted

variable {lines out : List PyStr} {ps : List (ℕ × ℕ)} (hsymbol : ∀ c ∈ symbol, isSep c = false)
  (hnew : ∀ c ∈ newName, isSep c = false)

include hsymbol hnew

theorem Renamed.seps (h : Renamed symbol newName lines ps out) :
    out.flatten.filter isSep = lines.flatten.filter isSep := by
  induction h with
  | nil => rfl
  | cons _ hreads ih =>
    obtain ⟨as,x,y,bs,-,-,-,-,hseps⟩ := words_edit hsymbol hnew hreads
    rw [hseps,ih]

theorem Renamed.elsewhere (h : Renamed symbol newName lines ps out) (hpos : ∀ p ∈ ps, 1 ≤ p.1)
    (hsorted : ps.Pairwise Precedes) {j : ℕ} (hj : j ∉ ps.map (wordOf lines)) :
    (words out)[j]? = (words lines)[j]? := by
  induction h with
  | nil => rfl
  | @cons p ps cur hrest hreads ih =>
    obtain ⟨hp,hps⟩ := List.forall_mem_cons.mp hpos
    obtain ⟨hfirst,hlater⟩ := List.pairwise_cons.mp hsorted
    rw [List.map_cons,List.mem_cons,not_or] at hj
    obtain ⟨as,x,y,bs,-,hlength,hwords,hedited,-⟩ := words_edit hsymbol hnew hreads
    have hne : j ≠ as.length := by
      rw [hlength,wordOf,hrest.before_eq hp hfirst]
      exact hj.1
    rw [← ih hps hlater hj.2,hedited,hwords]
    simp only [List.getElem?_append,List.getElem?_cons]
    split
    · rfl
    · rw [if_neg (by omega),if_neg (by omega)]

theorem Renamed.here (h : Renamed symbol newName lines ps out) (hpos : ∀ p ∈ ps, 1 ≤ p.1)
    (hsorted : ps.Pairwise Precedes) (hdistinct : (ps.map (wordOf lines)).Nodup) {p : ℕ × ℕ}
    (hp : p ∈ ps) : ∃ as x y, (before lines p).splitOnP isSep = as++[x] ∧ as.length = wordOf lines p ∧
      (words lines)[wordOf lines p]? = some (x++symbol++y) ∧
      (words out)[wordOf lines p]? = some (x++newName++y) := by
  induction h with
  | nil => cases hp
  | @cons q ps cur hrest hreads ih =>
    obtain ⟨hq,hps⟩ := List.forall_mem_cons.mp hpos
    obtain ⟨hfirst,hlater⟩ := List.pairwise_cons.mp hsorted
    rw [List.map_cons,List.nodup_cons] at hdistinct
    obtain ⟨as,x,y,bs,has,hlength,hwords,hedited,-⟩ := words_edit hsymbol hnew hreads
    have hbefore := hrest.before_eq hq hfirst
    rw [hbefore] at has
    rw [wordOf,hbefore,← wordOf] at hlength
    rcases List.mem_cons.mp hp with rfl | hp
    · refine ⟨as,x,y,has,hlength,?_,?_⟩
      · rw [← hrest.elsewhere hsymbol hnew hps hlater hdistinct.1,hwords,← hlength]
        simp
      · rw [hedited,← hlength]
        simp
    · obtain ⟨as',x',y',has',hlength',hold,hnow⟩ := ih hps hlater hdistinct.2 hp
      refine ⟨as',x',y',has',hlength',hold,?_⟩
      have hne : wordOf lines p ≠ as.length := by
        rw [hlength]
        exact fun heq => hdistinct.1 (heq ▸ List.mem_map_of_mem hp)
      rw [← hnow,hedited,hwords]
      simp only [List.getElem?_append,List.getElem?_cons]
      split
      · rfl
      · rw [if_neg (by omega),if_neg (by omega)]

end Sorted

/-- The first position with the symbol behind it ends where the second one stands, or before. -/
def Clear (symbol : PyStr) (p q : ℕ × ℕ) : Prop := p.1 < q.1 ∨ p.1 = q.1 ∧ p.2+symbol.length ≤ q.2

theorem reads_iff : Reads symbol lines p ↔
    ∃ u, (lines[p.1-1]?).map (List.take (p.2+symbol.length)) = some u ∧
      p.2+symbol.length ≤ u.length ∧ u.drop p.2 = symbol := by
  constructor
  · rintro ⟨line,hline,hfits,hread⟩
    refine ⟨_,by rw [hline]; rfl,?_,hread⟩
    rw [List.length_take,min_eq_left hfits]
  · rintro ⟨u,hu,hfits,hread⟩
    obtain ⟨line,hline,rfl⟩ := Option.map_eq_some_iff.mp hu
    rw [List.length_take] at hfits
    exact ⟨line,hline,by omega,hread⟩

theorem Renamed.reads_iff
    (h : Renamed symbol newName lines ps out) (hp : 1 ≤ p.1)
    (hps : ∀ q ∈ ps, Clear symbol p q) : Reads symbol out p ↔ Reads symbol lines p := by
  have hsame := (h.same_line (p:=(p.1,p.2+symbol.length)) hp hps).2
  rw [RenamePython.reads_iff,RenamePython.reads_iff,hsame]

theorem Renamed.reads
    (h : Renamed symbol newName lines ps out) (hpos : ∀ p ∈ ps, 1 ≤ p.1)
    (hclear : ps.Pairwise (Clear symbol)) : ∀ p ∈ ps, Reads symbol lines p := by
  induction h with
  | nil => nofun
  | cons hrest hreads ih =>
    obtain ⟨hp,hps⟩ := List.forall_mem_cons.mp hpos
    obtain ⟨hfirst,hlater⟩ := List.pairwise_cons.mp hclear
    exact List.forall_mem_cons.mpr ⟨(hrest.reads_iff hp hfirst).mp hreads,ih hps hlater⟩

theorem exists_renamed (hpos : ∀ p ∈ ps, 1 ≤ p.1)
    (hclear : ps.Pairwise (Clear symbol)) (hreads : ∀ p ∈ ps, Reads symbol lines p) :
    ∃ out, Renamed symbol newName lines ps out := by
  induction ps with
  | nil => exact ⟨lines,.nil⟩
  | cons p ps ih =>
    obtain ⟨hp,hps⟩ := List.forall_mem_cons.mp hpos
    obtain ⟨hfirst,hlater⟩ := List.pairwise_cons.mp hclear
    obtain ⟨hread,hreads⟩ := List.forall_mem_cons.mp hreads
    obtain ⟨cur,hcur⟩ := ih hps hlater hreads
    exact ⟨_,.cons hcur ((hcur.reads_iff hp hfirst).mpr hread)⟩

theorem edit_self (h : Reads symbol lines p) :
    edit symbol symbol lines p = lines := by
  obtain ⟨line,hline,hfits,hread⟩ := h
  obtain ⟨hlt,hget⟩ := List.getElem?_eq_some_iff.mp hline
  have htake : line.take p.2++symbol = line.take (p.2+symbol.length) := by
    conv_rhs => rw [← List.take_append_drop p.2 (line.take (p.2+symbol.length)),hread]
    rw [List.take_take,min_eq_left (Nat.le_add_right _ _)]
  rw [edit_eq hline hfits hread,htake,List.take_append_drop,← hget,List.set_getElem_self]

theorem Renamed.self
    (h : Renamed symbol symbol lines ps out) : out = lines ∧ ∀ p ∈ ps, Reads symbol lines p := by
  induction h with
  | nil => exact ⟨rfl,nofun⟩
  | cons _ hreads ih =>
    obtain ⟨rfl,hall⟩ := ih
    exact ⟨edit_self hreads,List.forall_mem_cons.mpr ⟨hreads,hall⟩⟩

theorem renamed_self (h : ∀ p ∈ ps, Reads symbol lines p) :
    Renamed symbol symbol lines ps lines := by
  induction ps with
  | nil => exact .nil
  | cons p ps ih =>
    obtain ⟨hp,hps⟩ := List.forall_mem_cons.mp h
    have hcons := Renamed.cons (ih hps) hp
    rwa [edit_self hp] at hcons

/-- The position stands where its word begins, and the word is the symbol. -/
structure AtWord (symbol : PyStr) (lines : List PyStr) (p : ℕ × ℕ) : Prop where
  begins : (before lines p).length = start (words lines) (wordOf lines p)
  symbol : (words lines)[wordOf lines p]? = some symbol

theorem clear_of_atWord {q : ℕ × ℕ} (hp : AtWord symbol lines p)
    (hq : AtWord symbol lines q) (hle : Precedes p q) (hne : wordOf lines p ≠ wordOf lines q) :
    Clear symbol p q := by
  obtain hlt | ⟨heq,hle⟩ := hle
  · exact Or.inl hlt
  · refine Or.inr ⟨heq,?_⟩
    have hbefore : before lines p <+: before lines q := by
      rw [before,before,heq]
      exact (List.prefix_append_right_inj _).mpr (List.take_prefix_take_left hle)
    have hlt : wordOf lines p < wordOf lines q :=
      lt_of_le_of_ne (List.IsPrefix.length_le (hbefore.filter isSep)) hne
    have hstart := start_lt hp.symbol hlt
    rw [← hp.begins,← hq.begins,before,before,heq,List.length_append,List.length_append,
      List.length_take,List.length_take] at hstart
    omega

theorem before_prefix (lines : List PyStr) (p : ℕ × ℕ) : before lines p <+: lines.flatten := by
  have hdrop : ((lines[p.1-1]?).getD []) <+: (lines.drop (p.1-1)).flatten := by
    cases hline : lines[p.1-1]? with
    | none => exact List.nil_prefix
    | some line =>
      obtain ⟨hlt,rfl⟩ := List.getElem?_eq_some_iff.mp hline
      rw [← List.getElem_cons_drop hlt,List.flatten_cons,Option.getD_some]
      exact List.prefix_append _ _
  conv_rhs => rw [← List.take_append_drop (p.1-1) lines,List.flatten_append]
  exact (List.prefix_append_right_inj _).mpr ((List.take_prefix _ _).trans hdrop)

theorem begins_of_empty {as : List PyStr}
    (has : (before lines p).splitOnP isSep = as++[[]]) (hlength : as.length = wordOf lines p) :
    (before lines p).length = start (words lines) (wordOf lines p) := by
  obtain ⟨rest,hrest⟩ := before_prefix lines p
  obtain ⟨y,bs,hy⟩ := List.exists_cons_of_ne_nil (List.splitOnP_ne_nil isSep rest)
  have hwords : words lines = as++([]++y)::bs := by
    rw [words,← hrest]
    exact splitOnP_append has hy
  rw [length_eq has hlength,hwords,← hlength,start,start,List.take_left,List.take_left]
  rfl

theorem reads_of_place {j : ℕ}
    (hplace : placeOf symbol lines p = some (start (words lines) j))
    (hj : (words lines)[j]? = some symbol) :
    Reads symbol lines p ∧ wordOf lines p = j ∧ AtWord symbol lines p := by
  rw [placeOf] at hplace
  split at hplace
  · cases hplace
  · next line hline =>
    split at hplace
    · next hfits =>
      obtain ⟨hlt,hget⟩ := List.getElem?_eq_some_iff.mp hline
      have hlength : (before lines p).length = start (words lines) j := by
        rw [← Option.some.inj hplace,before,hline,Option.getD_some,List.length_append,List.length_take]
        omega
      have hrest : lines.flatten = before lines p++(line.drop p.2++(lines.drop (p.1-1+1)).flatten) := by
        have hlines : lines = lines.take (p.1-1)++line::lines.drop (p.1-1+1) := by
          rw [← hget,List.getElem_cons_drop,List.take_append_drop]
        conv_lhs => rw [hlines]
        rw [before,hline,Option.getD_some,List.flatten_append,List.flatten_cons,List.append_assoc,
          ← List.append_assoc (line.take p.2),List.take_append_drop]
      obtain ⟨as,x,has,hsite⟩ := splitOnP_snoc isSep (before lines p)
      obtain ⟨y,bs,hy⟩ := List.exists_cons_of_ne_nil
        (List.splitOnP_ne_nil isSep (line.drop p.2++(lines.drop (p.1-1+1)).flatten))
      have hwords : words lines = as++(x++y)::bs := by
        rw [words,hrest]
        exact splitOnP_append has hy
      have hlt' := (List.getElem?_eq_some_iff.mp hj).1
      rw [hwords] at hlength hlt' hj
      obtain ⟨rfl,rfl⟩ := site_of_start has hsite hlt' hlength
      obtain rfl : y = symbol := by simpa using hj
      have hword : wordOf lines p = as.length := hsite.symm
      refine ⟨⟨line,hline,hfits,?_⟩,hword,⟨?_,?_⟩⟩
      · have hweave := weave_splitOnP isSep (line.drop p.2++(lines.drop (p.1-1+1)).flatten)
        have hbegins : y <+: line.drop p.2++(lines.drop (p.1-1+1)).flatten := by
          rw [← hweave,hy]
          cases (line.drop p.2++(lines.drop (p.1-1+1)).flatten).filter isSep with
          | nil => exact List.prefix_rfl
          | cons c cs => exact List.prefix_append _ _
        have hinside : y <+: line.drop p.2 := by
          refine List.prefix_of_prefix_length_le hbegins (List.prefix_append _ _) ?_
          rw [List.length_drop]
          omega
        rw [List.drop_take,Nat.add_sub_cancel_left]
        exact (List.prefix_iff_eq_take.mp hinside).symm
      · rw [hword,hwords]
        exact hlength
      · rw [hword,hwords]
        exact hj
    · cases hplace

end Steps

section Nodes

variable {norm : PyStr → PyStr} {parse : PyStr → Option Tree} {isWord : PyChar → Bool} {text : PyStr}
  {tree : Tree} {symbol newName : PyStr}

def positionsOf (tree : Tree) (symbol : PyStr) : List (ℕ × ℕ) :=
  (namedNodes tree symbol).map fun n => (n.lineno,n.colOffset)

/-- The positions, the first one in the text first. -/
def ascending (tree : Tree) (symbol : PyStr) : List (ℕ × ℕ) :=
  ((positionsOf tree symbol).mergeSort notBefore).reverse

theorem ascending_perm (tree : Tree) (symbol : PyStr) :
    (ascending tree symbol).Perm (positionsOf tree symbol) :=
  (List.reverse_perm _).trans (List.mergeSort_perm _ _)

theorem ascending_sorted (tree : Tree) (symbol : PyStr) : (ascending tree symbol).Pairwise Precedes := by
  have hsorted := @List.pairwise_mergeSort _ notBefore (fun a b c hab hbc => ?_) (fun a b => ?_)
    (positionsOf tree symbol)
  · rw [ascending,List.pairwise_reverse]
    refine hsorted.imp fun {p q} h => ?_
    simpa [notBefore,Precedes] using h
  · simp [notBefore] at hab hbc ⊢
    omega
  · simp [notBefore]
    omega

theorem renamePython_eq (hparse : parse text = some tree) : renamePython parse isWord text symbol newName =
    (((ascending tree symbol).foldr (fun p s => renameAt symbol newName s p) (splitlinesKeep text,0)).1.flatten,
      ((ascending tree symbol).foldr (fun p s => renameAt symbol newName s p) (splitlinesKeep text,0)).2) := by
  rw [ascending,List.foldr_reverse]
  simp only [renamePython,hparse]
  split
  · next hnil =>
    have hnone : positionsOf tree symbol = [] := hnil
    rw [hnone,List.mergeSort_nil,List.foldl_nil,flatten_splitlinesKeep]
  · rfl

theorem carries_of_named {n : Node} (h : n ∈ namedNodes tree symbol) :
    n ∈ walk tree ∧ n.carries = true ∧ n.ident = symbol := by
  obtain ⟨hwalk,hnamed⟩ := List.mem_filter.mp h
  obtain ⟨hcarries,hident⟩ := Bool.and_eq_true_iff.mp hnamed
  exact ⟨hwalk,hcarries,eq_of_beq hident⟩

theorem sites_nodup (hdoc : Documented norm text tree) :
    ((namedNodes tree symbol).map (site text)).Nodup := by
  refine hdoc.distinct.sublist (List.Sublist.map _ ?_)
  exact List.monotone_filter_right _ fun n hn => (Bool.and_eq_true_iff.mp hn).1

theorem ascending_pos (hdoc : Documented norm text tree) : ∀ p ∈ ascending tree symbol, 1 ≤ p.1 := by
  intro p hp
  obtain ⟨n,hn,rfl⟩ := List.mem_map.mp ((ascending_perm tree symbol).mem_iff.mp hp)
  obtain ⟨hwalk,hcarries,-⟩ := carries_of_named hn
  exact hdoc.numbered n hwalk hcarries

mutual

theorem walk_map (f : Node → Node) : ∀ t : Tree, walk (t.map f) = (walk t).map f
  | .node n children => by rw [Tree.map,walk,walk,walkAll_map f children,List.map_cons]

theorem walkAll_map (f : Node → Node) : ∀ ts : List Tree, walkAll (mapAll f ts) = (walkAll ts).map f
  | [] => rfl
  | t::ts => by rw [mapAll,walkAll,walkAll,walk_map f t,walkAll_map f ts,List.map_append]

end

theorem norm_of_renamed (hnormal : ∀ text tree, parse text = some tree →
      ∀ n ∈ walk tree, n.carries = true → norm n.ident = n.ident)
    {out : PyStr} (htree : HasRenamedTree parse tree symbol newName out) {n : Node}
    (hn : n ∈ namedNodes tree symbol) : norm newName = newName := by
  obtain ⟨t,ht,hsame⟩ := htree
  obtain ⟨hwalk,hcarries,hident⟩ := carries_of_named hn
  have hmem : (n.rename symbol newName).unplaced ∈ (walk t).map Node.unplaced := by
    rw [← walk_map,hsame,walk_map,walk_map]
    exact List.mem_map_of_mem (List.mem_map_of_mem hwalk)
  obtain ⟨m,hm,heq⟩ := List.mem_map.mp hmem
  have hrename : n.rename symbol newName = { n with ident := newName } := by
    rw [Node.rename,if_pos (by simp [Node.named,hcarries,hident])]
  rw [hrename] at heq
  have hkind : m.kind = n.kind := (Node.mk.inj heq).1
  have hname : m.ident = newName := (Node.mk.inj heq).2.1
  have hm' : m.carries = true := by rw [Node.carries,hkind]; exact hcarries
  rw [← hname]
  exact hnormal out t ht m hm hm'

theorem words_splitlinesKeep (text : PyStr) : words (splitlinesKeep text) = text.splitOnP isSep := by
  rw [words,flatten_splitlinesKeep]

theorem word_renamedText (hnew : Identifier newName) (j : ℕ) :
    ((renamedText text tree symbol newName).splitOnP isSep)[j]? = ((text.splitOnP isSep)[j]?).map fun w =>
      if j ∈ (namedNodes tree symbol).map (site text) then newName else w := by
  rw [renamedText,(splitOnP_replaceWords hnew.chars).1,List.getElem?_mapIdx]

theorem Renames.renamed (hparse : parse text = some tree)
    (h : Renames parse isWord text tree symbol newName) : ∃ out,
      Renamed symbol newName (splitlinesKeep text) (ascending tree symbol) out ∧
      out.flatten = renamedText text tree symbol newName := by
  have hwritten := h.written
  have hcount := h.count
  rw [renamePython_eq hparse] at hwritten hcount
  have hlength : (ascending tree symbol).length = (namedNodes tree symbol).length := by
    rw [(ascending_perm tree symbol).length_eq,positionsOf,List.length_map]
  exact ⟨_,renamed_of_count (hcount.trans hlength.symm),hwritten⟩

theorem Renames.atWord (hparse : parse text = some tree) (hdoc : Documented norm text tree)
    (hnormal : ∀ text tree, parse text = some tree →
      ∀ n ∈ walk tree, n.carries = true → norm n.ident = n.ident)
    (hsymbol : Identifier symbol) (hnew : Identifier newName) (hne : symbol ≠ newName)
    (h : Renames parse isWord text tree symbol newName) :
    ((namedNodes tree symbol).map (site text)).Perm
        ((ascending tree symbol).map (wordOf (splitlinesKeep text))) ∧
      ∀ p ∈ ascending tree symbol, AtWord symbol (splitlinesKeep text) p := by
  obtain ⟨out,hrenamed,hout⟩ := h.renamed hparse
  have hpos := @ascending_pos norm text tree symbol hdoc
  have hsorted := ascending_sorted tree symbol
  have hwords : words out = (renamedText text tree symbol newName).splitOnP isSep := by rw [words,hout]
  have hcovered : (namedNodes tree symbol).map (site text) ⊆
      (ascending tree symbol).map (wordOf (splitlinesKeep text)) := by
    intro j hj
    by_contra hout'
    have hsame := hrenamed.elsewhere hsymbol.chars hnew.chars hpos hsorted hout'
    obtain ⟨n,hn,rfl⟩ := List.mem_map.mp hj
    obtain ⟨hwalk,hcarries,hident⟩ := carries_of_named hn
    obtain ⟨w,hw,hnorm⟩ := hdoc.spelled n hwalk hcarries
    rw [hwords,word_renamedText hnew,words_splitlinesKeep,hw,Option.map_some,if_pos hj] at hsame
    obtain rfl := Option.some.inj hsame
    rw [norm_of_renamed hnormal h.parsed hn,hident] at hnorm
    exact hne hnorm.symm
  have hperm : ((namedNodes tree symbol).map (site text)).Perm
      ((ascending tree symbol).map (wordOf (splitlinesKeep text))) := by
    refine ((sites_nodup hdoc).subperm hcovered).perm_of_length_le ?_
    rw [List.length_map,List.length_map,(ascending_perm tree symbol).length_eq,positionsOf,List.length_map]
  refine ⟨hperm,fun p hp => ?_⟩
  obtain ⟨as,x,y,has,hlength,hold,hnow⟩ := hrenamed.here hsymbol.chars hnew.chars hpos hsorted
    (hperm.nodup_iff.mp (sites_nodup hdoc)) hp
  have hmem : wordOf (splitlinesKeep text) p ∈ (namedNodes tree symbol).map (site text) :=
    hperm.mem_iff.mpr (List.mem_map_of_mem hp)
  rw [hwords,word_renamedText hnew,← words_splitlinesKeep,hold,Option.map_some,if_pos hmem] at hnow
  have hlen := congrArg List.length (Option.some.inj hnow)
  rw [List.length_append,List.length_append] at hlen
  obtain rfl : x = [] := List.length_eq_zero_iff.mp (by omega)
  obtain rfl : y = [] := List.length_eq_zero_iff.mp (by omega)
  rw [List.nil_append,List.append_nil] at hold
  exact ⟨begins_of_empty has hlength,hold⟩

theorem ascending_clear (hword : ∀ p ∈ ascending tree symbol, AtWord symbol (splitlinesKeep text) p)
    (hnodup : ((ascending tree symbol).map (wordOf (splitlinesKeep text))).Nodup) :
    (ascending tree symbol).Pairwise (Clear symbol) := by
  have hne := List.pairwise_map.mp hnodup
  refine ((ascending_sorted tree symbol).and hne).imp_of_mem fun hp hq hpq => ?_
  exact clear_of_atWord (hword _ hp) (hword _ hq) hpq.1 hpq.2

theorem placeOf_of_reads {lines : List PyStr} {p : ℕ × ℕ} (h : Reads symbol lines p)
    (hword : AtWord symbol lines p) : placeOf symbol lines p = some (start (words lines) (wordOf lines p)) := by
  obtain ⟨line,hline,hfits,-⟩ := h
  have hbegins := hword.begins
  rw [before,hline,Option.getD_some,List.length_append,List.length_take] at hbegins
  rw [placeOf,hline]
  simp only
  rw [if_pos hfits,← hbegins,min_eq_left (by omega)]

theorem Renames.hits (hparse : parse text = some tree) (hdoc : Documented norm text tree)
    (hnormal : ∀ text tree, parse text = some tree →
      ∀ n ∈ walk tree, n.carries = true → norm n.ident = n.ident)
    (hsymbol : Identifier symbol) (hnew : Identifier newName) (hne : symbol ≠ newName)
    (h : Renames parse isWord text tree symbol newName) :
    ((namedNodes tree symbol).map fun n =>
        placeOf symbol (splitlinesKeep text) (n.lineno,n.colOffset)).Perm
      ((namedNodes tree symbol).map fun n => some (start (text.splitOnP isSep) (site text n))) := by
  obtain ⟨hperm,hword⟩ := h.atWord hparse hdoc hnormal hsymbol hnew hne
  obtain ⟨out,hrenamed,-⟩ := h.renamed hparse
  have hclear := ascending_clear hword (hperm.nodup_iff.mp (sites_nodup hdoc))
  have hreads := hrenamed.reads (ascending_pos hdoc) hclear
  have hplaces : (ascending tree symbol).map (placeOf symbol (splitlinesKeep text)) =
      ((ascending tree symbol).map (wordOf (splitlinesKeep text))).map fun j =>
        some (start (text.splitOnP isSep) j) := by
    rw [List.map_map]
    refine List.map_congr_left fun p hp => ?_
    rw [placeOf_of_reads (hreads p hp) (hword p hp),words_splitlinesKeep]
    rfl
  have hleft : ((namedNodes tree symbol).map fun n =>
      placeOf symbol (splitlinesKeep text) (n.lineno,n.colOffset)) =
        (positionsOf tree symbol).map (placeOf symbol (splitlinesKeep text)) := by
    rw [positionsOf,List.map_map]
    rfl
  have hright : ((namedNodes tree symbol).map fun n => some (start (text.splitOnP isSep) (site text n))) =
      ((namedNodes tree symbol).map (site text)).map fun j => some (start (text.splitOnP isSep) j) := by
    rw [List.map_map]
    rfl
  rw [hleft,hright]
  exact ((ascending_perm tree symbol).symm.map _).trans (hplaces ▸ (hperm.symm.map _))

theorem renames_of_renamed (hparse : parse text = some tree) (hsymbol : Identifier symbol)
    (hnew : Identifier newName) {out : List PyStr}
    (hrenamed : Renamed symbol newName (splitlinesKeep text) (ascending tree symbol) out)
    (hwords : ∀ j, (words out)[j]? = ((text.splitOnP isSep)[j]?).map fun w =>
      if j ∈ (namedNodes tree symbol).map (site text) then newName else w)
    (htree : HasRenamedTree parse tree symbol newName (renamedText text tree symbol newName)) :
    Renames parse isWord text tree symbol newName := by
  have hout : out.flatten = renamedText text tree symbol newName := by
    refine eq_of_splitOnP (p:=isSep) (List.ext_getElem? fun j => ?_) ?_
    · rw [word_renamedText hnew,← hwords]
      rfl
    · rw [hrenamed.seps hsymbol.chars hnew.chars,flatten_splitlinesKeep,renamedText,
        (splitOnP_replaceWords hnew.chars).2]
  have hrun := @renamePython_eq parse isWord text tree symbol newName hparse
  rw [hrenamed.foldr,hout] at hrun
  refine ⟨by rw [hrun]; exact htree,by rw [hrun],?_⟩
  rw [hrun]
  exact ((ascending_perm tree symbol).length_eq).trans (List.length_map _)

theorem Aims.atWord (hdoc : Documented norm text tree) (h : Aims text tree symbol newName)
    (hne : symbol ≠ newName) : (∀ p ∈ ascending tree symbol, Reads symbol (splitlinesKeep text) p ∧
        AtWord symbol (splitlinesKeep text) p) ∧
      ((ascending tree symbol).map (wordOf (splitlinesKeep text))).Perm
        ((namedNodes tree symbol).map (site text)) := by
  have hits := h.hits
  rw [if_neg hne] at hits
  have hplace : ∀ p ∈ ascending tree symbol, ∀ n ∈ namedNodes tree symbol,
      placeOf symbol (splitlinesKeep text) p = some (start (text.splitOnP isSep) (site text n)) →
        Reads symbol (splitlinesKeep text) p ∧ wordOf (splitlinesKeep text) p = site text n ∧
          AtWord symbol (splitlinesKeep text) p := by
    intro p _ n hn heq
    rw [← words_splitlinesKeep] at heq
    exact reads_of_place heq (by rw [words_splitlinesKeep]; exact h.spelled n hn)
  refine ⟨fun p hp => ?_,List.Perm.symm ?_⟩
  · obtain ⟨m,hm,rfl⟩ := List.mem_map.mp ((ascending_perm tree symbol).mem_iff.mp hp)
    obtain ⟨n,hn,heq⟩ := List.mem_map.mp (hits.mem_iff.mp (List.mem_map_of_mem hm))
    obtain ⟨hreads,-,hword⟩ := hplace _ hp n hn heq.symm
    exact ⟨hreads,hword⟩
  · refine ((sites_nodup hdoc).subperm fun j hj => ?_).perm_of_length_le ?_
    · obtain ⟨n,hn,rfl⟩ := List.mem_map.mp hj
      obtain ⟨m,hm,heq⟩ := List.mem_map.mp (hits.mem_iff.mpr (List.mem_map_of_mem hn))
      have hp : (m.lineno,m.colOffset) ∈ ascending tree symbol :=
        (ascending_perm tree symbol).mem_iff.mpr (List.mem_map_of_mem hm)
      exact List.mem_map.mpr ⟨_,hp,(hplace _ hp n hn heq).2.1⟩
    · rw [List.length_map,List.length_map,(ascending_perm tree symbol).length_eq,positionsOf,
        List.length_map]

/-- The rename does what it should exactly when the positions lead to the identifiers and the
source with these replaced has the renamed tree. -/
theorem renames_iff (hparse : parse text = some tree) (hdoc : Documented norm text tree)
    (hnormal : ∀ text tree, parse text = some tree →
      ∀ n ∈ walk tree, n.carries = true → norm n.ident = n.ident)
    (hsymbol : Identifier symbol) (hnew : Identifier newName) :
    Renames parse isWord text tree symbol newName ↔
      HasRenamedTree parse tree symbol newName (renamedText text tree symbol newName) ∧
      Aims text tree symbol newName := by
  have hpos := @ascending_pos norm text tree symbol hdoc
  have hsorted := ascending_sorted tree symbol
  constructor
  · intro h
    refine ⟨h.written ▸ h.parsed,?_⟩
    by_cases hsame : symbol = newName
    · subst hsame
      obtain ⟨out,hrenamed,hout⟩ := h.renamed hparse
      obtain ⟨rfl,hreads⟩ := hrenamed.self
      rw [flatten_splitlinesKeep] at hout
      refine ⟨fun n hn => ?_,?_⟩
      · have hword := @word_renamedText text tree symbol symbol hsymbol (site text n)
        obtain ⟨hwalk,hcarries,-⟩ := carries_of_named hn
        obtain ⟨w,hw,-⟩ := hdoc.spelled n hwalk hcarries
        rw [← hout,hw,Option.map_some,if_pos (List.mem_map_of_mem hn)] at hword
        rw [hw,hword]
      · rw [if_pos rfl]
        exact fun n hn => hreads _ ((ascending_perm tree symbol).mem_iff.mpr (List.mem_map_of_mem hn))
    · obtain ⟨hperm,hword⟩ := h.atWord hparse hdoc hnormal hsymbol hnew hsame
      refine ⟨fun n hn => ?_,?_⟩
      · obtain ⟨p,hp,heq⟩ := List.mem_map.mp (hperm.mem_iff.mp (List.mem_map_of_mem hn))
        rw [← heq,← words_splitlinesKeep]
        exact (hword p hp).symbol
      · rw [if_neg hsame]
        exact h.hits hparse hdoc hnormal hsymbol hnew hsame
  · rintro ⟨htree,haims⟩
    have hspelled : ∀ j ∈ (namedNodes tree symbol).map (site text),
        (text.splitOnP isSep)[j]? = some symbol := by
      intro j hj
      obtain ⟨n,hn,rfl⟩ := List.mem_map.mp hj
      exact haims.spelled n hn
    by_cases hsame : symbol = newName
    · subst hsame
      have hits := haims.hits
      rw [if_pos rfl] at hits
      have hreads : ∀ p ∈ ascending tree symbol, Reads symbol (splitlinesKeep text) p := by
        intro p hp
        obtain ⟨n,hn,rfl⟩ := List.mem_map.mp ((ascending_perm tree symbol).mem_iff.mp hp)
        exact hits n hn
      refine renames_of_renamed hparse hsymbol hnew (renamed_self hreads) (fun j => ?_) htree
      rw [words_splitlinesKeep]
      by_cases hj : j ∈ (namedNodes tree symbol).map (site text)
      · rw [hspelled j hj,Option.map_some,if_pos hj]
      · simp only [if_neg hj,Option.map_id']
    · obtain ⟨hword,hperm⟩ := haims.atWord hdoc hsame
      have hnodup := hperm.nodup_iff.mpr (sites_nodup hdoc)
      have hclear := ascending_clear (fun p hp => (hword p hp).2) hnodup
      obtain ⟨out,hrenamed⟩ := @exists_renamed symbol newName _ _ hpos hclear fun p hp => (hword p hp).1
      refine renames_of_renamed hparse hsymbol hnew hrenamed (fun j => ?_) htree
      by_cases hj : j ∈ (namedNodes tree symbol).map (site text)
      · obtain ⟨p,hp,rfl⟩ := List.mem_map.mp (hperm.mem_iff.mpr hj)
        obtain ⟨as,x,y,has,hlength,hold,hnow⟩ := hrenamed.here hsymbol.chars hnew.chars hpos hsorted
          hnodup hp
        have hlen := congrArg List.length (Option.some.inj (hold.symm.trans (hword p hp).2.symbol))
        rw [List.length_append,List.length_append] at hlen
        obtain rfl : x = [] := List.length_eq_zero_iff.mp (by omega)
        obtain rfl : y = [] := List.length_eq_zero_iff.mp (by omega)
        rw [hnow,hspelled _ hj,Option.map_some,if_pos hj,List.nil_append,List.append_nil]
      · rw [hrenamed.elsewhere hsymbol.chars hnew.chars hpos hsorted fun hmem => hj (hperm.mem_iff.mp hmem),
          words_splitlinesKeep]
        simp only [if_neg hj,Option.map_id']

end Nodes

/-- A node of one line. -/
def onLine (kind : Kind) (ident fields : String) (first last : ℕ) : Node :=
  ⟨kind,lit ident,lit fields,1,first,1,last⟩

/-- A parser that knows two sources. -/
def knows (a b : PyStr × Tree) (text : PyStr) : Option Tree :=
  if text = a.1 then some a.2 else if text = b.1 then some b.2 else none

/-- The source `name=name+y`. -/
def sumSource (name : String) : PyStr × Tree :=
  (lit (name++"="++name++"+y\n"),.node ⟨.other (lit "Assign"),[],[],1,0,1,5⟩
    [.node (onLine .name name "Store" 0 1) [],
      .node ⟨.other (lit "BinOp"),[],lit "Add",1,2,1,5⟩
        [.node (onLine .name name "Load" 2 3) [],.node (onLine .name "y" "Load" 4 5) []]])

theorem renames_sum : Renames (knows (sumSource "x") (sumSource "z")) PyChar.isSpace
    (lit "x=x+y\n") (sumSource "x").2 (lit "x") (lit "z") := by
  refine (@renames_iff id _ _ _ _ _ _ rfl ⟨by decide,?_,by decide⟩ (fun _ _ _ _ _ _ => rfl)
    ⟨by decide,by decide⟩ ⟨by decide,by decide⟩).mpr ⟨⟨(sumSource "z").2,?_,rfl⟩,⟨by decide,?_⟩⟩
  · intro n hn hcarries
    simp only [sumSource,walk,walkAll,List.append_nil,List.cons_append,List.nil_append,List.mem_cons,
      List.not_mem_nil,or_false] at hn
    rcases hn with rfl | rfl | rfl | rfl | rfl
    · cases hcarries
    · exact ⟨lit "x",by decide,rfl⟩
    · cases hcarries
    · exact ⟨lit "x",by decide,rfl⟩
    · exact ⟨lit "y",by decide,rfl⟩
  · have hnew : renamedText (lit "x=x+y\n") (sumSource "x").2 (lit "x") (lit "z") = lit "z=z+y\n" := by
      decide
    rw [hnew,knows,if_neg (by decide)]
    exact if_pos rfl
  · rw [if_neg (by decide)]
    decide

/-- The source `def name(): pass`. -/
def defSource (name : String) : PyStr × Tree :=
  (lit ("def "++name++"(): pass\n"),.node ⟨.other (lit "Module"),[],[],1,0,1,0⟩
    [.node (onLine .functionDef name "" 0 13) [.node ⟨.other (lit "Pass"),[],[],1,9,1,13⟩ []]])

/-- A function that is defined is not renamed: its node stands at the keyword. -/
theorem def_not_renamed : (knows (defSource "f") (defSource "g")) (lit "def f(): pass\n") =
      some (defSource "f").2 ∧ Documented id (lit "def f(): pass\n") (defSource "f").2 ∧
    renamedText (lit "def f(): pass\n") (defSource "f").2 (lit "f") (lit "g") = lit "def g(): pass\n" ∧
    ¬ Renames (knows (defSource "f") (defSource "g")) PyChar.isSpace
      (lit "def f(): pass\n") (defSource "f").2 (lit "f") (lit "g") := by
  refine ⟨if_pos rfl,⟨by decide,?_,by decide⟩,by decide,?_⟩
  · intro n hn hcarries
    simp only [defSource,walk,walkAll,List.append_nil,List.mem_cons,List.not_mem_nil,or_false] at hn
    rcases hn with rfl | rfl | rfl
    · cases hcarries
    · exact ⟨lit "f",by decide,rfl⟩
    · cases hcarries
  · intro h
    obtain ⟨out,hrenamed,-⟩ := h.renamed (if_pos rfl)
    have hone : ascending (defSource "f").2 (lit "f") = [(1,0)] := by
      have hpositions : positionsOf (defSource "f").2 (lit "f") = [(1,0)] := by decide
      rw [ascending,hpositions,List.mergeSort_singleton,List.reverse_singleton]
    rw [hone] at hrenamed
    cases hrenamed with
    | cons hrest hreads =>
      cases hrest
      obtain ⟨line,hline,-,hread⟩ := hreads
      have hfirst : (splitlinesKeep (lit "def f(): pass\n"))[0]? = some (lit "def f(): pass\n") := by decide
      obtain rfl := Option.some.inj (hfirst.symm.trans hline)
      revert hread
      decide

end MinimaxCode.RenamePython
