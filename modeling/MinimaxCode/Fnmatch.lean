import MinimaxCode.PyText

/-!
# Shell patterns

`fnmatch.fnmatchcase`. A pattern is read into tokens: a star, any character, a literal,
or a character set, in which a hyphen between two characters makes a range.
-/

namespace MinimaxCode.Fnmatch

open PyText

/-- A token. A character set is a list of ranges of code points; an empty range stands
for the set that never matches. -/
inductive Token
  | star
  | any
  | literal (c : PyChar)
  | oneOf (negated : Bool) (ranges : List (ℕ × ℕ))

/-- Cut the inside of a bracket at the hyphens that make ranges. The next `skip`
characters are not cut at. -/
def cutChunks : ℕ → PyStr → PyStr → List PyStr
  | _, chunk, [] => if chunk = [] then [] else [chunk]
  | 0, chunk, c::cs =>
    if c = ch '-' then
      if cs = [] then [chunk++[c]] else chunk::cutChunks 2 [] cs
    else cutChunks 0 (chunk++[c]) cs
  | skip+1, chunk, c::cs => cutChunks skip (chunk++[c]) cs

/-- Drop the ranges that are empty, from the last to the first. -/
def dropEmpty : List PyStr → List PyStr
  | [] => []
  | chunk::chunks =>
    match dropEmpty chunks with
    | [] => [chunk]
    | next::rest =>
      match chunk.getLast?,next.head? with
      | some a,some b =>
        if b.code < a.code then (chunk.dropLast++next.tail)::rest else chunk::next::rest
      | _,_ => chunk::next::rest

/-- The characters of the chunks, and a range from the last of each to the first of the
next. -/
def rangesOf : List PyStr → List (ℕ × ℕ)
  | [] => []
  | [chunk] => chunk.map fun c => (c.code,c.code)
  | chunk::next::rest =>
    let here := chunk.map fun c => (c.code,c.code)
    match chunk.getLast?,next.head? with
    | some a,some b => here++(a.code,b.code)::rangesOf (next::rest)
    | _,_ => here++rangesOf (next::rest)

/-- The inside of a bracket. -/
def setOf (stuff : PyStr) : Token :=
  let negatedHead := stuff.head? = some (ch '!')
  let chunks :=
    if ch '-' ∈ stuff then dropEmpty (cutChunks (if negatedHead then 2 else 1) [] stuff)
    else [stuff]
  match chunks with
  | [] => .oneOf false []
  | chunk::rest =>
    if chunk = [ch '!'] ∧ rest = [] then .any
    else if chunk.head? = some (ch '!') then .oneOf true (rangesOf (chunk.tail::rest))
    else .oneOf false (rangesOf (chunk::rest))

/-- Where the bracket that was opened closes: a bracket or `!` at the start does not
close it. The inside and the rest of the pattern. -/
def bracket (pat : PyStr) : Option (PyStr × PyStr) :=
  let bang := if pat.head? = some (ch '!') then 1 else 0
  let start := if (pat.drop bang).head? = some (ch ']') then bang+1 else bang
  let body := (pat.drop start).takeWhile (· ≠ ch ']')
  match (pat.drop start).drop body.length with
  | [] => none
  | _::rest => some (pat.take start++body,rest)

/-- `fnmatch.translate`. A token takes at least one character, so the length of the
pattern is enough fuel. -/
def translate : ℕ → PyStr → List Token
  | 0, _ => []
  | _, [] => []
  | fuel+1, c::pat =>
    if c = ch '*' then .star::translate fuel pat
    else if c = ch '?' then .any::translate fuel pat
    else if c = ch '[' then
      match bracket pat with
      | none => .literal c::translate fuel pat
      | some (stuff,rest) => setOf stuff::translate fuel rest
    else .literal c::translate fuel pat

def Token.accepts (c : PyChar) : Token → Bool
  | .star => false
  | .any => true
  | .literal d => c = d
  | .oneOf negated ranges =>
    let found := ranges.any fun r => r.1 ≤ c.code && c.code ≤ r.2
    if negated then !found else found

def matchTokens : List Token → PyStr → Bool
  | [], s => s.isEmpty
  | .star::tokens, s => s.tails.any fun rest => matchTokens tokens rest
  | _::_, [] => false
  | token::tokens, c::s => token.accepts c && matchTokens tokens s

def fnmatchcase (name pat : PyStr) : Bool := matchTokens (translate pat.length pat) name

example : fnmatchcase (lit "exec_shell") (lit "exec_*") = true := by decide

end MinimaxCode.Fnmatch
