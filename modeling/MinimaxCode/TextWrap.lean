import Mathlib.Algebra.GroupWithZero.Nat
import MinimaxCode.MemoryChunks

/-!
# Wrapping of diagram labels

A label is split at newlines, each line into words, and the words are packed greedily into
lines that fit a width. A word wider than the width is kept whole up to a cap; one wider than
the cap is broken behind an identifier boundary, or behind the graphemes that fit.
-/

namespace MinimaxCode.TextWrap

open PyText MemoryChunks

/-- The float arithmetic of the width measure; the order need not be total. -/
structure Floats (F : Type) where
  ofNat : ℕ → F
  mul : F → F → F
  le : F → F → Bool
  isFinite : F → Bool
  inf : F

/-- `unicodedata.category` and `unicodedata.east_asian_width`. -/
structure Unicode where
  category : PyChar → PyStr
  eastAsianWidth : PyChar → PyStr

def emit (current : PyStr) : List PyStr := if current = [] then [] else [current]

/-- `str.split` without an argument, behind the start of a word. -/
def splitFrom (current : PyStr) : PyStr → List PyStr
  | [] => emit current
  | c::s => if c.isSpace then emit current++splitFrom [] s else splitFrom (current++[c]) s

def splitLineToWords (text : PyStr) : List PyStr :=
  let words := splitFrom [] text
  if words = [] then [[]] else words

def joinWords : List PyStr → PyStr
  | [] => []
  | [word] => word
  | word::words => word++ch ' '::joinWords words

section Measure

variable {F : Type} (fl : Floats F) (uni : Unicode)

def isMark (c : PyChar) : Bool := uni.category c = lit "Mn" || uni.category c = lit "Me"

def charWidth (c : PyChar) : ℕ :=
  if uni.category c = lit "Cc" || isMark uni c then 0
  else if uni.eastAsianWidth c = lit "W" || uni.eastAsianWidth c = lit "F" then 2 else 1

def displayWidthUnits (text : PyStr) : F := fl.ofNat (text.map (charWidth uni)).sum

def lineWidth (line : PyStr) (cw : F) : F :=
  if line = [] then fl.ofNat 0 else fl.mul (displayWidthUnits fl uni line) cw

def lineWidthWords (words : List PyStr) (cw : F) : F := lineWidth fl uni (joinWords words) cw

def checkFit (words : List PyStr) (maxWidth cw : F) : Bool :=
  fl.le (lineWidthWords fl uni words cw) maxWidth

/-- `_iter_graphemes` behind the start of a grapheme. -/
def graphemesFrom (current : PyStr) : PyStr → List PyStr
  | [] => emit current
  | c::s =>
    if isMark uni c ∧ current ≠ [] then graphemesFrom (current++[c]) s
    else emit current++graphemesFrom [c] s

def iterGraphemes (text : PyStr) : List PyStr := graphemesFrom uni [] text

/-- The loop of `_split_word_to_fit_width`: the graphemes used and those that remain. -/
def takeGraphemes (maxWidth cw : F) (used : List PyStr) : List PyStr → List PyStr × List PyStr
  | [] => (used,[])
  | g::gs =>
    if fl.le (lineWidth fl uni (used++[g]).flatten cw) maxWidth ∨ used = [] then
      takeGraphemes maxWidth cw (used++[g]) gs
    else (used,g::gs)

def splitWordToFitWidth (word : PyStr) (maxWidth cw : F) : PyStr × PyStr :=
  match iterGraphemes uni word with
  | [] => ([],[])
  | g::gs =>
    let (used,rest) := takeGraphemes fl uni maxWidth cw [] (g::gs)
    if used = [] then (g,gs.flatten) else (used.flatten,rest.flatten)

def tokenBreakChars : List PyChar := [ch '_',ch '-',ch '.',ch '/']

/-- The last place of a break character; `none` is -1. -/
def boundaryOf (first : PyStr) : Option ℕ :=
  tokenBreakChars.foldl (fun boundary c =>
    match rfind c first,boundary with
    | some pos,some last => if last < pos then some pos else boundary
    | some pos,none => some pos
    | none,_ => boundary) none

def splitTokenAtCap (word : PyStr) (cap cw : F) : PyStr × PyStr :=
  let (first,rest) := splitWordToFitWidth fl uni word cap cw
  match boundaryOf first with
  | some boundary => (word.take (boundary+1),word.drop (boundary+1))
  | none => (first,rest)

section Fit

variable (maxWidth cw : F)

/-- The loop of `_split_line_to_fit_width`; `none` when the fuel runs out. -/
def fitLoop : ℕ → List PyStr → List (List PyStr) → List PyStr → Option (List (List PyStr))
  | 0,_,_,_ => none
  | _+1,[],lines,current => some (if current ≠ [] then lines++[current] else lines)
  | fuel+1,next::remaining,lines,current =>
    if checkFit fl uni (current++[next]) maxWidth cw then
      fitLoop fuel remaining lines (current++[next])
    else if current ≠ [] then fitLoop fuel (next::remaining) (lines++[current]) []
    else if next ≠ [] then
      let cap := fl.mul maxWidth (fl.ofNat 5)
      if fl.le (lineWidth fl uni next cw) cap then fitLoop fuel remaining (lines++[[next]]) []
      else
        let (first,rest) := splitTokenAtCap fl uni next cap cw
        fitLoop fuel (if rest ≠ [] then rest::remaining else remaining) (lines++[[first]]) []
    else fitLoop fuel remaining lines []

def splitLineToFitWidth (fuel : ℕ) (words : List PyStr) : Option (List (List PyStr)) :=
  fitLoop fl uni maxWidth cw fuel words [] []

/-- The loop of `wrap_text_lines`. -/
def wrapLoop (fuel : ℕ) : List PyStr → List (List PyStr) → Option (List (List PyStr))
  | [],lines => some lines
  | raw::raws,lines =>
    let trimmed := strip raw
    if trimmed = [] then wrapLoop fuel raws (lines++[[[]]])
    else (splitLineToFitWidth fl uni maxWidth cw fuel (splitLineToWords trimmed)).bind
      fun wrapped => wrapLoop fuel raws (lines++wrapped)

end Fit

/-- The limit in use: a width that is not finite is unbounded. -/
def widthOf (maxWidth : F) : F := if fl.isFinite maxWidth then maxWidth else fl.inf

def wrapTextLines (fuel : ℕ) (text : PyStr) (maxWidth cw : F) : Option (List (List PyStr)) :=
  if text = [] then some []
  else wrapLoop fl uni (widthOf fl maxWidth) cw fuel (splitOn (ch '\n') text) []

/-- The characters that are no whitespace. -/
def nonSpace (s : PyStr) : PyStr := s.filter fun c => !c.isSpace

def Bounded (maxWidth cw : F) (line : List PyStr) : Prop :=
  2 ≤ line.length → checkFit fl uni line maxWidth cw = true

/-- Any amount of fuel from some on gives the lines. -/
def Wraps (text : PyStr) (maxWidth cw : F) (lines : List (List PyStr)) : Prop :=
  ∃ n, ∀ fuel ≥ n, wrapTextLines fl uni fuel text maxWidth cw = some lines

end Measure
@[simp] theorem emit_flatten (current : PyStr) : (emit current).flatten = current := by
  by_cases h : current = [] <;> simp [emit,h]

@[simp] theorem nonSpace_append (a b : PyStr) : nonSpace (a++b) = nonSpace a++nonSpace b := by
  simp [nonSpace]

@[simp] theorem nonSpace_nonSpace (s : PyStr) : nonSpace (nonSpace s) = nonSpace s := by
  simp [nonSpace]

theorem splitFrom_flatten (current s : PyStr) :
    (splitFrom current s).flatten = current++nonSpace s := by
  induction s generalizing current with
  | nil => simp [splitFrom,nonSpace]
  | cons c s ih =>
    by_cases hc : c.isSpace = true
    · simp [splitFrom,hc,ih,nonSpace]
    · simp [splitFrom,hc,ih,nonSpace]

theorem splitLineToWords_flatten (text : PyStr) :
    (splitLineToWords text).flatten = nonSpace text := by
  have h := splitFrom_flatten [] text
  rw [List.nil_append] at h
  simp only [splitLineToWords]
  split
  · next hnil =>
    rw [← h,hnil]
    rfl
  · exact h

theorem nonSpace_dropWhile (s : PyStr) : nonSpace (s.dropWhile PyChar.isSpace) = nonSpace s := by
  induction s with
  | nil => rfl
  | cons c s ih =>
    by_cases hc : c.isSpace = true
    · rw [List.dropWhile_cons_of_pos hc,ih]
      simp [nonSpace,hc]
    · rw [List.dropWhile_cons_of_neg hc]

theorem nonSpace_reverse (s : PyStr) : nonSpace s.reverse = (nonSpace s).reverse := by
  simp [nonSpace]

theorem nonSpace_strip (s : PyStr) : nonSpace (strip s) = nonSpace s := by
  rw [strip,List.rdropWhile,nonSpace_reverse,nonSpace_dropWhile,nonSpace_reverse,
    List.reverse_reverse,nonSpace_dropWhile]

theorem nonSpace_splitOn {sep : PyChar} (hsep : sep.isSpace = true) (s : PyStr) :
    nonSpace (splitOn sep s).flatten = nonSpace s := by
  induction s with
  | nil => rfl
  | cons c s ih =>
    by_cases hc : c = sep
    · subst hc
      rw [splitOn,if_pos rfl,List.flatten_cons,List.nil_append,ih]
      simp [nonSpace,hsep]
    · have hcons : nonSpace (c::s) = nonSpace [c]++nonSpace s := nonSpace_append [c] s
      rw [splitOn,if_neg hc,hcons,← ih]
      cases splitOn sep s with
      | nil => simp [nonSpace]
      | cons w ws => exact nonSpace_append [c] (w::ws).flatten

section Measured

variable {F : Type} (fl : Floats F) (uni : Unicode)

theorem graphemesFrom_flatten (current s : PyStr) :
    (graphemesFrom uni current s).flatten = current++s := by
  induction s generalizing current with
  | nil => simp [graphemesFrom]
  | cons c s ih =>
    rw [graphemesFrom]
    split
    · simp [ih]
    · simp [ih]

theorem ne_nil_of_mem_emit {current g : PyStr} (h : g ∈ emit current) : g ≠ [] := by
  by_cases hnil : current = []
  · simp [emit,hnil] at h
  · obtain rfl : g = current := by simpa [emit,hnil] using h
    exact hnil

theorem ne_nil_of_mem_graphemesFrom {current s g : PyStr} (h : g ∈ graphemesFrom uni current s) :
    g ≠ [] := by
  induction s generalizing current with
  | nil => exact ne_nil_of_mem_emit h
  | cons c s ih =>
    rw [graphemesFrom] at h
    split at h
    · exact ih h
    · obtain hemit | hrest := List.mem_append.mp h
      · exact ne_nil_of_mem_emit hemit
      · exact ih hrest

theorem takeGraphemes_append (maxWidth cw : F) (used gs : List PyStr) :
    (takeGraphemes fl uni maxWidth cw used gs).1++(takeGraphemes fl uni maxWidth cw used gs).2 =
      used++gs := by
  induction gs generalizing used with
  | nil => rfl
  | cons g gs ih =>
    rw [takeGraphemes]
    split
    · simp [ih]
    · rfl

theorem takeGraphemes_extends (maxWidth cw : F) (used gs : List PyStr) :
    ∃ more, (takeGraphemes fl uni maxWidth cw used gs).1 = used++more := by
  induction gs generalizing used with
  | nil => exact ⟨[],by simp [takeGraphemes]⟩
  | cons g gs ih =>
    rw [takeGraphemes]
    split
    · obtain ⟨more,hmore⟩ := ih (used++[g])
      exact ⟨g::more,by simp [hmore]⟩
    · exact ⟨[],by simp⟩

theorem splitWordToFitWidth_spec (word : PyStr) (maxWidth cw : F) (hword : word ≠ []) :
    (splitWordToFitWidth fl uni word maxWidth cw).1++
      (splitWordToFitWidth fl uni word maxWidth cw).2 = word ∧
      (splitWordToFitWidth fl uni word maxWidth cw).1 ≠ [] := by
  have hflat : (iterGraphemes uni word).flatten = word := by
    simpa [iterGraphemes] using graphemesFrom_flatten uni [] word
  rw [splitWordToFitWidth]
  split
  · next hnil =>
    rw [hnil] at hflat
    exact absurd hflat.symm hword
  · next g gs hgs =>
    have hmem : g ∈ graphemesFrom uni [] word := by
      show g ∈ iterGraphemes uni word
      rw [hgs]
      exact List.mem_cons_self
    have hg : g ≠ [] := ne_nil_of_mem_graphemesFrom uni hmem
    rw [hgs] at hflat
    obtain ⟨more,hmore⟩ := takeGraphemes_extends fl uni maxWidth cw [g] gs
    have hfirst : takeGraphemes fl uni maxWidth cw [] (g::gs) =
        takeGraphemes fl uni maxWidth cw [g] gs := by
      rw [takeGraphemes,if_pos (.inr rfl)]
      rfl
    have happend := takeGraphemes_append fl uni maxWidth cw [g] gs
    simp only [hfirst]
    rw [if_neg (by simp [hmore]),← List.flatten_append,happend]
    exact ⟨hflat,by simp [hmore,hg]⟩

theorem splitTokenAtCap_spec (word : PyStr) (cap cw : F) (hword : word ≠ []) :
    (splitTokenAtCap fl uni word cap cw).1++(splitTokenAtCap fl uni word cap cw).2 = word ∧
      (splitTokenAtCap fl uni word cap cw).2.length < word.length := by
  have hlength : 0 < word.length := List.length_pos_iff.mpr hword
  simp only [splitTokenAtCap]
  split
  · exact ⟨List.take_append_drop ..,by simp only [List.length_drop]; omega⟩
  · obtain ⟨happend,hfirst⟩ := splitWordToFitWidth_spec fl uni word cap cw hword
    refine ⟨happend,?_⟩
    have hlen := congrArg List.length happend
    have hpos := List.length_pos_iff.mpr hfirst
    rw [List.length_append] at hlen
    show (splitWordToFitWidth fl uni word cap cw).2.length < word.length
    omega

section Fitting

variable (maxWidth cw : F) {current remaining : List PyStr} {lines : List (List PyStr)}

/-- The rounds that are left: one to take each word or what is left of it, and one to put it
back behind a line that is full. -/
def need (remaining current : List PyStr) : ℕ :=
  2*(remaining.flatten.length+remaining.length)+if current = [] then 0 else 1

theorem need_cons (next : PyStr) (remaining current : List PyStr) :
    need (next::remaining) current =
      2*next.length+2+2*(remaining.flatten.length+remaining.length)+
        if current = [] then 0 else 1 := by
  simp only [need,List.flatten_cons,List.length_append,List.length_cons]
  omega

theorem need_le (remaining current : List PyStr) :
    need remaining current ≤ 2*(remaining.flatten.length+remaining.length)+1 := by
  rw [need]
  split <;> omega

theorem bounded_nil : Bounded fl uni maxWidth cw [] := fun h => absurd h (by simp)

theorem bounded_none : ∀ line ∈ ([] : List (List PyStr)), Bounded fl uni maxWidth cw line := by
  simp

theorem bounded_singleton (word : PyStr) : Bounded fl uni maxWidth cw [word] :=
  fun h => absurd h (by simp)

theorem fitLoop_spec (fuel : ℕ) (hfuel : need remaining current < fuel)
    (hlines : ∀ line ∈ lines, Bounded fl uni maxWidth cw line)
    (hcurrent : Bounded fl uni maxWidth cw current) :
    ∃ out, fitLoop fl uni maxWidth cw fuel remaining lines current = some out ∧
      out.flatten.flatten = lines.flatten.flatten++current.flatten++remaining.flatten ∧
      ∀ line ∈ out, Bounded fl uni maxWidth cw line := by
  induction fuel generalizing remaining lines current with
  | zero => omega
  | succ fuel ih =>
    have happend : ∀ line, Bounded fl uni maxWidth cw line →
        ∀ l ∈ lines++[line], Bounded fl uni maxWidth cw l := by
      intro line hline l hl
      obtain hl | hl := List.mem_append.mp hl
      · exact hlines l hl
      · rwa [List.mem_singleton.mp hl]
    cases remaining with
    | nil =>
      rw [fitLoop]
      split
      · exact ⟨_,rfl,by simp,happend current hcurrent⟩
      · next hnil => exact ⟨_,rfl,by simp [not_not.mp hnil],hlines⟩
    | cons next remaining =>
      rw [need_cons] at hfuel
      rw [fitLoop]
      split
      · next hfit =>
        have hneed : need remaining (current++[next]) < fuel :=
          (need_le _ _).trans_lt (by omega)
        obtain ⟨out,hout,hflat,hbounded⟩ := ih hneed hlines fun _ => hfit
        exact ⟨out,hout,by simp [hflat],hbounded⟩
      · split
        · next hcur =>
          rw [if_neg hcur] at hfuel
          have hneed : need (next::remaining) [] < fuel := by
            rw [need_cons,if_pos rfl]
            omega
          obtain ⟨out,hout,hflat,hbounded⟩ :=
            ih hneed (happend current hcurrent) (bounded_nil fl uni maxWidth cw)
          exact ⟨out,hout,by simp [hflat],hbounded⟩
        · next hcur =>
          obtain rfl := not_not.mp hcur
          have hrest : need remaining [] < fuel := by
            rw [need,if_pos rfl]
            omega
          split
          · next hnext =>
            simp only
            split
            · obtain ⟨out,hout,hflat,hbounded⟩ :=
                ih hrest (happend [next] (bounded_singleton fl uni maxWidth cw next))
                  (bounded_nil fl uni maxWidth cw)
              exact ⟨out,hout,by simp [hflat],hbounded⟩
            · obtain ⟨hword,hshort⟩ :=
                splitTokenAtCap_spec fl uni next (fl.mul maxWidth (fl.ofNat 5)) cw hnext
              generalize splitTokenAtCap fl uni next (fl.mul maxWidth (fl.ofNat 5)) cw = pieces
                at hword hshort
              obtain ⟨first,rest⟩ := pieces
              have hsplit : need (if rest ≠ [] then rest::remaining else remaining) [] < fuel := by
                split
                · rw [need_cons,if_pos rfl]
                  simp only at hshort
                  omega
                · exact hrest
              obtain ⟨out,hout,hflat,hbounded⟩ :=
                ih hsplit (happend [first] (bounded_singleton fl uni maxWidth cw first))
                  (bounded_nil fl uni maxWidth cw)
              refine ⟨out,hout,?_,hbounded⟩
              rw [hflat,← hword]
              by_cases hnil : rest = [] <;> simp [hnil]
          · next hnext =>
            obtain ⟨out,hout,hflat,hbounded⟩ := ih hrest hlines (bounded_nil fl uni maxWidth cw)
            exact ⟨out,hout,by simp [hflat,not_not.mp hnext],hbounded⟩

theorem fitLoop_succ {fuel : ℕ} {out : List (List PyStr)}
    (h : fitLoop fl uni maxWidth cw fuel remaining lines current = some out) :
    fitLoop fl uni maxWidth cw (fuel+1) remaining lines current = some out := by
  induction fuel generalizing remaining lines current with
  | zero => simp [fitLoop] at h
  | succ fuel ih =>
    cases remaining with
    | nil => exact h
    | cons next remaining =>
      rw [fitLoop] at h ⊢
      split
      · next hfit => exact ih (by rwa [if_pos hfit] at h)
      · next hfit =>
        rw [if_neg hfit] at h
        split
        · next hcur => exact ih (by rwa [if_pos hcur] at h)
        · next hcur =>
          rw [if_neg hcur] at h
          split
          · next hnext =>
            rw [if_pos hnext] at h
            simp only at h ⊢
            split
            · next hcap => exact ih (by rwa [if_pos hcap] at h)
            · next hcap => exact ih (by rwa [if_neg hcap] at h)
          · next hnext => exact ih (by rwa [if_neg hnext] at h)

theorem fitLoop_mono {n fuel : ℕ} (hle : n ≤ fuel) {out : List (List PyStr)}
    (h : fitLoop fl uni maxWidth cw n remaining lines current = some out) :
    fitLoop fl uni maxWidth cw fuel remaining lines current = some out := by
  induction fuel, hle using Nat.le_induction with
  | base => exact h
  | succ fuel _ ih => exact fitLoop_succ fl uni maxWidth cw ih

theorem splitLineToFitWidth_spec (words : List PyStr) :
    ∃ out, (∃ n, ∀ fuel ≥ n, splitLineToFitWidth fl uni maxWidth cw fuel words = some out) ∧
      out.flatten.flatten = words.flatten ∧
      ∀ line ∈ out, Bounded fl uni maxWidth cw line := by
  obtain ⟨out,hout,hflat,hbounded⟩ :=
    fitLoop_spec fl uni maxWidth cw (need words []+1) (Nat.lt_succ_self _)
      (bounded_none fl uni maxWidth cw) (bounded_nil fl uni maxWidth cw)
  exact ⟨out,⟨need words []+1,fun fuel hle => fitLoop_mono fl uni maxWidth cw hle hout⟩,
    by simpa using hflat,hbounded⟩

theorem wrapLoop_spec (raws : List PyStr)
    (hlines : ∀ line ∈ lines, Bounded fl uni maxWidth cw line) :
    ∃ out, (∃ n, ∀ fuel ≥ n, wrapLoop fl uni maxWidth cw fuel raws lines = some out) ∧
      nonSpace out.flatten.flatten = nonSpace lines.flatten.flatten++nonSpace raws.flatten ∧
      ∀ line ∈ out, Bounded fl uni maxWidth cw line := by
  induction raws generalizing lines with
  | nil => exact ⟨lines,⟨0,fun _ _ => rfl⟩,by simp [nonSpace],hlines⟩
  | cons raw raws ih =>
    have hall : ∀ wrapped, (∀ line ∈ wrapped, Bounded fl uni maxWidth cw line) →
        ∀ line ∈ lines++wrapped, Bounded fl uni maxWidth cw line := by
      intro wrapped hwrapped line hline
      exact (List.mem_append.mp hline).elim (hlines line) (hwrapped line)
    by_cases hblank : strip raw = []
    · have hraw : nonSpace raw = [] := by rw [← nonSpace_strip,hblank]; rfl
      obtain ⟨out,⟨n,hn⟩,hflat,hbounded⟩ :=
        ih (hall [[[]]] (by simpa using bounded_singleton fl uni maxWidth cw []))
      refine ⟨out,⟨n,fun fuel hle => ?_⟩,?_,hbounded⟩
      · rw [wrapLoop]
        simp only [if_pos hblank]
        exact hn fuel hle
      · simp [hflat,hraw]
    · obtain ⟨wrapped,⟨m,hm⟩,hwords,hwrapped⟩ :=
        splitLineToFitWidth_spec fl uni maxWidth cw (splitLineToWords (strip raw))
      obtain ⟨out,⟨n,hn⟩,hflat,hbounded⟩ := ih (hall wrapped hwrapped)
      refine ⟨out,⟨max m n,fun fuel hle => ?_⟩,?_,hbounded⟩
      · rw [wrapLoop]
        simp only [if_neg hblank]
        rw [hm fuel (le_of_max_le_left hle),Option.bind_some]
        exact hn fuel (le_of_max_le_right hle)
      · rw [splitLineToWords_flatten,nonSpace_strip] at hwords
        simp [hflat,hwords]

end Fitting

end Measured

end MinimaxCode.TextWrap
