import Mathlib.Data.List.Basic
import MinimaxCode.PyText

/-!
# Lexical paths

`normalize_lexically` resolves `.` and `..` in the parts of a POSIX path without looking
at the file system, and `AbsPathBuf.contains_path` compares the result with a root as it
was given. The walk tells roots and drives from names by their text.
-/

namespace MinimaxCode.LexicalPaths

open PyText

/-- A component that `PurePosixPath` keeps. -/
structure Component where
  text : PyStr
  ne_nil : text ≠ []
  slash_not_mem : ch '/' ∉ text
  ne_dot : text ≠ lit "."
  deriving DecidableEq

def Component.ofPiece (s : PyStr) : Option Component :=
  if h : s ≠ [] ∧ ch '/' ∉ s ∧ s ≠ lit "." then some ⟨s,h.1,h.2.1,h.2.2⟩ else none

/-- POSIX leaves a meaning of its own to exactly two slashes at the front. -/
inductive Root
  | relative
  | slash
  | doubleSlash
  deriving DecidableEq

def Root.text : Root → PyStr
  | .relative => []
  | .slash => lit "/"
  | .doubleSlash => lit "//"

structure PurePosixPath where
  root : Root
  tail : List Component
  deriving DecidableEq

def splitroot : PyStr → Root × PyStr
  | .scalar '/'::.scalar '/'::.scalar '/'::rest => (.slash,ch '/'::ch '/'::rest)
  | .scalar '/'::.scalar '/'::rest => (.doubleSlash,rest)
  | .scalar '/'::rest => (.slash,rest)
  | s => (.relative,s)

def components (rel : PyStr) : List Component := (splitOn (ch '/') rel).filterMap Component.ofPiece

/-- `PurePath(s)`. -/
def ofStr (s : PyStr) : PurePosixPath := ⟨(splitroot s).1,components (splitroot s).2⟩

namespace PurePosixPath

def parts (p : PurePosixPath) : List PyStr :=
  (if p.root = .relative then [] else [p.root.text])++p.tail.map Component.text

/-- `str(p)`. -/
def str (p : PurePosixPath) : PyStr :=
  if p.root = .relative ∧ p.tail = [] then lit "."
  else p.root.text++(lit "/").intercalate (p.tail.map Component.text)

def isAbsolute (p : PurePosixPath) : Bool := p.root ≠ .relative

/-- `p.is_relative_to(q)`. -/
def isRelativeTo (p q : PurePosixPath) : Bool := q.root = p.root && q.tail.isPrefixOf p.tail

end PurePosixPath

/-- One step of `posixpath.join`. -/
def joinPart (path part : PyStr) : PyStr :=
  if part.head? = some (ch '/') then part
  else if path = [] ∨ path.getLast? = some (ch '/') then path++part
  else path++ch '/'::part

/-- `PurePath(*parts)`. -/
def ofParts : List PyStr → PurePosixPath
  | [] => ofStr []
  | part::rest => ofStr (rest.foldl joinPart part)

def isAsciiLetter (c : PyChar) : Bool :=
  (65 ≤ c.code && c.code ≤ 90) || (97 ≤ c.code && c.code ≤ 122)

/-- A letter, a colon, and one of the given ends; the `$` of the pattern also stands before a final
line break. -/
def matchesDrive (ends : List PyStr) : PyStr → Bool
  | letter::colon::rest =>
    isAsciiLetter letter && colon == ch ':' && ends.any fun e => rest == e || rest == e++lit "\n"
  | _ => false

/-- `_ANCHOR_RE.match`. -/
def anchorRe (part : PyStr) : Bool := matchesDrive [[],lit "\\",lit "/"] part

/-- `_DRIVE_ROOT_RE.match`. -/
def driveRootRe (part : PyStr) : Bool := matchesDrive [lit "\\",lit "/"] part

def isAnchor (part : PyStr) : Bool := part == lit "/" || part == lit "\\" || anchorRe part

def isRootAnchor (part : PyStr) : Bool := part == lit "/" || part == lit "\\" || driveRootRe part

def isNormal (part : PyStr) : Bool := !(part == lit "." || part == lit "..") && !isAnchor part

/-- The loop over the parts, with the last part of the stack first. -/
def walk : List PyStr → List PyStr → List PyStr
  | stack, [] => stack.reverse
  | stack, part::rest =>
    if part = lit "." ∨ part = [] then walk stack rest
    else if part = lit ".." then
      match stack with
      | top::below =>
        if isNormal top then walk below rest
        else if isRootAnchor top then walk stack rest
        else walk (part::stack) rest
      | [] => walk [part] rest
    else walk (part::stack) rest

def normalizeLexically (path : PyStr) : PurePosixPath :=
  let stack := walk [] (ofStr path).parts
  if stack.isEmpty then ofStr (lit ".") else ofParts stack

/-- An absolute path. -/
structure AbsPathBuf where
  path : PurePosixPath
  absolute : path.root ≠ .relative

/-- `AbsPathBuf.new`, which raises on a relative path. -/
def AbsPathBuf.new (path : PyStr) : Option AbsPathBuf :=
  if h : (ofStr path).root ≠ .relative then some ⟨ofStr path,h⟩ else none

def AbsPathBuf.containsPath (self other : AbsPathBuf) : Bool :=
  (normalizeLexically other.path.str).isRelativeTo self.path

/-- `..` takes the last component away; the root is its own parent. -/
def resolveFrom : List Component → List Component → List Component
  | stack, [] => stack.reverse
  | stack, c::rest => if c.text = lit ".." then resolveFrom stack.tail rest else resolveFrom (c::stack) rest

def PurePosixPath.resolved (p : PurePosixPath) : PurePosixPath := ⟨p.root,resolveFrom [] p.tail⟩

/-- What a `..` meets: the root `/` or a component that does not look like a root or a drive. -/
def Removable (root : Root) : List Component → Prop
  | [] => root = .slash
  | top::_ => isAnchor top.text = false

def RegularFrom (root : Root) : List Component → List Component → Prop
  | _, [] => True
  | stack, c::rest =>
    if c.text = lit ".." then Removable root stack ∧ RegularFrom root stack.tail rest
    else RegularFrom root (c::stack) rest

instance (root : Root) : (stack : List Component) → Decidable (Removable root stack)
  | [] => inferInstanceAs (Decidable (root = .slash))
  | top::_ => inferInstanceAs (Decidable (isAnchor top.text = false))

instance decidableRegularFrom (root : Root) : (stack tail : List Component) →
    Decidable (RegularFrom root stack tail)
  | _, [] => isTrue trivial
  | stack, c::rest =>
    have := decidableRegularFrom root stack.tail rest
    have := decidableRegularFrom root (c::stack) rest
    if h : c.text = lit ".." then
      decidable_of_iff (Removable root stack ∧ RegularFrom root stack.tail rest)
        (by rw [RegularFrom,if_pos h])
    else decidable_of_iff (RegularFrom root (c::stack) rest) (by rw [RegularFrom,if_neg h])

def PurePosixPath.Regular (p : PurePosixPath) : Prop := RegularFrom p.root [] p.tail

variable {root : Root} {c : Component} {stack tail : List Component} {p : PurePosixPath}

theorem ofPiece_text (c : Component) : Component.ofPiece c.text = some c :=
  dif_pos ⟨c.ne_nil,c.slash_not_mem,c.ne_dot⟩

theorem components_intercalate (tail : List Component) :
    components ((lit "/").intercalate (tail.map Component.text)) = tail := by
  cases tail with
  | nil => rfl
  | cons c rest =>
    induction rest generalizing c with
    | nil =>
      rw [components,List.map_singleton,List.intercalate_singleton,splitOn_of_not_mem c.slash_not_mem,
        List.filterMap_cons_some (ofPiece_text c)]
      rfl
    | cons d rest ih =>
      have hrest := ih d
      rw [components] at hrest ⊢
      rw [List.map_cons,List.map_cons,List.intercalate_cons_cons,List.append_assoc]
      have hsep : lit "/" = [ch '/'] := rfl
      rw [hsep,List.singleton_append,splitOn_append_sep c.slash_not_mem,
        List.filterMap_cons_some (ofPiece_text c)]
      rw [hsep] at hrest
      rw [← List.map_cons,hrest]

theorem head_ne_slash (c : Component) : ∃ a cs, c.text = a::cs ∧ a ≠ ch '/' := by
  obtain ⟨a,cs,htext⟩ := List.exists_cons_of_ne_nil c.ne_nil
  refine ⟨a,cs,htext,?_⟩
  rintro rfl
  have hslash := c.slash_not_mem
  rw [htext] at hslash
  exact hslash List.mem_cons_self

theorem intercalate_head (tail : List Component) :
    tail = [] ∨ ∃ a rest, (lit "/").intercalate (tail.map Component.text) = a::rest ∧ a ≠ ch '/' := by
  cases tail with
  | nil => exact .inl rfl
  | cons c rest =>
    obtain ⟨a,cs,hc,ha⟩ := head_ne_slash c
    refine .inr ?_
    cases rest with
    | nil => exact ⟨a,cs,by rw [List.map_singleton,List.intercalate_singleton,hc],ha⟩
    | cons d rest =>
      exact ⟨a,_,by rw [List.map_cons,List.map_cons,List.intercalate_cons_cons,hc,List.append_assoc]; rfl,ha⟩

theorem splitroot_append {rest : PyStr} (hroot : root ≠ .relative)
    (hrest : rest = [] ∨ ∃ a more, rest = a::more ∧ a ≠ ch '/') :
    splitroot (root.text++rest) = (root,rest) := by
  cases root with
  | relative => exact absurd rfl hroot
  | slash =>
    obtain rfl | ⟨a,more,rfl,ha⟩ := hrest
    · rfl
    · show splitroot (ch '/'::a::more) = _
      rw [splitroot]
      · intro rest h
        exact ha (List.cons.inj h).1
      · intro rest h
        exact ha (List.cons.inj h).1
  | doubleSlash =>
    obtain rfl | ⟨a,more,rfl,ha⟩ := hrest
    · rfl
    · show splitroot (ch '/'::ch '/'::a::more) = _
      rw [splitroot]
      intro rest h
      exact ha (List.cons.inj h).1

theorem ofStr_append (hroot : root ≠ .relative) (tail : List Component) :
    ofStr (root.text++(lit "/").intercalate (tail.map Component.text)) = ⟨root,tail⟩ := by
  have hrest : (lit "/").intercalate (tail.map Component.text) = [] ∨ ∃ a more,
      (lit "/").intercalate (tail.map Component.text) = a::more ∧ a ≠ ch '/' := by
    obtain rfl | h := intercalate_head tail
    · exact .inl rfl
    · exact .inr h
  rw [ofStr,splitroot_append hroot hrest,components_intercalate]

theorem ofStr_str (h : p.root ≠ .relative) : ofStr p.str = p := by
  rw [PurePosixPath.str,if_neg fun hc => h hc.1]
  exact ofStr_append h p.tail

theorem joinPart_component (pre : PyStr) (c d : Component) :
    joinPart (pre++c.text) d.text = pre++c.text++lit "/"++d.text := by
  obtain ⟨a,cs,hd,ha⟩ := head_ne_slash d
  have hhead : ¬d.text.head? = some (ch '/') := by
    rw [hd]
    exact fun h => ha (Option.some.inj h)
  have hend : ¬(pre++c.text = [] ∨ (pre++c.text).getLast? = some (ch '/')) := by
    rintro (hnil | hlast)
    · exact c.ne_nil (List.append_eq_nil_iff.mp hnil).2
    · rw [List.getLast?_append_of_ne_nil _ c.ne_nil] at hlast
      exact c.slash_not_mem (List.mem_of_getLast? hlast)
  rw [joinPart,if_neg hhead,if_neg hend,List.append_assoc _ (lit "/")]
  rfl

theorem foldl_joinPart (pre : PyStr) (c : Component) (rest : List Component) :
    (rest.map Component.text).foldl joinPart (pre++c.text) =
      pre++(lit "/").intercalate ((c::rest).map Component.text) := by
  induction rest generalizing pre c with
  | nil => rw [List.map_singleton,List.intercalate_singleton]; rfl
  | cons d rest ih =>
    rw [List.map_cons,List.foldl_cons,joinPart_component,ih,List.map_cons,List.map_cons,List.map_cons,
      List.intercalate_cons_cons]
    simp only [List.append_assoc]

theorem ofParts_cons (hroot : root ≠ .relative) (tail : List Component) :
    ofParts (root.text::tail.map Component.text) = ⟨root,tail⟩ := by
  rw [ofParts,← ofStr_append hroot tail]
  congr 1
  cases tail with
  | nil => simp
  | cons c rest =>
    obtain ⟨a,cs,hc,ha⟩ := head_ne_slash c
    have hhead : ¬c.text.head? = some (ch '/') := by
      rw [hc]
      exact fun h => ha (Option.some.inj h)
    have hend : root.text = [] ∨ root.text.getLast? = some (ch '/') := by
      cases root with
      | relative => exact absurd rfl hroot
      | slash => exact .inr rfl
      | doubleSlash => exact .inr rfl
    rw [List.map_cons,List.foldl_cons,joinPart,if_neg hhead,if_pos hend]
    exact foldl_joinPart root.text c rest

theorem isNormal_component (hdots : c.text ≠ lit "..") (hanchor : isAnchor c.text = false) :
    isNormal c.text = true := by
  rw [isNormal,beq_false_of_ne c.ne_dot,beq_false_of_ne hdots,hanchor]
  rfl

theorem walk_component (hdots : c.text ≠ lit "..") (parts rest : List PyStr) :
    walk parts (c.text::rest) = walk (c.text::parts) rest := by
  rw [walk.eq_def]
  simp only [c.ne_dot,c.ne_nil,hdots,or_self,if_false]

theorem walk_root (hroot : root ≠ .relative) (rest : List PyStr) :
    walk [] (root.text::rest) = walk [root.text] rest := by
  cases root with
  | relative => exact absurd rfl hroot
  | slash => rfl
  | doubleSlash => rfl

theorem walk_eq (hstack : ∀ d ∈ stack, d.text ≠ lit "..") (h : RegularFrom root stack tail) :
    walk (stack.map Component.text++[root.text]) (tail.map Component.text) =
      root.text::(resolveFrom stack tail).map Component.text := by
  induction tail generalizing stack with
  | nil => simp [walk,resolveFrom]
  | cons c rest ih =>
    rw [List.map_cons]
    by_cases hdots : c.text = lit ".."
    · rw [RegularFrom,if_pos hdots] at h
      rw [resolveFrom,if_pos hdots,hdots]
      cases stack with
      | nil =>
        obtain ⟨rfl,hrest⟩ := h
        have hmore := ih (by simp) hrest
        rw [← hmore]
        rfl
      | cons d below =>
        obtain ⟨hanchor,hrest⟩ := h
        have hnormal := isNormal_component (hstack d List.mem_cons_self) hanchor
        have hmore := ih (fun e he => hstack e (List.mem_cons_of_mem _ he)) hrest
        rw [List.tail_cons,← hmore,List.map_cons,List.cons_append,walk.eq_def]
        have hne : ¬(lit ".." = lit "." ∨ lit ".." = []) := by decide
        simp only [hne,hnormal,if_false,if_true]
    · rw [RegularFrom,if_neg hdots] at h
      rw [resolveFrom,if_neg hdots,walk_component hdots]
      refine ih (fun d hd => ?_) h
      cases hd with
      | head => exact hdots
      | tail _ hd => exact hstack d hd

theorem parts_of_absolute (h : p.root ≠ .relative) : p.parts = p.root.text::p.tail.map Component.text := by
  rw [PurePosixPath.parts,if_neg h]
  rfl

theorem normalizeLexically_eq (h : p.root ≠ .relative) (hregular : p.Regular) :
    normalizeLexically p.str = p.resolved := by
  have hwalk : walk [] p.parts = p.root.text::(resolveFrom [] p.tail).map Component.text := by
    rw [parts_of_absolute h,walk_root h]
    exact walk_eq (by simp) hregular
  rw [normalizeLexically,ofStr_str h,hwalk]
  exact ofParts_cons h _

theorem resolveFrom_no_dots (hstack : ∀ d ∈ stack, d.text ≠ lit "..") :
    ∀ d ∈ resolveFrom stack tail, d.text ≠ lit ".." := by
  induction tail generalizing stack with
  | nil => simpa [resolveFrom] using hstack
  | cons c rest ih =>
    rw [resolveFrom]
    split
    · exact ih fun d hd => hstack d (List.mem_of_mem_tail hd)
    · next hdots =>
      refine ih fun d hd => ?_
      cases hd with
      | head => exact hdots
      | tail _ hd => exact hstack d hd

theorem resolveFrom_of_no_dots (h : ∀ d ∈ tail, d.text ≠ lit "..") (stack : List Component) :
    resolveFrom stack tail = stack.reverse++tail := by
  induction tail generalizing stack with
  | nil => simp [resolveFrom]
  | cons c rest ih =>
    rw [resolveFrom,if_neg (h c List.mem_cons_self),ih fun d hd => h d (List.mem_cons_of_mem _ hd)]
    simp

theorem regularFrom_of_no_dots (h : ∀ d ∈ tail, d.text ≠ lit "..") (root : Root) (stack : List Component) :
    RegularFrom root stack tail := by
  induction tail generalizing stack with
  | nil => exact trivial
  | cons c rest ih =>
    rw [RegularFrom,if_neg (h c List.mem_cons_self)]
    exact ih (fun d hd => h d (List.mem_cons_of_mem _ hd)) _

theorem resolved_of_no_dots (h : ∀ d ∈ p.tail, d.text ≠ lit "..") : p.resolved = p := by
  rw [PurePosixPath.resolved,resolveFrom_of_no_dots h]
  rfl

theorem isRelativeTo_iff {q : PurePosixPath} :
    p.isRelativeTo q = true ↔ q.root = p.root ∧ q.tail <+: p.tail := by
  rw [PurePosixPath.isRelativeTo,Bool.and_eq_true,decide_eq_true_iff,List.isPrefixOf_iff_prefix]

/-- A path whose `..` meet only plain names and the root `/` is resolved by components: the result
is absolute, free of `..` and a fixed point, and the path is contained in a root exactly when the
root, as it stands, is a prefix of the result. A root free of `..` is its own resolution. -/
theorem contains_resolved (root path : AbsPathBuf) (h : path.path.Regular) :
    normalizeLexically path.path.str = path.path.resolved ∧
    normalizeLexically path.path.resolved.str = path.path.resolved ∧
    path.path.resolved.isAbsolute = true ∧
    (∀ c ∈ path.path.resolved.tail, c.text ≠ lit "..") ∧
    (root.containsPath path = true ↔
      root.path.root = path.path.resolved.root ∧ root.path.tail <+: path.path.resolved.tail) ∧
    ((∀ c ∈ root.path.tail, c.text ≠ lit "..") → root.path.resolved = root.path) := by
  have hnormal := normalizeLexically_eq path.absolute h
  have hdots : ∀ c ∈ path.path.resolved.tail, c.text ≠ lit ".." :=
    resolveFrom_no_dots (by simp)
  have habsolute : path.path.resolved.root ≠ .relative := path.absolute
  refine ⟨hnormal,?_,?_,hdots,?_,resolved_of_no_dots⟩
  · have hagain := normalizeLexically_eq habsolute (regularFrom_of_no_dots hdots _ _)
    rwa [resolved_of_no_dots hdots] at hagain
  · rw [PurePosixPath.isAbsolute,decide_eq_true_iff]
    exact habsolute
  · rw [AbsPathBuf.containsPath,hnormal,isRelativeTo_iff]

theorem contains_resolved_sibling : ∃ root path : AbsPathBuf,
    AbsPathBuf.new (lit "/a") = some root ∧ AbsPathBuf.new (lit "/a/b/../c") = some path ∧
      normalizeLexically path.path.str = ofStr (lit "/a/c") ∧ root.containsPath path = true := by
  have hregular : RegularFrom (ofStr (lit "/a/b/../c")).root [] (ofStr (lit "/a/b/../c")).tail := by decide
  have hunder : (ofStr (lit "/a")).tail <+: (ofStr (lit "/a/b/../c")).resolved.tail := by decide
  obtain ⟨hnormal,-,-,-,hcontains,-⟩ := contains_resolved ⟨ofStr (lit "/a"),by decide⟩
    ⟨ofStr (lit "/a/b/../c"),by decide⟩ hregular
  exact ⟨_,_,rfl,rfl,hnormal,hcontains.mpr ⟨rfl,hunder⟩⟩

/-- The stored root is compared as it was given. -/
theorem stored_root_literal : ∃ root path : AbsPathBuf,
    AbsPathBuf.new (lit "/a/b/..") = some root ∧ AbsPathBuf.new (lit "/a/c") = some path ∧
      root.containsPath path = false ∧ root.path.resolved.root = path.path.resolved.root ∧
        root.path.resolved.tail <+: path.path.resolved.tail :=
  ⟨⟨ofStr (lit "/a/b/.."),by decide⟩,⟨ofStr (lit "/a/c"),by decide⟩,rfl,rfl,by decide,rfl,by decide⟩

end MinimaxCode.LexicalPaths
