import MinimaxCode.Semver
import MinimaxCode.UnifiedDiff

/-!
# Versions of the program

A version is read with one regular expression, which takes any run of its characters for the
identifiers and any script's digits behind the first of a number, and ordered by a key that is
compared as a tuple. Numbers beyond the digits that `int` takes raise. The parameter `decimal`
knows the digits that are not ASCII ones.
-/

namespace MinimaxCode.Versions

open PyText PyJson Semver

variable (decimal : PyChar → Option ℕ)

/-- The groups of `_SEMVER_RE`. -/
structure Groups where
  major : PyStr
  minor : PyStr
  patch : PyStr
  pre : Option PyStr
  build : Option PyStr
  deriving DecidableEq

def positiveDigit (c : PyChar) : Bool := isDigit c && c != ch '0'

/-- What `0|[1-9]\d*` matches, where no digit follows. -/
def numberShape (digits : PyStr) : Bool :=
  match digits with
  | [] => false
  | c::cs => (c == ch '0' && cs.isEmpty) || (positiveDigit c && cs.all (UnifiedDiff.isDecimal decimal))

/-- `0|[1-9]\d*`, in front of something else than a digit. -/
def numberRe (s : PyStr) : Option (PyStr × PyStr) :=
  let digits := s.takeWhile (UnifiedDiff.isDecimal decimal)
  if numberShape decimal digits then some (digits,s.dropWhile (UnifiedDiff.isDecimal decimal)) else none

/-- `[0-9A-Za-z.-]`. -/
def identifiersChar (c : PyChar) : Bool := identifierChar c || c == ch '.'

/-- `(?:-([0-9A-Za-z.-]+))?` for a mark, in front of a character that does not belong to it. -/
def groupRe (mark : Char) (s : PyStr) : Option PyStr × PyStr :=
  match s with
  | [] => (none,[])
  | c::cs =>
    let run := cs.takeWhile identifiersChar
    if c = ch mark ∧ run ≠ [] then (some run,cs.dropWhile identifiersChar) else (none,c::cs)

def dotRe (s : PyStr) : Option PyStr := (lit ".").isPrefixOf? s

/-- `_SEMVER_RE.match`. -/
def semverRe (s : PyStr) : Option Groups := do
  let (major,s) ← numberRe decimal s
  let s ← dotRe s
  let (minor,s) ← numberRe decimal s
  let s ← dotRe s
  let (patch,s) ← numberRe decimal s
  let (pre,s) := groupRe '-' s
  let (build,s) := groupRe '+' s
  -- `$` also matches in front of a last line feed
  if s = [] ∨ s = lit "\n" then some ⟨major,minor,patch,pre,build⟩ else none

/-- The digits that `int` takes, by default. -/
def maxStrDigits : ℕ := 4300

/-- `int`, and `none` where it raises. -/
def pyInt (digits : PyStr) : Option ℕ :=
  if digits.length ≤ maxStrDigits then some (UnifiedDiff.intOfDigits decimal digits) else none

structure Version where
  major : ℕ
  minor : ℕ
  patch : ℕ
  pre : Option PyStr
  build : Option PyStr
  deriving DecidableEq

/-- The two `ValueError`s. -/
inductive ValueError
  | notSemver (text : PyStr)
  | tooManyDigits
  deriving DecidableEq

def parse (text : PyStr) : Except ValueError Version :=
  match semverRe decimal (strip text) with
  | none => .error (.notSemver text)
  | some m =>
    match pyInt decimal m.major, pyInt decimal m.minor, pyInt decimal m.patch with
    | some major, some minor, some patch => .ok ⟨major,minor,patch,m.pre,m.build⟩
    | _, _, _ => .error .tooManyDigits

def Version.str (v : Version) : PyStr :=
  natText v.major++ch '.'::natText v.minor++ch '.'::natText v.patch++marked '-' v.pre++
    marked '+' v.build

instance : LinearOrder PyChar := LinearOrder.lift' PyChar.code fun _ _ => code_inj

abbrev IdentifierKey := ℕ ×ₗ ℕ ×ₗ PyStr

abbrev Key := ℕ ×ₗ ℕ ×ₗ ℕ ×ₗ ℕ ×ₗ List IdentifierKey

def releaseTier : ℕ := 1

def preReleaseTier : ℕ := 0

/-- `_pre_release_identifier_key`, where `isascii` and `isdigit` hold of ASCII digits. -/
def preReleaseIdentifierKey (identifier : PyStr) : Option IdentifierKey :=
  if identifier ≠ [] ∧ identifier.all isDigit then
    (pyInt decimal identifier).map fun n => toLex (0,toLex (n,[]))
  else some (toLex (1,toLex (0,identifier)))

/-- `_cmp_key`, and `none` where `int` raises. -/
def cmpKey (v : Version) : Option Key :=
  match v.pre with
  | none => some (toLex (v.major,toLex (v.minor,toLex (v.patch,toLex (releaseTier,[])))))
  | some pre =>
    ((splitOn (ch '.') pre).mapM (preReleaseIdentifierKey decimal)).map fun identifiers =>
      toLex (v.major,toLex (v.minor,toLex (v.patch,toLex (preReleaseTier,identifiers))))

def semverMax (a b : PyStr) : Except ValueError PyStr := do
  let va ← parse decimal a
  let vb ← parse decimal b
  match cmpKey decimal va, cmpKey decimal vb with
  | some ka, some kb => return (if kb ≤ ka then va else vb).str
  | _, _ => throw .tooManyDigits

section Shape

variable {decimal}

/-- What `_SEMVER_RE` asks of its groups. -/
structure Groups.Shaped (decimal : PyChar → Option ℕ) (g : Groups) : Prop where
  major : numberShape decimal g.major = true
  minor : numberShape decimal g.minor = true
  patch : numberShape decimal g.patch = true
  pre : ∀ p ∈ g.pre, p ≠ [] ∧ ∀ c ∈ p, identifiersChar c = true
  build : ∀ p ∈ g.build, p ≠ [] ∧ ∀ c ∈ p, identifiersChar c = true

def Groups.text (g : Groups) : PyStr :=
  g.major++ch '.'::g.minor++ch '.'::g.patch++marked '-' g.pre++marked '+' g.build

theorem isDecimal_of_isDigit {c : PyChar} (h : isDigit c = true) : UnifiedDiff.isDecimal decimal c = true := by
  rw [UnifiedDiff.isDecimal,UnifiedDiff.digitValue_digit h]
  rfl

theorem numberShape_decimal {n : PyStr} (h : numberShape decimal n = true) :
    n ≠ [] ∧ ∀ c ∈ n, UnifiedDiff.isDecimal decimal c = true := by
  cases n with
  | nil => cases h
  | cons c cs =>
    refine ⟨List.cons_ne_nil c cs,?_⟩
    rw [numberShape,Bool.or_eq_true,Bool.and_eq_true,Bool.and_eq_true,positiveDigit,Bool.and_eq_true] at h
    intro d hd
    obtain ⟨hzero,hnil⟩ | ⟨⟨hdigit,_⟩,hall⟩ := h
    · rw [List.isEmpty_iff.mp hnil,List.mem_singleton] at hd
      rw [hd,beq_iff_eq.mp hzero]
      rfl
    · obtain rfl | hcs := List.mem_cons.mp hd
      · exact isDecimal_of_isDigit hdigit
      · exact List.all_eq_true.mp hall d hcs

theorem numberRe_spec {s n rest : PyStr} (h : numberRe decimal s = some (n,rest)) :
    numberShape decimal n = true ∧ s = n++rest := by
  rw [numberRe] at h
  split at h
  case isTrue hshape =>
    cases h
    exact ⟨hshape,List.takeWhile_append_dropWhile.symm⟩
  · cases h

theorem numberRe_append {n rest : PyStr} (h : numberShape decimal n = true)
    (hrest : ∀ c ∈ rest.head?, UnifiedDiff.isDecimal decimal c = false) :
    numberRe decimal (n++rest) = some (n,rest) := by
  obtain ⟨htake,hdrop⟩ := span_append (numberShape_decimal h).2 hrest
  rw [numberRe,htake,hdrop,if_pos h]

theorem dotRe_spec {s rest : PyStr} : dotRe s = some rest ↔ s = ch '.'::rest := by
  rw [dotRe,List.isPrefixOf?_eq_some_iff_append_eq]
  exact eq_comm

theorem groupRe_cons (mark : Char) (c : PyChar) (cs : PyStr) : groupRe mark (c::cs) =
    if c = ch mark ∧ cs.takeWhile identifiersChar ≠ []
      then (some (cs.takeWhile identifiersChar),cs.dropWhile identifiersChar) else (none,c::cs) := rfl

theorem groupRe_spec {mark : Char} {s rest : PyStr} {o : Option PyStr} (h : groupRe mark s = (o,rest)) :
    s = marked mark o++rest ∧ ∀ p ∈ o, p ≠ [] ∧ ∀ c ∈ p, identifiersChar c = true := by
  cases s with
  | nil =>
    cases h
    exact ⟨rfl,fun p hp => nomatch hp⟩
  | cons c cs =>
    rw [groupRe_cons] at h
    split at h
    case isTrue hrun =>
      cases h
      refine ⟨?_,fun p hp => ?_⟩
      · rw [marked,hrun.1,List.cons_append,List.takeWhile_append_dropWhile]
      · cases hp
        exact ⟨hrun.2,fun c hc => List.mem_takeWhile_imp hc⟩
    · cases h
      exact ⟨rfl,fun p hp => nomatch hp⟩

theorem groupRe_marked {mark : Char} {rest : PyStr} {o : Option PyStr}
    (ho : ∀ p ∈ o, p ≠ [] ∧ ∀ c ∈ p, identifiersChar c = true)
    (hrest : ∀ c ∈ rest.head?, identifiersChar c = false ∧ c ≠ ch mark) :
    groupRe mark (marked mark o++rest) = (o,rest) := by
  cases o with
  | none =>
    cases rest with
    | nil => rfl
    | cons c cs =>
      rw [marked,List.nil_append,groupRe_cons]
      exact if_neg fun h => (hrest c rfl).2 h.1
  | some p =>
    obtain ⟨hne,hchars⟩ := ho p rfl
    obtain ⟨htake,hdrop⟩ := span_append hchars fun c hc => (hrest c hc).1
    rw [marked,List.cons_append,groupRe_cons,htake,hdrop]
    exact if_pos ⟨rfl,hne⟩

theorem head_marked {mark : Char} {o : Option PyStr} {rest : PyStr} {P : PyChar → Prop} (hmark : P (ch mark))
    (hrest : ∀ c ∈ rest.head?, P c) : ∀ c ∈ (marked mark o++rest).head?, P c := by
  cases o with
  | none => exact hrest
  | some p =>
    intro c hc
    cases hc
    exact hmark

theorem semverRe_text {g : Groups} (h : g.Shaped decimal) : semverRe decimal g.text = some g := by
  have hdot : ∀ s : PyStr, ∀ c ∈ (ch '.'::s).head?, UnifiedDiff.isDecimal decimal c = false := by
    intro s c hc
    cases hc
    rfl
  have hbuild := @groupRe_marked '+' [] g.build h.build fun c hc => nomatch hc
  have hpre := @groupRe_marked '-' (marked '+' g.build++[]) g.pre h.pre
    (head_marked (by decide) fun c hc => nomatch hc)
  have hpatch := @numberRe_append decimal g.patch (marked '-' g.pre++(marked '+' g.build++[])) h.patch
    (head_marked rfl (head_marked rfl fun c hc => nomatch hc))
  have hsplit : g.text = g.major++(ch '.'::(g.minor++(ch '.'::(g.patch++(marked '-' g.pre++
      (marked '+' g.build++[])))))) := by
    simp only [Groups.text,List.append_assoc,List.cons_append,List.append_nil]
  rw [semverRe,hsplit,numberRe_append h.major (hdot _)]
  simp only [Option.bind_eq_bind,Option.bind_some,dotRe_spec.mpr rfl,numberRe_append h.minor (hdot _),hpatch,
    hpre,hbuild,true_or,if_true]

theorem semverRe_spec {s : PyStr} {g : Groups} (hs : s.getLast? ≠ some (ch '\n'))
    (h : semverRe decimal s = some g) : g.Shaped decimal ∧ s = g.text := by
  rw [semverRe] at h
  obtain ⟨⟨major,s₁⟩,hmajor,h₁⟩ := Option.bind_eq_some_iff.mp h
  obtain ⟨s₂,hdot,h₂⟩ := Option.bind_eq_some_iff.mp h₁
  obtain ⟨⟨minor,s₃⟩,hminor,h₃⟩ := Option.bind_eq_some_iff.mp h₂
  obtain ⟨s₄,hdot',h₄⟩ := Option.bind_eq_some_iff.mp h₃
  obtain ⟨⟨patch,s₅⟩,hpatch,hend⟩ := Option.bind_eq_some_iff.mp h₄
  dsimp only at hdot hend hdot'
  cases hpre : groupRe '-' s₅ with
  | mk pre s₆ =>
    cases hbuild : groupRe '+' s₆ with
    | mk build s₇ =>
      rw [hpre] at hend
      dsimp only at hend
      rw [hbuild] at hend
      dsimp only at hend
      obtain ⟨hshape₁,rfl⟩ := numberRe_spec hmajor
      obtain ⟨hshape₂,rfl⟩ := numberRe_spec hminor
      obtain ⟨hshape₃,rfl⟩ := numberRe_spec hpatch
      obtain ⟨rfl,hchars₁⟩ := groupRe_spec hpre
      obtain ⟨rfl,hchars₂⟩ := groupRe_spec hbuild
      split at hend
      case isTrue hlast =>
        cases hend
        obtain rfl | rfl := hlast
        · refine ⟨⟨hshape₁,hshape₂,hshape₃,hchars₁,hchars₂⟩,?_⟩
          rw [dotRe_spec.mp hdot,dotRe_spec.mp hdot',Groups.text]
          simp only [List.append_assoc,List.cons_append,List.append_nil]
        · refine absurd ?_ hs
          rw [dotRe_spec.mp hdot,dotRe_spec.mp hdot']
          simp only [lit,List.getLast?_append,List.getLast?_cons]
          rfl
      · cases hend

theorem getLast_strip (s : PyStr) : (strip s).getLast? ≠ some (ch '\n') := by
  intro hlast
  have hne : strip s ≠ [] := fun hnil => by
    rw [hnil] at hlast
    cases hlast
  have hspace := List.rdropWhile_last_not PyChar.isSpace (s.dropWhile PyChar.isSpace) hne
  rw [List.getLast?_eq_some_getLast hne] at hlast
  unfold strip at hlast
  rw [Option.some.inj hlast] at hspace
  exact hspace (by decide)

theorem semverRe_strip {s : PyStr} {g : Groups} :
    semverRe decimal (strip s) = some g ↔ g.Shaped decimal ∧ strip s = g.text := by
  refine ⟨semverRe_spec (getLast_strip s),fun h => ?_⟩
  rw [h.2,semverRe_text h.1]

end Shape

section Accepted

variable {decimal} {g h : Groups}

/-- What the grammar asks of texts that the expression matches. -/
structure Groups.WellSpelled (g : Groups) : Prop where
  ascii : ∀ c ∈ g.major++g.minor++g.patch, c.code < 128
  pre : ∀ p ∈ g.pre, ∀ id ∈ splitOn (ch '.') p,
    id ≠ [] ∧ (Digits id → id.head? = some (ch '0') → id = lit "0")
  build : ∀ p ∈ g.build, ∀ id ∈ splitOn (ch '.') p, id ≠ []

/-- The numbers are within the digits that `int` takes. -/
def Groups.Short (g : Groups) : Prop := ∀ n ∈ [g.major,g.minor,g.patch], n.length ≤ maxStrDigits

theorem Groups.Shaped.inj (hg : g.Shaped decimal) (hh : h.Shaped decimal) (htext : g.text = h.text) :
    g = h := by
  have hmatch := semverRe_text hg
  rw [htext,semverRe_text hh] at hmatch
  exact (Option.some.inj hmatch).symm

theorem isDigit_of_isDecimal {c : PyChar} (hdecimal : UnifiedDiff.isDecimal decimal c = true)
    (hascii : c.code < 128) : isDigit c = true := by
  rw [UnifiedDiff.isDecimal,UnifiedDiff.digitValue,if_pos hascii] at hdecimal
  by_contra hdigit
  rw [if_neg hdigit] at hdecimal
  cases hdecimal

theorem numberShape_iff {n : PyStr} :
    (numberShape decimal n = true ∧ ∀ c ∈ n, c.code < 128) ↔ NumericIdentifier n := by
  constructor
  · rintro ⟨hshape,hascii⟩
    obtain ⟨hne,hdecimal⟩ := numberShape_decimal hshape
    refine ⟨⟨hne,fun c hc => isDigit_of_isDecimal (hdecimal c hc) (hascii c hc)⟩,fun hhead => ?_⟩
    cases n with
    | nil => cases hhead
    | cons c cs =>
      obtain rfl := Option.some.inj hhead
      rw [numberShape,Bool.or_eq_true,Bool.and_eq_true,Bool.and_eq_true] at hshape
      obtain ⟨_,hnil⟩ | ⟨hpositive,_⟩ := hshape
      · rw [List.isEmpty_iff.mp hnil]
        rfl
      · cases hpositive
  · rintro ⟨⟨hne,hdigits⟩,hzero⟩
    refine ⟨?_,fun c hc => ?_⟩
    · cases n with
      | nil => exact absurd rfl hne
      | cons c cs =>
        rw [numberShape,Bool.or_eq_true,Bool.and_eq_true,Bool.and_eq_true,positiveDigit,Bool.and_eq_true]
        by_cases hc : c = ch '0'
        · have hcs : cs = [] := (List.cons.inj (hzero (congrArg some hc))).2
          exact Or.inl ⟨beq_iff_eq.mpr hc,List.isEmpty_iff.mpr hcs⟩
        · refine Or.inr ⟨⟨hdigits c List.mem_cons_self,bne_iff_ne.mpr hc⟩,List.all_eq_true.mpr fun d hd => ?_⟩
          exact isDecimal_of_isDigit (hdigits d (List.mem_cons_of_mem c hd))
    · have hdigit := hdigits c hc
      rw [isDigit,Bool.and_eq_true,decide_eq_true_eq,decide_eq_true_eq] at hdigit
      omega

theorem identifierChar_piece {p id : PyStr} (hp : ∀ c ∈ p, identifiersChar c = true)
    (hid : id ∈ splitOn (ch '.') p) : ∀ c ∈ id, identifierChar c = true := by
  intro c hc
  have hchar := hp c (subset_of_mem_splitOn hid hc)
  rw [identifiersChar,Bool.or_eq_true] at hchar
  refine hchar.resolve_right fun hdot => sep_not_mem_of_mem_splitOn hid ?_
  rw [← beq_iff_eq.mp hdot]
  exact hc

theorem identifiersChar_dotted {ids : List PyStr} (h : ∀ id ∈ ids, ∀ c ∈ id, identifierChar c = true) :
    ∀ c ∈ dotted ids, identifiersChar c = true := by
  intro c hc
  obtain rfl | ⟨id,hid,hc⟩ := mem_dotted hc
  · decide
  · rw [identifiersChar,h id hid c hc,Bool.true_or]

theorem alphanumeric_of_not_digits {id : PyStr} (hne : id ≠ []) (hchars : ∀ c ∈ id, identifierChar c = true)
    (h : ¬ Digits id) : AlphanumericIdentifier id := by
  refine ⟨hchars,?_⟩
  by_contra hall
  refine h ⟨hne,fun c hc => ?_⟩
  by_contra hdigit
  exact hall ⟨c,hc,Bool.eq_false_iff.mpr hdigit⟩

theorem not_digits_of_alphanumeric {id : PyStr} (h : AlphanumericIdentifier id) : ¬ Digits id := by
  obtain ⟨_,c,hc,hdigit⟩ := h
  exact fun hdigits => Bool.eq_false_iff.mp hdigit (hdigits.2 c hc)

theorem map_dotted_splitOn (o : Option PyStr) : (o.map (splitOn (ch '.'))).map dotted = o := by
  cases o with
  | none => rfl
  | some s => exact congrArg some (dotted_splitOn s)

theorem valid_of_wellSpelled (hshape : g.Shaped decimal) (hspelled : g.WellSpelled) : Valid g.text := by
  have hnumber : ∀ n, numberShape decimal n = true → n ⊆ g.major++g.minor++g.patch → NumericIdentifier n :=
    fun n hn hsub => numberShape_iff.mp ⟨hn,fun c hc => hspelled.ascii c (hsub hc)⟩
  refine ⟨⟨g.major,g.minor,g.patch,g.pre.map (splitOn (ch '.')),g.build.map (splitOn (ch '.'))⟩,?_,?_⟩
  · constructor
    case major =>
      refine hnumber _ hshape.major fun c hc => ?_
      exact List.mem_append_left _ (List.mem_append_left _ hc)
    case minor =>
      refine hnumber _ hshape.minor fun c hc => ?_
      exact List.mem_append_left _ (List.mem_append_right _ hc)
    case patch => exact hnumber _ hshape.patch fun c hc => List.mem_append_right _ hc
    case pre =>
      intro ids hids
      obtain ⟨p,hp,rfl⟩ := Option.map_eq_some_iff.mp hids
      refine ⟨splitOn_ne_nil _ _,fun id hid => ?_⟩
      obtain ⟨hne,hzero⟩ := hspelled.pre p hp id hid
      by_cases hdigits : Digits id
      · exact Or.inr ⟨hdigits,hzero hdigits⟩
      · exact Or.inl (alphanumeric_of_not_digits hne (identifierChar_piece (hshape.pre p hp).2 hid) hdigits)
    case build =>
      intro ids hids
      obtain ⟨p,hp,rfl⟩ := Option.map_eq_some_iff.mp hids
      refine ⟨splitOn_ne_nil _ _,fun id hid => ?_⟩
      have hne := hspelled.build p hp id hid
      by_cases hdigits : Digits id
      · exact Or.inr hdigits
      · exact Or.inl (alphanumeric_of_not_digits hne (identifierChar_piece (hshape.build p hp).2 hid) hdigits)
  · rw [Parts.text,map_dotted_splitOn,map_dotted_splitOn,Groups.text]

theorem wellSpelled_of_valid {s : PyStr} (hvalid : Valid s) :
    ∃ g : Groups, g.Shaped decimal ∧ s = g.text ∧ g.WellSpelled := by
  obtain ⟨p,hp,rfl⟩ := hvalid
  have hmajor := (@numberShape_iff decimal _).mpr hp.major
  have hminor := (@numberShape_iff decimal _).mpr hp.minor
  have hpatch := (@numberShape_iff decimal _).mpr hp.patch
  refine ⟨⟨p.major,p.minor,p.patch,p.pre.map dotted,p.build.map dotted⟩,?_,rfl,?_⟩
  · refine ⟨hmajor.1,hminor.1,hpatch.1,fun q hq => ?_,fun q hq => ?_⟩
    · obtain ⟨ids,hids,rfl⟩ := Option.map_eq_some_iff.mp hq
      obtain ⟨hne,hall⟩ := hp.pre ids hids
      exact ⟨dotted_ne_nil hne fun id hid => (hall id hid).ne_nil,
        identifiersChar_dotted fun id hid => (hall id hid).chars⟩
    · obtain ⟨ids,hids,rfl⟩ := Option.map_eq_some_iff.mp hq
      obtain ⟨hne,hall⟩ := hp.build ids hids
      exact ⟨dotted_ne_nil hne fun id hid => (hall id hid).ne_nil,
        identifiersChar_dotted fun id hid => (hall id hid).chars⟩
  · refine ⟨fun c hc => ?_,fun q hq => ?_,fun q hq => ?_⟩
    · obtain hc | hc := List.mem_append.mp hc
      · exact (List.mem_append.mp hc).elim (hmajor.2 c) (hminor.2 c)
      · exact hpatch.2 c hc
    · obtain ⟨ids,hids,rfl⟩ := Option.map_eq_some_iff.mp hq
      obtain ⟨hne,hall⟩ := hp.pre ids hids
      rw [splitOn_dotted hne fun id hid => dot_not_mem (hall id hid).chars]
      intro id hid
      refine ⟨(hall id hid).ne_nil,fun hdigits => ?_⟩
      exact ((hall id hid).resolve_left fun halpha => not_digits_of_alphanumeric halpha hdigits).2
    · obtain ⟨ids,hids,rfl⟩ := Option.map_eq_some_iff.mp hq
      obtain ⟨hne,hall⟩ := hp.build ids hids
      rw [splitOn_dotted hne fun id hid => dot_not_mem (hall id hid).chars]
      exact fun id hid => (hall id hid).ne_nil

theorem valid_iff (hshape : g.Shaped decimal) : Valid g.text ↔ g.WellSpelled := by
  refine ⟨fun hvalid => ?_,valid_of_wellSpelled hshape⟩
  obtain ⟨h,hh,htext,hspelled⟩ := @wellSpelled_of_valid decimal _ hvalid
  rw [hshape.inj hh htext]
  exact hspelled

def Groups.version (decimal : PyChar → Option ℕ) (g : Groups) : Version :=
  ⟨UnifiedDiff.intOfDigits decimal g.major,UnifiedDiff.intOfDigits decimal g.minor,
    UnifiedDiff.intOfDigits decimal g.patch,g.pre,g.build⟩

theorem pyInt_of_short {n : PyStr} (h : n.length ≤ maxStrDigits) :
    pyInt decimal n = some (UnifiedDiff.intOfDigits decimal n) := if_pos h

theorem parse_of_short {s : PyStr} (hmatch : semverRe decimal (strip s) = some g) (hshort : g.Short) :
    parse decimal s = .ok (g.version decimal) := by
  rw [parse,hmatch]
  dsimp only
  rw [pyInt_of_short (hshort _ (by simp)),pyInt_of_short (hshort _ (by simp)),
    pyInt_of_short (hshort _ (by simp))]
  rfl

theorem parse_of_long {s : PyStr} (hmatch : semverRe decimal (strip s) = some g) (hlong : ¬ g.Short) :
    parse decimal s = .error .tooManyDigits := by
  rw [parse,hmatch]
  dsimp only
  split
  case h_1 major minor patch hmajor hminor hpatch =>
    refine absurd (fun n hn => ?_) hlong
    by_contra hn'
    have hnone : pyInt decimal n = none := if_neg hn'
    simp only [List.mem_cons,List.not_mem_nil,or_false] at hn
    obtain rfl | rfl | rfl := hn
    · rw [hmajor] at hnone
      cases hnone
    · rw [hminor] at hnone
      cases hnone
    · rw [hpatch] at hnone
      cases hnone
  · rfl

theorem parse_eq_ok {s : PyStr} {v : Version} : parse decimal s = .ok v ↔
    ∃ g : Groups, g.Shaped decimal ∧ strip s = g.text ∧ g.Short ∧ v = g.version decimal := by
  constructor
  · intro hparse
    cases hmatch : semverRe decimal (strip s) with
    | none =>
      rw [parse,hmatch] at hparse
      cases hparse
    | some g =>
      obtain ⟨hshape,htext⟩ := semverRe_strip.mp hmatch
      by_cases hshort : g.Short
      · rw [parse_of_short hmatch hshort] at hparse
        cases hparse
        exact ⟨g,hshape,htext,hshort,rfl⟩
      · rw [parse_of_long hmatch hshort] at hparse
        cases hparse
  · rintro ⟨g,hshape,htext,hshort,rfl⟩
    exact parse_of_short (semverRe_strip.mpr ⟨hshape,htext⟩) hshort

theorem digitText_code {c : PyChar} (h : isDigit c = true) : digitText (c.code-48) = c := by
  rw [isDigit,Bool.and_eq_true,decide_eq_true_eq,decide_eq_true_eq] at h
  refine code_inj ?_
  rw [code_digitText _ (by omega)]
  omega

theorem natText_natOf {n : PyStr} (hn : NumericIdentifier n) : natText (natOf n) = n := by
  obtain ⟨⟨hne,hdigits⟩,hzero⟩ := hn
  cases n with
  | nil => exact absurd rfl hne
  | cons c cs =>
    by_cases hc : c = ch '0'
    · rw [hzero (congrArg some hc)]
      rfl
    · have hcodes : ∀ d ∈ c::cs, 48 ≤ d.code ∧ d.code ≤ 57 := fun d hd => by
        have hdigit := hdigits d hd
        rw [isDigit,Bool.and_eq_true,decide_eq_true_eq,decide_eq_true_eq] at hdigit
        exact hdigit
      have hlead : c.code-48 ≠ 0 := fun hlead => hc (code_inj (by
        have hcode := hcodes c List.mem_cons_self
        have hzero : (ch '0').code = 48 := rfl
        omega))
      have hround : Nat.digits 10 (natOf (c::cs)) = ((c::cs).map fun d => d.code-48).reverse := by
        refine Nat.digits_ofDigits 10 (by decide) _ (fun l hl => ?_) fun hnil => ?_
        · obtain ⟨d,hd,rfl⟩ := List.mem_map.mp (List.mem_reverse.mp hl)
          have hcode := hcodes d hd
          omega
        · rw [List.getLast_reverse]
          exact hlead
      have hpos : natOf (c::cs) ≠ 0 := fun hnil => by
        rw [hnil,Nat.digits_zero,List.map_cons,List.reverse_cons] at hround
        exact List.append_ne_nil_of_right_ne_nil _ (List.cons_ne_nil _ _) hround.symm
      rw [natText,if_neg hpos,hround,List.reverse_reverse,List.map_map]
      refine (List.map_congr_left fun d hd => ?_).trans (List.map_id _)
      exact digitText_code (hdigits d hd)

theorem intOfDigits_of_digits {n : PyStr} (hn : ∀ c ∈ n, isDigit c = true) :
    UnifiedDiff.intOfDigits decimal n = natOf n := by
  have hvalues : n.map (fun c => (UnifiedDiff.digitValue decimal c).getD 0) = n.map fun c => c.code-48 := by
    refine List.map_congr_left fun c hc => ?_
    rw [UnifiedDiff.digitValue_digit (hn c hc)]
    rfl
  rw [UnifiedDiff.intOfDigits,hvalues,natOf]

theorem natText_intOfDigits {n : PyStr} (hn : NumericIdentifier n) :
    natText (UnifiedDiff.intOfDigits decimal n) = n := by
  rw [intOfDigits_of_digits hn.1.2,natText_natOf hn]

theorem str_version (hspelled : g.WellSpelled) (hshape : g.Shaped decimal) :
    (g.version decimal).str = g.text := by
  have hnumber : ∀ n, numberShape decimal n = true → n ⊆ g.major++g.minor++g.patch →
      natText (UnifiedDiff.intOfDigits decimal n) = n :=
    fun n hn hsub => natText_intOfDigits (numberShape_iff.mp ⟨hn,fun c hc => hspelled.ascii c (hsub hc)⟩)
  have hmajor := hnumber _ hshape.major fun c hc => List.mem_append_left _ (List.mem_append_left _ hc)
  have hminor := hnumber _ hshape.minor fun c hc => List.mem_append_left _ (List.mem_append_right _ hc)
  have hpatch := hnumber _ hshape.patch fun c hc => List.mem_append_right _ hc
  rw [Version.str,Groups.version,hmajor,hminor,hpatch,Groups.text]

end Accepted

section Order

variable {decimal}

theorem text_lt_iff {a b : PyStr} : a < b ↔ strLe a b = true ∧ a ≠ b := by
  induction a generalizing b with
  | nil =>
    cases b with
    | nil => exact ⟨fun h => absurd h (lt_irrefl _),fun h => absurd rfl h.2⟩
    | cons d b => exact ⟨fun _ => ⟨rfl,(List.cons_ne_nil d b).symm⟩,fun _ => List.nil_lt_cons d b⟩
  | cons c a ih =>
    cases b with
    | nil => exact ⟨fun h => absurd h (List.not_lt_nil _),fun h => nomatch h.1⟩
    | cons d b =>
      rw [List.cons_lt_cons_iff,ih,strLe_cons]
      constructor
      · rintro (hlt | ⟨rfl,hle,hne⟩)
        · exact ⟨Or.inl hlt,fun heq => absurd ((List.cons.inj heq).1 ▸ hlt) (lt_irrefl _)⟩
        · exact ⟨Or.inr ⟨rfl,hle⟩,fun heq => hne (List.cons.inj heq).2⟩
      · rintro ⟨hlt | ⟨hcode,hle⟩,hne⟩
        · exact Or.inl hlt
        · obtain rfl := code_inj hcode
          exact Or.inr ⟨rfl,hle,fun heq => hne (congrArg _ heq)⟩

/-- The key of an identifier, whatever its length. -/
def identifierKey (id : PyStr) : IdentifierKey :=
  if id ≠ [] ∧ id.all isDigit then toLex (0,toLex (natOf id,[])) else toLex (1,toLex (0,id))

theorem identifierKey_number {id : PyStr} (h : Digits id) : identifierKey id = toLex (0,toLex (natOf id,[])) :=
  if_pos ⟨h.1,List.all_eq_true.mpr h.2⟩

theorem identifierKey_text {id : PyStr} (h : ¬ Digits id) : identifierKey id = toLex (1,toLex (0,id)) :=
  if_neg fun hid => h ⟨hid.1,List.all_eq_true.mp hid.2⟩

theorem identifierKey_lt {a b : PyStr} : identifierKey a < identifierKey b ↔ IdentifierLower a b := by
  by_cases ha : Digits a
  · by_cases hb : Digits b
    · rw [identifierKey_number ha,identifierKey_number hb,Prod.Lex.toLex_lt_toLex]
      constructor
      · rintro (h | ⟨_,h⟩)
        · exact absurd h (lt_irrefl _)
        · obtain h | ⟨_,h⟩ := Prod.Lex.toLex_lt_toLex.mp h
          · exact .numbers ha hb h
          · exact absurd h (lt_irrefl _)
      · rintro (⟨_,_,h⟩ | ⟨_,hb'⟩ | ⟨ha',_,_,_⟩)
        · exact Or.inr ⟨rfl,Prod.Lex.toLex_lt_toLex.mpr (Or.inl h)⟩
        · exact absurd hb hb'
        · exact absurd ha ha'
    · rw [identifierKey_number ha,identifierKey_text hb]
      exact ⟨fun _ => .number ha hb,fun _ => Prod.Lex.toLex_lt_toLex.mpr (Or.inl Nat.zero_lt_one)⟩
  · by_cases hb : Digits b
    · rw [identifierKey_text ha,identifierKey_number hb,Prod.Lex.toLex_lt_toLex]
      constructor
      · rintro (h | ⟨h,_⟩)
        · exact absurd h (Nat.not_lt_zero 1)
        · exact absurd h Nat.one_ne_zero
      · rintro (⟨ha',_,_⟩ | ⟨ha',_⟩ | ⟨_,hb',_,_⟩)
        · exact absurd ha' ha
        · exact absurd ha' ha
        · exact absurd hb hb'
    · rw [identifierKey_text ha,identifierKey_text hb,Prod.Lex.toLex_lt_toLex]
      constructor
      · rintro (h | ⟨_,h⟩)
        · exact absurd h (lt_irrefl _)
        · obtain h | ⟨_,h⟩ := Prod.Lex.toLex_lt_toLex.mp h
          · exact absurd h (lt_irrefl _)
          · obtain ⟨hle,hne⟩ := text_lt_iff.mp h
            exact .texts ha hb hle hne
      · rintro (⟨ha',_,_⟩ | ⟨ha',_⟩ | ⟨_,_,hle,hne⟩)
        · exact absurd ha' ha
        · exact absurd ha' ha
        · exact Or.inr ⟨rfl,Prod.Lex.toLex_lt_toLex.mpr (Or.inr ⟨rfl,text_lt_iff.mpr ⟨hle,hne⟩⟩)⟩

theorem identifierKey_eq {a b : PyStr} : identifierKey a = identifierKey b ↔ SameIdentifier a b := by
  constructor
  · intro h
    by_cases ha : Digits a
    · by_cases hb : Digits b
      · rw [identifierKey_number ha,identifierKey_number hb] at h
        exact Or.inr ⟨ha,hb,(Prod.mk.inj (Prod.mk.inj h).2).1⟩
      · rw [identifierKey_number ha,identifierKey_text hb] at h
        exact absurd (Prod.mk.inj h).1 Nat.zero_ne_one
    · by_cases hb : Digits b
      · rw [identifierKey_text ha,identifierKey_number hb] at h
        exact absurd (Prod.mk.inj h).1 Nat.one_ne_zero
      · rw [identifierKey_text ha,identifierKey_text hb] at h
        exact Or.inl (Prod.mk.inj (Prod.mk.inj h).2).2
  · rintro (rfl | ⟨ha,hb,h⟩)
    · rfl
    · rw [identifierKey_number ha,identifierKey_number hb,h]

theorem identifierKeys_lt {as bs : List PyStr} :
    as.map identifierKey < bs.map identifierKey ↔ PreReleaseLower as bs := by
  induction as generalizing bs with
  | nil =>
    cases bs with
    | nil => exact ⟨fun h => absurd h (lt_irrefl _),fun h => nomatch h⟩
    | cons b bs => exact ⟨fun _ => .fewer b bs,fun _ => List.nil_lt_cons _ _⟩
  | cons a as ih =>
    cases bs with
    | nil => exact ⟨fun h => absurd h (List.not_lt_nil _),fun h => nomatch h⟩
    | cons b bs =>
      rw [List.map_cons,List.map_cons,List.cons_lt_cons_iff,identifierKey_lt,identifierKey_eq,ih]
      constructor
      · rintro (h | ⟨hsame,h⟩)
        · exact .first as bs h
        · exact .next hsame h
      · intro h
        cases h with
        | first _ _ h => exact Or.inl h
        | next hsame h => exact Or.inr ⟨hsame,h⟩

/-- The tier of a pre-release and its identifiers. -/
def tierKey (pre : Option (List PyStr)) : ℕ ×ₗ List IdentifierKey :=
  match pre with
  | none => toLex (releaseTier,[])
  | some ids => toLex (preReleaseTier,ids.map identifierKey)

/-- The key of a version, whatever the lengths of its identifiers. -/
def rankKey (r : Rank) : Key := toLex (r.major,toLex (r.minor,toLex (r.patch,tierKey r.pre)))

def Version.rank (v : Version) : Rank := ⟨v.major,v.minor,v.patch,v.pre.map (splitOn (ch '.'))⟩

/-- What decides behind the three numbers. -/
def TierLower (v w : Option (List PyStr)) : Prop :=
  (∃ as, v = some as ∧ w = none) ∨ ∃ as bs, v = some as ∧ w = some bs ∧ PreReleaseLower as bs

theorem lower_iff {v w : Rank} : Lower v w ↔ v.major < w.major ∨ v.major = w.major ∧
    (v.minor < w.minor ∨ v.minor = w.minor ∧
      (v.patch < w.patch ∨ v.patch = w.patch ∧ TierLower v.pre w.pre)) := by
  constructor
  · rintro (h | ⟨hM,h⟩ | ⟨hM,hm,h⟩ | ⟨hM,hm,hp,hv,hw⟩ | ⟨hM,hm,hp,hv,hw,h⟩)
    · exact Or.inl h
    · exact Or.inr ⟨hM,Or.inl h⟩
    · exact Or.inr ⟨hM,Or.inr ⟨hm,Or.inl h⟩⟩
    · exact Or.inr ⟨hM,Or.inr ⟨hm,Or.inr ⟨hp,Or.inl ⟨_,hv,hw⟩⟩⟩⟩
    · exact Or.inr ⟨hM,Or.inr ⟨hm,Or.inr ⟨hp,Or.inr ⟨_,_,hv,hw,h⟩⟩⟩⟩
  · rintro (h | ⟨hM,h | ⟨hm,h | ⟨hp,⟨as,hv,hw⟩ | ⟨as,bs,hv,hw,h⟩⟩⟩⟩)
    · exact .major h
    · exact .minor hM h
    · exact .patch hM hm h
    · exact .release hM hm hp hv hw
    · exact .preRelease hM hm hp hv hw h

theorem tierKey_lt {v w : Option (List PyStr)} : tierKey v < tierKey w ↔ TierLower v w := by
  cases v with
  | none =>
    cases w with
    | none => exact ⟨fun h => absurd h (lt_irrefl _),fun h => by obtain ⟨_,h,_⟩ | ⟨_,_,h,_⟩ := h <;> cases h⟩
    | some bs =>
      refine ⟨fun h => ?_,fun h => by obtain ⟨_,h,_⟩ | ⟨_,_,h,_⟩ := h <;> cases h⟩
      obtain h | ⟨h,_⟩ := Prod.Lex.toLex_lt_toLex.mp h
      · exact absurd h (Nat.not_lt_zero releaseTier)
      · exact absurd h Nat.one_ne_zero
  | some as =>
    cases w with
    | none =>
      exact ⟨fun _ => Or.inl ⟨as,rfl,rfl⟩,fun _ => Prod.Lex.toLex_lt_toLex.mpr (Or.inl Nat.zero_lt_one)⟩
    | some bs =>
      rw [tierKey,tierKey,Prod.Lex.toLex_lt_toLex]
      constructor
      · rintro (h | ⟨_,h⟩)
        · exact absurd h (lt_irrefl _)
        · exact Or.inr ⟨as,bs,rfl,rfl,identifierKeys_lt.mp h⟩
      · rintro (⟨_,_,h⟩ | ⟨as',bs',has,hbs,h⟩)
        · cases h
        · cases has
          cases hbs
          exact Or.inr ⟨rfl,identifierKeys_lt.mpr h⟩

theorem rankKey_lt {v w : Rank} : rankKey v < rankKey w ↔ Lower v w := by
  rw [lower_iff,rankKey,rankKey,Prod.Lex.toLex_lt_toLex,Prod.Lex.toLex_lt_toLex,Prod.Lex.toLex_lt_toLex,
    tierKey_lt]

/-- The numbers among the identifiers are within the digits that `int` takes. -/
def ShortPre (pre : Option PyStr) : Prop :=
  ∀ p ∈ pre, ∀ id ∈ splitOn (ch '.') p, Digits id → id.length ≤ maxStrDigits

theorem preReleaseIdentifierKey_eq {id : PyStr} (h : Digits id → id.length ≤ maxStrDigits) :
    preReleaseIdentifierKey decimal id = some (identifierKey id) := by
  by_cases hid : Digits id
  · rw [identifierKey_number hid,preReleaseIdentifierKey,if_pos ⟨hid.1,List.all_eq_true.mpr hid.2⟩,
      pyInt_of_short (h hid),intOfDigits_of_digits hid.2,Option.map_some]
  · rw [identifierKey_text hid,preReleaseIdentifierKey,if_neg fun h => hid ⟨h.1,List.all_eq_true.mp h.2⟩]

theorem preReleaseIdentifierKey_none {id : PyStr} (hid : Digits id) (h : ¬ id.length ≤ maxStrDigits) :
    preReleaseIdentifierKey decimal id = none := by
  rw [preReleaseIdentifierKey,if_pos ⟨hid.1,List.all_eq_true.mpr hid.2⟩,pyInt,if_neg h,Option.map_none]

theorem identifiers_mapM {ids : List PyStr} (h : ∀ id ∈ ids, Digits id → id.length ≤ maxStrDigits) :
    ids.mapM (preReleaseIdentifierKey decimal) = some (ids.map identifierKey) := by
  induction ids with
  | nil => rfl
  | cons id ids ih =>
    rw [List.mapM_cons,preReleaseIdentifierKey_eq (h id List.mem_cons_self),
      ih fun id hid => h id (List.mem_cons_of_mem _ hid)]
    rfl

theorem identifiers_mapM_none {ids : List PyStr} {id : PyStr} (hmem : id ∈ ids) (hid : Digits id)
    (h : ¬ id.length ≤ maxStrDigits) : ids.mapM (preReleaseIdentifierKey decimal) = none := by
  induction ids with
  | nil => cases hmem
  | cons id' ids ih =>
    rw [List.mapM_cons]
    obtain rfl | hmem := List.mem_cons.mp hmem
    · rw [preReleaseIdentifierKey_none hid h]
      rfl
    · rw [ih hmem]
      cases preReleaseIdentifierKey decimal id' <;> rfl

theorem cmpKey_eq {v : Version} (h : ShortPre v.pre) : cmpKey decimal v = some (rankKey v.rank) := by
  obtain ⟨major,minor,patch,pre,build⟩ := v
  cases pre with
  | none => rfl
  | some p =>
    rw [cmpKey]
    dsimp only
    rw [identifiers_mapM (h p rfl)]
    rfl

theorem cmpKey_none {v : Version} (h : ¬ ShortPre v.pre) : cmpKey decimal v = none := by
  obtain ⟨major,minor,patch,pre,build⟩ := v
  cases pre with
  | none => exact absurd (fun p hp => nomatch hp) h
  | some p =>
    by_contra hkey
    refine h fun q hq id hmem hid => ?_
    cases hq
    by_contra hlong
    refine hkey ?_
    rw [cmpKey]
    dsimp only
    rw [identifiers_mapM_none hmem hid hlong]
    rfl

end Order

section Follows

variable {decimal} {a b s : PyStr}

/-- The texts that are accepted are the versions of the grammar, and are printed as they were. -/
structure Reads (decimal : PyChar → Option ℕ) (s : PyStr) : Prop where
  accepts : (∃ v, parse decimal s = .ok v) ↔ Valid (strip s)
  prints : ∀ v, parse decimal s = .ok v → v.str = strip s

/-- The keys of two accepted versions order them by precedence, and neither of them exceeds the
greater one. -/
structure Orders (decimal : PyChar → Option ℕ) (a b : PyStr) : Prop where
  keys : ∀ v w, parse decimal a = .ok v → parse decimal b = .ok w →
    ∃ ka kb, cmpKey decimal v = some ka ∧ cmpKey decimal w = some kb ∧
      (ka < kb ↔ Lower v.rank w.rank) ∧ (kb < ka ↔ Lower w.rank v.rank)
  max : ∀ v w, parse decimal a = .ok v → parse decimal b = .ok w →
    ∃ m, (m = v ∨ m = w) ∧ semverMax decimal a b = .ok m.str ∧
      ¬ Lower m.rank v.rank ∧ ¬ Lower m.rank w.rank

structure FollowsSemver (decimal : PyChar → Option ℕ) (a b : PyStr) : Prop where
  left : Reads decimal a
  right : Reads decimal b
  orders : Orders decimal a b

/-- A text that the expression matches keeps to the grammar exactly when its numbers are short. -/
def SpelledWhereShort (decimal : PyChar → Option ℕ) (s : PyStr) : Prop :=
  ∀ g : Groups, g.Shaped decimal → strip s = g.text → (g.WellSpelled ↔ g.Short)

/-- The numbers among the identifiers of two accepted texts are short. -/
def ShortIdentifiers (decimal : PyChar → Option ℕ) (a b : PyStr) : Prop :=
  ∀ g h : Groups, g.Shaped decimal → strip a = g.text → g.Short → h.Shaped decimal → strip b = h.text →
    h.Short → ShortPre g.pre ∧ ShortPre h.pre

theorem reads_iff : Reads decimal s ↔ SpelledWhereShort decimal s := by
  constructor
  · intro hreads g hshape htext
    rw [← valid_iff hshape,← htext,← hreads.accepts]
    constructor
    · rintro ⟨v,hv⟩
      obtain ⟨h,hh,htext',hshort,_⟩ := parse_eq_ok.mp hv
      rw [hshape.inj hh (htext.symm.trans htext')]
      exact hshort
    · exact fun hshort => ⟨_,parse_eq_ok.mpr ⟨g,hshape,htext,hshort,rfl⟩⟩
  · intro hspelled
    refine ⟨⟨?_,fun hvalid => ?_⟩,?_⟩
    · rintro ⟨v,hv⟩
      obtain ⟨g,hshape,htext,hshort,_⟩ := parse_eq_ok.mp hv
      rw [htext,valid_iff hshape]
      exact (hspelled g hshape htext).mpr hshort
    · obtain ⟨g,hshape,htext,hwell⟩ := @wellSpelled_of_valid decimal _ hvalid
      exact ⟨_,parse_eq_ok.mpr ⟨g,hshape,htext,(hspelled g hshape htext).mp hwell,rfl⟩⟩
    · intro v hv
      obtain ⟨g,hshape,htext,hshort,rfl⟩ := parse_eq_ok.mp hv
      rw [str_version ((hspelled g hshape htext).mpr hshort) hshape,htext]

theorem semverMax_eq {v w : Version} (hv : parse decimal a = .ok v) (hw : parse decimal b = .ok w)
    (hvpre : ShortPre v.pre) (hwpre : ShortPre w.pre) : semverMax decimal a b =
      .ok (if rankKey w.rank ≤ rankKey v.rank then v else w).str := by
  simp only [semverMax,hv,hw,bind,Except.bind,cmpKey_eq hvpre,cmpKey_eq hwpre]
  rfl

theorem orders_iff : Orders decimal a b ↔ ShortIdentifiers decimal a b := by
  constructor
  · intro horders g h hg hga hgshort hh hhb hhshort
    obtain ⟨ka,kb,hka,hkb,_⟩ := horders.keys _ _ (parse_eq_ok.mpr ⟨g,hg,hga,hgshort,rfl⟩)
      (parse_eq_ok.mpr ⟨h,hh,hhb,hhshort,rfl⟩)
    constructor
    · by_contra hlong
      rw [@cmpKey_none decimal (g.version decimal) hlong] at hka
      cases hka
    · by_contra hlong
      rw [@cmpKey_none decimal (h.version decimal) hlong] at hkb
      cases hkb
  · intro hshort
    have hpre : ∀ v w, parse decimal a = .ok v → parse decimal b = .ok w → ShortPre v.pre ∧ ShortPre w.pre := by
      intro v w hv hw
      obtain ⟨g,hg,hga,hgshort,rfl⟩ := parse_eq_ok.mp hv
      obtain ⟨h,hh,hhb,hhshort,rfl⟩ := parse_eq_ok.mp hw
      exact hshort g h hg hga hgshort hh hhb hhshort
    refine ⟨fun v w hv hw => ?_,fun v w hv hw => ?_⟩
    · obtain ⟨hvpre,hwpre⟩ := hpre v w hv hw
      exact ⟨_,_,cmpKey_eq hvpre,cmpKey_eq hwpre,rankKey_lt,rankKey_lt⟩
    · obtain ⟨hvpre,hwpre⟩ := hpre v w hv hw
      refine ⟨if rankKey w.rank ≤ rankKey v.rank then v else w,?_,semverMax_eq hv hw hvpre hwpre,?_⟩
      · split
        · exact Or.inl rfl
        · exact Or.inr rfl
      · rw [← rankKey_lt,← rankKey_lt]
        split
        case isTrue hle => exact ⟨lt_irrefl _,not_lt_of_ge hle⟩
        case isFalse hgt => exact ⟨not_lt_of_ge (le_of_not_ge hgt),lt_irrefl _⟩

end Follows

/-- Two texts are read and ordered as semver asks exactly when each that has the shape of the
expression keeps to the grammar where its numbers are short, and the numbers among the identifiers
of accepted ones are short. -/
theorem followsSemver_iff (a b : PyStr) : FollowsSemver decimal a b ↔
    SpelledWhereShort decimal a ∧ SpelledWhereShort decimal b ∧ ShortIdentifiers decimal a b := by
  rw [← reads_iff,← reads_iff,← orders_iff]
  exact ⟨fun h => ⟨h.left,h.right,h.orders⟩,fun h => ⟨h.1,h.2.1,h.2.2⟩⟩

/-- The identifier between two dots is empty. -/
theorem empty_identifier_accepted :
    ¬ FollowsSemver (fun _ => none) (lit "1.0.0-a..b") (lit "1.0.0") := by
  intro h
  have hshape : Groups.Shaped (fun _ => none) ⟨lit "1",lit "0",lit "0",some (lit "a..b"),none⟩ := by
    refine ⟨rfl,rfl,rfl,fun p hp => ?_,fun p hp => nomatch hp⟩
    cases hp
    decide
  have htext : strip (lit "1.0.0-a..b") = Groups.text ⟨lit "1",lit "0",lit "0",some (lit "a..b"),none⟩ := by
    decide
  have hvalid := h.left.accepts.mp ⟨_,parse_eq_ok.mpr ⟨_,hshape,htext,(by unfold Groups.Short; decide),rfl⟩⟩
  rw [htext,valid_iff hshape] at hvalid
  exact (hvalid.pre _ rfl [] (by decide)).1 rfl

end MinimaxCode.Versions
