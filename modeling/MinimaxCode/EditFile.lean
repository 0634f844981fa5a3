import MinimaxCode.JsonText
import MinimaxCode.Substrings
import MinimaxCode.TextMode

/-!
# Editing a file

`edit_file` replaces a text that must occur once. It reads and writes in text mode and
counts occurrences that do not overlap, so an edit keeps the rest of a file when its line
breaks are the platform's and the old text occurs once with overlaps counted, and on a
platform with line feeds only then.
-/

namespace MinimaxCode.EditFile

open PyText PyJson TextMode Substrings

/-- What the read target is. -/
inductive OnDisk
  | missing
  | directory
  | unreadable (message : PyStr)
  | file (content : ByteArray)

/-- A resolved path with the file behind it. A write that fails may leave a part of the new
content behind. -/
structure Target where
  path : PyStr
  name : PyStr
  onDisk : OnDisk
  hashable : Bool
  writeFault : Option (PyStr × Option ByteArray)

/-- The platform and the helpers that only speak about the file. -/
structure Host where
  linesep : Linesep
  sha256 : ByteArray → PyStr
  safeResolve : PyStr → Except PyStr Target
  closestHint : PyStr → PyStr → PyStr

/-- The arguments; an absent one is null. -/
structure EditCall where
  path : Json
  oldString : Json
  newString : Json
  replaceAll : Json
  expectedSha256 : Json

structure Report where
  path : PyStr
  replacements : ℕ
  previousSha256 : Option PyStr
  sha256 : PyStr

inductive Outcome
  | failed (message : PyStr) (output : List (PyStr × PyStr))
  | raised
  | edited (report : Report)

/-- What the checks in front of the replacement establish. -/
structure Checked where
  target : Target
  content : ByteArray
  original : PyStr
  old : PyStr
  new : PyStr
  previousSha : Option PyStr

def fail (message : PyStr) : Outcome := .failed message []

/-- `str.lower` as far as a digest can tell. -/
def lower (s : PyStr) : PyStr :=
  s.map fun
    | .scalar c => .scalar c.toLower
    | c => c

/-- The check of `expected_sha256`. -/
def checkExpected (target : Target) (expected : Json) (previousSha : Option PyStr) :
    Option Outcome :=
  match expected with
  | .null => none
  | .str e =>
    if e.length ≠ 64 then some (fail (lit "'expected_sha256' must be a 64-char hex string"))
    else
      match previousSha with
      | none => some (.failed (lit "edit_file blocked: file is no longer readable")
          [(lit "path",target.path),(lit "expected_sha256",e)])
      | some previous =>
        if previous ≠ lower (strip e) then
          some (.failed (lit "edit_file blocked: file changed since your read (sha256 mismatch) — re-read the file and reapply your edit")
            [(lit "path",target.path),(lit "expected_sha256",e),(lit "current_sha256",previous)])
        else none
  | _ => some (fail (lit "'expected_sha256' must be a 64-char hex string"))

/-- The checks on the file. -/
def checkTarget (host : Host) (expected : Json) (target : Target) (old new : PyStr) :
    Except Outcome Checked :=
  match target.onDisk with
  | .missing => .error (fail (lit "file not found: "++target.path))
  | .directory => .error (fail (lit "path is a directory: "++target.path))
  | .unreadable message => .error (fail (lit "read failed: "++message))
  | .file content =>
    match readText content with
    | none => .error (fail (lit "file is not valid UTF-8"))
    | some original =>
      let previousSha := if target.hashable then some (host.sha256 content) else none
      match checkExpected target expected previousSha with
      | some outcome => .error outcome
      | none => .ok ⟨target,content,original,old,new,previousSha⟩

/-- The checks on the arguments, then those on the file. -/
def check (host : Host) (call : EditCall) : Except Outcome Checked :=
  match call.path,call.oldString,call.newString with
  | .str [],_,_ => .error (fail (lit "'path' must be a non-empty string"))
  | .str path,.str old,.str new =>
    if old = new then
      .error (fail (lit "'old_string' and 'new_string' are identical — nothing to do"))
    else
      match host.safeResolve path with
      | .error message => .error (fail message)
      | .ok target => checkTarget host call.expectedSha256 target old new
  | .str _,.str _,_ => .error (fail (lit "'new_string' must be a string"))
  | .str _,_,_ => .error (fail (lit "'old_string' must be a string"))
  | _,_,_ => .error (fail (lit "'path' must be a non-empty string"))

/-- Counts, replaces and writes. The second component is what the write target holds when
it was opened for writing; a text that cannot be encoded leaves it empty. -/
def apply (host : Host) (replaceAll : Bool) (c : Checked) : Outcome × Option ByteArray :=
  let occurrences := count c.old c.original
  if occurrences = 0 then
    let hint := host.closestHint c.original c.old
    (fail (lit "'old_string' not found in "++c.target.name++
      if hint = [] then [] else lit " — "++hint),none)
  else if 1 < occurrences ∧ replaceAll = false then
    (fail (lit "'old_string' matches "++natText occurrences++
      lit " locations; narrow it or pass replace_all=True"),none)
  else
    let updated := if replaceAll then replace c.old c.new c.original
      else replaceFirst c.old c.new c.original
    match c.target.writeFault with
    | some (message,left) => (fail (lit "write failed: "++message),left)
    | none =>
      match writeText host.linesep updated with
      | none => (.raised,some ByteArray.empty)
      | some written =>
        (.edited ⟨c.target.path,if replaceAll then occurrences else 1,c.previousSha,
          host.sha256 written⟩,some written)

/-- `EditFileTool.run`. -/
def editFile (host : Host) (call : EditCall) : Outcome × Option ByteArray :=
  match check host call with
  | .error outcome => (outcome,none)
  | .ok c => apply host (truthy call.replaceAll) c

/-- The old text occurs in the file once, and the file that was written differs from it in
this occurrence only, which is the new text. -/
def Safe (text old new : PyStr) (content written : ByteArray) : Prop :=
  ∃ a b before oldBytes newBytes behind, OnlyBehind old text a ∧ text = a++old++b ∧
    encode a = some before ∧ encode old = some oldBytes ∧ encode new = some newBytes ∧
    encode b = some behind ∧ content = before++oldBytes++behind ∧ written = before++newBytes++behind

/-- The old text occurs once, in the file and in what is read of it, and text mode changes
nothing around it and nothing of the new text. -/
structure Clean (sep : Linesep) (text old new : PyStr) : Prop where
  once : OccursOnce old text
  read : OccursOnce old (translate text)
  around : ∀ a b, text = a++old++b → Native sep a ∧ Native sep b
  new : lineBreaks sep new = new

/-- The edit of one occurrence in the file that a path leads to. -/
structure Edit (host : Host) (call : EditCall) (text old new : PyStr) (content written : ByteArray) :
    Prop where
  oldString : call.oldString = .str old
  newString : call.newString = .str new
  nonempty : old ≠ []
  single : truthy call.replaceAll = false
  file : ∃ path target, call.path = .str path ∧ host.safeResolve path = .ok target ∧
    target.onDisk = .file content
  text : decode content = some text
  edited : ∃ report, editFile host call = (.edited report,some written)

variable {host : Host} {call : EditCall} {text old new : PyStr} {content written : ByteArray}

theorem checkTarget_ok {target : Target} {c : Checked} {expected : Json}
    (hfile : target.onDisk = .file content)
    (h : checkTarget host expected target old new = .ok c) :
    c.target = target ∧ c.old = old ∧ c.new = new ∧ readText content = some c.original := by
  rw [checkTarget,hfile] at h
  cases hread : readText content with
  | none => simp [hread] at h
  | some original =>
    simp only [hread] at h
    split at h
    · cases h
    · cases h
      exact ⟨rfl,rfl,rfl,rfl⟩

theorem check_ok {c : Checked} {path : PyStr} {target : Target} (hpath : call.path = .str path)
    (hold : call.oldString = .str old) (hnew : call.newString = .str new)
    (htarget : host.safeResolve path = .ok target) (hfile : target.onDisk = .file content)
    (h : check host call = .ok c) :
    c.target = target ∧ c.old = old ∧ c.new = new ∧ readText content = some c.original := by
  rw [check,hpath,hold,hnew] at h
  cases path with
  | nil => cases h
  | cons p ps =>
    dsimp only at h
    split at h
    · cases h
    · rw [htarget] at h
      exact checkTarget_ok hfile h

theorem apply_single {c : Checked} {report : Report}
    (h : apply host false c = (.edited report,some written)) : count c.old c.original = 1 ∧
      writeText host.linesep (replaceFirst c.old c.new c.original) = some written := by
  simp only [apply,fail,Bool.false_eq_true,if_false,and_true] at h
  by_cases hnone : count c.old c.original = 0
  · simp [hnone] at h
  · by_cases hmany : 1 < count c.old c.original
    · simp [hnone,hmany] at h
    · rw [if_neg hnone,if_neg hmany] at h
      refine ⟨by omega,?_⟩
      split at h
      · simp at h
      · split at h
        · simp at h
        · next w hw =>
          cases h
          exact hw

theorem Edit.replaced (h : Edit host call text old new content written) :
    count old (translate text) = 1 ∧
      writeText host.linesep (replaceFirst old new (translate text)) = some written := by
  obtain ⟨path,target,hpath,htarget,hfile⟩ := h.file
  obtain ⟨report,hedited⟩ := h.edited
  rw [editFile,h.single] at hedited
  cases hcheck : check host call with
  | error outcome => simp [hcheck] at hedited
  | ok c =>
    obtain ⟨-,rfl,rfl,hread⟩ := check_ok hpath h.oldString h.newString htarget hfile hcheck
    rw [readText,h.text,Option.map_some] at hread
    rw [Option.some.inj hread]
    rw [hcheck] at hedited
    exact apply_single hedited

theorem safe_iff (htext : decode content = some text) : Safe text old new content written ↔
    ∃ a b, OnlyBehind old text a ∧ text = a++old++b ∧ encode (a++new++b) = some written := by
  constructor
  · rintro ⟨a,b,before,oldBytes,newBytes,behind,honly,hsplit,ha,_,hnew,hb,_,rfl⟩
    exact ⟨a,b,honly,hsplit,encode_append_iff.mpr
      ⟨_,_,encode_append_iff.mpr ⟨_,_,ha,hnew,rfl⟩,hb,rfl⟩⟩
  · rintro ⟨a,b,honly,hsplit,hwritten⟩
    have hcontent := decode_eq_some_iff.mp htext
    rw [hsplit] at hcontent
    obtain ⟨_,behind,hfront,hb,rfl⟩ := encode_append_iff.mp hcontent
    obtain ⟨before,oldBytes,ha,hold,rfl⟩ := encode_append_iff.mp hfront
    obtain ⟨_,behind',hfront',hb',rfl⟩ := encode_append_iff.mp hwritten
    obtain ⟨before',newBytes,ha',hnew,rfl⟩ := encode_append_iff.mp hfront'
    obtain rfl := Option.some.inj (ha.symm.trans ha')
    obtain rfl := Option.some.inj (hb.symm.trans hb')
    exact ⟨a,b,before,oldBytes,newBytes,behind,honly,hsplit,ha,hold,hnew,hb,rfl,rfl⟩

theorem Edit.cr_not_mem (h : Edit host call text old new content written) : ch '\r' ∉ old := by
  have hcount : count old (translate text) ≠ 0 := by
    rw [h.replaced.1]
    exact Nat.one_ne_zero
  obtain ⟨a,b,hread,_⟩ := replaceFirst_of_count h.nonempty hcount
  intro hcr
  refine cr_not_mem_translate text ?_
  rw [hread]
  simp [hcr]

theorem Edit.safe_of_clean (h : Edit host call text old new content written)
    (hclean : Clean host.linesep text old new) : Safe text old new content written := by
  obtain ⟨a,⟨b,hsplit⟩,honly⟩ := hclean.once
  obtain ⟨ha,hb⟩ := hclean.around a b hsplit
  have hfront : translate (a++old) = translate a++old := by
    rw [translate_append fun hsplit => ha.getLast?_ne hsplit.1,translate_of_not_mem h.cr_not_mem]
  have hbehind : translate text = translate a++old++translate b := by
    rw [hsplit,translate_append,hfront]
    rintro ⟨hlast,_⟩
    rw [List.getLast?_append_of_ne_nil _ h.nonempty] at hlast
    exact h.cr_not_mem (List.mem_of_getLast? hlast)
  have honlyRead : ∀ a' b', translate text = a'++old++b' → a' = translate a := by
    obtain ⟨a₀,_,honly₀⟩ := hclean.read
    intro a' b' hsplit'
    rw [honly₀ a' b' hsplit',honly₀ _ _ hbehind]
  obtain ⟨hcount,hwritten⟩ := h.replaced
  rw [replaceFirst_only h.nonempty (by omega) hbehind honlyRead,writeText,lineBreaks_append,
    lineBreaks_append,hclean.new,ha,hb] at hwritten
  exact (safe_iff h.text).mpr ⟨a,b,⟨⟨b,hsplit⟩,honly⟩,hsplit,hwritten⟩

theorem Edit.plain_of_safe (h : Edit host call text old new content written)
    (hlf : host.linesep = .lf) (hsafe : Safe text old new content written) :
    ch '\r' ∉ text ∧ OccursOnce old text := by
  obtain ⟨a,b,honly,hsplit,hwritten⟩ := (safe_iff h.text).mp hsafe
  obtain ⟨hcount,hreplaced⟩ := h.replaced
  obtain ⟨a',b',hread,hreplace⟩ := replaceFirst_of_count h.nonempty (hcount ▸ Nat.one_ne_zero)
  rw [writeText,hlf,lineBreaks_lf,hreplace] at hreplaced
  have hsame := congrArg (List.count (ch '\r')) (encode_inj hwritten hreplaced)
  have hnone : (translate text).count (ch '\r') = 0 :=
    List.count_eq_zero.mpr (cr_not_mem_translate text)
  have hold := List.count_eq_zero.mpr h.cr_not_mem
  rw [hread] at hnone
  simp only [List.count_append] at hsame hnone
  refine ⟨?_,a,honly⟩
  rw [hsplit,← List.count_eq_zero]
  simp only [List.count_append]
  omega

theorem clean_of_plain (hcr : ch '\r' ∉ text) (honce : OccursOnce old text) : Clean .lf text old new where
  once := honce
  read := by rwa [translate_of_not_mem hcr]
  around := by
    rintro a b rfl
    simp only [List.mem_append,not_or] at hcr
    exact ⟨native_lf.mpr hcr.1.1,native_lf.mpr hcr.2⟩
  new := lineBreaks_lf new

/-- An edit that text mode leaves alone is safe. On a platform with line feeds an edit is
safe exactly when the file has no carriage return and the old text occurs once. -/
theorem edit_safe (h : Edit host call text old new content written) :
    (Clean host.linesep text old new → Safe text old new content written) ∧
      (host.linesep = .lf →
        (Safe text old new content written ↔ ch '\r' ∉ text ∧ OccursOnce old text)) := by
  refine ⟨h.safe_of_clean,fun hlf => ⟨h.plain_of_safe hlf,fun hplain => h.safe_of_clean ?_⟩⟩
  rw [hlf]
  exact clean_of_plain hplain.1 hplain.2

/-- A platform with line feeds and one file. -/
def plainHost (content : ByteArray) : Host where
  linesep := .lf
  sha256 _ := []
  safeResolve path := .ok ⟨path,path,.file content,true,none⟩
  closestHint _ _ := []

def plainCall (old new : PyStr) : EditCall := ⟨.str (lit "f"),.str old,.str new,.bool false,.null⟩

theorem edit_plain (text old new written : String) (hold : lit old ≠ []) (hnew : lit old ≠ lit new)
    (hcount : count (lit old) (translate (lit text)) = 1)
    (hwritten : replaceFirst (lit old) (lit new) (translate (lit text)) = lit written) :
    Edit (plainHost text.toByteArray) (plainCall (lit old) (lit new)) (lit text) (lit old) (lit new)
      text.toByteArray written.toByteArray := by
  have htext := decode_lit text
  refine ⟨rfl,rfl,hold,rfl,⟨lit "f",_,rfl,rfl,rfl⟩,htext,?_⟩
  have hread : readText text.toByteArray = some (translate (lit text)) := by rw [readText,htext]; rfl
  have hcheck : check (plainHost text.toByteArray) (plainCall (lit old) (lit new)) =
      .ok ⟨⟨lit "f",lit "f",.file text.toByteArray,true,none⟩,text.toByteArray,
        translate (lit text),lit old,lit new,some []⟩ := by
    have hf : lit "f" = [ch 'f'] := rfl
    simp [check,plainCall,plainHost,hnew,checkTarget,hread,checkExpected,hf]
  have hwrite : writeText .lf (lit written) = some written.toByteArray := by
    rw [writeText,lineBreaks_lf,encode_lit]
  rw [editFile,hcheck]
  refine ⟨⟨lit "f",1,some [],[]⟩,?_⟩
  simp [apply,plainCall,truthy,hcount,hwritten,hwrite,plainHost]

theorem edit_safe_plain :
    Safe (lit "ab") (lit "a") (lit "c") "ab".toByteArray "cb".toByteArray := by
  have hedit := edit_plain "ab" "a" "c" "cb" (by decide) (by decide) (by decide) (by decide)
  refine ((edit_safe hedit).2 rfl).mpr ⟨by decide,[],⟨lit "b",rfl⟩,?_⟩
  intro a' b' h
  cases a' with
  | nil => rfl
  | cons c cs =>
    have hrest : lit "b" = cs++(lit "a"++b') := by
      rw [← List.append_assoc]
      exact (List.cons.inj h).2
    have hmem : ch 'a' ∈ lit "b" := by
      rw [hrest]
      exact List.mem_append_right _ List.mem_cons_self
    exact absurd hmem (by decide)

/-- An edit of one letter takes the carriage return out of a file with CRLF, and of two
occurrences that overlap the first one is replaced. -/
theorem edit_not_safe :
    (∃ host call, Edit host call (lit "a\r\nb") (lit "a") (lit "c") "a\r\nb".toByteArray
        "c\nb".toByteArray ∧
      ¬ Safe (lit "a\r\nb") (lit "a") (lit "c") "a\r\nb".toByteArray "c\nb".toByteArray) ∧
    ∃ host call, Edit host call (lit "aaa") (lit "aa") (lit "b") "aaa".toByteArray "ba".toByteArray ∧
      ¬ Safe (lit "aaa") (lit "aa") (lit "b") "aaa".toByteArray "ba".toByteArray := by
  refine ⟨⟨_,_,edit_plain "a\r\nb" "a" "c" "c\nb" (by decide) (by decide) (by decide) (by decide),?_⟩,
    _,_,edit_plain "aaa" "aa" "b" "ba" (by decide) (by decide) (by decide) (by decide),?_⟩
  · intro hsafe
    have hedit := edit_plain "a\r\nb" "a" "c" "c\nb" (by decide) (by decide) (by decide) (by decide)
    have hcr := (hedit.plain_of_safe rfl hsafe).1
    revert hcr
    decide
  · rintro ⟨a,_,_,_,_,_,⟨-,honly⟩,-⟩
    have hfirst := honly [] (lit "a") rfl
    have hsecond := honly (lit "a") [] rfl
    rw [← hfirst] at hsecond
    cases hsecond

end MinimaxCode.EditFile
