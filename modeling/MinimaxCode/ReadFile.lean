import MinimaxCode.EditFile
import MinimaxCode.OverlaySearch
import MinimaxCode.SplitLines

/-!
# Reading a file

`read_file` cuts the bytes of a file before it decodes them, counts lines by line feeds
and selects them by `str.splitlines`. Its slices are faithful when the cut falls between
two characters, the line breaks are line feeds, and none ends the file.
-/

namespace MinimaxCode.ReadFile

open PyText PyJson TextMode SplitLines

/-- A resolved path, where the overlay of a sandbox reads it from, and what is there. -/
structure Target where
  path : PyStr
  readTarget : PyStr
  onDisk : EditFile.OnDisk

structure Host where
  sha256 : ByteArray → PyStr
  safeResolve : PyStr → Except PyStr Target

/-- The arguments; an absent or null number is `none`. -/
structure ReadCall where
  path : Json
  maxBytes : Option ℤ
  startLine : Option ℤ
  endLine : Option ℤ

structure Report where
  path : PyStr
  content : PyStr
  truncated : Bool
  sha256 : Option PyStr
  sandboxPath : Option PyStr
  totalLines : ℕ
  returnedBytes : ℕ

inductive Outcome
  | failed (message : PyStr)
  | raised
  | read (report : Report)

/-- `int(x or default)`. -/
def intOr (x : Option ℤ) (default : ℤ) : ℤ :=
  match x with
  | none => default
  | some n => if n = 0 then default else n

/-- Where a slice `[:e]` of a sequence ends. -/
def sliceEnd (length : ℕ) (e : ℤ) : ℕ := if 0 ≤ e then e.toNat else length-e.natAbs

/-- `fh.read(n)`, which takes -1 for everything and no smaller number. -/
def fhRead (content : ByteArray) (n : ℤ) : Option ByteArray :=
  if n = -1 then some content else if n < 0 then none else some (content.extract 0 n.toNat)

/-- The bytes that are kept, and whether there were more. -/
def fetch (content : ByteArray) (maxBytes : ℤ) : Option (ByteArray × Bool) :=
  (fhRead content (maxBytes+1)).map fun data =>
    if maxBytes < data.size then (data.extract 0 (sliceEnd data.size maxBytes),true) else (data,false)

def hasNul (data : ByteArray) : Bool := (data.extract 0 8192).data.toList.contains 0

def decodeText (data : ByteArray) : PyStr := (decode data).getD (OverlaySearch.decodeLatin1 data)

def totalLines (text : PyStr) : ℕ :=
  text.count (ch '\n')+if text ≠ [] ∧ text.getLast? ≠ some (ch '\n') then 1 else 0

/-- The lines from `start_line` to `end_line`. -/
def selectLines (text : PyStr) (startLine endLine : Option ℤ) : Except PyStr PyStr :=
  if startLine = none ∧ endLine = none then .ok text
  else
    let lines := splitlines text
    let s := max 1 (intOr startLine 1)
    let e := min (lines.length : ℤ) (intOr endLine lines.length)
    if lines.length < s then
      .error (lit "start_line "++natText s.toNat++lit " beyond file length ("++
        natText lines.length++lit " lines)")
    else
      let selected := (lines.take (sliceEnd lines.length e)).drop (s-1).toNat
      .ok ([ch '\n'].intercalate selected++if selected ≠ [] ∧ e < lines.length then [ch '\n'] else [])

def report (host : Host) (target : Target) (data : ByteArray) (truncated : Bool) (selected : PyStr)
    (bytes : ByteArray) : Report where
  path := target.path
  content := selected
  truncated := truncated
  sha256 := if truncated then none else some (host.sha256 data)
  sandboxPath := if target.readTarget ≠ target.path then some target.readTarget else none
  totalLines := totalLines (decodeText data)
  returnedBytes := bytes.size

/-- The part of `run` behind the checks on the target. -/
def readContent (host : Host) (target : Target) (call : ReadCall) (content : ByteArray) : Outcome :=
  match fetch content (intOr call.maxBytes 1048576) with
  | none => .raised
  | some (data,truncated) =>
    if hasNul data then .failed (lit "binary file detected (NUL byte) — refusing to read")
    else
      match selectLines (decodeText data) call.startLine call.endLine with
      | .error message => .failed message
      | .ok selected =>
        match encode selected with
        | none => .raised
        | some bytes => .read (report host target data truncated selected bytes)

def run (host : Host) (call : ReadCall) : Outcome :=
  match call.path with
  | .str [] => .failed (lit "'path' must be a non-empty string")
  | .str path =>
    match host.safeResolve path with
    | .error message => .failed message
    | .ok target =>
      match target.onDisk with
      | .missing => .failed (lit "file not found: "++target.path)
      | .directory => .failed (lit "path is a directory, not a file: "++target.path)
      | .unreadable message => .failed (lit "read failed: "++message)
      | .file content => readContent host target call content
  | _ => .failed (lit "'path' must be a non-empty string")

example : selectLines (lit "a\nb\n") (some 2) (some 2) = .ok (lit "b") := by decide

def Outcome.content? : Outcome → Option PyStr
  | .read report => some report.content
  | _ => none

/-- The ranges follow one another from the first line to the last. -/
def Consecutive (first last : ℕ) : List (ℕ × ℕ) → Prop
  | [] => first = last+1
  | (s,e)::ranges => s = first ∧ s ≤ e ∧ e ≤ last ∧ Consecutive (e+1) last ranges

/-- The reads of a file that is covered by `cap` bytes: one of at most `maxBytes`, and one for
each of the ranges. -/
structure Faithful (host : Host) (path : PyStr) (content : ByteArray) (maxBytes : Option ℤ) (cap : ℤ)
    (ranges : List (ℕ × ℕ)) : Prop where
  cut_prefix : ∀ cut full, run host ⟨.str path,maxBytes,none,none⟩ = .read cut →
    cut.truncated = true → run host ⟨.str path,some cap,none,none⟩ = .read full →
    cut.content <+: full.content
  slices : (ranges.mapM fun r => (run host ⟨.str path,some cap,some r.1,some r.2⟩).content?).map
    List.flatten = (run host ⟨.str path,some cap,none,none⟩).content?
  lines : ∀ full, run host ⟨.str path,some cap,none,none⟩ = .read full → ∀ n : ℕ, 1 ≤ n →
    ((run host ⟨.str path,some cap,some n,some n⟩).content?.isSome = true ↔ n ≤ full.totalLines)
  digest : ∀ call report, call.path = .str path → run host call = .read report →
    report.sha256 = none ∨ report.sha256 = some (host.sha256 content)

theorem totalLines_cons {c : PyChar} {cs : PyStr} (h : c = ch '\n' ∨ cs ≠ []) :
    totalLines (c::cs) = totalLines cs+if c = ch '\n' then 1 else 0 := by
  cases cs with
  | nil => simp_all [totalLines]
  | cons d ds =>
    simp only [totalLines,List.count_cons,beq_iff_eq,ne_eq,reduceCtorEq,not_false_eq_true,true_and,
      List.getLast?_cons_cons]
    omega

theorem totalLines_single {c : PyChar} (h : c ≠ ch '\n') : totalLines [c] = 1 := by
  simp [totalLines,h]

theorem totalLines_le (text : PyStr) : totalLines text ≤ (splitlines text).length := by
  rw [length_splitlines]
  induction text with
  | nil => exact Nat.le_refl 0
  | cons c cs ih =>
    by_cases hc : c = ch '\n'
    · subst hc
      rw [totalLines_cons (Or.inl rfl),splitlinesKeep_ends rfl,List.length_cons,if_pos rfl]
      exact Nat.succ_le_succ ih
    · have hglue : (splitlinesKeep cs).length ≤ (splitlinesKeep (c::cs)).length ∧
          1 ≤ (splitlinesKeep (c::cs)).length := by
        rw [splitlinesKeep]
        split
        · simp
        · cases splitlinesKeep cs <;> simp [glue]
      by_cases hcs : cs = []
      · subst hcs
        rw [totalLines_single hc]
        exact hglue.2
      · rw [totalLines_cons (Or.inr hcs),if_neg hc]
        exact ih.trans hglue.1

theorem totalLines_of_lfOnly {text : PyStr} (h : LfOnly text) :
    totalLines text = (splitlines text).length := by
  induction text with
  | nil => rfl
  | cons c cs ih =>
    have ih := ih h.tail
    cases hc : isLineBreak c with
    | true =>
      obtain rfl := h c List.mem_cons_self hc
      rw [totalLines_cons (Or.inl rfl),splitlines_lf,List.length_cons,ih,if_pos rfl]
    | false =>
      have hne : c ≠ ch '\n' := by
        rintro rfl
        exact absurd hc (by decide)
      rw [splitlines_glue hc]
      by_cases hcs : cs = []
      · subst hcs
        exact totalLines_single hne
      · rw [totalLines_cons (Or.inr hcs),if_neg hne,ih]
        cases hlines : splitlines cs with
        | nil => exact absurd hlines (splitlines_ne_nil hcs)
        | cons line lines => rfl

theorem totalLines_eq_zero {text : PyStr} (h : totalLines text = 0) : text = [] := by
  by_contra hne
  rw [totalLines,Nat.add_eq_zero_iff,List.count_eq_zero] at h
  have hlast : text.getLast? = some (ch '\n') := by
    by_contra hlast
    simp [hne,hlast] at h
  exact h.1 (List.mem_of_getLast? hlast)

/-- What the reads of the lines from `a` to `t` return together. -/
def between (lines : List PyStr) (a t : ℕ) : PyStr :=
  if t < lines.length then unlines ((lines.take t).drop a) else [ch '\n'].intercalate (lines.drop a)

theorem selectLines_range {text : PyStr} {s e : ℕ} (hs : 1 ≤ s) (hse : s ≤ e)
    (he : e ≤ (splitlines text).length) :
    selectLines text (some s) (some e) = .ok (between (splitlines text) (s-1) e) := by
  have hstart : max 1 (intOr (some (s : ℤ)) 1) = s := by
    rw [intOr,if_neg (by omega)]
    omega
  have hend : min ((splitlines text).length : ℤ) (intOr (some (e : ℤ)) (splitlines text).length) = e := by
    rw [intOr,if_neg (by omega)]
    omega
  have hpred : ((s : ℤ)-1).toNat = s-1 := by omega
  have hslice : sliceEnd (splitlines text).length (e : ℤ) = e := by
    rw [sliceEnd,if_pos (by omega)]
    omega
  have hne : ((splitlines text).take e).drop (s-1) ≠ [] := by
    rw [← List.length_pos_iff,List.length_drop,List.length_take]
    omega
  rw [selectLines,if_neg (by simp)]
  simp only [hstart,hend,hpred,hslice]
  rw [if_neg (by omega),between]
  by_cases hlt : e < (splitlines text).length
  · rw [if_pos ⟨hne,by omega⟩,if_pos hlt,intercalate_lf hne]
  · have htake : (splitlines text).take e = splitlines text := List.take_of_length_le (by omega)
    rw [if_neg (by omega),if_neg hlt,htake,List.append_nil]

theorem between_join {lines : List PyStr} {a e t : ℕ} (hae : a ≤ e) (het : e < t)
    (ht : t ≤ lines.length) : between lines a e++between lines e t = between lines a t := by
  have he : e < lines.length := by omega
  rw [between,if_pos he,between,between]
  split
  · rw [← unlines_append]
    congr 1
    have hsplit : (lines.take t).drop a = ((lines.take t).take e).drop a++(lines.take t).drop e := by
      rw [← List.drop_append_of_le_length,List.take_append_drop]
      rw [List.length_take,List.length_take]
      omega
    rw [hsplit,List.take_take,min_eq_left (by omega)]
  · have hdrop : lines.drop e ≠ [] := by
      rw [← List.length_pos_iff,List.length_drop]
      omega
    have hsplit : lines.drop a = (lines.take e).drop a++lines.drop e := by
      rw [← List.drop_append_of_le_length,List.take_append_drop]
      rw [List.length_take]
      omega
    have hcancel : ∀ u v : PyStr, u++[ch '\n'] = v++[ch '\n'] → u = v := fun u v =>
      List.append_cancel_right
    have hne : (lines.take e).drop a++lines.drop e ≠ [] := by simp [hdrop]
    rw [hsplit]
    apply hcancel
    rw [List.append_assoc,intercalate_lf hdrop,intercalate_lf hne,unlines_append]

section Reads

variable {host : Host} {path : PyStr} {target : Target} {content : ByteArray} {text : PyStr}

theorem run_file (hpath : path ≠ []) (hresolve : host.safeResolve path = .ok target)
    (hdisk : target.onDisk = .file content) (maxBytes startLine endLine : Option ℤ) :
    run host ⟨.str path,maxBytes,startLine,endLine⟩ =
      readContent host target ⟨.str path,maxBytes,startLine,endLine⟩ content := by
  cases path with
  | nil => exact absurd rfl hpath
  | cons c cs => simp only [run,hresolve,hdisk]

theorem extract_of_size_le {k : ℕ} (h : content.size ≤ k) : content.extract 0 k = content := by
  have hmax := @ByteArray.extract_zero_max_size content k
  rwa [max_eq_left h] at hmax

theorem fhRead_spec {n : ℤ} {data : ByteArray} (h : fhRead content n = some data) :
    (∃ k, data = content.extract 0 k) ∧ (n ≤ data.size ∨ data = content) := by
  rw [fhRead] at h
  split at h
  · cases h
    exact ⟨⟨content.size,ByteArray.extract_zero_size.symm⟩,Or.inr rfl⟩
  · split at h
    · cases h
    · cases h
      refine ⟨⟨n.toNat,rfl⟩,?_⟩
      by_cases hle : n.toNat ≤ content.size
      · left
        rw [ByteArray.size_extract,min_eq_left hle]
        omega
      · exact Or.inr (extract_of_size_le (by omega))

theorem fetch_spec {maxBytes : ℤ} {data : ByteArray} {truncated : Bool}
    (h : fetch content maxBytes = some (data,truncated)) :
    (∃ k ≤ content.size, data = content.extract 0 k) ∧ (truncated = false → data = content) := by
  obtain ⟨read,hread,hdata⟩ := Option.map_eq_some_iff.mp h
  obtain ⟨⟨k,hk⟩,hall⟩ := fhRead_spec hread
  have hsub : ∀ j, ∃ k ≤ content.size, content.extract 0 j = content.extract 0 k := by
    intro j
    by_cases hj : j ≤ content.size
    · exact ⟨j,hj,rfl⟩
    · exact ⟨content.size,Nat.le_refl _,by
        rw [extract_of_size_le (by omega),ByteArray.extract_zero_size]⟩
  split at hdata
  · obtain ⟨rfl,rfl⟩ := Prod.mk.inj hdata
    refine ⟨?_,nofun⟩
    rw [hk,ByteArray.extract_extract]
    simpa using hsub _
  · next hlt =>
    obtain ⟨rfl,rfl⟩ := Prod.mk.inj hdata
    refine ⟨hk ▸ hsub k,fun _ => hall.resolve_left ?_⟩
    omega

theorem hasNul_extract (hnul : (0 : UInt8) ∉ content.data.toList) (k : ℕ) :
    hasNul (content.extract 0 k) = false := by
  rw [hasNul,ByteArray.data_extract,ByteArray.data_extract,List.contains_eq_mem,decide_eq_false_iff_not,
    Array.mem_toList_iff]
  intro hmem
  obtain ⟨i,hi,heq⟩ := Array.mem_extract_iff_getElem.mp hmem
  obtain ⟨j,hj,heq'⟩ := Array.mem_extract_iff_getElem.mp (heq ▸ Array.getElem_mem _)
  exact hnul (Array.mem_toList_iff.mpr (heq' ▸ Array.getElem_mem _))

theorem encodes_decodeLatin1 (data : ByteArray) : encodes (OverlaySearch.decodeLatin1 data) = true := by
  rw [encodes,List.all_eq_true,OverlaySearch.decodeLatin1]
  intro c hc
  obtain ⟨b,-,rfl⟩ := List.mem_map.mp hc
  rfl

theorem encodes_decodeText (data : ByteArray) : encodes (decodeText data) = true := by
  rw [decodeText]
  cases hdecode : decode data with
  | none => exact encodes_decodeLatin1 data
  | some t => exact encodes_of_decode hdecode

theorem encodes_between {text : PyStr} (h : encodes text = true) (a t : ℕ) :
    encodes (between (splitlines text) a t) = true := by
  have hlines : ∀ ls : List PyStr, ls ⊆ splitlines text → encodes (unlines ls) = true :=
    fun ls hls => encodes_unlines fun line hline => encodes_of_mem_splitlines h (hls hline)
  rw [between]
  split
  · exact hlines _ fun _ hl => List.take_subset _ _ (List.drop_subset _ _ hl)
  · by_cases hnil : (splitlines text).drop a = []
    · rw [hnil]
      rfl
    · have hall := hlines _ (List.drop_subset a (splitlines text))
      rw [← intercalate_lf hnil,encodes_append] at hall
      exact (Bool.and_eq_true_iff.mp hall).1

theorem readContent_read {maxBytes startLine endLine : Option ℤ} {data : ByteArray} {truncated : Bool}
    {selected : PyStr} (hnul : (0 : UInt8) ∉ content.data.toList)
    (hfetch : fetch content (intOr maxBytes 1048576) = some (data,truncated))
    (hselect : selectLines (decodeText data) startLine endLine = .ok selected)
    (hencodes : encodes selected = true) :
    ∃ bytes, readContent host target ⟨.str path,maxBytes,startLine,endLine⟩ content =
      .read (report host target data truncated selected bytes) := by
  obtain ⟨⟨k,-,rfl⟩,-⟩ := fetch_spec hfetch
  obtain ⟨bytes,hbytes⟩ := encode_of_encodes hencodes
  refine ⟨bytes,?_⟩
  simp [readContent,hfetch,hasNul_extract hnul,hselect,hbytes]

theorem readContent_inv {call : ReadCall} {r : Report}
    (h : readContent host target call content = .read r) : ∃ data truncated selected bytes,
      fetch content (intOr call.maxBytes 1048576) = some (data,truncated) ∧
      selectLines (decodeText data) call.startLine call.endLine = .ok selected ∧
      r = report host target data truncated selected bytes := by
  rw [readContent] at h
  split at h
  · cases h
  · next data truncated hfetch =>
    split at h
    · cases h
    · split at h
      · cases h
      · next selected hselect =>
        split at h
        · cases h
        · next bytes hbytes =>
          cases h
          exact ⟨data,truncated,selected,bytes,hfetch,hselect,rfl⟩

theorem readContent_digest {call : ReadCall} {r : Report}
    (h : readContent host target call content = .read r) :
    r.sha256 = none ∨ r.sha256 = some (host.sha256 content) := by
  obtain ⟨data,truncated,selected,bytes,hfetch,-,rfl⟩ := readContent_inv h
  cases truncated with
  | true => exact Or.inl rfl
  | false =>
    obtain rfl := (fetch_spec hfetch).2 rfl
    exact Or.inr rfl

theorem fetch_full {cap : ℤ} (h : content.size ≤ cap) : fetch content cap = some (content,false) := by
  have hread : fhRead content (cap+1) = some content := by
    rw [fhRead,if_neg (by omega),if_neg (by omega),extract_of_size_le (by omega)]
  rw [fetch,hread,Option.map_some,if_neg (by omega)]

end Reads

/-- The first bytes end between two characters, or the text begins with the characters whose
code points these bytes are. -/
def CutClean (content : ByteArray) (text : PyStr) (maxBytes : Option ℤ) : Prop :=
  ∀ data, fetch content (intOr maxBytes 1048576) = some (data,true) →
    (decode data).isSome = true ∨ OverlaySearch.decodeLatin1 data <+: text

section Faithful

variable {host : Host} {path : PyStr} {target : Target} {content : ByteArray} {text : PyStr}
  {maxBytes : Option ℤ} {cap : ℤ} {ranges : List (ℕ × ℕ)}

theorem slices_of_consecutive {f : ℕ × ℕ → Option PyStr} {lines : List PyStr} {a t : ℕ}
    (ht : t ≤ lines.length) (hf : ∀ s e, 1 ≤ s → s ≤ e → e ≤ t → f (s,e) = some (between lines (s-1) e))
    (h : Consecutive (a+1) t ranges) :
    (ranges.mapM f).map List.flatten = some (if a = t then [] else between lines a t) := by
  induction ranges generalizing a with
  | nil =>
    rw [Consecutive] at h
    rw [if_pos (by omega)]
    rfl
  | cons r ranges ih =>
    obtain ⟨s,e⟩ := r
    obtain ⟨rfl,hse,het,hrest⟩ := h
    have ih := ih hrest
    obtain ⟨contents,hcontents,hflatten⟩ := Option.map_eq_some_iff.mp ih
    rw [List.mapM_cons,hf (a+1) e (by omega) hse het,hcontents]
    change some (between lines a e++contents.flatten) = _
    have hat : a ≠ t := by omega
    rw [hflatten,if_neg hat]
    split
    · next heq => rw [heq,List.append_nil]
    · rw [between_join (by omega) (by omega) ht]

theorem between_eq_text_iff (h : text ≠ []) : between (splitlines text) 0 (totalLines text) = text ↔
    LfOnly text ∧ text.getLast? ≠ some (ch '\n') := by
  have hne := splitlines_ne_nil h
  have hle := totalLines_le text
  have hunbroken : ∀ line ∈ splitlines text, Unbroken line := fun _ => unbroken_of_mem_splitlines
  constructor
  · intro heq
    rw [between] at heq
    split at heq
    · next hlt =>
      have hlines := @splitlines_unlines ((splitlines text).take (totalLines text)) fun line hline =>
        hunbroken line (List.take_subset _ _ hline)
      rw [List.drop_zero] at heq
      rw [heq] at hlines
      have hlength := congrArg List.length hlines
      rw [List.length_take,min_eq_left hle] at hlength
      omega
    · rw [List.drop_zero] at heq
      have hunlines := intercalate_lf hne
      rw [heq] at hunlines
      have hlf : LfOnly text := by
        intro c hc hbreak
        have hmem : c ∈ unlines (splitlines text) := hunlines ▸ List.mem_append_left _ hc
        obtain ⟨line,hline,hc⟩ := List.mem_flatMap.mp hmem
        rcases List.mem_append.mp hc with hc | hc
        · rw [hunbroken line hline c hc] at hbreak
          cases hbreak
        · exact List.mem_singleton.mp hc
      refine ⟨hlf,fun hlast => ?_⟩
      rw [unlines_splitlines hlf,missingLf,if_pos (Or.inr hlast)] at hunlines
      simp at hunlines
  · rintro ⟨hlf,hlast⟩
    rw [between,totalLines_of_lfOnly hlf,if_neg (by omega),List.drop_zero]
    apply @List.append_cancel_right _ _ [ch '\n']
    rw [intercalate_lf hne,unlines_splitlines hlf,missingLf,if_neg (by simp [h,hlast])]

theorem selectLines_addresses {n : ℕ} (hn : 1 ≤ n) :
    (∃ selected, selectLines text (some n) (some n) = .ok selected) ↔ n ≤ (splitlines text).length := by
  constructor
  · rintro ⟨selected,h⟩
    by_contra hlt
    have hstart : max 1 (intOr (some (n : ℤ)) 1) = n := by
      rw [intOr,if_neg (by omega)]
      omega
    rw [selectLines,if_neg (by simp)] at h
    simp only [hstart] at h
    rw [if_pos (by omega)] at h
    cases h
  · intro hle
    exact ⟨_,selectLines_range hn (Nat.le_refl n) hle⟩

/-- A file's reads under one path. -/
structure Reads (host : Host) (path : PyStr) (target : Target) (content : ByteArray) (text : PyStr)
    (cap : ℤ) : Prop where
  path_ne : path ≠ []
  resolves : host.safeResolve path = .ok target
  on_disk : target.onDisk = .file content
  decodes : decode content = some text
  no_nul : (0 : UInt8) ∉ content.data.toList
  covered : content.size ≤ cap
  cap_pos : 0 < cap

namespace Reads

variable (h : Reads host path target content text cap)

include h

theorem decodeText_eq : decodeText content = text := by
  rw [decodeText,h.decodes,Option.getD_some]

theorem fetch_cap : fetch content (intOr (some cap) 1048576) = some (content,false) := by
  have hpos := h.cap_pos
  rw [intOr,if_neg (by omega),fetch_full h.covered]

theorem run_full {startLine endLine : Option ℤ} {selected : PyStr}
    (hselect : selectLines text startLine endLine = .ok selected) (hencodes : encodes selected = true) :
    ∃ bytes, run host ⟨.str path,some cap,startLine,endLine⟩ =
      .read (report host target content false selected bytes) := by
  rw [run_file h.path_ne h.resolves h.on_disk]
  exact readContent_read h.no_nul h.fetch_cap (h.decodeText_eq.symm ▸ hselect) hencodes

theorem encodes_text : encodes text = true := encodes_of_decode h.decodes

theorem run_whole : ∃ bytes, run host ⟨.str path,some cap,none,none⟩ =
    .read (report host target content false text bytes) :=
  h.run_full (if_pos ⟨rfl,rfl⟩) h.encodes_text

theorem run_range {s e : ℕ} (hs : 1 ≤ s) (hse : s ≤ e) (he : e ≤ (splitlines text).length) :
    (run host ⟨.str path,some cap,some s,some e⟩).content? = some (between (splitlines text) (s-1) e) := by
  obtain ⟨bytes,hrun⟩ := h.run_full (selectLines_range hs hse he)
    (encodes_between h.encodes_text (s-1) e)
  rw [hrun]
  rfl

theorem slices_iff (hranges : Consecutive 1 (totalLines text) ranges) :
    (ranges.mapM fun r => (run host ⟨.str path,some cap,some r.1,some r.2⟩).content?).map List.flatten =
      (run host ⟨.str path,some cap,none,none⟩).content? ↔
    LfOnly text ∧ text.getLast? ≠ some (ch '\n') := by
  obtain ⟨bytes,hwhole⟩ := h.run_whole
  have hle := totalLines_le text
  rw [slices_of_consecutive hle
    (fun s e hs hse he => h.run_range hs hse (he.trans hle)) hranges,hwhole]
  change some _ = some text ↔ _
  rw [Option.some_inj]
  by_cases hnil : text = []
  · subst hnil
    simp [totalLines,LfOnly]
  · have hpos : 0 ≠ totalLines text := fun hzero => hnil (totalLines_eq_zero hzero.symm)
    rw [if_neg hpos,between_eq_text_iff hnil]

theorem cut_iff : (∀ cut full, run host ⟨.str path,maxBytes,none,none⟩ = .read cut →
      cut.truncated = true → run host ⟨.str path,some cap,none,none⟩ = .read full →
      cut.content <+: full.content) ↔ CutClean content text maxBytes := by
  obtain ⟨bytes,hwhole⟩ := h.run_whole
  rw [run_file h.path_ne h.resolves h.on_disk] at hwhole
  rw [run_file h.path_ne h.resolves h.on_disk,run_file h.path_ne h.resolves h.on_disk,hwhole]
  constructor
  · intro hcut data hfetch
    obtain ⟨cutBytes,hread⟩ := @readContent_read host path target content maxBytes none none data true
      (decodeText data) h.no_nul hfetch (if_pos ⟨rfl,rfl⟩) (encodes_decodeText data)
    have hprefix := hcut _ _ hread rfl rfl
    change decodeText data <+: text at hprefix
    cases hdecode : decode data with
    | some t => exact Or.inl rfl
    | none =>
      rw [decodeText,hdecode] at hprefix
      exact Or.inr hprefix
  · rintro hclean cut full hread htrunc ⟨⟩
    obtain ⟨data,truncated,selected,cutBytes,hfetch,⟨⟩,rfl⟩ := readContent_inv hread
    obtain rfl : truncated = true := htrunc
    change decodeText data <+: text
    cases hdecode : decode data with
    | some t =>
      obtain ⟨⟨k,hk,rfl⟩,-⟩ := fetch_spec hfetch
      rw [decodeText,hdecode]
      exact decode_prefix hk h.decodes hdecode
    | none =>
      rw [decodeText,hdecode]
      exact (hclean data hfetch).resolve_left (by simp [hdecode])

theorem lines_of_lfOnly (hlf : LfOnly text) {full : Report}
    (hfull : run host ⟨.str path,some cap,none,none⟩ = .read full) {n : ℕ} (hn : 1 ≤ n) :
    (run host ⟨.str path,some cap,some n,some n⟩).content?.isSome = true ↔ n ≤ full.totalLines := by
  obtain ⟨bytes,hwhole⟩ := h.run_whole
  rw [hwhole] at hfull
  cases hfull
  change _ ↔ n ≤ totalLines (decodeText content)
  rw [h.decodeText_eq,totalLines_of_lfOnly hlf]
  constructor
  · intro hsome
    cases hrun : run host ⟨.str path,some cap,some n,some n⟩ with
    | read r =>
      rw [run_file h.path_ne h.resolves h.on_disk] at hrun
      obtain ⟨data,truncated,selected,bytes,hfetch,hselect,-⟩ := readContent_inv hrun
      rw [h.fetch_cap] at hfetch
      cases hfetch
      rw [h.decodeText_eq] at hselect
      exact (selectLines_addresses hn).mp ⟨selected,hselect⟩
    | failed message => simp [hrun,Outcome.content?] at hsome
    | raised => simp [hrun,Outcome.content?] at hsome
  · intro hle
    rw [h.run_range hn (Nat.le_refl n) hle]
    rfl

end Reads

/-- Reads of a file are faithful exactly when the cut is clean, the line breaks are line
feeds and none ends the file. -/
theorem faithful_iff (h : Reads host path target content text cap)
    (hranges : Consecutive 1 (totalLines text) ranges) :
    Faithful host path content maxBytes cap ranges ↔
      CutClean content text maxBytes ∧ LfOnly text ∧ text.getLast? ≠ some (ch '\n') := by
  constructor
  · intro hfaithful
    exact ⟨h.cut_iff.mp hfaithful.cut_prefix,(h.slices_iff hranges).mp hfaithful.slices⟩
  · rintro ⟨hcut,hlf,hlast⟩
    refine ⟨h.cut_iff.mpr hcut,(h.slices_iff hranges).mpr ⟨hlf,hlast⟩,?_,?_⟩
    · intro full hfull n hn
      exact h.lines_of_lfOnly hlf hfull hn
    · rintro ⟨p,m,s,e⟩ r hpath hread
      cases hpath
      rw [run_file h.path_ne h.resolves h.on_disk] at hread
      exact readContent_digest hread

end Faithful

/-- One file, without a sandbox. -/
def plainHost (content : ByteArray) : Host where
  sha256 _ := []
  safeResolve path := .ok ⟨path,path,.file content⟩

theorem reads_plain (text : String) (hnul : (0 : UInt8) ∉ text.toByteArray.data.toList) (cap : ℤ)
    (hcap : text.toByteArray.size ≤ cap) (hpos : 0 < cap) : Reads (plainHost text.toByteArray) (lit "f")
      ⟨lit "f",lit "f",.file text.toByteArray⟩ text.toByteArray (lit text) cap :=
  ⟨by decide,rfl,rfl,decode_lit text,hnul,hcap,hpos⟩

theorem faithful_plain : Faithful (plainHost "ab\ncd".toByteArray) (lit "f") "ab\ncd".toByteArray
    (some 4) 8 [(1,1),(2,2)] := by
  have hreads := reads_plain "ab\ncd" (by decide) 8 (by decide) (by decide)
  refine (faithful_iff hreads (by simp [Consecutive]; decide)).mpr ⟨?_,by decide,by decide⟩
  intro data hfetch
  have hdata : data = "ab\nc".toByteArray := by
    have hcut : fetch "ab\ncd".toByteArray (intOr (some 4) 1048576) = some ("ab\nc".toByteArray,true) := by
      decide
    exact congrArg Prod.fst (Option.some.inj (hfetch.symm.trans hcut))
  rw [hdata,decode_lit]
  exact Or.inl rfl

/-- The final line feed of a file is in none of its slices. -/
theorem slices_lose_final_lf : ¬ Faithful (plainHost "a\n".toByteArray) (lit "f") "a\n".toByteArray
    none 2 [(1,1)] := by
  intro hfaithful
  have hreads := reads_plain "a\n" (by decide) 2 (by decide) (by decide)
  have hslice := @Reads.run_range _ _ _ _ _ _ hreads 1 1 (by decide) (by decide) (by decide)
  obtain ⟨bytes,hwhole⟩ := hreads.run_whole
  have hslices := hfaithful.slices
  rw [hwhole,List.mapM_cons,hslice] at hslices
  change some (lit "a"++[]) = some (lit "a\n") at hslices
  exact absurd (Option.some.inj hslices) (by decide)

end MinimaxCode.ReadFile
