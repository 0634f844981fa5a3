import MinimaxCode.FrontMatterLayout

/-!
# Round trips of front matter

A file is printed entry by entry between the dashes. Where the keys are keys, the regular expression
finds the lines again unless a later one starts with dashes, and the loop gives every entry its own
lines. From the back, what is read cannot have other keys and other line breaks than those of lines.
-/

namespace MinimaxCode.FrontMatter

open PyText PyJson SplitLines
open WorkspaceLock (Decimals unbroken_of_digits)

/-- A skill file before it is printed. -/
structure Document where
  entries : List (PyStr × Value)
  body : PyStr
  distinct : (OrderedDict.keys entries).Nodup
  oneLine : ∀ kv ∈ entries, ch '\n' ∉ kv.1 ∧ ∀ s ∈ kv.2.strings, ch '\n' ∉ s

def entryLines (entries : List (PyStr × Value)) : List PyStr :=
  entries.flatMap fun kv => kv.2.lines kv.1

def entryData (entries : List (PyStr × Value)) : List (PyStr × Data) :=
  entries.map fun kv => (kv.1,kv.2.data)

namespace Document

/-- The file in the documented layout. -/
def text (doc : Document) : PyStr :=
  lit "---\n"++(unlines (entryLines doc.entries)++(lit "---\n\n"++doc.body))

/-- What makes a file come back as it was. -/
structure Readable (d : Decimals) (doc : Document) : Prop where
  entries : doc.entries ≠ []
  keys : ∀ kv ∈ doc.entries, IsKey kv.1
  dashes : ∀ kv ∈ doc.entries.tail, ¬ lit "---" <+: kv.1
  values : ∀ kv ∈ doc.entries, kv.2.Readable d
  unbroken : ∀ kv ∈ doc.entries, ∀ s ∈ kv.2.strings, Unbroken s
  body : ∀ c ∈ doc.body.head?, c.isSpace = false

end Document

theorem IsKey.head {key : PyStr} (h : IsKey key) : ∀ c ∈ key.head?, c.isSpace = false := by
  intro c hc
  have hne : strip key ≠ [] := by
    rw [h.stripped]
    exact h.ne_nil
  have hhead := head?_strip hne
  rw [h.stripped,hc] at hhead
  have hnot := List.head?_dropWhile_not PyChar.isSpace key
  rw [← lstrip,← hhead] at hnot
  exact hnot

section KeyLine

variable {key : PyStr} (hkey : IsKey key) (inline : PyStr)
include hkey

theorem head?_keyLine : (key++ch ':'::inline).head? = key.head? :=
  List.head?_append_of_ne_nil _ hkey.ne_nil

theorem keyOf_keyLine : keyOf (key++ch ':'::inline) = key := by
  have hspan := span_append (p := (· ≠ ch ':')) (a := key) (b := ch ':'::inline)
    (fun c hc => by
      have : c ≠ ch ':' := fun h => hkey.colon (h ▸ hc)
      simpa using this) (by simp)
  rw [keyOf,hspan.1,hkey.stripped]

theorem isIndented_keyLine : isIndented (key++ch ':'::inline) = false := by
  rw [isIndented,head?_keyLine hkey,Bool.or_eq_false_iff,beq_eq_false_iff_ne,beq_eq_false_iff_ne]
  exact ⟨fun h => absurd (hkey.head _ h) (by decide),fun h => absurd (hkey.head _ h) (by decide)⟩

theorem isBlank_keyLine : isBlank (key++ch ':'::inline) = false := by
  obtain ⟨c,cs,rfl⟩ := List.exists_cons_of_ne_nil hkey.ne_nil
  have hc := hkey.head c rfl
  simp [isBlank,hc]

theorem isSkipped_keyLine : isSkipped (key++ch ':'::inline) = false := by
  have hstrip : lstrip (key++ch ':'::inline) = key++ch ':'::inline := by
    obtain ⟨c,cs,rfl⟩ := List.exists_cons_of_ne_nil hkey.ne_nil
    exact List.dropWhile_cons_of_neg (by simp [hkey.head c rfl])
  rw [isSkipped,isBlank_keyLine hkey,hstrip,head?_keyLine hkey,Bool.false_or,beq_eq_false_iff_ne]
  exact hkey.comment

theorem measureIndent_keyLine : measureIndent (key++ch ':'::inline) = 0 := by
  obtain ⟨c,cs,rfl⟩ := List.exists_cons_of_ne_nil hkey.ne_nil
  have hc : c ≠ ch ' ' := by
    rintro rfl
    exact absurd (hkey.head _ rfl) (by decide)
  simp [measureIndent,hc]

theorem parseEntry_keyLine {d : Decimals} (i : ℕ) (rest : List PyStr) :
    parseEntry d i (key++ch ':'::inline) rest =
      (parseValue d 0 i (strip inline) rest).map fun r => (key,r) := by
  have hspan := span_append (p := (· ≠ ch ':')) (a := key) (b := ch ':'::inline)
    (fun c hc => by
      have : c ≠ ch ':' := fun h => hkey.colon (h ▸ hc)
      simpa using this) (by simp)
  rw [parseEntry,hspan.1,hspan.2]
  dsimp only
  rw [hkey.stripped,if_neg hkey.ne_nil,measureIndent_keyLine hkey]
  cases parseValue d 0 i (strip inline) rest <;> rfl

end KeyLine

theorem isIndented_below (v : Value) : ∀ line ∈ v.below, isIndented line = true := by
  have hmap : ∀ {A : Type} (f : A → PyStr), (∀ a, isIndented (f a) = true) → ∀ l : List A,
      ∀ line ∈ l.map f, isIndented line = true := by
    intro A f hf l line hline
    obtain ⟨a,-,rfl⟩ := List.mem_map.mp hline
    exact hf a
  cases v with
  | literal lines => exact hmap indented (fun _ => rfl) lines
  | list items => exact hmap itemLine (fun _ => rfl) items
  | block lines => exact hmap indented (fun _ => rfl) lines
  | _ => exact fun line h => nomatch h

variable {entries : List (PyStr × Value)} {line rest : PyStr} {lines : List PyStr}

theorem mem_entryLines (h : line ∈ entryLines entries)
    (hindent : isIndented line = false) :
    ∃ kv ∈ entries, line = kv.1++ch ':'::kv.2.inline := by
  obtain ⟨kv,hkv,hline⟩ := List.mem_flatMap.mp h
  obtain rfl | hbelow := List.mem_cons.mp hline
  · exact ⟨kv,hkv,rfl⟩
  · rw [isIndented_below kv.2 line hbelow] at hindent
    cases hindent

theorem margin_entryLines (hkeys : ∀ kv ∈ entries, IsKey kv.1) :
    Margin (entryLines entries) := by
  cases entries with
  | nil => exact fun line h => nomatch h
  | cons kv entries =>
    have hkey := hkeys kv List.mem_cons_self
    intro line hline
    cases hline
    exact ⟨isBlank_keyLine hkey _,measureIndent_keyLine hkey _⟩

theorem unbroken_shown {t : Text} (h : Unbroken t.value) : Unbroken t.shown := by
  cases t with
  | plain s => exact h
  | quoted mark s =>
    have hmark : isLineBreak mark.char = false := by cases mark <;> rfl
    have hs : Unbroken s := h
    simpa [Text.shown,hmark] using hs

theorem unbroken_intText (n : ℤ) : Unbroken (intText n) := by
  have hdigits := unbroken_of_digits (natText_digits n.natAbs)
  unfold intText
  split
  · exact unbroken_cons.mpr ⟨rfl,hdigits⟩
  · exact hdigits

theorem unbroken_lines {key : PyStr} {v : Value} (hkey : Unbroken key)
    (hv : ∀ s ∈ v.strings, Unbroken s) : ∀ line ∈ v.lines key, Unbroken line := by
  have hline : Unbroken v.inline → Unbroken (key++ch ':'::v.inline) := fun h =>
    unbroken_append.mpr ⟨hkey,unbroken_cons.mpr ⟨rfl,h⟩⟩
  have hindented : ∀ lines : List PyStr, (∀ s ∈ lines, Unbroken s) →
      ∀ line ∈ lines.map indented, Unbroken line := by
    intro lines hlines line hline
    obtain ⟨s,hs,rfl⟩ := List.mem_map.mp hline
    exact unbroken_append.mpr ⟨by decide,hlines s hs⟩
  cases v with
  | text t =>
    have ht := unbroken_shown (hv t.value List.mem_cons_self)
    exact List.forall_mem_singleton.mpr (hline (unbroken_cons.mpr ⟨rfl,ht⟩))
  | int n => exact List.forall_mem_singleton.mpr (hline (unbroken_cons.mpr ⟨rfl,unbroken_intText n⟩))
  | bool b => cases b <;> exact List.forall_mem_singleton.mpr (hline (by decide))
  | empty => exact List.forall_mem_singleton.mpr (hline unbroken_nil)
  | literal lines =>
    have hmarker : Unbroken (lit " |") := by decide
    exact List.forall_mem_cons.mpr ⟨hline hmarker,hindented lines hv⟩
  | list items =>
    have hempty : Unbroken (lit " []") := by decide
    have hinline : Unbroken (Value.list items).inline := by
      cases items with
      | nil => exact hempty
      | cons t items => exact unbroken_nil
    refine List.forall_mem_cons.mpr ⟨hline hinline,fun line hl => ?_⟩
    obtain ⟨t,ht,rfl⟩ := List.mem_map.mp hl
    exact unbroken_append.mpr ⟨by decide,unbroken_shown (hv _ (List.mem_map_of_mem ht))⟩
  | block lines => exact List.forall_mem_cons.mpr ⟨hline unbroken_nil,hindented lines hv⟩

theorem unbroken_entryLines (hkeys : ∀ kv ∈ entries, IsKey kv.1)
    (hstrings : ∀ kv ∈ entries, ∀ s ∈ kv.2.strings, Unbroken s) :
    ∀ line ∈ entryLines entries, Unbroken line := by
  intro line hline
  obtain ⟨kv,hkv,hline⟩ := List.mem_flatMap.mp hline
  exact unbroken_lines (hkeys kv hkv).unbroken (hstrings kv hkv) line hline

section Lines

variable {d : Decimals}

theorem parseLines_entry {key : PyStr} (hkey : IsKey key) (v : Value) (rest : List PyStr) (i : ℕ)
    (result : List (PyStr × Data)) : parseLines d (v.lines key++rest) 0 i result =
      match parseValue d 0 i (strip v.inline) (v.below++rest) with
      | .error e => .error e
      | .ok (consumed,value) =>
        parseLines d (v.below++rest) consumed (i+1) (OrderedDict.assign result key value) := by
  rw [Value.lines,List.cons_append,parseLines,isSkipped_keyLine hkey,isIndented_keyLine hkey,
    if_neg Bool.false_ne_true,if_neg Bool.false_ne_true,parseEntry_keyLine hkey]
  cases parseValue d 0 i (strip v.inline) (v.below++rest) <;> rfl

theorem parseLines_entries {entries : List (PyStr × Value)} (hkeys : ∀ kv ∈ entries, IsKey kv.1)
    (hstrings : ∀ kv ∈ entries, ∀ s ∈ kv.2.strings, Unbroken s)
    (hdistinct : (OrderedDict.keys entries).Nodup) (hvalues : ∀ kv ∈ entries, kv.2.Readable d) :
    ∀ i result, (∀ kv ∈ entries, kv.1 ∉ OrderedDict.keys result) →
      parseLines d (entryLines entries) 0 i result = .ok (result++entryData entries) := by
  induction entries with
  | nil =>
    intro i result _
    rw [entryData,List.map_nil,List.append_nil]
    rfl
  | cons kv entries ih =>
    obtain ⟨hkey,hkeys⟩ := List.forall_mem_cons.mp hkeys
    obtain ⟨hstring,hstrings⟩ := List.forall_mem_cons.mp hstrings
    obtain ⟨hvalue,hvalues⟩ := List.forall_mem_cons.mp hvalues
    obtain ⟨hnew,hdistinct⟩ := List.nodup_cons.mp hdistinct
    intro i result hresult
    obtain ⟨hfresh,hresult⟩ := List.forall_mem_cons.mp hresult
    have hmargin := margin_entryLines hkeys
    have hunbroken := unbroken_entryLines hkeys hstrings
    obtain ⟨consumed,hparse⟩ := (parseValue_iff hmargin hunbroken hstring i).mpr hvalue
    have hnext : ∀ kv' ∈ entries,
        kv'.1 ∉ OrderedDict.keys (OrderedDict.assign result kv.1 kv.2.data) := by
      intro kv' hkv' hmem
      obtain heq | hmem := OrderedDict.mem_keys_assign hmem
      · exact hnew (heq ▸ List.mem_map_of_mem hkv')
      · exact hresult kv' hkv' hmem
    have hsplit : entryLines (kv::entries) = kv.2.lines kv.1++entryLines entries := rfl
    rw [hsplit,parseLines_entry hkey,hparse]
    dsimp only
    rw [parseLines_below hmargin hvalue hparse,ih hkeys hstrings hdistinct hvalues _ _ hnext,
      OrderedDict.assign_of_new hfresh,List.append_assoc]
    rfl

theorem readable_of_parseLines {entries : List (PyStr × Value)} (hkeys : ∀ kv ∈ entries, IsKey kv.1)
    (hstrings : ∀ kv ∈ entries, ∀ s ∈ kv.2.strings, Unbroken s)
    (hdistinct : (OrderedDict.keys entries).Nodup) {out : List (PyStr × Data)}
    (hout : ∀ kv ∈ entries, OrderedDict.lookup out kv.1 = some kv.2.data) : ∀ i result,
    parseLines d (entryLines entries) 0 i result = .ok out → ∀ kv ∈ entries, kv.2.Readable d := by
  induction entries with
  | nil => exact fun _ _ _ kv h => nomatch h
  | cons kv entries ih =>
    obtain ⟨hkey,hkeys⟩ := List.forall_mem_cons.mp hkeys
    obtain ⟨hstring,hstrings⟩ := List.forall_mem_cons.mp hstrings
    obtain ⟨hvalue,hout⟩ := List.forall_mem_cons.mp hout
    obtain ⟨hnew,hdistinct⟩ := List.nodup_cons.mp hdistinct
    intro i result h
    have hmargin := margin_entryLines hkeys
    have hunbroken := unbroken_entryLines hkeys hstrings
    have hsplit : entryLines (kv::entries) = kv.2.lines kv.1++entryLines entries := rfl
    rw [hsplit,parseLines_entry hkey] at h
    split at h
    · cases h
    next consumed value hparse =>
      -- No line below assigns the key again, so its value is the one that was read here.
      have hother : ∀ line ∈ kv.2.below++entryLines entries, isIndented line = false →
          keyOf line ≠ kv.1 := by
        intro line hline hindent heq
        obtain hbelow | hline := List.mem_append.mp hline
        · rw [isIndented_below kv.2 line hbelow] at hindent
          cases hindent
        · obtain ⟨kv',hkv',rfl⟩ := mem_entryLines hline hindent
          rw [keyOf_keyLine (hkeys kv' hkv')] at heq
          exact hnew (heq ▸ List.mem_map_of_mem hkv')
      have hlookup := lookup_parseLines hother _ _ _ _ h
      rw [OrderedDict.lookup_assign,if_pos rfl,hvalue,Option.some.injEq] at hlookup
      subst hlookup
      have hreadable := (parseValue_iff hmargin hunbroken hstring i).mp ⟨consumed,hparse⟩
      rw [parseLines_below hmargin hreadable hparse] at h
      exact List.forall_mem_cons.mpr ⟨hreadable,ih hkeys hstrings hdistinct hout _ _ h⟩

end Lines
theorem prefix_append_sep {sep : PyChar} {p : PyStr} (hp : sep ∉ p) :
    p <+: line++sep::rest ↔ p <+: line := by
  refine ⟨?_,fun h => h.trans (List.prefix_append line _)⟩
  rintro ⟨t,ht⟩
  obtain ⟨u,hline,-⟩ | ⟨u,hpre,hrest⟩ := List.append_eq_append_iff.mp ht
  · exact ⟨u,hline.symm⟩
  · cases u with
    | nil => exact ⟨[],by rw [hpre,List.append_nil,List.append_nil]⟩
    | cons c u =>
      obtain ⟨rfl,-⟩ := List.cons.inj hrest
      exact absurd (by simp [hpre]) hp

theorem closing_line (hline : ch '\n' ∉ line) : closing (line++ch '\n'::rest) =
    if lit "---" <+: rest then some (line,rest.drop 3)
    else (closing rest).map fun r => (line++ch '\n'::r.1,r.2) := by
  induction line with
  | nil =>
    rw [List.nil_append,closing]
    by_cases h : lit "---" <+: rest
    · obtain ⟨after,rfl⟩ := h
      rfl
    · have hnone : (lit "\n---").isPrefixOf? (ch '\n'::rest) = none := by
        rw [Option.eq_none_iff_forall_ne_some]
        intro after hafter
        obtain heq := List.isPrefixOf?_eq_some_iff_append_eq.mp hafter
        exact h ⟨after,(List.cons.inj heq).2⟩
      rw [hnone,if_neg h]
      rfl
  | cons c cs ih =>
    have hcs := ih fun h => hline (List.mem_cons_of_mem c h)
    have hnone : (lit "\n---").isPrefixOf? (c::(cs++ch '\n'::rest)) = none := by
      rw [Option.eq_none_iff_forall_ne_some]
      intro after hafter
      have heq := List.isPrefixOf?_eq_some_iff_append_eq.mp hafter
      have hc : ch '\n' = c := (List.cons.inj heq).1
      exact hline (hc ▸ List.mem_cons_self)
    rw [List.cons_append,closing,hnone,hcs]
    dsimp only
    by_cases h : lit "---" <+: rest
    · rw [if_pos h,if_pos h]
      rfl
    · rw [if_neg h,if_neg h,Option.map_map]
      rfl

theorem closing_unlines
    (hlines : ∀ l ∈ line::lines, ch '\n' ∉ l) (hdashes : ∀ l ∈ lines, ¬ lit "---" <+: l)
    (hrest : lit "---" <+: rest) :
    closing (unlines (line::lines)++rest) = some (join '\n' (line::lines),rest.drop 3) := by
  induction lines generalizing line with
  | nil =>
    have hcons : unlines [line]++rest = line++ch '\n'::rest := by simp [unlines]
    rw [hcons,closing_line (hlines line List.mem_cons_self),if_pos hrest,join,List.intercalate_singleton]
  | cons next lines ih =>
    obtain ⟨hline,hlines⟩ := List.forall_mem_cons.mp hlines
    obtain ⟨hnext,hdashes⟩ := List.forall_mem_cons.mp hdashes
    have hcons : unlines (line::next::lines)++rest = line++ch '\n'::(unlines (next::lines)++rest) := by
      simp [unlines]
    have hno : ¬ lit "---" <+: unlines (next::lines)++rest := by
      have hsplit : unlines (next::lines)++rest = next++ch '\n'::(unlines lines++rest) := by simp [unlines]
      rw [hsplit]
      exact fun h => hnext ((prefix_append_sep (by decide)).mp h)
    rw [hcons,closing_line hline,if_neg hno,ih hlines hdashes,Option.map_some,join,join,
      intercalate_cons _ line (List.cons_ne_nil next lines)]

theorem splitlines_join (hunbroken : ∀ l ∈ lines, Unbroken l)
    (hne : ∀ l ∈ lines, l ≠ []) : splitlines (join '\n' lines) = lines := by
  induction lines with
  | nil => rfl
  | cons line lines ih =>
    obtain ⟨hline,hunbroken⟩ := List.forall_mem_cons.mp hunbroken
    obtain ⟨hline',hne⟩ := List.forall_mem_cons.mp hne
    by_cases hnil : lines = []
    · have hcontent : content line = line := by
        refine List.takeWhile_eq_self_iff.mpr fun c hc => ?_
        rw [hline c hc]
        rfl
      rw [hnil,join,List.intercalate_singleton,splitlines_eq,splitlinesKeep_unbroken hline hline',
        List.map_singleton,hcontent]
    · rw [join,intercalate_cons _ line hnil,splitlines_line hline]
      exact congrArg _ (ih hunbroken hne)

/-- The lines up to the next ones that start with dashes. -/
def upToDashes (lines : List PyStr) : List PyStr := lines.takeWhile fun l => !(lit "---").isPrefixOf l

theorem opening_line (hhead : ∀ c ∈ line.head?, c.isSpace = false)
    (hline : line ≠ []) : opening (ch '\n'::(line++rest)) = closing (line++rest) := by
  obtain ⟨c,cs,rfl⟩ := List.exists_cons_of_ne_nil hline
  have hnone : opening (c::cs++rest) = none := by
    rw [List.cons_append,opening,if_neg (by simp [hhead c rfl])]
  rw [opening,if_pos (by decide),hnone,if_pos rfl]

theorem frontmatterRe_lines (body : PyStr)
    (hlines : ∀ l ∈ line::lines, ch '\n' ∉ l) (hhead : ∀ c ∈ line.head?, c.isSpace = false)
    (hline : line ≠ []) :
    ∃ rest, frontmatterRe (lit "---\n"++(unlines (line::lines)++(lit "---\n\n"++body))) =
      some (join '\n' (line::upToDashes lines),rest) ∧
      (upToDashes lines = lines → rest = lstrip body) := by
  have hbefore : ∀ l ∈ upToDashes lines, ¬ lit "---" <+: l := by
    intro l hl h
    have hno := List.mem_takeWhile_imp hl
    rw [List.isPrefixOf_iff_prefix.mpr h] at hno
    cases hno
  have hsplit := List.takeWhile_append_dropWhile (p := fun l => !(lit "---").isPrefixOf l) (l := lines)
  have hlines' : ∀ l ∈ line::upToDashes lines, ch '\n' ∉ l := fun l hl => by
    obtain rfl | hl := List.mem_cons.mp hl
    · exact hlines l List.mem_cons_self
    · exact hlines l (List.mem_cons_of_mem line ((List.takeWhile_prefix _).subset hl))
  have htext : unlines (line::lines)++(lit "---\n\n"++body) = unlines (line::upToDashes lines)++
      (unlines (lines.dropWhile fun l => !(lit "---").isPrefixOf l)++(lit "---\n\n"++body)) := by
    have hunlines : unlines (line::lines) = unlines (line::upToDashes lines)++
        unlines (lines.dropWhile fun l => !(lit "---").isPrefixOf l) := by
      rw [← unlines_append,List.cons_append,upToDashes,hsplit]
    rw [hunlines,List.append_assoc]
  have hdashes : lit "---" <+: unlines (lines.dropWhile fun l => !(lit "---").isPrefixOf l)++
      (lit "---\n\n"++body) := by
    cases hdrop : lines.dropWhile fun l => !(lit "---").isPrefixOf l with
    | nil => exact ⟨lit "\n\n"++body,rfl⟩
    | cons l ls =>
      have hhead := List.head?_dropWhile_not (fun l => !(lit "---").isPrefixOf l) lines
      rw [hdrop] at hhead
      have hl : lit "---" <+: l := List.isPrefixOf_iff_prefix.mp (by simpa using hhead)
      have hcons : unlines (l::ls) = l++(ch '\n'::unlines ls) := by simp [unlines]
      rw [hcons,List.append_assoc]
      exact hl.trans (List.prefix_append l _)
  have hclosing := closing_unlines hlines' hbefore hdashes
  have hopening : opening (ch '\n'::(unlines (line::lines)++(lit "---\n\n"++body))) =
      closing (unlines (line::lines)++(lit "---\n\n"++body)) := by
    have hcons : unlines (line::lines)++(lit "---\n\n"++body) =
        line++(ch '\n'::(unlines lines++(lit "---\n\n"++body))) := by simp [unlines]
    rw [hcons]
    exact opening_line hhead hline
  have hre : ∀ text, frontmatterRe (lit "---\n"++text) =
      (opening (ch '\n'::text)).map fun r => (r.1,lstrip r.2) := fun _ => rfl
  rw [hre,hopening,htext,hclosing]
  refine ⟨_,rfl,fun hall => ?_⟩
  have hkept : (lines.takeWhile fun l => !(lit "---").isPrefixOf l) = lines := hall
  rw [hkept] at hsplit
  have hnil : (lines.dropWhile fun l => !(lit "---").isPrefixOf l) = [] :=
    List.append_right_eq_self.mp hsplit
  rw [hnil]
  rfl

section Files

variable {d : Decimals} {doc : Document} {kv : PyStr × Value}

theorem parseFrontmatter_ok {text : PyStr} {out : List (PyStr × Data)} {body : PyStr}
    (h : parseFrontmatter d text = .ok (out,body)) :
    ∃ yaml, frontmatterRe text = some (yaml,body) ∧ parseYamlSubset d yaml = .ok out := by
  unfold parseFrontmatter at h
  split at h
  · cases h
  next yaml body' hre =>
    split at h
    · cases h
    next out' hyaml =>
      cases h
      exact ⟨yaml,hre,hyaml⟩

theorem parseFrontmatter_empty (body : PyStr) (out : List (PyStr × Data)) (body' : PyStr) :
    parseFrontmatter d (lit "---\n"++(lit "---\n\n"++body)) ≠ .ok (out,body') := by
  intro h
  obtain ⟨yaml,hre,hyaml⟩ := parseFrontmatter_ok h
  have hno : ¬ lit "---" <+: ch '\n'::body := by
    rintro ⟨t,ht⟩
    exact absurd (List.cons.inj ht).1 (by decide)
  have hopening : opening (ch '\n'::(lit "---\n\n"++body)) =
      closing (lit "---"++ch '\n'::(ch '\n'::body)) :=
    opening_line (by decide) (by decide)
  have hre' : frontmatterRe (lit "---\n"++(lit "---\n\n"++body)) =
      (opening (ch '\n'::(lit "---\n\n"++body))).map fun r => (r.1,lstrip r.2) := rfl
  rw [hre',hopening,closing_line (by decide),if_neg hno,Option.map_map,Option.map_eq_some_iff] at hre
  obtain ⟨r,-,hr⟩ := hre
  obtain ⟨rfl,-⟩ := Prod.mk.inj hr
  rw [parseYamlSubset,splitlines_line (by decide)] at hyaml
  cases hyaml

theorem dashes_indented {line : PyStr} (h : isIndented line = true) : ¬ lit "---" <+: line := by
  rintro ⟨t,rfl⟩
  cases h

theorem upToDashes_entryLines {entries : List (PyStr × Value)}
    (h : ∀ kv ∈ entries, ¬ lit "---" <+: kv.1) (v : Value) :
    upToDashes (v.below++entryLines entries) = v.below++entryLines entries := by
  refine List.takeWhile_eq_self_iff.mpr fun line hline => ?_
  rw [Bool.not_eq_true',← Bool.not_eq_true,List.isPrefixOf_iff_prefix]
  cases hindent : isIndented line with
  | true => exact dashes_indented hindent
  | false =>
    obtain hbelow | hline := List.mem_append.mp hline
    · rw [isIndented_below v line hbelow] at hindent
      cases hindent
    · obtain ⟨kv,hkv,rfl⟩ := mem_entryLines hline hindent
      exact fun hdashes => h kv hkv ((prefix_append_sep (by decide)).mp hdashes)

theorem ne_nil_of_mem_entryLines {entries : List (PyStr × Value)} :
    ∀ line ∈ entryLines entries, line ≠ [] := by
  rintro line hline rfl
  obtain ⟨kv,-,h⟩ := mem_entryLines hline rfl
  exact absurd h.symm (by simp)

theorem subset_texts {v : Value} : ∀ s ∈ v.strings, ∃ t ∈ v.data.texts, s ⊆ t := by
  cases v with
  | text t => exact fun s hs => ⟨s,hs,List.Subset.refl s⟩
  | literal lines => exact fun s hs => ⟨_,List.mem_cons_self,subset_join hs⟩
  | block lines => exact fun s hs => ⟨_,List.mem_cons_self,subset_join hs⟩
  | list items =>
    intro s hs
    obtain ⟨t,ht,rfl⟩ := List.mem_map.mp hs
    exact ⟨t.value,List.mem_filterMap.mpr ⟨.str t.value,List.mem_map_of_mem ht,rfl⟩,List.Subset.refl _⟩
  | _ => exact fun s h => nomatch h

theorem keys_entryData (entries : List (PyStr × Value)) :
    OrderedDict.keys (entryData entries) = OrderedDict.keys entries := by
  rw [OrderedDict.keys,OrderedDict.keys,entryData,List.map_map]
  rfl

theorem lookup_entryData {entries : List (PyStr × Value)} (h : (OrderedDict.keys entries).Nodup) :
    ∀ kv ∈ entries, OrderedDict.lookup (entryData entries) kv.1 = some kv.2.data := by
  intro kv hkv
  rw [← keys_entryData] at h
  exact OrderedDict.lookup_of_mem h (List.mem_map_of_mem hkv)

theorem unbroken_of_legible (h : Legible (entryData doc.entries)) :
    ∀ kv ∈ doc.entries, ∀ s ∈ kv.2.strings, Unbroken s := by
  intro kv hkv s hs c hc
  obtain ⟨t,ht,hst⟩ := subset_texts s hs
  have hlf := h.texts (kv.1,kv.2.data) (List.mem_map_of_mem hkv) t ht c (hst hc)
  cases hbreak : isLineBreak c with
  | false => rfl
  | true => exact absurd (hlf hbreak ▸ hc) ((doc.oneLine kv hkv).2 s hs)

theorem dashes_of_parseLines {entries : List (PyStr × Value)}
    (hkeys : ∀ e ∈ kv::entries, IsKey e.1) (hdistinct : (OrderedDict.keys (kv::entries)).Nodup)
    {lines : List PyStr} (hlines : kv.2.below++entryLines entries = lines)
    (h : parseLines d ((kv.1++ch ':'::kv.2.inline)::upToDashes lines) 0 0 [] =
      .ok (entryData (kv::entries))) : ∀ e ∈ entries, ¬ lit "---" <+: e.1 := by
  intro e he hdashes
  have hnew : kv.1 ∉ OrderedDict.keys entries := (List.nodup_cons.mp hdistinct).1
  have hlookup := lookup_entryData hdistinct e (List.mem_cons_of_mem kv he)
  -- No line that is read assigns the key: its own line starts with dashes.
  have hnone : ∀ line ∈ (kv.1++ch ':'::kv.2.inline)::upToDashes lines, isIndented line = false →
      keyOf line ≠ e.1 := by
    intro line hline hindent heq
    obtain rfl | hline := List.mem_cons.mp hline
    · rw [keyOf_keyLine (hkeys kv List.mem_cons_self)] at heq
      exact hnew (heq ▸ List.mem_map_of_mem he)
    have hno := List.mem_takeWhile_imp hline
    have hline' : line ∈ kv.2.below++entryLines entries :=
      hlines ▸ (List.takeWhile_prefix _).subset hline
    obtain hbelow | hentry := List.mem_append.mp hline'
    · rw [isIndented_below kv.2 line hbelow] at hindent
      cases hindent
    · obtain ⟨e',he',rfl⟩ := mem_entryLines hentry hindent
      rw [keyOf_keyLine (hkeys e' (List.mem_cons_of_mem kv he'))] at heq
      have hprefix : lit "---" <+: e'.1++ch ':'::e'.2.inline :=
        (heq ▸ hdashes : lit "---" <+: e'.1).trans (List.prefix_append _ _)
      rw [List.isPrefixOf_iff_prefix.mpr hprefix] at hno
      cases hno
  rw [lookup_parseLines hnone 0 0 [] _ h] at hlookup
  cases hlookup

theorem frontmatterRe_text {entries : List (PyStr × Value)}
    (hentries : doc.entries = kv::entries) (hkeys : ∀ e ∈ kv::entries, IsKey e.1)
    (hstrings : ∀ e ∈ kv::entries, ∀ s ∈ e.2.strings, Unbroken s) :
    ∃ rest, frontmatterRe doc.text = some (join '\n' ((kv.1++ch ':'::kv.2.inline)::
        upToDashes (kv.2.below++entryLines entries)),rest) ∧
      (upToDashes (kv.2.below++entryLines entries) = kv.2.below++entryLines entries →
        rest = lstrip doc.body) := by
  have hkey := hkeys kv List.mem_cons_self
  have hlines : entryLines doc.entries =
      (kv.1++ch ':'::kv.2.inline)::(kv.2.below++entryLines entries) := by
    rw [hentries]
    rfl
  have hunbroken := unbroken_entryLines hkeys hstrings
  rw [← hentries,hlines] at hunbroken
  rw [Document.text,hlines]
  refine frontmatterRe_lines doc.body (fun l hl => (hunbroken l hl).lf_not_mem) ?_ ?_
  · rw [head?_keyLine hkey]
    exact hkey.head
  · simp

theorem splitlines_text {entries : List (PyStr × Value)}
    (hkeys : ∀ e ∈ kv::entries, IsKey e.1)
    (hstrings : ∀ e ∈ kv::entries, ∀ s ∈ e.2.strings, Unbroken s) :
    splitlines (join '\n' ((kv.1++ch ':'::kv.2.inline)::upToDashes (kv.2.below++entryLines entries))) =
      (kv.1++ch ':'::kv.2.inline)::upToDashes (kv.2.below++entryLines entries) := by
  have hsub : ∀ l ∈ (kv.1++ch ':'::kv.2.inline)::upToDashes (kv.2.below++entryLines entries),
      l ∈ entryLines (kv::entries) := by
    intro l hl
    obtain rfl | hl := List.mem_cons.mp hl
    · exact List.mem_cons_self
    · exact List.mem_cons_of_mem _ ((List.takeWhile_prefix _).subset hl)
  exact splitlines_join (fun l hl => unbroken_entryLines hkeys hstrings l (hsub l hl))
    fun l hl => ne_nil_of_mem_entryLines l (hsub l hl)

theorem lstrip_eq_self {s : PyStr} : lstrip s = s ↔ ∀ c ∈ s.head?, c.isSpace = false := by
  constructor
  · intro h c hc
    have hnot := List.head?_dropWhile_not PyChar.isSpace s
    rw [← lstrip,h,hc] at hnot
    exact hnot
  · intro h
    cases s with
    | nil => rfl
    | cons c s => exact List.dropWhile_cons_of_neg (by simp [h c rfl])

theorem parseFrontmatter_of_readable (h : doc.Readable d) :
    parseFrontmatter d doc.text = .ok (entryData doc.entries,doc.body) := by
  obtain ⟨kv,entries,hentries⟩ := List.exists_cons_of_ne_nil h.entries
  have hkeys := h.keys
  have hstrings := h.unbroken
  have hdashes := h.dashes
  have hvalues := h.values
  have hdistinct := doc.distinct
  rw [hentries] at hkeys hstrings hdashes hvalues hdistinct
  rw [List.tail_cons] at hdashes
  obtain ⟨rest,hre,hrest⟩ := frontmatterRe_text hentries hkeys hstrings
  have hall := upToDashes_entryLines hdashes kv.2
  have hbody : rest = doc.body := (hrest hall).trans (lstrip_eq_self.mpr h.body)
  have hparse := parseLines_entries hkeys hstrings hdistinct hvalues 0 [] fun e _ hmem => nomatch hmem
  have hyaml : parseYamlSubset d (join '\n' ((kv.1++ch ':'::kv.2.inline)::
      upToDashes (kv.2.below++entryLines entries))) = .ok (entryData (kv::entries)) := by
    rw [parseYamlSubset,splitlines_text hkeys hstrings,hall]
    exact hparse
  rw [parseFrontmatter,hre]
  dsimp only
  rw [hyaml,hbody,hentries]

theorem readable_of_parseFrontmatter
    (h : parseFrontmatter d doc.text = .ok (entryData doc.entries,doc.body)) : doc.Readable d := by
  obtain ⟨yaml,hre,hyaml⟩ := parseFrontmatter_ok h
  have hlegible := legible_parseYamlSubset hyaml
  have hkeys : ∀ e ∈ doc.entries, IsKey e.1 := fun e he =>
    hlegible.keys (e.1,e.2.data) (List.mem_map_of_mem he)
  have hstrings := unbroken_of_legible hlegible
  have hdistinct := doc.distinct
  have hne : doc.entries ≠ [] := by
    intro hnil
    rw [Document.text,hnil] at h
    exact parseFrontmatter_empty _ _ _ h
  obtain ⟨kv,entries,hentries⟩ := List.exists_cons_of_ne_nil hne
  rw [hentries] at hkeys hstrings hdistinct hyaml
  obtain ⟨rest,hre',hrest⟩ := frontmatterRe_text hentries hkeys hstrings
  obtain ⟨rfl,rfl⟩ := Prod.mk.inj (Option.some.inj (hre.symm.trans hre'))
  rw [parseYamlSubset,splitlines_text hkeys hstrings] at hyaml
  have hdashes := dashes_of_parseLines hkeys hdistinct rfl hyaml
  have hall := upToDashes_entryLines hdashes kv.2
  rw [hall] at hyaml
  have hvalues := readable_of_parseLines hkeys hstrings hdistinct (lookup_entryData hdistinct) 0 [] hyaml
  have hbody := lstrip_eq_self.mp (hrest hall).symm
  refine ⟨hne,?_,?_,?_,?_,hbody⟩ <;> rw [hentries]
  · exact hkeys
  · exact hdashes
  · exact hvalues
  · exact hstrings

/-- A file comes back as it was exactly where the readers agree with the layout. -/
theorem parseFrontmatter_text_iff (doc : Document) :
    parseFrontmatter d doc.text = .ok (entryData doc.entries,doc.body) ↔ doc.Readable d :=
  ⟨readable_of_parseFrontmatter,parseFrontmatter_of_readable⟩

end Files

/-- A description below its key, as one line of text. -/
def blockBelow : Document where
  entries := [(lit "description",.block [lit "Some text."])]
  body := []
  distinct := by decide
  oneLine := by decide

/-- The digits of ASCII texts. -/
def asciiDecimals : Decimals where
  value c := bif isDigit c then some (c.code-48) else none
  ascii c h := by rw [h,cond_true]

/-- The line is taken for the header of a block, and the file is rejected. -/
theorem block_below_rejected : ¬ parseFrontmatter asciiDecimals blockBelow.text =
    .ok (entryData blockBelow.entries,blockBelow.body) := by
  have hrejected : parseFrontmatter asciiDecimals blockBelow.text =
      .error (.invalid (.blockScalarHeader (lit "Some text."))) := rfl
  rw [hrejected]
  exact fun h => nomatch h

end MinimaxCode.FrontMatter
