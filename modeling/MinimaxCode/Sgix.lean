import MinimaxCode.BinaryFormat
import MinimaxCode.ScopeIndex

/-!
# The SGIX format

An index is saved as a header, the interner, the definitions, the references, the aliases, the
metadata of the files and a version tag, in fields of fixed width. The tables by file and by
original are not saved but rebuilt, and a file that ends before the tag counts as unstamped.
-/

namespace MinimaxCode.Sgix

open PyText OrderedDict Runs BinaryFormat ScopeIndex

/-- `b"SGIX"`. -/
def magic : Bytes := [83,71,73,88]

def version : ℕ := 1

/-- The start and the length of each string in the arena. -/
def arenaOffsets : ℕ → List Bytes → List (ℕ × ℕ)
  | _, [] => []
  | start, raw::rest => (start,raw.length)::arenaOffsets (start+raw.length) rest

def writeOffset (o : ℕ × ℕ) : Option Bytes := concat [pack 4 o.1,pack 2 o.2]

def writeInterner (n : StringInterner) : Option Bytes :=
  let arena := n.strings.flatten
  let offsets := arenaOffsets 0 n.strings
  concat ([pack 4 arena.length,some arena,pack 4 offsets.length]++offsets.map writeOffset)

def writeLocation (l : StringId × ℤ) : Option Bytes := concat [pack 4 l.1,pack 4 (min l.2 u32Max)]

def writeSymbol (kv : StringId × List (StringId × ℤ)) : Option Bytes :=
  concat ([pack 4 kv.1,pack 4 kv.2.length]++kv.2.map writeLocation)

def writeTable (forward : List (StringId × List (StringId × ℤ))) : Option Bytes :=
  concat (pack 4 forward.length::forward.map writeSymbol)

def writeAlias (a : StringId × StringId) : Option Bytes := concat [pack 4 a.1,pack 4 a.2]

def writeAliases (aliases : List (StringId × StringId)) : Option Bytes :=
  concat (pack 4 aliases.length::aliases.map writeAlias)

def writeFileMeta (kv : StringId × FileMeta) : Option Bytes :=
  concat [pack 4 kv.1,pack 8 kv.2.size,packSigned 8 kv.2.mtimeSecs,pack 4 kv.2.mtimeNanos]

def writeFileMetas (fileMeta : List (StringId × FileMeta)) : Option Bytes :=
  concat (pack 4 fileMeta.length::fileMeta.map writeFileMeta)

/-- What stands before the version tag. -/
def writeBody (i : ScopeGraphIndex) : Option Bytes :=
  concat [some magic,pack 2 version,writeInterner i.interner,writeTable i.definitions.forward,
    writeTable i.references.forward,writeAliases i.aliases,writeFileMetas i.fileMeta]

def writeQueryVersion : Option ℤ → Option Bytes
  | none => some [0]
  | some v => concat [some [1],pack 8 v]

/-- `write_to`; nothing when a field does not hold its number. -/
def writeTo (i : ScopeGraphIndex) : Option Bytes :=
  concat [writeBody i,writeQueryVersion i.queryVersion]

def readOffset : Reader (ℕ × ℕ) := do
  let start ← unpack 4
  let length ← unpack 2
  pure (start,length)

def internerFromArena (arena : Bytes) (offsets : List (ℕ × ℕ)) : StringInterner :=
  .fromParts (offsets.map fun o => (arena.drop o.1).take o.2)

def readInterner : Reader StringInterner := do
  let arenaLen ← unpack 4
  let arena ← readExact arenaLen
  let numOffsets ← unpack 4
  let offsets ← readMany readOffset numOffsets
  pure (internerFromArena arena offsets)

def readLocation : Reader (StringId × ℤ) := do
  let pathId ← unpack 4
  let line ← unpack 4
  pure (pathId,(line:ℤ))

def readSymbol : Reader (StringId × List (StringId × ℤ)) := do
  let symbolId ← unpack 4
  let numLocations ← unpack 4
  let locations ← readMany readLocation numLocations
  pure (symbolId,locations)

def readTable : Reader (List (StringId × List (StringId × ℤ))) := do
  let count ← unpack 4
  let entries ← readMany readSymbol count
  pure (ofItems entries)

def readAlias : Reader (StringId × StringId) := do
  let aliasId ← unpack 4
  let originalId ← unpack 4
  pure (aliasId,originalId)

def readAliases : Reader (List (StringId × StringId)) := do
  let count ← unpack 4
  readMany readAlias count

def readFileMeta : Reader (StringId × FileMeta) := do
  let pathId ← unpack 4
  let size ← unpack 8
  let mtimeSecs ← unpackSigned 8
  let mtimeNanos ← unpack 4
  pure (pathId,⟨size,mtimeSecs,mtimeNanos⟩)

def readFileMetas : Reader (List (StringId × FileMeta)) := do
  let count ← unpack 4
  let entries ← readMany readFileMeta count
  pure (ofItems entries)

/-- `d.setdefault(k, set()).add(x)`. -/
def addTo (d : List (StringId × List StringId)) (k x : StringId) : List (StringId × List StringId) :=
  let known := (lookup d k).getD []
  assign d k (if x ∈ known then known else known++[x])

/-- The symbols of each file. -/
def byFile (forward : List (StringId × List (StringId × ℤ))) : List (StringId × List StringId) :=
  forward.foldl (fun d kv => kv.2.foldl (fun d l => addTo d l.1 kv.1) d) []

/-- An index without its version stamp. The aliases come with their originals in the order in
which they were read. -/
def rebuild (interner : StringInterner) (definitions references : List (StringId × List (StringId × ℤ)))
    (aliases : List (StringId × StringId)) (fileMeta : List (StringId × FileMeta)) : ScopeGraphIndex :=
  { interner
    graphs := []
    definitions := ⟨definitions,byFile definitions⟩
    references := ⟨references,byFile references⟩
    aliases := ofItems aliases
    reverseAliases := aliases.foldl (fun d a => addTo d a.2 a.1) []
    fileMeta
    queryVersion := none }

def readHeader : Reader Unit := do
  let found ← readExact 4
  if found ≠ magic then failure
  let v ← unpack 2
  if v ≠ version then failure

def readBody : Reader ScopeGraphIndex := do
  readHeader
  let interner ← readInterner
  let definitions ← readTable
  let references ← readTable
  let aliases ← readAliases
  let fileMeta ← readFileMetas
  pure (rebuild interner definitions references aliases fileMeta)

/-- A missing or an unknown tag counts as no stamp. -/
def readQueryVersion : Reader (Option ℤ)
  | [] => some (none,[])
  | tag::rest => if tag = 1 then (unpack 8 rest).map fun r => (some (r.1:ℤ),r.2) else some (none,rest)

def readFrom : Reader ScopeGraphIndex := do
  let i ← readBody
  let queryVersion ← readQueryVersion
  pure {i with queryVersion}

variable {bs : Bytes} {i j : ScopeGraphIndex}

theorem reads_int {w : ℕ} {n : ℤ} (h : pack w n = some bs) : ∃ m : ℕ, (m:ℤ) = n ∧ Reads (unpack w) bs m := by
  have hn := isSome_pack.mp (Option.isSome_of_eq_some h)
  have hcast := Int.toNat_of_nonneg hn.1
  refine ⟨n.toNat,hcast,reads_pack ?_⟩
  rw [hcast]
  exact h

theorem reads_offset {o : ℕ × ℕ} (h : writeOffset o = some bs) : Reads readOffset bs o := by
  obtain ⟨b,r,hb,h₁,rfl⟩ := concat_cons.mp h
  obtain ⟨c,r₁,hc,h₂,rfl⟩ := concat_cons.mp h₁
  cases h₂
  exact (reads_pack hb).bind ((reads_pack hc).bind (.pure _))

theorem slices_arenaOffsets (pre : Bytes) (strings : List Bytes) :
    (arenaOffsets pre.length strings).map (fun o => ((pre++strings.flatten).drop o.1).take o.2) =
      strings := by
  induction strings generalizing pre with
  | nil => rfl
  | cons raw rest ih =>
    rw [arenaOffsets,List.map_cons,List.flatten_cons,← List.length_append,← List.append_assoc,ih,
      List.append_assoc,List.drop_left,List.take_left]

theorem length_arenaOffsets (start : ℕ) (strings : List Bytes) :
    (arenaOffsets start strings).length = strings.length := by
  induction strings generalizing start with
  | nil => rfl
  | cons raw rest ih => rw [arenaOffsets,List.length_cons,List.length_cons,ih]

theorem reads_interner {n : StringInterner} (hn : n.Valid) (h : writeInterner n = some bs) :
    Reads readInterner bs n := by
  obtain ⟨b,r,hb,h₁,rfl⟩ := concat_cons.mp h
  obtain ⟨_,r₁,⟨⟩,h₂,rfl⟩ := concat_cons.mp h₁
  obtain ⟨c,r₂,hc,h₃,rfl⟩ := concat_cons.mp h₂
  have hoffsets := reads_many (fun o _ _ => reads_offset) h₃
  have hback : internerFromArena n.strings.flatten (arenaOffsets 0 n.strings) = n := by
    have hslices := slices_arenaOffsets [] n.strings
    rw [List.nil_append,List.length_nil] at hslices
    rw [internerFromArena,hslices,StringInterner.fromParts,ofItems_of_nodup,← hn.index]
    rw [StringInterner.keys_zipIdx]
    exact hn.nodup
  have hread := hoffsets.map (internerFromArena n.strings.flatten)
  rw [hback] at hread
  exact (reads_pack hb).bind ((reads_exact rfl).bind ((reads_pack hc).bind hread))

theorem reads_location {l : StringId × ℤ} (hl : l.2 ≤ u32Max) (h : writeLocation l = some bs) :
    Reads readLocation bs l := by
  obtain ⟨b,r,hb,h₁,rfl⟩ := concat_cons.mp h
  obtain ⟨c,r₁,hc,h₂,rfl⟩ := concat_cons.mp h₁
  cases h₂
  rw [min_eq_left hl] at hc
  obtain ⟨m,hm,hread⟩ := reads_int hc
  have hback : l = (l.1,(m:ℤ)) := Prod.ext rfl hm.symm
  rw [hback]
  exact (reads_pack hb).bind (hread.bind (.pure _))

theorem reads_symbol {kv : StringId × List (StringId × ℤ)} (hl : ∀ l ∈ kv.2, l.2 ≤ u32Max)
    (h : writeSymbol kv = some bs) : Reads readSymbol bs kv := by
  obtain ⟨b,r,hb,h₁,rfl⟩ := concat_cons.mp h
  obtain ⟨c,r₁,hc,h₂,rfl⟩ := concat_cons.mp h₁
  have hlocs := reads_many (fun l hmem _ => reads_location (hl l hmem)) h₂
  exact (reads_pack hb).bind ((reads_pack hc).bind (hlocs.map fun locations => (kv.1,locations)))

theorem reads_table {forward : List (StringId × List (StringId × ℤ))} (hkeys : (keys forward).Nodup)
    (hl : ∀ kv ∈ forward, ∀ l ∈ kv.2, l.2 ≤ u32Max) (h : writeTable forward = some bs) :
    Reads readTable bs forward := by
  obtain ⟨b,r,hb,h₁,rfl⟩ := concat_cons.mp h
  have hentries := (reads_many (fun kv hmem _ => reads_symbol (hl kv hmem)) h₁).map ofItems
  rw [ofItems_of_nodup hkeys] at hentries
  exact (reads_pack hb).bind hentries

theorem reads_alias {a : StringId × StringId} (h : writeAlias a = some bs) : Reads readAlias bs a := by
  obtain ⟨b,r,hb,h₁,rfl⟩ := concat_cons.mp h
  obtain ⟨c,r₁,hc,h₂,rfl⟩ := concat_cons.mp h₁
  cases h₂
  exact (reads_pack hb).bind ((reads_pack hc).bind (.pure _))

theorem reads_aliases {aliases : List (StringId × StringId)} (h : writeAliases aliases = some bs) :
    Reads readAliases bs aliases := by
  obtain ⟨b,r,hb,h₁,rfl⟩ := concat_cons.mp h
  exact (reads_pack hb).bind (reads_many (fun _ _ _ => reads_alias) h₁)

theorem reads_fileMeta {kv : StringId × FileMeta} (h : writeFileMeta kv = some bs) :
    Reads readFileMeta bs kv := by
  obtain ⟨b,r,hb,h₁,rfl⟩ := concat_cons.mp h
  obtain ⟨c,r₁,hc,h₂,rfl⟩ := concat_cons.mp h₁
  obtain ⟨d,r₂,hd,h₃,rfl⟩ := concat_cons.mp h₂
  obtain ⟨e,r₃,he,h₄,rfl⟩ := concat_cons.mp h₃
  cases h₄
  obtain ⟨size,hsize,hreadSize⟩ := reads_int hc
  obtain ⟨nanos,hnanos,hreadNanos⟩ := reads_int he
  have hback : kv = (kv.1,⟨size,kv.2.mtimeSecs,nanos⟩) := by rw [hsize,hnanos]
  rw [hback]
  exact (reads_pack hb).bind (hreadSize.bind ((reads_packSigned hd).bind (hreadNanos.bind (.pure _))))

theorem reads_fileMetas {fileMeta : List (StringId × FileMeta)} (hkeys : (keys fileMeta).Nodup)
    (h : writeFileMetas fileMeta = some bs) : Reads readFileMetas bs fileMeta := by
  obtain ⟨b,r,hb,h₁,rfl⟩ := concat_cons.mp h
  have hentries := (reads_many (fun _ _ _ => reads_fileMeta) h₁).map ofItems
  rw [ofItems_of_nodup hkeys] at hentries
  exact (reads_pack hb).bind hentries

/-- What a read gives back of an index, but for its stamp. -/
def rebuilt (i : ScopeGraphIndex) : ScopeGraphIndex :=
  rebuild i.interner i.definitions.forward i.references.forward i.aliases i.fileMeta

theorem places_of_mem {t : Postings StringId StringId ℤ} (ht : t.Keyed)
    {kv : StringId × List (StringId × ℤ)} (h : kv ∈ t.forward) : t.places kv.1 = kv.2 := by
  rw [Postings.places,lookup_of_mem ht h,Option.getD_some]

theorem reads_header {b c : Bytes} (hb : some magic = some b) (hc : pack 2 version = some c) :
    Reads readHeader (b++c) () := by
  cases hb
  have hcheck : Reads (do let v ← unpack 2; if v ≠ version then failure) (c++[]) () :=
    (reads_pack hc).bind (reads_check (not_not.mpr rfl))
  rw [List.append_nil] at hcheck
  have hmagic : Reads (readExact 4) magic magic := reads_exact rfl
  refine hmagic.bind ?_
  rw [if_neg (not_not.mpr rfl)]
  exact hcheck

theorem reads_body (hi : i.Inv) (h : writeBody i = some bs) : Reads readBody bs (rebuilt i) := by
  obtain ⟨b,r,hb,h₁,rfl⟩ := concat_cons.mp h
  obtain ⟨c,r₁,hc,h₂,rfl⟩ := concat_cons.mp h₁
  obtain ⟨d,r₂,hd,h₃,rfl⟩ := concat_cons.mp h₂
  obtain ⟨e,r₃,he,h₄,rfl⟩ := concat_cons.mp h₃
  obtain ⟨f,r₄,hf,h₅,rfl⟩ := concat_cons.mp h₄
  obtain ⟨g,r₅,hg,h₆,rfl⟩ := concat_cons.mp h₅
  obtain ⟨k,r₆,hk,h₇,rfl⟩ := concat_cons.mp h₆
  cases h₇
  have hdefs := reads_table hi.dicts.definitions (fun kv hkv l hl => hi.dicts.definitionLines kv.1 l
    (places_of_mem hi.dicts.definitions hkv ▸ hl)) he
  have hrefs := reads_table hi.dicts.references (fun kv hkv l hl => hi.dicts.referenceLines kv.1 l
    (places_of_mem hi.dicts.references hkv ▸ hl)) hf
  rw [← List.append_assoc]
  exact (reads_header hb hc).bind ((reads_interner hi.interner hd).bind (hdefs.bind (hrefs.bind
    ((reads_aliases hg).bind ((reads_fileMetas hi.dicts.fileMeta hk).bind (.pure _))))))

theorem writeTo_eq_some_iff : writeTo i = some bs ↔
    ∃ body tag, writeBody i = some body ∧ writeQueryVersion i.queryVersion = some tag ∧ bs = body++tag := by
  rw [writeTo,concat_cons]
  refine exists_congr fun body => ⟨?_,?_⟩
  · rintro ⟨_,hbody,h,rfl⟩
    obtain ⟨tag,last,htag,hnil,rfl⟩ := concat_cons.mp h
    obtain rfl : last = [] := (Option.some.inj hnil).symm
    exact ⟨tag,hbody,htag,by rw [List.append_nil]⟩
  · rintro ⟨tag,hbody,htag,rfl⟩
    exact ⟨tag,hbody,concat_cons.mpr ⟨tag,[],htag,rfl,(List.append_nil tag).symm⟩,rfl⟩

theorem readQueryVersion_append {v : Option ℤ} {tag : Bytes} (h : writeQueryVersion v = some tag)
    (rest : Bytes) : readQueryVersion (tag++rest) = some (v,rest) := by
  cases v with
  | none =>
    cases h
    rfl
  | some v =>
    obtain ⟨b,r,hb,h₁,rfl⟩ := concat_cons.mp h
    obtain ⟨c,r₁,hc,h₂,rfl⟩ := concat_cons.mp h₁
    cases hb
    cases h₂
    obtain ⟨m,rfl,hread⟩ := reads_int hc
    change (unpack 8 ((c++[])++rest)).map _ = _
    rw [List.append_nil,hread.whole]
    rfl

theorem readFrom_of_body {p rest : Bytes} (h : readBody p = some (j,rest)) :
    readFrom p = (readQueryVersion rest).map fun r => ({j with queryVersion := r.1},r.2) := by
  change (readBody p).bind (fun x => (readQueryVersion x.2).bind fun y =>
    some ({x.1 with queryVersion := y.1},y.2)) = _
  rw [h,Option.bind_some,Option.map_eq_bind]
  rfl

theorem readFrom_writeTo (hi : i.Inv) (h : writeTo i = some bs) (rest : Bytes) :
    readFrom (bs++rest) = some ({rebuilt i with queryVersion := i.queryVersion},rest) := by
  obtain ⟨body,tag,hbody,htag,rfl⟩ := writeTo_eq_some_iff.mp h
  rw [List.append_assoc,readFrom_of_body ((reads_body hi hbody).whole (tag++rest)),
    readQueryVersion_append htag]
  rfl

theorem readFrom_cut (hi : i.Inv) (h : writeBody i = some bs) {p : Bytes} (hp : p <+: bs) (hne : p ≠ bs) :
    readFrom p = none := by
  change (readBody p).bind _ = none
  rw [(reads_body hi h).cut p hp hne]
  rfl

def TableFits (forward : List (StringId × List (StringId × ℤ))) : Prop :=
  forward.length < 2^32 ∧ ∀ kv ∈ forward, kv.2.length < 2^32 ∧ ∀ l ∈ kv.2, l.1 < 2^32 ∧ 0 ≤ l.2

/-- Every number has room in its field. -/
structure Fits (i : ScopeGraphIndex) : Prop where
  names : ∀ raw ∈ i.interner.strings, raw.length < 2^16
  arena : i.interner.strings.flatten.length < 2^32
  strings : i.interner.strings.length < 2^32
  definitions : TableFits i.definitions.forward
  references : TableFits i.references.forward
  aliases : i.aliases.length < 2^32
  files : i.fileMeta.length < 2^32
  fileMeta : ∀ kv ∈ i.fileMeta, 0 ≤ kv.2.size ∧ kv.2.size < 2^64 ∧ -2^63 ≤ kv.2.mtimeSecs ∧
    kv.2.mtimeSecs < 2^63 ∧ 0 ≤ kv.2.mtimeNanos ∧ kv.2.mtimeNanos < 2^32
  version : ∀ v, i.queryVersion = some v → 0 ≤ v ∧ v < 2^64

theorem isSome_pack_nat {w n : ℕ} : (pack w n).isSome ↔ n < 256^w := by
  rw [isSome_pack]
  refine (and_iff_right (Int.natCast_nonneg n)).trans ?_
  exact_mod_cast Iff.rfl

theorem isSome_concat_pair {a b : Option Bytes} : (concat [a,b]).isSome ↔ a.isSome ∧ b.isSome := by
  rw [isSome_concat]
  simp

theorem isSome_writeTable {forward : List (StringId × List (StringId × ℤ))} {n : ℕ} (hn : n < 2^32)
    (hids : ∀ kv ∈ forward, kv.1 < n) : (writeTable forward).isSome ↔ TableFits forward := by
  have hloc : ∀ l : StringId × ℤ, (writeLocation l).isSome ↔ l.1 < 2^32 ∧ 0 ≤ l.2 := by
    intro l
    have hwidth : (256:ℤ)^4 = 2^32 := by norm_num
    have hmin : 0 ≤ min l.2 u32Max ∧ min l.2 u32Max < 2^32 ↔ 0 ≤ l.2 := by
      rw [u32Max]
      omega
    rw [writeLocation,isSome_concat_pair,isSome_pack_nat,isSome_pack,hwidth,hmin]
    norm_num
  have hsymbol : ∀ kv ∈ forward, (writeSymbol kv).isSome ↔
      kv.2.length < 2^32 ∧ ∀ l ∈ kv.2, l.1 < 2^32 ∧ 0 ≤ l.2 := by
    intro kv hkv
    have hid := (hids kv hkv).trans hn
    rw [writeSymbol,isSome_concat]
    simp only [List.cons_append,List.nil_append,List.forall_mem_cons,List.forall_mem_map,isSome_pack_nat,hloc]
    exact ⟨fun h => h.2,fun h => ⟨by omega,h⟩⟩
  rw [writeTable,isSome_concat,List.forall_mem_cons,List.forall_mem_map,isSome_pack_nat]
  exact and_congr Iff.rfl (forall₂_congr hsymbol)

theorem arenaOffsets_le (start : ℕ) (strings : List Bytes) : ∀ o ∈ arenaOffsets start strings,
    o.1 ≤ start+strings.flatten.length := by
  induction strings generalizing start with
  | nil => exact fun _ h => absurd h List.not_mem_nil
  | cons raw rest ih =>
    intro o ho
    rw [List.flatten_cons,List.length_append]
    rcases List.mem_cons.mp ho with rfl | ho
    · exact Nat.le_add_right _ _
    · have hle := ih _ o ho
      omega

theorem arenaOffsets_lengths (start : ℕ) (strings : List Bytes) :
    (arenaOffsets start strings).map Prod.snd = strings.map List.length := by
  induction strings generalizing start with
  | nil => rfl
  | cons raw rest ih => rw [arenaOffsets,List.map_cons,List.map_cons,ih]

theorem isSome_writeInterner {n : StringInterner} : (writeInterner n).isSome ↔
    n.strings.flatten.length < 2^32 ∧ n.strings.length < 2^32 ∧ ∀ raw ∈ n.strings, raw.length < 2^16 := by
  have hoffset : ∀ o : ℕ × ℕ, (writeOffset o).isSome ↔ o.1 < 2^32 ∧ o.2 < 2^16 := by
    intro o
    rw [writeOffset,isSome_concat_pair,isSome_pack_nat,isSome_pack_nat]
    norm_num
  have hlengths : (∀ o ∈ arenaOffsets 0 n.strings, o.2 < 2^16) ↔ ∀ raw ∈ n.strings, raw.length < 2^16 := by
    rw [← List.forall_mem_map (f := Prod.snd) (P := (· < 2^16)),arenaOffsets_lengths,List.forall_mem_map]
  rw [writeInterner,isSome_concat]
  simp only [List.cons_append,List.nil_append,List.forall_mem_cons,List.forall_mem_map,isSome_pack_nat,
    hoffset,length_arenaOffsets,Option.isSome_some,true_and]
  have hwidth : 256^4 = 2^32 := by norm_num
  rw [hwidth]
  refine and_congr_right fun harena => and_congr_right fun _ => ?_
  rw [← hlengths]
  refine forall₂_congr fun o ho => and_iff_right ?_
  have hle := arenaOffsets_le 0 n.strings o ho
  omega

theorem isSome_writeAliases {aliases : List (StringId × StringId)} {n : ℕ} (hn : n < 2^32)
    (hids : ∀ a ∈ aliases, a.1 < n ∧ a.2 < n) : (writeAliases aliases).isSome ↔ aliases.length < 2^32 := by
  have halias : ∀ a ∈ aliases, (writeAlias a).isSome := by
    intro a ha
    obtain ⟨h₁,h₂⟩ := hids a ha
    rw [writeAlias,isSome_concat_pair,isSome_pack_nat,isSome_pack_nat]
    exact ⟨h₁.trans hn,h₂.trans hn⟩
  rw [writeAliases,isSome_concat,List.forall_mem_cons,List.forall_mem_map,isSome_pack_nat]
  exact and_iff_left halias

theorem isSome_writeFileMetas {fileMeta : List (StringId × FileMeta)} {n : ℕ} (hn : n < 2^32)
    (hids : ∀ kv ∈ fileMeta, kv.1 < n) : (writeFileMetas fileMeta).isSome ↔
      fileMeta.length < 2^32 ∧ ∀ kv ∈ fileMeta, 0 ≤ kv.2.size ∧ kv.2.size < 2^64 ∧
        -2^63 ≤ kv.2.mtimeSecs ∧ kv.2.mtimeSecs < 2^63 ∧ 0 ≤ kv.2.mtimeNanos ∧ kv.2.mtimeNanos < 2^32 := by
  have hmeta : ∀ kv ∈ fileMeta, (writeFileMeta kv).isSome ↔ 0 ≤ kv.2.size ∧ kv.2.size < 2^64 ∧
      -2^63 ≤ kv.2.mtimeSecs ∧ kv.2.mtimeSecs < 2^63 ∧ 0 ≤ kv.2.mtimeNanos ∧ kv.2.mtimeNanos < 2^32 := by
    intro kv hkv
    have hid : (pack 4 kv.1).isSome := isSome_pack_nat.mpr ((hids kv hkv).trans hn)
    rw [writeFileMeta,isSome_concat]
    simp only [List.forall_mem_cons,hid,isSome_pack,isSome_packSigned]
    norm_num
    omega
  rw [writeFileMetas,isSome_concat,List.forall_mem_cons,List.forall_mem_map,isSome_pack_nat]
  exact and_congr Iff.rfl (forall₂_congr hmeta)

theorem isSome_writeTo (hi : i.Inv) : (writeTo i).isSome ↔ Fits i := by
  have hdefs : ∀ kv ∈ i.definitions.forward, kv.1 < i.interner.strings.length := by
    intro kv hkv
    refine hi.symbols kv.1 (.inl ?_)
    rw [places_of_mem hi.dicts.definitions hkv]
    exact hi.definitions.nonempty kv.1 kv.2 (lookup_of_mem hi.dicts.definitions hkv)
  have hrefs : ∀ kv ∈ i.references.forward, kv.1 < i.interner.strings.length := by
    intro kv hkv
    refine hi.symbols kv.1 (.inr ?_)
    rw [places_of_mem hi.dicts.references hkv]
    exact hi.references.nonempty kv.1 kv.2 (lookup_of_mem hi.dicts.references hkv)
  have haliases : ∀ a ∈ i.aliases, a.1 < i.interner.strings.length ∧ a.2 < i.interner.strings.length :=
    fun a ha => hi.linked a.1 a.2 (lookup_of_mem hi.dicts.aliases ha)
  have hfiles : ∀ kv ∈ i.fileMeta, kv.1 < i.interner.strings.length :=
    fun kv hkv => hi.dicts.files kv.1 (List.mem_map_of_mem hkv)
  have hversion : (writeQueryVersion i.queryVersion).isSome ↔
      ∀ v, i.queryVersion = some v → 0 ≤ v ∧ v < 2^64 := by
    cases i.queryVersion with
    | none => exact iff_of_true rfl fun _ h => absurd h (Option.some_ne_none _).symm
    | some v =>
      rw [writeQueryVersion,isSome_concat_pair,isSome_pack]
      norm_num
  have hheader : (some magic).isSome ∧ (pack 2 version).isSome := by decide
  rw [writeTo,isSome_concat_pair,hversion,writeBody,isSome_concat]
  simp only [List.forall_mem_cons,hheader.1,hheader.2,isSome_writeInterner,true_and,List.not_mem_nil,
    false_imp_iff,implies_true,and_true]
  constructor
  · rintro ⟨⟨⟨harena,hstrings,hnames⟩,hd,hr,ha,hf⟩,hv⟩
    obtain ⟨hfiles,hmeta⟩ := (isSome_writeFileMetas hstrings hfiles).mp hf
    exact ⟨hnames,harena,hstrings,(isSome_writeTable hstrings hdefs).mp hd,
      (isSome_writeTable hstrings hrefs).mp hr,(isSome_writeAliases hstrings haliases).mp ha,hfiles,hmeta,hv⟩
  · intro h
    exact ⟨⟨⟨h.arena,h.strings,h.names⟩,(isSome_writeTable h.strings hdefs).mpr h.definitions,
      (isSome_writeTable h.strings hrefs).mpr h.references,
      (isSome_writeAliases h.strings haliases).mpr h.aliases,
      (isSome_writeFileMetas h.strings hfiles).mpr ⟨h.files,h.fileMeta⟩⟩,h.version⟩

/-- The same sets under the same keys. -/
def SameSets (d d' : List (StringId × List StringId)) : Prop :=
  ∀ k, ((lookup d k).isSome ↔ (lookup d' k).isSome) ∧
    ∀ x, x ∈ (lookup d k).getD [] ↔ x ∈ (lookup d' k).getD []

/-- The tables and the answers of two indexes, what depends on the aliases by original apart. -/
structure AlikeByName (i j : ScopeGraphIndex) : Prop where
  fileToDefs : SameSets i.definitions.reverse j.definitions.reverse
  fileToRefs : SameSets i.references.reverse j.references.reverse
  getStr : ∀ id, i.getStr id = j.getStr id
  getId : ∀ s, i.getId s = j.getId s
  findDefinitions : ∀ symbol, i.findDefinitions symbol = j.findDefinitions symbol
  findDefinitionsSmart : ∀ symbol context same,
    i.findDefinitionsSmart symbol context same = j.findDefinitionsSmart symbol context same
  findDefinitionsByExtension : ∀ symbol extensions,
    i.findDefinitionsByExtension symbol extensions = j.findDefinitionsByExtension symbol extensions
  hasDefinition : ∀ symbol, i.hasDefinition symbol = j.hasDefinition symbol
  getFileMeta : ∀ path, i.getFileMeta path = j.getFileMeta path
  isIndexed : ∀ path, i.isIndexed path = j.isIndexed path
  isFileStale : ∀ path current, i.isFileStale path current = j.isFileStale path current
  filePathsWithMeta : i.filePathsWithMeta = j.filePathsWithMeta
  indexedFiles : i.indexedFiles = j.indexedFiles
  fileCount : i.fileCount = j.fileCount
  stats : i.stats = j.stats
  aliasCount : i.aliasCount = j.aliasCount
  topReferencedSymbols : ∀ limit, i.topReferencedSymbols limit = j.topReferencedSymbols limit
  needsQueryRebuild : ∀ version, i.needsQueryRebuild version = j.needsQueryRebuild version

/-- All tables and answers. The order of a set is not the order in which it was filled, so what a
query takes out of the aliases of an original comes in any order. -/
structure Alike (i j : ScopeGraphIndex) : Prop extends AlikeByName i j where
  reverseAliases : SameSets i.reverseAliases j.reverseAliases
  findReferences : ∀ symbol, Option.Rel List.Perm (i.findReferences symbol) (j.findReferences symbol)
  findReferencesWithNames : ∀ symbol,
    Option.Rel List.Perm (i.findReferencesWithNames symbol) (j.findReferencesWithNames symbol)
  findReferencesSmart : ∀ symbol context same, Option.Rel List.Perm
    (i.findReferencesSmart symbol context same) (j.findReferencesSmart symbol context same)
  findReferencesByExtension : ∀ symbol extensions, Option.Rel List.Perm
    (i.findReferencesByExtension symbol extensions) (j.findReferencesByExtension symbol extensions)

theorem sameSets_of_members {d d' : List (StringId × List StringId)} {member : StringId → StringId → Prop}
    (h : ∀ k x, x ∈ (lookup d k).getD [] ↔ member k x) (h' : ∀ k x, x ∈ (lookup d' k).getD [] ↔ member k x)
    (hne : ∀ k xs, lookup d k = some xs → xs ≠ []) (hne' : ∀ k xs, lookup d' k = some xs → xs ≠ []) :
    SameSets d d' := by
  have hsome : ∀ {d : List (StringId × List StringId)}, (∀ k xs, lookup d k = some xs → xs ≠ []) →
      ∀ k, (lookup d k).isSome ↔ ∃ x, x ∈ (lookup d k).getD [] := by
    intro d hne k
    cases hl : lookup d k with
    | none => simp
    | some xs => simpa using List.exists_mem_of_ne_nil xs (hne k xs hl)
  refine fun k => ⟨?_,fun x => (h k x).trans (h' k x).symm⟩
  rw [hsome hne,hsome hne']
  exact exists_congr fun x => (h k x).trans (h' k x).symm

theorem lookup_addTo (d : List (StringId × List StringId)) (k x k' : StringId) :
    (∀ y, y ∈ (lookup (addTo d k x) k').getD [] ↔ y ∈ (lookup d k').getD [] ∨ k' = k ∧ y = x) ∧
    ((∀ xs, lookup d k' = some xs → xs ≠ []) → ∀ xs, lookup (addTo d k x) k' = some xs → xs ≠ []) := by
  rw [addTo,lookup_assign]
  by_cases hk : k = k'
  · subst hk
    rw [if_pos rfl]
    split
    · next hmem =>
      refine ⟨fun y => ?_,fun _ xs hxs => ?_⟩
      · rw [Option.getD_some]
        refine ⟨Or.inl,?_⟩
        rintro (hy | ⟨-,rfl⟩)
        · exact hy
        · exact hmem
      · cases hxs
        exact List.ne_nil_of_mem hmem
    · refine ⟨fun y => by simp,fun _ xs hxs => ?_⟩
      cases hxs
      exact List.append_ne_nil_of_right_ne_nil _ (List.cons_ne_nil _ _)
  · rw [if_neg hk]
    exact ⟨fun y => (or_iff_left fun h => hk h.1.symm).symm,fun h => h⟩

theorem lookup_foldl_addTo (pairs : List (StringId × StringId)) (k : StringId) :
    (∀ y, y ∈ (lookup (pairs.foldl (fun d p => addTo d p.1 p.2) []) k).getD [] ↔ (k,y) ∈ pairs) ∧
    ∀ xs, lookup (pairs.foldl (fun d p => addTo d p.1 p.2) []) k = some xs → xs ≠ [] := by
  induction pairs using List.reverseRecOn with
  | nil =>
    exact ⟨fun _ => iff_of_false List.not_mem_nil List.not_mem_nil,
      fun _ h => absurd h (Option.some_ne_none _).symm⟩
  | append_singleton pairs p ih =>
    obtain ⟨hmem,hne⟩ := lookup_addTo (pairs.foldl (fun d p => addTo d p.1 p.2) []) p.1 p.2 k
    rw [List.foldl_append,List.foldl_cons,List.foldl_nil]
    refine ⟨fun y => (hmem y).trans ?_,hne ih.2⟩
    rw [ih.1 y,List.mem_append,List.mem_singleton]
    exact or_congr_right Prod.mk_inj.symm

theorem byFile_eq (forward : List (StringId × List (StringId × ℤ))) : byFile forward =
    (forward.flatMap fun kv => kv.2.map fun l => (l.1,kv.1)).foldl (fun d p => addTo d p.1 p.2) [] := by
  rw [List.foldl_flatMap,byFile]
  refine congrArg (fun step => forward.foldl step []) (funext₂ fun d kv => ?_)
  rw [List.foldl_map]

theorem sameSets_byFile {t : Postings StringId StringId ℤ} (ht : t.Exact) (hkeyed : t.Keyed) :
    SameSets t.reverse (byFile t.forward) := by
  have hback := lookup_foldl_addTo (t.forward.flatMap fun kv => kv.2.map fun l => (l.1,kv.1))
  rw [← byFile_eq] at hback
  refine sameSets_of_members (fun k x => Iff.rfl) (fun k x => ?_) ht.inhabited fun k => (hback k).2
  rw [(hback k).1]
  change _ ↔ x ∈ t.keysOf k
  rw [ht.inverse]
  simp only [List.mem_flatMap,List.mem_map,Prod.mk.injEq]
  constructor
  · rintro ⟨kv,hkv,l,hl,rfl,rfl⟩
    exact ⟨l,(places_of_mem hkeyed hkv).symm ▸ hl,rfl⟩
  · rintro ⟨l,hl,rfl⟩
    have hlocs : lookup t.forward x = some (t.places x) := by
      rw [Postings.places] at hl ⊢
      cases hx : lookup t.forward x with
      | none =>
        rw [hx] at hl
        exact absurd hl List.not_mem_nil
      | some locs => rfl
    exact ⟨(x,t.places x),mem_of_lookup hlocs,l,hl,rfl,rfl⟩

theorem sameSets_reverseAliases (ha : i.AliasesExact) (hkeys : (keys i.aliases).Nodup) :
    SameSets i.reverseAliases (i.aliases.foldl (fun d a => addTo d a.2 a.1) []) := by
  have hback := lookup_foldl_addTo (i.aliases.map Prod.swap)
  rw [List.foldl_map] at hback
  refine sameSets_of_members (fun k x => ha.inverse x k) (fun k x => ?_) ha.inhabited fun k => (hback k).2
  refine ((hback k).1 x).trans ?_
  rw [List.mem_map]
  constructor
  · rintro ⟨a,hmem,hswap⟩
    cases hswap
    exact lookup_of_mem hkeys hmem
  · intro hl
    exact ⟨(x,k),mem_of_lookup hl,rfl⟩

theorem rel_perm_query {R : Type} {answer answer' : StringId → List R} (symbol : PyStr)
    (hinterner : i.interner = j.interner) (h : ∀ id, (answer id).Perm (answer' id)) :
    Option.Rel List.Perm (i.query symbol answer) (j.query symbol answer') := by
  rw [ScopeGraphIndex.query,ScopeGraphIndex.query,← hinterner]
  cases utf8 symbol with
  | none => exact .none
  | some raw =>
    refine .some ?_
    dsimp only
    cases lookup i.interner.index raw with
    | none => exact .refl _
    | some id => exact h id

theorem rel_perm_map {R R' : Type} {r r' : Option (List R)} {f : List R → List R'}
    (hf : ∀ xs ys, xs.Perm ys → (f xs).Perm (f ys)) (h : Option.Rel List.Perm r r') :
    Option.Rel List.Perm (r.map f) (r'.map f) := by
  cases h with
  | none => exact .none
  | some h => exact .some (hf _ _ h)

theorem rank_perm {R : Type} (same : PyStr → PyStr → Bool) (pathOf : R → PyStr) (context : Option PyStr)
    {xs ys : List R} (h : xs.Perm ys) : (rank same pathOf context xs).Perm (rank same pathOf context ys) := by
  cases context with
  | none => exact h
  | some c => exact (List.mergeSort_perm _ _).trans (h.trans (List.mergeSort_perm _ _).symm)

theorem perm_referenceSources (haliases : i.aliases = j.aliases)
    (hrev : SameSets i.reverseAliases j.reverseAliases) (id : StringId) :
    (i.referenceSources id).Perm (j.referenceSources id) := by
  rw [ScopeGraphIndex.referenceSources,ScopeGraphIndex.referenceSources,
    List.perm_ext_iff_of_nodup (nodup_keys_ofItems _) (nodup_keys_ofItems _)]
  intro x
  rw [ScopeGraphIndex.mem_fromkeys,ScopeGraphIndex.mem_fromkeys,haliases,List.mem_append,List.mem_append,
    (hrev id).2]

theorem alikeByName_of_eq (hinterner : i.interner = j.interner)
    (hdefs : i.definitions.forward = j.definitions.forward)
    (hrefs : i.references.forward = j.references.forward) (haliases : i.aliases = j.aliases)
    (hmeta : i.fileMeta = j.fileMeta) (hversion : i.queryVersion = j.queryVersion)
    (hd : SameSets i.definitions.reverse j.definitions.reverse)
    (hr : SameSets i.references.reverse j.references.reverse) : AlikeByName i j := by
  obtain ⟨n,g,⟨df,dr⟩,⟨rf,rr⟩,al,rev,fm,qv⟩ := i
  obtain ⟨n',g',⟨df',dr'⟩,⟨rf',rr'⟩,al',rev',fm',qv'⟩ := j
  obtain rfl : n = n' := hinterner
  obtain rfl : df = df' := hdefs
  obtain rfl : rf = rf' := hrefs
  obtain rfl : al = al' := haliases
  obtain rfl : fm = fm' := hmeta
  obtain rfl : qv = qv' := hversion
  exact {
    fileToDefs := hd
    fileToRefs := hr
    getStr := fun _ => rfl
    getId := fun _ => rfl
    findDefinitions := fun _ => rfl
    findDefinitionsSmart := fun _ _ _ => rfl
    findDefinitionsByExtension := fun _ _ => rfl
    hasDefinition := fun _ => rfl
    getFileMeta := fun _ => rfl
    isIndexed := fun _ => rfl
    isFileStale := fun _ _ => rfl
    filePathsWithMeta := rfl
    indexedFiles := rfl
    fileCount := rfl
    stats := rfl
    aliasCount := rfl
    topReferencedSymbols := fun _ => rfl
    needsQueryRebuild := fun _ => rfl }

theorem AlikeByName.alike (h : AlikeByName i j) (hinterner : i.interner = j.interner)
    (hrefs : i.references.forward = j.references.forward) (haliases : i.aliases = j.aliases)
    (ha : SameSets i.reverseAliases j.reverseAliases) : Alike i j := by
  have hsources := perm_referenceSources haliases ha
  obtain ⟨n,g,ds,⟨rf,rr⟩,al,rev,fm,qv⟩ := i
  obtain ⟨n',g',ds',⟨rf',rr'⟩,al',rev',fm',qv'⟩ := j
  obtain rfl : n = n' := hinterner
  obtain rfl : rf = rf' := hrefs
  have hnamed : ∀ symbol, Option.Rel List.Perm
      (ScopeGraphIndex.findReferencesWithNames ⟨n,g,ds,⟨rf,rr⟩,al,rev,fm,qv⟩ symbol)
      (ScopeGraphIndex.findReferencesWithNames ⟨n,g',ds',⟨rf,rr'⟩,al',rev',fm',qv'⟩ symbol) :=
    fun symbol => rel_perm_query symbol rfl fun id => (hsources id).flatMap_right _
  exact {
    h with
    reverseAliases := ha
    findReferences := fun symbol => rel_perm_query symbol rfl fun id => (hsources id).flatMap_right _
    findReferencesWithNames := hnamed
    findReferencesSmart := fun symbol context same =>
      rel_perm_map (fun _ _ => rank_perm same _ context) (hnamed symbol)
    findReferencesByExtension := fun symbol _ => rel_perm_map (fun _ _ h => h.filter _) (hnamed symbol) }

/-- Every index that the operations build can be written exactly when its numbers fit. Its output,
with anything behind it, is read as an index that answers alike, provided that the aliases by
original were still right; the part before the version tag is read as an unstamped index, and
no less than that is accepted. -/
theorem round_trip (ops : List Op) :
    ((writeTo (ScopeGraphIndex.after ops)).isSome ↔ Fits (ScopeGraphIndex.after ops)) ∧
    ∀ bs, writeTo (ScopeGraphIndex.after ops) = some bs →
      ∃ j body, body <+: bs ∧ writeBody (ScopeGraphIndex.after ops) = some body ∧
        (∀ rest, readFrom (bs++rest) = some (j,rest)) ∧ AlikeByName (ScopeGraphIndex.after ops) j ∧
        ((ScopeGraphIndex.after ops).AliasesExact → Alike (ScopeGraphIndex.after ops) j) ∧
        readFrom body = some ({j with queryVersion := none},[]) ∧
        ∀ p, p <+: body → p ≠ body → readFrom p = none := by
  have hi := ScopeGraphIndex.inv_after ops
  refine ⟨isSome_writeTo hi,fun bs h => ?_⟩
  obtain ⟨body,tag,hbody,-,rfl⟩ := writeTo_eq_some_iff.mp h
  have hofItems : ofItems (ScopeGraphIndex.after ops).aliases = (ScopeGraphIndex.after ops).aliases :=
    ofItems_of_nodup hi.dicts.aliases
  have hnamed : AlikeByName (ScopeGraphIndex.after ops) {rebuilt (ScopeGraphIndex.after ops) with
      queryVersion := (ScopeGraphIndex.after ops).queryVersion} :=
    alikeByName_of_eq rfl rfl rfl hofItems.symm rfl rfl
      (sameSets_byFile hi.definitions hi.dicts.definitions)
      (sameSets_byFile hi.references hi.dicts.references)
  refine ⟨_,body,List.prefix_append body tag,hbody,readFrom_writeTo hi h,hnamed,fun ha => ?_,?_,
    fun p => readFrom_cut hi hbody⟩
  · exact hnamed.alike rfl rfl hofItems.symm (sameSets_reverseAliases ha hi.dicts.aliases)
  · have hwhole := (reads_body hi hbody).whole []
    rw [List.append_nil] at hwhole
    rw [readFrom_of_body hwhole]
    rfl

theorem round_trip_definition : ∃ bs j,
    writeTo (ScopeGraphIndex.after [.addDefinition (lit "f") (lit "a.py") 3]) = some bs ∧
      (∀ rest, readFrom (bs++rest) = some (j,rest)) ∧
      Alike (ScopeGraphIndex.after [.addDefinition (lit "f") (lit "a.py") 3]) j := by
  have hsome : (writeTo (ScopeGraphIndex.after [.addDefinition (lit "f") (lit "a.py") 3])).isSome := by
    decide
  obtain ⟨bs,hbs⟩ := Option.isSome_iff_exists.mp hsome
  obtain ⟨j,-,-,-,hread,-,halike,-⟩ := (round_trip [.addDefinition (lit "f") (lit "a.py") 3]).2 bs hbs
  refine ⟨bs,j,hbs,hread,halike ?_⟩
  exact Observed.aliasesExact_of_keeps
    (ScopeGraphIndex.keeps_apply .new (.addDefinition (lit "f") (lit "a.py") 3) fun _ _ => Op.noConfusion)
    Observed.Consistent.new.aliases

theorem mem_strings_addDefinition (hi : i.Inv) {symbol path : PyStr} {raw : Bytes}
    (hraw : utf8 symbol = some raw) (hpath : (i.intern path).isSome) (line : ℤ) :
    raw ∈ (i.addDefinition symbol path line).1.interner.strings := by
  obtain ⟨r,hp⟩ := Option.isSome_iff_exists.mp hpath
  obtain ⟨hi₁,-,-⟩ := hi.intern hp
  rw [ScopeGraphIndex.addDefinition,hp]
  dsimp only
  rw [ScopeGraphIndex.addDefinitionWithPathId,ScopeGraphIndex.intern,hraw,Option.map_some]
  have htext : (fromUtf8 raw).isSome := by rw [fromUtf8_eq_some_iff.mpr hraw]; rfl
  exact List.mem_of_getElem? (hi₁.interner.internBytes htext).2.2

theorem utf8_replicate (n : ℕ) : utf8 (List.replicate n (ch 'a')) = some (List.replicate n 97) := by
  have hencode : TextMode.encode (List.replicate n (ch 'a')) = some (List.replicate n 'a').utf8Encode :=
    TextMode.encode_eq_some_iff.mpr ⟨List.replicate n 'a',List.map_replicate.symm,rfl⟩
  have hchar : String.utf8EncodeChar 'a' = [97] := rfl
  rw [utf8,hencode,Option.map_some,List.utf8Encode,List.flatMap_replicate,hchar,
    List.flatten_replicate_singleton,List.data_toByteArray]

theorem name_not_written {n : ℕ} (h : 2^16 ≤ n) : writeTo (ScopeGraphIndex.after
    [.addDefinition (List.replicate n (ch 'a')) (lit "a.py") 1]) = none := by
  rw [← Option.not_isSome_iff_eq_none,isSome_writeTo (ScopeGraphIndex.inv_after _)]
  intro hfits
  have hpath : (ScopeGraphIndex.new.intern (lit "a.py")).isSome := by decide
  have hmem := mem_strings_addDefinition .new (utf8_replicate n) hpath 1
  have hlong := hfits.names _ hmem
  rw [List.length_replicate] at hlong
  omega

theorem long_name_not_written :
    writeTo (ScopeGraphIndex.after [.addDefinition (List.replicate 65536 (ch 'a')) (lit "a.py") 1]) =
      none :=
  name_not_written (le_refl _)

end MinimaxCode.Sgix
