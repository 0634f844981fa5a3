import MinimaxCode.ScopeIndex

/-!
# What symbol queries find

The history of an index is the list of what was recorded in it and not removed, and of all
the links from an alias to an original. A symbol query finds what the history holds for the
symbol, its original and, for references, its aliases.
-/

namespace MinimaxCode.ScopeIndex

open PyText OrderedDict

/-- A symbol, the id of a path and a line. -/
abbrev Record := PyStr × StringId × ℤ

/-- The definitions and references that were recorded and not removed, and every link from an
alias to an original. -/
structure History where
  definitions : List Record
  references : List Record
  links : List (PyStr × PyStr)

namespace History

def new : History := ⟨[],[],[]⟩

def encodable (s : PyStr) : Bool := (utf8 s).isSome

/-- The occurrences of a graph up to a name that cannot be encoded. -/
def ofGraph (pathId : StringId) (occurrences : List (PyStr × ℤ)) : List Record :=
  (occurrences.takeWhile fun o => encodable o.1).map fun o => (o.1,pathId,saturateLine (o.2+1))

def addDefinition (h : History) (symbol : PyStr) (pathId : StringId) (line : ℤ) : History :=
  if encodable symbol then
    {h with definitions := h.definitions++[(symbol,pathId,saturateLine line)]} else h

def addReference (h : History) (symbol : PyStr) (pathId : StringId) (line : ℤ) : History :=
  if encodable symbol then
    {h with references := h.references++[(symbol,pathId,saturateLine line)]} else h

def removePath (h : History) (pathId : StringId) : History :=
  {h with
    definitions := h.definitions.filter fun r => r.2.1 ≠ pathId
    references := h.references.filter fun r => r.2.1 ≠ pathId}

def movePath (h : History) (fromId toId : StringId) : History :=
  {h with
    definitions := h.definitions.map fun r => (r.1,Postings.relabel fromId toId r.2)
    references := h.references.map fun r => (r.1,Postings.relabel fromId toId r.2)}

/-- What an operation on an index adds to its history and takes from it. -/
def step (i : ScopeGraphIndex) (h : History) : Op → History
  | .addFile filePath graph =>
    match i.intern filePath with
    | some (pathId,_) =>
      {h with
        definitions := h.definitions++ofGraph pathId graph.definitions
        references := h.references++
          if graph.definitions.all fun o => encodable o.1 then ofGraph pathId graph.references
          else []}
    | none => h
  | .addDefinition symbol path line =>
    match i.intern path with
    | some (pathId,_) => h.addDefinition symbol pathId line
    | none => h
  | .addReference symbol path line =>
    match i.intern path with
    | some (pathId,_) => h.addReference symbol pathId line
    | none => h
  | .addDefinitionWithPathId symbol pathId line => h.addDefinition symbol pathId line
  | .addReferenceWithPathId symbol pathId line => h.addReference symbol pathId line
  | .addAlias aliasName originalName =>
    if encodable aliasName ∧ encodable originalName then
      {h with links := h.links++[(aliasName,originalName)]} else h
  | .removeFile filePath =>
    match i.getId filePath with
    | some pathId => h.removePath pathId
    | none => h
  | .renameFile fromPath toPath =>
    match i.getId fromPath,i.intern toPath with
    | some fromId,some (toId,_) => h.movePath fromId toId
    | _,_ => h
  | _ => h

/-- The history of a sequence of operations. -/
def after (ops : List Op) : History :=
  (ops.foldl (fun s op => ((s.1.apply op).1,step s.1 s.2 op)) (ScopeGraphIndex.new,new)).2

/-- The original that an alias points to now. -/
def target (h : History) (s : PyStr) : Option PyStr :=
  (h.links.reverse.find? fun l => l.1 = s).map Prod.snd

/-- The places that the records of a name hold. -/
def places (records : List Record) (name : PyStr) : List (StringId × ℤ) :=
  (records.filter fun r => r.1 = name).map Prod.snd

end History

/-- The name is the symbol or its original. -/
def DefinitionSource (h : History) (symbol name : PyStr) : Prop :=
  name = symbol ∨ h.target symbol = some name

/-- The name is the symbol, its original or an alias that points to it now. -/
def ReferenceSource (h : History) (symbol name : PyStr) : Prop :=
  name = symbol ∨ h.target symbol = some name ∨ h.target name = some symbol

/-- The file is in the language family of the context. -/
def inFamily (same : PyStr → PyStr → Bool) (context path : PyStr) : Bool :=
  decide (extOf path = extOf context) || same (extOf path) (extOf context)

/-- Nothing outside the family of the context is before something in it. -/
def FamilyFirst {R : Type} (same : PyStr → PyStr → Bool) (context : Option PyStr)
    (pathOf : R → PyStr) (results : List R) : Prop :=
  ∀ c ∈ context, results.Pairwise fun r r' =>
    inFamily same c (pathOf r') = true → inFamily same c (pathOf r) = true

/-- Both queries give exactly what the history holds for their sources, once, the family of
the context first. -/
structure ExactQueries (i : ScopeGraphIndex) (h : History) (symbol : PyStr)
    (context : Option PyStr) (same : PyStr → PyStr → Bool) : Prop where
  definitions : ∃ locs, i.findDefinitionsSmart symbol context same = some locs ∧
    (∀ l, l ∈ locs ↔ ∃ name, DefinitionSource h symbol name ∧
      l ∈ i.located (History.places h.definitions name)) ∧
    locs.Nodup ∧ FamilyFirst same context Prod.fst locs
  references : ∃ refs, i.findReferencesSmart symbol context same = some refs ∧
    (∀ r, r ∈ refs ↔ ReferenceSource h symbol r.1 ∧
      r.2 ∈ i.located (History.places h.references r.1)) ∧
    refs.Nodup ∧ FamilyFirst same context (fun r => r.2.1) refs

/-- The symbol can be encoded, an alias that no longer points to it has no references, and no
source of its references has two of them on one line. -/
structure Clean (i : ScopeGraphIndex) (h : History) (symbol : PyStr) : Prop where
  encodes : (utf8 symbol).isSome
  current : ∀ name, (name,symbol) ∈ h.links → ¬ReferenceSource h symbol name →
    i.located (History.places h.references name) = []
  distinct : ∀ name, ReferenceSource h symbol name →
    (i.located (History.places h.references name)).Nodup

section Holding

variable {i j : ScopeGraphIndex} {t : Postings StringId StringId ℤ} {records : List Record}
  {links : List (PyStr × PyStr)} {symbol aliasName original s s' : PyStr}
  {id symbolId aliasId originalId : StringId}

/-- What a table of the index says of a name. -/
def ScopeGraphIndex.ofName {β : Type} (i : ScopeGraphIndex) (default : β) (table : StringId → β)
    (s : PyStr) : β :=
  (i.getId s).elim default table

theorem ofName_of_getId {β : Type} {default : β} {table : StringId → β}
    (h : i.getId s = some id) : i.ofName default table s = table id := by
  rw [ScopeGraphIndex.ofName,h,Option.elim_some]

theorem ofName_default {β : Type} {default : β} {table : StringId → β}
    (h : ∀ id, table id = default) (i : ScopeGraphIndex) (s : PyStr) :
    i.ofName default table s = default := by
  cases hs : i.getId s with
  | none => rw [ScopeGraphIndex.ofName,hs,Option.elim_none]
  | some id => rw [ofName_of_getId hs,h]

theorem ofName_grow {β : Type} {default : β} {table : StringId → β} (hi : i.Inv) (hj : j.Inv)
    (hmore : i.interner.strings <+: j.interner.strings)
    (htable : ∀ id, table id ≠ default → id < i.interner.strings.length) (s : PyStr) :
    j.ofName default table s = i.ofName default table s := by
  cases hs : j.getId s with
  | none =>
    cases hs' : i.getId s with
    | none => rw [ScopeGraphIndex.ofName,ScopeGraphIndex.ofName,hs,hs']
    | some id =>
      rw [ScopeGraphIndex.getId_mono hi hj hmore hs'] at hs
      cases hs
  | some id =>
    rw [ofName_of_getId hs]
    by_cases hlt : id < i.interner.strings.length
    · rw [ofName_of_getId (ScopeGraphIndex.getId_of_lt hi hj hmore hs hlt)]
    · have hdefault : table id = default := by
        by_contra hne
        exact hlt (htable id hne)
      cases hs' : i.getId s with
      | none => rw [hdefault,ScopeGraphIndex.ofName,hs',Option.elim_none]
      | some id' =>
        obtain rfl : id' = id :=
          Option.some.inj ((ScopeGraphIndex.getId_mono hi hj hmore hs').symm.trans hs)
        exact absurd (ScopeGraphIndex.lt_of_getId hi hs') hlt

theorem getId_inj (hi : i.Inv) (h : i.getId s = some id) (h' : i.getId s' = some id) : s = s' := by
  rw [← hi.getStr_iff] at h h'
  exact Option.some.inj (h.symm.trans h')

/-- The table has the places of the records, name by name. -/
def Holds (i : ScopeGraphIndex) (t : Postings StringId StringId ℤ) (records : List Record) : Prop :=
  ∀ s, i.ofName [] t.places s = History.places records s

theorem Holds.grow (h : Holds i t records) (hi : i.Inv) (hj : j.Inv)
    (hmore : i.interner.strings <+: j.interner.strings)
    (ht : ∀ k, t.places k ≠ [] → k < i.interner.strings.length) : Holds j t records :=
  fun s => (ofName_grow hi hj hmore ht s).trans (h s)

theorem places_concat (records : List Record) (r : Record) (s : PyStr) :
    History.places (records++[r]) s =
      History.places records s++if r.1 = s then [r.2] else [] := by
  by_cases hr : r.1 = s <;> simp [History.places,hr]

theorem Holds.add (h : Holds i t records) (hi : i.Inv) (hid : i.getId symbol = some symbolId)
    (pathId : StringId) (line : ℤ) :
    Holds i (t.add symbolId pathId line) (records++[(symbol,pathId,line)]) := by
  intro s
  rw [places_concat,← h s]
  cases hs : i.getId s with
  | none =>
    have hne : symbol ≠ s := by
      rintro rfl
      rw [hid] at hs
      cases hs
    rw [ScopeGraphIndex.ofName,ScopeGraphIndex.ofName,hs,if_neg hne]
    rfl
  | some id =>
    rw [ofName_of_getId hs,ofName_of_getId hs,Postings.places_add]
    by_cases heq : symbolId = id
    · subst heq
      rw [if_pos rfl,if_pos (getId_inj hi hid hs)]
    · have hne : symbol ≠ s := by
        rintro rfl
        exact heq (Option.some.inj (hid.symm.trans hs))
      rw [if_neg heq,if_neg hne,List.append_nil]

theorem places_filter (records : List Record) (p : StringId × ℤ → Bool) (s : PyStr) :
    History.places (records.filter fun r => p r.2) s = (History.places records s).filter p := by
  simp only [History.places,List.filter_filter,List.filter_map]
  congr 1
  apply List.filter_congr
  intro r _
  simp [Bool.and_comm]

theorem Holds.prune (h : Holds i t records) (ht : t.Sound) (pathId : StringId) :
    Holds i (t.prune pathId) (records.filter fun r => r.2.1 ≠ pathId) := by
  intro s
  rw [places_filter records (fun l => decide (l.1 ≠ pathId)),← h s]
  cases hs : i.getId s with
  | none =>
    rw [ScopeGraphIndex.ofName,ScopeGraphIndex.ofName,hs]
    rfl
  | some id => rw [ofName_of_getId hs,ofName_of_getId hs,Postings.places_prune ht]

theorem Holds.move (h : Holds i t records) (ht : t.Exact) (fromId toId : StringId) :
    Holds i (t.move fromId toId)
      (records.map fun r => (r.1,Postings.relabel fromId toId r.2)) := by
  intro s
  have hplaces : History.places (records.map fun r => (r.1,Postings.relabel fromId toId r.2)) s =
      (History.places records s).map (Postings.relabel fromId toId) := by
    simp only [History.places,List.filter_map,List.map_map]
    rfl
  rw [hplaces,← h s]
  cases hs : i.getId s with
  | none =>
    rw [ScopeGraphIndex.ofName,ScopeGraphIndex.ofName,hs]
    rfl
  | some id => rw [ofName_of_getId hs,ofName_of_getId hs,Postings.places_move ht]

/-- The ids that are aliases of an id. -/
def ScopeGraphIndex.aliasesOf (i : ScopeGraphIndex) (id : StringId) : List StringId :=
  (lookup i.reverseAliases id).getD []

/-- The tables of the aliases have the last link of each name and all the links to it. -/
structure HoldsLinks (i : ScopeGraphIndex) (links : List (PyStr × PyStr)) : Prop where
  target : ∀ s, i.ofName none (fun id => (lookup i.aliases id).bind i.getStr) s =
    History.target ⟨[],[],links⟩ s
  linked : ∀ a s, (a,s) ∈ links ↔
    ∃ aliasId id, i.getStr aliasId = some a ∧ i.getId s = some id ∧ aliasId ∈ i.aliasesOf id
  known : ∀ id, ∀ aliasId ∈ i.aliasesOf id,
    aliasId < i.interner.strings.length ∧ id < i.interner.strings.length

theorem getStr_grow (hi : i.Inv) (hj : j.Inv) (hmore : i.interner.strings <+: j.interner.strings)
    (hlt : id < i.interner.strings.length) : j.getStr id = i.getStr id := by
  obtain ⟨name,hname⟩ := hi.text hlt
  rw [hname,hj.getStr_iff]
  exact ScopeGraphIndex.getId_mono hi hj hmore (hi.getStr_iff.mp hname)

theorem HoldsLinks.grow (h : HoldsLinks i links) (hi : i.Inv) (hj : j.Inv)
    (hmore : i.interner.strings <+: j.interner.strings) (haliases : j.aliases = i.aliases)
    (hreverse : j.reverseAliases = i.reverseAliases) : HoldsLinks j links := by
  have hof : ∀ id, j.aliasesOf id = i.aliasesOf id := by
    intro id
    rw [ScopeGraphIndex.aliasesOf,hreverse,ScopeGraphIndex.aliasesOf]
  refine ⟨fun s => ?_,fun a s => ?_,fun id aliasId hmem => ?_⟩
  · have htable : (fun id => (lookup j.aliases id).bind j.getStr) =
        fun id => (lookup i.aliases id).bind i.getStr := by
      funext id
      rw [haliases]
      cases hl : lookup i.aliases id with
      | none => rfl
      | some original => exact getStr_grow hi hj hmore (hi.linked id original hl).2
    rw [htable,← h.target s]
    refine ofName_grow hi hj hmore (fun id hne => ?_) s
    cases hl : lookup i.aliases id with
    | none =>
      rw [hl] at hne
      exact absurd rfl hne
    | some original => exact (hi.linked id original hl).1
  · rw [h.linked]
    constructor
    · rintro ⟨aliasId,id,ha,hs,hmem⟩
      refine ⟨aliasId,id,?_,ScopeGraphIndex.getId_mono hi hj hmore hs,by rwa [hof]⟩
      rw [getStr_grow hi hj hmore (h.known id aliasId hmem).1,ha]
    · rintro ⟨aliasId,id,ha,hs,hmem⟩
      rw [hof] at hmem
      obtain ⟨halt,hlt⟩ := h.known id aliasId hmem
      refine ⟨aliasId,id,?_,ScopeGraphIndex.getId_of_lt hi hj hmore hs hlt,hmem⟩
      rw [← getStr_grow hi hj hmore halt,ha]
  · rw [hof] at hmem
    exact (h.known id aliasId hmem).imp (·.trans_le hmore.length_le) (·.trans_le hmore.length_le)

theorem target_concat (links : List (PyStr × PyStr)) (a o s : PyStr) :
    History.target ⟨[],[],links++[(a,o)]⟩ s =
      if a = s then some o else History.target ⟨[],[],links⟩ s := by
  by_cases ha : a = s <;> simp [History.target,ha]

theorem mem_aliasesOf_linkAlias (aliasId originalId a o : StringId) :
    a ∈ (i.linkAlias aliasId originalId).aliasesOf o ↔
      a ∈ i.aliasesOf o ∨ a = aliasId ∧ o = originalId := by
  rw [ScopeGraphIndex.aliasesOf,ScopeGraphIndex.lookup_reverseAliases_linkAlias,
    ScopeGraphIndex.aliasesOf]
  by_cases ho : originalId = o
  · subst ho
    rw [if_pos rfl]
    split
    · next hmem =>
      constructor
      · exact Or.inl
      · rintro (h | ⟨rfl,-⟩)
        · exact h
        · exact hmem
    · simp
  · rw [if_neg ho]
    exact (or_iff_left fun h => ho h.2.symm).symm

theorem HoldsLinks.link (h : HoldsLinks i links) (hi : i.Inv)
    (ha : i.getId aliasName = some aliasId) (ho : i.getId original = some originalId) :
    HoldsLinks (i.linkAlias aliasId originalId) (links++[(aliasName,original)]) := by
  have hstr : i.getStr aliasId = some aliasName := hi.getStr_iff.mpr ha
  have haliasLt := ScopeGraphIndex.lt_of_getId hi ha
  have horiginalLt := ScopeGraphIndex.lt_of_getId hi ho
  have hget : ∀ s, (i.linkAlias aliasId originalId).getId s = i.getId s := fun _ => rfl
  have hname : ∀ id, (i.linkAlias aliasId originalId).getStr id = i.getStr id := fun _ => rfl
  have hlookup : ∀ id, lookup (i.linkAlias aliasId originalId).aliases id =
      if aliasId = id then some originalId else lookup i.aliases id :=
    fun id => lookup_assign _ _ _ _
  refine ⟨fun s => ?_,fun a s => ?_,fun id x hx => ?_⟩
  · rw [target_concat,← h.target s]
    cases hs : i.getId s with
    | none =>
      have hne : aliasName ≠ s := by
        rintro rfl
        rw [ha] at hs
        cases hs
      rw [ScopeGraphIndex.ofName,ScopeGraphIndex.ofName,hget,hs,if_neg hne]
      rfl
    | some id =>
      rw [ofName_of_getId hs,ofName_of_getId ((hget s).trans hs)]
      simp only [hlookup]
      by_cases heq : aliasId = id
      · subst heq
        rw [if_pos rfl,if_pos (getId_inj hi ha hs),Option.bind_some,hname,hi.getStr_iff.mpr ho]
      · have hne : aliasName ≠ s := by
          rintro rfl
          exact heq (Option.some.inj (ha.symm.trans hs))
        rw [if_neg heq,if_neg hne]
        rfl
  · rw [List.mem_append,List.mem_singleton,h.linked,Prod.mk.injEq]
    constructor
    · rintro (⟨x,id,hx,hs,hmem⟩ | ⟨rfl,rfl⟩)
      · exact ⟨x,id,hx,hs,(mem_aliasesOf_linkAlias ..).mpr (.inl hmem)⟩
      · exact ⟨aliasId,originalId,hstr,ho,(mem_aliasesOf_linkAlias ..).mpr (.inr ⟨rfl,rfl⟩)⟩
    · rintro ⟨x,id,hx,hs,hmem⟩
      obtain hmem | ⟨rfl,rfl⟩ := (mem_aliasesOf_linkAlias ..).mp hmem
      · exact .inl ⟨x,id,hx,hs,hmem⟩
      · exact .inr ⟨Option.some.inj (hx.symm.trans hstr),getId_inj hi hs ho⟩
  · obtain hmem | ⟨rfl,rfl⟩ := (mem_aliasesOf_linkAlias ..).mp hx
    · exact h.known id x hmem
    · exact ⟨haliasLt,horiginalLt⟩

end Holding

section Steps

variable {i j : ScopeGraphIndex} {h : History}

structure Records (i : ScopeGraphIndex) (h : History) : Prop where
  definitions : Holds i i.definitions h.definitions
  references : Holds i i.references h.references
  links : HoldsLinks i h.links

/-- The tables that a history is about are left alone. -/
structure SameTables (i j : ScopeGraphIndex) : Prop where
  more : i.interner.strings <+: j.interner.strings
  definitions : j.definitions = i.definitions
  references : j.references = i.references
  aliases : j.aliases = i.aliases
  reverseAliases : j.reverseAliases = i.reverseAliases

theorem Records.grow (hr : Records i h) (hi : i.Inv) (hj : j.Inv) (hsame : SameTables i j) :
    Records j h := by
  refine ⟨?_,?_,hr.links.grow hi hj hsame.more hsame.aliases hsame.reverseAliases⟩
  · rw [hsame.definitions]
    exact hr.definitions.grow hi hj hsame.more fun k hk => hi.symbols k (.inl hk)
  · rw [hsame.references]
    exact hr.references.grow hi hj hsame.more fun k hk => hi.symbols k (.inr hk)

theorem intern_records {s : PyStr} {id : StringId} (hr : Records i h) (hi : i.Inv)
    (hs : i.intern s = some (id,j)) : j.Inv ∧ j.getId s = some id ∧ Records j h := by
  obtain ⟨hj,hmore,hid⟩ := hi.intern hs
  obtain ⟨raw,-,-,rfl⟩ := ScopeGraphIndex.intern_spec hs
  exact ⟨hj,hid,hr.grow hi hj ⟨hmore,rfl,rfl,rfl,rfl⟩⟩

theorem intern_none {s : PyStr} : i.intern s = none ↔ History.encodable s = false := by
  rw [ScopeGraphIndex.intern,Option.map_eq_none_iff,History.encodable,Option.isSome_eq_false_iff,
    Option.isNone_iff_eq_none]

theorem encodable_of_intern {s : PyStr} {id : StringId} (hs : i.intern s = some (id,j)) :
    History.encodable s = true := by
  cases he : History.encodable s with
  | true => rfl
  | false =>
    rw [(intern_none (i := i)).mpr he] at hs
    cases hs

theorem Records.addDefinition (hr : Records i h) (hi : i.Inv) (symbol : PyStr)
    (pathId : StringId) (line : ℤ) :
    Records (i.addDefinitionWithPathId symbol pathId line).1 (h.addDefinition symbol pathId line) ∧
      (i.addDefinitionWithPathId symbol pathId line).2 = History.encodable symbol := by
  rw [ScopeGraphIndex.addDefinitionWithPathId,History.addDefinition]
  cases hs : i.intern symbol with
  | none =>
    rw [intern_none.mp hs]
    exact ⟨hr,rfl⟩
  | some r =>
    obtain ⟨hj,hid,hrj⟩ := intern_records hr hi hs
    rw [encodable_of_intern hs,if_pos rfl]
    refine ⟨⟨?_,hrj.references,⟨hrj.links.target,hrj.links.linked,hrj.links.known⟩⟩,rfl⟩
    exact hrj.definitions.add hj hid pathId (saturateLine line)

theorem Records.addReference (hr : Records i h) (hi : i.Inv) (symbol : PyStr)
    (pathId : StringId) (line : ℤ) :
    Records (i.addReferenceWithPathId symbol pathId line).1 (h.addReference symbol pathId line) ∧
      (i.addReferenceWithPathId symbol pathId line).2 = History.encodable symbol := by
  rw [ScopeGraphIndex.addReferenceWithPathId,History.addReference]
  cases hs : i.intern symbol with
  | none =>
    rw [intern_none.mp hs]
    exact ⟨hr,rfl⟩
  | some r =>
    obtain ⟨hj,hid,hrj⟩ := intern_records hr hi hs
    rw [encodable_of_intern hs,if_pos rfl]
    refine ⟨⟨hrj.definitions,?_,⟨hrj.links.target,hrj.links.linked,hrj.links.known⟩⟩,rfl⟩
    exact hrj.references.add hj hid pathId (saturateLine line)

theorem ofGraph_cons (pathId : StringId) (name : PyStr) (line : ℤ)
    (occurrences : List (PyStr × ℤ)) :
    History.ofGraph pathId ((name,line)::occurrences) =
      if History.encodable name then
        (name,pathId,saturateLine (line+1))::History.ofGraph pathId occurrences else [] := by
  by_cases hn : History.encodable name = true <;> simp [History.ofGraph,hn]

theorem addAll_definitions (pathId : StringId) (occurrences : List (PyStr × ℤ))
    (hr : Records i h) (hi : i.Inv) :
    Records (i.addAll ScopeGraphIndex.addDefinitionWithPathId pathId occurrences).1
        {h with definitions := h.definitions++History.ofGraph pathId occurrences} ∧
      (i.addAll ScopeGraphIndex.addDefinitionWithPathId pathId occurrences).2 =
        occurrences.all fun o => History.encodable o.1 := by
  induction occurrences generalizing i h with
  | nil => exact ⟨by simpa [History.ofGraph,ScopeGraphIndex.addAll] using hr,rfl⟩
  | cons o rest ih =>
    obtain ⟨name,line⟩ := o
    obtain ⟨hput,hdone⟩ := hr.addDefinition hi name pathId (line+1)
    have hinv := (ScopeGraphIndex.Keeps.addDefinitionWithPathId i name pathId (line+1)).inv hi
    rw [ScopeGraphIndex.addAll,ofGraph_cons,List.all_cons]
    split
    · next i' hi' =>
      rw [hi'] at hput hdone
      rw [← hdone]
      refine ⟨?_,rfl⟩
      rw [History.addDefinition,← hdone] at hput
      simpa using hput
    · next i' hi' =>
      rw [hi'] at hput hdone hinv
      rw [← hdone,Bool.true_and,if_pos rfl]
      rw [History.addDefinition,← hdone,if_pos rfl] at hput
      simpa using ih hput hinv

theorem addAll_references (pathId : StringId) (occurrences : List (PyStr × ℤ))
    (hr : Records i h) (hi : i.Inv) :
    Records (i.addAll ScopeGraphIndex.addReferenceWithPathId pathId occurrences).1
        {h with references := h.references++History.ofGraph pathId occurrences} ∧
      (i.addAll ScopeGraphIndex.addReferenceWithPathId pathId occurrences).2 =
        occurrences.all fun o => History.encodable o.1 := by
  induction occurrences generalizing i h with
  | nil => exact ⟨by simpa [History.ofGraph,ScopeGraphIndex.addAll] using hr,rfl⟩
  | cons o rest ih =>
    obtain ⟨name,line⟩ := o
    obtain ⟨hput,hdone⟩ := hr.addReference hi name pathId (line+1)
    have hinv := (ScopeGraphIndex.Keeps.addReferenceWithPathId i name pathId (line+1)).inv hi
    rw [ScopeGraphIndex.addAll,ofGraph_cons,List.all_cons]
    split
    · next i' hi' =>
      rw [hi'] at hput hdone
      rw [← hdone]
      refine ⟨?_,rfl⟩
      rw [History.addReference,← hdone] at hput
      simpa using hput
    · next i' hi' =>
      rw [hi'] at hput hdone hinv
      rw [← hdone,Bool.true_and,if_pos rfl]
      rw [History.addReference,← hdone,if_pos rfl] at hput
      simpa using ih hput hinv

theorem Records.of_same (hr : Records i h) (hinterner : j.interner = i.interner)
    (hdefinitions : j.definitions = i.definitions) (hreferences : j.references = i.references)
    (haliases : j.aliases = i.aliases) (hreverse : j.reverseAliases = i.reverseAliases) :
    Records j h := by
  obtain ⟨_,_,_,_,_,_,_,_⟩ := j
  obtain rfl : _ = i.interner := hinterner
  obtain rfl : _ = i.definitions := hdefinitions
  obtain rfl : _ = i.references := hreferences
  obtain rfl : _ = i.aliases := haliases
  obtain rfl : _ = i.reverseAliases := hreverse
  exact ⟨hr.definitions,hr.references,⟨hr.links.target,hr.links.linked,hr.links.known⟩⟩

theorem Records.addFile (hr : Records i h) (hi : i.Inv) (filePath : PyStr) (graph : ScopeGraph) :
    Records (i.addFile filePath graph).1 (History.step i h (.addFile filePath graph)) := by
  rw [ScopeGraphIndex.addFile,History.step]
  cases hs : i.intern filePath with
  | none => exact hr
  | some r =>
    obtain ⟨pathId,j⟩ := r
    obtain ⟨hj,-,hrj⟩ := intern_records hr hi hs
    obtain ⟨hdefs,hdone⟩ := addAll_definitions pathId graph.definitions hrj hj
    have hinv := (ScopeGraphIndex.Keeps.addAll ScopeGraphIndex.Keeps.addDefinitionWithPathId pathId
      graph.definitions j).inv hj
    simp only
    rw [← hdone]
    split
    · next k hk =>
      rw [hk] at hdefs ⊢
      simpa using hdefs
    · next k hk =>
      rw [hk] at hdefs hinv ⊢
      obtain ⟨hrefs,-⟩ := addAll_references pathId graph.references hdefs hinv
      rw [if_pos rfl]
      split
      · next l hl =>
        rw [hl] at hrefs
        exact hrefs
      · next l hl =>
        rw [hl] at hrefs
        exact hrefs.of_same rfl rfl rfl rfl rfl

theorem Records.addAlias (hr : Records i h) (hi : i.Inv) (aliasName original : PyStr) :
    Records (i.addAlias aliasName original).1
      (History.step i h (.addAlias aliasName original)) := by
  rw [ScopeGraphIndex.addAlias,History.step]
  cases ha : i.intern aliasName with
  | none =>
    rw [intern_none.mp ha,if_neg (by simp)]
    exact hr
  | some r =>
    obtain ⟨aliasId,j⟩ := r
    obtain ⟨hj,haj,hrj⟩ := intern_records hr hi ha
    rw [encodable_of_intern ha]
    simp only
    cases ho : j.intern original with
    | none =>
      rw [intern_none.mp ho,if_neg (by simp)]
      exact hrj
    | some r =>
      obtain ⟨originalId,k⟩ := r
      obtain ⟨hk,hok,hrk⟩ := intern_records hrj hj ho
      obtain ⟨-,hmore,-⟩ := hj.intern ho
      rw [encodable_of_intern ho,if_pos (by simp)]
      have hak := ScopeGraphIndex.getId_mono hj hk hmore haj
      exact ⟨hrk.definitions,hrk.references,hrk.links.link hk hak hok⟩

theorem Records.removeFile (hr : Records i h) (hi : i.Inv) (filePath : PyStr) :
    Records (i.removeFile filePath).1 (History.step i h (.removeFile filePath)) := by
  rw [ScopeGraphIndex.removeFile,History.step,ScopeGraphIndex.getId]
  cases hraw : utf8 filePath with
  | none => exact hr
  | some raw =>
    rw [Option.bind_some]
    cases hl : lookup i.interner.index raw with
    | none => simpa [hl] using hr
    | some pathId =>
      simp only [hl]
      exact ⟨hr.definitions.prune hi.definitions.sound pathId,
        hr.references.prune hi.references.sound pathId,
        ⟨hr.links.target,hr.links.linked,hr.links.known⟩⟩

theorem Records.renameFile (hr : Records i h) (hi : i.Inv) (fromPath toPath : PyStr) :
    Records (i.renameFile fromPath toPath).1 (History.step i h (.renameFile fromPath toPath)) := by
  rw [ScopeGraphIndex.renameFile,History.step,ScopeGraphIndex.getId]
  cases hraw : utf8 fromPath with
  | none => exact hr
  | some raw =>
    rw [Option.bind_some]
    cases hl : lookup i.interner.index raw with
    | none => simpa [hl] using hr
    | some fromId =>
      simp only [hl]
      cases hs : i.intern toPath with
      | none => exact hr
      | some r =>
        obtain ⟨toId,j⟩ := r
        obtain ⟨hj,-,hrj⟩ := intern_records hr hi hs
        exact ⟨hrj.definitions.move hj.definitions fromId toId,
          hrj.references.move hj.references fromId toId,
          ⟨hrj.links.target,hrj.links.linked,hrj.links.known⟩⟩

/-- An operation adds to the tables and takes from them what it does with the history. -/
theorem Records.step (hr : Records i h) (hi : i.Inv) (op : Op) :
    Records (i.apply op).1 (History.step i h op) := by
  cases op with
  | intern s =>
    rw [ScopeGraphIndex.apply]
    cases hs : i.intern s with
    | none => exact hr
    | some r => exact (intern_records hr hi hs).2.2
  | addFile filePath graph => exact hr.addFile hi filePath graph
  | addDefinition symbol path line =>
    rw [ScopeGraphIndex.apply,ScopeGraphIndex.addDefinition,History.step]
    cases hs : i.intern path with
    | none => exact hr
    | some r =>
      obtain ⟨hj,-,hrj⟩ := intern_records hr hi hs
      exact (hrj.addDefinition hj symbol r.1 line).1
  | addReference symbol path line =>
    rw [ScopeGraphIndex.apply,ScopeGraphIndex.addReference,History.step]
    cases hs : i.intern path with
    | none => exact hr
    | some r =>
      obtain ⟨hj,-,hrj⟩ := intern_records hr hi hs
      exact (hrj.addReference hj symbol r.1 line).1
  | addDefinitionWithPathId symbol pathId line => exact (hr.addDefinition hi symbol pathId line).1
  | addReferenceWithPathId symbol pathId line => exact (hr.addReference hi symbol pathId line).1
  | addAlias aliasName original => exact hr.addAlias hi aliasName original
  | setFileMeta path fileMeta =>
    rw [ScopeGraphIndex.apply,ScopeGraphIndex.setFileMeta]
    cases hs : i.intern path with
    | none => exact hr
    | some r => exact (intern_records hr hi hs).2.2.of_same rfl rfl rfl rfl rfl
  | setQueryVersion version => exact hr.of_same rfl rfl rfl rfl rfl
  | removeFile filePath => exact hr.removeFile hi filePath
  | renameFile fromPath toPath => exact hr.renameFile hi fromPath toPath

theorem history_after_concat (ops : List Op) (op : Op) :
    History.after (ops++[op]) =
      History.step (ScopeGraphIndex.after ops) (History.after ops) op := by
  have hfst : ∀ (ops : List Op) (s : ScopeGraphIndex × History),
      (ops.foldl (fun s op => ((s.1.apply op).1,History.step s.1 s.2 op)) s).1 =
        ops.foldl (fun i op => (i.apply op).1) s.1 := by
    intro ops
    induction ops with
    | nil => exact fun _ => rfl
    | cons op ops ih => exact fun s => ih _
  rw [History.after,List.foldl_append,List.foldl_cons,List.foldl_nil,hfst,History.after,
    ScopeGraphIndex.after]

theorem records_after (ops : List Op) :
    Records (ScopeGraphIndex.after ops) (History.after ops) := by
  induction ops using List.reverseRecOn with
  | nil =>
    refine ⟨fun s => ?_,fun s => ?_,fun s => ?_,fun a s => ?_,fun id a ha => ?_⟩
    · exact ofName_default (fun _ => rfl) _ s
    · exact ofName_default (fun _ => rfl) _ s
    · exact ofName_default (fun _ => rfl) _ s
    · simp [ScopeGraphIndex.after,History.after,History.new,ScopeGraphIndex.new,
        ScopeGraphIndex.aliasesOf,lookup]
    · simp [ScopeGraphIndex.after,ScopeGraphIndex.new,ScopeGraphIndex.aliasesOf,lookup] at ha
  | append_singleton ops op ih =>
    rw [history_after_concat,ScopeGraphIndex.after,List.foldl_append,← ScopeGraphIndex.after]
    exact ih.step (ScopeGraphIndex.inv_after ops) op

end Steps

section Queries

variable {i : ScopeGraphIndex} {h : History} {symbol name : PyStr} {id k : StringId}

/-- The name is a source of references or was an alias of the symbol once. -/
def EverSource (h : History) (symbol name : PyStr) : Prop :=
  name = symbol ∨ h.target symbol = some name ∨ (name,symbol) ∈ h.links

theorem link_of_target {s o : PyStr} (ht : h.target s = some o) : (s,o) ∈ h.links := by
  obtain ⟨⟨s',o'⟩,hfind,rfl⟩ := Option.map_eq_some_iff.mp ht
  obtain rfl : s' = s := by simpa using List.find?_some hfind
  exact List.mem_reverse.mp (List.mem_of_find?_eq_some hfind)

theorem EverSource.of_source (hs : ReferenceSource h symbol name) : EverSource h symbol name := by
  obtain hs | hs | hs := hs
  · exact .inl hs
  · exact .inr (.inl hs)
  · exact .inr (.inr (link_of_target hs))

theorem target_iff (hr : Records i h) (hid : i.getId symbol = some id) :
    h.target symbol = some name ↔ ∃ o, lookup i.aliases id = some o ∧ i.getStr o = some name := by
  have ht : h.target symbol = (lookup i.aliases id).bind i.getStr := by
    rw [show h.target symbol = History.target ⟨[],[],h.links⟩ symbol from rfl,
      ← hr.links.target symbol,ofName_of_getId hid]
  rw [ht,Option.bind_eq_some_iff]

theorem located_of_getStr (hr : Records i h) (hi : i.Inv) (hk : i.getStr k = some name) :
    i.located (i.definitions.places k) = i.located (History.places h.definitions name) ∧
      i.located (i.references.places k) = i.located (History.places h.references name) := by
  have hid := hi.getStr_iff.mp hk
  rw [← hr.definitions name,← hr.references name,ofName_of_getId hid,ofName_of_getId hid]
  exact ⟨rfl,rfl⟩

theorem located_of_unknown (hr : Records i h) (hname : i.getId name = none) :
    History.places h.definitions name = [] ∧ History.places h.references name = [] := by
  rw [← hr.definitions name,← hr.references name,ScopeGraphIndex.ofName,ScopeGraphIndex.ofName,hname]
  exact ⟨rfl,rfl⟩

theorem mem_definitionSources (hr : Records i h) (hi : i.Inv) (hid : i.getId symbol = some id)
    (hk : i.getStr k = some name) :
    k ∈ i.definitionSources id ↔ DefinitionSource h symbol name := by
  rw [ScopeGraphIndex.definitionSources,List.mem_cons,Option.mem_toList,
    DefinitionSource,target_iff hr hid]
  apply or_congr
  · constructor
    · rintro rfl
      rw [hi.getStr_iff.mpr hid] at hk
      exact (Option.some.inj hk).symm
    · rintro rfl
      exact Option.some.inj ((hi.getStr_iff.mp hk).symm.trans hid)
  · constructor
    · intro hl
      exact ⟨k,hl,hk⟩
    · rintro ⟨o,hl,ho⟩
      obtain rfl : o = k :=
        Option.some.inj ((hi.getStr_iff.mp ho).symm.trans (hi.getStr_iff.mp hk))
      exact hl

theorem mem_referenceSources (hr : Records i h) (hi : i.Inv) (hid : i.getId symbol = some id)
    (hk : i.getStr k = some name) :
    k ∈ i.referenceSources id ↔ EverSource h symbol name := by
  have hdefs := mem_definitionSources hr hi hid hk
  have hlinked : k ∈ i.aliasesOf id ↔ (name,symbol) ∈ h.links := by
    rw [hr.links.linked]
    constructor
    · intro hmem
      exact ⟨k,id,hk,hid,hmem⟩
    · rintro ⟨a,s,ha,hs,hmem⟩
      obtain rfl : a = k :=
        Option.some.inj ((hi.getStr_iff.mp ha).symm.trans (hi.getStr_iff.mp hk))
      obtain rfl : s = id := Option.some.inj (hs.symm.trans hid)
      exact hmem
  rw [ScopeGraphIndex.referenceSources,ScopeGraphIndex.mem_fromkeys,List.mem_append]
  exact (or_congr hdefs hlinked).trans or_assoc

theorem name_of_source (hr : Records i h) (hi : i.Inv) (hid : i.getId symbol = some id)
    (hk : k ∈ i.referenceSources id) : ∃ name, i.getStr k = some name := by
  rw [ScopeGraphIndex.referenceSources,ScopeGraphIndex.mem_fromkeys,List.mem_append,
    List.mem_cons,Option.mem_toList] at hk
  obtain (rfl | hk) | hk := hk
  · exact hi.text (ScopeGraphIndex.lt_of_getId hi hid)
  · exact hi.text (hi.linked id k hk).2
  · exact hi.text (hr.links.known id k hk).1

theorem id_of_everSource (hr : Records i h) (hi : i.Inv) (hid : i.getId symbol = some id)
    (hname : EverSource h symbol name) : ∃ k, i.getStr k = some name := by
  obtain rfl | ht | hl := hname
  · exact ⟨id,hi.getStr_iff.mpr hid⟩
  · obtain ⟨o,-,ho⟩ := (target_iff hr hid).mp ht
    exact ⟨o,ho⟩
  · obtain ⟨a,-,ha,-,-⟩ := (hr.links.linked name symbol).mp hl
    exact ⟨a,ha⟩

theorem everSource_of_unknown (hr : Records i h) (hid : i.getId symbol = none)
    (hname : EverSource h symbol name) : name = symbol := by
  obtain hname | ht | hl := hname
  · exact hname
  · have hnone : h.target symbol = none := by
      rw [show h.target symbol = History.target ⟨[],[],h.links⟩ symbol from rfl,
        ← hr.links.target symbol,ScopeGraphIndex.ofName,hid]
      rfl
    rw [hnone] at ht
    cases ht
  · obtain ⟨-,id,-,hs,-⟩ := (hr.links.linked name symbol).mp hl
    rw [hid] at hs
    cases hs

theorem findReferencesWithNames_spec (hr : Records i h) (hi : i.Inv)
    (hsome : (utf8 symbol).isSome) :
    ∃ refs, i.findReferencesWithNames symbol = some refs ∧
      (∀ r, r ∈ refs ↔ EverSource h symbol r.1 ∧
        r.2 ∈ i.located (History.places h.references r.1)) ∧
      (refs.Nodup ↔ ∀ name, EverSource h symbol name →
        (i.located (History.places h.references name)).Nodup) := by
  obtain ⟨raw,hraw⟩ := Option.isSome_iff_exists.mp hsome
  have hget : i.getId symbol = lookup i.interner.index raw := by
    rw [ScopeGraphIndex.getId,hraw,Option.bind_some]
  rw [ScopeGraphIndex.findReferencesWithNames,ScopeGraphIndex.query,hraw,Option.map_some]
  cases hl : lookup i.interner.index raw with
  | none =>
    rw [hl] at hget
    have hnothing : ∀ name, EverSource h symbol name →
        i.located (History.places h.references name) = [] := by
      intro name hname
      rw [everSource_of_unknown hr hget hname,(located_of_unknown hr hget).2]
      rfl
    refine ⟨[],rfl,fun r => ?_,?_⟩
    · constructor
      · intro hmem
        cases hmem
      · rintro ⟨hever,hmem⟩
        rw [hnothing r.1 hever] at hmem
        cases hmem
    · constructor
      · intro _ name hname
        rw [hnothing name hname]
        exact List.nodup_nil
      · intro _
        exact List.nodup_nil
  | some id =>
    rw [hl] at hget
    have hofId : ∀ k name, i.getStr k = some name →
        ((i.getStr k).elim [] fun name =>
          (i.located (i.references.places k)).map fun pl => (name,pl)) =
        (i.located (History.places h.references name)).map fun pl => (name,pl) := by
      intro k name hk
      rw [hk,Option.elim_some,(located_of_getStr hr hi hk).2]
    refine ⟨_,rfl,fun r => ?_,?_⟩
    · rw [Option.elim_some,List.mem_flatMap]
      constructor
      · rintro ⟨k,hk,hmem⟩
        obtain ⟨name,hname⟩ := name_of_source hr hi hget hk
        rw [hofId k name hname] at hmem
        obtain ⟨pl,hpl,rfl⟩ := List.mem_map.mp hmem
        exact ⟨(mem_referenceSources hr hi hget hname).mp hk,hpl⟩
      · rintro ⟨hever,hmem⟩
        obtain ⟨k,hk⟩ := id_of_everSource hr hi hget hever
        refine ⟨k,(mem_referenceSources hr hi hget hk).mpr hever,?_⟩
        rw [hofId k r.1 hk]
        exact List.mem_map.mpr ⟨r.2,hmem,rfl⟩
    · rw [Option.elim_some,List.nodup_flatMap]
      constructor
      · rintro ⟨heach,-⟩ name hname
        obtain ⟨k,hk⟩ := id_of_everSource hr hi hget hname
        have hnodup := heach k ((mem_referenceSources hr hi hget hk).mpr hname)
        rw [hofId k name hk] at hnodup
        exact List.Nodup.of_map _ hnodup
      · intro hall
        refine ⟨fun k hk => ?_,?_⟩
        · obtain ⟨name,hname⟩ := name_of_source hr hi hget hk
          rw [hofId k name hname]
          refine (hall name ((mem_referenceSources hr hi hget hname).mp hk)).map ?_
          intro a b hab
          exact (Prod.mk.inj hab).2
        · have hnodup : (i.referenceSources id).Nodup := nodup_keys_ofItems _
          refine hnodup.imp_of_mem fun {k k'} hk hk' hne => ?_
          obtain ⟨name,hname⟩ := name_of_source hr hi hget hk
          obtain ⟨name',hname'⟩ := name_of_source hr hi hget hk'
          -- ids that differ have names that differ
          simp only [Function.onFun]
          rw [hofId k name hname,hofId k' name' hname']
          intro r hr₁ hr₂
          obtain ⟨a,-,rfl⟩ := List.mem_map.mp hr₁
          obtain ⟨b,-,hb⟩ := List.mem_map.mp hr₂
          obtain rfl : name' = name := (Prod.mk.inj hb).1
          exact hne (Option.some.inj ((hi.getStr_iff.mp hname).symm.trans (hi.getStr_iff.mp hname')))

theorem findDefinitions_spec (hr : Records i h) (hi : i.Inv) (hsome : (utf8 symbol).isSome) :
    ∃ locs, i.findDefinitions symbol = some locs ∧
      ∀ l, l ∈ locs ↔ ∃ name, DefinitionSource h symbol name ∧
        l ∈ i.located (History.places h.definitions name) := by
  obtain ⟨raw,hraw⟩ := Option.isSome_iff_exists.mp hsome
  have hget : i.getId symbol = lookup i.interner.index raw := by
    rw [ScopeGraphIndex.getId,hraw,Option.bind_some]
  have hever : ∀ name, DefinitionSource h symbol name → EverSource h symbol name :=
    fun name hname => hname.imp_right .inl
  rw [ScopeGraphIndex.findDefinitions,ScopeGraphIndex.query,hraw,Option.map_some]
  cases hl : lookup i.interner.index raw with
  | none =>
    rw [hl] at hget
    refine ⟨[],rfl,fun l => ?_⟩
    constructor
    · intro hmem
      cases hmem
    · rintro ⟨name,hname,hmem⟩
      rw [everSource_of_unknown hr hget (hever name hname),(located_of_unknown hr hget).1] at hmem
      cases hmem
  | some id =>
    rw [hl] at hget
    refine ⟨_,rfl,fun l => ?_⟩
    rw [Option.elim_some,List.mem_flatMap]
    constructor
    · rintro ⟨k,hk,hmem⟩
      have hsource : k ∈ i.referenceSources id := by
        rw [ScopeGraphIndex.referenceSources,ScopeGraphIndex.mem_fromkeys]
        exact List.mem_append_left _ hk
      obtain ⟨name,hname⟩ := name_of_source hr hi hget hsource
      rw [(located_of_getStr hr hi hname).1] at hmem
      exact ⟨name,(mem_definitionSources hr hi hget hname).mp hk,hmem⟩
    · rintro ⟨name,hname,hmem⟩
      obtain ⟨k,hk⟩ := id_of_everSource hr hi hget (hever name hname)
      refine ⟨k,(mem_definitionSources hr hi hget hk).mpr hname,?_⟩
      rwa [(located_of_getStr hr hi hk).1]

theorem rank_perm {R : Type} (same : PyStr → PyStr → Bool) (pathOf : R → PyStr)
    (context : Option PyStr) (results : List R) :
    (rank same pathOf context results).Perm results := by
  cases context with
  | none => exact .refl _
  | some c => exact List.mergeSort_perm _ _

theorem rank_familyFirst {R : Type} (same : PyStr → PyStr → Bool) (pathOf : R → PyStr)
    (context : Option PyStr) (results : List R) :
    FamilyFirst same context pathOf (rank same pathOf context results) := by
  rintro c rfl
  let le := fun r r' : R =>
    if inFamily same c (pathOf r) = inFamily same c (pathOf r') then
      strLe (pathOf r) (pathOf r') else inFamily same c (pathOf r)
  have htrans : ∀ a b d, le a b → le b d → le a d := by
    intro a b d hab hbd
    simp only [le] at hab hbd ⊢
    cases ha : inFamily same c (pathOf a) <;> cases hb : inFamily same c (pathOf b) <;>
      cases hd : inFamily same c (pathOf d) <;> simp only [ha,hb,hd] at hab hbd ⊢ <;>
      first
        | exact strLe_trans hab hbd
        | simp_all
  have htotal : ∀ a b, le a b || le b a := by
    intro a b
    simp only [le]
    cases ha : inFamily same c (pathOf a) <;> cases hb : inFamily same c (pathOf b) <;>
      simp [strLe_total]
  have hsorted : (rank same pathOf (some c) results).Pairwise fun a b => le a b = true :=
    List.pairwise_mergeSort htrans htotal results
  refine hsorted.imp fun {a b} hab hb => ?_
  simp only [le] at hab
  by_contra ha
  rw [Bool.not_eq_true] at ha
  rw [ha,hb] at hab
  simp at hab

/-- The queries for a symbol are exact exactly when it can be encoded, no alias of old that
points elsewhere has references, and no source has two references on one line. -/
theorem queries_exact_iff (ops : List Op) (symbol : PyStr) (context : Option PyStr)
    (same : PyStr → PyStr → Bool) :
    ExactQueries (ScopeGraphIndex.after ops) (History.after ops) symbol context same ↔
      Clean (ScopeGraphIndex.after ops) (History.after ops) symbol := by
  have hr := records_after ops
  have hi := ScopeGraphIndex.inv_after ops
  constructor
  · rintro ⟨-,refs,hrefs,hmem,hnodup,-⟩
    have hsome : (utf8 symbol).isSome := by
      obtain ⟨found,hfound,-⟩ := Option.map_eq_some_iff.mp hrefs
      obtain ⟨raw,hraw,-⟩ := Option.map_eq_some_iff.mp hfound
      rw [hraw]
      rfl
    obtain ⟨found,hfound,hmem',hnodup'⟩ := findReferencesWithNames_spec hr hi hsome
    rw [ScopeGraphIndex.findReferencesSmart,hfound] at hrefs
    obtain rfl := Option.some.inj hrefs
    have hperm := rank_perm same (fun r : PyStr × PyStr × ℤ => r.2.1) context found
    refine ⟨hsome,fun name hlink hnot => ?_,fun name hname => ?_⟩
    · apply List.eq_nil_iff_forall_not_mem.mpr
      intro l hl
      have hin : (name,l) ∈ found := (hmem' (name,l)).mpr ⟨.inr (.inr hlink),hl⟩
      exact hnot ((hmem (name,l)).mp (hperm.mem_iff.mpr hin)).1
    · exact hnodup'.mp (hperm.nodup_iff.mp hnodup) name (.of_source hname)
  · rintro ⟨hsome,hcurrent,hdistinct⟩
    obtain ⟨locs,hlocs,hmemLocs⟩ := findDefinitions_spec hr hi hsome
    obtain ⟨found,hfound,hmem,hnodup⟩ := findReferencesWithNames_spec hr hi hsome
    have hever : ∀ name, EverSource (History.after ops) symbol name →
        ReferenceSource (History.after ops) symbol name ∨
          (ScopeGraphIndex.after ops).located
            (History.places (History.after ops).references name) = [] := by
      intro name hname
      by_cases hsource : ReferenceSource (History.after ops) symbol name
      · exact .inl hsource
      · obtain hname | hname | hlink := hname
        · exact absurd (.inl hname) hsource
        · exact absurd (.inr (.inl hname)) hsource
        · exact .inr (hcurrent name hlink hsource)
    constructor
    · refine ⟨_,by rw [ScopeGraphIndex.findDefinitionsSmart,hlocs]; rfl,fun l => ?_,?_,
        rank_familyFirst same _ context _⟩
      · rw [ScopeGraphIndex.mem_rank,ScopeGraphIndex.mem_fromkeys,hmemLocs]
      · exact (rank_perm same _ context _).nodup_iff.mpr (nodup_keys_ofItems _)
    · refine ⟨_,by rw [ScopeGraphIndex.findReferencesSmart,hfound]; rfl,fun r => ?_,?_,
        rank_familyFirst same _ context _⟩
      · rw [ScopeGraphIndex.mem_rank,hmem]
        constructor
        · rintro ⟨hname,hl⟩
          obtain hsource | hnil := hever r.1 hname
          · exact ⟨hsource,hl⟩
          · rw [hnil] at hl
            cases hl
        · rintro ⟨hsource,hl⟩
          exact ⟨.of_source hsource,hl⟩
      · refine (rank_perm same _ context _).nodup_iff.mpr (hnodup.mpr fun name hname => ?_)
        obtain hsource | hnil := hever name hname
        · exact hdistinct name hsource
        · rw [hnil]
          exact List.nodup_nil

end Queries

/-- Two references on one line. -/
def twiceOnALine : List Op :=
  [.addReference (lit "f") (lit "a.py") 1,.addReference (lit "f") (lit "a.py") 1]

/-- A reference by an alias that was given another original. -/
def repointed : List Op :=
  [.addAlias (lit "g") (lit "f"),.addAlias (lit "g") (lit "h"),
    .addReference (lit "g") (lit "a.py") 1]

/-- A reference is listed twice, and the references of an alias that points elsewhere are
listed. -/
theorem references_not_exact :
    ¬ ExactQueries (ScopeGraphIndex.after twiceOnALine) (History.after twiceOnALine) (lit "f") none
      (fun _ _ => false) ∧
    ¬ ExactQueries (ScopeGraphIndex.after repointed) (History.after repointed) (lit "f") none
      (fun _ _ => false) := by
  constructor
  · rintro ⟨-,refs,hrefs,-,hnodup,-⟩
    have hfound : (ScopeGraphIndex.after twiceOnALine).findReferencesSmart (lit "f") none
        (fun _ _ => false) = some [(lit "f",lit "a.py",1),(lit "f",lit "a.py",1)] := by decide
    obtain rfl := Option.some.inj (hrefs.symm.trans hfound)
    simp at hnodup
  · rintro ⟨-,refs,hrefs,hmem,-,-⟩
    have hfound : (ScopeGraphIndex.after repointed).findReferencesSmart (lit "f") none
        (fun _ _ => false) = some [(lit "g",lit "a.py",1)] := by decide
    obtain rfl := Option.some.inj (hrefs.symm.trans hfound)
    obtain ⟨hname | htarget | htarget,-⟩ := (hmem (lit "g",lit "a.py",1)).mp List.mem_cons_self
    · exact absurd hname (by decide)
    · exact absurd htarget (by decide)
    · exact absurd htarget (by decide)

end MinimaxCode.ScopeIndex
