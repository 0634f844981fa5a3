import Mathlib.Data.List.AList
import Mathlib.Data.List.Infix
import Mathlib.Tactic.Common

/-!
# File trees

A file tree maps absolute paths to files and directories. The root is always a
directory, and the parent of every entry is a directory, so nothing lies below a
file. There are no symbolic links. The operations are those of a POSIX file
system, restricted to what succeeds or fails because of the shape of the tree.
-/

namespace MinimaxCode.FileTree

variable {Name B : Type} [DecidableEq Name]

inductive Node (B : Type)
  | file (bytes : B)
  | dir
  deriving DecidableEq

def Node.bytes? : Node B → Option B
  | .file b => some b
  | .dir => none

@[simp] theorem Node.bytes?_file (b : B) : (Node.file b).bytes? = some b := rfl
@[simp] theorem Node.bytes?_dir : (Node.dir : Node B).bytes? = none := rfl

abbrev Path (Name : Type) := List Name

/-- A path as written, one entry a component; `none` is the component `..`. -/
abbrev RawPath (Name : Type) := List (Option Name)

def walk (cur : Path Name) : Option Name → Path Name
  | none => cur.dropLast
  | some n => cur++[n]

/-- Where a written path leads when every directory on the way exists. -/
def lexical (cur : Path Name) (raw : RawPath Name) : Path Name := raw.foldl walk cur

omit [DecidableEq Name] in
theorem lexical_map_some (cur rest : Path Name) : lexical cur (rest.map some) = cur++rest := by
  induction rest generalizing cur with
  | nil => simp [lexical]
  | cons n rest ih => simpa [lexical,walk] using ih (cur++[n])

abbrev Entries (Name B : Type) := AList (fun _ : Path Name => Node B)

def nodeOf (e : Entries Name B) (p : Path Name) : Option (Node B) :=
  if p = [] then some .dir else e.lookup p

/-- A file tree: the parent of every entry is a directory. -/
structure Tree (Name B : Type) [DecidableEq Name] where
  entries : Entries Name B
  parented : ∀ p n, nodeOf entries (p++[n]) ≠ none → nodeOf entries p = some .dir

/-- The empty tree, a root directory with nothing in it. -/
def Tree.empty : Tree Name B where
  entries := ∅
  parented p n h := by simp [nodeOf] at h

namespace Tree

def node (t : Tree Name B) (p : Path Name) : Option (Node B) := nodeOf t.entries p

/-- The bytes of the file at a path, if there is a file. -/
def bytes (t : Tree Name B) (p : Path Name) : Option B := (t.node p).bind Node.bytes?

def isDir (t : Tree Name B) (p : Path Name) : Bool :=
  match t.node p with
  | some .dir => true
  | _ => false

def isFile (t : Tree Name B) (p : Path Name) : Bool :=
  match t.node p with
  | some (.file _) => true
  | _ => false

@[simp] theorem node_root (t : Tree Name B) : t.node [] = some .dir := by simp [node,nodeOf]

@[simp] theorem node_empty (p : Path Name) :
    (empty : Tree Name B).node p = if p = [] then some .dir else none := by
  simp [node,nodeOf,empty]

@[simp] theorem bytes_empty (p : Path Name) : (empty : Tree Name B).bytes p = none := by
  by_cases hp : p = [] <;> simp [bytes,hp]

variable {p q cur rest : Path Name} {t u : Tree Name B} {b : B}

theorem isDir_iff : t.isDir p ↔ t.node p = some .dir := by
  unfold isDir
  split <;> simp_all

theorem isDir_of_none (h : t.node p = none) : t.isDir p = false := by
  simp [isDir,h]

theorem isFile_iff : t.isFile p ↔ ∃ b, t.node p = some (.file b) := by
  unfold isFile
  split <;> simp_all

theorem bytes_eq_some :
    t.bytes p = some b ↔ t.node p = some (.file b) := by
  unfold bytes
  cases t.node p with
  | none => simp
  | some n => cases n <;> simp

theorem bytes_eq_of_node (h : t.node p = u.node p) :
    t.bytes p = u.bytes p := by simp only [bytes,h]

theorem isFile_iff_bytes : t.isFile p ↔ ∃ b, t.bytes p = some b := by
  simp only [isFile_iff,bytes_eq_some]

theorem parent_dir (t : Tree Name B) {n : Name} (h : t.node (p++[n]) ≠ none) :
    t.node p = some .dir := t.parented p n h

theorem ancestor_dir (t : Tree Name B) (hq : q ≠ []) (h : t.node (p++q) ≠ none) :
    t.node p = some .dir := by
  induction q using List.reverseRecOn with
  | nil => exact absurd rfl hq
  | append_singleton q n ih =>
    have hpq : t.node (p++q) = some .dir := by
      apply t.parent_dir (n:=n)
      simpa [List.append_assoc] using h
    by_cases hq' : q = []
    · simpa [hq'] using hpq
    · exact ih hq' (by simp [hpq])

theorem none_below_file (t : Tree Name B) (h : t.bytes p = some b)
    (hq : q ≠ []) : t.node (p++q) = none := by
  by_contra hne
  have hd := t.ancestor_dir hq hne
  rw [bytes_eq_some.mp h] at hd
  simp at hd

theorem nodeOf_insert (e : Entries Name B) (hp : p ≠ []) (x : Node B) (q : Path Name) :
    nodeOf (e.insert p x) q = if q = p then some x else nodeOf e q := by
  unfold nodeOf
  by_cases hq : q = p
  · subst q
    simp [hp,AList.lookup_insert]
  · simp [hq,AList.lookup_insert_ne hq]

/-- Put an entry below an existing directory. A directory never becomes a file. -/
def put (t : Tree Name B) (p : Path Name) (x : Node B)
    (hp : p ≠ []) (hpar : t.isDir p.dropLast) (hx : x = .dir ∨ t.isDir p = false) :
    Tree Name B where
  entries := t.entries.insert p x
  parented q n h := by
    rw [nodeOf_insert _ hp] at h ⊢
    by_cases hqn : q++[n] = p
    · have hq : q ≠ p := by
        intro he
        have := congrArg List.length hqn
        simp [he] at this
      rw [if_neg hq]
      have hd : p.dropLast = q := by simp [← hqn]
      exact hd ▸ isDir_iff.mp hpar
    · rw [if_neg hqn] at h
      have hd := t.parented q n h
      by_cases hq : q = p
      · subst q
        rcases hx with hx | hx
        · simp [hx]
        · simp [isDir_iff.mpr hd] at hx
      · rwa [if_neg hq]

theorem node_put (t : Tree Name B) (p : Path Name) (x : Node B) (hp hpar hx) (q : Path Name) :
    (t.put p x hp hpar hx).node q = if q = p then some x else t.node q :=
  nodeOf_insert t.entries hp x q

/-- Open a file for writing and write it: the parent must be a directory and the
path must not be one. -/
def writeFile (t : Tree Name B) (p : Path Name) (b : B) : Option (Tree Name B) :=
  if h : p ≠ [] ∧ t.isDir p.dropLast ∧ t.isDir p = false then
    some (t.put p (.file b) h.1 h.2.1 (.inr h.2.2))
  else none

theorem node_writeFile (h : t.writeFile p b = some u)
    (q : Path Name) : u.node q = if q = p then some (.file b) else t.node q := by
  unfold writeFile at h
  split at h
  · cases h
    exact node_put ..
  · simp at h

theorem bytes_writeFile (h : t.writeFile p b = some u)
    (q : Path Name) : u.bytes q = if q = p then some b else t.bytes q := by
  simp only [bytes,node_writeFile h q]
  split <;> simp

theorem writeFile_isSome (hp : p ≠ [])
    (hpar : t.node p.dropLast = some .dir) (hd : t.isDir p = false) (b : B) :
    ∃ u, t.writeFile p b = some u := by
  unfold writeFile
  rw [dif_pos ⟨hp,isDir_iff.mpr hpar,hd⟩]
  exact ⟨_,rfl⟩

theorem not_dir_of_writeFile
    (h : t.writeFile p b = some u) : t.node p ≠ some .dir := by
  unfold writeFile at h
  split at h
  · rename_i hc
    intro hd
    have := isDir_iff.mpr hd
    simp [hc.2.2] at this
  · simp at h

theorem parent_of_writeFile
    (h : t.writeFile p b = some u) : t.node p.dropLast = some .dir := by
  unfold writeFile at h
  split at h
  · next hc => exact isDir_iff.mp hc.2.1
  · cases h

/-- `os.mkdir`, tolerating an existing directory. -/
def mkdir (t : Tree Name B) (p : Path Name) : Option (Tree Name B) :=
  match t.node p with
  | some .dir => some t
  | some (.file _) => none
  | none =>
    if h : p ≠ [] ∧ t.isDir p.dropLast then
      some (t.put p .dir h.1 h.2 (.inl rfl))
    else none

theorem node_mkdir (h : t.mkdir p = some u) (q : Path Name) :
    u.node q = if q = p then some .dir else t.node q := by
  unfold mkdir at h
  split at h
  · rename_i hd
    cases h
    split
    · rename_i he
      rw [he,hd]
    · rfl
  · simp at h
  · split at h
    · cases h
      exact node_put ..
    · simp at h

theorem node_mkdir_of_ne_none (h : t.mkdir p = some u)
    (hq : t.node q ≠ none) : u.node q = t.node q := by
  rw [node_mkdir h]
  split
  · rename_i he
    subst q
    unfold mkdir at h
    split at h
    · rename_i hd
      exact hd.symm
    · simp at h
    · rename_i hn
      exact absurd hn hq
  · rfl

/-- `Path.mkdir(parents=True, exist_ok=True)` below an existing directory `cur`. -/
def mkdirs : Tree Name B → Path Name → Path Name → Option (Tree Name B)
  | t, _, [] => some t
  | t, cur, n::rest => (t.mkdir (cur++[n])).bind fun u => u.mkdirs (cur++[n]) rest

theorem node_mkdirs (h : t.mkdirs cur rest = some u)
    (q : Path Name) :
    u.node q = t.node q ∨ (t.node q = none ∧ u.node q = some .dir ∧ q <+: cur++rest) := by
  induction rest generalizing t cur with
  | nil => cases h; exact .inl rfl
  | cons n rest ih =>
    obtain ⟨v,hv,hu⟩ := Option.bind_eq_some_iff.mp h
    have hstep := ih hu
    simp only [List.append_assoc,List.singleton_append] at hstep
    by_cases hq : t.node q = none
    · by_cases he : q = cur++[n]
      · have hvq : v.node q = some .dir := by rw [node_mkdir hv,if_pos he]
        rcases hstep with hs | ⟨hn,_⟩
        · exact .inr ⟨hq,hs.trans hvq,he ▸ ⟨rest,by simp⟩⟩
        · rw [hvq] at hn
          simp at hn
      · have hvq : v.node q = t.node q := by rw [node_mkdir hv,if_neg he]
        rwa [← hvq]
    · have hvq := node_mkdir_of_ne_none hv hq
      rcases hstep with hs | ⟨hn,_⟩
      · exact .inl (hs.trans hvq)
      · exact absurd (hvq ▸ hn) hq

theorem bytes_mkdirs (h : t.mkdirs cur rest = some u)
    (q : Path Name) : u.bytes q = t.bytes q := by
  rcases node_mkdirs h q with hq | ⟨hn,hd,_⟩
  · exact bytes_eq_of_node hq
  · simp [bytes,hn,hd]

theorem node_mkdirs_of_ne_none
    (h : t.mkdirs cur rest = some u) (hq : t.node q ≠ none) : u.node q = t.node q := by
  rcases node_mkdirs h q with he | ⟨hn,_⟩
  · exact he
  · exact absurd hn hq

theorem mkdirs_isSome (rest : Path Name) (hcur : t.node cur = some .dir)
    (h : ∀ q, q <+: cur++rest → t.bytes q = none) : ∃ u, t.mkdirs cur rest = some u := by
  induction rest generalizing t cur with
  | nil => exact ⟨t,rfl⟩
  | cons n rest ih =>
    have hassoc : cur++[n]++rest = cur++n::rest := by simp
    have hb := h (cur++[n]) ⟨rest,hassoc⟩
    have hm : ∃ v, t.mkdir (cur++[n]) = some v := by
      unfold mkdir
      split
      · exact ⟨t,rfl⟩
      · rename_i b hn
        simp [bytes,hn] at hb
      · rw [dif_pos ⟨by simp,by simpa using isDir_iff.mpr hcur⟩]
        exact ⟨_,rfl⟩
    obtain ⟨v,hv⟩ := hm
    have hvd : v.node (cur++[n]) = some .dir := by rw [node_mkdir hv,if_pos rfl]
    obtain ⟨u,hu⟩ := ih hvd (by
      intro q hq
      rw [hassoc] at hq
      have hq' := h q hq
      have hvq := node_mkdir hv q
      by_cases he : q = cur++[n]
      · simp [bytes,he,hvd]
      · simpa [bytes,hvq,he] using hq')
    exact ⟨u,by simp [mkdirs,hv,hu]⟩

theorem node_mkdirs_dropLast (h : t.mkdirs [] p.dropLast = some u) :
    u.node p = t.node p := by
  rcases node_mkdirs h p with hs | ⟨hn,_,hpre⟩
  · exact hs
  · have hlen := hpre.length_le
    have hp : p = [] := by
      rw [List.nil_append,List.length_dropLast] at hlen
      exact List.length_eq_zero_iff.mp (by omega)
    simp [hp] at hn

theorem isDir_eq_of_node (h : t.node p = u.node p) :
    t.isDir p = u.isDir p := by simp only [isDir,h]

theorem isDir_of_mkdirs (hcur : t.node cur = some .dir)
    (h : t.mkdirs cur rest = some u) : u.node (cur++rest) = some .dir := by
  induction rest generalizing t cur with
  | nil => cases h; simpa using hcur
  | cons n rest ih =>
    obtain ⟨v,hv,hu⟩ := Option.bind_eq_some_iff.mp h
    have hvd : v.node (cur++[n]) = some .dir := by rw [node_mkdir hv,if_pos rfl]
    simpa using ih hvd hu

def keepEntries (e : Entries Name B) (keep : Path Name → Bool) : Entries Name B :=
  ⟨e.entries.filter fun s => keep s.1,e.nodupKeys.sublist List.filter_sublist⟩

theorem nodeOf_keepEntries (e : Entries Name B) (keep : Path Name → Bool)
    (hq : q ≠ []) : nodeOf (keepEntries e keep) q = if keep q then nodeOf e q else none := by
  unfold nodeOf keepEntries
  rw [if_neg hq,if_neg hq]
  ext x
  have hl := AList.mem_lookup_iff (a:=q) (b:=x) (s:=e)
  rw [Option.mem_def] at hl
  rw [← Option.mem_def,AList.mem_lookup_iff]
  by_cases hk : keep q <;> simp [List.mem_filter,hk,hl]

/-- `shutil.rmtree`: remove a path and everything below it. -/
def rmtree (t : Tree Name B) (p : Path Name) : Tree Name B where
  entries := keepEntries t.entries fun q => !decide (p <+: q)
  parented q n h := by
    rw [nodeOf_keepEntries _ _ (by simp)] at h
    by_cases hq : q = []
    · simp [nodeOf,hq]
    · rw [nodeOf_keepEntries _ _ hq]
      split at h
      · rename_i hk
        have hpq : ¬ p <+: q := by
          intro hpre
          have hpre' : p <+: q++[n] := hpre.trans (List.prefix_append q [n])
          simp [hpre'] at hk
        rw [if_pos (by simp [hpq])]
        exact t.parented q n h
      · exact absurd rfl h

theorem node_rmtree (t : Tree Name B) (p q : Path Name) (hq : q ≠ []) :
    (t.rmtree p).node q = if p <+: q then none else t.node q := by
  unfold node rmtree
  rw [nodeOf_keepEntries _ _ hq]
  by_cases h : p <+: q <;> simp [h]

theorem node_rmtree_or (t : Tree Name B) (p q : Path Name) :
    (t.rmtree p).node q = none ∨ (t.rmtree p).node q = t.node q := by
  by_cases hq : q = []
  · simp [hq]
  · rw [node_rmtree t p q hq]
    split
    · exact .inl rfl
    · exact .inr rfl

/-- Nothing outside `P` changes, except that directories appear on the way to paths in `P`. -/
def Frame (P : Path Name → Prop) (t u : Tree Name B) : Prop :=
  ∀ q, ¬ P q → u.node q = t.node q ∨ (t.node q = none ∧ u.node q = some .dir ∧ ∃ r, P r ∧ q <+: r)

namespace Frame

variable {P Q : Path Name → Prop} {t u v : Tree Name B}

theorem refl (P : Path Name → Prop) (t : Tree Name B) : Frame P t t := fun _ _ => .inl rfl

theorem trans (htu : Frame P t u) (huv : Frame P u v) : Frame P t v := by
  intro q hq
  rcases htu q hq with h | ⟨hn,hd,hr⟩
  · rcases huv q hq with h' | ⟨hn',hd',hr'⟩
    · exact .inl (h'.trans h)
    · exact .inr ⟨h ▸ hn',hd',hr'⟩
  · rcases huv q hq with h' | ⟨hn',_⟩
    · exact .inr ⟨hn,h'.trans hd,hr⟩
    · rw [hd] at hn'
      simp at hn'

theorem mono (hPQ : ∀ q, P q → Q q) (h : Frame P t u) : Frame Q t u := by
  intro q hq
  rcases h q fun hp => hq (hPQ q hp) with h | ⟨hn,hd,r,hr,hqr⟩
  · exact .inl h
  · exact .inr ⟨hn,hd,r,hPQ r hr,hqr⟩

theorem bytes_eq (h : Frame P t u) {q : Path Name} (hq : ¬ P q) : u.bytes q = t.bytes q := by
  rcases h q hq with h | ⟨hn,hd,_⟩
  · exact bytes_eq_of_node h
  · simp [bytes,hn,hd]

theorem node_eq (h : Frame P t u) {q : Path Name} (hq : ¬ P q) (hr : ∀ r, P r → ¬ q <+: r) :
    u.node q = t.node q := by
  rcases h q hq with h | ⟨_,_,r,hp,hqr⟩
  · exact h
  · exact absurd hqr (hr r hp)

theorem node_eq_of_ne_none (h : Frame P t u) {q : Path Name} (hq : ¬ P q) (hn : t.node q ≠ none) :
    u.node q = t.node q := by
  rcases h q hq with h | ⟨hn',_⟩
  · exact h
  · exact absurd hn' hn

theorem mkdirs {cur rest r : Path Name} (h : t.mkdirs cur rest = some u) (hr : cur++rest <+: r)
    (hP : P r) : Frame P t u := by
  intro q _
  rcases node_mkdirs h q with hs | ⟨hn,hd,hq⟩
  · exact .inl hs
  · exact .inr ⟨hn,hd,r,hP,hq.trans hr⟩

theorem writeFile {p : Path Name} {b : B} (h : t.writeFile p b = some u) (hP : P p) :
    Frame P t u := by
  intro q hq
  rw [node_writeFile h,if_neg (by rintro rfl; exact hq hP)]
  exact .inl rfl

theorem rmtree (t : Tree Name B) {p : Path Name} (hP : ∀ q, p <+: q → P q) :
    Frame P t (t.rmtree p) := by
  intro q hq
  by_cases hq0 : q = []
  · simp [hq0]
  · rw [node_rmtree t p q hq0,if_neg fun h => hq (hP q h)]
    exact .inl rfl

end Frame

/-- The paths, relative to `p`, of the files strictly below `p`. -/
def filesUnder (t : Tree Name B) (p : Path Name) : List (Path Name) :=
  t.entries.keys.filterMap fun q =>
    if p <+: q ∧ p.length < q.length ∧ t.isFile q then some (q.drop p.length) else none

theorem mem_filesUnder {rel : Path Name} :
    rel ∈ t.filesUnder p ↔ rel ≠ [] ∧ t.isFile (p++rel) := by
  simp only [filesUnder,List.mem_filterMap,Option.ite_none_right_eq_some,Option.some.injEq]
  constructor
  · rintro ⟨q,_,⟨⟨r,rfl⟩,hlt,hf⟩,rfl⟩
    simp only [List.drop_left]
    exact ⟨by rintro rfl; simp at hlt,hf⟩
  · rintro ⟨hr,hf⟩
    refine ⟨p++rel,?_,⟨⟨rel,rfl⟩,?_,hf⟩,by simp⟩
    · obtain ⟨b,hb⟩ := isFile_iff.mp hf
      have hne : p++rel ≠ [] := by simp [hr]
      have hl : t.entries.lookup (p++rel) = some (.file b) := by
        simpa [node,nodeOf,hne] using hb
      exact AList.mem_keys.mp (AList.lookup_isSome.mp (by simp [hl]))
    · have := List.length_pos_iff.mpr hr
      simp only [List.length_append]
      omega

theorem filesUnder_nodup (t : Tree Name B) (p : Path Name) : (t.filesUnder p).Nodup := by
  apply List.Nodup.filterMap _ t.entries.keys_nodup
  intro q q' r hq hq'
  simp only [Option.mem_def,Option.ite_none_right_eq_some,Option.some.injEq] at hq hq'
  obtain ⟨⟨⟨s,rfl⟩,_⟩,rfl⟩ := hq
  obtain ⟨⟨⟨s',rfl⟩,_⟩,hs⟩ := hq'
  simp only [List.drop_left] at hs
  rw [hs]

/-- The names of the files in a directory. -/
def fileNames (t : Tree Name B) (dir : Path Name) : List Name := (t.filesUnder dir).filterMap fun
  | [name] => some name
  | _ => none

theorem mem_fileNames {dir : Path Name} {name : Name} :
    name ∈ t.fileNames dir ↔ t.isFile (dir++[name]) = true := by
  rw [fileNames,List.mem_filterMap]
  constructor
  · rintro ⟨rel,hrel,hname⟩
    split at hname
    · cases hname
      exact (mem_filesUnder.mp hrel).2
    · cases hname
  · exact fun h => ⟨[name],mem_filesUnder.mpr ⟨List.cons_ne_nil _ _,h⟩,rfl⟩

theorem fileNames_nodup (t : Tree Name B) (dir : Path Name) : (t.fileNames dir).Nodup := by
  refine List.Nodup.filterMap ?_ (filesUnder_nodup t dir)
  intro p q name hp hq
  split at hp
  · cases hp
    split at hq
    · cases hq
      rfl
    · cases hq
  · cases hp

/-- The names of the directories in a directory. -/
def dirNames (t : Tree Name B) (dir : Path Name) : List Name :=
  t.entries.keys.filterMap fun q => if q.dropLast = dir ∧ t.isDir q then q.getLast? else none

theorem mem_dirNames {dir : Path Name} {name : Name} :
    name ∈ t.dirNames dir ↔ t.node (dir++[name]) = some .dir := by
  simp only [dirNames,List.mem_filterMap,Option.ite_none_right_eq_some]
  constructor
  · rintro ⟨q,_,⟨rfl,hdir⟩,hlast⟩
    rw [List.dropLast_append_getLast? name hlast]
    exact isDir_iff.mp hdir
  · intro h
    refine ⟨dir++[name],?_,⟨List.dropLast_concat,isDir_iff.mpr h⟩,List.getLast?_concat⟩
    have hl : t.entries.lookup (dir++[name]) = some .dir := by
      simpa [node,nodeOf] using h
    exact AList.mem_keys.mp (AList.lookup_isSome.mp (by simp [hl]))

theorem dirNames_nodup (t : Tree Name B) (dir : Path Name) : (t.dirNames dir).Nodup := by
  apply List.Nodup.filterMap _ t.entries.keys_nodup
  intro q q' name hq hq'
  simp only [Option.mem_def,Option.ite_none_right_eq_some] at hq hq'
  obtain ⟨⟨rfl,_⟩,hlast⟩ := hq
  obtain ⟨⟨hparent,_⟩,hlast'⟩ := hq'
  rw [← List.dropLast_append_getLast? name hlast,← List.dropLast_append_getLast? name hlast',hparent]

/-- The length of the longest path. -/
def height (t : Tree Name B) : ℕ := (t.entries.keys.map List.length).foldr max 0

theorem length_le_height (h : t.node p ≠ none) :
    p.length ≤ t.height := by
  have hmax : ∀ (l : List ℕ) (n : ℕ), n ∈ l → n ≤ l.foldr max 0 := by
    intro l n hn
    induction l with
    | nil => cases hn
    | cons a l ih =>
      cases List.mem_cons.mp hn with
      | inl heq => exact heq ▸ le_max_left _ _
      | inr hmem => exact (ih hmem).trans (le_max_right _ _)
  by_cases hp : p = []
  · rw [hp]
    exact Nat.zero_le _
  · refine hmax _ _ (List.mem_map_of_mem ?_)
    have hl : t.entries.lookup p ≠ none := by simpa [node,nodeOf,hp] using h
    exact AList.mem_keys.mp (AList.lookup_isSome.mp (Option.isSome_iff_ne_none.mpr hl))

section Blocked

variable {t u : Tree Name B} {p : Path Name}

/-- A file stands where the path needs a directory. -/
def Blocked (t : Tree Name B) (p : Path Name) : Prop := ∃ q ∈ p.inits, t.isFile q = true

instance (t : Tree Name B) (p : Path Name) : Decidable (t.Blocked p) :=
  inferInstanceAs (Decidable (∃ q ∈ p.inits, t.isFile q = true))

theorem blocked_iff : t.Blocked p ↔ ∃ q b, q <+: p ∧ t.bytes q = some b := by
  simp only [Blocked,List.mem_inits,isFile_iff_bytes,exists_and_left]

theorem blocked_congr (h : ∀ q, q <+: p → u.bytes q = t.bytes q) : u.Blocked p ↔ t.Blocked p := by
  simp only [blocked_iff]
  exact exists_congr fun q => exists_congr fun b => and_congr_right fun hq => by rw [h q hq]

theorem not_blocked_of_dir (h : t.node p = some .dir) : ¬t.Blocked p := by
  rw [blocked_iff]
  rintro ⟨q,b,⟨r,rfl⟩,hb⟩
  cases r with
  | nil =>
    rw [List.append_nil] at h
    rw [bytes_eq_some.mp hb] at h
    cases h
  | cons n r => cases h.symm.trans (t.none_below_file hb (List.cons_ne_nil n r))

theorem mkdirs_eq_none_iff : t.mkdirs [] p = none ↔ t.Blocked p := by
  constructor
  · intro h
    by_contra hfree
    rw [blocked_iff] at hfree
    have hroot : t.node [] = some .dir := by simp
    obtain ⟨u,hu⟩ := mkdirs_isSome p hroot fun q hq => by
      rw [Option.eq_none_iff_forall_not_mem]
      exact fun b hb => hfree ⟨q,b,hq,hb⟩
    rw [hu] at h
    cases h
  · intro h
    by_contra hsome
    obtain ⟨u,hu⟩ := Option.ne_none_iff_exists'.mp hsome
    refine not_blocked_of_dir (isDir_of_mkdirs (by simp) hu) ?_
    rwa [List.nil_append,blocked_congr fun q _ => bytes_mkdirs hu q]

theorem mkdirs_of_dir {cur rest : Path Name} (h : t.node (cur++rest) = some .dir) :
    t.mkdirs cur rest = some t := by
  induction rest generalizing cur with
  | nil => rfl
  | cons n rest ih =>
    have hassoc : cur++[n]++rest = cur++n::rest := by simp
    have hn : t.node (cur++[n]) = some .dir := by
      cases rest with
      | nil => exact h
      | cons m rest => exact t.ancestor_dir (List.cons_ne_nil m rest) (by rw [hassoc,h]; simp)
    rw [mkdirs,mkdir,hn,Option.bind_some]
    exact ih (by rwa [hassoc])

theorem mkdirs_nil_of_dir (h : t.node p = some .dir) : t.mkdirs [] p = some t :=
  mkdirs_of_dir (by rwa [List.nil_append])

end Blocked

/-- Where a written path leads: every component is looked up in a directory. -/
def resolve (t : Tree Name B) : Path Name → RawPath Name → Option (Path Name)
  | cur, [] => some cur
  | cur, c::cs => if t.isDir cur then t.resolve (walk cur c) cs else none

theorem resolve_eq_lexical {raw : RawPath Name}
    (h : t.resolve cur raw = some p) : p = lexical cur raw := by
  induction raw generalizing cur with
  | nil => cases h; rfl
  | cons c cs ih =>
    simp only [resolve,Option.ite_none_right_eq_some] at h
    exact ih h.2

/-- `Path.mkdir(parents=True, exist_ok=True)` on a written path. -/
def mkdirsRaw : Tree Name B → Path Name → RawPath Name → Option (Tree Name B × Path Name)
  | t, cur, [] => some (t,cur)
  | t, cur, c::cs => (t.mkdir (walk cur c)).bind fun u => u.mkdirsRaw (walk cur c) cs

end Tree
end MinimaxCode.FileTree
