import MinimaxCode.SandboxMachine

/-!
# Backups before an edit

Before a file is changed a copy of it goes to `<root>/.minimax/backups`, under the time and the
path with its separators flattened. All backups share that directory: those of a file are found
again by the end of their names, and of these all but the newest ten are removed. Beside the
disk, a world remembers the backups that were made.
-/

namespace MinimaxCode.Backups

open PyText FileTree FileTree.Tree Sandbox Runs

/-- A name that sorts last comes first. -/
def Later (a b : PyStr) : Prop := strLe b a = true

instance : DecidableRel Later := fun a b => inferInstanceAs (Decidable (strLe b a = true))
instance : Std.Total Later := ⟨fun a b => strLe_total b a⟩
instance : IsTrans PyStr Later := ⟨fun _ _ _ hab hbc => strLe_trans hbc hab⟩

theorem eq_of_perm_later {l l' : List PyStr} (hl : l.Pairwise Later) (hl' : l'.Pairwise Later)
    (h : l.Perm l') : l = l' :=
  h.eq_of_pairwise (fun _ _ _ _ hab hba => strLe_antisymm hba hab) hl hl'

theorem take_orderedInsert_take {α : Type*} (r : α → α → Prop) [DecidableRel r] (x : α) (l : List α)
    (k : ℕ) : ((l.take k).orderedInsert r x).take k = (l.orderedInsert r x).take k := by
  induction l generalizing k with
  | nil => simp
  | cons a l ih =>
    cases k with
    | zero => simp
    | succ k =>
      by_cases h : r x a
      · cases k <;> simp [h,List.take_take]
      · simp [h,ih k]

def backupDir : Rel := [minimaxDir,lit "backups"]
def maxBackupsPerFile : ℕ := 10

/-- The text of the time, down to the microsecond. -/
structure Stamp where
  text : PyStr
  length_text : text.length = 21
  deriving DecidableEq

section Manager

variable (root : Rel)

def backupRoot : Rel := root++backupDir

/-- `_relative_path`: a file outside the workspace goes by its name. -/
def relativePath (file : Rel) : PyStr :=
  if root <+: file then
    let parts := file.drop root.length
    if parts.isEmpty then lit "." else List.intercalate (lit "/") parts
  else file.getLast?.getD []

def flatName (file : Rel) : PyStr :=
  (relativePath root file).map fun c => if c = ch '/' then ch '_' else c

def backupName (ts : Stamp) (file : Rel) : PyStr := ts.text++lit "_"++flatName root file

variable {B : Type}

/-- The backups that are taken for those of the file, sorted by name. -/
def candidates (d : Disk B) (file : Rel) : List PyStr :=
  ((d.fileNames (backupRoot root)).filter fun name => flatName root file <:+ name).insertionSort
    fun a b => strLe a b = true

def prune (d : Disk B) (file : Rel) : Disk B :=
  let found := candidates root d file
  if found.length ≤ maxBackupsPerFile then d
  else (found.take (found.length-maxBackupsPerFile)).foldl
    (fun d name => d.rmtree (backupRoot root++[name])) d

structure Made where
  backupPath : Rel
  originalPath : Rel
  timestamp : Stamp

/-- `backup`, on a disk that does not fail. -/
def backup (d : Disk B) (file : Rel) (ts : Stamp) : Option Made × Disk B :=
  if (d.node file).isNone then (none,d)
  else
    let dest := backupRoot root++[backupName root ts file]
    match d.mkdirs [] dest.dropLast with
    | none => (none,d)
    | some e => match copy2 e file dest .done with
      | .error e => (none,e)
      | .ok e => (some ⟨dest,file,ts⟩,prune root e file)

end Manager

structure Backup (B : Type) where
  file : Rel
  ts : Stamp
  bytes : B

/-- The backups made so far, the last one first. -/
structure World (B : Type) where
  disk : Disk B
  made : List (Backup B)

inductive Action (B : Type)
  | backup (file : Rel) (ts : Stamp)
  /-- Somebody changes the disk, the backups apart. -/
  | change (p : Rel) (c : Change B)

section Step

variable {B : Type} (root : Rel)

def step (w : World B) : Action B → Option (World B)
  | .backup file ts =>
    let (made,disk) := backup root w.disk file ts
    match made, w.disk.bytes file with
    | some _, some b => some ⟨disk,⟨file,ts,b⟩::w.made⟩
    | _, _ => some { w with disk := disk }
  | .change p c =>
    if backupRoot root <+: p ∨ p <+: backupRoot root then none
    else (c.apply w.disk p).map fun disk => { w with disk := disk }

/-- What the directory holds for a file, as the manager finds it again, the newest first. -/
def held (d : Disk B) (file : Rel) : List (PyStr × Option B) :=
  (candidates root d file).reverse.map fun name => (name,d.bytes (backupRoot root++[name]))

/-- The newest backups of a file, as they were made. -/
def newest (made : List (Backup B)) (file : Rel) : List (PyStr × Option B) :=
  (((made.filter fun x => x.file = file).insertionSort fun x y => Later x.ts.text y.ts.text).take
    maxBackupsPerFile).map fun x => (backupName root x.ts x.file,some x.bytes)

/-- The directory holds the newest backups of each file, and takes nothing else for them. -/
def Kept (w : World B) : Prop := ∀ x ∈ w.made, held root w.disk x.file = newest root w.made x.file

/-- The name of a backup about to be made is not in use, and neither does it end like the path
of another file that has backups, nor do their names end like the path of this file. -/
def Apart (w : World B) : Action B → Prop
  | .backup file ts => w.disk.isFile file = true →
    w.disk.node (backupRoot root++[backupName root ts file]) = none ∧
    ∀ x ∈ w.made, x.file ≠ file → ¬flatName root x.file <:+ backupName root ts file ∧
      (w.disk.isFile (backupRoot root++[backupName root x.ts x.file]) = true →
        ¬flatName root file <:+ backupName root x.ts x.file)
  | .change _ _ => True

end Step

section Proofs

variable {B : Type} {root file : Rel} {d e : Disk B} {ts : Stamp} {name : PyStr}

theorem mem_candidates : name ∈ candidates root d file ↔
    d.isFile (backupRoot root++[name]) = true ∧ flatName root file <:+ name := by
  rw [candidates,List.mem_insertionSort,List.mem_filter,mem_fileNames,decide_eq_true_eq]

theorem nodup_candidates : (candidates root d file).Nodup :=
  (List.perm_insertionSort _ _).nodup_iff.mpr ((d.fileNames_nodup _).filter _)

theorem pairwise_reverse_candidates : (candidates root d file).reverse.Pairwise Later := by
  have : Std.Total fun a b : PyStr => strLe a b = true := ⟨strLe_total⟩
  have : IsTrans PyStr fun a b => strLe a b = true := ⟨fun _ _ _ => strLe_trans⟩
  rw [List.pairwise_reverse]
  exact List.pairwise_insertionSort _ _

theorem reverse_candidates_eq {l : List PyStr} (hl : l.Pairwise Later) (hnodup : l.Nodup)
    (h : ∀ name, name ∈ l ↔ name ∈ candidates root d file) : (candidates root d file).reverse = l := by
  refine eq_of_perm_later pairwise_reverse_candidates hl ?_
  refine (List.perm_ext_iff_of_nodup (List.nodup_reverse.mpr nodup_candidates) hnodup).mpr fun name => ?_
  rw [List.mem_reverse,h]

theorem reverse_candidates_insert (hnew : d.bytes (backupRoot root++[name]) = none)
    (hsuffix : flatName root file <:+ name)
    (h : ∀ n, e.isFile (backupRoot root++[n]) = true ↔ n = name ∨ d.isFile (backupRoot root++[n]) = true) :
    (candidates root e file).reverse = (candidates root d file).reverse.orderedInsert Later name := by
  have hperm := (candidates root d file).reverse.perm_orderedInsert Later name
  have hnot : name ∉ (candidates root d file).reverse := by
    rw [List.mem_reverse,mem_candidates,isFile_iff_bytes,hnew]
    simp
  refine reverse_candidates_eq (pairwise_reverse_candidates.orderedInsert _ _)
    (hperm.nodup_iff.mpr (List.nodup_cons.mpr ⟨hnot,List.nodup_reverse.mpr nodup_candidates⟩)) fun n => ?_
  rw [List.mem_orderedInsert,List.mem_reverse,mem_candidates,mem_candidates,h]
  constructor
  · rintro (rfl | ⟨hfile,hn⟩)
    · exact ⟨.inl rfl,hsuffix⟩
    · exact ⟨.inr hfile,hn⟩
  · rintro ⟨rfl | hfile,hn⟩
    · exact .inl rfl
    · exact .inr ⟨hfile,hn⟩

theorem reverse_candidates_congr (h : ∀ n, flatName root file <:+ n →
    (e.isFile (backupRoot root++[n]) = true ↔ d.isFile (backupRoot root++[n]) = true)) :
    (candidates root e file).reverse = (candidates root d file).reverse := by
  refine reverse_candidates_eq pairwise_reverse_candidates (List.nodup_reverse.mpr nodup_candidates)
    fun n => ?_
  rw [List.mem_reverse,mem_candidates,mem_candidates]
  exact and_congr_left fun hn => (h n hn).symm

theorem node_unlink (dir : Rel) (names : List PyStr) (d : Disk B) (name : PyStr) :
    (names.foldl (fun d n => d.rmtree (dir++[n])) d).node (dir++[name]) =
      if name ∈ names then none else d.node (dir++[name]) := by
  induction names generalizing d with
  | nil => simp
  | cons n names ih =>
    have hsame : dir++[n] <+: dir++[name] ↔ name = n := by
      rw [List.prefix_append_right_inj,List.singleton_prefix_cons_iff]
      exact eq_comm
    rw [List.foldl_cons,ih,node_rmtree _ _ _ (by simp)]
    simp only [hsame,List.mem_cons]
    by_cases hn : name = n <;> by_cases hmem : name ∈ names <;> simp [hn,hmem]

theorem node_prune (name : PyStr) : (prune root d file).node (backupRoot root++[name]) =
    if name ∈ (candidates root d file).reverse.drop maxBackupsPerFile then none
    else d.node (backupRoot root++[name]) := by
  have hmem : name ∈ (candidates root d file).reverse.drop maxBackupsPerFile ↔ name ∈
      (candidates root d file).take ((candidates root d file).length-maxBackupsPerFile) := by
    rw [List.drop_reverse,List.mem_reverse]
  simp only [hmem,prune]
  split
  · next h => simp [Nat.sub_eq_zero_of_le h]
  · exact node_unlink _ _ _ _

theorem bytes_prune (name : PyStr) : (prune root d file).bytes (backupRoot root++[name]) =
    if name ∈ (candidates root d file).reverse.drop maxBackupsPerFile then none
    else d.bytes (backupRoot root++[name]) := by
  rw [Tree.bytes,node_prune]
  split <;> rfl

theorem isFile_prune : (prune root d file).isFile (backupRoot root++[name]) = true ↔
    name ∉ (candidates root d file).reverse.drop maxBackupsPerFile ∧
      d.isFile (backupRoot root++[name]) = true := by
  rw [isFile_iff_bytes,isFile_iff_bytes,bytes_prune]
  split <;> simp_all

theorem not_mem_drop_iff {l : List PyStr} (hl : l.Nodup) {k : ℕ} (h : name ∈ l) :
    name ∉ l.drop k ↔ name ∈ l.take k := by
  have hboth := List.disjoint_take_drop hl (le_refl k)
  rw [← List.take_append_drop k l,List.mem_append] at h
  exact ⟨h.resolve_right,fun ht hd => hboth ht hd⟩

theorem reverse_candidates_prune : (candidates root (prune root d file) file).reverse =
    (candidates root d file).reverse.take maxBackupsPerFile := by
  have hnodup : (candidates root d file).reverse.Nodup := List.nodup_reverse.mpr nodup_candidates
  refine reverse_candidates_eq (pairwise_reverse_candidates.sublist (List.take_sublist _ _))
    (hnodup.sublist (List.take_sublist _ _)) fun name => ?_
  rw [mem_candidates,isFile_prune,and_assoc,← mem_candidates]
  constructor
  · intro h
    have hmem := List.mem_of_mem_take h
    exact ⟨(not_mem_drop_iff hnodup hmem).mpr h,List.mem_reverse.mp hmem⟩
  · rintro ⟨hdrop,hmem⟩
    exact (not_mem_drop_iff hnodup (List.mem_reverse.mpr hmem)).mp hdrop

theorem copy2_ok {src dst : Rel} (h : copy2 d src dst .done = .ok e) (hdst : d.isDir dst = false) :
    ∃ b, d.bytes src = some b ∧ d.writeFile dst b = some e := by
  rw [copy2] at h
  cases hb : d.bytes src with
  | none =>
    rw [hb] at h
    cases h
  | some b =>
    rw [hb,hdst] at h
    dsimp only [Bool.false_eq_true,if_false] at h
    cases hw : d.writeFile dst b with
    | none =>
      rw [if_neg Bool.false_ne_true,hw] at h
      cases h
    | some e' =>
      rw [if_neg Bool.false_ne_true,hw] at h
      cases h
      exact ⟨b,rfl,hw⟩

theorem copy2_done_error {src dst : Rel} (h : copy2 d src dst .done = .error e) : e = d := by
  rw [copy2] at h
  cases hb : d.bytes src with
  | none =>
    rw [hb] at h
    cases h
    rfl
  | some b =>
    rw [hb] at h
    dsimp only at h
    split at h
    · cases h
    · cases h
      rfl

theorem bytes_of_copy2 {src dst : Rel} {o : CopyOutcome B} (h : copy2 d src dst o = .ok e) :
    ∃ b, d.bytes src = some b := by
  rw [copy2] at h
  cases hb : d.bytes src with
  | none =>
    rw [hb] at h
    cases h
  | some b => exact ⟨b,rfl⟩

theorem backup_copied {made : Made} {t : Disk B} (h : backup root d file ts = (some made,t)) :
    ∃ e e', d.mkdirs [] (backupRoot root++[backupName root ts file]).dropLast = some e ∧
      copy2 e file (backupRoot root++[backupName root ts file]) .done = .ok e' ∧
      t = prune root e' file := by
  rw [backup] at h
  split at h
  · cases h
  · dsimp only at h
    split at h
    · cases h
    · next e he =>
      split at h
      · cases h
      · next e' he' =>
        cases h
        exact ⟨e,e',he,he',rfl⟩

theorem backup_made {made : Made} {t : Disk B} (h : backup root d file ts = (some made,t))
    (hfresh : d.node (backupRoot root++[backupName root ts file]) = none) :
    ∃ b e, d.bytes file = some b ∧ t = prune root e file ∧
      ∀ name, e.bytes (backupRoot root++[name]) =
        if name = backupName root ts file then some b else d.bytes (backupRoot root++[name]) := by
  obtain ⟨e,e',he,he',rfl⟩ := backup_copied h
  obtain ⟨b,hb,hw⟩ := copy2_ok he' (isDir_of_none ((node_mkdirs_dropLast he).trans hfresh))
  refine ⟨b,e',(bytes_mkdirs he _).symm.trans hb,rfl,fun name => ?_⟩
  rw [bytes_writeFile hw,bytes_mkdirs he]
  simp

theorem backup_not_made {t : Disk B} (h : backup root d file ts = (none,t)) (p : Rel) :
    t.bytes p = d.bytes p := by
  rw [backup] at h
  split at h
  · cases h
    rfl
  · dsimp only at h
    split at h
    · cases h
      rfl
    · next e he =>
      split at h
      · next e' he' =>
        cases h
        rw [copy2_done_error he',bytes_mkdirs he]
      · cases h

theorem frame_prune (root : Rel) (d : Disk B) (file : Rel) :
    Frame (fun q => backupRoot root <+: q) d (prune root d file) := by
  have hall : ∀ (names : List PyStr) (d : Disk B), Frame (fun q => backupRoot root <+: q) d
      (names.foldl (fun d name => d.rmtree (backupRoot root++[name])) d) := by
    intro names
    induction names with
    | nil => exact fun d => .refl _ d
    | cons name names ih =>
      exact fun d => (Frame.rmtree d fun q hq => (List.prefix_append _ _).trans hq).trans (ih _)
  rw [prune]
  split
  · exact .refl _ d
  · exact hall _ d

theorem frame_backup (root : Rel) (d : Disk B) (file : Rel) (ts : Stamp) :
    Frame (fun q => backupRoot root <+: q) d (backup root d file ts).2 := by
  have hdest : backupRoot root <+: backupRoot root++[backupName root ts file] := List.prefix_append ..
  rw [backup]
  split
  · exact .refl _ d
  · dsimp only
    split
    · exact .refl _ d
    · next e he =>
      have hmade : Frame (fun q => backupRoot root <+: q) d e :=
        .mkdirs he (List.dropLast_prefix _) hdest
      have hcopied := hmade.trans ((frame_copy2 e file _ .done).mono fun q hq => hdest.trans hq)
      split
      · next e' he' =>
        rw [he'] at hcopied
        exact hcopied
      · next e' he' =>
        rw [he'] at hcopied
        exact hcopied.trans (frame_prune root e' file)

/-- The order of the backups of one file. -/
def LaterPair (p q : PyStr × Option B) : Prop := Later p.1 q.1

instance : DecidableRel (LaterPair (B := B)) := fun p q => inferInstanceAs (Decidable (Later p.1 q.1))

theorem strLe_append {a b : PyStr} (h : a.length = b.length) (c : PyStr) :
    strLe (a++c) (b++c) = true ↔ strLe a b = true := by
  induction a generalizing b with
  | nil =>
    rw [List.length_eq_zero_iff.mp h.symm]
    simp [strLe_refl]
  | cons x a ih =>
    cases b with
    | nil => cases h
    | cons y b =>
      rw [List.cons_append,List.cons_append,strLe_cons,strLe_cons,ih (Nat.succ.inj h)]

theorem later_backupName {ts' : Stamp} :
    Later (backupName root ts file) (backupName root ts' file) ↔ Later ts.text ts'.text := by
  rw [Later,backupName,backupName,List.append_assoc,List.append_assoc]
  exact strLe_append (ts'.length_text.trans ts.length_text.symm) _

theorem newest_cons (x : Backup B) (made : List (Backup B)) : newest root (x::made) x.file =
    ((newest root made x.file).orderedInsert LaterPair (backupName root x.ts x.file,some x.bytes)).take
      maxBackupsPerFile := by
  have hsame : ∀ y ∈ ((made.filter fun y => y.file = x.file).insertionSort fun y z =>
      Later y.ts.text z.ts.text).take maxBackupsPerFile, y.file = x.file := by
    intro y hy
    have hmem := (List.mem_insertionSort _).mp (List.mem_of_mem_take hy)
    exact of_decide_eq_true (List.mem_filter.mp hmem).2
  rw [newest,List.filter_cons_of_pos (by simp),List.insertionSort_cons,← take_orderedInsert_take,
    List.map_take,newest,List.map_orderedInsert _ LaterPair]
  · intro y hy
    simp only [LaterPair,hsame y hy,later_backupName]
  · intro y hy
    simp only [LaterPair,hsame y hy,later_backupName]

theorem newest_cons_of_ne {x : Backup B} (h : x.file ≠ file) (made : List (Backup B)) :
    newest root (x::made) file = newest root made file := by
  rw [newest,List.filter_cons_of_neg (by simpa using h),newest]

theorem held_congr (h : ∀ n, flatName root file <:+ n →
    e.bytes (backupRoot root++[n]) = d.bytes (backupRoot root++[n])) :
    held root e file = held root d file := by
  have hsame : (candidates root e file).reverse = (candidates root d file).reverse :=
    reverse_candidates_congr fun n hn => by rw [isFile_iff_bytes,isFile_iff_bytes,h n hn]
  rw [held,held,hsame]
  refine List.map_congr_left fun n hn => ?_
  rw [h n (mem_candidates.mp (List.mem_reverse.mp hn)).2]

theorem held_prune : held root (prune root d file) file = (held root d file).take maxBackupsPerFile := by
  have hnodup : (candidates root d file).reverse.Nodup := List.nodup_reverse.mpr nodup_candidates
  rw [held,reverse_candidates_prune,held,← List.map_take]
  refine List.map_congr_left fun n hn => ?_
  rw [bytes_prune,if_neg ((not_mem_drop_iff hnodup (List.mem_of_mem_take hn)).mpr hn)]

theorem held_insert {b : B} (hnew : d.bytes (backupRoot root++[name]) = none)
    (hsuffix : flatName root file <:+ name) (h : ∀ n, e.bytes (backupRoot root++[n]) =
      if n = name then some b else d.bytes (backupRoot root++[n])) :
    held root e file = (held root d file).orderedInsert LaterPair (name,some b) := by
  have hfiles : ∀ n, e.isFile (backupRoot root++[n]) = true ↔
      n = name ∨ d.isFile (backupRoot root++[n]) = true := by
    intro n
    rw [isFile_iff_bytes,isFile_iff_bytes,h]
    split <;> simp_all
  have hmap : held root d file = (candidates root d file).reverse.map fun n =>
      (n,e.bytes (backupRoot root++[n])) := by
    refine List.map_congr_left fun n hn => ?_
    have hne : n ≠ name := by
      rintro rfl
      have hfile := (mem_candidates.mp (List.mem_reverse.mp hn)).1
      rw [isFile_iff_bytes,hnew] at hfile
      simp at hfile
    rw [h,if_neg hne]
  have hb : e.bytes (backupRoot root++[name]) = some b := by rw [h,if_pos rfl]
  rw [hmap,← hb,held,reverse_candidates_insert hnew hsuffix hfiles,List.map_orderedInsert _ LaterPair]
  · exact fun n _ => .rfl
  · exact fun n _ => .rfl

variable {w w' : World B}

/-- What is held is what was made, and nothing else is in the directory. -/
structure Inv (root : Rel) (w : World B) : Prop where
  kept : Kept root w
  known : ∀ name, w.disk.isFile (backupRoot root++[name]) = true →
    ∃ x ∈ w.made, name = backupName root x.ts x.file

theorem Inv.frame (hw : Inv root w) (h : ∀ name, d.bytes (backupRoot root++[name]) =
    w.disk.bytes (backupRoot root++[name])) : Inv root { w with disk := d } where
  kept x hx := (held_congr fun n _ => h n).trans (hw.kept x hx)
  known name hname := by
    rw [isFile_iff_bytes,h,← isFile_iff_bytes] at hname
    exact hw.known name hname

theorem mem_newest {made : List (Backup B)} {p : PyStr × Option B} (h : p ∈ newest root made file) :
    ∃ x ∈ made, x.file = file ∧ p.1 = backupName root x.ts x.file := by
  obtain ⟨x,hx,rfl⟩ := List.mem_map.mp h
  have hmem := List.mem_filter.mp ((List.mem_insertionSort _).mp (List.mem_of_mem_take hx))
  exact ⟨x,hmem.1,of_decide_eq_true hmem.2,rfl⟩

theorem Inv.held_eq (hw : Inv root w) (hapart : ∀ x ∈ w.made, x.file ≠ file →
    w.disk.isFile (backupRoot root++[backupName root x.ts x.file]) = true →
      ¬flatName root file <:+ backupName root x.ts x.file) :
    held root w.disk file = newest root w.made file := by
  by_cases hmade : ∃ x ∈ w.made, x.file = file
  · obtain ⟨x,hx,rfl⟩ := hmade
    exact hw.kept x hx
  · have hnone : ∀ x ∈ w.made, x.file ≠ file := fun x hx heq => hmade ⟨x,hx,heq⟩
    have hnewest : newest root w.made file = [] := by
      rw [newest,List.filter_eq_nil_iff.mpr fun x hx => by simpa using hnone x hx]
      rfl
    have hempty : candidates root w.disk file = [] := by
      refine List.eq_nil_iff_forall_not_mem.mpr fun name hname => ?_
      obtain ⟨hfile,hsuffix⟩ := mem_candidates.mp hname
      obtain ⟨x,hx,rfl⟩ := hw.known name hfile
      exact hapart x hx (hnone x hx) hfile hsuffix
    rw [hnewest,held,hempty]
    rfl

theorem Inv.held_other (hw : Inv root w) {b : B} (hapart : ∀ x ∈ w.made, x.file ≠ file →
      ¬flatName root x.file <:+ backupName root ts file ∧
      (w.disk.isFile (backupRoot root++[backupName root x.ts x.file]) = true →
        ¬flatName root file <:+ backupName root x.ts x.file))
    (he : ∀ name, e.bytes (backupRoot root++[name]) =
      if name = backupName root ts file then some b else w.disk.bytes (backupRoot root++[name]))
    {x : Backup B} (hx : x ∈ w.made) (hne : x.file ≠ file) :
    held root (prune root e file) x.file = held root w.disk x.file := by
  refine held_congr fun n hn => ?_
  have hnew : n ≠ backupName root ts file := by
    rintro rfl
    exact (hapart x hx hne).1 hn
  have hbytes : e.bytes (backupRoot root++[n]) = w.disk.bytes (backupRoot root++[n]) := by
    rw [he,if_neg hnew]
  rw [bytes_prune,hbytes]
  refine if_neg fun hdrop => ?_
  -- What is removed was found under the path of the file, and was made for the other one.
  obtain ⟨hfile,hsuffix⟩ := mem_candidates.mp (List.mem_reverse.mp (List.mem_of_mem_drop hdrop))
  rw [isFile_iff_bytes,hbytes,← isFile_iff_bytes] at hfile
  have hheld : (n,w.disk.bytes (backupRoot root++[n])) ∈ held root w.disk x.file :=
    List.mem_map.mpr ⟨n,List.mem_reverse.mpr (mem_candidates.mpr ⟨hfile,hn⟩),rfl⟩
  rw [hw.kept x hx] at hheld
  obtain ⟨y,hy,hyx,hname⟩ := mem_newest hheld
  dsimp only at hname
  subst hname
  exact (hapart y hy (hyx ▸ hne)).2 hfile hsuffix

theorem inv_backup (hw : Inv root w) (hok : Apart root w (.backup file ts))
    (h : step root w (.backup file ts) = some w') :
    Inv root w' ∧ ∀ x ∈ w.made, x.file ≠ file → held root w'.disk x.file = held root w.disk x.file := by
  rw [step] at h
  cases hbackup : backup root w.disk file ts with
  | mk made t =>
    rw [hbackup] at h
    cases made with
    | none =>
      cases h
      have hframe := backup_not_made hbackup
      exact ⟨hw.frame fun name => hframe _,fun x _ _ => held_congr fun n _ => hframe _⟩
    | some made =>
      obtain ⟨e,_,he,hcopy,-⟩ := backup_copied hbackup
      obtain ⟨b,hb⟩ := bytes_of_copy2 hcopy
      rw [bytes_mkdirs he] at hb
      rw [hb] at h
      cases h
      obtain ⟨hfresh,hapart⟩ := hok (isFile_iff_bytes.mpr ⟨b,hb⟩)
      obtain ⟨b',e,hb',rfl,he⟩ := backup_made hbackup hfresh
      cases hb.symm.trans hb'
      have hother : ∀ x ∈ w.made, x.file ≠ file →
          held root (prune root e file) x.file = held root w.disk x.file :=
        fun x hx hne => hw.held_other hapart he hx hne
      have hnew : w.disk.bytes (backupRoot root++[backupName root ts file]) = none := by
        rw [Tree.bytes,hfresh]
        rfl
      have hown : held root (prune root e file) file = newest root (⟨file,ts,b⟩::w.made) file := by
        rw [held_prune,held_insert hnew (List.suffix_append _ _) he,
          hw.held_eq fun x hx hne => (hapart x hx hne).2]
        exact (newest_cons ⟨file,ts,b⟩ w.made).symm
      refine ⟨⟨fun x hx => ?_,fun name hname => ?_⟩,hother⟩
      · by_cases hfile : x.file = file
        · rw [hfile]
          exact hown
        · have hmade : x ∈ w.made := by
            refine (List.mem_cons.mp hx).resolve_left ?_
            rintro rfl
            exact hfile rfl
          rw [newest_cons_of_ne fun heq => hfile heq.symm]
          exact (hother x hmade hfile).trans (hw.kept x hmade)
      · obtain ⟨b',hbytes⟩ := isFile_iff_bytes.mp (isFile_prune.mp hname).2
        rw [he] at hbytes
        split at hbytes
        · next heq => exact ⟨_,List.mem_cons_self,heq⟩
        · obtain ⟨x,hx,heq⟩ := hw.known name (isFile_iff_bytes.mpr ⟨b',hbytes⟩)
          exact ⟨x,List.mem_cons_of_mem _ hx,heq⟩

theorem bytes_change {p : Rel} {c : Change B} (h : c.apply d p = some e)
    (hp : ¬(backupRoot root <+: p ∨ p <+: backupRoot root)) (name : PyStr) :
    e.bytes (backupRoot root++[name]) = d.bytes (backupRoot root++[name]) := by
  have hne : backupRoot root++[name] ≠ p := by
    rintro rfl
    exact hp (.inl (List.prefix_append _ _))
  cases c with
  | write b => rw [bytes_toolWrite h,if_neg hne]
  | mkdir => exact bytes_mkdirs h _
  | remove =>
    cases h
    have hbelow : ¬p <+: backupRoot root++[name] := by
      intro hpre
      rcases List.prefix_concat_iff.mp hpre with heq | hpre
      · exact hne heq.symm
      · exact hp (.inr hpre)
    refine bytes_eq_of_node ?_
    rw [node_rmtree _ _ _ (by simp),if_neg hbelow]

theorem inv_step {a : Action B} (hw : Inv root w) (hok : Apart root w a)
    (h : step root w a = some w') : Inv root w' := by
  cases a with
  | backup file ts => exact (inv_backup hw hok h).1
  | change p c =>
    rw [step] at h
    split at h
    · cases h
    · next hp =>
      obtain ⟨d,hd,hw'⟩ := Option.map_eq_some_iff.mp h
      cases hw'
      exact hw.frame (bytes_change hd hp)

/-- Before anything is backed up. -/
structure Empty (root : Rel) (w : World B) : Prop where
  made : w.made = []
  files : ∀ name, w.disk.isFile (backupRoot root++[name]) = false

/-- In every run whose files have names that stay apart, the newest backups of each file are
held as made, and a further backup of another file leaves them alone. -/
theorem backups_kept {w₀ : World B} {as : List (Action B)} (h₀ : Empty root w₀)
    (h : Run (step root) (Apart root) w₀ as w) :
    Kept root w ∧ ∀ file ts w', Apart root w (.backup file ts) →
      step root w (.backup file ts) = some w' → ∀ x ∈ w.made, x.file ≠ file →
        held root w'.disk x.file = held root w.disk x.file := by
  have hstart : Inv root w₀ := by
    refine ⟨fun x hx => ?_,fun name hname => ?_⟩
    · rw [h₀.made] at hx
      cases hx
    · rw [h₀.files] at hname
      cases hname
  have hw : Inv root w := h.invariant (fun _ _ _ hok hst hinv => inv_step hinv hok hst) hstart
  exact ⟨hw.kept,fun file ts w' hok hstep => (inv_backup hw hok hstep).2⟩

instance [DecidableEq B] (root : Rel) (w : World B) (a : Action B) : Decidable (Apart root w a) :=
  match a with
  | .backup _ _ => inferInstanceAs (Decidable (_ → _))
  | .change _ _ => inferInstanceAs (Decidable True)

/-- A clock within one tenth of a millisecond. -/
def stampAt (a b : Char) : Stamp := ⟨lit "20260607_1430520000"++[ch a,ch b],rfl⟩

def demo : Rel := [lit "w"]
def xPy : Rel := [lit "w",lit "x.py"]
def srcXPy : Rel := [lit "w",lit "src",lit "x.py"]
def readMe : Rel := [lit "w",lit "src",lit "README"]

def emptyWorld : World ℕ := ⟨.empty,[]⟩

theorem emptyWorld_empty : Empty demo emptyWorld := ⟨rfl,fun name => by simp [emptyWorld,isFile]⟩

/-- Two files whose names stay apart are backed up in turn. -/
def inTurn : List (Action ℕ) :=
  [.change xPy (.write 1),.change readMe (.write 2),.backup readMe (stampAt '0' '0'),
    .backup xPy (stampAt '0' '1'),.change xPy (.write 3),.backup xPy (stampAt '0' '2')]

theorem inTurn_kept : ∃ w, Run (step demo) (Apart demo) emptyWorld inTurn w ∧ w.made.length = 3 ∧
    Kept demo w := by
  have hsome : (exec (fun w a => if decide (Apart demo w a) = true then step demo w a else none)
      emptyWorld inTurn).isSome = true := by decide +kernel
  obtain ⟨w,hw⟩ := Option.isSome_iff_exists.mp hsome
  have hlength : ((exec (fun w a => if decide (Apart demo w a) = true then step demo w a else none)
      emptyWorld inTurn).map fun w => w.made.length) = some 3 := by decide +kernel
  rw [hw] at hlength
  have hrun : Run (step demo) (Apart demo) emptyWorld inTurn w :=
    (run_of_checked hw).mono fun _ _ => of_decide_eq_true
  exact ⟨w,hrun,Option.some.inj hlength,(backups_kept emptyWorld_empty hrun).1⟩

/-- One backup of `src/x.py`, and nine of `x.py`. -/
def nineMore : List (Action ℕ) :=
  [.change xPy (.write 1),.change srcXPy (.write 2),.backup srcXPy (stampAt '0' '0')]++
    ['1','2','3','4','5','6','7','8','9'].map fun c => .backup xPy (stampAt '0' c)

/-- The tenth backup of `x.py` removes the only one of `src/x.py`. -/
theorem tenth_removes_other : ∃ w w', Run (step demo) always emptyWorld nineMore w ∧
    step demo w (.backup xPy (stampAt '1' '0')) = some w' ∧
    newest demo w'.made srcXPy = [(backupName demo (stampAt '0' '0') srcXPy,some 2)] ∧
    w.disk.bytes (backupRoot demo++[backupName demo (stampAt '0' '0') srcXPy]) = some 2 ∧
    w'.disk.bytes (backupRoot demo++[backupName demo (stampAt '0' '0') srcXPy]) = none := by
  refine ⟨last (step demo) emptyWorld nineMore,
    last (step demo) (last (step demo) emptyWorld nineMore) [.backup xPy (stampAt '1' '0')],
    run_last (by decide +kernel),step_last (by decide +kernel),?_,?_,?_⟩
  · decide +kernel
  · decide +kernel
  · decide +kernel

end Proofs

end MinimaxCode.Backups
