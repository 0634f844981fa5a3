import MinimaxCode.SandboxLayout

/-!
# Collecting a run

A collect compares each mirrored file with its baseline and with the workspace,
applies what merges cleanly, treats conflicts by policy, writes a receipt and
prunes the sandbox tree. A run whose receipt exists is not merged again: its
report is replayed. Everything the operating system can refuse is an argument.
-/

namespace MinimaxCode.Sandbox

open PyText FileTree FileTree.Tree

/-- `on_conflict`. -/
inductive Policy
  | fail
  | skip
  | overwrite
  deriving DecidableEq

inductive ConflictReason
  | deleted
  | changed
  | created
  deriving DecidableEq

def ConflictReason.text : ConflictReason → PyStr
  | .deleted => lit "workspace copy was deleted after the sandbox snapshot"
  | .changed => lit "workspace copy changed since the sandbox snapshot"
  | .created => lit "file was created independently in the workspace"

structure Conflict (D : Type) where
  path : Rel
  reason : PyStr
  sandboxSha256 : D
  baseSha256 : Option D
  currentSha256 : Option D

/-- Why a file could not be handled; the text of an `OSError` is not modelled. -/
inductive FileError
  | unreadable
  | os
  deriving DecidableEq

/-- The report of a collect. A merged file says whether a conflict was overwritten. -/
structure Report (D : Type) where
  runId : PyStr
  sandboxDir : RawPath PyStr
  strategy : Policy
  merged : List (Rel × Bool)
  noop : List Rel
  conflicts : List (Conflict D)
  skipped : List Rel
  errors : List (Rel × FileError)

/-- A JSON object a receipt can hold. -/
inductive Doc (D O : Type)
  | report (r : Report D)
  | empty
  | other (o : O)

/-- What `json.loads` makes of a receipt. -/
inductive Loaded (D O : Type)
  | object (doc : Doc D O)
  | null
  | notObject
  | invalid

/-- File contents, SHA-256 and JSON. Distinct contents have distinct hashes, a
dumped object loads as itself, and a write that stops part-way leaves text that
does not parse. -/
structure Host where
  Bytes : Type
  Digest : Type
  Other : Type
  decDigest : DecidableEq Digest
  sha256 : Bytes → Digest
  sha256_injective : Function.Injective sha256
  dumps : Doc Digest Other → Bytes
  loads : Bytes → Loaded Digest Other
  loads_dumps : ∀ doc, loads (dumps doc) = .object doc
  torn : Bytes
  loads_torn : loads torn = .invalid

instance (h : Host) : DecidableEq h.Digest := h.decDigest

inductive ReceiptOutcome
  | done
  | refused
  | torn
  deriving DecidableEq

/-- What the operating system refuses during one call: `exists`, reading, making a
directory, copying to a path, writing the receipt, and removing the tree, which
may stop after some paths are gone. -/
structure Faults (B : Type) where
  stat : Rel → Bool
  read : Rel → Bool
  mkdir : Rel → Bool
  copy : Rel → CopyOutcome B
  receipt : ReceiptOutcome
  rmtree : Option (List Rel)

/-- Nothing is refused. -/
def Faults.none (B : Type) : Faults B where
  stat _ := false
  read _ := false
  mkdir _ := false
  copy _ := .done
  receipt := .done
  rmtree := Option.none

/-- The lists a collect fills while it walks the mirror. -/
structure Tally (D : Type) where
  merged : List (Rel × Bool)
  noop : List Rel
  conflicts : List (Conflict D)
  skipped : List Rel
  errors : List (Rel × FileError)
  created : List Rel
  modified : List Rel

namespace Tally

variable {D : Type}

def start : Tally D := ⟨[],[],[],[],[],[],[]⟩

def addError (t : Tally D) (rel : Rel) (e : FileError) : Tally D := { t with errors := t.errors++[(rel,e)] }
def addNoop (t : Tally D) (rel : Rel) : Tally D := { t with noop := t.noop++[rel] }
def addConflict (t : Tally D) (c : Conflict D) : Tally D := { t with conflicts := t.conflicts++[c] }
def addSkipped (t : Tally D) (rel : Rel) : Tally D := { t with skipped := t.skipped++[rel] }

def addMerged (t : Tally D) (rel : Rel) (resolved new : Bool) : Tally D :=
  { t with
    merged := t.merged++[(rel,resolved)]
    created := if new then t.created++[rel] else t.created
    modified := if new then t.modified else t.modified++[rel] }

/-- Every path the tally speaks of. -/
def paths (t : Tally D) : List Rel :=
  t.merged.map Prod.fst++t.noop++t.conflicts.map Conflict.path++t.skipped++t.errors.map Prod.fst

end Tally

section Walk

variable (h : Host) (f : Faults h.Bytes)

/-- `file_sha256`. -/
def fileSha256 (d : Disk h.Bytes) (p : Rel) : Option h.Digest :=
  if f.read p then none else (d.bytes p).map h.sha256

/-- `Path.exists`; `none` when it raises. -/
def exists? (d : Disk h.Bytes) (p : Rel) : Option Bool :=
  if f.stat p then none else some (d.node p).isSome

/-- The three-way comparison. -/
def conflictReason {D : Type} [DecidableEq D] (hasBase : Bool) (baseSha curSha : Option D) (sbSha : D) :
    Option ConflictReason :=
  if hasBase then
    if curSha = none then some .deleted
    else if curSha ≠ baseSha ∧ curSha ≠ some sbSha then some .changed
    else none
  else if curSha ≠ none ∧ curSha ≠ some sbSha then some .created
  else none

/-- Make the parent directory and copy the sandbox version over. -/
def applySandbox (d : Disk h.Bytes) (sbFile wsFile : Rel) : Except (Disk h.Bytes) (Disk h.Bytes) :=
  if f.mkdir wsFile.dropLast then .error d
  else match d.mkdirs [] wsFile.dropLast with
    | none => .error d
    | some e => copy2 e sbFile wsFile (f.copy wsFile)

/-- One turn of the walk. -/
def collectFile (policy : Policy) (root sb : Rel) (s : Disk h.Bytes × Tally h.Digest) (rel : Rel) :
    Disk h.Bytes × Tally h.Digest :=
  let (d,t) := s
  match fileSha256 h f d (sb++rel) with
  | none => (d,t.addError rel .unreadable)
  | some sbSha =>
    match exists? h f d (sb++[baseDir]++rel), exists? h f d (root++rel) with
    | some hasBase, some wsExisted =>
      let baseSha := if hasBase then fileSha256 h f d (sb++[baseDir]++rel) else none
      let curSha := if wsExisted then fileSha256 h f d (root++rel) else none
      match conflictReason hasBase baseSha curSha sbSha with
      | none =>
        if curSha = some sbSha then (d,t.addNoop rel)
        else match applySandbox h f d (sb++rel) (root++rel) with
          | .ok e => (e,t.addMerged rel false (!wsExisted))
          | .error e => (e,t.addError rel .os)
      | some reason =>
        match policy with
        | .fail => (d,t.addConflict ⟨rel,reason.text,sbSha,baseSha,curSha⟩)
        | .skip => (d,t.addSkipped rel)
        | .overwrite =>
          match applySandbox h f d (sb++rel) (root++rel) with
          | .ok e => (e,t.addMerged rel true false)
          | .error e => (e,t.addError rel .os)
    | _, _ => (d,t.addError rel .os)

def collectFiles (policy : Policy) (root sb : Rel) (d : Disk h.Bytes) (rels : List Rel) :
    Disk h.Bytes × Tally h.Digest :=
  rels.foldl (collectFile h f policy root sb) (d,Tally.start)

end Walk

/-- An earlier collect, as `_read_collected_report` returns it. -/
inductive Prior (D O : Type)
  | mapping (doc : Doc D O)
  | notMapping

def Loaded.prior {D O : Type} : Loaded D O → Option (Prior D O)
  | .object doc => some (.mapping doc)
  | .null => none
  | .notObject => some .notMapping
  | .invalid => some (.mapping .empty)

inductive Result (D O : Type)
  | crashed
  | replayed (prior : Doc D O) (pruned : Option Bool)
  | noSandbox
  | refused (report : Report D)
  | collected (report : Report D) (pruned : Option Bool)

section Collect

variable (h : Host) (f : Faults h.Bytes)

/-- A marker file: `none` when it does not exist, and unreadable text loads as invalid. -/
def readMarker (d : Disk h.Bytes) (marker : RawPath PyStr) : Option (Loaded h.Digest h.Other) :=
  match d.resolve [] marker with
  | none => none
  | some p =>
    match exists? h f d p with
    | none => some .invalid
    | some false => none
    | some true =>
      if f.read p then some .invalid
      else match d.bytes p with
        | none => some .invalid
        | some b => some (h.loads b)

def readCollectedReport (d : Disk h.Bytes) (root : Rel) (runId : PyStr) :
    Option (Prior h.Digest h.Other) :=
  match readMarker h f d (collectedMarkerPath root runId) with
  | some loaded => loaded.prior
  | none =>
    match readMarker h f d (sandboxRootFor root runId++[some mergedMarker]) with
    | some loaded => loaded.prior
    | none => none

/-- Write a receipt; the flag says whether it is durable. -/
def writeReceipt (d : Disk h.Bytes) (root : Rel) (runId : PyStr) (doc : Doc h.Digest h.Other) :
    Disk h.Bytes × Bool :=
  let marker := collectedMarkerPath root runId
  match d.mkdirsRaw [] marker.dropLast with
  | none => (d,false)
  | some (e,dir) =>
    let p := lexical dir marker.getLast?.toList
    match f.receipt with
    | .done => match e.writeFile p (h.dumps doc) with
      | some e' => (e',true)
      | none => (e,false)
    | .refused => (e,false)
    | .torn => ((e.writeFile p h.torn).getD e,false)

def pruneSandbox (d : Disk h.Bytes) (root : Rel) (runId : PyStr) : Disk h.Bytes × Bool :=
  match sandboxDir d root runId with
  | none => (d,true)
  | some sb =>
    match f.rmtree with
    | none => (d.rmtree sb,true)
    | some gone => (gone.foldl (fun e q => e.rmtree (sb++q)) d,false)

/-- What a collect leaves: the disk, its result and the file-change events it emits. -/
structure Collected where
  disk : Disk h.Bytes
  result : Result h.Digest h.Other
  created : List Rel
  modified : List Rel

/-- The second collect of a run: replay the report, migrate a legacy marker, prune. -/
def replay (prune : Bool) (root : Rel) (runId : PyStr) (d : Disk h.Bytes)
    (doc : Doc h.Digest h.Other) : Collected h :=
  if prune then
    match readMarker h f d (collectedMarkerPath root runId) with
    | none =>
      match writeReceipt h f d root runId doc with
      | (e,true) =>
        let (e',pruned) := pruneSandbox h f e root runId
        ⟨e',.replayed doc (some pruned),[],[]⟩
      | (e,false) => ⟨e,.replayed doc none,[],[]⟩
    | some _ =>
      if (d.resolve [] (collectedMarkerPath root runId)).any f.stat then ⟨d,.crashed,[],[]⟩
      else
        let (e,pruned) := pruneSandbox h f d root runId
        ⟨e,.replayed doc (some pruned),[],[]⟩
  else ⟨d,.replayed doc none,[],[]⟩

def mkReport {D : Type} (policy : Policy) (root : Rel) (runId : PyStr) (t : Tally D) : Report D where
  runId := runId
  sandboxDir := sandboxRootFor root runId
  strategy := policy
  merged := t.merged
  noop := t.noop
  conflicts := t.conflicts
  skipped := t.skipped
  errors := t.errors

/-- Every path a report speaks of. -/
def Report.paths {D : Type} (r : Report D) : List Rel :=
  r.merged.map Prod.fst++r.noop++r.conflicts.map Conflict.path++r.skipped++r.errors.map Prod.fst

/-- The files a collect has considered itself; a replayed report considers none. -/
def Result.considered {D O : Type} : Result D O → List Rel
  | .refused report => report.paths
  | .collected report _ => report.paths
  | _ => []

def collectSandboxRun (policy : Policy) (prune : Bool) (root : Rel) (runId : PyStr)
    (d : Disk h.Bytes) : Collected h :=
  match readCollectedReport h f d root runId with
  | some .notMapping => ⟨d,.crashed,[],[]⟩
  | some (.mapping doc) => replay h f prune root runId d doc
  | none =>
    match sandboxDir d root runId with
    | none => ⟨d,.noSandbox,[],[]⟩
    | some sb =>
      let (e,t) := collectFiles h f policy root sb d (sandboxFilesWritten d root runId)
      let report := mkReport policy root runId t
      if t.conflicts ≠ [] then ⟨e,.refused report,t.created,t.modified⟩
      else
        let (e',durable) := writeReceipt h f e root runId (.report report)
        if prune ∧ durable ∧ t.errors = [] ∧ t.skipped = [] then
          let (e'',pruned) := pruneSandbox h f e' root runId
          ⟨e'',.collected report (some pruned),t.created,t.modified⟩
        else ⟨e',.collected report none,t.created,t.modified⟩

end Collect

section Turn

variable {h : Host} {f : Faults h.Bytes} {d : Disk h.Bytes} {p : Rel}

/-- The workspace still stands where the baseline says: both hold the same bytes, or
there is no baseline and no readable workspace file. -/
def Unmoved (h : Host) (f : Faults h.Bytes) (root sb : Rel) (d : Disk h.Bytes) (rel : Rel) : Prop :=
  (∃ b, d.bytes (sb++[baseDir]++rel) = some b ∧ d.bytes (root++rel) = some b) ∨
    d.node (sb++[baseDir]++rel) = none ∧ (d.bytes (root++rel) = none ∨ f.read (root++rel))

/-- The ways a turn of the walk can go. -/
inductive Turn (h : Host) (f : Faults h.Bytes) (policy : Policy) (root sb : Rel) (d : Disk h.Bytes)
    (t : Tally h.Digest) (rel : Rel) : Disk h.Bytes × Tally h.Digest → Prop
  | failed (e : FileError) : Turn h f policy root sb d t rel (d,t.addError rel e)
  | same {b} (hws : d.bytes (root++rel) = some b) (hsb : d.bytes (sb++rel) = some b) :
      Turn h f policy root sb d t rel (d,t.addNoop rel)
  | refused (c) (hp : policy = .fail) (hc : c.path = rel) :
      Turn h f policy root sb d t rel (d,t.addConflict c)
  | skipped (hp : policy = .skip) : Turn h f policy root sb d t rel (d,t.addSkipped rel)
  | raised {e} (hc : policy = .overwrite ∨ Unmoved h f root sb d rel)
      (ha : applySandbox h f d (sb++rel) (root++rel) = .error e) :
      Turn h f policy root sb d t rel (e,t.addError rel .os)
  | applied {e} (resolved new) (hc : policy = .overwrite ∨ Unmoved h f root sb d rel)
      (ha : applySandbox h f d (sb++rel) (root++rel) = .ok e) :
      Turn h f policy root sb d t rel (e,t.addMerged rel resolved new)

theorem fileSha256_eq_some {x : h.Digest} :
    fileSha256 h f d p = some x ↔ f.read p = false ∧ ∃ b, d.bytes p = some b ∧ h.sha256 b = x := by
  unfold fileSha256
  split <;> simp_all

theorem fileSha256_eq_none :
    fileSha256 h f d p = none ↔ f.read p ∨ d.bytes p = none := by
  unfold fileSha256
  split <;> simp_all

theorem exists?_eq_some {x : Bool} :
    exists? h f d p = some x ↔ f.stat p = false ∧ (d.node p).isSome = x := by
  unfold exists?
  split <;> simp_all

theorem bytes_eq_of_sha256 {q : Rel} {x : h.Digest}
    (hp : fileSha256 h f d p = some x) (hq : fileSha256 h f d q = some x) :
    ∃ b, d.bytes p = some b ∧ d.bytes q = some b := by
  obtain ⟨_,b,hb,hbx⟩ := fileSha256_eq_some.mp hp
  obtain ⟨_,c,hc,hcx⟩ := fileSha256_eq_some.mp hq
  have hbc : b = c := h.sha256_injective (hbx.trans hcx.symm)
  exact ⟨b,hb,hbc ▸ hc⟩

theorem conflictReason_eq_none {D : Type} [DecidableEq D] {hasBase : Bool} {baseSha curSha : Option D}
    {sbSha : D} (hn : conflictReason hasBase baseSha curSha sbSha = none) (hs : curSha ≠ some sbSha) :
    (hasBase = true ∧ curSha ≠ none ∧ curSha = baseSha) ∨ (hasBase = false ∧ curSha = none) := by
  unfold conflictReason at hn
  cases hasBase with
  | true =>
    left
    by_cases hc : curSha = none
    · simp [hc] at hn
    · simp only [if_true,if_neg hc] at hn
      refine ⟨rfl,hc,?_⟩
      by_contra hb
      simp [hb,hs] at hn
  | false =>
    right
    refine ⟨rfl,?_⟩
    by_contra hc
    simp [hc,hs] at hn

theorem collectFile_turn (policy : Policy) (root sb : Rel) (d : Disk h.Bytes) (t : Tally h.Digest)
    (rel : Rel) : Turn h f policy root sb d t rel (collectFile h f policy root sb (d,t) rel) := by
  simp only [collectFile]
  cases hsb : fileSha256 h f d (sb++rel) with
  | none => exact .failed .unreadable
  | some sbSha =>
    cases hb : exists? h f d (sb++[baseDir]++rel) with
    | none => exact .failed .os
    | some hasBase =>
      cases hw : exists? h f d (root++rel) with
      | none => exact .failed .os
      | some wsExisted =>
        simp only
        obtain ⟨_,hbase⟩ := exists?_eq_some.mp hb
        obtain ⟨_,hws⟩ := exists?_eq_some.mp hw
        -- an absent workspace file has no hash either
        have hcur : (if wsExisted = true then fileSha256 h f d (root++rel) else none) =
            fileSha256 h f d (root++rel) := by
          cases wsExisted with
          | true => rfl
          | false =>
            have hn : d.node (root++rel) = none := by simpa using hws
            exact (fileSha256_eq_none.mpr (.inr (by simp [Tree.bytes,hn]))).symm
        rw [hcur]
        cases hr : conflictReason hasBase
            (if hasBase = true then fileSha256 h f d (sb++[baseDir]++rel) else none)
            (fileSha256 h f d (root++rel)) sbSha with
        | some reason =>
          cases policy with
          | fail => exact .refused _ rfl rfl
          | skip => exact .skipped rfl
          | overwrite =>
            cases ha : applySandbox h f d (sb++rel) (root++rel) with
            | ok e => exact .applied true false (.inl rfl) ha
            | error e => exact .raised (.inl rfl) ha
        | none =>
          simp only
          split
          · rename_i hs
            obtain ⟨b,hwb,hsb⟩ := bytes_eq_of_sha256 hs hsb
            exact .same hwb hsb
          · rename_i hs
            have hun : Unmoved h f root sb d rel := by
              rcases conflictReason_eq_none hr hs with ⟨ht,hc,heq⟩ | ⟨hf,hc⟩
              · rw [ht,if_pos rfl] at heq
                obtain ⟨x,hx⟩ := Option.ne_none_iff_exists'.mp hc
                obtain ⟨b,hwb,hbb⟩ := bytes_eq_of_sha256 hx (heq ▸ hx)
                exact .inl ⟨b,hbb,hwb⟩
              · have hn : d.node (sb++[baseDir]++rel) = none := by simpa [hf] using hbase
                exact .inr ⟨hn,(fileSha256_eq_none.mp hc).symm⟩
            cases ha : applySandbox h f d (sb++rel) (root++rel) with
            | ok e => exact .applied false _ (.inr hun) ha
            | error e => exact .raised (.inr hun) ha

theorem frame_applySandbox (d : Disk h.Bytes) (sbFile wsFile : Rel) :
    Frame (fun q => wsFile <+: q) d (diskOf (applySandbox h f d sbFile wsFile)) := by
  unfold applySandbox
  split
  · exact .refl _ d
  · cases hm : d.mkdirs [] wsFile.dropLast with
    | none => exact .refl _ d
    | some e =>
      have hf : Frame (fun q => wsFile <+: q) d e :=
        .mkdirs hm (List.dropLast_prefix wsFile) List.prefix_rfl
      exact hf.trans (frame_copy2 e sbFile wsFile (f.copy wsFile))

theorem Turn.frame {policy : Policy} {root sb rel : Rel} {t : Tally h.Digest}
    {s : Disk h.Bytes × Tally h.Digest} (ht : Turn h f policy root sb d t rel s) :
    Frame (fun q => root++rel <+: q) d s.1 := by
  have happly := frame_applySandbox (f:=f) d (sb++rel) (root++rel)
  cases ht with
  | failed e => exact .refl _ d
  | same _ _ => exact .refl _ d
  | refused _ _ _ => exact .refl _ d
  | skipped _ => exact .refl _ d
  | raised _ ha => rwa [ha] at happly
  | applied _ _ _ ha => rwa [ha] at happly

theorem Turn.mem_paths {policy : Policy} {root sb rel : Rel} {t : Tally h.Digest}
    {s : Disk h.Bytes × Tally h.Digest} (ht : Turn h f policy root sb d t rel s) (q : Rel) :
    q ∈ s.2.paths ↔ q ∈ t.paths ∨ q = rel := by
  cases ht with
  | failed e => simp [Tally.paths,Tally.addError]; grind
  | same _ _ => simp [Tally.paths,Tally.addNoop]; grind
  | refused c _ hc => simp [Tally.paths,Tally.addConflict,hc]; grind
  | skipped _ => simp [Tally.paths,Tally.addSkipped]; grind
  | raised _ _ => simp [Tally.paths,Tally.addError]; grind
  | applied _ _ _ _ => simp [Tally.paths,Tally.addMerged]; grind

theorem frame_foldl_collectFile (policy : Policy) (root sb : Rel) (rels : List Rel)
    (s : Disk h.Bytes × Tally h.Digest) :
    Frame (fun q => ∃ rel ∈ rels, root++rel <+: q) s.1
      (rels.foldl (collectFile h f policy root sb) s).1 := by
  induction rels generalizing s with
  | nil => exact .refl _ s.1
  | cons rel rels ih =>
    have hone : Frame (fun q => ∃ r ∈ rel::rels, root++r <+: q) s.1
        (collectFile h f policy root sb s rel).1 :=
      (collectFile_turn policy root sb s.1 s.2 rel).frame.mono
        fun q hq => ⟨rel,List.mem_cons_self,hq⟩
    exact hone.trans ((ih _).mono fun q ⟨r,hr,hq⟩ => ⟨r,List.mem_cons_of_mem rel hr,hq⟩)

theorem mem_paths_foldl_collectFile (policy : Policy) (root sb : Rel) (rels : List Rel)
    (s : Disk h.Bytes × Tally h.Digest) (q : Rel) :
    q ∈ (rels.foldl (collectFile h f policy root sb) s).2.paths ↔ q ∈ s.2.paths ∨ q ∈ rels := by
  induction rels generalizing s with
  | nil => simp
  | cons rel rels ih =>
    rw [List.foldl_cons,ih,(collectFile_turn policy root sb s.1 s.2 rel).mem_paths q,List.mem_cons]
    tauto

theorem mem_paths_collectFiles (policy : Policy) (root sb : Rel) (d : Disk h.Bytes) (rels : List Rel)
    (q : Rel) : q ∈ (collectFiles h f policy root sb d rels).2.paths ↔ q ∈ rels := by
  unfold collectFiles
  rw [mem_paths_foldl_collectFile]
  simp [Tally.paths,Tally.start]

theorem mem_considered_iff (policy : Policy) (prune : Bool) (root : Rel) (runId : PyStr)
    (d : Disk h.Bytes) (q : Rel) :
    q ∈ (collectSandboxRun h f policy prune root runId d).result.considered ↔
      readCollectedReport h f d root runId = none ∧ q ∈ sandboxFilesWritten d root runId := by
  unfold collectSandboxRun
  cases hr : readCollectedReport h f d root runId with
  | some prior =>
    cases prior with
    | notMapping => simp [Result.considered]
    | mapping doc =>
      simp only [reduceCtorEq,false_and,iff_false,replay]
      repeat' split
      all_goals simp [Result.considered]
  | none =>
    cases hs : sandboxDir d root runId with
    | none => simp [Result.considered,sandboxFilesWritten,hs]
    | some sb =>
      rw [← mem_paths_collectFiles (f:=f) policy root sb d (sandboxFilesWritten d root runId)]
      simp only [true_and]
      repeat' split
      all_goals exact Iff.rfl

end Turn

/-- File contents of the concrete host: data, receipts and torn receipts. -/
inductive Content
  | raw (n : ℕ)
  | receipt (doc : Doc Content ℕ)
  | torn

open Classical in
/-- Only raw contents are compared by value. -/
noncomputable def Content.decEq : DecidableEq Content
  | .raw m, .raw n => decidable_of_iff (m = n) (by simp)
  | .torn, .torn => .isTrue rfl
  | .receipt a, .receipt b => decidable_of_iff (a = b) (by simp)
  | .raw _, .torn => .isFalse (by simp)
  | .raw _, .receipt _ => .isFalse (by simp)
  | .torn, .raw _ => .isFalse (by simp)
  | .torn, .receipt _ => .isFalse (by simp)
  | .receipt _, .raw _ => .isFalse (by simp)
  | .receipt _, .torn => .isFalse (by simp)

/-- A host that hashes contents to themselves. -/
noncomputable abbrev plainHost : Host where
  Bytes := Content
  Digest := Content
  Other := ℕ
  decDigest := Content.decEq
  sha256 := id
  sha256_injective := Function.injective_id
  dumps := .receipt
  loads
    | .receipt doc => .object doc
    | .raw _ => .invalid
    | .torn => .invalid
  loads_dumps _ := rfl
  torn := .torn
  loads_torn := rfl

noncomputable instance : DecidableEq Content := Content.decEq

/-- The run id `run_1`. -/
def runOne : RunId where
  name := lit "run_1"
  noSep := by decide
  named := by decide
  run := by decide

end MinimaxCode.Sandbox
