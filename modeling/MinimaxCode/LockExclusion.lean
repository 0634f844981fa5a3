import MinimaxCode.WorkspaceLock

/-!
# Who holds the lock of a workspace

The counters in the memory of a process count the calls and guards in it that have not given
the memory back. The lock file holds the claim of every exclusive guard that was not overtaken.
With both, a claim that goes on to write finds no young guard in any process.
-/

namespace MinimaxCode.WorkspaceLock

open PyText OrderedDict Runs

variable {d : Decimals} {name : PyStr} {w w' : World} {g g' : Holder} {i : ℕ} {op : IndexOperation}
  {state : Option InMemoryLockState} {j pid : ℕ} {a : Action}

/-- The call or guard has not given the memory back. -/
def Holder.occupies (g : Holder) : Bool := decide (g.stage ≠ .granted) || !g.released || decide (0 < g.marked)

def sharedIn (pid : ℕ) (kg : ℕ × Holder) : Bool :=
  decide (kg.2.pid = pid) && !kg.2.operation.isExclusive && kg.2.occupies

def exclusiveIn (pid : ℕ) (kg : ℕ × Holder) : Bool :=
  decide (kg.2.pid = pid) && kg.2.operation.isExclusive && kg.2.occupies

/-- The counters say how many share the lock and whether one has it alone. -/
def MemoryOk (state : Option InMemoryLockState) (readers writers : ℕ) : Prop :=
  match state with
  | none => readers = 0 ∧ writers = 0
  | some state => state.readers = readers ∧
      ((state.exclusive = true ∧ writers = 1 ∧ readers = 0) ∨ (state.exclusive = false ∧ writers = 0))

theorem MemoryOk.acquire {state' : InMemoryLockState} {r x : ℕ}
    (h : MemoryOk state r x) (ha : tryAcquireInMemoryLock state op = some state') :
    MemoryOk (some state') (r+if op.isExclusive then 0 else 1) (x+if op.isExclusive then 1 else 0) := by
  cases state with
  | none =>
    obtain ⟨rfl,rfl⟩ := h
    cases ha
    cases hop : op.isExclusive <;> simp [MemoryOk]
  | some st =>
    obtain ⟨hr,hx⟩ := h
    cases hop : op.isExclusive with
    | true =>
      simp only [tryAcquireInMemoryLock,hop,if_true] at ha
      split at ha
      · cases ha
      · next hfree =>
        cases ha
        rw [Bool.or_eq_true,decide_eq_true_iff,not_or] at hfree
        rcases hx with ⟨hex,-⟩ | ⟨-,rfl⟩
        · exact absurd hex hfree.2
        · refine ⟨hr,.inl ⟨rfl,rfl,?_⟩⟩
          simp only [if_true]
          omega
    | false =>
      simp only [tryAcquireInMemoryLock,hop,if_false,Bool.false_eq_true] at ha
      split at ha
      · cases ha
      · next hfree =>
        cases ha
        rcases hx with ⟨hex,-⟩ | ⟨hex,rfl⟩
        · exact absurd hex hfree
        · exact ⟨by simp [hr],.inr ⟨hex,rfl⟩⟩

theorem MemoryOk.release {r x : ℕ}
    (h : MemoryOk state (r+if op.isExclusive then 0 else 1) (x+if op.isExclusive then 1 else 0)) :
    MemoryOk (releaseInMemoryLock state op) r x := by
  cases state with
  | none =>
    obtain ⟨hr,hx⟩ := h
    cases hop : op.isExclusive <;> simp [hop] at hr hx
  | some st =>
    obtain ⟨hr,hx⟩ := h
    cases hop : op.isExclusive with
    | true =>
      simp only [hop,if_true] at hr hx
      have hr0 : r = 0 ∧ x = 0 := by omega
      obtain ⟨rfl,rfl⟩ := hr0
      simp [releaseInMemoryLock,hop,MemoryOk,hr]
    | false =>
      simp only [hop,if_false,Bool.false_eq_true] at hr hx
      have hx0 : st.exclusive = false ∧ x = 0 := by
        rcases hx with ⟨-,-,hzero⟩ | hx
        · omega
        · exact hx
      obtain ⟨hex,rfl⟩ := hx0
      by_cases hlast : r = 0
      · subst hlast
        simp [releaseInMemoryLock,hop,MemoryOk,hr,hex]
      · have hleft : st.readers-1 = r := by omega
        simp [releaseInMemoryLock,hop,MemoryOk,hleft,hex,hlast]

/-- How the calls of `release` of a guard stand. -/
structure Holder.Calls (g : Holder) : Prop where
  shared : g.operation.isExclusive = false → g.stage = .granted ∧ g.freed = 0
  early : g.stage ≠ .granted → g.released = false ∧ g.checked = 0
  unreleased : g.released = false → g.marked = 0 ∧ g.freed = 0
  single : g.marked+g.freed ≤ 1

structure MemoryInv (w : World) : Prop where
  holders : (keys w.holders).Nodup
  fresh : ∀ i g, lookup w.holders i = some g → i < w.nextHolder
  live : ∀ i g, lookup w.holders i = some g → g.pid ∈ keys w.processes
  memory : ∀ pid state, lookup w.processes pid = some state →
    MemoryOk state (w.holders.countP (sharedIn pid)) (w.holders.countP (exclusiveIn pid))
  calls : ∀ i g, lookup w.holders i = some g → g.Calls

theorem lookup_assign_cases {holders : List (ℕ × Holder)} {h : Holder}
    (hl : lookup (assign holders i g') j = some h) :
    (j = i ∧ h = g') ∨ (j ≠ i ∧ lookup holders j = some h) := by
  rw [lookup_assign] at hl
  split at hl
  · next heq => exact .inl ⟨heq.symm,(Option.some.inj hl).symm⟩
  · next hne => exact .inr ⟨Ne.symm hne,hl⟩

theorem MemoryInv.move (hi : MemoryInv w) (hl : lookup w.holders i = some g) (hpid : g'.pid = g.pid)
    (hop : g'.operation = g.operation) (hocc : g'.occupies = g.occupies) (hcalls : g'.Calls) :
    MemoryInv (w.setHolder i g') where
  holders := nodup_keys_assign hi.holders
  fresh j h hj := by
    rcases lookup_assign_cases hj with ⟨rfl,-⟩ | ⟨-,hj⟩
    · exact hi.fresh _ g hl
    · exact hi.fresh j h hj
  live j h hj := by
    rcases lookup_assign_cases hj with ⟨rfl,rfl⟩ | ⟨-,hj⟩
    · rw [hpid]
      exact hi.live _ g hl
    · exact hi.live j h hj
  memory pid state hstate := by
    have hshared := countP_assign (q:=sharedIn pid) g' hi.holders hl
    have hexclusive := countP_assign (q:=exclusiveIn pid) g' hi.holders hl
    simp only [sharedIn,exclusiveIn,hpid,hop,hocc] at hshared hexclusive
    have hok := hi.memory pid state hstate
    rwa [← Nat.add_right_cancel hshared,← Nat.add_right_cancel hexclusive] at hok
  calls j h hj := by
    rcases lookup_assign_cases hj with ⟨rfl,rfl⟩ | ⟨-,hj⟩
    · exact hcalls
    · exact hi.calls j h hj

theorem releaseMemoryOf_eq (hi : MemoryInv w) (hl : lookup w.holders i = some g) :
    ∃ state, lookup w.processes g.pid = some state ∧ w.releaseMemoryOf g =
      { w with processes := assign w.processes g.pid (releaseInMemoryLock state g.operation) } := by
  obtain ⟨state,hstate⟩ := Option.isSome_iff_exists.mp (isSome_lookup_iff.mpr (hi.live i g hl))
  refine ⟨state,hstate,?_⟩
  rw [World.releaseMemoryOf,hstate]

theorem MemoryInv.leave (hi : MemoryInv w) (hl : lookup w.holders i = some g) (hocc : g.occupies = true)
    {holders' : List (ℕ × Holder)} (hkeys : (keys holders').Nodup)
    (hleft : ∀ j h, lookup holders' j = some h →
      (∃ h', lookup w.holders j = some h' ∧ h'.pid = h.pid) ∧ h.Calls)
    (hshared : ∀ pid, holders'.countP (sharedIn pid)+(if sharedIn pid (i,g) then 1 else 0) =
      w.holders.countP (sharedIn pid))
    (hexclusive : ∀ pid, holders'.countP (exclusiveIn pid)+(if exclusiveIn pid (i,g) then 1 else 0) =
      w.holders.countP (exclusiveIn pid)) :
    MemoryInv { w.releaseMemoryOf g with holders := holders' } := by
  obtain ⟨state,hstate,heq⟩ := releaseMemoryOf_eq hi hl
  rw [heq]
  refine ⟨hkeys,fun j h hj => ?_,fun j h hj => ?_,fun pid st hst => ?_,fun j h hj => (hleft j h hj).2⟩
  · obtain ⟨⟨h',hj',-⟩,-⟩ := hleft j h hj
    exact hi.fresh j h' hj'
  · obtain ⟨⟨h',hj',hpid⟩,-⟩ := hleft j h hj
    rw [← hpid]
    exact mem_keys_assign_iff.mpr (.inr (hi.live j h' hj'))
  · dsimp only at hst ⊢
    rw [lookup_assign] at hst
    split at hst
    · next hpid =>
      subst hpid
      cases hst
      have hok := hi.memory g.pid state hstate
      rw [← hshared g.pid,← hexclusive g.pid] at hok
      refine MemoryOk.release ?_
      cases hop : g.operation.isExclusive <;> simpa [sharedIn,exclusiveIn,hop,hocc] using hok
    · next hpid =>
      have hok := hi.memory pid st hst
      rw [← hshared pid,← hexclusive pid] at hok
      simpa [sharedIn,exclusiveIn,hpid] using hok

theorem MemoryInv.acquire (hi : MemoryInv w)
    {state' : InMemoryLockState} (hstate : lookup w.processes pid = some state)
    (ha : tryAcquireInMemoryLock state op = some state') :
    MemoryInv { w with
      processes := assign w.processes pid (some state')
      holders := assign w.holders w.nextHolder (.new pid op), nextHolder := w.nextHolder+1 } := by
  have hnew : w.nextHolder ∉ keys w.holders := by
    intro hmem
    obtain ⟨g,hg⟩ := Option.isSome_iff_exists.mp (isSome_lookup_iff.mpr hmem)
    exact Nat.lt_irrefl _ (hi.fresh _ g hg)
  have hocc : (Holder.new pid op).occupies = true := by
    rw [Holder.occupies,Holder.new]
    simp
  refine ⟨nodup_keys_assign hi.holders,fun j h hj => ?_,fun j h hj => ?_,fun pid' st hst => ?_,
    fun j h hj => ?_⟩
  · rcases lookup_assign_cases hj with ⟨rfl,-⟩ | ⟨-,hj⟩
    · exact Nat.lt_succ_self _
    · exact Nat.lt_succ_of_lt (hi.fresh j h hj)
  · rcases lookup_assign_cases hj with ⟨-,rfl⟩ | ⟨-,hj⟩
    · exact mem_keys_assign_iff.mpr (.inl rfl)
    · exact mem_keys_assign_iff.mpr (.inr (hi.live j h hj))
  · dsimp only at hst ⊢
    rw [assign_of_new hnew,List.countP_append,List.countP_append,List.countP_singleton,
      List.countP_singleton]
    rw [lookup_assign] at hst
    split at hst
    · next hpid =>
      subst hpid
      cases hst
      have hok := (hi.memory pid state hstate).acquire ha
      have hpid : (Holder.new pid op).pid = pid := rfl
      have hop : (Holder.new pid op).operation = op := rfl
      cases hex : op.isExclusive <;> simpa [sharedIn,exclusiveIn,hpid,hop,hex,hocc] using hok
    · next hpid =>
      have hpid' : (Holder.new pid op).pid ≠ pid' := hpid
      simpa [sharedIn,exclusiveIn,hpid'] using hi.memory pid' st hst
  · rcases lookup_assign_cases hj with ⟨-,rfl⟩ | ⟨-,hj⟩
    · refine ⟨fun hop => ⟨?_,rfl⟩,fun _ => ⟨rfl,rfl⟩,fun _ => ⟨rfl,rfl⟩,Nat.zero_le _⟩
      have hop' : op.isExclusive = false := hop
      simp [Holder.new,hop']
    · exact hi.calls j h hj

theorem lookup_filter_pid {h : Holder} (hi : MemoryInv w)
    (hj : lookup (w.holders.filter fun kg => kg.2.pid ≠ pid) j = some h) :
    lookup w.holders j = some h ∧ h.pid ≠ pid := by
  obtain ⟨hmem,hpid⟩ := List.mem_filter.mp (mem_of_lookup hj)
  exact ⟨lookup_of_mem hi.holders hmem,of_decide_eq_true hpid⟩

theorem MemoryInv.dies (hi : MemoryInv w) (pid : ℕ) : MemoryInv { w with
    processes := remove w.processes pid, holders := w.holders.filter fun kg => kg.2.pid ≠ pid } := by
  refine ⟨hi.holders.sublist (List.filter_sublist.map Prod.fst),
    fun j h hj => hi.fresh j h (lookup_filter_pid hi hj).1,fun j h hj => ?_,fun pid' st hst => ?_,
    fun j h hj => hi.calls j h (lookup_filter_pid hi hj).1⟩
  · obtain ⟨hj,hpid⟩ := lookup_filter_pid hi hj
    exact mem_keys_remove_iff.mpr ⟨hpid,hi.live j h hj⟩
  · dsimp only at hst ⊢
    rw [lookup_remove] at hst
    split at hst
    · cases hst
    · next hpid =>
      have hok := hi.memory pid' st hst
      rw [List.countP_filter,List.countP_filter]
      have hshared : (fun kg : ℕ × Holder => sharedIn pid' kg && decide (kg.2.pid ≠ pid)) = sharedIn pid' := by
        funext kg
        by_cases heq : kg.2.pid = pid'
        · simp [sharedIn,heq,Ne.symm hpid]
        · simp [sharedIn,heq]
      have hexclusive : (fun kg : ℕ × Holder => exclusiveIn pid' kg && decide (kg.2.pid ≠ pid)) =
          exclusiveIn pid' := by
        funext kg
        by_cases heq : kg.2.pid = pid'
        · simp [exclusiveIn,heq,Ne.symm hpid]
        · simp [exclusiveIn,heq]
      rw [hshared,hexclusive]
      exact hok

theorem MemoryInv.starts (hi : MemoryInv w) (hnew : pid ∉ keys w.processes) :
    MemoryInv { w with processes := assign w.processes pid none } := by
  have hnone : ∀ q : ℕ × Holder → Bool, (∀ kg, q kg = true → kg.2.pid = pid) → w.holders.countP q = 0 := by
    intro q hq
    refine List.countP_eq_zero.mpr fun kg hkg htrue => hnew ?_
    rw [← hq kg htrue]
    exact hi.live kg.1 kg.2 (lookup_of_mem hi.holders hkg)
  refine ⟨hi.holders,hi.fresh,fun j h hj => mem_keys_assign_iff.mpr (.inr (hi.live j h hj)),
    fun pid' st hst => ?_,hi.calls⟩
  dsimp only at hst ⊢
  rw [lookup_assign] at hst
  split at hst
  · next hpid =>
    subst hpid
    cases hst
    refine ⟨hnone _ fun kg hkg => ?_,hnone _ fun kg hkg => ?_⟩
    · simp only [sharedIn,Bool.and_eq_true,decide_eq_true_iff] at hkg
      exact hkg.1.1
    · simp only [exclusiveIn,Bool.and_eq_true,decide_eq_true_iff] at hkg
      exact hkg.1.1
  · exact hi.memory pid' st hst

theorem MemoryInv.alone (hi : MemoryInv w) (hl : lookup w.holders i = some g)
    (hop : g.operation.isExclusive = true) (hocc : g.occupies = true) {other : Holder}
    (hj : lookup w.holders j = some other) (hne : j ≠ i) (hother : other.occupies = true) :
    other.pid ≠ g.pid := by
  intro hpid
  obtain ⟨state,hstate⟩ := Option.isSome_iff_exists.mp (isSome_lookup_iff.mpr (hi.live i g hl))
  have hok := hi.memory g.pid state hstate
  have hmine : exclusiveIn g.pid (i,g) = true := by simp [exclusiveIn,hop,hocc]
  have hremoved := countP_remove (q:=exclusiveIn g.pid) hi.holders hl
  rw [if_pos hmine] at hremoved
  have hcounts : w.holders.countP (exclusiveIn g.pid) = 1 ∧ w.holders.countP (sharedIn g.pid) = 0 := by
    cases state with
    | none =>
      have hzero := hok.2
      omega
    | some state =>
      rcases hok.2 with ⟨-,hx,hr⟩ | ⟨-,hx⟩
      · exact ⟨hx,hr⟩
      · omega
  cases hex : other.operation.isExclusive with
  | true =>
    have hleft : (remove w.holders i).countP (exclusiveIn g.pid) = 0 := by omega
    have hmem : (j,other) ∈ remove w.holders i := by
      refine mem_of_lookup ?_
      rw [lookup_remove,if_neg (Ne.symm hne)]
      exact hj
    exact List.countP_eq_zero.mp hleft _ hmem (by simp [exclusiveIn,hpid,hex,hother])
  | false =>
    exact List.countP_eq_zero.mp hcounts.2 _ (mem_of_lookup hj) (by simp [sharedIn,hpid,hex,hother])

/-- An exclusive guard that is held. -/
def Holder.Guards (g : Holder) : Prop := g.operation.isExclusive = true ∧ g.held = true

/-- An exclusive guard that is held or whose release is under way. -/
def Holder.Unfinished (g : Holder) : Prop :=
  g.operation.isExclusive = true ∧ g.stage = .granted ∧ (g.released = false ∨ 0 < g.marked ∨ 0 < g.freed)

theorem Holder.held_iff : g.held = true ↔ g.stage = .granted ∧ g.released = false := by
  simp [Holder.held]

theorem Holder.Guards.unfinished (h : g.Guards) : g.Unfinished :=
  ⟨h.1,(Holder.held_iff.mp h.2).1,.inl (Holder.held_iff.mp h.2).2⟩

structure FileInv (name : PyStr) (w : World) : Prop where
  writer : ∀ f i, w.file = some f → f.writer = some i → i < w.nextHolder
  overtaken : ∀ i ∈ w.overtaken, i < w.nextHolder
  one : ∀ i g j g', lookup w.holders i = some g → lookup w.holders j = some g' →
    g.stage = .cleared → g'.stage = .cleared → i = j
  file : ∀ i g, lookup w.holders i = some g → g.Unfinished → i ∉ w.overtaken →
    w.file = some ⟨claimText name g.operation g.pid g.started,some i⟩
  pending : ∀ i g, lookup w.holders i = some g → g.stage ≠ .granted →
    i ∉ w.overtaken ∧ ∀ f, w.file = some f → f.writer ≠ some i
  young : ∀ i g, lookup w.holders i = some g → g.Guards → g.young w.now = true → i ∉ w.overtaken
  cleared : ∀ i g, lookup w.holders i = some g → g.stage = .cleared →
    ∀ j other, lookup w.holders j = some other → other.Guards → other.young w.now = false

/-- What a holder may become without a look at the file. -/
structure Holder.Follows (g g' : Holder) : Prop where
  pid : g'.pid = g.pid
  operation : g'.operation = g.operation
  started : g'.started = g.started
  granted : g.stage = .granted → g'.stage = .granted
  unfinished : g'.Unfinished → g.Unfinished
  guards : g'.Guards → g.Guards
  cleared : g'.stage = .cleared → g.stage = .cleared

theorem Holder.Follows.young (h : g.Follows g') (now : ℕ) : g'.young now = g.young now := by
  rw [Holder.young,Holder.young,h.started,h.operation]

theorem FileInv.follow (hf : FileInv name w) {holders' : List (ℕ × Holder)}
    {processes : List (ℕ × Option InMemoryLockState)}
    (hleft : ∀ j h, lookup holders' j = some h → ∃ h', lookup w.holders j = some h' ∧ h'.Follows h) :
    FileInv name { w with holders := holders', processes := processes } where
  writer := hf.writer
  overtaken := hf.overtaken
  one i g j g' hi hj hc hc' := by
    obtain ⟨h,hi,hfollow⟩ := hleft i g hi
    obtain ⟨h',hj,hfollow'⟩ := hleft j g' hj
    exact hf.one i h j h' hi hj (hfollow.cleared hc) (hfollow'.cleared hc')
  file i g hi hu hover := by
    obtain ⟨h,hi,hfollow⟩ := hleft i g hi
    rw [hfollow.operation,hfollow.pid,hfollow.started]
    exact hf.file i h hi (hfollow.unfinished hu) hover
  pending i g hi hstage := by
    obtain ⟨h,hi,hfollow⟩ := hleft i g hi
    exact hf.pending i h hi fun hgranted => hstage (hfollow.granted hgranted)
  young i g hi hg hyoung := by
    obtain ⟨h,hi,hfollow⟩ := hleft i g hi
    exact hf.young i h hi (hfollow.guards hg) ((hfollow.young _).symm.trans hyoung)
  cleared i g hi hc j other hj hother := by
    obtain ⟨h,hi,hfollow⟩ := hleft i g hi
    obtain ⟨h',hj,hfollow'⟩ := hleft j other hj
    exact (hfollow'.young _).trans
      (hf.cleared i h hi (hfollow.cleared hc) j h' hj (hfollow'.guards hother))

theorem Holder.Follows.refl (g : Holder) : g.Follows g := ⟨rfl,rfl,rfl,id,id,id,id⟩

theorem FileInv.move (hf : FileInv name w) (hl : lookup w.holders i = some g) (hfollow : g.Follows g')
    {processes : List (ℕ × Option InMemoryLockState)} :
    FileInv name { w with holders := assign w.holders i g', processes := processes } := by
  refine hf.follow fun j h hj => ?_
  rcases lookup_assign_cases hj with ⟨rfl,rfl⟩ | ⟨-,hj⟩
  · exact ⟨g,hl,hfollow⟩
  · exact ⟨h,hj,.refl h⟩

theorem Holder.not_guards_of_stage (h : g.stage ≠ .granted) : ¬g.Guards :=
  fun hg => h (Holder.held_iff.mp hg.2).1

theorem Holder.not_unfinished_of_stage (h : g.stage ≠ .granted) : ¬g.Unfinished := fun hu => h hu.2.1

theorem young_of_young_later {seconds : ℕ} (h : g.young (w.now+seconds) = true) : g.young w.now = true := by
  rw [Holder.young,decide_eq_true_iff] at h ⊢
  push_cast at h
  omega

theorem FileInv.passes (hf : FileInv name w) (seconds : ℕ) :
    FileInv name { w with now := w.now+seconds } where
  writer := hf.writer
  overtaken := hf.overtaken
  one := hf.one
  file := hf.file
  pending := hf.pending
  young i g hi hg hyoung := hf.young i g hi hg (young_of_young_later hyoung)
  cleared i g hi hc j other hj hother := by
    refine Bool.eq_false_iff.mpr fun hyoung => ?_
    have hold := hf.cleared i g hi hc j other hj hother
    rw [young_of_young_later hyoung] at hold
    cases hold

theorem FileInv.acquire (hf : FileInv name w) (pid : ℕ) (op : IndexOperation)
    (processes : List (ℕ × Option InMemoryLockState)) :
    FileInv name { w with
      processes := processes, holders := assign w.holders w.nextHolder (.new pid op)
      nextHolder := w.nextHolder+1 } := by
  have hguards : ¬(Holder.new pid op).Unfinished := by
    rintro ⟨hop,hstage,-⟩
    have hop' : op.isExclusive = true := hop
    simp [Holder.new,hop'] at hstage
  have hcleared : (Holder.new pid op).stage ≠ .cleared := by
    rw [Holder.new]
    split <;> simp
  refine ⟨fun f j hfile hw => Nat.lt_succ_of_lt (hf.writer f j hfile hw),
    fun j hj => Nat.lt_succ_of_lt (hf.overtaken j hj),fun j h k h' hj hk hc hc' => ?_,
    fun j h hj hu hover => ?_,fun j h hj hstage => ?_,fun j h hj hg hyoung => ?_,
    fun j h hj hc k other hk hother => ?_⟩
  · rcases lookup_assign_cases hj with ⟨-,rfl⟩ | ⟨-,hj⟩
    · exact absurd hc hcleared
    · rcases lookup_assign_cases hk with ⟨-,rfl⟩ | ⟨-,hk⟩
      · exact absurd hc' hcleared
      · exact hf.one j h k h' hj hk hc hc'
  · rcases lookup_assign_cases hj with ⟨-,rfl⟩ | ⟨-,hj⟩
    · exact absurd hu hguards
    · exact hf.file j h hj hu hover
  · rcases lookup_assign_cases hj with ⟨rfl,-⟩ | ⟨-,hj⟩
    · exact ⟨fun hover => Nat.lt_irrefl _ (hf.overtaken _ hover),
        fun f hfile hw => Nat.lt_irrefl _ (hf.writer f _ hfile hw)⟩
    · exact hf.pending j h hj hstage
  · rcases lookup_assign_cases hj with ⟨-,rfl⟩ | ⟨-,hj⟩
    · exact absurd hg.unfinished hguards
    · exact hf.young j h hj hg hyoung
  · rcases lookup_assign_cases hj with ⟨-,rfl⟩ | ⟨-,hj⟩
    · exact absurd hc hcleared
    · rcases lookup_assign_cases hk with ⟨-,rfl⟩ | ⟨-,hk⟩
      · exact absurd hother.unfinished hguards
      · exact hf.cleared j h hj hc k other hk hother

theorem FileInv.clear (hf : FileInv name w) (hl : lookup w.holders i = some g)
    (hnone : ∀ j h, lookup w.holders j = some h → h.stage ≠ .cleared) (hstage : g.stage = .acquired)
    (hold : ∀ j other, lookup w.holders j = some other → other.Guards → other.young w.now = false) :
    FileInv name (w.setHolder i { g with stage := .cleared }) := by
  have hnot : ({ g with stage := .cleared } : Holder).stage ≠ .granted := by simp
  refine ⟨hf.writer,hf.overtaken,fun j h k h' hj hk hc hc' => ?_,fun j h hj hu hover => ?_,
    fun j h hj hstage' => ?_,fun j h hj hg hyoung => ?_,fun j h hj hc k other hk hother => ?_⟩
  · rcases lookup_assign_cases hj with ⟨rfl,-⟩ | ⟨-,hj⟩
    · rcases lookup_assign_cases hk with ⟨rfl,-⟩ | ⟨-,hk⟩
      · rfl
      · exact absurd hc' (hnone k h' hk)
    · exact absurd hc (hnone j h hj)
  · rcases lookup_assign_cases hj with ⟨-,rfl⟩ | ⟨-,hj⟩
    · exact absurd hu (Holder.not_unfinished_of_stage hnot)
    · exact hf.file j h hj hu hover
  · rcases lookup_assign_cases hj with ⟨rfl,-⟩ | ⟨-,hj⟩
    · exact hf.pending j g hl (by simp [hstage])
    · exact hf.pending j h hj hstage'
  · rcases lookup_assign_cases hj with ⟨-,rfl⟩ | ⟨-,hj⟩
    · exact absurd hg (Holder.not_guards_of_stage hnot)
    · exact hf.young j h hj hg hyoung
  · rcases lookup_assign_cases hk with ⟨-,rfl⟩ | ⟨-,hk⟩
    · exact absurd hother (Holder.not_guards_of_stage hnot)
    · exact hold k other hk hother

theorem FileInv.overwrite (hf : FileInv name w) (hi : MemoryInv w) (hl : lookup w.holders i = some g)
    (hstage : g.stage = .cleared) {f : LockFile} (hwriter : f.writer = none ∨ f.writer = some i)
    (hcleared : g'.stage ≠ .cleared)
    (hfile : g'.Unfinished → f = ⟨claimText name g'.operation g'.pid g'.started,some i⟩)
    (hpending : g'.stage ≠ .granted → f.writer = none) :
    FileInv name ((w.overwrite f).setHolder i g') := by
  have hover : ∀ j ∈ (w.overwrite f).overtaken, (∃ f, w.file = some f ∧ f.writer = some j) ∨ j ∈ w.overtaken := by
    intro j hj
    rcases List.mem_append.mp hj with hj | hj
    · obtain ⟨f,hf,hw⟩ := Option.bind_eq_some_iff.mp (Option.mem_toList.mp hj)
      exact .inl ⟨f,hf,hw⟩
    · exact .inr hj
  have hleft : ∀ j, j ∉ (w.overwrite f).overtaken → j ∉ w.overtaken ∧ ∀ f, w.file = some f → f.writer ≠ some j := by
    intro j hj
    rw [World.overwrite] at hj
    simp only [List.mem_append,Option.mem_toList,not_or] at hj
    exact ⟨hj.2,fun f hf hw => hj.1 (Option.bind_eq_some_iff.mpr ⟨f,hf,hw⟩)⟩
  have hkept : ∀ j h, lookup w.holders j = some h → h.stage ≠ .granted → j ∉ (w.overwrite f).overtaken := by
    intro j h hj hne hmem
    obtain ⟨hnot,hfree⟩ := hf.pending j h hj hne
    rcases hover j hmem with ⟨f,hfile,hw⟩ | hmem
    · exact hfree f hfile hw
    · exact hnot hmem
  refine ⟨fun f' j hf' hw => ?_,fun j hj => ?_,fun j h k h' hj hk hc hc' => ?_,fun j h hj hu hnot => ?_,
    fun j h hj hne => ?_,fun j h hj hg hyoung => ?_,fun j h hj hc k other hk hother => ?_⟩
  · cases hf'
    rcases hwriter with hnone | hsome
    · rw [hnone] at hw
      cases hw
    · rw [hsome] at hw
      cases hw
      exact hi.fresh i g hl
  · rcases hover j hj with ⟨f,hfile,hw⟩ | hmem
    · exact hf.writer f j hfile hw
    · exact hf.overtaken j hmem
  · rcases lookup_assign_cases hj with ⟨-,rfl⟩ | ⟨-,hj⟩
    · exact absurd hc hcleared
    · rcases lookup_assign_cases hk with ⟨-,rfl⟩ | ⟨-,hk⟩
      · exact absurd hc' hcleared
      · exact hf.one j h k h' hj hk hc hc'
  · rcases lookup_assign_cases hj with ⟨rfl,rfl⟩ | ⟨-,hj⟩
    · exact congrArg some (hfile hu)
    · obtain ⟨hnot,hfree⟩ := hleft j hnot
      exact absurd rfl (hfree _ (hf.file j h hj hu hnot))
  · rcases lookup_assign_cases hj with ⟨rfl,rfl⟩ | ⟨hji,hj⟩
    · refine ⟨hkept j g hl (by simp [hstage]),fun f' hf' hw => ?_⟩
      cases hf'
      rw [hpending hne] at hw
      cases hw
    · refine ⟨hkept j h hj hne,fun f' hf' hw => ?_⟩
      cases hf'
      rcases hwriter with hnone | hsome
      · rw [hnone] at hw
        cases hw
      · rw [hsome] at hw
        exact hji (Option.some.inj hw).symm
  · rcases lookup_assign_cases hj with ⟨rfl,-⟩ | ⟨-,hj⟩
    · exact hkept j g hl (by simp [hstage])
    · have hold := hf.cleared i g hl hstage j h hj hg
      rw [show h.young w.now = true from hyoung] at hold
      cases hold
  · rcases lookup_assign_cases hj with ⟨-,rfl⟩ | ⟨hji,hj⟩
    · exact absurd hc hcleared
    · exact absurd (hf.one j h i g hj hl hc hstage) hji

structure Inv (name : PyStr) (w : World) : Prop where
  memory : MemoryInv w
  file : FileInv name w

/-- A step keeps the invariant and does what is asked of it. -/
structure Good (name : PyStr) (w : World) (a : Action) (w' : World) : Prop where
  inv : Inv name w'
  grants : World.GrantsAlone w w'
  removes : World.RemovesOwn w w' a

theorem grantsAlone_of_no_grant
    (h : ∀ j h, lookup w'.holders j = some h → h.Guards → ∃ h', lookup w.holders j = some h' ∧ h'.Guards) :
    World.GrantsAlone w w' := by
  intro j h' hj hop hheld hnot
  obtain ⟨h'',hj',hguards⟩ := h j h' hj ⟨hop,hheld⟩
  have hold := hnot h'' hj'
  rw [hguards.2] at hold
  cases hold

theorem removesOwn_of_file (h : w'.file = w.file ∨ w'.file ≠ none) : World.RemovesOwn w w' a := by
  intro f j hf _ hnone
  rcases h with h | h
  · rw [h,hf] at hnone
    cases hnone
  · exact absurd hnone h

theorem Good.move (hinv : Inv name w) (hl : lookup w.holders i = some g) (hfollow : g.Follows g')
    (hocc : g'.occupies = g.occupies) (hcalls : g'.Calls) : Good name w a (w.setHolder i g') := by
  refine ⟨⟨hinv.memory.move hl hfollow.pid hfollow.operation hocc hcalls,hinv.file.move hl hfollow⟩,
    grantsAlone_of_no_grant fun j h hj hguards => ?_,removesOwn_of_file (.inl rfl)⟩
  rcases lookup_assign_cases hj with ⟨rfl,rfl⟩ | ⟨-,hj⟩
  · exact ⟨g,hl,hfollow.guards hguards⟩
  · exact ⟨h,hj,hguards⟩

theorem Holder.Calls.of_stage {stage : Stage} (h : g.Calls) (hstage : g.stage ≠ .granted) (started : ℕ) :
    ({ g with stage := stage, started := started } : Holder).Calls where
  shared hop := absurd (h.shared hop).1 hstage
  early _ := h.early hstage
  unreleased := h.unreleased
  single := h.single

theorem Holder.occupies_of_stage (h : g.stage ≠ .granted) : g.occupies = true := by
  simp [Holder.occupies,h]

theorem Holder.follows_stage {stage : Stage} (hold : g.stage ≠ .granted) (hnew : stage ≠ .granted)
    (hcleared : stage = .cleared → g.stage = .cleared) : g.Follows { g with stage := stage } where
  pid := rfl
  operation := rfl
  started := rfl
  granted h := absurd h hold
  unfinished h := absurd h (Holder.not_unfinished_of_stage hnew)
  guards h := absurd h (Holder.not_guards_of_stage hnew)
  cleared := hcleared

theorem good_passes (hinv : Inv name w) (seconds : ℕ) :
    Good name w (.passes seconds) { w with now := w.now+seconds } :=
  ⟨⟨⟨hinv.memory.holders,hinv.memory.fresh,hinv.memory.live,hinv.memory.memory,hinv.memory.calls⟩,
    hinv.file.passes seconds⟩,grantsAlone_of_no_grant fun _ h hj hguards => ⟨h,hj,hguards⟩,
    removesOwn_of_file (.inl rfl)⟩

theorem good_starts (hinv : Inv name w) (hnew : pid ∉ keys w.processes) :
    Good name w (.starts pid) { w with processes := assign w.processes pid none } :=
  ⟨⟨hinv.memory.starts hnew,hinv.file.follow fun _ h hj => ⟨h,hj,.refl h⟩⟩,
    grantsAlone_of_no_grant fun _ h hj hguards => ⟨h,hj,hguards⟩,removesOwn_of_file (.inl rfl)⟩

theorem good_dies (hinv : Inv name w) (pid : ℕ) : Good name w (.dies pid) { w with
    processes := remove w.processes pid, holders := w.holders.filter fun kg => kg.2.pid ≠ pid } := by
  have hleft : ∀ j h, lookup (w.holders.filter fun kg => kg.2.pid ≠ pid) j = some h →
      lookup w.holders j = some h := fun j h hj => (lookup_filter_pid hinv.memory hj).1
  exact ⟨⟨hinv.memory.dies pid,hinv.file.follow fun j h hj => ⟨h,hleft j h hj,.refl h⟩⟩,
    grantsAlone_of_no_grant fun j h hj hguards => ⟨h,hleft j h hj,hguards⟩,removesOwn_of_file (.inl rfl)⟩

theorem Good.refl (hinv : Inv name w) : Good name w a w :=
  ⟨hinv,grantsAlone_of_no_grant fun _ h hj hguards => ⟨h,hj,hguards⟩,removesOwn_of_file (.inl rfl)⟩

theorem good_tryLock (hinv : Inv name w) (hs : w.tryLock pid op = some w') :
    Good name w (.tryLock pid op) w' := by
  rw [World.tryLock] at hs
  split at hs
  · cases hs
  · next state hstate =>
    split at hs
    · cases hs
      exact .refl hinv
    · next state' ha =>
      cases hs
      refine ⟨⟨hinv.memory.acquire hstate ha,hinv.file.acquire pid op _⟩,
        grantsAlone_of_no_grant fun j h hj hguards => ?_,removesOwn_of_file (.inl rfl)⟩
      rcases lookup_assign_cases hj with ⟨-,rfl⟩ | ⟨-,hj⟩
      · -- an exclusive guard is not given out before the file has been written
        have hop : op.isExclusive = true := hguards.1
        have hstage := (Holder.held_iff.mp hguards.2).1
        simp [Holder.new,hop] at hstage
      · exact ⟨h,hj,hguards⟩

theorem blocker_of_claim (hinv : Inv name w) {other : Holder} (others : Bool)
    (hj : lookup w.holders j = some other) (hguards : other.Guards) (hyoung : other.young w.now = true)
    (hname : PlainName name) (hage : (w.now : ℤ)-other.started < op.staleTimeout) :
    (w.blocker d op others (w.file.map fun f => TextMode.translate f.text)).isSome := by
  have hfile := hinv.file.file j other hj hguards.unfinished (hinv.file.young j other hj hguards hyoung)
  have hlive : ∃ p ∈ keys w.processes, (p : ℤ) = other.pid := ⟨other.pid,hinv.memory.live j other hj,rfl⟩
  have hparse : (w.file.map fun f => TextMode.translate f.text).bind (parseLockFile d) =
      some (other.operation.value,(other.pid : ℤ),(other.started : ℤ)) := by
    rw [hfile]
    exact parse_claimText hname other.operation other.pid other.started
  have halive : w.isProcessAlive others other.pid = true := by
    rw [World.isProcessAlive,List.any_eq_true.mpr ?_,Bool.or_true]
    obtain ⟨p,hp,heq⟩ := hlive
    exact ⟨p,hp,decide_eq_true heq⟩
  rw [World.blocker,hparse]
  simp [hage,halive]

theorem good_readFile (hinv : Inv name w) {fails others : Bool} (hl : lookup w.holders i = some g)
    (hk : World.Keeps name w (.readFile i fails others)) (hs : w.readFile d i g fails others = some w') :
    Good name w (.readFile i fails others) w' := by
  rw [World.readFile] at hs
  split at hs
  · next hready =>
    obtain ⟨hstage,hnone⟩ := hready
    have hgranted : g.stage ≠ .granted := by simp [hstage]
    have hcalls := hinv.memory.calls i g hl
    dsimp only at hs
    split at hs
    · cases hs
      exact .move hinv hl (Holder.follows_stage hgranted (by simp) (by simp))
        ((Holder.occupies_of_stage (by simp)).trans (Holder.occupies_of_stage hgranted).symm)
        (hcalls.of_stage hgranted g.started)
    · next hblocker =>
      cases hs
      have hother : ∀ j h, lookup w.holders j = some h → h.stage ≠ .cleared :=
        fun j h hj => hnone _ (mem_of_lookup hj)
      have hold : ∀ j other, lookup w.holders j = some other → other.Guards → other.young w.now = false := by
        intro j other hj hguards
        refine Bool.eq_false_iff.mpr fun hyoung => ?_
        obtain ⟨rfl,hname,hage⟩ := hk g hl j other hj hguards.1 hguards.2 hyoung
        have hsome := blocker_of_claim (d:=d) hinv others hj hguards hyoung hname hage
        rw [show w.blocker d g.operation others (w.file.map fun f => TextMode.translate f.text) = none
          from hblocker] at hsome
        cases hsome
      have hnot : ({ g with stage := .cleared } : Holder).stage ≠ .granted := by simp
      refine ⟨⟨hinv.memory.move hl rfl rfl ?_ (hcalls.of_stage hgranted g.started),
        hinv.file.clear hl hother hstage hold⟩,grantsAlone_of_no_grant fun j h hj hguards => ?_,
        removesOwn_of_file (.inl rfl)⟩
      · exact (Holder.occupies_of_stage hnot).trans (Holder.occupies_of_stage hgranted).symm
      · rcases lookup_assign_cases hj with ⟨-,rfl⟩ | ⟨-,hj⟩
        · exact absurd hguards (Holder.not_guards_of_stage hnot)
        · exact ⟨h,hj,hguards⟩
  · cases hs

theorem MemoryInv.overwrite (hi : MemoryInv w) (f : LockFile) : MemoryInv (w.overwrite f) :=
  ⟨hi.holders,hi.fresh,hi.live,hi.memory,hi.calls⟩

theorem good_writeFile (hinv : Inv name w) (hl : lookup w.holders i = some g)
    (hs : w.writeFile name i g = some w') : Good name w (.writeFile i) w' := by
  rw [World.writeFile] at hs
  split at hs
  · next hstage =>
    cases hs
    have hgranted : g.stage ≠ .granted := by simp [hstage]
    have hocc := Holder.occupies_of_stage hgranted
    have hcalls := hinv.memory.calls i g hl
    have hop : g.operation.isExclusive = true := by
      by_contra hshared
      exact hgranted (hcalls.shared (Bool.eq_false_iff.mpr hshared)).1
    have hreleased := (hcalls.early hgranted).1
    have hcalls' : ({ g with stage := .granted, started := w.now } : Holder).Calls := by
      refine ⟨fun hshared => ?_,fun hne => absurd rfl hne,hcalls.unreleased,hcalls.single⟩
      rw [show g.operation.isExclusive = false from hshared] at hop
      cases hop
    have hocc' : ({ g with stage := .granted, started := w.now } : Holder).occupies = g.occupies := by
      rw [hocc]
      simp [Holder.occupies,hreleased]
    refine ⟨⟨(hinv.memory.overwrite _).move hl rfl rfl hocc' hcalls',hinv.file.overwrite hinv.memory hl hstage (.inr rfl) (by simp) (fun _ => rfl)
      fun hne => absurd rfl hne⟩,?_,removesOwn_of_file (.inr (by simp [World.overwrite,World.setHolder]))⟩
    intro j h hj hjop hjheld hnot k other hk hother
    rcases lookup_assign_cases hj with ⟨rfl,rfl⟩ | ⟨-,hj⟩
    · have hkj : k ≠ j := by
        rintro rfl
        rw [hnot other hk] at hother
        cases hother
      have hkept : other.occupies = true := by
        simp [Holder.occupies,(Holder.held_iff.mp hother).2]
      exact ⟨hinv.memory.alone hl hop hocc hk hkj hkept,
        fun hkop => hinv.file.cleared j g hl hstage k other hk ⟨hkop,hother⟩⟩
    · -- every other guard that is held has been held before
      rw [hnot h hj] at hjheld
      cases hjheld
  · cases hs

theorem good_writeFails (hinv : Inv name w) {left : Option ℕ} {error : PyStr} (hl : lookup w.holders i = some g)
    (hs : w.writeFails name i g left error = some w') : Good name w (.writeFails i left error) w' := by
  unfold World.writeFails at hs
  split at hs
  · next hstage =>
    have hgranted : g.stage ≠ .granted := by simp [hstage]
    have hcalls := hinv.memory.calls i g hl
    have hocc : ({ g with stage := .refused (lit "io_error: "++error) none } : Holder).occupies = g.occupies :=
      (Holder.occupies_of_stage (by simp)).trans (Holder.occupies_of_stage hgranted).symm
    cases left with
    | none =>
      cases hs
      exact .move hinv hl (Holder.follows_stage hgranted (by simp) (by simp)) hocc
        (hcalls.of_stage hgranted g.started)
    | some n =>
      cases hs
      have hnot : ({ g with stage := .refused (lit "io_error: "++error) none } : Holder).stage ≠ .granted := by
        simp
      refine ⟨⟨(hinv.memory.overwrite _).move hl rfl rfl hocc (hcalls.of_stage hgranted g.started),
        hinv.file.overwrite hinv.memory hl hstage (.inl rfl) (by simp)
          (fun hu => absurd hu (Holder.not_unfinished_of_stage hnot)) fun _ => rfl⟩,
        grantsAlone_of_no_grant fun j h hj hguards => ?_,
        removesOwn_of_file (.inr (by simp [World.overwrite,World.setHolder]))⟩
      rcases lookup_assign_cases hj with ⟨-,rfl⟩ | ⟨-,hj⟩
      · exact absurd hguards (Holder.not_guards_of_stage hnot)
      · exact ⟨h,hj,hguards⟩
  · cases hs

theorem good_rollBack (hinv : Inv name w) (hl : lookup w.holders i = some g)
    (hs : w.rollBack i g = some w') : Good name w (.rollBack i) w' := by
  rw [World.rollBack] at hs
  split at hs
  · next operation pid hstage =>
    cases hs
    have hgranted : g.stage ≠ .granted := by simp [hstage]
    have hleft : ∀ j h, lookup (remove w.holders i) j = some h → lookup w.holders j = some h := by
      intro j h hj
      rw [lookup_remove] at hj
      split at hj
      · cases hj
      · exact hj
    have hmemory : MemoryInv { w.releaseMemoryOf g with holders := remove w.holders i } :=
      hinv.memory.leave hl (Holder.occupies_of_stage hgranted) (nodup_keys_remove hinv.memory.holders)
        (fun j h hj => ⟨⟨h,hleft j h hj,rfl⟩,hinv.memory.calls j h (hleft j h hj)⟩)
        (fun pid => countP_remove hinv.memory.holders hl)
        (fun pid => countP_remove hinv.memory.holders hl)
    obtain ⟨state,hstate,heq⟩ := releaseMemoryOf_eq hinv.memory hl
    rw [heq] at hmemory ⊢
    exact ⟨⟨hmemory,hinv.file.follow fun j h hj => ⟨h,hleft j h hj,.refl h⟩⟩,
      grantsAlone_of_no_grant fun j h hj hguards => ⟨h,hleft j h hj,hguards⟩,removesOwn_of_file (.inl rfl)⟩
  · cases hs

theorem good_releaseCall (hinv : Inv name w) (hl : lookup w.holders i = some g)
    (hs : w.releaseCall i g = some w') : Good name w (.releaseCall i) w' := by
  have hcalls := hinv.memory.calls i g hl
  rw [World.releaseCall] at hs
  split at hs
  · next hstage =>
    split at hs
    · cases hs
      exact .refl hinv
    · cases hs
      exact .move hinv hl ⟨rfl,rfl,rfl,id,id,id,id⟩ rfl
        ⟨hcalls.shared,fun hne => absurd hstage hne,hcalls.unreleased,hcalls.single⟩
  · cases hs

theorem Holder.Calls.granted_of_checked (h : g.Calls) (hpos : 0 < g.checked) : g.stage = .granted := by
  by_contra hstage
  rw [(h.early hstage).2] at hpos
  exact Nat.lt_irrefl _ hpos

theorem Holder.Calls.released_of_pos (h : g.Calls) (hpos : 0 < g.marked ∨ 0 < g.freed) :
    g.released = true ∧ g.stage = .granted := by
  have hreleased : g.released = true := by
    by_contra hnot
    have hzero := h.unreleased (Bool.eq_false_iff.mpr hnot)
    omega
  refine ⟨hreleased,?_⟩
  by_contra hstage
  rw [(h.early hstage).1] at hreleased
  cases hreleased

theorem good_releaseMark (hinv : Inv name w) (hl : lookup w.holders i = some g)
    (hk : World.Keeps name w (.releaseMark i)) (hs : w.releaseMark i g = some w') :
    Good name w (.releaseMark i) w' := by
  have hcalls := hinv.memory.calls i g hl
  have hreleased : g.released = false := hk g hl
  rw [World.releaseMark] at hs
  split at hs
  · next hpos =>
    cases hs
    have hstage := hcalls.granted_of_checked hpos
    have hzero := hcalls.unreleased hreleased
    refine .move hinv hl ⟨rfl,rfl,rfl,id,fun hu => ⟨hu.1,hstage,.inl hreleased⟩,fun hg => ?_,id⟩ ?_
      ⟨hcalls.shared,fun hne => absurd hstage hne,Bool.noConfusion,?_⟩
    · cases (Holder.held_iff.mp hg.2).2
    · simp [Holder.occupies,hreleased]
    · show g.marked+1+g.freed ≤ 1
      omega
  · cases hs

/-- A guard after the decrement of a call of `release`. -/
def Holder.handsBack (g : Holder) : Holder :=
  { g with marked := g.marked-1, freed := if g.operation.isExclusive then g.freed+1 else g.freed }

theorem Holder.Calls.handsBack (h : g.Calls) (hpos : 0 < g.marked) :
    g.Follows g.handsBack ∧ g.handsBack.Calls ∧ g.handsBack.occupies = false := by
  obtain ⟨hreleased,hstage⟩ := h.released_of_pos (.inl hpos)
  have hsingle := h.single
  have hone : g.marked = 1 ∧ g.freed = 0 := by omega
  have hnot : g.released ≠ false := by
    rw [hreleased]
    exact Bool.noConfusion
  refine ⟨⟨rfl,rfl,rfl,id,fun hu => ⟨hu.1,hstage,.inr (.inl hpos)⟩,fun hguards => ?_,id⟩,
    ⟨fun hshared => ⟨hstage,?_⟩,fun hne => absurd hstage hne,fun hfalse => absurd hfalse hnot,?_⟩,?_⟩
  · exact absurd (Holder.held_iff.mp hguards.2).2 hnot
  · have hfalse : ¬g.operation.isExclusive = true := by
      rw [show g.operation.isExclusive = false from hshared]
      exact Bool.false_ne_true
    exact (if_neg hfalse).trans hone.2
  · show g.marked-1+(if g.operation.isExclusive then g.freed+1 else g.freed) ≤ 1
    split <;> omega
  · simp [Holder.occupies,Holder.handsBack,hstage,hreleased,hone.1]

theorem good_releaseMemory (hinv : Inv name w) (hl : lookup w.holders i = some g)
    (hs : w.releaseMemory i g = some w') : Good name w (.releaseMemory i) w' := by
  have hcalls := hinv.memory.calls i g hl
  rw [World.releaseMemory] at hs
  split at hs
  · next hpos =>
    cases hs
    have hocc : g.occupies = true := by simp [Holder.occupies,hpos]
    obtain ⟨hfollow,hcalls',hgone⟩ := hcalls.handsBack hpos
    have hcount : ∀ q : ℕ × Holder → Bool, q (i,g.handsBack) = false →
        (assign w.holders i g.handsBack).countP q+(if q (i,g) then 1 else 0) = w.holders.countP q := by
      intro q hq
      have hassigned := countP_assign (q:=q) g.handsBack hinv.memory.holders hl
      rw [hassigned,hq]
      rfl
    have hmemory : MemoryInv { w.releaseMemoryOf g with holders := assign w.holders i g.handsBack } :=
      hinv.memory.leave hl hocc (nodup_keys_assign hinv.memory.holders)
        (fun j h hj => by
          rcases lookup_assign_cases hj with ⟨rfl,rfl⟩ | ⟨-,hj⟩
          · exact ⟨⟨g,hl,rfl⟩,hcalls'⟩
          · exact ⟨⟨h,hj,rfl⟩,hinv.memory.calls j h hj⟩)
        (fun pid => hcount _ (by simp [sharedIn,hgone])) (fun pid => hcount _ (by simp [exclusiveIn,hgone]))
    obtain ⟨state,hstate,heq⟩ := releaseMemoryOf_eq hinv.memory hl
    rw [World.setHolder,heq]
    rw [heq] at hmemory
    refine ⟨⟨hmemory,hinv.file.move hl hfollow⟩,grantsAlone_of_no_grant fun j h hj hguards => ?_,
      removesOwn_of_file (.inl rfl)⟩
    rcases lookup_assign_cases hj with ⟨rfl,rfl⟩ | ⟨-,hj⟩
    · exact ⟨g,hl,hfollow.guards hguards⟩
    · exact ⟨h,hj,hguards⟩
  · cases hs

/-- A guard after the `unlink` of a call of `release`. -/
def Holder.unlinked (g : Holder) : Holder := { g with freed := g.freed-1 }

theorem Holder.Calls.unlinked (h : g.Calls) (hpos : 0 < g.freed) :
    g.Unfinished ∧ g.Follows g.unlinked ∧ g.unlinked.Calls ∧ ¬g.unlinked.Unfinished := by
  obtain ⟨hreleased,hstage⟩ := h.released_of_pos (.inr hpos)
  have hsingle := h.single
  have hone : g.marked = 0 ∧ g.freed = 1 := by omega
  have hnot : g.released ≠ false := by
    rw [hreleased]
    exact Bool.noConfusion
  have hop : g.operation.isExclusive = true := by
    by_contra hshared
    have hzero := (h.shared (Bool.eq_false_iff.mpr hshared)).2
    omega
  have hunfinished : g.Unfinished := ⟨hop,hstage,.inr (.inr hpos)⟩
  refine ⟨hunfinished,⟨rfl,rfl,rfl,id,fun _ => hunfinished,fun hguards => ?_,id⟩,
    ⟨fun hshared => ?_,fun hne => absurd hstage hne,fun hfalse => absurd hfalse hnot,?_⟩,?_⟩
  · exact absurd (Holder.held_iff.mp hguards.2).2 hnot
  · rw [show g.operation.isExclusive = false from hshared] at hop
    cases hop
  · show g.marked+(g.freed-1) ≤ 1
    omega
  · rintro ⟨-,-,hfalse | hmarked | hfreed⟩
    · exact hnot hfalse
    · exact absurd hone.1 (Nat.pos_iff_ne_zero.mp hmarked)
    · have hzero : 0 < g.freed-1 := hfreed
      omega

theorem good_unlink (hinv : Inv name w) {fails : Bool} (hl : lookup w.holders i = some g)
    (hk : World.Keeps name w (.unlink i fails)) (hs : w.unlink i g fails = some w') :
    Good name w (.unlink i fails) w' := by
  have hcalls := hinv.memory.calls i g hl
  rw [World.unlink] at hs
  split at hs
  · next hpos =>
    cases hs
    obtain ⟨hunfinished,hfollow,hcalls',hgone⟩ := hcalls.unlinked hpos
    have hmoved : Good name w (.unlink i fails) (w.setHolder i g.unlinked) :=
      .move hinv hl hfollow rfl hcalls'
    by_cases hsame : fails = true ∨ w.file = none
    · have hfile : (if fails then w.file else none) = w.file := by
        rcases hsame with rfl | hnone
        · rfl
        · rw [hnone,ite_self]
      rw [hfile]
      exact hmoved
    · -- the claim that goes is the one of the guard
      rw [not_or,Bool.not_eq_true] at hsame
      obtain ⟨rfl,hsome⟩ := hsame
      have hown := hinv.file.file i g hl hunfinished fun hover => hsome (hk rfl hover)
      have hf := hmoved.inv.file
      refine ⟨⟨⟨hmoved.inv.memory.holders,hmoved.inv.memory.fresh,hmoved.inv.memory.live,
        hmoved.inv.memory.memory,hmoved.inv.memory.calls⟩,fun f j hfile => ?_,hf.overtaken,hf.one,
        fun j h hj hu hover => ?_,fun j h hj hne => ⟨(hf.pending j h hj hne).1,fun f hfile => ?_⟩,hf.young,
        hf.cleared⟩,hmoved.grants,fun f j hfile hw _ => ?_⟩
      · cases hfile
      · rcases lookup_assign_cases hj with ⟨-,rfl⟩ | ⟨hne,hj⟩
        · exact absurd hu hgone
        · have hother := hinv.file.file j h hj hu hover
          rw [hown] at hother
          have hwriter : some i = some j := congrArg LockFile.writer (Option.some.inj hother)
          exact absurd (Option.some.inj hwriter).symm hne
      · cases hfile
      · rw [hown] at hfile
        cases hfile
        cases hw
        exact ⟨false,rfl⟩
  · cases hs

theorem good_step (hinv : Inv name w) (hk : World.Keeps name w a)
    (hs : w.step d name a = some w') : Good name w a w' := by
  cases a with
  | passes seconds =>
    cases hs
    exact good_passes hinv seconds
  | starts pid =>
    rw [World.step] at hs
    split at hs
    · cases hs
    · next hnew =>
      cases hs
      exact good_starts hinv hnew
  | dies pid =>
    rw [World.step] at hs
    split at hs
    · cases hs
      exact good_dies hinv pid
    · cases hs
  | tryLock pid op => exact good_tryLock hinv hs
  | readFile i fails others =>
    obtain ⟨g,hl,hs⟩ := Option.bind_eq_some_iff.mp hs
    exact good_readFile hinv hl hk hs
  | writeFile i =>
    obtain ⟨g,hl,hs⟩ := Option.bind_eq_some_iff.mp hs
    exact good_writeFile hinv hl hs
  | writeFails i left error =>
    obtain ⟨g,hl,hs⟩ := Option.bind_eq_some_iff.mp hs
    exact good_writeFails hinv hl hs
  | rollBack i =>
    obtain ⟨g,hl,hs⟩ := Option.bind_eq_some_iff.mp hs
    exact good_rollBack hinv hl hs
  | releaseCall i =>
    obtain ⟨g,hl,hs⟩ := Option.bind_eq_some_iff.mp hs
    exact good_releaseCall hinv hl hs
  | releaseMark i =>
    obtain ⟨g,hl,hs⟩ := Option.bind_eq_some_iff.mp hs
    exact good_releaseMark hinv hl hk hs
  | releaseMemory i =>
    obtain ⟨g,hl,hs⟩ := Option.bind_eq_some_iff.mp hs
    exact good_releaseMemory hinv hl hs
  | unlink i fails =>
    obtain ⟨g,hl,hs⟩ := Option.bind_eq_some_iff.mp hs
    exact good_unlink hinv hl hk hs

theorem Inv.new (now : ℕ) (left : Option PyStr) : Inv name (.new now left) := by
  refine ⟨⟨List.nodup_nil,?_,?_,?_,?_⟩,⟨?_,?_,?_,?_,?_,?_,?_⟩⟩
  · exact fun _ _ hl => by cases hl
  · exact fun _ _ hl => by cases hl
  · exact fun _ _ hl => by cases hl
  · exact fun _ _ hl => by cases hl
  · intro f i hfile hw
    obtain ⟨text,-,rfl⟩ := Option.map_eq_some_iff.mp hfile
    cases hw
  · exact fun i hi => by cases hi
  · exact fun _ _ _ _ hl => by cases hl
  · exact fun _ _ hl => by cases hl
  · exact fun _ _ hl => by cases hl
  · exact fun _ _ hl => by cases hl
  · exact fun _ _ hl => by cases hl

theorem exclusive_of_run {as : List Action} (hinv : Inv name w)
    (h : Run (World.step d name) (World.Keeps name) w as w') :
    Run (World.step d name) (World.Exclusive d name) w as w' := by
  induction h with
  | refl => exact .refl _
  | succ hk hs _ ih =>
    have hgood := good_step hinv hk hs
    refine .succ (fun t ht => ?_) hs (ih hgood.inv)
    rw [hs] at ht
    cases ht
    exact ⟨hgood.grants,hgood.removes⟩

/-- In every run whose steps meet their condition, from any lock file that was left behind, each step gives
out exclusive guards alone and removes no claim but its own. -/
theorem lock_exclusive (d : Decimals) (name : PyStr) (now : ℕ) (left : Option PyStr) {as : List Action}
    (h : Run (World.step d name) (World.Keeps name) (.new now left) as w) :
    Run (World.step d name) (World.Exclusive d name) (.new now left) as w :=
  exclusive_of_run (Inv.new now left) h

def asciiDecimals : Decimals :=
  ⟨fun c => if PyJson.isDigit c then some (c.code-48) else none,fun _ h => if_pos h⟩

/-- A build takes the lock and gives it back. -/
def buildRun : List Action :=
  [.starts 17,.tryLock 17 .build,.readFile 0 false false,.writeFile 0,.releaseCall 0,.releaseMark 0,
    .releaseMemory 0,.unlink 0 false]

theorem lock_exclusive_build : ∃ w, w.file = none ∧
    Run (World.step asciiDecimals (lit "project")) (World.Exclusive asciiDecimals (lit "project"))
      (.new 0 none) buildRun w := by
  have hrun : ∃ w, w.file = none ∧
      Run (World.step asciiDecimals (lit "project")) (World.Keeps (lit "project")) (.new 0 none) buildRun w := by
    refine ⟨_,?_,.succ trivial rfl (.succ trivial rfl (.succ ?_ rfl (.succ trivial rfl (.succ trivial rfl
      (.succ ?_ rfl (.succ trivial rfl (.succ ?_ rfl (.refl _))))))))⟩
    · rfl
    · intro g _ j other hj _ hheld
      have hmem : (j,other) ∈ [(0,Holder.new 17 .build)] := mem_of_lookup hj
      cases List.mem_singleton.mp hmem
      cases hheld
    · intro g hg
      cases hg
      rfl
    · exact fun _ hover => absurd hover List.not_mem_nil
  obtain ⟨w,hfile,hkeeps⟩ := hrun
  exact ⟨w,hfile,lock_exclusive asciiDecimals (lit "project") 0 none hkeeps⟩

/-- A build of one process holds the lock, and after 150 seconds a save of another one reads the file. -/
def takeOverRun : List Action :=
  [.starts 17,.starts 18,.tryLock 17 .build,.readFile 0 false false,.writeFile 0,.passes 150,
    .tryLock 18 .save,.readFile 1 false false]

/-- The build gives back what it holds. -/
def lateRelease : List Action := [.writeFile 1,.releaseCall 0,.releaseMark 0,.releaseMemory 0]

/-- The save is given its guard beside the build, which may be held for 600 seconds, and the release of the
build then removes the claim of the save. -/
theorem save_takes_over_build :
    (∃ w, Run (World.step asciiDecimals (lit "project")) always (.new 0 none) takeOverRun w ∧
      ¬World.Exclusive asciiDecimals (lit "project") w (.writeFile 1)) ∧
    ∃ w, Run (World.step asciiDecimals (lit "project")) always (.new 0 none) (takeOverRun++lateRelease) w ∧
      ¬World.Exclusive asciiDecimals (lit "project") w (.unlink 0 false) := by
  constructor
  · refine ⟨_,run_of_exec rfl,fun h => ?_⟩
    have halone := (h _ rfl).1 1 _ rfl rfl rfl (fun _ hg => Option.some.inj hg ▸ rfl) 0 _ rfl rfl
    exact absurd (halone.2 rfl) (by decide)
  · refine ⟨_,run_of_exec rfl,fun h => ?_⟩
    obtain ⟨fails,hown⟩ := (h _ rfl).2 _ 1 rfl rfl rfl
    cases hown

end MinimaxCode.WorkspaceLock
