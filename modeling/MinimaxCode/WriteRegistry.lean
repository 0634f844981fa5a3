import MinimaxCode.OrderedDict
import MinimaxCode.PyText
import MinimaxCode.Runs

/-!
# The in-flight write registry

Runs that write a file declare it in a process-wide map from paths to run ids, and a run that
writes asks whether another run has declared the path. The map has one owner for each path;
what it stands for is a set of claims, which is kept beside it.
-/

namespace MinimaxCode.WriteRegistry

open PyText OrderedDict Runs

/-- `_INFLIGHT_WRITES`, and beside it every claim, as a path and a run, that has been made and
not been released since. -/
structure Registry where
  owners : List (PyStr × PyStr)
  claims : List (PyStr × PyStr)

def start : Registry := ⟨[],[]⟩

inductive Action
  | claim (path run : PyStr)
  | release (run : PyStr)

section Registry

variable (normcase : PyStr → PyStr)

/-- `in_flight_writer`, with the map it reads. -/
def inFlightWriter (owners : List (PyStr × PyStr)) (path : PyStr) (exclude : Option PyStr) : Option PyStr :=
  match lookup owners (normcase path) with
  | some owner => if some owner ≠ exclude then some owner else none
  | none => none

def claimWrite (owners : List (PyStr × PyStr)) (path run : PyStr) : List (PyStr × PyStr) :=
  if lookup owners (normcase path) ≠ some run then assign owners (normcase path) run else owners

def releaseRunWrites (owners : List (PyStr × PyStr)) (run : PyStr) : List (PyStr × PyStr) :=
  owners.filter fun kv => kv.2 ≠ run

def step (s : Registry) : Action → Option Registry
  | .claim path run => some ⟨claimWrite normcase s.owners path run,(normcase path,run)::s.claims⟩
  | .release run => some ⟨releaseRunWrites s.owners run,s.claims.filter fun c => c.2 ≠ run⟩

/-- Asked about a path by a run, or by the main agent, the registry names a run exactly when
another run has claimed the path, and the run it names has. -/
def NamesRivals (s : Registry) : Prop :=
  ∀ path exclude,
    ((inFlightWriter normcase s.owners path exclude).isSome = true ↔
      ∃ run, some run ≠ exclude ∧ (normcase path,run) ∈ s.claims) ∧
    ∀ run, inFlightWriter normcase s.owners path exclude = some run →
      some run ≠ exclude ∧ (normcase path,run) ∈ s.claims

/-- A claim meets no claim of another run on its path. -/
def Unrivalled (s : Registry) (a : Action) : Prop :=
  ∀ path run, a = .claim path run → ∀ other, (normcase path,other) ∈ s.claims → other = run

/-- What the map always has to do with the claims: an owner has claimed its path. -/
structure Represents (s : Registry) : Prop where
  owned : ∀ key run, lookup s.owners key = some run → (key,run) ∈ s.claims
  paths : ∀ key run, (key,run) ∈ s.claims → ∃ path, key = normcase path
  nodup : (keys s.owners).Nodup

/-- Every claimant of a path is its owner. -/
def Sole (s : Registry) : Prop := ∀ key run, (key,run) ∈ s.claims → lookup s.owners key = some run

variable {normcase} {s t : Registry}

theorem inFlightWriter_eq_some {owners : List (PyStr × PyStr)} {path run : PyStr} {exclude : Option PyStr} :
    inFlightWriter normcase owners path exclude = some run ↔
      lookup owners (normcase path) = some run ∧ some run ≠ exclude := by
  unfold inFlightWriter
  cases h : lookup owners (normcase path) with
  | none => simp
  | some owner =>
    simp only [Option.ite_none_right_eq_some,Option.some.injEq]
    constructor
    · rintro ⟨hne,rfl⟩
      exact ⟨rfl,hne⟩
    · rintro ⟨rfl,hne⟩
      exact ⟨hne,rfl⟩

theorem namesRivals_iff (hrep : Represents normcase s) : NamesRivals normcase s ↔ Sole s := by
  constructor
  · intro h key run hclaim
    obtain ⟨path,rfl⟩ := hrep.paths key run hclaim
    have hnamed : ∀ exclude, some run ≠ exclude →
        ∃ owner, lookup s.owners (normcase path) = some owner ∧ some owner ≠ exclude := by
      intro exclude hne
      have hsome := (h path exclude).1.mpr ⟨run,hne,hclaim⟩
      obtain ⟨owner,howner⟩ := Option.isSome_iff_exists.mp hsome
      exact ⟨owner,inFlightWriter_eq_some.mp howner⟩
    obtain ⟨owner,howner,-⟩ := hnamed none (by simp)
    -- asked on behalf of the owner, the registry would have to name the claimant
    by_cases heq : run = owner
    · rw [heq,howner]
    · obtain ⟨owner',howner',hne⟩ := hnamed (some owner) (by simpa using heq)
      rw [howner] at howner'
      exact absurd howner'.symm hne
  · intro h path exclude
    have hnames : ∀ run, inFlightWriter normcase s.owners path exclude = some run →
        some run ≠ exclude ∧ (normcase path,run) ∈ s.claims := by
      intro run hrun
      obtain ⟨hlook,hne⟩ := inFlightWriter_eq_some.mp hrun
      exact ⟨hne,hrep.owned _ _ hlook⟩
    refine ⟨⟨fun hsome => ?_,?_⟩,hnames⟩
    · obtain ⟨run,hrun⟩ := Option.isSome_iff_exists.mp hsome
      exact ⟨run,hnames run hrun⟩
    · rintro ⟨run,hne,hclaim⟩
      rw [inFlightWriter_eq_some.mpr ⟨h _ _ hclaim,hne⟩,Option.isSome_some]

theorem lookup_claimWrite (owners : List (PyStr × PyStr)) (path run key : PyStr) :
    lookup (claimWrite normcase owners path run) key =
      if normcase path = key then some run else lookup owners key := by
  unfold claimWrite
  split
  · exact lookup_assign _ _ _ _
  · next h =>
    split
    · next hkey => rw [← hkey,not_not.mp h]
    · rfl

theorem lookup_releaseRunWrites {owners : List (PyStr × PyStr)} (hd : (keys owners).Nodup)
    {run key owner : PyStr} :
    lookup (releaseRunWrites owners run) key = some owner ↔ lookup owners key = some owner ∧ owner ≠ run := by
  have hd' : (keys (releaseRunWrites owners run)).Nodup := hd.sublist (List.filter_sublist.map Prod.fst)
  constructor
  · intro h
    obtain ⟨hmem,hne⟩ := List.mem_filter.mp (mem_of_lookup h)
    exact ⟨lookup_of_mem hd hmem,of_decide_eq_true hne⟩
  · rintro ⟨h,hne⟩
    exact lookup_of_mem hd' (List.mem_filter.mpr ⟨mem_of_lookup h,decide_eq_true hne⟩)

theorem represents_step {a : Action} (hs : step normcase s a = some t)
    (h : Represents normcase s) : Represents normcase t := by
  cases a with
  | claim path run =>
    cases hs
    refine ⟨fun key owner hlook => ?_,fun key owner hclaim => ?_,?_⟩
    · rw [lookup_claimWrite] at hlook
      split at hlook
      · next hkey =>
        rw [← hkey,Option.some.inj hlook]
        exact List.mem_cons_self
      · exact List.mem_cons_of_mem _ (h.owned key owner hlook)
    · cases List.mem_cons.mp hclaim with
      | inl heq => exact ⟨path,(Prod.mk.inj heq).1⟩
      | inr hclaim => exact h.paths key owner hclaim
    · dsimp only [claimWrite]
      split
      · exact nodup_keys_assign h.nodup
      · exact h.nodup
  | release run =>
    cases hs
    refine ⟨fun key owner hlook => ?_,fun key owner hclaim => ?_,?_⟩
    · obtain ⟨hlook,hne⟩ := (lookup_releaseRunWrites h.nodup).mp hlook
      exact List.mem_filter.mpr ⟨h.owned key owner hlook,decide_eq_true hne⟩
    · exact h.paths key owner (List.mem_filter.mp hclaim).1
    · exact h.nodup.sublist (List.filter_sublist.map Prod.fst)

theorem sole_step {a : Action} (hs : step normcase s a = some t)
    (hrep : Represents normcase s) (h : Sole s) : Sole t ↔ Unrivalled normcase s a := by
  cases a with
  | claim path run =>
    cases hs
    constructor
    · rintro hsole p r heq other hother
      cases heq
      have hown := hsole _ _ (List.mem_cons_of_mem _ hother)
      rw [lookup_claimWrite,if_pos rfl] at hown
      exact (Option.some.inj hown).symm
    · intro halone key owner hclaim
      rw [lookup_claimWrite]
      cases List.mem_cons.mp hclaim with
      | inl heq =>
        cases heq
        rw [if_pos rfl]
      | inr hclaim =>
        split
        · next hkey => rw [halone path run rfl owner (hkey ▸ hclaim)]
        · exact h key owner hclaim
  | release run =>
    cases hs
    refine iff_of_true (fun key owner hclaim => ?_) fun path r heq => by cases heq
    obtain ⟨hclaim,hne⟩ := List.mem_filter.mp hclaim
    exact (lookup_releaseRunWrites hrep.nodup).mpr ⟨h key owner hclaim,of_decide_eq_true hne⟩

theorem start_represents : Represents normcase start :=
  ⟨fun key run h => by simp [start] at h,fun key run h => by simp [start] at h,List.nodup_nil⟩

/-- In every run a run that is named has claimed the path and not released it. -/
theorem inFlightWriter_claimed {as : List Action} (h : Run (step normcase) always start as s)
    {path run : PyStr} {exclude : Option PyStr}
    (hrun : inFlightWriter normcase s.owners path exclude = some run) :
    (normcase path,run) ∈ s.claims ∧ some run ≠ exclude := by
  obtain ⟨howner,hother⟩ := inFlightWriter_eq_some.mp hrun
  have hrep := h.invariant (fun _ _ _ _ hst => represents_step hst) start_represents
  exact ⟨hrep.owned _ _ howner,hother⟩

end Registry

/-- The registry answers for all claims throughout a run exactly when every claim is made on a
path that no other run has claimed and not released. -/
theorem names_rivals_iff_unrivalled (normcase : PyStr → PyStr) {as : List Action} {u : Registry}
    (h : Run (step normcase) always start as u) :
    Throughout (step normcase) (NamesRivals normcase) start as ↔
      Run (step normcase) (Unrivalled normcase) start as u := by
  have hstart : NamesRivals normcase start := by
    rw [namesRivals_iff start_represents]
    intro key run hclaim
    cases hclaim
  refine throughout_iff (fun s a t _ hs hrep _ _ => represents_step hs hrep) ?_ h start_represents hstart
  intro s a t _ hs hrep hP
  rw [namesRivals_iff (represents_step hs hrep)]
  exact sole_step hs hrep ((namesRivals_iff hrep).mp hP)

/-- Two runs claim a file; the second is told that nobody else writes it. -/
theorem second_claim_hides_first :
    ¬ ∀ as u, Run (step id) always start as u → NamesRivals id u := by
  intro h
  have hrun : Run (step id) always start [.claim (lit "a.py") (lit "run_a"),.claim (lit "a.py") (lit "run_b")]
      (last (step id) start [.claim (lit "a.py") (lit "run_a"),.claim (lit "a.py") (lit "run_b")]) :=
    run_last rfl
  have hrival := (h _ _ hrun (lit "a.py") (some (lit "run_b"))).1.mpr
    ⟨lit "run_a",by decide,List.mem_cons_of_mem _ List.mem_cons_self⟩
  exact absurd hrival (by decide)

theorem inFlightWriter_first : (lit "a.py",lit "run_a") ∈ (last (step id) start
    [.claim (lit "a.py") (lit "run_a"),.claim (lit "b.py") (lit "run_b")]).claims ∧
      some (lit "run_a") ≠ some (lit "run_b") :=
  @inFlightWriter_claimed id _ _ (run_last rfl) (lit "a.py") _ _ (by decide)

/-- Two runs that write files of their own. -/
theorem own_files_named :
    Throughout (step id) (NamesRivals id) start
      [.claim (lit "a.py") (lit "run_a"),.claim (lit "b.py") (lit "run_b"),.release (lit "run_a")] := by
  refine (names_rivals_iff_unrivalled id (run_last rfl)).mpr (.succ ?_ rfl (.succ ?_ rfl (.succ ?_ rfl (.refl _))))
  · rintro path run heq other hother
    cases hother
  · rintro path run heq other hother
    cases heq
    exact absurd hother (by simp [start,lit])
  · intro path run heq
    cases heq

end MinimaxCode.WriteRegistry
