import Mathlib.Data.List.Perm.Basic
import MinimaxCode.OrderedDict

/-!
# Postings

A table lists, under each key, the places of the key: a document and a position in it. A
second table says which keys a document has, so that a document can be taken out again.
-/

namespace MinimaxCode

open OrderedDict

structure Postings (K S V : Type*) where
  forward : List (K × List (S × V))
  reverse : List (S × List K)

namespace Postings

variable {K S V : Type*} [DecidableEq K] [DecidableEq S]

def empty : Postings K S V := ⟨[],[]⟩

/-- The places of a key. -/
def places (t : Postings K S V) (k : K) : List (S × V) := (lookup t.forward k).getD []

/-- The keys that a document is said to have. -/
def keysOf (t : Postings K S V) (s : S) : List K := (lookup t.reverse s).getD []

def add (t : Postings K S V) (k : K) (s : S) (v : V) : Postings K S V :=
  ⟨assign t.forward k (t.places k++[(s,v)]),
    assign t.reverse s (if k ∈ t.keysOf s then t.keysOf s else t.keysOf s++[k])⟩

/-- The places in a document are struck from a key; a key without places goes. -/
def strike (s : S) (d : List (K × List (S × V))) (k : K) : List (K × List (S × V)) :=
  match lookup d k with
  | none => d
  | some locs =>
    match locs.filter fun l => l.1 ≠ s with
    | [] => remove d k
    | l::ls => assign d k (l::ls)

def prune (t : Postings K S V) (s : S) : Postings K S V :=
  match lookup t.reverse s with
  | none => t
  | some ks => ⟨ks.foldl (strike s) t.forward,remove t.reverse s⟩

/-- The places in a document pass to another one. -/
def relabel (s s' : S) (l : S × V) : S × V := if l.1 = s then (s',l.2) else l

def rewrite (s s' : S) (d : List (K × List (S × V))) (k : K) : List (K × List (S × V)) :=
  match lookup d k with
  | none => d
  | some locs => assign d k (locs.map (relabel s s'))

/-- A document takes the name of another one, which keeps what it has. -/
def move (t : Postings K S V) (s s' : S) : Postings K S V :=
  match lookup t.reverse s with
  | none => t
  | some ks =>
    let rest := remove t.reverse s
    let old := (lookup rest s').getD []
    ⟨ks.foldl (rewrite s s') t.forward,assign rest s' (old++ks.filter (· ∉ old))⟩

def addAll (t : Postings K S V) (s : S) (entries : List (K × V)) : Postings K S V :=
  entries.foldl (fun t e => t.add e.1 s e.2) t

/-- The positions of a key in a document. -/
def positions (t : Postings K S V) (k : K) (s : S) : List V :=
  ((t.places k).filter fun l => l.1 = s).map Prod.snd

/-- No key is without places, and the second table knows every document of a key. -/
structure Sound (t : Postings K S V) : Prop where
  nonempty : ∀ k locs, lookup t.forward k = some locs → locs ≠ []
  covers : ∀ k, ∀ l ∈ t.places k, k ∈ t.keysOf l.1

/-- The second table has a document exactly when some key has a place in it, and its keys there
are those. -/
structure Exact (t : Postings K S V) : Prop where
  nonempty : ∀ k locs, lookup t.forward k = some locs → locs ≠ []
  inverse : ∀ k s, k ∈ t.keysOf s ↔ ∃ l ∈ t.places k, l.1 = s
  inhabited : ∀ s ks, lookup t.reverse s = some ks → ks ≠ []

variable {t t' : Postings K S V} {k k' : K} {s s' : S} {v : V}

theorem Sound.empty : (empty : Postings K S V).Sound :=
  ⟨fun _ _ h => absurd h (Option.some_ne_none _).symm,fun _ _ h => absurd h List.not_mem_nil⟩

theorem places_add (t : Postings K S V) (k k' : K) (s : S) (v : V) :
    (t.add k s v).places k' = if k = k' then t.places k'++[(s,v)] else t.places k' := by
  rw [places,add,lookup_assign]
  by_cases h : k = k'
  · subst h
    rw [if_pos rfl,if_pos rfl,Option.getD_some]
  · rw [if_neg h,if_neg h,places]

theorem mem_keysOf_add : k' ∈ (t.add k s v).keysOf s' ↔ k' ∈ t.keysOf s' ∨ k' = k ∧ s' = s := by
  rw [keysOf,add,lookup_assign]
  by_cases h : s = s'
  · subst h
    rw [if_pos rfl,Option.getD_some]
    split
    · next hk =>
      refine ⟨Or.inl,?_⟩
      rintro (hmem | ⟨rfl,-⟩)
      · exact hmem
      · exact hk
    · simp
  · rw [if_neg h,← keysOf]
    refine ⟨Or.inl,?_⟩
    rintro (hmem | ⟨-,rfl⟩)
    · exact hmem
    · exact absurd rfl h

theorem Sound.add (h : t.Sound) (k : K) (s : S) (v : V) : (t.add k s v).Sound := by
  refine ⟨fun k' locs hl => ?_,fun k' l hl => ?_⟩
  · rw [Postings.add,lookup_assign] at hl
    split at hl
    · cases hl
      exact List.append_ne_nil_of_right_ne_nil _ (List.cons_ne_nil _ _)
    · exact h.nonempty k' locs hl
  · rw [places_add] at hl
    rw [mem_keysOf_add]
    split at hl
    · next hk =>
      rcases List.mem_append.mp hl with hl | hl
      · exact .inl (h.covers k' l hl)
      · rw [List.mem_singleton.mp hl]
        exact .inr ⟨hk.symm,rfl⟩
    · exact .inl (h.covers k' l hl)

theorem Sound.addAll (h : t.Sound) (s : S) (entries : List (K × V)) : (t.addAll s entries).Sound := by
  induction entries generalizing t with
  | nil => exact h
  | cons e entries ih => exact ih (h.add e.1 s e.2)

theorem positions_add (t : Postings K S V) (k k' : K) (s s' : S) (v : V) :
    (t.add k s v).positions k' s' =
      t.positions k' s'++if k = k' ∧ s = s' then [v] else [] := by
  rw [positions,places_add,positions]
  by_cases hk : k = k'
  · rw [if_pos hk,List.filter_append,List.map_append]
    by_cases hs : s = s' <;> simp [hk,hs]
  · simp [hk]

theorem positions_addAll (t : Postings K S V) (s s' : S) (entries : List (K × V)) (k : K) :
    (t.addAll s entries).positions k s' =
      t.positions k s'++if s = s' then (entries.filter fun e => e.1 = k).map Prod.snd else [] := by
  induction entries generalizing t with
  | nil => simp [addAll]
  | cons e entries ih =>
    change ((t.add e.1 s e.2).addAll s entries).positions k s' = _
    rw [ih,positions_add,List.append_assoc]
    by_cases hs : s = s' <;> by_cases hk : e.1 = k <;> simp [hs,hk]

theorem lookup_strike (s : S) (d : List (K × List (S × V))) (k k' : K)
    (hne : ∀ locs, lookup d k' = some locs → locs ≠ []) :
    (∀ locs, lookup (strike s d k) k' = some locs → locs ≠ []) ∧
    (lookup (strike s d k) k').getD [] =
      if k = k' then ((lookup d k').getD []).filter fun l => l.1 ≠ s else (lookup d k').getD [] := by
  rw [strike]
  cases hd : lookup d k with
  | none =>
    refine ⟨hne,?_⟩
    by_cases hk : k = k'
    · subst hk
      simp [hd]
    · rw [if_neg hk]
  | some locs =>
    dsimp only
    split
    · next hnil =>
      rw [lookup_remove]
      by_cases hk : k = k'
      · subst hk
        rw [if_pos rfl,if_pos rfl,hd]
        exact ⟨fun _ hl => absurd hl (Option.some_ne_none _).symm,hnil.symm⟩
      · rw [if_neg hk,if_neg hk]
        exact ⟨hne,rfl⟩
    · next l ls hcons =>
      rw [lookup_assign]
      by_cases hk : k = k'
      · subst hk
        rw [if_pos rfl,if_pos rfl,hd]
        refine ⟨fun locs hl => ?_,hcons.symm⟩
        cases hl
        exact List.cons_ne_nil l ls
      · rw [if_neg hk,if_neg hk]
        exact ⟨hne,rfl⟩

theorem lookup_foldl_strike (s : S) (ks : List K) (d : List (K × List (S × V))) (k : K)
    (hne : ∀ locs, lookup d k = some locs → locs ≠ []) :
    (∀ locs, lookup (ks.foldl (strike s) d) k = some locs → locs ≠ []) ∧
    (lookup (ks.foldl (strike s) d) k).getD [] =
      if k ∈ ks then ((lookup d k).getD []).filter fun l => l.1 ≠ s else (lookup d k).getD [] := by
  induction ks generalizing d with
  | nil => exact ⟨hne,(if_neg List.not_mem_nil).symm⟩
  | cons k₀ ks ih =>
    obtain ⟨hne',hat⟩ := lookup_strike s d k₀ k hne
    obtain ⟨hne'',hat'⟩ := ih (strike s d k₀) hne'
    refine ⟨hne'',hat'.trans ?_⟩
    rw [hat]
    by_cases h₀ : k₀ = k
    · subst h₀
      simp
    · simp [h₀,Ne.symm h₀]

theorem places_prune (h : t.Sound) (s : S) (k : K) :
    (t.prune s).places k = (t.places k).filter fun l => l.1 ≠ s := by
  have hclean : k ∉ t.keysOf s → t.places k = (t.places k).filter fun l => l.1 ≠ s := by
    intro hk
    refine (List.filter_eq_self.mpr fun l hl => decide_eq_true ?_).symm
    rintro rfl
    exact hk (h.covers k l hl)
  rw [prune]
  cases hr : lookup t.reverse s with
  | none =>
    refine hclean ?_
    rw [keysOf,hr]
    exact List.not_mem_nil
  | some ks =>
    refine (lookup_foldl_strike s ks t.forward k (h.nonempty k)).2.trans ?_
    by_cases hk : k ∈ ks
    · rw [if_pos hk]
      rfl
    · rw [if_neg hk]
      refine hclean ?_
      rw [keysOf,hr]
      exact hk

theorem Sound.prune (h : t.Sound) (s : S) : (t.prune s).Sound := by
  refine ⟨fun k locs hl => ?_,fun k l hl => ?_⟩
  · rw [Postings.prune] at hl
    split at hl
    · exact h.nonempty k locs hl
    · exact (lookup_foldl_strike s _ t.forward k (h.nonempty k)).1 locs hl
  · rw [places_prune h] at hl
    obtain ⟨hl,hne⟩ := List.mem_filter.mp hl
    have hk := h.covers k l hl
    rw [Postings.prune]
    split
    · exact hk
    · rw [keysOf,lookup_remove,if_neg (Ne.symm (of_decide_eq_true hne))]
      exact hk

theorem positions_prune (h : t.Sound) (k : K) (s s' : S) :
    (t.prune s).positions k s' = if s = s' then [] else t.positions k s' := by
  rw [positions,places_prune h,List.filter_filter,positions]
  by_cases hs : s = s'
  · subst hs
    rw [if_pos rfl,List.map_eq_nil_iff,List.filter_eq_nil_iff]
    intro l _ hl
    obtain ⟨heq,hne⟩ := Bool.and_eq_true_iff.mp hl
    exact of_decide_eq_true hne (of_decide_eq_true heq)
  · rw [if_neg hs]
    refine congrArg (List.map Prod.snd) (List.filter_congr fun l _ => ?_)
    by_cases hl : l.1 = s'
    · simp [hl,Ne.symm hs]
    · simp [hl]

theorem Exact.empty : (empty : Postings K S V).Exact :=
  ⟨fun _ _ h => absurd h (Option.some_ne_none _).symm,
    fun _ _ => ⟨fun h => absurd h List.not_mem_nil,fun ⟨_,h,_⟩ => absurd h List.not_mem_nil⟩,
    fun _ _ h => absurd h (Option.some_ne_none _).symm⟩

theorem Exact.sound (h : t.Exact) : t.Sound :=
  ⟨h.nonempty,fun k l hl => (h.inverse k l.1).mpr ⟨l,hl,rfl⟩⟩

theorem Exact.add (h : t.Exact) (k : K) (s : S) (v : V) : (t.add k s v).Exact := by
  refine ⟨(h.sound.add k s v).nonempty,fun k' s' => ?_,fun s' ks hks => ?_⟩
  · rw [mem_keysOf_add,places_add,h.inverse]
    by_cases hk : k = k'
    · subst hk
      simp only [if_pos,List.mem_append,List.mem_singleton,or_and_right,exists_or,exists_eq_left,
        true_and]
      exact or_congr Iff.rfl eq_comm
    · rw [if_neg hk]
      exact or_iff_left fun hk' => hk hk'.1.symm
  · rw [Postings.add,lookup_assign] at hks
    split at hks
    · cases hks
      split
      · next hmem => exact List.ne_nil_of_mem hmem
      · exact List.append_ne_nil_of_right_ne_nil _ (List.cons_ne_nil _ _)
    · exact h.inhabited s' ks hks

theorem keysOf_prune (t : Postings K S V) (s s' : S) :
    (t.prune s).keysOf s' = if s = s' then [] else t.keysOf s' := by
  rw [prune]
  cases hr : lookup t.reverse s with
  | none =>
    by_cases hs : s = s'
    · subst hs
      rw [if_pos rfl,keysOf,hr]
      rfl
    · rw [if_neg hs]
  | some ks =>
    rw [keysOf,lookup_remove]
    by_cases hs : s = s'
    · rw [if_pos hs,if_pos hs]
      rfl
    · rw [if_neg hs,if_neg hs,keysOf]

theorem Exact.prune (h : t.Exact) (s : S) : (t.prune s).Exact := by
  refine ⟨(h.sound.prune s).nonempty,fun k s' => ?_,fun s' ks hks => ?_⟩
  · rw [keysOf_prune,places_prune h.sound]
    by_cases hs : s = s'
    · subst hs
      simp
    · rw [if_neg hs,h.inverse]
      refine exists_congr fun l => and_congr_left fun hl => ?_
      subst hl
      simp [Ne.symm hs]
  · rw [Postings.prune] at hks
    split at hks
    · exact h.inhabited s' ks hks
    · rw [lookup_remove] at hks
      split at hks
      · cases hks
      · exact h.inhabited s' ks hks

@[simp] theorem relabel_relabel (s s' : S) (l : S × V) :
    relabel s s' (relabel s s' l) = relabel s s' l := by
  by_cases hl : l.1 = s
  · by_cases hs : s' = s <;> simp [relabel,hl,hs]
  · simp [relabel,hl]

theorem lookup_foldl_rewrite (s s' : S) (ks : List K) (d : List (K × List (S × V))) (k : K) :
    lookup (ks.foldl (rewrite s s') d) k =
      if k ∈ ks then (lookup d k).map (List.map (relabel s s')) else lookup d k := by
  induction ks generalizing d with
  | nil => exact (if_neg List.not_mem_nil).symm
  | cons k₀ ks ih =>
    have hrewrite : lookup (rewrite s s' d k₀) k =
        if k₀ = k then (lookup d k).map (List.map (relabel s s')) else lookup d k := by
      rw [rewrite]
      by_cases hk : k₀ = k
      · subst hk
        cases hd : lookup d k₀ with
        | none => simp [hd]
        | some locs => simp [lookup_assign]
      · cases lookup d k₀ with
        | none => simp [hk]
        | some locs => simp [lookup_assign,hk]
    rw [List.foldl_cons,ih,hrewrite]
    have hidem : ∀ o : Option (List (S × V)), (o.map (List.map (relabel s s'))).map
        (List.map (relabel s s')) = o.map (List.map (relabel s s')) := by
      rintro (_ | locs)
      · rfl
      · simp
    by_cases hk : k₀ = k
    · subst hk
      by_cases hmem : k₀ ∈ ks <;> simp [hmem,hidem]
    · simp [hk,Ne.symm hk]

theorem places_move (h : t.Exact) (s s' : S) (k : K) :
    (t.move s s').places k = (t.places k).map (relabel s s') := by
  have hclean : k ∉ t.keysOf s → t.places k = (t.places k).map (relabel s s') := by
    intro hk
    refine (List.map_id _).symm.trans (List.map_congr_left fun l hl => ?_)
    rw [relabel,if_neg]
    · rfl
    · intro hls
      exact hk ((h.inverse k s).mpr ⟨l,hl,hls⟩)
  rw [move]
  cases hr : lookup t.reverse s with
  | none =>
    refine hclean ?_
    rw [keysOf,hr]
    exact List.not_mem_nil
  | some ks =>
    dsimp only
    rw [places,lookup_foldl_rewrite]
    by_cases hk : k ∈ ks
    · rw [if_pos hk,places]
      cases lookup t.forward k with
      | none => rfl
      | some locs => rfl
    · rw [if_neg hk]
      refine hclean ?_
      rw [keysOf,hr]
      exact hk

theorem mem_keysOf_move (t : Postings K S V) (s s' s'' : S) (k : K) :
    k ∈ (t.move s s').keysOf s'' ↔
      s'' ≠ s ∧ k ∈ t.keysOf s'' ∨ s'' = s' ∧ k ∈ t.keysOf s := by
  rw [move]
  cases hr : lookup t.reverse s with
  | none =>
    have hnone : t.keysOf s = [] := by rw [keysOf,hr]; rfl
    by_cases hs : s'' = s
    · subst hs
      simp [hnone]
    · simp [hnone,hs]
  | some ks =>
    have hks : t.keysOf s = ks := by rw [keysOf,hr]; rfl
    have hrest : ∀ r, k ∈ (lookup (remove t.reverse s) r).getD [] ↔ r ≠ s ∧ k ∈ t.keysOf r := by
      intro r
      rw [lookup_remove]
      by_cases hrs : s = r
      · simp [hrs]
      · simp [hrs,Ne.symm hrs,keysOf]
    rw [hks,keysOf,lookup_assign]
    by_cases hs : s' = s''
    · subst hs
      rw [if_pos rfl,Option.getD_some,List.mem_append,List.mem_filter,decide_eq_true_eq,← hrest]
      simp only [true_and]
      exact ⟨fun h => h.imp_right And.left,fun h => (Classical.em _).imp_right
        fun hold => ⟨h.resolve_left hold,hold⟩⟩
    · rw [if_neg hs,hrest]
      simp [Ne.symm hs]

theorem keysOf_move_ne_nil (t : Postings K S V) (s s' : S) :
    (t.move s s').keysOf s ≠ [] ↔ s = s' ∧ t.keysOf s ≠ [] := by
  constructor
  · intro hne
    obtain ⟨k,hk⟩ := List.exists_mem_of_ne_nil _ hne
    rcases (mem_keysOf_move t s s' s k).mp hk with hk | hk
    · exact absurd rfl hk.1
    · exact ⟨hk.1,List.ne_nil_of_mem hk.2⟩
  · rintro ⟨heq,hne⟩
    obtain ⟨k,hk⟩ := List.exists_mem_of_ne_nil _ hne
    exact List.ne_nil_of_mem ((mem_keysOf_move t s s' s k).mpr (.inr ⟨heq,hk⟩))

theorem Exact.move (h : t.Exact) (s s' : S) : (t.move s s').Exact := by
  refine ⟨fun k locs hl => ?_,fun k s'' => ?_,fun s'' ks hks => ?_⟩
  · have hplaces := places_move h s s' k
    rw [places,hl,Option.getD_some,places] at hplaces
    have hold : ∃ old, lookup t.forward k = some old := by
      rw [Postings.move] at hl
      split at hl
      · exact ⟨locs,hl⟩
      · rw [lookup_foldl_rewrite] at hl
        split at hl
        · obtain ⟨old,hold,-⟩ := Option.map_eq_some_iff.mp hl
          exact ⟨old,hold⟩
        · exact ⟨locs,hl⟩
    obtain ⟨old,hold⟩ := hold
    rw [hold,Option.getD_some] at hplaces
    rw [hplaces]
    exact fun hnil => h.nonempty k old hold (List.map_eq_nil_iff.mp hnil)
  · rw [mem_keysOf_move,places_move h,h.inverse,h.inverse]
    simp only [List.mem_map,exists_exists_and_eq_and]
    constructor
    · rintro (⟨hs,l,hl,rfl⟩ | ⟨rfl,l,hl,rfl⟩)
      · exact ⟨l,hl,by rw [relabel,if_neg hs]⟩
      · exact ⟨l,hl,by rw [relabel,if_pos rfl]⟩
    · rintro ⟨l,hl,rfl⟩
      by_cases hls : l.1 = s
      · exact .inr ⟨by rw [relabel,if_pos hls],l,hl,hls⟩
      · rw [relabel,if_neg hls]
        exact .inl ⟨hls,l,hl,rfl⟩
  · rw [Postings.move] at hks
    split at hks
    · exact h.inhabited s'' ks hks
    · next ks₀ hr =>
      rw [lookup_assign] at hks
      split at hks
      · cases hks
        obtain ⟨k,hk⟩ := List.exists_mem_of_ne_nil _ (h.inhabited s ks₀ hr)
        intro hnil
        obtain ⟨hold,hnew⟩ := List.append_eq_nil_iff.mp hnil
        rw [hold,List.filter_eq_nil_iff] at hnew
        exact hnew k hk (decide_eq_true List.not_mem_nil)
      · rw [lookup_remove] at hks
        split at hks
        · cases hks
        · exact h.inhabited s'' ks hks

/-- The first table has each key once. -/
def Keyed (t : Postings K S V) : Prop := (keys t.forward).Nodup

theorem Keyed.add (h : t.Keyed) (k : K) (s : S) (v : V) : (t.add k s v).Keyed := nodup_keys_assign h

omit [DecidableEq K] [DecidableEq S] in
theorem nodup_foldl {step : List (K × List (S × V)) → K → List (K × List (S × V))}
    (hstep : ∀ d k, (keys d).Nodup → (keys (step d k)).Nodup) (ks : List K)
    {d : List (K × List (S × V))} (h : (keys d).Nodup) : (keys (ks.foldl step d)).Nodup := by
  induction ks generalizing d with
  | nil => exact h
  | cons k ks ih => exact ih (hstep d k h)

theorem Keyed.prune (h : t.Keyed) (s : S) : (t.prune s).Keyed := by
  rw [Postings.prune]
  split
  · exact h
  · refine nodup_foldl (fun d k hd => ?_) _ h
    rw [strike]
    split
    · exact hd
    · split
      · exact nodup_keys_remove hd
      · exact nodup_keys_assign hd

theorem Keyed.move (h : t.Keyed) (s s' : S) : (t.move s s').Keyed := by
  rw [Postings.move]
  split
  · exact h
  · refine nodup_foldl (fun d k hd => ?_) _ h
    rw [rewrite]
    split
    · exact hd
    · exact nodup_keys_assign hd

/-- Under each key both tables have the same places, each as often. -/
def Same (t t' : Postings K S V) : Prop :=
  ∀ k, ((lookup t.forward k).isSome ↔ (lookup t'.forward k).isSome) ∧ (t.places k).Perm (t'.places k)

theorem Sound.isSome_iff (h : t.Sound) (k : K) : (lookup t.forward k).isSome ↔ t.places k ≠ [] := by
  rw [places]
  cases hl : lookup t.forward k with
  | none => simp
  | some locs => simpa using h.nonempty k locs hl

theorem same_of_positions [DecidableEq V] (h : t.Sound) (h' : t'.Sound)
    (hpos : ∀ k s, t.positions k s = t'.positions k s) : t.Same t' := by
  intro k
  have hcount : ∀ (u : Postings K S V) (l : S × V), (u.places k).count l = (u.positions k l.1).count l.2 := by
    intro u l
    rw [positions,List.count_eq_countP,List.count_eq_countP,List.countP_map,List.countP_filter]
    refine List.countP_congr fun m _ => ?_
    simp [Prod.ext_iff,and_comm]
  have hperm : (t.places k).Perm (t'.places k) := by
    refine List.perm_iff_count.mpr fun l => ?_
    rw [hcount,hcount,hpos]
  refine ⟨?_,hperm⟩
  rw [h.isSome_iff,h'.isSome_iff]
  exact not_congr ⟨fun he => (he ▸ hperm).nil_eq.symm,fun he => (he ▸ hperm).eq_nil⟩

end Postings
end MinimaxCode
