import Mathlib.Data.List.Basic
import Mathlib.Data.List.Induction
import Mathlib.Data.List.Nodup
import Mathlib.Tactic.Common

/-!
# Insertion-ordered dictionaries

A dictionary is the list of its items in the order in which their keys came in. An
assignment to an old key keeps the place of the key.
-/

namespace MinimaxCode.OrderedDict

variable {K V : Type*} [DecidableEq K]

def keys (d : List (K × V)) : List K := d.map Prod.fst

/-- `d[k] = v`. -/
def assign (d : List (K × V)) (k : K) (v : V) : List (K × V) :=
  if k ∈ keys d then d.map fun kv => if kv.1 = k then (k,v) else kv else d++[(k,v)]

/-- A dictionary comprehension over items. -/
def ofItems (items : List (K × V)) : List (K × V) := items.foldl (fun d kv => assign d kv.1 kv.2) []

/-- `d.pop(k, None)`. -/
def remove (d : List (K × V)) (k : K) : List (K × V) := d.filter fun kv => kv.1 ≠ k

/-- `d.get(k)`. -/
def lookup (d : List (K × V)) (k : K) : Option V := (d.find? fun kv => kv.1 = k).map Prod.snd

variable {d : List (K × V)} {k : K} {v : V} {p : K × V → Bool} {items : List (K × V)}

@[simp] theorem lookup_nil : lookup ([] : List (K × V)) k = none := rfl

theorem lookup_cons (kv : K × V) :
    lookup (kv::d) k = if kv.1 = k then some kv.2 else lookup d k := by
  by_cases h : kv.1 = k <;> simp [lookup,h]

theorem lookup_eq_none (h : k ∉ keys d) : lookup d k = none := by
  rw [lookup,List.find?_eq_none.mpr,Option.map_none]
  intro kv hkv heq
  have hmem : kv.1 ∈ keys d := List.mem_map_of_mem hkv
  exact h ((of_decide_eq_true heq) ▸ hmem)

theorem mem_of_lookup (h : lookup d k = some v) : (k,v) ∈ d := by
  obtain ⟨kv,hfind,rfl⟩ := Option.map_eq_some_iff.mp h
  have hkey : kv.1 = k := by simpa using List.find?_some hfind
  rw [← hkey]
  exact List.mem_of_find?_eq_some hfind

theorem lookup_of_mem (hd : (keys d).Nodup) (h : (k,v) ∈ d) : lookup d k = some v := by
  induction d with
  | nil => cases h
  | cons kv d ih =>
    rw [keys,List.map_cons,List.nodup_cons] at hd
    rw [lookup_cons]
    rcases List.mem_cons.mp h with rfl | h
    · exact if_pos rfl
    · have hne : kv.1 ≠ k := by
        rintro rfl
        exact hd.1 (List.mem_map.mpr ⟨_,h,rfl⟩)
      rw [if_neg hne]
      exact ih hd.2 h

theorem lookup_assign (d : List (K × V)) (k k' : K) (v : V) :
    lookup (assign d k v) k' = if k = k' then some v else lookup d k' := by
  rw [assign]
  split
  · next hmem =>
    induction d with
    | nil => cases hmem
    | cons kv d ih =>
      rw [List.map_cons,lookup_cons,lookup_cons]
      by_cases hkv : kv.1 = k
      · rw [if_pos hkv]
        by_cases hk : k = k'
        · simp [hk]
        · have hrest : lookup (d.map fun kv => if kv.1 = k then (k,v) else kv) k' =
              lookup d k' := by
            by_cases hd : k ∈ keys d
            · rw [ih hd,if_neg hk]
            · have hsame : (d.map fun kv => if kv.1 = k then (k,v) else kv) = d := by
                refine (List.map_congr_left fun kv' hkv' => ?_).trans (List.map_id d)
                have hne : kv'.1 ≠ k := fun he => hd (he ▸ List.mem_map_of_mem hkv')
                exact if_neg hne
              rw [hsame]
          simp [hk,hkv,hrest]
      · have hd : k ∈ keys d := by
          cases List.mem_cons.mp hmem with
          | inl he => exact absurd he.symm hkv
          | inr hd => exact hd
        rw [if_neg hkv,ih hd]
        by_cases hk : k = k'
        · subst hk
          simp [hkv]
        · simp [hk]
  · next hmem =>
    have hlookup := lookup_eq_none hmem
    induction d with
    | nil => simp [lookup_cons]
    | cons kv d ih =>
      have hne : kv.1 ≠ k := by
        intro he
        exact hmem (List.mem_cons.mpr (.inl he.symm))
      have hd : k ∉ keys d := fun hd => hmem (List.mem_cons_of_mem _ hd)
      rw [List.cons_append,lookup_cons,lookup_cons,ih hd (lookup_eq_none hd)]
      by_cases hk : k = k'
      · subst hk
        simp [hne]
      · simp [hk]

theorem lookup_filter (h : ∀ kv ∈ d, kv.1 = k → p kv) :
    lookup (d.filter p) k = lookup d k := by
  induction d with
  | nil => rfl
  | cons kv d ih =>
    have hd := ih fun kv' hkv' => h kv' (List.mem_cons_of_mem kv hkv')
    by_cases hp : p kv
    · rw [List.filter_cons_of_pos hp,lookup_cons,lookup_cons,hd]
    · have hne : kv.1 ≠ k := fun he => hp (h kv List.mem_cons_self he)
      rw [List.filter_cons_of_neg hp,lookup_cons,if_neg hne,hd]

theorem lookup_remove (d : List (K × V)) (k k' : K) :
    lookup (remove d k) k' = if k = k' then none else lookup d k' := by
  by_cases hk : k = k'
  · subst hk
    rw [if_pos rfl]
    refine lookup_eq_none fun hmem => ?_
    obtain ⟨kv,hkv,heq⟩ := List.mem_map.mp hmem
    exact of_decide_eq_true (List.mem_filter.mp hkv).2 heq
  · rw [if_neg hk]
    refine lookup_filter fun kv _ heq => ?_
    rw [heq]
    exact decide_eq_true (Ne.symm hk)

theorem nodup_keys_remove (h : (keys d).Nodup) : (keys (remove d k)).Nodup :=
  h.sublist (List.filter_sublist.map Prod.fst)

theorem filter_assign_of_pos (hnew : p (k,v))
    (hold : ∀ kv ∈ d, kv.1 = k → p kv) :
    (assign d k v).filter p = assign (d.filter p) k v := by
  have hkeys : k ∈ keys (d.filter p) ↔ k ∈ keys d := by
    simp only [keys,List.mem_map,List.mem_filter]
    constructor
    · rintro ⟨kv,⟨hkv,-⟩,rfl⟩
      exact ⟨kv,hkv,rfl⟩
    · rintro ⟨kv,hkv,rfl⟩
      exact ⟨kv,⟨hkv,hold kv hkv rfl⟩,rfl⟩
  by_cases hmem : k ∈ keys d
  · rw [assign,assign,if_pos hmem,if_pos (hkeys.mpr hmem)]
    clear hmem hkeys
    induction d with
    | nil => rfl
    | cons kv d ih =>
      have hd := ih fun kv' hkv' => hold kv' (List.mem_cons_of_mem kv hkv')
      by_cases heq : kv.1 = k
      · have hp := hold kv List.mem_cons_self heq
        simp [heq,hp,hnew,hd]
      · by_cases hp : p kv
        · simp [heq,hp,hd]
        · simp [heq,hp,hd]
  · rw [assign,assign,if_neg hmem,if_neg (mt hkeys.mp hmem)]
    simp [hnew]

theorem filter_assign_of_neg (hnew : p (k,v) = false)
    (hold : ∀ kv ∈ d, kv.1 = k → p kv = false) : (assign d k v).filter p = d.filter p := by
  by_cases hmem : k ∈ keys d
  · rw [assign,if_pos hmem]
    clear hmem
    induction d with
    | nil => rfl
    | cons kv d ih =>
      have hd := ih fun kv' hkv' => hold kv' (List.mem_cons_of_mem kv hkv')
      by_cases heq : kv.1 = k
      · have hp := hold kv List.mem_cons_self heq
        simp [heq,hp,hnew,hd]
      · simp [heq,List.filter_cons,hd]
  · rw [assign,if_neg hmem]
    simp [hnew]

theorem mem_assign {kv : K × V} (h : kv ∈ assign d k v) : kv = (k,v) ∨ kv ∈ d := by
  rw [assign] at h
  split at h
  · obtain ⟨kv',hkv',rfl⟩ := List.mem_map.mp h
    split
    · exact .inl rfl
    · exact .inr hkv'
  · cases List.mem_append.mp h with
    | inl hd => exact .inr hd
    | inr hs => exact .inl (List.mem_singleton.mp hs)

theorem mem_keys_assign {k' : K} (h : k' ∈ keys (assign d k v)) : k' = k ∨ k' ∈ keys d := by
  obtain ⟨kv,hkv,rfl⟩ := List.mem_map.mp h
  cases mem_assign hkv with
  | inl heq => exact .inl (congrArg Prod.fst heq)
  | inr hd => exact .inr (List.mem_map_of_mem hd)

theorem mem_keys_remove {k' : K} (h : k' ∈ keys (remove d k)) : k' ≠ k ∧ k' ∈ keys d := by
  obtain ⟨kv,hkv,rfl⟩ := List.mem_map.mp h
  have hmem := List.mem_filter.mp hkv
  exact ⟨of_decide_eq_true hmem.2,List.mem_map_of_mem hmem.1⟩

theorem assign_of_new (h : k ∉ keys d) (v : V) : assign d k v = d++[(k,v)] := if_neg h

theorem ofItems_of_nodup (h : (keys items).Nodup) : ofItems items = items := by
  have hgen : ∀ done rest : List (K × V), (keys (done++rest)).Nodup →
      rest.foldl (fun d kv => assign d kv.1 kv.2) done = done++rest := by
    intro done rest
    induction rest generalizing done with
    | nil => simp
    | cons kv rest ih =>
      intro hn
      have hnew : kv.1 ∉ keys done := by
        intro hm
        rw [keys,List.map_append,List.map_cons,List.nodup_append] at hn
        exact hn.2.2 kv.1 hm kv.1 List.mem_cons_self rfl
      rw [List.foldl_cons,assign_of_new hnew,ih _ (by simpa using hn)]
      simp
  exact hgen [] items (by simpa using h)

theorem ofItems_append (items : List (K × V)) (kv : K × V) :
    ofItems (items++[kv]) = assign (ofItems items) kv.1 kv.2 := by
  rw [ofItems,List.foldl_append]
  rfl

theorem mem_of_mem_ofItems {kv : K × V} (h : kv ∈ ofItems items) :
    kv ∈ items := by
  induction items using List.reverseRecOn with
  | nil => cases h
  | append_singleton items last ih =>
    rw [ofItems_append] at h
    cases mem_assign h with
    | inl hlast => simp [hlast]
    | inr hold => exact List.mem_append_left _ (ih hold)

theorem lookup_ofItems (items : List (K × V)) (k : K) :
    lookup (ofItems items) k = ((items.filter fun kv => kv.1 = k).getLast?).map Prod.snd := by
  induction items using List.reverseRecOn with
  | nil => rfl
  | append_singleton items last ih =>
    rw [ofItems_append,lookup_assign,List.filter_append]
    by_cases h : last.1 = k
    · simp [h]
    · simp [h,ih]

theorem keys_assign_of_mem (h : k ∈ keys d) (v : V) : keys (assign d k v) = keys d := by
  rw [assign,if_pos h,keys,List.map_map]
  refine List.map_congr_left fun kv _ => ?_
  by_cases hk : kv.1 = k <;> simp [hk]

theorem keys_assign_of_new (h : k ∉ keys d) (v : V) : keys (assign d k v) = keys d++[k] := by
  rw [assign_of_new h]
  simp [keys]

theorem nodup_keys_assign (h : (keys d).Nodup) : (keys (assign d k v)).Nodup := by
  by_cases hmem : k ∈ keys d
  · rwa [keys_assign_of_mem hmem]
  · rw [keys_assign_of_new hmem,List.nodup_append_comm]
    exact List.nodup_cons.mpr ⟨hmem,h⟩

theorem nodup_keys_ofItems (items : List (K × V)) : (keys (ofItems items)).Nodup := by
  induction items using List.reverseRecOn with
  | nil => exact List.nodup_nil
  | append_singleton items last ih =>
    rw [ofItems_append]
    exact nodup_keys_assign ih

theorem lookup_ofItems_append (items items' : List (K × V)) (k : K) :
    lookup (ofItems (items++items')) k = (lookup (ofItems items') k).or (lookup (ofItems items) k) := by
  rw [lookup_ofItems,lookup_ofItems,lookup_ofItems,List.filter_append,List.getLast?_append]
  cases (items'.filter fun kv => kv.1 = k).getLast? <;> rfl

theorem lookup_ofItems_map {I : Type*} [BEq I] [LawfulBEq I] {key : I → K} (value : I → V) {is : List I} {i : I}
    (hkey : ∀ j ∈ is, key j = key i → j = i) :
    lookup (ofItems (is.map fun j => (key j,value j))) (key i) = if i ∈ is then some (value i) else none := by
  have hfilter : (is.map fun j => (key j,value j)).filter (fun kv => kv.1 = key i) =
      (is.filter (· == i)).map fun _ => (key i,value i) := by
    rw [List.filter_map]
    have hsame : is.filter ((fun kv : K × V => decide (kv.1 = key i)) ∘ fun j => (key j,value j)) =
        is.filter (· == i) := by
      refine List.filter_congr fun j hj => ?_
      rw [Bool.eq_iff_iff,Function.comp,decide_eq_true_iff,beq_iff_eq]
      exact ⟨hkey j hj,fun h => congrArg key h⟩
    rw [hsame]
    refine List.map_congr_left fun j hj => ?_
    rw [eq_of_beq (List.mem_filter.mp hj).2]
  rw [lookup_ofItems,hfilter,List.filter_beq,List.map_replicate,List.getLast?_replicate]
  by_cases hi : i ∈ is
  · simp [hi,Nat.ne_of_gt (List.count_pos_iff.mpr hi)]
  · simp [hi,List.count_eq_zero_of_not_mem hi]

theorem isSome_lookup_iff : (lookup d k).isSome ↔ k ∈ keys d := by
  constructor
  · intro h
    obtain ⟨v,hv⟩ := Option.isSome_iff_exists.mp h
    exact List.mem_map_of_mem (mem_of_lookup hv)
  · contrapose!
    intro h hmem
    induction d with
    | nil => cases hmem
    | cons kv d ih =>
      rw [lookup_cons] at h
      split at h
      · exact h rfl
      · next hne =>
        cases List.mem_cons.mp hmem with
        | inl he => exact hne he.symm
        | inr hd => exact ih h hd

theorem mem_keys_assign_iff {k' : K} : k' ∈ keys (assign d k v) ↔ k' = k ∨ k' ∈ keys d := by
  rw [← isSome_lookup_iff,lookup_assign,← isSome_lookup_iff]
  by_cases h : k = k'
  · simp [h]
  · simp [h,Ne.symm h]

theorem mem_keys_ofItems : k ∈ keys (ofItems items) ↔ k ∈ keys items := by
  induction items using List.reverseRecOn with
  | nil => exact Iff.rfl
  | append_singleton items last ih =>
    rw [ofItems_append,mem_keys_assign_iff,ih,keys,keys,List.map_append,List.mem_append]
    exact or_comm.trans (or_congr_right List.mem_singleton.symm)

theorem mem_keys_remove_iff {k' : K} : k' ∈ keys (remove d k) ↔ k' ≠ k ∧ k' ∈ keys d := by
  rw [← isSome_lookup_iff,lookup_remove,← isSome_lookup_iff]
  by_cases h : k = k'
  · simp [h]
  · simp [h,Ne.symm h]

theorem keys_remove (d : List (K × V)) (k : K) : keys (remove d k) = (keys d).filter (· ≠ k) := by
  rw [keys,keys,remove,List.filter_map]
  rfl

theorem remove_of_not_mem (h : k ∉ keys d) : remove d k = d := by
  refine List.filter_eq_self.mpr fun kv hkv => decide_eq_true ?_
  rintro rfl
  exact h (List.mem_map_of_mem hkv)

theorem countP_remove {q : K × V → Bool} (hd : (keys d).Nodup) (hl : lookup d k = some v) :
    (remove d k).countP q+(if q (k,v) then 1 else 0) = d.countP q := by
  induction d with
  | nil => cases hl
  | cons kv d ih =>
    rw [keys,List.map_cons,List.nodup_cons] at hd
    rw [lookup_cons] at hl
    by_cases hk : kv.1 = k
    · rw [if_pos hk] at hl
      have hnone : remove d k = d := remove_of_not_mem (hk ▸ hd.1)
      have hkv : kv = (k,v) := Prod.ext hk (Option.some.inj hl)
      have hrem : remove (kv::d) k = remove d k := List.filter_cons_of_neg (by simp [hk])
      rw [hrem,hnone,List.countP_cons,hkv]
    · rw [if_neg hk] at hl
      have hrem : remove (kv::d) k = kv::remove d k := List.filter_cons_of_pos (by simp [hk])
      rw [hrem,List.countP_cons,List.countP_cons,← ih hd.2 hl]
      omega

theorem remove_assign (d : List (K × V)) (k : K) (v : V) : remove (assign d k v) k = remove d k :=
  filter_assign_of_neg (by simp) fun kv _ hk => by simp [hk]

theorem countP_assign {q : K × V → Bool} (v' : V) (hd : (keys d).Nodup) (hl : lookup d k = some v) :
    (assign d k v').countP q+(if q (k,v) then 1 else 0) = d.countP q+(if q (k,v') then 1 else 0) := by
  have hnew : lookup (assign d k v') k = some v' := by rw [lookup_assign,if_pos rfl]
  have hassigned := countP_remove (q:=q) (nodup_keys_assign (v:=v') hd) hnew
  rw [remove_assign] at hassigned
  rw [← hassigned,← countP_remove hd hl]
  omega

/-- The elements that the values give, each behind its key. -/
def labelled {A : Type*} (f : V → List A) (d : List (K × V)) : List (K × A) :=
  d.flatMap fun kv => (f kv.2).map (Prod.mk kv.1)

theorem filter_labelled {A : Type*} (f : V → List A) (h : (keys d).Nodup) (k : K) :
    (labelled f d).filter (fun ka => ka.1 = k) = ((lookup d k).elim [] f).map (Prod.mk k) := by
  induction d with
  | nil => rfl
  | cons kv d ih =>
    rw [keys,List.map_cons,List.nodup_cons] at h
    have hrest := ih h.2
    rw [labelled,List.flatMap_cons,List.filter_append,lookup_cons,← labelled,hrest]
    by_cases hk : kv.1 = k
    · have hnone : lookup d k = none := lookup_eq_none (hk ▸ h.1)
      simp [hk,hnone,List.filter_map,Function.comp_def]
    · simp [hk,List.filter_map,Function.comp_def]

theorem labelled_perm_iff {A : Type*} [DecidableEq A] {f g : V → List A} {d d' : List (K × V)}
    (h : (keys d).Nodup) (h' : (keys d').Nodup) : (labelled f d).Perm (labelled g d') ↔
      ∀ k, ((lookup d k).elim [] f).Perm ((lookup d' k).elim [] g) := by
  have hback : ∀ (k : K) (l : List A), (l.map (Prod.mk k)).map Prod.snd = l := by
    intro k l
    rw [List.map_map]
    exact List.map_id l
  constructor
  · intro hperm k
    have hfilter := (hperm.filter fun ka => ka.1 = k).map Prod.snd
    rwa [filter_labelled f h,filter_labelled g h',hback,hback] at hfilter
  · intro hperm
    rw [List.perm_iff_count]
    rintro ⟨k,a⟩
    have hcount := ((hperm k).map (Prod.mk k)).count_eq (k,a)
    rwa [← filter_labelled f h,← filter_labelled g h',List.count_filter (by simp),
      List.count_filter (by simp)] at hcount

theorem perm_cons_remove (hd : (keys d).Nodup) (h : lookup d k = some v) : ((k,v)::remove d k).Perm d := by
  have hremoved : (k,v) ∉ remove d k := fun hmem =>
    (mem_keys_remove (List.mem_map_of_mem hmem)).1 rfl
  have hitems : d.Nodup := List.Nodup.of_map Prod.fst hd
  refine (List.perm_ext_iff_of_nodup (List.nodup_cons.mpr ⟨hremoved,hitems.filter _⟩) hitems).mpr fun kv => ?_
  rw [List.mem_cons,remove,List.mem_filter,decide_eq_true_iff]
  constructor
  · rintro (rfl | ⟨hmem,-⟩)
    · exact mem_of_lookup h
    · exact hmem
  · intro hmem
    by_cases hk : kv.1 = k
    · have hl := lookup_of_mem hd (show (kv.1,kv.2) ∈ d from hmem)
      rw [hk,h] at hl
      exact .inl (Prod.ext hk (Option.some.inj hl).symm)
    · exact .inr ⟨hmem,hk⟩

end MinimaxCode.OrderedDict
