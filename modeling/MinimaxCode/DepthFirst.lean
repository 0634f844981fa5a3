import Mathlib.Data.List.Nodup
import Mathlib.Logic.Relation
import Mathlib.Tactic.Common

/-!
# Depth-first search for back edges

A depth-first search collects the edges whose targets are on its stack. Listed by the time
at which the search leaves them, the nodes have every other edge running from later to
earlier and every collected one the other way, so turning the collected edges round leaves
no cycle.
-/

namespace MinimaxCode.DepthFirst

variable {α β : Type*} [DecidableEq α]

structure Search (α β : Type*) where
  stack : List α
  visited : List α
  back : List β

/-- The fuel bounds the depth of the recursion. -/
def visit (out : α → List β) (target : β → α) : ℕ → α → Search α β → Search α β
  | 0, _, s => s
  | fuel+1, a, s =>
    if a ∈ s.visited then s
    else
      let s := (out a).foldl
        (fun s e => if target e ∈ s.stack then {s with back := s.back++[e]}
          else visit out target fuel (target e) s)
        {s with visited := s.visited++[a], stack := s.stack++[a]}
      {s with stack := s.stack.filter (· ≠ a)}

/-- The search from every node in turn. -/
def search (out : α → List β) (target : β → α) (nodes : List α) : List β :=
  (nodes.foldl (fun s a => visit out target (nodes.length+1) a s) ⟨[],[],[]⟩).back

variable {out : α → List β} {source target : β → α} {s t u : Search α β} {a : α} {e : β}
variable {fin fin' : List α} {new new' direct direct' : List β} {nodes : List α}

/-- A part of a search leaves the nodes of `fin` in this order and collects the edges of
`new`; those of `direct` belong to a node that it does not leave. -/
structure Explores (out : α → List β) (source target : β → α) (direct : List β)
    (s t : Search α β) (fin : List α) (new : List β) : Prop where
  stack : t.stack = s.stack
  visited : ∀ x, x ∈ t.visited ↔ x ∈ s.visited ∨ x ∈ fin
  back : t.back = s.back++new
  fresh : ∀ x ∈ fin, x ∉ s.visited
  nodup : fin.Nodup
  once : new.Nodup
  sources : ∀ e ∈ new, source e ∈ fin ∧ e ∈ out (source e) ∨ e ∈ direct ∧ target e ∈ s.stack
  ends : ∀ pre x post, fin = pre++x::post → ∀ e ∈ out x,
    (e ∈ new → target e ∈ s.stack ∨ target e ∈ x::post) ∧
    (e ∉ new → target e ∈ pre ∨ target e ∈ s.visited ∧ target e ∉ s.stack)

namespace Explores

omit [DecidableEq α]

theorem refl (s : Search α β) : Explores out source target direct s s [] [] where
  stack := rfl
  visited := by simp
  back := by simp
  fresh := by simp
  nodup := List.nodup_nil
  once := List.nodup_nil
  sources := by simp
  ends := by simp

/-- One part of a search after another. The edges of the second part must not be among
those that the first has collected for the node in progress. -/
theorem trans (hs : ∀ x, ∀ e ∈ out x, source e = x)
    (hst : Explores out source target direct s t fin new)
    (htu : Explores out source target direct' t u fin' new')
    (hdirect : ∀ e ∈ direct ++ direct', source e ∈ s.visited)
    (hdisj : ∀ e ∈ direct, e ∉ direct') :
    Explores out source target (direct++direct') s u (fin++fin') (new++new') := by
  have hfresh : ∀ x ∈ fin', x ∉ s.visited ∧ x ∉ fin := by
    intro x hx
    have hnot := htu.fresh x hx
    rw [hst.visited] at hnot
    exact not_or.mp hnot
  have hdis : ∀ x ∈ fin, x ∉ fin' := fun x hx hx' => (hfresh x hx').2 hx
  -- an edge is collected by the part that leaves its source
  have hnew : ∀ e ∈ new, source e ∉ fin' := by
    intro e he hmem
    rcases hst.sources e he with ⟨hsrc,-⟩ | ⟨hd,-⟩
    · exact hdis _ hsrc hmem
    · exact (hfresh _ hmem).1 (hdirect e (List.mem_append_left _ hd))
  have hnew' : ∀ e ∈ new', source e ∉ fin := by
    intro e he hmem
    rcases htu.sources e he with ⟨hsrc,-⟩ | ⟨hd,-⟩
    · exact hdis _ hmem hsrc
    · exact hst.fresh _ hmem (hdirect e (List.mem_append_right _ hd))
  constructor
  · rw [htu.stack,hst.stack]
  · intro x
    rw [htu.visited,hst.visited,List.mem_append,or_assoc]
  · rw [htu.back,hst.back,List.append_assoc]
  · intro x hx
    rcases List.mem_append.mp hx with hx | hx
    · exact hst.fresh x hx
    · exact (hfresh x hx).1
  · rw [List.nodup_append]
    refine ⟨hst.nodup,htu.nodup,fun x hx y hy he => ?_⟩
    exact hdis x hx (he ▸ hy)
  · rw [List.nodup_append]
    refine ⟨hst.once,htu.once,fun e he e' he' heq => ?_⟩
    subst heq
    rcases hst.sources e he with ⟨hsrc,-⟩ | ⟨hd,-⟩
    · exact hnew' e he' hsrc
    · rcases htu.sources e he' with ⟨hsrc,-⟩ | ⟨hd',-⟩
      · exact hnew e he hsrc
      · exact hdisj e hd hd'
  · intro e he
    rcases List.mem_append.mp he with he | he
    · refine (hst.sources e he).imp (fun h => ⟨List.mem_append_left _ h.1,h.2⟩) fun h => ?_
      exact ⟨List.mem_append_left _ h.1,h.2⟩
    · refine (htu.sources e he).imp (fun h => ⟨List.mem_append_right _ h.1,h.2⟩) fun h => ?_
      exact ⟨List.mem_append_right _ h.1,hst.stack ▸ h.2⟩
  · intro pre x post heq e he
    have hsrc := hs x e he
    rcases List.append_eq_append_iff.mp heq with ⟨mid,hpre,hfin'⟩ | ⟨mid,hfin,hpost⟩
    · -- the node is left by the second part
      have hx : x ∈ fin' := by rw [hfin']; simp
      obtain ⟨hback,hother⟩ := htu.ends mid x post hfin' e he
      rw [List.mem_append]
      constructor
      · rintro (hmem | hmem)
        · exact absurd (hsrc ▸ hx) (hnew e hmem)
        · exact hst.stack ▸ hback hmem
      · intro hmem
        rcases hother (fun h => hmem (.inr h)) with htgt | ⟨hvis,hstack⟩
        · exact .inl (hpre ▸ List.mem_append_right _ htgt)
        · rw [hst.visited] at hvis
          rw [hst.stack] at hstack
          rcases hvis with hvis | hvis
          · exact .inr ⟨hvis,hstack⟩
          · exact .inl (hpre ▸ List.mem_append_left _ hvis)
    · cases mid with
      | nil =>
        -- the second part leaves the node first of all
        rw [List.nil_append] at hpost
        have hfin' : fin' = []++x::post := hpost.symm
        obtain ⟨hback,hother⟩ := htu.ends [] x post hfin' e he
        have hx : x ∈ fin' := by rw [hfin']; simp
        rw [List.mem_append]
        constructor
        · rintro (hmem | hmem)
          · exact absurd (hsrc ▸ hx) (hnew e hmem)
          · exact hst.stack ▸ hback hmem
        · intro hmem
          rcases hother (fun h => hmem (.inr h)) with htgt | ⟨hvis,hstack⟩
          · cases htgt
          · rw [hst.visited] at hvis
            rw [hst.stack] at hstack
            rcases hvis with hvis | hvis
            · exact .inr ⟨hvis,hstack⟩
            · rw [List.append_nil] at hfin
              exact .inl (hfin ▸ hvis)
      | cons y mid =>
        rw [List.cons_append] at hpost
        obtain ⟨rfl,hpost⟩ := List.cons.inj hpost
        have hx : x ∈ fin := by rw [hfin]; simp
        obtain ⟨hback,hother⟩ := hst.ends pre x mid hfin e he
        rw [List.mem_append]
        constructor
        · rintro (hmem | hmem)
          · refine (hback hmem).imp_right fun h => ?_
            rw [hpost,← List.cons_append]
            exact List.mem_append_left _ h
          · exact absurd (hsrc ▸ hx) (hnew' e hmem)
        · intro hmem
          exact hother fun h => hmem (.inl h)

theorem mono (h : Explores out source target direct s t fin new)
    (hle : ∀ e ∈ direct, e ∈ direct') : Explores out source target direct' s t fin new :=
  { h with sources := fun e he => (h.sources e he).imp_right fun hd => ⟨hle e hd.1,hd.2⟩ }

theorem visited_mono (h : Explores out source target direct s t fin new) {x : α}
    (hx : x ∈ s.visited) : x ∈ t.visited := (h.visited x).mpr (.inl hx)

end Explores

/-- The nodes that a search has yet to see. -/
def unseen (nodes : List α) (s : Search α β) : ℕ := (nodes.filter (· ∉ s.visited)).length

theorem unseen_le (h : ∀ x ∈ s.visited, x ∈ t.visited) :
    unseen nodes t ≤ unseen nodes s := by
  refine (List.monotone_filter_right nodes fun x hx => ?_).length_le
  rw [decide_eq_true_iff] at hx ⊢
  exact fun hs => hx (h x hs)

theorem unseen_lt (ha : a ∈ nodes) (hs : a ∉ s.visited) (ht : a ∈ t.visited)
    (h : ∀ x ∈ s.visited, x ∈ t.visited) : unseen nodes t < unseen nodes s := by
  induction nodes with
  | nil => cases ha
  | cons x nodes ih =>
    have hrest : unseen nodes t ≤ unseen nodes s := unseen_le h
    rw [unseen,unseen] at hrest ⊢
    by_cases hx : x = a
    · subst hx
      rw [List.filter_cons_of_neg (by simpa using ht),List.filter_cons_of_pos (by simpa using hs)]
      exact Nat.lt_succ_of_le hrest
    · have hlt := ih ((List.mem_cons.mp ha).resolve_left (Ne.symm hx))
      rw [unseen,unseen] at hlt
      by_cases hxs : x ∈ s.visited
      · rw [List.filter_cons_of_neg (by simpa using h x hxs),
          List.filter_cons_of_neg (by simpa using hxs)]
        exact hlt
      · by_cases hxt : x ∈ t.visited
        · rw [List.filter_cons_of_neg (by simpa using hxt),
            List.filter_cons_of_pos (by simpa using hxs)]
          exact Nat.lt_succ_of_lt hlt
        · rw [List.filter_cons_of_pos (by simpa using hxt),
            List.filter_cons_of_pos (by simpa using hxs)]
          exact Nat.succ_lt_succ hlt

/-- What the nodes and edges of a search have to be. -/
structure Closed (out : α → List β) (source target : β → α) (nodes : List α) : Prop where
  source : ∀ x, ∀ e ∈ out x, source e = x
  target : ∀ x ∈ nodes, ∀ e ∈ out x, target e ∈ nodes
  nodup : ∀ x, (out x).Nodup

theorem follow_explores {fuel : ℕ} (hc : Closed out source target nodes)
    (ha : a ∈ nodes)
    (ih : ∀ (b : α) (s : Search α β), b ∈ nodes → (∀ x ∈ s.stack, x ∈ s.visited) →
      unseen nodes s < fuel → ∃ fin new, Explores out source target [] s
        (visit out target fuel b s) fin new ∧ b ∈ (visit out target fuel b s).visited ∧
          ∀ x ∈ fin, x ∈ nodes)
    (es : List β) (hes : ∀ e ∈ es, e ∈ out a) (hnodup : es.Nodup) (s : Search α β)
    (has : a ∈ s.visited) (hstack : ∀ x ∈ s.stack, x ∈ s.visited) (hfuel : unseen nodes s < fuel) :
    ∃ t fin new, es.foldl (fun s e => if target e ∈ s.stack then {s with back := s.back++[e]}
        else visit out target fuel (target e) s) s = t ∧
      Explores out source target es s t fin new ∧
      (∀ e ∈ es, e ∈ new ∨ target e ∈ t.visited ∧ target e ∉ s.stack) ∧ ∀ x ∈ fin, x ∈ nodes := by
  induction es generalizing s with
  | nil => exact ⟨s,[],[],rfl,.refl s,by simp,by simp⟩
  | cons e es ihes =>
    have hsrc : ∀ e' ∈ e::es, source e' = a := fun e' he' => hc.source a e' (hes e' he')
    have hrest : ∀ e' ∈ es, e' ∈ out a := fun e' he' => hes e' (List.mem_cons_of_mem e he')
    obtain ⟨hnot,hnodup⟩ := List.nodup_cons.mp hnodup
    have hvisited : ∀ e' ∈ [e]++es, source e' ∈ s.visited := by
      intro e' he'
      rw [hsrc e' he']
      exact has
    have hdisj : ∀ e' ∈ [e], e' ∉ es := by
      intro e' he'
      rwa [List.mem_singleton.mp he']
    rw [List.foldl_cons]
    by_cases htgt : target e ∈ s.stack
    · rw [if_pos htgt]
      have hstep : Explores out source target [e] s {s with back := s.back++[e]} [] [e] :=
        ⟨rfl,by simp,rfl,by simp,List.nodup_nil,List.nodup_singleton e,
          fun e' he' => .inr ⟨he',List.mem_singleton.mp he' ▸ htgt⟩,by simp⟩
      obtain ⟨t,fin,new,ht,hex,hall,hfin⟩ :=
        ihes hrest hnodup {s with back := s.back++[e]} has hstack hfuel
      refine ⟨t,fin,e::new,ht,hstep.trans hc.source hex hvisited hdisj,fun e' he' => ?_,hfin⟩
      rcases List.mem_cons.mp he' with rfl | he'
      · exact .inl List.mem_cons_self
      · exact (hall e' he').imp_left (List.mem_cons_of_mem e)
    · rw [if_neg htgt]
      obtain ⟨fin₁,new₁,hex₁,hseen,hfin₁⟩ :=
        ih (target e) s (hc.target a ha e (hes e List.mem_cons_self)) hstack hfuel
      generalize visit out target fuel (target e) s = s₁ at hex₁ hseen
      obtain ⟨t,fin,new,ht,hex,hall,hfin⟩ := ihes hrest hnodup s₁ (hex₁.visited_mono has)
        (fun x hx => hex₁.visited_mono (hstack x (hex₁.stack ▸ hx)))
        (Nat.lt_of_le_of_lt (unseen_le fun x => hex₁.visited_mono) hfuel)
      have hex₁' : Explores out source target [e] s s₁ fin₁ new₁ := hex₁.mono (by simp)
      refine ⟨t,fin₁++fin,new₁++new,ht,hex₁'.trans hc.source hex hvisited hdisj,
        fun e' he' => ?_,fun x hx => ?_⟩
      · rcases List.mem_cons.mp he' with rfl | he'
        · exact .inr ⟨hex.visited_mono hseen,htgt⟩
        · rw [List.mem_append]
          exact (hall e' he').imp .inr fun h => ⟨h.1,hex₁.stack ▸ h.2⟩
      · exact (List.mem_append.mp hx).elim (hfin₁ x) (hfin x)

omit [DecidableEq α] in
theorem split_concat {x : α} {pre post : List α} (h : fin++[a] = pre++x::post) :
    (pre = fin ∧ x = a ∧ post = []) ∨ ∃ mid, post = mid++[a] ∧ fin = pre++x::mid := by
  rcases List.eq_nil_or_concat post with rfl | ⟨mid,b,rfl⟩
  · obtain ⟨hfin,ha⟩ := List.append_inj' h rfl
    exact .inl ⟨hfin.symm,(List.cons.inj ha).1.symm,rfl⟩
  · rw [List.concat_eq_append,← List.cons_append,← List.append_assoc] at h
    obtain ⟨hfin,ha⟩ := List.append_inj' h rfl
    exact .inr ⟨mid,by rw [List.concat_eq_append,(List.cons.inj ha).1],hfin⟩

theorem visit_explores (hc : Closed out source target nodes) (fuel : ℕ) (a : α)
    (s : Search α β) (ha : a ∈ nodes) (hstack : ∀ x ∈ s.stack, x ∈ s.visited)
    (hfuel : unseen nodes s < fuel) :
    ∃ fin new, Explores out source target [] s (visit out target fuel a s) fin new ∧
      a ∈ (visit out target fuel a s).visited ∧ ∀ x ∈ fin, x ∈ nodes := by
  induction fuel generalizing a s with
  | zero => exact absurd hfuel (Nat.not_lt_zero _)
  | succ fuel ih =>
    rw [visit]
    by_cases hmem : a ∈ s.visited
    · rw [if_pos hmem]
      exact ⟨[],[],.refl s,hmem,by simp⟩
    · rw [if_neg hmem]
      have hnot : a ∉ s.stack := fun h => hmem (hstack a h)
      obtain ⟨t,fin,new,ht,hex,hall,hfin⟩ := follow_explores hc ha ih (out a) (fun _ => id)
        (hc.nodup a) {s with visited := s.visited++[a], stack := s.stack++[a]} (by simp)
        (fun x hx => by
          rcases List.mem_append.mp hx with hx | hx
          · exact List.mem_append_left _ (hstack x hx)
          · exact List.mem_append_right _ hx)
        (Nat.lt_of_lt_of_le (unseen_lt ha hmem (by simp) fun x => List.mem_append_left _)
          (Nat.le_of_lt_succ hfuel))
      dsimp only
      rw [ht]
      have hvisited : ∀ x, x ∈ t.visited ↔ x ∈ s.visited ∨ x ∈ fin++[a] := by
        intro x
        rw [hex.visited,List.mem_append,List.mem_append,or_assoc]
        exact or_congr_right or_comm
      have hfresh : ∀ x ∈ fin, x ∉ s.visited ∧ x ≠ a := by
        intro x hx
        have hnew := hex.fresh x hx
        rw [List.mem_append,List.mem_singleton] at hnew
        exact not_or.mp hnew
      refine ⟨fin++[a],new,?_,(hvisited a).mpr (.inr (by simp)),fun x hx => ?_⟩
      · constructor
        · dsimp only
          rw [hex.stack,List.filter_append,List.filter_eq_self.mpr]
          · simp
          · intro x hx
            refine decide_eq_true ?_
            rintro rfl
            exact hnot hx
        · exact hvisited
        · exact hex.back
        · intro x hx
          rcases List.mem_append.mp hx with hx | hx
          · exact (hfresh x hx).1
          · rwa [List.mem_singleton.mp hx]
        · rw [List.nodup_append]
          refine ⟨hex.nodup,List.nodup_singleton a,fun x hx y hy he => ?_⟩
          rw [List.mem_singleton] at hy
          exact (hfresh x hx).2 (he.trans hy)
        · exact hex.once
        · intro e he
          rcases hex.sources e he with ⟨hsrc,hout⟩ | ⟨hd,-⟩
          · exact .inl ⟨List.mem_append_left _ hsrc,hout⟩
          · have hsrc := hc.source a e hd
            exact .inl ⟨by rw [hsrc]; simp,by rwa [hsrc]⟩
        · intro pre x post heq e he
          rcases split_concat heq with ⟨rfl,rfl,rfl⟩ | ⟨mid,rfl,hfin'⟩
          · -- the node itself is left last
            constructor
            · intro hnew
              rcases hex.sources e hnew with ⟨hsrc,-⟩ | ⟨-,htgt⟩
              · rw [hc.source x e he] at hsrc
                exact absurd rfl (hfresh x hsrc).2
              · exact List.mem_append.mp htgt
            · intro hnew
              obtain ⟨hseen,hns⟩ := (hall e he).resolve_left hnew
              rw [List.mem_append,List.mem_singleton,not_or] at hns
              rcases (hvisited _).mp hseen with hseen | hseen
              · exact .inr ⟨hseen,hns.1⟩
              · rcases List.mem_append.mp hseen with hseen | hseen
                · exact .inl hseen
                · exact absurd (List.mem_singleton.mp hseen) hns.2
          · obtain ⟨hback,hother⟩ := hex.ends pre x mid hfin' e he
            constructor
            · intro hnew
              rcases hback hnew with htgt | htgt
              · exact (List.mem_append.mp htgt).imp_right (List.mem_append_right (x::mid))
              · exact .inr (List.mem_append_left [a] htgt)
            · intro hnew
              refine (hother hnew).imp_right fun h => ?_
              rw [List.mem_append,List.mem_append,List.mem_singleton,not_or] at h
              exact ⟨h.1.resolve_right h.2.2,h.2.1⟩
      · rcases List.mem_append.mp hx with hx | hx
        · exact hfin x hx
        · rwa [List.mem_singleton.mp hx]

theorem search_spec (hc : Closed out source target nodes) :
    (search out target nodes).Nodup ∧
    (∀ e ∈ search out target nodes, source e ∈ nodes ∧ e ∈ out (source e)) ∧
    ∃ place : α → ℕ, ∀ x ∈ nodes, ∀ e ∈ out x,
      (e ∈ search out target nodes → x = target e ∨ place x < place (target e)) ∧
      (e ∉ search out target nodes → place (target e) < place x) := by
  have hloop : ∀ (todo : List α) (s : Search α β), (∀ a ∈ todo, a ∈ nodes) → s.stack = [] →
      ∃ fin new, Explores out source target [] s
        (todo.foldl (fun s a => visit out target (nodes.length+1) a s) s) fin new ∧
        (∀ a ∈ todo, a ∈ s.visited ∨ a ∈ fin) ∧ ∀ x ∈ fin, x ∈ nodes := by
    intro todo
    induction todo with
    | nil => exact fun s _ _ => ⟨[],[],.refl s,by simp,by simp⟩
    | cons a todo ih =>
      intro s htodo hstack
      obtain ⟨fin₁,new₁,hex₁,hseen,hfin₁⟩ := visit_explores hc (nodes.length+1) a s
        (htodo a List.mem_cons_self) (by simp [hstack])
        (Nat.lt_succ_of_le (List.length_filter_le _ _))
      obtain ⟨fin,new,hex,hall,hfin⟩ := ih (visit out target (nodes.length+1) a s)
        (fun b hb => htodo b (List.mem_cons_of_mem a hb)) (hex₁.stack.trans hstack)
      refine ⟨fin₁++fin,new₁++new,?_,fun b hb => ?_,fun x hx => ?_⟩
      · exact hex₁.trans hc.source hex (by simp) (by simp)
      · rw [List.mem_append,← or_assoc]
        rcases List.mem_cons.mp hb with rfl | hb
        · exact .inl ((hex₁.visited b).mp hseen)
        · exact (hall b hb).imp_left (hex₁.visited b).mp
      · exact (List.mem_append.mp hx).elim (hfin₁ x) (hfin x)
  obtain ⟨fin,new,hex,hall,hfin⟩ := hloop nodes ⟨[],[],[]⟩ (fun _ => id) rfl
  have hback : search out target nodes = new := hex.back
  have hmem : ∀ x, x ∈ fin ↔ x ∈ nodes := fun x =>
    ⟨hfin x,fun hx => (hall x hx).resolve_left List.not_mem_nil⟩
  rw [hback]
  refine ⟨hex.once,fun e he => ?_,fin.idxOf,fun x hx e he => ?_⟩
  · rcases hex.sources e he with ⟨hsrc,hout⟩ | ⟨hd,-⟩
    · exact ⟨hfin _ hsrc,hout⟩
    · cases hd
  · have hx' := (hmem x).mpr hx
    obtain ⟨pre,post,rfl⟩ := List.append_of_mem hx'
    obtain ⟨hnew,hother⟩ := hex.ends pre x post rfl e he
    have hdis := List.nodup_append.mp hex.nodup
    have hxpre : x ∉ pre := fun hin => hdis.2.2 x hin x List.mem_cons_self rfl
    have hplace : (pre++x::post).idxOf x = pre.length := by
      rw [List.idxOf_append_of_notMem hxpre,List.idxOf_cons_self,Nat.add_zero]
    constructor
    · intro hcol
      have htgt := (hnew hcol).resolve_left List.not_mem_nil
      have hnpre : target e ∉ pre := fun hin => hdis.2.2 _ hin _ htgt rfl
      have hle : (pre++x::post).idxOf x ≤ (pre++x::post).idxOf (target e) := by
        rw [hplace,List.idxOf_append_of_notMem hnpre]
        exact Nat.le_add_right _ _
      rcases Nat.lt_or_eq_of_le hle with hlt | heq
      · exact .inr hlt
      · exact .inl ((List.idxOf_inj hx').mp heq)
    · intro hcol
      dsimp only
      rw [hplace]
      have htgt := (hother hcol).resolve_right fun h => List.not_mem_nil h.1
      rw [List.idxOf_append_of_mem htgt]
      exact List.idxOf_lt_length_of_mem htgt

omit [DecidableEq α] in
theorem no_cycle {r : α → α → Prop} (f : α → ℕ) (hr : ∀ a b, r a b → f b < f a) (a : α) :
    ¬ Relation.TransGen r a a := by
  have hlt : ∀ b, Relation.TransGen r a b → f b < f a := by
    intro b hb
    induction hb with
    | single h => exact hr _ _ h
    | tail _ h ih => exact Nat.lt_trans (hr _ _ h) ih
  exact fun h => Nat.lt_irrefl _ (hlt a h)

end MinimaxCode.DepthFirst
