import Mathlib.Data.Set.Finite.Basic
import Mathlib.Order.WellFoundedSet
import Mathlib.Algebra.Order.Ring.Int
import Mathlib.Algebra.BigOperators.Group.List.Basic
import Mathlib.Order.Bounds.Basic

/-!
# Longest paths in an acyclic graph

The nodes of an acyclic graph have ranks that are the least ranks of their successors less
the weights of the edges there, and zero where there are no successors. The rank of a node
is minus the weight of a heaviest path from the node to a node without successors.
-/

namespace MinimaxCode.AcyclicPaths

open Relation

variable {α β : Type*}

theorem wellFounded_of_acyclic {r : α → α → Prop} (hfin : {a | ∃ b, r a b}.Finite)
    (hac : ∀ a, ¬ TransGen r a a) : WellFounded r := by
  have hirr : Std.Irrefl (TransGen r) := ⟨hac⟩
  have hstrict : IsStrictOrder α (TransGen r) := {irrefl := hac, trans := fun _ _ _ => TransGen.trans}
  have hwf := hfin.wellFoundedOn (r := TransGen r)
  have hacc : ∀ a ∈ {a | ∃ b, r a b}, Acc r a := by
    intro a ha
    refine hwf.induction (P := Acc r) ha fun b _ ih => ?_
    exact ⟨b,fun c hc => ih c ⟨b,hc⟩ (.single hc)⟩
  exact ⟨fun a => ⟨a,fun b hb => hacc b ⟨a,hb⟩⟩⟩

variable {out : α → List β} {target : β → α} {weight : β → ℤ} {f : α → ℤ} {a b : α} {e : β}

/-- There is an edge from one node to another. -/
def Arc (out : α → List β) (target : β → α) (a b : α) : Prop := ∃ e ∈ out a, target e = b

/-- A path from a node to a node without successors. -/
inductive ToSink (out : α → List β) (target : β → α) : α → List β → Prop
  | nil {a : α} (h : out a = []) : ToSink out target a []
  | cons {a : α} {e : β} {p : List β} (he : e ∈ out a) (hp : ToSink out target (target e) p) :
    ToSink out target a (e::p)

/-- The rank of a node, where its successors have theirs. -/
def rankFrom (out : α → List β) (target : β → α) (weight : β → ℤ) (f : α → ℤ) (a : α) : ℤ :=
  ((out a).map fun e => f (target e)-weight e).min?.getD 0

/-- Every node has the rank that its successors give it. -/
def Ranks (out : α → List β) (target : β → α) (weight : β → ℤ) (f : α → ℤ) : Prop :=
  ∀ a, f a = rankFrom out target weight f a

theorem exists_ranks (hwf : WellFounded (flip (Arc out target))) (weight : β → ℤ) :
    ∃ f, Ranks out target weight f := by
  let F : (a : α) → ((b : α) → flip (Arc out target) b a → ℤ) → ℤ := fun a rec =>
    ((out a).attach.map fun e => rec (target e.1) ⟨e.1,e.2,rfl⟩-weight e.1).min?.getD 0
  refine ⟨hwf.fix F,fun a => ?_⟩
  have hmap : (out a).attach.map (fun e => hwf.fix F (target e.1)-weight e.1) =
      (out a).map fun e => hwf.fix F (target e)-weight e :=
    List.attach_map_val (f := fun e => hwf.fix F (target e)-weight e)
  rw [hwf.fix_eq,rankFrom,← hmap]

theorem rankFrom_cases (out : α → List β) (target : β → α) (weight : β → ℤ) (f : α → ℤ) (a : α) :
    (out a = [] ∧ rankFrom out target weight f a = 0) ∨
    (∃ e ∈ out a, rankFrom out target weight f a = f (target e)-weight e) ∧
      ∀ e ∈ out a, rankFrom out target weight f a ≤ f (target e)-weight e := by
  cases hm : ((out a).map fun e => f (target e)-weight e).min? with
  | none =>
    rw [List.min?_eq_none_iff,List.map_eq_nil_iff] at hm
    exact .inl ⟨hm,by rw [rankFrom,hm]; rfl⟩
  | some m =>
    have hrank : rankFrom out target weight f a = m := by rw [rankFrom,hm]; rfl
    obtain ⟨hmem,hle⟩ := List.min?_eq_some_iff.mp hm
    obtain ⟨e,he,hme⟩ := List.mem_map.mp hmem
    refine .inr ⟨⟨e,he,by rw [hrank,hme]⟩,fun e he => ?_⟩
    rw [hrank]
    exact hle _ (List.mem_map_of_mem he)

namespace Ranks

theorem feasible (h : Ranks out target weight f) (he : e ∈ out a) :
    weight e ≤ f (target e)-f a := by
  rcases rankFrom_cases out target weight f a with ⟨hnil,-⟩ | ⟨-,hle⟩
  · rw [hnil] at he
    cases he
  · have hrank := hle e he
    rw [← h a] at hrank
    omega

theorem le_of_toSink (h : Ranks out target weight f) {p : List β} (hp : ToSink out target a p) :
    (p.map weight).sum ≤ -f a := by
  induction hp with
  | @nil a hnil =>
    rw [h a,rankFrom,hnil]
    exact le_refl _
  | @cons a e p he hp ih =>
    have hedge := h.feasible he
    rw [List.map_cons,List.sum_cons]
    omega

theorem exists_toSink (hwf : WellFounded (flip (Arc out target)))
    (h : Ranks out target weight f) (a : α) :
    ∃ p, ToSink out target a p ∧ (p.map weight).sum = -f a := by
  induction a using hwf.induction with
  | _ a ih =>
    rcases rankFrom_cases out target weight f a with ⟨hnil,hzero⟩ | ⟨⟨e,he,hrank⟩,-⟩
    · exact ⟨[],.nil hnil,by rw [h a,hzero]; rfl⟩
    · obtain ⟨p,hp,hsum⟩ := ih (target e) ⟨e,he,rfl⟩
      refine ⟨e::p,.cons he hp,?_⟩
      rw [List.map_cons,List.sum_cons,hsum,h a,hrank]
      omega

theorem isGreatest (hwf : WellFounded (flip (Arc out target)))
    (h : Ranks out target weight f) (a : α) :
    IsGreatest {n | ∃ p, ToSink out target a p ∧ (p.map weight).sum = n} (-f a) := by
  constructor
  · exact exists_toSink hwf h a
  · rintro _ ⟨p,hp,rfl⟩
    exact h.le_of_toSink hp

end Ranks

theorem exists_source (hwf : WellFounded (Arc out target)) (a : α) :
    ∃ s, (∀ b, ¬ Arc out target b s) ∧ ReflTransGen (Arc out target) s a := by
  induction a using hwf.induction with
  | _ a ih =>
    by_cases hsrc : ∃ b, Arc out target b a
    · obtain ⟨b,hb⟩ := hsrc
      obtain ⟨s,hs,hpath⟩ := ih b hb
      exact ⟨s,hs,hpath.tail hb⟩
    · exact ⟨a,not_exists.mp hsrc,.refl⟩

end MinimaxCode.AcyclicPaths
