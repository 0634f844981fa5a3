import MinimaxCode.OrderedDict
import MinimaxCode.PyText
import Mathlib.Algebra.Order.Field.Basic
import Mathlib.Data.List.Sort
import Mathlib.Data.Rat.Defs
import Mathlib.Algebra.Order.Ring.Rat
import Mathlib.Tactic.Linarith

/-!
# The hybrid search of the code index

The keyword search gives rows with a rank, where the smaller rank is the better one, and
the vector search gives distances. The rows are scored by both, sorted by their scores and
handed out page by page. The rank is taken with the wrong sign all the way, so that the worse
matches come first, and every page is cut out of the first two.
-/

namespace MinimaxCode.CodebaseSearch

open PyText OrderedDict

section Lists

variable {α : Type*} {r : α → α → Prop} {xs : List α} {a b : α}

theorem flatMap_pages (xs : List α) (limit n : ℕ) :
    (List.range n).flatMap (fun k => (xs.drop (k*limit)).take limit) = xs.take (n*limit) := by
  induction n with
  | zero => simp
  | succ n ih =>
    rw [List.range_succ,List.flatMap_append,ih,List.flatMap_singleton,Nat.succ_mul,List.take_add]

theorem pair_sublist_of_pairwise (h : xs.Pairwise r) (ha : a ∈ xs) (hb : b ∈ xs) (hne : a ≠ b)
    (hab : ¬r a b) : [b,a].Sublist xs := by
  induction h with
  | nil => cases ha
  | @cons x xs hx _ ih =>
    rcases List.mem_cons.mp ha with rfl | ha'
    · exact absurd (hx b ((List.mem_cons.mp hb).resolve_left (Ne.symm hne))) hab
    · rcases List.mem_cons.mp hb with rfl | hb'
      · exact (List.singleton_sublist.mpr ha').cons_cons b
      · exact (ih ha' hb').cons x

theorem of_pair_sublist (h : xs.Pairwise r) (hab : [a,b].Sublist xs) : r a b :=
  List.pairwise_pair.mp (h.sublist hab)

end Lists

/-- A row of the keyword search. -/
structure Row (K : Type) where
  rowid : ℕ
  id : PyStr
  filePath : PyStr
  startLine : ℕ
  endLine : ℕ
  content : PyStr
  language : Option PyStr
  symbols : List PyStr
  rank : K
  deriving DecidableEq

/-- What the database does: it finds the rows that match, sorts by rank, the largest first, and
knows which vectors are nearest to a query, if it has the extension for vectors. -/
structure Database (K : Type) [LE K] where
  matching : PyStr → Option PyStr → PyStr → List (Row K)
  orderByRankDesc : List (Row K) → List (Row K)
  perm_orderByRankDesc : ∀ rows, (orderByRankDesc rows).Perm rows
  pairwise_orderByRankDesc : ∀ rows, (orderByRankDesc rows).Pairwise fun a b => b.rank ≤ a.rank
  nearest : PyStr → Option (List (ℕ × K))
  rootOf : ℕ → PyStr

namespace Database

variable {K : Type} [LE K]

/-- The keyword matches of a query. -/
def keywordMatches (db : Database K) (query : PyStr) (filePattern : Option PyStr)
    (root : PyStr) : List (Row K) :=
  if isBlank query then [] else db.matching query (filePattern.filter (· ≠ [])) root

def search (db : Database K) (query : PyStr) (filePattern : Option PyStr) (limit offset : ℕ)
    (root : PyStr) : List (Row K) :=
  ((db.orderByRankDesc (db.keywordMatches query filePattern root)).drop offset).take limit

/-- `search_vectors`; nothing is found where there are no vectors. -/
def searchVectors (db : Database K) (query : PyStr) (limit : ℕ) (root : PyStr) :
    List (ℕ × K) :=
  (((db.nearest query).getD []).take limit).filter fun vr => db.rootOf vr.1 = root

end Database

structure SearchResult (K : Type) where
  chunkId : PyStr
  filePath : PyStr
  startLine : ℕ
  endLine : ℕ
  snippet : PyStr
  language : Option PyStr
  rank : K
  symbols : List PyStr

variable {K : Type} [Field K] [LinearOrder K]

/-- `CodebaseRetriever`, with the text of a snippet as a parameter. -/
structure Retriever (K : Type) [LE K] where
  store : Database K
  root : PyStr
  vectorWeight : K
  buildSnippet : PyStr → PyStr → PyStr

namespace Retriever

/-- The weight that the constructor keeps. -/
def weight (r : Retriever K) : K := max 0 (min 1 r.vectorWeight)

/-- The distances of the vector search by the rows they are of. -/
def distances (r : Retriever K) (query : PyStr) (limit : ℕ) : List (ℕ × K) :=
  ofItems (r.store.searchVectors query (limit*2) r.root)

/-- A distance of unit vectors as a similarity. -/
def similarityOf (distance : K) : K := max 0 (1-distance/2)

def maxVecScore (r : Retriever K) (query : PyStr) (limit : ℕ) : K :=
  match ((r.store.searchVectors query (limit*2) r.root).map Prod.snd).min? with
  | none => 0
  | some minDistance => similarityOf minDistance

def vecScore (r : Retriever K) (query : PyStr) (limit : ℕ) (row : Row K) : K :=
  match lookup (r.distances query limit) row.rowid with
  | none => 0
  | some distance =>
    if 0 < r.maxVecScore query limit then similarityOf distance/r.maxVecScore query limit
    else similarityOf distance

def maxFtsRank (rows : List (Row K)) : K := (rows.map Row.rank).max?.getD 0

def ftsScore (rows : List (Row K)) (row : Row K) : K :=
  if 0 < maxFtsRank rows then row.rank/maxFtsRank rows else 0

def hybridScore (r : Retriever K) (query : PyStr) (limit : ℕ) (rows : List (Row K))
    (row : Row K) : K :=
  (1-r.weight)*ftsScore rows row+r.weight*r.vecScore query limit row

/-- The order of the scored rows: the sort is stable, and the highest score comes first. -/
def Above (x y : K × Row K) : Prop := y.1 ≤ x.1

instance : DecidableRel (Above (K := K)) := fun x y => inferInstanceAs (Decidable (y.1 ≤ x.1))

/-- The keyword matches as they are fetched, and as they are sorted. -/
def fetched (r : Retriever K) (query : PyStr) (filePattern : Option PyStr) (limit : ℕ) :
    List (Row K) := r.store.search query filePattern (limit*2) 0 r.root

def scored (r : Retriever K) (query : PyStr) (filePattern : Option PyStr) (limit : ℕ) :
    List (K × Row K) :=
  ((r.fetched query filePattern limit).map fun row =>
    (r.hybridScore query limit (r.fetched query filePattern limit) row,row)).insertionSort Above

/-- The rows of the page at an offset. -/
def page (r : Retriever K) (query : PyStr) (filePattern : Option PyStr) (limit offset : ℕ) :
    List (Row K) :=
  (((r.scored query filePattern limit).drop offset).take limit).map Prod.snd

def result (r : Retriever K) (query : PyStr) (row : Row K) : SearchResult K :=
  ⟨row.id,row.filePath,row.startLine,row.endLine,r.buildSnippet row.content query,row.language,
    row.rank,row.symbols⟩

def search (r : Retriever K) (query : PyStr) (filePattern : Option PyStr) (limit offset : ℕ) :
    List (SearchResult K) :=
  (r.page query filePattern limit offset).map (r.result query)

/-- The similarity of a row to the query, as far as the vector search knows it. -/
def similarity (r : Retriever K) (query : PyStr) (limit : ℕ) (row : Row K) : K :=
  match lookup (r.distances query limit) row.rowid with
  | none => 0
  | some distance => similarityOf distance

def keywordMatches (r : Retriever K) (query : PyStr) (filePattern : Option PyStr) : List (Row K) :=
  r.store.keywordMatches query filePattern r.root

/-- The pages at the offsets zero, `limit`, twice `limit` and so on, one after another. -/
def walk (r : Retriever K) (query : PyStr) (filePattern : Option PyStr) (limit n : ℕ) :
    List (Row K) :=
  (List.range n).flatMap fun k => r.page query filePattern limit (k*limit)

/-- A match with the better rank and no less similarity does not come after the other, no worse
match is fetched in place of a better one, and the pages go through all matches once. -/
structure RanksAndPages (r : Retriever K) (query : PyStr) (filePattern : Option PyStr)
    (limit : ℕ) : Prop where
  ordered : ∀ a ∈ r.keywordMatches query filePattern, ∀ b ∈ r.keywordMatches query filePattern,
    a.rank < b.rank → r.similarity query limit b ≤ r.similarity query limit a →
    ∀ n, ¬[b,a].Sublist (r.walk query filePattern limit n)
  fetches : ∀ a ∈ r.keywordMatches query filePattern, ∀ b ∈ r.fetched query filePattern limit,
    a.rank < b.rank → a ∈ r.fetched query filePattern limit
  complete : ∃ n, ∀ m, n ≤ m →
    (r.walk query filePattern limit m).Perm (r.keywordMatches query filePattern)

/-- A match comes before one that SQLite sorts before it: its similarity leads, and by more than
it lacks in rank where ranks count. -/
def Prevails (r : Retriever K) (query : PyStr) (limit : ℕ) (rows : List (Row K))
    (a b : Row K) : Prop :=
  if 0 < maxFtsRank rows then
    (1-r.weight)*((b.rank-a.rank)/maxFtsRank rows) <
      r.weight*((r.similarity query limit a-r.similarity query limit b)/
        r.maxVecScore query limit)
  else 0 < r.weight ∧ r.similarity query limit b < r.similarity query limit a

variable {r : Retriever K} {query : PyStr} {filePattern : Option PyStr} {limit n : ℕ}
  {rows : List (Row K)} {a b : Row K}

theorem scored_perm (r : Retriever K) (query : PyStr) (filePattern : Option PyStr) (limit : ℕ) :
    ((r.scored query filePattern limit).map Prod.snd).Perm
      (r.fetched query filePattern limit) := by
  have hperm := (List.perm_insertionSort Above ((r.fetched query filePattern limit).map fun row =>
    (r.hybridScore query limit (r.fetched query filePattern limit) row,row))).map Prod.snd
  rw [List.map_map] at hperm
  exact hperm.trans (by rw [Function.comp_def,List.map_id'])

theorem walk_eq (r : Retriever K) (query : PyStr) (filePattern : Option PyStr) (limit n : ℕ) :
    r.walk query filePattern limit n =
      ((r.scored query filePattern limit).map Prod.snd).take (n*limit) := by
  rw [walk,← flatMap_pages]
  simp only [page,List.map_take,List.map_drop]

omit [Field K] in
theorem length_fetched (r : Retriever K) (query : PyStr) (filePattern : Option PyStr)
    (limit : ℕ) : (r.fetched query filePattern limit).length =
      min (limit*2) (r.keywordMatches query filePattern).length := by
  rw [fetched,Database.search,List.drop_zero,List.length_take,
    (r.store.perm_orderByRankDesc _).length_eq]
  rfl

omit [Field K] in
theorem fetched_perm (h : (r.keywordMatches query filePattern).length ≤ limit*2) :
    (r.fetched query filePattern limit).Perm (r.keywordMatches query filePattern) := by
  have hperm := r.store.perm_orderByRankDesc (r.keywordMatches query filePattern)
  have htake : ((r.store.orderByRankDesc (r.keywordMatches query filePattern)).take
      (limit*2)).Perm (r.keywordMatches query filePattern) := by
    rwa [List.take_of_length_le (hperm.length_eq.trans_le h)]
  exact htake

theorem complete_iff : (∃ n, ∀ m, n ≤ m →
      (r.walk query filePattern limit m).Perm (r.keywordMatches query filePattern)) ↔
    (r.keywordMatches query filePattern).length ≤ limit*2 := by
  have hlength := (r.scored_perm query filePattern limit).length_eq
  rw [length_fetched] at hlength
  constructor
  · rintro ⟨n,h⟩
    have hall := (h n (Nat.le_refl n)).length_eq
    rw [walk_eq,List.length_take,hlength] at hall
    omega
  · intro h
    refine ⟨2,fun m hm => ?_⟩
    rw [Nat.min_eq_right h] at hlength
    have hle : limit*2 ≤ m*limit := by
      rw [Nat.mul_comm limit]
      exact Nat.mul_le_mul_right limit hm
    rw [walk_eq,List.take_of_length_le (by omega)]
    exact (r.scored_perm query filePattern limit).trans (fetched_perm h)

theorem weight_nonneg (r : Retriever K) : 0 ≤ r.weight := le_max_left _ _

theorem maxFtsRank_perm {rows' : List (Row K)} (h : rows.Perm rows') :
    maxFtsRank rows = maxFtsRank rows' := by
  have hmap := h.map Row.rank
  rw [maxFtsRank,maxFtsRank]
  cases hmax : (rows.map Row.rank).max? with
  | none =>
    rw [List.max?_eq_none_iff] at hmax
    rw [hmax] at hmap
    rw [← hmap.nil_eq]
    rfl
  | some m =>
    obtain ⟨hmem,hle⟩ := List.max?_eq_some_iff.mp hmax
    rw [List.max?_eq_some_iff.mpr ⟨hmap.mem_iff.mp hmem,fun x hx => hle x (hmap.mem_iff.mpr hx)⟩]

theorem similarity_nonneg (r : Retriever K) (query : PyStr) (limit : ℕ) (row : Row K) :
    0 ≤ r.similarity query limit row := by
  rw [similarity]
  split
  · exact le_refl 0
  · exact le_max_left _ _

variable [IsStrictOrderedRing K]

theorem similarityOf_anti {d e : K} (h : d ≤ e) : similarityOf e ≤ similarityOf d :=
  max_le_max (le_refl 0) (sub_le_sub_left (div_le_div_of_nonneg_right h zero_le_two) 1)

theorem similarity_le (r : Retriever K) (query : PyStr) (limit : ℕ) (row : Row K) :
    r.similarity query limit row ≤ r.maxVecScore query limit := by
  rw [similarity,maxVecScore]
  split
  · split
    · exact le_refl 0
    · exact le_max_left _ _
  · next distance hdist =>
    have hmem := List.mem_map_of_mem (f := Prod.snd) (mem_of_mem_ofItems (mem_of_lookup hdist))
    split
    · next hmin =>
      rw [List.min?_eq_none_iff.mp hmin] at hmem
      cases hmem
    · next hmin => exact similarityOf_anti ((List.min?_eq_some_iff.mp hmin).2 _ hmem)

theorem vecScore_eq (r : Retriever K) (query : PyStr) (limit : ℕ) (row : Row K) :
    r.vecScore query limit row = r.similarity query limit row/r.maxVecScore query limit := by
  have hle := r.similarity_le query limit row
  have hnonneg := r.similarity_nonneg query limit row
  rw [vecScore]
  rw [similarity] at hle hnonneg ⊢
  split
  · rw [zero_div]
  · next hdist =>
    rw [hdist] at hle hnonneg
    dsimp only at hle hnonneg
    split
    · rfl
    · next hmax =>
      have hzero : r.maxVecScore query limit = 0 :=
        le_antisymm (not_lt.mp hmax) (hnonneg.trans hle)
      rw [hzero] at hle ⊢
      rw [div_zero]
      exact le_antisymm hle hnonneg

theorem hybridScore_lt_iff (r : Retriever K) (query : PyStr) (limit : ℕ) (rows : List (Row K))
    (a b : Row K) : r.hybridScore query limit rows b < r.hybridScore query limit rows a ↔
      r.Prevails query limit rows a b := by
  rw [hybridScore,hybridScore,vecScore_eq,vecScore_eq,Prevails,ftsScore,ftsScore]
  split
  · rw [sub_div,sub_div,mul_sub,mul_sub]
    constructor <;> intro h <;> linarith
  · rw [mul_zero,zero_add,zero_add]
    have hb := r.similarity_nonneg query limit b
    have ha := r.similarity_le query limit a
    constructor
    · intro h
      have hweight : 0 < r.weight := by
        refine r.weight_nonneg.lt_of_ne fun hzero => ?_
        rw [← hzero,zero_mul,zero_mul] at h
        exact lt_irrefl 0 h
      refine ⟨hweight,lt_of_not_ge fun hle => ?_⟩
      have hbest := (r.similarity_nonneg query limit a).trans ha
      exact not_le_of_gt h
        (mul_le_mul_of_nonneg_left (div_le_div_of_nonneg_right hle hbest) hweight.le)
    · rintro ⟨hweight,hlt⟩
      have hbest := (hb.trans_lt hlt).trans_le ha
      exact mul_lt_mul_of_pos_left (div_lt_div_of_pos_right hlt hbest) hweight

instance : Std.Total (Above (K := K)) := ⟨fun x y => le_total y.1 x.1⟩

instance : IsTrans (K × Row K) Above := ⟨fun _ _ _ hxy hyz => hyz.trans hxy⟩

omit [IsStrictOrderedRing K] in
theorem placed_iff (ha : a ∈ r.fetched query filePattern limit)
    (hb : b ∈ r.fetched query filePattern limit) (hrank : a.rank < b.rank) :
    [b,a].Sublist ((r.scored query filePattern limit).map Prod.snd) ↔
      r.hybridScore query limit (r.fetched query filePattern limit) a ≤
        r.hybridScore query limit (r.fetched query filePattern limit) b := by
  set rows := r.fetched query filePattern limit with hrows
  set score := r.hybridScore query limit rows with hscore
  constructor
  · intro h
    obtain ⟨pair,hpair,heq⟩ := List.sublist_map_iff.mp h
    obtain ⟨x,xs,rfl,hx,hxs⟩ := List.map_eq_cons_iff.mp heq.symm
    obtain ⟨y,ys,rfl,hy,hys⟩ := List.map_eq_cons_iff.mp hxs
    rw [List.map_eq_nil_iff.mp hys] at hpair
    have hscored : ∀ z ∈ r.scored query filePattern limit, z.1 = score z.2 := by
      intro z hz
      obtain ⟨row,-,rfl⟩ := List.mem_map.mp ((List.mem_insertionSort _).mp hz)
      rfl
    have habove : Above x y := of_pair_sublist (List.pairwise_insertionSort Above _) hpair
    rw [Above,hscored x (hpair.subset (by simp)),hscored y (hpair.subset (by simp)),hx,hy]
      at habove
    exact habove
  · intro hle
    have hdesc : rows.Pairwise fun a b => b.rank ≤ a.rank :=
      ((r.store.pairwise_orderByRankDesc _).sublist (List.drop_sublist _ _)).sublist
        (List.take_sublist _ _)
    have hfetch := pair_sublist_of_pairwise hdesc ha hb
      (by rintro rfl; exact lt_irrefl _ hrank) (not_le_of_gt hrank)
    have hsort := List.pair_sublist_insertionSort (r := Above) (a := (score b,b))
      (b := (score a,a)) hle (hfetch.map fun row => (score row,row))
    exact hsort.map Prod.snd

/-- The search keeps its promises exactly when two pages hold all matches, and every match with
the better rank that is no less similar prevails by its similarity. -/
theorem ranksAndPages_iff (r : Retriever K) (query : PyStr) (filePattern : Option PyStr)
    (limit : ℕ) : r.RanksAndPages query filePattern limit ↔
      (r.keywordMatches query filePattern).length ≤ limit*2 ∧
      ∀ a ∈ r.keywordMatches query filePattern, ∀ b ∈ r.keywordMatches query filePattern,
        a.rank < b.rank → r.similarity query limit b ≤ r.similarity query limit a →
        r.Prevails query limit (r.keywordMatches query filePattern) a b := by
  constructor
  · intro h
    have hlength := complete_iff.mp h.complete
    have hperm := fetched_perm hlength
    refine ⟨hlength,fun a ha b hb hrank hsim => ?_⟩
    have hprevails := r.hybridScore_lt_iff query limit (r.fetched query filePattern limit) a b
    rw [Prevails,maxFtsRank_perm hperm] at hprevails
    refine hprevails.mp (lt_of_not_ge fun hle => ?_)
    obtain ⟨n,hn⟩ := h.complete
    have hplaced := (placed_iff (hperm.mem_iff.mpr ha) (hperm.mem_iff.mpr hb) hrank).mpr hle
    have hall : r.walk query filePattern limit n =
        (r.scored query filePattern limit).map Prod.snd := by
      rw [walk_eq]
      refine List.take_of_length_le ?_
      have hwalk := (hn n (Nat.le_refl n)).length_eq
      rw [walk_eq,List.length_take,← hperm.length_eq,
        ← (r.scored_perm query filePattern limit).length_eq] at hwalk
      omega
    exact h.ordered a ha b hb hrank hsim n (hall ▸ hplaced)
  · rintro ⟨hlength,hprevails⟩
    have hperm := fetched_perm hlength
    refine ⟨fun a ha b hb hrank hsim n hsub => ?_,fun a ha b _ _ => hperm.mem_iff.mpr ha,
      complete_iff.mpr hlength⟩
    rw [walk_eq] at hsub
    have hle := (placed_iff (hperm.mem_iff.mpr ha) (hperm.mem_iff.mpr hb) hrank).mp
      (hsub.trans (List.take_sublist _ _))
    have hlt := (r.hybridScore_lt_iff query limit (r.fetched query filePattern limit) a b).mpr
    rw [Prevails,maxFtsRank_perm hperm] at hlt
    exact not_lt_of_ge hle (hlt (hprevails a ha b hb hrank hsim))

def bestMatch : Row ℚ := ⟨1,lit "best",lit "a.py",1,2,lit "def f",none,[],-2⟩

def worstMatch : Row ℚ := ⟨2,lit "worst",lit "b.py",1,2,lit "f",none,[],-1⟩

/-- A database with two matches and the distances of their vectors. -/
def twoMatches (nearest : Option (List (ℕ × ℚ))) : Database ℚ where
  matching _ _ _ := [bestMatch,worstMatch]
  orderByRankDesc rows := rows.insertionSort fun a b => b.rank ≤ a.rank
  perm_orderByRankDesc rows := List.perm_insertionSort _ rows
  pairwise_orderByRankDesc rows := by
    have htotal : Std.Total fun a b : Row ℚ => b.rank ≤ a.rank := ⟨fun a b => le_total _ _⟩
    have htrans : IsTrans (Row ℚ) fun a b => b.rank ≤ a.rank := ⟨fun _ _ _ h h' => h'.trans h⟩
    exact List.pairwise_insertionSort _ rows
  nearest _ := nearest
  rootOf _ := []

def retrieverOf (nearest : Option (List (ℕ × ℚ))) : Retriever ℚ :=
  ⟨twoMatches nearest,[],3/10,fun content _ => content⟩

/-- The vectors put the better match first. -/
theorem vectors_rank :
    (retrieverOf (some [(1,1/2),(2,1)])).RanksAndPages (lit "f") none 20 := by
  refine (ranksAndPages_iff (retrieverOf (some [(1,1/2),(2,1)])) (lit "f") none 20).mpr
    ⟨by decide +kernel,?_⟩
  have hall : ∀ a ∈ [bestMatch,worstMatch], ∀ b ∈ [bestMatch,worstMatch], a.rank < b.rank →
      (retrieverOf (some [(1,1/2),(2,1)])).Prevails (lit "f") 20 [bestMatch,worstMatch] a b := by
    simp only [List.forall_mem_cons,List.not_mem_nil,false_implies,implies_true,and_true,Prevails]
    decide +kernel
  exact fun a ha b hb hrank _ => hall a ha b hb hrank

/-- Without vectors the worse match comes first on the first page. -/
theorem worst_first : ¬ ∀ (r : Retriever ℚ) (query : PyStr) (filePattern : Option PyStr)
    (limit : ℕ), r.RanksAndPages query filePattern limit := by
  intro h
  have hbest : bestMatch ∈ (retrieverOf none).keywordMatches (lit "f") none := by decide +kernel
  have hworst : worstMatch ∈ (retrieverOf none).keywordMatches (lit "f") none := by
    decide +kernel
  have hpage : (retrieverOf none).walk (lit "f") none 20 1 = [worstMatch,bestMatch] := by
    decide +kernel
  exact (h (retrieverOf none) (lit "f") none 20).ordered bestMatch hbest worstMatch hworst
    (by decide +kernel) (by decide +kernel) 1 (hpage ▸ List.Sublist.refl _)

end Retriever

end MinimaxCode.CodebaseSearch
