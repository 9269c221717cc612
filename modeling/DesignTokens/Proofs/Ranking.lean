import DesignTokens.Suggestion
import Mathlib.Data.List.FinRange

/-! # The nearest candidates

The places of a pool are ranked by the distances of their candidates, and at equal distances they
keep their order. The nearest candidates are those at the first places of this ranking. -/
namespace DesignTokens.Suggestion

/-- How far the candidate at a place of a pool is from a text. -/
def distanceAt (target : List Char) (pool : List String) (i : Fin pool.length) : Nat :=
  editDistance target (pool.get i).toList

/-- The candidate at the one place is nearer than that at the other, or as near and earlier. -/
def Precedes (target : List Char) (pool : List String) (i j : Fin pool.length) : Prop :=
  distanceAt target pool i < distanceAt target pool j ∨
    distanceAt target pool i = distanceAt target pool j ∧ i < j

/-- Whether the candidate at the one place is no farther than that at the other. -/
def noFarther (target : List Char) (pool : List String) (i j : Fin pool.length) : Bool :=
  distanceAt target pool i ≤ distanceAt target pool j

/-- The places of a pool by distance. -/
def ranking (target : List Char) (pool : List String) : List (Fin pool.length) :=
  (List.finRange pool.length).mergeSort (noFarther target pool)

section
variable {target : List Char} {pool : List String}

private theorem noFarther_trans (i j k : Fin pool.length) (h : noFarther target pool i j = true)
    (h' : noFarther target pool j k = true) : noFarther target pool i k = true := by
  simp only [noFarther, decide_eq_true_eq] at *
  exact h.trans h'

private theorem noFarther_total (i j : Fin pool.length) :
    (noFarther target pool i j || noFarther target pool j i) = true := by
  simpa [noFarther] using Nat.le_total (distanceAt target pool i) (distanceAt target pool j)

theorem val_eq_of_mem_zipIdx {n : Nat} {p : Fin n × Nat} (h : p ∈ (List.finRange n).zipIdx) :
    p.2 = p.1.val := by
  have hnumbered : (List.finRange n).zipIdx = (List.finRange n).map fun i => (i, i.val) := by
    apply List.ext_getElem <;> simp
  rw [hnumbered] at h
  obtain ⟨i, -, rfl⟩ := List.mem_map.1 h
  rfl

/-- What sorting by distance and then by number makes of two places. -/
theorem precedes_of_zipIdxLE {p q : Fin pool.length × Nat} (hp : p.2 = p.1.val)
    (hq : q.2 = q.1.val) (h : List.zipIdxLE (noFarther target pool) p q = true) (hne : p.1 ≠ q.1) :
    Precedes target pool p.1 q.1 := by
  obtain ⟨hle, htie⟩ : distanceAt target pool p.1 ≤ distanceAt target pool q.1 ∧
      (distanceAt target pool q.1 ≤ distanceAt target pool p.1 → p.1.val ≤ q.1.val) := by
    simpa [List.zipIdxLE, noFarther, hp, hq, imp_iff_not_or, or_comm] using h
  have hnumbers : p.1.val ≠ q.1.val := fun hval => hne (Fin.ext hval)
  rw [Precedes, Fin.lt_def]
  omega

theorem nodup_ranking : (ranking target pool).Nodup :=
  (List.mergeSort_perm _ _).nodup_iff.2 (List.nodup_finRange _)

theorem mem_ranking (i : Fin pool.length) : i ∈ ranking target pool :=
  List.mem_mergeSort.2 (List.mem_finRange i)

theorem length_ranking : (ranking target pool).length = pool.length := by
  rw [ranking, List.length_mergeSort, List.length_finRange]

/-- Sorting is stable, so that the places might as well be sorted by distance and number. -/
theorem pairwise_ranking : (ranking target pool).Pairwise (Precedes target pool) := by
  have hsorted := List.pairwise_mergeSort (List.zipIdxLE_trans (@noFarther_trans target pool))
    (List.zipIdxLE_total noFarther_total) (List.finRange pool.length).zipIdx
  have hdistinct : (ranking target pool).Pairwise (· ≠ ·) := nodup_ranking
  rw [ranking, ← List.mergeSort_zipIdx, List.pairwise_map] at hdistinct ⊢
  refine (hsorted.and hdistinct).imp_of_mem fun hp hq h => ?_
  exact precedes_of_zipIdxLE (val_eq_of_mem_zipIdx (List.mem_mergeSort.1 hp))
    (val_eq_of_mem_zipIdx (List.mem_mergeSort.1 hq)) h.1 h.2

end

/-- The nearest candidates are those at the first places. -/
theorem nearest_eq (target : List Char) (pool : List String) (limit : Nat) :
    nearest target pool limit = ((ranking target pool).take limit).map pool.get := by
  have hranked : pool.map (fun candidate => (editDistance target candidate.toList, candidate)) =
      (List.finRange pool.length).map fun i => (distanceAt target pool i, pool.get i) :=
    calc pool.map (fun candidate => (editDistance target candidate.toList, candidate))
      _ = ((List.finRange pool.length).map pool.get).map
            fun candidate => (editDistance target candidate.toList, candidate) := by
        rw [List.map_get_finRange]
      _ = (List.finRange pool.length).map fun i => (distanceAt target pool i, pool.get i) :=
        List.map_map
  have hsorted : ((List.finRange pool.length).map fun i =>
      (distanceAt target pool i, pool.get i)).mergeSort (fun a b => a.1 ≤ b.1) =
      (ranking target pool).map fun i => (distanceAt target pool i, pool.get i) := by
    symm
    apply List.map_mergeSort
    exact fun _ _ _ _ => rfl
  rw [nearest, hranked, hsorted, List.map_map, List.map_take]
  rfl

/-- So many places of a pool, the nearest ones first, and none that precedes one of them left out. -/
structure AreNearest (target : List Char) (pool : List String) (limit : Nat)
    (places : List (Fin pool.length)) : Prop where
  length : places.length = min limit pool.length
  distinct : places.Nodup
  ordered : places.Pairwise (Precedes target pool)
  preferred : ∀ i ∈ places, ∀ j, j ∉ places → Precedes target pool i j

theorem areNearest_take (target : List Char) (pool : List String) (limit : Nat) :
    AreNearest target pool limit ((ranking target pool).take limit) where
  length := by rw [List.length_take, length_ranking]
  distinct := nodup_ranking.sublist (List.take_sublist _ _)
  ordered := pairwise_ranking.sublist (List.take_sublist _ _)
  preferred i hi j hj := by
    have hranked : ((ranking target pool).take limit ++ (ranking target pool).drop limit).Pairwise
        (Precedes target pool) := by
      rw [List.take_append_drop]
      exact pairwise_ranking
    have hmem : j ∈ (ranking target pool).take limit ++ (ranking target pool).drop limit := by
      rw [List.take_append_drop]
      exact mem_ranking j
    exact (List.pairwise_append.1 hranked).2.2 i hi j ((List.mem_append.1 hmem).resolve_left hj)

/-- The nearest candidates are taken from the nearest places of the pool, and fewer of them are the
first ones of more. -/
theorem nearest_ranked (target : List Char) (pool : List String) (limit : Nat) :
    (∃ places, AreNearest target pool limit places ∧
        nearest target pool limit = places.map pool.get) ∧
      ∀ fewer ≤ limit, nearest target pool fewer <+: nearest target pool limit :=
  ⟨⟨_, areNearest_take target pool limit, nearest_eq target pool limit⟩,
    fun _ h => List.take_prefix_take_left h⟩

/-- A pool in which three candidates are at one distance, two of them the same. -/
def tiedPool : List String := ["bb", "x", "b", "xx", "b"]

theorem nearest_ranked_ties :
    nearest "x".toList tiedPool 3 = ["x", "b", "xx"] ∧
      nearest "x".toList tiedPool 2 <+: nearest "x".toList tiedPool 3 ∧
      ∃ places, AreNearest "x".toList tiedPool 3 places ∧
        places.map tiedPool.get = ["x", "b", "xx"] := by
  have hdistances : tiedPool.map (fun candidate => (editDistance "x".toList candidate.toList,
      candidate)) = [(2, "bb"), (0, "x"), (1, "b"), (1, "xx"), (1, "b")] := by decide
  have hnearest : nearest "x".toList tiedPool 3 = ["x", "b", "xx"] := by
    rw [nearest, hdistances]
    simp [List.mergeSort]
  obtain ⟨⟨places, hplaces, hcandidates⟩, hfewer⟩ := nearest_ranked "x".toList tiedPool 3
  exact ⟨hnearest, hfewer 2 (by decide), places, hplaces, hcandidates.symm.trans hnearest⟩

end DesignTokens.Suggestion
