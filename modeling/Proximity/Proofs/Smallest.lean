import Proximity.Proofs.Comparisons
import Proximity.StableSort

/-!
# The smallest entries of a list

`Smallest k all found` says that `found` lists `k` of the entries of `all` by ascending distance, and
that no entry left out is nearer. The distances of such a list are determined, and where no two entries
have the same distance the list is.
-/

namespace Proximity

variable {α : Type} [LinearOrder α]

/-- Sorting by a key puts the keys in ascending order. -/
theorem StableSort.sort_ascending {β : Type} (key : β → α) (xs : List β) :
    (sort (fun a b => key a < key b) xs).Pairwise fun a b => key a ≤ key b := by
  have hsorted : (sort (fun a b => decide (key a < key b)) xs).Pairwise
      fun a b => decide (key b < key a) = false := by
    apply pairwise_sort
    · exact fun a b h => decide_eq_false (lt_asymm (of_decide_eq_true h))
    · intro a b c hab hbc
      simp only [decide_eq_false_iff_not, not_lt] at hab hbc ⊢
      exact hab.trans hbc
  exact hsorted.imp fun h => not_lt.1 (of_decide_eq_false h)

/-- Keys that are totally ordered as rounded numbers are come in ascending order as well. -/
theorem StableSort.sort_notLt {β κ : Type} [LT κ] [DecidableLT κ] {P : κ → Prop}
    (hP : TotallyOrdered P) (key : β → κ) {xs : List β} (hxs : ∀ x ∈ xs, P (key x)) :
    (sort (fun a b => key a < key b) xs).Pairwise fun a b => ¬ key b < key a := by
  obtain ⟨γ, _, rank, hrank⟩ := hP.exists_rank
  have hcongr : sort (fun a b => decide (key a < key b)) xs =
      sort (fun a b => decide (rank (key a) < rank (key b))) xs :=
    sort_congr fun a ha b hb => decide_eq_decide.2 (hrank _ _ (hxs a ha) (hxs b hb))
  have hmem {a : β} (ha : a ∈ sort (fun a b => decide (rank (key a) < rank (key b))) xs) :
      P (key a) := hxs a ((sort_perm _ xs).mem_iff.1 ha)
  rw [hcongr]
  refine (sort_ascending (fun a => rank (key a)) xs).imp_of_mem fun ha hb hab => ?_
  rw [hrank _ _ (hmem hb) (hmem ha)]
  exact not_lt.2 hab

/-- The `k` smallest entries by ascending distance. -/
structure Smallest {ι : Type} (k : ℕ) (all found : List (ι × α)) : Prop where
  length : found.length = k
  ascending : found.Pairwise fun x y => x.2 ≤ y.2
  rest : ∃ dropped, (found ++ dropped).Perm all ∧ ∀ x ∈ found, ∀ y ∈ dropped, x.2 ≤ y.2

variable {ι : Type} {k : ℕ} {all found found' : List (ι × α)}

theorem Smallest.mem (h : Smallest k all found) {x : ι × α} (hx : x ∈ found) : x ∈ all := by
  obtain ⟨dropped, hperm, -⟩ := h.rest
  exact hperm.mem_iff.1 (List.mem_append_left dropped hx)

/-- Where each item occurs once, with a distance of its own, no item is found twice. -/
theorem Smallest.index_inj {f : ι → α} {items : List ι} (hitems : items.Nodup)
    (h : Smallest k (items.map fun i => (i, f i)) found) {s t : ℕ} (hs : s < found.length)
    (ht : t < found.length) (hst : found[s].1 = found[t].1) : s = t := by
  obtain ⟨dropped, hperm, -⟩ := h.rest
  have hall : ((found ++ dropped).map (·.1)).Perm items := by
    refine (hperm.map (·.1)).trans ?_
    rw [List.map_map]
    exact .of_eq (List.map_id' items)
  rw [List.map_append] at hall
  have hnodup := (List.nodup_append.1 (hall.nodup_iff.2 hitems)).1
  have hs' : s < (found.map (·.1)).length := hs.trans_eq (List.length_map _).symm
  have ht' : t < (found.map (·.1)).length := ht.trans_eq (List.length_map _).symm
  have hst' : (found.map (·.1))[s] = (found.map (·.1))[t] := by
    rwa [List.getElem_map, List.getElem_map]
  exact hnodup.getElem_inj_iff.1 hst'

/-- No entry that is left out is nearer than one that is found. -/
theorem Smallest.le_of_not_mem (h : Smallest k all found) {x y : ι × α} (hx : x ∈ found)
    (hy : y ∈ all) (hout : y ∉ found) : x.2 ≤ y.2 := by
  obtain ⟨dropped, hperm, hle⟩ := h.rest
  exact hle x hx y ((List.mem_append.1 (hperm.mem_iff.2 hy)).resolve_left hout)

/-- The distances found begin a list of all distances in ascending order. -/
theorem Smallest.begins (h : Smallest k all found) : ∃ rest,
    (found.map (·.2) ++ rest).Perm (all.map (·.2)) ∧ (found.map (·.2) ++ rest).Pairwise (· ≤ ·) := by
  obtain ⟨dropped, hperm, hle⟩ := h.rest
  refine ⟨(dropped.map (·.2)).insertionSort (· ≤ ·), ?_, List.pairwise_append.2 ⟨?_, ?_, ?_⟩⟩
  · have hall := hperm.map (·.2)
    rw [List.map_append] at hall
    exact ((List.perm_insertionSort _ _).append_left _).trans hall
  · exact List.pairwise_map.2 h.ascending
  · exact List.pairwise_insertionSort _ _
  · intro u hu v hv
    obtain ⟨x, hx, rfl⟩ := List.mem_map.1 hu
    obtain ⟨y, hy, rfl⟩ := List.mem_map.1 ((List.mem_insertionSort _).1 hv)
    exact hle x hx y hy

theorem Smallest.distances_eq (h : Smallest k all found) (h' : Smallest k all found') :
    found.map (·.2) = found'.map (·.2) := by
  obtain ⟨rest, hperm, hsorted⟩ := h.begins
  obtain ⟨rest', hperm', hsorted'⟩ := h'.begins
  have heq := (hperm.trans hperm'.symm).eq_of_pairwise' hsorted hsorted'
  exact List.append_inj_left heq (by rw [List.length_map, List.length_map, h.length, h'.length])

/-- Where the distances tell the entries apart there is only one list. -/
theorem Smallest.eq (h : Smallest k all found) (h' : Smallest k all found')
    (hinj : ∀ x ∈ all, ∀ y ∈ all, x.2 = y.2 → x = y) : found = found' := by
  have hdist := h.distances_eq h'
  refine List.ext_getElem (h.length.trans h'.length.symm) fun s hs hs' => ?_
  refine hinj _ (h.mem (List.getElem_mem hs)) _ (h'.mem (List.getElem_mem hs')) ?_
  have := congrArg (·[s]?) hdist
  simpa [hs, hs'] using this

/-- The front of a list that is sorted by a key. -/
theorem smallest_take {β : Type} (key : β → α) {xs : List β} (hk : k ≤ xs.length) :
    Smallest k (xs.map fun b => (b, key b))
      (((StableSort.sort (fun a b => key a < key b) xs).take k).map fun b => (b, key b)) := by
  have hperm := StableSort.sort_perm (fun a b => decide (key a < key b)) xs
  have hsorted := StableSort.sort_ascending key xs
  generalize StableSort.sort (fun a b => decide (key a < key b)) xs = sorted at hperm hsorted ⊢
  rw [← List.take_append_drop k sorted] at hsorted
  obtain ⟨htake, -, hle⟩ := List.pairwise_append.1 hsorted
  refine ⟨?_, List.pairwise_map.2 htake, (sorted.drop k).map fun b => (b, key b), ?_, ?_⟩
  · rw [List.length_map, List.length_take, hperm.length_eq]
    omega
  · rw [← List.map_append, List.take_append_drop]
    exact hperm.map _
  · intro x hx y hy
    obtain ⟨b, hb, rfl⟩ := List.mem_map.1 hx
    obtain ⟨c, hc, rfl⟩ := List.mem_map.1 hy
    exact hle b hb c hc

end Proximity
