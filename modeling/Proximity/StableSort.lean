/-!
# Stable sorting

Lists are sorted by a comparison that need not be an order: a value that is not a number is less than
nothing and nothing is less than it. Short lists are sorted by insertion, so that the outcome is
definite even then: an entry moves in front of those before it until one is met that it is not less
than. Long lists are sorted by merging.

Main statements: `sort_perm` says that no entry is lost, and `pairwise_sort` that the outcome ascends
where the comparison is a total preorder.
-/

namespace Proximity.StableSort

variable {β : Type} (less : β → β → Bool)

/-- An entry put before the entries at the end of a list that it is less than. The list is given from
its last entry to its first. -/
def insertLast (x : β) : List β → List β
  | [] => [x]
  | y :: ys => if less x y then y :: insertLast x ys else x :: y :: ys

/-- The entries put in one after another. -/
def byInsertion (xs : List β) : List β :=
  (xs.foldl (fun sorted x => insertLast less x sorted) []).reverse

/-- The most entries that are sorted by insertion. -/
def insertionLimit : Nat := 20

/-- The entries of a list in ascending order, equal ones as they were. -/
def sort (xs : List β) : List β :=
  if xs.length ≤ insertionLimit then byInsertion less xs else xs.mergeSort fun a b => !less b a

/-! ## No entry is lost -/

theorem insertLast_perm (x : β) (ys : List β) : (insertLast less x ys).Perm (x :: ys) := by
  induction ys with
  | nil => exact .refl _
  | cons y ys ih =>
    simp only [insertLast]
    split
    · exact (ih.cons y).trans (.swap x y ys)
    · exact .refl _

theorem foldl_insertLast_perm (xs sorted : List β) :
    (xs.foldl (fun sorted x => insertLast less x sorted) sorted).Perm (xs ++ sorted) := by
  induction xs generalizing sorted with
  | nil => exact .refl _
  | cons x xs ih =>
    exact (ih _).trans (((insertLast_perm less x sorted).append_left xs).trans List.perm_middle)

theorem byInsertion_perm (xs : List β) : (byInsertion less xs).Perm xs := by
  have h := foldl_insertLast_perm less xs []
  rw [List.append_nil] at h
  exact (List.reverse_perm _).trans h

theorem sort_perm (xs : List β) : (sort less xs).Perm xs := by
  unfold sort
  split
  · exact byInsertion_perm less xs
  · exact List.mergeSort_perm _ _

/-! ## Only comparisons of entries count -/

theorem insertLast_congr {less less' : β → β → Bool} (x : β) {ys : List β}
    (h : ∀ y ∈ ys, less x y = less' x y) : insertLast less x ys = insertLast less' x ys := by
  induction ys with
  | nil => rfl
  | cons y ys ih =>
    rw [insertLast, insertLast, h y List.mem_cons_self,
      ih fun z hz => h z (List.mem_cons_of_mem y hz)]

theorem foldl_insertLast_congr {less less' : β → β → Bool} {xs sorted : List β}
    (h : ∀ a ∈ xs ++ sorted, ∀ b ∈ xs ++ sorted, less a b = less' a b) :
    xs.foldl (fun sorted x => insertLast less x sorted) sorted =
      xs.foldl (fun sorted x => insertLast less' x sorted) sorted := by
  induction xs generalizing sorted with
  | nil => rfl
  | cons x xs ih =>
    have hx : insertLast less x sorted = insertLast less' x sorted :=
      insertLast_congr x fun y hy => h x (by simp) y (by simp [hy])
    have hmem {a : β} (ha : a ∈ xs ++ insertLast less' x sorted) : a ∈ x :: xs ++ sorted := by
      rcases List.mem_append.1 ha with ha | ha
      · simp [ha]
      · have := (insertLast_perm less' x sorted).mem_iff.1 ha
        rcases List.mem_cons.1 this with rfl | ha
        · simp
        · simp [ha]
    rw [List.foldl_cons, List.foldl_cons, hx]
    exact ih fun a ha b hb => h a (hmem ha) b (hmem hb)

/-- Two comparisons that agree on the entries of a list sort it alike. -/
theorem sort_congr {less less' : β → β → Bool} {xs : List β}
    (h : ∀ a ∈ xs, ∀ b ∈ xs, less a b = less' a b) : sort less xs = sort less' xs := by
  unfold sort
  split
  · rw [byInsertion, byInsertion, foldl_insertLast_congr (by simpa using h)]
  · have hmerge := List.map_mergeSort (f := id) (r := fun a b => !less b a)
      (s := fun a b => !less' b a) (l := xs) fun a ha b hb => by rw [h b hb a ha]; rfl
    rwa [List.map_id, List.map_id] at hmerge

/-! ## The outcome ascends -/

section Preorder

variable {less}
  (total : ∀ a b, less a b = true → less b a = false)
  (trans : ∀ a b c, less b a = false → less c b = false → less c a = false)
include total trans

theorem pairwise_insertLast (x : β) {ys : List β} (h : ys.Pairwise fun a b => less a b = false) :
    (insertLast less x ys).Pairwise fun a b => less a b = false := by
  induction ys with
  | nil => exact List.pairwise_singleton _ _
  | cons y ys ih =>
    rw [List.pairwise_cons] at h
    simp only [insertLast]
    split
    · rename_i hxy
      refine List.pairwise_cons.2 ⟨fun z hz => ?_, ih h.2⟩
      rcases List.mem_cons.1 ((insertLast_perm less x ys).mem_iff.1 hz) with rfl | hz
      · exact total _ _ hxy
      · exact h.1 z hz
    · rename_i hxy
      have hxy : less x y = false := by simpa using hxy
      refine List.pairwise_cons.2 ⟨fun z hz => ?_, List.pairwise_cons.2 h⟩
      rcases List.mem_cons.1 hz with rfl | hz
      · exact hxy
      · exact trans z y x (h.1 z hz) hxy

theorem pairwise_foldl_insertLast (xs : List β) {sorted : List β}
    (h : sorted.Pairwise fun a b => less a b = false) :
    (xs.foldl (fun sorted x => insertLast less x sorted) sorted).Pairwise
      fun a b => less a b = false := by
  induction xs generalizing sorted with
  | nil => exact h
  | cons x xs ih => exact ih (pairwise_insertLast total trans x h)

theorem pairwise_sort (xs : List β) : (sort less xs).Pairwise fun a b => less b a = false := by
  unfold sort
  split
  · exact List.pairwise_reverse.2 (pairwise_foldl_insertLast total trans xs List.Pairwise.nil)
  · have h := @List.pairwise_mergeSort β (fun a b => !less b a)
      (fun a b c => by simpa using trans a b c)
      (fun a b => by
        cases hab : less b a with
        | false => simp
        | true => simp [total _ _ hab]) xs
    exact h.imp fun h => by simpa using h

end Preorder

end Proximity.StableSort
