import Mathlib
import Proximity.Extended
import Proximity.Point

/-!
# Exact arithmetic

The real numbers as scalars. What exact arithmetic leaves open about a number type, its size in
storage, its largest number and its readings as decimals and machine numbers, is a `RealFormat`; all
else is that of `ℝ`, and every real number is bounded.

1. `scalarReal`: the instance, and what its operations are.
2. `sumOver_eq_sum`: sums from left to right are sums.
3. `foldl_invariant`, `foldl_list_invariant`: what every step of a loop keeps holds after it.
4. `mapM_ok`: a loop over a vector that never fails.
-/

namespace Proximity

/-- What exact arithmetic leaves open about a number type. -/
class RealFormat where
  bytes : ℕ
  bytes_eq : bytes = 4 ∨ bytes = 8
  ofFloat : Float → ℝ
  toFloat : ℝ → Float
  largest : ℝ
  decimal : ℝ → Decimal

/-- Eight-byte numbers that are read as zero. -/
@[reducible] def RealFormat.plain : RealFormat where
  bytes := 8
  bytes_eq := Or.inr rfl
  ofFloat _ := 0
  toFloat _ := 0
  largest := 0
  decimal _ := Decimal.ofBits .double 0

noncomputable section

variable [RealFormat]

/-- The real numbers as scalars. -/
instance scalarReal : Scalar ℝ where
  bytes := RealFormat.bytes
  ofNat n := n
  ofFloat := RealFormat.ofFloat
  toFloat := RealFormat.toFloat
  sqrt := Real.sqrt
  abs x := |x|
  pow x y := x ^ y
  max := max
  min := min
  bounded _ := true
  largest := RealFormat.largest
  decimal := RealFormat.decimal

@[simp] theorem scalar_ofNat (n : ℕ) : (Scalar.ofNat n : ℝ) = n := rfl

theorem scalar_zero : (Scalar.zero : ℝ) = 0 := Nat.cast_zero

theorem scalar_one : (Scalar.one : ℝ) = 1 := Nat.cast_one

@[simp] theorem scalar_sqrt (x : ℝ) : Scalar.sqrt x = √x := rfl

@[simp] theorem scalar_abs (x : ℝ) : Scalar.abs x = |x| := rfl

@[simp] theorem scalar_pow (x y : ℝ) : Scalar.pow x y = x ^ y := rfl

@[simp] theorem scalar_max (x y : ℝ) : Scalar.max x y = max x y := rfl

@[simp] theorem scalar_min (x y : ℝ) : Scalar.min x y = min x y := rfl

@[simp] theorem scalar_bounded (x : ℝ) : Scalar.bounded x = true := rfl

theorem scalar_bytes : Scalar.bytes ℝ = 4 ∨ Scalar.bytes ℝ = 8 := RealFormat.bytes_eq

/-! ## Sums and loops -/

omit [RealFormat] in
/-- A reading to which every step of a loop adds a term ends at the sum of the terms. -/
theorem foldl_add {β M : Type*} [AddCommMonoid M] {n : ℕ} (π : β → M) {f : β → Fin n → β}
    (g : Fin n → M) (step : ∀ b i, π (f b i) = π b + g i) (b : β) :
    π (Fin.foldl n f b) = π b + ∑ i, g i := by
  induction n with
  | zero => simp
  | succ n ih =>
    rw [Fin.foldl_succ_last, step, ih (fun i => g i.castSucc) fun b i => step b i.castSucc,
      Fin.sum_univ_castSucc, add_assoc]

/-- A sum from left to right is the sum. -/
theorem sumOver_eq_sum {n : ℕ} (f : Fin n → ℝ) : sumOver n f = ∑ i, f i :=
  calc sumOver n f = Scalar.zero + ∑ i, f i := foldl_add id f (fun _ _ => rfl) Scalar.zero
    _ = ∑ i, f i := by rw [scalar_zero, zero_add]

omit [RealFormat] in
/-- What holds before the first index and is kept from each index to the next holds at the end. -/
theorem foldl_invariant {β : Type*} {n : ℕ} {f : β → Fin n → β} (P : ℕ → β → Prop) {b : β}
    (start : P 0 b) (step : ∀ (i : Fin n) (b : β), P i b → P (i + 1) (f b i)) :
    P n (Fin.foldl n f b) := by
  induction n with
  | zero => simpa using start
  | succ n ih =>
    rw [Fin.foldl_succ_last]
    exact step (Fin.last n) _ (ih fun i b h => step i.castSucc b h)

omit [RealFormat] in
/-- What each step of a loop keeps and adds its own element to holds of all elements at the end. -/
theorem foldl_list_invariant {β γ : Type*} {f : β → γ → β} (P : β → Prop) (Q : γ → β → Prop)
    (step : ∀ b x, P b → P (f b x) ∧ Q x (f b x) ∧ ∀ y, Q y b → Q y (f b x)) :
    ∀ (l : List γ) (b : β), P b → P (l.foldl f b) ∧ (∀ x ∈ l, Q x (l.foldl f b)) ∧
      ∀ y, Q y b → Q y (l.foldl f b) := by
  intro l
  induction l with
  | nil => intro b h; exact ⟨h, by simp, fun _ hy => hy⟩
  | cons x rest ih =>
    intro b h
    obtain ⟨hP, hQ, keep⟩ := step b x h
    obtain ⟨hP', hQ', keep'⟩ := ih (f b x) hP
    refine ⟨hP', fun y hy => ?_, fun y hy => keep' y (keep y hy)⟩
    rcases List.mem_cons.1 hy with rfl | hy
    · exact keep' _ hQ
    · exact hQ' y hy

omit [RealFormat] in
/-- A function that has a result on every entry has one on the vector. -/
theorem mapM_ok {β γ ε : Type} [Inhabited γ] {r : ℕ} (f : β → Except ε γ) (xs : Vector β r)
    (h : ∀ i, ∃ y, f (xs.get i) = .ok y) :
    ∃ ys, xs.mapM f = .ok ys ∧ ∀ i, f (xs.get i) = .ok (ys.get i) := by
  have hread (x : {x // x ∈ xs}) : (f ∘ Subtype.val) x = pure ((f x.1).toOption.getD default) := by
    obtain ⟨i, hi, hx⟩ := Vector.mem_iff_getElem.1 x.2
    obtain ⟨y, hy⟩ := h ⟨i, hi⟩
    rw [Function.comp_apply, ← hx, show xs[i] = xs.get ⟨i, hi⟩ from rfl, hy]
    rfl
  refine ⟨xs.map fun x => (f x).toOption.getD default, ?_, fun i => ?_⟩
  · calc xs.mapM f = xs.attach.mapM (f ∘ Subtype.val) := by
          rw [← Vector.mapM_map, Vector.attach_map_subtype_val]
      _ = pure (xs.attach.map fun x => (f x.1).toOption.getD default) := by
          rw [funext hread, Vector.mapM_pure]
      _ = .ok (xs.map fun x => (f x).toOption.getD default) := by
          rw [Vector.attach_map_val (f := fun x => (f x).toOption.getD default)]
          rfl
  · obtain ⟨y, hy⟩ := h i
    rw [Vector.get_map, hy]
    rfl

end

end Proximity
