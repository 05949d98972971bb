import Proximity.Proofs.Exact

/-!
# Comparisons of rounded numbers

What the algorithms may rely on when they compare rounded numbers: those that are not below
infinity are on the left of no comparison that holds, and the others are ordered up to numbers that
compare as equal. `RoundedOrder` says so. Machine numbers of both sizes are compared by class, sign,
exponent and mantissa, `MachineNumber.rank`, and so have these laws; a value that is not a number is on
neither side of a comparison that holds. Without such values they are `TotallyOrdered`.

`Extended.Endless x` says that no sum with `x` is below infinity, as is true of infinity itself.
-/

namespace Proximity

/-- The comparisons of a number type with values that are not numbers. -/
class RoundedOrder (α : Type) [LT α] [BEq α] [Scalar α] : Prop where
  /-- Infinity and what is no number are less than nothing. -/
  bounded_of_lt {x y : α} : x < y → Scalar.bounded x
  asymm {x y : α} : x < y → ¬ y < x
  /-- A number lies below the upper or above the lower of two others. -/
  lt_or_lt {x z : α} (y : α) : Scalar.bounded y → x < z → x < y ∨ y < z
  /-- Numbers are equal where neither is less. -/
  beq_iff {x y : α} : Scalar.bounded x → Scalar.bounded y → (x == y ↔ ¬ x < y ∧ ¬ y < x)

namespace Extended

variable {α : Type} [LT α] [DecidableLT α] [BEq α] [Scalar α] [RoundedOrder α] {x y z : Extended α}

theorem below_of_lt (h : x.lt y) : x.lt none := by
  match x, y, h with
  | some _, some _, h => exact RoundedOrder.bounded_of_lt (of_decide_eq_true h)
  | some _, none, h => exact h

theorem lt_asymm (h : x.lt y) : y.lt x = false := by
  match x, y, h with
  | some _, some _, h =>
    exact decide_eq_false (RoundedOrder.asymm (of_decide_eq_true h))
  | some _, none, _ => rfl

theorem lt_irrefl (x : Extended α) : x.lt x = false :=
  Bool.eq_false_iff.2 fun h => Bool.false_ne_true ((lt_asymm h).symm.trans h)

theorem lt_or_lt (hy : y.lt none) (h : x.lt z) : x.lt y ∨ y.lt z := by
  match x, y, z, hy, h with
  | some _, some y, some _, hy, h =>
    simp only [lt_some_some, decide_eq_true_eq] at h ⊢
    exact RoundedOrder.lt_or_lt y hy h
  | some _, some _, none, hy, _ => exact Or.inr hy

/-- Sums below infinity and infinity are the same where neither is less. -/
theorem same_iff (hx : x = none ∨ x.lt none) (hy : y = none ∨ y.lt none) :
    x.same y ↔ x.lt y = false ∧ y.lt x = false := by
  match x, y, hx, hy with
  | none, none, _, _ => simp [same]
  | none, some _, _, hy => simpa [same] using hy
  | some _, none, hx, _ => simpa [same] using hx
  | some x, some y, hx, hy =>
    have := RoundedOrder.beq_iff (hx.resolve_left nofun) (hy.resolve_left nofun)
    simpa [same] using this

theorem lt_trans (hxy : x.lt y) (hyz : y.lt z) : x.lt z :=
  (lt_or_lt (below_of_lt hxy) hyz).resolve_left (by simp [lt_asymm hxy])

end Extended

/-! ## Numbers without exceptions -/

section Total

variable {α : Type}

/-- Among the numbers with a property `<` is the strict part of a total preorder. -/
structure TotallyOrdered [LT α] (P : α → Prop) : Prop where
  asymm : ∀ x y, P x → P y → x < y → ¬ y < x
  trans : ∀ x y z, P x → P y → P z → ¬ y < x → ¬ z < y → ¬ z < x

theorem TotallyOrdered.irrefl [LT α] {P : α → Prop} (h : TotallyOrdered P) (x : α) (hx : P x) :
    ¬ x < x := fun hlt => h.asymm x x hx hx hlt hlt

theorem TotallyOrdered.mono [LT α] {P Q : α → Prop} (h : TotallyOrdered P) (hQ : ∀ x, Q x → P x) :
    TotallyOrdered Q where
  asymm x y hx hy := h.asymm x y (hQ x hx) (hQ y hy)
  trans x y z hx hy hz := h.trans x y z (hQ x hx) (hQ y hy) (hQ z hz)

/-- Numbers that are totally ordered are compared as their classes of equal numbers are, which are
linearly ordered. -/
theorem TotallyOrdered.exists_rank [LT α] {P : α → Prop} (h : TotallyOrdered P) :
    ∃ (β : Type) (_ : LinearOrder β) (rank : α → β), ∀ x y, P x → P y → (x < y ↔ rank x < rank y) := by
  classical
  let _ : Preorder {x // P x} :=
    { le := fun x y => ¬ y.1 < x.1
      lt := fun x y => x.1 < y.1
      le_refl := fun x => h.irrefl x.1 x.2
      le_trans := fun x y z => h.trans x.1 y.1 z.1 x.2 y.2 z.2
      lt_iff_le_not_ge := fun x y =>
        ⟨fun hlt => ⟨h.asymm _ _ x.2 y.2 hlt, not_not.2 hlt⟩, fun hle => not_not.1 hle.2⟩ }
  have total : Std.Total fun x y : {x // P x} => x ≤ y :=
    ⟨fun x y => or_iff_not_imp_left.2 fun hxy => h.asymm _ _ y.2 x.2 (not_not.1 hxy)⟩
  let rank (x : α) : WithBot (Antisymmetrization {x // P x} (· ≤ ·)) :=
    if hx : P x then (toAntisymmetrization (· ≤ ·) ⟨x, hx⟩ : Antisymmetrization {x // P x} (· ≤ ·))
    else ⊥
  refine ⟨_, inferInstance, rank, fun x y hx hy => ?_⟩
  simp only [rank, dif_pos hx, dif_pos hy, WithBot.coe_lt_coe]
  exact (@toAntisymmetrization_lt_toAntisymmetrization_iff {x // P x} ⟨x, hx⟩ ⟨y, hy⟩ _).symm

end Total

/-! ## Exact arithmetic -/

/-- Real numbers are all below infinity. -/
instance [RealFormat] : RoundedOrder ℝ where
  bounded_of_lt _ := rfl
  asymm := lt_asymm
  lt_or_lt {x z} y _ h := (lt_or_ge x y).imp id fun hyx => hyx.trans_lt h
  beq_iff {x y} _ _ := by
    rw [beq_iff_eq, not_lt, not_lt]
    exact ⟨fun h => ⟨h.ge, h.le⟩, fun h => le_antisymm h.2 h.1⟩

/-! ## Machine numbers -/

open Float.Model (UnpackedFloat)

namespace MachineNumber

/-- Class, exponent and mantissa of a machine number, larger for larger numbers. -/
def rank : UnpackedFloat → ℤ ×ₗ ℤ ×ₗ ℤ
  | .infinity .negative => toLex (-2, toLex (0, 0))
  | .finite .negative mantissa exponent _ => toLex (-1, toLex (-exponent, -mantissa))
  | .zero _ => toLex (0, toLex (0, 0))
  | .finite .positive mantissa exponent _ => toLex (1, toLex (exponent, mantissa))
  | .infinity .positive => toLex (2, toLex (0, 0))
  | .notANumber => toLex (3, toLex (0, 0))

/-- A comparison holds between numbers whose ranks compare so. -/
theorem lt_iff_rank (x y : UnpackedFloat) :
    x.lt y ↔ x ≠ .notANumber ∧ y ≠ .notANumber ∧ rank x < rank y := by
  -- the class decides, unless both are finite and of one sign
  rcases x with (_ | _) | _ | _ | ⟨_ | _, m, e, hm⟩ <;>
    rcases y with (_ | _) | _ | _ | ⟨_ | _, m', e', hm'⟩ <;>
    simp [UnpackedFloat.lt, UnpackedFloat.compare, rank, Prod.Lex.toLex_lt_toLex,
      Ordering.then_eq_gt, Ordering.then_eq_lt, compare_lt_iff_lt, compare_gt_iff_gt]
  all_goals rfl

theorem beq_iff_rank (x y : UnpackedFloat) :
    x.beq y ↔ x ≠ .notANumber ∧ y ≠ .notANumber ∧ rank x = rank y := by
  rcases x with (_ | _) | _ | _ | ⟨_ | _, m, e, hm⟩ <;>
    rcases y with (_ | _) | _ | _ | ⟨_ | _, m', e', hm'⟩ <;>
    simp [UnpackedFloat.beq, UnpackedFloat.compare, rank, Ordering.then_eq_eq]
  all_goals rfl

theorem rank_le_infinity {x : UnpackedFloat} (h : x ≠ .notANumber) :
    rank x ≤ rank (.infinity .positive) := by
  rcases x with (_ | _) | _ | _ | ⟨_ | _, m, e, hm⟩ <;>
    simp_all [rank, Prod.Lex.toLex_le_toLex]

/-- A number type that is compared as machine numbers are has their laws. -/
theorem roundedOrder {α : Type} [LT α] [BEq α] [Scalar α] (unpack : α → UnpackedFloat)
    (lt_iff : ∀ x y, x < y ↔ (unpack x).lt (unpack y))
    (beq_eq : ∀ x y, (x == y) = (unpack x).beq (unpack y))
    (bounded_eq : ∀ x : α, Scalar.bounded x = (unpack x).lt (.infinity .positive)) :
    RoundedOrder α where
  bounded_of_lt {x y} h := by
    rw [lt_iff, lt_iff_rank] at h
    rw [bounded_eq, lt_iff_rank]
    exact ⟨h.1, nofun, h.2.2.trans_le (rank_le_infinity h.2.1)⟩
  asymm {x y} h h' := by
    rw [lt_iff, lt_iff_rank] at h h'
    exact lt_asymm h.2.2 h'.2.2
  lt_or_lt {x z} y hy h := by
    rw [bounded_eq, lt_iff_rank] at hy
    rw [lt_iff, lt_iff_rank] at h
    rw [lt_iff, lt_iff, lt_iff_rank, lt_iff_rank]
    rcases lt_or_ge (rank (unpack x)) (rank (unpack y)) with hxy | hyx
    · exact Or.inl ⟨h.1, hy.1, hxy⟩
    · exact Or.inr ⟨hy.1, h.2.1, hyx.trans_lt h.2.2⟩
  beq_iff {x y} hx hy := by
    rw [bounded_eq, lt_iff_rank] at hx hy
    rw [beq_eq, beq_iff_rank, lt_iff, lt_iff, lt_iff_rank, lt_iff_rank]
    constructor
    · intro ⟨_, _, heq⟩
      exact ⟨fun h => h.2.2.ne heq, fun h => h.2.2.ne heq.symm⟩
    · intro ⟨hle, hge⟩
      refine ⟨hx.1, hy.1, le_antisymm ?_ ?_⟩
      · exact not_lt.1 fun h => hge ⟨hy.1, hx.1, h⟩
      · exact not_lt.1 fun h => hle ⟨hx.1, hy.1, h⟩

/-- What is a number is totally ordered. -/
theorem totallyOrdered {α : Type} [LT α] (unpack : α → UnpackedFloat)
    (lt_iff : ∀ x y, x < y ↔ (unpack x).lt (unpack y)) :
    TotallyOrdered fun x => (unpack x).isNaN = false := by
  have compared (x y : α) (hx : (unpack x).isNaN = false) (hy : (unpack y).isNaN = false) :
      x < y ↔ rank (unpack x) < rank (unpack y) := by
    have ne {u : UnpackedFloat} (hu : u.isNaN = false) : u ≠ .notANumber := fun h => by
      rw [h] at hu
      cases hu
    rw [lt_iff, lt_iff_rank]
    exact ⟨fun h => h.2.2, fun h => ⟨ne hx, ne hy, h⟩⟩
  constructor
  · intro x y hx hy
    rw [compared x y hx hy, compared y x hy hx]
    exact lt_asymm
  · intro x y z hx hy hz
    rw [compared y x hy hx, compared z y hz hy, compared z x hz hx, not_lt, not_lt, not_lt]
    exact le_trans

/-- What is added to infinity ends there, or is no number. -/
theorem add_infinity (spec : Float.Model.Format) (x : UnpackedFloat) :
    x.add spec (.infinity .positive) = .infinity .positive ∨
      x.add spec (.infinity .positive) = .notANumber := by
  rcases x with (_ | _) | _ | _ | _
  · exact Or.inr rfl
  · exact Or.inl rfl
  · exact Or.inr rfl
  · exact Or.inl rfl
  · exact Or.inl rfl

end MachineNumber

/-! ### Eight bytes -/

theorem Float.lt_iff_unpack (x y : Float) : x < y ↔ x.toModel.unpack.lt y.toModel.unpack :=
  decide_eq_true_iff

theorem Float.unpack_infinity : (1.0 / 0.0 : Float).toModel.unpack = .infinity .positive := rfl

theorem Float.bounded_eq (x : Float) :
    Scalar.bounded x = x.toModel.unpack.lt (.infinity .positive) := by
  rw [← unpack_infinity, Bool.eq_iff_iff, ← lt_iff_unpack]
  exact decide_eq_true_iff

instance : RoundedOrder Float :=
  MachineNumber.roundedOrder (·.toModel.unpack) Float.lt_iff_unpack (fun _ _ => rfl) Float.bounded_eq

theorem Float.totallyOrdered : TotallyOrdered fun x : Float => x.isNaN = false :=
  MachineNumber.totallyOrdered (fun x : Float => x.toModel.unpack) Float.lt_iff_unpack

/-! ### Four bytes -/

theorem Float32.lt_iff_unpack (x y : Float32) : x < y ↔ x.toModel.unpack.lt y.toModel.unpack :=
  decide_eq_true_iff

theorem Float32.unpack_infinity : (1.0 / 0.0 : Float32).toModel.unpack = .infinity .positive := rfl

theorem Float32.bounded_eq (x : Float32) :
    Scalar.bounded x = x.toModel.unpack.lt (.infinity .positive) := by
  rw [← unpack_infinity, Bool.eq_iff_iff, ← lt_iff_unpack]
  exact decide_eq_true_iff

instance : RoundedOrder Float32 :=
  MachineNumber.roundedOrder (·.toModel.unpack) Float32.lt_iff_unpack (fun _ _ => rfl)
    Float32.bounded_eq

theorem Float32.totallyOrdered : TotallyOrdered fun x : Float32 => x.isNaN = false :=
  MachineNumber.totallyOrdered (fun x : Float32 => x.toModel.unpack) Float32.lt_iff_unpack

/-! ## Sums that are not below infinity -/

namespace Extended

/-- No sum with the value is below infinity. -/
def Endless {α : Type} [Add α] [Scalar α] (x : Extended α) : Prop :=
  ∀ y : α, ∀ s ∈ x.map (y + ·), Scalar.bounded s = false

theorem endless_none {α : Type} [Add α] [Scalar α] : Endless (none : Extended α) := fun _ _ => nofun

theorem endless_infinity : Endless (some (1.0 / 0.0 : Float)) := by
  rintro x _ ⟨⟩
  have hsum : (x + 1.0 / 0.0).toModel =
      .pack (x.toModel.unpack.add .binary64 (.infinity .positive)) := by
    rw [← Float.unpack_infinity]
    rfl
  rw [Float.bounded_eq, hsum]
  rcases MachineNumber.add_infinity .binary64 x.toModel.unpack with h | h <;> rw [h] <;> rfl

end Extended

end Proximity
