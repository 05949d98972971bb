import Proximity.Proofs.Layouts
import Proximity.Proofs.Words

/-!
# How long a buffer has to be

A matrix is read from a buffer after three checks: that it has rows and columns, that a line is no longer
than the distance between lines, and that the buffer holds the span of the matrix. The span is computed in
words. Where it is a word the checks say what they are meant to say. Where it is none, a machine that
checks its arithmetic stops, and one that does not compares the length with the low 64 bits of the span;
no matrix is read either, but the refusal names another length, or no length at all.

1. `spanBy` and `readStridedBy`: the span and the checks on a machine; `readStridedBy_wrapping` and
   `readStridedBy_checked`.
2. `readStrided_eq_ok`: the buffers that are accepted.
3. `readStrided_refusals` and `readStrided_span_wraps`.
-/

namespace Proximity

variable {α : Type}

/-! ## On a machine -/

/-- The span of a matrix as a machine computes it. -/
def spanBy (A : SizeArithmetic) (stride lines lineLength : ℕ) : Option ℕ := do
  let before ← A.sub lines 1
  let offset ← A.mul before stride
  A.add offset lineLength

section Span

variable {stride lines lineLength : ℕ} (hpos : 0 < lines)

include hpos

theorem spanBy_wrapping : spanBy .wrapping stride lines lineLength =
    some (Memory.wrap (span stride lines lineLength)) := by
  rw [spanBy, SizeArithmetic.sub_exact _ hpos]
  exact SizeArithmetic.wrapping_add_wrap _ _

theorem spanBy_checked : spanBy .checked stride lines lineLength =
    if span stride lines lineLength < UInt64.size then some (span stride lines lineLength)
    else none := by
  rw [spanBy, SizeArithmetic.sub_exact _ hpos, Option.bind_eq_bind, Option.bind_some]
  by_cases hproduct : (lines - 1) * stride < UInt64.size
  · rw [SizeArithmetic.mul_exact _ hproduct]
    rfl
  · -- the product is a part of the span
    have hspan : ¬ span stride lines lineLength < UInt64.size := by unfold span; omega
    rw [SizeArithmetic.checked_mul_eq_none (not_lt.1 hproduct), if_neg hspan]
    rfl

end Span

section Read

variable [Scalar α] (buffer : Array α) (r c stride : ℕ) (o : Order)

/-- The `r × c` matrix in a buffer whose lines start `stride` slots apart, with the checks as a machine
makes them; nothing where the machine stops. -/
def readStridedBy (A : SizeArithmetic) : Option (Checked (Grid α)) :=
  if r = 0 ∨ c = 0 then some (.error (.invalid (.emptyShape r c)))
  else if stride < o.lineLength r c then
    some (.error (.tooShort (o.lineLength r c) (.stride stride (o.lineLength r c))))
  else (spanBy A stride (o.lines r c) (o.lineLength r c)).map fun required =>
    if buffer.size < required then .error (.tooShort required (.storage buffer.size))
    else viewStrided buffer r c stride o

variable {buffer r c stride o}

theorem Order.lines_pos (o : Order) (hr : 0 < r) (hc : 0 < c) : 0 < o.lines r c := by
  cases o <;> assumption

/-- A machine that does not check its arithmetic reads as `readStrided` says. -/
theorem readStridedBy_wrapping :
    readStridedBy buffer r c stride o .wrapping = some (readStrided buffer r c stride o) := by
  unfold readStridedBy
  split
  next hshape => rw [readStrided_empty hshape]
  next hshape =>
    obtain ⟨hr, hc⟩ : 0 < r ∧ 0 < c := by omega
    split
    next hshort => rw [readStrided_stride hr hc hshort]
    next hstride =>
      rw [spanBy_wrapping (o.lines_pos hr hc),
        readStrided_storage hr hc (not_lt.1 hstride)]
      rfl

/-- A machine that checks its arithmetic does the same, unless it computes a span that is no word. -/
theorem readStridedBy_checked :
    readStridedBy buffer r c stride o .checked =
      if 0 < r ∧ 0 < c ∧ o.lineLength r c ≤ stride ∧
        UInt64.size ≤ span stride (o.lines r c) (o.lineLength r c) then none
      else some (readStrided buffer r c stride o) := by
  unfold readStridedBy
  split
  next hshape => rw [if_neg (by omega), readStrided_empty hshape]
  next hshape =>
    obtain ⟨hr, hc⟩ : 0 < r ∧ 0 < c := by omega
    split
    next hshort => rw [if_neg (by omega), readStrided_stride hr hc hshort]
    next hstride =>
      rw [spanBy_checked (o.lines_pos hr hc)]
      by_cases hword : span stride (o.lines r c) (o.lineLength r c) < UInt64.size
      · rw [if_pos hword, if_neg (by omega), readStrided_storage hr hc (not_lt.1 hstride),
          Memory.wrap_of_lt hword]
        rfl
      · rw [if_neg hword, if_pos ⟨hr, hc, not_lt.1 hstride, not_lt.1 hword⟩]
        rfl

/-! ## What is accepted -/

/-- A matrix is read exactly where there are rows and columns, a line fits between the starts of two, and
the buffer holds the span. -/
theorem readStrided_eq_ok :
    (∃ g, readStrided buffer r c stride o = .ok g) ↔
      0 < r ∧ 0 < c ∧ o.lineLength r c ≤ stride ∧
        span stride (o.lines r c) (o.lineLength r c) ≤ buffer.size := by
  constructor
  · rintro ⟨g, hg⟩
    by_cases hshape : r = 0 ∨ c = 0
    · rw [readStrided_empty hshape] at hg
      cases hg
    obtain ⟨hr, hc⟩ : 0 < r ∧ 0 < c := by omega
    by_cases hstride : o.lineLength r c ≤ stride
    · rw [readStrided_storage hr hc hstride] at hg
      split at hg
      next => cases hg
      next =>
        unfold viewStrided at hg
        split at hg
        next hlong => exact ⟨hr, hc, hstride, hlong⟩
        next => cases hg
    · rw [readStrided_stride hr hc (not_le.1 hstride)] at hg
      cases hg
  · rintro ⟨hr, hc, hstride, hlong⟩
    obtain ⟨M, -, hread⟩ := readStrided_long hr hc hstride hlong
    exact ⟨_, hread⟩

/-- A buffer that is too short for a span that is no word is refused with the low bits of the span, if it
is too short for these as well. -/
theorem readStrided_wrapped (hr : 0 < r) (hc : 0 < c) (hstride : o.lineLength r c ≤ stride)
    (hshort : buffer.size < span stride (o.lines r c) (o.lineLength r c)) :
    let required := Memory.wrap (span stride (o.lines r c) (o.lineLength r c))
    readStrided buffer r c stride o =
      if buffer.size < required then .error (.tooShort required (.storage buffer.size))
      else .error (.invalid (.layout
        (layoutFault (Scalar.bytes α) stride (o.lines r c) (o.lineLength r c)))) := by
  intro required
  have hview : viewStrided buffer r c stride o = .error (.invalid (.layout
      (layoutFault (Scalar.bytes α) stride (o.lines r c) (o.lineLength r c)))) :=
    dif_neg (not_le.2 hshort)
  rw [readStrided_storage hr hc hstride, hview]

/-- Reading a matrix from a buffer, on a machine that does not check its arithmetic and on one that does:
what is accepted, and with what error all else is refused. -/
theorem readStrided_refusals (buffer : Array α) (r c stride : ℕ) (o : Order) :
    let required := span stride (o.lines r c) (o.lineLength r c)
    let read := readStrided buffer r c stride o
    readStridedBy buffer r c stride o .wrapping = some read ∧
    readStridedBy buffer r c stride o .checked =
      (if 0 < r ∧ 0 < c ∧ o.lineLength r c ≤ stride ∧ UInt64.size ≤ required then none
      else some read) ∧
    ((∃ g, read = .ok g) ↔
      0 < r ∧ 0 < c ∧ o.lineLength r c ≤ stride ∧ required ≤ buffer.size) ∧
    (∀ g, read = .ok g → ∃ M : Matrix α r c, Lays buffer stride o M ∧ g = Grid.ofMatrix M) ∧
    (r = 0 ∨ c = 0 → read = .error (.invalid (.emptyShape r c))) ∧
    (0 < r → 0 < c → stride < o.lineLength r c →
      read = .error (.tooShort (o.lineLength r c) (.stride stride (o.lineLength r c)))) ∧
    (0 < r → 0 < c → o.lineLength r c ≤ stride → buffer.size < required →
      read =
        if required < UInt64.size then .error (.tooShort required (.storage buffer.size))
        else if buffer.size < Memory.wrap required then
          .error (.tooShort (Memory.wrap required) (.storage buffer.size))
        else .error (.invalid (.layout
          (layoutFault (Scalar.bytes α) stride (o.lines r c) (o.lineLength r c))))) := by
  intro required read
  refine ⟨readStridedBy_wrapping, readStridedBy_checked, readStrided_eq_ok, ?_,
    readStrided_empty, readStrided_stride, ?_⟩
  · intro g hg
    obtain ⟨hr, hc, hstride, hlong⟩ := readStrided_eq_ok.1 ⟨g, hg⟩
    obtain ⟨M, hM, hread⟩ := readStrided_long hr hc hstride hlong
    exact ⟨M, hM, Except.ok.inj (hg.symm.trans hread)⟩
  · intro hr hc hstride hshort
    by_cases hword : required < UInt64.size
    · rw [if_pos hword]
      exact readStrided_short hr hc hstride hword hshort
    · rw [if_neg hword]
      exact readStrided_wrapped hr hc hstride hshort

end Read

-- two lines of three entries, four slots apart, in a buffer of six
example : readStridedBy (#[0, 1, 2, 3, 4, 5] : Array Float) 3 2 4 .columnMajor .checked =
    some (.error (.tooShort 7 (.storage 6))) := rfl

/-- Three columns that lie half the address space apart span one slot more than there are words: the span
wraps to one, which a buffer of one slot holds. It is not refused as too short. -/
theorem readStrided_span_wraps :
    let buffer : Array Float := #[0]
    let stride := 2 ^ 63
    Order.columnMajor.lineLength 1 3 ≤ stride ∧ stride < UInt64.size ∧
    span stride 3 1 = UInt64.size + 1 ∧ buffer.size < span stride 3 1 ∧
    readStridedBy buffer 1 3 stride .columnMajor .checked = none ∧
    readStrided buffer 1 3 stride .columnMajor = .error (.invalid (.layout .overflow)) := by
  intro buffer stride
  have hfault : layoutFault (Scalar.bytes Float) stride (Order.columnMajor.lines 1 3)
      (Order.columnMajor.lineLength 1 3) = .overflow := by decide +kernel
  refine ⟨by decide, by decide, by decide, by decide, ?_, ?_⟩
  · rw [readStridedBy_checked]
    rfl
  · rw [readStrided_wrapped (by decide) (by decide) (by decide) (by decide), if_neg (by decide),
      hfault]

end Proximity
