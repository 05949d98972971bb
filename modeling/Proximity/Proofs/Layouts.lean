import Proximity.Proofs.Sessions

/-!
# Layouts

A matrix is the same in either order of its buffer, whatever lies between its lines. Reading undoes
writing, a buffer that is too short is refused with the least length that is not, and an engine does not
tell in which order it is given its matrices.

1. `writeAt`: what values written one after another leave in a buffer.
2. `Lays`: a matrix in a strided buffer; `readStrided_of_lays` reads it, `copyOut_spec` writes it.
3. `Stored.columnSlice_entry` and `Stored.rowSlice_entry`: owned buffers as slices.
4. `Engine.inOrder` and `Call.Reordered`: engines and calls that differ in the order of their buffers;
   `Engine.run_inOrder`.
5. `layouts_agree`.
-/

namespace Proximity

variable {α β σ : Type} {r c m : ℕ}

/-! ## Writing -/

theorem writeAt_succ (slot : Fin (m + 1) → ℕ) (value : Fin (m + 1) → β) (out : Array β) :
    writeAt slot value out =
      (writeAt (fun k => slot k.castSucc) (fun k => value k.castSucc) out).setIfInBounds
        (slot (Fin.last m)) (value (Fin.last m)) :=
  Fin.foldl_succ_last _ _

@[simp] theorem size_writeAt (slot : Fin m → ℕ) (value : Fin m → β) (out : Array β) :
    (writeAt slot value out).size = out.size := by
  induction m with
  | zero => rfl
  | succ m ih => rw [writeAt_succ, Array.size_setIfInBounds, ih]

/-- A slot into which nothing is written stays as it was. -/
theorem writeAt_of_ne {slot : Fin m → ℕ} {i : ℕ} (h : ∀ k, slot k ≠ i) (value : Fin m → β)
    (out : Array β) : (writeAt slot value out)[i]? = out[i]? := by
  induction m with
  | zero => rfl
  | succ m ih =>
    rw [writeAt_succ, Array.getElem?_setIfInBounds_ne (h _)]
    exact ih (fun k => h k.castSucc) _

/-- Where no slot is written twice each one holds its value. -/
theorem writeAt_slot {slot : Fin m → ℕ} (hinj : Function.Injective slot) (value : Fin m → β)
    {out : Array β} (k : Fin m) (hk : slot k < out.size) :
    (writeAt slot value out)[slot k]? = some (value k) := by
  induction m with
  | zero => exact k.elim0
  | succ m ih =>
    rw [writeAt_succ]
    cases k using Fin.lastCases with
    | last => exact Array.getElem?_setIfInBounds_self_of_lt (by rwa [size_writeAt])
    | cast k =>
      have hne : slot (Fin.last m) ≠ slot k.castSucc := fun h =>
        absurd (hinj h) (Fin.castSucc_lt_last k).ne'
      rw [Array.getElem?_setIfInBounds_ne hne]
      exact ih (hinj.comp (Fin.castSucc_injective m)) _ k hk

/-! ## Matrices in buffers -/

theorem Matrix.entry_ofFn (f : Fin r → Fin c → α) (i : Fin r) (j : Fin c) :
    (Matrix.ofFn f).entry i j = f i j := Matrix.ofFn_getElem f i.val j.val i.isLt j.isLt

/-- A matrix lies in a buffer whose lines start `stride` slots apart. What lies between the lines does
not matter. -/
structure Lays (buffer : Array α) (stride : ℕ) (o : Order) (M : Matrix α r c) : Prop where
  stride_le : o.lineLength r c ≤ stride
  entry : ∀ i j, buffer[o.line i.val j.val * stride + o.place i.val j.val]? = some (M.entry i j)

/-- A buffer in which a matrix lies holds its span, since it holds the last entry. -/
theorem Lays.span_le {buffer : Array α} {stride : ℕ} {o : Order} {M : Matrix α r c}
    (h : Lays buffer stride o M) (hr : 0 < r) (hc : 0 < c) :
    span stride (o.lines r c) (o.lineLength r c) ≤ buffer.size := by
  obtain ⟨hlast, -⟩ := Array.getElem?_eq_some_iff.1
    (h.entry ⟨r - 1, Nat.sub_lt hr Nat.one_pos⟩ ⟨c - 1, Nat.sub_lt hc Nat.one_pos⟩)
  cases o <;> simp only [Order.line, Order.place] at hlast <;>
    simp only [span, Order.lines, Order.lineLength] <;> omega

theorem slot_lt_size {buffer : Array α} {stride : ℕ} {o : Order}
    (h : span stride (o.lines r c) (o.lineLength r c) ≤ buffer.size) (i : Fin r) (j : Fin c) :
    o.line i j * stride + o.place i j < buffer.size :=
  Nat.lt_of_lt_of_le (slot_lt_span (o.line_lt i.isLt j.isLt) (o.place_lt i.isLt j.isLt)) h

/-- What is made of a buffer that has passed the checks: the matrix that lies in it, or why none does. -/
def viewStrided [Scalar α] (buffer : Array α) (r c stride : ℕ) (o : Order) : Checked (Grid α) :=
  if h : span stride (o.lines r c) (o.lineLength r c) ≤ buffer.size then
    .ok (Grid.ofMatrix (Matrix.ofFn fun (i : Fin r) (j : Fin c) =>
      have := slot_lt_size h i j
      buffer[o.line i j * stride + o.place i j]))
  else .error (.invalid (.layout
    (layoutFault (Scalar.bytes α) stride (o.lines r c) (o.lineLength r c))))

section Read

variable [Scalar α] {buffer : Array α} {stride : ℕ} {o : Order}

theorem readStrided_empty (h : r = 0 ∨ c = 0) :
    readStrided buffer r c stride o = .error (.invalid (.emptyShape r c)) := if_pos h

theorem readStrided_stride (hr : 0 < r) (hc : 0 < c) (h : stride < o.lineLength r c) :
    readStrided buffer r c stride o =
      .error (.tooShort (o.lineLength r c) (.stride stride (o.lineLength r c))) := by
  have hshape : ¬ (r = 0 ∨ c = 0) := by omega
  unfold readStrided
  dsimp only
  rw [if_neg hshape, if_pos h]

/-- With the first two checks passed the length of the buffer is compared with the low bits of the
span. -/
theorem readStrided_storage (hr : 0 < r) (hc : 0 < c) (hstride : o.lineLength r c ≤ stride) :
    let required := Memory.wrap (span stride (o.lines r c) (o.lineLength r c))
    readStrided buffer r c stride o =
      if buffer.size < required then .error (.tooShort required (.storage buffer.size))
      else viewStrided buffer r c stride o := by
  have hshape : ¬ (r = 0 ∨ c = 0) := by omega
  unfold readStrided
  dsimp only
  rw [if_neg hshape, if_neg (not_lt.2 hstride)]
  rfl

/-- A buffer that is too short is refused with the span of the matrix. -/
theorem readStrided_short (hr : 0 < r) (hc : 0 < c) (hstride : o.lineLength r c ≤ stride)
    (hword : span stride (o.lines r c) (o.lineLength r c) < UInt64.size)
    (hshort : buffer.size < span stride (o.lines r c) (o.lineLength r c)) :
    readStrided buffer r c stride o = .error (.tooShort
      (span stride (o.lines r c) (o.lineLength r c)) (.storage buffer.size)) := by
  rw [readStrided_storage hr hc hstride, Memory.wrap_of_lt hword, if_pos hshort]

/-- A buffer that holds the span of a matrix is accepted, and the matrix that lies in it is read. -/
theorem readStrided_long (hr : 0 < r) (hc : 0 < c) (hstride : o.lineLength r c ≤ stride)
    (hlong : span stride (o.lines r c) (o.lineLength r c) ≤ buffer.size) :
    ∃ M : Matrix α r c, Lays buffer stride o M ∧
      readStrided buffer r c stride o = .ok (Grid.ofMatrix M) := by
  have hrequired : ¬ buffer.size < Memory.wrap (span stride (o.lines r c) (o.lineLength r c)) :=
    Nat.not_lt.2 ((Nat.mod_le _ _).trans hlong)
  rw [readStrided_storage hr hc hstride, if_neg hrequired, viewStrided, dif_pos hlong]
  refine ⟨_, ⟨hstride, fun i j => ?_⟩, rfl⟩
  rw [Array.getElem?_eq_getElem, Matrix.entry_ofFn]

end Read

/-- One matrix only lies in a buffer in an order. -/
theorem Lays.unique {buffer : Array α} {stride : ℕ} {o : Order} {M M' : Matrix α r c}
    (h : Lays buffer stride o M) (h' : Lays buffer stride o M') : M = M' := by
  have hentry : M.entry = M'.entry := funext fun i => funext fun j =>
    Option.some.inj ((h.entry i j).symm.trans (h'.entry i j))
  rw [← M.ofFn_entry, hentry, M'.ofFn_entry]

/-- A matrix is read where it lies. -/
theorem readStrided_of_lays [Scalar α] {buffer : Array α} {stride : ℕ} {o : Order}
    {M : Matrix α r c} (h : Lays buffer stride o M) (hr : 0 < r) (hc : 0 < c) :
    readStrided buffer r c stride o = .ok (Grid.ofMatrix M) := by
  obtain ⟨M', hM', hread⟩ := readStrided_long hr hc h.stride_le (h.span_le hr hc)
  rwa [h.unique hM']

theorem Order.cell_injective (o : Order) : Function.Injective (o.cell (r := r) (c := c)) := by
  intro k k' h
  rw [Fin.ext_iff, ← o.slot_cell k, ← o.slot_cell k', h]

theorem Order.slot_injective (o : Order) :
    Function.Injective fun p : Fin r × Fin c => o.slot r c p.1 p.2 := by
  intro p q h
  rw [← Prod.mk.eta (p := p), ← o.cell_slot p.1 p.2, ← Prod.mk.eta (p := q), ← o.cell_slot q.1 q.2]
  exact congrArg o.cell (Fin.ext h)

/-- A matrix is written into the front of a buffer that is long enough, each entry into its slot. -/
theorem copyOut_spec {M : Matrix α r c} {out : Array α} (o : Order) (h : r * c ≤ out.size) :
    ∃ packed, copyOut (Grid.ofMatrix M) out o = (.ok (), packed) ∧ packed.size = out.size ∧
      (∀ i j, packed[o.slot r c i.val j.val]? = some (M.entry i j)) ∧
      ∀ k, r * c ≤ k → packed[k]? = out[k]? := by
  let cell : Fin (r * c) → Fin r × Fin c := Order.rowMajor.cell
  let slot : Fin (r * c) → ℕ := fun k => o.slot r c (cell k).1 (cell k).2
  let value : Fin (r * c) → α := fun k => (Grid.ofMatrix M).entry (cell k).1 (cell k).2
  have hinj : Function.Injective slot := o.slot_injective.comp Order.rowMajor.cell_injective
  have hslot_lt (k : Fin (r * c)) : slot k < r * c := o.slot_lt _ _
  refine ⟨writeAt slot value out, if_neg (Nat.not_lt.2 h), size_writeAt _ _ _, fun i j => ?_,
    fun k hk => writeAt_of_ne (fun l => ((hslot_lt l).trans_le hk).ne) _ _⟩
  -- the step that writes the entry `(i, j)`
  obtain ⟨k, hk⟩ : ∃ k, cell k = (i, j) := ⟨_, Order.rowMajor.cell_slot i j⟩
  have hwritten := writeAt_slot hinj value k ((hslot_lt k).trans_le h)
  have hslot : slot k = o.slot r c i.val j.val := by simp only [slot, hk]
  have hvalue : value k = M.entry i j := by
    simp only [value, hk]
    exact Grid.entry_ofMatrix M i j
  rwa [hslot, hvalue] at hwritten

/-- Whether a matrix is written does not depend on the order. -/
theorem copyOut_fst (g : Grid α) (out : Array α) (o o' : Order) :
    (copyOut g out o).1 = (copyOut g out o').1 := by
  unfold copyOut
  dsimp only
  split <;> rfl

theorem Filling.done_result (f : Filling β) :
    (Outcome.ofChecked f.result).done = (Outcome.ofChecked f.1).done := by
  obtain ⟨x | _, out⟩ := f <;> rfl

/-! ## Owned buffers -/

/-- A matrix of one row or one column has the same slots in both orders. -/
theorem Order.slot_eq_of_single (o o' : Order) (h : r = 1 ∨ c = 1) (i : Fin r) (j : Fin c) :
    o.slot r c i.val j.val = o'.slot r c i.val j.val := by
  have hsame : Order.columnMajor.slot r c i.val j.val = Order.rowMajor.slot r c i.val j.val := by
    simp only [Order.slot, Order.line, Order.place, Order.lineLength]
    rcases h with rfl | rfl
    · rw [Fin.val_eq_zero i]
      omega
    · rw [Fin.val_eq_zero j]
      omega
  cases o <;> cases o'
  · rfl
  · exact hsame
  · exact hsame.symm
  · rfl

namespace Stored

variable {s : Stored α r c} {v : Vector α (r * c)}

/-- An entry is in its slot of the order of the buffer, and in that of either order if there is one row or
one column only. -/
theorem getElem?_slot {o : Order} (h : o = s.order ∨ r = 1 ∨ c = 1) (i : Fin r) (j : Fin c) :
    s.buffer[o.slot r c i.val j.val]? = some (s.entry i j) := by
  have hslot : o.slot r c i.val j.val = s.order.slot r c i.val j.val := by
    rcases h with rfl | hsingle
    · rfl
    · exact Order.slot_eq_of_single _ _ hsingle i j
  rw [hslot]
  exact Vector.getElem?_eq_getElem (s.order.slot_lt i j)

theorem entry_ofGrid (o : Order) (M : Matrix α r c) (i : Fin r) (j : Fin c) :
    (ofGrid o (Grid.ofMatrix M)).entry i j = M.entry i j := by
  have hcell : o.cell ⟨o.slot r c i.val j.val, o.slot_lt i j⟩ = (i, j) := o.cell_slot i j
  have hget : (ofGrid o (Grid.ofMatrix M)).entry i j =
      (Grid.ofMatrix M).entry (o.cell ⟨o.slot r c i.val j.val, o.slot_lt i j⟩).1
        (o.cell ⟨o.slot r c i.val j.val, o.slot_lt i j⟩).2 := Vector.get_ofFn _ _
  rw [hget, hcell, Grid.entry_ofMatrix]

/-- The distances between neighbours in a matrix that is not empty. -/
theorem strides_eq (s : Stored α r c) (i : Fin r) (j : Fin c) :
    s.strides = match s.order with
      | .columnMajor => (1, r)
      | .rowMajor => (c, 1) :=
  if_neg (not_or.2 ⟨i.pos.ne', j.pos.ne'⟩)

/-- A slice that is accepted as column-major lists the entries column by column, whatever the order of
the buffer. -/
theorem columnSlice_entry (h : s.columnSlice = .ok v) (i : Fin r) (j : Fin c) :
    v[j.val * r + i.val]? = some (s.entry i j) := by
  unfold columnSlice at h
  split at h
  next => cases h
  next hstrides =>
    obtain rfl : s.buffer = v := Except.ok.inj h
    rw [s.strides_eq i j] at hstrides
    have horder : .columnMajor = s.order ∨ r = 1 ∨ c = 1 := by
      cases hs : s.order with
      | columnMajor => exact .inl rfl
      | rowMajor =>
        rw [hs] at hstrides
        dsimp only at hstrides
        have hr := i.pos
        exact .inr (by omega)
    exact getElem?_slot horder i j

/-- A slice that is accepted as row-major lists the entries row by row, whatever the order of the
buffer. -/
theorem rowSlice_entry (h : s.rowSlice = .ok v) (i : Fin r) (j : Fin c) :
    v[i.val * c + j.val]? = some (s.entry i j) := by
  unfold rowSlice at h
  split at h
  next hstrides =>
    obtain rfl : s.buffer = v := Except.ok.inj h
    rw [s.strides_eq i j] at hstrides
    have horder : .rowMajor = s.order ∨ r = 1 ∨ c = 1 := by
      cases hs : s.order with
      | rowMajor => exact .inl rfl
      | columnMajor =>
        rw [hs] at hstrides
        dsimp only at hstrides
        have hr := i.pos
        have hc := j.pos
        exact .inr (by omega)
    exact getElem?_slot horder i j
  next => cases h

end Stored

/-! ## Engines in another order -/

/-- Two buffers, each in an order of its own, hold the same `r × c` matrix. -/
def SameMatrix (r c : ℕ) (o o' : Order) (buffer : Array α) (stride : ℕ) (buffer' : Array α)
    (stride' : ℕ) : Prop :=
  ∃ M : Matrix α r c, Lays buffer stride o M ∧ Lays buffer' stride' o' M

theorem SameMatrix.readStrided_eq [Scalar α] {o o' : Order} {buffer buffer' : Array α}
    {stride stride' : ℕ} (h : SameMatrix r c o o' buffer stride buffer' stride') :
    readStrided buffer' r c stride' o' = readStrided buffer r c stride o := by
  obtain ⟨M, hM, hM'⟩ := h
  by_cases hshape : r = 0 ∨ c = 0
  · rw [readStrided_empty hshape, readStrided_empty hshape]
  · obtain ⟨hr, hc⟩ := not_or.1 hshape
    rw [readStrided_of_lays hM (Nat.pos_of_ne_zero hr) (Nat.pos_of_ne_zero hc),
      readStrided_of_lays hM' (Nat.pos_of_ne_zero hr) (Nat.pos_of_ne_zero hc)]

/-- Two buffers, one in the order of an engine, hold the same new rows for its model. -/
def Engine.SameRows (e : Engine α) (o : Order) (rows : ℕ) (buffer : Array α) (stride : ℕ)
    (buffer' : Array α) (stride' : ℕ) : Prop :=
  ∀ m, e.model = some m →
    SameMatrix rows m.centres.cols e.settings.order o buffer stride buffer' stride'

/-- A question to an engine, and the same question to one whose buffers are in another order. -/
inductive Question.Reordered (e : Engine α) (o : Order) : Question α → Question α → Prop
  | labels : Reordered e o .labels .labels
  | centres : Reordered e o .centres .centres
  | info : Reordered e o .info .info
  | readNumbers (q : Query) (out : Array α) : Reordered e o (.readNumbers q out) (.readNumbers q out)
  | readIntegers (q : Query) (out : Array ℕ) :
    Reordered e o (.readIntegers q out) (.readIntegers q out)
  | predict (g : Grid α) : Reordered e o (.predict g) (.predict g)
  | predictSlice {rows : ℕ} {buffer buffer' : Array α} {stride stride' : ℕ}
      (h : e.SameRows o rows buffer stride buffer' stride') :
    Reordered e o (.predictSlice rows buffer stride) (.predictSlice rows buffer' stride')
  | transform (g : Grid α) : Reordered e o (.transform g) (.transform g)
  | transformSlice {rows : ℕ} {buffer buffer' : Array α} {stride stride' : ℕ}
      (h : e.SameRows o rows buffer stride buffer' stride') :
    Reordered e o (.transformSlice rows buffer stride) (.transformSlice rows buffer' stride')

/-- A call to an engine, and the same call to one whose buffers are in another order: matrices in
buffers are the same, settings differ in the order, and draws without a seed are from the same state. -/
inductive Call.Reordered (e : Engine α) (o : Order) : Call σ α → Call σ α → Prop
  | setData (g : Grid α) : Reordered e o (.setData g) (.setData g)
  | setDataSlice {rows cols : ℕ} {buffer buffer' : Array α} {stride stride' : ℕ}
      (h : SameMatrix rows cols e.settings.order o buffer stride buffer' stride') :
    Reordered e o (.setDataSlice rows cols buffer stride) (.setDataSlice rows cols buffer' stride')
  | setInitialCentres (g : Grid α) : Reordered e o (.setInitialCentres g) (.setInitialCentres g)
  | setInitialCentresSlice {buffer buffer' : Array α} {stride stride' : ℕ}
      (h : ∀ g, e.data = some g →
        SameMatrix e.settings.clusters g.cols e.settings.order o buffer stride buffer' stride') :
    Reordered e o (.setInitialCentresSlice buffer stride) (.setInitialCentresSlice buffer' stride')
  | configure (s : Settings) (o' : Order) :
    Reordered e o (.configure s) (.configure { s with order := o' })
  | compute (entropy : σ) : Reordered e o (.compute entropy) (.compute entropy)
  | fitPredict (g : Grid α) (entropy : σ) :
    Reordered e o (.fitPredict g entropy) (.fitPredict g entropy)
  | ask {q q' : Question α} (h : q.Reordered e o q') : Reordered e o (.ask q) (.ask q')

namespace Engine

/-- The engine with its buffers in another order. -/
def inOrder (e : Engine α) (o : Order) : Engine α := { e with settings.order := o }

variable (e : Engine α) (o : Order)

theorem reduceClusters_inOrder :
    (e.inOrder o).reduceClusters = (e.reduceClusters.1, e.reduceClusters.2.inOrder o) := by
  obtain ⟨settings, data, initialCentres, model⟩ := e
  cases data with
  | none => rfl
  | some g =>
    unfold reduceClusters inOrder
    dsimp only
    split <;> rfl

theorem setData_inOrder [Machine] [Scalar α] (g : Grid α) :
    (e.inOrder o).setData g = ((e.setData g).1, (e.setData g).2.inOrder o) := by
  have hstored : { e.inOrder o with data := some g, model := none } =
    inOrder { e with data := some g, model := none } o := rfl
  unfold setData
  rw [hstored, reduceClusters_inOrder]
  cases checkData g <;> rfl

theorem setInitialCentres_inOrder (g : Grid α) :
    (e.inOrder o).setInitialCentres g =
      ((e.setInitialCentres g).1, (e.setInitialCentres g).2.inOrder o) := by
  have hstored : (e.inOrder o).storedData = e.storedData := rfl
  unfold setInitialCentres
  rw [hstored]
  cases e.storedData with
  | error x => rfl
  | ok data =>
    have hclusters : (e.inOrder o).settings.clusters = e.settings.clusters := rfl
    dsimp only
    rw [hclusters]
    split <;> rfl

theorem setDataSlice_inOrder [Machine] [Scalar α] {rows cols : ℕ} {buffer buffer' : Array α}
    {stride stride' : ℕ}
    (h : SameMatrix rows cols e.settings.order o buffer stride buffer' stride') :
    (e.inOrder o).setDataSlice rows cols buffer' stride' =
      ((e.setDataSlice rows cols buffer stride).1,
        (e.setDataSlice rows cols buffer stride).2.inOrder o) := by
  have horder : (e.inOrder o).settings.order = o := rfl
  unfold setDataSlice
  rw [horder, h.readStrided_eq]
  cases readStrided buffer rows cols stride e.settings.order with
  | error x => rfl
  | ok g => exact e.setData_inOrder o g

theorem setInitialCentresSlice_inOrder [Scalar α] {buffer buffer' : Array α} {stride stride' : ℕ}
    (h : ∀ g, e.data = some g →
      SameMatrix e.settings.clusters g.cols e.settings.order o buffer stride buffer' stride') :
    (e.inOrder o).setInitialCentresSlice buffer' stride' =
      ((e.setInitialCentresSlice buffer stride).1,
        (e.setInitialCentresSlice buffer stride).2.inOrder o) := by
  have hstored : (e.inOrder o).storedData = e.storedData := rfl
  have horder : (e.inOrder o).settings.order = o := rfl
  have hclusters : (e.inOrder o).settings.clusters = e.settings.clusters := rfl
  unfold setInitialCentresSlice
  rw [hstored, horder, hclusters]
  cases hdata : e.storedData with
  | error x => rfl
  | ok data =>
    dsimp only
    rw [(h data (storedData_spec hdata)).readStrided_eq]
    cases readStrided buffer e.settings.clusters data.cols stride e.settings.order with
    | error x => rfl
    | ok g => exact e.setInitialCentres_inOrder o g

/-- What is asked about new rows does not depend on the order in which they are read. -/
theorem newRows_inOrder [Scalar α] {γ : Type} {rows : ℕ} {buffer buffer' : Array α}
    {stride stride' : ℕ} (h : e.SameRows o rows buffer stride buffer' stride')
    (question : Grid α → Outcome γ) :
    (Outcome.ofChecked e.centres >>= fun centres =>
      Outcome.ofChecked (readStrided buffer' rows centres.cols stride' o) >>= question) =
    Outcome.ofChecked e.centres >>= fun centres =>
      Outcome.ofChecked (readStrided buffer rows centres.cols stride e.settings.order) >>= question := by
  cases hcentres : e.centres with
  | error x => rfl
  | ok centres =>
    obtain ⟨m, hm, rfl⟩ := centres_spec hcentres
    show (Outcome.ofChecked (readStrided buffer' rows m.centres.cols stride' o) >>= question) = _
    rw [(h m hm).readStrided_eq]
    rfl

theorem readNumbers_inOrder [Scalar α] (q : Query) (out : Array α) :
    (Outcome.ofChecked ((e.inOrder o).readNumbers q out)).done =
      (Outcome.ofChecked (e.readNumbers q out)).done := by
  cases q with
  | info => rfl
  | labels => rfl
  | centres =>
    have hcentres : (e.inOrder o).centres = e.centres := rfl
    unfold readNumbers fillNumbers
    rw [hcentres]
    cases e.centres with
    | error x => rfl
    | ok g =>
      dsimp only
      rw [Filling.done_result, Filling.done_result, copyOut_fst]

section Fit

variable [Machine] [Add α] [Sub α] [Mul α] [Div α] [Neg α] [LT α] [LE α] [DecidableLT α]
  [DecidableLE α] [BEq α] [Scalar α] (G : Generator σ α)

theorem compute_inOrder (entropy : σ) :
    (e.inOrder o).compute G entropy =
      ((e.compute G entropy).1, (e.compute G entropy).2.inOrder o) := by
  have hvalid : (e.inOrder o).settings.validate = e.settings.validate := rfl
  have hfitted : (e.reduceClusters.2.inOrder o).fitted G entropy =
    e.reduceClusters.2.fitted G entropy := rfl
  unfold compute
  rw [hvalid, reduceClusters_inOrder]
  cases e.settings.validate with
  | error x => rfl
  | ok _ =>
    dsimp only
    rw [hfitted]
    cases e.reduceClusters.2.fitted G entropy <;> rfl

theorem fitPredict_inOrder (g : Grid α) (entropy : σ) :
    (e.inOrder o).fitPredict G g entropy =
      ((e.fitPredict G g entropy).1, (e.fitPredict G g entropy).2.inOrder o) := by
  unfold fitPredict
  rw [setData_inOrder]
  rcases e.setData g with ⟨x | warnings, e'⟩
  · rfl
  · dsimp only
    rw [compute_inOrder]
    rcases e'.compute G entropy with ⟨f | notes, e''⟩ <;> rfl

omit [Sub α] [Div α] [LE α] [DecidableLE α] in
theorem predictSlice_inOrder {rows : ℕ} {buffer buffer' : Array α} {stride stride' : ℕ}
    (h : e.SameRows o rows buffer stride buffer' stride') :
    (e.inOrder o).predictSlice rows buffer' stride' = e.predictSlice rows buffer stride :=
  e.newRows_inOrder o h e.predict

omit [Machine] [Sub α] [Div α] [LT α] [LE α] [DecidableLT α] [DecidableLE α] [BEq α] in
theorem transformSlice_inOrder {rows : ℕ} {buffer buffer' : Array α} {stride stride' : ℕ}
    (h : e.SameRows o rows buffer stride buffer' stride') :
    (e.inOrder o).transformSlice rows buffer' stride' = e.transformSlice rows buffer stride :=
  e.newRows_inOrder o h e.transform

/-! ### Sessions -/

omit [Sub α] [Div α] [LE α] [DecidableLE α] in
theorem answer_inOrder {q q' : Question α} (h : q.Reordered e o q') :
    (e.inOrder o).answer q' = e.answer q := by
  cases h with
  | labels => rfl
  | centres => rfl
  | info => rfl
  | readNumbers q out => exact e.readNumbers_inOrder o q out
  | readIntegers q out => rfl
  | predict g => rfl
  | predictSlice h => exact congrArg Outcome.done (e.predictSlice_inOrder o h)
  | transform g => rfl
  | transformSlice h => exact congrArg Outcome.done (e.transformSlice_inOrder o h)

theorem call_inOrder {c c' : Call σ α} (h : c.Reordered e o c') :
    ∃ o', (e.inOrder o).call G c' = ((e.call G c).1, (e.call G c).2.inOrder o') := by
  cases h with
  | setData g =>
    refine ⟨o, ?_⟩
    rw [call, setData_inOrder]
    rfl
  | setDataSlice h =>
    refine ⟨o, ?_⟩
    rw [call, setDataSlice_inOrder e o h]
    rfl
  | setInitialCentres g =>
    refine ⟨o, ?_⟩
    rw [call, setInitialCentres_inOrder]
    rfl
  | setInitialCentresSlice h =>
    refine ⟨o, ?_⟩
    rw [call, setInitialCentresSlice_inOrder e o h]
    rfl
  | configure s o' => exact ⟨o', rfl⟩
  | compute entropy =>
    refine ⟨o, ?_⟩
    rw [call, compute_inOrder]
    rfl
  | fitPredict g entropy =>
    refine ⟨o, ?_⟩
    rw [call, fitPredict_inOrder]
    rfl
  | ask h => exact ⟨o, congrArg (·, e.inOrder o) (e.answer_inOrder o h)⟩

/-- How the calls of a session end. -/
def outcomes (e : Engine α) (G : Generator σ α) : List (Call σ α) → List (Outcome Unit)
  | [] => []
  | c :: calls => (e.call G c).1 :: (e.call G c).2.outcomes G calls

/-- A session, and the same one with an engine whose buffers are in another order. -/
inductive SameSession (G : Generator σ α) :
    Engine α → Order → List (Call σ α) → List (Call σ α) → Prop
  | nil (e : Engine α) (o : Order) : SameSession G e o [] []
  | cons {e : Engine α} {o : Order} {c c' : Call σ α} {calls calls' : List (Call σ α)}
      (h : c.Reordered e o c')
      (rest : SameSession G (e.call G c).2 ((e.inOrder o).call G c').2.settings.order calls calls') :
    SameSession G e o (c :: calls) (c' :: calls')

/-- A session does not tell in which order the buffers are. -/
theorem run_inOrder {G : Generator σ α} {e : Engine α} {o : Order} {calls calls' : List (Call σ α)}
    (h : SameSession G e o calls calls') :
    (e.inOrder o).outcomes G calls' = e.outcomes G calls ∧
      ∃ o', (e.inOrder o).run G calls' = (e.run G calls).inOrder o' := by
  induction h with
  | nil e o => exact ⟨rfl, o, rfl⟩
  | cons h rest ih =>
    obtain ⟨o', hcall⟩ := call_inOrder _ _ _ h
    rw [hcall] at ih
    obtain ⟨houtcomes, o'', hrun⟩ := ih
    refine ⟨?_, o'', ?_⟩
    · rw [outcomes, outcomes, hcall, ← houtcomes]
      rfl
    · rw [run_cons, run_cons, hcall, ← hrun]
      rfl

/-- Two engines that answer alike, also for new rows that each of them is given in its own order. -/
structure AnswersAlike (e e' : Engine α) : Prop where
  isComputed : e'.isComputed = e.isComputed
  labels : e'.labels = e.labels
  centres : e'.centres = e.centres
  info : e'.info = e.info
  predict : ∀ g, e'.predict g = e.predict g
  transform : ∀ g, e'.transform g = e.transform g
  predictSlice : ∀ {rows : ℕ} {buffer buffer' : Array α} {stride stride' : ℕ},
    e.SameRows e'.settings.order rows buffer stride buffer' stride' →
    e'.predictSlice rows buffer' stride' = e.predictSlice rows buffer stride
  transformSlice : ∀ {rows : ℕ} {buffer buffer' : Array α} {stride stride' : ℕ},
    e.SameRows e'.settings.order rows buffer stride buffer' stride' →
    e'.transformSlice rows buffer' stride' = e.transformSlice rows buffer stride

omit [Sub α] [Div α] [LE α] [DecidableLE α] in
theorem inOrder_answersAlike (e : Engine α) (o : Order) : e.AnswersAlike (e.inOrder o) where
  isComputed := rfl
  labels := rfl
  centres := rfl
  info := rfl
  predict _ := rfl
  transform _ := rfl
  predictSlice h := e.predictSlice_inOrder o h
  transformSlice h := e.transformSlice_inOrder o h

end Fit

end Engine

/-! ## Layouts -/

section Layouts

variable [Machine] [Add α] [Sub α] [Mul α] [Div α] [Neg α] [LT α] [LE α] [DecidableLT α]
  [DecidableLE α] [BEq α] [Scalar α]

/-- **A matrix does not depend on its layout.** It is read from any buffer that it lies in, and read back
from the front of a buffer into which it has been written, the rest of which is as it was. Owned buffers
that are accepted as slices in an order list the entries in that order. A buffer that is too short is
refused with the least length that is not. Engines that are given the same matrices in different orders,
and draw alike, end all calls alike and answer alike. -/
theorem layouts_agree (G : Generator σ α) (M : Matrix α r c) (hr : 0 < r) (hc : 0 < c) :
    (∀ buffer stride o, Lays buffer stride o M →
      readStrided buffer r c stride o = .ok (Grid.ofMatrix M)) ∧
    (∀ out o, r * c ≤ out.size → ∃ packed, copyOut (Grid.ofMatrix M) out o = (.ok (), packed) ∧
      packed.size = out.size ∧
      (∀ k : Fin (r * c), packed[k.val]? = some (M.entry (o.cell k).1 (o.cell k).2)) ∧
      (∀ k, r * c ≤ k → packed[k]? = out[k]?) ∧
      readStrided packed r c (o.lineLength r c) o = .ok (Grid.ofMatrix M)) ∧
    (∀ (i : Fin r) (j : Fin c),
      (Stored.ofGrid .columnMajor (Grid.ofMatrix M)).buffer[i.val + j.val * r]? =
        some (M.entry i j)) ∧
    (∀ (s : Stored α r c) v,
      (s.columnSlice = .ok v → ∀ i j, v[i.val + j.val * r]? = some (s.entry i j)) ∧
      (s.rowSlice = .ok v → ∀ i j, v[i.val * c + j.val]? = some (s.entry i j))) ∧
    (∀ (buffer : Array α) stride o, o.lineLength r c ≤ stride →
      let required := span stride (o.lines r c) (o.lineLength r c)
      required < UInt64.size →
      (buffer.size < required →
        readStrided buffer r c stride o = .error (.tooShort required (.storage buffer.size))) ∧
      (required ≤ buffer.size → ∃ g, readStrided buffer r c stride o = .ok g)) ∧
    (∀ out o, out.size < r * c →
      copyOut (Grid.ofMatrix M) out o = (.error (.tooShort (r * c) (.output out.size)), out)) ∧
    ∀ (e : Engine α) o calls calls', Engine.SameSession G e o calls calls' →
      (e.inOrder o).outcomes G calls' = e.outcomes G calls ∧
        (e.run G calls).AnswersAlike ((e.inOrder o).run G calls') := by
  refine ⟨fun buffer stride o h => readStrided_of_lays h hr hc, fun out o h => ?_, fun i j => ?_,
    fun s v => ⟨fun h i j => ?_, fun h => Stored.rowSlice_entry h⟩,
    fun buffer stride o hstride hword => ⟨readStrided_short hr hc hstride hword, fun hlong => ?_⟩,
    fun out o h => if_pos h, fun e o calls calls' h => ?_⟩
  · obtain ⟨packed, hcopy, hsize, hslots, hrest⟩ := copyOut_spec (M := M) o h
    refine ⟨packed, hcopy, hsize, fun k => ?_, hrest, readStrided_of_lays ⟨le_rfl, hslots⟩ hr hc⟩
    rw [← hslots, o.slot_cell]
  · have hbuffer := Stored.getElem?_slot (s := Stored.ofGrid .columnMajor (Grid.ofMatrix M)) (.inl rfl) i j
    rw [Nat.add_comm]
    exact hbuffer.trans (congrArg some (Stored.entry_ofGrid .columnMajor M i j))
  · rw [Nat.add_comm]
    exact Stored.columnSlice_entry h i j
  · obtain ⟨M', -, hread⟩ := readStrided_long hr hc hstride hlong
    exact ⟨_, hread⟩
  · obtain ⟨houtcomes, o', hrun⟩ := Engine.run_inOrder h
    refine ⟨houtcomes, ?_⟩
    rw [hrun]
    exact (e.run G calls).inOrder_answersAlike o'

end Layouts

/-- Three samples, with a gap after each column and with none after the rows. -/
theorem layouts_agree_three_samples :
    letI := Machine.standard
    let G := Keystream.generator Float
    let entropy := Keystream.ofSeed 0
    let M : Matrix Float 3 2 := #v[#v[0, 1], #v[10, 11], #v[2, 3]]
    let columns : Array Float := #[0, 10, 2, 7, 1, 11, 3]
    let rows : Array Float := #[0, 1, 10, 11, 2, 3]
    let e : Engine Float := Engine.ofSettings { clusters := 2 }
    let e₁ := e.run G [.setDataSlice 3 2 columns 4, .compute entropy]
    let e₂ := (e.inOrder .rowMajor).run G [.setDataSlice 3 2 rows 2, .compute entropy]
    Lays columns 4 .columnMajor M ∧
      readStrided columns 3 2 4 .columnMajor = .ok (Grid.ofMatrix M) ∧
      e₁.isComputed = true ∧ e₁.AnswersAlike e₂ := by
  let _ := Machine.standard
  intro G entropy M columns rows e e₁ e₂
  have hcolumns : Lays columns 4 .columnMajor M := by
    refine ⟨by decide, fun i j => ?_⟩
    fin_cases i <;> fin_cases j <;> simp [M, columns, Order.line, Order.place, Matrix.entry, Vector.get]
  have hrows : Lays rows 2 .rowMajor M := by
    refine ⟨by decide, fun i j => ?_⟩
    fin_cases i <;> fin_cases j <;> simp [M, rows, Order.line, Order.place, Matrix.entry, Vector.get]
  have hsession : Engine.SameSession G e .rowMajor
      [.setDataSlice 3 2 columns 4, .compute entropy] [.setDataSlice 3 2 rows 2, .compute entropy] :=
    .cons (.setDataSlice ⟨M, hcolumns, hrows⟩) (.cons (.compute entropy) (.nil _ _))
  obtain ⟨hread, -, -, -, -, -, hsessions⟩ := layouts_agree G M (by decide) (by decide)
  exact ⟨hcolumns, hread columns 4 .columnMajor hcolumns, by decide +kernel,
    (hsessions e .rowMajor _ _ hsession).2⟩

end Proximity
