import Proximity.Proofs.Breaches
import Proximity.Proofs.CountingDown
import Proximity.Proofs.NewRows

/-!
# Sessions

Calls to an engine one after another, in any order and with settings that change between them. The
published model fits the stored data throughout, also when an earlier call failed or broke off, whatever
the values of the data are and wherever random choices come from: from any generator, with or without
a seed, on any machine.

1. `Call` and `Engine.call`: the calls, with their outcomes and what they leave behind.
2. One lemma for each call that says all it can do (`setData_cases` to `fitPredict_cases`).
3. `Engine.Consistent`: the invariant.
4. `Engine.Tolerates`: the breaches that a call may meet; every call keeps the invariant and meets no
   other (`Engine.call_sound`).
5. `Engine.callOn`: a call with its counters as a machine counts them down.
6. `Engine.run_fits`: what holds after any session.
-/

namespace Proximity

/-! ## Calls -/

/-- A question to an engine, which leaves it as it is. -/
inductive Question (α : Type) where
  | labels
  | centres
  | info
  | readNumbers (q : Query) (out : Array α)
  | readIntegers (q : Query) (out : Array ℕ)
  | predict (g : Grid α)
  | predictSlice (rows : ℕ) (buffer : Array α) (stride : ℕ)
  | transform (g : Grid α)
  | transformSlice (rows : ℕ) (buffer : Array α) (stride : ℕ)

/-- A call to an engine. A call that clusters data comes with the state from which choices are drawn when
there is no seed. -/
inductive Call (σ α : Type) where
  | setData (g : Grid α)
  | setDataSlice (rows cols : ℕ) (buffer : Array α) (stride : ℕ)
  | setInitialCentres (g : Grid α)
  | setInitialCentresSlice (buffer : Array α) (stride : ℕ)
  /-- The settings replaced. -/
  | configure (s : Settings)
  | compute (entropy : σ)
  | fitPredict (g : Grid α) (entropy : σ)
  | ask (q : Question α)

/-- Calls that leave no more clusters than samples when they succeed. -/
inductive Call.Reduces {σ α : Type} : Call σ α → Prop
  | setData (g : Grid α) : (Call.setData g).Reduces
  | setDataSlice (rows cols : ℕ) (buffer : Array α) (stride : ℕ) :
    (Call.setDataSlice rows cols buffer stride).Reduces
  | compute (entropy : σ) : (Call.compute entropy).Reduces
  | fitPredict (g : Grid α) (entropy : σ) : (Call.fitPredict g entropy).Reduces

/-- An outcome without its result. -/
def Outcome.done {β : Type} (x : Outcome β) : Outcome Unit := x.map fun _ => ()

variable {α σ : Type} {allowed : Breach → Prop}

theorem BreaksOnly.done {β : Type} {x : Outcome β} (h : BreaksOnly allowed x) :
    BreaksOnly allowed x.done := h.map _

theorem Outcome.done_eq_ok {β : Type} {x : Outcome β} (h : x.done = .ok ()) : ∃ a, x = .ok a := by
  cases x with
  | error f => cases h
  | ok a => exact ⟨a, rfl⟩

theorem Outcome.done_ofChecked_eq_ok {β : Type} {x : Checked β}
    (h : (Outcome.ofChecked x).done = .ok ()) : ∃ a, x = .ok a := by
  obtain ⟨a, ha⟩ := Outcome.done_eq_ok h
  exact ⟨a, ofChecked_eq_ok ha⟩

theorem breaksOnly_done_ofChecked {β : Type} (x : Checked β) :
    BreaksOnly allowed (Outcome.ofChecked x).done := (breaksOnly_ofChecked x).done

namespace Engine

section Answers

variable [Machine] [Add α] [Sub α] [Mul α] [Div α] [Neg α] [LT α] [LE α] [DecidableLT α]
  [DecidableLE α] [BEq α] [Scalar α]

/-- How a question ends. -/
def answer (e : Engine α) : Question α → Outcome Unit
  | .labels => (Outcome.ofChecked e.labels).done
  | .centres => (Outcome.ofChecked e.centres).done
  | .info => (Outcome.ofChecked e.info).done
  | .readNumbers q out => (Outcome.ofChecked (e.readNumbers q out)).done
  | .readIntegers q out => (Outcome.ofChecked (e.readIntegers q out)).done
  | .predict g => (e.predict g).done
  | .predictSlice rows buffer stride => (e.predictSlice rows buffer stride).done
  | .transform g => (e.transform g).done
  | .transformSlice rows buffer stride => (e.transformSlice rows buffer stride).done

/-- How a call ends, and the engine it leaves behind. -/
def call (e : Engine α) (G : Generator σ α) : Call σ α → Outcome Unit × Engine α
  | .setData g => ((Outcome.ofChecked (e.setData g).1).done, (e.setData g).2)
  | .setDataSlice rows cols buffer stride =>
    ((Outcome.ofChecked (e.setDataSlice rows cols buffer stride).1).done,
      (e.setDataSlice rows cols buffer stride).2)
  | .setInitialCentres g =>
    ((Outcome.ofChecked (e.setInitialCentres g).1).done, (e.setInitialCentres g).2)
  | .setInitialCentresSlice buffer stride =>
    ((Outcome.ofChecked (e.setInitialCentresSlice buffer stride).1).done,
      (e.setInitialCentresSlice buffer stride).2)
  | .configure s => (.ok (), { e with settings := s })
  | .compute entropy => ((e.compute G entropy).1.done, (e.compute G entropy).2)
  | .fitPredict g entropy => ((e.fitPredict G g entropy).1.done, (e.fitPredict G g entropy).2)
  | .ask q => (e.answer q, e)

/-- The engine that a session leaves behind. -/
def run (e : Engine α) (G : Generator σ α) (calls : List (Call σ α)) : Engine α :=
  calls.foldl (fun e c => (e.call G c).2) e

theorem run_nil (e : Engine α) (G : Generator σ α) : e.run G [] = e := rfl

theorem run_cons (e : Engine α) (G : Generator σ α) (c : Call σ α) (calls : List (Call σ α)) :
    e.run G (c :: calls) = (e.call G c).2.run G calls := rfl

theorem call_compute (e : Engine α) (G : Generator σ α) (entropy : σ) :
    (e.call G (.compute entropy)).2 = (e.compute G entropy).2 := rfl

end Answers

/-! ## What a call can do -/

@[simp] theorem reduceClusters_data (e : Engine α) : e.reduceClusters.2.data = e.data := by
  unfold reduceClusters
  split
  · rfl
  · split <;> rfl

@[simp] theorem reduceClusters_model (e : Engine α) : e.reduceClusters.2.model = e.model := by
  unfold reduceClusters
  split
  · rfl
  · split <;> rfl

/-- With data the number of clusters is reduced to the number of samples. -/
theorem reduceClusters_clusters {e : Engine α} {g : Grid α} (h : e.data = some g) :
    e.reduceClusters.2.settings.clusters = min e.settings.clusters g.rows := by
  unfold reduceClusters
  rw [h]
  dsimp only
  split
  next hle => exact (min_eq_left hle).symm
  next hlt => exact (min_eq_right (not_le.1 hlt).le).symm

theorem checkData_pos [Machine] [Scalar α] {g : Grid α} (h : checkData g = .ok ()) :
    0 < g.rows ∧ 0 < g.cols := by
  unfold checkData at h
  split at h
  next => cases h
  next hempty =>
    obtain ⟨hrows, hcols⟩ := not_or.1 hempty
    exact ⟨Nat.pos_of_ne_zero hrows, Nat.pos_of_ne_zero hcols⟩

theorem setData_cases [Machine] [Scalar α] (e : Engine α) (g : Grid α) :
    (∃ x, e.setData g = (.error x, e)) ∨
      (0 < g.rows ∧ 0 < g.cols) ∧
        ∃ warnings, e.setData g =
          (.ok warnings, (reduceClusters { e with data := some g, model := none }).2) := by
  unfold setData
  cases hcheck : checkData g with
  | error x => exact .inl ⟨x, rfl⟩
  | ok _ => exact .inr ⟨checkData_pos hcheck, _, rfl⟩

theorem setDataSlice_cases [Machine] [Scalar α] (e : Engine α) (rows cols : ℕ) (buffer : Array α)
    (stride : ℕ) :
    (∃ x, e.setDataSlice rows cols buffer stride = (.error x, e)) ∨
      ∃ g, e.setDataSlice rows cols buffer stride = e.setData g := by
  unfold setDataSlice
  cases readStrided buffer rows cols stride e.settings.order with
  | error x => exact .inl ⟨x, rfl⟩
  | ok g => exact .inr ⟨g, rfl⟩

theorem setInitialCentres_cases (e : Engine α) (g : Grid α) :
    (∃ x, e.setInitialCentres g = (.error x, e)) ∨
      e.setInitialCentres g = (.ok (), { e with initialCentres := some g }) := by
  unfold setInitialCentres
  cases e.storedData with
  | error x => exact .inl ⟨x, rfl⟩
  | ok data =>
    dsimp only
    split
    · exact .inr rfl
    · exact .inl ⟨_, rfl⟩

theorem setInitialCentresSlice_cases [Scalar α] (e : Engine α) (buffer : Array α) (stride : ℕ) :
    (∃ x, e.setInitialCentresSlice buffer stride = (.error x, e)) ∨
      ∃ g, e.setInitialCentresSlice buffer stride = e.setInitialCentres g := by
  unfold setInitialCentresSlice
  cases e.storedData with
  | error x => exact .inl ⟨x, rfl⟩
  | ok data =>
    dsimp only
    cases readStrided buffer e.settings.clusters data.cols stride e.settings.order with
    | error x => exact .inl ⟨x, rfl⟩
    | ok g => exact .inr ⟨g, rfl⟩

theorem copiedCentres_shape {e : Engine α} {data g : Grid α}
    (h : e.copiedCentres data = .ok (some g)) :
    g.rows = e.settings.clusters ∧ g.cols = data.cols := by
  unfold copiedCentres at h
  split at h
  · split at h
    · cases h
    · split at h
      next => cases h
      next hrows =>
        split at h
        next => cases h
        next hcols =>
          obtain rfl := Option.some.inj (Except.ok.inj h)
          exact ⟨not_not.1 hrows, not_not.1 hcols⟩
  · cases h

theorem checkTransfers_clusters {e : Engine α} {data : Grid α} (h : e.checkTransfers data = .ok ())
    (halgorithm : e.settings.algorithm = .hartiganWong) : e.settings.clusters ≠ 1 := by
  intro hone
  rw [checkTransfers, if_pos ⟨halgorithm, .inl hone⟩] at h
  cases h

theorem storedData_spec {e : Engine α} {g : Grid α} (h : e.storedData = .ok g) : e.data = some g := by
  unfold storedData at h
  split at h
  next stored hstored =>
    cases h
    exact hstored
  next => cases h

/-- What a computation starts from: the stored data, and copied centres of the shape of its centres;
transfers have not got one cluster only. -/
theorem prepare_spec {e : Engine α} {data : Grid α} {copied : Option (Grid α)} {runs : ℕ}
    (h : e.prepare = .ok (data, copied, runs)) :
    e.data = some data ∧
      (∀ g, copied = some g → g.rows = e.settings.clusters ∧ g.cols = data.cols) ∧
      (e.settings.algorithm = .hartiganWong → e.settings.clusters ≠ 1) := by
  obtain ⟨stored, hstored, h⟩ := bind_eq_ok h
  obtain ⟨centres, hcentres, h⟩ := bind_eq_ok h
  obtain ⟨_, hcheck, h⟩ := bind_eq_ok h
  cases h
  exact ⟨storedData_spec hstored, fun g hg => copiedCentres_shape (hg ▸ hcentres),
    checkTransfers_clusters hcheck⟩

theorem validate_clusters_pos {s : Settings} (h : s.validate = .ok ()) : 0 < s.clusters := by
  rw [Nat.pos_iff_ne_zero]
  intro hzero
  rw [Settings.validate, if_pos hzero] at h
  cases h

section Fit

variable [Machine] [Add α] [Sub α] [Mul α] [Div α] [Neg α] [LT α] [LE α] [DecidableLT α]
  [DecidableLE α] [BEq α] [Scalar α] {G : Generator σ α} {entropy : σ}

theorem compute_cases (e : Engine α) (G : Generator σ α) (entropy : σ) :
    (∃ x, e.compute G entropy = (.error (.error x), e)) ∨
      0 < e.settings.clusters ∧
        ((∃ f, e.reduceClusters.2.fitted G entropy = .error f ∧
            e.compute G entropy = (.error f, e.reduceClusters.2)) ∨
          ∃ model warnings notes, e.reduceClusters.2.fitted G entropy = .ok (model, notes) ∧
            e.compute G entropy = (.ok warnings, { e.reduceClusters.2 with model := some model })) := by
  unfold compute
  cases hvalid : e.settings.validate with
  | error x => exact .inl ⟨x, rfl⟩
  | ok _ =>
    refine .inr ⟨validate_clusters_pos hvalid, ?_⟩
    dsimp only
    cases e.reduceClusters.2.fitted G entropy with
    | error f => exact .inl ⟨f, rfl, rfl⟩
    | ok p => exact .inr ⟨p.1, _, p.2, rfl, rfl⟩

/-- A computation that succeeds: the model is fitted, and the warnings are those of the reduction and
of the fit. -/
theorem compute_eq_ok {e e' : Engine α} {warnings : List Warning}
    (h : e.compute G entropy = (.ok warnings, e')) :
    e.settings.validate = .ok () ∧ ∃ model notes,
      e.reduceClusters.2.fitted G entropy = .ok (model, notes) ∧
      warnings = e.reduceClusters.1.toList ++ notes ∧
      e' = { e.reduceClusters.2 with model := some model } := by
  unfold compute at h
  cases hvalid : e.settings.validate with
  | error x =>
    rw [hvalid] at h
    cases h
  | ok _ =>
    rw [hvalid] at h
    dsimp only at h
    rcases hfitted : e.reduceClusters.2.fitted G entropy with f | ⟨model, notes⟩
    · rw [hfitted] at h
      cases h
    · rw [hfitted] at h
      obtain ⟨hwarnings, hleft⟩ := Prod.mk.inj h
      exact ⟨rfl, model, notes, rfl, (Except.ok.inj hwarnings).symm, hleft.symm⟩

theorem compute_of_fitted {e : Engine α} (hvalid : e.settings.validate = .ok ()) {model : Model α}
    {notes : List Warning} (hfitted : e.reduceClusters.2.fitted G entropy = .ok (model, notes)) :
    (e.compute G entropy).2 = { e.reduceClusters.2 with model := some model } := by
  unfold compute
  rw [hvalid]
  dsimp only
  rw [hfitted]

theorem fitPredict_cases (e : Engine α) (G : Generator σ α) (g : Grid α) (entropy : σ) :
    (∃ x, e.setData g = (.error x, e) ∧ e.fitPredict G g entropy = (.error (.error x), e)) ∨
      ∃ warnings e', e.setData g = (.ok warnings, e') ∧
        (e.fitPredict G g entropy).2 = (e'.compute G entropy).2 ∧
        ((∃ f, (e'.compute G entropy).1 = .error f ∧ (e.fitPredict G g entropy).1 = .error f) ∨
          (∃ notes, (e'.compute G entropy).1 = .ok notes) ∧
            (e.fitPredict G g entropy).1 = Outcome.ofChecked (e'.compute G entropy).2.labels) := by
  unfold fitPredict
  rcases setData_cases e g with ⟨x, hset⟩ | ⟨-, warnings, hset⟩
  · rw [hset]
    exact .inl ⟨x, rfl, rfl⟩
  · rw [hset]
    refine .inr ⟨warnings, _, rfl, ?_⟩
    dsimp only
    rcases Engine.compute _ _ _ with ⟨f | notes, e'⟩
    · exact ⟨rfl, .inl ⟨f, rfl, rfl⟩⟩
    · exact ⟨rfl, .inr ⟨⟨notes, rfl⟩, rfl⟩⟩

end Fit

/-! ## The invariant -/

/-- The stored data are not empty, and the published model fits them. -/
structure Consistent (e : Engine α) : Prop where
  shape : ∀ g, e.data = some g → 0 < g.rows ∧ 0 < g.cols
  fits : ∀ m, e.model = some m → ∃ g, e.data = some g ∧ m.Fits g

/-- The number of clusters is one that the stored data can have. -/
structure Clusterable (e : Engine α) : Prop where
  pos : 0 < e.settings.clusters
  le_rows : ∀ g, e.data = some g → e.settings.clusters ≤ g.rows

/-- There are data, and no more clusters than samples. -/
def Reduced (e : Engine α) : Prop := ∃ g, e.data = some g ∧ e.settings.clusters ≤ g.rows

theorem ofSettings_consistent (s : Settings) : (ofSettings s : Engine α).Consistent where
  shape _ h := nomatch h
  fits _ h := nomatch h

/-- Settings and initial centres have no part in the invariant. -/
theorem Consistent.congr {e e' : Engine α} (h : e.Consistent) (hdata : e'.data = e.data)
    (hmodel : e'.model = e.model) : e'.Consistent where
  shape := by
    rw [hdata]
    exact h.shape
  fits := by
    rw [hdata, hmodel]
    exact h.fits

theorem Consistent.reduceClusters {e : Engine α} (h : e.Consistent) :
    e.reduceClusters.2.Consistent := h.congr (by simp) (by simp)

theorem Consistent.clusterable {e : Engine α} (h : e.Consistent) (hK : 0 < e.settings.clusters) :
    e.reduceClusters.2.Clusterable where
  pos := by
    cases hdata : e.data with
    | none =>
      rw [Engine.reduceClusters, hdata]
      exact hK
    | some g =>
      rw [reduceClusters_clusters hdata]
      exact lt_min hK (h.shape g hdata).1
  le_rows g hg := by
    rw [reduceClusters_data] at hg
    rw [reduceClusters_clusters hg]
    exact min_le_right _ _

theorem reduceClusters_reduced {e : Engine α} {g : Grid α} (h : e.data = some g) :
    e.reduceClusters.2.Reduced :=
  ⟨g, by rw [reduceClusters_data, h], by rw [reduceClusters_clusters h]; exact min_le_right _ _⟩

theorem setData_consistent [Machine] [Scalar α] {e : Engine α} (h : e.Consistent) (g : Grid α) :
    (e.setData g).2.Consistent := by
  rcases setData_cases e g with ⟨x, hset⟩ | ⟨hpos, warnings, hset⟩
  · rw [hset]
    exact h
  · rw [hset]
    refine Consistent.reduceClusters ⟨fun g' hg' => ?_, fun m hm => nomatch hm⟩
    cases hg'
    exact hpos

theorem setData_reduced [Machine] [Scalar α] {e e' : Engine α} {g : Grid α} {warnings : List Warning}
    (h : e.setData g = (.ok warnings, e')) : e'.Reduced := by
  rcases setData_cases e g with ⟨x, hset⟩ | ⟨-, w, hset⟩
  · rw [hset] at h
    cases h
  · rw [hset] at h
    cases h
    exact reduceClusters_reduced rfl

theorem setInitialCentres_consistent {e : Engine α} (h : e.Consistent) (g : Grid α) :
    (e.setInitialCentres g).2.Consistent := by
  rcases setInitialCentres_cases e g with ⟨x, hset⟩ | hset
  · rw [hset]
    exact h
  · rw [hset]
    exact h.congr rfl rfl

/-! ## Computations -/

section Fit

variable [Machine] [Add α] [Sub α] [Mul α] [Div α] [Neg α] [LT α] [LE α] [DecidableLT α]
  [DecidableLE α] [BEq α] [Scalar α] {G : Generator σ α} {entropy : σ}

/-- The breaches that the calls to an engine may meet: those of a fit of the stored data. -/
def Tolerates (e : Engine α) (b : Breach) : Prop :=
  ∃ g, e.data = some g ∧ (Plan.ofSettings e.settings : Plan α).Tolerates g.rows e.settings.clusters b

/-- How a call ends: the engine left behind is consistent, and unless the generator refuses weights for
another reason there is no breach but a tolerated one. -/
structure Sound {β : Type} (G : Generator σ α) (p : Outcome β × Engine α) : Prop where
  consistent : p.2.Consistent
  breaks : G.RefusesUnbounded → BreaksOnly p.2.Tolerates p.1

/-- A computation fits the grid that it starts from, and reports what it met. -/
theorem fitted_of_prepare {e : Engine α} {data : Grid α} {copied : Option (Grid α)} {runs : ℕ}
    (h : e.prepare = .ok (data, copied, runs)) :
    e.fitted G entropy = ((Plan.ofSettings e.settings).fitGrid G.toSampler data e.settings.clusters
      copied runs (G.start e.settings.seed entropy)).map fun model =>
        (model, (if runs < e.settings.runs then [.runsIgnored e.settings.runs] else []) ++
          if model.converged then [] else [.iterationLimit e.settings.maxIterations]) := by
  rw [fitted, h]
  rfl

/-- A fit that succeeds starts from what a computation starts from. -/
theorem fitted_eq_ok {e : Engine α} {model : Model α} {notes : List Warning}
    (h : e.fitted G entropy = .ok (model, notes)) :
    ∃ data copied runs, e.prepare = .ok (data, copied, runs) ∧
      (Plan.ofSettings e.settings).fitGrid G.toSampler data e.settings.clusters copied runs
        (G.start e.settings.seed entropy) = .ok model ∧
      notes = (if runs < e.settings.runs then [.runsIgnored e.settings.runs] else []) ++
        if model.converged then [] else [.iterationLimit e.settings.maxIterations] := by
  rcases hp : e.prepare with x | ⟨data, copied, runs⟩
  · rw [fitted, hp] at h
    cases h
  · rw [fitted_of_prepare hp] at h
    obtain ⟨found, hfound, hnotes⟩ := map_eq_ok h
    obtain ⟨rfl, rfl⟩ := Prod.mk.inj hnotes
    exact ⟨data, copied, runs, rfl, hfound, rfl⟩

theorem Clusterable.fitted_breaksOnly {e : Engine α} (hG : G.RefusesUnbounded) (hK : e.Clusterable)
    (h : e.Consistent) : BreaksOnly e.Tolerates (e.fitted G entropy) := by
  rcases hp : e.prepare with x | ⟨data, copied, runs⟩
  · rw [fitted, hp]
    exact breaksOnly_error x
  · rw [fitted_of_prepare hp]
    obtain ⟨hdata, hshape, htransfers⟩ := prepare_spec hp
    have hpos : Positive e.settings.clusters := ⟨hK.pos⟩
    refine BreaksOnly.map (fun b hb => ?_) _
    refine ⟨data, hdata, Plan.fitGrid_breaksOnly hG (hK.le_rows data hdata) (h.shape data hdata).2
      (fun _ => hshape) (fun halgorithm => ?_) _ _ b hb⟩
    have hzero := hK.pos
    have hone := htransfers halgorithm
    omega

/-- A successful computation has data, and its model fits them. -/
theorem Clusterable.fitted_fits {e : Engine α} (hK : e.Clusterable) {model : Model α}
    {notes : List Warning} (h : e.fitted G entropy = .ok (model, notes)) :
    ∃ g, e.data = some g ∧ model.Fits g := by
  obtain ⟨data, copied, runs, hprepare, hmodel, -⟩ := fitted_eq_ok h
  have hpos : Positive e.settings.clusters := ⟨hK.pos⟩
  have hdata := (prepare_spec hprepare).1
  exact ⟨data, hdata, Plan.fitGrid_fits (hK.le_rows data hdata) hmodel⟩

theorem compute_sound {e : Engine α} (h : e.Consistent) (G : Generator σ α) (entropy : σ) :
    Sound G (e.compute G entropy) := by
  rcases compute_cases e G entropy with
    ⟨x, hx⟩ | ⟨hpos, ⟨f, hf, hx⟩ | ⟨model, warnings, notes, hfit, hx⟩⟩
  · rw [hx]
    exact ⟨h, fun _ => breaksOnly_error x⟩
  · rw [hx]
    refine ⟨h.reduceClusters, fun hG b hb => ?_⟩
    cases hb
    exact (h.clusterable hpos).fitted_breaksOnly hG h.reduceClusters b hf
  · rw [hx]
    refine ⟨⟨h.reduceClusters.shape, fun m hm => ?_⟩, fun _ => breaksOnly_ok _⟩
    cases hm
    exact (h.clusterable hpos).fitted_fits hfit

theorem fitted_data {e : Engine α} {model : Model α} {notes : List Warning}
    (h : e.fitted G entropy = .ok (model, notes)) : ∃ g, e.data = some g := by
  obtain ⟨data, copied, runs, hprepare, -, -⟩ := fitted_eq_ok h
  exact ⟨data, (prepare_spec hprepare).1⟩

theorem compute_reduced {e e' : Engine α} {warnings : List Warning}
    (h : e.compute G entropy = (.ok warnings, e')) : e'.Reduced := by
  rcases compute_cases e G entropy with ⟨x, hx⟩ | ⟨-, ⟨f, -, hx⟩ | ⟨model, w, notes, hfit, hx⟩⟩
  · rw [hx] at h
    cases h
  · rw [hx] at h
    cases h
  · rw [hx] at h
    cases h
    obtain ⟨g, hg⟩ := fitted_data hfit
    rw [reduceClusters_data] at hg
    exact reduceClusters_reduced hg

theorem fitPredict_sound {e : Engine α} (h : e.Consistent) (G : Generator σ α) (g : Grid α)
    (entropy : σ) : Sound G (e.fitPredict G g entropy) := by
  rcases fitPredict_cases e G g entropy with ⟨x, -, hx⟩ | ⟨warnings, e', hset, hend, hx⟩
  · rw [hx]
    exact ⟨h, fun _ => breaksOnly_error x⟩
  · have hstored : e'.Consistent := by
      have hkept := setData_consistent h g
      rwa [hset] at hkept
    obtain ⟨hconsistent, hbreaks⟩ := compute_sound hstored G entropy
    refine ⟨hend ▸ hconsistent, fun hG => ?_⟩
    rw [hend]
    rcases hx with ⟨f, hf, hx⟩ | ⟨-, hx⟩
    · rw [hx]
      intro b hb
      cases hb
      exact hbreaks hG b hf
    · rw [hx]
      exact breaksOnly_ofChecked _

theorem fitPredict_reduced {e : Engine α} {g : Grid α} {labels : Array ℕ}
    (h : (e.fitPredict G g entropy).1 = .ok labels) : (e.fitPredict G g entropy).2.Reduced := by
  rcases fitPredict_cases e G g entropy with
    ⟨x, -, hx⟩ | ⟨warnings, e', -, hend, ⟨f, -, hx⟩ | ⟨⟨notes, hok⟩, -⟩⟩
  · rw [hx] at h
    cases h
  · rw [hx] at h
    cases h
  · rw [hend]
    exact compute_reduced (Prod.ext hok rfl)

/-! ## Questions -/

section Centres

omit [Machine] [Add α] [Sub α] [Mul α] [Div α] [Neg α] [LT α] [LE α] [DecidableLT α]
  [DecidableLE α] [BEq α] [Scalar α]

theorem centres_spec {e : Engine α} {g : Grid α} (h : e.centres = .ok g) :
    ∃ m, e.model = some m ∧ m.centres = g := by
  unfold Engine.centres published at h
  split at h
  next m hm =>
    cases h
    exact ⟨m, hm, rfl⟩
  next => cases h

theorem centresFor_spec {e : Engine α} {g centres : Grid α} (h : e.centresFor g = .ok centres) :
    ∃ m, e.model = some m ∧ m.centres = centres ∧ g.cols = centres.cols := by
  obtain ⟨found, hfound, h⟩ := bind_eq_ok h
  obtain ⟨m, hm, rfl⟩ := centres_spec hfound
  split at h
  next => cases h
  next =>
    split at h
    next => cases h
    next hcols =>
      cases h
      exact ⟨m, hm, rfl, not_not.1 hcols⟩

end Centres

omit [Sub α] [Div α] [LE α] [DecidableLE α] in
theorem predict_breaksOnly {e : Engine α} (h : e.Consistent) (g : Grid α) :
    BreaksOnly e.Tolerates (e.predict g) := by
  unfold predict
  refine (breaksOnly_ofChecked _).bind fun centres hcentres => ?_
  obtain ⟨m, hm, rfl, hcols⟩ := centresFor_spec (ofChecked_eq_ok hcentres)
  obtain ⟨data, -, hfits⟩ := h.fits m hm
  have hpos : Positive m.centres.rows := ⟨hfits.centres_pos⟩
  rw [Grid.withCols?_eq hcols]
  dsimp only
  rw [dif_pos hpos]
  exact breaksOnly_ok _

omit [Sub α] [Div α] [LT α] [LE α] [DecidableLT α] [DecidableLE α] [BEq α] in
theorem transform_breaksOnly (e : Engine α) (g : Grid α) : BreaksOnly e.Tolerates (e.transform g) := by
  unfold transform
  refine (breaksOnly_ofChecked _).bind fun centres hcentres => ?_
  obtain ⟨m, -, -, hcols⟩ := centresFor_spec (ofChecked_eq_ok hcentres)
  rw [Grid.withCols?_eq hcols]
  exact breaksOnly_ok _

omit [Sub α] [Div α] [LE α] [DecidableLE α] in
theorem answer_breaksOnly {e : Engine α} (h : e.Consistent) (q : Question α) :
    BreaksOnly e.Tolerates (e.answer q) := by
  cases q with
  | labels => exact breaksOnly_done_ofChecked _
  | centres => exact breaksOnly_done_ofChecked _
  | info => exact breaksOnly_done_ofChecked _
  | readNumbers q out => exact breaksOnly_done_ofChecked _
  | readIntegers q out => exact breaksOnly_done_ofChecked _
  | predict g => exact (predict_breaksOnly h g).done
  | predictSlice rows buffer stride =>
    exact ((breaksOnly_ofChecked _).bind fun _ _ =>
      (breaksOnly_ofChecked _).bind fun g _ => predict_breaksOnly h g).done
  | transform g => exact (transform_breaksOnly e g).done
  | transformSlice rows buffer stride =>
    exact ((breaksOnly_ofChecked _).bind fun _ _ =>
      (breaksOnly_ofChecked _).bind fun g _ => transform_breaksOnly e g).done

/-! ## Sessions -/

theorem call_sound {e : Engine α} (h : e.Consistent) (G : Generator σ α) (c : Call σ α) :
    Sound G (e.call G c) := by
  cases c with
  | setData g => exact ⟨setData_consistent h g, fun _ => breaksOnly_done_ofChecked _⟩
  | setDataSlice rows cols buffer stride =>
    refine ⟨?_, fun _ => breaksOnly_done_ofChecked _⟩
    rw [call]
    rcases setDataSlice_cases e rows cols buffer stride with ⟨x, hx⟩ | ⟨g, hx⟩
    · rw [hx]
      exact h
    · rw [hx]
      exact setData_consistent h g
  | setInitialCentres g =>
    exact ⟨setInitialCentres_consistent h g, fun _ => breaksOnly_done_ofChecked _⟩
  | setInitialCentresSlice buffer stride =>
    refine ⟨?_, fun _ => breaksOnly_done_ofChecked _⟩
    rw [call]
    rcases setInitialCentresSlice_cases e buffer stride with ⟨x, hx⟩ | ⟨g, hx⟩
    · rw [hx]
      exact h
    · rw [hx]
      exact setInitialCentres_consistent h g
  | configure s => exact ⟨h.congr rfl rfl, fun _ => breaksOnly_ok _⟩
  | compute entropy =>
    have hsound := compute_sound h G entropy
    exact ⟨hsound.consistent, fun hG => (hsound.breaks hG).done⟩
  | fitPredict g entropy =>
    have hsound := fitPredict_sound h G g entropy
    exact ⟨hsound.consistent, fun hG => (hsound.breaks hG).done⟩
  | ask q => exact ⟨h, fun _ => answer_breaksOnly h q⟩

theorem run_consistent {e : Engine α} (h : e.Consistent) (G : Generator σ α)
    (calls : List (Call σ α)) : (e.run G calls).Consistent := by
  induction calls generalizing e with
  | nil => exact h
  | cons c calls ih =>
    rw [run_cons]
    exact ih (call_sound h G c).consistent

theorem call_reduced {e : Engine α} {c : Call σ α} (hc : c.Reduces) (h : (e.call G c).1 = .ok ()) :
    (e.call G c).2.Reduced := by
  cases hc with
  | setData g =>
    obtain ⟨warnings, hset⟩ := Outcome.done_ofChecked_eq_ok h
    exact setData_reduced (Prod.ext hset rfl)
  | setDataSlice rows cols buffer stride =>
    obtain ⟨warnings, hset⟩ := Outcome.done_ofChecked_eq_ok h
    rw [call]
    rcases setDataSlice_cases e rows cols buffer stride with ⟨x, hx⟩ | ⟨g, hx⟩
    · rw [hx] at hset
      cases hset
    · rw [hx] at hset ⊢
      exact setData_reduced (Prod.ext hset rfl)
  | compute entropy =>
    obtain ⟨warnings, hok⟩ := Outcome.done_eq_ok h
    exact compute_reduced (Prod.ext hok rfl)
  | fitPredict g entropy =>
    obtain ⟨labels, hok⟩ := Outcome.done_eq_ok h
    exact fitPredict_reduced hok

/-! ## Counters -/

/-- How a call ends, and the engine it leaves behind, with its counters as a machine counts them down. -/
def callOn (A : SizeArithmetic) (e : Engine α) (G : Generator σ α) :
    Call σ α → Option (Outcome Unit × Engine α)
  | .compute entropy => (e.computeOn A G entropy).map fun p => (p.1.done, p.2)
  | .fitPredict g entropy => (e.fitPredictOn A G g entropy).map fun p => (p.1.done, p.2)
  | c => some (e.call G c)

theorem callOn_eq (A : SizeArithmetic) (e : Engine α) (G : Generator σ α) (c : Call σ α) :
    e.callOn A G c = some (e.call G c) := by
  cases c with
  | compute entropy =>
    rw [callOn, computeOn_eq]
    rfl
  | fitPredict g entropy =>
    rw [callOn, fitPredictOn_eq]
    rfl
  | _ => rfl

/-- **The published model fits the stored data**, after any calls in any order and with any settings,
whatever the values of the data are. A call that stores or clusters data leaves no more clusters than
samples. Unless the generator refuses weights for another reason than an infinite total, no call reads
past an end or meets operands of different shapes. A call ends on a machine that stops below zero, or
wraps there, as it does in exact arithmetic: no counter is counted down below zero. The kernel finds a
centre even where no distance is a number. -/
theorem run_fits (G : Generator σ α) (s : Settings) (calls : List (Call σ α)) :
    let e := (ofSettings s : Engine α).run G calls
    (e.isComputed = true → ∃ g m, e.data = some g ∧ e.model = some m ∧ m.Fits g) ∧
    (∀ c : Call σ α, c.Reduces → (e.call G c).1 = .ok () →
      ∃ g, (e.call G c).2.data = some g ∧ (e.call G c).2.settings.clusters ≤ g.rows) ∧
    (G.RefusesUnbounded → ∀ c b, (e.call G c).1 = .error (.breach b) → (e.call G c).2.Tolerates b) ∧
    (∀ (A : SizeArithmetic) (c : Call σ α), e.callOn A G c = some (e.call G c)) ∧
    ∀ {K d L ld : ℕ} (row : Vector α ld) (centres : Matrix α K d) (h : Lanes.covered L K ≤ ld),
      0 < K → Lanes.nearest row (paddedNorms centres ld) h < K := by
  intro e
  have hconsistent : e.Consistent := run_consistent (ofSettings_consistent s) G calls
  refine ⟨fun hcomputed => ?_, fun c => call_reduced,
    fun hG c => (call_sound hconsistent G c).breaks hG, fun A => e.callOn_eq A G,
    fun row centres h hK => Lanes.nearest_lt hK row centres h⟩
  obtain ⟨m, hm⟩ := Option.isSome_iff_exists.1 hcomputed
  obtain ⟨g, hg, hfits⟩ := hconsistent.fits m hm
  exact ⟨g, m, hg, hm, hfits⟩

end Fit

/-- Two samples where five clusters are asked for, and no seed: a model of two clusters is published. -/
theorem run_fits_two_samples :
    letI := Machine.standard
    letI := RealFormat.plain
    let G := Keystream.generator ℝ
    let e := (ofSettings { clusters := 5 } : Engine ℝ).run G
      [.setData ⟨2, 1, #v[0, 10]⟩, .compute (Keystream.ofSeed 7)]
    (e.settings.seed = none ∧ e.settings.clusters = 2 ∧ e.isComputed = true ∧ G.RefusesUnbounded) ∧
      (∃ g m, e.data = some g ∧ e.model = some m ∧ m.Fits g) ∧
      ∀ c b, (e.call G c).1 = .error (.breach b) → (e.call G c).2.Tolerates b := by
  let _ := Machine.standard
  let _ := RealFormat.plain
  intro G e
  let entropy := Keystream.ofSeed 7
  let g : Grid ℝ := ⟨2, 1, #v[0, 10]⟩
  let stored : Engine ℝ := ⟨{ clusters := 2 }, some g, none, none⟩
  let plan : Plan ℝ := Plan.ofSettings stored.settings
  have hvalid : stored.settings.validate = .ok () := by
    have htolerance : (0 : Float) ≤ 1e-4 := by decide
    simp [stored, Settings.validate, htolerance]
  have hclustered : Clustered 2 2 := inferInstance
  obtain ⟨samples, hsamples⟩ : ∃ samples, Samples.ofGrid g = .ok samples := ⟨_, rfl⟩
  obtain ⟨m, hfresh⟩ : ∃ m, Method.fresh plan.algorithm 2 2 1 plan.width =
    .ok (some m : Option (Method ℝ 2 2)) := ⟨_, rfl⟩
  obtain ⟨seed, hseed⟩ : ∃ seed,
    plan.seeded (K := 2) G.toSampler samples none entropy = .ok seed := ⟨_, rfl⟩
  obtain ⟨run, hrun⟩ := Plan.exists_fit_once Nat.one_pos hfresh (Option.some_ne_none m).elim hseed
  have hgrid : plan.fitGrid G.toSampler g 2 none 1 entropy = .ok run.toModel := by
    have hchecked : Outcome.ofChecked (Samples.ofGrid g) = .ok samples := by
      rw [hsamples]
      rfl
    rw [Plan.fitGrid_eq, hchecked, Except.bind, hrun, Except.map]
  have hfitted : stored.fitted G entropy = .ok (run.toModel,
      if run.toModel.converged then [] else [.iterationLimit 300]) := by
    have hprepare : stored.prepare = .ok (g, none, 1) := rfl
    rw [fitted_of_prepare hprepare]
    show (plan.fitGrid G.toSampler g 2 none 1 entropy).map _ = _
    rw [hgrid]
    rfl
  have hset : ((ofSettings { clusters := 5 } : Engine ℝ).call G (.setData g)).2 = stored := rfl
  have hkept : stored.reduceClusters.2 = stored := rfl
  have he : e = { stored with model := some run.toModel } := calc
    e = ((ofSettings { clusters := 5 } : Engine ℝ).call G (.setData g)).2.run G [.compute entropy] :=
      run_cons _ _ _ _
    _ = (stored.compute G entropy).2 := by rw [hset, run_cons, run_nil, call_compute]
    _ = { stored.reduceClusters.2 with model := some run.toModel } :=
      compute_of_fitted hvalid (by rw [hkept, hfitted])
    _ = { stored with model := some run.toModel } := by rw [hkept]
  have hcomputed : e.isComputed = true := by
    rw [he]
    rfl
  have hG : G.RefusesUnbounded := Keystream.sampler_refusesUnbounded ℝ
  obtain ⟨hfits, -, hbreaks, -⟩ := run_fits G { clusters := 5 } [.setData g, .compute entropy]
  exact ⟨⟨by rw [he], by rw [he], hcomputed, hG⟩, hfits hcomputed, hbreaks hG⟩

end Engine

end Proximity
