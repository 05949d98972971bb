import Proximity.Proofs.Sessions
import Proximity.Proofs.FilledRows

/-!
# Failed calls

A call that fails leaves data, initial centres and the model as they were; of the settings only the
number of clusters may have been reduced. What a call publishes it publishes as its last step, whatever
storing or fitting has failed for: `setDataBy` and `computeBy` are the calls with any check of the data
and any way to fit a model.

`fitPredict` is made of two such calls, and the first of them forgets the model: if the second one fails,
the model is gone.

1. `Engine.Kept`: what a failed call leaves.
2. `Call.Stores`: the calls that keep it, and `Engine.failed_call_keeps`.
3. `Engine.failed_fitPredict_forgets` and `Engine.fitPredict_loses_model`.
-/

namespace Proximity

variable {α σ : Type}

/-- Calls that store data or initial centres, or publish a model. -/
inductive Call.Stores : Call σ α → Prop
  | setData (g : Grid α) : (Call.setData g).Stores
  | setDataSlice (rows cols : ℕ) (buffer : Array α) (stride : ℕ) :
    (Call.setDataSlice rows cols buffer stride).Stores
  | setInitialCentres (g : Grid α) : (Call.setInitialCentres g).Stores
  | setInitialCentresSlice (buffer : Array α) (stride : ℕ) :
    (Call.setInitialCentresSlice buffer stride).Stores
  | compute (entropy : σ) : (Call.compute entropy).Stores

theorem Outcome.done_eq_error {β : Type} {x : Outcome β} {f : Failure} (h : x.done = .error f) :
    x = .error f := by
  cases x with
  | error f' => exact congrArg Except.error (Except.error.inj h)
  | ok a => cases h

theorem Outcome.done_ofChecked_eq_error {β : Type} {x : Checked β} {f : Failure}
    (h : (Outcome.ofChecked x).done = .error f) : ∃ y, x = .error y := by
  cases x with
  | error y => exact ⟨y, rfl⟩
  | ok a => cases h

theorem exists_error_of_toOption {ε β : Type} {x : Except ε β} (h : x.toOption = none) :
    ∃ y, x = .error y := by
  cases x with
  | error y => exact ⟨y, rfl⟩
  | ok a => cases h

theorem copyOut_failed {g : Grid α} {out : Array α} {o : Order} {x : Error}
    (h : (copyOut g out o).1 = .error x) : (copyOut g out o).2 = out := by
  unfold copyOut at h ⊢
  dsimp only at h ⊢
  split at h
  next hshort => rw [if_pos hshort]
  next => cases h

namespace Engine

/-! ## What is kept -/

/-- Data, initial centres and the model are as they were, and so are the settings, except that the
number of clusters may have been reduced to the number of samples. -/
structure Kept (e e' : Engine α) : Prop where
  data : e'.data = e.data
  initialCentres : e'.initialCentres = e.initialCentres
  model : e'.model = e.model
  settings : e'.settings = e.settings ∨ ∃ g, e.data = some g ∧ g.rows < e.settings.clusters ∧
    e'.settings = { e.settings with clusters := g.rows }

theorem Kept.refl (e : Engine α) : e.Kept e := ⟨rfl, rfl, rfl, .inl rfl⟩

theorem Kept.reduceClusters (e : Engine α) : e.Kept e.reduceClusters.2 := by
  unfold Engine.reduceClusters
  cases hdata : e.data with
  | none => exact .refl e
  | some g =>
    dsimp only
    split
    next => exact .refl e
    next hlt => exact ⟨hdata.symm ▸ rfl, rfl, rfl, .inr ⟨g, hdata, not_le.1 hlt, rfl⟩⟩

/-- The results are those from before. -/
theorem Kept.results {e e' : Engine α} (h : e.Kept e') :
    e'.isComputed = e.isComputed ∧ e'.labels = e.labels ∧ e'.centres = e.centres ∧
      e'.info = e.info := by
  have hpublished : e'.published = e.published := by rw [published, h.model, published]
  have hstored : e'.storedData = e.storedData := by rw [storedData, h.data, storedData]
  refine ⟨by rw [isComputed, h.model, isComputed], ?_, ?_, ?_⟩
  · rw [labels, hpublished, labels]
  · rw [centres, hpublished, centres]
  · rw [info, hpublished, hstored, info]

/-! ## Storing and fitting in any way -/

/-- Data stored after any check of them. -/
def setDataBy (check : Grid α → Checked Unit) (e : Engine α) (g : Grid α) :
    Checked (List Warning) × Engine α :=
  match check g with
  | .error x => (.error x, e)
  | .ok () =>
    let (warning, e) := reduceClusters { e with data := some g, model := none }
    (.ok warning.toList, e)

/-- The stored data clustered by any way to fit a model. -/
def computeBy (fit : Engine α → Outcome (Model α × List Warning)) (e : Engine α) :
    Outcome (List Warning) × Engine α :=
  match e.settings.validate with
  | .error x => (.error (.error x), e)
  | .ok () =>
    let (warning, e) := e.reduceClusters
    match fit e with
    | .error f => (.error f, e)
    | .ok (model, warnings) => (.ok (warning.toList ++ warnings), { e with model := some model })

theorem setDataBy_failed {check : Grid α → Checked Unit} {e : Engine α} {g : Grid α} {x : Error}
    (h : (e.setDataBy check g).1 = .error x) : (e.setDataBy check g).2 = e := by
  unfold setDataBy at h ⊢
  cases hcheck : check g with
  | error y => rfl
  | ok _ =>
    rw [hcheck] at h
    cases h

theorem computeBy_failed {fit : Engine α → Outcome (Model α × List Warning)} {e : Engine α}
    {f : Failure} (h : (e.computeBy fit).1 = .error f) : e.Kept (e.computeBy fit).2 := by
  unfold computeBy at h ⊢
  cases hvalid : e.settings.validate with
  | error x => exact .refl e
  | ok _ =>
    rw [hvalid] at h
    dsimp only at h ⊢
    cases hfit : fit e.reduceClusters.2 with
    | error f' => exact .reduceClusters e
    | ok p =>
      rw [hfit] at h
      cases h

/-! ## Failed calls -/

theorem fillFront_failed {β : Type} {out values : Array β} {short : ℕ → TooShort} {x : Error}
    (h : (fillFront out values short).1 = .error x) : (fillFront out values short).2 = out := by
  unfold fillFront at h ⊢
  split at h
  next hshort => rw [if_pos hshort]
  next => cases h

theorem fillNumbers_failed [Scalar α] {e : Engine α} {q : Query} {out : Array α} {x : Error}
    (h : (e.fillNumbers q out).1 = .error x) : (e.fillNumbers q out).2 = out := by
  cases q with
  | labels => rfl
  | info =>
    unfold fillNumbers at h ⊢
    cases hinfo : e.info with
    | error y => rfl
    | ok i =>
      rw [hinfo] at h
      exact fillFront_failed h
  | centres =>
    unfold fillNumbers at h ⊢
    cases hcentres : e.centres with
    | error y => rfl
    | ok g =>
      rw [hcentres] at h
      exact copyOut_failed h

theorem fillIntegers_failed {e : Engine α} {q : Query} {out : Array ℕ} {x : Error}
    (h : (e.fillIntegers q out).1 = .error x) : (e.fillIntegers q out).2 = out := by
  cases q with
  | info => rfl
  | centres => rfl
  | labels =>
    unfold fillIntegers at h ⊢
    cases hlabels : e.labels with
    | error y => rfl
    | ok labels =>
      rw [hlabels] at h
      exact fillFront_failed h

theorem setData_failed [Machine] [Scalar α] {e : Engine α} {g : Grid α} {x : Error}
    (h : (e.setData g).1 = .error x) : (e.setData g).2 = e := by
  have hby : e.setData g = e.setDataBy checkData g := rfl
  rw [hby] at h ⊢
  exact setDataBy_failed h

theorem setDataSlice_failed [Machine] [Scalar α] {e : Engine α} {rows cols : ℕ} {buffer : Array α}
    {stride : ℕ} {x : Error} (h : (e.setDataSlice rows cols buffer stride).1 = .error x) :
    (e.setDataSlice rows cols buffer stride).2 = e := by
  rcases setDataSlice_cases e rows cols buffer stride with ⟨y, hy⟩ | ⟨g, hg⟩
  · rw [hy]
  · rw [hg] at h ⊢
    exact setData_failed h

theorem setInitialCentres_failed {e : Engine α} {g : Grid α} {x : Error}
    (h : (e.setInitialCentres g).1 = .error x) : (e.setInitialCentres g).2 = e := by
  rcases setInitialCentres_cases e g with ⟨y, hy⟩ | hok
  · rw [hy]
  · rw [hok] at h
    cases h

theorem setInitialCentresSlice_failed [Scalar α] {e : Engine α} {buffer : Array α} {stride : ℕ}
    {x : Error} (h : (e.setInitialCentresSlice buffer stride).1 = .error x) :
    (e.setInitialCentresSlice buffer stride).2 = e := by
  rcases setInitialCentresSlice_cases e buffer stride with ⟨y, hy⟩ | ⟨g, hg⟩
  · rw [hy]
  · rw [hg] at h ⊢
    exact setInitialCentres_failed h

/-- With data the number of clusters is all that is reduced. -/
theorem reduceClusters_of_data {e : Engine α} {g : Grid α} (h : e.data = some g) :
    e.reduceClusters.2 = { e with settings.clusters := min e.settings.clusters g.rows } := by
  unfold reduceClusters
  rw [h]
  dsimp only
  split
  next hle => rw [min_eq_left hle, ← h]
  next hlt => rw [min_eq_right (not_le.1 hlt).le, ← h]

/-- Storing replaces the data and forgets the model. -/
theorem setData_stored [Machine] [Scalar α] {e : Engine α} {g : Grid α} {warnings : List Warning}
    (h : (e.setData g).1 = .ok warnings) :
    (e.setData g).2 = { e with
      settings.clusters := min e.settings.clusters g.rows, data := some g, model := none } := by
  rcases setData_cases e g with ⟨x, hx⟩ | ⟨-, w, hx⟩
  · rw [hx] at h
    cases h
  · rw [hx]
    exact reduceClusters_of_data rfl

theorem setDataSlice_stored [Machine] [Scalar α] {e : Engine α} {rows cols : ℕ} {buffer : Array α}
    {stride : ℕ} {warnings : List Warning}
    (h : (e.setDataSlice rows cols buffer stride).1 = .ok warnings) :
    ∃ g, readStrided buffer rows cols stride e.settings.order = .ok g ∧
      (e.setDataSlice rows cols buffer stride).2 = { e with
        settings.clusters := min e.settings.clusters g.rows, data := some g, model := none } := by
  unfold setDataSlice at h ⊢
  cases hread : readStrided buffer rows cols stride e.settings.order with
  | error x =>
    rw [hread] at h
    cases h
  | ok g =>
    rw [hread] at h
    exact ⟨g, rfl, setData_stored h⟩

/-- Where there are no more clusters than samples all is kept. -/
theorem Kept.eq {e e' : Engine α} (h : e.Kept e')
    (hle : ∀ g, e.data = some g → e.settings.clusters ≤ g.rows) : e' = e := by
  have hsettings : e'.settings = e.settings := by
    rcases h.settings with hsame | ⟨g, hg, hlt, -⟩
    · exact hsame
    · exact absurd (hle g hg) (not_le.2 hlt)
  calc e' = ⟨e'.settings, e'.data, e'.initialCentres, e'.model⟩ := rfl
    _ = e := by rw [hsettings, h.data, h.initialCentres, h.model]

section Fit

variable [Machine] [Add α] [Sub α] [Mul α] [Div α] [Neg α] [LT α] [LE α] [DecidableLT α]
  [DecidableLE α] [BEq α] [Scalar α] {G : Generator σ α} {entropy : σ}

theorem compute_failed {e : Engine α} {f : Failure} (h : (e.compute G entropy).1 = .error f) :
    e.Kept (e.compute G entropy).2 := by
  have hby : e.compute G entropy = e.computeBy (·.fitted G entropy) := rfl
  rw [hby] at h ⊢
  exact computeBy_failed h

/-- A call that stores or computes and fails keeps the state. -/
theorem call_failed {e : Engine α} {c : Call σ α} (hc : c.Stores) {f : Failure}
    (h : (e.call G c).1 = .error f) : e.Kept (e.call G c).2 := by
  cases hc with
  | setData g =>
    obtain ⟨x, hx⟩ := Outcome.done_ofChecked_eq_error h
    rw [call, setData_failed hx]
    exact .refl e
  | setDataSlice rows cols buffer stride =>
    obtain ⟨x, hx⟩ := Outcome.done_ofChecked_eq_error h
    rw [call, setDataSlice_failed hx]
    exact .refl e
  | setInitialCentres g =>
    obtain ⟨x, hx⟩ := Outcome.done_ofChecked_eq_error h
    rw [call, setInitialCentres_failed hx]
    exact .refl e
  | setInitialCentresSlice buffer stride =>
    obtain ⟨x, hx⟩ := Outcome.done_ofChecked_eq_error h
    rw [call, setInitialCentresSlice_failed hx]
    exact .refl e
  | compute entropy => exact compute_failed (Outcome.done_eq_error h)

/-- **A call that fails leaves what is stored and published as it was**, and the results with it: of
the settings only the number of clusters may have been reduced to the number of samples. This does not
depend on what storing or fitting fails for, or on where random choices come from. Neither does filling
a buffer that fails write into it. Storing data forgets the model, and a computation that succeeds
publishes one. -/
theorem failed_call_keeps (e : Engine α) (G : Generator σ α) :
    (∀ c : Call σ α, c.Stores → ∀ f, (e.call G c).1 = .error f →
      let e' := (e.call G c).2
      e.Kept e' ∧ e'.isComputed = e.isComputed ∧ e'.labels = e.labels ∧ e'.centres = e.centres ∧
        e'.info = e.info) ∧
    (∀ check g x, (e.setDataBy check g).1 = .error x → (e.setDataBy check g).2 = e) ∧
    (∀ fit f, (e.computeBy fit).1 = .error f → e.Kept (e.computeBy fit).2) ∧
    (∀ q out x, (e.fillNumbers q out).1 = .error x → (e.fillNumbers q out).2 = out) ∧
    (∀ q out x, (e.fillIntegers q out).1 = .error x → (e.fillIntegers q out).2 = out) ∧
    (∀ g warnings, (e.setData g).1 = .ok warnings → (e.setData g).2 = { e with
      settings.clusters := min e.settings.clusters g.rows, data := some g, model := none }) ∧
    (∀ rows cols buffer stride warnings,
      (e.setDataSlice rows cols buffer stride).1 = .ok warnings →
      ∃ g, readStrided buffer rows cols stride e.settings.order = .ok g ∧
        (e.setDataSlice rows cols buffer stride).2 = { e with
          settings.clusters := min e.settings.clusters g.rows, data := some g, model := none }) ∧
    ∀ entropy warnings, (e.compute G entropy).1 = .ok warnings → ∃ model notes,
      e.reduceClusters.2.fitted G entropy = .ok (model, notes) ∧
        (e.compute G entropy).2 = { e.reduceClusters.2 with model := some model } := by
  refine ⟨fun c hc f h => ?_, fun _ _ _ => setDataBy_failed, fun _ _ => computeBy_failed,
    fun _ _ _ => fillNumbers_failed, fun _ _ _ => fillIntegers_failed, fun _ _ => setData_stored,
    fun _ _ _ _ _ => setDataSlice_stored, fun entropy warnings h => ?_⟩
  · have hkept := call_failed hc h
    exact ⟨hkept, hkept.results⟩
  · obtain ⟨-, model, notes, hfitted, -, hleft⟩ := compute_eq_ok (Prod.ext h rfl)
    exact ⟨model, notes, hfitted, hleft⟩

end Fit

/-- A model of one cluster, and then transfers between five clusters of the two samples: the computation
reduces the number of clusters, is refused, and keeps the model. -/
theorem failed_call_keeps_two_samples :
    letI := Machine.standard
    let G := Keystream.generator Float
    let entropy := Keystream.ofSeed 0
    let e : Engine Float := (ofSettings { seeding := .supplied }).run G
      [.setData ⟨2, 1, #v[0, 10]⟩, .setInitialCentres ⟨1, 1, #v[4]⟩, .compute entropy,
        .configure { clusters := 5, algorithm := .hartiganWong }]
    let e' := (e.call G (.compute entropy)).2
    (∃ f, (e.call G (.compute entropy)).1 = .error f) ∧ e'.settings.clusters = 2 ∧ e.isComputed = true ∧
      e'.isComputed = e.isComputed ∧ e'.labels = e.labels ∧ e'.info = e.info := by
  let _ := Machine.standard
  intro G entropy e e'
  have hnone : (e.call G (.compute entropy)).1.toOption = none := by decide +kernel
  obtain ⟨f, hf⟩ := exists_error_of_toOption hnone
  obtain ⟨-, hcomputed, hlabels, -, hinfo⟩ :=
    (failed_call_keeps e G).1 (.compute entropy) (.compute entropy) f hf
  exact ⟨⟨f, hf⟩, by decide +kernel, by decide +kernel, hcomputed, hlabels, hinfo⟩

/-! ## Data that are stored and clustered -/

section Fit

variable [Machine] [Add α] [Sub α] [Mul α] [Div α] [Neg α] [LT α] [LE α] [DecidableLT α]
  [DecidableLE α] [BEq α] [Scalar α] {G : Generator σ α} {entropy : σ}

/-- `fitPredict` fails as storing does, or as the computation does that follows. -/
theorem fitPredict_failed {e : Engine α} {g : Grid α} {f : Failure}
    (h : (e.fitPredict G g entropy).1 = .error f) :
    (∃ x, (e.setData g).1 = .error x ∧ f = .error x ∧ (e.fitPredict G g entropy).2 = e) ∨
      (∃ warnings, (e.setData g).1 = .ok warnings) ∧
        ((e.setData g).2.compute G entropy).1 = .error f ∧
        (e.fitPredict G g entropy).2 = ((e.setData g).2.compute G entropy).2 := by
  rcases fitPredict_cases e G g entropy with ⟨x, hset, hfit⟩ |
    ⟨warnings, e', hset, hleft, ⟨f', hcompute, hfit⟩ | ⟨⟨notes, hcompute⟩, hfit⟩⟩
  · rw [hfit] at h ⊢
    exact .inl ⟨x, by rw [hset], (Except.error.inj h).symm, rfl⟩
  · rw [hfit] at h
    rw [hset, hleft]
    exact .inr ⟨⟨warnings, rfl⟩, hcompute.trans (congrArg Except.error (Except.error.inj h)), rfl⟩
  · -- a computation that succeeds has labels
    have hok : e'.compute G entropy = (.ok notes, (e'.compute G entropy).2) := Prod.ext hcompute rfl
    obtain ⟨-, model, -, -, -, hpublished⟩ := compute_eq_ok hok
    rw [hfit, hpublished] at h
    cases h

/-- **What a failed `fitPredict` leaves.** If storing the data fails, all is as it was. If the
computation fails, the new data are stored, the number of clusters is reduced to the number of their
samples, and there is no model. So a published model survives exactly where storing has failed. -/
theorem failed_fitPredict_forgets {e : Engine α} {g : Grid α} {f : Failure}
    (h : (e.fitPredict G g entropy).1 = .error f) :
    let e' := (e.fitPredict G g entropy).2
    ((∃ x, (e.setData g).1 = .error x ∧ f = .error x) ∧ e' = e ∨
      (∃ warnings, (e.setData g).1 = .ok warnings) ∧ e' = { e with
        settings.clusters := min e.settings.clusters g.rows, data := some g, model := none }) ∧
    (e.isComputed = true → (e'.isComputed = true ↔ ∃ x, (e.setData g).1 = .error x) ∧
      (e'.isComputed = true →
        e'.labels = e.labels ∧ e'.centres = e.centres ∧ e'.info = e.info)) := by
  intro e'
  rcases fitPredict_failed h with ⟨x, hset, hf, hleft⟩ | ⟨⟨warnings, hset⟩, hcompute, hleft⟩
  · have he' : e' = e := hleft
    rw [he']
    exact ⟨.inl ⟨⟨x, hset, hf⟩, rfl⟩, fun hcomputed =>
      ⟨iff_of_true hcomputed ⟨x, hset⟩, fun _ => ⟨rfl, rfl, rfl⟩⟩⟩
  · have hstored := setData_stored hset
    have he' : e' = { e with
        settings.clusters := min e.settings.clusters g.rows, data := some g, model := none } := by
      rw [← hstored]
      refine hleft.trans ((compute_failed hcompute).eq fun g' hg' => ?_)
      rw [hstored] at hg' ⊢
      obtain rfl : g = g' := Option.some.inj hg'
      exact min_le_right _ _
    have hnone : ¬ e'.isComputed = true := by
      rw [he']
      exact Bool.noConfusion
    refine ⟨.inr ⟨⟨warnings, hset⟩, he'⟩, fun _ => ⟨iff_of_false hnone ?_, fun h => absurd h hnone⟩⟩
    rintro ⟨x, hx⟩
    rw [hset] at hx
    cases hx

end Fit

/-- No data can be stored without samples: the model stays. -/
theorem failed_fitPredict_forgets_no_samples :
    letI := Machine.standard
    let G := Keystream.generator Float
    let entropy := Keystream.ofSeed 0
    let e : Engine Float := (ofSettings { seeding := .supplied }).run G
      [.setData ⟨1, 1, #v[1]⟩, .setInitialCentres ⟨1, 1, #v[1]⟩, .compute entropy]
    let g : Grid Float := ⟨0, 1, #v[]⟩
    let e' := (e.fitPredict G g entropy).2
    (∃ f, (e.fitPredict G g entropy).1 = .error f) ∧ e.isComputed = true ∧
      e'.isComputed = true ∧ e'.labels = e.labels := by
  let _ := Machine.standard
  intro G entropy e g e'
  have hcomputed : e.isComputed = true := by decide +kernel
  have hset : (e.setData g).1 = .error (.invalid (.emptyData 0 1)) := rfl
  have hfit : (e.fitPredict G g entropy).1 = .error (.error (.invalid (.emptyData 0 1))) := rfl
  obtain ⟨hkept, hresults⟩ := (failed_fitPredict_forgets hfit).2 hcomputed
  have hstill := hkept.2 ⟨_, hset⟩
  exact ⟨⟨_, hfit⟩, hcomputed, hstill, (hresults hstill).1⟩

/-- With a tolerance that no computation accepts the data are stored before it is refused, and the
published model is gone. -/
theorem fitPredict_loses_model :
    letI := Machine.standard
    let G := Keystream.generator Float
    let entropy := Keystream.ofSeed 0
    let e : Engine Float := (ofSettings { seeding := .supplied }).run G
      [.setData ⟨1, 1, #v[1]⟩, .setInitialCentres ⟨1, 1, #v[1]⟩, .compute entropy,
        .configure { seeding := .supplied, tolerance := -1 }]
    let g : Grid Float := ⟨1, 1, #v[1]⟩
    let e' := (e.fitPredict G g entropy).2
    e.isComputed = true ∧ e.labels = .ok #[0] ∧ (∃ f, (e.fitPredict G g entropy).1 = .error f) ∧
      e'.isComputed = false ∧ ∀ labels, e'.labels ≠ .ok labels := by
  let _ := Machine.standard
  intro G entropy e g e'
  have hlabels : e.labels.toOption = some #[0] := by decide +kernel
  have hfit : (e.fitPredict G g entropy).1.toOption = none := by decide +kernel
  have hlost : e'.labels.toOption = none := by decide +kernel
  refine ⟨by decide +kernel, eq_ok_of_toOption hlabels, exists_error_of_toOption hfit,
    by decide +kernel, fun labels h => ?_⟩
  rw [h] at hlost
  cases hlost

end Engine

end Proximity
