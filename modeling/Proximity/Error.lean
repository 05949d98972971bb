import Proximity.Decimal

/-!
# Errors and warnings

What can go wrong in a call, as causes. `Error.message` and `Warning.message` hold all wording.
A `Breach` is not an answer to the caller: it says that a call broke a contract that the callee
does not check, so that there is no result at all.
-/

namespace Proximity

/-- Something a call needs that earlier calls have not provided. -/
inductive Missing where
  | data
  | result
  | initialCentres
  deriving Repr, DecidableEq

/-- Ways in which a strided view of a buffer cannot be addressed. -/
inductive LayoutFault where
  | overflow
  | outOfBounds
  deriving Repr, DecidableEq

/-- A size or value that no call accepts. -/
inductive Invalid where
  | noClusters
  | noRuns
  | noIterations
  | tolerance (tol : Decimal)
  | runCount
  | emptyData (rows cols : Nat)
  | emptyTable (rows cols : Nat)
  | emptyTree (rows cols : Nat)
  | emptyShape (rows cols : Nat)
  | layout (fault : LayoutFault)
  | notColumnMajor
  | notRowMajor
  | centresShape (rows cols gotRows gotCols : Nat)
  | centresCount (got clusters : Nat)
  | centresFeatures (got features : Nat)
  | noRows
  | features (expected got : Nat)
  | featuresDiffer (left right : Nat)
  | order (p : Decimal)
  | radius (eps : Decimal)
  | neighbourCount (candidates k : Nat)
  | leafSize
  | treeCosine
  | treeOrder (p : Decimal)
  | treeQuery (features rows cols : Nat)
  deriving Repr, DecidableEq

/-- A dimension or buffer that is too small for what it has to hold. -/
inductive TooShort where
  | stride (got least : Nat)
  | storage (got : Nat)
  | output (got : Nat)
  | infoBuffer (got : Nat)
  | labelBuffer (got : Nat)
  deriving Repr, DecidableEq

/-- A result asked for in a form that it does not have. -/
inductive WrongForm where
  | labelsAsNumbers
  | infoAsIntegers
  | centresAsIntegers
  deriving Repr, DecidableEq

/-- The answer of a call that did not succeed. -/
inductive Error where
  | missing (what : Missing)
  | invalid (cause : Invalid)
  | tooShort (required : Nat) (cause : TooShort)
  | incompatible (clusters samples : Nat)
  | outOfMemory
  | wrongForm (cause : WrongForm)
  deriving Repr, DecidableEq

/-- A condition worth reporting beside a result. -/
inductive Warning where
  | clustersReduced (requested used : Nat)
  | runsIgnored (requested : Nat)
  | iterationLimit (limit : Nat)
  deriving Repr, DecidableEq

/-- A contract that a call broke. -/
inductive Breach where
  /-- Operands of one operation have different shapes. -/
  | shapes
  /-- An index lies outside its range, or there is nothing to choose from. -/
  | range
  /-- The weights of a draw have no finite total. -/
  | unboundedWeights
  /-- A capacity exceeds what the address space holds. -/
  | capacity
  deriving Repr, DecidableEq

/-- Why a call has no result. -/
inductive Failure where
  | error (e : Error)
  | breach (b : Breach)
  deriving Repr, DecidableEq

/-- A result, or an error reported to the caller. -/
abbrev Checked (β : Type) := Except Error β

/-- A result, an error reported to the caller, or a breach of contract. -/
abbrev Outcome (β : Type) := Except Failure β

/-- A checked result where a breach could have occurred. -/
def Outcome.ofChecked {β : Type} (x : Checked β) : Outcome β := x.mapError .error

/-! ## Wording -/

/-- A shape as `rows x cols`. -/
def shapeText (rows cols : Nat) : String := s!"{rows} x {cols}"

/-- Wording of what is missing. -/
def Missing.message : Missing → String
  | data => "set_data has not been called"
  | result => "compute has not been called"
  | initialCentres => "initial centres have not been supplied"

/-- Wording of a view that cannot be addressed. -/
def LayoutFault.message : LayoutFault → String
  | overflow => "ShapeError/Overflow: arithmetic overflow"
  | outOfBounds => "ShapeError/OutOfBounds: out of bounds indexing"

/-- Wording of a size or value that is not accepted. -/
def Invalid.message : Invalid → String
  | noClusters => "n_clusters must be greater than 0"
  | noRuns => "n_init must be greater than 0"
  | noIterations => "max_iter must be greater than 0"
  | tolerance tol => "tol must be a non-negative number, got " ++ tol.text
  | runCount => "n_init must be at least 1"
  | emptyData r c => "data must have at least one sample and one feature, got " ++ shapeText r c
  | emptyTable r c => "data must be a non-empty matrix, got " ++ shapeText r c
  | emptyTree r c => "cannot build a k-d tree over a " ++ shapeText r c ++ " matrix"
  | emptyShape r c => "matrix dimensions must be positive, got " ++ shapeText r c
  | layout fault => "array shape: " ++ fault.message
  | notColumnMajor => "internal matrix is not stored column-major"
  | notRowMajor => "internal matrix is not row-major"
  | centresShape r c gr gc =>
    "initial centres must be " ++ shapeText r c ++ ", got " ++ shapeText gr gc
  | centresCount got k => s!"{got} initial centres were supplied for {k} clusters"
  | centresFeatures got d => s!"initial centres have {got} features but the data has {d}"
  | noRows => "no rows to process"
  | features expected got => s!"expected {expected} features, got {got}"
  | featuresDiffer left right => s!"feature counts differ: {left} and {right}"
  | order p => "Minkowski order p must be positive, got " ++ p.text
  | radius eps => "radius must be non-negative, got " ++ eps.text
  | neighbourCount n k => s!"k must be between 1 and {n}, got {k}"
  | leafSize => "leaf_size must be greater than 0"
  | treeCosine => "cosine distance is not supported by the k-d tree"
  | treeOrder p => "the k-d tree needs a Minkowski order p >= 1, got " ++ p.text
  | treeQuery d r c =>
    s!"query must be a non-empty matrix with {d} features, got " ++ shapeText r c

/-- Wording of what is too small, without the size that it needs. -/
def TooShort.message : TooShort → String
  | stride got least => s!"leading dimension {got} is smaller than {least}"
  | storage got => s!"matrix storage holds {got} elements"
  | output got => s!"output buffer holds {got} elements"
  | infoBuffer got => s!"info buffer holds {got} elements"
  | labelBuffer got => s!"label buffer holds {got} elements"

/-- Wording of a result asked for in the wrong form. -/
def WrongForm.message : WrongForm → String
  | labelsAsNumbers => "labels are integers, use get_int_result"
  | infoAsIntegers => "Info is not an integer result, use get_result"
  | centresAsIntegers => "ClusterCentres is not an integer result, use get_result"

/-- The text of an error; it begins with the kind of the error. -/
def Error.message : Error → String
  | missing what => "No data: " ++ what.message
  | invalid cause => "Invalid input: " ++ cause.message
  | tooShort required cause =>
    "Invalid array dimension: " ++ cause.message ++ s!" (required: {required})"
  | incompatible k n =>
    "Incompatible options: Hartigan-Wong needs 1 < n_clusters < n_samples, got n_clusters = "
      ++ toString k ++ " and n_samples = " ++ toString n
  | outOfMemory => "Memory allocation failed"
  | wrongForm cause => "Unknown query: " ++ cause.message

/-- The text of a warning. -/
def Warning.message : Warning → String
  | clustersReduced requested used =>
    s!"n_clusters = {requested} exceeds n_samples, using n_clusters = {used}"
  | runsIgnored requested =>
    s!"n_init = {requested} ignored with supplied initial centres, using n_init = 1"
  | iterationLimit limit => s!"the maximum number of iterations ({limit}) was reached"

end Proximity
