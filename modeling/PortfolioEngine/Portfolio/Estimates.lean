import Mathlib.LinearAlgebra.Matrix.Symmetric
import PortfolioEngine.Data
import PortfolioEngine.Lib.ExactFloat

/-!
# Estimates

`_to_return_matrix`, `estimate_mu` and `estimate_covariance` of `allocator.py`: from the closes in
a price frame to the mean returns and their covariance, in exact arithmetic. numpy's logarithm is a
parameter. A missing return is `none`, as the code makes NaN of the infinite ones.
-/

namespace PortfolioEngine.Estimates

variable {K : Type*} [Field K] [LinearOrder K] {n : ℕ}

/-! ## The return matrix -/

/-- A row of a price frame, whose close is NaN where the database has NULL. -/
structure Quote (K : Type*) where
  time : ℤ
  symbol : Symbol
  close : Flt K

/-- The index of the pivot. -/
def times (df : List (Quote K)) : List ℤ := (df.map Quote.time).dedup.insertionSort (· ≤ ·)

/-- The entry of the pivot at `t`, for one symbol. -/
def cell (df : List (Quote K)) (symbol : Symbol) (t : ℤ) : Flt K :=
  ((df.find? fun q => q.time = t ∧ q.symbol = symbol).map Quote.close).getD .nan

/-- The rows of the pivot, with a column for each symbol. -/
def pivot (df : List (Quote K)) (symbols : Fin n → Symbol) : List (Fin n → Flt K) :=
  (times df).map fun t i => cell df (symbols i) t

/-- `np.log(cur / prev)`, unless it is infinite or NaN. -/
def logReturn (log : Flt K → Flt K) (prev cur : Flt K) : Option K := (log (cur.div prev)).toFin?

/-- The rows of `_to_return_matrix`. The columns it drops are the ones without a return. -/
def toReturnMatrix (log : Flt K → Flt K) (df : List (Quote K)) (symbols : Fin n → Symbol) :
    List (Fin n → Option K) :=
  let prices := pivot df symbols
  let returns := List.zipWith (fun prev cur i => logReturn log (prev i) (cur i))
    ((fun _ => .nan) :: prices) prices
  returns.filter fun row => ∃ i, (row i).isSome

/-- Column `i` is not dropped. -/
def Kept (returns : List (Fin n → Option K)) (i : Fin n) : Prop := ∃ row ∈ returns, (row i).isSome

instance (returns : List (Fin n → Option K)) (i : Fin n) : Decidable (Kept returns i) := by
  unfold Kept; infer_instance

/-! ## The estimates -/

def mean (xs : List K) : K := xs.sum / xs.length

/-- `estimate_mu`. -/
def estimateMu (log : Flt K → Flt K) (shortPrices : List (Quote K)) (symbols : Fin n → Symbol) :
    Fin n → K :=
  let returns := toReturnMatrix log shortPrices symbols
  if returns.isEmpty then fun _ => 0
  else fun i =>
    if Kept returns i then mean (returns.filterMap fun row => row i) else 0

/-- Column `i` after `returns.fillna(0.0)`. -/
def filled (returns : List (Fin n → Option K)) (i : Fin n) : List K :=
  returns.map fun row => (row i).getD 0

/-- An entry of `returns.cov()`: the sample covariance. -/
def sampleCov (xs ys : List K) : K :=
  (List.zipWith (fun x y => (x - mean xs) * (y - mean ys)) xs ys).sum / (xs.length - 1)

/-- `estimate_covariance`. -/
def estimateCovariance (log : Flt K → Flt K) (prices : List (Quote K)) (symbols : Fin n → Symbol)
    (shrinkageLambda : K) : Matrix (Fin n) (Fin n) K :=
  let returns := toReturnMatrix log prices symbols
  if returns.isEmpty ∨ returns.length < 2 then max shrinkageLambda 1e-6 • 1
  else
    let cov := Matrix.of fun i j =>
      if Kept returns i ∧ Kept returns j then sampleCov (filled returns i) (filled returns j) else 0
    cov + max shrinkageLambda 1e-12 • 1

/-! ## The covariance is symmetric -/

omit [LinearOrder K] in
theorem sampleCov_comm {xs ys : List K} (h : xs.length = ys.length) :
    sampleCov xs ys = sampleCov ys xs := by
  unfold sampleCov
  rw [List.zipWith_comm, h]
  congr 3
  funext x y
  exact mul_comm _ _

omit [LinearOrder K] in
theorem length_filled (returns : List (Fin n → Option K)) (i : Fin n) :
    (filled returns i).length = returns.length := List.length_map _

theorem estimateCovariance_isSymm (log : Flt K → Flt K) (prices : List (Quote K))
    (symbols : Fin n → Symbol) (shrinkageLambda : K) :
    (estimateCovariance log prices symbols shrinkageLambda).IsSymm := by
  have hdiag : ∀ x : K, (x • (1 : Matrix (Fin n) (Fin n) K)).IsSymm := fun x =>
    Matrix.isSymm_one.smul x
  unfold estimateCovariance
  dsimp only
  split_ifs
  · exact hdiag _
  · refine Matrix.IsSymm.add (Matrix.IsSymm.ext fun i j => ?_) (hdiag _)
    simp only [Matrix.of_apply]
    by_cases hi : Kept (toReturnMatrix log prices symbols) i <;>
      by_cases hj : Kept (toReturnMatrix log prices symbols) j
    · rw [if_pos ⟨hj, hi⟩, if_pos ⟨hi, hj⟩, sampleCov_comm]
      rw [length_filled, length_filled]
    all_goals simp only [hi, hj, and_true, and_false, if_false]

end PortfolioEngine.Estimates
