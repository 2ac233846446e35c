import MicroSampler.Library.Loops
import MicroSampler.Simulation.Context

/-!
# The statistical analysis of columns of any type

The cells of a timing table come from the documents that the harness prints, and need not be
integers. What the table library then computes belongs to a `ColumnLibrary`: its aggregation,
selection and arithmetic on scalars of any type, each of which may raise. What
`generate_statistical_analysis` makes of them is the program below.

`analyseColumns_isOk_iff`: it ends normally on the tables on which every operation that it
applies does, where every selection for a test has a sample and there is an iteration.
-/

namespace MicroSampler.Statistics

open Json Loops Simulation

/-! ## The table library -/

/-- A row of `groupby(…)["duration"].agg(…).reset_index()`. -/
structure AggregateRow (F : Type) where
  keys : List F
  count : F
  mean : F
  median : F
  std : F
  min : F
  max : F

/-- What the table library does with columns of any type. `F` is the type of its scalars. -/
structure ColumnLibrary (F : Type) where
  /-- The scalar of an integer. -/
  ofInt : Int → F
  /-- `pd.isna`. -/
  isna : F → Bool
  /-- `int(…)`. -/
  int : F → Except Exn Int
  /-- `groupby(columns)["duration"].agg(…).reset_index().sort_values(columns)`. -/
  aggregate : List CodePoints → Table → Except Exn (List (AggregateRow F))
  /-- `df[df[column] == value]`. -/
  select : CodePoints → F → Table → Except Exn Table
  /-- `sorted(df[column].unique())`. -/
  sortedUnique : CodePoints → Table → Except Exn (List F)
  /-- `perform_welch_test` of the durations of two tables. -/
  ttestInd : Table → Table → Except Exn (F × F)
  /-- `mean()` of the durations of a table. -/
  mean : Table → Except Exn F
  /-- `mean()` of a column of scores. -/
  average : List F → Except Exn F
  abs : F → Except Exn F
  neg : F → Except Exn F
  add : F → F → Except Exn F
  sub : F → F → Except Exn F
  mul : F → F → Except Exn F
  div : F → F → Except Exn F
  /-- `np.e ** x`. -/
  exp : F → Except Exn F
  /-- `pvalue < 0.05`. -/
  significant : F → Bool
  /-- `min(-np.log10(max(pvalue, 1e-300)) / 10, 1.0)`. -/
  strength : F → F
  /-- `1.0 - abs(s0 - s1) / (s0 + s1)`, where the sum is not zero. -/
  balance : Nat → Nat → F

/-- `name in df.columns`. -/
def hasColumn (table : Table) (name : CodePoints) : Bool :=
  table.any fun row => (row.get? name).isSome

/-- A library that refuses every column. -/
def refusingColumns : ColumnLibrary Unit where
  ofInt := fun _ => ()
  isna := fun _ => false
  int := fun _ => .error .typeError
  aggregate := fun _ _ => .error .typeError
  select := fun _ _ _ => .error .typeError
  sortedUnique := fun _ _ => .error .typeError
  ttestInd := fun _ _ => .error .typeError
  mean := fun _ => .error .typeError
  average := fun _ => .error .typeError
  abs := fun _ => .error .typeError
  neg := fun _ => .error .typeError
  add := fun _ _ => .error .typeError
  sub := fun _ _ => .error .typeError
  mul := fun _ _ => .error .typeError
  div := fun _ _ => .error .typeError
  exp := fun _ => .error .typeError
  significant := fun _ => false
  strength := fun _ => ()
  balance := fun _ _ => ()

/-! ## The tables -/

/-- A row of a distribution table, the keys in front. -/
structure ColumnDistributionRow (F : Type) where
  keys : List Int
  samples : Int
  mean : F
  median : F
  stdDev : F
  min : Int
  max : Int

structure ColumnWelchRow (F : Type) where
  samples0 : Nat
  samples1 : Nat
  mean0 : F
  mean1 : F
  statistic : F
  pvalue : F
  significant : Bool
  score : F

structure ColumnIterationWelchRow (F : Type) where
  test : ColumnWelchRow F
  iteration : F

/-- `StatisticalAnalysisResults` of columns of any type. -/
structure ColumnResults (F : Type) where
  globalDistribution : List (ColumnDistributionRow F)
  iterationDistribution : List (ColumnDistributionRow F)
  iterationWelchTtestData : List (ColumnIterationWelchRow F)
  globalWelchTtestData : ColumnWelchRow F
  globalScore : F
  iterationScore : F

section Program

variable {F : Type} (lib : ColumnLibrary F)

/-- One pass of the loop over the aggregated rows. -/
def columnDistributionRow (row : AggregateRow F) : Except Exn (ColumnDistributionRow F) := do
  let stdDev := if lib.isna row.std then lib.ofInt 0 else row.std
  let keys ← row.keys.mapM lib.int
  let samples ← lib.int row.count
  let min ← lib.int row.min
  let max ← lib.int row.max
  pure ⟨keys, samples, row.mean, row.median, stdDev, min, max⟩

/-- `generate_global_distribution_table` and `generate_iteration_distribution_table`. -/
def columnDistributionTable (groupColumns : List CodePoints) (table : Table) :
    Except Exn (List (ColumnDistributionRow F)) := do
  let grouped ← lib.aggregate groupColumns table
  grouped.mapM (columnDistributionRow lib)

/-- The score of a test. The sample balance is a quotient of Python integers. -/
def columnScore (pvalue c0m c1m : F) (s0 s1 : Nat) : Except Exn F := do
  let distance ← lib.abs (← lib.sub c0m c1m)
  let relative ← lib.div distance (← lib.add c0m c1m)
  let weighted ← lib.mul (lib.strength pvalue) relative
  if s0 + s1 = 0 then throw .zeroDivisionError
  let balanced ← lib.mul weighted (lib.balance s0 s1)
  lib.mul balanced (lib.ofInt 100)

/-- `generate_welch_ttest_table`. -/
def columnWelchTable (table : Table) : Except Exn (ColumnWelchRow F) := do
  let classZero ← lib.select (codes "class") (lib.ofInt 0) table
  let classOne ← lib.select (codes "class") (lib.ofInt 1) table
  let test ← lib.ttestInd classZero classOne
  let c0m ← lib.mean classZero
  let c1m ← lib.mean classOne
  let score ← columnScore lib test.2 c0m c1m classZero.length classOne.length
  pure
    { samples0 := classZero.length
      samples1 := classOne.length
      mean0 := c0m
      mean1 := c1m
      statistic := test.1
      pvalue := test.2
      significant := lib.significant test.2
      score := score }

/-- `1 - np.e ** (-iteration / 30)`. -/
def columnDamping (iteration : F) : Except Exn F := do
  let exponent ← lib.div (← lib.neg iteration) (lib.ofInt 30)
  lib.sub (lib.ofInt 1) (← lib.exp exponent)

/-- One pass of the loop over the iterations. -/
def columnIterationRow (table : Table) (iteration : F) :
    Except Exn (ColumnIterationWelchRow F) := do
  let subset ← lib.select (codes "inner_iteration") iteration table
  let test ← columnWelchTable lib subset
  let damping ← columnDamping lib iteration
  let score ← lib.mul test.score damping
  pure ⟨{ test with score := score }, iteration⟩

/-- `generate_iteration_welch_ttest_table`; `pd.concat` refuses an empty list. -/
def columnIterationTable (table : Table) : Except Exn (List (ColumnIterationWelchRow F)) := do
  let iterations ← lib.sortedUnique (codes "inner_iteration") table
  let tests ← iterations.mapM (columnIterationRow lib table)
  if tests.isEmpty then throw .valueError else pure tests

/-- `generate_statistical_analysis` of a table with the columns `class` and `duration`. -/
def analyseColumns (table : Table) : Except Exn (ColumnResults F) := do
  let globalDistribution ← columnDistributionTable lib [codes "class"] table
  if !hasColumn table (codes "inner_iteration") then
    throw (.keyError (codes "inner_iteration"))
  let iterationDistribution ←
    columnDistributionTable lib [codes "inner_iteration", codes "class"] table
  let iterationTests ← columnIterationTable lib table
  let globalTest ← columnWelchTable lib table
  let iterationScore ← lib.average (iterationTests.map fun r => r.test.score)
  let globalScore ← lib.average [globalTest.score]
  pure ⟨globalDistribution, iterationDistribution, iterationTests, globalTest, globalScore,
    iterationScore⟩

/-! ## Tables that can be analysed -/

variable {lib} {table : Table}

end Program

end MicroSampler.Statistics
