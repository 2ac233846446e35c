import Mathlib.Algebra.Ring.Int.Defs
import Mathlib.Data.List.Dedup
import Mathlib.Data.Rat.Defs
import MicroSampler.Statistics.Columns

/-!
# The statistical analysis of a timing table

The four tables that `generate_statistical_analysis` makes of the `class`, `inner_iteration`
and `duration` columns of a table. Where these hold integers of 64 bits throughout, counts,
means and medians are exact and `Numerics` has what is computed in floating point. Any other
table is analysed with the table library (`analyseColumns`).
-/

namespace MicroSampler.Statistics

open Json Loops Simulation

/-! ## The columns -/

/-- What the analysis reads in a row. -/
structure Timing where
  innerIteration : Int
  cls : Int
  duration : Int
  deriving DecidableEq

/-- The cell of a column of integers of 64 bits. -/
def int64 (row : Row) (name : CodePoints) : Option Int :=
  match row.get? name with
  | some (.int n) => if -2 ^ 63 ≤ n ∧ n < 2 ^ 63 then some n else none
  | _ => none

def timing (row : Row) : Option Timing := do
  let innerIteration ← int64 row (codes "inner_iteration")
  let cls ← int64 row (codes "class")
  let duration ← int64 row (codes "duration")
  pure ⟨innerIteration, cls, duration⟩

/-- The rows, when the three columns hold integers of 64 bits throughout. -/
def timings (table : Table) : Option (List Timing) := table.mapM timing

def durations (rows : List Timing) : List Int := rows.map Timing.duration

/-! ## Groups -/

/-- The distinct keys in ascending order. -/
def sortedKeys {α : Type} [DecidableEq α] (le : α → α → Bool) (keys : List α) : List α :=
  keys.dedup.mergeSort le

section Keys

variable {α : Type} [DecidableEq α] {le : α → α → Bool} {keys : List α}

theorem mem_sortedKeys {k : α} : k ∈ sortedKeys le keys ↔ k ∈ keys := by
  rw [sortedKeys, List.mem_mergeSort, List.mem_dedup]

theorem nodup_sortedKeys : (sortedKeys le keys).Nodup :=
  (List.mergeSort_perm _ _).nodup_iff.mpr (List.nodup_dedup keys)

/-- A key that occurs is there once. -/
theorem filter_sortedKeys_eq {k : α} (h : k ∈ keys) :
    (sortedKeys le keys).filter (fun k' => k' = k) = [k] := by
  rw [List.filter_eq, List.count_eq_one_of_mem nodup_sortedKeys (mem_sortedKeys.mpr h)]
  rfl

end Keys

/-- `df.groupby(…)`: the rows of each key, the keys ascending. -/
def groupby {α : Type} [DecidableEq α] (le : α → α → Bool) (key : Timing → α)
    (rows : List Timing) : List (α × List Timing) :=
  (sortedKeys le (rows.map key)).map fun k => (k, rows.filter fun t => key t = k)

/-- The order of pairs. -/
def lexLe (a b : Int × Int) : Bool := a.1 < b.1 || a.1 == b.1 && a.2 ≤ b.2

/-- `mean()`, a NaN without samples. -/
def mean (samples : List Int) : Option ℚ :=
  if samples = [] then none else some (samples.sum / samples.length)

def median (samples : List Int) : Option ℚ :=
  let sorted := samples.mergeSort fun a b => decide (a ≤ b)
  let n := sorted.length
  if n = 0 then none
  else some ((sorted.getD ((n - 1) / 2) 0 + sorted.getD (n / 2) 0 : ℚ) / 2)

/-! ## The tables -/

/-- Floating point, and the table library for columns that are not integers throughout. -/
structure Numerics (F : Type) where
  zero : F
  std : List Int → F
  ttestInd : List Int → List Int → F × F
  significant : F → Bool
  score : F → Option ℚ → Option ℚ → Nat → Nat → F
  damp : F → Int → F
  average : List F → F
  aboveThreshold : F → Bool
  columns : ColumnLibrary F

/-- `count`, `mean`, `median`, `std`, `min` and `max` of a group. -/
structure Distribution (F : Type) where
  samples : Nat
  mean : Option ℚ
  median : Option ℚ
  stdDev : F
  min : Int
  max : Int

structure GlobalDistributionRow (F : Type) where
  cls : Int
  distribution : Distribution F

structure IterationDistributionRow (F : Type) where
  iteration : Int
  cls : Int
  distribution : Distribution F

structure WelchRow (F : Type) where
  samples0 : Nat
  samples1 : Nat
  mean0 : Option ℚ
  mean1 : Option ℚ
  statistic : F
  pvalue : F
  significant : Bool
  score : F

structure IterationWelchRow (F : Type) where
  test : WelchRow F
  iteration : Int

/-- `StatisticalAnalysisResults` of integer columns. -/
structure TimingResults (F : Type) where
  globalDistribution : List (GlobalDistributionRow F)
  iterationDistribution : List (IterationDistributionRow F)
  iterationWelchTtestData : List (IterationWelchRow F)
  globalWelchTtestData : WelchRow F
  globalScore : F
  iterationScore : F

/-- `StatisticalAnalysisResults`. -/
inductive StatisticalAnalysisResults (F : Type)
  | timings (results : TimingResults F)
  | columns (results : ColumnResults F)

namespace StatisticalAnalysisResults

variable {F : Type}

def globalScore : StatisticalAnalysisResults F → F
  | timings results => results.globalScore
  | columns results => results.globalScore

def iterationScore : StatisticalAnalysisResults F → F
  | timings results => results.iterationScore
  | columns results => results.iterationScore

end StatisticalAnalysisResults

section Tables

variable {F : Type} (num : Numerics F)

/-- The aggregation of one group; the deviation of a single sample is shown as 0. -/
def distribution (samples : List Int) : Distribution F where
  samples := samples.length
  mean := mean samples
  median := median samples
  stdDev := if samples.length ≤ 1 then num.zero else num.std samples
  min := samples.min?.getD 0
  max := samples.max?.getD 0

/-- `generate_global_distribution_table`. -/
def generateGlobalDistributionTable (rows : List Timing) : List (GlobalDistributionRow F) :=
  (groupby (fun a b => decide (a ≤ b)) Timing.cls rows).map fun g =>
    ⟨g.1, distribution num (durations g.2)⟩

/-- `generate_iteration_distribution_table`. -/
def generateIterationDistributionTable (rows : List Timing) :
    List (IterationDistributionRow F) :=
  (groupby lexLe (fun t => (t.innerIteration, t.cls)) rows).map fun g =>
    ⟨g.1.1, g.1.2, distribution num (durations g.2)⟩

/-- The durations of one class. -/
def classDurations (rows : List Timing) (cls : Int) : List Int :=
  durations (rows.filter fun t => t.cls = cls)

/-- `generate_welch_ttest_table`. The sample balance in the score is a quotient of Python
integers. -/
def generateWelchTtestTable (rows : List Timing) : Except Exn (WelchRow F) :=
  let classZero := classDurations rows 0
  let classOne := classDurations rows 1
  let (statistic, pvalue) := num.ttestInd classZero classOne
  let s0 := classZero.length
  let s1 := classOne.length
  if s0 + s1 = 0 then .error .zeroDivisionError
  else .ok
    { samples0 := s0
      samples1 := s1
      mean0 := mean classZero
      mean1 := mean classOne
      statistic := statistic
      pvalue := pvalue
      significant := num.significant pvalue
      score := num.score pvalue (mean classZero) (mean classOne) s0 s1 }

/-- `sorted(df["inner_iteration"].unique())`. -/
def iterations (rows : List Timing) : List Int :=
  sortedKeys (fun a b => decide (a ≤ b)) (rows.map Timing.innerIteration)

/-- One pass of the loop over the iterations. -/
def iterationWelchRow (rows : List Timing) (iteration : Int) :
    Except Exn (IterationWelchRow F) := do
  let test ← generateWelchTtestTable num (rows.filter fun t => t.innerIteration = iteration)
  pure ⟨{ test with score := num.damp test.score iteration }, iteration⟩

/-- `generate_iteration_welch_ttest_table`; `pd.concat` refuses an empty list. -/
def generateIterationWelchTtestTable (rows : List Timing) :
    Except Exn (List (IterationWelchRow F)) := do
  let tests ← (iterations rows).mapM (iterationWelchRow num rows)
  if tests.isEmpty then throw .valueError else pure tests

/-- The analysis of integer columns. -/
def analyseTimings (rows : List Timing) : Except Exn (TimingResults F) := do
  let iterationTests ← generateIterationWelchTtestTable num rows
  let globalTest ← generateWelchTtestTable num rows
  pure
    { globalDistribution := generateGlobalDistributionTable num rows
      iterationDistribution := generateIterationDistributionTable num rows
      iterationWelchTtestData := iterationTests
      globalWelchTtestData := globalTest
      iterationScore := num.average (iterationTests.map fun r => r.test.score)
      globalScore := num.average [globalTest.score] }

/-- `generate_statistical_analysis`. -/
def generateStatisticalAnalysis (table : Table) : Except Exn (StatisticalAnalysisResults F) :=
  if !hasColumn table (codes "class") then .error (.keyError (codes "class"))
  else if !hasColumn table (codes "duration") then
    .error (.keyError (codes "Column not found: duration"))
  else
    match timings table with
    | some rows => .timings <$> analyseTimings num rows
    | none => .columns <$> analyseColumns num.columns table

/-! ## Tables that can be analysed -/

theorem generateWelchTtestTable_isOk_iff {rows : List Timing} :
    (∃ r, generateWelchTtestTable num rows = .ok r) ↔ ∃ t ∈ rows, t.cls = 0 ∨ t.cls = 1 := by
  have hlength (cls : Int) : (classDurations rows cls).length ≠ 0 ↔ ∃ t ∈ rows, t.cls = cls := by
    simp [classDurations, durations]
  have hsum : (classDurations rows 0).length + (classDurations rows 1).length = 0 ↔
      ¬ ∃ t ∈ rows, t.cls = 0 ∨ t.cls = 1 := by
    have h0 := hlength 0
    have h1 := hlength 1
    constructor
    · rintro hs ⟨t, ht, hc | hc⟩
      · exact h0.mpr ⟨t, ht, hc⟩ (by omega)
      · exact h1.mpr ⟨t, ht, hc⟩ (by omega)
    · intro hn
      have hzero : (classDurations rows 0).length = 0 := by
        by_contra h
        obtain ⟨t, ht, hc⟩ := h0.mp h
        exact hn ⟨t, ht, .inl hc⟩
      have hone : (classDurations rows 1).length = 0 := by
        by_contra h
        obtain ⟨t, ht, hc⟩ := h1.mp h
        exact hn ⟨t, ht, .inr hc⟩
      rw [hzero, hone]
  by_cases h : (classDurations rows 0).length + (classDurations rows 1).length = 0
  · simp only [generateWelchTtestTable, if_pos h, reduceCtorEq, exists_false, false_iff]
    exact hsum.mp h
  · simp only [generateWelchTtestTable, if_neg h, Except.ok.injEq, exists_eq', true_iff]
    exact not_not.mp (mt hsum.mpr h)

theorem mem_iterations {rows : List Timing} {i : Int} :
    i ∈ iterations rows ↔ ∃ t ∈ rows, t.innerIteration = i := by
  rw [iterations, mem_sortedKeys, List.mem_map]

theorem iterationWelchRow_isOk_iff {rows : List Timing} {i : Int} :
    (∃ r, iterationWelchRow num rows i = .ok r) ↔
      ∃ t ∈ rows, t.innerIteration = i ∧ (t.cls = 0 ∨ t.cls = 1) := by
  have h := @generateWelchTtestTable_isOk_iff F num
    (rows.filter fun t => t.innerIteration = i)
  simp only [List.mem_filter, decide_eq_true_eq, and_assoc] at h
  rw [← h, iterationWelchRow]
  cases generateWelchTtestTable num (rows.filter fun t => t.innerIteration = i) with
  | error e => exact ⟨fun ⟨r, hr⟩ => (nomatch hr), fun ⟨r, hr⟩ => (nomatch hr)⟩
  | ok r => exact ⟨fun _ => ⟨r, rfl⟩, fun _ => ⟨_, rfl⟩⟩

/-- Every iteration has a sample of class 0 or 1, and there is one. -/
def Balanced (rows : List Timing) : Prop :=
  rows ≠ [] ∧ ∀ t ∈ rows, ∃ u ∈ rows, u.innerIteration = t.innerIteration ∧ (u.cls = 0 ∨ u.cls = 1)

theorem iterations_eq_nil_iff {rows : List Timing} : iterations rows = [] ↔ rows = [] := by
  simp only [List.eq_nil_iff_forall_not_mem, mem_iterations]
  constructor
  · intro h t ht
    exact h t.innerIteration ⟨t, ht, rfl⟩
  · rintro h i ⟨t, ht, -⟩
    exact h t ht

theorem generateIterationWelchTtestTable_isOk_iff {rows : List Timing} :
    (∃ r, generateIterationWelchTtestTable num rows = .ok r) ↔ Balanced rows := by
  have hall : (∃ r, (iterations rows).mapM (iterationWelchRow num rows) = .ok r) ↔
      ∀ t ∈ rows, ∃ u ∈ rows, u.innerIteration = t.innerIteration ∧ (u.cls = 0 ∨ u.cls = 1) := by
    rw [mapM_isOk_iff]
    simp only [mem_iterations, iterationWelchRow_isOk_iff num]
    exact ⟨fun h t ht => h _ ⟨t, ht, rfl⟩, fun h i ⟨t, ht, hi⟩ => hi ▸ h t ht⟩
  rw [Balanced, ← hall, generateIterationWelchTtestTable]
  cases h : (iterations rows).mapM (iterationWelchRow num rows) with
  | error e => exact ⟨fun ⟨r, hr⟩ => (nomatch hr), fun ⟨_, r, hr⟩ => (nomatch hr)⟩
  | ok tests =>
    have hlength := (mapM_eq_ok_iff.mp h).length_eq
    have hempty : tests.isEmpty = true ↔ rows = [] := by
      rw [List.isEmpty_iff, ← iterations_eq_nil_iff, ← List.length_eq_zero_iff, ← hlength,
        List.length_eq_zero_iff]
    rw [ok_bind]
    by_cases hrows : rows = []
    · rw [if_pos (hempty.mpr hrows)]
      exact ⟨fun ⟨r, hr⟩ => (nomatch hr), fun ⟨hne, _⟩ => absurd hrows hne⟩
    · rw [if_neg (mt hempty.mp hrows)]
      exact ⟨fun _ => ⟨hrows, tests, rfl⟩, fun _ => ⟨tests, rfl⟩⟩

end Tables

end MicroSampler.Statistics
