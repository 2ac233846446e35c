import Mathlib.Data.List.Basic
import Mathlib.Data.Rat.Defs
import MicroSampler.Scripts.CorrelationReader

/-!
# The summary of the correlations

`corr_measure.py` keeps the value of a unit when it is significant, and at the end prints the
values kept beside the units, counting both from the front. `summary_eq`: the value beside a
unit is the one of the significant unit with the same number, and the loop raises when there
are fewer of these than units.
-/

namespace MicroSampler.Scripts

/-! ## The two loops -/

/-- `units`. -/
def units : List MeasuredUnit := [.euuAlu, .lqAddr, .sqAddr, .lqPc, .sqPc, .robPc]

def MeasuredUnit.name : MeasuredUnit → Text
  | .euuAlu => "EUU-ALU".toList
  | .lqAddr => "LQ-ADDR".toList
  | .sqAddr => "SQ-ADDR".toList
  | .lqPc => "LQ-PC".toList
  | .sqPc => "SQ-PC".toList
  | .robPc => "ROB-PC".toList

/-- A value of `cramer_v`, `none` for a NaN. -/
abbrev CramerV := Option ℚ

/-- `cramer_v > 0.25`. -/
def isSignificant : CramerV → Bool
  | some v => 1 / 4 < v
  | none => false

/-- What is printed from the value of the first unit on. -/
inductive ReportLine
  | cramersV (value : CramerV)
  | association (significant : Bool)
  | rule
  | heading
  | correlation (unit : MeasuredUnit) (value : CramerV)
  deriving DecidableEq

/-- The text of a line; the numbers are printed by `str`. -/
def ReportLine.text (str : CramerV → Text) : ReportLine → Text
  | cramersV value => "Cramér's V: ".toList ++ str value
  | association true =>
    "There is a statistically significant association between IDs and class labels.".toList
  | association false =>
    "There is no statistically significant association between IDs and class labels.".toList
  | rule => List.replicate 65 '#'
  | heading => "Measured correlation for:".toList
  | correlation unit value => unit.name ++ ": ".toList ++ str value

structure CorrState where
  corrs : List CramerV
  printed : List ReportLine

/-- The end of the loop over the units, from the value on. -/
def judgeUnit (cramerV : MeasuredUnit → CramerV) (s : CorrState) (unit : MeasuredUnit) :
    CorrState :=
  let v := cramerV unit
  if isSignificant v then
    ⟨s.corrs ++ [v], s.printed ++ [.cramersV v, .association true, .rule, .rule]⟩
  else ⟨s.corrs, s.printed ++ [.cramersV v, .association false, .rule, .rule]⟩

def judgeUnits (cramerV : MeasuredUnit → CramerV) (us : List MeasuredUnit) : CorrState :=
  us.foldl (judgeUnit cramerV) ⟨[], []⟩

/-- What has been printed, and whether an `IndexError` has ended the script. -/
structure CorrReport where
  printed : List ReportLine
  indexError : Bool

/-- The loop at the end, with its counter. -/
def summary (corrs : List CramerV) : Nat → List MeasuredUnit → CorrReport
  | _, [] => ⟨[], false⟩
  | i, unit :: us =>
    match corrs[i]? with
    | none => ⟨[], true⟩
    | some v =>
      let rest := summary corrs (i + 1) us
      ⟨.correlation unit v :: rest.printed, rest.indexError⟩

/-- The script, given the values that it computes. -/
def corrMeasure (cramerV : MeasuredUnit → CramerV) : CorrReport :=
  let s := judgeUnits cramerV units
  let last := summary s.corrs 0 units
  ⟨s.printed ++ List.replicate 8 .rule ++ .heading :: last.printed, last.indexError⟩

/-! ## What the loops do -/

/-- The values that are kept, in the order of their units. -/
def significant (cramerV : MeasuredUnit → CramerV) (us : List MeasuredUnit) : List CramerV :=
  (us.map cramerV).filter isSignificant

theorem judgeUnit_corrs (cramerV : MeasuredUnit → CramerV) (s : CorrState)
    (unit : MeasuredUnit) :
    (judgeUnit cramerV s unit).corrs = s.corrs ++ significant cramerV [unit] := by
  by_cases hv : isSignificant (cramerV unit) <;> simp [judgeUnit, significant, hv]

theorem judgeUnits_corrs (cramerV : MeasuredUnit → CramerV) (us : List MeasuredUnit) :
    (judgeUnits cramerV us).corrs = significant cramerV us := by
  induction us using List.reverseRecOn with
  | nil => rfl
  | append_singleton us unit ih =>
    have hstep := judgeUnit_corrs cramerV (judgeUnits cramerV us) unit
    rw [judgeUnits, List.foldl_append]
    rw [ih] at hstep
    refine hstep.trans ?_
    rw [significant, significant, significant, List.map_append, List.filter_append]

/-- No value stands beside the name of a unit before the end. -/
theorem correlation_not_mem_judgeUnits (cramerV : MeasuredUnit → CramerV)
    (us : List MeasuredUnit) (unit : MeasuredUnit) (v : CramerV) :
    .correlation unit v ∉ (judgeUnits cramerV us).printed := by
  induction us using List.reverseRecOn with
  | nil => exact List.not_mem_nil
  | append_singleton us u ih =>
    rw [judgeUnits, List.foldl_append]
    change _ ∉ (judgeUnit cramerV (judgeUnits cramerV us) u).printed
    by_cases hv : isSignificant (cramerV u) <;> simp [judgeUnit, hv, ih]

/-- **The loop at the end** puts the kept values beside the units in order. -/
theorem summary_eq (corrs : List CramerV) (us : List MeasuredUnit) (i : Nat)
    (hi : i ≤ corrs.length) :
    summary corrs i us = ⟨List.zipWith .correlation us (corrs.drop i),
      decide (corrs.length < i + us.length)⟩ := by
  induction us generalizing i with
  | nil => simp [summary, hi]
  | cons unit us ih =>
    rcases Nat.lt_or_eq_of_le hi with hlt | rfl
    · have hcount : i + 1 + us.length = i + (us.length + 1) := by omega
      rw [summary, List.getElem?_eq_getElem hlt, List.drop_eq_getElem_cons hlt]
      simp only [ih (i + 1) hlt, List.zipWith_cons_cons, List.length_cons, hcount]
    · rw [summary, List.getElem?_eq_none (Nat.le_refl _)]
      simp

theorem summary_significant (cramerV : MeasuredUnit → CramerV) (us : List MeasuredUnit) :
    summary (significant cramerV us) 0 us =
      ⟨List.zipWith .correlation us (significant cramerV us),
        decide ((significant cramerV us).length < us.length)⟩ := by
  rw [summary_eq _ _ 0 (Nat.zero_le _), List.drop_zero, Nat.zero_add]

/-! ## The report -/

/-- The script ends, and every value beside a unit's name is the unit's. -/
structure ReportsUnits (cramerV : MeasuredUnit → CramerV) : Prop where
  ends : (corrMeasure cramerV).indexError = false
  values : ∀ unit v, .correlation unit v ∈ (corrMeasure cramerV).printed → v = cramerV unit

theorem corrMeasure_indexError (cramerV : MeasuredUnit → CramerV) :
    (corrMeasure cramerV).indexError =
      decide ((significant cramerV units).length < units.length) := by
  simp only [corrMeasure, judgeUnits_corrs, summary_significant]

theorem mem_corrMeasure_iff (cramerV : MeasuredUnit → CramerV) (unit : MeasuredUnit)
    (v : CramerV) : .correlation unit v ∈ (corrMeasure cramerV).printed ↔
      .correlation unit v ∈
        List.zipWith ReportLine.correlation units (significant cramerV units) := by
  simp only [corrMeasure, judgeUnits_corrs, summary_significant, List.mem_append, List.mem_cons,
    List.mem_replicate, correlation_not_mem_judgeUnits, reduceCtorEq, and_false, false_or]

/-- As many values are kept as there are units just when all are significant. -/
theorem length_significant_lt_iff (cramerV : MeasuredUnit → CramerV) (us : List MeasuredUnit) :
    (significant cramerV us).length < us.length ↔
      ¬ ∀ unit ∈ us, isSignificant (cramerV unit) = true := by
  have hle : (significant cramerV us).length ≤ (us.map cramerV).length := List.length_filter_le ..
  have hall : (significant cramerV us).length = (us.map cramerV).length ↔
      ∀ v ∈ us.map cramerV, isSignificant v = true := List.length_filter_eq_length_iff
  rw [List.length_map] at hle hall
  rw [List.forall_mem_map] at hall
  rw [← hall]
  omega

theorem mem_units (unit : MeasuredUnit) : unit ∈ units := by
  cases unit <;> decide

/-- **When the report is right.** It is when every unit is significant. Otherwise the script
ends with an `IndexError`. -/
theorem reportsUnits_iff (cramerV : MeasuredUnit → CramerV) :
    ReportsUnits cramerV ↔ ∀ unit, isSignificant (cramerV unit) = true := by
  have hends : (corrMeasure cramerV).indexError = false ↔
      ∀ unit, isSignificant (cramerV unit) = true := by
    rw [corrMeasure_indexError, decide_eq_false_iff_not, length_significant_lt_iff, not_not]
    exact ⟨fun h unit => h unit (mem_units unit), fun h unit _ => h unit⟩
  constructor
  · intro h
    exact hends.mp h.ends
  · intro hall
    refine ⟨hends.mpr hall, fun unit v hmem => ?_⟩
    have hkept : significant cramerV units = units.map cramerV :=
      List.filter_eq_self.mpr (List.forall_mem_map.mpr fun unit _ => hall unit)
    rw [mem_corrMeasure_iff, hkept, List.zipWith_map_right, List.zipWith_self] at hmem
    obtain ⟨u, -, heq⟩ := List.mem_map.mp hmem
    cases heq
    rfl

/-- The values of a run in which the first unit alone is insignificant. -/
def weakAlu : MeasuredUnit → CramerV
  | .euuAlu => some (1 / 10)
  | _ => some (1 / 2)

/-- The value of the loads stands beside the ALU, and the script raises. -/
theorem weakAlu_not_reported :
    .correlation .euuAlu (some (1 / 2)) ∈ (corrMeasure weakAlu).printed ∧
      (corrMeasure weakAlu).indexError = true ∧ ¬ ReportsUnits weakAlu := by
  have hprinted : .correlation .euuAlu (some (1 / 2)) ∈ (corrMeasure weakAlu).printed := by
    rw [mem_corrMeasure_iff]
    decide +kernel
  have hraises : (corrMeasure weakAlu).indexError = true := by
    rw [corrMeasure_indexError]
    decide +kernel
  refine ⟨hprinted, hraises, fun h => ?_⟩
  exact absurd (h.ends.symm.trans hraises) (by decide)

end MicroSampler.Scripts
