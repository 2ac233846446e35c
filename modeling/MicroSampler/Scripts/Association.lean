import Mathlib.Algebra.BigOperators.Ring.Finset
import MicroSampler.Library.ChiSquared
import MicroSampler.Library.Dict

/-!
# The strength of association

`corr_measure.py` counts the labels of each identifier, has `chi2_contingency` measure the
table of two rows and divides the statistic by the number of samples. The library corrects
the statistic when the table has two columns.
-/

namespace MicroSampler.Scripts

open ChiSquared

/-! ## The contingency table -/

/-- A sample: the identifier of an iteration and its label. -/
abbrev Sample := Nat × Int

/-- One more for a value. -/
def increment (count : Dict Nat Nat) (value : Nat) : Dict Nat Nat :=
  match count.get? value with
  | some n => count.set value (n + 1)
  | none => count.set value 1

/-- The body of the loop that fills `count_0` and `count_1`. -/
def countStep (counts : Dict Nat Nat × Dict Nat Nat) (sample : Sample) :
    Dict Nat Nat × Dict Nat Nat :=
  if sample.2 = 0 then (increment counts.1 sample.1, counts.2)
  else if sample.2 = 1 then (counts.1, increment counts.2 sample.1)
  else counts

def countLabels (samples : List Sample) : Dict Nat Nat × Dict Nat Nat :=
  samples.foldl countStep (Dict.empty, Dict.empty)

/-- `set(X_id)`, in the order in which it is iterated. -/
structure IdSet (samples : List Sample) where
  values : List Nat
  nodup : values.Nodup
  mem_iff : ∀ v, v ∈ values ↔ v ∈ samples.map Prod.fst

def contingencyTable {samples : List Sample} (ids : IdSet samples) : List (List Nat) :=
  let row0 := ids.values.map fun v => ((countLabels samples).1.get? v).getD 0
  let row1 := ids.values.map fun v => ((countLabels samples).2.get? v).getD 0
  [row0, row1]

/-- The square of `cramer_v`. -/
def cramerVSquared (chi2 : ℚ) (table : List (List Nat)) : ℚ :=
  chi2 / (((table.map List.sum).sum : ℚ) * ((table.length : ℚ) - 1))

/-- `scipy.stats.chi2_contingency` on tables of two rows. -/
def IsChi2Contingency (chi2Contingency : List (List Nat) → ℚ) : Prop :=
  ∀ (row0 row1 : List Nat) (t : Table ℚ), row0.length = row1.length →
    t.columns = (row0.zip row1).map (fun c => ((c.1 : ℚ), (c.2 : ℚ))) →
      chi2Contingency [row0, row1] = t.chi2

/-! ## What is to be measured -/

/-- The share of label one among the samples of an identifier. -/
def proportion (samples : List Sample) (v : Nat) : ℚ :=
  (samples.count (v, 1) : ℚ) / ((samples.count (v, 0) : ℚ) + (samples.count (v, 1) : ℚ))

/-- No identifier occurs with both labels. -/
def Determines (samples : List Sample) : Prop :=
  ∀ v, ¬ ((v, 0) ∈ samples ∧ (v, 1) ∈ samples)

/-- Every identifier has the same proportion of the two labels. -/
def Independent (samples : List Sample) : Prop :=
  ∀ v ∈ samples.map Prod.fst, ∀ w ∈ samples.map Prod.fst,
    proportion samples v = proportion samples w

/-- The table holds the counts, and the measure is one or zero for the right samples. -/
structure Measures {samples : List Sample} (ids : IdSet samples) (table : List (List Nat))
    (vSquared : ℚ) : Prop where
  counts : table =
    [ids.values.map fun v => samples.count (v, 0), ids.values.map fun v => samples.count (v, 1)]
  total : (table.map List.sum).sum = samples.length
  nonneg : 0 ≤ vSquared
  le_one : vSquared ≤ 1
  eq_one_iff : vSquared = 1 ↔ Determines samples
  eq_zero_iff : vSquared = 0 ↔ Independent samples

/-- The counts of two identifiers are proportional, or so far from it that the correction
does not level them. -/
def ClearOfCorrection (samples : List Sample) (v w : Nat) : Prop :=
  (samples.count (v, 0) : Int) * samples.count (w, 1) =
      samples.count (w, 0) * samples.count (v, 1) ∨
    (samples.length : Int) < 2 * |(samples.count (v, 0) : Int) * samples.count (w, 1) -
      samples.count (w, 0) * samples.count (v, 1)|

/-- When there are just two identifiers, one of them occurs with both labels, and their counts
are clear of the correction. -/
def UnharmedByCorrection (samples : List Sample) : Prop :=
  ∀ v w, v ≠ w → (∀ u, u ∈ samples.map Prod.fst ↔ u = v ∨ u = w) →
    ¬ Determines samples ∧ ClearOfCorrection samples v w

/-! ## The counts -/

theorem get?_increment (count : Dict Nat Nat) (value v : Nat) :
    ((increment count value).get? v).getD 0 =
      (count.get? v).getD 0 + if v = value then 1 else 0 := by
  unfold increment
  cases hget : count.get? value with
  | none =>
    dsimp only
    rw [Dict.get?_set]
    by_cases hv : v = value
    · simp [hv, hget]
    · simp [hv]
  | some n =>
    dsimp only
    rw [Dict.get?_set]
    by_cases hv : v = value
    · simp [hv, hget]
    · simp [hv]

/-- One sample: its identifier has one more of its label. -/
theorem get?_countStep (counts : Dict Nat Nat × Dict Nat Nat) (sample : Sample) (v : Nat) :
    (((countStep counts sample).1.get? v).getD 0 =
        (counts.1.get? v).getD 0 + if sample = (v, 0) then 1 else 0) ∧
      ((countStep counts sample).2.get? v).getD 0 =
        (counts.2.get? v).getD 0 + if sample = (v, 1) then 1 else 0 := by
  obtain ⟨value, label⟩ := sample
  unfold countStep
  by_cases h0 : label = 0
  · subst h0
    simp [get?_increment, eq_comm]
  · by_cases h1 : label = 1
    · subst h1
      simp [get?_increment, eq_comm]
    · simp [h0, h1]

theorem get?_countLabels (samples : List Sample) (v : Nat) :
    ((countLabels samples).1.get? v).getD 0 = samples.count (v, 0) ∧
      ((countLabels samples).2.get? v).getD 0 = samples.count (v, 1) := by
  have hrun : ∀ (l : List Sample) (counts : Dict Nat Nat × Dict Nat Nat),
      ((l.foldl countStep counts).1.get? v).getD 0 =
          (counts.1.get? v).getD 0 + l.count (v, 0) ∧
        ((l.foldl countStep counts).2.get? v).getD 0 =
          (counts.2.get? v).getD 0 + l.count (v, 1) := by
    intro l
    induction l with
    | nil => simp
    | cons sample l ih =>
      intro counts
      obtain ⟨h0, h1⟩ := ih (countStep counts sample)
      obtain ⟨hstep0, hstep1⟩ := get?_countStep counts sample v
      rw [List.foldl_cons, h0, h1, hstep0, hstep1, List.count_cons, List.count_cons]
      simp only [beq_iff_eq]
      omega
  obtain ⟨h0, h1⟩ := hrun samples (Dict.empty, Dict.empty)
  rw [countLabels, h0, h1]
  simp [Dict.empty, Dict.get?]

theorem contingencyTable_eq {samples : List Sample} (ids : IdSet samples) :
    contingencyTable ids = [ids.values.map fun v => samples.count (v, 0),
      ids.values.map fun v => samples.count (v, 1)] := by
  unfold contingencyTable
  dsimp only
  simp only [(get?_countLabels samples _).1, (get?_countLabels samples _).2]

theorem sum_ite_eq_count (values : List Nat) (a : Nat) :
    (values.map fun v => if v = a then 1 else 0).sum = values.count a := by
  induction values with
  | nil => rfl
  | cons v values ih =>
    rw [List.map_cons, List.sum_cons, ih, List.count_cons, Nat.add_comm]
    simp only [beq_iff_eq]

/-- The counts of the identifiers of one label sum to the samples with the label. -/
theorem sum_count {samples : List Sample} {values : List Nat} (hnodup : values.Nodup)
    (hmem : ∀ s ∈ samples, s.1 ∈ values) (label : Int) :
    (values.map fun v => samples.count (v, label)).sum =
      samples.countP fun s => s.2 = label := by
  induction samples with
  | nil => simp
  | cons s samples ih =>
    -- the sample counts once, for its own identifier
    have hone : (values.map fun v => if s = (v, label) then 1 else 0).sum =
        if s.2 = label then 1 else 0 := by
      by_cases hlabel : s.2 = label
      · have hcount := List.count_eq_one_of_mem hnodup (hmem s List.mem_cons_self)
        rw [← sum_ite_eq_count] at hcount
        rw [if_pos hlabel]
        simpa [Prod.ext_iff, hlabel, eq_comm] using hcount
      · simp [Prod.ext_iff, hlabel]
    rw [List.countP_cons, ← ih fun s hs => hmem s (List.mem_cons_of_mem _ hs)]
    simp only [List.count_cons, beq_iff_eq, decide_eq_true_eq]
    rw [List.sum_map_add, hone]

theorem IdSet.mem_values {samples : List Sample} (ids : IdSet samples) {s : Sample}
    (hs : s ∈ samples) : s.1 ∈ ids.values := (ids.mem_iff s.1).mpr (List.mem_map_of_mem hs)

/-- With labels zero and one, the total of the table is the number of samples. -/
theorem total_contingencyTable {samples : List Sample} (ids : IdSet samples)
    (hlabels : ∀ s ∈ samples, s.2 = 0 ∨ s.2 = 1) :
    ((contingencyTable ids).map List.sum).sum = samples.length := by
  have hmem : ∀ s ∈ samples, s.1 ∈ ids.values := fun s hs => ids.mem_values hs
  rw [contingencyTable_eq, List.map_cons, List.map_cons, List.map_nil, List.sum_cons,
    List.sum_cons, List.sum_nil, Nat.add_zero, sum_count ids.nodup hmem,
    sum_count ids.nodup hmem, List.length_eq_countP_add_countP (fun s => decide (s.2 = 0))]
  congr 1
  apply List.countP_congr
  intro s hs
  obtain h | h := hlabels s hs
  · simp [h]
  · simp [h]

/-- The measure is between zero and one, with the ends where they should be. -/
def EndsRight (samples : List Sample) (x : ℚ) : Prop :=
  0 ≤ x ∧ x ≤ 1 ∧ (x = 1 ↔ Determines samples) ∧ (x = 0 ↔ Independent samples)

theorem measures_iff_endsRight {samples : List Sample} (ids : IdSet samples)
    (hlabels : ∀ s ∈ samples, s.2 = 0 ∨ s.2 = 1) {x : ℚ} :
    Measures ids (contingencyTable ids) x ↔ EndsRight samples x := by
  constructor
  · intro h
    exact ⟨h.nonneg, h.le_one, h.eq_one_iff, h.eq_zero_iff⟩
  · intro ⟨hnonneg, hle, hone, hzero⟩
    exact ⟨contingencyTable_eq ids, total_contingencyTable ids hlabels, hnonneg, hle, hone, hzero⟩

/-! ## The measure -/

section Measure

variable {samples : List Sample} (ids : IdSet samples)

/-- The columns of the table. -/
def column (samples : List Sample) (v : Nat) : ℚ × ℚ :=
  ((samples.count (v, 0) : ℚ), (samples.count (v, 1) : ℚ))

theorem column_pos (hlabels : ∀ s ∈ samples, s.2 = 0 ∨ s.2 = 1) {v : Nat}
    (hv : v ∈ samples.map Prod.fst) : 0 < (column samples v).1 + (column samples v).2 := by
  obtain ⟨⟨w, label⟩, hs, rfl⟩ := List.mem_map.mp hv
  have hpos : 0 < samples.count (w, label) := List.count_pos_iff.mpr hs
  have hsum : 0 < samples.count (w, 0) + samples.count (w, 1) := by
    obtain rfl | rfl := hlabels _ hs
    · omega
    · omega
  simp only [column]
  exact_mod_cast hsum

theorem sum_column_pos (label : Int) (h : ∃ s ∈ samples, s.2 = label) :
    0 < (ids.values.map fun v => (samples.count (v, label) : ℚ)).sum := by
  have hsum := sum_count ids.nodup (fun s hs => ids.mem_values hs) label
  have hpos : 0 < samples.countP fun s => s.2 = label := by
    obtain ⟨s, hs, hlabel⟩ := h
    exact List.countP_pos_iff.mpr ⟨s, hs, decide_eq_true hlabel⟩
  rw [← hsum] at hpos
  have hcast : (ids.values.map fun v => (samples.count (v, label) : ℚ)).sum =
      (((ids.values.map fun v => samples.count (v, label)).sum : Nat) : ℚ) := by
    rw [Nat.cast_list_sum, List.map_map]
    rfl
  rw [hcast]
  exact_mod_cast hpos

/-- The table as columns of rational numbers. -/
def IdSet.table (hlabels : ∀ s ∈ samples, s.2 = 0 ∨ s.2 = 1) (h0 : ∃ s ∈ samples, s.2 = 0)
    (h1 : ∃ s ∈ samples, s.2 = 1) : Table ℚ where
  columns := ids.values.map (column samples)
  nonneg := by
    intro c hc
    obtain ⟨v, -, rfl⟩ := List.mem_map.mp hc
    exact ⟨Nat.cast_nonneg _, Nat.cast_nonneg _⟩
  pos := by
    intro c hc
    obtain ⟨v, hv, rfl⟩ := List.mem_map.mp hc
    exact column_pos hlabels ((ids.mem_iff v).mp hv)
  pos_first := by
    rw [List.map_map]
    exact sum_column_pos ids 0 h0
  pos_second := by
    rw [List.map_map]
    exact sum_column_pos ids 1 h1

variable (hlabels : ∀ s ∈ samples, s.2 = 0 ∨ s.2 = 1) (h0 : ∃ s ∈ samples, s.2 = 0)
  (h1 : ∃ s ∈ samples, s.2 = 1)

theorem total_table : (ids.table hlabels h0 h1).total = samples.length := by
  have htotal := total_contingencyTable ids hlabels
  rw [contingencyTable_eq] at htotal
  simp only [List.map_cons, List.map_nil, List.sum_cons, List.sum_nil, Nat.add_zero] at htotal
  rw [Table.total, Table.first, Table.second, IdSet.table, ← htotal, Nat.cast_add,
    Nat.cast_list_sum, Nat.cast_list_sum]
  simp only [List.map_map]
  rfl

theorem cramerVSquared_eq {chi2Contingency : List (List Nat) → ℚ}
    (hscipy : IsChi2Contingency chi2Contingency) :
    cramerVSquared (chi2Contingency (contingencyTable ids)) (contingencyTable ids) =
      (ids.table hlabels h0 h1).chi2 / (ids.table hlabels h0 h1).total := by
  have hchi2 : chi2Contingency (contingencyTable ids) = (ids.table hlabels h0 h1).chi2 := by
    rw [contingencyTable_eq]
    apply hscipy
    · rw [List.length_map, List.length_map]
    · rw [List.zip_map', List.map_map]
      rfl
  have hlength : (contingencyTable ids).length = 2 := rfl
  rw [cramerVSquared, total_contingencyTable ids hlabels, hchi2, hlength, total_table]
  norm_num

theorem determines_iff : Determines samples ↔
    ∀ c ∈ (ids.table hlabels h0 h1).columns, c.1 = 0 ∨ c.2 = 0 := by
  have hzero : ∀ v label, (samples.count (v, label) : ℚ) = 0 ↔ (v, label) ∉ samples := by
    intro v label
    rw [Nat.cast_eq_zero, List.count_eq_zero]
  constructor
  · intro h c hc
    obtain ⟨v, -, rfl⟩ := List.mem_map.mp hc
    rw [column, hzero, hzero]
    exact not_and_or.mp (h v)
  · intro h v hboth
    have hv := ids.mem_values hboth.1
    have hc := h _ (List.mem_map_of_mem (f := column samples) hv)
    rw [column, hzero, hzero] at hc
    exact not_and_or.mpr hc hboth

theorem independent_iff : Independent samples ↔
    ∀ c ∈ (ids.table hlabels h0 h1).columns, ∀ d ∈ (ids.table hlabels h0 h1).columns,
      c.2 / (c.1 + c.2) = d.2 / (d.1 + d.2) := by
  constructor
  · intro h c hc d hd
    obtain ⟨v, hv, rfl⟩ := List.mem_map.mp hc
    obtain ⟨w, hw, rfl⟩ := List.mem_map.mp hd
    exact h v ((ids.mem_iff v).mp hv) w ((ids.mem_iff w).mp hw)
  · intro h v hv w hw
    exact h _ (List.mem_map_of_mem ((ids.mem_iff v).mpr hv)) _
      (List.mem_map_of_mem ((ids.mem_iff w).mpr hw))

/-- The measure of a table without correction. -/
theorem pearson_endsRight : EndsRight samples
    ((ids.table hlabels h0 h1).pearson / (ids.table hlabels h0 h1).total) := by
  refine ⟨Table.pearson_div_total_nonneg _, Table.pearson_div_total_le_one _, ?_, ?_⟩
  · rw [Table.pearson_div_total_eq_one_iff, ← determines_iff]
  · rw [Table.pearson_div_total_eq_zero_iff, Table.proportions_iff, ← independent_iff]

/-- A single identifier has both labels. -/
theorem single_endsRight (h0 : ∃ s ∈ samples, s.2 = 0) (h1 : ∃ s ∈ samples, s.2 = 1) {v : Nat}
    (h : ids.values = [v]) : EndsRight samples 0 := by
  have hall : ∀ u ∈ samples.map Prod.fst, u = v := by
    intro u hu
    have hmem := (ids.mem_iff u).mpr hu
    rw [h] at hmem
    exact List.mem_singleton.mp hmem
  have hdetermines : ¬ Determines samples := by
    intro hdet
    obtain ⟨⟨a, label⟩, ha, rfl⟩ := h0
    obtain ⟨⟨b, label'⟩, hb, rfl⟩ := h1
    have hav := hall a (List.mem_map_of_mem ha)
    have hbv := hall b (List.mem_map_of_mem hb)
    subst hav hbv
    exact hdet _ ⟨ha, hb⟩
  have hindependent : Independent samples := by
    intro u hu w hw
    rw [hall u hu, hall w hw]
  refine ⟨le_rfl, zero_le_one, ?_, ?_⟩
  · simp [hdetermines]
  · simp [hindependent]

/-- The measure of a table of two identifiers. -/
theorem yates_bounds {v w : Nat} (h : ids.values = [v, w]) :
    0 ≤ (ids.table hlabels h0 h1).yates / (ids.table hlabels h0 h1).total ∧
    (ids.table hlabels h0 h1).yates / (ids.table hlabels h0 h1).total < 1 ∧
    ((ids.table hlabels h0 h1).yates / (ids.table hlabels h0 h1).total = 0 ↔
      2 * |(samples.count (v, 0) : Int) * samples.count (w, 1) -
        samples.count (w, 0) * samples.count (v, 1)| ≤ samples.length) := by
  have hcolumns : (ids.table hlabels h0 h1).columns = [column samples v, column samples w] := by
    change ids.values.map (column samples) = _
    rw [h]
    rfl
  refine ⟨Table.yates_div_total_nonneg hcolumns, Table.yates_div_total_lt_one hcolumns, ?_⟩
  rw [Table.yates_div_total_eq_zero_iff hcolumns, total_table]
  simp only [column]
  exact_mod_cast Iff.rfl

/-- Two identifiers have the same proportion when their counts are proportional. -/
theorem independent_two_iff (hlabels : ∀ s ∈ samples, s.2 = 0 ∨ s.2 = 1) {v w : Nat}
    (h : ids.values = [v, w]) : Independent samples ↔
    (samples.count (v, 0) : Int) * samples.count (w, 1) =
      samples.count (w, 0) * samples.count (v, 1) := by
  have hmem : ∀ u, u ∈ samples.map Prod.fst ↔ u = v ∨ u = w := by
    intro u
    rw [← ids.mem_iff u, h]
    simp
  have hv := column_pos hlabels ((hmem v).mpr (Or.inl rfl))
  have hw := column_pos hlabels ((hmem w).mpr (Or.inr rfl))
  have hsame : proportion samples v = proportion samples w ↔
      (samples.count (v, 0) : Int) * samples.count (w, 1) =
        samples.count (w, 0) * samples.count (v, 1) := by
    simp only [column] at hv hw
    rw [proportion, proportion, div_eq_div_iff hv.ne' hw.ne']
    rw [← Int.cast_inj (α := ℚ)]
    push_cast
    constructor <;> intro h <;> linarith
  rw [← hsame]
  constructor
  · intro hall
    exact hall v ((hmem v).mpr (Or.inl rfl)) w ((hmem w).mpr (Or.inr rfl))
  · intro hvw a ha b hb
    have hone : ∀ u ∈ samples.map Prod.fst, proportion samples u = proportion samples v := by
      intro u hu
      obtain rfl | rfl := (hmem u).mp hu
      · rfl
      · exact hvw.symm
    rw [hone a ha, hone b hb]

/-- With two identifiers the measure never is one, and the correction takes it to zero when
the counts are close to proportional. -/
theorem yates_endsRight_iff {v w : Nat} (h : ids.values = [v, w]) :
    EndsRight samples ((ids.table hlabels h0 h1).yates / (ids.table hlabels h0 h1).total) ↔
      ¬ Determines samples ∧ ClearOfCorrection samples v w := by
  obtain ⟨hnonneg, hlt, hzero⟩ := yates_bounds ids hlabels h0 h1 h
  rw [EndsRight, hzero, independent_two_iff ids hlabels h, ClearOfCorrection]
  have hproportional : (samples.count (v, 0) : Int) * samples.count (w, 1) =
      samples.count (w, 0) * samples.count (v, 1) →
        2 * |(samples.count (v, 0) : Int) * samples.count (w, 1) -
          samples.count (w, 0) * samples.count (v, 1)| ≤ samples.length := by
    intro heq
    rw [heq, sub_self, abs_zero]
    omega
  constructor
  · intro ⟨_, _, hone, hlevel⟩
    refine ⟨fun hdet => hlt.ne (hone.mpr hdet), ?_⟩
    obtain hle | hlt := le_or_gt (2 * |(samples.count (v, 0) : Int) * samples.count (w, 1) -
      samples.count (w, 0) * samples.count (v, 1)|) samples.length
    · exact Or.inl (hlevel.mp hle)
    · exact Or.inr hlt
  · intro ⟨hdet, hclear⟩
    refine ⟨hnonneg, hlt.le, ⟨fun heq => absurd heq hlt.ne, fun h => absurd h hdet⟩, ?_, ?_⟩
    · intro hle
      exact hclear.resolve_right (by omega)
    · exact hproportional

theorem ClearOfCorrection.symm {v w : Nat} (h : ClearOfCorrection samples v w) :
    ClearOfCorrection samples w v := by
  obtain h | h := h
  · exact Or.inl h.symm
  · rw [abs_sub_comm] at h
    exact Or.inr h

/-- A set of two identifiers has two values. -/
theorem IdSet.perm_of_two {v w : Nat} (hne : v ≠ w)
    (hids : ∀ u, u ∈ samples.map Prod.fst ↔ u = v ∨ u = w) : ids.values.Perm [v, w] := by
  rw [List.perm_ext_iff_of_nodup ids.nodup (by simp [hne])]
  intro u
  rw [ids.mem_iff, hids]
  simp

theorem unharmed_iff {v w : Nat} (h : ids.values = [v, w]) :
    UnharmedByCorrection samples ↔
      ¬ Determines samples ∧ ClearOfCorrection samples v w := by
  have hne : v ≠ w := by
    intro heq
    have hnodup := ids.nodup
    rw [h, heq] at hnodup
    simp at hnodup
  constructor
  · intro hunharmed
    apply hunharmed v w hne
    intro u
    rw [← ids.mem_iff, h]
    simp
  · intro ⟨hdet, hclear⟩ a b hab hids
    refine ⟨hdet, ?_⟩
    have hvalues : ∀ u, u = a ∨ u = b → u = v ∨ u = w := by
      intro u hu
      rw [← hids, ← ids.mem_iff, h] at hu
      simpa using hu
    obtain rfl | rfl := hvalues a (Or.inl rfl)
    · obtain rfl | rfl := hvalues b (Or.inr rfl)
      · exact absurd rfl hab
      · exact hclear
    · obtain rfl | rfl := hvalues b (Or.inr rfl)
      · exact hclear.symm
      · exact absurd rfl hab

end Measure

/-- **When the measure is right.** The table holds the counts of the samples. Its measure
lies between zero and one, with the ends where they should be, unless there are two
identifiers and the correction moves the counts. -/
theorem measures_iff {samples : List Sample} (ids : IdSet samples)
    (hlabels : ∀ s ∈ samples, s.2 = 0 ∨ s.2 = 1) (h0 : ∃ s ∈ samples, s.2 = 0)
    (h1 : ∃ s ∈ samples, s.2 = 1) {chi2Contingency : List (List Nat) → ℚ}
    (hscipy : IsChi2Contingency chi2Contingency) :
    Measures ids (contingencyTable ids)
        (cramerVSquared (chi2Contingency (contingencyTable ids)) (contingencyTable ids)) ↔
      UnharmedByCorrection samples := by
  rw [cramerVSquared_eq ids hlabels h0 h1 hscipy, measures_iff_endsRight ids hlabels]
  have hlength : (ids.table hlabels h0 h1).columns.length = ids.values.length :=
    List.length_map _
  by_cases htwo : ids.values.length = 2
  · obtain ⟨v, w, hvalues⟩ := List.length_eq_two.mp htwo
    have hchi2 : (ids.table hlabels h0 h1).chi2 = (ids.table hlabels h0 h1).yates := by
      rw [Table.chi2, hlength, htwo]
      rfl
    rw [hchi2, yates_endsRight_iff ids hlabels h0 h1 hvalues, unharmed_iff ids hvalues]
  · have huncorrected : UnharmedByCorrection samples :=
      fun v w hne hids => absurd (ids.perm_of_two hne hids).length_eq htwo
    have hpos : ids.values ≠ [] := by
      obtain ⟨s, hs, -⟩ := h0
      exact List.ne_nil_of_mem (ids.mem_values hs)
    simp only [huncorrected, iff_true]
    by_cases hone : ids.values.length = 1
    · obtain ⟨v, hvalues⟩ := List.length_eq_one_iff.mp hone
      have hchi2 : (ids.table hlabels h0 h1).chi2 = 0 := by
        rw [Table.chi2, hlength, hone]
        rfl
      rw [hchi2, zero_div]
      exact single_endsRight ids h0 h1 hvalues
    · have hlong := List.length_pos_iff.mpr hpos
      have hchi2 : (ids.table hlabels h0 h1).chi2 = (ids.table hlabels h0 h1).pearson := by
        rw [Table.chi2, hlength, if_neg (by omega), if_neg (by omega)]
      rw [hchi2]
      exact pearson_endsRight ids hlabels h0 h1

/-! ## Two separated identifiers -/

/-- The statistic of a table of two rows without empty rows and columns. -/
def chi2Contingency (table : List (List Nat)) : ℚ :=
  match table with
  | [row0, row1] =>
    let columns := (row0.zip row1).map (fun c => ((c.1 : ℚ), (c.2 : ℚ)))
    if h : (∀ c ∈ columns, 0 ≤ c.1 ∧ 0 ≤ c.2) ∧ (∀ c ∈ columns, 0 < c.1 + c.2) ∧
        0 < (columns.map Prod.fst).sum ∧ 0 < (columns.map Prod.snd).sum then
      Table.chi2 ⟨columns, h.1, h.2.1, h.2.2.1, h.2.2.2⟩
    else 0
  | _ => 0

theorem isChi2Contingency : IsChi2Contingency chi2Contingency := by
  intro row0 row1 t _ hcolumns
  have h := And.intro t.nonneg (And.intro t.pos (And.intro t.pos_first t.pos_second))
  obtain ⟨columns, _, _, _, _⟩ := t
  dsimp only at hcolumns h
  subst hcolumns
  exact dif_pos h

/-- Each of two identifiers has one label. -/
def separated : List Sample := [(1, 0), (1, 0), (2, 1), (2, 1)]

def separatedIds : IdSet separated where
  values := [1, 2]
  nodup := by decide
  mem_iff := by
    intro v
    simp [separated]

theorem measures_iff_separated : (∀ s ∈ separated, s.2 = 0 ∨ s.2 = 1) ∧
    (∃ s ∈ separated, s.2 = 0) ∧ (∃ s ∈ separated, s.2 = 1) ∧
      (Measures separatedIds (contingencyTable separatedIds)
          (cramerVSquared (chi2Contingency (contingencyTable separatedIds))
            (contingencyTable separatedIds)) ↔
        UnharmedByCorrection separated) :=
  ⟨by decide, by decide, by decide,
    measures_iff separatedIds (by decide) (by decide) (by decide) isChi2Contingency⟩

/-- The identifier determines the label and the measure is not one. -/
theorem separated_not_measured : IsChi2Contingency chi2Contingency ∧
    ¬ Measures separatedIds (contingencyTable separatedIds)
      (cramerVSquared (chi2Contingency (contingencyTable separatedIds))
        (contingencyTable separatedIds)) := by
  refine ⟨isChi2Contingency, fun h => ?_⟩
  have hdetermines : Determines separated := by
    intro v hv
    simp [separated] at hv
    omega
  have hquarter : cramerVSquared (chi2Contingency (contingencyTable separatedIds))
      (contingencyTable separatedIds) = 1 / 4 := by
    decide +kernel
  have hone := h.eq_one_iff.mpr hdetermines
  rw [hquarter] at hone
  norm_num at hone

end MicroSampler.Scripts
