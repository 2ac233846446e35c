import Mathlib.Algebra.BigOperators.Ring.List
import Mathlib.Algebra.Order.BigOperators.Group.List
import Mathlib.Algebra.Order.Field.Basic
import Mathlib.Tactic.FieldSimp
import Mathlib.Tactic.Linarith
import Mathlib.Tactic.Positivity
import Mathlib.Tactic.Ring

/-!
# Association in tables of two rows

The chi-squared statistic of a table with two rows and any number of columns, divided by its
total, is one minus a sum that counts the columns with entries in both rows. It lies between
zero, where all columns have the same proportion, and one, where no column has entries in both
rows. The correction for tables of one degree of freedom keeps the upper end out of reach.
-/

namespace MicroSampler.ChiSquared

variable {K : Type} [Field K] [LinearOrder K] [IsStrictOrderedRing K]

/-- A table of two rows given by its columns. No row and no column is empty. -/
structure Table (K : Type) [Field K] [LinearOrder K] where
  columns : List (K × K)
  nonneg : ∀ c ∈ columns, 0 ≤ c.1 ∧ 0 ≤ c.2
  pos : ∀ c ∈ columns, 0 < c.1 + c.2
  pos_first : 0 < (columns.map Prod.fst).sum
  pos_second : 0 < (columns.map Prod.snd).sum

namespace Table

/-! ## The statistic -/

/-- The total of the first row. -/
def first (t : Table K) : K := (t.columns.map Prod.fst).sum

/-- The total of the second row. -/
def second (t : Table K) : K := (t.columns.map Prod.snd).sum

def total (t : Table K) : K := t.first + t.second

/-- The counts expected in a column when rows and columns are independent. -/
def expected (t : Table K) (c : K × K) : K × K :=
  (t.first * (c.1 + c.2) / t.total, t.second * (c.1 + c.2) / t.total)

/-- The sum over all cells of the squared distance of the count, after an adjustment towards
the expected one, from the expected one. -/
def statistic (t : Table K) (adjust : K → K → K) : K :=
  (t.columns.map fun c => (adjust c.1 (t.expected c).1 - (t.expected c).1) ^ 2 / (t.expected c).1 +
    (adjust c.2 (t.expected c).2 - (t.expected c).2) ^ 2 / (t.expected c).2).sum

def pearson (t : Table K) : K := t.statistic fun o _ => o

end Table

/-- A count moved towards the expected one by at most one half. -/
def towards (o e : K) : K := if o ≤ e then min (o + 1 / 2) e else max (o - 1 / 2) e

namespace Table

def yates (t : Table K) : K := t.statistic towards

/-- The statistic with the correction for one degree of freedom; zero without any. -/
def chi2 (t : Table K) : K :=
  if t.columns.length - 1 = 0 then 0
  else if t.columns.length - 1 = 1 then t.yates
  else t.pearson

variable (t : Table K)

omit [IsStrictOrderedRing K] in
theorem first_pos : 0 < t.first := t.pos_first

omit [IsStrictOrderedRing K] in
theorem second_pos : 0 < t.second := t.pos_second

theorem total_pos : 0 < t.total := add_pos t.first_pos t.second_pos

/-- The distance from the expected counts, the same one in both rows. -/
theorem sub_expected (c : K × K) :
    c.1 - (t.expected c).1 = (t.second * c.1 - t.first * c.2) / t.total ∧
      c.2 - (t.expected c).2 = -((t.second * c.1 - t.first * c.2) / t.total) := by
  have htotal : t.first + t.second ≠ 0 := t.total_pos.ne'
  simp only [expected, total]
  constructor
  · field_simp
    ring
  · field_simp
    ring

/-! ## The uncorrected statistic -/

/-- What a column adds to the statistic, over the total. -/
def share (c : K × K) : K :=
  (t.second * c.1 - t.first * c.2) ^ 2 / (t.total * (c.1 + c.2) * t.first * t.second)

theorem share_nonneg {c : K × K} (hc : c ∈ t.columns) : 0 ≤ t.share c := by
  have hcolumn := t.pos c hc
  have hfirst := t.first_pos
  have hsecond := t.second_pos
  have htotal := t.total_pos
  unfold share
  positivity

theorem share_eq_zero_iff {c : K × K} (hc : c ∈ t.columns) :
    t.share c = 0 ↔ t.second * c.1 = t.first * c.2 := by
  have hcolumn := (t.pos c hc).ne'
  have hfirst := t.first_pos.ne'
  have hsecond := t.second_pos.ne'
  have htotal := t.total_pos.ne'
  rw [share, div_eq_zero_iff, sq_eq_zero_iff, sub_eq_zero]
  simp [hcolumn, hfirst, hsecond, htotal]

theorem pearson_div_total : t.pearson / t.total = (t.columns.map t.share).sum := by
  rw [div_eq_mul_inv, pearson, statistic, ← List.sum_map_mul_right]
  congr 1
  apply List.map_congr_left
  intro c hc
  have hcolumn := (t.pos c hc).ne'
  have hfirst := t.first_pos.ne'
  have hsecond := t.second_pos.ne'
  have htotal : t.first + t.second ≠ 0 := t.total_pos.ne'
  simp only [expected, share, total]
  field_simp
  ring

/-- What a column takes from one. -/
def overlap (c : K × K) : K := t.total / (t.first * t.second) * (c.1 * c.2 / (c.1 + c.2))

theorem overlap_nonneg {c : K × K} (hc : c ∈ t.columns) : 0 ≤ t.overlap c := by
  obtain ⟨hx, hy⟩ := t.nonneg c hc
  have hcolumn := t.pos c hc
  have hfirst := t.first_pos
  have hsecond := t.second_pos
  have htotal := t.total_pos
  unfold overlap
  positivity

theorem overlap_eq_zero_iff {c : K × K} (hc : c ∈ t.columns) :
    t.overlap c = 0 ↔ c.1 = 0 ∨ c.2 = 0 := by
  have hcolumn := (t.pos c hc).ne'
  have hfirst := t.first_pos.ne'
  have hsecond := t.second_pos.ne'
  have htotal := t.total_pos.ne'
  rw [overlap, mul_eq_zero, div_eq_zero_iff, div_eq_zero_iff, mul_eq_zero, mul_eq_zero]
  simp [hcolumn, hfirst, hsecond, htotal]

/-- The statistic over the total falls short of one by the columns with both entries. -/
theorem pearson_div_total_add :
    t.pearson / t.total + (t.columns.map t.overlap).sum = 1 := by
  have hfirst := t.first_pos.ne'
  have hsecond := t.second_pos.ne'
  have htotal : t.first + t.second ≠ 0 := t.total_pos.ne'
  have hcolumn : ∀ c ∈ t.columns, t.share c + t.overlap c =
      t.second / (t.total * t.first) * c.1 + t.first / (t.total * t.second) * c.2 := by
    intro c hc
    have hc := (t.pos c hc).ne'
    simp only [share, overlap, total]
    field_simp
    ring
  rw [pearson_div_total, ← List.sum_map_add, List.map_congr_left hcolumn, List.sum_map_add,
    List.sum_map_mul_left, List.sum_map_mul_left]
  change t.second / (t.total * t.first) * t.first + t.first / (t.total * t.second) * t.second = 1
  rw [total]
  field_simp
  ring

theorem sum_map_eq_zero_iff {f : K × K → K} {l : List (K × K)} (h : ∀ c ∈ l, 0 ≤ f c) :
    (l.map f).sum = 0 ↔ ∀ c ∈ l, f c = 0 := by
  have hmap : ∀ x ∈ l.map f, 0 ≤ x := by
    intro x hx
    obtain ⟨c, hc, rfl⟩ := List.mem_map.mp hx
    exact h c hc
  constructor
  · intro hsum c hc
    exact List.all_zero_of_le_zero_le_of_sum_eq_zero hmap hsum (List.mem_map_of_mem hc)
  · intro hzero
    rw [List.map_congr_left hzero]
    simp

theorem sum_map_nonneg {f : K × K → K} {l : List (K × K)} (h : ∀ c ∈ l, 0 ≤ f c) :
    0 ≤ (l.map f).sum := by
  apply List.sum_nonneg
  intro x hx
  obtain ⟨c, hc, rfl⟩ := List.mem_map.mp hx
  exact h c hc

theorem pearson_div_total_nonneg : 0 ≤ t.pearson / t.total := by
  rw [pearson_div_total]
  exact sum_map_nonneg fun c hc => t.share_nonneg hc

theorem pearson_div_total_le_one : t.pearson / t.total ≤ 1 := by
  have hsum := t.pearson_div_total_add
  have hoverlap := sum_map_nonneg fun c hc => t.overlap_nonneg (c := c) hc
  linarith

/-- Full association: no column has entries in both rows. -/
theorem pearson_div_total_eq_one_iff :
    t.pearson / t.total = 1 ↔ ∀ c ∈ t.columns, c.1 = 0 ∨ c.2 = 0 := by
  have hsum := t.pearson_div_total_add
  have hzero := sum_map_eq_zero_iff fun c hc => t.overlap_nonneg (c := c) hc
  calc t.pearson / t.total = 1 ↔ (t.columns.map t.overlap).sum = 0 := by
        constructor <;> intro h <;> linarith
    _ ↔ ∀ c ∈ t.columns, t.overlap c = 0 := hzero
    _ ↔ ∀ c ∈ t.columns, c.1 = 0 ∨ c.2 = 0 :=
        forall₂_congr fun c hc => t.overlap_eq_zero_iff hc

/-- No association: all columns have the proportion of the totals. -/
theorem pearson_div_total_eq_zero_iff :
    t.pearson / t.total = 0 ↔ ∀ c ∈ t.columns, t.second * c.1 = t.first * c.2 := by
  rw [pearson_div_total, sum_map_eq_zero_iff fun c hc => t.share_nonneg hc]
  exact forall₂_congr fun c hc => t.share_eq_zero_iff hc

/-- All columns have the proportion of the totals when they have one proportion. -/
theorem proportions_iff : (∀ c ∈ t.columns, t.second * c.1 = t.first * c.2) ↔
    ∀ c ∈ t.columns, ∀ d ∈ t.columns, c.2 / (c.1 + c.2) = d.2 / (d.1 + d.2) := by
  have htotal := t.total_pos
  constructor
  · intro h
    have hcolumn : ∀ c ∈ t.columns, c.2 / (c.1 + c.2) = t.second / t.total := by
      intro c hc
      rw [div_eq_div_iff (t.pos c hc).ne' htotal.ne', total]
      linarith [h c hc]
    intro c hc d hd
    rw [hcolumn c hc, hcolumn d hd]
  · intro h c hc
    -- the second row sums to its share of the total
    have hshare : ∀ d ∈ t.columns, d.2 = c.2 / (c.1 + c.2) * d.1 + c.2 / (c.1 + c.2) * d.2 := by
      intro d hd
      have hcolumn := (t.pos d hd).ne'
      rw [h c hc d hd]
      field_simp
    have hsum : t.second = c.2 / (c.1 + c.2) * t.total := by
      rw [second, List.map_congr_left hshare, List.sum_map_add, List.sum_map_mul_left,
        List.sum_map_mul_left, ← mul_add]
      rfl
    have hcolumn := (t.pos c hc).ne'
    rw [total] at hsum
    field_simp at hsum
    linarith

/-! ## The corrected statistic -/

/-- A statistic in which all counts are equally far from the expected ones. -/
theorem statistic_of_distance {adjust : K → K → K} {s : K}
    (h : ∀ c ∈ t.columns, (adjust c.1 (t.expected c).1 - (t.expected c).1) ^ 2 = s ∧
      (adjust c.2 (t.expected c).2 - (t.expected c).2) ^ 2 = s) :
    t.statistic adjust =
      s * (t.columns.map fun c => 1 / (t.expected c).1 + 1 / (t.expected c).2).sum := by
  rw [statistic, ← List.sum_map_mul_left]
  congr 1
  apply List.map_congr_left
  intro c hc
  rw [(h c hc).1, (h c hc).2]
  ring

end Table

theorem towards_sub_sq (o e : K) : (towards o e - e) ^ 2 = max 0 (|o - e| - 1 / 2) ^ 2 := by
  unfold towards
  split
  · next h =>
    rw [abs_of_nonpos (by linarith)]
    obtain hle | hle := le_total (o + 1 / 2) e
    · rw [min_eq_left hle, max_eq_right (by linarith)]
      ring
    · rw [min_eq_right hle, max_eq_left (by linarith)]
      ring
  · next h =>
    rw [abs_of_pos (by linarith)]
    obtain hle | hle := le_total (o - 1 / 2) e
    · rw [max_eq_right hle, max_eq_left (by linarith)]
      ring
    · rw [max_eq_left hle, max_eq_right (by linarith)]
      ring

namespace Table

variable {t : Table K}

section TwoColumns

variable {c d : K × K} (h : t.columns = [c, d])

include h

/-- With two columns, all four counts are equally far from the expected ones. -/
theorem distance_of_two : ∀ b ∈ t.columns,
    |b.1 - (t.expected b).1| = |c.1 * d.2 - d.1 * c.2| / t.total ∧
      |b.2 - (t.expected b).2| = |c.1 * d.2 - d.1 * c.2| / t.total := by
  have hfirst : t.first = c.1 + d.1 := by simp [first, h]
  have hsecond : t.second = c.2 + d.2 := by simp [second, h]
  intro b hb
  have hdistance : |t.second * b.1 - t.first * b.2| = |c.1 * d.2 - d.1 * c.2| := by
    rw [h, List.mem_cons, List.mem_singleton] at hb
    obtain rfl | rfl := hb
    · congr 1
      rw [hfirst, hsecond]
      ring
    · rw [← abs_neg]
      congr 1
      rw [hfirst, hsecond]
      ring
  rw [(t.sub_expected b).1, (t.sub_expected b).2, abs_neg, abs_div, abs_of_pos t.total_pos,
    hdistance]
  exact ⟨rfl, rfl⟩

/-- The sum of the inverses of the expected counts. -/
theorem inverses_pos :
    0 < (t.columns.map fun c => 1 / (t.expected c).1 + 1 / (t.expected c).2).sum := by
  have hfirst := t.first_pos
  have hsecond := t.second_pos
  have htotal := t.total_pos
  apply List.sum_pos
  · intro x hx
    obtain ⟨b, hb, rfl⟩ := List.mem_map.mp hx
    have hcolumn := t.pos b hb
    unfold expected
    positivity
  · rw [h]
    simp

theorem yates_of_two :
    t.yates = max 0 (|c.1 * d.2 - d.1 * c.2| / t.total - 1 / 2) ^ 2 *
      (t.columns.map fun c => 1 / (t.expected c).1 + 1 / (t.expected c).2).sum := by
  apply statistic_of_distance
  intro b hb
  rw [towards_sub_sq, towards_sub_sq, (distance_of_two h b hb).1, (distance_of_two h b hb).2]
  exact ⟨rfl, rfl⟩

theorem pearson_of_two :
    t.pearson = (|c.1 * d.2 - d.1 * c.2| / t.total) ^ 2 *
      (t.columns.map fun c => 1 / (t.expected c).1 + 1 / (t.expected c).2).sum := by
  apply statistic_of_distance
  intro b hb
  rw [← sq_abs, (distance_of_two h b hb).1, ← sq_abs (b.2 - _), (distance_of_two h b hb).2]
  exact ⟨rfl, rfl⟩

theorem yates_div_total_nonneg : 0 ≤ t.yates / t.total := by
  rw [yates_of_two h]
  have hinverses := inverses_pos h
  have htotal := t.total_pos
  positivity

/-- The corrected statistic never reaches the total. -/
theorem yates_div_total_lt_one : t.yates / t.total < 1 := by
  have htotal := t.total_pos
  have hinverses := inverses_pos h
  have hle := t.pearson_div_total_le_one
  rw [div_le_one htotal, pearson_of_two h] at hle
  rw [div_lt_one htotal, yates_of_two h]
  have hdistance : 0 ≤ |c.1 * d.2 - d.1 * c.2| / t.total := by positivity
  obtain hsmall | hlarge := le_total (|c.1 * d.2 - d.1 * c.2| / t.total) (1 / 2)
  · rw [max_eq_left (by linarith)]
    simpa using htotal
  · rw [max_eq_right (by linarith)]
    apply lt_of_lt_of_le _ hle
    apply mul_lt_mul_of_pos_right _ hinverses
    apply pow_lt_pow_left₀ (by linarith) (by linarith) two_ne_zero

/-- The corrected statistic is zero when no count is further than one half from the expected
one. -/
theorem yates_div_total_eq_zero_iff :
    t.yates / t.total = 0 ↔ 2 * |c.1 * d.2 - d.1 * c.2| ≤ t.total := by
  have htotal := t.total_pos
  rw [yates_of_two h, div_eq_zero_iff, mul_eq_zero, sq_eq_zero_iff, max_eq_left_iff]
  simp only [(inverses_pos h).ne', htotal.ne', or_false]
  rw [sub_nonpos, div_le_iff₀ htotal]
  constructor <;> intro hle <;> linarith

end TwoColumns

end Table

end MicroSampler.ChiSquared
