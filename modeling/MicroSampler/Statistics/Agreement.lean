import Mathlib.Algebra.BigOperators.Ring.Finset
import Mathlib.Algebra.Field.Rat
import MicroSampler.Library.Aggregates
import MicroSampler.Library.Dict
import MicroSampler.Statistics.Analysis

/-!
# Agreement of the statistics tables

The distribution tables group the rows of a timing table, by class or by iteration and class.
The tables of the tests select them with masks, inside a loop over the iterations. Both cut
the table into the same pieces (`tables_agree`).
-/

namespace MicroSampler.Statistics

open Aggregates Loops

/-! ## Aggregation -/

variable {F : Type} (num : Numerics F)

/-- The figures of a whole from those of its parts. -/
structure Aggregate (whole : Distribution F) (parts : List (Distribution F)) : Prop where
  samples : whole.samples = (parts.map Distribution.samples).sum
  defined : ∀ d ∈ parts, d.mean.isSome
  mean : whole.mean = some ((parts.map fun d => (d.samples : ℚ) * d.mean.getD 0).sum /
    (parts.map Distribution.samples).sum)
  min : (parts.map Distribution.min).min? = some whole.min
  max : (parts.map Distribution.max).max? = some whole.max

theorem min?_eq_distribution_min {samples : List Int} (h : samples ≠ []) :
    samples.min? = some (distribution num samples).min := by
  obtain ⟨m, hm⟩ := Option.isSome_iff_exists.mp (List.isSome_min?_of_ne_nil h)
  rw [distribution, hm, Option.getD_some]

theorem max?_eq_distribution_max {samples : List Int} (h : samples ≠ []) :
    samples.max? = some (distribution num samples).max := by
  obtain ⟨m, hm⟩ := Option.isSome_iff_exists.mp (List.isSome_max?_of_ne_nil h)
  rw [distribution, hm, Option.getD_some]

theorem mean_eq {samples : List Int} (h : samples ≠ []) :
    mean samples = some ((samples.sum : ℚ) / samples.length) := if_neg h

/-- Every piece counts in the mean with its number of samples. -/
theorem weighted_mean_sum {pieces : List (List Int)} (hpieces : ∀ p ∈ pieces, p ≠ []) :
    (pieces.map fun p => ((distribution num p).samples : ℚ) *
      (distribution num p).mean.getD 0).sum = (pieces.flatten.sum : ℚ) := by
  have hpiece : ∀ p ∈ pieces, ((distribution num p).samples : ℚ) *
      (distribution num p).mean.getD 0 = (p.length : ℚ) * ((p.sum : ℚ) / p.length) := by
    intro p hp
    rw [distribution, mean_eq (hpieces p hp), Option.getD_some]
  have hweight : ∀ p ∈ pieces, (p.length : ℚ) ≠ 0 := by
    intro p hp
    exact_mod_cast (List.length_pos_iff.mpr (hpieces p hp)).ne'
  rw [List.map_congr_left hpiece, sum_map_mul_div hweight, List.sum_flatten, Int.cast_list_sum,
    List.map_map]
  rfl

/-- **Aggregates.** The distribution of samples that are cut in pieces. -/
theorem aggregate_distribution {pieces : List (List Int)} {samples : List Int}
    (hne : pieces ≠ []) (hpieces : ∀ p ∈ pieces, p ≠ []) (hperm : pieces.flatten.Perm samples) :
    Aggregate (distribution num samples) (pieces.map (distribution num)) := by
  have hflat : pieces.flatMap id = pieces.flatten := List.flatMap_id
  have hmem : ∀ b, b ∈ pieces.flatMap id ↔ b ∈ samples := fun b => by rw [hflat, hperm.mem_iff]
  have hsamples : samples ≠ [] := by
    obtain ⟨p, hp⟩ := List.exists_mem_of_ne_nil pieces hne
    obtain ⟨b, hb⟩ := List.exists_mem_of_ne_nil p (hpieces p hp)
    exact List.ne_nil_of_mem ((hmem b).mp (List.mem_flatMap.mpr ⟨p, hp, hb⟩))
  have hlength : samples.length = (pieces.map List.length).sum := by
    rw [← hperm.length_eq, List.length_flatten]
  refine ⟨?_, ?_, ?_, ?_, ?_⟩
  · rw [List.map_map]
    exact hlength
  · intro d hd
    obtain ⟨p, hp, rfl⟩ := List.mem_map.mp hd
    exact Option.isSome_of_eq_some (mean_eq (hpieces p hp))
  · have hweighted := weighted_mean_sum num hpieces
    rw [hperm.sum_eq] at hweighted
    rw [List.map_map, List.map_map]
    refine (mean_eq hsamples).trans ?_
    rw [hlength]
    exact congrArg (fun x : ℚ => some (x / _)) hweighted.symm
  · rw [List.map_map]
    refine (min?_map_pieces fun p hp => ?_).trans
      ((min?_eq_of_mem_iff hmem).trans (min?_eq_distribution_min num hsamples))
    exact min?_eq_distribution_min num (hpieces p hp)
  · rw [List.map_map]
    refine (max?_map_pieces fun p hp => ?_).trans
      ((max?_eq_of_mem_iff hmem).trans (max?_eq_distribution_max num hsamples))
    exact max?_eq_distribution_max num (hpieces p hp)

/-! ## The rows of the distribution tables -/

/-- The key of `generate_iteration_distribution_table`. -/
def iterationClass (t : Timing) : Int × Int := (t.innerIteration, t.cls)

theorem generateGlobalDistributionTable_eq (rows : List Timing) :
    generateGlobalDistributionTable num rows =
      (sortedKeys (fun a b => decide (a ≤ b)) (rows.map Timing.cls)).map fun c =>
        ⟨c, distribution num (classDurations rows c)⟩ := by
  rw [generateGlobalDistributionTable, groupby, List.map_map]
  rfl

theorem generateIterationDistributionTable_eq (rows : List Timing) :
    generateIterationDistributionTable num rows =
      (sortedKeys lexLe (rows.map iterationClass)).map fun k =>
        ⟨k.1, k.2, distribution num (durations (rows.filter fun t => iterationClass t = k))⟩ := by
  rw [generateIterationDistributionTable, groupby, List.map_map]
  rfl

theorem map_cls_generateGlobalDistributionTable (rows : List Timing) :
    (generateGlobalDistributionTable num rows).map GlobalDistributionRow.cls =
      sortedKeys (fun a b => decide (a ≤ b)) (rows.map Timing.cls) := by
  rw [generateGlobalDistributionTable_eq, List.map_map]
  exact List.map_id _

theorem map_key_generateIterationDistributionTable (rows : List Timing) :
    (generateIterationDistributionTable num rows).map (fun r => (r.iteration, r.cls)) =
      sortedKeys lexLe (rows.map iterationClass) := by
  rw [generateIterationDistributionTable_eq, List.map_map]
  exact List.map_id _

/-- The two masks of the iteration tests. -/
theorem filter_filter_eq (rows : List Timing) (i c : Int) :
    ((rows.filter fun t => t.innerIteration = i).filter fun t => t.cls = c) =
      rows.filter fun t => iterationClass t = (i, c) := by
  rw [List.filter_filter]
  apply List.filter_congr
  intro t _
  simp [iterationClass, Bool.and_comm]

/-- The distributions of a class in the global table. -/
def globalRowsOf (table : List (GlobalDistributionRow F)) (c : Int) : List (Distribution F) :=
  (table.filter fun r => r.cls = c).map GlobalDistributionRow.distribution

/-- The distributions of a class in the iteration table. -/
def iterationRowsOf (table : List (IterationDistributionRow F)) (c : Int) :
    List (Distribution F) :=
  (table.filter fun r => r.cls = c).map IterationDistributionRow.distribution

/-- The distributions of an iteration and a class. -/
def rowsOf (table : List (IterationDistributionRow F)) (i c : Int) : List (Distribution F) :=
  (table.filter fun r => (r.iteration, r.cls) = (i, c)).map IterationDistributionRow.distribution

theorem globalRowsOf_eq {rows : List Timing} {c : Int} (h : ∃ t ∈ rows, t.cls = c) :
    globalRowsOf (generateGlobalDistributionTable num rows) c =
      [distribution num (classDurations rows c)] := by
  have hkey : (sortedKeys (fun a b => decide (a ≤ b)) (rows.map Timing.cls)).filter
      (fun k => k = c) = [c] := filter_sortedKeys_eq (List.mem_map.mpr h)
  rw [globalRowsOf, generateGlobalDistributionTable_eq, List.filter_map, List.map_map]
  exact congrArg (List.map _) hkey

theorem rowsOf_eq {rows : List Timing} {i c : Int}
    (h : ∃ t ∈ rows, t.innerIteration = i ∧ t.cls = c) :
    rowsOf (generateIterationDistributionTable num rows) i c =
      [distribution num (durations (rows.filter fun t => iterationClass t = (i, c)))] := by
  obtain ⟨t, ht, rfl, rfl⟩ := h
  have hkey : (sortedKeys lexLe (rows.map iterationClass)).filter
      (fun k => k = iterationClass t) = [iterationClass t] :=
    filter_sortedKeys_eq (List.mem_map_of_mem ht)
  rw [rowsOf, generateIterationDistributionTable_eq, List.filter_map, List.map_map]
  exact congrArg (List.map _) hkey

/-! ## A class cut in iterations -/

/-- The keys of the iteration table that have the class. -/
def keysOfClass (rows : List Timing) (c : Int) : List (Int × Int) :=
  (sortedKeys lexLe (rows.map iterationClass)).filter fun k => k.2 = c

/-- The durations of a class, one list for each iteration that has any. -/
def piecesOfClass (rows : List Timing) (c : Int) : List (List Int) :=
  (keysOfClass rows c).map fun k => durations (rows.filter fun t => iterationClass t = k)

theorem mem_keysOfClass {rows : List Timing} {c : Int} {k : Int × Int} :
    k ∈ keysOfClass rows c ↔ (∃ t ∈ rows, iterationClass t = k) ∧ k.2 = c := by
  rw [keysOfClass, List.mem_filter, mem_sortedKeys, List.mem_map, decide_eq_true_eq]

theorem piecesOfClass_ne_nil {rows : List Timing} {c : Int} (h : ∃ t ∈ rows, t.cls = c) :
    piecesOfClass rows c ≠ [] := by
  obtain ⟨t, ht, hc⟩ := h
  exact List.ne_nil_of_mem (List.mem_map_of_mem (mem_keysOfClass.mpr ⟨⟨t, ht, rfl⟩, hc⟩))

theorem ne_nil_of_mem_piecesOfClass {rows : List Timing} {c : Int} {p : List Int}
    (h : p ∈ piecesOfClass rows c) : p ≠ [] := by
  obtain ⟨k, hk, rfl⟩ := List.mem_map.mp h
  obtain ⟨⟨t, ht, heq⟩, -⟩ := mem_keysOfClass.mp hk
  exact List.ne_nil_of_mem (List.mem_map_of_mem (List.mem_filter.mpr ⟨ht, decide_eq_true heq⟩))

/-- The rows of a key of the class, picked from the rows of the class. -/
theorem filter_of_mem_keysOfClass {rows : List Timing} {c : Int} {k : Int × Int}
    (hk : k ∈ keysOfClass rows c) :
    (rows.filter fun t => iterationClass t = k) =
      (rows.filter fun t => t.cls = c).filter fun t => iterationClass t = k := by
  rw [List.filter_filter]
  apply List.filter_congr
  intro t _
  by_cases ht : iterationClass t = k
  · have hc : t.cls = c := (congrArg Prod.snd ht).trans (mem_keysOfClass.mp hk).2
    simp [ht, hc]
  · simp [ht]

theorem flatten_piecesOfClass_perm (rows : List Timing) (c : Int) :
    (piecesOfClass rows c).flatten.Perm (classDurations rows c) := by
  have hperm : ((keysOfClass rows c).flatMap fun k =>
      (rows.filter fun t => t.cls = c).filter fun t => iterationClass t = k).Perm
        (rows.filter fun t => t.cls = c) := by
    apply Dict.flatMap_filter_perm (nodup_sortedKeys.filter _)
    intro t ht
    obtain ⟨ht, hc⟩ := List.mem_filter.mp ht
    exact mem_keysOfClass.mpr ⟨⟨t, ht, rfl⟩, of_decide_eq_true hc⟩
  have hflatten : (piecesOfClass rows c).flatten =
      durations ((keysOfClass rows c).flatMap fun k =>
        rows.filter fun t => iterationClass t = k) := by
    rw [durations, List.map_flatMap, List.flatMap_def]
    rfl
  rw [hflatten, List.flatMap_congr fun k hk => filter_of_mem_keysOfClass hk]
  exact hperm.map Timing.duration

/-- The iteration rows of a class are the distributions of its pieces. -/
theorem iterationRowsOf_eq (rows : List Timing) (c : Int) :
    iterationRowsOf (generateIterationDistributionTable num rows) c =
      (piecesOfClass rows c).map (distribution num) := by
  rw [iterationRowsOf, generateIterationDistributionTable_eq, List.filter_map, List.map_map,
    piecesOfClass, List.map_map]
  rfl

/-! ## The tests -/

theorem generateWelchTtestTable_classes {rows : List Timing} {r : WelchRow F}
    (h : generateWelchTtestTable num rows = .ok r) :
    r.samples0 = (classDurations rows 0).length ∧ r.mean0 = mean (classDurations rows 0) ∧
      r.samples1 = (classDurations rows 1).length ∧ r.mean1 = mean (classDurations rows 1) := by
  unfold generateWelchTtestTable at h
  dsimp only at h
  split at h
  · cases h
  · cases h
    exact ⟨rfl, rfl, rfl, rfl⟩

/-- What a test says of a class is what the distribution row of the class says. -/
structure ClassFigures (occurs : Prop) (samples : Nat) (mean : Option ℚ)
    (ds : List (Distribution F)) : Prop where
  present : occurs → ∃ d, ds = [d] ∧ samples = d.samples ∧ mean = d.mean
  absent : ¬ occurs → ds = [] ∧ samples = 0

theorem classFigures_of {occurs : Prop} {samples : List Int} {ds : List (Distribution F)}
    (hpresent : occurs → ds = [distribution num samples])
    (habsent : ¬ occurs → ds = [] ∧ samples = []) :
    ClassFigures occurs samples.length (mean samples) ds := by
  refine ⟨fun h => ⟨_, hpresent h, rfl, rfl⟩, fun h => ?_⟩
  obtain ⟨hds, hsamples⟩ := habsent h
  exact ⟨hds, List.length_eq_zero_iff.mpr hsamples⟩

theorem classFigures_global (rows : List Timing) (c : Int) :
    ClassFigures (∃ t ∈ rows, t.cls = c) (classDurations rows c).length
      (mean (classDurations rows c))
      (globalRowsOf (generateGlobalDistributionTable num rows) c) := by
  refine classFigures_of num (globalRowsOf_eq num) fun h => ⟨?_, ?_⟩
  · rw [globalRowsOf, generateGlobalDistributionTable_eq, List.map_eq_nil_iff,
      List.filter_eq_nil_iff, List.forall_mem_map]
    intro k hk hkc
    obtain ⟨t, ht, hc⟩ := List.mem_map.mp (mem_sortedKeys.mp hk)
    exact h ⟨t, ht, hc.trans (of_decide_eq_true hkc)⟩
  · rw [classDurations, durations, List.map_eq_nil_iff, List.filter_eq_nil_iff]
    exact fun t ht hc => h ⟨t, ht, of_decide_eq_true hc⟩

/-- The masks of a test in the loop select what the iteration table groups. -/
theorem classFigures_iteration (rows : List Timing) (i c : Int) :
    ClassFigures (∃ t ∈ rows, t.innerIteration = i ∧ t.cls = c)
      (classDurations (rows.filter fun t => t.innerIteration = i) c).length
      (mean (classDurations (rows.filter fun t => t.innerIteration = i) c))
      (rowsOf (generateIterationDistributionTable num rows) i c) := by
  have hmasks : classDurations (rows.filter fun t => t.innerIteration = i) c =
      durations (rows.filter fun t => iterationClass t = (i, c)) := by
    rw [classDurations, filter_filter_eq]
  rw [hmasks]
  refine classFigures_of num (rowsOf_eq num) fun h => ⟨?_, ?_⟩
  · rw [rowsOf, generateIterationDistributionTable_eq, List.map_eq_nil_iff,
      List.filter_eq_nil_iff, List.forall_mem_map]
    intro k hk hkic
    obtain ⟨t, ht, rfl⟩ := List.mem_map.mp (mem_sortedKeys.mp hk)
    have hkic := Prod.mk.inj (of_decide_eq_true hkic)
    exact h ⟨t, ht, hkic.1, hkic.2⟩
  · rw [durations, List.map_eq_nil_iff, List.filter_eq_nil_iff]
    intro t ht hkic
    have hkic := Prod.mk.inj (of_decide_eq_true hkic)
    exact h ⟨t, ht, hkic.1, hkic.2⟩

theorem iterationWelchRow_ok {rows : List Timing} {i : Int} {r : IterationWelchRow F}
    (h : iterationWelchRow num rows i = .ok r) :
    r.iteration = i ∧ ∃ test,
      generateWelchTtestTable num (rows.filter fun t => t.innerIteration = i) = .ok test ∧
        r.test = { test with score := num.damp test.score i } := by
  obtain ⟨test, htest, hr⟩ := bind_eq_ok_iff.mp h
  cases hr
  exact ⟨rfl, test, htest, rfl⟩

/-- Both classes of the test of an iteration. -/
theorem classFigures_iterationWelchRow {rows : List Timing} {i : Int} {r : IterationWelchRow F}
    (h : iterationWelchRow num rows i = .ok r) :
    ClassFigures (∃ t ∈ rows, t.innerIteration = i ∧ t.cls = 0) r.test.samples0 r.test.mean0
        (rowsOf (generateIterationDistributionTable num rows) i 0) ∧
      ClassFigures (∃ t ∈ rows, t.innerIteration = i ∧ t.cls = 1) r.test.samples1 r.test.mean1
        (rowsOf (generateIterationDistributionTable num rows) i 1) := by
  obtain ⟨-, test, htest, heq⟩ := iterationWelchRow_ok num h
  obtain ⟨hsamples0, hmean0, hsamples1, hmean1⟩ := generateWelchTtestTable_classes num htest
  simp only [heq, hsamples0, hmean0, hsamples1, hmean1]
  exact ⟨classFigures_iteration num rows i 0, classFigures_iteration num rows i 1⟩

/-- One test for each iteration, in the order of the loop. -/
theorem map_iteration_of_forall₂ {rows : List Timing} {is : List Int}
    {tests : List (IterationWelchRow F)}
    (h : List.Forall₂ (fun i r => iterationWelchRow num rows i = .ok r) is tests) :
    tests.map IterationWelchRow.iteration = is ∧
      ∀ r ∈ tests, iterationWelchRow num rows r.iteration = .ok r := by
  induction h with
  | nil => exact ⟨rfl, fun r hr => absurd hr List.not_mem_nil⟩
  | cons hr _ ih =>
    obtain ⟨rfl, -⟩ := iterationWelchRow_ok num hr
    exact ⟨by rw [List.map_cons, ih.1], List.forall_mem_cons.mpr ⟨hr, ih.2⟩⟩

theorem forall₂_of_generateIterationWelchTtestTable {rows : List Timing}
    {tests : List (IterationWelchRow F)}
    (h : generateIterationWelchTtestTable num rows = .ok tests) :
    List.Forall₂ (fun i r => iterationWelchRow num rows i = .ok r) (iterations rows) tests := by
  obtain ⟨tests', htests, h⟩ := bind_eq_ok_iff.mp h
  split at h
  · cases h
  · cases h
    exact mapM_eq_ok_iff.mp htests

/-! ## The four tables -/

/-- A table has one row for each key that occurs. -/
structure RowPerKey {κ : Type} (keys : List κ) (occurs : κ → Prop) : Prop where
  nodup : keys.Nodup
  mem_iff : ∀ k, k ∈ keys ↔ occurs k

theorem rowPerKey_sortedKeys {α κ : Type} [DecidableEq κ] (le : κ → κ → Bool) (key : α → κ)
    (l : List α) : RowPerKey (sortedKeys le (l.map key)) fun k => ∃ a ∈ l, key a = k :=
  ⟨nodup_sortedKeys, fun _ => mem_sortedKeys.trans List.mem_map⟩

/-- What the four tables of a timing table say of each other. -/
structure TablesAgree (rows : List Timing) (globalTable : List (GlobalDistributionRow F))
    (iterationTable : List (IterationDistributionRow F)) (tests : List (IterationWelchRow F))
    (test : WelchRow F) : Prop where
  globalRows : RowPerKey (globalTable.map GlobalDistributionRow.cls)
    fun c => ∃ t ∈ rows, t.cls = c
  iterationRows : RowPerKey (iterationTable.map fun r => (r.iteration, r.cls))
    fun k => ∃ t ∈ rows, t.innerIteration = k.1 ∧ t.cls = k.2
  testRows : RowPerKey (tests.map IterationWelchRow.iteration)
    fun i => ∃ t ∈ rows, t.innerIteration = i
  aggregates : ∀ r ∈ globalTable, Aggregate r.distribution (iterationRowsOf iterationTable r.cls)
  global0 : ClassFigures (∃ t ∈ rows, t.cls = 0) test.samples0 test.mean0
    (globalRowsOf globalTable 0)
  global1 : ClassFigures (∃ t ∈ rows, t.cls = 1) test.samples1 test.mean1
    (globalRowsOf globalTable 1)
  iteration0 : ∀ r ∈ tests, ClassFigures (∃ t ∈ rows, t.innerIteration = r.iteration ∧ t.cls = 0)
    r.test.samples0 r.test.mean0 (rowsOf iterationTable r.iteration 0)
  iteration1 : ∀ r ∈ tests, ClassFigures (∃ t ∈ rows, t.innerIteration = r.iteration ∧ t.cls = 1)
    r.test.samples1 r.test.mean1 (rowsOf iterationTable r.iteration 1)

/-- **The four tables agree.** On a table with rows of the classes 0 and 1 all four are made,
and they describe the same samples. -/
theorem tables_agree {rows : List Timing} (hne : rows ≠ [])
    (hcls : ∀ t ∈ rows, t.cls = 0 ∨ t.cls = 1) :
    ∃ tests test, generateIterationWelchTtestTable num rows = .ok tests ∧
      generateWelchTtestTable num rows = .ok test ∧
      TablesAgree rows (generateGlobalDistributionTable num rows)
        (generateIterationDistributionTable num rows) tests test := by
  obtain ⟨tests, htests⟩ := (generateIterationWelchTtestTable_isOk_iff num).mpr
    ⟨hne, fun t ht => ⟨t, ht, rfl, hcls t ht⟩⟩
  obtain ⟨test, htest⟩ := (generateWelchTtestTable_isOk_iff num).mpr
    ((List.exists_mem_of_ne_nil rows hne).imp fun t ht => ⟨ht, hcls t ht⟩)
  obtain ⟨hiterations, hrows⟩ :=
    map_iteration_of_forall₂ num (forall₂_of_generateIterationWelchTtestTable num htests)
  obtain ⟨hsamples0, hmean0, hsamples1, hmean1⟩ := generateWelchTtestTable_classes num htest
  refine ⟨tests, test, htests, htest, ?_, ?_, ?_, ?_, ?_, ?_, ?_, ?_⟩
  · rw [map_cls_generateGlobalDistributionTable]
    exact rowPerKey_sortedKeys _ Timing.cls rows
  · have hkeys := rowPerKey_sortedKeys lexLe iterationClass rows
    simp only [iterationClass, Prod.ext_iff] at hkeys
    rw [map_key_generateIterationDistributionTable]
    exact hkeys
  · rw [hiterations]
    exact rowPerKey_sortedKeys _ Timing.innerIteration rows
  · intro r hr
    rw [generateGlobalDistributionTable_eq] at hr
    obtain ⟨c, hc, rfl⟩ := List.mem_map.mp hr
    rw [iterationRowsOf_eq]
    exact aggregate_distribution num
      (piecesOfClass_ne_nil (List.mem_map.mp (mem_sortedKeys.mp hc)))
      (fun p hp => ne_nil_of_mem_piecesOfClass hp) (flatten_piecesOfClass_perm rows c)
  · rw [hsamples0, hmean0]
    exact classFigures_global num rows 0
  · rw [hsamples1, hmean1]
    exact classFigures_global num rows 1
  · exact fun r hr => (classFigures_iterationWelchRow num (hrows r hr)).1
  · exact fun r hr => (classFigures_iterationWelchRow num (hrows r hr)).2

/-- Two iterations; the second has no sample of class 1. -/
def unevenRows : List Timing := [⟨0, 0, 10⟩, ⟨0, 1, 12⟩, ⟨0, 0, 14⟩, ⟨1, 0, 11⟩]

/-- Floating point without values. -/
def blankNumerics : Numerics Unit where
  zero := ()
  std := fun _ => ()
  ttestInd := fun _ _ => ((), ())
  significant := fun _ => false
  score := fun _ _ _ _ _ => ()
  damp := fun _ _ => ()
  average := fun _ => ()
  aboveThreshold := fun _ => false
  columns := refusingColumns

theorem tables_agree_uneven :
    ∃ tests test, generateIterationWelchTtestTable blankNumerics unevenRows = .ok tests ∧
      generateWelchTtestTable blankNumerics unevenRows = .ok test ∧
      TablesAgree unevenRows (generateGlobalDistributionTable blankNumerics unevenRows)
        (generateIterationDistributionTable blankNumerics unevenRows) tests test :=
  tables_agree blankNumerics (by decide) (by decide)

end MicroSampler.Statistics
