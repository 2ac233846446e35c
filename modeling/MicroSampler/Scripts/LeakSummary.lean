import MicroSampler.Scripts.KeyComparison

/-!
# The summary of the leak detector

At its end `stats.py` prints, for each component and label, the number of states, of those that
are frequent, of those that are rare, and of the candidates. The four numbers fit each other and
the candidates that are listed above (`leakSummary_coherent`).
-/

namespace MicroSampler.Scripts

open Loops Keys

/-! ## What is printed -/

/-- A line of the summary. -/
structure SummaryRow where
  dclass : Label
  states : Nat
  frequent : Nat
  rare : Nat
  candidates : Nat
  deriving DecidableEq

/-- The line of a label with its list of states and frequencies. -/
def summaryRow (diff : List (Label × UArch)) (phi alpha : ℚ)
    (e : Label × List (UArch × ℚ)) : SummaryRow where
  dclass := e.1
  states := e.2.length
  frequent := (e.2.filter fun x => phi ≤ x.2).length
  rare := (e.2.filter fun x => x.2 ≤ alpha).length
  candidates := (diff.filter fun x => x.1 = e.1).length

/-- The lines of a component. -/
def leakSummary (theta : Dict Label (List (UArch × ℚ))) (diff : List (Label × UArch))
    (phi alpha : ℚ) : List SummaryRow := theta.entries.map (summaryRow diff phi alpha)

/-! ## What the numbers say -/

/-- A state is frequent under its label and below `alpha` under all others. -/
def Exclusive (component : Component) (theta : Dict Label (List (UArch × ℚ))) (phi alpha : ℚ)
    (c : Label) (x : UArch × ℚ) : Prop :=
  phi ≤ x.2 ∧ ∀ d ∈ theta.keys, d ≠ c → frequency component theta d x.1 < alpha

instance (component : Component) (theta : Dict Label (List (UArch × ℚ))) (phi alpha : ℚ)
    (c : Label) (x : UArch × ℚ) : Decidable (Exclusive component theta phi alpha c x) :=
  inferInstanceAs (Decidable (_ ∧ _))

/-- A summary whose numbers fit each other and the candidates. -/
structure Coherent (component : Component) (theta : Dict Label (List (UArch × ℚ)))
    (diff : List (Label × UArch)) (phi alpha : ℚ) (rows : List SummaryRow) : Prop where
  labels : rows.map SummaryRow.dclass = theta.keys
  total : (rows.map SummaryRow.candidates).sum = diff.length
  exclusive : ∀ r ∈ rows, ∃ lst, theta.get? r.dclass = some lst ∧ r.states = lst.length ∧
    r.candidates = (lst.filter fun x => Exclusive component theta phi alpha r.dclass x).length
  bounds : ∀ r ∈ rows, r.candidates ≤ r.frequent ∧ r.frequent ≤ r.states ∧
    (alpha < phi → r.frequent + r.rare ≤ r.states)

section Summary

variable {component : Component} {theta : Dict Label (List (UArch × ℚ))} {phi alpha : ℚ}
  {diff : List (Label × UArch)}

/-- The labels of the candidates are labels of the table. -/
theorem mem_keys_of_mem_diff (hpos : 0 < alpha) (hle : alpha ≤ phi)
    (hdiff : selectStates component theta phi alpha = some diff) {x : Label × UArch}
    (hx : x ∈ diff) : x.1 ∈ theta.keys := by
  have hsame := compare_isSameness component
  obtain ⟨hphi, -⟩ := (mem_selectStates_iff hpos hle hdiff x.1 x.2).mp ⟨x.2, hx, hsame.refl x.2⟩
  obtain ⟨lst, hlst, -⟩ :=
    exists_entry_of_frequency_pos (lt_of_lt_of_le hpos (hle.trans hphi))
  exact Dict.mem_keys_iff.mpr ⟨lst, hlst⟩

theorem sum_candidates (hpos : 0 < alpha) (hle : alpha ≤ phi)
    (hdiff : selectStates component theta phi alpha = some diff) :
    ((leakSummary theta diff phi alpha).map SummaryRow.candidates).sum = diff.length := by
  have hperm : (theta.keys.flatMap fun k => diff.filter fun x => x.1 = k).Perm diff :=
    Dict.flatMap_filter_perm theta.nodup_keys fun x hx => mem_keys_of_mem_diff hpos hle hdiff hx
  rw [← hperm.length_eq, List.length_flatMap, leakSummary, List.map_map, Dict.keys, List.map_map]
  rfl

/-- The frequency of an entry is the one that is looked up for the states like it. -/
theorem frequency_of_mem (hdistinct : Distinct component theta) {c : Label}
    {lst : List (UArch × ℚ)} (hlst : theta.get? c = some lst) {x : UArch × ℚ} (hx : x ∈ lst)
    {t : UArch} (hxt : x.1.compare component t = true) : frequency component theta c t = x.2 := by
  rw [frequency, hlst, Option.bind_some,
    lookupSame_of_mem (compare_isSameness component) (hdistinct c lst hlst) hx hxt]
  rfl

theorem frequency_congr (c : Label) {s t : UArch} (h : s.compare component t = true) :
    frequency component theta c s = frequency component theta c t := by
  unfold frequency
  cases theta.get? c with
  | none => rfl
  | some lst =>
    rw [Option.bind_some, Option.bind_some, lookupSame_congr (compare_isSameness component) lst h]

/-- The candidates of a label and its exclusive entries stand for the same states. -/
theorem candidate_iff_exclusive (hdistinct : Distinct component theta) (hpos : 0 < alpha)
    (hle : alpha ≤ phi) (hdiff : selectStates component theta phi alpha = some diff) {c : Label}
    {lst : List (UArch × ℚ)} (hlst : theta.get? c = some lst) (t : UArch) :
    (∃ s, (c, s) ∈ diff ∧ s.compare component t = true) ↔
      ∃ x ∈ lst, Exclusive component theta phi alpha c x ∧ x.1.compare component t = true := by
  rw [mem_selectStates_iff hpos hle hdiff]
  constructor
  · rintro ⟨hphi, hlow⟩
    obtain ⟨lst', hlst', x, hx, hxt⟩ :=
      exists_entry_of_frequency_pos (lt_of_lt_of_le hpos (hle.trans hphi))
    obtain rfl : lst = lst' := Option.some.inj (hlst.symm.trans hlst')
    refine ⟨x, hx, ⟨?_, fun d hd hne => ?_⟩, hxt⟩
    · rwa [← frequency_of_mem hdistinct hlst hx hxt]
    · rw [frequency_congr d hxt]
      exact hlow d hd hne
  · rintro ⟨x, hx, ⟨hphi, hlow⟩, hxt⟩
    refine ⟨?_, fun d hd hne => ?_⟩
    · rwa [frequency_of_mem hdistinct hlst hx hxt]
    · rw [← frequency_congr d hxt]
      exact hlow d hd hne

/-- As many candidates of a label are listed as it has exclusive states. -/
theorem length_candidates (hdistinct : Distinct component theta) (hpos : 0 < alpha)
    (hle : alpha ≤ phi) (hdiff : selectStates component theta phi alpha = some diff) {c : Label}
    {lst : List (UArch × ℚ)} (hlst : theta.get? c = some lst) :
    (diff.filter fun x => x.1 = c).length =
      (lst.filter fun x => Exclusive component theta phi alpha c x).length := by
  have hsame := compare_isSameness component
  have hiff := candidate_iff_exclusive hdistinct hpos hle hdiff hlst
  have hcandidates : ((diff.filter fun x => x.1 = c).map Prod.snd).length = _ := List.length_map _
  have hentries : ((lst.filter fun x => Exclusive component theta phi alpha c x).map
      Prod.fst).length = _ := List.length_map _
  rw [← hcandidates, ← hentries]
  apply Nat.le_antisymm
  · refine length_le_of_represented hsame ?_ fun s hs => ?_
    · exact (pairwise_selectStates hdistinct hdiff).sublist (List.filter_sublist.map Prod.snd)
    · obtain ⟨y, hy, rfl⟩ := List.mem_map.mp hs
      obtain ⟨hmem, hc⟩ := List.mem_filter.mp hy
      obtain ⟨x, hx, hexclusive, hxs⟩ :=
        (hiff y.2).mp ⟨y.2, of_decide_eq_true hc ▸ hmem, hsame.refl y.2⟩
      exact ⟨x.1, List.mem_map_of_mem (List.mem_filter.mpr ⟨hx, decide_eq_true hexclusive⟩), hxs⟩
  · refine length_le_of_represented hsame ?_ fun s hs => ?_
    · exact (hdistinct c lst hlst).sublist (List.filter_sublist.map Prod.fst)
    · obtain ⟨x, hx, rfl⟩ := List.mem_map.mp hs
      obtain ⟨hmem, hexclusive⟩ := List.mem_filter.mp hx
      obtain ⟨t, ht, htx⟩ :=
        (hiff x.1).mpr ⟨x, hmem, of_decide_eq_true hexclusive, hsame.refl x.1⟩
      exact ⟨t, List.mem_map_of_mem (f := Prod.snd)
        (List.mem_filter.mpr ⟨ht, decide_eq_true rfl⟩), htx⟩

/-- **The summary of the leak detector.** Of every analysed run the labels of the lines are
those of the table, the numbers of candidates add up to the list of candidates, each is the
number of states that are exclusive to its label, and no number exceeds the one before it. -/
theorem leakSummary_coherent {loopsUArch : List (List UArch)} {key : List Label}
    {iters window : Int}
    (htheta : frequencyTable component loopsUArch key iters window = some theta)
    (hpos : 0 < alpha) (hle : alpha ≤ phi)
    (hdiff : uarchDiff component theta phi alpha = some diff) :
    Coherent component theta diff phi alpha (leakSummary theta diff phi alpha) := by
  have hdistinct := distinct_frequencyTable htheta
  have hselect := (uarchDiff_eq_some_iff.mp hdiff).1
  have hmem : ∀ r ∈ leakSummary theta diff phi alpha, ∃ lst, theta.get? r.dclass = some lst ∧
      r = summaryRow diff phi alpha (r.dclass, lst) := by
    intro r hr
    obtain ⟨e, he, rfl⟩ := List.mem_map.mp hr
    exact ⟨e.2, Dict.get?_eq_some_iff.mpr he, rfl⟩
  refine ⟨?_, sum_candidates hpos hle hselect, fun r hr => ?_, fun r hr => ?_⟩
  · rw [leakSummary, List.map_map]
    rfl
  · obtain ⟨lst, hlst, heq⟩ := hmem r hr
    refine ⟨lst, hlst, congrArg SummaryRow.states heq, ?_⟩
    rw [heq]
    exact length_candidates hdistinct hpos hle hselect hlst
  · obtain ⟨lst, hlst, heq⟩ := hmem r hr
    have hcandidates := length_candidates hdistinct hpos hle hselect hlst
    rw [heq]
    refine ⟨hcandidates.trans_le ?_, List.length_filter_le .., fun hlt => ?_⟩
    · refine (List.monotone_filter_right lst fun x hx => ?_).length_le
      exact decide_eq_true (of_decide_eq_true hx).1
    · -- no frequency is at least `phi` and at most `alpha`
      have hrare : (lst.filter fun x => decide (x.2 ≤ alpha)).length ≤
          (lst.filter fun x => !decide (phi ≤ x.2)).length := by
        refine (List.monotone_filter_right lst fun x hx => ?_).length_le
        have hx := of_decide_eq_true hx
        simpa using hx.trans_lt hlt
      have hsplit := List.length_eq_length_filter_add (l := lst) fun x => decide (phi ≤ x.2)
      dsimp only [summaryRow]
      omega

end Summary

/-- Two iterations of each label, whose fill buffers differ. -/
def fourLoops : List (List UArch) :=
  [1, 1, 2, 2].map fun d => [{ cycleBegin := 0, lfb := ⟨[d]⟩ }]

theorem leakSummary_coherent_fourLoops : ∃ theta diff,
    frequencyTable .LFB fourLoops [['1'], ['1'], ['0'], ['0']] 4 1 = some theta ∧
      uarchDiff .LFB theta (9 / 10) (1 / 10) = some diff ∧
      Coherent .LFB theta diff (9 / 10) (1 / 10) (leakSummary theta diff (9 / 10) (1 / 10)) := by
  have htable : (frequencyTable .LFB fourLoops [['1'], ['1'], ['0'], ['0']] 4 1).isSome := by
    decide +kernel
  obtain ⟨theta, htheta⟩ := Option.isSome_iff_exists.mp htable
  have hselect : ((frequencyTable .LFB fourLoops [['1'], ['1'], ['0'], ['0']] 4 1).bind
      fun theta => uarchDiff .LFB theta (9 / 10) (1 / 10)).isSome := by decide +kernel
  rw [htheta, Option.bind_some] at hselect
  obtain ⟨diff, hdiff⟩ := Option.isSome_iff_exists.mp hselect
  exact ⟨theta, diff, htheta, hdiff,
    leakSummary_coherent htheta (by norm_num) (by norm_num) hdiff⟩

end MicroSampler.Scripts
