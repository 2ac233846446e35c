import MicroSampler.Scripts.StateClasses

/-!
# The comparison of keys

`compare_key_traces.py` merges the candidates that `uarch_diff` reports for each key and counts
in how many keys a state is one. It counts candidates, so this is a number of keys because
`uarch_diff` reports at most one candidate of each class of states.

Before it merges them the script writes all candidates to a log, and this raises on a candidate
of the prefetcher without its address or its data (`str_eq_none_iff`). What follows is the merge
of a run that has come so far.
-/

namespace MicroSampler.Scripts

open Python Keys Loops

/-! ## Merging -/

/-- The candidates of one key for each component. -/
abbrev Diff : Type := Component → List (Label × UArch)

/-- The loop over the candidates of one key. -/
def mergeDiff (component : Component) (globalDiff : Tally (UArch.compare component))
    (diff : Diff) : Tally (UArch.compare component) :=
  (diff component).foldl (fun globalDiff state => globalDiff.bump state.2) globalDiff

/-- `global_diff[component]`. -/
def globalDiff (component : Component) (diffs : Dict Text Diff) :
    Tally (UArch.compare component) :=
  diffs.values.foldl (mergeDiff component) Tally.empty

/-- `tot`, `inv` and their ratio. A component without entries is passed over. -/
def comparison (component : Component) (diffs : Dict Text Diff) : Option (Nat × Nat × ℚ) :=
  let entries := (globalDiff component diffs).entries
  let tot := entries.length
  if tot = 0 then none
  else
    let inv := (entries.filter fun x => x.2 = diffs.entries.length).length
    some (tot, inv, (inv : ℚ) / tot)

/-! ## What is to be counted -/

/-- The candidates of a component are what `stats.py` stored. -/
def Produced (component : Component) (candidates : List (Label × UArch)) : Prop :=
  ∃ loopsUArch key iters window phi alpha,
    componentDiff component loopsUArch key iters window phi alpha = some candidates

/-- A state equivalent to `t` is a candidate. -/
def hasCandidate (component : Component) (t : UArch) (diff : Diff) : Bool :=
  (diff component).any fun state => state.2.compare component t

/-- One representative for each class of states with a candidate under every key. -/
structure CommonStates (component : Component) (diffs : Dict Text Diff) (l : List UArch) :
    Prop where
  distinct : l.Pairwise fun a b => a.compare component b = false
  represents : ∀ t, (∃ s ∈ l, s.compare component t = true) ↔
    ∀ diff ∈ diffs.values, hasCandidate component t diff = true

/-- The merged list counts keys. -/
structure CountsKeys (component : Component) (diffs : Dict Text Diff) : Prop where
  distinct : (globalDiff component diffs).members.Pairwise fun a b => a.compare component b = false
  represented : ∀ diff ∈ diffs.values, ∀ state ∈ diff component,
    ((globalDiff component diffs).members.countP fun m => m.compare component state.2) = 1
  counted : ∀ e ∈ (globalDiff component diffs).entries,
    e.2 = diffs.values.countP (hasCandidate component e.1)
  invariant : ∀ tot inv ratio, comparison component diffs = some (tot, inv, ratio) →
    (∃ l, CommonStates component diffs l) ∧
      ∀ l, CommonStates component diffs l → inv = l.length
  unordered : ∀ diffs', diffs.entries.Perm diffs'.entries →
    comparison component diffs' = comparison component diffs ∧
      ∀ t, (globalDiff component diffs').count t = (globalDiff component diffs).count t

/-! ## The candidates of one key -/

theorem distinct_frequencyTable {component : Component} {loopsUArch : List (List UArch)}
    {key : List Label} {iters window : Int} {theta : Dict Label (List (UArch × ℚ))}
    (h : frequencyTable component loopsUArch key iters window = some theta) :
    Distinct component theta := by
  obtain ⟨n, -, h⟩ := Option.bind_eq_some_iff.mp h
  obtain ⟨tallies, -, h⟩ := Option.bind_eq_some_iff.mp h
  cases h
  intro c lst hlst
  rw [normalise, Dict.get?_mapValues] at hlst
  obtain ⟨tally, -, rfl⟩ := Option.map_eq_some_iff.mp hlst
  rw [List.map_map]
  exact tally.distinct

/-- A key has at most one candidate of each class. -/
theorem Produced.countP_le_one {component : Component} {candidates : List (Label × UArch)}
    (h : Produced component candidates) (t : UArch) :
    (candidates.countP fun state => state.2.compare component t) ≤ 1 := by
  obtain ⟨loopsUArch, key, iters, window, phi, alpha, h⟩ := h
  obtain ⟨theta, htheta, h⟩ := Option.bind_eq_some_iff.mp h
  obtain ⟨hselect, -⟩ := uarchDiff_eq_some_iff.mp h
  have hle := countP_same_le_one (compare_isSameness component)
    (pairwise_selectStates (distinct_frequencyTable htheta) hselect) t
  rwa [List.countP_map] at hle

/-! ## The merged list -/

section Merged

variable {component : Component} {diffs : Dict Text Diff}

theorem globalDiff_eq : globalDiff component diffs = Tally.ofList (UArch.compare component)
    (diffs.values.flatMap fun diff => (diff component).map Prod.snd) := by
  have hrun : ∀ (l : List Diff) (t : Tally (UArch.compare component)),
      l.foldl (mergeDiff component) t =
        t.bumpAll (l.flatMap fun diff => (diff component).map Prod.snd) := by
    intro l
    induction l with
    | nil => exact fun t => rfl
    | cons diff l ih =>
      intro t
      rw [List.foldl_cons, ih, List.flatMap_cons, Tally.bumpAll, Tally.bumpAll, List.foldl_append,
        List.foldl_map]
      rfl
  exact hrun _ _

/-- The count of a state is the number of keys with an equivalent candidate. -/
theorem count_globalDiff
    (hproduced : ∀ diff ∈ diffs.values, Produced component (diff component)) (t : UArch) :
    (globalDiff component diffs).count t = diffs.values.countP (hasCandidate component t) := by
  rw [globalDiff_eq, Tally.count_ofList (compare_isSameness component)]
  generalize diffs.values = l at hproduced
  induction l with
  | nil => rfl
  | cons diff l ih =>
    have hle := (hproduced diff List.mem_cons_self).countP_le_one t
    have hone : ((diff component).countP fun state => state.2.compare component t) =
        if hasCandidate component t diff then 1 else 0 := by
      by_cases hany : hasCandidate component t diff = true
      · have hpos := List.countP_pos_iff.mpr (List.any_eq_true.mp hany)
        rw [if_pos hany]
        omega
      · rw [if_neg hany, List.countP_eq_zero]
        intro state hstate hsame
        exact hany (List.any_eq_true.mpr ⟨state, hstate, hsame⟩)
    rw [List.flatMap_cons, List.countP_append,
      ih fun d hd => hproduced d (List.mem_cons_of_mem _ hd), List.countP_map, List.countP_cons,
      Nat.add_comm]
    congr 1

theorem countP_members_globalDiff {diff : Diff} (hdiff : diff ∈ diffs.values)
    {state : Label × UArch} (hstate : state ∈ diff component) :
    ((globalDiff component diffs).members.countP fun m => m.compare component state.2) = 1 := by
  have hsame := compare_isSameness component
  have hle := Tally.countP_members_le_one hsame (globalDiff component diffs) state.2
  have hpos : 0 < (globalDiff component diffs).count state.2 := by
    rw [globalDiff_eq, Tally.count_ofList hsame]
    exact List.countP_pos_iff.mpr ⟨state.2, List.mem_flatMap.mpr
      ⟨diff, hdiff, List.mem_map_of_mem hstate⟩, hsame.refl _⟩
  have hmem := List.countP_pos_iff.mpr ((Tally.count_pos_iff _ _).mp hpos)
  omega

/-- The states counted by `inv`. -/
def invariantStates (component : Component) (diffs : Dict Text Diff) : List UArch :=
  ((globalDiff component diffs).entries.filter fun x => x.2 = diffs.entries.length).map Prod.fst

theorem commonStates_invariantStates
    (hproduced : ∀ diff ∈ diffs.values, Produced component (diff component))
    (hne : diffs.values ≠ []) : CommonStates component diffs (invariantStates component diffs) := by
  have hsame := compare_isSameness component
  have hlength : diffs.values.length = diffs.entries.length := List.length_map _
  have hall : ∀ t, (globalDiff component diffs).count t = diffs.entries.length ↔
      ∀ diff ∈ diffs.values, hasCandidate component t diff = true := by
    intro t
    rw [count_globalDiff hproduced, ← hlength, List.countP_eq_length]
  constructor
  · exact (globalDiff component diffs).distinct.sublist (List.filter_sublist.map Prod.fst)
  · intro t
    rw [← hall]
    constructor
    · intro ⟨s, hs, hst⟩
      obtain ⟨e, he, rfl⟩ := List.mem_map.mp hs
      obtain ⟨hmem, hcount⟩ := List.mem_filter.mp he
      rw [Tally.count_of_same hsame _ hmem hst]
      exact of_decide_eq_true hcount
    · intro hcount
      have hpos : 0 < (globalDiff component diffs).count t := by
        rw [hcount, ← hlength]
        exact List.length_pos_iff.mpr hne
      obtain ⟨s, hs, hst⟩ := (Tally.count_pos_iff _ t).mp hpos
      obtain ⟨e, he, rfl⟩ := List.mem_map.mp hs
      refine ⟨e.1, List.mem_map_of_mem (List.mem_filter.mpr ⟨he, ?_⟩), hst⟩
      rw [← Tally.count_of_same hsame _ he hst]
      exact decide_eq_true hcount

theorem CommonStates.length_eq {l l' : List UArch} (h : CommonStates component diffs l)
    (h' : CommonStates component diffs l') : l.length = l'.length := by
  have hsame := compare_isSameness component
  apply Nat.le_antisymm
  · apply length_le_of_represented hsame h.distinct
    intro a ha
    exact (h'.represents a).mpr ((h.represents a).mp ⟨a, ha, hsame.refl a⟩)
  · apply length_le_of_represented hsame h'.distinct
    intro a ha
    exact (h.represents a).mpr ((h'.represents a).mp ⟨a, ha, hsame.refl a⟩)

theorem comparison_eq : comparison component diffs =
    if (globalDiff component diffs).members.length = 0 then none
    else some ((globalDiff component diffs).members.length,
      (invariantStates component diffs).length,
      ((invariantStates component diffs).length : ℚ) /
        (globalDiff component diffs).members.length) := by
  rw [Tally.members, invariantStates, List.length_map, List.length_map]
  rfl

theorem values_ne_nil (h : (globalDiff component diffs).members.length ≠ 0) :
    diffs.values ≠ [] := by
  intro hnil
  rw [globalDiff, hnil] at h
  exact h rfl

theorem comparison_eq_some {tot inv : Nat} {ratio : ℚ}
    (h : comparison component diffs = some (tot, inv, ratio)) :
    diffs.values ≠ [] ∧ inv = (invariantStates component diffs).length := by
  rw [comparison_eq] at h
  by_cases htot : (globalDiff component diffs).members.length = 0
  · rw [if_pos htot] at h
    cases h
  · rw [if_neg htot] at h
    cases h
    exact ⟨values_ne_nil htot, rfl⟩

/-- As many classes have an entry when the counts are the same. -/
theorem length_members_le {diffs' : Dict Text Diff}
    (h : ∀ t, (globalDiff component diffs').count t = (globalDiff component diffs).count t) :
    (globalDiff component diffs').members.length ≤
      (globalDiff component diffs).members.length := by
  have hsame := compare_isSameness component
  apply length_le_of_represented hsame (globalDiff component diffs').distinct
  intro a ha
  rw [← Tally.count_pos_iff, ← h, Tally.count_pos_iff]
  exact ⟨a, ha, hsame.refl a⟩

end Merged

/-- **The comparison counts keys.** -/
theorem countsKeys {component : Component} {diffs : Dict Text Diff}
    (hproduced : ∀ diff ∈ diffs.values, Produced component (diff component)) :
    CountsKeys component diffs where
  distinct := (globalDiff component diffs).distinct
  represented := fun diff hdiff state hstate => countP_members_globalDiff hdiff hstate
  counted := by
    intro e he
    rw [← Tally.count_of_mem (compare_isSameness component) _ he]
    exact count_globalDiff hproduced e.1
  invariant := by
    intro tot inv ratio hcomparison
    obtain ⟨hne, rfl⟩ := comparison_eq_some hcomparison
    have hcommon := commonStates_invariantStates hproduced hne
    exact ⟨⟨_, hcommon⟩, fun l hl => hcommon.length_eq hl⟩
  unordered := by
    intro diffs' hperm
    have hvalues : diffs.values.Perm diffs'.values := hperm.map Prod.snd
    have hproduced' : ∀ diff ∈ diffs'.values, Produced component (diff component) :=
      fun diff hdiff => hproduced diff (hvalues.mem_iff.mpr hdiff)
    have hcount : ∀ t,
        (globalDiff component diffs').count t = (globalDiff component diffs).count t := by
      intro t
      rw [count_globalDiff hproduced, count_globalDiff hproduced', hvalues.countP_eq]
    have htot := Nat.le_antisymm (length_members_le hcount)
      (length_members_le fun t => (hcount t).symm)
    refine ⟨?_, hcount⟩
    rw [comparison_eq, comparison_eq, htot]
    by_cases hzero : (globalDiff component diffs).members.length = 0
    · rw [if_pos hzero, if_pos hzero]
    · have hcommon := commonStates_invariantStates hproduced (values_ne_nil hzero)
      have hcommon' := commonStates_invariantStates hproduced' (values_ne_nil (htot ▸ hzero))
      have hsame : CommonStates component diffs (invariantStates component diffs') := by
        refine ⟨hcommon'.distinct, fun t => ?_⟩
        rw [hcommon'.represents t]
        simp only [hvalues.mem_iff]
      rw [hcommon.length_eq hsame]

/-- An iteration of one state with the given data in the line fill buffer. -/
def fillIteration (data : Nat) : List UArch := [{ cycleBegin := 0, lfb := ⟨[data]⟩ }]

/-- The candidates of a key whose two iterations fill the buffer with the given data. -/
def fillDiff (data data' : Nat) : Diff := fun _ =>
  [(['1'], { cycleBegin := 0, lfb := ⟨[data]⟩ }), (['0'], { cycleBegin := 0, lfb := ⟨[data']⟩ })]

/-- Two keys that share one of their candidates. -/
def twoKeys : Dict Text Diff :=
  ⟨[("0x44".toList, fillDiff 1 2), ("0xaa".toList, fillDiff 1 3)], by decide⟩

theorem countsKeys_twoKeys :
    (∀ diff ∈ twoKeys.values, Produced .LFB (diff .LFB)) ∧ CountsKeys .LFB twoKeys := by
  have hproduced : ∀ diff ∈ twoKeys.values, Produced .LFB (diff .LFB) := by
    intro diff hdiff
    obtain rfl | hdiff := List.mem_cons.mp hdiff
    · exact ⟨[fillIteration 1, fillIteration 2], [['1'], ['0']], 2, 1, 9 / 10, 1 / 10,
        by decide +kernel⟩
    · rw [List.mem_singleton.mp hdiff]
      exact ⟨[fillIteration 1, fillIteration 3], [['1'], ['0']], 2, 1, 9 / 10, 1 / 10,
        by decide +kernel⟩
  exact ⟨hproduced, countsKeys hproduced⟩

example : (comparison .LFB twoKeys).map (fun c => (c.1, c.2.1)) = some (3, 1) := by decide

end MicroSampler.Scripts
