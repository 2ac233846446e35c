import MicroSampler.Scripts.LeakDetector

/-!
# Tallies and selection up to equivalent states

The two parts of the leak detector by themselves. The tally loop counts iterations: how
often and in which order the states of an iteration were recorded plays no role.
`uarch_diff`, without its plot, reports the classes of states that are exclusive to one
label, whatever the order of the labels and of the states.

* `countsIterations_of_tallyLoop`
* `selectsExclusive`
-/

namespace MicroSampler.Scripts

open Python Keys Loops

/-! ## Counting iterations -/

/-- What a table of tallies says about the analysed iterations. -/
structure CountsIterations (component : Component) (loopsUArch : List (List UArch))
    (key : List Label) (n : Nat) (theta : Theta component) : Prop where
  labels : ∀ c, c ∈ theta.keys ↔ c ∈ key
  distinct : ∀ c lst, theta.get? c = some lst →
    lst.members.Pairwise fun a b => a.compare component b = false
  represented : ∀ c lst, theta.get? c = some lst → ∀ idx ∈ analysedOf key n c, ∀ loop,
    loopsUArch[idx]? = some loop → ∀ s ∈ loop,
      (lst.members.countP fun m => m.compare component s) = 1
  counted : ∀ c lst, theta.get? c = some lst → ∀ e ∈ lst.entries,
    e.2 = (analysedOf key n c).countP (occursIn component loopsUArch e.1)
  bounded : ∀ c lst, theta.get? c = some lst → ∀ e ∈ lst.entries,
    e.2 ≤ (analysedOf key n c).length
  unordered : ∀ loopsUArch',
    List.Forall₂ (fun loop loop' => ∀ s, s ∈ loop ↔ s ∈ loop') loopsUArch loopsUArch' →
      ∃ theta', tallyLoop component loopsUArch' key n = some theta' ∧
        ∀ c lst, theta.get? c = some lst → ∃ lst', theta'.get? c = some lst' ∧
          ∀ t, lst'.count t = lst.count t

section Reordered

variable {loopsUArch loopsUArch' : List (List UArch)}

/-- The iteration at an index of the other record has the same states. -/
theorem exists_loop_of_forall₂
    (h : List.Forall₂ (fun loop loop' => ∀ s, s ∈ loop ↔ s ∈ loop') loopsUArch loopsUArch')
    {idx : Nat} {loop : List UArch} (hloop : loopsUArch[idx]? = some loop) :
    ∃ loop', loopsUArch'[idx]? = some loop' ∧ ∀ s, s ∈ loop ↔ s ∈ loop' := by
  obtain ⟨hlt, rfl⟩ := List.getElem?_eq_some_iff.mp hloop
  have hlt' : idx < loopsUArch'.length := h.length_eq ▸ hlt
  exact ⟨_, List.getElem?_eq_getElem hlt', h.get hlt hlt'⟩

theorem occursIn_congr
    (h : List.Forall₂ (fun loop loop' => ∀ s, s ∈ loop ↔ s ∈ loop') loopsUArch loopsUArch')
    (component : Component) (t : UArch) :
    occursIn component loopsUArch' t = occursIn component loopsUArch t := by
  funext idx
  unfold occursIn
  by_cases hidx : idx < loopsUArch.length
  · obtain ⟨loop', hloop', hsame⟩ := exists_loop_of_forall₂ h (List.getElem?_eq_getElem hidx)
    rw [hloop', List.getElem?_eq_getElem hidx, Option.getD_some, Option.getD_some,
      Bool.eq_iff_iff, List.any_eq_true, List.any_eq_true]
    simp only [hsame]
  · have hidx' : ¬ idx < loopsUArch'.length := h.length_eq ▸ hidx
    rw [List.getElem?_eq_none (by omega), List.getElem?_eq_none (by omega)]

theorem Labelled.congr {key : List Label} {n : Nat} (hlabelled : Labelled loopsUArch key n)
    (h : List.Forall₂ (fun loop loop' => ∀ s, s ∈ loop ↔ s ∈ loop') loopsUArch loopsUArch') :
    Labelled loopsUArch' key n := by
  intro idx hidx
  obtain ⟨loop, hloop, hlabel⟩ := hlabelled idx hidx
  obtain ⟨loop', hloop', hsame⟩ := exists_loop_of_forall₂ h hloop
  refine ⟨loop', hloop', hlabel.imp_left ?_⟩
  rintro rfl
  apply List.eq_nil_iff_forall_not_mem.mpr
  intro s hs
  exact absurd ((hsame s).mpr hs) List.not_mem_nil

end Reordered

/-- A state of an analysed iteration has one representative. -/
theorem countP_members_eq_one {component : Component} {loopsUArch : List (List UArch)}
    {key : List Label} {n : Nat} {c : Label} {lst : Tally (UArch.compare component)}
    (hcount : ∀ t, lst.count t = (analysedOf key n c).countP (occursIn component loopsUArch t))
    {idx : Nat} (hidx : idx ∈ analysedOf key n c) {loop : List UArch}
    (hloop : loopsUArch[idx]? = some loop) {s : UArch} (hs : s ∈ loop) :
    (lst.members.countP fun m => m.compare component s) = 1 := by
  have hsame := compare_isSameness component
  have hoccurs : occursIn component loopsUArch s idx = true := by
    unfold occursIn
    rw [hloop, Option.getD_some]
    exact List.any_eq_true.mpr ⟨s, hs, hsame.refl s⟩
  have hpos : 0 < lst.count s := by
    rw [hcount]
    exact List.countP_pos_iff.mpr ⟨idx, hidx, hoccurs⟩
  have hmem := List.countP_pos_iff.mpr ((Tally.count_pos_iff lst s).mp hpos)
  have hle := Tally.countP_members_le_one hsame lst s
  omega

/-- **Tallies count iterations, not occurrences.** -/
theorem countsIterations_of_tallyLoop {component : Component} {loopsUArch : List (List UArch)}
    {key : List Label} {n : Nat} {theta : Theta component}
    (hrun : tallyLoop component loopsUArch key n = some theta) :
    CountsIterations component loopsUArch key n theta := by
  have hlabelled := labelled_of_tallyLoop hrun
  obtain ⟨theta₀, hrun₀, hcounted⟩ := tallyLoop_of_labelled component hlabelled
  rw [hrun] at hrun₀
  cases hrun₀
  have hkey : ∀ c, c ∈ theta.keys ↔ c ∈ key := by
    intro c
    rw [hcounted.keys, Dict.mem_keys_ofKeys]
  have hcount : ∀ c lst, theta.get? c = some lst → ∀ t, lst.count t =
      (analysedOf key n c).countP (occursIn component loopsUArch t) := by
    intro c lst hlst
    obtain ⟨lst', hlst', h⟩ :=
      hcounted.count c ((hkey c).mp (Dict.mem_keys_iff.mpr ⟨lst, hlst⟩))
    rw [hlst] at hlst'
    cases hlst'
    exact h
  refine ⟨hkey, ?_, ?_, ?_, ?_, ?_⟩
  · intro c lst _
    exact lst.distinct
  · intro c lst hlst idx hidx loop hloop s hs
    exact countP_members_eq_one (hcount c lst hlst) hidx hloop hs
  · intro c lst hlst e he
    rw [← Tally.count_of_mem (compare_isSameness component) lst he]
    exact hcount c lst hlst e.1
  · intro c lst hlst e he
    rw [← Tally.count_of_mem (compare_isSameness component) lst he, hcount c lst hlst]
    exact List.countP_le_length
  · intro loopsUArch' hsame
    obtain ⟨theta', hrun', hcounted'⟩ :=
      tallyLoop_of_labelled component (hlabelled.congr hsame)
    refine ⟨theta', hrun', ?_⟩
    intro c lst hlst
    obtain ⟨lst', hlst', h⟩ :=
      hcounted'.count c ((hkey c).mp (Dict.mem_keys_iff.mpr ⟨lst, hlst⟩))
    refine ⟨lst', hlst', ?_⟩
    intro t
    rw [h, hcount c lst hlst, occursIn_congr hsame]

/-- Two iterations; the first holds one class twice. -/
theorem countsIterations_twice : ∃ theta,
    tallyLoop .LFB [[{ cycleBegin := 0 }, { cycleBegin := 1 }], [{ cycleBegin := 2 }]]
        [['1'], ['0']] 2 = some theta ∧
      CountsIterations .LFB [[{ cycleBegin := 0 }, { cycleBegin := 1 }], [{ cycleBegin := 2 }]]
        [['1'], ['0']] 2 theta := by
  obtain ⟨theta, hrun, -⟩ := tallyLoop_spec .LFB
    (show 2 ≤ [[{ cycleBegin := 0 }, { cycleBegin := 1 }], [({ cycleBegin := 2 } : UArch)]].length
      from Nat.le_refl 2) (show 2 ≤ [['1'], ['0']].length from Nat.le_refl 2)
  exact ⟨theta, hrun, countsIterations_of_tallyLoop hrun⟩

/-! ## Class-exclusive states -/

/-- The lists of the classes hold pairwise inequivalent states. -/
def Distinct (component : Component) (theta : Dict Label (List (UArch × ℚ))) : Prop :=
  ∀ c lst, theta.get? c = some lst →
    (lst.map Prod.fst).Pairwise fun a b => a.compare component b = false

/-- The same classes and the same lists, in another order. -/
structure Reordered (theta theta' : Dict Label (List (UArch × ℚ))) : Prop where
  keys : theta.keys.Perm theta'.keys
  lists : ∀ c lst, theta.get? c = some lst → ∃ lst', theta'.get? c = some lst' ∧ lst.Perm lst'

/-- The pairs that are selected: at most one for each class of states, a state with the class
it is exclusive to, and the same ones for every order. -/
structure SelectsExclusive (component : Component) (theta : Dict Label (List (UArch × ℚ)))
    (phi alpha : ℚ) (diff : List (Label × UArch)) : Prop where
  atMostOne : (diff.map Prod.snd).Pairwise fun a b => a.compare component b = false
  exclusive : ∀ c t, (∃ s, (c, s) ∈ diff ∧ s.compare component t = true) ↔
    phi ≤ frequency component theta c t ∧
      ∀ d ∈ theta.keys, d ≠ c → frequency component theta d t < alpha
  unordered : ∀ theta', Reordered theta theta' →
    ∃ diff', selectStates component theta' phi alpha = some diff' ∧
      ∀ c t, (∃ s, (c, s) ∈ diff' ∧ s.compare component t = true) ↔
        ∃ s, (c, s) ∈ diff ∧ s.compare component t = true

theorem pairwise_collectStates {component : Component} (seed : Label)
    (entries : List (Label × List (UArch × ℚ))) {states : List UArch}
    (h : states.Pairwise fun a b => a.compare component b = false) :
    (collectStates component seed entries states).Pairwise
      fun a b => a.compare component b = false := by
  unfold collectStates
  induction entries generalizing states with
  | nil => exact h
  | cons e entries ih =>
    rw [List.foldl_cons]
    apply ih
    split
    · exact h
    · generalize e.2.map Prod.fst = new
      induction new generalizing states with
      | nil => exact h
      | cons s new ihnew =>
        rw [List.foldl_cons]
        exact ihnew (Tally.pairwise_insertNew h s)

theorem Reordered.distinct {component : Component} {theta theta' : Dict Label (List (UArch × ℚ))}
    (h : Reordered theta theta') (hdistinct : Distinct component theta) :
    Distinct component theta' := by
  intro c lst' hlst'
  have hc : c ∈ theta.keys := h.keys.mem_iff.mpr (Dict.mem_keys_iff.mpr ⟨lst', hlst'⟩)
  obtain ⟨lst, hlst⟩ := Dict.mem_keys_iff.mp hc
  obtain ⟨lst'', hlst'', hperm⟩ := h.lists c lst hlst
  rw [hlst'] at hlst''
  cases hlst''
  have hsymm : ∀ {a b : UArch}, a.compare component b = false → b.compare component a = false := by
    intro a b hab
    apply Bool.eq_false_iff.mpr
    intro hba
    rw [(compare_isSameness component).symm hba] at hab
    cases hab
  exact (hperm.map Prod.fst).pairwise (hdistinct c lst hlst) hsymm

theorem Reordered.frequency_eq {component : Component}
    {theta theta' : Dict Label (List (UArch × ℚ))} (h : Reordered theta theta')
    (hdistinct : Distinct component theta) (c : Label) (t : UArch) :
    frequency component theta' c t = frequency component theta c t := by
  unfold frequency
  by_cases hc : c ∈ theta.keys
  · obtain ⟨lst, hlst⟩ := Dict.mem_keys_iff.mp hc
    obtain ⟨lst', hlst', hperm⟩ := h.lists c lst hlst
    rw [hlst, hlst', Option.bind_some, Option.bind_some,
      lookupSame_perm (compare_isSameness component) hperm (hdistinct c lst hlst)
        (h.distinct hdistinct c lst' hlst')]
  · have hnone : theta.get? c = none := by
      rw [← Option.not_isSome_iff_eq_none, Option.isSome_iff_exists, ← Dict.mem_keys_iff]
      exact hc
    have hnone' : theta'.get? c = none := by
      rw [← Option.not_isSome_iff_eq_none, Option.isSome_iff_exists, ← Dict.mem_keys_iff]
      exact fun hc' => hc (h.keys.mem_iff.mpr hc')
    rw [hnone, hnone']

theorem pairwise_selectStates {component : Component} {theta : Dict Label (List (UArch × ℚ))}
    (hdistinct : Distinct component theta) {phi alpha : ℚ} {diff : List (Label × UArch)}
    (hdiff : selectStates component theta phi alpha = some diff) :
    (diff.map Prod.snd).Pairwise fun a b => a.compare component b = false := by
  unfold selectStates at hdiff
  split at hdiff
  · cases hdiff
  · next seed lst rest hentries =>
    cases hdiff
    have hlst : theta.get? seed = some lst :=
      Dict.get?_eq_some_iff.mpr (hentries ▸ List.mem_cons_self)
    have hstates := pairwise_collectStates seed theta.entries (hdistinct seed lst hlst)
    rw [List.pairwise_map, List.pairwise_filterMap]
    apply hstates.imp
    intro a b hab pa hpa pb hpb
    obtain ⟨-, -, rfl⟩ := Option.map_eq_some_iff.mp hpa
    obtain ⟨-, -, rfl⟩ := Option.map_eq_some_iff.mp hpb
    exact hab

/-- **`uarch_diff` selects exactly the states that are exclusive to a class.** -/
theorem selectsExclusive {component : Component} {theta : Dict Label (List (UArch × ℚ))}
    (hdistinct : Distinct component theta) {phi alpha : ℚ} (hpos : 0 < alpha)
    (hle : alpha ≤ phi) :
    ((selectStates component theta phi alpha).isSome ↔ theta.keys ≠ []) ∧
      ∀ diff, selectStates component theta phi alpha = some diff →
        SelectsExclusive component theta phi alpha diff := by
  refine ⟨selectStates_isSome_iff component theta phi alpha, ?_⟩
  intro diff hdiff
  refine ⟨pairwise_selectStates hdistinct hdiff, mem_selectStates_iff hpos hle hdiff, ?_⟩
  intro theta' hreordered
  have hne : theta'.keys ≠ [] := by
    intro hnil
    have hkeys := hreordered.keys
    rw [hnil] at hkeys
    have := (selectStates_isSome_iff component theta phi alpha).mp (Option.isSome_of_eq_some hdiff)
    exact this hkeys.eq_nil
  obtain ⟨diff', hdiff'⟩ := Option.isSome_iff_exists.mp
    ((selectStates_isSome_iff component theta' phi alpha).mpr hne)
  refine ⟨diff', hdiff', ?_⟩
  intro c t
  rw [mem_selectStates_iff hpos hle hdiff', mem_selectStates_iff hpos hle hdiff,
    hreordered.frequency_eq hdistinct]
  simp only [hreordered.frequency_eq hdistinct, hreordered.keys.mem_iff]

/-- Two classes that share no state. -/
def twoClasses : Dict Label (List (UArch × ℚ)) :=
  ⟨[(['1'], [({ cycleBegin := 0, lfb := ⟨[1]⟩ }, 1)]),
    (['0'], [({ cycleBegin := 0, lfb := ⟨[2]⟩ }, 1)])], by decide⟩

theorem selectsExclusive_twoClasses :
    ((selectStates .LFB twoClasses (9 / 10) (1 / 10)).isSome ↔ twoClasses.keys ≠ []) ∧
      ∀ diff, selectStates .LFB twoClasses (9 / 10) (1 / 10) = some diff →
        SelectsExclusive .LFB twoClasses (9 / 10) (1 / 10) diff := by
  apply selectsExclusive
  · intro c lst hlst
    have hmem := Dict.get?_eq_some_iff.mp hlst
    rcases List.mem_cons.mp hmem with h | h
    · cases h
      exact List.pairwise_singleton _ _
    · cases List.mem_singleton.mp h
      exact List.pairwise_singleton _ _
  · norm_num
  · norm_num

end MicroSampler.Scripts
