import MicroSampler.Scripts.LeakDetector
import MicroSampler.Scripts.TableWriter

/-!
# The loop over the components

For one component after another `stats.py` stores the candidates in `diff` and then prints
them. Printing a state of the prefetcher without an address or data raises, and then neither
the components behind it nor anything else follows.

* `componentRound_isSome_iff`: when a component is stored and printed.
* `leakSpec_iff`: the detector meets its specification when no label of an analysed iteration
  with states is used again after the analysed part and the loop comes to the component.
-/

namespace MicroSampler.Scripts

open Python Keys Loops

/-! ## Printing states -/

/-- `str` of a list of numbers. -/
def numberList (l : List Nat) : Text :=
  ['['] ++ List.intercalate ", ".toList (l.map str) ++ [']']

/-- `'[{}]'.format(', '.join(hex(x) for x in l))`. -/
def hexList (l : List Nat) : Text := ['['] ++ List.intercalate ", ".toList (l.map hex) ++ [']']

/-- The quotation mark of a printed text. -/
def quote : Char := Char.ofNat 39

/-- `str` of a list of texts without quotes and backslashes. -/
def textList (l : List Text) : Text :=
  ['['] ++ List.intercalate ", ".toList (l.map fun t => [quote] ++ t ++ [quote]) ++ [']']

def LoadQueue.str (lq : LoadQueue) : Text :=
  "LQ: ".toList ++ numberList lq.sn ++ ['\n'] ++ hexList lq.pc ++ ['\n'] ++ hexList lq.address

def StoreQueue.str (sq : StoreQueue) : Text :=
  "SQ: ".toList ++ numberList sq.sn ++ ['\n'] ++ hexList sq.pc ++ ['\n'] ++ hexList sq.address

def ROB.str (rob : ROB) : Text :=
  "ROB: ".toList ++ numberList rob.sn ++ ['\n'] ++ hexList rob.pc

def LineFillBuffer.str (lfb : LineFillBuffer) : Text := "LFB: ".toList ++ hexList lfb.data

/-- `hex` of a field that was never set raises. -/
def Prefetcher.str (prefetch : Prefetcher) : Option Text := do
  let address ← prefetch.address
  let data ← prefetch.data
  pure ("HWPREFETCHER: ".toList ++ hex address ++ ['\n'] ++ hex data)

def ExecutionUnits.str (exe : ExecutionUnits) : Text :=
  "ExecutionUnits: \x7b<FunctionalUnits.ALU: 0>: ".toList ++ textList exe.alu ++
    ", <FunctionalUnits.ADDRGEN: 1>: ".toList ++ textList exe.addrgen ++
    ", <FunctionalUnits.MUL: 3>: ".toList ++ textList exe.mul ++
    ", <FunctionalUnits.DIV: 2>: ".toList ++ textList exe.div ++ "\x7d".toList

/-- `self.print_feature(comptype)`. -/
def UArch.printFeature (comptype : Component) (self : UArch) : Option Text :=
  match comptype with
  | .LQ => some self.lq.str
  | .SQ => some self.sq.str
  | .ROB => some self.rob.str
  | .LFB => some self.lfb.str
  | .HWPREFETCHER => self.hwprefetcher.str
  | .EXESTATUS => some self.executionUnits.str

/-- `component_names[component]`. -/
def Component.name : Component → Text
  | .LQ => "Load Queue".toList
  | .SQ => "Store Queue".toList
  | .ROB => "Reorder Buffer".toList
  | .LFB => "Line Fill Buffer".toList
  | .HWPREFETCHER => "Next-Line Hardware Prefetcher".toList
  | .EXESTATUS => "Execution Unit Utilization".toList

/-- `str(component)`. -/
def Component.text : Component → Text
  | .LQ => "Component.LQ".toList
  | .SQ => "Component.SQ".toList
  | .ROB => "Component.ROB".toList
  | .LFB => "Component.LFB".toList
  | .HWPREFETCHER => "Component.HWPREFETCHER".toList
  | .EXESTATUS => "Component.EXESTATUS".toList

/-- The lines printed for one candidate. -/
def printCandidate (component : Component) (candidate : Label × UArch) : Option (List Text) := do
  let feature ← candidate.2.printFeature component
  pure ["dclass: ".toList ++ candidate.1, "----------".toList, feature, "----------".toList]

/-- The lines printed for a component. -/
def printCandidates (component : Component) (diff : List (Label × UArch)) :
    Option (List Text) := do
  let lines ← diff.mapM (printCandidate component)
  pure ([List.replicate 87 '=',
      "=========== Diff of ".toList ++ component.name ++ " States (Candidates)  ==========".toList,
      List.replicate 87 '=', "len: ".toList ++ str diff.length] ++
    (if diff = [] then ["No candidates found for ".toList ++ component.text ++ ['!']] else []) ++
    lines.flatten)

/-! ## The loop -/

/-- The order of `Component`. -/
def components : List Component := [.LQ, .SQ, .ROB, .LFB, .HWPREFETCHER, .EXESTATUS]

def componentsBefore (component : Component) : List Component :=
  components.takeWhile (· ≠ component)

section Loop

variable (loopsUArch : List (List UArch)) (key : List Label) (iters window : Int) (phi alpha : ℚ)

/-- A round of the loop: the candidates are stored and printed. -/
def componentRound (component : Component) : Option (List (Label × UArch) × List Text) := do
  let diff ← componentDiff component loopsUArch key iters window phi alpha
  let lines ← printCandidates component diff
  pure (diff, lines)

/-- The normalised `theta_lst` of a component, which the loop makes behind the rounds before. -/
def storedTable (component : Component) : Option (Dict Label (List (UArch × ℚ))) := do
  let _ ← (componentsBefore component).mapM (componentRound loopsUArch key iters window phi alpha)
  frequencyTable component loopsUArch key iters window

/-- `diff[component]`, which the loop stores behind the rounds before. -/
def storedDiff (component : Component) : Option (List (Label × UArch)) := do
  let _ ← (componentsBefore component).mapM (componentRound loopsUArch key iters window phi alpha)
  componentDiff component loopsUArch key iters window phi alpha

end Loop

/-! ## When a round is completed -/

theorem mem_componentsBefore {component : Component} :
    .HWPREFETCHER ∈ componentsBefore component ↔ component = .EXESTATUS := by
  cases component <;> decide

/-- The prefetcher alone can raise. -/
theorem printFeature_eq_none_iff {component : Component} {s : UArch} :
    s.printFeature component = none ↔
      component = .HWPREFETCHER ∧ s.hwprefetcher.str = none := by
  cases component <;> simp [UArch.printFeature]

theorem str_eq_none_iff {prefetch : Prefetcher} :
    prefetch.str = none ↔ prefetch.address = none ∨ prefetch.data = none := by
  obtain ⟨data, address⟩ := prefetch
  cases address <;> cases data <;> simp [Prefetcher.str]

/-- It does so on a state if it does on an equivalent one. -/
theorem str_eq_none_congr {s t : UArch} (h : s.compare .HWPREFETCHER t = true) :
    s.hwprefetcher.str = none ↔ t.hwprefetcher.str = none := by
  have heq : s.hwprefetcher.address = t.hwprefetcher.address ∧
      s.hwprefetcher.data = t.hwprefetcher.data := by
    simpa [UArch.compare, Prefetcher.eq] using h
  rw [str_eq_none_iff, str_eq_none_iff, heq.1, heq.2]

/-- By the given fractions, no candidate of the prefetcher lacks its address or its data. -/
def PrefetchersPrinted (fraction : Label → UArch → ℚ) (key : List Label) (phi alpha : ℚ) : Prop :=
  ∀ c t, SelectedBy fraction key phi alpha c t → t.hwprefetcher.str ≠ none

theorem printCandidates_isSome_iff {component : Component} {diff : List (Label × UArch)} :
    (printCandidates component diff).isSome ↔
      (component = .HWPREFETCHER → ∀ x ∈ diff, x.2.hwprefetcher.str ≠ none) := by
  have hcandidate (x : Label × UArch) : (printCandidate component x).isSome ↔
      (component = .HWPREFETCHER → x.2.hwprefetcher.str ≠ none) := by
    have hfeature : (printCandidate component x).isSome ↔ x.2.printFeature component ≠ none := by
      rw [printCandidate]
      cases x.2.printFeature component <;> simp
    rw [hfeature, Ne, printFeature_eq_none_iff, not_and]
  have hlines : (printCandidates component diff).isSome ↔
      (diff.mapM (printCandidate component)).isSome := by
    rw [printCandidates]
    cases diff.mapM (printCandidate component) <;> exact Iff.rfl
  rw [hlines, mapM_isSome_iff]
  simp only [hcandidate]
  exact ⟨fun h hc x hx => h x hx hc, fun h x hx hc => h hc x hx⟩

/-- A state with a positive fraction occurs, so it is enough to have both on every state. -/
theorem prefetchersPrinted_of_forall {loopsUArch : List (List UArch)} {key : List Label} {n : Nat}
    {phi alpha : ℚ} (hphi : 0 < phi)
    (h : ∀ loop ∈ loopsUArch, ∀ s ∈ loop, s.hwprefetcher.str ≠ none) :
    PrefetchersPrinted (recordedFraction .HWPREFETCHER loopsUArch key n) key phi alpha := by
  intro c t hselected hnone
  have hzero : (analysedOf key n c).countP (occursIn .HWPREFETCHER loopsUArch t) = 0 := by
    refine List.countP_eq_zero.mpr fun idx _ hoccurs => ?_
    obtain ⟨s, hs, hst⟩ := List.any_eq_true.mp hoccurs
    cases hloop : loopsUArch[idx]? with
    | none => simp [hloop] at hs
    | some loop =>
      rw [hloop, Option.getD_some] at hs
      exact h loop (List.mem_of_getElem? hloop) s hs ((str_eq_none_congr hst).mpr hnone)
  have hfraction := hselected.1
  rw [recordedFraction, hzero, Nat.cast_zero, zero_div] at hfraction
  exact absurd hphi (not_lt.mpr hfraction)

section Rounds

variable {loopsUArch : List (List UArch)} {key : List Label} {iters window : Int} {n : Nat}
  {phi alpha : ℚ}

/-- A round is completed when candidates can be selected and, for the prefetcher, printed. -/
theorem componentRound_isSome_iff (hn : analysedIters iters window = some n) (hpos : 0 < alpha)
    (hle : alpha ≤ phi) (component : Component) :
    (componentRound loopsUArch key iters window phi alpha component).isSome ↔
      Selectable loopsUArch key n ∧ (component = .HWPREFETCHER →
        PrefetchersPrinted (recordedFraction .HWPREFETCHER loopsUArch key n) key phi alpha) := by
  rw [← componentDiff_isSome_iff component hn phi alpha, componentRound]
  cases hdiff : componentDiff component loopsUArch key iters window phi alpha with
  | none => simp
  | some diff =>
    have hprinted : ((do
        let lines ← printCandidates component diff
        pure (diff, lines)) : Option (List (Label × UArch) × List Text)).isSome ↔
          (printCandidates component diff).isSome := by
      cases printCandidates component diff <;> simp
    rw [Option.bind_eq_bind, Option.bind_some, hprinted, printCandidates_isSome_iff,
      Option.isSome_some, eq_self_iff_true, true_and]
    refine forall_congr' fun hcomponent => ?_
    subst hcomponent
    have hmem := mem_componentDiff_iff hn hpos hle hdiff
    constructor
    · intro h c t hselected
      obtain ⟨s, hs, hst⟩ := (hmem c t).mpr hselected
      exact mt (str_eq_none_congr hst).mpr (h (c, s) hs)
    · intro h x hx
      refine h x.1 x.2 ((hmem x.1 x.2).mp ⟨x.2, hx, ?_⟩)
      exact (compare_isSameness .HWPREFETCHER).refl x.2

/-- The rounds before a component. -/
theorem roundsBefore_isSome_iff (hn : analysedIters iters window = some n) (hpos : 0 < alpha)
    (hle : alpha ≤ phi) (hselect : Selectable loopsUArch key n) (component : Component) :
    ((componentsBefore component).mapM
        (componentRound loopsUArch key iters window phi alpha)).isSome ↔
      (component = .EXESTATUS →
        PrefetchersPrinted (recordedFraction .HWPREFETCHER loopsUArch key n) key phi alpha) := by
  rw [mapM_isSome_iff]
  simp only [componentRound_isSome_iff hn hpos hle, hselect, true_and]
  rw [← mem_componentsBefore]
  exact ⟨fun h hmem => h _ hmem rfl, fun h c hc hprefetcher => h (hprefetcher ▸ hc)⟩

/-- All rounds. -/
theorem components_isSome_iff (hn : analysedIters iters window = some n) (hpos : 0 < alpha)
    (hle : alpha ≤ phi) :
    (components.mapM (componentRound loopsUArch key iters window phi alpha)).isSome ↔
      Selectable loopsUArch key n ∧
        PrefetchersPrinted (recordedFraction .HWPREFETCHER loopsUArch key n) key phi alpha := by
  rw [mapM_isSome_iff]
  simp only [componentRound_isSome_iff hn hpos hle]
  constructor
  · intro h
    obtain ⟨hselect, hprinted⟩ := h .HWPREFETCHER (by decide)
    exact ⟨hselect, hprinted rfl⟩
  · exact fun h component _ => ⟨h.1, fun _ => h.2⟩

end Rounds

/-! ## The specification of the detector -/

/-- What the detector is for, with `n` analysed iterations: a class of states is reported
under `c` when, over the analysed iterations only, it occurs in at least a fraction `phi`
of those labelled `c` and in less than `alpha` of those with any other label of the key. -/
structure LeakSpec (component : Component) (loopsUArch : List (List UArch))
    (key : List Label) (iters window : Int) (phi alpha : ℚ) (n : Nat) : Prop where
  selects : ∃ diff, storedDiff loopsUArch key iters window phi alpha component = some diff ∧
    ∀ c t, (∃ s, (c, s) ∈ diff ∧ s.compare component t = true) ↔
      c ∈ key ∧ phi ≤ analysedFraction component loopsUArch key n c t ∧
        ∀ d ∈ key, d ≠ c → analysedFraction component loopsUArch key n d t < alpha
  frequencies : ∃ theta, storedTable loopsUArch key iters window phi alpha component = some theta ∧
    ∀ c t, frequency component theta c t = analysedFraction component loopsUArch key n c t
  alwaysPresent : ∃ theta,
    storedTable loopsUArch key iters window phi alpha component = some theta ∧
      ∀ c t, analysedOf key n c ≠ [] →
        (∀ idx ∈ analysedOf key n c, occursIn component loopsUArch t idx = true) →
          frequency component theta c t = 1

/-- No label of an analysed iteration with states occurs again after the analysed part. -/
def LabelsSpent (loopsUArch : List (List UArch)) (key : List Label) (n : Nat) : Prop :=
  ∀ idx < n, ∀ loop c, loopsUArch[idx]? = some loop → key[idx]? = some c → loop ≠ [] →
    c ∉ key.drop n

theorem mem_analysedOf {key : List Label} {n : Nat} {c : Label} {idx : Nat} :
    idx ∈ analysedOf key n c ↔ idx < n ∧ key[idx]? = some c := by
  simp [analysedOf]

/-- The divisor is right for a label exactly when the label does not occur after the
analysed part, unless no analysed iteration of it contains the class. -/
theorem recordedFraction_eq_iff {component : Component} {loopsUArch : List (List UArch)}
    {key : List Label} {n : Nat} (hkey : n ≤ key.length) (c : Label) (t : UArch) :
    recordedFraction component loopsUArch key n c t =
        analysedFraction component loopsUArch key n c t ↔
      (∃ idx ∈ analysedOf key n c, occursIn component loopsUArch t idx = true) →
        c ∉ key.drop n := by
  have hsplit : key.count c = (analysedOf key n c).length + (key.drop n).count c := by
    rw [length_analysedOf key c n hkey, ← List.count_append, List.take_append_drop]
  rw [recordedFraction, analysedFraction, hsplit, ← List.countP_pos_iff]
  have hle : (analysedOf key n c).countP (occursIn component loopsUArch t) ≤
      (analysedOf key n c).length := List.countP_le_length
  generalize (analysedOf key n c).countP (occursIn component loopsUArch t) = m at hle ⊢
  generalize (analysedOf key n c).length = a at hle ⊢
  rw [← List.count_eq_zero]
  generalize (key.drop n).count c = r
  constructor
  · intro h hm
    have ha : (a : ℚ) ≠ 0 := by exact_mod_cast (by omega : a ≠ 0)
    have har : ((a + r : ℕ) : ℚ) ≠ 0 := by exact_mod_cast (by omega : a + r ≠ 0)
    have hm' : (0 : ℚ) < m := by exact_mod_cast hm
    rw [div_eq_div_iff har ha] at h
    have hr : ((a + r : ℕ) : ℚ) = a := by
      have := mul_left_cancel₀ hm'.ne' h
      exact this.symm
    have hnat : a + r = a := by exact_mod_cast hr
    omega
  · intro h
    rcases Nat.eq_zero_or_pos m with rfl | hm
    · simp
    · rw [h hm, Nat.add_zero]

/-- The divisors are right for all classes of states exactly when no analysed label that has
states is used beyond the analysed part. -/
theorem recordedFraction_eq_forall_iff (component : Component)
    {loopsUArch : List (List UArch)} {key : List Label} {n : Nat}
    (hloops : n ≤ loopsUArch.length) (hkey : n ≤ key.length) :
    (∀ c t, recordedFraction component loopsUArch key n c t =
        analysedFraction component loopsUArch key n c t) ↔ LabelsSpent loopsUArch key n := by
  simp only [recordedFraction_eq_iff hkey]
  constructor
  · intro h idx hidx loop c hloop hc hstates
    obtain ⟨s, rest, rfl⟩ := List.exists_cons_of_ne_nil hstates
    refine h c s ⟨idx, mem_analysedOf.mpr ⟨hidx, hc⟩, ?_⟩
    simp [occursIn, hloop, (compare_isSameness component).refl s]
  · rintro hspent c t ⟨idx, hidx, hocc⟩
    obtain ⟨hlt, hc⟩ := mem_analysedOf.mp hidx
    have hloop := List.getElem?_eq_getElem (show idx < loopsUArch.length by omega)
    refine hspent idx hlt _ c hloop hc ?_
    intro hempty
    simp [occursIn, hloop, hempty] at hocc

/-- Then what is recorded is what is meant. -/
theorem recordedFraction_of_spent {component : Component} {loopsUArch : List (List UArch)}
    {key : List Label} {n : Nat} (hloops : n ≤ loopsUArch.length) (hkey : n ≤ key.length)
    (h : LabelsSpent loopsUArch key n) :
    recordedFraction component loopsUArch key n = analysedFraction component loopsUArch key n := by
  funext c t
  exact (recordedFraction_eq_forall_iff component hloops hkey).mpr h c t

/-- **When the detector meets its specification.** With `n` analysed iterations recorded
and labelled, it does so exactly when there is a label, the plot has a colour for each
label, no label of an analysed iteration with states is used again beyond them (the divisor
counts the labels of the whole key), and, for the component behind the prefetcher, no candidate
of the prefetcher lacks its address or its data. -/
theorem leakSpec_iff {component : Component} {loopsUArch : List (List UArch)}
    {key : List Label} {iters window : Int} {phi alpha : ℚ} {n : Nat}
    (hn : analysedIters iters window = some n) (hloops : n ≤ loopsUArch.length)
    (hkey : n ≤ key.length) (hpos : 0 < alpha) (hle : alpha ≤ phi) :
    LeakSpec component loopsUArch key iters window phi alpha n ↔
      key ≠ [] ∧ key.dedup.length ≤ 16 ∧ LabelsSpent loopsUArch key n ∧
        (component = .EXESTATUS →
          PrefetchersPrinted (analysedFraction .HWPREFETCHER loopsUArch key n) key phi alpha) := by
  have hlabelled := labelled_of_le hloops hkey
  obtain ⟨theta, htheta, hkeys, hfreq⟩ := frequencyTable_spec component hn hlabelled
  constructor
  · intro hspec
    obtain ⟨diff, hstored, -⟩ := hspec.selects
    obtain ⟨rounds, hrounds, hdiff⟩ := Option.bind_eq_some_iff.mp hstored
    have hselect := (componentDiff_isSome_iff component hn phi alpha).mp
      (Option.isSome_of_eq_some hdiff)
    obtain ⟨theta', hstored', hfraction⟩ := hspec.frequencies
    obtain ⟨_, -, htheta'⟩ := Option.bind_eq_some_iff.mp hstored'
    cases htheta.symm.trans htheta'
    have hspent : LabelsSpent loopsUArch key n := by
      rw [← recordedFraction_eq_forall_iff component hloops hkey]
      intro c t
      rw [← hfreq, hfraction]
    refine ⟨hselect.labels, hselect.colored, hspent, fun hcomponent => ?_⟩
    have hprinted := (roundsBefore_isSome_iff hn hpos hle hselect component).mp
      (Option.isSome_of_eq_some hrounds) hcomponent
    rwa [recordedFraction_of_spent hloops hkey hspent] at hprinted
  · rintro ⟨hne, hlength, hspent, hprinted⟩
    have hselect : Selectable loopsUArch key n := ⟨hlabelled, hne, hlength⟩
    have hfraction : ∀ c t, frequency component theta c t =
        analysedFraction component loopsUArch key n c t := by
      intro c t
      rw [hfreq, recordedFraction_of_spent hloops hkey hspent]
    obtain ⟨rounds, hrounds⟩ := Option.isSome_iff_exists.mp <|
      (roundsBefore_isSome_iff hn hpos hle hselect component).mpr fun hcomponent => by
        rw [recordedFraction_of_spent hloops hkey hspent]
        exact hprinted hcomponent
    have hstored : storedTable loopsUArch key iters window phi alpha component = some theta := by
      rw [storedTable, hrounds, Option.bind_eq_bind, Option.bind_some, htheta]
    refine ⟨?_, ⟨theta, hstored, hfraction⟩, ⟨theta, hstored, ?_⟩⟩
    · obtain ⟨diff, hdiff⟩ := Option.isSome_iff_exists.mp <|
        (componentDiff_isSome_iff component hn phi alpha).mpr hselect
      refine ⟨diff, ?_, fun c t => ?_⟩
      · rw [storedDiff, hrounds, Option.bind_eq_bind, Option.bind_some, hdiff]
      rw [mem_componentDiff_iff hn hpos hle hdiff, SelectedBy,
        recordedFraction_of_spent hloops hkey hspent]
      refine ⟨fun h => ⟨?_, h⟩, fun h => h.2⟩
      -- a label that is not in the key has the fraction zero
      by_contra hc
      have hzero : analysedFraction component loopsUArch key n c t = 0 := by
        rw [← recordedFraction_of_spent hloops hkey hspent, recordedFraction,
          List.count_eq_zero_of_not_mem hc, Nat.cast_zero, div_zero]
      linarith [h.1]
    · intro c t hsome hall
      rw [hfraction, analysedFraction, List.countP_eq_length.mpr hall]
      exact div_self (by exact_mod_cast (List.length_pos_iff.mpr hsome).ne')

/-- Two iterations of label 1 and two of label 0, which differ in their states but for those of
the prefetcher. -/
def unlikeLoops : List (List UArch) :=
  [1, 1, 2, 2].map fun d =>
    [{ cycleBegin := 0
       lfb := ⟨[d]⟩
       hwprefetcher := ⟨some 7, some 8⟩
       executionUnits := { alu := [Nat.toDigits 16 d] } }]

/-- A component before the prefetcher, and the one behind it. -/
theorem leakSpec_1100 :
    LeakSpec .LFB unlikeLoops [['1'], ['1'], ['0'], ['0']] 4 1 (9 / 10) (1 / 10) 4 ∧
      LeakSpec .EXESTATUS unlikeLoops [['1'], ['1'], ['0'], ['0']] 4 1 (9 / 10) (1 / 10) 4 := by
  have hspent : LabelsSpent unlikeLoops [['1'], ['1'], ['0'], ['0']] 4 :=
    fun _ _ _ _ _ _ _ h => by simp at h
  have hprinted : PrefetchersPrinted (analysedFraction .HWPREFETCHER unlikeLoops
      [['1'], ['1'], ['0'], ['0']] 4) [['1'], ['1'], ['0'], ['0']] (9 / 10) (1 / 10) := by
    rw [← recordedFraction_of_spent (by decide) (by decide) hspent]
    exact prefetchersPrinted_of_forall (by norm_num) (by decide +kernel)
  have hiff (component : Component) :=
    @leakSpec_iff component unlikeLoops [['1'], ['1'], ['0'], ['0']] 4 1 (9 / 10) (1 / 10) 4
      (by decide) (by decide) (by decide) (by norm_num) (by norm_num)
  exact ⟨(hiff _).mpr ⟨by decide, by decide, hspent, fun h => by cases h⟩,
    (hiff _).mpr ⟨by decide, by decide, hspent, fun _ => hprinted⟩⟩

/-- Four analysed iterations of eight: the first two of label 1 share a state that the two
of label 0 do not have, and nothing is reported. -/
theorem not_leakSpec_53 :
    decodeKey ['5', '3'] 8 1 =
      some [['1'], ['1'], ['0'], ['0'], ['1'], ['0'], ['1'], ['0']] ∧
    ¬ LeakSpec .LFB
      ([1, 1, 2, 2, 1, 2, 1, 2].map fun d =>
        [{ cycleBegin := 0, lfb := ⟨List.replicate 16 d⟩ }])
      [['1'], ['1'], ['0'], ['0'], ['1'], ['0'], ['1'], ['0']] 4 1 (9 / 10) (1 / 10) 4 := by
  refine ⟨by decide, fun h => ?_⟩
  obtain ⟨diff, hdiff, hselects⟩ := h.selects
  have hempty : storedDiff
      ([1, 1, 2, 2, 1, 2, 1, 2].map fun d =>
        [{ cycleBegin := 0, lfb := ⟨List.replicate 16 d⟩ }])
      [['1'], ['1'], ['0'], ['0'], ['1'], ['0'], ['1'], ['0']] 4 1 (9 / 10) (1 / 10) .LFB =
        some [] := by decide +kernel
  rw [hempty] at hdiff
  cases hdiff
  obtain ⟨s, hs, -⟩ := (hselects ['1'] { cycleBegin := 0, lfb := ⟨List.replicate 16 1⟩ }).mpr
    (by decide +kernel)
  cases hs

end MicroSampler.Scripts
