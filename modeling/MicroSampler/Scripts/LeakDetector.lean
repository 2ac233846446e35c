import MicroSampler.Keys.Labels
import MicroSampler.Library.Dict
import MicroSampler.Library.Loops
import MicroSampler.Scripts.Microarchitecture
import Mathlib.Data.List.Dedup
import Mathlib.Data.Rat.Defs
import Mathlib.Algebra.Order.Field.Rat
import Mathlib.Tactic.Linarith

/-!
# The leak detector

`stats.py` collects, for each component and label, the distinct states of the analysed
iterations with the number of iterations they occur in, divides by the number of times
the label occurs in the key, and reports the states that are frequent under one label and
rare under all others. Frequencies are exact rationals here. This is one component by itself.

* `mem_uarchDiff_iff`: the candidate scan selects by frequency alone.
* `frequencyTable_spec`: the recorded frequency is a number of analysed iterations divided by
  a number of labels, analysed or not.
* `mem_componentDiff_iff`: so the candidates are selected by these fractions.
-/

namespace MicroSampler.Scripts

open Python Keys Loops

/-! ## Tallies -/

/-- `int(iters/window)`. -/
def analysedIters (iters window : Int) : Option Nat :=
  if window = 0 then none else some (iters.tdiv window).toNat

/-- `theta_lst` for one component before normalisation. -/
abbrev Theta (component : Component) : Type := Dict Label (Tally (UArch.compare component))

/-- One round of the tally loop: the unique states of the iteration, each counted once
under the label of the iteration. -/
def tallyIteration (component : Component) (key : List Label) (loop : List UArch)
    (theta : Theta component) (idx : Nat) : Option (Theta component) :=
  let loopUniqueStates := Tally.ofList (UArch.compare component) loop
  loopUniqueStates.members.foldlM (fun theta state => do
    let dclass ← key[idx]?
    let lst ← theta.get? dclass
    pure (theta.set dclass (lst.bump state))) theta

def tallyLoop (component : Component) (loopsUArch : List (List UArch)) (key : List Label)
    (n : Nat) : Option (Theta component) :=
  (List.range n).foldlM (fun theta idx => do
    let loop ← loopsUArch[idx]?
    tallyIteration component key loop theta idx) (Dict.ofKeys key fun _ => Tally.empty)

/-- `classcnt = {w: key.count(w) for w in key}`, at a label of `key`. -/
def classcnt (key : List Label) (w : Label) : Nat := key.count w

/-- The normalised `theta_lst`. Its keys are labels of `key`, so the divisor is positive. -/
def normalise {component : Component} (key : List Label) (theta : Theta component) :
    Dict Label (List (UArch × ℚ)) :=
  theta.mapValues fun dclass lst =>
    lst.entries.map fun state => (state.1, (state.2 : ℚ) / classcnt key dclass)

def frequencyTable (component : Component) (loopsUArch : List (List UArch)) (key : List Label)
    (iters window : Int) : Option (Dict Label (List (UArch × ℚ))) := do
  let n ← analysedIters iters window
  let theta ← tallyLoop component loopsUArch key n
  pure (normalise key theta)

/-! ## The candidate scan -/

def colors : List String :=
  ["blue", "darkorange", "violet", "green", "maroon", "red", "dimgray", "plum", "navy",
    "steelblue", "lightgreen", "olivedrab", "teal", "lightpink", "firebrick", "brown"]

def markers : List String :=
  ["o", "x", "<", "|", "*", "+", "_", ".", "^", "P", "X", "D", ">", "1", "2", "3"]

/-- The colour and marker of each class in the plot; with more classes than colours the
plot raises. -/
def plotStyles (classes : List Label) : Option (List (Label × String × String)) :=
  classes.zipIdx.mapM fun c => do
    let color ← colors[c.2]?
    let marker ← markers[c.2]?
    pure (c.1, color, marker)

/-- The frequency entered into `stats[j]` for one class. -/
def observed (component : Component) (lst : List (UArch × ℚ)) (s : UArch) : ℚ :=
  match findIndex lst fun e => e.1.compare component s with
  | none => 0
  | some sidx => ((lst[sidx]?).map Prod.snd).getD 0

/-- The loop over `stats[j]`: `candidate` and `alpha_violation` are its variables. -/
def scan (phi alpha : ℚ) :
    Option (Label × ℚ) → Bool → List (Label × ℚ) → Option (Label × ℚ)
  | candidate, _, [] => candidate
  | candidate, alphaViolation, freq :: rest =>
    if candidate.isSome ∧ alpha ≤ freq.2 then none
    else if phi ≤ freq.2 ∧ alphaViolation = false then
      scan phi alpha (some freq) alphaViolation rest
    else if alpha ≤ freq.2 then scan phi alpha candidate true rest
    else scan phi alpha candidate alphaViolation rest

/-- The list `states` of `uarch_diff`: those of the first class, then every state of
another class that is not equivalent to one already there. -/
def collectStates (component : Component) (seed : Label)
    (entries : List (Label × List (UArch × ℚ))) (states : List UArch) : List UArch :=
  entries.foldl (fun states e =>
    if e.1 = seed then states
    else (e.2.map Prod.fst).foldl (insertNew (UArch.compare component)) states) states

/-- `uarch_diff`. Without any class it raises. -/
def uarchDiff (component : Component) (theta : Dict Label (List (UArch × ℚ)))
    (phi alpha : ℚ) : Option (List (Label × UArch)) :=
  match theta.entries with
  | [] => none
  | (seed, lst) :: _ => do
    let states := collectStates component seed theta.entries (lst.map Prod.fst)
    let diff := states.filterMap fun s =>
      let stats := theta.entries.map fun e => (e.1, observed component e.2 s)
      (scan phi alpha none false stats).map fun candidate => (candidate.1, s)
    let _ ← plotStyles theta.keys
    pure diff

/-- `uarch_diff` without its plot. -/
def selectStates (component : Component) (theta : Dict Label (List (UArch × ℚ)))
    (phi alpha : ℚ) : Option (List (Label × UArch)) :=
  match theta.entries with
  | [] => none
  | (seed, lst) :: _ =>
    let states := collectStates component seed theta.entries (lst.map Prod.fst)
    some (states.filterMap fun s =>
      let stats := theta.entries.map fun e => (e.1, observed component e.2 s)
      (scan phi alpha none false stats).map fun candidate => (candidate.1, s))

theorem uarchDiff_eq_some_iff {component : Component} {theta : Dict Label (List (UArch × ℚ))}
    {phi alpha : ℚ} {diff : List (Label × UArch)} :
    uarchDiff component theta phi alpha = some diff ↔
      selectStates component theta phi alpha = some diff ∧ (plotStyles theta.keys).isSome := by
  unfold uarchDiff selectStates
  split
  · simp
  · cases plotStyles theta.keys <;> simp

/-- `diff[component]`. -/
def componentDiff (component : Component) (loopsUArch : List (List UArch)) (key : List Label)
    (iters window : Int) (phi alpha : ℚ) : Option (List (Label × UArch)) := do
  let theta ← frequencyTable component loopsUArch key iters window
  uarchDiff component theta phi alpha

/-! ## What the scan selects -/

/-- The frequency recorded for the class of `t` under a label, zero where there is none. -/
def frequency (component : Component) (theta : Dict Label (List (UArch × ℚ))) (c : Label)
    (t : UArch) : ℚ :=
  ((theta.get? c).bind fun lst => lookupSame (UArch.compare component) lst t).getD 0

theorem observed_eq (component : Component) (lst : List (UArch × ℚ)) (s : UArch) :
    observed component lst s = (lookupSame (UArch.compare component) lst s).getD 0 := by
  unfold observed findIndex
  cases h : lst.findIdx? fun e => e.1.compare component s with
  | none =>
    rw [lookupSame_eq_none_iff.mpr (List.findIdx?_eq_none_iff.mp h)]
    rfl
  | some i =>
    exact congrArg (Option.getD · 0) (lookupSame_of_findIdx? h).symm

section Scan

variable {phi alpha : ℚ}

theorem scan_candidate (hle : alpha ≤ phi) (x : Label × ℚ) (v : Bool)
    (stats : List (Label × ℚ)) :
    scan phi alpha (some x) v stats = if ∀ e ∈ stats, e.2 < alpha then some x else none := by
  induction stats with
  | nil => simp [scan]
  | cons e stats ih =>
    unfold scan
    by_cases he : alpha ≤ e.2
    · rw [if_pos ⟨rfl, he⟩, if_neg]
      intro h
      exact absurd (h e List.mem_cons_self) (not_lt.mpr he)
    · have hphi : ¬ phi ≤ e.2 := fun h => he (hle.trans h)
      rw [if_neg fun h => he h.2, if_neg fun h => hphi h.1, if_neg he, ih]
      simp only [List.forall_mem_cons, not_le.mp he, true_and]

theorem scan_violated (stats : List (Label × ℚ)) : scan phi alpha none true stats = none := by
  induction stats with
  | nil => rfl
  | cons e stats ih => simp [scan, ih]

/-- The scan returns the class that alone reaches `phi`, if all others stay below
`alpha`. -/
theorem scan_eq_some_iff (hle : alpha ≤ phi) {stats : List (Label × ℚ)}
    (hnodup : (stats.map Prod.fst).Nodup) {c : Label} {f : ℚ} :
    scan phi alpha none false stats = some (c, f) ↔
      (c, f) ∈ stats ∧ phi ≤ f ∧ ∀ e ∈ stats, e.1 ≠ c → e.2 < alpha := by
  induction stats with
  | nil => simp [scan]
  | cons e stats ih =>
    obtain ⟨hnew, hnodup⟩ := List.nodup_cons.mp hnodup
    have hother : ∀ e' ∈ stats, e'.1 ≠ e.1 := fun e' he' h =>
      hnew (h ▸ List.mem_map_of_mem he')
    unfold scan
    rw [if_neg (by simp)]
    by_cases hphi : phi ≤ e.2
    · -- the first class reaches `phi`, so it is the candidate until a second one rises
      rw [if_pos ⟨hphi, rfl⟩, scan_candidate hle]
      constructor
      · intro h
        split at h
        · next hlow =>
          cases h
          refine ⟨List.mem_cons_self, hphi, ?_⟩
          intro e' he' hne
          rcases List.mem_cons.mp he' with rfl | he'
          · exact absurd rfl hne
          · exact hlow e' he'
        · cases h
      · rintro ⟨hmem, -, hlow⟩
        rcases List.mem_cons.mp hmem with rfl | hmem
        · exact if_pos fun e' he' => hlow e' (List.mem_cons_of_mem _ he') (hother e' he')
        · have hlt := hlow e List.mem_cons_self (hother _ hmem).symm
          exact absurd (hle.trans hphi) (not_le.mpr hlt)
    · rw [if_neg fun h => hphi h.1]
      by_cases halpha : alpha ≤ e.2
      · rw [if_pos halpha, scan_violated]
        constructor
        · intro h
          cases h
        · rintro ⟨hmem, hf, hlow⟩
          rcases List.mem_cons.mp hmem with rfl | hmem
          · exact absurd hf hphi
          · have hlt := hlow e List.mem_cons_self (hother _ hmem).symm
            exact absurd halpha (not_le.mpr hlt)
      · rw [if_neg halpha, ih hnodup]
        constructor
        · rintro ⟨hmem, hf, hlow⟩
          refine ⟨List.mem_cons_of_mem _ hmem, hf, ?_⟩
          intro e' he' hne
          rcases List.mem_cons.mp he' with rfl | he'
          · exact not_le.mp halpha
          · exact hlow e' he' hne
        · rintro ⟨hmem, hf, hlow⟩
          refine ⟨?_, hf, fun e' he' => hlow e' (List.mem_cons_of_mem _ he')⟩
          rcases List.mem_cons.mp hmem with rfl | hmem
          · exact absurd hf hphi
          · exact hmem

end Scan

theorem any_collectStates (component : Component) (seed : Label)
    (entries : List (Label × List (UArch × ℚ))) (states : List UArch) (t : UArch) :
    ((collectStates component seed entries states).any fun s => s.compare component t) =
      ((states.any fun s => s.compare component t) || entries.any fun e =>
        decide (e.1 ≠ seed) && e.2.any fun m => m.1.compare component t) := by
  unfold collectStates
  induction entries generalizing states with
  | nil => simp
  | cons e entries ih =>
    rw [List.foldl_cons, ih, List.any_cons]
    by_cases hseed : e.1 = seed
    · simp [hseed]
    · rw [if_neg hseed, any_foldl_insertNew (compare_isSameness component), List.any_map,
        Bool.or_assoc]
      simp [hseed, Function.comp_def]

theorem any_states {component : Component} {theta : Dict Label (List (UArch × ℚ))}
    {seed c : Label} {lst l : List (UArch × ℚ)} {rest : List (Label × List (UArch × ℚ))}
    (hentries : theta.entries = (seed, lst) :: rest) (hc : theta.get? c = some l)
    {m : UArch × ℚ} (hm : m ∈ l) {t : UArch} (hmt : m.1.compare component t = true) :
    ((collectStates component seed theta.entries (lst.map Prod.fst)).any
      fun s => s.compare component t) = true := by
  rw [any_collectStates, Bool.or_eq_true]
  by_cases hseed : c = seed
  · have hlst : theta.get? seed = some lst :=
      Dict.get?_eq_some_iff.mpr (hentries ▸ List.mem_cons_self)
    rw [hseed, hlst] at hc
    cases hc
    exact Or.inl (List.any_eq_true.mpr ⟨m.1, List.mem_map_of_mem hm, hmt⟩)
  · refine Or.inr (List.any_eq_true.mpr ⟨(c, l), Dict.get?_eq_some_iff.mp hc, ?_⟩)
    rw [Bool.and_eq_true, List.any_eq_true]
    exact ⟨decide_eq_true hseed, m, hm, hmt⟩

/-- The scan of a state's observations returns the class whose frequency alone reaches
`phi`, for every state `t` equivalent to it. -/
theorem scan_observed_eq_some_iff {component : Component}
    {theta : Dict Label (List (UArch × ℚ))} {phi alpha : ℚ} (hle : alpha ≤ phi) {s t : UArch}
    (hst : s.compare component t = true) {c : Label} {f : ℚ} :
    scan phi alpha none false
        (theta.entries.map fun e => (e.1, observed component e.2 s)) = some (c, f) ↔
      (c ∈ theta.keys ∧ f = frequency component theta c t) ∧ phi ≤ f ∧
        ∀ d ∈ theta.keys, d ≠ c → frequency component theta d t < alpha := by
  have hobserved : ∀ e ∈ theta.entries,
      observed component e.2 s = frequency component theta e.1 t := by
    intro e he
    rw [observed_eq, lookupSame_congr (compare_isSameness component) _ hst, frequency,
      Dict.get?_eq_some_iff.mpr he, Option.bind_some]
  rw [scan_eq_some_iff hle (by rw [List.map_map]; exact theta.nodup)]
  constructor
  · rintro ⟨hmem, hf, hlow⟩
    obtain ⟨e, he, heq⟩ := List.mem_map.mp hmem
    cases heq
    refine ⟨⟨List.mem_map_of_mem he, hobserved e he⟩, hf, ?_⟩
    intro d hd hne
    obtain ⟨e', he', rfl⟩ := List.mem_map.mp hd
    rw [← hobserved e' he']
    exact hlow _ (List.mem_map_of_mem he') hne
  · rintro ⟨⟨hc, rfl⟩, hf, hlow⟩
    obtain ⟨e, he, rfl⟩ := List.mem_map.mp hc
    refine ⟨List.mem_map.mpr ⟨e, he, ?_⟩, hf, ?_⟩
    · rw [hobserved e he]
    · intro e' he' hne
      obtain ⟨e'', he'', rfl⟩ := List.mem_map.mp he'
      rw [hobserved e'' he'']
      exact hlow _ (List.mem_map_of_mem he'') hne

/-- A positive frequency is recorded by an entry. -/
theorem exists_entry_of_frequency_pos {component : Component}
    {theta : Dict Label (List (UArch × ℚ))} {c : Label} {t : UArch}
    (h : 0 < frequency component theta c t) :
    ∃ l, theta.get? c = some l ∧ ∃ m ∈ l, m.1.compare component t = true := by
  cases hl : theta.get? c with
  | none => simp [frequency, hl] at h
  | some l =>
    refine ⟨l, rfl, ?_⟩
    by_contra hnone
    push Not at hnone
    have hlookup := lookupSame_eq_none_iff.mpr fun m hm => Bool.eq_false_iff.mpr (hnone m hm)
    simp [frequency, hl, hlookup] at h

/-- A class of states is selected under `c` when it reaches `phi` under `c` and stays below
`alpha` under every other label of the table. -/
theorem mem_selectStates_iff {component : Component} {theta : Dict Label (List (UArch × ℚ))}
    {phi alpha : ℚ} (hpos : 0 < alpha) (hle : alpha ≤ phi) {diff : List (Label × UArch)}
    (hdiff : selectStates component theta phi alpha = some diff) (c : Label) (t : UArch) :
    (∃ s, (c, s) ∈ diff ∧ s.compare component t = true) ↔
      phi ≤ frequency component theta c t ∧
        ∀ d ∈ theta.keys, d ≠ c → frequency component theta d t < alpha := by
  unfold selectStates at hdiff
  split at hdiff
  · cases hdiff
  · next seed lst rest hentries =>
    cases hdiff
    constructor
    · rintro ⟨s, hs, hst⟩
      obtain ⟨s', -, hmap⟩ := List.mem_filterMap.mp hs
      obtain ⟨⟨c', f⟩, hcand, heq⟩ := Option.map_eq_some_iff.mp hmap
      cases heq
      obtain ⟨⟨-, hf⟩, hphi, hlow⟩ := (scan_observed_eq_some_iff hle hst).mp hcand
      exact ⟨hf ▸ hphi, hlow⟩
    · rintro ⟨hphi, hlow⟩
      obtain ⟨l, hl, m, hm, hmt⟩ :=
        exists_entry_of_frequency_pos (lt_of_lt_of_le hpos (hle.trans hphi))
      obtain ⟨s, hs, hst⟩ := List.any_eq_true.mp (any_states hentries hl hm hmt)
      have hc : c ∈ theta.keys := Dict.mem_keys_iff.mpr ⟨l, hl⟩
      have hcand := (scan_observed_eq_some_iff hle hst).mpr ⟨⟨hc, rfl⟩, hphi, hlow⟩
      refine ⟨s, List.mem_filterMap.mpr ⟨s, hs, ?_⟩, hst⟩
      exact congrArg (Option.map fun candidate => (candidate.1, s)) hcand

/-- **Selection by frequency.** A class of states is reported under `c` when it reaches
`phi` under `c` and stays below `alpha` under every other label of the table. -/
theorem mem_uarchDiff_iff {component : Component} {theta : Dict Label (List (UArch × ℚ))}
    {phi alpha : ℚ} (hpos : 0 < alpha) (hle : alpha ≤ phi) {diff : List (Label × UArch)}
    (hdiff : uarchDiff component theta phi alpha = some diff) (c : Label) (t : UArch) :
    (∃ s, (c, s) ∈ diff ∧ s.compare component t = true) ↔
      phi ≤ frequency component theta c t ∧
        ∀ d ∈ theta.keys, d ≠ c → frequency component theta d t < alpha :=
  mem_selectStates_iff hpos hle (uarchDiff_eq_some_iff.mp hdiff).1 c t

theorem plotStyles_isSome_iff {classes : List Label} :
    (plotStyles classes).isSome ↔ classes.length ≤ 16 := by
  rw [plotStyles, mapM_isSome_iff]
  have hstyle : ∀ c : Label × Nat, (do
      let color ← colors[c.2]?
      let marker ← markers[c.2]?
      pure (c.1, color, marker)).isSome ↔ c.2 < 16 := by
    intro c
    by_cases hc : c.2 < 16 <;> simp [colors, markers, hc]
  constructor
  · intro h
    by_contra hlong
    have hmem : (classes[16], 16) ∈ classes.zipIdx :=
      List.mem_zipIdx_iff_getElem?.mpr (List.getElem?_eq_getElem (by omega))
    exact absurd ((hstyle _).mp (h _ hmem)) (Nat.lt_irrefl 16)
  · intro h c hc
    obtain ⟨hlt, -⟩ := List.getElem?_eq_some_iff.mp (List.mem_zipIdx_iff_getElem?.mp hc)
    exact (hstyle c).mpr (by omega)

theorem selectStates_isSome_iff (component : Component)
    (theta : Dict Label (List (UArch × ℚ))) (phi alpha : ℚ) :
    (selectStates component theta phi alpha).isSome ↔ theta.keys ≠ [] := by
  unfold selectStates
  split
  · next hentries => simp [Dict.keys, hentries]
  · next seed lst rest hentries => simp [Dict.keys, hentries]

/-- `uarch_diff` raises without classes, and with more of them than colours. -/
theorem uarchDiff_isSome_iff (component : Component) (theta : Dict Label (List (UArch × ℚ)))
    (phi alpha : ℚ) :
    (uarchDiff component theta phi alpha).isSome ↔
      theta.keys ≠ [] ∧ theta.keys.length ≤ 16 := by
  rw [← plotStyles_isSome_iff, ← selectStates_isSome_iff component theta phi alpha,
    Option.isSome_iff_exists, Option.isSome_iff_exists]
  simp only [uarchDiff_eq_some_iff, exists_and_right]

/-! ## What the tally loop counts -/

/-- Iteration `idx` contains a state equivalent to `t`. -/
def occursIn (component : Component) (loopsUArch : List (List UArch)) (t : UArch)
    (idx : Nat) : Bool :=
  ((loopsUArch[idx]?).getD []).any fun s => s.compare component t

/-- The analysed iterations labelled `c`. -/
def analysedOf (key : List Label) (n : Nat) (c : Label) : List Nat :=
  (List.range n).filter fun idx => key[idx]? = some c

theorem tallyIteration_spec {component : Component} {key : List Label} {loop : List UArch}
    {theta : Theta component} {idx : Nat} {c : Label} {lst : Tally (UArch.compare component)}
    (hc : key[idx]? = some c) (hlst : theta.get? c = some lst) :
    ∃ theta', tallyIteration component key loop theta idx = some theta' ∧
      theta'.keys = theta.keys ∧
      theta'.get? c = some (lst.bumpAll (Tally.ofList (UArch.compare component) loop).members) ∧
      ∀ d, d ≠ c → theta'.get? d = theta.get? d := by
  unfold tallyIteration
  dsimp only
  generalize (Tally.ofList (UArch.compare component) loop).members = members
  induction members generalizing theta lst with
  | nil => exact ⟨theta, rfl, rfl, hlst, fun _ _ => rfl⟩
  | cons state members ih =>
    obtain ⟨theta', hrun, hkeys, hget, hother⟩ :=
      ih (Dict.get?_set_self theta c (lst.bump state))
    refine ⟨theta', ?_, ?_, hget, ?_⟩
    · rw [List.foldlM_cons]
      simpa [hc, hlst] using hrun
    · rw [hkeys, Dict.keys_set_of_mem (Dict.mem_keys_iff.mpr ⟨lst, hlst⟩)]
    · intro d hd
      rw [hother d hd, Dict.get?_set_of_ne hd]

theorem countP_analysedOf_succ (key : List Label) (n : Nat) (c : Label) (p : Nat → Bool) :
    (analysedOf key (n + 1) c).countP p =
      (analysedOf key n c).countP p + if key[n]? = some c ∧ p n = true then 1 else 0 := by
  rw [analysedOf, List.range_succ, List.filter_append, List.countP_append, ← analysedOf]
  congr 1
  by_cases hc : key[n]? = some c
  · simp [hc]
  · simp [hc]

/-- Without a label an iteration must be empty, and then nothing is counted. -/
theorem labelled_of_tallyIteration {component : Component} {key : List Label}
    {loop : List UArch} {theta theta' : Theta component} {idx : Nat}
    (h : tallyIteration component key loop theta idx = some theta') :
    loop = [] ∨ ∃ c, key[idx]? = some c := by
  cases hc : key[idx]? with
  | some c => exact .inr ⟨c, rfl⟩
  | none =>
    left
    apply List.eq_nil_iff_forall_not_mem.mpr
    intro s hs
    have hpos : 0 < (Tally.ofList (UArch.compare component) loop).count s := by
      rw [Tally.count_ofList (compare_isSameness component)]
      exact List.countP_pos_iff.mpr ⟨s, hs, (compare_isSameness component).refl s⟩
    obtain ⟨m, hm, -⟩ := (Tally.count_pos_iff _ s).mp hpos
    obtain ⟨m', members, hmembers⟩ := List.exists_cons_of_ne_nil (List.ne_nil_of_mem hm)
    unfold tallyIteration at h
    simp [hmembers, hc] at h

/-- Every analysed iteration is recorded, and those with states have a label. -/
def Labelled (loopsUArch : List (List UArch)) (key : List Label) (n : Nat) : Prop :=
  ∀ idx < n, ∃ loop, loopsUArch[idx]? = some loop ∧ (loop = [] ∨ ∃ c, key[idx]? = some c)

/-- The tallies after `j` iterations: under each label of the key, every class of states has
the number of iterations of that label that contain it. -/
structure Counted (component : Component) (loopsUArch : List (List UArch)) (key : List Label)
    (j : Nat) (theta : Theta component) : Prop where
  keys : theta.keys =
    (Dict.ofKeys key fun _ => (Tally.empty : Tally (UArch.compare component))).keys
  count : ∀ c ∈ key, ∃ lst, theta.get? c = some lst ∧ ∀ t, lst.count t =
    (analysedOf key j c).countP (occursIn component loopsUArch t)

/-- One iteration. -/
theorem Counted.round {component : Component} {loopsUArch : List (List UArch)}
    {key : List Label} {idx : Nat} {theta : Theta component} {loop : List UArch}
    (h : Counted component loopsUArch key idx theta) (hloop : loopsUArch[idx]? = some loop)
    (hlabel : loop = [] ∨ ∃ c, key[idx]? = some c) :
    ∃ theta', tallyIteration component key loop theta idx = some theta' ∧
      Counted component loopsUArch key (idx + 1) theta' := by
  cases hc : key[idx]? with
  | none =>
    have hempty : loop = [] := by
      rcases hlabel with hempty | ⟨c, hc'⟩
      · exact hempty
      · rw [hc] at hc'
        cases hc'
    subst hempty
    refine ⟨theta, rfl, h.keys, ?_⟩
    intro c hmem
    obtain ⟨lst, hlst, hcount⟩ := h.count c hmem
    refine ⟨lst, hlst, ?_⟩
    intro t
    rw [hcount, countP_analysedOf_succ, if_neg (by simp [hc]), Nat.add_zero]
  | some c =>
    obtain ⟨lst, hlst, hlstcount⟩ := h.count c (List.mem_of_getElem? hc)
    obtain ⟨theta', hrun, hkeys, hself, hother⟩ :=
      @tallyIteration_spec component key loop theta idx c lst hc hlst
    refine ⟨theta', hrun, hkeys.trans h.keys, ?_⟩
    intro d hd
    by_cases hsame : d = c
    · subst hsame
      refine ⟨_, hself, ?_⟩
      intro t
      rw [Tally.count_bumpAll_members (compare_isSameness component), hlstcount,
        countP_analysedOf_succ]
      simp [hc, occursIn, hloop]
    · obtain ⟨lst', hlst', hcount'⟩ := h.count d hd
      refine ⟨lst', (hother d hsame).trans hlst', ?_⟩
      intro t
      rw [hcount', countP_analysedOf_succ, if_neg, Nat.add_zero]
      rw [hc]
      exact fun h => hsame (Option.some.inj h.1).symm

theorem tallyLoop_of_labelled (component : Component) {loopsUArch : List (List UArch)}
    {key : List Label} {n : Nat} (h : Labelled loopsUArch key n) :
    ∃ theta, tallyLoop component loopsUArch key n = some theta ∧
      Counted component loopsUArch key n theta := by
  apply exists_foldlM_range (Counted component loopsUArch key)
  · refine ⟨rfl, fun c hc => ⟨Tally.empty, ?_, fun t => rfl⟩⟩
    rw [Dict.get?_ofKeys, if_pos hc]
  · intro idx hidx theta hcounted
    obtain ⟨loop, hloop, hlabel⟩ := h idx hidx
    obtain ⟨theta', hrun, hcounted'⟩ := hcounted.round hloop hlabel
    exact ⟨theta', by rw [hloop]; exact hrun, hcounted'⟩

theorem labelled_of_tallyLoop {component : Component} {loopsUArch : List (List UArch)}
    {key : List Label} {n : Nat} {theta : Theta component}
    (h : tallyLoop component loopsUArch key n = some theta) : Labelled loopsUArch key n := by
  apply of_foldlM_range (fun j _ => Labelled loopsUArch key j) _ _ h
  · intro idx hidx
    exact absurd hidx (Nat.not_lt_zero idx)
  · intro j theta theta' _ hlabelled hround idx hidx
    rcases Nat.lt_succ_iff_lt_or_eq.mp hidx with hlt | rfl
    · exact hlabelled idx hlt
    · obtain ⟨loop, hloop, hrun⟩ := Option.bind_eq_some_iff.mp hround
      exact ⟨loop, hloop, labelled_of_tallyIteration hrun⟩

/-- Enough iterations and labels are recorded. -/
theorem labelled_of_le {loopsUArch : List (List UArch)} {key : List Label} {n : Nat}
    (hloops : n ≤ loopsUArch.length) (hkey : n ≤ key.length) : Labelled loopsUArch key n := by
  intro idx hidx
  exact ⟨_, List.getElem?_eq_getElem (show idx < loopsUArch.length by omega),
    .inr ⟨_, List.getElem?_eq_getElem (show idx < key.length by omega)⟩⟩

/-- **The tally loop.** With `n` recorded iterations and labels it returns, under each
label of the key, a tally in which every class of states has the number of analysed
iterations of that label that contain it. -/
theorem tallyLoop_spec (component : Component) {loopsUArch : List (List UArch)}
    {key : List Label} {n : Nat} (hloops : n ≤ loopsUArch.length) (hkey : n ≤ key.length) :
    ∃ theta, tallyLoop component loopsUArch key n = some theta ∧
      theta.keys = (Dict.ofKeys key fun _ => (Tally.empty : Tally (UArch.compare component))).keys ∧
      ∀ c ∈ key, ∃ lst, theta.get? c = some lst ∧ ∀ t, lst.count t =
        (analysedOf key n c).countP (occursIn component loopsUArch t) := by
  obtain ⟨theta, hrun, hcounted⟩ := tallyLoop_of_labelled component (labelled_of_le hloops hkey)
  exact ⟨theta, hrun, hcounted.keys, hcounted.count⟩

/-! ## Recorded frequencies -/

/-- The fraction of the analysed iterations labelled `c` that contain a state equivalent
to `t`; zero where no analysed iteration has that label. -/
def analysedFraction (component : Component) (loopsUArch : List (List UArch))
    (key : List Label) (n : Nat) (c : Label) (t : UArch) : ℚ :=
  (analysedOf key n c).countP (occursIn component loopsUArch t) / (analysedOf key n c).length

/-- What is recorded for it: the divisor is the number of all labels `c` of the key. -/
def recordedFraction (component : Component) (loopsUArch : List (List UArch))
    (key : List Label) (n : Nat) (c : Label) (t : UArch) : ℚ :=
  (analysedOf key n c).countP (occursIn component loopsUArch t) / key.count c

theorem frequency_normalise {component : Component} {key : List Label}
    {theta : Theta component} {c : Label} {lst : Tally (UArch.compare component)}
    (hlst : theta.get? c = some lst) (t : UArch) :
    frequency component (normalise key theta) c t = lst.count t / key.count c := by
  rw [frequency, normalise, Dict.get?_mapValues, hlst, Option.map_some, Option.bind_some,
    lookupSame_map_snd fun tally : Nat => (tally : ℚ) / classcnt key c, Tally.count, classcnt]
  cases lookupSame (UArch.compare component) lst.entries t <;> simp

/-- The table of a run: it exists, its labels are those of the key, and the frequency of a
class under a label is the number of analysed iterations of that label that contain it,
divided by the number of all occurrences of the label in the key. -/
theorem frequencyTable_spec (component : Component) {loopsUArch : List (List UArch)}
    {key : List Label} {iters window : Int} {n : Nat}
    (hn : analysedIters iters window = some n) (hlabelled : Labelled loopsUArch key n) :
    ∃ theta, frequencyTable component loopsUArch key iters window = some theta ∧
      (∀ c, c ∈ theta.keys ↔ c ∈ key) ∧
      ∀ c t, frequency component theta c t =
        recordedFraction component loopsUArch key n c t := by
  obtain ⟨theta, hrun, hcounted⟩ := tallyLoop_of_labelled component hlabelled
  refine ⟨normalise key theta, ?_, ?_, ?_⟩
  · rw [frequencyTable, hn, Option.bind_eq_bind, Option.bind_some, hrun]
    rfl
  · intro c
    rw [normalise, Dict.keys_mapValues, hcounted.keys, Dict.mem_keys_ofKeys]
  · intro c t
    by_cases hc : c ∈ key
    · obtain ⟨lst, hlst, hlstcount⟩ := hcounted.count c hc
      rw [frequency_normalise hlst, hlstcount, recordedFraction]
    · have hnone : (normalise key theta).get? c = none := by
        rw [← Option.not_isSome_iff_eq_none, Option.isSome_iff_exists, ← Dict.mem_keys_iff,
          normalise, Dict.keys_mapValues, hcounted.keys, Dict.mem_keys_ofKeys]
        exact hc
      rw [frequency, hnone, recordedFraction, List.count_eq_zero_of_not_mem hc]
      simp

theorem labelled_of_frequencyTable {component : Component} {loopsUArch : List (List UArch)}
    {key : List Label} {iters window : Int} {n : Nat}
    (hn : analysedIters iters window = some n) {theta : Dict Label (List (UArch × ℚ))}
    (h : frequencyTable component loopsUArch key iters window = some theta) :
    Labelled loopsUArch key n := by
  rw [frequencyTable, hn, Option.bind_eq_bind, Option.bind_some] at h
  obtain ⟨tallies, hrun, -⟩ := Option.bind_eq_some_iff.mp h
  exact labelled_of_tallyLoop hrun

/-! ## The candidates of a component -/

section Candidates

variable {component : Component} {loopsUArch : List (List UArch)} {key : List Label}
  {iters window : Int} {n : Nat}

theorem componentDiff_eq {theta : Dict Label (List (UArch × ℚ))}
    (htheta : frequencyTable component loopsUArch key iters window = some theta)
    (phi alpha : ℚ) :
    componentDiff component loopsUArch key iters window phi alpha =
      uarchDiff component theta phi alpha := by
  rw [componentDiff, htheta, Option.bind_eq_bind, Option.bind_some]

theorem length_keys_of_mem_iff {ν : Type} {theta : Dict Label ν} {key : List Label}
    (h : ∀ c, c ∈ theta.keys ↔ c ∈ key) : theta.keys.length = key.dedup.length := by
  apply List.Perm.length_eq
  rw [List.perm_ext_iff_of_nodup theta.nodup_keys (List.nodup_dedup key)]
  intro c
  rw [h, List.mem_dedup]

/-- When the script can select candidates: what it reads is recorded, and the plot has a
colour for each of the labels, of which there is one. -/
structure Selectable (loopsUArch : List (List UArch)) (key : List Label) (n : Nat) : Prop where
  labelled : Labelled loopsUArch key n
  labels : key ≠ []
  colored : key.dedup.length ≤ 16

theorem componentDiff_isSome_iff (component : Component)
    (hn : analysedIters iters window = some n) (phi alpha : ℚ) :
    (componentDiff component loopsUArch key iters window phi alpha).isSome ↔
      Selectable loopsUArch key n := by
  constructor
  · intro h
    obtain ⟨diff, hdiff⟩ := Option.isSome_iff_exists.mp h
    obtain ⟨theta, htheta, hdiff⟩ := Option.bind_eq_some_iff.mp hdiff
    have hlabelled := labelled_of_frequencyTable hn htheta
    obtain ⟨theta', htheta', hkeys, -⟩ := frequencyTable_spec component hn hlabelled
    cases htheta.symm.trans htheta'
    obtain ⟨hne, hlength⟩ :=
      (uarchDiff_isSome_iff component theta phi alpha).mp (Option.isSome_of_eq_some hdiff)
    refine ⟨hlabelled, ?_, length_keys_of_mem_iff hkeys ▸ hlength⟩
    rintro rfl
    exact hne (List.eq_nil_iff_forall_not_mem.mpr fun c hc =>
      List.not_mem_nil ((hkeys c).mp hc))
  · rintro ⟨hlabelled, hne, hlength⟩
    obtain ⟨theta, htheta, hkeys, -⟩ := frequencyTable_spec component hn hlabelled
    rw [componentDiff_eq htheta, uarchDiff_isSome_iff]
    refine ⟨?_, (length_keys_of_mem_iff hkeys).symm ▸ hlength⟩
    intro hnil
    exact hne (List.eq_nil_iff_forall_not_mem.mpr fun c hc =>
      List.not_mem_nil (hnil ▸ (hkeys c).mpr hc))

/-- By its fraction under each label, a class of states is selected under `c`. -/
def SelectedBy (fraction : Label → UArch → ℚ) (key : List Label) (phi alpha : ℚ) (c : Label)
    (t : UArch) : Prop :=
  phi ≤ fraction c t ∧ ∀ d ∈ key, d ≠ c → fraction d t < alpha

theorem mem_componentDiff_iff (hn : analysedIters iters window = some n) {phi alpha : ℚ}
    (hpos : 0 < alpha) (hle : alpha ≤ phi) {diff : List (Label × UArch)}
    (hdiff : componentDiff component loopsUArch key iters window phi alpha = some diff)
    (c : Label) (t : UArch) :
    (∃ s, (c, s) ∈ diff ∧ s.compare component t = true) ↔
      SelectedBy (recordedFraction component loopsUArch key n) key phi alpha c t := by
  obtain ⟨theta, htheta, hselect⟩ := Option.bind_eq_some_iff.mp hdiff
  obtain ⟨theta', htheta', hkeys, hfreq⟩ :=
    frequencyTable_spec component hn (labelled_of_frequencyTable hn htheta)
  cases htheta.symm.trans htheta'
  rw [mem_uarchDiff_iff hpos hle hselect, SelectedBy]
  simp only [hkeys, hfreq]

end Candidates

/-! ## Labels of the analysed part -/

theorem length_analysedOf (key : List Label) (c : Label) :
    ∀ n, n ≤ key.length → (analysedOf key n c).length = (key.take n).count c
  | 0, _ => rfl
  | n + 1, h => by
    have hlabel := List.getElem?_eq_getElem (show n < key.length by omega)
    have hsucc := countP_analysedOf_succ key n c fun _ => true
    rw [List.countP_true, length_analysedOf key c n (by omega)] at hsucc
    rw [hsucc, List.take_add_one, hlabel, Option.toList_some, List.count_append,
      List.count_singleton]
    simp

end MicroSampler.Scripts
