import MicroSampler.Agents.Evidence
import MicroSampler.Agents.Replay

/-!
# The final verification section

The section of the report that shows the last statistics with the hypothesis and the
implementation that it finds for them in the log.

`finalVerification_attributed`: for the log of every run the text of the section shows the
hypothesis and the implementation from whose deployment in this run the statistics come.
-/

namespace MicroSampler.Reporting

open StateQueue Simulation Statistics Agents

variable {E M A F : Type}

/-! ## Payloads -/

/-- The payload, if it is a `Hypothesis`. -/
def hypothesisPayload : Event F → Option Hypothesis
  | .hypothesis _ payload => payload
  | _ => none

/-- The payload, if it is an `Implementation`. -/
def implementationPayload : Event F → Option Implementation
  | .implementation _ payload => payload
  | _ => none

/-- The payload, if it is a `StatisticalAnalysisResults`. -/
def statsPayload : Event F → Option (StatisticalAnalysisResults F)
  | .analysis _ payload => some payload
  | .conclusion _ payload => payload
  | _ => none

def isAnalysis : Event F → Bool
  | .analysis _ _ => true
  | _ => false

def isConclusion : Event F → Bool
  | .conclusion _ _ => true
  | _ => false

/-- `_latest_payload_before_or_at`. -/
def latestPayloadBeforeOrAt {α : Type} (payload : Event F → Option α) (events : List (Event F))
    (iteration : Nat) : Option α :=
  events.foldl (fun result event =>
    if event.iteration ≤ iteration ∧ (payload event).isSome then payload event else result) none

/-! ## The section -/

/-- `_find_final_stats_event`. -/
def findFinalStatsEvent (events : List (Event F)) : Option (Event F) :=
  match events.reverse.find? isConclusion with
  | some event => some event
  | none => events.reverse.find? isAnalysis

/-- What the section shows. -/
structure FinalVerification (F : Type) where
  iteration : Nat
  stats : StatisticalAnalysisResults F
  hypothesis : Option Hypothesis
  implementation : Option Implementation

/-- The choice of the events in `FinalVerificationSection.body`. -/
def finalVerification (events : List (Event F)) : Option (FinalVerification F) := do
  let statsEvent ← findFinalStatsEvent events
  let stats ← statsPayload statsEvent
  let iteration := statsEvent.iteration
  pure
    { iteration := iteration
      stats := stats
      hypothesis := latestPayloadBeforeOrAt hypothesisPayload events iteration
      implementation := latestPayloadBeforeOrAt implementationPayload events iteration }

/-- How numbers and statistics tables are printed. -/
structure StatsFormat (F : Type) where
  score : F → Text
  stats : StatisticalAnalysisResults F → Text

def joinLines (lines : List Text) : Text := List.intercalate "\n".toList lines

/-- A list of items, or `None`. -/
def formatItems (items : List Text) : Text :=
  let text := joinLines (items.map fun item => "- ".toList ++ item)
  if text = [] then "None".toList else text

/-- `_format_run_configuration`. -/
def formatRunConfiguration (configuration : RunConfiguration) : Text :=
  joinLines
    ["- Global iterations: `".toList ++ (toString configuration.globalIterations).toList ++
        "`".toList,
      "- Inner iterations: `".toList ++ (toString configuration.innerIterations).toList ++
        "`".toList,
      "- Run name: `".toList ++ configuration.runName ++ "`".toList,
      "- Random seed: `".toList ++ (toString configuration.randomSeed).toList ++ "`".toList]

/-- `_format_hypothesis`. -/
def formatHypothesis (hypothesis : Hypothesis) : Text :=
  "**Hypothesis**\n\n".toList ++ hypothesis.hypothesis ++
    "\n\n**Previous Implementation Bugs**\n\n".toList ++
    formatItems hypothesis.previousImplementationBugs ++
    "\n\n**Run Configuration**\n\n".toList ++ formatRunConfiguration hypothesis.runConfiguration

/-- `_format_implementation`. -/
def formatImplementation (implementation : Implementation) : Text :=
  "**Changes**\n\n".toList ++ formatItems (implementation.changes.getD []) ++
    "\n\n<details>\n<summary>Generated attack.c</summary>\n\n```c\n".toList ++
    implementation.attackCode ++ "\n```\n\n</details>".toList

/-- The text that the section makes of what it shows. -/
def FinalVerification.render (format : StatsFormat F) (v : FinalVerification F) : Text :=
  joinLines
    (["Final statistics are from iteration `".toList ++ (toString v.iteration).toList ++
        "`.".toList, [], "## Final Scores".toList, [],
      "- Global score: `".toList ++ format.score v.stats.globalScore ++ "`".toList,
      "- Iteration score: `".toList ++ format.score v.stats.iterationScore ++ "`".toList, []] ++
    (match v.hypothesis with
      | some hypothesis => ["## Final Hypothesis".toList, [], formatHypothesis hypothesis, []]
      | none => []) ++
    (match v.implementation with
      | some implementation =>
        ["## Final Implementation".toList, [], formatImplementation implementation, []]
      | none => []) ++
    ["## Final Statistics".toList, [], format.stats v.stats])

/-- `FinalVerificationSection.body`. -/
def body (format : StatsFormat F) (events : List (Event F)) : Text :=
  match finalVerification events with
  | none => "No final statistics are available.".toList
  | some v => v.render format

/-! ## The latest payloads -/

section Latest

variable {α : Type} {payload : Event F → Option α}

/-- The latest payload of a kind with its iteration. -/
def latest (payload : Event F → Option α) (l : List (Event F)) : Option (Nat × α) :=
  (l.filterMap fun e => (payload e).map fun p => (e.iteration, p)).getLast?

theorem latest_append {l l' : List (Event F)} (h : ∀ e ∈ l', payload e = none) :
    latest payload (l ++ l') = latest payload l := by
  have hnil : (l'.filterMap fun e => (payload e).map fun p => (e.iteration, p)) = [] := by
    rw [List.filterMap_eq_nil_iff]
    intro e he
    rw [h e he, Option.map_none]
  rw [latest, List.filterMap_append, hnil, List.append_nil, latest]

theorem latest_concat {l : List (Event F)} {e : Event F} {p : α} (h : payload e = some p) :
    latest payload (l ++ [e]) = some (e.iteration, p) := by
  rw [latest, List.filterMap_append]
  simp [h]

/-- The latest payload has been logged. -/
theorem exists_of_latest {l : List (Event F)} {i : Nat} {p : α}
    (h : latest payload l = some (i, p)) : ∃ e ∈ l, payload e = some p ∧ e.iteration = i := by
  obtain ⟨e, he, hp⟩ := List.mem_filterMap.mp (List.mem_of_getLast? h)
  obtain ⟨p', hp', heq⟩ := Option.map_eq_some_iff.mp hp
  cases heq
  exact ⟨e, he, hp', rfl⟩

theorem latestPayloadBeforeOrAt_concat (l : List (Event F)) (e : Event F) (i : Nat) :
    latestPayloadBeforeOrAt payload (l ++ [e]) i =
      if e.iteration ≤ i ∧ (payload e).isSome then payload e
      else latestPayloadBeforeOrAt payload l i := by
  rw [latestPayloadBeforeOrAt, List.foldl_append]
  rfl

/-- What has been logged up to an iteration decides, when nothing of the kind follows before
a later one. -/
theorem latestPayloadBeforeOrAt_append {pre post : List (Event F)} {i : Nat}
    (hpre : ∀ e ∈ pre, e.iteration ≤ i) (hpost : ∀ e ∈ post, payload e ≠ none → i < e.iteration) :
    latestPayloadBeforeOrAt payload (pre ++ post) i = (latest payload pre).map Prod.snd := by
  induction post using List.reverseRecOn with
  | nil =>
    rw [List.append_nil]
    clear hpost
    induction pre using List.reverseRecOn with
    | nil => rfl
    | append_singleton pre e ih =>
      rw [latestPayloadBeforeOrAt_concat]
      have he := hpre e (List.mem_append_right _ List.mem_cons_self)
      cases hp : payload e with
      | none =>
        rw [if_neg (by simp), ih fun e' he' => hpre e' (List.mem_append_left _ he')]
        rw [latest_append (by simpa using hp)]
      | some p =>
        rw [if_pos ⟨he, rfl⟩, latest_concat hp]
        rfl
  | append_singleton post e ih =>
    have hnot : ¬ (e.iteration ≤ i ∧ (payload e).isSome) := by
      rintro ⟨hle, hsome⟩
      have hlt := hpost e (List.mem_append_right _ List.mem_cons_self)
        (Option.isSome_iff_ne_none.mp hsome)
      omega
    rw [← List.append_assoc, latestPayloadBeforeOrAt_concat, if_neg hnot]
    exact ih fun e' he' => hpost e' (List.mem_append_left _ he')

end Latest

/-! ## Attribution -/

variable {s : Setup E M A F}

/-- The event carries a hypothesis or an implementation. -/
def Carries (e : Event F) : Prop := hypothesisPayload e ≠ none ∨ implementationPayload e ≠ none

/-- Statistics that the run to `c` has logged in iteration `i` after `pre` come from what
`pre` has logged last. -/
def AttributedAt (s : Setup E M A F) (c : GovernorConfig E M A F) (pre : List (Event F)) (i : Nat)
    (stats : StatisticalAnalysisResults F) : Prop :=
  (∀ e ∈ pre, e.iteration ≤ i) ∧ ∃ implementation hypothesis,
    latest implementationPayload pre = some (i, implementation) ∧
    latest hypothesisPayload pre = some (i, hypothesis) ∧
    Produced s c pre i implementation hypothesis stats

/-- So do all statistics of a log, and the events of later attacks have later iterations. -/
def Attributed (s : Setup E M A F) (c : GovernorConfig E M A F) (l : List (Event F)) : Prop :=
  ∀ pre e post stats, l = pre ++ e :: post → statsPayload e = some stats →
    AttributedAt s c pre e.iteration stats ∧ ∀ x ∈ post, Carries x → e.iteration < x.iteration

theorem AttributedAt.steps {c c' : GovernorConfig E M A F} {pre : List (Event F)} {i : Nat}
    {stats : StatisticalAnalysisResults F} (h : AttributedAt s c pre i stats)
    (hc : Steps (executeGovernor s) c c') : AttributedAt s c' pre i stats := by
  obtain ⟨hpre, implementation, hypothesis, hi, hh, hproduced⟩ := h
  exact ⟨hpre, implementation, hypothesis, hi, hh, hproduced.mono hc List.prefix_rfl⟩

/-- The run may go on. -/
theorem Attributed.steps {c c' : GovernorConfig E M A F} {l : List (Event F)}
    (h : Attributed s c l) (hc : Steps (executeGovernor s) c c') : Attributed s c' l := by
  intro pre e post stats hsplit hstats
  obtain ⟨hat, hpost⟩ := h pre e post stats hsplit hstats
  exact ⟨hat.steps hc, hpost⟩

variable {c : GovernorConfig E M A F}

theorem attributed_nil : Attributed s c [] := by
  intro pre e post stats h
  simp at h

theorem Attributed.mono {l l' : List (Event F)} (h : Attributed s c l') (hl : l <+: l') :
    Attributed s c l := by
  obtain ⟨rest, rfl⟩ := hl
  intro pre e post stats hsplit hstats
  obtain ⟨hat, hpost⟩ := h pre e (post ++ rest) stats (by rw [hsplit]; simp) hstats
  exact ⟨hat, fun x hx => hpost x (List.mem_append_left _ hx)⟩

theorem Attributed.concat {l : List (Event F)} {e : Event F} (h : Attributed s c l)
    (hold : Carries e → ∀ x ∈ l, statsPayload x ≠ none → x.iteration < e.iteration)
    (hnew : ∀ stats, statsPayload e = some stats → AttributedAt s c l e.iteration stats) :
    Attributed s c (l ++ [e]) := by
  intro pre x post stats hsplit hstats
  obtain rfl | ⟨post, y, rfl⟩ := List.eq_nil_or_concat post
  · obtain ⟨rfl, hx⟩ := List.append_inj' hsplit rfl
    cases hx
    exact ⟨hnew stats hstats, fun y hy => absurd hy List.not_mem_nil⟩
  · have hsplit' : l ++ [e] = (pre ++ x :: post) ++ [y] := by
      rw [hsplit, List.concat_eq_append]
      simp
    obtain ⟨rfl, hy⟩ := List.append_inj' hsplit' rfl
    cases hy
    obtain ⟨hat, hpost⟩ := h pre x post stats rfl hstats
    refine ⟨hat, fun z hz hcarries => ?_⟩
    rw [List.concat_eq_append] at hz
    obtain hz | hz := List.mem_append.mp hz
    · exact hpost z hz hcarries
    · cases List.mem_singleton.mp hz
      exact hold hcarries x (by simp) (by rw [hstats]; exact Option.some_ne_none stats)

/-- Events of other kinds change nothing. -/
theorem Attributed.append_others {l l' : List (Event F)} (h : Attributed s c l)
    (hl : ∀ e ∈ l', ¬ Carries e ∧ statsPayload e = none) : Attributed s c (l ++ l') := by
  induction l' using List.reverseRecOn with
  | nil => rwa [List.append_nil]
  | append_singleton l' e ih =>
    obtain ⟨hcarries, hstats⟩ := hl e (List.mem_append_right _ List.mem_cons_self)
    rw [← List.append_assoc]
    refine (ih fun x hx => hl x (List.mem_append_left _ hx)).concat
      (fun h => absurd h hcarries) fun stats h => ?_
    cases hstats.symm.trans h

/-! ## The log of a run -/

/-- What holds of the log and the context at every moment of a run. -/
structure Tracked (s : Setup E M A F) (c : GovernorConfig E M A F) : Prop where
  attributed : Attributed s c c.context.log
  bounded : ∀ e ∈ c.context.log, e.iteration ≤ c.context.context.iteration
  early : c.queue ≠ [.summarization] → c.queue ≠ [.conclusion] → c.queue ≠ [] →
    ∀ e ∈ c.context.log, statsPayload e ≠ none → e.iteration < c.context.context.iteration
  hypothesis : c.queue ≠ [.hypothesis] → ∀ h, c.context.context.currentHypothesis = some h →
    latest hypothesisPayload c.context.log = some (c.context.context.iteration, h)
  implementation : c.queue ≠ [.hypothesis] → c.queue ≠ [.codeGen] →
    ∀ i, c.context.context.currentImplementation = some i →
      latest implementationPayload c.context.log = some (c.context.context.iteration, i)

theorem bounded_append {l l' : List (Event F)} {n : Nat} (h : ∀ e ∈ l, e.iteration ≤ n)
    (h' : ∀ e ∈ l', e.iteration = n) : ∀ e ∈ l ++ l', e.iteration ≤ n := by
  intro e he
  obtain he | he := List.mem_append.mp he
  · exact h e he
  · exact (h' e he).le

/-- Statistics stay early when none are logged. -/
theorem early_append {l l' : List (Event F)} {n : Nat}
    (h : ∀ e ∈ l, statsPayload e ≠ none → e.iteration < n)
    (h' : ∀ e ∈ l', statsPayload e = none) :
    ∀ e ∈ l ++ l', statsPayload e ≠ none → e.iteration < n := by
  intro e he hstats
  obtain he | he := List.mem_append.mp he
  · exact h e he hstats
  · exact absurd (h' e he) hstats

/-- An event of another kind. -/
theorem other_event {e : Event F} (hhypothesis : hypothesisPayload e = none)
    (himplementation : implementationPayload e = none) (hstats : statsPayload e = none) :
    ¬ Carries e ∧ statsPayload e = none :=
  ⟨fun h => h.elim (fun h => h hhypothesis) fun h => h himplementation, hstats⟩

/-- The simulation logs neither attacks nor statistics. -/
theorem Tracked.simulated {g : Governor E M A F} {c : GovernorConfig E M A F}
    (h : Tracked s ⟨[.simulation], g⟩) (hc : Steps (executeGovernor s) ⟨[.simulation], g⟩ c)
    {l : List (Event F)}
    (hl : ∀ e ∈ l, (¬ Carries e ∧ statsPayload e = none) ∧ e.iteration = g.context.iteration)
    (hlog : c.context.log = g.log ++ l)
    (hiteration : c.context.context.iteration = g.context.iteration)
    (hh : c.context.context.currentHypothesis = g.context.currentHypothesis)
    (hi : c.context.context.currentImplementation = g.context.currentImplementation) :
    Tracked s c where
  attributed := hlog ▸ (h.attributed.steps hc).append_others fun e he => (hl e he).1
  bounded := by
    rw [hlog, hiteration]
    exact bounded_append h.bounded fun e he => (hl e he).2
  early := by
    intro _ _ _
    rw [hlog, hiteration]
    exact early_append (h.early (by simp) (by simp) (by simp)) fun e he => (hl e he).1.2
  hypothesis := by
    intro _ hypothesis heq
    rw [hlog, hiteration, latest_append fun e he => by
      simpa using not_not.mp (not_or.mp (hl e he).1.1).1]
    exact h.hypothesis (by simp) hypothesis (hh ▸ heq)
  implementation := by
    intro _ _ implementation heq
    rw [hlog, hiteration, latest_append fun e he => by
      simpa using not_not.mp (not_or.mp (hl e he).1.1).2]
    exact h.implementation (by simp) (by simp) implementation (hi ▸ heq)

/-- The statistics of the analysis are logged after their attack and hypothesis. -/
theorem Tracked.attributedAt {x : LoopState} {g : Governor E M A F} (h : Tracked s ⟨[x], g⟩)
    (hx : x = .analysis ∨ x = .conclusion) {implementation : Implementation}
    {hypothesis : Hypothesis} {stats : StatisticalAnalysisResults F}
    (hi : g.context.currentImplementation = some implementation)
    (hh : g.context.currentHypothesis = some hypothesis)
    (hproduced :
      Produced s ⟨[x], g⟩ g.log g.context.iteration implementation hypothesis stats) :
    AttributedAt s ⟨[x], g⟩ g.log g.context.iteration stats := by
  have hne : x ≠ .hypothesis ∧ x ≠ .codeGen := by
    obtain rfl | rfl := hx <;> exact ⟨LoopState.noConfusion, LoopState.noConfusion⟩
  refine ⟨h.bounded, implementation, hypothesis, ?_, ?_, hproduced⟩
  · exact h.implementation (by simpa using hne.1) (by simpa using hne.2) implementation hi
  · exact h.hypothesis (by simpa using hne.1) hypothesis hh

/-- Statistics are logged on what has been tracked. -/
theorem Tracked.measured {x : LoopState} {g : Governor E M A F} (h : Tracked s ⟨[x], g⟩)
    (hx : x = .analysis ∨ x = .conclusion) {c : GovernorConfig E M A F}
    (hc : Steps (executeGovernor s) ⟨[x], g⟩ c) {e : Event F}
    (hcarries : ¬ Carries e) (he : e.iteration = g.context.iteration)
    (hnew : ∀ stats, statsPayload e = some stats →
      AttributedAt s ⟨[x], g⟩ g.log g.context.iteration stats)
    (hlog : c.context.log = g.log ++ [e])
    (hq : c.queue = [.summarization] ∨ c.queue = [.conclusion] ∨ c.queue = [])
    (hiteration : c.context.context.iteration = g.context.iteration)
    (hh : c.context.context.currentHypothesis = g.context.currentHypothesis)
    (hi : c.context.context.currentImplementation = g.context.currentImplementation) :
    Tracked s c where
  attributed := by
    rw [hlog]
    exact (h.attributed.steps hc).concat (fun h => absurd h hcarries)
      fun stats hs => he ▸ (hnew stats hs).steps hc
  bounded := by
    rw [hlog, hiteration]
    exact bounded_append h.bounded (by simpa using he)
  early := by
    intro h1 h2 h3
    obtain hq | hq | hq := hq
    · exact absurd hq h1
    · exact absurd hq h2
    · exact absurd hq h3
  hypothesis := by
    intro _ hypothesis heq
    rw [hlog, hiteration, latest_append (by simpa using not_not.mp (not_or.mp hcarries).1)]
    refine h.hypothesis ?_ hypothesis (hh ▸ heq)
    obtain rfl | rfl := hx <;> simp
  implementation := by
    intro _ _ implementation heq
    rw [hlog, hiteration, latest_append (by simpa using not_not.mp (not_or.mp hcarries).2)]
    refine h.implementation ?_ ?_ implementation (hi ▸ heq) <;> obtain rfl | rfl := hx <;> simp

theorem not_carries_toolCalls {i n : Nat} {e : Event F} (he : e ∈ toolCalls i n) :
    (¬ Carries e ∧ statsPayload e = none) ∧ e.iteration = i := by
  obtain rfl := List.eq_of_mem_replicate he
  exact ⟨other_event rfl rfl rfl, rfl⟩

theorem tracked_hypothesis {g : Governor E M A F} {c : GovernorConfig E M A F}
    (h : Tracked s ⟨[.hypothesis], g⟩) (hc : Steps (executeGovernor s) ⟨[.hypothesis], g⟩ c)
    (hmove : Move s g .hypothesis c) : Tracked s c := by
  have hearly := h.early (by simp) (by simp) (by simp)
  cases hmove with
  | hypothesis =>
    refine ⟨(h.attributed.steps hc).concat (fun _ => hearly) ?_,
      bounded_append h.bounded (by simp [Event.iteration]), ?_, ?_, ?_⟩
    · intro stats hs
      cases hs
    · exact fun _ _ _ => early_append hearly (List.forall_mem_singleton.mpr rfl)
    · rintro _ hypothesis rfl
      exact latest_concat rfl
    · intro _ hq
      exact absurd rfl hq

theorem tracked_codeGen {g : Governor E M A F} {c : GovernorConfig E M A F}
    (h : Tracked s ⟨[.codeGen], g⟩) (hc : Steps (executeGovernor s) ⟨[.codeGen], g⟩ c)
    (hmove : Move s g .codeGen c) : Tracked s c := by
  have hearly := h.early (by simp) (by simp) (by simp)
  cases hmove with
  | codeGen =>
    refine ⟨(h.attributed.steps hc).concat (fun _ => hearly) ?_,
      bounded_append h.bounded (by simp [Event.iteration]), ?_, ?_, ?_⟩
    · intro stats hs
      cases hs
    · exact fun _ _ _ => early_append hearly (List.forall_mem_singleton.mpr rfl)
    · intro _ hypothesis hh
      rw [latest_append (by simp [hypothesisPayload])]
      exact h.hypothesis (by simp) hypothesis hh
    · rintro _ _ implementation rfl
      exact latest_concat rfl

theorem tracked_simulation {g : Governor E M A F} {c : GovernorConfig E M A F}
    (h : Tracked s ⟨[.simulation], g⟩) (hc : Steps (executeGovernor s) ⟨[.simulation], g⟩ c)
    (hmove : Move s g .simulation c) : Tracked s c := by
  cases hmove with
  | rejected | failed =>
    refine h.simulated hc (fun e he => ?_) rfl rfl rfl rfl
    obtain rfl | he := List.mem_cons.mp he
    · exact ⟨other_event rfl rfl rfl, rfl⟩
    · obtain rfl := List.mem_singleton.mp he
      exact ⟨other_event rfl rfl rfl, rfl⟩
  | deployed =>
    refine h.simulated hc (fun e he => ?_) rfl rfl rfl rfl
    obtain rfl := List.mem_singleton.mp he
    exact ⟨other_event rfl rfl rfl, rfl⟩

theorem tracked_analysis {g : Governor E M A F} {c : GovernorConfig E M A F}
    (hg : Reachable s ⟨[.analysis], g⟩) (h : Tracked s ⟨[.analysis], g⟩)
    (hc : Steps (executeGovernor s) ⟨[.analysis], g⟩ c) (hmove : Move s g .analysis c) :
    Tracked s c := by
  have hcarries (i : Nat) (stats : StatisticalAnalysisResults F) :
      ¬ Carries (.analysis i stats) := fun h => h.elim (fun h => h rfl) fun h => h rfl
  cases hmove with
  | analysed ht hs hn =>
    obtain ⟨implementation, hypothesis, hi, hh, hproduced⟩ := produced_analysis hg rfl ht hs
    refine h.measured (.inl rfl) hc (hcarries _ _) rfl (fun stats heq => ?_) rfl (.inl rfl) rfl rfl
      rfl
    cases heq
    exact h.attributedAt (.inl rfl) hi hh hproduced
  | significant ht hs hn =>
    obtain ⟨implementation, hypothesis, hi, hh, hproduced⟩ := produced_analysis hg rfl ht hs
    refine h.measured (.inl rfl) hc (hcarries _ _) rfl (fun stats heq => ?_) rfl (.inr (.inl rfl))
      rfl rfl rfl
    cases heq
    exact h.attributedAt (.inl rfl) hi hh hproduced

theorem tracked_conclusion {g : Governor E M A F} {c : GovernorConfig E M A F}
    (hg : Reachable s ⟨[.conclusion], g⟩) (h : Tracked s ⟨[.conclusion], g⟩)
    (hc : Steps (executeGovernor s) ⟨[.conclusion], g⟩ c) (hmove : Move s g .conclusion c) :
    Tracked s c := by
  obtain ⟨implementation, hypothesis, stats, hi, hh, hs, hproduced⟩ := produced_conclusion hg rfl
  cases hmove with
  | concluded =>
    refine h.measured (.inr rfl) hc (e := .conclusion _ _)
      (fun h => h.elim (fun h => h rfl) fun h => h rfl) rfl (fun stats' heq => ?_) rfl
      (.inr (.inr rfl)) rfl rfl rfl
    cases hs.symm.trans heq
    exact h.attributedAt (.inr rfl) hi hh hproduced

theorem tracked_summarization {g : Governor E M A F} {c : GovernorConfig E M A F}
    (h : Tracked s ⟨[.summarization], g⟩) (hc : Steps (executeGovernor s) ⟨[.summarization], g⟩ c)
    (hmove : Move s g .summarization c) : Tracked s c := by
  cases hmove with
  | @summarized _ summarization _ n =>
    have hothers : ∀ e : Event F, e ∈ toolCalls g.context.iteration n ++
        [.summarization g.context.iteration summarization] →
        (¬ Carries e ∧ statsPayload e = none) ∧ e.iteration = g.context.iteration := by
      intro e he
      obtain he | he := List.mem_append.mp he
      · exact not_carries_toolCalls he
      · obtain rfl := List.mem_singleton.mp he
        exact ⟨other_event rfl rfl rfl, rfl⟩
    have hbounded : ∀ e ∈ g.log ++ toolCalls g.context.iteration n ++
        [.summarization g.context.iteration summarization],
        e.iteration ≤ g.context.iteration := by
      rw [List.append_assoc]
      exact bounded_append h.bounded fun e he => (hothers e he).2
    refine ⟨?_, fun e he => (hbounded e he).trans (Nat.le_succ _), ?_, ?_, ?_⟩
    · have hlogged := (h.attributed.steps hc).append_others fun e he => (hothers e he).1
      rw [← List.append_assoc] at hlogged
      exact hlogged
    · intro _ _ _ e he _
      exact Nat.lt_succ_of_le (hbounded e he)
    · intro hq
      exact absurd rfl hq
    · intro hq
      exact absurd rfl hq

theorem tracked_start (world : World E M) (agents : A) :
    Tracked s (governorStart (F := F) world agents) where
  attributed := attributed_nil
  bounded := fun _ he => absurd he List.not_mem_nil
  early := fun _ _ _ _ he => absurd he List.not_mem_nil
  hypothesis := fun hq => absurd rfl hq
  implementation := fun hq => absurd rfl hq

theorem tracked_of_reachable {c : GovernorConfig E M A F} (h : Reachable s c) : Tracked s c := by
  refine governor_step_invariant (I := Tracked s) (fun world agents => tracked_start world agents)
    ?_ h
  intro x g c hg h hstep hmove
  have hc : Steps (executeGovernor s) ⟨[x], g⟩ c := .single hstep
  cases x with
  | hypothesis => exact tracked_hypothesis h hc hmove
  | codeGen => exact tracked_codeGen h hc hmove
  | simulation => exact tracked_simulation h hc hmove
  | analysis => exact tracked_analysis hg h hc hmove
  | summarization => exact tracked_summarization h hc hmove
  | conclusion => exact tracked_conclusion hg h hc hmove

theorem attributed_of_logAt {l : List (Event F)} (hc : Reachable s c) (h : LogAt s c l) :
    Attributed s c l := by
  obtain hl | ⟨e, he, hl⟩ := h
  · exact (tracked_of_reachable hc).attributed.mono hl
  obtain ⟨x, n, -, hlog, -, -⟩ := hc.exists_raised he
  refine Attributed.mono ?_ hl
  rw [hlog]
  exact (tracked_of_reachable hc).attributed.append_others fun e he => (not_carries_toolCalls he).1

theorem mem_of_findFinalStatsEvent {l : List (Event F)} {e : Event F}
    (h : findFinalStatsEvent l = some e) : e ∈ l := by
  unfold findFinalStatsEvent at h
  split at h
  · next hfind =>
    cases h
    exact List.mem_reverse.mp (List.mem_of_find?_eq_some hfind)
  · exact List.mem_reverse.mp (List.mem_of_find?_eq_some h)

theorem not_carries_of_statsPayload {e : Event F} {stats : StatisticalAnalysisResults F}
    (h : statsPayload e = some stats) :
    hypothesisPayload e = none ∧ implementationPayload e = none := by
  cases e <;> first | exact ⟨rfl, rfl⟩ | cases h

theorem eq_hypothesis {e : Event F} {hypothesis : Hypothesis}
    (h : hypothesisPayload e = some hypothesis) :
    e = .hypothesis e.iteration (some hypothesis) := by
  cases e <;> cases h
  rfl

theorem eq_implementation {e : Event F} {implementation : Implementation}
    (h : implementationPayload e = some implementation) :
    e = .implementation e.iteration (some implementation) := by
  cases e <;> cases h
  rfl

/-- The event that the section finds carries statistics: a run concludes with those of an
analysis. -/
theorem exists_statsPayload {l : List (Event F)} (h : LogOf s l) {e : Event F}
    (he : findFinalStatsEvent l = some e) : ∃ stats, statsPayload e = some stats := by
  have hmem := mem_of_findFinalStatsEvent he
  obtain ⟨pre, tail, rfl, hpre, htail⟩ := early_stopping h
  cases e with
  | analysis i stats => exact ⟨stats, rfl⟩
  | conclusion i payload =>
    obtain hmem | hmem := List.mem_append.mp hmem
    · cases hpre _ hmem
    obtain rfl | ⟨j, stats, -, hverdict⟩ := htail
    · cases hmem
    · obtain hmem | hmem := List.mem_cons.mp (hverdict.subset hmem)
      · cases hmem
      · cases List.mem_singleton.mp hmem
        exact ⟨stats, rfl⟩
  | _ =>
    unfold findFinalStatsEvent at he
    split at he
    · next hfind =>
      cases he
      cases List.find?_some hfind
    · cases List.find?_some he

/-- What the section shows of statistics in the log of a run. -/
theorem finalVerification_eq {l : List (Event F)} (hc : Reachable s c) (h : LogAt s c l)
    {e : Event F} (he : findFinalStatsEvent l = some e) {stats : StatisticalAnalysisResults F}
    (hstats : statsPayload e = some stats) :
    ∃ implementation hypothesis,
      finalVerification l = some ⟨e.iteration, stats, some hypothesis, some implementation⟩ ∧
      Event.implementation e.iteration (some implementation) ∈ l ∧
      Event.hypothesis e.iteration (some hypothesis) ∈ l ∧
      Produced s c l e.iteration implementation hypothesis stats := by
  have hmem := mem_of_findFinalStatsEvent he
  obtain ⟨pre, post, rfl⟩ := List.append_of_mem hmem
  obtain ⟨⟨hpre, implementation, hypothesis, hi, hh, hproduced⟩, hpost⟩ :=
    attributed_of_logAt hc h pre e post stats rfl hstats
  obtain ⟨heh, hei⟩ := not_carries_of_statsPayload hstats
  have hlatestImplementation : latestPayloadBeforeOrAt implementationPayload
      (pre ++ e :: post) e.iteration = some implementation := by
    rw [latestPayloadBeforeOrAt_append hpre, hi, Option.map_some]
    intro x hx hne
    obtain rfl | hx := List.mem_cons.mp hx
    · exact absurd hei hne
    · exact hpost x hx (.inr hne)
  have hlatestHypothesis : latestPayloadBeforeOrAt hypothesisPayload
      (pre ++ e :: post) e.iteration = some hypothesis := by
    rw [latestPayloadBeforeOrAt_append hpre, hh, Option.map_some]
    intro x hx hne
    obtain rfl | hx := List.mem_cons.mp hx
    · exact absurd heh hne
    · exact hpost x hx (.inl hne)
  obtain ⟨x, hx, hpayload, hiteration⟩ := exists_of_latest hi
  obtain ⟨y, hy, hpayload', hiteration'⟩ := exists_of_latest hh
  refine ⟨implementation, hypothesis, ?_, ?_, ?_, hproduced.mono .refl (List.prefix_append _ _)⟩
  · simp only [finalVerification, he, hstats, Option.bind_eq_bind, Option.bind_some,
      hlatestImplementation, hlatestHypothesis]
    rfl
  · rw [eq_implementation hpayload, hiteration] at hx
    exact List.mem_append_left _ hx
  · rw [eq_hypothesis hpayload', hiteration'] at hy
    exact List.mem_append_left _ hy

theorem attackCode_shown (implementation : Implementation) :
    implementation.attackCode <:+: formatImplementation implementation := by
  unfold formatImplementation
  exact List.infix_append _ _ _

theorem hypothesis_shown (hypothesis : Hypothesis) :
    hypothesis.hypothesis <:+: formatHypothesis hypothesis := by
  unfold formatHypothesis
  have hprefix {a b c d e : Text} : a <+: a ++ b ++ c ++ d ++ e := by
    simp only [List.append_assoc, List.prefix_append]
  exact (List.suffix_append _ _).isInfix.trans hprefix.isInfix

theorem runConfiguration_shown (hypothesis : Hypothesis) :
    formatRunConfiguration hypothesis.runConfiguration <:+: formatHypothesis hypothesis := by
  unfold formatHypothesis
  exact (List.suffix_append _ _).isInfix

/-- A line is part of the text. -/
theorem infix_joinLines {line : Text} {lines : List Text} (h : line ∈ lines) :
    line <:+: joinLines lines := by
  induction lines with
  | nil => cases h
  | cons first rest ih =>
    obtain rfl | h := List.mem_cons.mp h
    · cases rest with
      | nil => simp [joinLines]
      | cons second rest => exact ⟨[], _, by simp [joinLines, List.intercalate_cons_cons]; rfl⟩
    · obtain ⟨second, rest, rfl⟩ := List.exists_cons_of_ne_nil (List.ne_nil_of_mem h)
      refine (ih h).trans ⟨first ++ "\n".toList, [], ?_⟩
      simp [joinLines, List.intercalate_cons_cons]

/-- **Attribution.** Whenever the section finds an event with statistics in the log of a run,
its text shows these statistics, and with them the hypothesis and the implementation that the
run has logged in the same iteration and from whose deployment they come. -/
theorem finalVerification_attributed (format : StatsFormat F) {l : List (Event F)}
    (hc : Reachable s c) (h : LogAt s c l) {e : Event F} (he : findFinalStatsEvent l = some e) :
    ∃ stats implementation hypothesis, statsPayload e = some stats ∧ e ∈ l ∧
      body format l = joinLines
        ["Final statistics are from iteration `".toList ++ (toString e.iteration).toList ++
            "`.".toList, [], "## Final Scores".toList, [],
          "- Global score: `".toList ++ format.score stats.globalScore ++ "`".toList,
          "- Iteration score: `".toList ++ format.score stats.iterationScore ++ "`".toList, [],
          "## Final Hypothesis".toList, [], formatHypothesis hypothesis, [],
          "## Final Implementation".toList, [], formatImplementation implementation, [],
          "## Final Statistics".toList, [], format.stats stats] ∧
      implementation.attackCode <:+: body format l ∧ hypothesis.hypothesis <:+: body format l ∧
      formatRunConfiguration hypothesis.runConfiguration <:+: body format l ∧
      Event.implementation e.iteration (some implementation) ∈ l ∧
      Event.hypothesis e.iteration (some hypothesis) ∈ l ∧
      Produced s c l e.iteration implementation hypothesis stats := by
  obtain ⟨stats, hstats⟩ := exists_statsPayload ⟨c, hc, h⟩ he
  obtain ⟨implementation, hypothesis, hshown, hi, hh, hproduced⟩ :=
    finalVerification_eq hc h he hstats
  have hbody : body format l = FinalVerification.render format
      ⟨e.iteration, stats, some hypothesis, some implementation⟩ := by
    rw [body, hshown]
  have himplementation : formatImplementation implementation <:+: body format l := by
    rw [hbody, FinalVerification.render]
    exact infix_joinLines (by simp)
  have hhypothesis : formatHypothesis hypothesis <:+: body format l := by
    rw [hbody, FinalVerification.render]
    exact infix_joinLines (by simp)
  refine ⟨stats, implementation, hypothesis, hstats, mem_of_findFinalStatsEvent he, ?_,
    (attackCode_shown implementation).trans himplementation,
    (hypothesis_shown hypothesis).trans hhypothesis,
    (runConfiguration_shown hypothesis).trans hhypothesis, hi, hh, hproduced⟩
  rw [hbody]
  simp only [FinalVerification.render, List.cons_append, List.nil_append]

/-- A format under which every score and all statistics print as nothing. -/
def unitFormat : StatsFormat Unit := ⟨fun _ => [], fun _ => []⟩

set_option maxRecDepth 10000 in
theorem finalVerification_attributed_oneTrial :
    ∃ c e stats implementation hypothesis,
      Reachable (scriptedSetup 1 true fun _ => measured) c ∧
      findFinalStatsEvent c.context.log = some e ∧ statsPayload e = some stats ∧
      implementation.attackCode <:+: body unitFormat c.context.log ∧
      Event.implementation e.iteration (some implementation) ∈ c.context.log ∧
      Produced (scriptedSetup 1 true fun _ => measured) c c.context.log e.iteration implementation
        hypothesis stats := by
  obtain ⟨c, hc, hrun, -⟩ := exists_reachable_measured true
  have hfound : ((measuredRun true).bind fun c => findFinalStatsEvent c.context.log).isSome =
      true := by
    decide +kernel
  rw [hrun, Option.bind_some] at hfound
  obtain ⟨e, he⟩ := Option.isSome_iff_exists.mp hfound
  obtain ⟨stats, implementation, hypothesis, hstats, -, -, hcode, -, -, hi, -, hproduced⟩ :=
    finalVerification_attributed unitFormat hc (.inl List.prefix_rfl) he
  exact ⟨c, e, stats, implementation, hypothesis, hc, he, hstats, hcode, hi, hproduced⟩

end MicroSampler.Reporting
