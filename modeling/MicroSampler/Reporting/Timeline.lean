import MicroSampler.Agents.Feedback
import MicroSampler.Library.Dict
import MicroSampler.Reporting.FinalVerification

/-!
# The timeline section

The section of the report that goes through the log, iteration by iteration. The words that it
has for a deployment say that the simulation completed.

* `rendered_body`: every event is rendered once, under its iteration and in the order of the
  log.
* `tellsOutcomes_iff`: in the log of a run the words are right when no deployment ended with an
  error, and only then.
-/

namespace MicroSampler.Reporting

open StateQueue Simulation Statistics Agents

variable {E M A F : Type}

/-! ## Events in the report -/

/-- An event with the time at which it was created. -/
structure Stamped (F : Type) where
  timestamp : Text
  event : Event F

/-- The payload, if it is a `Summarization`. -/
def summarizationPayload : Event F → Option Summarization
  | .summarization _ payload => payload
  | _ => none

/-- `event.state` of a `QSMReportEvent`. -/
def stateOf : Event F → Option LoopState
  | .toolCall _ _ => none
  | .hypothesis _ _ => some .hypothesis
  | .implementation _ _ | .implementationError _ _ => some .codeGen
  | .simulationDeployment _ | .simulationError _ _ => some .simulation
  | .analysis _ _ => some .analysis
  | .summarization _ _ => some .summarization
  | .conclusion _ _ => some .conclusion

/-- `event.kind`. -/
def kind : Event F → Text
  | .toolCall _ _ => "tool".toList
  | .implementationError _ _ => "build_error".toList
  | .simulationDeployment _ => "deployment".toList
  | .simulationError _ _ => "error".toList
  | _ => "output".toList

/-- `state.name.title()`. -/
def title : LoopState → Text
  | .hypothesis => "Hypothesis".toList
  | .codeGen => "Code_Gen".toList
  | .simulation => "Simulation".toList
  | .analysis => "Analysis".toList
  | .summarization => "Summarization".toList
  | .conclusion => "Conclusion".toList

/-- `str(payload)` of the payloads that are not answers or statistics. -/
def payloadText : Event F → Text
  | .toolCall _ name => name
  | .implementationError _ payload | .simulationError _ payload => message payload
  | _ => "None".toList

/-! ## The section -/

/-- `_code_block` without a language. -/
def codeBlock (body : Text) : Text := "```\n".toList ++ body ++ "\n```".toList

/-- `_format_summary`. -/
def formatSummary (summary : Summarization) : Text :=
  "**Description**\n\n".toList ++ summary.description ++
    "\n\n**Suggestion**\n\n".toList ++ summary.suggestion ++
    "\n\n**Failure Reason**\n\n".toList ++ summary.failureReason ++
    "\n\n**Bugs**\n\n".toList ++ formatItems summary.bugs

/-- The first lines of `_format_event`. -/
def eventHeader (x : Stamped F) : Text :=
  "### ".toList ++
    (match stateOf x.event with
      | some state => title state ++ " - ".toList
      | none => []) ++
    kind x.event ++ " (".toList ++ x.timestamp ++ ")".toList

def completedText : Text :=
  "\n\nSimulation completed and produced output for analysis.".toList

/-- The part of `_format_event` for events without an answer or statistics. -/
def formatKind (event : Event F) : Text :=
  match event with
  | .implementationError _ _ =>
    "\n\nImplementation did not build or failed code validation.\n\n".toList ++
      codeBlock (payloadText event)
  | .simulationError _ _ =>
    "\n\nSimulation failed before analysis.\n\n".toList ++ codeBlock (payloadText event)
  | _ =>
    if stateOf event = some .simulation ∧ kind event = "deployment".toList then completedText
    else if stateOf event = some .conclusion then "\n\nStopping threshold reached.".toList
    else "\n\n".toList ++ payloadText event

/-- The answer or the statistics of an event. -/
def formatPayload (format : StatsFormat F) (event : Event F) : Option Text :=
  (hypothesisPayload event).map formatHypothesis <|>
    (implementationPayload event).map formatImplementation <|>
    (statsPayload event).map format.stats <|>
    (summarizationPayload event).map formatSummary

/-- `TimelineSection._format_event`. -/
def formatEvent (format : StatsFormat F) (x : Stamped F) : Text :=
  eventHeader x ++
    match formatPayload format x.event with
    | some text => "\n\n".toList ++ text
    | none => formatKind x.event

def iterationHeader (iteration : Nat) : Text :=
  "## Iteration ".toList ++ (toString iteration).toList

/-- The events of each iteration, in the order of the log. -/
def byIteration (events : List (Stamped F)) : Dict Nat (List (Stamped F)) :=
  Dict.groups (fun x => x.event.iteration) events

/-- `TimelineSection.body`. -/
def timelineBody (format : StatsFormat F) (events : List (Stamped F)) : Text :=
  if events = [] then "No report events were recorded.".toList
  else
    let sections := ((byIteration events).keys.mergeSort (· ≤ ·)).flatMap fun iteration =>
      iterationHeader iteration ::
        (((byIteration events).get? iteration).getD []).map (formatEvent format)
    List.intercalate "\n\n".toList sections

/-! ## Every event once -/

/-- Every event is rendered once: the iterations ascend, and each has its events in the order
of the log. -/
def Rendered (format : StatsFormat F) (l : List (Stamped F)) : Prop :=
  ∃ iterations : List Nat, iterations.Pairwise (· < ·) ∧
    (iterations.flatMap fun i => l.filter fun x => x.event.iteration = i).Perm l ∧
    (l ≠ [] → timelineBody format l = List.intercalate "\n\n".toList
      (iterations.flatMap fun i => iterationHeader i ::
        (l.filter fun x => x.event.iteration = i).map (formatEvent format)))

theorem rendered_body (format : StatsFormat F) (l : List (Stamped F)) : Rendered format l := by
  have hperm := List.mergeSort_perm (byIteration l).keys (· ≤ ·)
  have hnodup := hperm.nodup_iff.mpr (byIteration l).nodup_keys
  refine ⟨(byIteration l).keys.mergeSort (· ≤ ·), ?_, ?_, fun hl => ?_⟩
  · have htrans : ∀ a b c : Nat, decide (a ≤ b) = true → decide (b ≤ c) = true →
        decide (a ≤ c) = true := by
      simp only [decide_eq_true_eq]
      omega
    have htotal : ∀ a b : Nat, (decide (a ≤ b) || decide (b ≤ a)) = true := by
      simp only [Bool.or_eq_true, decide_eq_true_eq]
      omega
    have hsorted := List.pairwise_mergeSort htrans htotal (byIteration l).keys
    refine (hsorted.and hnodup).imp ?_
    intro a b h
    exact lt_of_le_of_ne (of_decide_eq_true h.1) h.2
  · apply Dict.flatMap_filter_perm hnodup
    intro x hx
    rw [hperm.mem_iff, byIteration, Dict.mem_keys_groups]
    exact List.mem_map_of_mem hx
  · rw [timelineBody, if_neg hl]
    simp only [byIteration, Dict.getD_groups]

/-! ## What is said of a deployment -/

/-- The event is rendered with the words for a simulation that completed. -/
def SaysCompleted (format : StatsFormat F) (x : Stamped F) : Prop :=
  formatEvent format x = eventHeader x ++ completedText

def isDeployment : Event F → Bool
  | .simulationDeployment _ => true
  | _ => false

/-- An `ImplementationErrorEvent` or a `SimulationErrorEvent`. -/
def isError : Event F → Bool
  | .implementationError _ _ | .simulationError _ _ => true
  | _ => false

/-- Every deployment is rendered so. -/
theorem saysCompleted_deployment (format : StatsFormat F) {x : Stamped F}
    (h : isDeployment x.event = true) : SaysCompleted format x := by
  obtain ⟨timestamp, event⟩ := x
  cases event with
  | simulationDeployment i => rfl
  | _ => cases h

example (format : StatsFormat F) :
    formatEvent format ⟨"10:02".toList, .simulationDeployment 1⟩ =
      ("### Simulation - deployment (10:02)\n\n" ++
        "Simulation completed and produced output for analysis.").toList := by
  rfl

/-- What is logged after a deployment and before the next. -/
def restOfAttempt (post : List (Event F)) : List (Event F) :=
  post.takeWhile fun e => !isDeployment e

/-- An analysis of the attempt follows. -/
def Analysed (i : Nat) (post : List (Event F)) : Prop :=
  ∃ e ∈ restOfAttempt post, isAnalysis e = true ∧ e.iteration = i

/-- The timeline tells the failed attempts of a log from the others. -/
structure TellsOutcomes (format : StatsFormat F) (l : List (Stamped F)) : Prop where
  rendered : Rendered format l
  completed : ∀ pre x post, l = pre ++ x :: post → isDeployment x.event = true →
    (SaysCompleted format x ↔ Analysed x.event.iteration (post.map Stamped.event))
  failed : ∀ pre x post, l = pre ++ x :: post → isDeployment x.event = true →
    (∃ e ∈ restOfAttempt (post.map Stamped.event), isError e = true) → ¬ SaysCompleted format x

/-- Every deployment of the log has been analysed. -/
def AllAnalysed (l : List (Event F)) : Prop :=
  ∀ pre e post, l = pre ++ e :: post → isDeployment e = true → Analysed e.iteration post

theorem TellsOutcomes.allAnalysed {format : StatsFormat F} {l : List (Stamped F)}
    (h : TellsOutcomes format l) : AllAnalysed (l.map Stamped.event) := by
  intro pre e post hl he
  obtain ⟨pre, rest, rfl, rfl, hrest⟩ := List.map_eq_append_iff.mp hl
  obtain ⟨x, post, rfl, rfl, rfl⟩ := List.map_eq_cons_iff.mp hrest
  exact (h.completed pre x post rfl he).mp (saysCompleted_deployment format he)

theorem tellsOutcomes_of_allAnalysed (format : StatsFormat F) {l : List (Stamped F)}
    (h : AllAnalysed (l.map Stamped.event)) (hno : ∀ e ∈ l.map Stamped.event, isError e = false) :
    TellsOutcomes format l where
  rendered := rendered_body format l
  completed := by
    intro pre x post hl hx
    refine iff_of_true (saysCompleted_deployment format hx) ?_
    exact h (pre.map Stamped.event) x.event (post.map Stamped.event) (by simp [hl]) hx
  failed := by
    rintro pre x post rfl hx ⟨e, he, herror⟩
    have hmem : e ∈ (pre ++ x :: post).map Stamped.event := by
      rw [List.map_append, List.map_cons]
      exact List.mem_append_right _ (List.mem_cons_of_mem _ ((List.takeWhile_prefix _).subset he))
    exact absurd herror (Bool.eq_false_iff.mp (hno e hmem))

/-! ## The outcomes in a log -/

theorem analysed_cons {i : Nat} {e : Event F} {post : List (Event F)} :
    Analysed i (e :: post) ↔
      isDeployment e = false ∧ ((isAnalysis e = true ∧ e.iteration = i) ∨ Analysed i post) := by
  rw [Analysed, restOfAttempt, List.takeWhile_cons]
  cases hd : isDeployment e with
  | true => simp
  | false => simp [Analysed, restOfAttempt]

theorem not_analysed_nil (i : Nat) : ¬ Analysed i ([] : List (Event F)) := by
  simp [Analysed, restOfAttempt]

theorem analysed_concat {i : Nat} {e : Event F} (ha : isAnalysis e = false)
    (post : List (Event F)) : Analysed i (post ++ [e]) ↔ Analysed i post := by
  induction post with
  | nil => simp [analysed_cons, not_analysed_nil, ha]
  | cons x post ih => rw [List.cons_append, analysed_cons, analysed_cons, ih]

/-- The next deployment ends the attempt. -/
theorem analysed_append_deployment (i j : Nat) (post rest : List (Event F)) :
    Analysed i (post ++ .simulationDeployment j :: rest) ↔ Analysed i post := by
  induction post with
  | nil => simp [analysed_cons, not_analysed_nil, isDeployment]
  | cons x post ih => rw [List.cons_append, analysed_cons, analysed_cons, ih]

theorem allAnalysed_cons {e : Event F} {l : List (Event F)} :
    AllAnalysed (e :: l) ↔ (isDeployment e = true → Analysed e.iteration l) ∧ AllAnalysed l := by
  constructor
  · intro h
    refine ⟨h [] e l rfl, fun pre x post hl => ?_⟩
    exact h (e :: pre) x post (by rw [hl, List.cons_append])
  · rintro ⟨he, hl⟩ pre x post hsplit
    cases pre with
    | nil =>
      cases hsplit
      exact he
    | cons y pre =>
      cases hsplit
      exact hl pre x post rfl

theorem allAnalysed_nil : AllAnalysed ([] : List (Event F)) := by
  intro pre e post h
  simp at h

theorem allAnalysed_concat {e : Event F} (hd : isDeployment e = false) (ha : isAnalysis e = false)
    (l : List (Event F)) : AllAnalysed (l ++ [e]) ↔ AllAnalysed l := by
  induction l with
  | nil => simp [allAnalysed_cons, allAnalysed_nil, hd]
  | cons x l ih => rw [List.cons_append, allAnalysed_cons, allAnalysed_cons, analysed_concat ha, ih]

theorem allAnalysed_append_deployment (i : Nat) (l rest : List (Event F)) :
    AllAnalysed (l ++ .simulationDeployment i :: rest) ↔
      AllAnalysed l ∧ Analysed i rest ∧ AllAnalysed rest := by
  induction l with
  | nil => simp [allAnalysed_cons, allAnalysed_nil, isDeployment, Event.iteration]
  | cons x l ih =>
    rw [List.cons_append, allAnalysed_cons, allAnalysed_cons, analysed_append_deployment, ih,
      and_assoc]

/-- Each deployment in the log is followed at once by what came of it. -/
inductive Reported : List (Event F) → Prop
  | nil : Reported []
  | other {l : List (Event F)} {e : Event F} (h : Reported l) (hd : isDeployment e = false)
    (ha : isAnalysis e = false) (he : isError e = false) : Reported (l ++ [e])
  | attempt {l : List (Event F)} {i : Nat} {e : Event F} (h : Reported l)
    (hi : e.iteration = i) (he : isAnalysis e = true ∨ isError e = true) :
    Reported (l ++ [.simulationDeployment i, e])

/-- The one event after a deployment is the analysis, or an error. -/
theorem allAnalysed_outcome {e : Event F} (he : isAnalysis e = true ∨ isError e = true) :
    Analysed e.iteration [e] ∧ AllAnalysed [e] ↔ isError e = false := by
  cases e with
  | analysis | implementationError | simulationError =>
    simp [analysed_cons, allAnalysed_cons, not_analysed_nil, allAnalysed_nil, isDeployment,
      isAnalysis, isError]
  | _ => simp [isAnalysis, isError] at he

theorem Reported.allAnalysed_iff {l : List (Event F)} (h : Reported l) :
    AllAnalysed l ↔ ∀ e ∈ l, isError e = false := by
  induction h with
  | nil => simp [allAnalysed_nil]
  | other _ hd ha he ih =>
    rw [allAnalysed_concat hd ha, ih]
    simp [or_imp, forall_and, he]
  | @attempt l i e _ hi he ih =>
    rw [allAnalysed_append_deployment, ih, ← hi, allAnalysed_outcome he]
    simp [or_imp, forall_and, isError]

theorem Reported.append_toolCalls {l : List (Event F)} (h : Reported l) (i n : Nat) :
    Reported (l ++ toolCalls i n) := by
  induction n with
  | zero => rwa [toolCalls, List.replicate_zero, List.append_nil]
  | succ n ih =>
    rw [toolCalls, List.replicate_succ', ← List.append_assoc]
    exact .other ih rfl rfl rfl

/-! ## The log of a run -/

variable {s : Setup E M A F}

/-- The deployment of the configuration ended with the error. -/
def FailedWith (s : Setup E M A F) (b : GovernorConfig E M A F) (e : DeploymentError) : Prop :=
  ∃ implementation hypothesis d, Simulated s b implementation hypothesis d (some e)

/-- What the log says of the deployments that a run has made. -/
structure Recorded (s : Setup E M A F) (past : List (GovernorConfig E M A F))
    (c : GovernorConfig E M A F) : Prop where
  reported : c.queue ≠ [.analysis] → Reported c.context.log
  pending : c.queue = [.analysis] → ∃ l, Reported l ∧
    c.context.log = l ++ [.simulationDeployment c.context.context.iteration]
  errors : (∃ e ∈ c.context.log, isError e = true) ↔ ∃ b ∈ past, ∃ e, FailedWith s b e

/-- A round without an error. -/
theorem errors_append {log l : List (Event F)} {past : List (GovernorConfig E M A F)}
    {b : GovernorConfig E M A F}
    (h : (∃ e ∈ log, isError e = true) ↔ ∃ b ∈ past, ∃ e, FailedWith s b e)
    (hl : ∀ e ∈ l, isError e = false) (hb : ∀ e, ¬ FailedWith s b e) :
    (∃ e ∈ log ++ l, isError e = true) ↔ ∃ b' ∈ past ++ [b], ∃ e, FailedWith s b' e := by
  constructor
  · rintro ⟨e, he, herror⟩
    obtain he | he := List.mem_append.mp he
    · obtain ⟨b', hb', hfailed⟩ := h.mp ⟨e, he, herror⟩
      exact ⟨b', List.mem_append_left _ hb', hfailed⟩
    · exact absurd herror (Bool.eq_false_iff.mp (hl e he))
  · rintro ⟨b', hb', e, hfailed⟩
    obtain hb' | hb' := List.mem_append.mp hb'
    · obtain ⟨e', he', herror⟩ := h.mpr ⟨b', hb', e, hfailed⟩
      exact ⟨e', List.mem_append_left _ he', herror⟩
    · rw [List.mem_singleton.mp hb'] at hfailed
      exact absurd hfailed (hb e)

theorem not_failedWith {x : LoopState} {g : Governor E M A F} (hx : x ≠ .simulation)
    (e : DeploymentError) : ¬ FailedWith s ⟨[x], g⟩ e := by
  rintro ⟨implementation, hypothesis, d, h⟩
  exact hx (List.singleton_injective h.queue)

/-- A deployment that ended with an error. -/
theorem errors_attempt {log : List (Event F)} {past : List (GovernorConfig E M A F)}
    {b : GovernorConfig E M A F} {d e : Event F} {error : DeploymentError}
    (he : isError e = true) (hb : FailedWith s b error) :
    (∃ x ∈ log ++ [d, e], isError x = true) ↔ ∃ b' ∈ past ++ [b], ∃ e, FailedWith s b' e := by
  refine iff_of_true ⟨e, ?_, he⟩ ⟨b, ?_, error, hb⟩
  · exact List.mem_append_right _ (List.mem_cons_of_mem _ List.mem_cons_self)
  · exact List.mem_append_right _ List.mem_cons_self

theorem append_toolCalls_zero (log l : List (Event F)) (i : Nat) :
    log ++ l = log ++ toolCalls i 0 ++ l := by
  rw [toolCalls, List.replicate_zero, List.append_nil]

/-- Logging an event that is no outcome. -/
theorem Recorded.logged {past : List (GovernorConfig E M A F)} {x : LoopState}
    {g : Governor E M A F} {c : GovernorConfig E M A F} (h : Recorded s past ⟨[x], g⟩)
    (hx : x ≠ .simulation) (hx' : x ≠ .analysis) {n : Nat} {e : Event F}
    (hlog : c.context.log = g.log ++ toolCalls g.context.iteration n ++ [e])
    (hq : c.queue ≠ [.analysis])
    (hd : isDeployment e = false) (ha : isAnalysis e = false) (he : isError e = false) :
    Recorded s (past ++ [⟨[x], g⟩]) c where
  reported := by
    intro _
    rw [hlog]
    exact .other ((h.reported (by simpa using hx')).append_toolCalls _ _) hd ha he
  pending := fun h => absurd h hq
  errors := by
    rw [hlog, List.append_assoc]
    refine errors_append h.errors ?_ (not_failedWith hx)
    intro y hy
    obtain hy | hy := List.mem_append.mp hy
    · rw [List.eq_of_mem_replicate hy]
      rfl
    · rwa [List.mem_singleton.mp hy]

/-- The analysis ends an attempt. -/
theorem Recorded.analysed {past : List (GovernorConfig E M A F)} {g : Governor E M A F}
    {c : GovernorConfig E M A F} (h : Recorded s past ⟨[.analysis], g⟩)
    {stats : StatisticalAnalysisResults F}
    (hlog : c.context.log = g.log ++ [.analysis g.context.iteration stats])
    (hq : c.queue ≠ [.analysis]) : Recorded s (past ++ [⟨[.analysis], g⟩]) c where
  reported := by
    intro _
    obtain ⟨l, hl, hg⟩ := h.pending rfl
    rw [hlog, hg, List.append_assoc]
    exact .attempt hl rfl (.inl rfl)
  pending := fun h => absurd h hq
  errors := by
    rw [hlog]
    refine errors_append h.errors ?_ (not_failedWith LoopState.noConfusion)
    intro e he
    rw [List.mem_singleton.mp he]
    rfl

/-- One round. -/
theorem recorded_of_move {past : List (GovernorConfig E M A F)} {x : LoopState}
    {g : Governor E M A F} {c : GovernorConfig E M A F} (hreach : Reachable s ⟨[x], g⟩)
    (h : Recorded s past ⟨[x], g⟩) (hmove : Move s g x c) :
    Recorded s (past ++ [⟨[x], g⟩]) c := by
  cases hmove with
  | hypothesis | codeGen | concluded =>
    exact h.logged LoopState.noConfusion LoopState.noConfusion (append_toolCalls_zero ..) (by simp)
      rfl rfl rfl
  | summarized =>
    exact h.logged LoopState.noConfusion LoopState.noConfusion rfl (by simp) rfl rfl rfl
  | analysed | significant => exact h.analysed rfl (by simp)
  | rejected hi hh hd =>
    refine ⟨fun _ => .attempt (h.reported (by simp)) rfl (.inr rfl), fun hq => (by cases hq), ?_⟩
    exact errors_attempt rfl ⟨_, _, _, hreach, rfl, hi, hh, hd⟩
  | failed hi hh hd =>
    refine ⟨fun _ => .attempt (h.reported (by simp)) rfl (.inr rfl), fun hq => (by cases hq), ?_⟩
    exact errors_attempt rfl ⟨_, _, _, hreach, rfl, hi, hh, hd⟩
  | deployed hi hh hd =>
    refine ⟨fun hq => absurd rfl hq, fun _ => ⟨_, h.reported (by simp), rfl⟩, ?_⟩
    refine errors_append h.errors (by simp [isError]) ?_
    rintro e ⟨implementation, hypothesis, d, hfailed⟩
    cases hi.symm.trans hfailed.implementation_eq
    cases hh.symm.trans hfailed.hypothesis_eq
    cases hd.symm.trans hfailed.deploy

theorem recorded_of_runOf {past : List (GovernorConfig E M A F)} {c : GovernorConfig E M A F}
    (h : RunOf s past c) : Recorded s past c := by
  refine h.invariant (I := Recorded s) ?_ ?_
  · exact fun _ _ => ⟨fun _ => .nil, fun hq => (by cases hq), by simp [governorStart]⟩
  · exact fun _ _ _ _ hreach ih hmove => recorded_of_move hreach ih hmove

/-- The log of a run: at a configuration that it comes to, or when a state raises there. -/
def RunLog (s : Setup E M A F) (past : List (GovernorConfig E M A F))
    (c : GovernorConfig E M A F) (l : List (Event F)) : Prop :=
  RunOf s past c ∧
    (l = c.context.log ∨ ∃ e, step (executeGovernor s) c = .done (.error e) ∧ l = e.log)

theorem RunLog.log_eq {past : List (GovernorConfig E M A F)} {c : GovernorConfig E M A F}
    {l : List (Event F)} (h : RunLog s past c l) : ∃ n,
      l = c.context.log ++ toolCalls c.context.context.iteration n ∧
        (c.queue = [.analysis] → n = 0) := by
  obtain ⟨hrun, rfl | ⟨e, he, rfl⟩⟩ := h
  · exact ⟨0, (List.append_nil _).symm, fun _ => rfl⟩
  obtain ⟨x, n, hq, hn, hx, -⟩ := hrun.reachable.exists_raised he
  rw [hq]
  refine ⟨n, hn, fun hanalysis => hx ?_⟩
  rw [List.singleton_injective hanalysis]
  exact LoopState.noConfusion

theorem isError_toolCalls {log : List (Event F)} {i n : Nat} :
    (∃ e ∈ log ++ toolCalls i n, isError e = true) ↔ ∃ e ∈ log, isError e = true := by
  have hnone : ¬ ∃ e ∈ toolCalls (F := F) i n, isError e = true := by
    rintro ⟨e, he, herror⟩
    rw [List.eq_of_mem_replicate he] at herror
    cases herror
  simp only [List.mem_append, or_and_right, exists_or, hnone, or_false]

/-- **Outcomes.** The log of a run is rendered event by event, and its timeline tells failed
attempts from successful ones exactly when no deployment of the run ended with an error and
none is waiting for its analysis. -/
theorem tellsOutcomes_iff (format : StatsFormat F) {past : List (GovernorConfig E M A F)}
    {c : GovernorConfig E M A F} {l : List (Stamped F)}
    (h : RunLog s past c (l.map Stamped.event)) :
    TellsOutcomes format l ↔
      (∀ b ∈ past, ∀ e, ¬ FailedWith s b e) ∧ c.queue ≠ [.analysis] := by
  obtain ⟨n, hlog, hn⟩ := h.log_eq
  have hrecorded := recorded_of_runOf h.1
  have herrors : (∀ e ∈ l.map Stamped.event, isError e = false) ↔
      ∀ b ∈ past, ∀ e, ¬ FailedWith s b e := by
    have hiff := (isError_toolCalls (i := c.context.context.iteration) (n := n)).trans
      hrecorded.errors
    rw [← hlog] at hiff
    simpa using not_congr hiff
  by_cases hq : c.queue = [.analysis]
  · refine iff_of_false (fun htells => ?_) fun hcond => hcond.2 hq
    obtain ⟨l', -, hl'⟩ := hrecorded.pending hq
    have hall := htells.allAnalysed
    rw [hlog, hn hq, hl', toolCalls, List.replicate_zero, List.append_nil,
      allAnalysed_append_deployment] at hall
    exact not_analysed_nil _ hall.2.1
  · have hreported : Reported (l.map Stamped.event) :=
      hlog ▸ (hrecorded.reported hq).append_toolCalls _ _
    constructor
    · intro htells
      exact ⟨herrors.mp (hreported.allAnalysed_iff.mp htells.allAnalysed), hq⟩
    · intro hcond
      have hno := herrors.mpr hcond.1
      exact tellsOutcomes_of_allAnalysed format (hreported.allAnalysed_iff.mpr hno) hno

theorem map_event_stamp (timestamp : Text) (l : List (Event F)) :
    (l.map (Stamped.mk timestamp)).map Stamped.event = l := by
  rw [List.map_map]
  exact List.map_id l

/-- A run whose one attack is measured and analysed. -/
theorem tellsOutcomes_iff_oneTrial :
    ∃ past c l, RunLog (scriptedSetup 1 true fun _ => measured) past c (l.map Stamped.event) ∧
      l.length = 4 ∧
      (TellsOutcomes unitFormat l ↔
        (∀ b ∈ past, ∀ e, ¬ FailedWith (scriptedSetup 1 true fun _ => measured) b e) ∧
          c.queue ≠ [.analysis]) := by
  obtain ⟨c, hc, -, -, -, hlength⟩ := exists_reachable_measured true
  obtain ⟨past, hpast⟩ := hc.exists_runOf
  have hlog : RunLog _ past c
      ((c.context.log.map (Stamped.mk "2026-01-01".toList)).map Stamped.event) :=
    ⟨hpast, .inl (map_event_stamp _ _)⟩
  exact ⟨past, c, _, hlog, (List.length_map _).trans hlength, tellsOutcomes_iff unitFormat hlog⟩

/-- The timeline of an attack that did not build: it is said to have completed. -/
def brokenTimeline : List (Stamped Unit) :=
  [⟨"10:00".toList, .hypothesis 1 (some (emptyHypothesis 1))⟩,
    ⟨"10:01".toList, .implementation 1 (some emptyImplementation)⟩,
    ⟨"10:02".toList, .simulationDeployment 1⟩,
    ⟨"10:02".toList, .implementationError 1 (.build ⟨[], [], 2⟩)⟩]

theorem brokenTimeline_not_told :
    (∃ past c, RunLog brokenSetup past c (brokenTimeline.map Stamped.event)) ∧
      ¬ TellsOutcomes unitFormat brokenTimeline := by
  constructor
  · exact ⟨_, _, ⟨constantWorld, (), .round (.round (.round .start rfl) rfl) rfl⟩, .inl rfl⟩
  · intro h
    have hsays := saysCompleted_deployment unitFormat
      (x := ⟨"10:02".toList, .simulationDeployment (F := Unit) 1⟩) rfl
    exact h.failed (brokenTimeline.take 2) _ (brokenTimeline.drop 3) rfl rfl
      ⟨_, List.mem_cons_self, rfl⟩ hsays

end MicroSampler.Reporting
