import Mathlib.Data.List.DropRight
import MicroSampler.Agents.Evidence

/-!
# The feedback of the implementation agent

The agent is told that no feedback means a first attempt at the current hypothesis. The
simulation clears and sets the feedback, the summarization clears it, and the two states that
ask agents read it.
-/

namespace MicroSampler.Agents

open Loops StateQueue Simulation Statistics

variable {E M A F : Type} {s : Setup E M A F}

/-! ## Attempts -/

/-- A run of the governor with the configurations that it has gone through. -/
def RunOf (s : Setup E M A F) (past : List (GovernorConfig E M A F))
    (c : GovernorConfig E M A F) : Prop :=
  ∃ world agents, History (executeGovernor s) (governorStart world agents) past c

theorem RunOf.reachable {past : List (GovernorConfig E M A F)} {c : GovernorConfig E M A F}
    (h : RunOf s past c) : Reachable s c := by
  obtain ⟨world, agents, h⟩ := h
  exact ⟨world, agents, h.steps⟩

/-- **Invariant rule** of the runs with their configurations. -/
theorem RunOf.invariant {I : List (GovernorConfig E M A F) → GovernorConfig E M A F → Prop}
    (hstart : ∀ world agents, I [] (governorStart world agents))
    (hmove : ∀ past x g c, Reachable s ⟨[x], g⟩ → I past ⟨[x], g⟩ → Move s g x c →
      I (past ++ [⟨[x], g⟩]) c)
    {past : List (GovernorConfig E M A F)} {c : GovernorConfig E M A F} (h : RunOf s past c) :
    I past c := by
  obtain ⟨world, agents, h⟩ := h
  induction h with
  | start => exact hstart world agents
  | @round past b c h hstep ih =>
    have hreach : Reachable s b := ⟨world, agents, h.steps⟩
    obtain ⟨x, hq, hmoved⟩ := hreach.exists_move hstep
    rw [hq] at hreach ih ⊢
    exact hmove past x b.context c hreach ih hmoved

theorem Reachable.exists_runOf {c : GovernorConfig E M A F} (h : Reachable s c) :
    ∃ past, RunOf s past c := by
  obtain ⟨world, agents, h⟩ := h
  obtain ⟨past, h⟩ := exists_history h
  exact ⟨past, world, agents, h⟩

/-- The simulations since the last hypothesis was formed: the attempts at it. -/
def pastAttempts (past : List (GovernorConfig E M A F)) : List (GovernorConfig E M A F) :=
  (past.rtakeWhile fun b => b.queue ≠ [.hypothesis]).filter fun b => b.queue = [.simulation]

/-- The attempt of the configuration was rejected with the error. -/
def RejectedWith (s : Setup E M A F) (b : GovernorConfig E M A F) (hypothesis : Hypothesis)
    (e : DeploymentError) : Prop :=
  ∃ implementation d, Simulated s b implementation hypothesis d (some e) ∧ rejects e = true

/-- What the feedback is when the implementation agent is asked. -/
structure TellsAttempts (s : Setup E M A F) (past : List (GovernorConfig E M A F))
    (context : GovernorContext F) : Prop where
  none_iff : context.simulationFeedback = none ↔ pastAttempts past = []
  last : ∀ feedback, context.simulationFeedback = some feedback →
    ∃ front b hypothesis e, past = front ++ [b] ∧ pastAttempts past = pastAttempts front ++ [b] ∧
      context.currentHypothesis = some hypothesis ∧ RejectedWith s b hypothesis e ∧
      feedback = message e
  notFailed : ∀ e, rejects e = false → context.simulationFeedback ≠ some (message e)

theorem pastAttempts_hypothesis (past : List (GovernorConfig E M A F)) (g : Governor E M A F) :
    pastAttempts (past ++ [⟨[.hypothesis], g⟩]) = [] := by
  rw [pastAttempts, List.rtakeWhile_concat_neg _ _ _ (by simp)]
  rfl

theorem pastAttempts_simulation (past : List (GovernorConfig E M A F)) (g : Governor E M A F) :
    pastAttempts (past ++ [⟨[.simulation], g⟩]) = pastAttempts past ++ [⟨[.simulation], g⟩] := by
  rw [pastAttempts, List.rtakeWhile_concat_pos _ _ _ (by simp), List.filter_append]
  rfl

/-- The letter that the text of an error begins with. -/
def initial : DeploymentError → Char
  | .illegalCode _ => 'i'
  | .build _ => 'b'
  | .simulationTimeout _ _ | .simulationFailure _ => 's'

theorem head?_message (e : DeploymentError) : (message e).head? = some (initial e) := by
  cases e with
  | illegalCode =>
    dsimp only [message, initial]
    decide +kernel
  | build => rfl
  | simulationTimeout => rfl
  | simulationFailure => rfl

/-- A rejection and a failure never have the same text. -/
theorem message_ne {e e' : DeploymentError} (he : rejects e = true) (he' : rejects e' = false) :
    message e ≠ message e' := by
  intro h
  have hinitial : initial e = initial e' := by
    rw [← Option.some.injEq, ← head?_message, ← head?_message, h]
  cases e <;> cases he <;> cases e' <;> cases he' <;> cases hinitial

/-! ## The feedback along a run -/

/-- The feedback in a configuration: none before a hypothesis is formed, and what the attempts
say before an implementation is written. -/
structure FeedbackOf (s : Setup E M A F) (past : List (GovernorConfig E M A F))
    (c : GovernorConfig E M A F) : Prop where
  hypothesis : c.queue = [.hypothesis] → c.context.context.simulationFeedback = none
  codeGen : c.queue = [.codeGen] → TellsAttempts s past c.context.context

theorem tellsAttempts_none {past : List (GovernorConfig E M A F)} {context : GovernorContext F}
    (hnone : context.simulationFeedback = none) (hattempts : pastAttempts past = []) :
    TellsAttempts s past context where
  none_iff := ⟨fun _ => hattempts, fun _ => hnone⟩
  last := by
    intro feedback h
    rw [hnone] at h
    cases h
  notFailed := by
    intro e _ h
    rw [hnone] at h
    cases h

/-- One round. -/
theorem Move.feedbackOf {past : List (GovernorConfig E M A F)} {g : Governor E M A F}
    {x : LoopState} {c : GovernorConfig E M A F} (hreach : Reachable s ⟨[x], g⟩)
    (h : FeedbackOf s past ⟨[x], g⟩) (hmove : Move s g x c) :
    FeedbackOf s (past ++ [⟨[x], g⟩]) c := by
  cases hmove with
  | hypothesis ha =>
    refine ⟨fun hq => (by cases hq), fun _ => ?_⟩
    exact tellsAttempts_none (h.hypothesis rfl) (pastAttempts_hypothesis past g)
  | @rejected implementation hypothesis d e hi hh hd he =>
    refine ⟨fun hq => (by cases hq), fun _ => ⟨?_, ?_, ?_⟩⟩
    · rw [pastAttempts_simulation]
      simp
    · intro feedback hfeedback
      cases hfeedback
      exact ⟨past, _, hypothesis, e, rfl, pastAttempts_simulation past g, hh,
        ⟨implementation, d, ⟨hreach, rfl, hi, hh, hd⟩, he⟩, rfl⟩
    · intro e' he' heq
      exact message_ne he he' (Option.some.inj heq)
  | summarized hi ha => exact ⟨fun _ => rfl, fun hq => (by cases hq)⟩
  | _ => exact ⟨fun hq => (by cases hq), fun hq => (by cases hq)⟩

theorem RunOf.feedbackOf {past : List (GovernorConfig E M A F)} {c : GovernorConfig E M A F}
    (h : RunOf s past c) : FeedbackOf s past c := by
  refine h.invariant (I := FeedbackOf s) ?_ ?_
  · exact fun _ _ => ⟨fun _ => rfl, fun hq => (by cases hq)⟩
  · exact fun _ _ _ _ hreach ih hmove => hmove.feedbackOf hreach ih

/-- **Feedback.** When the implementation agent is asked, there is no feedback exactly when
no attempt at the current hypothesis has been made. Otherwise the last round was an attempt at
it that was rejected, and the feedback is the message of its error. -/
theorem feedback_tells_attempts {past : List (GovernorConfig E M A F)}
    {c : GovernorConfig E M A F} (h : RunOf s past c) (hq : c.queue = [.codeGen]) :
    TellsAttempts s past c.context.context := h.feedbackOf.codeGen hq

/-- The attack never builds. -/
def brokenSetup : Setup Unit Nat Unit Unit :=
  let s := constantSetup 1 .timedOut
  { s with host := { s.host with make := fun _ _ n => some (⟨2, [], [], none, none⟩, n) } }

/-- A second attempt is told why the first one was rejected. -/
theorem feedback_tells_attempts_broken :
    ∃ past c, RunOf brokenSetup past c ∧ c.queue = [.codeGen] ∧
      c.context.context.simulationFeedback = some "build failed with code: 2".toList ∧
      TellsAttempts brokenSetup past c.context.context := by
  have hrun : ∃ past c, RunOf brokenSetup past c ∧ c.queue = [.codeGen] ∧
      c.context.context.simulationFeedback = some "build failed with code: 2".toList :=
    ⟨_, _, ⟨constantWorld, (), .round (.round (.round .start rfl) rfl) rfl⟩, rfl, by decide⟩
  obtain ⟨past, c, h, hq, hfeedback⟩ := hrun
  exact ⟨past, c, h, hq, hfeedback, feedback_tells_attempts h hq⟩

end MicroSampler.Agents
