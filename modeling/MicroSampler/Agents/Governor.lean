import MicroSampler.Agents.Context
import MicroSampler.Simulation.Deployment

/-!
# The governor

The six states of the governor. They ask the agents, deploy the attack on the persistent
deployment context, analyse the table and log what happens. The agents are parameters: they
answer anything from what they are given and from their own state, and the summarization
agent may read the deployed assembly as often as it likes before it answers.

`Move` lists what a round of the governor can do (`move_of_step`); `raised_of_step` says what
an exception leaves.
-/

namespace MicroSampler.Agents

open Loops StateQueue Simulation Statistics

/-! ## The agents -/

/-- The arguments of the prompt for the summarization agent. -/
structure SummarizationPrompt (F : Type) where
  currentHypothesis : Option Hypothesis
  feedback : Option Text
  stats : Option (StatisticalAnalysisResults F)
  implementation : Text

/-- The summarization agent at work: it answers, or calls the tool and goes on with what the
tool gives it. -/
inductive Dialogue (A : Type)
  | answer (result : Except Exn (Option Summarization)) (agents : A)
  | callTool (next : Except Exn Text → Dialogue A)

/-- The three agents; `A` is their state. -/
structure Team (F A : Type) where
  hypothesis : Option Summarization → A → Except Exn (Option Hypothesis) × A
  implementation : Option Hypothesis → Option Text → A → Except Exn (Option Implementation) × A
  summarization : SummarizationPrompt F → A → Dialogue A

/-- Everything that a run of the governor works on. -/
structure Governor (E M A F : Type) where
  context : GovernorContext F
  deployment : Deployment E M
  agents : A
  log : List (Event F)

/-- An exception, with the context and the log as they stand when it is raised. -/
structure Raised (F : Type) where
  exn : Exn
  context : GovernorContext F
  log : List (Event F)

section States

variable {E M A F : Type}

/-- `read_attack_assembly`, after it has logged its call. -/
def readAttackAssembly (config : HarnessConfig) (disk : Disk E) : Except Exn Text :=
  match disk.deployedAssembly with
  | none => .error .missingAttackAssembly
  | some assembly =>
    .ok ("Assembly path: ".toList ++ config.assemblyPath ++ "\n\n".toList ++ assembly)

/-- The dialogue with the summarization agent: its answer, its state and the log. -/
def Dialogue.run (config : HarnessConfig) (disk : Disk E) (iteration : Nat) :
    Dialogue A → List (Event F) → Except Exn (Option Summarization) × A × List (Event F)
  | .answer result agents, log => (result, agents, log)
  | .callTool next, log =>
    run config disk iteration (next (readAttackAssembly config disk))
      (log ++ [.toolCall iteration "read_attack_assembly".toList])

/-! ## Deployment -/

/-- What the simulation puts into the deployment context. -/
def given (d : Deployment E M) (implementation : Text) (configuration : RunConfiguration) :
    Deployment E M :=
  { d with context := { d.context with
    implementation := some implementation, configuration := some configuration } }

/-- The request that the simulation makes. -/
def request (d : Deployment E M) (implementation : Text) (configuration : RunConfiguration) :
    Request E M :=
  ⟨implementation, configuration, d.world⟩

theorem isSome_deploymentLoop (config : HarnessConfig) (host : Host E M) (d : Deployment E M)
    (implementation : Text) (configuration : RunConfiguration) :
    (deploymentLoop config host (configuration.executions + 8)
      (given d implementation configuration)).isSome := by
  obtain ⟨r, -, hr⟩ := @deploymentLoop_ending _ _ config host
    (request d implementation configuration) (given d implementation configuration)
    ⟨rfl, rfl⟩ rfl
  exact Option.isSome_iff_exists.mpr ⟨r, hr _ (le_refl _)⟩

/-- `deployment_controller.loop()`: the rounds are enough for every deployment. -/
def deploy (config : HarnessConfig) (host : Host E M) (d : Deployment E M)
    (implementation : Text) (configuration : RunConfiguration) :
    Except Exn (Deployment E M × Option DeploymentError) :=
  (deploymentLoop config host (configuration.executions + 8)
    (given d implementation configuration)).get (isSome_deploymentLoop ..)

theorem deploymentLoop_deploy (config : HarnessConfig) (host : Host E M) (d : Deployment E M)
    (implementation : Text) (configuration : RunConfiguration) :
    deploymentLoop config host (configuration.executions + 8)
      (given d implementation configuration) =
        some (deploy config host d implementation configuration) :=
  (Option.some_get _).symm

theorem ending_deploy (config : HarnessConfig) (host : Host E M) (d : Deployment E M)
    (implementation : Text) (configuration : RunConfiguration) :
    Ending config host (request d implementation configuration)
      (deploy config host d implementation configuration) :=
  ending_of_deploymentLoop ⟨rfl, rfl⟩ rfl (deploymentLoop_deploy ..)

/-! ## The states -/

abbrev GovernorEffect (E M A F : Type) := Effect LoopState (Governor E M A F) Empty

abbrev Outcome (E M A F : Type) := Except (Raised F) (GovernorEffect E M A F)

/-- `append_loop_state`, as the last thing a state does. -/
def appendLoopState (g : Governor E M A F) (s : LoopState) : GovernorEffect E M A F :=
  ⟨g, [s], none⟩

/-- An exception in a state that has logged nothing yet. -/
def raise (g : Governor E M A F) (e : Exn) : Raised F := ⟨e, g.context, g.log⟩

/-- `HypothesisState.execute`. -/
def hypothesisState (team : Team F A) (g : Governor E M A F) : Outcome E M A F :=
  match team.hypothesis g.context.currentSummarization g.agents with
  | (.error e, _) => .error (raise g e)
  | (.ok hypothesis, a) =>
    .ok (appendLoopState
      { g with
        context := { g.context with currentHypothesis := hypothesis }
        agents := a
        log := g.log ++ [.hypothesis g.context.iteration hypothesis] } .codeGen)

/-- `ImplementationState.execute`. -/
def implementationState (team : Team F A) (g : Governor E M A F) : Outcome E M A F :=
  match team.implementation g.context.currentHypothesis g.context.simulationFeedback g.agents with
  | (.error e, _) => .error (raise g e)
  | (.ok implementation, a) =>
    .ok (appendLoopState
      { g with
        context := { g.context with currentImplementation := implementation }
        agents := a
        log := g.log ++ [.implementation g.context.iteration implementation] } .simulation)

/-- What the simulation does with the end of the deployment, the context being cleared. -/
def afterDeployment (g : Governor E M A F) : Option DeploymentError → GovernorEffect E M A F
  | none => appendLoopState
      { g with
        context := { g.context with currentResults := g.deployment.context.finalTable }
        log := g.log ++ [.simulationDeployment g.context.iteration] } .analysis
  | some e =>
    let context := { g.context with simulationFeedback := some (message e) }
    match e with
    | .illegalCode _ | .build _ => appendLoopState
        { g with
          context := context
          log := g.log ++ [.simulationDeployment g.context.iteration,
            .implementationError g.context.iteration e] } .codeGen
    | .simulationTimeout _ _ | .simulationFailure _ => appendLoopState
        { g with
          context := context
          log := g.log ++ [.simulationDeployment g.context.iteration,
            .simulationError g.context.iteration e] } .summarization

/-- The context with the results of the last deployment cleared. -/
def GovernorContext.cleared (context : GovernorContext F) : GovernorContext F :=
  { context with currentResults := none, currentStats := none, simulationFeedback := none }

/-- `SimulationState.execute`. Its first lines clear the context, so it is cleared, too, when
what follows raises. -/
def simulationState (config : HarnessConfig) (host : Host E M) (g : Governor E M A F) :
    Outcome E M A F :=
  let cleared := { g with context := g.context.cleared }
  match g.context.currentImplementation, g.context.currentHypothesis with
  | some implementation, some hypothesis =>
    match deploy config host g.deployment implementation.attackCode
      hypothesis.runConfiguration with
    | .error e => .error (raise cleared e)
    | .ok (d, simErr) => .ok (afterDeployment { cleared with deployment := d } simErr)
  | _, _ => .error (raise cleared .attributeError)

/-- `AnalysisState.execute`. -/
def analysisState (num : Numerics F) (g : Governor E M A F) :
    Outcome E M A F :=
  match g.context.currentResults with
  | none => .error (raise g .attributeError)
  | some table =>
    match generateStatisticalAnalysis num table with
    | .error e => .error (raise g e)
    | .ok stats =>
      let g := { g with
        context := { g.context with currentStats := some stats }
        log := g.log ++ [.analysis g.context.iteration stats] }
      if num.aboveThreshold stats.iterationScore then .ok (appendLoopState g .conclusion)
      else .ok (appendLoopState g .summarization)

/-- The prompt of `SummarizationState`. -/
def summarizationPrompt (context : GovernorContext F) (implementation : Implementation) :
    SummarizationPrompt F where
  currentHypothesis := context.currentHypothesis
  feedback := context.simulationFeedback
  stats := context.currentStats
  implementation := implementation.attackCode

/-- `SummarizationState.execute`. -/
def summarizationState (config : HarnessConfig) (team : Team F A) (g : Governor E M A F) :
    Outcome E M A F :=
  match g.context.currentImplementation with
  | none => .error (raise g .attributeError)
  | some implementation =>
    match (team.summarization (summarizationPrompt g.context implementation) g.agents).run
      config g.deployment.world.disk g.context.iteration g.log with
    | (.error e, _, log) => .error ⟨e, g.context, log⟩
    | (.ok summarization, a, log) =>
      .ok (appendLoopState
        { g with
          context := { g.context with
            currentSummarization := summarization
            simulationFeedback := none
            iteration := g.context.iteration + 1 }
          agents := a
          log := log ++ [.summarization g.context.iteration summarization] } .hypothesis)

/-- `ConclusionState.execute`. -/
def conclusionState (g : Governor E M A F) : Outcome E M A F :=
  .ok ⟨{ g with log := g.log ++ [.conclusion g.context.iteration g.context.currentStats] }, [],
    none⟩

end States

/-- What the states of a governor are wired to. -/
structure Setup (E M A F : Type) where
  config : HarnessConfig
  host : Host E M
  team : Team F A
  num : Numerics F

section Runs

variable {E M A F : Type}

/-- The state map of the governor. -/
def executeGovernor (s : Setup E M A F) :
    Execute LoopState (Governor E M A F) Empty (Raised F)
  | .hypothesis, g => hypothesisState s.team g
  | .codeGen, g => implementationState s.team g
  | .simulation, g => simulationState s.config s.host g
  | .analysis, g => analysisState s.num g
  | .summarization, g => summarizationState s.config s.team g
  | .conclusion, g => conclusionState g

abbrev GovernorConfig (E M A F : Type) := Config LoopState (Governor E M A F)

/-- The governor as `main` starts it, in a world and with agents in any state. -/
def governorStart (world : World E M) (agents : A) : GovernorConfig E M A F where
  queue := [.hypothesis]
  context := ⟨.initial F, ⟨.initial, world⟩, agents, []⟩

/-- The configurations of the runs of the governor. -/
def Reachable (s : Setup E M A F) (c : GovernorConfig E M A F) : Prop :=
  ∃ world agents, Steps (executeGovernor s) (governorStart world agents) c

/-- A beginning of the log of a configuration, or of the log that an exception leaves there. -/
def LogAt (s : Setup E M A F) (c : GovernorConfig E M A F) (l : List (Event F)) : Prop :=
  l <+: c.context.log ∨ ∃ e, step (executeGovernor s) c = .done (.error e) ∧ l <+: e.log

/-- The log of a run at some moment. -/
def LogOf (s : Setup E M A F) (l : List (Event F)) : Prop :=
  ∃ c, Reachable s c ∧ LogAt s c l

/-! ## What a round does -/

/-- The calls of the tool that stand in the log. -/
def toolCalls (iteration n : Nat) : List (Event F) :=
  List.replicate n (.toolCall iteration "read_attack_assembly".toList)

theorem exists_run_log (config : HarnessConfig) (disk : Disk E) (iteration : Nat)
    (dialogue : Dialogue A) (log : List (Event F)) :
    ∃ n, (dialogue.run config disk iteration log).2.2 = log ++ toolCalls iteration n := by
  induction dialogue generalizing log with
  | answer result agents => exact ⟨0, (List.append_nil log).symm⟩
  | callTool next ih =>
    obtain ⟨n, hn⟩ := ih (readAttackAssembly config disk)
      (log ++ [.toolCall iteration "read_attack_assembly".toList])
    exact ⟨n + 1, by rw [Dialogue.run, hn, List.append_assoc]; rfl⟩

/-- A deployment that never ran: the attack was illegal or did not build. -/
def rejects : DeploymentError → Bool
  | .illegalCode _ | .build _ => true
  | .simulationTimeout _ _ | .simulationFailure _ => false

/-- The rounds of the governor in each state that do not raise. -/
inductive Move (s : Setup E M A F) (g : Governor E M A F) :
    LoopState → GovernorConfig E M A F → Prop
  | hypothesis {hypothesis : Option Hypothesis} {a : A}
    (ha : s.team.hypothesis g.context.currentSummarization g.agents = (.ok hypothesis, a)) :
    Move s g .hypothesis ⟨[.codeGen], { g with
      context := { g.context with currentHypothesis := hypothesis }
      agents := a
      log := g.log ++ [.hypothesis g.context.iteration hypothesis] }⟩
  | codeGen {implementation : Option Implementation} {a : A}
    (ha : s.team.implementation g.context.currentHypothesis g.context.simulationFeedback
      g.agents = (.ok implementation, a)) :
    Move s g .codeGen ⟨[.simulation], { g with
      context := { g.context with currentImplementation := implementation }
      agents := a
      log := g.log ++ [.implementation g.context.iteration implementation] }⟩
  | rejected {implementation : Implementation} {hypothesis : Hypothesis} {d : Deployment E M}
    {e : DeploymentError} (hi : g.context.currentImplementation = some implementation)
    (hh : g.context.currentHypothesis = some hypothesis)
    (hd : deploy s.config s.host g.deployment implementation.attackCode
      hypothesis.runConfiguration = .ok (d, some e)) (he : rejects e = true) :
    Move s g .simulation ⟨[.codeGen], { g with
      context := { g.context.cleared with simulationFeedback := some (message e) }
      deployment := d
      log := g.log ++ [.simulationDeployment g.context.iteration,
        .implementationError g.context.iteration e] }⟩
  | failed {implementation : Implementation} {hypothesis : Hypothesis} {d : Deployment E M}
    {e : DeploymentError} (hi : g.context.currentImplementation = some implementation)
    (hh : g.context.currentHypothesis = some hypothesis)
    (hd : deploy s.config s.host g.deployment implementation.attackCode
      hypothesis.runConfiguration = .ok (d, some e)) (he : rejects e = false) :
    Move s g .simulation ⟨[.summarization], { g with
      context := { g.context.cleared with simulationFeedback := some (message e) }
      deployment := d
      log := g.log ++ [.simulationDeployment g.context.iteration,
        .simulationError g.context.iteration e] }⟩
  | deployed {implementation : Implementation} {hypothesis : Hypothesis} {d : Deployment E M}
    (hi : g.context.currentImplementation = some implementation)
    (hh : g.context.currentHypothesis = some hypothesis)
    (hd : deploy s.config s.host g.deployment implementation.attackCode
      hypothesis.runConfiguration = .ok (d, none)) :
    Move s g .simulation ⟨[.analysis], { g with
      context := { g.context.cleared with currentResults := d.context.finalTable }
      deployment := d
      log := g.log ++ [.simulationDeployment g.context.iteration] }⟩
  | analysed {table : Table} {stats : StatisticalAnalysisResults F}
    (ht : g.context.currentResults = some table)
    (hs : generateStatisticalAnalysis s.num table = .ok stats)
    (hn : s.num.aboveThreshold stats.iterationScore = false) :
    Move s g .analysis ⟨[.summarization], { g with
      context := { g.context with currentStats := some stats }
      log := g.log ++ [.analysis g.context.iteration stats] }⟩
  | significant {table : Table} {stats : StatisticalAnalysisResults F}
    (ht : g.context.currentResults = some table)
    (hs : generateStatisticalAnalysis s.num table = .ok stats)
    (hn : s.num.aboveThreshold stats.iterationScore = true) :
    Move s g .analysis ⟨[.conclusion], { g with
      context := { g.context with currentStats := some stats }
      log := g.log ++ [.analysis g.context.iteration stats] }⟩
  | summarized {implementation : Implementation} {summarization : Option Summarization} {a : A}
    {n : Nat} (hi : g.context.currentImplementation = some implementation)
    (ha : (s.team.summarization (summarizationPrompt g.context implementation) g.agents).run
      s.config g.deployment.world.disk g.context.iteration g.log =
        (.ok summarization, a, g.log ++ toolCalls g.context.iteration n)) :
    Move s g .summarization ⟨[.hypothesis], { g with
      context := { g.context with
        currentSummarization := summarization
        simulationFeedback := none
        iteration := g.context.iteration + 1 }
      agents := a
      log := g.log ++ toolCalls g.context.iteration n ++
        [.summarization g.context.iteration summarization] }⟩
  | concluded : Move s g .conclusion ⟨[], { g with
      log := g.log ++ [.conclusion g.context.iteration g.context.currentStats] }⟩

/-- The context when a state raises. -/
def LoopState.raisedContext : LoopState → GovernorContext F → GovernorContext F
  | .simulation, context => context.cleared
  | _, context => context

/-- What an exception in a state leaves: the log has grown by no more than calls of the tool,
and only in the summarization. -/
structure Raised.Left (g : Governor E M A F) (x : LoopState) (n : Nat) (e : Raised F) : Prop where
  log : e.log = g.log ++ toolCalls g.context.iteration n
  calls : x ≠ .summarization → n = 0
  context : e.context = x.raisedContext g.context

/-- What a round in one state leads to. -/
def Outcome.Allowed (s : Setup E M A F) (g : Governor E M A F) (x : LoopState) :
    Outcome E M A F → Prop
  | .ok effect => effect.stop = none ∧ Move s g x ⟨effect.queued, effect.context⟩
  | .error e => ∃ n, Raised.Left g x n e

theorem allowed_raise (s : Setup E M A F) (g : Governor E M A F) (x : LoopState) (e : Exn) :
    Outcome.Allowed s g x (.error (raise { g with context := x.raisedContext g.context } e)) :=
  ⟨0, (List.append_nil _).symm, fun _ => rfl, rfl⟩

theorem allowed_hypothesis (s : Setup E M A F) (g : Governor E M A F) :
    Outcome.Allowed s g .hypothesis (hypothesisState s.team g) := by
  unfold hypothesisState
  split
  · exact allowed_raise s g .hypothesis _
  · next ha => exact ⟨rfl, .hypothesis ha⟩

theorem allowed_implementation (s : Setup E M A F) (g : Governor E M A F) :
    Outcome.Allowed s g .codeGen (implementationState s.team g) := by
  unfold implementationState
  split
  · exact allowed_raise s g .codeGen _
  · next ha => exact ⟨rfl, .codeGen ha⟩

theorem allowed_simulation (s : Setup E M A F) (g : Governor E M A F) :
    Outcome.Allowed s g .simulation (simulationState s.config s.host g) := by
  unfold simulationState
  split
  · next implementation hypothesis hi hh =>
    split
    · exact allowed_raise s g .simulation _
    · next d simErr hd =>
      match simErr with
      | none => exact ⟨rfl, .deployed hi hh hd⟩
      | some (.illegalCode _) => exact ⟨rfl, .rejected hi hh hd rfl⟩
      | some (.build _) => exact ⟨rfl, .rejected hi hh hd rfl⟩
      | some (.simulationTimeout _ _) => exact ⟨rfl, .failed hi hh hd rfl⟩
      | some (.simulationFailure _) => exact ⟨rfl, .failed hi hh hd rfl⟩
  · exact allowed_raise s g .simulation _

theorem allowed_analysis (s : Setup E M A F) (g : Governor E M A F) :
    Outcome.Allowed s g .analysis (analysisState s.num g) := by
  unfold analysisState
  split
  · exact allowed_raise s g .analysis _
  next table ht =>
  split
  · exact allowed_raise s g .analysis _
  next stats hs =>
  dsimp only
  split
  · next hn => exact ⟨rfl, .significant ht hs hn⟩
  · next hn => exact ⟨rfl, .analysed ht hs (Bool.eq_false_iff.mpr hn)⟩

theorem allowed_summarization (s : Setup E M A F) (g : Governor E M A F) :
    Outcome.Allowed s g .summarization (summarizationState s.config s.team g) := by
  unfold summarizationState
  split
  · exact allowed_raise s g .summarization _
  next implementation hi =>
  obtain ⟨n, hn⟩ := exists_run_log s.config g.deployment.world.disk g.context.iteration
    (s.team.summarization (summarizationPrompt g.context implementation) g.agents) g.log
  split
  · next log hr =>
    rw [hr] at hn
    exact ⟨n, hn, fun hx => absurd rfl hx, rfl⟩
  · next summarization a log hr =>
    rw [hr] at hn
    cases hn
    exact ⟨rfl, .summarized hi hr⟩

/-- **Rounds.** A round makes a move, or raises. -/
theorem allowed (s : Setup E M A F) (g : Governor E M A F) (x : LoopState) :
    Outcome.Allowed s g x (executeGovernor s x g) := by
  cases x with
  | hypothesis => exact allowed_hypothesis s g
  | codeGen => exact allowed_implementation s g
  | simulation => exact allowed_simulation s g
  | analysis => exact allowed_analysis s g
  | summarization => exact allowed_summarization s g
  | conclusion => exact ⟨rfl, .concluded⟩

/-- The step of a queued state is the round. -/
theorem step_cases (s : Setup E M A F) (g : Governor E M A F) (x : LoopState) :
    (∃ e n, step (executeGovernor s) ⟨[x], g⟩ = .done (.error e) ∧ Raised.Left g x n e) ∨
      ∃ c, step (executeGovernor s) ⟨[x], g⟩ = .running c ∧ Move s g x c := by
  have hallowed := allowed s g x
  cases hx : executeGovernor s x g with
  | error e =>
    rw [hx] at hallowed
    obtain ⟨n, hleft⟩ := hallowed
    exact .inl ⟨e, n, step_singleton_error hx, hleft⟩
  | ok effect =>
    obtain ⟨context, queued, stop⟩ := effect
    rw [hx] at hallowed
    obtain ⟨rfl, hmove⟩ := hallowed
    exact .inr ⟨_, step_singleton_queue hx, hmove⟩

theorem move_of_step {s : Setup E M A F} {x : LoopState} {g : Governor E M A F}
    {c : GovernorConfig E M A F} (h : step (executeGovernor s) ⟨[x], g⟩ = .running c) :
    Move s g x c := by
  obtain ⟨e, n, he, -⟩ | ⟨c', hc, hmove⟩ := step_cases s g x
  · rw [he] at h
    cases h
  · rw [hc] at h
    cases h
    exact hmove

theorem raised_of_step {s : Setup E M A F} {x : LoopState} {g : Governor E M A F}
    {e : Raised F} (h : step (executeGovernor s) ⟨[x], g⟩ = .done (.error e)) :
    ∃ n, Raised.Left g x n e := by
  obtain ⟨e', n, he, hraised⟩ | ⟨c, hc, -⟩ := step_cases s g x
  · rw [he] at h
    cases h
    exact ⟨n, hraised⟩
  · rw [hc] at h
    cases h

/-! ## Invariants of the runs -/

theorem Move.queue_length {s : Setup E M A F} {g : Governor E M A F} {x : LoopState}
    {c : GovernorConfig E M A F} (h : Move s g x c) : c.queue.length ≤ 1 := by
  cases h <;> exact Nat.le_of_ble_eq_true rfl

/-- No more than one state is ever queued. -/
theorem Reachable.queue_length {s : Setup E M A F} {c : GovernorConfig E M A F}
    (h : Reachable s c) : c.queue.length ≤ 1 := by
  obtain ⟨world, agents, h⟩ := h
  refine steps_invariant (I := fun c => c.queue.length ≤ 1) ?_ (le_refl _) h
  rintro ⟨queue, g⟩ b ha hstep
  match queue, ha with
  | [], _ => cases hstep
  | [x], _ => exact (move_of_step hstep).queue_length
  | _ :: _ :: _, ha => exact absurd ha (by simp)

theorem Reachable.queue_cases {s : Setup E M A F} {c : GovernorConfig E M A F}
    (h : Reachable s c) : c = ⟨[], c.context⟩ ∨ ∃ x, c = ⟨[x], c.context⟩ := by
  obtain ⟨queue, g⟩ := c
  match queue, h.queue_length with
  | [], _ => exact .inl rfl
  | [x], _ => exact .inr ⟨x, rfl⟩
  | _ :: _ :: _, hlength => exact absurd hlength (by simp)

/-- A step makes the move of the one state that is queued. -/
theorem Reachable.exists_move {s : Setup E M A F} {b c : GovernorConfig E M A F}
    (h : Reachable s b) (hstep : step (executeGovernor s) b = .running c) :
    ∃ x, b = ⟨[x], b.context⟩ ∧ Move s b.context x c := by
  obtain hq | ⟨x, hq⟩ := h.queue_cases
  · rw [hq] at hstep
    cases hstep
  · rw [hq] at hstep
    exact ⟨x, hq, move_of_step hstep⟩

/-- What a state that raises leaves. -/
theorem Reachable.exists_raised {s : Setup E M A F} {c : GovernorConfig E M A F}
    (h : Reachable s c) {e : Raised F} (he : step (executeGovernor s) c = .done (.error e)) :
    ∃ x n, c = ⟨[x], c.context⟩ ∧ Raised.Left c.context x n e := by
  obtain hq | ⟨x, hq⟩ := h.queue_cases
  · rw [hq] at he
    cases he
  · rw [hq] at he
    obtain ⟨n, hleft⟩ := raised_of_step he
    exact ⟨x, n, hq, hleft⟩

/-- How a configuration has been reached. -/
theorem Reachable.cases {s : Setup E M A F} {c : GovernorConfig E M A F} (h : Reachable s c) :
    (∃ world agents, c = governorStart world agents) ∨
      ∃ x g, Reachable s ⟨[x], g⟩ ∧ Steps (executeGovernor s) ⟨[x], g⟩ c ∧ Move s g x c := by
  obtain ⟨world, agents, h⟩ := h
  obtain rfl | ⟨b, hb, hstep⟩ := Relation.ReflTransGen.cases_tail h
  · exact .inl ⟨world, agents, rfl⟩
  have hreach : Reachable s b := ⟨world, agents, hb⟩
  obtain ⟨x, hq, hmove⟩ := hreach.exists_move hstep
  rw [hq] at hstep hreach
  exact .inr ⟨x, b.context, hreach, .single hstep, hmove⟩

/-- **Invariant rule** of the governor, with the step that makes the move. -/
theorem governor_step_invariant {s : Setup E M A F} {I : GovernorConfig E M A F → Prop}
    (hstart : ∀ world agents, I (governorStart world agents))
    (hmove : ∀ x g c, Reachable s ⟨[x], g⟩ → I ⟨[x], g⟩ →
      step (executeGovernor s) ⟨[x], g⟩ = .running c → Move s g x c → I c)
    {c : GovernorConfig E M A F} (h : Reachable s c) : I c := by
  obtain ⟨world, agents, h⟩ := h
  suffices hboth : Reachable s c ∧ I c from hboth.2
  refine steps_invariant (I := fun c => Reachable s c ∧ I c) ?_
    ⟨⟨world, agents, .refl⟩, hstart world agents⟩ h
  rintro a b ⟨⟨world, agents, ha⟩, hI⟩ hstep
  have hreach : Reachable s a := ⟨world, agents, ha⟩
  refine ⟨⟨world, agents, .tail ha hstep⟩, ?_⟩
  obtain ⟨x, hq, hmoved⟩ := hreach.exists_move hstep
  rw [hq] at hreach hI hstep
  exact hmove x a.context b hreach hI hstep hmoved

/-- **Invariant rule** of the governor. -/
theorem governor_invariant {s : Setup E M A F} {I : GovernorConfig E M A F → Prop}
    (hstart : ∀ world agents, I (governorStart world agents))
    (hmove : ∀ x g c, Reachable s ⟨[x], g⟩ → I ⟨[x], g⟩ → Move s g x c → I c)
    {c : GovernorConfig E M A F} (h : Reachable s c) : I c :=
  governor_step_invariant hstart (fun x g c hreach hI _ hmoved => hmove x g c hreach hI hmoved) h

end Runs

/-! ## Scripted setups -/

def emptyImplementation : Implementation := ⟨[], none⟩

def emptyHypothesis (globalIterations : Int) : Hypothesis := ⟨[], [], ⟨globalIterations, 1, [], 1⟩⟩

/-- Every attack is empty and builds, the executions have the outcomes one after another, and
the analyses are above the threshold or not. The machine counts the executions. -/
def scriptedSetup (globalIterations : Int) (above : Bool) (outcomes : Nat → RunOutcome) :
    Setup Unit Nat Unit Unit where
  config := ⟨"harness".toList, "deploy/attack.s".toList, [], 60⟩
  host :=
    { python := .default
      canWrite := fun _ _ => true
      make := fun _ _ n => some (⟨0, [], [], some (), some []⟩, n)
      execute := fun _ _ _ disk n => (outcomes n, disk, n + 1) }
  team :=
    { hypothesis := fun _ _ => (.ok (some (emptyHypothesis globalIterations)), ())
      implementation := fun _ _ _ => (.ok (some emptyImplementation), ())
      summarization := fun _ _ => .callTool fun _ => .answer (.ok none) () }
  num :=
    { zero := ()
      std := fun _ => ()
      ttestInd := fun _ _ => ((), ())
      significant := fun _ => true
      score := fun _ _ _ _ _ => ()
      damp := fun _ _ => ()
      average := fun _ => ()
      aboveThreshold := fun _ => above
      columns := refusingColumns }

/-- Every execution has the one outcome, and every analysis is above the threshold. -/
def constantSetup (globalIterations : Int) (outcome : RunOutcome) : Setup Unit Nat Unit Unit :=
  scriptedSetup globalIterations true fun _ => outcome

def constantWorld : World Unit Nat :=
  ⟨⟨some [], none, none, none, none, none, none⟩, 0, []⟩

def constantContext (globalIterations : Int) : GovernorContext Unit :=
  { GovernorContext.initial Unit with
    currentHypothesis := some (emptyHypothesis globalIterations)
    currentImplementation := some emptyImplementation }

def constantGovernor (globalIterations : Int) : Governor Unit Nat Unit Unit :=
  ⟨constantContext globalIterations, ⟨.initial, constantWorld⟩, (), []⟩

/-- An output with one trial. -/
def oneTrial : Text :=
  ("\x7b\"seed\":1,\"data\":[\x7b\"iteration\":0,\"durations\":[" ++
    "\x7b\"class\":1,\"duration\":5\x7d]\x7d]\x7d").toList

/-- An execution that measures one trial. -/
def measured : RunOutcome := .exited 0 (Utf8.ascii oneTrial) []

/-- Four rounds, in which one trial is measured and analysed. -/
def measuredRun (above : Bool) : Option (GovernorConfig Unit Nat Unit Unit) :=
  advance (executeGovernor (scriptedSetup 1 above fun _ => measured)) 4
    (governorStart constantWorld ())

theorem isSome_measuredRun (above : Bool) : (measuredRun above).isSome = true := by
  cases above <;> decide +kernel

/-- The analysis is followed by the conclusion or by the summarization. -/
theorem exists_reachable_measured (above : Bool) :
    ∃ c, Reachable (scriptedSetup 1 above fun _ => measured) c ∧ measuredRun above = some c ∧
      c.queue = [if above then .conclusion else .summarization] ∧
      c.context.context.currentStats.isSome = true ∧ c.context.log.length = 4 := by
  obtain ⟨c, hc⟩ := Option.isSome_iff_exists.mp (isSome_measuredRun above)
  have hqueue : (measuredRun above).map (fun c => c.queue) =
      some [if above then .conclusion else .summarization] := by
    cases above <;> decide +kernel
  have hstats : (measuredRun above).map (fun c => c.context.context.currentStats.isSome) =
      some true := by
    cases above <;> decide +kernel
  have hlog : (measuredRun above).map (fun c => c.context.log.length) = some 4 := by
    cases above <;> decide +kernel
  rw [hc, Option.map_some, Option.some_inj] at hqueue hstats hlog
  exact ⟨c, ⟨constantWorld, (), steps_of_advance hc⟩, hc, hqueue, hstats, hlog⟩

end MicroSampler.Agents
