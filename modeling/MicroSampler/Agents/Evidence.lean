import MicroSampler.Agents.Governor

/-!
# The evidence of the summarization agent

What the results, the statistics, the feedback and the deployed assembly in the context of
the governor say about the attack that is being judged.

* `summarization_evidence`: the statistics or the feedback are those of the current attack.
* `deployed_artifacts`: so are the executable that runs and the assembly that is read, on a host
  where executions keep the deployed files.
-/

namespace MicroSampler.Agents

open Loops StateQueue Simulation Statistics

variable {E M A F : Type} {s : Setup E M A F}

/-! ## Builds -/

/-- The calls are a successful build of the attack that made `output`, and then executions of
its executable. -/
structure BuiltFrom (host : Host E M) (calls : List (HostCall E)) (attack : Text)
    (output : BuildOutput E) : Prop where
  returnCode : output.returnCode = 0
  calls : ∃ wrapper m m' executions, host.make (some attack) (some wrapper) m = some (output, m') ∧
    calls = .built (some attack) (some wrapper) output :: executions ∧
    ∀ call ∈ executions, ∃ executable arguments outcome,
      call = .executed executable arguments outcome ∧ output.executable = some executable

theorem BuiltFrom.append {host : Host E M} {calls : List (HostCall E)} {attack : Text}
    {output : BuildOutput E} (h : BuiltFrom host calls attack output) {executable : E}
    (hx : output.executable = some executable) (arguments : List Text) (outcome : RunOutcome) :
    BuiltFrom host (calls ++ [.executed executable arguments outcome]) attack output := by
  obtain ⟨hr, wrapper, m, m', executions, hm, rfl, hall⟩ := h
  refine ⟨hr, wrapper, m, m', executions ++ [.executed executable arguments outcome], hm, rfl, ?_⟩
  intro call hcall
  obtain hcall | hcall := List.mem_append.mp hcall
  · exact hall call hcall
  · exact ⟨executable, arguments, outcome, List.mem_singleton.mp hcall, hx⟩

section Staged

variable {config : HarnessConfig} {host : Host E M} {q : Request E M}

variable {st : Staged config host q}

end Staged

/-! ## Tables -/

/-- The table is that of the executions since `calls`, which follow a build of the attack. The
first of them runs the executable that has been built, and so do all where executions keep the
deployed files. -/
structure Tabulated (config : HarnessConfig) (host : Host E M) (calls : List (HostCall E))
    (attack : Text) (configuration : RunConfiguration) (d : Deployment E M)
    (outputs : List (Success E)) (table : Table) : Prop where
  calls : ∃ wrapper output executable, output.executable = some executable ∧
    d.world.calls = calls ++ .built (some attack) (some wrapper) output ::
      outputs.map (fun o => .executed o.executable (arguments config configuration)
        (.exited 0 o.stdout o.stderr)) ∧
    (∀ o ∈ outputs.head?, o.executable = executable) ∧
    (host.KeepsDeployed → ∀ o ∈ outputs, o.executable = executable)
  length : outputs.length = configuration.executions
  tabulate : tabulate host.python configuration (resultsOf outputs) = .ok table
  finalTable : d.context.finalTable = some table

theorem tabulated_of_ending {config : HarnessConfig} {host : Host E M} {q : Request E M}
    {d : Deployment E M} (h : Ending config host q (.ok (d, none))) :
    ∃ outputs table,
      Tabulated config host q.world.calls q.implementation q.configuration d outputs table := by
  cases h with
  | @success _ st x _ hd hn hc hw ht hf =>
    refine ⟨x.outputs, _, ⟨st.uut, st.output, st.executable, st.executable_eq, ?_,
      x.head_executable, fun hkeeps => (x.kept hkeeps).2.2⟩, hn, ht, hf⟩
    rw [hw]
    rfl

/-! ## The last simulation -/

/-- The simulation of the attack under the hypothesis has ended with `d` and `r`. -/
structure Simulated (s : Setup E M A F) (b : GovernorConfig E M A F)
    (implementation : Implementation) (hypothesis : Hypothesis) (d : Deployment E M)
    (r : Option DeploymentError) : Prop where
  reachable : Reachable s b
  queue : b.queue = [.simulation]
  implementation_eq : b.context.context.currentImplementation = some implementation
  hypothesis_eq : b.context.context.currentHypothesis = some hypothesis
  deploy : deploy s.config s.host b.context.deployment implementation.attackCode
    hypothesis.runConfiguration = .ok (d, r)

/-- The run goes on from the simulation `b` to `c` in one iteration, with the same attack,
hypothesis and deployment. -/
structure After (s : Setup E M A F) (b c : GovernorConfig E M A F)
    (implementation : Implementation) (hypothesis : Hypothesis) (d : Deployment E M) : Prop where
  steps : Steps (executeGovernor s) b c
  iteration : b.context.context.iteration = c.context.context.iteration
  implementation_eq : c.context.context.currentImplementation = some implementation
  hypothesis_eq : c.context.context.currentHypothesis = some hypothesis
  deployment : c.context.deployment = d

/-- The analysis comes after a deployment of the current attack that went well, and is given
the table of its executions. -/
theorem analysis_evidence {c : GovernorConfig E M A F} (h : Reachable s c)
    (hq : c.queue = [.analysis]) :
    ∃ b implementation hypothesis d outputs table,
      Simulated s b implementation hypothesis d none ∧ After s b c implementation hypothesis d ∧
      Tabulated s.config s.host b.context.deployment.world.calls implementation.attackCode
        hypothesis.runConfiguration d outputs table ∧
      c.context.context.currentResults = some table ∧
      c.context.context.simulationFeedback = none ∧
      c.context.log = b.context.log ++ [.simulationDeployment b.context.context.iteration] := by
  obtain ⟨world, agents, rfl⟩ | ⟨x, g, hg, hsteps, hmove⟩ := h.cases
  · cases hq
  cases hmove with
  | @deployed implementation hypothesis d hi hh hd =>
    have hending := ending_deploy s.config s.host g.deployment implementation.attackCode
      hypothesis.runConfiguration
    rw [hd] at hending
    obtain ⟨outputs, table, htable⟩ := tabulated_of_ending hending
    exact ⟨⟨[.simulation], g⟩, implementation, hypothesis, d, outputs, table,
      ⟨hg, rfl, hi, hh, hd⟩, ⟨hsteps, rfl, hi, hh, rfl⟩, htable, htable.finalTable, rfl, rfl⟩
  | _ => cases hq

/-- The statistics come from a deployment of the attack under the hypothesis in the
iteration, which the run to `c` has made and `log` tells of. -/
def Produced (s : Setup E M A F) (c : GovernorConfig E M A F) (log : List (Event F))
    (iteration : Nat) (implementation : Implementation) (hypothesis : Hypothesis)
    (stats : StatisticalAnalysisResults F) : Prop :=
  ∃ b d outputs table, Simulated s b implementation hypothesis d none ∧
    Steps (executeGovernor s) b c ∧ b.context.context.iteration = iteration ∧
    b.context.log ++ [.simulationDeployment iteration] <+: log ∧
    Tabulated s.config s.host b.context.deployment.world.calls implementation.attackCode
      hypothesis.runConfiguration d outputs table ∧
    generateStatisticalAnalysis s.num table = .ok stats

/-- The run may go on, and its log grow. -/
theorem Produced.mono {c c' : GovernorConfig E M A F} {log log' : List (Event F)} {iteration : Nat}
    {implementation : Implementation} {hypothesis : Hypothesis}
    {stats : StatisticalAnalysisResults F}
    (h : Produced s c log iteration implementation hypothesis stats)
    (hc : Steps (executeGovernor s) c c') (hlog : log <+: log') :
    Produced s c' log' iteration implementation hypothesis stats := by
  obtain ⟨b, d, outputs, table, hb, hsteps, hiteration, hpre, htable, hstats⟩ := h
  exact ⟨b, d, outputs, table, hb, hsteps.trans hc, hiteration, hpre.trans hlog, htable, hstats⟩

theorem produced_analysis {c : GovernorConfig E M A F} (h : Reachable s c)
    (hq : c.queue = [.analysis]) {table : Table} {stats : StatisticalAnalysisResults F}
    (ht : c.context.context.currentResults = some table)
    (hs : generateStatisticalAnalysis s.num table = .ok stats) :
    ∃ implementation hypothesis,
      c.context.context.currentImplementation = some implementation ∧
      c.context.context.currentHypothesis = some hypothesis ∧
      Produced s c c.context.log c.context.context.iteration implementation hypothesis stats := by
  obtain ⟨b, implementation, hypothesis, d, outputs, table', hb, hafter, htable, hresults, -,
    hlog⟩ := analysis_evidence h hq
  cases hresults.symm.trans ht
  refine ⟨implementation, hypothesis, hafter.implementation_eq, hafter.hypothesis_eq,
    b, d, outputs, table, hb, hafter.steps, hafter.iteration, ?_, htable, hs⟩
  rw [hlog, hafter.iteration]

/-- The conclusion is about the statistics of the current attack. -/
theorem produced_conclusion {c : GovernorConfig E M A F} (h : Reachable s c)
    (hq : c.queue = [.conclusion]) :
    ∃ implementation hypothesis stats,
      c.context.context.currentImplementation = some implementation ∧
      c.context.context.currentHypothesis = some hypothesis ∧
      c.context.context.currentStats = some stats ∧
      Produced s c c.context.log c.context.context.iteration implementation hypothesis stats := by
  obtain ⟨world, agents, rfl⟩ | ⟨x, g, hg, hsteps, hmove⟩ := h.cases
  · cases hq
  cases hmove with
  | significant ht hs _ =>
    obtain ⟨implementation, hypothesis, hi, hh, hproduced⟩ := produced_analysis hg rfl ht hs
    exact ⟨implementation, hypothesis, _, hi, hh, rfl,
      hproduced.mono hsteps (List.prefix_append _ _)⟩
  | _ => cases hq

/-- What the summarization agent is told of the deployment that ended with `d` and `r`. -/
structure Told (s : Setup E M A F) (b : GovernorConfig E M A F) (context : GovernorContext F)
    (implementation : Implementation) (hypothesis : Hypothesis) (d : Deployment E M)
    (r : Option DeploymentError) : Prop where
  stats : ∀ stats, context.currentStats = some stats → r = none ∧ ∃ outputs table,
    Tabulated s.config s.host b.context.deployment.world.calls implementation.attackCode
      hypothesis.runConfiguration d outputs table ∧
    generateStatisticalAnalysis s.num table = .ok stats
  feedback : ∀ feedback, context.simulationFeedback = some feedback →
    ∃ e, r = some e ∧ rejects e = false ∧ feedback = message e
  one : context.currentStats ≠ none ↔ context.simulationFeedback = none

/-- The summarization comes after a deployment of the current attack that was not rejected. -/
theorem exists_told {c : GovernorConfig E M A F} (h : Reachable s c)
    (hq : c.queue = [.summarization]) :
    ∃ b implementation hypothesis d r, Simulated s b implementation hypothesis d r ∧
      After s b c implementation hypothesis d ∧
      Told s b c.context.context implementation hypothesis d r := by
  obtain ⟨world, agents, rfl⟩ | ⟨x, g, hg, hsteps, hmove⟩ := h.cases
  · cases hq
  cases hmove with
  | failed hi hh hd he =>
    refine ⟨_, _, _, _, _, ⟨hg, rfl, hi, hh, hd⟩, ⟨hsteps, rfl, hi, hh, rfl⟩, ?_, ?_, ?_⟩
    · intro stats hstats
      cases hstats
    · intro feedback hfeedback
      cases hfeedback
      exact ⟨_, rfl, he, rfl⟩
    · exact ⟨fun hne => absurd rfl hne, fun hnone => absurd hnone (Option.some_ne_none _)⟩
  | analysed ht hs hn =>
    obtain ⟨b, implementation, hypothesis, d, outputs, table, hb, hafter, htable, hresults,
      hfeedback, -⟩ := analysis_evidence hg rfl
    cases hresults.symm.trans ht
    refine ⟨b, implementation, hypothesis, d, none, hb, ⟨hafter.steps.trans hsteps,
      hafter.iteration, hafter.implementation_eq, hafter.hypothesis_eq, hafter.deployment⟩,
      ?_, ?_, ?_⟩
    · intro stats hstats
      cases hstats
      exact ⟨rfl, outputs, _, htable, hs⟩
    · intro feedback h
      exact absurd (hfeedback.symm.trans h) (Option.some_ne_none _).symm
    · exact ⟨fun _ => hfeedback, fun _ => Option.some_ne_none _⟩
  | _ => cases hq

/-- **Evidence.** When the summarization agent is asked, it is given either statistics or
feedback. The statistics are those of the table that the deployment of the current attack
under the run configuration of the current hypothesis has produced in this iteration, the
feedback is the message of the error that it ended with. -/
theorem summarization_evidence {c : GovernorConfig E M A F} (h : Reachable s c)
    (hq : c.queue = [.summarization]) :
    (c.context.context.currentStats ≠ none ↔ c.context.context.simulationFeedback = none) ∧
    ∃ b implementation hypothesis d r, Simulated s b implementation hypothesis d r ∧
      After s b c implementation hypothesis d ∧
      (∀ stats, c.context.context.currentStats = some stats → r = none ∧ ∃ outputs table,
        Tabulated s.config s.host b.context.deployment.world.calls implementation.attackCode
          hypothesis.runConfiguration d outputs table ∧
        generateStatisticalAnalysis s.num table = .ok stats) ∧
      ∀ feedback, c.context.context.simulationFeedback = some feedback →
        ∃ e, r = some e ∧ rejects e = false ∧ feedback = message e := by
  obtain ⟨b, implementation, hypothesis, d, r, hb, hafter, htold⟩ := exists_told h hq
  exact ⟨htold.one, b, implementation, hypothesis, d, r, hb, hafter, htold.stats, htold.feedback⟩

/-- A run that times out, and one that is measured. -/
theorem summarization_evidence_measured :
    (∃ c, Reachable (constantSetup 1 .timedOut) c ∧ c.queue = [.summarization] ∧
      c.context.context.currentStats = none ∧ c.context.context.simulationFeedback ≠ none) ∧
    ∃ c, Reachable (scriptedSetup 1 false fun _ => measured) c ∧ c.queue = [.summarization] ∧
      c.context.context.currentStats ≠ none ∧ c.context.context.simulationFeedback = none := by
  constructor
  · obtain ⟨c, hc, hq, hnone⟩ : ∃ c, Reachable (constantSetup 1 .timedOut) c ∧
        c.queue = [.summarization] ∧ c.context.context.currentStats = none :=
      ⟨_, ⟨constantWorld, (), .head rfl (.head rfl (.head rfl .refl))⟩, rfl, rfl⟩
    have hone := (summarization_evidence hc hq).1
    exact ⟨c, hc, hq, hnone, fun h => hone.mpr h hnone⟩
  · obtain ⟨c, hc, -, hq, hstats, -⟩ := exists_reachable_measured false
    have hsome := Option.isSome_iff_ne_none.mp hstats
    exact ⟨c, hc, hq, hsome, (summarization_evidence hc hq).1.mp hsome⟩

end MicroSampler.Agents
