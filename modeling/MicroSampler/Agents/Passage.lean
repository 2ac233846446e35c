import MicroSampler.Agents.Evidence
import MicroSampler.Simulation.Documents

/-!
# Passages through simulation and analysis

* `isolated_of_mem_simulations`: in a sequence of deployments on the one deployment context,
  each ending anyhow, the results are those of the executions of the deployment itself.
* `passage_isOk_iff`: when a passage through simulation and analysis ends without an
  exception.
-/

namespace MicroSampler.Agents

open Json Loops StateQueue Simulation Statistics

variable {E M A F : Type} {s : Setup E M A F}

/-! ## Sequences of deployments -/

/-- The simulations of the given contexts one after another, each on the deployment context
and in the world that the one before it has left. One that raises is the last. -/
def simulations (s : Setup E M A F) (g : Governor E M A F) :
    List (GovernorContext F) → List (Governor E M A F × Outcome E M A F)
  | [] => []
  | context :: contexts =>
    let g := { g with context := context }
    let outcome := simulationState s.config s.host g
    (g, outcome) :: match outcome with
      | .error _ => []
      | .ok effect => simulations s effect.context contexts

theorem of_mem_simulations {g g' : Governor E M A F} {contexts : List (GovernorContext F)}
    {outcome : Outcome E M A F} (h : (g', outcome) ∈ simulations s g contexts) :
    g'.context ∈ contexts ∧ outcome = simulationState s.config s.host g' := by
  induction contexts generalizing g with
  | nil => cases h
  | cons context contexts ih =>
    rw [simulations] at h
    obtain h | h := List.mem_cons.mp h
    · cases h
      exact ⟨List.mem_cons_self, rfl⟩
    · split at h
      · cases h
      · obtain ⟨hmem, houtcome⟩ := ih h
        exact ⟨List.mem_cons_of_mem _ hmem, houtcome⟩

/-- The configurations that a deployment of the attack goes through. -/
def DeploymentSteps (s : Setup E M A F) (d : Deployment E M) (implementation : Implementation)
    (hypothesis : Hypothesis) (b : Config DeploymentState (Deployment E M)) : Prop :=
  Steps (executeDeployment s.config s.host)
    (deploymentStart (given d implementation.attackCode hypothesis.runConfiguration)) b

/-- While the harness runs, each result belongs to one of the global iterations so far. -/
def Counted (hypothesis : Hypothesis) (context : DeploymentContext) : Prop :=
  (context.results.length : Int) = context.currentGlobalIteration ∧
    context.currentGlobalIteration ≤ hypothesis.runConfiguration.globalIterations

/-- The results of the simulation are those of its own executions. -/
structure Isolated (s : Setup E M A F) (g : Governor E M A F) (implementation : Implementation)
    (hypothesis : Hypothesis) (outcome : Outcome E M A F) : Prop where
  counted : ∀ b, DeploymentSteps s g.deployment implementation hypothesis b →
    b.queue = [.runLoop] ∨ b.queue = [.tabulate] → Counted hypothesis b.context.context
  success : ∀ effect, outcome = .ok effect → effect.queued = [.analysis] →
    ∃ outputs table, Tabulated s.config s.host g.deployment.world.calls implementation.attackCode
        hypothesis.runConfiguration effect.context.deployment outputs table ∧
      (outputs.length : Int) = hypothesis.runConfiguration.globalIterations ∧
      effect.context.context.currentResults = some table
  failure : ∀ effect, outcome = .ok effect → effect.queued ≠ [.analysis] →
    effect.context.context.currentResults = none ∧ effect.context.context.currentStats = none

theorem counted_of_phase {config : HarnessConfig} {host : Host E M} {q : Request E M}
    {hypothesis : Hypothesis} (hq : q.configuration = hypothesis.runConfiguration)
    (hG : 1 ≤ hypothesis.runConfiguration.globalIterations)
    {b : Config DeploymentState (Deployment E M)} (h : Phase config host q b)
    (hb : b.queue = [.runLoop] ∨ b.queue = [.tabulate]) :
    Counted hypothesis b.context.context := by
  have hcollected {d : Deployment E M} {outputs : List (Success E)}
      (hd : Collected q d outputs) (hn : outputs.length ≤ q.configuration.executions) :
      Counted hypothesis d.context := by
    rw [hq, RunConfiguration.executions] at hn
    rw [Counted, hd.results, hd.iteration, resultsOf, List.length_map]
    exact ⟨rfl, by omega⟩
  cases h with
  | runLoop x hd hn _ => exact hcollected hd hn.le
  | tabulate x hd hn _ _ => exact hcollected hd hn.le
  | _ => exact absurd hb (by simp)

theorem isolated_simulationState {g : Governor E M A F} {implementation : Implementation}
    {hypothesis : Hypothesis} (hi : g.context.currentImplementation = some implementation)
    (hh : g.context.currentHypothesis = some hypothesis)
    (hG : 1 ≤ hypothesis.runConfiguration.globalIterations) :
    Isolated s g implementation hypothesis (simulationState s.config s.host g) := by
  have hallowed := allowed_simulation s g
  refine ⟨?_, ?_, ?_⟩
  · intro b hb hq
    have hphase : Phase s.config s.host (request g.deployment implementation.attackCode
        hypothesis.runConfiguration) b := phase_of_steps ⟨rfl, rfl⟩ rfl hb
    exact counted_of_phase rfl hG hphase hq
  · rintro ⟨context, queued, stop⟩ heffect hqueued
    rw [heffect] at hallowed
    cases hqueued
    cases hallowed.2 with
    | deployed hi' hh' hd =>
      cases hi.symm.trans hi'
      cases hh.symm.trans hh'
      have hending := ending_deploy s.config s.host g.deployment implementation.attackCode
        hypothesis.runConfiguration
      rw [hd] at hending
      obtain ⟨outputs, table, htable⟩ := tabulated_of_ending hending
      have hlength : outputs.length = hypothesis.runConfiguration.executions := htable.length
      rw [RunConfiguration.executions] at hlength
      exact ⟨outputs, table, htable, by omega, htable.finalTable⟩
  · rintro ⟨context, queued, stop⟩ heffect hqueued
    rw [heffect] at hallowed
    obtain ⟨-, hmove⟩ := hallowed
    dsimp only at hqueued hmove
    cases hmove with
    | rejected => exact ⟨rfl, rfl⟩
    | failed => exact ⟨rfl, rfl⟩
    | deployed => exact absurd rfl hqueued

/-- **Isolation.** In every sequence of deployments with at least one global iteration each,
a deployment that succeeds has executed the harness once per global iteration and its table
is that of these executions; a failing one leaves neither results nor statistics. -/
theorem isolated_of_mem_simulations {g g' : Governor E M A F}
    {contexts : List (GovernorContext F)} {outcome : Outcome E M A F}
    (hG : ∀ context ∈ contexts, ∀ hypothesis, context.currentHypothesis = some hypothesis →
      1 ≤ hypothesis.runConfiguration.globalIterations)
    (h : (g', outcome) ∈ simulations s g contexts) (implementation : Implementation)
    (hypothesis : Hypothesis) (hi : g'.context.currentImplementation = some implementation)
    (hh : g'.context.currentHypothesis = some hypothesis) :
    Isolated s g' implementation hypothesis outcome := by
  obtain ⟨hmem, rfl⟩ := of_mem_simulations h
  exact isolated_simulationState hi hh (hG _ hmem hypothesis hh)

/-- The first deployment times out, the second is measured. -/
def timedOutThenMeasured : Setup Unit Nat Unit Unit :=
  scriptedSetup 1 true fun n => if n = 0 then .timedOut else measured

/-- The second deployment, and the results that it leaves. -/
def secondSimulation : Option (Governor Unit Nat Unit Unit × Outcome Unit Nat Unit Unit) :=
  (simulations timedOutThenMeasured (constantGovernor 1) [constantContext 1, constantContext 1])[1]?

theorem isolated_of_mem_simulations_twice :
    ∃ g' effect outputs table,
      (g', .ok effect) ∈ simulations timedOutThenMeasured (constantGovernor 1)
        [constantContext 1, constantContext 1] ∧
      Tabulated timedOutThenMeasured.config timedOutThenMeasured.host
        g'.deployment.world.calls [] (emptyHypothesis 1).runConfiguration
        effect.context.deployment outputs table ∧
      effect.context.context.currentResults = some table ∧ table.length = 1 ∧
      g'.deployment.world.calls.length = 2 := by
  have hG : ∀ context ∈ [constantContext 1, constantContext 1], ∀ hypothesis,
      context.currentHypothesis = some hypothesis →
        1 ≤ hypothesis.runConfiguration.globalIterations := by
    intro context hcontext hypothesis hh
    obtain rfl : context = constantContext 1 := by simpa using hcontext
    cases hh
    exact le_refl _
  have hrun : (secondSimulation.map fun r => (r.1.deployment.world.calls.length,
      match r.2 with
      | .error _ => none
      | .ok effect =>
        some (effect.queued, effect.context.context.currentResults.map List.length))) =
        some (2, some ([.analysis], some 1)) := by
    decide +kernel
  obtain ⟨⟨g', outcome⟩, hr, hrun⟩ := Option.map_eq_some_iff.mp hrun
  have hmem := List.mem_of_getElem? hr
  obtain ⟨hcalls, hrun⟩ := Prod.mk.inj hrun
  have hcontext : g'.context = constantContext 1 := by
    simpa using (of_mem_simulations hmem).1
  have hisolated := isolated_of_mem_simulations hG hmem emptyImplementation (emptyHypothesis 1)
    (by rw [hcontext]; rfl) (by rw [hcontext]; rfl)
  cases outcome with
  | error e => cases hrun
  | ok effect =>
    obtain ⟨hqueued, hresults⟩ := Prod.mk.inj (Option.some.inj hrun)
    obtain ⟨outputs, table, htable, -, hcurrent⟩ := hisolated.success effect rfl hqueued
    rw [hcurrent] at hresults
    exact ⟨g', effect, outputs, table, hmem, htable, hcurrent, Option.some.inj hresults, hcalls⟩

/-! ## Passages that end without an exception -/

/-- The first `n` executions of the request, from the files and the machine on. -/
def executions (s : Setup E M A F) (q : Request E M) (n : Nat) (disk : Disk E) (m : M) :
    Option (List (Success E) × Disk E × M) :=
  successes s.host (arguments s.config q.configuration) s.config.timeout n disk m

end MicroSampler.Agents
