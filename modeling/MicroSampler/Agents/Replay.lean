import MicroSampler.Agents.Governor

/-!
# What the report log tells about a run

The log of a run is a complete record of what the agents are told. `replay` reads the queued
state and the context back from the log alone, and it agrees with every run (`replay_log`).

An analysis above the threshold is the last event of a log but for the conclusion that it is due
(`early_stopping`), and a run returns when there is such an analysis, and only then
(`returns_iff`).
-/

namespace MicroSampler.Agents

open StateQueue Statistics

variable {E M A F : Type}

/-! ## Replaying a log -/

/-- What is queued, and the context without the table that is to be analysed. -/
structure View (F : Type) where
  queue : List LoopState
  context : GovernorContext F

def GovernorContext.withoutTable (context : GovernorContext F) : GovernorContext F :=
  { context with currentResults := none }

def GovernorConfig.view (c : GovernorConfig E M A F) : View F :=
  ⟨c.queue, c.context.context.withoutTable⟩

/-- The view after one more event. -/
def View.after (num : Numerics F) (v : View F) :
    Event F → View F
  | .toolCall _ _ => v
  | .hypothesis _ payload => ⟨[.codeGen], { v.context with currentHypothesis := payload }⟩
  | .implementation _ payload =>
    ⟨[.simulation], { v.context with currentImplementation := payload }⟩
  | .simulationDeployment _ => ⟨[.analysis], v.context.cleared⟩
  | .implementationError _ payload =>
    ⟨[.codeGen], { v.context with simulationFeedback := some (message payload) }⟩
  | .simulationError _ payload =>
    ⟨[.summarization], { v.context with simulationFeedback := some (message payload) }⟩
  | .analysis _ payload =>
    ⟨[if num.aboveThreshold payload.iterationScore then .conclusion else .summarization],
      { v.context with currentStats := some payload }⟩
  | .summarization _ payload =>
    ⟨[.hypothesis], { v.context with
      currentSummarization := payload
      simulationFeedback := none
      iteration := v.context.iteration + 1 }⟩
  | .conclusion _ _ => ⟨[], v.context⟩

/-- The view that a log leads to. -/
def replay (num : Numerics F) (log : List (Event F)) : View F :=
  log.foldl (View.after num) ⟨[.hypothesis], .initial F⟩

theorem replay_append (num : Numerics F)
    (log log' : List (Event F)) :
    replay num (log ++ log') = log'.foldl (View.after num) (replay num log) :=
  List.foldl_append

theorem replay_toolCalls (num : Numerics F)
    (log : List (Event F)) (i n : Nat) :
    replay num (log ++ toolCalls i n) = replay num log := by
  induction n with
  | zero => rw [toolCalls, List.replicate_zero, List.append_nil]
  | succ n ih =>
    have hsnoc : toolCalls i (n + 1) =
        toolCalls i n ++ [(.toolCall i "read_attack_assembly".toList : Event F)] :=
      List.replicate_succ'
    rw [hsnoc, ← List.append_assoc, replay_append, ih]
    rfl

/-- A move changes the view as the events that it logs do. -/
theorem Move.view_eq {s : Setup E M A F} {g : Governor E M A F} {x : LoopState}
    {c : GovernorConfig E M A F} (h : Move s g x c)
    (hg : GovernorConfig.view ⟨[x], g⟩ = replay s.num g.log) :
    c.view = replay s.num c.context.log := by
  have happend (events : List (Event F)) : replay s.num (g.log ++ events) =
      events.foldl (View.after s.num) (GovernorConfig.view ⟨[x], g⟩) := by
    rw [replay_append, ← hg]
  cases h with
  | hypothesis | codeGen | rejected | failed | deployed | concluded =>
    refine Eq.trans ?_ (happend _).symm
    rfl
  | analysed ht hs hn | significant ht hs hn =>
    refine Eq.trans ?_ (happend _).symm
    simp only [List.foldl_cons, List.foldl_nil, View.after, hn]
    rfl
  | summarized =>
    rw [replay_append, replay_toolCalls, ← hg]
    rfl

theorem view_eq_replay {s : Setup E M A F} {c : GovernorConfig E M A F} (h : Reachable s c) :
    c.view = replay s.num c.context.log :=
  governor_invariant (I := fun c => c.view = replay s.num c.context.log)
    (fun _ _ => rfl) (fun _ _ _ _ hg hmove => hmove.view_eq hg) h

/-- The state that raises clears the table no less than the view does. -/
theorem withoutTable_raisedContext (x : LoopState) (context : GovernorContext F) :
    (x.raisedContext context).withoutTable = x.raisedContext context.withoutTable := by
  cases x <;> rfl

/-- **The log is a complete record.** In every run, what is queued and everything in the
context but the table is what replaying the log gives. When a state raises, replaying the log
gives that state and the context that it leaves: that of before, from which a simulation has
already cleared the statistics and the feedback. -/
theorem replay_log {s : Setup E M A F} {c : GovernorConfig E M A F} (h : Reachable s c) :
    c.view = replay s.num c.context.log ∧
      ∀ e : Raised F, step (executeGovernor s) c = .done (.error e) →
        ∃ x, (replay s.num e.log).queue = [x] ∧ c.queue = [x] ∧
          e.context.withoutTable = x.raisedContext (replay s.num e.log).context := by
  refine ⟨view_eq_replay h, fun e he => ?_⟩
  obtain ⟨x, n, hq, hleft⟩ := h.exists_raised he
  have hview : replay s.num e.log = c.view := by
    rw [hleft.log, replay_toolCalls, view_eq_replay h]
  have hqueue : c.queue = [x] := by rw [hq]
  refine ⟨x, by rw [hview]; exact hqueue, hqueue, ?_⟩
  rw [hview, hleft.context, withoutTable_raisedContext]
  rfl

/-- The first deployment is measured, and the second one prints what is not a document. -/
def garbledSetup : Setup Unit Nat Unit Unit :=
  scriptedSetup 1 false fun n => if n = 0 then measured else .exited 0 (Utf8.ascii ['x']) []

/-- Two iterations, up to the simulation that raises. -/
def garbledRun : Option (GovernorConfig Unit Nat Unit Unit) :=
  advance (executeGovernor garbledSetup) 7 (governorStart constantWorld ())

def raisedBy (c : GovernorConfig Unit Nat Unit Unit) : Option (Raised Unit) :=
  match step (executeGovernor garbledSetup) c with
  | .done (.error e) => some e
  | _ => none

theorem exists_raised_garbled :
    ∃ c e, Reachable garbledSetup c ∧ step (executeGovernor garbledSetup) c = .done (.error e) ∧
      c.context.context.currentStats.isSome = true ∧ e.context.currentStats.isSome = false := by
  have hrun : garbledRun.isSome = true := by decide +kernel
  obtain ⟨c, hc⟩ := Option.isSome_iff_exists.mp hrun
  have hbefore : garbledRun.map (fun c => c.context.context.currentStats.isSome) = some true := by
    decide +kernel
  have hafter : (garbledRun.bind raisedBy).map (fun e => e.context.currentStats.isSome) =
      some false := by
    decide +kernel
  rw [hc, Option.map_some, Option.some_inj] at hbefore
  rw [hc, Option.bind_some, Option.map_eq_some_iff] at hafter
  obtain ⟨e, he, hnone⟩ := hafter
  refine ⟨c, e, ⟨constantWorld, (), steps_of_advance hc⟩, ?_, hbefore, hnone⟩
  unfold raisedBy at he
  split at he
  · next hraised => rw [hraised, Option.some_inj.mp he]
  · cases he

theorem replay_log_garbled :
    ∃ c e, Reachable garbledSetup c ∧ step (executeGovernor garbledSetup) c = .done (.error e) ∧
      c.view = replay garbledSetup.num c.context.log ∧ e.context.currentStats.isSome = false ∧
      ∃ x, (replay garbledSetup.num e.log).queue = [x] ∧
        e.context.withoutTable = x.raisedContext (replay garbledSetup.num e.log).context := by
  obtain ⟨c, e, hc, he, -, hnone⟩ := exists_raised_garbled
  obtain ⟨hview, hraised⟩ := replay_log hc
  obtain ⟨x, hqueue, -, hcontext⟩ := hraised e he
  exact ⟨c, e, hc, he, hview, hnone, x, hqueue, hcontext⟩

/-! ## The end of a run -/

/-- The events that settle a run: an analysis above the threshold, and the conclusion. -/
def Event.settles (num : Numerics F) : Event F → Bool
  | .analysis _ stats => num.aboveThreshold stats.iterationScore
  | .conclusion _ _ => true
  | _ => false

/-- Nothing in the log settles the run. -/
def Unsettled (num : Numerics F) (log : List (Event F)) : Prop :=
  ∀ e ∈ log, e.settles num = false

theorem unsettled_append {num : Numerics F}
    {log log' : List (Event F)} :
    Unsettled num (log ++ log') ↔ Unsettled num log ∧ Unsettled num log' :=
  List.forall_mem_append

theorem unsettled_toolCalls (num : Numerics F) (i n : Nat) :
    Unsettled num (toolCalls i n) := by
  intro e he
  rw [List.eq_of_mem_replicate he]
  rfl

/-- The analysis above the threshold and the conclusion that it is due. -/
def verdict (i : Nat) (stats : StatisticalAnalysisResults F) : List (Event F) :=
  [.analysis i stats, .conclusion i (some stats)]

/-- How far the run of a configuration is settled, by the state that is queued. -/
def Settled (num : Numerics F) (c : GovernorConfig E M A F) :
    Prop :=
  match c.queue with
  | [.conclusion] => ∃ pre stats,
      c.context.log = pre ++ [.analysis c.context.context.iteration stats] ∧
      Unsettled num pre ∧ num.aboveThreshold stats.iterationScore = true ∧
      c.context.context.currentStats = some stats
  | [] => ∃ pre stats, c.context.log = pre ++ verdict c.context.context.iteration stats ∧
      Unsettled num pre ∧ num.aboveThreshold stats.iterationScore = true ∧
      c.context.context.currentStats = some stats
  | _ => Unsettled num c.context.log

theorem Move.settled {s : Setup E M A F} {g : Governor E M A F} {x : LoopState}
    {c : GovernorConfig E M A F} (h : Move s g x c) (hg : Settled s.num ⟨[x], g⟩) :
    Settled s.num c := by
  cases h with
  | hypothesis | codeGen | rejected | failed | deployed =>
    exact unsettled_append.mpr ⟨hg, by simp [Unsettled, Event.settles]⟩
  | analysed ht hs hn =>
    exact unsettled_append.mpr ⟨hg, by simp [Unsettled, Event.settles, hn]⟩
  | significant ht hs hn => exact ⟨g.log, _, rfl, hg, hn, rfl⟩
  | summarized =>
    exact unsettled_append.mpr ⟨unsettled_append.mpr ⟨hg, unsettled_toolCalls _ _ _⟩,
      by simp [Unsettled, Event.settles]⟩
  | concluded =>
    obtain ⟨pre, stats, hlog, hpre, hn, hstats⟩ := hg
    refine ⟨pre, stats, ?_, hpre, hn, hstats⟩
    dsimp only at hlog hstats ⊢
    rw [hlog, hstats, List.append_assoc]
    rfl

theorem settled_of_reachable {s : Setup E M A F} {c : GovernorConfig E M A F}
    (h : Reachable s c) : Settled s.num c :=
  governor_invariant (I := Settled s.num) (fun _ _ => List.forall_mem_nil _)
    (fun _ _ _ _ hg hmove => hmove.settled hg) h

/-- A log that is settled by no more than an analysis and its conclusion, at its end. -/
def SettledLast (num : Numerics F) (log : List (Event F)) : Prop :=
  ∃ pre tail, log = pre ++ tail ∧ Unsettled num pre ∧
    (tail = [] ∨ ∃ i stats, num.aboveThreshold stats.iterationScore = true ∧
      tail <+: verdict i stats)

theorem Unsettled.settledLast {num : Numerics F}
    {log : List (Event F)} (h : Unsettled num log) : SettledLast num log :=
  ⟨log, [], (List.append_nil log).symm, h, .inl rfl⟩

theorem SettledLast.mono {num : Numerics F}
    {log log' : List (Event F)} (h : SettledLast num log') (hpre : log <+: log') :
    SettledLast num log := by
  obtain ⟨pre, tail, rfl, hun, htail⟩ := h
  obtain hl | ⟨rest, rfl⟩ := List.prefix_or_prefix_of_prefix hpre (List.prefix_append pre tail)
  · exact Unsettled.settledLast fun e he => hun e (hl.subset he)
  have hrest : rest <+: tail := (List.prefix_append_right_inj pre).mp hpre
  refine ⟨pre, rest, rfl, hun, ?_⟩
  obtain rfl | ⟨i, stats, hn, hverdict⟩ := htail
  · exact .inl (List.prefix_nil.mp hrest)
  · exact .inr ⟨i, stats, hn, hrest.trans hverdict⟩

theorem Settled.settledLast {num : Numerics F}
    {c : GovernorConfig E M A F} (h : Settled num c) : SettledLast num c.context.log := by
  unfold Settled at h
  split at h
  · obtain ⟨pre, stats, hlog, hpre, hn, -⟩ := h
    exact ⟨pre, _, hlog, hpre, .inr ⟨_, stats, hn, ⟨_, rfl⟩⟩⟩
  · obtain ⟨pre, stats, hlog, hpre, hn, -⟩ := h
    exact ⟨pre, _, hlog, hpre, .inr ⟨_, stats, hn, List.prefix_rfl⟩⟩
  · exact h.settledLast

/-- What a state leaves in the log when it raises does not settle the run any further. -/
theorem settledLast_raised {s : Setup E M A F} {c : GovernorConfig E M A F} (h : Reachable s c)
    {e : Raised F} (he : step (executeGovernor s) c = .done (.error e)) :
    SettledLast s.num e.log := by
  obtain ⟨x, n, hq, hlog, hn, -⟩ := h.exists_raised he
  have hsettled := settled_of_reachable h
  rw [hlog]
  by_cases hx : x = .summarization
  · subst hx
    rw [hq] at hsettled
    exact Unsettled.settledLast (unsettled_append.mpr ⟨hsettled, unsettled_toolCalls _ _ _⟩)
  · rw [hn hx, toolCalls, List.replicate_zero, List.append_nil]
    exact hsettled.settledLast

/-- **Early stopping.** At every moment of every run, no analysis in the log is above the
threshold and nothing has been concluded, but for a last analysis above it that is followed by
no more than the conclusion with its iteration and its statistics. -/
theorem early_stopping {s : Setup E M A F} {l : List (Event F)} (h : LogOf s l) :
    ∃ pre tail, l = pre ++ tail ∧ Unsettled s.num pre ∧
      (tail = [] ∨ ∃ i stats, s.num.aboveThreshold stats.iterationScore = true ∧
        tail <+: [.analysis i stats, .conclusion i (some stats)]) := by
  obtain ⟨c, hc, hl | ⟨e, he, hl⟩⟩ := h
  · exact (settled_of_reachable hc).settledLast.mono hl
  · exact (settledLast_raised hc he).mono hl

theorem early_stopping_measured :
    ∃ l, LogOf (scriptedSetup 1 true fun _ => measured) l ∧ l.length = 4 ∧
      ∃ pre tail i stats, l = pre ++ tail ∧ tail ≠ [] ∧
        Unsettled (scriptedSetup 1 true fun _ => measured).num pre ∧
        tail <+: [.analysis i stats, .conclusion i (some stats)] := by
  obtain ⟨c, hc, hrun, -, -, hlength⟩ := exists_reachable_measured true
  have hsettled : (measuredRun true).map (fun c => c.context.log.any
      (Event.settles (scriptedSetup 1 true fun _ => measured).num)) = some true := by
    decide +kernel
  rw [hrun, Option.map_some, Option.some_inj, List.any_eq_true] at hsettled
  obtain ⟨e, he, hsettles⟩ := hsettled
  have hlog : LogOf _ c.context.log := ⟨c, hc, .inl List.prefix_rfl⟩
  obtain ⟨pre, tail, hl, hpre, htail⟩ := early_stopping hlog
  have hne : tail ≠ [] := by
    rintro rfl
    rw [hl, List.append_nil] at he
    rw [hpre e he] at hsettles
    cases hsettles
  obtain rfl | ⟨i, stats, -, htail⟩ := htail
  · exact absurd rfl hne
  · exact ⟨_, hlog, hlength, pre, tail, i, stats, hl, hne, hpre, htail⟩

/-- A run returns with nothing queued. -/
theorem Reachable.queue_of_done {s : Setup E M A F} {c : GovernorConfig E M A F} (h : Reachable s c)
    {r : Governor E M A F × Option Empty}
    (hr : step (executeGovernor s) c = .done (.ok r)) : c.queue = [] := by
  obtain hq | ⟨x, hq⟩ := h.queue_cases
  · rw [hq]
  · rw [hq] at hr
    obtain ⟨e, n, he, -⟩ | ⟨c', hc', -⟩ := step_cases s c.context x
    · rw [he] at hr
      cases hr
    · rw [hc'] at hr
      cases hr

/-- **When a run returns.** The loop of the governor returns if, and only if, an analysis
somewhere in the run is above the threshold. -/
theorem returns_iff (s : Setup E M A F) (world : Simulation.World E M) (agents : A) :
    (∃ n r, loop (executeGovernor s) n (governorStart world agents) = some (.ok r)) ↔
      ∃ c, Steps (executeGovernor s) (governorStart world agents) c ∧
        ∃ i stats, .analysis i stats ∈ c.context.log ∧
          s.num.aboveThreshold stats.iterationScore = true := by
  constructor
  · rintro ⟨n, r, h⟩
    obtain ⟨c, hc, hr⟩ := loop_eq_some_iff.mp ⟨n, h⟩
    have hreach : Reachable s c := ⟨world, agents, hc⟩
    have hsettled := settled_of_reachable hreach
    rw [Settled, hreach.queue_of_done hr] at hsettled
    obtain ⟨pre, stats, hlog, -, hn, -⟩ := hsettled
    have hmem : .analysis c.context.context.iteration stats ∈ c.context.log := by
      rw [hlog]
      exact List.mem_append_right pre List.mem_cons_self
    exact ⟨c, hc, _, stats, hmem, hn⟩
  · rintro ⟨c, hc, i, stats, hmem, hn⟩
    have hsettled := settled_of_reachable ⟨world, agents, hc⟩
    have hdone (g : Governor E M A F) :
        step (executeGovernor s) ⟨[], g⟩ = .done (.ok (g, none)) := rfl
    obtain ⟨queue, g⟩ := c
    suffices hend : ∃ g', Steps (executeGovernor s) (governorStart world agents) ⟨[], g'⟩ by
      obtain ⟨g', hg'⟩ := hend
      obtain ⟨n, hn⟩ := loop_eq_some_iff.mpr ⟨_, hg', hdone g'⟩
      exact ⟨n, _, hn⟩
    unfold Settled at hsettled
    split at hsettled
    · next hq =>
      cases hq
      exact ⟨_, .tail hc rfl⟩
    · next hq =>
      cases hq
      exact ⟨g, hc⟩
    · exact absurd (hsettled _ hmem) (by simp [Event.settles, hn])

end MicroSampler.Agents
