import Mathlib.Computability.Language
import MicroSampler.Agents.Governor

/-!
# The shape of the report log

The log of a run as a word: one letter with its iteration for each event. An iteration makes
a block, and the report is a sequence of blocks 1, 2, 3, … and possibly a last one that ends
with the conclusion (`reports`). The log of every run is a prefix of such a word
(`log_shape`).
-/

namespace MicroSampler.Agents

open Computability StateQueue Simulation

/-! ## Words -/

inductive Letter
  | toolCall | hypothesis | implementation | implementationError | deployment | simulationError
  | analysis | summarization | conclusion
  deriving DecidableEq

/-- A letter and its iteration. -/
abbrev Symbol := Letter × Nat

def Event.letter {F : Type} : Event F → Letter
  | toolCall _ _ => .toolCall
  | hypothesis _ _ => .hypothesis
  | implementation _ _ => .implementation
  | implementationError _ _ => .implementationError
  | simulationDeployment _ => .deployment
  | simulationError _ _ => .simulationError
  | analysis _ _ => .analysis
  | summarization _ _ => .summarization
  | conclusion _ _ => .conclusion

def Event.symbol {F : Type} (e : Event F) : Symbol := (e.letter, e.iteration)

/-- The word of a log, with or without the calls of the tool. -/
def word {F : Type} (tools : Bool) (log : List (Event F)) : List Symbol :=
  (log.filter fun e => tools || !e.isToolCall).map Event.symbol

theorem word_append {F : Type} (tools : Bool) (log log' : List (Event F)) :
    word tools (log ++ log') = word tools log ++ word tools log' := by
  rw [word, List.filter_append, List.map_append]
  rfl

/-! ## Blocks -/

/-- The one letter. -/
def sym (x : Letter) (i : Nat) : Language Symbol := {[(x, i)]}

/-- `(I D B)*`: the attempts that are rejected. -/
def attempts (i : Nat) : Language Symbol :=
  (sym .implementation i * (sym .deployment i * sym .implementationError i))∗

/-- The calls of the tool. -/
def calls (tools : Bool) (i : Nat) : Language Symbol :=
  if tools then (sym .toolCall i)∗ else 1

/-- `H (I D B)* I D (E | A) T* S`. -/
def block (tools : Bool) (i : Nat) : Language Symbol :=
  sym .hypothesis i * attempts i * sym .implementation i * sym .deployment i *
    (sym .simulationError i + sym .analysis i) * calls tools i * sym .summarization i

/-- `H (I D B)* I D A C`. -/
def lastBlock (i : Nat) : Language Symbol :=
  sym .hypothesis i * attempts i * sym .implementation i * sym .deployment i * sym .analysis i *
    sym .conclusion i

/-- The blocks of the iterations from 1 to `n`. -/
def blocks (tools : Bool) : Nat → Language Symbol
  | 0 => 1
  | n + 1 => blocks tools n * block tools (n + 1)

/-- The words of complete reports. -/
def reports (tools : Bool) : Language Symbol :=
  {w | ∃ n, w ∈ blocks tools n * (1 + lastBlock (n + 1))}

/-- What the log has come to after `n` iterations, by the state that is next. -/
def stage (tools : Bool) (n : Nat) : List LoopState → Language Symbol
  | [.hypothesis] => blocks tools n
  | [.codeGen] => blocks tools n * (sym .hypothesis (n + 1) * attempts (n + 1))
  | [.simulation] =>
    blocks tools n * (sym .hypothesis (n + 1) * attempts (n + 1) * sym .implementation (n + 1))
  | [.analysis] =>
    blocks tools n * (sym .hypothesis (n + 1) * attempts (n + 1) * sym .implementation (n + 1) *
      sym .deployment (n + 1))
  | [.summarization] =>
    blocks tools n * (sym .hypothesis (n + 1) * attempts (n + 1) * sym .implementation (n + 1) *
      sym .deployment (n + 1) * (sym .simulationError (n + 1) + sym .analysis (n + 1)) *
      calls tools (n + 1))
  | [.conclusion] =>
    blocks tools n * (sym .hypothesis (n + 1) * attempts (n + 1) * sym .implementation (n + 1) *
      sym .deployment (n + 1) * sym .analysis (n + 1))
  | [] => blocks tools n * lastBlock (n + 1)
  | _ => 0

/-! ## Letters one by one -/

variable {tools : Bool} {n i : Nat}

theorem mem_mul_sym {L : Language Symbol} {w : List Symbol} (h : w ∈ L) (x : Letter) (i : Nat) :
    w ++ [(x, i)] ∈ L * sym x i :=
  Language.append_mem_mul h rfl

/-- A letter after the last factor. -/
theorem mem_snoc {P L : Language Symbol} {w : List Symbol} (h : w ∈ P * L) (x : Letter) (i : Nat) :
    w ++ [(x, i)] ∈ P * (L * sym x i) := by
  rw [← mul_assoc]
  exact mem_mul_sym h x i

theorem mem_stage_codeGen {w : List Symbol} (h : w ∈ stage tools n [.hypothesis]) :
    w ++ [(.hypothesis, n + 1)] ∈ stage tools n [.codeGen] := by
  have hnil := Language.append_mem_mul (mem_mul_sym h .hypothesis (n + 1))
    (Language.nil_mem_kstar (sym .implementation (n + 1) *
      (sym .deployment (n + 1) * sym .implementationError (n + 1))))
  rwa [List.append_nil, mul_assoc] at hnil

theorem mem_stage_rejected {w : List Symbol} (h : w ∈ stage tools n [.simulation]) :
    w ++ [(.deployment, n + 1)] ++ [(.implementationError, n + 1)] ∈
      stage tools n [.codeGen] := by
  have hround := mem_mul_sym (mem_mul_sym h .deployment (n + 1)) .implementationError (n + 1)
  simp only [stage, mul_assoc] at hround ⊢
  refine Set.mem_of_subset_of_mem ?_ hround
  have hle (L : Language Symbol) : L∗ * L ≤ L∗ := kstar_mul_le_kstar
  exact mul_le_mul_right (mul_le_mul_right (hle _) _) _

theorem replicate_mem_calls (n i : Nat) :
    List.replicate n (Letter.toolCall, i) ∈ calls true i := by
  refine Language.mem_kstar.mpr ⟨List.replicate n [(Letter.toolCall, i)], ?_, ?_⟩
  · rw [List.flatten_replicate_singleton]
  · intro w hw
    exact List.eq_of_mem_replicate hw

theorem nil_mem_calls (tools : Bool) (i : Nat) : [] ∈ calls tools i := by
  cases tools with
  | false => exact Language.nil_mem_one
  | true => exact Language.nil_mem_kstar _

/-- After the deployment comes the error or the analysis. -/
theorem mem_stage_summarization {w : List Symbol} {x : Letter}
    (hx : x = .simulationError ∨ x = .analysis) (h : w ∈ stage tools n [.analysis]) :
    w ++ [(x, n + 1)] ∈ stage tools n [.summarization] := by
  have hx' : [(x, n + 1)] ∈ sym .simulationError (n + 1) + sym .analysis (n + 1) :=
    (Language.mem_add _ _ _).mpr (hx.imp (fun h => by rw [h]; rfl) fun h => by rw [h]; rfl)
  have hnil := Language.append_mem_mul (Language.append_mem_mul h hx') (nil_mem_calls tools (n + 1))
  rw [List.append_nil] at hnil
  simpa only [stage, mul_assoc] using hnil

theorem mem_stage_calls {w v : List Symbol} (h : w ∈ stage tools n [.summarization])
    (hv : v ∈ calls tools (n + 1)) : w ++ v ∈ stage tools n [.summarization] := by
  have hcalls : calls tools (n + 1) * calls tools (n + 1) = calls tools (n + 1) := by
    cases tools with
    | false => exact one_mul 1
    | true => exact kstar_mul_kstar _
  have happend := Language.append_mem_mul h hv
  rwa [stage, mul_assoc, mul_assoc, hcalls] at happend

theorem mem_stage_summarized {w : List Symbol} (h : w ∈ stage tools n [.summarization]) :
    w ++ [(.summarization, n + 1)] ∈ stage tools (n + 1) [.hypothesis] :=
  mem_snoc h .summarization (n + 1)

theorem word_toolCalls_mem {F : Type} (tools : Bool) (i n : Nat) :
    word tools (toolCalls (F := F) i n) ∈ calls tools i := by
  cases tools with
  | false =>
    rw [word, toolCalls, List.filter_replicate]
    exact Language.nil_mem_one
  | true =>
    have hword : word true (toolCalls (F := F) i n) = List.replicate n (.toolCall, i) := by
      simp only [word, toolCalls, Bool.true_or, List.filter_true, List.map_replicate]
      rfl
    rw [hword]
    exact replicate_mem_calls n i

/-! ## Every log can be completed -/

theorem mem_reports_of_mem_blocks {w : List Symbol} (h : w ∈ blocks tools n) :
    w ∈ reports tools := by
  have hnil : [] ∈ 1 + lastBlock (n + 1) :=
    (Language.mem_add _ _ _).mpr (.inl Language.nil_mem_one)
  have hone := Language.append_mem_mul h hnil
  rw [List.append_nil] at hone
  exact ⟨n, hone⟩

theorem exists_report_hypothesis {w : List Symbol} (h : w ∈ stage tools n [.hypothesis]) :
    ∃ v ∈ reports tools, w <+: v :=
  ⟨w, mem_reports_of_mem_blocks h, List.prefix_rfl⟩

theorem exists_report_summarization {w : List Symbol}
    (h : w ∈ stage tools n [.summarization]) : ∃ v ∈ reports tools, w <+: v := by
  obtain ⟨v, hv, hw⟩ := exists_report_hypothesis (mem_stage_summarized h)
  exact ⟨v, hv, (List.prefix_append _ _).trans hw⟩

theorem exists_report_analysis {w : List Symbol} (h : w ∈ stage tools n [.analysis]) :
    ∃ v ∈ reports tools, w <+: v := by
  have hanalysed : w ++ [(.analysis, n + 1)] ∈ stage tools n [.summarization] :=
    mem_stage_summarization (.inr rfl) h
  obtain ⟨v, hv, hw⟩ := exists_report_summarization hanalysed
  exact ⟨v, hv, (List.prefix_append _ _).trans hw⟩

theorem exists_report_simulation {w : List Symbol} (h : w ∈ stage tools n [.simulation]) :
    ∃ v ∈ reports tools, w <+: v := by
  obtain ⟨v, hv, hw⟩ := exists_report_analysis (mem_snoc h .deployment (n + 1))
  exact ⟨v, hv, (List.prefix_append _ _).trans hw⟩

theorem exists_report_codeGen {w : List Symbol} (h : w ∈ stage tools n [.codeGen]) :
    ∃ v ∈ reports tools, w <+: v := by
  obtain ⟨v, hv, hw⟩ := exists_report_simulation (mem_snoc h .implementation (n + 1))
  exact ⟨v, hv, (List.prefix_append _ _).trans hw⟩

theorem exists_report_nil {w : List Symbol} (h : w ∈ stage tools n []) :
    ∃ v ∈ reports tools, w <+: v := by
  obtain ⟨a, ha, b, hb, rfl⟩ := Language.mem_mul.mp h
  have hlast : b ∈ 1 + lastBlock (n + 1) := (Language.mem_add _ _ _).mpr (.inr hb)
  exact ⟨_, ⟨n, Language.append_mem_mul ha hlast⟩, List.prefix_rfl⟩

theorem exists_report_conclusion {w : List Symbol} (h : w ∈ stage tools n [.conclusion]) :
    ∃ v ∈ reports tools, w <+: v := by
  obtain ⟨v, hv, hw⟩ := exists_report_nil (mem_snoc h .conclusion (n + 1))
  exact ⟨v, hv, (List.prefix_append _ _).trans hw⟩

/-- A log that has come to some stage is the beginning of a report. -/
theorem exists_report {q : List LoopState} {w : List Symbol} (h : w ∈ stage tools n q) :
    ∃ v ∈ reports tools, w <+: v := by
  match q with
  | [] => exact exists_report_nil h
  | [.hypothesis] => exact exists_report_hypothesis h
  | [.codeGen] => exact exists_report_codeGen h
  | [.simulation] => exact exists_report_simulation h
  | [.analysis] => exact exists_report_analysis h
  | [.summarization] => exact exists_report_summarization h
  | [.conclusion] => exact exists_report_conclusion h
  | x :: _ :: _ => cases x <;> exact absurd h (Language.notMem_zero w)

/-! ## The log of a run -/

section Runs

variable {E M A F : Type} {s : Setup E M A F}

/-- The log has come to the stage of the state that is next. -/
def Logged (tools : Bool) (c : GovernorConfig E M A F) : Prop :=
  ∃ n, c.context.context.iteration = n + 1 ∧ word tools c.context.log ∈ stage tools n c.queue

theorem word_concat (tools : Bool) (log : List (Event F)) {e : Event F}
    (he : e.isToolCall = false) : word tools (log ++ [e]) = word tools log ++ [e.symbol] := by
  rw [word_append]
  simp only [word, List.filter_cons, he, Bool.not_false, Bool.or_true, if_true, List.filter_nil,
    List.map_cons, List.map_nil]

theorem logged_move {tools : Bool} {x : LoopState} {g : Governor E M A F}
    {c : GovernorConfig E M A F} (h : Logged tools ⟨[x], g⟩) (hmove : Move s g x c) :
    Logged tools c := by
  obtain ⟨n, hn, hw⟩ := h
  have hsymbol (log : List (Event F)) (e : Event F) (he : e.isToolCall = false)
      (hi : e.iteration = g.context.iteration) :
      word tools (log ++ [e]) = word tools log ++ [(e.letter, n + 1)] := by
    rw [word_concat tools log he, Event.symbol, hi]
    exact congrArg (fun i => word tools log ++ [(e.letter, i)]) hn
  cases hmove with
  | hypothesis =>
    refine ⟨n, hn, ?_⟩
    rw [hsymbol _ _ rfl rfl]
    exact mem_stage_codeGen hw
  | codeGen =>
    refine ⟨n, hn, ?_⟩
    rw [hsymbol _ _ rfl rfl]
    exact mem_snoc hw .implementation (n + 1)
  | rejected =>
    refine ⟨n, hn, ?_⟩
    rw [List.append_cons, hsymbol _ _ rfl rfl, hsymbol _ _ rfl rfl]
    exact mem_stage_rejected hw
  | failed =>
    refine ⟨n, hn, ?_⟩
    rw [List.append_cons, hsymbol _ _ rfl rfl, hsymbol _ _ rfl rfl]
    exact mem_stage_summarization (.inl rfl) (mem_snoc hw .deployment (n + 1))
  | deployed =>
    refine ⟨n, hn, ?_⟩
    rw [hsymbol _ _ rfl rfl]
    exact mem_snoc hw .deployment (n + 1)
  | analysed =>
    refine ⟨n, hn, ?_⟩
    rw [hsymbol _ _ rfl rfl]
    exact mem_stage_summarization (.inr rfl) hw
  | significant =>
    refine ⟨n, hn, ?_⟩
    rw [hsymbol _ _ rfl rfl]
    exact mem_snoc hw .analysis (n + 1)
  | @summarized _ _ _ k =>
    refine ⟨n + 1, congrArg (· + 1) hn, ?_⟩
    have hcalls : word tools (g.log ++ toolCalls g.context.iteration k) ∈
        stage tools n [.summarization] := by
      rw [word_append]
      exact mem_stage_calls hw (hn ▸ word_toolCalls_mem tools g.context.iteration k)
    rw [hsymbol _ _ rfl rfl]
    exact mem_stage_summarized hcalls
  | concluded =>
    refine ⟨n, hn, ?_⟩
    rw [hsymbol _ _ rfl rfl]
    exact mem_snoc hw .conclusion (n + 1)

theorem logged_of_reachable (tools : Bool) {c : GovernorConfig E M A F} (h : Reachable s c) :
    Logged tools c :=
  governor_invariant (I := Logged tools) (fun _ _ => ⟨0, rfl, Language.nil_mem_one⟩)
    (fun _ _ _ _ h hmove => logged_move h hmove) h

/-- What the log holds when a state raises is the beginning of a report, too. -/
theorem exists_report_raised {tools : Bool} {c : GovernorConfig E M A F} (h : Reachable s c)
    {e : Raised F} (he : step (executeGovernor s) c = .done (.error e)) :
    ∃ w ∈ reports tools, word tools e.log <+: w := by
  obtain ⟨x, k, hq, hlog, hk, -⟩ := h.exists_raised he
  rw [hq] at h
  obtain ⟨n, hn, hw⟩ := logged_of_reachable tools h
  rw [hlog, word_append]
  by_cases hx : x = .summarization
  · subst hx
    exact exists_report_summarization (mem_stage_calls hw (hn ▸ word_toolCalls_mem tools _ k))
  · rw [hk hx, toolCalls, List.replicate_zero]
    have hnil : word tools ([] : List (Event F)) = [] := rfl
    rw [hnil, List.append_nil]
    exact exists_report hw

theorem word_mono {tools : Bool} {l l' : List (Event F)} (h : l <+: l') :
    word tools l <+: word tools l' := by
  obtain ⟨v, rfl⟩ := h
  exact ⟨word tools v, (word_append tools l v).symm⟩

/-- **Shape of the log.** In every run no more than one state is ever queued, and the log is
at every moment the beginning of a report: with the calls of the tool in their places, and
without them. -/
theorem log_shape {l : List (Event F)} (h : LogOf s l) :
    (∀ c, Reachable s c → c.queue.length ≤ 1) ∧
    (∃ w ∈ reports true, l.map Event.symbol <+: w) ∧
    ∃ w ∈ reports false, (l.filter fun e => !e.isToolCall).map Event.symbol <+: w := by
  obtain ⟨c, hc, hl⟩ := h
  have hword (tools : Bool) : ∃ w ∈ reports tools, word tools l <+: w := by
    obtain hl | ⟨e, he, hl⟩ := hl
    · obtain ⟨n, -, hw⟩ := logged_of_reachable tools hc
      obtain ⟨w, hmem, hpre⟩ := exists_report hw
      exact ⟨w, hmem, (word_mono hl).trans hpre⟩
    · obtain ⟨w, hmem, hpre⟩ := exists_report_raised hc he
      exact ⟨w, hmem, (word_mono hl).trans hpre⟩
  refine ⟨fun _ h => h.queue_length, ?_, hword false⟩
  have htrue : word true l = l.map Event.symbol := by
    rw [word]
    exact congrArg (List.map Event.symbol) (List.filter_true l)
  exact htrue ▸ hword true

theorem log_shape_timedOut :
    ∃ l, LogOf (constantSetup 1 .timedOut) l ∧ l.length = 4 ∧
      ∃ w ∈ reports true, l.map Event.symbol <+: w := by
  have hlog : LogOf (constantSetup 1 .timedOut) _ :=
    ⟨_, ⟨constantWorld, (), .head rfl (.head rfl (.head rfl .refl))⟩, .inl List.prefix_rfl⟩
  exact ⟨_, hlog, rfl, (log_shape hlog).2.1⟩

end Runs

end MicroSampler.Agents
