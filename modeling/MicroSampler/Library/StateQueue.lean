import Mathlib.Logic.Relation

/-!
# Machines that run queued states

A machine has a context and a queue of states. It executes the state at the head of the
queue, which changes the context, appends further states and may stop the machine with a
value; an empty queue stops it without one. Executing a state can raise, which nothing in
the machine catches.

* `steps_invariant`: what every step keeps holds of all configurations of a run.
* `loop_eq_some_iff`: the loop returns what the last configuration of a run says.
* `exists_loop`: a measure that every step decreases bounds the rounds of the loop.
-/

namespace MicroSampler.StateQueue

variable {σ γ ν ε : Type}

/-- What executing a state leaves. -/
structure Effect (σ γ ν : Type) where
  context : γ
  queued : List σ
  stop : Option ν

/-- The states and what executing one of them does. -/
abbrev Execute (σ γ ν ε : Type) := σ → γ → Except ε (Effect σ γ ν)

structure Config (σ γ : Type) where
  queue : List σ
  context : γ

/-- After a round the machine goes on, or it is done: it has returned or raised. -/
inductive Status (σ γ ν ε : Type)
  | running (c : Config σ γ)
  | done (r : Except ε (γ × Option ν))

/-- One round. -/
def step (execute : Execute σ γ ν ε) (c : Config σ γ) : Status σ γ ν ε :=
  match c.queue with
  | [] => .done (.ok (c.context, none))
  | s :: queue =>
    match execute s c.context with
    | .error e => .done (.error e)
    | .ok effect =>
      match effect.stop with
      | some v => .done (.ok (effect.context, some v))
      | none => .running ⟨queue ++ effect.queued, effect.context⟩

section Singleton

variable {execute : Execute σ γ ν ε} {s : σ} {c c' : γ} {queued : List σ}

theorem step_singleton_error {e : ε} (h : execute s c = .error e) :
    step execute ⟨[s], c⟩ = .done (.error e) := by
  simp only [step, h]

theorem step_singleton_stop {v : ν} (h : execute s c = .ok ⟨c', queued, some v⟩) :
    step execute ⟨[s], c⟩ = .done (.ok (c', some v)) := by
  simp only [step, h]

theorem step_singleton_queue (h : execute s c = .ok ⟨c', queued, none⟩) :
    step execute ⟨[s], c⟩ = .running ⟨queued, c'⟩ := by
  simp only [step, h, List.nil_append]

end Singleton

/-- The loop, for at most `n` rounds. -/
def loop (execute : Execute σ γ ν ε) : Nat → Config σ γ → Option (Except ε (γ × Option ν))
  | 0, _ => none
  | n + 1, c =>
    match step execute c with
    | .running c' => loop execute n c'
    | .done r => some r

/-- The configurations of a run. -/
def Steps (execute : Execute σ γ ν ε) : Config σ γ → Config σ γ → Prop :=
  Relation.ReflTransGen fun a b => step execute a = .running b

/-- The configuration after `n` rounds, when none of them is the last. -/
def advance (execute : Execute σ γ ν ε) : Nat → Config σ γ → Option (Config σ γ)
  | 0, c => some c
  | n + 1, c =>
    match step execute c with
    | .running c' => advance execute n c'
    | .done _ => none

theorem steps_of_advance {execute : Execute σ γ ν ε} {n : Nat} {a b : Config σ γ}
    (h : advance execute n a = some b) : Steps execute a b := by
  induction n generalizing a with
  | zero =>
    cases h
    exact .refl
  | succ n ih =>
    rw [advance] at h
    split at h
    · next c hc => exact .head hc (ih h)
    · cases h

/-- **Invariant rule.** -/
theorem steps_invariant {execute : Execute σ γ ν ε} {I : Config σ γ → Prop}
    (hstep : ∀ a b, I a → step execute a = .running b → I b) {a b : Config σ γ} (ha : I a)
    (h : Steps execute a b) : I b := by
  induction h with
  | refl => exact ha
  | tail _ h ih => exact hstep _ _ ih h

/-! ## Histories -/

/-- A run to a configuration, with the configurations that it has gone through before. -/
inductive History (execute : Execute σ γ ν ε) (a : Config σ γ) :
    List (Config σ γ) → Config σ γ → Prop
  | start : History execute a [] a
  | round {past : List (Config σ γ)} {b c : Config σ γ} (h : History execute a past b)
    (hstep : step execute b = .running c) : History execute a (past ++ [b]) c

theorem History.steps {execute : Execute σ γ ν ε} {a b : Config σ γ} {past : List (Config σ γ)}
    (h : History execute a past b) : Steps execute a b := by
  induction h with
  | start => exact .refl
  | round _ hstep ih => exact .tail ih hstep

theorem exists_history {execute : Execute σ γ ν ε} {a b : Config σ γ} (h : Steps execute a b) :
    ∃ past, History execute a past b := by
  induction h with
  | refl => exact ⟨[], .start⟩
  | tail _ hstep ih =>
    obtain ⟨past, h⟩ := ih
    exact ⟨_, .round h hstep⟩

/-! ## The loop -/

theorem loop_add {execute : Execute σ γ ν ε} {n : Nat} {c : Config σ γ}
    {r : Except ε (γ × Option ν)} (h : loop execute n c = some r) (k : Nat) :
    loop execute (n + k) c = some r := by
  induction n generalizing c with
  | zero => cases h
  | succ n ih =>
    rw [Nat.add_right_comm, loop]
    rw [loop] at h
    split at h
    · exact ih h
    · exact h

/-- What the loop returns is what some configuration of the run is done with. -/
theorem loop_eq_some_iff {execute : Execute σ γ ν ε} {c : Config σ γ}
    {r : Except ε (γ × Option ν)} :
    (∃ n, loop execute n c = some r) ↔ ∃ b, Steps execute c b ∧ step execute b = .done r := by
  constructor
  · rintro ⟨n, h⟩
    induction n generalizing c with
    | zero => cases h
    | succ n ih =>
      rw [loop] at h
      split at h
      · next c' hc =>
        obtain ⟨b, hb, hr⟩ := ih h
        exact ⟨b, .head hc hb, hr⟩
      · next r' hc =>
        cases h
        exact ⟨c, .refl, hc⟩
  · rintro ⟨b, hb, hr⟩
    induction hb using Relation.ReflTransGen.head_induction_on with
    | refl => exact ⟨1, by rw [loop, hr]⟩
    | head hc _ ih =>
      obtain ⟨n, h⟩ := ih
      exact ⟨n + 1, by rw [loop, hc]; exact h⟩

/-- **Termination rule.** -/
theorem exists_loop {execute : Execute σ γ ν ε} {I : Config σ γ → Prop}
    (measure : Config σ γ → Nat)
    (hstep : ∀ a b, I a → step execute a = .running b → I b ∧ measure b < measure a)
    {c : Config σ γ} (hc : I c) {n : Nat} (hn : measure c < n) :
    ∃ r, loop execute n c = some r := by
  induction n generalizing c with
  | zero => exact absurd hn (Nat.not_lt_zero _)
  | succ n ih =>
    rw [loop]
    split
    · next c' h =>
      obtain ⟨hI, hlt⟩ := hstep c c' hc h
      exact ih hI (by omega)
    · next r _ => exact ⟨r, rfl⟩

end MicroSampler.StateQueue
