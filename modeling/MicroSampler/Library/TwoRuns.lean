import Mathlib.Logic.Basic

/-!
# Two runs of a program

A program is an `EStateM`: it may stop before its end, and what it did until then stays.

`Coupled` relates two programs that go on together or stop together. Its rules follow the
sequence, the loop and `zoom`, which runs a program on a part of a larger state. `Grows`
says that one program only moves up in a relation of its states, whether it stops or not.
-/

namespace MicroSampler.TwoRuns

variable {ε σ τ α β γ δ : Type}

/-- The state that a program leaves. -/
def final : EStateM.Result ε σ α → σ
  | .ok _ s => s
  | .error _ s => s

/-- A program on the part `get` of a larger state. -/
def zoom (get : τ → σ) (set : σ → τ → τ) (x : EStateM ε σ α) : EStateM ε τ α := fun t =>
  match x (get t) with
  | .ok a s => .ok a (set s t)
  | .error e s => .error e (set s t)

theorem bind_eq_ok {x : EStateM ε σ α} {f : α → EStateM ε σ β} {s u : σ} {b : β}
    (h : (x >>= f) s = .ok b u) : ∃ a t, x s = .ok a t ∧ f a t = .ok b u := by
  change EStateM.bind x f s = .ok b u at h
  unfold EStateM.bind at h
  revert h
  cases x s with
  | ok a t =>
    intro h
    exact ⟨a, t, rfl, h⟩
  | error e t =>
    intro h
    cases h

/-! ## Two programs side by side -/

/-- Both results are values in states related by `Q`, or both are errors in states related
by `E`. -/
inductive Paired (Q : α → β → σ → τ → Prop) (E : σ → τ → Prop) :
    EStateM.Result ε σ α → EStateM.Result ε τ β → Prop
  | ok {a : α} {b : β} {s : σ} {t : τ} : Q a b s t → Paired Q E (.ok a s) (.ok b t)
  | error {e e' : ε} {s : σ} {t : τ} : E s t → Paired Q E (.error e s) (.error e' t)

theorem Paired.mono {Q Q' : α → β → σ → τ → Prop} {E : σ → τ → Prop}
    {x : EStateM.Result ε σ α} {y : EStateM.Result ε τ β} (h : Paired Q E x y)
    (hQ : ∀ a b s t, Q a b s t → Q' a b s t) : Paired Q' E x y := by
  cases h with
  | ok hq => exact .ok (hQ _ _ _ _ hq)
  | error he => exact .error he

/-- From states related by `R` the two programs go on together or stop together. -/
def Coupled (R : σ → τ → Prop) (x : EStateM ε σ α) (y : EStateM ε τ β)
    (Q : α → β → σ → τ → Prop) (E : σ → τ → Prop) : Prop :=
  ∀ s t, R s t → Paired Q E (x s) (y t)

namespace Coupled

variable {R R' : σ → τ → Prop} {Q Q' : α → β → σ → τ → Prop} {E : σ → τ → Prop}

theorem pure {a : α} {b : β} (h : ∀ s t, R s t → Q a b s t) :
    Coupled R (Pure.pure a : EStateM ε σ α) (Pure.pure b) Q E := by
  intro s t hst
  apply Paired.ok
  exact h s t hst

theorem bind {x : EStateM ε σ α} {y : EStateM ε τ β} {f : α → EStateM ε σ γ}
    {g : β → EStateM ε τ δ} {P : γ → δ → σ → τ → Prop} (hx : Coupled R x y Q E)
    (hf : ∀ a b, Coupled (Q a b) (f a) (g b) P E) : Coupled R (x >>= f) (y >>= g) P E := by
  intro s t hst
  have hxy := hx s t hst
  change Paired P E (EStateM.bind x f s) (EStateM.bind y g t)
  unfold EStateM.bind
  cases hs : x s with
  | ok a s' =>
    cases ht : y t with
    | ok b t' =>
      rw [hs, ht] at hxy
      cases hxy with
      | ok h => exact hf a b s' t' h
    | error e t' =>
      rw [hs, ht] at hxy
      cases hxy
  | error e s' =>
    cases ht : y t with
    | ok b t' =>
      rw [hs, ht] at hxy
      cases hxy
    | error e' t' =>
      rw [hs, ht] at hxy
      cases hxy with
      | error h => exact .error h

/-- A sequence whose first parts return the same value. -/
theorem bind_same {x : EStateM ε σ α} {y : EStateM ε τ α} {f : α → EStateM ε σ γ}
    {g : α → EStateM ε τ δ} {P : γ → δ → σ → τ → Prop}
    (hx : Coupled R x y (fun a b s t => a = b ∧ R' s t) E)
    (hf : ∀ a, Coupled R' (f a) (g a) P E) : Coupled R (x >>= f) (y >>= g) P E := by
  apply hx.bind
  intro a b s t hst
  obtain ⟨rfl, hst⟩ := hst
  exact hf a s t hst

/-- What the first program alone establishes. -/
theorem and_left {x : EStateM ε σ α} {y : EStateM ε τ β} {P : σ → Prop} (h : Coupled R x y Q E)
    (hP : ∀ s a s', x s = .ok a s' → P s') :
    Coupled R x y (fun a b s t => Q a b s t ∧ P s) E := by
  intro s t hst
  have hxy := h s t hst
  have hx := hP s
  revert hxy hx
  cases x s <;> cases y t <;> intro hxy hx <;> cases hxy
  · exact .ok ⟨‹_›, hx _ _ rfl⟩
  · exact .error ‹_›

theorem mono {x : EStateM ε σ α} {y : EStateM ε τ β} (h : Coupled R x y Q E)
    (hR : ∀ s t, R' s t → R s t) (hQ : ∀ a b s t, Q a b s t → Q' a b s t) :
    Coupled R' x y Q' E := by
  intro s t hst
  exact (h s t (hR s t hst)).mono hQ

/-- A loop, by an invariant of its rounds. -/
theorem forM {I : σ → τ → Prop} {f : β → EStateM ε σ PUnit} {g : β → EStateM ε τ PUnit}
    {bs : List β} (h : ∀ b ∈ bs, Coupled I (f b) (g b) (fun _ _ => I) E) :
    Coupled I (ForM.forM bs f) (ForM.forM bs g) (fun _ _ => I) E := by
  induction bs with
  | nil => exact Coupled.pure fun _ _ hst => hst
  | cons b bs ih =>
    rw [List.forM_cons, List.forM_cons]
    apply Coupled.bind (h b (List.mem_cons_self ..))
    intro _ _
    exact ih fun c hc => h c (List.mem_cons_of_mem b hc)

/-- One program on parts that are equal gives equal values and equal parts. -/
theorem zoom {ρ : Type} {get : σ → ρ} {set : ρ → σ → σ} {get' : τ → ρ} {set' : ρ → τ → τ}
    {x : EStateM ε ρ α} (hget : ∀ s t, R s t → get s = get' t)
    (hset : ∀ s t r, R s t → R (set r s) (set' r t)) (hE : ∀ s t, R s t → E s t) :
    Coupled R (zoom get set x) (zoom get' set' x) (fun a b s t => a = b ∧ R s t) E := by
  intro s t hst
  unfold TwoRuns.zoom
  rw [hget s t hst]
  cases x (get' t) with
  | ok a r => exact .ok ⟨rfl, hset s t r hst⟩
  | error e r => exact .error (hE _ _ (hset s t r hst))

/-- The states that two programs leave when only their first parts are coupled. -/
theorem final_bind {x : EStateM ε σ α} {y : EStateM ε τ β} {f : α → EStateM ε σ γ}
    {g : β → EStateM ε τ δ} {P : σ → τ → Prop} {s : σ} {t : τ} (h : Coupled R x y Q E)
    (hst : R s t) (hE : ∀ s t, E s t → P s t)
    (hQ : ∀ a b s t, Q a b s t → P (final (f a s)) (final (g b t))) :
    P (final ((x >>= f) s)) (final ((y >>= g) t)) := by
  have hxy := h s t hst
  change P (final (EStateM.bind x f s)) (final (EStateM.bind y g t))
  unfold EStateM.bind
  revert hxy
  cases x s <;> cases y t <;> intro hxy <;> cases hxy
  · exact hQ _ _ _ _ ‹_›
  · exact hE _ _ ‹_›

end Coupled

/-! ## A state that only grows -/

/-- Wherever the program is started, it leaves a state above the one it found. -/
def Grows (r : σ → σ → Prop) (x : EStateM ε σ α) : Prop := ∀ s, r s (final (x s))

namespace Grows

variable {r : σ → σ → Prop}

theorem pure (hrefl : ∀ s, r s s) (a : α) : Grows r (Pure.pure a : EStateM ε σ α) := hrefl

theorem bind (htrans : ∀ s t u, r s t → r t u → r s u) {x : EStateM ε σ α}
    {f : α → EStateM ε σ β} (hx : Grows r x) (hf : ∀ a, Grows r (f a)) :
    Grows r (x >>= f) := by
  intro s
  have hs := hx s
  change r s (final (EStateM.bind x f s))
  unfold EStateM.bind
  revert hs
  cases x s with
  | ok a t =>
    intro hs
    exact htrans _ _ _ hs (hf a t)
  | error e t => exact id

theorem forM (hrefl : ∀ s, r s s) (htrans : ∀ s t u, r s t → r t u → r s u)
    {f : β → EStateM ε σ PUnit} (hf : ∀ b, Grows r (f b)) (bs : List β) :
    Grows r (ForM.forM bs f) := by
  induction bs with
  | nil => exact Grows.pure hrefl _
  | cons b bs ih => exact Grows.bind htrans (hf b) fun _ => ih

end Grows

end MicroSampler.TwoRuns
