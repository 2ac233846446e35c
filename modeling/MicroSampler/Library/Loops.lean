import Mathlib.Data.List.Forall2
import Mathlib.Data.List.Basic

/-!
# Loops that can fail

Rules for comprehensions and loops whose body may raise, in `Option` and in `Except`: a
loop that returns has returned in every round, and one that raises has a first round that
does.
-/

namespace MicroSampler.Loops

/-! ## Loops in `Option` -/

/-- A comprehension returns when every element does. -/
theorem mapM_eq_pure_map {m : Type → Type} [Monad m] [LawfulMonad m] {α β : Type}
    {f : α → m β} {g : α → β} {l : List α} (h : ∀ a ∈ l, f a = pure (g a)) :
    l.mapM f = pure (l.map g) := by
  induction l with
  | nil => rfl
  | cons a l ih =>
    simp [List.mapM_cons, h a (by simp), ih fun b hb => h b (by simp [hb])]

theorem mapM_eq_some_map {α β : Type} {f : α → Option β} {g : α → β} {l : List α}
    (h : ∀ a ∈ l, f a = some (g a)) : l.mapM f = some (l.map g) := mapM_eq_pure_map h

theorem mapM_isSome_iff {α β : Type} {f : α → Option β} {l : List α} :
    (l.mapM f).isSome ↔ ∀ a ∈ l, (f a).isSome := by
  induction l with
  | nil => simp
  | cons a l ih =>
    rw [List.mapM_cons, List.forall_mem_cons, ← ih]
    cases f a <;> cases l.mapM f <;> simp

/-- The results of a comprehension that returns, element by element. -/
theorem forall₂_of_mapM {α β : Type} {f : α → Option β} {l : List α} {r : List β}
    (h : l.mapM f = some r) : List.Forall₂ (fun a b => f a = some b) l r := by
  induction l generalizing r with
  | nil =>
    cases h
    exact .nil
  | cons a l ih =>
    rw [List.mapM_cons] at h
    obtain ⟨b, hb, h⟩ := Option.bind_eq_some_iff.mp h
    obtain ⟨r', hr', h⟩ := Option.bind_eq_some_iff.mp h
    cases h
    exact .cons hb (ih hr')

theorem exists_of_mem_mapM {α β : Type} {f : α → Option β} {l : List α} {r : List β}
    (h : l.mapM f = some r) {b : β} (hb : b ∈ r) : ∃ a ∈ l, f a = some b := by
  have hall := forall₂_of_mapM h
  induction hall with
  | nil => cases hb
  | cons hab _ ih =>
    rcases List.mem_cons.mp hb with rfl | hb
    · exact ⟨_, List.mem_cons_self, hab⟩
    · rw [List.mapM_cons] at h
      obtain ⟨_, -, h⟩ := Option.bind_eq_some_iff.mp h
      obtain ⟨_, hr', h⟩ := Option.bind_eq_some_iff.mp h
      cases h
      obtain ⟨a, ha, hf⟩ := ih hr' hb
      exact ⟨a, List.mem_cons_of_mem _ ha, hf⟩

/-- **Loop rule.** A loop over `range(n)` whose body keeps an invariant and never raises
under it returns, in a state that satisfies the invariant of `n` rounds. -/
theorem exists_foldlM_range {σ : Type} {f : σ → Nat → Option σ} (I : Nat → σ → Prop) {s : σ}
    {n : Nat} (h0 : I 0 s)
    (hstep : ∀ i < n, ∀ s, I i s → ∃ s', f s i = some s' ∧ I (i + 1) s') :
    ∃ s', (List.range n).foldlM f s = some s' ∧ I n s' := by
  induction n with
  | zero => exact ⟨s, rfl, h0⟩
  | succ n ih =>
    obtain ⟨s', hs', hI⟩ := ih fun i hi => hstep i (Nat.lt_succ_of_lt hi)
    obtain ⟨s'', hs'', hI'⟩ := hstep n (Nat.lt_succ_self n) s' hI
    refine ⟨s'', ?_, hI'⟩
    rw [List.range_succ, List.foldlM_append, hs']
    simpa using hs''

/-- The partial form: what the body keeps when it does not raise holds of the result. -/
theorem of_foldlM_range {σ : Type} {f : σ → Nat → Option σ} (I : Nat → σ → Prop) {s s' : σ}
    {n : Nat} (h0 : I 0 s) (hstep : ∀ i s s', i < n → I i s → f s i = some s' → I (i + 1) s')
    (h : (List.range n).foldlM f s = some s') : I n s' := by
  induction n generalizing s' with
  | zero =>
    cases h
    exact h0
  | succ n ih =>
    rw [List.range_succ, List.foldlM_append] at h
    obtain ⟨s₁, h₁, h⟩ := Option.bind_eq_some_iff.mp h
    have hI := ih (fun i s s' hi => hstep i s s' (Nat.lt_succ_of_lt hi)) h₁
    exact hstep n s₁ s' (Nat.lt_succ_self n) hI (by simpa using h)

variable {ε α β σ : Type}

theorem ok_bind (a : α) (f : α → Except ε β) : (Except.ok a >>= f) = f a := rfl

theorem bind_eq_ok_iff {x : Except ε α} {f : α → Except ε β} {b : β} :
    x >>= f = .ok b ↔ ∃ a, x = .ok a ∧ f a = .ok b := by
  cases x with
  | error e =>
    constructor
    · intro h
      cases h
    · rintro ⟨a, ha, -⟩
      cases ha
  | ok a =>
    constructor
    · intro h
      exact ⟨a, rfl, h⟩
    · rintro ⟨a', ha, h⟩
      cases ha
      exact h

theorem mapM_eq_ok_iff {f : α → Except ε β} {l : List α} {r : List β} :
    l.mapM f = .ok r ↔ List.Forall₂ (fun a b => f a = .ok b) l r := by
  induction l generalizing r with
  | nil =>
    rw [List.mapM_nil, List.forall₂_nil_left_iff]
    exact ⟨fun h => (Except.ok.inj h).symm, fun h => congrArg Except.ok h.symm⟩
  | cons a l ih =>
    rw [List.mapM_cons, bind_eq_ok_iff, List.forall₂_cons_left_iff]
    constructor
    · rintro ⟨b, hb, h⟩
      obtain ⟨bs, hbs, hr⟩ := bind_eq_ok_iff.mp h
      exact ⟨b, bs, hb, ih.mp hbs, (Except.ok.inj hr).symm⟩
    · rintro ⟨b, bs, hb, hbs, rfl⟩
      exact ⟨b, hb, bind_eq_ok_iff.mpr ⟨bs, ih.mpr hbs, rfl⟩⟩

/-- A loop ends when each of its passes does. -/
theorem mapM_isOk_iff {f : α → Except ε β} {l : List α} :
    (∃ r, l.mapM f = .ok r) ↔ ∀ a ∈ l, ∃ b, f a = .ok b := by
  induction l with
  | nil => exact ⟨fun _ a ha => absurd ha List.not_mem_nil, fun _ => ⟨[], rfl⟩⟩
  | cons a l ih =>
    rw [List.forall_mem_cons, ← ih]
    constructor
    · rintro ⟨r, hr⟩
      obtain ⟨b, bs, hb, hbs, -⟩ := List.forall₂_cons_left_iff.mp (mapM_eq_ok_iff.mp hr)
      exact ⟨⟨b, hb⟩, bs, mapM_eq_ok_iff.mpr hbs⟩
    · rintro ⟨⟨b, hb⟩, bs, hbs⟩
      exact ⟨b :: bs, mapM_eq_ok_iff.mpr (.cons hb (mapM_eq_ok_iff.mp hbs))⟩

theorem foldlM_cons_eq_ok_iff {f : σ → α → Except ε σ} {s s' : σ} {a : α} {l : List α} :
    (a :: l).foldlM f s = .ok s' ↔ ∃ s'', f s a = .ok s'' ∧ l.foldlM f s'' = .ok s' := by
  rw [List.foldlM_cons, bind_eq_ok_iff]

theorem foldlM_append_eq_ok_iff {f : σ → α → Except ε σ} {s s' : σ} {l m : List α} :
    (l ++ m).foldlM f s = .ok s' ↔ ∃ s'', l.foldlM f s = .ok s'' ∧ m.foldlM f s'' = .ok s' := by
  rw [List.foldlM_append, bind_eq_ok_iff]

/-- A split of a list that is not empty is at its head or in its tail. -/
theorem exists_split_cons {P : List α → α → List α → Prop} {a : α} {l : List α} :
    (∃ pre b post, a :: l = pre ++ b :: post ∧ P pre b post) ↔
      P [] a l ∨ ∃ pre b post, l = pre ++ b :: post ∧ P (a :: pre) b post := by
  constructor
  · rintro ⟨pre, b, post, heq, h⟩
    cases pre with
    | nil =>
      cases heq
      exact Or.inl h
    | cons c pre =>
      cases heq
      exact Or.inr ⟨pre, b, post, rfl, h⟩
  · rintro (h | ⟨pre, b, post, rfl, h⟩)
    · exact ⟨[], a, l, rfl, h⟩
    · exact ⟨a :: pre, b, post, rfl, h⟩

/-- A loop that raises has a first round that raises. -/
theorem foldlM_eq_error_iff {f : σ → α → Except ε σ} {s : σ} {l : List α} {e : ε} :
    l.foldlM f s = .error e ↔
      ∃ pre a post s', l = pre ++ a :: post ∧ pre.foldlM f s = .ok s' ∧ f s' a = .error e := by
  induction l generalizing s with
  | nil =>
    constructor
    · intro h
      cases h
    · rintro ⟨pre, a, post, -, heq, -⟩
      cases pre <;> cases heq
  | cons b l ih =>
    rw [List.foldlM_cons]
    constructor
    · intro h
      cases hb : f s b with
      | error e' =>
        rw [hb] at h
        cases h
        exact ⟨[], b, l, s, rfl, rfl, hb⟩
      | ok s₁ =>
        rw [hb] at h
        obtain ⟨pre, a, post, s', rfl, hpre, ha⟩ := ih.mp h
        exact ⟨b :: pre, a, post, s', rfl, foldlM_cons_eq_ok_iff.mpr ⟨s₁, hb, hpre⟩, ha⟩
    · rintro ⟨pre, a, post, s', heq, hpre, ha⟩
      cases pre with
      | nil =>
        cases heq
        cases hpre
        rw [ha]
        rfl
      | cons c pre =>
        cases heq
        obtain ⟨s₁, hb, hpre⟩ := foldlM_cons_eq_ok_iff.mp hpre
        rw [hb]
        exact ih.mpr ⟨pre, a, post, s', rfl, hpre, ha⟩

end MicroSampler.Loops
