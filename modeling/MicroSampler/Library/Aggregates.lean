import Mathlib.Algebra.BigOperators.Group.List.Basic
import Mathlib.Algebra.Field.Basic

/-!
# Aggregates of a list cut in pieces

The least and the greatest element, and the weighted mean, of a list from those of its
pieces.
-/

namespace MicroSampler.Aggregates

variable {α β : Type}

/-- The first element of a list with respect to an order. -/
structure Extreme (r : β → β → Prop) (l : List β) (m : β) : Prop where
  mem : m ∈ l
  le : ∀ b ∈ l, r m b

/-- **Extremes of extremes.** The extreme of the pieces' extremes is that of all elements. -/
theorem extreme_map_iff {r : β → β → Prop} (htrans : ∀ a b c, r a b → r b c → r a c)
    (hanti : ∀ a b, r a b → r b a → a = b) {pieces : List α} {elements : α → List β} {f : α → β}
    (hf : ∀ p ∈ pieces, Extreme r (elements p) (f p)) {m : β} :
    Extreme r (pieces.map f) m ↔ Extreme r (pieces.flatMap elements) m := by
  constructor
  · rintro ⟨hmem, hle⟩
    obtain ⟨p, hp, rfl⟩ := List.mem_map.mp hmem
    refine ⟨List.mem_flatMap.mpr ⟨p, hp, (hf p hp).mem⟩, fun b hb => ?_⟩
    obtain ⟨q, hq, hb⟩ := List.mem_flatMap.mp hb
    exact htrans _ _ _ (hle (f q) (List.mem_map_of_mem hq)) ((hf q hq).le b hb)
  · rintro ⟨hmem, hle⟩
    have hall : ∀ p ∈ pieces, r m (f p) := fun p hp =>
      hle (f p) (List.mem_flatMap.mpr ⟨p, hp, (hf p hp).mem⟩)
    obtain ⟨p, hp, hm⟩ := List.mem_flatMap.mp hmem
    have heq : m = f p := hanti _ _ (hall p hp) ((hf p hp).le m hm)
    exact ⟨List.mem_map.mpr ⟨p, hp, heq.symm⟩, List.forall_mem_map.mpr hall⟩

section Order

variable [LE β] [Std.IsLinearOrder β]

theorem min?_eq_some_iff_extreme [Min β] [Std.LawfulOrderMin β] {l : List β} {m : β} :
    l.min? = some m ↔ Extreme (fun a b => a ≤ b) l m := by
  rw [List.min?_eq_some_iff]
  exact ⟨fun h => ⟨h.1, h.2⟩, fun h => ⟨h.mem, h.le⟩⟩

theorem max?_eq_some_iff_extreme [Max β] [Std.LawfulOrderMax β] {l : List β} {m : β} :
    l.max? = some m ↔ Extreme (fun a b => b ≤ a) l m := by
  rw [List.max?_eq_some_iff]
  exact ⟨fun h => ⟨h.1, h.2⟩, fun h => ⟨h.mem, h.le⟩⟩

/-- The minimum of the pieces' minima. -/
theorem min?_map_pieces [Min β] [Std.LawfulOrderMin β] {pieces : List α} {elements : α → List β}
    {f : α → β} (hf : ∀ p ∈ pieces, (elements p).min? = some (f p)) :
    (pieces.map f).min? = (pieces.flatMap elements).min? := by
  apply Option.ext
  intro m
  rw [min?_eq_some_iff_extreme, min?_eq_some_iff_extreme]
  refine extreme_map_iff ?_ ?_ fun p hp => min?_eq_some_iff_extreme.mp (hf p hp)
  · exact fun _ _ _ => Std.le_trans
  · exact fun _ _ => Std.le_antisymm

/-- The maximum of the pieces' maxima. -/
theorem max?_map_pieces [Max β] [Std.LawfulOrderMax β] {pieces : List α} {elements : α → List β}
    {f : α → β} (hf : ∀ p ∈ pieces, (elements p).max? = some (f p)) :
    (pieces.map f).max? = (pieces.flatMap elements).max? := by
  apply Option.ext
  intro m
  rw [max?_eq_some_iff_extreme, max?_eq_some_iff_extreme]
  refine extreme_map_iff ?_ ?_ fun p hp => max?_eq_some_iff_extreme.mp (hf p hp)
  · exact fun _ _ _ hab hbc => Std.le_trans hbc hab
  · exact fun _ _ hab hba => Std.le_antisymm hba hab

theorem min?_eq_of_mem_iff [Min β] [Std.LawfulOrderMin β] {l l' : List β}
    (h : ∀ b, b ∈ l ↔ b ∈ l') : l.min? = l'.min? := by
  apply Option.ext
  intro m
  simp only [List.min?_eq_some_iff, h]

theorem max?_eq_of_mem_iff [Max β] [Std.LawfulOrderMax β] {l l' : List β}
    (h : ∀ b, b ∈ l ↔ b ∈ l') : l.max? = l'.max? := by
  apply Option.ext
  intro m
  simp only [List.max?_eq_some_iff, h]

end Order

/-- The weighted sum of the pieces' means is the sum. -/
theorem sum_map_mul_div {K : Type} [Field K] {pieces : List α} {weight total : α → K}
    (h : ∀ p ∈ pieces, weight p ≠ 0) :
    (pieces.map fun p => weight p * (total p / weight p)).sum = (pieces.map total).sum := by
  congr 1
  apply List.map_congr_left
  intro p hp
  exact mul_div_cancel₀ (total p) (h p hp)

end MicroSampler.Aggregates
