import Mathlib.Data.Int.Order.Basic
import Mathlib.Data.List.Dedup
import Mathlib.Data.List.Nodup

/-!
# Padding and numbering

Lists of different lengths brought to one length by a filler, and values numbered by their
place among the distinct values. The numbering is faithful; the padding is faithful up to
fillers at the end.
-/

namespace MicroSampler.Padding

/-! ## Padding -/

section Padding

variable {α : Type}

/-- The list brought to length `m` by fillers. -/
def padTo (z : α) (m : Nat) (l : List α) : List α := l ++ List.replicate (m - l.length) z

/-- The second list is the first with fillers behind it. -/
def Extends (z : α) (l l' : List α) : Prop := ∃ n, l' = l ++ List.replicate n z

theorem Extends.refl (z : α) (l : List α) : Extends z l l := ⟨0, by simp⟩

theorem extends_of_padTo_eq {z : α} {m : Nat} {l l' : List α} (hm : l'.length ≤ m)
    (hle : l.length ≤ l'.length) (h : padTo z m l = padTo z m l') : Extends z l l' := by
  refine ⟨l'.length - l.length, ?_⟩
  have htake := congrArg (List.take l'.length) h
  rw [padTo, padTo, List.take_left, List.take_append, List.take_of_length_le hle,
    List.take_replicate, Nat.min_eq_left (by omega)] at htake
  exact htake.symm

theorem padTo_eq_of_extends {z : α} {m : Nat} {l l' : List α} (hm : l'.length ≤ m)
    (h : Extends z l l') : padTo z m l = padTo z m l' := by
  obtain ⟨n, rfl⟩ := h
  rw [List.length_append, List.length_replicate] at hm
  rw [padTo, padTo, List.append_assoc, List.replicate_append_replicate, List.length_append,
    List.length_replicate]
  congr 2
  omega

/-- Padding identifies two lists when one has only fillers behind the other. -/
theorem padTo_eq_padTo_iff {z : α} {m : Nat} {l l' : List α} (hl : l.length ≤ m)
    (hl' : l'.length ≤ m) :
    padTo z m l = padTo z m l' ↔ Extends z l l' ∨ Extends z l' l := by
  constructor
  · intro h
    obtain hle | hle := Nat.le_total l.length l'.length
    · exact Or.inl (extends_of_padTo_eq hl' hle h)
    · exact Or.inr (extends_of_padTo_eq hl hle h.symm)
  · intro h
    obtain h | h := h
    · exact padTo_eq_of_extends hl' h
    · exact (padTo_eq_of_extends hl h).symm

end Padding

/-! ## Maps that are injective where they are used -/

theorem map_eq_map_iff_of_injOn {α β : Type} {f : α → β} {l l' : List α}
    (hf : ∀ a ∈ l, ∀ b ∈ l', f a = f b → a = b) : l.map f = l'.map f ↔ l = l' := by
  constructor
  · intro h
    induction l generalizing l' with
    | nil => exact (List.map_eq_nil_iff.mp h.symm).symm
    | cons a l ih =>
      cases l' with
      | nil => cases h
      | cons b l' =>
        rw [List.map_cons, List.map_cons, List.cons.injEq] at h
        rw [hf a List.mem_cons_self b List.mem_cons_self h.1,
          ih (fun a ha b hb => hf a (List.mem_cons_of_mem _ ha) b (List.mem_cons_of_mem _ hb)) h.2]
  · intro h
    rw [h]

/-- A list of images is the image of a list. -/
theorem exists_map_eq {α β : Type} {f : α → β} {P : α → Prop} {l : List β}
    (h : ∀ b ∈ l, ∃ a, P a ∧ f a = b) : ∃ l' : List α, (∀ a ∈ l', P a) ∧ l'.map f = l := by
  induction l with
  | nil => exact ⟨[], by simp, rfl⟩
  | cons b l ih =>
    obtain ⟨a, ha, rfl⟩ := h b List.mem_cons_self
    obtain ⟨l', hl', rfl⟩ := ih fun b hb => h b (List.mem_cons_of_mem _ hb)
    exact ⟨a :: l', List.forall_mem_cons.mpr ⟨ha, hl'⟩, rfl⟩

/-! ## Numbering -/

section Numbering

variable {α : Type} [BEq α]

/-- Numbers by place, counted from one. -/
def number (values : List α) (v : α) : Nat := values.idxOf v + 1

theorem number_eq_iff [LawfulBEq α] {values : List α} {v w : α} (hv : v ∈ values) :
    number values v = number values w ↔ v = w := by
  rw [number, number, Nat.add_right_cancel_iff]
  exact List.idxOf_inj hv

end Numbering

/-- `np.unique`: the distinct values in ascending order. -/
def unique (values : List Int) : List Int := values.dedup.mergeSort (· ≤ ·)

theorem mem_unique {values : List Int} {v : Int} : v ∈ unique values ↔ v ∈ values := by
  rw [unique, List.mem_mergeSort, List.mem_dedup]

end MicroSampler.Padding
