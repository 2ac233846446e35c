import Mathlib.Data.List.Basic

/-!
# Segments of a ring

A list read as a ring: after its last element comes its first. `segment l h n` are the `n`
elements from index `h` on.
-/

namespace MicroSampler.Rings

variable {α : Type}

def segment (l : List α) (h n : Nat) : List α :=
  (List.range n).filterMap fun j => l[(h + j) % l.length]?

theorem filterMap_range_getElem? (l : List α) (n : Nat) :
    (List.range n).filterMap (fun j => l[j]?) = l.take n := by
  induction n with
  | zero => simp
  | succ n ih =>
    rw [List.range_succ, List.filterMap_append, ih, List.take_add_one]
    congr 1

theorem segment_add (l : List α) (h m n : Nat) :
    segment l h (m + n) = segment l h m ++ segment l (h + m) n := by
  unfold segment
  rw [List.range_add, List.filterMap_append, List.filterMap_map]
  congr 2
  funext j
  rw [Function.comp_apply, Nat.add_assoc]

/-- A segment that ends before the last element. -/
theorem segment_of_le {l : List α} {h n : Nat} (hn : h + n ≤ l.length) :
    segment l h n = (l.drop h).take n := by
  rw [← filterMap_range_getElem?]
  unfold segment
  apply List.filterMap_congr
  intro j hj
  have hlt : h + j < l.length := by
    have := List.mem_range.mp hj
    omega
  rw [Nat.mod_eq_of_lt hlt, List.getElem?_drop]

/-- A segment that goes on behind the last element. -/
theorem segment_of_wrap {l : List α} {h n : Nat} (hh : h ≤ l.length) (hn : n ≤ h) :
    segment l h (l.length - h + n) = l.drop h ++ l.take n := by
  have hrest : (l.drop h).take (l.length - h) = l.drop h := by
    apply List.take_of_length_le
    exact Nat.le_of_eq List.length_drop
  rw [segment_add, segment_of_le (by omega), hrest]
  congr 1
  rw [← filterMap_range_getElem?]
  unfold segment
  apply List.filterMap_congr
  intro j hj
  have hlt : j < l.length := by
    have := List.mem_range.mp hj
    omega
  rw [Nat.add_sub_cancel' hh, Nat.add_mod_left, Nat.mod_eq_of_lt hlt]

end MicroSampler.Rings
