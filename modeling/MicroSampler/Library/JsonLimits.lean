import Mathlib.Data.Nat.Digits.Defs
import MicroSampler.Library.JsonText

/-!
# A JSON reader with limits

A reader that is implemented somewhere bounds the digits of an integer and the containers that
may be open at a time. `loads` is the reader with such limits: a text that the grammar refuses
is one fault, a document that exceeds a limit another.

`loads_eq_ok_iff`: it reads exactly the documents within the limits. `Within` is closed under
arrays and objects (`Within.arr`, `Within.obj`).
-/

namespace MicroSampler.Json

/-! ## Depth and integers of a value -/

mutual

/-- How many containers are open at a time. -/
def depth : Json → Nat
  | .arr vs => depthElements vs + 1
  | .obj ms => depthMembers ms + 1
  | .null | .bool _ | .int _ | .float _ | .str _ => 0

def depthElements : List Json → Nat
  | [] => 0
  | v :: vs => max (depth v) (depthElements vs)

def depthMembers : List (CodePoints × Json) → Nat
  | [] => 0
  | (_, v) :: ms => max (depth v) (depthMembers ms)

end

mutual

/-- The integers in a value, repeated names included. -/
def integers : Json → List Int
  | .int n => [n]
  | .arr vs => integersElements vs
  | .obj ms => integersMembers ms
  | .null | .bool _ | .float _ | .str _ => []

def integersElements : List Json → List Int
  | [] => []
  | v :: vs => integers v ++ integersElements vs

def integersMembers : List (CodePoints × Json) → List Int
  | [] => []
  | (_, v) :: ms => integers v ++ integersMembers ms

end

/-- How many decimal digits write a number. -/
def digitCount (n : Int) : Nat := (Nat.toDigits 10 n.natAbs).length

theorem digitCount_le {n : Int} {e : Nat} (he : 0 < e) (hn : n.natAbs < 10 ^ e) :
    digitCount n ≤ e :=
  Nat.toDigits_length 10 n.natAbs e he hn

/-! ## Values within limits -/

structure Limits where
  digits : Nat
  depth : Nat

structure Within (limits : Limits) (v : Json) : Prop where
  depth : v.depth ≤ limits.depth
  digits : ∀ n ∈ v.integers, digitCount n ≤ limits.digits

instance (limits : Limits) (v : Json) : Decidable (Within limits v) :=
  decidable_of_iff (v.depth ≤ limits.depth ∧ ∀ n ∈ v.integers, digitCount n ≤ limits.digits)
    ⟨fun h => ⟨h.1, h.2⟩, fun h => ⟨h.depth, h.digits⟩⟩

theorem Within.int {limits : Limits} {n : Int} (hn : digitCount n ≤ limits.digits) :
    Within limits (.int n) :=
  ⟨Nat.zero_le _, List.forall_mem_singleton.mpr hn⟩

theorem Within.arr {digits depth : Nat} {vs : List Json}
    (h : ∀ v ∈ vs, Within ⟨digits, depth⟩ v) : Within ⟨digits, depth + 1⟩ (.arr vs) := by
  suffices helements : depthElements vs ≤ depth ∧
      ∀ n ∈ integersElements vs, digitCount n ≤ digits from
    ⟨Nat.succ_le_succ helements.1, helements.2⟩
  induction vs with
  | nil => exact ⟨Nat.zero_le _, List.forall_mem_nil _⟩
  | cons v vs ih =>
    obtain ⟨hv, hvs⟩ := List.forall_mem_cons.mp h
    obtain ⟨hdepth, hdigits⟩ := ih hvs
    exact ⟨max_le hv.depth hdepth, List.forall_mem_append.mpr ⟨hv.digits, hdigits⟩⟩

theorem Within.obj {digits depth : Nat} {ms : List (CodePoints × Json)}
    (h : ∀ m ∈ ms, Within ⟨digits, depth⟩ m.2) : Within ⟨digits, depth + 1⟩ (.obj ms) := by
  suffices hmembers : depthMembers ms ≤ depth ∧
      ∀ n ∈ integersMembers ms, digitCount n ≤ digits from
    ⟨Nat.succ_le_succ hmembers.1, hmembers.2⟩
  induction ms with
  | nil => exact ⟨Nat.zero_le _, List.forall_mem_nil _⟩
  | cons m ms ih =>
    obtain ⟨hv, hms⟩ := List.forall_mem_cons.mp h
    obtain ⟨hdepth, hdigits⟩ := ih hms
    exact ⟨max_le hv.depth hdepth, List.forall_mem_append.mpr ⟨hv.digits, hdigits⟩⟩

theorem Within.mono {limits limits' : Limits} {v : Json} (h : Within limits v)
    (hdigits : limits.digits ≤ limits'.digits) (hdepth : limits.depth ≤ limits'.depth) :
    Within limits' v :=
  ⟨h.depth.trans hdepth, fun n hn => (h.digits n hn).trans hdigits⟩

/-! ## The reader -/

/-- Why a text is not read. -/
inductive Fault
  | grammar
  | digits
  | depth

/-- `json.loads` of an interpreter with limits. Where a text has several faults, the one that
comes first in it is not told apart. -/
def loads (limits : Limits) (s : List Char) : Except Fault Json :=
  match readText s with
  | none => .error .grammar
  | some v =>
    if limits.depth < v.depth then .error .depth
    else if Within limits v then .ok v
    else .error .digits

/-- **The reader reads the documents within the limits.** -/
theorem loads_eq_ok_iff {limits : Limits} {s : List Char} {v : Json} :
    loads limits s = .ok v ↔ readText s = some v ∧ Within limits v := by
  unfold loads
  cases readText s with
  | none => simp only [reduceCtorEq, false_and]
  | some w =>
    dsimp only
    by_cases hw : Within limits w
    · rw [if_neg (Nat.not_lt.mpr hw.depth), if_pos hw, Except.ok.injEq, Option.some.injEq]
      exact ⟨fun h => ⟨h, h ▸ hw⟩, And.left⟩
    · rw [if_neg hw]
      refine ⟨fun h => ?_, fun ⟨h, hv⟩ => absurd ((Option.some.inj h).symm ▸ hv) hw⟩
      split at h <;> cases h

end MicroSampler.Json
