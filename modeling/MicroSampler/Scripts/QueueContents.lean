import MicroSampler.Library.Rings
import MicroSampler.Scripts.Microarchitecture

/-!
# The entries a queue keeps

`setmetaData` finds the two pointers of a circular queue and `getValidEntries` keeps the
entries between them. From the head up to the tail these are the entries in flight. When
the tail has wrapped, the queue keeps the entries behind the tail up to the head instead.

`keepsInFlight_iff`: when the entries kept are the entries in flight, for a queue of any size.
-/

namespace MicroSampler.Scripts

open Python Rings

/-- The one head pointer is at `h` and the one tail pointer at `t`. -/
structure Pointers (ptr : List Text) (h t : Nat) : Prop where
  head : ∀ i, ptr[i]? = some ['H'] ↔ i = h
  tail : ∀ i, ptr[i]? = some ['T'] ↔ i = t

/-- The entries from the head on, before the tail is reached. -/
def inFlight {α : Type} (lst : List α) (h t : Nat) : List α :=
  segment lst h (((t : Int) - h) % lst.length).toNat

/-- The entries strictly between the tail and the head are those strictly outside of them. -/
def Mirrored {α : Type} (lst : List α) (h t : Nat) : Prop :=
  ((lst.take h).drop (t + 1)).Perm (lst.drop (h + 1) ++ lst.take t)

/-! ## The ring -/

section Ring

variable {α : Type} {lst : List α} {h t : Nat}

theorem inFlight_of_lt (hht : h < t) (ht : t < lst.length) :
    inFlight lst h t = (lst.take t).drop h := by
  have hsize : (((t : Int) - h) % lst.length).toNat = t - h := by
    rw [Int.emod_eq_of_lt (by omega) (by omega)]
    omega
  rw [inFlight, hsize, segment_of_le (by omega), List.drop_take]

theorem inFlight_of_gt (hth : t < h) (hh : h < lst.length) :
    inFlight lst h t = lst.drop h ++ lst.take t := by
  have hsize : (((t : Int) - h) % lst.length).toNat = lst.length - h + t := by
    rw [← Int.add_emod_right, Int.emod_eq_of_lt (by omega) (by omega)]
    omega
  rw [inFlight, hsize, segment_of_wrap (by omega) (by omega)]

/-- The wrapped case keeps the entry at the head, as it should. -/
theorem perm_inFlight_iff (hth : t < h) (hh : h < lst.length) :
    ((lst.take (h + 1)).drop (t + 1)).Perm (inFlight lst h t) ↔ Mirrored lst h t := by
  have hkept : (lst.take (h + 1)).drop (t + 1) = (lst.take h).drop (t + 1) ++ [lst[h]] := by
    rw [List.take_succ_eq_append_getElem hh, List.drop_append_of_le_length]
    rw [List.length_take]
    omega
  have hring : inFlight lst h t = lst[h] :: (lst.drop (h + 1) ++ lst.take t) := by
    rw [inFlight_of_gt hth hh, List.drop_eq_getElem_cons hh, List.cons_append]
  rw [hkept, hring, Mirrored]
  constructor
  · intro hp
    exact ((List.perm_append_singleton _ _).symm.trans hp).cons_inv
  · intro hp
    exact (List.perm_append_singleton _ _).trans (hp.cons _)

theorem Mirrored.size_eq (hm : Mirrored lst h t) (hth : t < h) (hh : h < lst.length) :
    lst.length = 2 * (h - t) := by
  have hlength := List.Perm.length_eq hm
  rw [List.length_drop, List.length_take, List.length_append, List.length_drop,
    List.length_take] at hlength
  omega

end Ring

/-! ## What a queue keeps -/

section Queue

variable {q : CircularQueue} {h t : Nat}

theorem Pointers.head_lt {ptr : List Text} (hq : Pointers ptr h t) : h < ptr.length := by
  have := (hq.head h).mpr rfl
  exact (List.getElem?_eq_some_iff.mp this).1

theorem Pointers.tail_lt {ptr : List Text} (hq : Pointers ptr h t) : t < ptr.length := by
  have := (hq.tail t).mpr rfl
  exact (List.getElem?_eq_some_iff.mp this).1

theorem Pointers.ne {ptr : List Text} (hq : Pointers ptr h t) : h ≠ t := by
  rintro rfl
  have hhead := (hq.head h).mpr rfl
  rw [(hq.tail h).mpr rfl] at hhead
  exact absurd hhead (by decide)

/-- The first index of an entry that occurs once. -/
theorem findIdx?_of_unique {ptr : List Text} {c : Text} {i : Nat}
    (hc : ∀ j, ptr[j]? = some c ↔ j = i) : ptr.findIdx? (· = c) = some i := by
  obtain ⟨hi, hget⟩ := List.getElem?_eq_some_iff.mp ((hc i).mpr rfl)
  apply List.findIdx?_eq_some_iff_getElem.mpr
  refine ⟨hi, by simpa using hget, ?_⟩
  intro j hj hcj
  have : j = i := by
    apply (hc j).mp
    rw [List.getElem?_eq_getElem (hj.trans hi)]
    simpa using hcj
  omega

theorem setmetaData_of_pointers (hq : Pointers q.ptr h t) :
    q.setmetaData =
      some { q with occupancy := Int.natAbs ((t : Int) - h), head := h, tail := t } := by
  rw [CircularQueue.setmetaData, findIdx?_of_unique hq.head]
  simp only [findIdx?_of_unique hq.tail, Option.bind_eq_bind, Option.bind_some]

/-- The two branches of `getValidEntries`. -/
theorem getValidEntries_of_lt {α : Type} {lst : List α} (hhead : q.head = h) (htail : q.tail = t)
    (hht : h < t) (ht : t < lst.length) :
    q.getValidEntries lst = some ((lst.take t).drop h) := by
  rw [CircularQueue.getValidEntries, hhead, htail, if_neg (by omega), slice, sliceBound,
    sliceBound, if_pos (by omega), if_pos (by omega)]
  congr 3 <;> omega

theorem mapM_index? {α : Type} {lst : List α} {m n : Nat} (hn : m + n ≤ lst.length) :
    ((List.range' m n).map Int.ofNat).mapM (index? lst) = some ((lst.drop m).take n) := by
  induction n generalizing m with
  | zero => simp
  | succ n ih =>
    have hm : m < lst.length := by omega
    have hindex : index? lst (Int.ofNat m) = some lst[m] := by
      simp [index?, hm]
    rw [List.range'_succ, List.map_cons, List.mapM_cons, hindex, ih (by omega),
      List.drop_eq_getElem_cons hm, List.take_succ_cons]
    rfl

theorem getValidEntries_of_gt {α : Type} {lst : List α} (hhead : q.head = h) (htail : q.tail = t)
    (hth : t < h) (hh : h < lst.length) :
    q.getValidEntries lst = some ((lst.take (h + 1)).drop (t + 1)) := by
  have hindices : range (t + 1) (h + 1) = (List.range' (t + 1) (h - t)).map Int.ofNat := by
    have hstop : (h : Int) + 1 = t + 1 + (h - t : Nat) := by omega
    rw [hstop, range_eq_map, List.range'_eq_map_range, List.map_map]
    apply List.map_congr_left
    intro k _
    simp
  rw [CircularQueue.getValidEntries, hhead, htail, if_pos (by omega), hindices,
    mapM_index? (by omega), List.drop_take]
  congr 2
  omega

/-- The queue with both pointers found. -/
def CircularQueue.pointed (q : CircularQueue) (h t : Nat) : CircularQueue :=
  { q with occupancy := Int.natAbs ((t : Int) - h), head := h, tail := t }

theorem occupancy_eq_iff (hq : Pointers q.ptr h t) :
    ((q.pointed h t).occupancy : Int) = (t - h : Int) % q.ptr.length ↔
      h < t ∨ q.ptr.length = 2 * (h - t) := by
  have hh := hq.head_lt
  have ht := hq.tail_lt
  have hne := hq.ne
  change ((Int.natAbs ((t : Int) - h) : Nat) : Int) = _ ↔ _
  by_cases hht : h < t
  · rw [Int.emod_eq_of_lt (by omega) (by omega)]
    omega
  · rw [← Int.add_emod_right, Int.emod_eq_of_lt (by omega) (by omega)]
    omega

/-- What the queue keeps of a list, and when these are the entries in flight. -/
theorem getValidEntries_pointed {α : Type} {lst : List α} (hq : Pointers q.ptr h t)
    (hlst : lst.length = q.ptr.length) :
    ∃ kept, (q.pointed h t).getValidEntries lst = some kept ∧
      kept.length = (q.pointed h t).occupancy ∧
      (kept.Perm (inFlight lst h t) ↔ h < t ∨ Mirrored lst h t) := by
  have hh := hq.head_lt
  have ht := hq.tail_lt
  have hne := hq.ne
  have hoccupancy : (q.pointed h t).occupancy = Int.natAbs ((t : Int) - h) := rfl
  by_cases hht : h < t
  · refine ⟨_, getValidEntries_of_lt rfl rfl hht (by omega), ?_, ?_⟩
    · rw [hoccupancy, List.length_drop, List.length_take]
      omega
    · rw [inFlight_of_lt hht (by omega)]
      exact iff_of_true (List.Perm.refl _) (.inl hht)
  · refine ⟨_, getValidEntries_of_gt rfl rfl (by omega) (by omega), ?_, ?_⟩
    · rw [hoccupancy, List.length_drop, List.length_take]
      omega
    · rw [perm_inFlight_iff (by omega) (by omega)]
      simp only [hht, false_or]

end Queue

/-! ## Exactly the entries in flight -/

/-- The occupancy counts the entries in flight, and those that are kept are these. -/
def CircularQueue.KeepsInFlight {α : Type} (q : CircularQueue) (h t : Nat) (lst : List α) : Prop :=
  ∃ q', q.setmetaData = some q' ∧ (q'.occupancy : Int) = (t - h : Int) % q.ptr.length ∧
    ∃ kept, q'.getValidEntries lst = some kept ∧ kept.length = q'.occupancy ∧
      kept.Perm (inFlight lst h t)

def LoadQueue.KeepsInFlight (lq : LoadQueue) (h t : Nat) : Prop :=
  ∃ lq', lq.setmetaData = some lq' ∧ (lq'.occupancy : Int) = (t - h : Int) % lq.ptr.length ∧
    lq'.sn.Perm (inFlight lq.sn h t) ∧ lq'.pc.Perm (inFlight lq.pc h t) ∧
    lq'.address.Perm (inFlight lq.address h t)

def StoreQueue.KeepsInFlight (sq : StoreQueue) (h t : Nat) : Prop :=
  ∃ sq', sq.setmetaData = some sq' ∧ (sq'.occupancy : Int) = (t - h : Int) % sq.ptr.length ∧
    sq'.sn.Perm (inFlight sq.sn h t) ∧ sq'.pc.Perm (inFlight sq.pc h t) ∧
    sq'.address.Perm (inFlight sq.address h t) ∧ sq'.data.Perm (inFlight sq.data h t)

def ROB.KeepsInFlight (rob : ROB) (h t : Nat) : Prop :=
  ∃ rob', rob.setmetaData = some rob' ∧ (rob'.occupancy : Int) = (t - h : Int) % rob.ptr.length ∧
    rob'.sn.Perm (inFlight rob.sn h t) ∧ rob'.pc.Perm (inFlight rob.pc h t) ∧
    rob'.inst.Perm (inFlight rob.inst h t)

section Exact

variable {h t : Nat}

/-- The sizes fit whenever the entries of one list do. -/
theorem occupancy_of_mirrored {α : Type} {q : CircularQueue} {lst : List α}
    (hq : Pointers q.ptr h t) (hlst : lst.length = q.ptr.length) (hm : h < t ∨ Mirrored lst h t) :
    ((q.pointed h t).occupancy : Int) = (t - h : Int) % q.ptr.length := by
  apply (occupancy_eq_iff hq).mpr
  have hh := hq.head_lt
  have hne := hq.ne
  by_cases hht : h < t
  · exact .inl hht
  · have hsize := (hm.resolve_left hht).size_eq (by omega) (by omega)
    right
    omega

theorem CircularQueue.keeps_iff {α : Type} {q : CircularQueue} {lst : List α}
    (hq : Pointers q.ptr h t) (hlst : lst.length = q.ptr.length) :
    q.KeepsInFlight h t lst ↔ h < t ∨ Mirrored lst h t := by
  obtain ⟨kept, hkept, hlength, hiff⟩ := getValidEntries_pointed hq hlst
  constructor
  · rintro ⟨q', hq', -, kept', hkept', -, hperm⟩
    rw [setmetaData_of_pointers hq] at hq'
    cases hq'
    change (q.pointed h t).getValidEntries lst = some kept' at hkept'
    rw [hkept] at hkept'
    cases hkept'
    exact hiff.mp hperm
  · intro hm
    exact ⟨q.pointed h t, setmetaData_of_pointers hq, occupancy_of_mirrored hq hlst hm, kept,
      hkept, hlength, hiff.mpr hm⟩

theorem LoadQueue.keeps_iff {lq : LoadQueue} (hq : Pointers lq.ptr h t)
    (hsn : lq.sn.length = lq.ptr.length) (hpc : lq.pc.length = lq.ptr.length)
    (haddress : lq.address.length = lq.ptr.length) :
    lq.KeepsInFlight h t ↔
      h < t ∨ (Mirrored lq.sn h t ∧ Mirrored lq.pc h t ∧ Mirrored lq.address h t) := by
  obtain ⟨sn, hkeepsn, -, hsniff⟩ := getValidEntries_pointed hq hsn
  obtain ⟨pc, hkeeppc, -, hpciff⟩ := getValidEntries_pointed hq hpc
  obtain ⟨address, hkeepaddress, -, haddressiff⟩ := getValidEntries_pointed hq haddress
  have hset : lq.setmetaData = some { lq.toCircularQueue.pointed h t with sn, pc, address } := by
    rw [LoadQueue.setmetaData, setmetaData_of_pointers hq, ← CircularQueue.pointed]
    simp only [Option.bind_eq_bind, Option.bind_some, hkeepsn, hkeeppc, hkeepaddress]
  unfold LoadQueue.KeepsInFlight
  simp only [hset, Option.some.injEq, exists_eq_left', hsniff, hpciff, haddressiff, ← or_and_left]
  apply and_iff_right_of_imp
  intro hm
  exact occupancy_of_mirrored hq hsn (hm.imp_right And.left)

theorem StoreQueue.keeps_iff {sq : StoreQueue} (hq : Pointers sq.ptr h t)
    (hsn : sq.sn.length = sq.ptr.length) (hpc : sq.pc.length = sq.ptr.length)
    (haddress : sq.address.length = sq.ptr.length) (hdata : sq.data.length = sq.ptr.length) :
    sq.KeepsInFlight h t ↔ h < t ∨ (Mirrored sq.sn h t ∧ Mirrored sq.pc h t ∧
      Mirrored sq.address h t ∧ Mirrored sq.data h t) := by
  obtain ⟨sn, hkeepsn, -, hsniff⟩ := getValidEntries_pointed hq hsn
  obtain ⟨pc, hkeeppc, -, hpciff⟩ := getValidEntries_pointed hq hpc
  obtain ⟨address, hkeepaddress, -, haddressiff⟩ := getValidEntries_pointed hq haddress
  obtain ⟨data, hkeepdata, -, hdataiff⟩ := getValidEntries_pointed hq hdata
  have hset : sq.setmetaData =
      some { sq.toCircularQueue.pointed h t with sn, pc, address, data } := by
    rw [StoreQueue.setmetaData, setmetaData_of_pointers hq, ← CircularQueue.pointed]
    simp only [Option.bind_eq_bind, Option.bind_some, hkeepsn, hkeeppc, hkeepaddress, hkeepdata]
  unfold StoreQueue.KeepsInFlight
  simp only [hset, Option.some.injEq, exists_eq_left', hsniff, hpciff, haddressiff, hdataiff,
    ← or_and_left]
  apply and_iff_right_of_imp
  intro hm
  exact occupancy_of_mirrored hq hsn (hm.imp_right And.left)

theorem ROB.keeps_iff {rob : ROB} (hq : Pointers rob.ptr h t)
    (hsn : rob.sn.length = rob.ptr.length) (hpc : rob.pc.length = rob.ptr.length)
    (hinst : rob.inst.length = rob.ptr.length) :
    rob.KeepsInFlight h t ↔
      h < t ∨ (Mirrored rob.sn h t ∧ Mirrored rob.pc h t ∧ Mirrored rob.inst h t) := by
  obtain ⟨sn, hkeepsn, -, hsniff⟩ := getValidEntries_pointed hq hsn
  obtain ⟨pc, hkeeppc, -, hpciff⟩ := getValidEntries_pointed hq hpc
  obtain ⟨inst, hkeepinst, -, hinstiff⟩ := getValidEntries_pointed hq hinst
  have hset : rob.setmetaData = some { rob.toCircularQueue.pointed h t with sn, pc, inst } := by
    rw [ROB.setmetaData, setmetaData_of_pointers hq, ← CircularQueue.pointed]
    simp only [Option.bind_eq_bind, Option.bind_some, hkeepsn, hkeeppc, hkeepinst]
  unfold ROB.KeepsInFlight
  simp only [hset, Option.some.injEq, exists_eq_left', hsniff, hpciff, hinstiff, ← or_and_left]
  apply and_iff_right_of_imp
  intro hm
  exact occupancy_of_mirrored hq hsn (hm.imp_right And.left)

end Exact

/-- **The queues keep the entries in flight exactly when the tail has not wrapped**, or when
the entries that are confused with them happen to be the same. -/
theorem keepsInFlight_iff {q : CircularQueue} {h t : Nat} (hq : Pointers q.ptr h t) :
    (∀ {α : Type} (lst : List α), lst.length = q.ptr.length →
      (q.KeepsInFlight h t lst ↔ h < t ∨ Mirrored lst h t)) ∧
    (∀ lq : LoadQueue, lq.toCircularQueue = q → lq.sn.length = q.ptr.length →
      lq.pc.length = q.ptr.length → lq.address.length = q.ptr.length →
      (lq.KeepsInFlight h t ↔
        h < t ∨ (Mirrored lq.sn h t ∧ Mirrored lq.pc h t ∧ Mirrored lq.address h t))) ∧
    (∀ sq : StoreQueue, sq.toCircularQueue = q → sq.sn.length = q.ptr.length →
      sq.pc.length = q.ptr.length → sq.address.length = q.ptr.length →
      sq.data.length = q.ptr.length →
      (sq.KeepsInFlight h t ↔ h < t ∨ (Mirrored sq.sn h t ∧ Mirrored sq.pc h t ∧
        Mirrored sq.address h t ∧ Mirrored sq.data h t))) ∧
    (∀ rob : ROB, rob.toCircularQueue = q → rob.sn.length = q.ptr.length →
      rob.pc.length = q.ptr.length → rob.inst.length = q.ptr.length →
      (rob.KeepsInFlight h t ↔
        h < t ∨ (Mirrored rob.sn h t ∧ Mirrored rob.pc h t ∧ Mirrored rob.inst h t))) := by
  refine ⟨?_, ?_, ?_, ?_⟩
  · intro α lst hlst
    exact CircularQueue.keeps_iff hq hlst
  · rintro lq rfl hsn hpc haddress
    exact LoadQueue.keeps_iff hq hsn hpc haddress
  · rintro sq rfl hsn hpc haddress hdata
    exact StoreQueue.keeps_iff hq hsn hpc haddress hdata
  · rintro rob rfl hsn hpc hinst
    exact ROB.keeps_iff hq hsn hpc hinst

/-- The pointers of eight entries, with the head at `h` and the tail at `t`. -/
def pointedPtr (h t : Nat) : List Text :=
  (List.range 8).map fun i => if i = h then ['H'] else if i = t then ['T'] else [' ']

theorem pointers_pointedPtr {h t : Nat} (hh : h < 8) (ht : t < 8) (hne : h ≠ t) :
    Pointers (pointedPtr h t) h t := by
  have hentry : ∀ i c, (pointedPtr h t)[i]? = some c ↔
      i < 8 ∧ (if i = h then ['H'] else if i = t then ['T'] else [' ']) = c := by
    intro i c
    rw [pointedPtr, List.getElem?_map]
    by_cases hi : i < 8
    · simp [hi]
    · simp [hi]
  constructor
  · intro i
    rw [hentry]
    split_ifs <;> simp_all
  · intro i
    rw [hentry]
    split_ifs <;> simp_all

theorem keepsInFlight_iff_wrapped :
    CircularQueue.KeepsInFlight { ptr := pointedPtr 6 1 } 6 1 (List.range 8) ↔
      6 < 1 ∨ Mirrored (List.range 8) 6 1 :=
  (keepsInFlight_iff (pointers_pointedPtr (by decide) (by decide) (by decide))).1 _ rfl

/-- Of the ring 6, 7, 0 the queue keeps 2, 3, 4, 5, 6, and it counts five entries. -/
theorem not_keepsInFlight_wrapped :
    Pointers (pointedPtr 6 1) 6 1 ∧
      ¬ CircularQueue.KeepsInFlight { ptr := pointedPtr 6 1 } 6 1 (List.range 8) := by
  have hq := pointers_pointedPtr (h := 6) (t := 1) (by decide) (by decide) (by decide)
  refine ⟨hq, ?_⟩
  rintro ⟨q', hq', hoccupancy, -⟩
  rw [setmetaData_of_pointers hq] at hq'
  cases hq'
  exact absurd hoccupancy (by decide)

/-- For all contents the entries kept are those in flight only when the tail has not wrapped,
or in a queue of two entries. -/
theorem keepsInFlight_forall_iff {q : CircularQueue} {h t : Nat} (hq : Pointers q.ptr h t) :
    (∀ lst : List Nat, lst.length = q.ptr.length → q.KeepsInFlight h t lst) ↔
      h < t ∨ q.ptr.length = 2 := by
  have hh := hq.head_lt
  have hne := hq.ne
  constructor
  · intro hall
    have hm := (CircularQueue.keeps_iff hq List.length_range).mp
      (hall (List.range q.ptr.length) List.length_range)
    by_cases hht : h < t
    · exact .inl hht
    right
    have hperm := hm.resolve_left hht
    have hsize := hperm.size_eq (by omega) (by rw [List.length_range]; exact hh)
    have hbetween : ∀ i ∈ ((List.range q.ptr.length).take h).drop (t + 1), t < i ∧ i < h := by
      intro i hi
      rw [List.take_range, List.range_eq_range', List.drop_range', List.mem_range'_1] at hi
      omega
    -- The last index is in the ring, and so is the first unless the tail is there.
    have hlast : ¬ h + 1 < q.ptr.length := by
      intro hlt
      have hmem : h + 1 ∈ (List.range q.ptr.length).drop (h + 1) := by
        rw [List.range_eq_range', List.drop_range', List.mem_range'_1]
        omega
      have := hbetween _ (hperm.mem_iff.mpr (List.mem_append_left _ hmem))
      omega
    have hfirst : ¬ 0 < t := by
      intro hlt
      have hmem : 0 ∈ (List.range q.ptr.length).take t := by
        rw [List.take_range, List.mem_range]
        omega
      have := hbetween _ (hperm.mem_iff.mpr (List.mem_append_right _ hmem))
      omega
    rw [List.length_range] at hsize
    omega
  · intro hcase lst hlst
    apply (CircularQueue.keeps_iff hq hlst).mpr
    by_cases hht : h < t
    · exact .inl hht
    right
    have hbetween : (lst.take h).drop (t + 1) = [] := by
      apply List.eq_nil_of_length_eq_zero
      rw [List.length_drop, List.length_take]
      omega
    have houtside : lst.drop (h + 1) ++ lst.take t = [] := by
      apply List.eq_nil_of_length_eq_zero
      rw [List.length_append, List.length_drop, List.length_take]
      omega
    rw [Mirrored, hbetween, houtside]

end MicroSampler.Scripts
