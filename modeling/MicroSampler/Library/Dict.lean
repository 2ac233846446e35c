import Mathlib.Data.List.Induction
import Mathlib.Data.List.Nodup

/-!
# Dictionaries that keep insertion order

A mapping whose entries stand in the order in which their keys were first inserted.
Assigning to a present key replaces its value in place, assigning to an absent key
appends. No key occurs twice, by construction.
-/

namespace MicroSampler

structure Dict (κ ν : Type) where
  entries : List (κ × ν)
  nodup : (entries.map Prod.fst).Nodup

namespace Dict

variable {κ ν μ : Type} [DecidableEq κ]

omit [DecidableEq κ] in
@[ext] theorem ext {d d' : Dict κ ν} (h : d.entries = d'.entries) : d = d' := by
  cases d
  cases d'
  cases h
  rfl

def empty : Dict κ ν := ⟨[], List.nodup_nil⟩

/-- The keys in insertion order. -/
def keys (d : Dict κ ν) : List κ := d.entries.map Prod.fst

/-- The values in insertion order of their keys. -/
def values (d : Dict κ ν) : List ν := d.entries.map Prod.snd

/-- `d[k]`; a missing key raises. -/
def get? (d : Dict κ ν) (k : κ) : Option ν :=
  (d.entries.find? fun e => e.1 = k).map Prod.snd

/-- The entry list after `d[k] = v`. -/
def setEntries (k : κ) (v : ν) (l : List (κ × ν)) : List (κ × ν) :=
  if k ∈ l.map Prod.fst then l.map fun e => if e.1 = k then (k, v) else e else l ++ [(k, v)]

theorem map_fst_setEntries (k : κ) (v : ν) (l : List (κ × ν)) :
    (setEntries k v l).map Prod.fst =
      if k ∈ l.map Prod.fst then l.map Prod.fst else l.map Prod.fst ++ [k] := by
  unfold setEntries
  split
  · rw [List.map_map]
    apply List.map_congr_left
    intro e _
    by_cases he : e.1 = k <;> simp [he]
  · simp

/-- `d[k] = v`. -/
def set (d : Dict κ ν) (k : κ) (v : ν) : Dict κ ν where
  entries := setEntries k v d.entries
  nodup := by
    rw [map_fst_setEntries]
    split
    · exact d.nodup
    · next hk =>
      rw [List.nodup_append]
      refine ⟨d.nodup, List.nodup_singleton k, ?_⟩
      intro a ha b hb hab
      rw [List.mem_singleton.mp hb] at hab
      exact hk (hab ▸ ha)

omit [DecidableEq κ] in
theorem nodup_keys (d : Dict κ ν) : d.keys.Nodup := d.nodup

theorem keys_set (d : Dict κ ν) (k : κ) (v : ν) :
    (d.set k v).keys = if k ∈ d.keys then d.keys else d.keys ++ [k] :=
  map_fst_setEntries k v d.entries

theorem keys_set_of_mem {d : Dict κ ν} {k : κ} (h : k ∈ d.keys) (v : ν) :
    (d.set k v).keys = d.keys := by
  rw [keys_set, if_pos h]

theorem entries_set_of_mem {d : Dict κ ν} {k : κ} (h : k ∈ d.keys) (v : ν) :
    (d.set k v).entries = d.entries.map fun e => if e.1 = k then (k, v) else e := if_pos h

theorem entries_set_of_not_mem {d : Dict κ ν} {k : κ} (h : k ∉ d.keys) (v : ν) :
    (d.set k v).entries = d.entries ++ [(k, v)] := if_neg h

theorem mem_keys_set {d : Dict κ ν} {k k' : κ} {v : ν} :
    k' ∈ (d.set k v).keys ↔ k' ∈ d.keys ∨ k' = k := by
  rw [keys_set]
  split
  · next h => exact ⟨Or.inl, fun hk => hk.elim id (· ▸ h)⟩
  · simp

theorem get?_eq_some_iff {d : Dict κ ν} {k : κ} {v : ν} :
    d.get? k = some v ↔ (k, v) ∈ d.entries := by
  constructor
  · intro h
    obtain ⟨e, he, rfl⟩ := Option.map_eq_some_iff.mp h
    have hkey : e.1 = k := by simpa using List.find?_some he
    rw [← hkey]
    exact List.mem_of_find?_eq_some he
  · intro h
    cases he : d.entries.find? fun e => e.1 = k with
    | none => exact absurd (decide_eq_true rfl) (List.find?_eq_none.mp he _ h)
    | some e =>
      have hkey : e.1 = k := by simpa using List.find?_some he
      have hsame : e = (k, v) :=
        List.inj_on_of_nodup_map d.nodup (List.mem_of_find?_eq_some he) h hkey
      rw [get?, he, hsame, Option.map_some]

theorem mem_keys_iff {d : Dict κ ν} {k : κ} : k ∈ d.keys ↔ ∃ v, d.get? k = some v := by
  rw [keys, List.mem_map]
  constructor
  · rintro ⟨⟨k', v⟩, he, rfl⟩
    exact ⟨v, get?_eq_some_iff.mpr he⟩
  · rintro ⟨v, hv⟩
    exact ⟨(k, v), get?_eq_some_iff.mp hv, rfl⟩

theorem get?_set_self (d : Dict κ ν) (k : κ) (v : ν) : (d.set k v).get? k = some v := by
  rw [get?_eq_some_iff]
  by_cases h : k ∈ d.keys
  · rw [entries_set_of_mem h]
    obtain ⟨e, he, hk⟩ := List.mem_map.mp h
    exact List.mem_map.mpr ⟨e, he, by simp [hk]⟩
  · simp [entries_set_of_not_mem h]

theorem get?_set_of_ne {d : Dict κ ν} {k k' : κ} (h : k' ≠ k) (v : ν) :
    (d.set k v).get? k' = d.get? k' := by
  have hentry : ∀ w, (k', w) ∈ (d.set k v).entries ↔ (k', w) ∈ d.entries := by
    intro w
    by_cases hmem : k ∈ d.keys
    · rw [entries_set_of_mem hmem]
      constructor
      · intro hw
        obtain ⟨e, he, heq⟩ := List.mem_map.mp hw
        by_cases hk : e.1 = k
        · simp only [hk, if_true, Prod.mk.injEq] at heq
          exact absurd heq.1.symm h
        · simp only [hk, if_false] at heq
          exact heq ▸ he
      · intro hw
        exact List.mem_map.mpr ⟨_, hw, by simp [h]⟩
    · simp [entries_set_of_not_mem hmem, h]
  apply Option.ext
  intro w
  rw [get?_eq_some_iff, get?_eq_some_iff, hentry]

theorem get?_set (d : Dict κ ν) (k k' : κ) (v : ν) :
    (d.set k v).get? k' = if k' = k then some v else d.get? k' := by
  split
  · next h => rw [h, get?_set_self]
  · next h => exact get?_set_of_ne h v

/-- `d.update(entries)`: assign one entry after the other. -/
def update (d : Dict κ ν) (l : List (κ × ν)) : Dict κ ν := l.foldl (fun d e => d.set e.1 e.2) d

/-- New keys are appended as they stand. -/
theorem entries_update {d : Dict κ ν} {l : List (κ × ν)}
    (h : (d.keys ++ l.map Prod.fst).Nodup) : (d.update l).entries = d.entries ++ l := by
  induction l generalizing d with
  | nil => exact (List.append_nil _).symm
  | cons e l ih =>
    have hmem : e.1 ∉ d.keys := fun hd =>
      (List.disjoint_of_nodup_append h) hd List.mem_cons_self
    have hkeys : (d.set e.1 e.2).keys = d.keys ++ [e.1] := by rw [keys_set, if_neg hmem]
    have hrest : ((d.set e.1 e.2).keys ++ l.map Prod.fst).Nodup := by
      rw [hkeys, List.append_assoc]
      exact h
    rw [update, List.foldl_cons, ← update, ih hrest, entries_set_of_not_mem hmem,
      List.append_assoc]
    rfl

/-- The dictionary comprehension `{k: f(k) for k in l}`. -/
def ofKeys (l : List κ) (f : κ → ν) : Dict κ ν :=
  l.foldl (fun d k => d.set k (f k)) empty

theorem ofKeys_concat (l : List κ) (k : κ) (f : κ → ν) :
    ofKeys (l ++ [k]) f = (ofKeys l f).set k (f k) := by
  rw [ofKeys, List.foldl_concat, ofKeys]

theorem get?_ofKeys (l : List κ) (f : κ → ν) (k : κ) :
    (ofKeys l f).get? k = if k ∈ l then some (f k) else none := by
  induction l using List.reverseRecOn with
  | nil => rfl
  | append_singleton l a ih =>
    rw [ofKeys_concat, get?_set, ih]
    by_cases hk : k = a
    · simp [hk]
    · simp [hk]

theorem mem_keys_ofKeys {l : List κ} {f : κ → ν} {k : κ} :
    k ∈ (ofKeys l f).keys ↔ k ∈ l := by
  rw [mem_keys_iff, get?_ofKeys]
  split <;> simp_all

/-- The dictionary with every value replaced. -/
def mapValues (d : Dict κ ν) (f : κ → ν → μ) : Dict κ μ where
  entries := d.entries.map fun e => (e.1, f e.1 e.2)
  nodup := by
    rw [List.map_map]
    exact d.nodup

omit [DecidableEq κ] in
theorem keys_mapValues (d : Dict κ ν) (f : κ → ν → μ) : (d.mapValues f).keys = d.keys := by
  rw [keys, mapValues, List.map_map]
  rfl

theorem get?_mapValues (d : Dict κ ν) (f : κ → ν → μ) (k : κ) :
    (d.mapValues f).get? k = (d.get? k).map (f k) := by
  apply Option.ext
  intro w
  rw [get?_eq_some_iff, mapValues, List.mem_map, Option.map_eq_some_iff]
  constructor
  · rintro ⟨e, he, heq⟩
    cases heq
    exact ⟨e.2, get?_eq_some_iff.mpr he, rfl⟩
  · rintro ⟨v, hv, rfl⟩
    exact ⟨(k, v), get?_eq_some_iff.mp hv, rfl⟩

/-- The entries whose value passes a test. -/
def filterValues (d : Dict κ ν) (p : ν → Bool) : Dict κ ν where
  entries := d.entries.filter fun e => p e.2
  nodup := d.nodup.sublist (List.filter_sublist.map Prod.fst)

omit [DecidableEq κ] in
theorem values_filterValues (d : Dict κ ν) (p : ν → Bool) :
    (d.filterValues p).values = d.values.filter p := by
  rw [values, values, filterValues, List.filter_map]
  rfl

/-! ## Groups -/

/-- A `defaultdict(list)` after `d[key(x)].append(x)` for every item. -/
def groups {α : Type} (key : α → κ) (l : List α) : Dict κ (List α) :=
  l.foldl (fun d x => d.set (key x) ((d.get? (key x)).getD [] ++ [x])) empty

section Groups

variable {α : Type} {key : α → κ}

theorem groups_concat (key : α → κ) (l : List α) (x : α) :
    groups key (l ++ [x]) =
      (groups key l).set (key x) (((groups key l).get? (key x)).getD [] ++ [x]) := by
  rw [groups, List.foldl_concat, groups]

/-- A group holds the items with its key in their order. -/
theorem getD_groups (key : α → κ) (l : List α) (k : κ) :
    ((groups key l).get? k).getD [] = l.filter fun x => key x = k := by
  induction l using List.reverseRecOn with
  | nil => rfl
  | append_singleton l x ih =>
    rw [groups_concat, get?_set, List.filter_append]
    by_cases hk : k = key x
    · rw [if_pos hk, Option.getD_some, ← hk, ih]
      simp [hk]
    · rw [if_neg hk, ih]
      simp [Ne.symm hk]

theorem mem_keys_groups {l : List α} {k : κ} : k ∈ (groups key l).keys ↔ k ∈ l.map key := by
  induction l using List.reverseRecOn with
  | nil => exact Iff.rfl
  | append_singleton l x ih =>
    rw [groups_concat, mem_keys_set, ih, List.map_append, List.mem_append]
    exact or_congr Iff.rfl List.mem_singleton.symm

/-- Group by group every item stands once. -/
theorem flatMap_filter_perm {l : List α} {keys : List κ} (hnodup : keys.Nodup)
    (hkeys : ∀ x ∈ l, key x ∈ keys) :
    (keys.flatMap fun k => l.filter fun x => key x = k).Perm l := by
  induction keys generalizing l with
  | nil =>
    cases l with
    | nil => exact .nil
    | cons x l => exact absurd (hkeys x List.mem_cons_self) List.not_mem_nil
  | cons k keys ih =>
    obtain ⟨hk, hnodup⟩ := List.nodup_cons.mp hnodup
    have hrest : ∀ x ∈ l.filter fun x => !decide (key x = k), key x ∈ keys := by
      intro x hx
      obtain ⟨hx, hne⟩ := List.mem_filter.mp hx
      exact (List.mem_cons.mp (hkeys x hx)).resolve_left (by simpa using hne)
    have hsame : (keys.flatMap fun k' => l.filter fun x => key x = k') =
        keys.flatMap fun k' =>
          (l.filter fun x => !decide (key x = k)).filter fun x => key x = k' := by
      apply List.flatMap_congr
      intro k' hk'
      rw [List.filter_filter]
      apply List.filter_congr
      intro x _
      by_cases hx : key x = k'
      · have hne : k' ≠ k := fun h => hk (h ▸ hk')
        simp [hx, hne]
      · simp [hx]
    rw [List.flatMap_cons, hsame]
    exact ((ih hnodup hrest).append_left _).trans (List.filter_append_perm _ l)

end Groups

end Dict

end MicroSampler
