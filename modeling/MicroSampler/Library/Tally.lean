import Mathlib.Data.List.Induction
import Mathlib.Data.List.Pairwise

/-!
# Lists of representatives with tallies

A table of representatives of equivalence classes, each with a value. The class of an
element is looked up by the first representative equivalent to it, and an element with
no such representative is appended. The relation is a Boolean comparison; where it is an
equivalence, a tally counts the elements of a class, whatever representative stands for
it.
-/

namespace MicroSampler

variable {α ν : Type} (same : α → α → Bool)

/-- The comparison is an equivalence relation. -/
def IsSameness : Prop := Equivalence fun a b => same a b = true

theorem IsSameness.congr_left {same : α → α → Bool} (hsame : IsSameness same) {a b : α}
    (h : same a b = true) (t : α) : same a t = same b t := by
  rw [Bool.eq_iff_iff]
  exact ⟨fun ha => hsame.trans (hsame.symm h) ha, fun hb => hsame.trans h hb⟩

theorem IsSameness.congr_right {same : α → α → Bool} (hsame : IsSameness same) {a b : α}
    (h : same a b = true) (t : α) : same t a = same t b := by
  rw [Bool.eq_iff_iff]
  exact ⟨fun ha => hsame.trans ha h, fun hb => hsame.trans hb (hsame.symm h)⟩

theorem IsSameness.decideEq (α : Type) [DecidableEq α] :
    IsSameness fun a b : α => decide (a = b) where
  refl _ := decide_eq_true rfl
  symm h := decide_eq_true (of_decide_eq_true h).symm
  trans h h' := decide_eq_true ((of_decide_eq_true h).trans (of_decide_eq_true h'))

theorem IsSameness.comap {β : Type} {same : α → α → Bool} (hsame : IsSameness same) (f : β → α) :
    IsSameness fun a b => same (f a) (f b) :=
  ⟨fun a => hsame.refl (f a), hsame.symm, hsame.trans⟩

theorem IsSameness.and {same same' : α → α → Bool} (hsame : IsSameness same)
    (hsame' : IsSameness same') : IsSameness fun a b => same a b && same' a b where
  refl a := Bool.and_eq_true_iff.mpr ⟨hsame.refl a, hsame'.refl a⟩
  symm h := by
    rw [Bool.and_eq_true] at h ⊢
    exact ⟨hsame.symm h.1, hsame'.symm h.2⟩
  trans h h' := by
    rw [Bool.and_eq_true] at h h' ⊢
    exact ⟨hsame.trans h.1 h'.1, hsame'.trans h.2 h'.2⟩

theorem IsSameness.of_eq {same same' : α → α → Bool} (hsame : IsSameness same)
    (h : ∀ a b, same' a b = same a b) : IsSameness same' := by
  rw [show same' = same from funext fun a => funext (h a)]
  exact hsame

/-! ## Looking a class up -/

/-- The value of the first entry whose representative is equivalent to `t`. -/
def lookupSame (l : List (α × ν)) (t : α) : Option ν :=
  (l.find? fun e => same e.1 t).map Prod.snd

variable {same}

theorem lookupSame_cons (e : α × ν) (l : List (α × ν)) (t : α) :
    lookupSame same (e :: l) t = if same e.1 t then some e.2 else lookupSame same l t := by
  rw [lookupSame, List.find?_cons]
  cases same e.1 t <;> rfl

theorem lookupSame_congr (hsame : IsSameness same) (l : List (α × ν)) {s t : α}
    (h : same s t = true) : lookupSame same l s = lookupSame same l t := by
  rw [lookupSame, lookupSame]
  simp only [hsame.congr_right h]

theorem lookupSame_map_snd {μ : Type} (f : ν → μ) (l : List (α × ν)) (t : α) :
    lookupSame same (l.map fun e => (e.1, f e.2)) t = (lookupSame same l t).map f := by
  induction l with
  | nil => rfl
  | cons e l ih =>
    rw [List.map_cons, lookupSame_cons, lookupSame_cons, ih]
    split <;> rfl

theorem lookupSame_eq_none_iff {l : List (α × ν)} {t : α} :
    lookupSame same l t = none ↔ ∀ e ∈ l, same e.1 t = false := by
  rw [lookupSame, Option.map_eq_none_iff, List.find?_eq_none]
  simp

/-- The entry that `find_index` points at holds the value looked up. -/
theorem lookupSame_of_findIdx? {l : List (α × ν)} {t : α} {i : Nat}
    (h : l.findIdx? (fun e => same e.1 t) = some i) :
    lookupSame same l t = (l[i]?).map Prod.snd := by
  rw [lookupSame, List.find?_eq_bind_findIdx?_getElem?, h, Option.bind_some]

/-- Among pairwise inequivalent representatives the entry of a class is the one looked up. -/
theorem lookupSame_of_mem (hsame : IsSameness same) {l : List (α × ν)} {e : α × ν} {t : α}
    (hdistinct : (l.map Prod.fst).Pairwise fun a b => same a b = false) (he : e ∈ l)
    (het : same e.1 t = true) : lookupSame same l t = some e.2 := by
  induction l with
  | nil => cases he
  | cons a l ih =>
    obtain ⟨ha, hl⟩ := List.pairwise_cons.mp hdistinct
    rw [lookupSame_cons]
    rcases List.mem_cons.mp he with rfl | he
    · rw [if_pos het]
    · have hat : same a.1 t = false := by
        rw [← hsame.congr_right het]
        exact ha e.1 (List.mem_map_of_mem he)
      rw [hat, if_neg Bool.false_ne_true]
      exact ih hl he

/-- The order of pairwise inequivalent representatives does not matter. -/
theorem lookupSame_perm (hsame : IsSameness same) {l l' : List (α × ν)} (h : l.Perm l')
    (hdistinct : (l.map Prod.fst).Pairwise fun a b => same a b = false)
    (hdistinct' : (l'.map Prod.fst).Pairwise fun a b => same a b = false) (t : α) :
    lookupSame same l t = lookupSame same l' t := by
  by_cases hmem : ∃ e ∈ l, same e.1 t = true
  · obtain ⟨e, he, het⟩ := hmem
    rw [lookupSame_of_mem hsame hdistinct he het,
      lookupSame_of_mem hsame hdistinct' (h.mem_iff.mp he) het]
  · have hnone : ∀ e ∈ l, same e.1 t = false := by
      intro e he
      exact Bool.eq_false_iff.mpr fun het => hmem ⟨e, he, het⟩
    rw [lookupSame_eq_none_iff.mpr hnone, lookupSame_eq_none_iff.mpr]
    intro e he
    exact hnone e (h.mem_iff.mpr he)

/-! ## Collecting representatives -/

variable (same) in
/-- Append `s` unless an equivalent element is already there. -/
def insertNew (l : List α) (s : α) : List α :=
  match l.findIdx? fun e => same e s with
  | none => l ++ [s]
  | some _ => l

theorem insertNew_eq (l : List α) (s : α) :
    insertNew same l s = if l.any fun e => same e s then l else l ++ [s] := by
  unfold insertNew
  cases h : l.findIdx? fun e => same e s with
  | none =>
    have hnone := List.findIdx?_eq_none_iff.mp h
    rw [if_neg (by simpa using hnone)]
  | some i =>
    obtain ⟨hi, hs, -⟩ := List.findIdx?_eq_some_iff_getElem.mp h
    rw [if_pos (List.any_eq_true.mpr ⟨_, List.getElem_mem hi, hs⟩)]

theorem any_insertNew (hsame : IsSameness same) (l : List α) (s t : α) :
    ((insertNew same l s).any fun e => same e t) = ((l.any fun e => same e t) || same s t) := by
  rw [insertNew_eq]
  split
  · next h =>
    cases hst : same s t with
    | false => rw [Bool.or_false]
    | true =>
      rw [Bool.or_true, ← h]
      simp only [hsame.congr_right hst]
  · simp

theorem any_foldl_insertNew (hsame : IsSameness same) (l m : List α) (t : α) :
    ((m.foldl (insertNew same) l).any fun e => same e t) =
      ((l.any fun e => same e t) || (m.any fun e => same e t)) := by
  induction m generalizing l with
  | nil => simp
  | cons s m ih =>
    rw [List.foldl_cons, ih, any_insertNew hsame, List.any_cons, Bool.or_assoc]

/-! ## Counting -/

variable (same) in
/-- One more element: its class gains one, or starts at one. -/
def bumpEntries (l : List (α × Nat)) (s : α) : List (α × Nat) :=
  match l.findIdx? fun e => same e.1 s with
  | none => l ++ [(s, 1)]
  | some i => l.modify i fun e => (e.1, e.2 + 1)

theorem bumpEntries_cons (e : α × Nat) (l : List (α × Nat)) (s : α) :
    bumpEntries same (e :: l) s =
      if same e.1 s then (e.1, e.2 + 1) :: l else e :: bumpEntries same l s := by
  unfold bumpEntries
  rw [List.findIdx?_cons]
  cases same e.1 s with
  | true => rfl
  | false =>
    cases l.findIdx? fun e => same e.1 s <;> rfl

/-- The representatives after one more element. -/
theorem map_fst_bumpEntries (l : List (α × Nat)) (s : α) :
    (bumpEntries same l s).map Prod.fst = insertNew same (l.map Prod.fst) s := by
  induction l with
  | nil => rfl
  | cons e l ih =>
    rw [bumpEntries_cons, insertNew_eq, List.map_cons, List.any_cons]
    split
    · next h => simp [h]
    · next h =>
      rw [List.map_cons, ih, insertNew_eq]
      simp only [h, Bool.false_or]
      split <;> rfl

/-! ## Representatives -/

/-- Of pairwise inequivalent elements at most one is in a class. -/
theorem countP_same_le_one (hsame : IsSameness same) {l : List α}
    (h : l.Pairwise fun a b => same a b = false) (x : α) : (l.countP fun s => same s x) ≤ 1 := by
  induction l with
  | nil => exact Nat.zero_le 1
  | cons a l ih =>
    obtain ⟨ha, hl⟩ := List.pairwise_cons.mp h
    rw [List.countP_cons]
    split
    · next hax =>
      have hzero : (l.countP fun s => same s x) = 0 := by
        rw [List.countP_eq_zero]
        intro b hb hbx
        have hab := ha b hb
        rw [hsame.trans hax (hsame.symm hbx)] at hab
        cases hab
      omega
    · exact ih hl

/-- Pairwise inequivalent elements whose classes all occur in a list are no more than it. -/
theorem length_le_of_represented (hsame : IsSameness same) {l l' : List α}
    (h : l.Pairwise fun a b => same a b = false) (hrep : ∀ a ∈ l, ∃ b ∈ l', same b a = true) :
    l.length ≤ l'.length := by
  induction l generalizing l' with
  | nil => exact Nat.zero_le _
  | cons a l ih =>
    obtain ⟨ha, hl⟩ := List.pairwise_cons.mp h
    obtain ⟨b, hb, hba⟩ := hrep a List.mem_cons_self
    obtain ⟨front, back, rfl⟩ := List.append_of_mem hb
    -- no other element has its class represented by `b`
    have hrest : ∀ c ∈ l, ∃ d ∈ front ++ back, same d c = true := by
      intro c hc
      obtain ⟨d, hd, hdc⟩ := hrep c (List.mem_cons_of_mem _ hc)
      by_cases hother : d ∈ front ++ back
      · exact ⟨d, hother, hdc⟩
      · have hdb : d = b := by
          simp only [List.mem_append, List.mem_cons] at hd hother
          tauto
        have hac := hsame.trans (hsame.symm hba) (hdb ▸ hdc)
        rw [ha c hc] at hac
        cases hac
    have hle := ih hl hrest
    simp only [List.length_append, List.length_cons] at hle ⊢
    omega

variable (same) in
/-- A list of representatives, pairwise inequivalent, each with the positive number of
elements of its class seen so far. -/
structure Tally where
  entries : List (α × Nat)
  distinct : (entries.map Prod.fst).Pairwise fun a b => same a b = false
  pos : ∀ e ∈ entries, 0 < e.2

namespace Tally

theorem pairwise_insertNew {l : List α} (h : l.Pairwise fun a b => same a b = false) (s : α) :
    (insertNew same l s).Pairwise fun a b => same a b = false := by
  rw [insertNew_eq]
  split
  · exact h
  · next hs =>
    rw [List.pairwise_append]
    refine ⟨h, List.pairwise_singleton _ _, ?_⟩
    intro a ha b hb
    rw [List.mem_singleton.mp hb]
    exact Bool.eq_false_iff.mpr fun hab => hs (List.any_eq_true.mpr ⟨a, ha, hab⟩)

theorem pos_bumpEntries {l : List (α × Nat)} (h : ∀ e ∈ l, 0 < e.2) (s : α) :
    ∀ e ∈ bumpEntries same l s, 0 < e.2 := by
  induction l with
  | nil =>
    intro e he
    rw [List.mem_singleton.mp he]
    exact Nat.one_pos
  | cons a l ih =>
    rw [bumpEntries_cons]
    have hl : ∀ e ∈ l, 0 < e.2 := fun e he => h e (List.mem_cons_of_mem _ he)
    split
    · intro e he
      rcases List.mem_cons.mp he with rfl | he
      · exact Nat.succ_pos _
      · exact hl e he
    · intro e he
      rcases List.mem_cons.mp he with rfl | he
      · exact h _ List.mem_cons_self
      · exact ih hl e he

def empty : Tally same := ⟨[], List.Pairwise.nil, by simp⟩

/-- Count one more element. -/
def bump (t : Tally same) (s : α) : Tally same where
  entries := bumpEntries same t.entries s
  distinct := by
    rw [map_fst_bumpEntries]
    exact pairwise_insertNew t.distinct s
  pos := pos_bumpEntries t.pos s

def bumpAll (t : Tally same) (l : List α) : Tally same := l.foldl bump t

variable (same) in
/-- The tally of a list. -/
def ofList (l : List α) : Tally same := empty.bumpAll l

def members (t : Tally same) : List α := t.entries.map Prod.fst

/-- The tally of the class of `x`, zero for a class not seen. -/
def count (t : Tally same) (x : α) : Nat := (lookupSame same t.entries x).getD 0

@[simp] theorem count_empty (x : α) : (empty : Tally same).count x = 0 := rfl

theorem lookupSame_bumpEntries (hsame : IsSameness same) (l : List (α × Nat)) (s x : α) :
    (lookupSame same (bumpEntries same l s) x).getD 0 =
      (lookupSame same l x).getD 0 + if same s x then 1 else 0 := by
  induction l with
  | nil =>
    rw [show bumpEntries same [] s = [(s, 1)] from rfl, lookupSame_cons]
    split <;> rfl
  | cons e l ih =>
    rw [bumpEntries_cons]
    cases hes : same e.1 s with
    | true =>
      rw [if_pos rfl, lookupSame_cons, lookupSame_cons, ← hsame.congr_left hes x]
      split <;> simp_all
    | false =>
      rw [if_neg Bool.false_ne_true, lookupSame_cons, lookupSame_cons]
      split
      · next hex =>
        -- the entry in front stands for `x`, so `s` is of another class
        have hsx : same s x = false := by
          rw [Bool.eq_false_iff]
          intro hsx
          rw [hsame.trans hex (hsame.symm hsx)] at hes
          cases hes
        simp [hsx]
      · exact ih

theorem count_bump (hsame : IsSameness same) (t : Tally same) (s x : α) :
    (t.bump s).count x = t.count x + if same s x then 1 else 0 :=
  lookupSame_bumpEntries hsame t.entries s x

theorem count_bumpAll (hsame : IsSameness same) (t : Tally same) (l : List α) (x : α) :
    (t.bumpAll l).count x = t.count x + l.countP fun s => same s x := by
  induction l generalizing t with
  | nil => rfl
  | cons s l ih =>
    rw [bumpAll, List.foldl_cons, ← bumpAll, ih, count_bump hsame, List.countP_cons]
    omega

theorem count_ofList (hsame : IsSameness same) (l : List α) (x : α) :
    (ofList same l).count x = l.countP fun s => same s x := by
  rw [ofList, count_bumpAll hsame, count_empty, Nat.zero_add]

theorem count_pos_iff (t : Tally same) (x : α) :
    0 < t.count x ↔ ∃ s ∈ t.members, same s x = true := by
  rw [count, members]
  cases h : lookupSame same t.entries x with
  | none =>
    simp only [Option.getD_none, Nat.lt_irrefl, false_iff, not_exists, not_and]
    intro s hs
    obtain ⟨e, he, rfl⟩ := List.mem_map.mp hs
    exact Bool.eq_false_iff.mp (lookupSame_eq_none_iff.mp h e he)
  | some n =>
    obtain ⟨e, he, rfl⟩ := Option.map_eq_some_iff.mp h
    have hmem := List.mem_of_find?_eq_some he
    exact ⟨fun _ => ⟨e.1, List.mem_map_of_mem hmem, by simpa using List.find?_some he⟩,
      fun _ => t.pos e hmem⟩

theorem count_of_same (hsame : IsSameness same) (t : Tally same) {e : α × Nat}
    (he : e ∈ t.entries) {x : α} (hx : same e.1 x = true) : t.count x = e.2 := by
  rw [count, lookupSame_of_mem hsame t.distinct he hx, Option.getD_some]

/-- The number that stands beside a representative is the tally of its class. -/
theorem count_of_mem (hsame : IsSameness same) (t : Tally same) {e : α × Nat}
    (he : e ∈ t.entries) : t.count e.1 = e.2 := t.count_of_same hsame he (hsame.refl e.1)

theorem countP_members_le_one (hsame : IsSameness same) (t : Tally same) (x : α) :
    (t.members.countP fun s => same s x) ≤ 1 := countP_same_le_one hsame t.distinct x

/-- **Presence counts once.** Counting the representatives of a list adds one to every
class that occurs in it, however often. -/
theorem count_bumpAll_members (hsame : IsSameness same) (t : Tally same) (l : List α) (x : α) :
    (t.bumpAll (ofList same l).members).count x =
      t.count x + if l.any fun s => same s x then 1 else 0 := by
  rw [count_bumpAll hsame]
  congr 1
  have hcount := count_ofList hsame l x
  generalize ofList same l = u at hcount ⊢
  have hle := countP_members_le_one hsame u x
  split
  · next h =>
    obtain ⟨s, hs, hsx⟩ := List.any_eq_true.mp h
    have hpos : 0 < u.count x := by
      rw [hcount]
      exact List.countP_pos_iff.mpr ⟨s, hs, hsx⟩
    have hmem := (count_pos_iff u x).mp hpos
    have := List.countP_pos_iff.mpr hmem
    omega
  · next h =>
    rw [List.countP_eq_zero]
    intro s hs hsx
    have hpos := (count_pos_iff u x).mpr ⟨s, hs, hsx⟩
    rw [hcount] at hpos
    exact h (List.any_eq_true.mpr (List.countP_pos_iff.mp hpos))

end Tally

end MicroSampler
