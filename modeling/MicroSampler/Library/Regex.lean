import Mathlib.Data.List.Infix

/-!
# Regular expressions with groups

Regular expressions over character ranges, the language of each, and a backtracking
matcher that tries the alternatives in the order of the expression. `search` returns the
groups of the first match at the leftmost position.

* `search_group`: a group that took part in the match holds a text of its language.
* `search_captures`: a group that no alternative or repetition skips took part.
-/

namespace MicroSampler

inductive Regex
  | empty
  | set (ranges : List (Char × Char))
  | seq (a b : Regex)
  | alt (a b : Regex)
  | star (a : Regex)
  | lazyStar (a : Regex)
  | group (n : Nat) (a : Regex)

namespace Regex

def inRanges (ranges : List (Char × Char)) (c : Char) : Bool :=
  ranges.any fun r => r.1.toNat.ble c.toNat && c.toNat.ble r.2.toNat

def char (c : Char) : Regex := .set [(c, c)]

/-- A literal text. -/
def lit (s : String) : Regex := s.toList.foldr (fun c r => .seq (char c) r) .empty

/-- One of the characters of a text. -/
def oneOf (s : String) : Regex := .set (s.toList.map fun c => (c, c))

def plus (a : Regex) : Regex := .seq a (.star a)

def opt (a : Regex) : Regex := .alt a .empty

/-- The concatenation of a list of expressions. -/
def cat (rs : List Regex) : Regex := rs.foldr .seq .empty

/-- The texts an expression matches. -/
inductive Lang : Regex → List Char → Prop
  | empty : Lang .empty []
  | set {ranges : List (Char × Char)} {c : Char} (h : inRanges ranges c = true) :
      Lang (.set ranges) [c]
  | seq {a b : Regex} {s t : List Char} (ha : Lang a s) (hb : Lang b t) :
      Lang (.seq a b) (s ++ t)
  | altLeft {a b : Regex} {s : List Char} (ha : Lang a s) : Lang (.alt a b) s
  | altRight {a b : Regex} {s : List Char} (hb : Lang b s) : Lang (.alt a b) s
  | starNil {a : Regex} : Lang (.star a) []
  | starCons {a : Regex} {s t : List Char} (ha : Lang a s) (ht : Lang (.star a) t) :
      Lang (.star a) (s ++ t)
  | lazyStar {a : Regex} {s : List Char} (ha : Lang (.star a) s) : Lang (.lazyStar a) s
  | group {n : Nat} {a : Regex} {s : List Char} (ha : Lang a s) : Lang (.group n a) s

/-! ## The matcher -/

/-- The text of each group that took part, the last capture in front. -/
abbrev Match := List (Nat × List Char)

/-- `match.group(n)`, `none` for a group that took no part. -/
def Match.group (m : Match) (n : Nat) : Option (List Char) := m.lookup n

/-- `match.group(n)` for a group that takes part in every match. -/
def Match.text (m : Match) (n : Nat) : List Char := (m.group n).getD []

structure Progress where
  rest : List Char
  groups : Match

/-- Repeat a step that consumes something, as often or as rarely as possible first. -/
def iterate (greedy : Bool) (step : Progress → List Progress) : Nat → Progress → List Progress
  | 0, p => [p]
  | n + 1, p =>
    let more :=
      ((step p).filter fun q => q.rest.length < p.rest.length).flatMap (iterate greedy step n)
    if greedy then more ++ [p] else p :: more

/-- All ways to match at the front of the remaining text, the preferred one first. -/
def run : Regex → Progress → List Progress
  | .empty, p => [p]
  | .set ranges, p =>
    match p.rest with
    | [] => []
    | c :: rest => if inRanges ranges c then [{ p with rest := rest }] else []
  | .seq a b, p => (run a p).flatMap (run b)
  | .alt a b, p => run a p ++ run b p
  | .star a, p => iterate true (run a) p.rest.length p
  | .lazyStar a, p => iterate false (run a) p.rest.length p
  | .group n a, p =>
    (run a p).map fun q =>
      { q with groups := (n, p.rest.take (p.rest.length - q.rest.length)) :: q.groups }

/-- `re.search`. -/
def search (r : Regex) (line : List Char) : Option Match :=
  line.tails.findSome? fun s => (run r ⟨s, []⟩).head?.map Progress.groups

/-- The matches of `re.finditer`, each behind the one before it. -/
def finditerFrom (r : Regex) : Nat → List Char → List Match
  | 0, _ => []
  | n + 1, s =>
    match (run r ⟨s, []⟩).head? with
    | some q => q.groups :: finditerFrom r n (if q.rest.length < s.length then q.rest else s.drop 1)
    | none =>
      match s with
      | [] => []
      | _ :: s => finditerFrom r n s

/-- `re.finditer`. -/
def finditer (r : Regex) (s : List Char) : List Match := finditerFrom r (s.length + 1) s

/-! ## The matcher follows the language -/

theorem mem_iterate_succ {greedy : Bool} {step : Progress → List Progress} {n : Nat}
    {p q : Progress} (h : q ∈ iterate greedy step (n + 1) p) :
    q = p ∨ ∃ p' ∈ step p, q ∈ iterate greedy step n p' := by
  have hor : q = p ∨ q ∈ ((step p).filter fun q => q.rest.length < p.rest.length).flatMap
      (iterate greedy step n) := by
    cases greedy with
    | true =>
      rcases List.mem_append.mp h with h | h
      · exact Or.inr h
      · exact Or.inl (List.mem_singleton.mp h)
    | false => exact List.mem_cons.mp h
  rcases hor with h | h
  · exact Or.inl h
  · obtain ⟨p', hp', hq⟩ := List.mem_flatMap.mp h
    exact Or.inr ⟨p', List.mem_of_mem_filter hp', hq⟩

/-- The text consumed between two points of a match. -/
def Consumes (L : List Char → Prop) (p q : Progress) : Prop :=
  ∃ s, p.rest = s ++ q.rest ∧ L s

theorem iterate_sound {greedy : Bool} {a : Regex} {step : Progress → List Progress}
    (hstep : ∀ p, ∀ q ∈ step p, Consumes (Lang a) p q) (n : Nat) (p : Progress) :
    ∀ q ∈ iterate greedy step n p, Consumes (Lang (.star a)) p q := by
  induction n generalizing p with
  | zero =>
    intro q hq
    rw [List.mem_singleton.mp hq]
    exact ⟨[], rfl, .starNil⟩
  | succ n ih =>
    intro q hq
    rcases mem_iterate_succ hq with rfl | ⟨p', hp', hq⟩
    · exact ⟨[], rfl, .starNil⟩
    · obtain ⟨s, hs, hlang⟩ := hstep p p' hp'
      obtain ⟨t, ht, hrest⟩ := ih p' q hq
      exact ⟨s ++ t, by rw [hs, ht, List.append_assoc], .starCons hlang hrest⟩

theorem run_sound (r : Regex) (p : Progress) : ∀ q ∈ run r p, Consumes (Lang r) p q := by
  induction r generalizing p with
  | empty =>
    intro q hq
    rw [List.mem_singleton.mp hq]
    exact ⟨[], rfl, .empty⟩
  | set ranges =>
    intro q hq
    rw [run] at hq
    split at hq
    · cases hq
    · next c rest hrest =>
      split at hq
      · next hc =>
        rw [List.mem_singleton.mp hq]
        exact ⟨[c], hrest, .set hc⟩
      · cases hq
  | seq a b iha ihb =>
    intro q hq
    obtain ⟨p', hp', hq⟩ := List.mem_flatMap.mp hq
    obtain ⟨s, hs, ha⟩ := iha p p' hp'
    obtain ⟨t, ht, hb⟩ := ihb p' q hq
    exact ⟨s ++ t, by rw [hs, ht, List.append_assoc], .seq ha hb⟩
  | alt a b iha ihb =>
    intro q hq
    rcases List.mem_append.mp hq with hq | hq
    · obtain ⟨s, hs, ha⟩ := iha p q hq
      exact ⟨s, hs, .altLeft ha⟩
    · obtain ⟨s, hs, hb⟩ := ihb p q hq
      exact ⟨s, hs, .altRight hb⟩
  | star a iha => exact iterate_sound iha _ p
  | lazyStar a iha =>
    intro q hq
    obtain ⟨s, hs, hstar⟩ := iterate_sound iha _ p q hq
    exact ⟨s, hs, .lazyStar hstar⟩
  | group n a iha =>
    intro q hq
    obtain ⟨q', hq', rfl⟩ := List.mem_map.mp hq
    obtain ⟨s, hs, ha⟩ := iha p q' hq'
    exact ⟨s, hs, .group ha⟩

/-- A property of the groups that every step keeps is kept by a repetition. -/
theorem iterate_groups {greedy : Bool} {step : Progress → List Progress} {P : Match → Prop}
    (hstep : ∀ p, P p.groups → ∀ q ∈ step p, P q.groups) (n : Nat) (p : Progress)
    (hp : P p.groups) : ∀ q ∈ iterate greedy step n p, P q.groups := by
  induction n generalizing p with
  | zero =>
    intro q hq
    rwa [List.mem_singleton.mp hq]
  | succ n ih =>
    intro q hq
    rcases mem_iterate_succ hq with rfl | ⟨p', hp', hq⟩
    · exact hp
    · exact ih p' (hstep p hp p' hp') q hq

/-! ## Groups -/

/-- The bodies of the occurrences of group `n`. -/
def bodies (n : Nat) : Regex → List Regex
  | .seq a b => bodies n a ++ bodies n b
  | .alt a b => bodies n a ++ bodies n b
  | .star a => bodies n a
  | .lazyStar a => bodies n a
  | .group m a => (if m = n then [a] else []) ++ bodies n a
  | _ => []

/-- A group in all ways to match. -/
def captures (n : Nat) : Regex → Bool
  | .seq a b => captures n a || captures n b
  | .alt a b => captures n a && captures n b
  | .group m a => m == n || captures n a
  | _ => false

theorem group_cons (m : Match) (k n : Nat) (s : List Char) :
    Match.group ((k, s) :: m) n = if k = n then some s else m.group n := by
  rw [Match.group, List.lookup_cons, Match.group]
  by_cases h : k = n
  · simp [h]
  · have h' : (n == k) = false := by simpa using fun hn : n = k => h hn.symm
    simp [h, h']

theorem run_group {n : Nat} {P : List Char → Prop} {r : Regex}
    (hr : ∀ a ∈ bodies n r, ∀ s, Lang a s → P s) (p : Progress)
    (hp : ∀ s, p.groups.group n = some s → P s) :
    ∀ q ∈ run r p, ∀ s, q.groups.group n = some s → P s := by
  induction r generalizing p with
  | empty =>
    intro q hq
    rwa [List.mem_singleton.mp hq]
  | set ranges =>
    intro q hq
    rw [run] at hq
    split at hq
    · cases hq
    · split at hq
      · rwa [List.mem_singleton.mp hq]
      · cases hq
  | seq a b iha ihb =>
    intro q hq
    obtain ⟨p', hp', hq⟩ := List.mem_flatMap.mp hq
    have ha := iha (fun c hc => hr c (List.mem_append_left _ hc)) p hp p' hp'
    exact ihb (fun c hc => hr c (List.mem_append_right _ hc)) p' ha q hq
  | alt a b iha ihb =>
    intro q hq
    rcases List.mem_append.mp hq with hq | hq
    · exact iha (fun c hc => hr c (List.mem_append_left _ hc)) p hp q hq
    · exact ihb (fun c hc => hr c (List.mem_append_right _ hc)) p hp q hq
  | star a iha =>
    exact @iterate_groups true (run a) (fun m => ∀ s, m.group n = some s → P s)
      (fun p hp => iha hr p hp) _ p hp
  | lazyStar a iha =>
    exact @iterate_groups false (run a) (fun m => ∀ s, m.group n = some s → P s)
      (fun p hp => iha hr p hp) _ p hp
  | group m a iha =>
    intro q hq s hs
    obtain ⟨q', hq', rfl⟩ := List.mem_map.mp hq
    rw [group_cons] at hs
    split at hs
    · next hm =>
      obtain ⟨t, ht, hlang⟩ := run_sound a p q' hq'
      rw [ht, List.length_append, Nat.add_sub_cancel, List.take_left] at hs
      exact hr a (by simp [bodies, hm]) s (Option.some.inj hs ▸ hlang)
    · exact iha (fun c hc => hr c (List.mem_append_right _ hc)) p hp q' hq' s hs

theorem run_keeps (n : Nat) (r : Regex) (p : Progress) (hp : (p.groups.group n).isSome) :
    ∀ q ∈ run r p, (q.groups.group n).isSome := by
  induction r generalizing p with
  | empty =>
    intro q hq
    rwa [List.mem_singleton.mp hq]
  | set ranges =>
    intro q hq
    rw [run] at hq
    split at hq
    · cases hq
    · split at hq
      · rwa [List.mem_singleton.mp hq]
      · cases hq
  | seq a b iha ihb =>
    intro q hq
    obtain ⟨p', hp', hq⟩ := List.mem_flatMap.mp hq
    exact ihb p' (iha p hp p' hp') q hq
  | alt a b iha ihb =>
    intro q hq
    rcases List.mem_append.mp hq with hq | hq
    · exact iha p hp q hq
    · exact ihb p hp q hq
  | star a iha =>
    exact @iterate_groups true (run a) (fun m => (m.group n).isSome) (fun p hp => iha p hp) _ p hp
  | lazyStar a iha =>
    exact @iterate_groups false (run a) (fun m => (m.group n).isSome) (fun p hp => iha p hp) _ p hp
  | group m a iha =>
    intro q hq
    obtain ⟨q', hq', rfl⟩ := List.mem_map.mp hq
    rw [group_cons]
    split
    · rfl
    · exact iha p hp q' hq'

theorem run_captures {n : Nat} {r : Regex} (hr : captures n r = true) (p : Progress) :
    ∀ q ∈ run r p, (q.groups.group n).isSome := by
  induction r generalizing p with
  | empty => cases hr
  | set ranges => cases hr
  | seq a b iha ihb =>
    intro q hq
    obtain ⟨p', hp', hq⟩ := List.mem_flatMap.mp hq
    rcases Bool.or_eq_true_iff.mp hr with ha | hb
    · exact run_keeps n b p' (iha ha p p' hp') q hq
    · exact ihb hb p' q hq
  | alt a b iha ihb =>
    intro q hq
    obtain ⟨ha, hb⟩ := Bool.and_eq_true_iff.mp hr
    rcases List.mem_append.mp hq with hq | hq
    · exact iha ha p q hq
    · exact ihb hb p q hq
  | star a iha => cases hr
  | lazyStar a iha => cases hr
  | group m a iha =>
    intro q hq
    obtain ⟨q', hq', rfl⟩ := List.mem_map.mp hq
    rw [group_cons]
    split
    · rfl
    · next hm =>
      rcases Bool.or_eq_true_iff.mp hr with h | ha
      · exact absurd (beq_iff_eq.mp h) hm
      · exact iha ha p q' hq'

theorem exists_run_of_search {r : Regex} {line : List Char} {m : Match}
    (h : search r line = some m) : ∃ s, ∃ q ∈ run r ⟨s, []⟩, q.groups = m := by
  obtain ⟨s, -, hs⟩ := List.exists_of_findSome?_eq_some h
  obtain ⟨q, hq, hm⟩ := Option.map_eq_some_iff.mp hs
  exact ⟨s, q, List.mem_of_mem_head? hq, hm⟩

/-- A line in which something is found contains a text of the language. -/
theorem exists_lang_of_search {r : Regex} {line : List Char} {m : Match}
    (h : search r line = some m) : ∃ before w after, line = before ++ (w ++ after) ∧ Lang r w := by
  obtain ⟨s, hs, hrun⟩ := List.exists_of_findSome?_eq_some h
  obtain ⟨before, hline⟩ := (List.mem_tails s line).mp hs
  obtain ⟨q, hq, -⟩ := Option.map_eq_some_iff.mp hrun
  obtain ⟨w, hw, hlang⟩ := run_sound r _ q (List.mem_of_mem_head? hq)
  exact ⟨before, w, q.rest, by rw [← hline, ← hw], hlang⟩

/-- **Groups hold texts of their language.** -/
theorem search_group {r : Regex} {line : List Char} {m : Match} {n : Nat}
    (h : search r line = some m) {s : List Char} (hs : m.group n = some s) :
    ∃ a ∈ bodies n r, Lang a s := by
  obtain ⟨t, q, hq, rfl⟩ := exists_run_of_search h
  have hbody : ∀ a ∈ bodies n r, ∀ s, Lang a s → ∃ a ∈ bodies n r, Lang a s :=
    fun a ha s hlang => ⟨a, ha, hlang⟩
  exact run_group hbody ⟨t, []⟩ (by simp [Match.group]) q hq s hs

/-- A text of a character class is one of its characters. -/
theorem lang_set {ranges : List (Char × Char)} {s : List Char} (h : Lang (.set ranges) s) :
    ∃ c, s = [c] ∧ inRanges ranges c = true := by
  cases h with
  | set hc => exact ⟨_, rfl, hc⟩

/-- **Groups that cannot be skipped take part in every match.** -/
theorem search_captures {r : Regex} {line : List Char} {m : Match} {n : Nat}
    (h : search r line = some m) (hr : captures n r = true) :
    m.group n = some (m.text n) := by
  obtain ⟨t, q, hq, rfl⟩ := exists_run_of_search h
  obtain ⟨s, hs⟩ := Option.isSome_iff_exists.mp (run_captures hr ⟨t, []⟩ q hq)
  rw [Match.text, hs, Option.getD_some]

/-! ## Literals, lazy repetitions and scans -/

theorem inRanges_self (c : Char) : inRanges [(c, c)] c = true := by
  simp [inRanges]

theorem eq_of_inRanges_self {c d : Char} (h : inRanges [(c, c)] d = true) : d = c := by
  simp only [inRanges, List.any_cons, List.any_nil, Bool.or_false, Bool.and_eq_true,
    Nat.ble_eq] at h
  exact Char.toNat_inj.mp (Nat.le_antisymm h.2 h.1)

/-- A literal text is consumed in one way. -/
theorem run_lit (w : String) (s : List Char) (g : Match) :
    run (lit w) ⟨w.toList ++ s, g⟩ = [⟨s, g⟩] := by
  rw [lit]
  induction w.toList with
  | nil => rfl
  | cons c w ih =>
    have hset : run (char c) ⟨c :: w ++ s, g⟩ = [⟨w ++ s, g⟩] := if_pos (inRanges_self c)
    rw [List.foldr_cons, run, hset, List.flatMap_singleton, ih]

theorem lang_lit {w : String} {s : List Char} (h : Lang (lit w) s) : s = w.toList := by
  rw [lit] at h
  generalize w.toList = w at h ⊢
  induction w generalizing s with
  | nil =>
    cases h
    rfl
  | cons c w ih =>
    cases h with
    | seq ha hb =>
      obtain ⟨d, rfl, hd⟩ := lang_set ha
      rw [eq_of_inRanges_self hd, ih hb]
      rfl

/-- The characters of a repeated class. -/
theorem inRanges_of_lang_star {ranges : List (Char × Char)} {s : List Char}
    (h : Lang (.star (.set ranges)) s) : ∀ c ∈ s, inRanges ranges c = true := by
  generalize hr : Regex.star (.set ranges) = r at h
  induction h with
  | starNil => simp
  | @starCons a s t ha ht _ iht =>
    cases hr
    obtain ⟨d, rfl, hd⟩ := lang_set ha
    intro c hc
    rcases List.mem_append.mp hc with hc | hc
    · rwa [List.mem_singleton.mp hc]
    · exact iht rfl c hc
  | empty => cases hr
  | set => cases hr
  | seq => cases hr
  | altLeft => cases hr
  | altRight => cases hr
  | lazyStar => cases hr
  | group => cases hr

/-- A repeated class that consumes something. -/
theorem inRanges_of_lang_plus {ranges : List (Char × Char)} {s : List Char}
    (h : Lang (plus (.set ranges)) s) : s ≠ [] ∧ ∀ c ∈ s, inRanges ranges c = true := by
  cases h with
  | seq hfirst hrest =>
    obtain ⟨c, rfl, hc⟩ := lang_set hfirst
    exact ⟨List.cons_ne_nil _ _, List.forall_mem_cons.mpr ⟨hc, inRanges_of_lang_star hrest⟩⟩

/-- A lazy repetition stops at the first place where what comes behind it matches. -/
theorem head?_lazy {ranges : List (Char × Char)} {next : Progress → List Progress}
    {t s : List Char} {g : Match} {q : Progress} {n : Nat} (hn : t.length ≤ n)
    (ht : ∀ c ∈ t, inRanges ranges c = true)
    (hearly : ∀ u, u ≠ [] → u <:+ t → next ⟨u ++ s, g⟩ = [])
    (hs : (next ⟨s, g⟩).head? = some q) :
    ((iterate false (run (.set ranges)) n ⟨t ++ s, g⟩).flatMap next).head? = some q := by
  induction t generalizing n with
  | nil =>
    cases n with
    | zero => simpa [iterate] using hs
    | succ n =>
      rw [iterate, if_neg Bool.false_ne_true, List.flatMap_cons, List.nil_append,
        List.head?_append, hs, Option.some_or]
  | cons c t ih =>
    cases n with
    | zero => simp at hn
    | succ n =>
      have hset : run (.set ranges) ⟨c :: t ++ s, g⟩ = [⟨t ++ s, g⟩] :=
        if_pos (ht c (List.mem_cons_self ..))
      have hnone := hearly (c :: t) (List.cons_ne_nil c t) (List.suffix_refl _)
      rw [iterate, if_neg Bool.false_ne_true, List.flatMap_cons, hnone, hset, List.nil_append]
      have hshorter : (t ++ s).length < (c :: t ++ s).length := by simp
      rw [List.filter_singleton, decide_eq_true hshorter, cond_true, List.flatMap_singleton]
      apply ih (by simpa using hn) (fun d hd => ht d (List.mem_cons_of_mem c hd))
      intro u hu hsuffix
      exact hearly u hu (hsuffix.trans (List.suffix_cons c t))

theorem exists_of_append_eq_append {α : Type} {a b c d : List α} (h : a ++ b = c ++ d)
    (hle : c.length ≤ a.length) : ∃ e, a = c ++ e ∧ d = e ++ b := by
  rcases List.append_eq_append_iff.mp h with ⟨e, hc, hb⟩ | ⟨e, ha, hd⟩
  · have he : e = [] := by
      apply List.eq_nil_of_length_eq_zero
      rw [hc, List.length_append] at hle
      omega
    subst he
    exact ⟨[], by simpa using hc.symm, by simpa using hb.symm⟩
  · exact ⟨e, ha, hd⟩

/-- The scan of `finditer` comes to a place that no match in front of it passes. -/
theorem mem_finditerFrom {r : Regex} {before s : List Char} {q : Progress} {n : Nat}
    (hn : (before ++ s).length < n)
    (hpass : ∀ u, u ≠ [] → u <:+ before → ∀ c t, u ++ s = c ++ t → Lang r c → c.length ≤ u.length)
    (hs : (run r ⟨s, []⟩).head? = some q) : q.groups ∈ finditerFrom r n (before ++ s) := by
  induction n generalizing before with
  | zero => omega
  | succ n ih =>
    cases before with
    | nil =>
      unfold finditerFrom
      rw [List.nil_append, hs]
      exact List.mem_cons_self ..
    | cons c before =>
      have hdrop : q.groups ∈ finditerFrom r n (before ++ s) := by
        apply ih (Nat.lt_of_succ_lt_succ hn)
        intro u hu hsuffix
        exact hpass u hu (hsuffix.trans (List.suffix_cons c before))
      unfold finditerFrom
      cases hrun : (run r ⟨c :: before ++ s, []⟩).head? with
      | none => exact hdrop
      | some q' =>
        apply List.mem_cons_of_mem
        obtain ⟨t, ht, hlang⟩ := run_sound r _ q' (List.mem_of_mem_head? hrun)
        have hle := hpass (c :: before) (List.cons_ne_nil c before) (List.suffix_refl _) t _ ht
          hlang
        by_cases hlt : q'.rest.length < (c :: before ++ s).length
        · rw [if_pos hlt]
          obtain ⟨rest, hbefore, hrest⟩ := exists_of_append_eq_append ht hle
          rw [hrest] at hlt ⊢
          apply ih (Nat.lt_of_lt_of_le hlt (Nat.le_of_lt_succ hn))
          intro u hu hsuffix
          exact hpass u hu (hsuffix.trans ⟨t, hbefore.symm⟩)
        · rw [if_neg hlt]
          exact hdrop

/-! ## Greedy repetitions -/

theorem head?_flatMap_of_head? {α β : Type} {f : α → List β} {l : List α} {a : α} {b : β}
    (hl : l.head? = some a) (hf : (f a).head? = some b) : (l.flatMap f).head? = some b := by
  obtain ⟨l, rfl⟩ := List.head?_eq_some_iff.mp hl
  rw [List.flatMap_cons, List.head?_append, hf, Option.some_or]

/-- The preferred way through a sequence. -/
theorem head?_run_seq {a b : Regex} {p q r : Progress} (ha : (run a p).head? = some q)
    (hb : (run b q).head? = some r) : (run (.seq a b) p).head? = some r :=
  head?_flatMap_of_head? ha hb

theorem head?_run_group {n : Nat} {a : Regex} {w s : List Char} {g g' : Match}
    (h : (run a ⟨w ++ s, g⟩).head? = some ⟨s, g'⟩) :
    (run (.group n a) ⟨w ++ s, g⟩).head? = some ⟨s, (n, w) :: g'⟩ := by
  rw [run, List.head?_map, h, Option.map_some]
  simp

/-- A repetition ends where its body does not match. -/
theorem iterate_stop {greedy : Bool} {step : Progress → List Progress} {p : Progress}
    (h : step p = []) (n : Nat) : iterate greedy step n p = [p] := by
  cases n with
  | zero => rfl
  | succ n => cases greedy <;> simp [iterate, h]

/-- A greedy repetition goes on with the preferred match of its body. -/
theorem head?_iterate_succ {step : Progress → List Progress} {p p' q : Progress} {n : Nat}
    (hstep : (step p).head? = some p') (hlt : p'.rest.length < p.rest.length)
    (h : (iterate true step n p').head? = some q) :
    (iterate true step (n + 1) p).head? = some q := by
  obtain ⟨l, hl⟩ := List.head?_eq_some_iff.mp hstep
  have hkeep : (step p).filter (fun q => q.rest.length < p.rest.length) =
      p' :: l.filter fun q => q.rest.length < p.rest.length := by
    rw [hl]
    exact List.filter_cons_of_pos (decide_eq_true hlt)
  rw [iterate, if_pos rfl, hkeep, List.flatMap_cons, List.append_assoc, List.head?_append, h,
    Option.some_or]

/-- The text does not begin with a character of the class. -/
def StopsAt (ranges : List (Char × Char)) (s : List Char) : Prop :=
  ∀ c ∈ s.head?, inRanges ranges c = false

theorem stopsAt_cons {ranges : List (Char × Char)} {c : Char} (h : inRanges ranges c = false)
    (s : List Char) : StopsAt ranges (c :: s) := by
  rintro d hd
  cases hd
  exact h

theorem run_set_stop {ranges : List (Char × Char)} {s : List Char} (h : StopsAt ranges s)
    (g : Match) : run (.set ranges) ⟨s, g⟩ = [] := by
  cases s with
  | nil => rfl
  | cons c s => simp [run, h c rfl]

theorem run_set_cons {ranges : List (Char × Char)} {c : Char} (h : inRanges ranges c = true)
    (s : List Char) (g : Match) : run (.set ranges) ⟨c :: s, g⟩ = [⟨s, g⟩] := if_pos h

/-- A repeated class takes all the characters up to the first one outside of it. -/
theorem head?_run_star_set {ranges : List (Char × Char)} {w s : List Char} {g : Match}
    (hw : ∀ c ∈ w, inRanges ranges c = true) (hs : StopsAt ranges s) :
    (run (.star (.set ranges)) ⟨w ++ s, g⟩).head? = some ⟨s, g⟩ := by
  have hrun : ∀ n, w.length ≤ n →
      (iterate true (run (.set ranges)) n ⟨w ++ s, g⟩).head? = some ⟨s, g⟩ := by
    induction w with
    | nil =>
      intro n _
      rw [List.nil_append, iterate_stop (run_set_stop hs g)]
      rfl
    | cons c w ih =>
      intro n hn
      obtain ⟨n, rfl⟩ : ∃ k, n = k + 1 := ⟨n - 1, by simp at hn; omega⟩
      have hstep : (run (.set ranges) ⟨c :: w ++ s, g⟩).head? = some ⟨w ++ s, g⟩ := by
        rw [List.cons_append, run_set_cons (hw c List.mem_cons_self)]
        rfl
      apply head?_iterate_succ hstep
      · simp
      · exact ih (fun d hd => hw d (List.mem_cons_of_mem c hd)) n (by simpa using hn)
  exact hrun _ (by simp)

/-- The characters of a repeated class. -/
structure Word (ranges : List (Char × Char)) (w : List Char) : Prop where
  ne_nil : w ≠ []
  inRanges : ∀ c ∈ w, inRanges ranges c = true

theorem head?_run_plus_set {ranges : List (Char × Char)} {w s : List Char} {g : Match}
    (hw : Word ranges w) (hs : StopsAt ranges s) :
    (run (plus (.set ranges)) ⟨w ++ s, g⟩).head? = some ⟨s, g⟩ := by
  obtain ⟨c, w, rfl⟩ := List.exists_cons_of_ne_nil hw.ne_nil
  have hfirst : (run (.set ranges) ⟨c :: w ++ s, g⟩).head? = some ⟨w ++ s, g⟩ := by
    rw [List.cons_append, run_set_cons (hw.inRanges c List.mem_cons_self)]
    rfl
  exact head?_run_seq hfirst
    (head?_run_star_set (fun d hd => hw.inRanges d (List.mem_cons_of_mem c hd)) hs)

/-- Two classes without a character in common. -/
def disjoint (ranges ranges' : List (Char × Char)) : Bool :=
  ranges.all fun r => ranges'.all fun r' =>
    r.2.toNat.blt r'.1.toNat || r'.2.toNat.blt r.1.toNat

theorem inRanges_eq_false_of_disjoint {ranges ranges' : List (Char × Char)}
    (h : disjoint ranges ranges' = true) {c : Char} (hc : inRanges ranges c = true) :
    inRanges ranges' c = false := by
  rw [Bool.eq_false_iff]
  intro hc'
  obtain ⟨r, hr, hrc⟩ := List.any_eq_true.mp hc
  obtain ⟨r', hr', hrc'⟩ := List.any_eq_true.mp hc'
  have hapart := List.all_eq_true.mp (List.all_eq_true.mp h r hr) r' hr'
  simp only [Bool.and_eq_true, Nat.ble_eq, Bool.or_eq_true, Nat.blt_eq] at hrc hrc' hapart
  omega

/-- A class stops at a word of another one. -/
theorem Word.stopsAt {ranges ranges' : List (Char × Char)} {w : List Char} (hw : Word ranges w)
    (h : disjoint ranges ranges' = true) (s : List Char) : StopsAt ranges' (w ++ s) := by
  obtain ⟨c, w', rfl⟩ := List.exists_cons_of_ne_nil hw.ne_nil
  rintro d hd
  cases hd
  exact inRanges_eq_false_of_disjoint h (hw.inRanges c List.mem_cons_self)

/-- Each range of the first class is in a range of the second. -/
def within (ranges ranges' : List (Char × Char)) : Bool :=
  ranges.all fun r => ranges'.any fun r' =>
    r'.1.toNat.ble r.1.toNat && r.2.toNat.ble r'.2.toNat

theorem Word.of_within {ranges ranges' : List (Char × Char)} {w : List Char} (hw : Word ranges w)
    (h : within ranges ranges' = true) : Word ranges' w := by
  refine ⟨hw.ne_nil, fun c hc => ?_⟩
  obtain ⟨r, hr, hrc⟩ := List.any_eq_true.mp (hw.inRanges c hc)
  obtain ⟨r', hr', hin⟩ := List.any_eq_true.mp (List.all_eq_true.mp h r hr)
  refine List.any_eq_true.mpr ⟨r', hr', ?_⟩
  simp only [Bool.and_eq_true, Nat.ble_eq] at hrc hin ⊢
  omega

theorem Word.append {ranges : List (Char × Char)} {w : List Char} (hw : Word ranges w)
    {s : List Char} (hs : ∀ c ∈ s, Regex.inRanges ranges c = true) : Word ranges (s ++ w) :=
  ⟨by simp [hw.ne_nil], fun c hc => (List.mem_append.mp hc).elim (hs c) (hw.inRanges c)⟩

theorem head?_run_seq_lit {t : String} {r : Regex} {s : List Char} {g : Match} {q : Progress}
    (h : (run r ⟨s, g⟩).head? = some q) :
    (run (.seq (lit t) r) ⟨t.toList ++ s, g⟩).head? = some q :=
  head?_run_seq (by rw [run_lit]; rfl) h

theorem head?_run_seq_plus {ranges : List (Char × Char)} {r : Regex} {w s : List Char} {g : Match}
    {q : Progress} (hw : Word ranges w) (hs : StopsAt ranges s)
    (h : (run r ⟨s, g⟩).head? = some q) :
    (run (.seq (plus (.set ranges)) r) ⟨w ++ s, g⟩).head? = some q :=
  head?_run_seq (head?_run_plus_set hw hs) h

theorem head?_run_seq_word {ranges : List (Char × Char)} {n : Nat} {r : Regex} {w s : List Char}
    {g : Match} {q : Progress} (hw : Word ranges w) (hs : StopsAt ranges s)
    (h : (run r ⟨s, (n, w) :: g⟩).head? = some q) :
    (run (.seq (.group n (plus (.set ranges))) r) ⟨w ++ s, g⟩).head? = some q :=
  head?_run_seq (head?_run_group (head?_run_plus_set hw hs)) h

/-- What is optional is taken when it matches. -/
theorem head?_run_opt {a : Regex} {p q : Progress} (h : (run a p).head? = some q) :
    (run (opt a) p).head? = some q := by
  rw [opt, run, List.head?_append, h, Option.some_or]

/-- A word at the front is not there. -/
theorem run_seq_word_stop {ranges : List (Char × Char)} {n : Nat} {r : Regex} {s : List Char}
    {g : Match} (h : StopsAt ranges s) :
    run (.seq (.group n (plus (.set ranges))) r) ⟨s, g⟩ = [] := by
  rw [run, run, plus, run, run_set_stop h]
  rfl

theorem search_of_head? {r : Regex} {s : List Char} {q : Progress}
    (h : (run r ⟨s, []⟩).head? = some q) : search r s = some q.groups := by
  rw [search]
  cases s <;> simp [List.tails, h]

/-- The search passes a text in which no match begins. -/
theorem search_append {r : Regex} {t s : List Char}
    (h : ∀ u, u ≠ [] → u <:+ t → run r ⟨u ++ s, []⟩ = []) : search r (t ++ s) = search r s := by
  induction t with
  | nil => rfl
  | cons c t ih =>
    have hnone := h (c :: t) (List.cons_ne_nil c t) (List.suffix_refl _)
    rw [← ih fun u hu hsuffix => h u hu (hsuffix.trans (List.suffix_cons c t))]
    rw [List.cons_append] at hnone ⊢
    rw [search, List.tails, List.findSome?_cons, hnone]
    rfl

/-! ## Substitution -/

/-- What `re.sub` comes across: characters that it copies, and matches. -/
def scanFrom (r : Regex) : Nat → List Char → List (Char ⊕ Match)
  | 0, _ => []
  | n + 1, s =>
    match (run r ⟨s, []⟩).head? with
    | some q =>
      .inr q.groups :: if q.rest.length < s.length then scanFrom r n q.rest
        else match s with
          | [] => []
          | c :: s => .inl c :: scanFrom r n s
    | none =>
      match s with
      | [] => []
      | c :: s => .inl c :: scanFrom r n s

/-- The text that takes the place of what the scan came across. -/
def replaceM {m : Type → Type} [Monad m] (repl : Match → m (List Char))
    (l : List (Char ⊕ Match)) : m (List Char) := do
  let pieces ← l.mapM fun e =>
    match e with
    | .inl c => pure [c]
    | .inr g => repl g
  pure pieces.flatten

/-- `re.sub` with a function, which is called for each match in turn. -/
def subM {m : Type → Type} [Monad m] (r : Regex) (repl : Match → m (List Char))
    (s : List Char) : m (List Char) := replaceM repl (scanFrom r (s.length + 1) s)

section Replace

variable {m : Type → Type} [Monad m] [LawfulMonad m] (repl : Match → m (List Char))

theorem replaceM_append (l l' : List (Char ⊕ Match)) :
    replaceM repl (l ++ l') =
      (do
        let front ← replaceM repl l
        let back ← replaceM repl l'
        pure (front ++ back)) := by
  simp [replaceM]

theorem replaceM_copy (t : List Char) : replaceM repl (t.map Sum.inl) = pure t := by
  induction t with
  | nil => simp [replaceM]
  | cons c t ih =>
    rw [List.map_cons, ← List.singleton_append, replaceM_append, ih]
    simp [replaceM]

theorem replaceM_match (g : Match) : replaceM repl [.inr g] = repl g := by
  simp [replaceM]

end Replace

theorem run_lit_eq_nil {w : String} {s : List Char} (h : ¬ w.toList <+: s) (g : Match) :
    run (lit w) ⟨s, g⟩ = [] := by
  apply List.eq_nil_iff_forall_not_mem.mpr
  intro q hq
  obtain ⟨t, ht, hlang⟩ := run_sound (lit w) _ q hq
  exact h ⟨q.rest, by rw [← lang_lit hlang, ← ht]⟩

/-- A text in which no match begins is copied. -/
theorem scanFrom_copy {r : Regex} {t s : List Char}
    (h : ∀ u, u ≠ [] → u <:+ t → run r ⟨u ++ s, []⟩ = []) (n : Nat) :
    scanFrom r (n + t.length) (t ++ s) = t.map Sum.inl ++ scanFrom r n s := by
  induction t with
  | nil => rfl
  | cons c t ih =>
    have hnone := h (c :: t) (List.cons_ne_nil c t) (List.suffix_refl _)
    have hrest := ih fun u hu hsuffix => h u hu (hsuffix.trans (List.suffix_cons c t))
    rw [List.length_cons, ← Nat.add_assoc]
    conv_lhs =>
      unfold scanFrom
      rw [hnone]
    exact congrArg (Sum.inl c :: ·) hrest

/-- The scan goes on behind a match. -/
theorem scanFrom_match {r : Regex} {w s : List Char} {g : Match} (hne : w ≠ [])
    (h : (run r ⟨w ++ s, []⟩).head? = some ⟨s, g⟩) (n : Nat) :
    scanFrom r (n + 1) (w ++ s) = .inr g :: scanFrom r n s := by
  have hlt : s.length < (w ++ s).length := by
    have := List.length_pos_iff.mpr hne
    rw [List.length_append]
    omega
  conv_lhs =>
    unfold scanFrom
    rw [h]
  exact congrArg (Sum.inr g :: ·) (if_pos hlt)

/-! ## The matches of a composed text -/

/-- A text in which no match begins has no matches. -/
theorem finditerFrom_copy {r : Regex} {t s : List Char}
    (h : ∀ u, u ≠ [] → u <:+ t → run r ⟨u ++ s, []⟩ = []) (n : Nat) :
    finditerFrom r (n + t.length) (t ++ s) = finditerFrom r n s := by
  induction t with
  | nil => rfl
  | cons c t ih =>
    have hnone := h (c :: t) (List.cons_ne_nil c t) (List.suffix_refl _)
    have hrest := ih fun u hu hsuffix => h u hu (hsuffix.trans (List.suffix_cons c t))
    rw [List.length_cons, ← Nat.add_assoc]
    conv_lhs =>
      unfold finditerFrom
      rw [hnone]
    exact hrest

/-- Behind a match the next one is looked for. -/
theorem finditerFrom_match {r : Regex} {w s : List Char} {g : Match} (hne : w ≠ [])
    (h : (run r ⟨w ++ s, []⟩).head? = some ⟨s, g⟩) (n : Nat) :
    finditerFrom r (n + 1) (w ++ s) = g :: finditerFrom r n s := by
  have hlt : s.length < (w ++ s).length := by
    have := List.length_pos_iff.mpr hne
    rw [List.length_append]
    omega
  conv_lhs =>
    unfold finditerFrom
    rw [h]
  exact congrArg (g :: ·) (congrArg (finditerFrom r n) (if_pos hlt))

end Regex

end MicroSampler
