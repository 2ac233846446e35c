import MicroSampler.Library.Json
import MicroSampler.Library.Radix

/-!
# JSON texts

The lexical half of the JSON grammar: `Lexes s ts` says that the text `s` spells the
tokens `ts`, with blanks between them. `IsText s v`: `s` is a JSON document for `v`.

`readText` is the reader, a lexer that takes one step per character in front of the parser.
`readText_of_isText`: it reads every document the grammar derives, and with the value the
grammar gives it. Like Python's `json` it also takes `NaN` and the infinities.
-/

namespace MicroSampler.Json

open Radix

/-! ## The grammar -/

/-- The blanks that may stand between tokens. -/
def isBlank (c : Char) : Bool := c = ' ' || c = '\t' || c = '\n' || c = '\r'

def structural? : Char → Option Token
  | '[' => some .beginArray
  | ']' => some .endArray
  | '{' => some .beginObject
  | '}' => some .endObject
  | ':' => some .nameSeparator
  | ',' => some .valueSeparator
  | _ => none

/-- The characters of numbers and of the words `true`, `false` and `null`. -/
def isWordChar (c : Char) : Bool := c.isAlphanum || c = '-' || c = '+' || c = '.'

def IsDigits (ds : List Char) : Prop := ds ≠ [] ∧ ∀ c ∈ ds, c.isDigit = true

instance (ds : List Char) : Decidable (IsDigits ds) :=
  decidable_of_iff (ds ≠ [] ∧ ds.all Char.isDigit = true) (and_congr_right' List.all_eq_true)

/-- The digits of an integer: no zero in front of others. -/
def IsInteger (ds : List Char) : Prop := IsDigits ds ∧ (ds.head? = some '0' → ds.length = 1)

instance (ds : List Char) : Decidable (IsInteger ds) := inferInstanceAs (Decidable (_ ∧ _))

def IsFraction (s : List Char) : Prop := s = [] ∨ ∃ ds, IsDigits ds ∧ s = '.' :: ds

def IsExponent (s : List Char) : Prop :=
  s = [] ∨ ∃ e sign ds, (e = 'e' ∨ e = 'E') ∧ (sign = [] ∨ sign = ['+'] ∨ sign = ['-']) ∧
    IsDigits ds ∧ s = e :: (sign ++ ds)

def withSign (negative : Bool) (ds : List Char) : List Char :=
  if negative then '-' :: ds else ds

def signed (negative : Bool) (n : Nat) : Int := if negative then -n else n

/-- The words that are values. -/
inductive Scalar : List Char → Json → Prop
  | null : Scalar "null".toList .null
  | true : Scalar "true".toList (.bool true)
  | false : Scalar "false".toList (.bool false)
  | integer (negative : Bool) {ds : List Char} (hd : IsInteger ds) :
    Scalar (withSign negative ds) (.int (signed negative (Nat.ofDigitChars 10 ds 0)))
  | real (negative : Bool) {ds frac exp : List Char} (hd : IsInteger ds) (hf : IsFraction frac)
    (he : IsExponent exp) (hne : frac ++ exp ≠ []) :
    Scalar (withSign negative (ds ++ frac ++ exp)) (.float (withSign negative (ds ++ frac ++ exp)))

/-- The character an escape of two characters stands for. -/
def escape? : Char → Option Nat
  | '"' => some 0x22
  | '\\' => some 0x5c
  | '/' => some 0x2f
  | 'b' => some 0x08
  | 'f' => some 0x0c
  | 'n' => some 0x0a
  | 'r' => some 0x0d
  | 't' => some 0x09
  | _ => none

/-- The number that hexadecimal digits write. -/
def hexNumber (ds : List Nat) : Nat := ds.foldl (fun n d => 16 * n + d) 0

/-- What stands between the quotes of a string, with the code units it writes. -/
inductive StringBody : List Char → CodePoints → Prop
  | nil : StringBody [] []
  | char {c : Char} {s : List Char} {us : CodePoints} (hc : 0x20 ≤ c.toNat) (hq : c ≠ '"')
    (hb : c ≠ '\\') (hs : StringBody s us) : StringBody (c :: s) (c.toNat :: us)
  | escape {c : Char} {u : Nat} {s : List Char} {us : CodePoints} (hu : escape? c = some u)
    (hs : StringBody s us) : StringBody ('\\' :: c :: s) (u :: us)
  | unicode {h : List Char} {ds : List Nat} {s : List Char} {us : CodePoints}
    (hh : h.length = 4) (hd : h.mapM hexVal? = some ds) (hs : StringBody s us) :
    StringBody ('\\' :: 'u' :: (h ++ s)) (hexNumber ds :: us)

/-- A high surrogate followed by a low one is one character. -/
def mergeSurrogates : List Nat → CodePoints
  | hi :: lo :: us =>
    if 0xd800 ≤ hi ∧ hi < 0xdc00 ∧ 0xdc00 ≤ lo ∧ lo < 0xe000 then
      (0x10000 + (hi - 0xd800) * 0x400 + (lo - 0xdc00)) :: mergeSurrogates us
    else hi :: mergeSurrogates (lo :: us)
  | us => us

/-- The next character, if there is one, does not continue a word. -/
def EndsWord (s : List Char) : Prop := ∀ c ∈ s.head?, isWordChar c = false

/-- The text `s` spells the tokens `ts`. -/
inductive Lexes : List Char → List Token → Prop
  | nil : Lexes [] []
  | blank {c : Char} {s : List Char} {ts : List Token} (hc : isBlank c = true)
    (hs : Lexes s ts) : Lexes (c :: s) ts
  | structural {c : Char} {t : Token} {s : List Char} {ts : List Token}
    (hc : structural? c = some t) (hs : Lexes s ts) : Lexes (c :: s) (t :: ts)
  | string {b : List Char} {us : CodePoints} {s : List Char} {ts : List Token}
    (hb : StringBody b us) (hs : Lexes s ts) :
    Lexes ('"' :: (b ++ '"' :: s)) (.string (mergeSurrogates us) :: ts)
  | scalar {w : List Char} {v : Json} {s : List Char} {ts : List Token} (hw : Scalar w v)
    (he : EndsWord s) (hs : Lexes s ts) : Lexes (w ++ s) (.scalar v :: ts)

/-- The text `s` is a JSON document for `v`. -/
def IsText (s : List Char) (v : Json) : Prop := Lexes s v.tokens

/-! ## The reader -/

/-- Whether the rest of a number behind its integer part is a fraction, an exponent or
both. -/
def exponent? (s : List Char) : Bool :=
  match s with
  | [] => true
  | e :: s =>
    (e = 'e' || e = 'E') &&
      decide (IsDigits (if s.head? = some '+' ∨ s.head? = some '-' then s.tail else s))

def fractionExponent? (s : List Char) : Bool :=
  match s with
  | '.' :: s => s.takeWhile Char.isDigit ≠ [] && exponent? (s.dropWhile Char.isDigit)
  | s => exponent? s

def number (w : List Char) : Option Json :=
  let negative : Bool := w.head? = some '-'
  let body := if negative then w.tail else w
  let ds := body.takeWhile Char.isDigit
  let rest := body.dropWhile Char.isDigit
  if IsInteger ds then
    if rest = [] then some (.int (signed negative (Nat.ofDigitChars 10 ds 0)))
    else if fractionExponent? rest then some (.float w)
    else none
  else none

/-- A word that is no value is an error, apart from the floats that JSON has no text for. -/
def scalar (w : List Char) : Option Json :=
  (number w).or <|
    if w = "null".toList then some .null
    else if w = "true".toList then some (.bool true)
    else if w = "false".toList then some (.bool false)
    else if w = "NaN".toList ∨ w = "Infinity".toList ∨ w = "-Infinity".toList then
      some (.float w)
    else none

/-- Where the lexer is in a token, with what it has read of it. -/
inductive Lexer
  | idle
  | word (w : List Char)
  | string (us : CodePoints)
  | escape (us : CodePoints)
  | unicode (us : CodePoints) (ds : List Nat)

def idleStep (c : Char) : Option (Lexer × List Token) :=
  if isBlank c then some (.idle, [])
  else if c = '"' then some (.string [], [])
  else if isWordChar c then some (.word [c], [])
  else (structural? c).map fun t => (.idle, [t])

/-- One character: the next position and the tokens that end here. -/
def Lexer.step : Lexer → Char → Option (Lexer × List Token)
  | .idle, c => idleStep c
  | .word w, c =>
    if isWordChar c then some (.word (w ++ [c]), [])
    else do
      let v ← scalar w
      let (next, ts) ← idleStep c
      pure (next, .scalar v :: ts)
  | .string us, c =>
    if c = '"' then some (.idle, [.string (mergeSurrogates us)])
    else if c = '\\' then some (.escape us, [])
    else if c.toNat < 0x20 then none
    else some (.string (us ++ [c.toNat]), [])
  | .escape us, c =>
    if c = 'u' then some (.unicode us [], [])
    else (escape? c).map fun u => (.string (us ++ [u]), [])
  | .unicode us ds, c => do
    let d ← hexVal? c
    if ds.length < 3 then some (.unicode us (ds ++ [d]), [])
    else some (.string (us ++ [hexNumber (ds ++ [d])]), [])

def lex : Lexer → List Char → Option (List Token)
  | .idle, [] => some []
  | .word w, [] => (scalar w).map fun v => [.scalar v]
  | _, [] => none
  | l, c :: s => do
    let (next, ts) ← l.step c
    let rest ← lex next s
    pure (ts ++ rest)

/-- The value of a text that is a document. -/
def readText (s : List Char) : Option Json := do
  let ts ← lex .idle s
  parse ts

/-! ## The reader takes every document -/

theorem isWordChar_of_isDigit {c : Char} (h : c.isDigit = true) : isWordChar c = true := by
  simp [isWordChar, Char.isAlphanum, h]

theorem step_of_isWordChar {c : Char} (h : isWordChar c = true) :
    Lexer.idle.step c = some (.word [c], []) := by
  have hb : isBlank c = false := by
    by_contra hc
    simp only [isBlank, Bool.or_eq_true, decide_eq_true_eq, Bool.not_eq_false] at hc
    obtain ((rfl | rfl) | rfl) | rfl := hc <;> exact absurd h (by decide)
  have hq : c ≠ '"' := by
    rintro rfl
    exact absurd h (by decide)
  simp [Lexer.step, idleStep, hb, hq, h]

theorem step_of_structural {c : Char} {t : Token} (h : structural? c = some t) :
    Lexer.idle.step c = some (.idle, [t]) := by
  unfold structural? at h
  split at h <;> cases h <;> rfl

theorem takeWhile_digits {ds rest : List Char} (hd : ∀ c ∈ ds, c.isDigit = true)
    (hr : ∀ c ∈ rest.head?, c.isDigit = false) :
    (ds ++ rest).takeWhile Char.isDigit = ds ∧ (ds ++ rest).dropWhile Char.isDigit = rest := by
  rw [List.takeWhile_append_of_pos hd, List.dropWhile_append_of_pos hd]
  cases rest with
  | nil => simp
  | cons c rest => simp [hr c rfl]

theorem exponent?_of_isExponent {s : List Char} (h : IsExponent s) : exponent? s = true := by
  rcases h with rfl | ⟨e, sign, ds, he, hsign, hds, rfl⟩
  · rfl
  have hstrip : (if (sign ++ ds).head? = some '+' ∨ (sign ++ ds).head? = some '-' then
      (sign ++ ds).tail else sign ++ ds) = ds := by
    rcases hsign with rfl | rfl | rfl
    · obtain ⟨c, ds, rfl⟩ := List.exists_cons_of_ne_nil hds.1
      have hc := hds.2 c List.mem_cons_self
      have hp : c ≠ '+' := by
        rintro rfl
        exact absurd hc (by decide)
      have hm : c ≠ '-' := by
        rintro rfl
        exact absurd hc (by decide)
      simp [hp, hm]
    · simp
    · simp
  simp only [exponent?, hstrip]
  rcases he with rfl | rfl <;> simp [hds]

/-- A fraction or an exponent starts with no digit. -/
theorem head?_fractionExponent {frac exp : List Char} (hf : IsFraction frac)
    (he : IsExponent exp) : ∀ c ∈ (frac ++ exp).head?, c.isDigit = false := by
  intro c hc
  rcases hf with rfl | ⟨ds, -, rfl⟩
  · rcases he with rfl | ⟨e, sign, ds, he, -, -, rfl⟩
    · cases hc
    · cases hc
      rcases he with rfl | rfl <;> decide
  · cases hc
    decide

theorem fractionExponent?_append {frac exp : List Char} (hf : IsFraction frac)
    (he : IsExponent exp) : fractionExponent? (frac ++ exp) = true := by
  rcases hf with rfl | ⟨ds, hds, rfl⟩
  · have hexp := exponent?_of_isExponent he
    rcases he with rfl | ⟨e, sign, ds, he', -, -, rfl⟩
    · exact hexp
    · rcases he' with rfl | rfl <;> exact hexp
  · obtain ⟨htake, hdrop⟩ :=
      takeWhile_digits hds.2 (head?_fractionExponent (Or.inl rfl) he)
    simp only [List.nil_append] at htake hdrop
    simp [fractionExponent?, htake, hdrop, hds.1, exponent?_of_isExponent he]

/-- A word with a sign and digits is read as a number, by what stands behind the digits. -/
theorem number_withSign (negative : Bool) {ds rest : List Char} (hd : IsInteger ds)
    (hr : ∀ c ∈ rest.head?, c.isDigit = false) :
    number (withSign negative (ds ++ rest)) =
      if rest = [] then some (.int (signed negative (Nat.ofDigitChars 10 ds 0)))
      else if fractionExponent? rest then some (.float (withSign negative (ds ++ rest)))
      else none := by
  obtain ⟨htake, hdrop⟩ := takeWhile_digits hd.1.2 hr
  have hhead : (ds ++ rest).head? ≠ some '-' := by
    obtain ⟨c, ds, rfl⟩ := List.exists_cons_of_ne_nil hd.1.1
    rintro hc
    cases hc
    exact absurd (hd.1.2 '-' List.mem_cons_self) (by decide)
  cases negative with
  | true => simp [number, withSign, htake, hdrop, hd]
  | false =>
    simp only [number, withSign, hhead, decide_false, Bool.false_eq_true, if_false, htake, hdrop,
      if_pos hd]

theorem scalar_of_scalar {w : List Char} {v : Json} (h : Scalar w v) : scalar w = some v := by
  cases h with
  | null => rfl
  | true => rfl
  | false => rfl
  | integer negative hd =>
    rename_i ds
    have hn := @number_withSign negative ds [] hd (by simp)
    rw [List.append_nil, if_pos rfl] at hn
    rw [scalar, hn, Option.some_or]
  | real negative hd hf he hne =>
    rw [scalar, List.append_assoc, number_withSign negative hd (head?_fractionExponent hf he),
      if_neg hne, if_pos (fractionExponent?_append hf he), Option.some_or]

theorem isWordChar_of_mem_digits {ds : List Char} (hd : IsDigits ds) :
    ∀ c ∈ ds, isWordChar c = true := fun c hc => isWordChar_of_isDigit (hd.2 c hc)

theorem isWordChar_of_mem_withSign {negative : Bool} {s : List Char}
    (h : ∀ c ∈ s, isWordChar c = true) : ∀ c ∈ withSign negative s, isWordChar c = true := by
  cases negative with
  | false => exact h
  | true =>
    intro c hc
    rcases List.mem_cons.mp hc with rfl | hc
    · decide
    · exact h c hc

theorem isWordChar_of_mem_fraction {s : List Char} (h : IsFraction s) :
    ∀ c ∈ s, isWordChar c = true := by
  rcases h with rfl | ⟨ds, hds, rfl⟩
  · simp
  · intro c hc
    rcases List.mem_cons.mp hc with rfl | hc
    · decide
    · exact isWordChar_of_mem_digits hds c hc

theorem isWordChar_of_mem_exponent {s : List Char} (h : IsExponent s) :
    ∀ c ∈ s, isWordChar c = true := by
  rcases h with rfl | ⟨e, sign, ds, he, hsign, hds, rfl⟩
  · simp
  · intro c hc
    rcases List.mem_cons.mp hc with rfl | hc
    · rcases he with rfl | rfl <;> decide
    rcases List.mem_append.mp hc with hc | hc
    · rcases hsign with rfl | rfl | rfl
      · cases hc
      · rw [List.mem_singleton.mp hc]
        decide
      · rw [List.mem_singleton.mp hc]
        decide
    · exact isWordChar_of_mem_digits hds c hc

/-- Every character of a word continues it. -/
theorem isWordChar_of_mem_scalar {w : List Char} {v : Json} (h : Scalar w v) :
    ∀ c ∈ w, isWordChar c = true := by
  cases h with
  | null => exact List.all_eq_true.mp (by decide)
  | true => exact List.all_eq_true.mp (by decide)
  | false => exact List.all_eq_true.mp (by decide)
  | integer negative hd => exact isWordChar_of_mem_withSign (isWordChar_of_mem_digits hd.1)
  | real negative hd hf he hne =>
    refine isWordChar_of_mem_withSign fun c hc => ?_
    rcases List.mem_append.mp hc with hc | hc
    · rcases List.mem_append.mp hc with hc | hc
      · exact isWordChar_of_mem_digits hd.1 c hc
      · exact isWordChar_of_mem_fraction hf c hc
    · exact isWordChar_of_mem_exponent he c hc

theorem scalar_ne_nil {w : List Char} {v : Json} (h : Scalar w v) : w ≠ [] := by
  rintro rfl
  have hs := scalar_of_scalar h
  cases hs

theorem lex_cons {l next : Lexer} {c : Char} {ts : List Token}
    (h : l.step c = some (next, ts)) (s : List Char) :
    lex l (c :: s) = (lex next s).map (ts ++ ·) := by
  cases hl : lex next s <;> simp [lex, h, hl]

theorem lex_cons_nil {l next : Lexer} {c : Char} (h : l.step c = some (next, []))
    (s : List Char) : lex l (c :: s) = lex next s := by
  simp [lex_cons h]

theorem lex_word {w' : List Char} (h : ∀ c ∈ w', isWordChar c = true) (w s : List Char) :
    lex (.word w) (w' ++ s) = lex (.word (w ++ w')) s := by
  induction w' generalizing w with
  | nil => simp
  | cons c w' ih =>
    obtain ⟨hc, hw'⟩ := List.forall_mem_cons.mp h
    have hstep : (Lexer.word w).step c = some (.word (w ++ [c]), []) := if_pos hc
    rw [List.cons_append, lex_cons_nil hstep, ih hw', List.append_assoc]
    rfl

/-- Where a word ends its value comes out, and the lexer goes on as from between tokens. -/
theorem lex_endsWord {w : List Char} {v : Json} (hw : Scalar w v) {s : List Char}
    (hs : EndsWord s) : lex (.word w) s = (lex .idle s).map (.scalar v :: ·) := by
  cases s with
  | nil => simp [lex, scalar_of_scalar hw]
  | cons c s =>
    have hc : isWordChar c = false := hs c rfl
    simp only [lex, Lexer.step, hc, scalar_of_scalar hw]
    cases hi : idleStep c with
    | none => simp
    | some next =>
      cases hl : lex next.1 s <;> simp [hl]

theorem lex_unicode {h : List Char} {ds : List Nat} (hd : h.mapM hexVal? = some ds)
    (hh : h.length = 4) (us : CodePoints) (s : List Char) :
    lex (.unicode us []) (h ++ s) = lex (.string (us ++ [hexNumber ds])) s := by
  match h, hh with
  | [a, b, c, d], _ =>
    simp only [List.mapM_cons, List.mapM_nil, Option.bind_eq_bind, Option.pure_def,
      Option.bind_eq_some_iff, Option.some.injEq] at hd
    obtain ⟨a', ha, _, ⟨b', hb, _, ⟨c', hc, _, ⟨d', hd, _, rfl, rfl⟩, rfl⟩, rfl⟩, rfl⟩ := hd
    simp [lex, Lexer.step, ha, hb, hc, hd]

theorem lex_body {b : List Char} {us : CodePoints} (h : StringBody b us) :
    ∀ (pre : CodePoints) (s : List Char),
      lex (.string pre) (b ++ s) = lex (.string (pre ++ us)) s := by
  induction h with
  | nil => simp
  | @char c s us hc hq hb _ ih =>
    intro pre rest
    have hstep : (Lexer.string pre).step c = some (.string (pre ++ [c.toNat]), []) := by
      simp [Lexer.step, hq, hb, Nat.not_lt.mpr hc]
    rw [List.cons_append, lex_cons_nil hstep, ih, List.append_assoc]
    rfl
  | @escape c u s us hu _ ih =>
    intro pre rest
    have hc : c ≠ 'u' := by
      rintro rfl
      cases hu
    have hstep : (Lexer.escape pre).step c = some (.string (pre ++ [u]), []) := by
      simp [Lexer.step, hc, hu]
    rw [List.cons_append, List.cons_append, lex_cons_nil rfl, lex_cons_nil hstep, ih,
      List.append_assoc]
    rfl
  | unicode hh hd _ ih =>
    intro pre rest
    rw [List.cons_append, List.cons_append, List.append_assoc, lex_cons_nil rfl,
      lex_cons_nil rfl, lex_unicode hd hh, ih, List.append_assoc]
    rfl

theorem lex_of_lexes {s : List Char} {ts : List Token} (h : Lexes s ts) :
    lex .idle s = some ts := by
  induction h with
  | nil => rfl
  | @blank c s ts hc _ ih =>
    have hstep : Lexer.idle.step c = some (.idle, []) := by simp [Lexer.step, idleStep, hc]
    rw [lex_cons_nil hstep, ih]
  | structural hc _ ih =>
    rw [lex_cons (step_of_structural hc), ih]
    rfl
  | string hb _ ih =>
    rw [lex_cons_nil rfl, lex_body hb, lex_cons rfl, ih]
    rfl
  | scalar hw he _ ih =>
    obtain ⟨c, w, rfl⟩ := List.exists_cons_of_ne_nil (scalar_ne_nil hw)
    obtain ⟨hc, hw'⟩ := List.forall_mem_cons.mp (isWordChar_of_mem_scalar hw)
    rw [List.cons_append, lex_cons_nil (step_of_isWordChar hc), lex_word hw' [c],
      List.singleton_append, lex_endsWord hw he, ih]
    rfl

/-- **The reader implements the grammar.** Every JSON document is read, with the value the
grammar gives it. -/
theorem readText_of_isText {s : List Char} {v : Json} (h : IsText s v) :
    readText s = some v := by
  rw [readText, lex_of_lexes h]
  exact parse_tokens v

/-! ## Writing documents piece by piece -/

theorem isInteger_toDigits (n : Nat) : IsInteger (Nat.toDigits 10 n) := by
  refine ⟨⟨Nat.toDigits_ne_nil, fun c hc =>
    Nat.isDigit_of_mem_toDigits (by decide) (by decide) hc⟩, fun h0 => ?_⟩
  rcases Nat.eq_zero_or_pos n with rfl | hn
  · rfl
  · obtain ⟨d, rest, hd, hpos, hlt⟩ := toDigits_head_ne_zero (by decide : 1 < 10) hn
    rw [hd] at h0
    have hne : ∀ d, d < 10 → 0 < d → Nat.digitChar d ≠ '0' := by decide
    exact absurd (Option.some.inj h0) (hne d hlt hpos)

theorem scalar_withSign (negative : Bool) (n : Nat) :
    Scalar (withSign negative (Nat.toDigits 10 n)) (.int (signed negative n)) := by
  have h := Scalar.integer negative (isInteger_toDigits n)
  rwa [Nat.ofDigitChars_ten_toDigits] at h

theorem scalar_toDigits (n : Nat) : Scalar (Nat.toDigits 10 n) (.int n) := scalar_withSign false n

/-- A character that stands for itself in a string and is no surrogate. -/
def isPlain (c : Char) : Bool :=
  decide (0x20 ≤ c.toNat) && decide (c.toNat < 0xd800) && decide (c ≠ '"') && decide (c ≠ '\\')

/-- The piece `s` writes the tokens `ts`, whatever document follows. -/
def Spells (s : List Char) (ts : List Token) : Prop :=
  ∀ rest us, Lexes rest us → Lexes (s ++ rest) (ts ++ us)

namespace Spells

theorem nil : Spells [] [] := fun _ _ h => h

theorem of_eq {s s' : List Char} {ts ts' : List Token} (h : Spells s ts) (hs : s' = s)
    (ht : ts' = ts) : Spells s' ts' := by
  rw [hs, ht]
  exact h

theorem append {s s' : List Char} {ts ts' : List Token} (h : Spells s ts) (h' : Spells s' ts') :
    Spells (s ++ s') (ts ++ ts') := by
  intro rest us hr
  rw [List.append_assoc, List.append_assoc]
  exact h _ _ (h' _ _ hr)

theorem blank {c : Char} {s : List Char} {ts : List Token} (hc : isBlank c = true)
    (h : Spells s ts) : Spells (c :: s) ts := fun _ _ hr => .blank hc (h _ _ hr)

theorem structural {c : Char} {t : Token} {s : List Char} {ts : List Token}
    (hc : structural? c = some t) (h : Spells s ts) : Spells (c :: s) (t :: ts) :=
  fun _ _ hr => .structural hc (h _ _ hr)

/-- A word is a token of its own when no word character follows. -/
theorem scalar {w : List Char} {v : Json} {s : List Char} {ts : List Token}
    (hw : Scalar w v) (hs : s.head?.map isWordChar = some false) (h : Spells s ts) :
    Spells (w ++ s) (.scalar v :: ts) := by
  intro rest us hr
  rw [List.append_assoc]
  refine .scalar hw ?_ (h _ _ hr)
  intro c hc
  cases s with
  | nil => cases hs
  | cons d s =>
    cases hc
    exact Option.some.inj hs

/-- A name that needs no escapes. -/
theorem name (k : String) {s : List Char} {ts : List Token} (hk : k.toList.all isPlain = true)
    (h : Spells s ts) : Spells ('"' :: (k.toList ++ '"' :: s)) (.string (codes k) :: ts) := by
  intro rest us hr
  have hbody : ∀ {l : List Char},
      (∀ c ∈ l, isPlain c = true) →
      StringBody l (l.map Char.toNat) ∧ mergeSurrogates (l.map Char.toNat) = l.map Char.toNat := by
    intro l hl
    induction l with
    | nil => exact ⟨.nil, rfl⟩
    | cons c l ih =>
      obtain ⟨hc, hl⟩ := List.forall_mem_cons.mp hl
      simp only [isPlain, Bool.and_eq_true, decide_eq_true_eq] at hc
      obtain ⟨⟨⟨h1, h2⟩, h3⟩, h4⟩ := hc
      refine ⟨.char h1 h3 h4 (ih hl).1, ?_⟩
      cases l with
      | nil => rfl
      | cons d l =>
        have hd : ¬ (0xd800 ≤ c.toNat ∧ c.toNat < 0xdc00 ∧ 0xdc00 ≤ d.toNat ∧
            d.toNat < 0xe000) := by
          omega
        rw [List.map_cons, List.map_cons, mergeSurrogates, if_neg hd]
        exact congrArg (c.toNat :: ·) (ih hl).2
  obtain ⟨hb, hm⟩ := hbody (List.all_eq_true.mp hk)
  have hlex := Lexes.string hb (h _ _ hr)
  rw [hm] at hlex
  simpa [codes] using hlex

theorem flatMap {α : Type} {l : List α} {f : α → List Char} {g : α → List Token}
    (h : ∀ a ∈ l, Spells (f a) (g a)) : Spells (l.flatMap f) (l.flatMap g) := by
  induction l with
  | nil => exact nil
  | cons a l ih =>
    obtain ⟨ha, hl⟩ := List.forall_mem_cons.mp h
    exact ha.append (ih hl)

/-- The elements of an array, a comma behind each but the last. -/
theorem array {n : Nat} {f : Nat → List Char} {v : Nat → Json} {o s : List Char}
    {ts us : List Token} (ho : Spells o (ts ++ [.beginArray]))
    (hf : ∀ i ≤ n, Spells (f i) (v i).tokens) (hs : Spells s (.endArray :: us)) :
    Spells (o ++ (((List.range (n + 1)).flatMap fun i => f i ++ if i < n then [','] else []) ++ s))
      (ts ++ (tokens (.arr ((List.range (n + 1)).map v)) ++ us)) := by
  have hinit : (List.range n).flatMap (fun i => f i ++ if i < n then [','] else []) =
      (List.range n).flatMap fun i => f i ++ [','] :=
    List.flatMap_congr fun i hi => by rw [if_pos (List.mem_range.mp hi)]
  have hcommas : Spells ((List.range n).flatMap fun i => f i ++ [','])
      ((List.range n).flatMap fun i => (v i).tokens ++ [.valueSeparator]) :=
    flatMap fun i hi =>
      (hf i (Nat.le_of_lt (List.mem_range.mp hi))).append (.structural rfl .nil)
  have h := ho.append (hcommas.append ((hf n (Nat.le_refl n)).append hs))
  refine h.of_eq ?_ ?_
  · simp [List.range_succ, hinit]
  · simp [List.range_succ, tokens_arr_concat, List.flatMap_map]

end Spells

theorem isText_of_spells {s : List Char} {v : Json} (h : Spells s v.tokens) : IsText s v := by
  have hlex := h [] [] .nil
  rwa [List.append_nil, List.append_nil] at hlex

end MicroSampler.Json
