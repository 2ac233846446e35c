import Mathlib.Data.List.Basic

/-!
# JSON values and their token sequences

The structural half of the JSON grammar: `Json.tokens` is the one token sequence of a
value. `parse` is a pushdown parser that takes one step per token, and `parse_tokens` says
that it reads the sequence of every value back.
-/

namespace MicroSampler

/-- A string as its code points; an escape can leave a surrogate on its own. -/
abbrev CodePoints := List Nat

def codes (s : String) : CodePoints := s.toList.map Char.toNat

/-- A JSON value. The members of an object stand as written, repeated names included; a
number with a fraction or an exponent is kept as its literal. -/
inductive Json
  | null
  | bool (b : Bool)
  | int (n : Int)
  | float (literal : List Char)
  | str (s : CodePoints)
  | arr (elements : List Json)
  | obj (members : List (CodePoints × Json))

namespace Json

/-! ## Token sequences -/

inductive Token
  | beginArray
  | endArray
  | beginObject
  | endObject
  | nameSeparator
  | valueSeparator
  | string (s : CodePoints)
  | scalar (v : Json)

mutual

/-- The token sequence of a value. -/
def tokens : Json → List Token
  | .null => [.scalar .null]
  | .bool b => [.scalar (.bool b)]
  | .int n => [.scalar (.int n)]
  | .float literal => [.scalar (.float literal)]
  | .str s => [.string s]
  | .arr [] => [.beginArray, .endArray]
  | .arr (v :: vs) => .beginArray :: (tokens v ++ moreElements vs ++ [.endArray])
  | .obj [] => [.beginObject, .endObject]
  | .obj ((k, v) :: ms) =>
    .beginObject :: .string k :: .nameSeparator :: (tokens v ++ moreMembers ms ++ [.endObject])

/-- The elements after the first, each behind its separator. -/
def moreElements : List Json → List Token
  | [] => []
  | v :: vs => .valueSeparator :: (tokens v ++ moreElements vs)

/-- The members after the first, each behind its separator. -/
def moreMembers : List (CodePoints × Json) → List Token
  | [] => []
  | (k, v) :: ms => .valueSeparator :: .string k :: .nameSeparator :: (tokens v ++ moreMembers ms)

end

/-- The elements of an array with the separator behind each element but the last. -/
theorem tokens_arr_concat (vs : List Json) (w : Json) :
    tokens (.arr (vs ++ [w])) =
      .beginArray :: ((vs.flatMap fun v => tokens v ++ [.valueSeparator]) ++ tokens w ++
        [.endArray]) := by
  have hmore : ∀ (vs : List Json) (v : Json), tokens v ++ moreElements (vs ++ [w]) =
      ((v :: vs).flatMap fun v => tokens v ++ [.valueSeparator]) ++ tokens w := by
    intro vs
    induction vs with
    | nil => intro v; simp [moreElements]
    | cons u vs ih =>
      intro v
      rw [List.cons_append, moreElements, ih u]
      simp
  cases vs with
  | nil => simp [tokens, moreElements]
  | cons v vs => rw [List.cons_append, tokens, hmore]

/-! ## The parser -/

/-- A container that is still open, with the values it has so far. -/
inductive Frame
  | array (done : List Json)
  | object (done : List (CodePoints × Json)) (key : CodePoints)

/-- What the parser waits for. -/
inductive Expect
  | value
  | firstElement
  | firstMember
  | name (done : List (CodePoints × Json))
  | colon (done : List (CodePoints × Json)) (key : CodePoints)
  | separator (v : Json)

structure Parser where
  expect : Expect
  stack : List Frame

def beginValue (stack : List Frame) : Token → Option Parser
  | .scalar v => some ⟨.separator v, stack⟩
  | .string s => some ⟨.separator (.str s), stack⟩
  | .beginArray => some ⟨.firstElement, stack⟩
  | .beginObject => some ⟨.firstMember, stack⟩
  | _ => none

/-- One token. -/
def accept : Parser → Token → Option Parser
  | ⟨.value, stack⟩, t => beginValue stack t
  | ⟨.firstElement, stack⟩, .endArray => some ⟨.separator (.arr []), stack⟩
  | ⟨.firstElement, stack⟩, t => beginValue (.array [] :: stack) t
  | ⟨.firstMember, stack⟩, .endObject => some ⟨.separator (.obj []), stack⟩
  | ⟨.firstMember, stack⟩, .string k => some ⟨.colon [] k, stack⟩
  | ⟨.name done, stack⟩, .string k => some ⟨.colon done k, stack⟩
  | ⟨.colon done k, stack⟩, .nameSeparator => some ⟨.value, .object done k :: stack⟩
  | ⟨.separator v, .array done :: stack⟩, .valueSeparator =>
    some ⟨.value, .array (done ++ [v]) :: stack⟩
  | ⟨.separator v, .array done :: stack⟩, .endArray =>
    some ⟨.separator (.arr (done ++ [v])), stack⟩
  | ⟨.separator v, .object done k :: stack⟩, .valueSeparator =>
    some ⟨.name (done ++ [(k, v)]), stack⟩
  | ⟨.separator v, .object done k :: stack⟩, .endObject =>
    some ⟨.separator (.obj (done ++ [(k, v)])), stack⟩
  | _, _ => none

/-- The document is over when one value is complete and no container is open. -/
def Parser.result : Parser → Option Json
  | ⟨.separator v, []⟩ => some v
  | _ => none

def parse (ts : List Token) : Option Json := do
  let p ← ts.foldlM accept ⟨.value, []⟩
  p.result

/-- The first element of an array is read as any other value. -/
theorem foldlM_firstElement (v : Json) (stack : List Frame) (rest : List Token) :
    (v.tokens ++ rest).foldlM accept ⟨.firstElement, stack⟩ =
      (v.tokens ++ rest).foldlM accept ⟨.value, .array [] :: stack⟩ := by
  cases v with
  | arr vs => cases vs <;> simp [tokens, List.foldlM_cons, accept]
  | obj ms =>
    rcases ms with _ | ⟨⟨k, v⟩, ms⟩ <;> simp [tokens, List.foldlM_cons, accept]
  | _ => simp [tokens, List.foldlM_cons, accept]

mutual

/-- The tokens of a value leave the parser behind that value, the open containers as they
were. -/
theorem foldlM_tokens : ∀ (v : Json) (stack : List Frame) (rest : List Token),
    (v.tokens ++ rest).foldlM accept ⟨.value, stack⟩ =
      rest.foldlM accept ⟨.separator v, stack⟩
  | .null, _, _ | .bool _, _, _ | .int _, _, _ | .float _, _, _ | .str _, _, _ => by
    simp [tokens, List.foldlM_cons, accept, beginValue]
  | .arr [], _, _ => by simp [tokens, List.foldlM_cons, accept, beginValue]
  | .arr (v :: vs), stack, rest => by
    simp only [tokens, List.cons_append, List.append_assoc, List.foldlM_cons, accept,
      beginValue, Option.bind_eq_bind, Option.bind_some]
    rw [foldlM_firstElement, foldlM_tokens v]
    exact foldlM_moreElements vs v [] stack rest
  | .obj [], _, _ => by simp [tokens, List.foldlM_cons, accept, beginValue]
  | .obj ((k, v) :: ms), stack, rest => by
    simp only [tokens, List.cons_append, List.append_assoc, List.foldlM_cons, accept,
      beginValue, Option.bind_eq_bind, Option.bind_some]
    rw [foldlM_tokens v]
    exact foldlM_moreMembers ms k v [] stack rest

theorem foldlM_moreElements : ∀ (vs : List Json) (v : Json) (done : List Json)
    (stack : List Frame) (rest : List Token),
    (moreElements vs ++ .endArray :: rest).foldlM accept ⟨.separator v, .array done :: stack⟩ =
      rest.foldlM accept ⟨.separator (.arr (done ++ v :: vs)), stack⟩
  | [], v, done, stack, rest => by simp [moreElements, List.foldlM_cons, accept]
  | w :: vs, v, done, stack, rest => by
    simp only [moreElements, List.cons_append, List.append_assoc, List.foldlM_cons, accept,
      Option.bind_eq_bind, Option.bind_some]
    rw [foldlM_tokens w, foldlM_moreElements vs, List.append_assoc]
    rfl

theorem foldlM_moreMembers : ∀ (ms : List (CodePoints × Json)) (k : CodePoints) (v : Json)
    (done : List (CodePoints × Json)) (stack : List Frame) (rest : List Token),
    (moreMembers ms ++ .endObject :: rest).foldlM accept ⟨.separator v, .object done k :: stack⟩ =
      rest.foldlM accept ⟨.separator (.obj (done ++ (k, v) :: ms)), stack⟩
  | [], k, v, done, stack, rest => by simp [moreMembers, List.foldlM_cons, accept]
  | (l, w) :: ms, k, v, done, stack, rest => by
    simp only [moreMembers, List.cons_append, List.append_assoc, List.foldlM_cons, accept,
      Option.bind_eq_bind, Option.bind_some]
    rw [foldlM_tokens w, foldlM_moreMembers ms, List.append_assoc]
    rfl

end

theorem parse_tokens (v : Json) : parse v.tokens = some v := by
  have h := foldlM_tokens v [] []
  rw [List.append_nil] at h
  simp [parse, h, Parser.result]

end Json

end MicroSampler
