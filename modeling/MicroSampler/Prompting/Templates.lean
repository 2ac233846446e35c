import MicroSampler.Library.Dict
import MicroSampler.Library.Regex

/-!
# Prompt templates

`TemplateController.process_template` replaces the tags of a template by what their handlers
return. The handlers run in any monad, so that their calls can be told from one another. What
a handler returns is not read again.
-/

namespace MicroSampler.Prompting

open Regex

abbrev Text := List Char

/-! ## The controller -/

/-- A handler: it is given the configuration, the name and the arguments of the tag, and the
keyword arguments of the call. -/
abbrev TemplateFeature (C K : Type) (m : Type → Type) := C → Text → List Text → Option K → m Text

structure RuntimeError where
  message : Text
  deriving DecidableEq

/-- `[^\]:]`. -/
def plain : List (Char × Char) :=
  [(Char.ofNat 0, '9'), (';', '\\'), ('^', Char.ofNat 0x10FFFF)]

/-- `(:[^\]:]+)`, the third group. -/
def argumentPattern : Regex := .group 3 (.seq (char ':') (plus (.set plain)))

/-- The pattern of a tag, with `tag` and `arguments` as groups 1 and 2. -/
def tagPattern : Regex :=
  .seq (lit "[[") (.seq (.group 1 (plus (.set plain)))
    (.seq (.group 2 (.star argumentPattern)) (lit "]]")))

section Controller

variable {C K : Type} {m : Type → Type} [Monad m] [MonadExcept RuntimeError m]

/-- `replace_tags`. -/
def replaceTags (templateTools : Dict Text (TemplateFeature C K m)) (ctx : C) (kwargs : Option K)
    (g : Match) : m Text :=
  let tagName := g.text 1
  match templateTools.get? tagName with
  | none => throw ⟨"Unrecognized tag name: ".toList ++ tagName⟩
  | some handler =>
    let arguments := g.text 2
    handler ctx tagName
      (if 1 < arguments.length then (arguments.drop 1).splitOn ':' else []) kwargs

/-- `process_template`. -/
def processTemplate (templateTools : Dict Text (TemplateFeature C K m)) (ctx : C)
    (content : Text) (kwargs : Option K) : m Text :=
  subM tagPattern (replaceTags templateTools ctx kwargs) content

end Controller

/-! ## Templates in parts -/

/-- A part of a template. -/
inductive Segment
  | literal (text : Text)
  | tag (name : Text) (args : List Text)

/-- How a part is written. -/
def Segment.text : Segment → Text
  | literal text => text
  | tag name args => "[[".toList ++ (name ++ (args.flatMap (':' :: ·) ++ "]]".toList))

/-- A name or an argument: not empty, and without the characters that end it. -/
def IsWord (w : Text) : Prop := w ≠ [] ∧ ']' ∉ w ∧ ':' ∉ w

/-- The parts that a template is made of. -/
def Segment.WellFormed : Segment → Prop
  | literal text => ¬ "[[".toList <:+: text ∧ text.getLast? ≠ some '['
  | tag name args => IsWord name ∧ ∀ a ∈ args, IsWord a

/-! ## Matching a tag -/

theorem inRanges_plain_iff (c : Char) : inRanges plain c = true ↔ c ≠ ']' ∧ c ≠ ':' := by
  have hchar : ∀ d : Char, c = d ↔ c.toNat = d.toNat := fun d => Char.toNat_inj.symm
  have hvalid : c.toNat ≤ 0x10FFFF := by
    have := c.valid
    rw [UInt32.isValidChar, Nat.isValidChar] at this
    change c.val.toNat ≤ _
    omega
  rw [Ne, Ne, hchar, hchar]
  simp only [inRanges, plain, List.any_cons, List.any_nil, Bool.or_false, Bool.or_eq_true,
    Bool.and_eq_true, Nat.ble_eq]
  change (0 ≤ c.toNat ∧ c.toNat ≤ 57) ∨ (59 ≤ c.toNat ∧ c.toNat ≤ 92) ∨
    (94 ≤ c.toNat ∧ c.toNat ≤ 1114111) ↔ ¬ c.toNat = 93 ∧ ¬ c.toNat = 58
  omega

theorem IsWord.word {w : Text} (h : IsWord w) : Word plain w := by
  refine ⟨h.1, fun c hc => ?_⟩
  rw [inRanges_plain_iff]
  constructor
  · rintro rfl
    exact h.2.1 hc
  · rintro rfl
    exact h.2.2 hc

/-- The arguments as they are written. -/
def argumentText (args : List Text) : Text := args.flatMap (':' :: ·)

theorem stopsAt_arguments (args : List Text) (s : Text) :
    StopsAt plain (argumentText args ++ ']' :: s) := by
  cases args with
  | nil => exact stopsAt_cons rfl _
  | cons a args => exact stopsAt_cons rfl _

/-- The arguments match as they are written, and capture nothing else than themselves. -/
theorem head?_iterate_arguments {args : List Text} (hargs : ∀ a ∈ args, IsWord a) (s : Text)
    {n : Nat} (hn : args.length ≤ n) (g : Match) :
    ∃ gs : Match, (∀ e ∈ gs, e.1 = 3) ∧
      (iterate true (run argumentPattern) n ⟨argumentText args ++ ']' :: s, g⟩).head? =
        some ⟨']' :: s, gs ++ g⟩ := by
  induction args generalizing n g with
  | nil =>
    have hstop : run argumentPattern ⟨']' :: s, g⟩ = [] := rfl
    refine ⟨[], by simp, ?_⟩
    rw [argumentText, List.flatMap_nil, List.nil_append, iterate_stop hstop]
    rfl
  | cons a args ih =>
    obtain ⟨n, rfl⟩ : ∃ k, n = k + 1 := ⟨n - 1, by simp at hn; omega⟩
    have ha := hargs a List.mem_cons_self
    have hsplit : argumentText (a :: args) ++ ']' :: s =
        (':' :: a) ++ (argumentText args ++ ']' :: s) := by
      rw [argumentText, List.flatMap_cons, List.append_assoc]
      rfl
    have hcolon : (run (char ':') ⟨(':' :: a) ++ (argumentText args ++ ']' :: s), g⟩).head? =
        some ⟨a ++ (argumentText args ++ ']' :: s), g⟩ := by
      rw [List.cons_append, Regex.char, run_set_cons (inRanges_self ':')]
      rfl
    have hstep : (run argumentPattern ⟨(':' :: a) ++ (argumentText args ++ ']' :: s), g⟩).head? =
        some ⟨argumentText args ++ ']' :: s, (3, ':' :: a) :: g⟩ :=
      head?_run_group (head?_run_seq hcolon
        (head?_run_plus_set ha.word (stopsAt_arguments args s)))
    obtain ⟨gs, hgs, hrest⟩ := ih (fun b hb => hargs b (List.mem_cons_of_mem _ hb))
      (by simpa using hn) ((3, ':' :: a) :: g)
    refine ⟨gs ++ [(3, ':' :: a)], ?_, ?_⟩
    · intro e he
      obtain he | he := List.mem_append.mp he
      · exact hgs e he
      · rw [List.mem_singleton.mp he]
    · rw [hsplit, List.append_assoc]
      exact head?_iterate_succ hstep (by simp only [List.length_append, List.length_cons]; omega)
        hrest

theorem length_le_argumentText (args : List Text) :
    args.length ≤ (argumentText args).length := by
  induction args with
  | nil => exact Nat.zero_le _
  | cons a args ih =>
    rw [argumentText, List.flatMap_cons, ← argumentText, List.length_append, List.length_cons,
      List.length_cons]
    omega

theorem group_append {gs : Match} {k n : Nat} (h : ∀ e ∈ gs, e.1 = k) (hn : k ≠ n) (g : Match) :
    Match.group (gs ++ g) n = Match.group g n := by
  induction gs with
  | nil => rfl
  | cons e gs ih =>
    rw [List.cons_append, group_cons, if_neg, ih fun e he => h e (List.mem_cons_of_mem _ he)]
    rw [h e List.mem_cons_self]
    exact hn

/-- What a tag captures. -/
theorem head?_run_tag {name : Text} {args : List Text} (h : (Segment.tag name args).WellFormed)
    (s : Text) :
    ∃ g, (run tagPattern ⟨(Segment.tag name args).text ++ s, []⟩).head? = some ⟨s, g⟩ ∧
      g.text 1 = name ∧ g.text 2 = argumentText args := by
  obtain ⟨hname, hargs⟩ := h
  obtain ⟨gs, hgs, hstar⟩ := head?_iterate_arguments hargs (']' :: s)
    (n := (argumentText args ++ ("]]".toList ++ s)).length)
    (Nat.le_trans (length_le_argumentText args) (by simp)) [(1, name)]
  have htext : (Segment.tag name args).text ++ s =
      "[[".toList ++ (name ++ (argumentText args ++ ("]]".toList ++ s))) := by
    simp only [Segment.text, argumentText, List.append_assoc]
  have harguments : (run (.group 2 (.star argumentPattern))
      ⟨argumentText args ++ ("]]".toList ++ s), [(1, name)]⟩).head? =
        some ⟨"]]".toList ++ s, (2, argumentText args) :: (gs ++ [(1, name)])⟩ :=
    head?_run_group hstar
  have hclose : (run (lit "]]")
      ⟨"]]".toList ++ s, (2, argumentText args) :: (gs ++ [(1, name)])⟩).head? =
        some ⟨s, (2, argumentText args) :: (gs ++ [(1, name)])⟩ := by
    rw [run_lit]
    rfl
  have hrun : (run tagPattern ⟨(Segment.tag name args).text ++ s, []⟩).head? =
      some ⟨s, (2, argumentText args) :: (gs ++ [(1, name)])⟩ := by
    rw [htext]
    exact head?_run_seq_lit (head?_run_seq_word hname.word (stopsAt_arguments args _)
      (head?_run_seq harguments hclose))
  refine ⟨_, hrun, ?_, ?_⟩
  · rw [Match.text, group_cons, if_neg (by decide), group_append hgs (by decide)]
    rfl
  · rw [Match.text, group_cons]
    rfl

/-! ## Rendering -/

section Render

variable {C K : Type} {m : Type → Type} [Monad m] [LawfulMonad m] [MonadExcept RuntimeError m]
  (templateTools : Dict Text (TemplateFeature C K m)) (ctx : C) (kwargs : Option K)

/-- What takes the place of a part: a literal is copied, for a tag its handler is called. -/
def Segment.expand : Segment → m Text
  | literal text => pure text
  | tag name args =>
    match templateTools.get? name with
    | none => throw ⟨"Unrecognized tag name: ".toList ++ name⟩
    | some handler => handler ctx name args kwargs

theorem argumentText_cons (a : Text) (args : List Text) :
    argumentText (a :: args) = ':' :: List.intercalate [':'] (a :: args) := by
  induction args generalizing a with
  | nil => simp [argumentText, List.intercalate]
  | cons b args ih =>
    rw [argumentText, List.flatMap_cons, ← argumentText, ih, List.intercalate_cons_cons]
    simp

theorem splitOn_argumentText {args : List Text} (hargs : ∀ a ∈ args, IsWord a) :
    (if 1 < (argumentText args).length then ((argumentText args).drop 1).splitOn ':' else []) =
      args := by
  cases args with
  | nil => rfl
  | cons a args =>
    have ha := List.length_pos_iff.mpr (hargs a List.mem_cons_self).1
    have hlong : 1 < (argumentText (a :: args)).length := by
      rw [argumentText, List.flatMap_cons, List.length_append, List.length_cons]
      omega
    rw [if_pos hlong, argumentText_cons, List.drop_succ_cons, List.drop_zero,
      List.splitOn_intercalate _ (fun b hb => (hargs b hb).2.2) (List.cons_ne_nil _ _)]

omit [LawfulMonad m] in
theorem replaceTags_tag {name : Text} {args : List Text} (hargs : ∀ a ∈ args, IsWord a)
    {g : Match} (hname : g.text 1 = name) (htext : g.text 2 = argumentText args) :
    replaceTags templateTools ctx kwargs g =
      (Segment.tag name args).expand templateTools ctx kwargs := by
  unfold replaceTags Segment.expand
  dsimp only
  rw [hname, htext, splitOn_argumentText hargs]

/-- No tag begins in a literal. -/
theorem run_literal {text : Text} (h : (Segment.literal text).WellFormed) (s : Text) :
    ∀ u, u ≠ [] → u <:+ text → run tagPattern ⟨u ++ s, []⟩ = [] := by
  obtain ⟨hinner, hlast⟩ := h
  intro u hne hsuffix
  have hnotag : ¬ "[[".toList <+: u ++ s := by
    intro hprefix
    cases u with
    | nil => exact hne rfl
    | cons c u =>
      cases u with
      | nil =>
        -- the last character of the literal would open a tag
        obtain ⟨front, rfl⟩ := hsuffix
        rw [List.getLast?_concat] at hlast
        obtain ⟨rest, hrest⟩ := hprefix
        cases hrest
        exact hlast rfl
      | cons d u =>
        obtain ⟨rest, hrest⟩ := hprefix
        have hopen : "[[".toList ++ u = c :: d :: u := by
          cases hrest
          rfl
        exact hinner ((hopen ▸ List.prefix_append _ _ : "[[".toList <+: c :: d :: u).isInfix.trans
          hsuffix.isInfix)
  rw [tagPattern, run, run_lit_eq_nil hnotag, List.flatMap_nil]

/-- The parts of a template are replaced one by one. -/
theorem replaceM_scanFrom {segments : List Segment} (h : ∀ seg ∈ segments, seg.WellFormed)
    {n : Nat} (hn : (segments.flatMap Segment.text).length < n) :
    replaceM (replaceTags templateTools ctx kwargs)
        (scanFrom tagPattern n (segments.flatMap Segment.text)) =
      (do
        let pieces ← segments.mapM (Segment.expand templateTools ctx kwargs)
        pure pieces.flatten) := by
  induction segments generalizing n with
  | nil =>
    obtain ⟨n, rfl⟩ : ∃ k, n = k + 1 := ⟨n - 1, by simp at hn; omega⟩
    have hscan : scanFrom tagPattern (n + 1) [] = [] := rfl
    rw [List.flatMap_nil, hscan]
    simp [replaceM]
  | cons seg segments ih =>
    have hseg := h seg List.mem_cons_self
    have hrest := fun seg' h' => h seg' (List.mem_cons_of_mem seg h')
    rw [List.flatMap_cons, List.length_append] at hn
    rw [List.flatMap_cons, List.mapM_cons]
    cases seg with
    | literal text =>
      obtain ⟨n, rfl⟩ : ∃ k, n = k + text.length :=
        ⟨n - text.length, by simp only [Segment.text] at hn; omega⟩
      simp only [Segment.text] at hn
      rw [Segment.text, scanFrom_copy (run_literal hseg _), replaceM_append, replaceM_copy,
        ih hrest (by omega)]
      simp [Segment.expand]
    | tag name args =>
      obtain ⟨g, hrun, hname, htext⟩ := head?_run_tag hseg (segments.flatMap Segment.text)
      have hne : (Segment.tag name args).text ≠ [] := by
        simp [Segment.text]
      have hpos := List.length_pos_iff.mpr hne
      obtain ⟨n, rfl⟩ : ∃ k, n = k + 1 := ⟨n - 1, by omega⟩
      rw [scanFrom_match hne hrun, ← List.singleton_append, replaceM_append, replaceM_match,
        replaceTags_tag templateTools ctx kwargs hseg.2 hname htext, ih hrest (by omega)]
      simp

/-- **Rendering.** A template in parts is rendered part by part: the literals are copied, and
in place of each tag stands what one call of its handler with its arguments returns, whatever
that is. -/
theorem processTemplate_parts {segments : List Segment} (h : ∀ seg ∈ segments, seg.WellFormed) :
    processTemplate templateTools ctx (segments.flatMap Segment.text) kwargs =
      (do
        let pieces ← segments.mapM (Segment.expand templateTools ctx kwargs)
        pure pieces.flatten) :=
  replaceM_scanFrom templateTools ctx kwargs h (Nat.lt_succ_self _)

end Render

/-- The names that `add_default_template_tools_to_client` registers. -/
def defaultTags : List Text :=
  ["source", "config", "allowed_references", "runtime_data", "model", "hypothesis",
    "sim_feedback", "results", "summary", "cacheinfo", "cpuinfo"].map String.toList

theorem isWord_of_mem_defaultTags : ∀ name ∈ defaultTags, IsWord name := by
  have hall : ∀ name ∈ defaultTags, name ≠ [] ∧ ']' ∉ name ∧ ':' ∉ name := by decide +kernel
  exact hall

/-! ## Two controllers -/

/-- The summary of a model that writes a tag. -/
def taggedSummary : Dict Text (TemplateFeature Unit Unit (Except RuntimeError)) :=
  ⟨[("summary".toList, fun _ _ _ _ => .ok "[[source:a]]".toList)], by decide⟩

theorem processTemplate_parts_summary :
    processTemplate taggedSummary () ([.literal "See ".toList, .tag "summary".toList [],
      .literal ".".toList].flatMap Segment.text) none = .ok "See [[source:a]].".toList := by
  rw [processTemplate_parts]
  · rfl
  · intro seg hseg
    simp only [List.mem_cons, List.not_mem_nil, or_false] at hseg
    obtain rfl | rfl | rfl := hseg
    · exact (by decide : ¬ "[[".toList <:+: "See ".toList ∧ "See ".toList.getLast? ≠ some '[')
    · exact ⟨isWord_of_mem_defaultTags _ (by decide), by simp⟩
    · exact (by decide : ¬ "[[".toList <:+: ".".toList ∧ ".".toList.getLast? ≠ some '[')

/-- A tool whose name has a colon. -/
def colonTool : Dict Text (TemplateFeature Unit Unit (Except RuntimeError)) :=
  ⟨[("a:b".toList, fun _ _ _ _ => .ok "text".toList)], by decide⟩

/-- Its tag is taken for another one. -/
theorem colonTool_not_called :
    processTemplate colonTool () (Segment.tag "a:b".toList []).text none =
        .error ⟨"Unrecognized tag name: a".toList⟩ ∧
      (Segment.tag "a:b".toList []).expand colonTool () none = .ok "text".toList :=
  ⟨rfl, rfl⟩

end MicroSampler.Prompting
