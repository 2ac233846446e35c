import Mathlib.Data.List.TakeWhile
import MicroSampler.Simulation.Deployment

/-!
# The include filter

`CCopyVerifyLegalCode` searches an attack source for references in one spelling,
`#include "name"` with one space. The C preprocessor takes more lines as directives: blanks
may stand before and behind the number sign, and any number of them in front of the name.

`accepted_includes_iff`: an accepted source includes no other files than the allowed ones
exactly when this holds of its directives in the other spellings.
-/

namespace MicroSampler.Simulation

open Regex

/-! ## Directives -/

def isBlank (c : Char) : Bool := c = ' ' || c = '\t'

def skipBlanks (s : Text) : Text := s.dropWhile isBlank

/-- The text behind `w`, for a text that begins with `w`. -/
def behind (w s : Text) : Option Text :=
  if w.isPrefixOf s then some (s.drop w.length) else none

/-- The name in a line that the preprocessor takes as a quoted include directive: blanks, a
number sign, blanks, `include`, blanks and the name in double quotes. -/
def quotedInclude (line : Text) : Option Text := do
  let rest ← behind ['#'] (skipBlanks line)
  let rest ← behind "include".toList (skipBlanks rest)
  let rest ← behind ['"'] (skipBlanks rest)
  if '"' ∈ rest then some (rest.takeWhile (· ≠ '"')) else none

/-- The spelling that the filter searches for. -/
def plainSpelling (line : Text) : Bool :=
  "#include \"".toList.isPrefixOf (skipBlanks line)

/-- The names in the directives of a source. -/
def includes (text : Text) : List Text := (text.splitOn '\n').filterMap quotedInclude

/-- The names in the directives that are spelled otherwise. -/
def otherIncludes (text : Text) : List Text :=
  ((text.splitOn '\n').filter fun line => !plainSpelling line).filterMap quotedInclude

/-- A name and the text behind it. -/
theorem exists_takeWhile_quote {s : Text} (h : '"' ∈ s) :
    '"' ∉ s.takeWhile (· ≠ '"') ∧ ∃ rest, s = s.takeWhile (· ≠ '"') ++ '"' :: rest := by
  induction s with
  | nil => cases h
  | cons c s ih =>
    by_cases hc : c = '"'
    · subst hc
      exact ⟨by simp, s, by simp⟩
    · obtain ⟨hname, rest, hrest⟩ := ih ((List.mem_cons.mp h).resolve_left (Ne.symm hc))
      rw [List.takeWhile_cons_of_pos (by simpa using hc)]
      refine ⟨?_, rest, ?_⟩
      · rw [List.mem_cons, not_or]
        exact ⟨Ne.symm hc, hname⟩
      · rw [List.cons_append, ← hrest]

theorem quotedInclude_plain {line body : Text}
    (h : skipBlanks line = "#include \"".toList ++ body) :
    quotedInclude line = if '"' ∈ body then some (body.takeWhile (· ≠ '"')) else none := by
  unfold quotedInclude
  rw [h]
  rfl

/-- A directive in the plain spelling stands in its line behind blanks. -/
theorem plain_directive {line name : Text} (hname : quotedInclude line = some name)
    (hplain : plainSpelling line = true) :
    ∃ lead rest, (∀ c ∈ lead, isBlank c = true) ∧ '"' ∉ name ∧
      line = lead ++ ("#include \"".toList ++ (name ++ '"' :: rest)) := by
  obtain ⟨body, hbody⟩ := List.isPrefixOf_iff_prefix.mp hplain
  rw [quotedInclude_plain hbody.symm] at hname
  split at hname
  · next hquote =>
    cases hname
    obtain ⟨hfree, rest, hrest⟩ := exists_takeWhile_quote hquote
    refine ⟨line.takeWhile isBlank, rest, ?_, hfree, ?_⟩
    · intro c hc
      exact List.mem_takeWhile_imp hc
    · rw [← hrest, hbody, skipBlanks, List.takeWhile_append_dropWhile]
  · cases hname

/-- The lines of a text: the first, and the others with what stands around them. -/
theorem splitOn_spec (text : Text) :
    ∃ first others, text.splitOn '\n' = first :: others ∧ '\n' ∉ first ∧
      (∃ after, text = first ++ after) ∧
      ∀ line ∈ others, '\n' ∉ line ∧
        ∃ before after, text = before ++ ['\n'] ++ line ++ after := by
  induction text with
  | nil => exact ⟨[], [], rfl, List.not_mem_nil, ⟨[], rfl⟩, by simp⟩
  | cons c text ih =>
    obtain ⟨first, others, hsplit, hfirst, ⟨after, hafter⟩, hothers⟩ := ih
    rw [List.splitOn_cons_eq_if_modifyHead, hsplit]
    by_cases hc : c = '\n'
    · subst hc
      refine ⟨[], first :: others, by simp, List.not_mem_nil, ⟨_, rfl⟩, ?_⟩
      intro line hline
      rcases List.mem_cons.mp hline with rfl | hline
      · exact ⟨hfirst, [], after, by simp [hafter]⟩
      · obtain ⟨hfree, before, after, heq⟩ := hothers line hline
        exact ⟨hfree, '\n' :: before, after, by simp [heq]⟩
    · refine ⟨c :: first, others, by simp [hc], ?_, ⟨after, by simp [hafter]⟩, ?_⟩
      · rw [List.mem_cons, not_or]
        exact ⟨Ne.symm hc, hfirst⟩
      · intro line hline
        obtain ⟨hfree, before, after, heq⟩ := hothers line hline
        exact ⟨hfree, c :: before, after, by simp [heq]⟩

/-- A line with what stands around it. -/
theorem exists_of_mem_splitOn {line text : Text} (h : line ∈ text.splitOn '\n') :
    '\n' ∉ line ∧ ∃ before after, text = before ++ line ++ after ∧
      ∀ u, u ≠ [] → u <:+ before → '\n' ∈ u := by
  obtain ⟨first, others, hsplit, hfirst, ⟨after, hafter⟩, hothers⟩ := splitOn_spec text
  rw [hsplit] at h
  rcases List.mem_cons.mp h with rfl | h
  · refine ⟨hfirst, [], after, by simpa using hafter, ?_⟩
    intro u hu hsuffix
    exact absurd (List.suffix_nil.mp hsuffix) hu
  · obtain ⟨hfree, before, after, heq⟩ := hothers line h
    refine ⟨hfree, before ++ ['\n'], after, heq, ?_⟩
    intro u hu hsuffix
    rcases List.suffix_concat_iff.mp hsuffix with hnil | ⟨t, rfl, -⟩
    · exact absurd hnil hu
    · simp

/-! ## What the filter finds -/

theorem inRanges_anyChar {c : Char} (h : c ≠ '\n') :
    inRanges [('\x00', '\t'), ('\x0b', Char.ofNat 0x10ffff)] c = true := by
  have hne : c.toNat ≠ 10 := by
    intro h10
    exact h (Char.toNat_inj.mp h10)
  have hlt : c.toNat ≤ 0x10ffff := by
    have hvalid : c.toNat < 0xd800 ∨ (0xdfff < c.toNat ∧ c.toNat < 0x110000) := c.valid
    omega
  simp only [inRanges, List.any_cons, List.any_nil, Bool.or_false, Bool.or_eq_true,
    Bool.and_eq_true, Nat.ble_eq]
  change (0 ≤ c.toNat ∧ c.toNat ≤ 9) ∨ (11 ≤ c.toNat ∧ c.toNat ≤ 0x10ffff)
  omega

theorem suffix_cases {u before lead : Text} (h : u <:+ before ++ lead) :
    u <:+ lead ∨ ∃ v, v ≠ [] ∧ v <:+ before ∧ u = v ++ lead := by
  obtain ⟨w, hw⟩ := h
  rcases List.append_eq_append_iff.mp hw with ⟨v, hbefore, hu⟩ | ⟨v, -, hlead⟩
  · by_cases hv : v = []
    · left
      rw [hu, hv]
      exact List.suffix_refl _
    · exact .inr ⟨v, hv, ⟨w, hbefore.symm⟩, hu⟩
  · exact .inl ⟨v, hlead.symm⟩

/-- The texts that the expression of the filter matches. -/
theorem lang_includeRegex {c : Text} (h : Lang includeRegex c) :
    c.head? = some '#' ∧ '\n' ∉ c := by
  change Lang (.seq (.lit "#include \"") (.seq (.group 1 (.lazyStar anyChar))
    (.seq (.lit "\"") .empty))) c at h
  cases h with
  | seq hopen hrest =>
    cases hrest with
    | seq hname hclose =>
      cases hname with
      | group hlazy =>
        cases hlazy with
        | lazyStar hstar =>
          cases hclose with
          | seq hquote hend =>
            cases hend
            rw [lang_lit hopen, lang_lit hquote]
            refine ⟨rfl, ?_⟩
            intro hmem
            rcases List.mem_append.mp hmem with hmem | hmem
            · exact absurd hmem (by decide)
            rcases List.mem_append.mp hmem with hmem | hmem
            · exact absurd (inRanges_of_lang_star hstar _ hmem) (by decide)
            · exact absurd hmem (by decide)

/-- The filter takes the shortest name. -/
theorem head?_run_includeRegex {name rest : Text} (hquote : '"' ∉ name) (hbreak : '\n' ∉ name) :
    (run includeRegex ⟨"#include \"".toList ++ (name ++ '"' :: rest), []⟩).head? =
      some ⟨rest, [(1, name)]⟩ := by
  change ((run (.lit "#include \"") _).flatMap (run (.seq (.group 1 (.lazyStar anyChar))
    (.seq (.lit "\"") .empty)))).head? = _
  rw [run_lit, List.flatMap_singleton]
  change (((iterate false (run anyChar) _ _).map _).flatMap _).head? = _
  rw [List.flatMap_map]
  apply head?_lazy
  · simp
  · intro c hc
    apply inRanges_anyChar
    rintro rfl
    exact hbreak hc
  · intro u hu hsuffix
    obtain ⟨c, u, rfl⟩ := List.exists_cons_of_ne_nil hu
    have hc : c ≠ '"' := by
      rintro rfl
      exact hquote (hsuffix.subset (List.mem_cons_self ..))
    have hset : inRanges [('"', '"')] c ≠ true := by
      intro hin
      exact hc (eq_of_inRanges_self hin)
    have hnone : ∀ g, run (.lit "\"") ⟨c :: (u ++ '"' :: rest), g⟩ = [] := by
      intro g
      change (if inRanges [('"', '"')] c then _ else []).flatMap _ = []
      rw [if_neg hset]
      rfl
    simp [run, hnone]
  · have hone : ∀ g, run (.lit "\"") ⟨'"' :: rest, g⟩ = [⟨rest, g⟩] := run_lit "\"" rest
    simp [run, hone]

theorem mem_allowed_of_plain {config : HarnessConfig} {text line name : Text}
    (hlegal : isLegal config text = true) (hline : line ∈ text.splitOn '\n')
    (hname : quotedInclude line = some name) (hplain : plainSpelling line = true) :
    name ∈ config.allowedReferences := by
  obtain ⟨hfree, before, after, htext, hbefore⟩ := exists_of_mem_splitOn hline
  obtain ⟨lead, rest, hlead, hquote, heq⟩ := plain_directive hname hplain
  have hbreak : '\n' ∉ name := by
    intro hmem
    apply hfree
    rw [heq]
    simp [hmem]
  have hsource : text =
      (before ++ lead) ++ ("#include \"".toList ++ (name ++ '"' :: (rest ++ after))) := by
    rw [htext, heq]
    simp only [List.append_assoc, List.cons_append]
  have hmatch : ([(1, name)] : Match) ∈ finditer includeRegex text := by
    unfold finditer
    rw [hsource]
    apply mem_finditerFrom (q := ⟨rest ++ after, [(1, name)]⟩) (Nat.lt_succ_self _) ?_
      (head?_run_includeRegex hquote hbreak)
    intro u hu hsuffix c t heq hlang
    obtain ⟨hhead, hnone⟩ := lang_includeRegex hlang
    by_contra hlonger
    obtain ⟨e, hc⟩ : ∃ e, c = u ++ e := by
      rcases List.append_eq_append_iff.mp heq with ⟨e, hc, -⟩ | ⟨e, hu, -⟩
      · exact ⟨e, hc⟩
      · rw [hu, List.length_append] at hlonger
        omega
    rcases suffix_cases hsuffix with hblank | ⟨v, hv, hsub, rfl⟩
    · obtain ⟨d, u, rfl⟩ := List.exists_cons_of_ne_nil hu
      rw [hc, List.cons_append, List.head?_cons, Option.some.injEq] at hhead
      have hd := hlead d (hblank.subset (List.mem_cons_self ..))
      rw [hhead] at hd
      exact absurd hd (by decide)
    · apply hnone
      rw [hc]
      exact List.mem_append_left _ (List.mem_append_left _ (hbefore v hv hsub))
  have hmem := List.all_eq_true.mp hlegal _ hmatch
  simpa [Match.text, Match.group] using hmem

/-! ## Accepted sources -/

section Accepted

variable {E M : Type} {config : HarnessConfig} {d : Deployment E M} {text : Text}

theorem isLegal_of_accepted (hi : d.context.implementation = some text)
    (haccepted : verifyLegalCode config d = .ok (appendDeploymentState d .write)) :
    isLegal config text = true := by
  by_contra hl
  simp only [verifyLegalCode, hi, hl] at haccepted
  cases haccepted

/-- **An accepted source includes only allowed files exactly when its directives in the other
spellings do.** -/
theorem accepted_includes_iff (hi : d.context.implementation = some text)
    (haccepted : verifyLegalCode config d = .ok (appendDeploymentState d .write)) :
    (∀ name ∈ includes text, name ∈ config.allowedReferences) ↔
      ∀ name ∈ otherIncludes text, name ∈ config.allowedReferences := by
  have hlegal := isLegal_of_accepted hi haccepted
  constructor
  · intro h name hname
    obtain ⟨line, hline, heq⟩ := List.mem_filterMap.mp hname
    exact h name (List.mem_filterMap.mpr ⟨line, List.mem_of_mem_filter hline, heq⟩)
  · intro h name hname
    obtain ⟨line, hline, heq⟩ := List.mem_filterMap.mp hname
    by_cases hplain : plainSpelling line = true
    · exact mem_allowed_of_plain hlegal hline heq hplain
    · apply h name
      apply List.mem_filterMap.mpr
      refine ⟨line, List.mem_filter.mpr ⟨hline, ?_⟩, heq⟩
      simpa using hplain

end Accepted

/-- The harness with its three allowed references. -/
def defaultHarness : HarnessConfig where
  executable := "harness".toList
  assemblyPath := "bearssl-0.6/ccopy/v2/deploy/attack.s".toList
  allowedReferences := ["encryption_util.h".toList, "error.h".toList, "context.h".toList]
  timeout := 60

/-- A deployment that is to check a source. -/
def deploymentOf (source : Text) : Deployment Unit Unit where
  context := { DeploymentContext.initial with implementation := some source }
  world := ⟨⟨some [], none, none, none, none, none, none⟩, (), []⟩

theorem verifyLegalCode_deploymentOf {source : Text} (h : isLegal defaultHarness source = true) :
    verifyLegalCode defaultHarness (deploymentOf source) =
      .ok (appendDeploymentState (deploymentOf source) .write) :=
  if_pos h

theorem accepted_includes_iff_context :
    (∀ name ∈ includes "#include \"error.h\"\n#  include \"context.h\"\n".toList,
      name ∈ defaultHarness.allowedReferences) ↔
    ∀ name ∈ otherIncludes "#include \"error.h\"\n#  include \"context.h\"\n".toList,
      name ∈ defaultHarness.allowedReferences :=
  accepted_includes_iff rfl (verifyLegalCode_deploymentOf (by decide))

/-- Without the space in front of the name the filter does not see the directive. -/
theorem timing_not_seen :
    verifyLegalCode defaultHarness (deploymentOf "#include\"timing.h\"\n".toList) =
        .ok (appendDeploymentState (deploymentOf "#include\"timing.h\"\n".toList) .write) ∧
      ¬ ∀ name ∈ includes "#include\"timing.h\"\n".toList,
        name ∈ defaultHarness.allowedReferences := by
  refine ⟨verifyLegalCode_deploymentOf (by decide), ?_⟩
  intro h
  exact absurd (h "timing.h".toList (by decide)) (by decide)

end MicroSampler.Simulation
