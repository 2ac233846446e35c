import MicroSampler.Scripts.PcFinder

/-!
# Listings as they are printed

The lines that the disassembler prints for calls and headers are read as such. In a listing
in which the first function is called once, and the second from its body, the five addresses
come in their roles (`PrintedListing.printed_inRoles`).
-/

namespace MicroSampler.Scripts

open Regex

/-! ## Words and labels -/

/-- The ranges of `\s`. -/
def spaceRanges : List (Char × Char) :=
  [('\t', '\r'), ('\x1c', '\x1f'), (' ', ' '), ('\u0085', '\u0085'), ('\u00a0', '\u00a0'),
    ('\u1680', '\u1680'), ('\u2000', '\u200a'), ('\u2028', '\u2029'), ('\u202f', '\u202f'),
    ('\u205f', '\u205f'), ('\u3000', '\u3000')]

/-- A text of lower-case hexadecimal digits. -/
abbrev HexWord (s : Text) : Prop := Word [('0', '9'), ('a', 'f')] s

/-- A text of the characters of a name. -/
abbrev NameWord (s : Text) : Prop := Word [('a', 'z'), ('0', '9'), ('_', '_')] s

/-- The name of an address in angle brackets, with the blank in front of it. -/
def labelText (name : Text) : Text := " ".toList ++ ("<".toList ++ (name ++ ">".toList))

theorem word_blank : Word spaceRanges " ".toList := ⟨by simp, List.all_eq_true.mp rfl⟩

theorem word_tab : Word spaceRanges "\t".toList := ⟨by simp, List.all_eq_true.mp rfl⟩

/-- A label is taken whole. -/
theorem head?_run_label {name : Text} (hname : NameWord name) (n k : Nat) (s : Text) (g : Match) :
    (run (opt (group n (cat [plus space, lit "<", group k (plus nameChar), lit ">"])))
      ⟨labelText name ++ s, g⟩).head? = some ⟨s, (n, labelText name) :: (k, name) :: g⟩ := by
  apply head?_run_opt
  apply head?_run_group
  have htext : labelText name ++ s =
      " ".toList ++ ("<".toList ++ (name ++ (">".toList ++ s))) := by
    simp only [labelText, List.append_assoc]
  rw [htext]
  refine head?_run_seq_plus word_blank ?_ (head?_run_seq_lit (head?_run_seq_word hname ?_
    (head?_run_seq_lit rfl)))
  · exact stopsAt_cons rfl _
  · exact stopsAt_cons rfl _

/-! ## Calls -/

/-- A call as the disassembler prints it. -/
structure PrintedCall where
  indent : Nat
  pc : Text
  encoding : Text
  pad : Nat
  target : Text
  label : Text
  pc_word : HexWord pc
  encoding_word : HexWord encoding
  target_word : HexWord target
  label_word : NameWord label

namespace PrintedCall

variable (c : PrintedCall)

/-- What stands between the encoding and the mnemonic. -/
def padding : Text := List.replicate c.pad ' ' ++ "\t".toList

def operands : Text := "ra,".toList ++ c.target

/-- The line behind the indentation. -/
def body : Text :=
  c.pc ++ (":".toList ++ ("\t".toList ++ (c.encoding ++ (c.padding ++ ("jal".toList ++
    ("\t".toList ++ (c.operands ++ (labelText c.label ++ "\n".toList))))))))

def line : Text := List.replicate c.indent ' ' ++ c.body

theorem padding_word : Word spaceRanges c.padding := by
  apply word_tab.append
  intro d hd
  rw [List.eq_of_mem_replicate hd]
  decide

theorem operands_word : Word [('a', 'z'), ('0', '9'), (',', ',')] c.operands :=
  (c.target_word.of_within rfl).append (List.all_eq_true.mp rfl)

/-- The instruction that the line shows. -/
def instruction : Disassembled where
  pc := c.pc
  encoding := c.encoding
  opcode := "jal".toList
  operands := c.operands
  func := some c.label

theorem head?_run_body : (run dissasmRegex ⟨c.body, []⟩).head? =
    some ⟨"\n".toList, [(5, labelText c.label), (6, c.label), (4, c.operands),
      (3, "jal".toList), (2, c.encoding), (1, c.pc)]⟩ := by
  have hjal : Word [('a', 'z')] "jal".toList := ⟨by simp, List.all_eq_true.mp rfl⟩
  refine head?_run_seq_word c.pc_word ?_ (head?_run_seq_lit (head?_run_seq_plus word_tab ?_
    (head?_run_seq_word c.encoding_word ?_ (head?_run_seq_plus c.padding_word ?_
      (head?_run_seq_word hjal ?_ (head?_run_seq_plus word_tab ?_
        (head?_run_seq_word c.operands_word ?_ (head?_run_seq
          (head?_run_label c.label_word 5 6 _ _) rfl))))))))
  · exact stopsAt_cons rfl _
  · exact c.encoding_word.stopsAt rfl _
  · exact c.padding_word.stopsAt rfl _
  · exact stopsAt_cons rfl _
  · exact stopsAt_cons rfl _
  · exact c.operands_word.stopsAt rfl _
  · exact stopsAt_cons rfl _

/-- **Calls are read as they are printed.** -/
theorem disassembled_line : disassembled c.line = some c.instruction := by
  have hindent : ∀ u, u ≠ [] → u <:+ List.replicate c.indent ' ' →
      run dissasmRegex ⟨u ++ c.body, []⟩ = [] := by
    intro u hu hsuffix
    obtain ⟨d, u, rfl⟩ := List.exists_cons_of_ne_nil hu
    have hd : d = ' ' := List.eq_of_mem_replicate (hsuffix.subset List.mem_cons_self)
    exact run_seq_word_stop (stopsAt_cons (hd ▸ rfl) _)
  rw [disassembled, line, search_append hindent, search_of_head? c.head?_run_body]
  rfl

theorem target_instruction : c.instruction.target = c.target := by
  have hcomma : ∀ d ∈ c.target.reverse, (d ≠ ',' : Bool) = true := by
    intro d hd
    have hin := c.target_word.inRanges d (List.mem_reverse.mp hd)
    rw [decide_eq_true_eq]
    rintro rfl
    exact absurd hin (by decide)
  have hoperands : c.instruction.operands = "ra,".toList ++ c.target := rfl
  rw [Disassembled.target, hoperands, List.reverse_append, List.takeWhile_append_of_pos hcomma]
  simp

/-- The target of a printed call is what the script takes for it. -/
theorem jmpAddr_operands : jmpAddr c.instruction.operands = some c.instruction.target := by
  have hsearch : search jmpAddrRegex c.operands = some [(1, c.target)] := by
    have hstop : StopsAt [('0', '9'), ('a', 'f')] [] := fun _ hd => nomatch hd
    have hrun : (run jmpAddrRegex ⟨"ra,".toList ++ (c.target ++ []), []⟩).head? =
        some ⟨[], [(1, c.target)]⟩ :=
      head?_run_seq_lit (head?_run_seq_word c.target_word hstop rfl)
    rw [List.append_nil] at hrun
    exact search_of_head? hrun
  rw [c.target_instruction, jmpAddr, show c.instruction.operands = c.operands from rfl, hsearch]
  rfl

end PrintedCall

/-! ## Headers -/

/-- The header of a function as the disassembler prints it. -/
def headerLine (addr name : Text) : Text :=
  addr ++ (labelText name ++ (":".toList ++ "\n".toList))

theorem isHeader_headerLine {addr name : Text} (haddr : HexWord addr) :
    IsHeader name (headerLine addr name) := by
  refine ⟨addr, ['\n'], haddr.ne_nil, fun c hc => isHexDigit_of_inRanges (haddr.inRanges c hc),
    Or.inr rfl, ?_⟩
  simp [headerLine, labelText]

/-- In an instruction a blank and an encoding follow the colon. -/
theorem exists_colon_of_lang {w : Text} (h : Lang dissasmRegex w) :
    ∃ pc rest, w = pc ++ ':' :: rest ∧ 1 < rest.length := by
  cases h with
  | @seq _ _ pc _ hpc h =>
  cases h with
  | seq hcolon h =>
  cases h with
  | @seq _ _ blank _ hblank h =>
  cases h with
  | @seq _ _ encoding rest hencoding h =>
  have hne := List.length_pos_iff.mpr (inRanges_of_lang_plus hblank).1
  cases hencoding with
  | group hencoding =>
  have hne' := List.length_pos_iff.mpr (inRanges_of_lang_plus hencoding).1
  refine ⟨pc, blank ++ (encoding ++ rest), by rw [lang_lit hcolon]; rfl, ?_⟩
  rw [List.length_append, List.length_append]
  omega

theorem disassembled_headerLine {addr name : Text} (haddr : HexWord addr) (hname : NameWord name) :
    disassembled (headerLine addr name) = none := by
  have hsearch : search dissasmRegex (headerLine addr name) = none := by
    rw [← Option.not_isSome_iff_eq_none, Option.isSome_iff_exists]
    rintro ⟨m, hm⟩
    obtain ⟨before, w, after, hline, hlang⟩ := exists_lang_of_search hm
    obtain ⟨pc, rest, rfl, hrest⟩ := exists_colon_of_lang hlang
    -- the only colon of a header is at its end
    have hfront : ':' ∉ addr ++ labelText name := by
      rw [labelText, List.mem_append, List.mem_append, List.mem_append, List.mem_append]
      rintro (hc | hc | hc | hc | hc)
      · exact absurd (haddr.inRanges _ hc) (by decide)
      · exact absurd hc (by decide)
      · exact absurd hc (by decide)
      · exact absurd (hname.inRanges _ hc) (by decide)
      · exact absurd hc (by decide)
    have heq : (addr ++ labelText name) ++ ':' :: "\n".toList =
        (before ++ pc) ++ ':' :: (rest ++ after) := by
      rw [headerLine] at hline
      simpa using hline
    obtain ⟨-, -, hend⟩ := (List.append_cons_inj_of_notMem hfront (by decide)).mp heq
    have hlength := congrArg List.length hend
    rw [List.length_append] at hlength
    have hone : "\n".toList.length = 1 := rfl
    omega
  rw [disassembled, hsearch]
  rfl

theorem fname_headerLine {addr name : Text} (haddr : HexWord addr) (hname : NameWord name) :
    fname (headerLine addr name) = some name := by
  have hrun : (run funcDefRegex ⟨headerLine addr name, []⟩).head? =
      some ⟨"\n".toList, [(2, labelText name), (3, name), (1, addr)]⟩ := by
    refine head?_run_seq_word haddr ?_ (head?_run_seq (head?_run_label hname 2 3 _ _)
      (head?_run_seq_lit rfl))
    exact stopsAt_cons rfl _
  rw [fname, search_of_head? hrun]
  rfl

/-- **Headers are recognised as they are printed.** -/
theorem isFuncdef_headerLine {addr name : Text} (haddr : HexWord addr) (hname : NameWord name) :
    isFuncdef name (headerLine addr name) = true := by
  simp [isFuncdef, disassembled_headerLine haddr hname, fname_headerLine haddr hname]

theorem PrintedCall.callOf_line (c : PrintedCall) (h : c.encoding ≠ markerEncoding)
    (func : Text) :
    callOf func c.line = if c.label = func then some c.instruction else none := by
  rw [callOf_of_some c.disassembled_line]
  by_cases hlabel : c.label = func
  · rw [if_pos hlabel]
    exact if_pos ⟨h, rfl, congrArg some hlabel⟩
  · rw [if_neg hlabel]
    exact if_neg fun hi => hlabel (Option.some.inj hi.2.2)

theorem PrintedCall.isFuncdef_line (c : PrintedCall) (func : Text) :
    isFuncdef func c.line = false := by
  simp [isFuncdef, c.disassembled_line]

/-! ## The listings the script is written for -/

/-- Behind the marker the first function is called once. Its body comes later in the listing,
with a call of the second function in it. -/
structure PrintedListing (q : PcQuery) where
  before : List Text
  call : PrintedCall
  between : List Text
  addr : Text
  body : List Text
  inner : PrintedCall
  after : List Text
  marker : markerReached q before = true
  funcs_ne : q.func1 ≠ q.func2
  call_label : call.label = q.func1
  call_encoding : call.encoding ≠ markerEncoding
  inner_label : inner.label = q.func2
  inner_encoding : inner.encoding ≠ markerEncoding
  addr_word : HexWord addr
  no_calls : callSites q before = []
  no_more_calls : ∀ line ∈ between ++ body, callOf q.func1 line = none
  no_headers : ∀ line ∈ before ++ between, isFuncdef q.func1 line = false
  no_inner_calls : ∀ line ∈ body, callOf q.func2 line = none
  no_inner_headers : ∀ line ∈ body, ∀ name, ¬ IsHeader name line

namespace PrintedListing

variable {q : PcQuery} (l : PrintedListing q)

def header : Text := headerLine l.addr q.func1

/-- The lines in front of the header of the first function. -/
def front : List Text := l.before ++ l.call.line :: l.between

def lines : List Text := (l.front ++ l.header :: l.body) ++ l.inner.line :: l.after

theorem func1_word (l : PrintedListing q) : NameWord q.func1 := l.call_label ▸ l.call.label_word

theorem callOf_header (func : Text) : callOf func l.header = none := by
  rw [callOf, header, disassembled_headerLine l.addr_word l.func1_word, Option.filter_none]

theorem funcdefReached_of_prefix {a b : List Text} (h : l.front = a ++ b) :
    funcdefReached q a = false := by
  rw [funcdefReached, List.any_eq_false]
  intro line hline
  have hfront : line ∈ l.front := h ▸ List.mem_append_left b hline
  rw [front, List.mem_append, List.mem_cons, or_left_comm, ← List.mem_append] at hfront
  rw [Bool.not_eq_true]
  rcases hfront with rfl | hother
  · exact l.call.isFuncdef_line q.func1
  · exact l.no_headers line hother

theorem callSites_eq : callSites q (l.front ++ l.header :: l.body) = [l.call.pc] := by
  have hnone : ∀ line ∈ l.between ++ l.header :: l.body,
      (callOf q.func1 line).map Disassembled.pc = none := by
    intro line hline
    rw [Option.map_eq_none_iff]
    rw [List.mem_append, List.mem_cons, or_left_comm, ← List.mem_append] at hline
    rcases hline with rfl | hother
    · exact l.callOf_header q.func1
    · exact l.no_more_calls line hother
  have hcall : (callOf q.func1 l.call.line).map Disassembled.pc = some l.call.pc := by
    rw [l.call.callOf_line l.call_encoding, if_pos l.call_label]
    rfl
  rw [front, List.append_assoc, callSites_append l.marker, l.no_calls, List.cons_append,
    List.nil_append, List.filterMap_cons, hcall, List.filterMap_eq_nil_iff.mpr hnone]

/-- The call in the body is the one that ends the loop. -/
theorem foundCall : FoundCall q l.lines (l.front ++ l.header :: l.body) l.inner.line l.after
    l.inner.instruction where
  split := rfl
  sees := by
    refine ⟨?_, ?_, ?_, l.funcs_ne⟩
    · have hmarker := l.marker
      rw [markerReached, Bool.or_eq_true] at hmarker
      simp only [stateAfter, markerReached, front, List.any_append, Bool.or_eq_true]
      tauto
    · have hheader : isFuncdef q.func1 l.header = true :=
        isFuncdef_headerLine l.addr_word l.func1_word
      simp [stateAfter, funcdefReached, hheader]
    · rw [l.inner.callOf_line l.inner_encoding, if_pos l.inner_label]
  first := by
    rintro a line b j heq ⟨-, hreached, hcall, -⟩
    rcases List.append_eq_append_iff.mp heq with ⟨c, rfl, hrest⟩ | ⟨c, hfront, -⟩
    · cases c with
      | nil =>
        have hfront := l.funcdefReached_of_prefix (List.append_nil l.front).symm
        rw [List.append_nil, stateAfter, hfront] at hreached
        cases hreached
      | cons x c =>
        have hbody : line ∈ l.body := by
          rw [List.cons_append] at hrest
          rw [(List.cons.inj hrest).2]
          exact List.mem_append_right c List.mem_cons_self
        rw [l.no_inner_calls line hbody] at hcall
        cases hcall
    · rw [stateAfter, l.funcdefReached_of_prefix hfront] at hreached
      cases hreached

/-- **The five addresses** of such a listing. -/
theorem pcFinder_lines : pcFinder q l.lines = some
    ([l.call.pc, addFour l.call.pc, l.inner.pc, l.inner.target, addFour l.inner.pc].map
      ("0x00000".toList ++ ·)) := by
  rw [pcFinder_of_foundCall l.foundCall, l.callSites_eq, l.inner.jmpAddr_operands,
    l.inner.target_instruction]
  rfl

theorem inBody : InBody q.func1 (l.front ++ l.header :: l.body) :=
  ⟨l.front, l.header, l.body, rfl, isHeader_headerLine l.addr_word, l.no_inner_headers⟩

/-- They are in their roles. -/
theorem printed_inRoles : ∃ addresses, pcFinder q l.lines = some addresses ∧
    InRoles q l.lines (l.front ++ l.header :: l.body) l.inner.instruction addresses := by
  refine l.foundCall.printed_inRoles ?_ l.inBody l.inner.jmpAddr_operands
  rw [l.callSites_eq]
  rfl

end PrintedListing

end MicroSampler.Scripts
