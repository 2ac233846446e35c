import MicroSampler.Library.Regex
import MicroSampler.Scripts.Microarchitecture

/-!
# Patterns of the trace

The regular expressions of `Parser.py` and the order in which a line is tried against
them. The first expression that matches anywhere in the line decides its kind.
-/

namespace MicroSampler.Scripts

open Regex

/-! ## Character classes -/

/-- `[0-9]` -/
def digit : Regex := .set [('0', '9')]

/-- `[0-9 ]` -/
def digitBlank : Regex := .set [('0', '9'), (' ', ' ')]

/-- `[0-9a-f]` -/
def hexDigit : Regex := .set [('0', '9'), ('a', 'f')]

/-- `[0-9a-fx]` -/
def hexX : Regex := .set [('0', '9'), ('a', 'f'), ('x', 'x')]

/-- `\s` -/
def space : Regex :=
  .set [('\t', '\r'), ('\x1c', '\x1f'), (' ', ' '), ('\u0085', '\u0085'), ('\u00a0', '\u00a0'),
    ('\u1680', '\u1680'), ('\u2000', '\u200a'), ('\u2028', '\u2029'), ('\u202f', '\u202f'),
    ('\u205f', '\u205f'), ('\u3000', '\u3000')]

/-- `[BHT ]` -/
def pointer : Regex := oneOf "BHT "

/-- `[TF-]` -/
def flag : Regex := oneOf "TF-"

/-- `[V-]` -/
def validity : Regex := oneOf "V-"

/-- `\(d:[fCX-] p[0-9 ]+, bm:[0-9a-f ]+ sdt:[ 0-9]+\)` -/
def robDebug : Regex :=
  cat [lit "(d:", oneOf "fCX-", lit " p", plus digitBlank, lit ", bm:",
    plus (.set [('0', '9'), ('a', 'f'), (' ', ' ')]), lit " sdt:", plus digitBlank, lit ")"]

/-- `\[SN:([ 0-9]+)\]` with its group number. -/
def seqnumField (n : Nat) : Regex := cat [lit "[SN:", group n (plus digitBlank), lit "]"]

/-! ## The expressions -/

def cycleRegex : Regex := cat [lit "Cycle=", star space, group 1 (plus digit)]

def loadQueueEntry : Regex :=
  cat [lit "LoadQueueEntry[", group 1 (plus digitBlank), lit "]: PC:", group 2 (plus hexX),
    lit " (", group 3 pointer, lit ") Address:", group 4 (plus hexX),
    lit " (", group 5 validity, lit "), TLBMiss:", group 6 flag,
    lit ", Uncacheable:", group 7 (plus flag), lit ", Executed:", group 8 (plus flag),
    lit ", Ignored:", group 9 (plus flag), lit ", Succeeded:", group 10 (plus flag),
    lit ", OrderFail:", group 11 (plus flag), lit ", Observed:", group 12 (plus flag),
    lit ", STList:", group 13 (plus hexX), lit ", STIdx:", group 14 (plus hexX),
    lit ", STForwValid:", group 15 flag, lit ", STForwIdx:", group 16 (plus hexX),
    lit " ", seqnumField 17]

def storeQueueEntry : Regex :=
  cat [lit "StoreQueueEntry[", group 1 (plus digitBlank), lit "]: PC:", group 2 (plus hexX),
    lit " (", group 3 pointer, lit ")(", group 4 (.alt (char 'C') space),
    lit ")(", group 5 (.alt (char 'E') space), lit ") Address:", group 6 (plus hexX),
    lit " (", group 7 validity, lit "), TLBMiss:", flag, lit ", Data:", group 8 (plus hexX),
    lit ", Committed:", flag, lit ", Succeeded:", flag, lit " ", seqnumField 9]

def robEntry : Regex :=
  cat [lit "ROB[", group 1 (plus digitBlank), lit "]: ", group 2 pointer, lit " ",
    group 3 (oneOf "P "), lit " ((", group 4 (.alt (char 'V') (char '-')), lit ")(",
    group 5 (.alt (char 'B') (char '-')), lit ")(", group 6 (.alt (char 'U') (char '-')),
    lit ") ", group 7 (plus hexX), lit " [",
    -- the class `[a-z.0-9 ,()+-_]` contains the range from `+` to `_`
    group 8 (plus (.set [('a', 'z'), ('.', '.'), ('0', '9'), (' ', ' '), (',', ','), ('(', ')'),
      ('+', '_')])),
    lit "] ", group 9 (.alt (char 'E') (char '-')), lit " ", robDebug, lit " ", seqnumField 10]

/-- `(\[[a-z0-9\.\, \(\)\+\-\_]+\])` with its group number. -/
def bracketedInst (n : Nat) : Regex :=
  group n (cat [lit "[", plus (.set [('a', 'z'), ('0', '9'), ('.', '.'), (',', ','), (' ', ' '),
    ('(', ')'), ('+', '+'), ('-', '-'), ('_', '_')]), lit "]"])

def robEntry2 : Regex :=
  cat [lit "ROB[", group 1 (plus digitBlank), lit "]: ", group 2 pointer, lit " ",
    group 3 (oneOf "P "), lit " ((", group 4 (plus validity), lit ")(",
    group 5 (plus (oneOf "B-")), lit ")(", plus (oneOf "U-"), lit ") ", group 6 (plus hexX),
    lit " ", group 7 (plus hexX), lit " ", bracketedInst 8, bracketedInst 9, lit " ",
    oneOf "E|-", lit ",", oneOf "E|-", lit " ", plus digitBlank, lit ",", plus digitBlank,
    lit " ", robDebug, lit " ", seqnumField 10, robDebug, lit " ", seqnumField 11]

def lineFillBufferEntry : Regex :=
  cat [lit "LineBufferEntry [", group 1 (plus digitBlank), lit "] = ", group 2 (plus hexDigit)]

def hwprefetchEntry : Regex :=
  cat [lit "Prefetcher: Address:", group 1 (plus hexX), lit " Data:", group 2 (plus hexX)]

def timestamp : Regex :=
  cat [group 1 (plus digit), lit "; O3PipeView:", group 2 (plus (.set [('a', 'z')])), lit ":",
    plus space, group 3 (plus digit),
    opt (group 4 (cat [lit ":", group 5 (plus hexX), lit ":", plus digit, lit ":", plus space,
      group 6 (plus digit), lit ":",
      group 7 (plus (.alt space (.set [('a', 'z'), ('0', '9'), ('-', '-'), ('.', '.'),
        ('(', ')'), (',', ','), ('+', '+')])))]))]

def fpRegisterFileEntry : Regex :=
  cat [lit "FPRF[", group 1 (plus digitBlank), lit "]: ", group 2 (plus hexDigit)]

def intRegisterFileEntry : Regex :=
  cat [lit "IPRF[", group 1 (plus digitBlank), lit "]: ", group 2 (plus hexDigit)]

def exeStatus : Regex :=
  cat [group 1 (plus (.set [('a', 'z'), ('A', 'Z')])), group 2 (.alt (lit "Req") (lit "Res")),
    lit ": PC:", group 3 (plus hexX)]

def dtlbStatus : Regex :=
  cat [lit "DTLBMiss: PC:", group 1 (plus hexX), lit " PhysicalAddress:", group 2 (plus hexX)]

def dcacheStatus : Regex :=
  cat [lit "DCacheResp: PC:", group 1 (plus hexX), lit "  Data:", group 2 (plus hexX),
    lit "  (", group 3 validity, lit ")  IsHella:  (", validity, lit ")  Miss:  (", validity,
    lit ")   Release:   (", validity, lit ")"]

/-! ## Kinds of lines -/

inductive LineKind
  | cycle | loadQueue | storeQueue | rob | rob2 | lineFillBuffer | hwprefetch | intRegisterFile
  | fpRegisterFile | exe | dtlb | dcache
  deriving DecidableEq, Repr

/-- The expressions in the order of the `elif` chain. -/
def chain : List (LineKind × Regex) :=
  [(.cycle, cycleRegex), (.loadQueue, loadQueueEntry), (.storeQueue, storeQueueEntry),
    (.rob, robEntry), (.rob2, robEntry2), (.lineFillBuffer, lineFillBufferEntry),
    (.hwprefetch, hwprefetchEntry), (.intRegisterFile, intRegisterFileEntry),
    (.fpRegisterFile, fpRegisterFileEntry), (.exe, exeStatus), (.dtlb, dtlbStatus),
    (.dcache, dcacheStatus)]

/-- The branch of the chain a line enters, with the match. -/
def classify (line : Text) : Option (LineKind × Match) :=
  chain.findSome? fun e => (search e.2 line).map fun m => (e.1, m)

/-- The groups a branch reads. -/
def LineKind.groupsRead : LineKind → List Nat
  | .cycle => [1]
  | .loadQueue => [1, 17, 2, 3, 4, 5]
  | .storeQueue => [1, 9, 2, 3, 6, 7, 8]
  | .rob => [1, 10, 2, 7, 8, 4]
  | .rob2 => [1, 2, 6, 7, 8, 9, 10, 11]
  | .lineFillBuffer => [1, 2]
  | .hwprefetch => [1, 2]
  | .intRegisterFile => [1, 2]
  | .fpRegisterFile => [1, 2]
  | .exe => [1, 2, 3]
  | .dtlb => [1, 2]
  | .dcache => [1, 2, 3]

theorem classify_eq_some {line : Text} {kind : LineKind} {m : Match}
    (h : classify line = some (kind, m)) : ∃ r, (kind, r) ∈ chain ∧ search r line = some m := by
  obtain ⟨⟨kind', r⟩, hmem, hr⟩ := List.exists_of_findSome?_eq_some h
  obtain ⟨m', hm', heq⟩ := Option.map_eq_some_iff.mp hr
  cases heq
  exact ⟨r, hmem, hm'⟩

/-- No group that a branch reads is missing from its match. -/
theorem groupsRead_present {line : Text} {kind : LineKind} {m : Match}
    (h : classify line = some (kind, m)) {n : Nat} (hn : n ∈ kind.groupsRead) :
    m.group n = some (m.text n) := by
  obtain ⟨r, hmem, hr⟩ := classify_eq_some h
  have hall : ∀ e ∈ chain, ∀ n ∈ e.1.groupsRead, captures n e.2 = true := by decide
  exact search_captures hr (hall _ hmem n hn)

end MicroSampler.Scripts
