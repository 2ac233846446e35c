import MicroSampler.BearSSL.HexInput
import MicroSampler.Library.Python
import Mathlib.Data.List.GetD

/-!
# Key texts and the harness that reads them

`generate_keys.py` assembles a string of 1024 binary digits and emits
`hex(int(bits, 2))[2:]`. The test programs decode the text they are given by
`str2hex(argv[1], keyval, 128)`. The integer in between forgets leading zeros, so the
text has 256 digits only when the first group of four bits is not zero: then the bytes
spell the assembled string, and in every other case they do not.
-/

namespace MicroSampler.Keys

open Radix Python BearSSL

/-! ## The generator -/

def population : List Char := ['0', '1']

def grp5 : List (List Char) :=
  ["10010", "11001", "01000", "10000", "11100", "00011", "10100", "10111", "00001",
    "10101"].map String.toList

def grp4 : List (List Char) :=
  ["1001", "1010", "1111", "0000", "1100", "0011", "0101", "1000", "0100",
    "0010"].map String.toList

/-- `keyval += '0' * rem`; a negative `rem` adds nothing. -/
def padZeros (size : Nat) (keyval : List Char) : List Char :=
  keyval ++ List.replicate (size - keyval.length) '0'

/-- The string built by `write_weighted_key_bits` from its 1024 random samples. -/
def writeWeightedKeyBits (samples : List Char) : List Char := samples

/-- The string built by `write_key_windows` from the windows it chose. -/
def writeKeyWindows (groups : List (List Char)) (grpChoice : List Nat) : List Char :=
  padZeros 1024 (grpChoice.flatMap fun win => groups.getD win [])

/-- The string built by `write_strided_bitpattern`. -/
def writeStridedBitpattern (bits : List Char) (keysize : Nat) : List Char :=
  padZeros keysize (List.replicate (keysize / bits.length) bits).flatten

/-- The text written for an assembled string: `hex(int(keyval, 2))[2:]`. -/
def keyText (keyval : List Char) : Option (List Char) :=
  (intBinary keyval).map fun n => (hex n).drop 2

/-- The strings the three generators assemble, each for the arguments the command line
passes: every sequence of samples, every choice of `int(1024 / groupsize)` windows and
every non-empty pattern of binary digits. -/
inductive Assembled : List Char → Prop
  | weighted (samples : List Char) (hsize : samples.length = 1024)
      (hpop : ∀ c ∈ samples, c ∈ population) : Assembled (writeWeightedKeyBits samples)
  | window4 (choice : List Nat) (hsize : choice.length = 1024 / 4)
      (hchoice : ∀ win ∈ choice, win < grp4.length) :
      Assembled (writeKeyWindows grp4 choice)
  | window5 (choice : List Nat) (hsize : choice.length = 1024 / 5)
      (hchoice : ∀ win ∈ choice, win < grp5.length) :
      Assembled (writeKeyWindows grp5 choice)
  | strided (bits : List Char) (hne : bits ≠ []) (hpop : ∀ c ∈ bits, c ∈ population) :
      Assembled (writeStridedBitpattern bits 1024)

theorem length_padZeros {size : Nat} {keyval : List Char} (h : keyval.length ≤ size) :
    (padZeros size keyval).length = size := by
  rw [padZeros, List.length_append, List.length_replicate]
  omega

theorem mem_padZeros {size : Nat} {keyval : List Char} {c : Char}
    (hkey : ∀ c ∈ keyval, c = '0' ∨ c = '1') (hc : c ∈ padZeros size keyval) :
    c = '0' ∨ c = '1' := by
  rcases List.mem_append.mp hc with hc | hc
  · exact hkey c hc
  · exact Or.inl (List.eq_of_mem_replicate hc)

theorem population_binary {c : Char} (hc : c ∈ population) : c = '0' ∨ c = '1' := by
  simpa [population] using hc

/-- Windows of one width, chosen from a table of binary groups, fill at most 1024
places with binary digits. -/
theorem writeKeyWindows_shape {groups : List (List Char)} {w : Nat}
    (hw : ∀ g ∈ groups, g.length = w ∧ ∀ c ∈ g, c = '0' ∨ c = '1') {choice : List Nat}
    (hchoice : ∀ win ∈ choice, win < groups.length) (hsize : w * choice.length ≤ 1024) :
    (writeKeyWindows groups choice).length = 1024 ∧
      ∀ c ∈ writeKeyWindows groups choice, c = '0' ∨ c = '1' := by
  have hget : ∀ win ∈ choice, groups.getD win [] ∈ groups := by
    intro win hwin
    rw [List.getD_eq_getElem _ _ (hchoice win hwin)]
    exact List.getElem_mem _
  refine ⟨length_padZeros ?_, fun c hc => mem_padZeros ?_ hc⟩
  · rw [length_flatMap_block (w := w) fun win hwin => (hw _ (hget win hwin)).1]
    exact hsize
  · intro c hc
    obtain ⟨win, hwin, hc⟩ := List.mem_flatMap.mp hc
    exact (hw _ (hget win hwin)).2 c hc

theorem Assembled.shape {keyval : List Char} (h : Assembled keyval) :
    keyval.length = 1024 ∧ ∀ c ∈ keyval, c = '0' ∨ c = '1' := by
  cases h with
  | weighted samples hsize hpop => exact ⟨hsize, fun c hc => population_binary (hpop c hc)⟩
  | window4 choice hsize hchoice =>
    refine writeKeyWindows_shape (w := 4) (fun g hg => ⟨?_, fun c hc => ?_⟩) hchoice (by omega)
    · have hlength : ∀ g ∈ grp4, g.length = 4 := List.all_iff_forall_prop.mp (by decide)
      exact hlength g hg
    · have hbinary : ∀ c ∈ grp4.flatten, c = '0' ∨ c = '1' :=
        List.all_iff_forall_prop.mp (by decide)
      exact hbinary c (List.mem_flatten.mpr ⟨g, hg, hc⟩)
  | window5 choice hsize hchoice =>
    refine writeKeyWindows_shape (w := 5) (fun g hg => ⟨?_, fun c hc => ?_⟩) hchoice (by omega)
    · have hlength : ∀ g ∈ grp5, g.length = 5 := List.all_iff_forall_prop.mp (by decide)
      exact hlength g hg
    · have hbinary : ∀ c ∈ grp5.flatten, c = '0' ∨ c = '1' :=
        List.all_iff_forall_prop.mp (by decide)
      exact hbinary c (List.mem_flatten.mpr ⟨g, hg, hc⟩)
  | strided bits hne hpop =>
    refine ⟨length_padZeros ?_, fun c hc => mem_padZeros ?_ hc⟩
    · rw [List.length_flatten, List.map_replicate, List.sum_replicate_nat]
      exact Nat.div_mul_le_self 1024 bits.length
    · intro c hc
      obtain ⟨s, hs, hc⟩ := List.mem_flatten.mp hc
      rw [List.eq_of_mem_replicate hs] at hc
      exact population_binary (hpop c hc)

/-! ## Decoding the text -/

/-- The most-significant-bit-first concatenation of a byte buffer. -/
def bitString (buffer : List Byte) : List Char :=
  buffer.flatMap fun b => (msbBits 8 b.toNat).map bitChar

/-- The text of an assembled string decodes, inside the text, to that string. -/
def DecodesBack (keyval : List Char) (buffer : List Byte) : Prop :=
  ∃ text out, keyText keyval = some text ∧
    str2hex (text ++ [nul]) buffer 128 = some out ∧ bitString out = keyval

theorem keyText_bits {bits : List Bool} (h : bits ≠ []) :
    keyText (bits.map bitChar) = some (Nat.toDigits 16 (ofMsb bits)) := by
  rw [keyText, intBinary_map_bitChar h]
  rfl

theorem length_bitString (buffer : List Byte) : (bitString buffer).length = 8 * buffer.length :=
  length_flatMap_block (by simp)

theorem getElem?_bitString (buffer : List Byte) (j : Nat) {i : Nat} (hi : i < 8) :
    (bitString buffer)[8 * j + i]? =
      buffer[j]?.map fun b => bitChar (b.toNat.testBit (7 - i)) := by
  rw [bitString, getElem?_flatMap_block (w := 8) (by simp) hi]
  cases buffer[j]? with
  | none => rfl
  | some b =>
    rw [Option.bind_some, List.getElem?_map, getElem?_msbBits _ hi]
    rfl

theorem toNat_ofNat_digits {v w : Nat} (hv : v < 16) (hw : w < 16) :
    (BitVec.ofNat 8 (16 * v + w)).toNat = 16 * v + w := by
  rw [BitVec.toNat_ofNat]
  omega

/-- The first digit fixes the first four bits of the decoded string, so a text that
starts with a non-zero digit never decodes to a string that starts with four zeros. -/
theorem bitString_high_bit {buffer out : List Byte} {text : List Char} {d w n : Nat} {c : Char}
    {rest : List Char} (hout : str2hex (text ++ [nul]) buffer (n + 1) = some out)
    (hbuf : n + 1 ≤ buffer.length) (htext : text = Nat.digitChar d :: c :: rest)
    (hd : 0 < d) (hd16 : d < 16) (hw : hexVal? c = some w) :
    '1' ∈ (bitString out).take 4 := by
  have hbyte : out[0]? = some (BitVec.ofNat 8 (16 * d + w)) := by
    have hfirst : (text ++ [nul])[2 * 0]? = some (Nat.digitChar d) := by simp [htext]
    have hsecond : (text ++ [nul])[2 * 0 + 1]? = some c := by simp [htext]
    exact str2hex_byte 0 hout (by omega) (by omega) hfirst hsecond (hexVal?_digitChar hd16) hw
  obtain ⟨i, hi, hbit⟩ := exists_testBit_of_pos (w := 4) hd hd16
  have hval : (16 * d + w).testBit (4 + i) = true := by
    have := Nat.testBit_two_pow_mul_add d (show w < 2 ^ 4 from hexVal?_lt hw) (4 + i)
    rw [if_neg (by omega), Nat.add_sub_cancel_left, hbit] at this
    exact this
  have hget : (bitString out)[3 - i]? = some '1' := by
    have := getElem?_bitString out 0 (i := 3 - i) (by omega)
    rw [hbyte] at this
    simp only [Option.map_some, toNat_ofNat_digits hd16 (hexVal?_lt hw),
      show 7 - (3 - i) = 4 + i by omega, hval, Nat.mul_zero, Nat.zero_add] at this
    exact this
  rw [List.mem_iff_getElem?]
  exact ⟨3 - i, by rw [List.getElem?_take_of_lt (by omega), hget]⟩

/-- Bit `i` of group `q` is bit `3 - i` of its digit. -/
theorem getElem?_flatten_digit {groups : List (List Bool)} (hgroups : ∀ g ∈ groups, g.length = 4)
    {q i : Nat} (hq : q < groups.length) (hi : i < 4) :
    groups.flatten[4 * q + i]? = some ((ofMsb groups[q]).testBit (3 - i)) := by
  have hlen := hgroups _ (List.getElem_mem hq)
  rw [getElem?_flatten_block hgroups _ hi, List.getElem?_eq_getElem hq, Option.bind_some,
    ← testBit_ofMsb (by omega), hlen]
  congr 1
  omega

/-- A group of four bits as the value of its digit: pairs of digits are the bytes of the
concatenated groups. -/
theorem bitString_of_groups {buffer out : List Byte} {groups : List (List Bool)} {n : Nat}
    (hgroups : ∀ g ∈ groups, g.length = 4) (hn : groups.length = 2 * n)
    (hbuf : buffer.length = n)
    (hout : str2hex (groups.map (fun g => (ofMsb g).digitChar) ++ [nul]) buffer n = some out) :
    bitString out = groups.flatten.map bitChar := by
  have hlenout : out.length = n := (length_of_str2hex hout).trans hbuf
  have hsmall : ∀ g ∈ groups, ofMsb g < 16 := by
    intro g hg
    have := ofMsb_lt g
    rwa [hgroups g hg] at this
  have hflat : groups.flatten.length = 4 * groups.length := length_flatten_block hgroups
  apply List.ext_getElem?
  intro k
  by_cases hk : k < 8 * n
  · -- position `k` lies in byte `k / 8`, bit `k % 8`: the digit is `2 * (k / 8) + k % 8 / 4`
    obtain ⟨j, i, hi, rfl⟩ : ∃ j i, i < 8 ∧ k = 8 * j + i :=
      ⟨k / 8, k % 8, Nat.mod_lt _ (by decide), by omega⟩
    have hj : j < n := by omega
    obtain ⟨hi0, hi1⟩ : 2 * j < groups.length ∧ 2 * j + 1 < groups.length := by omega
    have hv := hsmall _ (List.getElem_mem hi0)
    have hw := hsmall _ (List.getElem_mem hi1)
    have hdigit : ∀ q, (hq : q < groups.length) →
        (groups.map (fun g => (ofMsb g).digitChar) ++ [nul])[q]? =
          some (ofMsb groups[q]).digitChar := by
      intro q hq
      rw [List.getElem?_append_left (by simpa using hq), List.getElem?_map,
        List.getElem?_eq_getElem hq]
      rfl
    have hbyte := str2hex_byte j hout hj (by omega) (hdigit _ hi0) (hdigit _ hi1)
      (hexVal?_digitChar hv) (hexVal?_digitChar hw)
    rw [getElem?_bitString out j hi, hbyte, Option.map_some, toNat_ofNat_digits hv hw]
    have hbits := Nat.testBit_two_pow_mul_add (ofMsb groups[2 * j])
      (show ofMsb groups[2 * j + 1] < 2 ^ 4 from hw) (7 - i)
    rw [show 16 * ofMsb groups[2 * j] + ofMsb groups[2 * j + 1] =
      2 ^ 4 * ofMsb groups[2 * j] + ofMsb groups[2 * j + 1] by rfl, hbits]
    rw [List.getElem?_map]
    by_cases hhalf : i < 4
    · rw [show 8 * j + i = 4 * (2 * j) + i by omega, getElem?_flatten_digit hgroups hi0 hhalf,
        if_neg (by omega), Option.map_some, show 7 - i - 4 = 3 - i by omega]
    · rw [show 8 * j + i = 4 * (2 * j + 1) + (i - 4) by omega,
        getElem?_flatten_digit hgroups hi1 (by omega), if_pos (by omega), Option.map_some,
        show 7 - i = 3 - (i - 4) by omega]
  · rw [List.getElem?_eq_none (by rw [length_bitString]; omega),
      List.getElem?_eq_none (by rw [List.length_map, hflat]; omega)]

/-- A text of one digit is too short: the second conversion starts past the terminator. -/
theorem str2hex_single {d : Char} {buffer : List Byte} {n : Nat} (hn : 1 < n) :
    str2hex ([d] ++ [nul]) buffer n = none := by
  obtain ⟨n, rfl⟩ : ∃ k, n = k + 2 := ⟨n - 2, by omega⟩
  unfold str2hex str2hexFrom str2hexFrom
  rcases sscanf2hhx ([d] ++ [nul]) with _ | _ | b
  all_goals simp [sscanf2hhx]

/-- What is decoded back has a bit set in its first group of four. -/
theorem mem_take_of_decodesBack {bits : List Bool} (hne : bits ≠ []) {buffer : List Byte}
    (hbuf : buffer.length = 128) (hback : DecodesBack (bits.map bitChar) buffer) :
    '1' ∈ (bits.map bitChar).take 4 := by
  obtain ⟨text, out, htext, hout, hback⟩ := hback
  rw [keyText_bits hne, Option.some.injEq] at htext
  rw [← hback]
  cases text with
  | nil => exact absurd htext Nat.toDigits_ne_nil
  | cons d rest =>
    cases rest with
    | nil =>
      rw [str2hex_single (by decide)] at hout
      cases hout
    | cons c rest =>
      have hpos : 0 < ofMsb bits := by
        by_contra hzero
        rw [show ofMsb bits = 0 by omega, Nat.toDigits_zero] at htext
        simp at htext
      obtain ⟨v, tail, hdigits, hv, hv16⟩ := toDigits_head_ne_zero (by decide : 1 < 16) hpos
      have hw : IsHexDigit c :=
        isHexDigit_of_mem_toDigits (n := ofMsb bits) (by simp [htext])
      obtain ⟨w, hw⟩ := Option.isSome_iff_exists.mp hw
      rw [htext] at hdigits
      have hhead : d :: c :: rest = v.digitChar :: c :: rest := by
        rw [(List.cons.inj hdigits).1]
      exact bitString_high_bit (n := 127) hout (by omega) hhead hv hv16 hw

/-- With a bit set in the first group every group has its digit. -/
theorem decodesBack_of_mem_take {bits : List Bool} (hbits : bits.length = 1024)
    {buffer : List Byte} (hbuf : buffer.length = 128)
    (htop : '1' ∈ (bits.map bitChar).take 4) : DecodesBack (bits.map bitChar) buffer := by
  have hne : bits ≠ [] := by
    intro hnil
    rw [hnil] at hbits
    cases hbits
  obtain ⟨groups, hgroups, hlen, hflat⟩ := exists_blocks (w := 4) (m := 256) hbits
  cases groups with
  | nil => simp at hlen
  | cons head groups =>
    have hhead : head.length = 4 := hgroups head (by simp)
    have hnz : true ∈ head := by
      rw [← hflat, List.flatten_cons, ← List.map_take, List.take_left' hhead] at htop
      obtain ⟨b, hb, hone⟩ := List.mem_map.mp htop
      rwa [← (bitChar_eq_one b).mp hone]
    have hdigits : Nat.toDigits 16 (ofMsb bits) =
        (head :: groups).map fun g => (ofMsb g).digitChar := by
      rw [← hflat, List.flatten_cons,
        toDigits_ofMsb_blocks hhead hnz fun g hg => hgroups g (by simp [hg])]
    have hsize : (Nat.toDigits 16 (ofMsb bits)).length = 2 * 128 := by
      rw [hdigits, List.length_map, hlen]
    obtain ⟨out, hout⟩ := Option.isSome_iff_exists.mp
      (str2hex_isSome [nul] buffer hsize fun c hc => isHexDigit_of_mem_toDigits hc)
    refine ⟨_, out, keyText_bits hne, hout, ?_⟩
    rw [hdigits] at hout
    rw [bitString_of_groups hgroups hlen hbuf hout, hflat]

/-- A string of 1024 bits is decoded back exactly when its first group of four is not
zero. -/
theorem decodesBack_bits_iff {bits : List Bool} (hbits : bits.length = 1024)
    {buffer : List Byte} (hbuf : buffer.length = 128) :
    DecodesBack (bits.map bitChar) buffer ↔ '1' ∈ (bits.map bitChar).take 4 := by
  have hne : bits ≠ [] := by
    intro hnil
    rw [hnil] at hbits
    cases hbits
  constructor
  · exact mem_take_of_decodesBack hne hbuf
  · exact decodesBack_of_mem_take hbits hbuf

theorem decodesBack_iff_of_binary {keyval : List Char} (hlen : keyval.length = 1024)
    (hbin : ∀ c ∈ keyval, c = '0' ∨ c = '1') {buffer : List Byte}
    (hbuf : buffer.length = 128) : DecodesBack keyval buffer ↔ '1' ∈ keyval.take 4 := by
  obtain ⟨bits, rfl⟩ := exists_bits_of_binary hbin
  exact decodesBack_bits_iff (by simpa using hlen) hbuf

/-- **Key texts.** The text of an assembled string is decoded inside the text to that
string exactly when one of its first four bits is set. -/
theorem assembled_decodesBack_iff {keyval : List Char} (h : Assembled keyval)
    {buffer : List Byte} (hbuf : buffer.length = 128) :
    DecodesBack keyval buffer ↔ '1' ∈ keyval.take 4 :=
  decodesBack_iff_of_binary h.shape.1 h.shape.2 hbuf

theorem assembled_decodesBack_ones :
    DecodesBack (writeStridedBitpattern ['1'] 1024) (List.replicate 128 0) ↔
      '1' ∈ (writeStridedBitpattern ['1'] 1024).take 4 :=
  assembled_decodesBack_iff
    (.strided ['1'] (by decide) (List.all_iff_forall_prop.mp (by decide))) List.length_replicate

/-- The text of the pattern `00001` has 255 digits. It is not decoded to the pattern. -/
theorem strided_00001_not_decoded :
    Assembled (writeStridedBitpattern ['0', '0', '0', '0', '1'] 1024) ∧
      ¬ DecodesBack (writeStridedBitpattern ['0', '0', '0', '0', '1'] 1024)
        (List.replicate 128 0) := by
  have h : Assembled (writeStridedBitpattern ['0', '0', '0', '0', '1'] 1024) :=
    .strided _ (by decide) (List.all_iff_forall_prop.mp (by decide))
  refine ⟨h, ?_⟩
  rw [decodesBack_iff_of_binary h.shape.1 h.shape.2 List.length_replicate]
  decide +kernel

end MicroSampler.Keys
