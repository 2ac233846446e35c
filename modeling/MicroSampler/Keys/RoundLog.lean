import MicroSampler.BearSSL.Exponentiation
import MicroSampler.Keys.Truncation
import MicroSampler.Library.Regex

/-!
# The rounds in the printed log

With `DEBUG` the test programs print the control bit of every round, and `simout_binkey.py`
collects the bits from the output and compares them with the labels of `stats.py`.

* `exponent_str2hex`: the exponent is the number that the digits of the key text write.
* `roundKey_mainPrints`: the collected bits are the bits of that number, once for each call.
* `simoutBinkey_iff`: the comparison succeeds exactly where `stats.py` took the digits of the
  processed bytes, and it fails for a program that warms up.
-/

namespace MicroSampler.Keys

open Radix Python Loops BearSSL Regex

/-! ## What is printed -/

/-- `"====== Round %u, e=%u  ======"`. -/
def roundText (k : Nat) (ctl : Word) : List Char :=
  "====== Round ".toList ++ (Nat.toDigits 10 k ++ (", e=".toList ++
    (Nat.toDigits 10 ctl.toNat ++ "  ======".toList)))

/-- The line that a round prints. -/
def roundLine (k : Nat) (ctl : Word) : List Char := roundText k ctl ++ ['\n']

/-- The output of one call of `br_i31_modpow` or of one of its versions. -/
def modpowPrints (e : List Byte) (elen : Nat) : Option (List Char) := do
  let lines ← (List.range (modpowRounds elen)).mapM fun k => do
    let ctl ← modpowCtl e elen k
    pure (roundLine k ctl)
  pure lines.flatten

/-- The output of `main` in `v1.c`, `v2.c` and `v3.c` (one call) and of the programs that
warm up (two calls). -/
def mainPrints (calls : Nat) (key : List Char) (iters : Nat) (keyval : List Byte) :
    Option (List Char) := do
  let e ← str2hex key keyval 128
  let rounds ← modpowPrints e (keyBytes iters)
  pure ("iters: ".toList ++ Nat.toDigits 10 iters ++ ['\n'] ++ "private key: ".toList ++
    e.flatMap (fun b => Nat.toDigits 16 b.toNat) ++ ['\n'] ++
      ((List.replicate calls rounds).flatten ++ " done.\n".toList))

/-! ## What is collected -/

/-- `====== Round [0-9]+, e=([0|1])  ======`. -/
def roundPattern : Regex :=
  .seq (lit "====== Round ") (.seq (plus (.set [('0', '9')])) (.seq (lit ", e=")
    (.seq (.group 1 (oneOf "0|1")) (lit "  ======"))))

/-- The variable `key` of `simout_binkey.py`. -/
def roundKey (simout : List Char) : List Char :=
  (finditer roundPattern simout).flatMap fun m => m.text 1

/-- The assertion of `simout_binkey.py`. -/
def simoutBinkey (simout : List Char) (keybin : List Label) : Bool :=
  roundKey simout = keybin.flatten

/-! ## The bits of the exponent -/

theorem ofMsb_msbBits {v : Nat} (hv : v < 16) : ofMsb (msbBits 4 v) = v := by
  have h : ∀ v, v < 16 → ofMsb (msbBits 4 v) = v := by decide
  exact h v hv

/-- Two digits are the bits of a byte. -/
theorem ofMsb_keyBits_pair {c d : Char} {v w : Nat} (hv : hexVal? c = some v)
    (hw : hexVal? d = some w) : ofMsb (keyBits [c, d]) = 16 * v + w := by
  have hbits : keyBits [c, d] = msbBits 4 v ++ msbBits 4 w := by simp [keyBits, hv, hw]
  rw [hbits, ofMsb_append, ofMsb_msbBits (hexVal?_lt hv), ofMsb_msbBits (hexVal?_lt hw),
    length_msbBits]
  omega

theorem exponent_succ {e : List Byte} {n : Nat} {b : Byte} (hb : e[n]? = some b) :
    exponent e (n + 1) = 256 * exponent e n + b.toNat := by
  rw [exponent, List.take_add_one, hb, Option.toList_some, List.reverse_append,
    List.reverse_singleton, List.singleton_append, List.map_cons, Nat.ofDigits_cons, exponent]
  omega

/-- **The exponent is written in the key text**: its bytes are the decoded digit pairs, the
first of them the most significant. -/
theorem exponent_str2hex {keyhex tail : List Char} (hhex : ∀ c ∈ keyhex, IsHexDigit c)
    {keyval e : List Byte} (hkeyval : keyval.length = 128)
    (he : str2hex (keyhex ++ tail) keyval 128 = some e) {n : Nat} (hn : n ≤ 128)
    (hlen : 2 * n ≤ keyhex.length) : exponent e n = ofMsb (keyBits (keyhex.take (2 * n))) := by
  induction n with
  | zero => rfl
  | succ n ih =>
    have hget : ∀ i < 2 * (n + 1), ∃ c v, keyhex[i]? = some c ∧ hexVal? c = some v := by
      intro i hi
      have hlt : i < keyhex.length := by omega
      obtain ⟨v, hv⟩ := Option.isSome_iff_exists.mp (hhex _ (List.getElem_mem hlt))
      exact ⟨keyhex[i], v, List.getElem?_eq_getElem hlt, hv⟩
    obtain ⟨c, v, hc, hv⟩ := hget (2 * n) (by omega)
    obtain ⟨d, w, hd, hw⟩ := hget (2 * n + 1) (by omega)
    have hbyte := str2hex_byte n he (by omega) (by omega)
      ((List.getElem?_append_left (by omega)).trans hc)
      ((List.getElem?_append_left (by omega)).trans hd) hv hw
    have hvalue : (BitVec.ofNat 8 (16 * v + w)).toNat = 16 * v + w := by
      have hv16 := hexVal?_lt hv
      have hw16 := hexVal?_lt hw
      rw [BitVec.toNat_ofNat]
      omega
    have htake : keyhex.take (2 * (n + 1)) = keyhex.take (2 * n) ++ [c, d] := by
      rw [Nat.mul_succ, List.take_add_one, List.take_add_one, hc, hd, List.append_assoc]
      rfl
    rw [exponent_succ hbyte, hvalue, ih (by omega) (by omega), htake, keyBits_append,
      ofMsb_append, ofMsb_keyBits_pair hv hw, length_keyBits, List.length_cons,
      List.length_singleton]
    omega

/-- The control bits of a call in the order of the rounds. -/
def ctlBits (e : List Byte) (elen : Nat) : List Bool :=
  (List.range (8 * elen)).map fun k => (exponent e elen).testBit k

/-- The rounds read the bits of the key text backwards. -/
theorem ctlBits_str2hex {keyhex tail : List Char} (hhex : ∀ c ∈ keyhex, IsHexDigit c)
    {keyval e : List Byte} (hkeyval : keyval.length = 128)
    (he : str2hex (keyhex ++ tail) keyval 128 = some e) {n : Nat} (hn : n ≤ 128)
    (hlen : 2 * n ≤ keyhex.length) :
    ctlBits e n = ((keyBits keyhex).take (4 * (2 * n))).reverse := by
  have hsize : ((keyBits keyhex).take (4 * (2 * n))).length = 8 * n := by
    rw [List.length_take, length_keyBits]
    omega
  rw [ctlBits, exponent_str2hex hhex hkeyval he hn hlen, keyBits_take]
  apply List.ext_getElem?
  intro k
  by_cases hk : k < 8 * n
  · have hbit := testBit_ofMsb (hsize.symm ▸ hk : k < ((keyBits keyhex).take (4 * (2 * n))).length)
    rw [List.getElem?_map, List.getElem?_range hk, Option.map_some,
      List.getElem?_reverse (by omega), hbit]
  · rw [List.getElem?_eq_none (by simpa using hk), List.getElem?_eq_none (by simp; omega)]

/-! ## Collecting the bits -/

/-- The groups that the loop of `simout_binkey.py` appends. -/
def collected (found : List Match) : List Char := found.flatMap fun m => m.text 1

/-- The characters that a stretch of output adds to the key, whatever stands behind it. -/
def Adds (t bits : List Char) : Prop :=
  ∀ s n, (t ++ s).length < n → ∃ n', s.length < n' ∧
    collected (finditerFrom roundPattern n (t ++ s)) =
      bits ++ collected (finditerFrom roundPattern n' s)

theorem Adds.append {t t' bits bits' : List Char} (h : Adds t bits) (h' : Adds t' bits') :
    Adds (t ++ t') (bits ++ bits') := by
  intro s n hn
  rw [List.append_assoc] at hn ⊢
  obtain ⟨m, hm, hfront⟩ := h (t' ++ s) n hn
  obtain ⟨k, hk, hback⟩ := h' s m hm
  exact ⟨k, hk, by rw [hfront, hback, List.append_assoc]⟩

theorem Adds.flatten {ts : List (List Char × List Char)} (h : ∀ t ∈ ts, Adds t.1 t.2) :
    Adds (ts.map Prod.fst).flatten (ts.map Prod.snd).flatten := by
  induction ts with
  | nil => exact fun s n hn => ⟨n, hn, rfl⟩
  | cons t ts ih =>
    rw [List.map_cons, List.map_cons, List.flatten_cons, List.flatten_cons]
    exact (h t List.mem_cons_self).append (ih fun t' ht' => h t' (List.mem_cons_of_mem t ht'))

/-- Output without an equals sign adds nothing. -/
theorem adds_nothing {t : List Char} (h : '=' ∉ t) : Adds t [] := by
  intro s n hn
  rw [List.length_append] at hn
  obtain ⟨n, rfl⟩ : ∃ k, n = k + t.length := ⟨n - t.length, by omega⟩
  have hnone : ∀ u, u ≠ [] → u <:+ t → run roundPattern ⟨u ++ s, []⟩ = [] := by
    intro u hne hsuffix
    have hstart : ¬ "====== Round ".toList <+: u ++ s := by
      intro hstarts
      obtain ⟨c, u, rfl⟩ := List.exists_cons_of_ne_nil hne
      have hfirst : "====== Round ".toList = '=' :: "===== Round ".toList := by decide
      rw [hfirst, List.cons_append, List.cons_prefix_cons] at hstarts
      exact h (hsuffix.subset (hstarts.1 ▸ List.mem_cons_self))
    rw [roundPattern, run, run_lit_eq_nil hstart, List.flatMap_nil]
  exact ⟨n, by omega, by rw [finditerFrom_copy hnone, List.nil_append]⟩

theorem toDigits_flag (b : Bool) : Nat.toDigits 10 (flag (b = true)).toNat = [bitChar b] := by
  cases b <;> decide

theorem word_digits (k : Nat) : Regex.Word [('0', '9')] (Nat.toDigits 10 k) := by
  refine ⟨Nat.toDigits_ne_nil, fun c hc => ?_⟩
  have hdigit := Nat.isDigit_of_mem_toDigits (by decide) (by decide) hc
  simp only [Char.isDigit, Bool.and_eq_true, decide_eq_true_eq] at hdigit
  simpa [inRanges, UInt32.le_iff_toNat_le, Char.le_def] using hdigit

theorem head?_run_roundPattern (k : Nat) (b : Bool) (s : List Char) :
    (run roundPattern ⟨roundText k (flag (b = true)) ++ s, []⟩).head? =
      some ⟨s, [(1, [bitChar b])]⟩ := by
  have hbit : (run (oneOf "0|1") ⟨[bitChar b] ++ ("  ======".toList ++ s), []⟩).head? =
      some ⟨"  ======".toList ++ s, []⟩ := by
    cases b <;> rfl
  have hclose : (run (lit "  ======") ⟨"  ======".toList ++ s, [(1, [bitChar b])]⟩).head? =
      some ⟨s, [(1, [bitChar b])]⟩ := by
    rw [run_lit]
    rfl
  have hcomma : ", e=".toList = ',' :: " e=".toList := by decide
  have hstops : StopsAt [('0', '9')]
      (", e=".toList ++ ([bitChar b] ++ ("  ======".toList ++ s))) := by
    rw [hcomma, List.cons_append]
    exact stopsAt_cons (by decide) _
  have hrest := head?_run_seq_lit (t := ", e=") (head?_run_seq (head?_run_group hbit) hclose)
  unfold roundText
  simp only [toDigits_flag, List.append_assoc]
  exact head?_run_seq_lit (head?_run_seq_plus (word_digits k) hstops hrest)

/-- A line of the loop adds its control bit. -/
theorem adds_roundLine (k : Nat) (b : Bool) :
    Adds (roundLine k (flag (b = true))) [bitChar b] := by
  have hadds : Adds (roundText k (flag (b = true))) [bitChar b] := by
    intro s n hn
    obtain ⟨n, rfl⟩ : ∃ i, n = i + 1 := ⟨n - 1, by omega⟩
    have hne : roundText k (flag (b = true)) ≠ [] :=
      List.append_ne_nil_of_left_ne_nil (by decide) _
    have hpos := List.length_pos_iff.mpr hne
    rw [List.length_append] at hn
    exact ⟨n, by omega, by rw [finditerFrom_match hne (head?_run_roundPattern k b s)]; rfl⟩
  exact hadds.append (adds_nothing (by decide))

/-- The output of a call adds its control bits. -/
theorem adds_modpowPrints {e : List Byte} {elen : Nat} (he : elen ≤ e.length)
    (hsmall : elen ≤ 128) :
    ∃ rounds, modpowPrints e elen = some rounds ∧
      Adds rounds ((ctlBits e elen).map bitChar) := by
  have hlines : ∀ k ∈ List.range (8 * elen), (do
      let ctl ← modpowCtl e elen k
      pure (roundLine k ctl)) =
        some (roundLine k (flag ((exponent e elen).testBit k = true))) := by
    intro k hk
    have hlt : k < elen * 8 := by
      have := List.mem_range.mp hk
      omega
    rw [modpowCtl_eq he hlt]
    rfl
  refine ⟨((List.range (8 * elen)).map fun k =>
    roundLine k (flag ((exponent e elen).testBit k = true))).flatten, ?_, ?_⟩
  · rw [modpowPrints, Keys.modpowRounds_eq hsmall, mapM_eq_some_map hlines]
    rfl
  · have hadds := @Adds.flatten ((List.range (8 * elen)).map fun k =>
        (roundLine k (flag ((exponent e elen).testBit k = true)),
          [bitChar ((exponent e elen).testBit k)])) (by
      intro t ht
      obtain ⟨k, -, rfl⟩ := List.mem_map.mp ht
      exact adds_roundLine k _)
    rw [List.map_map, List.map_map] at hadds
    have hbits : (((List.range (8 * elen)).map fun k =>
        [bitChar ((exponent e elen).testBit k)])).flatten = (ctlBits e elen).map bitChar := by
      rw [ctlBits, List.map_map, ← List.flatMap_def, List.map_eq_flatMap]
      rfl
    rw [← hbits]
    exact hadds

theorem adds_replicate {t bits : List Char} (h : Adds t bits) (calls : Nat) :
    Adds (List.replicate calls t).flatten (List.replicate calls bits).flatten := by
  have hadds := @Adds.flatten (List.replicate calls (t, bits)) (by
    intro u hu
    rw [List.eq_of_mem_replicate hu]
    exact h)
  rwa [List.map_replicate, List.map_replicate] at hadds

theorem Adds.roundKey {t bits : List Char} (h : Adds t bits) : roundKey t = bits := by
  obtain ⟨n, hn, hkey⟩ := h [] (t.length + 1) (by simp)
  obtain ⟨n, rfl⟩ : ∃ i, n = i + 1 := ⟨n - 1, by simp at hn; omega⟩
  rw [List.append_nil] at hkey
  have hend : collected (finditerFrom roundPattern (n + 1) []) = [] := rfl
  rw [hend, List.append_nil] at hkey
  exact hkey

/-! ## The assertion -/

theorem not_mem_toDigits (n : Nat) : '=' ∉ Nat.toDigits 16 n := fun h =>
  absurd (isHexDigit_of_mem_toDigits h) (by decide)

/-- Apart from the rounds a program prints no equals sign. -/
theorem roundKey_mainPrints {calls : Nat} {key : List Char} {iters : Nat} {keyval : List Byte}
    (hkeyval : keyval.length = 128) (hblen : keyBytes iters ≤ 128) {prints : List Char}
    (hrun : mainPrints calls key iters keyval = some prints) {before after : List Char}
    (hbefore : '=' ∉ before) (hafter : '=' ∉ after) :
    ∃ e, str2hex key keyval 128 = some e ∧ roundKey (before ++ prints ++ after) =
      (List.replicate calls ((ctlBits e (keyBytes iters)).map bitChar)).flatten := by
  obtain ⟨e, he, hrest⟩ := Option.bind_eq_some_iff.mp hrun
  have hlen : e.length = 128 := (length_of_str2hex he).trans hkeyval
  obtain ⟨rounds, hrounds, hadds⟩ := adds_modpowPrints (hlen ▸ hblen) hblen
  rw [hrounds, Option.bind_eq_bind, Option.bind_some, Option.pure_def] at hrest
  cases hrest
  refine ⟨e, he, ?_⟩
  have hdec : '=' ∉ Nat.toDigits 10 iters := by
    intro hmem
    have := Nat.isDigit_of_mem_toDigits (by decide) (by decide) hmem
    exact absurd this (by decide)
  have hbytes : '=' ∉ e.flatMap fun b => Nat.toDigits 16 b.toNat := by
    intro hmem
    obtain ⟨b, -, hb⟩ := List.mem_flatMap.mp hmem
    exact not_mem_toDigits _ hb
  have hfront := adds_nothing (t := before ++ ("iters: ".toList ++ Nat.toDigits 10 iters ++
      ['\n'] ++ "private key: ".toList ++ e.flatMap (fun b => Nat.toDigits 16 b.toNat) ++
      ['\n'])) (by
    simp only [List.mem_append, not_or]
    refine ⟨hbefore, ⟨⟨⟨⟨by decide, hdec⟩, by decide⟩, by decide⟩, hbytes⟩, by decide⟩)
  have hback := adds_nothing (t := " done.\n".toList ++ after) (by
    simp only [List.mem_append, not_or]
    exact ⟨by decide, hafter⟩)
  have hwhole := (hfront.append ((adds_replicate hadds calls).append hback)).roundKey
  rw [List.nil_append, List.append_nil] at hwhole
  rw [← hwhole]
  congr 1
  simp only [List.append_assoc]

theorem flatten_slices {α : Type} {step : Nat} {s : List α} {pieces : List (List α)}
    (h : slices step s = some pieces) : pieces.flatten = s := by
  have hcover : ∀ m (s : List α), s.length ≤ m * step →
      ((List.range m).map fun j => (s.drop (j * step)).take step).flatten = s := by
    intro m
    induction m with
    | zero =>
      intro s hs
      have hnil : s = [] := List.length_eq_zero_iff.mp (by omega)
      rw [hnil]
      rfl
    | succ m ih =>
      intro s hs
      have hrest := ih (s.drop step) (by rw [List.length_drop, Nat.succ_mul] at *; omega)
      simp only [List.drop_drop] at hrest
      have hshift : ∀ j, (j + 1) * step = step + j * step := by
        intro j
        rw [Nat.succ_mul, Nat.add_comm]
      rw [List.range_succ_eq_map, List.map_cons, List.map_map, List.flatten_cons, Nat.zero_mul,
        List.drop_zero]
      simp only [Function.comp_def, Nat.succ_eq_add_one, hshift]
      rw [hrest, List.take_append_drop]
  unfold slices at h
  split at h
  · cases h
  · cases h
    apply hcover
    have hstep : 0 < step := by omega
    have := Nat.div_add_mod (s.length + step - 1) step
    have := Nat.mod_lt (s.length + step - 1) hstep
    rw [Nat.mul_comm]
    omega

/-- Joined, the labels are the characters read from the key text, whatever the window is. -/
theorem decodeKey_window {keyhex : List Char} (hhex : ∀ c ∈ keyhex, IsHexDigit c)
    {loops window : Nat} (hwindow : 0 < window)
    (htaken : digitsTaken (loops * window) ≤ keyhex.length) :
    ∃ key, decodeKey keyhex loops window = some key ∧ key.flatten =
      (((keyBits keyhex).take (4 * digitsTaken (loops * window))).reverse).map bitChar := by
  have hone := decodeKey_one hhex htaken
  unfold decodeKey at hone ⊢
  rw [Nat.mul_one] at hone
  obtain ⟨digits, hdigits, hlabels⟩ := Option.bind_eq_some_iff.mp hone
  rw [hdigits, Option.bind_eq_bind, Option.bind_some]
  have htext : digits.flatten.reverse =
      (((keyBits keyhex).take (4 * digitsTaken (loops * window))).reverse).map bitChar := by
    rw [← flatten_slices hlabels, ← List.flatMap_def, List.map_eq_flatMap]
  obtain ⟨pieces, hpieces⟩ : ∃ pieces, slices window digits.flatten.reverse = some pieces := by
    rw [slices, if_neg (by omega)]
    exact ⟨_, rfl⟩
  exact ⟨pieces, hpieces, (flatten_slices hpieces).trans htext⟩

/-- **The check of the labels.** The log of one call passes exactly when `stats.py` took two
digits for each processed byte; the log of a program that warms up holds every bit twice, and
it does not pass for the same labels. -/
theorem simoutBinkey_iff {keyhex tail : List Char} (hhex : ∀ c ∈ keyhex, IsHexDigit c)
    {iters : Nat} (hblen : keyBytes iters ≤ 128)
    (hlen : 2 * keyBytes iters ≤ keyhex.length) {keyval : List Byte}
    (hkeyval : keyval.length = 128) {once twice : List Char}
    (honce : mainPrints 1 (keyhex ++ nul :: tail) iters keyval = some once)
    (htwice : mainPrints 2 (keyhex ++ nul :: tail) iters keyval = some twice)
    {before after : List Char} (hbefore : '=' ∉ before) (hafter : '=' ∉ after)
    {loops window : Nat} (hwindow : 0 < window)
    (htaken : digitsTaken (loops * window) ≤ keyhex.length) :
    ∃ key, decodeKey keyhex loops window = some key ∧
      (simoutBinkey (before ++ once ++ after) key = true ↔
        digitsTaken (loops * window) = 2 * keyBytes iters) ∧
      (simoutBinkey (before ++ twice ++ after) key = true →
        digitsTaken (loops * window) = 4 * keyBytes iters) := by
  obtain ⟨key, hkey, hflat⟩ := decodeKey_window hhex hwindow htaken
  obtain ⟨e, he, hkey1⟩ := roundKey_mainPrints hkeyval hblen honce hbefore hafter
  obtain ⟨e', he', hkey2⟩ := roundKey_mainPrints hkeyval hblen htwice hbefore hafter
  obtain rfl : e = e' := Option.some.inj (he.symm.trans he')
  have hbits := ctlBits_str2hex hhex hkeyval he hblen hlen
  have hsize : ∀ n ≤ keyhex.length, ((keyBits keyhex).take (4 * n)).length = 4 * n := by
    intro n hn
    rw [List.length_take, length_keyBits]
    omega
  refine ⟨key, hkey, ?_, ?_⟩
  · rw [simoutBinkey, decide_eq_true_iff, hkey1, hflat, hbits, List.replicate_one,
      List.flatten_singleton]
    constructor
    · intro hsame
      have := congrArg List.length hsame
      rw [List.length_map, List.length_map, List.length_reverse, List.length_reverse,
        hsize _ hlen, hsize _ htaken] at this
      omega
    · intro hsame
      rw [hsame]
  · rw [simoutBinkey, decide_eq_true_iff, hkey2, hflat, hbits]
    intro hsame
    have := congrArg List.length hsame
    simp only [List.replicate_succ, List.replicate_zero, List.flatten_cons, List.flatten_nil,
      List.append_nil, List.length_append, List.length_map, List.length_reverse, hsize _ hlen,
      hsize _ htaken] at this
    omega

/-- A key text with a pair of digits for each byte is decoded, and the program runs. -/
theorem exists_mainPrints (calls : Nat) {keyhex : List Char} (hhex : ∀ c ∈ keyhex, IsHexDigit c)
    (hlen : keyhex.length = 2 * 128) (tail : List Char) {iters : Nat}
    (hblen : keyBytes iters ≤ 128) {keyval : List Byte} (hkeyval : keyval.length = 128) :
    ∃ prints, mainPrints calls (keyhex ++ tail) iters keyval = some prints := by
  obtain ⟨e, he⟩ := Option.isSome_iff_exists.mp (str2hex_isSome tail keyval hlen hhex)
  have hsize : e.length = 128 := (length_of_str2hex he).trans hkeyval
  obtain ⟨rounds, hrounds, -⟩ := adds_modpowPrints (hsize ▸ hblen) hblen
  rw [mainPrints, he, Option.bind_eq_bind, Option.bind_some, hrounds]
  exact ⟨_, rfl⟩

/-- A key of 256 equal digits and one processed byte. -/
theorem simoutBinkey_iff_a : ∃ once twice key,
    mainPrints 1 (List.replicate 256 'a' ++ [nul]) 8 (List.replicate 128 0) = some once ∧
      mainPrints 2 (List.replicate 256 'a' ++ [nul]) 8 (List.replicate 128 0) = some twice ∧
      decodeKey (List.replicate 256 'a') 8 1 = some key ∧
      simoutBinkey ("boot\n".toList ++ once ++ []) key = true ∧
      simoutBinkey ("boot\n".toList ++ twice ++ []) key = false := by
  have hhex : ∀ c ∈ List.replicate 256 'a', IsHexDigit c := by
    intro c hc
    rw [List.eq_of_mem_replicate hc]
    decide
  have hblen : keyBytes 8 ≤ 128 := by decide
  have hkeyval : (List.replicate 128 (0 : Byte)).length = 128 := List.length_replicate
  obtain ⟨once, honce⟩ := exists_mainPrints 1 hhex List.length_replicate [nul] hblen hkeyval
  obtain ⟨twice, htwice⟩ := exists_mainPrints 2 hhex List.length_replicate [nul] hblen hkeyval
  have htaken : digitsTaken (8 * 1) = 2 := by decide
  obtain ⟨key, hkey, hpass, hfail⟩ := simoutBinkey_iff hhex hblen
    (by rw [List.length_replicate]; decide) hkeyval honce htwice
    (by decide : '=' ∉ "boot\n".toList) (by decide : '=' ∉ ([] : List Char))
    (by decide : 0 < 1) (by rw [htaken, List.length_replicate]; decide)
  refine ⟨once, twice, key, honce, htwice, hkey, hpass.mpr (by decide), ?_⟩
  rw [Bool.eq_false_iff]
  intro htrue
  exact absurd (hfail htrue) (by decide)

end MicroSampler.Keys
