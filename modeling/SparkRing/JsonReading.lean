import Mathlib.Data.Nat.Digits.Lemmas
import SparkRing.JsonText

/-!
# Canonical texts are read back

A canonical string, number, list or object is read as the value it was written from,
whatever may follow it in a list or an object. So an object of such values is read back
from its bytes, its names in their order.
-/

namespace SparkRing.JsonText

open OrderedDict
open List (append_assoc append_nil cons_append cons_ne_nil length_append length_cons map_cons mem_append mem_cons mem_cons_of_mem mem_cons_self mem_singleton nil_append)
open Bool (and_eq_true)

variable {p : Interpreter} {characters input rest : Text} {c n fuel depth : ℕ} {value : Json}

/-- A character of ASCII other than zero. -/
def Ascii (c : ℕ) : Prop := 0 < c ∧ c < 128

theorem hexValue_hexDigit (h : n < 16) : hexValue (hexDigit n) = some n := by
  unfold hexDigit hexValue
  split
  · rw [if_pos (by omega), Nat.add_sub_cancel]
  · rw [if_neg (by omega), if_pos (by omega), Nat.add_sub_cancel]

theorem ascii_hexDigit (h : n < 16) : Ascii (hexDigit n) := by
  unfold hexDigit Ascii
  split_ifs <;> omega

theorem readHex4_hex4 (h : n < 65536) : readHex4 (hex4 n ++ rest) = some (n, rest) := by
  have ha := hexValue_hexDigit (Nat.mod_lt (n / 4096) (by norm_num : 16 > 0))
  have hb := hexValue_hexDigit (Nat.mod_lt (n / 256) (by norm_num : 16 > 0))
  have hc := hexValue_hexDigit (Nat.mod_lt (n / 16) (by norm_num : 16 > 0))
  have hd := hexValue_hexDigit (Nat.mod_lt n (by norm_num : 16 > 0))
  have hsum : n / 4096 % 16 * 4096 + n / 256 % 16 * 256 + n / 16 % 16 * 16 + n % 16 = n := by omega
  simp only [hex4, cons_append, nil_append, readHex4, ha, hb, hc, hd, Option.bind_eq_bind, Option.bind_some, hsum]

theorem ascii_hex4 : ∀ c ∈ hex4 n, Ascii c := by
  intro c hc
  simp only [hex4, mem_cons, List.not_mem_nil, or_false] at hc
  rcases hc with rfl | rfl | rfl | rfl
  · exact ascii_hexDigit (Nat.mod_lt _ (by norm_num))
  · exact ascii_hexDigit (Nat.mod_lt _ (by norm_num))
  · exact ascii_hexDigit (Nat.mod_lt _ (by norm_num))
  · exact ascii_hexDigit (Nat.mod_lt _ (by norm_num))

/-- An escape letter is read as its character. -/
theorem scanString_letter {letter : ℕ} (h : unescape letter = some c) (hletter : letter ≠ 117) :
    scanString (fuel + 1) (92 :: letter :: rest) = (scanString fuel rest).map fun found => (c :: found.1, found.2) := by
  simp [scanString, scanEscape, hletter, h]

/-- A written character is read back. -/
theorem scanString_escape (hc : Scalar c) :
    scanString (fuel + 1) (escape c ++ rest) = (scanString fuel rest).map fun found => (c :: found.1, found.2) := by
  unfold Scalar at hc
  unfold escape
  split_ifs with h34 h92 h10 h13 h9 h8 h12 hprint hbasic
  · subst h34
    exact scanString_letter rfl (by norm_num)
  · subst h92
    exact scanString_letter rfl (by norm_num)
  · subst h10
    exact scanString_letter rfl (by norm_num)
  · subst h13
    exact scanString_letter rfl (by norm_num)
  · subst h9
    exact scanString_letter rfl (by norm_num)
  · subst h8
    exact scanString_letter rfl (by norm_num)
  · subst h12
    exact scanString_letter rfl (by norm_num)
  · rw [cons_append, nil_append, scanString, if_neg h34, if_neg (by omega), if_neg h92]
  · have hhigh : isHigh c = false := by
      rw [isHigh, Bool.and_eq_false_iff, decide_eq_false_iff_not, decide_eq_false_iff_not]
      omega
    have hread : scanEscape (117 :: hex4 c ++ rest) = some (c, rest) := by
      rw [cons_append, scanEscape, if_pos rfl, readHex4_hex4 hbasic]
      simp only [hhigh, Bool.false_eq_true, if_false]
    rw [cons_append, scanString, if_neg (by norm_num), if_neg (by norm_num), if_pos rfl, hread, Option.bind_some]
  have hfirst : 55296 + (c - 65536) / 1024 < 65536 := by omega
  have hsecond : 56320 + (c - 65536) % 1024 < 65536 := by omega
  have hhigh : isHigh (55296 + (c - 65536) / 1024) = true := by
    rw [isHigh, and_eq_true, decide_eq_true_eq, decide_eq_true_eq]
    omega
  have hlow : isLow (56320 + (c - 65536) % 1024) = true := by
    rw [isLow, and_eq_true, decide_eq_true_eq, decide_eq_true_eq]
    omega
  have hjoin : join (55296 + (c - 65536) / 1024) (56320 + (c - 65536) % 1024) = c := by
    unfold join
    omega
  have hread : scanEscape (117 :: hex4 (55296 + (c - 65536) / 1024) ++
      92 :: 117 :: hex4 (56320 + (c - 65536) % 1024) ++ rest) = some (c, rest) := by
    rw [cons_append, cons_append, append_assoc, scanEscape, if_pos rfl, readHex4_hex4 hfirst]
    simp only [hhigh, if_true, cons_append, scanLow, and_self, readHex4_hex4 hsecond, hlow, hjoin]
  have hcons : 92 :: 117 :: hex4 (55296 + (c - 65536) / 1024) ++ 92 :: 117 :: hex4 (56320 + (c - 65536) % 1024) ++ rest =
      92 :: (117 :: hex4 (55296 + (c - 65536) / 1024) ++ 92 :: 117 :: hex4 (56320 + (c - 65536) % 1024) ++ rest) := rfl
  rw [hcons, scanString, if_neg (by norm_num), if_neg (by norm_num), if_pos rfl, hread, Option.bind_some]

theorem ascii_escape {character : ℕ} (hmem : character ∈ escape c) : Ascii character := by
  have hunit : ∀ n, character ∈ 92 :: 117 :: hex4 n → Ascii character := by
    intro n hn
    rcases mem_cons.mp hn with rfl | hn
    · exact ⟨by norm_num, by norm_num⟩
    rcases mem_cons.mp hn with rfl | hn
    · exact ⟨by norm_num, by norm_num⟩
    · exact ascii_hex4 _ hn
  have hletter : ∀ letter, Ascii letter → character ∈ [92, letter] → Ascii character := by
    intro letter hascii hn
    rcases mem_cons.mp hn with rfl | hn
    · exact ⟨by norm_num, by norm_num⟩
    · rw [mem_singleton.mp hn]
      exact hascii
  unfold escape at hmem
  split_ifs at hmem with h34 h92 h10 h13 h9 h8 h12 hprint hbasic
  · exact hletter 34 ⟨by norm_num, by norm_num⟩ hmem
  · exact hletter 92 ⟨by norm_num, by norm_num⟩ hmem
  · exact hletter 110 ⟨by norm_num, by norm_num⟩ hmem
  · exact hletter 114 ⟨by norm_num, by norm_num⟩ hmem
  · exact hletter 116 ⟨by norm_num, by norm_num⟩ hmem
  · exact hletter 98 ⟨by norm_num, by norm_num⟩ hmem
  · exact hletter 102 ⟨by norm_num, by norm_num⟩ hmem
  · rw [mem_singleton.mp hmem]
    exact ⟨by omega, by omega⟩
  · exact hunit _ hmem
  rcases mem_append.mp hmem with hmem | hmem
  · exact hunit _ hmem
  · exact hunit _ hmem

theorem length_escape_pos : 0 < (escape c).length := by
  unfold escape
  split_ifs <;> exact Nat.succ_pos _

/-- Written characters are read back up to their quotation mark. -/
theorem scanString_escapes (hscalar : ∀ c ∈ characters, Scalar c) (hfuel : characters.length < fuel) :
    scanString fuel (characters.flatMap escape ++ 34 :: rest) = some (characters, rest) := by
  induction characters generalizing fuel with
  | nil =>
    obtain ⟨fuel, rfl⟩ := Nat.exists_eq_add_one_of_ne_zero (Nat.ne_zero_of_lt hfuel)
    rw [List.flatMap_nil, nil_append, scanString, if_pos rfl]
  | cons c characters ih =>
    obtain ⟨fuel, rfl⟩ := Nat.exists_eq_add_one_of_ne_zero (Nat.ne_zero_of_lt hfuel)
    have hrest := ih (fun d hd => hscalar d (mem_cons_of_mem c hd)) (Nat.lt_of_succ_lt_succ hfuel)
    rw [List.flatMap_cons, append_assoc, scanString_escape (hscalar c mem_cons_self), hrest]
    rfl

theorem length_le_length_escapes : characters.length ≤ (characters.flatMap escape).length := by
  induction characters with
  | nil => exact le_rfl
  | cons c characters ih =>
    have hpos : 0 < (escape c).length := length_escape_pos
    rw [List.flatMap_cons, length_append, length_cons]
    omega

/-- A string is read back from behind its quotation mark. -/
theorem scanString_quote (hscalar : ∀ c ∈ characters, Scalar c) :
    scanString (characters.flatMap escape ++ 34 :: rest).length (characters.flatMap escape ++ 34 :: rest) = some (characters, rest) := by
  refine scanString_escapes hscalar ?_
  have hle : characters.length ≤ (characters.flatMap escape).length := length_le_length_escapes
  rw [length_append, length_cons]
  omega

theorem quote_append : quote characters ++ rest = 34 :: (characters.flatMap escape ++ 34 :: rest) := by
  rw [quote, cons_append, cons_append, append_assoc]
  rfl

theorem ascii_quote (h : c ∈ quote characters) : Ascii c := by
  have hmark : Ascii 34 := ⟨by norm_num, by norm_num⟩
  rcases mem_cons.mp h with rfl | h
  · exact hmark
  rcases mem_append.mp h with h | h
  · obtain ⟨character, -, hmem⟩ := List.mem_flatMap.mp h
    exact ascii_escape hmem
  · rw [mem_singleton.mp h]
    exact hmark

/-- What follows a value in a list or an object, or its end. -/
def Stops : Text → Prop
  | [] => True
  | c :: _ => c = 44 ∨ c = 93 ∨ c = 125

/-- A text that is read as a value, whatever follows it. -/
structure Legible (p : Interpreter) (depth : ℕ) (input : Text) (value : Json) : Prop where
  /-- It starts with a character of its own. -/
  head : ∃ c tail, input = c :: tail ∧ isSpace c = false ∧ c ≠ 93
  ascii : ∀ c ∈ input, Ascii c
  /-- It is read. -/
  scans : ∀ fuel rest, 2 * (input ++ rest).length < fuel → Stops rest → scan p fuel depth (input ++ rest) = .ok (value, rest)

theorem scan_str : scan p (fuel + 1) depth (34 :: rest) =
    match scanString rest.length rest with
    | none => .error .malformed
    | some (characters, rest) => .ok (.str characters, rest) := by
  rfl

theorem legible_str (hscalar : ∀ c ∈ characters, Scalar c) : Legible p depth (quote characters) (.str characters) where
  head := ⟨34, characters.flatMap escape ++ [34], rfl, rfl, by norm_num⟩
  ascii := fun _ h => ascii_quote h
  scans := by
    intro fuel rest hfuel _
    obtain ⟨fuel, rfl⟩ := Nat.exists_eq_add_one_of_ne_zero (Nat.ne_zero_of_lt hfuel)
    rw [quote_append, scan_str, scanString_quote hscalar]

theorem isDigit_add (h : n < 10) : isDigit (n + 48) = true := by
  rw [isDigit, and_eq_true, decide_eq_true_eq, decide_eq_true_eq]
  omega

/-- The digits of a number are decimal digits, and the first one of several is not zero. -/
theorem decimal_spec : ∃ c tail, decimal n = c :: tail ∧ isDigit c = true ∧ (∀ d ∈ tail, isDigit d = true) ∧
    (c = 48 → tail = []) ∧ ofDecimal (decimal n) = n := by
  by_cases hzero : n = 0
  · refine ⟨48, [], if_pos hzero, rfl, fun _ h => (nomatch h), fun _ => rfl, ?_⟩
    rw [decimal, if_pos hzero, hzero]
    rfl
  have hdecimal : decimal n = (Nat.digits 10 n).reverse.map (· + 48) := if_neg hzero
  have hne : Nat.digits 10 n ≠ [] := Nat.digits_ne_nil_iff_ne_zero.mpr hzero
  have hdigits : ∀ d ∈ (Nat.digits 10 n).reverse.map (· + 48), isDigit d = true := by
    intro d hd
    obtain ⟨digit, hdigit, rfl⟩ := List.mem_map.mp hd
    exact isDigit_add (Nat.digits_lt_base (by norm_num) (List.mem_reverse.mp hdigit))
  have hvalue : ofDecimal ((Nat.digits 10 n).reverse.map (· + 48)) = n := by
    have hfold : ∀ digits : List ℕ, (digits.reverse.map (· + 48)).foldl (fun n c => n * 10 + (c - 48)) 0 = Nat.ofDigits 10 digits := by
      intro digits
      induction digits with
      | nil => rfl
      | cons digit digits ih =>
        rw [List.reverse_cons, List.map_append, List.foldl_append, ih, Nat.ofDigits_cons, List.map_singleton, List.foldl_cons,
          List.foldl_nil, Nat.add_sub_cancel]
        exact Nat.add_comm _ _ ▸ congrArg (_ + ·) (Nat.mul_comm _ _)
    rw [ofDecimal, hfold, Nat.ofDigits_digits]
  obtain ⟨c, tail, hsplit⟩ : ∃ c tail, (Nat.digits 10 n).reverse = c :: tail :=
    List.exists_cons_of_ne_nil (fun h => hne (List.reverse_eq_nil_iff.mp h))
  have hlead : c ≠ 0 := by
    have hlast := Nat.getLast_digit_ne_zero 10 hzero
    rw [List.getLast_eq_head_reverse] at hlast
    simpa [hsplit] using hlast
  rw [hsplit, map_cons] at hdigits hvalue hdecimal
  refine ⟨c + 48, tail.map (· + 48), hdecimal, hdigits _ mem_cons_self, fun d hd => hdigits d (mem_cons_of_mem _ hd), ?_, ?_⟩
  · intro hfirst
    omega
  · rw [hdecimal]
    exact hvalue

theorem takeWhile_stops (h : Stops rest) : rest.takeWhile isDigit = [] ∧ rest.dropWhile isDigit = rest := by
  cases rest with
  | nil => exact ⟨rfl, rfl⟩
  | cons c rest =>
    have hdigit : isDigit c = false := by
      rcases h with rfl | rfl | rfl
      · rfl
      · rfl
      · rfl
    rw [List.takeWhile_cons, List.dropWhile_cons, hdigit]
    exact ⟨rfl, rfl⟩

theorem scanDigits_append {tail : Text} (hc : isDigit c = true) (htail : ∀ d ∈ tail, isDigit d = true) (hzero : c = 48 → tail = [])
    (hrest : Stops rest) : scanDigits (c :: (tail ++ rest)) = some (c :: tail, rest) := by
  obtain ⟨htake, hdrop⟩ := takeWhile_stops hrest
  by_cases h48 : c = 48
  · rw [scanDigits, if_pos h48, hzero h48, nil_append]
  · rw [scanDigits, if_neg h48, if_pos hc, List.takeWhile_append_of_pos htail, List.dropWhile_append_of_pos htail, htake, hdrop,
      append_nil]

theorem scanFraction_stops (h : Stops rest) : scanFraction rest = ([], rest) := by
  cases rest with
  | nil => rfl
  | cons c rest =>
    have hc : c ≠ 46 := by
      rcases h with rfl | rfl | rfl
      · norm_num
      · norm_num
      · norm_num
    rw [scanFraction, if_neg fun h => hc h.1]

theorem scanExponent_stops (h : Stops rest) : scanExponent rest = ([], rest) := by
  cases rest with
  | nil => rfl
  | cons c rest =>
    have hc : ¬(c = 69 ∨ c = 101) := by
      rcases h with rfl | rfl | rfl
      · norm_num
      · norm_num
      · norm_num
    rw [scanExponent, if_neg fun h => hc h.1]

/-- No word starts with a digit. -/
theorem scanScalar_digit (hc : isDigit c = true) : scanScalar p (c :: rest) = scanUnsigned p false (c :: rest) := by
  rw [isDigit, and_eq_true, decide_eq_true_eq, decide_eq_true_eq] at hc
  have hword : ∀ word ∈ words, word.1.isPrefixOf (c :: rest) = false := by
    have hfirst : ∀ first tail, first ≠ c → List.isPrefixOf (first :: tail) (c :: rest) = false := by
      intro first tail hne
      rw [List.isPrefixOf, beq_eq_false_iff_ne.mpr hne, Bool.false_and]
    intro word hword
    simp only [words, mem_cons, List.not_mem_nil, or_false] at hword
    rcases hword with rfl | rfl | rfl | rfl | rfl | rfl
    · exact hfirst 110 _ (by omega)
    · exact hfirst 116 _ (by omega)
    · exact hfirst 102 _ (by omega)
    · exact hfirst 78 _ (by omega)
    · exact hfirst 73 _ (by omega)
    · exact hfirst 45 _ (by omega)
  have hnone : words.find? (fun word => word.1.isPrefixOf (c :: rest)) = none := by
    rw [List.find?_eq_none]
    intro word hmem
    rw [hword word hmem]
    exact Bool.false_ne_true
  rw [scanScalar, hnone]
  exact if_neg (by omega)

theorem scan_scalar (hc : isDigit c = true) : scan p (fuel + 1) depth (c :: rest) = scanScalar p (c :: rest) := by
  rw [isDigit, and_eq_true, decide_eq_true_eq, decide_eq_true_eq] at hc
  rw [scan.eq_def]
  dsimp only
  rw [if_neg (by omega), if_neg (by omega), if_neg (by omega)]

/-- A number that is not too long is read back. -/
theorem legible_decimal (hshort : p.tooLong (decimal n).length = false) : Legible p depth (decimal n) (.int n) := by
  obtain ⟨c, tail, hdecimal, hc, htail, hzero, hvalue⟩ := decimal_spec
  have hascii : ∀ d, isDigit d = true → Ascii d := by
    intro d hd
    rw [isDigit, and_eq_true, decide_eq_true_eq, decide_eq_true_eq] at hd
    exact ⟨by omega, by omega⟩
  have hrange := hc
  rw [isDigit, and_eq_true, decide_eq_true_eq, decide_eq_true_eq] at hrange
  refine ⟨⟨c, tail, hdecimal, ?_, by omega⟩, ?_, ?_⟩
  · simp only [isSpace, Bool.or_eq_false_iff, decide_eq_false_iff_not]
    omega
  · rw [hdecimal]
    intro d hd
    rcases mem_cons.mp hd with rfl | hd
    · exact hascii d hc
    · exact hascii d (htail d hd)
  intro fuel rest hfuel hstops
  obtain ⟨fuel, rfl⟩ := Nat.exists_eq_add_one_of_ne_zero (Nat.ne_zero_of_lt hfuel)
  rw [hdecimal] at hvalue hshort ⊢
  rw [cons_append, scan_scalar hc, scanScalar_digit hc, scanUnsigned, scanDigits_append hc htail hzero hstops]
  simp only [scanFraction_stops hstops, scanExponent_stops hstops, and_self, if_true, hshort, Bool.false_eq_true, if_false, hvalue]

theorem commas_singleton : commas [input] = input := by
  simp [commas, List.intercalate]

theorem commas_cons (next : Text) (inputs : List Text) : commas (input :: next :: inputs) = input ++ 44 :: commas (next :: inputs) := by
  simp [commas, List.intercalate]

theorem skipSpace_cons (h : isSpace c = false) : skipSpace (c :: rest) = c :: rest := by
  rw [skipSpace, List.dropWhile_cons, h]
  rfl

/-- A text that is read starts behind no white space. -/
theorem Legible.skipSpace_append (h : Legible p depth input value) : skipSpace (input ++ rest) = input ++ rest := by
  obtain ⟨c, tail, rfl, hspace, -⟩ := h.head
  exact skipSpace_cons hspace

variable {items : List Json}

theorem scanItems_commas (hne : items ≠ []) (h : ∀ item ∈ items, Legible p depth (dumps p item) item)
    (hfuel : 2 * (commas (dumpsItems p items) ++ 93 :: rest).length + 1 < fuel) :
    scanItems p fuel depth (commas (dumpsItems p items) ++ 93 :: rest) = .ok (items, rest) := by
  induction items generalizing fuel with
  | nil => exact absurd rfl hne
  | cons item items ih =>
    obtain ⟨fuel, rfl⟩ := Nat.exists_eq_add_one_of_ne_zero (Nat.ne_zero_of_lt hfuel)
    have hitem := h item mem_cons_self
    cases items with
    | nil =>
      rw [dumpsItems, dumpsItems, commas_singleton] at hfuel ⊢
      have hstops : Stops (93 :: rest) := Or.inr (.inl rfl)
      rw [scanItems, hitem.scans fuel (93 :: rest) (by omega) hstops, Except.bind, skipSpace_cons rfl]
      rfl
    | cons next items =>
      have hnext : 2 * (commas (dumpsItems p (next :: items)) ++ 93 :: rest).length + 1 < fuel →
          scanItems p fuel depth (commas (dumpsItems p (next :: items)) ++ 93 :: rest) = .ok (next :: items, rest) :=
        ih (cons_ne_nil next items) fun one hone => h one (mem_cons_of_mem item hone)
      have hskip : skipSpace (commas (dumpsItems p (next :: items)) ++ 93 :: rest) = commas (dumpsItems p (next :: items)) ++ 93 :: rest := by
        have hlegible := h next (mem_cons_of_mem item mem_cons_self)
        cases items with
        | nil =>
          rw [dumpsItems, dumpsItems, commas_singleton]
          exact hlegible.skipSpace_append
        | cons =>
          rw [dumpsItems, dumpsItems, commas_cons, append_assoc]
          exact hlegible.skipSpace_append
      have hsplit : commas (dumpsItems p (item :: next :: items)) ++ 93 :: rest =
          dumps p item ++ 44 :: (commas (dumpsItems p (next :: items)) ++ 93 :: rest) := by
        rw [dumpsItems, dumpsItems, commas_cons, append_assoc, cons_append]
      rw [hsplit] at hfuel ⊢
      rw [length_append, length_cons] at hfuel
      have hscans := hitem.scans fuel (44 :: (commas (dumpsItems p (next :: items)) ++ 93 :: rest))
        (by rw [length_append, length_cons]; omega) (Or.inl rfl)
      rw [scanItems, hscans, Except.bind, skipSpace_cons rfl]
      dsimp only
      rw [if_neg (by norm_num), if_pos rfl, hskip, hnext (by omega)]
      rfl

theorem ascii_commas {inputs : List Text} (h : ∀ input ∈ inputs, ∀ c ∈ input, Ascii c) : ∀ c ∈ commas inputs, Ascii c := by
  induction inputs with
  | nil => exact fun _ hc => nomatch hc
  | cons input inputs ih =>
    have hinput := h input mem_cons_self
    have hinputs := ih fun one hone => h one (mem_cons_of_mem input hone)
    cases inputs with
    | nil =>
      rw [commas_singleton]
      exact hinput
    | cons =>
      intro c hc
      rcases mem_append.mp hc with hc | hc
      · exact hinput c hc
      rcases mem_cons.mp hc with rfl | hc
      · exact ⟨by norm_num, by norm_num⟩
      · exact hinputs c hc

theorem mem_dumpsItems (h : input ∈ dumpsItems p items) : ∃ item ∈ items, dumps p item = input := by
  induction items with
  | nil => cases h
  | cons item items ih =>
    rcases mem_cons.mp h with rfl | h
    · exact ⟨item, mem_cons_self, rfl⟩
    · obtain ⟨one, hone, heq⟩ := ih h
      exact ⟨one, mem_cons_of_mem item hone, heq⟩

/-- A list of values is read back. -/
theorem legible_arr (hne : items ≠ []) (h : ∀ item ∈ items, Legible p depth (dumps p item) item) :
    Legible p (depth + 1) (dumps p (.arr items)) (.arr items) where
  head := ⟨91, commas (dumpsItems p items) ++ [93], rfl, rfl, by norm_num⟩
  ascii := by
    intro c hc
    rcases mem_cons.mp hc with rfl | hc
    · exact ⟨by norm_num, by norm_num⟩
    rcases mem_append.mp hc with hc | hc
    · refine ascii_commas (fun input hinput => ?_) c hc
      obtain ⟨item, hitem, rfl⟩ := mem_dumpsItems hinput
      exact (h item hitem).ascii
    · rw [mem_singleton.mp hc]
      exact ⟨by norm_num, by norm_num⟩
  scans := by
    intro fuel rest hfuel _
    obtain ⟨fuel, rfl⟩ := Nat.exists_eq_add_one_of_ne_zero (Nat.ne_zero_of_lt hfuel)
    have hsplit : dumps p (.arr items) ++ rest = 91 :: (commas (dumpsItems p items) ++ 93 :: rest) := by
      rw [dumps, cons_append, cons_append, append_assoc]
      rfl
    rw [hsplit] at hfuel ⊢
    rw [length_cons] at hfuel
    have hitems : scanItems p fuel depth (commas (dumpsItems p items) ++ 93 :: rest) = .ok (items, rest) :=
      scanItems_commas hne h (by omega)
    obtain ⟨c, tail, hhead, hspace, hbracket⟩ : ∃ c tail, commas (dumpsItems p items) ++ 93 :: rest = c :: tail ∧
        isSpace c = false ∧ c ≠ 93 := by
      cases items with
      | nil => exact absurd rfl hne
      | cons item items =>
        obtain ⟨c, tail, hhead, hspace, hbracket⟩ := (h item mem_cons_self).head
        cases items with
        | nil => exact ⟨c, tail ++ 93 :: rest, by rw [dumpsItems, dumpsItems, commas_singleton, hhead]; rfl, hspace, hbracket⟩
        | cons next items =>
          exact ⟨c, tail ++ 44 :: commas (dumpsItems p (next :: items)) ++ 93 :: rest,
            by rw [dumpsItems, dumpsItems, commas_cons, hhead]; rfl, hspace, hbracket⟩
    rw [hhead] at hitems ⊢
    rw [scan.eq_def]
    dsimp only
    rw [if_neg (by norm_num), if_neg (by norm_num), if_pos rfl, skipSpace_cons hspace]
    dsimp only
    rw [if_neg hbracket, hitems]
    rfl

def writeField (p : Interpreter) (field : Text × Json) : Text := quote field.1 ++ 58 :: dumps p field.2

theorem writeField_append {field : Text × Json} :
    writeField p field ++ rest = 34 :: (field.1.flatMap escape ++ 34 :: 58 :: (dumps p field.2 ++ rest)) := by
  rw [writeField, append_assoc, quote_append]
  rfl

/-- A field that is read back. -/
structure LegibleField (p : Interpreter) (depth : ℕ) (field : Text × Json) : Prop where
  /-- Its name has no half of a surrogate pair. -/
  name : ∀ c ∈ field.1, Scalar c
  /-- Its value is read back. -/
  value : Legible p depth (dumps p field.2) field.2

theorem LegibleField.ascii {field : Text × Json} (h : LegibleField p depth field) : ∀ c ∈ writeField p field, Ascii c := by
  intro c hc
  rcases mem_append.mp hc with hc | hc
  · exact ascii_quote hc
  rcases mem_cons.mp hc with rfl | hc
  · exact ⟨by norm_num, by norm_num⟩
  · exact h.value.ascii c hc

/-- One field is read, up to what follows its value. -/
theorem LegibleField.scanFields {field : Text × Json} (h : LegibleField p depth field)
    (hfuel : 2 * (writeField p field ++ rest).length < fuel) (hstops : Stops rest) :
    JsonText.scanFields p (fuel + 1) depth (writeField p field ++ rest) =
      match skipSpace rest with
      | [] => .error .malformed
      | c :: after =>
        if c = 125 then .ok ([field], after)
        else if c = 44 then (JsonText.scanFields p fuel depth (skipSpace after)).map fun fields => (field :: fields.1, fields.2)
        else .error .malformed := by
  rw [writeField_append] at hfuel ⊢
  simp only [length_cons, length_append] at hfuel
  have hscans := h.value.scans fuel rest (by rw [length_append]; omega) hstops
  have hcolon : skipSpace (58 :: (dumps p field.2 ++ rest)) = 58 :: (dumps p field.2 ++ rest) := skipSpace_cons rfl
  rw [JsonText.scanFields, if_neg (by norm_num), scanString_quote h.name]
  dsimp only
  rw [hcolon]
  dsimp only
  rw [if_neg (by norm_num), h.value.skipSpace_append, hscans]
  rfl

variable {fields : List (Text × Json)}

theorem scanFields_commas (hne : fields ≠ []) (h : ∀ field ∈ fields, LegibleField p depth field)
    (hfuel : 2 * (commas (fields.map (writeField p)) ++ 125 :: rest).length + 1 < fuel) :
    scanFields p fuel depth (commas (fields.map (writeField p)) ++ 125 :: rest) = .ok (fields, rest) := by
  induction fields generalizing fuel with
  | nil => exact absurd rfl hne
  | cons field fields ih =>
    obtain ⟨fuel, rfl⟩ := Nat.exists_eq_add_one_of_ne_zero (Nat.ne_zero_of_lt hfuel)
    have hfield := h field mem_cons_self
    cases fields with
    | nil =>
      rw [List.map_singleton, commas_singleton] at hfuel ⊢
      have hstops : Stops (125 :: rest) := Or.inr (.inr rfl)
      rw [hfield.scanFields (by omega) hstops, skipSpace_cons rfl]
      rfl
    | cons next fields =>
      have hnext : 2 * (commas ((next :: fields).map (writeField p)) ++ 125 :: rest).length + 1 < fuel →
          scanFields p fuel depth (commas ((next :: fields).map (writeField p)) ++ 125 :: rest) = .ok (next :: fields, rest) :=
        ih (cons_ne_nil next fields) fun one hone => h one (mem_cons_of_mem field hone)
      have hskip : skipSpace (commas ((next :: fields).map (writeField p)) ++ 125 :: rest) =
          commas ((next :: fields).map (writeField p)) ++ 125 :: rest := by
        cases fields with
        | nil | cons =>
          exact skipSpace_cons rfl
      have hsplit : commas ((field :: next :: fields).map (writeField p)) ++ 125 :: rest =
          writeField p field ++ 44 :: (commas ((next :: fields).map (writeField p)) ++ 125 :: rest) := by
        rw [map_cons, map_cons, commas_cons, append_assoc, cons_append]
      rw [hsplit] at hfuel ⊢
      rw [length_append, length_cons] at hfuel
      have hstops : Stops (44 :: (commas ((next :: fields).map (writeField p)) ++ 125 :: rest)) := Or.inl rfl
      rw [hfield.scanFields (by rw [length_append, length_cons]; omega) hstops, skipSpace_cons rfl]
      dsimp only
      rw [if_neg (by norm_num), if_pos rfl, hskip, hnext (by omega)]
      rfl

theorem dumpsFields_eq : dumpsFields p fields = fields.map fun field => (field.1, dumps p field.2) := by
  induction fields with
  | nil => rfl
  | cons field fields ih =>
    rw [dumpsFields, ih]
    rfl

/-- An object is written with its names in order. -/
theorem dumps_obj : dumps p (.obj fields) = 123 :: commas ((sortNames fields).map (writeField p)) ++ [125] := by
  have hsort : sortNames (dumpsFields p fields) = (sortNames fields).map fun field => (field.1, dumps p field.2) := by
    rw [dumpsFields_eq]
    refine (List.map_insertionSort (fun a b : Text × Json => ordered a.1 b.1 = true)
      (fun a b : Text × Text => ordered a.1 b.1 = true) (fun field => (field.1, dumps p field.2)) fields ?_).symm
    exact fun _ _ _ _ => Iff.rfl
  rw [dumps, braces, hsort, List.map_map]
  rfl

theorem ordered_total (s t : Text) : ordered s t = true ∨ ordered t s = true := by
  induction s generalizing t with
  | nil => exact .inl (by rw [ordered])
  | cons a s ih =>
    cases t with
    | nil => exact .inr (by rw [ordered])
    | cons b t =>
      rw [ordered, ordered]
      split_ifs
      · exact .inl rfl
      · exact .inl rfl
      · exact .inr rfl
      · exact ih t

theorem ordered_trans {s t u : Text} (hst : ordered s t = true) (htu : ordered t u = true) : ordered s u = true := by
  induction s generalizing t u with
  | nil => rw [ordered]
  | cons a s ih =>
    cases t with
    | nil => cases hst
    | cons b t =>
      cases u with
      | nil => cases htu
      | cons c u =>
        rw [ordered] at hst htu ⊢
        split_ifs at hst htu ⊢
        all_goals first
          | rfl
          | omega
          | exact ih hst htu

instance {α : Type*} : Std.Total fun a b : Text × α => ordered a.1 b.1 = true := ⟨fun a b => ordered_total a.1 b.1⟩

instance {α : Type*} : IsTrans (Text × α) fun a b => ordered a.1 b.1 = true := ⟨fun _ _ _ => ordered_trans⟩

/-- Writing an object in order again changes nothing. -/
theorem dumps_sortNames (fields : List (Text × Json)) : dumps p (.obj (sortNames fields)) = dumps p (.obj fields) := by
  have hsorted : sortNames (sortNames fields) = sortNames fields :=
    List.Pairwise.insertionSort_eq (List.pairwise_insertionSort (fun a b : Text × Json => ordered a.1 b.1 = true) fields)
  rw [dumps_obj, dumps_obj, hsorted]

theorem perm_sortNames {α : Type*} (fields : List (Text × α)) : (sortNames fields).Perm fields :=
  List.perm_insertionSort _ fields

/-- Fields with names of their own stay as they are. -/
theorem distinct_eq (h : (fields.map Prod.fst).Nodup) : distinct fields = fields := by
  have hfold : ∀ (fields : List (Text × Json)) (found : Dict Text Json), (fields.map Prod.fst).Nodup →
      (∀ field ∈ fields, field.1 ∉ found.keys) →
        (fields.foldl (fun found field => found.set field.1 field.2) found).items = found.items ++ fields := by
    intro fields
    induction fields with
    | nil => exact fun found _ _ => (append_nil _).symm
    | cons field fields ih =>
      intro found hnodup hfresh
      rw [map_cons, List.nodup_cons] at hnodup
      have hset := Dict.items_set_of_not_mem (a := field.2) (hfresh field mem_cons_self)
      have hkeys : (found.set field.1 field.2).keys = found.keys ++ [field.1] := by
        rw [Dict.keys, hset, List.map_append]
        rfl
      rw [List.foldl_cons, ih _ hnodup.2, hset, append_assoc]
      · rfl
      intro one hone
      rw [hkeys, mem_append, mem_singleton]
      rintro (hmem | hsame)
      · exact hfresh one (mem_cons_of_mem field hone) hmem
      · exact hnodup.1 (hsame ▸ List.mem_map_of_mem hone)
  exact hfold fields Dict.empty h fun _ _ hmem => by cases hmem

/-- An object of values that are read back is read back, with its names in order. -/
theorem legible_obj (hne : fields ≠ []) (hnodup : (fields.map Prod.fst).Nodup)
    (h : ∀ field ∈ fields, LegibleField p depth field) : Legible p (depth + 1) (dumps p (.obj fields)) (.obj (sortNames fields)) := by
  have hperm := perm_sortNames fields
  have hsorted : ∀ field ∈ sortNames fields, LegibleField p depth field := fun field hfield => h field (hperm.mem_iff.mp hfield)
  have hsome : sortNames fields ≠ [] := fun hnil => hne (List.nil_perm.mp (hnil ▸ hperm))
  have hdistinct : distinct (sortNames fields) = sortNames fields :=
    distinct_eq ((hperm.map Prod.fst).nodup_iff.mpr hnodup)
  rw [dumps_obj]
  refine ⟨⟨123, commas ((sortNames fields).map (writeField p)) ++ [125], rfl, rfl, by norm_num⟩, ?_, ?_⟩
  · intro c hc
    rcases mem_cons.mp hc with rfl | hc
    · exact ⟨by norm_num, by norm_num⟩
    rcases mem_append.mp hc with hc | hc
    · refine ascii_commas (fun input hinput => ?_) c hc
      obtain ⟨field, hfield, rfl⟩ := List.mem_map.mp hinput
      exact (hsorted field hfield).ascii
    · rw [mem_singleton.mp hc]
      exact ⟨by norm_num, by norm_num⟩
  · intro fuel rest hfuel _
    obtain ⟨fuel, rfl⟩ := Nat.exists_eq_add_one_of_ne_zero (Nat.ne_zero_of_lt hfuel)
    have hsplit : 123 :: commas ((sortNames fields).map (writeField p)) ++ [125] ++ rest =
        123 :: (commas ((sortNames fields).map (writeField p)) ++ 125 :: rest) := by
      rw [cons_append, cons_append, append_assoc]
      rfl
    rw [hsplit] at hfuel ⊢
    rw [length_cons] at hfuel
    have hfields : scanFields p fuel depth (commas ((sortNames fields).map (writeField p)) ++ 125 :: rest) =
        .ok (sortNames fields, rest) := scanFields_commas hsome hsorted (by omega)
    obtain ⟨tail, hhead⟩ : ∃ tail, commas ((sortNames fields).map (writeField p)) ++ 125 :: rest = 34 :: tail := by
      cases hfound : sortNames fields with
      | nil => exact absurd hfound hsome
      | cons field others =>
        cases others with
        | nil => exact ⟨_, by rw [List.map_singleton, commas_singleton, writeField_append]⟩
        | cons => exact ⟨_, by rw [map_cons, map_cons, commas_cons, append_assoc, writeField_append]⟩
    rw [hhead] at hfields ⊢
    rw [scan.eq_def]
    dsimp only
    rw [if_neg (by norm_num), if_pos rfl, skipSpace_cons rfl]
    dsimp only
    rw [if_neg (by norm_num), hfields, Except.map, hdistinct]

theorem toNat_toBytes (h : ∀ c ∈ input, Ascii c) : (toBytes input).map UInt8.toNat = input := by
  rw [toBytes, List.map_map]
  refine (List.map_congr_left fun c hc => ?_).trans (List.map_id input)
  have hc := h c hc
  unfold Ascii at hc
  exact Nat.mod_eq_of_lt (by omega)

theorem utf8_ascii (h : ∀ c ∈ input, Ascii c) : utf8 input = some input := by
  induction input with
  | nil => rfl
  | cons c input ih =>
    have hc := h c mem_cons_self
    rw [utf8.eq_def]
    dsimp only
    rw [if_pos hc.2, ih fun d hd => h d (mem_cons_of_mem c hd)]
    rfl

/-- Bytes of ASCII are read as UTF-8. -/
theorem decode_toBytes (h : ∀ c ∈ input, Ascii c) : decode (toBytes input) = some input := by
  have hutf := utf8_ascii h
  unfold decode
  dsimp only
  rw [toNat_toBytes h]
  split
  all_goals first
    | exact hutf
    | simp [Ascii] at h

/-- A text that is read is read from its bytes. -/
theorem Legible.loads (h : Legible p (p.depth + 2) input value) : loads p (toBytes input) = .ok value := by
  have hscans := h.scans (2 * input.length + 1) [] (by rw [append_nil]; omega) trivial
  have hskip : skipSpace (input ++ []) = input ++ [] := h.skipSpace_append
  rw [append_nil] at hscans hskip
  rw [JsonText.loads, decode_toBytes h.ascii]
  dsimp only
  rw [hskip, hscans]
  rfl

variable {digits : Text}

theorem ofDecimal_lt (h : ∀ d ∈ digits, isDigit d = true) : ofDecimal digits < 10 ^ digits.length := by
  induction digits using List.reverseRecOn with
  | nil => exact Nat.one_pos
  | append_singleton digits d ih =>
    have hlast := h d (List.mem_append_right _ mem_cons_self)
    have hless := ih fun e he => h e (List.mem_append_left _ he)
    rw [isDigit, and_eq_true, decide_eq_true_eq, decide_eq_true_eq] at hlast
    rw [ofDecimal, List.foldl_append, List.foldl_cons, List.foldl_nil, length_append, List.length_singleton, pow_succ]
    rw [ofDecimal] at hless
    omega

/-- A number is written with no more digits than it was spelled with. -/
theorem length_decimal_le (hne : digits ≠ []) (h : ∀ d ∈ digits, isDigit d = true) :
    (decimal (ofDecimal digits)).length ≤ digits.length := by
  unfold decimal
  split_ifs with hzero
  · exact List.length_pos_iff.mpr hne
  · rw [List.length_map, List.length_reverse, Nat.digits_length_le_iff (by norm_num)]
    exact ofDecimal_lt h

theorem tooLong_of_le {few many : ℕ} (hle : few ≤ many) (h : p.tooLong many = false) : p.tooLong few = false := by
  simp only [Interpreter.tooLong, decide_eq_false_iff_not] at h ⊢
  omega

theorem digits_of_scanDigits (h : scanDigits input = some (digits, rest)) : digits ≠ [] ∧ ∀ d ∈ digits, isDigit d = true := by
  unfold scanDigits at h
  split at h
  · cases h
  split_ifs at h with hzero hdigit
  · cases h
    subst hzero
    refine ⟨cons_ne_nil _ _, fun d hd => ?_⟩
    rw [mem_singleton.mp hd]
    rfl
  cases h
  refine ⟨cons_ne_nil _ _, fun d hd => ?_⟩
  rcases mem_cons.mp hd with rfl | hd
  · exact hdigit
  · exact List.all_eq_true.mp List.all_takeWhile d hd

/-- A number that was read can be written. -/
theorem scanUnsigned_ok {negative : Bool} (h : scanUnsigned p negative input = .ok (value, rest)) :
    p.writable value = true ∧ ∀ fields, value ≠ .obj fields := by
  unfold scanUnsigned at h
  split at h
  · cases h
  next digits after hdigits =>
  by_cases hinteger : (scanFraction after).1 = [] ∧ (scanExponent (scanFraction after).2).1 = []
  · rw [if_pos hinteger] at h
    by_cases hlong : p.tooLong digits.length = true
    · rw [if_pos hlong] at h
      cases h
    rw [if_neg hlong] at h
    cases h
    obtain ⟨hne, hall⟩ := digits_of_scanDigits hdigits
    have hshort := tooLong_of_le (length_decimal_le hne hall) (Bool.eq_false_iff.mpr hlong)
    have habs : (if negative = true then -(ofDecimal digits : ℤ) else ofDecimal digits).natAbs = ofDecimal digits := by
      cases negative with
      | false => exact Int.natAbs_natCast _
      | true => exact (Int.natAbs_neg _).trans (Int.natAbs_natCast _)
    refine ⟨?_, fun fields => nofun⟩
    simp only [Interpreter.writable, habs, hshort, Bool.not_false]
  · rw [if_neg hinteger] at h
    cases h
    exact ⟨rfl, fun fields => nofun⟩

theorem scanScalar_ok (h : scanScalar p input = .ok (value, rest)) : p.writable value = true ∧ ∀ fields, value ≠ .obj fields := by
  unfold scanScalar at h
  split at h
  · next word hword =>
    cases h
    have hmem := List.mem_of_find?_eq_some hword
    simp only [words, mem_cons, List.not_mem_nil, or_false] at hmem
    rcases hmem with rfl | rfl | rfl | rfl | rfl | rfl
    · exact ⟨rfl, fun fields => nofun⟩
    · exact ⟨rfl, fun fields => nofun⟩
    · exact ⟨rfl, fun fields => nofun⟩
    · exact ⟨rfl, fun fields => nofun⟩
    · exact ⟨rfl, fun fields => nofun⟩
    · exact ⟨rfl, fun fields => nofun⟩
  · split at h
    · cases h
    split_ifs at h
    · exact scanUnsigned_ok h
    · exact scanUnsigned_ok h

/-- A value that was read can be written; the fields of an object are those that were read. -/
theorem scan_ok (h : scan p fuel depth input = .ok (value, rest)) : p.writable value = true ∧
    ∀ fields, value = .obj fields → fields = [] ∨ ∃ fuel depth input rest found, scanFields p fuel depth input = .ok (found, rest) ∧
      fields = distinct found := by
  cases fuel with
  | zero => cases h
  | succ fuel =>
    cases input with
    | nil => cases h
    | cons c input =>
      rw [scan.eq_def] at h
      dsimp only at h
      split at h
      · split at h
        · cases h
        · cases h
          exact ⟨rfl, fun fields hfields => nomatch hfields⟩
      split at h
      · cases depth with
        | zero => cases h
        | succ depth =>
          dsimp only at h
          split at h
          · cases h
          split_ifs at h
          · cases h
            exact ⟨rfl, fun fields hfields => .inl (by cases hfields; rfl)⟩
          next c after hskip hend =>
          cases hfound : scanFields p fuel depth (c :: after) with
          | error =>
            rw [hfound] at h
            cases h
          | ok =>
            rw [hfound] at h
            cases h
            refine ⟨rfl, fun fields hfields => .inr ?_⟩
            cases hfields
            exact ⟨_, _, _, _, _, hfound, rfl⟩
      · split_ifs at h with hbracket
        · cases depth with
          | zero => cases h
          | succ depth =>
            dsimp only at h
            split at h
            · cases h
            split_ifs at h
            · cases h
              exact ⟨rfl, fun fields hfields => nomatch hfields⟩
            next c after hskip hend =>
            cases hfound : scanItems p fuel depth (c :: after) with
            | error =>
              rw [hfound] at h
              cases h
            | ok =>
              rw [hfound] at h
              cases h
              exact ⟨rfl, fun fields hfields => nomatch hfields⟩
        · obtain ⟨hwritable, hobj⟩ := scanScalar_ok h
          exact ⟨hwritable, fun fields hfields => absurd hfields (hobj fields)⟩

/-- The values of fields that were read can be written. -/
theorem scanFields_ok {found : List (Text × Json)} (h : scanFields p fuel depth input = .ok (found, rest)) :
    ∀ field ∈ found, p.writable field.2 = true := by
  induction fuel generalizing input rest found with
  | zero => cases h
  | succ fuel ih =>
    cases input with
    | nil => cases h
    | cons c input =>
      rw [scanFields] at h
      split_ifs at h with hquote
      split at h
      · cases h
      next name after hname =>
      split at h
      · cases h
      next c after hskip =>
      split_ifs at h with hcolon
      cases hvalue : scan p fuel depth (skipSpace after) with
      | error =>
        rw [hvalue] at h
        cases h
      | ok value =>
        have hwritable := (scan_ok hvalue).1
        rw [hvalue, Except.bind] at h
        split at h
        · cases h
        next c after hskip =>
        split_ifs at h with hend hcomma
        · cases h
          intro field hfield
          rw [mem_singleton.mp hfield]
          exact hwritable
        cases hlater : scanFields p fuel depth (skipSpace after) with
        | error =>
          rw [hlater] at h
          cases h
        | ok later =>
          rw [hlater] at h
          cases h
          intro field hfield
          rcases mem_cons.mp hfield with rfl | hfield
          · exact hwritable
          · exact ih hlater field hfield

theorem mem_of_mem_distinct {field : Text × Json} (h : field ∈ distinct fields) : field ∈ fields := by
  have hfold : ∀ (fields : List (Text × Json)) (found : Dict Text Json),
      field ∈ (fields.foldl (fun found field => found.set field.1 field.2) found).items → field ∈ fields ∨ field ∈ found.items := by
    intro fields
    induction fields with
    | nil => exact fun found hfield => .inr hfield
    | cons one fields ih =>
      intro found hfield
      rcases ih (found.set one.1 one.2) hfield with hmem | hmem
      · exact .inl (mem_cons_of_mem one hmem)
      rcases Dict.mem_set.mp hmem with ⟨hname, hvalue⟩ | ⟨-, hmem⟩
      · exact .inl (mem_cons.mpr (.inl (Prod.ext hname hvalue)))
      · exact .inr hmem
  exact (hfold fields Dict.empty h).resolve_right fun hmem => nomatch hmem

/-- An object that was read has distinct names, and values that can be written. -/
theorem loads_obj {bytes : Bytes} (h : loads p bytes = .ok (.obj fields)) :
    (ofFields fields).items = fields ∧ ∀ field ∈ fields, p.writable field.2 = true := by
  unfold loads at h
  split at h
  · cases h
  next input hinput =>
  cases hscan : scan p (2 * input.length + 1) (p.depth + 2) (skipSpace input) with
  | error =>
    rw [hscan] at h
    cases h
  | ok value =>
    rw [hscan, Except.bind] at h
    split_ifs at h with hend
    obtain ⟨one, rest⟩ := value
    obtain rfl : one = .obj fields := Except.ok.inj h
    rcases (scan_ok hscan).2 fields rfl with rfl | ⟨fuel, depth, input, rest, found, hfound, rfl⟩
    · exact ⟨rfl, fun field hfield => nomatch hfield⟩
    · have hnodup : ((distinct found).map Prod.fst).Nodup := (ofFields found).nodup
      exact ⟨distinct_eq hnodup, fun field hfield => scanFields_ok hfound field (mem_of_mem_distinct hfield)⟩

end SparkRing.JsonText
