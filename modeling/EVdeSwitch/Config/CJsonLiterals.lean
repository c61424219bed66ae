import EVdeSwitch.Config.CJsonStrings
import EVdeSwitch.Config.JsonGrammar

/-!
# CJsonLiterals — the strings that are read

What `parse_string` reads is a string of JSON with its bytes in UTF-8, provided that each `\u` has
its four digits, and it reads every such string.
-/

namespace EVdeSwitch
namespace Config

open EVdeSwitch.Lib

/-- What the two passes of `parse_string` make of a text. -/
inductive ReadString : Grammar UInt8 (List UInt8)
  | mk {input bytes leftover : List UInt8} {count skipped : Nat} :
      scanString input = some (count, skipped) →
        unescape (count + 1 - skipped + 1) input count [] = .ok (some bytes, leftover) →
          ReadString (QUOTE :: input) bytes (input.drop (count + 1))

/-! ## Encodings -/

section Encodings

variable {codepoint : Nat} {digits text : List UInt8} {value left : Nat}

theorem continuation_byte (codepoint : Nat) :
    (codepoint ||| 0x80) &&& 0xBF = codepoint % 64 + 0x80 := by
  have hlow : codepoint &&& 0x3F < 2 ^ 7 := Nat.and_lt_two_pow _ (by decide)
  have habsorb : (codepoint &&& 0x80) ||| 0x80 = 0x80 := by
    refine Nat.eq_of_testBit_eq fun i => ?_
    rw [Nat.testBit_or, Nat.testBit_and]
    exact Bool.or_eq_right_iff_imp.mpr fun h => (Bool.and_eq_true_iff.mp h).2
  calc (codepoint ||| 0x80) &&& 0xBF
      = (codepoint &&& (0x3F ||| 0x80)) ||| 0x80 := Nat.and_or_distrib_right _ _ _
    _ = (codepoint &&& 0x3F) ||| ((codepoint &&& 0x80) ||| 0x80) := by
        rw [Nat.and_or_distrib_left, Nat.or_assoc]
    _ = 0x80 ||| (codepoint &&& 0x3F) := by rw [habsorb, Nat.or_comm]
    _ = 0x80 + codepoint % 64 := by
        rw [← Nat.and_two_pow_sub_one_eq_mod _ 6]
        exact (Nat.two_pow_add_eq_or_of_lt hlow 1).symm
    _ = codepoint % 64 + 0x80 := Nat.add_comm _ _

theorem encodeFrom_succ (first_byte_mark n codepoint : Nat) (behind : List UInt8) :
    encodeFrom first_byte_mark (n + 1) codepoint behind =
      encodeFrom first_byte_mark n (codepoint / 64)
        (UInt8.ofNat (codepoint % 64 + 0x80) :: behind) := by
  rw [encodeFrom, continuation_byte, Nat.shiftRight_eq_div_pow]

/-- A character is encoded in UTF-8. -/
theorem encodeUtf8_toNat (char : Char) :
    encodeUtf8 char.toNat = some (String.utf8EncodeChar char) := by
  have oneByte : ∀ n < 128, n &&& 0x7F = n := by decide
  have twoBytes : ∀ n < 32, (n ||| 0xC0) &&& 0xFF = n % 32 + 0xC0 := by decide
  have threeBytes : ∀ n < 16, (n ||| 0xE0) &&& 0xFF = n % 16 + 0xE0 := by decide
  have fourBytes : ∀ n < 8, (n ||| 0xF0) &&& 0xFF = n % 8 + 0xF0 := by decide
  have hmax : char.toNat < 0x110000 := by
    rcases char.valid with hlow | ⟨_, hhigh⟩
    · exact Nat.lt_trans hlow (by decide)
    · exact hhigh
  have hval : char.val.toNat = char.toNat := rfl
  simp only [encodeUtf8, String.utf8EncodeChar, hval]
  generalize char.toNat = v at hmax
  by_cases h7 : v < 0x80
  · rw [if_pos h7, if_pos (Nat.le_of_lt_succ h7), oneByte v h7]
  rw [if_neg h7, if_neg (fun h => h7 (Nat.lt_succ_of_le h))]
  by_cases h11 : v < 0x800
  · rw [if_pos h11, if_pos (Nat.le_of_lt_succ h11), encodeFrom_succ, encodeFrom,
      twoBytes _ (Nat.div_lt_of_lt_mul h11)]
  rw [if_neg h11, if_neg (fun h => h11 (Nat.lt_succ_of_le h))]
  by_cases h16 : v < 0x10000
  · rw [if_pos h16, if_pos (Nat.le_of_lt_succ h16), encodeFrom_succ, encodeFrom_succ, encodeFrom,
      Nat.div_div_eq_div_mul, threeBytes _ (Nat.div_lt_of_lt_mul h16)]
  · have h6 : v / 64 / 64 = v / 4096 := Nat.div_div_eq_div_mul _ _ _
    have h12 : v / 4096 / 64 = v / 262144 := Nat.div_div_eq_div_mul _ _ _
    rw [if_neg h16, if_neg (fun h => h16 (Nat.lt_succ_of_le h)), if_pos (Nat.le_of_lt_succ hmax),
      encodeFrom_succ, encodeFrom_succ, encodeFrom_succ, encodeFrom, h6, h12,
      fourBytes _ (Nat.div_lt_of_lt_mul (hmax.trans (by decide)))]

theorem parseHexDigits_hexValue : ∀ {digits : List UInt8} {n value code : Nat} {text : List UInt8},
    digits.length = n + 1 → hexValue value digits = some code →
      parseHexDigits (n + 1) (16 * value) (digits ++ text) = .ok code
  | [], n, _, _, _, hlength, _ => absurd hlength.symm (Nat.succ_ne_zero n)
  | c :: digits, n, value, code, text, hlength, hvalue => by
      cases hc : hexDigit c with
      | none =>
          rw [hexValue, hc] at hvalue
          cases hvalue
      | some digit =>
          rw [hexValue, hc, Option.bind_some] at hvalue
          rw [List.cons_append, parseHexDigits, hc]
          rcases n with _ | n
          · obtain rfl : digits = [] := List.eq_nil_of_length_eq_zero (Nat.succ_injective hlength)
            exact congrArg Except.ok (Option.some.inj hvalue)
          · have hshift : (16 * value + digit) <<< 4 = 16 * (16 * value + digit) := by
              rw [Nat.shiftLeft_eq]
              exact Nat.mul_comm _ _
            simp only [Nat.succ_pos, if_true, hshift]
            exact parseHexDigits_hexValue (Nat.succ_injective hlength) hvalue

theorem parseHex4_hexValue (hlength : digits.length = 4) (hvalue : hexValue 0 digits = some value) :
    parseHex4 (digits ++ text) = .ok value :=
  parseHexDigits_hexValue hlength hvalue

theorem hexDigit_plain {c : UInt8} {digit : Nat} (h : hexDigit c = some digit) :
    c ≠ QUOTE ∧ c ≠ BACKSLASH := by
  constructor
  · rintro rfl
    cases h
  · rintro rfl
    cases h

theorem hexValue_plain : ∀ {digits : List UInt8} {value code : Nat},
    hexValue value digits = some code → ∀ c ∈ digits, c ≠ QUOTE ∧ c ≠ BACKSLASH
  | [], _, _, _ => fun _ hc => absurd hc List.not_mem_nil
  | c :: digits, value, code, h => by
      obtain ⟨digit, hdigit, hrest⟩ := Option.bind_eq_some_iff.mp h
      exact List.forall_mem_cons.mpr ⟨hexDigit_plain hdigit, hexValue_plain hrest⟩

/-- Bytes that are no quotes and no backslashes need as much room as they are long. -/
theorem scanString_append : ∀ {plain : List UInt8} (text : List UInt8),
    (∀ c ∈ plain, c ≠ QUOTE ∧ c ≠ BACKSLASH) →
      scanString (plain ++ text) =
        (scanString text).map fun (count, skipped) => (count + plain.length, skipped)
  | [], text, _ => Option.map_id.symm ▸ rfl
  | c :: plain, text, h => by
      have ⟨hquote, hbackslash⟩ := h c List.mem_cons_self
      rw [List.cons_append, scanString_plain hquote hbackslash,
        scanString_append text fun c hc => h c (List.mem_cons_of_mem _ hc), Option.map_map]
      rfl

theorem utf16_unicode {char : Char} (hlength : digits.length = 4)
    (hvalue : hexValue 0 digits = some char.toNat) (hleft : 6 ≤ left) :
    utf16LiteralToUtf8 (BACKSLASH :: 117 :: (digits ++ text)) left =
      .ok (6, String.utf8EncodeChar char) := by
  have hnotLow : ¬(0xDC00 ≤ char.toNat ∧ char.toNat ≤ 0xDFFF) := by
    rcases char.valid with h | ⟨h, _⟩
    · exact fun h' => absurd (h'.1.trans_lt h) (by decide)
    · exact fun h' => absurd (h'.2.trans_lt h) (Nat.lt_irrefl _)
  have hnotHigh : ¬(0xD800 ≤ char.toNat ∧ char.toNat ≤ 0xDBFF) := by
    rcases char.valid with h | ⟨h, _⟩
    · exact fun h' => absurd (h'.1.trans_lt h) (Nat.lt_irrefl _)
    · exact fun h' => absurd (h.trans_le h'.2) (by decide)
  have hdrop : (BACKSLASH :: 117 :: (digits ++ text)).drop 2 = digits ++ text := rfl
  simp only [utf16LiteralToUtf8, if_neg (Nat.not_lt.mpr hleft), hdrop,
    parseHex4_hexValue hlength hvalue, Except.bind, if_neg hnotLow, if_neg hnotHigh,
    encodeUtf8_toNat]

/-- The two halves of a code point. -/
theorem surrogates_or (first_code second_code : Nat) :
    ((first_code &&& 0x3FF) <<< 10) ||| (second_code &&& 0x3FF) =
      0x400 * (first_code % 0x400) + second_code % 0x400 := by
  have hfirst : first_code &&& 0x3FF = first_code % 0x400 :=
    Nat.and_two_pow_sub_one_eq_mod first_code 10
  have hsecond : second_code &&& 0x3FF = second_code % 0x400 :=
    Nat.and_two_pow_sub_one_eq_mod second_code 10
  have hlt : second_code % 0x400 < 2 ^ 10 := Nat.mod_lt _ (by decide)
  rw [hfirst, hsecond, Nat.shiftLeft_eq, Nat.mul_comm]
  exact (Nat.two_pow_add_eq_or_of_lt hlt _).symm

theorem utf16_surrogates {high low : List UInt8} {h l : Nat} {char : Char}
    (hhigh : high.length = 4) (hlow : low.length = 4) (hvalue : hexValue 0 high = some (0xD800 + h))
    (lvalue : hexValue 0 low = some (0xDC00 + l)) (hlt : h < 0x400) (llt : l < 0x400)
    (hchar : char.toNat = 0x10000 + 0x400 * h + l) (hleft : 12 ≤ left) :
    utf16LiteralToUtf8 (BACKSLASH :: 117 :: (high ++ BACKSLASH :: 117 :: (low ++ text))) left =
      .ok (12, String.utf8EncodeChar char) := by
  have hnotLow : ¬(0xDC00 ≤ 0xD800 + h ∧ 0xD800 + h ≤ 0xDFFF) := by omega
  have hisHigh : 0xD800 ≤ 0xD800 + h ∧ 0xD800 + h ≤ 0xDBFF := by omega
  have hisLow : ¬(0xDC00 + l < 0xDC00 ∨ 0xDC00 + l > 0xDFFF) := by omega
  have hmark : ¬(BACKSLASH ≠ BACKSLASH ∨ (117 : UInt8) ≠ 117) := by decide
  have hdrop : (BACKSLASH :: 117 :: (high ++ BACKSLASH :: 117 :: (low ++ text))).drop 2 =
      high ++ BACKSLASH :: 117 :: (low ++ text) := rfl
  have hsecond : (BACKSLASH :: 117 :: (high ++ BACKSLASH :: 117 :: (low ++ text))).drop 6 =
      BACKSLASH :: 117 :: (low ++ text) :=
    List.drop_left' hhigh
  have hcodepoint : 0x10000 + ((((0xD800 + h) &&& 0x3FF) <<< 10) ||| ((0xDC00 + l) &&& 0x3FF)) =
      char.toNat := by
    rw [surrogates_or]
    omega
  simp only [utf16LiteralToUtf8, if_neg (by omega : ¬left < 6), hdrop,
    parseHex4_hexValue hhigh hvalue, Except.bind, if_neg hnotLow, if_pos hisHigh,
    if_neg (by omega : ¬left - 6 < 6), hsecond, if_neg hmark, parseHex4_hexValue hlow lvalue,
    if_neg hisLow, hcodepoint, encodeUtf8_toNat]

end Encodings

/-! ## Strings of JSON are read -/

section Completeness

variable {text bytes rest : List UInt8} {char : Char}

/-- Both passes of `parse_string` go over a literal, and the first one counts enough room. -/
theorem literal_passes (h : JsonLiteral text char rest) :
    ∃ n k, k + 4 ≤ n ∧ rest = text.drop n ∧ (∃ t, text = BACKSLASH :: 117 :: t) ∧
      (scanString text =
        (scanString rest).map fun (count, skipped) => (count + n, skipped + k)) ∧
      ∀ left, n ≤ left → utf16LiteralToUtf8 text left = .ok (n, String.utf8EncodeChar char) := by
  cases h with
  | @unicode digits rest char hlength hvalue =>
      refine ⟨6, 1, by decide, (List.drop_left' hlength).symm, ⟨_, rfl⟩, ?_, fun left hleft =>
        utf16_unicode hlength hvalue hleft⟩
      rw [scanString_escape, scanString_append rest (hexValue_plain hvalue), Option.map_map, hlength]
      rfl
  | @surrogates high low rest h l char hhigh hlow hvalue lvalue hlt llt hchar =>
      refine ⟨12, 2, by decide, ?_, ⟨_, rfl⟩, ?_, fun left hleft =>
        utf16_surrogates hhigh hlow hvalue lvalue hlt llt hchar hleft⟩
      · have hlength : (high ++ BACKSLASH :: 117 :: low).length = 10 := by
          rw [List.length_append, List.length_cons, List.length_cons, hhigh, hlow]
        have hdrop : (high ++ BACKSLASH :: 117 :: low ++ rest).drop 10 = rest :=
          List.drop_left' hlength
        rw [List.append_assoc] at hdrop
        exact hdrop.symm
      · rw [scanString_escape, scanString_append _ (hexValue_plain hvalue), scanString_escape,
          scanString_append rest (hexValue_plain lvalue), Option.map_map, Option.map_map,
          Option.map_map, hhigh, hlow]
        rfl

theorem unescape_of_jsonChars (h : JsonChars text bytes rest) :
    ∃ count skipped, scanString text = some (count, skipped) ∧ skipped ≤ count ∧
      rest = text.drop (count + 1) ∧
      ∀ room output, output.length + (count - skipped) < room →
        ∃ leftover, unescape room text count output = .ok (some (output ++ bytes), leftover) := by
  induction h with
  | quote rest =>
      refine ⟨0, 0, scanString_quote rest, le_refl 0, rfl, fun room output hroom =>
        ⟨QUOTE :: rest, ?_⟩⟩
      rw [unescape_zero, writeBytes_byte hroom, List.append_nil]
      rfl
  | @byte c text bytes rest hquote hbackslash _ ih =>
      obtain ⟨count, skipped, hscan, hle, hrest, hwrite⟩ := ih
      refine ⟨count + 1, skipped, ?_, Nat.le_succ_of_le hle, hrest, fun room output hroom => ?_⟩
      · rw [scanString_plain hquote hbackslash, hscan]
        rfl
      · obtain ⟨leftover, hrest⟩ := hwrite room (output ++ [c]) (by
          rw [List.length_append, List.length_singleton]
          omega)
        refine ⟨leftover, ?_⟩
        rw [unescape_byte hbackslash, writeBytes_byte (by omega)]
        exact hrest.trans (by rw [List.append_assoc]; rfl)
  | @escape e c text bytes rest hescaped _ ih =>
      obtain ⟨count, skipped, hscan, hle, hrest, hwrite⟩ := ih
      refine ⟨count + 2, skipped + 1, ?_, by omega, hrest, fun room output hroom => ?_⟩
      · rw [scanString_escape, hscan]
        rfl
      · obtain ⟨leftover, hrest⟩ := hwrite room (output ++ [c]) (by
          rw [List.length_append, List.length_singleton]
          omega)
        refine ⟨leftover, ?_⟩
        rw [unescape_escaped hescaped, writeBytes_byte (by omega)]
        exact hrest.trans (by rw [List.append_assoc]; rfl)
  | @literal text next bytes rest char hliteral _ ih =>
      obtain ⟨count, skipped, hscan, hle, hrest, hwrite⟩ := ih
      obtain ⟨n, k, hk, hnext, ⟨t, ht⟩, hpass, hutf8⟩ := literal_passes hliteral
      refine ⟨count + n, skipped + k, ?_, by omega, ?_, fun room output hroom => ?_⟩
      · rw [hpass, hscan]
        rfl
      · rw [hrest, hnext, List.drop_drop]
        congr 1
        omega
      · have hsize : (String.utf8EncodeChar char).length ≤ 4 :=
          (String.length_utf8EncodeChar char).le.trans (Char.utf8Size_le_four char)
        obtain ⟨leftover, hrest⟩ := hwrite room (output ++ String.utf8EncodeChar char) (by
          rw [List.length_append]
          omega)
        refine ⟨leftover, ?_⟩
        have hroom' : output.length + (String.utf8EncodeChar char).length ≤ room := by omega
        have hread := hutf8 (count + n) (Nat.le_add_left _ _)
        have hleft : count + n = count + n - 1 + 1 := by omega
        have hbehind : count + n - 1 + 1 - n = count := by omega
        rw [hnext] at hrest
        rw [hleft] at hread ⊢
        subst ht
        rw [unescape_literal, hread]
        simp only [Except.bind, if_neg (by omega : ¬n = 0), writeBytes_of_le hroom', hbehind]
        exact hrest.trans (by rw [List.append_assoc])

/-- Each string of JSON is read. -/
theorem readString_of_jsonString (h : JsonString text bytes rest) : ReadString text bytes rest := by
  obtain ⟨hchars⟩ := h
  obtain ⟨count, skipped, hscan, hle, rfl, hwrite⟩ := unescape_of_jsonChars hchars
  obtain ⟨leftover, hread⟩ := hwrite (count + 1 - skipped + 1) [] (by
    rw [List.length_nil]
    omega)
  exact .mk hscan hread

end Completeness

/-! ## What is read is a string of JSON -/

section Soundness

variable {text bytes rest : List UInt8} {char : Char} {left units : Nat}

theorem HexLiterals.of_suffix {suffix : List UInt8} (h : HexLiterals text)
    (hsuffix : suffix <:+ text) : HexLiterals suffix :=
  fun rest hrest => h rest (hrest.trans hsuffix)

theorem Scanned.behind_byte {c : UInt8} (h : Scanned (c :: text) left units) (hquote : c ≠ QUOTE)
    (hbackslash : c ≠ BACKSLASH) :
    ∃ left' units', left = left' + 1 ∧ units = units' + 1 ∧ Scanned text left' units' := by
  cases h with
  | quote => exact absurd rfl hquote
  | plain _ _ h => exact ⟨_, _, rfl, rfl, h⟩
  | escape => exact absurd rfl hbackslash

theorem Scanned.behind_plain : ∀ {bytes text : List UInt8} {left units : Nat},
    Scanned (bytes ++ text) left units → (∀ c ∈ bytes, c ≠ QUOTE ∧ c ≠ BACKSLASH) →
      ∃ left' units', left = left' + bytes.length ∧ Scanned text left' units'
  | [], _, left, units, h, _ => ⟨left, units, rfl, h⟩
  | c :: bytes, text, left, units, h, hplain => by
      have ⟨hquote, hbackslash⟩ := hplain c List.mem_cons_self
      obtain ⟨left₁, _, rfl, _, h₁⟩ := h.behind_byte hquote hbackslash
      obtain ⟨left₂, units₂, rfl, h₂⟩ :=
        h₁.behind_plain fun c hc => hplain c (List.mem_cons_of_mem _ hc)
      exact ⟨left₂, units₂, rfl, h₂⟩

theorem Scanned.behind_escape {e : UInt8} (h : Scanned (BACKSLASH :: e :: text) left units) :
    ∃ left' units', left = left' + 2 ∧ units = units' + 1 ∧ Scanned text left' units' := by
  cases h with
  | plain _ hbackslash => exact absurd rfl hbackslash
  | escape _ h => exact ⟨_, _, rfl, rfl, h⟩

theorem Scanned.behind_literal (h : Scanned text left units) (hliteral : JsonLiteral text char rest) :
    ∃ left' units', left + rest.length = left' + text.length ∧ Scanned rest left' units' := by
  cases hliteral with
  | unicode hlength hvalue =>
      obtain ⟨left₁, _, rfl, _, h₁⟩ := h.behind_escape
      obtain ⟨left₂, units₂, rfl, h₂⟩ := h₁.behind_plain (hexValue_plain hvalue)
      refine ⟨left₂, units₂, ?_, h₂⟩
      simp only [List.length_cons, List.length_append]
      omega
  | surrogates hhigh hlow hvalue lvalue =>
      obtain ⟨left₁, _, rfl, _, h₁⟩ := h.behind_escape
      obtain ⟨left₂, _, rfl, h₂⟩ := h₁.behind_plain (hexValue_plain hvalue)
      obtain ⟨left₃, _, rfl, _, h₃⟩ := h₂.behind_escape
      obtain ⟨left₄, units₄, rfl, h₄⟩ := h₃.behind_plain (hexValue_plain lvalue)
      refine ⟨left₄, units₄, ?_, h₄⟩
      simp only [List.length_cons, List.length_append]
      omega

theorem exists_char {n : Nat} (h : n.isValidChar) : ∃ char : Char, char.toNat = n :=
  ⟨Char.ofNatAux n h, rfl⟩

/-- What is converted is a literal, if its digits are there. -/
theorem literal_of_utf16 {n : Nat} (hhex : HexLiterals (BACKSLASH :: 117 :: text))
    (h : utf16LiteralToUtf8 (BACKSLASH :: 117 :: text) left = .ok (n, bytes)) (hn : n ≠ 0) :
    ∃ char, bytes = String.utf8EncodeChar char ∧ n ≤ left ∧
      JsonLiteral (BACKSLASH :: 117 :: text) char ((BACKSLASH :: 117 :: text).drop n) := by
  obtain ⟨high, behind, value, rfl, hhigh, hvalue⟩ := hhex text List.suffix_rfl
  have fails {answer : Nat × List UInt8} (h : (.ok (0, []) : Except ParseFault _) = .ok answer)
      (hn : answer.1 ≠ 0) : False := hn (by cases h; rfl)
  have hdrop : (BACKSLASH :: 117 :: (high ++ behind)).drop 2 = high ++ behind := rfl
  have hsecond : (BACKSLASH :: 117 :: (high ++ behind)).drop 6 = behind := List.drop_left' hhigh
  simp only [utf16LiteralToUtf8, hdrop, hsecond, parseHex4_hexValue hhigh hvalue, Except.bind] at h
  by_cases h6 : left < 6
  · rw [if_pos h6] at h
    exact (fails h hn).elim
  rw [if_neg h6] at h
  by_cases hlow : 0xDC00 ≤ value ∧ value ≤ 0xDFFF
  · rw [if_pos hlow] at h
    exact (fails h hn).elim
  rw [if_neg hlow] at h
  by_cases hisHigh : 0xD800 ≤ value ∧ value ≤ 0xDBFF
  · rw [if_pos hisHigh] at h
    by_cases h12 : left - 6 < 6
    · rw [if_pos h12] at h
      exact (fails h hn).elim
    rw [if_neg h12] at h
    rcases behind with _ | ⟨c, _ | ⟨u, second⟩⟩
    · cases h
    · cases h
    by_cases hmark : c ≠ BACKSLASH ∨ u ≠ 117
    · simp only [if_pos hmark] at h
      exact (fails h hn).elim
    obtain ⟨rfl, rfl⟩ : c = BACKSLASH ∧ u = 117 := by
      rwa [not_or, not_not, not_not] at hmark
    have hsuffix : BACKSLASH :: 117 :: second <:+
        BACKSLASH :: 117 :: (high ++ BACKSLASH :: 117 :: second) :=
      (List.suffix_append high _).trans ((List.suffix_cons _ _).trans (List.suffix_cons _ _))
    obtain ⟨low, rest, code, rfl, hlength, lvalue⟩ := hhex second hsuffix
    simp only [if_neg hmark, parseHex4_hexValue hlength lvalue] at h
    by_cases hpair : code < 0xDC00 ∨ code > 0xDFFF
    · rw [if_pos hpair] at h
      exact (fails h hn).elim
    rw [not_or, Nat.not_lt, Nat.not_lt] at hpair
    obtain ⟨l, rfl⟩ := Nat.exists_eq_add_of_le hpair.1
    obtain ⟨k, rfl⟩ := Nat.exists_eq_add_of_le hisHigh.1
    obtain ⟨char, hchar⟩ : ∃ char : Char, char.toNat = 0x10000 + 0x400 * k + l := exists_char (by
      rw [Nat.isValidChar]
      omega)
    have hcodepoint :
        0x10000 + ((((0xD800 + k) &&& 0x3FF) <<< 10) ||| ((0xDC00 + l) &&& 0x3FF)) =
          char.toNat := by
      rw [surrogates_or]
      omega
    have hrest :
        (BACKSLASH :: 117 :: (high ++ BACKSLASH :: 117 :: (low ++ rest))).drop 12 = rest := by
      have hboth : (high ++ BACKSLASH :: 117 :: low).length = 10 := by
        rw [List.length_append, List.length_cons, List.length_cons, hhigh, hlength]
      have hdrop : (high ++ BACKSLASH :: 117 :: low ++ rest).drop 10 = rest :=
        List.drop_left' hboth
      rwa [List.append_assoc] at hdrop
    have hnotOther : ¬(0xDC00 + l < 0xDC00 ∨ 0xDC00 + l > 0xDFFF) := by omega
    simp only [if_neg hnotOther, hcodepoint, encodeUtf8_toNat, Except.ok.injEq,
      Prod.mk.injEq] at h
    obtain ⟨rfl, rfl⟩ := h
    refine ⟨char, rfl, by omega, ?_⟩
    rw [hrest]
    exact .surrogates hhigh hlength hvalue lvalue (by omega) (by omega) hchar
  · have hlt : value < 0x10000 := by
      have hlength : 3 < (high ++ behind).length := by
        rw [List.length_append]
        omega
      obtain ⟨code, hcode, hlt⟩ := parseHex4_defined hlength
      rw [parseHex4_hexValue hhigh hvalue] at hcode
      exact Except.ok.inj hcode ▸ hlt
    obtain ⟨char, rfl⟩ : ∃ char : Char, char.toNat = value := exists_char (by
      rw [Nat.isValidChar]
      omega)
    simp only [if_neg hisHigh, encodeUtf8_toNat, Except.ok.injEq, Prod.mk.injEq] at h
    obtain ⟨rfl, rfl⟩ := h
    exact ⟨char, rfl, Nat.not_lt.mp h6, hsecond.symm ▸ .unicode hhigh hvalue⟩

theorem of_writeBytes_bind {α : Type} {room : Nat} {output : List UInt8} {answer : α}
    {next : List UInt8 → Except ParseFault α}
    (h : (writeBytes room output bytes).bind next = .ok answer) :
    next (output ++ bytes) = .ok answer := by
  unfold writeBytes at h
  split_ifs at h with hroom
  · exact h
  · cases h

theorem jsonChars_of_unescape : ∀ {text : List UInt8} {left units room : Nat}
    {output result leftover : List UInt8}, HexLiterals text → Scanned text left units →
      unescape room text left output = .ok (some result, leftover) →
        ∃ bytes, result = output ++ bytes ∧ JsonChars text bytes (text.drop (left + 1))
  | text, 0, units, room, output, result, leftover, _, hscanned, h => by
      cases hscanned with
      | quote rest =>
          have hend : (writeBytes room output [0]).bind (fun _ => .ok (some output, QUOTE :: rest)) =
              .ok (some result, leftover) := unescape_zero.symm.trans h
          cases of_writeBytes_bind hend
          exact ⟨[], (List.append_nil _).symm, .quote rest⟩
  | [], _ + 1, _, _, _, _, _, _, hscanned, _ =>
      absurd hscanned.left_lt_length (Nat.not_lt_zero _)
  | [_], left + 1, _, _, _, _, _, _, hscanned, _ =>
      absurd hscanned.left_lt_length (Nat.not_lt.mpr (Nat.le_add_left 1 left))
  | c :: e :: rest, left + 1, units, room, output, result, leftover, hhex, hscanned, h => by
      by_cases hc : c ≠ BACKSLASH
      · have hquote : c ≠ QUOTE := by
          rintro rfl
          cases hscanned with
          | plain hquote => exact hquote rfl
        obtain ⟨_, _, hleft, _, hrest⟩ := hscanned.behind_byte hquote hc
        cases hleft
        rw [unescape_byte hc] at h
        obtain ⟨bytes, rfl, hchars⟩ :=
          jsonChars_of_unescape (hhex.of_suffix (List.suffix_cons _ _)) hrest (of_writeBytes_bind h)
        exact ⟨c :: bytes, List.append_assoc _ _ _, .byte hquote hc hchars⟩
      obtain rfl : c = BACKSLASH := not_not.mp hc
      cases he : escaped e with
      | some c =>
          obtain ⟨left', _, hleft, _, hrest⟩ := hscanned.behind_escape
          cases hleft
          rw [unescape_escaped he] at h
          obtain ⟨bytes, rfl, hchars⟩ :=
            jsonChars_of_unescape
              (hhex.of_suffix ((List.suffix_cons _ _).trans (List.suffix_cons _ _))) hrest
              (of_writeBytes_bind h)
          exact ⟨c :: bytes, List.append_assoc _ _ _, .escape he hchars⟩
      | none =>
          by_cases hu : e = 117
          · subst hu
            rw [unescape_literal] at h
            cases hutf8 : utf16LiteralToUtf8 (BACKSLASH :: 117 :: rest) (left + 1) with
            | error fault =>
                rw [hutf8] at h
                cases h
            | ok answer =>
                obtain ⟨n, bytes⟩ := answer
                simp only [hutf8, Except.bind] at h
                by_cases hn : n = 0
                · rw [if_pos hn] at h
                  cases h
                rw [if_neg hn] at h
                obtain ⟨char, rfl, hle, hliteral⟩ := literal_of_utf16 hhex hutf8 hn
                obtain ⟨left', _, hleft, hrest⟩ := hscanned.behind_literal hliteral
                have hinside := hscanned.left_lt_length
                have hbehind : left + 1 - n = left' := by
                  rw [List.length_drop] at hleft
                  omega
                rw [hbehind] at h
                obtain ⟨bytes, rfl, hchars⟩ :=
                  jsonChars_of_unescape (hhex.of_suffix (List.drop_suffix n _)) hrest
                    (of_writeBytes_bind h)
                refine ⟨_, List.append_assoc _ _ _, ?_⟩
                have hend : n + (left' + 1) = left + 1 + 1 := by omega
                rw [List.drop_drop, hend] at hchars
                exact .literal hliteral hchars
          · rw [unescape_unknown he hu] at h
            cases h
termination_by text => text.length
decreasing_by
  · exact Nat.lt_succ_self _
  · rw [List.length_drop]
    exact Nat.sub_lt (Nat.succ_pos _) (Nat.pos_of_ne_zero hn)
  · exact Nat.lt_succ_of_lt (Nat.lt_succ_self _)

/-- What is read is a string of JSON. -/
theorem jsonString_of_readString (hhex : HexLiterals text) (h : ReadString text bytes rest) :
    JsonString text bytes rest := by
  obtain ⟨hscan, hread⟩ := h
  obtain ⟨_, hchars, hjson⟩ := jsonChars_of_unescape
    (hhex.of_suffix (List.suffix_cons _ _)) (scanned_of_scanString hscan).2 hread
  exact .mk (hchars ▸ hjson)

end Soundness

end Config
end EVdeSwitch
