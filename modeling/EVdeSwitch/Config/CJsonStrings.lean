import EVdeSwitch.Config.CJsonParser
import Mathlib.Tactic.Ring

/-!
# CJsonStrings — the room for a string

`parse_string` goes through a string twice: the first pass finds the quote at its end and counts the
room by the escape sequences that it sees, and the second pass writes.  A `\u` without its four
digits makes the second pass see other escape sequences than the first one, so it may even take the
quote at the end for an escaped one; it stays inside of the text and of the room all the same.
-/

namespace EVdeSwitch
namespace Config

section Room

variable {input rest output : List UInt8} {left units room : Nat}

/-- What the first pass sees: it is `left` bytes to the quote, in as many units as bytes are to be
written. -/
inductive Scanned : List UInt8 → Nat → Nat → Prop
  | quote (rest : List UInt8) : Scanned (QUOTE :: rest) 0 0
  | plain {c : UInt8} {rest : List UInt8} {left units : Nat} :
      c ≠ QUOTE → c ≠ BACKSLASH → Scanned rest left units →
        Scanned (c :: rest) (left + 1) (units + 1)
  | escape (c : UInt8) {rest : List UInt8} {left units : Nat} :
      Scanned rest left units → Scanned (BACKSLASH :: c :: rest) (left + 2) (units + 1)

theorem Scanned.left_lt_length (h : Scanned input left units) : left < input.length := by
  induction h with
  | quote rest => exact Nat.succ_pos _
  | plain _ _ _ ih => exact Nat.succ_lt_succ ih
  | escape c _ ih => exact Nat.succ_lt_succ (Nat.succ_lt_succ ih)

theorem scanString_quote (input : List UInt8) : scanString (QUOTE :: input) = some (0, 0) := by
  rw [scanString.eq_def]
  rfl

theorem scanString_escape (c : UInt8) (input : List UInt8) :
    scanString (BACKSLASH :: c :: input) =
      (scanString input).map fun (count, skipped) => (count + 2, skipped + 1) := by
  rw [scanString.eq_def]
  rfl

theorem scanString_plain {c : UInt8} (hquote : c ≠ QUOTE) (hbackslash : c ≠ BACKSLASH)
    (input : List UInt8) :
    scanString (c :: input) =
      (scanString input).map fun (count, skipped) => (count + 1, skipped) := by
  rw [scanString.eq_def]
  exact (if_neg hquote).trans (if_neg hbackslash)

theorem scanned_of_scanString : ∀ {input : List UInt8} {count skipped : Nat},
    scanString input = some (count, skipped) →
      skipped ≤ count ∧ Scanned input count (count - skipped)
  | [], _, _, h => by cases h
  | c :: input, count, skipped, h => by
      by_cases hquote : c = QUOTE
      · rw [hquote, scanString_quote, Option.some.injEq, Prod.mk.injEq] at h
        obtain ⟨rfl, rfl⟩ := h
        exact ⟨le_refl 0, hquote ▸ .quote input⟩
      · by_cases hbackslash : c = BACKSLASH
        · subst hbackslash
          rcases input with _ | ⟨e, input⟩
          · cases h
          · rw [scanString_escape, Option.map_eq_some_iff] at h
            obtain ⟨⟨n, m⟩, hscan, heq⟩ := h
            cases heq
            have ⟨hle, hscanned⟩ := scanned_of_scanString hscan
            have hunits : n + 2 - (m + 1) = n - m + 1 := by omega
            refine ⟨by omega, ?_⟩
            rw [hunits]
            exact .escape e hscanned
        · rw [scanString_plain hquote hbackslash, Option.map_eq_some_iff] at h
          obtain ⟨⟨n, m⟩, hscan, heq⟩ := h
          cases heq
          have ⟨hle, hscanned⟩ := scanned_of_scanString hscan
          refine ⟨Nat.le_succ_of_le hle, ?_⟩
          rw [Nat.sub_add_comm hle]
          exact .plain hquote hbackslash hscanned

/-- What the second pass may find: it is where a unit begins, or behind the backslash of one, or at
the end. -/
inductive Budget : List UInt8 → Nat → Nat → Prop
  | aligned {input : List UInt8} {left units : Nat} :
      Scanned input left units → Budget input left units
  | between (c : UInt8) {rest : List UInt8} {left units : Nat} :
      Scanned rest left units → Budget (c :: rest) (left + 1) (units + 1)
  | atEnd (input : List UInt8) (units : Nat) : Budget input 0 units

namespace Budget

theorem left_lt_length (h : Budget input left units) (hleft : 0 < left) :
    left < input.length := by
  cases h with
  | aligned h => exact h.left_lt_length
  | between c h => exact Nat.succ_lt_succ h.left_lt_length
  | atEnd => exact absurd hleft (Nat.lt_irrefl 0)

/-- A byte that is no backslash is worth a unit. -/
theorem byte {c : UInt8} (h : Budget (c :: rest) (left + 1) units) (hc : c ≠ BACKSLASH) :
    ∃ units', Budget rest left units' ∧ units' + 1 = units := by
  cases h with
  | aligned h =>
      cases h with
      | plain _ _ h => exact ⟨_, .aligned h, rfl⟩
      | escape => exact absurd rfl hc
  | between _ h => exact ⟨_, .aligned h, rfl⟩

/-- Two bytes are worth a unit, wherever they begin. -/
theorem twoBytes {c e : UInt8} (h : Budget (c :: e :: rest) (left + 2) units) :
    ∃ units', Budget rest left units' ∧ units' + 1 ≤ units := by
  -- the second byte may be the backslash of a unit
  have behindByte {input : List UInt8} {left units : Nat}
      (h : Scanned (e :: input) (left + 1) units) :
      ∃ units', Budget input left units' ∧ units' ≤ units := by
    cases h with
    | plain _ _ h => exact ⟨_, .aligned h, Nat.le_succ _⟩
    | escape c' hrest => exact ⟨_, .between c' hrest, le_refl _⟩
  cases h with
  | aligned h =>
      cases h with
      | plain _ _ h =>
          have ⟨units', h', hle⟩ := behindByte h
          exact ⟨units', h', Nat.succ_le_succ hle⟩
      | escape _ h => exact ⟨_, .aligned h, le_refl _⟩
  | between _ h =>
      have ⟨units', h', hle⟩ := behindByte h
      exact ⟨units', h', Nat.succ_le_succ hle⟩

/-- So many pairs of bytes are worth so many units. -/
theorem pairs : ∀ (n : Nat) {input : List UInt8} {left units : Nat}, Budget input left units →
    2 * n ≤ left → ∃ units', Budget (input.drop (2 * n)) (left - 2 * n) units' ∧
      units' + n ≤ units
  | 0, _, _, units, h, _ => ⟨units, h, le_refl _⟩
  | n + 1, input, left, units, h, hle => by
      have hlength := h.left_lt_length (by omega)
      rcases input with _ | ⟨c, _ | ⟨e, rest⟩⟩
      · exact absurd hlength (Nat.not_lt_zero _)
      · exact absurd hlength (by simp only [List.length_cons, List.length_nil]; omega)
      · obtain ⟨left, rfl⟩ : ∃ l, left = l + 2 := ⟨left - 2, by omega⟩
        have ⟨units₁, h₁, hle₁⟩ := h.twoBytes
        have ⟨units₂, h₂, hle₂⟩ := pairs n h₁ (by omega)
        have hleft : left + 2 - 2 * (n + 1) = left - 2 * n := by omega
        refine ⟨units₂, ?_, by omega⟩
        rw [hleft, Nat.mul_succ, List.drop_succ_cons, List.drop_succ_cons]
        exact h₂

/-- A backslash that is the last byte in front of the quote; then the quote is escaped. -/
theorem last (h : Budget (BACKSLASH :: rest) 1 units) :
    0 < units ∧ ∃ rest', rest = QUOTE :: rest' := by
  cases h with
  | aligned h =>
      cases h with
      | plain _ hc => exact absurd rfl hc
  | between _ h =>
      cases h with
      | quote rest => exact ⟨Nat.succ_pos _, rest, rfl⟩

end Budget

theorem hexDigit_lt {c : UInt8} {digit : Nat} (h : hexDigit c = some digit) : digit < 16 := by
  unfold hexDigit at h
  split_ifs at h with h09 hAF haf
  · have := UInt8.le_iff_toNat_le.mp h09.2
    cases h
    exact Nat.lt_of_le_of_lt (Nat.sub_le_sub_right this 48) (by decide)
  · have := UInt8.le_iff_toNat_le.mp hAF.2
    cases h
    exact Nat.lt_of_le_of_lt (Nat.sub_le_sub_right (Nat.add_le_add_left this 10) 65) (by decide)
  · have := UInt8.le_iff_toNat_le.mp haf.2
    cases h
    exact Nat.lt_of_le_of_lt (Nat.sub_le_sub_right (Nat.add_le_add_left this 10) 97) (by decide)

/-- The last digit of `h` is still to be added. -/
theorem parseHexDigits_defined : ∀ (digits : Nat) {h m : Nat} {input : List UInt8},
    digits < input.length → h + 16 ≤ 16 * m →
      ∃ code, parseHexDigits (digits + 1) h input = .ok code ∧ code < 16 ^ (digits + 1) * m
  | _, _, _, [], hlength, _ => absurd hlength (Nat.not_lt_zero _)
  | digits, h, m, c :: input, hlength, hle => by
      have hpos : 0 < m := by omega
      rw [parseHexDigits]
      cases hc : hexDigit c with
      | none => exact ⟨0, rfl, Nat.mul_pos (Nat.pow_pos (by decide)) hpos⟩
      | some digit =>
          have hdigit := hexDigit_lt hc
          rcases digits with _ | digits
          · exact ⟨h + digit, rfl, by omega⟩
          · have hshift : (h + digit) <<< 4 + 16 ≤ 16 * (16 * m) := by
              rw [Nat.shiftLeft_eq]
              omega
            obtain ⟨code, hcode, hlt⟩ :=
              parseHexDigits_defined digits (Nat.lt_of_succ_lt_succ hlength) hshift
            refine ⟨code, hcode, ?_⟩
            rwa [← Nat.mul_assoc, ← Nat.pow_succ] at hlt

theorem parseHex4_defined (h : 3 < input.length) :
    ∃ code, parseHex4 input = .ok code ∧ code < 0x10000 :=
  parseHexDigits_defined (m := 1) 3 h (le_refl 16)

theorem length_encodeFrom (first_byte_mark : Nat) : ∀ (n codepoint : Nat) (behind : List UInt8),
    (encodeFrom first_byte_mark n codepoint behind).length = n + 1 + behind.length
  | 0, _, behind => Nat.add_comm _ _
  | n + 1, codepoint, behind => by
      rw [encodeFrom, length_encodeFrom, List.length_cons]
      omega

theorem encodeUtf8_defined {codepoint : Nat} (h : codepoint ≤ 0x10FFFF) :
    ∃ bytes, encodeUtf8 codepoint = some bytes ∧ bytes.length ≤ 4 ∧
      (codepoint < 0x10000 → bytes.length ≤ 3) := by
  have length_encode (mark n : Nat) : (encodeFrom mark n codepoint []).length = n + 1 :=
    length_encodeFrom mark n codepoint []
  unfold encodeUtf8
  split_ifs with h7 h11 h16
  · exact ⟨_, rfl, Nat.le_add_left 1 3, fun _ => Nat.le_add_left 1 2⟩
  · exact ⟨_, rfl, (length_encode _ _).le.trans (by decide),
      fun _ => (length_encode _ _).le.trans (by decide)⟩
  · exact ⟨_, rfl, (length_encode _ _).le.trans (by decide), fun _ => (length_encode _ _).le⟩
  · exact ⟨_, rfl, (length_encode _ _).le, fun h => absurd h h16⟩

theorem surrogates_le (first_code second_code : Nat) :
    0x10000 + (((first_code &&& 0x3FF) <<< 10) ||| (second_code &&& 0x3FF)) ≤ 0x10FFFF := by
  have hfirst : (first_code &&& 0x3FF) <<< 10 < 2 ^ 20 := by
    have : first_code &&& 0x3FF < 2 ^ 10 := Nat.and_lt_two_pow _ (by decide)
    rw [Nat.shiftLeft_eq]
    omega
  have hsecond : second_code &&& 0x3FF < 2 ^ 20 :=
    (Nat.and_lt_two_pow _ (by decide : 0x3FF < 2 ^ 10)).trans (by decide)
  have := Nat.or_lt_two_pow hfirst hsecond
  omega

/-- A literal is read inside of the text, and is written in half of its length. -/
theorem utf16LiteralToUtf8_defined (h : left < input.length) :
    ∃ sequence_length bytes, utf16LiteralToUtf8 input left = .ok (sequence_length, bytes) ∧
      (sequence_length ≠ 0 → ∃ n, sequence_length = 2 * n ∧ sequence_length ≤ left ∧
        bytes.length ≤ n) := by
  have fails (hne : 0 ≠ 0) : ∃ n, 0 = 2 * n ∧ 0 ≤ left ∧ ([] : List UInt8).length ≤ n :=
    absurd rfl hne
  unfold utf16LiteralToUtf8
  by_cases h6 : left < 6
  · exact ⟨0, [], if_pos h6, fails⟩
  have hdigits : 3 < (input.drop 2).length := by
    rw [List.length_drop]
    omega
  obtain ⟨first_code, hfirst, hlt⟩ := parseHex4_defined hdigits
  simp only [if_neg h6, hfirst, Except.bind]
  by_cases hlow : 0xDC00 ≤ first_code ∧ first_code ≤ 0xDFFF
  · exact ⟨0, [], if_pos hlow, fails⟩
  rw [if_neg hlow]
  by_cases hhigh : 0xD800 ≤ first_code ∧ first_code ≤ 0xDBFF
  · rw [if_pos hhigh]
    by_cases h12 : left - 6 < 6
    · exact ⟨0, [], if_pos h12, fails⟩
    rw [if_neg h12]
    obtain ⟨c, u, second_sequence, hdrop, hlength⟩ :
        ∃ c u second_sequence, input.drop 6 = c :: u :: second_sequence ∧
          3 < second_sequence.length := by
      have hlength : 6 ≤ (input.drop 6).length := by
        rw [List.length_drop]
        omega
      match input.drop 6, hlength with
      | c :: u :: second_sequence, hlength =>
          exact ⟨c, u, second_sequence, rfl, Nat.le_of_succ_le_succ (Nat.le_of_succ_le_succ hlength)⟩
    rw [hdrop]
    by_cases hmark : c ≠ BACKSLASH ∨ u ≠ 117
    · exact ⟨0, [], if_pos hmark, fails⟩
    obtain ⟨second_code, hsecond, _⟩ := parseHex4_defined hlength
    obtain ⟨bytes, hencode, hle, _⟩ := encodeUtf8_defined (surrogates_le first_code second_code)
    simp only [if_neg hmark, hsecond, hencode]
    by_cases hpair : second_code < 0xDC00 ∨ second_code > 0xDFFF
    · exact ⟨0, [], if_pos hpair, fails⟩
    · exact ⟨12, bytes, if_neg hpair, fun _ => ⟨6, rfl, by omega, hle.trans (by decide)⟩⟩
  · have hle : first_code ≤ 0x10FFFF := hlt.le.trans (by decide)
    obtain ⟨bytes, hencode, _, hshort⟩ := encodeUtf8_defined hle
    simp only [if_neg hhigh, hencode]
    exact ⟨6, bytes, rfl, fun _ => ⟨3, rfl, by omega, hshort hlt⟩⟩

theorem unescape_zero :
    unescape room input 0 output =
      (writeBytes room output [0]).map fun _ => (some output, input) := by
  rw [unescape.eq_def]
  rfl

theorem unescape_byte {c : UInt8} (hc : c ≠ BACKSLASH) :
    unescape room (c :: rest) (left + 1) output =
      (writeBytes room output [c]).bind fun output => unescape room rest left output := by
  rw [unescape.eq_def]
  exact if_pos hc

theorem unescape_escaped {e c : UInt8} (he : escaped e = some c) :
    unescape room (BACKSLASH :: e :: rest) (left + 1) output =
      (writeBytes room output [c]).bind fun output => unescape room rest (left - 1) output := by
  rw [unescape.eq_def]
  simp only [Nat.add_one_ne_zero, if_false, ne_eq, not_true_eq_false, he]
  rfl

theorem unescape_literal :
    unescape room (BACKSLASH :: 117 :: rest) (left + 1) output =
      (utf16LiteralToUtf8 (BACKSLASH :: 117 :: rest) (left + 1)).bind
        fun (sequence_length, bytes) =>
          if sequence_length = 0 then .ok (none, BACKSLASH :: 117 :: rest)
          else (writeBytes room output bytes).bind fun output =>
            unescape room ((BACKSLASH :: 117 :: rest).drop sequence_length)
              (left + 1 - sequence_length) output := by
  rw [unescape.eq_def]
  rfl

theorem unescape_unknown {e : UInt8} (he : escaped e = none) (hu : e ≠ 117) :
    unescape room (BACKSLASH :: e :: rest) (left + 1) output =
      .ok (none, BACKSLASH :: e :: rest) := by
  rw [unescape.eq_def]
  simp only [Nat.add_one_ne_zero, if_false, ne_eq, not_true_eq_false, he, hu]

theorem writeBytes_of_le {bytes : List UInt8} (h : output.length + bytes.length ≤ room) :
    writeBytes room output bytes = .ok (output ++ bytes) :=
  if_pos h

theorem writeBytes_byte (h : output.length < room) (c : UInt8) :
    writeBytes room output [c] = .ok (output ++ [c]) :=
  if_pos h

/-- The second pass stays inside of the text and of its allocation. -/
theorem unescape_defined : ∀ {input : List UInt8} {left units : Nat} {output : List UInt8},
    Budget input left units → output.length + units < room →
      ∃ answer, unescape room input left output = .ok answer
  | _, 0, _, _, _, hroom => by
      rw [unescape_zero, writeBytes_byte (Nat.lt_of_le_of_lt (Nat.le_add_right _ _) hroom)]
      exact ⟨_, rfl⟩
  | [], _ + 1, _, _, h, _ => absurd (h.left_lt_length (Nat.succ_pos _)) (Nat.not_lt_zero _)
  | [_], left + 1, _, _, h, _ =>
      absurd (h.left_lt_length (Nat.succ_pos left)) (Nat.not_lt.mpr (Nat.le_add_left 1 left))
  | c :: e :: rest, left + 1, units, output, h, hroom => by
      have hone (c : UInt8) : (output ++ [c]).length = output.length + 1 := List.length_append
      by_cases hc : c ≠ BACKSLASH
      · obtain ⟨units', h', hunits⟩ := h.byte hc
        have hwrite : output.length < room := by omega
        rw [unescape_byte hc, writeBytes_byte hwrite]
        exact unescape_defined h' (by rw [hone]; omega)
      obtain rfl : c = BACKSLASH := not_not.mp hc
      cases he : escaped e with
      | some c =>
          -- one byte is written for the two
          obtain ⟨units', h', hunits⟩ :
              ∃ units', Budget rest (left - 1) units' ∧ units' + 1 ≤ units := by
            rcases left with _ | left
            · exact ⟨units - 1, .atEnd rest _, (Nat.sub_add_cancel h.last.1).le⟩
            · exact h.twoBytes
          have hwrite : output.length < room := by omega
          rw [unescape_escaped he, writeBytes_byte hwrite]
          exact unescape_defined h' (by rw [hone]; omega)
      | none =>
          by_cases hu : e = 117
          · subst hu
            obtain ⟨sequence_length, bytes, hliteral, hwritten⟩ :=
              utf16LiteralToUtf8_defined (h.left_lt_length (Nat.succ_pos _))
            rw [unescape_literal, hliteral]
            by_cases hzero : sequence_length = 0
            · exact ⟨_, if_pos hzero⟩
            obtain ⟨n, rfl, hle, hbytes⟩ := hwritten hzero
            obtain ⟨units', h', hunits⟩ := h.pairs n hle
            have hlength : (output ++ bytes).length = output.length + bytes.length :=
              List.length_append
            have hwrite : output.length + bytes.length ≤ room := by omega
            simp only [Except.bind, if_neg hzero, writeBytes_of_le hwrite]
            exact unescape_defined h' (by rw [hlength]; omega)
          · exact ⟨_, unescape_unknown he hu⟩
termination_by input => input.length
decreasing_by
  · exact Nat.lt_succ_self _
  · rw [List.length_drop]
    exact Nat.sub_lt (Nat.succ_pos _) (Nat.pos_of_ne_zero hzero)
  · exact Nat.lt_succ_of_lt (Nat.lt_succ_self _)

end Room

end Config
end EVdeSwitch
