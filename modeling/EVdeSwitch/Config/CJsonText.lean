import EVdeSwitch.Config.CJsonReading

/-!
# CJsonText — which texts are accepted

`cJSON_Parse` stays inside of its memory and comes to an end, whatever the text is.  Where each `\u`
has its four digits, what it accepts are the texts of JSON, nested up to the limit, and the item is
what the text stands for.
-/

namespace EVdeSwitch
namespace Config

open EVdeSwitch.Lib

section Texts

variable {ν : Type} {env : ParseEnv ν} {text rest : List UInt8} {item : CJsonItem ν}

/-! ## Nested values -/

theorem jsonValue_startsBefore {strtod : List UInt8 → ν × Nat}
    {string : Grammar UInt8 (List UInt8)}
    (hstring : ∀ text bytes rest, string text bytes rest → ∃ t, text = QUOTE :: t) {closing : UInt8}
    (hclosing : closing = 93 ∨ closing = 125) (levels : Nat) :
    StartsBefore (JsonValue strtod string levels) closing := by
  intro text item rest h
  obtain ⟨c, t, htext, hblank, h93, h125, _⟩ :
      ∃ c t, text = c :: t ∧ ¬IsBlank c ∧ c ≠ 93 ∧ c ≠ 125 ∧ c ≠ 0xEF := by
    cases levels with
    | zero => exact jsonValue_head hstring h
    | succ levels => exact jsonValue_head hstring h
  rcases hclosing with rfl | rfl
  · exact ⟨c, t, htext, hblank, h93⟩
  · exact ⟨c, t, htext, hblank, h125⟩

theorem parseValue_sound (hstrtod : ∀ text, (env.strtod text).2 ≤ text.length) :
    ∀ levels, Sound (JsonValue env.strtod ReadString levels) (parseValue env levels)
  | 0 => parseValueWith_sound hstrtod (by rintro _ ⟨⟩)
  | levels + 1 => parseValueWith_sound hstrtod (by
      rintro _ ⟨⟩
      exact ⟨_, rfl, parseValue_sound hstrtod levels⟩)

theorem parseValue_complete (hallocates : ∀ n, env.allocates n = true)
    (hstrtod : ∀ text, (env.strtod text).2 ≤ text.length) :
    ∀ levels, Complete (JsonValue env.strtod ReadString levels) (parseValue env levels)
  | 0 => parseValueWith_complete hallocates hstrtod (by rintro _ ⟨⟩) (by rintro _ ⟨⟩)
  | levels + 1 => by
      have hsound := parseValue_sound hstrtod levels
      refine parseValueWith_complete hallocates hstrtod ?_ ?_
      · rintro _ ⟨⟩
        exact ⟨_, rfl, hsound⟩
      · rintro _ ⟨⟩
        exact ⟨_, rfl, parseValue_complete hallocates hstrtod levels, hsound,
          fun _ hclosing => jsonValue_startsBefore readString_head hclosing levels⟩

/-! ## Whole texts -/

/-- A string in C up to its NUL, and with it. -/
def cString (value : List UInt8) : List UInt8 :=
  value.takeWhile (· ≠ 0) ++ [0]

theorem terminated_cString (value : List UInt8) : Terminated (cString value) :=
  List.getLast?_append_cons _ _ _

/-- The buffer with which the first value is parsed. -/
def startBuffer (text : List UInt8) : ParseBuffer :=
  { content := text
    offset := 0
    allocated := 1 }

theorem skipUtf8Bom_cases (text : List UInt8) :
    (startBuffer text).skipUtf8Bom = startBuffer text ∨
      ∃ t, text = 0xEF :: 0xBB :: 0xBF :: t ∧
        (startBuffer text).skipUtf8Bom = (startBuffer text).advance 3 := by
  by_cases hmark : (startBuffer text).canAccessAtIndex 4 &&
      [0xEF, 0xBB, 0xBF].isPrefixOf (startBuffer text).rest
  · obtain ⟨t, ht⟩ := List.isPrefixOf_iff_prefix.mp (Bool.and_eq_true_iff.mp hmark).2
    exact .inr ⟨t, ht.symm, if_pos hmark⟩
  · exact .inl (if_neg hmark)

/-- After the mark and the blanks. -/
theorem startBuffer_skips (env : ParseEnv ν) (hterminated : Terminated text) :
    (startBuffer text).skipUtf8Bom.skipWhitespace.content = text ∧
      Terminated (startBuffer text).skipUtf8Bom.skipWhitespace.rest ∧
        ∀ levels item rest,
          JsonValue env.strtod ReadString levels
            (startBuffer text).skipUtf8Bom.skipWhitespace.rest item rest →
              JsonText env.strtod ReadString levels text item rest := by
  rcases skipUtf8Bom_cases text with hmark | ⟨t, rfl, hmark⟩
  · rw [hmark]
    obtain ⟨hcontent, _, hinside, hblanks⟩ :=
      ParseBuffer.skips_skipWhitespace (show Terminated (startBuffer text).rest from hterminated)
    exact ⟨hcontent, hinside, fun _ _ _ h => .plain hblanks h⟩
  · rw [hmark]
    have htail : Terminated t :=
      ((hterminated.tail (by decide)).tail (by decide)).tail (by decide)
    obtain ⟨hcontent, _, hinside, hblanks⟩ := ParseBuffer.skips_skipWhitespace
      (show Terminated ((startBuffer (0xEF :: 0xBB :: 0xBF :: t)).advance 3).rest from htail)
    exact ⟨hcontent, hinside, fun _ _ _ h => .marked hblanks h⟩

/-- A value in the text is where its parsing starts. -/
theorem startBuffer_of_jsonText {levels : Nat} (hterminated : Terminated text)
    (h : JsonText env.strtod ReadString levels text item rest) :
    JsonValue env.strtod ReadString levels
      (startBuffer text).skipUtf8Bom.skipWhitespace.rest item rest := by
  have hhead {value : List UInt8} (h : JsonValue env.strtod ReadString levels value item rest) :
      ∃ c t, value = c :: t ∧ ¬IsBlank c ∧ c ≠ 93 ∧ c ≠ 125 ∧ c ≠ 0xEF := by
    cases levels with
    | zero => exact jsonValue_head readString_head h
    | succ levels => exact jsonValue_head readString_head h
  cases h with
  | @plain text value rest item hblanks hvalue =>
      obtain ⟨c, t, rfl, hc, _, _, hne⟩ := hhead hvalue
      have hmark : (startBuffer text).skipUtf8Bom = startBuffer text := by
        rcases skipUtf8Bom_cases text with hmark | ⟨t, rfl, _⟩
        · exact hmark
        · -- the first byte of the mark is not blank
          cases hblanks with
          | done => exact absurd rfl hne
          | skip hblank => exact absurd hblank (by decide)
      have hfirst : (startBuffer text).skipWhitespace.rest = c :: t :=
        ParseBuffer.skipWhitespace_of_blanks hc hblanks
      rw [hmark, hfirst]
      exact hvalue
  | @marked text value rest item hblanks hvalue =>
      obtain ⟨c, t, rfl, hc, _, _, hne⟩ := hhead hvalue
      have hmark : (startBuffer (0xEF :: 0xBB :: 0xBF :: text)).skipUtf8Bom =
          (startBuffer (0xEF :: 0xBB :: 0xBF :: text)).advance 3 := by
        have hlength : 1 < text.length := by
          have htail : Terminated text :=
            ((hterminated.tail (by decide)).tail (by decide)).tail (by decide)
          rcases text with _ | ⟨b, _ | ⟨b', text⟩⟩
          · cases htail
          · obtain rfl : b = 0 := Option.some.inj htail
            cases hblanks with
            | done => exact absurd (by decide) hc
            | skip _ hblanks => cases hblanks
          · exact Nat.succ_lt_succ (Nat.succ_pos _)
        have hinside :
            (startBuffer (0xEF :: 0xBB :: 0xBF :: text)).canAccessAtIndex 4 = true :=
          decide_eq_true (by
            simp only [startBuffer, List.length_cons]
            omega)
        rw [ParseBuffer.skipUtf8Bom, hinside]
        rfl
      have hfirst :
          ((startBuffer (0xEF :: 0xBB :: 0xBF :: text)).advance 3).skipWhitespace.rest = c :: t :=
        ParseBuffer.skipWhitespace_of_blanks hc hblanks
      rw [hmark, hfirst]
      exact hvalue

theorem fail_position {buffer : ParseBuffer} (h : 0 < buffer.content.length) :
    ∃ position, buffer.fail = (.failed position : ParseOutcome ν) ∧
      position < buffer.content.length := by
  refine ⟨_, rfl, ?_⟩
  split_ifs with hinside
  · exact hinside
  · exact Nat.sub_lt h Nat.one_pos

theorem offset_eq {buffer : ParseBuffer} (h : Terminated buffer.rest) :
    buffer.offset = buffer.content.length - buffer.rest.length := by
  obtain ⟨c, t, hrest⟩ := h.exists_cons
  have hlt := ParseBuffer.offset_lt_of_rest hrest
  have hlength : buffer.rest.length = buffer.content.length - buffer.offset := List.length_drop
  omega

theorem cJsonParse_eq (value : List UInt8) :
    cJsonParse env value =
      if env.allocates 0 then
        (parseValue env CJSON_NESTING_LIMIT
          (startBuffer (cString value)).skipUtf8Bom.skipWhitespace).bind fun
            | (none, buffer) => .ok buffer.fail
            | (some item, buffer) => .ok (.parsed item buffer.offset)
      else .ok (startBuffer (cString value)).fail := by
  have hne : cString value ≠ [] := List.concat_ne_nil _ _
  have hparse : cJsonParse env value = parseWithLengthOpts env (cString value) .false := rfl
  rw [hparse, parseWithLengthOpts, if_neg hne]
  cases hallocates : env.allocates 0 with
  | false =>
      simp only [ParseBuffer.allocate, hallocates]
      rfl
  | true =>
      simp only [ParseBuffer.allocate, hallocates]
      rfl

/-- The text is not left, and what is accepted is in the grammar. -/
theorem cJsonParse_sound (hstrtod : ∀ text, (env.strtod text).2 ≤ text.length)
    (value : List UInt8) :
    (∃ position, cJsonParse env value = .ok (.failed position) ∧
        position < (cString value).length) ∨
      ∃ item rest, cJsonParse env value =
          .ok (.parsed item ((cString value).length - rest.length)) ∧ Terminated rest ∧
        JsonText env.strtod ReadString CJSON_NESTING_LIMIT (cString value) item rest := by
  have hpos : 0 < (cString value).length :=
    List.length_pos_iff.mpr (List.concat_ne_nil _ _)
  rw [cJsonParse_eq]
  cases env.allocates 0 with
  | false =>
      have hstart : 0 < (startBuffer (cString value)).content.length := hpos
      obtain ⟨position, hfail, hlt⟩ := fail_position hstart
      exact .inl ⟨position, congrArg Except.ok hfail, hlt⟩
  | true =>
      obtain ⟨hcontent, hinside, htext⟩ := startBuffer_skips env (terminated_cString value)
      rcases parseValue_sound hstrtod CJSON_NESTING_LIMIT _ hinside with
        ⟨behind, hread, hsame⟩ | ⟨item, behind, hread, hreads⟩
      · rw [hread]
        rw [hcontent] at hsame
        obtain ⟨position, hfail, hlt⟩ := fail_position (hsame ▸ hpos : 0 < behind.content.length)
        rw [hsame] at hlt
        exact .inl ⟨position, congrArg Except.ok hfail, hlt⟩
      · rw [hread]
        refine .inr ⟨item, behind.rest, ?_, hreads.terminated, htext _ _ _ hreads.reads⟩
        rw [← hcontent, ← hreads.content, ← offset_eq hreads.terminated]
        rfl

/-- Where the item ends in the text, or where the error is. -/
def ParseOutcome.position : ParseOutcome ν → Nat
  | .parsed _ parse_end => parse_end
  | .failed position => position

/-- Whatever the text is and whichever allocations fail, the parser comes to an end, with no read or
write outside of its memory, and points into the text. -/
theorem cJsonParse_inside (hstrtod : ∀ text, (env.strtod text).2 ≤ text.length)
    (value : List UInt8) :
    ∃ outcome, cJsonParse env value = .ok outcome ∧
      outcome.position < (cString value).length := by
  rcases cJsonParse_sound hstrtod value with ⟨position, hparse, hlt⟩ | ⟨item, rest, hparse, hrest, _⟩
  · exact ⟨_, hparse, hlt⟩
  · obtain ⟨c, t, rfl⟩ := hrest.exists_cons
    exact ⟨_, hparse, Nat.sub_lt (List.length_pos_iff.mpr (List.concat_ne_nil _ _))
      (Nat.succ_pos _)⟩

/-- A list that does not end. -/
theorem cJsonParse_inside_open :
    cJsonParse (⟨fun _ => ((), 0), fun _ => .true⟩ : ParseEnv Unit) [91] = .ok (.failed 1) ∧
      1 < (cString [91]).length := by
  let env : ParseEnv Unit := ⟨fun _ => ((), 0), fun _ => .true⟩
  have hstrtod : ∀ text, (env.strtod text).2 ≤ text.length := fun _ => Nat.zero_le _
  have hfailed : cJsonParse env [91] = .ok (.failed 1) := rfl
  obtain ⟨outcome, hparse, hlt⟩ := cJsonParse_inside hstrtod [91]
  rw [hfailed] at hparse
  cases hparse
  exact ⟨hfailed, hlt⟩

theorem cJsonParse_complete (hallocates : ∀ n, env.allocates n = true)
    (hstrtod : ∀ text, (env.strtod text).2 ≤ text.length) {value : List UInt8}
    (h : JsonText env.strtod ReadString CJSON_NESTING_LIMIT (cString value) item rest) :
    cJsonParse env value = .ok (.parsed item ((cString value).length - rest.length)) := by
  obtain ⟨hcontent, hinside, _⟩ := startBuffer_skips env (terminated_cString value)
  obtain ⟨behind, hread, hreads, rfl⟩ :=
    parseValue_complete hallocates hstrtod CJSON_NESTING_LIMIT _ item rest hinside
      (startBuffer_of_jsonText (terminated_cString value) h)
  rw [cJsonParse_eq, if_pos (hallocates 0), hread, ← hcontent, ← hreads.content,
    ← offset_eq hreads.terminated]
  rfl

/-! ## Texts of JSON -/

theorem leavesSuffix_readString : LeavesSuffix ReadString := by
  rintro _ _ _ ⟨_, _⟩
  exact (List.drop_suffix _ _).trans (List.suffix_cons _ _)

theorem leavesSuffix_jsonString : LeavesSuffix JsonString := by
  intro text bytes rest h
  exact leavesSuffix_readString _ _ _ (readString_of_jsonString h)

section Agreement

variable {strtod : List UInt8 → ν × Nat} {string string' : Grammar UInt8 (List UInt8)}
variable {value value' : Grammar UInt8 (CJsonItem ν)}
variable {nested nested' : Option (Grammar UInt8 (CJsonItem ν))}

theorem JsonMember.leavesSuffix (hstring : LeavesSuffix string) (hvalue : LeavesSuffix value) :
    LeavesSuffix (JsonMember string value) := by
  rintro _ _ _ ⟨hname, hcolon, hblanks, hitem⟩
  exact ((hvalue _ _ _ hitem).trans hblanks.suffix).trans
    ((List.suffix_cons _ _).trans (hcolon.suffix.trans (hstring _ _ _ hname)))

theorem JsonMember.agreesOn (hname : LeavesSuffix string) (hstring : AgreesOn text string string')
    (hvalue : AgreesOn text value value') :
    AgreesOn text (JsonMember string value) (JsonMember string' value') := by
  rintro t _ _ hsuffix ⟨hread, hcolon, hblanks, hitem⟩
  have hnext := hblanks.suffix.trans
    ((List.suffix_cons _ _).trans (hcolon.suffix.trans ((hname _ _ _ hread).trans hsuffix)))
  exact .mk (hstring _ _ _ hsuffix hread) hcolon hblanks (hvalue _ _ _ hnext hitem)

theorem JsonValueWith.leavesSuffix (hstring : LeavesSuffix string)
    (hnested : ∀ value, nested = some value → LeavesSuffix value) :
    LeavesSuffix (JsonValueWith strtod string nested) := by
  intro text item rest h
  cases h with
  | null => exact List.suffix_append _ _
  | false => exact List.suffix_append _ _
  | true => exact List.suffix_append _ _
  | string h => exact hstring _ _ _ h
  | number => exact (List.drop_suffix _ _).trans (List.suffix_cons _ _)
  | array hvalue h => exact Bracketed.leavesSuffix (hnested _ hvalue) _ _ _ h
  | object hvalue h =>
      exact Bracketed.leavesSuffix (JsonMember.leavesSuffix hstring (hnested _ hvalue)) _ _ _ h

theorem JsonValueWith.agreesOn (hsuffix : LeavesSuffix string)
    (hstring : AgreesOn text string string')
    (hnested : ∀ value, nested = some value → LeavesSuffix value ∧
      ∃ value', nested' = some value' ∧ AgreesOn text value value') :
    AgreesOn text (JsonValueWith strtod string nested) (JsonValueWith strtod string' nested') := by
  intro t item rest ht h
  cases h with
  | null rest => exact .null rest
  | false rest => exact .false rest
  | true rest => exact .true rest
  | string h => exact .string (hstring _ _ _ ht h)
  | number hc hread => exact .number hc hread
  | array hvalue h =>
      obtain ⟨hleaves, value', hvalue', hagrees⟩ := hnested _ hvalue
      exact .array hvalue' (h.of_agreesOn hleaves (hagrees.of_suffix ht))
  | object hvalue h =>
      obtain ⟨hleaves, value', hvalue', hagrees⟩ := hnested _ hvalue
      exact .object hvalue' (h.of_agreesOn (JsonMember.leavesSuffix hsuffix hleaves)
        ((JsonMember.agreesOn hsuffix hstring hagrees).of_suffix ht))

theorem JsonValue.leavesSuffix (hstring : LeavesSuffix string) :
    ∀ levels, LeavesSuffix (JsonValue strtod string levels)
  | 0 => JsonValueWith.leavesSuffix hstring (by rintro _ ⟨⟩)
  | levels + 1 => JsonValueWith.leavesSuffix hstring (by
      rintro _ ⟨⟩
      exact JsonValue.leavesSuffix hstring levels)

theorem JsonValue.agreesOn (hsuffix : LeavesSuffix string)
    (hstring : AgreesOn text string string') :
    ∀ levels, AgreesOn text (JsonValue strtod string levels) (JsonValue strtod string' levels)
  | 0 => JsonValueWith.agreesOn hsuffix hstring (by rintro _ ⟨⟩)
  | levels + 1 => JsonValueWith.agreesOn hsuffix hstring (by
      rintro _ ⟨⟩
      exact ⟨JsonValue.leavesSuffix hsuffix levels, _, rfl,
        JsonValue.agreesOn hsuffix hstring levels⟩)

theorem JsonText.of_agreesOn {levels : Nat} (hsuffix : LeavesSuffix string)
    (hstring : AgreesOn text string string') (h : JsonText strtod string levels text item rest) :
    JsonText strtod string' levels text item rest := by
  cases h with
  | plain hblanks hvalue =>
      exact .plain hblanks (JsonValue.agreesOn hsuffix hstring levels _ _ _ hblanks.suffix hvalue)
  | @marked text value rest item hblanks hvalue =>
      have htext : text <:+ 0xEF :: 0xBB :: 0xBF :: text :=
        List.suffix_append [0xEF, 0xBB, 0xBF] text
      exact .marked hblanks
        (JsonValue.agreesOn hsuffix hstring levels _ _ _ (hblanks.suffix.trans htext) hvalue)

end Agreement

/-- Each text of JSON is accepted. -/
theorem cJsonParse_of_jsonText (hallocates : ∀ n, env.allocates n = true)
    (hstrtod : ∀ text, (env.strtod text).2 ≤ text.length) {value : List UInt8}
    (h : JsonText env.strtod JsonString CJSON_NESTING_LIMIT (cString value) item rest) :
    cJsonParse env value = .ok (.parsed item ((cString value).length - rest.length)) := by
  have hjson : AgreesOn (cString value) JsonString ReadString := fun _ _ _ _ h =>
    readString_of_jsonString h
  exact cJsonParse_complete hallocates hstrtod (h.of_agreesOn leavesSuffix_jsonString hjson)

/-- What is accepted is a text of JSON, whether or not allocations fail elsewhere. -/
theorem jsonText_of_cJsonParse (hstrtod : ∀ text, (env.strtod text).2 ≤ text.length)
    {value : List UInt8} {parse_end : Nat} (hhex : HexLiterals (cString value))
    (h : cJsonParse env value = .ok (.parsed item parse_end)) :
    ∃ rest, JsonText env.strtod JsonString CJSON_NESTING_LIMIT (cString value) item rest ∧
      parse_end = (cString value).length - rest.length := by
  have hread : AgreesOn (cString value) ReadString JsonString := fun _ _ _ hsuffix h =>
    jsonString_of_readString (hhex.of_suffix hsuffix) h
  rcases cJsonParse_sound hstrtod value with ⟨_, hfail, _⟩ | ⟨_, rest, hparse, _, htext⟩
  · rw [h] at hfail
    cases hfail
  · rw [h] at hparse
    cases hparse
    exact ⟨rest, htext.of_agreesOn leavesSuffix_readString hread, rfl⟩

/-- The texts of JSON are what is accepted, and the item is what the text stands for. -/
theorem cJsonParse_iff (hallocates : ∀ n, env.allocates n = true)
    (hstrtod : ∀ text, (env.strtod text).2 ≤ text.length) {value : List UInt8}
    (hhex : HexLiterals (cString value)) {parse_end : Nat} :
    cJsonParse env value = .ok (.parsed item parse_end) ↔
      ∃ rest, JsonText env.strtod JsonString CJSON_NESTING_LIMIT (cString value) item rest ∧
        parse_end = (cString value).length - rest.length := by
  constructor
  · exact jsonText_of_cJsonParse hstrtod hhex
  · rintro ⟨rest, htext, rfl⟩
    exact cJsonParse_of_jsonText hallocates hstrtod htext

/-- A list with a string in it, which is read as the bytes of its UTF-8. -/
theorem cJsonParse_iff_escaped :
    cJsonParse ⟨fun _ => ((), 0), fun _ => .true⟩ [91, 34, 92, 117, 48, 48, 101, 57, 34, 93] =
      .ok (.parsed (.array [.string [0xC3, 0xA9]]) 10) := by
  have htext : cString [91, 34, 92, 117, 48, 48, 101, 57, 34, 93] =
      [91, 34, 92, 117, 48, 48, 101, 57, 34, 93, 0] := by decide
  have hhex : HexLiterals (cString [91, 34, 92, 117, 48, 48, 101, 57, 34, 93]) := by
    intro rest h
    rw [htext] at h
    simp [List.suffix_cons_iff, BACKSLASH] at h
    subst h
    exact ⟨[48, 48, 101, 57], [34, 93, 0], 0xE9, rfl, rfl, rfl⟩
  have hliteral : JsonLiteral [92, 117, 48, 48, 101, 57, 34, 93, 0] 'é' [34, 93, 0] :=
    @JsonLiteral.unicode [48, 48, 101, 57] [34, 93, 0] 'é' rfl rfl
  have hchars : JsonChars [92, 117, 48, 48, 101, 57, 34, 93, 0] [0xC3, 0xA9] [93, 0] :=
    .literal hliteral (.quote _)
  refine (cJsonParse_iff (fun _ => rfl) (fun _ => Nat.zero_le _) hhex).mpr
    ⟨[0], .plain (.done _) ?_, rfl⟩
  exact .array rfl (.items (.last (.done _) (.string (.mk hchars)) (.done _)))

end Texts

end Config
end EVdeSwitch
