import Mathlib.Data.List.TakeWhile

/-!
# CJsonParser — how a configuration file is parsed

The parser of `src/config/cJSON.c`, as `cJSON_Parse` runs it.  A pointer into the text is its offset
from `content`; a read outside of the text or a write outside of what has been allocated is a fault,
and so is a loop that does not end.  What `strtod` makes of a number is a parameter.
-/

namespace EVdeSwitch
namespace Config

/-- `cJSON`, by type; the links `next` are the order of the list `child`. -/
inductive CJsonItem (ν : Type) : Type
  | null
  | false
  | true
  | number (valuedouble : ν)
  | string (valuestring : List UInt8)
  | array (child : List (CJsonItem ν))
  | object (child : List (List UInt8 × CJsonItem ν))

def CJSON_NESTING_LIMIT : Nat := 1000

inductive ParseFault
  | outOfBounds
  | endless
  deriving DecidableEq, Repr

/-- What `strtod` answers, and how many characters it has read; whether an allocation succeeds. -/
structure ParseEnv (ν : Type) where
  strtod : List UInt8 → ν × Nat
  allocates : Nat → Bool

/-- `parse_buffer`, with the number of allocations so far; `length` is that of `content`, and
`depth` is in the parameter `levels` of `parseValue`. -/
structure ParseBuffer where
  content : List UInt8
  offset : Nat
  allocated : Nat
  deriving DecidableEq, Repr

/-- A result, or a null pointer, and the buffer. -/
abbrev Parse (α : Type) : Type :=
  Except ParseFault (Option α × ParseBuffer)

def QUOTE : UInt8 := 34

def BACKSLASH : UInt8 := 92

namespace ParseBuffer

def canRead (buffer : ParseBuffer) (size : Nat) : Bool :=
  buffer.offset + size ≤ buffer.content.length

def canAccessAtIndex (buffer : ParseBuffer) (index : Nat) : Bool :=
  buffer.offset + index < buffer.content.length

/-- The text from `offset` on. -/
def rest (buffer : ParseBuffer) : List UInt8 :=
  buffer.content.drop buffer.offset

/-- `buffer_at_offset(buffer)[index]` -/
def byteAt (buffer : ParseBuffer) (index : Nat) : Except ParseFault UInt8 :=
  match buffer.content[buffer.offset + index]? with
  | none => .error .outOfBounds
  | some c => .ok c

def advance (buffer : ParseBuffer) (count : Nat) : ParseBuffer :=
  { buffer with offset := buffer.offset + count }

def allocate {ν : Type} (env : ParseEnv ν) (buffer : ParseBuffer) : Bool × ParseBuffer :=
  (env.allocates buffer.allocated, { buffer with allocated := buffer.allocated + 1 })

/-- `can_read` and `strncmp` -/
def startsWith (buffer : ParseBuffer) (text : List UInt8) : Bool :=
  buffer.canRead text.length && text.isPrefixOf buffer.rest

def skipWhitespace (buffer : ParseBuffer) : ParseBuffer :=
  if buffer.canAccessAtIndex 0 then
    let offset := buffer.offset + (buffer.rest.takeWhile (· ≤ 32)).length
    { buffer with
      offset := if offset = buffer.content.length then offset - 1 else offset }
  else
    buffer

def skipUtf8Bom (buffer : ParseBuffer) : ParseBuffer :=
  if buffer.canAccessAtIndex 4 && [0xEF, 0xBB, 0xBF].isPrefixOf buffer.rest then buffer.advance 3
  else buffer

end ParseBuffer

/-! ## Numbers -/

/-- The characters that `parse_number` copies. -/
def isNumberChar (c : UInt8) : Bool :=
  (48 ≤ c && c ≤ 57) || c = 43 || c = 45 || c = 101 || c = 69 || c = 46

/-- `number_c_string`, which has room for 63 characters. -/
def numberCString (buffer : ParseBuffer) : List UInt8 :=
  (buffer.rest.take 63).takeWhile isNumberChar

def parseNumber {ν : Type} (env : ParseEnv ν) (buffer : ParseBuffer) : Parse (CJsonItem ν) :=
  let (number, length) := env.strtod (numberCString buffer)
  if length = 0 then .ok (none, buffer) else .ok (some (.number number), buffer.advance length)

/-! ## Strings -/

def hexDigit (c : UInt8) : Option Nat :=
  if 48 ≤ c ∧ c ≤ 57 then some (c.toNat - 48)
  else if 65 ≤ c ∧ c ≤ 70 then some (10 + c.toNat - 65)
  else if 97 ≤ c ∧ c ≤ 102 then some (10 + c.toNat - 97)
  else none

/-- The loop of `parse_hex4`, with the digits that are still to come. -/
def parseHexDigits : Nat → Nat → List UInt8 → Except ParseFault Nat
  | 0, h, _ => .ok h
  | _ + 1, _, [] => .error .outOfBounds
  | digits + 1, h, c :: input =>
      match hexDigit c with
      -- invalid
      | none => .ok 0
      | some digit =>
          let h := h + digit
          parseHexDigits digits (if digits > 0 then h <<< 4 else h) input

def parseHex4 (input : List UInt8) : Except ParseFault Nat :=
  parseHexDigits 4 0 input

/-- The bytes of an encoding from the last one on; `behind` are those that are there. -/
def encodeFrom (first_byte_mark : Nat) : Nat → Nat → List UInt8 → List UInt8
  | 0, codepoint, behind => UInt8.ofNat ((codepoint ||| first_byte_mark) &&& 0xFF) :: behind
  | utf8_position + 1, codepoint, behind =>
      encodeFrom first_byte_mark utf8_position (codepoint >>> 6)
        (UInt8.ofNat ((codepoint ||| 0x80) &&& 0xBF) :: behind)

def encodeUtf8 (codepoint : Nat) : Option (List UInt8) :=
  if codepoint < 0x80 then some [UInt8.ofNat (codepoint &&& 0x7F)]
  else if codepoint < 0x800 then some (encodeFrom 0xC0 1 codepoint [])
  else if codepoint < 0x10000 then some (encodeFrom 0xE0 2 codepoint [])
  else if codepoint ≤ 0x10FFFF then some (encodeFrom 0xF0 3 codepoint [])
  else none

/-- The length of the sequence, 0 if it is no literal, and the bytes that are written for it; `left`
is how far it is to `input_end`. -/
def utf16LiteralToUtf8 (input : List UInt8) (left : Nat) : Except ParseFault (Nat × List UInt8) :=
  let encoded (sequence_length codepoint : Nat) : Nat × List UInt8 :=
    match encodeUtf8 codepoint with
    | none => (0, [])
    | some bytes => (sequence_length, bytes)
  if left < 6 then
    .ok (0, [])
  else
    (parseHex4 (input.drop 2)).bind fun first_code =>
      if 0xDC00 ≤ first_code ∧ first_code ≤ 0xDFFF then
        .ok (0, [])
      else if 0xD800 ≤ first_code ∧ first_code ≤ 0xDBFF then
        -- UTF16 surrogate pair
        if left - 6 < 6 then
          .ok (0, [])
        else
          match input.drop 6 with
          | c :: u :: second_sequence =>
              if c ≠ BACKSLASH ∨ u ≠ 117 then
                .ok (0, [])
              else
                (parseHex4 second_sequence).bind fun second_code =>
                  if second_code < 0xDC00 ∨ second_code > 0xDFFF then
                    .ok (0, [])
                  else
                    .ok (encoded 12 (0x10000 +
                      (((first_code &&& 0x3FF) <<< 10) ||| (second_code &&& 0x3FF))))
          | _ => .error .outOfBounds
      else
        .ok (encoded 6 first_code)

/-- How far it is to the quote that ends the string, and the bytes that need no room. -/
def scanString : List UInt8 → Option (Nat × Nat)
  | [] => none
  | c :: input =>
      if c = QUOTE then
        some (0, 0)
      else if c = BACKSLASH then
        match input with
        -- the last input character is a backslash
        | [] => none
        | _ :: input => (scanString input).map fun (count, skipped) => (count + 2, skipped + 1)
      else
        (scanString input).map fun (count, skipped) => (count + 1, skipped)

/-- The character that an escape sequence of two stands for. -/
def escaped (c : UInt8) : Option UInt8 :=
  if c = 98 then some 8
  else if c = 102 then some 12
  else if c = 110 then some 10
  else if c = 114 then some 13
  else if c = 116 then some 9
  else if c = QUOTE ∨ c = BACKSLASH ∨ c = 47 then some c
  else none

/-- Write to `output_pointer`, in an allocation of `room` bytes. -/
def writeBytes (room : Nat) (output bytes : List UInt8) : Except ParseFault (List UInt8) :=
  if output.length + bytes.length ≤ room then .ok (output ++ bytes) else .error .outOfBounds

/-- Loop through the string literal, of which `left` bytes are left; `input` goes on behind its end.
With a null pointer, where the loop has stopped. -/
def unescape (room : Nat) (input : List UInt8) (left : Nat) (output : List UInt8) :
    Except ParseFault (Option (List UInt8) × List UInt8) :=
  if left = 0 then
    -- zero terminate the output
    (writeBytes room output [0]).map fun _ => (some output, input)
  else
    match input with
    | [] => .error .outOfBounds
    | c :: rest =>
        if c ≠ BACKSLASH then
          (writeBytes room output [c]).bind fun output => unescape room rest (left - 1) output
        else
          match rest with
          | [] => .error .outOfBounds
          | e :: rest' =>
              match escaped e with
              | some c =>
                  (writeBytes room output [c]).bind fun output =>
                    unescape room rest' (left - 2) output
              | none =>
                  if e = 117 then
                    (utf16LiteralToUtf8 (c :: e :: rest') left).bind fun (sequence_length, bytes) =>
                      if _hlength : sequence_length = 0 then
                        .ok (none, c :: e :: rest')
                      else
                        (writeBytes room output bytes).bind fun output =>
                          unescape room ((c :: e :: rest').drop sequence_length)
                            (left - sequence_length) output
                  else
                    .ok (none, c :: e :: rest')
termination_by input.length
decreasing_by
  · exact Nat.lt_succ_self _
  · exact Nat.lt_succ_of_lt (Nat.lt_succ_self _)
  · rw [List.length_drop]
    exact Nat.sub_lt (Nat.succ_pos _) (Nat.pos_of_ne_zero _hlength)

def parseString {ν : Type} (env : ParseEnv ν) (buffer : ParseBuffer) : Parse (List UInt8) :=
  (buffer.byteAt 0).bind fun c =>
    if c ≠ QUOTE then
      -- not a string
      .ok (none, buffer.advance 1)
    else
      let input := buffer.content.drop (buffer.offset + 1)
      match scanString input with
      -- string ended unexpectedly
      | none => .ok (none, buffer.advance 1)
      | some (count, skipped_bytes) =>
          let allocation_length := count + 1 - skipped_bytes
          match buffer.allocate env with
          | (.false, buffer) => .ok (none, buffer.advance 1)
          | (.true, buffer) =>
              (unescape (allocation_length + 1) input count []).map fun
                | (none, input) =>
                    (none, { buffer with offset := buffer.content.length - input.length })
                | (some output, _) => (some output, buffer.advance (1 + count + 1))

/-! ## Arrays and objects -/

/-- Loop through the comma separated elements, from the character in front of the next one on. -/
def parseElements {ν α : Type} (env : ParseEnv ν) (closing : UInt8)
    (element : ParseBuffer → Parse α) : Nat → ParseBuffer → List α → Parse (List α)
  | 0, _, _ => .error .endless
  | fuel + 1, buffer, child =>
      match buffer.allocate env with
      | (.false, buffer) => .ok (none, buffer)
      | (.true, buffer) =>
          (element (buffer.advance 1).skipWhitespace).bind fun
            | (none, buffer) => .ok (none, buffer)
            | (some item, buffer) =>
                let buffer := buffer.skipWhitespace
                let child := child ++ [item]
                if buffer.canAccessAtIndex 0 then
                  (buffer.byteAt 0).bind fun c =>
                    if c = 44 then parseElements env closing element fuel buffer child
                    else if c ≠ closing then .ok (none, buffer)
                    else .ok (some child, buffer.advance 1)
                else
                  .ok (none, buffer)

/-- What `parse_array` and `parse_object` do with the elements between two characters.  There are
not more elements than characters. -/
def parseSequence {ν α : Type} (env : ParseEnv ν) (opening closing : UInt8)
    (element : ParseBuffer → Parse α) (buffer : ParseBuffer) : Parse (List α) :=
  (buffer.byteAt 0).bind fun c =>
    if c ≠ opening then
      .ok (none, buffer)
    else
      let buffer := (buffer.advance 1).skipWhitespace
      if buffer.canAccessAtIndex 0 then
        (buffer.byteAt 0).bind fun c =>
          if c = closing then
            .ok (some [], buffer.advance 1)
          else
            -- step back to the character in front of the first element
            parseElements env closing element buffer.content.length
              { buffer with offset := buffer.offset - 1 } []
      else
        .ok (none, { buffer with offset := buffer.offset - 1 })

def parseArray {ν : Type} (env : ParseEnv ν) (value : ParseBuffer → Parse (CJsonItem ν))
    (buffer : ParseBuffer) : Parse (CJsonItem ν) :=
  (parseSequence env 91 93 value buffer).map fun (child, buffer) => (child.map .array, buffer)

/-- The name of a child, and its value. -/
def parseMember {ν : Type} (env : ParseEnv ν) (value : ParseBuffer → Parse (CJsonItem ν))
    (buffer : ParseBuffer) : Parse (List UInt8 × CJsonItem ν) :=
  (parseString env buffer).bind fun
    | (none, buffer) => .ok (none, buffer)
    | (some string, buffer) =>
        let buffer := buffer.skipWhitespace
        if buffer.canAccessAtIndex 0 then
          (buffer.byteAt 0).bind fun c =>
            if c ≠ 58 then
              .ok (none, buffer)
            else
              (value (buffer.advance 1).skipWhitespace).map fun (item, buffer) =>
                (item.map fun item => (string, item), buffer)
        else
          .ok (none, buffer)

def parseObject {ν : Type} (env : ParseEnv ν) (value : ParseBuffer → Parse (CJsonItem ν))
    (buffer : ParseBuffer) : Parse (CJsonItem ν) :=
  if buffer.canAccessAtIndex 0 then
    (parseSequence env 123 125 (parseMember env value) buffer).map fun (child, buffer) =>
      (child.map .object, buffer)
  else
    .ok (none, buffer)

/-! ## Values -/

/-- `null` -/
def nullText : List UInt8 := [110, 117, 108, 108]

/-- `false` -/
def falseText : List UInt8 := [102, 97, 108, 115, 101]

/-- `true` -/
def trueText : List UInt8 := [116, 114, 117, 101]

/-- When encountering text, process appropriately.  The parser for what is nested is not there at
the nesting limit. -/
def parseValueWith {ν : Type} (env : ParseEnv ν)
    (nested : Option (ParseBuffer → Parse (CJsonItem ν))) (buffer : ParseBuffer) :
    Parse (CJsonItem ν) :=
  if buffer.startsWith nullText then
    .ok (some .null, buffer.advance 4)
  else if buffer.startsWith falseText then
    .ok (some .false, buffer.advance 5)
  else if buffer.startsWith trueText then
    .ok (some .true, buffer.advance 4)
  else if buffer.canAccessAtIndex 0 then
    (buffer.byteAt 0).bind fun c =>
      if c = QUOTE then
        (parseString env buffer).map fun (valuestring, buffer) =>
          (valuestring.map .string, buffer)
      else if c = 45 ∨ (48 ≤ c ∧ c ≤ 57) then
        parseNumber env buffer
      else if c = 91 then
        match nested with
        | none => .ok (none, buffer)
        | some value => parseArray env value buffer
      else if c = 123 then
        match nested with
        | none => .ok (none, buffer)
        | some value => parseObject env value buffer
      else
        .ok (none, buffer)
  else
    .ok (none, buffer)

/-- `parse_value`, at a depth that is `levels` below the limit. -/
def parseValue {ν : Type} (env : ParseEnv ν) : Nat → ParseBuffer → Parse (CJsonItem ν)
  | 0 => parseValueWith env none
  | levels + 1 => parseValueWith env (some (parseValue env levels))

/-- The item and `*return_parse_end`, or where the error is, as offsets. -/
inductive ParseOutcome (ν : Type)
  | parsed (item : CJsonItem ν) (parse_end : Nat)
  | failed (position : Nat)

def ParseBuffer.fail {ν : Type} (buffer : ParseBuffer) : ParseOutcome ν :=
  .failed (if buffer.offset < buffer.content.length then buffer.offset
    else if buffer.content.length > 0 then buffer.content.length - 1
    else 0)

def parseWithLengthOpts {ν : Type} (env : ParseEnv ν) (value : List UInt8)
    (require_null_terminated : Bool) : Except ParseFault (ParseOutcome ν) :=
  let buffer : ParseBuffer :=
    { content := value
      offset := 0
      allocated := 0 }
  if value = [] then
    .ok buffer.fail
  else
    match buffer.allocate env with
    -- memory fail
    | (.false, buffer) => .ok buffer.fail
    | (.true, buffer) =>
        (parseValue env CJSON_NESTING_LIMIT buffer.skipUtf8Bom.skipWhitespace).bind fun
          | (none, buffer) => .ok buffer.fail
          | (some item, buffer) =>
              if require_null_terminated then
                let buffer := buffer.skipWhitespace
                if buffer.offset ≥ buffer.content.length then
                  .ok buffer.fail
                else
                  (buffer.byteAt 0).bind fun c =>
                    if c ≠ 0 then .ok buffer.fail else .ok (.parsed item buffer.offset)
              else
                .ok (.parsed item buffer.offset)

/-- `cJSON_Parse`, for a string that ends at its first NUL. -/
def cJsonParse {ν : Type} (env : ParseEnv ν) (value : List UInt8) :
    Except ParseFault (ParseOutcome ν) :=
  parseWithLengthOpts env (value.takeWhile (· ≠ 0) ++ [0]) false

end Config
end EVdeSwitch
