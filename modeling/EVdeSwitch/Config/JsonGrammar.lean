import EVdeSwitch.Config.CJsonParser
import EVdeSwitch.Lib.Grammar

/-!
# JsonGrammar — what a JSON text stands for

The grammar of the texts that a configuration file may hold, up to a depth of nesting.  Characters
are bytes; what a number stands for is a parameter, as is the grammar of strings, of which that of
JSON is one.
-/

namespace EVdeSwitch
namespace Config

open EVdeSwitch.Lib

/-! ## Strings -/

/-- The number that hexadecimal digits stand for, behind those of `value`. -/
def hexValue (value : Nat) : List UInt8 → Option Nat
  | [] => some value
  | c :: digits => (hexDigit c).bind fun digit => hexValue (16 * value + digit) digits

/-- A character as a code of UTF-16. -/
inductive JsonLiteral : Grammar UInt8 Char
  | unicode {digits rest : List UInt8} {char : Char} :
      digits.length = 4 → hexValue 0 digits = some char.toNat →
        JsonLiteral (BACKSLASH :: 117 :: (digits ++ rest)) char rest
  | surrogates {high low rest : List UInt8} {h l : Nat} {char : Char} :
      high.length = 4 → low.length = 4 → hexValue 0 high = some (0xD800 + h) →
        hexValue 0 low = some (0xDC00 + l) → h < 0x400 → l < 0x400 →
          char.toNat = 0x10000 + 0x400 * h + l →
            JsonLiteral (BACKSLASH :: 117 :: (high ++ BACKSLASH :: 117 :: (low ++ rest))) char rest

/-- The characters of a string and its closing quote. -/
inductive JsonChars : Grammar UInt8 (List UInt8)
  | quote (rest : List UInt8) : JsonChars (QUOTE :: rest) [] rest
  | byte {c : UInt8} {text bytes rest : List UInt8} :
      c ≠ QUOTE → c ≠ BACKSLASH → JsonChars text bytes rest →
        JsonChars (c :: text) (c :: bytes) rest
  | escape {e c : UInt8} {text bytes rest : List UInt8} :
      escaped e = some c → JsonChars text bytes rest →
        JsonChars (BACKSLASH :: e :: text) (c :: bytes) rest
  | literal {text next bytes rest : List UInt8} {char : Char} :
      JsonLiteral text char next → JsonChars next bytes rest →
        JsonChars text (String.utf8EncodeChar char ++ bytes) rest

inductive JsonString : Grammar UInt8 (List UInt8)
  | mk {text bytes rest : List UInt8} :
      JsonChars text bytes rest → JsonString (QUOTE :: text) bytes rest

/-- Every `\u` has its four digits. -/
def HexLiterals (text : List UInt8) : Prop :=
  ∀ rest, BACKSLASH :: 117 :: rest <:+ text →
    ∃ digits behind value, rest = digits ++ behind ∧ digits.length = 4 ∧
      hexValue 0 digits = some value

/-! ## Values -/

/-- The space and what comes before it. -/
def IsBlank (c : UInt8) : Prop :=
  c ≤ 32

instance : DecidablePred IsBlank :=
  fun c => inferInstanceAs (Decidable (c ≤ 32))

section Values

variable {ν : Type} (strtod : List UInt8 → ν × Nat) (string : Grammar UInt8 (List UInt8))

/-- The characters that may belong to a number at the beginning of the text. -/
def numberText (text : List UInt8) : List UInt8 :=
  (text.take 63).takeWhile isNumberChar

/-- A name and a value. -/
inductive JsonMember (value : Grammar UInt8 (CJsonItem ν)) :
    Grammar UInt8 (List UInt8 × CJsonItem ν)
  | mk {text name behind colon next rest : List UInt8} {item : CJsonItem ν} :
      string text name behind → Blanks IsBlank behind (58 :: colon) →
        Blanks IsBlank colon next → value next item rest →
          JsonMember value text (name, item) rest

/-- A value, of which the parts are as `nested` says, unless there can be none. -/
inductive JsonValueWith (nested : Option (Grammar UInt8 (CJsonItem ν))) :
    Grammar UInt8 (CJsonItem ν)
  | null (rest : List UInt8) : JsonValueWith nested (nullText ++ rest) .null rest
  | false (rest : List UInt8) : JsonValueWith nested (falseText ++ rest) .false rest
  | true (rest : List UInt8) : JsonValueWith nested (trueText ++ rest) .true rest
  | string {text bytes rest : List UInt8} :
      string text bytes rest → JsonValueWith nested text (.string bytes) rest
  | number {c : UInt8} {text : List UInt8} {value : ν} {n : Nat} :
      (c = 45 ∨ (48 ≤ c ∧ c ≤ 57)) → strtod (numberText (c :: text)) = (value, n + 1) →
        JsonValueWith nested (c :: text) (.number value) (text.drop n)
  | array {value : Grammar UInt8 (CJsonItem ν)} {text rest : List UInt8}
      {child : List (CJsonItem ν)} :
      nested = some value → Bracketed IsBlank 91 44 93 value text child rest →
        JsonValueWith nested text (.array child) rest
  | object {value : Grammar UInt8 (CJsonItem ν)} {text rest : List UInt8}
      {child : List (List UInt8 × CJsonItem ν)} :
      nested = some value → Bracketed IsBlank 123 44 125 (JsonMember string value) text child rest →
        JsonValueWith nested text (.object child) rest

/-- A value with at most so many brackets around its innermost parts. -/
def JsonValue : Nat → Grammar UInt8 (CJsonItem ν)
  | 0 => JsonValueWith strtod string none
  | levels + 1 => JsonValueWith strtod string (some (JsonValue levels))

/-- A byte order mark, blanks and a value. -/
inductive JsonText (levels : Nat) : Grammar UInt8 (CJsonItem ν)
  | plain {text value rest : List UInt8} {item : CJsonItem ν} :
      Blanks IsBlank text value → JsonValue strtod string levels value item rest →
        JsonText levels text item rest
  | marked {text value rest : List UInt8} {item : CJsonItem ν} :
      Blanks IsBlank text value → JsonValue strtod string levels value item rest →
        JsonText levels (0xEF :: 0xBB :: 0xBF :: text) item rest

end Values

end Config
end EVdeSwitch
