import EVdeSwitch.Config.CJsonText
import EVdeSwitch.Config.Opts

/-!
# ConfigFiles — from the text of a configuration file to the settings

`process_json_config` of `src/config/json.c` reads the whole file, has it parsed and looks for its
options among the members.  The switch starts if and only if the text is one of JSON, and the
settings are then what the first members of the right names say.
-/

namespace EVdeSwitch
namespace Config

open EVdeSwitch.Lib
open EVdeSwitch.Utils

/-- A string up to its NUL, as `strcmp` and `tolower` see it. -/
def nameOf (string : List UInt8) : String :=
  String.ofList ((string.takeWhile (· ≠ 0)).map fun c => Char.ofNat c.toNat)

namespace CJsonItem

/-- What a member shows of its value; `string` is its name. -/
def toCJson (string : Option String) : CJsonItem ℚ → CJson
  | .null => { type := .NULL, valuestring := [], valuedouble := 0, string := string }
  | .false => { type := .False, valuestring := [], valuedouble := 0, string := string }
  | .true => { type := .True, valuestring := [], valuedouble := 0, string := string }
  | .number valuedouble =>
      { type := .Number, valuestring := [], valuedouble := valuedouble, string := string }
  | .string valuestring =>
      { type := .String
        valuestring := valuestring.takeWhile (· ≠ 0)
        valuedouble := 0
        string := string }
  | .array _ => { type := .Array, valuestring := [], valuedouble := 0, string := string }
  | .object _ => { type := .Object, valuestring := [], valuedouble := 0, string := string }

/-- The list `child`; the elements of an array have no names. -/
def members : CJsonItem ℚ → List CJson
  | .object child => child.map fun (name, item) => item.toCJson (some (nameOf name))
  | .array child => child.map (toCJson none)
  | _ => []

end CJsonItem

/-- What `process_json_config` gets from a file, of which `malloc` may not get the memory. -/
def readConfigFile (parse : ParseEnv ℚ) (malloc : Bool) :
    Option (List UInt8) → Except ParseFault ConfigFile
  | none => .ok .missing
  | some contents =>
      if malloc then
        (cJsonParse parse contents).map fun
          | .failed _ => .malformed
          | .parsed item _ => .parsed item.members
      else
        .ok .noMemory

section Files

variable {parse : ParseEnv ℚ} {env : JsonEnv} {pathname contents : List UInt8}

/-- The switch reads the file to its end if and only if it holds a text of JSON, and sets what the
members say. -/
theorem returns_iff_jsonText (hallocates : ∀ n, parse.allocates n = true)
    (hstrtod : ∀ text, (parse.strtod text).2 ≤ text.length)
    (hhex : HexLiterals (cString contents))
    (hfile : readConfigFile parse true (some contents) = .ok (env.files pathname))
    (nested : List UInt8 → Settings → Except Halt Settings) (settings settings' : Settings) :
    processJsonConfig env nested pathname settings = .ok settings' ↔
      ∃ item rest,
        JsonText parse.strtod JsonString CJSON_NESTING_LIMIT (cString contents) item rest ∧
          settings' =
            { numports := fileValue env item.members "ports" settings.numports
              worker_threads := fileValue env item.members "threads" settings.worker_threads } := by
  rw [readConfigFile, if_pos rfl] at hfile
  rcases cJsonParse_sound hstrtod contents with ⟨position, hparse, _⟩ | ⟨item, rest, hparse, _, _⟩
  · -- the text is none of JSON, and the process ends
    rw [hparse] at hfile
    have hmalformed : env.files pathname = .malformed := (Except.ok.inj hfile).symm
    rw [processJsonConfig, hmalformed]
    constructor
    · intro h
      cases h
    · rintro ⟨item, rest, htext, _⟩
      rw [cJsonParse_of_jsonText hallocates hstrtod htext] at hparse
      cases hparse
  · rw [hparse] at hfile
    have hparsed : env.files pathname = .parsed item.members := (Except.ok.inj hfile).symm
    rw [processJsonConfig_parsed hparsed]
    constructor
    · intro h
      obtain ⟨rest, htext, _⟩ := jsonText_of_cJsonParse hstrtod hhex hparse
      exact ⟨item, rest, htext, (Except.ok.inj h).symm⟩
    · rintro ⟨item', rest', htext, rfl⟩
      rw [cJsonParse_of_jsonText hallocates hstrtod htext, Except.ok.injEq,
        ParseOutcome.parsed.injEq] at hparse
      rw [hparse.1]

/-- `strtod`, where there is no sign, no fraction and no exponent. -/
def plainStrtod (text : List UInt8) : ℚ × Nat :=
  (leadingDigits text, (text.takeWhile isDigit).length)

/-- `{"Ports": 56}` -/
def portsText : List UInt8 :=
  [123, 34, 80, 111, 114, 116, 115, 34, 58, 32, 53, 54, 125]

/-- The file holds the text. -/
def portsEnv : JsonEnv :=
  { files := fun _ =>
      .parsed [CJsonItem.toCJson (some (nameOf [80, 111, 114, 116, 115])) (.number 56)]
    behind := fun _ => []
    outOfRange := 0 }

/-- The byte 56 is the digit 8. -/
theorem returns_iff_jsonText_ports :
    processJsonConfig portsEnv (fun _ settings => .ok settings) [] Settings.initial =
      .ok { numports := 8, worker_threads := 4 } := by
  let parse : ParseEnv ℚ := ⟨plainStrtod, fun _ => .true⟩
  have hstrtod : ∀ text, (parse.strtod text).2 ≤ text.length := fun text =>
    (List.takeWhile_prefix _).length_le
  have hhex : HexLiterals (cString portsText) := by
    intro rest h
    have hmem : BACKSLASH ∈ cString portsText := h.subset List.mem_cons_self
    exact absurd hmem (by decide)
  have hname : JsonString [34, 80, 111, 114, 116, 115, 34, 58, 32, 53, 54, 125, 0]
      [80, 111, 114, 116, 115] [58, 32, 53, 54, 125, 0] :=
    .mk (.byte (by decide) (by decide) (.byte (by decide) (by decide) (.byte (by decide)
      (by decide) (.byte (by decide) (by decide) (.byte (by decide) (by decide) (.quote _))))))
  have hread : parse.strtod (numberText [53, 54, 125, 0]) = (56, 1 + 1) := by
    have hnumber : numberText [53, 54, 125, 0] = natBytes 56 := by decide
    have hdigits : leadingDigits (natBytes 56) = 56 := by
      rw [leadingDigits_of_digits (isDigit_natBytes 56), digitsValue_natBytes]
    rw [hnumber]
    exact Prod.ext (congrArg Nat.cast hdigits) (by decide)
  have hvalue : JsonValue parse.strtod JsonString 999 [53, 54, 125, 0] (.number 56)
      ([54, 125, 0].drop 1) :=
    JsonValueWith.number (.inr (by decide)) hread
  have htext : JsonText parse.strtod JsonString CJSON_NESTING_LIMIT (cString portsText)
      (.object [([80, 111, 114, 116, 115], .number 56)]) [0] :=
    .plain (.done _) (.object rfl (.items (.last (.done _)
      (.mk hname (.done _) (.skip (by decide) (.done _)) hvalue) (.done _))))
  have hfile : readConfigFile parse true (some portsText) = .ok (portsEnv.files []) := by
    rw [readConfigFile, if_pos rfl, cJsonParse_of_jsonText (fun _ => rfl) hstrtod htext]
    rfl
  exact (returns_iff_jsonText (fun _ => rfl) hstrtod hhex hfile _ _ _).mpr ⟨_, _, htext, by decide⟩

end Files

end Config
end EVdeSwitch
