import Mathlib.Data.Rat.Init
import EVdeSwitch.Lib.Decimal
import EVdeSwitch.Lib.Memory
import EVdeSwitch.Utils.Logging

/-!
# Opts — options, from the command line and from a file

`parse_global_opt` of `src/config/opts.c` takes a pointer to the argument of an option.  It is
called for the command line, and by `translate_json_to_cstr` of `src/config/json.c` for the members
of a configuration file.  A pointer is modelled by the memory from where it points to.
-/

namespace EVdeSwitch
namespace Config

open EVdeSwitch.Lib
open EVdeSwitch.Utils

/-! ## The table of options -/

def JSON_INT : Nat := 1

def JSON_STRING : Nat := 2

def JSON_BOOL : Nat := 4

def JSON_ARRAY (x : Nat) : Nat :=
  8 ||| x

def GET_VAL (x : Nat) : Nat :=
  x &&& 0xFFFF

def GET_JSON (x : Nat) : Nat :=
  (x >>> 22) &&& 0x3FF

def SET_JSON (x : Nat) : Nat :=
  x <<< 22

/-- `struct option` -/
structure LongOption where
  name : String
  val : Nat

def global_options : List LongOption :=
  [⟨"config", 'c'.toNat⟩,
    ⟨"modules", 'm'.toNat ||| SET_JSON (JSON_ARRAY JSON_STRING)⟩,
    ⟨"ports", 'n'.toNat ||| SET_JSON JSON_INT⟩,
    ⟨"threads", 't'.toNat ||| SET_JSON JSON_INT⟩,
    ⟨"help", 'h'.toNat⟩]

/-- The global variables that options set. -/
structure Settings where
  numports : Int
  worker_threads : Int
  deriving DecidableEq, Repr

/-- What the variables are initialised with. -/
def Settings.initial : Settings :=
  { numports := 24
    worker_threads := 4 }

/-! ## One option -/

/-- `strtol(nptr, NULL, 10)`, for a `long` of 64 bits. -/
def strtol (nptr : List UInt8) : Int :=
  max (-2 ^ 63) (min (2 ^ 63 - 1) (decimalPrefix nptr))

/-- `(int) strtol(nptr, NULL, 10)` -/
def atoi (nptr : List UInt8) : Int :=
  (BitVec.ofInt 32 (strtol nptr)).toInt

/-- The function reads configuration files through `process_json_config`. -/
def parseGlobalOpt (process_json_config : List UInt8 → Settings → Except Halt Settings) (c : Nat)
    (optarg : List UInt8) (settings : Settings) : Except Halt Settings :=
  if c = 'c'.toNat then
    process_json_config (optarg.takeWhile (· ≠ 0)) settings
  else if c = 'm'.toNat then
    -- the names of the modules are split, and nothing is done with them
    .ok settings
  else if c = 'n'.toNat then
    .ok { settings with numports := atoi optarg }
  else if c = 't'.toNat then
    .ok { settings with worker_threads := atoi optarg }
  else if c = 'h'.toNat then
    .error (.exit 0 "Help\n")
  else
    -- an unknown option is only reported
    .ok settings

/-! ## Configuration files -/

inductive CJsonType
  | Invalid
  | False
  | True
  | NULL
  | Number
  | String
  | Array
  | Object
  | Raw
  deriving DecidableEq, Repr

/-- `cJSON`, a member of an object; a finite `double` is a rational number. -/
structure CJson where
  type : CJsonType
  valuestring : List UInt8
  valuedouble : ℚ
  string : Option String

/-- What becomes of a configuration file. -/
inductive ConfigFile
  | missing
  | noMemory
  | malformed
  /-- The members of the object in it. -/
  | parsed (child : List CJson)

/-- The files, what lies behind the variable `val` when an option is translated, and the `int` that
a `double` outside the range of `int` is converted to. -/
structure JsonEnv where
  files : List UInt8 → ConfigFile
  behind : String → List UInt8
  outOfRange : BitVec 32

/-- `case_insensitive_strcmp`, whether it finds the strings equal; a null pointer equals nothing. -/
def caseInsensitiveEq (string1 : String) : Option String → Bool
  | none => false
  | some string2 => string1.toList.map Char.toLower = string2.toList.map Char.toLower

/-- `cJSON_GetObjectItem` -/
def getObjectItem (child : List CJson) (name : String) : Option CJson :=
  child.find? fun current_element => caseInsensitiveEq name current_element.string

/-- The conversion drops the fraction. -/
def doubleToInt (env : JsonEnv) (valuedouble : ℚ) : BitVec 32 :=
  let whole := valuedouble.num.tdiv valuedouble.den
  if -2 ^ 31 ≤ whole ∧ whole < 2 ^ 31 then BitVec.ofInt 32 whole else env.outOfRange

def translateJsonToCstr (env : JsonEnv) (obj : CJson) (opt : LongOption)
    (parse_opt : Nat → List UInt8 → Settings → Except Halt Settings) (settings : Settings) :
    Except Halt Settings :=
  let c := GET_VAL opt.val
  let type := GET_JSON opt.val
  if type = JSON_INT then
    if obj.type = .Number then
      -- the pointer is that of the `int`, not of a string
      let val := doubleToInt env obj.valuedouble
      parse_opt c (wordBytes 4 val.toNat ++ env.behind opt.name) settings
    else
      .ok settings
  else if type = JSON_STRING then
    if obj.type = .String then parse_opt c (obj.valuestring ++ [0]) settings else .ok settings
  else if type = JSON_BOOL then
    if obj.type = .True ∨ obj.type = .False then
      parse_opt c [if obj.type = .True then 49 else 48, 0] settings
    else
      .ok settings
  else if type = JSON_ARRAY JSON_STRING then
    .ok settings
  else
    (printlog .ERROR "Unsupported json type\n").map fun _ => settings

/-- One round of the loop over the options. -/
def readOption (env : JsonEnv) (child : List CJson)
    (parse_opt : Nat → List UInt8 → Settings → Except Halt Settings) (settings : Settings)
    (opt : LongOption) : Except Halt Settings :=
  if GET_JSON opt.val ≠ 0 then
    match getObjectItem child opt.name with
    | none => (printlog .WARNING "Option %s not found in config\n").map fun _ => settings
    | some obj => translateJsonToCstr env obj opt parse_opt settings
  else
    .ok settings

/-- The callee calls back with the options of the file, of which `nested` would read another. -/
def processJsonConfig (env : JsonEnv) (nested : List UInt8 → Settings → Except Halt Settings)
    (pathname : List UInt8) (settings : Settings) : Except Halt Settings :=
  match env.files pathname with
  | .missing => (printlog .ERROR "Could not find config file %s\n").map fun _ => settings
  | .noMemory => (printlog .ERROR "malloc").map fun _ => settings
  | .malformed => (printlog .ERROR "Error parsing json config\n\t%s").map fun _ => settings
  | .parsed child =>
      global_options.foldlM (readOption env child (parseGlobalOpt nested)) settings

/-! ## The command line -/

/-- What `getopt_long` returns for the long option of a name. -/
def getoptLong (name : String) : Nat :=
  match global_options.find? fun opt => opt.name = name with
  | some opt => opt.val
  | none => '?'.toNat

/-- The arguments are those that `getopt_long` finds, each a string with its end. -/
def processNecessaryOptions (env : JsonEnv) (args : List (String × List UInt8))
    (settings : Settings) : Except Halt Settings :=
  args.foldlM
    (fun settings (name, optarg) =>
      parseGlobalOpt (processJsonConfig env fun _ settings => .ok settings)
        (GET_VAL (getoptLong name)) (optarg ++ [0]) settings)
    settings

/-! ## What the options do -/

/-- The value that a file gives to an option for a number. -/
def fileValue (env : JsonEnv) (child : List CJson) (name : String) (old : Int) : Int :=
  match getObjectItem child name with
  | none => old
  | some obj =>
      if obj.type = .Number then
        atoi (wordBytes 4 (doubleToInt env obj.valuedouble).toNat ++ env.behind name)
      else
        old

theorem parseGlobalOpt_ports (nested : List UInt8 → Settings → Except Halt Settings)
    (optarg : List UInt8) (settings : Settings) :
    parseGlobalOpt nested (GET_VAL ('n'.toNat ||| SET_JSON JSON_INT)) optarg settings =
      .ok { settings with numports := atoi optarg } := rfl

theorem parseGlobalOpt_threads (nested : List UInt8 → Settings → Except Halt Settings)
    (optarg : List UInt8) (settings : Settings) :
    parseGlobalOpt nested (GET_VAL ('t'.toNat ||| SET_JSON JSON_INT)) optarg settings =
      .ok { settings with worker_threads := atoi optarg } := rfl

section File

variable {env : JsonEnv} {child : List CJson} {settings : Settings} (opt : LongOption)
variable {parse_opt : Nat → List UInt8 → Settings → Except Halt Settings}

theorem readOption_of_none (h : GET_JSON opt.val = 0) :
    readOption env child parse_opt settings opt = .ok settings := by
  simp [readOption, h]

theorem readOption_of_array (h : GET_JSON opt.val = JSON_ARRAY JSON_STRING) :
    readOption env child parse_opt settings opt = .ok settings := by
  have hne : JSON_ARRAY JSON_STRING ≠ 0 ∧ JSON_ARRAY JSON_STRING ≠ JSON_INT ∧
      JSON_ARRAY JSON_STRING ≠ JSON_STRING ∧ JSON_ARRAY JSON_STRING ≠ JSON_BOOL := by decide
  cases hmember : getObjectItem child opt.name with
  | none => simp [readOption, h, hne, hmember, Except.map]
  | some obj => simp [readOption, translateJsonToCstr, h, hne, hmember]

/-- An option for a number sets the variable that `set` is for. -/
theorem readOption_of_int (h : GET_JSON opt.val = JSON_INT) (set : Int → Settings) (old : Int)
    (hold : set old = settings)
    (hset : ∀ optarg, parse_opt (GET_VAL opt.val) optarg settings = .ok (set (atoi optarg))) :
    readOption env child parse_opt settings opt = .ok (set (fileValue env child opt.name old)) := by
  have hne : JSON_INT ≠ 0 := by decide
  cases hmember : getObjectItem child opt.name with
  | none => simp [readOption, fileValue, h, hne, hmember, hold, Except.map]
  | some obj =>
      by_cases hnumber : obj.type = .Number
      · simp [readOption, translateJsonToCstr, fileValue, h, hne, hmember, hnumber, hset]
      · simp [readOption, translateJsonToCstr, fileValue, h, hne, hmember, hnumber, hold]

theorem readOption_ports (nested : List UInt8 → Settings → Except Halt Settings) :
    readOption env child (parseGlobalOpt nested) settings
        ⟨"ports", 'n'.toNat ||| SET_JSON JSON_INT⟩ =
      .ok { settings with numports := fileValue env child "ports" settings.numports } := by
  have hjson : GET_JSON ('n'.toNat ||| SET_JSON JSON_INT) = JSON_INT := by decide
  refine readOption_of_int ⟨"ports", _⟩ hjson (fun n => { settings with numports := n })
    settings.numports rfl ?_
  intro optarg
  exact parseGlobalOpt_ports nested optarg settings

theorem readOption_threads (nested : List UInt8 → Settings → Except Halt Settings) :
    readOption env child (parseGlobalOpt nested) settings
        ⟨"threads", 't'.toNat ||| SET_JSON JSON_INT⟩ =
      .ok
        { settings with
          worker_threads := fileValue env child "threads" settings.worker_threads } := by
  have hjson : GET_JSON ('t'.toNat ||| SET_JSON JSON_INT) = JSON_INT := by decide
  refine readOption_of_int ⟨"threads", _⟩ hjson (fun n => { settings with worker_threads := n })
    settings.worker_threads rfl ?_
  intro optarg
  exact parseGlobalOpt_threads nested optarg settings

end File

/-- A file sets the two numbers and nothing else; it never leads to another file. -/
theorem processJsonConfig_parsed {env : JsonEnv} {pathname : List UInt8} {child : List CJson}
    (hfile : env.files pathname = .parsed child)
    (nested : List UInt8 → Settings → Except Halt Settings) (settings : Settings) :
    processJsonConfig env nested pathname settings =
      .ok
        { numports := fileValue env child "ports" settings.numports
          worker_threads := fileValue env child "threads" settings.worker_threads } := by
  -- two of the options are not for files, and the names of modules are left alone
  have hconfig (settings : Settings) : readOption env child (parseGlobalOpt nested) settings
      ⟨"config", 'c'.toNat⟩ = .ok settings := readOption_of_none _ (by decide)
  have hhelp (settings : Settings) : readOption env child (parseGlobalOpt nested) settings
      ⟨"help", 'h'.toNat⟩ = .ok settings := readOption_of_none _ (by decide)
  have hmodules (settings : Settings) : readOption env child (parseGlobalOpt nested) settings
      ⟨"modules", 'm'.toNat ||| SET_JSON (JSON_ARRAY JSON_STRING)⟩ = .ok settings :=
    readOption_of_array _ (by decide)
  rw [processJsonConfig, hfile]
  simp only [global_options, List.foldlM_cons, List.foldlM_nil, Bind.bind, Except.bind, hconfig,
    hmodules, readOption_ports, readOption_threads, hhelp]
  rfl

end Config
end EVdeSwitch
