import EVdeSwitch.Config.Opts

/-!
# Agreement — a number in a file, and the same number on the command line

`translate_json_to_cstr` passes on the address of an `int`, and `parse_global_opt` reads a string
there: the bytes of the number are taken for its digits.
-/

namespace EVdeSwitch
namespace Config

open EVdeSwitch.Lib
open EVdeSwitch.Utils

/-! ## The property -/

/-- The two options for a number. -/
inductive NumberOption
  | ports
  | threads

namespace NumberOption

def name : NumberOption → String
  | .ports => "ports"
  | .threads => "threads"

/-- The variable that the option sets. -/
def value : NumberOption → Settings → Int
  | .ports, settings => settings.numports
  | .threads, settings => settings.worker_threads

/-- The call returns, with the variable at a value. -/
def Leaves (o : NumberOption) (result : Except Halt Settings) (n : Int) : Prop :=
  ∃ settings, result = .ok settings ∧ o.value settings = n

/-- A file with these members, and the option on the command line, both leave the number,
whatever lies in memory behind it. -/
structure Agrees (o : NumberOption) (n : BitVec 32) (child : List CJson) : Prop where
  file : ∀ env nested pathname settings, env.files pathname = .parsed child →
    o.Leaves (processJsonConfig env nested pathname settings) n.toInt
  command : ∀ env settings,
    o.Leaves (processNecessaryOptions env [(o.name, intBytes n.toInt)] settings) n.toInt

end NumberOption

/-! ## Strings -/

theorem atoi_of_range {nptr : List UInt8} (hlow : -2 ^ 31 ≤ decimalPrefix nptr)
    (hhigh : decimalPrefix nptr < 2 ^ 31) : atoi nptr = decimalPrefix nptr := by
  have hlong : strtol nptr = decimalPrefix nptr := by
    rw [strtol, min_eq_right (by omega), max_eq_right (by omega)]
  rw [atoi, hlong, BitVec.toInt_ofInt]
  exact Int.bmod_eq_of_le (by omega) (by omega)

/-- The end of a string stops `atoi`. -/
theorem atoi_intBytes (n : BitVec 32) : atoi (intBytes n.toInt ++ [0]) = n.toInt := by
  have hread : decimalPrefix (intBytes n.toInt ++ [0]) = n.toInt := by
    rw [decimalPrefix_append_stop (by decide), decimalPrefix_intBytes]
  have hlow := BitVec.le_toInt n
  have hhigh := BitVec.toInt_lt (x := n)
  rw [atoi_of_range, hread] <;> omega

/-! ## Bytes taken for digits -/

theorem isDecimal_ofNat {x : Nat} (h : x % 256 < 9 ∨ 57 < x % 256) :
    isDecimal (UInt8.ofNat (x % 256)) = false := by
  rw [← Bool.not_eq_true]
  intro hdecimal
  have hbyte : (UInt8.ofNat (x % 256)).toNat = x % 256 :=
    UInt8.toNat_ofNat_of_lt' (Nat.mod_lt x (by decide))
  have hrange := toNat_of_isDecimal hdecimal
  rw [hbyte] at hrange
  omega

/-- What the lowest byte spells by itself. -/
theorem decimalPrefix_wordBytes_one (x : Nat) :
    decimalPrefix (wordBytes 1 x) = 0 ∨
      (48 ≤ x % 256 ∧ decimalPrefix (wordBytes 1 x) = (x % 256 - 48 : Nat)) := by
  have hbyte : (UInt8.ofNat (x % 256)).toNat = x % 256 :=
    UInt8.toNat_ofNat_of_lt' (Nat.mod_lt x (by decide))
  have hone : wordBytes 1 x = [UInt8.ofNat (x % 256)] := rfl
  rw [hone, decimalPrefix_singleton, digitValue, hbyte]
  cases hdigit : isDigit (UInt8.ofNat (x % 256)) with
  | true =>
      have hrange := toNat_of_isDigit hdigit
      rw [hbyte] at hrange
      exact Or.inr ⟨hrange.1, if_pos rfl⟩
  | false => exact Or.inl (if_neg (by decide))

/-- An `int` other than 0 is not the number that its bytes spell: with every byte that is read the
number would have to be greater than what can be spelled with so many. -/
theorem decimalPrefix_wordBytes_ne {n : BitVec 32} (hn : n ≠ 0) :
    decimalPrefix (wordBytes 4 n.toNat) ≠ n.toInt := by
  intro hread
  have hint := BitVec.toInt_eq_toNat_cond n
  have hlt := n.isLt
  have hzero : n.toNat ≠ 0 := fun h => hn (BitVec.eq_of_toNat_eq h)
  have hfour := natAbs_decimalPrefix_lt (wordBytes 4 n.toNat)
  rw [hread, length_wordBytes] at hfour
  -- four digits are too few for a third byte, and so are two for a second
  have hthird : isDecimal (UInt8.ofNat (n.toNat / 256 / 256 % 256)) = false :=
    isDecimal_ofNat (by split at hint <;> omega)
  have htwo : decimalPrefix (wordBytes 4 n.toNat) = decimalPrefix (wordBytes 2 n.toNat) :=
    decimalPrefix_append_stop hthird [_, _] [_]
  rw [htwo] at hread
  have hfewer := natAbs_decimalPrefix_lt (wordBytes 2 n.toNat)
  rw [hread, length_wordBytes] at hfewer
  have hsecond : isDecimal (UInt8.ofNat (n.toNat / 256 % 256)) = false :=
    isDecimal_ofNat (by split at hint <;> omega)
  have hone : decimalPrefix (wordBytes 2 n.toNat) = decimalPrefix (wordBytes 1 n.toNat) :=
    decimalPrefix_append_stop hsecond [_] []
  rw [hone] at hread
  rcases decimalPrefix_wordBytes_one n.toNat with hnone | ⟨hdigit, hvalue⟩
  · rw [hread] at hnone
    split at hint <;> omega
  · rw [hread] at hvalue
    split at hint <;> omega

theorem atoi_of_stop {b : UInt8} (hb : isDecimal b = false) (rest : List UInt8) :
    atoi (b :: rest) = 0 := by
  have hread : decimalPrefix (b :: rest) = 0 := decimalPrefix_append_stop hb [] rest
  rw [atoi_of_range, hread] <;> rw [hread] <;> decide

theorem atoi_wordBytes_ne {n : BitVec 32} (hn : n ≠ 0) : atoi (wordBytes 4 n.toNat) ≠ n.toInt := by
  have hlt := natAbs_decimalPrefix_lt (wordBytes 4 n.toNat)
  rw [length_wordBytes] at hlt
  rw [atoi_of_range (by omega) (by omega)]
  exact decimalPrefix_wordBytes_ne hn

/-! ## The two paths -/

theorem doubleToInt_toInt (env : JsonEnv) (n : BitVec 32) : doubleToInt env n.toInt = n := by
  have hlow := BitVec.le_toInt n
  have hhigh := BitVec.toInt_lt (x := n)
  have hwhole : (n.toInt : ℚ).num.tdiv (n.toInt : ℚ).den = n.toInt := by simp
  rw [doubleToInt, hwhole, if_pos ⟨by omega, by omega⟩, BitVec.ofInt_toInt]

namespace NumberOption

variable {o : NumberOption} {n : BitVec 32} {child : List CJson} {obj : CJson}

theorem command_leaves (o : NumberOption) (n : BitVec 32) (env : JsonEnv) (settings : Settings) :
    o.Leaves (processNecessaryOptions env [(o.name, intBytes n.toInt)] settings) n.toInt := by
  cases o with
  | ports => exact ⟨{ settings with numports := _ }, rfl, atoi_intBytes n⟩
  | threads => exact ⟨{ settings with worker_threads := _ }, rfl, atoi_intBytes n⟩

/-- What the file leaves is read from the bytes of the number. -/
theorem file_leaves_iff {env : JsonEnv} {pathname : List UInt8}
    (hfile : env.files pathname = .parsed child)
    (hmember : getObjectItem child o.name = some obj) (hnumber : obj.type = .Number)
    (hvalue : obj.valuedouble = n.toInt) (nested : List UInt8 → Settings → Except Halt Settings)
    (settings : Settings)
    (m : Int) :
    o.Leaves (processJsonConfig env nested pathname settings) m ↔
      atoi (wordBytes 4 n.toNat ++ env.behind o.name) = m := by
  have hvalues : ∀ old, fileValue env child o.name old =
      atoi (wordBytes 4 n.toNat ++ env.behind o.name) := by
    intro old
    rw [fileValue, hmember]
    simp only [hnumber, if_true, hvalue, doubleToInt_toInt]
  rw [Leaves, processJsonConfig_parsed hfile]
  constructor
  · rintro ⟨after, heq, hafter⟩
    cases heq
    rw [← hafter]
    cases o with
    | ports => exact (hvalues _).symm
    | threads => exact (hvalues _).symm
  · intro h
    refine ⟨_, rfl, ?_⟩
    rw [← h]
    cases o with
    | ports => exact hvalues _
    | threads => exact hvalues _

/-- Nothing but the end of a string lies behind the variable `val`. -/
def bareEnv (child : List CJson) : JsonEnv :=
  { files := fun _ => .parsed child
    behind := fun _ => []
    outOfRange := 0 }

/-- A number in a file has the effect it has on the command line if and only if it is 0. -/
theorem agrees_iff (hmember : getObjectItem child o.name = some obj) (hnumber : obj.type = .Number)
    (hvalue : obj.valuedouble = n.toInt) : o.Agrees n child ↔ n = 0 := by
  constructor
  · intro hagrees
    by_contra hn
    have hfile := hagrees.file (bareEnv child) (fun _ settings => .ok settings) [] Settings.initial
      rfl
    have hbehind : (bareEnv child).behind o.name = [] := rfl
    rw [file_leaves_iff rfl hmember hnumber hvalue, hbehind, List.append_nil] at hfile
    exact atoi_wordBytes_ne hn hfile
  · rintro rfl
    refine
      { file := ?_
        command := command_leaves o 0 }
    intro env nested pathname settings hfile
    rw [file_leaves_iff hfile hmember hnumber hvalue]
    -- the first byte is the end of a string
    exact atoi_of_stop (by decide) _

/-- A file with the number of ports in it. -/
def portsMember (n : Int) : CJson :=
  { type := .Number
    valuestring := []
    valuedouble := n
    string := some "ports" }

theorem getObjectItem_ports (n : Int) :
    getObjectItem [portsMember n] NumberOption.ports.name = some (portsMember n) := by
  simp [getObjectItem, portsMember, caseInsensitiveEq, name]

/-- The default number of ports. -/
theorem agrees_iff_default :
    NumberOption.ports.Agrees 24 [portsMember 24] ↔ (24 : BitVec 32) = 0 :=
  agrees_iff (getObjectItem_ports 24) rfl (by rfl)

/-- With 24 ports in the file the switch has none, and with 24 on the command line it has 24. -/
theorem not_agrees_default :
    (∀ env nested pathname settings, env.files pathname = .parsed [portsMember 24] →
        NumberOption.ports.Leaves (processJsonConfig env nested pathname settings) 0) ∧
      (∀ env settings, NumberOption.ports.Leaves
        (processNecessaryOptions env [("ports", intBytes 24)] settings) 24) ∧
      ¬ NumberOption.ports.Agrees 24 [portsMember 24] := by
  have hmember := getObjectItem_ports 24
  have hfile : ∀ env nested pathname settings, env.files pathname = .parsed [portsMember 24] →
      NumberOption.ports.Leaves (processJsonConfig env nested pathname settings) 0 := by
    intro env nested pathname settings hfile
    have hleaves := file_leaves_iff (n := 24) hfile hmember rfl rfl nested settings 0
    exact hleaves.2 (atoi_of_stop (b := 24) (by decide) _)
  refine ⟨hfile, command_leaves .ports 24, ?_⟩
  intro hagrees
  rcases hfile (bareEnv [portsMember 24]) (fun _ settings => .ok settings) [] Settings.initial rfl
    with ⟨after, hafter, hzero⟩
  rcases hagrees.file (bareEnv [portsMember 24]) (fun _ settings => .ok settings) []
    Settings.initial rfl with ⟨after', hafter', hnumber⟩
  rw [hafter] at hafter'
  cases hafter'
  rw [hzero] at hnumber
  exact absurd hnumber (by decide)

end NumberOption

end Config
end EVdeSwitch
