import EVdeSwitch.ControlPlane.ConcurrentLookups

/-!
# UninterruptedCalls — one call after the other in the shared table

A worker that nobody interrupts in `mac_table_lookup` or `mac_table_insert` does to the chains what
`macTableLookup` or `macTableInsert` does to the table that they make up.
-/

namespace EVdeSwitch
namespace ControlPlane

open EVdeSwitch.Lib
open SharedMacTable

namespace SharedMacTable

variable {table : SharedMacTable} {calls : List InsertCall} {addr : Addr}
  {idx idx' : Fin HASH_TABLE_SIZE}

end SharedMacTable

namespace MacTableUsers

variable {n : Nat} {s : MacTableUsers n} {w : Fin n} {calls : List InsertCall}

/-- The test of the loop of `mac_table_lookup`. -/
def answers (table : SharedMacTable) (call : LookupCall) (addr : Addr) : Bool :=
  (table.entries addr).Matches call.mac call.vlan && (table.entries addr).valid

/-- The state with another table, and the worker where it is in `mac_table_insert`. -/
def inserted (s : MacTableUsers n) (w : Fin n) (table : SharedMacTable) (pc : InsertPc) :
    MacTableUsers n :=
  { s with inserting := s.inserting.moved w table pc }

end MacTableUsers

end ControlPlane
end EVdeSwitch
