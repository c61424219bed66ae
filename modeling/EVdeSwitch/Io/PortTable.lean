import EVdeSwitch.Io.Port
import EVdeSwitch.Lib.Machine

/-!
# PortTable — ports and endpoints at their addresses

`alloc_port`, `get_port`, `free_port`, `alloc_endpoint` and `set_port_state` of `src/io/port.c`,
called in any order.  Two endpoints can then have the same contents, so they are told apart by
their addresses, and the records that have not been freed are kept in a heap.  The flag of a port is
an `int`: `set_port_state` stores any.
-/

namespace EVdeSwitch
namespace Io

open EVdeSwitch.Lib
open EVdeSwitch.Utils

abbrev EndpointPtr : Type := Nat

/-- `endpoint`; nothing is ever stored in `descr`. -/
structure EndpointRecord where
  port : Int
  fd_data : BitVec 64
  next : Option EndpointPtr
  deriving DecidableEq, Repr

def PORT_FLAG_DOWN : Int := 0

def PORT_FLAG_UP : Int := 1

/-- `port`; the two functions are only stored. -/
structure PortSlot where
  flag : Int
  ep : Option EndpointPtr
  fd_ctl : Int
  sender : Option Nat
  receiver : Option Nat
  user : BitVec 32
  group : BitVec 32
  curuser : BitVec 32
  vlanuntag : Int
  deriving DecidableEq, Repr

/-- What both `alloc_port` and `free_port` store. -/
def PortSlot.reset (flag : Int) : PortSlot :=
  { flag := flag
    ep := none
    fd_ctl := -1
    sender := none
    receiver := none
    user := 0
    group := 0
    curuser := 0
    vlanuntag := 0 }

/-- `NUMPORTS` and the array of ports, with the endpoints that have not been freed. -/
structure PortTable where
  NUMPORTS : Nat
  port : Nat → PortSlot
  heap : EndpointPtr → Option EndpointRecord

/-- The arguments of `alloc_endpoint` besides the number of the port, and what `malloc` returns. -/
structure EndpointArgs where
  fd_data : BitVec 64
  user : BitVec 32
  sender : Option Nat
  receiver : Option Nat
  malloc : Option EndpointPtr
  deriving DecidableEq

/-- The loop of `free_port`; the link is read before the record is freed, and fuel is used by each
round.  To read a record that has been freed is undefined. -/
def freeEndpoints : Nat → (EndpointPtr → Option EndpointRecord) → Option EndpointPtr →
    Option (Except Halt (EndpointPtr → Option EndpointRecord))
  | _, heap, none => some (.ok heap)
  | 0, _, some _ => none
  | fuel + 1, heap, some e =>
      match heap e with
      | none => some (.error .crash)
      -- the link is read while the record is still there
      | some record => freeEndpoints fuel (Function.update heap e none) record.next

namespace PortTable

/-- `port_init`, for a number of ports that it accepts; the array is zeroed. -/
def init (NUMPORTS : Nat) : PortTable :=
  { NUMPORTS := NUMPORTS
    port := fun _ => { PortSlot.reset PORT_FLAG_DOWN with fd_ctl := 0 }
    heap := fun _ => none }

def setPort (table : PortTable) (i : Nat) (p : PortSlot) : PortTable :=
  { table with port := Function.update table.port i p }

/-- The slot that `alloc_port` looks at; port 0 stands for the first one that is free. -/
def slotOf (table : PortTable) (portno : Int) : Nat :=
  let down := fun i => (table.port i).flag = PORT_FLAG_DOWN
  if portno = 0 then ((List.range table.NUMPORTS).find? down).getD 0 else portno.toNat

/-- The index of the port, or the null pointer if the port is in use. -/
def allocPort (table : PortTable) (portno : Int) : Except Halt (Option Nat × PortTable) :=
  if portno < 0 ∨ portno ≥ table.NUMPORTS then
    (printlog .ERROR "Invalid port number\n").map fun _ => (none, table)
  else
    let i := table.slotOf portno
    if (table.port i).flag = PORT_FLAG_DOWN then
      .ok (some i, table.setPort i (PortSlot.reset PORT_FLAG_UP))
    else
      .ok (none, table)

/-- The index of the port, unless it is down or has no endpoint. -/
def getPort (table : PortTable) (portno : Int) : Except Halt (Option Nat) :=
  if portno < 0 ∨ portno ≥ table.NUMPORTS then
    (printlog .ERROR "Invalid port number: %d\n").map fun _ => none
  else
    let p := table.port portno.toNat
    if p.flag = PORT_FLAG_DOWN ∨ p.ep = none then .ok none else .ok (some portno.toNat)

/-- `none` where the fuel does not last. -/
def freePort (table : PortTable) (i fuel : Nat) : Option (Except Halt PortTable) :=
  (freeEndpoints fuel table.heap (table.port i).ep).map fun r =>
    r.map fun heap => { table.setPort i (PortSlot.reset PORT_FLAG_DOWN) with heap := heap }

def allocEndpoint (table : PortTable) (portno : Int) (args : EndpointArgs) :
    Except Halt (Option EndpointPtr × PortTable) :=
  match table.allocPort portno with
  | .error halt => .error halt
  | .ok (none, table) =>
      (printlog .WARNING "Port already in use\n").map fun _ => (none, table)
  | .ok (some i, table) =>
      match args.malloc with
      -- the null pointer is followed
      | none => .error .crash
      | some ep =>
          let record : EndpointRecord :=
            { port := portno
              fd_data := args.fd_data
              next := none }
          let p : PortSlot :=
            { table.port i with
              ep := some ep
              fd_ctl := -1
              sender := args.sender
              receiver := args.receiver
              user := args.user }
          -- the endpoint gets the number that was asked for, not that of its slot
          .ok (some ep, { table.setPort i p with heap := Function.update table.heap ep (some record) })

def setPortState (table : PortTable) (portno state : Int) : Except Halt PortTable :=
  match table.getPort portno with
  | .error halt => .error halt
  | .ok none => (printlog .ERROR "Invalid port number %d").map fun _ => table
  | .ok (some i) => .ok (table.setPort i { table.port i with flag := state })

end PortTable

/-! ## Runs -/

/-- A call; `free_port` is given the pointer to a port. -/
inductive PortCall
  | allocPort (portno : Int)
  | allocEndpoint (portno : Int) (args : EndpointArgs)
  | freePort (i fuel : Nat)
  | setPortState (portno state : Int)
  deriving DecidableEq

namespace PortTable

/-- What `malloc` returns is not in use. -/
def Fresh (table : PortTable) (args : EndpointArgs) : Prop :=
  ∀ ep, args.malloc = some ep → table.heap ep = none

instance decidableFresh (table : PortTable) (args : EndpointArgs) : Decidable (table.Fresh args) :=
  match h : args.malloc with
  | none => isTrue fun _ hep => by simp [h] at hep
  | some ep => decidable_of_iff (table.heap ep = none) (by simp [Fresh, h])

def perform (table : PortTable) : PortCall → Option (Except Halt PortTable)
  | .allocPort portno => some ((table.allocPort portno).map Prod.snd)
  | .allocEndpoint portno args =>
      if table.Fresh args then some ((table.allocEndpoint portno args).map Prod.snd) else none
  | .freePort i fuel => if i < table.NUMPORTS then table.freePort i fuel else none
  | .setPortState portno state => some (table.setPortState portno state)

end PortTable

/-- All sequences of calls, until one ends the process. -/
def portTables : Machine (Except Halt PortTable) PortCall :=
  { step := fun r call =>
      match r with
      | .ok table => table.perform call
      | .error _ => none }

namespace PortTable

variable {table table' : PortTable} {portno : Int} {args : EndpointArgs} {i : Nat}

@[simp] theorem NUMPORTS_setPort (table : PortTable) (i : Nat) (p : PortSlot) :
    (table.setPort i p).NUMPORTS = table.NUMPORTS := rfl

@[simp] theorem heap_setPort (table : PortTable) (i : Nat) (p : PortSlot) :
    (table.setPort i p).heap = table.heap := rfl

@[simp] theorem port_setPort_self (table : PortTable) (i : Nat) (p : PortSlot) :
    (table.setPort i p).port i = p :=
  Function.update_self _ _ _

theorem port_setPort_of_ne (table : PortTable) {i j : Nat} (h : j ≠ i) (p : PortSlot) :
    (table.setPort i p).port j = table.port j :=
  Function.update_of_ne h _ _

/-! ## What the functions do -/

theorem slotOf_of_ne_zero (table : PortTable) (h : portno ≠ 0) :
    table.slotOf portno = portno.toNat :=
  if_neg h

/-- Some port is free, and then the first one is taken; or none is. -/
theorem slotOf_zero_cases (table : PortTable) :
    (table.slotOf 0 < table.NUMPORTS ∧ (table.port (table.slotOf 0)).flag = PORT_FLAG_DOWN ∧
        ∀ j < table.slotOf 0, (table.port j).flag ≠ PORT_FLAG_DOWN) ∨
      (table.slotOf 0 = 0 ∧ ∀ j < table.NUMPORTS, (table.port j).flag ≠ PORT_FLAG_DOWN) := by
  cases hfind : (List.range table.NUMPORTS).find?
      fun i => (table.port i).flag = PORT_FLAG_DOWN with
  -- no port is free, and the answer is slot 0, which is not free either
  | none =>
      refine Or.inr ⟨by simp [slotOf, hfind], ?_⟩
      intro j hj
      simpa using List.find?_eq_none.1 hfind j (List.mem_range.2 hj)
  | some i =>
      have hslot : table.slotOf 0 = i := by simp [slotOf, hfind]
      rcases List.find?_range_eq_some.1 hfind with ⟨hdown, hmem, hbefore⟩
      rw [hslot]
      refine Or.inl ⟨List.mem_range.1 hmem, by simpa using hdown, ?_⟩
      intro j hj
      simpa using hbefore j hj

theorem allocPort_cases (table : PortTable) (portno : Int) :
    ((portno < 0 ∨ portno ≥ table.NUMPORTS) ∧
        table.allocPort portno = .error (.exit 1 "Invalid port number\n")) ∨
      (¬ (portno < 0 ∨ portno ≥ table.NUMPORTS) ∧
        (((table.port (table.slotOf portno)).flag ≠ PORT_FLAG_DOWN ∧
            table.allocPort portno = .ok (none, table)) ∨
          ((table.port (table.slotOf portno)).flag = PORT_FLAG_DOWN ∧
            table.allocPort portno =
              .ok (some (table.slotOf portno),
                table.setPort (table.slotOf portno) (PortSlot.reset PORT_FLAG_UP))))) := by
  by_cases hinvalid : portno < 0 ∨ portno ≥ table.NUMPORTS
  · refine Or.inl ⟨hinvalid, ?_⟩
    rw [allocPort, if_pos hinvalid]
    rfl
  · refine Or.inr ⟨hinvalid, ?_⟩
    by_cases hdown : (table.port (table.slotOf portno)).flag = PORT_FLAG_DOWN
    · refine Or.inr ⟨hdown, ?_⟩
      simp only [allocPort, if_neg hinvalid, if_pos hdown]
    · refine Or.inl ⟨hdown, ?_⟩
      simp only [allocPort, if_neg hinvalid, if_neg hdown]

/-- The table after `alloc_endpoint` has put a new endpoint into slot `i`. -/
def placed (table : PortTable) (portno : Int) (args : EndpointArgs) (i : Nat) (ep : EndpointPtr) :
    PortTable :=
  { table.setPort i
      { PortSlot.reset PORT_FLAG_UP with
        ep := some ep
        sender := args.sender
        receiver := args.receiver
        user := args.user } with
    heap := Function.update table.heap ep
      (some { port := portno, fd_data := args.fd_data, next := none }) }

theorem allocEndpoint_of_down (hvalid : ¬ (portno < 0 ∨ portno ≥ table.NUMPORTS))
    (hdown : (table.port (table.slotOf portno)).flag = PORT_FLAG_DOWN) {ep : EndpointPtr}
    (hmalloc : args.malloc = some ep) :
    table.allocEndpoint portno args =
      .ok (some ep, table.placed portno args (table.slotOf portno) ep) := by
  rcases table.allocPort_cases portno with ⟨hinvalid, _⟩ | ⟨_, ⟨hup, _⟩ | ⟨_, halloc⟩⟩
  · exact absurd hinvalid hvalid
  · exact absurd hdown hup
  · simp only [allocEndpoint, halloc, hmalloc, placed, setPort, Function.update_self,
      Function.update_idem, PortSlot.reset]

theorem allocEndpoint_cases (table : PortTable) (portno : Int) (args : EndpointArgs) :
    (∃ halt, table.allocEndpoint portno args = .error halt) ∨
      ((table.port (table.slotOf portno)).flag ≠ PORT_FLAG_DOWN ∧
        table.allocEndpoint portno args = .ok (none, table)) ∨
      (¬ (portno < 0 ∨ portno ≥ table.NUMPORTS) ∧
        (table.port (table.slotOf portno)).flag = PORT_FLAG_DOWN ∧
        ∃ ep, args.malloc = some ep ∧
          table.allocEndpoint portno args =
            .ok (some ep, table.placed portno args (table.slotOf portno) ep)) := by
  rcases table.allocPort_cases portno with ⟨_, halloc⟩ | ⟨hvalid, ⟨hup, halloc⟩ | ⟨hdown, halloc⟩⟩
  · exact Or.inl ⟨_, by rw [allocEndpoint, halloc]⟩
  · refine Or.inr (Or.inl ⟨hup, ?_⟩)
    rw [allocEndpoint, halloc]
    rfl
  · cases hmalloc : args.malloc with
    | none => exact Or.inl ⟨.crash, by simp only [allocEndpoint, halloc, hmalloc]⟩
    | some ep =>
        exact Or.inr (Or.inr ⟨hvalid, hdown, ep, rfl, allocEndpoint_of_down hvalid hdown hmalloc⟩)

theorem getPort_eq_some_iff :
    table.getPort portno = .ok (some i) ↔
      (¬ (portno < 0 ∨ portno ≥ table.NUMPORTS) ∧ portno.toNat = i) ∧
        (table.port i).flag ≠ PORT_FLAG_DOWN ∧ (table.port i).ep ≠ none := by
  by_cases hinvalid : portno < 0 ∨ portno ≥ table.NUMPORTS
  · simp [getPort, hinvalid, Except.map]
  · by_cases hdown : (table.port portno.toNat).flag = PORT_FLAG_DOWN ∨
        (table.port portno.toNat).ep = none
    · simp only [getPort, if_neg hinvalid, if_pos hdown, Except.ok.injEq, reduceCtorEq, false_iff]
      rintro ⟨⟨_, rfl⟩, hup, hep⟩
      exact hdown.elim hup hep
    · simp only [getPort, if_neg hinvalid, if_neg hdown, Except.ok.injEq, Option.some.injEq]
      constructor
      · rintro rfl
        exact ⟨⟨hinvalid, rfl⟩, not_or.1 hdown⟩
      · rintro ⟨⟨_, hi⟩, _⟩
        exact hi

/-! ## The endpoints of the ports -/

/-- The endpoints of the slots are live, each is that of one slot, and no other is linked to it. -/
structure Inv (table : PortTable) : Prop where
  live : ∀ i e, (table.port i).ep = some e →
    ∃ record, table.heap e = some record ∧ record.next = none
  distinct : ∀ i j e, (table.port i).ep = some e → (table.port j).ep = some e → i = j

theorem inv_init (NUMPORTS : Nat) : (init NUMPORTS).Inv where
  live := by simp [init, PortSlot.reset]
  distinct := by simp [init, PortSlot.reset]

/-- A slot may lose its endpoint. -/
theorem Inv.setPort (h : table.Inv) {p : PortSlot}
    (hep : p.ep = none ∨ p.ep = (table.port i).ep) : (table.setPort i p).Inv := by
  -- a slot that is written has no endpoint afterwards that it had not before
  have hold : ∀ j e, ((table.setPort i p).port j).ep = some e → (table.port j).ep = some e := by
    intro j e hj
    by_cases hji : j = i
    · subst hji
      rw [port_setPort_self] at hj
      rcases hep with hnone | hsame
      · rw [hnone] at hj
        cases hj
      · exact hsame.symm.trans hj
    · rwa [port_setPort_of_ne table hji] at hj
  exact
    { live := fun j e hj => h.live j e (hold j e hj)
      distinct := fun j k e hj hk => h.distinct j k e (hold j e hj) (hold k e hk) }

theorem ne_of_fresh (h : table.Inv) {ep e : EndpointPtr} (hfresh : table.heap ep = none)
    (he : (table.port i).ep = some e) : e ≠ ep := by
  rintro rfl
  rcases h.live i e he with ⟨record, hrecord, _⟩
  rw [hfresh] at hrecord
  cases hrecord

theorem Inv.placed (h : table.Inv) {ep : EndpointPtr} (hfresh : table.heap ep = none) :
    (table.placed portno args i ep).Inv := by
  -- the new endpoint is in its slot only, the others are where they were
  have hslot : ∀ j e, ((table.placed portno args i ep).port j).ep = some e →
      (j = i ∧ e = ep) ∨ (j ≠ i ∧ (table.port j).ep = some e) := by
    intro j e hj
    by_cases hji : j = i
    · subst hji
      have hself : ((table.placed portno args j ep).port j).ep = some ep := by
        simp [PortTable.placed]
      rw [hself] at hj
      exact Or.inl ⟨rfl, (Option.some.inj hj).symm⟩
    · have hother : (table.placed portno args i ep).port j = table.port j :=
        port_setPort_of_ne table hji _
      rw [hother] at hj
      exact Or.inr ⟨hji, hj⟩
  constructor
  · intro j e hj
    rcases hslot j e hj with ⟨_, rfl⟩ | ⟨_, hold⟩
    · exact ⟨_, Function.update_self _ _ _, rfl⟩
    · rcases h.live j e hold with ⟨record, hrecord, hnext⟩
      refine ⟨record, ?_, hnext⟩
      exact (Function.update_of_ne (ne_of_fresh h hfresh hold) _ _).trans hrecord
  · intro j k e hj hk
    rcases hslot j e hj with ⟨rfl, rfl⟩ | ⟨_, hold⟩
    · rcases hslot k e hk with ⟨rfl, _⟩ | ⟨_, hother⟩
      · rfl
      · exact absurd rfl (ne_of_fresh h hfresh hother)
    · rcases hslot k e hk with ⟨_, rfl⟩ | ⟨_, hother⟩
      · exact absurd rfl (ne_of_fresh h hfresh hold)
      · exact h.distinct j k e hold hother

/-- The table after `free_port`. -/
def freed (table : PortTable) (i : Nat) : PortTable :=
  { table.setPort i (PortSlot.reset PORT_FLAG_DOWN) with
    heap :=
      match (table.port i).ep with
      | none => table.heap
      | some e => Function.update table.heap e none }

/-- The loop of `free_port` has one round at most. -/
theorem Inv.freePort_eq (h : table.Inv) (i fuel : Nat) :
    table.freePort i (fuel + 1) = some (.ok (table.freed i)) := by
  cases hep : (table.port i).ep with
  | none => simp only [freePort, freed, hep, freeEndpoints, Option.map_some, Except.map]
  | some e =>
      rcases h.live i e hep with ⟨record, hrecord, hnext⟩
      simp only [freePort, freed, hep, freeEndpoints, hrecord, hnext, Option.map_some, Except.map]

theorem Inv.freePort_cases (h : table.Inv) {fuel : Nat} {r : Except Halt PortTable}
    (hr : table.freePort i fuel = some r) : r = .ok (table.freed i) := by
  cases fuel with
  -- without fuel the loop comes back only if there is nothing to free
  | zero =>
      cases hep : (table.port i).ep with
      | none =>
          simp only [freePort, hep, freeEndpoints, Option.map_some, Except.map,
            Option.some.injEq] at hr
          simp only [← hr, freed, hep]
      | some e =>
          simp only [freePort, hep, freeEndpoints, Option.map_none, reduceCtorEq] at hr
  | succ fuel =>
      rw [h.freePort_eq] at hr
      exact (Option.some.inj hr).symm

theorem Inv.freed (h : table.Inv) (i : Nat) : (table.freed i).Inv := by
  have hslots : (table.setPort i (PortSlot.reset PORT_FLAG_DOWN)).Inv := h.setPort (Or.inl rfl)
  refine
    { live := ?_
      distinct := hslots.distinct }
  intro j e hj
  have hj : ((table.setPort i (PortSlot.reset PORT_FLAG_DOWN)).port j).ep = some e := hj
  rcases hslots.live j e hj with ⟨record, hrecord, hnext⟩
  refine ⟨record, ?_, hnext⟩
  cases hep : (table.port i).ep with
  | none => simpa only [PortTable.freed, hep, heap_setPort] using hrecord
  | some e' =>
      -- the record that is freed is that of no other slot
      have hji : j ≠ i := by
        rintro rfl
        rw [port_setPort_self] at hj
        cases hj
      have hne : e ≠ e' := by
        rintro rfl
        rw [port_setPort_of_ne table hji] at hj
        exact hji (h.distinct j i e hj hep)
      simp only [PortTable.freed, hep]
      exact (Function.update_of_ne hne _ _).trans hrecord

/-! ## One call -/

/-- What a call does that ends the process, returns without an effect, or has one. -/
inductive Performed (table : PortTable) : PortCall → Except Halt PortTable → Prop where
  | halted {call : PortCall} (halt : Halt) : Performed table call (.error halt)
  | unchanged {call : PortCall} : Performed table call (.ok table)
  | allocated {portno : Int} (hvalid : ¬ (portno < 0 ∨ portno ≥ table.NUMPORTS))
      (hdown : (table.port (table.slotOf portno)).flag = PORT_FLAG_DOWN) :
      Performed table (.allocPort portno)
        (.ok (table.setPort (table.slotOf portno) (PortSlot.reset PORT_FLAG_UP)))
  | placed {portno : Int} {args : EndpointArgs} {ep : EndpointPtr}
      (hvalid : ¬ (portno < 0 ∨ portno ≥ table.NUMPORTS))
      (hdown : (table.port (table.slotOf portno)).flag = PORT_FLAG_DOWN)
      (hmalloc : args.malloc = some ep) (hfresh : table.heap ep = none) :
      Performed table (.allocEndpoint portno args)
        (.ok (table.placed portno args (table.slotOf portno) ep))
  | freed {i fuel : Nat} : Performed table (.freePort i fuel) (.ok (table.freed i))
  | stated {portno state : Int} {i : Nat} (hport : table.getPort portno = .ok (some i)) :
      Performed table (.setPortState portno state)
        (.ok (table.setPort i { table.port i with flag := state }))

theorem Inv.performed (h : table.Inv) {call : PortCall} {r : Except Halt PortTable}
    (hstep : portTables.step (.ok table) call = some r) : table.Performed call r := by
  have hcall : table.perform call = some r := hstep
  cases call with
  | allocPort portno =>
      rcases table.allocPort_cases portno with
        ⟨_, halloc⟩ | ⟨hvalid, ⟨_, halloc⟩ | ⟨hdown, halloc⟩⟩
      · rw [perform, halloc] at hcall
        cases hcall
        exact .halted _
      · rw [perform, halloc] at hcall
        cases hcall
        exact .unchanged
      · rw [perform, halloc] at hcall
        cases hcall
        exact .allocated hvalid hdown
  | allocEndpoint portno args =>
      by_cases hfresh : table.Fresh args
      · rw [perform, if_pos hfresh] at hcall
        rcases table.allocEndpoint_cases portno args with
          ⟨halt, halloc⟩ | ⟨_, halloc⟩ | ⟨hvalid, hdown, ep, hmalloc, halloc⟩
        · rw [halloc] at hcall
          cases hcall
          exact .halted _
        · rw [halloc] at hcall
          cases hcall
          exact .unchanged
        · rw [halloc] at hcall
          cases hcall
          exact .placed hvalid hdown hmalloc (hfresh ep hmalloc)
      · rw [perform, if_neg hfresh] at hcall
        cases hcall
  | freePort i fuel =>
      by_cases hlt : i < table.NUMPORTS
      · rw [perform, if_pos hlt] at hcall
        rw [h.freePort_cases hcall]
        exact .freed
      · rw [perform, if_neg hlt] at hcall
        cases hcall
  | setPortState portno state =>
      have hr : table.setPortState portno state = r := Option.some.inj hcall
      -- `get_port` has looked for the port, and an error of either ends the process
      cases hport : table.getPort portno with
      | error halt =>
          rw [setPortState, hport] at hr
          exact hr ▸ .halted halt
      | ok found =>
          cases found with
          | none =>
              rw [setPortState, hport] at hr
              exact hr ▸ .halted _
          | some i =>
              rw [setPortState, hport] at hr
              exact hr ▸ .stated hport

theorem Inv.step (h : table.Inv) {call : PortCall} (hcall : table.Performed call (.ok table')) :
    table'.Inv := by
  cases hcall with
  | unchanged => exact h
  | allocated hvalid hdown => exact h.setPort (Or.inl rfl)
  | placed hvalid hdown hmalloc hfresh => exact h.placed hfresh
  | freed => exact h.freed _
  | stated hport => exact h.setPort (Or.inr rfl)

def InvState : Except Halt PortTable → Prop
  | .ok table => table.Inv
  | .error _ => True

theorem invState_step {r r' : Except Halt PortTable} {call : PortCall} (h : InvState r)
    (hstep : portTables.step r call = some r') : InvState r' := by
  cases r with
  | error halt => cases hstep
  | ok table =>
      have hinv : table.Inv := h
      cases r' with
      | error halt => trivial
      | ok table' => exact hinv.step (hinv.performed hstep)

theorem inv_of_reaches {NUMPORTS : Nat}
    (h : portTables.Reaches (.ok (init NUMPORTS)) (.ok table)) : table.Inv := by
  have hstart : InvState (.ok (init NUMPORTS)) := inv_init NUMPORTS
  have hend : InvState (.ok table) :=
    h.invariant InvState (fun _ _ _ hr hstep => invState_step hr hstep) hstart
  exact hend

/-! ## Ports by the contents of their endpoints -/

/-- The array of ports in which an endpoint stands for its contents. -/
structure Represents (table : PortTable) (arena : PortArena) : Prop where
  numports : arena.NUMPORTS = table.NUMPORTS
  flag : ∀ i, (arena.port i).flag = .DOWN ↔ (table.port i).flag = PORT_FLAG_DOWN
  empty : ∀ i, (table.port i).ep = none → (arena.port i).ep = none
  holds : ∀ i e, (table.port i).ep = some e → ∃ ep record, (arena.port i).ep = some ep ∧
    table.heap e = some record ∧ record.port = ep.port ∧
    record.fd_data = BitVec.ofInt 64 ep.fd_data.toInt

variable {arena : PortArena}

theorem represents_init (NUMPORTS : Nat) : (init NUMPORTS).Represents (PortArena.alloc NUMPORTS) where
  numports := rfl
  flag := fun _ => iff_of_true rfl rfl
  empty := fun _ _ => rfl
  holds := by simp [init, PortSlot.reset]

theorem Represents.slotOf (h : table.Represents arena) (portno : Int) :
    (if portno = 0 then
        ((List.range arena.NUMPORTS).find? fun i => (arena.port i).flag = .DOWN).getD 0
      else portno.toNat) = table.slotOf portno := by
  simp only [PortTable.slotOf, h.numports, h.flag]

/-- Slot `i` gets an endpoint with these contents. -/
theorem Represents.placed (h : table.Represents arena) (hinv : table.Inv) {ep : EndpointPtr}
    (hfresh : table.heap ep = none) (h0 : 0 ≤ portno) {fd : Fd}
    (hfd : args.fd_data = BitVec.ofInt 64 fd.toInt) :
    (table.placed portno args i ep).Represents
      (arena.setPort i { flag := .UP, ep := some ⟨portno.toNat, fd⟩ }) := by
  have hself : (table.placed portno args i ep).port i =
      { PortSlot.reset PORT_FLAG_UP with
        ep := some ep
        sender := args.sender
        receiver := args.receiver
        user := args.user } := Function.update_self _ _ _
  refine
    { numports := h.numports
      flag := ?_
      empty := ?_
      holds := ?_ }
  · intro j
    -- the slot that is taken, and all others
    by_cases hj : j = i
    · subst hj
      rw [hself]
      simp [PortArena.setPort, PortSlot.reset, PORT_FLAG_UP, PORT_FLAG_DOWN]
    · have hother : (table.placed portno args i ep).port j = table.port j :=
        port_setPort_of_ne table hj _
      simpa [hother, PortArena.setPort, hj] using h.flag j
  · intro j hnone
    by_cases hj : j = i
    · subst hj
      rw [hself] at hnone
      cases hnone
    · have hother : (table.placed portno args i ep).port j = table.port j :=
        port_setPort_of_ne table hj _
      rw [hother] at hnone
      simpa [PortArena.setPort, hj] using h.empty j hnone
  · intro j e he
    by_cases hj : j = i
    · subst hj
      rw [hself] at he
      cases he
      -- both record the number that was asked for
      refine ⟨⟨portno.toNat, fd⟩, _, by simp [PortArena.setPort], Function.update_self _ _ _, ?_, hfd⟩
      exact (Int.toNat_of_nonneg h0).symm
    · have hother : (table.placed portno args i ep).port j = table.port j :=
        port_setPort_of_ne table hj _
      rw [hother] at he
      rcases h.holds j e he with ⟨contents, record, hep, hrecord, hcontents⟩
      refine ⟨contents, record, by simpa [PortArena.setPort, hj] using hep, ?_, hcontents⟩
      exact (Function.update_of_ne (ne_of_fresh hinv hfresh he) _ _).trans hrecord

/-- What the ends of the two calls of `alloc_endpoint` have in common. -/
def SameEnd : Except Halt (Option EndpointPtr × PortTable) →
    Except Halt (Option Endpoint × PortArena) → Prop
  | .ok (e, table), .ok (ep, arena) => (e = none ↔ ep = none) ∧ table.Represents arena
  | .error halt, .error halt' => halt = halt'
  | _, _ => False

/-- With memory for the endpoint, `alloc_endpoint` does to the contents what it does to the
records. -/
theorem Represents.allocEndpoint (h : table.Represents arena) (hinv : table.Inv)
    {ep : EndpointPtr} (hmalloc : args.malloc = some ep) (hfresh : table.heap ep = none) {fd : Fd}
    (hfd : args.fd_data = BitVec.ofInt 64 fd.toInt) (portno : Int) :
    SameEnd (table.allocEndpoint portno args) (Io.allocEndpoint arena portno fd) := by
  by_cases hinvalid : portno < 0 ∨ portno ≥ table.NUMPORTS
  · have harena : portno < 0 ∨ portno ≥ arena.NUMPORTS := by rwa [h.numports]
    simp [PortTable.allocEndpoint, PortTable.allocPort, Io.allocEndpoint, Io.allocPort, hinvalid,
      harena, Except.map, SameEnd]
  · have harena : ¬ (portno < 0 ∨ portno ≥ arena.NUMPORTS) := by rwa [h.numports]
    -- both look at the same slot, and find the same flag
    by_cases hdown : (table.port (table.slotOf portno)).flag = PORT_FLAG_DOWN
    · have hports : Io.allocEndpoint arena portno fd =
          .ok (some ⟨portno.toNat, fd⟩, arena.setPort (table.slotOf portno)
            { flag := .UP, ep := some ⟨portno.toNat, fd⟩ }) := by
        simp only [Io.allocEndpoint, Io.allocPort, harena, if_false, h.slotOf,
          (h.flag _).2 hdown, if_true, PortArena.setPort, Function.update_self, Function.update_idem]
      rw [allocEndpoint_of_down hinvalid hdown hmalloc, hports]
      refine ⟨by simp, h.placed hinv hfresh ?_ hfd⟩
      omega
    · have hports : Io.allocEndpoint arena portno fd = .ok (none, arena) := by
        have hup : ¬ (arena.port (table.slotOf portno)).flag = .DOWN := fun hd => hdown ((h.flag _).1 hd)
        simp only [Io.allocEndpoint, Io.allocPort, harena, if_false, h.slotOf, hup]
        rfl
      have htable : table.allocEndpoint portno args = .ok (none, table) := by
        simp only [PortTable.allocEndpoint, PortTable.allocPort, hinvalid, if_false, hdown]
        rfl
      rw [htable, hports]
      exact ⟨by simp, h⟩

/-! ## The number that an endpoint records -/

/-- What `alloc_endpoint` should do: an endpoint leads back to the slot it is in, nothing happens to
the other slots and their endpoints, and a request for any port finds one that is free. -/
structure KnowsPort (table : PortTable) (portno : Int) (args : EndpointArgs) : Prop where
  own : ∀ ep table', table.allocEndpoint portno args = .ok (some ep, table') →
    ∃ i allocated record, table.allocPort portno = .ok (some i, allocated) ∧
      table'.heap ep = some record ∧ table'.getPort record.port = .ok (some i) ∧
      (table'.port i).ep = some ep
  others : ∀ ep table', table.allocEndpoint portno args = .ok (some ep, table') →
    ∀ i allocated, table.allocPort portno = .ok (some i, allocated) → ∀ j, j ≠ i →
      table'.port j = table.port j ∧
        ∀ e, (table.port j).ep = some e → table'.heap e = table.heap e
  first : portno = 0 → (∃ i < table.NUMPORTS, (table.port i).flag = PORT_FLAG_DOWN) →
    ∃ ep table', table.allocEndpoint portno args = .ok (some ep, table')

/-- Whatever the slot, the others keep what they have. -/
theorem placed_others (h : table.Inv) {ep : EndpointPtr} (hfresh : table.heap ep = none) {j : Nat}
    (hj : j ≠ i) :
    (table.placed portno args i ep).port j = table.port j ∧
      ∀ e, (table.port j).ep = some e → (table.placed portno args i ep).heap e = table.heap e :=
  ⟨port_setPort_of_ne table hj _,
    fun _ he => Function.update_of_ne (ne_of_fresh h hfresh he) _ _⟩

/-- The number is that of the slot, and then it leads back. -/
theorem getPort_placed (hvalid : ¬ (portno < 0 ∨ portno ≥ table.NUMPORTS)) {ep : EndpointPtr} :
    (table.placed portno args i ep).getPort portno = .ok (some i) ↔
      portno.toNat = i := by
  have hself : ((table.placed portno args i ep).port i).flag ≠ PORT_FLAG_DOWN ∧
      ((table.placed portno args i ep).port i).ep ≠ none := by
    simp [placed, PortSlot.reset, PORT_FLAG_UP, PORT_FLAG_DOWN]
  rw [getPort_eq_some_iff]
  constructor
  · rintro ⟨⟨_, hi⟩, _⟩
    exact hi
  · intro hi
    exact ⟨⟨hvalid, hi⟩, hself⟩

theorem allocEndpoint_eq_ok {ep : EndpointPtr}
    (h : table.allocEndpoint portno args = .ok (some ep, table')) :
    ¬ (portno < 0 ∨ portno ≥ table.NUMPORTS) ∧
      (table.port (table.slotOf portno)).flag = PORT_FLAG_DOWN ∧ args.malloc = some ep ∧
      table' = table.placed portno args (table.slotOf portno) ep := by
  rcases table.allocEndpoint_cases portno args with
    ⟨halt, halloc⟩ | ⟨_, halloc⟩ | ⟨hvalid, hdown, ep', hmalloc, halloc⟩
  · rw [halloc] at h
    cases h
  · rw [halloc] at h
    cases h
  · rw [halloc] at h
    cases h
    exact ⟨hvalid, hdown, hmalloc, rfl⟩

theorem allocPort_eq_ok {allocated : PortTable}
    (h : table.allocPort portno = .ok (some i, allocated)) : i = table.slotOf portno := by
  rcases table.allocPort_cases portno with ⟨_, halloc⟩ | ⟨_, ⟨_, halloc⟩ | ⟨_, halloc⟩⟩
  · rw [halloc] at h
    cases h
  · rw [halloc] at h
    cases h
  · rw [halloc] at h
    cases h
    rfl

theorem allocPort_of_down (hvalid : ¬ (portno < 0 ∨ portno ≥ table.NUMPORTS))
    (hdown : (table.port (table.slotOf portno)).flag = PORT_FLAG_DOWN) :
    ∃ allocated, table.allocPort portno = .ok (some (table.slotOf portno), allocated) := by
  rcases table.allocPort_cases portno with ⟨hinvalid, _⟩ | ⟨_, ⟨hup, _⟩ | ⟨_, halloc⟩⟩
  · exact absurd hinvalid hvalid
  · exact absurd hdown hup
  · exact ⟨_, halloc⟩

/-- The endpoint knows its port as soon as the slot that is taken has the number asked for. -/
theorem Inv.knowsPort (h : table.Inv) (hvalid : ¬ (portno < 0 ∨ portno ≥ table.NUMPORTS))
    (hfresh : table.Fresh args)
    -- the slot need only be the right one where it is taken
    (hslot : (table.port (table.slotOf portno)).flag = PORT_FLAG_DOWN → args.malloc ≠ none →
      portno.toNat = table.slotOf portno)
    (hfirst : portno = 0 → (∃ i < table.NUMPORTS, (table.port i).flag = PORT_FLAG_DOWN) →
      (table.port (table.slotOf portno)).flag = PORT_FLAG_DOWN ∧ args.malloc ≠ none) :
    table.KnowsPort portno args where
  own := by
    intro ep table' halloc
    rcases allocEndpoint_eq_ok halloc with ⟨_, hdown, hmalloc, rfl⟩
    rcases allocPort_of_down hvalid hdown with ⟨allocated, hport⟩
    have hsome : args.malloc ≠ none := by simp [hmalloc]
    exact ⟨_, allocated, _, hport, Function.update_self _ _ _,
      (getPort_placed hvalid).2 (hslot hdown hsome), by simp [PortTable.placed]⟩
  others := by
    intro ep table' halloc i allocated hport j hj
    rcases allocEndpoint_eq_ok halloc with ⟨_, _, hmalloc, rfl⟩
    rw [allocPort_eq_ok hport] at hj
    exact placed_others h (hfresh ep hmalloc) hj
  first := by
    intro hzero hexists
    rcases hfirst hzero hexists with ⟨hdown, hsome⟩
    rcases Option.ne_none_iff_exists'.1 hsome with ⟨ep, hmalloc⟩
    exact ⟨ep, _, allocEndpoint_of_down hvalid hdown hmalloc⟩

/-- In every table that calls lead to: the endpoint that is returned leads back to its slot, unless
any port was asked for and port 0 is in use while another one is free. -/
theorem knowsPort_iff {NUMPORTS : Nat}
    (hreach : portTables.Reaches (.ok (init NUMPORTS)) (.ok table)) (h0 : 0 ≤ portno)
    (hlt : portno < table.NUMPORTS) (hfresh : table.Fresh args) :
    table.KnowsPort portno args ↔
      portno ≠ 0 ∨ (∀ i < table.NUMPORTS, (table.port i).flag ≠ PORT_FLAG_DOWN) ∨
        ((table.port 0).flag = PORT_FLAG_DOWN ∧ args.malloc ≠ none) := by
  have hinv := inv_of_reaches hreach
  have hvalid : ¬ (portno < 0 ∨ portno ≥ table.NUMPORTS) := by omega
  by_cases hzero : portno = 0
  · subst hzero
    -- for port 0 the first free slot is looked for
    rcases table.slotOf_zero_cases with ⟨hslot, hdown, hbefore⟩ | ⟨hslot, hup⟩
    · have hsome : ¬ ∀ i < table.NUMPORTS, (table.port i).flag ≠ PORT_FLAG_DOWN :=
        fun hall => hall _ hslot hdown
      have hany : ¬ (0 : Int) ≠ 0 := not_not.2 rfl
      rw [or_iff_right hany, or_iff_right hsome]
      constructor
      · intro hknows
        rcases hknows.first rfl ⟨_, hslot, hdown⟩ with ⟨ep, table', halloc⟩
        rcases hknows.own ep table' halloc with ⟨i, allocated, record, hport, hrecord, hget, _⟩
        rcases allocEndpoint_eq_ok halloc with ⟨_, _, hmalloc, rfl⟩
        have hself : (table.placed 0 args (table.slotOf 0) ep).heap ep =
            some { port := 0, fd_data := args.fd_data, next := none } :=
          Function.update_self _ _ _
        -- the record has the number 0, whatever the slot is
        rw [hself] at hrecord
        cases hrecord
        rw [allocPort_eq_ok hport, getPort_placed hvalid] at hget
        have hfirst : table.slotOf 0 = 0 := hget.symm
        rw [hfirst] at hdown
        exact ⟨hdown, by simp [hmalloc]⟩
      · rintro ⟨hdown₀, hmalloc⟩
        have hfirst : table.slotOf 0 = 0 := by
          by_contra hne
          exact hbefore 0 (Nat.pos_of_ne_zero hne) hdown₀
        exact hinv.knowsPort hvalid hfresh (fun _ _ => hfirst.symm) fun _ _ => ⟨hdown, hmalloc⟩
    · refine iff_of_true ?_ (Or.inr (Or.inl hup))
      refine hinv.knowsPort hvalid hfresh (fun _ _ => hslot.symm) ?_
      -- no slot is free, so nothing is promised
      rintro _ ⟨i, hi, hdown⟩
      exact absurd hdown (hup i hi)
  · refine iff_of_true ?_ (Or.inl hzero)
    refine hinv.knowsPort hvalid hfresh ?_ fun h => absurd h hzero
    intro _ _
    exact (slotOf_of_ne_zero table hzero).symm

/-- An endpoint for the first port of a new table. -/
def firstArgs : EndpointArgs :=
  { fd_data := 7
    user := 0
    sender := none
    receiver := none
    malloc := some 100 }

/-- With another record, for another descriptor. -/
def secondArgs : EndpointArgs :=
  { firstArgs with
    fd_data := 8
    malloc := some 101 }

/-- Both ports have been in use, and the first one has been freed. -/
def freedFirst : List PortCall :=
  [.allocEndpoint 0 firstArgs, .allocEndpoint 1 secondArgs, .freePort 0 2]

theorem knowsPort_iff_freed :
    ∃ table, portTables.run (.ok (init 2)) freedFirst = some (.ok table) ∧
      (table.port 1).ep = some 101 ∧ table.KnowsPort 0 firstArgs := by
  have heval : ((portTables.run (.ok (init 2)) freedFirst).bind Except.toOption).map (fun table =>
      (table.NUMPORTS, (table.port 0).flag, (table.port 1).ep, table.heap 100)) =
        some (2, PORT_FLAG_DOWN, some 101, none) := by
    decide +kernel
  rcases Option.map_eq_some_iff.1 heval with ⟨table, htable, hobserve⟩
  rcases Option.bind_eq_some_iff.1 htable with ⟨r, hrun, hr⟩
  cases r with
  | error halt => cases hr
  | ok table' =>
      cases hr
      simp only [Prod.mk.injEq] at hobserve
      rcases hobserve with ⟨hNUMPORTS, hdown, hep, hheap⟩
      have hfresh : table.Fresh firstArgs := by
        intro ep hmalloc
        cases hmalloc
        exact hheap
      have hlt : (0 : Int) < table.NUMPORTS := by
        rw [hNUMPORTS]
        decide
      refine ⟨table, hrun, hep, ?_⟩
      exact (knowsPort_iff ⟨freedFirst, hrun⟩ (le_refl 0) hlt hfresh).2
        (Or.inr (Or.inr ⟨hdown, by decide⟩))

/-- The second endpoint for any port is in slot 1 and records the number 0, which is that of the
first one. -/
theorem not_knowsPort_second :
    ∃ table, portTables.Reaches (.ok (init 2)) (.ok table) ∧ table.Fresh secondArgs ∧
      ¬ table.KnowsPort 0 secondArgs := by
  have hfirst : (init 2).allocEndpoint 0 firstArgs = .ok (some 100, (init 2).placed 0 firstArgs 0 100) :=
    allocEndpoint_of_down (by decide) rfl rfl
  have hfresh : (init 2).Fresh firstArgs := fun _ _ => rfl
  have hstep : portTables.step (.ok (init 2)) (.allocEndpoint 0 firstArgs) =
      some (.ok ((init 2).placed 0 firstArgs 0 100)) := by
    change (init 2).perform (.allocEndpoint 0 firstArgs) = _
    rw [perform, if_pos hfresh, hfirst]
    rfl
  have hreach := Machine.Reaches.single hstep
  have hfresh' : ((init 2).placed 0 firstArgs 0 100).Fresh secondArgs := by
    intro ep hep
    cases hep
    rfl
  refine ⟨_, hreach, hfresh', ?_⟩
  rintro ⟨own, _, _⟩
  have halloc : ((init 2).placed 0 firstArgs 0 100).allocEndpoint 0 secondArgs =
      .ok (some 101, ((init 2).placed 0 firstArgs 0 100).placed 0 secondArgs 1 101) :=
    allocEndpoint_of_down (by decide) rfl rfl
  -- `get_port` with the number of the second endpoint finds the slot of the first
  rcases own _ _ halloc with ⟨i, allocated, record, hport, hrecord, hget, _⟩
  have hself : (((init 2).placed 0 firstArgs 0 100).placed 0 secondArgs 1 101).heap 101 =
      some { port := 0, fd_data := 8, next := none } := rfl
  rw [hself] at hrecord
  cases hrecord
  rw [allocPort_eq_ok hport] at hget
  have hslot : (0 : Int).toNat = 1 := (getPort_placed (by decide)).1 hget
  exact absurd hslot (by decide)

end PortTable

end Io
end EVdeSwitch
