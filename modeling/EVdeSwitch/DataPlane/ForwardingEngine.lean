import EVdeSwitch.DataPlane.Toeplitz
import EVdeSwitch.Io.FdManager
import EVdeSwitch.Utils.Logging

/-!
# ForwardingEngine — from a received frame to the frames sent

`dispatch_packet`, `flood_packet` and `send_packet` of `src/data_plane/forwarding_engine.c`, and
the body of the worker's inner loop, which decides between the two ways of sending.  The global
variables `endpoints`, `fdt` and `mt` are arguments.
-/

namespace EVdeSwitch
namespace DataPlane

open EVdeSwitch.ControlPlane
open EVdeSwitch.Io
open EVdeSwitch.Utils

/-! ## `dispatch_packet` -/

/-- A buffer handed to a worker, with the circumstances of its receipt: the call of
`dispatch_packet` it belongs to, the descriptor, the former contents of the memory, and what
`recv` stored (`none` if it failed). -/
structure Buffer where
  seq : Nat
  fd : Fd
  stale : Packet
  frame : Option Frame
  deriving DecidableEq

namespace Buffer

/-- What `p` points to after `recv`. -/
def p (b : Buffer) : Packet :=
  match b.frame with
  | some frame => b.stale.receive frame
  | none => b.stale

/-- The result of `recv`, an `int`. -/
def len (b : Buffer) : Int :=
  match b.frame with
  | some frame => frame.bytes.length
  | none => -1

/-- `compute_packet_hash` takes the length as a `size_t`, in which -1 is `2 ^ 64 - 1`. -/
def hash (b : Buffer) : UInt32 :=
  computePacketHash b.p (b.len % 2 ^ 64).toNat

/-- The worker that `dispatch_packet` picks. -/
def threadIdx (b : Buffer) (num_threads : Nat) : Nat :=
  b.hash.toNat % num_threads

end Buffer

/-! ## Sending -/

/-- One call of `send`: the descriptor and the bytes. -/
structure Transmission where
  fd : Fd
  bytes : List UInt8
  deriving DecidableEq

def floodPacket (endpoints : List Endpoint) (p : Packet) (origin_port : Nat) :
    List Transmission :=
  (endpoints.filter fun ep => ep.port ≠ origin_port).map fun ep => ⟨ep.fd_data, p.bytes⟩

/-- The retry loop around `send` ends the process in its first round, or does not start. -/
def sendPacket (endpoints : List Endpoint) (p : Packet) (port : Int) (sendFails : Bool) :
    Except Halt (List Transmission) :=
  match endpoints.find? fun ep => (ep.port : Int) = port with
  | some ep =>
      (if sendFails then printlog .ERROR "send() failed: %s" else .ok ()).map
        fun _ => [⟨ep.fd_data, p.bytes⟩]
  | none => .ok []

/-! ## The body of the worker's inner loop -/

/-- `IS_BROADCAST`: the group bit of an address. -/
def isBroadcast (addr : Mac) : Bool :=
  addr.get ⟨0, by decide⟩ &&& 1 = 1

def isIPv6 (p : Packet) : Bool :=
  p.proto = (0x86, 0xdd)

/-- The VLAN under which all addresses are learned. -/
def VLAN : UInt16 := 1

/-- The rest of the loop body once the endpoint is known; `now` is the time of all three accesses
to the table. -/
def forwardPacket (endpoints : List Endpoint) (mt : MacTable) (ep : Endpoint) (p : Packet)
    (now : Nat) (sendFails : Bool) : Except Halt (MacTable × List Transmission) :=
  if isIPv6 p then
    -- IPv6 packets are dropped
    .ok (mt, [])
  else if isBroadcast p.dest then
    .ok (mt, floodPacket endpoints p ep.port)
  else
    let looked := macTableLookup mt p.dest VLAN now
    let out_port := looked.1
    let mt := looked.2
    if (ep.port : Int) = out_port then
      -- the destination is where the packet comes from
      .ok (mt, [])
    else
      let looked := macTableLookup mt p.src VLAN now
      let in_port := looked.1
      let mt := looked.2
      let mt := if in_port = -1 then macTableInsert mt p.src VLAN ep.port now else mt
      if out_port = -1 then
        .ok (mt, floodPacket endpoints p ep.port)
      else
        (sendPacket endpoints p out_port sendFails).map fun sent => (mt, sent)

/-- What a worker does with a packet it has popped, for the descriptor `fd` of the message. -/
def processPacket (fdt : FdTable) (endpoints : List Endpoint) (mt : MacTable) (fd : Int)
    (p : Packet) (now : Nat) (sendFails : Bool) : Except Halt (MacTable × List Transmission) :=
  match fdTableLookup fdt fd with
  | none => (printlog .ERROR "Endpoint not found for fd %d").map fun _ => (mt, [])
  | some ep => forwardPacket endpoints mt ep p now sendFails

/-! ## What the loop body does -/

/-- The lookup of the source, after that of the destination. -/
def lookSource (mt : MacTable) (p : Packet) (now : Nat) : Int × MacTable :=
  macTableLookup (macTableLookup mt p.dest VLAN now).2 p.src VLAN now

/-- The part of the loop body that touches the table. -/
def learn (mt : MacTable) (ep : Endpoint) (p : Packet) (now : Nat) : MacTable :=
  if isIPv6 p ∨ isBroadcast p.dest then
    mt
  else if (ep.port : Int) = (macTableLookup mt p.dest VLAN now).1 then
    (macTableLookup mt p.dest VLAN now).2
  else if (lookSource mt p now).1 = -1 then
    macTableInsert (lookSource mt p now).2 p.src VLAN ep.port now
  else
    (lookSource mt p now).2

section Outcomes

variable {endpoints : List Endpoint} {mt mt' : MacTable} {ep : Endpoint} {p : Packet} {now : Nat}
variable {sendFails : Bool} {sent : List Transmission}

/-- What `send_packet` has sent went to the endpoint on the port, if there is one. -/
theorem sendPacket_ok {port : Int} (h : sendPacket endpoints p port sendFails = .ok sent) :
    (sent = [] ∧ ∀ ep ∈ endpoints, (ep.port : Int) ≠ port) ∨
      ∃ ep ∈ endpoints, (ep.port : Int) = port ∧ sent = [⟨ep.fd_data, p.bytes⟩] := by
  cases hfind : endpoints.find? fun ep => (ep.port : Int) = port with
  | none =>
      simp only [sendPacket, hfind, Except.ok.injEq] at h
      exact Or.inl ⟨h.symm, by simpa using hfind⟩
  | some ep =>
      have hport : (ep.port : Int) = port := by simpa using List.find?_some hfind
      refine Or.inr ⟨ep, List.mem_of_find?_eq_some hfind, hport, ?_⟩
      cases sendFails with
      | true => simp [sendPacket, hfind, Except.map] at h
      | false =>
          simp only [sendPacket, hfind, Bool.false_eq_true, if_false, Except.map,
            Except.ok.injEq] at h
          exact h.symm

theorem forwardPacket_of_isIPv6 (hv6 : isIPv6 p = true) :
    forwardPacket endpoints mt ep p now sendFails = .ok (learn mt ep p now, []) := by
  simp [forwardPacket, learn, hv6]

theorem forwardPacket_of_isBroadcast (hv6 : isIPv6 p = false) (hgroup : isBroadcast p.dest = true) :
    forwardPacket endpoints mt ep p now sendFails =
      .ok (learn mt ep p now, floodPacket endpoints p ep.port) := by
  simp [forwardPacket, learn, hv6, hgroup]

theorem forwardPacket_of_same_port (hv6 : isIPv6 p = false) (hgroup : isBroadcast p.dest = false)
    (hsame : (ep.port : Int) = (macTableLookup mt p.dest VLAN now).1) :
    forwardPacket endpoints mt ep p now sendFails = .ok (learn mt ep p now, []) := by
  simp [forwardPacket, learn, hv6, hgroup, hsame]

theorem forwardPacket_of_unknown (hv6 : isIPv6 p = false) (hgroup : isBroadcast p.dest = false)
    (hout : (macTableLookup mt p.dest VLAN now).1 = -1) :
    forwardPacket endpoints mt ep p now sendFails =
      .ok (learn mt ep p now, floodPacket endpoints p ep.port) := by
  have hsame : (ep.port : Int) ≠ -1 := ep.port_ne_neg_one
  simp [forwardPacket, learn, lookSource, hv6, hgroup, hsame, hout]
  rfl

theorem forwardPacket_of_known (hv6 : isIPv6 p = false) (hgroup : isBroadcast p.dest = false)
    (hsame : (ep.port : Int) ≠ (macTableLookup mt p.dest VLAN now).1)
    (hout : (macTableLookup mt p.dest VLAN now).1 ≠ -1) :
    forwardPacket endpoints mt ep p now sendFails =
      (sendPacket endpoints p (macTableLookup mt p.dest VLAN now).1 sendFails).map
        fun sent => (learn mt ep p now, sent) := by
  simp [forwardPacket, learn, lookSource, hv6, hgroup, hsame, hout]
  rfl

/-- Everything the loop body can do: learn, and send nothing, or flood, or send to one port. -/
theorem forwardPacket_cases (endpoints : List Endpoint) (mt : MacTable) (ep : Endpoint)
    (p : Packet) (now : Nat) (sendFails : Bool) :
    forwardPacket endpoints mt ep p now sendFails = .ok (learn mt ep p now, []) ∨
    (isIPv6 p = false ∧ forwardPacket endpoints mt ep p now sendFails =
      .ok (learn mt ep p now, floodPacket endpoints p ep.port)) ∨
    (isIPv6 p = false ∧ isBroadcast p.dest = false ∧
      (ep.port : Int) ≠ (macTableLookup mt p.dest VLAN now).1 ∧
      (macTableLookup mt p.dest VLAN now).1 ≠ -1 ∧
      forwardPacket endpoints mt ep p now sendFails =
        (sendPacket endpoints p (macTableLookup mt p.dest VLAN now).1 sendFails).map
          fun sent => (learn mt ep p now, sent)) := by
  -- in the order in which the loop body asks
  cases hv6 : isIPv6 p with
  | true => exact Or.inl (forwardPacket_of_isIPv6 hv6)
  | false =>
      cases hgroup : isBroadcast p.dest with
      | true => exact Or.inr (Or.inl ⟨rfl, forwardPacket_of_isBroadcast hv6 hgroup⟩)
      | false =>
          by_cases hsame : (ep.port : Int) = (macTableLookup mt p.dest VLAN now).1
          · exact Or.inl (forwardPacket_of_same_port hv6 hgroup hsame)
          · by_cases hout : (macTableLookup mt p.dest VLAN now).1 = -1
            · exact Or.inr (Or.inl ⟨rfl, forwardPacket_of_unknown hv6 hgroup hout⟩)
            · exact Or.inr (Or.inr ⟨rfl, rfl, hsame, hout,
                forwardPacket_of_known hv6 hgroup hsame hout⟩)

/-- However a packet is sent on, the table is left as `learn` says. -/
theorem forwardPacket_ok (h : forwardPacket endpoints mt ep p now sendFails = .ok (mt', sent)) :
    mt' = learn mt ep p now ∧
      (sent = [] ∨ isIPv6 p = false ∧ (sent = floodPacket endpoints p ep.port ∨
        ∃ port, sendPacket endpoints p port sendFails = .ok sent)) := by
  rcases forwardPacket_cases endpoints mt ep p now sendFails with
    hnone | ⟨hv6, hflood⟩ | ⟨hv6, _, _, _, hsend⟩
  · rw [hnone] at h
    cases h
    exact ⟨rfl, Or.inl rfl⟩
  · rw [hflood] at h
    cases h
    exact ⟨rfl, Or.inr ⟨hv6, Or.inl rfl⟩⟩
  · rw [hsend] at h
    rcases map_eq_ok.1 h with ⟨sent', hresult, heq⟩
    cases heq
    exact ⟨rfl, Or.inr ⟨hv6, Or.inr ⟨_, hresult⟩⟩⟩

end Outcomes

/-! ## When the loop body ends the process -/

/-- The packet is for a single port, other than its own, that some endpoint has. -/
def SentToOne (endpoints : List Endpoint) (mt : MacTable) (ep : Endpoint) (p : Packet)
    (now : Nat) : Prop :=
  isIPv6 p = false ∧ isBroadcast p.dest = false ∧
    (ep.port : Int) ≠ (macTableLookup mt p.dest VLAN now).1 ∧
    ∃ ep' ∈ endpoints, (ep'.port : Int) = (macTableLookup mt p.dest VLAN now).1

instance decidableSentToOne (endpoints : List Endpoint) (mt : MacTable) (ep : Endpoint) (p : Packet)
    (now : Nat) : Decidable (SentToOne endpoints mt ep p now) :=
  inferInstanceAs (Decidable (_ ∧ _ ∧ _ ∧ _))

theorem exits_sendPacket (endpoints : List Endpoint) (p : Packet) (port : Int)
    (sendFails : Bool) :
    Exits (sendPacket endpoints p port sendFails) ↔
      sendFails = true ∧ ∃ ep ∈ endpoints, (ep.port : Int) = port := by
  cases hfind : endpoints.find? fun ep => (ep.port : Int) = port with
  | none =>
      have hnone : ¬ ∃ ep ∈ endpoints, (ep.port : Int) = port := by
        simpa using hfind
      simp [sendPacket, hfind, hnone]
  | some ep =>
      have hsome : ∃ ep ∈ endpoints, (ep.port : Int) = port :=
        ⟨ep, List.mem_of_find?_eq_some hfind, by simpa using List.find?_some hfind⟩
      cases sendFails <;> simp [sendPacket, hfind, hsome]

theorem sendPacket_exits_or_ok (endpoints : List Endpoint) (p : Packet) (port : Int)
    (sendFails : Bool) :
    Exits (sendPacket endpoints p port sendFails) ∨
      ∃ sent, sendPacket endpoints p port sendFails = .ok sent := by
  cases hfind : endpoints.find? fun ep => (ep.port : Int) = port with
  | none => exact Or.inr ⟨[], by simp [sendPacket, hfind]⟩
  | some ep => cases sendFails <;> simp [sendPacket, hfind, Except.map]

theorem exits_forwardPacket (endpoints : List Endpoint) (mt : MacTable) (ep : Endpoint)
    (p : Packet) (now : Nat) (sendFails : Bool) :
    Exits (forwardPacket endpoints mt ep p now sendFails) ↔
      sendFails = true ∧ SentToOne endpoints mt ep p now := by
  cases hv6 : isIPv6 p with
  -- nothing is sent
  | true => simp [forwardPacket_of_isIPv6 hv6, SentToOne, hv6]
  | false =>
      cases hgroup : isBroadcast p.dest with
      -- `flood_packet` does not look at the result of `send`
      | true => simp [forwardPacket_of_isBroadcast hv6 hgroup, SentToOne, hgroup]
      | false =>
          by_cases hsame : (ep.port : Int) = (macTableLookup mt p.dest VLAN now).1
          · simp [forwardPacket_of_same_port hv6 hgroup hsame, SentToOne, hsame]
          · by_cases hout : (macTableLookup mt p.dest VLAN now).1 = -1
            · -- no endpoint has the port -1
              have hnone : ¬ ∃ ep' ∈ endpoints, (ep'.port : Int) = -1 := by
                rintro ⟨ep', _, hport⟩
                exact ep'.port_ne_neg_one hport
              simp only [forwardPacket_of_unknown hv6 hgroup hout, SentToOne, hout, hnone,
                and_false, not_exits_ok]
            · simp [forwardPacket_of_known hv6 hgroup hsame hout, exits_sendPacket, SentToOne, hv6,
                hgroup, hsame]

theorem forwardPacket_exits_or_ok (endpoints : List Endpoint) (mt : MacTable) (ep : Endpoint)
    (p : Packet) (now : Nat) (sendFails : Bool) :
    Exits (forwardPacket endpoints mt ep p now sendFails) ∨
      ∃ result, forwardPacket endpoints mt ep p now sendFails = .ok result := by
  rcases forwardPacket_cases endpoints mt ep p now sendFails with
    hnone | ⟨_, hflood⟩ | ⟨_, _, _, _, hsend⟩
  · exact Or.inr ⟨_, hnone⟩
  · exact Or.inr ⟨_, hflood⟩
  · rw [hsend, exits_map]
    rcases sendPacket_exits_or_ok endpoints p (macTableLookup mt p.dest VLAN now).1 sendFails with
      hexits | ⟨sent, hsent⟩
    · exact Or.inl hexits
    · exact Or.inr ⟨_, by rw [hsent]; rfl⟩

/-- A packet ends the process if its descriptor has no endpoint, or if it is sent to one port and
`send` fails. -/
def ProcessFails (fdt : FdTable) (endpoints : List Endpoint) (mt : MacTable) (fd : Int)
    (p : Packet) (now : Nat) (sendFails : Bool) : Prop :=
  match fdTableLookup fdt fd with
  | none => True
  | some ep => sendFails = true ∧ SentToOne endpoints mt ep p now

theorem processPacket_cases (fdt : FdTable) (endpoints : List Endpoint) (mt : MacTable)
    (fd : Int) (p : Packet) (now : Nat) (sendFails : Bool) :
    (ProcessFails fdt endpoints mt fd p now sendFails ∧
        Exits (processPacket fdt endpoints mt fd p now sendFails)) ∨
      (¬ ProcessFails fdt endpoints mt fd p now sendFails ∧
        ∃ result, processPacket fdt endpoints mt fd p now sendFails = .ok result) := by
  cases hlookup : fdTableLookup fdt fd with
  -- the endpoint is not found
  | none => simp [processPacket, ProcessFails, hlookup]
  | some ep =>
      simp only [processPacket, ProcessFails, hlookup]
      rw [← exits_forwardPacket]
      rcases forwardPacket_exits_or_ok endpoints mt ep p now sendFails with
        hexits | ⟨result, hresult⟩
      · exact Or.inl ⟨hexits, hexits⟩
      · refine Or.inr ⟨?_, result, hresult⟩
        rw [hresult]
        exact not_exits_ok result

end DataPlane
end EVdeSwitch
