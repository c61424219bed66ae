import EVdeSwitch.DataPlane.Delivery
import EVdeSwitch.DataPlane.TableHistory
import EVdeSwitch.Process.PortRemoval

/-!
# Delivery — the switch forwards what it receives

Ports are only added, and the table learns no port but those of endpoints.  So in every state of
the process the list and the table make a bridge, and a worker sends every frame where it is owed.
-/

namespace EVdeSwitch
namespace Process

open EVdeSwitch.ControlPlane
open EVdeSwitch.DataPlane
open EVdeSwitch.Io
open EVdeSwitch.Lib
open EVdeSwitch.Message
open EVdeSwitch.Utils

namespace State

/-- The structures that know the endpoints agree, and so does the table of addresses. -/
structure BridgeInv (s : State) : Prop where
  ports : s.PortsInv
  sound : DataPlane.Sound s.engine.mt
  placed : Placed s.engine.endpoints s.engine.mt

variable {c : Config} {s t : State} {a : SwitchAction}

/-! ## What a move does to the list and to the table -/

/-- No endpoint leaves the list. -/
theorem Moves.mem_endpoints (h : Moves c s a t) {ep : Endpoint} (hep : ep ∈ s.engine.endpoints) :
    ep ∈ t.engine.endpoints := by
  rcases h.manager_cases with hmanager | ⟨_, _, fd_data, _, _, _, rfl⟩
  · have hendpoints : t.engine.endpoints = s.engine.endpoints :=
      congrArg PortManager.endpoints hmanager
    rw [hendpoints]
    exact hep
  · exact List.mem_cons_of_mem _ hep

/-- The table learns from packets that come in at an endpoint. -/
theorem Moves.mt_cases (h : Moves c s a t) :
    t.engine.mt = s.engine.mt ∨
      ∃ fd work, fdTableLookup s.engine.fdt fd = some work.ep ∧
        learning.step s.engine.mt work = some t.engine.mt := by
  cases h with
  | received fd engine hstep => exact Engine.mt_cases hstep
  | worked engine _ hstep => exact Engine.mt_cases hstep
  | _ => exact Or.inl rfl

theorem bridgeInv_start (c : Config) : (start c).BridgeInv where
  ports := portsInv_start c
  sound := sound_create
  placed := placed_create _

theorem BridgeInv.step (hs : s.BridgeInv) (hinv : t.Inv) (h : Moves c s a t) : t.BridgeInv := by
  have hports : t.PortsInv := hs.ports.step hinv h
  have hgrown : Placed t.engine.endpoints s.engine.mt :=
    hs.placed.mono fun ep hep => h.mem_endpoints hep
  rcases h.mt_cases with hsame | ⟨fd, work, hlookup, hwork⟩
  · exact
      { ports := hports
        sound := by rw [hsame]; exact hs.sound
        placed := by rw [hsame]; exact hgrown }
  · -- the ingress endpoint is one of the list
    have hep := h.mem_endpoints (hs.ports.fdt fd work.ep hlookup).1
    exact
      { ports := hports
        sound := hs.sound.step hwork
        placed := by
          rw [learning_step hwork]
          exact hgrown.learn hs.sound hep work.p work.now }

/-! ## One packet -/

theorem BridgeInv.delivers (hs : s.BridgeInv) {fd : Int} {e : Endpoint} {p : Packet}
    (hin : fdTableLookup s.engine.fdt fd = some e) (hv6 : isIPv6 p = false) (now : Nat) :
    ∃ receivers, Delivers s.engine.endpoints s.engine.mt e p now receivers ∧
      processPacket s.engine.fdt s.engine.endpoints s.engine.mt fd p now false =
        .ok (learn s.engine.mt e p now, copies p receivers) := by
  have he : e ∈ s.engine.endpoints := (hs.ports.fdt fd e hin).1
  rcases forwardPacket_egress hs.sound hs.placed hs.ports.ports_nodup e hv6 now with
    ⟨receivers, hon, hforward⟩
  refine ⟨receivers, delivers_of_on hs.placed hs.ports.ports_nodup he hon, ?_⟩
  simp only [processPacket, hin]
  exact hforward

end State

namespace Switch

def BridgeInv : Switch → Prop
  | .running s => s.BridgeInv
  | .ended _ => True

variable {c : Config} {s : State}

theorem bridgeInv_step {s t : Switch} {a : SwitchAction} (hs : s.BridgeInv)
    (h : (switch c).step s a = some t) : t.BridgeInv := by
  cases s with
  | ended halt => cases h
  | running s =>
      rcases Option.map_eq_some_iff.1 h with ⟨r, hr, rfl⟩
      cases r with
      | error halt => trivial
      | ok t =>
          have hinv : s.Inv := (State.BridgeInv.ports hs).inv
          exact State.BridgeInv.step hs ((hinv.step hr).inv t rfl) (hinv.moves hr)

theorem bridgeInv_of_reaches (h : (switch c).Reaches (.running (State.start c)) (.running s)) :
    s.BridgeInv := by
  have hstart : BridgeInv (.running (State.start c)) := State.bridgeInv_start c
  exact h.invariant BridgeInv (fun _ _ _ hs hstep => bridgeInv_step hs hstep) hstart

/-- Whatever ports have been added and whatever packets processed, a worker sends the next packet
to the endpoints it is owed to, as long as `send` succeeds. -/
theorem delivers_of_reaches (h : (switch c).Reaches (.running (State.start c)) (.running s))
    {fd : Int} {e : Endpoint} {p : Packet} (hin : fdTableLookup s.engine.fdt fd = some e)
    (hv6 : isIPv6 p = false) (now : Nat) :
    ∃ receivers, Delivers s.engine.endpoints s.engine.mt e p now receivers ∧
      processPacket s.engine.fdt s.engine.endpoints s.engine.mt fd p now false =
        .ok (learn s.engine.mt e p now, receivers.map fun ep => ⟨ep.fd_data, p.bytes⟩) :=
  (bridgeInv_of_reaches h).delivers hin hv6 now

/-- That is what the worker's step adds to the record of what has been sent. -/
theorem sent_of_process (h : (switch c).Reaches (.running (State.start c)) (.running s))
    {i now : Nat} {fd : Int} {b : Buffer} {e : Endpoint} {t : Switch}
    (hpc : (s.engine.pool.workers i).pc = .processing fd (some b))
    (hin : fdTableLookup s.engine.fdt fd = some e) (hv6 : isIPv6 b.p = false)
    (hstep : (switch c).step (.running s) (.process i now false) = some t) :
    ∃ u receivers, t = .running u ∧
      Delivers s.engine.endpoints s.engine.mt e b.p now receivers ∧
      u.engine.sent = s.engine.sent ++ (copies b.p receivers).map fun sent => ⟨b, sent⟩ := by
  rcases (bridgeInv_of_reaches h).delivers hin hv6 now with ⟨receivers, hdelivers, hresult⟩
  rcases Option.map_eq_some_iff.1 hstep with ⟨r, hr, rfl⟩
  rcases Option.map_eq_some_iff.1 hr with ⟨result, hprocess, rfl⟩
  rcases Engine.process_eq_some.1 hprocess with ⟨fd', b', pool, hpc', _, rfl⟩
  -- the worker has one packet at a time
  rw [hpc] at hpc'
  cases hpc'
  rw [hresult]
  exact ⟨_, receivers, rfl, hdelivers, rfl⟩

/-- A frame for a station whose address is that of `stationFrame`. -/
def replyFrame : Frame :=
  { bytes := [2, 0, 0, 0, 0, 1, 2, 0, 0, 0, 0, 9, 0x08, 0x00]
    length_le := by decide }

/-- A client sends a frame, and the worker processes it. -/
def sendFrame (fd : Fd) (frame : Frame) (now : Nat) : List SwitchAction :=
  [.dataEvent (eventData DataReqType.PACKET.toNat fd)
      { ctl :=
          { stale := 0
            readFails := false
            epollFails := false }
        stale := Packet.zeroed
        frame := some frame },
    .push, .push, .push, .push, .write,
    .read 0, .pop 0, .pop 0, .pop 0, .pop 0, .process 0 now false]

/-- What a worker finds out about a packet. -/
def lookups (fd : Int) (p : Packet) (now : Nat) : Switch → Option (Option Endpoint × Option Int)
  | .running s => some (fdTableLookup s.engine.fdt fd, place s.engine.mt now p.dest)
  | .ended _ => none

/-- A frame from the first of two ports, and then the reply to it. -/
theorem delivers_of_reaches_reply :
    ∃ s receivers, (switch oneWorker).Reaches (.running (State.start oneWorker)) (.running s) ∧
      Delivers s.engine.endpoints s.engine.mt ⟨2, 10⟩ (Packet.zeroed.receive replyFrame) 1001
        receivers ∧
      processPacket s.engine.fdt s.engine.endpoints s.engine.mt 10
          (Packet.zeroed.receive replyFrame) 1001 false =
        .ok (learn s.engine.mt ⟨2, 10⟩ (Packet.zeroed.receive replyFrame) 1001,
          receivers.map fun ep => ⟨ep.fd_data, (Packet.zeroed.receive replyFrame).bytes⟩) ∧
      ∃ ep, (ep.port : Int) = 1 ∧ receivers = [ep] := by
  have heval : ((switch oneWorker).run (.running (State.start oneWorker))
      (attachPort 7 8 ++ attachPort 9 10 ++ sendFrame 8 stationFrame 1000)).bind
        (lookups 10 (Packet.zeroed.receive replyFrame) 1001) = some (some ⟨2, 10⟩, some 1) := by
    decide +kernel
  rcases Option.bind_eq_some_iff.1 heval with ⟨t, hrun, hlookups⟩
  cases t with
  | ended halt => cases hlookups
  | running s =>
      have hv6 : isIPv6 (Packet.zeroed.receive replyFrame) = false := by decide
      have hgroup : isBroadcast (Packet.zeroed.receive replyFrame).dest = false := by decide
      rcases Prod.mk.inj (Option.some.inj hlookups) with ⟨hin, hplace⟩
      rcases delivers_of_reaches ⟨_, hrun⟩ hin hv6 1001 with ⟨receivers, hdelivers, hresult⟩
      rcases hdelivers.learned hgroup 1 hplace (by decide) with ⟨ep, _, hport, hreceivers⟩
      exact ⟨s, receivers, ⟨_, hrun⟩, hdelivers, hresult, ep, hport, hreceivers⟩

end Switch

end Process
end EVdeSwitch
