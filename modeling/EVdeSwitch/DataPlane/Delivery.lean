import Mathlib.Data.List.Nodup
import EVdeSwitch.DataPlane.Learning
import EVdeSwitch.Lib.Bridge

/-!
# Delivery — whom a frame goes to

What the workers have to work with is a learning bridge: the list of endpoints has its ports, and
the live entries of the table say where the stations are.  With one endpoint for each port, and an
endpoint for the port of every entry, the loop body sends a frame to the endpoints on the ports
that the bridge owes it to.
-/

namespace EVdeSwitch
namespace DataPlane

open EVdeSwitch.ControlPlane
open EVdeSwitch.Io
open EVdeSwitch.Lib
open EVdeSwitch.Utils

/-- The port of the live entry of a station. -/
def place (mt : MacTable) (now : Nat) (addr : Mac) : Option Int :=
  ((mt.entryAt (addr, VLAN)).filter fun entry => MacTable.Live entry now).map HashEntry.port

/-- The station a packet is for, unless it is for a group. -/
def station (p : Packet) : Option Mac :=
  if isBroadcast p.dest then none else some p.dest

/-- The bridge that the workers work for at a time. -/
def bridge (endpoints : List Endpoint) (mt : MacTable) (now : Nat) : Bridge Int Mac :=
  { ports := {port | ∃ ep ∈ endpoints, (ep.port : Int) = port}
    place := place mt now }

/-- Every port in the table, in an entry alive or not, is the port of an endpoint. -/
def Placed (endpoints : List Endpoint) (mt : MacTable) : Prop :=
  ∀ k entry, mt.entryAt k = some entry → ∃ ep ∈ endpoints, (ep.port : Int) = entry.port

/-- The endpoints to which a packet that comes in at `e` is sent, each of them once. -/
structure Delivers (endpoints : List Endpoint) (mt : MacTable) (e : Endpoint) (p : Packet)
    (now : Nat) (receivers : List Endpoint) : Prop where
  once : receivers.Nodup
  subset : ∀ ep ∈ receivers, ep ∈ endpoints
  no_reflection : ∀ ep ∈ receivers, ep.port ≠ e.port
  group : isBroadcast p.dest = true → ∀ ep ∈ endpoints, ep ≠ e → ep ∈ receivers
  no_black_hole : isBroadcast p.dest = false → place mt now p.dest ≠ some (e.port : Int) →
    (∃ ep ∈ endpoints, ep ≠ e) → receivers ≠ []
  learned : isBroadcast p.dest = false → ∀ port, place mt now p.dest = some port →
    port ≠ e.port → ∃ ep ∈ endpoints, (ep.port : Int) = port ∧ receivers = [ep]
  unknown : isBroadcast p.dest = false → place mt now p.dest = none →
    ∀ ep ∈ endpoints, ep ≠ e → ep ∈ receivers

section Tables

variable {mt : MacTable} {mac : Mac} {vlan : UInt16} {k : MacKey} {entry : HashEntry} {now : Nat}
variable {endpoints : List Endpoint}

/-! ## The ports in the table -/

/-- A lookup changes no port. -/
theorem Sound.port_lookup (hs : Sound mt)
    (h : (macTableLookup mt mac vlan now).2.entryAt k = some entry) :
    ∃ old, mt.entryAt k = some old ∧ old.port = entry.port := by
  by_cases hk : k = (mac, vlan)
  · subst hk
    rw [MacTable.entryAt_lookup_self hs.keysOnce, Option.map_eq_some_iff] at h
    rcases h with ⟨old, hold, rfl⟩
    exact ⟨old, hold, rfl⟩
  · rw [MacTable.entryAt_lookup_of_ne hs.keysOnce hk] at h
    exact ⟨entry, h, rfl⟩

/-- A packet adds no port but that of its endpoint. -/
theorem Sound.port_learn (hs : Sound mt) {ep : Endpoint} {p : Packet}
    (h : (DataPlane.learn mt ep p now).entryAt k = some entry) :
    entry.port = ep.port ∨ ∃ old, mt.entryAt k = some old ∧ old.port = entry.port := by
  have hs₁ := hs.lookup p.dest VLAN now
  have hs₂ : Sound (lookSource mt p now).2 := hs₁.lookup p.src VLAN now
  have hlooked : ∀ {entry : HashEntry}, (lookSource mt p now).2.entryAt k = some entry →
      ∃ old, mt.entryAt k = some old ∧ old.port = entry.port := by
    intro entry h
    rcases hs₁.port_lookup h with ⟨entry₁, hentry₁, hport₁⟩
    rcases hs.port_lookup hentry₁ with ⟨old, hold, hport⟩
    exact ⟨old, hold, hport.trans hport₁⟩
  unfold DataPlane.learn at h
  split_ifs at h with hquiet hsame hnew
  · exact Or.inr ⟨entry, h, rfl⟩
  · exact Or.inr (hs.port_lookup h)
  · by_cases hk : k = (p.src, VLAN)
    · -- the entry that is inserted or refreshed
      subst hk
      rw [MacTable.entryAt_insert_self hs₂.keysOnce] at h
      cases h
      exact Or.inl rfl
    · rw [MacTable.entryAt_insert_of_ne hs₂.keysOnce hk] at h
      exact Or.inr (hlooked h)
  · exact Or.inr (hlooked h)

theorem placed_create (endpoints : List Endpoint) : Placed endpoints macTableCreate := by
  intro k entry h
  cases h

theorem Placed.mono {endpoints' : List Endpoint} (h : Placed endpoints mt)
    (hsub : ∀ ep ∈ endpoints, ep ∈ endpoints') : Placed endpoints' mt := by
  intro k entry hentry
  rcases h k entry hentry with ⟨ep, hep, hport⟩
  exact ⟨ep, hsub ep hep, hport⟩

theorem Placed.learn (h : Placed endpoints mt) (hs : Sound mt) {ep : Endpoint}
    (hep : ep ∈ endpoints) (p : Packet) (now : Nat) :
    Placed endpoints (DataPlane.learn mt ep p now) := by
  intro k entry hentry
  rcases hs.port_learn hentry with hnew | ⟨old, hold, hport⟩
  · exact ⟨ep, hep, hnew.symm⟩
  · rw [← hport]
    exact h k old hold

/-! ## The bridge -/

theorem place_eq_some {addr : Mac} {port : Int} :
    place mt now addr = some port ↔
      ∃ entry, mt.entryAt (addr, VLAN) = some entry ∧ MacTable.Live entry now ∧
        entry.port = port := by
  simp [place, Option.filter_eq_some_iff, and_assoc]

/-- A lookup answers what the bridge knows. -/
theorem Sound.lookup_place (hs : Sound mt) (addr : Mac) (now : Nat) :
    (macTableLookup mt addr VLAN now).1 = (place mt now addr).getD (-1) := by
  rw [MacTable.lookup_fst hs.keysOnce, place]
  cases hentry : mt.entryAt (addr, VLAN) with
  | none => rfl
  | some entry => by_cases hlive : MacTable.Live entry now <;> simp [Option.filter, hlive]

theorem Sound.place_ne (hs : Sound mt) {addr : Mac} {port : Int}
    (h : place mt now addr = some port) : port ≠ -1 := by
  rcases place_eq_some.1 h with ⟨entry, hentry, _, rfl⟩
  exact hs.port_ne _ entry hentry

theorem Placed.bridge (h : Placed endpoints mt) (now : Nat) :
    (bridge endpoints mt now).Placed := by
  intro addr port hplace
  rcases place_eq_some.1 hplace with ⟨entry, hentry, _, rfl⟩
  exact h _ entry hentry

end Tables

/-! ## The endpoints that are sent to -/

section Sending

variable {endpoints : List Endpoint} {mt : MacTable} {e : Endpoint} {p : Packet} {now : Nat}

/-- One copy of a packet for each of some endpoints. -/
def copies (p : Packet) (receivers : List Endpoint) : List Transmission :=
  receivers.map fun ep => ⟨ep.fd_data, p.bytes⟩

/-- The endpoints on some ports of the bridge, each of them once. -/
structure On (endpoints : List Endpoint) (ports : Set Int) (receivers : List Endpoint) : Prop where
  once : receivers.Nodup
  mem_iff : ∀ ep, ep ∈ receivers ↔ ep ∈ endpoints ∧ (ep.port : Int) ∈ ports

/-- `flood_packet` sends to the endpoints on all ports but one. -/
theorem on_flooded (hnodup : endpoints.Nodup) (port : Nat) :
    On endpoints ((bridge endpoints mt now).ports \ {(port : Int)})
      (endpoints.filter fun ep => ep.port ≠ port) where
  once := hnodup.filter _
  mem_iff := by
    intro ep
    simp only [List.mem_filter, decide_eq_true_eq, Set.mem_sdiff, Set.mem_singleton_iff,
      Int.natCast_inj]
    constructor
    · rintro ⟨hep, hne⟩
      exact ⟨hep, ⟨ep, hep, rfl⟩, hne⟩
    · rintro ⟨hep, _, hne⟩
      exact ⟨hep, hne⟩

/-- No two endpoints have one port. -/
theorem on_singleton (hports : (endpoints.map Endpoint.port).Nodup) {ep : Endpoint} {port : Int}
    (hep : ep ∈ endpoints) (hport : (ep.port : Int) = port) : On endpoints {port} [ep] where
  once := List.nodup_singleton ep
  mem_iff := by
    intro other
    rw [List.mem_singleton, Set.mem_singleton_iff]
    constructor
    · rintro rfl
      exact ⟨hep, hport⟩
    · rintro ⟨hother, heq⟩
      exact List.inj_on_of_nodup_map hports hother hep (Int.natCast_inj.1 (heq.trans hport.symm))

theorem On.perm {ports : Set Int} {receivers receivers' : List Endpoint}
    (h : On endpoints ports receivers) (h' : On endpoints ports receivers') :
    receivers.Perm receivers' :=
  (List.perm_ext_iff_of_nodup h.once h'.once).2
    fun ep => (h.mem_iff ep).trans (h'.mem_iff ep).symm

/-- `send_packet` sends to the one endpoint on a port. -/
theorem exists_on_sent (hports : (endpoints.map Endpoint.port).Nodup) {port : Int}
    (h : ∃ ep ∈ endpoints, (ep.port : Int) = port) :
    ∃ receivers, On endpoints {port} receivers ∧
      sendPacket endpoints p port false = .ok (copies p receivers) := by
  rcases sendPacket_exits_or_ok endpoints p port false with hexits | ⟨sent, hsent⟩
  · exact absurd ((exits_sendPacket endpoints p port false).1 hexits).1 Bool.false_ne_true
  · rcases sendPacket_ok hsent with ⟨_, hnone⟩ | ⟨ep, hep, hport, rfl⟩
    · rcases h with ⟨ep, hep, hport⟩
      exact absurd hport (hnone ep hep)
    · exact ⟨[ep], on_singleton hports hep hport, hsent⟩

/-- The loop body sends a packet to the endpoints on the ports that the bridge owes it to. -/
theorem forwardPacket_egress (hs : Sound mt) (hplaced : Placed endpoints mt)
    (hports : (endpoints.map Endpoint.port).Nodup) (e : Endpoint) (hv6 : isIPv6 p = false)
    (now : Nat) :
    ∃ receivers,
      On endpoints ((bridge endpoints mt now).egress e.port (station p)) receivers ∧
      forwardPacket endpoints mt e p now false =
        .ok (learn mt e p now, copies p receivers) := by
  have hflooded : ∀ {ports}, ports = (bridge endpoints mt now).ports \ {(e.port : Int)} →
      forwardPacket endpoints mt e p now false =
        .ok (learn mt e p now, floodPacket endpoints p e.port) →
      ∃ receivers, On endpoints ports receivers ∧
        forwardPacket endpoints mt e p now false = .ok (learn mt e p now, copies p receivers) := by
    intro ports hegress hforward
    rw [hegress]
    exact ⟨_, on_flooded hports.of_map e.port, hforward⟩
  cases hgroup : isBroadcast p.dest with
  | true =>
      have hstation : station p = none := if_pos hgroup
      rw [hstation]
      exact hflooded (Bridge.egress_of_none rfl) (forwardPacket_of_isBroadcast hv6 hgroup)
  | false =>
      have hstation : station p = some p.dest := by simp [station, hgroup]
      have hlookup := hs.lookup_place p.dest now
      rw [hstation]
      cases hplace : place mt now p.dest with
      | none =>
          -- the station has no live entry
          rw [hplace] at hlookup
          exact hflooded (Bridge.egress_of_none hplace)
            (forwardPacket_of_unknown hv6 hgroup hlookup)
      | some port =>
          have hbridge : (some p.dest).bind (bridge endpoints mt now).place = some port := hplace
          rw [hplace] at hlookup
          by_cases hsame : (e.port : Int) = port
          · -- the packet is for the port it comes from
            subst hsame
            refine ⟨[], ?_, forwardPacket_of_same_port hv6 hgroup hlookup.symm⟩
            rw [Bridge.egress_of_ingress hbridge]
            exact ⟨List.nodup_nil, by simp⟩
          · have hne : (e.port : Int) ≠ (macTableLookup mt p.dest VLAN now).1 := by
              rw [hlookup]
              exact hsame
            have hout : (macTableLookup mt p.dest VLAN now).1 ≠ -1 := by
              rw [hlookup]
              exact hs.place_ne hplace
            rcases exists_on_sent (p := p) hports (hplaced.bridge now p.dest port hplace) with
              ⟨receivers, hon, hsent⟩
            refine ⟨receivers, ?_, ?_⟩
            · rw [Bridge.egress_of_ne hbridge (Ne.symm hsame)]
              exact hon
            · rw [forwardPacket_of_known hv6 hgroup hne hout, hlookup, Option.getD_some, hsent]
              rfl

/-- So no packet comes back, none is sent twice to an endpoint, and none is lost that has somewhere
to go. -/
theorem delivers_of_on (hplaced : Placed endpoints mt)
    (hports : (endpoints.map Endpoint.port).Nodup) (he : e ∈ endpoints)
    {receivers : List Endpoint}
    (h : On endpoints ((bridge endpoints mt now).egress e.port (station p)) receivers) :
    Delivers endpoints mt e p now receivers := by
  have hport_ne : ∀ ep ∈ endpoints, ep ≠ e → (ep.port : Int) ≠ e.port := by
    intro ep hep hne hport
    exact hne (List.inj_on_of_nodup_map hports hep he (Int.natCast_inj.1 hport))
  have hflooded : (station p).bind (place mt now) = none → ∀ ep ∈ endpoints, ep ≠ e →
      ep ∈ receivers := by
    intro hnone ep hep hne
    rw [h.mem_iff, Bridge.egress_of_none hnone]
    exact ⟨hep, ⟨ep, hep, rfl⟩, hport_ne ep hep hne⟩
  have hstation : isBroadcast p.dest = false → station p = some p.dest := by
    intro hgroup
    simp [station, hgroup]
  refine
    { once := h.once
      subset := fun ep hep => ((h.mem_iff ep).1 hep).1
      no_reflection := ?_
      group := ?_
      no_black_hole := ?_
      learned := ?_
      unknown := ?_ }
  · intro ep hep hport
    have hegress := ((h.mem_iff ep).1 hep).2
    rw [hport] at hegress
    exact Bridge.ingress_notMem_egress hegress
  · intro hgroup
    have hnone : station p = none := if_pos hgroup
    exact hflooded (by rw [hnone]; rfl)
  · intro hgroup hplace hother hnil
    have hbind : (station p).bind (bridge endpoints mt now).place ≠ some (e.port : Int) := by
      rw [hstation hgroup]
      exact hplace
    have hport : ∃ port ∈ (bridge endpoints mt now).ports, port ≠ (e.port : Int) := by
      rcases hother with ⟨other, hmem, hne⟩
      exact ⟨other.port, ⟨other, hmem, rfl⟩, hport_ne other hmem hne⟩
    rcases Bridge.egress_nonempty hport hbind with ⟨port, hegress⟩
    -- the port that the packet goes out on is the port of an endpoint
    rcases (hplaced.bridge now).egress_subset hegress with ⟨ep, hep, rfl⟩
    have hreceiver := (h.mem_iff ep).2 ⟨hep, hegress⟩
    rw [hnil] at hreceiver
    exact List.not_mem_nil hreceiver
  · intro hgroup port hplace hne
    have hbind : (station p).bind (bridge endpoints mt now).place = some port := by
      rw [hstation hgroup]
      exact hplace
    rcases hplaced.bridge now p.dest port hplace with ⟨ep, hep, hport⟩
    rw [Bridge.egress_of_ne hbind hne] at h
    exact ⟨ep, hep, hport, List.perm_singleton.1 (h.perm (on_singleton hports hep hport))⟩
  · intro hgroup hplace
    exact hflooded (by rw [hstation hgroup]; exact hplace)

end Sending

end DataPlane
end EVdeSwitch
