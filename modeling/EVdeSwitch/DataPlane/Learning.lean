import EVdeSwitch.DataPlane.ForwardingEngine
import EVdeSwitch.Lib.Machine

/-!
# Learning — what the table knows about a station

The workers teach the table where a station is: while a packet is processed, its source may be
inserted with the port of the ingress endpoint.  The file follows one station through the runs of
this machine, packet by packet, and says exactly which packets teach the table the port they came
in on.  Those from a station that has an entry already do not, whatever the entry says.
-/

namespace EVdeSwitch
namespace DataPlane

open EVdeSwitch.ControlPlane
open EVdeSwitch.Io
open EVdeSwitch.Lib
open EVdeSwitch.Utils

/-- One packet on its way through the body of the worker's loop: its ingress endpoint, the list of
endpoints and the time. -/
structure Processing where
  endpoints : List Endpoint
  ep : Endpoint
  p : Packet
  now : Nat
  sendFails : Bool

/-- The table under the packets that the workers process, one at a time. -/
def learning : Machine MacTable Processing :=
  { step := fun mt work =>
      match forwardPacket work.endpoints mt work.ep work.p work.now work.sendFails with
      | .ok (mt, _) => some mt
      | .error _ => none }

/-! ## Sound tables -/

/-- What the packets processed so far guarantee of the table: one entry for a key, and a port in
every entry. -/
structure Sound (mt : MacTable) : Prop where
  keysOnce : mt.KeysOnce
  port_ne : ∀ k entry, mt.entryAt k = some entry → entry.port ≠ -1

theorem sound_create : Sound macTableCreate where
  keysOnce := MacTable.keysOnce_create
  port_ne := by
    intro k entry h
    cases h

section Tables

variable {mt : MacTable} {mac : Mac} {vlan : UInt16} {k : MacKey} {entry : HashEntry} {now : Nat}

theorem Sound.lookup (hs : Sound mt) (mac : Mac) (vlan : UInt16) (now : Nat) :
    Sound (macTableLookup mt mac vlan now).2 where
  keysOnce := MacTable.keysOnce_lookup hs.keysOnce now
  port_ne := by
    intro k entry h
    by_cases hk : k = (mac, vlan)
    · -- a lookup changes the flag of an entry, never its port
      subst hk
      rw [MacTable.entryAt_lookup_self hs.keysOnce, Option.map_eq_some_iff] at h
      rcases h with ⟨old, hold, rfl⟩
      exact hs.port_ne _ old hold
    · rw [MacTable.entryAt_lookup_of_ne hs.keysOnce hk] at h
      exact hs.port_ne k entry h

theorem Sound.insert (hs : Sound mt) (mac : Mac) (vlan : UInt16) (port now : Nat) :
    Sound (macTableInsert mt mac vlan port now) where
  keysOnce := MacTable.keysOnce_insert hs.keysOnce port now
  port_ne := by
    intro k entry h
    by_cases hk : k = (mac, vlan)
    · -- the ports of endpoints are not negative
      subst hk
      rw [MacTable.entryAt_insert_self hs.keysOnce] at h
      cases h
      have hport : (0 : Int) ≤ port := Int.natCast_nonneg port
      simp only
      omega
    · rw [MacTable.entryAt_insert_of_ne hs.keysOnce hk] at h
      exact hs.port_ne k entry h

theorem Sound.learn (hs : Sound mt) (ep : Endpoint) (p : Packet) (now : Nat) :
    Sound (learn mt ep p now) := by
  have hlooked := (hs.lookup p.dest VLAN now).lookup p.src VLAN now
  unfold DataPlane.learn
  -- not looked up, left after the first lookup, inserted, already there
  split_ifs with hquiet hsame hnew
  · exact hs
  · exact hs.lookup p.dest VLAN now
  · exact hlooked.insert p.src VLAN ep.port now
  · exact hlooked

/-- A lookup answers `port` exactly if the entry is alive and says so. -/
theorem Sound.lookup_eq_iff (hs : Sound mt) {port : Nat} :
    (macTableLookup mt mac vlan now).1 = port ↔
      ∃ entry, mt.entryAt (mac, vlan) = some entry ∧ MacTable.Live entry now ∧
        entry.port = port := by
  have hport : (port : Int) ≠ -1 := by
    have hnonneg : (0 : Int) ≤ port := Int.natCast_nonneg port
    omega
  rw [MacTable.lookup_fst hs.keysOnce]
  cases hentry : mt.entryAt (mac, vlan) with
  | none => simp [Ne.symm hport]
  | some entry =>
      by_cases hlive : MacTable.Live entry now
      · simp [hlive]
      · simp [hlive, Ne.symm hport]

/-- A lookup answers -1 exactly if there is no live entry. -/
theorem Sound.lookup_eq_neg_one_iff (hs : Sound mt) :
    (macTableLookup mt mac vlan now).1 = -1 ↔
      ∀ entry, mt.entryAt (mac, vlan) = some entry → ¬MacTable.Live entry now := by
  rw [MacTable.lookup_fst hs.keysOnce]
  cases hentry : mt.entryAt (mac, vlan) with
  | none => simp
  | some entry =>
      have hport := hs.port_ne _ entry hentry
      by_cases hlive : MacTable.Live entry now
      · simp [hlive, hport]
      · simp [hlive]

/-! ## Live entries stay, dead ones stay dead -/

theorem Sound.entryAt_lookup_of_live (hs : Sound mt) (hentry : mt.entryAt k = some entry)
    (hlive : MacTable.Live entry now) (mac : Mac) (vlan : UInt16) :
    (macTableLookup mt mac vlan now).2.entryAt k = some entry := by
  by_cases hk : k = (mac, vlan)
  · subst hk
    -- a lookup in time leaves the flag set
    have hflag : entry.valid = decide (MacTable.Live entry now) := by
      rw [decide_eq_true hlive]
      exact hlive.1
    rw [MacTable.entryAt_lookup_self hs.keysOnce, hentry, Option.map_some, ← hflag]
  · rw [MacTable.entryAt_lookup_of_ne hs.keysOnce hk, hentry]

/-- No packet, from wherever it comes, changes an entry that is alive. -/
theorem Sound.entryAt_learn_of_live (hs : Sound mt) (hentry : mt.entryAt k = some entry)
    (hlive : MacTable.Live entry now) (ep : Endpoint) (p : Packet) :
    (DataPlane.learn mt ep p now).entryAt k = some entry := by
  have hs₁ := hs.lookup p.dest VLAN now
  have hs₂ : Sound (lookSource mt p now).2 := hs₁.lookup p.src VLAN now
  have hentry₁ := hs.entryAt_lookup_of_live hentry hlive p.dest VLAN
  have hentry₂ := hs₁.entryAt_lookup_of_live hentry₁ hlive p.src VLAN
  unfold DataPlane.learn
  split_ifs with hquiet hsame hnew
  · exact hentry
  · exact hentry₁
  · -- the source has no live entry, so it is another station
    have hk : k ≠ (p.src, VLAN) := by
      rintro rfl
      exact hs₁.lookup_eq_neg_one_iff.1 hnew entry hentry₁ hlive
    rw [MacTable.entryAt_insert_of_ne hs₂.keysOnce hk]
    exact hentry₂
  · exact hentry₂

theorem Sound.entryAt_lookup_of_dead (hs : Sound mt) (hentry : mt.entryAt k = some entry)
    (hdead : ¬MacTable.Live entry now) (mac : Mac) (vlan : UInt16) :
    ∃ entry', (macTableLookup mt mac vlan now).2.entryAt k = some entry' ∧
      ¬MacTable.Live entry' now := by
  by_cases hk : k = (mac, vlan)
  · subst hk
    refine ⟨{ entry with valid := decide (MacTable.Live entry now) }, ?_, ?_⟩
    · rw [MacTable.entryAt_lookup_self hs.keysOnce, hentry]
      rfl
    · intro hlive
      exact hdead (of_decide_eq_true hlive.1)
  · exact ⟨entry, by rw [MacTable.entryAt_lookup_of_ne hs.keysOnce hk, hentry], hdead⟩

/-- A packet from a station with a dead entry leaves it with a dead entry. -/
theorem Sound.entryAt_learn_of_dead (hs : Sound mt) {p : Packet}
    (hentry : mt.entryAt (p.src, VLAN) = some entry) (hdead : ¬MacTable.Live entry now)
    (ep : Endpoint) :
    ∃ entry', (DataPlane.learn mt ep p now).entryAt (p.src, VLAN) = some entry' ∧
      ¬MacTable.Live entry' now := by
  have hs₁ := hs.lookup p.dest VLAN now
  have hs₂ : Sound (lookSource mt p now).2 := hs₁.lookup p.src VLAN now
  rcases hs.entryAt_lookup_of_dead hentry hdead p.dest VLAN with ⟨entry₁, hentry₁, hdead₁⟩
  rcases hs₁.entryAt_lookup_of_dead hentry₁ hdead₁ p.src VLAN with ⟨entry₂, hentry₂, hdead₂⟩
  unfold DataPlane.learn
  split_ifs with hquiet hsame hnew
  · exact ⟨entry, hentry, hdead⟩
  · exact ⟨entry₁, hentry₁, hdead₁⟩
  · -- the lookup has retired the entry, and the insertion leaves the flag cleared
    refine ⟨_, MacTable.entryAt_insert_self hs₂.keysOnce _ _, ?_⟩
    intro hlive
    have hlooked : (lookSource mt p now).2.entryAt (p.src, VLAN) = some entry₂ := hentry₂
    have hflag : entry₂.valid = true := by
      simpa [hlooked] using hlive.1
    rw [MacTable.entryAt_lookup_self hs₁.keysOnce, hentry₁] at hentry₂
    cases hentry₂
    exact hdead₁ (of_decide_eq_true hflag)
  · exact ⟨entry₂, hentry₂, hdead₂⟩

/-- The source of a packet is inserted if it has no entry, the packet is addressed to one station,
and that station is not known to be on the ingress port. -/
theorem Sound.entryAt_learn_of_none (hs : Sound mt) {p : Packet}
    (hnone : mt.entryAt (p.src, VLAN) = none) (hv6 : isIPv6 p = false) (ep : Endpoint)
    (now : Nat) :
    (DataPlane.learn mt ep p now).entryAt (p.src, VLAN) =
      if isBroadcast p.dest = true ∨ (ep.port : Int) = (macTableLookup mt p.dest VLAN now).1 then
        none
      else
        some
          { mac := p.src
            vlan := VLAN
            port := ep.port
            last_seen := now
            valid := true } := by
  have hs₁ := hs.lookup p.dest VLAN now
  have hs₂ : Sound (lookSource mt p now).2 := hs₁.lookup p.src VLAN now
  have hnone₁ : (macTableLookup mt p.dest VLAN now).2.entryAt (p.src, VLAN) = none := by
    by_cases hk : (p.src, VLAN) = (p.dest, VLAN)
    · rw [hk] at hnone ⊢
      rw [MacTable.entryAt_lookup_self hs.keysOnce, hnone]
      rfl
    · rw [MacTable.entryAt_lookup_of_ne hs.keysOnce hk, hnone]
  have hnone₂ : (lookSource mt p now).2.entryAt (p.src, VLAN) = none := by
    rw [lookSource, MacTable.entryAt_lookup_self hs₁.keysOnce, hnone₁]
    rfl
  have hnew : (lookSource mt p now).1 = -1 := by
    refine hs₁.lookup_eq_neg_one_iff.2 ?_
    intro entry hentry
    rw [hnone₁] at hentry
    cases hentry
  unfold DataPlane.learn
  by_cases hgroup : isBroadcast p.dest = true
  · -- a group address is not looked up, and nothing is learned
    simp [hgroup, hnone]
  · by_cases hsame : (ep.port : Int) = (macTableLookup mt p.dest VLAN now).1
    · -- the packet stays on its port, and the loop body ends before the insertion
      simp only [hv6, hgroup, hsame, Bool.false_eq_true, or_self, or_true, if_true, if_false]
      exact hnone₁
    · simp only [hv6, hgroup, hsame, hnew, Bool.false_eq_true, or_self, if_true, if_false]
      rw [MacTable.entryAt_insert_self hs₂.keysOnce, hnone₂]
      rfl

/-! ## Knowing a station -/

/-- The table has a flagged entry with this port for the key, refreshed at `t` or later. -/
def Knows (mt : MacTable) (k : MacKey) (port t : Nat) : Prop :=
  ∃ entry, mt.entryAt k = some entry ∧ entry.valid = true ∧ entry.port = port ∧
    t ≤ entry.last_seen

/-- The lookups of a whole lifetime answer `port` exactly if the table knows it. -/
theorem Sound.lookups_eq_iff (hs : Sound mt) {port t : Nat} :
    (∀ t', t ≤ t' → t' ≤ t + ENTRY_TTL → (macTableLookup mt mac vlan t').1 = port) ↔
      Knows mt (mac, vlan) port t := by
  constructor
  · intro h
    -- the last lookup in time is the one that matters
    have hlast := h (t + ENTRY_TTL) (Nat.le_add_right t ENTRY_TTL) le_rfl
    rcases hs.lookup_eq_iff.1 hlast with ⟨entry, hentry, ⟨hvalid, hage⟩, hport⟩
    exact ⟨entry, hentry, hvalid, hport, by omega⟩
  · rintro ⟨entry, hentry, hvalid, hport, ht⟩ t' _ ht'
    exact hs.lookup_eq_iff.2 ⟨entry, hentry, ⟨hvalid, by omega⟩, hport⟩

/-- A station that is known stays known as long as the clock stays within the lifetime. -/
theorem Knows.learn (hs : Sound mt) {port t : Nat} (hk : Knows mt k port t)
    (hnow : now ≤ t + ENTRY_TTL) (ep : Endpoint) (p : Packet) :
    Knows (DataPlane.learn mt ep p now) k port t := by
  rcases hk with ⟨entry, hentry, hvalid, hport, ht⟩
  have hlive : MacTable.Live entry now := ⟨hvalid, by omega⟩
  exact ⟨entry, hs.entryAt_learn_of_live hentry hlive ep p, hvalid, hport, ht⟩

/-- The packets after which the table knows the station they come from: it was refreshed at this
very time, or there was no entry for it, and the packet is addressed to one station that is not
known to be on the same port. -/
def Teaches (mt : MacTable) (ep : Endpoint) (p : Packet) (now : Nat) : Prop :=
  Knows mt (p.src, VLAN) ep.port now ∨
    (mt.entryAt (p.src, VLAN) = none ∧ isBroadcast p.dest = false ∧
      ∀ entry, mt.entryAt (p.dest, VLAN) = some entry → MacTable.Live entry now →
        entry.port ≠ ep.port)

theorem Sound.knows_learn_iff (hs : Sound mt) {p : Packet} (hv6 : isIPv6 p = false)
    (ep : Endpoint) :
    Knows (DataPlane.learn mt ep p now) (p.src, VLAN) ep.port now ↔ Teaches mt ep p now := by
  cases hentry : mt.entryAt (p.src, VLAN) with
  -- a new station: it is learned unless the loop body ends before the insertion
  | none =>
      have hsame : (ep.port : Int) = (macTableLookup mt p.dest VLAN now).1 ↔
          ∃ entry, mt.entryAt (p.dest, VLAN) = some entry ∧ MacTable.Live entry now ∧
            entry.port = ep.port := by
        rw [eq_comm]
        exact hs.lookup_eq_iff
      have hlearn := hs.entryAt_learn_of_none hentry hv6 ep now
      by_cases hcond : isBroadcast p.dest = true ∨
          (ep.port : Int) = (macTableLookup mt p.dest VLAN now).1
      · -- the source is not inserted
        rw [if_pos hcond] at hlearn
        constructor
        · rintro ⟨entry, h, _⟩
          rw [hlearn] at h
          cases h
        · rintro (⟨entry, h, _⟩ | ⟨_, hgroup, hother⟩)
          · rw [hentry] at h
            cases h
          · rcases hcond with hcond | hcond
            · rw [hgroup] at hcond
              cases hcond
            · rcases hsame.1 hcond with ⟨entry, hdest, hlive, hport⟩
              exact absurd hport (hother entry hdest hlive)
      · -- the source is inserted, with the port of the endpoint
        rw [if_neg hcond] at hlearn
        rw [not_or, Bool.not_eq_true] at hcond
        constructor
        · intro _
          refine Or.inr ⟨hentry, hcond.1, ?_⟩
          intro entry hdest hlive hport
          exact hcond.2 (hsame.2 ⟨entry, hdest, hlive, hport⟩)
        · intro _
          exact ⟨_, hlearn, rfl, rfl, le_rfl⟩
  | some entry =>
      by_cases hlive : MacTable.Live entry now
      · -- a live entry is neither moved nor refreshed
        have hlearn := hs.entryAt_learn_of_live hentry hlive ep p
        simp [Knows, Teaches, hlearn, hentry]
      · -- a dead entry is not brought back
        rcases hs.entryAt_learn_of_dead hentry hlive ep with ⟨entry', hlearn, hdead⟩
        constructor
        · rintro ⟨_, h, hvalid, _, hnow⟩
          rw [hlearn] at h
          cases h
          exact absurd ⟨hvalid, by omega⟩ hdead
        · rintro (⟨_, h, hvalid, _, hnow⟩ | ⟨hnone, _⟩)
          · rw [hentry] at h
            cases h
            exact absurd ⟨hvalid, by omega⟩ hlive
          · rw [hentry] at hnone
            cases hnone

end Tables

/-! ## Runs -/

section Runs

variable {mt mt' : MacTable}

theorem learning_step {work : Processing} (h : learning.step mt work = some mt') :
    mt' = learn mt work.ep work.p work.now := by
  cases hforward : forwardPacket work.endpoints mt work.ep work.p work.now work.sendFails with
  | error e => simp [learning, hforward] at h
  | ok result =>
      rcases result with ⟨mt₁, sent⟩
      simp only [learning, hforward, Option.some.injEq] at h
      rw [← h]
      exact (forwardPacket_ok hforward).1

theorem Sound.step (hs : Sound mt) {work : Processing} (h : learning.step mt work = some mt') :
    Sound mt' := by
  rw [learning_step h]
  exact hs.learn work.ep work.p work.now

theorem sound_run {works : List Processing} (h : learning.run macTableCreate works = some mt) :
    Sound mt :=
  learning.invariant_run Sound (fun _ _ _ hs hstep => hs.step hstep) sound_create h

/-- A station that is known stays known through a run, for a lifetime. -/
theorem Knows.run {k : MacKey} {port t : Nat} {works : List Processing} (hs : Sound mt)
    (hk : Knows mt k port t) (hnow : ∀ work ∈ works, work.now ≤ t + ENTRY_TTL)
    (h : learning.run mt works = some mt') : Sound mt' ∧ Knows mt' k port t := by
  induction works generalizing mt with
  | nil =>
      cases h
      exact ⟨hs, hk⟩
  | cons work works ih =>
      rcases learning.run_cons_eq_some.1 h with ⟨mt₁, hstep, hrest⟩
      have hk₁ : Knows mt₁ k port t := by
        rw [learning_step hstep]
        exact hk.learn hs (hnow work List.mem_cons_self) work.ep work.p
      -- the entry is alive all along, so no packet has changed it
      exact ih (hs.step hstep) hk₁ (fun work' hmem => hnow work' (List.mem_cons_of_mem _ hmem)) hrest

end Runs

/-- After a packet from a station, every lookup of the station in the next lifetime gives the port
of the packet, until a packet of the station comes in on another port, exactly if the packet is one
that teaches the table. -/
theorem learned_iff_teaches (before : List Processing) (work : Processing) (mt mt' : MacTable)
    (hbefore : learning.run macTableCreate before = some mt) (hv6 : isIPv6 work.p = false)
    (hstep : learning.step mt work = some mt') :
    (∀ (after : List Processing) (mt'' : MacTable) (t' : Nat),
      learning.run mt' after = some mt'' →
      (∀ work' ∈ after, work'.p.src = work.p.src → work'.ep.port = work.ep.port) →
      (work.now :: (after.map Processing.now ++ [t'])).Pairwise (· ≤ ·) →
      t' ≤ work.now + ENTRY_TTL →
      (macTableLookup mt'' work.p.src VLAN t').1 = work.ep.port) ↔
    Teaches mt work.ep work.p work.now := by
  have hs : Sound mt := sound_run hbefore
  rw [← hs.knows_learn_iff hv6 work.ep, ← learning_step hstep,
    ← (hs.step hstep).lookups_eq_iff]
  constructor
  · -- the lookups right after the packet
    intro h t' ht ht'
    exact h [] mt' t' rfl (by simp) (by simpa using ht) ht'
  · intro h after mt'' t' hrun _ hclock ht'
    have hknows := (hs.step hstep).lookups_eq_iff.1 h
    -- the clock has not passed `t'` in any of the packets in between
    have hnow : ∀ work' ∈ after, work'.now ≤ work.now + ENTRY_TTL := by
      intro work' hmem
      have htail := (List.pairwise_cons.1 hclock).2
      have hle := (List.pairwise_append.1 htail).2.2 work'.now (List.mem_map_of_mem hmem) t'
        (List.mem_singleton.2 rfl)
      exact le_trans hle ht'
    rcases hknows.run (hs.step hstep) hnow hrun with ⟨hs'', hknows''⟩
    have ht : work.now ≤ t' := (List.pairwise_cons.1 hclock).1 t' (by simp)
    exact hs''.lookups_eq_iff.2 hknows'' t' ht ht'

/-- The frame as it comes in on a port. -/
def stationProcessing (port now : Nat) : Processing :=
  { endpoints := []
    ep := { port := port, fd_data := 7 }
    p := Packet.zeroed.receive stationFrame
    now := now
    sendFails := false }

/-- The first frame of a station teaches the table where it is. -/
theorem learned_iff_teaches_first_frame :
    ∃ mt', learning.step macTableCreate (stationProcessing 1 1000) = some mt' ∧
      (macTableLookup mt' (stationProcessing 1 1000).p.src VLAN 1300).1 = 1 := by
  refine ⟨learn macTableCreate ⟨1, 7⟩ (Packet.zeroed.receive stationFrame) 1000, rfl, ?_⟩
  have hteaches : Teaches macTableCreate (stationProcessing 1 1000).ep (stationProcessing 1 1000).p
      (stationProcessing 1 1000).now := by
    refine Or.inr ⟨rfl, by decide, ?_⟩
    intro entry h
    cases h
  exact (learned_iff_teaches [] (stationProcessing 1 1000) macTableCreate _ rfl (by decide)
    rfl).2 hteaches [] _ 1300 rfl (by simp) (by decide) (by decide)

/-- The same frame from another port: the table keeps the old one. -/
theorem moved_station_not_learned :
    ∃ mt mt', learning.run macTableCreate [stationProcessing 1 1000] = some mt ∧
      isIPv6 (stationProcessing 2 1001).p = false ∧
      learning.step mt (stationProcessing 2 1001) = some mt' ∧
      (macTableLookup mt' (stationProcessing 2 1001).p.src VLAN 1001).1 ≠
        (stationProcessing 2 1001).ep.port := by
  refine ⟨learn macTableCreate ⟨1, 7⟩ (Packet.zeroed.receive stationFrame) 1000,
    learn (learn macTableCreate ⟨1, 7⟩ (Packet.zeroed.receive stationFrame) 1000)
      ⟨2, 7⟩ (Packet.zeroed.receive stationFrame) 1001, rfl, by decide, rfl, ?_⟩
  decide

end DataPlane
end EVdeSwitch
