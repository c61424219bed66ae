import Mathlib.Tactic.Abel
import EVdeSwitch.ControlPlane.LookupProgress
import EVdeSwitch.DataPlane.ForwardingEngine
import EVdeSwitch.Lib.Parties

/-!
# ConcurrentForwarding — several workers in the loop body, one access at a time

The body of the worker's inner loop, as `ForwardingEngine` has it, but with the accesses of its two
lookups and its insertion interleaved with those of other workers.  Between two calls a worker
goes on when it likes, at a time of its own.
-/

namespace EVdeSwitch
namespace DataPlane

open EVdeSwitch.ControlPlane
open EVdeSwitch.Io
open EVdeSwitch.Lib
open EVdeSwitch.Utils

/-- A packet that a worker has popped, with the endpoint that `fd_table_lookup` has found. -/
structure Carried where
  ep : Endpoint
  p : Packet
  deriving DecidableEq

/-- Where a worker is in the loop body, with its local variables. -/
inductive ForwardPc
  | idle
  | lookingUpDest (job : Carried)
  | lookingUpSrc (job : Carried) (out_port : Int)
  | learning (job : Carried) (out_port : Int)
  deriving DecidableEq

/-- What has become of a packet, with what was sent. -/
inductive Outcome
  | dropped
  | flooded (sent : List Transmission)
  | forwarded (out_port : Int) (sent : List Transmission)
  deriving DecidableEq

/-- `n` workers and what they share; `done` is the record of the packets that they are done with. -/
structure Forwarders (n : Nat) where
  users : MacTableUsers n
  pcs : Fin n → ForwardPc
  endpoints : List Endpoint
  done : List (Carried × Outcome)

inductive ForwardAction (n : Nat)
  | take (w : Fin n) (job : Carried) (now : Nat)
  | access (w : Fin n)
  | proceed (w : Fin n) (now : Nat) (sendFails : Bool)
  | control (endpoints : List Endpoint)

namespace Forwarders

variable {n : Nat}

def start (n : Nat) : Forwarders n :=
  { users := MacTableUsers.start n SharedMacTable.zeroed
    pcs := fun _ => .idle
    endpoints := []
    done := [] }

/-- The end of the loop body. -/
def finish (s : Forwarders n) (w : Fin n) (job : Carried) (outcome : Outcome) : Forwarders n :=
  { s with
    pcs := Function.update s.pcs w .idle
    done := s.done ++ [(job, outcome)] }

/-- A call of one of the two functions. -/
def call (s : Forwarders n) (w : Fin n) (a : UseAction n) (pc : ForwardPc) :
    Option (Forwarders n) :=
  (s.users.step a).map fun users =>
    { s with users := users, pcs := Function.update s.pcs w pc }

/-- The last part of the loop body; the process ends where `send_packet` ends it. -/
def send (s : Forwarders n) (w : Fin n) (job : Carried) (out_port : Int) (sendFails : Bool) :
    Option (Forwarders n) :=
  if out_port = -1 then
    some (s.finish w job (.flooded (floodPacket s.endpoints job.p job.ep.port)))
  else
    (sendPacket s.endpoints job.p out_port sendFails).toOption.map fun sent =>
      s.finish w job (.forwarded out_port sent)

def lookupCall (mac : Mac) (now : Nat) : LookupCall :=
  { mac := mac
    vlan := VLAN
    now := now }

def insertCall (job : Carried) (now : Nat) : InsertCall :=
  { mac := job.p.src
    vlan := VLAN
    port := job.ep.port
    now := now }

/-- The beginning of the loop body. -/
def take (s : Forwarders n) (w : Fin n) (job : Carried) (now : Nat) : Option (Forwarders n) :=
  match s.pcs w with
  | .idle =>
      if isIPv6 job.p then
        some (s.finish w job .dropped)
      else if isBroadcast job.p.dest then
        some (s.finish w job (.flooded (floodPacket s.endpoints job.p job.ep.port)))
      else
        s.call w (.lookup w (lookupCall job.p.dest now)) (.lookingUpDest job)
  | _ => none

/-- What a worker does when a function has returned. -/
def proceed (s : Forwarders n) (w : Fin n) (now : Nat) (sendFails : Bool) :
    Option (Forwarders n) :=
  match s.pcs w, s.users.lookups w with
  | .lookingUpDest job, .returned _ out_port =>
      if (job.ep.port : Int) = out_port then
        some (s.finish w job .dropped)
      else
        s.call w (.lookup w (lookupCall job.p.src now)) (.lookingUpSrc job out_port)
  | .lookingUpSrc job out_port, .returned _ in_port =>
      if in_port = -1 then
        s.call w (.insert (.call w (insertCall job now))) (.learning job out_port)
      else
        s.send w job out_port sendFails
  | .learning job out_port, _ =>
      if s.users.inserting.pcs w = .idle then s.send w job out_port sendFails else none
  | _, _ => none

def step (s : Forwarders n) : ForwardAction n → Option (Forwarders n)
  | .take w job now => s.take w job now
  | .access w =>
      match s.pcs w with
      | .idle => none
      | .lookingUpDest _ | .lookingUpSrc _ _ =>
          (s.users.step (.lookupStep w)).map fun users => { s with users := users }
      | .learning _ _ =>
          (s.users.step (.insert (.step w))).map fun users => { s with users := users }
  | .proceed w now sendFails => s.proceed w now sendFails
  -- the control plane publishes a new list
  | .control endpoints => some { s with endpoints := endpoints }

end Forwarders

def forwarders (n : Nat) : Machine (Forwarders n) (ForwardAction n) :=
  { step := Forwarders.step }

/-- What has come in: the packets that workers have taken, and the list that the control plane has
published last. -/
structure Inputs where
  taken : List Carried
  published : List Endpoint

namespace Inputs

def none : Inputs :=
  { taken := []
    published := [] }

def take (inputs : Inputs) (job : Carried) : Inputs :=
  { inputs with taken := job :: inputs.taken }

def publish (inputs : Inputs) (endpoints : List Endpoint) : Inputs :=
  { inputs with published := endpoints }

end Inputs

def recordInputs {n : Nat} (_ : Forwarders n) (a : ForwardAction n) (_ : Forwarders n)
    (inputs : Inputs) : Inputs :=
  match a with
  | .take _ job _ => inputs.take job
  | .access _ | .proceed _ _ _ => inputs
  | .control endpoints => inputs.publish endpoints

/-- The packet that a worker is at work on. -/
def ForwardPc.inFlight : ForwardPc → Multiset Carried
  | .idle => 0
  | .lookingUpDest job | .lookingUpSrc job _ | .learning job _ => {job}

/-! ## Where a port comes from -/

/-- The packet gets past the first two tests of the loop body. -/
def Carried.Unicast (job : Carried) : Prop :=
  isIPv6 job.p = false ∧ isBroadcast job.p.dest = false

/-- The worker looks up, or has looked up, the address `k`. -/
def LookupFor (k : MacKey) : LookupPc → Prop
  | .idle => False
  | .walking call _ | .loadLastSeen call _ | .storeValid call _ | .loadPort call _
  | .returned call _ => call.key = k

/-- The port is not that of the packet, and it was stored for the destination. -/
def PortFor (calls : List InsertCall) (job : Carried) (out_port : Int) : Prop :=
  (job.ep.port : Int) ≠ out_port ∧
    (out_port = -1 ∨ SharedMacTable.PortStored calls (job.p.dest, VLAN) out_port)

/-- What the variables of a worker in the loop body say. -/
def ForwardPc.Sound (calls : List InsertCall) (taken : List Carried) (lookup : LookupPc) :
    ForwardPc → Prop
  | .idle => True
  | .lookingUpDest job => job ∈ taken ∧ job.Unicast ∧ LookupFor (job.p.dest, VLAN) lookup
  | .lookingUpSrc job out_port | .learning job out_port =>
      job ∈ taken ∧ job.Unicast ∧ PortFor calls job out_port

/-- A packet whose source is the destination of `job` came in on the port. -/
def Carried.CameFrom (job : Carried) (taken : List Carried) (port : Int) : Prop :=
  ∃ source ∈ taken, source.Unicast ∧ source.p.src = job.p.dest ∧ (source.ep.port : Int) = port

/-- What a packet is to an endpoint that it is sent to. -/
def Carried.to (job : Carried) (ep : Endpoint) : Transmission :=
  ⟨ep.fd_data, job.p.bytes⟩

/-- Where the bytes of a packet go, and why: over the endpoints that are published. -/
def Outcome.Sound (inputs : Inputs) (job : Carried) : Outcome → Prop
  | .dropped =>
      isIPv6 job.p = true ∨ (job.Unicast ∧ job.CameFrom inputs.taken job.ep.port)
  | .flooded sent =>
      isIPv6 job.p = false ∧
        sent = (inputs.published.filter fun ep => ep.port ≠ job.ep.port).map job.to
  | .forwarded out_port sent =>
      job.Unicast ∧ (job.ep.port : Int) ≠ out_port ∧ job.CameFrom inputs.taken out_port ∧
        sent = ((inputs.published.find? fun ep => (ep.port : Int) = out_port).map job.to).toList

theorem PortFor.mono {calls calls' : List InsertCall} {job : Carried} {out_port : Int}
    (h : PortFor calls job out_port) (hsub : calls ⊆ calls') : PortFor calls' job out_port :=
  ⟨h.1, h.2.imp_right fun hstored => hstored.mono hsub⟩

theorem ForwardPc.Sound.mono {calls calls' : List InsertCall} {taken taken' : List Carried}
    {lookup : LookupPc} {pc : ForwardPc} (h : pc.Sound calls taken lookup) (hcalls : calls ⊆ calls')
    (htaken : taken ⊆ taken') : pc.Sound calls' taken' lookup := by
  cases pc with
  | idle => trivial
  | lookingUpDest job => exact ⟨htaken h.1, h.2⟩
  | lookingUpSrc job out_port => exact ⟨htaken h.1, h.2.1, h.2.2.mono hcalls⟩
  | learning job out_port => exact ⟨htaken h.1, h.2.1, h.2.2.mono hcalls⟩

theorem lookupFor_lookupStep {n : Nat} {s t : MacTableUsers n} {w : Fin n} {k : MacKey}
    (h : s.lookupStep w = some t) (hfor : LookupFor k (s.lookups w)) :
    LookupFor k (t.lookups w) := by
  cases hw : s.lookups w with
  | idle | returned call port => simp [MacTableUsers.lookupStep, hw] at h
  | walking call entry =>
      rw [hw] at hfor
      cases entry with
      | none =>
          simp only [MacTableUsers.lookupStep, hw, Option.some.injEq] at h
          rw [← h, MacTableUsers.lookups_moved_self]
          exact hfor
      | some addr =>
          simp only [MacTableUsers.lookupStep, hw] at h
          split at h <;>
          · rw [← Option.some.inj h, MacTableUsers.lookups_moved_self]
            exact hfor
  | loadLastSeen call addr =>
      rw [hw] at hfor
      simp only [MacTableUsers.lookupStep, hw] at h
      split at h <;>
      · rw [← Option.some.inj h, MacTableUsers.lookups_moved_self]
        exact hfor
  | storeValid call addr | loadPort call addr =>
      rw [hw] at hfor
      simp only [MacTableUsers.lookupStep, hw, Option.some.injEq] at h
      rw [← h, MacTableUsers.lookups_moved_self]
      exact hfor

namespace Forwarders

variable {n : Nat} {s t : Forwarders n} {inputs : Inputs} {taken : List Carried}
  {calls : List InsertCall} {w : Fin n}

/-- Every insertion is for the source of a packet, every port that a worker has looked up was stored
for its packet's destination, and every packet is at work or done once. -/
structure Traced (s : Forwarders n) (inputs : Inputs) (calls : List InsertCall) : Prop where
  consistent : MacTableUsers.Consistent (s.users, calls)
  learned : ∀ call ∈ calls, ∃ source ∈ inputs.taken, source.Unicast ∧
    call.key = (source.p.src, VLAN) ∧ call.port = source.ep.port
  pcs : ∀ w, (s.pcs w).Sound calls inputs.taken (s.users.lookups w)
  published : s.endpoints = inputs.published
  once : (inputs.taken : Multiset Carried) =
    (s.done.map Prod.fst : Multiset Carried) + ∑ w, (s.pcs w).inFlight

/-- What a step is done with: nothing, or one packet, and its outcome is sound. -/
def Ends (s t : Forwarders n) (inputs : Inputs) : Prop :=
  t.done = s.done ∨ ∃ job ∈ inputs.taken, ∃ outcome,
    t.done = s.done ++ [(job, outcome)] ∧ outcome.Sound inputs job

/-- A worker moves in the loop body. -/
theorem once_moved {taken' : List Carried} {done : List (Carried × Outcome)} {pc : ForwardPc}
    (hs : (taken : Multiset Carried) =
      (s.done.map Prod.fst : Multiset Carried) + ∑ w, (s.pcs w).inFlight)
    (hmoved : (taken' : Multiset Carried) + (s.done.map Prod.fst : Multiset Carried) +
        (s.pcs w).inFlight =
      taken + (done.map Prod.fst : Multiset Carried) + pc.inFlight) :
    (taken' : Multiset Carried) = (done.map Prod.fst : Multiset Carried) +
      ∑ w', (Function.update s.pcs w pc w').inFlight := by
  have hsum := sum_update_add ForwardPc.inFlight s.pcs w pc
  -- what the worker held is replaced on both sides
  have hadd : (taken' : Multiset Carried) + ((s.done.map Prod.fst : Multiset Carried) +
        (s.pcs w).inFlight) =
      (done.map Prod.fst : Multiset Carried) + ∑ w', (Function.update s.pcs w pc w').inFlight +
        ((s.done.map Prod.fst : Multiset Carried) + (s.pcs w).inFlight) := by
    calc (taken' : Multiset Carried) + ((s.done.map Prod.fst : Multiset Carried) + (s.pcs w).inFlight)
        = taken + (done.map Prod.fst : Multiset Carried) + pc.inFlight := by
          rw [← add_assoc]
          exact hmoved
      _ = (done.map Prod.fst : Multiset Carried) + (s.done.map Prod.fst : Multiset Carried) +
            (∑ w', (s.pcs w').inFlight + pc.inFlight) := by
          rw [hs]
          abel
      _ = (done.map Prod.fst : Multiset Carried) +
            ∑ w', (Function.update s.pcs w pc w').inFlight +
              ((s.done.map Prod.fst : Multiset Carried) + (s.pcs w).inFlight) := by
          rw [← hsum]
          abel
  exact add_right_cancel hadd

/-- The step is one of another worker. -/
def Foreign (w : Fin n) (a : UseAction n) : Prop :=
  MacTableUsers.Begins w a = false ∧ MacTableUsers.Accesses w a = false

/-- A worker begins a call, or makes an access. -/
theorem Traced.users_moved (hs : s.Traced inputs calls) (pc : ForwardPc) {users : MacTableUsers n}
    {a : UseAction n} {inputs' : Inputs} (hstep : s.users.step a = some users)
    (hforeign : ∀ w', w' ≠ w → Foreign w' a)
    (hlearned : ∀ call ∈ recordInserts s.users a users calls, ∃ source ∈ inputs'.taken,
      source.Unicast ∧ call.key = (source.p.src, VLAN) ∧ call.port = source.ep.port)
    (htaken : inputs.taken ⊆ inputs'.taken) (hpublished : inputs.published = inputs'.published)
    (hpc : pc.Sound (recordInserts s.users a users calls) inputs'.taken (users.lookups w))
    (hmoved : (inputs'.taken : Multiset Carried) + (s.pcs w).inFlight =
      inputs.taken + pc.inFlight) :
    Traced { s with users := users, pcs := Function.update s.pcs w pc } inputs'
      (recordInserts s.users a users calls) where
  consistent := by
    have hhistory : ((macTableUsers n).withHistory recordInserts).step (s.users, calls) a =
        some (users, recordInserts s.users a users calls) :=
      Machine.withHistory_step.2 ⟨hstep, rfl⟩
    exact hs.consistent.step hhistory
  learned := hlearned
  pcs := by
    intro w'
    by_cases hw : w' = w
    · subst hw
      simp only [Function.update_self]
      exact hpc
    · have hsame : users.lookups w' = s.users.lookups w' :=
        (MacTableUsers.same_of_ne hstep (hforeign w' hw).1 (hforeign w' hw).2).2
      simp only [Function.update_of_ne hw, hsame]
      exact (hs.pcs w').mono (MacTableUsers.subset_recordInserts _ _ _ _) htaken
  published := hs.published.trans hpublished
  once := by
    refine once_moved hs.once ?_
    rw [add_right_comm, hmoved, add_right_comm]

/-- A worker is done with a packet. -/
theorem Traced.finish (hs : s.Traced inputs calls) {job : Carried} (outcome : Outcome)
    {inputs' : Inputs} (htaken : inputs.taken ⊆ inputs'.taken)
    (hpublished : inputs.published = inputs'.published)
    (hmoved : (inputs'.taken : Multiset Carried) + (s.pcs w).inFlight = inputs.taken + {job}) :
    Traced (s.finish w job outcome) inputs' calls where
  consistent := hs.consistent
  learned := by
    intro call hcall
    rcases hs.learned call hcall with ⟨source, hsource, hrest⟩
    exact ⟨source, htaken hsource, hrest⟩
  pcs := by
    intro w'
    by_cases hw : w' = w
    · subst hw
      simp only [Forwarders.finish, Function.update_self]
      trivial
    · simp only [Forwarders.finish, Function.update_of_ne hw]
      exact (hs.pcs w').mono (List.Subset.refl _) htaken
  published := hs.published.trans hpublished
  once := by
    refine once_moved hs.once ?_
    have hdone : ((s.done ++ [(job, outcome)]).map Prod.fst : Multiset Carried) =
        (s.done.map Prod.fst : Multiset Carried) + {job} := by
      rw [List.map_append, ← Multiset.coe_add]
      rfl
    calc (inputs'.taken : Multiset Carried) + (s.done.map Prod.fst : Multiset Carried) +
            (s.pcs w).inFlight
        = inputs.taken + {job} + (s.done.map Prod.fst : Multiset Carried) := by
          rw [add_right_comm, hmoved]
      _ = inputs.taken + ((s.done ++ [(job, outcome)]).map Prod.fst : Multiset Carried) +
            ForwardPc.idle.inFlight := by
          rw [hdone, ForwardPc.inFlight]
          abel

theorem foreign_lookup {call : LookupCall} {w' : Fin n} (hw : w' ≠ w) :
    Foreign w' (.lookup w call) :=
  ⟨decide_eq_false (Ne.symm hw), rfl⟩

theorem foreign_insert {call : InsertCall} {w' : Fin n} (hw : w' ≠ w) :
    Foreign w' (.insert (.call w call)) :=
  ⟨decide_eq_false (Ne.symm hw), rfl⟩

theorem foreign_lookupStep {w' : Fin n} (hw : w' ≠ w) : Foreign w' (.lookupStep w) :=
  ⟨rfl, decide_eq_false (Ne.symm hw)⟩

theorem foreign_insertStep {w' : Fin n} (hw : w' ≠ w) : Foreign w' (.insert (.step w)) :=
  ⟨rfl, decide_eq_false (Ne.symm hw)⟩

theorem call_eq_some {a : UseAction n} {pc : ForwardPc} :
    s.call w a pc = some t ↔ ∃ users, s.users.step a = some users ∧
      t = { s with users := users, pcs := Function.update s.pcs w pc } := by
  simp [call, eq_comm]

/-- The two ways of sending. -/
theorem send_eq_some {job : Carried} {out_port : Int} {sendFails : Bool} :
    s.send w job out_port sendFails = some t ↔
      (out_port = -1 ∧
        t = s.finish w job (.flooded (floodPacket s.endpoints job.p job.ep.port))) ∨
      (out_port ≠ -1 ∧ ∃ sent, sendPacket s.endpoints job.p out_port sendFails = .ok sent ∧
        t = s.finish w job (.forwarded out_port sent)) := by
  by_cases hport : out_port = -1
  · simp [send, hport, eq_comm]
  · cases hsend : sendPacket s.endpoints job.p out_port sendFails with
    | error e => simp [send, hport, hsend, Except.toOption]
    | ok sent => simp [send, hport, hsend, Except.toOption, eq_comm]

/-- What `send_packet` has sent goes to the first endpoint with the port. -/
theorem sendPacket_sends {endpoints : List Endpoint} {job : Carried} {port : Int}
    {sendFails : Bool} {sent : List Transmission}
    (h : sendPacket endpoints job.p port sendFails = .ok sent) :
    sent = ((endpoints.find? fun ep => (ep.port : Int) = port).map job.to).toList := by
  cases hfind : endpoints.find? fun ep => (ep.port : Int) = port with
  | none =>
      simp only [sendPacket, hfind, Except.ok.injEq] at h
      exact h.symm
  | some ep =>
      cases sendFails with
      | true => simp [sendPacket, hfind, Except.map] at h
      | false =>
          simp only [sendPacket, hfind, Bool.false_eq_true, if_false, Except.map,
            Except.ok.injEq] at h
          exact h.symm

theorem ends_finish {job : Carried} {outcome : Outcome} (hjob : job ∈ inputs.taken)
    (houtcome : outcome.Sound inputs job) : Ends s (s.finish w job outcome) inputs :=
  Or.inr ⟨job, hjob, outcome, rfl, houtcome⟩

/-- A port that was stored for the destination is one where it has been seen. -/
theorem Traced.cameFrom (hs : s.Traced inputs calls) {job : Carried} {out_port : Int}
    (hstored : SharedMacTable.PortStored calls (job.p.dest, VLAN) out_port) :
    job.CameFrom inputs.taken out_port := by
  rcases hstored with ⟨call, hcall, hkey, hport⟩
  rcases hs.learned call hcall with ⟨source, hsource, hunicast, hsourceKey, hsourcePort⟩
  have haddr : source.p.src = job.p.dest := congrArg Prod.fst (hsourceKey.symm.trans hkey)
  exact ⟨source, hsource, hunicast, haddr, hsourcePort.symm.trans hport⟩

theorem Traced.send (hs : s.Traced inputs calls) {job : Carried} {out_port : Int}
    {sendFails : Bool} (hjob : job ∈ inputs.taken) (hunicast : job.Unicast)
    (hport : PortFor calls job out_port) (hmoved : (s.pcs w).inFlight = {job})
    (h : s.send w job out_port sendFails = some t) :
    t.Traced inputs calls ∧ Ends s t inputs := by
  have hflight : (inputs.taken : Multiset Carried) + (s.pcs w).inFlight = inputs.taken + {job} := by
    rw [hmoved]
  rcases send_eq_some.1 h with ⟨_, rfl⟩ | ⟨hknown, sent, hsent, rfl⟩
  · refine ⟨hs.finish _ (List.Subset.refl _) rfl hflight, ends_finish hjob ⟨hunicast.1, ?_⟩⟩
    rw [← hs.published]
    rfl
  · refine ⟨hs.finish _ (List.Subset.refl _) rfl hflight,
      ends_finish hjob ⟨hunicast, hport.1, ?_, ?_⟩⟩
    · exact hs.cameFrom (hport.2.resolve_left hknown)
    · rw [← hs.published]
      exact sendPacket_sends hsent

theorem Traced.take (hs : s.Traced inputs calls) {job : Carried} {now : Nat}
    (h : s.take w job now = some t) :
    t.Traced (inputs.take job) calls ∧ Ends s t (inputs.take job) := by
  have htaken : inputs.taken ⊆ (inputs.take job).taken := List.subset_cons_self job inputs.taken
  have hjob : job ∈ (inputs.take job).taken := List.mem_cons_self
  cases hw : s.pcs w with
  | lookingUpDest job' | lookingUpSrc job' out_port | learning job' out_port =>
      simp [Forwarders.take, hw] at h
  | idle =>
      have hmoved : ((inputs.take job).taken : Multiset Carried) + (s.pcs w).inFlight =
          inputs.taken + {job} := by
        rw [hw, ForwardPc.inFlight, add_zero, Inputs.take, ← Multiset.cons_coe,
          ← Multiset.singleton_add, add_comm]
      simp only [Forwarders.take, hw] at h
      cases hv6 : isIPv6 job.p with
      | true =>
          rw [hv6] at h
          cases h
          exact ⟨hs.finish _ htaken rfl hmoved, ends_finish hjob (Or.inl hv6)⟩
      | false =>
          cases hgroup : isBroadcast job.p.dest with
          | true =>
              rw [hv6, hgroup] at h
              cases h
              refine ⟨hs.finish _ htaken rfl hmoved, ends_finish hjob ⟨hv6, ?_⟩⟩
              rw [Inputs.take, ← hs.published]
              rfl
          | false =>
              rw [hv6, hgroup] at h
              rcases call_eq_some.1 h with ⟨users, hstep, rfl⟩
              have hfor : LookupFor (job.p.dest, VLAN) (users.lookups w) := by
                rcases MacTableUsers.step_lookup.1 hstep with ⟨_, _, rfl⟩
                rw [MacTableUsers.lookups_moved_self]
                exact rfl
              refine ⟨hs.users_moved _ hstep (fun w' hw' => foreign_lookup hw') ?_ htaken rfl
                ⟨hjob, ⟨hv6, hgroup⟩, hfor⟩ hmoved, Or.inl rfl⟩
              intro call hcall
              rcases hs.learned call hcall with ⟨source, hsource, hrest⟩
              exact ⟨source, htaken hsource, hrest⟩

/-- The first lookup has returned. -/
theorem Traced.stored_of_returned (hs : s.Traced inputs calls) {job : Carried} {call : LookupCall}
    {out_port : Int} (hw : s.pcs w = .lookingUpDest job)
    (hreturned : s.users.lookups w = .returned call out_port) :
    out_port = -1 ∨ SharedMacTable.PortStored calls (job.p.dest, VLAN) out_port := by
  have hpc := hs.pcs w
  have hlookup := hs.consistent.lookups w
  rw [hw, hreturned] at hpc
  rw [hreturned] at hlookup
  have hkey : call.key = (job.p.dest, VLAN) := hpc.2.2
  rcases hlookup with hnone | ⟨hstored, _⟩
  · exact Or.inl hnone
  · rw [hkey] at hstored
    exact Or.inr hstored

/-- After the lookup of the destination. -/
theorem Traced.proceed_dest (hs : s.Traced inputs calls) {now : Nat} {sendFails : Bool}
    {job : Carried} (hw : s.pcs w = .lookingUpDest job) (h : s.proceed w now sendFails = some t) :
    (∃ calls', t.Traced inputs calls') ∧ Ends s t inputs := by
  have hpc := hs.pcs w
  have hmoved : (s.pcs w).inFlight = {job} := by rw [hw, ForwardPc.inFlight]
  cases hreturned : s.users.lookups w with
  | returned call out_port =>
      simp only [Forwarders.proceed, hw, hreturned] at h
      have hstored := hs.stored_of_returned hw hreturned
      rw [hw] at hpc
      by_cases hsame : (job.ep.port : Int) = out_port
      · -- the destination is where the packet comes from
        rw [if_pos hsame] at h
        cases h
        have hseen : job.CameFrom inputs.taken job.ep.port := by
          rw [hsame]
          exact hs.cameFrom (hstored.resolve_left (hsame ▸ job.ep.port_ne_neg_one))
        exact ⟨⟨calls, hs.finish _ (List.Subset.refl _) rfl (by rw [hmoved])⟩,
          ends_finish hpc.1 (Or.inr ⟨hpc.2.1, hseen⟩)⟩
      · rw [if_neg hsame] at h
        rcases call_eq_some.1 h with ⟨users, hstep, rfl⟩
        refine ⟨⟨_, hs.users_moved _ hstep (fun w' hw' => foreign_lookup hw') hs.learned
          (List.Subset.refl _) rfl ⟨hpc.1, hpc.2.1, hsame, hstored⟩ ?_⟩, Or.inl rfl⟩
        rw [hmoved, ForwardPc.inFlight]
  | idle | walking call entry | loadLastSeen call addr | storeValid call addr | loadPort call addr =>
      simp [Forwarders.proceed, hw, hreturned] at h

/-- After the lookup of the source. -/
theorem Traced.proceed_src (hs : s.Traced inputs calls) {now : Nat} {sendFails : Bool}
    {job : Carried} {out_port : Int} (hw : s.pcs w = .lookingUpSrc job out_port)
    (h : s.proceed w now sendFails = some t) :
    (∃ calls', t.Traced inputs calls') ∧ Ends s t inputs := by
  have hpc := hs.pcs w
  have hmoved : (s.pcs w).inFlight = {job} := by rw [hw, ForwardPc.inFlight]
  rw [hw] at hpc
  cases hreturned : s.users.lookups w with
  | returned call in_port =>
      simp only [Forwarders.proceed, hw, hreturned] at h
      by_cases hin : in_port = -1
      · rw [if_pos hin] at h
        rcases call_eq_some.1 h with ⟨users, hstep, rfl⟩
        refine ⟨⟨_, hs.users_moved _ hstep (fun w' hw' => foreign_insert hw') ?_
          (List.Subset.refl _) rfl
          ⟨hpc.1, hpc.2.1, hpc.2.2.mono (MacTableUsers.subset_recordInserts _ _ _ _)⟩ ?_⟩,
          Or.inl rfl⟩
        · -- the insertion is for the source of this packet
          intro call hcall
          rcases List.mem_cons.1 hcall with rfl | hold
          · exact ⟨job, hpc.1, hpc.2.1, rfl, rfl⟩
          · exact hs.learned call hold
        · rw [hmoved, ForwardPc.inFlight]
      · rw [if_neg hin] at h
        rcases hs.send hpc.1 hpc.2.1 hpc.2.2 hmoved h with ⟨ht, hends⟩
        exact ⟨⟨calls, ht⟩, hends⟩
  | idle | walking call entry | loadLastSeen call addr | storeValid call addr | loadPort call addr =>
      simp [Forwarders.proceed, hw, hreturned] at h

theorem Traced.proceed (hs : s.Traced inputs calls) {now : Nat} {sendFails : Bool}
    (h : s.proceed w now sendFails = some t) :
    (∃ calls', t.Traced inputs calls') ∧ Ends s t inputs := by
  cases hw : s.pcs w with
  | idle => simp [Forwarders.proceed, hw] at h
  | lookingUpDest job => exact hs.proceed_dest hw h
  | lookingUpSrc job out_port => exact hs.proceed_src hw h
  | learning job out_port =>
      have hpc := hs.pcs w
      have hmoved : (s.pcs w).inFlight = {job} := by rw [hw, ForwardPc.inFlight]
      rw [hw] at hpc
      by_cases hidle : s.users.inserting.pcs w = .idle
      · simp only [Forwarders.proceed, hw, if_pos hidle] at h
        rcases hs.send hpc.1 hpc.2.1 hpc.2.2 hmoved h with ⟨ht, hends⟩
        exact ⟨⟨calls, ht⟩, hends⟩
      · simp [Forwarders.proceed, hw, hidle] at h

/-- An access leaves the worker where it is in the loop body. -/
theorem Traced.access (hs : s.Traced inputs calls)
    (h : s.step (.access w) = some t) : t.Traced inputs calls ∧ t.done = s.done := by
  have hpc := hs.pcs w
  have hstay : Function.update s.pcs w (s.pcs w) = s.pcs := Function.update_eq_self _ _
  cases hw : s.pcs w with
  | idle => simp [Forwarders.step, hw] at h
  | lookingUpDest job =>
      simp only [Forwarders.step, hw, Option.map_eq_some_iff] at h
      rcases h with ⟨users, hstep, rfl⟩
      rw [hw] at hpc
      have hmoved := hs.users_moved (.lookingUpDest job) hstep
        (fun w' hw' => foreign_lookupStep hw') hs.learned (List.Subset.refl _) rfl
        ⟨hpc.1, hpc.2.1, lookupFor_lookupStep hstep hpc.2.2⟩ (by rw [hw])
      rw [← hw, hstay] at hmoved
      exact ⟨hmoved, rfl⟩
  | lookingUpSrc job out_port =>
      simp only [Forwarders.step, hw, Option.map_eq_some_iff] at h
      rcases h with ⟨users, hstep, rfl⟩
      rw [hw] at hpc
      have hmoved := hs.users_moved (.lookingUpSrc job out_port) hstep
        (fun w' hw' => foreign_lookupStep hw') hs.learned (List.Subset.refl _) rfl hpc (by rw [hw])
      rw [← hw, hstay] at hmoved
      exact ⟨hmoved, rfl⟩
  | learning job out_port =>
      simp only [Forwarders.step, hw, Option.map_eq_some_iff] at h
      rcases h with ⟨users, hstep, rfl⟩
      rw [hw] at hpc
      have hmoved := hs.users_moved (.learning job out_port) hstep
        (fun w' hw' => foreign_insertStep hw') hs.learned (List.Subset.refl _) rfl hpc (by rw [hw])
      rw [← hw, hstay] at hmoved
      exact ⟨hmoved, rfl⟩

theorem Traced.step {x y : Forwarders n × Inputs} {a : ForwardAction n}
    (hs : ∃ calls, x.1.Traced x.2 calls)
    (h : ((forwarders n).withHistory recordInputs).step x a = some y) :
    (∃ calls, y.1.Traced y.2 calls) ∧ Ends x.1 y.1 y.2 := by
  rcases x with ⟨s, inputs⟩
  rcases y with ⟨t, inputs'⟩
  rcases hs with ⟨calls, hs⟩
  rcases Machine.withHistory_step.1 h with ⟨hstep, hinputs⟩
  simp only at hstep hinputs
  subst hinputs
  cases a with
  | take w job now =>
      rcases hs.take hstep with ⟨ht, hends⟩
      exact ⟨⟨calls, ht⟩, hends⟩
  | access w =>
      rcases hs.access hstep with ⟨ht, hdone⟩
      exact ⟨⟨calls, ht⟩, Or.inl hdone⟩
  | proceed w now sendFails => exact hs.proceed hstep
  | control endpoints =>
      cases hstep
      exact ⟨⟨calls, hs.consistent, hs.learned, hs.pcs, rfl, hs.once⟩, Or.inl rfl⟩

/-- Two stations that talk to each other; the answer is looked up while the sender of the first
packet is still being learned. -/
def request : Carried :=
  { ep := { port := 1, fd_data := ⟨5, by decide⟩ }
    p := Packet.zeroed.receive stationFrame }

end Forwarders

end DataPlane
end EVdeSwitch
