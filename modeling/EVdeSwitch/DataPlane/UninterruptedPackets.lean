import EVdeSwitch.ControlPlane.UninterruptedCalls
import EVdeSwitch.DataPlane.ConcurrentForwarding

/-!
# UninterruptedPackets — one packet after the other

A worker that nobody interrupts between `fd_table_lookup` and the end of the loop body does with a
packet what `forwardPacket` does, which takes the whole loop body as one step.
-/

namespace EVdeSwitch
namespace DataPlane

open EVdeSwitch.ControlPlane
open EVdeSwitch.Io
open EVdeSwitch.Lib

/-- Which of the two functions a worker may be in. -/
def ForwardPc.Agrees (lookup : LookupPc) (insert : InsertPc) : ForwardPc → Prop
  | .idle => lookup.Busy = false ∧ insert = .idle
  | .lookingUpDest _ | .lookingUpSrc _ _ => insert = .idle
  | .learning _ _ => lookup.Busy = false

/-- What was sent. -/
def Outcome.sent : Outcome → List Transmission
  | .dropped => []
  | .flooded sent | .forwarded _ sent => sent

namespace Forwarders

variable {n : Nat} {s t : Forwarders n} {w : Fin n}

/-- Every worker is in the function that it has called. -/
def InFunction (s : Forwarders n) : Prop :=
  ∀ w, (s.pcs w).Agrees (s.users.lookups w) (s.users.inserting.pcs w)

theorem InFunction.users_moved (hs : s.InFunction) {users : MacTableUsers n} {a : UseAction n}
    {pc : ForwardPc} (hstep : s.users.step a = some users)
    (hforeign : ∀ w', w' ≠ w → Foreign w' a)
    (hpc : pc.Agrees (users.lookups w) (users.inserting.pcs w)) :
    InFunction { s with users := users, pcs := Function.update s.pcs w pc } := by
  intro w'
  by_cases hw : w' = w
  · subst hw
    simp only [Function.update_self]
    exact hpc
  · have hsame := MacTableUsers.same_of_ne hstep (hforeign w' hw).1 (hforeign w' hw).2
    simp only [Function.update_of_ne hw, hsame.1, hsame.2]
    exact hs w'

theorem InFunction.finish (hs : s.InFunction) {job : Carried} {outcome : Outcome}
    (hbusy : (s.users.lookups w).Busy = false) (hidle : s.users.inserting.pcs w = .idle) :
    InFunction (s.finish w job outcome) := by
  intro w'
  by_cases hw : w' = w
  · subst hw
    simp only [Forwarders.finish, Function.update_self]
    exact ⟨hbusy, hidle⟩
  · simp only [Forwarders.finish, Function.update_of_ne hw]
    exact hs w'

theorem InFunction.send (hs : s.InFunction) {job : Carried} {out_port : Int} {sendFails : Bool}
    (hbusy : (s.users.lookups w).Busy = false) (hidle : s.users.inserting.pcs w = .idle)
    (h : s.send w job out_port sendFails = some t) : t.InFunction := by
  rcases send_eq_some.1 h with ⟨_, rfl⟩ | ⟨_, sent, _, rfl⟩
  · exact hs.finish hbusy hidle
  · exact hs.finish hbusy hidle

theorem InFunction.call_lookup (hs : s.InFunction) {call : LookupCall} {pc : ForwardPc}
    (h : s.call w (.lookup w call) pc = some t) (hpc : ∀ lookup, pc.Agrees lookup .idle) :
    t.InFunction := by
  rcases call_eq_some.1 h with ⟨users, hstep, rfl⟩
  refine hs.users_moved hstep (fun w' hw' => foreign_lookup hw') ?_
  rcases MacTableUsers.step_lookup.1 hstep with ⟨_, hidle, rfl⟩
  have hstay : (s.users.moved w s.users.table
      (.walking call (s.users.table.buckets call.idx))).inserting.pcs w = .idle := hidle
  rw [hstay]
  exact hpc _

theorem InFunction.step {a : ForwardAction n} (hs : s.InFunction)
    (h : (forwarders n).step s a = some t) : t.InFunction := by
  cases a with
  | control endpoints =>
      cases h
      exact hs
  | take w job now =>
      have hw := hs w
      simp only [forwarders, Forwarders.step, Forwarders.take] at h
      cases hpc : s.pcs w with
      | lookingUpDest job' | lookingUpSrc job' out_port | learning job' out_port =>
          simp [hpc] at h
      | idle =>
          rw [hpc] at hw
          simp only [hpc] at h
          split at h
          · cases h
            exact hs.finish hw.1 hw.2
          · split at h
            · cases h
              exact hs.finish hw.1 hw.2
            · exact hs.call_lookup h fun _ => rfl
  | access w =>
      have hw := hs w
      have hstay : Function.update s.pcs w (s.pcs w) = s.pcs := Function.update_eq_self _ _
      simp only [forwarders, Forwarders.step] at h
      cases hpc : s.pcs w with
      | idle => simp [hpc] at h
      | lookingUpDest job | lookingUpSrc job out_port =>
          simp only [hpc, Option.map_eq_some_iff] at h
          rcases h with ⟨users, hstep, rfl⟩
          rw [← hstay]
          refine hs.users_moved hstep (fun w' hw' => foreign_lookupStep hw') ?_
          rcases MacTableUsers.lookupStep_moved hstep with ⟨table, pc, rfl⟩
          rw [hpc] at hw ⊢
          exact hw
      | learning job out_port =>
          simp only [hpc, Option.map_eq_some_iff] at h
          rcases h with ⟨users, hstep, rfl⟩
          rw [← hstay]
          refine hs.users_moved hstep (fun w' hw' => foreign_insertStep hw') ?_
          rcases MacTableUsers.step_insert.1 hstep with ⟨_, inserting, _, rfl⟩
          rw [hpc] at hw ⊢
          exact hw
  | proceed w now sendFails =>
      have hw := hs w
      simp only [forwarders, Forwarders.step, Forwarders.proceed] at h
      cases hpc : s.pcs w with
      | idle => simp [hpc] at h
      | lookingUpDest job =>
          rw [hpc] at hw
          cases hreturned : s.users.lookups w with
          | returned call out_port =>
              have hbusy : (s.users.lookups w).Busy = false := by
                rw [hreturned]
                rfl
              simp only [hpc, hreturned] at h
              split at h
              · cases h
                exact hs.finish hbusy hw
              · exact hs.call_lookup h fun _ => rfl
          | idle => simp [hpc, hreturned] at h
          | walking call entry => simp [hpc, hreturned] at h
          | loadLastSeen call addr => simp [hpc, hreturned] at h
          | storeValid call addr => simp [hpc, hreturned] at h
          | loadPort call addr => simp [hpc, hreturned] at h
      | lookingUpSrc job out_port =>
          rw [hpc] at hw
          cases hreturned : s.users.lookups w with
          | returned call in_port =>
              have hbusy : (s.users.lookups w).Busy = false := by
                rw [hreturned]
                rfl
              simp only [hpc, hreturned] at h
              split at h
              · rcases call_eq_some.1 h with ⟨users, hstep, rfl⟩
                refine hs.users_moved hstep (fun w' hw' => foreign_insert hw') ?_
                rcases MacTableUsers.step_insert.1 hstep with ⟨_, inserting, _, rfl⟩
                exact hbusy
              · exact hs.send hbusy hw h
          | idle => simp [hpc, hreturned] at h
          | walking call entry => simp [hpc, hreturned] at h
          | loadLastSeen call addr => simp [hpc, hreturned] at h
          | storeValid call addr => simp [hpc, hreturned] at h
          | loadPort call addr => simp [hpc, hreturned] at h
      | learning job out_port =>
          rw [hpc] at hw
          by_cases hidle : s.users.inserting.pcs w = .idle
          · simp only [hpc, if_pos hidle] at h
            exact hs.send hw hidle h
          · simp [hpc, hidle] at h

/-! ## A packet that is not interrupted -/

/-- The steps of a worker that is at work on a packet: at one time, and no `send` fails. -/
def GoesOn (w : Fin n) (now : Nat) : ForwardAction n → Prop
  | .access w' => w' = w
  | .proceed w' now' sendFails => w' = w ∧ now' = now ∧ sendFails = false
  | .take _ _ _ | .control _ => False

/-- A worker that can leave a function has no access to make in it. -/
theorem access_eq_none_of_proceed {now : Nat} {sendFails : Bool}
    (h : s.proceed w now sendFails = some t) : s.step (.access w) = none := by
  cases hw : s.pcs w with
  | idle => simp only [Forwarders.step, hw]
  | lookingUpDest job | lookingUpSrc job out_port =>
      cases hlookup : s.users.lookups w with
      | returned call port =>
          simp [Forwarders.step, hw, MacTableUsers.step, MacTableUsers.lookupStep, hlookup]
      | idle | walking call entry | loadLastSeen call addr | storeValid call addr
        | loadPort call addr => simp [Forwarders.proceed, hw, hlookup] at h
  | learning job out_port =>
      have hidle : s.users.inserting.pcs w = .idle := by
        by_contra hbusy
        simp [Forwarders.proceed, hw, hbusy] at h
      cases hstep : s.users.step (.insert (.step w)) with
      | none => simp only [Forwarders.step, hw, hstep, Option.map_none]
      | some users =>
          rcases MacTableUsers.step_insert.1 hstep with ⟨_, inserting, hinsert, _⟩
          simp [Inserting.step, hidle] at hinsert

theorem oneAtATime_goesOn (w : Fin n) (now : Nat) : (forwarders n).OneAtATime (GoesOn w now) := by
  intro s a b t u ha hb hat hbu
  cases a with
  | take w' job' now' | control endpoints => exact False.elim ha
  | access w' =>
      cases b with
      | take w' job' now' | control endpoints => exact False.elim hb
      | access w'' => rw [show w' = w from ha, show w'' = w from hb]
      | proceed w'' now' sendFails =>
          have hnone := access_eq_none_of_proceed hbu
          rw [hb.1, ← show w' = w from ha] at hnone
          exact absurd (hnone.symm.trans hat) nofun
  | proceed w' now' sendFails =>
      cases b with
      | take w' job' now' | control endpoints => exact False.elim hb
      | access w'' =>
          have hnone := access_eq_none_of_proceed hat
          rw [ha.1, ← show w'' = w from hb] at hnone
          exact absurd (hnone.symm.trans hbu) nofun
      | proceed w'' now'' sendFails' =>
          rcases ha with ⟨rfl, rfl, rfl⟩
          rcases hb with ⟨rfl, rfl, rfl⟩
          rfl

variable {job : Carried} {out_port : Int} {sent : List Transmission} {call : LookupCall}

end Forwarders

end DataPlane
end EVdeSwitch
