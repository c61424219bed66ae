import EVdeSwitch.ControlPlane.ConcurrentLookups

/-!
# LookupProgress — what a lookup is sure of among other workers

Both functions of `src/control_plane/hash_table.c` are wait-free: every link leads to an older
record, so new entries never lie ahead of a worker that walks a chain.  And what was in the chain
when a lookup began, the lookup comes by, even if the entry has been cut off by a racing head.
-/

namespace EVdeSwitch
namespace ControlPlane

open EVdeSwitch.Lib
open SharedMacTable

namespace MacTableUsers

variable {n : Nat} {s t : MacTableUsers n} {w : Fin n} {calls : List InsertCall}

/-! ## No worker keeps another from answering -/

/-- The step begins a call of the worker. -/
def Begins (w : Fin n) : UseAction n → Bool
  | .insert (.call w' _) | .lookup w' _ => w' = w
  | .insert (.step _) | .lookupStep _ => false

/-- The step is an access of the worker. -/
def Accesses (w : Fin n) : UseAction n → Bool
  | .insert (.step w') | .lookupStep w' => w' = w
  | .insert (.call _ _) | .lookup _ _ => false

/-- The worker is in one of the two functions. -/
def AtWork (s : MacTableUsers n) (w : Fin n) : Prop :=
  (s.lookups w).Busy = true ∨ s.inserting.pcs w ≠ .idle

end MacTableUsers

/-- How many accesses `mac_table_insert` has left, at most. -/
def InsertPc.left : InsertPc → Nat
  | .idle => 0
  | .walking _ none => 3
  | .walking _ (some addr) => addr + 4
  | .storePort _ _ | .storeHead _ _ => 2
  | .storeLastSeen _ _ | .addSize _ => 1

/-- How many accesses `mac_table_lookup` has left, at most. -/
def LookupPc.left : LookupPc → Nat
  | .idle | .returned _ _ => 0
  | .walking _ none => 1
  | .walking _ (some addr) => addr + 3
  | .loadLastSeen _ _ => 2
  | .storeValid _ _ | .loadPort _ _ => 1

theorem LookupPc.left_eq_zero {pc : LookupPc} : pc.left = 0 ↔ pc.Busy = false := by
  cases pc with
  | walking call entry => cases entry <;> simp [left, Busy]
  | _ => simp [left, Busy]

section Left

variable {table : SharedMacTable} {calls : List InsertCall}

/-- Along a link there is less left, as it leads to an older record. -/
theorem InsertPc.left_next (h : table.Intact calls) {idx : Fin HASH_TABLE_SIZE} {addr : Addr}
    (haddr : table.InBucket idx addr) (call : InsertCall) :
    (InsertPc.walking call (table.next addr)).left < addr + 4 := by
  cases hnext : table.next addr with
  | none =>
      exact Nat.lt_add_left addr (show 3 < 4 by decide)
  | some addr' =>
      have hless : addr' < addr := (h.links idx addr haddr addr' hnext).2
      exact Nat.add_lt_add_right hless 4

theorem LookupPc.left_next (h : table.Intact calls) {idx : Fin HASH_TABLE_SIZE} {addr : Addr}
    (haddr : table.InBucket idx addr) (call : LookupCall) :
    (LookupPc.walking call (table.next addr)).left < addr + 3 := by
  cases hnext : table.next addr with
  | none =>
      exact Nat.lt_add_left addr (show 1 < 3 by decide)
  | some addr' =>
      have hless : addr' < addr := (h.links idx addr haddr addr' hnext).2
      exact Nat.add_lt_add_right hless 3

end Left

namespace MacTableUsers

variable {n : Nat} {s t : MacTableUsers n} {w : Fin n} {calls : List InsertCall}

/-- How many accesses a worker has left in the functions that it is in, at most. -/
def left (s : MacTableUsers n) (w : Fin n) : Nat :=
  (s.inserting.pcs w).left + (s.lookups w).left

theorem left_insert_step (hs : Consistent (s, calls))
    (h : s.step (.insert (.step w)) = some t) : t.left w + 1 ≤ s.left w := by
  rcases step_insert.1 h with ⟨_, inserting, hstep, rfl⟩
  have hless : (inserting.pcs w).left < (s.inserting.pcs w).left := by
    have hsound := hs.inserts w
    cases hw : s.inserting.pcs w with
    | idle => simp [Inserting.step, hw] at hstep
    | walking call entry =>
        rw [hw] at hsound
        cases entry with
        | none =>
            simp only [Inserting.step, hw, Option.some.injEq] at hstep
            rw [← hstep, Inserting.pcs_moved_self]
            exact Nat.lt_succ_self 2
        | some addr =>
            by_cases hmatch : (s.inserting.table.entries addr).Matches call.mac call.vlan = true
            · simp only [Inserting.step, hw, hmatch, if_true, Option.some.injEq] at hstep
              rw [← hstep, Inserting.pcs_moved_self]
              exact Nat.lt_add_left addr (show 2 < 4 by decide)
            · simp only [Inserting.step, hw, hmatch, Bool.false_eq_true, if_false,
                Option.some.injEq] at hstep
              rw [← hstep, Inserting.pcs_moved_self]
              exact InsertPc.left_next hs.table (hsound.2 addr rfl) call
    | storePort call addr =>
        simp only [Inserting.step, hw, Option.some.injEq] at hstep
        rw [← hstep, Inserting.pcs_moved_self]
        exact Nat.lt_succ_self 1
    | storeLastSeen call addr =>
        simp only [Inserting.step, hw, Option.some.injEq] at hstep
        rw [← hstep, Inserting.pcs_moved_self]
        exact Nat.zero_lt_one
    | storeHead call addr =>
        simp only [Inserting.step, hw, Option.some.injEq] at hstep
        rw [← hstep, Inserting.pcs_moved_self]
        exact Nat.lt_succ_self 1
    | addSize call =>
        simp only [Inserting.step, hw, Option.some.injEq] at hstep
        rw [← hstep, Inserting.pcs_moved_self]
        exact Nat.zero_lt_one
  simp only [left]
  omega

theorem left_lookupStep (hs : Consistent (s, calls)) (h : s.lookupStep w = some t) :
    t.left w + 1 ≤ s.left w := by
  have hless : t.inserting.pcs w = s.inserting.pcs w ∧ (t.lookups w).left < (s.lookups w).left := by
    have hsound := hs.lookups w
    cases hw : s.lookups w with
    | idle => simp [lookupStep, hw] at h
    | returned call port => simp [lookupStep, hw] at h
    | walking call entry =>
        rw [hw] at hsound
        cases entry with
        | none =>
            simp only [lookupStep, hw, Option.some.injEq] at h
            rw [← h, lookups_moved_self]
            exact ⟨rfl, Nat.zero_lt_one⟩
        | some addr =>
            by_cases hmatch : ((s.table.entries addr).Matches call.mac call.vlan &&
                (s.table.entries addr).valid) = true
            · simp only [lookupStep, hw, hmatch, if_true, Option.some.injEq] at h
              rw [← h, lookups_moved_self]
              refine ⟨rfl, ?_⟩
              exact Nat.lt_add_left addr (show 2 < 3 by decide)
            · simp only [lookupStep, hw, hmatch, Bool.false_eq_true, if_false,
                Option.some.injEq] at h
              rw [← h, lookups_moved_self]
              exact ⟨rfl, LookupPc.left_next hs.table (hsound addr rfl) call⟩
    | loadLastSeen call addr =>
        by_cases hold : call.now - (s.table.entries addr).last_seen > ENTRY_TTL
        · simp only [lookupStep, hw, hold, if_true, Option.some.injEq] at h
          rw [← h, lookups_moved_self]
          exact ⟨rfl, Nat.lt_succ_self 1⟩
        · simp only [lookupStep, hw, hold, if_false, Option.some.injEq] at h
          rw [← h, lookups_moved_self]
          exact ⟨rfl, Nat.lt_succ_self 1⟩
    | storeValid call addr =>
        simp only [lookupStep, hw, Option.some.injEq] at h
        rw [← h, lookups_moved_self]
        exact ⟨rfl, Nat.zero_lt_one⟩
    | loadPort call addr =>
        simp only [lookupStep, hw, Option.some.injEq] at h
        rw [← h, lookups_moved_self]
        exact ⟨rfl, Nat.zero_lt_one⟩
  rw [left, left, hless.1]
  omega

/-- What other workers do, a worker does not notice. -/
theorem same_of_ne {a : UseAction n} (h : s.step a = some t) (hbegins : Begins w a = false)
    (haccess : Accesses w a = false) :
    t.inserting.pcs w = s.inserting.pcs w ∧ t.lookups w = s.lookups w := by
  cases a with
  | insert a =>
      rcases step_insert.1 h with ⟨_, inserting, hstep, rfl⟩
      refine ⟨?_, rfl⟩
      have hne : w ≠ a.worker := by
        cases a with
        | call w' call => exact fun heq => of_decide_eq_false hbegins heq.symm
        | step w' => exact fun heq => of_decide_eq_false haccess heq.symm
      exact Inserting.pcs_step_of_ne hne hstep
  | lookup w' call =>
      rcases step_lookup.1 h with ⟨_, _, rfl⟩
      have hne : w ≠ w' := fun heq => of_decide_eq_false hbegins heq.symm
      exact ⟨rfl, lookups_moved_of_ne hne _ _⟩
  | lookupStep w' =>
      have hne : w ≠ w' := fun heq => of_decide_eq_false haccess heq.symm
      exact lookupStep_of_ne hne h

/-- Only the calls of the worker itself give it something to do. -/
theorem left_step (hs : Consistent (s, calls)) {a : UseAction n} (h : s.step a = some t)
    (hbegins : Begins w a = false) : t.left w + (if Accesses w a then 1 else 0) ≤ s.left w := by
  cases haccess : Accesses w a with
  | false =>
      simp only [Bool.false_eq_true, if_false, Nat.add_zero]
      have hsame := same_of_ne h hbegins haccess
      rw [left, left, hsame.1, hsame.2]
  | true =>
      simp only [if_true]
      cases a with
      | insert a =>
          cases a with
          | call w' call => cases haccess
          | step w' =>
              have hw : w' = w := of_decide_eq_true haccess
              subst hw
              exact left_insert_step hs h
      | lookup w' call => cases haccess
      | lookupStep w' =>
          have hw : w' = w := of_decide_eq_true haccess
          subst hw
          exact left_lookupStep hs h

theorem consistent_run {acts : List (UseAction n)} (hs : ∃ calls, Consistent (s, calls))
    (h : (macTableUsers n).run s acts = some t) : ∃ calls, Consistent (t, calls) := by
  refine Machine.invariant_run (fun s => ∃ calls, Consistent (s, calls)) ?_ hs h
  rintro s a t ⟨calls, hs⟩ hstep
  have hhistory : ((macTableUsers n).withHistory recordInserts).step (s, calls) a =
      some (t, recordInserts s a t calls) := Machine.withHistory_step.2 ⟨hstep, rfl⟩
  exact ⟨_, hs.step hhistory⟩

theorem reached_consistent (h : (macTableUsers n).Reaches (start n SharedMacTable.zeroed) s) :
    ∃ calls, Consistent (s, calls) := by
  rcases h with ⟨acts, hrun⟩
  exact consistent_run ⟨[], consistent_start⟩ hrun

/-- A call begins at the head of a chain, whose address is that of a record. -/
theorem left_begins (hs : Consistent (s, calls)) {a : UseAction n} (h : s.step a = some t)
    (hbegins : Begins w a = true) : t.left w ≤ s.table.allocated + 3 := by
  have hhead : ∀ idx addr, s.table.buckets idx = some addr → addr + 1 ≤ s.table.allocated :=
    fun idx addr haddr => (hs.table.heads idx addr haddr).1
  cases a with
  | insert a =>
      rcases step_insert.1 h with ⟨hidle, inserting, hstep, rfl⟩
      cases a with
      | step w' => cases hbegins
      | call w' call =>
          have hw : w' = w := of_decide_eq_true hbegins
          subst hw
          have hnothing : (s.lookups w').left = 0 := LookupPc.left_eq_zero.2 hidle
          cases hw : s.inserting.pcs w' <;>
            simp only [Inserting.step, hw, reduceCtorEq, Option.some.injEq] at hstep
          rw [left, hnothing, ← hstep, Inserting.pcs_moved_self]
          cases haddr : s.inserting.table.buckets call.idx with
          | none => exact Nat.le_add_left 3 _
          | some addr => exact Nat.add_le_add_right (hhead call.idx addr haddr) 3
  | lookup w' call =>
      have hw : w' = w := of_decide_eq_true hbegins
      subst hw
      rcases step_lookup.1 h with ⟨_, hidle, rfl⟩
      rw [left, lookups_moved_self]
      have hnothing : ((s.moved w' s.table (.walking call (s.table.buckets call.idx))).inserting.pcs
          w').left = 0 := congrArg InsertPc.left hidle
      rw [hnothing, Nat.zero_add]
      cases haddr : s.table.buckets call.idx with
      | none => exact Nat.le_add_left_of_le (show 1 ≤ 3 by decide)
      | some addr =>
          exact Nat.add_le_add_right (Nat.le_of_succ_le (hhead call.idx addr haddr)) 3
  | lookupStep w' => cases hbegins

/-- A worker that is in one of the functions can make its next access at any time. -/
theorem exists_access (hwork : s.AtWork w) : ∃ a, Accesses w a = true ∧ ∃ t, s.step a = some t := by
  cases hbusy : (s.lookups w).Busy with
  | true =>
      refine ⟨.lookupStep w, decide_eq_true rfl, ?_⟩
      cases hw : s.lookups w with
      | idle | returned call port =>
          rw [hw] at hbusy
          cases hbusy
      | walking call entry =>
          cases entry with
          | none => exact ⟨_, by simp only [step, lookupStep, hw]; rfl⟩
          | some addr =>
              simp only [step, lookupStep, hw]
              split <;> exact ⟨_, rfl⟩
      | loadLastSeen call addr =>
          simp only [step, lookupStep, hw]
          split <;> exact ⟨_, rfl⟩
      | storeValid call addr | loadPort call addr =>
          exact ⟨_, by simp only [step, lookupStep, hw]; rfl⟩
  | false =>
      have hinsert : s.inserting.pcs w ≠ .idle := by
        rcases hwork with hlookup | hinsert
        · rw [hbusy] at hlookup
          cases hlookup
        · exact hinsert
      refine ⟨.insert (.step w), decide_eq_true rfl, ?_⟩
      have hstep : ∃ inserting, s.inserting.step (.step w) = some inserting := by
        cases hw : s.inserting.pcs w with
        | idle => exact absurd hw hinsert
        | walking call entry =>
            cases entry with
            | none => exact ⟨_, by simp only [Inserting.step, hw]; rfl⟩
            | some addr =>
                simp only [Inserting.step, hw]
                split <;> exact ⟨_, rfl⟩
        | storePort call addr | storeLastSeen call addr | storeHead call addr | addSize call =>
            exact ⟨_, by simp only [Inserting.step, hw]; rfl⟩
      rcases hstep with ⟨inserting, hstep⟩
      exact ⟨_, step_insert.2 ⟨hbusy, inserting, hstep, rfl⟩⟩

/-- Both functions are wait-free: a call returns after a number of accesses of its own that the
records at its beginning bound, whatever the other workers do in between, and no access waits. -/
theorem accesses_le_of_run {a : UseAction n} {bs : List (UseAction n)} {u : MacTableUsers n}
    (hreach : (macTableUsers n).Reaches (start n SharedMacTable.zeroed) s)
    (hstep : (macTableUsers n).step s a = some t) (hbegins : Begins w a = true)
    (hrun : (macTableUsers n).run t bs = some u) (hcall : ∀ b ∈ bs, Begins w b = false) :
    bs.countP (Accesses w) ≤ s.table.allocated + 3 ∧
      (u.AtWork w → ∃ b, Accesses w b = true ∧ ∃ v, u.step b = some v) := by
  refine ⟨?_, exists_access⟩
  rcases reached_consistent hreach with ⟨calls, hs⟩
  have hbegun : ∃ calls, Consistent (t, calls) :=
    reached_consistent (hreach.trans (Machine.Reaches.single hstep))
  have hbound := Machine.countP_add_le (fun s => ∃ calls, Consistent (s, calls))
    (fun s => s.left w) (fun b => Begins w b = false) (Accesses w) ?_ hbegun hcall hrun
  · exact (Nat.le_add_right _ _).trans (hbound.trans (left_begins hs hstep hbegins))
  · rintro s b t ⟨calls, hs⟩ hkind hstep
    have hhistory : ((macTableUsers n).withHistory recordInserts).step (s, calls) b =
        some (t, recordInserts s b t calls) := Machine.withHistory_step.2 ⟨hstep, rfl⟩
    exact ⟨⟨_, hs.step hhistory⟩, left_step hs hstep hkind⟩

/-- A lookup in a chain of one entry, which another worker makes longer meanwhile. -/
theorem accesses_le_of_run_racing :
    ∃ s t u : MacTableUsers 2, (macTableUsers 2).run (start 2 SharedMacTable.zeroed)
        [.insert (.call 0 Inserting.firstCall), .insert (.step 0), .insert (.step 0),
          .insert (.step 0)] = some s ∧
      s.step (.lookup 1 firstLookup) = some t ∧
      (macTableUsers 2).run t [.insert (.call 0 Inserting.secondCall), .lookupStep 1,
        .insert (.step 0), .insert (.step 0), .lookupStep 1, .insert (.step 0)] = some u ∧
      ([.insert (.call 0 Inserting.secondCall), .lookupStep 1, .insert (.step 0),
        .insert (.step 0), .lookupStep 1, .insert (.step 0)] : List (UseAction 2)).countP
          (Accesses 1) ≤ s.table.allocated + 3 := by
  have heval : ((macTableUsers 2).run (start 2 SharedMacTable.zeroed)
      ([.insert (.call 0 Inserting.firstCall), .insert (.step 0), .insert (.step 0),
        .insert (.step 0)] ++ .lookup 1 firstLookup ::
      [.insert (.call 0 Inserting.secondCall), .lookupStep 1, .insert (.step 0),
        .insert (.step 0), .lookupStep 1, .insert (.step 0)])).isSome = true := by
    decide +kernel
  rcases Option.isSome_iff_exists.1 heval with ⟨u, hrun⟩
  rcases (macTableUsers 2).run_append_eq_some.1 hrun with ⟨s, hreach, hrest⟩
  rcases (macTableUsers 2).run_cons_eq_some.1 hrest with ⟨t, hstep, hrun⟩
  have hbound := (accesses_le_of_run (w := 1) ⟨_, hreach⟩ hstep rfl hrun (by decide)).1
  exact ⟨s, t, u, hreach, hstep, hrun, hbound⟩

/-! ## What a lookup cannot miss -/

theorem extends_step (hs : Consistent (s, calls)) {a : UseAction n} (h : s.step a = some t) :
    t.table.Extends s.table := by
  cases a with
  | insert a =>
      rcases step_insert.1 h with ⟨_, inserting, hstep, rfl⟩
      cases a with
      | call w call =>
          cases hw : s.inserting.pcs w <;>
            simp only [Inserting.step, hw, reduceCtorEq, Option.some.injEq] at hstep
          rw [← hstep]
          exact Extends.refl _
      | step w =>
          rcases Inserting.step_step hs.table (hs.inserts w) hstep with ⟨table, pc, rfl, hext, _⟩
          exact hext
  | lookup w call =>
      rcases step_lookup.1 h with ⟨_, _, rfl⟩
      exact Extends.refl _
  | lookupStep w =>
      rcases lookupStep_cases hs.table (hs.lookups w) h with ⟨table, pc, rfl, hext, _⟩
      exact hext

/-- Every record of `seen` for the address is ahead of the worker, or has lost its flag. -/
def Ahead (table : SharedMacTable) (k : MacKey) (seen : List Addr) (entry : Option Addr) : Prop :=
  ∃ rest, Linked table.next entry rest ∧ (∀ addr ∈ rest, addr < table.allocated) ∧
    ∀ addr ∈ seen, table.Holds k addr → (table.entries addr).valid = true → addr ∈ rest

/-- What a worker knows of the records that its chain had when it began its lookup. -/
def Covers (table : SharedMacTable) (calls : List InsertCall) (call : LookupCall)
    (seen : List Addr) : LookupPc → Prop
  | .idle => False
  | .walking call' entry => call' = call ∧ Ahead table call.key seen entry
  | .loadLastSeen call' _ | .storeValid call' _ | .loadPort call' _ => call' = call
  | .returned call' port =>
      call' = call ∧ (PortStored calls call.key port ∨
        (∃ now, TimeStored calls call.key now ∧ ENTRY_TTL < call.now - now) ∨
        ∀ addr ∈ seen, table.Holds call.key addr → (table.entries addr).valid = false)

section Covers

variable {table table' : SharedMacTable} {calls' : List InsertCall} {call : LookupCall}
  {seen : List Addr}

theorem Ahead.mono {k : MacKey} {entry : Option Addr} (h : Ahead table k seen entry)
    (hseen : ∀ addr ∈ seen, addr < table.allocated) (hext : table'.Extends table) :
    Ahead table' k seen entry := by
  rcases h with ⟨rest, hlinked, hlt, hahead⟩
  refine ⟨rest, hlinked.congr fun addr haddr => hext.next addr (hlt addr haddr), ?_, ?_⟩
  · exact fun addr haddr => Nat.lt_of_lt_of_le (hlt addr haddr) hext.allocated
  · intro addr haddr hholds hvalid
    have hold : addr < table.allocated := hseen addr haddr
    exact hahead addr haddr ⟨hold, (hext.key addr hold).symm.trans hholds.2⟩
      (hext.valid addr hold hvalid)

theorem Covers.mono {pc : LookupPc} (h : Covers table calls call seen pc)
    (hseen : ∀ addr ∈ seen, addr < table.allocated) (hext : table'.Extends table)
    (hsub : calls ⊆ calls') : Covers table' calls' call seen pc := by
  cases pc with
  | idle => exact h
  | walking call' entry => exact ⟨h.1, h.2.mono hseen hext⟩
  | loadLastSeen call' addr => exact h
  | storeValid call' addr => exact h
  | loadPort call' addr => exact h
  | returned call' port =>
      rcases h with ⟨hcall, hport | ⟨now, hnow, hold⟩ | hinvalid⟩
      · exact ⟨hcall, Or.inl (hport.mono hsub)⟩
      · exact ⟨hcall, Or.inr (Or.inl ⟨now, hnow.mono hsub, hold⟩)⟩
      · refine ⟨hcall, Or.inr (Or.inr fun addr haddr hholds => ?_)⟩
        have hold : addr < table.allocated := hseen addr haddr
        have hflag := hinvalid addr haddr ⟨hold, (hext.key addr hold).symm.trans hholds.2⟩
        cases hvalid : (table'.entries addr).valid with
        | false => rfl
        | true => rw [← hflag, hext.valid addr hold hvalid]

/-- A record that does not match, or has lost its flag, need not be looked at again. -/
theorem Ahead.next {addr : Addr} (h : Ahead table call.key seen (some addr))
    (hmatch : ((table.entries addr).Matches call.mac call.vlan &&
      (table.entries addr).valid) = false) : Ahead table call.key seen (table.next addr) := by
  rcases h with ⟨rest, hlinked, hlt, hahead⟩
  cases rest with
  | nil => cases hlinked
  | cons first rest =>
      rcases hlinked with ⟨hfirst, hrest⟩
      cases hfirst
      refine ⟨rest, hrest, fun other hother => hlt other (List.mem_cons_of_mem _ hother), ?_⟩
      intro other hother hholds hvalid
      rcases List.mem_cons.1 (hahead other hother hholds hvalid) with rfl | hmem
      · have hmatches : (table.entries other).Matches call.mac call.vlan = true := by
          simpa [HashEntry.Matches, HashEntry.key, LookupCall.key] using hholds.2
        rw [hmatches, hvalid] at hmatch
        cases hmatch
      · exact hmem

end Covers

theorem covers_lookupStep {call : LookupCall} {seen : List Addr} (hs : Consistent (s, calls))
    (hcovers : Covers s.table calls call seen (s.lookups w)) (h : s.lookupStep w = some t) :
    Covers t.table calls call seen (t.lookups w) := by
  have hsound := hs.lookups w
  cases hw : s.lookups w with
  | idle => simp [lookupStep, hw] at h
  | returned call' port => simp [lookupStep, hw] at h
  | walking call' entry =>
      rw [hw] at hcovers
      rcases hcovers with ⟨rfl, hahead⟩
      cases entry with
      | none =>
          simp only [lookupStep, hw, Option.some.injEq] at h
          rw [← h, lookups_moved_self]
          rcases hahead with ⟨rest, hlinked, _, hahead⟩
          have hnil : rest = [] := by
            cases rest with
            | nil => rfl
            | cons first rest => cases hlinked.1
          -- nothing is left, so no record of the address has its flag
          refine ⟨rfl, Or.inr (Or.inr fun addr haddr hholds => ?_)⟩
          cases hvalid : (s.table.entries addr).valid with
          | false => exact hvalid
          | true =>
              have hmem := hahead addr haddr hholds hvalid
              rw [hnil] at hmem
              cases hmem
      | some addr =>
          cases hmatch : ((s.table.entries addr).Matches call'.mac call'.vlan &&
              (s.table.entries addr).valid) with
          | true =>
              simp only [lookupStep, hw, hmatch, if_true, Option.some.injEq] at h
              rw [← h, lookups_moved_self]
              exact rfl
          | false =>
              simp only [lookupStep, hw, hmatch, Bool.false_eq_true, if_false,
                Option.some.injEq] at h
              rw [← h, lookups_moved_self]
              exact ⟨rfl, hahead.next hmatch⟩
  | loadLastSeen call' addr =>
      rw [hw] at hcovers
      by_cases hold : call'.now - (s.table.entries addr).last_seen > ENTRY_TTL
      · simp only [lookupStep, hw, hold, if_true, Option.some.injEq] at h
        rw [← h, lookups_moved_self]
        exact hcovers
      · simp only [lookupStep, hw, hold, if_false, Option.some.injEq] at h
        rw [← h, lookups_moved_self]
        exact hcovers
  | storeValid call' addr =>
      rw [hw] at hcovers hsound
      have hcall : call' = call := hcovers
      subst hcall
      simp only [lookupStep, hw, Option.some.injEq] at h
      rw [← h, lookups_moved_self]
      exact ⟨rfl, Or.inr (Or.inl hsound.2)⟩
  | loadPort call' addr =>
      rw [hw] at hcovers hsound
      have hcall : call' = call := hcovers
      subst hcall
      simp only [lookupStep, hw, Option.some.injEq] at h
      rw [← h, lookups_moved_self]
      have hport : PortStored calls call'.key (s.table.entries addr).port := by
        rw [← hsound.1.2]
        exact hs.table.port addr hsound.1.1
      exact ⟨rfl, Or.inl hport⟩

/-- The invariant of a lookup that has begun when the table was `base`. -/
structure Looking (w : Fin n) (call : LookupCall) (base : SharedMacTable)
    (x : MacTableUsers n × List InsertCall) : Prop where
  consistent : Consistent x
  older : ∀ addr ∈ base.chain call.idx, addr < base.allocated
  grown : x.1.table.Extends base
  covers : Covers x.1.table x.2 call (base.chain call.idx) (x.1.lookups w)

theorem Looking.seen {call : LookupCall} {base : SharedMacTable}
    {x : MacTableUsers n × List InsertCall} (hs : Looking w call base x) :
    ∀ addr ∈ base.chain call.idx, addr < x.1.table.allocated :=
  fun addr haddr => Nat.lt_of_lt_of_le (hs.older addr haddr) hs.grown.allocated

theorem Looking.step {call : LookupCall} {base : SharedMacTable}
    {x y : MacTableUsers n × List InsertCall} {a : UseAction n} (hs : Looking w call base x)
    (hbegins : Begins w a = false)
    (h : ((macTableUsers n).withHistory recordInserts).step x a = some y) :
    Looking w call base y := by
  have hy := hs.consistent.step h
  rcases x with ⟨s, calls⟩
  rcases y with ⟨t, calls'⟩
  rcases Machine.withHistory_step.1 h with ⟨hstep, hcalls⟩
  simp only at hstep hcalls
  have hext : t.table.Extends s.table := extends_step hs.consistent hstep
  have hsub : calls ⊆ calls' := by
    rw [hcalls]
    exact subset_recordInserts s a t calls
  have hseen := hs.seen
  refine ⟨hy, hs.older, hext.trans hs.grown, ?_⟩
  cases haccess : Accesses w a with
  | false =>
      have hsame : t.lookups w = s.lookups w := (same_of_ne hstep hbegins haccess).2
      simp only [hsame]
      exact hs.covers.mono hseen hext hsub
  | true =>
      cases a with
      | insert a =>
          rcases step_insert.1 hstep with ⟨_, inserting, _, rfl⟩
          exact hs.covers.mono hseen hext hsub
      | lookup w' call' => cases haccess
      | lookupStep w' =>
          have hw : w' = w := of_decide_eq_true haccess
          subst hw
          subst hcalls
          exact covers_lookupStep hs.consistent hs.covers hstep

/-- If the chain had an entry for the address when a lookup began, which has not lost its flag when
the lookup returns, and nothing that was stored for the address is too old, then the lookup answers
a port that was stored for the address, whatever happened to the chain in between. -/
theorem lookup_finds_of_run {x y z : MacTableUsers n × List InsertCall}
    {acts bs : List (UseAction n)} {call call' : LookupCall} {port : Int} {addr : Addr}
    (hreach : ((macTableUsers n).withHistory recordInserts).run
      (start n SharedMacTable.zeroed, []) acts = some x)
    (hstep : ((macTableUsers n).withHistory recordInserts).step x (.lookup w call) = some y)
    (hrun : ((macTableUsers n).withHistory recordInserts).run y bs = some z)
    (hcall : ∀ b ∈ bs, Begins w b = false) (hreturned : z.1.lookups w = .returned call' port)
    (haddr : addr ∈ x.1.table.chain call.idx) (hkey : (x.1.table.entries addr).key = call.key)
    (hvalid : (z.1.table.entries addr).valid = true)
    (hfresh : ∀ stored ∈ z.2, stored.key = call.key → call.now - stored.now ≤ ENTRY_TTL) :
    call' = call ∧ ∃ stored ∈ z.2, stored.key = call.key ∧ stored.port = port := by
  have hx := consistent_after hreach
  have hchain := hx.table.linked_chain call.idx
  have hbegun : Looking w call x.1.table y := by
    rcases Machine.withHistory_step.1 hstep with ⟨hlookup, _⟩
    rcases step_lookup.1 hlookup with ⟨_, _, hy⟩
    refine ⟨hx.step hstep, fun addr haddr => (hchain.2 addr haddr).1, ?_, ?_⟩
    · rw [hy]
      exact Extends.refl _
    · rw [hy, lookups_moved_self]
      exact ⟨rfl, _, hchain.1, fun addr haddr => (hchain.2 addr haddr).1, fun _ haddr _ _ => haddr⟩
  have hz : Looking w call x.1.table z :=
    Machine.invariant_run_of_forall _ (fun _ _ _ hs hkind h => hs.step hkind h) hbegun hcall hrun
  have hcovers := hz.covers
  rw [hreturned] at hcovers
  have hholds : z.1.table.Holds call.key addr :=
    hz.grown.holds ⟨(hchain.2 addr haddr).1, hkey⟩
  rcases hcovers with ⟨hsame, hport | ⟨now, ⟨stored, hmem, hstored, rfl⟩, hold⟩ | hinvalid⟩
  · exact ⟨hsame, hport⟩
  · -- an old time would have been stored
    exact absurd (hfresh stored hmem hstored) (Nat.not_le_of_lt hold)
  · rw [hinvalid addr haddr hholds] at hvalid
    cases hvalid

/-- The entry is there when the lookup begins, and its port is replaced meanwhile. -/
theorem lookup_finds_of_run_racing :
    ∃ z : MacTableUsers 2 × List InsertCall,
      z.1.lookups 1 = .returned firstLookup 7 ∧
      ∃ stored ∈ z.2, stored.key = firstLookup.key ∧ stored.port = 7 := by
  have heval : (((macTableUsers 2).withHistory recordInserts).run
      (start 2 SharedMacTable.zeroed, [])
      ([.insert (.call 0 Inserting.firstCall), .insert (.step 0), .insert (.step 0),
        .insert (.step 0)] ++ .lookup 1 firstLookup ::
      [.insert (.call 0 { Inserting.firstCall with port := 7 }), .lookupStep 1, .insert (.step 0),
        .insert (.step 0), .lookupStep 1, .lookupStep 1])).map
        (fun z => (z.1.lookups 1, (z.1.table.entries 0).valid, z.2)) =
        some (.returned firstLookup 7, true,
          [{ Inserting.firstCall with port := 7 }, Inserting.firstCall]) := by
    decide +kernel
  rcases Option.map_eq_some_iff.1 heval with ⟨z, hrun, hobserve⟩
  simp only [Prod.mk.injEq] at hobserve
  rcases hobserve with ⟨hreturned, hvalid, hcalls⟩
  rcases Machine.run_append_eq_some _ |>.1 hrun with ⟨x, hreach, hrest⟩
  rcases Machine.run_cons_eq_some _ |>.1 hrest with ⟨y, hstep, hrun⟩
  have heval' : (((macTableUsers 2).withHistory recordInserts).run
      (start 2 SharedMacTable.zeroed, [])
      [.insert (.call 0 Inserting.firstCall), .insert (.step 0), .insert (.step 0),
        .insert (.step 0)]).map
        (fun x => (x.1.table.chain firstLookup.idx, (x.1.table.entries 0).key)) =
        some ([0], firstLookup.key) := by
    decide +kernel
  rw [hreach, Option.map_some, Option.some.injEq, Prod.mk.injEq] at heval'
  have hmem : (0 : Addr) ∈ x.1.table.chain firstLookup.idx := by
    rw [heval'.1]
    exact List.mem_singleton.2 rfl
  have hfresh : ∀ stored ∈ z.2, stored.key = firstLookup.key →
      firstLookup.now - stored.now ≤ ENTRY_TTL := by
    rw [hcalls]
    decide
  have hfound := lookup_finds_of_run hreach hstep hrun (by decide) hreturned hmem heval'.2 hvalid
    hfresh
  exact ⟨z, hreturned, hfound.2⟩

end MacTableUsers

end ControlPlane
end EVdeSwitch
