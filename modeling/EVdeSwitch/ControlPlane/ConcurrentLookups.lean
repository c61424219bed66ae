import EVdeSwitch.ControlPlane.Serialisation

/-!
# ConcurrentLookups — workers in `mac_table_lookup` and `mac_table_insert`

Both functions of `src/control_plane/hash_table.c`, one access to the shared table at a time, in
any interleaving.  Insertions may race and lose entries; what a lookup answers is nevertheless a
port that was stored for its own address, and no other worker can keep it from answering.
-/

namespace EVdeSwitch
namespace ControlPlane

open EVdeSwitch.Lib

/-- A call of `mac_table_lookup`, with what its `time(NULL)` returns. -/
structure LookupCall where
  mac : Mac
  vlan : UInt16
  now : Nat
  deriving DecidableEq, Repr

namespace LookupCall

def key (call : LookupCall) : MacKey :=
  (call.mac, call.vlan)

def idx (call : LookupCall) : Fin HASH_TABLE_SIZE :=
  hashMac call.mac call.vlan

end LookupCall

/-- Where a worker is in `mac_table_lookup`, with its local variables. -/
inductive LookupPc
  | idle
  | walking (call : LookupCall) (entry : Option Addr)
  | loadLastSeen (call : LookupCall) (entry : Addr)
  | storeValid (call : LookupCall) (entry : Addr)
  | loadPort (call : LookupCall) (entry : Addr)
  | returned (call : LookupCall) (port : Int)
  deriving DecidableEq, Repr

/-- The function has been called and has not returned. -/
def LookupPc.Busy : LookupPc → Bool
  | .idle | .returned _ _ => false
  | .walking _ _ | .loadLastSeen _ _ | .storeValid _ _ | .loadPort _ _ => true

/-- `n` workers, each in one of the two functions or in neither, and their table. -/
structure MacTableUsers (n : Nat) where
  inserting : Inserting n
  lookups : Fin n → LookupPc

inductive UseAction (n : Nat)
  | insert (a : InsertAction n)
  | lookup (w : Fin n) (call : LookupCall)
  | lookupStep (w : Fin n)
  deriving DecidableEq, Repr

def InsertAction.worker {n : Nat} : InsertAction n → Fin n
  | .call w _ | .step w => w

namespace MacTableUsers

variable {n : Nat}

def start (n : Nat) (table : SharedMacTable) : MacTableUsers n :=
  { inserting := Inserting.start n table
    lookups := fun _ => .idle }

def table (s : MacTableUsers n) : SharedMacTable :=
  s.inserting.table

def moved (s : MacTableUsers n) (w : Fin n) (table : SharedMacTable) (pc : LookupPc) :
    MacTableUsers n :=
  { inserting := { s.inserting with table := table }
    lookups := Function.update s.lookups w pc }

/-- One access of a worker in `mac_table_lookup`; `memcmp` and the test of `vlan` read what no
worker writes once the entry is linked. -/
def lookupStep (s : MacTableUsers n) (w : Fin n) : Option (MacTableUsers n) :=
  match s.lookups w with
  | .idle | .returned _ _ => none
  | .walking call (some entry) =>
      if (s.table.entries entry).Matches call.mac call.vlan && (s.table.entries entry).valid then
        some (s.moved w s.table (.loadLastSeen call entry))
      else
        some (s.moved w s.table (.walking call (s.table.next entry)))
  -- Not found
  | .walking call none => some (s.moved w s.table (.returned call (-1)))
  | .loadLastSeen call entry =>
      if call.now - (s.table.entries entry).last_seen > ENTRY_TTL then
        some (s.moved w s.table (.storeValid call entry))
      else
        some (s.moved w s.table (.loadPort call entry))
  | .storeValid call entry =>
      let table := s.table.setEntry entry (s.table.entries entry).retire
      some (s.moved w table (.returned call (-1)))
  | .loadPort call entry => some (s.moved w s.table (.returned call (s.table.entries entry).port))

/-- One access of a worker.  No worker is in both functions. -/
def step (s : MacTableUsers n) : UseAction n → Option (MacTableUsers n)
  | .insert a =>
      if (s.lookups a.worker).Busy then
        none
      else
        (s.inserting.step a).map fun inserting => { s with inserting := inserting }
  | .lookup w call =>
      if (s.lookups w).Busy || s.inserting.pcs w ≠ .idle then
        none
      else
        some (s.moved w s.table (.walking call (s.table.buckets call.idx)))
  | .lookupStep w => s.lookupStep w

end MacTableUsers

def macTableUsers (n : Nat) : Machine (MacTableUsers n) (UseAction n) :=
  { step := MacTableUsers.step }

/-- The insertions that have begun. -/
def recordInserts {n : Nat} (_ : MacTableUsers n) (a : UseAction n) (_ : MacTableUsers n)
    (calls : List InsertCall) : List InsertCall :=
  match a with
  | .insert (.call _ call) => call :: calls
  | .insert (.step _) | .lookup _ _ | .lookupStep _ => calls

/-! ## What holds of the table in every interleaving -/

namespace SharedMacTable

variable {table table' table'' : SharedMacTable} {calls calls' : List InsertCall}
  {idx : Fin HASH_TABLE_SIZE} {addr : Addr}

/-- `calloc` has given out the record, and its address belongs in the bucket. -/
def InBucket (table : SharedMacTable) (idx : Fin HASH_TABLE_SIZE) (addr : Addr) : Prop :=
  addr < table.allocated ∧ (table.entries addr).idx = idx

/-- The record is for the address `k`. -/
def Holds (table : SharedMacTable) (k : MacKey) (addr : Addr) : Prop :=
  addr < table.allocated ∧ (table.entries addr).key = k

theorem idx_of_key_eq {entry : HashEntry} {k : MacKey} (h : entry.key = k) :
    entry.idx = hashMac k.1 k.2 := by
  subst h
  rfl

theorem idx_eq_idx_of_key_eq {entry entry' : HashEntry} (h : entry.key = entry'.key) :
    entry.idx = entry'.idx :=
  (idx_of_key_eq h).trans (idx_of_key_eq rfl).symm

theorem Holds.inBucket {k : MacKey} (h : table.Holds k addr) :
    table.InBucket (hashMac k.1 k.2) addr :=
  ⟨h.1, idx_of_key_eq h.2⟩

/-- What no worker takes back: a record stays, for the same address, with the same link, and
without its flag once this has been cleared. -/
structure Extends (table' table : SharedMacTable) : Prop where
  allocated : table.allocated ≤ table'.allocated
  key : ∀ addr < table.allocated, (table'.entries addr).key = (table.entries addr).key
  next : ∀ addr < table.allocated, table'.next addr = table.next addr
  valid : ∀ addr < table.allocated, (table'.entries addr).valid = true →
    (table.entries addr).valid = true

namespace Extends

theorem refl (table : SharedMacTable) : table.Extends table where
  allocated := le_refl _
  key := fun _ _ => rfl
  next := fun _ _ => rfl
  valid := fun _ _ h => h

theorem trans (h : table''.Extends table') (h' : table'.Extends table) : table''.Extends table where
  allocated := le_trans h'.allocated h.allocated
  key := fun addr hlt =>
    (h.key addr (Nat.lt_of_lt_of_le hlt h'.allocated)).trans (h'.key addr hlt)
  next := fun addr hlt =>
    (h.next addr (Nat.lt_of_lt_of_le hlt h'.allocated)).trans (h'.next addr hlt)
  valid := fun addr hlt hvalid =>
    h'.valid addr hlt (h.valid addr (Nat.lt_of_lt_of_le hlt h'.allocated) hvalid)

theorem holds (h : table'.Extends table) {k : MacKey} (haddr : table.Holds k addr) :
    table'.Holds k addr :=
  ⟨Nat.lt_of_lt_of_le haddr.1 h.allocated, (h.key addr haddr.1).trans haddr.2⟩

theorem inBucket (h : table'.Extends table) (haddr : table.InBucket idx addr) :
    table'.InBucket idx addr := by
  refine ⟨Nat.lt_of_lt_of_le haddr.1 h.allocated, ?_⟩
  rw [← haddr.2]
  exact idx_eq_idx_of_key_eq (h.key addr haddr.1)

end Extends

/-- Some call has stored this port for the address. -/
def PortStored (calls : List InsertCall) (k : MacKey) (port : Int) : Prop :=
  ∃ call ∈ calls, call.key = k ∧ call.port = port

/-- Some call has stored this time for the address. -/
def TimeStored (calls : List InsertCall) (k : MacKey) (now : Nat) : Prop :=
  ∃ call ∈ calls, call.key = k ∧ call.now = now

theorem PortStored.mono {k : MacKey} {port : Int} (h : PortStored calls k port)
    (hsub : calls ⊆ calls') : PortStored calls' k port := by
  rcases h with ⟨call, hcall, hrest⟩
  exact ⟨call, hsub hcall, hrest⟩

theorem TimeStored.mono {k : MacKey} {now : Nat} (h : TimeStored calls k now)
    (hsub : calls ⊆ calls') : TimeStored calls' k now := by
  rcases h with ⟨call, hcall, hrest⟩
  exact ⟨call, hsub hcall, hrest⟩

/-- Every link leads to an older record of the same bucket, and every record holds what calls have
stored for its address. -/
structure Intact (table : SharedMacTable) (calls : List InsertCall) : Prop where
  heads : ∀ idx addr, table.buckets idx = some addr → table.InBucket idx addr
  links : ∀ idx addr, table.InBucket idx addr → ∀ addr', table.next addr = some addr' →
    table.InBucket idx addr' ∧ addr' < addr
  port : ∀ addr < table.allocated,
    PortStored calls (table.entries addr).key (table.entries addr).port
  last_seen : ∀ addr < table.allocated,
    TimeStored calls (table.entries addr).key (table.entries addr).last_seen

theorem intact_zeroed : zeroed.Intact [] where
  heads := fun _ _ h => absurd h (by simp [zeroed])
  links := fun _ _ _ _ h => absurd h (by simp [zeroed])
  port := fun _ h => absurd h (Nat.not_lt_zero _)
  last_seen := fun _ h => absurd h (Nat.not_lt_zero _)

/-- From every record of a bucket the links lead through records of the bucket to the end. -/
theorem Intact.exists_linked (h : table.Intact calls) {head : Option Addr}
    (hhead : ∀ addr, head = some addr → table.InBucket idx addr) :
    ∃ addrs, Linked table.next head addrs ∧ ∀ addr ∈ addrs, table.InBucket idx addr :=
  Linked.exists_of_wellFounded (Nat.lt_wfRel.wf) (h.links idx) hhead

theorem Intact.linked_chain (h : table.Intact calls) (idx : Fin HASH_TABLE_SIZE) :
    Linked table.next (table.buckets idx) (table.chain idx) ∧
      ∀ addr ∈ table.chain idx, table.InBucket idx addr := by
  rcases h.exists_linked (h.heads idx) with ⟨addrs, hlinked, hall⟩
  rw [chain_eq hlinked fun addr haddr => (hall addr haddr).1]
  exact ⟨hlinked, hall⟩

/-! ### Writing to a record -/

section SetEntry

variable {entry : HashEntry}

theorem entries_setEntry_self : (table.setEntry addr entry).entries addr = entry :=
  Function.update_self _ _ _

theorem entries_setEntry_of_ne {addr' : Addr} (h : addr' ≠ addr) :
    (table.setEntry addr entry).entries addr' = table.entries addr' :=
  Function.update_of_ne h _ _

/-- What is true of all records stays so, if it is true of the new contents. -/
theorem forall_setEntry {P : Addr → HashEntry → Prop} (h : ∀ addr' < table.allocated,
    P addr' (table.entries addr')) (hentry : P addr entry) :
    ∀ addr' < table.allocated, P addr' ((table.setEntry addr entry).entries addr') := by
  intro addr' hlt
  by_cases heq : addr' = addr
  · subst heq
    rw [entries_setEntry_self]
    exact hentry
  · rw [entries_setEntry_of_ne heq]
    exact h addr' hlt

theorem extends_setEntry (hkey : entry.key = (table.entries addr).key)
    (hvalid : entry.valid = true → (table.entries addr).valid = true) :
    (table.setEntry addr entry).Extends table where
  allocated := le_refl _
  key := forall_setEntry (P := fun addr' entry' => entry'.key = (table.entries addr').key)
    (fun _ _ => rfl) hkey
  next := fun _ _ => rfl
  valid := forall_setEntry
    (P := fun addr' entry' => entry'.valid = true → (table.entries addr').valid = true)
    (fun _ _ h => h) hvalid

theorem Intact.setEntry (h : table.Intact calls) (hkey : entry.key = (table.entries addr).key)
    (hport : PortStored calls entry.key entry.port)
    (hnow : TimeStored calls entry.key entry.last_seen) :
    (table.setEntry addr entry).Intact calls := by
  -- the keys stay, so every record stays in its bucket
  have hidx : ∀ addr', ((table.setEntry addr entry).entries addr').idx =
      (table.entries addr').idx := by
    intro addr'
    by_cases heq : addr' = addr
    · subst heq
      rw [entries_setEntry_self]
      exact idx_eq_idx_of_key_eq hkey
    · rw [entries_setEntry_of_ne heq]
  have hbucket : ∀ idx addr', (table.setEntry addr entry).InBucket idx addr' ↔
      table.InBucket idx addr' := by
    intro idx addr'
    rw [InBucket, InBucket, hidx addr']
    rfl
  refine ⟨?_, ?_, ?_, ?_⟩
  · intro idx addr' hhead
    exact (hbucket idx addr').2 (h.heads idx addr' hhead)
  · intro idx addr' haddr' addr'' hnext
    rcases h.links idx addr' ((hbucket idx addr').1 haddr') addr'' hnext with ⟨hin, hlt⟩
    exact ⟨(hbucket idx addr'').2 hin, hlt⟩
  · exact forall_setEntry (P := fun _ entry' => PortStored calls entry'.key entry'.port)
      h.port hport
  · exact forall_setEntry (P := fun _ entry' => TimeStored calls entry'.key entry'.last_seen)
      h.last_seen hnow

end SetEntry

/-! ### New records and new heads -/

section Create

variable {call : InsertCall}

theorem entries_create_self : (table.create call).entries table.allocated = call.entry :=
  Function.update_self _ _ _

theorem entries_create_of_lt (h : addr < table.allocated) :
    (table.create call).entries addr = table.entries addr :=
  Function.update_of_ne (Nat.ne_of_lt h) _ _

theorem next_create_self :
    (table.create call).next table.allocated = table.buckets call.idx :=
  Function.update_self _ _ _

theorem next_create_of_lt (h : addr < table.allocated) :
    (table.create call).next addr = table.next addr :=
  Function.update_of_ne (Nat.ne_of_lt h) _ _

theorem extends_create : (table.create call).Extends table where
  allocated := Nat.le_succ _
  key := fun _ h => by rw [entries_create_of_lt h]
  next := fun _ h => next_create_of_lt h
  valid := fun _ h hvalid => by rwa [entries_create_of_lt h] at hvalid

theorem lt_or_eq_of_lt_create (h : addr < (table.create call).allocated) :
    addr < table.allocated ∨ addr = table.allocated :=
  Nat.lt_succ_iff_lt_or_eq.1 h

theorem holds_create : (table.create call).Holds call.key table.allocated := by
  refine ⟨Nat.lt_succ_self _, ?_⟩
  rw [entries_create_self]
  rfl

theorem Intact.create (h : table.Intact calls) (hcall : call ∈ calls) :
    (table.create call).Intact calls := by
  refine ⟨?_, ?_, ?_, ?_⟩
  · intro idx addr hhead
    exact extends_create.inBucket (h.heads idx addr hhead)
  · rintro idx addr ⟨hlt, hidx⟩ addr' hnext
    rcases lt_or_eq_of_lt_create hlt with hold | rfl
    · -- an older record, whose link stays
      rw [entries_create_of_lt hold] at hidx
      rw [next_create_of_lt hold] at hnext
      rcases h.links idx addr ⟨hold, hidx⟩ addr' hnext with ⟨hin, hless⟩
      exact ⟨extends_create.inBucket hin, hless⟩
    · -- the new one is linked to the head of its bucket
      rw [entries_create_self] at hidx
      rw [next_create_self] at hnext
      have hin : table.InBucket idx addr' := by
        rw [← hidx]
        exact h.heads call.idx addr' hnext
      exact ⟨extends_create.inBucket hin, hin.1⟩
  · intro addr hlt
    rcases lt_or_eq_of_lt_create hlt with hold | rfl
    · rw [entries_create_of_lt hold]
      exact h.port addr hold
    · rw [entries_create_self]
      exact ⟨call, hcall, rfl, rfl⟩
  · intro addr hlt
    rcases lt_or_eq_of_lt_create hlt with hold | rfl
    · rw [entries_create_of_lt hold]
      exact h.last_seen addr hold
    · rw [entries_create_self]
      exact ⟨call, hcall, rfl, rfl⟩

theorem extends_setHead : (table.setHead idx addr).Extends table :=
  ⟨le_refl _, fun _ _ => rfl, fun _ _ => rfl, fun _ _ h => h⟩

/-- The new head need not lead to the chain that there was. -/
theorem Intact.setHead (h : table.Intact calls) (haddr : table.InBucket idx addr) :
    (table.setHead idx addr).Intact calls := by
  refine ⟨?_, h.links, h.port, h.last_seen⟩
  intro idx' addr' hhead
  by_cases hidx : idx' = idx
  · subst hidx
    have heq : addr = addr' := by
      simpa [SharedMacTable.setHead] using hhead
    rw [← heq]
    exact haddr
  · have hhead' : table.buckets idx' = some addr' := by
      simpa [SharedMacTable.setHead, hidx] using hhead
    exact h.heads idx' addr' hhead'

end Create

theorem Intact.mono (h : table.Intact calls) (hsub : calls ⊆ calls') : table.Intact calls' where
  heads := h.heads
  links := h.links
  port := fun addr hlt => (h.port addr hlt).mono hsub
  last_seen := fun addr hlt => (h.last_seen addr hlt).mono hsub

end SharedMacTable

open SharedMacTable

/-- What the variables of a worker in `mac_table_insert` lead to. -/
def InsertPc.Sound (table : SharedMacTable) (calls : List InsertCall) : InsertPc → Prop
  | .idle | .addSize _ => True
  | .walking call entry =>
      call ∈ calls ∧ ∀ addr, entry = some addr → table.InBucket call.idx addr
  | .storePort call addr | .storeLastSeen call addr | .storeHead call addr =>
      call ∈ calls ∧ table.Holds call.key addr

/-- What the variables of a worker in `mac_table_lookup` lead to, and what it has found out. -/
def LookupPc.Sound (table : SharedMacTable) (calls : List InsertCall) : LookupPc → Prop
  | .idle => True
  | .walking call entry => ∀ addr, entry = some addr → table.InBucket call.idx addr
  | .loadLastSeen call addr => table.Holds call.key addr
  | .storeValid call addr =>
      table.Holds call.key addr ∧ ∃ now, TimeStored calls call.key now ∧ ENTRY_TTL < call.now - now
  | .loadPort call addr =>
      table.Holds call.key addr ∧ ∃ now, TimeStored calls call.key now ∧ call.now - now ≤ ENTRY_TTL
  | .returned call port =>
      port = -1 ∨ PortStored calls call.key port ∧
        ∃ now, TimeStored calls call.key now ∧ call.now - now ≤ ENTRY_TTL

section Sound

variable {table table' : SharedMacTable} {calls calls' : List InsertCall}

theorem InsertPc.Sound.mono {pc : InsertPc} (h : pc.Sound table calls)
    (hext : table'.Extends table) (hsub : calls ⊆ calls') : pc.Sound table' calls' := by
  cases pc with
  | idle => trivial
  | walking call entry =>
      exact ⟨hsub h.1, fun addr haddr => hext.inBucket (h.2 addr haddr)⟩
  | storePort call addr => exact ⟨hsub h.1, hext.holds h.2⟩
  | storeLastSeen call addr => exact ⟨hsub h.1, hext.holds h.2⟩
  | storeHead call addr => exact ⟨hsub h.1, hext.holds h.2⟩
  | addSize call => trivial

theorem LookupPc.Sound.mono {pc : LookupPc} (h : pc.Sound table calls)
    (hext : table'.Extends table) (hsub : calls ⊆ calls') : pc.Sound table' calls' := by
  cases pc with
  | idle => trivial
  | walking call entry => exact fun addr haddr => hext.inBucket (h addr haddr)
  | loadLastSeen call addr => exact hext.holds h
  | storeValid call addr =>
      rcases h with ⟨hholds, now, hnow, hold⟩
      exact ⟨hext.holds hholds, now, hnow.mono hsub, hold⟩
  | loadPort call addr =>
      rcases h with ⟨hholds, now, hnow, hfresh⟩
      exact ⟨hext.holds hholds, now, hnow.mono hsub, hfresh⟩
  | returned call port =>
      rcases h with hnone | ⟨hport, now, hnow, hfresh⟩
      · exact Or.inl hnone
      · exact Or.inr ⟨hport.mono hsub, now, hnow.mono hsub, hfresh⟩

end Sound

/-- A step moves its own worker only. -/
theorem Inserting.exists_moved {n : Nat} {s t : Inserting n} {a : InsertAction n}
    (h : s.step a = some t) : ∃ table pc, t = s.moved a.worker table pc := by
  cases a with
  | call w call =>
      cases hw : s.pcs w <;> simp only [Inserting.step, hw, reduceCtorEq, Option.some.injEq] at h
      exact ⟨_, _, h.symm⟩
  | step w =>
      cases hw : s.pcs w with
      | idle => simp [Inserting.step, hw] at h
      | walking call entry =>
          cases entry with
          | none =>
              simp only [Inserting.step, hw, Option.some.injEq] at h
              exact ⟨_, _, h.symm⟩
          | some addr =>
              simp only [Inserting.step, hw] at h
              split at h <;> exact ⟨_, _, (Option.some.inj h).symm⟩
      | storePort call addr | storeLastSeen call addr | storeHead call addr | addSize call =>
          simp only [Inserting.step, hw, Option.some.injEq] at h
          exact ⟨_, _, h.symm⟩

theorem Inserting.pcs_step_of_ne {n : Nat} {s t : Inserting n} {a : InsertAction n} {w : Fin n}
    (hne : w ≠ a.worker) (h : s.step a = some t) : t.pcs w = s.pcs w := by
  rcases Inserting.exists_moved h with ⟨table, pc, rfl⟩
  exact Inserting.pcs_moved_of_ne hne _ _

/-- What one access of `mac_table_insert` does: the table, and where the worker is then. -/
theorem Inserting.step_step {n : Nat} {s t : Inserting n} {w : Fin n} {calls : List InsertCall}
    (htable : s.table.Intact calls) (hpc : (s.pcs w).Sound s.table calls)
    (h : s.step (.step w) = some t) :
    ∃ table pc, t = s.moved w table pc ∧ table.Extends s.table ∧ table.Intact calls ∧
      pc.Sound table calls := by
  cases hw : s.pcs w with
  | idle => simp [Inserting.step, hw] at h
  | walking call entry =>
      rw [hw] at hpc
      cases entry with
      | none =>
          simp only [Inserting.step, hw, Option.some.injEq] at h
          exact ⟨_, _, h.symm, extends_create, htable.create hpc.1, hpc.1, holds_create⟩
      | some addr =>
          have hin : s.table.InBucket call.idx addr := hpc.2 addr rfl
          by_cases hmatch : (s.table.entries addr).Matches call.mac call.vlan = true
          · simp only [Inserting.step, hw, hmatch, if_true, Option.some.injEq] at h
            exact ⟨_, _, h.symm, Extends.refl _, htable, hpc.1, hin.1,
              HashEntry.key_of_matches _ hmatch⟩
          · simp only [Inserting.step, hw, hmatch, Bool.false_eq_true, if_false,
              Option.some.injEq] at h
            refine ⟨_, _, h.symm, Extends.refl _, htable, hpc.1, ?_⟩
            exact fun addr' hnext => (htable.links _ addr hin addr' hnext).1
  | storePort call addr =>
      rw [hw] at hpc
      simp only [Inserting.step, hw, Option.some.injEq] at h
      have hext : (s.table.setEntry addr { s.table.entries addr with port := call.port }).Extends
          s.table := extends_setEntry rfl id
      have hport : PortStored calls (s.table.entries addr).key call.port :=
        ⟨call, hpc.1, hpc.2.2.symm, rfl⟩
      exact ⟨_, _, h.symm, hext, htable.setEntry rfl hport (htable.last_seen addr hpc.2.1), hpc.1,
        hext.holds hpc.2⟩
  | storeLastSeen call addr =>
      rw [hw] at hpc
      simp only [Inserting.step, hw, Option.some.injEq] at h
      have hext : (s.table.setEntry addr { s.table.entries addr with last_seen := call.now }).Extends
          s.table := extends_setEntry rfl id
      have hnow : TimeStored calls (s.table.entries addr).key call.now :=
        ⟨call, hpc.1, hpc.2.2.symm, rfl⟩
      exact ⟨_, _, h.symm, hext, htable.setEntry rfl (htable.port addr hpc.2.1) hnow, trivial⟩
  | storeHead call addr =>
      rw [hw] at hpc
      simp only [Inserting.step, hw, Option.some.injEq] at h
      exact ⟨_, _, h.symm, extends_setHead, htable.setHead hpc.2.inBucket, trivial⟩
  | addSize call =>
      simp only [Inserting.step, hw, Option.some.injEq] at h
      exact ⟨_, _, h.symm, ⟨le_refl _, fun _ _ => rfl, fun _ _ => rfl, fun _ _ h => h⟩,
        ⟨htable.heads, htable.links, htable.port, htable.last_seen⟩, trivial⟩

namespace MacTableUsers

variable {n : Nat} {s t : MacTableUsers n} {w : Fin n} {calls : List InsertCall}

theorem lookups_moved_self (table : SharedMacTable) (pc : LookupPc) :
    (s.moved w table pc).lookups w = pc :=
  Function.update_self _ _ _

theorem lookups_moved_of_ne {w' : Fin n} (h : w' ≠ w) (table : SharedMacTable) (pc : LookupPc) :
    (s.moved w table pc).lookups w' = s.lookups w' :=
  Function.update_of_ne h _ _

/-- What one access of `mac_table_lookup` does: the table, and where the worker is then. -/
theorem lookupStep_cases (htable : s.table.Intact calls)
    (hpc : (s.lookups w).Sound s.table calls) (h : s.lookupStep w = some t) :
    ∃ table pc, t = s.moved w table pc ∧ table.Extends s.table ∧ table.Intact calls ∧
      pc.Sound table calls := by
  cases hw : s.lookups w with
  | idle => simp [lookupStep, hw] at h
  | returned call port => simp [lookupStep, hw] at h
  | walking call entry =>
      rw [hw] at hpc
      cases entry with
      | none =>
          simp only [lookupStep, hw, Option.some.injEq] at h
          exact ⟨_, _, h.symm, Extends.refl _, htable, Or.inl rfl⟩
      | some addr =>
          have hin : s.table.InBucket call.idx addr := hpc addr rfl
          by_cases hmatch : ((s.table.entries addr).Matches call.mac call.vlan &&
              (s.table.entries addr).valid) = true
          · simp only [lookupStep, hw, hmatch, if_true, Option.some.injEq] at h
            exact ⟨_, _, h.symm, Extends.refl _, htable, hin.1,
              HashEntry.key_of_matches _ (Bool.and_eq_true_iff.1 hmatch).1⟩
          · simp only [lookupStep, hw, hmatch, Bool.false_eq_true, if_false, Option.some.injEq] at h
            refine ⟨_, _, h.symm, Extends.refl _, htable, ?_⟩
            exact fun addr' hnext => (htable.links _ addr hin addr' hnext).1
  | loadLastSeen call addr =>
      rw [hw] at hpc
      have hnow : TimeStored calls call.key (s.table.entries addr).last_seen := by
        rw [← hpc.2]
        exact htable.last_seen addr hpc.1
      by_cases hold : call.now - (s.table.entries addr).last_seen > ENTRY_TTL
      · simp only [lookupStep, hw, hold, if_true, Option.some.injEq] at h
        exact ⟨_, _, h.symm, Extends.refl _, htable, hpc, _, hnow, hold⟩
      · simp only [lookupStep, hw, hold, if_false, Option.some.injEq] at h
        exact ⟨_, _, h.symm, Extends.refl _, htable, hpc, _, hnow, Nat.le_of_not_lt hold⟩
  | storeValid call addr =>
      rw [hw] at hpc
      simp only [lookupStep, hw, Option.some.injEq] at h
      refine ⟨_, _, h.symm, extends_setEntry rfl (fun hvalid => by cases hvalid), ?_,
        Or.inl rfl⟩
      exact htable.setEntry rfl (htable.port addr hpc.1.1) (htable.last_seen addr hpc.1.1)
  | loadPort call addr =>
      rw [hw] at hpc
      simp only [lookupStep, hw, Option.some.injEq] at h
      have hport : PortStored calls call.key (s.table.entries addr).port := by
        rw [← hpc.1.2]
        exact htable.port addr hpc.1.1
      exact ⟨_, _, h.symm, Extends.refl _, htable, Or.inr ⟨hport, hpc.2⟩⟩

/-- A step of a lookup moves its own worker only. -/
theorem lookupStep_moved (h : s.lookupStep w = some t) : ∃ table pc, t = s.moved w table pc := by
  cases hw : s.lookups w with
  | idle | returned call port => simp [lookupStep, hw] at h
  | walking call entry =>
      cases entry with
      | none =>
          simp only [lookupStep, hw, Option.some.injEq] at h
          exact ⟨_, _, h.symm⟩
      | some addr =>
          simp only [lookupStep, hw] at h
          split at h <;> exact ⟨_, _, (Option.some.inj h).symm⟩
  | loadLastSeen call addr =>
      simp only [lookupStep, hw] at h
      split at h <;> exact ⟨_, _, (Option.some.inj h).symm⟩
  | storeValid call addr | loadPort call addr =>
      simp only [lookupStep, hw, Option.some.injEq] at h
      exact ⟨_, _, h.symm⟩

theorem lookupStep_of_ne {w' : Fin n} (hne : w ≠ w') (h : s.lookupStep w' = some t) :
    t.inserting.pcs w = s.inserting.pcs w ∧ t.lookups w = s.lookups w := by
  rcases lookupStep_moved h with ⟨table, pc, rfl⟩
  exact ⟨rfl, lookups_moved_of_ne hne _ _⟩

theorem subset_recordInserts (s : MacTableUsers n) (a : UseAction n) (t : MacTableUsers n)
    (calls : List InsertCall) : calls ⊆ recordInserts s a t calls := by
  cases a with
  | insert a =>
      cases a with
      | call w call => exact List.subset_cons_self call calls
      | step w => exact List.Subset.refl calls
  | lookup w call => exact List.Subset.refl calls
  | lookupStep w => exact List.Subset.refl calls

/-- What holds in every state of every run. -/
structure Consistent (x : MacTableUsers n × List InsertCall) : Prop where
  table : x.1.table.Intact x.2
  inserts : ∀ w, (x.1.inserting.pcs w).Sound x.1.table x.2
  lookups : ∀ w, (x.1.lookups w).Sound x.1.table x.2

theorem consistent_start : Consistent (start n SharedMacTable.zeroed, []) where
  table := intact_zeroed
  inserts := fun _ => trivial
  lookups := fun _ => trivial

theorem Consistent.mono (hs : Consistent (s, calls)) {table : SharedMacTable}
    {calls' : List InsertCall} (hext : table.Extends s.table) (hsub : calls ⊆ calls') (w : Fin n) :
    (s.inserting.pcs w).Sound table calls' ∧ (s.lookups w).Sound table calls' :=
  ⟨(hs.inserts w).mono hext hsub, (hs.lookups w).mono hext hsub⟩

theorem step_insert {a : InsertAction n} :
    s.step (.insert a) = some t ↔ (s.lookups a.worker).Busy = false ∧
      ∃ inserting, s.inserting.step a = some inserting ∧
        t = { s with inserting := inserting } := by
  cases hbusy : (s.lookups a.worker).Busy <;> simp [step, hbusy, eq_comm]

theorem step_lookup {call : LookupCall} :
    s.step (.lookup w call) = some t ↔ (s.lookups w).Busy = false ∧ s.inserting.pcs w = .idle ∧
      t = s.moved w s.table (.walking call (s.table.buckets call.idx)) := by
  cases hbusy : (s.lookups w).Busy with
  | true => simp [step, hbusy]
  | false => by_cases hidle : s.inserting.pcs w = .idle <;> simp [step, hbusy, hidle, eq_comm]

theorem Consistent.insert_call (hs : Consistent (s, calls)) {call : InsertCall}
    (h : s.step (.insert (.call w call)) = some t) : Consistent (t, call :: calls) := by
  rcases step_insert.1 h with ⟨_, inserting, hstep, rfl⟩
  cases hw : s.inserting.pcs w with
  | idle =>
      simp only [Inserting.step, hw, Option.some.injEq] at hstep
      have hsub : calls ⊆ call :: calls := List.subset_cons_self call calls
      rw [← hstep]
      refine ⟨hs.table.mono hsub, ?_, fun w' => (hs.mono (Extends.refl _) hsub w').2⟩
      intro w'
      by_cases hw' : w' = w
      · subst hw'
        rw [Inserting.pcs_moved_self]
        exact ⟨List.mem_cons_self, hs.table.heads call.idx⟩
      · rw [Inserting.pcs_moved_of_ne hw']
        exact (hs.mono (Extends.refl _) hsub w').1
  | walking call entry => simp [Inserting.step, hw] at hstep
  | storePort call entry => simp [Inserting.step, hw] at hstep
  | storeLastSeen call entry => simp [Inserting.step, hw] at hstep
  | storeHead call entry => simp [Inserting.step, hw] at hstep
  | addSize call => simp [Inserting.step, hw] at hstep

theorem Consistent.insert_step (hs : Consistent (s, calls))
    (h : s.step (.insert (.step w)) = some t) : Consistent (t, calls) := by
  rcases step_insert.1 h with ⟨_, inserting, hstep, rfl⟩
  rcases Inserting.step_step hs.table (hs.inserts w) hstep with ⟨table, pc, rfl, hext, htable, hpc⟩
  refine ⟨htable, ?_, fun w' => (hs.mono hext (List.Subset.refl _) w').2⟩
  intro w'
  by_cases hw' : w' = w
  · subst hw'
    rw [Inserting.pcs_moved_self]
    exact hpc
  · rw [Inserting.pcs_moved_of_ne hw']
    exact (hs.mono hext (List.Subset.refl _) w').1

/-- A worker in `mac_table_lookup` that moves on. -/
theorem Consistent.moved (hs : Consistent (s, calls)) {table : SharedMacTable} {pc : LookupPc}
    (hext : table.Extends s.table) (htable : table.Intact calls) (hpc : pc.Sound table calls) :
    Consistent (s.moved w table pc, calls) := by
  refine ⟨htable, fun w' => (hs.mono hext (List.Subset.refl _) w').1, ?_⟩
  intro w'
  by_cases hw' : w' = w
  · subst hw'
    rw [lookups_moved_self]
    exact hpc
  · rw [lookups_moved_of_ne hw']
    exact (hs.mono hext (List.Subset.refl _) w').2

theorem Consistent.step {x y : MacTableUsers n × List InsertCall} {a : UseAction n}
    (hs : Consistent x) (h : ((macTableUsers n).withHistory recordInserts).step x a = some y) :
    Consistent y := by
  rcases x with ⟨s, calls⟩
  rcases y with ⟨t, calls'⟩
  rcases Machine.withHistory_step.1 h with ⟨hstep, hcalls⟩
  simp only at hstep hcalls
  subst hcalls
  cases a with
  | insert a =>
      cases a with
      | call w call => exact hs.insert_call hstep
      | step w => exact hs.insert_step hstep
  | lookup w call =>
      rcases step_lookup.1 hstep with ⟨_, _, rfl⟩
      exact hs.moved (Extends.refl _) hs.table (hs.table.heads call.idx)
  | lookupStep w =>
      rcases lookupStep_cases hs.table (hs.lookups w) hstep with ⟨table, pc, rfl, hext, htable, hpc⟩
      exact hs.moved hext htable hpc

theorem consistent_after {t : MacTableUsers n × List InsertCall} {acts : List (UseAction n)}
    (h : ((macTableUsers n).withHistory recordInserts).run (start n SharedMacTable.zeroed, []) acts =
      some t) : Consistent t :=
  Machine.invariant_run Consistent (fun _ _ _ hs hstep => hs.step hstep) consistent_start h

/-- Whatever the interleaving, the chains end and hold entries of their buckets only, and a lookup
answers -1 or a port that an insertion has stored for its address; it then has seen the time of an
insertion that is not too old. -/
theorem lookup_sound_of_run {t : MacTableUsers n × List InsertCall} {acts : List (UseAction n)}
    (h : ((macTableUsers n).withHistory recordInserts).run (start n SharedMacTable.zeroed, []) acts =
      some t) :
    (∀ idx, Linked t.1.table.next (t.1.table.buckets idx) (t.1.table.chain idx) ∧
      ∀ addr ∈ t.1.table.chain idx, (t.1.table.entries addr).idx = idx) ∧
    ∀ w call port, t.1.lookups w = .returned call port → port ≠ -1 →
      (∃ stored ∈ t.2, stored.key = call.key ∧ stored.port = port) ∧
      ∃ seen ∈ t.2, seen.key = call.key ∧ call.now - seen.now ≤ ENTRY_TTL := by
  have hs := consistent_after h
  refine ⟨fun idx => ?_, ?_⟩
  · rcases hs.table.linked_chain idx with ⟨hlinked, hall⟩
    exact ⟨hlinked, fun addr haddr => (hall addr haddr).2⟩
  · intro w call port hw hport
    have hsound := hs.lookups w
    rw [hw] at hsound
    rcases hsound with hnone | ⟨hstored, now, ⟨seen, hmem, hkey, rfl⟩, hfresh⟩
    · exact absurd hnone hport
    · exact ⟨hstored, seen, hmem, hkey, hfresh⟩

/-- A lookup of the address that the other worker inserts, while the entry is being linked. -/
def firstLookup : LookupCall :=
  { mac := Inserting.firstCall.mac
    vlan := 1
    now := 150 }

theorem lookup_sound_of_run_racing :
    ∃ t : MacTableUsers 2 × List InsertCall, ((macTableUsers 2).withHistory recordInserts).run
        (start 2 SharedMacTable.zeroed, [])
        [.insert (.call 0 Inserting.firstCall), .insert (.step 0), .insert (.step 0),
          .lookup 1 firstLookup, .lookupStep 1, .insert (.step 0), .lookupStep 1, .lookupStep 1] =
          some t ∧
      t.1.lookups 1 = .returned firstLookup 1 ∧
      ∃ stored ∈ t.2, stored.key = firstLookup.key ∧ stored.port = 1 := by
  have heval : (((macTableUsers 2).withHistory recordInserts).run
      (start 2 SharedMacTable.zeroed, [])
      [.insert (.call 0 Inserting.firstCall), .insert (.step 0), .insert (.step 0),
        .lookup 1 firstLookup, .lookupStep 1, .insert (.step 0), .lookupStep 1, .lookupStep 1]).map
        (fun x => x.1.lookups 1) = some (.returned firstLookup 1) := by
    decide +kernel
  rcases Option.map_eq_some_iff.1 heval with ⟨t, hrun, hreturned⟩
  have hsound := (lookup_sound_of_run hrun).2 1 firstLookup 1 hreturned (by decide)
  exact ⟨t, hrun, hreturned, hsound.1⟩

end MacTableUsers

end ControlPlane
end EVdeSwitch
