import EVdeSwitch.ControlPlane.ConcurrentInserts

/-!
# Serialisation — when concurrent insertions are serialisable

A call takes effect when it stores the port of the entry that it has found, or the head of its
chain.  The invariant compares the shared table with what the calls that have taken effect make of
the table one after the other.  They agree on the chains; on what an entry says they agree as soon
as no worker is at work on its key any more.
-/

namespace EVdeSwitch
namespace ControlPlane

open EVdeSwitch.Lib

namespace SharedMacTable

variable {table table' : SharedMacTable}

/-- A table that the insertions may start from. -/
structure Sound (table : SharedMacTable) : Prop where
  linked : ∀ idx, Linked table.next (table.buckets idx) (table.chain idx)
  allocated : ∀ idx, ∀ addr ∈ table.chain idx, addr < table.allocated
  keysOnce : table.toMacTable.KeysOnce
  placed : table.toMacTable.Placed
  counted : table.toMacTable.Counted

theorem sound_zeroed : zeroed.Sound where
  linked := fun _ => rfl
  allocated := by
    intro idx addr haddr
    cases haddr
  keysOnce := MacTable.keysOnce_create
  placed := MacTable.placed_create
  counted := MacTable.counted_create

/-- A chain has at most as many records as `calloc` has given out. -/
theorem chain_eq {idx : Fin HASH_TABLE_SIZE} {addrs : List Addr}
    (h : Linked table.next (table.buckets idx) addrs) (hlt : ∀ addr ∈ addrs, addr < table.allocated) :
    table.chain idx = addrs := by
  refine h.follow_eq ?_
  -- the addresses of a chain are different, and `calloc` has given out so many
  have hsub : addrs ⊆ List.range table.allocated :=
    fun addr haddr => List.mem_range.2 (hlt addr haddr)
  simpa using (h.nodup.subperm hsub).length_le

theorem keys_toMacTable (idx : Fin HASH_TABLE_SIZE) :
    (table.toMacTable.buckets idx).map HashEntry.key = table.keys idx := by
  simp [toMacTable, keys, Function.comp_def]

/-- What is true of the local variables of a worker. -/
def Allows (table : SharedMacTable) : InsertPc → Prop
  | .idle | .walking _ none | .addSize _ => True
  | .walking call (some addr) => addr ∈ table.chain call.idx
  | .storePort call addr | .storeLastSeen call addr =>
      addr ∈ table.chain call.idx ∧ (table.entries addr).key = call.key
  | .storeHead call addr =>
      addr < table.allocated ∧ (∀ idx, addr ∉ table.chain idx) ∧ table.entries addr = call.entry

/-- A step of another worker, in which the chains may grow. -/
theorem Allows.mono {pc : InsertPc} (h : table.Allows pc)
    (hsub : ∀ idx, ∀ addr ∈ table.chain idx,
      addr ∈ table'.chain idx ∧ (table'.entries addr).key = (table.entries addr).key)
    (halloc : table.allocated ≤ table'.allocated)
    (hown : ∀ call addr, pc = .storeHead call addr → addr < table.allocated →
      (∀ idx, addr ∉ table.chain idx) →
        (∀ idx, addr ∉ table'.chain idx) ∧ table'.entries addr = table.entries addr) :
    table'.Allows pc := by
  -- only the record that is not linked yet could be linked by somebody else
  cases pc with
  | idle => trivial
  | walking call entry =>
      cases entry with
      | none => trivial
      | some addr => exact (hsub _ _ h).1
  | storePort call addr => exact ⟨(hsub _ _ h.1).1, (hsub _ _ h.1).2.trans h.2⟩
  | storeLastSeen call addr => exact ⟨(hsub _ _ h.1).1, (hsub _ _ h.1).2.trans h.2⟩
  | storeHead call addr =>
      rcases h with ⟨hlt, hnew, hentry⟩
      rcases hown call addr rfl hlt hnew with ⟨hnew', hsame⟩
      exact ⟨Nat.lt_of_lt_of_le hlt halloc, hnew', hsame.trans hentry⟩
  | addSize call => trivial

end SharedMacTable

namespace Inserting

open SharedMacTable

variable {n : Nat}

/-- The calls `effects` have taken effect, in this order, the newest first. -/
structure Reflects (t₀ : MacTable) (s : Inserting n) (calls effects : List InsertCall) : Prop where
  linked : ∀ idx, Linked s.table.next (s.table.buckets idx) (s.table.chain idx)
  allocated : ∀ idx, ∀ addr ∈ s.table.chain idx, addr < s.table.allocated
  keys : ∀ idx, s.table.keys idx = ((t₀.insertAll effects).buckets idx).map HashEntry.key
  entry : ∀ idx, ∀ addr ∈ s.table.chain idx, ∃ entry,
    (t₀.insertAll effects).entryAt (s.table.entries addr).key = some entry ∧
      (s.table.entries addr).valid = entry.valid ∧
      (s.table.entries addr = entry ∨ ∃ w, (s.pcs w).AtWork (s.table.entries addr).key)
  size : s.table.size + ∑ w, (s.pcs w).uncounted = (t₀.insertAll effects).size
  calls : (calls : Multiset InsertCall) = effects + ∑ w, (s.pcs w).pending
  pcs : ∀ w, s.table.Allows (s.pcs w)
  own : ∀ w w' call call' addr, s.pcs w = .storeHead call addr →
    s.pcs w' = .storeHead call' addr → w = w'

variable {t₀ : MacTable} {s : Inserting n} {calls effects : List InsertCall} {w : Fin n}
  {call : InsertCall} {addr : Addr}

theorem pcs_moved_self (table : SharedMacTable) (pc : InsertPc) :
    (s.moved w table pc).pcs w = pc :=
  Function.update_self _ _ _

theorem pcs_moved_of_ne {w' : Fin n} (h : w' ≠ w) (table : SharedMacTable) (pc : InsertPc) :
    (s.moved w table pc).pcs w' = s.pcs w' :=
  Function.update_of_ne h _ _

theorem reflects_start {table : SharedMacTable} (h : table.Sound) :
    Reflects table.toMacTable (start n table) [] [] where
  linked := h.linked
  allocated := h.allocated
  keys := fun idx => (keys_toMacTable idx).symm
  entry := by
    intro idx addr haddr
    have hmem : table.entries addr ∈ table.toMacTable.buckets idx := List.mem_map_of_mem haddr
    exact ⟨_, MacTable.entryAt_of_mem h.keysOnce h.placed hmem, rfl, Or.inl rfl⟩
  size := by simp [start, toMacTable, InsertPc.uncounted]
  calls := by simp [start, InsertPc.pending]
  pcs := fun _ => trivial
  own := by
    intro w w' call call' addr hw
    cases hw

namespace Reflects

/-- What the variables of a worker say of the table. -/
theorem allows (hs : s.Reflects t₀ calls effects) {pc : InsertPc} (hpc : s.pcs w = pc) :
    s.table.Allows pc := by
  rw [← hpc]
  exact hs.pcs w

/-- Other workers keep what is true of their variables, if it stays true of the table. -/
theorem pcs_moved (hs : s.Reflects t₀ calls effects) {table : SharedMacTable} {pc : InsertPc}
    (hpc : table.Allows pc)
    (hother : ∀ w', w' ≠ w → s.table.Allows (s.pcs w') → table.Allows (s.pcs w')) :
    ∀ w', (s.moved w table pc).table.Allows ((s.moved w table pc).pcs w') := by
  intro w'
  by_cases hw : w' = w
  · subst hw
    rw [pcs_moved_self]
    exact hpc
  · rw [pcs_moved_of_ne hw]
    exact hother w' hw (hs.pcs w')

theorem own_moved (hs : s.Reflects t₀ calls effects) {table : SharedMacTable} {pc : InsertPc}
    (hpc : ∀ call addr, pc = .storeHead call addr →
      ∀ w' call', s.pcs w' ≠ .storeHead call' addr) :
    ∀ w₁ w₂ call₁ call₂ addr, (s.moved w table pc).pcs w₁ = .storeHead call₁ addr →
      (s.moved w table pc).pcs w₂ = .storeHead call₂ addr → w₁ = w₂ := by
  intro w₁ w₂ call₁ call₂ addr h₁ h₂
  -- of two workers with one record at most one has moved
  by_cases hw₁ : w₁ = w
  · by_cases hw₂ : w₂ = w
    · rw [hw₁, hw₂]
    · rw [hw₁, pcs_moved_self] at h₁
      rw [pcs_moved_of_ne hw₂] at h₂
      exact absurd h₂ (hpc call₁ addr h₁ w₂ call₂)
  · by_cases hw₂ : w₂ = w
    · rw [hw₂, pcs_moved_self] at h₂
      rw [pcs_moved_of_ne hw₁] at h₁
      exact absurd h₁ (hpc call₂ addr h₂ w₁ call₁)
    · rw [pcs_moved_of_ne hw₁] at h₁
      rw [pcs_moved_of_ne hw₂] at h₂
      exact hs.own w₁ w₂ call₁ call₂ addr h₁ h₂

/-- A worker that moves on is still at work on what it was at work on. -/
theorem atWork_moved {k : MacKey} {table : SharedMacTable} {pc : InsertPc}
    (hpc : (s.pcs w).AtWork k → pc.AtWork k) (h : ∃ w', (s.pcs w').AtWork k) :
    ∃ w', ((s.moved w table pc).pcs w').AtWork k := by
  rcases h with ⟨w', hwork⟩
  by_cases hw : w' = w
  · subst hw
    refine ⟨w', ?_⟩
    rw [pcs_moved_self]
    exact hpc hwork
  · refine ⟨w', ?_⟩
    rw [pcs_moved_of_ne hw]
    exact hwork

/-- What a step adds to the counter and to the entries not counted yet, the effects add. -/
theorem size_moved (hs : s.Reflects t₀ calls effects) {table : SharedMacTable} {pc : InsertPc}
    {effects' : List InsertCall}
    (hsize : table.size + pc.uncounted + (t₀.insertAll effects).size =
      s.table.size + (s.pcs w).uncounted + (t₀.insertAll effects').size) :
    table.size + ∑ w', ((s.moved w table pc).pcs w').uncounted =
      (t₀.insertAll effects').size := by
  have hsum := sum_update_add InsertPc.uncounted s.pcs w pc
  have hold := hs.size
  simp only [moved]
  omega

/-- What stays true of a record that the step does not write. -/
theorem entry_moved (hs : s.Reflects t₀ calls effects) {table : SharedMacTable} {pc : InsertPc}
    {effects' : List InsertCall} {idx : Fin HASH_TABLE_SIZE} (haddr : addr ∈ s.table.chain idx)
    (hsame : table.entries addr = s.table.entries addr)
    (heffects : (t₀.insertAll effects').entryAt (s.table.entries addr).key =
      (t₀.insertAll effects).entryAt (s.table.entries addr).key)
    (hwork : (s.pcs w).AtWork (s.table.entries addr).key →
      pc.AtWork (s.table.entries addr).key) :
    ∃ entry, (t₀.insertAll effects').entryAt (table.entries addr).key = some entry ∧
      (table.entries addr).valid = entry.valid ∧
      (table.entries addr = entry ∨
        ∃ w', ((s.moved w table pc).pcs w').AtWork (table.entries addr).key) := by
  rcases hs.entry idx addr haddr with ⟨entry, hentry, hvalid, hagree⟩
  rw [hsame]
  exact ⟨entry, heffects.trans hentry, hvalid, hagree.imp_right (atWork_moved hwork)⟩

/-- A step that writes at most the counter. -/
theorem quiet (hs : s.Reflects t₀ calls effects) {size : Nat} {pc : InsertPc}
    {calls' : List InsertCall} (hpc : s.table.Allows pc)
    (hhead : ∀ call addr, pc ≠ .storeHead call addr)
    (hwork : ∀ k, (s.pcs w).AtWork k → pc.AtWork k)
    (hsize : size + pc.uncounted = s.table.size + (s.pcs w).uncounted)
    (hcalls : (calls' : Multiset InsertCall) + (s.pcs w).pending = calls + pc.pending) :
    (s.moved w { s.table with size := size } pc).Reflects t₀ calls' effects where
  linked := hs.linked
  allocated := hs.allocated
  keys := hs.keys
  entry := by
    intro idx addr haddr
    exact hs.entry_moved haddr rfl rfl (hwork _)
  size := hs.size_moved (congrArg (· + (t₀.insertAll effects).size) hsize)
  calls := by
    -- the sum over all workers changes by what the one worker changes
    have hsum := sum_update_add InsertPc.pending s.pcs w pc
    refine add_right_cancel (b := (s.pcs w).pending) ?_
    calc
      (calls' : Multiset InsertCall) + (s.pcs w).pending
          = effects + ∑ w', (s.pcs w').pending + pc.pending := by rw [hcalls, hs.calls]
      _ = effects + ∑ w', ((s.moved w _ pc).pcs w').pending + (s.pcs w).pending := by
          rw [add_assoc, ← hsum, ← add_assoc]
          rfl
  pcs := hs.pcs_moved hpc fun _ _ h => h
  own := hs.own_moved fun call addr heq => absurd heq (hhead call addr)

/-- What a step that takes effect does to the list of effects. -/
theorem calls_effect (hs : s.Reflects t₀ calls effects) {table : SharedMacTable} {pc : InsertPc}
    (hpending : (s.pcs w).pending = {call}) (hpc : pc.pending = 0) :
    (calls : Multiset InsertCall) =
      (call :: effects : List InsertCall) + ∑ w', ((s.moved w table pc).pcs w').pending := by
  have hsum := sum_update_add InsertPc.pending s.pcs w pc
  rw [hpending, hpc, add_zero] at hsum
  calc
    (calls : Multiset InsertCall)
        = effects + (∑ w', ((s.moved w table pc).pcs w').pending + {call}) := by
          rw [hs.calls, ← hsum]
          rfl
    _ = {call} + (effects + ∑ w', ((s.moved w table pc).pcs w').pending) := by
          rw [← add_assoc, add_comm]
    _ = (call :: effects : List InsertCall) + ∑ w', ((s.moved w table pc).pcs w').pending := by
          rw [← add_assoc, Multiset.singleton_add, Multiset.cons_coe]

/-- A step that takes no effect does nothing to the calls, in whatever order their effects are. -/
theorem calls_moved (hs : s.Reflects t₀ calls effects) {table : SharedMacTable} {pc : InsertPc}
    {effects' : List InsertCall} (hperm : effects'.Perm effects)
    (hpending : pc.pending = (s.pcs w).pending) :
    (calls : Multiset InsertCall) =
      effects' + ∑ w', ((s.moved w table pc).pcs w').pending := by
  have hsum := sum_update_add InsertPc.pending s.pcs w pc
  rw [hpending] at hsum
  rw [hs.calls, ← Multiset.coe_eq_coe.2 hperm]
  exact congrArg ((effects' : Multiset InsertCall) + ·) (add_right_cancel hsum).symm

/-- The entry of a record is the one that the other table has under its key. -/
theorem entryAt_key (hs : s.Reflects t₀ calls effects)
    (haddr : addr ∈ s.table.chain call.idx ∧ (s.table.entries addr).key = call.key) :
    ∃ entry, (t₀.insertAll effects).entryAt call.key = some entry ∧
      (s.table.entries addr).valid = entry.valid := by
  rcases hs.entry _ addr haddr.1 with ⟨entry, hentry, hvalid, _⟩
  rw [haddr.2] at hentry
  exact ⟨entry, hentry, hvalid⟩

/-- A key has one record at most. -/
theorem addr_unique (hs : s.Reflects t₀ calls effects) (hkeys : t₀.KeysOnce) (hplaced : t₀.Placed)
    {idx idx' : Fin HASH_TABLE_SIZE} {addr' : Addr} (haddr : addr ∈ s.table.chain idx)
    (haddr' : addr' ∈ s.table.chain idx')
    (hkey : (s.table.entries addr').key = (s.table.entries addr).key) : addr' = addr := by
  -- the key says in which bucket the record is, and there it is once
  have hidx : ∀ {idx addr}, addr ∈ s.table.chain idx →
      hashMac (s.table.entries addr).key.1 (s.table.entries addr).key.2 = idx := by
    intro idx addr haddr
    have hmem : (s.table.entries addr).key ∈ s.table.keys idx := List.mem_map_of_mem haddr
    rw [hs.keys idx] at hmem
    exact MacTable.placed_iff_keys.1 (MacTable.placed_insertAll hkeys hplaced effects) idx _ hmem
  have hsame : idx' = idx := by rw [← hidx haddr', ← hidx haddr, hkey]
  subst hsame
  have hnodup : (s.table.keys idx').Nodup := by
    rw [hs.keys idx']
    exact MacTable.keysOnce_insertAll hkeys effects idx'
  exact List.inj_on_of_nodup_map hnodup haddr' haddr hkey

/-! ### The steps that write -/

theorem chain_create (hs : s.Reflects t₀ calls effects) (call : InsertCall)
    (idx : Fin HASH_TABLE_SIZE) : (s.table.create call).chain idx = s.table.chain idx := by
  refine chain_eq ((hs.linked idx).congr fun addr haddr => ?_) fun addr haddr => ?_
  · exact Function.update_of_ne (Nat.ne_of_lt (hs.allocated idx addr haddr)) _ _
  · exact Nat.lt_succ_of_lt (hs.allocated idx addr haddr)

theorem entries_create {table : SharedMacTable} (haddr : addr < table.allocated)
    (call : InsertCall) : (table.create call).entries addr = table.entries addr :=
  Function.update_of_ne (Nat.ne_of_lt haddr) _ _

/-- No chain leads to a new record. -/
theorem create (hs : s.Reflects t₀ calls effects) (hpc : s.pcs w = .walking call none) :
    (s.moved w (s.table.create call) (.storeHead call s.table.allocated)).Reflects t₀ calls
      effects where
  linked := by
    intro idx
    change Linked _ _ ((s.table.create call).chain idx)
    rw [hs.chain_create call idx]
    exact (hs.linked idx).congr fun addr haddr =>
      Function.update_of_ne (Nat.ne_of_lt (hs.allocated idx addr haddr)) _ _
  allocated := by
    intro idx addr haddr
    change addr ∈ (s.table.create call).chain idx at haddr
    rw [hs.chain_create call idx] at haddr
    exact Nat.lt_succ_of_lt (hs.allocated idx addr haddr)
  keys := by
    intro idx
    refine Eq.trans ?_ (hs.keys idx)
    change ((s.table.create call).chain idx).map _ = _
    rw [hs.chain_create call idx]
    refine List.map_congr_left fun addr haddr => ?_
    exact congrArg HashEntry.key (entries_create (hs.allocated idx addr haddr) call)
  entry := by
    intro idx addr haddr
    change addr ∈ (s.table.create call).chain idx at haddr
    rw [hs.chain_create call idx] at haddr
    refine hs.entry_moved haddr (entries_create (hs.allocated idx addr haddr) call) rfl ?_
    rw [hpc]
    exact id
  size := hs.size_moved (by rw [hpc]; rfl)
  calls := hs.calls_moved (List.Perm.refl _) (by rw [hpc]; rfl)
  pcs := by
    -- the new record is the worker's own; the variables of the others say nothing of it
    refine hs.pcs_moved ⟨Nat.lt_succ_self _, ?_, Function.update_self _ _ _⟩ ?_
    · intro idx hmem
      rw [hs.chain_create call idx] at hmem
      exact Nat.lt_irrefl _ (hs.allocated idx _ hmem)
    · intro w' _ hallows
      refine hallows.mono ?_ (Nat.le_succ _) ?_
      · intro idx addr haddr
        rw [hs.chain_create call idx, entries_create (hs.allocated idx addr haddr)]
        exact ⟨haddr, rfl⟩
      · intro call' addr _ hlt hnew
        refine ⟨fun idx => ?_, entries_create hlt call⟩
        rw [hs.chain_create call idx]
        exact hnew idx
  own := by
    refine hs.own_moved ?_
    intro call' addr heq w' call'' hw'
    -- a record that another worker is about to link has been given out before
    cases heq
    exact Nat.lt_irrefl _ (hs.allows hw').1

theorem key_setEntry {table : SharedMacTable} {entry : HashEntry}
    (hkey : entry.key = (table.entries addr).key) (addr' : Addr) :
    ((table.setEntry addr entry).entries addr').key = (table.entries addr').key := by
  by_cases haddr : addr' = addr
  · subst haddr
    exact (congrArg HashEntry.key (Function.update_self _ _ _)).trans hkey
  · exact congrArg HashEntry.key (Function.update_of_ne haddr _ _)

theorem valid_setEntry {table : SharedMacTable} {entry : HashEntry}
    (hvalid : entry.valid = (table.entries addr).valid) (addr' : Addr) :
    ((table.setEntry addr entry).entries addr').valid = (table.entries addr').valid := by
  by_cases haddr : addr' = addr
  · subst haddr
    exact (congrArg HashEntry.valid (Function.update_self _ _ _)).trans hvalid
  · exact congrArg HashEntry.valid (Function.update_of_ne haddr _ _)

theorem keys_setEntry {table : SharedMacTable} {entry : HashEntry}
    (hkey : entry.key = (table.entries addr).key) (idx : Fin HASH_TABLE_SIZE) :
    (table.setEntry addr entry).keys idx = table.keys idx :=
  List.map_congr_left fun addr' _ => key_setEntry hkey addr'

/-- Writing to an entry of a chain does not concern the variables of the workers. -/
theorem allows_setEntry {table : SharedMacTable} {entry : HashEntry} {idx : Fin HASH_TABLE_SIZE}
    (haddr : addr ∈ table.chain idx) (hkey : entry.key = (table.entries addr).key) {pc : InsertPc}
    (h : table.Allows pc) : (table.setEntry addr entry).Allows pc := by
  refine h.mono (fun idx addr' hmem => ⟨hmem, key_setEntry hkey addr'⟩) (Nat.le_refl _) ?_
  intro call addr' _ _ hnew
  refine ⟨hnew, Function.update_of_ne ?_ _ _⟩
  rintro rfl
  exact hnew _ haddr

/-- The call takes effect on the entry that it has found. -/
theorem storePort (hs : s.Reflects t₀ calls effects) (hkeys : t₀.KeysOnce)
    (hpc : s.pcs w = .storePort call addr) :
    (s.moved w (s.table.setEntry addr { s.table.entries addr with port := call.port })
      (.storeLastSeen call addr)).Reflects t₀ calls (call :: effects) := by
  have hallows : addr ∈ s.table.chain call.idx ∧ (s.table.entries addr).key = call.key :=
    hs.allows hpc
  have hold := MacTable.keysOnce_insertAll hkeys effects
  rcases hs.entryAt_key hallows with ⟨found, hfound, _⟩
  have hwrite : HashEntry.key { s.table.entries addr with port := call.port } =
      (s.table.entries addr).key := rfl
  have hflag : HashEntry.valid { s.table.entries addr with port := call.port } =
      (s.table.entries addr).valid := rfl
  refine
    { linked := hs.linked
      allocated := hs.allocated
      keys := ?_
      entry := ?_
      size := ?_
      calls := ?_
      pcs := ?_
      own := ?_ }
  · intro idx
    rw [MacTable.insertAll_cons, MacTable.keys_insert_of_entryAt_some hold hfound, ← hs.keys idx]
    exact keys_setEntry hwrite idx
  · intro idx addr' haddr'
    by_cases hkey : (s.table.entries addr').key = call.key
    · -- the worker is going to store the time
      change ∃ entry, (t₀.insertAll (call :: effects)).entryAt
          ((s.table.setEntry addr _).entries addr').key = _ ∧
        ((s.table.setEntry addr _).entries addr').valid = _ ∧
        ((s.table.setEntry addr _).entries addr' = _ ∨
          ∃ w', ((s.moved w _ _).pcs w').AtWork ((s.table.setEntry addr _).entries addr').key)
      rw [key_setEntry hwrite addr']
      rcases hs.entry idx addr' haddr' with ⟨entry, hentry, hvalid, _⟩
      rw [hkey] at hentry ⊢
      refine ⟨_, MacTable.entryAt_insert_self hold _ _, ?_, Or.inr ⟨w, ?_⟩⟩
      · have hall : (s.table.entries addr').valid =
            ((t₀.insertAll effects).entryAt call.key).all HashEntry.valid := by
          rw [hentry]
          exact hvalid
        exact (valid_setEntry hflag addr').trans hall
      · rw [pcs_moved_self]
        rfl
    · have hne : addr' ≠ addr := by
        rintro rfl
        exact hkey hallows.2
      refine hs.entry_moved haddr' (Function.update_of_ne hne _ _) ?_ ?_
      · rw [MacTable.insertAll_cons]
        exact MacTable.entryAt_insert_of_ne hold hkey _ _
      · rw [hpc]
        exact id
  · refine hs.size_moved ?_
    -- the key is known, so the call adds no entry
    rw [MacTable.insertAll_cons, MacTable.size_insert_of_entryAt_some hold hfound, hpc]
    rfl
  · exact hs.calls_effect (by rw [hpc]; rfl) rfl
  · refine hs.pcs_moved ⟨hallows.1, (key_setEntry hwrite addr).trans hallows.2⟩ ?_
    exact fun w' _ h => allows_setEntry hallows.1 hwrite h
  · refine hs.own_moved ?_
    intro call' addr' heq
    cases heq

/-- A call that has begun has taken effect, or a worker is at work on it. -/
theorem mem_effects_or_atWork (hs : s.Reflects t₀ calls effects) (hcall : call ∈ calls) :
    call ∈ effects ∨ ∃ w, call ∈ (s.pcs w).pending := by
  have hmem : call ∈ (effects : Multiset InsertCall) + ∑ w, (s.pcs w).pending := by
    rw [← hs.calls]
    exact Multiset.mem_coe.2 hcall
  rcases Multiset.mem_add.1 hmem with heffect | hpending
  · exact Or.inl (Multiset.mem_coe.1 heffect)
  · rcases Multiset.mem_sum.1 hpending with ⟨w, _, hw⟩
    exact Or.inr ⟨w, hw⟩

/-- Some other order of the effects leads to the same chains, and to an entry for the key that
says what a given call says. -/
theorem exists_reorder (hkeys : t₀.KeysOnce) (hcall : call ∈ effects) :
    ∃ effects' : List InsertCall, effects'.Perm effects ∧
      (∀ idx, ((t₀.insertAll effects').buckets idx).map HashEntry.key =
        ((t₀.insertAll effects).buckets idx).map HashEntry.key) ∧
      (t₀.insertAll effects').size = (t₀.insertAll effects).size ∧
      (t₀.insertAll effects').entryAt call.key =
        some { call.entry with valid := (t₀.entryAt call.key).all HashEntry.valid } ∧
      ∀ k, k ≠ call.key → (t₀.insertAll effects').entryAt k = (t₀.insertAll effects).entryAt k := by
  -- the call may be taken for the newest one of its key
  rcases exists_perm_findKey InsertCall.key hcall with
    ⟨effects', hperm, hmap, hself, hother⟩
  rcases MacTable.keys_insertAll_congr hkeys hmap with ⟨hchains, hsize⟩
  refine ⟨effects', hperm, hchains, hsize, ?_, ?_⟩
  · rw [MacTable.entryAt_insertAll hkeys, hself]
  · intro k hk
    rw [MacTable.entryAt_insertAll hkeys, MacTable.entryAt_insertAll hkeys, hother k hk]

/-- The flag of an entry is that of the first table, whatever the calls were. -/
theorem valid_of_mem (hs : s.Reflects t₀ calls effects) (hkeys : t₀.KeysOnce)
    (hcall : call ∈ effects)
    (haddr : addr ∈ s.table.chain call.idx ∧ (s.table.entries addr).key = call.key) :
    (s.table.entries addr).valid = (t₀.entryAt call.key).all HashEntry.valid := by
  rcases hs.entryAt_key haddr with ⟨entry, hentry, hvalid⟩
  rw [MacTable.entryAt_insertAll hkeys] at hentry
  -- as a call on the key has taken effect, there is a newest one
  cases hfind : findKey InsertCall.key call.key effects with
  | none => exact absurd (List.mem_map_of_mem hcall) (findKey_eq_none.1 hfind)
  | some newest =>
      rw [hfind] at hentry
      cases hentry
      exact hvalid

/-- The last worker on a key leaves the entry as the call `last` would. -/
theorem storeLastSeen_last (hs : s.Reflects t₀ calls effects) (hkeys : t₀.KeysOnce)
    (hplaced : t₀.Placed) (hpc : s.pcs w = .storeLastSeen call addr) {last : InsertCall}
    (hlast : last ∈ effects) (hkey : last.key = call.key)
    (hport : last.port = (s.table.entries addr).port) (hnow : last.now = call.now) :
    ∃ effects', (s.moved w
      (s.table.setEntry addr { s.table.entries addr with last_seen := call.now }) .idle).Reflects
        t₀ calls effects' := by
  have hallows : addr ∈ s.table.chain call.idx ∧ (s.table.entries addr).key = call.key :=
    hs.allows hpc
  have hidx : last.idx = call.idx := by
    rcases Prod.mk.inj hkey with ⟨hmac, hvlan⟩
    rw [InsertCall.idx, InsertCall.idx, hmac, hvlan]
  have hvalid : (s.table.entries addr).valid = (t₀.entryAt last.key).all HashEntry.valid :=
    hs.valid_of_mem hkeys hlast ⟨hidx ▸ hallows.1, hallows.2.trans hkey.symm⟩
  rcases exists_reorder hkeys hlast with ⟨effects', hperm, hchains, hsize, hself, hother⟩
  have hwrite : HashEntry.key { s.table.entries addr with last_seen := call.now } =
      (s.table.entries addr).key := rfl
  -- the port is that of `last` already, and now the time is as well
  have hfinal : ({ s.table.entries addr with last_seen := call.now } : HashEntry) =
      { last.entry with valid := (t₀.entryAt last.key).all HashEntry.valid } := by
    rcases Prod.mk.inj (hallows.2.trans hkey.symm) with ⟨hmac, hvlan⟩
    rw [← hvalid, InsertCall.entry, ← hmac, ← hvlan, hport, hnow]
  refine ⟨effects',
    { linked := hs.linked
      allocated := hs.allocated
      keys := ?_
      entry := ?_
      size := ?_
      calls := ?_
      pcs := ?_
      own := ?_ }⟩
  · intro idx
    rw [hchains idx, ← hs.keys idx]
    exact keys_setEntry hwrite idx
  · intro idx addr' haddr'
    by_cases haddr : addr' = addr
    · subst haddr
      change ∃ entry, (t₀.insertAll effects').entryAt
          ((s.table.setEntry addr' _).entries addr').key = _ ∧
        ((s.table.setEntry addr' _).entries addr').valid = _ ∧
        ((s.table.setEntry addr' _).entries addr' = _ ∨
          ∃ w', ((s.moved w _ _).pcs w').AtWork ((s.table.setEntry addr' _).entries addr').key)
      have hnew : (s.table.setEntry addr'
          { s.table.entries addr' with last_seen := call.now }).entries addr' =
            { last.entry with valid := (t₀.entryAt last.key).all HashEntry.valid } :=
        (Function.update_self _ _ _).trans hfinal
      rw [hnew]
      exact ⟨_, hself, rfl, Or.inl rfl⟩
    -- a record of another key; this one has no second record
    · have hne : (s.table.entries addr').key ≠ last.key := by
        intro heq
        refine haddr (hs.addr_unique hkeys hplaced hallows.1 haddr' ?_)
        rw [heq, hkey, hallows.2]
      refine hs.entry_moved haddr' (Function.update_of_ne haddr _ _) (hother _ hne) ?_
      intro hwork
      rw [hpc] at hwork
      exact absurd (hwork.symm.trans hkey.symm) hne
  · refine hs.size_moved ?_
    rw [hsize, hpc]
    rfl
  · exact hs.calls_moved hperm (by rw [hpc]; rfl)
  · exact hs.pcs_moved trivial fun w' _ h => allows_setEntry hallows.1 hwrite h
  · refine hs.own_moved ?_
    intro call' addr' heq
    cases heq

/-- Another worker is still at work on the key. -/
theorem storeLastSeen_other (hs : s.Reflects t₀ calls effects)
    (hpc : s.pcs w = .storeLastSeen call addr) {w' : Fin n} (hw' : w' ≠ w)
    (hwork : (s.pcs w').AtWork call.key) :
    (s.moved w (s.table.setEntry addr { s.table.entries addr with last_seen := call.now })
      .idle).Reflects t₀ calls effects := by
  have hallows : addr ∈ s.table.chain call.idx ∧ (s.table.entries addr).key = call.key :=
    hs.allows hpc
  have hwrite : HashEntry.key { s.table.entries addr with last_seen := call.now } =
      (s.table.entries addr).key := rfl
  have hflag : HashEntry.valid { s.table.entries addr with last_seen := call.now } =
      (s.table.entries addr).valid := rfl
  refine
    { linked := hs.linked
      allocated := hs.allocated
      keys := fun idx => (keys_setEntry hwrite idx).trans (hs.keys idx)
      entry := ?_
      size := ?_
      calls := ?_
      pcs := ?_
      own := ?_ }
  · intro idx addr' haddr'
    by_cases hkey : (s.table.entries addr').key = call.key
    · -- the other worker will store the time
      change ∃ entry, (t₀.insertAll effects).entryAt
          ((s.table.setEntry addr _).entries addr').key = _ ∧
        ((s.table.setEntry addr _).entries addr').valid = _ ∧
        ((s.table.setEntry addr _).entries addr' = _ ∨
          ∃ w', ((s.moved w _ _).pcs w').AtWork ((s.table.setEntry addr _).entries addr').key)
      rw [key_setEntry hwrite addr', valid_setEntry hflag addr']
      rcases hs.entry idx addr' haddr' with ⟨entry, hentry, hvalid, _⟩
      refine ⟨entry, hentry, hvalid, Or.inr ⟨w', ?_⟩⟩
      rw [pcs_moved_of_ne hw', hkey]
      exact hwork
    · have hne : addr' ≠ addr := by
        rintro rfl
        exact hkey hallows.2
      refine hs.entry_moved haddr' (Function.update_of_ne hne _ _) rfl ?_
      intro hwork'
      rw [hpc] at hwork'
      exact absurd hwork'.symm hkey
  · exact hs.size_moved (by rw [hpc]; rfl)
  · exact hs.calls_moved (List.Perm.refl _) (by rw [hpc]; rfl)
  · exact hs.pcs_moved trivial fun w' _ h => allows_setEntry hallows.1 hwrite h
  · refine hs.own_moved ?_
    intro call' addr' heq
    cases heq

/-- The new head leads to the record, and the record to the old chain. -/
theorem linked_setHead (hs : s.Reflects t₀ calls effects)
    (hhead : s.table.buckets call.idx = s.table.next addr) :
    Linked s.table.next ((s.table.setHead call.idx addr).buckets call.idx)
      (addr :: s.table.chain call.idx) := by
  refine ⟨Function.update_self _ _ _, ?_⟩
  rw [← hhead]
  exact hs.linked call.idx

theorem chain_setHead_self (hs : s.Reflects t₀ calls effects)
    (hhead : s.table.buckets call.idx = s.table.next addr) (haddr : addr < s.table.allocated) :
    (s.table.setHead call.idx addr).chain call.idx = addr :: s.table.chain call.idx := by
  refine chain_eq (hs.linked_setHead hhead) ?_
  intro addr' haddr'
  rcases List.mem_cons.1 haddr' with rfl | hmem
  · exact haddr
  · exact hs.allocated _ _ hmem

/-- The chains of the other buckets stay. -/
theorem chain_setHead_of_ne {table : SharedMacTable} {idx idx' : Fin HASH_TABLE_SIZE}
    (hidx : idx' ≠ idx) : (table.setHead idx addr).chain idx' = table.chain idx' :=
  congrArg (follow table.next table.allocated) (Function.update_of_ne hidx _ _)

theorem mem_chain_setHead (hs : s.Reflects t₀ calls effects)
    (hhead : s.table.buckets call.idx = s.table.next addr) (haddr : addr < s.table.allocated)
    {idx : Fin HASH_TABLE_SIZE} {addr' : Addr}
    (haddr' : addr' ∈ (s.table.setHead call.idx addr).chain idx) :
    addr' = addr ∨ addr' ∈ s.table.chain idx := by
  by_cases hidx : idx = call.idx
  · subst hidx
    rw [hs.chain_setHead_self hhead haddr] at haddr'
    exact List.mem_cons.1 haddr'
  · rw [chain_setHead_of_ne hidx] at haddr'
    exact Or.inr haddr'

theorem mem_chain_setHead_of_mem (hs : s.Reflects t₀ calls effects)
    (hhead : s.table.buckets call.idx = s.table.next addr) (haddr : addr < s.table.allocated)
    {idx : Fin HASH_TABLE_SIZE} {addr' : Addr} (hmem : addr' ∈ s.table.chain idx) :
    addr' ∈ (s.table.setHead call.idx addr).chain idx := by
  by_cases hidx : idx = call.idx
  · subst hidx
    rw [hs.chain_setHead_self hhead haddr]
    exact List.mem_cons_of_mem _ hmem
  · rw [chain_setHead_of_ne hidx]
    exact hmem

theorem linked_chain_setHead (hs : s.Reflects t₀ calls effects)
    (hhead : s.table.buckets call.idx = s.table.next addr) (haddr : addr < s.table.allocated)
    (idx : Fin HASH_TABLE_SIZE) :
    Linked s.table.next ((s.table.setHead call.idx addr).buckets idx)
      ((s.table.setHead call.idx addr).chain idx) := by
  by_cases hidx : idx = call.idx
  · subst hidx
    rw [hs.chain_setHead_self hhead haddr]
    exact hs.linked_setHead hhead
  · have hbucket : (s.table.setHead call.idx addr).buckets idx = s.table.buckets idx :=
      Function.update_of_ne hidx _ _
    rw [chain_setHead_of_ne hidx, hbucket]
    exact hs.linked idx

theorem keys_setHead (hs : s.Reflects t₀ calls effects)
    (hhead : s.table.buckets call.idx = s.table.next addr) (haddr : addr < s.table.allocated)
    (hentry : s.table.entries addr = call.entry) (idx : Fin HASH_TABLE_SIZE) :
    (s.table.setHead call.idx addr).keys idx =
      if idx = call.idx then call.key :: s.table.keys idx else s.table.keys idx := by
  change ((s.table.setHead call.idx addr).chain idx).map _ = _
  by_cases hidx : idx = call.idx
  · subst hidx
    rw [hs.chain_setHead_self hhead haddr, if_pos rfl, List.map_cons]
    exact congrArg (· :: s.table.keys call.idx) (congrArg HashEntry.key hentry)
  · rw [chain_setHead_of_ne hidx, if_neg hidx]
    rfl

/-- A new head does not concern the variables of a worker that has another record. -/
theorem allows_setHead (hs : s.Reflects t₀ calls effects)
    (hhead : s.table.buckets call.idx = s.table.next addr) (haddr : addr < s.table.allocated)
    {pc : InsertPc} (hpc : ∀ call', pc ≠ .storeHead call' addr) (h : s.table.Allows pc) :
    (s.table.setHead call.idx addr).Allows pc := by
  refine h.mono ?_ (Nat.le_refl _) ?_
  · intro idx addr' hmem
    exact ⟨hs.mem_chain_setHead_of_mem hhead haddr hmem, rfl⟩
  · intro call' addr' hpc' _ hnew
    refine ⟨fun idx haddr' => ?_, rfl⟩
    rcases hs.mem_chain_setHead hhead haddr haddr' with rfl | hmem
    · exact hpc call' hpc'
    · exact hnew idx hmem

/-- The call takes effect when it stores the head that leads to its entry. -/
theorem storeHead (hs : s.Reflects t₀ calls effects) (hkeys : t₀.KeysOnce)
    (hpc : s.pcs w = .storeHead call addr)
    (hhead : s.table.buckets call.idx = s.table.next addr)
    (habsent : call.key ∉ s.table.keys call.idx) :
    (s.moved w (s.table.setHead call.idx addr) (.addSize call)).Reflects t₀ calls
      (call :: effects) := by
  have hallows : addr < s.table.allocated ∧ (∀ idx, addr ∉ s.table.chain idx) ∧
      s.table.entries addr = call.entry := hs.allows hpc
  have hold := MacTable.keysOnce_insertAll hkeys effects
  have hnone : (t₀.insertAll effects).entryAt call.key = none := by
    rw [MacTable.entryAt_eq_none_iff, ← hs.keys]
    exact habsent
  refine
    { linked := hs.linked_chain_setHead hhead hallows.1
      allocated := ?_
      keys := ?_
      entry := ?_
      size := ?_
      calls := ?_
      pcs := ?_
      own := ?_ }
  -- the records of the new chain are those of the old one and the new record
  · intro idx addr' haddr'
    rcases hs.mem_chain_setHead hhead hallows.1 haddr' with rfl | hmem
    · exact hallows.1
    · exact hs.allocated idx addr' hmem
  · intro idx
    rw [MacTable.insertAll_cons, MacTable.keys_insert_of_entryAt_none hold hnone, ← hs.keys idx]
    exact hs.keys_setHead hhead hallows.1 hallows.2.2 idx
  · intro idx addr' haddr'
    rcases hs.mem_chain_setHead hhead hallows.1 haddr' with rfl | hmem
    · change ∃ entry, (t₀.insertAll (call :: effects)).entryAt (s.table.entries addr').key = _ ∧
        (s.table.entries addr').valid = _ ∧ (s.table.entries addr' = _ ∨
          ∃ w', ((s.moved w _ _).pcs w').AtWork (s.table.entries addr').key)
      rw [MacTable.insertAll_cons, hallows.2.2]
      -- a call that finds no entry writes all fields of its own
      have hnone' : (t₀.insertAll effects).entryAt (call.mac, call.vlan) = none := hnone
      refine ⟨_, MacTable.entryAt_insert_self hold _ _, ?_, Or.inl ?_⟩
      · rw [hnone']
        rfl
      · rw [hnone']
        rfl
    · have hkey : (s.table.entries addr').key ≠ call.key := by
        intro heq
        rcases hs.entry idx addr' hmem with ⟨entry, hentry, _, _⟩
        rw [heq, hnone] at hentry
        cases hentry
      refine hs.entry_moved hmem rfl (MacTable.entryAt_insert_of_ne hold hkey _ _) ?_
      intro hwork
      rw [hpc] at hwork
      exact absurd hwork.symm hkey
  · refine hs.size_moved ?_
    rw [MacTable.insertAll_cons, MacTable.size_insert_of_entryAt_none hold hnone, hpc]
    exact Nat.add_right_comm s.table.size 1 _
  · exact hs.calls_effect (by rw [hpc]; rfl) rfl
  · refine hs.pcs_moved trivial fun w' hw' hallows' => ?_
    refine hs.allows_setHead hhead hallows.1 ?_ hallows'
    intro call' hpc'
    exact hw' (hs.own w' w call' call addr hpc' hpc)
  · refine hs.own_moved ?_
    intro call' addr' heq
    cases heq

end Reflects

/-! ## All runs -/

/-- The table is as the calls that have taken effect, and no others, would have left it. -/
def Reflected (t₀ : MacTable) (x : Inserting n × List InsertCall) : Prop :=
  ∃ effects, Reflects t₀ x.1 x.2 effects

theorem Reflects.step_call {t : Inserting n} (hs : s.Reflects t₀ calls effects)
    (h : s.step (.call w call) = some t) : Reflected t₀ (t, call :: calls) := by
  cases hpc : s.pcs w with
  | idle =>
      simp only [step, hpc, Option.some.injEq] at h
      subst h
      refine ⟨effects, hs.quiet ?_ (by simp) (by simp [hpc, InsertPc.AtWork]) (by rw [hpc]; rfl) ?_⟩
      -- the walk starts at the head of the chain
      · have hlinked := (hs.linked call.idx).head_eq
        cases hhead : s.table.buckets call.idx with
        | none => trivial
        | some addr =>
            rw [hhead] at hlinked
            exact List.mem_of_head? hlinked.symm
      · rw [hpc]
        exact (add_zero _).trans (add_comm {call} (calls : Multiset InsertCall))
  | _ => simp [step, hpc] at h

theorem Reflects.step_step {t : Inserting n} (hs : s.Reflects t₀ calls effects)
    (hkeys : t₀.KeysOnce) (hplaced : t₀.Placed)
    (hserial : SerialAt s.table calls (fun k => ∃ w', w' ≠ w ∧ (s.pcs w').AtWork k) (s.pcs w))
    (h : s.step (.step w) = some t) : Reflected t₀ (t, calls) := by
  have hallows := hs.pcs w
  cases hpc : s.pcs w with
  | idle => simp [step, hpc] at h
  | walking call entry =>
      rw [hpc] at hallows
      cases entry with
      | none =>
          simp only [step, hpc, Option.some.injEq] at h
          subst h
          exact ⟨effects, hs.create hpc⟩
      | some addr =>
          simp only [step, hpc] at h
          split_ifs at h with hmatch
          · -- the entry is found
            cases h
            refine ⟨effects, hs.quiet ?_ (by simp) (by rw [hpc]; exact fun _ => id)
              (by rw [hpc]; rfl) (by rw [hpc]; rfl)⟩
            exact ⟨hallows, HashEntry.key_of_matches _ hmatch⟩
          -- the walk goes on to the next record of the chain
          · cases h
            refine ⟨effects, hs.quiet ?_ (by simp) (by rw [hpc]; exact fun _ => id)
              (by rw [hpc]; rfl) (by rw [hpc]; rfl)⟩
            rcases (hs.linked call.idx).exists_suffix hallows with ⟨rest, hsuffix, hrest⟩
            cases hnext : s.table.next addr with
            | none => trivial
            | some addr' =>
                rw [hnext] at hrest
                have hmem : addr' ∈ rest := List.mem_of_head? hrest.head_eq.symm
                exact hsuffix.subset (List.mem_cons_of_mem _ hmem)
  | storePort call addr =>
      simp only [step, hpc, Option.some.injEq] at h
      subst h
      exact ⟨call :: effects, hs.storePort hkeys hpc⟩
  | storeLastSeen call addr =>
      simp only [step, hpc, Option.some.injEq] at h
      subst h
      rw [hpc] at hserial
      -- somebody else is at work on the key, or a call says what the record then has
      rcases hserial with ⟨w', hw', hwork⟩ | ⟨last, hlast, hkey, hport, hnow⟩
      · exact ⟨effects, hs.storeLastSeen_other hpc hw' hwork⟩
      · rcases hs.mem_effects_or_atWork hlast with heffect | ⟨w', hpending⟩
        · exact hs.storeLastSeen_last hkeys hplaced hpc heffect hkey hport hnow
        · -- the call with this time is still to take effect
          have hw' : w' ≠ w := by
            rintro rfl
            rw [hpc] at hpending
            exact absurd hpending (Multiset.notMem_zero last)
          have hwork : (s.pcs w').AtWork call.key := by
            rw [← hkey]
            exact InsertPc.atWork_of_mem_pending hpending
          exact ⟨effects, hs.storeLastSeen_other hpc hw' hwork⟩
  | storeHead call addr =>
      simp only [step, hpc, Option.some.injEq] at h
      subst h
      rw [hpc] at hserial
      exact ⟨call :: effects, hs.storeHead hkeys hpc hserial.1 hserial.2⟩
  | addSize call =>
      simp only [step, hpc, Option.some.injEq] at h
      subst h
      refine ⟨effects, hs.quiet trivial (by simp) (by simp [hpc, InsertPc.AtWork]) ?_
        (by rw [hpc]; rfl)⟩
      rw [hpc]
      rfl

theorem Reflected.step (hkeys : t₀.KeysOnce) (hplaced : t₀.Placed)
    {x y : Inserting n × List InsertCall} {a : InsertAction n} (hx : Reflected t₀ x)
    (hserial : Serial x a) (h : ((inserting n).withHistory recordCalls).step x a = some y) :
    Reflected t₀ y := by
  rcases Machine.withHistory_step.1 h with ⟨hstep, hcalls⟩
  rcases x with ⟨s, calls⟩
  rcases y with ⟨t, calls'⟩
  rcases hx with ⟨effects, hs⟩
  cases a with
  | call w call =>
      have hnew : calls' = call :: calls := hcalls
      rw [hnew]
      exact hs.step_call hstep
  | step w =>
      have hsame : calls' = calls := hcalls
      rw [hsame]
      exact hs.step_step hkeys hplaced hserial hstep

/-- Once no worker is at work, the shared table is that of the calls. -/
theorem Reflects.toMacTable_eq (hs : s.Reflects t₀ calls effects) (hkeys : t₀.KeysOnce)
    (hplaced : t₀.Placed) (hidle : ∀ w, s.pcs w = .idle) :
    effects.Perm calls ∧ s.table.toMacTable = t₀.insertAll effects := by
  -- nobody is at work on any key, so every record is that of its key
  have hnone : ∀ k, ¬ ∃ w, (s.pcs w).AtWork k := by
    rintro k ⟨w, hw⟩
    rw [hidle w] at hw
    exact hw
  constructor
  · have hcalls := hs.calls
    simp only [hidle, InsertPc.pending, Finset.sum_const_zero, add_zero] at hcalls
    exact (Multiset.coe_eq_coe.1 hcalls).symm
  · have hsize := hs.size
    simp only [hidle, InsertPc.uncounted, Finset.sum_const_zero, add_zero] at hsize
    have hplaced' := MacTable.placed_insertAll hkeys hplaced effects
    have hbuckets : s.table.toMacTable.buckets = (t₀.insertAll effects).buckets := by
      funext idx
      have hsame := (keys_toMacTable idx).trans (hs.keys idx)
      refine eq_of_findKey hsame ?_ ?_
      · rw [hsame]
        exact MacTable.keysOnce_insertAll hkeys effects idx
      · intro e he
        -- equal keys in equal order, and for each key the same entry
        rcases List.mem_map.1 he with ⟨addr, haddr, rfl⟩
        rcases hs.entry idx addr haddr with ⟨entry, hentry, _, hagree⟩
        have heq : s.table.entries addr = entry := hagree.resolve_right (hnone _)
        have hidx : hashMac (s.table.entries addr).key.1 (s.table.entries addr).key.2 = idx := by
          refine MacTable.placed_iff_keys.1 hplaced' idx _ ?_
          rw [← hsame]
          exact List.mem_map_of_mem he
        rw [MacTable.entryAt, hidx] at hentry
        rw [hentry, heq]
    calc
      s.table.toMacTable
          = { buckets := s.table.toMacTable.buckets, size := s.table.size } := rfl
      _ = t₀.insertAll effects := by rw [hbuckets, hsize]

/-- The table that the calls leave is one that others may start from. -/
theorem Reflects.sound (hs : s.Reflects t₀ calls effects) (hkeys : t₀.KeysOnce)
    (hplaced : t₀.Placed) (hcounted : t₀.Counted) (hidle : ∀ w, s.pcs w = .idle) :
    s.table.Sound := by
  have htable := (hs.toMacTable_eq hkeys hplaced hidle).2
  refine
    { linked := hs.linked
      allocated := hs.allocated
      keysOnce := ?_
      placed := ?_
      counted := ?_ }
  · rw [htable]
    exact MacTable.keysOnce_insertAll hkeys effects
  · rw [htable]
    exact MacTable.placed_insertAll hkeys hplaced effects
  · rw [htable]
    exact MacTable.counted_insertAll hkeys hcounted effects

/-- The calls might have run one after the other. -/
structure Serialised (t₀ table : SharedMacTable) (calls : List InsertCall) : Prop where
  order : ∃ order : List InsertCall, order.Perm calls ∧
    table.toMacTable = order.foldl
      (fun t call => macTableInsert t call.mac call.vlan call.port call.now) t₀.toMacTable
  once : ∀ call ∈ calls, (table.keys call.idx).count call.key = 1
  size : table.size = ∑ idx, (table.chain idx).length

/-- If every step meets `Serial`, the calls that any number of workers have made are serialisable
as soon as they are done. -/
theorem serialised_of_run {t₀ : SharedMacTable} (hsound : t₀.Sound) {acts : List (InsertAction n)}
    (hserial : ((inserting n).withHistory recordCalls).Guarded Serial (start n t₀, []) acts)
    (hrun : ((inserting n).withHistory recordCalls).run (start n t₀, []) acts = some (s, calls))
    (hidle : ∀ w, s.pcs w = .idle) : Serialised t₀ s.table calls := by
  -- the invariant is that some order of effects explains the table
  have hstart : Reflected t₀.toMacTable (start n t₀, []) := ⟨[], reflects_start hsound⟩
  have hend : Reflected t₀.toMacTable (s, calls) :=
    Machine.invariant_run_guarded (Reflected t₀.toMacTable)
      (fun _ _ _ hx ha hstep => hx.step hsound.keysOnce hsound.placed ha hstep) hstart hserial hrun
  rcases hend with ⟨effects, hs⟩
  rcases hs.toMacTable_eq hsound.keysOnce hsound.placed hidle with ⟨hperm, htable⟩
  have hkeysOnce := MacTable.keysOnce_insertAll hsound.keysOnce effects
  refine ⟨⟨effects.reverse, effects.reverse_perm.trans hperm, ?_⟩, ?_, ?_⟩
  · rw [List.foldl_reverse]
    exact htable
  · intro call hcall
    have hmem : call.key ∈ s.table.keys call.idx := by
      rw [hs.keys call.idx]
      exact MacTable.key_mem_insertAll hsound.keysOnce (hperm.mem_iff.2 hcall)
    refine List.count_eq_one_of_mem ?_ hmem
    rw [hs.keys call.idx]
    exact hkeysOnce call.idx
  · have hend := hs.sound hsound.keysOnce hsound.placed hsound.counted hidle
    simpa [MacTable.Counted, toMacTable] using hend.counted

/-- Two addresses in one bucket. -/
def firstCall : InsertCall :=
  { mac := #v[2, 0, 0, 0, 0, 1]
    vlan := 1
    port := 1
    now := 100 }

def secondCall : InsertCall :=
  { mac := #v[2, 0, 0, 0, 26, 67]
    vlan := 1
    port := 2
    now := 100 }

/-- The second worker has seen the empty bucket, but links its entry after the first is done. -/
theorem serialised_of_run_overlapping :
    ∃ s : Inserting 2, ((inserting 2).withHistory recordCalls).run (start 2 zeroed, [])
        [.call 0 firstCall, .call 1 secondCall, .step 0, .step 0, .step 1, .step 1, .step 0,
          .step 1] = some (s, [secondCall, firstCall]) ∧
      Serialised zeroed s.table [secondCall, firstCall] := by
  have heval : (((inserting 2).withHistory recordCalls).run (start 2 zeroed, [])
      [.call 0 firstCall, .call 1 secondCall, .step 0, .step 0, .step 1, .step 1, .step 0,
        .step 1]).map (fun x => (x.1.pcs 0, x.1.pcs 1, x.2)) =
        some (.idle, .idle, [secondCall, firstCall]) := by
    decide +kernel
  have hserial : ((inserting 2).withHistory recordCalls).Guarded Serial (start 2 zeroed, [])
      [.call 0 firstCall, .call 1 secondCall, .step 0, .step 0, .step 1, .step 1, .step 0,
        .step 1] := by
    decide +kernel
  rcases Option.map_eq_some_iff.1 heval with ⟨⟨s, calls⟩, hrun, hobserve⟩
  simp only [Prod.mk.injEq] at hobserve
  rcases hobserve with ⟨hfirst, hsecond, rfl⟩
  have hidle : ∀ w, s.pcs w = .idle := by
    intro w
    match w with
    | 0 => exact hfirst
    | 1 => exact hsecond
  exact ⟨s, hrun, serialised_of_run sound_zeroed hserial hrun hidle⟩

/-- Both workers link their entries to the empty chain; the head that is stored first is lost. -/
theorem not_serialised_lost :
    ∃ s : Inserting 2, ((inserting 2).withHistory recordCalls).run (start 2 zeroed, [])
        [.call 0 firstCall, .call 1 secondCall, .step 0, .step 1, .step 0, .step 1, .step 0,
          .step 1] = some (s, [secondCall, firstCall]) ∧
      (∀ w, s.pcs w = .idle) ∧ ¬ Serialised zeroed s.table [secondCall, firstCall] := by
  have heval : (((inserting 2).withHistory recordCalls).run (start 2 zeroed, [])
      [.call 0 firstCall, .call 1 secondCall, .step 0, .step 1, .step 0, .step 1, .step 0,
        .step 1]).map (fun x =>
          (x.1.pcs 0, x.1.pcs 1, x.2, (x.1.table.keys firstCall.idx).count firstCall.key)) =
        some (.idle, .idle, [secondCall, firstCall], 0) := by
    decide +kernel
  rcases Option.map_eq_some_iff.1 heval with ⟨⟨s, calls⟩, hrun, hobserve⟩
  simp only [Prod.mk.injEq] at hobserve
  rcases hobserve with ⟨hfirst, hsecond, rfl, hcount⟩
  refine ⟨s, hrun, ?_, ?_⟩
  · intro w
    match w with
    | 0 => exact hfirst
    | 1 => exact hsecond
  · intro hserialised
    have honce := hserialised.once firstCall (by simp)
    rw [hcount] at honce
    cases honce

end Inserting

end ControlPlane
end EVdeSwitch
