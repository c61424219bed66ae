import EVdeSwitch.ControlPlane.HashTable
import EVdeSwitch.Lib.TimedMap

/-!
# MacTableRefinement — the MAC table against a timed map

Every history of insertions and lookups leaves, for each key, the entry of the last insertion.
Its flag tells whether the key has lapsed: `mac_table_lookup` clears the flag of an entry that it
finds too old, and `mac_table_insert` never sets it again when it refreshes the entry.  So the
table answers like a timed map for every key but the lapsed ones, which it has lost for good.
-/

namespace EVdeSwitch
namespace ControlPlane

open EVdeSwitch.Lib

abbrev MacOp : Type := TimedOp MacKey Int

namespace MacTable

def apply (table : MacTable) : MacOp → MacTable
  | .insert k port time => macTableInsert table k.1 k.2 port time
  | .lookup k time => (macTableLookup table k.1 k.2 time).2

/-- The table after a history of operations. -/
def replay (history : List MacOp) : MacTable :=
  history.foldl apply macTableCreate

@[simp] theorem replay_append_singleton (history : List MacOp) (op : MacOp) :
    replay (history ++ [op]) = apply (replay history) op := by
  simp [replay]

/-- What the table knows about the keys after a history. -/
structure Tracks (table : MacTable) (history : List MacOp) : Prop where
  keysOnce : table.KeysOnce
  entry : ∀ k, (table.entryAt k).map (fun entry => (entry.port, entry.last_seen)) =
    TimedMap.replay history k
  valid : ∀ k entry, table.entryAt k = some entry →
    (entry.valid = true ↔ ¬TimedMap.Lapsed ENTRY_TTL history k)

theorem tracks_create : Tracks macTableCreate [] where
  keysOnce := keysOnce_create
  entry := fun _ => rfl
  valid := by
    intro k entry h
    cases h

section Steps

variable {table : MacTable} {history : List MacOp}

theorem Tracks.entryAt_eq_none (ht : Tracks table history) {k : MacKey} :
    table.entryAt k = none ↔ TimedMap.replay history k = none := by
  rw [← ht.entry k, Option.map_eq_none_iff]

theorem Tracks.insert (ht : Tracks table history) (k : MacKey) (port : Int) (time : Nat) :
    Tracks (table.apply (.insert k port time)) (history ++ [.insert k port time]) where
  keysOnce := keysOnce_insert ht.keysOnce port time
  entry := by
    intro k'
    rw [TimedMap.replay_append_singleton]
    by_cases hk : k' = k
    · subst hk
      rw [TimedMap.apply_insert_self, apply, entryAt_insert_self ht.keysOnce]
      rfl
    · rw [TimedMap.apply_insert_of_ne _ _ _ hk, apply, entryAt_insert_of_ne ht.keysOnce hk]
      exact ht.entry k'
  valid := by
    intro k' entry h
    -- an insertion makes no key lapse, and revives none
    have hlapsed : TimedMap.Lapsed ENTRY_TTL (history ++ [.insert k port time]) k' ↔
        TimedMap.Lapsed ENTRY_TTL history k' := by
      simp [TimedMap.lapsed_append_singleton]
    rw [hlapsed]
    by_cases hk : k' = k
    · subst hk
      rw [apply, entryAt_insert_self ht.keysOnce] at h
      cases h
      -- a new entry has the flag, an old one keeps what it has
      cases hold : table.entryAt k' with
      | none =>
          have hnever : ¬TimedMap.Lapsed ENTRY_TTL history k' := by
            intro hl
            exact TimedMap.replay_ne_none_of_lapsed hl (ht.entryAt_eq_none.1 hold)
          simp [hnever]
      | some old => simpa [hold] using ht.valid k' old hold
    · rw [apply, entryAt_insert_of_ne ht.keysOnce hk] at h
      exact ht.valid k' entry h

theorem Tracks.lookup (ht : Tracks table history) (k : MacKey) (time : Nat) :
    Tracks (table.apply (.lookup k time)) (history ++ [.lookup k time]) where
  keysOnce := keysOnce_lookup ht.keysOnce time
  entry := by
    intro k'
    rw [TimedMap.replay_append_singleton, TimedMap.apply, ← ht.entry k', apply]
    by_cases hk : k' = k
    · subst hk
      rw [entryAt_lookup_self ht.keysOnce, Option.map_map]
      rfl
    · rw [entryAt_lookup_of_ne ht.keysOnce hk]
  valid := by
    intro k' entry h
    rw [TimedMap.lapsed_append_singleton]
    by_cases hk : k' = k
    · subst hk
      rw [apply, entryAt_lookup_self ht.keysOnce, Option.map_eq_some_iff] at h
      rcases h with ⟨old, hold, rfl⟩
      have hentry : TimedMap.replay history k' = some (old.port, old.last_seen) := by
        rw [← ht.entry k', hold]
        rfl
      -- the flag survives if it was set and the lookup is in time
      calc
        decide (Live old time) = true
            ↔ old.valid = true ∧ time - old.last_seen ≤ ENTRY_TTL := decide_eq_true_iff
        _ ↔ ¬TimedMap.Lapsed ENTRY_TTL history k' ∧
              ¬TimedMap.Overdue ENTRY_TTL (TimedMap.replay history) k' time := by
            rw [ht.valid k' old hold, TimedMap.overdue_iff hentry, gt_iff_lt, Nat.not_lt]
        _ ↔ _ := by
            simp [not_or]
    · rw [apply, entryAt_lookup_of_ne ht.keysOnce hk] at h
      simp [ht.valid k' entry h, Ne.symm hk]

theorem Tracks.apply (ht : Tracks table history) (op : MacOp) :
    Tracks (table.apply op) (history ++ [op]) := by
  cases op with
  | insert k port time => exact ht.insert k port time
  | lookup k time => exact ht.lookup k time

end Steps

theorem tracks_replay (history : List MacOp) : Tracks (replay history) history := by
  induction history using List.reverseRecOn with
  | nil => exact tracks_create
  | append_singleton history op ih =>
      rw [replay_append_singleton]
      exact ih.apply op

/-- The answer after a history: that of the timed map, except for the keys that have lapsed. -/
theorem lookup_replay (history : List MacOp) (k : MacKey) (t : Nat)
    [Decidable (TimedMap.Lapsed ENTRY_TTL history k)] :
    (macTableLookup (replay history) k.1 k.2 t).1 =
      if TimedMap.Lapsed ENTRY_TTL history k then -1
      else (TimedMap.lookup ENTRY_TTL (TimedMap.replay history) k t).getD (-1) := by
  have ht := tracks_replay history
  rw [lookup_fst ht.keysOnce]
  cases hentry : (replay history).entryAt k with
  | none => simp [TimedMap.lookup_of_none (ht.entryAt_eq_none.1 hentry)]
  | some entry =>
      have hsome : TimedMap.replay history k = some (entry.port, entry.last_seen) := by
        rw [← ht.entry k, hentry]
        rfl
      have hvalid := ht.valid k entry hentry
      by_cases hlapsed : TimedMap.Lapsed ENTRY_TTL history k
      · simp [Live, hvalid, hlapsed]
      · have hflag : entry.valid = true := hvalid.2 hlapsed
        by_cases hle : t - entry.last_seen ≤ ENTRY_TTL
        · have hlive : Live entry t := ⟨hflag, hle⟩
          simp [hlive, hlapsed, TimedMap.lookup_of_le hsome hle]
        · have hdead : ¬Live entry t := fun hlive => hle hlive.2
          simp [hdead, hlapsed, TimedMap.lookup_of_gt hsome (Nat.not_le.1 hle)]

/-! ## When the table answers like the timed map -/

/-- The table answers a lookup like the timed map, unless the key has lapsed and was inserted
again recently enough. -/
theorem lookup_eq_timedMap_iff (history : List MacOp) (k : MacKey) (t : Nat) :
    (macTableLookup (replay history) k.1 k.2 t).1 =
        (TimedMap.lookup ENTRY_TTL (TimedMap.replay history) k t).getD (-1) ↔
      ¬(TimedMap.Lapsed ENTRY_TTL history k ∧
        ∃ port s, TimedMap.replay history k = some (port, s) ∧ t - s ≤ ENTRY_TTL ∧
          port ≠ -1) := by
  classical
  rw [lookup_replay]
  by_cases hlapsed : TimedMap.Lapsed ENTRY_TTL history k
  · rw [if_pos hlapsed]
    -- the table says -1, so the map has to say it too
    cases hanswer : TimedMap.lookup ENTRY_TTL (TimedMap.replay history) k t with
    | none =>
        constructor
        · rintro _ ⟨_, port, s, hentry, hle, _⟩
          rw [TimedMap.lookup_of_le hentry hle] at hanswer
          cases hanswer
        · intro _
          rfl
    | some port =>
        rcases TimedMap.lookup_eq_some_iff.1 hanswer with ⟨s, hentry, hle⟩
        constructor
        · rintro hport ⟨_, port', s', hentry', _, hne⟩
          rw [hentry] at hentry'
          cases hentry'
          exact hne hport.symm
        · intro hcond
          by_contra hport
          exact hcond ⟨hlapsed, port, s, hentry, hle, Ne.symm hport⟩
  · simp [hlapsed]

/-- A station is heard, looked up once too late, and heard again: it stays unknown. -/
theorem lookup_lapsed_heard_again :
    ∃ (history : List MacOp) (k : MacKey) (t : Nat),
      ((history.map TimedOp.time) ++ [t]).Pairwise (· ≤ ·) ∧
      (macTableLookup (replay history) k.1 k.2 t).1 ≠
        (TimedMap.lookup ENTRY_TTL (TimedMap.replay history) k t).getD (-1) := by
  refine ⟨[.insert (#v[2, 0, 0, 0, 0, 1], 1) 3 1000, .lookup (#v[2, 0, 0, 0, 0, 1], 1) 1301,
    .insert (#v[2, 0, 0, 0, 0, 1], 1) 3 1301], (#v[2, 0, 0, 0, 0, 1], 1), 1301, ?_, ?_⟩
  · decide
  · decide

end MacTable

end ControlPlane
end EVdeSwitch
