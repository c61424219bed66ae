import EVdeSwitch.DataPlane.FlowTableRuns

/-!
# FlowTableSearch — does the search find the deepest match?

Without an exact match `flow_table_lookup` walks down the trie (`src/data_plane/flow_table.c`).
The node at which it ends is the deepest of the path, but it is only returned if no node above it
has an action, and then whether or not it has one itself.
-/

namespace EVdeSwitch
namespace DataPlane

open EVdeSwitch.Lib
open EVdeSwitch.Utils

def FlowEntry.HasAction (entry : FlowEntry) : Prop :=
  entry.action.action_length > 0

instance : DecidablePred FlowEntry.HasAction :=
  fun entry => inferInstanceAs (Decidable (entry.action.action_length > 0))

/-! ## The loop -/

/-- The last node above the address that has an action comes before what has been passed already,
and the node at the address comes last. -/
theorem lookupAt_eq (isFreed : FlowEntry → Bool) (bits : List Bool) (t : Trie FlowEntry)
    (last_match : Option FlowEntry) :
    lookupAt isFreed bits t last_match =
      if (t.above bits).any isFreed then .error .crash
      else .ok ((Trie.lastWith FlowEntry.HasAction (t.above bits)).or
        (last_match.or (t.nodeAt bits))) := by
  induction bits generalizing t last_match with
  | nil => simp [lookupAt, Trie.above, Trie.lastWith]
  | cons bit bits ih =>
      cases t with
      | null => simp [lookupAt, Trie.above, Trie.lastWith]
      | node entry zero one =>
          cases hentry : isFreed entry with
          | true => simp [lookupAt, Trie.above, hentry]
          | false =>
              simp only [lookupAt, Trie.above, hentry, List.any_cons, Bool.false_or,
                Bool.false_eq_true, if_false, ih, Trie.lastWith_cons, Trie.nodeAt]
              -- the candidate is updated before the walk goes down
              by_cases haction : entry.action.action_length > 0
              · rw [if_pos haction, if_pos (show entry.HasAction from haction), Option.some_or,
                  Option.or_assoc, Option.some_or]
              · rw [if_neg haction, if_neg (show ¬ entry.HasAction from haction), Option.or_none]

namespace FlowTable

variable {table : FlowTable} {key : FlowKey}

theorem lookup_eq_of_absent (h : table.first key = none)
    (hreadable : ∀ entry ∈ table.trie_root.above key.bits, table.isFreed entry = false) :
    flowTableLookup table key =
      .ok ((Trie.lastWith FlowEntry.HasAction (table.trie_root.above key.bits)).or
        (table.trie_root.nodeAt key.bits)) := by
  have hany : (table.trie_root.above key.bits).any table.isFreed = false := by
    rw [List.any_eq_false]
    intro entry hentry
    rw [hreadable entry hentry]
    exact Bool.false_ne_true
  rw [lookup_of_absent h, lookupAt_eq, hany, if_neg Bool.false_ne_true, Option.none_or]

/-! ## The deepest match -/

/-- The search returns the deepest node of the path that has an action, and nothing if none has. -/
def FindsDeepest (table : FlowTable) (key : FlowKey) : Prop :=
  ∃ found, flowTableLookup table key = .ok found ∧
    Trie.IsDeepest FlowEntry.HasAction key.bits table.trie_root found

/-- No node above the end of the path has been freed; and if there is a node at the end, either it
has an action, and none above it has one, or the last that has is this very record, or it has none,
and some node above it has one. -/
structure EndsWell (table : FlowTable) (key : FlowKey) : Prop where
  readable : ∀ entry ∈ table.trie_root.above key.bits, table.isFreed entry = false
  action : ∀ last ∈ table.trie_root.nodeAt key.bits, last.HasAction →
    ∀ entry ∈ Trie.lastWith FlowEntry.HasAction (table.trie_root.above key.bits), entry = last
  intermediate : ∀ last ∈ table.trie_root.nodeAt key.bits, ¬ last.HasAction →
    ∃ entry ∈ table.trie_root.above key.bits, entry.HasAction

/-- What the loop keeps and the deepest match are the same exactly if the path ends well. -/
theorem or_nodeAt_eq_iff {above : List FlowEntry} {last : Option FlowEntry} :
    (Trie.lastWith FlowEntry.HasAction above).or last =
        Trie.lastWith FlowEntry.HasAction (above ++ last.toList) ↔
      (∀ node ∈ last, node.HasAction →
        ∀ entry ∈ Trie.lastWith FlowEntry.HasAction above, entry = node) ∧
      ∀ node ∈ last, ¬ node.HasAction → ∃ entry ∈ above, entry.HasAction := by
  cases last with
  | none => simp
  | some node =>
      rw [Option.toList_some, Trie.lastWith_append_singleton]
      cases hlast : Trie.lastWith FlowEntry.HasAction above with
      | none =>
          -- the node at the end is returned
          have hnone := (Trie.lastWith_eq_none FlowEntry.HasAction).1 hlast
          by_cases haction : node.HasAction
          · simp [haction]
          · simpa [haction] using hnone
      | some entry =>
          have hsome : ∃ entry ∈ above, entry.HasAction := by
            by_contra hnone
            have hall : ∀ entry ∈ above, ¬ entry.HasAction :=
              fun entry hentry haction => hnone ⟨entry, hentry, haction⟩
            rw [(Trie.lastWith_eq_none FlowEntry.HasAction).2 hall] at hlast
            cases hlast
          by_cases haction : node.HasAction
          · simp [haction]
          · simpa [haction] using hsome

/-- The search finds the deepest match exactly if the path ends well. -/
theorem finds_deepest_iff (h : table.first key = none) :
    table.FindsDeepest key ↔ table.EndsWell key := by
  by_cases hreadable : ∀ entry ∈ table.trie_root.above key.bits, table.isFreed entry = false
  · have hfinds : table.FindsDeepest key ↔
        (Trie.lastWith FlowEntry.HasAction (table.trie_root.above key.bits)).or
            (table.trie_root.nodeAt key.bits) =
          Trie.lastWith FlowEntry.HasAction
            (table.trie_root.above key.bits ++ (table.trie_root.nodeAt key.bits).toList) := by
      rw [FindsDeepest, lookup_eq_of_absent h hreadable]
      simp [Trie.isDeepest_iff]
    rw [hfinds, or_nodeAt_eq_iff]
    constructor
    · rintro ⟨haction, hintermediate⟩
      exact ⟨hreadable, haction, hintermediate⟩
    · intro hends
      exact ⟨hends.action, hends.intermediate⟩
  · refine iff_of_false ?_ fun hends => hreadable hends.readable
    rintro ⟨found, hfound, _⟩
    -- the walk comes to a freed entry
    have hany : (table.trie_root.above key.bits).any table.isFreed = true := by
      rw [List.any_eq_true]
      by_contra hnone
      refine hreadable fun entry hentry => ?_
      by_contra hfreed
      exact hnone ⟨entry, hentry, by simpa using hfreed⟩
    rw [lookup_of_absent h, lookupAt_eq, hany, if_pos rfl] at hfound
    cases hfound

/-- Another mask, so that the entry of the short key is no exact match. -/
def maskedKey : FlowKey :=
  { shortKey with mask := Vector.replicate MAX_FIELD_LENGTH 1 }

/-- The masks differ in their first byte. -/
theorem ne_of_masked {key key' : FlowKey} (hkey : key.mask = maskedKey.mask)
    (hkey' : key'.mask = FlowKey.zeroed.mask) : key ≠ key' := by
  rintro rfl
  have hhead : maskedKey.mask.toList.head? = FlowKey.zeroed.mask.toList.head? := by
    rw [← hkey, hkey']
  exact absurd hhead (by decide +kernel)

theorem first_create (key : FlowKey) : flowTableCreate.first key = none := rfl

/-- The search ends at the short key, and nothing is above it. -/
theorem finds_deepest_iff_short :
    (flowTableCreate.inserted shortKey (output 1)).first maskedKey = none ∧
      (flowTableCreate.inserted shortKey (output 1)).FindsDeepest maskedKey := by
  have habsent : (flowTableCreate.inserted shortKey (output 1)).first maskedKey = none := by
    have hne : maskedKey ≠ shortKey := ne_of_masked rfl rfl
    rw [first_inserted, if_neg hne, first_create]
  refine ⟨habsent, (finds_deepest_iff habsent).2 ?_⟩
  exact
    { readable := by decide +kernel
      action := by decide +kernel
      intermediate := by decide +kernel }

/-- After one insertion, of a long key. -/
def oneFlow : FlowTable :=
  flowTableCreate.inserted longKey (output 2)

/-- After two insertions. -/
def twoFlows : FlowTable :=
  (flowTableCreate.inserted shortKey (output 1)).inserted longKey (output 2)

/-- What is found on the way to a long key is a node without an action; and a match above the end
of the path comes before the one at the end. -/
theorem not_finds_deepest :
    (oneFlow.first shortKey = none ∧ ¬ oneFlow.FindsDeepest shortKey) ∧
      (twoFlows.first { longKey with mask := maskedKey.mask } = none ∧
        ¬ twoFlows.FindsDeepest { longKey with mask := maskedKey.mask }) := by
  have hone : oneFlow.first shortKey = none := by
    have hne : shortKey ≠ longKey := by
      intro h
      exact absurd (congrArg FlowKey.length h) (by decide)
    rw [oneFlow, first_inserted, if_neg hne, first_create]
  have htwo : twoFlows.first { longKey with mask := maskedKey.mask } = none := by
    have hlong : { longKey with mask := maskedKey.mask } ≠ longKey := ne_of_masked rfl rfl
    have hshort : { longKey with mask := maskedKey.mask } ≠ shortKey := ne_of_masked rfl rfl
    rw [twoFlows, first_inserted, if_neg hlong, first_inserted, if_neg hshort, first_create]
  refine ⟨⟨hone, ?_⟩, htwo, ?_⟩
  · rintro ⟨found, hfound, hdeepest⟩
    have hcode : flowTableLookup oneFlow shortKey = .ok (some .zeroed) := by
      rw [lookup_of_absent hone]
      rfl
    rw [hcode] at hfound
    cases hfound
    rcases hdeepest with ⟨_, _, _, haction, _⟩
    exact absurd haction (by decide)
  · rintro ⟨found, hfound, hdeepest⟩
    rw [Trie.isDeepest_iff] at hdeepest
    subst hdeepest
    rw [lookup_of_absent htwo] at hfound
    -- the entry that is found was made first, and the deepest one after it
    have hserial := congrArg (Except.map fun found => found.map FlowEntry.serial) hfound
    exact absurd hserial (by decide +kernel)

end FlowTable

end DataPlane
end EVdeSwitch
