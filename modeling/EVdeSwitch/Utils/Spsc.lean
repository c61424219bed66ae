import Mathlib.Data.List.Basic
import Mathlib.Tactic.Ring
import EVdeSwitch.Utils.RingBuffer

/-!
# Spsc — the ring buffer is a bounded FIFO queue

The invariant `Spsc.Inv` ties the masked indices to the number of items pushed and popped, says
which item each live slot holds, and says what each thread may rely on between its load of the
other thread's index and its own store.  What a thread has learned can only become more
favourable: the producer never sees fewer free slots than it tested for, the consumer never sees
fewer items.
-/

namespace EVdeSwitch
namespace Utils

open EVdeSwitch.Lib

namespace Spsc

variable {α : Type} {s t : Spsc α}

/-! ## The invariant -/

/-- What holds at each point of `ring_buffer_push`. -/
def ProducerOk (s : Spsc α) : Prop :=
  match s.producer with
  | .idle => True
  | .loadedHead _ head => head = s.rb.head
  | .checked _ head =>
      head = s.rb.head ∧ s.pushed.length + 1 < s.popped.length + RING_BUFFER_SIZE
  | .stored item head =>
      head = s.rb.head ∧ s.pushed.length + 1 < s.popped.length + RING_BUFFER_SIZE ∧
        s.rb.data head = some item

/-- What holds at each point of `ring_buffer_pop`. -/
def ConsumerOk (s : Spsc α) : Prop :=
  match s.consumer with
  | .idle => True
  | .loadedTail tail => tail = s.rb.tail
  | .checked tail => tail = s.rb.tail ∧ s.popped.length < s.pushed.length
  | .loaded tail item =>
      tail = s.rb.tail ∧ s.popped.length < s.pushed.length ∧
        item = s.pushed[s.popped.length]?

structure Inv (s : Spsc α) : Prop where
  head_eq : s.rb.head = s.pushed.length % RING_BUFFER_SIZE
  tail_eq : s.rb.tail = s.popped.length % RING_BUFFER_SIZE
  popped_le : s.popped.length ≤ s.pushed.length
  pushed_lt : s.pushed.length < s.popped.length + RING_BUFFER_SIZE
  popped_eq : s.popped = (s.pushed.take s.popped.length).map some
  slot : ∀ i, s.popped.length ≤ i → i < s.pushed.length →
    s.rb.data (i % RING_BUFFER_SIZE) = s.pushed[i]?
  producerOk : s.ProducerOk
  consumerOk : s.ConsumerOk

theorem inv_create : (create : Spsc α).Inv where
  head_eq := rfl
  tail_eq := rfl
  popped_le := Nat.le_refl 0
  pushed_lt := Nat.succ_pos 1023
  popped_eq := rfl
  slot := by
    intro i _ hi
    exact absurd hi (Nat.not_lt_zero i)
  producerOk := trivial
  consumerOk := trivial

/-! ## Reading the indices -/

namespace Inv

/-- The next head, masked, is the slot of the next item to push. -/
theorem next_head (hs : s.Inv) :
    (s.rb.head + 1) &&& BUFFER_MASK = (s.pushed.length + 1) % RING_BUFFER_SIZE := by
  rw [and_bufferMask, hs.head_eq, Nat.mod_add_mod]

theorem next_tail (hs : s.Inv) :
    (s.rb.tail + 1) &&& BUFFER_MASK = (s.popped.length + 1) % RING_BUFFER_SIZE := by
  rw [and_bufferMask, hs.tail_eq, Nat.mod_add_mod]

/-- The producer's test: the buffer is full when all slots but one hold an item. -/
theorem next_head_eq_tail_iff (hs : s.Inv) :
    (s.rb.head + 1) &&& BUFFER_MASK = s.rb.tail ↔ s.held = RING_BUFFER_SIZE - 1 := by
  rw [hs.next_head, hs.tail_eq, Circular.succ_slot_eq_iff hs.popped_le hs.pushed_lt]
  have hle := hs.popped_le
  simp only [held, RING_BUFFER_SIZE]
  omega

/-- The consumer's test: the buffer is empty when the indices are equal. -/
theorem tail_eq_head_iff (hs : s.Inv) : s.rb.tail = s.rb.head ↔ s.held = 0 := by
  have hle := hs.popped_le
  constructor
  · intro h
    rw [hs.head_eq, hs.tail_eq] at h
    have heq := Circular.eq_of_slot_eq hs.popped_le hs.pushed_lt h
    simp [held, heq]
  · intro h
    have heq : s.popped.length = s.pushed.length := by
      simp only [held] at h
      omega
    rw [hs.head_eq, hs.tail_eq, heq]

theorem held_le (hs : s.Inv) : s.held ≤ RING_BUFFER_SIZE - 1 := by
  have hlt := hs.pushed_lt
  simp only [held, RING_BUFFER_SIZE] at *
  omega

theorem ringBufferSize_eq (hs : s.Inv) : ringBufferSize s.rb = s.held := by
  rw [ringBufferSize, and_bufferMask, hs.head_eq, hs.tail_eq]
  exact Circular.sub_slot_mod (by decide) (by decide) (by decide) hs.popped_le hs.pushed_lt

end Inv

/-! ## Every step preserves the invariant -/

/-- The slot the producer fills holds none of the items still in the buffer. -/
theorem Inv.slot_update (hs : s.Inv) (item : α) {i : Nat} (hi : s.popped.length ≤ i)
    (hlt : i < s.pushed.length) :
    Function.update s.rb.data s.rb.head (some item) (i % RING_BUFFER_SIZE) = s.pushed[i]? := by
  have hwin := hs.pushed_lt
  -- the live items lie in a window that ends before the item to come
  have hne : i % RING_BUFFER_SIZE ≠ s.rb.head := by
    rw [hs.head_eq]
    exact Circular.slot_ne_of_window hlt (by omega)
  rw [Function.update_of_ne hne]
  exact hs.slot i hi hlt

theorem inv_pushLoadHead {item : α} (hs : s.Inv) (h : s.step (.pushLoadHead item) = some t) :
    t.Inv := by
  rcases step_pushLoadHead.1 h with ⟨_, rfl⟩
  exact { hs with producerOk := rfl }

theorem inv_pushLoadTail (hs : s.Inv) (h : s.step .pushLoadTail = some t) : t.Inv := by
  rcases step_pushLoadTail.1 h with ⟨item, head, hpc, ⟨_, rfl⟩ | ⟨hfree, rfl⟩⟩
  · exact { hs with producerOk := trivial }
  · have hok := hs.producerOk
    simp only [ProducerOk, hpc] at hok
    subst hok
    have hheld : s.held ≠ RING_BUFFER_SIZE - 1 := fun hc => hfree (hs.next_head_eq_tail_iff.2 hc)
    -- from here on the consumer can only make more room
    have hroom : s.pushed.length + 1 < s.popped.length + RING_BUFFER_SIZE := by
      have hlt := hs.pushed_lt
      simp only [held, RING_BUFFER_SIZE] at *
      omega
    exact { hs with producerOk := ⟨rfl, hroom⟩ }

theorem inv_pushStoreSlot (hs : s.Inv) (h : s.step .pushStoreSlot = some t) : t.Inv := by
  rcases step_pushStoreSlot.1 h with ⟨item, head, hpc, rfl⟩
  have hok := hs.producerOk
  simp only [ProducerOk, hpc] at hok
  rcases hok with ⟨rfl, hroom⟩
  exact { hs with
    slot := fun i hi hlt => hs.slot_update item hi hlt
    producerOk := ⟨rfl, hroom, Function.update_self _ _ _⟩ }

theorem inv_pushStoreHead (hs : s.Inv) (h : s.step .pushStoreHead = some t) : t.Inv := by
  rcases step_pushStoreHead.1 h with ⟨item, head, hpc, rfl⟩
  have hok := hs.producerOk
  simp only [ProducerOk, hpc] at hok
  rcases hok with ⟨rfl, hroom, hdata⟩
  have hle := hs.popped_le
  refine
    { head_eq := ?_
      tail_eq := hs.tail_eq
      popped_le := ?_
      pushed_lt := ?_
      popped_eq := ?_
      slot := ?_
      producerOk := trivial
      consumerOk := ?_ }
  · rw [hs.next_head, List.length_append, List.length_singleton]
  · simp only [List.length_append, List.length_singleton]
    omega
  · simpa using hroom
  · rw [List.take_append_of_le_length hle]
    exact hs.popped_eq
  · -- the slot of the new item was filled by the store before
    intro i hi hlt
    simp only [List.length_append, List.length_singleton] at hlt
    rcases Nat.lt_or_ge i s.pushed.length with hold | hnew
    · rw [List.getElem?_append_left hold]
      exact hs.slot i hi hold
    · have heq : i = s.pushed.length := by omega
      subst heq
      rw [← hs.head_eq, hdata]
      simp
  · -- one more item cannot falsify what the consumer knows
    have hcons := hs.consumerOk
    simp only [ConsumerOk] at hcons ⊢
    cases hc : s.consumer with
    | idle => trivial
    | loadedTail tail => simpa [hc] using hcons
    | checked tail =>
        simp only [hc] at hcons
        refine ⟨hcons.1, ?_⟩
        simp only [List.length_append, List.length_singleton]
        omega
    | loaded tail item' =>
        simp only [hc] at hcons
        refine ⟨hcons.1, ?_, ?_⟩
        · simp only [List.length_append, List.length_singleton]
          omega
        · rw [List.getElem?_append_left hcons.2.1]
          exact hcons.2.2

theorem inv_popLoadTail (hs : s.Inv) (h : s.step .popLoadTail = some t) : t.Inv := by
  rcases step_popLoadTail.1 h with ⟨_, rfl⟩
  exact { hs with consumerOk := rfl }

theorem inv_popLoadHead (hs : s.Inv) (h : s.step .popLoadHead = some t) : t.Inv := by
  rcases step_popLoadHead.1 h with ⟨tail, hpc, ⟨_, rfl⟩ | ⟨hne, rfl⟩⟩
  · exact { hs with consumerOk := trivial }
  · have hok := hs.consumerOk
    simp only [ConsumerOk, hpc] at hok
    subst hok
    have hheld : s.held ≠ 0 := fun hc => hne (hs.tail_eq_head_iff.2 hc)
    -- from here on the producer can only add items
    have hlt : s.popped.length < s.pushed.length := by
      simp only [held] at hheld
      omega
    exact { hs with consumerOk := ⟨rfl, hlt⟩ }

theorem inv_popLoadSlot (hs : s.Inv) (h : s.step .popLoadSlot = some t) : t.Inv := by
  rcases step_popLoadSlot.1 h with ⟨tail, hpc, rfl⟩
  have hok := hs.consumerOk
  simp only [ConsumerOk, hpc] at hok
  rcases hok with ⟨rfl, hlt⟩
  refine { hs with consumerOk := ⟨rfl, hlt, ?_⟩ }
  -- the slot of the oldest item is live
  rw [hs.tail_eq]
  exact hs.slot _ (Nat.le_refl _) hlt

theorem inv_popStoreTail (hs : s.Inv) (h : s.step .popStoreTail = some t) : t.Inv := by
  rcases step_popStoreTail.1 h with ⟨tail, item, hpc, rfl⟩
  have hok := hs.consumerOk
  simp only [ConsumerOk, hpc] at hok
  rcases hok with ⟨rfl, hlt, hitem⟩
  have hwin := hs.pushed_lt
  refine
    { head_eq := hs.head_eq
      tail_eq := ?_
      popped_le := ?_
      pushed_lt := ?_
      popped_eq := ?_
      slot := ?_
      producerOk := ?_
      consumerOk := trivial }
  · rw [hs.next_tail, List.length_append, List.length_singleton]
  · simp only [List.length_append, List.length_singleton]
    omega
  · simp only [List.length_append, List.length_singleton]
    omega
  · -- what was loaded is the oldest item
    have hitem' : item = some s.pushed[s.popped.length] := by
      rw [hitem, List.getElem?_eq_getElem hlt]
    simp only [List.length_append, List.length_singleton]
    rw [List.take_succ_eq_append_getElem hlt, List.map_append, ← hs.popped_eq, hitem']
    rfl
  · intro i hi hlt'
    refine hs.slot i ?_ hlt'
    simp only [List.length_append, List.length_singleton] at hi
    omega
  · -- one more free slot cannot falsify what the producer knows
    have hprod := hs.producerOk
    simp only [ProducerOk] at hprod ⊢
    cases hp : s.producer with
    | idle => trivial
    | loadedHead item' head => simpa [hp] using hprod
    | checked item' head =>
        simp only [hp] at hprod
        refine ⟨hprod.1, ?_⟩
        simp only [List.length_append, List.length_singleton]
        omega
    | stored item' head =>
        simp only [hp] at hprod
        refine ⟨hprod.1, ?_, hprod.2.2⟩
        simp only [List.length_append, List.length_singleton]
        omega

theorem inv_step (a : SpscAction α) (hs : s.Inv) (h : s.step a = some t) : t.Inv := by
  cases a with
  | pushLoadHead item => exact inv_pushLoadHead hs h
  | pushLoadTail => exact inv_pushLoadTail hs h
  | pushStoreSlot => exact inv_pushStoreSlot hs h
  | pushStoreHead => exact inv_pushStoreHead hs h
  | popLoadTail => exact inv_popLoadTail hs h
  | popLoadHead => exact inv_popLoadHead hs h
  | popLoadSlot => exact inv_popLoadSlot hs h
  | popStoreTail => exact inv_popStoreTail hs h

theorem inv_of_reaches (h : (spsc α).Reaches create s) : s.Inv :=
  h.invariant Inv (fun _ a _ hu hstep => inv_step a hu hstep) inv_create

/-! ## The buffer is a bounded FIFO queue -/

/-- A push returns `false` exactly when, at its load of `tail`, one slot is left. -/
theorem Inv.push_fails_iff (hs : s.Inv) (h : s.step .pushLoadTail = some t) :
    t.producer = .idle ↔ s.held = RING_BUFFER_SIZE - 1 := by
  rcases step_pushLoadTail.1 h with ⟨item, head, hpc, hcase⟩
  have hok := hs.producerOk
  simp only [ProducerOk, hpc] at hok
  subst hok
  rcases hcase with ⟨hfull, rfl⟩ | ⟨hfree, rfl⟩
  · simpa using hs.next_head_eq_tail_iff.1 hfull
  · simpa using fun hheld => hfree (hs.next_head_eq_tail_iff.2 hheld)

/-- A pop returns `false` exactly when, at its load of `head`, the buffer is empty. -/
theorem Inv.pop_fails_iff (hs : s.Inv) (h : s.step .popLoadHead = some t) :
    t.consumer = .idle ↔ s.held = 0 := by
  rcases step_popLoadHead.1 h with ⟨tail, hpc, hcase⟩
  have hok := hs.consumerOk
  simp only [ConsumerOk, hpc] at hok
  subst hok
  rcases hcase with ⟨hempty, rfl⟩ | ⟨hne, rfl⟩
  · simpa using hs.tail_eq_head_iff.1 hempty
  · simpa using fun hheld => hne (hs.tail_eq_head_iff.2 hheld)

theorem Inv.popped_isPrefix (hs : s.Inv) : s.popped <+: s.pushed.map some := by
  rw [hs.popped_eq]
  exact (List.take_prefix _ _).map some

/-- The slot a pop reads was written, with the item that is next in line. -/
theorem Inv.loaded_eq (hs : s.Inv) {tail : Nat} {item : Option α}
    (h : s.consumer = .loaded tail item) :
    ∃ hlt : s.popped.length < s.pushed.length, item = some s.pushed[s.popped.length] := by
  have hok := hs.consumerOk
  simp only [ConsumerOk, h] at hok
  rcases hok with ⟨_, hlt, hitem⟩
  refine ⟨hlt, ?_⟩
  rw [hitem, List.getElem?_eq_getElem hlt]

/-! ## The contents, one call at a time -/

theorem length_contents (s : Spsc α) : s.contents.length = s.held := by
  simp [contents, held]

/-- What the next step of a push does: either it is the store of `head`, which appends the item,
or it leaves the contents alone. -/
theorem Inv.push_spec (hs : s.Inv) {item : α} (hitem : ∀ x, s.pushItem = some x → x = item)
    (h : s.step (s.nextPush item) = some t) :
    t.Inv ∧ t.consumer = s.consumer ∧
      ((∃ head, s.producer = .stored item head ∧ t.producer = .idle ∧
          t.contents = s.contents ++ [item]) ∨
        ((∀ x head, s.producer ≠ .stored x head) ∧ t.contents = s.contents ∧
          ∀ x, t.pushItem = some x → x = item)) := by
  refine ⟨inv_step _ hs h, ?_⟩
  cases hp : s.producer with
  | idle =>
      simp only [nextPush, hp] at h
      rcases step_pushLoadHead.1 h with ⟨_, rfl⟩
      refine ⟨rfl, Or.inr ⟨by simp, rfl, ?_⟩⟩
      intro x hx
      exact (Option.some.inj hx).symm
  | loadedHead x head =>
      have hx : x = item := hitem x (by simp [pushItem, hp])
      simp only [nextPush, hp] at h
      rcases step_pushLoadTail.1 h with ⟨y, head', hp', ⟨_, rfl⟩ | ⟨_, rfl⟩⟩
      · refine ⟨rfl, Or.inr ⟨by simp, rfl, ?_⟩⟩
        intro z hz
        cases hz
      · rw [hp] at hp'
        cases hp'
        refine ⟨rfl, Or.inr ⟨by simp, rfl, ?_⟩⟩
        intro z hz
        rw [← hx]
        exact (Option.some.inj hz).symm
  | checked x head =>
      have hx : x = item := hitem x (by simp [pushItem, hp])
      simp only [nextPush, hp] at h
      rcases step_pushStoreSlot.1 h with ⟨y, head', hp', rfl⟩
      rw [hp] at hp'
      cases hp'
      refine ⟨rfl, Or.inr ⟨by simp, rfl, ?_⟩⟩
      intro z hz
      rw [← hx]
      exact (Option.some.inj hz).symm
  | stored x head =>
      have hx : x = item := hitem x (by simp [pushItem, hp])
      simp only [nextPush, hp] at h
      rcases step_pushStoreHead.1 h with ⟨y, head', hp', rfl⟩
      rw [hp] at hp'
      cases hp'
      -- the contents end with the new item from here on
      refine ⟨rfl, Or.inl ⟨head, by rw [hx], rfl, ?_⟩⟩
      rw [← hx]
      exact List.drop_append_of_le_length hs.popped_le

/-- What the next step of a pop does: it finds the buffer empty, or it is the store of `tail`,
which removes the oldest item, or it leaves the contents alone. -/
theorem Inv.pop_spec (hs : s.Inv) (h : s.step s.nextPop = some t) :
    t.Inv ∧ t.producer = s.producer ∧
      ((∃ tail, s.consumer = .loadedTail tail ∧ t.consumer = .idle ∧ s.contents = [] ∧
          t.contents = []) ∨
        (∃ tail item, s.consumer = .loaded tail (some item) ∧ t.consumer = .idle ∧
          s.contents = item :: t.contents) ∨
        (t.consumer ≠ .idle ∧ (∀ tail item, s.consumer ≠ .loaded tail item) ∧
          t.contents = s.contents)) := by
  refine ⟨inv_step _ hs h, ?_⟩
  cases hc : s.consumer with
  | idle =>
      simp only [nextPop, hc] at h
      rcases step_popLoadTail.1 h with ⟨_, rfl⟩
      exact ⟨rfl, Or.inr (Or.inr ⟨by simp, by simp, rfl⟩)⟩
  | loadedTail tail =>
      simp only [nextPop, hc] at h
      have hfails := hs.pop_fails_iff h
      rcases step_popLoadHead.1 h with ⟨tail', _, ⟨_, rfl⟩ | ⟨_, rfl⟩⟩
      · have hnil : s.contents = [] := by
          rw [← List.length_eq_zero_iff, length_contents]
          exact hfails.1 rfl
        exact ⟨rfl, Or.inl ⟨tail, rfl, rfl, hnil, hnil⟩⟩
      · exact ⟨rfl, Or.inr (Or.inr ⟨by simp, by simp, rfl⟩)⟩
  | checked tail =>
      simp only [nextPop, hc] at h
      rcases step_popLoadSlot.1 h with ⟨tail', _, rfl⟩
      exact ⟨rfl, Or.inr (Or.inr ⟨by simp, by simp, rfl⟩)⟩
  | loaded tail item =>
      rcases hs.loaded_eq hc with ⟨hlt, rfl⟩
      simp only [nextPop, hc] at h
      rcases step_popStoreTail.1 h with ⟨tail', item', _, rfl⟩
      -- the contents lose their first item
      refine ⟨rfl, Or.inr (Or.inl ⟨tail, _, rfl, rfl, ?_⟩)⟩
      simp only [contents, List.length_append, List.length_singleton]
      exact List.drop_eq_getElem_cons hlt

/-- A push and a pop under way can always take their next step. -/
theorem exists_step_nextPush (s : Spsc α) (item : α) : ∃ t, s.step (s.nextPush item) = some t := by
  cases hp : s.producer with
  | loadedHead x head =>
      by_cases hfull : (head + 1) &&& BUFFER_MASK = s.rb.tail <;> simp [nextPush, step, hp, hfull]
  | _ => simp [nextPush, step, hp]

theorem exists_step_nextPop (s : Spsc α) : ∃ t, s.step s.nextPop = some t := by
  cases hc : s.consumer with
  | loadedTail tail =>
      by_cases hempty : tail = s.rb.head <;> simp [nextPop, step, hc, hempty]
  | _ => simp [nextPop, step, hc]

/-! ## Every interleaving -/

/-- In every state that a producer and a consumer reach in any interleaving, the ring buffer has
lost, duplicated and reordered nothing, and both tests and the size mean what they say. -/
theorem spsc_boundedFifo (s : Spsc α) (h : (spsc α).Reaches create s) :
    s.popped <+: s.pushed.map some ∧
    (∀ tail item, s.consumer = .loaded tail item → item.isSome) ∧
    s.held ≤ RING_BUFFER_SIZE - 1 ∧
    (∀ t, s.step .pushLoadTail = some t → t.producer = .idle →
      s.held = RING_BUFFER_SIZE - 1) ∧
    (∀ t, s.step .popLoadHead = some t → t.consumer = .idle → s.held = 0) ∧
    (s.producer = .idle → s.consumer = .idle → ringBufferSize s.rb = s.held) := by
  have hs := inv_of_reaches h
  refine ⟨hs.popped_isPrefix, ?_, hs.held_le, ?_, ?_, ?_⟩
  · intro tail item hc
    rcases hs.loaded_eq hc with ⟨_, rfl⟩
    rfl
  · intro t hstep
    exact (hs.push_fails_iff hstep).1
  · intro t hstep
    exact (hs.pop_fails_iff hstep).1
  · intro _ _
    exact hs.ringBufferSize_eq

/-- A pop overtakes the second push: it has loaded `head` before that push stores it. -/
theorem spsc_boundedFifo_overlapping :
    ∃ s : Spsc Nat,
      (spsc Nat).run create
          [.pushLoadHead 7, .pushLoadTail, .pushStoreSlot, .pushStoreHead,
            .pushLoadHead 8, .popLoadTail, .pushLoadTail, .popLoadHead, .pushStoreSlot,
            .popLoadSlot, .pushStoreHead, .popStoreTail] = some s ∧
        s.popped = [some 7] ∧ s.pushed = [7, 8] ∧
        s.popped <+: s.pushed.map some ∧ ringBufferSize s.rb = s.held := by
  have hrun := spsc_boundedFifo (α := Nat) _
    ⟨[.pushLoadHead 7, .pushLoadTail, .pushStoreSlot, .pushStoreHead,
      .pushLoadHead 8, .popLoadTail, .pushLoadTail, .popLoadHead, .pushStoreSlot,
      .popLoadSlot, .pushStoreHead, .popStoreTail], rfl⟩
  exact ⟨_, rfl, rfl, rfl, hrun.1, hrun.2.2.2.2.2 rfl rfl⟩

end Spsc

end Utils
end EVdeSwitch
