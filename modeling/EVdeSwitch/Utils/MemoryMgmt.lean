import Mathlib.Algebra.Group.Nat.Defs
import Mathlib.Order.CompletePartialOrder
import Mathlib.Order.Interval.Set.Disjoint
import EVdeSwitch.Lib.History
import EVdeSwitch.Utils.Logging

/-!
# MemoryMgmt — the arena allocator

`arena_alloc` and `amalloc` of `src/utils/memory_mgmt.c`.  Pointers into an arena are counted from
`ptr` on, and `size_t` has 64 bits.

The test of `amalloc` adds the size of the request to `cur` before it compares; so a request that
makes the sum wrap around is granted.
-/

namespace EVdeSwitch
namespace Utils

open EVdeSwitch.Lib

/-- `arena` -/
structure Arena where
  size : BitVec 64
  cur : BitVec 64
  deriving DecidableEq

def arenaAlloc (size : BitVec 64) : Arena :=
  { size := size
    cur := 0 }

/-- Where the block begins. -/
def amalloc (arena : Arena) (size : BitVec 64) : Except Halt (BitVec 64 × Arena) :=
  -- a sum of two words, which may wrap around
  if arena.cur + size > arena.size then
    (printlog .ERROR "Arena out of memory\n").map fun _ => (0, arena)
  else
    .ok (arena.cur, { arena with cur := arena.cur + size })

/-! ## Runs -/

/-- All sequences of calls, as long as memory does not run out. -/
def amallocs : Machine (Except Halt Arena) (BitVec 64) :=
  { step := fun r size =>
      match r with
      | .ok arena => some ((amalloc arena size).map Prod.snd)
      | .error _ => none }

/-- A block that has been returned. -/
structure Block where
  offset : Nat
  size : Nat
  deriving DecidableEq

/-- Where its bytes are. -/
def Block.bytes (block : Block) : Set Nat :=
  Set.Ico block.offset (block.offset + block.size)

/-- The account of the blocks that have been returned. -/
def recordBlock (r : Except Halt Arena) (size : BitVec 64) (_ : Except Halt Arena)
    (blocks : List Block) : List Block :=
  match r.bind fun arena => amalloc arena size with
  | .ok (ptr, _) => ⟨ptr.toNat, size.toNat⟩ :: blocks
  | .error _ => blocks

namespace Arena

/-- The blocks lie in the arena, none over another. -/
structure Laid (arena : Arena) (blocks : List Block) : Prop where
  inside : ∀ block ∈ blocks, block.offset + block.size ≤ arena.size.toNat
  disjoint : blocks.Pairwise fun block other => Disjoint block.bytes other.bytes
  cur_le : arena.cur.toNat ≤ arena.size.toNat

/-- What a call should do. -/
def AllocatesWell (x : Except Halt Arena × List Block) (_ : BitVec 64)
    (y : Except Halt Arena × List Block) : Prop :=
  match x.1, y.1 with
  | .ok arena, .ok arena' => arena'.Laid y.2 ∧ arena.cur.toNat ≤ arena'.cur.toNat
  | _, _ => True

/-- The sum that is compared is the sum. -/
def NoWrap (x : Except Halt Arena × List Block) (size : BitVec 64) : Prop :=
  match x.1 with
  | .ok arena => arena.cur.toNat + size.toNat < 2 ^ 64
  | .error _ => True

instance decidableNoWrap (x : Except Halt Arena × List Block) (size : BitVec 64) :
    Decidable (NoWrap x size) :=
  match x with
  | (.ok arena, _) => inferInstanceAs (Decidable (arena.cur.toNat + size.toNat < 2 ^ 64))
  | (.error _, _) => isTrue trivial

/-- What holds as long as no sum wraps around: `cur` is behind all blocks. -/
structure Inv (arena : Arena) (blocks : List Block) : Prop where
  laid : arena.Laid blocks
  behind : ∀ block ∈ blocks, block.offset + block.size ≤ arena.cur.toNat

def InvState : Except Halt Arena × List Block → Prop
  | (.ok arena, blocks) => arena.Inv blocks
  | (.error _, _) => True

variable {arena : Arena} {blocks : List Block} {size : BitVec 64}

theorem inv_arenaAlloc (size : BitVec 64) : (arenaAlloc size).Inv [] where
  laid :=
    { inside := by simp
      disjoint := List.Pairwise.nil
      cur_le := Nat.zero_le _ }
  behind := by simp

/-- A granted request puts its block behind the others. -/
theorem Inv.grant (h : arena.Inv blocks) (hwrap : arena.cur.toNat + size.toNat < 2 ^ 64)
    (hfits : ¬ arena.cur + size > arena.size) :
    Inv { arena with cur := arena.cur + size } (⟨arena.cur.toNat, size.toNat⟩ :: blocks) := by
  have hsum : (arena.cur + size).toNat = arena.cur.toNat + size.toNat :=
    BitVec.toNat_add_of_lt hwrap
  have hle : arena.cur.toNat + size.toNat ≤ arena.size.toNat := by
    rw [← hsum]
    exact BitVec.le_def.1 (BitVec.not_lt.1 hfits)
  refine
    { laid :=
        { inside := ?_
          disjoint := ?_
          cur_le := ?_ }
      behind := ?_ }
  · intro block hblock
    rcases List.mem_cons.1 hblock with rfl | hold
    · exact hle
    · exact h.laid.inside block hold
  · refine List.pairwise_cons.2 ⟨?_, h.laid.disjoint⟩
    intro block hblock
    -- the new block begins where all the others have ended
    refine Set.disjoint_left.2 ?_
    intro i hnew hold
    exact absurd (lt_of_lt_of_le hold.2 (h.behind block hblock)) (Nat.not_lt.2 hnew.1)
  · rw [hsum]
    exact hle
  · intro block hblock
    rw [hsum]
    rcases List.mem_cons.1 hblock with rfl | hold
    · exact le_refl _
    · exact le_trans (h.behind block hold) (Nat.le_add_right _ _)

/-- A sum that wraps around is less than `cur`, so the request is granted. -/
theorem Inv.wrapped (h : arena.Inv blocks) (hwrap : 2 ^ 64 ≤ arena.cur.toNat + size.toNat) :
    ¬ arena.cur + size > arena.size ∧ (arena.cur + size).toNat < arena.cur.toNat := by
  have hlt := size.isLt
  have hcur := arena.cur.isLt
  -- the sum has lost 2 ^ 64, which is more than `size`
  have hsum : (arena.cur + size).toNat = arena.cur.toNat + size.toNat - 2 ^ 64 := by
    rw [BitVec.toNat_add]
    omega
  have hback : (arena.cur + size).toNat < arena.cur.toNat := by omega
  refine ⟨?_, hback⟩
  rw [gt_iff_lt, BitVec.not_lt, BitVec.le_def]
  exact le_trans (Nat.le_of_lt hback) h.laid.cur_le

/-! ## One call -/

theorem step_amalloc {x y : Except Halt Arena × List Block}
    (hinv : InvState x) (h : (amallocs.withHistory recordBlock).step x size = some y) :
    (AllocatesWell x size y ↔ NoWrap x size) ∧ (NoWrap x size → InvState y) := by
  rcases Machine.withHistory_step.1 h with ⟨hstep, hlog⟩
  rcases x with ⟨r, blocks⟩
  rcases y with ⟨r', blocks'⟩
  cases r with
  | error halt => cases hstep
  | ok arena =>
      have hr : (amalloc arena size).map Prod.snd = r' := Option.some.inj hstep
      have hinv : arena.Inv blocks := hinv
      by_cases hfits : arena.cur + size > arena.size
      · -- out of memory, and no wrap
        have hcall : amalloc arena size = .error (.exit 1 "Arena out of memory\n") := by
          rw [amalloc, if_pos hfits]
          rfl
        rw [hcall] at hr
        cases hr
        -- a sum that wraps around is not refused
        have hnowrap : arena.cur.toNat + size.toNat < 2 ^ 64 := by
          by_contra hge
          exact (hinv.wrapped (Nat.not_lt.1 hge)).1 hfits
        exact ⟨iff_of_true trivial hnowrap, fun _ => trivial⟩
      · have hcall : amalloc arena size =
            .ok (arena.cur, { arena with cur := arena.cur + size }) := by
          rw [amalloc, if_neg hfits]
        have hblocks : blocks' = ⟨arena.cur.toNat, size.toNat⟩ :: blocks := by
          rw [show blocks' = _ from hlog]
          simp [recordBlock, Except.bind, hcall]
        rw [hcall] at hr
        cases hr
        subst hblocks
        -- the call is granted; whether rightly depends on the sum
        by_cases hwrap : arena.cur.toNat + size.toNat < 2 ^ 64
        · have hgrant := hinv.grant hwrap hfits
          refine ⟨iff_of_true ⟨hgrant.laid, ?_⟩ hwrap, fun _ => hgrant⟩
          change arena.cur.toNat ≤ (arena.cur + size).toNat
          rw [BitVec.toNat_add_of_lt hwrap]
          exact Nat.le_add_right _ _
        · have hback := (hinv.wrapped (Nat.not_lt.1 hwrap)).2
          refine ⟨iff_of_false ?_ hwrap, fun hnowrap => absurd hnowrap hwrap⟩
          rintro ⟨_, hle⟩
          exact absurd hback (Nat.not_lt.2 hle)

/-! ## All runs -/

/-- In every run the blocks lie in the arena and none over another, and `cur` only grows up to the
size, if and only if no request makes the sum wrap around. -/
theorem amallocs_allocate_well_iff (size : BitVec 64) {requests : List (BitVec 64)}
    {x : Except Halt Arena × List Block}
    (hrun : (amallocs.withHistory recordBlock).run (.ok (arenaAlloc size), []) requests = some x) :
    (amallocs.withHistory recordBlock).EveryStep AllocatesWell (.ok (arenaAlloc size), [])
        requests ↔
      (amallocs.withHistory recordBlock).Guarded NoWrap (.ok (arenaAlloc size), []) requests := by
  have hstart : InvState (.ok (arenaAlloc size), []) := inv_arenaAlloc size
  refine Machine.everyStep_iff_guarded InvState ?_ hstart hrun
  intro x request y hx hstep
  exact step_amalloc hx hstep

/-- Two requests that fit. -/
theorem amallocs_allocate_well_iff_two :
    (amallocs.withHistory recordBlock).EveryStep AllocatesWell (.ok (arenaAlloc 16), [])
      [10, 6] := by
  have hrun : (amallocs.withHistory recordBlock).run (.ok (arenaAlloc 16), []) [10, 6] =
      some (.ok { size := 16, cur := 16 }, [⟨10, 6⟩, ⟨0, 10⟩]) := rfl
  exact (amallocs_allocate_well_iff 16 hrun).2 (by decide)

/-- With 10 of 16 bytes used, a request for all but five bytes of the address space is granted: its
block does not lie in the arena, and `cur` goes back to 5. -/
theorem not_amallocs_allocate_well :
    ¬ (amallocs.withHistory recordBlock).EveryStep AllocatesWell (.ok (arenaAlloc 16), [])
      [10, 0xfffffffffffffffb] := by
  intro hevery
  have hrun : (amallocs.withHistory recordBlock).run (.ok (arenaAlloc 16), []) [10] =
      some (.ok { size := 16, cur := 10 }, [⟨0, 10⟩]) := rfl
  have hstep : (amallocs.withHistory recordBlock).step
      (.ok { size := 16, cur := 10 }, [⟨0, 10⟩]) 0xfffffffffffffffb =
      some (.ok { size := 16, cur := 5 }, [⟨10, 0xfffffffffffffffb⟩, ⟨0, 10⟩]) := rfl
  have hwell := hevery [10] 0xfffffffffffffffb [] rfl _ _ hrun hstep
  exact absurd hwell.2 (by decide)

end Arena

end Utils
end EVdeSwitch
