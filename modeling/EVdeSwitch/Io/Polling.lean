import EVdeSwitch.Io.EventLoops
import EVdeSwitch.Lib.Machine

/-!
# Polling — the event buffer of an `epoll` instance

`init_epoll`, `add_fd` and `remove_fd` of `src/io/polling.c`, with what the kernel keeps for the
instance: the descriptors that are registered, each with its word.  The loops of the two planes
pass `nevents` to `epoll_wait` as the size of the array of events, which is converted to an `int`;
`init_epoll` has allocated the array for `capacity` events.

Closing a descriptor takes it out of the instance, and nothing in the process is told.
-/

namespace EVdeSwitch
namespace Io

open EVdeSwitch.Lib
open EVdeSwitch.Utils

/-- `epoll_fds`; `epoll_fd` is none where it is -1, and `registered` is in the kernel. -/
structure EpollFds where
  epoll_fd : Option Fd
  nevents : BitVec 64
  capacity : BitVec 64
  registered : List (Fd × BitVec 64)
  deriving DecidableEq

/-- `EPOLL_DATA_INITIALIZER` -/
def EpollFds.initializer : EpollFds :=
  { epoll_fd := none
    nevents := 0
    capacity := 0
    registered := [] }

/-! ## `polling.c` -/

/-- The result of `epoll_create1` is up to the kernel. -/
def initEpoll (epoll_fd : Option Fd) (capacity : BitVec 64) : EpollFds :=
  { epoll_fd := epoll_fd
    nevents := 0
    capacity := capacity
    registered := [] }

namespace EpollFds

/-- The descriptors that are waited for. -/
def fds (efd : EpollFds) : List Fd :=
  efd.registered.map Prod.fst

/-- `epoll_ctl(epoll_fd, EPOLL_CTL_ADD, ..)`; there must be an instance, the descriptor must be
neither its own nor registered already, and the kernel can refuse any. -/
def ctlAdd (efd : EpollFds) (fd : Int) (data : BitVec 64) (refused : Bool) :
    Option (List (Fd × BitVec 64)) :=
  match efd.epoll_fd, Fd.ofInt fd with
  | some epoll_fd, some fd =>
      -- EPERM, EINVAL or EEXIST, or whatever else the kernel has against it
      if refused ∨ fd = epoll_fd ∨ fd ∈ efd.fds then none else some (efd.registered ++ [(fd, data)])
  | _, _ => none

/-- `epoll_ctl(epoll_fd, EPOLL_CTL_DEL, ..)` -/
def ctlDel (efd : EpollFds) (fd : Int) (refused : Bool) : Option (List (Fd × BitVec 64)) :=
  match efd.epoll_fd, Fd.ofInt fd with
  | some _, some fd =>
      if refused ∨ fd ∉ efd.fds then none else some (efd.registered.filter fun r => r.1 ≠ fd)
  | _, _ => none

/-- The pointer is used if it is not null. -/
def addFd (efd : EpollFds) (fd type : Int) (data : Option (BitVec 64)) (refused : Bool) :
    Except Halt EpollFds :=
  let word := data.getD (TO64 (BitVec.ofInt 64 type) (BitVec.ofInt 64 fd))
  match efd.ctlAdd fd word refused with
  | none => (printlog .ERROR "Failed to add fd %d to epoll %s: %s").map fun _ => efd
  | some registered =>
      .ok
        { efd with
          registered := registered
          -- `capacity` is not looked at
          nevents := efd.nevents + 1 }

def removeFd (efd : EpollFds) (fd : Int) (refused : Bool) : Except Halt EpollFds :=
  match efd.ctlDel fd refused with
  | none => (printlog .ERROR "Failed to remove fd %d from epoll %s: %s").map fun _ => efd
  | some registered =>
      .ok
        { efd with
          registered := registered
          nevents := efd.nevents - 1 }

/-- What the kernel does when a descriptor is closed. -/
def close (efd : EpollFds) (fd : Fd) : EpollFds :=
  { efd with registered := efd.registered.filter fun r => r.1 ≠ fd }

/-- The third argument of `epoll_wait`, an `int`. -/
def maxevents (efd : EpollFds) : Int :=
  (efd.nevents.setWidth 32).toInt

/-- The words of the registrations are those of the event loops. -/
theorem addFd_words {efd efd' : EpollFds} {fd : Fd} {type : Nat} {refused : Bool}
    (h : efd.addFd fd.toInt type none refused = .ok efd') :
    Io.addFd (efd.registered.map Prod.snd) type fd false = .ok (efd'.registered.map Prod.snd) := by
  cases hepoll : efd.epoll_fd with
  | none => simp [addFd, ctlAdd, hepoll, Except.map] at h
  | some epoll_fd =>
      by_cases hrefused : refused ∨ fd = epoll_fd ∨ fd ∈ efd.fds
      · simp [addFd, ctlAdd, hepoll, Fd.ofInt_toInt, hrefused, Except.map] at h
      · simp only [addFd, ctlAdd, hepoll, Fd.ofInt_toInt, hrefused, if_false, Except.ok.injEq] at h
        subst h
        simp [Io.addFd, eventData]

end EpollFds

/-! ## Runs -/

/-- The calls for one instance; `close` is that of `handle_wd_req`, and `wait` the one of
`epoll_wait` in the loops. -/
inductive PollCall
  | init (epoll_fd : Option Fd) (capacity : BitVec 64)
  | add (fd type : Int) (data : Option (BitVec 64)) (refused : Bool)
  | remove (fd : Int) (refused : Bool)
  | close (fd : Fd)
  | wait
  deriving DecidableEq

/-- Descriptors are closed on an event, so they are registered. -/
def EpollFds.perform (efd : EpollFds) : PollCall → Option (Except Halt EpollFds)
  | .init epoll_fd capacity => some (.ok (initEpoll epoll_fd capacity))
  | .add fd type data refused => some (efd.addFd fd type data refused)
  | .remove fd refused => some (efd.removeFd fd refused)
  | .close fd => if fd ∈ efd.fds then some (.ok (efd.close fd)) else none
  | .wait => some (.ok efd)

/-- All sequences of calls, until one ends the process. -/
def epollFds : Machine (Except Halt EpollFds) PollCall :=
  { step := fun r call =>
      match r with
      | .ok efd => efd.perform call
      | .error _ => none }

namespace EpollFds

/-- The counter is right, and what is passed to `epoll_wait` is at least 1 and fits the array. -/
def BufferFits (_ : Except Halt EpollFds) (call : PollCall) (r : Except Halt EpollFds) : Prop :=
  match r with
  | .ok efd =>
      efd.nevents.toNat = efd.registered.length ∧
        (call = .wait → 1 ≤ efd.maxevents ∧ efd.maxevents ≤ efd.capacity.toNat)
  | .error _ => True

/-- No registered descriptor is closed, and the loops wait for at least one and no more than the
array has room for. -/
def WithinBuffer (r : Except Halt EpollFds) (call : PollCall) : Prop :=
  match r, call with
  | .ok _, .close _ => False
  | .ok efd, .wait => 1 ≤ efd.registered.length ∧ efd.registered.length ≤ efd.capacity.toNat
  | _, _ => True

instance decidableWithinBuffer (r : Except Halt EpollFds) (call : PollCall) :
    Decidable (WithinBuffer r call) :=
  match r, call with
  | .ok efd, .wait =>
      inferInstanceAs
        (Decidable (1 ≤ efd.registered.length ∧ efd.registered.length ≤ efd.capacity.toNat))
  | .ok _, .close _ => isFalse id
  | .ok _, .init _ _ => isTrue trivial
  | .ok _, .add _ _ _ _ => isTrue trivial
  | .ok _, .remove _ _ => isTrue trivial
  | .error _, _ => isTrue trivial

/-- What the kernel sees to, and the counter. -/
structure Inv (efd : EpollFds) : Prop where
  counted : efd.nevents.toNat = efd.registered.length
  nodup : efd.fds.Nodup
  other : ∀ fd ∈ efd.fds, ∃ epoll_fd, efd.epoll_fd = some epoll_fd ∧ fd ≠ epoll_fd

def InvState : Except Halt EpollFds → Prop
  | .ok efd => efd.Inv
  | .error _ => True

variable {efd efd' : EpollFds}

theorem inv_initEpoll (epoll_fd : Option Fd) (capacity : BitVec 64) :
    (initEpoll epoll_fd capacity).Inv where
  counted := rfl
  nodup := List.nodup_nil
  other := by simp [fds, initEpoll]

theorem length_fds (efd : EpollFds) : efd.fds.length = efd.registered.length :=
  List.length_map _

/-- There are fewer registrations than descriptors, for one is the instance itself. -/
theorem Inv.length_lt (h : efd.Inv) : efd.registered.length < 2 ^ 31 := by
  rw [← length_fds]
  cases hfds : efd.fds with
  | nil => simp
  | cons fd rest =>
      rcases h.other fd (by simp [hfds]) with ⟨epoll_fd, hepoll, _⟩
      -- with the instance there is one more descriptor, and they are all different
      have hnodup : (epoll_fd :: efd.fds).Nodup := by
        refine List.nodup_cons.2 ⟨?_, h.nodup⟩
        intro hmem
        rcases h.other epoll_fd hmem with ⟨own, hown, hne⟩
        rw [hepoll] at hown
        exact hne (Option.some.inj hown)
      have hval : ((epoll_fd :: efd.fds).map Fd.val).Nodup := by
        refine hnodup.map ?_
        intro a b hab
        exact Fd.toInt_injective (congrArg Int.ofNat hab)
      -- an `int` that is not negative is below 2 ^ 31
      have hsub : (epoll_fd :: efd.fds).map Fd.val ⊆ List.range (2 ^ 31) := by
        intro n hn
        rcases List.mem_map.1 hn with ⟨fd, _, rfl⟩
        exact List.mem_range.2 fd.lt
      have hle := hval.length_le_of_subset hsub
      rw [List.length_map, List.length_cons, List.length_range, hfds] at hle
      exact hle

theorem Inv.maxevents_eq (h : efd.Inv) : efd.maxevents = efd.registered.length := by
  have hlt := h.length_lt
  have hword : efd.nevents = BitVec.ofNat 64 efd.registered.length := by
    rw [← h.counted, BitVec.ofNat_toNat, BitVec.setWidth_eq]
  -- the counter is small enough to be an `int`
  rw [maxevents, hword, BitVec.setWidth_ofNat_of_le (by decide)]
  exact toInt_ofNat32 hlt

/-! ## One call -/

/-- `epoll_ctl` fails, or there is one more registration. -/
theorem addFd_cases (efd : EpollFds) (fd type : Int) (data : Option (BitVec 64))
    (refused : Bool) :
    efd.addFd fd type data refused =
        .error (.exit 1 "Failed to add fd %d to epoll %s: %s") ∨
      ∃ epoll_fd new word, efd.epoll_fd = some epoll_fd ∧ new ≠ epoll_fd ∧ new ∉ efd.fds ∧
        efd.addFd fd type data refused =
          .ok
            { efd with
              registered := efd.registered ++ [(new, word)]
              nevents := efd.nevents + 1 } := by
  cases hepoll : efd.epoll_fd with
  | none => exact Or.inl (by simp [addFd, ctlAdd, hepoll, Except.map])
  | some epoll_fd =>
      cases hfd : Fd.ofInt fd with
      | none => exact Or.inl (by simp [addFd, ctlAdd, hepoll, hfd, Except.map])
      | some new =>
          by_cases hrefused : refused ∨ new = epoll_fd ∨ new ∈ efd.fds
          · exact Or.inl (by simp [addFd, ctlAdd, hepoll, hfd, hrefused, Except.map])
          · refine Or.inr ⟨epoll_fd, new,
              data.getD (TO64 (BitVec.ofInt 64 type) (BitVec.ofInt 64 fd)), rfl,
              fun h => hrefused (Or.inr (Or.inl h)), fun h => hrefused (Or.inr (Or.inr h)), ?_⟩
            simp only [addFd, ctlAdd, hepoll, hfd, hrefused, if_false]

theorem Inv.added (h : efd.Inv) {epoll_fd new : Fd} (hepoll : efd.epoll_fd = some epoll_fd)
    (hne : new ≠ epoll_fd) (hnew : new ∉ efd.fds) (word : BitVec 64) :
    Inv
      { efd with
        registered := efd.registered ++ [(new, word)]
        nevents := efd.nevents + 1 } := by
  have hlt := h.length_lt
  refine
    { counted := ?_
      nodup := ?_
      other := ?_ }
  · have hsum : (efd.nevents + 1).toNat = efd.nevents.toNat + 1 := by
      refine BitVec.toNat_add_of_lt ?_
      rw [h.counted]
      change efd.registered.length + 1 < 2 ^ 64
      omega
    rw [hsum, h.counted, List.length_append, List.length_singleton]
  · rw [fds, List.map_append]
    refine List.nodup_append.2 ⟨h.nodup, List.nodup_singleton _, ?_⟩
    intro fd hfd other hother heq
    rw [List.map_cons, List.map_nil, List.mem_singleton] at hother
    rw [heq, hother] at hfd
    exact hnew hfd
  · intro fd hfd
    rw [fds, List.map_append, List.mem_append] at hfd
    rcases hfd with hold | hfd
    · exact h.other fd hold
    · rw [List.map_cons, List.map_nil, List.mem_singleton] at hfd
      exact ⟨epoll_fd, hepoll, hfd ▸ hne⟩

/-- The registrations without a descriptor that has one are one fewer. -/
theorem Inv.length_filter (h : efd.Inv) {fd : Fd} (hfd : fd ∈ efd.fds) :
    (efd.registered.filter fun r => r.1 ≠ fd).length + 1 = efd.registered.length := by
  -- no descriptor is registered twice, so one registration goes
  have hmap : ((efd.registered.filter fun r => r.1 ≠ fd).map Prod.fst) = efd.fds.erase fd := by
    rw [h.nodup.erase_eq_filter, fds, List.filter_map]
    congr 1
    refine List.filter_congr fun r _ => ?_
    exact decide_not
  have hlength := congrArg List.length hmap
  have hpos := List.length_pos_of_mem hfd
  rw [List.length_map, List.length_erase_of_mem hfd] at hlength
  rw [length_fds] at hlength hpos
  omega

theorem removeFd_cases (efd : EpollFds) (fd : Int) (refused : Bool) :
    efd.removeFd fd refused =
        .error (.exit 1 "Failed to remove fd %d from epoll %s: %s") ∨
      ∃ old, old ∈ efd.fds ∧
        efd.removeFd fd refused =
          .ok
            { efd with
              registered := efd.registered.filter fun r => r.1 ≠ old
              nevents := efd.nevents - 1 } := by
  cases hepoll : efd.epoll_fd with
  | none => exact Or.inl (by simp [removeFd, ctlDel, hepoll, Except.map])
  | some epoll_fd =>
      cases hfd : Fd.ofInt fd with
      | none => exact Or.inl (by simp [removeFd, ctlDel, hepoll, hfd, Except.map])
      | some old =>
          by_cases hrefused : refused ∨ old ∉ efd.fds
          · exact Or.inl (by simp [removeFd, ctlDel, hepoll, hfd, hrefused, Except.map])
          · refine Or.inr ⟨old, not_not.1 fun h => hrefused (Or.inr h), ?_⟩
            simp only [removeFd, ctlDel, hepoll, hfd, hrefused, if_false]

theorem Inv.removed (h : efd.Inv) {old : Fd} (hold : old ∈ efd.fds) :
    Inv
      { efd with
        registered := efd.registered.filter fun r => r.1 ≠ old
        nevents := efd.nevents - 1 } := by
  have hlength := h.length_filter hold
  have hlt := h.length_lt
  refine
    { counted := ?_
      nodup := (List.filter_sublist.map Prod.fst).nodup h.nodup
      other := fun fd hfd => h.other fd ((List.filter_sublist.map Prod.fst).subset hfd) }
  have hword : efd.nevents.toNat = efd.registered.length := h.counted
  rw [BitVec.toNat_sub_of_le]
  · rw [hword]
    change efd.registered.length - 1 = (efd.registered.filter fun r => r.1 ≠ old).length
    omega
  · rw [BitVec.le_def, hword]
    change 1 ≤ efd.registered.length
    omega

/-- The kernel drops the registration, and the counter stays what it was. -/
theorem Inv.not_bufferFits_closed (h : efd.Inv) {fd : Fd} (hfd : fd ∈ efd.fds) :
    ¬ BufferFits (.ok efd) (.close fd)
      (.ok { efd with registered := efd.registered.filter fun r => r.1 ≠ fd }) := by
  rintro ⟨hcounted, _⟩
  have hlength := h.length_filter hfd
  have hstays : efd.nevents.toNat = (efd.registered.filter fun r => r.1 ≠ fd).length := hcounted
  rw [h.counted] at hstays
  omega

theorem Inv.bufferFits_wait_iff (h : efd.Inv) :
    BufferFits (.ok efd) .wait (.ok efd) ↔ WithinBuffer (.ok efd) .wait := by
  have hmax := h.maxevents_eq
  constructor
  · rintro ⟨_, hfits⟩
    rcases hfits rfl with ⟨hone, hroom⟩
    rw [hmax] at hone hroom
    exact ⟨by omega, by omega⟩
  · rintro ⟨hone, hroom⟩
    refine ⟨h.counted, fun _ => ?_⟩
    rw [hmax]
    exact ⟨by omega, by omega⟩

theorem step_epollFds {r r' : Except Halt EpollFds} {call : PollCall} (hinv : InvState r)
    (h : epollFds.step r call = some r') :
    (BufferFits r call r' ↔ WithinBuffer r call) ∧ (WithinBuffer r call → InvState r') := by
  cases r with
  | error halt => cases h
  | ok efd =>
      have hinv : efd.Inv := hinv
      have hcall : efd.perform call = some r' := h
      -- a call that keeps the invariant does what it should
      have hkeeps : ∀ efd' : EpollFds, efd'.Inv → call ≠ .wait →
          BufferFits (.ok efd) call (.ok efd') :=
        fun efd' hinv' hne => ⟨hinv'.counted, fun hwait => absurd hwait hne⟩
      cases call with
      | init epoll_fd capacity =>
          cases hcall
          have hinv' := inv_initEpoll epoll_fd capacity
          exact ⟨iff_of_true (hkeeps _ hinv' (by simp)) trivial, fun _ => hinv'⟩
      | add fd type data refused =>
          rcases efd.addFd_cases fd type data refused with
            herror | ⟨epoll_fd, new, word, hepoll, hne, hnew, hok⟩
          · rw [perform, herror] at hcall
            cases hcall
            exact ⟨iff_of_true trivial trivial, fun _ => trivial⟩
          · rw [perform, hok] at hcall
            cases hcall
            have hinv' := hinv.added hepoll hne hnew word
            exact ⟨iff_of_true (hkeeps _ hinv' (by simp)) trivial, fun _ => hinv'⟩
      | remove fd refused =>
          rcases efd.removeFd_cases fd refused with herror | ⟨old, hold, hok⟩
          · rw [perform, herror] at hcall
            cases hcall
            exact ⟨iff_of_true trivial trivial, fun _ => trivial⟩
          · rw [perform, hok] at hcall
            cases hcall
            have hinv' := hinv.removed hold
            exact ⟨iff_of_true (hkeeps _ hinv' (by simp)) trivial, fun _ => hinv'⟩
      | close fd =>
          by_cases hfd : fd ∈ efd.fds
          · rw [perform, if_pos hfd] at hcall
            cases hcall
            exact ⟨iff_of_false (hinv.not_bufferFits_closed hfd) id, False.elim⟩
          · rw [perform, if_neg hfd] at hcall
            cases hcall
      | wait =>
          cases hcall
          exact ⟨hinv.bufferFits_wait_iff, fun _ => hinv⟩

/-! ## All runs -/

/-- In every run the counter is the number of registrations, and what the loops pass to `epoll_wait`
is at least 1 and fits the array of events, if and only if no registered descriptor is closed and
the loops wait only while there is a registration, and no more of them than the array has room
for. -/
theorem buffer_fits_iff {calls : List PollCall} {r : Except Halt EpollFds}
    (hrun : epollFds.run (.ok initializer) calls = some r) :
    epollFds.EveryStep BufferFits (.ok initializer) calls ↔
      epollFds.Guarded WithinBuffer (.ok initializer) calls := by
  have hstart : InvState (.ok initializer) := inv_initEpoll none 0
  refine Machine.everyStep_iff_guarded InvState ?_ hstart hrun
  intro r call r' hr hstep
  exact step_epollFds hr hstep

/-- `init_ctl_plane`, and the first call of `epoll_wait` in the loop. -/
def listening : List PollCall :=
  [.init (some 4) 1, .add 3 CtlReqType.CTL_LISTEN.toNat none false, .wait]

theorem buffer_fits_iff_listening :
    epollFds.EveryStep BufferFits (.ok initializer) listening := by
  have hrun : epollFds.run (.ok initializer) listening =
      some (.ok ⟨some 4, 1, 1, [(3, eventData CtlReqType.CTL_LISTEN.toNat 3)]⟩) := by decide
  exact (buffer_fits_iff hrun).2 (by decide)

/-- One client more: the loop passes 2 for an array of one event. -/
theorem not_buffer_fits_client :
    ¬ epollFds.EveryStep BufferFits (.ok initializer)
      (listening ++ [.add 5 CtlReqType.CTL_WD.toNat none false, .wait]) := by
  intro hevery
  have hrun : epollFds.run (.ok initializer)
      (listening ++ [.add 5 CtlReqType.CTL_WD.toNat none false]) =
      some (.ok ⟨some 4, 2, 1, [(3, eventData CtlReqType.CTL_LISTEN.toNat 3),
        (5, eventData CtlReqType.CTL_WD.toNat 5)]⟩) := by decide
  have hfits := hevery (listening ++ [.add 5 CtlReqType.CTL_WD.toNat none false]) .wait [] rfl _ _
    hrun rfl
  exact absurd (hfits.2 rfl).2 (by decide)

end EpollFds

end Io
end EVdeSwitch
