import EVdeSwitch.Lib.Batch
import EVdeSwitch.Utils.Logging
import EVdeSwitch.Utils.Word64

/-!
# EventLoops — from ready events to handlers

`add_fd` registers a descriptor with its type in one word (`src/io/polling.c`), `epoll_wait`
returns the words of the ready descriptors, and the loops of the two planes take them apart again
(`src/data_plane/data_plane.c`, `src/control_plane/control_plane.c`).  One pass of a loop over the
events of one `epoll_wait` is a program over the handlers, in whatever monad these run.

The loop of the data plane looks at `events[0]` in every round, that of the control plane at
`events[i]`.
-/

namespace EVdeSwitch
namespace Io

open EVdeSwitch.Lib
open EVdeSwitch.Utils

/-! ## `add_fd` -/

/-- The word that `add_fd` registers when it is given no pointer. -/
def eventData (type : Nat) (fd : Fd) : BitVec 64 :=
  TO64 (BitVec.ofInt 64 type) (BitVec.ofInt 64 fd.toInt)

/-- `add_fd` on a set of registered words; `epoll_ctl` may refuse the descriptor. -/
def addFd (fds : List (BitVec 64)) (type : Nat) (fd : Fd) (epollFails : Bool) :
    Except Halt (List (BitVec 64)) :=
  if epollFails then
    (printlog .ERROR "Failed to add fd %d to epoll %s: %s").map fun _ => fds
  else
    .ok (fds ++ [eventData type fd])

/-- `remove_fd`; `epoll_ctl` does not know a descriptor that is not registered. -/
def removeFd (fds : List (BitVec 64)) (fd : Int) : Except Halt (List (BitVec 64)) :=
  if fds.any fun word => (LO word).toInt = fd then
    .ok (fds.filter fun word => (LO word).toInt ≠ fd)
  else
    (printlog .ERROR "Failed to remove fd %d from epoll %s: %s").map fun _ => fds

theorem removeFd_of_not_registered {fds : List (BitVec 64)} {fd : Int}
    (h : ∀ word ∈ fds, (LO word).toInt ≠ fd) :
    removeFd fds fd = .error (.exit 1 "Failed to remove fd %d from epoll %s: %s") := by
  have hnone : ¬ (fds.any fun word => (LO word).toInt = fd) = true := by
    intro hany
    rcases List.any_eq_true.1 hany with ⟨word, hword, hfd⟩
    exact h word hword (of_decide_eq_true hfd)
  rw [removeFd, if_neg hnone]
  rfl

/-- `enum DATA_REQ_TYPE` -/
inductive DataReqType
  | PACKET
  | CTL_MESSAGE
  deriving DecidableEq, Repr

namespace DataReqType

def toNat : DataReqType → Nat
  | .PACKET => 0
  | .CTL_MESSAGE => 1

end DataReqType

/-- `enum CTL_REQ_TYPE` -/
inductive CtlReqType
  | CTL_LISTEN
  | CTL_WD
  | DATA
  deriving DecidableEq, Repr

namespace CtlReqType

def toNat : CtlReqType → Nat
  | .CTL_LISTEN => 0
  | .CTL_WD => 1
  | .DATA => 2

end CtlReqType

/-- A descriptor as it was registered. -/
structure Registration (τ : Type) where
  type : τ
  fd : Fd
  deriving DecidableEq, Repr

theorem HI_eventData {type : Nat} (htype : type < 2 ^ 31) (fd : Fd) :
    (HI (eventData type fd)).toInt = type :=
  HI_TO64_toInt htype (lt_trans fd.lt (by decide))

theorem LO_eventData (type : Nat) (fd : Fd) : (LO (eventData type fd)).toInt = fd.toInt :=
  LO_TO64_toInt _ fd

/-! ## The loop of the data plane -/

/-- What `data_plane_loop` calls. -/
structure DataHandlers (m : Type → Type) where
  handle_ctl_message : Int → Int → m Unit
  dispatch_packet : Int → m Unit
  printlog : LogLevel → String → m Unit

section DataPlane

variable {m : Type → Type} [Monad m]

/-- Round `i` of the loop over the ready events; the index is not used. -/
def dataPlaneRound (h : DataHandlers m) (events : List (BitVec 64)) (_i : Nat) : m Unit :=
  let fd := (LO (events.getD 0 0)).toInt
  let type := (HI (events.getD 0 0)).toInt
  if type = DataReqType.CTL_MESSAGE.toNat then
    h.handle_ctl_message fd type
  else if type = DataReqType.PACKET.toNat then
    h.dispatch_packet fd
  else
    h.printlog .ERROR "[DATA] Unknown event type %d"

/-- One pass over the events of one `epoll_wait`. -/
def dataPlanePass (h : DataHandlers m) (events : List (BitVec 64)) : m Unit :=
  (List.range events.length).forM (dataPlaneRound h events)

namespace DataReqType

/-- The call that belongs to a registration. -/
def handle (h : DataHandlers m) (r : Registration DataReqType) : m Unit :=
  match r.type with
  | .PACKET => h.dispatch_packet r.fd.toInt
  | .CTL_MESSAGE => h.handle_ctl_message r.fd.toInt CTL_MESSAGE.toNat

def data (r : Registration DataReqType) : BitVec 64 :=
  eventData r.type.toNat r.fd

theorem toNat_lt (type : DataReqType) : type.toNat < 2 ^ 31 := by
  cases type <;> decide

omit [Monad m] in
/-- Whatever the round, the first event is handled. -/
theorem dataPlaneRound_eq (h : DataHandlers m) (r : Registration DataReqType)
    (batch : List (Registration DataReqType)) (i : Nat) :
    dataPlaneRound h ((r :: batch).map data) i = handle h r := by
  have htype : (HI (data r)).toInt = r.type.toNat := HI_eventData r.type.toNat_lt r.fd
  have hfd : (LO (data r)).toInt = r.fd.toInt := LO_eventData _ r.fd
  simp only [dataPlaneRound, List.map_cons, List.getD_cons_zero, htype, hfd]
  -- the word holds a known type, so the last case is not reached
  cases hr : r.type <;> simp [handle, hr, toNat]

variable [LawfulMonad m]

/-- A pass handles the first event as many times as there are events. -/
theorem dataPlanePass_eq (h : DataHandlers m) (r : Registration DataReqType)
    (batch : List (Registration DataReqType)) :
    dataPlanePass h ((r :: batch).map data) =
      (List.replicate (batch.length + 1) r).forM (handle h) := by
  have hround : dataPlaneRound h ((r :: batch).map data) = fun _ => handle h r := by
    funext i
    exact dataPlaneRound_eq h r batch i
  rw [dataPlanePass, hround, forM_range_const]
  simp

end DataReqType

end DataPlane

/-! ## The loop of the control plane -/

/-- What `ctl_plane_loop` calls. -/
structure CtlHandlers (m : Type → Type) where
  accept_new_ctl_conn : Int → m Int
  handle_wd_req : Int → m Int
  printlog : LogLevel → String → m Unit

section CtlPlane

variable {m : Type → Type} [Monad m]

/-- Round `i` of the loop over the ready events. -/
def ctlPlaneRound (h : CtlHandlers m) (events : List (BitVec 64)) (i : Nat) : m Unit := do
  let fd := (LO (events.getD i 0)).toInt
  let type := (HI (events.getD i 0)).toInt
  if type = CtlReqType.CTL_LISTEN.toNat then
    if (← h.accept_new_ctl_conn fd) < 0 then
      h.printlog .ERROR "Failed to accept new control connection on fd %d"
  else if type = CtlReqType.CTL_WD.toNat then
    if (← h.handle_wd_req fd) < 0 then
      h.printlog .ERROR "Failed to handle WD request on fd %d"
  else
    h.printlog .ERROR "[CTL] Unknown event type %d"

def ctlPlanePass (h : CtlHandlers m) (events : List (BitVec 64)) : m Unit :=
  (List.range events.length).forM (ctlPlaneRound h events)

namespace CtlReqType

/-- The call that belongs to a registration, with the check of its result. -/
def handle (h : CtlHandlers m) (r : Registration CtlReqType) : m Unit :=
  match r.type with
  | .CTL_LISTEN => do
      if (← h.accept_new_ctl_conn r.fd.toInt) < 0 then
        h.printlog .ERROR "Failed to accept new control connection on fd %d"
  | .CTL_WD => do
      if (← h.handle_wd_req r.fd.toInt) < 0 then
        h.printlog .ERROR "Failed to handle WD request on fd %d"
  | .DATA => h.printlog .ERROR "[CTL] Unknown event type %d"

def data (r : Registration CtlReqType) : BitVec 64 :=
  eventData r.type.toNat r.fd

theorem toNat_lt (type : CtlReqType) : type.toNat < 2 ^ 31 := by
  cases type <;> decide

/-- The body of the loop, on the word it has picked. -/
def dispatchWord (h : CtlHandlers m) (word : BitVec 64) : m Unit :=
  ctlPlaneRound h [word] 0

theorem dispatchWord_data (h : CtlHandlers m) (r : Registration CtlReqType) :
    dispatchWord h (data r) = handle h r := by
  have htype : (HI (data r)).toInt = r.type.toNat := HI_eventData r.type.toNat_lt r.fd
  have hfd : (LO (data r)).toInt = r.fd.toInt := LO_eventData _ r.fd
  simp only [dispatchWord, ctlPlaneRound, List.getD_cons_zero, htype, hfd]
  cases hr : r.type <;> simp [handle, hr, toNat]

variable [LawfulMonad m]

/-- A pass handles every event once, in order. -/
theorem ctlPlanePass_eq (h : CtlHandlers m) (batch : List (Registration CtlReqType)) :
    ctlPlanePass h (batch.map data) = batch.forM (handle h) := by
  have hhandle : (fun r => dispatchWord h (data r)) = handle h := by
    funext r
    exact dispatchWord_data h r
  -- the body reads the word of its own round, so the loop runs through the batch
  calc
    ctlPlanePass h (batch.map data)
        = (List.range (batch.map data).length).forM
            (fun i => dispatchWord h ((batch.map data).getD i 0)) := rfl
    _ = (batch.map data).forM (dispatchWord h) := forM_range_getD _ 0 _
    _ = batch.forM (handle h) := by
          rw [List.forM_eq_forM, List.forM_map, List.forM_eq_forM, hhandle]

end CtlReqType

end CtlPlane

/-! ## Both loops -/

/-- Handlers that only take down what they are called with: the type, and the descriptor. -/
def loggingHandlers : DataHandlers (StateM (List (Nat × Int))) :=
  { handle_ctl_message := fun fd _ => modify (· ++ [(DataReqType.CTL_MESSAGE.toNat, fd)])
    dispatch_packet := fun fd => modify (· ++ [(DataReqType.PACKET.toNat, fd)])
    printlog := fun _ _ => pure () }

def registrationLabel (r : Registration DataReqType) : Nat × Int :=
  (r.type.toNat, r.fd.toInt)

theorem handle_loggingHandlers :
    DataReqType.handle loggingHandlers = logging registrationLabel := by
  funext r
  cases r with
  | mk type fd => cases type <;> rfl

theorem registrationLabel_injective : Function.Injective registrationLabel := by
  intro r r' h
  rcases r with ⟨type, fd⟩
  rcases r' with ⟨type', fd'⟩
  simp only [registrationLabel, Prod.mk.injEq] at h
  have hfd : fd = fd' := Fd.toInt_injective h.2
  subst hfd
  -- the numbers of the types are distinct
  cases type <;> cases type' <;> first | rfl | exact absurd h.1 (by decide)

/-- The loop of the data plane makes exactly the calls that belong to the events of a batch, each
once and in order, if and only if all events of the batch are the first one; that of the control
plane always does. -/
theorem eventLoops_dispatch (r : Registration DataReqType)
    (batch : List (Registration DataReqType)) (ctlBatch : List (Registration CtlReqType)) :
    ((∀ (m : Type → Type) [Monad m] [LawfulMonad m] (h : DataHandlers m),
        dataPlanePass h ((r :: batch).map DataReqType.data) =
          (r :: batch).forM (DataReqType.handle h)) ↔
      ∀ r' ∈ batch, r' = r) ∧
    (∀ (m : Type → Type) [Monad m] [LawfulMonad m] (h : CtlHandlers m),
      ctlPlanePass h (ctlBatch.map CtlReqType.data) =
        ctlBatch.forM (CtlReqType.handle h)) := by
  constructor
  · have hreplicate : r :: batch = List.replicate (batch.length + 1) r ↔ ∀ r' ∈ batch, r' = r := by
      rw [List.replicate_succ, List.cons_eq_cons, List.eq_replicate_iff]
      simp
    rw [← hreplicate]
    constructor
    · intro h
      -- handlers that only write a log tell the two programs apart
      have hlog := h (StateM (List (Nat × Int))) loggingHandlers
      rw [DataReqType.dataPlanePass_eq, handle_loggingHandlers] at hlog
      exact registrationLabel_injective.list_map (map_label_eq_of_forM_logging hlog).symm
    · intro h m _ _ handlers
      rw [DataReqType.dataPlanePass_eq, ← h]
  · intro m _ _ h
    exact CtlReqType.ctlPlanePass_eq h ctlBatch

/-- Two ready descriptors: the second one is not handled, the first one twice. -/
theorem dataPlanePass_two_events :
    ∃ (r r' : Registration DataReqType), r.fd ≠ r'.fd ∧
      dataPlanePass loggingHandlers ([r, r'].map DataReqType.data) ≠
        [r, r'].forM (DataReqType.handle loggingHandlers) := by
  refine ⟨⟨.CTL_MESSAGE, 5⟩, ⟨.PACKET, 7⟩, by decide, ?_⟩
  rw [DataReqType.dataPlanePass_eq, handle_loggingHandlers]
  intro h
  exact absurd (map_label_eq_of_forM_logging h) (by decide)

end Io
end EVdeSwitch
