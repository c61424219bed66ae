import EVdeSwitch.ControlPlane.Requests
import EVdeSwitch.DataPlane.Engine
import EVdeSwitch.Message.ControlPipe

/-!
# Switch — the running process

The control plane thread in `ctl_plane_loop`, the data plane thread in `data_plane_loop`, and the
workers, after `main` has set them up (`src/main.c`).  A step of the control plane is one event of
its loop, up to the point where `add_port` makes a new endpoint visible, and then the rest of
`add_port`, and `send_ctl_message`.  A step of the data plane is one event of its loop, up to the
retry loop in `thread_pool_dispatch_packet`; that loop and the workers take the steps of the
engine.

What the clients do, and what the system calls return because of it, is in the labels.
-/

namespace EVdeSwitch
namespace Process

open EVdeSwitch.ControlPlane
open EVdeSwitch.DataPlane
open EVdeSwitch.Io
open EVdeSwitch.Lib
open EVdeSwitch.Message
open EVdeSwitch.Utils

/-- What is fixed when the threads start. -/
structure Config where
  threads : ThreadCount
  pipeSlots : Nat
  numports : Nat
  numports_pos : 1 ≤ numports
  connect_fd : Fd
  ctl_pipe : Fd

/-- Where the control plane thread is: in its loop, in `add_port`, or before
`send_ctl_message`. -/
inductive CtlPc
  | waiting
  | binding (ep : Endpoint)
  | sending (fd_data : Int)
  deriving DecidableEq

/-- The state shared by the threads.  The engine holds the two tables that the workers read, the
endpoints and the descriptors; `ctl_fds` and `data_fds` are the words registered with the two
`epoll` instances. -/
structure State where
  engine : Engine
  arena : PortArena
  portc : Nat
  ctl_fds : List (BitVec 64)
  data_fds : List (BitVec 64)
  ctl_pipe : List UInt8
  ctl : CtlPc

/-- The environment of one event of the control plane. -/
structure CtlEventEnv where
  accept : AcceptEnv
  request : RequestEnv
  deriving DecidableEq

/-- The environment of one event of the data plane: that of `handle_ctl_message`, or what the
memory from `malloc` holds and what `recv` stores there. -/
structure DataEventEnv where
  ctl : CtlEnv
  stale : Packet
  frame : Option Frame
  deriving DecidableEq

inductive SwitchAction
  | ctlEvent (word : BitVec 64) (env : CtlEventEnv)
  | bind (env : BindEnv)
  | notify (headerFails dataFails : Bool)
  | dataEvent (word : BitVec 64) (env : DataEventEnv)
  | push
  | write
  | read (thread_idx : Nat)
  | pop (thread_idx : Nat)
  | process (thread_idx : Nat) (now : Nat) (sendFails : Bool)
  deriving DecidableEq

namespace State

/-- After `init_ports`, `init_ctl_plane` and `init_data_plane`. -/
def start (c : Config) : State :=
  { engine := Engine.start
    arena := PortArena.alloc c.numports
    portc := 1
    ctl_fds := [eventData CtlReqType.CTL_LISTEN.toNat c.connect_fd]
    data_fds := [eventData DataReqType.CTL_MESSAGE.toNat c.ctl_pipe]
    ctl_pipe := []
    ctl := .waiting }

theorem portInit_numports (c : Config) : portInit c.numports = .ok (start c).arena := by
  have hpos : ¬ (c.numports : Int) < 1 := by
    have hnumports := c.numports_pos
    omega
  simp only [portInit, if_neg hpos]
  rfl

/-- The global variables of `add_port`. -/
def manager (s : State) : PortManager :=
  { arena := s.arena
    portc := s.portc
    endpoints := s.engine.endpoints }

def setManager (s : State) (m : PortManager) : State :=
  { s with
    engine := { s.engine with endpoints := m.endpoints }
    arena := m.arena
    portc := m.portc }

/-! ## The control plane -/

/-- The state after `handle_wd_req` has come as far as it does by itself, with its result. -/
def afterWdReq (s : State) (fd : Int) : WdReq × PortManager → Int × State
  | (.returned result, _) => (result, s)
  | (.closed, _) =>
      -- a closed descriptor is no longer waited for
      (1, { s with ctl_fds := s.ctl_fds.filter fun word => (LO word).toInt ≠ fd })
  | (.binding ep, m) => (0, { s.setManager m with ctl := .binding ep })
  | (.sending fd_data, m) => (0, { s.setManager m with ctl := .sending fd_data })

/-- The handlers of `ctl_plane_loop`. -/
def ctlHandlers (env : CtlEventEnv) : CtlHandlers (StateT State (Except Halt)) :=
  { accept_new_ctl_conn := fun _ s =>
      (acceptNewCtlConn s.ctl_fds env.accept).map fun (result, ctl_fds) =>
        (result, { s with ctl_fds := ctl_fds })
    handle_wd_req := fun fd s => (handleWdReq s.manager env.request).map (s.afterWdReq fd)
    printlog := fun level fmt s => (printlog level fmt).map fun _ => ((), s) }

/-- The body of the loop of the control plane, for a registered word. -/
def ctlEvent (s : State) (word : BitVec 64) (env : CtlEventEnv) : Except Halt State :=
  Except.map Prod.snd (ctlPlaneRound (ctlHandlers env) [word] 0 s)

/-- The second half of `add_port`. -/
def bind (s : State) (ep : Endpoint) (env : BindEnv) : Except Halt State :=
  (addPortBind ep env s.engine.fdt).map fun (fd_data, fdt) =>
    { s with
      engine := { s.engine with fdt := fdt }
      ctl := .sending fd_data }

/-- `send_ctl_message(MSG_PORT_ADD, &fd_data, sizeof(fd_data))` -/
def notify (s : State) (fd_data : Int) (headerFails dataFails : Bool) : Except Halt State :=
  let data := wordBytes 4 (BitVec.ofInt 32 fd_data).toNat
  (sendCtlMessage s.ctl_pipe .MSG_PORT_ADD data headerFails dataFails).map fun ctl_pipe =>
    { s with
      ctl_pipe := ctl_pipe
      ctl := .waiting }

/-! ## The data plane -/

/-- The state after a call of `handle_ctl_message` that returns. -/
def afterCtlMessage (s : State) (rest : List UInt8) (data_fd : Option Int) : State :=
  { s with
    ctl_pipe := rest
    data_fds :=
      match data_fd.bind Fd.ofInt with
      | some fd => s.data_fds ++ [eventData DataReqType.PACKET.toNat fd]
      | none => s.data_fds }

/-- The handlers of `data_plane_loop`; they can block. -/
def dataHandlers (c : Config) (env : DataEventEnv) :
    DataHandlers (StateT State (ExceptT Halt Option)) :=
  { handle_ctl_message := fun _ _ s =>
      (handleCtlMessage env.ctl s.ctl_pipe).map fun call =>
        call.result.map fun data_fd => ((), s.afterCtlMessage call.rest data_fd)
    -- the retry loop and the message are steps of the engine
    dispatch_packet := fun fd s =>
      (Fd.ofInt fd).bind fun fd =>
        (s.engine.step c.threads c.pipeSlots (.recv fd env.stale env.frame)).map fun engine =>
          .ok ((), { s with engine := engine })
    printlog := fun level fmt s => some ((printlog level fmt).map fun _ => ((), s)) }

/-- The body of the loop of the data plane, for a registered word. -/
def dataEvent (c : Config) (s : State) (word : BitVec 64) (env : DataEventEnv) :
    Option (Except Halt State) :=
  Option.map (Except.map Prod.snd) (dataPlaneRound (dataHandlers c env) [word] 0 s)

/-! ## Steps -/

/-- A step of the engine that cannot end the process. -/
def engineStep (c : Config) (s : State) (a : EngineAction) : Option (Except Halt State) :=
  (s.engine.step c.threads c.pipeSlots a).map fun engine => .ok { s with engine := engine }

/-- One step of one thread.  The data plane is back in its loop when the dispatcher is idle. -/
def step (c : Config) (s : State) : SwitchAction → Option (Except Halt State)
  | .ctlEvent word env =>
      if s.ctl = .waiting ∧ word ∈ s.ctl_fds then some (s.ctlEvent word env) else none
  | .bind env =>
      match s.ctl with
      | .binding ep => some (s.bind ep env)
      | _ => none
  | .notify headerFails dataFails =>
      match s.ctl with
      | .sending fd_data => some (s.notify fd_data headerFails dataFails)
      | _ => none
  | .dataEvent word env =>
      -- the data plane thread is the dispatcher
      if s.engine.pool.dispatcher = .idle ∧ word ∈ s.data_fds then s.dataEvent c word env else none
  | .push => s.engineStep c .push
  | .write => s.engineStep c .write
  | .read thread_idx => s.engineStep c (.read thread_idx)
  | .pop thread_idx => s.engineStep c (.pop thread_idx)
  | .process thread_idx now sendFails =>
      (s.engine.process c.pipeSlots thread_idx now sendFails).map fun result =>
        result.map fun engine => { s with engine := engine }

end State

/-- The process: it runs, or has ended. -/
inductive Switch
  | running (s : State)
  | ended (halt : Halt)

namespace Switch

def ofExcept : Except Halt State → Switch
  | .ok s => .running s
  | .error halt => .ended halt

def step (c : Config) : Switch → SwitchAction → Option Switch
  | .running s, a => (s.step c a).map ofExcept
  | .ended _, _ => none

end Switch

/-- All interleavings of the two planes and the workers, with whatever the clients do. -/
def switch (c : Config) : Machine Switch SwitchAction :=
  { step := Switch.step c }

end Process
end EVdeSwitch
