import EVdeSwitch.ControlPlane.Requests
import EVdeSwitch.Lib.Stoppable
import EVdeSwitch.Message.ControlPipe

/-!
# PortRequest — a request for a port, with what it leaves behind

`handle_wd_req` of `src/control_plane/control_plane.c` with all that it calls: `add_port`,
`alloc_endpoint`, `fd_table_insert` and `send_ctl_message`.  The functions change the tables step
by step, so the tables are kept as they are at the moment a call of `printlog` or a fault ends the
process.
-/

namespace EVdeSwitch
namespace ControlPlane

open EVdeSwitch.Io
open EVdeSwitch.Lib
open EVdeSwitch.Message
open EVdeSwitch.Utils

/-- All that a request can leave something in. -/
structure Tables where
  ports : PortManager
  fdt : FdTable
  ctl_pipe : List UInt8

/-- The outcomes of the system calls and of the allocations made for a request. -/
structure PortRequestEnv where
  request : RequestEnv
  mallocFails : Bool
  binding : BindEnv
  headerFails : Bool
  dataFails : Bool
  deriving DecidableEq

namespace Tables

def setArena (tables : Tables) (arena : PortArena) : Tables :=
  { tables with ports := { tables.ports with arena := arena } }

/-- `portc++` -/
def countPort (tables : Tables) : Tables :=
  { tables with ports := { tables.ports with portc := tables.ports.portc + 1 } }

def allocEndpoint (portno : Nat) (fd_data : Fd) (mallocFails : Bool) :
    Stoppable Halt Tables (Option Endpoint) := do
  let tables ← get
  let (p, arena) ← allocPort tables.ports.arena portno
  modify fun tables => tables.setArena arena
  match p with
  | none =>
      printlog .WARNING "Port already in use\n"
      return none
  | some i =>
      if mallocFails then
        -- the null pointer is followed
        throw .crash
      else
        let ep : Endpoint :=
          { port := portno
            fd_data := fd_data }
        modify fun tables => tables.setArena
          (tables.ports.arena.setPort i { tables.ports.arena.port i with ep := some ep })
        return some ep

/-- `add_port` from the new list of endpoints on. -/
def bindEndpoint (ep : Endpoint) (env : BindEnv) : Stoppable Halt Tables Int := do
  if env.unlinkFails || env.bindFails then
    printlog .ERROR "bind() failed: %s"
    return -1
  else
    match env.write with
    | .sigpipe => throw .crash
    | .failed =>
        printlog .ERROR "write() failed"
        return -1
    | .written =>
        -- nobody looks at the result of `fd_table_insert`
        modify fun tables =>
          { tables with fdt := (fdTableInsert tables.fdt ep.fd_data ep env.reallocated).2 }
        return ep.fd_data.toInt

def addPort (env : PortRequestEnv) : Stoppable Halt Tables Int := do
  match env.request.opening.socket with
  | none =>
      printlog .ERROR "socket() failed"
      return -1
  | some fd_data =>
      if env.request.opening.fcntlFails then
        printlog .WARNING "fcntl - setting O_NONBLOCK %s"
        return -1
      else if env.request.opening.connectFails then
        printlog .ERROR "connect() failed: %s"
        return -1
      else
        let portno := (← get).ports.portc
        modify countPort
        match ← allocEndpoint portno fd_data env.mallocFails with
        | none => throw .crash
        | some ep =>
            modify fun tables =>
              { tables with ports := { tables.ports with endpoints := ep :: tables.ports.endpoints } }
            bindEndpoint ep env.binding

/-- A message whose second `write` fails leaves its header in the pipe. -/
def sendCtlMessage (type : CtlMessageType) (data : List UInt8) (headerFails dataFails : Bool) :
    Stoppable Halt Tables Int := do
  if headerFails then
    printlog .ERROR "write() failed: %s"
    return -1
  else
    modify fun tables =>
      { tables with ctl_pipe := tables.ctl_pipe ++ headerBytes type data.length }
    if dataFails then
      printlog .ERROR "write() failed: %s"
      return -1
    else
      modify fun tables => { tables with ctl_pipe := tables.ctl_pipe ++ data }
      return 0

/-- `handle_wd_req` on a request with the right magic number. -/
def handleMagicReq (version : Nat) (env : PortRequestEnv) : Stoppable Halt Tables Int := do
  if version = 3 then
    printlog .INFO "Request for v3 version"
    -- the result of `add_port` is sent on, whatever it is
    let fd_data ← addPort env
    let _ ← sendCtlMessage .MSG_PORT_ADD (wordBytes 4 (BitVec.ofInt 32 fd_data).toNat)
      env.headerFails env.dataFails
    return 0
  else if version > 2 ∨ version = 2 then
    printlog .ERROR "Request for a version %d port, which this vde_switch doesn't support"
    return 0
  else
    printlog .INFO "Request for v1 version"
    return 0

def handleWdReq (env : PortRequestEnv) : Stoppable Halt Tables Int := do
  match env.request.req with
  | none =>
      printlog .ERROR "read() failed"
      return -1
  | some req =>
      if req.bytes.length = 0 then
        printlog .INFO "Client closed connection"
        return 1
      else if (env.request.stale.read req).magic = SWITCH_MAGIC then
        let reqbuf := (env.request.stale.read req).terminate req.bytes.length
        handleMagicReq reqbuf.version env
      else
        return 0

/-! ## How each function ends -/

variable {tables : Tables} {env : PortRequestEnv}

section AllocEndpoint

variable {portno : Nat}

theorem ends_allocEndpoint_of_ge (h : tables.ports.arena.NUMPORTS ≤ portno) (fd_data : Fd)
    (mallocFails : Bool) :
    (allocEndpoint portno fd_data mallocFails).ends tables =
      (.error (.exit 1 "Invalid port number\n"), tables) := by
  simp [allocEndpoint, Stoppable.ends_bind, allocPort_of_ge h]

/-- The flag of the port is up before `malloc` is called. -/
theorem ends_allocEndpoint_of_down (hpos : 1 ≤ portno)
    (hlt : portno < tables.ports.arena.NUMPORTS)
    (hdown : (tables.ports.arena.port portno).flag = .DOWN) (fd_data : Fd) (mallocFails : Bool) :
    (allocEndpoint portno fd_data mallocFails).ends tables =
      if mallocFails then
        (.error .crash,
          tables.setArena (tables.ports.arena.setPort portno { flag := .UP, ep := none }))
      else
        (.ok (some ⟨portno, fd_data⟩),
          tables.setArena (tables.ports.arena.setPort portno
            { flag := .UP, ep := some ⟨portno, fd_data⟩ })) := by
  cases mallocFails <;>
    simp [allocEndpoint, Stoppable.ends_bind, allocPort_of_down hpos hlt hdown, setArena,
      PortArena.setPort, Except.map]

end AllocEndpoint

/-- The endpoint is bound, and the client is told so. -/
def Binds (env : BindEnv) : Prop :=
  env.unlinkFails = false ∧ env.bindFails = false ∧ env.write = .written

theorem bindEndpoint_cases (tables : Tables) (ep : Endpoint) (env : BindEnv) :
    (¬ Binds env ∧ ∃ halt, (bindEndpoint ep env).ends tables = (.error halt, tables)) ∨
      (Binds env ∧ (bindEndpoint ep env).ends tables =
        (.ok ep.fd_data.toInt,
          { tables with fdt := (fdTableInsert tables.fdt ep.fd_data ep env.reallocated).2 })) := by
  rcases env with ⟨unlinkFails, bindFails, write, reallocated⟩
  cases unlinkFails <;> cases bindFails <;> cases write <;>
    simp [bindEndpoint, Binds, Except.map]

/-- The data is only written after the header. -/
theorem sendCtlMessage_cases (tables : Tables) (type : CtlMessageType) (data : List UInt8)
    (headerFails dataFails : Bool) :
    (headerFails = true ∧ ∃ halt,
        (sendCtlMessage type data headerFails dataFails).ends tables = (.error halt, tables)) ∨
      (headerFails = false ∧ dataFails = true ∧ ∃ halt,
        (sendCtlMessage type data headerFails dataFails).ends tables =
          (.error halt,
            { tables with ctl_pipe := tables.ctl_pipe ++ headerBytes type data.length })) ∨
      (headerFails = false ∧ dataFails = false ∧
        (sendCtlMessage type data headerFails dataFails).ends tables =
          (.ok 0,
            { tables with
              ctl_pipe := tables.ctl_pipe ++ (headerBytes type data.length ++ data) })) := by
  cases headerFails <;> cases dataFails <;>
    simp [sendCtlMessage, Stoppable.ends_bind, Except.map, List.append_assoc]

/-- `add_port` ends the process before it has changed anything. -/
def StopsEarly (env : OpenEnv) : Prop :=
  env.socket = none ∨ (env.fcntlFails = false ∧ env.connectFails = true)

/-- `add_port` has what it needs once it has begun to change the tables. -/
def Completes (tables : Tables) (env : PortRequestEnv) : Prop :=
  tables.ports.portc < tables.ports.arena.NUMPORTS ∧ env.mallocFails = false ∧ Binds env.binding

/-- The tables after a call of `add_port` that has made an endpoint. -/
def added (tables : Tables) (fd_data : Fd) (reallocated : Bool) : Tables :=
  { tables with
    ports := tables.ports.opened fd_data
    fdt := (fdTableInsert tables.fdt fd_data ⟨tables.ports.portc, fd_data⟩ reallocated).2 }

/-- The ways a call of `add_port` can end. -/
inductive AddPortEnds (tables : Tables) (env : PortRequestEnv) : Except Halt Int × Tables → Prop
  | stopped (halt : Halt) : StopsEarly env.request.opening →
      AddPortEnds tables env (.error halt, tables)
  /-- It gives up because of `fcntl`, and returns. -/
  | refused : ¬ StopsEarly env.request.opening → env.request.opening.fcntlFails = true →
      AddPortEnds tables env (.ok (-1), tables)
  /-- The number of the port is gone, whatever else has been done. -/
  | broken (halt : Halt) (after : Tables) : ¬ StopsEarly env.request.opening →
      env.request.opening.fcntlFails = false → ¬ tables.Completes env →
      after.ports.portc = tables.ports.portc + 1 → AddPortEnds tables env (.error halt, after)
  | added (fd_data : Fd) : ¬ StopsEarly env.request.opening →
      env.request.opening.fcntlFails = false → env.request.opening.socket = some fd_data →
      tables.Completes env →
      AddPortEnds tables env (.ok fd_data.toInt, tables.added fd_data env.binding.reallocated)

/-- `add_port` on a connected socket. -/
theorem addPortEnds_connected (hm : tables.ports.Inv) {fd_data : Fd}
    (hsocket : env.request.opening.socket = some fd_data)
    (hfcntl : env.request.opening.fcntlFails = false)
    (hconnect : env.request.opening.connectFails = false) :
    AddPortEnds tables env ((addPort env).ends tables) := by
  have hearly : ¬ StopsEarly env.request.opening := by simp [StopsEarly, hsocket, hconnect]
  rcases Nat.lt_or_ge tables.ports.portc tables.ports.arena.NUMPORTS with hlt | hge
  · have halloc := @ends_allocEndpoint_of_down tables.countPort _ hm.portc_pos hlt
      (hm.down _ (le_refl _)) fd_data env.mallocFails
    cases hmalloc : env.mallocFails with
    | true =>
        -- the flag of the port stays up
        rw [hmalloc, if_pos rfl] at halloc
        have hends : (addPort env).ends tables =
            (.error .crash, tables.countPort.setArena
              (tables.countPort.ports.arena.setPort tables.ports.portc
                { flag := .UP, ep := none })) := by
          simp [addPort, hsocket, hfcntl, hconnect, Stoppable.ends_bind, halloc, hmalloc]
        rw [hends]
        exact .broken .crash _ hearly hfcntl (by simp [Completes, hmalloc]) rfl
    | false =>
        -- the endpoint is in the list, and is bound next
        rw [hmalloc, if_neg (by decide)] at halloc
        have hends : (addPort env).ends tables =
            (bindEndpoint ⟨tables.ports.portc, fd_data⟩ env.binding).ends
              { tables with ports := tables.ports.opened fd_data } := by
          simp [addPort, hsocket, hfcntl, hconnect, Stoppable.ends_bind, halloc, hmalloc]
          rfl
        rw [hends]
        rcases bindEndpoint_cases { tables with ports := tables.ports.opened fd_data }
            ⟨tables.ports.portc, fd_data⟩ env.binding with ⟨hbinds, halt, hbind⟩ | ⟨hbinds, hbind⟩
        · rw [hbind]
          exact .broken halt _ hearly hfcntl (by simp [Completes, hbinds]) rfl
        · rw [hbind]
          exact .added fd_data hearly hfcntl hsocket ⟨hlt, hmalloc, hbinds⟩
  · have halloc := @ends_allocEndpoint_of_ge tables.countPort _ hge fd_data env.mallocFails
    have hends : (addPort env).ends tables =
        (.error (.exit 1 "Invalid port number\n"), tables.countPort) := by
      simp [addPort, hsocket, hfcntl, hconnect, Stoppable.ends_bind, halloc]
    rw [hends]
    exact .broken _ _ hearly hfcntl (by simp [Completes, hge]) rfl

theorem addPortEnds (hm : tables.ports.Inv) (env : PortRequestEnv) :
    AddPortEnds tables env ((addPort env).ends tables) := by
  cases hsocket : env.request.opening.socket with
  | none =>
      have hends : (addPort env).ends tables =
          (.error (.exit 1 "socket() failed"), tables) := by
        simp [addPort, hsocket, Except.map]
      rw [hends]
      exact .stopped _ (Or.inl hsocket)
  | some fd_data =>
      cases hfcntl : env.request.opening.fcntlFails with
      | true =>
          have hends : (addPort env).ends tables = (.ok (-1), tables) := by
            simp [addPort, hsocket, hfcntl, Except.map]
          rw [hends]
          exact .refused (by simp [StopsEarly, hsocket, hfcntl]) hfcntl
      | false =>
          cases hconnect : env.request.opening.connectFails with
          | true =>
              have hends : (addPort env).ends tables =
                  (.error (.exit 1 "connect() failed: %s"), tables) := by
                simp [addPort, hsocket, hfcntl, hconnect, Except.map]
              rw [hends]
              exact .stopped _ (Or.inr ⟨hfcntl, hconnect⟩)
          | false => exact addPortEnds_connected hm hsocket hfcntl hconnect

/-! ## Without the tables of a process that has ended

As long as `malloc` succeeds, these are the functions of the other modules. -/

theorem forget_allocEndpoint (tables : Tables) (portno : Nat) (fd_data : Fd) :
    (allocEndpoint portno fd_data false).forget tables =
      (Io.allocEndpoint tables.ports.arena portno fd_data).map fun (ep, arena) =>
        (ep, tables.setArena arena) := by
  cases halloc : allocPort tables.ports.arena portno with
  | error halt =>
      simp [allocEndpoint, Io.allocEndpoint, Stoppable.forget_bind, halloc, Except.map, Except.bind]
  | ok result =>
      rcases result with ⟨p, arena⟩
      cases p <;>
        simp [allocEndpoint, Io.allocEndpoint, Stoppable.forget_bind, halloc, setArena, Except.map,
          Except.bind]

theorem forget_bindEndpoint (tables : Tables) (ep : Endpoint) (env : BindEnv) :
    (bindEndpoint ep env).forget tables =
      (addPortBind ep env tables.fdt).map fun (fd_data, fdt) =>
        (fd_data, { tables with fdt := fdt }) := by
  rcases env with ⟨unlinkFails, bindFails, write, reallocated⟩
  cases unlinkFails <;> cases bindFails <;> cases write <;>
    simp [bindEndpoint, addPortBind, Except.map]

theorem forget_addPort (tables : Tables) (hmalloc : env.mallocFails = false) :
    (addPort env).forget tables =
      (addPortOpen tables.ports env.request.opening).bind fun (ep, m) =>
        match ep with
        | none => .ok (-1, { tables with ports := m })
        | some ep =>
            (addPortBind ep env.binding tables.fdt).map fun (fd_data, fdt) =>
              (fd_data, { tables with ports := m, fdt := fdt }) := by
  cases hsocket : env.request.opening.socket with
  | none => simp [addPort, addPortOpen, hsocket, Except.map, Except.bind]
  | some fd_data =>
      cases hfcntl : env.request.opening.fcntlFails with
      | true => simp [addPort, addPortOpen, hsocket, hfcntl, Except.map, Except.bind]
      | false =>
          cases hconnect : env.request.opening.connectFails with
          | true => simp [addPort, addPortOpen, hsocket, hfcntl, hconnect, Except.map, Except.bind]
          | false =>
              have harena : tables.countPort.ports.arena = tables.ports.arena := rfl
              cases halloc : Io.allocEndpoint tables.ports.arena tables.ports.portc fd_data with
              | error halt =>
                  simp [addPort, addPortOpen, hsocket, hfcntl, hconnect, hmalloc, halloc, harena,
                    Stoppable.forget_bind, forget_allocEndpoint, Except.map, Except.bind]
              | ok result =>
                  rcases result with ⟨ep, arena⟩
                  cases ep with
                  | none =>
                      simp [addPort, addPortOpen, hsocket, hfcntl, hconnect, hmalloc, halloc,
                        harena, Stoppable.forget_bind, forget_allocEndpoint, Except.map,
                        Except.bind]
                  | some ep =>
                      simp [addPort, addPortOpen, hsocket, hfcntl, hconnect, hmalloc, halloc,
                        harena, Stoppable.forget_bind, forget_allocEndpoint, forget_bindEndpoint,
                        setArena, Except.map, Except.bind]
                      rfl

theorem forget_sendCtlMessage (tables : Tables) (type : CtlMessageType) (data : List UInt8)
    (headerFails dataFails : Bool) :
    (sendCtlMessage type data headerFails dataFails).forget tables =
      (Message.sendCtlMessage tables.ctl_pipe type data headerFails dataFails).map fun ctl_pipe =>
        (0, { tables with ctl_pipe := ctl_pipe }) := by
  cases headerFails <;> cases dataFails <;> rfl

end Tables

end ControlPlane
end EVdeSwitch
