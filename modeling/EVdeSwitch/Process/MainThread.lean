import EVdeSwitch.Config.OptString
import EVdeSwitch.DataPlane.EngineInit
import EVdeSwitch.Process.Switch

/-!
# MainThread — from `main` to the loops

`main` of `src/main.c` reads the options, makes the tables, the sockets and the workers, and becomes
the control plane.  The thread of the data plane runs from `pthread_create` in `init_data_plane` on,
while the pool to which it gives its packets is made by `fw_engine_init` after that: until then
`pool` is the null pointer.  A worker that has been created waits for a message, and only
`dispatch_packet` writes any.
-/

namespace EVdeSwitch
namespace Process

open EVdeSwitch.Config
open EVdeSwitch.ControlPlane
open EVdeSwitch.DataPlane
open EVdeSwitch.Io
open EVdeSwitch.Lib
open EVdeSwitch.Message
open EVdeSwitch.Utils

/-! ## What `main` is given -/

/-- The command line, the files, and the capacity of a pipe. -/
structure Host where
  args : List (String × List UInt8)
  json : JsonEnv
  pipeSlots : Nat

/-- The call with which `init_ctl_plane` ends the process. -/
inductive FailedCall
  | socket
  | setsockopt
  | fcntl
  | mkdir
  | realpath
  | chownDirectory
  | chmodDirectory
  /-- The three calls of `still_used`. -/
  | testSocket
  | connect
  | unlink
  | bindAgain
  | chownSocket
  | listen
  | epoll
  | pipe
  deriving DecidableEq, Repr

/-- Every one of them ends the process, so that no result of `init_ctl_plane` is left for `main` to
look at. -/
def FailedCall.halt : FailedCall → Halt
  | .socket => .exit 1 "socket() failed"
  | .setsockopt => .exit 1 "setsockopt() failed"
  | .fcntl => .exit 1 "fcntl() failed"
  | .mkdir => .exit 255 "Cannot create ctl directory '%s': %s\n"
  | .realpath => .exit 1 "Cannot resolve ctl dir path '%s': %s\n"
  -- the message is about `sun.sun_path`, which has not been set yet
  | .chownDirectory => .crash
  | .chmodDirectory => .exit 1 "Could not set the VDE ctl directory '%s' permissions: %s"
  | .testSocket => .exit 1 "socket %s"
  | .connect => .exit 1 "connect %s"
  | .unlink => .exit 1 "Failed to removed unused socket '%s': %s"
  | .bindAgain => .exit 1 "Could not bind to socket '%s/ctl' (second attempt): %s"
  | .chownSocket => .exit 1 "Could not chown socket '%s': %s"
  | .listen => .exit 1 "Could not listen on fd %d: %s"
  | .epoll => .exit 1 "Failed to add fd %d to epoll %s: %s"
  | .pipe => .exit 1 "pipe() failed: %s"

/-- What the calls return: `build_optstring` gets memory from `malloc`, with what was in it before,
`init_ctl_plane` the listening socket and the end of `ctl_pipe` that is read, and the loop of
`thread_pool_create` the pipe of one worker. -/
structure MainEnv where
  malloc : Option (Nat → UInt8)
  ctlPlane : Except FailedCall (Fd × Fd)
  epollFails : Bool
  pthreadFails : Bool
  pipe : Option (Fd × Fd)

/-! ## The main thread -/

/-- The call that comes next. -/
inductive MainPc
  | process_options
  | port_init
  | fd_table_create
  | init_ctl_plane
  | init_data_plane
  | pthread_create
  | thread_pool_create
  /-- The loop of `thread_pool_create`, before it makes worker `i`. -/
  | worker (i : Nat)
  deriving DecidableEq, Repr

/-- The thread of the data plane has been created. -/
def MainPc.HasDataPlane : MainPc → Bool
  | thread_pool_create | worker _ => true
  | _ => false

/-- The global variables on the way to `ctl_plane_loop`; a pointer that has not been set is null.
`workers` is the pool that is being made. -/
structure Launch where
  pc : MainPc
  settings : Settings
  port_arena : Option PortArena
  fdt : Option FdTable
  mt : Option MacTable
  connect_fd : Option Fd
  ctl_pipe_fd : Fd
  ctl_fds : List (BitVec 64)
  data_fds : List (BitVec 64)
  ctl_pipe : List UInt8
  workers : Nat → WorkerSlot Buffer

/-- The process, from its first instruction on. -/
inductive Lifetime
  | launching (l : Launch)
  | serving (c : Config) (s : Switch)
  /-- The loops are entered with a worker missing; what packets do then is not followed. -/
  | maimed
  | ended (halt : Halt)

namespace Launch

def start : Launch :=
  { pc := .process_options
    settings := Settings.initial
    port_arena := none
    fdt := none
    mt := none
    connect_fd := none
    ctl_pipe_fd := 0
    ctl_fds := []
    data_fds := []
    ctl_pipe := []
    workers := fun _ => .zeroed }

/-- The `int` as the `size_t` that `thread_pool_create` takes. -/
def num_threads (l : Launch) : BitVec 64 :=
  (BitVec.ofInt 32 l.settings.worker_threads).signExtend 64

/-- A worker that has been created waits for its first message. -/
def startedWorker (worker : WorkerSlot Buffer) : Worker Buffer :=
  { ring := { Spsc.create with rb := worker.ring.getD ringBufferCreate }
    pipe := []
    running := worker.running
    pc := .reading }

/-- The pool as its machine starts; a slot behind the last worker has no thread. -/
def startedPool (num_threads : Nat) (workers : Nat → WorkerSlot Buffer) : ThreadPool Buffer :=
  { ThreadPool.create with
    workers := fun i =>
      if i < num_threads then startedWorker (workers i) else ThreadPool.create.workers i }

/-- `pool` is set, and `ctl_plane_loop` is called. -/
def enterLoop (pipeSlots : Nat) (l : Launch) : Lifetime :=
  match l.port_arena, l.fdt, l.mt, l.connect_fd with
  | some port_arena, some fdt, some mt, some connect_fd =>
      if h : 1 ≤ port_arena.NUMPORTS ∧
          (1 ≤ l.num_threads.toNat ∧ l.num_threads.toNat ≤ MAX_THREADS) ∧
          ∀ i < l.num_threads.toNat,
            (l.workers i).ring.isSome = true ∧ (l.workers i).running = true then
        .serving
          { threads := ⟨l.num_threads.toNat, h.2.1.1, h.2.1.2⟩
            pipeSlots := pipeSlots
            numports := port_arena.NUMPORTS
            numports_pos := h.1
            connect_fd := connect_fd
            ctl_pipe := l.ctl_pipe_fd }
          (.running
            { engine :=
                { pool := startedPool l.num_threads.toNat l.workers
                  fdt := fdt
                  endpoints := []
                  mt := mt
                  sent := [] }
              arena := port_arena
              portc := 1
              ctl_fds := l.ctl_fds
              data_fds := l.data_fds
              ctl_pipe := l.ctl_pipe
              ctl := .waiting })
      else
        .maimed
  | _, _, _, _ => .maimed

/-- `process_necessary_options`; `getopt_long` follows the pointer to the short options. -/
def readOptions (host : Host) (settings : Settings) (malloc : Option (Nat → UInt8)) :
    Except Halt Settings :=
  (buildOptstring (some globalEntries) 3 malloc).bind fun optstring =>
    match optstring with
    | none => .error .crash
    | some _ => processNecessaryOptions host.json host.args settings

/-- The next call of the main thread. -/
def mainStep (host : Host) (l : Launch) (env : MainEnv) : Except Halt Lifetime :=
  match l.pc with
  | .process_options =>
      (readOptions host l.settings env.malloc).map fun settings =>
        .launching { l with pc := .port_init, settings := settings }
  | .port_init =>
      (portInit l.settings.numports).map fun port_arena =>
        .launching { l with pc := .fd_table_create, port_arena := some port_arena }
  | .fd_table_create => .ok (.launching { l with pc := .init_ctl_plane, fdt := some fdTableCreate })
  | .init_ctl_plane =>
      match env.ctlPlane with
      | .error call => .error call.halt
      | .ok (connect_fd, ctl_pipe_fd) =>
          .ok (.launching
            { l with
              pc := .init_data_plane
              connect_fd := some connect_fd
              ctl_fds := l.ctl_fds ++ [eventData CtlReqType.CTL_LISTEN.toNat connect_fd]
              ctl_pipe_fd := ctl_pipe_fd
              mt := some macTableCreate })
  | .init_data_plane =>
      (addFd l.data_fds DataReqType.CTL_MESSAGE.toNat l.ctl_pipe_fd env.epollFails).map fun fds =>
        .launching { l with pc := .pthread_create, data_fds := fds }
  | .pthread_create =>
      if env.pthreadFails then
        .error (.exit 1 "pthread_create() failed: %s")
      else
        .ok (.launching { l with pc := .thread_pool_create })
  | .thread_pool_create =>
      if l.num_threads < 1 then
        .error (.exit 1 "Can't have less than one worker thread")
      else
        .ok (.launching { l with pc := .worker 0 })
  | .worker i =>
      if i < l.num_threads.toNat then
        if i < MAX_THREADS then
          .ok (.launching
            { l with
              pc := .worker (i + 1)
              workers := Function.update l.workers i ((l.workers i).init env.pipe i) })
        else
          .error .crash
      else
        .ok (l.enterLoop host.pipeSlots)

/-! ## The thread of the data plane -/

/-- The state after a call of `handle_ctl_message` that returns. -/
def afterCtlMessage (l : Launch) (rest : List UInt8) (data_fd : Option Int) : Launch :=
  { l with
    ctl_pipe := rest
    data_fds :=
      match data_fd.bind Fd.ofInt with
      | some fd => l.data_fds ++ [eventData DataReqType.PACKET.toNat fd]
      | none => l.data_fds }

/-- The handlers of `data_plane_loop`. -/
def dataHandlers (env : DataEventEnv) : DataHandlers (StateT Launch (ExceptT Halt Option)) :=
  { handle_ctl_message := fun _ _ l =>
      (handleCtlMessage env.ctl l.ctl_pipe).map fun call =>
        call.result.map fun data_fd => ((), l.afterCtlMessage call.rest data_fd)
    -- `pool->num_threads`, with the null pointer
    dispatch_packet := fun _ _ => some (.error .crash)
    printlog := fun level fmt l => some ((printlog level fmt).map fun _ => ((), l)) }

/-- The body of the loop of the data plane, for a registered word. -/
def dataEvent (l : Launch) (word : BitVec 64) (env : DataEventEnv) : Option (Except Halt Launch) :=
  Option.map (Except.map Prod.snd) (dataPlaneRound (dataHandlers env) [word] 0 l)

end Launch

/-! ## The process -/

inductive LifetimeAction
  | main (env : MainEnv)
  | dataEvent (word : BitVec 64) (env : DataEventEnv)
  | serve (a : SwitchAction)

namespace Lifetime

def ofExcept : Except Halt Lifetime → Lifetime
  | .ok x => x
  | .error halt => .ended halt

def step (host : Host) : Lifetime → LifetimeAction → Option Lifetime
  | .launching l, .main env => some (ofExcept (l.mainStep host env))
  | .launching l, .dataEvent word env =>
      if l.pc.HasDataPlane && l.data_fds.contains word then
        (l.dataEvent word env).map fun r => ofExcept (r.map launching)
      else
        none
  | .serving c s, .serve a => ((switch c).step s a).map (serving c)
  | _, _ => none

end Lifetime

/-- All interleavings of the main thread and the data plane, and then those of the switch. -/
def program (host : Host) : Machine Lifetime LifetimeAction :=
  { step := Lifetime.step host }

/-! ## Options -/

section Options

/-- The options end the process, if at all, with `exit`; otherwise the number of threads is some
`int`. -/
def Orderly : Except Halt Settings → Prop
  | .ok settings => ∃ count : BitVec 32, settings.worker_threads = count.toInt
  | .error halt => halt ≠ .crash

theorem orderly_foldlM {α : Type} {f : Settings → α → Except Halt Settings}
    (hf : ∀ settings a, Orderly (.ok settings) → Orderly (f settings a)) (as : List α)
    {settings : Settings} (h : Orderly (.ok settings)) : Orderly (as.foldlM f settings) := by
  induction as generalizing settings with
  | nil => exact h
  | cons a as ih =>
      have hfirst : Orderly (f settings a) := hf settings a h
      rw [List.foldlM_cons]
      cases hresult : f settings a with
      | error halt =>
          rw [hresult] at hfirst
          exact hfirst
      | ok settings' =>
          rw [hresult] at hfirst
          exact ih hfirst

theorem orderly_exit (status : Nat) (message : String) :
    Orderly (.error (.exit status message)) := by
  intro h
  cases h

/-- A file leaves the number alone, or sets it with `atoi`. -/
theorem orderly_processJsonConfig (env : JsonEnv)
    (nested : List UInt8 → Settings → Except Halt Settings) (pathname : List UInt8)
    {settings : Settings} (h : Orderly (.ok settings)) :
    Orderly (processJsonConfig env nested pathname settings) := by
  cases hfile : env.files pathname with
  | parsed child =>
      rw [processJsonConfig_parsed hfile]
      change ∃ count : BitVec 32,
        fileValue env child "threads" settings.worker_threads = count.toInt
      rw [fileValue]
      split
      · exact h
      · split
        · exact ⟨_, rfl⟩
        · exact h
  -- the file is of no use, and `printlog` ends the process
  | _ =>
      rw [processJsonConfig, hfile]
      exact orderly_exit 1 _

theorem orderly_parseGlobalOpt {config : List UInt8 → Settings → Except Halt Settings}
    (hconfig : ∀ pathname settings, Orderly (.ok settings) → Orderly (config pathname settings))
    (c : Nat) (optarg : List UInt8) {settings : Settings} (h : Orderly (.ok settings)) :
    Orderly (parseGlobalOpt config c optarg settings) := by
  simp only [parseGlobalOpt]
  split_ifs
  · exact hconfig _ _ h
  · exact h
  · exact h
  -- `--threads`
  · exact ⟨_, rfl⟩
  · exact orderly_exit 0 _
  · exact h

theorem orderly_processNecessaryOptions (env : JsonEnv) (args : List (String × List UInt8)) :
    Orderly (processNecessaryOptions env args Settings.initial) := by
  have hinitial : Orderly (.ok Settings.initial) := ⟨4, rfl⟩
  refine orderly_foldlM ?_ args hinitial
  intro settings arg h
  refine orderly_parseGlobalOpt ?_ _ _ h
  intro pathname settings h
  exact orderly_processJsonConfig env _ pathname h

/-- What the options come to. -/
def Host.Sets (host : Host) (settings : Settings) : Prop :=
  processNecessaryOptions host.json host.args Settings.initial = .ok settings

/-- The options ask for what the switch is configured with. -/
structure Host.Configures (host : Host) (c : Config) : Prop where
  pipeSlots : c.pipeSlots = host.pipeSlots
  sets : ∃ settings, host.Sets settings ∧ (c.numports : Int) = settings.numports ∧
    (c.threads.val : Int) = settings.worker_threads

/-- There are ports, and workers that the array of the pool has no slots for. -/
def Host.OutOfRange (host : Host) : Prop :=
  ∃ settings, host.Sets settings ∧ 1 ≤ settings.numports ∧
    (settings.worker_threads < 0 ∨ (MAX_THREADS : Int) < settings.worker_threads)

end Options

/-! ## What has been set up at each call -/

namespace Launch

def atPorts (settings : Settings) : Launch :=
  { start with pc := .port_init, settings := settings }

def atTable (settings : Settings) : Launch :=
  { atPorts settings with
    pc := .fd_table_create
    port_arena := some (PortArena.alloc settings.numports.toNat) }

def atCtlPlane (settings : Settings) : Launch :=
  { atTable settings with pc := .init_ctl_plane, fdt := some fdTableCreate }

def atDataPlane (settings : Settings) (connect_fd ctl_pipe_fd : Fd) : Launch :=
  { atCtlPlane settings with
    pc := .init_data_plane
    connect_fd := some connect_fd
    ctl_fds := [eventData CtlReqType.CTL_LISTEN.toNat connect_fd]
    ctl_pipe_fd := ctl_pipe_fd
    mt := some macTableCreate }

def atThread (settings : Settings) (connect_fd ctl_pipe_fd : Fd) : Launch :=
  { atDataPlane settings connect_fd ctl_pipe_fd with
    pc := .pthread_create
    data_fds := [eventData DataReqType.CTL_MESSAGE.toNat ctl_pipe_fd] }

def atPool (settings : Settings) (connect_fd ctl_pipe_fd : Fd) : Launch :=
  { atThread settings connect_fd ctl_pipe_fd with pc := .thread_pool_create }

def atWorker (settings : Settings) (connect_fd ctl_pipe_fd : Fd) (i : Nat)
    (workers : Nat → WorkerSlot Buffer) : Launch :=
  { atPool settings connect_fd ctl_pipe_fd with pc := .worker i, workers := workers }

/-- The slots are as `calloc` has left them, or as the loop has made them. -/
def Slots (workers : Nat → WorkerSlot Buffer) : Prop :=
  ∀ i, workers i = .zeroed ∨ ∃ pipe_fd, workers i = WorkerSlot.zeroed.init (some pipe_fd) i

/-- Where the main thread can be before the loops. -/
inductive Stage (host : Host) : Launch → Prop
  | options : Stage host start
  | ports {settings : Settings} : host.Sets settings → Stage host (atPorts settings)
  | table {settings : Settings} : host.Sets settings → 1 ≤ settings.numports →
      Stage host (atTable settings)
  | ctlPlane {settings : Settings} : host.Sets settings → 1 ≤ settings.numports →
      Stage host (atCtlPlane settings)
  | dataPlane {settings : Settings} (connect_fd ctl_pipe_fd : Fd) : host.Sets settings →
      1 ≤ settings.numports → Stage host (atDataPlane settings connect_fd ctl_pipe_fd)
  | thread {settings : Settings} (connect_fd ctl_pipe_fd : Fd) : host.Sets settings →
      1 ≤ settings.numports → Stage host (atThread settings connect_fd ctl_pipe_fd)
  | pool {settings : Settings} (connect_fd ctl_pipe_fd : Fd) : host.Sets settings →
      1 ≤ settings.numports → Stage host (atPool settings connect_fd ctl_pipe_fd)
  | worker {settings : Settings} (connect_fd ctl_pipe_fd : Fd) (i : Nat)
      {workers : Nat → WorkerSlot Buffer} : host.Sets settings → 1 ≤ settings.numports →
      (BitVec.ofInt 32 settings.worker_threads).signExtend 64 ≠ 0 → Slots workers →
      Stage host (atWorker settings connect_fd ctl_pipe_fd i workers)

variable {host : Host} {l : Launch} {settings : Settings} {connect_fd ctl_pipe_fd : Fd} {i : Nat}
variable {workers : Nat → WorkerSlot Buffer}

theorem portInit_of_lt {numports : Int} (h : numports < 1) :
    portInit numports = .error (.exit 1 "Invalid number of ports\n") := by
  rw [portInit, if_pos h]
  rfl

theorem portInit_of_pos {numports : Int} (h : 1 ≤ numports) :
    portInit numports = .ok (PortArena.alloc numports.toNat) := by
  rw [portInit, if_neg (not_lt.2 h)]
  rfl

theorem mainStep_pool (env : MainEnv) :
    (atPool settings connect_fd ctl_pipe_fd).mainStep host env =
      if (BitVec.ofInt 32 settings.worker_threads).signExtend 64 < 1 then
        .error (.exit 1 "Can't have less than one worker thread")
      else
        .ok (.launching (atWorker settings connect_fd ctl_pipe_fd 0 fun _ => .zeroed)) := rfl

theorem mainStep_worker (env : MainEnv) :
    (atWorker settings connect_fd ctl_pipe_fd i workers).mainStep host env =
      if i < ((BitVec.ofInt 32 settings.worker_threads).signExtend 64).toNat then
        if i < MAX_THREADS then
          .ok (.launching (atWorker settings connect_fd ctl_pipe_fd (i + 1)
            (Function.update workers i ((workers i).init env.pipe i))))
        else
          .error .crash
      else
        .ok ((atWorker settings connect_fd ctl_pipe_fd i workers).enterLoop host.pipeSlots) := rfl

/-! ## The data plane waits -/

/-- Whoever reads an empty pipe blocks. -/
theorem handleCtlMessage_nil (env : CtlEnv) : handleCtlMessage env [] = none := rfl

/-- Only the control plane writes to the pipe. -/
theorem Stage.ctl_pipe_eq (h : Stage host l) : l.ctl_pipe = [] := by
  cases h <;> rfl

theorem Stage.exists_fd (h : Stage host l) {word : BitVec 64} (hword : word ∈ l.data_fds) :
    ∃ fd, word = DataReqType.data ⟨.CTL_MESSAGE, fd⟩ := by
  cases h with
  | thread _ ctl_pipe_fd _ _ => exact ⟨ctl_pipe_fd, List.mem_singleton.1 hword⟩
  | pool _ ctl_pipe_fd _ _ => exact ⟨ctl_pipe_fd, List.mem_singleton.1 hword⟩
  | worker _ ctl_pipe_fd _ _ _ _ _ => exact ⟨ctl_pipe_fd, List.mem_singleton.1 hword⟩
  -- before that it polls nothing at all
  | _ => cases hword

/-- While the pool is made nobody has written to the pipe, and the data plane polls nothing else. -/
theorem Stage.dataEvent_eq_none (h : Stage host l) {word : BitVec 64} (hword : word ∈ l.data_fds)
    (env : DataEventEnv) : l.dataEvent word env = none := by
  rcases h.exists_fd hword with ⟨fd, rfl⟩
  have hround := DataReqType.dataPlaneRound_eq (dataHandlers env) ⟨.CTL_MESSAGE, fd⟩ [] 0
  rw [List.map_singleton] at hround
  rw [dataEvent, hround]
  simp only [DataReqType.handle, dataHandlers, h.ctl_pipe_eq, handleCtlMessage_nil,
    Option.map_none]

/-! ## The workers -/

theorem Slots.init (h : Slots workers) (pipe : Option (Fd × Fd)) (i : Nat) :
    Slots (Function.update workers i ((workers i).init pipe i)) := by
  intro j
  by_cases hj : j = i
  · subst hj
    rw [Function.update_self]
    cases pipe with
    | none => exact h j
    | some pipe_fd => exact Or.inr ⟨pipe_fd, rfl⟩
  · rw [Function.update_of_ne hj]
    exact h j

/-- A live worker is one that has been created. -/
theorem Slots.startedWorker_eq (h : Slots workers)
    (hlive : (workers i).ring.isSome = true) :
    startedWorker (workers i) = ThreadPool.create.workers i := by
  rcases h i with hzeroed | ⟨pipe_fd, hcreated⟩
  · rw [hzeroed] at hlive
    cases hlive
  · rw [hcreated]
    rfl

theorem Slots.startedPool_eq (h : Slots workers) {n : Nat}
    (hlive : ∀ i < n, (workers i).ring.isSome = true ∧ (workers i).running = true) :
    startedPool n workers = ThreadPool.create := by
  have hworkers : (fun i => if i < n then startedWorker (workers i)
      else (ThreadPool.create : ThreadPool Buffer).workers i) = ThreadPool.create.workers := by
    funext i
    split
    · exact h.startedWorker_eq (hlive i ‹_›).1
    · rfl
  rw [startedPool, hworkers]

/-- With every worker there, the loops are entered in the state that the switch starts with. -/
theorem Slots.enterLoop_eq (h : Slots workers) (c : Config)
    (hnumports : c.numports = settings.numports.toNat)
    (hthreads : c.threads.val = ((BitVec.ofInt 32 settings.worker_threads).signExtend 64).toNat)
    (hlive : ∀ i < c.threads.val, (workers i).ring.isSome = true ∧ (workers i).running = true) :
    (atWorker settings c.connect_fd c.ctl_pipe i workers).enterLoop c.pipeSlots =
      .serving c (.running (State.start c)) := by
  rcases c with ⟨⟨n, hpos, hmax⟩, pipeSlots, numports, hports, connect_fd, ctl_pipe_fd⟩
  change numports = settings.numports.toNat at hnumports
  change n = ((BitVec.ofInt 32 settings.worker_threads).signExtend 64).toNat at hthreads
  subst hnumports hthreads
  let c : Config := ⟨⟨_, hpos, hmax⟩, pipeSlots, _, hports, connect_fd, ctl_pipe_fd⟩
  have hengine : { Engine.start with pool := startedPool c.threads.val workers } =
      Engine.start := by
    rw [h.startedPool_eq hlive]
    rfl
  exact (dif_pos ⟨hports, ⟨hpos, hmax⟩, hlive⟩).trans
    (congrArg (fun engine => Lifetime.serving c (.running { State.start c with engine := engine }))
      hengine)

/-- The loops are entered in that state, or not with all workers. -/
theorem Slots.enterLoop_cases (h : Slots workers) (hports : 1 ≤ settings.numports)
    (connect_fd ctl_pipe_fd : Fd) (i pipeSlots : Nat) :
    (atWorker settings connect_fd ctl_pipe_fd i workers).enterLoop pipeSlots = .maimed ∨
      ∃ c : Config, c.pipeSlots = pipeSlots ∧ (c.numports : Int) = settings.numports ∧
        c.threads.val = ((BitVec.ofInt 32 settings.worker_threads).signExtend 64).toNat ∧
        (atWorker settings connect_fd ctl_pipe_fd i workers).enterLoop pipeSlots =
          .serving c (.running (State.start c)) := by
  let n := ((BitVec.ofInt 32 settings.worker_threads).signExtend 64).toNat
  by_cases hready : 1 ≤ settings.numports.toNat ∧ (1 ≤ n ∧ n ≤ MAX_THREADS) ∧
      ∀ i < n, (workers i).ring.isSome = true ∧ (workers i).running = true
  · let c : Config := ⟨⟨n, hready.2.1.1, hready.2.1.2⟩, pipeSlots, settings.numports.toNat,
      hready.1, connect_fd, ctl_pipe_fd⟩
    have hnumports : (settings.numports.toNat : Int) = settings.numports :=
      Int.toNat_of_nonneg (by omega)
    exact Or.inr ⟨c, rfl, hnumports, rfl, h.enterLoop_eq c rfl rfl hready.2.2⟩
  · exact Or.inl (dif_neg hready)

end Launch

namespace Lifetime

open Launch

/-- Where the process can be. -/
def Inv (host : Host) : Lifetime → Prop
  | .launching l => Stage host l
  | .serving c s => host.Configures c ∧ (switch c).Reaches (.running (State.start c)) s
  | .maimed | .ended _ => True

variable {host : Host} {l : Launch} {x y : Lifetime} {settings : Settings}

/-- The number that the options have left is an `int`. -/
theorem exists_count (h : host.Sets settings) :
    ∃ count : BitVec 32, settings.worker_threads = count.toInt ∧
      BitVec.ofInt 32 settings.worker_threads = count := by
  have horderly := orderly_processNecessaryOptions host.json host.args
  rw [Host.Sets] at h
  rw [h] at horderly
  rcases horderly with ⟨count, hcount⟩
  exact ⟨count, hcount, by rw [hcount, BitVec.ofInt_toInt]⟩

/-- What the options come to, if there is memory for the short ones. -/
theorem sets_of_readOptions {malloc : Option (Nat → UInt8)}
    (h : readOptions host Settings.initial malloc = .ok settings) : host.Sets settings := by
  rw [readOptions] at h
  cases hbuilt : buildOptstring (some globalEntries) 3 malloc with
  | error halt =>
      rw [hbuilt] at h
      cases h
  | ok optstring =>
      rw [hbuilt] at h
      cases optstring with
      | none => cases h
      | some text => exact h

/-- The counts for which the loop leaves the array. -/
theorem signExtend_outside_iff {count : BitVec 32} :
    count.signExtend 64 ≠ 0 ∧ MAX_THREADS < (count.signExtend 64).toNat ↔
      count.toInt < 0 ∨ (MAX_THREADS : Int) < count.toInt := by
  have hfits : count.signExtend 64 ≠ 0 ∧ (count.signExtend 64).toNat ≤ MAX_THREADS ↔
      1 ≤ count.toInt ∧ count.toInt ≤ MAX_THREADS := toNat_signExtend_le_iff
  have hint : (count.signExtend 64).toInt = count.toInt :=
    BitVec.toInt_signExtend_of_le (by decide)
  have hzero : count.signExtend 64 = 0 ↔ count.toInt = 0 := by
    rw [← hint]
    exact BitVec.toInt_inj.symm
  constructor
  · rintro ⟨hne, hgt⟩
    have hcount : count.toInt ≠ 0 := fun h => hne (hzero.2 h)
    have hnot : ¬ (1 ≤ count.toInt ∧ count.toInt ≤ MAX_THREADS) := fun h =>
      absurd (hfits.2 h).2 (not_le.2 hgt)
    omega
  · intro houtside
    have hne : count.signExtend 64 ≠ 0 := by
      intro h
      have hcount := hzero.1 h
      omega
    refine ⟨hne, not_le.1 fun hle => ?_⟩
    have hcount := hfits.1 ⟨hne, hle⟩
    omega

theorem inv_worker (connect_fd ctl_pipe_fd : Fd) (i : Nat) {workers : Nat → WorkerSlot Buffer}
    (hsets : host.Sets settings) (hports : 1 ≤ settings.numports)
    (hpos : (BitVec.ofInt 32 settings.worker_threads).signExtend 64 ≠ 0) (hslots : Slots workers)
    (env : MainEnv) :
    Inv host
      (ofExcept ((atWorker settings connect_fd ctl_pipe_fd i workers).mainStep host env)) := by
  rcases exists_count hsets with ⟨count, hcount, hword⟩
  rw [mainStep_worker]
  split
  · split
    · exact Stage.worker connect_fd ctl_pipe_fd (i + 1) hsets hports hpos (hslots.init env.pipe i)
    · trivial
  · rcases hslots.enterLoop_cases hports connect_fd ctl_pipe_fd i host.pipeSlots with
      hmaimed | ⟨c, hpipe, hnumports, hval, hserving⟩
    · exact hmaimed ▸ trivial
    · rw [hword] at hpos hval
      have hfits : 1 ≤ count.toInt ∧ count.toInt ≤ MAX_THREADS := by
        refine toNat_signExtend_le_iff.1 ⟨hpos, ?_⟩
        rw [← hval]
        exact c.threads.le_max
      have hinv : Inv host (.serving c (.running (State.start c))) := by
        refine ⟨⟨hpipe, settings, hsets, hnumports, ?_⟩, Machine.Reaches.refl _⟩
        rw [hval, hcount]
        exact toNat_signExtend_eq hfits
      exact hserving ▸ hinv

/-- The next call of the main thread. -/
theorem inv_mainStep (h : Stage host l) (env : MainEnv) :
    Inv host (ofExcept (l.mainStep host env)) := by
  cases h with
  | options =>
      simp only [mainStep, start]
      cases hoptions : readOptions host Settings.initial env.malloc with
      | error halt => trivial
      | ok settings => exact Stage.ports (sets_of_readOptions hoptions)
  | @ports settings hsets =>
      by_cases hports : settings.numports < 1
      · simp only [mainStep, atPorts, portInit_of_lt hports]
        trivial
      · simp only [mainStep, atPorts, portInit_of_pos (not_lt.1 hports)]
        exact Stage.table hsets (not_lt.1 hports)
  | table hsets hports => exact Stage.ctlPlane hsets hports
  | ctlPlane hsets hports =>
      simp only [mainStep, atCtlPlane]
      split
      · trivial
      · exact Stage.dataPlane _ _ hsets hports
  | dataPlane connect_fd ctl_pipe_fd hsets hports =>
      simp only [mainStep, atDataPlane, addFd]
      split
      · trivial
      · exact Stage.thread connect_fd ctl_pipe_fd hsets hports
  | thread connect_fd ctl_pipe_fd hsets hports =>
      simp only [mainStep, atThread]
      split
      · trivial
      · exact Stage.pool connect_fd ctl_pipe_fd hsets hports
  | pool connect_fd ctl_pipe_fd hsets hports =>
      rw [mainStep_pool]
      split
      · trivial
      · rename_i hpos
        refine Stage.worker connect_fd ctl_pipe_fd 0 hsets hports ?_ fun _ => Or.inl rfl
        intro hzero
        rw [hzero] at hpos
        exact hpos (by decide)
  | worker connect_fd ctl_pipe_fd i hsets hports hpos hslots =>
      exact inv_worker connect_fd ctl_pipe_fd i hsets hports hpos hslots env

/-- The data plane is blocked in `read`. -/
theorem step_dataEvent_eq_none (h : Stage host l) (word : BitVec 64) (env : DataEventEnv) :
    (program host).step (.launching l) (.dataEvent word env) = none := by
  change (if (l.pc.HasDataPlane && l.data_fds.contains word) = true then
    (l.dataEvent word env).map fun r => ofExcept (r.map launching) else none) = none
  by_cases hguard : (l.pc.HasDataPlane && l.data_fds.contains word) = true
  · have hword : word ∈ l.data_fds := List.contains_iff_mem.1 (Bool.and_eq_true_iff.1 hguard).2
    rw [if_pos hguard, h.dataEvent_eq_none hword env]
    rfl
  · exact if_neg hguard

theorem inv_step {a : LifetimeAction} (hx : Inv host x) (h : (program host).step x a = some y) :
    Inv host y := by
  cases x with
  | launching l =>
      have hstage : Stage host l := hx
      cases a with
      | main env =>
          cases h
          exact inv_mainStep hstage env
      | dataEvent word env =>
          rw [step_dataEvent_eq_none hstage word env] at h
          cases h
      | serve a => cases h
  | serving c s =>
      cases a with
      | serve a =>
          rcases Option.map_eq_some_iff.1 h with ⟨t, ht, rfl⟩
          exact ⟨hx.1, hx.2.trans (Machine.Reaches.single ht)⟩
      | _ => cases h
  | _ => cases h

theorem inv_of_reaches (h : (program host).Reaches (.launching .start) x) : Inv host x := by
  have hstart : Inv host (.launching .start) := Stage.options
  exact h.invariant (Inv host) (fun _ _ _ hx hstep => inv_step hx hstep) hstart

/-! ## Where it gets if no call fails -/

section Succeeds

variable {connect_fd ctl_pipe_fd : Fd} {i : Nat}

/-- No call fails. -/
def calmEnv (connect_fd ctl_pipe_fd : Fd) : MainEnv :=
  { malloc := some fun _ => 0
    ctlPlane := .ok (connect_fd, ctl_pipe_fd)
    epollFails := false
    pthreadFails := false
    pipe := some (8, 9) }

theorem reaches_main (env : MainEnv) (h : l.mainStep host env = .ok x) :
    (program host).Reaches (.launching l) x := by
  have hstep : (program host).step (.launching l) (.main env) = some x := by
    change some (ofExcept (l.mainStep host env)) = some x
    rw [h]
    rfl
  exact Machine.Reaches.single hstep

theorem reaches_atPool (hsets : host.Sets settings) (hports : 1 ≤ settings.numports)
    (connect_fd ctl_pipe_fd : Fd) :
    (program host).Reaches (.launching .start)
      (.launching (atPool settings connect_fd ctl_pipe_fd)) := by
  let env := calmEnv connect_fd ctl_pipe_fd
  have hoptions : start.mainStep host env = .ok (.launching (atPorts settings)) := by
    have hresult : readOptions host start.settings env.malloc = .ok settings := hsets
    simp only [mainStep, start] at hresult ⊢
    rw [hresult]
    rfl
  have hinit : (atPorts settings).mainStep host env = .ok (.launching (atTable settings)) := by
    simp only [mainStep, atPorts, portInit_of_pos hports]
    rfl
  have htable : (atTable settings).mainStep host env = .ok (.launching (atCtlPlane settings)) := rfl
  have hctl : (atCtlPlane settings).mainStep host env =
      .ok (.launching (atDataPlane settings connect_fd ctl_pipe_fd)) := rfl
  have hdata : (atDataPlane settings connect_fd ctl_pipe_fd).mainStep host env =
      .ok (.launching (atThread settings connect_fd ctl_pipe_fd)) := rfl
  have hthread : (atThread settings connect_fd ctl_pipe_fd).mainStep host env =
      .ok (.launching (atPool settings connect_fd ctl_pipe_fd)) := rfl
  have htables : (program host).Reaches (.launching .start) (.launching (atCtlPlane settings)) :=
    ((reaches_main env hoptions).trans (reaches_main env hinit)).trans (reaches_main env htable)
  have hplanes : (program host).Reaches (.launching (atCtlPlane settings))
      (.launching (atThread settings connect_fd ctl_pipe_fd)) :=
    (reaches_main env hctl).trans (reaches_main env hdata)
  exact (htables.trans hplanes).trans (reaches_main env hthread)

/-- The slots after `i` rounds. -/
def createdSlots (i : Nat) : Nat → WorkerSlot Buffer :=
  fun j => if j < i then WorkerSlot.zeroed.init (some (8, 9)) j else .zeroed

theorem createdSlots_succ (i : Nat) :
    Function.update (createdSlots i) i ((createdSlots i i).init (some (8, 9)) i) =
      createdSlots (i + 1) := by
  have hlast : createdSlots i i = .zeroed := if_neg (lt_irrefl i)
  funext j
  by_cases hj : j = i
  · subst hj
    rw [Function.update_self, hlast]
    exact (if_pos (Nat.lt_succ_self j)).symm
  · have hiff : j < i + 1 ↔ j < i := by omega
    rw [Function.update_of_ne hj]
    simp only [createdSlots, hiff]

theorem slots_createdSlots (i : Nat) : Slots (createdSlots i) := by
  intro j
  rw [createdSlots]
  split
  · exact Or.inr ⟨_, rfl⟩
  · exact Or.inl rfl

theorem live_createdSlots {j : Nat} (h : j < i) : (createdSlots i j).Live := by
  rw [createdSlots, if_pos h]
  exact WorkerSlot.live_init_iff.2 rfl

theorem reaches_atWorker (hpos : (BitVec.ofInt 32 settings.worker_threads).signExtend 64 ≠ 0)
    (hcount : i ≤ ((BitVec.ofInt 32 settings.worker_threads).signExtend 64).toNat)
    (hroom : i ≤ MAX_THREADS) :
    (program host).Reaches (.launching (atPool settings connect_fd ctl_pipe_fd))
      (.launching (atWorker settings connect_fd ctl_pipe_fd i (createdSlots i))) := by
  induction i with
  | zero =>
      refine reaches_main (calmEnv 0 0) ?_
      rw [mainStep_pool, if_neg (pos_of_ne_zero hpos)]
      rfl
  | succ i ih =>
      refine (ih (by omega) (by omega)).trans (reaches_main (calmEnv 0 0) ?_)
      rw [mainStep_worker, if_pos (by omega), if_pos (by omega)]
      exact congrArg (fun workers => Except.ok (Lifetime.launching
        (atWorker settings connect_fd ctl_pipe_fd (i + 1) workers))) (createdSlots_succ i)

end Succeeds

/-! ## What starts, and what does not -/

variable {c : Config} {s : Switch}

/-- From there on the process is the switch. -/
theorem reaches_serve {as : List SwitchAction} {t : Switch} (h : (switch c).run t as = some s) :
    (program host).Reaches (.serving c t) (.serving c s) := by
  induction as generalizing t with
  | nil =>
      cases h
      exact Machine.Reaches.refl _
  | cons a as ih =>
      rcases (Machine.run_cons_eq_some _).1 h with ⟨u, hstep, hrest⟩
      have hserve : (program host).step (.serving c t) (.serve a) = some (.serving c u) := by
        change ((switch c).step t a).map (Lifetime.serving c) = _
        rw [hstep]
        rfl
      exact (Machine.Reaches.single hserve).trans (ih hrest)

/-- A configuration that the options ask for is entered. -/
theorem reaches_serving (h : host.Configures c) :
    (program host).Reaches (.launching .start) (.serving c (.running (State.start c))) := by
  rcases h with ⟨hpipe, settings, hsets, hnumports, hthreads⟩
  rcases exists_count hsets with ⟨count, hcount, hword⟩
  have hports : 1 ≤ settings.numports := by
    have hc := c.numports_pos
    omega
  have hfits : 1 ≤ count.toInt ∧ count.toInt ≤ MAX_THREADS := by
    have hpos := c.threads.pos
    have hmax := c.threads.le_max
    omega
  rcases toNat_signExtend_le_iff.2 hfits with ⟨hne, hle⟩
  have hval : ((count.signExtend 64).toNat : Int) = count.toInt := toNat_signExtend_eq hfits
  have hthreads' : c.threads.val =
      ((BitVec.ofInt 32 settings.worker_threads).signExtend 64).toNat := by
    rw [hword]
    omega
  rw [← hword] at hne
  have hworkers : (program host).Reaches (.launching .start) (.launching
      (atWorker settings c.connect_fd c.ctl_pipe c.threads.val (createdSlots c.threads.val))) :=
    (reaches_atPool hsets hports c.connect_fd c.ctl_pipe).trans
      (reaches_atWorker hne (le_of_eq hthreads') c.threads.le_max)
  refine hworkers.trans (reaches_main (calmEnv 0 0) ?_)
  have hnumports' : c.numports = settings.numports.toNat := by omega
  rw [mainStep_worker, if_neg (not_lt.2 (ge_of_eq hthreads')), ← hpipe]
  exact congrArg Except.ok ((slots_createdSlots _).enterLoop_eq c hnumports' hthreads'
    fun i hi => live_createdSlots hi)

/-! ## Before the loops -/

/-- The loop of `thread_pool_create` is about to go behind the array of workers. -/
def LeavesArray (l : Launch) : Prop :=
  match l.pc with
  | .worker i => MAX_THREADS ≤ i ∧ i < l.num_threads.toNat
  | _ => False

/-- The next call of the main thread is undefined. -/
def Undefined (l : Launch) (env : MainEnv) : Prop :=
  match l.pc with
  | .process_options =>
      buildOptstring (some globalEntries) 3 env.malloc = .error .crash ∨
        buildOptstring (some globalEntries) 3 env.malloc = .ok none
  | .init_ctl_plane => env.ctlPlane = .error .chownDirectory
  | .worker _ => LeavesArray l
  | _ => False

theorem halt_eq_crash_iff {call : FailedCall} : call.halt = .crash ↔ call = .chownDirectory := by
  cases call <;> simp [FailedCall.halt]

/-- The options themselves end the process, if at all, with `exit`. -/
theorem readOptions_crashes_iff {malloc : Option (Nat → UInt8)} :
    readOptions host Settings.initial malloc = .error .crash ↔
      buildOptstring (some globalEntries) 3 malloc = .error .crash ∨
        buildOptstring (some globalEntries) 3 malloc = .ok none := by
  rw [readOptions]
  cases buildOptstring (some globalEntries) 3 malloc with
  | error halt => simp [Except.bind]
  | ok optstring =>
      cases optstring with
      | none => simp [Except.bind]
      | some text =>
          have horderly := orderly_processNecessaryOptions host.json host.args
          have hdefined : processNecessaryOptions host.json host.args Settings.initial ≠
              .error .crash := by
            intro hcrash
            rw [hcrash] at horderly
            exact horderly rfl
          simpa [Except.bind] using hdefined

theorem launching_ne_crash (l : Launch) : ofExcept (.ok (.launching l)) ≠ .ended .crash := by
  intro h
  cases h

theorem exit_ne_crash (status : Nat) (message : String) :
    ofExcept (.error (.exit status message)) ≠ .ended .crash := by
  intro h
  cases h

/-- Where the main thread is, its next call is undefined in these cases. -/
theorem main_crashes_iff (h : Stage host l) (env : MainEnv) :
    ofExcept (l.mainStep host env) = .ended .crash ↔ Undefined l env := by
  cases h with
  | options =>
      refine Iff.trans ?_ (@readOptions_crashes_iff host env.malloc)
      simp only [mainStep, start]
      cases readOptions host Settings.initial env.malloc with
      | error halt => simp [ofExcept, Except.map]
      | ok settings => simp [ofExcept, Except.map]
  | @ports settings _ =>
      refine iff_of_false ?_ id
      simp only [mainStep, atPorts]
      by_cases hports : settings.numports < 1
      · rw [portInit_of_lt hports]
        exact exit_ne_crash _ _
      · rw [portInit_of_pos (not_lt.1 hports)]
        exact launching_ne_crash _
  | table _ _ => exact iff_of_false (launching_ne_crash _) id
  | ctlPlane _ _ =>
      simp only [mainStep, atCtlPlane, Undefined]
      cases env.ctlPlane with
      | error call => simp [ofExcept, halt_eq_crash_iff]
      | ok fds => simp [ofExcept]
  | dataPlane connect_fd ctl_pipe_fd _ _ =>
      refine iff_of_false ?_ id
      simp only [mainStep, atDataPlane, addFd]
      split
      · exact exit_ne_crash _ _
      · exact launching_ne_crash _
  | thread connect_fd ctl_pipe_fd _ _ =>
      refine iff_of_false ?_ id
      simp only [mainStep, atThread]
      split
      · exact exit_ne_crash _ _
      · exact launching_ne_crash _
  | pool connect_fd ctl_pipe_fd _ _ =>
      refine iff_of_false ?_ id
      rw [mainStep_pool]
      split
      · exact exit_ne_crash _ _
      · exact launching_ne_crash _
  | @worker settings connect_fd ctl_pipe_fd i workers _ hports _ hslots =>
      have hundefined : Undefined (atWorker settings connect_fd ctl_pipe_fd i workers) env ↔
          MAX_THREADS ≤ i ∧
            i < ((BitVec.ofInt 32 settings.worker_threads).signExtend 64).toNat := Iff.rfl
      rw [hundefined, mainStep_worker]
      split
      · rename_i hmore
        split
        · rename_i hroom
          exact iff_of_false (launching_ne_crash _) fun h => absurd hroom (not_lt.2 h.1)
        · rename_i hroom
          exact iff_of_true rfl ⟨not_lt.1 hroom, hmore⟩
      · rename_i hlast
        refine iff_of_false ?_ fun h => hlast h.2
        rcases hslots.enterLoop_cases hports connect_fd ctl_pipe_fd i host.pipeSlots with
          hmaimed | ⟨c, _, _, _, hserving⟩
        · simp [ofExcept, hmaimed]
        · simp [ofExcept, hserving]

/-- The loop goes behind the array exactly if the options ask for it. -/
theorem leavesArray_iff :
    (∃ l, (program host).Reaches (.launching .start) (.launching l) ∧ LeavesArray l) ↔
      host.OutOfRange := by
  constructor
  · rintro ⟨l, hl, hleaves⟩
    have hstage : Stage host l := inv_of_reaches hl
    cases hstage with
    | @worker settings connect_fd ctl_pipe_fd i workers hsets hports hpos _ =>
        have hmany : MAX_THREADS <
            ((BitVec.ofInt 32 settings.worker_threads).signExtend 64).toNat :=
          lt_of_le_of_lt hleaves.1 hleaves.2
        rcases exists_count hsets with ⟨count, hcount, hword⟩
        rw [hword] at hpos hmany
        refine ⟨settings, hsets, hports, ?_⟩
        rw [hcount]
        exact signExtend_outside_iff.1 ⟨hpos, hmany⟩
    | _ => exact False.elim hleaves
  · rintro ⟨settings, hsets, hports, hrange⟩
    rcases exists_count hsets with ⟨count, hcount, hword⟩
    rw [hcount] at hrange
    rcases signExtend_outside_iff.2 hrange with ⟨hne, hmany⟩
    rw [← hword] at hne hmany
    -- the loop makes the four workers that there is room for
    have hfull : (program host).Reaches (.launching .start) (.launching
        (atWorker settings 0 0 MAX_THREADS (createdSlots MAX_THREADS))) :=
      (reaches_atPool hsets hports 0 0).trans
        (reaches_atWorker hne hmany.le (le_refl _))
    exact ⟨_, hfull, le_refl _, hmany⟩

/-- Before the loops the data plane, which has no pool yet, makes no step at all, and the main thread
comes to an undefined one only where the short options have no memory, where a message prints a name
that is not set, and behind the array of workers. -/
theorem undefined_iff :
    (∀ l, (program host).Reaches (.launching .start) (.launching l) →
      (∀ word env, (program host).step (.launching l) (.dataEvent word env) = none) ∧
        ∀ env, (program host).step (.launching l) (.main env) = some (.ended .crash) ↔
          Undefined l env) ∧
      ((∃ l, (program host).Reaches (.launching .start) (.launching l) ∧ LeavesArray l) ↔
        host.OutOfRange) := by
  refine ⟨fun l hl => ?_, leavesArray_iff⟩
  have hstage : Stage host l := inv_of_reaches hl
  refine ⟨step_dataEvent_eq_none hstage, fun env => ?_⟩
  rw [← main_crashes_iff hstage env]
  exact ⟨fun h => Option.some.inj h, fun h => congrArg some h⟩

/-- The states in which the process serves are those of the switch that the options ask for. -/
theorem serves_iff : (program host).Reaches (.launching .start) (.serving c s) ↔
    host.Configures c ∧ (switch c).Reaches (.running (State.start c)) s := by
  constructor
  · exact fun h => inv_of_reaches h
  · rintro ⟨hc, as, hrun⟩
    exact (reaches_serving hc).trans (reaches_serve hrun)

end Lifetime

end Process
end EVdeSwitch
