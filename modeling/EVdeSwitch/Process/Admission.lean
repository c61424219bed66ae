import EVdeSwitch.Process.ClientPorts
import EVdeSwitch.Process.RefusedPorts

/-!
# Admission — which requests are given a port

The number of the next port is `portc`, which starts at 1 and is only ever raised: port 0 is never
given out, and the port of a client that has gone is not given out again.  How many clients are
attached when a request comes plays no part in it.
-/

namespace EVdeSwitch
namespace Process

open EVdeSwitch.ControlPlane
open EVdeSwitch.DataPlane
open EVdeSwitch.Io
open EVdeSwitch.Lib
open EVdeSwitch.Message
open EVdeSwitch.Utils

/-! ## The property -/

/-- The open connections that a port was made for. -/
def Clients.attached (clients : Clients) : List Connection :=
  clients.connected.filter fun conn => clients.granted.any fun g => g.serial = conn.serial

/-- All system calls and allocations made for the request succeed. -/
structure CallsSucceed (env : PortRequestEnv) (fd_data : Fd) : Prop where
  socket : env.request.opening.socket = some fd_data
  fcntl : env.request.opening.fcntlFails = false
  connect : env.request.opening.connectFails = false
  malloc : env.mallocFails = false
  binds : Tables.Binds env.binding
  realloc : env.binding.reallocated = true
  header : env.headerFails = false
  data : env.dataFails = false

/-- `add_port` makes an endpoint on a port that was free and returns its descriptor, and the process
goes on. -/
def GivenPort (tables : Tables) (env : PortRequestEnv) (fd_data : Fd) : Prop :=
  ∃ port after, port < tables.ports.arena.NUMPORTS ∧
    (tables.ports.arena.port port).flag = .DOWN ∧
    (Tables.addPort env).ends tables = (.ok fd_data.toInt, after) ∧
    after.ports.arena.port port = { flag := .UP, ep := some ⟨port, fd_data⟩ } ∧
    ((Tables.handleWdReq env).ends tables).1 = .ok 0

/-! ## One request -/

section Request

variable {tables : Tables} {env : PortRequestEnv} {fd_data : Fd}

theorem CallsSucceed.not_stopsEarly (h : CallsSucceed env fd_data) :
    ¬ Tables.StopsEarly env.request.opening := by
  simp [Tables.StopsEarly, h.socket, h.connect]

theorem CallsSucceed.completes_iff (h : CallsSucceed env fd_data) :
    tables.Completes env ↔ tables.ports.portc < tables.ports.arena.NUMPORTS :=
  and_iff_left ⟨h.malloc, h.binds⟩

/-- The message follows whatever `add_port` has returned. -/
theorem CallsSucceed.returns (h : CallsSucceed env fd_data) (hasks : AsksForPort env.request)
    {result : Int} {after : Tables} (hadd : (Tables.addPort env).ends tables = (.ok result, after)) :
    ((Tables.handleWdReq env).ends tables).1 = .ok 0 := by
  rw [handleWdReq_of_asksForPort hasks, ends_handleMagicReq_ok hadd, h.header, h.data]
  rfl

/-- A request whose calls succeed is given the port with the next number, if there is one. -/
theorem givenPort_iff (hm : tables.ports.Inv) (hasks : AsksForPort env.request)
    (h : CallsSucceed env fd_data) :
    GivenPort tables env fd_data ↔ tables.ports.portc < tables.ports.arena.NUMPORTS := by
  have hends := Tables.addPortEnds hm env
  constructor
  · rintro ⟨port, after, _, _, hadd, _⟩
    rw [hadd] at hends
    generalize hresult : (Except.ok fd_data.toInt, after) = result at hends
    cases hends with
    | stopped halt => cases hresult
    | refused _ hfcntl => exact absurd (hfcntl.symm.trans h.fcntl) (by decide)
    | broken halt => cases hresult
    | added _ _ _ _ hcompletes => exact h.completes_iff.1 hcompletes
  · intro hlt
    generalize hadd : (Tables.addPort env).ends tables = result at hends
    cases hends with
    | stopped halt hearly => exact absurd hearly h.not_stopsEarly
    | refused _ hfcntl => exact absurd (hfcntl.symm.trans h.fcntl) (by decide)
    | broken halt after _ _ hcompletes => exact absurd (h.completes_iff.2 hlt) hcompletes
    | added fd_data' _ _ hsocket =>
        have hsame : fd_data = fd_data' := Option.some.inj (h.socket.symm.trans hsocket)
        subst hsame
        refine ⟨tables.ports.portc, _, hlt, hm.down _ (le_refl _), hadd, ?_, h.returns hasks hadd⟩
        exact Function.update_self _ _ _

end Request

/-! ## The numbers that are gone -/

namespace State

/-- Every endpoint ever made has used up a number. -/
structure Counted (c : Config) (s : State) : Prop where
  inv : s.Inv
  portc : s.portc = s.engine.endpoints.length + 1
  portc_le : s.portc ≤ s.arena.NUMPORTS
  numports : s.arena.NUMPORTS = c.numports

variable {c : Config} {s t : State} {a : SwitchAction}

theorem counted_start (c : Config) : (start c).Counted c where
  inv := inv_start c
  portc := rfl
  portc_le := c.numports_pos
  numports := rfl

/-- The number of the new port was that of a port. -/
theorem Inv.lt_of_opened (hs : s.Inv) {fd : Fd} {env : CtlEventEnv}
    (hasks : AsksForPort env.request) (hfcntl : env.request.opening.fcntlFails = false)
    (h : s.step c (.ctlEvent (CtlReqType.data ⟨.CTL_WD, fd⟩) env) = some (.ok t)) :
    s.portc < s.arena.NUMPORTS := by
  by_contra hge
  refine not_exits_ok t ((hs.step h).exits.2 ((ctlEventFails_wd fd env).2 ?_))
  rcases hasks with ⟨req, hreq, hne, hmagic, hversion⟩
  simp only [RequestFails, hreq]
  exact ⟨hne, hmagic, Or.inl ⟨hversion, Or.inr ⟨hfcntl, Or.inr (not_lt.1 hge)⟩⟩⟩

theorem Counted.step (hs : s.Counted c) (h : s.step c a = some (.ok t)) : t.Counted c := by
  have hinv : t.Inv := (hs.inv.step h).inv t rfl
  have hmoves : Moves c s a t := hs.inv.moves h
  cases hmoves with
  | @opened fd fd_data env hasks hfcntl hsocket =>
      exact
        { inv := hinv
          portc := congrArg (· + 1) hs.portc
          portc_le := hs.inv.lt_of_opened hasks hfcntl h
          numports := hs.numports }
  | received fd engine hstep =>
      have htables := Engine.step_tables (by simp) hstep
      exact { hs with inv := hinv, portc := by rw [htables.2]; exact hs.portc }
  | worked engine ha hstep =>
      have htables := Engine.step_tables (engineAction_ne_control ha) hstep
      exact { hs with inv := hinv, portc := by rw [htables.2]; exact hs.portc }
  | _ => exact { hs with inv := hinv }

end State

/-- An attached client has a grant of its own. -/
theorem Clients.WellNumbered.attached_le {clients : Clients} (h : clients.WellNumbered) :
    clients.attached.length ≤ clients.granted.length := by
  have hnodup : (clients.attached.map Connection.serial).Nodup :=
    h.nodup.sublist (List.filter_sublist.map _)
  have hsubset : clients.attached.map Connection.serial ⊆ clients.granted.map Grant.serial := by
    intro serial hserial
    rcases List.mem_map.1 hserial with ⟨conn, hconn, rfl⟩
    have hgranted := (List.mem_filter.1 hconn).2
    rcases List.any_eq_true.1 hgranted with ⟨g, hg, hsame⟩
    exact List.mem_map.2 ⟨g, hg, by simpa using hsame⟩
  have hle := (hnodup.subperm hsubset).length_le
  rwa [List.length_map, List.length_map] at hle

/-! ## All runs -/

namespace Switch

/-- What is known of a running switch and of the record of its clients. -/
def Admits (c : Config) : Switch × Clients → Prop
  | (.running s, clients) => s.Counted c ∧ s.Recorded clients
  | (.ended _, _) => True

variable {c : Config}

theorem admits_step {x y : Switch × Clients} {a : SwitchAction} (hx : Admits c x)
    (h : ((switch c).withHistory recordClients).step x a = some y) : Admits c y := by
  rcases Machine.withHistory_step.1 h with ⟨hstep, hclients⟩
  rcases x with ⟨s, clients⟩
  rcases y with ⟨t, clients'⟩
  cases s with
  | ended halt => cases hstep
  | running s =>
      rcases Option.map_eq_some_iff.1 hstep with ⟨r, hr, hrt⟩
      cases r with
      | error halt =>
          cases hrt
          trivial
      | ok u =>
          cases hrt
          have hrecord : clients' = recordClients (.running s) a (.running u) clients := hclients
          rcases hx with ⟨hcounted, hrecorded⟩
          rw [hrecord]
          refine ⟨hcounted.step hr, hrecorded.step (hcounted.inv.moves hr) fun word env ha => ?_⟩
          exact State.waiting_of_ctlEvent (by rw [← ha]; exact hr)

/-- Whoever has come and gone before, that fewer clients are attached than there are ports is enough
for a request whose calls succeed to be given a port if and only if the ports given away so far,
and port 0, are fewer than there are ports. -/
theorem givenPort_of_attached_iff {acts : List SwitchAction} {s : State} {clients : Clients}
    (hrun : ((switch c).withHistory recordClients).run (.running (State.start c), .start) acts =
      some (.running s, clients))
    {env : PortRequestEnv} {fd_data : Fd} (hasks : AsksForPort env.request)
    (hcalls : CallsSucceed env fd_data) :
    (clients.attached.length < c.numports → GivenPort s.tables env fd_data) ↔
      clients.granted.length + 1 < c.numports := by
  have hstart : Admits c (.running (State.start c), .start) :=
    ⟨State.counted_start c, (State.clientsInv_start c).recorded⟩
  have hend : Admits c (.running s, clients) :=
    Machine.invariant_run (Admits c) (fun _ _ _ hx hstep => admits_step hx hstep) hstart hrun
  rcases hend with ⟨hcounted, hrecorded⟩
  have hgiven := @givenPort_iff s.tables _ _ hcounted.inv.manager hasks hcalls
  have hportc : s.tables.ports.portc = clients.granted.length + 1 := by
    change s.portc = _
    rw [hcounted.portc, ← hrecorded.granted, List.length_map]
  have hnumports : s.tables.ports.arena.NUMPORTS = c.numports := hcounted.numports
  rw [hportc, hnumports] at hgiven
  rw [hgiven]
  refine ⟨fun h => h ?_, fun h _ => h⟩
  -- the clients that are attached are always few enough
  have hle := hrecorded.numbered.attached_le
  have hbound : clients.granted.length + 1 ≤ c.numports := by
    rw [← hportc, ← hnumports]
    exact hcounted.portc_le
  omega

/-- A client has come and gone, and another one is attached; the descriptor of the first one's
endpoint is still open. -/
def leaveAndAttach : List SwitchAction :=
  let env : CtlEventEnv :=
    { accept :=
        { client := some 7
          fcntlFails := false
          epollFails := false }
      request :=
        { req := some (portRequest 3)
          stale := ReqBuf.zeroed
          opening :=
            { socket := some 9
              fcntlFails := false
              connectFails := false } } }
  connectAndLeave ++
    [.ctlEvent (eventData CtlReqType.CTL_LISTEN.toNat 3) env,
      .ctlEvent (eventData CtlReqType.CTL_WD.toNat 7) env,
      .bind
        { unlinkFails := false
          bindFails := false
          write := .written
          reallocated := true },
      .notify false false]

/-- The request of a third client. -/
def laterRequest : PortRequestEnv :=
  { portRequestEnv false with
    request :=
      { (portRequestEnv false).request with
        opening :=
          { socket := some 10
            fcntlFails := false
            connectFails := false } } }

theorem givenPort_of_attached_later :
    ∃ s clients, ((switch oneWorker).withHistory recordClients).run
        (.running (State.start oneWorker), .start) leaveAndAttach = some (.running s, clients) ∧
      clients.attached = [⟨1, 7⟩] ∧ clients.granted.map Grant.serial = [1, 0] ∧
      GivenPort s.tables laterRequest 10 := by
  have heval : (((switch oneWorker).withHistory recordClients).run
      (.running (State.start oneWorker), .start) leaveAndAttach).map (fun x =>
        ((observe x).isSome, x.2.attached, x.2.granted.map Grant.serial)) =
        some (true, [⟨1, 7⟩], [1, 0]) := by
    decide +kernel
  rcases Option.map_eq_some_iff.1 heval with ⟨⟨t, clients⟩, hrun, hobserve⟩
  simp only [Prod.mk.injEq] at hobserve
  rcases hobserve with ⟨hrunning, hattached, hgranted⟩
  cases t with
  | ended halt => cases hrunning
  | running s =>
      have hasks : AsksForPort laterRequest.request := by decide +kernel
      have hcalls : CallsSucceed laterRequest 10 :=
        ⟨rfl, rfl, rfl, rfl, ⟨rfl, rfl, rfl⟩, rfl, rfl, rfl⟩
      have hcount : clients.granted.length = 2 := by
        rw [← List.length_map (f := Grant.serial), hgranted]
        rfl
      have hroom : clients.granted.length + 1 < oneWorker.numports := by
        rw [hcount]
        decide
      refine ⟨s, clients, hrun, hattached, hgranted, ?_⟩
      refine (givenPort_of_attached_iff hrun hasks hcalls).2 hroom ?_
      rw [hattached]
      decide

/-- A switch with a single port. -/
def onePort : Config :=
  { oneWorker with
    numports := 1
    numports_pos := Nat.one_pos }

/-- The only port is port 0, so the first request of all ends the process. -/
theorem exits_first_request_of_one_port :
    Clients.start.attached.length < onePort.numports ∧
      AsksForPort (portRequestEnv false).request ∧ CallsSucceed (portRequestEnv false) 8 ∧
      ((Tables.handleWdReq (portRequestEnv false)).ends (State.start onePort).tables).1 =
        .error (.exit 1 "Invalid port number\n") ∧
      ¬ GivenPort (State.start onePort).tables (portRequestEnv false) 8 := by
  have hasks : AsksForPort (portRequestEnv false).request := by decide +kernel
  have hcalls : CallsSucceed (portRequestEnv false) 8 :=
    ⟨rfl, rfl, rfl, rfl, ⟨rfl, rfl, rfl⟩, rfl, rfl, rfl⟩
  refine ⟨by decide, hasks, hcalls, ?_, ?_⟩
  · rw [handleWdReq_of_asksForPort hasks]
    rfl
  · rw [givenPort_iff (PortManager.inv_alloc _ _) hasks hcalls]
    exact lt_irrefl _

end Switch

end Process
end EVdeSwitch
