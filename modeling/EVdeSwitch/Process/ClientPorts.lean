import EVdeSwitch.Process.PortConsistency

/-!
# ClientPorts — which client an endpoint was made for

The state of the switch does not say for whom an endpoint was made, so a record of the
connections is carried beside it.  `handle_wd_req` only closes the descriptor of a client that has
gone, and `remove_port` is never called: the endpoints are those of the open connections as long
as no client that has been given one goes away.
-/

namespace EVdeSwitch
namespace Process

open EVdeSwitch.ControlPlane
open EVdeSwitch.DataPlane
open EVdeSwitch.Io
open EVdeSwitch.Lib
open EVdeSwitch.Message
open EVdeSwitch.Utils

/-! ## The record -/

/-- An open control connection; the kernel gives a descriptor out again, but not a number. -/
structure Connection where
  serial : Nat
  fd : Int
  deriving DecidableEq, Repr

/-- An endpoint, with the connection it was asked for on. -/
structure Grant where
  serial : Nat
  ep : Endpoint
  deriving DecidableEq, Repr

/-- The connections so far, those that are open, and the endpoints made for any of them. -/
structure Clients where
  accepted : Nat
  connected : List Connection
  granted : List Grant
  deriving DecidableEq

namespace Clients

def start : Clients :=
  { accepted := 0
    connected := []
    granted := [] }

def accept (clients : Clients) : Option Fd → Clients
  | some client_fd =>
      { clients with
        accepted := clients.accepted + 1
        connected := ⟨clients.accepted, client_fd.toInt⟩ :: clients.connected }
  | none => clients

def close (clients : Clients) (fd : Int) : Clients :=
  { clients with connected := clients.connected.filter fun conn => conn.fd ≠ fd }

def grant (clients : Clients) (fd : Int) (ep : Endpoint) : Clients :=
  match clients.connected.find? fun conn => conn.fd = fd with
  | some conn => { clients with granted := ⟨conn.serial, ep⟩ :: clients.granted }
  | none => clients

/-- The connection is open. -/
def Open (clients : Clients) (serial : Nat) : Prop :=
  ∃ conn ∈ clients.connected, conn.serial = serial

/-- The endpoint was made for a client whose connection is open. -/
def Owns (clients : Clients) (ep : Endpoint) : Prop :=
  ∃ g ∈ clients.granted, g.ep = ep ∧ clients.Open g.serial

end Clients

/-- What an event of the control plane means for the clients. -/
def recordClients (_s : Switch) (a : SwitchAction) (t : Switch) (clients : Clients) : Clients :=
  match a, t with
  | .ctlEvent word env, .running t =>
      if (HI word).toInt = CtlReqType.CTL_LISTEN.toNat then
        clients.accept env.accept.client
      else if Eof env.request then
        clients.close (LO word).toInt
      else
        match t.ctl with
        | .binding ep => clients.grant (LO word).toInt ep
        | _ => clients
  | _, _ => clients

/-! ## The clients among themselves -/

namespace Clients

/-- No number is given to two connections. -/
structure WellNumbered (clients : Clients) : Prop where
  connected : ∀ conn ∈ clients.connected, conn.serial < clients.accepted
  nodup : (clients.connected.map Connection.serial).Nodup
  granted : ∀ g ∈ clients.granted, g.serial < clients.accepted

/-- Every endpoint was made for a client that is still there. -/
def AllOpen (clients : Clients) : Prop :=
  ∀ g ∈ clients.granted, clients.Open g.serial

/-- No endpoint was made for the connection on `fd`. -/
def HasNone (clients : Clients) (fd : Int) : Prop :=
  ∀ conn ∈ clients.connected, conn.fd = fd → ∀ g ∈ clients.granted, g.serial ≠ conn.serial

instance decidableHasNone (clients : Clients) (fd : Int) : Decidable (clients.HasNone fd) :=
  inferInstanceAs (Decidable (∀ conn ∈ clients.connected, conn.fd = fd →
    ∀ g ∈ clients.granted, g.serial ≠ conn.serial))

variable {clients : Clients}

theorem wellNumbered_start : start.WellNumbered where
  connected := by simp [start]
  nodup := List.nodup_nil
  granted := by simp [start]

theorem WellNumbered.accept (h : clients.WellNumbered) (client_fd : Fd) :
    (clients.accept (some client_fd)).WellNumbered where
  connected := by
    intro conn hconn
    rcases List.mem_cons.1 hconn with rfl | hold
    · exact Nat.lt_succ_self _
    · exact Nat.lt_succ_of_lt (h.connected conn hold)
  nodup := by
    refine List.nodup_cons.2 ⟨?_, h.nodup⟩
    intro hmem
    rcases List.mem_map.1 hmem with ⟨conn, hconn, hserial⟩
    exact absurd (h.connected conn hconn) (by simp [hserial])
  granted := fun g hg => Nat.lt_succ_of_lt (h.granted g hg)

theorem WellNumbered.close (h : clients.WellNumbered) (fd : Int) :
    (clients.close fd).WellNumbered where
  connected := fun conn hconn => h.connected conn (List.mem_filter.1 hconn).1
  nodup := h.nodup.sublist (List.filter_sublist.map _)
  granted := h.granted

theorem grant_of_connected {fd : Int} (h : ∃ conn ∈ clients.connected, conn.fd = fd)
    (ep : Endpoint) :
    ∃ conn ∈ clients.connected, conn.fd = fd ∧
      clients.grant fd ep = { clients with granted := ⟨conn.serial, ep⟩ :: clients.granted } := by
  cases hfind : clients.connected.find? fun conn => conn.fd = fd with
  | none =>
      rcases h with ⟨conn, hconn, hfd⟩
      exact absurd hfd (by simpa using List.find?_eq_none.1 hfind conn hconn)
  | some conn =>
      refine ⟨conn, List.mem_of_find?_eq_some hfind, by simpa using List.find?_some hfind, ?_⟩
      simp [grant, hfind]

theorem allOpen_accept (h : clients.WellNumbered) (client_fd : Fd) :
    (clients.accept (some client_fd)).AllOpen ↔ clients.AllOpen := by
  constructor
  · intro hopen g hg
    rcases hopen g hg with ⟨conn, hconn, hserial⟩
    rcases List.mem_cons.1 hconn with rfl | hold
    · -- the new number is that of no endpoint
      exact absurd (h.granted g hg) (by simp [← hserial])
    · exact ⟨conn, hold, hserial⟩
  · intro hopen g hg
    rcases hopen g hg with ⟨conn, hconn, hserial⟩
    exact ⟨conn, List.mem_cons_of_mem _ hconn, hserial⟩

theorem allOpen_close (h : clients.WellNumbered) (fd : Int) :
    (clients.close fd).AllOpen ↔ clients.AllOpen ∧ clients.HasNone fd := by
  constructor
  · intro hopen
    refine ⟨?_, ?_⟩
    · intro g hg
      rcases hopen g hg with ⟨conn, hconn, hserial⟩
      exact ⟨conn, (List.mem_filter.1 hconn).1, hserial⟩
    · intro conn hconn hfd g hg hserial
      -- the connection that is left has the same number, so it is the one that was closed
      rcases hopen g hg with ⟨other, hother, hother_serial⟩
      rcases List.mem_filter.1 hother with ⟨hmem, hne⟩
      have hsame : other = conn :=
        List.inj_on_of_nodup_map h.nodup hmem hconn (hother_serial.trans hserial)
      simp [hsame, hfd] at hne
  · rintro ⟨hopen, hnone⟩ g hg
    rcases hopen g hg with ⟨conn, hconn, hserial⟩
    refine ⟨conn, List.mem_filter.2 ⟨hconn, ?_⟩, hserial⟩
    have hne : conn.fd ≠ fd := fun hfd => hnone conn hconn hfd g hg hserial.symm
    simpa using hne

end Clients

section Record

variable {clients : Clients} {s t : State} {fd : Fd} {env : CtlEventEnv}

theorem recordClients_listen :
    recordClients (.running s) (.ctlEvent (CtlReqType.data ⟨.CTL_LISTEN, fd⟩) env) (.running t)
      clients = clients.accept env.accept.client := by
  have htype : (HI (CtlReqType.data ⟨.CTL_LISTEN, fd⟩)).toInt = CtlReqType.CTL_LISTEN.toNat :=
    HI_eventData (CtlReqType.toNat_lt _) fd
  simp [recordClients, htype]

theorem HI_data_wd (fd : Fd) :
    (HI (CtlReqType.data ⟨.CTL_WD, fd⟩)).toInt ≠ CtlReqType.CTL_LISTEN.toNat := by
  have htype : (HI (CtlReqType.data ⟨.CTL_WD, fd⟩)).toInt = CtlReqType.CTL_WD.toNat :=
    HI_eventData (CtlReqType.toNat_lt _) fd
  rw [htype]
  decide

theorem recordClients_eof (heof : Eof env.request) :
    recordClients (.running s) (.ctlEvent (CtlReqType.data ⟨.CTL_WD, fd⟩) env) (.running t)
      clients = clients.close fd.toInt := by
  have hfd : (LO (CtlReqType.data ⟨.CTL_WD, fd⟩)).toInt = fd.toInt := LO_eventData _ fd
  simp [recordClients, HI_data_wd, heof, hfd]

theorem recordClients_opened (heof : ¬ Eof env.request) {ep : Endpoint}
    (hctl : t.ctl = .binding ep) :
    recordClients (.running s) (.ctlEvent (CtlReqType.data ⟨.CTL_WD, fd⟩) env) (.running t)
      clients = clients.grant fd.toInt ep := by
  have hfd : (LO (CtlReqType.data ⟨.CTL_WD, fd⟩)).toInt = fd.toInt := LO_eventData _ fd
  simp [recordClients, HI_data_wd, heof, hctl, hfd]

theorem recordClients_other (heof : ¬ Eof env.request) (hctl : ∀ ep, t.ctl ≠ .binding ep) :
    recordClients (.running s) (.ctlEvent (CtlReqType.data ⟨.CTL_WD, fd⟩) env) (.running t)
      clients = clients := by
  cases h : t.ctl with
  | binding ep => exact absurd h (hctl ep)
  | _ => simp [recordClients, HI_data_wd, heof, h]

end Record

/-! ## The property -/

namespace State

/-- The endpoints are exactly those made for the clients whose connection is open, and packets are
sent to no other. -/
structure FollowsClients (s : State) (clients : Clients) : Prop where
  endpoints : ∀ ep, ep ∈ s.engine.endpoints ↔ clients.Owns ep
  slots : ∀ i, (s.arena.port i).flag = .UP ↔
    ∃ ep, clients.Owns ep ∧ ep.port = i ∧ (s.arena.port i).ep = some ep
  fdt : ∀ ep, (∃ fd, fdTableLookup s.engine.fdt fd = some ep) ↔ clients.Owns ep
  flooded : ∀ p origin_port, ∀ tr ∈ floodPacket s.engine.endpoints p origin_port,
    ∃ ep, clients.Owns ep ∧ tr.fd = ep.fd_data
  sent : ∀ p port sendFails sent, sendPacket s.engine.endpoints p port sendFails = .ok sent →
    ∀ tr ∈ sent, ∃ ep, clients.Owns ep ∧ tr.fd = ep.fd_data

/-! ## The invariant -/

/-- The record has the endpoints of the list, and numbers for the words of the control plane. -/
structure ClientsInv (s : State) (clients : Clients) : Prop where
  ports : s.PortsInv
  fds_nodup : (s.engine.endpoints.map Endpoint.fd_data).Nodup
  numbered : clients.WellNumbered
  granted : clients.granted.map Grant.ep = s.engine.endpoints
  connected : ∀ word ∈ s.ctl_fds, (HI word).toInt = CtlReqType.CTL_WD.toNat →
    ∃ conn ∈ clients.connected, conn.fd = (LO word).toInt
  unbound : ∀ ep, s.ctl = .binding ep → ∀ fd, fdTableLookup s.engine.fdt fd ≠ some ep

/-- What the record has of the state, whichever descriptors the kernel gives out. -/
structure Recorded (s : State) (clients : Clients) : Prop where
  numbered : clients.WellNumbered
  granted : clients.granted.map Grant.ep = s.engine.endpoints
  connected : ∀ word ∈ s.ctl_fds, (HI word).toInt = CtlReqType.CTL_WD.toNat →
    ∃ conn ∈ clients.connected, conn.fd = (LO word).toInt

/-- Every endpoint has made it into the table of descriptors, or is about to. -/
def AllKnown (s : State) : Prop :=
  ∀ ep ∈ s.engine.endpoints, s.ctl = .binding ep ∨ ∃ fd, fdTableLookup s.engine.fdt fd = some ep

/-- There is room for the endpoint that is about to be inserted. -/
def RoomFor (fdt : FdTable) (reallocated : Bool) : CtlPc → Prop
  | .binding ep => HasRoom fdt ep.fd_data reallocated
  | .waiting | .sending _ => True

instance decidableRoomFor (fdt : FdTable) (reallocated : Bool) :
    ∀ ctl, Decidable (RoomFor fdt reallocated ctl)
  | .binding ep => inferInstanceAs (Decidable (HasRoom fdt ep.fd_data reallocated))
  | .waiting | .sending _ => isTrue trivial

/-- The steps that do not set the endpoints and the clients apart: no client that has been given an
endpoint goes away, and the table of descriptors has room. -/
def Tidy (s : State) (clients : Clients) : SwitchAction → Prop
  | .ctlEvent word env => (HI word).toInt = CtlReqType.CTL_WD.toNat → Eof env.request →
      clients.HasNone (LO word).toInt
  | .bind env => RoomFor s.engine.fdt env.reallocated s.ctl
  | .notify _ _ | .dataEvent _ _ | .push | .write | .read _ | .pop _ | .process _ _ _ => True

instance decidableTidy (s : State) (clients : Clients) : ∀ a, Decidable (s.Tidy clients a)
  | .ctlEvent word env =>
      inferInstanceAs (Decidable ((HI word).toInt = CtlReqType.CTL_WD.toNat → Eof env.request →
        clients.HasNone (LO word).toInt))
  | .bind env => inferInstanceAs (Decidable (RoomFor s.engine.fdt env.reallocated s.ctl))
  | .notify _ _ | .dataEvent _ _ | .push | .write | .read _ | .pop _ | .process _ _ _ =>
      isTrue trivial

variable {c : Config} {s t : State} {clients : Clients} {a : SwitchAction}

theorem clientsInv_start (c : Config) : (start c).ClientsInv .start where
  ports := portsInv_start c
  fds_nodup := List.nodup_nil
  numbered := Clients.wellNumbered_start
  granted := rfl
  connected := by
    intro word hword htype
    -- the one word is that of the listening socket
    have hlisten : (HI word).toInt = CtlReqType.CTL_LISTEN.toNat := by
      rw [List.mem_singleton.1 hword]
      exact HI_eventData (CtlReqType.toNat_lt _) _
    simp [hlisten, CtlReqType.toNat] at htype
  unbound := by simp [start]

variable (clients) in
/-- What a step means for the clients. -/
theorem record_cases (h : Moves c s a t)
    (hwait : ∀ word env, a = .ctlEvent word env → s.ctl = .waiting) :
    (∃ fd client_fd env, a = .ctlEvent (CtlReqType.data ⟨.CTL_LISTEN, fd⟩) env ∧
        t = { s with ctl_fds := s.ctl_fds ++ [CtlReqType.data ⟨.CTL_WD, client_fd⟩] } ∧
        recordClients (.running s) a (.running t) clients = clients.accept (some client_fd)) ∨
      (∃ fd env, a = .ctlEvent (CtlReqType.data ⟨.CTL_WD, fd⟩) env ∧ Eof env.request ∧
        t = { s with ctl_fds := s.ctl_fds.filter fun word => (LO word).toInt ≠ fd.toInt } ∧
        recordClients (.running s) a (.running t) clients = clients.close fd.toInt) ∨
      (∃ fd fd_data env, a = .ctlEvent (CtlReqType.data ⟨.CTL_WD, fd⟩) env ∧
        ¬ Eof env.request ∧
        t = { s.setManager (s.manager.opened fd_data) with
          ctl := .binding ⟨s.portc, fd_data⟩ } ∧
        recordClients (.running s) a (.running t) clients =
          clients.grant fd.toInt ⟨s.portc, fd_data⟩) ∨
      ((∀ word env, a = .ctlEvent word env → ¬ Eof env.request) ∧ t.ctl_fds = s.ctl_fds ∧
        t.engine.endpoints = s.engine.endpoints ∧
        recordClients (.running s) a (.running t) clients = clients) := by
  cases h with
  | @accepted fd client_fd env hclient =>
      refine Or.inl ⟨fd, client_fd, env, rfl, rfl, ?_⟩
      rw [recordClients_listen, hclient]
  | @closed fd env heof =>
      exact Or.inr (Or.inl ⟨fd, env, rfl, heof, rfl, recordClients_eof heof⟩)
  | @opened fd fd_data env hasks _ _ =>
      exact Or.inr (Or.inr (Or.inl ⟨fd, fd_data, env, rfl, hasks.not_eof, rfl,
        recordClients_opened hasks.not_eof rfl⟩))
  | @ignored fd env heof _ =>
      refine Or.inr (Or.inr (Or.inr ⟨?_, rfl, rfl, recordClients_other heof ?_⟩))
      · intro word env' ha
        cases ha
        exact heof
      · simp [hwait _ _ rfl]
  | @refused fd env hasks _ =>
      refine Or.inr (Or.inr (Or.inr ⟨?_, rfl, rfl, recordClients_other hasks.not_eof ?_⟩))
      · intro word env' ha
        cases ha
        exact hasks.not_eof
      · simp
  | received fd engine hstep =>
      have htables := Engine.step_tables (by simp) hstep
      exact Or.inr (Or.inr (Or.inr ⟨by simp, rfl, htables.2, rfl⟩))
  | worked engine ha hstep =>
      have htables := Engine.step_tables (engineAction_ne_control ha) hstep
      refine Or.inr (Or.inr (Or.inr ⟨?_, rfl, htables.2, ?_⟩))
      · rintro word env rfl
        simp [SwitchAction.engineAction] at ha
      · cases a <;> first | rfl | simp [SwitchAction.engineAction] at ha
  | _ => exact Or.inr (Or.inr (Or.inr ⟨by simp, rfl, rfl, rfl⟩))

/-- A step leaves the endpoints with owners, if they had them and it is tidy. -/
theorem ClientsInv.allOpen_step (hs : s.ClientsInv clients)
    (hwait : ∀ word env, a = .ctlEvent word env → s.ctl = .waiting)
    (hword : ∀ word env, a = .ctlEvent word env → word ∈ s.ctl_fds) (h : Moves c s a t) :
    (recordClients (.running s) a (.running t) clients).AllOpen ↔
      clients.AllOpen ∧ ∀ word env, a = .ctlEvent word env → s.Tidy clients a := by
  rcases record_cases clients h hwait with
    ⟨fd, client_fd, env, rfl, _, hrecord⟩ | ⟨fd, env, rfl, heof, _, hrecord⟩ |
    ⟨fd, fd_data, env, rfl, heof, _, hrecord⟩ | ⟨heof, _, _, hrecord⟩
  · rw [hrecord, Clients.allOpen_accept hs.numbered]
    refine (and_iff_left ?_).symm
    intro word env' ha htype
    cases ha
    -- a connection request closes nothing
    have hlisten : (HI (CtlReqType.data ⟨.CTL_LISTEN, fd⟩)).toInt = CtlReqType.CTL_LISTEN.toNat :=
      HI_eventData (CtlReqType.toNat_lt _) fd
    simp [hlisten, CtlReqType.toNat] at htype
  · have hfd : (LO (CtlReqType.data ⟨.CTL_WD, fd⟩)).toInt = fd.toInt := LO_eventData _ fd
    have htype : (HI (CtlReqType.data ⟨.CTL_WD, fd⟩)).toInt = CtlReqType.CTL_WD.toNat :=
      HI_eventData (CtlReqType.toNat_lt _) fd
    rw [hrecord, Clients.allOpen_close hs.numbered]
    refine and_congr_right fun _ => ?_
    constructor
    · intro hnone word env' ha _ _
      cases ha
      rw [hfd]
      exact hnone
    · intro htidy
      simpa [hfd] using htidy _ _ rfl htype heof
  · have hfd : (LO (CtlReqType.data ⟨.CTL_WD, fd⟩)).toInt = fd.toInt := LO_eventData _ fd
    have htype : (HI (CtlReqType.data ⟨.CTL_WD, fd⟩)).toInt = CtlReqType.CTL_WD.toNat :=
      HI_eventData (CtlReqType.toNat_lt _) fd
    have hconnected : ∃ conn ∈ clients.connected, conn.fd = fd.toInt := by
      simpa [hfd] using hs.connected _ (hword _ _ rfl) htype
    rcases Clients.grant_of_connected hconnected ⟨s.portc, fd_data⟩ with
      ⟨conn, hconn, _, hgrant⟩
    rw [hrecord, hgrant]
    constructor
    · intro hopen
      refine ⟨fun g hg => hopen g (List.mem_cons_of_mem _ hg), ?_⟩
      intro word env' ha _ heof'
      cases ha
      exact absurd heof' heof
    · rintro ⟨hopen, _⟩ g hg
      rcases List.mem_cons.1 hg with rfl | hold
      · exact ⟨conn, hconn, rfl⟩
      · exact hopen g hold
  · rw [hrecord]
    refine (and_iff_left ?_).symm
    rintro word env rfl _ heof'
    exact absurd heof' (heof word env rfl)

theorem allKnown_congr (hendpoints : t.engine.endpoints = s.engine.endpoints)
    (hfdt : t.engine.fdt = s.engine.fdt)
    (hctl : ∀ ep, t.ctl = .binding ep ↔ s.ctl = .binding ep) : t.AllKnown ↔ s.AllKnown := by
  simp [AllKnown, hendpoints, hfdt, hctl]

/-- `fd_table_insert` makes the new endpoint known, if there is room for it. -/
theorem ClientsInv.allKnown_bound (hs : s.ClientsInv clients) {ep : Endpoint} {env : BindEnv}
    (hctl : s.ctl = .binding ep) (hendpoints : t.engine.endpoints = s.engine.endpoints)
    (hsending : t.ctl = .sending ep.fd_data.toInt)
    (hfdt : t.engine.fdt = (fdTableInsert s.engine.fdt ep.fd_data ep env.reallocated).2) :
    t.AllKnown ↔ s.AllKnown ∧ s.Tidy clients (.bind env) := by
  have htidy : s.Tidy clients (.bind env) ↔ HasRoom s.engine.fdt ep.fd_data env.reallocated := by
    simp [Tidy, RoomFor, hctl]
  have hmem : ep ∈ s.engine.endpoints := hs.ports.binding ep hctl
  rw [htidy]
  rcases fdTableInsert_cases s.engine.fdt ep.fd_data ep env.reallocated with
    ⟨hroom, hinsert⟩ | ⟨hroom, hinsert⟩
  · have hlookup : ∀ fd, fdTableLookup t.engine.fdt fd =
        if fd = ep.fd_data.toInt then some ep else fdTableLookup s.engine.fdt fd := by
      intro fd
      rw [hfdt, hinsert, fdTableLookup_insert]
    rw [and_iff_left hroom]
    constructor
    · intro hknown other hother
      rcases hknown other (by simpa [hendpoints] using hother) with hbinding | ⟨fd, hfound⟩
      · simp [hsending] at hbinding
      · rw [hlookup] at hfound
        by_cases hfd : fd = ep.fd_data.toInt
        · simp only [if_pos hfd, Option.some.injEq] at hfound
          exact Or.inl (by rw [hctl, hfound])
        · exact Or.inr ⟨fd, by simpa [if_neg hfd] using hfound⟩
    · intro hknown other hother
      right
      rw [hendpoints] at hother
      by_cases hsame : other = ep
      · exact ⟨ep.fd_data.toInt, by rw [hlookup, if_pos rfl, hsame]⟩
      · rcases hknown other hother with hbinding | ⟨fd, hfound⟩
        · rw [hctl] at hbinding
          cases hbinding
          exact absurd rfl hsame
        · -- the other endpoints have other descriptors
          have hfd : fd ≠ ep.fd_data.toInt := by
            rintro rfl
            have hother_fd := (hs.ports.fdt _ _ hfound).2
            exact hsame (List.inj_on_of_nodup_map hs.fds_nodup hother hmem
              (Fd.toInt_injective hother_fd))
          exact ⟨fd, by rw [hlookup, if_neg hfd, hfound]⟩
  · refine iff_of_false ?_ fun h => hroom h.2
    intro hknown
    rcases hknown ep (by simpa [hendpoints] using hmem) with hbinding | ⟨fd, hfound⟩
    · simp [hsending] at hbinding
    · rw [hfdt, hinsert] at hfound
      exact hs.unbound ep hctl fd hfound

/-- A step leaves the endpoints known, if they were and it is tidy. -/
theorem ClientsInv.allKnown_step (hs : s.ClientsInv clients)
    (hwait : ∀ word env, a = .ctlEvent word env → s.ctl = .waiting) (h : Moves c s a t) :
    t.AllKnown ↔ s.AllKnown ∧ ∀ env, a = .bind env → s.Tidy clients a := by
  cases h with
  | @bound ep env hctl =>
      refine Iff.trans (hs.allKnown_bound hctl rfl rfl rfl) (and_congr_right fun _ => ?_)
      exact ⟨fun htidy env' _ => htidy, fun htidy => htidy env rfl⟩
  | @opened fd fd_data env =>
      have hwaiting : s.ctl = .waiting := hwait _ _ rfl
      rw [and_iff_left (by simp)]
      constructor
      · intro hknown ep hep
        rcases hknown ep (List.mem_cons_of_mem _ hep) with hbinding | hfound
        · -- the new endpoint is not one of the old ones
          cases hbinding
          exact absurd (hs.ports.lt_portc _ hep) (lt_irrefl _)
        · exact Or.inr hfound
      · intro hknown ep hep
        rcases List.mem_cons.1 hep with rfl | hold
        · exact Or.inl rfl
        · rcases hknown ep hold with hbinding | hfound
          · simp [hwaiting] at hbinding
          · exact Or.inr hfound
  | received fd engine hstep =>
      have htables := Engine.step_tables (by simp) hstep
      rw [and_iff_left (by simp)]
      exact allKnown_congr htables.2 htables.1 fun _ => Iff.rfl
  | worked engine ha hstep =>
      have htables := Engine.step_tables (engineAction_ne_control ha) hstep
      rw [and_iff_left (by rintro env rfl; simp [SwitchAction.engineAction] at ha)]
      exact allKnown_congr htables.2 htables.1 fun _ => Iff.rfl
  | refused fd =>
      rw [and_iff_left (by simp)]
      exact allKnown_congr rfl rfl (by simp [hwait _ _ rfl])
  | notified fd_data hctl =>
      rw [and_iff_left (by simp)]
      exact allKnown_congr rfl rfl (by simp [hctl])
  | _ => exact (allKnown_congr rfl rfl fun _ => Iff.rfl).trans (and_iff_left (by simp)).symm

/-- The endpoint that is being bound stays without a descriptor. -/
theorem ClientsInv.unbound_step (hs : s.ClientsInv clients) (hports : t.PortsInv)
    (hmoves : Moves c s a t) (ep : Endpoint) (hctl : t.ctl = .binding ep) (fd : Int) :
    fdTableLookup t.engine.fdt fd ≠ some ep := by
  intro hfound
  rcases hmoves.fdt_cases with hfdt | ⟨_, _, _, _, hsending, _⟩
  · rw [hfdt] at hfound
    rcases hmoves.binding_cases hctl with hold | hnew
    · exact hs.unbound ep hold fd hfound
    · -- the new endpoint was not in the list
      have hmem := (hs.ports.fdt fd ep hfound).1
      have htwice := hports.ports_nodup
      rw [hnew, List.map_cons, List.nodup_cons] at htwice
      exact htwice.1 (List.mem_map_of_mem hmem)
  · simp [hsending] at hctl

theorem ClientsInv.recorded (hs : s.ClientsInv clients) : s.Recorded clients where
  numbered := hs.numbered
  granted := hs.granted
  connected := hs.connected

theorem Recorded.step (hs : s.Recorded clients) (hmoves : Moves c s a t)
    (hwait : ∀ word env, a = .ctlEvent word env → s.ctl = .waiting ∧ word ∈ s.ctl_fds) :
    t.Recorded (recordClients (.running s) a (.running t) clients) := by
  rcases record_cases clients hmoves fun word env ha => (hwait word env ha).1 with
    ⟨fd, client_fd, env, rfl, rfl, hrecord⟩ | ⟨fd, env, rfl, heof, rfl, hrecord⟩ |
    ⟨fd, fd_data, env, rfl, heof, rfl, hrecord⟩ | ⟨_, hctl_fds, hendpoints, hrecord⟩
  · rw [hrecord]
    refine
      { numbered := hs.numbered.accept client_fd
        granted := hs.granted
        connected := ?_ }
    intro word hword htype
    rcases List.mem_append.1 hword with hold | hnew
    · rcases hs.connected word hold htype with ⟨conn, hconn, hfd⟩
      exact ⟨conn, List.mem_cons_of_mem _ hconn, hfd⟩
    · refine ⟨_, List.mem_cons_self, ?_⟩
      rw [List.mem_singleton.1 hnew]
      exact (LO_eventData _ client_fd).symm
  · rw [hrecord]
    refine
      { numbered := hs.numbered.close fd.toInt
        granted := hs.granted
        connected := ?_ }
    intro word hword htype
    rcases List.mem_filter.1 hword with ⟨hmem, hne⟩
    rcases hs.connected word hmem htype with ⟨conn, hconn, hfd⟩
    exact ⟨conn, List.mem_filter.2 ⟨hconn, by simpa [hfd] using hne⟩, hfd⟩
  · have hfd : (LO (CtlReqType.data ⟨.CTL_WD, fd⟩)).toInt = fd.toInt := LO_eventData _ fd
    have hconnected : ∃ conn ∈ clients.connected, conn.fd = fd.toInt := by
      simpa [hfd] using hs.connected _ (hwait _ _ rfl).2
        (HI_eventData (CtlReqType.toNat_lt _) fd)
    rcases Clients.grant_of_connected hconnected ⟨s.portc, fd_data⟩ with
      ⟨conn, hconn, _, hgrant⟩
    rw [hrecord, hgrant]
    refine
      { numbered := { hs.numbered with granted := ?_ }
        granted := congrArg _ hs.granted
        connected := hs.connected }
    intro g hg
    rcases List.mem_cons.1 hg with rfl | hold
    · exact hs.numbered.connected conn hconn
    · exact hs.numbered.granted g hold
  · rw [hrecord]
    exact
      { numbered := hs.numbered
        granted := by rw [hendpoints]; exact hs.granted
        connected := by rw [hctl_fds]; exact hs.connected }

theorem ClientsInv.step (hs : s.ClientsInv clients) (hfresh : s.SocketFresh a)
    (h : s.step c a = some (.ok t)) :
    t.ClientsInv (recordClients (.running s) a (.running t) clients) := by
  have hmoves : Moves c s a t := hs.ports.inv.moves h
  have hports : t.PortsInv := hs.ports.step ((hs.ports.inv.step h).inv t rfl) hmoves
  have hrecorded := hs.recorded.step hmoves fun word env ha =>
    waiting_of_ctlEvent (by rw [← ha]; exact h)
  exact
    { ports := hports
      fds_nodup := fds_nodup_step hs.fds_nodup hfresh hmoves
      numbered := hrecorded.numbered
      granted := hrecorded.granted
      connected := hrecorded.connected
      unbound := hs.unbound_step hports hmoves }

/-! ## When the endpoints follow the clients -/

/-- Between two events of the control plane, that is the case exactly if every endpoint has an open
connection and is known. -/
theorem ClientsInv.follows_iff (hs : s.ClientsInv clients) (hctl : s.ctl = .waiting) :
    s.FollowsClients clients ↔ clients.AllOpen ∧ s.AllKnown := by
  have hmem : ∀ ep, ep ∈ s.engine.endpoints ↔ ∃ g ∈ clients.granted, g.ep = ep := by
    intro ep
    rw [← hs.granted, List.mem_map]
  constructor
  · intro hfollows
    refine ⟨?_, ?_⟩
    · intro g hg
      rcases (hfollows.endpoints g.ep).1 ((hmem g.ep).2 ⟨g, hg, rfl⟩) with ⟨g', hg', hep, hopen⟩
      -- an endpoint is granted once
      have hnodup : (clients.granted.map Grant.ep).Nodup := by
        rw [hs.granted]
        exact hs.ports.ports_nodup.of_map _
      have hsame : g' = g := List.inj_on_of_nodup_map hnodup hg' hg hep
      rw [← hsame]
      exact hopen
    · intro ep hep
      exact Or.inr ((hfollows.fdt ep).2 ((hfollows.endpoints ep).1 hep))
  · rintro ⟨hopen, hknown⟩
    have howns : ∀ ep, ep ∈ s.engine.endpoints ↔ clients.Owns ep := by
      intro ep
      rw [hmem]
      constructor
      · rintro ⟨g, hg, hep⟩
        exact ⟨g, hg, hep, hopen g hg⟩
      · rintro ⟨g, hg, hep, _⟩
        exact ⟨g, hg, hep⟩
    refine
      { endpoints := howns
        slots := ?_
        fdt := ?_
        flooded := ?_
        sent := ?_ }
    · intro i
      constructor
      · intro hup
        rcases hs.ports.up i hup with ⟨ep, hep, hport⟩
        exact ⟨ep, (howns ep).1 hep, hport, by rw [← hport, hs.ports.slot ep hep]⟩
      · rintro ⟨ep, hep, hport, _⟩
        rw [← hport, hs.ports.slot ep ((howns ep).2 hep)]
    · intro ep
      rw [← howns]
      constructor
      · rintro ⟨fd, hfound⟩
        exact (hs.ports.fdt fd ep hfound).1
      · intro hep
        rcases hknown ep hep with hbinding | hfound
        · simp [hctl] at hbinding
        · exact hfound
    · intro p origin_port tr htr
      rcases List.mem_map.1 htr with ⟨ep, hep, rfl⟩
      exact ⟨ep, (howns ep).1 (List.mem_filter.1 hep).1, rfl⟩
    · intro p port sendFails sent hsent tr htr
      rcases sendPacket_ok hsent with ⟨rfl, _⟩ | ⟨ep, hep, _, rfl⟩
      · cases htr
      · exact ⟨ep, (howns ep).1 hep, by rw [List.mem_singleton.1 htr]⟩

end State

/-! ## All runs -/

namespace Switch

/-- `socket` returns no descriptor that is open. -/
def KernelFresh (x : Switch × Clients) (a : SwitchAction) : Prop :=
  x.1.SocketFresh a

instance decidableKernelFresh (x : Switch × Clients) (a : SwitchAction) :
    Decidable (KernelFresh x a) :=
  inferInstanceAs (Decidable (x.1.SocketFresh a))

def Tidy : Switch × Clients → SwitchAction → Prop
  | (.running s, clients), a => s.Tidy clients a
  | (.ended _, _), _ => True

instance decidableTidy : ∀ (x : Switch × Clients) (a : SwitchAction), Decidable (Tidy x a)
  | (.running s, clients), a => inferInstanceAs (Decidable (s.Tidy clients a))
  | (.ended _, _), _ => isTrue trivial

def ClientsInv : Switch × Clients → Prop
  | (.running s, clients) => s.ClientsInv clients
  | (.ended _, _) => True

/-- As long as the process runs, the endpoints have owners and are known. -/
def Served : Switch × Clients → Prop
  | (.running s, clients) => clients.AllOpen ∧ s.AllKnown
  | (.ended _, _) => True

variable {c : Config}

/-- A process that runs after a step has run before. -/
theorem running_of_step {γ : Type} {record : Switch → SwitchAction → Switch → γ → γ}
    {x y : Switch × γ} {a : SwitchAction}
    (h : ((switch c).withHistory record).step x a = some y) : ¬ x.1.Ended := by
  intro hended
  have hnone := step_of_ended (c := c) (a := a) hended
  rw [(Machine.withHistory_step.1 h).1] at hnone
  cases hnone

theorem clientsInv_step {x y : Switch × Clients} {a : SwitchAction} (hx : ClientsInv x)
    (ha : KernelFresh x a) (h : ((switch c).withHistory recordClients).step x a = some y)
    (hlive : ¬ y.1.Ended) : ClientsInv y ∧ (Served y ↔ Served x ∧ Tidy x a) := by
  rcases Machine.withHistory_step.1 h with ⟨hstep, hclients⟩
  rcases x with ⟨s, clients⟩
  rcases y with ⟨t, clients'⟩
  cases s with
  | ended halt => cases hstep
  | running s =>
      rcases Option.map_eq_some_iff.1 hstep with ⟨r, hr, hrt⟩
      cases r with
      | error halt =>
          cases hrt
          exact absurd trivial hlive
      | ok u =>
          cases hrt
          have hrecord : clients' = recordClients (.running s) a (.running u) clients := hclients
          have hs : s.ClientsInv clients := hx
          have hmoves : State.Moves c s a u := hs.ports.inv.moves hr
          have hwait : ∀ word env, a = .ctlEvent word env → s.ctl = .waiting := by
            rintro word env rfl
            exact (State.waiting_of_ctlEvent hr).1
          have hword : ∀ word env, a = .ctlEvent word env → word ∈ s.ctl_fds := by
            rintro word env rfl
            exact (State.waiting_of_ctlEvent hr).2
          rw [hrecord]
          refine ⟨hs.step ha hr, ?_⟩
          have hopen := hs.allOpen_step hwait hword hmoves
          have hknown := hs.allKnown_step hwait hmoves
          have htidy : s.Tidy clients a ↔
              (∀ word env, a = .ctlEvent word env → s.Tidy clients a) ∧
                ∀ env, a = .bind env → s.Tidy clients a := by
            cases a <;> simp [State.Tidy]
          rw [Served, Served, Tidy, htidy, hopen, hknown]
          exact and_and_and_comm

/-- In a state between two events of the control plane, whichever they were, the endpoints are those
of the connected clients if and only if no client that had been given one has gone away on the
way there, and the table of descriptors had room for all of them. -/
theorem followsClients_iff {acts : List SwitchAction} {s : State} {clients : Clients}
    (hfresh : ((switch c).withHistory recordClients).Guarded KernelFresh
      (.running (State.start c), .start) acts)
    (hrun : ((switch c).withHistory recordClients).run (.running (State.start c), .start) acts =
      some (.running s, clients)) (hctl : s.ctl = .waiting) :
    s.FollowsClients clients ↔ ((switch c).withHistory recordClients).Guarded Tidy
      (.running (State.start c), .start) acts := by
  have hstart : ClientsInv (.running (State.start c), .start) := State.clientsInv_start c
  have hserved : Served (.running (State.start c), .start) := by
    refine ⟨?_, ?_⟩
    · intro g hg
      cases hg
    · intro ep hep
      cases hep
  have hend : ClientsInv (.running s, clients) := by
    refine Machine.invariant_run_guarded (fun x => ¬ x.1.Ended → ClientsInv x) ?_ (fun _ => hstart)
      hfresh hrun id
    intro x a y hx ha hstep hlive
    exact (clientsInv_step (hx (running_of_step hstep)) ha hstep hlive).1
  rw [State.ClientsInv.follows_iff hend hctl]
  exact Machine.good_iff_guarded ClientsInv Served (fun x => ¬ x.1.Ended)
    (fun _ _ _ hstep _ => running_of_step hstep)
    (fun _ _ _ hx ha hstep hlive => clientsInv_step hx ha hstep hlive) hstart hserved hfresh hrun id

/-! ## A client that comes and goes -/

/-- A client is given a port, and closes its connection. -/
def connectAndLeave : List SwitchAction :=
  connectAndRequest 3 ++
    [.bind
        { unlinkFails := false
          bindFails := false
          write := .written
          reallocated := true },
      .notify false false,
      .ctlEvent (eventData CtlReqType.CTL_WD.toNat 7)
        { accept :=
            { client := none
              fcntlFails := false
              epollFails := false }
          request :=
            { req := some ReqBytes.eof
              stale := ReqBuf.zeroed
              opening :=
                { socket := none
                  fcntlFails := false
                  connectFails := false } } }]

/-- What can be seen of a state with its clients. -/
def observe : Switch × Clients → Option (CtlPc × List Endpoint × List Connection)
  | (.running s, clients) => some (s.ctl, s.engine.endpoints, clients.connected)
  | (.ended _, _) => none

/-- The endpoint stays behind. -/
theorem not_followsClients_connectAndLeave :
    ∃ s clients, ((switch oneWorker).withHistory recordClients).Guarded KernelFresh
        (.running (State.start oneWorker), .start) connectAndLeave ∧
      ((switch oneWorker).withHistory recordClients).run
        (.running (State.start oneWorker), .start) connectAndLeave = some (.running s, clients) ∧
      s.ctl = .waiting ∧ ¬ s.FollowsClients clients := by
  have heval : (((switch oneWorker).withHistory recordClients).run
      (.running (State.start oneWorker), .start) connectAndLeave).map observe =
        some (some (.waiting, [⟨1, 8⟩], [])) := by
    decide +kernel
  rcases Option.map_eq_some_iff.1 heval with ⟨⟨t, clients⟩, hrun, hobserve⟩
  cases t with
  | ended halt => cases hobserve
  | running s =>
      simp only [observe, Option.some.injEq, Prod.mk.injEq] at hobserve
      rcases hobserve with ⟨hctl, hendpoints, hconnected⟩
      refine ⟨s, clients, by decide +kernel, hrun, hctl, ?_⟩
      intro hfollows
      -- nobody is connected any more
      rcases (hfollows.endpoints ⟨1, 8⟩).1 (by simp [hendpoints]) with ⟨g, _, _, conn, hconn, _⟩
      simp [hconnected] at hconn

/-- A client that stays. -/
theorem followsClients_connectAndAttach :
    ∃ s clients, ((switch oneWorker).withHistory recordClients).run
        (.running (State.start oneWorker), .start) connectAndAttach = some (.running s, clients) ∧
      s.FollowsClients clients := by
  have heval : (((switch oneWorker).withHistory recordClients).run
      (.running (State.start oneWorker), .start) connectAndAttach).map observe =
        some (some (.waiting, [⟨1, 8⟩], [⟨0, 7⟩])) := by
    decide +kernel
  rcases Option.map_eq_some_iff.1 heval with ⟨⟨t, clients⟩, hrun, hobserve⟩
  cases t with
  | ended halt => cases hobserve
  | running s =>
      simp only [observe, Option.some.injEq, Prod.mk.injEq] at hobserve
      exact ⟨s, clients, hrun, (followsClients_iff (by decide +kernel) hrun hobserve.1).2
        (by decide +kernel)⟩

end Switch

end Process
end EVdeSwitch
