import EVdeSwitch.Io.EventLoops
import EVdeSwitch.Io.PortManager
import EVdeSwitch.Lib.Memory

/-!
# Requests — what a client writes on its control connection

`accept_new_ctl_conn` and `handle_wd_req` of `src/control_plane/control_plane.c`.  A request is
read into a buffer on the stack; what the `read` does not fill keeps the bytes that were there.
-/

namespace EVdeSwitch
namespace ControlPlane

open EVdeSwitch.Io
open EVdeSwitch.Lib
open EVdeSwitch.Utils

/-! ## New connections -/

structure AcceptEnv where
  client : Option Fd
  fcntlFails : Bool
  epollFails : Bool
  deriving DecidableEq

/-- The result, and the descriptors the control plane waits for. -/
def acceptNewCtlConn (ctl_fds : List (BitVec 64)) (env : AcceptEnv) :
    Except Halt (Int × List (BitVec 64)) :=
  match env.client with
  | none => (printlog .ERROR "accept() failed").map fun _ => (-1, ctl_fds)
  | some client_fd =>
      if env.fcntlFails then
        -- A warning returns, and so does the function, with -1
        (printlog .WARNING "fcntl - setting O_NONBLOCK %s").map fun _ => (-1, ctl_fds)
      else
        (addFd ctl_fds CtlReqType.CTL_WD.toNat client_fd env.epollFails).map
          fun ctl_fds => (0, ctl_fds)

/-! ## Requests -/

def SWITCH_MAGIC : Nat := 0xfeedface

def REQBUFLEN : Nat := 256

/-- What one `read` of at most `REQBUFLEN` bytes brings. -/
structure ReqBytes where
  bytes : List UInt8
  length_le : bytes.length ≤ REQBUFLEN
  deriving DecidableEq

/-- What `read` brings once the client has closed its end. -/
def ReqBytes.eof : ReqBytes :=
  { bytes := []
    length_le := Nat.zero_le REQBUFLEN }

/-- The memory of `reqbuf`. -/
structure ReqBuf where
  bytes : List UInt8
  length_eq : bytes.length = REQBUFLEN + 1
  deriving DecidableEq

namespace ReqBuf

def zeroed : ReqBuf :=
  { bytes := List.replicate (REQBUFLEN + 1) 0
    length_eq := List.length_replicate }

theorem length_read (stale : ReqBuf) (req : ReqBytes) :
    (storeBytes req.bytes stale.bytes).length = REQBUFLEN + 1 := by
  have hle := req.length_le
  have hlen := stale.length_eq
  rw [storeBytes, List.length_append, List.length_drop]
  omega

/-- A field of four bytes of `union request`. -/
def field (reqbuf : ReqBuf) (offset : Nat) : Nat :=
  bytesWord ((reqbuf.bytes.drop offset).take 4)

/-- `req->v1.magic` -/
def magic (reqbuf : ReqBuf) : Nat :=
  reqbuf.field 0

/-- `req->v3.version` -/
def version (reqbuf : ReqBuf) : Nat :=
  reqbuf.field 4

/-- `reqbuf` after the `read`. -/
def read (stale : ReqBuf) (req : ReqBytes) : ReqBuf :=
  { bytes := storeBytes req.bytes stale.bytes
    length_eq := length_read stale req }

/-- `reqbuf[len] = 0` -/
def terminate (reqbuf : ReqBuf) (len : Nat) : ReqBuf :=
  { bytes := reqbuf.bytes.set len 0
    length_eq := by rw [List.length_set, reqbuf.length_eq] }

end ReqBuf

/-- What the environment of a call of `handle_wd_req` decides: what `read` brings (`none` if it
fails), what `reqbuf` held before, and the outcomes of the calls made by `add_port`. -/
structure RequestEnv where
  req : Option ReqBytes
  stale : ReqBuf
  opening : OpenEnv
  deriving DecidableEq

/-- How far a call of `handle_wd_req` has come by itself. -/
inductive WdReq
  /-- It returns. -/
  | returned (result : Int)
  /-- It closes the connection, and returns 1. -/
  | closed
  /-- It is in `add_port`, which has made the endpoint visible. -/
  | binding (ep : Endpoint)
  /-- It has the result of `add_port`, and is about to send it. -/
  | sending (fd_data : Int)
  deriving DecidableEq

/-- `handle_wd_req` on a request with the right magic number. -/
def handleMagicReq (m : PortManager) (version : Nat) (opening : OpenEnv) :
    Except Halt (WdReq × PortManager) :=
  if version = 3 then
    (addPortOpen m opening).map fun (ep, m) =>
      match ep with
      | some ep => (.binding ep, m)
      -- the -1 of `add_port` is sent on like a descriptor
      | none => (.sending (-1), m)
  else if version > 2 ∨ version = 2 then
    (printlog .ERROR
      "Request for a version %d port, which this vde_switch doesn't support").map
        fun _ => (.returned 0, m)
  else
    (printlog .INFO "Request for v1 version").map fun _ => (.returned 0, m)

def handleWdReq (m : PortManager) (env : RequestEnv) : Except Halt (WdReq × PortManager) :=
  match env.req with
  | none => (printlog .ERROR "read() failed").map fun _ => (.returned (-1), m)
  | some req =>
      if req.bytes.length = 0 then
        (printlog .INFO "Client closed connection").map fun _ => (.closed, m)
      else if (env.stale.read req).magic = SWITCH_MAGIC then
        let reqbuf := (env.stale.read req).terminate req.bytes.length
        handleMagicReq m reqbuf.version env.opening
      else
        -- a request without the magic number is ignored
        .ok (.returned 0, m)

/-! ## Which requests end the process -/

/-- The request is one for a port of version 3, and `add_port` ends the process; or it is one of
a version that is neither 3 nor one of the first two. -/
def VersionFails (m : PortManager) (version : Nat) (opening : OpenEnv) : Prop :=
  (version = 3 ∧ m.OpenFails opening) ∨ (2 ≤ version ∧ version ≠ 3)

def RequestFails (m : PortManager) (env : RequestEnv) : Prop :=
  match env.req with
  | none => True
  | some req =>
      req.bytes.length ≠ 0 ∧ (env.stale.read req).magic = SWITCH_MAGIC ∧
        VersionFails m ((env.stale.read req).terminate req.bytes.length).version env.opening

/-- What a call that does not end the process leaves behind: it returns no error, and what it is
about to send is the -1 of `add_port`. -/
structure WdReq.Sound (outcome : WdReq) (m : PortManager) : Prop where
  inv : m.Inv
  returned : ∀ result, outcome = .returned result → result = 0
  sending : ∀ fd_data, outcome = .sending fd_data → fd_data = -1

section Outcomes

variable {m : PortManager}

theorem sound_returned (hm : m.Inv) : (WdReq.returned 0).Sound m where
  inv := hm
  returned := by
    intro result h
    cases h
    rfl
  sending := by
    intro fd_data h
    cases h

theorem handleMagicReq_cases (hm : m.Inv) (version : Nat) (opening : OpenEnv) :
    (VersionFails m version opening ∧ Exits (handleMagicReq m version opening)) ∨
      (¬ VersionFails m version opening ∧
        ∃ outcome m', handleMagicReq m version opening = .ok (outcome, m') ∧ outcome.Sound m') := by
  by_cases hthree : version = 3
  -- a request for a port
  · subst hthree
    rcases hm.addPortOpen_cases opening with
      ⟨hfails, hexit⟩ | ⟨hfails, _, hnone⟩ | ⟨hfails, _, fd_data, _, hsome⟩
    · refine Or.inl ⟨Or.inl ⟨rfl, hfails⟩, ?_⟩
      simpa [handleMagicReq] using hexit
    · -- `add_port` has given up because of `fcntl`
      refine Or.inr ⟨by simpa [VersionFails] using hfails, .sending (-1), m, ?_, ?_⟩
      · simp [handleMagicReq, hnone, Except.map]
      · refine
          { inv := hm
            returned := by intro result h; cases h
            sending := by intro fd_data h; cases h; rfl }
    · refine Or.inr ⟨by simpa [VersionFails] using hfails, .binding ⟨m.portc, fd_data⟩,
        m.opened fd_data, ?_, ?_⟩
      · simp [handleMagicReq, hsome, Except.map]
      · refine
          { inv := hm.opened fd_data
            returned := by intro result h; cases h
            sending := by intro fd_data h; cases h }
  · -- version 2, and those from 4 on, are errors; the first two are only logged
    by_cases htwo : 2 ≤ version
    · have hversion : version > 2 ∨ version = 2 := by omega
      refine Or.inl ⟨Or.inr ⟨htwo, hthree⟩, ?_⟩
      simp [handleMagicReq, if_neg hthree, if_pos hversion]
    · have hversion : ¬ (version > 2 ∨ version = 2) := by omega
      refine Or.inr ⟨by simp [VersionFails, hthree, htwo], .returned 0, m, ?_, sound_returned hm⟩
      simp only [handleMagicReq, if_neg hthree, if_neg hversion]
      rfl

/-- A call ends the process exactly for the requests that are to blame for it. -/
theorem handleWdReq_cases (hm : m.Inv) (env : RequestEnv) :
    (RequestFails m env ∧ Exits (handleWdReq m env)) ∨
      (¬ RequestFails m env ∧
        ∃ outcome m', handleWdReq m env = .ok (outcome, m') ∧ outcome.Sound m') := by
  cases hreq : env.req with
  | none =>
      refine Or.inl ⟨by simp [RequestFails, hreq], ?_⟩
      simp [handleWdReq, hreq]
  | some req =>
      by_cases hempty : req.bytes.length = 0
      · -- an empty `read` is the end of the connection
        refine Or.inr ⟨by simp [RequestFails, hreq, hempty], .closed, m, ?_, ?_⟩
        · simp [handleWdReq, hreq, hempty, Except.map]
        · refine
            { inv := hm
              returned := by intro result h; cases h
              sending := by intro fd_data h; cases h }
      · by_cases hmagic : (env.stale.read req).magic = SWITCH_MAGIC
        · simpa [handleWdReq, RequestFails, hreq, hempty, hmagic] using
            handleMagicReq_cases hm _ env.opening
        · refine Or.inr ⟨by simp [RequestFails, hreq, hmagic], .returned 0, m, ?_, sound_returned hm⟩
          simp [handleWdReq, hreq, hempty, hmagic]

end Outcomes

/-! ## What a request leaves behind -/

/-- The client has closed its end. -/
def Eof (env : RequestEnv) : Prop :=
  ∃ req, env.req = some req ∧ req.bytes.length = 0

/-- The request is one for a port, so `add_port` is called. -/
def AsksForPort (env : RequestEnv) : Prop :=
  ∃ req, env.req = some req ∧ req.bytes.length ≠ 0 ∧ (env.stale.read req).magic = SWITCH_MAGIC ∧
    ((env.stale.read req).terminate req.bytes.length).version = 3

theorem eof_iff {env : RequestEnv} {req : ReqBytes} (hreq : env.req = some req) :
    Eof env ↔ req.bytes.length = 0 := by
  simp [Eof, hreq]

theorem asksForPort_iff {env : RequestEnv} {req : ReqBytes} (hreq : env.req = some req) :
    AsksForPort env ↔ req.bytes.length ≠ 0 ∧ (env.stale.read req).magic = SWITCH_MAGIC ∧
      ((env.stale.read req).terminate req.bytes.length).version = 3 := by
  simp [AsksForPort, hreq]

theorem not_asksForPort {env : RequestEnv} (hreq : env.req = none) : ¬ AsksForPort env := by
  simp [AsksForPort, hreq]

theorem not_eof {env : RequestEnv} (hreq : env.req = none) : ¬ Eof env := by
  simp [Eof, hreq]

instance decidableEof (env : RequestEnv) : Decidable (Eof env) :=
  match h : env.req with
  | none => isFalse (not_eof h)
  | some _ => decidable_of_iff _ (eof_iff h).symm

instance decidableAsksForPort (env : RequestEnv) : Decidable (AsksForPort env) :=
  match h : env.req with
  | none => isFalse (not_asksForPort h)
  | some _ => decidable_of_iff _ (asksForPort_iff h).symm

theorem AsksForPort.not_eof {env : RequestEnv} (h : AsksForPort env) : ¬ Eof env := by
  rcases h with ⟨req, hreq, hne, _⟩
  simpa [eof_iff hreq] using hne

/-- The ways a call of `handle_wd_req` can come to an end, with what they do to the ports. -/
inductive Answers (m : PortManager) (env : RequestEnv) : WdReq → PortManager → Prop
  /-- There is no magic number, or the version is one of the first two. -/
  | ignored : ¬ Eof env → ¬ AsksForPort env → Answers m env (.returned 0) m
  | closed : Eof env → Answers m env .closed m
  /-- `add_port` has given up because of `fcntl`. -/
  | refused : AsksForPort env → env.opening.fcntlFails = true → Answers m env (.sending (-1)) m
  | opened (fd_data : Fd) : AsksForPort env → env.opening.fcntlFails = false →
      env.opening.socket = some fd_data →
      Answers m env (.binding ⟨m.portc, fd_data⟩) (m.opened fd_data)

theorem answers_of_handleWdReq {m m' : PortManager} (hm : m.Inv) {env : RequestEnv}
    {outcome : WdReq} (h : handleWdReq m env = .ok (outcome, m')) : Answers m env outcome m' := by
  cases hreq : env.req with
  | none => simp [handleWdReq, hreq, Except.map] at h
  | some req =>
      have heof := eof_iff hreq
      have hasks := asksForPort_iff hreq
      by_cases hempty : req.bytes.length = 0
      · simp [handleWdReq, hreq, hempty, Except.map] at h
        rcases h with ⟨rfl, rfl⟩
        exact .closed (heof.2 hempty)
      · by_cases hmagic : (env.stale.read req).magic = SWITCH_MAGIC
        · simp only [handleWdReq, hreq, if_neg hempty, if_pos hmagic] at h
          by_cases hthree : ((env.stale.read req).terminate req.bytes.length).version = 3
          · have hport : AsksForPort env := hasks.2 ⟨hempty, hmagic, hthree⟩
            rcases hm.addPortOpen_cases env.opening with
              ⟨_, message, hexit⟩ | ⟨_, hfcntl, hnone⟩ | ⟨_, hfcntl, fd_data, hsocket, hsome⟩
            · simp [handleMagicReq, hthree, hexit, Except.map] at h
            · simp [handleMagicReq, hthree, hnone, Except.map] at h
              rcases h with ⟨rfl, rfl⟩
              exact .refused hport hfcntl
            · simp [handleMagicReq, hthree, hsome, Except.map] at h
              rcases h with ⟨rfl, rfl⟩
              exact .opened fd_data hport hfcntl hsocket
          · -- the version is only logged, or the call does not return
            by_cases hversion : ((env.stale.read req).terminate req.bytes.length).version > 2 ∨
                ((env.stale.read req).terminate req.bytes.length).version = 2
            · simp [handleMagicReq, if_neg hthree, if_pos hversion, Except.map] at h
            · simp [handleMagicReq, if_neg hthree, if_neg hversion, Except.map] at h
              rcases h with ⟨rfl, rfl⟩
              exact .ignored (mt heof.1 hempty) fun hport => hthree (hasks.1 hport).2.2
        · simp only [handleWdReq, hreq, if_neg hempty, if_neg hmagic, Except.ok.injEq,
            Prod.mk.injEq] at h
          rcases h with ⟨rfl, rfl⟩
          exact .ignored (mt heof.1 hempty) fun hport => hmagic (hasks.1 hport).2.1

/-- The new connections that the loop of the control plane does not survive: it ends the process
when `accept_new_ctl_conn` returns -1. -/
def AcceptFails (env : AcceptEnv) : Prop :=
  env.client = none ∨ env.fcntlFails = true ∨ env.epollFails = true

theorem acceptNewCtlConn_cases (ctl_fds : List (BitVec 64)) (env : AcceptEnv) :
    (AcceptFails env ∧ (Exits (acceptNewCtlConn ctl_fds env) ∨
        acceptNewCtlConn ctl_fds env = .ok (-1, ctl_fds))) ∨
      (¬ AcceptFails env ∧ ∃ client_fd, env.client = some client_fd ∧
        acceptNewCtlConn ctl_fds env =
          .ok (0, ctl_fds ++ [eventData CtlReqType.CTL_WD.toNat client_fd])) := by
  rcases env with ⟨client, fcntlFails, epollFails⟩
  cases client with
  | none => simp [AcceptFails, acceptNewCtlConn]
  | some client_fd =>
      cases fcntlFails with
      -- here the function returns -1, and the loop ends the process
      | true => simp [AcceptFails, acceptNewCtlConn, Except.map]
      | false => cases epollFails <;> simp [AcceptFails, acceptNewCtlConn, addFd, Except.map]

end ControlPlane
end EVdeSwitch
