import EVdeSwitch.Message.ControlPipe

/-!
# Framing — do the readers of the control pipe stay in step with its writers?

The reader takes the payload of a message out of the pipe only for `MSG_PORT_ADD`; any other
payload is left lying there, where the next call looks for a header.
-/

namespace EVdeSwitch
namespace Message

open EVdeSwitch.Lib
open EVdeSwitch.Utils

/-- A message as a caller of `send_ctl_message` hands it over: `MSG_PORT_ADD` carries a descriptor,
the other types any bytes. -/
structure CtlMessage where
  type : CtlMessageType
  payload : List UInt8
  length_lt : payload.length < 2 ^ 32
  port_add : type = .MSG_PORT_ADD → ∃ fd : Fd, payload = wordBytes 4 fd.val

namespace CtlMessage

def bytes (m : CtlMessage) : List UInt8 :=
  headerBytes m.type m.payload.length ++ m.payload

end CtlMessage

/-- The bytes of a sequence of messages. -/
def stream (ms : List CtlMessage) : List UInt8 :=
  ms.flatMap CtlMessage.bytes

@[simp] theorem stream_nil : stream [] = [] := rfl

theorem stream_cons (m : CtlMessage) (ms : List CtlMessage) :
    stream (m :: ms) = m.bytes ++ stream ms := by
  simp [stream]

/-- Send the messages one after the other. -/
def sendAll (pipe : List UInt8) (ms : List CtlMessage) : Except Halt (List UInt8) :=
  ms.foldlM (fun pipe m => sendCtlMessage pipe m.type m.payload false false) pipe

theorem sendAll_eq (pipe : List UInt8) (ms : List CtlMessage) :
    sendAll pipe ms = .ok (pipe ++ stream ms) := by
  induction ms generalizing pipe with
  | nil =>
      rw [stream_nil, List.append_nil]
      rfl
  | cons m ms ih =>
      have hsend : sendCtlMessage pipe m.type m.payload false false = .ok (pipe ++ m.bytes) :=
        (sendCtlMessage_ok pipe m.type m.payload).trans
          (congrArg Except.ok (List.append_assoc _ _ _))
      calc
        sendAll pipe (m :: ms)
            = (sendCtlMessage pipe m.type m.payload false false).bind
                (fun pipe => sendAll pipe ms) := rfl
        _ = sendAll (pipe ++ m.bytes) ms := by rw [hsend]; rfl
        _ = .ok (pipe ++ stream (m :: ms)) := by rw [ih, stream_cons, List.append_assoc]

/-! ## Reading one message -/

theorem length_headerBytes (type : CtlMessageType) (len : Nat) :
    (headerBytes type len).length = 8 :=
  length_wordBytes _ _

theorem readPipe_append {bytes : List UInt8} (rest : List UInt8) (h : bytes ≠ []) :
    readPipe (bytes ++ rest) bytes.length = some (bytes, rest) := by
  simp [readPipe, h]

/-- Reading back the two halves of a header. -/
theorem header_decodes (type : CtlMessageType) {len : Nat} (hlen : len < 2 ^ 32)
    (stale : BitVec 64) :
    let msg_header := BitVec.ofNat 64
      (bytesWord (storeBytes (headerBytes type len) (wordBytes 8 stale.toNat)))
    (HI msg_header).toInt = type.toNat ∧ (LO msg_header).toInt = (BitVec.ofNat 32 len).toInt := by
  have hword : BitVec.ofNat 64
      (bytesWord (storeBytes (headerBytes type len) (wordBytes 8 stale.toNat))) =
        TO64 (BitVec.ofInt 64 type.toNat) (BitVec.ofNat 64 len) := by
    -- all eight bytes of msg_header are overwritten
    rw [storeBytes_of_length_le (by rw [length_headerBytes, length_wordBytes]), headerBytes,
      bytesWord_wordBytes_of_lt (BitVec.isLt _), BitVec.ofNat_toNat, BitVec.setWidth_eq]
  have hofNat : BitVec.ofNat 64 len = BitVec.ofInt 64 len := (BitVec.ofInt_natCast 64 len).symm
  simp only [hword, hofNat]
  refine ⟨HI_TO64_toInt type.toNat_lt hlen, ?_⟩
  rw [LO_TO64, setWidth_ofInt_natCast]

/-- The header of a message, read off the front of the pipe. -/
theorem readPipe_header (type : CtlMessageType) (len : Nat) (rest : List UInt8) :
    readPipe (headerBytes type len ++ rest) 8 = some (headerBytes type len, rest) := by
  have hne : headerBytes type len ≠ [] := by
    intro hnil
    have hlen := length_headerBytes type len
    rw [hnil] at hlen
    cases hlen
  have hread := readPipe_append rest hne
  rw [length_headerBytes] at hread
  exact hread

/-- After the header, only `MSG_PORT_ADD` makes the reader read on. -/
theorem handleCtlMessage_header (type : CtlMessageType) {len : Nat} (hlen : len < 2 ^ 32)
    (rest : List UInt8) {env : CtlEnv} (hread : env.readFails = false) :
    handleCtlMessage env (headerBytes type len ++ rest) =
      if type = .MSG_PORT_ADD then
        handlePortAdd env type.toNat (BitVec.ofNat 32 len).toInt rest
      else
        some
          { msg_type := type.toNat
            len := (BitVec.ofNat 32 len).toInt
            rest := rest
            result := .ok none } := by
  rcases header_decodes type hlen env.stale with ⟨htype, hdecoded⟩
  simp only [handleCtlMessage, readPipe_header, Option.bind_some, htype, hdecoded, hread,
    Bool.false_eq_true, if_false, CtlMessageType.ofInt_toNat]
  cases type <;> rfl

/-- The four bytes after the header of a `MSG_PORT_ADD` are the descriptor. -/
theorem handlePortAdd_word (env : CtlEnv) (msg_type : Int) (x : BitVec 32) (rest : List UInt8) :
    handlePortAdd env msg_type 4 (wordBytes 4 x.toNat ++ rest) =
      some
        { msg_type := msg_type
          len := 4
          rest := rest
          result :=
            if x.toInt < 0 then (printlog .ERROR "read() failed: %s").map fun _ => none
            else addPacketFd x.toInt env.epollFails } := by
  have hread : readPipe (wordBytes 4 x.toNat ++ rest) ((4 : Int) % 2 ^ 64).toNat =
      some (wordBytes 4 x.toNat, rest) := by
    have hne : wordBytes 4 x.toNat ≠ [] := by simp [wordBytes]
    have hread4 := readPipe_append rest hne
    rw [length_wordBytes] at hread4
    exact hread4
  have hdata : BitVec.ofNat 32
      (bytesWord (storeBytes (wordBytes 4 x.toNat) [255, 255, 255, 255])) = x := by
    have hlt : x.toNat < 256 ^ 4 := x.isLt
    -- all four bytes of data_fd are overwritten
    rw [storeBytes_of_length_le (by simp), bytesWord_wordBytes_of_lt hlt, BitVec.ofNat_toNat,
      BitVec.setWidth_eq]
  have hroom : ¬ (wordBytes 4 x.toNat).length > 4 := by simp
  rw [handlePortAdd, hread, Option.map_some]
  simp only [hdata, if_neg hroom]

/-- What a call does with a message at the front of the pipe. -/
theorem handleCtlMessage_bytes (m : CtlMessage) (rest : List UInt8) {env : CtlEnv}
    (hread : env.readFails = false) :
    ∃ call, handleCtlMessage env (m.bytes ++ rest) = some call ∧
      call.msg_type = m.type.toNat ∧ call.len = (BitVec.ofNat 32 m.payload.length).toInt ∧
      call.rest = (if m.type = .MSG_PORT_ADD then rest else m.payload ++ rest) ∧
      (env.epollFails = false → ∃ fd, call.result = .ok fd) := by
  have hheader := handleCtlMessage_header m.type m.length_lt (m.payload ++ rest) hread
  rw [CtlMessage.bytes, List.append_assoc, hheader]
  by_cases hadd : m.type = .MSG_PORT_ADD
  · rcases m.port_add hadd with ⟨fd, hpayload⟩
    have hword : (BitVec.ofNat 32 fd.val).toNat = fd.val := by
      rw [BitVec.toNat_ofNat]
      exact Nat.mod_eq_of_lt (lt_trans fd.lt (by decide))
    have hnonneg : ¬ (BitVec.ofNat 32 fd.val).toInt < 0 := by
      rw [toInt_ofNat32 fd.lt]
      exact not_lt.2 (Int.natCast_nonneg fd.val)
    have hcall := handlePortAdd_word env m.type.toNat (BitVec.ofNat 32 fd.val) rest
    rw [hword, if_neg hnonneg] at hcall
    rw [if_pos hadd, if_pos hadd, hpayload, length_wordBytes]
    refine ⟨_, hcall, rfl, rfl, rfl, ?_⟩
    intro hepoll
    exact ⟨some _, by rw [hepoll]; rfl⟩
  · -- the payload stays where it is
    rw [if_neg hadd, if_neg hadd]
    exact ⟨_, rfl, rfl, rfl, rfl, fun _ => ⟨none, rfl⟩⟩

/-! ## Reading them all -/

/-- Each call decodes its message, and leaves exactly the messages after it in the pipe. -/
def Decodes : List CtlMessage → List CtlCall → Prop
  | _, [] => True
  | [], _ :: _ => False
  | m :: ms, call :: calls =>
      call.msg_type = m.type.toNat ∧ call.len = m.payload.length ∧ call.rest = stream ms ∧
        Decodes ms calls

@[simp] theorem decodes_nil (ms : List CtlMessage) : Decodes ms [] := by
  cases ms <;> trivial

/-- Whatever the environment does, the calls that are made decode the messages one by one; and
all calls are made, unless `epoll_ctl` refuses a descriptor. -/
def RoundTrips (ms : List CtlMessage) : Prop :=
  ∀ (pipe : List UInt8) (envs : List CtlEnv), sendAll [] ms = .ok pipe →
    envs.length = ms.length → (∀ env ∈ envs, env.readFails = false) →
      Decodes ms (handleCalls envs pipe) ∧
        ((∀ env ∈ envs, env.epollFails = false) → (handleCalls envs pipe).length = ms.length)

/-- The messages whose payload the reader knows how to take. -/
def Consumed (m : CtlMessage) : Prop :=
  m.type ≠ .MSG_PORT_ADD → m.payload = []

namespace Consumed

variable {m : CtlMessage}

theorem rest_eq (hm : Consumed m) (rest : List UInt8) :
    (if m.type = .MSG_PORT_ADD then rest else m.payload ++ rest) = rest := by
  by_cases hadd : m.type = .MSG_PORT_ADD
  · rw [if_pos hadd]
  · rw [if_neg hadd, hm hadd, List.nil_append]

theorem len_eq (hm : Consumed m) :
    (BitVec.ofNat 32 m.payload.length).toInt = m.payload.length := by
  have hlt : m.payload.length < 2 ^ 31 := by
    by_cases hadd : m.type = .MSG_PORT_ADD
    · rcases m.port_add hadd with ⟨fd, hpayload⟩
      rw [hpayload, length_wordBytes]
      decide
    · rw [hm hadd]
      decide
  exact toInt_ofNat32 hlt

end Consumed

/-- The calls on a stream of such messages. -/
theorem decodes_handleCalls {ms : List CtlMessage} (hms : ∀ m ∈ ms, Consumed m)
    {envs : List CtlEnv} (hlen : envs.length = ms.length)
    (hread : ∀ env ∈ envs, env.readFails = false) :
    Decodes ms (handleCalls envs (stream ms)) ∧
      ((∀ env ∈ envs, env.epollFails = false) →
        (handleCalls envs (stream ms)).length = ms.length) := by
  induction ms generalizing envs with
  | nil =>
      rw [List.eq_nil_of_length_eq_zero hlen]
      exact ⟨trivial, fun _ => rfl⟩
  | cons m ms ih =>
      cases envs with
      | nil => cases hlen
      | cons env envs =>
          have hm : Consumed m := hms m List.mem_cons_self
          rcases handleCtlMessage_bytes m (stream ms) (hread env List.mem_cons_self) with
            ⟨call, hcall, htype, hcallLen, hrest, hresult⟩
          rw [hm.rest_eq] at hrest
          rw [hm.len_eq] at hcallLen
          rcases ih (fun m hm => hms m (List.mem_cons_of_mem _ hm)) (Nat.succ.inj hlen)
            (fun env henv => hread env (List.mem_cons_of_mem _ henv)) with ⟨hdecodes, hlength⟩
          rw [stream_cons]
          -- the other calls find the pipe at the next message
          cases hresult' : call.result with
          | ok fd =>
              simp only [handleCalls, hcall, hresult', hrest]
              refine ⟨⟨htype, hcallLen, hrest, hdecodes⟩, ?_⟩
              intro hepoll
              rw [List.length_cons, List.length_cons,
                hlength fun env henv => hepoll env (List.mem_cons_of_mem _ henv)]
          | error halt =>
              simp only [handleCalls, hcall, hresult']
              refine ⟨⟨htype, hcallLen, hrest, decodes_nil ms⟩, ?_⟩
              intro hepoll
              -- only a refused descriptor ends the process
              rcases hresult (hepoll env List.mem_cons_self) with ⟨fd, hfd⟩
              rw [hfd] at hresult'
              cases hresult'

/-- An environment in which no call fails. -/
def CtlEnv.quiet : CtlEnv :=
  { stale := 0
    readFails := false
    epollFails := false }

/-- If the first call leaves the pipe at the second message, then the first message is one of
those that the reader takes; and the other calls see what they would see alone. -/
theorem consumed_of_decodes {m : CtlMessage} {ms : List CtlMessage} {envs : List CtlEnv}
    (h : Decodes (m :: ms) (handleCalls (CtlEnv.quiet :: envs) (stream (m :: ms)))) :
    Consumed m ∧ Decodes ms (handleCalls envs (stream ms)) := by
  rcases handleCtlMessage_bytes m (stream ms) (show CtlEnv.quiet.readFails = false from rfl) with
    ⟨call, hcall, _, _, hrest, hresult⟩
  rcases hresult rfl with ⟨fd, hfd⟩
  rw [stream_cons] at h
  simp only [handleCalls, hcall, hfd] at h
  rcases h with ⟨_, _, hstream, hdecodes⟩
  rw [hstream] at hrest hdecodes
  refine ⟨?_, hdecodes⟩
  intro hadd
  rw [if_neg hadd] at hrest
  -- what is left is the stream behind the message, so the payload was empty
  exact List.self_eq_append_left.1 hrest

theorem consumed_of_roundTrips {ms : List CtlMessage} (h : RoundTrips ms) :
    ∀ m ∈ ms, Consumed m := by
  have hpipe := sendAll_eq [] ms
  rw [List.nil_append] at hpipe
  have hquiet : ∀ env ∈ List.replicate ms.length CtlEnv.quiet, env.readFails = false := by
    intro env henv
    rw [List.eq_of_mem_replicate henv]
    rfl
  have hdecodes := (h _ _ hpipe List.length_replicate hquiet).1
  clear h hpipe hquiet
  -- by induction on the messages, each call being the first one of the rest
  induction ms with
  | nil =>
      intro m hm
      cases hm
  | cons m ms ih =>
      rcases consumed_of_decodes hdecodes with ⟨hm, hrest⟩
      intro m' hm'
      rcases List.mem_cons.1 hm' with rfl | hold
      · exact hm
      · exact ih hrest m' hold

/-- The calls of `handle_ctl_message` decode a sequence of messages one by one, whatever is in
it, if and only if none but a `MSG_PORT_ADD` has a payload. -/
theorem roundTrips_iff (ms : List CtlMessage) :
    RoundTrips ms ↔ ∀ m ∈ ms, m.type ≠ .MSG_PORT_ADD → m.payload = [] := by
  constructor
  · exact consumed_of_roundTrips
  · -- all messages are taken whole
    intro hms pipe envs hpipe hlen hread
    rw [sendAll_eq, List.nil_append] at hpipe
    cases hpipe
    exact decodes_handleCalls hms hlen hread

/-- A `MSG_PORT_UP` with one byte: the byte stays in the pipe. -/
theorem not_roundTrips_port_up :
    ∃ m : CtlMessage, m.type = .MSG_PORT_UP ∧ m.payload = [0] ∧ ¬ RoundTrips [m] := by
  let m : CtlMessage :=
    { type := .MSG_PORT_UP
      payload := [0]
      length_lt := by decide
      port_add := by intro h; cases h }
  refine ⟨m, rfl, rfl, ?_⟩
  intro h
  have hquiet : ∀ env ∈ [CtlEnv.quiet], env.readFails = false := by decide
  have hdecodes := (h (stream [m]) [CtlEnv.quiet] (sendAll_eq [] [m]) rfl hquiet).1
  have hconsumed := (consumed_of_decodes hdecodes).1
  exact absurd (hconsumed (by decide)) (by decide)

end Message
end EVdeSwitch
