import EVdeSwitch.ControlPlane.Requests

/-!
# RequestBytes — what a request is read from

`handle_wd_req` looks for the magic number, the version and an address of 110 bytes in `reqbuf`
without asking how many bytes `read` has brought.  What it does then depends on the bytes that
were on the stack before, unless the bytes received rule that out by themselves.
-/

namespace EVdeSwitch
namespace ControlPlane

open EVdeSwitch.Io
open EVdeSwitch.Lib
open EVdeSwitch.Utils

/-! ## The branches -/

/-- `sizeof(struct sockaddr_un)` -/
def SIZEOF_SOCKADDR_UN : Nat := 110

/-- `req->v3.sock`, behind the magic number, the version and the type. -/
def ReqBuf.sock (reqbuf : ReqBuf) : List UInt8 :=
  (reqbuf.bytes.drop 12).take SIZEOF_SOCKADDR_UN

/-- The branch that a call of `handle_wd_req` takes once `read` has brought something. -/
inductive WdBranch
  | closed
  | addPort (sa_un : List UInt8)
  | unsupported
  | v1
  | ignored
  deriving DecidableEq

/-- With the right magic number. -/
def versionBranch (reqbuf : ReqBuf) : WdBranch :=
  if reqbuf.version = 3 then
    .addPort reqbuf.sock
  else if reqbuf.version > 2 ∨ reqbuf.version = 2 then
    .unsupported
  else
    -- the address of a request of version 1 is copied, and not used
    .v1

def wdBranch (stale : ReqBuf) (req : ReqBytes) : WdBranch :=
  if req.bytes.length = 0 then
    .closed
  else if (stale.read req).magic = SWITCH_MAGIC then
    versionBranch ((stale.read req).terminate req.bytes.length)
  else
    .ignored

/-- The call does what its branch says. -/
theorem handleWdReq_eq_branch (m : PortManager) {env : RequestEnv} {req : ReqBytes}
    (hreq : env.req = some req) :
    handleWdReq m env =
      match wdBranch env.stale req with
      | .closed => .ok (.closed, m)
      | .addPort _ => handleMagicReq m 3 env.opening
      | .unsupported => .error (.exit 1
          "Request for a version %d port, which this vde_switch doesn't support")
      | .v1 | .ignored => .ok (.returned 0, m) := by
  by_cases hempty : req.bytes.length = 0
  · simp [handleWdReq, wdBranch, hreq, hempty, Except.map]
  · by_cases hmagic : (env.stale.read req).magic = SWITCH_MAGIC
    · by_cases hthree : ((env.stale.read req).terminate req.bytes.length).version = 3
      · simp [handleWdReq, wdBranch, versionBranch, hreq, hempty, hmagic, hthree]
      · by_cases hversion : ((env.stale.read req).terminate req.bytes.length).version > 2 ∨
            ((env.stale.read req).terminate req.bytes.length).version = 2
        · simp [handleWdReq, wdBranch, versionBranch, hreq, hempty, hmagic, hthree, hversion,
            handleMagicReq, Except.map]
        · simp [handleWdReq, wdBranch, versionBranch, hreq, hempty, hmagic, hthree, hversion,
            handleMagicReq, Except.map]
    · simp [handleWdReq, wdBranch, hreq, hempty, hmagic]

/-! ## What the received bytes decide -/

/-- The magic number as it lies in memory. -/
def magicBytes : List UInt8 := wordBytes 4 SWITCH_MAGIC

namespace ReqBytes

/-- The version as far as it has been received. -/
def version (req : ReqBytes) : Nat :=
  bytesWord ((req.bytes.drop 4).take 4)

/-- The bytes rule out the magic number if they do not reach over it, they rule out the first two
versions and version 3 if they do not reach over the version, and with version 3 they reach over
the address; the byte behind the last one is set to 0, so it need not be received. -/
structure Decides (req : ReqBytes) : Prop where
  magic : req.bytes.length < 4 → ¬ req.bytes <+: magicBytes
  version : magicBytes <+: req.bytes → req.bytes.length < 7 → 2 ≤ req.version
  sock : magicBytes <+: req.bytes → req.version = 3 → 121 ≤ req.bytes.length

end ReqBytes

/-! ## The buffer -/

section Buffer

variable (stale : ReqBuf) (req : ReqBytes)

theorem bytes_terminate_read :
    ((stale.read req).terminate req.bytes.length).bytes =
      req.bytes ++ 0 :: stale.bytes.drop (req.bytes.length + 1) := by
  have hlt : req.bytes.length < stale.bytes.length := by
    rw [stale.length_eq]
    exact Nat.lt_succ_of_le req.length_le
  change (req.bytes ++ stale.bytes.drop req.bytes.length).set req.bytes.length 0 = _
  rw [List.drop_eq_getElem_cons hlt, List.set_append_right _ _ (le_refl _), Nat.sub_self,
    List.set_cons_zero]

/-- A field that ends with the byte set to 0, or before it, has been received. -/
theorem slice_terminate_read {offset size : Nat} (h : offset + size ≤ req.bytes.length + 1) :
    (((stale.read req).terminate req.bytes.length).bytes.drop offset).take size =
      ((req.bytes ++ [0]).drop offset).take size := by
  have hsplit : req.bytes ++ 0 :: stale.bytes.drop (req.bytes.length + 1) =
      (req.bytes ++ [0]) ++ stale.bytes.drop (req.bytes.length + 1) := by
    rw [List.append_assoc, List.singleton_append]
  have hoffset : offset ≤ (req.bytes ++ [0]).length := by
    rw [List.length_append, List.length_singleton]
    omega
  rw [bytes_terminate_read, hsplit, List.drop_append_of_le_length hoffset,
    List.take_append_of_le_length]
  rw [List.length_drop, List.length_append, List.length_singleton]
  omega

theorem getD_terminate_read {i : Nat} (h : req.bytes.length < i) :
    ((stale.read req).terminate req.bytes.length).bytes.getD i 0 = stale.bytes.getD i 0 := by
  have hpos : i - req.bytes.length = (i - req.bytes.length - 1) + 1 := by omega
  have hindex : req.bytes.length + 1 + (i - req.bytes.length - 1) = i := by omega
  rw [bytes_terminate_read, List.getD_eq_getElem?_getD, List.getD_eq_getElem?_getD,
    List.getElem?_append_right (Nat.le_of_lt h), hpos, List.getElem?_cons_succ,
    List.getElem?_drop, hindex]

theorem version_terminate_read (h : 7 ≤ req.bytes.length) :
    ((stale.read req).terminate req.bytes.length).version = req.version := by
  have hend : 4 + 4 ≤ req.bytes.length + 1 := by omega
  have hslice := slice_terminate_read stale req hend
  have hoffset : 4 ≤ req.bytes.length := by omega
  rw [ReqBuf.version, ReqBuf.field, hslice, ReqBytes.version,
    List.drop_append_of_le_length hoffset]
  rcases Nat.lt_or_ge 7 req.bytes.length with hlong | hseven
  · rw [List.take_append_of_le_length]
    rw [List.length_drop]
    omega
  · -- the last byte of the version is the one set to 0
    have hlength : (req.bytes.drop 4).length = 3 := by
      rw [List.length_drop]
      omega
    have hzero : bytesWord [0] = 0 := rfl
    rw [List.take_of_length_le, List.take_of_length_le, bytesWord_append, hzero, Nat.mul_zero,
      Nat.add_zero]
    · rw [hlength]
      decide
    · rw [List.length_append, hlength]
      decide

/-- Otherwise the rest of the version is what was on the stack. -/
theorem version_terminate_read_of_lt (hfour : 4 ≤ req.bytes.length) (h : req.bytes.length < 7) :
    ((stale.read req).terminate req.bytes.length).version =
      req.version + 256 ^ (req.bytes.length - 3) *
        bytesWord ((stale.bytes.drop (req.bytes.length + 1)).take (7 - req.bytes.length)) := by
  have hlength : (req.bytes.drop 4).length = req.bytes.length - 4 := List.length_drop
  have hle : (req.bytes.drop 4).length ≤ 4 := by omega
  have htake : 4 - (req.bytes.drop 4).length = (7 - req.bytes.length) + 1 := by omega
  have hpow : 256 ^ (req.bytes.length - 3) = 256 ^ (req.bytes.length - 4) * 256 := by
    rw [← Nat.pow_succ]
    congr 1
    omega
  rw [ReqBuf.version, ReqBuf.field, bytes_terminate_read, List.drop_append_of_le_length hfour,
    List.take_append, htake, List.take_succ_cons, bytesWord_append, bytesWord, UInt8.toNat_zero,
    Nat.zero_add, List.take_of_length_le hle, hlength, hpow, ReqBytes.version,
    List.take_of_length_le hle, Nat.mul_assoc]

/-- So the version is the one that has been received, or a large one. -/
theorem version_short (hfour : 4 ≤ req.bytes.length) (h : req.bytes.length < 7) :
    ((stale.read req).terminate req.bytes.length).version = req.version ∨
      256 ≤ ((stale.read req).terminate req.bytes.length).version := by
  rw [version_terminate_read_of_lt stale req hfour h]
  have hpow : 256 ^ 1 ≤ 256 ^ (req.bytes.length - 3) :=
    Nat.pow_le_pow_right (by decide) (by omega)
  rcases Nat.eq_zero_or_pos
    (bytesWord ((stale.bytes.drop (req.bytes.length + 1)).take (7 - req.bytes.length))) with
    hzero | hpos
  · rw [hzero, Nat.mul_zero, Nat.add_zero]
    exact Or.inl rfl
  · right
    calc
      256 = 256 ^ 1 := (Nat.pow_one 256).symm
      _ ≤ 256 ^ (req.bytes.length - 3) * bytesWord _ := hpow.trans (Nat.le_mul_of_pos_right _ hpos)
      _ ≤ req.version + 256 ^ (req.bytes.length - 3) * bytesWord _ := Nat.le_add_left _ _

theorem length_magicBytes : magicBytes.length = 4 := length_wordBytes 4 SWITCH_MAGIC

theorem magic_eq_iff (reqbuf : ReqBuf) :
    reqbuf.magic = SWITCH_MAGIC ↔ magicBytes <+: reqbuf.bytes := by
  have hword : bytesWord magicBytes = SWITCH_MAGIC := bytesWord_wordBytes_of_lt (by decide)
  rw [List.prefix_iff_eq_take, length_magicBytes, ReqBuf.magic, ReqBuf.field, List.drop_zero, ← hword]
  constructor
  · intro h
    refine (eq_of_bytesWord_eq ?_ h).symm
    rw [List.length_take, reqbuf.length_eq, length_magicBytes]
    decide
  · intro h
    rw [← h]

/-- A magic number that has been received as a whole. -/
theorem magic_read_iff (h : 4 ≤ req.bytes.length) :
    (stale.read req).magic = SWITCH_MAGIC ↔ magicBytes <+: req.bytes := by
  rw [magic_eq_iff]
  constructor
  · intro hmagic
    refine List.prefix_of_prefix_length_le hmagic (List.prefix_append _ _) ?_
    rw [length_magicBytes]
    exact h
  · intro hmagic
    exact hmagic.trans (List.prefix_append _ _)

/-- Of a magic number that is cut off, a part has been received. -/
theorem extends_of_magic_read (h : req.bytes.length < 4)
    (hmagic : (stale.read req).magic = SWITCH_MAGIC) : req.bytes <+: magicBytes := by
  refine List.prefix_of_prefix_length_le (List.prefix_append _ _) ((magic_eq_iff _).1 hmagic) ?_
  rw [length_magicBytes]
  exact Nat.le_of_lt h

end Buffer

/-! ## Two runs -/

section TwoRuns

variable {req : ReqBytes}

theorem wdBranch_of_magic (hmagic : magicBytes <+: req.bytes) (stale : ReqBuf) :
    wdBranch stale req = versionBranch ((stale.read req).terminate req.bytes.length) := by
  have hfour : 4 ≤ req.bytes.length := hmagic.length_le
  have hempty : ¬ req.bytes.length = 0 := by omega
  rw [wdBranch, if_neg hempty, if_pos ((magic_read_iff stale req hfour).2 hmagic)]

theorem versionBranch_of_two_le {reqbuf : ReqBuf} (hthree : reqbuf.version ≠ 3)
    (htwo : 2 ≤ reqbuf.version) : versionBranch reqbuf = .unsupported := by
  have hversion : reqbuf.version > 2 ∨ reqbuf.version = 2 := by omega
  rw [versionBranch, if_neg hthree, if_pos hversion]

/-- What a call does with the bytes is settled by those that have been received. -/
theorem ReqBytes.Decides.branch_eq (h : req.Decides) (stale stale' : ReqBuf) :
    wdBranch stale req = wdBranch stale' req := by
  by_cases hmagic : magicBytes <+: req.bytes
  · rw [wdBranch_of_magic hmagic, wdBranch_of_magic hmagic]
    rcases Nat.lt_or_ge req.bytes.length 7 with hshort | hseven
    · -- the version is not 3, and not one of the first two, whatever is behind
      have htwo : 2 ≤ req.version := h.version hmagic hshort
      have hthree : req.version ≠ 3 := by
        intro hthree
        have hlong := h.sock hmagic hthree
        omega
      have hunsupported : ∀ stale : ReqBuf,
          versionBranch ((stale.read req).terminate req.bytes.length) = .unsupported := by
        intro stale
        rcases version_short stale req hmagic.length_le hshort with hsame | hlarge
        · exact versionBranch_of_two_le (by rw [hsame]; exact hthree) (by rw [hsame]; exact htwo)
        · exact versionBranch_of_two_le (by omega) (by omega)
      rw [hunsupported, hunsupported]
    · rw [versionBranch, versionBranch, version_terminate_read stale req hseven,
        version_terminate_read stale' req hseven]
      by_cases hthree : req.version = 3
      · have hsock : 12 + SIZEOF_SOCKADDR_UN ≤ req.bytes.length + 1 :=
          Nat.succ_le_succ (h.sock hmagic hthree)
        rw [if_pos hthree, if_pos hthree, ReqBuf.sock, ReqBuf.sock,
          slice_terminate_read stale req hsock, slice_terminate_read stale' req hsock]
      · rw [if_neg hthree, if_neg hthree]
  · -- the magic number is ruled out
    have hnone : ∀ stale : ReqBuf, ¬ (stale.read req).magic = SWITCH_MAGIC := by
      intro stale hread
      rcases Nat.lt_or_ge req.bytes.length 4 with hshort | hfour
      · exact h.magic hshort (extends_of_magic_read stale req hshort hread)
      · exact hmagic ((magic_read_iff stale req hfour).1 hread)
    rw [wdBranch, wdBranch, if_neg (hnone stale), if_neg (hnone stale')]

/-! ### Bytes that are not received -/

/-- Memory that holds one byte everywhere. -/
def ReqBuf.filled (b : UInt8) : ReqBuf :=
  { bytes := List.replicate (REQBUFLEN + 1) b
    length_eq := List.length_replicate }

theorem ReqBuf.length_withMagic :
    (magicBytes ++ List.replicate (REQBUFLEN - 3) (0 : UInt8)).length = REQBUFLEN + 1 := by
  rw [List.length_append, length_magicBytes, List.length_replicate]
  rfl

/-- Memory that holds a magic number. -/
def ReqBuf.withMagic : ReqBuf :=
  { bytes := magicBytes ++ List.replicate (REQBUFLEN - 3) 0
    length_eq := ReqBuf.length_withMagic }

theorem getD_filled (b : UInt8) {i : Nat} (h : i ≤ REQBUFLEN) :
    (ReqBuf.filled b).bytes.getD i 0 = b := by
  rw [List.getD_eq_getElem?_getD, ReqBuf.filled, List.getElem?_replicate,
    if_pos (Nat.lt_succ_of_le h), Option.getD_some]

/-- A magic number that is cut off is completed by the memory, or it is not. -/
theorem magic_read_withMagic (h : req.bytes <+: magicBytes) :
    (ReqBuf.withMagic.read req).magic = SWITCH_MAGIC := by
  rcases h with ⟨rest, hrest⟩
  rw [magic_eq_iff]
  change magicBytes <+: req.bytes ++ List.drop req.bytes.length (magicBytes ++ _)
  rw [← hrest, List.append_assoc, List.drop_left, ← List.append_assoc]
  exact List.prefix_append _ _

theorem magic_read_zero (h : req.bytes.length < 4) :
    (((ReqBuf.filled 0).read req).magic) ≠ SWITCH_MAGIC := by
  intro hmagic
  rcases (magic_eq_iff _).1 hmagic with ⟨rest, hrest⟩
  have hlast : (magicBytes ++ rest).getD 3 0 = 0xfe := rfl
  have hzero : (((ReqBuf.filled 0).read req).bytes).getD 3 0 = 0 := by
    have hindex : req.bytes.length + (3 - req.bytes.length) = 3 := by omega
    change (req.bytes ++ (ReqBuf.filled 0).bytes.drop req.bytes.length).getD 3 0 = 0
    rw [List.getD_eq_getElem?_getD, List.getElem?_append_right (by omega), List.getElem?_drop,
      hindex, ← List.getD_eq_getElem?_getD]
    exact getD_filled 0 (by decide)
  rw [hrest, hzero] at hlast
  exact absurd hlast (by decide)

theorem bytesWord_replicate_zero (k : Nat) : bytesWord (List.replicate k 0) = 0 := by
  induction k with
  | zero => rfl
  | succ k ih => rw [List.replicate_succ, bytesWord, ih, UInt8.toNat_zero]

/-- Bytes of the version that have not been received, but for the one set to 0. -/
theorem version_filled (b : UInt8) (hfour : 4 ≤ req.bytes.length) (h : req.bytes.length < 7) :
    (((ReqBuf.filled b).read req).terminate req.bytes.length).version =
      req.version + 256 ^ (req.bytes.length - 3) *
        bytesWord (List.replicate (7 - req.bytes.length) b) := by
  have hle : 7 - req.bytes.length ≤ REQBUFLEN + 1 - (req.bytes.length + 1) := by
    have hmax : REQBUFLEN = 256 := rfl
    omega
  rw [version_terminate_read_of_lt _ _ hfour h, ReqBuf.filled, List.drop_replicate,
    List.take_replicate, Nat.min_eq_left hle]

theorem version_filled_zero (hfour : 4 ≤ req.bytes.length) :
    (((ReqBuf.filled 0).read req).terminate req.bytes.length).version = req.version := by
  rcases Nat.lt_or_ge req.bytes.length 7 with hshort | hseven
  · rw [version_filled 0 hfour hshort, bytesWord_replicate_zero, Nat.mul_zero, Nat.add_zero]
  · exact version_terminate_read _ _ hseven

/-- With other bytes behind them, the received bytes are a version that is not supported. -/
theorem branch_filled_of_lt (hmagic : magicBytes <+: req.bytes) (h : req.bytes.length < 7) :
    wdBranch (ReqBuf.filled 255) req = .unsupported := by
  have hrest : 7 - req.bytes.length = (6 - req.bytes.length) + 1 := by omega
  have hpos : 0 < bytesWord (List.replicate (7 - req.bytes.length) 255) := by
    rw [hrest, List.replicate_succ, bytesWord]
    exact Nat.lt_add_right _ (by decide)
  have hlarge : 256 ≤ (((ReqBuf.filled 255).read req).terminate req.bytes.length).version := by
    rcases version_short (ReqBuf.filled 255) req hmagic.length_le h with hsame | hlarge
    · rw [version_filled 255 hmagic.length_le h] at hsame
      have hpow : 0 < 256 ^ (req.bytes.length - 3) := Nat.pow_pos (by decide)
      have hmul := Nat.mul_pos hpow hpos
      omega
    · exact hlarge
  rw [wdBranch_of_magic hmagic]
  exact versionBranch_of_two_le (by omega) (by omega)

theorem getD_sock_filled (b : UInt8) (h : req.bytes.length < 121) :
    (((ReqBuf.filled b).read req).terminate req.bytes.length).sock.getD 109 0 = b := by
  rw [ReqBuf.sock, List.getD_eq_getElem?_getD, List.getElem?_take_of_lt (by decide),
    List.getElem?_drop, ← List.getD_eq_getElem?_getD, getD_terminate_read _ _ h]
  exact getD_filled b (by decide)

/-- Whatever was on the stack, a call takes the same branch and passes on the same address, if and
only if the received bytes decide both. -/
theorem branch_independent_iff (hne : req.bytes ≠ []) :
    (∀ stale stale', wdBranch stale req = wdBranch stale' req) ↔ req.Decides := by
  constructor
  · intro hsame
    refine
      { magic := ?_
        version := ?_
        sock := ?_ }
    · intro hshort hextends
      have hempty : ¬ req.bytes.length = 0 := mt List.length_eq_zero_iff.1 hne
      have hbranch := hsame (ReqBuf.filled 0) ReqBuf.withMagic
      rw [wdBranch, wdBranch, if_neg hempty, if_neg hempty, if_neg (magic_read_zero hshort),
        if_pos (magic_read_withMagic hextends), versionBranch] at hbranch
      split_ifs at hbranch
    · intro hmagic hshort
      by_contra htwo
      have hzero := version_filled_zero hmagic.length_le
      have hbranch := hsame (ReqBuf.filled 0) (ReqBuf.filled 255)
      rw [branch_filled_of_lt hmagic hshort, wdBranch_of_magic hmagic, versionBranch, hzero,
        if_neg (by omega), if_neg (by omega)] at hbranch
      cases hbranch
    · intro hmagic hthree
      by_contra hlong
      have hzero := version_filled_zero hmagic.length_le
      have hbranch := hsame (ReqBuf.filled 0) (ReqBuf.filled 255)
      rcases Nat.lt_or_ge req.bytes.length 7 with hshort | hseven
      · rw [branch_filled_of_lt hmagic hshort, wdBranch_of_magic hmagic, versionBranch, hzero,
          if_pos hthree] at hbranch
        cases hbranch
      · -- the last byte of the address is not received
        rw [wdBranch_of_magic hmagic, wdBranch_of_magic hmagic, versionBranch, versionBranch, hzero,
          version_terminate_read _ _ hseven, if_pos hthree, if_pos hthree, WdBranch.addPort.injEq]
          at hbranch
        have hlast := congrArg (fun sock => sock.getD 109 0) hbranch
        simp only [getD_sock_filled _ (Nat.lt_of_not_le hlong)] at hlast
        exact absurd hlast (by decide)
  · intro hdecides stale stale'
    exact hdecides.branch_eq stale stale'

end TwoRuns

/-! ## Two requests -/

theorem length_truncated_le : (magicBytes ++ [3, 0, 0, 0, 1, 0, 0, 0]).length ≤ REQBUFLEN := by
  decide

/-- A request of version 3 that ends with its type. -/
def truncatedRequest : ReqBytes :=
  { bytes := magicBytes ++ [3, 0, 0, 0, 1, 0, 0, 0]
    length_le := length_truncated_le }

theorem length_whole_le :
    (truncatedRequest.bytes ++ List.replicate SIZEOF_SOCKADDR_UN 1).length ≤ REQBUFLEN := by
  decide +kernel

/-- The same with an address. -/
def wholeRequest : ReqBytes :=
  { bytes := truncatedRequest.bytes ++ List.replicate SIZEOF_SOCKADDR_UN 1
    length_le := length_whole_le }

/-- The address is then what the stack holds. -/
theorem branch_depends_truncated :
    ¬ ∀ stale stale', wdBranch stale truncatedRequest = wdBranch stale' truncatedRequest := by
  intro hsame
  have hsock : wdBranch (ReqBuf.filled 0) truncatedRequest =
      wdBranch (ReqBuf.filled 255) truncatedRequest := hsame _ _
  exact absurd hsock (by decide +kernel)

theorem branch_independent_iff_whole :
    wdBranch (ReqBuf.filled 0) wholeRequest = wdBranch (ReqBuf.filled 255) wholeRequest := by
  have hdecides : wholeRequest.Decides :=
    { magic := by decide +kernel
      version := by decide +kernel
      sock := by decide +kernel }
  exact (branch_independent_iff (by decide)).2 hdecides _ _

end ControlPlane
end EVdeSwitch
