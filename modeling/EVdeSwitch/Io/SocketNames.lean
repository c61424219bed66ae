import EVdeSwitch.Lib.Decimal
import EVdeSwitch.Utils.Word64

/-!
# SocketNames — the names that sockets are bound to

`init_ctl_plane` and `add_port` bind sockets to names in one directory, and `add_port` unlinks the
name before.  A name has to fit in `sun_path`; what does not fit is cut off without a word.  A C
string is the list of its bytes.
-/

namespace EVdeSwitch
namespace Io

open EVdeSwitch.Lib
open EVdeSwitch.Utils

/-! ## Names -/

/-- `sizeof(sun_path)` -/
def SIZEOF_SUN_PATH : Nat := 108

/-- The string that `snprintf` leaves in a buffer of `size` bytes. -/
def snprintf (size : Nat) (text : List UInt8) : List UInt8 :=
  text.take (size - 1)

/-- `ctl_socket` as `init_ctl_plane` leaves it; `path` is the answer of `vde_realpath`. -/
def ctlSocket (path : List UInt8) : List UInt8 :=
  let max_ctl_sock_len := SIZEOF_SUN_PATH - 1
  -- the name of the directory is cut, the suffix is not thought of
  if path.length > max_ctl_sock_len then path.take max_ctl_sock_len else path

/-- `sun_path` of a socket in the directory. -/
def sunPath (path suffix : List UInt8) : List UInt8 :=
  snprintf SIZEOF_SUN_PATH (ctlSocket path ++ suffix)

/-- `/ctl` -/
def ctlSuffix : List UInt8 :=
  [47, 99, 116, 108]

/-- The two numbers in the name of a data socket. -/
structure DataSocket where
  port : Nat
  fd_data : Fd
  port_lt : port < 2 ^ 31
  deriving Repr

theorem dataSocket_eq_iff {s t : DataSocket} :
    s.port = t.port ∧ s.fd_data = t.fd_data ↔ s = t := by
  rcases s with ⟨port, fd_data, _⟩
  rcases t with ⟨port', fd_data', _⟩
  simp

instance : DecidableEq DataSocket := fun s t =>
  decidable_of_iff (s.port = t.port ∧ s.fd_data = t.fd_data) dataSocket_eq_iff

/-- `/%03d.%d` -/
def DataSocket.suffix (s : DataSocket) : List UInt8 :=
  47 :: (paddedBytes 3 s.port ++ 46 :: natBytes s.fd_data.val)

def ctlSunPath (path : List UInt8) : List UInt8 :=
  sunPath path ctlSuffix

def dataSunPath (path : List UInt8) (s : DataSocket) : List UInt8 :=
  sunPath path s.suffix

/-! ## Suffixes -/

theorem takeWhile_padded (n : Nat) (rest : List UInt8) :
    (paddedBytes 3 n ++ 46 :: rest).takeWhile isDigit = paddedBytes 3 n := by
  have hstop : isDigit 46 = false := by decide
  rw [takeWhile_append_stop hstop]
  exact List.takeWhile_eq_self_iff.2 (isDigit_paddedBytes 3 n)

/-- Both numbers can be read from the suffix. -/
theorem suffix_injective : Function.Injective DataSocket.suffix := by
  intro s t h
  have htail : paddedBytes 3 s.port ++ 46 :: natBytes s.fd_data.val =
      paddedBytes 3 t.port ++ 46 :: natBytes t.fd_data.val := List.tail_eq_of_cons_eq h
  -- the port ends at the dot, which is no digit
  have hpadded : paddedBytes 3 s.port = paddedBytes 3 t.port := by
    have hdigits := congrArg (List.takeWhile isDigit) htail
    rwa [takeWhile_padded, takeWhile_padded] at hdigits
  rw [hpadded] at htail
  have hdigits := List.tail_eq_of_cons_eq (List.append_cancel_left htail)
  have hfd : s.fd_data = t.fd_data :=
    Fd.toInt_injective (congrArg Int.ofNat (natBytes_injective hdigits))
  exact dataSocket_eq_iff.1 ⟨paddedBytes_injective 3 hpadded, hfd⟩

theorem length_suffix_le (s : DataSocket) : s.suffix.length ≤ 22 := by
  have hport : (natBytes s.port).length ≤ 10 :=
    length_natBytes_le (by decide) (lt_trans s.port_lt (by decide))
  have hfd : (natBytes s.fd_data.val).length ≤ 10 :=
    length_natBytes_le (by decide) (lt_trans s.fd_data.lt (by decide))
  rw [DataSocket.suffix, List.length_cons, List.length_append, List.length_cons,
    length_paddedBytes]
  omega

theorem suffix_zero (s : DataSocket) : s.suffix[0]? = some 47 := rfl

/-- Behind the slash there is a digit. -/
theorem suffix_one (s : DataSocket) : ∃ b, s.suffix[1]? = some b ∧ isDigit b = true := by
  -- `%03d` writes three digits at least
  have hlength : 0 < (paddedBytes 3 s.port).length := by
    rw [length_paddedBytes]
    omega
  refine ⟨(paddedBytes 3 s.port)[0], ?_, isDigit_paddedBytes 3 s.port _ (List.getElem_mem hlength)⟩
  rw [DataSocket.suffix, List.getElem?_cons_succ, List.getElem?_append_left hlength]
  exact List.getElem?_eq_getElem hlength

/-! ## Where names are cut -/

/-- How many bytes of a suffix are in the name. -/
def room (path : List UInt8) : Nat :=
  SIZEOF_SUN_PATH - 1 - (ctlSocket path).length

theorem length_ctlSocket (path : List UInt8) :
    (ctlSocket path).length = min path.length (SIZEOF_SUN_PATH - 1) := by
  rw [ctlSocket]
  split
  · rename_i hlong
    rw [List.length_take, Nat.min_comm]
  · rename_i hshort
    exact (Nat.min_eq_left (Nat.le_of_not_lt hshort)).symm

theorem room_eq (path : List UInt8) : room path = SIZEOF_SUN_PATH - 1 - path.length := by
  rw [room, length_ctlSocket]
  omega

theorem sunPath_eq_iff (path a b : List UInt8) :
    sunPath path a = sunPath path b ↔ a.take (room path) = b.take (room path) := by
  rw [sunPath, sunPath, snprintf, snprintf, List.take_append, List.take_append, room]
  exact List.append_right_inj _

theorem take_eq_take_iff_getElem? {α : Type} {a b : List α} {n : Nat} :
    a.take n = b.take n ↔ ∀ i < n, a[i]? = b[i]? := by
  constructor
  · intro h i hi
    have hat := congrArg (fun l => l[i]?) h
    simpa only [List.getElem?_take_of_lt hi] using hat
  · intro h
    refine List.ext_getElem? fun i => ?_
    rcases Nat.lt_or_ge i n with hlt | hge
    · rw [List.getElem?_take_of_lt hlt, List.getElem?_take_of_lt hlt, h i hlt]
    · rw [List.getElem?_take_eq_none hge, List.getElem?_take_eq_none hge]

/-- The names of a data socket and of the control socket differ as soon as the slash and one more
byte are in them. -/
theorem dataSunPath_ne_ctlSunPath {path : List UInt8} (h : 1 < room path) (s : DataSocket) :
    dataSunPath path s ≠ ctlSunPath path := by
  intro heq
  have hbytes := take_eq_take_iff_getElem?.1 ((sunPath_eq_iff path _ _).1 heq) 1 h
  rcases suffix_one s with ⟨b, hb, hdigit⟩
  rw [hb] at hbytes
  cases hbytes
  exact absurd hdigit (by decide)

/-! ## Unique names -/

/-- The names of two data sockets are different from each other and from that of the control
socket. -/
def NamesDiffer (path : List UInt8) (s t : DataSocket) : Prop :=
  dataSunPath path s ≠ dataSunPath path t ∧
    dataSunPath path s ≠ ctlSunPath path ∧ dataSunPath path t ≠ ctlSunPath path

def NamesUnique (path : List UInt8) : Prop :=
  ∀ s t, s ≠ t → NamesDiffer path s t

/-- Two names differ if they do so in front of the cut. -/
theorem namesDiffer_iff (path : List UInt8) (s t : DataSocket) :
    NamesDiffer path s t ↔ ∃ i < room path, s.suffix[i]? ≠ t.suffix[i]? := by
  have hdiffer : dataSunPath path s ≠ dataSunPath path t ↔
      ∃ i < room path, s.suffix[i]? ≠ t.suffix[i]? := by
    rw [dataSunPath, dataSunPath, Ne, sunPath_eq_iff, take_eq_take_iff_getElem?]
    push Not
    rfl
  constructor
  · rintro ⟨hnames, _, _⟩
    exact hdiffer.1 hnames
  · intro hbytes
    refine ⟨hdiffer.2 hbytes, ?_⟩
    rcases hbytes with ⟨i, hi, hne⟩
    -- both suffixes begin with the slash
    have hroom : 1 < room path := by
      rcases Nat.eq_zero_or_pos i with rfl | hpos
      · exact absurd ((suffix_zero s).trans (suffix_zero t).symm) hne
      · omega
    exact ⟨dataSunPath_ne_ctlSunPath hroom s, dataSunPath_ne_ctlSunPath hroom t⟩

/-- Suffixes that fit are told apart. -/
theorem namesDiffer_of_fits {path : List UInt8} {s t : DataSocket} (hs : s.suffix.length ≤ room path)
    (ht : t.suffix.length ≤ room path) (hne : s ≠ t) : NamesDiffer path s t := by
  rw [namesDiffer_iff]
  by_contra hnone
  push Not at hnone
  have htake := take_eq_take_iff_getElem?.2 hnone
  rw [List.take_of_length_le hs, List.take_of_length_le ht] at htake
  exact hne (suffix_injective htake)

/-- Two of the longest suffixes, which differ in their last bytes. -/
def lastSocket (fd_data : Fd) : DataSocket :=
  { port := 2147483647
    fd_data := fd_data
    port_lt := by decide }

theorem lastSocket_suffix_eq {i : Nat} (h : i < 21) :
    (lastSocket 2147483640).suffix[i]? = (lastSocket 2147483641).suffix[i]? := by
  have htake : (lastSocket 2147483640).suffix.take 21 = (lastSocket 2147483641).suffix.take 21 := by
    have hfirst : (2147483640 : Fd).val = 2147483640 := by decide
    have hsecond : (2147483641 : Fd).val = 2147483641 := by decide
    simp [lastSocket, DataSocket.suffix, paddedBytes, natBytes, hfirst, hsecond]
  exact take_eq_take_iff_getElem?.1 htake i h

theorem namesUnique_iff_length_le (path : List UInt8) : NamesUnique path ↔ path.length ≤ 85 := by
  -- the longest suffix has 22 bytes
  have hroom : path.length ≤ 85 ↔ 22 ≤ room path := by
    rw [room_eq, SIZEOF_SUN_PATH]
    omega
  rw [hroom]
  constructor
  · intro hunique
    by_contra hshort
    have hne : lastSocket 2147483640 ≠ lastSocket 2147483641 := by decide
    rcases (namesDiffer_iff path _ _).1 (hunique _ _ hne) with ⟨i, hi, hbytes⟩
    exact hbytes (lastSocket_suffix_eq (by omega))
  · intro hlong s t hne
    exact namesDiffer_of_fits (le_trans (length_suffix_le s) hlong)
      (le_trans (length_suffix_le t) hlong) hne

/-! ## The files of the directory -/

inductive SocketFile
  | ctl
  | data (s : DataSocket)
  deriving DecidableEq, Repr

/-- Which socket can be reached by a name. -/
abbrev SocketFiles := List UInt8 → Option SocketFile

/-- The directory after `init_ctl_plane`. -/
def bindCtl (path : List UInt8) : SocketFiles :=
  Function.update (fun _ => none) (ctlSunPath path) (some .ctl)

/-- `unlink` and `bind` of `add_port`. -/
def bindData (path : List UInt8) (files : SocketFiles) (s : DataSocket) : SocketFiles :=
  -- what was reached by the name, whosesoever it was, is gone
  let unlinked := Function.update files (dataSunPath path s) none
  Function.update unlinked (dataSunPath path s) (some (.data s))

/-- The directory when these ports have been added. -/
def bindAll (path : List UInt8) (ss : List DataSocket) : SocketFiles :=
  ss.foldl (bindData path) (bindCtl path)

/-- Every socket can be reached by its own name. -/
def EachReached (path : List UInt8) (files : SocketFiles) (ss : List DataSocket) : Prop :=
  files (ctlSunPath path) = some .ctl ∧ ∀ s ∈ ss, files (dataSunPath path s) = some (.data s)

/-- No port that is added takes away the socket of another. -/
def SocketsKept (path : List UInt8) : Prop :=
  ∀ ss : List DataSocket, ss.Nodup → EachReached path (bindAll path ss) ss

theorem bindData_self (path : List UInt8) (files : SocketFiles) (s : DataSocket) :
    bindData path files s (dataSunPath path s) = some (.data s) :=
  Function.update_self _ _ _

theorem bindData_of_ne {path : List UInt8} {s : DataSocket} {name : List UInt8}
    (h : name ≠ dataSunPath path s) (files : SocketFiles) :
    bindData path files s name = files name := by
  rw [bindData, Function.update_of_ne h, Function.update_of_ne h]

theorem bindAll_concat (path : List UInt8) (ss : List DataSocket) (s : DataSocket) :
    bindAll path (ss ++ [s]) = bindData path (bindAll path ss) s := by
  rw [bindAll, List.foldl_append]
  rfl

/-- A data socket has a name other than the control socket, as there is another one. -/
theorem NamesUnique.ne_ctl {path : List UInt8} (h : NamesUnique path) (s : DataSocket) :
    dataSunPath path s ≠ ctlSunPath path := by
  have hne : ∃ t, s ≠ t := by
    by_cases heq : s = lastSocket 0
    · refine ⟨lastSocket 1, ?_⟩
      rw [heq]
      decide
    · exact ⟨lastSocket 0, heq⟩
  rcases hne with ⟨t, ht⟩
  exact (h s t ht).2.1

/-- One more port takes nothing away. -/
theorem NamesUnique.bindData {path : List UInt8} (h : NamesUnique path) {files : SocketFiles}
    {ss : List DataSocket} {s : DataSocket} (hs : s ∉ ss) (hreached : EachReached path files ss) :
    EachReached path (bindData path files s) (ss ++ [s]) := by
  refine ⟨?_, ?_⟩
  · rw [bindData_of_ne (h.ne_ctl s).symm]
    exact hreached.1
  · intro t ht
    rcases List.mem_append.1 ht with hold | hnew
    · have hne : t ≠ s := ne_of_mem_of_not_mem hold hs
      rw [bindData_of_ne (h t s hne).1]
      exact hreached.2 t hold
    · rw [List.mem_singleton.1 hnew]
      exact bindData_self path files s

theorem socketsKept_iff_namesUnique (path : List UInt8) : SocketsKept path ↔ NamesUnique path := by
  constructor
  · intro hkept s t hne
    -- a socket with the name of the control socket would have replaced it
    have hctl : ∀ u, dataSunPath path u ≠ ctlSunPath path := by
      intro u heq
      have hreached := (hkept [u] (List.nodup_singleton u)).1
      rw [← heq, ← List.nil_append [u], bindAll_concat, bindData_self] at hreached
      cases hreached
    -- and of two sockets with one name the second replaces the first
    refine ⟨fun heq => ?_, hctl s, hctl t⟩
    have hnodup : ([s] ++ [t]).Nodup := by simpa using hne
    have hreached := (hkept _ hnodup).2 s (by simp)
    rw [heq, bindAll_concat, bindData_self] at hreached
    cases hreached
    exact hne rfl
  · intro hunique ss hnodup
    -- the last socket of the list is the one bound last
    induction ss using List.reverseRecOn with
    | nil =>
        have hctl : bindCtl path (ctlSunPath path) = some .ctl := Function.update_self _ _ _
        exact ⟨hctl, fun s hs => absurd hs List.not_mem_nil⟩
    | append_singleton ss s ih =>
        rcases List.nodup_append.1 hnodup with ⟨hss, _, hdisjoint⟩
        rw [bindAll_concat]
        have hs : s ∉ ss := fun hmem => hdisjoint s hmem s List.mem_cons_self rfl
        exact hunique.bindData hs (ih hss)

/-- Names are unique, and no port takes away the socket of another, in the directories whose path
leaves room for the longest suffix.  In any directory those sockets have different names whose
suffixes differ in front of the cut. -/
theorem socket_names_unique_iff (path : List UInt8) :
    (NamesUnique path ↔ path.length ≤ 85) ∧
      (SocketsKept path ↔ path.length ≤ 85) ∧
      ∀ s t, NamesDiffer path s t ↔
        ∃ i < SIZEOF_SUN_PATH - 1 - path.length, s.suffix[i]? ≠ t.suffix[i]? := by
  refine ⟨namesUnique_iff_length_le path, ?_, ?_⟩
  · exact (socketsKept_iff_namesUnique path).trans (namesUnique_iff_length_le path)
  · intro s t
    rw [namesDiffer_iff, room_eq]

/-- With a path of 104 bytes the names of the first ports end in `/00`; the second port takes away
the socket of the first. -/
theorem not_names_unique_long_path :
    let path : List UInt8 := 47 :: List.replicate 103 97
    let first : DataSocket := { port := 1, fd_data := 10, port_lt := by decide }
    let second : DataSocket := { port := 2, fd_data := 11, port_lt := by decide }
    ctlSocket path = path ∧ first ≠ second ∧ dataSunPath path first = dataSunPath path second ∧
      bindAll path [first, second] (dataSunPath path first) = some (.data second) ∧
      ¬ NamesUnique path ∧ ¬ SocketsKept path := by
  intro path first second
  have hne : first ≠ second := by decide
  have hsame : dataSunPath path first = dataSunPath path second := by decide
  have hnot : ¬ NamesUnique path := fun h => (h first second hne).1 hsame
  refine ⟨by decide, hne, hsame, ?_, hnot, ?_⟩
  · rw [hsame]
    exact bindData_self path (bindAll path [first]) second
  · exact fun hkept => hnot ((socketsKept_iff_namesUnique path).1 hkept)

end Io
end EVdeSwitch
