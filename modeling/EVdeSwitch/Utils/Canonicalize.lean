import Mathlib.Data.List.TakeWhile
import EVdeSwitch.Utils.Logging

/-!
# Canonicalize — the canonical name of a file

`vde_realpath` of `src/utils/canonicalize.c`.  A C string is the list of its bytes, and the pointer
`dest` into `resolved` is the length of what stands in front of it.  A read or a write outside of
one of the three buffers is `Halt.crash`.
-/

namespace EVdeSwitch
namespace Utils

abbrev CString : Type := List UInt8

def PATH_MAX : Nat := 4096

/-- `<sys/param.h>` -/
def MAXSYMLINKS : Nat := 20

def SLASH : UInt8 := 47

def DOT : UInt8 := 46

inductive Errno
  | EINVAL
  | ENOENT
  | ENOMEM
  | ENAMETOOLONG
  | ELOOP
  | ENOTDIR
  | EACCES
  | ERANGE
  /-- Any other, from a system call. -/
  | other (code : Nat)
  deriving DecidableEq, Repr

/-- What `S_ISLNK` and `S_ISDIR` tell apart. -/
inductive FileMode
  | link
  | directory
  | other
  deriving DecidableEq, Repr

/-- What the system calls answer while the function runs. -/
structure FileSystem where
  getcwd : Except Errno CString
  lstat : CString → Except Errno FileMode
  /-- The whole target; the call stores no more than fits. -/
  readlink : CString → Except Errno CString
  /-- `access(path, X_OK) == 0` -/
  access : CString → Bool

/-- The pointer that is returned, as what it points to, or a null pointer; `resolved` is what the
buffer of the caller holds then, if it has been written. -/
inductive Resolution
  | found (resolved : CString)
  | failed (errno : Errno) (resolved : Option CString)
  deriving DecidableEq, Repr

/-! ## The buffer -/

/-- `*dest = '\0'` -/
def terminate (resolved : CString) : Except Halt CString :=
  if resolved.length < PATH_MAX then .ok resolved else .error .crash

/-- `while (dest[-1] != '/') --dest`, on what stands in front of `dest`, from the end on. -/
def backToSlash : CString → Except Halt CString
  -- in front of the buffer
  | [] => .error .crash
  | c :: before => if c = SLASH then .ok (c :: before) else backToSlash before

/-- Back up to previous component, ignore if at root already. -/
def backUp (resolved : CString) : Except Halt CString :=
  if resolved.length > 1 then
    (backToSlash resolved.dropLast.reverse).map List.reverse
  else
    .ok resolved

/-- `if (dest[-1] != '/') *dest++ = '/'` -/
def putSlash (resolved : CString) : Except Halt CString :=
  match resolved.getLast? with
  | none => .error .crash
  | some c =>
      if c = SLASH then
        .ok resolved
      else if resolved.length < PATH_MAX then
        .ok (resolved ++ [SLASH])
      else
        .error .crash

/-- `if (dest > resolved + 1) dest--`, and end the string there. -/
def cutLast (resolved : CString) : Except Halt CString :=
  terminate (if resolved.length > 1 then resolved.dropLast else resolved)

/-! ## Components -/

/-- Skip sequence of multiple path-separators. -/
def skipSlashes (start : CString) : CString :=
  start.dropWhile (· = SLASH)

/-- The path component at the beginning. -/
def component (start : CString) : CString :=
  start.takeWhile (· ≠ SLASH)

/-- What `end` points to. -/
def afterComponent (start : CString) : CString :=
  start.dropWhile (· ≠ SLASH)

theorem component_append (start : CString) : component start ++ afterComponent start = start :=
  List.takeWhile_append_dropWhile

theorem length_skipSlashes_le (start : CString) : (skipSlashes start).length ≤ start.length :=
  List.length_dropWhile_le _ _

/-- Behind a component the rest is shorter. -/
theorem length_afterComponent_lt {start : CString} (h : component (skipSlashes start) ≠ []) :
    (afterComponent (skipSlashes start)).length < start.length := by
  have hsplit := congrArg List.length (component_append (skipSlashes start))
  have hpos : 0 < (component (skipSlashes start)).length := List.length_pos_iff.2 h
  have hle := length_skipSlashes_le start
  rw [List.length_append] at hsplit
  omega

/-! ## `canonicalize.c` -/

/-- What a component other than `.` and `..` turns out to be. -/
inductive Visited
  | next (resolved : CString)
  | link (resolved : CString)
  | abort (errno : Errno) (resolved : CString)
  deriving DecidableEq, Repr

/-- Append a component, and check the dir along the path; `rest` is what `end` points to. -/
def visit (fs : FileSystem) (resolved comp rest : CString) : Except Halt Visited :=
  (putSlash resolved).bind fun resolved =>
    if resolved.length + comp.length ≥ PATH_MAX then
      (cutLast resolved).map fun resolved => .abort .ENAMETOOLONG resolved
    else
      let resolved := resolved ++ comp
      match fs.lstat resolved with
      | .error errno => .ok (.abort errno resolved)
      | .ok .link => .ok (.link resolved)
      | .ok mode =>
          if rest.head? = some SLASH ∧ mode ≠ .directory then
            .ok (.abort .ENOTDIR resolved)
          else if rest.head? = some SLASH ∧ fs.access resolved = false then
            .ok (.abort .EACCES resolved)
          else
            .ok (.next resolved)

/-- Where a symbolic link leads to. -/
inductive Followed
  | restart (resolved start : CString)
  | abort (errno : Errno) (resolved : CString)
  deriving DecidableEq, Repr

/-- Restart the navigation from the symlink location. -/
def followLink (fs : FileSystem) (resolved rest : CString) : Except Halt Followed :=
  match fs.readlink resolved with
  | .error errno => .ok (.abort errno resolved)
  | .ok target =>
      -- `buf[n] = '\0'`, where `n` may be all of the buffer
      if target.length ≥ PATH_MAX then
        .error .crash
      else if target.length + rest.length ≥ PATH_MAX then
        .ok (.abort .ENAMETOOLONG resolved)
      else if target.head? = some SLASH then
        -- It's an absolute symlink
        .ok (.restart (resolved.take 1) (target ++ rest))
      else
        (backUp resolved).map fun resolved => .restart resolved (target ++ rest)

/-- The end of the function. -/
def finish (resolved : CString) : Except Halt Resolution :=
  (terminate (if resolved.length > 1 ∧ resolved.getLast? = some SLASH then resolved.dropLast
    else resolved)).map .found

/-- Now resolved is the current wd or "/", navigate through the path. -/
def navigate (fs : FileSystem) (num_links : Nat) (resolved start : CString) :
    Except Halt Resolution :=
  if hcomp : component (skipSlashes start) = [] then
    finish resolved
  else
    have _hless := length_afterComponent_lt hcomp
    let comp := component (skipSlashes start)
    let rest := afterComponent (skipSlashes start)
    if comp = [DOT] then
      navigate fs num_links resolved rest
    else if comp = [DOT, DOT] then
      match backUp resolved with
      | .error halt => .error halt
      | .ok resolved => navigate fs num_links resolved rest
    else
      match visit fs resolved comp rest with
      | .error halt => .error halt
      | .ok (.abort errno resolved) => .ok (.failed errno (some resolved))
      | .ok (.next resolved) => navigate fs num_links resolved rest
      | .ok (.link resolved) =>
          if _hlinks : num_links + 1 > MAXSYMLINKS then
            .ok (.failed .ELOOP (some resolved))
          else
            match followLink fs resolved rest with
            | .error halt => .error halt
            | .ok (.abort errno resolved) => .ok (.failed errno (some resolved))
            | .ok (.restart resolved start) => navigate fs (num_links + 1) resolved start
termination_by (MAXSYMLINKS - num_links, start.length)
decreasing_by
  · exact Prod.Lex.right _ _hless
  · exact Prod.Lex.right _ _hless
  · exact Prod.Lex.right _ _hless
  · exact Prod.Lex.left _ _ (by omega)

/-- `hasMemory` tells whether `calloc` succeeds three times; the buffer of the caller is there. -/
def vdeRealpath (fs : FileSystem) (hasMemory : Bool) (name : Option CString) :
    Except Halt Resolution :=
  match name with
  | none => .ok (.failed .EINVAL none)
  | some [] => .ok (.failed .ENOENT none)
  | some (c :: rest) =>
      if hasMemory = false then
        .ok (.failed .ENOMEM none)
      else if c ≠ SLASH then
        -- relative path, the first char is not '/'
        match fs.getcwd with
        | .error errno => .ok (.failed errno (some []))
        | .ok cwd =>
            if cwd.length < PATH_MAX then
              navigate fs 0 cwd (c :: rest)
            else
              .ok (.failed .ERANGE (some []))
      else if rest = [] then
        -- special case "/"
        .ok (.found [SLASH])
      else
        navigate fs 0 [SLASH] (c :: rest)

end Utils
end EVdeSwitch
