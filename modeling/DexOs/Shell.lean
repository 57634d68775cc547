import DexOs.Vfs
import Mathlib.Data.List.TakeWhile

/-! The current directory of `shell.c`, and the paths that `cd` and `ls` make of it. A C string is the list of its
bytes before the terminator; `/` is 47 and `:` is 58. -/

namespace DexOs.Shell

variable {σ ν : Type}

def rootName : List UInt8 := [114, 111, 111, 116]

def devName : List UInt8 := [100, 101, 118]

/-- `s_cwd_mnt` and `s_cwd_path`, in arrays of 8 and 128 bytes. `set_cwd_from_path` and `cd` are the only writers,
and they copy a mount name up to the colon. -/
structure Cwd where
  mnt : List UInt8
  path : List UInt8
  mnt_le : mnt.length ≤ 7
  path_le : path.length ≤ 127
  mnt_colon : 58 ∉ mnt

def rootCwd : Cwd := ⟨rootName, [], by decide, by decide, by decide⟩

def strCopy (n : ℕ) (s : List UInt8) : List UInt8 := s.take (n - 1)

def push (n : ℕ) (buf s : List UInt8) : List UInt8 := (buf ++ s).take (n - 1)

def skipSlash (s : List UInt8) : List UInt8 := if s.head? = some 47 then s.tail else s

/-- Why there is no path: the return value -1 of `translate_unix_path`, or a write behind the end of `tmp`. -/
inductive Failure
  | unresolved
  | overflow

def pushComp (comps : List (List UInt8)) (comp : List UInt8) : List (List UInt8) :=
  let comp := comp.take 63
  if comp = [] ∨ comp = [46] then comps
  else if comp = [46, 46] then comps.dropLast
  else if comps.length < 16 then comps ++ [comp]
  else comps

/-- The second half of `resolve_path`: `tmp` without its `.` and `..` components. The loop skips the slashes between
the components, so that the empty components which `splitOn` leaves are never pushed. In every call `outn` is 192, and
the mount name is copied whole. -/
def normalize (outn : ℕ) (tmp : List UInt8) : List UInt8 :=
  let norm := push outn (push outn [] (tmp.takeWhile (· ≠ 58))) ((tmp.dropWhile (· ≠ 58)).take 1)
  let rest := (tmp.dropWhile (· ≠ 58)).drop 1
  let norm := if rest.head? = some 47 then norm else push outn norm [47]
  let comps := (rest.splitOn 47).foldl pushComp []
  let norm := comps.foldl (fun norm comp => push outn (push outn norm [47]) comp) norm
  if norm = [] ∨ norm.getLast? = some 58 then push outn norm [47] else norm

def tmpPath (cwd : Cwd) (input : List UInt8) (outn : ℕ) : List UInt8 :=
  let tmp := push outn (push outn [] cwd.mnt) [58]
  if input.head? = some 47 then push outn tmp input.tail
  else push outn (push outn (push outn tmp cwd.path) [47]) input

def resolvePath (cwd : Cwd) (input : List UInt8) (outn : ℕ) : Except Failure (List UInt8) :=
  if 58 ∈ input then .ok (strCopy outn input)
  else if cwd.mnt = [] then .ok []
  else
    let tmp := tmpPath cwd input outn
    if 160 ≤ tmp.length then .error .overflow else .ok (strCopy outn (normalize outn tmp))

def firstComp (p : List UInt8) : List UInt8 := (p.takeWhile (· ≠ 47)).take 15

def targetMnt (v : Vfs.Table σ ν) (cwd : Cwd) : Option (List UInt8) :=
  if Vfs.vfsHasMount v rootName ≠ 0 then some rootName
  else if cwd.mnt ≠ [] then some cwd.mnt
  else none

def translateUnixPath (v : Vfs.Table σ ν) (cwd : Cwd) (unixPath : List UInt8) (len : ℕ) : Except Failure (List UInt8) :=
  if len < 2 then .error .unresolved
  else if unixPath = [47] then .ok (strCopy len (rootName ++ [58, 47]))
  else if unixPath.head? = some 47 then
    let p := unixPath.tail
    let first := firstComp p
    if first ≠ [] ∧ Vfs.vfsHasMount v first ≠ 0 then
      .ok (push len (push len (push len (push len [] first) [58]) [47]) (skipSlash (p.drop first.length)))
    else match targetMnt v cwd with
      | none => .error .unresolved
      | some mnt => .ok (push len (push len (push len [] mnt) [58]) unixPath)
  else resolvePath cwd unixPath len

def setCwdFromPath (cwd : Cwd) (path : List UInt8) : Cwd :=
  if 58 ∈ path then
    { mnt := (path.takeWhile (· ≠ 58)).take 7
      path := strCopy 128 (skipSlash (path.dropWhile (· ≠ 58)).tail)
      mnt_le := List.length_take_le 7 _
      path_le := List.length_take_le 127 _
      mnt_colon := fun h => by simpa using List.mem_takeWhile_imp (List.mem_of_mem_take h) }
  else cwd

def currentUnix (cwd : Cwd) : List UInt8 :=
  if cwd.mnt = [] then [47]
  else if cwd.mnt = devName then
    if cwd.path = [] then 47 :: devName else 47 :: devName ++ 47 :: strCopy 187 cwd.path
  else if cwd.path = [] then [47]
  else 47 :: strCopy 191 cwd.path

def unixPath (cwd : Cwd) (args : List UInt8) : List UInt8 :=
  let cur := currentUnix cwd
  let base := if cur.getLast? = some 47 then cur else cur ++ [47]
  base ++ strCopy (192 - base.length) args

def cd (v : Vfs.Table σ ν) (cwd : Cwd) (args : List UInt8) : Cwd :=
  if args = [] then cwd
  else if args = [47] then rootCwd
  else
    let full :=
      if 47 ∉ args ∧ 58 ∉ args then .ok (args.take 189 ++ [58, 47])
      else translateUnixPath v cwd (if args.head? = some 47 then strCopy 192 args else unixPath cwd args) 192
    match full with
    | .error _ => cwd
    | .ok full => if full = [] then cwd else setCwdFromPath cwd full

inductive Listing
  | opens (path : List UInt8)
  | mounts
  | message
  | overflow
deriving DecidableEq

def ls (v : Vfs.Table σ ν) (cwd : Cwd) (args : List UInt8) : Listing :=
  if args = [] then
    if cwd.mnt = [] then .message
    else .opens (push 192 (push 192 (push 192 (push 192 [] cwd.mnt) [58]) [47]) cwd.path)
  else if strCopy 192 args = [47] then .mounts
  else match translateUnixPath v cwd (strCopy 192 args) 192 with
    | .error .unresolved => .message
    | .error .overflow => .overflow
    | .ok full => .opens full

end DexOs.Shell
