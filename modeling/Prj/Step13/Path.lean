import Mathlib.Data.List.DropRight
import Mathlib.Data.List.Infix

/-!
Paths as byte strings, and the functions of `path13.c` that put them together.

`DRIVE_SEP` is defined on Windows only, so it is a parameter; without it a path has no drive. A buffer
for a path has `MAXPATHNAME` bytes, and what does not fit is cut.
-/
namespace Prj.Step13

abbrev Path := List UInt8

def ascii (cs : List Char) : Path := cs.map fun c => UInt8.ofNat c.toNat

def dirSep : UInt8 := 47

def maxPathname : ℕ := 1024

section Functions
variable (driveSep : Option UInt8)

def getUnixPath (absPath : Path) : Path :=
  match driveSep with
  | none => absPath
  | some sep =>
    match absPath.dropWhile (· ≠ sep) with
    | [] => absPath
    | _ :: rest => rest

def joinPath (path1 path2 : Path) : Path :=
  let unixPath2 := getUnixPath driveSep path2
  if path1.getLast? = some dirSep ∨ unixPath2.head? = some dirSep then
    (path1 ++ unixPath2).take (maxPathname - 1)
  else (path1 ++ dirSep :: unixPath2).take (maxPathname - 1)

def mergePath (path1 path2 : Path) : Path :=
  let unixPath1 := getUnixPath driveSep path1
  let unixPath2 := getUnixPath driveSep path2
  let cmpLen := min unixPath1.length unixPath2.length
  let buf :=
    if unixPath1.take cmpLen = unixPath2.take cmpLen then joinPath driveSep path1 (unixPath2.drop cmpLen)
    else joinPath driveSep path1 unixPath2
  -- trailing separators are removed
  buf.rdropWhile (· = dirSep)

/-- `none` is a null pointer. -/
def cutFromStart (path tocut : Path) : Option Path :=
  if tocut <+: path then some (path.drop tocut.length) else none

/-- A null pointer is not expected here: the paths of a walk start with the directory it begins in. -/
def mergePath2 (sourceBase source targetBase : Path) : Path :=
  mergePath driveSep targetBase ((cutFromStart source sourceBase).getD [])

def getPathDepth (path : Path) : ℤ := ((path.drop 1).dropLast.countP (· = dirSep) : ℕ)

end Functions

inductive Kind
  | dir
  | file
  deriving DecidableEq, Repr

/-- The content of a directory, in the order of `scandir`. `other` is neither a directory nor a regular
file. -/
inductive Dir
  | nil
  | file (name : Path) (rest : Dir)
  | dir (name : Path) (sub rest : Dir)
  | other (name : Path) (rest : Dir)
  deriving DecidableEq, Repr

def prevDir : Path := ascii ['.', '.']
def thisDir : Path := ascii ['.']
def step13Dir : Path := ascii ['.', 'm', 'o', 't', 'o', 'r', '1', '3']

/-- The directories that `enum_dir` passes over. -/
def skipped (name : Path) : Bool := name = prevDir ∨ name = thisDir ∨ name = step13Dir

/-- A call of the callback of `enum_dir`. -/
structure Visit where
  path : Path
  kind : Kind
  deriving DecidableEq, Repr

/-- The calls of the callback, in their order: a directory is gone through from its end. -/
def Dir.walk (driveSep : Option UInt8) (root : Path) : Dir → List Visit
  | .nil => []
  | .file name rest => rest.walk driveSep root ++ [⟨mergePath driveSep root name, .file⟩]
  | .dir name sub rest =>
    rest.walk driveSep root ++ if skipped name then []
      else
        ⟨mergePath driveSep root name, .dir⟩ :: sub.walk driveSep (mergePath driveSep root name)
  | .other _ rest => rest.walk driveSep root

section Enum
variable {S : Type} (driveSep : Option UInt8) (scandir : S → Bool × S) (callback : S → Visit → ℤ × S)

/-- The loop of `enum_dir`, with a callback on the state `S` and a `scandir` that may fail: the result, and the state
after it. -/
def Dir.enumLoop (root : Path) : Dir → S → ℤ × S
  | .nil, s => (0, s)
  | .other _ rest, s => rest.enumLoop root s
  | .file name rest, s =>
    match rest.enumLoop root s with
    | (0, s) =>
      let (ret, s) := callback s ⟨mergePath driveSep root name, .file⟩
      if ret < 0 then (-1, s) else (0, s)
    | failed => failed
  | .dir name sub rest, s =>
    match rest.enumLoop root s with
    | (0, s) =>
      if skipped name then (0, s)
      else
        let path := mergePath driveSep root name
        let (ret, s) := callback s ⟨path, .dir⟩
        if ret < 0 then (-1, s)
        else
          -- `enum_dir` on the directory
          match scandir s with
          | (true, s) =>
            match sub.enumLoop path s with
            | (0, s) => (0, s)
            | (_, s) => (-1, s)
          | (false, s) => (-1, s)
    | failed => failed

def Dir.enumDir (root : Path) (dir : Dir) (s : S) : ℤ × S :=
  match scandir s with
  | (true, s) => dir.enumLoop driveSep scandir callback root s
  | (false, s) => (-1, s)

end Enum
end Prj.Step13
