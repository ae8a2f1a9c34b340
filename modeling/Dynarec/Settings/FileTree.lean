import Dynarec.Text.Cut

/-!
# Files

Settings are read from a file. A tree of directories and text files stands for a file system; a path is
followed part by part, and the first part that cannot be followed decides why a file is not read.
-/

namespace Dynarec

inductive FileError where
  | missing
  | notDirectory
  | directory
  | longName
  | badName
deriving DecidableEq

namespace FileError

def reason : FileError → String
  | missing => "no such file or directory"
  | notDirectory => "not a directory"
  | directory => "is a directory"
  | longName => "file name too long"
  | badName => "invalid argument"

/-- What is reported of a path. A directory can be opened, but not read. -/
def text (path : String) (e : FileError) : String :=
  (if e = directory then "read " else "open ") ++ path ++ ": " ++ e.reason

end FileError

/-- Directories and files by the parts of their paths. The root is a directory always. -/
structure FileTree where
  directories : List (List String)
  files : List (List String × String)
  /-- The directory from which relative paths start. -/
  home : List String

namespace FileTree

def isDirectory (t : FileTree) (place : List String) : Bool :=
  place.isEmpty || t.directories.contains place

/-- One part of a path, from the place that the parts before it lead to. -/
def step (t : FileTree) (place : List String) (part : String) : Except FileError (List String) :=
  if !t.isDirectory place then .error .notDirectory
  else if part = "" ∨ part = "." then .ok place
  else if part = ".." then .ok place.dropLast
  else if 255 < part.utf8ByteSize then .error .longName
  else
    let next := place ++ [part]
    if t.isDirectory next || (t.files.lookup next).isSome then .ok next else .error .missing

/-- The parts of a path, and whether it starts at the root. A path that ends in a slash means a
directory. -/
def parts (path : String) : Bool × List String :=
  match Text.split '/' path with
  | "" :: rest => (true, rest)
  | ps => (false, ps)

def read (t : FileTree) (path : String) : Except FileError String := do
  if path.toList.contains (Char.ofNat 0) then throw .badName
  if 4095 < path.utf8ByteSize then throw .longName
  let (isAbsolute, parts) := parts path
  let place ← parts.foldlM t.step (if isAbsolute then [] else t.home)
  match t.files.lookup place with
  | some text => return text
  | none => throw .directory

def addFile (t : FileTree) (path text : String) : FileTree :=
  { t with files := ((parts path).2, text) :: t.files }

/-- A file system with no files but the empty device. -/
def bare : FileTree where
  directories :=
    ["bin", "dev", "etc", "home", "lib", "media", "mnt", "opt", "proc", "root", "run", "sbin", "srv",
      "sys", "tmp", "usr", "var"].map (fun s => [s]) ++
    ["bin", "lib", "local", "sbin", "share"].map (fun s => ["usr", s]) ++
    ["cache", "lib", "log", "tmp"].map (fun s => ["var", s])
  files := [(["dev", "null"], "")]
  home := ["root"]

end FileTree

end Dynarec
