/-!
# Files

A file tree is a list of files by path, together with the directory that relative paths start
from. A directory is whatever the path of a file passes through, and what every system has at
its root. Reading a path walks through its components from left to right.
-/
namespace Brainfuck

inductive ReadFailure where
  | missing
  | directory
  /-- Something on the way is a file. -/
  | notDirectory
  /-- The path or one of its components is too long. -/
  | nameTooLong
  /-- The file is no text. -/
  | notText
  | other (message : String)
  deriving DecidableEq

def ReadFailure.message : ReadFailure → String
  | .missing => "No such file or directory (os error 2)"
  | .directory => "Is a directory (os error 21)"
  | .notDirectory => "Not a directory (os error 20)"
  | .nameTooLong => "File name too long (os error 36)"
  | .notText => "stream did not contain valid UTF-8"
  | .other message => message

inductive FileContent where
  | bytes (content : ByteArray)
  /-- Whatever standard input has to offer. -/
  | standardInput

structure FileTree where
  /-- The files by the components of their paths, from the root on. -/
  files : List (List String × FileContent)
  /-- The directory that relative paths start from. -/
  workingDirectory : List String

namespace FileTree

/-- The longest component of a path, in bytes. -/
def maxComponent : Nat := 255

def maxPath : Nat := 4095

/-- The files that every system has. -/
def devices : List (List String × FileContent) :=
  [(["dev", "null"], .bytes ByteArray.empty),
    (["dev", "stdin"], .standardInput),
    (["dev", "fd", "0"], .standardInput),
    (["proc", "self", "fd", "0"], .standardInput)]

/-- The directories that every system has at its root. -/
def rootDirectories : List String :=
  ["bin", "boot", "dev", "etc", "home", "lib", "media", "mnt", "opt", "proc", "root", "run", "sbin",
    "srv", "sys", "tmp", "usr", "var"]

/-- The directory that a component leads to. At the root, `..` leads nowhere else. -/
def enter (here : List String) (component : String) : List String :=
  if component = "" ∨ component = "." then here
  else if component = ".." then here.dropLast
  else here ++ [component]

/-- A system with files at paths that start from a working directory. -/
def ofFiles (workingDirectory : List String) (files : List (String × ByteArray)) : FileTree :=
  ⟨files.map (fun (path, content) =>
      ((path.splitOn "/").foldl enter workingDirectory, .bytes content)) ++ devices,
    workingDirectory⟩

def file? (t : FileTree) (path : List String) : Option FileContent := t.files.lookup path

def isDirectory (t : FileTree) (path : List String) : Bool :=
  path.isPrefixOf t.workingDirectory || rootDirectories.any (path == [·]) ||
    t.files.any fun (file, _) => path.isPrefixOf file

def walk (t : FileTree) (here : List String) : List String → Except ReadFailure FileContent
  | [] => .error .directory
  | component :: rest =>
    if maxComponent < component.utf8ByteSize then .error .nameTooLong
    else
      match t.file? (enter here component) with
      | some content => if rest.isEmpty then .ok content else .error .notDirectory
      | none =>
        if t.isDirectory (enter here component) then walk t (enter here component) rest
        else .error .missing

def read (t : FileTree) (path : String) : Except ReadFailure FileContent :=
  if path.isEmpty then .error .missing
  else if maxPath < path.utf8ByteSize then .error .nameTooLong
  else if path.startsWith "/" then t.walk [] (path.splitOn "/")
  else t.walk t.workingDirectory (path.splitOn "/")

end FileTree
end Brainfuck
