import ScriptTree.Command.World

/-! A directory held in memory, and how a path is walked from it. A folder exists as long as a file
lies below it. Outside the directory there are only folders that every system has, and the null
device. Both a path and a name in it have a longest length, in bytes. -/
namespace ScriptTree.Command

structure Directory where
  files : List (List String × ByteArray)

inductive Place where
  /-- A folder of the directory. -/
  | folder (path : List String)
  /-- A folder given by its path from the root of the system. -/
  | system (path : List String)
  /-- Some folder that the directory lies in. -/
  | above
  | file (content : ByteArray)

/-- The folders at the root of every system. -/
def systemFolders : List String :=
  ["bin", "boot", "dev", "etc", "home", "lib", "media", "mnt", "opt", "proc", "root", "run", "sbin",
    "srv", "sys", "tmp", "usr", "var"]

def longestName : Nat := 255

def longestPath : Nat := 4095

/-- The folder around a folder. The root is around itself. -/
def Place.parent : Place → Place
  | .folder [] => .above
  | .folder path => .folder path.dropLast
  | .system path => .system path.dropLast
  | .above => .above
  | .file content => .file content

namespace Directory

def ofFiles (files : List (String × ByteArray)) : Directory :=
  ⟨files.map fun (name, content) =>
    ((name.splitOn "/").filter fun part => part != "" && part != ".", content)⟩

/-- What a folder holds under a name. -/
def enter (d : Directory) : Place → String → Except ReadFailure Place
  | .folder path, name =>
    let path := path ++ [name]
    match d.files.lookup path with
    | some content => .ok (.file content)
    | none =>
      if d.files.any fun f => path.isPrefixOf f.1 then .ok (.folder path) else .error .missing
  | .system [], name =>
    if systemFolders.contains name then .ok (.system [name]) else .error .missing
  | .system ["dev"], "null" => .ok (.file .empty)
  | .system _, _ | .above, _ => .error .missing
  | .file _, _ => .error .notDirectory

/-- One part of a path. -/
def step (d : Directory) : Place → String → Except ReadFailure Place
  | .file _, _ => .error .notDirectory
  | place, part =>
    if part = "" ∨ part = "." then .ok place
    else if part = ".." then .ok place.parent
    else if longestName < part.utf8ByteSize then .error .nameTooLong
    else d.enter place part

def read (d : Directory) (path : String) : Except ReadFailure ByteArray :=
  if longestPath < path.utf8ByteSize then .error .nameTooLong
  else
    let start := if path.toList.head? = some '/' then .system [] else .folder []
    match (path.splitOn "/").foldlM d.step start with
    | .ok (.file content) => .ok content
    | .ok _ => .error .isDirectory
    | .error e => .error e

end Directory
end ScriptTree.Command
