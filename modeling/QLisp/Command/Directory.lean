import QLisp.Eval.Machine
import QLisp.Source.Bytes

/-!
# Files of a directory

What reading and writing in a working directory answers when its files are given. Paths are walked
component by component, from the working directory on or from the outermost directory; a directory
exists where a file is given inside of it.

The working directory is one of the temporary directories, and nobody knows its name. Around it
stand the usual directories of a system, of whose contents only devices are known: the null device,
which is empty and can be written, the terminal, which a run does not have, and the input of the
run, to which several paths lead.

Names and paths have a longest length in bytes. A name is measured when it is looked up, so a name
that is too long is not noticed behind a component that is no directory.
-/

set_option autoImplicit false

namespace QLisp.Command

/-- Why a file cannot be read or written. -/
inductive FileFault where
  | missing
  | notDirectory
  | isDirectory
  | nameTooLong
  | noDevice
  | denied
  | invalidText
  | nulInPath
deriving DecidableEq

/-- The wording of a fault. -/
def FileFault.message : FileFault → String
  | missing => "No such file or directory (os error 2)"
  | notDirectory => "Not a directory (os error 20)"
  | isDirectory => "Is a directory (os error 21)"
  | nameTooLong => "File name too long (os error 36)"
  | noDevice => "No such device or address (os error 6)"
  | denied => "Permission denied (os error 13)"
  | invalidText => "stream did not contain valid UTF-8"
  | nulInPath => "file name contained an unexpected NUL byte"

/-- What reading bytes as text gives. -/
def readBytes (bytes : ByteArray) : ReadResult :=
  match String.fromUTF8? bytes with
  | some text => .ok text
  | none => .error FileFault.invalidText.message

/-- The files of a working directory with their bytes, by path. -/
structure Directory where
  files : List (String × ByteArray)

namespace Directory

/-- The components of a path; a slash at the end leaves an empty component. -/
def components (path : String) : List String :=
  path.splitOn "/"

/-- Where the working directory is. Its own name is a slash, which no component of a path can be. -/
def working : List String :=
  ["tmp", "/"]

/-- Directories that are always there. -/
def usual : List (List String) :=
  [["bin"], ["boot"], ["dev", "pts"], ["dev", "shm"], ["etc"], ["home"], ["lib"], ["lib64"],
    ["media"], ["mnt"], ["opt"], ["proc"], ["root"], ["run"], ["sbin"], ["srv"], ["sys"], ["tmp"],
    ["usr"], ["var"]]

/-- Where a walk along a path has come to. -/
inductive Place where
  /-- A directory, by the components that lead to it. -/
  | directory (place : List String)
  /-- A file. -/
  | file (bytes : ByteArray)
  /-- The input of the run. -/
  | input
  /-- A terminal. -/
  | terminal
  /-- A name that does not exist in a directory that does. -/
  | absent

/-- Where the system shows what belongs to the run. -/
def ownDirectory : List String :=
  ["proc", "self"]

/-- Where the numbered inputs and outputs of the run are. -/
def channels : List String :=
  ownDirectory ++ ["fd"]

/-- Devices and other names for directories, by the components that lead to them. -/
def devices : List (List String × Place) :=
  [(["dev", "null"], .file ByteArray.empty),
   (["dev", "tty"], .terminal),
   (["dev", "stdin"], .input),
   (["dev", "fd"], .directory channels),
   (channels ++ ["0"], .input),
   (ownDirectory ++ ["cwd"], .directory working),
   (ownDirectory ++ ["root"], .directory [])]

/-- All known files and devices by their components from the outermost directory on. -/
def entries (d : Directory) : List (List String × Place) :=
  devices ++ d.files.map fun (path, bytes) => (working ++ components path, .file bytes)

/-- Whether there is a directory to which the given components lead. -/
def isDirectory (d : Directory) (place : List String) : Bool :=
  place.isPrefixOf working || usual.any (fun other => place.isPrefixOf other)
    || d.entries.any (fun entry => place.isPrefixOf entry.1)

/-- The most bytes that a name can have. -/
def longestName : Nat := 255

/-- The most bytes that a path can have. -/
def longestPath : Nat := 4095

/-- What stands at the place to which the given components lead, in a directory that exists. -/
def look (d : Directory) (target : List String) : Place :=
  match d.entries.find? (·.1 = target) with
  | some (_, place) => place
  | none => if d.isDirectory target then .directory target else .absent

/-- Goes from a place to the one that a component names there. The outermost directory is inside of
itself. -/
def step (d : Directory) (place : Place) (name : String) : Except FileFault Place :=
  match place with
  | .absent => .error .missing
  | .file _ => .error .notDirectory
  | .input => .error .notDirectory
  | .terminal => .error .notDirectory
  | .directory here =>
    if name = "" || name = "." then .ok place
    else if name = ".." then .ok (.directory here.dropLast)
    else if longestName < Source.byteLength name.toList then .error .nameTooLong
    else .ok (d.look (here ++ [name]))

/-- Walks along components. -/
def walk (d : Directory) (place : Place) : List String → Except FileFault Place
  | [] => .ok place
  | name :: rest => do d.walk (← d.step place name) rest

/-- Where the walk along a path starts, if it is a path at all. -/
def start (path : String) : Except FileFault Place :=
  if path.isEmpty then .error .missing
  else if path.contains '\x00' then .error .nulInPath
  else if longestPath < Source.byteLength path.toList then .error .nameTooLong
  else if path.startsWith "/" then .ok (.directory [])
  else .ok (.directory working)

/-- What a path leads to. -/
def find (d : Directory) (path : String) : Except FileFault Place := do
  d.walk (← start path) (components path)

/-- The script at a path. -/
def script (d : Directory) (path : String) : Script :=
  match d.find path with
  | .error fault => .file (.error fault.message)
  | .ok (.file bytes) => .file (readBytes bytes)
  | .ok .input => .input
  | .ok .terminal => .file (.error FileFault.noDevice.message)
  | .ok (.directory _) => .file (.error FileFault.isDirectory.message)
  | .ok .absent => .file (.error FileFault.missing.message)

/-- Components in reverse, the slashes at the end of the path left out, and whether there were any.
-/
def withoutSlashes : List String → List String × Bool
  | "" :: rest => ((withoutSlashes rest).1, true)
  | names => (names, false)

/-- Why no file can be made in a directory, if that is so. -/
def unwritable : List String → Option FileFault
  | "proc" :: _ => some .missing
  | "sys" :: _ => some .denied
  | _ => none

/-- What writing a file at a path answers. The directories on the way have to exist, and a path that
ends in a slash can only be that of a directory. -/
def tryWrite (d : Directory) (path : String) : Except FileFault Unit := do
  let origin ← start path
  match withoutSlashes (components path).reverse with
  | ([], _) => throw .isDirectory
  | (name :: above, slash) =>
    match ← d.walk origin above.reverse with
    | .absent => throw .missing
    | .directory here =>
      if slash then throw .isDirectory
      match ← d.step (.directory here) name with
      | .directory _ => throw .isDirectory
      | .terminal => throw .noDevice
      | .absent =>
        match unwritable here with
        | some fault => throw fault
        | none => return ()
      | _ => return ()
    | _ => throw .notDirectory

end Directory

end QLisp.Command
