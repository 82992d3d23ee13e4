import Cb.Diagnostic
import Cb.Files.Path

/-! Files held in memory: contents by place, and the directory that relative paths start from. A
directory is there when a file lies in it or when it was made. There are no links, and names that differ
in case are different names. -/

namespace Cb

abbrev Place := List Bytes

structure Files where
  entries : List (Place × Bytes)
  current : Place
  made : List Place := []

inductive FileFault where
  | missing
  | notDirectory
  | isDirectory
  | invalidName
  | nameTooLong
  | denied
deriving DecidableEq, Repr

def FileFault.message : FileFault → Bytes
  | .missing => "no such file or directory"
  | .notDirectory => "not a directory"
  | .isDirectory => "is a directory"
  | .invalidName => "invalid argument"
  | .nameTooLong => "file name too long"
  | .denied => "permission denied"

structure FileError where
  action : Bytes
  path : Bytes
  fault : FileFault
deriving DecidableEq, Repr

def FileError.message (error : FileError) : Bytes :=
  error.action ++ " " ++ error.path ++ ": " ++ error.fault.message

def FileError.cause (error : FileError) : Cause := ⟨error.message, error.fault = .missing⟩

namespace Files

def content? (files : Files) (place : Place) : Option Bytes :=
  (files.entries.find? (·.1 = place)).map (·.2)

def isDirectory (files : Files) (place : Place) : Bool :=
  place.isPrefixOf files.current || files.made.any place.isPrefixOf
    || files.entries.any fun entry => place.isPrefixOf entry.1 && place ≠ entry.1

def has (files : Files) (place : Place) : Bool :=
  (files.content? place).isSome || files.isDirectory place

def follow (files : Files) (place : Place) : List Bytes → Except FileFault Place
  | [] => .ok place
  | part :: rest =>
    if !files.isDirectory place then .error .notDirectory
    else if part.isEmpty || part = "." then files.follow place rest
    else if part = ".." then files.follow place.dropLast rest
    else if 255 < part.length then .error .nameTooLong
    else if files.has (place ++ [part]) then files.follow (place ++ [part]) rest
    else .error .missing

def start (files : Files) (path : Bytes) : Place := if Path.isAbsolute path then [] else files.current

def locate (files : Files) (path : Bytes) : Except FileFault Place :=
  if path.isEmpty then .error .missing
  else if path.contains 0 then .error .invalidName
  else files.follow (files.start path) (Path.components path)

def exists? (files : Files) (path : Bytes) : Bool :=
  match files.locate path with
  | .ok _ => true
  | .error _ => false

def read (files : Files) (path : Bytes) : Except FileError Bytes :=
  match files.locate path with
  | .error fault => .error ⟨"open", path, fault⟩
  | .ok place => match files.content? place with
    | some content => .ok content
    | none => .error ⟨"read", path, .isDirectory⟩

def pathTo (place : Place) : Bytes := Path.slash :: Bytes.join [Path.slash] place

def absolute (files : Files) (path : Bytes) : Bytes :=
  pathTo (Path.walk (files.start path) (Path.components path))

def put (files : Files) (place : Place) (content : Bytes) : Files :=
  { files with entries :=
      if files.entries.any (·.1 = place) then
        files.entries.map fun entry => if entry.1 = place then (place, content) else entry
      else files.entries ++ [(place, content)] }

def write (files : Files) (path content : Bytes) : Except FileError Files :=
  let failed (fault : FileFault) : Except FileError Files := .error ⟨"open", path, fault⟩
  match files.locate path with
  | .ok place => if files.isDirectory place then failed .isDirectory else .ok (files.put place content)
  | .error .missing =>
    let name := Path.lastPart path
    let parent := path.take (path.length - name.length)
    if path.isEmpty then failed .missing
    else match files.follow (files.start path) (Path.components parent) with
      | .error fault => failed fault
      | .ok place => if name.isEmpty then failed .isDirectory else .ok (files.put (place ++ [name]) content)
  | .error fault => failed fault

def names (files : Files) (place : Place) : List Bytes :=
  let inside (other : Place) : Option Bytes := if place.isPrefixOf other then other[place.length]? else none
  let found := (files.entries.map (·.1) ++ files.made ++ [files.current]).filterMap inside
  found.eraseDups.mergeSort fun a b => !Bytes.lessThan b a

def makeAlong (files : Files) (place : Place) (done : List Bytes) : List Bytes → Except FileError Files
  | [] => .ok files
  | part :: rest =>
    let done := done ++ [part]
    let failed (fault : FileFault) : Except FileError Files := .error ⟨"mkdir", Bytes.join [Path.slash] done, fault⟩
    let next := if part.isEmpty || part = "." then place else if part = ".." then place.dropLast else place ++ [part]
    if (files.content? next).isSome then failed .notDirectory
    else if 255 < part.length then failed .nameTooLong
    else if files.isDirectory next then files.makeAlong next done rest
    else { files with made := files.made ++ [next] }.makeAlong next done rest

def makeDirectories (files : Files) (path : Bytes) : Except FileError Files :=
  if path.isEmpty then .error ⟨"mkdir", path, .missing⟩
  else if path.contains 0 then .error ⟨"mkdir", path, .invalidName⟩
  else files.makeAlong (files.start path) [] (Path.components path)

end Files

end Cb
