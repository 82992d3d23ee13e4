import Cb.Text.Bytes

/-! Paths: components separated by slashes. -/

namespace Cb.Path

def slash : UInt8 := 47

def isAbsolute (path : Bytes) : Bool := path.head? = some slash

def components (path : Bytes) : List Bytes := Bytes.split slash path

/-- Takes `.` and empty components out and lets `..` cancel the component before it; `done` holds
the components kept so far, the last one first. -/
def simplify (rooted : Bool) (done : List Bytes) : List Bytes → List Bytes
  | [] => done.reverse
  | part :: rest =>
    if part.isEmpty || part = "." then simplify rooted done rest
    else if part = ".." then
      match done with
      | last :: others =>
        if last = ".." then simplify rooted (part :: done) rest else simplify rooted others rest
      | [] => if rooted then simplify rooted [] rest else simplify rooted [part] rest
    else simplify rooted (part :: done) rest

def walk (place : List Bytes) : List Bytes → List Bytes
  | [] => place
  | part :: rest =>
    if part.isEmpty || part = "." then walk place rest
    else if part = ".." then walk place.dropLast rest
    else walk (place ++ [part]) rest

def clean (path : Bytes) : Bytes :=
  let parts := Bytes.join [slash] (simplify (isAbsolute path) [] (components path))
  if isAbsolute path then slash :: parts else if parts.isEmpty then "." else parts

def join (dir path : Bytes) : Bytes :=
  if dir.isEmpty then (if path.isEmpty then [] else clean path) else clean (dir ++ slash :: path)

def lastPart (path : Bytes) : Bytes := (path.reverse.takeWhile (· ≠ slash)).reverse

def dir (path : Bytes) : Bytes := clean (path.take (path.length - (lastPart path).length))

def base (path : Bytes) : Bytes :=
  if path.isEmpty then "."
  else
    let trimmed := (path.reverse.dropWhile (· = slash)).reverse
    if trimmed.isEmpty then [slash] else lastPart trimmed

def extension (path : Bytes) : Bytes :=
  let name := (lastPart path).reverse
  if name.contains (byte '.') then (byte '.' :: (name.takeWhile (· ≠ byte '.')).reverse) else []

def withoutExtension (path : Bytes) : Bytes := path.take (path.length - (extension path).length)

end Cb.Path
