import Cb.Standard

/-! The compiler on the command line: files are brought into memory, the command runs on them, and
what it wrote is stored. -/

namespace Cb

inductive OnDisk where
  | file (content : Bytes)
  | directory
  | nothing

def OnDisk.find (path : Bytes) : IO OnDisk := do
  match String.fromUTF8? ⟨path.toArray⟩ with
  | none => return .nothing
  | some name =>
    try
      let content ← IO.FS.readBinFile name
      return .file content.toList
    catch
      | .inappropriateType .. => return .directory
      | _ => return .nothing

partial def gather (args tried : List Bytes) (files : Files) : IO Files := do
  let wanted := (Compiler.concerned .standard files args).filter (!tried.contains ·)
  if wanted.isEmpty then return files
  let mut known := files
  for path in wanted do
    let place := Path.components (files.absolute path) |>.filter (!·.isEmpty)
    match ← OnDisk.find path with
    | .file content => known := known.put place content
    | .directory => known := { known with made := known.made ++ [place] }
    | .nothing => pure ()
  gather args (tried ++ wanted) known

def store (before after : Files) : IO Unit := do
  for (place, content) in after.entries do
    if before.content? place != some content then
      match String.fromUTF8? ⟨(Files.pathTo place).toArray⟩ with
      | some name => IO.FS.writeBinFile name ⟨content.toArray⟩
      | none => pure ()

def commandLine (args : List Bytes) : IO UInt32 := do
  let current := Path.components (utf8 (toString (← IO.currentDir))) |>.filter (!·.isEmpty)
  let files ← gather args [] { entries := [], current }
  let outcome := Compiler.run .standard files args
  store files outcome.files
  (← IO.getStderr).write ⟨outcome.stderr.toArray⟩
  let stdout ← IO.getStdout
  stdout.write ⟨outcome.stdout.toArray⟩
  stdout.flush
  if outcome.waits then let _ ← (← IO.getStdin).getLine
  return UInt32.ofNat outcome.exitCode.toNat

end Cb

def main (args : List String) : IO UInt32 := Cb.commandLine (args.map Cb.utf8)
