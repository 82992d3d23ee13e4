import Cb.CommandLine.Parse
import Cb.Text.Blank

/-! A command: its flags, the pages that explain them, and how a run of it starts. Pages are 80
columns wide. -/

namespace Cb

structure Command where
  name : Bytes
  synopsis : Bytes := []
  description : Bytes := []
  authors : List Bytes := []
  repository : Bytes := []
  flags : FlagSet := {}

def pageWidth : Nat := 80

def pageIndent : Bytes := Bytes.spaces 4

def fillLines (width : Nat) (line : Bytes) : List Bytes → List Bytes
  | [] => [line]
  | word :: rest =>
    if width < line.length + 1 + word.length then line :: fillLines width word rest
    else fillLines width (line ++ " " ++ word) rest

def wrapWords (width : Nat) (text : Bytes) : List Bytes :=
  match words text with
  | [] => []
  | first :: rest => fillLines width first rest

def padded (width : Nat) (text : Bytes) : Bytes := text ++ Bytes.spaces (width - (scalars text).length)

def Flag.spelling (flag : Flag) : Bytes :=
  let argument : Bytes :=
    if flag.value.isSwitch || flag.expects.isEmpty then [] else " <" ++ flag.expects ++ ">"
  let short : Bytes := if flag.short.isEmpty then [] else "-" ++ flag.short ++ argument ++ ", "
  short ++ "--" ++ flag.name ++ argument

def Flag.defaultNote (flag : Flag) : Bytes :=
  match flag.initial with
  | .text value => if value.isEmpty then [] else "|" ++ value ++ "|"
  | _ => []

def FlagSet.leftWidth (set : FlagSet) : Nat :=
  let options := set.options.map (·.spelling.length)
  let entries := set.groups.flatMap fun group =>
    group.entries.flatMap fun entry => [entry.name.length, entry.lead.length + group.kind.length + 6]
  (options ++ entries).foldl max 0

def entryLines (leftWidth : Nat) (left usage right : Bytes) : List Bytes :=
  let indent := pageIndent ++ pageIndent
  let usageWidth := max 10 (pageWidth - (indent.length + leftWidth + 1 + right.length + 2))
  let (first, more) := match wrapWords usageWidth usage with
    | [] => ([], [])
    | first :: more => (first, more)
  let note : Bytes := if right.isEmpty then first else padded usageWidth first ++ "  " ++ right
  (indent ++ padded leftWidth left ++ " " ++ note)
    :: more.map fun line => indent ++ Bytes.spaces (leftWidth + 1) ++ line

namespace Command

def optionLines (command : Command) : List Bytes :=
  let width := command.flags.leftWidth
  match command.flags.options with
  | [] => []
  | options =>
    let title : List Bytes := [[], pageIndent ++ "Options"]
    title ++ options.flatMap fun flag => entryLines width flag.spelling flag.usage flag.defaultNote

def groupLines (width : Nat) (group : FlagGroup) : List Bytes :=
  match group.entries with
  | [] => []
  | first :: _ =>
    let title : List Bytes := [[], pageIndent ++ group.name]
    let header : List Bytes := if group.header.isEmpty then [] else [pageIndent ++ group.header]
    let sorted := group.entries.mergeSort fun a b => !Bytes.lessThan b.name a.name
    title
      ++ entryLines width ("-" ++ first.lead ++ "<" ++ group.kind ++ ">") ("Enable a specific " ++ group.kind) []
      ++ entryLines width ("-" ++ first.lead ++ "no-<" ++ group.kind ++ ">") ("Disable a specific " ++ group.kind) []
      ++ header
      ++ sorted.flatMap fun entry =>
          entryLines width entry.name entry.usage (if entry.default then "|x|" else "|-|")

def usagePage (command : Command) : Bytes :=
  let first : Bytes := "Usage: " ++ command.name ++ " " ++ command.synopsis
  let last : Bytes := "Run '" ++ command.name ++ " --help' for all available options and flags."
  Bytes.unlines ([first] ++ command.optionLines ++ [[], last])

def helpPage (command : Command) : Bytes :=
  let authors : List Bytes :=
    if command.authors.isEmpty then [] else [[], pageIndent ++ "Authors: " ++ Bytes.join ", " command.authors]
  let repository : List Bytes :=
    if command.repository.isEmpty then []
    else [pageIndent ++ "For more details refer to " ++ command.repository]
  let synopsis : List Bytes :=
    if command.synopsis.isEmpty then []
    else [[], pageIndent ++ "Synopsis", pageIndent ++ pageIndent ++ command.name ++ " " ++ command.synopsis]
  let description : List Bytes :=
    if command.description.isEmpty then []
    else [] :: (pageIndent ++ "Description")
      :: (wrapWords (pageWidth - 8) command.description).map (pageIndent ++ pageIndent ++ ·)
  let groups := command.flags.groups.mergeSort fun a b => !Bytes.lessThan b.name a.name
  Bytes.unlines (authors ++ repository ++ synopsis ++ description ++ command.optionLines
    ++ groups.flatMap (groupLines command.flags.leftWidth))

inductive Start where
  | refused (error : FlagError)
  | help
  | proceed (args : List Bytes)
deriving DecidableEq, Repr

def helpFlag : Flag :=
  { name := "help", short := "h", usage := "Display this information", initial := .switch false }

def start (command : Command) (args : List Bytes) : Command × Except FlagClash Start :=
  match command.flags.register helpFlag with
  | (flags, some clash) => ({ command with flags }, .error clash)
  | (flags, none) =>
    match flags.parse args with
    | (flags, some error) => ({ command with flags }, .ok (.refused error))
    | (flags, none) =>
      ({ command with flags }, .ok (if flags.isOn "help" then .help else .proceed flags.args))

def shown (command : Command) : Start → Bytes × Bytes
  | .refused error => ([], error.message ++ "\n" ++ command.usagePage)
  | .help => (command.helpPage, [])
  | .proceed _ => ([], [])

end Command

end Cb
