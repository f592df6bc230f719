import BatchCompiler.Options.Layout
import BatchCompiler.Options.Reading

/-!
# Applications

A command with its options: it answers `--help` with a page, a wrong command line with a short usage
text, and hands the arguments on otherwise.
-/

namespace BatchCompiler.Options

open Text

structure Application where
  name : String
  synopsis : String := ""
  description : String := ""
  authors : List String := []
  repository : String := ""
  options : Registry := {}
deriving DecidableEq, Repr

def pageWidth : Int := 80

namespace Application

def usage (a : Application) : String :=
  "Usage: " ++ a.name ++ " " ++ a.synopsis ++ "\n\nRun '" ++ a.name ++
    " --help' for all available options and flags.\n"

def isGrouped (a : Application) (name : String) : Bool :=
  a.options.groups.any fun g => g.entries.any fun e => name == e.onName || name == e.offName

def ungrouped (a : Application) : List Definition :=
  (a.options.entries.map Entry.definition).filter fun d => !a.isGrouped d.name

def spelling (d : Definition) : String :=
  (if d.short = "" then "" else "-" ++ d.short ++ ", ") ++ "--" ++ d.name ++
    (if !d.initial.isSwitch && d.expects ≠ "" then " <" ++ d.expects ++ ">" else "")

def defaultColumn (d : Definition) : String :=
  let shown := d.initial.shownAsDefault
  if d.initial.isSwitch || shown = "" || shown = "[]" then "" else "|" ++ shown ++ "|"

def isActive (r : Registry) (e : GroupEntry) : Bool :=
  e.enabled.isSome && r.isOn e.onName && (e.disabled.isNone || !r.isOn e.offName)

def groupPattern (mark : String) (g : Group) : String := "-" ++ mark ++ "<" ++ g.kind ++ ">"

def leftWidth (a : Application) : Nat :=
  let options := a.ungrouped.map fun d => (spelling d).utf8ByteSize
  let entries := a.options.groups.flatMap fun g => g.entries.map fun e =>
    max e.name.utf8ByteSize (groupPattern (e.mark ++ "no-") g).utf8ByteSize
  (options ++ entries).foldl max 0

def usageWidth (a : Application) : Nat :=
  let options := a.ungrouped.map fun d => d.usage.utf8ByteSize
  let entries := a.options.groups.flatMap fun g => g.entries.map fun e => e.usage.utf8ByteSize
  (options ++ entries).foldl max 0

def sortedBy {α : Type} (key : α → String) (xs : List α) : List α :=
  xs.mergeSort fun x y => key x ≤ key y

def entry (a : Application) (left usage right : String) : String :=
  entryText pageWidth left usage right a.leftWidth a.usageWidth

def angled (s : String) : String :=
  String.ofList (s.toList.map fun c => if c == '[' then '<' else if c == ']' then '>' else c)

def heading (a : Application) (year : String) : String :=
  "\n" ++ indentAt 1 ++ "Copyright (c) " ++ year ++ ": " ++ joinWith ", " a.authors ++
    " and contributors\n" ++
  (if a.repository = "" then "" else
    indentAt 1 ++ "For more details refer to " ++ a.repository ++ "\n") ++
  (if a.synopsis = "" then "" else
    "\n" ++ indentAt 1 ++ "Synopsis\n" ++ indentAt 2 ++ a.name ++ " " ++ angled a.synopsis ++ "\n") ++
  (if a.description = "" then "" else
    "\n" ++ indentAt 1 ++ "Description\n" ++ indentAt 2 ++ a.description ++ "\n")

def optionSection (a : Application) : String :=
  if a.ungrouped.isEmpty then "" else
    "\n" ++ indentAt 1 ++ "Options\n" ++
      String.join ((sortedBy Definition.name a.ungrouped).map fun d =>
        a.entry (spelling d) d.usage (defaultColumn d))

def groupSection (a : Application) (g : Group) : String :=
  match g.entries with
  | [] => ""
  | first :: _ =>
    let row (mark verb : String) :=
      indentAt 2 ++ padRight a.leftWidth (groupPattern mark g) ++ " " ++ verb ++ " a specific " ++
        g.kind ++ "\n"
    "\n" ++ indentAt 1 ++ g.name ++ "\n" ++ row first.mark "Enable" ++
      row (first.mark ++ "no-") "Disable" ++
      (if g.header = "" then "" else indentAt 1 ++ g.header ++ "\n") ++
      String.join ((sortedBy GroupEntry.name g.entries).map fun e =>
        a.entry e.name e.usage (if isActive a.options e then "|x|" else "|-|"))

def helpPage (a : Application) (year : String) : String :=
  a.heading year ++ a.optionSection ++
    String.join ((sortedBy Group.name a.options.groups).map a.groupSection)

def helpOption : Definition :=
  { name := "help", short := "h", usage := "Display this information", initial := .switch false }

inductive Request where
  | wrong (why : ReadError)
  | help
  | act (arguments : List String)
deriving DecidableEq, Repr

/-- Reads the command line; the application returned has the values given on it. -/
def request (a : Application) (arguments : List String) :
    Except DefinitionError (Application × Reading × Request) :=
  match a.options.define helpOption with
  | (_, some e) => .error e
  | (options, none) =>
    let (options, reading) := options.parse arguments
    let a := { a with options := options }
    .ok (a, reading, match reading.error with
      | some e => .wrong e
      | none => if options.isOn "help" then .help else .act reading.arguments)

def refusal (a : Application) (why : ReadError) : String := why.message ++ "\n" ++ a.usage

end Application

end BatchCompiler.Options
