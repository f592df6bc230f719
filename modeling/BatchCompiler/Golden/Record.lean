import BatchCompiler.Files.Path
import BatchCompiler.Json.Basic
import BatchCompiler.Number.Integer

/-!
# Golden records

The recorded outcome of compiling one source file, and where the record of a file is kept.
-/

namespace BatchCompiler.Golden

open Json

structure Execution where
  stdout : String := ""
  stderr : String := ""
  exitCode : Int := 0
  /-- Nanoseconds. -/
  duration : Int64 := 0
  timedOut : Bool := false
deriving DecidableEq, Repr

structure Record where
  sourceHash : String := ""
  arguments : List String := []
  compile : Execution := {}
  script : String := ""
deriving DecidableEq, Repr

def intValue (n : Int) : Value := .number (Number.intText n)

def Execution.json (e : Execution) : Value :=
  .object [("stdout", .string e.stdout), ("stderr", .string e.stderr),
    ("exitCode", intValue e.exitCode), ("duration", intValue e.duration.toInt),
    ("timed_out", .bool e.timedOut)]

def Record.json (r : Record) : Value :=
  .object <|
    [("source_hash", .string r.sourceHash)] ++
    (if r.arguments.isEmpty then [] else [("args", .array (r.arguments.map .string))]) ++
    [("compile", r.compile.json), ("script", .string r.script)]

/-- The path of the record of a source file: beside it, or in the directory `dir` if that is given. -/
def recordPath (dir source : String) : String :=
  let name := "." ++ Files.baseName source ++ ".json"
  Files.joinPath (if dir = "" then Files.directoryOf source else dir) name

end BatchCompiler.Golden
