import BatchCompiler.Command.Compiler
import BatchCompiler.Golden.Runner
import Std.Time

/-!
# The programs

Under the name `gtest` this is the test runner and under any other name the compiler. The test
runner tests the compiler of this program; the path it is given has to exist.
-/

namespace BatchCompiler.Main

open Files Command

def reasonOf : IO.Error → Reason
  | .noFileOrDirectory .. => .notFound
  | .inappropriateType .. => .notDirectory
  | e => .other (toString e)

def attempt {α : Type} (action path : String) (act : IO α) : IO (Except FileError α) := do
  try
    return .ok (← act)
  catch e =>
    return .error { action := action, path := path, reason := reasonOf e }

def read (path : String) : IO (Except FileError Bytes) := do
  if path = "" then return .error { action := "open", path := path, reason := .notFound }
  if ← ((← IO.currentDir) / path).isDir then
    return .error { action := "read", path := path, reason := .isDirectory }
  attempt "open" path do return (← IO.FS.readBinFile path).toList

def write (path : String) (content : Bytes) : IO (Except FileError Unit) := do
  if path = "" then return .error { action := "open", path := path, reason := .notFound }
  if ← ((← IO.currentDir) / path).isDir then
    return .error { action := "open", path := path, reason := .isDirectory }
  attempt "open" path (IO.FS.writeBinFile path ⟨content.toArray⟩)

def kind? (path : String) : IO (Option Kind) := do
  let p := (← IO.currentDir) / path
  if ← p.isDir then return some .directory
  if ← p.pathExists then return some .regular
  return none

def host : Host IO where
  read := read
  write := write
  remove path := do
    let _ ← attempt "remove" path (IO.FS.removeFile path)
  makeDirectories path := attempt "mkdir" path (IO.FS.createDirAll path)
  kind? := kind?
  names path := do return (← ((← IO.currentDir) / path).readDir).toList.map fun e => e.fileName
  workingDirectory := do return toString (← IO.currentDir)

def year : IO String := do
  return Number.intText (← Std.Time.PlainDateTime.now).year.toInt

def launch (program : String) (arguments : List String) (limit : Int) : IO Golden.Launch := do
  let start ← IO.monoNanosNow
  let ending ←
    if (← kind? program) = some .regular then
      Golden.Ending.finished <$> Compiler.run host (← year) arguments
    else pure (.notStarted ("fork/exec " ++ program ++ ": " ++ Reason.notFound.text))
  let elapsed := (← IO.monoNanosNow) - start
  return { ending := if limit < elapsed then .timedOut else ending, elapsed := Int64.ofNat elapsed }

def bench : Golden.Bench IO :=
  { host with
    temporaryDirectory := do return toString (← IO.FS.createTempDir)
    launch := launch }

end BatchCompiler.Main

open BatchCompiler in
def main (arguments : List String) : IO UInt32 := do
  let outcome ←
    if (← IO.appPath).fileName = some "gtest" then Golden.run Main.bench "gtest" arguments
    else Command.Compiler.run Main.host (← Main.year) arguments
  IO.print outcome.stdout
  IO.eprint outcome.stderr
  return UInt32.ofNat outcome.exit.toNat
