import BatchCompiler.Command.Outcome
import BatchCompiler.Files.Glob
import BatchCompiler.Golden.CommandLine
import BatchCompiler.Golden.Hash
import BatchCompiler.Golden.RecordReader
import BatchCompiler.Golden.Report

/-!
# Running golden tests

Compiles source files with the compiler under test, and either records the outcomes or compares them
with the records.
-/

namespace BatchCompiler.Golden

open Text Files Command

inductive Ending where
  | finished (o : Outcome)
  | timedOut
  | notStarted (why : String)
deriving DecidableEq, Repr

structure Launch where
  ending : Ending
  elapsed : Int64
deriving DecidableEq, Repr

structure Bench (m : Type → Type) extends Host m where
  temporaryDirectory : m String
  launch : (program : String) → (arguments : List String) → (limit : Int) → m Launch

def Execution.ofLaunch (l : Launch) : Execution :=
  match l.ending with
  | .finished o =>
    { stdout := o.stdout, stderr := o.stderr, exitCode := o.exit, duration := l.elapsed }
  | .timedOut => { exitCode := -1, duration := l.elapsed, timedOut := true }
  | .notStarted why =>
    { stderr := "\nExecution error: " ++ why, exitCode := -2, duration := l.elapsed }

def sourceMark : String := "__SOURCE__"

/-- Replaces every occurrence of `old`, which has to be a non-empty text. -/
def replaceFrom (old new : List Char) : (skip : Nat) → List Char → List Char
  | _, [] => []
  | skip + 1, _ :: rest => replaceFrom old new skip rest
  | 0, c :: rest =>
    if (afterLead? old (c :: rest)).isSome then new ++ replaceFrom old new (old.length - 1) rest
    else c :: replaceFrom old new 0 rest

def replaceAll (s old new : String) : String :=
  String.ofList (replaceFrom old.toList new.toList 0 s.toList)

/-- Diagnostics that do not depend on where the source file lies. -/
def withSourceMark (source diagnostics : String) : String :=
  replaceAll (replaceAll diagnostics source sourceMark) (baseName source) sourceMark

abbrev Run (m : Type → Type) := StateT Outcome m

variable {m : Type → Type} [Monad m]

namespace Run

def print (s : String) : Run m Unit := modify fun o => { o with stdout := o.stdout ++ s }

def log (s : String) : Run m Unit := modify fun o => { o with stderr := o.stderr ++ s }

def fail : Run m Unit := modify fun o => { o with exit := 1 }

def errorMark : String := red ++ "[ERROR]" ++ plain ++ " "

def fatal (s : String) : Run m Unit := do
  log (errorMark ++ s ++ "\n")
  fail

end Run

open Run

/-- Compiles a source file and takes in the script it leaves in the temporary directory. -/
def compile (b : Bench m) (p : Plan) (temporary source hash : String) : Run m Record := do
  let arguments := words p.arguments
  let script := joinPath temporary (hash ++ ".bat")
  let launch ← b.launch p.compiler (["-o", script] ++ arguments ++ [source]) p.timeout
  let e := Execution.ofLaunch launch
  let e := { e with stderr := withSourceMark source e.stderr }
  let (e, text) ←
    if e.exitCode = 0 && !e.timedOut then do
      let found ← b.read script
      b.remove script
      match found with
      | .ok bytes => pure (e, String.ofList (decodeUtf8 bytes))
      | .error why =>
        pure ({ e with stderr := e.stderr ++
          "\ngtest: compiler succeeded but wrote no script: " ++ why.message }, "")
    else pure (e, "")
  if p.verbose then
    log ("[" ++ source ++ "] compiled in " ++ trim (durationText e.duration) ++ " (exit " ++
      Number.intText e.exitCode ++ ")\n")
  return { sourceHash := hash, arguments := arguments, compile := e, script := text }

def generate (b : Bench m) (p : Plan) (temporary source : String) : Run m Bool := do
  log ("Generating golden file for " ++ source ++ "...\n")
  match ← b.read source with
  | .error why => do
    fatal ("Could not hash source file " ++ source ++ ": " ++ why.message)
    return false
  | .ok bytes => do
    let record ← compile b p temporary source (Hash.text bytes)
    let path := recordPath p.directory source
    let made ← if p.directory = "" then pure (.ok ()) else b.makeDirectories p.directory
    match made with
    | .error why => do
      fatal ("Failed to create directory " ++ p.directory ++ ": " ++ why.message)
      return false
    | .ok _ =>
      match ← b.write path (encodeUtf8 record.json.document) with
      | .error why => do
        fatal ("Failed to write golden file " ++ path ++ ": " ++ why.message)
        return false
      | .ok _ => do
        log (green ++ "[SUCCESS]" ++ plain ++ " Golden file created at " ++ path ++ "\n")
        return true

def generateAll (b : Bench m) (p : Plan) (temporary : String) : List String → Run m Unit
  | [] => return
  | source :: rest => do
    if ← generate b p temporary source then generateAll b p temporary rest

def skipped (file message : String) : TestResult :=
  { file := file, status := .skip, message := message }

def errored (file message : String) : TestResult :=
  { file := file, status := .error, message := message }

/-- The result for a record made from another content than the file now has. -/
def stale (file hash : String) (golden : Record) : TestResult :=
  { file := file
    status := .fail
    message := "Golden file is stale (source hash " ++ hash ++ ", recorded " ++
      golden.sourceHash ++ "); regenerate it with --generate-golden"
    golden := some golden }

def test (b : Bench m) (p : Plan) (temporary source hash : String) : Run m TestResult := do
  let path := recordPath p.directory source
  match ← b.read path with
  | .error why =>
    if why.reason = .notFound then
      return skipped source "Cannot test without a corresponding .json golden file"
    else return errored source ("Could not read golden file " ++ path ++ ": " ++ why.message)
  | .ok bytes =>
    match Record.parse bytes with
    | .error why =>
      return errored source ("Could not parse golden file " ++ path ++ ": " ++ why.message)
    | .ok golden =>
      if golden.sourceHash ≠ hash then return stale source hash golden
      else do
        let target ← compile b p temporary source hash
        return compare (ignoredTexts p.ignored) source golden target

/-- Tests the files in turn. `seen` pairs the hashes met so far with their files. -/
def testAll (b : Bench m) (p : Plan) (temporary : String) (omitted : List String)
    (seen : List (String × String)) : List String → Run m (List TestResult)
  | [] => return []
  | source :: rest => do
    if omitted.contains source then
      let later ← testAll b p temporary omitted seen rest
      return skipped source "Explicitly skipped" :: later
    else
      match ← b.read source with
      | .error why => do
        let later ← testAll b p temporary omitted seen rest
        return errored source ("Failed to read file for hashing: " ++ why.message) :: later
      | .ok bytes =>
        let hash := Hash.text bytes
        match seen.lookup hash with
        | some earlier => do
          let later ← testAll b p temporary omitted seen rest
          return skipped source ("Content is identical to " ++ earlier) :: later
        | none => do
          let r ← test b p temporary source hash
          let later ← testAll b p temporary omitted ((hash, source) :: seen) rest
          return r :: later

/-- Adds the regular files among some paths to those found so far, each once. -/
def addFiles (b : Bench m) (here : String) (found : List String) : List String → m (List String)
  | [] => return found
  | f :: rest => do
    let path := absolute here f
    let isNew := !found.contains path && (← b.kind? path) = some .regular
    addFiles b here (if isNew then found ++ [path] else found) rest

/-- The files that any of the patterns names; a malformed pattern is returned as an error. -/
def findFiles (b : Bench m) (here : String) (found : List String) :
    List String → m (Except String (List String))
  | [] => return .ok found
  | pattern :: rest => do
    match ← expand b.toHost pattern with
    | none => return .error pattern
    | some paths => do
      let found ← addFiles b here found paths
      findFiles b here found rest

def writeReport (b : Bench m) (p : Plan) (rs : List TestResult) : Run m Unit := do
  if p.directory ≠ "" then
    match ← b.makeDirectories p.directory with
    | .ok _ => pure ()
    | .error why =>
      log (errorMark ++ "Failed to create dir " ++ p.directory ++ ": " ++ why.message ++ "\n")
  let path := if p.directory = "" then p.output else joinPath p.directory p.output
  match ← b.write path (encodeUtf8 (report rs)) with
  | .ok _ => print ("Full test report saved to " ++ path ++ "\n")
  | .error why =>
    log (errorMark ++ "Failed to write JSON report to " ++ path ++ ": " ++ why.message ++ "\n")

def runSuite (b : Bench m) (p : Plan) (temporary : String) : Run m Unit := do
  let here ← b.workingDirectory
  let found ← (findFiles b here [] (words p.tests) : m (Except String (List String)))
  match found with
  | .error pattern =>
    fatal ("Invalid glob pattern(s): bad pattern " ++ pattern ++ ": syntax error in pattern")
  | .ok [] => log "No test files found matching the pattern(s).\n"
  | .ok files => do
    let omitted := (words p.skipped).flatMap fun f => [f, absolute here f]
    let results ← testAll b p temporary omitted [] files
    let results := results.mergeSort fun a b => a.file ≤ b.file
    print (summary p.compiler p.verbose results)
    writeReport b p results
    if hasFailures results then fail

def run (b : Bench m) (program : String) (arguments : List String) : m Outcome := do
  match Plan.read {} arguments with
  | .error .help => return { exit := 0, stderr := usage program }
  | .error why => return { exit := 2, stderr := why.message ++ usage program }
  | .ok p => do
    let temporary ← b.temporaryDirectory
    let sources := words p.generate
    let act := if p.generate ≠ "" then generateAll b p temporary sources else runSuite b p temporary
    let (_, o) ← act.run {}
    return o

end BatchCompiler.Golden
