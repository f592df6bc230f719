import BatchCompiler.Compilation
import BatchCompiler.Files.Host
import BatchCompiler.Syntax.Outline
import BatchCompiler.Target.Listing

/-!
# Compiling a list of source files

The files are read as one program. They are gone through twice: the first pass only finds out what
the directives set, and the second pass scans and parses under those settings and reports.
-/

namespace BatchCompiler.Command

open Files

structure Input where
  path : String
  content : Except FileError Bytes

def Input.text (i : Input) : List Char :=
  match i.content with
  | .ok bytes => Text.decodeUtf8 bytes
  | .error _ => []

def sourcesOf (inputs : List Input) : Sources :=
  inputs.map fun i => { name := i.path, content := i.text }

inductive Abort where
  | noInput
  | unreadable (path : String) (why : FileError)
  | unwritable (why : FileError)
  | failure (f : Failure)

/-- Messages without a place in the source stand at no line of an unknown file. -/
def placeless (message : String) : Diagnostic :=
  { span := { file := -1, line := 0, column := 0, length := 0 }, message := message }

def Abort.diagnostic : Abort → Diagnostic
  | noInput => placeless "no input files specified."
  | unreadable path why =>
    placeless ("could not read file '" ++ path ++ "': " ++ why.message)
  | unwritable why => placeless ("could not write output: " ++ why.message)
  | failure (.diagnostic d) => d
  | failure (.lowering e) => e.diagnostic
  | failure (.rendering e) => placeless ("backend code generation failed: " ++ e.message)
  | failure (.crash why) => placeless why.message

def Abort.report (files : Sources) (a : Abort) : String := a.diagnostic.report files

/-- The tokens of all files up to the first error, with the remarks made on the way. -/
structure Scan where
  result : Except Abort (List Token)
  remarks : List Remark

/-- Scans the files, the first of which has the number `index`. Ends of file are left out. -/
def scanFrom (settings : Settings) (index : Nat) : List Input → Scan
  | [] => { result := .ok [], remarks := [] }
  | i :: rest => match i.content with
    | .error why => { result := .error (.unreadable i.path why), remarks := [] }
    | .ok bytes =>
      let (ts, s) := (Scanner.start settings index (Text.decodeUtf8 bytes)).tokens
      match s.error with
      | some d => { result := .error (.failure (.diagnostic d)), remarks := s.remarks }
      | none =>
        let later := scanFrom settings (index + 1) rest
        { result := later.result.map fun more => ts.filter (fun t => t.kind ≠ .eof) ++ more
          remarks := s.remarks ++ later.remarks }

/-- The end of file that follows the tokens of the last file. -/
def finalToken (inputs : List Input) : Token :=
  { kind := .eof, value := "",
    span := { file := (inputs.length - 1 : Nat), line := 0, column := 0, length := 0 } }

def scan (settings : Settings) (inputs : List Input) : Scan :=
  let s := scanFrom settings 0 inputs
  { s with result := s.result.map (· ++ [finalToken inputs]) }

def settingsOfPass (settings : Settings) (inputs : List Input) : Settings :=
  match (scan settings inputs).result with
  | .error _ => settings
  | .ok ts => match Syntax.parse? settings ts with
    | some p => p.settings
    | none => settings

structure Job where
  inputs : List String := []
  settings : Settings := {}
  output : String := "a.bat"
  dumpTarget : Bool := false
  dumpTree : Bool := false
  verbose : Bool := false

/-- What a job comes to: a text for the screen, or a script for a file. -/
inductive Product where
  | shown (text : String)
  | script (path text : String)
deriving DecidableEq, Repr

abbrev Session := ExceptT Abort (StateM String)

namespace Session

def say (text : String) : Session Unit := modify (· ++ text)

def remark (files : Sources) (rs : List Remark) : Session Unit := say (Remark.reportAll files rs)

def stage {α : Type} (files : Sources) (s : Stage α) : Session α := do
  let (result, remarks) := s.run []
  remark files remarks
  match result with
  | .ok a => pure a
  | .error f => throw (.failure f)

end Session

namespace Job

open Session

def log (j : Job) (line : String) : Session Unit :=
  if j.verbose then say (line ++ "\n") else pure ()

def compile (j : Job) (inputs : List Input) : Session Product := do
  if inputs.isEmpty then throw .noInput
  let files := sourcesOf inputs
  let settings := settingsOfPass j.settings inputs
  j.log ("Tokenizing " ++ Number.natText inputs.length ++ " source file(s)...")
  let scanned := scan settings inputs
  remark files scanned.remarks
  let tokens ← match scanned.result with
    | .ok ts => pure ts
    | .error a => throw a
  j.log "Parsing tokens into AST..."
  let (root, settings) ← stage files (Stage.tree settings tokens)
  j.log "Building symbol table..."
  let table ← stage files (Stage.scopes root)
  if settings.feature .split then j.log "Splitting nested expressions..."
  let (root, table) ← stage files (Stage.flatTreeIfEnabled settings table root)
  if j.dumpTree then return .shown root.outline
  j.log "Lowering..."
  let program ← stage files (Stage.target settings table root)
  if j.dumpTarget then return .shown (Target.Program.listing program)
  j.log "Rendering batch script..."
  let script ← stage files (Stage.script settings program)
  if j.output = "-" then
    j.log "Done!"
    return .shown script
  j.log ("Writing '" ++ j.output ++ "'...")
  return .script j.output script

end Job

end BatchCompiler.Command
