import BatchCompiler.Command.Job
import BatchCompiler.Command.Outcome
import BatchCompiler.Options.Application
import BatchCompiler.Settings.Flag
import BatchCompiler.Settings.Group

/-!
# The compiler's command line
-/

namespace BatchCompiler.Command.Compiler

open Files Options

def ownOptions : List Definition :=
  [{ name := "output", short := "o", initial := .text "a.bat", expects := "file",
     usage := "Place the output into <file> ('-' for stdout)." },
   { name := "dump-ir", short := "d", initial := .switch false,
     usage := "Dump the lowered program and exit." },
   { name := "dump-ast", initial := .switch false,
     usage := "Dump the normalized syntax tree and exit." },
   { name := "verbose", short := "v", initial := .switch false,
     usage := "Report each compilation stage on stderr." },
   { name := "Wall", initial := .switch false, usage := "Enable most warnings." },
   { name := "Wno-all", initial := .switch false, usage := "Disable all warnings." },
   { name := "pedantic", initial := .switch false,
     usage := "Issue all warnings, including stylistic ones." }]

def options : Registry :=
  ({} : Settings).optionGroups.foldl (fun r g => (r.addGroup g).1)
    (({} : Registry).defineAll ownOptions).1

def application : Application :=
  { name := "gbat"
    synopsis := "[options] <input.gb> ..."
    description := "A compiler from gb, a small imperative language, to Windows batch scripts. " ++
      "Functions, lists and loops included; cmd.exe does the rest."
    authors := ["xplshn"]
    repository := "<https://github.com/xplshn/gbat>"
    options := options }

def jobOf (options : Registry) (reading : Reading) (inputs : List String) : Job :=
  { inputs := inputs
    settings := ({} : Settings).applyNames reading.names
    output := options.textOf "output"
    dumpTarget := options.isOn "dump-ir"
    dumpTree := options.isOn "dump-ast"
    verbose := options.isOn "verbose" }

def request (year : String) (arguments : List String) : Outcome ⊕ Job :=
  match application.request arguments with
  | .error e => .inl { exit := 2, stderr := e.message ++ "\n" }
  | .ok (a, _, .wrong why) => .inl { exit := 1, stderr := a.refusal why }
  | .ok (a, _, .help) => .inl { stdout := a.helpPage year }
  | .ok (a, reading, .act inputs) => .inr (jobOf a.options reading inputs)

variable {m : Type → Type} [Monad m]

def readInputs (host : Host m) : List String → m (List Input)
  | [] => return []
  | p :: rest => do
    let content ← host.read p
    let more ← readInputs host rest
    return { path := p, content := content } :: more

def runJob (host : Host m) (j : Job) : m Outcome := do
  let inputs ← readInputs host j.inputs
  let files := sourcesOf inputs
  let (result, log) := (j.compile inputs).run ""
  match result with
  | .error a => return { exit := 1, stderr := log ++ a.report files }
  | .ok (.shown text) => return { stdout := text, stderr := log }
  | .ok (.script path text) => do
    match ← host.write path (Text.encodeUtf8 text) with
    | .ok _ => return { stderr := log ++ if j.verbose then "Done!\n" else "" }
    | .error why => return { exit := 1, stderr := log ++ (Abort.unwritable why).report files }

def run (host : Host m) (year : String) (arguments : List String) : m Outcome :=
  match request year arguments with
  | .inl answer => return answer
  | .inr j => runJob host j

end BatchCompiler.Command.Compiler
