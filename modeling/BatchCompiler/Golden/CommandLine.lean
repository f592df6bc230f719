import BatchCompiler.Golden.Duration
import BatchCompiler.Number.Integer
import BatchCompiler.Options.Registry
import BatchCompiler.Text.Quoted

/-!
# The test runner's command line

Parameters are given as `-name value` or `-name=value`, with one dash or two; a switch takes a value
only after `=`. The first other argument ends them.
-/

namespace BatchCompiler.Golden

open Text

structure Plan where
  compiler : String := "./gbat"
  arguments : String := ""
  generate : String := ""
  tests : String := "examples/*.gb"
  skipped : String := ""
  output : String := ".test_results.json"
  /-- Nanoseconds that one compilation may take. -/
  timeout : Int := 5000000000
  verbose : Bool := false
  directory : String := ""
  ignored : String := ""
deriving DecidableEq, Repr

inductive ParameterKind where
  | text
  | switch
  | duration
  | count
deriving DecidableEq, Repr

structure Parameter where
  name : String
  kind : ParameterKind
  usage : String
  /-- The default as the usage text shows it. -/
  shown : String := ""

def parameters : List Parameter :=
  [{ name := "dir", kind := .text,
     usage := "Directory to store/read golden JSON files (defaults to source file dir)." },
   { name := "generate-golden", kind := .text,
     usage := "Generate golden .json files for the given source files (space-separated)." },
   { name := "ignore-lines", kind := .text,
     usage := "Comma-separated substrings to ignore during output comparison." },
   { name := "j", kind := .count, usage := "Number of parallel test jobs.", shown := "4" },
   { name := "output", kind := .text, usage := "Output file for the JSON test report.",
     shown := quote ".test_results.json" },
   { name := "skip-files", kind := .text, usage := "Files to skip (space-separated)." },
   { name := "target-args", kind := .text,
     usage := "Arguments for the compiler (space-separated)." },
   { name := "target-compiler", kind := .text, usage := "Path to the compiler to test.",
     shown := quote "./gbat" },
   { name := "test-files", kind := .text,
     usage := "Glob pattern(s) for files to test (space-separated).",
     shown := quote "examples/*.gb" },
   { name := "timeout", kind := .duration, usage := "Timeout for each compiler invocation.",
     shown := "5s" },
   { name := "v", kind := .switch, usage := "Enable verbose logging." }]

def ParameterKind.label : ParameterKind → String
  | text => " string"
  | switch => ""
  | duration => " duration"
  | count => " int"

/-- The entry of a parameter; a short switch has its usage on the same line. -/
def Parameter.entry (p : Parameter) : String :=
  let head := "  -" ++ p.name ++ p.kind.label
  head ++ (if head.length ≤ 4 then "\t" else "\n    \t") ++ p.usage ++
    (if p.shown = "" then "" else " (default " ++ p.shown ++ ")") ++ "\n"

def usage (program : String) : String :=
  "Usage of " ++ program ++ ":\n" ++ String.join (parameters.map Parameter.entry)

inductive PlanError where
  | help
  | badSyntax (argument : String)
  | unknown (name : String)
  | noValue (name : String)
  | badSwitch (name value : String)
  | badValue (name value reason : String)
deriving DecidableEq, Repr

def PlanError.message : PlanError → String
  | .help => ""
  | .badSyntax a => "bad flag syntax: " ++ a ++ "\n"
  | .unknown name => "flag provided but not defined: -" ++ name ++ "\n"
  | .noValue name => "flag needs an argument: -" ++ name ++ "\n"
  | .badSwitch name value =>
    "invalid boolean value " ++ quote value ++ " for -" ++ name ++ ": parse error\n"
  | .badValue name value reason =>
    "invalid value " ++ quote value ++ " for flag -" ++ name ++ ": " ++ reason ++ "\n"

/-- Underscores may stand between two digits, and after the mark of a base. -/
def withoutUnderscores? (afterMark : Bool) : List Char → Option (List Char)
  | [] => some []
  | '_' :: '_' :: _ => none
  | ['_'] => none
  | '_' :: rest => if afterMark then withoutUnderscores? false rest else none
  | c :: rest => (withoutUnderscores? true rest).map (c :: ·)

/-- The size of an integer; its first characters may choose the base. -/
def countSize? (cs : List Char) : Option Nat :=
  match cs with
  | '0' :: mark :: rest =>
    let base := match mark.toLower with
      | 'x' => some 16
      | 'o' => some 8
      | 'b' => some 2
      | _ => none
    match base with
    | some b => (withoutUnderscores? true rest).bind fun ds =>
      if ds.isEmpty then none else Number.ofDigits? b 0 ds
    | none => (withoutUnderscores? true (mark :: rest)).bind (Number.ofDigits? 8 0)
  | cs => (withoutUnderscores? false cs).bind fun ds =>
    if ds.isEmpty then none else Number.ofDigits? 10 0 ds

def countProblem? (s : String) : Option String :=
  let (limit, body) := match s.toList with
    | '-' :: cs => (0x8000000000000000, cs)
    | '+' :: cs => (0x7fffffffffffffff, cs)
    | cs => (0x7fffffffffffffff, cs)
  match countSize? body with
  | none => some "parse error"
  | some n => if n ≤ limit then none else some "value out of range"

def Plan.setText (p : Plan) (name value : String) : Plan :=
  match name with
  | "dir" => { p with directory := value }
  | "generate-golden" => { p with generate := value }
  | "ignore-lines" => { p with ignored := value }
  | "output" => { p with output := value }
  | "skip-files" => { p with skipped := value }
  | "target-args" => { p with arguments := value }
  | "target-compiler" => { p with compiler := value }
  | "test-files" => { p with tests := value }
  | _ => p

def Plan.set (p : Plan) (parameter : Parameter) (value : String) : Except PlanError Plan :=
  match parameter.kind with
  | .text => .ok (p.setText parameter.name value)
  | .duration => match Duration.parse? value with
    | some ns => .ok { p with timeout := ns }
    | none => .error (.badValue parameter.name value "parse error")
  | .count => match countProblem? value with
    | none => .ok p
    | some reason => .error (.badValue parameter.name value reason)
  | .switch => match if value = "" then none else Options.Value.readSwitch? value with
    | some on => .ok { p with verbose := on }
    | none => .error (.badSwitch parameter.name value)

/-- The name and value in an argument that starts with a dash. -/
def nameOf (argument : String) : Except PlanError (String × Option String) :=
  let body := (dropLead "-" (dropLead "-" argument)).toList
  match body with
  | [] | '-' :: _ | '=' :: _ => .error (.badSyntax argument)
  | _ =>
    let (name, value) := cutOnce '=' body
    .ok (String.ofList name, value.map String.ofList)

def Plan.read (p : Plan) : List String → Except PlanError Plan
  | [] => .ok p
  | a :: rest =>
    if !startsWith "-" a || a = "-" || a = "--" then .ok p
    else do
      let (name, value) ← nameOf a
      match parameters.find? fun q => q.name == name with
      | none => .error (if name = "help" || name = "h" then .help else .unknown name)
      | some parameter =>
        match value with
        | some v => do
          let p ← p.set parameter v
          p.read rest
        | none =>
          if parameter.kind = .switch then Plan.read { p with verbose := true } rest
          else match rest with
            | [] => .error (.noValue name)
            | v :: rest => do
              let p ← p.set parameter v
              p.read rest

end BatchCompiler.Golden
