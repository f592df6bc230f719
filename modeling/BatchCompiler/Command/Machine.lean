import BatchCompiler.Command.Compiler
import BatchCompiler.Files.Tree
import BatchCompiler.Golden.Runner

/-!
# A machine held as a value

A file tree and a clock. Commands run on it as they would on a real one; the one program it has is
the compiler.
-/

namespace BatchCompiler.Command

open Files

structure Machine where
  tree : Tree
  /-- How many programs have been run. -/
  ticks : Nat := 0

namespace Machine

abbrev Act := StateM Machine

def onTree (change : Tree → Except FileError Tree) : Act (Except FileError Unit) := do
  let s ← get
  match change s.tree with
  | .ok t => do
    set { s with tree := t }
    return .ok ()
  | .error e => return .error e

def host : Host Act where
  read p := return (← get).tree.read p
  write p content := onTree fun t => t.write p content
  remove p := modify fun s => { s with tree := s.tree.remove p }
  makeDirectories p := onTree fun t => t.makeDirectories p
  kind? p := return (← get).tree.kind? p
  names p := return (← get).tree.names p
  workingDirectory := return "/" ++ Text.joinWith "/" (← get).tree.here

def start (year program : String) (arguments : List String) : Act Golden.Ending := do
  let tree := (← get).tree
  if program = "" then return .notStarted "exec: no command"
  if !program.toList.contains '/' then
    return .notStarted ("exec: " ++ Text.quote program ++ ": executable file not found in $PATH")
  let refused (why : String) := Golden.Ending.notStarted ("fork/exec " ++ program ++ ": " ++ why)
  match tree.locate program with
  | .error why => return refused why.text
  | .ok names => match tree.item? names with
    | none => return refused Reason.notFound.text
    | some .program => return .finished (← Compiler.run host year arguments)
    | some _ => return refused "permission denied"

/-- A millisecond and as many nanoseconds as programs have run, so that no two runs take alike. -/
def elapsed (s : Machine) : Nat := 1000000 + s.ticks

def launch (year program : String) (arguments : List String) (limit : Int) : Act Golden.Launch := do
  let s ← get
  set { s with ticks := s.ticks + 1 }
  let ending ← if limit < s.elapsed then pure .timedOut else start year program arguments
  return { ending := ending, elapsed := Int64.ofNat s.elapsed }

def bench (year temporary : String) : Golden.Bench Act :=
  { host with
    temporaryDirectory := do
      let _ ← host.makeDirectories temporary
      return temporary
    launch := launch year }

end Machine

end BatchCompiler.Command
