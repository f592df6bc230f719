import BatchCompiler.Golden.Record

/-!
# Comparing with a golden record

A compilation agrees with its record if it did not time out, ended with the same exit code, and
printed the same diagnostics and wrote the same script, lines with an ignored text left out.
-/

namespace BatchCompiler.Golden

open Text

inductive Status where
  | pass
  | fail
  | skip
  | error
  | other (text : String)
deriving DecidableEq, Repr

namespace Status

def text : Status → String
  | pass => "PASS"
  | fail => "FAIL"
  | skip => "SKIP"
  | error => "ERROR"
  | other s => s

def ofText (s : String) : Status :=
  if s = "PASS" then pass
  else if s = "FAIL" then fail
  else if s = "SKIP" then skip
  else if s = "ERROR" then error
  else other s

end Status

structure TestResult where
  file : String
  status : Status
  message : String := ""
  diff : String := ""
  golden : Option Record := none
  target : Option Record := none
deriving DecidableEq, Repr

def isIgnored (ignored : List String) (line : String) : Bool :=
  ignored.any fun part => part ≠ "" && contains line part

def withoutIgnored (text : String) (ignored : List String) : String :=
  if ignored.isEmpty || text = "" then text
  else joinWith "\n" ((splitAt '\n' text).filter fun line => !isIgnored ignored line)

def ignoredTexts (list : String) : List String :=
  if list = "" then [] else splitAt ',' list

inductive Mismatch where
  | timeout
  | exitCode (golden target : Int)
  | diagnostics (golden target : String)
  | script (golden target : String)
deriving DecidableEq, Repr

def dropShared : List String → List String → List String × List String
  | a :: as, b :: bs => if a = b then dropShared as bs else (a :: as, b :: bs)
  | as, bs => (as, bs)

/-- The lines in which two texts differ: from the first difference to the last. -/
def lineDifference (golden target : String) : String :=
  let (as, bs) := dropShared (splitAt '\n' golden) (splitAt '\n' target)
  let (as, bs) := dropShared as.reverse bs.reverse
  String.join (as.reverse.map fun l => "- " ++ quoteLine l) ++
    String.join (bs.reverse.map fun l => "+ " ++ quoteLine l)
where
  quoteLine (l : String) : String := quote l ++ "\n"

namespace Mismatch

def heading : Mismatch → String
  | timeout => "Compiler timed out.\n"
  | exitCode golden target =>
    "Exit Code mismatch:\n  - Golden: " ++ Number.intText golden ++ "\n  - Target: " ++
      Number.intText target ++ "\n"
  | diagnostics _ _ => "Diagnostics mismatch:\n"
  | script _ _ => "Script mismatch:\n"

def details : Mismatch → String
  | diagnostics golden target => lineDifference golden target
  | script golden target => lineDifference golden target
  | _ => ""

def text (m : Mismatch) : String := m.heading ++ m.details

end Mismatch

def mismatches (ignored : List String) (golden target : Record) : List Mismatch :=
  let shown (s : String) := withoutIgnored s ignored
  (if target.compile.timedOut then [.timeout] else []) ++
  (if golden.compile.exitCode ≠ target.compile.exitCode then
    [.exitCode golden.compile.exitCode target.compile.exitCode] else []) ++
  (if shown golden.compile.stderr ≠ shown target.compile.stderr then
    [.diagnostics (shown golden.compile.stderr) (shown target.compile.stderr)] else []) ++
  (if shown golden.script ≠ shown target.script then
    [.script (shown golden.script) (shown target.script)] else [])

def compare (ignored : List String) (file : String) (golden target : Record) : TestResult :=
  match mismatches ignored golden target with
  | [] =>
    { file := file, status := .pass, message := "Output matches the golden file",
      golden := some golden, target := some target }
  | ms =>
    { file := file, status := .fail, message := "Compiler output differs from the golden file",
      diff := String.join (ms.map Mismatch.text), golden := some golden, target := some target }

end BatchCompiler.Golden
