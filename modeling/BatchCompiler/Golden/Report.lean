import BatchCompiler.Golden.Comparison

/-!
# Reports on a test run

The summary for the screen and the report for a file.
-/

namespace BatchCompiler.Golden

open Text Json

def red : String := "\x1b[91m"

def yellow : String := "\x1b[93m"

def green : String := "\x1b[92m"

def cyan : String := "\x1b[96m"

def bold : String := "\x1b[1m"

def plain : String := "\x1b[0m"

/-- A duration in whole microseconds, or in milliseconds from one of them on. -/
def durationText (ns : Int64) : String :=
  if ns < 1000000 then padLeft 6 (Number.intText (ns / 1000).toInt) ++ "µs"
  else padLeft 6 (Number.intText (ns / 1000000).toInt) ++ "ms"

def diffLine (line : String) : String :=
  let body := trim line
  (if startsWith "-" body then red else if startsWith "+" body then green else "") ++
    "    " ++ line ++ plain ++ "\n"

def diffText (diff : String) : String :=
  if diff = "" then ""
  else "    --- Diff ---\n" ++ String.join ((splitAt '\n' diff).map diffLine)

def rule : String := String.ofList (List.replicate 70 '-') ++ "\n"

def statusLine (colour : String) (r : TestResult) : String :=
  "  [" ++ colour ++ r.status.text ++ plain ++ "] " ++ r.message ++ "\n"

def verdictText (r : TestResult) : String :=
  match r.status with
  | .pass => statusLine green r
  | .fail => statusLine red r ++ diffText r.diff ++ "\n"
  | .skip => statusLine yellow r
  | .error => statusLine red r
  | .other _ => ""

def resultText (verbose : Bool) (r : TestResult) : String :=
  rule ++ "Testing " ++ cyan ++ r.file ++ plain ++ "...\n" ++ verdictText r ++
    match r.target with
    | some t =>
      if verbose then "  compile: " ++ durationText t.compile.duration ++ "\n" else ""
    | none => ""

def countOf (s : Status) (rs : List TestResult) : Nat :=
  (rs.filter fun r => r.status = s).length

def tally (colour : String) (n : Nat) (label : String) : String :=
  colour ++ Number.natText n ++ " " ++ label ++ plain

def averageText (compiler : String) (rs : List TestResult) : String :=
  match rs.filterMap TestResult.target with
  | [] => ""
  | ts =>
    let total := ts.foldl (fun sum t => sum + t.compile.duration) (0 : Int64)
    "Average compile time of " ++ bold ++ Files.baseName compiler ++ plain ++ ": " ++
      trim (durationText (total / Int64.ofNat ts.length)) ++ "\n"

def summary (compiler : String) (verbose : Bool) (rs : List TestResult) : String :=
  String.join (rs.map (resultText verbose)) ++ rule ++
    bold ++ "Test Summary:" ++ plain ++ " " ++
    joinWith ", " [tally green (countOf .pass rs) "Passed", tally red (countOf .fail rs) "Failed",
      tally yellow (countOf .skip rs) "Skipped", tally red (countOf .error rs) "Errored",
      Number.natText rs.length ++ " Total\n"] ++
    averageText compiler rs

def optionalText (key s : String) : List (String × Value) :=
  if s = "" then [] else [(key, .string s)]

def optionalRecord (key : String) (r : Option Record) : List (String × Value) :=
  r.toList.map fun r => (key, r.json)

def TestResult.json (r : TestResult) : Value :=
  .object <|
    [("file", .string r.file), ("status", .string r.status.text)] ++
    optionalText "message" r.message ++ optionalText "diff" r.diff ++
    optionalRecord "golden" r.golden ++ optionalRecord "target" r.target

/-- One result for each file, the last one, in the order of the file names. -/
def byFile (rs : List TestResult) : List TestResult :=
  let last := rs.foldl (fun kept r => kept.filter (fun k => k.file ≠ r.file) ++ [r]) []
  last.mergeSort fun a b => a.file ≤ b.file

def report (rs : List TestResult) : String :=
  (Value.object ((byFile rs).map fun r => (r.file, r.json))).document

def hasFailures (rs : List TestResult) : Bool :=
  (byFile rs).any fun r => r.status = .fail || r.status = .error

end BatchCompiler.Golden
