import BatchCompiler.Golden.Record
import BatchCompiler.Json.Reader

/-!
# Reading golden records

Members may stand in any order and case; unknown ones are passed over, a later member overrides an
earlier one, and `null` leaves a member as it was.
-/

namespace BatchCompiler.Golden

open Json

/-- A value of the wrong type, and the member it was found in. -/
structure TypeError where
  found : String
  /-- The record type and the path of member names. -/
  place : Option (String × List String)
  expected : String
deriving DecidableEq, Repr

def TypeError.message (e : TypeError) : String :=
  "json: cannot unmarshal " ++ e.found ++ " into Go " ++
    (match e.place with
      | some (owner, path) => "struct field " ++ owner ++ "." ++ Text.joinWith "." path
      | none => "value") ++
    " of type " ++ e.expected

inductive RecordError where
  | malformed (e : SyntaxError)
  | mistyped (e : TypeError)
deriving DecidableEq, Repr

def RecordError.message : RecordError → String
  | .malformed e => e.message
  | .mistyped e => e.message

def kindName : Value → String
  | .null => "null"
  | .bool _ => "bool"
  | .number _ => "number"
  | .string _ => "string"
  | .array _ => "array"
  | .object _ => "object"

abbrev Place := Option (String × List String)

def mistyped {α : Type} (place : Place) (expected : String) (v : Value) : Except TypeError α :=
  .error { found := kindName v, place := place, expected := expected }

def readString (place : Place) (old : String) : Value → Except TypeError String
  | .string s => .ok s
  | .null => .ok old
  | v => mistyped place "string" v

def readBool (place : Place) (old : Bool) : Value → Except TypeError Bool
  | .bool b => .ok b
  | .null => .ok old
  | v => mistyped place "bool" v

/-- The integer a literal stands for, if it is written without point and exponent and has 64 bits. -/
def integer? (literal : String) : Option Int :=
  let (negative, ds) := match literal.toList with
    | '-' :: ds => (true, ds)
    | ds => (false, ds)
  match Number.ofDigits? 10 0 ds with
  | none => none
  | some n =>
    if negative then if n ≤ 0x8000000000000000 then some (-(n : Int)) else none
    else if n < 0x8000000000000000 then some n else none

def readInt (place : Place) (expected : String) (old : Int) : Value → Except TypeError Int
  | .number literal => match integer? literal with
    | some n => .ok n
    | none => .error { found := "number " ++ literal, place := place, expected := expected }
  | .null => .ok old
  | v => mistyped place expected v

def readStrings (place : Place) (old : List String) : List Value → Except TypeError (List String)
  | [] => .ok []
  | v :: rest => do
    let s ← readString place (old.headD "") v
    let more ← readStrings place old.tail rest
    .ok (s :: more)

def readStringList (place : Place) (old : List String) : Value → Except TypeError (List String)
  | .array vs => readStrings place old vs
  | .null => .ok []
  | v => mistyped place "[]string" v

/-- A letter in upper case; the long s and the Kelvin sign count as letters too. -/
def foldChar (c : Char) : Char :=
  if c.toNat == 0x17F then 'S' else if c.toNat == 0x212A then 'K' else c.toUpper

def isField (field key : String) : Bool :=
  field.toList.map foldChar == key.toList.map foldChar

def readExecutionMember (e : Execution) (key : String) (v : Value) : Except TypeError Execution :=
  let place (field : String) : Place := some ("Execution", ["compile", field])
  if isField "stdout" key then do
    .ok { e with stdout := ← readString (place "stdout") e.stdout v }
  else if isField "stderr" key then do
    .ok { e with stderr := ← readString (place "stderr") e.stderr v }
  else if isField "exitCode" key then do
    .ok { e with exitCode := ← readInt (place "exitCode") "int" e.exitCode v }
  else if isField "duration" key then do
    let n ← readInt (place "duration") "time.Duration" e.duration.toInt v
    .ok { e with duration := Int64.ofInt n }
  else if isField "timed_out" key then do
    .ok { e with timedOut := ← readBool (place "timed_out") e.timedOut v }
  else .ok e

def readExecution (e : Execution) : Value → Except TypeError Execution
  | .object ms => ms.foldlM (fun e (k, v) => readExecutionMember e k v) e
  | .null => .ok e
  | v => mistyped (some ("Golden", ["compile"])) "main.Execution" v

def readMember (r : Record) (key : String) (v : Value) : Except TypeError Record :=
  let place (field : String) : Place := some ("Golden", [field])
  if isField "source_hash" key then do
    .ok { r with sourceHash := ← readString (place "source_hash") r.sourceHash v }
  else if isField "args" key then do
    .ok { r with arguments := ← readStringList (place "args") r.arguments v }
  else if isField "compile" key then do
    .ok { r with compile := ← readExecution r.compile v }
  else if isField "script" key then do
    .ok { r with script := ← readString (place "script") r.script v }
  else .ok r

def Record.ofJson : Value → Except TypeError Record
  | .object ms => ms.foldlM (fun r (k, v) => readMember r k v) {}
  | .null => .ok {}
  | v => mistyped none "main.Golden" v

def Record.parse (bytes : Bytes) : Except RecordError Record :=
  match Json.parse bytes with
  | .error e => .error (.malformed e)
  | .ok v => match Record.ofJson v with
    | .error e => .error (.mistyped e)
    | .ok r => .ok r

end BatchCompiler.Golden
