import BatchCompiler.Options.Registry
import BatchCompiler.Text.Quoted

/-!
# Reading a command line

An argument that starts with a dash gives an option a value: `-name`, `--name`, either with
`=value`, or a dash and the one letter, with the value attached, attached by `=`, or in the next
argument. A switch needs no value and never takes the next argument. `--` ends the options.
-/

namespace BatchCompiler.Options

open Text

inductive ReadError where
  | unknown (argument : String)
  | noValue (argument : String)
  | notASwitch (value : String)
deriving DecidableEq, Repr

def ReadError.message : ReadError → String
  | .unknown a => "unknown flag: " ++ a
  | .noValue a => "flag needs an argument: " ++ a
  | .notASwitch v =>
    "invalid boolean value '" ++ v ++ "': strconv.ParseBool: parsing " ++ quote v ++
      ": invalid syntax"

/-- What a command line says: the values given, in order, and the other arguments, up to the end or
to the first error. -/
structure Reading where
  given : List (String × String) := []
  arguments : List String := []
  error : Option ReadError := none
deriving DecidableEq, Repr

namespace Reading

def give (name value : String) (later : Reading) : Reading :=
  { later with given := (name, value) :: later.given }

def argument (a : String) (later : Reading) : Reading :=
  { later with arguments := a :: later.arguments }

def names (r : Reading) : List String := r.given.map Prod.fst

end Reading

namespace Registry

def isOption (a : String) : Bool :=
  startsWith "-" a && a ≠ "-"

def resolve? (r : Registry) (a : String) : Option (Entry × Option String) :=
  let body := (dropLead "-" (dropLead "-" a)).toList
  let (name, value) := cutOnce '=' body
  match r.find? (String.ofList name) with
  | some e => some (e, value.map String.ofList)
  | none =>
    if startsWith "--" a then none
    else match body with
      | [] => none
      | c :: rest => (r.findShort? c).map fun e =>
        (e, if rest.isEmpty then value.map String.ofList
          else some (dropLead "=" (String.ofList rest)))

def accept (e : Entry) (value : String) (later : Reading) : Reading :=
  match e.value.given? value with
  | some _ => later.give e.definition.name value
  | none => { error := some (.notASwitch value) }

inductive Request where
  | argument
  | endOfOptions
  | unknown
  | give (e : Entry) (value : String)
  | giveNext (e : Entry)

@[irreducible] def request (r : Registry) (a : String) : Request :=
  if !isOption a then .argument
  else if a = "--" then .endOfOptions
  else match r.resolve? a with
    | none => .unknown
    | some (e, some value) => .give e value
    | some (e, none) => if e.value.isSwitch then .give e "" else .giveNext e

def read (r : Registry) : List String → Reading
  | [] => {}
  | a :: rest => match r.request a with
    | .argument => (r.read rest).argument a
    | .endOfOptions => { arguments := rest }
    | .unknown => { error := some (.unknown a) }
    | .give e value => accept e value (r.read rest)
    | .giveNext e => match rest with
      | [] => { error := some (.noValue a) }
      | value :: rest => accept e value (r.read rest)

def giveAll (r : Registry) (given : List (String × String)) : Registry :=
  given.foldl (fun r (name, value) => r.give name value) r

/-- Reads a command line and gives the options their values, also those before an error. -/
def parse (r : Registry) (arguments : List String) : Registry × Reading :=
  let reading := r.read arguments
  (r.giveAll reading.given, reading)

end Registry

end BatchCompiler.Options
