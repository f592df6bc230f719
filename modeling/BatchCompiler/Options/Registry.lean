import BatchCompiler.Text.Column

/-!
# Options of a command

An option has a name, perhaps a one-letter name, and a value: a text, a switch or a list of texts.
A registry holds the options of one command in the order of their definition, with their present
values, and the groups some of them belong to.
-/

namespace BatchCompiler.Options

open Text

inductive Value where
  | text (s : String)
  | switch (on : Bool)
  | texts (items : List String)
deriving DecidableEq, Repr

namespace Value

def isSwitch : Value → Bool
  | switch _ => true
  | _ => false

def switchText (on : Bool) : String := if on then "true" else "false"

def shown : Value → String
  | text s => s
  | switch on => switchText on
  | texts items => joinWith ", " items

/-- How a default is written: as the value, but a list stands in brackets. -/
def shownAsDefault : Value → String
  | texts items => "[" ++ joinWith " " items ++ "]"
  | v => v.shown

/-- The switch position that a text stands for; the empty text switches on. -/
def readSwitch? (s : String) : Option Bool :=
  if s = "" || ["1", "t", "T", "TRUE", "true", "True"].contains s then some true
  else if ["0", "f", "F", "FALSE", "false", "False"].contains s then some false
  else none

/-- The value after it is given the text `s`: a list grows, all else is replaced. -/
def given? (s : String) : Value → Option Value
  | text _ => some (text s)
  | switch _ => (readSwitch? s).map switch
  | texts items => some (texts (items ++ [s]))

end Value

structure Definition where
  name : String
  short : String := ""
  usage : String := ""
  expects : String := ""
  initial : Value
deriving DecidableEq, Repr

structure Entry where
  definition : Definition
  value : Value := definition.initial
deriving DecidableEq, Repr

/-- A pair of switches: `mark` and `name` turns something on, `mark`, `no-` and `name` turns it off.
A switch without a starting position does not exist. -/
structure GroupEntry where
  mark : String
  name : String
  usage : String
  enabled : Option Bool
  disabled : Option Bool
deriving DecidableEq, Repr

namespace GroupEntry

def onName (e : GroupEntry) : String := e.mark ++ e.name

def offName (e : GroupEntry) : String := e.mark ++ "no-" ++ e.name

def definitions (e : GroupEntry) : List Definition :=
  (e.enabled.toList.map fun on => { name := e.onName, usage := e.usage, initial := .switch on }) ++
  (e.disabled.toList.map fun on =>
    { name := e.offName, usage := "Disable '" ++ e.name ++ "'", initial := .switch on })

end GroupEntry

structure Group where
  name : String
  description : String := ""
  kind : String
  header : String
  entries : List GroupEntry
deriving DecidableEq, Repr

inductive DefinitionError where
  | emptyName
  | nameTaken (name : String)
  | shortTaken (short : String)
deriving DecidableEq, Repr

def DefinitionError.message : DefinitionError → String
  | .emptyName => "flag name cannot be empty"
  | .nameTaken name => "flag redefined: " ++ name
  | .shortTaken short => "shorthand flag redefined: " ++ short

structure Registry where
  entries : List Entry := []
  groups : List Group := []
deriving DecidableEq, Repr

namespace Registry

def find? (r : Registry) (name : String) : Option Entry :=
  r.entries.find? fun e => e.definition.name == name

/-- The option with a one-letter name; the first to claim the letter has it. Only ASCII letters can
be found. -/
def findShort? (r : Registry) (c : Char) : Option Entry :=
  if c.toNat < 128 then
    r.entries.find? fun e => e.definition.short == String.singleton c
  else none

/-- Adds an option. One whose short name is taken is still added, under its name alone. -/
def define (r : Registry) (d : Definition) : Registry × Option DefinitionError :=
  if d.name = "" then (r, some .emptyName)
  else if (r.find? d.name).isSome then (r, some (.nameTaken d.name))
  else
    let taken := d.short ≠ "" ∧ r.entries.any fun e => e.definition.short == d.short
    ({ r with entries := r.entries ++ [{ definition := d }] },
      if taken then some (.shortTaken d.short) else none)

def defineAll (r : Registry) : List Definition → Registry × Option DefinitionError
  | [] => (r, none)
  | d :: rest => match r.define d with
    | (r, none) => r.defineAll rest
    | (r, some e) => (r, some e)

def addGroup (r : Registry) (g : Group) : Registry × Option DefinitionError :=
  match r.defineAll (g.entries.flatMap GroupEntry.definitions) with
  | (r, none) => ({ r with groups := r.groups ++ [g] }, none)
  | failed => failed

/-- Gives an option a text; a text it does not take changes nothing. -/
def give (r : Registry) (name s : String) : Registry :=
  { r with
    entries := r.entries.map fun e =>
      if e.definition.name == name then { e with value := (e.value.given? s).getD e.value } else e }

def isOn (r : Registry) (name : String) : Bool :=
  match r.find? name with
  | some { value := .switch on, .. } => on
  | _ => false

def textOf (r : Registry) (name : String) : String :=
  match r.find? name with
  | some e => e.value.shown
  | none => ""

end Registry

end BatchCompiler.Options
