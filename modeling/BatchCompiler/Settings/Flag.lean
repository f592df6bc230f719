import BatchCompiler.Settings.Basic
import BatchCompiler.Text.Blank

/-!
# Flags

A flag names a warning (`W` or no mark) or a feature (`F`); `no-` after the mark disables it. `all`
stands for every warning but the pedantic one, and naming the pedantic warning always enables it.
Flags given on the command line are applied in two sweeps, the collective ones first; those of a
directive are applied one after another.
-/

namespace BatchCompiler.Settings

open Text

/-- A flag taken apart: what it names, whether that is a warning, and whether it is enabled. -/
structure Flag where
  name : String
  isWarning : Bool
  enable : Bool
deriving DecidableEq, Repr

def Flag.ofText (text : String) : Flag :=
  let body := dropLead "-" text
  let negated := startsWith "Wno-" body || startsWith "Fno-" body
  if startsWith "W" body then
    { name := if negated then dropLead "no-" (dropLead "W" body) else dropLead "W" body
      isWarning := true
      enable := !negated }
  else if startsWith "F" body then
    { name := if negated then dropLead "no-" (dropLead "F" body) else dropLead "F" body
      isWarning := false
      enable := !negated }
  else { name := body, isWarning := true, enable := !negated }

/-- The settings after a flag; `none` when it names nothing. -/
def applyFlag? (s : Settings) (f : Flag) : Option Settings :=
  if f.isWarning then
    if f.name = "all" then some (s.setAllWarnings f.enable)
    else if f.name = "pedantic" then some (s.setWarning .pedantic true)
    else (Warning.ofName? f.name).map fun w => s.setWarning w f.enable
  else (Feature.ofName? f.name).map fun g => s.setFeature g f.enable

def apply (s : Settings) (text : String) : Settings :=
  (s.applyFlag? (Flag.ofText text)).getD s

def isCollective (name : String) : Bool :=
  name == "Wall" || name == "Wno-all" || name == "pedantic"

/-- Applies the named command line flags, collective ones first. Unknown names do nothing. -/
def applyNames (s : Settings) (names : List String) : Settings :=
  let ordered := names.filter isCollective ++ names.filter (fun n => !isCollective n)
  ordered.foldl (fun s name => s.apply ("-" ++ name)) s

/-- Applies flags in order; the second part lists those that name nothing. -/
def applyWords (s : Settings) : List String → Settings × List String
  | [] => (s, [])
  | w :: rest => match s.applyFlag? (Flag.ofText w) with
    | some s' => s'.applyWords rest
    | none =>
      let (s', unknown) := s.applyWords rest
      (s', w :: unknown)

def applyDirective (s : Settings) (text : String) : Settings × List String :=
  s.applyWords (words text)

end BatchCompiler.Settings
