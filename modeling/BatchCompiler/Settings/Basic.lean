/-!
# Settings of a compilation

Which warnings are issued, which features are on, and the mark that turns a line comment into a
directive.
-/

namespace BatchCompiler

inductive Feature where
  | keepComments
  | split
  | crlf
  | noDirectives
deriving DecidableEq, Repr, Inhabited

inductive Warning where
  | unknownEscape
  | unreachableCode
  | recursion
  | frameGlobal
  | externCall
  | extra
  | pedantic
deriving DecidableEq, Repr, Inhabited

namespace Feature

def all : List Feature := [keepComments, split, crlf, noDirectives]

def name : Feature → String
  | keepComments => "keep-comments"
  | split => "split"
  | crlf => "crlf"
  | noDirectives => "no-directives"

def description : Feature → String
  | keepComments => "Carry '//' comments into the generated script as 'rem' lines."
  | split => "Normalize nested expressions into temporaries before lowering."
  | crlf => "Terminate generated lines with CRLF."
  | noDirectives => "Disable `// [gbat]:` directives."

def onByDefault : Feature → Bool
  | noDirectives => false
  | _ => true

def ofName? (s : String) : Option Feature :=
  all.find? fun f => f.name == s

def ofNumber? (n : Int) : Option Feature :=
  if n < 0 then none else all[n.toNat]?

end Feature

namespace Warning

def all : List Warning :=
  [unknownEscape, unreachableCode, recursion, frameGlobal, externCall, extra, pedantic]

def name : Warning → String
  | unknownEscape => "u-esc"
  | unreachableCode => "unreachable-code"
  | recursion => "recursion"
  | frameGlobal => "frame-global"
  | externCall => "extern-call"
  | extra => "extra"
  | pedantic => "pedantic"

def description : Warning → String
  | unknownEscape => "Warn on unrecognized character escape sequences."
  | unreachableCode => "Warn about code that follows a return."
  | recursion => "Warn about recursive calls, whose locals share one frame."
  | frameGlobal => "Warn about 'global' inside functions, which does not bypass frame storage."
  | externCall => "Warn about calls that resolve to external commands."
  | extra => "Enable extra miscellaneous warnings."
  | pedantic => "Issue all warnings, including stylistic ones."

def onByDefault : Warning → Bool
  | externCall => false
  | pedantic => false
  | _ => true

def ofName? (s : String) : Option Warning :=
  all.find? fun w => w.name == s

def ofNumber? (n : Int) : Option Warning :=
  if n < 0 then none else all[n.toNat]?

end Warning

structure Settings where
  feature : Feature → Bool := Feature.onByDefault
  warning : Warning → Bool := Warning.onByDefault
  directiveMark : String := "[gbat]:"

namespace Settings

def setFeature (s : Settings) (f : Feature) (on : Bool) : Settings :=
  { s with feature := fun g => if g = f then on else s.feature g }

def setWarning (s : Settings) (w : Warning) (on : Bool) : Settings :=
  { s with warning := fun v => if v = w then on else s.warning v }

def setAllWarnings (s : Settings) (on : Bool) : Settings :=
  { s with warning := fun v => if v = .pedantic then s.warning v else on }

def lineEnding (s : Settings) : String :=
  if s.feature .crlf then "\r\n" else "\n"

/-- Sets a feature by number; a number that stands for none changes nothing. -/
def setFeatureAt (s : Settings) (n : Int) (on : Bool) : Settings :=
  match Feature.ofNumber? n with
  | some f => s.setFeature f on
  | none => s

def setWarningAt (s : Settings) (n : Int) (on : Bool) : Settings :=
  match Warning.ofNumber? n with
  | some w => s.setWarning w on
  | none => s

def featureAt (s : Settings) (n : Int) : Bool :=
  (Feature.ofNumber? n).any s.feature

def warningAt (s : Settings) (n : Int) : Bool :=
  (Warning.ofNumber? n).any s.warning

def enabledFeatures (s : Settings) : List Feature :=
  Feature.all.filter s.feature

def enabledWarnings (s : Settings) : List Warning :=
  Warning.all.filter s.warning

end Settings

end BatchCompiler
