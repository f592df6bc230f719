/-!
# Outcome of a command

What a finished command leaves behind, apart from files.
-/

namespace BatchCompiler.Command

structure Outcome where
  exit : Int := 0
  stdout : String := ""
  stderr : String := ""
deriving DecidableEq, Repr

end BatchCompiler.Command
