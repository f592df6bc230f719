/-!
# Places in the source

A span names a stretch of one line of one file: the number of the file, the line and column it
starts at, counted from one, and its length in characters. Line zero stands for no place at all.
-/

namespace BatchCompiler

structure Span where
  file : Int := 0
  line : Int := 0
  column : Int := 0
  length : Int := 0
deriving DecidableEq, Repr, Inhabited

end BatchCompiler
