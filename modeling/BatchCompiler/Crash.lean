/-!
# Crashes

Conditions under which a step gives up without a diagnostic. Trees, target programs and layouts that
are put together by hand can meet them.
-/

namespace BatchCompiler

inductive Crash where
  | absentPart
  | notAName
  | missingScope
  | noTokens
  | endlessTokens
  | frameStatement
  | framePlace
  | frameArithmetic
  | frameFragment
  | negativeMargin
deriving DecidableEq, Repr

def Crash.message : Crash → String
  | .absentPart => "a tree lacks a part"
  | .notAName => "a declared name is not an identifier"
  | .missingScope => "a function has no scope"
  | .noTokens => "there is no token"
  | .endlessTokens => "the tokens have no end"
  | .frameStatement => "codegen: unhandled statement in frame rewrite"
  | .framePlace => "codegen: unhandled leftvalue in frame rewrite"
  | .frameArithmetic => "codegen: unhandled arithmetic in frame rewrite"
  | .frameFragment => "codegen: unhandled string fragment in frame rewrite"
  | .negativeMargin => "strings: negative Repeat count"

end BatchCompiler
