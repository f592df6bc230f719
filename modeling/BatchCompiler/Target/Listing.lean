import BatchCompiler.Number.Integer
import BatchCompiler.Target.Basic
import BatchCompiler.Text.Blank
import BatchCompiler.Text.Quoted

/-!
# Listings

Target programs as text for a reader: one statement a line with nested bodies indented, or every
statement on a single line.
-/

namespace BatchCompiler.Target

def absentText : String := "<nil>"

mutual

def Place.shown : Place → String
  | .absent => absentText
  | .name n => n
  | .item base index => base.shown ++ "[" ++ index.shown ++ "]"
  | .slot n => "$" ++ Number.intText n

def Index.shown : Index → String
  | .absent => absentText
  | .int v => Number.intText v.toInt
  | .read p => p.shown

end

def Arith.shown : Arith → String
  | .absent => absentText
  | .int v => Number.intText v.toInt
  | .read p => p.shown
  | .unary op e => op.symbol ++ e.shown
  | .binary op l r => "(" ++ l.shown ++ " " ++ op.symbol ++ " " ++ r.shown ++ ")"

def Fragment.shown : Fragment → String
  | .absent => absentText
  | .text s => Text.quote s
  | .read p => p.shown

def fragmentsText (fs : List Fragment) : String :=
  if fs.isEmpty then "\"\"" else " ++ ".intercalate (fs.map Fragment.shown)

def Comparison.shown (c : Comparison) : String :=
  fragmentsText c.left ++ " " ++ c.op.symbol ++ " " ++ fragmentsText c.right

mutual

def Stmt.shown : Stmt → String
  | .absent => absentText
  | .raw t => "raw " ++ Text.quote t
  | .comment t => "# " ++ t
  | .label n => n ++ ":"
  | .jump t => "jump " ++ t
  | .setText dst value => dst.shown ++ " := " ++ fragmentsText value
  | .setNumber dst e => dst.shown ++ " = " ++ e.shown
  | .call callee args =>
    "call " ++ callee.shown ++ "(" ++ ", ".intercalate (args.map fragmentsText) ++ ")"
  | .whenTrue c body => "if " ++ c.shown ++ " \x7b " ++ "; ".intercalate (texts body) ++ " \x7d"
  | .choose c t e =>
    "if " ++ c.shown ++ " \x7b " ++ "; ".intercalate (texts t) ++ " \x7d else \x7b " ++
      "; ".intercalate (texts e) ++ " \x7d"

def texts : List Stmt → List String
  | [] => []
  | s :: rest => s.shown :: texts rest

end

mutual

def Stmt.listing (depth : Nat) : Stmt → String
  | .whenTrue c body =>
    Text.spaces (2 * depth) ++ "if " ++ c.shown ++ " \x7b\n" ++ listingAt (depth + 1) body ++
      Text.spaces (2 * depth) ++ "\x7d\n"
  | .choose c t e =>
    Text.spaces (2 * depth) ++ "if " ++ c.shown ++ " \x7b\n" ++ listingAt (depth + 1) t ++
      Text.spaces (2 * depth) ++ "\x7d else \x7b\n" ++ listingAt (depth + 1) e ++
      Text.spaces (2 * depth) ++ "\x7d\n"
  | s => Text.spaces (2 * depth) ++ s.shown ++ "\n"

def listingAt (depth : Nat) : List Stmt → String
  | [] => ""
  | s :: rest => s.listing depth ++ listingAt depth rest

end

def Program.listing (p : Program) : String :=
  listingAt 0 p

end BatchCompiler.Target
