import BatchCompiler.Number.Binary64.Shortest
import BatchCompiler.Syntax.Node
import BatchCompiler.Text.Blank
import BatchCompiler.Text.Quoted

/-!
# Outlines

A tree as text: one line a node, indented by depth, with the node's own data after its name.
-/

namespace BatchCompiler.Node

def detail : Node → String
  | bool _ v => if v then "true" else "false"
  | number _ v => Number.intText v.toInt
  | float _ v => v.text
  | string _ v => Text.quote v
  | ident _ name => name
  | unary _ op _ => op.text
  | binary _ op _ _ => op.text
  | strCompare _ op _ _ => op.text
  | comment _ text => Text.quote text
  | func _ name _ _ => name
  | _ => ""

def headline (depth : Nat) (n : Node) : String :=
  let line := Text.spaces (2 * depth) ++ n.shape.name
  if n.detail = "" then line ++ "\n" else line ++ " " ++ n.detail ++ "\n"

mutual

def outlineAt (depth : Nat) : Node → String
  | absent => Text.spaces (2 * depth) ++ "<nil>\n"
  | n@(list _ elems) => n.headline depth ++ outlineAll (depth + 1) elems
  | n@(subscript _ a i) => n.headline depth ++ outlineAt (depth + 1) a ++ outlineAt (depth + 1) i
  | n@(unary _ _ e) => n.headline depth ++ outlineAt (depth + 1) e
  | n@(binary _ _ l r) => n.headline depth ++ outlineAt (depth + 1) l ++ outlineAt (depth + 1) r
  | n@(concat _ l r) => n.headline depth ++ outlineAt (depth + 1) l ++ outlineAt (depth + 1) r
  | n@(strCompare _ _ l r) => n.headline depth ++ outlineAt (depth + 1) l ++ outlineAt (depth + 1) r
  | n@(call _ c args) => n.headline depth ++ outlineAt (depth + 1) c ++ outlineAll (depth + 1) args
  | n@(block _ stmts _) => n.headline depth ++ outlineAll (depth + 1) stmts
  | n@(assign _ l r) => n.headline depth ++ outlineAt (depth + 1) l ++ outlineAt (depth + 1) r
  | n@(branch _ c t e) =>
    n.headline depth ++ outlineAt (depth + 1) c ++ outlineAt (depth + 1) t ++
      (if e.isAbsent then "" else outlineAt (depth + 1) e)
  | n@(loop _ c b) => n.headline depth ++ outlineAt (depth + 1) c ++ outlineAt (depth + 1) b
  | n@(ret _ e) => n.headline depth ++ (if e.isAbsent then "" else outlineAt (depth + 1) e)
  | n@(globals _ names) => n.headline depth ++ outlineAll (depth + 1) names
  | n@(func _ _ params body) =>
    n.headline depth ++ outlineAll (depth + 1) params ++ outlineAt (depth + 1) body
  | n@(bool ..) | n@(number ..) | n@(float ..) | n@(string ..) | n@(ident ..) | n@(comment ..)
  | n@(empty ..) => n.headline depth

def outlineAll (depth : Nat) : List Node → String
  | [] => ""
  | n :: rest => outlineAt depth n ++ outlineAll depth rest

end

def outline (n : Node) : String :=
  outlineAt 0 n

end BatchCompiler.Node
