import BatchCompiler.Number.Binary64.Reader
import BatchCompiler.Number.Integer
import BatchCompiler.Syntax.Parser.Basic

/-!
# Expressions

Binary operators associate to the left and bind by precedence; prefix operators bind tighter, calls
and indices tightest. `+`, `==` and `!=` are string operations as soon as one operand is a string.
The recursion is bounded by a fuel argument.
-/

namespace BatchCompiler.Syntax.Parser

def precedence? : TokenKind → Option Nat
  | .star | .slash | .percent => some 13
  | .plus | .minus => some 12
  | .shl | .shr => some 11
  | .lt | .gt | .le | .ge => some 10
  | .eq | .ne => some 9
  | .amp => some 8
  | .caret => some 7
  | .bar => some 6
  | _ => none

def combine (span : Span) (op : TokenKind) (left right : Node) : Node :=
  if left.isStringy || right.isStringy then
    match op with
    | .plus => .concat span left right
    | .eq => .strCompare span .eq left right
    | .ne => .strCompare span .ne left right
    | op => .binary span op left right
  else .binary span op left right

/-- A minus sign in front of a number is part of the number. -/
def applyPrefixOp (span : Span) (op : TokenKind) (operand : Node) : Node :=
  match op, operand with
  | .minus, .number _ v => .number span (-v)
  | op, operand => .unary span op operand

def isPrefixOp : TokenKind → Bool
  | .bang | .tilde | .minus | .plus => true
  | _ => false

def atom? (t : Token) : Option (Parser Node) :=
  match t.kind with
  | .number => some (pure (.number t.span (Number.readClamped t.value)))
  | .float => some <| match Number.Binary64.read t.value with
    | .ok v => pure (.float t.span v)
    | .error _ => fail t.span (.invalidFloat t.value)
  | .string => some (pure (.string t.span t.value))
  | .kwTrue => some (pure (.bool t.span true))
  | .kwFalse => some (pure (.bool t.span false))
  | .ident => some do
    checkName t
    pure (.ident t.span t.value)
  | _ => none

mutual

def primary : (fuel : Nat) → Parser Node
  | 0 => endless
  | fuel + 1 => do
    let t ← current
    match atom? t with
    | some p => do
      advance
      p
    | none =>
      if t.kind = .lbracket then do
        advance
        let elems ← elementsUntil fuel .rbracket
        expect .rbracket .unclosedList
        pure (.list t.span elems)
      else if t.kind = .lparen then do
        advance
        let e ← binary fuel 0
        expect .rparen .unclosedParenthesis
        pure e
      else fail t.span .expectedExpression

def suffixes : (fuel : Nat) → Node → Parser Node
  | 0, _ => endless
  | fuel + 1, e => do
    let t ← current
    if t.kind = .lparen then do
      advance
      if e.isIdent then do
        let args ← elementsUntil fuel .rparen
        expect .rparen .unclosedArguments
        suffixes fuel (.call t.span e args)
      else fail t.span .notCallable
    else if t.kind = .lbracket then do
      advance
      if e.isPlace then do
        let index ← binary fuel 0
        expect .rbracket .unclosedIndex
        suffixes fuel (.subscript t.span e index)
      else fail t.span .notIndexable
    else pure e

def unary : (fuel : Nat) → Parser Node
  | 0 => endless
  | fuel + 1 => do
    let t ← current
    if isPrefixOp t.kind then do
      advance
      let operand ← unary fuel
      pure (applyPrefixOp t.span t.kind operand)
    else do
      let e ← primary fuel
      suffixes fuel e

def binary : (fuel : Nat) → (least : Nat) → Parser Node
  | 0, _ => endless
  | fuel + 1, least => do
    let left ← unary fuel
    operators fuel least left

/-- The operators of precedence `least` or more that follow an operand. -/
def operators : (fuel : Nat) → (least : Nat) → Node → Parser Node
  | 0, _, _ => endless
  | fuel + 1, least, left => do
    let t ← current
    match precedence? t.kind with
    | none => pure left
    | some p =>
      if p < least then pure left
      else do
        advance
        let right ← binary fuel (p + 1)
        operators fuel least (combine t.span t.kind left right)

def elementsUntil : (fuel : Nat) → (closing : TokenKind) → Parser (List Node)
  | 0, _ => endless
  | fuel + 1, closing => do
    if ← check closing then pure [] else elements fuel

def elements : (fuel : Nat) → Parser (List Node)
  | 0 => endless
  | fuel + 1 => do
    let e ← binary fuel 0
    if ← accept .comma then do
      let rest ← elements fuel
      pure (e :: rest)
    else pure [e]

end

def expression (fuel : Nat) : Parser Node := do
  enter
  let e ← binary fuel 0
  leave
  pure e

/-- A condition in parentheses. A comment right after the closing one is kept. -/
def condition (fuel : Nat) (keyword : String) : Parser Node := do
  expect .lparen (.conditionNotOpened keyword)
  let e ← expression fuel
  expect .rparen (.conditionNotClosed keyword)
  pure e

end BatchCompiler.Syntax.Parser
