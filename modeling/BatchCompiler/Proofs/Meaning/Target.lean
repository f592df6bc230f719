import BatchCompiler.Proofs.Meaning.Observation
import BatchCompiler.Proofs.Meaning.Store
import BatchCompiler.Target.Basic

/-!
# The meaning of target programs

A target program runs with the positional arguments of the call it was started by. What is still to
be run is a statement list. A jump resumes after its label, wherever that is nested, and then goes on
with what follows the conditionals around it.
-/

namespace BatchCompiler.Target

open Meaning

def Op.token : Op → TokenKind
  | neg | sub => .minus
  | not => .bang
  | compl => .tilde
  | add => .plus
  | mul => .star
  | div => .slash
  | rem => .percent
  | and => .amp
  | or => .bar
  | xor => .caret
  | shl => .shl
  | shr => .shr
  | unknown => .unknown

def CmpOp.token : CmpOp → TokenKind
  | eq => .eq
  | ne => .ne
  | lt => .lt
  | le => .le
  | gt => .gt
  | ge => .ge
  | unknown => .unknown

abbrev Arguments := Int → String

mutual

/-- What an assignment to the place changes. An argument gives the name of a variable. -/
def Place.location (args : Arguments) (σ : Store) : Place → Location
  | .absent => default
  | .name n => { name := n }
  | .item base index => (base.location args σ).item (index.value args σ)
  | .slot n => { name := args n }

def Place.value (args : Arguments) (σ : Store) : Place → String
  | .absent => ""
  | .name n => σ { name := n }
  | .item base index => σ ((base.location args σ).item (index.value args σ))
  | .slot n => args n

def Index.value (args : Arguments) (σ : Store) : Index → String
  | .absent => ""
  | .int v => Number.intText v.toInt
  | .read p => p.value args σ

end

def Arith.value (I : Interpretation) (args : Arguments) (σ : Store) : Arith → String
  | .absent => ""
  | .int v => Number.intText v.toInt
  | .read p => p.value args σ
  | .unary op e => I.unary op.token (e.value I args σ)
  | .binary op l r => I.binary op.token (l.value I args σ) (r.value I args σ)

def Fragment.value (args : Arguments) (σ : Store) : Fragment → String
  | .absent => ""
  | .text s => s
  | .read p => p.value args σ

def textOf (args : Arguments) (σ : Store) : List Fragment → String
  | [] => ""
  | f :: rest => f.value args σ ++ textOf args σ rest

theorem textOf_append (args : Arguments) (σ : Store) (a b : List Fragment) :
    textOf args σ (a ++ b) = textOf args σ a ++ textOf args σ b := by
  induction a with
  | nil => simp [textOf]
  | cons f rest ih => simp [textOf, ih, String.append_assoc]

def Comparison.holds (I : Interpretation) (args : Arguments) (σ : Store) (c : Comparison) : Bool :=
  I.compare c.op.token (textOf args σ c.left) (textOf args σ c.right)

def Stmt.perform (I : Interpretation) (args : Arguments) (w : World) : Stmt → World
  | .setText dst value =>
    { w with store := w.store.set (dst.location args w.store) (textOf args w.store value) }
  | .setNumber dst e =>
    { w with store := w.store.set (dst.location args w.store) (e.value I args w.store) }
  | .call callee values =>
    w.call I ⟨callee.value args w.store, values.map (textOf args w.store)⟩
  | _ => w

mutual

def Stmt.afterLabel? (label : String) : Stmt → Option (List Stmt)
  | .label name => if name = label then some [] else none
  | .whenTrue _ body => afterLabel? label body
  | .choose _ thenBody elseBody =>
    match afterLabel? label thenBody with
    | some rest => some rest
    | none => afterLabel? label elseBody
  | _ => none

/-- What follows the label, and then what follows the conditionals around it. -/
def afterLabel? (label : String) : List Stmt → Option (List Stmt)
  | [] => none
  | s :: rest =>
    match s.afterLabel? label with
    | some inner => some (inner ++ rest)
    | none => afterLabel? label rest

end

theorem afterLabel?_append (label : String) (a b : List Stmt) :
    afterLabel? label (a ++ b) =
      match afterLabel? label a with
      | some rest => some (rest ++ b)
      | none => afterLabel? label b := by
  induction a with
  | nil => simp only [List.nil_append, afterLabel?]
  | cons s rest ih =>
    simp only [List.cons_append, afterLabel?, ih]
    cases s.afterLabel? label with
    | some inner => simp only [List.append_assoc]
    | none => rfl

def hasLabel (label : String) (code : List Stmt) : Bool :=
  (afterLabel? label code).isSome

def Stmt.hasLabel (label : String) (s : Stmt) : Bool :=
  (s.afterLabel? label).isSome

@[simp] theorem hasLabel_nil (label : String) : hasLabel label [] = false := rfl

@[simp] theorem hasLabel_cons (label : String) (s : Stmt) (rest : List Stmt) :
    hasLabel label (s :: rest) = (s.hasLabel label || hasLabel label rest) := by
  simp only [hasLabel, Stmt.hasLabel, afterLabel?]
  cases s.afterLabel? label <;> rfl

@[simp] theorem hasLabel_append (label : String) (a b : List Stmt) :
    hasLabel label (a ++ b) = (hasLabel label a || hasLabel label b) := by
  simp only [hasLabel, afterLabel?_append]
  cases afterLabel? label a <;> rfl

@[simp] theorem Stmt.hasLabel_whenTrue (label : String) (cond : Comparison) (body : List Stmt) :
    (Stmt.whenTrue cond body).hasLabel label = Target.hasLabel label body := rfl

@[simp] theorem Stmt.hasLabel_choose (label : String) (cond : Comparison)
    (thenBody elseBody : List Stmt) :
    (Stmt.choose cond thenBody elseBody).hasLabel label =
      (Target.hasLabel label thenBody || Target.hasLabel label elseBody) := by
  simp only [Stmt.hasLabel, Target.hasLabel, Stmt.afterLabel?]
  cases Target.afterLabel? label thenBody <;> rfl

@[simp] theorem Stmt.hasLabel_label (label name : String) :
    (Stmt.label name).hasLabel label = decide (name = label) := by
  simp only [Stmt.hasLabel, Stmt.afterLabel?]
  split <;> simp_all

@[simp] theorem Stmt.hasLabel_jump (label target : String) :
    (Stmt.jump target).hasLabel label = false := rfl

theorem hasLabel_of_afterLabel? {label : String} {code rest : List Stmt}
    (h : afterLabel? label code = some rest) : hasLabel label code = true := by
  rw [hasLabel, h]
  rfl

abbrev Move := Turn Stmt Comparison (List Stmt)

/-- `resume` says where a jump goes on. One to the end of the file stops, and so does one to a label
that is not there. -/
def moveBy (resume : String → Option (List Stmt)) : List Stmt → Move
  | [] => .stop
  | .jump target :: _ =>
    if target = endOfFile then .stop
    else match resume target with
      | some code => .go code
      | none => .stop
  | .whenTrue cond body :: rest => .test cond (body ++ rest) rest
  | .choose cond thenBody elseBody :: rest => .test cond (thenBody ++ rest) (elseBody ++ rest)
  | .setText dst value :: rest => .act (.setText dst value) rest
  | .setNumber dst e :: rest => .act (.setNumber dst e) rest
  | .call callee values :: rest => .act (.call callee values) rest
  | .raw text :: rest => .act (.raw text) rest
  | _ :: rest => .go rest

def move (p : Program) : List Stmt → Move :=
  moveBy fun label => afterLabel? label p

structure Config where
  code : List Stmt
  world : World

def step (I : Interpretation) (args : Arguments) (p : Program) (s : Config) : Option Config :=
  match move p s.code with
  | .stop => none
  | .go code => some ⟨code, s.world⟩
  | .act stmt code => some ⟨code, stmt.perform I args s.world⟩
  | .test cond yes no => some ⟨if cond.holds I args s.world.store then yes else no, s.world⟩

def run (I : Interpretation) (args : Arguments) (p : Program) : (steps : Nat) → Config → Option World
  | 0, _ => none
  | steps + 1, s =>
    match step I args p s with
    | none => some s.world
    | some next => run I args p steps next

def Halts (I : Interpretation) (args : Arguments) (p : Program) (w v : World) : Prop :=
  ∃ steps, run I args p steps ⟨p, w⟩ = some v

end BatchCompiler.Target
