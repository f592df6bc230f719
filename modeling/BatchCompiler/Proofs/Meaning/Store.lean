import BatchCompiler.Number.Integer
import BatchCompiler.Source.Token

/-!
# Stores

What programs are given a meaning in. A store holds a text for every variable and for every list
element, and a world also remembers the calls that were made. What the operators compute and what a
call does to the store is left open: it is the interpretation that says so.
-/

namespace BatchCompiler.Meaning

/-- A variable, or the list element that the texts of its indices select. -/
structure Location where
  name : String
  indices : List String := []
deriving DecidableEq, Repr, Inhabited

def Location.item (l : Location) (index : String) : Location :=
  { l with indices := l.indices ++ [index] }

abbrev Store := Location → String

def Store.set (σ : Store) (l : Location) (text : String) : Store :=
  fun k => if k = l then text else σ k

@[simp] theorem Store.set_self (σ : Store) (l : Location) (text : String) :
    σ.set l text l = text :=
  if_pos rfl

theorem Store.set_of_ne (σ : Store) {l k : Location} (text : String) (h : k ≠ l) :
    σ.set l text k = σ k :=
  if_neg h

structure Event where
  command : String
  args : List String
deriving DecidableEq, Repr, Inhabited

structure World where
  store : Store
  events : List Event := []

/-- Elements of a list literal are evaluated before any of them is stored, or each in its turn. -/
inductive ListOrder where
  | together
  | inTurn
deriving DecidableEq, Repr

/-- The meaning of everything that statements and expressions do not fix themselves. The effect of a
call may depend on all calls made so far, the last of which is the call itself. -/
structure Interpretation where
  unary : TokenKind → String → String
  binary : TokenKind → String → String → String
  compare : TokenKind → String → String → Bool
  truth : String → Bool
  event : String → List String → Event
  effect : List Event → Store → Store
  lists : ListOrder

def truthText (b : Bool) : String := if b then "1" else "0"

def positionText (position : Nat) : String :=
  Number.intText (Int64.ofNat position).toInt

def World.call (I : Interpretation) (w : World) (e : Event) : World :=
  { store := I.effect (w.events ++ [e]) w.store, events := w.events ++ [e] }

end BatchCompiler.Meaning
