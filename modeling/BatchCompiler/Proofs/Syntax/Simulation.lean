import BatchCompiler.Syntax.Parser.Statement
import Mathlib.Data.List.Forall2

/-!
# Two parsers side by side

The parser looks at its tokens and at its trees through a few elementary steps only. So a relation
between two states that these steps keep, with relations between trees that the ways of building
them keep, is kept by every parser: run from related states, two parsers come to the same problem or
build related trees. A property of one parser is the case where both states are the same.
-/

namespace BatchCompiler.Syntax

/-- Statements or items with the comments that were drained in front of them and after them. -/
inductive Commented (comments : List Node → List Node → Prop) (R : Node → Node → Prop) :
    List Node → List Node → Prop where
  | comments {cs ds : List Node} (h : comments cs ds) : Commented comments R cs ds
  | cons {cs ds ns ms : List Node} {n m : Node} (h : comments cs ds) (hn : R n m)
    (hRest : Commented comments R ns ms) : Commented comments R (cs ++ n :: ns) (ds ++ m :: ms)

structure Sends (f : Node → Node) (P : Node → Prop) (n m : Node) : Prop where
  eq : m = f n
  holds : P n

section

variable {f : Node → Node} {P : Node → Prop} {ns ms : List Node}

theorem eq_map_of_forall₂_sends (h : List.Forall₂ (Sends f P) ns ms) :
    ms = ns.map f ∧ ∀ n ∈ ns, P n := by
  induction h with
  | nil => exact ⟨rfl, List.forall_mem_nil _⟩
  | cons hn _ ih =>
    exact ⟨by rw [hn.eq, ih.1, List.map_cons], List.forall_mem_cons.mpr ⟨hn.holds, ih.2⟩⟩

theorem Commented.eq_map {comments : List Node → List Node → Prop}
    (h : Commented comments (Sends f P) ns ms)
    (hComments : ∀ {cs ds}, comments cs ds → ds = cs.map f ∧ ∀ n ∈ cs, P n) :
    ms = ns.map f ∧ ∀ n ∈ ns, P n := by
  induction h with
  | comments h => exact hComments h
  | cons h hn _ ih =>
    obtain ⟨rfl, hcs⟩ := hComments h
    refine ⟨by rw [hn.eq, ih.1, List.map_append, List.map_cons], ?_⟩
    exact List.forall_mem_append.mpr ⟨hcs, List.forall_mem_cons.mpr ⟨hn.holds, ih.2⟩⟩

end

/-- How two parsers are related: where the second one has the tokens of the first and what they say
there, what is known of them, and which states and trees correspond. In a loose relation the second
parser may run out of fuel before the first one does. -/
structure Likeness where
  place : Span → Span
  value : Token → String
  known : Token → Prop
  loose : Prop
  state : State → State → Prop
  comments : List Node → List Node → Prop
  expression : Node → Node → Prop
  statement : Node → Node → Prop
  item : Node → Node → Prop

namespace Likeness

variable (S : Likeness)

def token (t : Token) : Token := ⟨t.kind, S.value t, S.place t.span⟩

structure Names (t : Token) : Prop where
  kind : t.kind = .ident
  known : S.known t
  free : Text.startsWith Parser.reservedLead t.value = false

inductive Name : Node → Node → Prop where
  | intro {t : Token} (h : S.Names t) : Name (Parser.nameNode t) (Parser.nameNode (S.token t))

def Optional (R : Node → Node → Prop) (n m : Node) : Prop :=
  R n m ∨ n = .absent ∧ m = .absent

structure Steps : Prop where
  value : ∀ t, t.kind ≠ .string → t.kind ≠ .comment → S.value t = t.value
  current : ∀ {s u}, S.state s u → u.current = S.token s.current ∧ S.known s.current
  advance : ∀ {s u}, S.state s u → S.state s.advance u.advance
  depth : ∀ {s u}, S.state s u → ∀ f : Nat → Nat,
    S.state { s with depth := f s.depth } { u with depth := f u.depth }
  drain : ∀ {s u}, S.state s u →
    S.comments (s.pending.map fun t => .comment t.span t.value)
        (u.pending.map fun t => .comment t.span t.value) ∧
      S.state { s with pending := [] } { u with pending := [] }

structure Expressions : Prop where
  isIdent : ∀ {e e'}, S.expression e e' → e'.isIdent = e.isIdent
  isPlace : ∀ {e e'}, S.expression e e' → e'.isPlace = e.isPlace
  isCall : ∀ {e e'}, S.expression e e' → e'.isCall = e.isCall
  span : ∀ {e e'}, S.expression e e' → e'.span = S.place e.span
  bool : ∀ span v, S.expression (.bool span v) (.bool (S.place span) v)
  number : ∀ span v, S.expression (.number span v) (.number (S.place span) v)
  float : ∀ span v, S.expression (.float span v) (.float (S.place span) v)
  string : ∀ t, t.kind = .string →
    S.expression (.string t.span t.value) (.string (S.place t.span) (S.value t))
  name : ∀ {n m}, S.Name n m → S.expression n m
  list : ∀ span {ns ms}, List.Forall₂ S.expression ns ms →
    S.expression (.list span ns) (.list (S.place span) ms)
  call : ∀ span {e e' ns ms}, e.isIdent = true → S.expression e e' →
    List.Forall₂ S.expression ns ms → S.expression (.call span e ns) (.call (S.place span) e' ms)
  subscript : ∀ span {e e' i i'}, e.isPlace = true → S.expression e e' → S.expression i i' →
    S.expression (.subscript span e i) (.subscript (S.place span) e' i')
  applyPrefixOp : ∀ span op {e e'}, Parser.isPrefixOp op = true → S.expression e e' →
    S.expression (Parser.applyPrefixOp span op e) (Parser.applyPrefixOp (S.place span) op e')
  combine : ∀ span op {l l' r r'}, (Parser.precedence? op).isSome = true → S.expression l l' →
    S.expression r r' →
    S.expression (Parser.combine span op l r) (Parser.combine (S.place span) op l' r')

structure Statements : Prop where
  call : ∀ {e e'}, e.isCall = true → S.expression e e' → S.statement e e'
  assign : ∀ span {l l' r r'}, l.isPlace = true → S.expression l l' → S.expression r r' →
    S.statement (.assign span l r) (.assign (S.place span) l' r')
  block : ∀ span {ns ms}, Commented S.comments S.statement ns ms →
    S.statement (.block span ns false) (.block (S.place span) ms false)
  branch : ∀ span {c c' a a' b b'}, S.expression c c' → S.statement a a' →
    Optional S.statement b b' → S.statement (.branch span c a b) (.branch (S.place span) c' a' b')
  loop : ∀ span {c c' a a'}, S.expression c c' → S.statement a a' →
    S.statement (.loop span c a) (.loop (S.place span) c' a')
  globals : ∀ span {ns ms}, List.Forall₂ S.Name ns ms →
    S.statement (.globals span ns) (.globals (S.place span) ms)
  ret : ∀ span {e e'}, Optional S.expression e e' →
    S.statement (.ret span e) (.ret (S.place span) e')
  empty : ∀ span, S.statement (.empty span) (.empty (S.place span))
  item : ∀ {n m}, S.statement n m → S.item n m
  func : ∀ {t ns ms a a'}, S.Names t → List.Forall₂ S.Name ns ms → S.statement a a' →
    S.item (.func t.span t.value ns a) (.func (S.place t.span) (S.value t) ms a')

inductive Fuel : Nat → Nat → Prop where
  | out {n : Nat} (h : S.loose ∨ n = 0) : Fuel n 0
  | more {m n : Nat} (h : Fuel m n) : Fuel (m + 1) (n + 1)

variable {S}

theorem Steps.value_of_ident (h : S.Steps) {t : Token} (ht : t.kind = .ident) :
    S.value t = t.value :=
  h.value t (by simp [ht]) (by simp [ht])

theorem fuel_self (n : Nat) : S.Fuel n n := by
  induction n with
  | zero => exact .out (.inr rfl)
  | succ n ih => exact .more ih

theorem fuel_of_le (h : S.loose) {m n : Nat} (hLe : n ≤ m) : S.Fuel m n := by
  induction n generalizing m with
  | zero => exact .out (.inl h)
  | succ n ih =>
    cases m with
    | zero => cases hLe
    | succ m => exact .more (ih (Nat.le_of_succ_le_succ hLe))

end Likeness

structure Simulation extends Likeness where
  steps : toLikeness.Steps
  expressions : toLikeness.Expressions
  statements : toLikeness.Statements

theorem State.previous_settle (s : State) (ts : List Token) :
    (s.settle ts).previous = s.previous := by
  induction ts generalizing s with
  | nil => rfl
  | cons t rest ih =>
    unfold State.settle
    split
    · exact ih _
    · rw [ih, State.keepComment]
      split <;> rfl
    · rfl

namespace Parser

inductive Agree {α β : Type} (S : Simulation) (R : α → β → Prop) : Reply α → Reply β → Prop where
  | ok {a : α} {b : β} {s u : State} (hValue : R a b) (hState : S.state s u) :
    Agree S R (.ok a s) (.ok b u)
  | rejected {span : Span} {problem : SyntaxProblem} {s u : State} (hState : S.state s u) :
    Agree S R (.stop (.rejected span problem) s) (.stop (.rejected (S.place span) problem) u)
  | endless {s u : State} (hState : S.state s u) : Agree S R (.stop .endless s) (.stop .endless u)
  | loose {r : Reply α} {u : State} (h : S.loose) : Agree S R r (.stop .endless u)

def Relates {α β : Type} (S : Simulation) (R : α → β → Prop) (p : Parser α) (q : Parser β) : Prop :=
  ∀ s u, S.state s u → Agree S R (p s) (q u)

theorem bind_apply {α β : Type} (p : Parser α) (f : α → Parser β) (s : State) :
    (p >>= f) s = match p s with
      | .ok a s => f a s
      | .stop why s => .stop why s :=
  rfl

section

variable {α β γ δ : Type} {S : Simulation} {R : γ → δ → Prop} {kind : TokenKind}
  {problem : SyntaxProblem}

theorem Relates.of_ok {p : Parser α} {Q : α → α → Prop} (h : Relates S Q p p) {s s' : State} {a : α}
    (hState : S.state s s) (hRun : p s = .ok a s') : Q a a ∧ S.state s' s' := by
  have hAgree := h s s hState
  rw [hRun] at hAgree
  cases hAgree with
  | ok hValue hState' => exact ⟨hValue, hState'⟩

theorem relates_pure {a : γ} {b : δ} (h : R a b) : Relates S R (pure a) (pure b) :=
  fun _ _ hState => .ok h hState

theorem relates_fail {span : Span} :
    Relates S R (fail span problem) (fail (S.place span) problem) :=
  fun _ _ hState => .rejected hState

theorem relates_endless {p : Parser γ} (h : S.loose ∨ p = endless) : Relates S R p endless := by
  intro s u hState
  rcases h with h | rfl
  · exact .loose h
  · exact .endless hState

theorem Relates.bind {Q : α → β → Prop} {p : Parser α} {q : Parser β} {f : α → Parser γ}
    {g : β → Parser δ} (hp : Relates S Q p q) (hf : ∀ a b, Q a b → Relates S R (f a) (g b)) :
    Relates S R (p >>= f) (q >>= g) := by
  intro s u hState
  rw [bind_apply, bind_apply]
  have hFirst := hp s u hState
  generalize p s = r at hFirst
  generalize q u = r' at hFirst
  cases hFirst with
  | ok hValue hState' => exact hf _ _ hValue _ _ hState'
  | rejected hState' => exact .rejected hState'
  | endless hState' => exact .endless hState'
  | loose h => exact .loose h

theorem relates_ite {c : Prop} [Decidable c] {p p' : Parser γ} {q q' : Parser δ}
    (hp : c → Relates S R p q) (hq : ¬c → Relates S R p' q') :
    Relates S R (if c then p else p') (if c then q else q') := by
  split
  · next h => exact hp h
  · next h => exact hq h

theorem relates_enter : Relates S (fun _ _ => True) enter enter :=
  fun _ _ hState => .ok trivial (S.steps.depth hState (· + 1))

theorem relates_leave : Relates S (fun _ _ => True) leave leave :=
  fun _ _ hState => .ok trivial (S.steps.depth hState (· - 1))

theorem relates_drainComments : Relates S S.comments drainComments drainComments :=
  fun _ _ hState => .ok (S.steps.drain hState).1 (S.steps.drain hState).2

theorem relates_current {f : Token → Parser γ} {g : Token → Parser δ}
    (h : ∀ t, S.known t → Relates S R (f t) (g (S.token t))) :
    Relates S R (current >>= f) (current >>= g) := by
  intro s u hState
  obtain ⟨hCurrent, hKnown⟩ := S.steps.current hState
  rw [bind_apply, bind_apply, current, current, hCurrent]
  exact h s.current hKnown s u hState

section

variable {f : Unit → Parser γ} {g : Unit → Parser δ}

theorem relates_advance (h : Relates S R (f ()) (g ())) :
    Relates S R (advance >>= f) (advance >>= g) :=
  fun _ _ hState => h _ _ (S.steps.advance hState)

theorem relates_expect (h : Relates S R (f ()) (g ())) :
    Relates S R (expect kind problem >>= f) (expect kind problem >>= g) := by
  refine Relates.bind (Q := Eq) (fun s u hState => ?_) fun _ _ _ => h
  rw [expect, expect, (S.steps.current hState).1, Likeness.token]
  split
  · exact .ok rfl (S.steps.advance hState)
  · exact .rejected hState

theorem relates_checkName {t : Token} (hValue : S.value t = t.value)
    (h : Text.startsWith reservedLead t.value = false → Relates S R (f ()) (g ())) :
    Relates S R (checkName t >>= f) (checkName (S.token t) >>= g) := by
  unfold checkName Likeness.token
  rw [hValue]
  split
  · exact fun s u hState => .rejected hState
  · next hFree => exact fun s u hState => h (Bool.not_eq_true _ ▸ hFree) s u hState

end

section

variable {f : Bool → Parser γ} {g : Bool → Parser δ}

theorem relates_check (h : ∀ b, Relates S R (f b) (g b)) :
    Relates S R (check kind >>= f) (check kind >>= g) := by
  intro s u hState
  rw [bind_apply, bind_apply, check, check, (S.steps.current hState).1]
  exact h _ s u hState

theorem relates_accept (h : ∀ b, Relates S R (f b) (g b)) :
    Relates S R (accept kind >>= f) (accept kind >>= g) := by
  refine Relates.bind (Q := Eq) (fun s u hState => ?_) fun b _ hb => hb ▸ h b
  rw [accept, accept, (S.steps.current hState).1, Likeness.token]
  split
  · exact .ok rfl (S.steps.advance hState)
  · exact .ok rfl hState

end

theorem relates_identifier {f : Token → Parser γ} {g : Token → Parser δ}
    (h : ∀ t, S.Names t → Relates S R (f t) (g (S.token t))) :
    Relates S R
      (expect .ident problem >>= fun _ => previous >>= fun t => checkName t >>= fun _ => f t)
      (expect .ident problem >>= fun _ => previous >>= fun t => checkName t >>= fun _ => g t) := by
  intro s u hState
  obtain ⟨hCurrent, hKnown⟩ := S.steps.current hState
  have hKind : u.current.kind = s.current.kind := by rw [hCurrent, Likeness.token]
  rw [bind_apply, bind_apply, expect, expect, hKind]
  by_cases hIdent : s.current.kind = .ident
  · have hPrevious : s.advance.previous = s.current := State.previous_settle _ _
    have hPrevious' : u.advance.previous = S.token s.current :=
      (State.previous_settle _ _).trans hCurrent
    rw [if_pos hIdent, if_pos hIdent]
    dsimp only
    rw [bind_apply, bind_apply, previous, previous, hPrevious, hPrevious']
    refine relates_checkName (S.steps.value_of_ident hIdent) (fun hFree => ?_) _ _
      (S.steps.advance hState)
    exact h _ ⟨hIdent, hKnown, hFree⟩
  · rw [if_neg hIdent, if_neg hIdent, hCurrent]
    exact .rejected hState

end

variable {S : Simulation}

theorem relates_atom {t : Token} (ht : S.known t) :
    (atom? t = none ∧ atom? (S.token t) = none) ∨
      ∃ p q, atom? t = some p ∧ atom? (S.token t) = some q ∧
        Relates S S.expression p q := by
  have hValue := S.steps.value t
  obtain ⟨kind, value, span⟩ := t
  cases kind with
  | number =>
    refine .inr ⟨_, _, rfl, rfl, ?_⟩
    rw [Likeness.token, hValue (by simp) (by simp)]
    exact relates_pure (S.expressions.number _ _)
  | float =>
    refine .inr ⟨_, _, rfl, rfl, ?_⟩
    rw [Likeness.token, hValue (by simp) (by simp)]
    dsimp only
    split
    · exact relates_pure (S.expressions.float _ _)
    · exact relates_fail
  | string => exact .inr ⟨_, _, rfl, rfl, relates_pure (S.expressions.string _ rfl)⟩
  | kwTrue => exact .inr ⟨_, _, rfl, rfl, relates_pure (S.expressions.bool _ true)⟩
  | kwFalse => exact .inr ⟨_, _, rfl, rfl, relates_pure (S.expressions.bool _ false)⟩
  | ident =>
    refine .inr ⟨_, _, rfl, rfl, relates_checkName (hValue (by simp) (by simp)) fun hFree => ?_⟩
    exact relates_pure (S.expressions.name (.intro ⟨rfl, ht, hFree⟩))
  | _ => exact .inl ⟨rfl, rfl⟩

section

variable (S) in
structure RelateExpressions (m n : Nat) : Prop where
  primary : Relates S S.expression (primary m) (primary n)
  suffixes : ∀ e e', S.expression e e' →
    Relates S S.expression (suffixes m e) (suffixes n e')
  unary : Relates S S.expression (unary m) (unary n)
  binary : ∀ least, Relates S S.expression (binary m least) (binary n least)
  operators : ∀ least l l', S.expression l l' →
    Relates S S.expression (operators m least l) (operators n least l')
  elementsUntil : ∀ closing, Relates S (List.Forall₂ S.expression)
    (elementsUntil m closing) (elementsUntil n closing)
  elements : Relates S (List.Forall₂ S.expression) (elements m) (elements n)

variable {m n : Nat}

theorem relateExpressions_out (h : S.loose ∨ m = 0) : RelateExpressions S m 0 where
  primary := by
    rw [Parser.primary.eq_1]
    exact relates_endless (h.imp_right fun h => by rw [h, Parser.primary])
  suffixes e e' _ := by
    rw [Parser.suffixes.eq_1]
    exact relates_endless (h.imp_right fun h => by rw [h, Parser.suffixes])
  unary := by
    rw [Parser.unary.eq_1]
    exact relates_endless (h.imp_right fun h => by rw [h, Parser.unary])
  binary least := by
    rw [Parser.binary.eq_1]
    exact relates_endless (h.imp_right fun h => by rw [h, Parser.binary])
  operators least l l' _ := by
    rw [Parser.operators.eq_1]
    exact relates_endless (h.imp_right fun h => by rw [h, Parser.operators])
  elementsUntil closing := by
    rw [Parser.elementsUntil.eq_1]
    exact relates_endless (h.imp_right fun h => by rw [h, Parser.elementsUntil])
  elements := by
    rw [Parser.elements.eq_1]
    exact relates_endless (h.imp_right fun h => by rw [h, Parser.elements])

variable (ih : RelateExpressions S m n)

include ih

theorem relates_primary_succ :
    Relates S S.expression (primary (m + 1)) (primary (n + 1)) := by
  rw [primary, primary]
  refine relates_current fun t ht => ?_
  rcases relates_atom ht with ⟨hNone, hNone'⟩ | ⟨p, q, hSome, hSome', hAtom⟩
  · rw [hNone, hNone']
    refine relates_ite (fun _ => ?_) fun _ => relates_ite (fun _ => ?_) fun _ => relates_fail
    · refine relates_advance ((ih.elementsUntil _).bind fun ns ms hElems => ?_)
      exact relates_expect (relates_pure (S.expressions.list t.span hElems))
    · refine relates_advance ((ih.binary 0).bind fun e e' he => ?_)
      exact relates_expect (relates_pure he)
  · rw [hSome, hSome']
    exact relates_advance hAtom

theorem relates_suffixes_succ {e e' : Node} (he : S.expression e e') :
    Relates S S.expression (suffixes (m + 1) e) (suffixes (n + 1) e') := by
  rw [suffixes, suffixes]
  refine relates_current fun t _ => ?_
  rw [S.expressions.isIdent he, S.expressions.isPlace he]
  refine relates_ite (fun _ => relates_advance ?_) fun _ =>
    relates_ite (fun _ => relates_advance ?_) fun _ => relates_pure he
  · refine relates_ite (fun hIdent => ?_) fun _ => relates_fail
    refine (ih.elementsUntil _).bind fun ns ms hArgs => relates_expect ?_
    exact ih.suffixes _ _ (S.expressions.call t.span hIdent he hArgs)
  · refine relates_ite (fun hPlace => ?_) fun _ => relates_fail
    refine (ih.binary 0).bind fun i i' hIndex => relates_expect ?_
    exact ih.suffixes _ _ (S.expressions.subscript t.span hPlace he hIndex)

theorem relates_unary_succ :
    Relates S S.expression (unary (m + 1)) (unary (n + 1)) := by
  rw [unary, unary]
  refine relates_current fun t _ => relates_ite (fun hOp => ?_) fun _ => ?_
  · refine relates_advance (ih.unary.bind fun e e' he => relates_pure ?_)
    exact S.expressions.applyPrefixOp t.span t.kind hOp he
  · exact ih.primary.bind fun e e' he => ih.suffixes e e' he

theorem relates_operators_succ (least : Nat) {l l' : Node} (hl : S.expression l l') :
    Relates S S.expression (operators (m + 1) least l) (operators (n + 1) least l') := by
  rw [operators, operators]
  refine relates_current fun t _ => ?_
  have hKind : (S.token t).kind = t.kind := rfl
  rw [hKind]
  split
  · exact relates_pure hl
  · next p hPrecedence =>
    refine relates_ite (fun _ => relates_pure hl) fun _ => relates_advance ?_
    refine (ih.binary (p + 1)).bind fun r r' hr => ih.operators least _ _ ?_
    exact S.expressions.combine t.span t.kind (by rw [hPrecedence]; rfl) hl hr

theorem relates_elements_succ :
    Relates S (List.Forall₂ S.expression) (elements (m + 1)) (elements (n + 1)) := by
  rw [elements, elements]
  refine (ih.binary 0).bind fun e e' he => relates_accept fun _ => ?_
  refine relates_ite (fun _ => ih.elements.bind fun ns ms hRest => ?_) fun _ => ?_
  · exact relates_pure (.cons he hRest)
  · exact relates_pure (.cons he .nil)

end

theorem relateExpressions {m n : Nat} (hFuel : S.Fuel m n) : RelateExpressions S m n := by
  induction hFuel with
  | out h => exact relateExpressions_out h
  | more _ ih =>
    exact {
      primary := relates_primary_succ ih
      suffixes := fun _ _ he => relates_suffixes_succ ih he
      unary := relates_unary_succ ih
      binary := by
        intro least
        rw [binary, binary]
        exact ih.unary.bind fun l l' hl => ih.operators least l l' hl
      operators := fun least _ _ hl => relates_operators_succ ih least hl
      elementsUntil := by
        intro closing
        rw [elementsUntil, elementsUntil]
        exact relates_check fun _ =>
          relates_ite (fun _ => relates_pure .nil) fun _ => ih.elements
      elements := relates_elements_succ ih }

variable {m n : Nat} (hFuel : S.Fuel m n)

include hFuel

theorem relates_expression : Relates S S.expression (expression m) (expression n) := by
  refine relates_enter.bind fun _ _ _ => ?_
  refine ((relateExpressions hFuel).binary 0).bind fun e e' he => ?_
  exact relates_leave.bind fun _ _ _ => relates_pure he

theorem relates_condition (keyword : String) :
    Relates S S.expression (condition m keyword) (condition n keyword) := by
  refine relates_expect ((relates_expression hFuel).bind fun e e' he => ?_)
  exact relates_expect (relates_pure he)

theorem relates_names (missing : SyntaxProblem) :
    Relates S (List.Forall₂ S.Name) (names missing m) (names missing n) := by
  induction hFuel with
  | out h =>
    rw [names.eq_1]
    exact relates_endless (h.imp_right fun h => by rw [h, names])
  | more _ ih =>
    rw [names, names]
    refine relates_identifier fun t ht => relates_accept fun _ => ?_
    refine relates_ite (fun _ => ih.bind fun ns ms hRest => ?_) fun _ => ?_
    · exact relates_pure (.cons (.intro ht) hRest)
    · exact relates_pure (.cons (.intro ht) .nil)

theorem relates_simpleStatement :
    Relates S S.statement (simpleStatement m) (simpleStatement n) := by
  refine (relates_expression hFuel).bind fun e e' he => relates_current fun t _ => ?_
  rw [S.expressions.isPlace he, S.expressions.isCall he, S.expressions.span he]
  refine relates_ite (fun _ => relates_ite (fun hPlace => ?_) fun _ => relates_fail) fun _ =>
    relates_ite (fun hCall => ?_) fun _ => relates_fail
  · refine relates_advance ((relates_expression hFuel).bind fun r r' hr => ?_)
    exact relates_expect (relates_pure (S.statements.assign t.span hPlace he hr))
  · exact relates_expect (relates_pure (S.statements.call hCall he))

omit hFuel in
theorem relates_commented {Q R : Node → Node → Prop} (hQ : ∀ {n m}, Q n m → R n m)
    {cs ds : List Node} (h : S.comments cs ds) {p q : Parser Node} {rest rest' : Parser (List Node)}
    (hp : Relates S Q p q) (hRest : Relates S (Commented S.comments R) rest rest') :
    Relates S (Commented S.comments R)
      (p >>= fun stmt => rest >>= fun others => pure (cs ++ stmt :: others))
      (q >>= fun stmt => rest' >>= fun others => pure (ds ++ stmt :: others)) :=
  hp.bind fun _ _ hn => hRest.bind fun _ _ hOthers => relates_pure (.cons h (hQ hn) hOthers)

variable (S m n) in
structure RelateStatements : Prop where
  block : Relates S S.statement (block m) (block n)
  blockItems : Relates S (Commented S.comments S.statement) (blockItems m) (blockItems n)
  statement : Relates S S.statement (statement m) (statement n)

section

omit hFuel

theorem relateStatements_out (h : S.loose ∨ m = 0) : RelateStatements S m 0 where
  block := by
    rw [Parser.block.eq_1]
    exact relates_endless (h.imp_right fun h => by rw [h, Parser.block])
  blockItems := by
    rw [Parser.blockItems.eq_1]
    exact relates_endless (h.imp_right fun h => by rw [h, Parser.blockItems])
  statement := by
    rw [Parser.statement.eq_1]
    exact relates_endless (h.imp_right fun h => by rw [h, Parser.statement])

variable (ih : RelateStatements S m n)

include ih

theorem relates_block_succ :
    Relates S S.statement (block (m + 1)) (block (n + 1)) := by
  rw [block, block]
  refine relates_current fun t _ => relates_expect ?_
  refine ih.blockItems.bind fun ns ms hStmts => ?_
  exact relates_expect (relates_pure (S.statements.block t.span hStmts))

theorem relates_blockItems_succ : Relates S (Commented S.comments S.statement)
    (blockItems (m + 1)) (blockItems (n + 1)) := by
  rw [blockItems, blockItems]
  refine relates_drainComments.bind fun cs ds hComments => ?_
  refine relates_current fun t _ =>
    relates_ite (fun _ => relates_pure (.comments hComments)) fun _ => ?_
  exact relates_commented id hComments ih.statement ih.blockItems

theorem relates_statement_succ (hFuel : S.Fuel m n) :
    Relates S S.statement (statement (m + 1)) (statement (n + 1)) := by
  rw [statement, statement]
  refine relates_current fun t _ => ?_
  have hKind : (S.token t).kind = t.kind := rfl
  rw [hKind]
  split
  · refine relates_advance ((relates_condition hFuel _).bind fun c c' hc => ?_)
    refine ih.statement.bind fun a a' ha => relates_accept fun _ => ?_
    refine relates_ite (fun _ => ih.statement.bind fun b b' hb => ?_) fun _ => ?_
    · exact relates_pure (S.statements.branch t.span hc ha (.inl hb))
    · exact relates_pure (S.statements.branch t.span hc ha (.inr ⟨rfl, rfl⟩))
  · refine relates_advance ((relates_condition hFuel _).bind fun c c' hc => ?_)
    exact ih.statement.bind fun a a' ha => relates_pure (S.statements.loop t.span hc ha)
  · exact ih.block
  · refine relates_advance ((relates_names hFuel _).bind fun ns ms hNames => ?_)
    exact relates_expect (relates_pure (S.statements.globals t.span hNames))
  · refine relates_advance (relates_check fun _ => relates_ite (fun _ => ?_) fun _ => ?_)
    · exact relates_expect (relates_pure (S.statements.ret t.span (.inr ⟨rfl, rfl⟩)))
    · refine (relates_expression hFuel).bind fun e e' he => ?_
      exact relates_expect (relates_pure (S.statements.ret t.span (.inl he)))
  · exact relates_advance (relates_pure (S.statements.empty t.span))
  · exact relates_fail
  · exact relates_simpleStatement hFuel

end

theorem relateStatements : RelateStatements S m n := by
  induction hFuel with
  | out h => exact relateStatements_out h
  | more hFuel ih =>
    exact ⟨relates_block_succ ih, relates_blockItems_succ ih, relates_statement_succ ih hFuel⟩

theorem relates_functionRest {name : Token} (hName : S.Names name) {ns ms : List Node}
    (hParams : List.Forall₂ S.Name ns ms) :
    Relates S S.item
      (do
        expect .rparen .parametersNotClosed
        let t ← current
        if t.kind = .lbrace then do
          let body ← block m
          pure (.func name.span name.value ns body)
        else fail t.span (.bodyNotOpened name.value))
      (do
        expect .rparen .parametersNotClosed
        let t ← current
        if t.kind = .lbrace then do
          let body ← block n
          pure (.func (S.token name).span (S.token name).value ms body)
        else fail t.span (.bodyNotOpened (S.token name).value)) := by
  refine relates_expect (relates_current fun t _ => ?_)
  have hValue : (S.token name).value = name.value := S.steps.value_of_ident hName.kind
  refine relates_ite (fun _ => ?_) fun _ => ?_
  · refine (relateStatements hFuel).block.bind fun a a' ha => ?_
    exact relates_pure (S.statements.func hName hParams ha)
  · rw [hValue]
    exact relates_fail

theorem relates_function : Relates S S.item (function m) (function n) := by
  refine relates_identifier fun name hName => relates_expect ?_
  refine relates_check fun _ => relates_ite (fun _ => ?_) fun _ => ?_
  · exact relates_functionRest hFuel hName .nil
  · exact (relates_names hFuel _).bind fun ns ms hNames => relates_functionRest hFuel hName hNames

theorem relates_items :
    Relates S (Commented S.comments S.item) (items m) (items n) := by
  induction hFuel with
  | out h =>
    rw [items.eq_1]
    exact relates_endless (h.imp_right fun h => by rw [h, items])
  | more hFuel ih =>
    rw [items, items]
    refine relates_drainComments.bind fun cs ds hComments => ?_
    refine relates_check fun _ =>
      relates_ite (fun _ => relates_pure (.comments hComments)) fun _ => ?_
    refine relates_accept fun _ => relates_ite (fun _ => ?_) fun _ => ?_
    · exact relates_commented id hComments (relates_function hFuel) ih
    · exact relates_commented S.statements.item hComments (relateStatements hFuel).statement ih

theorem relates_program : Relates S
    (fun n m => ∃ span ns ms, n = .block span ns true ∧ m = .block (S.place span) ms true ∧
      Commented S.comments S.item ns ms) (program m) (program n) := by
  refine relates_current fun t _ => (relates_items hFuel).bind fun ns ms hItems => ?_
  exact relates_pure ⟨t.span, ns, ms, rfl, rfl, hItems⟩

end Parser

end BatchCompiler.Syntax
