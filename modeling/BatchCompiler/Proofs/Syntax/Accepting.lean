import BatchCompiler.Proofs.Syntax.Reading

/-!
# Parsing accepts expressions

What the grammar derives as an expression is read in full and gives the tree of the derivation, if
what follows cannot extend it. The fuel is bounded by the number of tokens. A derivation of
operators grows to the left and the parser goes to the right; so the induction says where the parser
stands after the left part, with the operators that follow still to be read.
-/

namespace BatchCompiler.Syntax

namespace Parser

variable {more more ts rest : List Token} {kinds : List TokenKind} {n n : Node}
  {least row fuel : Nat} {t op : Token} {problem : SyntaxProblem}

def Answers {α : Type} (p : Parser α) (ts rest : List Token) (T : Reply α → Prop) : Prop :=
  ∀ s, rest ≠ [] → s.ahead = ts ++ rest → T (p s)

def Accepts {α : Type} (p : Parser α) (ts rest : List Token) (P : α → Prop) : Prop :=
  Answers p ts rest fun reply => ∃ a s', reply = .ok a s' ∧ P a ∧ s'.ahead = rest

/-- The parser takes the tokens and goes on as the other one does in front of the rest. -/
def Continues {α : Type} (p : Parser α) (ts rest : List Token) (q : Parser α) : Prop :=
  Answers p ts rest fun reply => ∃ s', reply = q s' ∧ s'.ahead = rest

theorem current_eq {s : State} (hs : s.ahead = t :: more) : s.current = t :=
  (List.cons.inj hs).1

section

variable {α β : Type} {t : Token} {us ts rest : List Token} {P : β → Prop} {T : Reply β → Prop}

variable {q : Parser β} {p : Parser α} {k : α → Parser β} {Q : α → Prop} {kind : TokenKind}

theorem accepts_pure {b : β} (h : P b) : Accepts (pure b) [] rest P := by
  intro s _ hs
  exact ⟨b, s, rfl, h, hs⟩

theorem continues_self : Continues q [] rest q := by
  intro s _ hs
  exact ⟨s, rfl, hs⟩

theorem Accepts.bind (hp : Accepts p us (ts ++ rest) Q) (hk : ∀ a, Q a → Answers (k a) ts rest T) :
    Answers (p >>= k) (us ++ ts) rest T := by
  intro s hRest hs
  rw [List.append_assoc] at hs
  obtain ⟨a, s₁, hRun, hQ, hs₁⟩ := hp s (by simp [hRest]) hs
  rw [bind_apply, hRun]
  exact hk a hQ s₁ hRest hs₁

theorem Accepts.last (hp : Accepts p ts rest Q) (hk : ∀ a, Q a → Answers (k a) [] rest T) :
    Answers (p >>= k) ts rest T := by
  rw [← List.append_nil ts]
  exact Accepts.bind hp hk

theorem Continues.trans {p : Parser β} (hp : Continues p us (ts ++ rest) q)
    (hq : Answers q ts rest T) : Answers p (us ++ ts) rest T := by
  intro s hRest hs
  rw [List.append_assoc] at hs
  obtain ⟨s₁, hRun, hs₁⟩ := hp s (by simp [hRest]) hs
  rw [hRun]
  exact hq s₁ hRest hs₁

theorem Continues.last {p : Parser β} (hp : Continues p ts rest q) (hq : Answers q [] rest T) :
    Answers p ts rest T := by
  rw [← List.append_nil ts]
  exact Continues.trans hp hq

theorem Silent.answers (hp : Silent p Q) (hk : ∀ a, Q a → Answers (k a) ts rest T) :
    Answers (p >>= k) ts rest T := by
  intro s hRest hs
  obtain ⟨a, s₁, hRun, hQ, hCurrent, hTokens⟩ := hp s
  rw [bind_apply, hRun]
  exact hk a hQ s₁ hRest (by rwa [State.ahead, hCurrent, hTokens])

theorem answers_checkName {k : Unit → Parser β}
    (hFree : Text.startsWith reservedLead t.value = false) (h : Answers (k ()) ts rest T) :
    Answers (checkName t >>= k) ts rest T := by
  rw [checkName, hFree]
  exact h

theorem answers_current {k : Token → Parser β} (ht : ts ++ rest = t :: more)
    (h : Answers (k t) ts rest T) : Answers (current >>= k) ts rest T := by
  intro s hRest hs
  have hCurrent := current_eq (hs.trans ht)
  subst hCurrent
  exact h s hRest hs

theorem answers_check {k : Bool → Parser β} (ht : ts ++ rest = t :: more)
    (h : Answers (k (decide (t.kind = kind))) ts rest T) :
    Answers (check kind >>= k) ts rest T := by
  intro s hRest hs
  have hCurrent := current_eq (hs.trans ht)
  subst hCurrent
  exact h s hRest hs

theorem answers_of_advance {m k : Parser β} (hm : ∀ s, s.current = t → m s = k s.advance)
    (hk : Answers k ts rest T) : Answers m (t :: ts) rest T := by
  intro s hRest hs
  have hTokens : s.rest.filter isSignificant = ts ++ rest := (List.cons.inj hs).2
  have hAhead : s.advance.ahead = ts ++ rest := by
    rw [ahead_advance (by simp [hTokens, hRest]), hTokens]
  rw [hm s (current_eq hs)]
  exact hk s.advance hRest hAhead

theorem answers_advance {k : Unit → Parser β} (hk : Answers (k ()) ts rest T) :
    Answers (advance >>= k) (t :: ts) rest T :=
  answers_of_advance (fun _ _ => rfl) hk

theorem answers_accept {k : Bool → Parser β} (ht : t.kind = kind)
    (hk : Answers (k true) ts rest T) : Answers (accept kind >>= k) (t :: ts) rest T := by
  refine answers_of_advance (fun s hs => ?_) hk
  exact accept_bind_of_kind_eq (by rw [hs, ht])

theorem answers_accept_of_ne {k : Bool → Parser β}
    (hne : ∀ t more, ts ++ rest = t :: more → t.kind ≠ kind) (hk : Answers (k false) ts rest T) :
    Answers (accept kind >>= k) ts rest T := by
  intro s hRest hs
  rw [accept_bind_of_kind_ne (hne s.current _ hs.symm)]
  exact hk s hRest hs

theorem answers_expect {k : Unit → Parser β} (ht : t.kind = kind) (hk : Answers (k ()) ts rest T) :
    Answers (expect kind problem >>= k) (t :: ts) rest T := by
  refine answers_of_advance (fun s hs => ?_) hk
  exact expect_bind_of_kind_eq (by rw [hs, ht])

theorem answers_expect_previous {k : Token → Parser β} (ht : t.kind = kind)
    (hk : Answers (k t) ts rest T) :
    Answers (expect kind problem >>= fun _ => previous >>= k) (t :: ts) rest T := by
  refine answers_of_advance (fun s hs => ?_) hk
  subst hs
  exact expect_previous_bind_of_kind_eq ht

end

def operandStarts : List TokenKind :=
  [.number, .float, .string, .kwTrue, .kwFalse, .ident, .lbracket, .lparen]

def expressionStarts : List TokenKind := operandStarts ++ prefixOperators

def starts : Level → List TokenKind
  | .primary | .postfixed => operandStarts
  | .unary | .binary _ => expressionStarts

def StartsWith (kinds : List TokenKind) (ts : List Token) : Prop :=
  ∃ t us, ts = t :: us ∧ t.kind ∈ kinds

theorem StartsWith.append (h : StartsWith kinds ts) (us : List Token) :
    StartsWith kinds (ts ++ us) := by
  obtain ⟨t, vs, rfl, ht⟩ := h
  exact ⟨t, vs ++ us, rfl, ht⟩

theorem StartsWith.mono {others : List TokenKind} (h : StartsWith kinds ts)
    (hSubset : kinds ⊆ others) : StartsWith others ts := by
  obtain ⟨t, us, rfl, ht⟩ := h
  exact ⟨t, us, rfl, hSubset ht⟩

theorem StartsWith.length_pos (h : StartsWith kinds ts) : 0 < ts.length := by
  obtain ⟨t, us, rfl, _⟩ := h
  exact Nat.succ_pos _

theorem startsWith_of_expression {level : Level} (h : Expression level ts n) :
    StartsWith (starts level) ts := by
  have hOperand : operandStarts ⊆ expressionStarts := List.subset_append_left _ _
  induction h with
  | number hKind | float hKind | string hKind | yes hKind | no hKind | list hKind | enclosed hKind =>
    exact ⟨_, _, rfl, by rw [hKind]; decide⟩
  | name ht => exact ⟨_, _, rfl, by rw [ht.kind]; decide⟩
  | ofPrimary h ih | ofUnary h ih => exact ih
  | call hCallee hName hFirst hParts hListed hLast ih
  | subscript hArray hPlace hFirst hIndex hLast ih =>
    rw [List.append_assoc]
    exact ih.append _
  | ofPostfixed h ih => exact ih.mono hOperand
  | prefixed hOp h ih => exact ⟨_, _, rfl, List.mem_append_right _ hOp⟩
  | binary hLeast hOp hLeft hRight ih => exact ih.append _

/-- What follows does not extend an expression whose operators are of the row `least` or later. -/
def Ends (least : Nat) (rest : List Token) : Prop :=
  ∃ t more, rest = t :: more ∧ t.kind ≠ .lparen ∧ t.kind ≠ .lbracket ∧ Below least t

theorem Ends.mono {other : Nat} (h : Ends least rest) (hLe : least ≤ other) : Ends other rest := by
  obtain ⟨t, more, rfl, hCall, hIndex, hBelow⟩ := h
  exact ⟨t, more, rfl, hCall, hIndex, fun row hRow => Nat.lt_of_lt_of_le (hBelow row hRow) hLe⟩

theorem ends_of_row (h : row? t.kind = some row) : Ends (row + 1) (t :: more) := by
  refine ⟨t, more, rfl, ?_, ?_, fun other hOther => ?_⟩
  · intro hKind
    rw [hKind] at h
    cases h
  · intro hKind
    rw [hKind] at h
    cases h
  · cases h.symm.trans hOther
    exact Nat.lt_succ_self row

def closers : List TokenKind := [.rparen, .rbracket, .comma, .semi, .assign]

theorem ends_of_closer (h : t.kind ∈ closers) : Ends 0 (t :: more) := by
  have hKinds : ∀ kind ∈ closers, kind ≠ .lparen ∧ kind ≠ .lbracket ∧ row? kind = none := by decide
  obtain ⟨hCall, hIndex, hNone⟩ := hKinds t.kind h
  refine ⟨t, more, rfl, hCall, hIndex, fun row hRow => ?_⟩
  rw [hNone] at hRow
  cases hRow

def Completes : Level → List Token → Node → Prop
  | .primary, ts, n => ∀ fuel rest, 3 * ts.length ≤ fuel → Accepts (primary fuel) ts rest (· = n)
  | .postfixed, ts, n => ∀ fuel rest, 3 * ts.length ≤ fuel → ∃ left, fuel ≤ left + ts.length ∧
      Continues (primary fuel >>= suffixes fuel) ts rest (suffixes left n)
  | .unary, ts, n => ∀ fuel rest least, 3 * ts.length + 1 ≤ fuel → Ends least rest →
      Accepts (unary fuel) ts rest (· = n)
  | .binary row, ts, n => ∀ fuel rest least, 3 * ts.length + 2 ≤ fuel → least ≤ row + 6 →
      Ends (row + 1) rest → ∃ left, fuel ≤ left + ts.length ∧
      Continues (binary fuel least) ts rest (operators left least n)

theorem completes_atom {p : Parser Node} (hAtom : atom? t = some p)
    (hp : ∀ rest, Accepts p [] rest (· = n)) : Completes .primary [t] n := by
  intro fuel rest hFuel
  cases fuel with
  | zero => simp at hFuel
  | succ fuel =>
    rw [primary]
    refine answers_current rfl ?_
    rw [hAtom]
    exact answers_advance (hp rest)

theorem accepts_suffixes_ends (n : Node) (hFuel : 0 < fuel) (hEnds : Ends least rest) :
    Accepts (suffixes fuel n) [] rest (· = n) := by
  obtain ⟨t, more, rfl, hCall, hIndex, _⟩ := hEnds
  cases fuel with
  | zero => cases hFuel
  | succ fuel =>
    rw [suffixes]
    refine answers_current rfl ?_
    rw [if_neg hCall, if_neg hIndex]
    exact accepts_pure rfl

theorem accepts_operators_ends (n : Node) (hFuel : 0 < fuel) (hEnds : Ends (least - 6) rest) :
    Accepts (operators fuel least n) [] rest (· = n) := by
  obtain ⟨t, more, rfl, _, _, hBelow⟩ := hEnds
  cases fuel with
  | zero => cases hFuel
  | succ fuel =>
    rw [operators]
    refine answers_current rfl ?_
    rw [precedence?_eq]
    cases hRow : row? t.kind with
    | none => exact accepts_pure rfl
    | some row =>
      have hLess : row + 6 < least := by
        have := hBelow row hRow
        omega
      rw [Option.map_some]
      dsimp only
      rw [if_pos hLess]
      exact accepts_pure rfl

theorem accepts_binary (h : Completes (.binary row) ts n) (hFuel : 3 * ts.length + 2 ≤ fuel)
    (hLeast : least ≤ row + 6) (hEnds : Ends (least - 6) rest) :
    Accepts (binary fuel least) ts rest (· = n) := by
  obtain ⟨left, hLeft, hRun⟩ := h fuel rest least hFuel hLeast (hEnds.mono (by omega))
  exact hRun.last (accepts_operators_ends n (by omega) hEnds)

section

variable {fuel : Nat} {parts : List (List Token × Node)} {ts rest : List Token} {last : Token}

theorem accepts_elements (hListed : Listed parts ts)
    (hParts : ∀ x ∈ parts, Completes (.binary 0) x.1 x.2) (hSome : parts ≠ [])
    (hFuel : 3 * ts.length + 3 ≤ fuel) (hLast : last.kind = .rparen ∨ last.kind = .rbracket) :
    Accepts (elements fuel) ts (last :: rest) (· = parts.map Prod.snd) := by
  have hEnds : Ends 0 (last :: rest) := by
    refine ends_of_closer ?_
    rcases hLast with hKind | hKind <;> rw [hKind] <;> decide
  have hComma : ∀ t more, last :: rest = t :: more → t.kind ≠ .comma := by
    rintro t more ⟨⟩
    rcases hLast with hKind | hKind <;> simp [hKind]
  induction hListed generalizing fuel with
  | nil => exact absurd rfl hSome
  | one x =>
    cases fuel with
    | zero => cases hFuel
    | succ fuel =>
      rw [elements]
      refine (accepts_binary (hParts x List.mem_cons_self) (by omega) (Nat.zero_le _) hEnds).last ?_
      rintro _ rfl
      exact answers_accept_of_ne hComma (accepts_pure rfl)
  | @more x others comma ts hKind hRest hOthers ih =>
    rw [List.length_append, List.length_cons] at hFuel
    cases fuel with
    | zero => cases hFuel
    | succ fuel =>
      rw [elements]
      have hHead : Ends 0 (comma :: ts ++ last :: rest) := ends_of_closer (by rw [hKind]; decide)
      refine (accepts_binary (hParts x List.mem_cons_self) (by omega) (Nat.zero_le _) hHead).bind ?_
      rintro _ rfl
      have hLess : 3 * ts.length + 3 ≤ fuel := by omega
      have hTail := ih (fun y hy => hParts y (List.mem_cons_of_mem x hy)) hOthers hLess
      refine answers_accept hKind (hTail.last ?_)
      rintro _ rfl
      exact accepts_pure rfl

theorem startsWith_of_listed (hListed : Listed parts ts) {kinds : List TokenKind}
    (hParts : ∀ x ∈ parts, StartsWith kinds x.1) (hSome : parts ≠ []) : StartsWith kinds ts := by
  cases hListed with
  | nil => exact absurd rfl hSome
  | one x => exact hParts x List.mem_cons_self
  | more => exact (hParts _ List.mem_cons_self).append _

theorem accepts_elementsUntil (hListed : Listed parts ts)
    (hDerived : ∀ x ∈ parts, Expression (.binary 0) x.1 x.2)
    (hParts : ∀ x ∈ parts, Completes (.binary 0) x.1 x.2) (hFuel : 3 * ts.length + 4 ≤ fuel)
    (hLast : last.kind = .rparen ∨ last.kind = .rbracket) :
    Accepts (elementsUntil fuel last.kind) ts (last :: rest) (· = parts.map Prod.snd) := by
  cases fuel with
  | zero => cases hFuel
  | succ fuel =>
    rw [elementsUntil]
    by_cases hSome : parts = []
    · subst hSome
      cases hListed
      refine answers_check rfl ?_
      rw [decide_eq_true rfl]
      exact accepts_pure rfl
    · have hStarts : StartsWith expressionStarts ts :=
        startsWith_of_listed hListed (fun x hx => startsWith_of_expression (hDerived x hx)) hSome
      obtain ⟨t, us, hHead, hKind⟩ := hStarts
      have hNe : t.kind ≠ last.kind := by
        intro hEq
        rw [hEq] at hKind
        rcases hLast with hLast | hLast <;> rw [hLast] at hKind <;> revert hKind <;> decide
      refine answers_check (by rw [hHead]; rfl) ?_
      rw [decide_eq_false hNe]
      exact accepts_elements hListed hParts hSome (by omega) hLast

end

section

variable {us ts : List Token} {first last : Token}

theorem completes_list {parts : List (List Token × Node)} (hFirst : first.kind = .lbracket)
    (hDerived : ∀ x ∈ parts, Expression (.binary 0) x.1 x.2)
    (hParts : ∀ x ∈ parts, Completes (.binary 0) x.1 x.2) (hListed : Listed parts ts)
    (hLast : last.kind = .rbracket) :
    Completes .primary (first :: ts ++ [last]) (.list first.span (parts.map Prod.snd)) := by
  intro fuel rest hFuel
  rw [List.length_append, List.length_cons, List.length_singleton] at hFuel
  have hAtom : atom? first = none := by rw [atom?, hFirst]
  cases fuel with
  | zero => omega
  | succ fuel =>
    rw [primary, List.cons_append]
    refine answers_current rfl ?_
    rw [hAtom]
    dsimp only
    rw [if_pos hFirst, ← hLast]
    have hLess : 3 * ts.length + 4 ≤ fuel := by omega
    refine answers_advance
      ((accepts_elementsUntil hListed hDerived hParts hLess (.inr hLast)).bind ?_)
    rintro _ rfl
    exact answers_expect rfl (accepts_pure rfl)

theorem completes_enclosed (hFirst : first.kind = .lparen) (h : Completes (.binary 0) ts n)
    (hLast : last.kind = .rparen) : Completes .primary (first :: ts ++ [last]) n := by
  intro fuel rest hFuel
  rw [List.length_append, List.length_cons, List.length_singleton] at hFuel
  have hAtom : atom? first = none := by rw [atom?, hFirst]
  cases fuel with
  | zero => omega
  | succ fuel =>
    rw [primary, List.cons_append]
    refine answers_current rfl ?_
    rw [hAtom]
    dsimp only
    rw [if_neg (by simp [hFirst]), if_pos hFirst]
    have hEnds : Ends 0 (last :: rest) := ends_of_closer (by rw [hLast]; decide)
    refine answers_advance ((accepts_binary h (by omega) (Nat.zero_le _) hEnds).bind ?_)
    rintro _ rfl
    exact answers_expect hLast (accepts_pure rfl)

theorem completes_suffix {e e' : Node} (he : Completes .postfixed us e)
    (h : ∀ fuel rest, 3 * ts.length + 4 ≤ fuel →
      Continues (suffixes (fuel + 1) e) (first :: ts ++ [last]) rest (suffixes fuel e')) :
    Completes .postfixed (us ++ first :: ts ++ [last]) e' := by
  intro fuel rest hFuel
  have hLength : (us ++ first :: ts ++ [last]).length = us.length + ts.length + 2 := by
    simp only [List.length_append, List.length_cons, List.length_nil]
    omega
  rw [hLength] at hFuel ⊢
  obtain ⟨left, hLeft, hRun⟩ := he fuel (first :: ts ++ [last] ++ rest) (by omega)
  cases left with
  | zero => omega
  | succ left =>
    refine ⟨left, by omega, ?_⟩
    rw [List.append_assoc]
    exact hRun.trans (h left rest (by omega))

theorem completes_call {callee : Node} {parts : List (List Token × Node)}
    (hCallee : Completes .postfixed us callee) (hName : callee.isIdent = true)
    (hFirst : first.kind = .lparen) (hDerived : ∀ x ∈ parts, Expression (.binary 0) x.1 x.2)
    (hParts : ∀ x ∈ parts, Completes (.binary 0) x.1 x.2) (hListed : Listed parts ts)
    (hLast : last.kind = .rparen) :
    Completes .postfixed (us ++ first :: ts ++ [last])
      (.call first.span callee (parts.map Prod.snd)) := by
  refine completes_suffix hCallee fun fuel rest hFuel => ?_
  rw [suffixes, List.cons_append]
  refine answers_current rfl ?_
  rw [if_pos hFirst]
  refine answers_advance ?_
  rw [if_pos hName, ← hLast]
  refine (accepts_elementsUntil hListed hDerived hParts hFuel (.inl hLast)).bind ?_
  rintro _ rfl
  exact answers_expect rfl continues_self

theorem completes_subscript {array index : Node} (hArray : Completes .postfixed us array)
    (hPlace : array.isPlace = true) (hFirst : first.kind = .lbracket)
    (hIndex : Completes (.binary 0) ts index) (hLast : last.kind = .rbracket) :
    Completes .postfixed (us ++ first :: ts ++ [last]) (.subscript first.span array index) := by
  refine completes_suffix hArray fun fuel rest hFuel => ?_
  rw [suffixes, List.cons_append]
  refine answers_current rfl ?_
  rw [if_neg (by simp [hFirst]), if_pos hFirst]
  refine answers_advance ?_
  rw [if_pos hPlace]
  have hEnds : Ends 0 (last :: rest) := ends_of_closer (by rw [hLast]; decide)
  refine (accepts_binary hIndex (by omega) (Nat.zero_le _) hEnds).bind ?_
  rintro _ rfl
  exact answers_expect hLast continues_self

theorem completes_ofPrimary (h : Completes .primary ts n) : Completes .postfixed ts n := by
  intro fuel rest hFuel
  refine ⟨fuel, by omega, (h fuel rest hFuel).last ?_⟩
  rintro _ rfl
  exact continues_self

theorem completes_ofPostfixed (hStarts : StartsWith operandStarts ts)
    (h : Completes .postfixed ts n) : Completes .unary ts n := by
  intro fuel rest least hFuel hEnds
  have hLength := hStarts.length_pos
  obtain ⟨t, us, hHead, hKind⟩ := hStarts
  have hPlain : ¬isPrefixOp t.kind = true := by
    revert hKind
    generalize t.kind = kind
    revert kind
    decide
  cases fuel with
  | zero => omega
  | succ fuel =>
    rw [unary]
    refine answers_current (by rw [hHead]; rfl) ?_
    rw [if_neg hPlain]
    obtain ⟨left, hLeft, hRun⟩ := h fuel rest (by omega)
    exact hRun.last (accepts_suffixes_ends n (by omega) hEnds)

theorem completes_prefixed (hOp : op.kind ∈ prefixOperators) (h : Completes .unary ts n) :
    Completes .unary (op :: ts) (applyPrefixOp op.span op.kind n) := by
  intro fuel rest least hFuel hEnds
  rw [List.length_cons] at hFuel
  cases fuel with
  | zero => omega
  | succ fuel =>
    rw [unary]
    refine answers_current rfl ?_
    rw [if_pos (isPrefixOp_iff.mpr hOp)]
    refine answers_advance ((h fuel rest least (by omega) hEnds).last ?_)
    rintro _ rfl
    exact accepts_pure rfl

theorem completes_ofUnary (hPos : 0 < ts.length) (h : Completes .unary ts n) :
    Completes (.binary row) ts n := by
  intro fuel rest least hFuel _ hEnds
  cases fuel with
  | zero => omega
  | succ fuel =>
    rw [binary]
    refine ⟨fuel, by omega, (h fuel rest (row + 1) (by omega) hEnds).last ?_⟩
    rintro _ rfl
    exact continues_self

/-- The parser stands in front of the operator with the left operand in hand; the right operand
stops at the operators of its own row. -/
theorem completes_binary {least : Nat} {l r : Node} (hLeast : least ≤ row)
    (hOp : row? op.kind = some row) (hLeft : Completes (.binary row) us l)
    (hRight : Completes (.binary (row + 1)) ts r) :
    Completes (.binary least) (us ++ op :: ts) (combine op.span op.kind l r) := by
  intro fuel rest bound hFuel hBound hEnds
  rw [List.length_append, List.length_cons] at hFuel ⊢
  obtain ⟨left, hLess, hRun⟩ := hLeft fuel (op :: ts ++ rest) bound (by omega) (by omega)
    (ends_of_row hOp)
  cases left with
  | zero => omega
  | succ left =>
    refine ⟨left, by omega, hRun.trans ?_⟩
    rw [operators]
    refine answers_current rfl ?_
    rw [precedence?_eq, hOp, Option.map_some]
    dsimp only
    rw [if_neg (by omega)]
    have hStop : Ends (row + 6 + 1 - 6) rest := hEnds.mono (by omega)
    refine answers_advance ((accepts_binary hRight (by omega) (by omega) hStop).last ?_)
    rintro _ rfl
    exact continues_self

end

theorem completes_of_expression {level : Level} (h : Expression level ts n) :
    Completes level ts n := by
  induction h with
  | number hKind | string hKind | yes hKind | no hKind =>
    exact completes_atom (by rw [atom?, hKind]) fun _ => accepts_pure rfl
  | float hKind hValue =>
    refine completes_atom (by rw [atom?, hKind]) fun _ => ?_
    rw [hValue]
    exact accepts_pure rfl
  | name ht =>
    refine completes_atom (by rw [atom?, ht.kind]) fun _ => ?_
    exact answers_checkName ht.free (accepts_pure rfl)
  | list hFirst hParts hListed hLast ih => exact completes_list hFirst hParts ih hListed hLast
  | enclosed hFirst h hLast ih => exact completes_enclosed hFirst ih hLast
  | ofPrimary h ih => exact completes_ofPrimary ih
  | call hCallee hName hFirst hParts hListed hLast ihCallee ihParts =>
    exact completes_call ihCallee hName hFirst hParts ihParts hListed hLast
  | subscript hArray hPlace hFirst hIndex hLast ihArray ihIndex =>
    exact completes_subscript ihArray hPlace hFirst ihIndex hLast
  | ofPostfixed h ih => exact completes_ofPostfixed (startsWith_of_expression h) ih
  | prefixed hOp h ih => exact completes_prefixed hOp ih
  | ofUnary h ih => exact completes_ofUnary (startsWith_of_expression h).length_pos ih
  | binary hLeast hOp hLeft hRight ihLeft ihRight =>
    exact completes_binary hLeast hOp ihLeft ihRight

end Parser

end BatchCompiler.Syntax
