import BatchCompiler.Proofs.Syntax.Conventions
import BatchCompiler.Proofs.Syntax.Reading

/-!
# Comments are kept

Which comments a program keeps can be told from its tokens alone: those that do not come right after
a token of an expression. Each of them stands in the tree once, in the order of the tokens. The
parser holds a comment back until a block can take it, so what is counted at every step are the
comments that wait together with those that are still to come.
-/

namespace BatchCompiler

namespace Node

variable {ns before : List Node} {t x : Token} {problem : SyntaxProblem} {fuel : Nat} {s s' : State}

def comments (n : Node) : List Node := n.walk.filter isComment

def commentsOf (ns : List Node) : List Node := (walkAll ns).filter isComment

@[simp]
theorem commentsOf_nil : commentsOf [] = [] := rfl

@[simp]
theorem commentsOf_cons (n : Node) (ns : List Node) :
    commentsOf (n :: ns) = n.comments ++ commentsOf ns := by
  simp [commentsOf, comments, walkAll]

@[simp]
theorem commentsOf_append (ns ms : List Node) :
    commentsOf (ns ++ ms) = commentsOf ns ++ commentsOf ms := by
  induction ns with
  | nil => rfl
  | cons n rest ih => simp [ih]

@[simp]
theorem comments_absent : absent.comments = [] := rfl

theorem comments_eq {n : Node} (h : n.isComment = false) : n.comments = commentsOf n.children := by
  cases n with
  | absent => rfl
  | _ => rw [comments, walk_eq rfl, List.filter_cons, h, commentsOf]; rfl

theorem isExpression_of_mem_children {n c : Node} (h : n.isExpression = true)
    (hc : c ∈ n.children) : c.isExpression = true := by
  cases n with
  | list => exact areExpressions_iff.mp h c hc
  | call =>
    simp only [isExpression, Bool.and_eq_true] at h
    rcases List.mem_cons.mp hc with rfl | hc
    · exact isExpression_of_isFreeName h.1
    · exact areExpressions_iff.mp h.2 c hc
  | unary =>
    simp only [isExpression, Bool.and_eq_true] at h
    rw [List.mem_singleton.mp hc]
    exact h.2
  | subscript | binary | concat | strCompare =>
    simp only [isExpression, Bool.and_eq_true] at h
    simp only [children, List.mem_cons, List.not_mem_nil, or_false] at hc
    rcases hc with rfl | rfl
    · exact h.1.2
    · exact h.2
  | bool | number | float | string | ident => cases hc
  | _ => cases h

theorem isExpression_of_mem_walk {n : Node} (h : n.isExpression = true) :
    ∀ x ∈ n.walk, x.isExpression = true :=
  forall_walk_of_inherited (fun _ hn _ hc => .inr (isExpression_of_mem_children hn hc)) h

theorem comments_of_isExpression {n : Node} (h : n.isExpression = true) : n.comments = [] := by
  refine List.filter_eq_nil_iff.mpr fun x hx hComment => ?_
  have hExpression := isExpression_of_mem_walk h x hx
  cases x with
  | comment => cases hExpression
  | _ => cases hComment

theorem commentsOf_of_isFreeName (h : ∀ n ∈ ns, n.isFreeName = true) : commentsOf ns = [] := by
  induction ns with
  | nil => rfl
  | cons n rest ih =>
    rw [List.forall_mem_cons] at h
    rw [commentsOf_cons, ih h.2, comments_of_isExpression (isExpression_of_isFreeName h.1)]
    rfl

end Node

def Token.asComment (t : Token) : Node := .comment t.span t.value

@[simp]
theorem Node.commentsOf_asComment (ts : List Token) :
    commentsOf (ts.map Token.asComment) = ts.map Token.asComment := by
  induction ts with
  | nil => rfl
  | cons t rest ih =>
    rw [List.map_cons, commentsOf_cons, ih]
    rfl

namespace Syntax

open Node

variable {kind : TokenKind} {s : State}

variable {ts tokens : List Token} {settings : Settings} {root : Node}

/-- Where a token stands: between the parts of a statement, before the parenthesis that opens a
condition, among the names after `global` or `func`, or in an expression, inside of so many of its
parentheses and brackets. -/
inductive Site where
  | statement
  | condition
  | heading
  | expression (depth : Nat)
deriving DecidableEq, Repr

namespace Site

/-- The site after a token that stands where an expression may go on, and whether the token belongs
to the expression. Outside of its parentheses, what no expression contains ends it. -/
def stepInside : Nat → TokenKind → Site × Bool
  | n, .lparen => (expression (n + 1), true)
  | n, .lbracket => (expression (n + 1), true)
  | n + 1, .rparen => (expression n, true)
  | n + 1, .rbracket => (expression n, true)
  | 0, .rparen => (statement, false)
  | 0, .semi => (statement, false)
  | 0, .lbrace => (statement, false)
  | 0, .rbrace => (statement, false)
  | 0, .kwElse => (statement, false)
  | 0, .assign => (expression 0, false)
  | n, _ => (expression n, true)

def step : Site → TokenKind → Site × Bool
  | expression n, kind => stepInside n kind
  | condition, _ => (expression 0, false)
  | heading, .semi => (statement, false)
  | heading, .lbrace => (statement, false)
  | heading, _ => (heading, false)
  | statement, .kwIf => (condition, false)
  | statement, .kwWhile => (condition, false)
  | statement, .kwReturn => (expression 0, false)
  | statement, .kwGlobal => (heading, false)
  | statement, .kwFunc => (heading, false)
  | statement, kind => stepInside 0 kind

end Site

/-- The comments up to the end of file that do not come after a token of an expression; `inside` says
that the last token was one. -/
def keptFrom (site : Site) (inside : Bool) : List Token → List Token
  | [] => []
  | t :: rest =>
    if t.kind = .eof then []
    else if t.kind = .directive then keptFrom site inside rest
    else if t.kind = .comment then
      if inside then keptFrom site inside rest else t :: keptFrom site inside rest
    else keptFrom (site.step t.kind).1 (site.step t.kind).2 rest

def keptComments (tokens : List Token) : List Token :=
  keptFrom .statement false tokens

def isInner (kind : TokenKind) : Bool :=
  kind ∉ [.eof, .lparen, .lbracket, .rparen, .rbracket, .semi, .lbrace, .rbrace, .kwElse, .assign]

theorem ne_eof_of_isInner (h : isInner kind = true) : kind ≠ .eof := by
  rintro rfl
  cases h

theorem step_of_isInner (h : isInner kind = true) (n : Nat) :
    (Site.expression n).step kind = (.expression n, true) := by
  cases kind <;> first | cases n <;> rfl | cases h

theorem isInner_of_row {row : Nat} (h : row? kind = some row) : isInner kind = true := by
  cases kind <;> first | rfl | cases h

theorem isInner_of_isPrefixOp (h : Parser.isPrefixOp kind = true) : isInner kind = true := by
  cases kind <;> first | rfl | cases h

def State.due (site : Site) (s : State) : List Token :=
  s.pending ++ keptFrom site false (s.current :: s.rest)

theorem keptFrom_cons {site : Site} {inside : Bool} {rest : List Token}
    (ht : isSignificant t = true) : keptFrom site inside (t :: rest) =
      if t.kind = .eof then [] else keptFrom (site.step t.kind).1 (site.step t.kind).2 rest := by
  simp only [isSignificant, Bool.and_eq_true, bne_iff_ne, ne_eq] at ht
  rw [keptFrom, if_neg ht.1, if_neg ht.2]

structure State.Ready (s : State) : Prop where
  significant : isSignificant s.current = true
  bounded : s.Bounded

theorem ready_settle (h : ∃ t ∈ ts, t.kind = .eof) : (s.settle ts).Ready := by
  refine ⟨?_, (bounded_settle h).1⟩
  induction ts generalizing s with
  | nil => simp at h
  | cons t rest ih =>
    have hLater : t.kind ≠ .eof → ∃ x ∈ rest, x.kind = .eof := by
      intro ht
      simpa [ht] using h
    unfold State.settle
    split
    · next hKind => exact ih (hLater (by simp [hKind]))
    · next hKind => exact ih (hLater (by simp [hKind]))
    · next hDirective hComment => simpa [isSignificant] using ⟨hComment, hDirective⟩

theorem due_settle (site : Site) (h : ∃ t ∈ ts, t.kind = .eof) :
    (s.settle ts).due site = s.pending ++ keptFrom site (decide (s.depth ≠ 0)) ts := by
  induction ts generalizing s with
  | nil => simp at h
  | cons t rest ih =>
    have hLater : t.kind ≠ .eof → ∃ x ∈ rest, x.kind = .eof := by
      intro ht
      simpa [ht] using h
    unfold State.settle
    split
    · next hKind =>
      rw [ih (hLater (by simp [hKind])), keptFrom, if_neg (by simp [hKind]), if_pos hKind]
      rfl
    · next hKind =>
      rw [ih (hLater (by simp [hKind])), keptFrom, if_neg (by simp [hKind]),
        if_neg (by simp [hKind]), if_pos hKind, State.keepComment]
      by_cases hDepth : s.depth = 0 <;> simp [hDepth]
    · next hDirective hComment =>
      have ht : isSignificant t = true := by simpa [isSignificant] using ⟨hComment, hDirective⟩
      rw [State.due, keptFrom_cons ht, keptFrom_cons ht]

theorem depth_settle (s : State) (ts : List Token) : (s.settle ts).depth = s.depth := by
  induction ts generalizing s with
  | nil => rfl
  | cons t rest ih =>
    unfold State.settle
    split
    · exact ih _
    · rw [ih, State.keepComment]
      split <;> rfl
    · rfl

theorem due_advance {site site' : Site} (hReady : s.Ready) (hKind : s.current.kind ≠ .eof)
    (hStep : site.step s.current.kind = (site', decide (s.depth ≠ 0))) :
    s.advance.due site' = s.due site := by
  have hSettle : s.advance.due site' = s.pending ++ keptFrom site' (decide (s.depth ≠ 0)) s.rest :=
    due_settle (s := { s with previous := s.current }) site' (hReady.bounded.resolve_left hKind)
  rw [hSettle, State.due, keptFrom_cons hReady.significant, if_neg hKind, hStep]

theorem State.Ready.advance (h : s.Ready) (hKind : s.current.kind ≠ .eof) : s.advance.Ready :=
  ready_settle (h.bounded.resolve_left hKind)

namespace Parser

/-- The parser, run with `t` as the current token, puts comments into place. What was placed before,
with what is then due, is what is placed afterwards, with what is due then. -/
def Places {α : Type} (t : Token) (depth : Nat) (site site' : Site) (before : List Node)
    (p : Parser α) (after : α → List Node) : Prop :=
  ∀ s a s', s.current = t → s.depth = depth → s.Ready → p s = .ok a s' →
    s'.depth = depth ∧ s'.Ready ∧
      before ++ (s.due site).map Token.asComment = after a ++ (s'.due site').map Token.asComment

section

variable {α β : Type} {t : Token} {depth : Nat} {site site' mid : Site} {before : List Node}
  {after : β → List Node}

variable {kind : TokenKind} {f : Unit → Parser β}

theorem places_pure {b : β} (h : before = after b) :
    Places t depth site site before (pure b) after := by
  rintro s _ _ _ hDepth hReady ⟨⟩
  exact ⟨hDepth, hReady, by rw [h]⟩

theorem places_node {placed : List Node} {n : Node} (hn : n.isComment = false)
    (h : placed = before ++ commentsOf n.children) :
    Places t depth site site placed (pure n) fun n => before ++ n.comments :=
  places_pure (by rw [h, comments_eq hn])

theorem places_fail {span : Span} : Places t depth site site' before (fail span problem) after := by
  intro s b s' _ _ _ hRun
  cases hRun

theorem places_endless : Places t depth site site' before endless after := by
  intro s b s' _ _ _ hRun
  cases hRun

theorem Places.bind {p : Parser α} {f : α → Parser β} {between : α → List Node}
    (hp : Places t depth site mid before p between)
    (hf : ∀ a t', Places t' depth mid site' (between a) (f a) after) :
    Places t depth site site' before (p >>= f) after := by
  intro s b s' hs hDepth hReady hRun
  obtain ⟨a, s₁, hFirst, hRest⟩ := exists_of_bind_eq_ok hRun
  obtain ⟨hDepth₁, hReady₁, hEq₁⟩ := hp s a s₁ hs hDepth hReady hFirst
  obtain ⟨hDepth', hReady', hEq'⟩ := hf a s₁.current s₁ b s' rfl hDepth₁ hReady₁ hRest
  exact ⟨hDepth', hReady', hEq₁.trans hEq'⟩

theorem Places.imp {p : Parser β} {between : β → List Node}
    (hp : Places t depth site site' before p between)
    (h : ∀ s b s', p s = .ok b s' → between b = after b) :
    Places t depth site site' before p after := by
  intro s b s' hs hDepth hReady hRun
  rw [← h s b s' hRun]
  exact hp s b s' hs hDepth hReady hRun

theorem places_current {f : Token → Parser β} (h : Places t depth site site' before (f t) after) :
    Places t depth site site' before (current >>= f) after := by
  rintro s b s' rfl hDepth hReady hRun
  exact h s b s' rfl hDepth hReady hRun

theorem places_previous {f : Token → Parser β}
    (h : ∀ x, Places t depth site site' before (f x) after) :
    Places t depth site site' before (previous >>= f) after :=
  fun s b s' hs hDepth hReady hRun => h s.previous s b s' hs hDepth hReady hRun

theorem places_check {f : Bool → Parser β}
    (h : ∀ b, b = decide (t.kind = kind) → Places t depth site site' before (f b) after) :
    Places t depth site site' before (check kind >>= f) after := by
  rintro s b s' rfl hDepth hReady hRun
  exact h _ rfl s b s' rfl hDepth hReady hRun

theorem places_checkName (h : Places t depth site site' before (f ()) after) :
    Places t depth site site' before (checkName x >>= f) after := by
  unfold checkName
  split
  · intro s b s' _ _ _ hRun
    cases hRun
  · exact h

theorem places_drainComments {f : List Node → Parser β}
    (h : ∀ waiting : List Token, Places t depth site site'
      (before ++ waiting.map Token.asComment) (f (waiting.map Token.asComment)) after) :
    Places t depth site site' before (drainComments >>= f) after := by
  intro s b s' hs hDepth hReady hRun
  have hRest := h s.pending { s with pending := [] } b s' hs hDepth ⟨hReady.1, hReady.2⟩ hRun
  refine ⟨hRest.1, hRest.2.1, ?_⟩
  rw [← hRest.2.2]
  simp [State.due]

theorem places_of_advance {p q : Parser β} (ht : t.kind ≠ .eof)
    (hStep : site.step t.kind = (mid, decide (depth ≠ 0)))
    (hp : ∀ s, s.current = t → p s = q s.advance)
    (hq : ∀ t', Places t' depth mid site' before q after) :
    Places t depth site site' before p after := by
  rintro s b s' rfl rfl hReady hRun
  have hDepth : s.advance.depth = s.depth := depth_settle _ _
  rw [hp s rfl] at hRun
  rw [← due_advance hReady ht hStep]
  exact hq s.advance.current s.advance b s' rfl hDepth (hReady.advance ht) hRun

theorem places_advance (ht : t.kind ≠ .eof) (hStep : site.step t.kind = (mid, decide (depth ≠ 0)))
    (h : ∀ t', Places t' depth mid site' before (f ()) after) :
    Places t depth site site' before (advance >>= f) after :=
  places_of_advance ht hStep (fun _ _ => rfl) h

theorem places_take (ht : t.kind = kind) (hKind : kind ≠ .eof)
    (hStep : site.step kind = (mid, decide (depth ≠ 0)))
    (h : ∀ t', Places t' depth mid site' before (f ()) after) :
    Places t depth site site' before (advance >>= f) after := by
  subst ht
  exact places_advance hKind hStep h

theorem places_expect (hKind : kind ≠ .eof) (hStep : site.step kind = (mid, decide (depth ≠ 0)))
    (h : ∀ t', Places t' depth mid site' before (f ()) after) :
    Places t depth site site' before (expect kind problem >>= f) after := by
  by_cases ht : t.kind = kind
  · subst ht
    exact places_of_advance hKind hStep (fun s hs => expect_bind_of_kind_eq (by rw [hs])) h
  · intro s b s' hs _ _ hRun
    rw [bind_apply, expect, if_neg (by rwa [hs])] at hRun
    cases hRun

theorem places_accept {f : Bool → Parser β} (hKind : kind ≠ .eof)
    (hStep : site.step kind = (mid, decide (depth ≠ 0)))
    (hTrue : ∀ t', Places t' depth mid site' before (f true) after)
    (hFalse : t.kind ≠ kind → Places t depth site site' before (f false) after) :
    Places t depth site site' before (accept kind >>= f) after := by
  by_cases ht : t.kind = kind
  · subst ht
    exact places_of_advance hKind hStep (fun s hs => accept_bind_of_kind_eq (by rw [hs])) hTrue
  · intro s b s' hs hDepth hReady hRun
    rw [accept_bind_of_kind_ne (by rwa [hs])] at hRun
    exact hFalse ht s b s' hs hDepth hReady hRun

end

/-- Inside an expression the parser places no comment, and it stops within the same parentheses. -/
def Stays {α : Type} (p : Parser α) : Prop :=
  ∀ t depth n before,
    Places t (depth + 1) (.expression n) (.expression n) before p fun _ => before

theorem stays_pure {α : Type} {a : α} : Stays (pure a) :=
  fun _ _ _ _ => places_pure rfl

theorem stays_fail {α : Type} {span : Span} : Stays (fail span problem : Parser α) :=
  fun _ _ _ _ => places_fail

theorem stays_checkName {β : Type} {f : Unit → Parser β} (h : Stays (f ())) :
    Stays (checkName x >>= f) :=
  fun t depth n before => places_checkName (h t depth n before)

theorem stays_atom {p : Parser Node} (h : atom? t = some p) : isInner t.kind = true ∧ Stays p := by
  unfold atom? at h
  split at h
  · next hKind =>
    cases h
    exact ⟨by simp [hKind, isInner], stays_pure⟩
  · next hKind =>
    cases h
    refine ⟨by simp [hKind, isInner], ?_⟩
    split
    · exact stays_pure
    · exact stays_fail
  · next hKind =>
    cases h
    exact ⟨by simp [hKind, isInner], stays_pure⟩
  · next hKind =>
    cases h
    exact ⟨by simp [hKind, isInner], stays_pure⟩
  · next hKind =>
    cases h
    exact ⟨by simp [hKind, isInner], stays_pure⟩
  · next hKind =>
    cases h
    exact ⟨by simp [hKind, isInner], stays_checkName stays_pure⟩
  · cases h

structure StayExpressions (fuel : Nat) : Prop where
  primary : Stays (primary fuel)
  suffixes : ∀ e, Stays (suffixes fuel e)
  unary : Stays (unary fuel)
  binary : ∀ least, Stays (binary fuel least)
  operators : ∀ least l, Stays (operators fuel least l)
  elementsUntil : ∀ closing, Stays (elementsUntil fuel closing)
  elements : Stays (elements fuel)

theorem stayExpressions_zero : StayExpressions 0 where
  primary := by rw [Parser.primary]; exact fun _ _ _ _ => places_endless
  suffixes := by intro e; rw [Parser.suffixes]; exact fun _ _ _ _ => places_endless
  unary := by rw [Parser.unary]; exact fun _ _ _ _ => places_endless
  binary := by intro least; rw [Parser.binary]; exact fun _ _ _ _ => places_endless
  operators := by intro least l; rw [Parser.operators]; exact fun _ _ _ _ => places_endless
  elementsUntil := by intro closing; rw [Parser.elementsUntil]; exact fun _ _ _ _ => places_endless
  elements := by rw [Parser.elements]; exact fun _ _ _ _ => places_endless

section

variable {fuel : Nat} (ih : StayExpressions fuel)

include ih

theorem stays_primary_succ : Stays (primary (fuel + 1)) := by
  intro t depth n before
  rw [primary]
  apply places_current
  split
  · next p hAtom =>
    obtain ⟨hInner, hp⟩ := stays_atom hAtom
    apply places_advance (ne_eof_of_isInner hInner) (step_of_isInner hInner n)
    exact fun t' => hp t' depth n before
  · split
    · next hFirst =>
      apply places_take hFirst (by decide) rfl
      intro t₁
      apply (ih.elementsUntil .rbracket t₁ depth (n + 1) before).bind
      intro elems t₂
      exact places_expect (by decide) rfl fun t₃ => places_pure rfl
    · split
      · next hFirst =>
        apply places_take hFirst (by decide) rfl
        intro t₁
        apply (ih.binary 0 t₁ depth (n + 1) before).bind
        intro e t₂
        exact places_expect (by decide) rfl fun t₃ => places_pure rfl
      · exact places_fail

theorem stays_suffixes_succ (e : Node) : Stays (suffixes (fuel + 1) e) := by
  intro t depth n before
  rw [suffixes]
  apply places_current
  split
  · next hFirst =>
    apply places_take hFirst (by decide) rfl
    intro t₁
    split
    · apply (ih.elementsUntil .rparen t₁ depth (n + 1) before).bind
      intro args t₂
      exact places_expect (by decide) rfl fun t₃ => ih.suffixes _ t₃ depth n before
    · exact places_fail
  · split
    · next hFirst =>
      apply places_take hFirst (by decide) rfl
      intro t₁
      split
      · apply (ih.binary 0 t₁ depth (n + 1) before).bind
        intro index t₂
        exact places_expect (by decide) rfl fun t₃ => ih.suffixes _ t₃ depth n before
      · exact places_fail
    · exact places_pure rfl

theorem stays_unary_succ : Stays (unary (fuel + 1)) := by
  intro t depth n before
  rw [unary]
  apply places_current
  split
  · next hPrefix =>
    have hInner := isInner_of_isPrefixOp hPrefix
    apply places_advance (ne_eof_of_isInner hInner) (step_of_isInner hInner n)
    intro t₁
    exact (ih.unary t₁ depth n before).bind fun operand t₂ => places_pure rfl
  · exact (ih.primary t depth n before).bind fun e t₁ => ih.suffixes e t₁ depth n before

theorem stays_binary_succ (least : Nat) : Stays (binary (fuel + 1) least) := by
  intro t depth n before
  rw [binary]
  exact (ih.unary t depth n before).bind fun l t₁ => ih.operators least l t₁ depth n before

theorem stays_operators_succ (least : Nat) (l : Node) : Stays (operators (fuel + 1) least l) := by
  intro t depth n before
  rw [operators]
  apply places_current
  split
  · exact places_pure rfl
  · next p hPrecedence =>
    split
    · exact places_pure rfl
    · rw [precedence?_eq, Option.map_eq_some_iff] at hPrecedence
      obtain ⟨row, hRow, _⟩ := hPrecedence
      have hInner := isInner_of_row hRow
      apply places_advance (ne_eof_of_isInner hInner) (step_of_isInner hInner n)
      intro t₁
      apply (ih.binary (p + 1) t₁ depth n before).bind
      exact fun r t₂ => ih.operators least _ t₂ depth n before

theorem stays_elementsUntil_succ (closing : TokenKind) :
    Stays (elementsUntil (fuel + 1) closing) := by
  intro t depth n before
  rw [elementsUntil]
  apply places_check
  intro b _
  split
  · exact places_pure rfl
  · exact ih.elements t depth n before

theorem stays_elements_succ : Stays (elements (fuel + 1)) := by
  intro t depth n before
  rw [elements]
  apply (ih.binary 0 t depth n before).bind
  intro e t₁
  apply places_accept (by decide) (step_of_isInner rfl n)
  · intro t₂
    exact (ih.elements t₂ depth n before).bind fun rest t₃ => places_pure rfl
  · exact fun _ => places_pure rfl

end

theorem stayExpressions (fuel : Nat) : StayExpressions fuel := by
  induction fuel with
  | zero => exact stayExpressions_zero
  | succ fuel ih =>
    exact {
      primary := stays_primary_succ ih
      suffixes := stays_suffixes_succ ih
      unary := stays_unary_succ ih
      binary := stays_binary_succ ih
      operators := stays_operators_succ ih
      elementsUntil := stays_elementsUntil_succ ih
      elements := stays_elements_succ ih }

theorem places_expression :
    Places t 0 (.expression 0) (.expression 0) before (expression fuel)
      fun e => before ++ e.comments := by
  intro s e s' hs hDepth hReady hRun
  have hComments : e.comments = [] :=
    comments_of_isExpression (isExpression_of_expression hRun)
  obtain ⟨_, _, ⟨⟩, hRun⟩ := exists_of_bind_eq_ok hRun
  obtain ⟨_, s₁, hBinary, hRun⟩ := exists_of_bind_eq_ok hRun
  obtain ⟨_, _, ⟨⟩, hRun⟩ := exists_of_bind_eq_ok hRun
  cases hRun
  obtain ⟨hDepth₁, hReady₁, hEq⟩ := (stayExpressions fuel).binary 0 t 0 0 before
    { s with depth := s.depth + 1 } e s₁ hs (by simp [hDepth]) ⟨hReady.1, hReady.2⟩ hBinary
  refine ⟨by simp [hDepth₁], ⟨hReady₁.1, hReady₁.2⟩, ?_⟩
  simp only [hComments, List.append_nil]
  exact hEq

theorem places_condition {keyword : String} :
    Places t 0 .condition .statement before (condition fuel keyword)
      fun e => before ++ e.comments := by
  apply places_expect (by decide) rfl
  intro t₁
  apply places_expression.bind
  intro e t₂
  exact places_expect (by decide) rfl fun t₃ => places_pure rfl

theorem places_names {missing : SyntaxProblem} :
    Places t 0 .heading .heading before (names missing fuel) fun ns => before ++ commentsOf ns := by
  have hPlaces : ∀ fuel t,
      Places t 0 .heading .heading before (names missing fuel) fun _ => before := by
    intro fuel
    induction fuel with
    | zero =>
      intro t
      rw [names]
      exact places_endless
    | succ fuel ih =>
      intro t
      rw [names]
      apply places_expect (by decide) rfl
      intro t₁
      apply places_previous
      intro x
      apply places_checkName
      apply places_accept (by decide) rfl
      · intro t₂
        exact (ih t₂).bind fun rest t₃ => places_pure rfl
      · exact fun _ => places_pure rfl
  refine (hPlaces fuel t).imp fun s ns s' hRun => ?_
  rw [commentsOf_of_isFreeName (isFreeName_of_names hRun), List.append_nil]

def isLead (kind : TokenKind) : Bool :=
  kind ∈ [.kwIf, .kwWhile, .kwReturn, .kwGlobal, .kwFunc]

/-- Before any other token than those keywords, an expression is as good as begun. -/
theorem due_statement (hReady : s.Ready) (h : isLead s.current.kind = false) :
    s.due .statement = s.due (.expression 0) := by
  have hStep : Site.statement.step s.current.kind = (Site.expression 0).step s.current.kind := by
    revert h
    cases s.current.kind <;> intro h <;> first | rfl | cases h
  rw [State.due, State.due, keptFrom_cons hReady.significant, keptFrom_cons hReady.significant,
    hStep]

theorem places_simpleStatement (ht : isLead t.kind = false) :
    Places t 0 .statement .statement before (simpleStatement fuel)
      fun n => before ++ n.comments := by
  have hPlaces : Places t 0 (.expression 0) .statement before (simpleStatement fuel)
      fun n => before ++ n.comments := by
    apply places_expression.bind
    intro e t₁
    apply places_current
    split
    · next hAssign =>
      split
      · apply places_take hAssign (by decide) rfl
        intro t₂
        apply places_expression.bind
        intro rhs t₃
        exact places_expect (by decide) rfl fun t₄ => places_node rfl (by simp [children])
      · exact places_fail
    · split
      · exact places_expect (by decide) rfl fun t₂ => places_pure rfl
      · exact places_fail
  rintro s n s' rfl hDepth hReady hRun
  rw [due_statement hReady ht]
  exact hPlaces s n s' rfl hDepth hReady hRun

structure PlaceStatements (fuel : Nat) : Prop where
  block : ∀ t site before, site.step .lbrace = (.statement, false) →
    Places t 0 site .statement before (block fuel) fun n => before ++ n.comments
  blockItems : ∀ t before,
    Places t 0 .statement .statement before (blockItems fuel) fun ns => before ++ commentsOf ns
  statement : ∀ t before,
    Places t 0 .statement .statement before (statement fuel) fun n => before ++ n.comments

theorem placeStatements_zero : PlaceStatements 0 where
  block := by intro t site before _; rw [Parser.block]; exact places_endless
  blockItems := by intro t before; rw [Parser.blockItems]; exact places_endless
  statement := by intro t before; rw [Parser.statement]; exact places_endless

section

variable {fuel : Nat} (ih : PlaceStatements fuel)

include ih

theorem places_block_succ (t : Token) (site : Site) (before : List Node)
    (hSite : site.step .lbrace = (.statement, false)) :
    Places t 0 site .statement before (block (fuel + 1)) fun n => before ++ n.comments := by
  rw [block]
  apply places_current
  apply places_expect (by decide) hSite
  intro t₁
  apply (ih.blockItems t₁ before).bind
  intro stmts t₂
  exact places_expect (by decide) rfl fun t₃ => places_node rfl (by simp [children])

theorem places_blockItems_succ (t : Token) (before : List Node) :
    Places t 0 .statement .statement before (blockItems (fuel + 1))
      fun ns => before ++ commentsOf ns := by
  rw [blockItems]
  apply places_drainComments
  intro waiting
  apply places_current
  split
  · exact places_pure (by simp)
  · apply (ih.statement t _).bind
    intro stmt t₁
    apply (ih.blockItems t₁ _).bind
    exact fun rest t₂ => places_pure (by simp)

theorem places_statement_succ (t : Token) (before : List Node) :
    Places t 0 .statement .statement before (statement (fuel + 1))
      fun n => before ++ n.comments := by
  rw [statement]
  apply places_current
  split
  · next hKind =>
    apply places_take hKind (by decide) rfl
    intro t₁
    apply places_condition.bind
    intro cond t₂
    apply (ih.statement t₂ _).bind
    intro thenBody t₃
    apply places_accept (by decide) rfl
    · intro t₄
      apply (ih.statement t₄ _).bind
      exact fun elseBody t₅ => places_node rfl (by simp [children])
    · exact fun _ => places_node rfl (by simp [children])
  · next hKind =>
    apply places_take hKind (by decide) rfl
    intro t₁
    apply places_condition.bind
    intro cond t₂
    apply (ih.statement t₂ _).bind
    exact fun body t₃ => places_node rfl (by simp [children])
  · exact ih.block t .statement before rfl
  · next hKind =>
    apply places_take hKind (by decide) rfl
    intro t₁
    apply places_names.bind
    intro ns t₂
    exact places_expect (by decide) rfl fun t₃ => places_node rfl (by simp [children])
  · next hKind =>
    apply places_take hKind (by decide) rfl
    intro t₁
    apply places_check
    intro b _
    split
    · exact places_expect (by decide) rfl fun t₂ => places_node rfl (by simp [children])
    · apply places_expression.bind
      intro e t₂
      exact places_expect (by decide) rfl fun t₃ => places_node rfl (by simp [children])
  · next hKind =>
    apply places_take hKind (by decide) rfl
    exact fun t₁ => places_node rfl (by simp [children])
  · exact places_fail
  · next hIf hWhile hBlock hGlobal hReturn hSemi hFunc =>
    exact places_simpleStatement (by simp_all [isLead])

end

theorem placeStatements (fuel : Nat) : PlaceStatements fuel := by
  induction fuel with
  | zero => exact placeStatements_zero
  | succ fuel ih =>
    exact ⟨places_block_succ ih, places_blockItems_succ ih, places_statement_succ ih⟩

theorem places_functionRest {name : Token} {params placed : List Node}
    (hPlaced : placed = before ++ commentsOf params) :
    Places t 0 .heading .statement placed (do
      expect .rparen .parametersNotClosed
      let t ← current
      if t.kind = .lbrace then do
        let body ← block fuel
        pure (Node.func name.span name.value params body)
      else fail t.span (.bodyNotOpened name.value)) fun n => before ++ n.comments := by
  subst hPlaced
  apply places_expect (by decide) rfl
  intro t₁
  apply places_current
  split
  · apply ((placeStatements fuel).block t₁ .heading _ rfl).bind
    exact fun body t₂ => places_node rfl (by simp [children])
  · exact places_fail

theorem places_function :
    Places t 0 .heading .statement before (function fuel) fun n => before ++ n.comments := by
  apply places_expect (by decide) rfl
  intro t₁
  apply places_previous
  intro name
  apply places_checkName
  apply places_expect (by decide) rfl
  intro t₂
  apply places_check
  intro b _
  split
  · exact places_functionRest (by simp)
  · exact places_names.bind fun params t₃ => places_functionRest rfl

theorem places_items :
    Places t 0 .statement .statement before (items fuel) fun ns => before ++ commentsOf ns := by
  induction fuel generalizing t before with
  | zero =>
    rw [items]
    exact places_endless
  | succ fuel ih =>
    rw [items]
    apply places_drainComments
    intro waiting
    apply places_check
    intro b _
    split
    · exact places_pure (by simp)
    · apply places_accept (by decide) rfl
      · intro t₁
        apply places_function.bind
        intro f t₂
        apply ih.bind
        exact fun rest t₃ => places_pure (by simp)
      · intro _
        apply ((placeStatements fuel).statement t _).bind
        intro stmt t₁
        apply ih.bind
        exact fun rest t₂ => places_pure (by simp)

theorem places_program : Places t 0 .statement .statement [] (program fuel) Node.comments := by
  apply places_current
  apply places_items.bind
  exact fun stmts t₁ => places_pure (comments_eq (n := .block t.span stmts true) rfl).symm

theorem ends_of_items (h : items fuel s = .ok ns s') :
    s'.current.kind = .eof ∧ s'.pending = [] := by
  induction fuel generalizing s s' ns with
  | zero =>
    rw [items] at h
    cases h
  | succ fuel ih =>
    rw [items] at h
    obtain ⟨_, _, ⟨⟩, h⟩ := exists_of_bind_eq_ok h
    obtain ⟨_, _, ⟨⟩, h⟩ := exists_of_bind_eq_ok h
    split at h
    · next hEnd =>
      cases h
      exact ⟨of_decide_eq_true hEnd, rfl⟩
    · obtain ⟨taken, s₁, _, h⟩ := exists_of_bind_eq_ok h
      split at h
      · obtain ⟨_, s₂, _, h⟩ := exists_of_bind_eq_ok h
        obtain ⟨_, s₃, hItems, h⟩ := exists_of_bind_eq_ok h
        cases h
        exact ih hItems
      · obtain ⟨_, s₂, _, h⟩ := exists_of_bind_eq_ok h
        obtain ⟨_, s₃, hItems, h⟩ := exists_of_bind_eq_ok h
        cases h
        exact ih hItems

theorem ends_of_program {root : Node} (h : program fuel s = .ok root s') :
    s'.current.kind = .eof ∧ s'.pending = [] := by
  obtain ⟨_, _, ⟨⟩, h⟩ := exists_of_bind_eq_ok h
  obtain ⟨_, s₁, hItems, h⟩ := exists_of_bind_eq_ok h
  cases h
  exact ends_of_items hItems

end Parser

theorem due_of_eof {site : Site} (hKind : s.current.kind = .eof) (hPending : s.pending = []) :
    s.due site = [] := by
  rw [State.due, hPending, keptFrom, if_pos hKind]
  rfl

theorem exists_of_parse? {p : Parsed} (hParse : parse? settings tokens = some p)
    (hRoot : p.result = .ok root) :
    ∃ s s', State.start? settings tokens = some s ∧
      Parser.program (fuelFor tokens.length) s = .ok root s' := by
  obtain ⟨s, hStart, hRun⟩ := Option.map_eq_some_iff.mp hParse
  refine ⟨s, ?_⟩
  split at hRun
  · next n s' hProgram =>
    subst hRun
    cases hRoot
    exact ⟨s', hStart, hProgram⟩
  · subst hRun
    cases hRoot

theorem comments_of_program {last : Token} (hLast : tokens.getLast? = some last)
    (hKind : last.kind = .eof) (hStart : State.start? settings tokens = some s)
    (hRun : Parser.program fuel s = .ok root s') :
    root.comments = (keptComments tokens).map Token.asComment := by
  have hEof : ∃ t ∈ tokens, t.kind = .eof := ⟨last, List.mem_of_getLast? hLast, hKind⟩
  obtain ⟨hEnd, hPending⟩ := Parser.ends_of_program hRun
  rw [State.start?, hLast, Option.map_some, Option.some.injEq] at hStart
  subst hStart
  have hPlaces := Parser.places_program _ root s' rfl (depth_settle _ _) (ready_settle hEof) hRun
  rw [due_settle _ hEof, due_of_eof hEnd hPending] at hPlaces
  simpa [keptComments] using hPlaces.2.2.symm

/-- The comments of a parsed tree are those of its tokens that do not follow a token of an
expression: all of them up to the first end of file, each once and in order. None is left waiting. -/
theorem comments_of_parse {settings : Settings} {tokens : List Token} {last : Token} {p : Parsed}
    {root : Node} (hLast : tokens.getLast? = some last) (hKind : last.kind = .eof)
    (hParse : parse? settings tokens = some p) (hRoot : p.result = .ok root) :
    root.walk.filter isComment = (keptComments tokens).map Token.asComment ∧
      ∃ s s', State.start? settings tokens = some s ∧
        Parser.program (fuelFor tokens.length) s = .ok root s' ∧ s'.pending = [] := by
  obtain ⟨s, s', hStart, hRun⟩ := exists_of_parse? hParse hRoot
  have hComments := comments_of_program hLast hKind hStart hRun
  exact ⟨hComments, s, s', hStart, hRun, (Parser.ends_of_program hRun).2⟩

/-- Numbered comments in every kind of place: around a condition, a block and an `else`, among
arguments, on both sides of an assignment, and before each of two ends of file. -/
def commentedTokens : List Token :=
  [{ kind := .comment, value := "1" }, { kind := .kwIf }, { kind := .lparen },
    { kind := .ident, value := "a" }, { kind := .comment, value := "2" }, { kind := .rparen },
    { kind := .comment, value := "3" }, { kind := .lbrace }, { kind := .comment, value := "4" },
    { kind := .ident, value := "f" }, { kind := .lparen }, { kind := .ident, value := "b" },
    { kind := .comma }, { kind := .comment, value := "5" }, { kind := .lbracket },
    { kind := .rbracket }, { kind := .comment, value := "6" }, { kind := .rparen },
    { kind := .semi }, { kind := .comment, value := "7" }, { kind := .rbrace },
    { kind := .comment, value := "8" }, { kind := .kwElse }, { kind := .comment, value := "9" },
    { kind := .ident, value := "x" }, { kind := .comment, value := "10" }, { kind := .assign },
    { kind := .comment, value := "11" }, { kind := .ident, value := "y" }, { kind := .semi },
    { kind := .comment, value := "12" }, { kind := .eof }, { kind := .comment, value := "13" },
    { kind := .eof }]

theorem comments_of_parse_commentedTokens :
    ∃ p root, parse? {} commentedTokens = some p ∧ p.result = .ok root ∧
      root.walk.filter isComment =
        ["1", "3", "4", "7", "8", "9", "11", "12"].map (Node.comment {}) ∧
      ∃ s s', State.start? {} commentedTokens = some s ∧
        Parser.program (fuelFor commentedTokens.length) s = .ok root s' ∧ s'.pending = [] := by
  have hEval : (parse? {} commentedTokens).map (fun p => p.result.toOption.isSome) = some true := by
    decide +kernel
  obtain ⟨p, hParse, hAccepted⟩ := Option.map_eq_some_iff.mp hEval
  cases hRoot : p.result with
  | ok root =>
    obtain ⟨hComments, hRun⟩ := comments_of_parse rfl rfl hParse hRoot
    exact ⟨p, root, hParse, hRoot, hComments, hRun⟩
  | error why =>
    rw [hRoot] at hAccepted
    cases hAccepted

end Syntax

end BatchCompiler
