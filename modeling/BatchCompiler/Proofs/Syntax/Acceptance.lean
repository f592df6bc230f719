import BatchCompiler.Proofs.Syntax.Accepting

/-!
# Parsing accepts exactly the grammar

A list of tokens that has one end of the file, as its last token, is parsed to a tree if and only if
its significant tokens are a program. A statement is read in full if no `else` follows that would
belong to it.
-/

namespace BatchCompiler.Syntax

namespace Parser

variable {tokens ts rest : List Token} {T : Reply Node → Prop} {n : Node} {fuel : Nat}

section

variable {fuel : Nat} {us ts rest : List Token} {first last : Token} {n : Node}

theorem accepts_expression (h : Expression (.binary 0) ts n) (hFuel : 3 * ts.length + 2 ≤ fuel)
    (hEnds : Ends 0 rest) : Accepts (expression fuel) ts rest (· = n) := by
  have hRun := accepts_binary (completes_of_expression h) hFuel (Nat.zero_le _) hEnds
  refine silent_enter.answers fun _ _ => hRun.last ?_
  rintro _ rfl
  exact silent_leave.answers fun _ _ => accepts_pure rfl

theorem answers_condition {keyword : String} {k : Node → Parser Node}
    (hFirst : first.kind = .lparen) (h : Expression (.binary 0) us n) (hLast : last.kind = .rparen)
    (hFuel : 3 * us.length + 2 ≤ fuel) (hk : Answers (k n) ts rest T) :
    Answers (condition fuel keyword >>= k) (first :: us ++ last :: ts) rest T := by
  have hEnds : Ends 0 ([last] ++ (ts ++ rest)) := ends_of_closer (by rw [hLast]; decide)
  have hCondition :
      Accepts (condition fuel keyword) (first :: us ++ [last]) (ts ++ rest) (· = n) := by
    refine answers_expect hFirst ((accepts_expression h hFuel hEnds).bind ?_)
    rintro _ rfl
    exact answers_expect hLast (accepts_pure rfl)
  have hTokens : first :: us ++ last :: ts = (first :: us ++ [last]) ++ ts := by simp
  rw [hTokens]
  refine hCondition.bind ?_
  rintro _ rfl
  exact hk

theorem accepts_names {missing : SyntaxProblem} {parts : List (List Token × Node)}
    (hListed : Listed parts ts) (hParts : ∀ x ∈ parts, IsNamed x) (hSome : parts ≠ [])
    (hFuel : ts.length ≤ fuel) (hLast : last.kind ≠ .comma) :
    Accepts (names missing fuel) ts (last :: rest) (· = parts.map Prod.snd) := by
  induction hListed generalizing fuel with
  | nil => exact absurd rfl hSome
  | one x =>
    obtain ⟨t, ht, rfl⟩ := hParts x List.mem_cons_self
    cases fuel with
    | zero => cases hFuel
    | succ fuel =>
      rw [names]
      refine answers_expect_previous ht.kind (answers_checkName ht.free ?_)
      refine answers_accept_of_ne ?_ (accepts_pure rfl)
      rintro t more ⟨⟩
      exact hLast
  | @more x others comma ts hComma hRest hOthers ih =>
    obtain ⟨t, ht, rfl⟩ := hParts x List.mem_cons_self
    simp only [List.length_append, List.length_cons] at hFuel
    cases fuel with
    | zero => cases hFuel
    | succ fuel =>
      rw [names]
      have hLess : ts.length ≤ fuel := by omega
      have hTail := ih (fun y hy => hParts y (List.mem_cons_of_mem _ hy)) hOthers hLess
      refine answers_expect_previous ht.kind (answers_checkName ht.free ?_)
      refine answers_accept hComma (hTail.last ?_)
      rintro _ rfl
      exact accepts_pure rfl

end

def statementStarts : List TokenKind :=
  [.semi, .lbrace, .kwIf, .kwWhile, .kwReturn, .kwGlobal] ++ expressionStarts

theorem startsWith_of_statement (h : Statement ts n) : StartsWith statementStarts ts := by
  have hExpression : expressionStarts ⊆ statementStarts := List.subset_append_right _ _
  cases h with
  | empty hKind | block hKind | branch hKind | branchElse hKind | loop hKind | ret hKind
  | retValue hKind | globals hKind => exact ⟨_, _, rfl, by rw [hKind]; decide⟩
  | assign hLhs =>
    rw [List.append_assoc]
    exact ((startsWith_of_expression hLhs).mono hExpression).append _
  | call h => exact ((startsWith_of_expression h).mono hExpression).append _

def Settled (n : Node) (rest : List Token) : Prop :=
  dangles n = true → ∀ t more, rest = t :: more → t.kind ≠ .kwElse

def Stated (ts : List Token) (n : Node) : Prop :=
  ∀ fuel rest, 3 * ts.length + 1 ≤ fuel → Settled n rest →
    Accepts (statement fuel) ts rest fun n' => n'.bare = n

theorem kind_ne_else {kinds : List TokenKind} {parts : List (List Token × Node)} {last : Token}
    (hKinds : .kwElse ∉ kinds) (hParts : ∀ x ∈ parts, StartsWith kinds x.1)
    (hLast : last.kind ≠ .kwElse) :
    ∀ t more, parts.flatMap Prod.fst ++ last :: rest = t :: more → t.kind ≠ .kwElse := by
  intro t more hEq
  cases parts with
  | nil =>
    cases hEq
    exact hLast
  | cons x others =>
    obtain ⟨t', us, hHead, hKind⟩ := hParts x List.mem_cons_self
    rw [List.flatMap_cons, hHead] at hEq
    cases hEq
    exact fun hElse => hKinds (hElse ▸ hKind)

section

variable {fuel : Nat} {us ts rest : List Token} {keyword first last : Token}

variable {parts : List (List Token × Node)} {cond body : Node}

theorem accepts_blockItems (hDerived : ∀ x ∈ parts, Statement x.1 x.2)
    (hParts : ∀ x ∈ parts, Stated x.1 x.2) (hFuel : 3 * (parts.flatMap Prod.fst).length + 2 ≤ fuel)
    (hLast : last.kind = .rbrace) :
    Accepts (blockItems fuel) (parts.flatMap Prod.fst) (last :: rest)
      fun ns => Node.bareOf ns = parts.map Prod.snd := by
  induction parts generalizing fuel with
  | nil =>
    cases fuel with
    | zero => cases hFuel
    | succ fuel =>
      rw [blockItems]
      refine silent_drainComments.answers fun comments hComments => answers_current rfl ?_
      rw [if_pos (by simp [hLast])]
      exact accepts_pure (bareOf_comments hComments)
  | cons x others ih =>
    rw [List.forall_mem_cons] at hDerived hParts
    rw [List.flatMap_cons, List.length_append] at hFuel
    have hStarts := startsWith_of_statement hDerived.1
    have hPos := hStarts.length_pos
    obtain ⟨t, us, hHead, hKind⟩ := hStarts
    have hGoes : ¬(t.kind = .rbrace || t.kind = .eof) = true := by
      revert hKind
      generalize t.kind = kind
      revert kind
      decide
    have hSettled : Settled x.2 (others.flatMap Prod.fst ++ last :: rest) := fun _ =>
      kind_ne_else (by decide) (fun y hy => startsWith_of_statement (hDerived.2 y hy))
        (by simp [hLast])
    cases fuel with
    | zero => omega
    | succ fuel =>
      rw [blockItems, List.flatMap_cons]
      refine silent_drainComments.answers fun comments hComments => ?_
      refine answers_current (by rw [hHead]; rfl) ?_
      rw [if_neg hGoes]
      refine (hParts.1 fuel _ (by omega) hSettled).bind fun n hn => ?_
      refine (ih hDerived.2 hParts.2 (by omega)).last fun ns hns => accepts_pure ?_
      have hNode : n.bare.isComment = false := by
        rw [hn]
        exact isComment_of_statement hDerived.1
      rw [bareOf_comments_cons hComments hNode, hn, hns]
      rfl

theorem accepts_block (hFirst : first.kind = .lbrace) (hDerived : ∀ x ∈ parts, Statement x.1 x.2)
    (hParts : ∀ x ∈ parts, Stated x.1 x.2) (hLast : last.kind = .rbrace)
    (hFuel : 3 * (first :: parts.flatMap Prod.fst ++ [last]).length ≤ fuel) :
    Accepts (block fuel) (first :: parts.flatMap Prod.fst ++ [last]) rest
      fun n => n.bare = .block first.span (parts.map Prod.snd) false := by
  rw [List.length_append, List.length_cons, List.length_singleton] at hFuel
  cases fuel with
  | zero => omega
  | succ fuel =>
    rw [block, List.cons_append]
    refine answers_current rfl (answers_expect hFirst ?_)
    refine (accepts_blockItems hDerived hParts (by omega) hLast).bind fun ns hns => ?_
    refine answers_expect hLast (accepts_pure ?_)
    rw [Node.bare, hns]

theorem answers_statement_simple (hStarts : StartsWith expressionStarts ts)
    (h : Answers (simpleStatement fuel) ts rest T) : Answers (statement (fuel + 1)) ts rest T := by
  obtain ⟨t, us, hHead, hKind⟩ := hStarts
  rw [statement]
  refine answers_current (by rw [hHead]; rfl) ?_
  split
  case h_8 => exact h
  all_goals
    next hEq =>
      rw [hEq] at hKind
      exact absurd hKind (by decide)

theorem stated_assign {op : Token} {lhs rhs : Node} (hLhs : Expression (.binary 0) us lhs)
    (hPlace : lhs.isPlace = true) (hOp : op.kind = .assign) (hRhs : Expression (.binary 0) ts rhs)
    (hLast : last.kind = .semi) : Stated (us ++ op :: ts ++ [last]) (.assign op.span lhs rhs) := by
  intro fuel rest hFuel _
  have hStarts := startsWith_of_expression hLhs
  have hLength : (us ++ op :: ts ++ [last]).length = us.length + ts.length + 2 := by
    simp only [List.length_append, List.length_cons, List.length_nil]
    omega
  rw [hLength] at hFuel
  rw [List.append_assoc]
  cases fuel with
  | zero => omega
  | succ fuel =>
    have hEnds : Ends 0 (op :: ts ++ [last] ++ rest) := ends_of_closer (by rw [hOp]; decide)
    have hClosed : Ends 0 ([last] ++ rest) := ends_of_closer (by rw [hLast]; decide)
    refine answers_statement_simple (hStarts.append _) ?_
    refine (accepts_expression hLhs (by omega) hEnds).bind ?_
    rintro _ rfl
    refine answers_current rfl ?_
    rw [if_pos hOp, if_pos hPlace]
    refine answers_advance ((accepts_expression hRhs (by omega) hClosed).bind ?_)
    rintro _ rfl
    exact answers_expect hLast (accepts_pure rfl)

theorem stated_call (h : Expression (.binary 0) ts n) (hCall : n.isCall = true)
    (hLast : last.kind = .semi) : Stated (ts ++ [last]) n := by
  intro fuel rest hFuel _
  have hStarts := startsWith_of_expression h
  rw [List.length_append, List.length_singleton] at hFuel
  cases fuel with
  | zero => omega
  | succ fuel =>
    have hEnds : Ends 0 ([last] ++ rest) := ends_of_closer (by rw [hLast]; decide)
    refine answers_statement_simple (hStarts.append _) ?_
    refine (accepts_expression h (by omega) hEnds).bind ?_
    rintro _ rfl
    refine answers_current rfl ?_
    rw [if_neg (by simp [hLast]), if_pos hCall]
    exact answers_expect hLast (accepts_pure (bare_of_isCall hCall))

theorem stated_retValue (hKeyword : keyword.kind = .kwReturn) (h : Expression (.binary 0) ts n)
    (hLast : last.kind = .semi) : Stated (keyword :: ts ++ [last]) (.ret keyword.span n) := by
  intro fuel rest hFuel _
  obtain ⟨t, us, hHead, hKind⟩ := startsWith_of_expression h
  have hValue : t.kind ≠ .semi := by
    intro hSemi
    rw [hSemi] at hKind
    exact absurd hKind (by decide)
  rw [List.length_append, List.length_cons, List.length_singleton] at hFuel
  cases fuel with
  | zero => omega
  | succ fuel =>
    have hEnds : Ends 0 ([last] ++ rest) := ends_of_closer (by rw [hLast]; decide)
    rw [statement, List.cons_append]
    refine answers_current rfl ?_
    rw [hKeyword]
    refine answers_advance (answers_check (by rw [hHead]; rfl) ?_)
    rw [decide_eq_false hValue]
    refine (accepts_expression h (by omega) hEnds).bind ?_
    rintro _ rfl
    exact answers_expect hLast (accepts_pure rfl)

theorem stated_globals (hKeyword : keyword.kind = .kwGlobal) (hParts : ∀ x ∈ parts, IsNamed x)
    (hListed : Listed parts ts) (hSome : parts ≠ []) (hLast : last.kind = .semi) :
    Stated (keyword :: ts ++ [last]) (.globals keyword.span (parts.map Prod.snd)) := by
  intro fuel rest hFuel _
  rw [List.length_append, List.length_cons, List.length_singleton] at hFuel
  cases fuel with
  | zero => omega
  | succ fuel =>
    rw [statement, List.cons_append]
    refine answers_current rfl ?_
    rw [hKeyword]
    have hLess : ts.length ≤ fuel := by omega
    have hComma : last.kind ≠ .comma := by simp [hLast]
    refine answers_advance ((accepts_names hListed hParts hSome hLess hComma).bind ?_)
    rintro _ rfl
    exact answers_expect hLast (accepts_pure rfl)

section

variable (hFirst : first.kind = .lparen) (hCond : Expression (.binary 0) us cond)
  (hLast : last.kind = .rparen) (hBody : Stated ts body)

include hFirst hCond hLast hBody

theorem stated_branch (hKeyword : keyword.kind = .kwIf) :
    Stated (keyword :: first :: us ++ last :: ts) (.branch keyword.span cond body .absent) := by
  intro fuel rest hFuel hSettled
  have hNext : ∀ t more, rest = t :: more → t.kind ≠ .kwElse := hSettled rfl
  simp only [List.length_append, List.length_cons] at hFuel
  cases fuel with
  | zero => omega
  | succ fuel =>
    rw [statement, List.cons_append]
    refine answers_current rfl ?_
    rw [hKeyword]
    refine answers_advance (answers_condition hFirst hCond hLast (by omega) ?_)
    refine (hBody fuel rest (by omega) fun _ => hNext).last fun n hn => ?_
    exact answers_accept_of_ne hNext (accepts_pure (by rw [Node.bare, hn]; rfl))

theorem stated_branchElse {other : Token} {vs : List Token} {elseBody : Node}
    (hKeyword : keyword.kind = .kwIf) (hNearest : dangles body = false)
    (hOther : other.kind = .kwElse) (hElse : Stated vs elseBody) :
    Stated (keyword :: first :: us ++ last :: ts ++ other :: vs)
      (.branch keyword.span cond body elseBody) := by
  intro fuel rest hFuel hSettled
  have hNext : Settled elseBody rest := fun hDangles =>
    hSettled (by rw [dangles, hDangles, Bool.or_true])
  simp only [List.length_append, List.length_cons] at hFuel
  cases fuel with
  | zero => omega
  | succ fuel =>
    rw [statement, List.append_assoc, List.cons_append, List.cons_append]
    refine answers_current rfl ?_
    rw [hKeyword]
    refine answers_advance (answers_condition hFirst hCond hLast (by omega) ?_)
    refine (hBody fuel _ (by omega) fun hDangles => ?_).bind fun n hn => ?_
    · rw [hNearest] at hDangles
      cases hDangles
    · refine answers_accept hOther ((hElse fuel rest (by omega) hNext).last fun m hm => ?_)
      exact accepts_pure (by rw [Node.bare, hn, hm])

theorem stated_loop (hKeyword : keyword.kind = .kwWhile) :
    Stated (keyword :: first :: us ++ last :: ts) (.loop keyword.span cond body) := by
  intro fuel rest hFuel hSettled
  simp only [List.length_append, List.length_cons] at hFuel
  cases fuel with
  | zero => omega
  | succ fuel =>
    rw [statement, List.cons_append]
    refine answers_current rfl ?_
    rw [hKeyword]
    refine answers_advance (answers_condition hFirst hCond hLast (by omega) ?_)
    refine (hBody fuel rest (by omega) hSettled).last fun n hn => accepts_pure ?_
    rw [Node.bare, hn]

end

end

theorem stated_of_statement (h : Statement ts n) : Stated ts n := by
  induction h with
  | empty hKind =>
    intro fuel rest hFuel _
    cases fuel with
    | zero => cases hFuel
    | succ fuel =>
      rw [statement]
      refine answers_current rfl ?_
      rw [hKind]
      exact answers_advance (accepts_pure rfl)
  | block hFirst hParts hLast ih =>
    intro fuel rest hFuel _
    cases fuel with
    | zero => cases hFuel
    | succ fuel =>
      rw [statement]
      refine answers_current rfl ?_
      rw [hFirst]
      exact accepts_block hFirst hParts ih hLast (by omega)
  | branch hKeyword hFirst hCond hLast hBody ih =>
    exact stated_branch hFirst hCond hLast ih hKeyword
  | branchElse hKeyword hFirst hCond hLast hBody hNearest hOther hElse ihBody ihElse =>
    exact stated_branchElse hFirst hCond hLast ihBody hKeyword hNearest hOther ihElse
  | loop hKeyword hFirst hCond hLast hBody ih => exact stated_loop hFirst hCond hLast ih hKeyword
  | ret hKeyword hLast =>
    intro fuel rest hFuel _
    cases fuel with
    | zero => cases hFuel
    | succ fuel =>
      rw [statement]
      refine answers_current rfl ?_
      rw [hKeyword]
      refine answers_advance (answers_check rfl ?_)
      rw [decide_eq_true hLast]
      exact answers_expect hLast (accepts_pure rfl)
  | retValue hKeyword h hLast => exact stated_retValue hKeyword h hLast
  | globals hKeyword hParts hListed hSome hLast =>
    exact stated_globals hKeyword hParts hListed hSome hLast
  | assign hLhs hPlace hOp hRhs hLast => exact stated_assign hLhs hPlace hOp hRhs hLast
  | call h hCall hLast => exact stated_call h hCall hLast

theorem accepts_block_of_statement {span : Span} {stmts : List Node}
    (h : Statement ts (.block span stmts false)) (hFuel : 3 * ts.length ≤ fuel) :
    StartsWith [.lbrace] ts ∧
      Accepts (block fuel) ts rest fun n => n.bare = .block span stmts false := by
  cases h with
  | block hFirst hParts hLast =>
    refine ⟨⟨_, _, rfl, List.mem_singleton.mpr hFirst⟩, ?_⟩
    exact accepts_block hFirst hParts (fun x hx => stated_of_statement (hParts x hx)) hLast hFuel
  | call h hCall hLast => cases hCall

section

variable {fuel : Nat} {name first last : Token} {ts rest : List Token} {span : Span}
  {stmts : List Node}

theorem accepts_body {ns : List Node} (hLast : last.kind = .rparen)
    (hBody : Statement ts (.block span stmts false)) (hFuel : 3 * ts.length ≤ fuel) :
    Accepts (do
      expect .rparen .parametersNotClosed
      let t ← current
      if t.kind = .lbrace then do
        let body ← block fuel
        pure (Node.func name.span name.value ns body)
      else fail t.span (.bodyNotOpened name.value)) (last :: ts) rest
      fun n => n.bare = .func name.span name.value ns (.block span stmts false) := by
  obtain ⟨hStarts, hBlock⟩ := accepts_block_of_statement hBody hFuel
  obtain ⟨t, us, hHead, hKind⟩ := hStarts
  refine answers_expect hLast (answers_current (by rw [hHead]; rfl) ?_)
  rw [if_pos (List.mem_singleton.mp hKind)]
  exact hBlock.last fun body hn => accepts_pure (by rw [Node.bare, hn])

theorem accepts_function {parts : List (List Token × Node)} {us : List Token} (hName : IsFree name)
    (hFirst : first.kind = .lparen) (hParts : ∀ x ∈ parts, IsNamed x) (hListed : Listed parts us)
    (hLast : last.kind = .rparen) (hBody : Statement ts (.block span stmts false))
    (hFuel : us.length + 3 * ts.length ≤ fuel) :
    Accepts (function fuel) (name :: first :: us ++ last :: ts) rest fun n =>
      n.bare = .func name.span name.value (parts.map Prod.snd) (.block span stmts false) := by
  refine answers_expect_previous hName.kind (answers_checkName hName.free ?_)
  refine answers_expect hFirst ?_
  by_cases hSome : parts = []
  · subst hSome
    cases hListed
    refine answers_check rfl ?_
    rw [decide_eq_true hLast]
    exact accepts_body hLast hBody (by omega)
  · have hStarts : StartsWith [.ident] us := by
      refine startsWith_of_listed hListed (fun x hx => ?_) hSome
      obtain ⟨t, ht, rfl⟩ := hParts x hx
      exact ⟨t, [], rfl, List.mem_singleton.mpr ht.kind⟩
    obtain ⟨t, vs, hHead, hKind⟩ := hStarts
    have hNe : t.kind ≠ .rparen := by rw [List.mem_singleton.mp hKind]; decide
    have hComma : last.kind ≠ .comma := by rw [hLast]; decide
    have hLess : us.length ≤ fuel := by omega
    refine answers_check (by rw [hHead]; rfl) ?_
    rw [decide_eq_false hNe]
    refine (accepts_names hListed hParts hSome hLess hComma).bind ?_
    rintro _ rfl
    exact accepts_body hLast hBody (by omega)

end

theorem startsWith_of_item (h : Item ts n) : StartsWith (.kwFunc :: statementStarts) ts := by
  cases h with
  | statement h => exact (startsWith_of_statement h).mono (List.subset_cons_self _ _)
  | function hKeyword => exact ⟨_, _, rfl, by rw [hKeyword]; decide⟩

theorem answers_item {more : List Token} {k : Node → Parser (List Node)}
    {T : Reply (List Node) → Prop} (h : Item ts n) (hFuel : 3 * ts.length + 1 ≤ fuel)
    (hSettled : Settled n (more ++ rest)) (hk : ∀ n', n'.bare = n → Answers (k n') more rest T) :
    Answers (do
      if ← accept .kwFunc then do
        let f ← function fuel
        k f
      else do
        let stmt ← statement fuel
        k stmt) (ts ++ more) rest T := by
  cases h with
  | statement h =>
    obtain ⟨t, us, hHead, hKind⟩ := startsWith_of_statement h
    refine answers_accept_of_ne ?_ ((stated_of_statement h fuel _ hFuel hSettled).bind hk)
    intro t' others hEq hFunc
    rw [hHead] at hEq
    cases hEq
    rw [hFunc] at hKind
    exact absurd hKind (by decide)
  | function hKeyword hName hFirst hNames hListed hClosing hBody =>
    simp only [List.length_append, List.length_cons] at hFuel
    refine answers_accept hKeyword ?_
    exact (accepts_function hName hFirst hNames hListed hClosing hBody (by omega)).bind hk

theorem accepts_items {parts : List (List Token × Node)} {last : Token}
    (hParts : ∀ x ∈ parts, Item x.1 x.2) (hLast : last.kind = .eof)
    (hFuel : 3 * (parts.flatMap Prod.fst).length + 2 ≤ fuel) :
    Accepts (items fuel) (parts.flatMap Prod.fst) [last]
      fun ns => Node.bareOf ns = parts.map Prod.snd := by
  induction parts generalizing fuel with
  | nil =>
    cases fuel with
    | zero => cases hFuel
    | succ fuel =>
      rw [items]
      refine silent_drainComments.answers fun comments hComments => answers_check rfl ?_
      rw [decide_eq_true hLast]
      exact accepts_pure (bareOf_comments hComments)
  | cons x others ih =>
    rw [List.forall_mem_cons] at hParts
    rw [List.flatMap_cons, List.length_append] at hFuel
    have hStarts := startsWith_of_item hParts.1
    have hPos := hStarts.length_pos
    obtain ⟨t, us, hHead, hKind⟩ := hStarts
    have hGoes : t.kind ≠ .eof := by
      intro hEof
      rw [hEof] at hKind
      exact absurd hKind (by decide)
    have hSettled : Settled x.2 (others.flatMap Prod.fst ++ [last]) := fun _ =>
      kind_ne_else (by decide) (fun y hy => startsWith_of_item (hParts.2 y hy)) (by simp [hLast])
    cases fuel with
    | zero => omega
    | succ fuel =>
      rw [items, List.flatMap_cons]
      refine silent_drainComments.answers fun comments hComments => ?_
      refine answers_check (by rw [hHead]; rfl) ?_
      rw [decide_eq_false hGoes]
      refine answers_item hParts.1 (by omega) hSettled fun n hn => ?_
      refine (ih hParts.2 (by omega)).last fun ns hns => accepts_pure ?_
      have hNode : n.bare.isComment = false := by
        rw [hn]
        exact isComment_of_item hParts.1
      rw [bareOf_comments_cons hComments hNode, hn, hns]
      rfl

theorem exists_program_eq_ok {s : State} (h : Program s.ahead n)
    (hFuel : 3 * s.ahead.length + 2 ≤ fuel) :
    ∃ root s', program fuel s = .ok root s' ∧ root.bare = n := by
  generalize hAhead : s.ahead = ts at h
  cases h with
  | @intro parts ts first last hParts hLast hTokens =>
    have hLength : 3 * (parts.flatMap Prod.fst).length + 2 ≤ fuel := by
      have := congrArg List.length (hAhead.trans hTokens.symm)
      rw [List.length_append, List.length_singleton] at this
      omega
    have hProgram : Accepts (program fuel) (parts.flatMap Prod.fst) [last]
        fun n => n.bare = .block first.span (parts.map Prod.snd) true := by
      refine answers_current hTokens ((accepts_items hParts hLast hLength).last fun ns hns => ?_)
      exact accepts_pure (by rw [Node.bare, hns])
    obtain ⟨root, s', hRun, hRoot, _⟩ := hProgram s (by simp) (hAhead.trans hTokens.symm)
    exact ⟨root, s', hRun, hRoot⟩

end Parser

theorem closed_filter (h : Closed tokens) : Closed (tokens.filter isSignificant) := by
  obtain ⟨us, last, rfl, hLast, hOthers⟩ := h
  have hSignificant : isSignificant last = true := by rw [isSignificant, hLast]; rfl
  refine ⟨us.filter isSignificant, last, ?_, hLast, fun t ht => hOthers t (List.mem_filter.mp ht).1⟩
  rw [List.filter_append, List.filter_cons_of_pos hSignificant, List.filter_nil]

theorem exists_start?_eq_some (settings : Settings) (h : Closed tokens) :
    ∃ s, State.start? settings tokens = some s ∧ s.ahead = tokens.filter isSignificant ∧
      5 * s.rest.length + 5 ≤ fuelFor tokens.length := by
  obtain ⟨vs, _, hFilter, _, _⟩ := closed_filter h
  obtain ⟨us, last, hEq, hLast, _⟩ := h
  have hSome : tokens.filter isSignificant ≠ [] := by
    rw [hFilter]
    simp
  obtain ⟨t, more, hHead⟩ := List.exists_cons_of_ne_nil hSome
  have hStart : State.start? settings tokens =
      some (State.settle { rest := [], last := last, current := last, settings := settings } tokens) := by
    rw [State.start?, hEq, List.getLast?_concat]
    rfl
  refine ⟨_, hStart, hHead ▸ ahead_settle hHead, ?_⟩
  exact (bounded_of_start? hStart ⟨last, by simp [hEq], hLast⟩).2

theorem exists_parse?_eq_some (settings : Settings) (h : Closed tokens) :
    ∃ s parsed, parse? settings tokens = some parsed ∧ s.ahead = tokens.filter isSignificant ∧
      5 * s.rest.length + 5 ≤ fuelFor tokens.length ∧
      ∀ root, parsed.result = .ok root ↔
        ∃ s', Parser.program (fuelFor tokens.length) s = .ok root s' := by
  obtain ⟨s, hStart, hAhead, hFuel⟩ := exists_start?_eq_some settings h
  rw [parse?, hStart]
  refine ⟨s, _, rfl, hAhead, hFuel, fun root => ?_⟩
  dsimp only
  cases Parser.program (fuelFor tokens.length) s with
  | ok root' s' => simp
  | stop why s' => simp

theorem result_iff_program {settings : Settings} {parsed : Parsed} (hClosed : Closed tokens)
    (hParse : parse? settings tokens = some parsed) :
    (∃ root, parsed.result = .ok root ∧ root.bare = n) ↔
      Program (tokens.filter isSignificant) n := by
  obtain ⟨s, parsed', hParse', hAhead, hEnough, hResult⟩ := exists_parse?_eq_some settings hClosed
  cases hParse.symm.trans hParse'
  constructor
  · rintro ⟨root, hRoot, rfl⟩
    obtain ⟨s', hRun⟩ := (hResult root).mp hRoot
    rw [← hAhead]
    exact (Parser.program_of_eq_ok (hAhead ▸ closed_filter hClosed) hEnough hRun).1
  · intro h
    have hFuel : 3 * s.ahead.length + 2 ≤ fuelFor tokens.length := by
      have := List.length_filter_le isSignificant tokens
      rw [hAhead, fuelFor]
      omega
    obtain ⟨root, s', hRun, hBare⟩ := Parser.exists_program_eq_ok (hAhead ▸ h) hFuel
    exact ⟨root, (hResult root).mpr ⟨s', hRun⟩, hBare⟩

/-- Parsing accepts exactly the grammar: a list of tokens gives a tree if and only if its
significant tokens are a program, and the tree without its comments is the only one that the grammar
gives. -/
theorem parse?_accepts_iff_program (settings : Settings) {tokens : List Token}
    (hClosed : Closed tokens) :
    ∃ parsed, parse? settings tokens = some parsed ∧
      ((∃ root, parsed.result = .ok root) ↔ ∃ n, Program (tokens.filter isSignificant) n) ∧
      ∀ root, parsed.result = .ok root →
        ∀ n, Program (tokens.filter isSignificant) n ↔ n = root.bare := by
  obtain ⟨s, parsed, hParse, _, _⟩ := exists_parse?_eq_some settings hClosed
  refine ⟨parsed, hParse, ?_, fun root hRoot n => ?_⟩
  · constructor
    · rintro ⟨root, hRoot⟩
      exact ⟨root.bare, (result_iff_program hClosed hParse).mp ⟨root, hRoot, rfl⟩⟩
    · rintro ⟨n, hProgram⟩
      obtain ⟨root, hRoot, _⟩ := (result_iff_program hClosed hParse).mpr hProgram
      exact ⟨root, hRoot⟩
  · rw [← result_iff_program hClosed hParse]
    constructor
    · rintro ⟨root', hRoot', rfl⟩
      cases hRoot.symm.trans hRoot'
      rfl
    · rintro rfl
      exact ⟨root, hRoot, rfl⟩

def nestedTokens : List Token :=
  [{ kind := .kwIf }, { kind := .lparen }, { kind := .ident, value := "a" }, { kind := .rparen },
    { kind := .kwIf }, { kind := .lparen }, { kind := .ident, value := "b" }, { kind := .rparen },
    { kind := .lparen }, { kind := .ident, value := "f" }, { kind := .rparen }, { kind := .lparen },
    { kind := .lparen }, { kind := .ident, value := "x" }, { kind := .rparen },
    { kind := .lbracket }, { kind := .number, value := "1" }, { kind := .rbracket },
    { kind := .comma },
    { kind := .lbracket }, { kind := .rbracket }, { kind := .rparen }, { kind := .semi },
    { kind := .comment, value := "done" }, { kind := .kwElse }, { kind := .lparen },
    { kind := .ident, value := "x" }, { kind := .rparen }, { kind := .assign },
    { kind := .ident, value := "a" }, { kind := .plus }, { kind := .minus },
    { kind := .number, value := "2" }, { kind := .star }, { kind := .ident, value := "b" },
    { kind := .shl }, { kind := .ident, value := "c" }, { kind := .semi }, { kind := .eof }]

theorem parse?_accepts_iff_program_nestedTokens :
    Closed nestedTokens ∧ ∃ n, Program (nestedTokens.filter isSignificant) n := by
  have hClosed : Closed nestedTokens :=
    ⟨nestedTokens.dropLast, { kind := .eof }, rfl, rfl, by decide⟩
  have hEval : (parse? {} nestedTokens).map (fun parsed => parsed.result.toOption.isSome) =
      some true := by decide +kernel
  obtain ⟨parsed, hParse, hIff, _⟩ := parse?_accepts_iff_program {} hClosed
  rw [hParse, Option.map_some] at hEval
  cases hResult : parsed.result with
  | ok root => exact ⟨hClosed, hIff.mp ⟨root, hResult⟩⟩
  | error why =>
    rw [hResult] at hEval
    cases hEval

end BatchCompiler.Syntax
