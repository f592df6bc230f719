import BatchCompiler.Proofs.Syntax.Reading

/-!
# Every loop of the parser makes progress

A loop is taken apart into its rounds. A round that is followed by another one takes a token, so that
before an end of file there are only so many. Nothing else is unbounded, and more fuel than there is
for the tokens changes nothing.
-/

namespace BatchCompiler.Syntax

theorem ne_nil_of_expression {l : Level} {ts : List Token} {n : Node} (h : Expression l ts n) :
    ts ≠ [] := by
  induction h <;> simp_all

theorem ne_nil_of_statement {ts : List Token} {n : Node} (h : Statement ts n) : ts ≠ [] := by
  cases h <;> simp_all

namespace Parser

/-- What a round of a loop comes to. The loop goes on, and `finish` is done to what it returns, or it
is over. -/
inductive Round (σ α : Type) where
  | again (finish : α → α) (next : σ)
  | done (value : α)

variable {σ α : Type} {fuel i : Nat} {t : Token}

def Round.goesOn : Round σ α → Bool
  | .again _ _ => true
  | .done _ => false

def Round.resume (loop : σ → Parser α) : Round σ α → Parser α
  | .again finish next => do
    let a ← loop next
    pure (finish a)
  | .done a => pure a

/-- The loop is made of the rounds, and each of them takes a token, ends the loop or refuses. -/
structure IsLoop (round : Nat → σ → Parser (Round σ α)) (loop : Nat → σ → Parser α) : Prop where
  unfolds : ∀ fuel x, loop (fuel + 1) x = round fuel x >>= Round.resume (loop fuel)
  takes : ∀ fuel x t i, 5 * i + 5 ≤ fuel →
    Consumes t i i (round fuel x) fun ts r _ => r.goesOn = true → ts ≠ []

def elementRound (fuel : Nat) (_ : Unit) : Parser (Round Unit (List Node)) := do
  let e ← binary fuel 0
  if ← accept .comma then pure (.again (e :: ·) ()) else pure (.done [e])

def suffixRound (fuel : Nat) (e : Node) : Parser (Round Node Node) := do
  let t ← current
  if t.kind = .lparen then do
    advance
    if e.isIdent then do
      let args ← elementsUntil fuel .rparen
      expect .rparen .unclosedArguments
      pure (.again id (.call t.span e args))
    else fail t.span .notCallable
  else if t.kind = .lbracket then do
    advance
    if e.isPlace then do
      let index ← binary fuel 0
      expect .rbracket .unclosedIndex
      pure (.again id (.subscript t.span e index))
    else fail t.span .notIndexable
  else pure (.done e)

def operatorRound (least fuel : Nat) (left : Node) : Parser (Round Node Node) := do
  let t ← current
  match precedence? t.kind with
  | none => pure (.done left)
  | some p =>
    if p < least then pure (.done left)
    else do
      advance
      let right ← binary fuel (p + 1)
      pure (.again id (combine t.span t.kind left right))

def nameRound (missing : SyntaxProblem) (_ : Nat) (_ : Unit) : Parser (Round Unit (List Node)) := do
  expect .ident missing
  let t ← previous
  checkName t
  if ← accept .comma then pure (.again (nameNode t :: ·) ()) else pure (.done [nameNode t])

def statementRound (fuel : Nat) (_ : Unit) : Parser (Round Unit (List Node)) := do
  let comments ← drainComments
  let t ← current
  if t.kind = .rbrace || t.kind = .eof then pure (.done comments)
  else do
    let stmt ← statement fuel
    pure (.again (fun rest => comments ++ stmt :: rest) ())

def itemRound (fuel : Nat) (_ : Unit) : Parser (Round Unit (List Node)) := do
  let comments ← drainComments
  if ← check .eof then pure (.done comments)
  else if ← accept .kwFunc then do
    let f ← function fuel
    pure (.again (fun rest => comments ++ f :: rest) ())
  else do
    let stmt ← statement fuel
    pure (.again (fun rest => comments ++ stmt :: rest) ())

instance : LawfulMonad Parser := by
  refine LawfulMonad.mk' Parser (fun p => funext fun s => ?_) (fun _ _ => rfl)
    (fun p f g => funext fun s => ?_)
  · change (match p s with | .ok a s => Reply.ok a s | .stop why s => .stop why s) = p s
    cases p s <;> rfl
  · simp only [bind_apply]
    cases p s <;> rfl

theorem resume_ite {c : Prop} [Decidable c] {p q : Parser (Round σ α)} (loop : σ → Parser α) :
    (if c then p else q) >>= Round.resume loop =
      if c then p >>= Round.resume loop else q >>= Round.resume loop := by
  split <;> rfl

theorem resume_again_id (loop : σ → Parser α) (x : σ) :
    pure (.again id x) >>= Round.resume loop = loop x :=
  bind_pure (loop x)

theorem isLoop_elements : IsLoop elementRound fun fuel _ => elements fuel where
  unfolds fuel _ := by
    simp only [elements, elementRound, bind_assoc, resume_ite]
    rfl
  takes fuel _ t i h := by
    refine ((readExpressions fuel).binary t i 0 (by omega)).bind fun us e t₁ he => ?_
    have hSome : us ≠ [] := ne_nil_of_expression he.1
    refine consumes_accept (by decide) (fun _ _ t₂ => ?_) fun _ => ?_
    · exact consumes_pure (by omega) fun _ => by simp
    · exact consumes_pure (by omega) fun _ => by simpa using hSome

theorem isLoop_suffixes : IsLoop suffixRound suffixes where
  unfolds fuel e := by
    simp only [suffixes, suffixRound, bind_assoc, resume_ite, resume_again_id]
    rfl
  takes fuel e t i h := by
    refine consumes_current ?_
    split
    · next hKind =>
      refine consumes_advance (by simp [hKind]) fun hPos t₁ => ?_
      split
      · refine ((readExpressions fuel).elementsUntil t₁ (i - 1) .rparen (by omega)).bind fun us ns t₂ _ => ?_
        exact consumes_expect (by decide) fun _ _ t₃ => consumes_pure (by omega) fun _ => by simp
      · exact consumes_fail
    · split
      · next hKind =>
        refine consumes_advance (by simp [hKind]) fun hPos t₁ => ?_
        split
        · refine ((readExpressions fuel).binary t₁ (i - 1) 0 (by omega)).bind fun us n t₂ _ => ?_
          exact consumes_expect (by decide) fun _ _ t₃ => consumes_pure (by omega) fun _ => by simp
        · exact consumes_fail
      · exact consumes_pure (Nat.le_refl i) fun h => by cases h

theorem isLoop_operators (least : Nat) : IsLoop (operatorRound least) (operators · least) where
  unfolds fuel left := by
    simp only [operators, operatorRound, bind_assoc]
    congr 1
    funext t
    cases precedence? t.kind with
    | none => rfl
    | some p =>
      simp only [bind_assoc, resume_ite, resume_again_id]
      rfl
  takes fuel left t i h := by
    refine consumes_current ?_
    split
    · exact consumes_pure (Nat.le_refl i) fun h => by cases h
    · next p hOp =>
      split
      · exact consumes_pure (Nat.le_refl i) fun h => by cases h
      · refine consumes_advance (fun hEof => by rw [hEof] at hOp; cases hOp) fun hPos t₁ => ?_
        refine ((readExpressions fuel).binary t₁ (i - 1) (p + 1) (by omega)).bind fun us n t₂ _ => ?_
        exact consumes_pure (by omega) fun _ => by simp

theorem isLoop_names (missing : SyntaxProblem) :
    IsLoop (nameRound missing) fun fuel _ => names missing fuel where
  unfolds fuel _ := by
    simp only [names, nameRound, bind_assoc, resume_ite]
    rfl
  takes fuel _ t i h := by
    refine consumes_expect_previous (by decide) fun _ _ t₁ => consumes_checkName fun _ => ?_
    refine consumes_accept (by decide) (fun _ _ t₂ => ?_) fun _ => ?_
    · exact consumes_pure (by omega) fun _ => by simp
    · exact consumes_pure (by omega) fun _ => by simp

theorem isLoop_blockItems : IsLoop statementRound fun fuel _ => blockItems fuel where
  unfolds fuel _ := by
    simp only [blockItems, statementRound, bind_assoc, resume_ite]
    rfl
  takes fuel _ t i h := by
    refine silent_drainComments.consumes fun comments _ => consumes_current ?_
    split
    · exact consumes_pure (Nat.le_refl i) fun h => by cases h
    · refine ((readStatements fuel).statement t i (by omega)).bind fun us n t₁ hn => ?_
      exact consumes_pure (by omega) fun _ => by simpa using ne_nil_of_statement hn.1

theorem isLoop_items : IsLoop itemRound fun fuel _ => items fuel where
  unfolds fuel _ := by
    simp only [items, itemRound, bind_assoc, resume_ite]
    rfl
  takes fuel _ t i h := by
    refine silent_drainComments.consumes fun comments _ => consumes_check ?_
    split
    · exact consumes_pure (Nat.le_refl i) fun h => by cases h
    · refine consumes_accept (by decide) (fun hKeyword _ t₁ => ?_) fun _ => ?_
      · refine (consumes_function hKeyword (by omega)).bind fun us n t₂ _ => ?_
        exact consumes_pure (by omega) fun _ => by simp
      · refine ((readStatements fuel).statement t i (by omega)).bind fun us n t₁ hn => ?_
        exact consumes_pure (by omega) fun _ => by simpa using ne_nil_of_statement hn.1

theorem program_of_le {m n : Nat} (hLe : n ≤ m) {s : State}
    (h : ∀ s', program n s ≠ .stop .endless s') : program m s = program n s := by
  have hAgree := relates_program (S := wellFormation) (Likeness.fuel_of_le trivial hLe) s s ⟨rfl, trivial⟩
  generalize program m s = r at hAgree
  generalize program n s = r' at hAgree h
  cases hAgree with
  | ok hValue hState =>
    obtain ⟨span, ns, ms, rfl, rfl, hItems⟩ := hValue
    obtain ⟨rfl, -⟩ := hState
    rw [(hItems.eq_map fun h => ⟨h.1, fun n hn => (h.2 n hn).item⟩).1, List.map_id]
    rfl
  | rejected hState =>
    rw [hState.1]
    rfl
  | endless | loose => exact absurd rfl (h _)

/-- Before an end of file parsing comes to a tree or a diagnostic, which no larger bound on the
recursion changes. In each loop every round takes a token, ends the loop or refuses. -/
theorem parse?_ends (settings : Settings) {tokens : List Token} {last : Token}
    (hLast : tokens.getLast? = some last) (hKind : last.kind = .eof) :
    (∃ p, parse? settings tokens = some p ∧
      ((∃ root, p.result = .ok root) ∨ ∃ span problem, p.result = .error (.rejected span problem))) ∧
    (∀ s fuel, State.start? settings tokens = some s → fuelFor tokens.length ≤ fuel →
      program fuel s = program (fuelFor tokens.length) s) ∧
    (IsLoop itemRound fun fuel _ => items fuel) ∧
    (IsLoop statementRound fun fuel _ => blockItems fuel) ∧
    (IsLoop elementRound fun fuel _ => elements fuel) ∧
    IsLoop suffixRound suffixes ∧
    (∀ least, IsLoop (operatorRound least) (operators · least)) ∧
    ∀ missing, IsLoop (nameRound missing) fun fuel _ => names missing fuel := by
  refine ⟨exists_parse?_halts settings hLast hKind, fun s fuel hStart hFuel => ?_, isLoop_items,
    isLoop_blockItems, isLoop_elements, isLoop_suffixes, isLoop_operators, isLoop_names⟩
  obtain ⟨hBounded, hEnough⟩ := bounded_of_start? hStart ⟨last, List.mem_of_getLast? hLast, hKind⟩
  refine program_of_le hFuel fun s' hEndless => ?_
  rcases consumes_program hEnough s rfl hBounded (Nat.le_refl _) with
    ⟨_, _, hRun, _⟩ | ⟨_, _, _, hRun⟩
  · cases hRun.symm.trans hEndless
  · cases hRun.symm.trans hEndless

theorem parse?_ends_twoEnds :
    [⟨.lbrace, "", {}⟩, ⟨.eof, "", {}⟩, ⟨.comment, "c", {}⟩, ⟨.eof, "", {}⟩].getLast? =
      some (⟨.eof, "", {}⟩ : Token) ∧
    ∃ p, parse? {} [⟨.lbrace, "", {}⟩, ⟨.eof, "", {}⟩, ⟨.comment, "c", {}⟩, ⟨.eof, "", {}⟩] = some p ∧
      ((∃ root, p.result = .ok root) ∨ ∃ span problem, p.result = .error (.rejected span problem)) :=
  ⟨rfl, (parse?_ends {} rfl rfl).1⟩

end Parser

end BatchCompiler.Syntax
