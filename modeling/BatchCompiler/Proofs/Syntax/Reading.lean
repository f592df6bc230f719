import BatchCompiler.Proofs.Syntax.Grammar
import BatchCompiler.Proofs.Syntax.Parsing

/-!
# Parsing follows the grammar and ends

Before an end of file the parser always replies, and whatever it takes from the tokens ahead of it is
derived by the grammar, with the tree that it returns. No parser passes over an end of file, and
every loop takes a token in each round, so that the number of tokens left bounds the rounds and the
depth of the recursion. Operators are read by precedence climbing: what was read so far may stand to
the left of the next operator, because the operand before it stopped there.
-/

namespace BatchCompiler.Syntax

variable {s s' : State} {ts tokens : List Token} {t t₁ keyword : Token}
  {P : List Token × Node → Prop}

def State.ahead (s : State) : List Token :=
  s.current :: s.rest.filter isSignificant

def Closed (ts : List Token) : Prop :=
  ∃ us last, ts = us ++ [last] ∧ last.kind = .eof ∧ ∀ t ∈ us, t.kind ≠ .eof

theorem ahead_settle {us : List Token} (h : ts.filter isSignificant = t :: us) :
    (s.settle ts).ahead = t :: us := by
  induction ts generalizing s with
  | nil => cases h
  | cons x rest ih =>
    unfold State.settle
    split
    · next hKind => exact ih (by simpa [isSignificant, hKind] using h)
    · next hKind => exact ih (by simpa [isSignificant, hKind] using h)
    · next hDirective hComment =>
      have hx : isSignificant x = true := by
        simpa [isSignificant] using ⟨hComment, hDirective⟩
      rw [List.filter_cons_of_pos hx] at h
      exact h

theorem ahead_advance (h : s.rest.filter isSignificant ≠ []) :
    s.advance.ahead = s.rest.filter isSignificant := by
  obtain ⟨t, us, hEq⟩ := List.exists_cons_of_ne_nil h
  rw [hEq]
  exact ahead_settle hEq

def State.Bounded (s : State) : Prop :=
  s.current.kind = .eof ∨ ∃ t ∈ s.rest, t.kind = .eof

theorem bounded_settle (h : ∃ t ∈ ts, t.kind = .eof) :
    (s.settle ts).Bounded ∧ (s.settle ts).rest.length < ts.length := by
  induction ts generalizing s with
  | nil => simp at h
  | cons t rest ih =>
    have hLater : t.kind ≠ .eof → ∃ x ∈ rest, x.kind = .eof := by
      intro ht
      simpa [ht] using h
    unfold State.settle
    split
    · next hKind =>
      obtain ⟨hBounded, hLength⟩ := ih (s := s.applyDirective t) (hLater (by simp [hKind]))
      exact ⟨hBounded, Nat.lt_succ_of_lt hLength⟩
    · next hKind =>
      obtain ⟨hBounded, hLength⟩ := ih (s := s.keepComment t) (hLater (by simp [hKind]))
      exact ⟨hBounded, Nat.lt_succ_of_lt hLength⟩
    · exact ⟨Decidable.or_iff_not_imp_left.mpr hLater, Nat.lt_succ_self _⟩

theorem State.Bounded.advance (h : s.Bounded) (hKind : s.current.kind ≠ .eof) :
    s.advance.Bounded ∧ s.advance.rest.length < s.rest.length :=
  bounded_settle (h.resolve_left hKind)

namespace Parser

variable {ts us : List Token} {n : Node} {ns comments : List Node}

/-- The parser neither takes a token nor looks at one. -/
def Silent {α : Type} (p : Parser α) (P : α → Prop) : Prop :=
  ∀ s, ∃ a s', p s = .ok a s' ∧ P a ∧ s'.current = s.current ∧ s'.rest = s.rest

theorem silent_enter : Silent enter fun _ => True :=
  fun _ => ⟨(), _, rfl, trivial, rfl, rfl⟩

theorem silent_leave : Silent leave fun _ => True :=
  fun _ => ⟨(), _, rfl, trivial, rfl, rfl⟩

theorem silent_drainComments : Silent drainComments fun ns => ∀ n ∈ ns, n.isComment = true := by
  refine fun s => ⟨_, _, rfl, fun n hn => ?_, rfl, rfl⟩
  obtain ⟨x, _, rfl⟩ := List.mem_map.mp hn
  rfl

/-- With `t` as the current token and at most `i` tokens after it, the parser replies. It refuses the
tokens, or it takes some that are related to what it returns and to the token that is then ahead, and
leaves at most `j` tokens after that one. -/
def Consumes {α : Type} (t : Token) (i j : Nat) (p : Parser α)
    (R : List Token → α → Token → Prop) : Prop :=
  ∀ s, s.current = t → s.Bounded → s.rest.length ≤ i →
    (∃ a s', p s = .ok a s' ∧ s'.Bounded ∧ s'.rest.length ≤ j ∧
      ∃ ts, s.ahead = ts ++ s'.ahead ∧ R ts a s'.current) ∨
    ∃ span problem s', p s = .stop (.rejected span problem) s'

section

variable {α β : Type} {t : Token} {i j m : Nat} {R : List Token → β → Token → Prop}

variable {problem : SyntaxProblem} {p : Parser α} {k : Unit → Parser β} {s : State}
  {kind : TokenKind}

theorem consumes_pure {b : β} (hj : i ≤ j) (h : R [] b t) : Consumes t i j (pure b) R := by
  rintro s rfl hBounded hLength
  exact .inl ⟨b, s, rfl, hBounded, Nat.le_trans hLength hj, [], rfl, h⟩

theorem consumes_fail {span : Span} : Consumes t i j (fail span problem) R :=
  fun s _ _ _ => .inr ⟨span, problem, s, rfl⟩

theorem exists_of_bind_eq_ok {k : α → Parser β} {b : β} (h : (p >>= k) s = .ok b s') :
    ∃ a s₁, p s = .ok a s₁ ∧ k a s₁ = .ok b s' := by
  rw [bind_apply] at h
  split at h
  · next a s₁ hp => exact ⟨a, s₁, hp, h⟩
  · cases h

theorem Consumes.bind {k : α → Parser β} {Q : List Token → α → Token → Prop}
    (hp : Consumes t i m p Q)
    (hk : ∀ us a t', Q us a t' → Consumes t' m j (k a) fun vs => R (us ++ vs)) :
    Consumes t i j (p >>= k) R := by
  intro s hs hBounded hLength
  rcases hp s hs hBounded hLength with
    ⟨a, s₁, hRun, hBounded₁, hLength₁, us, hAhead, hQ⟩ | ⟨span, problem, s', hRun⟩
  · rw [bind_apply, hRun]
    refine (hk us a s₁.current hQ s₁ rfl hBounded₁ hLength₁).imp_left ?_
    rintro ⟨b, s', hRun', hBounded', hLength', vs, hAhead', hR⟩
    exact ⟨b, s', hRun', hBounded', hLength', us ++ vs, by simp [hAhead, hAhead'], hR⟩
  · rw [bind_apply, hRun]
    exact .inr ⟨span, problem, s', rfl⟩

theorem Consumes.imp {p : Parser β} {Q : List Token → β → Token → Prop} (hp : Consumes t i m p Q)
    (hm : m ≤ j) (h : ∀ ts b t', Q ts b t' → R ts b t') : Consumes t i j p R := by
  intro s hs hBounded hLength
  refine (hp s hs hBounded hLength).imp_left ?_
  rintro ⟨b, s', hRun, hBounded', hLength', ts, hAhead, hQ⟩
  exact ⟨b, s', hRun, hBounded', Nat.le_trans hLength' hm, ts, hAhead, h ts b s'.current hQ⟩

theorem Silent.consumes {k : α → Parser β} {P : α → Prop} (hp : Silent p P)
    (hk : ∀ a, P a → Consumes t i j (k a) R) : Consumes t i j (p >>= k) R := by
  intro s hs hBounded hLength
  obtain ⟨a, s₁, hRun, hP, hCurrent, hRest⟩ := hp s
  rw [bind_apply, hRun]
  have hAhead : s₁.ahead = s.ahead := by rw [State.ahead, State.ahead, hCurrent, hRest]
  rw [← hAhead]
  exact hk a hP s₁ (hCurrent.trans hs) (by rwa [State.Bounded, hCurrent, hRest]) (by rwa [hRest])

theorem consumes_current {k : Token → Parser β} (h : Consumes t i j (k t) R) :
    Consumes t i j (current >>= k) R := by
  rintro s rfl
  exact h s rfl

theorem consumes_check {k : Bool → Parser β} (h : Consumes t i j (k (decide (t.kind = kind))) R) :
    Consumes t i j (check kind >>= k) R := by
  rintro s rfl
  exact h s rfl

theorem consumes_checkName {x : Token}
    (h : Text.startsWith reservedLead x.value = false → Consumes t i j (k ()) R) :
    Consumes t i j (checkName x >>= k) R := by
  unfold checkName
  split
  · exact fun s _ _ _ => .inr ⟨_, _, s, rfl⟩
  · next hFree => exact h (by simpa using hFree)

theorem consumes_of_kind_ne {p : Parser β} (ht : t.kind ≠ .eof) (h : 0 < i → Consumes t i j p R) :
    Consumes t i j p R := by
  intro s hs hBounded hLength
  obtain ⟨_, hShorter⟩ := hBounded.advance (by rwa [hs])
  exact h (by omega) s hs hBounded hLength

theorem consumes_of_advance {m k : Parser β} (ht : t.kind ≠ .eof)
    (hm : ∀ s, s.current = t → m s = k s.advance)
    (hk : 0 < i → ∀ t', Consumes t' (i - 1) j k fun ts => R (t :: ts)) : Consumes t i j m R := by
  intro s hs hBounded hLength
  have hHead : s.current.kind ≠ .eof := by rwa [hs]
  obtain ⟨hBounded', hShorter⟩ := hBounded.advance hHead
  have hAhead : s.ahead = t :: s.advance.ahead := by
    obtain ⟨x, hx, hKind⟩ := hBounded.resolve_left hHead
    have hMem : x ∈ s.rest.filter isSignificant :=
      List.mem_filter.mpr ⟨hx, by rw [isSignificant, hKind]; rfl⟩
    rw [ahead_advance (List.ne_nil_of_mem hMem), ← hs]
    rfl
  rw [hm s hs]
  refine (hk (by omega) s.advance.current s.advance rfl hBounded' (by omega)).imp_left ?_
  rintro ⟨b, s', hRun, hBounded'', hLength', ts, hEq, hR⟩
  exact ⟨b, s', hRun, hBounded'', hLength', t :: ts, by rw [hAhead, hEq]; rfl, hR⟩

theorem consumes_advance (ht : t.kind ≠ .eof)
    (hk : 0 < i → ∀ t', Consumes t' (i - 1) j (k ()) fun ts => R (t :: ts)) :
    Consumes t i j (advance >>= k) R :=
  consumes_of_advance ht (fun _ _ => rfl) hk

theorem accept_bind_of_kind_eq {k : Bool → Parser β} (h : s.current.kind = kind) :
    (accept kind >>= k) s = k true s.advance := by
  rw [bind_apply, accept, if_pos h]

theorem accept_bind_of_kind_ne {k : Bool → Parser β} (h : s.current.kind ≠ kind) :
    (accept kind >>= k) s = k false s := by
  rw [bind_apply, accept, if_neg h]

theorem expect_bind_of_kind_eq (h : s.current.kind = kind) :
    (expect kind problem >>= k) s = k () s.advance := by
  rw [bind_apply, expect, if_pos h]

theorem expect_previous_bind_of_kind_eq {k : Token → Parser β} (h : s.current.kind = kind) :
    (expect kind problem >>= fun _ => previous >>= k) s = k s.current s.advance := by
  have hPrevious : s.advance.previous = s.current := State.previous_settle _ _
  rw [expect_bind_of_kind_eq h, bind_apply, previous, hPrevious]

theorem consumes_accept {k : Bool → Parser β} (hKind : kind ≠ .eof)
    (hTrue : t.kind = kind → 0 < i → ∀ t', Consumes t' (i - 1) j (k true) fun ts => R (t :: ts))
    (hFalse : t.kind ≠ kind → Consumes t i j (k false) R) :
    Consumes t i j (accept kind >>= k) R := by
  by_cases ht : t.kind = kind
  · refine consumes_of_advance (by rwa [ht]) (fun s hs => ?_) (hTrue ht)
    exact accept_bind_of_kind_eq (by rw [hs, ht])
  · intro s hs hBounded hLength
    rw [accept_bind_of_kind_ne (by rwa [hs])]
    exact hFalse ht s hs hBounded hLength

theorem consumes_expect_of (h : t.kind = kind → Consumes t i j (expect kind problem >>= k) R) :
    Consumes t i j (expect kind problem >>= k) R := by
  by_cases ht : t.kind = kind
  · exact h ht
  · intro s hs _ _
    rw [bind_apply, expect, if_neg (by rwa [hs])]
    exact .inr ⟨_, _, s, rfl⟩

theorem consumes_expect (hKind : kind ≠ .eof)
    (hk : t.kind = kind → 0 < i → ∀ t', Consumes t' (i - 1) j (k ()) fun ts => R (t :: ts)) :
    Consumes t i j (expect kind problem >>= k) R := by
  refine consumes_expect_of fun ht => consumes_of_advance (by rwa [ht]) (fun s hs => ?_) (hk ht)
  exact expect_bind_of_kind_eq (by rw [hs, ht])

theorem consumes_expect_previous {k : Token → Parser β} (hKind : kind ≠ .eof)
    (hk : t.kind = kind → 0 < i → ∀ t', Consumes t' (i - 1) j (k t) fun ts => R (t :: ts)) :
    Consumes t i j (expect kind problem >>= fun _ => previous >>= k) R := by
  refine consumes_expect_of fun ht => consumes_of_advance (by rwa [ht]) (fun s hs => ?_) (hk ht)
  subst hs
  exact expect_previous_bind_of_kind_eq ht

end

theorem precedence?_eq (op : TokenKind) : precedence? op = (row? op).map (· + 6) := by
  cases op <;> rfl

theorem isPrefixOp_iff {op : TokenKind} : isPrefixOp op = true ↔ op ∈ prefixOperators := by
  cases op <;> decide

def Below (least : Nat) (t : Token) : Prop :=
  ∀ row, row? t.kind = some row → row < least

def Separated (P : List Token × Node → Prop) (ts : List Token) (ns : List Node) : Prop :=
  ∃ parts, Listed parts ts ∧ (∀ x ∈ parts, P x) ∧ ns = parts.map Prod.snd

theorem separated_one (h : P (ts, n)) : Separated P ts [n] :=
  ⟨[(ts, n)], .one (ts, n), List.forall_mem_singleton.mpr h, rfl⟩

theorem separated_more {comma : Token} (h : P (us, n)) (hComma : comma.kind = .comma)
    (hRest : Separated P ts ns) (hSome : ns ≠ []) : Separated P (us ++ comma :: ts) (n :: ns) := by
  obtain ⟨parts, hListed, hParts, rfl⟩ := hRest
  refine ⟨(us, n) :: parts, ?_, List.forall_mem_cons.mpr ⟨h, hParts⟩, rfl⟩
  exact .more hComma hListed fun hNil => hSome (by rw [hNil]; rfl)

abbrev Elements : List Token → List Node → Prop :=
  Separated fun x => Expression (.binary 0) x.1 x.2

/-- What the parsers of expressions take, and the fuel that each needs before `i` more tokens. What
may call another one without taking a token first needs more than that one, and five rounds of such
calls come before every token. -/
structure ReadExpressions (fuel : Nat) : Prop where
  primary : ∀ t i, 5 * i + 1 ≤ fuel →
    Consumes t i (i - 1) (primary fuel) fun ts n _ => Expression .primary ts n
  suffixes : ∀ t i us e, 5 * i + 1 ≤ fuel → Expression .postfixed us e →
    Consumes t i i (suffixes fuel e) fun ts n _ => Expression .postfixed (us ++ ts) n
  unary : ∀ t i, 5 * i + 2 ≤ fuel →
    Consumes t i (i - 1) (unary fuel) fun ts n _ => Expression .unary ts n
  binary : ∀ t i least, 5 * i + 3 ≤ fuel → Consumes t i (i - 1) (binary fuel least) fun ts n t' =>
    Expression (.binary (least - 6)) ts n ∧ Below (least - 6) t'
  operators : ∀ t i least us l, 5 * i + 1 ≤ fuel → Expression (.binary (least - 6)) us l →
    (∀ row, row? t.kind = some row → least - 6 ≤ row → Expression (.binary row) us l) →
    Consumes t i i (operators fuel least l) fun ts n t' =>
      Expression (.binary (least - 6)) (us ++ ts) n ∧ Below (least - 6) t'
  elementsUntil : ∀ t i closing, 5 * i + 5 ≤ fuel →
    Consumes t i i (elementsUntil fuel closing) fun ts ns _ => Elements ts ns
  elements : ∀ t i, 5 * i + 4 ≤ fuel →
    Consumes t i i (elements fuel) fun ts ns _ => Elements ts ns ∧ ns ≠ []

theorem consumes_atom {p : Parser Node} (h : atom? t = some p) :
    t.kind ≠ .eof ∧ ∀ t' i, Consumes t' i i p fun ts n _ => Expression .primary (t :: ts) n := by
  have hPure : ∀ {n t'}, Expression .primary [t] n → ∀ i,
      Consumes t' i i (pure n) fun ts n _ => Expression .primary (t :: ts) n :=
    fun hn i => consumes_pure (Nat.le_refl i) hn
  unfold atom? at h
  split at h
  · next hKind =>
    cases h
    exact ⟨by simp [hKind], fun t' => hPure (.number hKind)⟩
  · next hKind =>
    cases h
    refine ⟨by simp [hKind], fun t' i => ?_⟩
    split
    · next v hValue => exact hPure (.float hKind hValue) i
    · exact consumes_fail
  · next hKind =>
    cases h
    exact ⟨by simp [hKind], fun t' => hPure (.string hKind)⟩
  · next hKind =>
    cases h
    exact ⟨by simp [hKind], fun t' => hPure (.yes hKind)⟩
  · next hKind =>
    cases h
    exact ⟨by simp [hKind], fun t' => hPure (.no hKind)⟩
  · next hKind =>
    cases h
    exact ⟨by simp [hKind], fun t' i => consumes_checkName fun hFree => hPure (.name ⟨hKind, hFree⟩) i⟩
  · cases h

section

variable {fuel : Nat} (ih : ReadExpressions fuel)

include ih

theorem consumes_primary_succ (t : Token) (i : Nat) (h : 5 * i + 1 ≤ fuel + 1) :
    Consumes t i (i - 1) (primary (fuel + 1)) fun ts n _ => Expression .primary ts n := by
  rw [primary]
  refine consumes_current ?_
  split
  · next p hAtom =>
    obtain ⟨hKind, hp⟩ := consumes_atom hAtom
    exact consumes_advance hKind fun _ t' => hp t' (i - 1)
  · split
    · next hFirst =>
      refine consumes_advance (by simp [hFirst]) fun hPos t' => ?_
      refine (ih.elementsUntil t' _ .rbracket (by omega)).bind fun ts ns t₁ hElements => ?_
      obtain ⟨parts, hListed, hParts, rfl⟩ := hElements
      refine consumes_expect (by decide) fun hLast _ t₂ => consumes_pure (by omega) ?_
      exact .list hFirst hParts hListed hLast
    · split
      · next hFirst =>
        refine consumes_advance (by simp [hFirst]) fun hPos t' => ?_
        refine (ih.binary t' _ 0 (by omega)).bind fun ts n t₁ hn => ?_
        refine consumes_expect (by decide) fun hLast _ t₂ => consumes_pure (by omega) ?_
        exact .enclosed hFirst hn.1 hLast
      · exact consumes_fail

theorem consumes_suffixes_succ (t : Token) (i : Nat) (us : List Token) (e : Node)
    (h : 5 * i + 1 ≤ fuel + 1) (he : Expression .postfixed us e) :
    Consumes t i i (suffixes (fuel + 1) e) fun ts n _ => Expression .postfixed (us ++ ts) n := by
  rw [suffixes]
  refine consumes_current ?_
  split
  · next hFirst =>
    refine consumes_advance (by simp [hFirst]) fun hPos t' => ?_
    split
    · next hName =>
      refine (ih.elementsUntil t' _ .rparen (by omega)).bind fun ts ns t₁ hElements => ?_
      obtain ⟨parts, hListed, hParts, rfl⟩ := hElements
      refine consumes_expect (by decide) fun hLast _ t₂ => ?_
      have hCall := Expression.call he hName hFirst hParts hListed hLast
      refine (ih.suffixes t₂ _ _ _ (by omega) hCall).imp (by omega) fun vs n _ hn => ?_
      simpa using hn
    · exact consumes_fail
  · split
    · next hFirst =>
      refine consumes_advance (by simp [hFirst]) fun hPos t' => ?_
      split
      · next hPlace =>
        refine (ih.binary t' _ 0 (by omega)).bind fun ts index t₁ hIndex => ?_
        refine consumes_expect (by decide) fun hLast _ t₂ => ?_
        have hSubscript := Expression.subscript he hPlace hFirst hIndex.1 hLast
        refine (ih.suffixes t₂ _ _ _ (by omega) hSubscript).imp (by omega) fun vs n _ hn => ?_
        simpa using hn
      · exact consumes_fail
    · exact consumes_pure (Nat.le_refl i) (by rwa [List.append_nil])

theorem consumes_unary_succ (t : Token) (i : Nat) (h : 5 * i + 2 ≤ fuel + 1) :
    Consumes t i (i - 1) (unary (fuel + 1)) fun ts n _ => Expression .unary ts n := by
  rw [unary]
  refine consumes_current ?_
  split
  · next hOp =>
    have ht : t.kind ≠ .eof := by
      intro hEof
      rw [hEof] at hOp
      cases hOp
    refine consumes_advance ht fun hPos t' => ?_
    refine (ih.unary t' _ (by omega)).bind fun ts n t₁ hn => consumes_pure (by omega) ?_
    rw [List.append_nil]
    exact .prefixed (isPrefixOp_iff.mp hOp) hn
  · refine (ih.primary t i (by omega)).bind fun us e t₁ he => ?_
    exact (ih.suffixes t₁ _ us e (by omega) (.ofPrimary he)).imp (Nat.le_refl _)
      fun ts n _ hn => .ofPostfixed hn

theorem consumes_binary_succ (t : Token) (i least : Nat) (h : 5 * i + 3 ≤ fuel + 1) :
    Consumes t i (i - 1) (binary (fuel + 1) least) fun ts n t' =>
      Expression (.binary (least - 6)) ts n ∧ Below (least - 6) t' := by
  rw [binary]
  refine (ih.unary t i (by omega)).bind fun us l t₁ hl => ?_
  exact ih.operators t₁ _ least us l (by omega) (.ofUnary hl) fun _ _ _ => .ofUnary hl

/-- The operand to the right of an operator stops at the next operator that binds no tighter. So the
operation as a whole may stand to the left of that one. -/
theorem consumes_operators_succ (t : Token) (i least : Nat) (us : List Token) (l : Node)
    (h : 5 * i + 1 ≤ fuel + 1) (hl : Expression (.binary (least - 6)) us l)
    (hNext : ∀ row, row? t.kind = some row → least - 6 ≤ row → Expression (.binary row) us l) :
    Consumes t i i (operators (fuel + 1) least l) fun ts n t' =>
      Expression (.binary (least - 6)) (us ++ ts) n ∧ Below (least - 6) t' := by
  rw [operators]
  refine consumes_current ?_
  rw [precedence?_eq]
  cases hOp : row? t.kind with
  | none =>
    refine consumes_pure (Nat.le_refl i) ⟨by rwa [List.append_nil], fun row hRow => ?_⟩
    rw [hOp] at hRow
    cases hRow
  | some row =>
    dsimp only [Option.map_some]
    split
    · next hLess =>
      refine consumes_pure (Nat.le_refl i) ⟨by rwa [List.append_nil], fun other hRow => ?_⟩
      cases hOp.symm.trans hRow
      omega
    · next hLess =>
      have hLeast : least - 6 ≤ row := by omega
      have ht : t.kind ≠ .eof := by
        intro hEof
        rw [hEof] at hOp
        cases hOp
      refine consumes_advance ht fun hPos t' => ?_
      refine (ih.binary t' _ (row + 6 + 1) (by omega)).bind fun ts r t₁ hr => ?_
      have hRow : row + 6 + 1 - 6 = row + 1 := by omega
      rw [hRow] at hr
      have hWhole : ∀ q ≤ row, Expression (.binary q) (us ++ t :: ts) (combine t.span t.kind l r) :=
        fun q hq => .binary hq hOp (hNext row hOp hLeast) hr.1
      refine (ih.operators t₁ _ least _ _ (by omega) (hWhole _ hLeast) fun q hq _ => ?_).imp
        (by omega) fun vs n t₂ hn => ?_
      · exact hWhole q (Nat.lt_succ_iff.mp (hr.2 q hq))
      · simpa using hn

theorem consumes_elementsUntil_succ (t : Token) (i : Nat) (closing : TokenKind)
    (h : 5 * i + 5 ≤ fuel + 1) :
    Consumes t i i (elementsUntil (fuel + 1) closing) fun ts ns _ => Elements ts ns := by
  rw [elementsUntil]
  refine consumes_check ?_
  split
  · exact consumes_pure (Nat.le_refl i) ⟨[], .nil, List.forall_mem_nil _, rfl⟩
  · exact (ih.elements t i (by omega)).imp (Nat.le_refl i) fun ts ns _ h => h.1

theorem consumes_elements_succ (t : Token) (i : Nat) (h : 5 * i + 4 ≤ fuel + 1) :
    Consumes t i i (elements (fuel + 1)) fun ts ns _ => Elements ts ns ∧ ns ≠ [] := by
  rw [elements]
  refine (ih.binary t i 0 (by omega)).bind fun us e t₁ he => ?_
  refine consumes_accept (by decide) (fun hComma hPos t₂ => ?_) fun _ => ?_
  · refine (ih.elements t₂ _ (by omega)).bind fun ts ns t₃ hElements => ?_
    refine consumes_pure (by omega) ⟨?_, by simp⟩
    rw [List.append_nil]
    exact separated_more he.1 hComma hElements.1 hElements.2
  · refine consumes_pure (by omega) ⟨?_, by simp⟩
    rw [List.append_nil]
    exact separated_one he.1

end

theorem readExpressions (fuel : Nat) : ReadExpressions fuel := by
  induction fuel with
  | zero => constructor <;> omega
  | succ fuel ih =>
    exact {
      primary := consumes_primary_succ ih
      suffixes := consumes_suffixes_succ ih
      unary := consumes_unary_succ ih
      binary := consumes_binary_succ ih
      operators := consumes_operators_succ ih
      elementsUntil := consumes_elementsUntil_succ ih
      elements := consumes_elements_succ ih }

section

variable {fuel i : Nat} {t : Token}

theorem consumes_expression (h : 5 * i + 3 ≤ fuel) :
    Consumes t i (i - 1) (expression fuel) fun ts n _ => Expression (.binary 0) ts n := by
  refine silent_enter.consumes fun _ _ => ?_
  refine ((readExpressions fuel).binary t i 0 h).bind fun ts n t' hn => ?_
  refine silent_leave.consumes fun _ _ => consumes_pure (Nat.le_refl _) ?_
  rw [List.append_nil]
  exact hn.1

theorem consumes_condition {keyword : String} (h : 5 * i ≤ fuel + 2) :
    Consumes t i (i - 1) (condition fuel keyword) fun ts n _ =>
      ∃ first us last, first.kind = .lparen ∧ Expression (.binary 0) us n ∧ last.kind = .rparen ∧
        ts = first :: us ++ [last] := by
  refine consumes_expect (by decide) fun hFirst hPos t₁ => ?_
  refine (consumes_expression (by omega)).bind fun us n t₂ hn => ?_
  refine consumes_expect (by decide) fun hLast _ t₃ => ?_
  exact consumes_pure (by omega) ⟨t, us, t₂, hFirst, hn, hLast, rfl⟩

theorem consumes_names {missing : SyntaxProblem} (h : i < fuel) :
    Consumes t i (i - 1) (names missing fuel) fun ts ns _ =>
      Separated IsNamed ts ns ∧ ns ≠ [] := by
  induction fuel generalizing t i with
  | zero => omega
  | succ fuel ih =>
    rw [names]
    refine consumes_expect_previous (by decide) fun hKind hPos t₁ =>
      consumes_checkName fun hFree => ?_
    have hName : IsNamed ([t], nameNode t) := ⟨t, ⟨hKind, hFree⟩, rfl⟩
    refine consumes_accept (by decide) (fun hComma _ t₂ => ?_) fun _ => ?_
    · refine (ih (by omega)).bind fun ts ns t₃ hRest => consumes_pure (by omega) ⟨?_, by simp⟩
      rw [List.append_nil]
      exact separated_more hName hComma hRest.1 hRest.2
    · exact consumes_pure (Nat.le_refl _) ⟨separated_one hName, by simp⟩

theorem bare_of_isCall (h : n.isCall = true) : n.bare = n := by
  cases n <;> first | rfl | cases h

theorem consumes_simpleStatement (h : 5 * i + 3 ≤ fuel) :
    Consumes t i (i - 1) (simpleStatement fuel) fun ts n _ =>
      Statement ts n.bare ∧ dangles n.bare = false := by
  refine (consumes_expression h).bind fun us e t₁ he => consumes_current ?_
  split
  · next hOp =>
    split
    · next hPlace =>
      refine consumes_advance (by simp [hOp]) fun hPos t₂ => ?_
      refine (consumes_expression (by omega)).bind fun ts rhs t₃ hRhs => ?_
      refine consumes_expect (by decide) fun hLast _ t₄ => consumes_pure (by omega) ⟨?_, rfl⟩
      have hAssign := Statement.assign he hPlace hOp hRhs hLast
      simpa [Node.bare] using hAssign
    · exact consumes_fail
  · split
    · next hCall =>
      refine consumes_expect (by decide) fun hLast _ t₂ => consumes_pure (by omega) ?_
      rw [bare_of_isCall hCall]
      refine ⟨.call he hCall hLast, ?_⟩
      cases e <;> first | rfl | cases hCall
    · exact consumes_fail

end

theorem isComment_bare (n : Node) : n.bare.isComment = n.isComment := by
  cases n <;> rfl

theorem isComment_of_statement (h : Statement ts n) : n.isComment = false := by
  cases h with
  | call h hCall hLast => cases n <;> first | rfl | cases hCall
  | _ => rfl

theorem isAbsent_of_statement (h : Statement ts n) : n.isAbsent = false := by
  cases h with
  | call h hCall hLast => cases n <;> first | rfl | cases hCall
  | _ => rfl

theorem isComment_of_item (h : Item ts n) : n.isComment = false := by
  cases h with
  | statement h => exact isComment_of_statement h
  | function => rfl

theorem bareOf_comments_append (h : ∀ n ∈ comments, n.isComment = true) :
    Node.bareOf (comments ++ ns) = Node.bareOf ns := by
  induction comments with
  | nil => rfl
  | cons n rest ih =>
    rw [List.forall_mem_cons] at h
    rw [List.cons_append, Node.bareOf, if_pos h.1, ih h.2]

theorem bareOf_comments (h : ∀ n ∈ comments, n.isComment = true) : Node.bareOf comments = [] := by
  rw [← List.append_nil comments, bareOf_comments_append h]
  rfl

theorem bareOf_comments_cons (h : ∀ n ∈ comments, n.isComment = true)
    (hNode : n.bare.isComment = false) :
    Node.bareOf (comments ++ n :: ns) = n.bare :: Node.bareOf ns := by
  rw [isComment_bare] at hNode
  rw [bareOf_comments_append h, Node.bareOf, if_neg (by simp [hNode])]

def Sequence (P : List Token → Node → Prop) (ts : List Token) (ns : List Node) : Prop :=
  ∃ parts : List (List Token × Node), (∀ x ∈ parts, P x.1 x.2) ∧ ts = parts.flatMap Prod.fst ∧
    Node.bareOf ns = parts.map Prod.snd

theorem sequence_comments {P : List Token → Node → Prop} (h : ∀ n ∈ comments, n.isComment = true) :
    Sequence P [] comments :=
  ⟨[], List.forall_mem_nil _, rfl, bareOf_comments h⟩

theorem sequence_append {P : List Token → Node → Prop} (h : ∀ n ∈ comments, n.isComment = true)
    (hn : P us n.bare) (hNode : n.bare.isComment = false) (hRest : Sequence P ts ns) :
    Sequence P (us ++ ts) (comments ++ n :: ns) := by
  obtain ⟨parts, hParts, rfl, hBare⟩ := hRest
  refine ⟨(us, n.bare) :: parts, List.forall_mem_cons.mpr ⟨hn, hParts⟩, rfl, ?_⟩
  rw [bareOf_comments_cons h hNode, hBare]
  rfl

/-- The statement is derived, and an `else` that would belong to it does not follow. -/
def ReadsWhole (ts : List Token) (n : Node) (t : Token) : Prop :=
  Statement ts n.bare ∧ (dangles n.bare = true → t.kind ≠ .kwElse)

theorem readsWhole_of_not_dangles (h : Statement ts n.bare) (hNot : dangles n.bare = false) :
    ReadsWhole ts n t := by
  refine ⟨h, fun hDangles => ?_⟩
  rw [hNot] at hDangles
  cases hDangles

structure ReadStatements (fuel : Nat) : Prop where
  block : ∀ t i, 5 * i + 2 ≤ fuel → Consumes t i (i - 1) (block fuel) fun ts n _ =>
    ∃ stmts, n.bare = .block t.span stmts false ∧ Statement ts n.bare
  blockItems : ∀ t i, 5 * i + 5 ≤ fuel →
    Consumes t i i (blockItems fuel) fun ts ns _ => Sequence Statement ts ns
  statement : ∀ t i, 5 * i + 4 ≤ fuel → Consumes t i (i - 1) (statement fuel) ReadsWhole

section

variable {fuel : Nat} (ih : ReadStatements fuel)

include ih

theorem consumes_block_succ (t : Token) (i : Nat) (h : 5 * i + 2 ≤ fuel + 1) :
    Consumes t i (i - 1) (block (fuel + 1)) fun ts n _ =>
      ∃ stmts, n.bare = .block t.span stmts false ∧ Statement ts n.bare := by
  rw [block]
  refine consumes_current (consumes_expect (by decide) fun hFirst hPos t₁ => ?_)
  refine (ih.blockItems t₁ _ (by omega)).bind fun ts ns t₂ hItems => ?_
  refine consumes_expect (by decide) fun hLast _ t₃ => consumes_pure (by omega) ?_
  obtain ⟨parts, hParts, rfl, hBare⟩ := hItems
  rw [Node.bare, hBare]
  exact ⟨_, rfl, .block hFirst hParts hLast⟩

theorem consumes_blockItems_succ (t : Token) (i : Nat) (h : 5 * i + 5 ≤ fuel + 1) :
    Consumes t i i (blockItems (fuel + 1)) fun ts ns _ => Sequence Statement ts ns := by
  rw [blockItems]
  refine silent_drainComments.consumes fun comments hComments => consumes_current ?_
  split
  · exact consumes_pure (Nat.le_refl i) (sequence_comments hComments)
  · next hKind =>
    -- The statement takes a token, so that the next round has less to read.
    refine consumes_of_kind_ne (fun hEof => hKind (by simp [hEof])) fun hPos => ?_
    refine (ih.statement t i (by omega)).bind fun us n t₁ hn =>
      (ih.blockItems t₁ _ (by omega)).bind fun ts ns t₂ hRest => consumes_pure (by omega) ?_
    rw [List.append_nil]
    exact sequence_append hComments hn.1 (isComment_of_statement hn.1) hRest

/-- The part behind `else` goes to the conditional in hand, because the statement before it would
have taken it otherwise. -/
theorem consumes_branch {i : Nat} (hKind : t.kind = .kwIf) (h : 5 * i + 4 ≤ fuel) :
    Consumes t₁ i i (do
      let cond ← condition fuel "if"
      let thenBody ← statement fuel
      if ← accept .kwElse then do
        let elseBody ← statement fuel
        pure (Node.branch t.span cond thenBody elseBody)
      else pure (Node.branch t.span cond thenBody .absent)) fun ts => ReadsWhole (t :: ts) := by
  refine (consumes_condition (by omega)).bind fun us cond t₂ hCond => ?_
  obtain ⟨first, cs, last, hFirst, hCond, hLast, rfl⟩ := hCond
  refine (ih.statement t₂ _ (by omega)).bind fun ts body t₃ hBody => ?_
  refine consumes_accept (by decide) (fun hOther _ t₄ => ?_) fun hOther => ?_
  · have hNearest : dangles body.bare = false :=
      Bool.eq_false_iff.mpr fun hDangles => hBody.2 hDangles hOther
    refine (ih.statement t₄ _ (by omega)).bind fun vs other t₅ hElse =>
      consumes_pure (by omega) ⟨?_, ?_⟩
    · have hBranch := Statement.branchElse hKind hFirst hCond hLast hBody.1 hNearest hOther hElse.1
      simpa [Node.bare] using hBranch
    · rw [Node.bare, dangles, isAbsent_of_statement hElse.1, Bool.false_or]
      exact hElse.2
  · refine consumes_pure (by omega) ⟨?_, fun _ => hOther⟩
    have hBranch := Statement.branch hKind hFirst hCond hLast hBody.1
    simpa [Node.bare] using hBranch

theorem consumes_loop {i : Nat} (hKind : t.kind = .kwWhile) (h : 5 * i + 4 ≤ fuel) :
    Consumes t₁ i i (do
      let cond ← condition fuel "while"
      let body ← statement fuel
      pure (Node.loop t.span cond body)) fun ts => ReadsWhole (t :: ts) := by
  refine (consumes_condition (by omega)).bind fun us cond t₂ hCond => ?_
  obtain ⟨first, cs, last, hFirst, hCond, hLast, rfl⟩ := hCond
  refine (ih.statement t₂ _ (by omega)).bind fun ts body t₃ hBody =>
    consumes_pure (by omega) ⟨?_, hBody.2⟩
  have hLoop := Statement.loop hKind hFirst hCond hLast hBody.1
  simpa [Node.bare] using hLoop

theorem consumes_statement_succ (t : Token) (i : Nat) (h : 5 * i + 4 ≤ fuel + 1) :
    Consumes t i (i - 1) (statement (fuel + 1)) ReadsWhole := by
  rw [statement]
  refine consumes_current ?_
  split
  · next hKind =>
    exact consumes_advance (by simp [hKind]) fun _ t₁ => consumes_branch ih hKind (by omega)
  · next hKind =>
    exact consumes_advance (by simp [hKind]) fun _ t₁ => consumes_loop ih hKind (by omega)
  · refine (ih.block t i (by omega)).imp (Nat.le_refl _) fun ts n t' h => ?_
    obtain ⟨stmts, hBare, hBlock⟩ := h
    exact readsWhole_of_not_dangles hBlock (by rw [hBare]; rfl)
  · next hKind =>
    refine consumes_advance (by simp [hKind]) fun hPos t₁ => ?_
    refine (consumes_names (by omega)).bind fun ts ns t₂ hNames => ?_
    obtain ⟨⟨parts, hListed, hParts, rfl⟩, hSome⟩ := hNames
    refine consumes_expect (by decide) fun hLast _ t₃ => consumes_pure (by omega) ?_
    have hParts' : parts ≠ [] := by simpa using hSome
    exact readsWhole_of_not_dangles (.globals hKind hParts hListed hParts' hLast) rfl
  · next hKind =>
    refine consumes_advance (by simp [hKind]) fun hPos t₁ => consumes_check ?_
    split
    · refine consumes_expect (by decide) fun hLast _ t₂ => consumes_pure (by omega) ?_
      exact readsWhole_of_not_dangles (.ret hKind hLast) rfl
    · refine (consumes_expression (by omega)).bind fun ts n t₂ hn => ?_
      refine consumes_expect (by decide) fun hLast _ t₃ => consumes_pure (by omega) ?_
      exact readsWhole_of_not_dangles (.retValue hKind hn hLast) rfl
  · next hKind =>
    refine consumes_advance (by simp [hKind]) fun _ t₁ => consumes_pure (Nat.le_refl _) ?_
    exact readsWhole_of_not_dangles (.empty hKind) rfl
  · exact consumes_fail
  · exact (consumes_simpleStatement (by omega)).imp (Nat.le_refl _)
      fun ts n t' h => readsWhole_of_not_dangles h.1 h.2

end

theorem readStatements (fuel : Nat) : ReadStatements fuel := by
  induction fuel with
  | zero => constructor <;> omega
  | succ fuel ih =>
    exact ⟨consumes_block_succ ih, consumes_blockItems_succ ih, consumes_statement_succ ih⟩

section

variable {fuel i : Nat} {t : Token}

theorem consumes_body {name first : Token} (hKeyword : keyword.kind = .kwFunc)
    (hName : IsFree name) (hFirst : first.kind = .lparen) (hNames : Separated IsNamed us ns)
    (h : 5 * i + 2 ≤ fuel) :
    Consumes t i (i - 1) (do
      expect .rparen .parametersNotClosed
      let t ← current
      if t.kind = .lbrace then do
        let body ← block fuel
        pure (Node.func name.span name.value ns body)
      else fail t.span (.bodyNotOpened name.value)) fun ts n _ =>
      Item (keyword :: name :: first :: us ++ ts) n.bare := by
  obtain ⟨parts, hListed, hParts, rfl⟩ := hNames
  refine consumes_expect (by decide) fun hLast hPos t₁ => consumes_current ?_
  split
  · refine ((readStatements fuel).block t₁ _ (by omega)).bind fun ts body t₂ hBody =>
      consumes_pure (by omega) ?_
    obtain ⟨stmts, hBare, hBlock⟩ := hBody
    rw [hBare] at hBlock
    rw [Node.bare, hBare, List.append_nil]
    exact .function hKeyword hName hFirst hParts hListed hLast hBlock
  · exact consumes_fail

theorem consumes_function (hKeyword : keyword.kind = .kwFunc) (h : 5 * i + 2 ≤ fuel) :
    Consumes t i (i - 1) (function fuel) fun ts n _ => Item (keyword :: ts) n.bare := by
  refine consumes_expect_previous (by decide) fun hKind hPos t₁ =>
    consumes_checkName fun hFree => ?_
  refine consumes_expect (by decide) fun hFirst _ t₂ => consumes_check ?_
  split
  · exact (consumes_body hKeyword ⟨hKind, hFree⟩ hFirst ⟨[], .nil, List.forall_mem_nil _, rfl⟩
      (by omega)).imp (by omega) fun _ _ _ h => h
  · refine (consumes_names (by omega)).bind fun us ns t₃ hNames => ?_
    exact (consumes_body hKeyword ⟨hKind, hFree⟩ hFirst hNames.1 (by omega)).imp (by omega)
      fun _ _ _ h => h

theorem consumes_items (h : 5 * i + 5 ≤ fuel) :
    Consumes t i i (items fuel) fun ts ns t' => t'.kind = .eof ∧ Sequence Item ts ns := by
  induction fuel generalizing t i with
  | zero => omega
  | succ fuel ih =>
    rw [items]
    refine silent_drainComments.consumes fun comments hComments => consumes_check ?_
    split
    · next hEof =>
      exact consumes_pure (Nat.le_refl i) ⟨by simpa using hEof, sequence_comments hComments⟩
    · next hNotEnd =>
      refine consumes_of_kind_ne (fun hEof => hNotEnd (by simp [hEof])) fun hPos => ?_
      refine consumes_accept (by decide) (fun hKeyword _ t₁ => ?_) fun _ => ?_
      · refine (consumes_function hKeyword (by omega)).bind fun us n t₂ hn =>
          (ih (by omega)).bind fun ts ns t₃ hRest => consumes_pure (by omega) ⟨hRest.1, ?_⟩
        rw [List.append_nil]
        exact sequence_append hComments hn (isComment_of_item hn) hRest.2
      · refine ((readStatements fuel).statement t i (by omega)).bind fun us n t₂ hn =>
          (ih (by omega)).bind fun ts ns t₃ hRest => consumes_pure (by omega) ⟨hRest.1, ?_⟩
        rw [List.append_nil]
        exact sequence_append hComments (.statement hn.1) (isComment_of_statement hn.1) hRest.2

theorem consumes_program (h : 5 * i + 5 ≤ fuel) :
    Consumes t i i (program fuel) fun ts n t' =>
      t'.kind = .eof ∧ ∃ ns, n = .block t.span ns true ∧ Sequence Item ts ns := by
  refine consumes_current ((consumes_items h).bind fun ts ns t' hItems =>
    consumes_pure (Nat.le_refl i) ?_)
  rw [List.append_nil]
  exact ⟨hItems.1, ns, rfl, hItems.2⟩

end

theorem closed_eof (h : Closed (us ++ t :: ts)) (ht : t.kind = .eof) : ts = [] := by
  obtain ⟨vs, last, hEq, _, hOthers⟩ := h
  rcases List.eq_nil_or_concat ts with rfl | ⟨init, x, rfl⟩
  · rfl
  · have hInit : us ++ t :: init = vs := by
      rw [List.concat_eq_append, ← List.cons_append, ← List.append_assoc] at hEq
      exact (List.append_inj' hEq rfl).1
    exact absurd ht (hOthers t (by simp [← hInit]))

theorem bounded_of_closed (h : Closed s.ahead) : s.Bounded := by
  obtain ⟨us, last, hEq, hLast, _⟩ := h
  have hMem : last ∈ s.ahead := by simp [hEq]
  rcases List.mem_cons.mp hMem with rfl | hRest
  · exact .inl hLast
  · exact .inr ⟨last, (List.mem_filter.mp hRest).1, hLast⟩

theorem program_of_eq_ok {fuel : Nat} {root : Node} (hClosed : Closed s.ahead)
    (hFuel : 5 * s.rest.length + 5 ≤ fuel) (h : program fuel s = .ok root s') :
    Program s.ahead root.bare ∧ s'.ahead = [s'.current] := by
  rcases consumes_program hFuel s rfl (bounded_of_closed hClosed) (Nat.le_refl _) with
    ⟨_, _, hRun, _, _, ts, hAhead, hEof, ns, rfl, parts, hParts, rfl, hBare⟩ | ⟨_, _, _, hRun⟩
  · cases hRun.symm.trans h
    have hLast : s'.ahead = [s'.current] := by
      rw [hAhead] at hClosed
      rw [State.ahead, closed_eof hClosed hEof]
    rw [hLast] at hAhead
    rw [Node.bare, hBare]
    exact ⟨.intro hParts hEof hAhead.symm, hLast⟩
  · cases hRun.symm.trans h

end Parser

theorem bounded_of_start? {settings : Settings} (h : State.start? settings tokens = some s)
    (hEof : ∃ t ∈ tokens, t.kind = .eof) :
    s.Bounded ∧ 5 * s.rest.length + 5 ≤ fuelFor tokens.length := by
  obtain ⟨last, _, rfl⟩ := Option.map_eq_some_iff.mp h
  obtain ⟨hBounded, hLength⟩ := bounded_settle hEof
  refine ⟨hBounded, ?_⟩
  unfold fuelFor
  omega

theorem exists_parse?_halts (settings : Settings) {last : Token}
    (hLast : tokens.getLast? = some last) (hKind : last.kind = .eof) :
    ∃ p, parse? settings tokens = some p ∧
      ((∃ root, p.result = .ok root) ∨ ∃ span problem, p.result = .error (.rejected span problem)) := by
  obtain ⟨s, hStart⟩ : ∃ s, State.start? settings tokens = some s := by
    rw [State.start?, hLast]
    exact ⟨_, rfl⟩
  obtain ⟨hBounded, hFuel⟩ := bounded_of_start? hStart ⟨last, List.mem_of_getLast? hLast, hKind⟩
  rcases Parser.consumes_program hFuel s rfl hBounded (Nat.le_refl _) with
    ⟨root, s', hRun, _⟩ | ⟨span, problem, s', hRun⟩
  · refine ⟨{ result := .ok root, settings := s'.settings, remarks := s'.remarks }, ?_, .inl ⟨root, rfl⟩⟩
    simp only [parse?, hStart, Option.map_some, hRun]
  · refine ⟨{ result := .error (.rejected span problem), settings := s'.settings,
              remarks := s'.remarks }, ?_, .inr ⟨span, problem, rfl⟩⟩
    simp only [parse?, hStart, Option.map_some, hRun]

end BatchCompiler.Syntax
