import BatchCompiler.Proofs.Source.Lexemes

/-!
# Scanning, lexeme by lexeme

The loops of a scanner without a bound on their rounds. Every lexeme shortens what is left of the
text, so they end, and the bounds of `next` and `tokens` are large enough for them.
-/

namespace BatchCompiler

variable {s : Scanner}

theorem Cursor.rest_next (c : Cursor) : c.next.rest = c.rest.drop 1 := by
  unfold next
  split
  · next hRest => rw [hRest, List.drop_nil]
  · next ch rest hRest =>
    rw [hRest]
    split <;> rfl

@[simp] theorem Cursor.rest_skip (n : Nat) (c : Cursor) : (c.skip n).rest = c.rest.drop n := by
  induction n generalizing c with
  | zero => rfl
  | succ n ih => rw [skip, ih, rest_next, List.drop_drop, Nat.add_comm]

namespace Scanner

variable {s' : Scanner} {ts : List Token}

/-- `Reads s ts s'` says that `s` finds the tokens `ts` up to the end of file and is `s'` then. -/
inductive Reads : Scanner → List Token → Scanner → Prop where
  | failed {s : Scanner} (hError : s.error ≠ none) : Reads s [s.eofToken] s
  | ended {s : Scanner} (hError : s.error = none) (hEnd : s.skipGap.cursor.rest = []) :
    Reads s [s.skipGap.eofToken] s.skipGap
  | token {s s₁ s' : Scanner} {t : Token} {ts : List Token} (hError : s.error = none)
    (hMore : s.skipGap.cursor.rest ≠ []) (hTake : s.skipGap.take = (some t, s₁))
    (h : Reads s₁ ts s') : Reads s (t :: ts) s'
  | silent {s s₁ s' : Scanner} {ts : List Token} (hError : s.error = none)
    (hMore : s.skipGap.cursor.rest ≠ []) (hTake : s.skipGap.take = (none, s₁))
    (h : Reads s₁ ts s') : Reads s ts s'

@[simp] theorem cursor_skipGap (s : Scanner) :
    s.skipGap.cursor = s.cursor.skip (Gap.ofText s.cursor.rest).length := rfl

section

variable {s s₁ : Scanner} {token : Option Token}

theorem cursor_of_take (h : s.take = (token, s₁)) :
    s₁.cursor = s.cursor.skip (Lexeme.scan s.settings s.cursor.rest).length := by
  cases h
  rfl

theorem settings_of_take (h : s.take = (token, s₁)) : s₁.settings = s.settings := by
  cases h
  rfl

theorem file_of_take (h : s.take = (token, s₁)) : s₁.file = s.file := by
  cases h
  rfl

theorem error_of_take (h : s.take = (token, s₁)) :
    s₁.error = (s.move (Lexeme.scan s.settings s.cursor.rest).length
      (Lexeme.scan s.settings s.cursor.rest).fault).error := by
  cases h
  rfl

theorem kind_ne_eof_of_take {t : Token} (hMore : s.cursor.rest ≠ []) (h : s.take = (some t, s₁)) :
    t.kind ≠ .eof := by
  obtain ⟨⟨kind, value⟩, hScan, rfl⟩ := Option.map_eq_some_iff.mp (congrArg Prod.fst h)
  rintro rfl
  exact (Lexeme.fits_scan s.settings hMore).kind value hScan

theorem length_lt_of_take (hMore : s.skipGap.cursor.rest ≠ [])
    (h : s.skipGap.take = (token, s₁)) : s₁.cursor.rest.length < s.cursor.rest.length := by
  have hPos := (Lexeme.fits_scan s.skipGap.settings hMore).pos
  have hLength := List.length_pos_iff.mpr hMore
  have hGap : s.skipGap.cursor.rest.length ≤ s.cursor.rest.length := by simp
  rw [cursor_of_take h, Cursor.rest_skip, List.length_drop]
  omega

end

theorem exists_reads (s : Scanner) : ∃ ts s', Reads s ts s' := by
  by_cases hError : s.error = none
  · by_cases hEnd : s.skipGap.cursor.rest = []
    · exact ⟨_, _, .ended hError hEnd⟩
    · rcases hTake : s.skipGap.take with ⟨token, s₁⟩
      have hShorter := length_lt_of_take hEnd hTake
      obtain ⟨ts, s', h⟩ := exists_reads s₁
      cases token with
      | none => exact ⟨ts, s', .silent hError hEnd hTake h⟩
      | some t => exact ⟨t :: ts, s', .token hError hEnd hTake h⟩
  · exact ⟨_, _, .failed hError⟩
termination_by s.cursor.rest.length

def Begins (s : Scanner) (ts : List Token) (s' : Scanner) (t : Token) (s₁ : Scanner) : Prop :=
  (t.kind = .eof ∧ ts = [t] ∧ s₁ = s') ∨
    (t.kind ≠ .eof ∧ s₁.cursor.rest.length < s.cursor.rest.length ∧
      ∃ more, ts = t :: more ∧ Reads s₁ more s')

theorem begins_nextWithin (h : Reads s ts s') {fuel : Nat} (hFuel : s.cursor.rest.length < fuel) :
    Begins s ts s' (s.nextWithin fuel).1 (s.nextWithin fuel).2 := by
  obtain ⟨fuel, rfl⟩ := Nat.exists_eq_add_one_of_ne_zero (Nat.ne_zero_of_lt hFuel)
  induction h generalizing fuel with
  | @failed s hError =>
    rw [nextWithin, if_pos (by simpa [Option.isSome_iff_ne_none] using hError)]
    exact .inl ⟨rfl, rfl, rfl⟩
  | @ended s hError hEnd =>
    rw [nextWithin, if_neg (by simp [hError])]
    simp only [hEnd, List.isEmpty_nil, if_true]
    exact .inl ⟨rfl, rfl, rfl⟩
  | @token s s₁ s' t ts hError hMore hTake h ih =>
    rw [nextWithin, if_neg (by simp [hError])]
    simp only [if_neg (mt List.isEmpty_iff.mp hMore), hTake]
    exact .inr ⟨kind_ne_eof_of_take hMore hTake, length_lt_of_take hMore hTake, ts, rfl, h⟩
  | @silent s s₁ s' ts hError hMore hTake h ih =>
    have hShorter := length_lt_of_take hMore hTake
    obtain ⟨fuel, rfl⟩ := Nat.exists_eq_add_one_of_ne_zero (show fuel ≠ 0 by omega)
    rw [nextWithin, if_neg (by simp [hError])]
    simp only [if_neg (mt List.isEmpty_iff.mp hMore), hTake]
    rcases ih fuel (by omega) with hLast | ⟨hKind, hLess, hRest⟩
    · exact .inl hLast
    · exact .inr ⟨hKind, by omega, hRest⟩

theorem tokensWithin_eq (h : Reads s ts s') {fuel : Nat} (hFuel : s.cursor.rest.length < fuel) :
    tokensWithin fuel s = (ts, s') := by
  induction fuel generalizing s ts with
  | zero => omega
  | succ fuel ih =>
    rw [tokensWithin]
    rcases begins_nextWithin h hFuel with ⟨hKind, rfl, rfl⟩ | ⟨hKind, hLess, more, rfl, hMore⟩
    · simp only [if_pos hKind]
    · simp only [if_neg hKind]
      rw [ih hMore (by omega)]

theorem tokens_eq (h : Reads s ts s') : s.tokens = (ts, s') :=
  tokensWithin_eq h (Nat.lt_succ_self _)

theorem reads_tokens (s : Scanner) : Reads s s.tokens.1 s.tokens.2 := by
  obtain ⟨ts, s', h⟩ := s.exists_reads
  rw [tokens_eq h]
  exact h

theorem nextTokens_eq (h : Reads s ts s') : nextTokens ts.length s = (ts, s') := by
  induction ts generalizing s with
  | nil =>
    rcases begins_nextWithin h (Nat.lt_succ_self _) with ⟨_, hTokens, _⟩ | ⟨_, _, _, hTokens, _⟩
    all_goals cases hTokens
  | cons t ts ih =>
    have hBegins : Begins s (t :: ts) s' s.next.1 s.next.2 :=
      begins_nextWithin h (Nat.lt_succ_self _)
    rw [List.length_cons, nextTokens]
    rcases hBegins with ⟨_, hTokens, hState⟩ | ⟨_, _, more, hTokens, hMore⟩
    · obtain ⟨rfl, rfl⟩ := List.cons.inj hTokens
      simp [hState, nextTokens]
    · obtain ⟨rfl, rfl⟩ := List.cons.inj hTokens
      simp only [ih hMore]

theorem Reads.ends (h : Reads s ts s') :
    ∃ init last, ts = init ++ [last] ∧ last.kind = .eof ∧ ∀ t ∈ init, t.kind ≠ .eof := by
  induction h with
  | failed | ended => exact ⟨[], _, rfl, rfl, List.forall_mem_nil _⟩
  | @token s s₁ s' t ts hError hMore hTake h ih =>
    obtain ⟨init, last, rfl, hLast, hInit⟩ := ih
    refine ⟨t :: init, last, rfl, hLast, ?_⟩
    exact List.forall_mem_cons.mpr ⟨kind_ne_eof_of_take hMore hTake, hInit⟩
  | silent _ _ _ _ ih => exact ih

theorem Reads.forall_mem {P : TokenKind → String → Prop} (h : Reads s ts s') (hEnd : P .eof "")
    (hLexeme : ∀ text kind value, text ≠ [] →
      (Lexeme.scan s.settings text).token = some (kind, value) → P kind value) :
    ∀ t ∈ ts, P t.kind t.value := by
  induction h with
  | failed | ended => simpa [eofToken] using hEnd
  | @token s s₁ s' t ts hError hMore hTake h ih =>
    rw [List.forall_mem_cons]
    constructor
    · obtain ⟨⟨kind, value⟩, hScan, rfl⟩ := Option.map_eq_some_iff.mp (congrArg Prod.fst hTake)
      exact hLexeme _ kind value hMore hScan
    · exact ih (by rwa [settings_of_take hTake])
  | @silent s s₁ s' ts hError hMore hTake h ih => exact ih (by rwa [settings_of_take hTake])

theorem Reads.kind_ne_directive (h : Reads s ts s')
    (hOff : s.settings.feature .noDirectives = true) : ∀ t ∈ ts, t.kind ≠ .directive := by
  refine h.forall_mem (P := fun kind _ => kind ≠ .directive) (by decide) ?_
  rintro text kind value hText hScan rfl
  exact Lexeme.token_scan_ne_directive hOff hText value hScan

theorem Reads.comment_onOneLine (h : Reads s ts s') :
    ∀ t ∈ ts, t.kind = .comment → '\n' ∉ t.value.toList := by
  refine h.forall_mem (P := fun kind value => kind = .comment → '\n' ∉ value.toList) nofun ?_
  rintro text kind value hText hScan rfl
  exact Lexeme.not_mem_of_scan_comment hText hScan

end Scanner

end BatchCompiler
