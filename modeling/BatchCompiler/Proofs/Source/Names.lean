import BatchCompiler.Source.Scanner

/-!
# Names

How identifiers are spelled: of letters, digits and underscores, and not like a keyword.
-/

namespace BatchCompiler

structure IsName (s : String) : Prop where
  ne_nil : s.toList ≠ []
  part : ∀ c ∈ s.toList, Text.isNamePart c = true
  keyword : TokenKind.keyword? s = none

namespace Lexeme

theorem isNamePart_of_isNameStart {c : Char} (h : Text.isNameStart c = true) :
    Text.isNamePart c = true := by
  unfold Text.isNameStart at h
  unfold Text.isNamePart
  grind

theorem isName_of_word {c : Char} {rest : List Char} {value : String}
    (hc : Text.isNameStart c = true) (h : (word (c :: rest)).token = some (.ident, value)) :
    IsName value := by
  simp only [word] at h
  split at h
  · next k hKeyword =>
    have hMem := List.mem_of_find?_eq_some hKeyword
    obtain ⟨rfl, _⟩ := Prod.mk.inj (Option.some.inj h)
    cases hMem
    all_goals contradiction
  · next hKeyword =>
    obtain ⟨_, rfl⟩ := Prod.mk.inj (Option.some.inj h)
    refine ⟨?_, ?_, hKeyword⟩
    · simp [isNamePart_of_isNameStart hc]
    · intro x hx
      rw [String.toList_ofList] at hx
      exact List.all_eq_true.mp List.all_takeWhile x hx

theorem token_lineComment_ne (s : Settings) (rest : List Char) (value : String) :
    (lineComment s rest).token ≠ some (.ident, value) := by
  unfold lineComment
  grind

theorem token_integer_ne (text : List Char) (value : String) :
    (integer text).token ≠ some (.ident, value) := by
  unfold integer
  split <;> simp

theorem token_number_ne (text : List Char) (value : String) :
    (number text).token ≠ some (.ident, value) := by
  unfold number
  split
  · exact token_integer_ne _ value
  · exact token_integer_ne _ value
  · unfold decimal
    grind [float, token_integer_ne]

theorem token_punctuation_ne (text : List Char) (value : String) :
    (punctuation text).token ≠ some (.ident, value) := by
  fun_cases punctuation text
  all_goals simp [symbol, unexpected, quoted]

theorem isName_of_scan {s : Settings} {text : List Char} {value : String}
    (h : (scan s text).token = some (.ident, value)) : IsName value := by
  unfold scan at h
  split at h
  · exact absurd h (token_lineComment_ne s _ value)
  · split at h
    · next hStart => exact isName_of_word hStart h
    · split at h
      · exact absurd h (token_number_ne _ value)
      · exact absurd h (token_punctuation_ne _ value)
  · cases h

end Lexeme

namespace Scanner

theorem isName_of_take {s s' : Scanner} {t : Token} (h : s.take = (some t, s'))
    (hKind : t.kind = .ident) : IsName t.value := by
  have hToken := congrArg Prod.fst h
  obtain ⟨⟨kind, value⟩, hScan, rfl⟩ := Option.map_eq_some_iff.mp hToken
  obtain rfl : kind = .ident := hKind
  exact Lexeme.isName_of_scan hScan

theorem isName_of_nextWithin {s : Scanner} {fuel : Nat}
    (hKind : (s.nextWithin fuel).1.kind = .ident) : IsName (s.nextWithin fuel).1.value := by
  induction fuel generalizing s with
  | zero => cases hKind
  | succ fuel ih =>
    rw [nextWithin] at hKind ⊢
    split at hKind
    · cases hKind
    · next hError =>
      rw [if_neg hError]
      simp only at hKind ⊢
      split at hKind
      · cases hKind
      · next hRest =>
        rw [if_neg hRest]
        split at hKind
        · next t s' hTake =>
          exact isName_of_take hTake hKind
        · exact ih hKind

theorem isName_of_mem_tokens {s : Scanner} {t : Token} (h : t ∈ s.tokens.1)
    (hKind : t.kind = .ident) : IsName t.value := by
  unfold tokens at h
  generalize s.cursor.rest.length + 1 = fuel at h
  induction fuel generalizing s with
  | zero =>
    rw [List.mem_singleton.mp h] at hKind
    cases hKind
  | succ fuel ih =>
    rw [tokensWithin] at h
    simp only at h
    split at h
    · obtain rfl := List.mem_singleton.mp h
      exact isName_of_nextWithin hKind
    · rcases List.mem_cons.mp h with rfl | hRest
      · exact isName_of_nextWithin hKind
      · exact ih hRest

end Scanner

end BatchCompiler
