import Mathlib
import BatchCompiler.Proofs.Source.Numerals
import BatchCompiler.Proofs.Syntax.Printing

/-!
# Integers in programs

An integer literal becomes a number token and then a number in the tree, which holds the value of the
literal. Every minus sign before the literal negates that value, and none overflows.
-/

namespace BatchCompiler

namespace Numeral

open Text Writing Syntax

variable {base n : Nat} {digits text rest : List Char} {s : Scanner}

theorem exists_expression_signed {t : Token} {signs : List Token} (hKind : t.kind = .number)
    (hValue : t.value = Number.natText n) (hn : n < 0x8000000000000000)
    (hSigns : ∀ x ∈ signs, x.kind = .minus) :
    ∃ span v, Expression .unary (signs ++ [t]) (.number span v) ∧
      v.toInt = (-1) ^ signs.length * (n : Int) := by
  induction signs with
  | nil =>
    refine ⟨t.span, Int64.ofNat n, ?_, ?_⟩
    · rw [← Number.readClamped_natText hn, ← hValue]
      exact .ofPostfixed (.ofPrimary (.number hKind))
    · rw [Int64.toInt_ofNat_of_lt hn]
      simp
  | cons sign signs ih =>
    obtain ⟨hSign, hSigns⟩ := List.forall_mem_cons.mp hSigns
    obtain ⟨span, v, hDerived, hv⟩ := ih hSigns
    have hAbs : v.toInt.natAbs = n := by
      rw [hv, Int.natAbs_mul, Int.natAbs_pow]
      simp
    refine ⟨sign.span, -v, ?_, ?_⟩
    · have hOp : sign.kind ∈ prefixOperators := by rw [hSign]; decide
      have hPrefixed := Expression.prefixed hOp hDerived
      rwa [hSign] at hPrefixed
    · have hNeg : (-v).toInt = -v.toInt := by
        rw [Int64.toInt_neg]
        exact Int.bmod_eq_of_le_mul_two (by omega) (by omega)
      rw [hNeg, hv, List.length_cons, Int.pow_succ, Int.mul_neg_one, Int.neg_mul]

/-- An integer literal is a number token without error exactly when its value fits, in the base that
the literal chooses, and no digit of another script follows it. With minus signs before it, it is
then parsed as a number that is this value, negated once for each sign. -/
theorem next_literal (h : Literal rest base digits text) (hError : s.error = none)
    (hRest : s.cursor.rest = text ++ rest) :
    (s.next.1.kind = .number ∧ s.next.2.error = none ↔
      (∀ c more, rest = c :: more → isDecimalDigit c = false) ∧ Fits base digits) ∧
    (s.next.1.kind = .number → s.next.2.error = none →
      ∀ signs after fuel least, (∀ x ∈ signs, x.kind = .minus) →
        3 * (signs.length + 1) + 1 ≤ fuel → Parser.Ends least after →
        Parser.Accepts (Parser.unary fuel) (signs ++ [s.next.1]) after fun node =>
          ∃ span v, node = .number span v ∧
            v.toInt = (-1) ^ signs.length * (value base digits : Int)) := by
  obtain ⟨c, more, hText, hc⟩ := h.exists_cons
  have hFront : s.cursor.rest = c :: (more ++ rest) := by rw [hRest, hText, List.cons_append]
  obtain ⟨kind, v, hToken⟩ := exists_token_of_digit s.settings hc (more ++ rest)
  rw [← hFront] at hToken
  obtain ⟨hKind, hValue, hFault⟩ := next_of_digit hError hFront hc hToken
  rw [hRest] at hToken hFault
  have hIff : s.next.1.kind = .number ∧ s.next.2.error = none ↔
      (∀ c more, rest = c :: more → isDecimalDigit c = false) ∧ Fits base digits := by
    rw [← scan_isNumber_iff s.settings h, hKind, hFault, hToken]
    simp
  refine ⟨hIff, fun hNumber hClear signs after fuel least hSigns hFuel hEnds => ?_⟩
  obtain ⟨hForeign, hFits⟩ := hIff.mp ⟨hNumber, hClear⟩
  rw [scan_of_fits h hForeign hFits] at hToken
  cases hToken
  obtain ⟨span, w, hDerived, hw⟩ := exists_expression_signed hKind hValue hFits.2 hSigns
  intro st hAfter hAhead
  have hLength : 3 * (signs ++ [s.next.1]).length + 1 ≤ fuel := by simpa using hFuel
  obtain ⟨node, st', hRun, rfl, hLeft⟩ :=
    Parser.completes_of_expression hDerived fuel after least hLength hEnds st hAfter hAhead
  exact ⟨_, st', hRun, ⟨span, w, rfl, hw⟩, hLeft⟩

theorem noMore_semicolon : NoMore [';'] where
  digit := by simp
  fraction := by simp
  exponent := by simp

def largestDigits : List Char := "9223372036854775807".toList

theorem next_literal_largestDigits :
    (Scanner.start {} 0 (largestDigits ++ [';'])).next.1.kind = .number ∧
    (Scanner.start {} 0 (largestDigits ++ [';'])).next.2.error = none ∧
    Parser.Accepts (Parser.unary 7)
      [{ kind := .minus }, (Scanner.start {} 0 (largestDigits ++ [';'])).next.1] [{ kind := .semi }]
      fun node => ∃ span v, node = .number span v ∧ v.toInt = -9223372036854775807 := by
  have hLiteral : Literal [';'] 10 largestDigits largestDigits :=
    .decimal ⟨by decide, by decide⟩ noMore_semicolon fun more h => by
      have hHead : largestDigits.head? = some '0' := congrArg List.head? h
      exact absurd hHead (by decide)
  obtain ⟨hIff, hParse⟩ := next_literal (s := .start {} 0 (largestDigits ++ [';'])) hLiteral rfl rfl
  obtain ⟨hKind, hError⟩ := hIff.mpr ⟨by simp; decide, by decide, by decide⟩
  have hValue : value 10 largestDigits = 9223372036854775807 := by decide
  have hAccepts := hParse hKind hError [{ kind := .minus }] [{ kind := .semi }] 7 0 (by simp)
    (by decide) (Parser.ends_of_closer (by decide))
  rw [hValue] at hAccepts
  exact ⟨hKind, hError, by simpa using hAccepts⟩

/-- A run of decimal digits is not always read in base ten. -/
theorem next_leadingZero :
    ¬∀ (s : Scanner) (digits rest : List Char), IsDigits digits → NoMore rest → 1 < digits.length →
      s.error = none → s.cursor.rest = digits ++ rest →
      s.next.1.kind = .number ∧ s.next.2.error = none →
      s.next.1.value = Number.natText (value 10 digits) := by
  intro h
  have hValue := h (.start {} 0 "010;".toList) "010".toList [';'] ⟨by decide, by decide⟩
    noMore_semicolon (by decide) rfl rfl ⟨by decide, by decide⟩
  exact absurd hValue (by decide)

end Numeral

end BatchCompiler
