import Mathlib.Data.List.TakeWhile
import BatchCompiler.Proofs.Source.Tiling

/-!
# Integer literals

The first characters of an integer literal choose its base: sixteen after `0x`, eight after any other
leading zero, ten without one. A literal is read as its value in that base, which has to be below
`2 ^ 63`.
-/

namespace BatchCompiler

open Text

namespace Writing

variable {c : Char} {exponent rest digits more : List Char} {settings : Settings}

structure IsDigits (cs : List Char) : Prop where
  nonempty : cs ≠ []
  digits : ∀ c ∈ cs, c.isDigit = true

theorem isDecimalDigit_of_isDigit {c : Char} (h : c.isDigit = true) : isDecimalDigit c = true := by
  simp [isDecimalDigit, h]

theorem toNat_of_isDigit (h : c.isDigit = true) : 48 ≤ c.toNat ∧ c.toNat ≤ 57 := by
  simpa [Char.isDigit, UInt32.le_iff_toNat_le] using h

theorem not_isNameStart_of_isDigit (h : c.isDigit = true) : isNameStart c = false := by
  obtain ⟨hLow, hHigh⟩ := toNat_of_isDigit h
  have hAlpha : c.isAlpha = false := by
    delta Char.isAlpha Char.isUpper Char.isLower
    simp [UInt32.le_iff_toNat_le]
    omega
  have hUnderscore : c ≠ '_' := by
    rintro rfl
    exact absurd h (by decide)
  simp [isNameStart, isLetter, hAlpha, hUnderscore]
  omega

theorem number_of_second {text : List Char}
    (h : ∀ c more, text = '0' :: c :: more → c ≠ 'x' ∧ c ≠ 'X') :
    Lexeme.number text = Lexeme.decimal text := by
  unfold Lexeme.number
  split
  · exact absurd rfl (h 'x' _ rfl).1
  · exact absurd rfl (h 'X' _ rfl).2
  · rfl

theorem scan_digit (hc : c.isDigit = true) (more : List Char) :
    Lexeme.scan settings (c :: more) = Lexeme.number (c :: more) := by
  have hSlash : c ≠ '/' := by
    rintro rfl
    exact absurd hc (by decide)
  have hPoint : c ≠ '.' := by
    rintro rfl
    exact absurd hc (by decide)
  have hStarts : Lexeme.startsNumber (c :: more) = true := by
    simp [Lexeme.startsNumber, hPoint, isDecimalDigit_of_isDigit hc]
  simp [Lexeme.scan, hSlash, not_isNameStart_of_isDigit hc, hStarts]

/-- The exponent of a number before `rest`: its mark with the sign, and its digits. Both are missing
where there is no exponent. -/
structure Trails (mark exponent rest : List Char) : Prop where
  whole : (mark ++ (exponent ++ rest)).takeWhile isDecimalDigit = []
  fraction : Lexeme.fractionPart (mark ++ (exponent ++ rest)) = []
  found : Lexeme.exponentMark (mark ++ (exponent ++ rest)) = mark
  digits : (exponent ++ rest).takeWhile isDecimalDigit = exponent
  nonempty : mark ≠ [] → exponent ≠ []

theorem fractionPart_append (hDigits : IsDigits digits)
    (hMore : more.takeWhile isDecimalDigit = []) :
    Lexeme.fractionPart ('.' :: digits ++ more) = '.' :: digits := by
  obtain ⟨d, ds, rfl⟩ := List.exists_cons_of_ne_nil hDigits.nonempty
  have hAll : ∀ c ∈ d :: ds, isDecimalDigit c = true :=
    fun c hc => isDecimalDigit_of_isDigit (hDigits.digits c hc)
  have hTake : (d :: ds ++ more).takeWhile isDecimalDigit = d :: ds := by
    rw [List.takeWhile_append_of_pos hAll, hMore, List.append_nil]
  simp only [List.cons_append, Lexeme.fractionPart, if_pos (hAll d List.mem_cons_self)]
  rw [← List.cons_append, hTake]

theorem Trails.decimal_eq {whole fraction mark : List Char} (h : Trails mark exponent rest)
    (hWhole : ∀ c ∈ whole, c.isDigit = true)
    (hFraction : fraction = [] ∨ ∃ digits, IsDigits digits ∧ fraction = '.' :: digits) :
    Lexeme.decimal (whole ++ (fraction ++ (mark ++ (exponent ++ rest)))) =
      if mark = [] then
        if fraction = [] then Lexeme.integer whole else Lexeme.float (whole ++ fraction) none
      else Lexeme.float (whole ++ fraction ++ mark ++ exponent) none := by
  have hStop : (fraction ++ (mark ++ (exponent ++ rest))).takeWhile isDecimalDigit = [] := by
    rcases hFraction with rfl | ⟨digits, -, rfl⟩
    · exact h.whole
    · exact List.takeWhile_cons_of_neg (by decide)
  have hPart : Lexeme.fractionPart (fraction ++ (mark ++ (exponent ++ rest))) = fraction := by
    rcases hFraction with rfl | ⟨digits, hDigits, rfl⟩
    · exact h.fraction
    · exact fractionPart_append hDigits h.whole
  have hTake : (whole ++ (fraction ++ (mark ++ (exponent ++ rest)))).takeWhile isDecimalDigit =
      whole := by
    rw [List.takeWhile_append_of_pos fun c hc => isDecimalDigit_of_isDigit (hWhole c hc), hStop,
      List.append_nil]
  have hBody : (whole ++ (fraction ++ (mark ++ (exponent ++ rest)))).drop
      (whole ++ fraction).length = mark ++ (exponent ++ rest) := by
    rw [← List.append_assoc, List.drop_left]
  have hTail : (whole ++ (fraction ++ (mark ++ (exponent ++ rest)))).drop
      ((whole ++ fraction).length + mark.length) = exponent ++ rest := by
    rw [← List.drop_drop, hBody, List.drop_left]
  simp only [Lexeme.decimal, hTake, List.drop_left, hPart, hBody, h.found, hTail, h.digits,
    List.isEmpty_iff]
  split
  · rfl
  · next hMark => rw [if_neg (h.nonempty hMark)]

end Writing

namespace Numeral

open Writing

def value (base : Nat) (digits : List Char) : Nat :=
  digits.foldl (fun n c => n * base + Lexeme.hexValue c) 0

structure NoMore (rest : List Char) : Prop where
  digit : ∀ c more, rest = c :: more → c.isDigit = false
  fraction : ∀ c more, rest = '.' :: c :: more → isDecimalDigit c = false
  exponent : ∀ more, rest ≠ 'e' :: more ∧ rest ≠ 'E' :: more

inductive Literal (rest : List Char) : Nat → List Char → List Char → Prop where
  | decimal {digits : List Char} (hDigits : IsDigits digits) (hRest : NoMore rest)
    (hZero : ∀ more, digits = '0' :: more →
      more = [] ∧ ∀ others, rest ≠ 'x' :: others ∧ rest ≠ 'X' :: others) :
    Literal rest 10 digits digits
  | octal {digits : List Char} (hDigits : IsDigits digits) (hRest : NoMore rest) :
    Literal rest 8 digits ('0' :: digits)
  | hexadecimal {mark : Char} {digits : List Char} (hMark : mark = 'x' ∨ mark = 'X')
    (hSome : digits ≠ []) (hDigits : ∀ c ∈ digits, (digitValue? c).isSome = true)
    (hRest : ∀ c more, rest = c :: more → digitValue? c = none) :
    Literal rest 16 digits ('0' :: mark :: digits)

def Fits (base : Nat) (digits : List Char) : Prop :=
  (base = 8 → ∀ c ∈ digits, c < '8') ∧ value base digits < 0x8000000000000000

variable {base n : Nat} {digits text rest : List Char} {c : Char} {settings : Settings}

theorem ofDigits?_of_lt (h : ∀ c ∈ digits, ∃ d < base, digitValue? c = some d) (acc : Nat) :
    Number.ofDigits? base acc digits =
      some (digits.foldl (fun n c => n * base + Lexeme.hexValue c) acc) := by
  induction digits generalizing acc with
  | nil => rfl
  | cons c rest ih =>
    obtain ⟨⟨d, hLt, hd⟩, hRest⟩ := List.forall_mem_cons.mp h
    rw [Number.ofDigits?, hd, List.foldl_cons, Lexeme.hexValue, hd]
    simp only [if_pos hLt]
    exact ih hRest _

theorem ofDigits?_of_le (hMem : c ∈ digits) (h : ∀ d, digitValue? c = some d → base ≤ d)
    (acc : Nat) : Number.ofDigits? base acc digits = none := by
  induction digits generalizing acc with
  | nil => cases hMem
  | cons x rest ih =>
    rw [Number.ofDigits?]
    cases hx : digitValue? x with
    | none => rfl
    | some d =>
      rcases List.mem_cons.mp hMem with rfl | hRest
      · exact if_neg (Nat.not_lt.mpr (h d hx))
      · dsimp only
        split
        · exact ih hRest _
        · rfl

theorem digitValue?_of_isDigit (h : c.isDigit = true) :
    digitValue? c = some (c.toNat - '0'.toNat) :=
  if_pos (toNat_of_isDigit h)

theorem ne_of_isDigit {x : Char} (h : c.isDigit = true) (hx : x.isDigit = false) : c ≠ x := by
  rintro rfl
  rw [h] at hx
  cases hx

theorem literalValue?_eq (h : Literal rest base digits text) :
    Number.literalValue? text = Number.ofDigits? base 0 digits := by
  cases h with
  | decimal hDigits hRest hZero =>
    obtain ⟨d, ds, rfl⟩ := List.exists_cons_of_ne_nil hDigits.nonempty
    by_cases hd : d = '0'
    · subst hd
      obtain ⟨rfl, -⟩ := hZero ds rfl
      rfl
    · simp [Number.literalValue?, hd]
  | octal hDigits hRest =>
    obtain ⟨d, ds, rfl⟩ := List.exists_cons_of_ne_nil hDigits.nonempty
    have hd := hDigits.digits d List.mem_cons_self
    have hx : d ≠ 'x' := ne_of_isDigit hd (by decide)
    have hX : d ≠ 'X' := ne_of_isDigit hd (by decide)
    simp [Number.literalValue?, hx, hX]
  | hexadecimal hMark hSome hDigits hRest =>
    obtain ⟨d, ds, rfl⟩ := List.exists_cons_of_ne_nil hSome
    rcases hMark with rfl | rfl <;> rfl

theorem readLiteral?_foreign (hMem : c ∈ text) (hc : isDecimalDigit c = true)
    (hNone : digitValue? c = none) : Number.readLiteral? text = none := by
  have hOther : ∀ x, isDecimalDigit x = false ∨ (digitValue? x).isSome = true → c ≠ x := by
    rintro x hx rfl
    simp [hc, hNone] at hx
  have hZero : c ≠ '0' := hOther '0' (by decide)
  have hx : c ≠ 'x' := hOther 'x' (by decide)
  have hX : c ≠ 'X' := hOther 'X' (by decide)
  have hDigits : ∀ {base digits}, c ∈ digits → Number.ofDigits? base 0 digits = none :=
    fun hMem => ofDigits?_of_le hMem (by simp [hNone]) 0
  have hValue : Number.literalValue? text = none := by
    unfold Number.literalValue?
    split
    · rfl
    · exact hDigits (by simpa [hZero, hx] using hMem)
    · exact hDigits (by simpa [hZero, hX] using hMem)
    · exact hDigits (by simpa [hZero] using hMem)
    · exact hDigits hMem
  rw [Number.readLiteral?, hValue]

theorem lt_iff_toNat_lt {x y : Char} : x < y ↔ x.toNat < y.toNat :=
  UInt32.lt_iff_toNat_lt

theorem lt_of_digitValue? {d : Nat} (h : digitValue? c = some d) : d < 16 := by
  have hLe {x y : Char} (hxy : x ≤ y) (z : Char) : x.toNat - z.toNat ≤ y.toNat - z.toNat :=
    Nat.sub_le_sub_right (UInt32.le_iff_toNat_le.mp hxy) _
  unfold digitValue? at h
  split at h
  · next hc =>
    cases h
    exact Nat.lt_of_le_of_lt (hLe hc.2 '0') (by decide)
  · split at h
    · next hc =>
      cases h
      exact Nat.lt_of_le_of_lt (Nat.add_le_add_right (hLe hc.2 'a') 10) (by decide)
    · split at h
      · next hc =>
        cases h
        exact Nat.lt_of_le_of_lt (Nat.add_le_add_right (hLe hc.2 'A') 10) (by decide)
      · cases h

theorem exists_digitValue? (h : Literal rest base digits text)
    (hOctal : base = 8 → ∀ c ∈ digits, c < '8') :
    ∀ c ∈ digits, ∃ d < base, digitValue? c = some d := by
  intro c hc
  cases h with
  | decimal hDigits =>
    have hDigit := hDigits.digits c hc
    obtain ⟨hLow, hHigh⟩ := toNat_of_isDigit hDigit
    exact ⟨_, Nat.lt_of_le_of_lt (Nat.sub_le_sub_right hHigh _) (by decide),
      digitValue?_of_isDigit hDigit⟩
  | octal hDigits =>
    have hLt := lt_iff_toNat_lt.mp (hOctal rfl c hc)
    exact ⟨_, Nat.lt_of_le_of_lt (Nat.sub_le_sub_right (Nat.le_of_lt_succ hLt) _) (by decide),
      digitValue?_of_isDigit (hDigits.digits c hc)⟩
  | hexadecimal _ _ hDigits =>
    obtain ⟨d, hd⟩ := Option.isSome_iff_exists.mp (hDigits c hc)
    exact ⟨d, lt_of_digitValue? hd, hd⟩

theorem readLiteral?_of_fits (h : Literal rest base digits text) (hFits : Fits base digits) :
    Number.readLiteral? text = some (value base digits) := by
  rw [Number.readLiteral?, literalValue?_eq h, ofDigits?_of_lt (exists_digitValue? h hFits.1)]
  exact if_pos hFits.2

theorem readLiteral?_of_not_fits (h : Literal rest base digits text) (hFits : ¬Fits base digits) :
    Number.readLiteral? text = none := by
  rw [Number.readLiteral?, literalValue?_eq h]
  by_cases hOctal : base = 8 → ∀ c ∈ digits, c < '8'
  · rw [ofDigits?_of_lt (exists_digitValue? h hOctal)]
    exact if_neg fun hSmall => hFits ⟨hOctal, hSmall⟩
  · simp only [Classical.not_imp, not_forall] at hOctal
    obtain ⟨rfl, c, hMem, hc⟩ := hOctal
    cases h with
    | octal hDigits =>
      rw [ofDigits?_of_le hMem]
      rintro d hd
      rw [digitValue?_of_isDigit (hDigits.digits c hMem)] at hd
      cases hd
      exact Nat.sub_le_sub_right (Nat.not_lt.mp fun hLt => hc (lt_iff_toNat_lt.mpr hLt)) 48

theorem fault_integer (h : Number.readLiteral? text = none) : (Lexeme.integer text).fault ≠ none := by
  rw [Lexeme.integer, h]
  exact Option.some_ne_none _

theorem NoMore.trails (h : NoMore rest)
    (hForeign : ∀ c more, rest = c :: more → isDecimalDigit c = false) : Trails [] [] rest := by
  have hWhole : rest.takeWhile isDecimalDigit = [] := by
    cases rest with
    | nil => rfl
    | cons c more => exact List.takeWhile_cons_of_neg (by simp [hForeign c more rfl])
  have hFraction : Lexeme.fractionPart rest = [] := by
    unfold Lexeme.fractionPart
    split
    · next c more => exact if_neg (by simp [h.fraction c more rfl])
    · rfl
  have hMark : Lexeme.exponentMark rest = [] := by
    unfold Lexeme.exponentMark
    split
    all_goals first | rfl | exact absurd rfl (h.exponent _).1 | exact absurd rfl (h.exponent _).2
  exact ⟨hWhole, hFraction, hMark, hWhole, absurd rfl⟩

theorem scan_digits (hDigits : IsDigits text)
    (hMark : text = ['0'] → ∀ others, rest ≠ 'x' :: others ∧ rest ≠ 'X' :: others) :
    Lexeme.scan settings (text ++ rest) = Lexeme.decimal (text ++ rest) := by
  obtain ⟨d, ds, rfl⟩ := List.exists_cons_of_ne_nil hDigits.nonempty
  rw [List.cons_append, scan_digit (hDigits.digits d List.mem_cons_self)]
  refine number_of_second fun c more hText => ?_
  obtain ⟨rfl, hTail⟩ := List.cons.inj hText
  cases ds with
  | nil =>
    subst hTail
    exact ⟨fun h => (hMark rfl more).1 (h ▸ rfl), fun h => (hMark rfl more).2 (h ▸ rfl)⟩
  | cons e es =>
    obtain ⟨rfl, -⟩ := List.cons.inj hTail
    have he : e.isDigit = true := hDigits.digits e (by simp)
    exact ⟨ne_of_isDigit he (by decide), ne_of_isDigit he (by decide)⟩

theorem decimal_foreign {c : Char} {more : List Char} (hDigits : IsDigits text)
    (hc : isDecimalDigit c = true) (hNone : digitValue? c = none) :
    ¬((∃ v, (Lexeme.decimal (text ++ c :: more)).token = some (.number, v)) ∧
      (Lexeme.decimal (text ++ c :: more)).fault = none) := by
  have hWhole : c ∈ (text ++ c :: more).takeWhile isDecimalDigit := by
    rw [List.takeWhile_append_of_pos fun d hd => isDecimalDigit_of_isDigit (hDigits.digits d hd),
      List.takeWhile_cons_of_pos hc]
    simp
  rintro ⟨⟨v, hToken⟩, hFault⟩
  unfold Lexeme.decimal at hToken hFault
  dsimp only at hToken hFault
  split at hToken
  · split at hToken
    · next hMark hFraction =>
      rw [if_pos hMark, if_pos hFraction] at hFault
      exact fault_integer (readLiteral?_foreign hWhole hc hNone) hFault
    · cases hToken
  · split at hToken <;> cases hToken

theorem isHexDigit_iff :
    isHexDigit c = true ↔ isDecimalDigit c = true ∨ (digitValue? c).isSome = true := by
  by_cases hDigit : '0' ≤ c ∧ c ≤ '9'
  · have hc : c.isDigit = true := by
      rw [Char.isDigit, Bool.and_eq_true, decide_eq_true_eq, decide_eq_true_eq]
      exact hDigit
    simp [isHexDigit, isDecimalDigit_of_isDigit hc]
  · simp only [isHexDigit, digitValue?, if_neg hDigit, Bool.or_eq_true, Bool.and_eq_true,
      decide_eq_true_eq, or_assoc]
    split
    · next h => simp [h]
    · next h =>
      split
      · next h' => simp [h']
      · next h' => simp [h, h']

theorem digitValue?_foreign (hc : isDecimalDigit c = true) (hDigit : c.isDigit = false) :
    digitValue? c = none := by
  have hLarge : 127 < c.toNat := by
    simp [isDecimalDigit, hDigit] at hc
    exact hc.1
  have hGt : ∀ x : Char, x.toNat ≤ 127 → ¬c ≤ x := fun x hx hLe =>
    Nat.not_lt.mpr ((UInt32.le_iff_toNat_le.mp hLe).trans hx) hLarge
  simp [digitValue?, hGt]

theorem Literal.decimal_or_marked (h : Literal rest base digits text) :
    (IsDigits text ∧ NoMore rest ∧
      (text = ['0'] → ∀ others, rest ≠ 'x' :: others ∧ rest ≠ 'X' :: others)) ∨
    ∃ mark, (mark = 'x' ∨ mark = 'X') ∧ text = '0' :: mark :: digits ∧
      (∀ c ∈ digits, isHexDigit c = true) ∧
      ∀ c more, rest = c :: more → digitValue? c = none := by
  cases h with
  | decimal hDigits hRest hZero => exact .inl ⟨hDigits, hRest, fun h => (hZero [] h).2⟩
  | octal hDigits hRest =>
    exact .inl ⟨⟨List.cons_ne_nil _ _, List.forall_mem_cons.mpr ⟨rfl, hDigits.digits⟩⟩, hRest,
      fun h => absurd (List.cons.inj h).2 hDigits.nonempty⟩
  | hexadecimal hMark _ hDigits hRest =>
    exact .inr ⟨_, hMark, rfl, fun c hc => isHexDigit_iff.mpr (.inr (hDigits c hc)), hRest⟩

theorem scan_marked {mark : Char} (hMark : mark = 'x' ∨ mark = 'X')
    (hDigits : ∀ c ∈ digits, isHexDigit c = true) :
    Lexeme.scan settings ('0' :: mark :: digits ++ rest) =
      Lexeme.integer ('0' :: mark :: (digits ++ rest.takeWhile isHexDigit)) := by
  rw [List.cons_append, scan_digit rfl, ← List.takeWhile_append_of_pos hDigits]
  rcases hMark with rfl | rfl <;> rfl

theorem scan_eq (h : Literal rest base digits text)
    (hForeign : ∀ c more, rest = c :: more → isDecimalDigit c = false) :
    Lexeme.scan settings (text ++ rest) = Lexeme.integer text := by
  rcases h.decimal_or_marked with ⟨hDigits, hRest, hMark⟩ | ⟨mark, hMark, rfl, hDigits, hRest⟩
  · rw [scan_digits hDigits hMark]
    exact (hRest.trails hForeign).decimal_eq hDigits.digits (.inl rfl)
  · have hStop : rest.takeWhile isHexDigit = [] := by
      cases rest with
      | nil => rfl
      | cons c more =>
        refine List.takeWhile_cons_of_neg fun hc => ?_
        simp [isHexDigit_iff, hForeign c more rfl, hRest c more rfl] at hc
    rw [scan_marked hMark hDigits, hStop, List.append_nil]

theorem scan_foreign {more : List Char} (h : Literal (c :: more) base digits text)
    (hc : isDecimalDigit c = true) :
    ¬((∃ v, (Lexeme.scan settings (text ++ c :: more)).token = some (.number, v)) ∧
      (Lexeme.scan settings (text ++ c :: more)).fault = none) := by
  rcases h.decimal_or_marked with ⟨hDigits, hRest, hMark⟩ | ⟨mark, hMark, rfl, hDigits, hRest⟩
  · rw [scan_digits hDigits hMark]
    exact decimal_foreign hDigits hc (digitValue?_foreign hc (hRest.digit c more rfl))
  · rw [scan_marked hMark hDigits, List.takeWhile_cons_of_pos (isHexDigit_iff.mpr (.inl hc))]
    exact fun h => fault_integer (readLiteral?_foreign (by simp) hc (hRest c more rfl)) h.2

theorem scan_of_fits (h : Literal rest base digits text)
    (hForeign : ∀ c more, rest = c :: more → isDecimalDigit c = false) (hFits : Fits base digits) :
    Lexeme.scan settings (text ++ rest) =
      { length := text.length, token := some (.number, Number.natText (value base digits)) } := by
  rw [scan_eq h hForeign, Lexeme.integer, readLiteral?_of_fits h hFits]

theorem scan_isNumber_iff (settings : Settings) (h : Literal rest base digits text) :
    ((∃ v, (Lexeme.scan settings (text ++ rest)).token = some (.number, v)) ∧
      (Lexeme.scan settings (text ++ rest)).fault = none) ↔
    (∀ c more, rest = c :: more → isDecimalDigit c = false) ∧ Fits base digits := by
  constructor
  · intro hNumber
    have hForeign : ∀ c more, rest = c :: more → isDecimalDigit c = false := by
      rintro c more rfl
      by_contra hc
      exact scan_foreign h (by simpa using hc) hNumber
    refine ⟨hForeign, by_contra fun hFits => ?_⟩
    rw [scan_eq h hForeign] at hNumber
    exact fault_integer (readLiteral?_of_not_fits h hFits) hNumber.2
  · rintro ⟨hForeign, hFits⟩
    rw [scan_of_fits h hForeign hFits]
    exact ⟨⟨_, rfl⟩, rfl⟩

variable {s : Scanner}

theorem next_of_digit {more : List Char} {kind : TokenKind} {v : String} (hError : s.error = none)
    (hRest : s.cursor.rest = c :: more) (hc : c.isDigit = true)
    (hToken : (Lexeme.scan s.settings s.cursor.rest).token = some (kind, v)) :
    s.next.1.kind = kind ∧ s.next.1.value = v ∧
      (s.next.2.error = none ↔ (Lexeme.scan s.settings s.cursor.rest).fault = none) := by
  have hSpacing : Gap.isSpacing c = false := by
    simp [Gap.isSpacing, ne_of_isDigit hc]
  have hSkip := Scanner.skipGap_eq_self hRest hSpacing (ne_of_isDigit hc (by decide))
  rcases hTake : s.take with ⟨token, s₁⟩
  obtain rfl : token = some ⟨kind, v, s.cursor.span s.file
      (Lexeme.scan s.settings s.cursor.rest).length⟩ := by
    simpa [Scanner.take, hToken] using (congrArg Prod.fst hTake).symm
  rw [Scanner.next_of_take hError hSkip (by simp [hRest]) hTake]
  refine ⟨rfl, rfl, ?_⟩
  rw [Scanner.error_of_take hTake]
  exact Scanner.error_move_eq_none.trans (and_iff_right hError)

theorem Literal.exists_cons (h : Literal rest base digits text) :
    ∃ c more, text = c :: more ∧ c.isDigit = true := by
  rcases h.decimal_or_marked with ⟨hDigits, -⟩ | ⟨mark, -, rfl, -⟩
  · obtain ⟨c, more, rfl⟩ := List.exists_cons_of_ne_nil hDigits.nonempty
    exact ⟨c, more, rfl, hDigits.digits c List.mem_cons_self⟩
  · exact ⟨'0', _, rfl, rfl⟩

theorem exists_token_of_digit (settings : Settings) (hc : c.isDigit = true) (more : List Char) :
    ∃ kind v, (Lexeme.scan settings (c :: more)).token = some (kind, v) := by
  have hInteger : ∀ text, ∃ kind v, (Lexeme.integer text).token = some (kind, v) := by
    intro text
    unfold Lexeme.integer
    split <;> exact ⟨_, _, rfl⟩
  rw [scan_digit hc, Lexeme.number.eq_def]
  split
  · exact hInteger _
  · exact hInteger _
  · unfold Lexeme.decimal
    dsimp only
    split
    · split
      · exact hInteger _
      · exact ⟨_, _, rfl⟩
    · split <;> exact ⟨_, _, rfl⟩

end Numeral

end BatchCompiler
