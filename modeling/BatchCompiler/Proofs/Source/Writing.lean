import BatchCompiler.Compilation
import BatchCompiler.Proofs.Source.Numerals

/-!
# Written tokens are read back

Every token has a spelling. Where the spellings of some tokens are joined by single spaces, scanning
finds just these tokens and has nothing to remark.
-/

namespace BatchCompiler

open Text

namespace TokenKind

def isFixed : TokenKind → Bool
  | eof | comment | directive | ident | number | float | string | unknown => false
  | _ => true

end TokenKind

namespace Writing

inductive IsExponent : List Char → Prop where
  | intro {mark : Char} {sign digits : List Char} (hMark : mark = 'e' ∨ mark = 'E')
    (hSign : sign = [] ∨ sign = ['+'] ∨ sign = ['-']) (hDigits : IsDigits digits) :
    IsExponent (mark :: (sign ++ digits))

/-- A fraction or an exponent makes a number a floating-point literal. No digits need to stand before
a point. -/
inductive IsFloat : List Char → Prop where
  | fraction {whole digits exponent : List Char} (hWhole : ∀ c ∈ whole, c.isDigit = true)
    (hDigits : IsDigits digits) (hExponent : exponent = [] ∨ IsExponent exponent) :
    IsFloat (whole ++ ('.' :: digits ++ exponent))
  | exponent {whole exponent : List Char} (hWhole : IsDigits whole)
    (hExponent : IsExponent exponent) : IsFloat (whole ++ exponent)

inductive Writable : TokenKind → String → Prop where
  | fixed {kind : TokenKind} (h : kind.isFixed = true) : Writable kind ""
  | ident {c : Char} {cs : List Char} (hStart : c.isAlpha = true ∨ c = '_')
    (hRest : ∀ d ∈ cs, d.isAlphanum = true ∨ d = '_')
    (hWord : ∀ k ∈ TokenKind.keywords, k.text ≠ String.ofList (c :: cs)) :
    Writable .ident (String.ofList (c :: cs))
  | number {n : Nat} (h : n < 0x8000000000000000) : Writable .number (Number.natText n)
  | float {cs : List Char} (h : IsFloat cs) : Writable .float (String.ofList cs)
  | string (value : String) : Writable .string value

def escaped : Char → List Char
  | '"' => ['\\', '"']
  | '\\' => ['\\', '\\']
  | '\n' => ['\\', 'n']
  | c => [c]

def spelling : TokenKind → String → List Char
  | .ident, value | .number, value | .float, value => value.toList
  | .string, value => '"' :: (value.toList.flatMap escaped ++ ['"'])
  | kind, _ => kind.text.toList

def written (words : List (TokenKind × String)) : List Char :=
  [' '].intercalate (words.map fun w => spelling w.1 w.2)

def Ends (rest : List Char) : Prop := rest = [] ∨ ∃ more, rest = ' ' :: more

theorem takeWhile_append_of_ends {p : Char → Bool} {front rest : List Char} (hBlank : p ' ' = false)
    (hFront : ∀ c ∈ front, p c = true) (hRest : Ends rest) : (front ++ rest).takeWhile p = front := by
  rw [List.takeWhile_append_of_pos hFront]
  rcases hRest with rfl | ⟨more, rfl⟩
  · simp
  · simp [hBlank]

/-! ## Names and keywords -/

section

variable {settings : Settings} {rest : List Char}

variable {c : Char} {cs exponent : List Char} {kind : TokenKind} {value : String}
  {words : List (TokenKind × String)}

variable {front digits more gap : List Char} {n : Nat} {s : Scanner}

theorem scan_word (hStart : isNameStart c = true) (hRest : ∀ d ∈ cs, isNamePart d = true)
    (hEnds : Ends rest) : Lexeme.scan settings (c :: cs ++ rest) = Lexeme.word (c :: cs) := by
  have hParts : ∀ d ∈ c :: cs, isNamePart d = true :=
    List.forall_mem_cons.mpr ⟨Lexeme.isNamePart_of_isNameStart hStart, hRest⟩
  have hName : (c :: cs ++ rest).takeWhile isNamePart = (c :: cs).takeWhile isNamePart := by
    rw [takeWhile_append_of_ends (by decide) hParts hEnds, List.takeWhile_eq_self_iff.mpr hParts]
  have hSlash : c ≠ '/' := by
    rintro rfl
    exact absurd hStart (by decide)
  have hScan : Lexeme.scan settings (c :: cs ++ rest) = Lexeme.word (c :: cs ++ rest) := by
    simp [Lexeme.scan, hStart, hSlash]
  rw [hScan, Lexeme.word, Lexeme.word, hName]

theorem isNameStart_of_ascii (h : c.isAlpha = true ∨ c = '_') : isNameStart c = true := by
  rcases h with h | rfl
  · simp [isNameStart, isLetter, h]
  · decide

theorem isNamePart_of_ascii (h : c.isAlphanum = true ∨ c = '_') : isNamePart c = true := by
  rcases h with h | rfl
  · rcases Bool.or_eq_true_iff.mp h with h | h
    · simp [isNamePart, isLetter, h]
    · simp [isNamePart, isDecimalDigit_of_isDigit h]
  · decide

theorem scan_ident (hStart : c.isAlpha = true ∨ c = '_')
    (hRest : ∀ d ∈ cs, d.isAlphanum = true ∨ d = '_')
    (hWord : ∀ k ∈ TokenKind.keywords, k.text ≠ String.ofList (c :: cs)) (hEnds : Ends rest) :
    Lexeme.scan settings (c :: cs ++ rest) =
      { length := (c :: cs).length, token := some (.ident, String.ofList (c :: cs)) } := by
  have hFirst := isNameStart_of_ascii hStart
  have hMore : ∀ d ∈ cs, isNamePart d = true := fun d hd => isNamePart_of_ascii (hRest d hd)
  have hParts : ∀ d ∈ c :: cs, isNamePart d = true :=
    List.forall_mem_cons.mpr ⟨Lexeme.isNamePart_of_isNameStart hFirst, hMore⟩
  have hKeyword : TokenKind.keyword? (String.ofList (c :: cs)) = none := by
    refine List.find?_eq_none.mpr fun k hk => ?_
    simpa using hWord k hk
  rw [scan_word hFirst hMore hEnds, Lexeme.word, List.takeWhile_eq_self_iff.mpr hParts]
  simp only [hKeyword]

/-! ## Keywords and symbols -/

theorem scan_fixed (h : kind.isFixed = true) (hEnds : Ends rest) :
    Lexeme.scan settings (kind.text.toList ++ rest) =
      { length := kind.text.toList.length, token := some (kind, "") } := by
  cases kind with
  | kwFunc | kwGlobal | kwIf | kwElse | kwWhile | kwReturn | kwTrue | kwFalse =>
    exact (scan_word (by decide) (by decide) hEnds).trans (by decide)
  | eof | comment | directive | ident | number | float | string | unknown => cases h
  | _ =>
    rcases hEnds with rfl | ⟨more, rfl⟩
    · rfl
    · rfl

/-! ## Numbers -/

theorem not_mem_of_isDigit (hDigits : ∀ d ∈ cs, d.isDigit = true) (hc : c.isDigit = false) :
    c ∉ cs := by
  intro hMem
  rw [hDigits c hMem] at hc
  cases hc

def Begins (front : List Char) : Prop :=
  ∃ c cs, front = c :: cs ∧ (c.isDigit = true ∨ c = '.' ∧ ∃ d ds, cs = d :: ds ∧ d.isDigit = true)

theorem number_append (hx : 'x' ∉ front) (hX : 'X' ∉ front) (hEnds : Ends rest) :
    Lexeme.number (front ++ rest) = Lexeme.decimal (front ++ rest) := by
  refine number_of_second fun c more hText => ?_
  rcases front with _ | ⟨a, _ | ⟨b, bs⟩⟩
  · rcases hEnds with rfl | ⟨_, rfl⟩ <;> simp at hText
  · rcases hEnds with rfl | ⟨_, rfl⟩
    · simp at hText
    · obtain ⟨-, rfl, -⟩ : a = '0' ∧ ' ' = c ∧ _ := by simpa using hText
      decide
  · obtain ⟨-, rfl, -⟩ : a = '0' ∧ b = c ∧ _ := by simpa using hText
    constructor
    · rintro rfl
      simp at hx
    · rintro rfl
      simp at hX

theorem scan_decimal (hBegins : Begins front) (hx : 'x' ∉ front) (hX : 'X' ∉ front)
    (hEnds : Ends rest) :
    Lexeme.scan settings (front ++ rest) = Lexeme.decimal (front ++ rest) := by
  rw [← number_append hx hX hEnds]
  obtain ⟨c, cs, rfl, hc | ⟨rfl, d, ds, rfl, hd⟩⟩ := hBegins
  · exact scan_digit hc (cs ++ rest)
  · have hStart : isNameStart '.' = false := by decide
    simp [Lexeme.scan, hStart, Lexeme.startsNumber, isDecimalDigit_of_isDigit hd]

theorem trails_nil (hEnds : Ends rest) : Trails [] [] rest := by
  rcases hEnds with rfl | ⟨more, rfl⟩
  · exact ⟨rfl, rfl, rfl, rfl, absurd rfl⟩
  · exact ⟨rfl, rfl, rfl, rfl, absurd rfl⟩

theorem IsExponent.exists_trails (h : IsExponent exponent) (hEnds : Ends rest) :
    ∃ mark digits, exponent = mark ++ digits ∧ mark ≠ [] ∧ Trails mark digits rest := by
  obtain ⟨hMark, hSign, hDigits⟩ := h
  have hTake := takeWhile_append_of_ends (by decide)
    (fun c hc => isDecimalDigit_of_isDigit (hDigits.digits c hc)) hEnds
  obtain ⟨d, ds, rfl⟩ := List.exists_cons_of_ne_nil hDigits.nonempty
  have hd : d.isDigit = true := hDigits.digits d List.mem_cons_self
  have hPlus : d ≠ '+' := by
    rintro rfl
    exact absurd hd (by decide)
  have hMinus : d ≠ '-' := by
    rintro rfl
    exact absurd hd (by decide)
  have he : isDecimalDigit 'e' = false := by decide
  have hE : isDecimalDigit 'E' = false := by decide
  rcases hMark with rfl | rfl <;> rcases hSign with rfl | rfl | rfl
  all_goals
    refine ⟨_ :: _, d :: ds, rfl, List.cons_ne_nil _ _, ?_, ?_, ?_, hTake, ?_⟩
    · simp [he, hE]
    · simp [Lexeme.fractionPart]
    · simp [Lexeme.exponentMark, hPlus, hMinus]
    · simp

theorem IsExponent.not_mem (h : IsExponent exponent) (hc : c.isDigit = false)
    (hMark : c ∉ ['e', 'E', '+', '-']) : c ∉ exponent := by
  obtain ⟨hMark, hSign, hDigits⟩ := h
  have hMem := not_mem_of_isDigit hDigits.digits hc
  rcases hMark with rfl | rfl <;> rcases hSign with rfl | rfl | rfl <;> simp_all

theorem IsFloat.not_mem (h : IsFloat cs) (hc : c.isDigit = false)
    (hOther : c ∉ ['.', 'e', 'E', '+', '-']) : c ∉ cs := by
  obtain ⟨hPoint, hMark⟩ := List.ne_and_not_mem_of_not_mem_cons hOther
  rcases h with @⟨whole, digits, exponent, hWhole, hDigits, hExponent⟩ |
    @⟨whole, exponent, hWhole, hExponent⟩
  · have hMem : c ∉ exponent := by
      rcases hExponent with rfl | hExponent
      · exact List.not_mem_nil
      · exact hExponent.not_mem hc hMark
    simp [not_mem_of_isDigit hWhole hc, not_mem_of_isDigit hDigits.digits hc, hMem, hPoint]
  · simp [not_mem_of_isDigit hWhole.digits hc, hExponent.not_mem hc hMark]

theorem IsFloat.begins (h : IsFloat cs) : Begins cs := by
  rcases h with @⟨whole, digits, exponent, hWhole, hDigits, hExponent⟩ |
    @⟨whole, exponent, hWhole, hExponent⟩
  · obtain ⟨d, ds, rfl⟩ := List.exists_cons_of_ne_nil hDigits.nonempty
    rcases whole with _ | ⟨c, cs⟩
    · exact ⟨'.', _, rfl, .inr ⟨rfl, d, _, rfl, hDigits.digits d List.mem_cons_self⟩⟩
    · exact ⟨c, _, rfl, .inl (hWhole c List.mem_cons_self)⟩
  · obtain ⟨d, ds, rfl⟩ := List.exists_cons_of_ne_nil hWhole.nonempty
    exact ⟨d, _, rfl, .inl (hWhole.digits d List.mem_cons_self)⟩

theorem scan_float (h : IsFloat cs) (hEnds : Ends rest) :
    Lexeme.scan settings (cs ++ rest) =
      { length := cs.length, token := some (.float, String.ofList cs) } := by
  rw [scan_decimal h.begins (h.not_mem (by decide) (by decide)) (h.not_mem (by decide) (by decide))
    hEnds]
  rcases h with @⟨whole, digits, exponent, hWhole, hDigits, rfl | hExponent⟩ |
    @⟨whole, exponent, hWhole, hExponent⟩
  · have hDecimal := (trails_nil hEnds).decimal_eq hWhole (.inr ⟨digits, hDigits, rfl⟩)
    simpa [Lexeme.float] using hDecimal
  · obtain ⟨mark, exponent, rfl, hMark, hTrails⟩ := hExponent.exists_trails hEnds
    have hDecimal := hTrails.decimal_eq hWhole (.inr ⟨digits, hDigits, rfl⟩)
    simpa [Lexeme.float, hMark] using hDecimal
  · obtain ⟨mark, exponent, rfl, hMark, hTrails⟩ := hExponent.exists_trails hEnds
    have hDecimal := hTrails.decimal_eq hWhole.digits (.inl rfl)
    simpa [Lexeme.float, hMark] using hDecimal

theorem eq_nil_of_digitsOf (h : Number.digitsOf n = '0' :: more) : more = [] := by
  induction n using Nat.strongRecOn generalizing more with
  | ind n ih =>
    rw [Number.digitsOf, Nat.toDigits_eq_if (by decide)] at h
    split at h
    · exact (List.cons.inj h).2.symm
    · next hLarge =>
      obtain ⟨d, ds, hDigits⟩ := List.exists_cons_of_ne_nil
        (Nat.toDigits_ne_nil : Nat.toDigits 10 (n / 10) ≠ [])
      rw [hDigits, List.cons_append] at h
      obtain ⟨rfl, -⟩ := List.cons.inj h
      obtain rfl := ih (n / 10) (by omega) hDigits
      have hZero : n / 10 = 0 := Number.digitsOf_injective (hDigits.trans (by decide))
      omega

theorem isDigits_digitsOf (n : Nat) : IsDigits (Number.digitsOf n) where
  nonempty := Nat.toDigits_ne_nil
  digits _ hc := Nat.isDigit_of_mem_toDigits (by decide) (by decide) hc

theorem begins_digitsOf (n : Nat) : Begins (Number.digitsOf n) := by
  obtain ⟨d, ds, hn⟩ := List.exists_cons_of_ne_nil (isDigits_digitsOf n).nonempty
  exact ⟨d, ds, hn, .inl ((isDigits_digitsOf n).digits d (hn ▸ List.mem_cons_self))⟩

theorem value_digitsOf (n : Nat) : Numeral.value 10 (Number.digitsOf n) = n := by
  have hValue : ∀ digits acc, (∀ c ∈ digits, c.isDigit = true) →
      digits.foldl (fun n c => n * 10 + Lexeme.hexValue c) acc = Nat.ofDigitChars 10 digits acc := by
    intro digits
    induction digits with
    | nil => exact fun _ _ => rfl
    | cons c rest ih =>
      intro acc h
      obtain ⟨hc, hRest⟩ := List.forall_mem_cons.mp h
      rw [List.foldl_cons, ih _ hRest, Nat.ofDigitChars_cons, Lexeme.hexValue,
        Numeral.digitValue?_of_isDigit hc, Nat.mul_comm acc]
      rfl
  exact (hValue _ 0 (isDigits_digitsOf n).digits).trans Nat.ofDigitChars_ten_toDigits

theorem Ends.noMore (h : Ends rest) : Numeral.NoMore rest := by
  rcases h with rfl | ⟨more, rfl⟩ <;> constructor <;> simp

theorem scan_number (h : n < 0x8000000000000000) (hEnds : Ends rest) :
    Lexeme.scan settings (Number.digitsOf n ++ rest) =
      { length := (Number.digitsOf n).length, token := some (.number, Number.natText n) } := by
  have hLiteral : Numeral.Literal rest 10 (Number.digitsOf n) (Number.digitsOf n) := by
    refine .decimal (isDigits_digitsOf n) hEnds.noMore fun more hMore => ⟨eq_nil_of_digitsOf hMore, ?_⟩
    rcases hEnds with rfl | ⟨more, rfl⟩ <;> simp
  have hForeign : ∀ c more, rest = c :: more → isDecimalDigit c = false := by
    rcases hEnds with rfl | ⟨more, rfl⟩
    · simp
    · rintro _ _ ⟨⟩
      decide
  have hFits : Numeral.Fits 10 (Number.digitsOf n) := ⟨by simp, by rwa [value_digitsOf]⟩
  rw [Numeral.scan_of_fits hLiteral hForeign hFits, value_digitsOf]

/-! ## Strings -/

theorem scan_escaped (c : Char) (n : Nat) (rest : List Char) :
    Lexeme.Quoted.scan n (escaped c ++ rest) =
      (Lexeme.Quoted.scan (n + (escaped c).length) rest).push c := by
  fun_cases escaped c with
  | case1 => rfl
  | case2 => rfl
  | case3 => rfl
  | case4 c hQuote hBackslash hNewline =>
    rw [List.singleton_append, List.length_singleton, Lexeme.Quoted.scan]
    · exact hNewline
    · exact hQuote
    · exact fun h _ => hBackslash h
    · exact fun _ h _ => hBackslash h
    · exact fun _ _ h _ => hBackslash h

theorem scan_contents (cs : List Char) (n : Nat) (rest : List Char) :
    Lexeme.Quoted.scan n (cs.flatMap escaped ++ '"' :: rest) =
      { chars := cs, length := n + (cs.flatMap escaped).length + 1, closed := true } := by
  induction cs generalizing n with
  | nil => rfl
  | cons c cs ih =>
    rw [List.flatMap_cons, List.append_assoc, scan_escaped, ih, List.length_append]
    simp [Lexeme.Quoted.push, Nat.add_assoc]

theorem scan_string (value : String) :
    Lexeme.scan settings (spelling .string value ++ rest) =
      { length := (spelling .string value).length, token := some (.string, value) } := by
  have hText : spelling .string value ++ rest =
      '"' :: (value.toList.flatMap escaped ++ '"' :: rest) := by
    simp [spelling]
  have hScan : Lexeme.scan settings (spelling .string value ++ rest) =
      Lexeme.quoted (value.toList.flatMap escaped ++ '"' :: rest) := by
    rw [hText]
    rfl
  rw [hScan, Lexeme.quoted, scan_contents]
  simp [spelling]
  omega

/-! ## Scanning what was written -/

theorem spelling_fixed (h : kind.isFixed = true) (value : String) :
    spelling kind value = kind.text.toList := by
  cases kind with
  | ident | number | float | string => cases h
  | _ => rfl

theorem scan_spelling (h : Writable kind value) (hEnds : Ends rest) :
    Lexeme.scan settings (spelling kind value ++ rest) =
      { length := (spelling kind value).length, token := some (kind, value) } := by
  cases h with
  | fixed h =>
    rw [spelling_fixed h]
    exact scan_fixed h hEnds
  | ident hStart hRest hWord =>
    simpa only [spelling, String.toList_ofList] using scan_ident hStart hRest hWord hEnds
  | number h =>
    simpa only [spelling, Number.natText, String.toList_ofList] using scan_number h hEnds
  | float h => simpa only [spelling, String.toList_ofList] using scan_float h hEnds
  | string => exact scan_string value

/-- No spelling starts with spacing, and a slash is a spelling of its own. -/
def Stands (cs : List Char) : Prop :=
  ∃ c more, cs = c :: more ∧ Gap.isSpacing c = false ∧ (c = '/' → more = [])

theorem Stands.gap_eq (h : Stands cs) (hEnds : Ends rest) (n : Nat) :
    Gap.scan none n (cs ++ rest) = { length := n } := by
  obtain ⟨c, more, rfl, hSpacing, hSlash⟩ := h
  by_cases hc : c = '/'
  · obtain rfl := hc
    obtain rfl := hSlash rfl
    rcases hEnds with rfl | ⟨more, rfl⟩
    · rfl
    · rfl
  · simp [Gap.scan, hSpacing, hc]

theorem stands_cons (hSpacing : Gap.isSpacing c = false) (hSlash : c ≠ '/') : Stands (c :: cs) :=
  ⟨c, cs, rfl, hSpacing, fun h => absurd h hSlash⟩

theorem stands_of_isNamePart (h : isNamePart c = true) : Stands (c :: cs) := by
  refine stands_cons ?_ ?_
  · rw [Bool.eq_false_iff, Ne, Gap.isSpacing_iff]
    rintro (rfl | rfl | rfl | rfl) <;> exact absurd h (by decide)
  · rintro rfl
    exact absurd h (by decide)

theorem Begins.stands (h : Begins cs) : Stands cs := by
  obtain ⟨c, cs, rfl, hc | ⟨rfl, -⟩⟩ := h
  · exact stands_of_isNamePart (isNamePart_of_ascii (.inl (by simp [Char.isAlphanum, hc])))
  · exact stands_cons (by decide) (by decide)

theorem stands_fixed (h : kind.isFixed = true) : Stands kind.text.toList := by
  cases kind with
  | eof | comment | directive | ident | number | float | string | unknown => cases h
  | slash => exact ⟨'/', [], rfl, by decide, fun _ => rfl⟩
  | _ => exact stands_cons (by decide) (by decide)

theorem Writable.stands (h : Writable kind value) : Stands (spelling kind value) := by
  cases h with
  | fixed h =>
    rw [spelling_fixed h]
    exact stands_fixed h
  | ident hStart hRest hWord =>
    rw [spelling, String.toList_ofList]
    exact stands_of_isNamePart (Lexeme.isNamePart_of_isNameStart (isNameStart_of_ascii hStart))
  | @number n h =>
    rw [spelling, Number.natText, String.toList_ofList]
    exact (begins_digitsOf n).stands
  | float h =>
    rw [spelling, String.toList_ofList]
    exact h.begins.stands
  | string => exact stands_cons (by decide) (by decide)

theorem exists_take (hError : s.error = none) (h : Writable kind value) (hEnds : Ends rest)
    (hGap : gap = [] ∨ gap = [' ']) (hRest : s.cursor.rest = gap ++ (spelling kind value ++ rest)) :
    ∃ t s₁, s.skipGap.cursor.rest ≠ [] ∧ s.skipGap.take = (some t, s₁) ∧
      (t.kind, t.value) = (kind, value) ∧ s₁.error = none ∧ s₁.remarks = s.remarks ∧
      s₁.cursor.rest = rest := by
  have hOfText : Gap.ofText s.cursor.rest = { length := gap.length } := by
    rw [hRest]
    rcases hGap with rfl | rfl
    · exact h.stands.gap_eq hEnds 0
    · exact h.stands.gap_eq hEnds 1
  have hCursor : s.skipGap.cursor.rest = spelling kind value ++ rest := by
    rw [Scanner.cursor_skipGap, Cursor.rest_skip, hOfText, hRest, List.drop_left]
  have hScan : Lexeme.scan s.skipGap.settings s.skipGap.cursor.rest =
      { length := (spelling kind value).length, token := some (kind, value) } := by
    rw [hCursor]
    exact scan_spelling h hEnds
  have hMore : s.skipGap.cursor.rest ≠ [] := by
    obtain ⟨c, more, hSpelling, -⟩ := h.stands
    rw [hCursor, hSpelling]
    exact List.cons_ne_nil _ _
  have hClear : s.skipGap.error = none := by
    simp [Scanner.skipGap, Scanner.move, hOfText, Gap.fault?, hError]
  have hTake : s.skipGap.take =
      (some ⟨kind, value, s.skipGap.cursor.span s.file (spelling kind value).length⟩,
        { s.skipGap.move (spelling kind value).length none with remarks := s.remarks }) := by
    simp only [Scanner.take, hScan, Option.map_some, List.flatMap_nil, List.append_nil]
    rfl
  refine ⟨_, _, hMore, hTake, rfl, ?_, rfl, ?_⟩
  · simp [Scanner.move, hClear]
  · simp only [Scanner.move, Cursor.rest_skip, hCursor, List.drop_left]

def spaced (words : List (TokenKind × String)) : List Char :=
  words.flatMap fun w => ' ' :: spelling w.1 w.2

theorem ends_spaced (words : List (TokenKind × String)) : Ends (spaced words) := by
  cases words with
  | nil => exact .inl rfl
  | cons w words => exact .inr ⟨_, rfl⟩

theorem written_cons (w : TokenKind × String) (words : List (TokenKind × String)) :
    written (w :: words) = spelling w.1 w.2 ++ spaced words := by
  induction words generalizing w with
  | nil => simp [written, spaced]
  | cons v words ih =>
    have hTail := ih v
    simp only [written, List.map_cons] at hTail ⊢
    rw [List.intercalate_cons_cons, hTail]
    simp [spaced]

def Finds (s : Scanner) (words : List (TokenKind × String)) : Prop :=
  ∃ ts s', s.Reads ts s' ∧ ts.map (fun t => (t.kind, t.value)) = words ++ [(.eof, "")] ∧
    s'.error = none ∧ s'.remarks = s.remarks

theorem finds_cons {w : TokenKind × String} (hError : s.error = none) (hWord : Writable w.1 w.2)
    (hGap : gap = [] ∨ gap = [' '])
    (hRest : s.cursor.rest = gap ++ (spelling w.1 w.2 ++ spaced words))
    (h : ∀ s₁ : Scanner, s₁.error = none → s₁.cursor.rest = spaced words → Finds s₁ words) :
    Finds s (w :: words) := by
  obtain ⟨t, s₁, hMore, hTake, hToken, hError₁, hRemarks₁, hRest₁⟩ :=
    exists_take hError hWord (ends_spaced words) hGap hRest
  obtain ⟨ts, s', hReads, hTokens, hError', hRemarks'⟩ := h s₁ hError₁ hRest₁
  refine ⟨t :: ts, s', .token hError hMore hTake hReads, ?_, hError', hRemarks'.trans hRemarks₁⟩
  rw [List.map_cons, hTokens, hToken]
  rfl

theorem finds_spaced (h : ∀ w ∈ words, Writable w.1 w.2) (s : Scanner) (hError : s.error = none)
    (hRest : s.cursor.rest = spaced words) : Finds s words := by
  induction words generalizing s with
  | nil =>
    have hGap : Gap.ofText s.cursor.rest = { length := 0 } := by
      rw [hRest]
      rfl
    have hEnd : s.skipGap.cursor.rest = [] := by
      rw [Scanner.cursor_skipGap, Cursor.rest_skip, hRest]
      exact List.drop_nil
    refine ⟨_, _, .ended hError hEnd, rfl, ?_, rfl⟩
    simp [Scanner.skipGap, Scanner.move, hGap, Gap.fault?, hError]
  | cons w words ih =>
    obtain ⟨hWord, hWords⟩ := List.forall_mem_cons.mp h
    exact finds_cons hError hWord (.inr rfl) hRest (ih hWords)

theorem finds_written (h : ∀ w ∈ words, Writable w.1 w.2) (s : Scanner) (hError : s.error = none)
    (hRest : s.cursor.rest = written words) : Finds s words := by
  cases words with
  | nil => exact finds_spaced h s hError hRest
  | cons w words =>
    obtain ⟨hWord, hWords⟩ := List.forall_mem_cons.mp h
    rw [written_cons] at hRest
    exact finds_cons hError hWord (.inl rfl) hRest (finds_spaced hWords)

end

/-- Scanning undoes writing: it succeeds, remarks nothing, and finds the tokens that were written and
the end of file. -/
theorem tokens_written (settings : Settings) (file : Int) {words : List (TokenKind × String)}
    (h : ∀ w ∈ words, Writable w.1 w.2) (log : List Remark) :
    ∃ ts, (Stage.tokens settings file (written words)).run log = (.ok ts, log) ∧
      ts.map (fun t => (t.kind, t.value)) = words ++ [(.eof, "")] := by
  obtain ⟨ts, s', hReads, hTokens, hError, hRemarks⟩ :=
    finds_written h (Scanner.start settings file (written words)) rfl rfl
  refine ⟨ts, ?_, hTokens⟩
  have hLog : log ++ s'.remarks = log := by
    rw [hRemarks]
    exact List.append_nil log
  rw [Stage.tokens, Scanner.tokens_eq hReads]
  simp only [hError]
  exact congrArg (Prod.mk _) hLog

def callWords : List (TokenKind × String) :=
  [(.ident, "f1"), (.lparen, ""), (.float, ".5e-3"), (.comma, ""), (.number, "40"), (.comma, ""),
    (.string, "a\n\"\\"), (.rparen, ""), (.semi, "")]

theorem tokens_written_callWords :
    (∀ w ∈ callWords, Writable w.1 w.2) ∧
      ∃ ts, (Stage.tokens {} 0 (written callWords)).run [] = (.ok ts, []) ∧
        ts.map (fun t => (t.kind, t.value)) = callWords ++ [(.eof, "")] := by
  have hName : Writable .ident "f1" :=
    @Writable.ident 'f' ['1'] (by decide) (by decide) (by decide)
  have hExponent : IsExponent ['e', '-', '3'] :=
    @IsExponent.intro 'e' ['-'] ['3'] (by decide) (by decide) ⟨by decide, by decide⟩
  have hFloat : IsFloat ['.', '5', 'e', '-', '3'] :=
    @IsFloat.fraction [] ['5'] _ (by decide) ⟨by decide, by decide⟩ (.inr hExponent)
  have hNumber : Writable .number "40" := @Writable.number 40 (by decide)
  have hWords : ∀ w ∈ callWords, Writable w.1 w.2 := by
    simp only [callWords, List.forall_mem_cons]
    exact ⟨hName, .fixed rfl, .float hFloat, .fixed rfl, hNumber, .fixed rfl, .string _, .fixed rfl,
      .fixed rfl, List.forall_mem_nil _⟩
  exact ⟨hWords, tokens_written {} 0 hWords []⟩

end Writing

end BatchCompiler
