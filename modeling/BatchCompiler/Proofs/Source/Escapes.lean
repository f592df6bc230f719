import BatchCompiler.Proofs.Source.Numerals

/-!
# What string literals denote

A literal is a row of elements, each of which denotes a character: a character that stands for
itself, an escaped one, or the code of one in two hexadecimal digits. A digit of another script should
be refused in a code but counts as zero. Apart from that a literal denotes what it should.
-/

namespace BatchCompiler

open Text

namespace StringLiteral

inductive Element where
  | plain (c : Char)
  | escape (c : Char)
  | code (a b : Char)
deriving DecidableEq, Repr

def escapes : List (Char × Char) :=
  [('n', '\n'), ('t', '\t'), ('r', '\r'), ('\\', '\\'), ('"', '"'), ('\'', '\''), ('0', '\x00'),
    ('a', '\x07'), ('b', '\x08'), ('f', '\x0c'), ('v', '\x0b')]

def hexDigits : List Char := "0123456789abcdefABCDEF".toList

/-- The value of a digit: its place among the sixteen small ones. Anything else counts as zero. -/
def digit (c : Char) : Nat :=
  if c ∈ hexDigits then hexDigits.idxOf c.toLower else 0

/-- What the scanner takes for a digit: one of these, or a decimal digit of any script. -/
def isAccepted (c : Char) : Bool :=
  c ∈ hexDigits || isDecimalDigit c

namespace Element

def denoted : Element → Char
  | plain c => c
  | escape c => (escapes.lookup c).getD c
  | code a b => Char.ofNat (16 * digit a + digit b)

def odd? : Element → Option Char
  | escape c => if (escapes.lookup c).isNone then some c else none
  | _ => none

def digits : Element → List Char
  | code a b => [a, b]
  | _ => []

end Element

/-- The elements up to the closing quote, and what follows it. Only what `isDigit` admits is taken
for a digit. -/
def elements? (isDigit : Char → Bool) : List Char → Option (List Element × List Char)
  | '"' :: tail => some ([], tail)
  | '\\' :: 'x' :: a :: b :: rest =>
    if isDigit a && isDigit b then (elements? isDigit rest).map (Prod.map (.code a b :: ·) id)
    else none
  | '\\' :: 'x' :: _ => none
  | '\\' :: c :: rest => (elements? isDigit rest).map (Prod.map (.escape c :: ·) id)
  | ['\\'] => none
  | '\n' :: _ => none
  | c :: rest => (elements? isDigit rest).map (Prod.map (.plain c :: ·) id)
  | [] => none

/-- What the scanner makes of a text, after `n` characters of a literal: its elements, or a fault. -/
def Shows (n : Nat) (text : List Char) (q : Lexeme.Quoted) : Option (List Element × List Char) → Prop
  | some (es, tail) => q.faults = [] ∧ q.closed = true ∧ q.chars = es.map Element.denoted ∧
      q.oddEscapes.map OddEscape.char = es.filterMap Element.odd? ∧
      ∃ front, text = front ++ tail ∧ q.length = n + front.length
  | none => q.faults ≠ []

theorem escape?_eq (c : Char) : Lexeme.escape? c = escapes.lookup c := by
  fun_cases Lexeme.escape? c with
  | case12 =>
    rw [eq_comm, List.lookup_eq_none_iff]
    simp_all [escapes]
  | _ => rfl

theorem mem_hexDigits_iff {c : Char} : c ∈ hexDigits ↔ (digitValue? c).isSome = true := by
  constructor
  · have hAll : ∀ c ∈ hexDigits, (digitValue? c).isSome = true := by decide
    exact hAll c
  · intro h
    have hSmall : c.toNat < 128 := by
      have hLe (d : Char) (hd : d.toNat < 128) (hc : c ≤ d) : c.toNat < 128 :=
        Nat.lt_of_le_of_lt (UInt32.le_iff_toNat_le.mp hc) hd
      unfold digitValue? at h
      split at h
      · next hc => exact hLe '9' (by decide) hc.2
      · split at h
        · next hc => exact hLe 'f' (by decide) hc.2
        · split at h
          · next hc => exact hLe 'F' (by decide) hc.2
          · cases h
    have hAll : ∀ n < 128, (digitValue? (Char.ofNat n)).isSome = true → Char.ofNat n ∈ hexDigits := by
      decide
    simpa using hAll c.toNat hSmall (by simpa using h)

theorem hexValue_eq (c : Char) : Lexeme.hexValue c = digit c := by
  have hAll : ∀ c ∈ hexDigits, Lexeme.hexValue c = hexDigits.idxOf c.toLower := by decide
  rw [digit]
  split
  · next h => exact hAll c h
  · next h => simp_all [mem_hexDigits_iff, Lexeme.hexValue]

theorem isHexDigit_eq : isHexDigit = isAccepted := by
  funext c
  rw [Bool.eq_iff_iff, Numeral.isHexDigit_iff, isAccepted, Bool.or_eq_true, decide_eq_true_eq,
    mem_hexDigits_iff, or_comm]

theorem Shows.cons {n : Nat} {text : List Char} {q q' : Lexeme.Quoted} {e : Element}
    {found : Option (List Element × List Char)} (spelled : List Char)
    (h : Shows (n + spelled.length) text q found)
    (hFaults : q'.faults = q.faults) (hClosed : q'.closed = q.closed)
    (hLength : q'.length = q.length) (hChars : q'.chars = e.denoted :: q.chars)
    (hOdd : q'.oddEscapes.map OddEscape.char =
      e.odd?.toList ++ q.oddEscapes.map OddEscape.char) :
    Shows n (spelled ++ text) q' (found.map (Prod.map (e :: ·) id)) := by
  rcases found with _ | ⟨es, tail⟩
  · exact fun hNone => h (hFaults.symm.trans hNone)
  · obtain ⟨hNone, hEnd, hRead, hSame, front, rfl, hFront⟩ := h
    refine ⟨hFaults.trans hNone, hClosed.trans hEnd, by rw [hChars, hRead, List.map_cons], ?_,
      spelled ++ front, (List.append_assoc ..).symm, ?_⟩
    · rw [hOdd, hSame, List.filterMap_cons]
      cases e.odd? <;> rfl
    · rw [hLength, hFront, List.length_append, Nat.add_assoc]

theorem shows_scan (text : List Char) (n : Nat) :
    Shows n text (Lexeme.Quoted.scan n text) (elements? isAccepted text) := by
  rw [← isHexDigit_eq]
  fun_induction Lexeme.Quoted.scan n text with
  | case1 => simp [elements?, Shows]
  | case2 => simp [elements?, Shows]
  | case3 n tail => exact ⟨rfl, rfl, rfl, rfl, ['"'], rfl, rfl⟩
  | case4 | case5 | case7 n a ha ih => simp [elements?, Shows, Lexeme.Quoted.pushFault]
  | case6 n a rest ha ih => cases rest <;> simp_all [elements?, Shows, Lexeme.Quoted.pushFault]
  | case8 n a ha b rest hb ih => simp_all [elements?, Shows, Lexeme.Quoted.pushFault]
  | case9 n a ha b rest hb ih =>
    have hDigits : (isHexDigit a && isHexDigit b) = true := by simp_all
    rw [elements?, if_pos hDigits]
    refine ih.cons ['\\', 'x', a, b] rfl rfl rfl ?_ rfl
    rw [Lexeme.Quoted.push, Element.denoted, hexValue_eq, hexValue_eq]
  | case10 n c rest hx d hd ih =>
    rw [elements?.eq_4 _ _ _ (fun _ _ _ h => absurd h hx) hx]
    refine ih.cons ['\\', c] rfl rfl rfl ?_ ?_
    · simp [Lexeme.Quoted.push, Element.denoted, ← escape?_eq, hd]
    · simp [Lexeme.Quoted.push, Element.odd?, ← escape?_eq, hd]
  | case11 n c rest hx hd ih =>
    rw [elements?.eq_4 _ _ _ (fun _ _ _ h => absurd h hx) hx]
    refine ih.cons ['\\', c] rfl rfl rfl ?_ ?_
    · simp [Lexeme.Quoted.pushOdd, Element.denoted, ← escape?_eq, hd]
    · simp [Lexeme.Quoted.pushOdd, Element.odd?, ← escape?_eq, hd]
  | case12 n c rest hLine hQuote hLast hCode hEscape ih =>
    rw [elements?.eq_7]
    · exact ih.cons [c] rfl rfl rfl rfl rfl
    · exact hQuote
    · exact fun a b rest' h hRest => hCode _ h hRest
    · exact hCode
    · exact hEscape
    · exact hLast
    · exact hLine

section

variable {isDigit : Char → Bool} {text tail : List Char} {es : List Element}

/-- All that is taken for a digit is one, and another notion of digits that admits these finds the
same elements. -/
theorem elements?_digits (isDigit' : Char → Bool) (h : elements? isDigit text = some (es, tail)) :
    (∀ e ∈ es, ∀ c ∈ e.digits, isDigit c = true) ∧
      ((∀ e ∈ es, ∀ c ∈ e.digits, isDigit' c = true) →
        elements? isDigit' text = some (es, tail)) := by
  fun_induction elements? isDigit text generalizing es with
  | case1 tail' =>
    obtain ⟨rfl, rfl⟩ : [] = es ∧ tail' = tail := by simpa using h
    exact ⟨by simp, fun _ => by rw [elements?]⟩
  | case2 a b rest hDigits ih =>
    obtain ⟨⟨es', _⟩, hRest, ⟨⟩⟩ := Option.map_eq_some_iff.mp h
    obtain ⟨hAll, hSame⟩ := ih hRest
    refine ⟨List.forall_mem_cons.mpr ⟨by simpa [Element.digits] using hDigits, hAll⟩, fun h' => ?_⟩
    obtain ⟨hFirst, hOthers⟩ := List.forall_mem_cons.mp h'
    have hDigits' : (isDigit' a && isDigit' b) = true := by simpa [Element.digits] using hFirst
    rw [elements?, if_pos hDigits', hSame hOthers]
    rfl
  | case5 c rest hCode hx ih =>
    obtain ⟨⟨es', _⟩, hRest, ⟨⟩⟩ := Option.map_eq_some_iff.mp h
    obtain ⟨hAll, hSame⟩ := ih hRest
    refine ⟨List.forall_mem_cons.mpr ⟨by simp [Element.digits], hAll⟩, fun h' => ?_⟩
    rw [elements?.eq_4 _ _ _ hCode hx, hSame (List.forall_mem_cons.mp h').2]
    rfl
  | case8 c rest hQuote hPair hCode hEscape hLast hLine ih =>
    obtain ⟨⟨es', _⟩, hRest, ⟨⟩⟩ := Option.map_eq_some_iff.mp h
    obtain ⟨hAll, hSame⟩ := ih hRest
    refine ⟨List.forall_mem_cons.mpr ⟨by simp [Element.digits], hAll⟩, fun h' => ?_⟩
    rw [elements?.eq_7 _ _ _ hQuote hPair hCode hEscape hLast hLine,
      hSame (List.forall_mem_cons.mp h').2]
    rfl
  | _ => exact absurd h (by simp)

end

def warnings (settings : Settings) (es : List Element) : List (Warning × String) :=
  if settings.warning .unknownEscape then
    (es.filterMap Element.odd?).map fun c =>
      (.unknownEscape, "Unrecognized escape sequence '\\" ++ String.singleton c ++ "'")
  else []

/-- `s` finds a literal, whose opening quote `rest` follows, and makes a token of it that has the value
that the elements denote. -/
structure Decodes (isDigit : Char → Bool) (s : Scanner) (rest : List Char) (t : Token) (s' : Scanner)
    (es : List Element) : Prop where
  elements : elements? isDigit rest = some (es, s'.cursor.rest)
  kind : t.kind = .string
  value : t.value = String.ofList (es.map Element.denoted)
  remarks : ∃ new, s'.remarks = s.remarks ++ new ∧
    new.map (fun r => (r.warning, r.message)) = warnings s.settings es

variable {s : Scanner} {rest : List Char}

theorem scan_quote (settings : Settings) (rest : List Char) :
    Lexeme.scan settings ('"' :: rest) = Lexeme.quoted rest := by
  have hName : isNameStart '"' = false := by decide
  have hDigit : isDecimalDigit '"' = false := by decide
  simp [Lexeme.scan, hName, Lexeme.startsNumber, hDigit, Lexeme.punctuation]

theorem skipGap_of_quote (hRest : s.cursor.rest = '"' :: rest) : s.skipGap = s :=
  Scanner.skipGap_eq_self hRest (by decide) (by decide)

theorem error_next_of_fault (hError : s.error = none) (hRest : s.cursor.rest = '"' :: rest)
    (hFault : (Lexeme.quoted rest).fault ≠ none) : s.next.2.error ≠ none := by
  rcases hTake : s.take with ⟨token, s₁⟩
  have hFailed : s₁.error ≠ none := by
    rw [Scanner.error_of_take hTake, hRest, scan_quote, Ne, Scanner.error_move_eq_none]
    exact fun h => hFault h.2
  cases token with
  | some t =>
    rw [Scanner.next_of_take hError (skipGap_of_quote hRest) (by simp [hRest]) hTake]
    exact hFailed
  | none =>
    have hStop (fuel : Nat) : (s₁.nextWithin fuel).2 = s₁ := by
      cases fuel <;> simp [Scanner.nextWithin, Option.isSome_iff_ne_none, hFailed]
    have hLast : s.next.2 = (s₁.nextWithin s.cursor.rest.length).2 := by
      rw [Scanner.next, Scanner.nextWithin, if_neg (by simp [hError])]
      simp only [skipGap_of_quote hRest, hTake, if_neg (show ¬s.cursor.rest.isEmpty by simp [hRest])]
    rwa [hLast, hStop]

theorem warnings_of_oddEscapes {odd : List OddEscape} {es : List Element}
    (h : odd.map OddEscape.char = es.filterMap Element.odd?) :
    (odd.flatMap s.remarkOf).map (fun r => (r.warning, r.message)) = warnings s.settings es := by
  rw [warnings, ← h]
  clear h
  cases hOn : s.settings.warning .unknownEscape <;> induction odd <;>
    simp_all [Scanner.remarkOf, Settings.remark]

theorem decodes_next (hError : s.error = none) (hRest : s.cursor.rest = '"' :: rest)
    (hNext : s.next.2.error = none) :
    ∃ es, Decodes isAccepted s rest s.next.1 s.next.2 es := by
  have hShows := shows_scan rest 1
  rcases hFound : elements? isAccepted rest with _ | ⟨es, tail⟩
  · rw [hFound] at hShows
    refine absurd hNext (error_next_of_fault hError hRest ?_)
    rwa [Lexeme.quoted, Ne, List.head?_eq_none_iff]
  · rw [hFound] at hShows
    obtain ⟨hFaults, hClosed, hChars, hOdd, front, rfl, hLength⟩ := hShows
    have hScan : Lexeme.scan s.settings s.cursor.rest =
        { length := 1 + front.length
          token := some (.string, String.ofList (es.map Element.denoted))
          oddEscapes := (Lexeme.Quoted.scan 1 (front ++ tail)).oddEscapes } := by
      simp [hRest, scan_quote, Lexeme.quoted, hFaults, hClosed, hChars, hLength]
    have hTake : s.take = (some ⟨.string, String.ofList (es.map Element.denoted),
        s.cursor.span s.file (1 + front.length)⟩, s.take.2) := by
      simp [Scanner.take, hScan]
    rw [Scanner.next_of_take hError (skipGap_of_quote hRest) (by simp [hRest]) hTake]
    refine ⟨es, ?_, rfl, rfl, _, rfl, ?_⟩
    · rw [hFound, Scanner.cursor_of_take hTake, hScan, Cursor.rest_skip, hRest]
      simp [Nat.add_comm 1]
    · rw [hScan]
      exact warnings_of_oddEscapes hOdd

/-- A literal that is read without an error has the value that its elements denote. Its codes may be
written in digits of other scripts, though, and only without these is it a proper literal. -/
theorem next_denotes_iff (hError : s.error = none) (hRest : s.cursor.rest = '"' :: rest)
    (hNext : s.next.2.error = none) :
    ∃ es, Decodes isAccepted s rest s.next.1 s.next.2 es ∧
      ((∃ es', Decodes (· ∈ hexDigits) s rest s.next.1 s.next.2 es') ↔
        ∀ e ∈ es, ∀ c ∈ e.digits, c ∈ hexDigits) := by
  obtain ⟨es, h⟩ := decodes_next hError hRest hNext
  refine ⟨es, h, ?_, fun hDigits => ⟨es, ?_, h.kind, h.value, h.remarks⟩⟩
  · rintro ⟨es', h'⟩
    obtain ⟨hDigits, hSame⟩ := elements?_digits isAccepted h'.elements
    have hFound := hSame fun e he c hc => by rw [isAccepted, hDigits e he c hc, Bool.true_or]
    obtain rfl : es' = es := by simpa using hFound.symm.trans h.elements
    simpa using hDigits
  · exact (elements?_digits _ h.elements).2 (by simpa using hDigits)

def mixedLiteral : Scanner :=
  .start {} 0 "\"a\\n\\x4F\\q\\\"\";".toList

theorem next_denotes_iff_mixedLiteral :
    mixedLiteral.error = none ∧
      mixedLiteral.cursor.rest = '"' :: "a\\n\\x4F\\q\\\"\";".toList ∧
      mixedLiteral.next.2.error = none ∧
      ∃ es, Decodes isAccepted mixedLiteral "a\\n\\x4F\\q\\\"\";".toList
          mixedLiteral.next.1 mixedLiteral.next.2 es ∧
        ((∃ es', Decodes (· ∈ hexDigits) mixedLiteral
            "a\\n\\x4F\\q\\\"\";".toList mixedLiteral.next.1 mixedLiteral.next.2 es') ↔
          ∀ e ∈ es, ∀ c ∈ e.digits, c ∈ hexDigits) :=
  have hRest : mixedLiteral.cursor.rest = '"' :: "a\\n\\x4F\\q\\\"\";".toList := by decide
  have hNext : mixedLiteral.next.2.error = none := by decide +kernel
  ⟨rfl, hRest, hNext, next_denotes_iff rfl hRest hNext⟩

def foreignLiteral : Scanner :=
  .start {} 0 "\"\\x4٣\"".toList

/-- The code is accepted and read as `@`, the character whose code is `40`. -/
theorem foreignLiteral_not_denoted :
    foreignLiteral.error = none ∧ foreignLiteral.cursor.rest = '"' :: "\\x4٣\"".toList ∧
      foreignLiteral.next.2.error = none ∧ foreignLiteral.next.1.value = "@" ∧
      ¬∃ es, Decodes (· ∈ hexDigits) foreignLiteral "\\x4٣\"".toList
        foreignLiteral.next.1 foreignLiteral.next.2 es := by
  refine ⟨rfl, by decide, by decide +kernel, by decide +kernel, ?_⟩
  rintro ⟨es, h⟩
  have hNone : elements? (· ∈ hexDigits) "\\x4٣\"".toList = none := by decide
  exact absurd (hNone.symm.trans h.elements) (by simp)

end StringLiteral

end BatchCompiler
