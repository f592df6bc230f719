import BatchCompiler.Proofs.Source.Names
import BatchCompiler.Proofs.Text.Spelling

/-!
# How far lexemes and gaps reach

A lexeme takes at least one character and no more than there are, and no lexeme is an end of file.
One that yields neither a token nor a fault is a line comment that is dropped. A gap is made of
spacing and closed block comments, unless it leaves a comment open.
-/

namespace BatchCompiler

open Text

def IsDirective (settings : Settings) (content : List Char) : Prop :=
  settings.feature .noDirectives = false ∧ settings.directiveMark.toList <+: trimChars content

/-- `Skips settings text rest` says that what stands before `rest` in `text` is spacing, closed block
comments and line comments that are not kept. -/
inductive Skips (settings : Settings) : List Char → List Char → Prop where
  | done {rest : List Char} : Skips settings rest rest
  | spacing {c : Char} {text rest : List Char} (hc : c = ' ' ∨ c = '\t' ∨ c = '\n' ∨ c = '\r')
    (h : Skips settings text rest) : Skips settings (c :: text) rest
  | block {content text rest : List Char} (hContent : ¬ ['*', '/'] <:+: content)
    (h : Skips settings text rest) :
    Skips settings ('/' :: '*' :: (content ++ '*' :: '/' :: text)) rest
  | line {content text rest : List Char} (hKeep : settings.feature .keepComments = false)
    (hContent : '\n' ∉ content) (hEnd : text = [] ∨ ∃ more, text = '\n' :: more)
    (hPlain : ¬ IsDirective settings content) (h : Skips settings text rest) :
    Skips settings ('/' :: '/' :: (content ++ text)) rest

theorem Skips.trans {settings : Settings} {a b c : List Char} (h : Skips settings a b)
    (h' : Skips settings b c) : Skips settings a c := by
  induction h with
  | done => exact h'
  | spacing hc h ih => exact .spacing hc (ih h')
  | block hContent h ih => exact .block hContent (ih h')
  | line hKeep hContent hEnd hPlain h ih => exact .line hKeep hContent hEnd hPlain (ih h')

namespace Gap

theorem isSpacing_iff {c : Char} :
    isSpacing c = true ↔ c = ' ' ∨ c = '\t' ∨ c = '\n' ∨ c = '\r' := by
  simp [isSpacing, or_assoc]

theorem length_scan_bounds (comment : Option Nat) (n : Nat) (text : List Char) :
    n ≤ (scan comment n text).length ∧ (scan comment n text).length ≤ n + text.length := by
  fun_induction scan comment n text <;> simp_all <;> omega

def Closes (settings : Settings) (comment : Option Nat) (text rest : List Char) : Prop :=
  match comment with
  | none => Skips settings text rest
  | some _ => ∃ content more, text = content ++ '*' :: '/' :: more ∧
      ¬ ['*', '/'] <:+: content ∧ Skips settings more rest

theorem closes_scan (settings : Settings) (comment : Option Nat) (n : Nat) (text : List Char)
    (h : (scan comment n text).unclosed = none) :
    ∃ front rest, text = front ++ rest ∧ (scan comment n text).length = n + front.length ∧
      Closes settings comment text rest := by
  fun_induction scan comment n text with
  | case1 comment n =>
    obtain rfl : comment = none := h
    exact ⟨[], [], rfl, rfl, .done⟩
  | case2 n c text hc ih =>
    obtain ⟨front, rest, rfl, hLength, hSkips⟩ := ih h
    exact ⟨c :: front, rest, rfl, by simp; omega, .spacing (isSpacing_iff.mp hc) hSkips⟩
  | case3 n text hc ih =>
    obtain ⟨front, rest, rfl, hLength, content, more, hText, hContent, hSkips⟩ := ih h
    refine ⟨'/' :: '*' :: front, rest, rfl, by simp; omega, ?_⟩
    rw [hText]
    exact .block hContent hSkips
  | case4 n c text hc hOpen => exact ⟨[], _, rfl, rfl, .done⟩
  | case5 n start text ih =>
    obtain ⟨front, rest, rfl, hLength, hSkips⟩ := ih h
    exact ⟨'*' :: '/' :: front, rest, rfl, by simp; omega, [], _, rfl, by simp, hSkips⟩
  | case6 n c start text hClose ih =>
    obtain ⟨front, rest, rfl, hLength, content, more, hText, hContent, hSkips⟩ := ih h
    refine ⟨c :: front, rest, rfl, by simp; omega, c :: content, more, by simp [hText], ?_, hSkips⟩
    rw [List.infix_cons_iff]
    rintro (⟨after, hFront⟩ | hInside)
    · obtain ⟨rfl, hSlash⟩ := List.cons.inj hFront
      apply hClose (after ++ '*' :: '/' :: more) rfl
      rw [hText, ← hSlash]
      rfl
    · exact hContent hInside

theorem skips_ofText (settings : Settings) (text : List Char) (h : (ofText text).unclosed = none) :
    Skips settings text (text.drop (ofText text).length) := by
  obtain ⟨front, rest, rfl, hLength, hSkips⟩ := closes_scan settings none 0 text h
  rw [ofText, hLength, Nat.zero_add, List.drop_left]
  exact hSkips

theorem length_ofText_le (text : List Char) : (ofText text).length ≤ text.length := by
  have hBounds := (length_scan_bounds none 0 text).2
  rwa [Nat.zero_add] at hBounds

end Gap

namespace Lexeme

variable {front text rest : List Char} {settings : Settings}

structure Fits (text : List Char) (l : Lexeme) : Prop where
  pos : 0 < l.length
  le : l.length ≤ text.length
  kind : ∀ value, l.token ≠ some (.eof, value)

/-- A lexeme that does not go unnoticed, and is none of those that the settings ask for. -/
structure Shows (text : List Char) (l : Lexeme) : Prop extends Fits text l where
  shown : l.token = none → l.fault ≠ none
  directive : ∀ value, l.token ≠ some (.directive, value)
  comment : ∀ value, l.token ≠ some (.comment, value)

theorem append_isFront {more : List Char} (hFront : front <+: text)
    (hMore : more <+: text.drop front.length) : front ++ more <+: text := by
  obtain ⟨rest, rfl⟩ := hFront
  rw [List.drop_left] at hMore
  exact (List.prefix_append_right_inj front).mpr hMore

theorem shows_symbol {kind : TokenKind} {n : Nat}
    (hKind : kind ≠ .eof ∧ kind ≠ .directive ∧ kind ≠ .comment) (hPos : 0 < n) (hLe : n ≤ text.length) :
    Shows text (symbol kind n) where
  pos := hPos
  le := hLe
  kind value h := hKind.1 (Prod.mk.inj (Option.some.inj h)).1
  shown h := by cases h
  directive value h := hKind.2.1 (Prod.mk.inj (Option.some.inj h)).1
  comment value h := hKind.2.2 (Prod.mk.inj (Option.some.inj h)).1

theorem shows_word {c : Char} (hc : isNameStart c = true) :
    Shows (c :: rest) (word (c :: rest)) := by
  have hPos : 0 < ((c :: rest).takeWhile isNamePart).length := by
    simp [isNamePart_of_isNameStart hc]
  have hLe := (List.takeWhile_prefix isNamePart (l := c :: rest)).length_le
  simp only [word]
  split
  · next k hKeyword =>
    have hKind : ∀ k ∈ TokenKind.keywords, k ≠ .eof ∧ k ≠ .directive ∧ k ≠ .comment := by decide
    exact shows_symbol (hKind k (List.mem_of_find?_eq_some hKeyword)) hPos hLe
  · exact ⟨⟨hPos, hLe, by simp⟩, by simp, by simp, by simp⟩

theorem shows_integer (hPrefix : front <+: text) (h : front ≠ []) : Shows text (integer front) := by
  have hPos := List.length_pos_iff.mpr h
  unfold integer
  split
  · exact ⟨⟨hPos, hPrefix.length_le, by simp⟩, by simp, by simp, by simp⟩
  · exact ⟨⟨hPos, hPrefix.length_le, by simp⟩, by simp, by simp, by simp⟩

theorem shows_float (fault : Option Fault) (hPrefix : front <+: text) (h : front ≠ []) :
    Shows text (float front fault) :=
  ⟨⟨List.length_pos_iff.mpr h, hPrefix.length_le, by simp [float]⟩, by simp [float],
    by simp [float], by simp [float]⟩

theorem fractionPart_isFront (text : List Char) : fractionPart text <+: text := by
  fun_cases fractionPart text with
  | case1 c rest hc =>
    exact List.cons_prefix_cons.mpr ⟨rfl, List.takeWhile_prefix _⟩
  | _ => exact List.nil_prefix

theorem exponentMark_isFront (text : List Char) : exponentMark text <+: text := by
  fun_cases exponentMark text <;> simp

theorem front_ne_nil (h : startsNumber text = true) :
    text.takeWhile isDecimalDigit ++
      fractionPart (text.drop (text.takeWhile isDecimalDigit).length) ≠ [] := by
  unfold startsNumber at h
  split at h
  · next c rest =>
    have hPoint : isDecimalDigit '.' = false := by decide
    simp [hPoint, fractionPart, h]
  · simp [h]
  · cases h

theorem shows_decimal (h : startsNumber text = true) : Shows text (decimal text) := by
  have hWhole := List.takeWhile_prefix isDecimalDigit (l := text)
  have hBody := append_isFront hWhole (fractionPart_isFront _)
  have hMark := append_isFront hBody (exponentMark_isFront _)
  have hExponent := append_isFront hMark (List.takeWhile_prefix isDecimalDigit)
  have hNonempty := front_ne_nil h
  simp only [decimal, ← List.length_append]
  split
  · split
    · next hInteger =>
      rw [List.isEmpty_iff.mp hInteger, List.append_nil] at hNonempty
      exact shows_integer hWhole hNonempty
    · exact shows_float none hBody hNonempty
  · split
    · exact shows_float _ hMark (List.append_ne_nil_of_left_ne_nil hNonempty _)
    · apply shows_float none hExponent
      exact List.append_ne_nil_of_left_ne_nil (List.append_ne_nil_of_left_ne_nil hNonempty _) _

theorem shows_number (h : startsNumber text = true) : Shows text (number text) := by
  fun_cases number text with
  | case1 rest | case2 rest =>
    apply shows_integer _ (by simp)
    exact List.cons_prefix_cons.mpr ⟨rfl, List.cons_prefix_cons.mpr ⟨rfl, List.takeWhile_prefix _⟩⟩
  | case3 => exact shows_decimal h

theorem shows_unexpected (c : Char) (rest : List Char) : Shows (c :: rest) (unexpected c) := by
  constructor
  · constructor <;> simp [unexpected]
  · simp [unexpected]
  · simp [unexpected]
  · simp [unexpected]

theorem length_scan_quoted (n : Nat) (text : List Char) :
    n ≤ (Quoted.scan n text).length ∧ (Quoted.scan n text).length ≤ n + text.length := by
  fun_induction Quoted.scan n text <;>
    simp_all [Quoted.push, Quoted.pushFault, Quoted.pushOdd] <;> omega

theorem faults_scan_quoted (n : Nat) (text : List Char)
    (h : (Quoted.scan n text).closed = false) : (Quoted.scan n text).faults ≠ [] := by
  fun_induction Quoted.scan n text <;>
    simp_all [Quoted.push, Quoted.pushFault, Quoted.pushOdd]

theorem shows_quoted (rest : List Char) : Shows ('"' :: rest) (quoted rest) := by
  have hBounds := length_scan_quoted 1 rest
  refine ⟨⟨hBounds.1, by simp [quoted]; omega, by simp [quoted]⟩, ?_, by simp [quoted],
    by simp [quoted]⟩
  · intro hToken hFault
    have hOpen : (Quoted.scan 1 rest).closed = false := by simpa [quoted] using hToken
    exact faults_scan_quoted 1 rest hOpen (List.head?_eq_none_iff.mp hFault)

theorem shows_punctuation (h : text ≠ []) : Shows text (punctuation text) := by
  fun_cases punctuation text with
  | case28 rest => exact shows_quoted rest
  | case29 c rest => exact shows_unexpected c rest
  | case30 => exact absurd rfl h
  | _ => exact shows_symbol (by decide) (by decide) (by simp)

theorem fits_lineComment (settings : Settings) (rest : List Char) :
    Fits ('/' :: '/' :: rest) (lineComment settings rest) := by
  have hLe := (List.takeWhile_prefix (· != '\n') (l := rest)).length_le
  simp only [lineComment]
  split
  · exact ⟨by simp, by simpa using hLe, by simp⟩
  · split
    · exact ⟨by simp, by simpa using hLe, by simp⟩
    · exact ⟨by simp, by simpa using hLe, by simp⟩

theorem scan_cases (h : text ≠ []) :
    (∃ rest, text = '/' :: '/' :: rest ∧ ∀ settings, scan settings text = lineComment settings rest) ∨
    ∃ l, Shows text l ∧ ∀ settings, scan settings text = l := by
  rcases text with _ | ⟨c, rest⟩
  · exact absurd rfl h
  by_cases hSlashes : ∃ more, c = '/' ∧ rest = '/' :: more
  · obtain ⟨more, rfl, rfl⟩ := hSlashes
    exact .inl ⟨more, rfl, fun _ => rfl⟩
  · have hScan : ∀ settings, scan settings (c :: rest) =
        if isNameStart c then word (c :: rest)
        else if startsNumber (c :: rest) then number (c :: rest)
        else punctuation (c :: rest) := by
      intro settings
      rw [scan]
      exact fun more hc hRest => hSlashes ⟨more, hc, hRest⟩
    refine .inr ⟨_, ?_, hScan⟩
    split
    · next hStart => exact shows_word hStart
    · split
      · next hNumber => exact shows_number hNumber
      · exact shows_punctuation h

theorem fits_scan (settings : Settings) (h : text ≠ []) : Fits text (scan settings text) := by
  rcases scan_cases h with ⟨rest, rfl, hScan⟩ | ⟨l, hShows, hScan⟩
  · rw [hScan]
    exact fits_lineComment settings rest
  · rw [hScan]
    exact hShows.toFits

theorem not_isDirective {content : List Char}
    (h : settings.feature .noDirectives = true ∨
      afterLead? settings.directiveMark.toList (trimChars content) = none) :
    ¬ IsDirective settings content := by
  rintro ⟨hFeature, flags, hMark⟩
  rcases h with h | h
  · rw [hFeature] at h
    cases h
  · rw [afterLead?_eq_some_iff.mpr hMark.symm] at h
    cases h

theorem dropWhile_eq_nil_or (rest : List Char) :
    rest.dropWhile (· != '\n') = [] ∨ ∃ more, rest.dropWhile (· != '\n') = '\n' :: more := by
  induction rest with
  | nil => exact .inl rfl
  | cons c rest ih =>
    by_cases hc : c = '\n'
    · subst hc
      exact .inr ⟨rest, rfl⟩
    · rwa [List.dropWhile_cons_of_pos (by simpa using hc)]

theorem length_lineComment (settings : Settings) (rest : List Char) :
    (lineComment settings rest).length = (rest.takeWhile (· != '\n')).length + 2 := by
  simp only [lineComment]
  split
  · rfl
  · split <;> rfl

theorem plain_of_lineComment (h : (lineComment settings rest).token = none) :
    settings.feature .keepComments = false ∧
      ¬ IsDirective settings (rest.takeWhile (· != '\n')) := by
  simp only [lineComment] at h
  split at h
  · next hOff => exact ⟨by simpa using h, not_isDirective (.inl hOff)⟩
  · split at h
    · cases h
    · next hMark => exact ⟨by simpa using h, not_isDirective (.inr hMark)⟩

theorem skips_lineComment (h : (lineComment settings rest).token = none) :
    Skips settings ('/' :: '/' :: rest)
      (('/' :: '/' :: rest).drop (lineComment settings rest).length) := by
  obtain ⟨hKeep, hPlain⟩ := plain_of_lineComment h
  have hContent : '\n' ∉ rest.takeWhile (· != '\n') := by
    intro hMem
    simpa using List.all_eq_true.mp List.all_takeWhile '\n' hMem
  have hSkips := Skips.line hKeep hContent (dropWhile_eq_nil_or rest) hPlain .done
  have hSplit := List.takeWhile_append_dropWhile (p := (· != '\n')) (l := rest)
  have hDrop := @List.drop_left _ (rest.takeWhile (· != '\n')) (rest.dropWhile (· != '\n'))
  rw [hSplit] at hSkips hDrop
  rw [length_lineComment, List.drop_succ_cons, List.drop_succ_cons, hDrop]
  exact hSkips

theorem skips_scan (h : text ≠ []) (hToken : (scan settings text).token = none)
    (hFault : (scan settings text).fault = none) :
    Skips settings text (text.drop (scan settings text).length) := by
  rcases scan_cases h with ⟨rest, rfl, hScan⟩ | ⟨l, hShows, hScan⟩
  · rw [hScan] at hToken ⊢
    exact skips_lineComment hToken
  · rw [hScan] at hToken hFault
    exact absurd hFault (hShows.shown hToken)

theorem token_lineComment_ne_directive (h : settings.feature .noDirectives = true)
    (rest : List Char) (value : String) :
    (lineComment settings rest).token ≠ some (.directive, value) := by
  simp only [lineComment, h, if_true]
  split <;> simp

theorem token_scan_ne_directive (h : settings.feature .noDirectives = true) (hText : text ≠ [])
    (value : String) : (scan settings text).token ≠ some (.directive, value) := by
  rcases scan_cases hText with ⟨rest, rfl, hScan⟩ | ⟨l, hShows, hScan⟩
  · rw [hScan]
    exact token_lineComment_ne_directive h rest value
  · rw [hScan]
    exact hShows.directive value

theorem mem_of_mem_trimChars {c : Char} {cs : List Char} (h : c ∈ trimChars cs) : c ∈ cs := by
  rw [trimChars, List.mem_reverse] at h
  have hDropped := List.mem_reverse.mp ((List.dropWhile_sublist _).subset h)
  exact (List.dropWhile_sublist _).subset hDropped

theorem not_mem_of_lineComment {value : String}
    (h : (lineComment settings rest).token = some (.comment, value)) : '\n' ∉ value.toList := by
  have hKept : some (TokenKind.comment, value) = some (.comment,
      String.ofList (trimChars (rest.takeWhile (· != '\n')))) := by
    simp only [lineComment] at h
    grind
  obtain ⟨-, rfl⟩ := Prod.mk.inj (Option.some.inj hKept)
  rw [String.toList_ofList]
  intro hMem
  simpa using List.all_eq_true.mp List.all_takeWhile '\n' (mem_of_mem_trimChars hMem)

theorem not_mem_of_scan_comment (hText : text ≠ []) {value : String}
    (h : (scan settings text).token = some (.comment, value)) : '\n' ∉ value.toList := by
  rcases scan_cases hText with ⟨rest, rfl, hScan⟩ | ⟨l, hShows, hScan⟩
  · rw [hScan] at h
    exact not_mem_of_lineComment h
  · rw [hScan] at h
    exact absurd h (hShows.comment value)

end Lexeme

end BatchCompiler
