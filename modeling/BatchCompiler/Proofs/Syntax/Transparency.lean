import BatchCompiler.Proofs.Syntax.Comments
import BatchCompiler.Proofs.Syntax.Keeping

/-!
# Comments are transparent

Whether comments are kept or not, a program is parsed to the same problem, or to the same tree up to
its comments.
-/

namespace BatchCompiler

namespace Syntax

variable {tokens ts : List Token} {last : Token} {c d settings : Settings}

theorem getLast?_withoutComments (hLast : tokens.getLast? = some last) (hKind : last.kind = .eof) :
    (withoutComments tokens).getLast? = some last := by
  obtain ⟨front, rfl⟩ := List.getLast?_eq_some_iff.mp hLast
  simp [withoutComments, hKind]

theorem start?_withoutComments (h : c.SameButComments d) (hLast : tokens.getLast? = some last)
    (hKind : last.kind = .eof) :
    ∃ s u, State.start? c tokens = some s ∧ State.start? d (withoutComments tokens) = some u ∧
      s.Matches u := by
  have hStart : State.Matches
      { rest := [], last := last, current := last, settings := c }
      { rest := [], last := last, current := last, settings := d } :=
    ⟨rfl, rfl, rfl, h, rfl, rfl, rfl⟩
  refine ⟨_, _, ?_, ?_, hStart.settle tokens⟩
  · rw [State.start?, hLast, Option.map_some]
  · rw [State.start?, getLast?_withoutComments hLast hKind, Option.map_some]

/-- The outcomes are the same problem, or trees the second of which is the first one without its
comments; the settings reached differ at most in whether comments are kept. -/
structure Parsed.Matches (p q : Parsed) : Prop where
  settings : p.settings.SameButComments q.settings
  remarks : q.remarks = p.remarks
  result : (∃ root, p.result = .ok root ∧ q.result = .ok root.bare) ∨
    ∃ span problem, p.result = .error (.rejected span problem) ∧
      q.result = .error (.rejected span problem)

theorem parse?_withoutComments (h : c.SameButComments d) (hLast : tokens.getLast? = some last)
    (hKind : last.kind = .eof) :
    ∃ p q, parse? c tokens = some p ∧ parse? d (withoutComments tokens) = some q ∧ p.Matches q := by
  obtain ⟨p, hParse, hp⟩ := exists_parse?_halts c hLast hKind
  obtain ⟨q, hParse', hq⟩ := exists_parse?_halts d (getLast?_withoutComments hLast hKind) hKind
  refine ⟨p, q, hParse, hParse', ?_⟩
  obtain ⟨s, u, hStart, hStart', hState⟩ := start?_withoutComments h hLast hKind
  have hLength : (withoutComments tokens).length ≤ tokens.length := List.length_filter_le _ _
  have hFuel : stripped.Fuel (fuelFor tokens.length) (fuelFor (withoutComments tokens).length) :=
    Likeness.fuel_of_le trivial (by unfold fuelFor; omega)
  have hAgree := bare_of_agree hFuel hState
  rw [parse?, hStart, Option.map_some, Option.some.injEq] at hParse
  rw [parse?, hStart', Option.map_some, Option.some.injEq] at hParse'
  subst hParse hParse'
  generalize Parser.program (fuelFor tokens.length) s = r at *
  generalize Parser.program (fuelFor (withoutComments tokens).length) u = r' at *
  cases hAgree with
  | ok hValue hEnd =>
    exact ⟨hEnd.settings, hEnd.remarks, .inl ⟨_, rfl, by rw [hValue]⟩⟩
  | rejected hEnd => exact ⟨hEnd.settings, hEnd.remarks, .inr ⟨_, _, rfl, rfl⟩⟩
  | endless | loose =>
    rcases hq with ⟨_, ⟨⟩⟩ | ⟨span, problem, hq⟩
    cases hq

theorem kind_ne_comment : ∀ t ∈ withoutComments ts, t.kind ≠ .comment := by
  intro t ht
  simpa using (List.mem_filter.mp ht).2

theorem keptFrom_eq_nil (h : ∀ t ∈ ts, t.kind ≠ .comment) (site : Site) (inside : Bool) :
    keptFrom site inside ts = [] := by
  induction ts generalizing site inside with
  | nil => rfl
  | cons t rest ih =>
    rw [List.forall_mem_cons] at h
    rw [keptFrom, if_neg h.1]
    split
    · rfl
    · split
      · exact ih h.2 _ _
      · exact ih h.2 _ _

theorem isComment_of_mem_walk {p : Parsed} {root : Node} (hLast : tokens.getLast? = some last)
    (hKind : last.kind = .eof) (hTokens : ∀ t ∈ tokens, t.kind ≠ .comment)
    (hParse : parse? settings tokens = some p) (hRoot : p.result = .ok root) :
    ∀ n ∈ root.walk, n.isComment = false := by
  obtain ⟨s, s', hStart, hRun⟩ := exists_of_parse? hParse hRoot
  have hComments := comments_of_program hLast hKind hStart hRun
  rw [keptComments, keptFrom_eq_nil hTokens] at hComments
  intro n hn
  simpa using List.filter_eq_nil_iff.mp hComments n hn

end Syntax

namespace Lexeme

theorem token_lineComment_ne_comment (h : settings.feature .keepComments = false)
    (rest : List Char) (value : String) :
    (lineComment settings rest).token ≠ some (.comment, value) := by
  simp only [lineComment, h]
  split
  · simp
  · split <;> simp

theorem token_scan_ne_comment (h : settings.feature .keepComments = false) {text : List Char}
    (hText : text ≠ []) (value : String) : (scan settings text).token ≠ some (.comment, value) := by
  rcases scan_cases hText with ⟨rest, rfl, hScan⟩ | ⟨l, hShows, hScan⟩
  · rw [hScan]
    exact token_lineComment_ne_comment h rest value
  · rw [hScan]
    exact hShows.comment value

end Lexeme

namespace Scanner

theorem Reads.kind_ne_comment {s s' : Scanner} {ts : List Token} (h : Reads s ts s')
    (hOff : s.settings.feature .keepComments = false) : ∀ t ∈ ts, t.kind ≠ .comment := by
  refine h.forall_mem (P := fun kind _ => kind ≠ .comment) (by decide) ?_
  rintro text kind value hText hScan rfl
  exact Lexeme.token_scan_ne_comment hOff hText value hScan

variable {a b : Settings} (h : a.SameButComments b) (hOff : b.feature .keepComments = false)
  (file : Int) (source : List Char)

include h hOff

theorem tokens_withoutComments :
    (start b file source).tokens.1 = withoutComments (start a file source).tokens.1 ∧
      (start b file source).tokens.2.error = (start a file source).tokens.2.error := by
  have hStart : Alike (start a file source) (start b file source) := ⟨h.alike, rfl, rfl, rfl⟩
  obtain ⟨us, u, hReads, hSame, hError⟩ := (reads_tokens (start a file source)).alike hStart
  rw [tokens_eq hReads, ← hSame]
  exact ⟨(Syntax.withoutComments_eq (hReads.kind_ne_comment hOff)).symm, hError⟩

end Scanner

namespace Syntax

/-- Comments are transparent. Where they are not kept, the tokens are the others at the same places,
with the same error; and parsing those stops at the same problem as parsing all tokens, or gives the
same tree without its comments. -/
theorem parse?_transparent {a b : Settings} (h : a.SameButComments b)
    (hOff : b.feature .keepComments = false) (file : Int) (source : List Char) :
    (Scanner.start b file source).tokens.1 =
        withoutComments (Scanner.start a file source).tokens.1 ∧
      (Scanner.start b file source).tokens.2.error =
        (Scanner.start a file source).tokens.2.error ∧
      ∀ c d : Settings, c.SameButComments d →
        ∃ p q, parse? c (Scanner.start a file source).tokens.1 = some p ∧
          parse? d (Scanner.start b file source).tokens.1 = some q ∧ p.Matches q ∧
          ∀ root, q.result = .ok root → ∀ n ∈ root.walk, n.isComment = false := by
  obtain ⟨hTokens, hError⟩ := Scanner.tokens_withoutComments h hOff file source
  refine ⟨hTokens, hError, fun c d hSettings => ?_⟩
  obtain ⟨front, last, hFront, hKind, _⟩ := (Scanner.reads_tokens (Scanner.start a file source)).ends
  have hLast : (Scanner.start a file source).tokens.1.getLast? = some last := by simp [hFront]
  obtain ⟨p, q, hParse, hParse', hMatches⟩ := parse?_withoutComments hSettings hLast hKind
  rw [hTokens]
  exact ⟨p, q, hParse, hParse', hMatches, fun root =>
    isComment_of_mem_walk (getLast?_withoutComments hLast hKind) hKind kind_ne_comment hParse'⟩

def remarkedSource : List Char :=
  "// a
if (x // b
) // c
// [gbat]: -Fno-keep-comments odd
f(x); // d
".toList

theorem parse?_transparent_remarkedSource :
    Settings.SameButComments {} (Settings.setFeature {} .keepComments false) ∧
    (Scanner.start {} 0 remarkedSource).tokens.1.length = 15 ∧
    (Scanner.start (Settings.setFeature {} .keepComments false) 0 remarkedSource).tokens.1 =
      withoutComments (Scanner.start {} 0 remarkedSource).tokens.1 ∧
    ∃ p q, parse? {} (Scanner.start {} 0 remarkedSource).tokens.1 = some p ∧
      parse? (Settings.setFeature {} .keepComments false) (Scanner.start
        (Settings.setFeature {} .keepComments false) 0 remarkedSource).tokens.1 = some q ∧
      p.result.toOption.map (fun root => root.walk.length) = some 9 ∧ p.Matches q := by
  have hSettings : Settings.SameButComments {} (Settings.setFeature {} .keepComments false) :=
    ⟨fun f hf => (if_neg hf).symm, rfl, rfl⟩
  have hLength : (Scanner.start {} 0 remarkedSource).tokens.1.length = 15 := by decide +kernel
  have hEval : (parse? {} (Scanner.start {} 0 remarkedSource).tokens.1).map
      (fun p => p.result.toOption.map fun root => root.walk.length) = some (some 9) := by
    decide +kernel
  obtain ⟨hTokens, _, hParsed⟩ := parse?_transparent hSettings (by decide) 0 remarkedSource
  obtain ⟨p, q, hParse, hParse', hMatches, _⟩ := hParsed _ _ hSettings
  rw [hParse, Option.map_some] at hEval
  exact ⟨hSettings, hLength, hTokens, p, q, hParse, hParse', Option.some.inj hEval, hMatches⟩

end Syntax

end BatchCompiler
