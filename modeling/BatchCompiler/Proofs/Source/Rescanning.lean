import BatchCompiler.Proofs.Source.Scanning

/-!
# Scanning under other settings

Settings that tell directives from other line comments in the same way give the same tokens, up to
the comments that are kept, and the same error.
-/

namespace BatchCompiler

structure Settings.Alike (a b : Settings) : Prop where
  noDirectives : a.feature .noDirectives = b.feature .noDirectives
  directiveMark : a.directiveMark = b.directiveMark

def withoutComments (ts : List Token) : List Token :=
  ts.filter fun t => t.kind ≠ .comment

theorem withoutComments_append (a b : List Token) :
    withoutComments (a ++ b) = withoutComments a ++ withoutComments b :=
  List.filter_append ..

namespace Lexeme

def code? (l : Lexeme) : Option (TokenKind × String) :=
  l.token.filter fun x => x.1 ≠ .comment

structure Alike (l m : Lexeme) : Prop where
  length : l.length = m.length
  fault : l.fault = m.fault
  code? : l.code? = m.code?

theorem Alike.refl (l : Lexeme) : Alike l l :=
  ⟨rfl, rfl, rfl⟩

theorem alike_lineComment {a b : Settings} (h : a.Alike b) (rest : List Char) :
    Alike (lineComment a rest) (lineComment b rest) := by
  have hKept : ∀ (s : Settings) (value : String),
      (if s.feature .keepComments then some (TokenKind.comment, value) else none).filter
        (fun x => x.1 ≠ .comment) = none := by
    intro s value
    split <;> simp
  simp only [lineComment, h.noDirectives, h.directiveMark]
  split
  · exact ⟨rfl, rfl, by simp only [code?, hKept]⟩
  · split
    · exact .refl _
    · exact ⟨rfl, rfl, by simp only [code?, hKept]⟩

theorem alike_scan {a b : Settings} (h : a.Alike b) {text : List Char} (hText : text ≠ []) :
    Alike (scan a text) (scan b text) := by
  rcases scan_cases hText with ⟨rest, rfl, hScan⟩ | ⟨l, _, hScan⟩
  · rw [hScan, hScan]
    exact alike_lineComment h rest
  · rw [hScan, hScan]
    exact .refl l

end Lexeme

namespace Scanner

variable {s u s₁ s' : Scanner} {token : Option Token} {ts : List Token}

structure Alike (s u : Scanner) : Prop where
  settings : s.settings.Alike u.settings
  file : s.file = u.file
  cursor : s.cursor = u.cursor
  error : s.error = u.error

theorem Alike.move (h : Alike s u) (n : Nat) (fault : Option Fault) :
    Alike (s.move n fault) (u.move n fault) where
  settings := h.settings
  file := h.file
  cursor := congrArg (Cursor.skip n) h.cursor
  error := by simp only [Scanner.move, spanOf, h.error, h.cursor, h.file]

theorem Alike.skipGap (h : Alike s u) : Alike s.skipGap u.skipGap := by
  have hMoved := h.move (Gap.ofText s.cursor.rest).length (Gap.ofText s.cursor.rest).fault?
  rwa [show u.skipGap = u.move _ _ from rfl, ← h.cursor]

theorem Alike.eofToken_eq (h : Alike s u) : s.eofToken = u.eofToken := by
  simp only [eofToken, h.cursor, h.file]

theorem withoutComments_of_take (h : s.take = (token, s₁)) :
    withoutComments token.toList =
      ((Lexeme.scan s.settings s.cursor.rest).code?.map fun x =>
        { kind := x.1
          value := x.2
          span := s.cursor.span s.file (Lexeme.scan s.settings s.cursor.rest).length }).toList := by
  cases h
  simp only [Lexeme.code?]
  cases (Lexeme.scan s.settings s.cursor.rest).token with
  | none => rfl
  | some x => by_cases hKind : x.1 = .comment <;> simp [withoutComments, Option.filter, hKind]

theorem Alike.take {u₁ : Scanner} {x y : Option Token} (h : Alike s u) (hMore : s.cursor.rest ≠ [])
    (hs : s.take = (x, s₁)) (hu : u.take = (y, u₁)) :
    Alike s₁ u₁ ∧ withoutComments x.toList = withoutComments y.toList := by
  have hScan := Lexeme.alike_scan h.settings hMore
  constructor
  · have hMoved := h.move (Lexeme.scan s.settings s.cursor.rest).length
      (Lexeme.scan s.settings s.cursor.rest).fault
    constructor
    case settings => rw [settings_of_take hs, settings_of_take hu]; exact h.settings
    case file => rw [file_of_take hs, file_of_take hu, h.file]
    case cursor => rw [cursor_of_take hs, cursor_of_take hu, hScan.length, h.cursor]
    case error =>
      rw [error_of_take hs, error_of_take hu, hMoved.error, hScan.length, hScan.fault, h.cursor]
  · rw [withoutComments_of_take hs, withoutComments_of_take hu, hScan.code?, hScan.length,
      h.cursor, h.file]

theorem Reads.step (hError : s.error = none) (hMore : s.skipGap.cursor.rest ≠ [])
    (hTake : s.skipGap.take = (token, s₁)) (h : Reads s₁ ts s') :
    Reads s (token.toList ++ ts) s' := by
  cases token with
  | none => exact .silent hError hMore hTake h
  | some t => exact .token hError hMore hTake h

theorem Reads.alike (h : Reads s ts s') (hu : Alike s u) :
    ∃ us u', Reads u us u' ∧ withoutComments us = withoutComments ts ∧ u'.error = s'.error := by
  induction h generalizing u with
  | @failed s hError =>
    rw [hu.eofToken_eq]
    exact ⟨_, u, .failed (hu.error ▸ hError), rfl, hu.error.symm⟩
  | @ended s hError hEnd =>
    have hGap := hu.skipGap
    rw [hGap.eofToken_eq]
    exact ⟨_, _, .ended (hu.error ▸ hError) (hGap.cursor ▸ hEnd), rfl, hGap.error.symm⟩
  | @token s s₁ s' t ts hError hMore hTake h ih =>
    rcases hNext : u.skipGap.take with ⟨y, u₁⟩
    obtain ⟨hAlike, hToken⟩ := hu.skipGap.take hMore hTake hNext
    obtain ⟨us, u', hReads, hSame, hEnd⟩ := ih hAlike
    refine ⟨_, u', .step (hu.error ▸ hError) (hu.skipGap.cursor ▸ hMore) hNext hReads, ?_, hEnd⟩
    rw [withoutComments_append, ← hToken, hSame, ← withoutComments_append]
    rfl
  | @silent s s₁ s' ts hError hMore hTake h ih =>
    rcases hNext : u.skipGap.take with ⟨y, u₁⟩
    obtain ⟨hAlike, hToken⟩ := hu.skipGap.take hMore hTake hNext
    obtain ⟨us, u', hReads, hSame, hEnd⟩ := ih hAlike
    refine ⟨_, u', .step (hu.error ▸ hError) (hu.skipGap.cursor ▸ hMore) hNext hReads, ?_, hEnd⟩
    rw [withoutComments_append, ← hToken, hSame]
    rfl

end Scanner

end BatchCompiler
