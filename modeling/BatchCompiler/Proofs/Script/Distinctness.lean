import BatchCompiler.Proofs.Script.Literals

/-!
# Which literals are rendered alike

The marks of a draft are ordinary control characters, so a literal may hold them too, and then they
are resolved as if the literal had held what they stand for. Otherwise the text of an assigned literal
can be read back from its line: percent signs are doubled, and on a line that is expanded a caret is
doubled and an exclamation mark has a caret in front.
-/

namespace BatchCompiler.Script

open Target

/-- What a character of a literal is rendered as if the literal held this instead. -/
def plainChar (c : Char) : List Char :=
  if c == quotedCaret then ['^']
  else if c == quotedBang then ['!']
  else if c == unquotedCaret then ['^', '^']
  else [c]

def plainText (s : String) : String :=
  String.ofList (s.toList.flatMap plainChar)

def written (expanded : Bool) (cs : List Char) : List Char :=
  resolveWith expanded (cs.flatMap quotedChar)

def readBack : List Char → List Char
  | '%' :: '%' :: rest => '%' :: readBack rest
  | '^' :: '!' :: rest => '!' :: readBack rest
  | '^' :: '^' :: '!' :: rest => unquotedBang :: readBack rest
  | '^' :: '^' :: rest => '^' :: readBack rest
  | c :: rest => c :: readBack rest
  | [] => []

theorem written_cons (expanded : Bool) (c : Char) (cs : List Char) :
    written expanded (c :: cs) = resolveWith expanded (quotedChar c) ++ written expanded cs := by
  rw [written, List.flatMap_cons, resolveWith_append]
  rfl

theorem written_append (expanded : Bool) (a b : List Char) :
    written expanded (a ++ b) = written expanded a ++ written expanded b := by
  rw [written, List.flatMap_append, resolveWith_append]
  rfl

def taken : List Char := ['%', '^', '!', quotedCaret, quotedBang, unquotedCaret, unquotedBang]

theorem quotedChar_of_not_mem_taken {c : Char} (h : c ∉ taken) (expanded : Bool) :
    resolveWith expanded (quotedChar c) = [c] := by
  simp only [taken, List.mem_cons, List.not_mem_nil, or_false, not_or] at h
  obtain ⟨h₁, h₂, h₃, hMarks⟩ := h
  have hPlain : c ∉ marks := by simpa [marks] using hMarks
  simp [quotedChar, h₁, h₂, h₃, resolveWith, resolveChar_of_not_mem_marks hPlain]

theorem written_plainChar (expanded : Bool) (c : Char) :
    written expanded (plainChar c) = resolveWith expanded (quotedChar c) := by
  by_cases hc : c ∈ [quotedCaret, quotedBang, unquotedCaret]
  · have hMarks : ∀ c ∈ [quotedCaret, quotedBang, unquotedCaret],
        written expanded (plainChar c) = resolveWith expanded (quotedChar c) := by
      cases expanded <;> decide
    exact hMarks c hc
  · simp only [List.mem_cons, List.not_mem_nil, or_false, not_or] at hc
    simp [plainChar, hc, written, resolveWith]

theorem written_plainText (expanded : Bool) (s : String) :
    written expanded (plainText s).toList = written expanded s.toList := by
  rw [plainText, String.toList_ofList]
  induction s.toList with
  | nil => rfl
  | cons c rest ih => rw [List.flatMap_cons, written_append, written_plainChar, ih, written_cons]

theorem not_mem_plainText (s : String) :
    ∀ c ∈ (plainText s).toList, c ∉ [quotedCaret, quotedBang, unquotedCaret] := by
  intro c hc hMark
  rw [plainText, String.toList_ofList] at hc
  obtain ⟨d, _, hd⟩ := List.mem_flatMap.mp hc
  unfold plainChar at hd
  split at hd
  · exact absurd hMark (by rw [List.mem_singleton.mp hd]; decide)
  split at hd
  · exact absurd hMark (by rw [List.mem_singleton.mp hd]; decide)
  split at hd
  · have hCaret : c = '^' := by simpa using hd
    exact absurd hMark (by rw [hCaret]; decide)
  · next h₁ h₂ h₃ =>
    rw [List.mem_singleton.mp hd] at hMark
    simp only [beq_iff_eq] at h₁ h₂ h₃
    simp [h₁, h₂, h₃] at hMark

def escaped : List Char := ['%', '^', '!', unquotedBang]

theorem quotedChar_cases {c : Char} (h : c ∉ [quotedCaret, quotedBang, unquotedCaret]) :
    c ∈ escaped ∨ resolveWith true (quotedChar c) = [c] ∧ c ≠ '%' ∧ c ≠ '^' ∧ c ≠ '!' := by
  by_cases hc : c ∈ taken
  · left
    simp only [taken, escaped, List.mem_cons, List.not_mem_nil, or_false] at hc h ⊢
    tauto
  · right
    have hPlain := quotedChar_of_not_mem_taken hc true
    simp only [taken, List.mem_cons, List.not_mem_nil, or_false, not_or] at hc
    exact ⟨hPlain, hc.1, hc.2.1, hc.2.2.1⟩

theorem head?_written {cs : List Char}
    (h : ∀ c ∈ cs, c ∉ [quotedCaret, quotedBang, unquotedCaret]) : (written true cs).head? ≠ some '!' := by
  cases cs with
  | nil => simp [written, resolveWith]
  | cons c rest =>
    rw [written_cons]
    rcases quotedChar_cases (h c List.mem_cons_self) with hc | ⟨hPlain, _, _, hBang⟩
    · simp only [escaped, List.mem_cons, List.not_mem_nil, or_false] at hc
      rcases hc with rfl | rfl | rfl | rfl <;>
        exact fun hHead => absurd (Option.some.inj hHead) (by decide)
    · rw [hPlain]
      simpa using hBang

theorem readBack_carets {rest : List Char} (h : rest.head? ≠ some '!') :
    readBack ('^' :: '^' :: rest) = '^' :: readBack rest := by
  rw [readBack]
  rintro others rfl
  exact h rfl

theorem readBack_plain {c : Char} (hPercent : c ≠ '%') (hCaret : c ≠ '^') (rest : List Char) :
    readBack (c :: rest) = c :: readBack rest := by
  rw [readBack]
  · exact fun _ h => absurd h hPercent
  all_goals exact fun _ h => absurd h hCaret

theorem readBack_written {cs : List Char}
    (h : ∀ c ∈ cs, c ∉ [quotedCaret, quotedBang, unquotedCaret]) : readBack (written true cs) = cs := by
  induction cs with
  | nil => rfl
  | cons c rest ih =>
    obtain ⟨hc, hRest⟩ := List.forall_mem_cons.mp h
    have ih := ih hRest
    rw [written_cons]
    rcases quotedChar_cases hc with hEscaped | ⟨hPlain, hPercent, hCaret, _⟩
    · simp only [escaped, List.mem_cons, List.not_mem_nil, or_false] at hEscaped
      rcases hEscaped with rfl | rfl | rfl | rfl
      · exact congrArg ('%' :: ·) ih
      · exact (readBack_carets (head?_written hRest)).trans (congrArg ('^' :: ·) ih)
      · exact congrArg ('!' :: ·) ih
      · exact congrArg (unquotedBang :: ·) ih
    · rw [hPlain]
      exact (readBack_plain hPercent hCaret _).trans (congrArg (c :: ·) ih)

def doubleCaret (c : Char) : List Char :=
  if c == '^' then ['^', '^'] else [c]

theorem written_true {cs : List Char} (h : expands (cs.flatMap quotedChar) = false) :
    written true cs = (written false cs).flatMap doubleCaret := by
  induction cs with
  | nil => rfl
  | cons c rest ih =>
    rw [List.flatMap_cons, expands, List.any_append, Bool.or_eq_false_iff] at h
    rw [written_cons, written_cons, List.flatMap_append, ih h.2]
    congr 1
    by_cases hc : c ∈ taken
    · have hTaken : ∀ c ∈ taken, expands (quotedChar c) = false →
          resolveWith true (quotedChar c) =
            (resolveWith false (quotedChar c)).flatMap doubleCaret := by
        decide
      exact hTaken c hc h.1
    · have hCaret : c ≠ '^' := fun hEq => hc (hEq ▸ by decide)
      rw [quotedChar_of_not_mem_taken hc, quotedChar_of_not_mem_taken hc]
      simp [doubleCaret, hCaret]

theorem plainText_eq_of_written {expanded : Bool} {s t : String}
    (hs : expanded = false → expands (quotedText s).toList = false)
    (ht : expanded = false → expands (quotedText t).toList = false)
    (h : written expanded s.toList = written expanded t.toList) : plainText s = plainText t := by
  have hTrue : written true s.toList = written true t.toList := by
    cases expanded with
    | true => exact h
    | false =>
      rw [quotedText, String.toList_ofList] at hs ht
      rw [written_true (hs rfl), written_true (ht rfl), h]
  rw [← written_plainText, ← written_plainText true t] at hTrue
  have hRead := congrArg readBack hTrue
  rw [readBack_written (not_mem_plainText s), readBack_written (not_mem_plainText t)] at hRead
  exact String.toList_inj.mp hRead

def assignmentFront (l : Layout) (dst : Place) : String :=
  let drafted := (writtenName dst).run { outer := l.bound }
  String.join drafted.2.loops ++ ("set \"" ++ drafted.1 ++ "=")

theorem Layout.line_injective {l : Layout} {a b : String} (h : l.line a = l.line b) : a = b := by
  have hChars := congrArg String.toList h
  rw [Layout.line, Layout.line, String.toList_append, String.toList_append, String.toList_append,
    String.toList_append] at hChars
  exact String.toList_inj.mp (List.append_cancel_left (List.append_cancel_right hChars))

theorem renderStmt_literal (l : Layout) (dst : Place) (s : String) :
    renderStmt l (.setText dst [.text s]) =
      .ok { text := l.line (resolve (assignmentFront l dst ++ (quotedText s ++ "\"")))
            overflow := ((writtenName dst).run { outer := l.bound }).2.overflow } := by
  have hDraft : (headText (.setText dst [.text s])).run { outer := l.bound } =
      ("set \"" ++ ((writtenName dst).run { outer := l.bound }).1 ++ "=" ++ (quotedText s ++ "") ++ "\"",
        ((writtenName dst).run { outer := l.bound }).2) := rfl
  have hHead : renderStmt l (.setText dst [.text s]) =
      .ok (renderHead l (.setText dst [.text s])).1 := by
    simp only [renderStmt]
    rfl
  rw [hHead, renderHead, hDraft, assignmentFront]
  simp only [String.append_assoc, String.append_empty]

/-- Two literals that are assigned to the same place are rendered alike exactly if they differ in
marks only, each of which stands for what the other literal holds. -/
theorem renderStmt_literal_eq_iff (l : Layout) (dst : Place) (s t : String) :
    renderStmt l (.setText dst [.text s]) = renderStmt l (.setText dst [.text t]) ↔
      plainText s = plainText t := by
  -- Everything on the line but the literal is the same, once it is known to be expanded or not.
  have hLine : ∀ u expanded, resolveWith expanded (assignmentFront l dst ++ (quotedText u ++ "\"")).toList =
      resolveWith expanded (assignmentFront l dst).toList ++ (written expanded u.toList ++ ['"']) := by
    intro u expanded
    rw [String.toList_append, String.toList_append, resolveWith_append, resolveWith_append, quotedText,
      String.toList_ofList]
    rfl
  rw [renderStmt_literal, renderStmt_literal]
  constructor
  · intro h
    have hText : resolve (assignmentFront l dst ++ (quotedText s ++ "\"")) =
        resolve (assignmentFront l dst ++ (quotedText t ++ "\"")) :=
      Layout.line_injective (congrArg Rendered.text (Except.ok.inj h))
    have hChars := congrArg String.toList hText
    rw [toList_resolve, toList_resolve] at hChars
    have hSame := congrArg (List.any · (· == '!')) hChars
    simp only [any_resolveWith] at hSame
    rw [← hSame, hLine, hLine] at hChars
    have hQuiet : ∀ u, expands (assignmentFront l dst ++ (quotedText u ++ "\"")).toList = false →
        expands (quotedText u).toList = false := by
      intro u hu
      simp only [expands, String.toList_append, List.any_append, Bool.or_eq_false_iff] at hu
      exact hu.2.1
    exact plainText_eq_of_written (hQuiet s) (fun hs => hQuiet t (hSame ▸ hs))
      (List.append_cancel_right (List.append_cancel_left hChars))
  · intro h
    have hWritten : ∀ expanded, written expanded s.toList = written expanded t.toList := by
      intro expanded
      rw [← written_plainText, h, written_plainText]
    have hText : resolve (assignmentFront l dst ++ (quotedText s ++ "\"")) =
        resolve (assignmentFront l dst ++ (quotedText t ++ "\"")) := by
      rw [← String.toList_inj, toList_resolve, toList_resolve, ← any_resolveWith true,
        ← any_resolveWith true (assignmentFront l dst ++ (quotedText t ++ "\"")).toList]
      simp only [hLine, hWritten]
    rw [hText]

def markSource : List Char := "x = \"\\0\";".toList

def caretSource : List Char := "x = \"^\";".toList

/-- The two sources have different literals and the same script. -/
theorem compile_markSource :
    ((Stage.tokens {} 0 markSource).run []).1.toOption.map (List.map Token.value) =
        some ["x", "", String.singleton quotedCaret, "", ""] ∧
      ((Stage.tokens {} 0 caretSource).run []).1.toOption.map (List.map Token.value) =
        some ["x", "", "^", "", ""] ∧
      ((Stage.compile {} 0 markSource).run []).1.toOption.isSome = true ∧
      ((Stage.compile {} 0 markSource).run []).1.toOption =
        ((Stage.compile {} 0 caretSource).run []).1.toOption := by
  decide +kernel

end BatchCompiler.Script
