import BatchCompiler.Proofs.Script.Drafting

/-!
# Head lines

The finished first line of a statement is of the kind of the statement, whatever loops are in front
of it.
-/

namespace BatchCompiler.Script

open Target Text

variable {loops : List String} {bound : Nat} {s : Stmt} {text : String}

def kindOfStmt : Stmt → RowKind
  | .absent | .comment _ => .remark
  | .label _ => .label
  | .jump t => .jump t.toList
  | .whenTrue .. | .choose .. => .opening
  | .raw _ | .setText .. | .setNumber .. | .call .. => .command

def headDraft (bound : Nat) (s : Stmt) : String × Bindings :=
  (headText s).run { outer := bound }

def headLine (bound : Nat) : Stmt → Line
  | .raw t => t.toList
  | s => (resolve (String.join (headDraft bound s).2.loops ++ (headDraft bound s).1)).toList

theorem not_mem_marks_of_isNamePart {s : String} (h : ∀ c ∈ s.toList, isNamePart c = true) :
    ∀ c ∈ s.toList, c ∉ marks :=
  avoids_of_isNamePart (by decide) h

theorem resolveWith_loopText {letter : Char} (hLetter : letter ∈ forVariables) (value : String)
    (expanded : Bool) : resolveWith expanded (loopText letter value).toList =
      bindingLine letter (resolveWith expanded value.toList) := by
  have hLetters : ∀ c ∈ forVariables, c ∉ marks := by decide
  have hFront : ∀ c ∈ "for %%".toList ++ letter :: " in (".toList, c ∉ marks := by
    refine List.forall_mem_append.mpr ⟨by decide, List.forall_mem_cons.mpr ⟨?_, by decide⟩⟩
    exact hLetters letter hLetter
  have hBack : ∀ c ∈ ") do ".toList, c ∉ marks := by decide
  have hText : (loopText letter value).toList =
      ("for %%".toList ++ letter :: " in (".toList) ++ (value.toList ++ ") do ".toList) := by
    simp [loopText]
  rw [hText, resolveWith_append, resolveWith_of_unmarked hFront, resolveWith_append,
    resolveWith_of_unmarked hBack]
  delta bindingLine
  simp

theorem exists_bindingLines (h : ∀ l ∈ loops, IsLoop l) (expanded : Bool) :
    ∃ bs : List (Char × List Char),
      resolveWith expanded (String.join loops).toList = bindingLines bs ∧ ∀ x ∈ bs, ')' ∉ x.2 := by
  induction loops with
  | nil =>
    refine ⟨[], ?_, nofun⟩
    rw [String.join_nil]
    rfl
  | cons l rest ih =>
    obtain ⟨⟨letter, value, hLetter, hValue, rfl⟩, hRest⟩ := List.forall_mem_cons.mp h
    obtain ⟨bs, hbs, hClosed⟩ := ih hRest
    refine ⟨(letter, resolveWith expanded value.toList) :: bs, ?_, ?_⟩
    · rw [String.join_cons, String.toList_append, resolveWith_append,
        resolveWith_loopText hLetter, hbs]
      rfl
    · refine List.forall_mem_cons.mpr ⟨fun hMem => ?_, hClosed⟩
      exact avoids_resolveWith (by decide) (by decide) hValue expanded _ hMem List.mem_cons_self

theorem onOneLine_join (h : ∀ l ∈ loops, IsLoop l) :
    OnOneLine (String.join loops) := by
  have hLetters : ∀ c ∈ forVariables, c ∉ lineBreaks := by decide
  intro c hc
  rw [String.toList_join] at hc
  obtain ⟨l, hl, hc⟩ := List.mem_flatMap.mp hc
  obtain ⟨letter, value, hLetter, hValue, rfl⟩ := h l hl
  have hName : OnOneLine (String.ofList ['%', '%', letter]) := by
    refine avoids_ofList (List.forall_mem_cons.mpr ⟨by decide, ?_⟩)
    exact List.forall_mem_cons.mpr
      ⟨by decide, List.forall_mem_cons.mpr ⟨hLetters letter hLetter, nofun⟩⟩
  have hFront : OnOneLine ("for " ++ String.ofList ['%', '%', letter] ++ " in (") :=
    avoids_append (avoids_append (by decide) hName) (by decide)
  exact avoids_append (avoids_append hFront (onOneLine_of_value hValue)) (by decide) c hc

theorem exists_headLine (hRaw : ∀ t, s ≠ .raw t) (h : s.Clean) :
    ∃ bs text expanded, headLine bound s = bindingLines bs ++ resolveWith expanded text.toList ∧
      (∀ x ∈ bs, ')' ∉ x.2) ∧ Begins s text ∧ ∀ c ∈ headLine bound s, c ∉ lineBreaks := by
  obtain ⟨⟨hLine, hBegins⟩, hLoops⟩ := drafts_headText h { outer := bound } nofun
  have hHead : headLine bound s =
      (resolve (String.join (headDraft bound s).2.loops ++ (headDraft bound s).1)).toList := by
    cases s with
    | raw t => exact absurd rfl (hRaw t)
    | _ => rfl
  rw [toList_resolve] at hHead
  generalize expands _ = expanded at hHead
  obtain ⟨bs, hbs, hClosed⟩ := exists_bindingLines hLoops expanded
  have hJoin := onOneLine_join hLoops
  refine ⟨bs, (headDraft bound s).1, expanded, ?_, hClosed, hBegins, ?_⟩
  · rw [hHead, String.toList_append, resolveWith_append]
    exact congrArg (· ++ resolveWith expanded (headDraft bound s).1.toList) hbs
  · rw [hHead]
    exact avoids_resolveWith (by decide) (by decide) (avoids_append hJoin hLine) expanded

theorem resolveWith_lead {lead : String} (hLead : Avoids marks lead) (expanded : Bool)
    (more : String) : resolveWith expanded (lead ++ more).toList =
      lead.toList ++ resolveWith expanded more.toList := by
  rw [String.toList_append, resolveWith_append, resolveWith_of_unmarked hLead]

theorem firstWord_of_no_space {word : List Char} (h : ' ' ∉ word) : firstWord word = word := by
  have hAll : (word ++ []).takeWhile (· != ' ') = word ++ [].takeWhile (· != ' ') :=
    List.takeWhile_append_of_pos (bne_of_not_mem h)
  rwa [List.append_nil, List.takeWhile_nil, List.append_nil] at hAll

theorem kindOfCore_if (cs : List Char) :
    kindOfCore ("if ".toList ++ (cs ++ " (".toList)) = .opening := by
  have hLast : (' ' :: (cs ++ [' ', '('])).getLast? = some '(' := by
    have hConcat : ' ' :: (cs ++ [' ', '(']) = (' ' :: (cs ++ [' '])) ++ ['('] := by simp
    rw [hConcat, List.getLast?_concat]
  simpa [kindOfCore, afterLead?] using hLast

theorem kind_of_isCommandLine (h : IsCommandLine text) (expanded : Bool) :
    firstWord (resolveWith expanded text.toList) ≠ "for".toList ∧
      kindOfCore (resolveWith expanded text.toList) = .command ∧
      (resolveWith expanded text.toList).head? ≠ some ' ' := by
  obtain ⟨word, more, hWord, rfl, hMore⟩ := h
  rw [resolveWith_lead (not_mem_marks_of_isNamePart hWord.part)]
  have hBlank : ' ' ∉ word.toList := fun hMem => by
    have hPart := hWord.part ' ' hMem
    cases hPart
  have hFirst : firstWord (word.toList ++ resolveWith expanded more.toList) = word.toList := by
    rcases hMore with rfl | ⟨rest, rfl⟩
    · exact (congrArg firstWord (List.append_nil _)).trans (firstWord_of_no_space hBlank)
    · rw [resolveWith_lead (by decide)]
      exact firstWord_append hBlank _
  obtain ⟨c, cs, hChars⟩ := List.exists_cons_of_ne_nil hWord.ne_nil
  have hHead : (word.toList ++ resolveWith expanded more.toList).head? = some c := by
    rw [hChars, List.cons_append, List.head?_cons]
  have hPart : isNamePart c = true := hWord.part c (by rw [hChars]; exact List.mem_cons_self)
  have hOther : ∀ w ∈ "if" :: ownWords, word.toList ≠ w.toList :=
    fun w hw hEq => hWord.other (String.toList_inj.mp hEq ▸ hw)
  have hSpecial : ∀ d, isNamePart d = false →
      (word.toList ++ resolveWith expanded more.toList).head? ≠ some d := by
    rintro d hd hEq
    rw [hHead] at hEq
    cases hEq
    rw [hd] at hPart
    cases hPart
  refine ⟨?_, kindOfCore_of_word ?_ (hSpecial ':' (by decide)) (hSpecial ')' (by decide)) ?_ ?_ ?_,
    hSpecial ' ' (by decide)⟩
  · rw [hFirst]
    exact hOther "for" (by decide)
  · intro hNil
    rw [hNil] at hHead
    cases hHead
  · rw [hFirst]
    exact hOther "rem" (by decide)
  · rw [hFirst]
    exact hOther "goto" (by decide)
  · rw [hFirst]
    exact hOther "if" (by decide)

theorem kind_of_begins (hRaw : ∀ t, s ≠ .raw t) (hWords : ∀ w ∈ s.words, w.Clean)
    (h : Begins s text) (expanded : Bool) :
    firstWord (resolveWith expanded text.toList) ≠ "for".toList ∧
      kindOfCore (resolveWith expanded text.toList) = kindOfStmt s ∧
      (resolveWith expanded text.toList).head? ≠ some ' ' := by
  cases s with
  | absent =>
    rw [show text = "" from h]
    exact ⟨nofun, rfl, nofun⟩
  | raw t => exact absurd rfl (hRaw t)
  | comment t =>
    obtain ⟨more, rfl⟩ := h
    rw [resolveWith_lead (by decide)]
    exact ⟨by simp [firstWord], rfl, by simp⟩
  | label n =>
    rw [show text = ":" ++ n from h, resolveWith_lead (by decide)]
    exact ⟨by simp [firstWord], rfl, by simp⟩
  | jump t =>
    have hTarget := not_mem_marks_of_isNamePart (hWords (.label t) List.mem_cons_self)
    rw [show text = "goto :" ++ t from h, resolveWith_lead (by decide),
      resolveWith_of_unmarked hTarget]
    exact ⟨by simp [firstWord], rfl, by simp⟩
  | setText | setNumber | call => exact kind_of_isCommandLine h expanded
  | whenTrue | choose =>
    obtain ⟨more, rfl⟩ := h
    have hBack : ∀ c ∈ " (".toList, c ∉ marks := by decide
    rw [String.append_assoc, resolveWith_lead (by decide), String.toList_append, resolveWith_append,
      resolveWith_of_unmarked hBack]
    exact ⟨by simp [firstWord], kindOfCore_if _, by simp⟩

theorem kindOf_raw {t : String} (h : .raw t ∈ Lowering.setup) :
    kindOf t.toList = .command ∧ t.toList.head? ≠ some ' ' := by
  simp only [Lowering.setup, List.mem_cons, Stmt.raw.injEq, List.not_mem_nil, or_false] at h
  rcases h with rfl | rfl | rfl
  · decide
  · decide
  · decide

theorem head?_bindingLines {bs : List (Char × List Char)} (h : bs ≠ []) (line : Line) :
    (bindingLines bs ++ line).head? = some 'f' := by
  cases bs with
  | nil => exact absurd rfl h
  | cons x rest =>
    rw [bindingLines]
    delta bindingLine
    simp

structure Reads (line : Line) (kind : RowKind) : Prop where
  kind : kindOf line = kind
  start : line.head? ≠ some ' '
  whole : ∀ c ∈ line, c ∉ lineBreaks

theorem reads_headLine (bound : Nat) (h : s.Clean) : Reads (headLine bound s) (kindOfStmt s) := by
  by_cases hRaw : ∃ t, s = .raw t
  · obtain ⟨t, rfl⟩ := hRaw
    have hMem : .raw t ∈ Lowering.setup := h.words (.raw t) List.mem_cons_self
    obtain ⟨hKind, hStart⟩ := kindOf_raw hMem
    exact ⟨hKind, hStart, onOneLine_of_raw_mem_setup hMem⟩
  · have hRaw' : ∀ t, s ≠ .raw t := fun t ht => hRaw ⟨t, ht⟩
    obtain ⟨bs, text, expanded, hLine, hClosed, hBegins, hWhole⟩ :=
      exists_headLine hRaw' h
    obtain ⟨hFor, hKind, hStart⟩ := kind_of_begins hRaw' h.words hBegins expanded
    refine ⟨?_, ?_, hWhole⟩
    · rw [kindOf, hLine, core_append hClosed hFor, hKind]
    · rw [hLine]
      by_cases hNil : bs = []
      · subst hNil
        exact hStart
      · rw [head?_bindingLines hNil]
        exact nofun

theorem headLine_label {n : String} (h : ∀ c ∈ n.toList, isNamePart c = true) :
    headLine bound (.label n) = ':' :: n.toList := by
  have hDraft : headLine bound (.label n) = (resolve (String.join [] ++ (":" ++ n))).toList := rfl
  have hUnmarked : ∀ c ∈ ':' :: n.toList, c ∉ marks :=
    List.forall_mem_cons.mpr ⟨by decide, not_mem_marks_of_isNamePart h⟩
  rw [hDraft, toList_resolve, String.join_nil, String.empty_append, String.toList_append]
  exact resolveWith_of_unmarked hUnmarked _

end BatchCompiler.Script
