import BatchCompiler.Options.Layout
import Mathlib.Data.List.Chain

/-!
# Filling lines

A wrapped text has the words of the text in their order. Each line is filled as far as the width
allows, so that only a single word can be too long for its line.
-/

namespace BatchCompiler

namespace Text

/-- The runs of characters between blanks, without the empty ones. -/
def blankSeparated (s : String) : List String :=
  ((s.toList.splitOnP isBlank).filter (!·.isEmpty)).map String.ofList

theorem wordsFrom_eq (word cs : List Char) :
    wordsFrom word cs = (cs.splitOnPPrepend isBlank word).filter (!·.isEmpty) := by
  induction cs generalizing word with
  | nil => cases word <;> simp [wordsFrom]
  | cons c rest ih =>
    rw [wordsFrom, List.splitOnPPrepend_cons_eq_if]
    split
    · rw [ih, List.splitOnPPrepend_nil_right]
      cases word <;> simp
    · exact ih (c :: word)

theorem words_eq (s : String) : words s = blankSeparated s := by
  rw [words, wordsFrom_eq, List.splitOnPPrepend_nil_right, blankSeparated]

structure IsWord (w : String) : Prop where
  ne_empty : w ≠ ""
  blankless : ∀ c ∈ w.toList, isBlank c = false

theorem blankless_of_mem_splitOnP {cs x : List Char} (h : x ∈ cs.splitOnP isBlank) :
    ∀ c ∈ x, isBlank c = false := by
  induction cs generalizing x with
  | nil => simp_all
  | cons c rest ih =>
    rw [List.splitOnP_cons_eq_if_modifyHead] at h
    split at h
    · rcases List.mem_cons.mp h with rfl | h
      · exact List.forall_mem_nil _
      · exact ih h
    · next hc =>
      cases hParts : rest.splitOnP isBlank with
      | nil => simp [hParts] at h
      | cons part parts =>
        rw [hParts, List.modifyHead_cons, List.mem_cons] at h
        rcases h with rfl | h
        · exact List.forall_mem_cons.mpr ⟨by simpa using hc, ih (by simp [hParts])⟩
        · exact ih (by simp [hParts, h])

theorem isWord_of_mem_blankSeparated {s w : String} (h : w ∈ blankSeparated s) : IsWord w := by
  obtain ⟨x, hx, rfl⟩ := List.mem_map.mp h
  obtain ⟨hPart, hSome⟩ := List.mem_filter.mp hx
  refine ⟨fun hEmpty => ?_, by simpa using blankless_of_mem_splitOnP hPart⟩
  rw [String.ofList_eq_empty_iff.mp hEmpty] at hSome
  cases hSome

theorem IsWord.blankSeparated_eq {w : String} (h : IsWord w) : blankSeparated w = [w] := by
  simp [blankSeparated, List.splitOnP_eq_singleton h.blankless, h.ne_empty]

theorem IsWord.blankSeparated_append {w : String} (h : IsWord w) (rest : String) :
    blankSeparated (w ++ " " ++ rest) = w :: blankSeparated rest := by
  have hCut := List.splitOnP_append_cons_of_forall_mem h.blankless ' ' rfl rest.toList
  simp [blankSeparated, hCut, h.ne_empty]

theorem blankSeparated_intercalate {ws : List String} (h : ∀ w ∈ ws, IsWord w) :
    blankSeparated (" ".intercalate ws) = ws := by
  induction ws with
  | nil => rfl
  | cons w rest ih =>
    obtain ⟨hw, hRest⟩ := List.forall_mem_cons.mp h
    cases rest with
    | nil => rw [String.intercalate_singleton, hw.blankSeparated_eq]
    | cons next rest => rw [String.intercalate_cons_cons, hw.blankSeparated_append, ih hRest]

end Text

namespace Options

open Text

variable {width : Int} {line ws : List String}

theorem joinWords_eq (ws : List String) : joinWords ws = " ".intercalate ws := by
  induction ws with
  | nil => rfl
  | cons w rest ih =>
    cases rest with
    | nil => rw [String.intercalate_singleton]; rfl
    | cons next rest =>
      rw [String.intercalate_cons_cons, ← ih]
      rfl

/-- The first word of the next row does not fit into the row. -/
def Full (width : Int) (row next : List String) : Prop :=
  ∃ w ∈ next.head?, width < (joinWords (row ++ [w])).utf8ByteSize

/-- Rows that hold the words in order, each of them as many as fit. -/
structure Filled (width : Int) (ws : List String) (rows : List (List String)) : Prop where
  words_eq : rows.flatten = ws
  fits : ∀ row ∈ rows, 2 ≤ row.length → (joinWords row).utf8ByteSize ≤ width
  full : rows.IsChain (Full width)

theorem head?_fill (width : Int) (line ws : List String) :
    ∃ more rest, fill width line ws = (line ++ more) :: rest := by
  induction ws generalizing line with
  | nil => exact ⟨[], [], by simp [fill]⟩
  | cons w ws ih =>
    rw [fill]
    split
    · exact ⟨[], _, by rw [List.append_nil]⟩
    · obtain ⟨more, rest, hFill⟩ := ih (line ++ [w])
      exact ⟨w :: more, rest, by simp [hFill]⟩

theorem filled_fill (h : 2 ≤ line.length → (joinWords line).utf8ByteSize ≤ width) :
    Filled width (line ++ ws) (fill width line ws) := by
  induction ws generalizing line with
  | nil => exact ⟨by simp [fill], List.forall_mem_singleton.mpr h, .singleton line⟩
  | cons w ws ih =>
    rw [fill]
    split
    · next hFull =>
      have hNext : Filled width ([w] ++ ws) (fill width [w] ws) := ih (by simp)
      obtain ⟨hWords, hFits, hChain⟩ := hNext
      obtain ⟨more, rest, hFill⟩ := head?_fill width [w] ws
      refine ⟨by simp [hWords], List.forall_mem_cons.mpr ⟨h, hFits⟩, ?_⟩
      rw [hFill] at hChain ⊢
      exact hChain.cons_cons ⟨w, rfl, hFull⟩
    · next hFits => simpa using ih fun _ => Int.not_lt.mp hFits

theorem ne_nil_of_mem_fill (h : line ≠ []) : ∀ row ∈ fill width line ws, row ≠ [] := by
  induction ws generalizing line with
  | nil => exact List.forall_mem_singleton.mpr h
  | cons w ws ih =>
    rw [fill]
    split
    · exact List.forall_mem_cons.mpr ⟨h, ih (List.cons_ne_nil w [])⟩
    · exact ih (by simp)

theorem exists_filled_wrap (text : String) (hWidth : 0 < width) :
    ∃ rows, wrap text width = rows.map joinWords ∧ Filled width (blankSeparated text) rows ∧
      ∀ row ∈ rows, row ≠ [] := by
  have hWrap : wrap text width = (fillWords width (blankSeparated text)).map joinWords := by
    rw [wrap, if_neg (by omega), words_eq]
  refine ⟨_, hWrap, ?_⟩
  cases blankSeparated text with
  | nil => exact ⟨⟨rfl, List.forall_mem_nil _, .nil⟩, List.forall_mem_nil _⟩
  | cons w ws =>
    have hRows : Filled width ([w] ++ ws) (fill width [w] ws) := filled_fill (by simp)
    exact ⟨hRows, ne_nil_of_mem_fill (List.cons_ne_nil w [])⟩

/-- Wrapping keeps the words in their order, one blank between two words of a line. A line is too
long only if it is a single word, and the first word of the next line would make it so. -/
theorem wrap_greedy (text : String) (width : Int) (hWidth : 0 < width) :
    (wrap text width).flatMap blankSeparated = blankSeparated text ∧
    (∀ line ∈ wrap text width,
      blankSeparated line ≠ [] ∧ line = " ".intercalate (blankSeparated line) ∧
        (2 ≤ (blankSeparated line).length → line.utf8ByteSize ≤ width)) ∧
    (wrap text width).IsChain fun line next =>
      ∃ w ∈ (blankSeparated next).head?, width < (line ++ " " ++ w).utf8ByteSize := by
  obtain ⟨rows, hWrap, ⟨hWords, hFits, hFull⟩, hSome⟩ := exists_filled_wrap text hWidth
  have hLine : ∀ row ∈ rows, blankSeparated (joinWords row) = row := fun row hRow => by
    rw [joinWords_eq]
    refine blankSeparated_intercalate fun w hw => isWord_of_mem_blankSeparated (s := text) ?_
    rw [← hWords]
    exact List.mem_flatten_of_mem hRow hw
  rw [hWrap]
  refine ⟨?_, ?_, ?_⟩
  · rw [List.flatMap_map, ← hWords, List.flatten_eq_flatMap]
    exact List.flatMap_congr fun row hRow => hLine row hRow
  · intro line hMem
    obtain ⟨row, hRow, rfl⟩ := List.mem_map.mp hMem
    rw [hLine row hRow]
    exact ⟨hSome row hRow, joinWords_eq row, hFits row hRow⟩
  · rw [List.isChain_map]
    refine hFull.imp_of_mem_imp fun row next hRow hNext ⟨w, hw, hFull⟩ => ⟨w, ?_, ?_⟩
    · rwa [hLine next hNext]
    · rwa [joinWords_eq, String.intercalate_append_of_ne_nil (hSome row hRow) (List.cons_ne_nil w []),
        String.intercalate_singleton, ← joinWords_eq] at hFull

theorem wrap_greedy_overlongWord :
    0 < (5 : Int) ∧ wrap "aa  bb overlong c" 5 = ["aa bb", "overlong", "c"] ∧
      (wrap "aa  bb overlong c" 5).flatMap blankSeparated = blankSeparated "aa  bb overlong c" :=
  ⟨by decide, by decide +kernel, (wrap_greedy "aa  bb overlong c" 5 (by decide)).1⟩

end Options

end BatchCompiler
