import BatchCompiler.Proofs.Source.Tiling
import Mathlib.Data.List.DropRight

/-!
# Excerpts point at their tokens

The excerpt for a token shows the line on which the token starts, found by a count of line feeds from
the top of the file, with the caret below the first character of the token.
-/

namespace BatchCompiler

open Diagnostic (dropLines)

/-- The line around an offset: what it has in front of the offset and what it has from there on. -/
structure LineAround (source : List Char) (k : Nat) (before after : List Char) : Prop where
  oneLine : '\n' ∉ before ++ after
  split : ∃ above below, source = above ++ (before ++ after ++ below) ∧
    k = above.length + before.length ∧ (above = [] ∨ above.getLast? = some '\n') ∧
    (below = [] ∨ below.head? = some '\n')

theorem dropLines_cons {c : Char} {cs : List Char} (hc : c ≠ '\n') (h : '\n' ∈ cs) (n : Nat) :
    dropLines (n + 1) (c :: cs) = dropLines (n + 1) cs := by
  obtain ⟨x, rest, hRest⟩ : ∃ x rest, cs.dropWhile (· != '\n') = x :: rest := by
    refine List.exists_cons_of_ne_nil fun hNil => ?_
    simpa using List.dropWhile_eq_nil_iff.mp hNil _ h
  simp [dropLines, hc, hRest]

theorem dropLines_count {above : List Char} (h : above = [] ∨ above.getLast? = some '\n')
    (rest : List Char) : dropLines (above.count '\n') (above ++ rest) = rest := by
  induction above with
  | nil => rfl
  | cons c above ih =>
    have hEnd := h.resolve_left (List.cons_ne_nil c above)
    rcases above with _ | ⟨d, above⟩
    · cases hEnd
      rfl
    have hRest := ih (.inr hEnd)
    by_cases hc : c = '\n'
    · simpa [hc, dropLines] using hRest
    -- A line feed is still ahead, so the character is dropped with the line that it stands on.
    have hMem : '\n' ∈ d :: above := List.mem_of_getLast? hEnd
    obtain ⟨n, hn⟩ := Nat.exists_eq_add_of_lt (List.count_pos_iff.mpr hMem)
    rw [Nat.zero_add] at hn
    rw [hn] at hRest
    rw [List.count_cons_of_ne hc, hn, List.cons_append,
      dropLines_cons hc (List.mem_append_left rest hMem), hRest]

theorem exists_lineAround {source : List Char} {k : Nat} (hk : k ≤ source.length) :
    ∃ before after, LineAround source k before after ∧ columnAt source k = 1 + before.length ∧
      Diagnostic.lineAt source (lineAt source k) = (before ++ after).rdropWhile (· == '\r') := by
  let above := (source.take k).rdropWhile (· != '\n')
  let before := (source.take k).rtakeWhile (· != '\n')
  let after := (source.drop k).takeWhile (· != '\n')
  have hTake : source.take k = above ++ before := List.rdropWhile_append_rtakeWhile.symm
  have hBefore : ∀ c ∈ before, (c != '\n') = true := fun _ hc =>
    List.mem_rtakeWhile_imp (p := (· != '\n')) hc
  have hAfter : ∀ c ∈ after, (c != '\n') = true := fun _ hc =>
    List.mem_takeWhile_imp (p := (· != '\n')) hc
  have hAbove : above = [] ∨ above.getLast? = some '\n' := by
    rcases eq_or_ne above [] with hNil | hSome
    · exact .inl hNil
    · have hLast := List.rdropWhile_last_not (· != '\n') (source.take k) hSome
      exact .inr (by rw [List.getLast?_eq_some_getLast hSome]; simpa using hLast)
  have hSource : source = above ++ (before ++ source.drop k) := by
    rw [← List.append_assoc, ← hTake, List.take_append_drop]
  refine ⟨before, after, ⟨?_, above, (source.drop k).dropWhile (· != '\n'), ?_, ?_, hAbove, ?_⟩, ?_, ?_⟩
  · intro hMem
    simpa using List.forall_mem_append.mpr ⟨hBefore, hAfter⟩ _ hMem
  · rwa [List.append_assoc, List.takeWhile_append_dropWhile]
  · rw [← List.length_append, ← hTake, List.length_take_of_le hk]
  · have hBelow := List.head?_dropWhile_not (· != '\n') (source.drop k)
    rcases hDrop : (source.drop k).dropWhile (· != '\n') with _ | ⟨c, below⟩
    · exact .inl rfl
    · rw [hDrop] at hBelow
      exact .inr (by simpa using hBelow)
  · rw [columnAt, ← List.length_reverse]
    rfl
  · have hCount : (lineAt source k : Int).toNat - 1 = above.count '\n' := by
      have hNone : before.count '\n' = 0 := List.count_eq_zero.mpr fun h => by simpa using hBefore _ h
      rw [lineAt, hTake, List.count_append, hNone]
      omega
    have hDrop : dropLines (above.count '\n') source = before ++ source.drop k := by
      conv_lhs => rw [hSource]
      exact dropLines_count hAbove _
    rw [Diagnostic.lineAt, hCount, hDrop, List.takeWhile_append_of_pos hBefore]
    rfl

/-- The excerpt shows the line that the token starts on, without the carriage returns at its end, and
puts the caret below the first character of the token. -/
def Token.Shown (files : Sources) (source : List Char) (t : Token) (place : Nat × Nat) : Prop :=
  ∃ before after, LineAround source place.1 before after ∧
    Diagnostic.excerpt files t.span =
      "  " ++ String.ofList ((before ++ after).rdropWhile (· == '\r')) ++ "\n  " ++
        String.ofList (List.replicate before.length ' ') ++ "\x1b[32m^" ++
        String.ofList (List.replicate (place.2 - place.1 - 1) '~') ++ "\x1b[0m\n"

namespace Scanner

/-- Every token, the end of file included, is shown where it stands in the source. -/
theorem shown_tokens (settings : Settings) (files : Sources) (n : Nat) (f : SourceFile)
    (hFile : files[n]? = some f) :
    ∃ places, (offsets places ++ [f.content.length]).Pairwise (· ≤ ·) ∧
      List.Forall₂ (fun t place => t.Covers settings n f.content place ∧ t.Shown files f.content place)
        (start settings n f.content).tokens.1 places := by
  obtain ⟨ts, s, hReads⟩ := (start settings n f.content).exists_reads
  have hAt : At settings n f.content 0 (start settings n f.content) :=
    ⟨rfl, rfl, rfl, Nat.zero_le _⟩
  obtain ⟨places, hCovers, hOrdered, -⟩ := hReads.tiles hAt
  have hOffsets := (List.pairwise_cons.mp hOrdered).2
  rw [tokens_eq hReads]
  refine ⟨places, hOffsets, List.forall₂_iff_zip.mpr ⟨hCovers.length_eq, fun {t place} hMem => ?_⟩⟩
  have hStart : place.1 ≤ f.content.length := by
    have hOffset : place.1 ∈ offsets places :=
      List.mem_flatMap.mpr ⟨place, (List.of_mem_zip hMem).2, List.mem_cons_self⟩
    exact (List.pairwise_append.mp hOffsets).2.2 _ hOffset _ (List.mem_singleton_self _)
  have hCover := (List.forall₂_iff_zip.mp hCovers).2 hMem
  obtain ⟨before, after, hLine, hColumn, hShown⟩ := exists_lineAround hStart
  refine ⟨hCover, before, after, hLine, ?_⟩
  have hFound : files.file? t.span = some f := by
    rw [Sources.file?, hCover.span]
    simpa using hFile
  have hLineNumber : (lineAt f.content place.1 : Int) ≠ 0 := by
    rw [lineAt]
    omega
  rw [Diagnostic.excerpt, hFound, hCover.span]
  have hSpaces : ((1 + before.length : Nat) - 1 : Int).toNat = before.length := by omega
  have hTildes : ((place.2 - place.1 : Nat) - 1 : Int).toNat = place.2 - place.1 - 1 := by omega
  simp only [if_neg hLineNumber, hShown, hColumn, Text.spaces, hSpaces, hTildes]

theorem shown_tokens_twoLines :
    let f : SourceFile := ⟨"a", ['x', ';', '\r', '\n', ' ', 'y', ';', '\r', '\n']⟩
    ([f] : Sources)[0]? = some f ∧ ∃ places, List.Forall₂
      (fun t place => t.Covers {} 0 f.content place ∧ t.Shown [f] f.content place)
      (start {} 0 f.content).tokens.1 places := by
  intro f
  obtain ⟨places, -, h⟩ := shown_tokens {} [f] 0 f rfl
  exact ⟨rfl, places, h⟩

end Scanner

end BatchCompiler
