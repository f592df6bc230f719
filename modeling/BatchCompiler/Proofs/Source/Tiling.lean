import BatchCompiler.Proofs.Source.Scanning
import Mathlib.Data.List.Forall2

/-!
# Tokens tile the source

Where every token stands in the source, told by offsets. Lines and columns, which the scanner counts
as it goes, are those of the offset a token starts at, and what is left out between two tokens
is only what means nothing.
-/

namespace BatchCompiler

variable {source : List Char} {k a : Nat} {places : List (Nat × Nat)} {s s' : Scanner}

/-- One more than the number of line feeds in front of the offset. -/
def lineAt (source : List Char) (k : Nat) : Nat :=
  1 + (source.take k).count '\n'

/-- One more than the distance to the last line feed in front of the offset, or to the start. -/
def columnAt (source : List Char) (k : Nat) : Nat :=
  1 + ((source.take k).reverse.takeWhile (· != '\n')).length

theorem Cursor.skip_succ (n : Nat) (c : Cursor) : c.skip (n + 1) = (c.skip n).next := by
  induction n generalizing c with
  | zero => rfl
  | succ n ih =>
    rw [skip, ih]
    rfl

theorem Cursor.skip_skip (m n : Nat) (c : Cursor) : (c.skip m).skip n = c.skip (m + n) := by
  induction n with
  | zero => rfl
  | succ n ih => rw [skip_succ, ih, ← Nat.add_assoc, skip_succ]

theorem lineAt_succ (hk : k < source.length) :
    lineAt source (k + 1) = lineAt source k + if source[k] = '\n' then 1 else 0 := by
  simp only [lineAt, List.take_succ_eq_append_getElem hk, List.count_append, List.count_singleton,
    beq_iff_eq, Nat.add_assoc]

theorem columnAt_succ (hk : k < source.length) :
    columnAt source (k + 1) = if source[k] = '\n' then 1 else columnAt source k + 1 := by
  simp only [columnAt, List.take_succ_eq_append_getElem hk, List.reverse_append,
    List.reverse_singleton, List.singleton_append]
  split
  · next hc => simp [hc]
  · next hc => simp [hc, Nat.add_assoc]

theorem Cursor.skip_start (source : List Char) (k : Nat) :
    (Cursor.start source).skip k =
      { rest := source.drop k, line := lineAt source k, column := columnAt source k } := by
  induction k with
  | zero => simp [skip, start, lineAt, columnAt]
  | succ k ih =>
    rw [skip_succ, ih, next]
    rcases Nat.lt_or_ge k source.length with hk | hk
    · simp only [List.drop_eq_getElem_cons hk, lineAt_succ hk, columnAt_succ hk]
      split <;> rfl
    · have hTake : source.take (k + 1) = source.take k := by
        rw [List.take_of_length_le hk, List.take_of_length_le (by omega)]
      have hDrop : source.drop (k + 1) = [] := List.drop_eq_nil_of_le (by omega)
      simp only [lineAt, columnAt, hTake, hDrop, List.drop_eq_nil_of_le hk]

/-- The token takes the characters between two offsets, and is what the scanner sees there. -/
structure Token.Covers (settings : Settings) (file : Int) (source : List Char) (t : Token)
    (place : Nat × Nat) : Prop where
  span : t.span =
    { file := file
      line := lineAt source place.1
      column := columnAt source place.1
      length := (place.2 - place.1 : Nat) }
  lexeme : t.kind ≠ .eof →
    (Lexeme.scan settings (source.drop place.1)).token = some (t.kind, t.value) ∧
    (Lexeme.scan settings (source.drop place.1)).length = place.2 - place.1

def offsets (places : List (Nat × Nat)) : List Nat :=
  places.flatMap fun place => [place.1, place.2]

def gapsFrom (k : Nat) (places : List (Nat × Nat)) : List (Nat × Nat) :=
  (k :: places.map Prod.snd).zip (places.map Prod.fst)

/-- From the offset `k` on, everything between the places is left out and the last place is the end
of the source. -/
structure Exhausts (settings : Settings) (source : List Char) (k : Nat)
    (places : List (Nat × Nat)) : Prop where
  gaps : ∀ gap ∈ gapsFrom k places, Skips settings (source.drop gap.1) (source.drop gap.2)
  last : places.getLast? = some (source.length, source.length)

theorem Exhausts.cons {settings : Settings} {b : Nat}
    (hGap : Skips settings (source.drop k) (source.drop a)) (h : Exhausts settings source b places) :
    Exhausts settings source k ((a, b) :: places) := by
  constructor
  · exact List.forall_mem_cons.mpr ⟨hGap, h.gaps⟩
  · rw [List.getLast?_cons, h.last]
    rfl

theorem Exhausts.extend {settings : Settings}
    (hGap : Skips settings (source.drop k) (source.drop a)) (h : Exhausts settings source a places) :
    Exhausts settings source k places := by
  refine ⟨?_, h.last⟩
  cases places with
  | nil => exact List.forall_mem_nil _
  | cons place rest =>
    obtain ⟨hFirst, hRest⟩ := List.forall_mem_cons.mp h.gaps
    exact List.forall_mem_cons.mpr ⟨hGap.trans hFirst, hRest⟩

theorem pairwise_le_cons {b : Nat} {l : List Nat} (hab : a ≤ b) (h : (b :: l).Pairwise (· ≤ ·)) :
    (a :: b :: l).Pairwise (· ≤ ·) := by
  apply List.pairwise_cons.mpr
  refine ⟨List.forall_mem_cons.mpr ⟨hab, fun x hx => ?_⟩, h⟩
  exact Nat.le_trans hab ((List.pairwise_cons.mp h).1 x hx)

namespace Scanner

theorem error_move_eq_none {n : Nat} {fault : Option Fault} :
    (s.move n fault).error = none ↔ s.error = none ∧ fault = none := by
  simp [move]

theorem skipGap_eq_self {c : Char} {more : List Char} (hRest : s.cursor.rest = c :: more)
    (hSpacing : Gap.isSpacing c = false) (hSlash : c ≠ '/') : s.skipGap = s := by
  have hGap : Gap.ofText s.cursor.rest = { length := 0 } := by
    simp [hRest, Gap.ofText, Gap.scan, hSpacing, hSlash]
  rw [skipGap, hGap]
  simp [move, Gap.fault?, Cursor.skip]

theorem next_of_take {s₁ : Scanner} {t : Token} (hError : s.error = none) (hGap : s.skipGap = s)
    (hMore : s.cursor.rest ≠ []) (hTake : s.take = (some t, s₁)) : s.next = (t, s₁) := by
  simp [next, nextWithin, hError, hGap, hTake, hMore]

theorem Reads.error_eq_none {ts : List Token} (h : Reads s ts s') (hError : s'.error = none) :
    s.error = none := by
  cases h with
  | failed => exact hError
  | ended h | token h | silent h => exact h

structure At (settings : Settings) (file : Int) (source : List Char) (k : Nat) (s : Scanner) :
    Prop where
  settings_eq : s.settings = settings
  file_eq : s.file = file
  cursor_eq : s.cursor = (Cursor.start source).skip k
  le : k ≤ source.length

section

variable {settings : Settings} {file : Int} {source : List Char} {k : Nat} {s s₁ : Scanner}
  {token : Option Token}

theorem At.rest_eq (h : At settings file source k s) : s.cursor.rest = source.drop k := by
  rw [h.cursor_eq, Cursor.rest_skip]
  rfl

theorem At.span_eq (h : At settings file source k s) (n : Nat) :
    s.cursor.span s.file n =
      { file := file, line := lineAt source k, column := columnAt source k, length := n } := by
  rw [h.cursor_eq, h.file_eq, Cursor.skip_start]
  rfl

theorem At.skipGap (h : At settings file source k s) :
    ∃ a, k ≤ a ∧ At settings file source a s.skipGap ∧
      (s.skipGap.error = none → Skips settings (source.drop k) (source.drop a)) := by
  have hLe := Gap.length_ofText_le (source.drop k)
  rw [List.length_drop] at hLe
  have hk := h.le
  refine ⟨k + (Gap.ofText (source.drop k)).length, by omega, ⟨h.settings_eq, h.file_eq, ?_, by omega⟩, ?_⟩
  · rw [cursor_skipGap, h.rest_eq, h.cursor_eq, Cursor.skip_skip]
  · intro hError
    have hFault := (error_move_eq_none.mp hError).2
    rw [h.rest_eq] at hFault
    rw [← List.drop_drop]
    exact Gap.skips_ofText settings _ (Option.map_eq_none_iff.mp hFault)

theorem At.take (h : At settings file source k s) (hMore : s.cursor.rest ≠ [])
    (hTake : s.take = (token, s₁)) :
    ∃ b, k ≤ b ∧ At settings file source b s₁ ∧
      (∀ t, token = some t → t.Covers settings file source (k, b)) ∧
      (token = none → s₁.error = none → Skips settings (source.drop k) (source.drop b)) := by
  have hFits := (Lexeme.fits_scan settings (h.rest_eq ▸ hMore)).le
  rw [List.length_drop] at hFits
  have hk := h.le
  have hCursor := cursor_of_take hTake
  rw [h.settings_eq, h.rest_eq, h.cursor_eq, Cursor.skip_skip] at hCursor
  refine ⟨k + (Lexeme.scan settings (source.drop k)).length, by omega, ⟨?_, ?_, hCursor, by omega⟩, ?_, ?_⟩
  · rw [settings_of_take hTake, h.settings_eq]
  · rw [file_of_take hTake, h.file_eq]
  · rintro t rfl
    obtain ⟨⟨kind, value⟩, hScan, rfl⟩ := Option.map_eq_some_iff.mp (congrArg Prod.fst hTake)
    rw [h.settings_eq, h.rest_eq] at hScan
    constructor
    · rw [h.span_eq, h.settings_eq, h.rest_eq]
      simp
    · intro _
      exact ⟨hScan, by simp⟩
  · rintro rfl hError
    have hToken := Option.map_eq_none_iff.mp (congrArg Prod.fst hTake)
    have hFault := (error_move_eq_none.mp (error_of_take hTake ▸ hError)).2
    rw [h.settings_eq, h.rest_eq] at hToken hFault
    rw [← List.drop_drop]
    exact Lexeme.skips_scan (h.rest_eq ▸ hMore) hToken hFault

theorem Reads.tiles {ts : List Token} (h : Reads s ts s') (hAt : At settings file source k s) :
    ∃ places, List.Forall₂ (Token.Covers settings file source) ts places ∧
      (k :: offsets places ++ [source.length]).Pairwise (· ≤ ·) ∧
      (s'.error = none → Exhausts settings source k places) := by
  induction h generalizing k with
  | @failed s hError =>
    have hk := hAt.le
    refine ⟨[(k, k)], .cons ⟨?_, ?_⟩ .nil, ?_, fun hNone => absurd hNone hError⟩
    · rw [eofToken, hAt.span_eq]
      simp
    · intro hKind
      exact absurd rfl hKind
    · simp [offsets, hk]
  | @ended s hError hEnd =>
    obtain ⟨a, hka, hAtGap, hSkips⟩ := hAt.skipGap
    have ha : source.length ≤ a := by
      rw [hAtGap.rest_eq] at hEnd
      exact List.drop_eq_nil_iff.mp hEnd
    obtain rfl : a = source.length := Nat.le_antisymm hAtGap.le ha
    refine ⟨[(source.length, source.length)], .cons ⟨?_, ?_⟩ .nil, ?_, fun hNone => ⟨?_, rfl⟩⟩
    · rw [eofToken, hAtGap.span_eq]
      simp
    · intro hKind
      exact absurd rfl hKind
    · simp [offsets, hka]
    · exact List.forall_mem_singleton.mpr (hSkips hNone)
  | @token s s₁ s' t ts hError hMore hTake h ih =>
    obtain ⟨a, hka, hAtGap, hSkips⟩ := hAt.skipGap
    obtain ⟨b, hab, hAtNext, hCovers, _⟩ := hAtGap.take hMore hTake
    obtain ⟨places, hPlaces, hOrdered, hExhausts⟩ := ih hAtNext
    refine ⟨(a, b) :: places, .cons (hCovers t rfl) hPlaces, ?_, ?_⟩
    · exact pairwise_le_cons hka (pairwise_le_cons hab hOrdered)
    · intro hNone
      have hNext := (error_move_eq_none.mp (error_of_take hTake ▸ h.error_eq_none hNone)).1
      exact (hExhausts hNone).cons (hSkips hNext)
  | @silent s s₁ s' ts hError hMore hTake h ih =>
    obtain ⟨a, hka, hAtGap, hSkips⟩ := hAt.skipGap
    obtain ⟨b, hab, hAtNext, _, hSilent⟩ := hAtGap.take hMore hTake
    obtain ⟨places, hPlaces, hOrdered, hExhausts⟩ := ih hAtNext
    refine ⟨places, hPlaces, ?_, ?_⟩
    · have hLonger := pairwise_le_cons (Nat.le_trans hka hab) hOrdered
      exact hLonger.sublist (.cons_cons k (List.sublist_cons_self b _))
    · intro hNone
      have hTaken := h.error_eq_none hNone
      have hNext := (error_move_eq_none.mp (error_of_take hTake ▸ hTaken)).1
      exact (hExhausts hNone).extend ((hSkips hNext).trans (hSilent rfl hTaken))

end

/-- Scanning ends with the only end-of-file token, after as many tokens as `next` gives one by one.
The tokens stand at growing offsets, with the lines and columns of these; without an error, nothing
but gaps is left out and the end of file stands at the end. -/
theorem tokens_tile (settings : Settings) (file : Int) (source : List Char) :
    ∃ ts s places, (start settings file source).tokens = (ts, s) ∧
      nextTokens ts.length (start settings file source) = (ts, s) ∧
      (∃ init last, ts = init ++ [last] ∧ last.kind = .eof ∧ ∀ t ∈ init, t.kind ≠ .eof) ∧
      List.Forall₂ (Token.Covers settings file source) ts places ∧
      (offsets places ++ [source.length]).Pairwise (· ≤ ·) ∧
      (s.error = none → Exhausts settings source 0 places) := by
  obtain ⟨ts, s, hReads⟩ := (start settings file source).exists_reads
  have hAt : At settings file source 0 (start settings file source) :=
    ⟨rfl, rfl, rfl, Nat.zero_le _⟩
  obtain ⟨places, hCovers, hOrdered, hExhausts⟩ := hReads.tiles hAt
  exact ⟨ts, s, places, tokens_eq hReads, nextTokens_eq hReads, hReads.ends, hCovers,
    (List.pairwise_cons.mp hOrdered).2, hExhausts⟩

end Scanner

end BatchCompiler
