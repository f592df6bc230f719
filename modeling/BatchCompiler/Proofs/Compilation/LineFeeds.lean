import BatchCompiler.Proofs.Compilation.Execution
import BatchCompiler.Proofs.Compilation.Relabelling
import BatchCompiler.Proofs.Lowering.Retention
import BatchCompiler.Proofs.Script.LineFeeds
import BatchCompiler.Proofs.Source.Scanning

/-!
# The lines of a compiled source

The script of a source has as many line feeds as its program has lines, and those that its texts
hold. Every literal of the source becomes a text of the program, so the two numbers are equal exactly
if no literal holds a line feed. An escape can put one there.
-/

namespace BatchCompiler

open Lowering Script Target

/-- Names as the scanner spells them and comments on one line; the texts have the property. -/
def Leaf.Whole (T : String → Prop) : Leaf → Prop
  | .name x => ∀ c ∈ x.toList, Text.isNamePart c = true
  | .callee x => IsName x
  | .text s => T s
  | .remark s => lineFeeds s = 0

/-- Only a text may break a line, the texts have the property, and commands or labels are called. -/
structure Target.Word.WholeWith (T : String → Prop) (w : Word) : Prop where
  whole : w.Whole
  text : ∀ s, w = .text s → T s
  called : ∀ s, w = .callee s → ∃ x, IsName x ∧ (s = x ∨ s = ":" ++ x)

theorem lineFeeds_of_isNamePart {s : String} (h : ∀ c ∈ s.toList, Text.isNamePart c = true) :
    lineFeeds s = 0 :=
  lineFeeds_of_onOneLine (onOneLine_of_isNamePart h)

theorem spells_whole {table : ScopeTable} {T : String → Prop}
    (hNumber : ∀ z, T (Number.intText z)) (hRegister : T returnRegister) :
    Spells table (Leaf.Whole T) (Word.WholeWith T) where
  text s hs := ⟨trivial, fun _ h => by cases h; exact hs, nofun⟩
  integer z := ⟨trivial, fun _ h => by cases h; exact hNumber z, nofun⟩
  register := ⟨trivial, fun _ h => by cases h; exact hRegister, nofun⟩
  remark s hs := ⟨hs, nofun, nofun⟩
  loop k := ⟨lineFeeds_of_isNamePart (isNamePart_labelName k), nofun, nofun⟩
  stop := ⟨lineFeeds_of_isNamePart isNamePart_endOfFile, nofun, nofun⟩
  function x hx :=
    ⟨⟨lineFeeds_of_isNamePart hx.part, nofun, nofun⟩,
      ⟨lineFeeds_of_isNamePart (isNamePart_append hx.part (by decide)), nofun, nofun⟩⟩
  callee x hx := by
    have hName := lineFeeds_of_isNamePart hx.part
    unfold calledText
    split
    · refine ⟨?_, nofun, fun s hs => ⟨x, hx, .inr (Word.callee.inj hs).symm⟩⟩
      exact endures_lineFeeds.append (a := ":") (by decide) hName
    · exact ⟨hName, nofun, fun s hs => ⟨x, hx, .inl (Word.callee.inj hs).symm⟩⟩

section

variable {settings : Settings} {file : Int} {source : List Char} (b : Compiled settings file source)

theorem Compiled.closed_tokens : Syntax.Closed b.tokens := by
  rw [← b.tokens_eq]
  exact (Scanner.reads_tokens _).ends

theorem Compiled.texts_root : b.root.texts = Syntax.literals b.tokens :=
  Syntax.texts_of_parse b.closed_tokens b.parse_eq b.result_eq

theorem Compiled.everyLeaf_root {T : String → Prop} (hTexts : ∀ s ∈ Syntax.literals b.tokens, T s) :
    b.root.EveryLeaf (Leaf.Whole T) := by
  have hFormed := Stage.formed_of_tokens b.tokens_eq b.parse_eq b.result_eq
  have hComments : ∀ t ∈ b.tokens, t.kind = .comment → lineFeeds t.value = 0 := by
    rw [← b.tokens_eq]
    intro t ht hKind
    exact feeds_eq_zero_iff.mpr ((Scanner.reads_tokens _).comment_onOneLine t ht hKind)
  intro x hx
  cases x with
  | name x => exact (hFormed.leaves _ hx : IsName x).part
  | callee x => exact hFormed.leaves _ hx
  | text s => exact hTexts s (b.texts_root ▸ Node.mem_texts.mpr hx)
  | remark s =>
    exact Syntax.forall_remark_of_parse (P := fun s => lineFeeds s = 0) hComments b.parse_eq
      b.result_eq hx

theorem Compiled.words_program {T : String → Prop} (hNumber : ∀ z, T (Number.intText z))
    (hRegister : T returnRegister) (hTexts : ∀ s ∈ Syntax.literals b.tokens, T s) :
    (∀ w ∈ wordsOf b.program, w.WholeWith T) ∧ NamesIn (usesOf b.program) := by
  obtain ⟨hFlat, -⟩ := everyLeaf_of_flatten? b.flatten_eq (P := fun _ => Leaf.Whole T)
    (fun _ k => isNamePart_temporaryName k) (everyLeaf_itemsOf (b.everyLeaf_root hTexts))
  obtain ⟨regions, s, hRun, hProgram, -⟩ := exists_run_lowerRegions b
  rw [hProgram]
  constructor
  · have hRaw : ∀ t, lineFeeds t = 0 → (Word.raw t).WholeWith T := fun t ht => ⟨ht, nofun, nofun⟩
    have hSetup : ∀ w ∈ wordsOf setup, w.WholeWith T := by
      simp only [setup, wordsOf, Stmt.words, List.cons_append, List.nil_append, List.forall_mem_cons]
      exact ⟨hRaw _ (by decide), hRaw _ (by decide), hRaw _ (by decide), List.forall_mem_nil _⟩
    rw [wordsOf_append]
    exact List.forall_mem_append.mpr
      ⟨hSetup, words_of_lowerRegions (spells_whole hNumber hRegister) hFlat hRun⟩
  · rw [usesOf_append]
    have hOwns := (owns_of_lowerRegions (P := fun _ => Leaf.Whole T) hFlat hRun).1
    exact keepsTo_append clean_setup.names (keepsTo_joined (fun _ _ hx => hx) hOwns)

theorem Compiled.lineFeeds_script :
    lineFeeds b.script = height b.program + total Word.feeds (wordsOf b.program) := by
  obtain ⟨hWords, hNames⟩ := b.words_program (T := fun _ => True) (fun _ => trivial) trivial
    fun _ _ => trivial
  exact lineFeeds_render b.parsed.settings.lineEnding_eq (fun w hw => (hWords w hw).whole) hNames
    b.render_eq

theorem Compiled.mem_words_program {s : String} (hs : s ∈ Syntax.literals b.tokens) :
    .text s ∈ wordsOf b.program := by
  rw [← b.texts_root, Node.mem_texts] at hs
  have hFlat : .text s ∈ b.flat.leaves := by
    have hFlatten := b.flatten_eq
    unfold Stage.flatten? at hFlatten
    split at hFlatten
    · exact Syntax.Flattening.mem_leaves_of_flatten hFlatten (fun ⟨_, h⟩ => by cases h) hs
    · obtain ⟨hRoot, -⟩ := Prod.mk.inj (Except.ok.inj hFlatten)
      rwa [← hRoot]
  exact mem_words_of_lower b.lower_eq (Node.mem_texts.mpr hFlat)

theorem Compiled.feeds_program_eq_zero_iff :
    total Word.feeds (wordsOf b.program) = 0 ↔ ∀ s ∈ Syntax.literals b.tokens, '\n' ∉ s.toList := by
  rw [total_eq_zero_iff]
  constructor
  · intro h s hs
    exact feeds_eq_zero_iff.mp (h _ (b.mem_words_program hs))
  · intro h w hw
    obtain ⟨hWords, -⟩ := b.words_program (T := fun s => lineFeeds s = 0)
      (fun z => lineFeeds_of_onOneLine (onOneLine_intText z)) (by decide)
      fun s hs => feeds_eq_zero_iff.mpr (h s hs)
    cases w with
    | text s => exact (hWords _ hw).text s rfl
    | _ => rfl

theorem Compiled.lineFeeds_eq_height_iff :
    lineFeeds b.script = height b.program ↔
      ∀ s ∈ Syntax.literals b.tokens, '\n' ∉ s.toList := by
  rw [b.lineFeeds_script, ← b.feeds_program_eq_zero_iff]
  omega

end

/-- The script of a source has a line feed for each line of its program, and more than these exactly
if a literal of the source holds one. Whatever texts are put in the place of its literals, the source
is compiled and its program has as many lines. -/
theorem lineFeeds_compile {settings : Settings} {file : Int} {source : List Char} {root : Node}
    {p : Program} {script : String} {log log₁ log₂ log₃ : List Remark}
    (hProgram : (Stage.treeAndProgram settings file source).run log = (.ok (root, p), log₁))
    (hScript : (Stage.compile settings file source).run log₂ = (.ok script, log₃)) :
    lineFeeds script = height p + total Word.feeds (wordsOf p) ∧
    (lineFeeds script = height p ↔
      ∀ s ∈ Syntax.literals (Scanner.start settings file source).tokens.1, '\n' ∉ s.toList) ∧
    ∀ (file' : Int) (source' : List Char),
      (Scanner.start settings file' source').tokens.2.error = none →
      SameButTexts (Scanner.start settings file source).tokens.1
        (Scanner.start settings file' source').tokens.1 →
      ∃ root' p' script',
        (∀ log, ((Stage.treeAndProgram settings file' source').run log).1 = .ok (root', p')) ∧
        (∀ log, ((Stage.compile settings file' source').run log).1 = .ok script') ∧
        height p' = height p ∧ lineFeeds script' = height p + total Word.feeds (wordsOf p') ∧
        (lineFeeds script' = height p ↔
          ∀ s ∈ Syntax.literals (Scanner.start settings file' source').tokens.1,
            '\n' ∉ s.toList) := by
  obtain ⟨b, rfl, rfl, rfl⟩ := Stage.exists_compiled_of_runs hProgram hScript
  rw [b.tokens_eq]
  refine ⟨b.lineFeeds_script, b.lineFeeds_eq_height_iff, ?_⟩
  intro file' source' hError hSame
  obtain ⟨b', hOutline⟩ := b.exists_of_sameButTexts hError hSame
  have hHeight : height b'.program = height b.program := by
    rw [← height_outline b'.program, hOutline, height_outline]
  refine ⟨b'.root, b'.program, b'.script, b'.run_treeAndProgram, b'.run_compile, hHeight, ?_⟩
  rw [← hHeight, b'.tokens_eq]
  exact ⟨b'.lineFeeds_script, b'.lineFeeds_eq_height_iff⟩

def quotedSource : List Char :=
  ("f(\"a\"); if (x == \"b\") \x7b s = \"c\"; \x7d " ++
    "else \x7b while (y) \x7b t = s + \"d\"; \x7d \x7d").toList

def requotedSource : List Char :=
  ("f(\"\"); if (x == \"(\\n\") \x7b s = \"!\\t\"; \x7d " ++
    "else \x7b while (y) \x7b t = s + \"\"; \x7d \x7d").toList

theorem lineFeeds_compile_quotedSource :
    ∃ root p script root' p' script' log log',
      (Stage.treeAndProgram {} 0 quotedSource).run [] = (.ok (root, p), log) ∧
      (Stage.compile {} 0 quotedSource).run [] = (.ok script, log') ∧
      ((Stage.treeAndProgram {} 0 requotedSource).run []).1 = .ok (root', p') ∧
      ((Stage.compile {} 0 requotedSource).run []).1 = .ok script' ∧
      lineFeeds script = height p ∧ height p' = height p ∧ lineFeeds script' ≠ height p := by
  have hProgram : ((Stage.treeAndProgram {} 0 quotedSource).run []).1.toOption.isSome = true := by
    decide +kernel
  have hScript : ((Stage.compile {} 0 quotedSource).run []).1.toOption.isSome = true := by
    decide +kernel
  obtain ⟨⟨root, p⟩, hProgram⟩ := Option.isSome_iff_exists.mp hProgram
  obtain ⟨script, hScript⟩ := Option.isSome_iff_exists.mp hScript
  obtain ⟨log, hProgram⟩ := Lowering.exists_run_of_toOption hProgram
  obtain ⟨log', hScript⟩ := Lowering.exists_run_of_toOption hScript
  obtain ⟨-, hIff, hOther⟩ := lineFeeds_compile hProgram hScript
  obtain ⟨root', p', script', hProgram', hScript', hHeight, -, hIff'⟩ :=
    hOther 0 requotedSource (by decide +kernel) (by decide +kernel)
  refine ⟨root, p, script, root', p', script', log, log', hProgram, hScript, hProgram' [],
    hScript' [], ?_, hHeight, ?_⟩
  · exact hIff.mpr (by decide +kernel)
  · exact mt hIff'.mp (by decide +kernel)

def brokenSource : List Char := "s = \"a\\nb\";".toList

def unbrokenSource : List Char := "s = \"a b\";".toList

/-- A line of the program takes two lines of the script, and one with another text. -/
theorem lineFeeds_ne_height_brokenSource :
    ∃ root p script script' log log' log'',
      (Stage.treeAndProgram {} 0 brokenSource).run [] = (.ok (root, p), log) ∧
      (Stage.compile {} 0 brokenSource).run [] = (.ok script, log') ∧
      (Stage.compile {} 0 unbrokenSource).run [] = (.ok script', log'') ∧
      SameButTexts (Scanner.start {} 0 brokenSource).tokens.1
        (Scanner.start {} 0 unbrokenSource).tokens.1 ∧
      height p = 4 ∧ lineFeeds script = 5 ∧ lineFeeds script' = 4 := by
  have hProgram : ((Stage.treeAndProgram {} 0 brokenSource).run []).1.toOption.map
      (fun x => height x.2) = some 4 := by decide +kernel
  have hScript : ((Stage.compile {} 0 brokenSource).run []).1.toOption.map lineFeeds = some 5 := by
    decide +kernel
  have hScript' : ((Stage.compile {} 0 unbrokenSource).run []).1.toOption.map lineFeeds =
      some 4 := by decide +kernel
  obtain ⟨⟨root, p⟩, hProgram, hHeight⟩ := Option.map_eq_some_iff.mp hProgram
  obtain ⟨script, hScript, hFeeds⟩ := Option.map_eq_some_iff.mp hScript
  obtain ⟨script', hScript', hFeeds'⟩ := Option.map_eq_some_iff.mp hScript'
  obtain ⟨log, hProgram⟩ := Lowering.exists_run_of_toOption hProgram
  obtain ⟨log', hScript⟩ := Lowering.exists_run_of_toOption hScript
  obtain ⟨log'', hScript'⟩ := Lowering.exists_run_of_toOption hScript'
  exact ⟨root, p, script, script', log, log', log'', hProgram, hScript, hScript', by decide +kernel,
    hHeight, hFeeds, hFeeds'⟩

end BatchCompiler
