import BatchCompiler.Proofs.Compilation.LineFeeds
import BatchCompiler.Proofs.Script.Capture

/-!
# Literals that a loop captures

On the lines of a compiled source, whatever looks like a variable of a loop is one or comes from a
literal. It comes from a literal exactly if there is a percent sign in front of the letter there, and
then a loop that binds the letter puts its value into the text.
-/

namespace BatchCompiler

open Lowering Script Target

theorem endures_true : Endures fun _ => True :=
  ⟨fun _ => trivial, fun _ _ => trivial, fun _ => trivial, fun _ => trivial⟩

theorem Compiled.named_headSpans {settings : Settings} {file : Int} {source : List Char}
    (b : Compiled settings file source) {s : Stmt} (hMem : s ∈ statementsOf b.program) :
    (∀ x ∈ headSpans s, x.Named) ∧ CalleeNamed s := by
  obtain ⟨hWords, hNames⟩ := b.words_program (T := fun _ => True) (fun _ => trivial) trivial
    fun _ _ => trivial
  obtain ⟨hHead, hUses⟩ := headWords_subset_wordsOf _ hMem
  constructor
  · refine meets_headSpans endures_true (fun w hw => ?_) fun u p hp => hNames u p (hUses hp)
    have hWhole := (hWords w (hHead hw)).whole
    cases w with
    | unnamed => exact hWhole
    | _ => trivial
  · cases s with
    | call callee args =>
      have hWord := hWords _ (hHead List.mem_cons_self)
      cases callee with
      | text t =>
        obtain ⟨x, hx, ht⟩ := hWord.called t rfl
        exact ⟨x, hx.part, ht.imp (congrArg _) (congrArg _)⟩
      | _ => exact hWord.whole.elim
    | _ => trivial

/-- On the line of every assignment, call and condition of a compiled source, whatever variables are
in force, what looks like a variable is a variable of a loop, or all of it comes from literals, and it
comes from literals exactly if they hold a percent sign and then the letter. -/
theorem compile_captured_iff {settings : Settings} {file : Int} {source : List Char} {root : Node}
    {p : Program} {script : String} {log log₁ log₂ log₃ : List Remark}
    (hProgram : (Stage.treeAndProgram settings file source).run log = (.ok (root, p), log₁))
    (hScript : (Stage.compile settings file source).run log₂ = (.ok script, log₃)) :
    ∃ ending, Wrote ending script (linesOf 0 p) ∧
      ∀ s ∈ statementsOf p, isWritten s = true → ∀ bound, ∃ loops signs,
        Traces bound s loops signs ∧ ∀ v ∈ forVariables,
          (∀ a b c, occurrence v a b c <:+: finished signs → a ≠ .code ∧ b = a ∧ c = a) ∧
          (occurrence v .literal .literal .literal <:+: finished signs ↔
            [some '%', some v] <:+: signs.map Sign.char?) := by
  obtain ⟨b, rfl, rfl, rfl⟩ := Stage.exists_compiled_of_runs hProgram hScript
  refine ⟨_, wrote_of_render b.render_eq, fun s hMem hs bound => ?_⟩
  obtain ⟨hNamed, hCallee⟩ := b.named_headSpans hMem
  exact exists_traces bound hs hCallee hNamed

def percentSource : List Char := "x = \"%a\" + l[i];".toList

theorem compile_captured_iff_percentSource :
    ∃ root p script log log',
      (Stage.treeAndProgram {} 0 percentSource).run [] = (.ok (root, p), log) ∧
      (Stage.compile {} 0 percentSource).run [] = (.ok script, log') ∧
      (statementsOf p).any isWritten = true ∧
      ∀ s ∈ statementsOf p, isWritten s = true → ∃ loops signs, Traces 0 s loops signs ∧
        ∀ v ∈ forVariables, (occurrence v .literal .literal .literal <:+: finished signs ↔
          [some '%', some v] <:+: signs.map Sign.char?) := by
  have hProgram : ((Stage.treeAndProgram {} 0 percentSource).run []).1.toOption.map
      (fun x => (statementsOf x.2).any isWritten) = some true := by decide +kernel
  have hScript : ((Stage.compile {} 0 percentSource).run []).1.toOption.isSome = true := by
    decide +kernel
  obtain ⟨⟨root, p⟩, hProgram, hAny⟩ := Option.map_eq_some_iff.mp hProgram
  obtain ⟨script, hScript⟩ := Option.isSome_iff_exists.mp hScript
  obtain ⟨log, hProgram⟩ := exists_run_of_toOption hProgram
  obtain ⟨log', hScript⟩ := exists_run_of_toOption hScript
  obtain ⟨-, -, hTraces⟩ := compile_captured_iff hProgram hScript
  refine ⟨root, p, script, log, log', hProgram, hScript, hAny, fun s hMem hs => ?_⟩
  obtain ⟨loops, signs, hTrace, hOccurs⟩ := hTraces s hMem hs 0
  exact ⟨loops, signs, hTrace, fun v hv => (hOccurs v hv).2⟩

def percentStmt : Stmt :=
  .setText (.name "x") [.text "%a", .read (.item (.name "l") (.read (.name "i")))]

/-- The loop binds the letter of the literal, and the literal looks like its variable. -/
theorem captured_percentSource :
    ((Stage.compile {} 0 percentSource).run []).1.toOption =
      some ("@echo off\r\nsetlocal EnableDelayedExpansion\r\nsetlocal EnableExtensions\r\n" ++
        String.ofList (headLine 0 percentStmt) ++ "\r\n") ∧
    headLine 0 percentStmt = "for %%a in (!i!) do set \"x=%%a!l[%%a]!\"".toList ∧
    ∃ loops signs, Traces 0 percentStmt loops signs ∧ 'a' ∈ loops.map Loop.letter ∧
      occurrence 'a' .literal .literal .literal <:+: finished signs := by
  refine ⟨by decide +kernel, by decide +kernel, ?_⟩
  have hName (n : String) (h : n.toList.all Text.isNamePart = true) : (Place.name n).Named :=
    List.all_eq_true.mp h
  have hNamed : ∀ x ∈ headSpans percentStmt, x.Named := by
    refine List.forall_mem_cons.mpr ⟨trivial, List.forall_mem_cons.mpr ⟨hName "x" (by decide), ?_⟩⟩
    refine List.forall_mem_cons.mpr ⟨trivial, List.forall_mem_cons.mpr ⟨trivial, ?_⟩⟩
    refine List.forall_mem_cons.mpr ⟨⟨hName "l" (by decide), hName "i" (by decide)⟩, ?_⟩
    exact List.forall_mem_singleton.mpr trivial
  obtain ⟨loops, signs, hTrace, hOccurs⟩ := exists_traces 0 (s := percentStmt) rfl trivial hNamed
  obtain ⟨ws, hAs, rfl⟩ := hTrace.spelled
  refine ⟨loops, _, hTrace, ?_, (hOccurs 'a' (by decide)).2.mpr ?_⟩
  · rw [hTrace.letters_eq]
    decide +kernel
  · obtain ⟨a, _, -, ⟨b, _, -, ⟨c, _, -, ⟨_, rest, rfl, -, rfl⟩, rfl⟩, rfl⟩, rfl⟩ := hAs
    refine ⟨(loops.flatMap Loop.signs ++ (a ++ (b ++ c))).map Sign.char?, rest.map Sign.char?, ?_⟩
    simp [Sign.char?]

end BatchCompiler
