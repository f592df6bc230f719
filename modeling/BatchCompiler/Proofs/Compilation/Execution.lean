import BatchCompiler.Proofs.Lowering.Containment
import BatchCompiler.Proofs.Script.Following

/-!
# Scripts do what their programs say

The rows of a script are read as the program says by row, but for one thing: a jump that leads into a
then part goes on with the else part. The script of a source does what its program does exactly when
none of the else parts that it gets into is seen.
-/

namespace BatchCompiler

open Meaning Target Script

variable {code : List Numbered}

/-- Where a run of a program starts: with its first statement, or after a label that is called. -/
inductive Entry where
  | start
  | label (name : String)

namespace Target

/-- What a run that starts there has to do; `spill` tells what a jump out of a then part goes on
with. -/
def codeAt? (spill : Bool) (p : Program) : Entry → Option (List Numbered)
  | .start => some (numbered 0 p)
  | .label name => after? spill name 0 p

theorem exists_codeAt?_true {p : Program} {entry : Entry} (h : codeAt? false p entry = some code) :
    ∃ code', codeAt? true p entry = some code' ∧ Spilled p code code' := by
  cases entry with
  | start =>
    cases h
    have hSpilled : Spilled p (numbered 0 p ++ []) (numbered 0 p ++ []) := spilled_append .nil _
    rw [List.append_nil] at hSpilled
    exact ⟨numbered 0 p, rfl, hSpilled⟩
  | label name => exact exists_after?_true h

theorem codeAt?_subset {spill : Bool} {p : Program} {entry : Entry}
    (h : codeAt? spill p entry = some code) : code ⊆ parts 0 p := by
  cases entry with
  | start =>
    cases h
    exact numbered_subset_parts 0 p
  | label name => exact after?_subset p h

section

variable {p : Program} {spill : Bool}

variable {code : List Numbered} {x : Numbered}

theorem mem_parts_of_observe {n : Nat} {o : Outcomes} (hCode : code ⊆ parts 0 p)
    {d : Deed Numbered Numbered} (hd : d ∈ (observe (moveNumbered spill p) n o code).1) :
    ∃ x ∈ parts 0 p, d = .act x ∨ d = .test x := by
  induction n generalizing o code with
  | zero => cases hd
  | succ n ih =>
    rw [observe] at hd
    split at hd
    · cases hd
    · next next hTurn =>
      refine ih ?_ hd
      rcases of_moveNumbered_go hTurn with ⟨x, rfl⟩ | ⟨row, label, rest, _, _, hFound⟩
      · exact (List.cons_subset.mp hCode).2
      · exact after?_subset p hFound
    · next x next hTurn =>
      obtain rfl := of_moveNumbered_act hTurn
      obtain ⟨hx, hRest⟩ := List.cons_subset.mp hCode
      rcases List.mem_cons.mp hd with rfl | hd
      · exact ⟨x, hx, .inl rfl⟩
      · exact ih hRest hd
    · next x yes no hTurn =>
      obtain ⟨rest, rfl⟩ := of_moveNumbered_test hTurn
      obtain ⟨hx, hRest⟩ := List.cons_subset.mp hCode
      rcases List.mem_cons.mp hd with rfl | hd
      · exact ⟨x, hx, .inr rfl⟩
      · refine ih ?_ hd
        have hInner := parts_subset_of_mem p hx
        obtain ⟨row, s⟩ := x
        cases s with
        | whenTrue c body =>
          cases hTurn
          have hBody := List.Subset.trans (numbered_subset_parts (row + 1) body)
            (List.Subset.trans (List.subset_cons_self _ _) hInner)
          split
          · exact List.append_subset.mpr ⟨hBody, hRest⟩
          · exact hRest
        | choose c thenBody elseBody =>
          cases hTurn
          obtain ⟨hThen, hElse⟩ :=
            List.append_subset.mp (List.Subset.trans (List.subset_cons_self _ _) hInner)
          split
          · exact List.append_subset.mpr
              ⟨List.Subset.trans (numbered_subset_parts _ _) hThen, hRest⟩
          · exact List.append_subset.mpr
              ⟨List.Subset.trans (numbered_subset_parts _ _) hElse, hRest⟩
        | jump label =>
          rcases moveNumbered_jump_cases spill p row label rest with hStop | ⟨after, hGo, -⟩
          · cases hStop.symm.trans hTurn
          · cases hGo.symm.trans hTurn
        | _ => cases hTurn

theorem mem_parts_of_shown {d : Deed Numbered Numbered} (hCode : code ⊆ parts 0 p)
    (h : Shown (moveNumbered spill p) code d) (hd : d = .act x ∨ d = .test x) : x ∈ parts 0 p := by
  obtain ⟨n, o, hMem⟩ := h
  obtain ⟨y, hy, hEq⟩ := mem_parts_of_observe hCode hMem
  obtain rfl : y = x := by
    rcases hd with rfl | rfl
    · simpa [eq_comm] using hEq
    · simpa [eq_comm] using hEq
  exact hy

end

end Target

namespace Script

def Reader.at? (script : List Row) : Entry → Option Reader
  | .start => some ⟨script, 0⟩
  | .label name => (afterRow? name.toList script).map fun rest => ⟨rest, 0⟩

def Performs (s : Stmt) (row : Row) : Prop :=
  ∃ bound, row.line = headLine bound s

def Tests (c : Comparison) (row : Row) : Prop :=
  ∃ s, s.condition? = some c ∧ Performs s row

section

variable {p : Program} {script : List Row}

theorem exists_reader (hp : Clean p) (hScript : script = rowsFrom 0 (linesOf 0 p ++ [[]]))
    {entry : Entry} (h : codeAt? true p entry = some code) :
    ∃ r, Reader.at? script entry = some r ∧
      SameDeeds Shows Shows (moveNumbered true p) (Reader.turn script) code r := by
  cases entry with
  | start =>
    cases h
    refine ⟨⟨script, 0⟩, rfl, ?_⟩
    have hFollows : Follows 0 0 (linesOf 0 p ++ [[]]) (numbered 0 p ++ []) :=
      follows_linesOf hp .done
    rw [List.append_nil] at hFollows
    have hSame := sameDeeds_of_follows hp hScript hFollows
    rwa [← hScript] at hSame
  | label name =>
    obtain ⟨m, rest, hRest, hFollows⟩ := exists_afterRow? hp hScript h
    refine ⟨⟨rowsFrom m rest, 0⟩, ?_, sameDeeds_of_follows hp hScript hFollows⟩
    rw [Reader.at?, hRest]
    rfl

theorem sameDeeds_reader_iff {entry : Entry} {code' : List Numbered} {r : Reader}
    (hCode : codeAt? false p entry = some code) (hCode' : codeAt? true p entry = some code')
    (hReader : SameDeeds Shows Shows (moveNumbered true p) (Reader.turn script) code' r) :
    SameDeeds Shows Shows (moveNumbered false p) (Reader.turn script) code r ↔
      SameRuns p code code' := by
  have hParts := codeAt?_subset hCode
  have hParts' := codeAt?_subset hCode'
  constructor
  · intro h
    refine (h.comp hReader.flip).imp_of_shown ?_ ?_
    · rintro x y hx hy ⟨row, ⟨hRow, _⟩, hRow', _⟩
      exact eq_of_row_eq (mem_parts_of_shown hParts hx (.inl rfl))
        (mem_parts_of_shown hParts' hy (.inl rfl)) (hRow.symm.trans hRow')
    · rintro x y hx hy ⟨row, ⟨hRow, _⟩, hRow', _⟩
      exact eq_of_row_eq (mem_parts_of_shown hParts hx (.inr rfl))
        (mem_parts_of_shown hParts' hy (.inr rfl)) (hRow.symm.trans hRow')
  · intro h
    refine (h.comp hReader).imp ?_ ?_
    all_goals
      rintro _ _ ⟨_, rfl, hShows⟩
      exact hShows

theorem sameDeeds_move {r : Reader}
    (h : SameDeeds Shows Shows (moveNumbered false p) (Reader.turn script) code r) :
    SameDeeds Performs Tests (move p) (Reader.turn script) (code.map Numbered.stmt) r := by
  refine ((sameDeeds_moveNumbered p code).flip.comp h).imp ?_ ?_
  · rintro _ row ⟨x, rfl, _, hLine⟩
    exact hLine
  · rintro c row ⟨x, hCond, _, hLine⟩
    exact ⟨x.stmt, hCond, hLine⟩

end

end Script

theorem Settings.lineEnding_eq (s : Settings) : s.lineEnding = "\n" ∨ s.lineEnding = "\r\n" := by
  unfold Settings.lineEnding
  split
  · exact .inr rfl
  · exact .inl rfl

theorem Compiled.laid {settings : Settings} {file : Int} {source : List Char}
    (b : Compiled settings file source) : ∃ k, Lowering.Laid 0 b.program k := by
  obtain ⟨regions, s, hRun, hProgram⟩ := Lowering.exists_run_of_lower_eq_ok b.lower_eq
  obtain ⟨T, F, k, hJoined, hTop, hFunctions⟩ := Lowering.assembled_of_lowerRegions hRun
  have hSetup : Lowering.Looped 0 Lowering.setup 0 := Lowering.looped_of_isPlain (by decide) 0
  rw [hProgram, hJoined]
  exact ⟨s.labels, .piece hSetup (.piece hTop hFunctions.laid)⟩

/-- If no text of a source breaks a line, and it calls no command that a line cannot call, then its
script does, row by row, what its program does exactly when no else part is seen that a jump into a
then part leads on to. It then shows the statements and the conditions of the program. -/
theorem compile_sameDeeds_iff {settings : Settings} {file : Int} {source : List Char}
    {root : Node} {p : Program} {script : String} {log log₁ log₂ log₃ : List Remark}
    (hProgram : (Stage.treeAndProgram settings file source).run log = (.ok (root, p), log₁))
    (hScript : (Stage.compile settings file source).run log₂ = (.ok script, log₃))
    (hPlain : root.EveryLeaf
      (Leaf.Plain (ScopeTable.declaredFunctions (ScopeTable.itemsOf root)))) :
    ∀ entry code, codeAt? false p entry = some code →
      ∃ code' r, codeAt? true p entry = some code' ∧ Reader.at? (rowsOf script) entry = some r ∧
        (SameDeeds Shows Shows (moveNumbered false p) (Reader.turn (rowsOf script)) code r ↔
          Unspilled p code code') ∧
        (Unspilled p code code' →
          SameDeeds Performs Tests (move p) (Reader.turn (rowsOf script))
            (code.map Numbered.stmt) r) := by
  obtain ⟨b, rfl, rfl, rfl⟩ := Stage.exists_compiled_of_runs hProgram hScript
  intro entry code hCode
  have hClean := Lowering.clean_program b hPlain
  have hRows := rowsOf_of_render b.parsed.settings.lineEnding_eq hClean b.render_eq
  obtain ⟨k, hLaid⟩ := b.laid
  obtain ⟨code', hCode', hSpilled⟩ := exists_codeAt?_true hCode
  obtain ⟨r, hr, hReader⟩ := exists_reader hClean hRows hCode'
  have hIff := (sameDeeds_reader_iff hCode hCode' hReader).trans
    (hLaid.contained.sameDeeds_iff hSpilled)
  exact ⟨code', r, hCode', hr, hIff, fun hUnspilled => sameDeeds_move (hIff.mpr hUnspilled)⟩

def spillSource : List Char :=
  "if (a) \x7b while (b) \x7b f(); \x7d \x7d else \x7b g(); \x7d".toList

def twoRounds : Outcomes := fun n => n < 2

theorem exists_program_spillSource :
    ∃ root p log, (Stage.treeAndProgram {} 0 spillSource).run [] = (.ok (root, p), log) ∧
      root.EveryLeaf (Leaf.Plain (ScopeTable.declaredFunctions (ScopeTable.itemsOf root))) ∧
      (observe (move p) 20 twoRounds p).1.length = 7 ∧
      (observe (move p) 20 twoRounds p).2 = true := by
  have hEval : ((Stage.treeAndProgram {} 0 spillSource).run []).1.toOption.map (fun x =>
      (decide (x.1.EveryLeaf (Leaf.Plain (ScopeTable.declaredFunctions (ScopeTable.itemsOf x.1)))),
        (observe (move x.2) 20 twoRounds x.2).1.length, (observe (move x.2) 20 twoRounds x.2).2)) =
      some (true, 7, true) := by decide +kernel
  obtain ⟨⟨root, p⟩, hSome, hEq⟩ := Option.map_eq_some_iff.mp hEval
  obtain ⟨log, hRun⟩ := Lowering.exists_run_of_toOption hSome
  obtain ⟨hPlain, hEq⟩ := Prod.mk.inj hEq
  obtain ⟨hLength, hStopped⟩ := Prod.mk.inj hEq
  exact ⟨root, p, log, hRun, of_decide_eq_true hPlain, hLength, hStopped⟩

theorem exists_script_spillSource :
    ∃ script log, (Stage.compile {} 0 spillSource).run [] = (.ok script, log) ∧
      (observe (Reader.turn (rowsOf script)) 20 twoRounds ⟨rowsOf script, 0⟩).1.length = 8 ∧
      (observe (Reader.turn (rowsOf script)) 20 twoRounds ⟨rowsOf script, 0⟩).2 = true := by
  have hEval : ((Stage.compile {} 0 spillSource).run []).1.toOption.map (fun script =>
      ((observe (Reader.turn (rowsOf script)) 20 twoRounds ⟨rowsOf script, 0⟩).1.length,
        (observe (Reader.turn (rowsOf script)) 20 twoRounds ⟨rowsOf script, 0⟩).2)) =
      some (8, true) := by decide +kernel
  obtain ⟨script, hSome, hEq⟩ := Option.map_eq_some_iff.mp hEval
  obtain ⟨log, hRun⟩ := Lowering.exists_run_of_toOption hSome
  obtain ⟨hLength, hStopped⟩ := Prod.mk.inj hEq
  exact ⟨script, log, hRun, hLength, hStopped⟩

theorem compile_sameDeeds_iff_spillSource :
    ∃ root p script log log', (Stage.treeAndProgram {} 0 spillSource).run [] = (.ok (root, p), log) ∧
      (Stage.compile {} 0 spillSource).run [] = (.ok script, log') ∧
      root.EveryLeaf (Leaf.Plain (ScopeTable.declaredFunctions (ScopeTable.itemsOf root))) ∧
      ∃ code' r, codeAt? true p .start = some code' ∧ Reader.at? (rowsOf script) .start = some r ∧
        (SameDeeds Shows Shows (moveNumbered false p) (Reader.turn (rowsOf script)) (numbered 0 p) r ↔
          Unspilled p (numbered 0 p) code') := by
  obtain ⟨root, p, log, hProgram, hPlain, _, _⟩ := exists_program_spillSource
  obtain ⟨script, log', hScript, _, _⟩ := exists_script_spillSource
  obtain ⟨code', r, hCode', hr, hIff, _⟩ :=
    compile_sameDeeds_iff hProgram hScript hPlain .start (numbered 0 p) rfl
  exact ⟨root, p, script, log, log', hProgram, hScript, hPlain, code', r, hCode', hr, hIff⟩

/-- After the loop, where the program has nothing more to do, the script runs the else part. -/
theorem not_sameDeeds_spillSource :
    ∃ root p script log log', (Stage.treeAndProgram {} 0 spillSource).run [] = (.ok (root, p), log) ∧
      (Stage.compile {} 0 spillSource).run [] = (.ok script, log') ∧
      root.EveryLeaf (Leaf.Plain (ScopeTable.declaredFunctions (ScopeTable.itemsOf root))) ∧
      ¬ SameDeeds Performs Tests (move p) (Reader.turn (rowsOf script)) p ⟨rowsOf script, 0⟩ := by
  obtain ⟨root, p, log, hProgram, hPlain, hLength, hStopped⟩ := exists_program_spillSource
  obtain ⟨script, log', hScript, hLength', hStopped'⟩ := exists_script_spillSource
  refine ⟨root, p, script, log, log', hProgram, hScript, hPlain, ?_⟩
  apply not_sameDeeds_of_length hStopped hStopped'
  rw [hLength, hLength']
  decide

end BatchCompiler
