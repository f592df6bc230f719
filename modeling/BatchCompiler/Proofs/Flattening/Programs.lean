import BatchCompiler.Proofs.Flattening.Settling
import BatchCompiler.Proofs.Flattening.Statements
import BatchCompiler.Proofs.Meaning.Rounds
import BatchCompiler.Proofs.Syntax.Parsing
import Mathlib

/-!
# Flattening programs

Flattening keeps the meaning of a program whose calls are statements. The statements at the top and
every function body end when the original ones do, with the same calls and the same returned value,
and in stores that differ in temporaries only.
-/

namespace BatchCompiler.Syntax.Flattening

open Meaning

def functionsOf (root : Node) : List Node :=
  (ScopeTable.itemsOf root).filter Node.isFunc

def topStatements (root : Node) : List Node :=
  (ScopeTable.itemsOf root).filter fun n => !n.isFunc

/-- For every meaning of operators and calls and every initial world, the statement lists both end
or both do not; if they do, then in the same way with the same calls, and the final stores are equal
on every name that is not set aside for temporaries. -/
def SameMeaning (original flat : List Node) : Prop :=
  ∀ I : Interpretation, I.lists = .together → CallsIgnoreTemporaries I → ∀ w : World,
    ((∃ r, Ends I original w r) ↔ ∃ r, Ends I flat w r) ∧
    ∀ exit v exit' v', Ends I original w (exit, v) → Ends I flat w (exit', v') →
      exit' = exit ∧ v'.events = v.events ∧ Agree v.store v'.store

inductive SameFunction : Node → Node → Prop where
  | func {span : Span} {name : String} {params : List Node} {body body' : Node}
    (h : SameMeaning [body] [body']) :
    SameFunction (.func span name params body) (.func span name params body')

theorem Matches.eq_of_some {x x' : Exit} {w w' : World}
    (h : Matches Alike (some (x, w)) (some (x', w'))) : x' = x ∧ Alike w w' := by
  cases h with
  | finished h | returned h => exact ⟨rfl, h⟩

theorem Matches.isSome_iff {R : World → World → Prop} {r r' : Result} (h : Matches R r r') :
    (∃ x, r = some x) ↔ ∃ x, r' = some x := by
  cases h <;> simp

theorem Mirrors.sameMeaning {original flat : List Node} (h : Mirrors original flat) :
    SameMeaning original flat := by
  intro I hLists hCalls w
  have hMatches (rounds : Nat) := h I hLists hCalls rounds w w ⟨Agree.refl _, rfl⟩
  constructor
  · constructor
    · rintro ⟨r, rounds, hr⟩
      obtain ⟨r', hr'⟩ := (hMatches rounds).isSome_iff.mp ⟨r, hr⟩
      exact ⟨r', rounds, hr'⟩
    · rintro ⟨r', rounds, hr'⟩
      obtain ⟨r, hr⟩ := (hMatches rounds).isSome_iff.mpr ⟨r', hr'⟩
      exact ⟨r, rounds, hr⟩
  · rintro exit v exit' v' ⟨rounds, hr⟩ hFlat
    obtain ⟨r', hr'⟩ := (hMatches rounds).isSome_iff.mp ⟨_, hr⟩
    obtain rfl : r' = (exit', v') := Ends.unique ⟨rounds, hr'⟩ hFlat
    have hEnd := hMatches rounds
    rw [hr, hr'] at hEnd
    obtain ⟨hExit, hAlike⟩ := hEnd.eq_of_some
    exact ⟨hExit, hAlike.events, hAlike.store⟩

theorem ItemsBecome.sameFunctions {ns out : List Node} (h : ItemsBecome ns out)
    (hns : ∀ n ∈ ns, n.isItem = true ∧ n.callsAreStatements = true) :
    List.Forall₂ SameFunction (ns.filter Node.isFunc) (out.filter Node.isFunc) := by
  induction h with
  | nil => exact .nil
  | func hBody _ ih =>
    obtain ⟨hn, hRest⟩ := List.forall_mem_cons.mp hns
    simp only [Node.isItem, Node.callsAreStatements, Bool.and_eq_true] at hn
    have hMirrors := hBody.mirrors (forall_bodyStatements (.inr ⟨hn.1.2, hn.2⟩))
    refine .cons (.func (Mirrors.sameMeaning fun I hLists hCalls rounds w w' hAlike => ?_)) (ih hRest)
    rw [execAll_singleton, execAll_singleton]
    exact hMirrors.gathered hLists hCalls rounds hAlike
  | statement hFunc hStmts _ ih =>
    rw [List.filter_append, (filter_stands (hStmts.stands (List.forall_mem_singleton.mpr hFunc))).2,
      List.nil_append, List.filter_cons_of_neg (by simp [hFunc])]
    exact ih (List.forall_mem_cons.mp hns).2

/-- Flattening a parsed program whose calls are statements succeeds and keeps its meaning. -/
theorem flatten_sameMeaning {settings : Settings} {tokens : List Token} {p : Parsed}
    {root : Node} {table : ScopeTable} (hParse : parse? settings tokens = some p)
    (hRoot : p.result = .ok root) (hCalls : root.callsAreStatements = true)
    (hTable : ScopeTable.build root = .ok table) :
    ∃ flat table', flatten table root = .ok (flat, table') ∧
      SameMeaning (topStatements root) (topStatements flat) ∧
      List.Forall₂ SameFunction (functionsOf root) (functionsOf flat) := by
  have hProgram := (formed_of_parse (N := fun _ => True) (fun _ _ _ => trivial) hParse hRoot).shape
  obtain ⟨span, ns, out, synthetic, table', rfl, hFlatten, hItems, -⟩ :=
    exists_itemsBecome hProgram (ScopeTable.mem_functionNames_of_build hTable)
  simp only [Node.isProgram, Bool.and_eq_true, List.all_eq_true] at hProgram
  rw [Node.callsAreStatements, Node.callsAreStatementsIn_iff] at hCalls
  refine ⟨_, _, hFlatten, Mirrors.sameMeaning (hItems.statements.mirrors fun n hn => ?_),
    hItems.sameFunctions fun n hn => ⟨hProgram.2 n hn, hCalls n hn⟩⟩
  obtain ⟨hMem, hFunc⟩ := List.mem_filter.mp hn
  exact ⟨isStatement_of_isItem (by simpa using hFunc) (hProgram.2 n hMem), hCalls n hMem⟩

def searchTree : Node :=
  .block {} [
    .loop {}
      (.binary {} .lt
        (.subscript {} (.ident {} "l") (.binary {} .plus (.ident {} "i") (.number {} 1)))
        (.ident {} "n"))
      (.assign {} (.ident {} "i") (.binary {} .plus (.ident {} "i") (.number {} 1))),
    .func {} "g" [.ident {} "x"]
      (.block {} [.ret {} (.binary {} .lt (.ident {} "x") (.number {} 1))] false)] true

def searchTokens : List Token :=
  [{ kind := .kwWhile }, { kind := .lparen }, { kind := .ident, value := "l" },
    { kind := .lbracket }, { kind := .ident, value := "i" }, { kind := .plus },
    { kind := .number, value := "1" }, { kind := .rbracket }, { kind := .lt },
    { kind := .ident, value := "n" }, { kind := .rparen }, { kind := .ident, value := "i" },
    { kind := .assign }, { kind := .ident, value := "i" }, { kind := .plus },
    { kind := .number, value := "1" }, { kind := .semi }, { kind := .kwFunc },
    { kind := .ident, value := "g" }, { kind := .lparen }, { kind := .ident, value := "x" },
    { kind := .rparen }, { kind := .lbrace }, { kind := .kwReturn },
    { kind := .ident, value := "x" }, { kind := .lt }, { kind := .number, value := "1" },
    { kind := .semi }, { kind := .rbrace }, { kind := .eof }]

theorem flatten_sameMeaning_search :
    (parse? {} searchTokens).map Parsed.result = some (.ok searchTree) ∧
    searchTree.callsAreStatements = true ∧
    ∃ table, ScopeTable.build searchTree = .ok table ∧
      ∃ flat table', flatten table searchTree = .ok (flat, table') ∧
        SameMeaning (topStatements searchTree) (topStatements flat) ∧
        List.Forall₂ SameFunction (functionsOf searchTree) (functionsOf flat) := by
  have hParse : (parse? {} searchTokens).map Parsed.result = some (.ok searchTree) := by cbv
  have hCalls : searchTree.callsAreStatements = true := by rfl
  obtain ⟨p, hp, hResult⟩ := Option.map_eq_some_iff.mp hParse
  have hTable : ∃ table, ScopeTable.build searchTree = .ok table := ⟨_, rfl⟩
  obtain ⟨table, hBuild⟩ := hTable
  exact ⟨hParse, hCalls, table, hBuild, flatten_sameMeaning hp hResult hCalls hBuild⟩

end BatchCompiler.Syntax.Flattening
