import BatchCompiler.Compilation
import BatchCompiler.Proofs.Lowering.Statements
import BatchCompiler.Proofs.Source.Names
import BatchCompiler.Proofs.Syntax.Parsing

/-!
# What a compilation goes through

A compilation that succeeds leaves behind a tree, its scopes, a flat tree, a target program and a
script, each made from the one before.
-/

namespace BatchCompiler

open Lowering

namespace Stage

/-- The flat tree and its scopes; a tree stays as it is where flattening is off. -/
def flatten? (settings : Settings) (table : ScopeTable) (root : Node) :
    Except Crash (Node × ScopeTable) :=
  if settings.feature .split then Syntax.flatten table root else .ok (root, table)

end Stage

structure Compiled (settings : Settings) (file : Int) (source : List Char) where
  tokens : List Token
  parsed : Syntax.Parsed
  root : Node
  table : ScopeTable
  flat : Node
  flatTable : ScopeTable
  program : Target.Program
  script : String
  tokens_eq : (Scanner.start settings file source).tokens.1 = tokens
  error_eq : (Scanner.start settings file source).tokens.2.error = none
  parse_eq : Syntax.parse? settings tokens = some parsed
  result_eq : parsed.result = .ok root
  build_eq : ScopeTable.build root = .ok table
  flatten_eq : Stage.flatten? parsed.settings table root = .ok (flat, flatTable)
  lower_eq : (lower parsed.settings flatTable flat).1 = .ok program
  render_eq : Script.render parsed.settings.lineEnding program = .ok script

namespace Stage

variable {settings : Settings} {file : Int} {source : List Char} {log log' : List Remark}
  {root : Node} {table : ScopeTable} {p : Target.Program}

theorem of_run_tokens {ts : List Token}
    (h : (tokens settings file source).run log = (.ok ts, log')) :
    (Scanner.start settings file source).tokens.1 = ts ∧
      (Scanner.start settings file source).tokens.2.error = none := by
  obtain ⟨u, log₁, _, h⟩ := exists_of_run_bind h
  split at h
  · cases h
  · next hError =>
    cases h
    exact ⟨rfl, hError⟩

theorem of_run_tree {settings' : Settings} {ts : List Token}
    (h : (tree settings ts).run log = (.ok (root, settings'), log')) :
    ∃ p, Syntax.parse? settings ts = some p ∧ p.result = .ok root ∧ p.settings = settings' := by
  unfold tree at h
  split at h
  · cases h
  · next p hp =>
    obtain ⟨u, log₁, _, h⟩ := exists_of_run_bind h
    split at h
    · next root' hRoot =>
      cases h
      exact ⟨p, hp, hRoot, rfl⟩
    · cases h

theorem formed_of_tokens {ts : List Token} {parsed : Syntax.Parsed}
    (hTokens : (Scanner.start settings file source).tokens.1 = ts)
    (hParse : Syntax.parse? settings ts = some parsed) (hRoot : parsed.result = .ok root) :
    Syntax.Formed Node.isProgram IsName root := by
  subst hTokens
  exact Syntax.formed_of_parse (fun t => Scanner.isName_of_mem_tokens) hParse hRoot

theorem of_run_scopes (h : (scopes root).run log = (.ok table, log')) :
    ScopeTable.build root = .ok table := by
  unfold scopes at h
  split at h
  · next t ht =>
    cases h
    exact ht
  · cases h
  · cases h

theorem of_run_flatTreeIfEnabled {r : Node × ScopeTable}
    (h : (flatTreeIfEnabled settings table root).run log = (.ok r, log')) :
    flatten? settings table root = .ok r := by
  unfold flatTreeIfEnabled at h
  unfold flatten?
  split at h
  · next hSplit =>
    rw [if_pos hSplit]
    unfold flatTree at h
    split at h
    · next r' hr' =>
      cases h
      exact hr'
    · cases h
  · next hSplit =>
    cases h
    rw [if_neg hSplit]

theorem of_run_target (h : (target settings table root).run log = (.ok p, log')) :
    (lower settings table root).1 = .ok p := by
  unfold target at h
  obtain ⟨u, log₁, _, h⟩ := exists_of_run_bind h
  split at h
  · next p' hp' =>
    cases h
    exact hp'
  · cases h
  · cases h

theorem of_run_lowerTree (h : (lowerTree settings root).run log = (.ok p, log')) :
    ∃ table flat flatTable, ScopeTable.build root = .ok table ∧
      flatten? settings table root = .ok (flat, flatTable) ∧
      (lower settings flatTable flat).1 = .ok p ∧
      log' = log ++ (lower settings flatTable flat).2 := by
  obtain ⟨table, log₁, hScopes, h₁⟩ := exists_of_run_bind h
  obtain ⟨⟨flat, flatTable⟩, log₂, hFlat, h₂⟩ := exists_of_run_bind h₁
  refine ⟨table, flat, flatTable, of_run_scopes hScopes,
    of_run_flatTreeIfEnabled hFlat, of_run_target h₂, ?_⟩
  have hLog₁ : log₁ = log := by
    unfold scopes at hScopes
    split at hScopes <;> cases hScopes
    rfl
  have hLog₂ : log₂ = log₁ := by
    unfold flatTreeIfEnabled flatTree at hFlat
    split at hFlat
    · split at hFlat <;> cases hFlat
      rfl
    · cases hFlat
      rfl
  obtain ⟨_, log₃, ⟨⟩, h₃⟩ := exists_of_run_bind h₂
  split at h₃ <;> cases h₃
  rw [hLog₂, hLog₁]
  rfl

def treeAndProgram (settings : Settings) (file : Int) (source : List Char) :
    Stage (Node × Target.Program) := do
  let ts ← tokens settings file source
  let (root, settings) ← tree settings ts
  let p ← lowerTree settings root
  pure (root, p)

structure Reached (settings : Settings) (file : Int) (source : List Char) (root : Node)
    (p : Target.Program) where
  tokens : List Token
  parsed : Syntax.Parsed
  table : ScopeTable
  flat : Node
  flatTable : ScopeTable
  tokens_eq : (Scanner.start settings file source).tokens.1 = tokens
  parse_eq : Syntax.parse? settings tokens = some parsed
  result_eq : parsed.result = .ok root
  build_eq : ScopeTable.build root = .ok table
  flatten_eq : flatten? parsed.settings table root = .ok (flat, flatTable)
  lower_eq : (lower parsed.settings flatTable flat).1 = .ok p

theorem reached_of_run (h : (treeAndProgram settings file source).run log = (.ok (root, p), log')) :
    Nonempty (Reached settings file source root p) := by
  obtain ⟨ts, log₁, hTokens, h₁⟩ := exists_of_run_bind h
  obtain ⟨⟨root', settings'⟩, log₂, hTree, h₂⟩ := exists_of_run_bind h₁
  obtain ⟨p', log₃, hLower, h₃⟩ := exists_of_run_bind h₂
  cases h₃
  obtain ⟨table, flat, flatTable, hBuild, hFlat, hProgram, -⟩ := of_run_lowerTree hLower
  obtain ⟨parsed, hParse, hResult, rfl⟩ := of_run_tree hTree
  exact ⟨⟨ts, parsed, table, flat, flatTable, (of_run_tokens hTokens).1, hParse, hResult, hBuild,
    hFlat, hProgram⟩⟩

theorem exists_compiled {script : String}
    (h : (compile settings file source).run log = (.ok script, log')) :
    ∃ c : Compiled settings file source, c.script = script := by
  obtain ⟨ts, log₁, hTokens, h₁⟩ := exists_of_run_bind h
  obtain ⟨⟨root, settings'⟩, log₂, hTree, h₂⟩ := exists_of_run_bind h₁
  obtain ⟨p, log₃, hLower, h₃⟩ := exists_of_run_bind h₂
  obtain ⟨table, flat, flatTable, hBuild, hFlat, hProgram, -⟩ := of_run_lowerTree hLower
  obtain ⟨parsed, hParse, hResult, rfl⟩ := of_run_tree hTree
  have hScript : Script.render parsed.settings.lineEnding p = .ok script := by
    unfold Stage.script at h₃
    split at h₃
    · next text hText =>
      cases h₃
      exact hText
    · cases h₃
  obtain ⟨hScanned, hError⟩ := of_run_tokens hTokens
  exact ⟨⟨ts, parsed, root, table, flat, flatTable, p, script, hScanned, hError, hParse, hResult,
    hBuild, hFlat, hProgram, hScript⟩, rfl⟩

theorem exists_compiled_of_runs {script : String} {log₁ log₂ log₃ : List Remark}
    (hTree : (treeAndProgram settings file source).run log = (.ok (root, p), log₁))
    (h : (compile settings file source).run log₂ = (.ok script, log₃)) :
    ∃ b : Compiled settings file source, b.root = root ∧ b.program = p ∧ b.script = script := by
  obtain ⟨r⟩ := reached_of_run hTree
  obtain ⟨b, rfl⟩ := exists_compiled h
  have hTokens := b.tokens_eq.symm.trans r.tokens_eq
  have hParse := b.parse_eq
  rw [hTokens, r.parse_eq] at hParse
  have hParsed : r.parsed = b.parsed := Option.some.inj hParse
  have hRoot : root = b.root := Except.ok.inj (r.result_eq.symm.trans (hParsed ▸ b.result_eq))
  subst hRoot
  have hTable : r.table = b.table := Except.ok.inj (r.build_eq.symm.trans b.build_eq)
  have hFlatten := r.flatten_eq
  rw [hParsed, hTable, b.flatten_eq] at hFlatten
  obtain ⟨hFlat, hFlatTable⟩ := Prod.mk.inj (Except.ok.inj hFlatten)
  have hLower := r.lower_eq
  rw [hParsed, ← hFlat, ← hFlatTable, b.lower_eq] at hLower
  exact ⟨b, rfl, Except.ok.inj hLower, rfl⟩

end Stage

end BatchCompiler
