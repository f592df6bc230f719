import BatchCompiler.Proofs.Compilation.Ending
import BatchCompiler.Proofs.Flattening.Relabelling
import BatchCompiler.Proofs.Script.Outlines

/-!
# Compiling a source with other texts

Of two sources whose tokens differ only in their places and in what literals and comments say, both
have a script or none has. Their programs have one outline.
-/

namespace BatchCompiler

open Lowering Target

def SameButTexts (ts us : List Token) : Prop :=
  ts.map (Token.relabel .erasing) = us.map (Token.relabel .erasing)

instance (ts us : List Token) : Decidable (SameButTexts ts us) :=
  inferInstanceAs (Decidable (_ = _))

section

variable {settings : Settings}

theorem SameButTexts.exists_parse {ts us : List Token} (h : SameButTexts ts us) {p : Syntax.Parsed}
    {root : Node} (hParse : Syntax.parse? settings ts = some p) (hRoot : p.result = .ok root) :
    ∃ q root', Syntax.parse? settings us = some q ∧ q.result = .ok root' ∧
      q.settings = p.settings ∧ root'.relabel .erasing = root.relabel .erasing := by
  have hSame := Syntax.parse?_relabel settings us .erasing
  rw [← h, Syntax.parse?_relabel, hParse, Option.map_some] at hSame
  obtain ⟨q, hq, hEq⟩ := Option.map_eq_some_iff.mp hSame.symm
  have hSettings := congrArg Syntax.Parsed.settings hEq
  have hResult := congrArg Syntax.Parsed.result hEq
  simp only [Syntax.Parsed.relabel, hRoot] at hResult
  cases hRoot' : q.result with
  | error why =>
    rw [hRoot'] at hResult
    cases hResult
  | ok root' =>
    rw [hRoot'] at hResult
    exact ⟨q, root', hq, hRoot', hSettings, Except.ok.inj hResult⟩

variable {g : Relabel} {root root' : Node} {table table' : ScopeTable}

theorem exists_build_of_relabel (hShape : root.isProgram = true) (hShape' : root'.isProgram = true)
    (hRoot : root'.relabel g = root.relabel g) (h : ScopeTable.build root = .ok table) :
    ∃ table', ScopeTable.build root' = .ok table' ∧ table'.relabel g = table.relabel g := by
  have hItems := Syntax.Flattening.isItem_of_isProgram hShape
  have hSame := ScopeTable.build_relabel (Syntax.Flattening.isItem_of_isProgram hShape') g
  rw [hRoot, ScopeTable.build_relabel hItems, h] at hSame
  cases hBuild : ScopeTable.build root' with
  | error why =>
    rw [hBuild] at hSame
    cases hSame
  | ok table' =>
    rw [hBuild] at hSame
    exact ⟨table', rfl, (Except.ok.inj hSame).symm⟩

theorem exists_flatten?_of_relabel (hRoot : root'.relabel g = root.relabel g)
    (hTable : table'.relabel g = table.relabel g) {flat : Node} {flatTable : ScopeTable}
    (h : Stage.flatten? settings table root = .ok (flat, flatTable)) :
    ∃ flat' flatTable', Stage.flatten? settings table' root' = .ok (flat', flatTable') ∧
      flat'.relabel g = flat.relabel g ∧ flatTable'.relabel g = flatTable.relabel g := by
  unfold Stage.flatten? at h ⊢
  split at h
  · next hSplit =>
    have hSame := Syntax.flatten_relabel table' root' g
    rw [hRoot, hTable, Syntax.flatten_relabel, h] at hSame
    rw [if_pos hSplit]
    cases hFlat : Syntax.flatten table' root' with
    | error why =>
      rw [hFlat] at hSame
      cases hSame
    | ok r =>
      rw [hFlat] at hSame
      obtain ⟨hNode, hTable'⟩ := Prod.mk.inj (Except.ok.inj hSame)
      exact ⟨r.1, r.2, rfl, hNode.symm, hTable'.symm⟩
  · next hSplit =>
    cases h
    rw [if_neg hSplit]
    exact ⟨root', table', rfl, hRoot, hTable⟩

theorem exists_lower_of_relabel (hRoot : root'.relabel g = root.relabel g)
    (hTable : table'.relabel g = table.relabel g) {p : Program}
    (h : (lower settings table root).1 = .ok p) :
    ∃ p', (lower settings table' root').1 = .ok p' ∧ outline p = outline p' := by
  have hFirst := lower_relabel settings table root g
  have hSecond := lower_relabel settings table' root' g
  rw [hRoot, hTable] at hSecond
  exact SameResult.exists_eq_ok (hFirst.trans hSecond.symm) h

end

theorem Compiled.exists_of_sameButTexts {settings : Settings} {file file' : Int}
    {source source' : List Char} (b : Compiled settings file source)
    (hError : (Scanner.start settings file' source').tokens.2.error = none)
    (h : SameButTexts b.tokens (Scanner.start settings file' source').tokens.1) :
    ∃ b' : Compiled settings file' source', outline b'.program = outline b.program := by
  obtain ⟨parsed, root, hParse, hResult, hSettings, hRoot⟩ := h.exists_parse b.parse_eq b.result_eq
  obtain ⟨table, hBuild, hTable⟩ :=
    exists_build_of_relabel (Syntax.isProgram_of_parse b.parse_eq b.result_eq)
      (Syntax.isProgram_of_parse hParse hResult) hRoot b.build_eq
  obtain ⟨flat, flatTable, hFlatten, hFlat, hFlatTable⟩ :=
    exists_flatten?_of_relabel hRoot hTable b.flatten_eq
  obtain ⟨p, hLower, hOutline⟩ := exists_lower_of_relabel hFlat hFlatTable b.lower_eq
  obtain ⟨script, hRender⟩ := Script.exists_render_of_outline hOutline
    (Script.renders_of_lower hLower) b.render_eq
  rw [← hSettings] at hFlatten hLower hRender
  exact ⟨⟨_, parsed, root, table, flat, flatTable, p, script, rfl, hError, hParse, hResult, hBuild,
    hFlatten, hLower, hRender⟩, hOutline.symm⟩

section

variable {ε σ α β : Type}

theorem Gives.next {m : ExceptT ε (StateM σ) α} {k : α → ExceptT ε (StateM σ) β} {a : α}
    {R : β → Prop} {Q : ε → Prop} (hm : Gives m (· = a) Q) (hk : Gives (k a) R Q) :
    Gives (m >>= k) R Q := by
  apply Gives.bind
  intro s
  have hFirst := hm s
  split
  · next a' hRun =>
    rw [hRun] at hFirst
    obtain rfl : a' = a := hFirst
    exact hk
  · next e hRun =>
    rw [hRun] at hFirst
    exact hFirst

theorem Gives.run_eq {m : ExceptT ε (StateM σ) α} {a : α} (h : Gives m (· = a) fun _ => False)
    (s : σ) : (m.run s).1 = .ok a := by
  have hRun := h s
  split at hRun
  · next a' hOk => rw [hOk, hRun]
  · exact hRun.elim

end

namespace Compiled

variable {settings : Settings} {file : Int} {source : List Char} (b : Compiled settings file source)

theorem gives_tokens : Gives (Stage.tokens settings file source) (· = b.tokens) fun _ => False := by
  apply Stage.gives_tokens
  · intro d hd
    cases b.error_eq.symm.trans hd
  · intro _
    exact b.tokens_eq

theorem gives_tree : Gives (Stage.tree settings b.tokens) (· = (b.root, b.parsed.settings))
    fun _ => False := by
  unfold Stage.tree
  rw [b.parse_eq]
  apply gives_modify_bind
  rw [b.result_eq]
  exact gives_pure rfl

theorem gives_lowerTree : Gives (Stage.lowerTree b.parsed.settings b.root) (· = b.program)
    fun _ => False := by
  have hScopes : Gives (Stage.scopes b.root) (· = b.table) fun _ => False := by
    unfold Stage.scopes
    rw [b.build_eq]
    exact gives_pure rfl
  have hFlat : Gives (Stage.flatTreeIfEnabled b.parsed.settings b.table b.root)
      (· = (b.flat, b.flatTable)) fun _ => False := by
    have hFlatten := b.flatten_eq
    unfold Stage.flatten? at hFlatten
    unfold Stage.flatTreeIfEnabled Stage.flatTree
    split at hFlatten
    · next hSplit =>
      rw [if_pos hSplit, hFlatten]
      exact gives_pure rfl
    · next hSplit =>
      rw [if_neg hSplit]
      exact gives_pure (Except.ok.inj hFlatten)
  apply hScopes.next
  apply hFlat.next
  apply Stage.gives_target
  · intro why hWhy
    cases b.lower_eq.symm.trans hWhy
  · intro e he
    cases b.lower_eq.symm.trans he
  · intro p hp
    exact Except.ok.inj (hp.symm.trans b.lower_eq)

theorem run_treeAndProgram (log : List Remark) :
    ((Stage.treeAndProgram settings file source).run log).1 = .ok (b.root, b.program) := by
  refine Gives.run_eq ?_ log
  apply b.gives_tokens.next
  apply b.gives_tree.next
  apply b.gives_lowerTree.next
  exact gives_pure rfl

theorem run_compile (log : List Remark) :
    ((Stage.compile settings file source).run log).1 = .ok b.script := by
  refine Gives.run_eq ?_ log
  apply b.gives_tokens.next
  apply b.gives_tree.next
  apply b.gives_lowerTree.next
  unfold Stage.script
  rw [b.render_eq]
  exact gives_pure rfl

end Compiled

end BatchCompiler
