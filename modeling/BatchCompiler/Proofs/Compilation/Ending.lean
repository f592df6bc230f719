import BatchCompiler.Command.Job
import BatchCompiler.Proofs.Lowering.Rejection
import BatchCompiler.Proofs.Scope.Building
import BatchCompiler.Proofs.Script.Rendering
import BatchCompiler.Proofs.Syntax.Reading

/-!
# Compilation ends with an answer

Every stage relies on the shape of what the stage before it made. Scanned tokens end with an end of
file, a tree that parses is a program, the scopes of a program hold its functions, and lowering makes
no incomplete statement. So no stage meets a missing part, and what a compilation comes to is a
script, a complaint about the source, or a lack of loop variables.
-/

namespace BatchCompiler

open Lowering

section

variable {ε σ α β : Type}

/-- However it is started, the computation gives a result or an error of a certain kind. -/
def Gives (m : ExceptT ε (StateM σ) α) (P : α → Prop) (Q : ε → Prop) : Prop :=
  ∀ s, match (m.run s).1 with
    | .ok a => P a
    | .error e => Q e

variable {P : α → Prop} {R : β → Prop} {Q : ε → Prop}

theorem gives_pure {a : α} (h : P a) : Gives (pure a : ExceptT ε (StateM σ) α) P Q :=
  fun _ => h

theorem gives_throw {e : ε} (h : Q e) : Gives (throw e : ExceptT ε (StateM σ) α) P Q :=
  fun _ => h

theorem Gives.bind {m : ExceptT ε (StateM σ) α} {k : α → ExceptT ε (StateM σ) β}
    (h : Gives m (fun a => Gives (k a) R Q) Q) : Gives (m >>= k) R Q := by
  intro s
  have hFirst := h s
  have hRun : (m >>= k).run s = ExceptT.bindCont k (m.run s).1 (m.run s).2 := rfl
  rw [hRun]
  rcases hm : m.run s with ⟨r, s₁⟩
  rw [hm] at hFirst
  cases r with
  | error e => exact hFirst
  | ok a => exact hFirst s₁

theorem gives_modify_bind {f : σ → σ} {k : PUnit → ExceptT ε (StateM σ) β}
    (h : Gives (k ⟨⟩) R Q) : Gives (modify f >>= k) R Q :=
  fun s => h (f s)

end

structure Terminated (ts : List Token) : Prop where
  last : ∃ last, ts.getLast? = some last ∧ last.kind = .eof
  names : ∀ t ∈ ts, t.kind = .ident → t.value ≠ ""

theorem Scanner.exists_getLast?_tokensWithin (fuel : Nat) (s : Scanner) :
    ∃ last, (tokensWithin fuel s).1.getLast? = some last ∧ last.kind = .eof := by
  induction fuel generalizing s with
  | zero => exact ⟨s.eofToken, rfl, rfl⟩
  | succ fuel ih =>
    rw [tokensWithin]
    simp only
    split
    · next hKind => exact ⟨_, rfl, hKind⟩
    · obtain ⟨last, hLast, hKind⟩ := ih (s.nextWithin (fuel + 1)).2
      refine ⟨last, ?_, hKind⟩
      rw [List.getLast?_cons, hLast]
      rfl

theorem terminated_tokens (s : Scanner) : Terminated s.tokens.1 :=
  ⟨s.exists_getLast?_tokensWithin _, fun _ => value_ne_of_mem_tokens⟩

abbrev IsSource (root : Node) : Prop := Syntax.Formed Node.isProgram (· ≠ "") root

namespace Stage

variable {settings : Settings} {Q : Failure → Prop}

theorem gives_tokens {file : Int} {source : List Char} {P : List Token → Prop}
    (hError : ∀ d, (Scanner.start settings file source).tokens.2.error = some d → Q (.diagnostic d))
    (hOk : (Scanner.start settings file source).tokens.2.error = none →
      P (Scanner.start settings file source).tokens.1) :
    Gives (tokens settings file source) P Q := by
  apply gives_modify_bind
  split
  · next d hd => exact gives_throw (hError d hd)
  · next hNone => exact gives_pure (hOk hNone)

theorem gives_tree {ts : List Token} (hTokens : Terminated ts) {P : Node × Settings → Prop}
    (hRejected : ∀ p span problem, Syntax.parse? settings ts = some p →
      p.result = .error (.rejected span problem) →
      Q (.diagnostic { span := span, message := problem.message }))
    (hOk : ∀ p root, Syntax.parse? settings ts = some p → p.result = .ok root → IsSource root →
      P (root, p.settings)) : Gives (tree settings ts) P Q := by
  obtain ⟨last, hLast, hKind⟩ := hTokens.last
  obtain ⟨p, hParse, hEnds⟩ := Syntax.exists_parse?_halts settings hLast hKind
  unfold tree
  rw [hParse]
  apply gives_modify_bind
  rcases hEnds with ⟨root, hRoot⟩ | ⟨span, problem, hStop⟩
  · rw [hRoot]
    exact gives_pure (hOk p root hParse hRoot (Syntax.formed_of_parse hTokens.names hParse hRoot))
  · rw [hStop]
    exact gives_throw (hRejected p span problem hParse hStop)

theorem gives_scopes {root : Node} (hRoot : IsSource root) {P : ScopeTable → Prop}
    (hRejected : ∀ span problem, ScopeTable.build root = .error (.rejected span problem) →
      Q (.diagnostic { span := span, message := problem.message }))
    (hOk : ∀ table, ScopeTable.build root = .ok table → P table) : Gives (scopes root) P Q := by
  have hItems := Syntax.Flattening.isItem_of_isProgram hRoot.shape
  unfold scopes
  rcases ScopeTable.build_ends hItems with ⟨table, hBuild⟩ | ⟨span, problem, hBuild⟩
  · rw [hBuild]
    exact gives_pure (hOk table hBuild)
  · rw [hBuild]
    exact gives_throw (hRejected span problem hBuild)

theorem exists_flatten?_lower_ne_crash (settings : Settings) {root : Node} {table : ScopeTable}
    (hRoot : IsSource root) (hBuild : ScopeTable.build root = .ok table) :
    ∃ flat flatTable, flatten? settings table root = .ok (flat, flatTable) ∧
      ∀ why, (lower settings flatTable flat).1 ≠ .error (.crash why) := by
  obtain ⟨flat, flatTable, hFlatten, hReports⟩ :=
    exists_flatten?_eq settings hRoot.shape (isDeclared_of_build hRoot hBuild)
  refine ⟨flat, flatTable, hFlatten, fun why hCrash => ?_⟩
  have hHead : (faultsOf settings root).head? = some (Lowering.Failure.crash why).fault := by
    rw [← hReports, hCrash]
    rfl
  cases ordinary_faultsOf settings hRoot.shape _ (List.mem_of_head? hHead)

theorem gives_flatTreeIfEnabled {root : Node} {table : ScopeTable} (hRoot : IsSource root)
    (hBuild : ScopeTable.build root = .ok table) {P : Node × ScopeTable → Prop}
    (hOk : ∀ flat flatTable, flatten? settings table root = .ok (flat, flatTable) →
      (∀ why, (lower settings flatTable flat).1 ≠ .error (.crash why)) → P (flat, flatTable)) :
    Gives (flatTreeIfEnabled settings table root) P Q := by
  obtain ⟨flat, flatTable, hFlatten, hLower⟩ :=
    exists_flatten?_lower_ne_crash settings hRoot hBuild
  have hFlat := hOk flat flatTable hFlatten hLower
  unfold flatten? at hFlatten
  unfold flatTreeIfEnabled
  split
  · next hSplit =>
    rw [if_pos hSplit] at hFlatten
    rw [flatTree, hFlatten]
    exact gives_pure hFlat
  · next hSplit =>
    rw [if_neg hSplit] at hFlatten
    rw [Except.ok.inj hFlatten]
    exact gives_pure hFlat

theorem gives_target {flat : Node} {flatTable : ScopeTable}
    (hCrash : ∀ why, (lower settings flatTable flat).1 ≠ .error (.crash why))
    {P : Target.Program → Prop}
    (hRejected : ∀ e, (lower settings flatTable flat).1 = .error (.rejected e) → Q (.lowering e))
    (hOk : ∀ p, (lower settings flatTable flat).1 = .ok p → P p) :
    Gives (target settings flatTable flat) P Q := by
  apply gives_modify_bind
  split
  · next p hp => exact gives_pure (hOk p hp)
  · next e he => exact gives_throw (hRejected e he)
  · next why hWhy => exact absurd hWhy (hCrash why)

theorem gives_script {p : Target.Program} (hp : Script.Renders p) {P : String → Prop}
    (hLimit : Script.render settings.lineEnding p = .error .tooManyIndices →
      Q (.rendering .tooManyIndices))
    (hOk : ∀ text, Script.render settings.lineEnding p = .ok text → P text) :
    Gives (script settings p) P Q := by
  unfold script
  rcases hp.render settings.lineEnding with ⟨text, hText⟩ | hOver
  · rw [hText]
    exact gives_pure (hOk text hText)
  · rw [hOver]
    exact gives_throw (hLimit hOver)

end Stage

/-- How a compilation ends: at which stage, and with what. -/
inductive Ended (settings : Settings) (file : Int) (source : List Char) :
    Except Failure String → Prop where
  | unscanned {d : Diagnostic}
      (hScan : (Scanner.start settings file source).tokens.2.error = some d) :
      Ended settings file source (.error (.diagnostic d))
  | unparsed {parsed : Syntax.Parsed} {span : Span} {problem : SyntaxProblem}
      (hScan : (Scanner.start settings file source).tokens.2.error = none)
      (hParse : Syntax.parse? settings (Scanner.start settings file source).tokens.1 = some parsed)
      (hResult : parsed.result = .error (.rejected span problem)) :
      Ended settings file source (.error (.diagnostic { span := span, message := problem.message }))
  | undeclared {parsed : Syntax.Parsed} {root : Node} {span : Span}
      {problem : ScopeTable.DeclarationProblem}
      (hScan : (Scanner.start settings file source).tokens.2.error = none)
      (hParse : Syntax.parse? settings (Scanner.start settings file source).tokens.1 = some parsed)
      (hResult : parsed.result = .ok root)
      (hBuild : ScopeTable.build root = .error (.rejected span problem)) :
      Ended settings file source (.error (.diagnostic { span := span, message := problem.message }))
  | unlowered {parsed : Syntax.Parsed} {root flat : Node} {table flatTable : ScopeTable}
      {e : Lowering.Error}
      (hScan : (Scanner.start settings file source).tokens.2.error = none)
      (hParse : Syntax.parse? settings (Scanner.start settings file source).tokens.1 = some parsed)
      (hResult : parsed.result = .ok root) (hBuild : ScopeTable.build root = .ok table)
      (hFlatten : Stage.flatten? parsed.settings table root = .ok (flat, flatTable))
      (hLower : (lower parsed.settings flatTable flat).1 = .error (.rejected e)) :
      Ended settings file source (.error (.lowering e))
  | unrendered {parsed : Syntax.Parsed} {root flat : Node} {table flatTable : ScopeTable}
      {p : Target.Program}
      (hScan : (Scanner.start settings file source).tokens.2.error = none)
      (hParse : Syntax.parse? settings (Scanner.start settings file source).tokens.1 = some parsed)
      (hResult : parsed.result = .ok root) (hBuild : ScopeTable.build root = .ok table)
      (hFlatten : Stage.flatten? parsed.settings table root = .ok (flat, flatTable))
      (hLower : (lower parsed.settings flatTable flat).1 = .ok p)
      (hRender : Script.render parsed.settings.lineEnding p = .error .tooManyIndices) :
      Ended settings file source (.error (.rendering .tooManyIndices))
  | compiled (c : Compiled settings file source) : Ended settings file source (.ok c.script)

theorem gives_compile (settings : Settings) (file : Int) (source : List Char) :
    Gives (Stage.compile settings file source) (fun text => Ended settings file source (.ok text))
      fun f => Ended settings file source (.error f) := by
  apply Gives.bind
  apply Stage.gives_tokens
  · intro d hScan
    exact .unscanned hScan
  intro hScan
  apply Gives.bind
  apply Stage.gives_tree (terminated_tokens _)
  · intro p span problem hParse hStop
    exact .unparsed hScan hParse hStop
  intro p root hParse hRoot hSource
  apply Gives.bind
  apply Gives.bind
  apply Stage.gives_scopes hSource
  · intro span problem hBuild
    exact .undeclared hScan hParse hRoot hBuild
  intro table hBuild
  apply Gives.bind
  apply Stage.gives_flatTreeIfEnabled hSource hBuild
  intro flat flatTable hFlatten hCrash
  apply Stage.gives_target hCrash
  · intro e hLower
    exact .unlowered hScan hParse hRoot hBuild hFlatten hLower
  intro program hLower
  apply Stage.gives_script (Script.renders_of_lower hLower)
  · intro hRender
    exact .unrendered hScan hParse hRoot hBuild hFlatten hLower hRender
  · intro text hRender
    exact .compiled ⟨_, p, root, table, flat, flatTable, program, text, rfl, hScan, hParse, hRoot,
      hBuild, hFlatten, hLower, hRender⟩

namespace Command

/-- The failures that tell of the source or of a limit of scripts, not of the compiler. -/
inductive IsAnswer : Failure → Prop where
  | diagnostic (d : Diagnostic) : IsAnswer (.diagnostic d)
  | lowering (e : Lowering.Error) : IsAnswer (.lowering e)
  | limit : IsAnswer (.rendering .tooManyIndices)

inductive Abort.IsAnswer : Abort → Prop where
  | noInput : Abort.IsAnswer .noInput
  | unreadable (path : String) (why : Files.FileError) : Abort.IsAnswer (.unreadable path why)
  | failure {f : Failure} (h : Command.IsAnswer f) : Abort.IsAnswer (.failure f)

inductive Job.Ended : Except Abort Product → Prop where
  | done (p : Product) : Job.Ended (.ok p)
  | aborted {a : Abort} (h : a.IsAnswer) : Job.Ended (.error a)

theorem scanFrom_ends (settings : Settings) (index : Nat) (inputs : List Input) :
    (∃ ts, (scanFrom settings index inputs).result = .ok ts ∧
      ∀ t ∈ ts, t.kind = .ident → t.value ≠ "") ∨
    ∃ a, (scanFrom settings index inputs).result = .error a ∧ a.IsAnswer := by
  induction inputs generalizing index with
  | nil => exact .inl ⟨[], rfl, List.forall_mem_nil _⟩
  | cons i rest ih =>
    rw [scanFrom]
    split
    · exact .inr ⟨_, rfl, .unreadable _ _⟩
    · dsimp only
      split
      · exact .inr ⟨_, rfl, .failure (.diagnostic _)⟩
      · rcases ih (index + 1) with ⟨more, hMore, hNames⟩ | ⟨a, ha, hAnswer⟩
        · refine .inl ⟨_, congrArg (Except.map _) hMore, ?_⟩
          intro t ht hKind
          rcases List.mem_append.mp ht with hFirst | hLast
          · exact value_ne_of_mem_tokens (List.mem_filter.mp hFirst).1 hKind
          · exact hNames t hLast hKind
        · exact .inr ⟨a, congrArg (Except.map _) ha, hAnswer⟩

theorem scan_ends (settings : Settings) (inputs : List Input) :
    (∃ ts, (scan settings inputs).result = .ok ts ∧ Terminated ts) ∨
    ∃ a, (scan settings inputs).result = .error a ∧ a.IsAnswer := by
  rcases scanFrom_ends settings 0 inputs with ⟨ts, hScan, hNames⟩ | ⟨a, ha, hAnswer⟩
  · refine .inl ⟨_, congrArg (Except.map _) hScan, ⟨finalToken inputs, ?_, rfl⟩, ?_⟩
    · exact List.getLast?_concat
    · intro t ht hKind
      rcases List.mem_append.mp ht with hFirst | hLast
      · exact hNames t hFirst hKind
      · rw [List.mem_singleton.mp hLast] at hKind
        cases hKind
  · exact .inr ⟨a, congrArg (Except.map _) ha, hAnswer⟩

theorem gives_stage {α : Type} {files : Sources} {m : Stage α} {P : α → Prop} {Q : Abort → Prop}
    (h : Gives m P fun f => Q (.failure f)) : Gives (Session.stage files m) P Q := by
  have hRun := h []
  unfold Session.stage
  rcases hEq : m.run [] with ⟨r, remarks⟩
  rw [hEq] at hRun
  apply gives_modify_bind
  cases r with
  | error f => exact gives_throw hRun
  | ok a => exact gives_pure hRun

theorem gives_log_bind {β : Type} {j : Job} {line : String} {k : Unit → Session β} {R : β → Prop}
    {Q : Abort → Prop} (h : Gives (k ()) R Q) : Gives (j.log line >>= k) R Q := by
  unfold Job.log
  split
  · exact gives_modify_bind h
  · exact h

theorem gives_log_if {β : Type} {j : Job} {line : String} {c : Prop} [Decidable c] {m : Session β}
    {R : β → Prop} {Q : Abort → Prop} (h : Gives m R Q) :
    Gives (if c then j.log line >>= fun _ => m else m) R Q := by
  split
  · exact gives_log_bind h
  · exact h

theorem gives_job (j : Job) (inputs : List Input) :
    Gives (j.compile inputs) (fun _ => True) Abort.IsAnswer := by
  unfold Job.compile
  dsimp only
  split
  · exact gives_throw .noInput
  apply gives_log_bind
  apply gives_modify_bind
  rcases scan_ends (settingsOfPass j.settings inputs) inputs with
    ⟨ts, hScan, hTokens⟩ | ⟨a, hScan, hAnswer⟩
  · rw [hScan]
    apply gives_log_bind
    apply Gives.bind
    apply gives_stage
    apply Stage.gives_tree hTokens
    · intro p span problem _ _
      exact .failure (.diagnostic _)
    intro p root _ _ hSource
    apply gives_log_bind
    apply Gives.bind
    apply gives_stage
    apply Stage.gives_scopes hSource
    · intro span problem _
      exact .failure (.diagnostic _)
    intro table hBuild
    apply gives_log_if
    apply Gives.bind
    apply gives_stage
    apply Stage.gives_flatTreeIfEnabled hSource hBuild
    intro flat flatTable _ hCrash
    split
    · exact gives_pure trivial
    apply gives_log_bind
    apply Gives.bind
    apply gives_stage
    apply Stage.gives_target hCrash
    · intro e _
      exact .failure (.lowering e)
    intro program hLower
    split
    · exact gives_pure trivial
    apply gives_log_bind
    apply Gives.bind
    apply gives_stage
    apply Stage.gives_script (Script.renders_of_lower hLower)
    · intro _
      exact .failure .limit
    intro text _
    split
    · exact gives_log_bind (gives_pure trivial)
    · exact gives_log_bind (gives_pure trivial)
  · rw [hScan]
    exact gives_throw hAnswer

end Command

/-- Whatever the bytes of a source and the flags, compilation ends at one of its stages with what
that stage can say, and so does a job over any files of any names: none of them crashes. -/
theorem compile_ends (settings : Settings) (flags : List String) :
    (∀ file bytes log, Ended (settings.applyNames flags) file (Text.decodeUtf8 bytes)
      ((Stage.compile (settings.applyNames flags) file (Text.decodeUtf8 bytes)).run log).1) ∧
    ∀ (j : Command.Job) inputs log, Command.Job.Ended
      ((({ j with settings := settings.applyNames flags }).compile inputs).run log).1 := by
  constructor
  · intro file bytes log
    have hEnds := gives_compile (settings.applyNames flags) file (Text.decodeUtf8 bytes) log
    revert hEnds
    cases ((Stage.compile _ file (Text.decodeUtf8 bytes)).run log).1 with
    | ok text => exact id
    | error f => exact id
  · intro j inputs log
    have hEnds := Command.gives_job { j with settings := settings.applyNames flags } inputs log
    revert hEnds
    cases ((Command.Job.compile _ inputs).run log).1 with
    | ok p => exact fun _ => .done p
    | error a => exact fun hAnswer => .aborted hAnswer

end BatchCompiler
