import BatchCompiler.Proofs.Lowering.Skeleton
import BatchCompiler.Proofs.Script.Rows

/-!
# What the parameters of a function receive

A called function copies its arguments into its frame, one line for each parameter. A line is expanded
before it runs, and a percent sign with a tilde takes one digit: the argument of that number. A
parameter whose slot has more digits receives an earlier argument with the other digits behind it.
-/

namespace BatchCompiler.ScopeTable

variable {params : List Node} {t : ScopeTable} {span : Span} {name x : String} {body : Node}
  {names : List String}

theorem nodup_of_addParameters {function : String} {s s' : Scope}
    (h : addParameters function s params = .ok s')
    (hNames : Lowering.parameterNames params = .ok names) :
    names.Nodup ∧ ∀ x ∈ names, s.find? x = none := by
  induction params generalizing s names with
  | nil =>
    cases hNames
    exact ⟨List.nodup_nil, List.forall_mem_nil _⟩
  | cons n rest ih =>
    cases n with
    | ident span x =>
      obtain ⟨others, hOthers, hPure⟩ := Lowering.exists_of_bind_eq_ok hNames
      cases hPure
      rw [addParameters] at h
      split at h
      · cases h
      · next hFree =>
        have hNone : s.find? x = none := Option.not_isSome_iff_eq_none.mp hFree
        obtain ⟨hNodup, hAbsent⟩ := ih h hOthers
        rw [Scope.declare, hNone] at hAbsent
        have hRest : ∀ y ∈ others, x ≠ y ∧ s.find? y = none := by
          intro y hy
          have hy := hAbsent y hy
          rw [Scope.find?, List.find?_cons] at hy
          split at hy
          · cases hy
          · next hne => exact ⟨by simpa using hne, hy⟩
        refine ⟨List.nodup_cons.mpr ⟨fun hx => (hRest x hx).1 rfl, hNodup⟩, ?_⟩
        exact List.forall_mem_cons.mpr ⟨hNone, fun y hy => (hRest y hy).2⟩
    | _ => cases hNames

theorem exists_addParameters {t' : ScopeTable} {items : List Node}
    (h : addFunctions t items = .ok t') (hMem : .func span name params body ∈ items) :
    ∃ s, addParameters name { name := name } params = .ok s := by
  induction items generalizing t with
  | nil => cases hMem
  | cons n rest ih =>
    rcases List.mem_cons.mp hMem with rfl | hRest
    · rw [addFunctions] at h
      split at h
      · cases h
      split at h
      · cases h
      · next s hs => exact ⟨s, hs⟩
    · cases n with
      | absent => cases h
      | func =>
        rw [addFunctions] at h
        split at h
        · cases h
        split at h
        · cases h
        · exact ih h hRest
      | _ => exact ih h hRest

theorem nodup_parameters {root : Node} (h : build root = .ok t)
    (hMem : .func span name params body ∈ itemsOf root)
    (hNames : Lowering.parameterNames params = .ok names) : names.Nodup := by
  unfold build at h
  split at h
  · cases h
  · next t₁ hFunctions =>
    obtain ⟨s, hs⟩ := exists_addParameters hFunctions hMem
    exact (nodup_of_addParameters hs hNames).1

end BatchCompiler.ScopeTable

namespace BatchCompiler.Script

open Target Text

def digitValue (c : Char) : Nat := c.toNat - '0'.toNat

/-- A line after its arguments have been put in. Only one digit is read behind the tilde. -/
def expandArguments (args : Nat → List Char) : List Char → List Char
  | '%' :: '~' :: c :: rest =>
    if c.isDigit then args (digitValue c) ++ expandArguments args rest
    else '%' :: expandArguments args ('~' :: c :: rest)
  | c :: rest => c :: expandArguments args rest
  | [] => []

/-- The variable that a line assigns and its value, which the quote at the end of the line ends. -/
def assignment? (line : Line) : Option (String × String) :=
  match afterLead? "set \"".toList line with
  | some rest => some (String.ofList (rest.takeWhile (· != '=')),
      String.ofList ((rest.dropWhile (· != '=')).drop 1).dropLast)
  | none => none

def runLine (args : Nat → List Char) (store : String → String) (line : Line) : String → String :=
  match assignment? (expandArguments args line) with
  | some (name, value) => fun x => if x = name then value else store x
  | none => store

def runLines (args : Nat → List Char) (store : String → String) (lines : List Line) :
    String → String :=
  lines.foldl (runLine args) store

/-- The arguments of a call: the label, the return register and the frame number come first. -/
def passed (function : String) (values : List String) (n : Nat) : List Char :=
  (((":" ++ function) :: Lowering.returnRegister :: Lowering.frameNumber :: values).getD n "").toList

def frameVariable (x : String) : String := x ++ "[" ++ Lowering.frameNumber ++ "]"

/-- Run in a call of the function, the lines leave every argument in the variable of its parameter. -/
def BindsArguments (function : String) (names : List String) (lines : List Line) : Prop :=
  ∀ (values : List String) (store : String → String), values.length = names.length →
    ∀ (i : Nat) x v, names[i]? = some x → values[i]? = some v →
      runLines (passed function values) store lines (frameVariable x) = v

/-- What a slot stands for: the argument of its first digit, with the other digits behind it. -/
def slotValue (args : Nat → List Char) (n : Nat) : List Char :=
  match Number.digitsOf n with
  | d :: ds => args (digitValue d) ++ ds
  | [] => []

def copyLine (x : String) (n : Nat) : Line :=
  "set \"".toList ++ (x.toList ++ ("[%~2]=%~".toList ++ (Number.digitsOf n ++ ['"'])))

theorem isDigit_of_mem_digitsOf {n : Nat} {c : Char} (h : c ∈ Number.digitsOf n) : c.isDigit = true :=
  Nat.isDigit_of_mem_toDigits (by decide) (by decide) h

section

variable (args : Nat → List Char)

theorem expandArguments_cons {c : Char} (h : c ≠ '%') (rest : List Char) :
    expandArguments args (c :: rest) = c :: expandArguments args rest := by
  rw [expandArguments]
  exact fun _ _ hc => absurd hc h

theorem expandArguments_append {u : List Char} (h : '%' ∉ u) (v : List Char) :
    expandArguments args (u ++ v) = u ++ expandArguments args v := by
  induction u with
  | nil => rfl
  | cons c rest ih =>
    rw [List.mem_cons, not_or] at h
    rw [List.cons_append, expandArguments_cons args (Ne.symm h.1), ih h.2, List.cons_append]

theorem expandArguments_slot (n : Nat) (rest : List Char) :
    expandArguments args ('%' :: '~' :: (Number.digitsOf n ++ rest)) =
      slotValue args n ++ expandArguments args rest := by
  have hDigits : ∀ c ∈ Number.digitsOf n, c.isDigit = true := fun _ => isDigit_of_mem_digitsOf
  have hNil : Number.digitsOf n ≠ [] := Nat.toDigits_ne_nil
  rw [slotValue]
  cases hParts : Number.digitsOf n with
  | nil => exact absurd hParts hNil
  | cons d ds =>
    rw [hParts] at hDigits
    obtain ⟨hd, hds⟩ := List.forall_mem_cons.mp hDigits
    have hPercent : '%' ∉ ds := fun hMem => absurd (hds _ hMem) (by decide)
    rw [List.cons_append, expandArguments, if_pos hd, expandArguments_append args hPercent,
      List.append_assoc]

end

theorem slotValue_of_lt (args : Nat → List Char) {n : Nat} (h : n < 10) :
    slotValue args n = args n := by
  have hDigit : ∀ n < 10, digitValue n.digitChar = n := by decide
  have hDigits : Number.digitsOf n = [n.digitChar] := Nat.toDigits_of_lt_base h
  simp only [slotValue, hDigits, hDigit n h, List.append_nil]

theorem frameVariable_injective {y : String} (h : frameVariable x = frameVariable y) : x = y :=
  String.toList_inj.mp (by simpa [frameVariable] using congrArg String.toList h)

theorem headLine_copy (hx : ∀ c ∈ x.toList, isNamePart c = true) (bound n : Nat) :
    headLine bound (.setText (.item (.name x) frameIndex) [.read (.slot n)]) = copyLine x n := by
  have hDraft : headLine bound (.setText (.item (.name x) frameIndex) [.read (.slot n)]) =
      (resolve (String.join [] ++ ("set \"" ++ (x ++ "[" ++ slotText frameSlot ++ "]") ++ "=" ++
        (slotText n ++ "") ++ "\""))).toList := rfl
  have hLine : (String.join [] ++ ("set \"" ++ (x ++ "[" ++ slotText frameSlot ++ "]") ++ "=" ++
      (slotText n ++ "") ++ "\"")).toList = copyLine x n := by
    have hFrame : slotText frameSlot = "%~2" := by decide
    have hSlot : (slotText n).toList = '%' :: '~' :: Number.digitsOf n := by
      have hPositive : ¬ (n : Int) < 0 := by omega
      simp [slotText, Number.intText, Number.natText, hPositive]
    rw [hFrame]
    simp [copyLine, hSlot]
  have hDigits : ∀ c ∈ Number.digitsOf n, c ∉ marks := by
    intro c hc hMark
    have hNone : ∀ c ∈ marks, c.isDigit = false := by decide
    exact absurd (isDigit_of_mem_digitsOf hc) (by rw [hNone c hMark]; exact Bool.false_ne_true)
  rw [hDraft, toList_resolve, hLine]
  refine resolveWith_of_unmarked ?_ _
  rw [copyLine]
  refine List.forall_mem_append.mpr ⟨by decide, List.forall_mem_append.mpr
    ⟨not_mem_marks_of_isNamePart hx, List.forall_mem_append.mpr ⟨by decide, ?_⟩⟩⟩
  exact List.forall_mem_append.mpr ⟨hDigits, by decide⟩

theorem linesOf_copies (hx : ∀ c ∈ x.toList, isNamePart c = true) (n : Nat) (rest : List String) :
    linesOf 0 (parameterCopies n (x :: rest)) =
      copyLine x n :: linesOf 0 (parameterCopies (n + 1 : Nat) rest) := by
  rw [← headLine_copy hx 0 n]
  rfl

theorem runLine_copyLine (hx : ∀ c ∈ x.toList, isNamePart c = true) (function : String)
    (values : List String) (store : String → String) (n : Nat) :
    runLine (passed function values) store (copyLine x n) =
      fun y => if y = frameVariable x then String.ofList (slotValue (passed function values) n)
        else store y := by
  have hAvoids : Avoids ['%', '='] x := avoids_of_isNamePart (by decide) hx
  have hPercent : '%' ∉ "set \"".toList ++ (x.toList ++ ['[']) := by
    simp only [List.mem_append, not_or]
    exact ⟨by decide, fun hMem => hAvoids _ hMem (by decide), by decide⟩
  have hEquals : ∀ c ∈ (frameVariable x).toList, (c != '=') = true := by
    refine bne_of_not_mem fun hMem => ?_
    rw [frameVariable, String.toList_append, String.toList_append, String.toList_append] at hMem
    simp only [List.mem_append] at hMem
    rcases hMem with ((hMem | hMem) | hMem) | hMem
    · exact hAvoids _ hMem (by decide)
    all_goals exact absurd hMem (by decide)
  have hExpanded : expandArguments (passed function values) (copyLine x n) =
      "set \"".toList ++ ((frameVariable x).toList ++
        '=' :: (slotValue (passed function values) n ++ ['"'])) := by
    have hParts : copyLine x n = ("set \"".toList ++ (x.toList ++ ['['])) ++
        '%' :: '~' :: (Number.digitsOf 2 ++ (']' :: '=' :: '%' :: '~' :: (Number.digitsOf n ++ ['"']))) := by
      have hTwo : Number.digitsOf 2 = ['2'] := by decide
      rw [hTwo]
      simp [copyLine]
    rw [hParts, expandArguments_append _ hPercent, expandArguments_slot,
      expandArguments_cons _ (by decide), expandArguments_cons _ (by decide), expandArguments_slot]
    have hFrame : slotValue (passed function values) 2 = Lowering.frameNumber.toList :=
      slotValue_of_lt _ (by decide)
    rw [hFrame]
    simp [frameVariable, expandArguments]
  rw [runLine, hExpanded, assignment?, afterLead?_append]
  simp only [List.takeWhile_append_of_pos hEquals, List.dropWhile_append_of_pos hEquals]
  simp

section

variable {names : List String} (hNames : ∀ x ∈ names, ∀ c ∈ x.toList, isNamePart c = true)
  (function : String) (values : List String)

include hNames

theorem runLines_copies_of_not_mem (hx : x ∉ names) (store : String → String) (n : Nat) :
    runLines (passed function values) store (linesOf 0 (parameterCopies n names)) (frameVariable x) =
      store (frameVariable x) := by
  induction names generalizing store n with
  | nil => rfl
  | cons y rest ih =>
    obtain ⟨hy, hRest⟩ := List.forall_mem_cons.mp hNames
    rw [List.mem_cons, not_or] at hx
    rw [linesOf_copies hy, runLines, List.foldl_cons, runLine_copyLine hy]
    exact (ih hRest hx.2 _ _).trans (if_neg fun hEq => hx.1 (frameVariable_injective hEq))

theorem runLines_copies (hNodup : names.Nodup) {i : Nat} (hi : names[i]? = some x)
    (store : String → String) (n : Nat) :
    runLines (passed function values) store (linesOf 0 (parameterCopies n names)) (frameVariable x) =
      String.ofList (slotValue (passed function values) (n + i)) := by
  induction names generalizing store n i with
  | nil => cases hi
  | cons y rest ih =>
    obtain ⟨hy, hRest⟩ := List.forall_mem_cons.mp hNames
    obtain ⟨hFresh, hNodup⟩ := List.nodup_cons.mp hNodup
    rw [linesOf_copies hy, runLines, List.foldl_cons, runLine_copyLine hy]
    cases i with
    | zero =>
      cases hi
      exact (runLines_copies_of_not_mem hRest function values hFresh _ _).trans (if_pos rfl)
    | succ i =>
      rw [Nat.add_comm i 1, ← Nat.add_assoc]
      exact ih hRest hNodup hi _ _

end

theorem exists_ident_of_parameterNames {params : List Node}
    (h : Lowering.parameterNames params = .ok names) (hx : x ∈ names) :
    ∃ span, .ident span x ∈ params := by
  induction params generalizing names with
  | nil =>
    cases h
    cases hx
  | cons n rest ih =>
    cases n with
    | ident span y =>
      obtain ⟨others, hOthers, hPure⟩ := Lowering.exists_of_bind_eq_ok h
      cases hPure
      rcases List.mem_cons.mp hx with rfl | hx
      · exact ⟨span, List.mem_cons_self⟩
      · obtain ⟨span', hMem⟩ := ih hOthers hx
        exact ⟨span', List.mem_cons_of_mem _ hMem⟩
    | _ => cases h

theorem linesOf_append (bound : Nat) (a b : List Stmt) :
    linesOf bound (a ++ b) = linesOf bound a ++ linesOf bound b := by
  induction a with
  | nil => rfl
  | cons s rest ih => simp only [List.cons_append, linesOf, ih, List.append_assoc]

theorem length_linesOf_copies (n : Int) :
    (linesOf 0 (parameterCopies n names)).length = names.length := by
  induction names generalizing n with
  | nil => rfl
  | cons x rest ih => exact congrArg (· + 1) (ih (n + 1))

theorem copies_correct_iff (hNames : ∀ x ∈ names, ∀ c ∈ x.toList, isNamePart c = true)
    (hNodup : names.Nodup) (function : String) :
    BindsArguments function names (linesOf 0 (parameterCopies firstArgumentSlot names)) ↔
      names.length ≤ 7 := by
  constructor
  · intro h
    by_contra hMany
    have hSome : names[7]? = some (names.get ⟨7, by omega⟩) := List.getElem?_eq_getElem _
    have hRun := h (List.replicate names.length "") (fun _ => "") List.length_replicate 7 _ ""
      hSome (List.getElem?_replicate_of_lt (by omega))
    rw [show firstArgumentSlot = ((3 : Nat) : Int) from rfl,
      runLines_copies hNames function _ hNodup hSome] at hRun
    have hTen : slotValue (passed function (List.replicate names.length "")) (3 + 7) =
        "__ret0".toList := by
      have hDigits : Number.digitsOf (3 + 7) = ['1', '0'] := by decide
      have hFirst : digitValue '1' = 1 := by decide
      have hRegister : passed function (List.replicate names.length "") 1 =
          Lowering.returnRegister.toList := rfl
      simp only [slotValue, hDigits, hFirst, hRegister]
      decide
    rw [hTen] at hRun
    exact absurd hRun (by decide)
  · intro hFew values store _ i x v hx hv
    have hi : i < names.length := (List.getElem?_eq_some_iff.mp hx).1
    rw [show firstArgumentSlot = ((3 : Nat) : Int) from rfl,
      runLines_copies hNames function _ hNodup hx, slotValue_of_lt _ (by omega), passed,
      Nat.add_comm 3 i]
    simp [List.getD, hv]

/-- The lines behind the label of a function, one for each parameter, give every parameter its own
argument, whatever is passed, exactly if there are at most seven. In any case a parameter receives
what its slot stands for. -/
theorem compile_prologue_iff {settings : Settings} {file : Int} {source : List Char} {root : Node}
    {p : Program} {script : String} {log log₁ log₂ log₃ : List Remark}
    (hTree : (Stage.treeAndProgram settings file source).run log = (.ok (root, p), log₁))
    (h : (Stage.compile settings file source).run log₂ = (.ok script, log₃))
    {span : Span} {name : String} {params : List Node} {body : Node}
    (hFunc : .func span name params body ∈ ScopeTable.itemsOf root) :
    ∃ names ending above prologue below,
      Lowering.parameterNames params = .ok names ∧
      Wrote ending script (above ++ (':' :: name.toList) :: (prologue ++ below)) ∧
      prologue.length = names.length ∧
      (∀ values store (i : Nat) x, names[i]? = some x →
        runLines (passed name values) store prologue (frameVariable x) =
          String.ofList (slotValue (passed name values) (3 + i))) ∧
      (BindsArguments name names prologue ↔ names.length ≤ 7) := by
  obtain ⟨r⟩ := Stage.reached_of_run hTree
  obtain ⟨b, rfl, rfl, rfl⟩ := Stage.exists_compiled_of_runs hTree h
  have hFormed := Stage.formed_of_tokens b.tokens_eq b.parse_eq b.result_eq
  obtain ⟨top, functions, hProgram, hHeaders, _, _⟩ := Lowering.exists_regions r
  have hOutline : ⟨name, params, body.loops []⟩ ∈ Node.functionOutlines (ScopeTable.itemsOf b.root) :=
    List.mem_filterMap.mpr ⟨_, hFunc, rfl⟩
  have hHeader := List.mem_map_of_mem (f := fun o => (o.name, Lowering.parameterNames o.params)) hOutline
  rw [← hHeaders] at hHeader
  obtain ⟨f, hf, hEq⟩ := List.mem_map.mp hHeader
  obtain ⟨rfl, hParams⟩ := Prod.mk.inj hEq
  obtain ⟨hName, hLeaves, _⟩ := Node.everyLeaf_func_iff.mp
    (Lowering.everyLeaf_itemsOf hFormed.leaves _ hFunc)
  have hNames : ∀ x ∈ f.params, ∀ c ∈ x.toList, isNamePart c = true := by
    intro x hx
    obtain ⟨span', hMem⟩ := exists_ident_of_parameterNames hParams.symm hx
    exact (Node.everyLeaf_ident_iff.mp (hLeaves _ hMem)).part
  have hNodup := ScopeTable.nodup_parameters b.build_eq hFunc hParams.symm
  obtain ⟨before, after, rfl⟩ := List.append_of_mem hf
  have hLines : linesOf 0 b.program =
      linesOf 0 (Lowering.setup ++ top ++ before.flatMap Lowering.FunctionCode.code ++
        [.jump (endLabel f.name)]) ++ (':' :: f.name.toList) ::
        (linesOf 0 (parameterCopies firstArgumentSlot f.params) ++
          linesOf 0 (f.body ++ (if endsWithReturn f.body then [] else [.jump endOfFile]) ++
            [.label (endLabel f.name)] ++ after.flatMap Lowering.FunctionCode.code)) := by
    have hLabel : headLine 0 (.label f.name) = ':' :: f.name.toList := headLine_label hName.part
    rw [hProgram, ← hLabel]
    simp [linesOf_append, linesOf, linesOfStmt, Lowering.FunctionCode.code, assemble]
  have hWrote := wrote_of_render b.render_eq
  rw [hLines] at hWrote
  refine ⟨f.params, _, _, _, _, hParams.symm, hWrote, length_linesOf_copies _, ?_,
    copies_correct_iff hNames hNodup f.name⟩
  exact fun values store i x hx => runLines_copies hNames f.name values hNodup hx store 3

def sevenSource : List Char :=
  "func f(a, b, c, d, e, g, h) \x7b echo(h); \x7d f(1, 2, 3, 4, 5, 6, 7);".toList

theorem compile_prologue_iff_sevenSource :
    ∃ script log names ending above prologue below,
      (Stage.compile {} 0 sevenSource).run [] = (.ok script, log) ∧ names.length = 7 ∧
      Wrote ending script (above ++ ":f".toList :: (prologue ++ below)) ∧
      BindsArguments "f" names prologue := by
  have hEval : ((Stage.treeAndProgram {} 0 sevenSource).run []).1.toOption.map
      (fun x => (Node.functionOutlines (ScopeTable.itemsOf x.1)).map fun o =>
        (o.name, (Lowering.parameterNames o.params).toOption)) =
      some [("f", some ["a", "b", "c", "d", "e", "g", "h"])] := by
    decide +kernel
  have hSome : ((Stage.compile {} 0 sevenSource).run []).1.toOption.isSome = true := by
    decide +kernel
  obtain ⟨script, hScript⟩ := Option.isSome_iff_exists.mp hSome
  obtain ⟨log, hRun⟩ := Lowering.exists_run_of_toOption hScript
  obtain ⟨⟨root, p⟩, hTree, hOutlines⟩ := Option.map_eq_some_iff.mp hEval
  obtain ⟨log', hTree⟩ := Lowering.exists_run_of_toOption hTree
  obtain ⟨o, rest, hOutline, hEq, _⟩ := List.map_eq_cons_iff.mp hOutlines
  obtain ⟨hName, hParams⟩ := Prod.mk.inj hEq
  have hMem : o ∈ Node.functionOutlines (ScopeTable.itemsOf root) := hOutline ▸ List.mem_cons_self
  obtain ⟨n, hn, hNode⟩ := List.mem_filterMap.mp hMem
  cases n with
  | func span name params body =>
    cases hNode
    obtain ⟨names, ending, above, prologue, below, hNames, hWrote, _, _, hBinds⟩ :=
      compile_prologue_iff hTree hRun hn
    rw [hNames] at hParams
    cases hParams
    cases hName
    exact ⟨script, log, _, ending, above, prologue, below, hRun, rfl, hWrote,
      hBinds.mpr (by decide)⟩
  | _ => cases hNode

def eightSource : List Char :=
  "func f(a, b, c, d, e, g, h, i) \x7b echo(i); \x7d f(1, 2, 3, 4, 5, 6, 7, 8);".toList

def eightPrologue : List String :=
  ["set \"a[%~2]=%~3\"", "set \"b[%~2]=%~4\"", "set \"c[%~2]=%~5\"", "set \"d[%~2]=%~6\"",
    "set \"e[%~2]=%~7\"", "set \"g[%~2]=%~8\"", "set \"h[%~2]=%~9\"", "set \"i[%~2]=%~10\""]

def eightScript : String :=
  String.join ((["@echo off", "setlocal EnableDelayedExpansion", "setlocal EnableExtensions",
    "call :f \"__ret\" \"0\" \"1\" \"2\" \"3\" \"4\" \"5\" \"6\" \"7\" \"8\"",
    "goto :f__end", ":f"] ++ eightPrologue ++ ["echo !i[%~2]!", "goto :eof", ":f__end"]).map
      (· ++ "\r\n"))

/-- The last parameter receives the name of the return register and a digit. -/
theorem not_bindsArguments_eightSource :
    ((Stage.compile {} 0 eightSource).run []).1.toOption = some eightScript ∧
      ¬ BindsArguments "f" ["a", "b", "c", "d", "e", "g", "h", "i"] (eightPrologue.map String.toList) := by
  refine ⟨by decide +kernel, fun h => ?_⟩
  have hRun := h ["1", "2", "3", "4", "5", "6", "7", "8"] (fun _ => "") rfl 7 "i" "8" rfl rfl
  have hValue : runLines (passed "f" ["1", "2", "3", "4", "5", "6", "7", "8"]) (fun _ => "")
      (eightPrologue.map String.toList) (frameVariable "i") = "__ret0" := by decide +kernel
  exact absurd (hValue.symm.trans hRun) (by decide)

end BatchCompiler.Script
