import BatchCompiler.Proofs.Lowering.Loops
import BatchCompiler.Proofs.Lowering.Words
import Mathlib.Data.List.Nodup

/-!
# Where jumps and calls lead

The labels of a program are those of its loops, which are numbered, and two for each function: its
name, and its name with an ending. Jumps and calls of functions lead to one label each, as long as no
function is called like the end of another or like the end of the script.
-/

namespace BatchCompiler.Target

mutual

def Stmt.statements : Stmt → List Stmt
  | .whenTrue c body => .whenTrue c body :: statementsOf body
  | .choose c thenBody elseBody =>
    .choose c thenBody elseBody :: (statementsOf thenBody ++ statementsOf elseBody)
  | s => [s]

def statementsOf : List Stmt → List Stmt
  | [] => []
  | s :: rest => s.statements ++ statementsOf rest

end

def Stmt.label? : Stmt → Option String
  | .label name => some name
  | _ => none

def labelsOf (code : List Stmt) : List String :=
  (statementsOf code).filterMap Stmt.label?

def Stmt.jump? : Stmt → Option String
  | .jump target => some target
  | _ => none

def jumpsOf (code : List Stmt) : List String :=
  (statementsOf code).filterMap Stmt.jump?

/-- Labels are told apart, and each jump and each call of a label leads to one of them. -/
structure Resolves (p : Program) : Prop where
  nodup : (labelsOf p).Nodup
  stop : endOfFile ∉ labelsOf p
  jump : ∀ target, .jump target ∈ statementsOf p → target ≠ endOfFile →
    (labelsOf p).count target = 1
  call : ∀ name args, .call (.text (":" ++ name)) args ∈ statementsOf p →
    (labelsOf p).count name = 1

theorem statementsOf_append (a b : List Stmt) :
    statementsOf (a ++ b) = statementsOf a ++ statementsOf b := by
  induction a with
  | nil => rfl
  | cons s rest ih => simp only [List.cons_append, statementsOf, ih, List.append_assoc]

theorem labelsOf_append (a b : List Stmt) : labelsOf (a ++ b) = labelsOf a ++ labelsOf b := by
  rw [labelsOf, statementsOf_append, List.filterMap_append]
  rfl

theorem jumpsOf_append (a b : List Stmt) : jumpsOf (a ++ b) = jumpsOf a ++ jumpsOf b := by
  rw [jumpsOf, statementsOf_append, List.filterMap_append]
  rfl

section

variable (c : Comparison) (s : Stmt) (rest body thenBody elseBody : List Stmt)

theorem labelsOf_cons : labelsOf (s :: rest) = labelsOf [s] ++ labelsOf rest :=
  labelsOf_append [s] rest

theorem jumpsOf_cons : jumpsOf (s :: rest) = jumpsOf [s] ++ jumpsOf rest :=
  jumpsOf_append [s] rest

theorem labelsOf_whenTrue : labelsOf [.whenTrue c body] = labelsOf body := by
  rw [labelsOf, statementsOf, statementsOf, List.append_nil]
  exact List.filterMap_cons_none rfl

theorem jumpsOf_whenTrue : jumpsOf [.whenTrue c body] = jumpsOf body := by
  rw [jumpsOf, statementsOf, statementsOf, List.append_nil]
  exact List.filterMap_cons_none rfl

theorem labelsOf_choose :
    labelsOf [.choose c thenBody elseBody] = labelsOf thenBody ++ labelsOf elseBody :=
  (congrArg (List.filterMap Stmt.label?) (List.append_nil _)).trans List.filterMap_append

theorem jumpsOf_choose :
    jumpsOf [.choose c thenBody elseBody] = jumpsOf thenBody ++ jumpsOf elseBody :=
  (congrArg (List.filterMap Stmt.jump?) (List.append_nil _)).trans List.filterMap_append

end

mutual

theorem Stmt.hasLabel_iff {label : String} : (s : Stmt) →
    (s.hasLabel label = true ↔ label ∈ labelsOf [s])
  | .whenTrue c body => by
    rw [Stmt.hasLabel_whenTrue, labelsOf_whenTrue]
    exact hasLabel_iff body
  | .choose c thenBody elseBody => by
    rw [Stmt.hasLabel_choose, labelsOf_choose, Bool.or_eq_true, List.mem_append,
      hasLabel_iff thenBody, hasLabel_iff elseBody]
  | .label name => by
    rw [Stmt.hasLabel_label, decide_eq_true_eq]
    exact eq_comm.trans List.mem_singleton.symm
  | .absent | .raw _ | .comment _ | .jump _ | .setText .. | .setNumber .. | .call .. => by
    constructor <;> rintro ⟨⟩

theorem hasLabel_iff {label : String} : (code : List Stmt) →
    (hasLabel label code = true ↔ label ∈ labelsOf code)
  | [] => by constructor <;> rintro ⟨⟩
  | s :: rest => by
    rw [hasLabel_cons, labelsOf_cons, Bool.or_eq_true, List.mem_append, Stmt.hasLabel_iff s,
      hasLabel_iff rest]

end

mutual

theorem headWords_subset_words {x : Stmt} : (s : Stmt) → x ∈ s.statements →
    x.headWords ⊆ s.words ∧ x.headUses ⊆ s.uses
  | .whenTrue c body, h => by
    rcases List.mem_cons.mp h with rfl | h
    · exact headWords_subset _
    · exact (headWords_subset_wordsOf body h).imp (List.subset_append_of_subset_right _)
        (List.subset_append_of_subset_right _)
  | .choose c thenBody elseBody, h => by
    rcases List.mem_cons.mp h with rfl | h
    · exact headWords_subset _
    rw [Stmt.words, Stmt.uses, List.append_assoc, List.append_assoc]
    rcases List.mem_append.mp h with h | h
    · exact (headWords_subset_wordsOf thenBody h).imp
        (fun hx => List.subset_append_of_subset_right _ (List.subset_append_of_subset_left _ hx))
        fun hx => List.subset_append_of_subset_right _ (List.subset_append_of_subset_left _ hx)
    · exact (headWords_subset_wordsOf elseBody h).imp
        (fun hx => List.subset_append_of_subset_right _ (List.subset_append_of_subset_right _ hx))
        fun hx => List.subset_append_of_subset_right _ (List.subset_append_of_subset_right _ hx)
  | .absent, h | .raw _, h | .comment _, h | .label _, h | .jump _, h | .setText .., h
  | .setNumber .., h | .call .., h => by
    cases List.mem_singleton.mp h
    exact headWords_subset _

theorem headWords_subset_wordsOf {x : Stmt} : (code : List Stmt) → x ∈ statementsOf code →
    x.headWords ⊆ wordsOf code ∧ x.headUses ⊆ usesOf code
  | [], h => nomatch h
  | s :: rest, h => by
    rcases List.mem_append.mp h with h | h
    · exact (headWords_subset_words s h).imp (List.subset_append_of_subset_left _)
        (List.subset_append_of_subset_left _)
    · exact (headWords_subset_wordsOf rest h).imp (List.subset_append_of_subset_right _)
        (List.subset_append_of_subset_right _)

end

theorem calleeWord_mem_wordsOf {callee : Fragment} {args : List (List Fragment)} (code : List Stmt)
    (h : .call callee args ∈ statementsOf code) : callee.calleeWord ∈ wordsOf code :=
  (headWords_subset_wordsOf code h).1 List.mem_cons_self

end BatchCompiler.Target

namespace BatchCompiler.Lowering

open Target

variable {k k' : Nat} {F : List Stmt}

variable {T : List Stmt} {target : String} {regions : List (Region × List Stmt)}

def loopLabels (k k' : Nat) : List String :=
  (List.range' k (k' - k)).map labelName

theorem mem_loopLabels {name : String} :
    name ∈ loopLabels k k' ↔ ∃ i, k ≤ i ∧ i < k' ∧ labelName i = name := by
  simp only [loopLabels, List.mem_map, List.mem_range'_1]
  constructor
  · rintro ⟨i, hi, hName⟩
    exact ⟨i, by omega, by omega, hName⟩
  · rintro ⟨i, hLe, hLt, hName⟩
    exact ⟨i, by omega, hName⟩

theorem loopLabels_append {k₁ : Nat} (h : k ≤ k₁) (h' : k₁ ≤ k') :
    loopLabels k k₁ ++ loopLabels k₁ k' = loopLabels k k' := by
  have hRange : List.range' k (k₁ - k) ++ List.range' k₁ (k' - k₁) = List.range' k (k' - k) := by
    have hStart : k₁ = k + (k₁ - k) := by omega
    have hLength : k' - k = (k₁ - k) + (k' - k₁) := by omega
    rw [hLength, ← List.range'_append_1, ← hStart]
  rw [loopLabels, loopLabels, loopLabels, ← List.map_append, hRange]

theorem loopLabels_cons (h : k + 1 ≤ k') :
    labelName k :: loopLabels (k + 1) k' = loopLabels k k' := by
  have hFirst : loopLabels k (k + 1) = [labelName k] := by simp [loopLabels]
  rw [← loopLabels_append (Nat.le_add_right k 1) h, hFirst]
  rfl

theorem nodup_loopLabels (k k' : Nat) : (loopLabels k k').Nodup :=
  List.Nodup.map (fun _ _ => labelName_injective) List.nodup_range'

theorem labelsOf_isPlain {s : Stmt} (h : isPlain s = true) : labelsOf [s] = [] := by
  cases s with
  | label | whenTrue | choose => cases h
  | _ => rfl

theorem Looped.labelsOf_eq (h : Looped k T k') : labelsOf T = loopLabels k k' := by
  induction h with
  | nil => simp [labelsOf, statementsOf, loopLabels]
  | plain hs h ih => rw [labelsOf_cons, labelsOf_isPlain hs, ih, List.nil_append]
  | whenTrue hBody h ihBody ih =>
    rw [labelsOf_cons, labelsOf_whenTrue, ihBody, ih, loopLabels_append hBody.le h.le]
  | choose hThen hElse h ihThen ihElse ih =>
    rw [labelsOf_cons, labelsOf_choose, ihThen, ihElse, ih, loopLabels_append hThen.le hElse.le,
      loopLabels_append (Nat.le_trans hThen.le hElse.le) h.le]
  | @loop c A T k k₁ k' hBody h ihBody ih =>
    have hLabel : labelsOf [.label (labelName k)] = [labelName k] := rfl
    have hJump : labelsOf [.jump (labelName k)] = [] := rfl
    rw [labelsOf_cons, labelsOf_cons (.whenTrue c _), hLabel, labelsOf_whenTrue, labelsOf_append,
      hJump, List.append_nil, ihBody, ih, loopLabels_append hBody.le h.le]
    exact loopLabels_cons (Nat.le_trans hBody.le h.le)

theorem Looped.count_jumpsOf (h : Looped k T k') (i : Nat) :
    (jumpsOf T).count (labelName i) = (labelsOf T).count (labelName i) := by
  induction h with
  | nil => rfl
  | @plain s T k k' hs _ ih =>
    have hNone : (jumpsOf [s]).count (labelName i) = 0 := by
      cases s with
      | label | whenTrue | choose => cases hs
      | jump target =>
        have hTarget : target = endOfFile := by simpa [isPlain] using hs
        have hJumps : jumpsOf [.jump target] = [endOfFile] := by rw [hTarget]; rfl
        rw [hJumps, List.count_singleton, if_neg]
        simpa using (labelName_ne_endOfFile i).symm
      | _ => rfl
    rw [jumpsOf_cons, labelsOf_cons, labelsOf_isPlain hs, List.count_append, hNone, ih,
      Nat.zero_add, List.nil_append]
  | whenTrue _ _ ihBody ih =>
    rw [jumpsOf_cons, jumpsOf_whenTrue, labelsOf_cons, labelsOf_whenTrue, List.count_append,
      List.count_append, ihBody, ih]
  | choose _ _ _ ihThen ihElse ih =>
    rw [jumpsOf_cons, jumpsOf_choose, labelsOf_cons, labelsOf_choose]
    simp only [List.count_append, ihThen, ihElse, ih]
  | @loop c A T k _ _ _ _ ihBody ih =>
    have hLabel : labelsOf [.label (labelName k)] = [labelName k] := rfl
    have hNone : labelsOf [.jump (labelName k)] = [] := rfl
    have hJump : jumpsOf [.jump (labelName k)] = [labelName k] := rfl
    have hNone' : jumpsOf [.label (labelName k)] = [] := rfl
    rw [jumpsOf_cons, jumpsOf_cons (.whenTrue c _), jumpsOf_whenTrue, jumpsOf_append, labelsOf_cons,
      labelsOf_cons (.whenTrue c _), labelsOf_whenTrue, labelsOf_append, hLabel, hNone, hJump, hNone']
    simp only [List.count_append, List.count_nil, ihBody, ih]
    omega

theorem Looped.jumps (h : Looped k T k') :
    ∀ target ∈ jumpsOf T, target = endOfFile ∨ ∃ i, target = labelName i := by
  induction h with
  | nil => exact nofun
  | @plain s T k k' hs _ ih =>
    rw [jumpsOf_cons]
    refine List.forall_mem_append.mpr ⟨?_, ih⟩
    cases s with
    | label | whenTrue | choose => cases hs
    | jump target => exact List.forall_mem_singleton.mpr (.inl (by simpa [isPlain] using hs))
    | _ => exact nofun
  | whenTrue _ _ ihBody ih =>
    rw [jumpsOf_cons, jumpsOf_whenTrue]
    exact List.forall_mem_append.mpr ⟨ihBody, ih⟩
  | choose _ _ _ ihThen ihElse ih =>
    rw [jumpsOf_cons, jumpsOf_choose]
    exact List.forall_mem_append.mpr ⟨List.forall_mem_append.mpr ⟨ihThen, ihElse⟩, ih⟩
  | @loop c A T k k₁ k' _ _ ihBody ih =>
    rw [jumpsOf_cons, jumpsOf_cons (.whenTrue c _), jumpsOf_whenTrue, jumpsOf_append]
    simp only [List.forall_mem_append]
    exact ⟨nofun, ⟨ihBody, List.forall_mem_singleton.mpr (.inr ⟨k, rfl⟩)⟩, ih⟩

theorem Looped.jump (h : Looped k T k') (hMem : target ∈ jumpsOf T) :
    target = endOfFile ∨ target ∈ loopLabels k k' := by
  refine (h.jumps target hMem).imp_right ?_
  rintro ⟨i, rfl⟩
  rwa [← h.labelsOf_eq, ← List.count_pos_iff, ← h.count_jumpsOf, List.count_pos_iff]

/-- `Assembled k names F k'` says that `F` is the code of the functions `names`, with their loops
numbered from `k` up to but not including `k'`. -/
inductive Assembled : Nat → List String → List Stmt → Nat → Prop where
  | nil {k : Nat} : Assembled k [] [] k
  | cons {name : String} {params names : List String} {body F : List Stmt} {k k₁ k' : Nat}
    (hBody : Looped k body k₁) (h : Assembled k₁ names F k') :
    Assembled k (name :: names) (assemble name params body ++ F) k'

theorem Assembled.le {names : List String} (h : Assembled k names F k') : k ≤ k' := by
  induction h with
  | nil => exact Nat.le_refl _
  | cons hBody _ ih => exact Nat.le_trans hBody.le ih

theorem LoweredEach.assembled {c : Context} {ns : List Node} (h : LoweredEach c ns k regions k') :
    Assembled k (ScopeTable.declaredFunctions ns) (joined regions) k' := by
  induction h with
  | nil => exact .nil
  | cons _ hBody hFrame _ _ ih => exact .cons (hBody.looped.of_inFrame hFrame) ih

theorem assembled_of_lowerRegions {c : Context} {items : List Node} {s s' : Progress}
    (h : (lowerRegions c items).run s = (.ok regions, s')) :
    ∃ T F k, joined regions = T ++ F ∧ Looped s.labels T k ∧
      Assembled k (ScopeTable.declaredFunctions items) F s'.labels := by
  obtain ⟨top, funcs, k, rfl, hTop, hFuncs⟩ := exists_of_lowerRegions h
  rw [← declaredFunctions_filter]
  exact ⟨top, joined funcs, k, rfl, hTop.looped, hFuncs.assembled⟩

theorem isPlain_of_mem_parameterCopies {slot : Int} {params : List String} {s : Stmt}
    (h : s ∈ parameterCopies slot params) : isPlain s = true := by
  induction params generalizing slot with
  | nil => cases h
  | cons x rest ih =>
    rcases List.mem_cons.mp h with rfl | h
    · rfl
    · exact ih h

def innerCode (params : List String) (body : List Stmt) : List Stmt :=
  parameterCopies firstArgumentSlot params ++ body ++
    (if endsWithReturn body then [] else [.jump endOfFile])

theorem assemble_eq (name : String) (params : List String) (body : List Stmt) :
    assemble name params body =
      .jump (endLabel name) :: .label name :: (innerCode params body ++ [.label (endLabel name)]) := by
  simp [assemble, innerCode]

theorem Looped.innerCode {body : List Stmt} {k k' : Nat} (h : Looped k body k')
    (params : List String) : Looped k (innerCode params body) k' := by
  have hReturn : Looped k' (if endsWithReturn body then [] else [.jump endOfFile]) k' := by
    split
    · exact .nil
    · exact .plain rfl .nil
  exact ((looped_of_isPlain (fun _ => isPlain_of_mem_parameterCopies) k).append h).append hReturn

theorem labelsOf_assemble (name : String) (params : List String) (body : List Stmt) :
    labelsOf (assemble name params body) =
      name :: (labelsOf (innerCode params body) ++ [endLabel name]) := by
  rw [assemble_eq, labelsOf_cons, labelsOf_cons (.label name), labelsOf_append]
  rfl

theorem jumpsOf_assemble (name : String) (params : List String) (body : List Stmt) :
    jumpsOf (assemble name params body) = endLabel name :: jumpsOf (innerCode params body) := by
  rw [assemble_eq, jumpsOf_cons, jumpsOf_cons (.label name), jumpsOf_append]
  exact congrArg (endLabel name :: ·) (List.append_nil _)

theorem Assembled.labelsOf_perm {names : List String} (h : Assembled k names F k') :
    (labelsOf F).Perm (loopLabels k k' ++ (names ++ names.map endLabel)) := by
  induction h with
  | nil => simp [labelsOf, statementsOf, loopLabels]
  | @cons name params names body F k k₁ k' hBody h ih =>
    rw [labelsOf_append, labelsOf_assemble, (hBody.innerCode params).labelsOf_eq,
      ← loopLabels_append hBody.le h.le]
    refine (List.Perm.append_left _ ih).trans (List.perm_iff_count.mpr fun x => ?_)
    simp only [List.count_append, List.count_cons, List.map_cons, List.count_nil, List.cons_append]
    omega

theorem Assembled.jump {names : List String} (h : Assembled k names F k')
    (hMem : target ∈ jumpsOf F) :
    target = endOfFile ∨ target ∈ loopLabels k k' ∨ target ∈ names.map endLabel := by
  induction h with
  | nil => cases hMem
  | @cons name params names body F k k₁ k' hBody h ih =>
    rw [← loopLabels_append hBody.le h.le, List.mem_append, List.map_cons, List.mem_cons]
    rw [jumpsOf_append, jumpsOf_assemble, List.mem_append, List.mem_cons] at hMem
    rcases hMem with (hName | hInner) | hOther
    · exact .inr (.inr (.inl hName))
    · exact ((hBody.innerCode params).jump hInner).imp_right fun hLoop => .inl (.inl hLoop)
    · rcases ih hOther with hEnd | hLoop | hName
      · exact .inl hEnd
      · exact .inr (.inl (.inr hLoop))
      · exact .inr (.inr (.inr hName))

theorem not_mem_labelName (k : Nat) : 'd' ∉ (labelName k).toList := by
  intro h
  rw [labelName, String.toList_append, List.mem_append] at h
  rcases h with h | h
  · exact absurd h (by decide)
  · rw [Number.natText, String.toList_ofList] at h
    have hDigit : Char.isDigit 'd' = true := Nat.isDigit_of_mem_toDigits (by decide) (by decide) h
    cases hDigit

theorem endLabel_ne_labelName (f : String) (k : Nat) : endLabel f ≠ labelName k := by
  intro h
  apply not_mem_labelName k
  rw [← h, endLabel, String.toList_append]
  exact List.mem_append_right _ (by decide)

theorem endLabel_ne_endOfFile (f : String) : endLabel f ≠ endOfFile := by
  intro h
  have hMem : '_' ∈ (endLabel f).toList := by
    rw [endLabel, String.toList_append]
    exact List.mem_append_right _ (by decide)
  rw [h] at hMem
  exact absurd hMem (by decide)

theorem endLabel_injective {f g : String} (h : endLabel f = endLabel g) : f = g :=
  String.toList_inj.mp (by simpa [endLabel] using congrArg String.toList h)

theorem ne_labelName {x : String} (h : Text.startsWith Syntax.Parser.reservedLead x = false)
    (k : Nat) : x ≠ labelName k := by
  rintro rfl
  have hLonger : Text.startsWith (Syntax.Parser.reservedLead ++ "L") (labelName k) = true :=
    Text.startsWith_append _ _
  have hLead := Text.startsWith_of_append hLonger
  rw [h] at hLead
  cases hLead

section

variable {names : List String} (hNodup : names.Nodup)
  (hFree : ∀ x ∈ names, Text.startsWith Syntax.Parser.reservedLead x = false)

include hNodup hFree

theorem nodup_labels_iff (k k' : Nat) : (loopLabels k k' ++ (names ++ names.map endLabel)).Nodup ↔
    ∀ f ∈ names, endLabel f ∉ names := by
  have hEnds : (names.map endLabel).Nodup :=
    List.Nodup.map (fun _ _ => endLabel_injective) hNodup
  have hLoops : ∀ a ∈ loopLabels k k', ∀ b ∈ names ++ names.map endLabel, a ≠ b := by
    intro a ha b hb hab
    obtain ⟨i, _, _, rfl⟩ := mem_loopLabels.mp ha
    rcases List.mem_append.mp hb with hb | hb
    · exact ne_labelName (hFree b hb) i hab.symm
    · obtain ⟨f, _, rfl⟩ := List.mem_map.mp hb
      exact endLabel_ne_labelName f i hab.symm
  rw [List.nodup_append, List.nodup_append]
  constructor
  · rintro ⟨_, ⟨_, _, hApart⟩, _⟩ f hf hEnd
    exact hApart _ hEnd _ (List.mem_map_of_mem hf) rfl
  · intro h
    refine ⟨nodup_loopLabels k k', ⟨hNodup, hEnds, ?_⟩, hLoops⟩
    rintro a ha _ hb rfl
    obtain ⟨f, hf, rfl⟩ := List.mem_map.mp hb
    exact h f hf ha

theorem resolves_iff {T F : List Stmt} {k k' : Nat} (hTop : Looped 0 T k)
    (hFunctions : Assembled k names F k')
    (hCalls : ∀ name args, .call (.text (":" ++ name)) args ∈ statementsOf (setup ++ (T ++ F)) →
      name ∈ names) :
    Resolves (setup ++ (T ++ F)) ↔ endOfFile ∉ names ∧ ∀ f ∈ names, endLabel f ∉ names := by
  have hSetup : labelsOf setup = [] := rfl
  have hPerm : (labelsOf (setup ++ (T ++ F))).Perm (loopLabels 0 k' ++ (names ++ names.map endLabel)) := by
    rw [labelsOf_append, labelsOf_append, hSetup, hTop.labelsOf_eq, List.nil_append,
      ← loopLabels_append hTop.le hFunctions.le, List.append_assoc]
    exact hFunctions.labelsOf_perm.append_left _
  have hNames := nodup_labels_iff hNodup hFree 0 k'
  have hStop : endOfFile ∈ labelsOf (setup ++ (T ++ F)) ↔ endOfFile ∈ names := by
    rw [hPerm.mem_iff, List.mem_append, List.mem_append]
    constructor
    · rintro (hLoop | hName | hEnd)
      · obtain ⟨i, _, _, hName⟩ := mem_loopLabels.mp hLoop
        exact absurd hName (labelName_ne_endOfFile i)
      · exact hName
      · obtain ⟨f, _, hEnd⟩ := List.mem_map.mp hEnd
        exact absurd hEnd (endLabel_ne_endOfFile f)
    · exact fun hName => .inr (.inl hName)
  constructor
  · intro h
    exact ⟨fun hName => h.stop (hStop.mpr hName), hNames.mp (hPerm.nodup_iff.mp h.nodup)⟩
  · rintro ⟨hEnd, hApart⟩
    have hDistinct := hPerm.nodup_iff.mpr (hNames.mpr hApart)
    refine ⟨hDistinct, fun hLabel => hEnd (hStop.mp hLabel), ?_, ?_⟩
    · intro target hJump hTarget
      refine List.count_eq_one_of_mem hDistinct (hPerm.mem_iff.mpr ?_)
      rw [← loopLabels_append hTop.le hFunctions.le, List.mem_append, List.mem_append, List.mem_append]
      have hMem : target ∈ jumpsOf (setup ++ (T ++ F)) := List.mem_filterMap.mpr ⟨_, hJump, rfl⟩
      rw [jumpsOf_append, jumpsOf_append, List.mem_append, List.mem_append] at hMem
      rcases hMem with hJump | hJump | hJump
      · cases hJump
      · rcases hTop.jump hJump with hReturn | hLoop
        · exact absurd hReturn hTarget
        · exact .inl (.inl hLoop)
      · rcases hFunctions.jump hJump with hReturn | hLoop | hSkip
        · exact absurd hReturn hTarget
        · exact .inl (.inr hLoop)
        · exact .inr (.inr hSkip)
    · intro name args hCall
      refine List.count_eq_one_of_mem hDistinct (hPerm.mem_iff.mpr ?_)
      exact List.mem_append_right _ (List.mem_append_left _ (hCalls name args hCall))

end

def CallsDeclared (functions : List String) : Word → Prop
  | .callee s => ∀ name, s = ":" ++ name → name ∈ functions
  | _ => True

def CallsNames : Leaf → Prop
  | .callee x => IsName x
  | _ => True

theorem callsNames_of_spelled {x : Leaf} (h : Syntax.Spelled IsName x) : CallsNames x := by
  cases x with
  | callee => exact h
  | _ => trivial

theorem spells_declared (table : ScopeTable) :
    Spells table CallsNames (CallsDeclared table.functionNames) where
  text _ _ := trivial
  integer _ := trivial
  register := trivial
  remark _ _ := trivial
  loop _ := trivial
  stop := trivial
  function _ _ := ⟨trivial, trivial⟩
  callee x hx := by
    intro name hName
    unfold calledText at hName
    split at hName
    · next hFunction =>
      have hSame : x = name := String.toList_inj.mp (by simpa using congrArg String.toList hName)
      rw [← hSame]
      exact ScopeTable.functionScope?_isSome_iff.mp hFunction
    · have hPart := hx.part ':' (by simp [hName])
      exact absurd hPart (by decide)

theorem startsWith_of_isProgram {root : Node} (h : root.isProgram = true) :
    ∀ x ∈ ScopeTable.declaredFunctions (ScopeTable.itemsOf root),
      Text.startsWith Syntax.Parser.reservedLead x = false := by
  cases root with
  | block span items synthetic =>
    simp only [Node.isProgram, Bool.and_eq_true, List.all_eq_true] at h
    have hItems := h.2
    clear h
    change ∀ x ∈ ScopeTable.declaredFunctions items, _
    induction items with
    | nil => rintro x ⟨⟩
    | cons n rest ih =>
      obtain ⟨hn, hRest⟩ := List.forall_mem_cons.mp hItems
      cases n with
      | func span name params body =>
        simp only [Node.isItem, Bool.and_eq_true, Bool.not_eq_true'] at hn
        exact List.forall_mem_cons.mpr ⟨hn.1.1, ih hRest⟩
      | _ => exact ih hRest
  | _ => cases h

/-- In the program of a source that is accepted and lowered, labels are told apart and found exactly
if no function is called like the end of the script or like the end of a function. -/
theorem treeAndProgram_resolves_iff {settings : Settings} {file : Int} {source : List Char}
    {root : Node} {p : Program} {log log' : List Remark}
    (h : (Stage.treeAndProgram settings file source).run log = (.ok (root, p), log')) :
    Resolves p ↔ endOfFile ∉ ScopeTable.declaredFunctions (ScopeTable.itemsOf root) ∧
      ∀ f ∈ ScopeTable.declaredFunctions (ScopeTable.itemsOf root),
        endLabel f ∉ ScopeTable.declaredFunctions (ScopeTable.itemsOf root) := by
  obtain ⟨b⟩ := Stage.reached_of_run h
  have hFormed := Stage.formed_of_tokens b.tokens_eq b.parse_eq b.result_eq
  obtain ⟨hLeaves, hDeclared⟩ := everyLeaf_of_flatten? b.flatten_eq (P := fun _ => CallsNames)
    (fun _ _ => trivial) (everyLeaf_itemsOf fun x hx => callsNames_of_spelled (hFormed.leaves x hx))
  obtain ⟨regions, s, hRun, rfl⟩ := exists_run_of_lower_eq_ok b.lower_eq
  obtain ⟨T, F, k, hJoined, hTop, hFunctions⟩ := assembled_of_lowerRegions hRun
  have hWords := words_of_lowerRegions (spells_declared b.flatTable) hLeaves hRun
  rw [functionNames_of_flatten? b.flatten_eq, ScopeTable.build_functionNames b.build_eq] at hWords
  rw [hDeclared] at hFunctions
  rw [hJoined] at hWords ⊢
  refine resolves_iff (ScopeTable.nodup_declared b.build_eq) (startsWith_of_isProgram hFormed.shape)
    hTop hFunctions fun name args hCall => ?_
  have hWord := calleeWord_mem_wordsOf _ hCall
  rw [wordsOf_append] at hWord
  rcases List.mem_append.mp hWord with hWord | hWord
  · simp [setup, wordsOf, Stmt.words, Fragment.calleeWord] at hWord
  · exact hWords _ hWord name rfl

theorem exists_run_of_toOption {α : Type} {m : Stage α} {log : List Remark} {a : α}
    (h : (m.run log).1.toOption = some a) : ∃ log', m.run log = (.ok a, log') := by
  rcases hRun : m.run log with ⟨r, log'⟩
  rw [hRun] at h
  cases r with
  | error e => cases h
  | ok b =>
    cases h
    exact ⟨log', rfl⟩

def loopSource : List Char :=
  ("func f(x) \x7b while (x == 1) g(x); \x7d func g(y) \x7b while (y == 2) f(y); \x7d " ++
    "while (a) g(a);").toList

theorem treeAndProgram_resolves_iff_loopSource :
    ∃ root p log, (Stage.treeAndProgram {} 0 loopSource).run [] = (.ok (root, p), log) ∧
      ScopeTable.declaredFunctions (ScopeTable.itemsOf root) = ["f", "g"] ∧
      labelsOf p = ["__L0", "f", "__L1", "f__end", "g", "__L2", "g__end"] ∧ Resolves p := by
  have hEval : ((Stage.treeAndProgram {} 0 loopSource).run []).1.toOption.map
      (fun x => (ScopeTable.declaredFunctions (ScopeTable.itemsOf x.1), labelsOf x.2)) =
      some (["f", "g"], ["__L0", "f", "__L1", "f__end", "g", "__L2", "g__end"]) := by
    decide +kernel
  obtain ⟨⟨root, p⟩, hSome, hEq⟩ := Option.map_eq_some_iff.mp hEval
  obtain ⟨hFunctions, hLabels⟩ := Prod.mk.inj hEq
  obtain ⟨log, hRun⟩ := exists_run_of_toOption hSome
  refine ⟨root, p, log, hRun, hFunctions, hLabels, (treeAndProgram_resolves_iff hRun).mpr ?_⟩
  rw [hFunctions]
  decide

def endSource : List Char :=
  "func f() \x7b echo(1); \x7d func f__end() \x7b echo(2); \x7d f__end();".toList

/-- The call of the function leads to the end of the other one. -/
theorem not_resolves_endSource :
    ∃ root p log, (Stage.treeAndProgram {} 0 endSource).run [] = (.ok (root, p), log) ∧
      labelsOf p = ["f", "f__end", "f__end", "f__end__end"] ∧ ¬ Resolves p := by
  have hEval : ((Stage.treeAndProgram {} 0 endSource).run []).1.toOption.map
      (fun x => labelsOf x.2) = some ["f", "f__end", "f__end", "f__end__end"] := by decide +kernel
  obtain ⟨⟨root, p⟩, hSome, hLabels⟩ := Option.map_eq_some_iff.mp hEval
  obtain ⟨log, hRun⟩ := exists_run_of_toOption hSome
  refine ⟨root, p, log, hRun, hLabels, fun h => ?_⟩
  have hNodup := h.nodup
  rw [hLabels] at hNodup
  exact absurd hNodup (by decide)

end BatchCompiler.Lowering
