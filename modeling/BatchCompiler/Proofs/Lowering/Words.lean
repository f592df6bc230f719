import BatchCompiler.Proofs.Lowering.Regions
import BatchCompiler.Proofs.Meaning.Script

/-!
# The words of code

What a program is spelled with besides the names of variables: texts, remarks, labels, and the names
of what is called. They come from the source, or are made from numbers and the names of functions, so
that none of them breaks a line unless a text or a remark of the source does.
-/

namespace BatchCompiler

open Text

def lineBreaks : List Char := ['\n', '\r']

abbrev OnOneLine (s : String) : Prop := Avoids lineBreaks s

theorem onOneLine_of_isNamePart {s : String} (h : ∀ c ∈ s.toList, isNamePart c = true) :
    OnOneLine s :=
  avoids_of_isNamePart (by decide) h

/-- No text or remark breaks a line, and whatever a line would not call is a function. -/
def Leaf.Plain (declared : List String) : Leaf → Prop
  | .name _ => True
  | .callee x => x ∈ Script.ownWords → x ∈ declared
  | .text s | .remark s => OnOneLine s

instance Leaf.decidablePlain (declared : List String) : DecidablePred (Leaf.Plain declared)
  | .name _ => .isTrue trivial
  | .callee x => inferInstanceAs (Decidable (x ∈ Script.ownWords → x ∈ declared))
  | .text s | .remark s => inferInstanceAs (Decidable (OnOneLine s))

def Leaf.Clean (declared : List String) : Leaf → Prop
  | .name x => ∀ c ∈ x.toList, isNamePart c = true
  | .callee x => IsName x ∧ (x ∈ Script.ownWords → x ∈ declared)
  | .text s | .remark s => OnOneLine s

theorem Leaf.Plain.clean {declared : List String} {x : Leaf} (h : x.Plain declared)
    (hSpelled : Syntax.Spelled IsName x) : x.Clean declared := by
  cases x with
  | name x => exact hSpelled.part
  | callee x => exact ⟨hSpelled, h⟩
  | text s | remark s => exact h

namespace Target

variable {s : Stmt} {rest : List Stmt}

inductive Word where
  | text (value : String)
  | remark (text : String)
  | label (name : String)
  | callee (name : String)
  | raw (text : String)
  | unnamed

def Word.Clean : Word → Prop
  | .text s | .remark s => OnOneLine s
  | .label s => ∀ c ∈ s.toList, isNamePart c = true
  | .callee s => OnOneLine s ∧ (startsWith ":" s = true ∨ (IsName s ∧ s ∉ Script.ownWords))
  | .raw s => .raw s ∈ Lowering.setup
  | .unnamed => False

def Fragment.words : Fragment → List Word
  | .text s => [.text s]
  | _ => []

def textWords (fs : List Fragment) : List Word :=
  fs.flatMap Fragment.words

def Comparison.words (c : Comparison) : List Word :=
  textWords c.left ++ textWords c.right

def Fragment.calleeWord : Fragment → Word
  | .text s => .callee s
  | _ => .unnamed

mutual

def Stmt.words : Stmt → List Word
  | .absent | .setNumber .. => []
  | .raw t => [.raw t]
  | .comment t => [.remark t]
  | .label n | .jump n => [.label n]
  | .setText _ value => textWords value
  | .call callee args => callee.calleeWord :: args.flatMap textWords
  | .whenTrue c body => c.words ++ wordsOf body
  | .choose c thenBody elseBody => c.words ++ wordsOf thenBody ++ wordsOf elseBody

def wordsOf : List Stmt → List Word
  | [] => []
  | s :: rest => s.words ++ wordsOf rest

end

theorem wordsOf_append (a b : List Stmt) : wordsOf (a ++ b) = wordsOf a ++ wordsOf b := by
  induction a with
  | nil => simp [wordsOf]
  | cons s rest ih => simp [wordsOf, ih]

theorem words_cons {Q : Word → Prop} (hs : ∀ w ∈ s.words, Q w) (hRest : ∀ w ∈ wordsOf rest, Q w) :
    ∀ w ∈ wordsOf (s :: rest), Q w :=
  List.forall_mem_append.mpr ⟨hs, hRest⟩

theorem words_label {Q : Word → Prop} {name : String} (h : Q (.label name)) :
    ∀ w ∈ (Stmt.label name).words, Q w :=
  List.forall_mem_cons.mpr ⟨h, nofun⟩

theorem words_jump {Q : Word → Prop} {target : String} (h : Q (.label target)) :
    ∀ w ∈ (Stmt.jump target).words, Q w :=
  List.forall_mem_cons.mpr ⟨h, nofun⟩

theorem words_framed_fragment (f : Fragment) :
    f.framed.words = f.words ∧ f.framed.calleeWord = f.calleeWord := by
  cases f <;> exact ⟨rfl, rfl⟩

theorem textWords_framed (fs : List Fragment) : textWords (fs.map Fragment.framed) = textWords fs := by
  simp only [textWords, List.flatMap_map, words_framed_fragment]

theorem words_framed_comparison (c : Comparison) : c.framed.words = c.words := by
  simp only [Comparison.framed, Comparison.words, textWords_framed]

mutual

theorem words_framed : (s : Stmt) → s.framed.words = s.words
  | .setText _ value => textWords_framed value
  | .call callee args => by
    simp only [Stmt.framed, Stmt.words, words_framed_fragment, List.flatMap_map, textWords_framed]
  | .whenTrue c body => by
    simp only [Stmt.framed, Stmt.words, words_framed_comparison, wordsOf_framed body]
  | .choose c t e => by
    simp only [Stmt.framed, Stmt.words, words_framed_comparison, wordsOf_framed t, wordsOf_framed e]
  | .absent | .raw _ | .comment _ | .label _ | .jump _ | .setNumber .. => rfl

theorem wordsOf_framed : (code : List Stmt) → wordsOf (framed code) = wordsOf code
  | [] => rfl
  | s :: rest => by simp only [framed, wordsOf, words_framed s, wordsOf_framed rest]

end

abbrev NamesIn (uses : List (Use × Place)) : Prop :=
  KeepsTo (fun x => ∀ c ∈ x.toList, isNamePart c = true) uses

structure Stmt.Clean (s : Stmt) : Prop where
  words : ∀ w ∈ s.words, w.Clean
  names : NamesIn s.uses

def Stmt.headWords : Stmt → List Word
  | .whenTrue c _ => c.words
  | .choose c _ _ => c.words
  | s => s.words

def Stmt.headUses : Stmt → List (Use × Place)
  | .whenTrue c _ => c.uses
  | .choose c _ _ => c.uses
  | s => s.uses

theorem headWords_subset (s : Stmt) : s.headWords ⊆ s.words ∧ s.headUses ⊆ s.uses := by
  cases s with
  | whenTrue c body => exact ⟨List.subset_append_left _ _, List.subset_append_left _ _⟩
  | choose c t e =>
    rw [Stmt.words, Stmt.uses, List.append_assoc, List.append_assoc]
    exact ⟨List.subset_append_left _ _, List.subset_append_left _ _⟩
  | _ => exact ⟨List.Subset.refl _, List.Subset.refl _⟩

/-- The code is spelled so that each statement of it gives the lines that it should. -/
structure Clean (code : List Stmt) : Prop where
  words : ∀ w ∈ wordsOf code, w.Clean
  names : NamesIn (usesOf code)

theorem Clean.head (h : Clean (s :: rest)) : s.Clean :=
  ⟨fun w hw => h.words w (List.mem_append_left _ hw),
    fun u p hp => h.names u p (List.mem_append_left _ hp)⟩

theorem Clean.tail (h : Clean (s :: rest)) : Clean rest :=
  ⟨fun w hw => h.words w (List.mem_append_right _ hw),
    fun u p hp => h.names u p (List.mem_append_right _ hp)⟩

theorem Stmt.Clean.body {c : Comparison} {body : List Stmt} (h : (Stmt.whenTrue c body).Clean) :
    Target.Clean body :=
  ⟨fun w hw => h.words w (List.mem_append_right _ hw),
    fun u p hp => h.names u p (List.mem_append_right _ hp)⟩

theorem Stmt.Clean.thenBody {c : Comparison} {thenBody elseBody : List Stmt}
    (h : (Stmt.choose c thenBody elseBody).Clean) : Target.Clean thenBody :=
  ⟨fun w hw => h.words w (List.mem_append_left _ (List.mem_append_right _ hw)),
    fun u p hp => h.names u p (List.mem_append_left _ (List.mem_append_right _ hp))⟩

theorem Stmt.Clean.elseBody {c : Comparison} {thenBody elseBody : List Stmt}
    (h : (Stmt.choose c thenBody elseBody).Clean) : Target.Clean elseBody :=
  ⟨fun w hw => h.words w (List.mem_append_right _ hw),
    fun u p hp => h.names u p (List.mem_append_right _ hp)⟩

end Target

namespace Lowering

open Target

variable {regions : List (Region × List Stmt)}

def calledText (table : ScopeTable) (name : String) : String :=
  if table.isFunction name then ":" ++ name else name

/-- Code is spelled with words that have the property `Q` if its source is spelled with leaves that
have the property `P`. -/
structure Spells (table : ScopeTable) (P : Leaf → Prop) (Q : Word → Prop) : Prop where
  text : ∀ s, P (.text s) → Q (.text s)
  integer : ∀ z, Q (.text (Number.intText z))
  register : Q (.text returnRegister)
  remark : ∀ s, P (.remark s) → Q (.remark s)
  loop : ∀ k, Q (.label (labelName k))
  stop : Q (.label endOfFile)
  function : ∀ x, P (.callee x) → Q (.label x) ∧ Q (.label (endLabel x))
  callee : ∀ x, P (.callee x) → Q (.callee (calledText table x))

section

variable {table : ScopeTable} {P : Leaf → Prop} {Q : Word → Prop} (hSpells : Spells table P Q)

variable {scope : String} {n : Node}

include hSpells

theorem TextFor.words {fs : List Fragment} (hn : n.EveryLeaf P) (h : TextFor n fs) :
    ∀ w ∈ textWords fs, Q w := by
  induction h with
  | bool | number => exact List.forall_mem_singleton.mpr (hSpells.integer _)
  | string span v =>
    exact List.forall_mem_singleton.mpr (hSpells.text v (Node.everyLeaf_string_iff.mp hn))
  | read h => exact nofun
  | concat hl hr ihl ihr =>
    obtain ⟨hLeft, hRight⟩ := Node.everyLeaf_concat_iff.mp hn
    rw [textWords, List.flatMap_append]
    exact List.forall_mem_append.mpr ⟨ihl hLeft, ihr hRight⟩

theorem words_isOne {f : Fragment} (h : ∀ w ∈ f.words, Q w) : ∀ w ∈ (isOne f).words, Q w := by
  have hOne : Q (.text "1") := hSpells.integer 1
  simpa [isOne, Comparison.words, textWords, Fragment.words, or_imp, forall_and] using ⟨h, hOne⟩

theorem words_of_lowerCondition {c : Comparison} (hn : n.EveryLeaf P)
    (h : lowerCondition scope n = .ok c) : ∀ w ∈ c.words, Q w := by
  have hTruth : ∀ b : Bool, Q (.text (if b then "1" else "0")) := by
    intro b
    cases b
    · exact hSpells.integer 0
    · exact hSpells.integer 1
  cases conditionFor_of_lowerCondition h with
  | texts hOp hl hr =>
    obtain ⟨hLeft, hRight⟩ := Node.everyLeaf_strCompare_iff.mp hn
    exact List.forall_mem_append.mpr ⟨hl.words hSpells hLeft, hr.words hSpells hRight⟩
  | relation hRelational hOp hl hr =>
    obtain ⟨hLeft, hRight⟩ := Node.everyLeaf_binary_iff.mp hn
    exact List.forall_mem_append.mpr ⟨hl.words hSpells hLeft, hr.words hSpells hRight⟩
  | read => exact words_isOne hSpells nofun
  | bool | number => exact words_isOne hSpells (List.forall_mem_singleton.mpr (hTruth _))

theorem words_of_mapM_lowerText {ns : List Node} {texts : List (List Fragment)}
    (hns : ∀ n ∈ ns, n.EveryLeaf P) (h : ns.mapM (lowerText scope) = .ok texts) :
    ∀ w ∈ texts.flatMap textWords, Q w := by
  have hEach := forall₂_of_mapM_lowerText h
  clear h
  induction hEach with
  | nil => exact nofun
  | cons h _ ih =>
    obtain ⟨hn, hRest⟩ := List.forall_mem_cons.mp hns
    rw [List.flatMap_cons]
    exact List.forall_mem_append.mpr ⟨h.words hSpells hn, ih hRest⟩

theorem words_of_lowerAssign {dst : Place} {A : List Stmt} (hn : n.EveryLeaf P)
    (h : lowerAssign scope dst n = .ok A) : ∀ w ∈ wordsOf A, Q w := by
  have hStmts : ∀ s ∈ A, ∀ w ∈ s.words, Q w :=
    forall_of_lowerAssign (G := Node.EveryLeaf P)
      (fun span elems e hList he => Node.everyLeaf_list_iff.mp hList e he) hn
      (fun p n fs _ hn hfs => hfs.words hSpells hn) (fun _ _ _ _ _ _ => nofun) h
  clear h
  induction A with
  | nil => exact nofun
  | cons s rest ih =>
    obtain ⟨hs, hRest⟩ := List.forall_mem_cons.mp hStmts
    exact List.forall_mem_append.mpr ⟨hs, ih hRest⟩

theorem words_callStmt {name : String} {texts : List (List Fragment)} (hName : P (.callee name))
    (h : ∀ w ∈ texts.flatMap textWords, Q w) : ∀ w ∈ (callStmt table name texts).words, Q w := by
  have hCallee := hSpells.callee name hName
  unfold calledText at hCallee
  unfold callStmt
  split
  · next hFunction =>
    rw [if_pos hFunction] at hCallee
    have hFrame : Q (.text frameNumber) := hSpells.integer 0
    refine List.forall_mem_cons.mpr ⟨hCallee, ?_⟩
    exact List.forall_mem_cons.mpr ⟨hSpells.register, List.forall_mem_cons.mpr ⟨hFrame, h⟩⟩
  · next hCommand =>
    rw [if_neg hCommand] at hCallee
    exact List.forall_mem_cons.mpr ⟨hCallee, h⟩

end

theorem isNamePart_append {a b : String} (ha : ∀ c ∈ a.toList, isNamePart c = true)
    (hb : ∀ c ∈ b.toList, isNamePart c = true) : ∀ c ∈ (a ++ b).toList, isNamePart c = true := by
  rw [String.toList_append]
  exact List.forall_mem_append.mpr ⟨ha, hb⟩

theorem wordsOf_parameterCopies (slot : Int) (params : List String) :
    wordsOf (parameterCopies slot params) = [] := by
  induction params generalizing slot with
  | nil => rfl
  | cons x rest ih => exact ih (slot + 1)

section

variable {c : Context} {P : Leaf → Prop} {Q : Word → Prop} (hSpells : Spells c.table P Q)

variable {ns : List Node} {k k' : Nat} {regions : List (Region × List Stmt)}

include hSpells

theorem Lowered.words {function scope : String} {T : List Stmt}
    (h : Lowered { c with function := function, scope := scope } ns k T k')
    (hns : ∀ n ∈ ns, n.EveryLeaf P) : ∀ w ∈ wordsOf T, Q w := by
  induction h with
  | nil => exact nofun
  | skip hn h ih => exact ih (List.forall_mem_cons.mp hns).2
  | comment h ih =>
    obtain ⟨hn, hRest⟩ := List.forall_mem_cons.mp hns
    have hRemark := hSpells.remark _ (Node.everyLeaf_comment_iff.mp hn)
    exact words_cons (List.forall_mem_cons.mpr ⟨hRemark, nofun⟩) (ih hRest)
  | block hBody h ihBody ih =>
    obtain ⟨hn, hRest⟩ := List.forall_mem_cons.mp hns
    rw [wordsOf_append]
    exact List.forall_mem_append.mpr ⟨ihBody (Node.everyLeaf_block_iff.mp hn), ih hRest⟩
  | call hArgs h ih =>
    obtain ⟨hn, hRest⟩ := List.forall_mem_cons.mp hns
    obtain ⟨hCallee, hArgLeaves⟩ := Node.everyLeaf_call_iff.mp hn
    have hTexts := words_of_mapM_lowerText hSpells hArgLeaves hArgs
    exact words_cons (words_callStmt hSpells (hCallee _ List.mem_cons_self) hTexts) (ih hRest)
  | assign hLhs hRhs h ih =>
    obtain ⟨hn, hRest⟩ := List.forall_mem_cons.mp hns
    rw [wordsOf_append]
    exact List.forall_mem_append.mpr
      ⟨words_of_lowerAssign hSpells (Node.everyLeaf_assign_iff.mp hn).2 hRhs, ih hRest⟩
  | branch hCond hThen h ihThen ih =>
    obtain ⟨hn, hRest⟩ := List.forall_mem_cons.mp hns
    obtain ⟨hTest, hBody, _⟩ := Node.everyLeaf_branch_iff.mp hn
    have hHead := words_of_lowerCondition hSpells hTest hCond
    refine words_cons ?_ (ih hRest)
    exact List.forall_mem_append.mpr ⟨hHead, ihThen (by simpa using hBody)⟩
  | branchElse hElseBody hCond hThen hElse h ihThen ihElse ih =>
    obtain ⟨hn, hRest⟩ := List.forall_mem_cons.mp hns
    obtain ⟨hTest, hBody, hOther⟩ := Node.everyLeaf_branch_iff.mp hn
    have hHead := List.forall_mem_append.mpr
      ⟨words_of_lowerCondition hSpells hTest hCond, ihThen (by simpa using hBody)⟩
    refine words_cons ?_ (ih hRest)
    exact List.forall_mem_append.mpr ⟨hHead, ihElse (by simpa using hOther)⟩
  | @loop _ _ _ _ _ _ _ k _ _ hCond hBody h ihBody ih =>
    obtain ⟨hn, hRest⟩ := List.forall_mem_cons.mp hns
    obtain ⟨hTest, hRound⟩ := Node.everyLeaf_loop_iff.mp hn
    have hLabel := hSpells.loop k
    refine words_cons (words_label hLabel) (words_cons ?_ (ih hRest))
    refine List.forall_mem_append.mpr ⟨words_of_lowerCondition hSpells hTest hCond, ?_⟩
    rw [wordsOf_append]
    exact List.forall_mem_append.mpr
      ⟨ihBody (by simpa using hRound), words_cons (words_jump hLabel) nofun⟩
  | ret h ih =>
    obtain ⟨_, hRest⟩ := List.forall_mem_cons.mp hns
    exact words_cons (words_jump hSpells.stop) (ih hRest)
  | retValue he hFunction hValue h ih =>
    obtain ⟨hn, hRest⟩ := List.forall_mem_cons.mp hns
    rw [wordsOf_append]
    refine List.forall_mem_append.mpr
      ⟨words_of_lowerAssign hSpells (Node.everyLeaf_ret_iff.mp hn) hValue, ?_⟩
    exact words_cons (words_jump hSpells.stop) (ih hRest)

theorem words_assemble {name : String} {params : List String} {body : List Stmt}
    (hName : P (.callee name)) (hBody : ∀ w ∈ wordsOf body, Q w) :
    ∀ w ∈ wordsOf (assemble name params body), Q w := by
  obtain ⟨hLabel, hEnd⟩ := hSpells.function name hName
  have hReturn : ∀ w ∈ wordsOf (if endsWithReturn body then [] else [.jump endOfFile]), Q w := by
    split
    · exact nofun
    · exact words_cons (words_jump hSpells.stop) nofun
  have hFirst : ∀ w ∈ wordsOf [.jump (endLabel name), .label name], Q w :=
    words_cons (words_jump hEnd) (words_cons (words_label hLabel) nofun)
  have hLast : ∀ w ∈ wordsOf [.label (endLabel name)], Q w := words_cons (words_label hEnd) nofun
  simp only [assemble, wordsOf_append, wordsOf_parameterCopies, List.append_nil,
    List.forall_mem_append]
  exact ⟨⟨⟨hFirst, hBody⟩, hReturn⟩, hLast⟩

theorem words_of_loweredEach (h : LoweredEach c ns k regions k') (hns : ∀ n ∈ ns, n.EveryLeaf P) :
    ∀ w ∈ wordsOf (joined regions), Q w := by
  induction h with
  | nil => exact nofun
  | cons _ hBody hFrame _ _ ih =>
    obtain ⟨hn, hRest⟩ := List.forall_mem_cons.mp hns
    obtain ⟨hName, _, hLeaves⟩ := Node.everyLeaf_func_iff.mp hn
    have hWords := hBody.words hSpells (by simpa using hLeaves)
    rw [← wordsOf_framed, ← eq_framed _ _ hFrame] at hWords
    rw [joined, List.flatMap_cons, wordsOf_append]
    exact List.forall_mem_append.mpr ⟨words_assemble hSpells hName hWords, ih hRest⟩

theorem words_of_lowerRegions {items : List Node} {s s' : Progress}
    (hItems : ∀ n ∈ items, n.EveryLeaf P) (h : (lowerRegions c items).run s = (.ok regions, s')) :
    ∀ w ∈ wordsOf (joined regions), Q w := by
  obtain ⟨top, funcs, k, rfl, hTop, hFuncs⟩ := exists_of_lowerRegions h
  have hTopWords := hTop.words hSpells fun n hn => hItems n (List.mem_filter.mp hn).1
  have hFunctions := words_of_loweredEach hSpells hFuncs
    fun n hn => hItems n (List.mem_filter.mp hn).1
  rw [joined, List.flatMap_cons, wordsOf_append]
  exact List.forall_mem_append.mpr ⟨hTopWords, hFunctions⟩

end

theorem onOneLine_intText (z : Int) : OnOneLine (Number.intText z) :=
  avoids_intText (by decide) (by decide) z

theorem isNamePart_labelName (k : Nat) : ∀ c ∈ (labelName k).toList, isNamePart c = true :=
  isNamePart_append (by decide) fun _ => isNamePart_of_mem_natText

theorem isNamePart_endOfFile : ∀ c ∈ endOfFile.toList, isNamePart c = true := by
  decide

theorem clean_callee_function {name : String} (h : IsName name) :
    (Word.callee (":" ++ name)).Clean := by
  refine ⟨avoids_append ?_ (onOneLine_of_isNamePart h.part), .inl (startsWith_append ":" name)⟩
  intro c hc
  rw [List.mem_singleton.mp hc]
  decide

theorem spells_clean {table : ScopeTable} {declared : List String}
    (hTable : ∀ x ∈ declared, table.isFunction x = true) :
    Spells table (Leaf.Clean declared) Word.Clean where
  text _ hs := hs
  integer z := onOneLine_intText z
  register := onOneLine_of_isNamePart (by decide)
  remark _ hs := hs
  loop k := isNamePart_labelName k
  stop := isNamePart_endOfFile
  function x hx := ⟨hx.1.part, isNamePart_append hx.1.part (by decide)⟩
  callee x hx := by
    unfold calledText
    split
    · exact clean_callee_function hx.1
    · next hCommand =>
      refine ⟨onOneLine_of_isNamePart hx.1.part, .inr ⟨hx.1, fun hOwn => ?_⟩⟩
      exact hCommand (hTable x (hx.2 hOwn))

theorem LoweredEach.isFunction {c : Context} {ns : List Node} {k k' : Nat}
    (h : LoweredEach c ns k regions k') :
    ∀ x ∈ ScopeTable.declaredFunctions ns, c.table.isFunction x = true := by
  induction h with
  | nil => exact nofun
  | cons hScope _ _ _ _ ih =>
    refine List.forall_mem_cons.mpr ⟨?_, ih⟩
    rw [ScopeTable.isFunction, hScope, Option.isSome_some]

theorem isFunction_of_lowerRegions {c : Context} {items : List Node} {s s' : Progress}
    (h : (lowerRegions c items).run s = (.ok regions, s')) :
    ∀ x ∈ ScopeTable.declaredFunctions items, c.table.isFunction x = true := by
  obtain ⟨top, funcs, k, -, -, hFuncs⟩ := exists_of_lowerRegions h
  rw [← declaredFunctions_filter]
  exact hFuncs.isFunction

theorem everyLeaf_itemsOf {P : Leaf → Prop} {root : Node} (h : root.EveryLeaf P) :
    ∀ n ∈ ScopeTable.itemsOf root, n.EveryLeaf P := by
  cases root with
  | absent => exact nofun
  | block span stmts synthetic => exact Node.everyLeaf_block_iff.mp h
  | _ => simpa [ScopeTable.itemsOf] using h

theorem keepsTo_joined {P : Region → Leaf → Prop} {Q : String → Prop}
    (hQ : ∀ r x, P r (.name x) → Q x) (h : ∀ x ∈ regions, Owns P x.1 x.2) :
    KeepsTo Q (usesOf (joined regions)) := by
  induction regions with
  | nil => exact keepsTo_nil
  | cons x rest ih =>
    obtain ⟨hx, hRest⟩ := List.forall_mem_cons.mp h
    rw [joined, List.flatMap_cons, usesOf_append]
    refine keepsTo_append (fun u p hp => ?_) (ih hRest)
    rcases hx.keepsTo u p hp with ⟨name, hBase, hName⟩ | hSlot
    · exact .inl ⟨name, hBase, hQ x.1 name hName⟩
    · exact .inr hSlot

theorem clean_setup : Target.Clean setup where
  words := by
    intro w hw
    simp only [setup, wordsOf, Stmt.words, List.cons_append, List.nil_append, List.mem_cons,
      List.not_mem_nil, or_false] at hw
    rcases hw with rfl | rfl | rfl
    · exact List.mem_cons_self
    · exact List.mem_cons_of_mem _ List.mem_cons_self
    · exact List.mem_cons_of_mem _ (List.mem_cons_of_mem _ List.mem_cons_self)
  names := keepsTo_nil

theorem isNamePart_temporaryName (k : Nat) :
    ∀ c ∈ (Syntax.Flattening.temporaryName k).toList, isNamePart c = true :=
  isNamePart_append (by decide) fun _ => isNamePart_of_mem_natText

theorem clean_program {settings : Settings} {file : Int} {source : List Char}
    (b : Compiled settings file source)
    (h : b.root.EveryLeaf (Leaf.Plain (ScopeTable.declaredFunctions (ScopeTable.itemsOf b.root)))) :
    Target.Clean b.program := by
  have hFormed := Stage.formed_of_tokens b.tokens_eq b.parse_eq b.result_eq
  have hRoot : b.root.EveryLeaf
      (Leaf.Clean (ScopeTable.declaredFunctions (ScopeTable.itemsOf b.root))) :=
    fun x hx => (h x hx).clean (hFormed.leaves x hx)
  obtain ⟨hFlat, hDeclared⟩ := everyLeaf_of_flatten? b.flatten_eq
    (P := fun _ => Leaf.Clean (ScopeTable.declaredFunctions (ScopeTable.itemsOf b.root)))
    (fun _ k => isNamePart_temporaryName k) (everyLeaf_itemsOf hRoot)
  obtain ⟨regions, s, hRun, hProgram, _⟩ := exists_run_lowerRegions b
  rw [hProgram]
  constructor
  · rw [wordsOf_append]
    have hTable := isFunction_of_lowerRegions hRun
    rw [hDeclared] at hTable
    exact List.forall_mem_append.mpr
      ⟨clean_setup.words, words_of_lowerRegions (spells_clean hTable) hFlat hRun⟩
  · rw [usesOf_append]
    refine keepsTo_append clean_setup.names ?_
    have hOwns := (owns_of_lowerRegions (P := fun _ => Leaf.Clean _) hFlat hRun).1
    exact keepsTo_joined (fun _ _ hx => hx) hOwns

end Lowering

end BatchCompiler
