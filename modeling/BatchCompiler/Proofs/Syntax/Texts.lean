import BatchCompiler.Proofs.Syntax.Acceptance
import BatchCompiler.Proofs.Syntax.Induction

/-!
# The texts of a program

The texts of a tree are those of the string literals that it was parsed from, one for one and in the
same order. None is dropped, and none is made up.
-/

namespace BatchCompiler

variable {s : String} {ns : List Node} {ts : List Token}

def Token.text? (t : Token) : Option String :=
  if t.kind = .string then some t.value else none

def Syntax.literals (ts : List Token) : List String :=
  ts.filterMap Token.text?

def Leaf.text? : Leaf → Option String
  | .text s => some s
  | _ => none

theorem Leaf.text?_eq_some {x : Leaf} : x.text? = some s ↔ x = .text s := by
  cases x <;> simp [text?]

namespace Node

def texts (n : Node) : List String :=
  n.leaves.filterMap Leaf.text?

def textsOf (ns : List Node) : List String :=
  (leavesOf ns).filterMap Leaf.text?

theorem mem_texts {n : Node} : s ∈ n.texts ↔ .text s ∈ n.leaves := by
  simp [texts, Leaf.text?_eq_some]

section

variable {span : Span}

@[simp] theorem textsOf_nil : textsOf [] = [] := rfl

@[simp] theorem textsOf_cons (n : Node) (rest : List Node) :
    textsOf (n :: rest) = n.texts ++ textsOf rest :=
  List.filterMap_append

@[simp] theorem texts_subscript (array index : Node) :
    (Node.subscript span array index).texts = array.texts ++ index.texts :=
  List.filterMap_append

@[simp] theorem texts_list (elems : List Node) : (Node.list span elems).texts = textsOf elems := rfl

@[simp] theorem texts_block (stmts : List Node) (synthetic : Bool) :
    (Node.block span stmts synthetic).texts = textsOf stmts := rfl

@[simp] theorem texts_ret (e : Node) : (Node.ret span e).texts = e.texts := rfl

@[simp] theorem texts_binary (op : TokenKind) (l r : Node) :
    (Node.binary span op l r).texts = l.texts ++ r.texts :=
  List.filterMap_append

@[simp] theorem texts_concat (l r : Node) : (Node.concat span l r).texts = l.texts ++ r.texts :=
  List.filterMap_append

@[simp] theorem texts_strCompare (op : TokenKind) (l r : Node) :
    (Node.strCompare span op l r).texts = l.texts ++ r.texts :=
  List.filterMap_append

@[simp] theorem texts_assign (lhs rhs : Node) :
    (Node.assign span lhs rhs).texts = lhs.texts ++ rhs.texts :=
  List.filterMap_append

@[simp] theorem texts_loop (cond body : Node) :
    (Node.loop span cond body).texts = cond.texts ++ body.texts :=
  List.filterMap_append

@[simp] theorem texts_branch (cond thenBody elseBody : Node) :
    (Node.branch span cond thenBody elseBody).texts =
      cond.texts ++ thenBody.texts ++ elseBody.texts := by
  simp only [texts, leaves, List.filterMap_append]

@[simp] theorem texts_call (callee : Node) (args : List Node) :
    (Node.call span callee args).texts = textsOf args := by
  have hCallee : callee.calleeLeaves.filterMap Leaf.text? = [] := by cases callee <;> rfl
  simp only [texts, textsOf, leaves, List.filterMap_append, hCallee, List.nil_append]

@[simp] theorem texts_func (name : String) (params : List Node) (body : Node) :
    (Node.func span name params body).texts = textsOf params ++ body.texts := by
  simp only [texts, textsOf, leaves, List.filterMap_cons, Leaf.text?, List.filterMap_append]

end

theorem mem_textsOf : s ∈ textsOf ns ↔ ∃ n ∈ ns, s ∈ n.texts := by
  induction ns with
  | nil => simp
  | cons n rest ih => simp [ih]

theorem textsOf_eq_nil (h : ∀ n ∈ ns, n.texts = []) : textsOf ns = [] := by
  induction ns with
  | nil => rfl
  | cons n rest ih =>
    obtain ⟨hn, hRest⟩ := List.forall_mem_cons.mp h
    rw [textsOf_cons, hn, ih hRest, List.nil_append]

theorem texts_combine (span : Span) (op : TokenKind) (l r : Node) :
    (Syntax.Parser.combine span op l r).texts = l.texts ++ r.texts := by
  unfold Syntax.Parser.combine
  split
  · split <;> simp
  · simp

theorem texts_applyPrefixOp (span : Span) (op : TokenKind) (e : Node) :
    (Syntax.Parser.applyPrefixOp span op e).texts = e.texts := by
  unfold Syntax.Parser.applyPrefixOp
  split <;> rfl

theorem textsOf_bareOf (h : ∀ n ∈ ns, n.bare.texts = n.texts) :
    textsOf (bareOf ns) = textsOf ns := by
  induction ns with
  | nil => rfl
  | cons n rest ih =>
    obtain ⟨hn, hRest⟩ := List.forall_mem_cons.mp h
    rw [bareOf, textsOf_cons]
    split
    · next hComment =>
      cases n with
      | comment => exact ih hRest
      | _ => cases hComment
    · rw [textsOf_cons, hn, ih hRest]

theorem texts_bare (n : Node) : n.bare.texts = n.texts := by
  induction n using Node.induction with
  | block span stmts synthetic ih => exact textsOf_bareOf ih
  | branch span cond thenBody elseBody _ ihThen ihElse => simp [bare, ihThen, ihElse]
  | loop span cond body _ ihBody | func span name params body _ ihBody => simp [bare, ihBody]
  | _ => rfl

end Node

namespace Syntax

open Node

variable {parts : List (List Token × Node)} {n : Node}

section

variable {t : Token} {ts us : List Token}

@[simp] theorem literals_nil : literals [] = [] := rfl

@[simp] theorem literals_cons : literals (t :: ts) = t.text?.toList ++ literals ts := by
  rw [literals, List.filterMap_cons]
  cases t.text? <;> rfl

@[simp] theorem literals_append : literals (ts ++ us) = literals ts ++ literals us :=
  List.filterMap_append

theorem literals_filter_isSignificant : literals (ts.filter isSignificant) = literals ts := by
  induction ts with
  | nil => rfl
  | cons t rest ih =>
    by_cases h : isSignificant t = true
    · rw [List.filter_cons_of_pos h, literals_cons, literals_cons, ih]
    · have hText : t.text? = none := if_neg fun hString => h (by simp [isSignificant, hString])
      rw [List.filter_cons_of_neg h, literals_cons, hText, ih]
      rfl

end

theorem Listed.textsOf (h : Listed parts ts) (hParts : ∀ x ∈ parts, x.2.texts = literals x.1) :
    Node.textsOf (parts.map Prod.snd) = literals ts := by
  induction h with
  | nil => rfl
  | one x => simp [hParts x List.mem_cons_self]
  | more hComma hRest hSome ih =>
    obtain ⟨hFirst, hOthers⟩ := List.forall_mem_cons.mp hParts
    simp [Token.text?, hComma, hFirst, ih hOthers]

theorem textsOf_flatMap (hParts : ∀ x ∈ parts, x.2.texts = literals x.1) :
    Node.textsOf (parts.map Prod.snd) = literals (parts.flatMap Prod.fst) := by
  induction parts with
  | nil => rfl
  | cons x rest ih =>
    obtain ⟨hFirst, hOthers⟩ := List.forall_mem_cons.mp hParts
    rw [List.map_cons, textsOf_cons, hFirst, ih hOthers, List.flatMap_cons, literals_append]

theorem Expression.texts {level : Level} (h : Expression level ts n) : n.texts = literals ts := by
  induction h with
  | number hKind | string hKind | yes hKind | no hKind =>
    simp [Token.text?, hKind, Node.texts, leaves, Leaf.text?]
  | float hKind hValue => simp [Token.text?, hKind, Node.texts, leaves]
  | name ht => simp [Token.text?, ht.kind, Node.texts, leaves, Leaf.text?]
  | list hFirst hParts hListed hLast ih => simp [Token.text?, hFirst, hLast, hListed.textsOf ih]
  | enclosed hFirst h hLast ih => simp [Token.text?, hFirst, hLast, ih]
  | ofPrimary h ih | ofPostfixed h ih | ofUnary h ih => exact ih
  | @call first last us ts callee parts hCallee hName hFirst hParts hListed hLast ihCallee ih =>
    have hNone : literals us = [] := by
      rw [← ihCallee]
      cases callee with
      | ident => rfl
      | _ => cases hName
    simp [Token.text?, hFirst, hLast, hNone, hListed.textsOf ih]
  | subscript hArray hPlace hFirst hIndex hLast ihArray ihIndex =>
    simp [Token.text?, hFirst, hLast, ihArray, ihIndex]
  | prefixed hOp h ih =>
    have hKind : ∀ kind ∈ prefixOperators, kind ≠ .string := by decide
    simp [Token.text?, hKind _ hOp, texts_applyPrefixOp, ih]
  | binary hLeast hOp hLeft hRight ihLeft ihRight =>
    have hNone : row? .string = none := by decide
    rw [texts_combine, ihLeft, ihRight, literals_append, literals_cons, Token.text?, if_neg]
    · rfl
    · intro hString
      rw [hString, hNone] at hOp
      cases hOp

theorem texts_of_isNamed {x : List Token × Node} (h : IsNamed x) : x.2.texts = literals x.1 := by
  obtain ⟨t, ht, rfl⟩ := h
  simp [Token.text?, ht.kind, Node.texts, leaves, Leaf.text?]

theorem Statement.texts (h : Statement ts n) : n.texts = literals ts := by
  have hAbsent : Node.absent.texts = [] := rfl
  induction h with
  | empty hKind => simp [Token.text?, hKind, Node.texts, leaves]
  | block hFirst hParts hLast ih => simp [Token.text?, hFirst, hLast, textsOf_flatMap ih]
  | branch hKeyword hFirst hCond hLast hBody ih =>
    simp [Token.text?, hKeyword, hFirst, hLast, hCond.texts, ih, hAbsent]
  | branchElse hKeyword hFirst hCond hLast hBody hNearest hOther hElse ih ihElse =>
    simp [Token.text?, hKeyword, hFirst, hLast, hOther, hCond.texts, ih, ihElse]
  | loop hKeyword hFirst hCond hLast hBody ih =>
    simp [Token.text?, hKeyword, hFirst, hLast, hCond.texts, ih]
  | ret hKeyword hLast => simp [Token.text?, hKeyword, hLast, hAbsent]
  | retValue hKeyword h hLast => simp [Token.text?, hKeyword, hLast, h.texts]
  | @globals keyword last parts ts hKeyword hParts hListed hSome hLast =>
    have hNone : ∀ n ∈ parts.map Prod.snd, n.texts = [] := by
      intro n hn
      obtain ⟨x, hx, rfl⟩ := List.mem_map.mp hn
      obtain ⟨t, _, rfl⟩ := hParts x hx
      rfl
    have hNames := hListed.textsOf fun x hx => texts_of_isNamed (hParts x hx)
    rw [textsOf_eq_nil hNone] at hNames
    simp [Token.text?, hKeyword, hLast, ← hNames, Node.texts, leaves]
  | assign hLhs hPlace hOp hRhs hLast => simp [Token.text?, hOp, hLast, hLhs.texts, hRhs.texts]
  | call h hCall hLast => simp [Token.text?, hLast, h.texts]

theorem Item.texts (h : Item ts n) : n.texts = literals ts := by
  cases h with
  | statement h => exact h.texts
  | function hKeyword hName hFirst hParts hListed hLast hBody =>
    have hParams := hListed.textsOf fun x hx => texts_of_isNamed (hParts x hx)
    simp [Token.text?, hKeyword, hName.kind, hFirst, hLast, hParams, hBody.texts]

theorem Program.texts (h : Program ts n) : n.texts = literals ts := by
  cases h with
  | intro hParts hLast hTokens =>
    rw [texts_block, textsOf_flatMap fun x hx => (hParts x hx).texts, ← hTokens]
    simp [Token.text?, hLast]

theorem texts_of_parse {settings : Settings} {p : Parsed} {root : Node} (hClosed : Closed ts)
    (hParse : parse? settings ts = some p) (hRoot : p.result = .ok root) :
    root.texts = literals ts := by
  have hProgram := (result_iff_program hClosed hParse).mp ⟨root, hRoot, rfl⟩
  rw [← texts_bare, hProgram.texts, literals_filter_isSignificant]

end Syntax

end BatchCompiler
