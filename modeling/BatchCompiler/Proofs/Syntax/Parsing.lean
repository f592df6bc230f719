import BatchCompiler.Proofs.Syntax.Leaves
import BatchCompiler.Proofs.Syntax.Shape
import BatchCompiler.Proofs.Syntax.Simulation

/-!
# What parsing produces

Every tree that parsing accepts is a program, and its names are spelled as identifier tokens are.
What the elementary steps of the parser keep is kept by every parser.
-/

namespace BatchCompiler.Syntax

open Node

variable {N : String → Prop} {n e l r root : Node} {s s' : State} {fuel : Nat}

def Spelled (N : String → Prop) : Leaf → Prop
  | .name x | .callee x => N x
  | _ => True

structure State.Spelled (N : String → Prop) (s : State) : Prop where
  current : s.current.kind = .ident → N s.current.value
  last : s.last.kind = .ident → N s.last.value
  rest : ∀ t ∈ s.rest, t.kind = .ident → N t.value

structure Formed (shape : Node → Bool) (N : String → Prop) (n : Node) : Prop where
  shape : shape n = true
  leaves : n.EveryLeaf (Spelled N)

theorem Formed.item (h : Formed isStatement N n) : Formed isItem N n := by
  refine ⟨?_, h.leaves⟩
  cases n with
  | func => cases h.shape
  | _ => exact h.shape

theorem State.Spelled.settle (h : s.Spelled N) {ts : List Token}
    (hts : ∀ t ∈ ts, t.kind = .ident → N t.value) : (s.settle ts).Spelled N := by
  induction ts generalizing s with
  | nil => exact ⟨h.last, h.last, List.forall_mem_nil _⟩
  | cons t rest ih =>
    have hRest := fun x hx => hts x (List.mem_cons_of_mem t hx)
    unfold State.settle
    split
    · exact ih ⟨h.current, h.last, h.rest⟩ hRest
    · refine ih ?_ hRest
      unfold State.keepComment
      split
      · exact ⟨h.current, h.last, h.rest⟩
      · exact h
    · exact ⟨hts t List.mem_cons_self, h.last, hRest⟩

structure Stable (I : State → Prop) : Prop where
  advance : ∀ s, I s → I s.advance
  drain : ∀ s, I s → I { s with pending := [] }
  depth : ∀ s depth, I s → I { s with depth := depth }

theorem stable_spelled (N : String → Prop) : Stable (State.Spelled N) where
  advance s h := State.Spelled.settle (s := { s with previous := s.current })
    ⟨h.current, h.last, h.rest⟩ h.rest
  drain _ h := ⟨h.current, h.last, h.rest⟩
  depth _ _ h := ⟨h.current, h.last, h.rest⟩

namespace Parser

variable {span : Span} {op : TokenKind}

theorem isExpression_applyPrefixOp (hOp : isPrefixOp op = true) (he : e.isExpression = true) :
    (applyPrefixOp span op e).isExpression = true := by
  unfold applyPrefixOp
  split
  · rfl
  · next hNot =>
    have hSign : (op == .minus && e.isNumber) = false := by
      cases e with
      | number s v =>
        have hne : op ≠ .minus := fun h => hNot s v h rfl
        simp [hne]
      | _ => simp [isNumber]
    simp [isExpression, hOp, hSign, he]

theorem isExpression_combine (hOp : (precedence? op).isSome = true) (hl : l.isExpression = true)
    (hr : r.isExpression = true) : (combine span op l r).isExpression = true := by
  unfold combine
  split
  · next hs =>
    split
    · simp [isExpression, hs, hl, hr]
    · simp [isExpression, hs, hl, hr]
    · simp [isExpression, hs, hl, hr]
    · next hPlus hEq hNe =>
      have hPlain : isOverloaded op = false := by
        cases op <;> first | rfl | contradiction
      simp [isExpression, hOp, hPlain, hl, hr]
  · next hs =>
    have hPlain : (l.isStringy || r.isStringy) = false := by simpa using hs
    simp [isExpression, hOp, hPlain, hl, hr]

variable {N : String → Prop}

theorem formed_applyPrefixOp (hOp : isPrefixOp op = true) (he : Formed isExpression N e) :
    Formed isExpression N (applyPrefixOp span op e) := by
  refine ⟨isExpression_applyPrefixOp hOp he.shape, ?_⟩
  unfold applyPrefixOp
  split
  · exact nofun
  · exact everyLeaf_unary_iff.mpr he.leaves

theorem formed_combine (hOp : (precedence? op).isSome = true) (hl : Formed isExpression N l)
    (hr : Formed isExpression N r) : Formed isExpression N (combine span op l r) := by
  refine ⟨isExpression_combine hOp hl.shape hr.shape, ?_⟩
  unfold combine
  split
  · split <;> simp [hl.leaves, hr.leaves]
  · simp [hl.leaves, hr.leaves]

/-- A parser beside itself: its state keeps the property, and its trees are formed. -/
def forming (N : String → Prop) (I : State → Prop) : Likeness where
  place := id
  value := Token.value
  known t := t.kind = .ident → N t.value
  loose := True
  state s u := u = s ∧ I s
  comments cs ds := ds = cs.map id ∧ ∀ n ∈ cs, Formed isStatement N n
  expression := Sends id (Formed isExpression N)
  statement := Sends id (Formed isStatement N)
  item := Sends id (Formed isItem N)

variable {I : State → Prop} {ns ms : List Node} {n m : Node}

theorem steps_forming (hI : Stable I) (hN : ∀ s, I s → s.current.kind = .ident → N s.current.value) :
    (forming N I).Steps where
  value _ _ _ := rfl
  current := by
    rintro _ s ⟨rfl, hs⟩
    exact ⟨rfl, hN s hs⟩
  advance := by
    rintro _ s ⟨rfl, hs⟩
    exact ⟨rfl, hI.advance s hs⟩
  depth := by
    rintro _ s ⟨rfl, hs⟩ f
    exact ⟨rfl, hI.depth s _ hs⟩
  drain := by
    rintro _ s ⟨rfl, hs⟩
    refine ⟨⟨(List.map_id _).symm, ?_⟩, rfl, hI.drain s hs⟩
    rw [List.forall_mem_map]
    exact fun t _ => ⟨rfl, everyLeaf_comment_iff.mpr trivial⟩

theorem formed_of_name (h : (forming N I).Name n m) : Sends id (Formed isFreeName N) n m := by
  obtain ⟨hKind, hKnown, hFree⟩ := h
  refine ⟨rfl, by simp [nameNode, isFreeName, hFree], ?_⟩
  exact everyLeaf_ident_iff.mpr (hKnown hKind)

theorem formed_of_names (h : List.Forall₂ (forming N I).Name ns ms) :
    ms = ns.map id ∧ ∀ n ∈ ns, Formed isFreeName N n :=
  eq_map_of_forall₂_sends (h.imp fun _ _ => formed_of_name)

theorem all_isFreeName (h : ∀ n ∈ ns, Formed isFreeName N n) : ns.all isFreeName = true :=
  List.all_eq_true.mpr fun n hn => (h n hn).shape

theorem areExpressions_of_formed (h : ∀ n ∈ ns, Formed isExpression N n) :
    areExpressions ns = true :=
  areExpressions_iff.mpr fun n hn => (h n hn).shape

theorem formed_call (hIdent : e.isIdent = true) (he : Formed isExpression N e)
    (hArgs : ∀ n ∈ ns, Formed isExpression N n) : Formed isExpression N (.call span e ns) := by
  cases e with
  | ident span name =>
    have hFree : (Node.ident span name).isFreeName = true := by
      simpa [isExpression] using he.shape
    have hName : Spelled N (.callee name) := everyLeaf_ident_iff.mp he.leaves
    refine ⟨by simp [isExpression, hFree, areExpressions_of_formed hArgs], ?_⟩
    refine everyLeaf_call_iff.mpr ⟨?_, fun n hn => (hArgs n hn).leaves⟩
    intro x hx
    rw [List.mem_singleton.mp hx]
    exact hName
  | _ => cases hIdent

theorem expressions_forming : (forming N I).Expressions where
  isIdent h := by rw [h.eq]; rfl
  isPlace h := by rw [h.eq]; rfl
  isCall h := by rw [h.eq]; rfl
  span h := by rw [h.eq]; rfl
  bool _ _ := ⟨rfl, rfl, nofun⟩
  number _ _ := ⟨rfl, rfl, nofun⟩
  float _ _ := ⟨rfl, rfl, nofun⟩
  string _ _ := ⟨rfl, rfl, everyLeaf_string_iff.mpr trivial⟩
  name h := by
    obtain ⟨rfl, hShape, hLeaves⟩ := formed_of_name h
    exact ⟨rfl, isExpression_of_isFreeName hShape, hLeaves⟩
  list _ _ _ h := by
    obtain ⟨rfl, hElems⟩ := eq_map_of_forall₂_sends h
    refine ⟨by rw [List.map_id]; rfl, ?_, ?_⟩
    · rw [isExpression]
      exact areExpressions_of_formed hElems
    · exact everyLeaf_list_iff.mpr fun n hn => (hElems n hn).leaves
  call _ _ _ _ _ hIdent he h := by
    obtain ⟨rfl, he⟩ := he
    obtain ⟨rfl, hArgs⟩ := eq_map_of_forall₂_sends h
    exact ⟨by rw [List.map_id]; rfl, formed_call hIdent he hArgs⟩
  subscript _ _ _ _ _ hPlace he hi := by
    obtain ⟨⟨rfl, he⟩, rfl, hi⟩ := And.intro he hi
    refine ⟨rfl, ?_, everyLeaf_subscript_iff.mpr ⟨he.leaves, hi.leaves⟩⟩
    simp [isExpression, hPlace, he.shape, hi.shape]
  applyPrefixOp _ _ _ _ hOp he := by
    obtain ⟨rfl, he⟩ := he
    exact ⟨rfl, formed_applyPrefixOp hOp he⟩
  combine _ _ _ _ _ _ hOp hl hr := by
    obtain ⟨⟨rfl, hl⟩, rfl, hr⟩ := And.intro hl hr
    exact ⟨rfl, formed_combine hOp hl hr⟩

theorem isStatement_of_isCall (hCall : n.isCall = true) (h : n.isExpression = true) :
    n.isStatement = true := by
  cases n with
  | call span callee args => simpa [isStatement] using h
  | _ => cases hCall

theorem statements_forming : (forming N I).Statements where
  call hCall he := by
    obtain ⟨rfl, he⟩ := he
    exact ⟨rfl, isStatement_of_isCall hCall he.shape, he.leaves⟩
  assign _ _ _ _ _ hPlace hl hr := by
    obtain ⟨⟨rfl, hl⟩, rfl, hr⟩ := And.intro hl hr
    refine ⟨rfl, ?_, everyLeaf_assign_iff.mpr ⟨hl.leaves, hr.leaves⟩⟩
    simp [isStatement, hPlace, hl.shape, hr.shape]
  block _ _ _ h := by
    obtain ⟨rfl, hStmts⟩ := h.eq_map id
    refine ⟨by rw [List.map_id]; rfl, ?_, everyLeaf_block_iff.mpr fun n hn => (hStmts n hn).leaves⟩
    have hShape : areStatements _ = true := areStatements_iff.mpr fun n hn => (hStmts n hn).shape
    simp [isStatement, hShape]
  branch _ _ _ _ _ _ _ hc ha hb := by
    obtain ⟨⟨rfl, hc⟩, rfl, ha⟩ := And.intro hc ha
    rcases hb with ⟨rfl, hb⟩ | ⟨rfl, rfl⟩
    · refine ⟨rfl, by simp [isStatement, hc.shape, ha.shape, hb.shape], ?_⟩
      exact everyLeaf_branch_iff.mpr ⟨hc.leaves, ha.leaves, hb.leaves⟩
    · refine ⟨rfl, by simp [isStatement, isAbsent, hc.shape, ha.shape], ?_⟩
      exact everyLeaf_branch_iff.mpr ⟨hc.leaves, ha.leaves, nofun⟩
  loop _ _ _ _ _ hc ha := by
    obtain ⟨⟨rfl, hc⟩, rfl, ha⟩ := And.intro hc ha
    refine ⟨rfl, by simp [isStatement, hc.shape, ha.shape], ?_⟩
    exact everyLeaf_loop_iff.mpr ⟨hc.leaves, ha.leaves⟩
  globals _ _ _ h := by
    obtain ⟨rfl, hNames⟩ := formed_of_names h
    refine ⟨by rw [List.map_id]; rfl, ?_, nofun⟩
    rw [isStatement]
    exact all_isFreeName hNames
  ret _ _ _ he := by
    rcases he with ⟨rfl, he⟩ | ⟨rfl, rfl⟩
    · exact ⟨rfl, by simp [isStatement, he.shape], everyLeaf_ret_iff.mpr he.leaves⟩
    · exact ⟨rfl, rfl, nofun⟩
  empty _ := ⟨rfl, rfl, nofun⟩
  item h := ⟨h.eq, h.holds.item⟩
  func hName hNames ha := by
    obtain ⟨rfl, ha⟩ := ha
    obtain ⟨rfl, hParams⟩ := formed_of_names hNames
    refine ⟨by rw [List.map_id]; rfl, ?_, ?_⟩
    · simp only [isItem, hName.free, all_isFreeName hParams, ha.shape]
      rfl
    · refine everyLeaf_func_iff.mpr ⟨hName.known hName.kind, ?_, ha.leaves⟩
      exact fun n hn => (hParams n hn).leaves

def formation (hI : Stable I) (hN : ∀ s, I s → s.current.kind = .ident → N s.current.value) :
    Simulation where
  toLikeness := forming N I
  steps := steps_forming hI hN
  expressions := expressions_forming
  statements := statements_forming

theorem formed_of_program (hI : Stable I)
    (hN : ∀ s, I s → s.current.kind = .ident → N s.current.value) (hs : I s)
    (h : program fuel s = .ok root s') : Formed isProgram N root ∧ I s' := by
  have hProgram := relates_program (S := formation hI hN) (Likeness.fuel_self fuel)
  obtain ⟨⟨span, ns, ms, rfl, _, hItems⟩, _, hEnd⟩ := hProgram.of_ok ⟨rfl, hs⟩ h
  have hItems := (hItems.eq_map fun h => ⟨h.1, fun n hn => (h.2 n hn).item⟩).2
  have hShape : ns.all isItem = true := List.all_eq_true.mpr fun n hn => (hItems n hn).shape
  refine ⟨⟨by simpa [isProgram] using hShape, ?_⟩, hEnd⟩
  exact everyLeaf_block_iff.mpr fun n hn => (hItems n hn).leaves

def wellFormation : Simulation :=
  formation (N := fun _ => True) (I := fun _ => True)
    ⟨fun _ _ => trivial, fun _ _ => trivial, fun _ _ _ => trivial⟩ fun _ _ _ => trivial

theorem isExpression_of_expression (h : expression fuel s = .ok e s') : e.isExpression = true :=
  ((relates_expression (S := wellFormation) (Likeness.fuel_self fuel)).of_ok
    ⟨rfl, trivial⟩ h).1.holds.shape

theorem isFreeName_of_names {missing : SyntaxProblem} {ns : List Node}
    (h : names missing fuel s = .ok ns s') : ∀ n ∈ ns, n.isFreeName = true := by
  have hNames := (relates_names (S := wellFormation) (Likeness.fuel_self fuel) missing).of_ok
    ⟨rfl, trivial⟩ h
  have hFormed := (formed_of_names (N := fun _ => True) (I := fun _ => True) hNames.1).2
  exact fun n hn => (hFormed n hn).shape

end Parser

theorem formed_of_parse {settings : Settings} {tokens : List Token} {p : Parsed}
    (hTokens : ∀ t ∈ tokens, t.kind = .ident → N t.value) (h : parse? settings tokens = some p)
    (hRoot : p.result = .ok root) : Formed isProgram N root := by
  obtain ⟨s, hStart, hs⟩ := Option.map_eq_some_iff.mp h
  obtain ⟨last, hLast, rfl⟩ := Option.map_eq_some_iff.mp hStart
  have hLastToken := hTokens last (List.mem_of_getLast? hLast)
  have hState : State.Spelled N (State.settle
      { rest := [], last := last, current := last, settings := settings } tokens) :=
    State.Spelled.settle ⟨hLastToken, hLastToken, List.forall_mem_nil _⟩ hTokens
  split at hs
  · next tree s' hProgram =>
    subst hs
    cases hRoot
    exact (Parser.formed_of_program (stable_spelled N) (fun _ hs => hs.current) hState hProgram).1
  · subst hs
    cases hRoot

theorem isProgram_of_parse {settings : Settings} {tokens : List Token} {p : Parsed}
    (h : parse? settings tokens = some p) (hRoot : p.result = .ok root) : root.isProgram = true :=
  (formed_of_parse (N := fun _ => True) (fun _ _ _ => trivial) h hRoot).shape

end BatchCompiler.Syntax
