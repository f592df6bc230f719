import BatchCompiler.Proofs.Syntax.Induction
import BatchCompiler.Proofs.Syntax.Parsing

/-!
# Relabelling

Where the tokens of a program stand, and what its literals and comments say, can be changed
throughout without an effect on how it is parsed: the tree of relabelled tokens is the relabelled
tree.
-/

namespace BatchCompiler

/-- New places, and new texts for literals and for comments. What stands nowhere stays there. -/
structure Relabel where
  place : Span → Span
  text : String → String
  remark : String → String
  nowhere : place {} = {}

def Relabel.erasing : Relabel where
  place _ := {}
  text _ := ""
  remark _ := ""
  nowhere := rfl

def Token.relabel (g : Relabel) (t : Token) : Token where
  kind := t.kind
  value := match t.kind with
    | .string => g.text t.value
    | .comment => g.remark t.value
    | _ => t.value
  span := g.place t.span

def Token.relabelComment (g : Relabel) (t : Token) : Token :=
  { t with value := g.remark t.value, span := g.place t.span }

theorem Token.relabel_of_comment {g : Relabel} {t : Token} (h : t.kind = .comment) :
    t.relabel g = t.relabelComment g := by
  simp only [relabel, relabelComment, h]

def Remark.relabel (g : Relabel) (r : Remark) : Remark :=
  { r with span := g.place r.span }

theorem Settings.remark_relabel (g : Relabel) (settings : Settings) (w : Warning) (span : Span)
    (message : String) : settings.remark w (g.place span) message =
      (settings.remark w span message).map (Remark.relabel g) := by
  unfold Settings.remark
  split <;> rfl

namespace Node

variable (g : Relabel)

mutual

def relabel : Node → Node
  | .absent => .absent
  | .bool span v => .bool (g.place span) v
  | .number span v => .number (g.place span) v
  | .float span v => .float (g.place span) v
  | .string span s => .string (g.place span) (g.text s)
  | .list span elems => .list (g.place span) (relabelAll elems)
  | .ident span name => .ident (g.place span) name
  | .subscript span array index => .subscript (g.place span) array.relabel index.relabel
  | .unary span op e => .unary (g.place span) op e.relabel
  | .binary span op l r => .binary (g.place span) op l.relabel r.relabel
  | .concat span l r => .concat (g.place span) l.relabel r.relabel
  | .strCompare span op l r => .strCompare (g.place span) op l.relabel r.relabel
  | .call span callee args => .call (g.place span) callee.relabel (relabelAll args)
  | .comment span s => .comment (g.place span) (g.remark s)
  | .block span stmts synthetic => .block (g.place span) (relabelAll stmts) synthetic
  | .assign span lhs rhs => .assign (g.place span) lhs.relabel rhs.relabel
  | .branch span cond thenBody elseBody =>
    .branch (g.place span) cond.relabel thenBody.relabel elseBody.relabel
  | .loop span cond body => .loop (g.place span) cond.relabel body.relabel
  | .ret span e => .ret (g.place span) e.relabel
  | .globals span names => .globals (g.place span) (relabelAll names)
  | .empty span => .empty (g.place span)
  | .func span name params body => .func (g.place span) name (relabelAll params) body.relabel

def relabelAll : List Node → List Node
  | [] => []
  | n :: rest => n.relabel :: relabelAll rest

end

variable {g}

theorem relabelAll_eq_map (ns : List Node) : relabelAll g ns = ns.map (relabel g) := by
  induction ns with
  | nil => rfl
  | cons n rest ih => rw [relabelAll, ih, List.map_cons]

@[simp] theorem isAbsent_relabel (n : Node) : (n.relabel g).isAbsent = n.isAbsent := by
  cases n <;> rfl

@[simp] theorem isIdent_relabel (n : Node) : (n.relabel g).isIdent = n.isIdent := by
  cases n <;> rfl

@[simp] theorem isCall_relabel (n : Node) : (n.relabel g).isCall = n.isCall := by
  cases n <;> rfl

@[simp] theorem isStringy_relabel (n : Node) : (n.relabel g).isStringy = n.isStringy := by
  cases n <;> rfl

@[simp] theorem isFunc_relabel (n : Node) : (n.relabel g).isFunc = n.isFunc := by
  cases n <;> rfl

@[simp] theorem isPlace_relabel (n : Node) : (n.relabel g).isPlace = n.isPlace := by
  induction n using Node.induction with
  | subscript span array index ih => exact ih
  | _ => rfl

@[simp] theorem span_relabel (n : Node) : (n.relabel g).span = g.place n.span := by
  cases n with
  | absent => exact g.nowhere.symm
  | _ => rfl

end Node

namespace Syntax

variable {g : Relabel}

theorem relabel_combine (span : Span) (op : TokenKind) (l r : Node) :
    (Parser.combine span op l r).relabel g =
      Parser.combine (g.place span) op (l.relabel g) (r.relabel g) := by
  unfold Parser.combine
  rw [Node.isStringy_relabel, Node.isStringy_relabel]
  split
  · split <;> rfl
  · rfl

theorem relabel_applyPrefixOp (span : Span) (op : TokenKind) (e : Node) :
    (Parser.applyPrefixOp span op e).relabel g =
      Parser.applyPrefixOp (g.place span) op (e.relabel g) := by
  cases e with
  | _ => cases op <;> rfl

theorem relabel_default : (default : Token).relabel g = default :=
  congrArg (Token.mk .eof "") g.nowhere

def Stop.relabel (g : Relabel) : Stop → Stop
  | .rejected span problem => .rejected (g.place span) problem
  | .endless => .endless

def State.relabel (g : Relabel) (s : State) : State where
  rest := s.rest.map (Token.relabel g)
  last := s.last.relabel g
  current := s.current.relabel g
  previous := s.previous.relabel g
  settings := s.settings
  depth := s.depth
  pending := s.pending.map (Token.relabelComment g)
  remarks := s.remarks.map (Remark.relabel g)

namespace State

theorem relabel_applyDirective {t : Token} (ht : t.kind = .directive) (s : State) :
    (s.applyDirective t).relabel g = (s.relabel g).applyDirective (t.relabel g) := by
  have hValue : (t.relabel g).value = t.value := by simp only [Token.relabel, ht]
  simp only [applyDirective, relabel, hValue, List.map_append, List.map_flatMap]
  simp only [← Settings.remark_relabel]
  rfl

theorem relabel_keepComment {t : Token} (ht : t.kind = .comment) (s : State) :
    (s.keepComment t).relabel g = (s.relabel g).keepComment (t.relabel g) := by
  rw [Token.relabel_of_comment ht]
  unfold keepComment
  by_cases hDepth : s.depth = 0
  · have hDepth' : (s.relabel g).depth = 0 := hDepth
    rw [if_pos hDepth, if_pos hDepth']
    simp only [relabel, List.map_append, List.map_cons, List.map_nil]
  · have hDepth' : ¬ (s.relabel g).depth = 0 := hDepth
    rw [if_neg hDepth, if_neg hDepth']

theorem relabel_settle (s : State) (ts : List Token) :
    (s.settle ts).relabel g = (s.relabel g).settle (ts.map (Token.relabel g)) := by
  induction ts generalizing s with
  | nil => rfl
  | cons t rest ih =>
    have hKind : (t.relabel g).kind = t.kind := rfl
    rw [List.map_cons]
    unfold settle
    rw [hKind]
    split
    · next ht => rw [ih, relabel_applyDirective ht]
    · next ht => rw [ih, relabel_keepComment ht]
    · rfl

theorem relabel_advance (s : State) : s.advance.relabel g = (s.relabel g).advance :=
  relabel_settle { s with previous := s.current } s.rest

end State

theorem relabel_pending (ts : List Token) :
    (ts.map (Token.relabelComment g)).map (fun t => Node.comment t.span t.value) =
      (ts.map fun t => Node.comment t.span t.value).map (Node.relabel g) := by
  rw [List.map_map, List.map_map]
  rfl

def Relabels (g : Relabel) : Node → Node → Prop := Sends (Node.relabel g) fun _ => True

def relabelling (g : Relabel) : Likeness where
  place := g.place
  value t := (t.relabel g).value
  known _ := True
  loose := False
  state s u := u = s.relabel g
  comments cs ds := ds = cs.map (Node.relabel g)
  expression := Relabels g
  statement := Relabels g
  item := Relabels g

namespace Relabels

variable {ns ms : List Node} {n m : Node}

theorem list (h : List.Forall₂ (Relabels g) ns ms) : ms = Node.relabelAll g ns := by
  rw [Node.relabelAll_eq_map]
  exact (eq_map_of_forall₂_sends h).1

theorem name (h : (relabelling g).Name n m) : Relabels g n m := by
  obtain ⟨hKind, _, _⟩ := h
  refine ⟨?_, trivial⟩
  simp only [Parser.nameNode, Likeness.token, relabelling, Token.relabel, hKind, Node.relabel]

theorem names (h : List.Forall₂ (relabelling g).Name ns ms) : ms = Node.relabelAll g ns :=
  list (h.imp fun _ _ => name)

theorem listed (h : Commented (relabelling g).comments (Relabels g) ns ms) :
    ms = Node.relabelAll g ns := by
  rw [Node.relabelAll_eq_map]
  exact (h.eq_map fun hComments => ⟨hComments, fun _ _ => trivial⟩).1

theorem optional (h : Likeness.Optional (Relabels g) n m) : m = n.relabel g := by
  rcases h with h | ⟨rfl, rfl⟩
  · exact h.eq
  · rfl

end Relabels

theorem steps_relabelling : (relabelling g).Steps where
  value t hString hComment := by
    simp only [relabelling, Token.relabel]
  current := by
    rintro s _ rfl
    exact ⟨rfl, trivial⟩
  advance := by
    rintro s _ rfl
    exact (State.relabel_advance s).symm
  depth := by
    rintro s _ rfl f
    rfl
  drain := by
    rintro s _ rfl
    exact ⟨relabel_pending s.pending, rfl⟩

theorem expressions_relabelling : (relabelling g).Expressions where
  isIdent h := by rw [h.eq, Node.isIdent_relabel]
  isPlace h := by rw [h.eq, Node.isPlace_relabel]
  isCall h := by rw [h.eq, Node.isCall_relabel]
  span h := by rw [h.eq, Node.span_relabel]; rfl
  bool _ _ := ⟨rfl, trivial⟩
  number _ _ := ⟨rfl, trivial⟩
  float _ _ := ⟨rfl, trivial⟩
  string t ht := ⟨by simp only [relabelling, Token.relabel, ht, Node.relabel], trivial⟩
  name := Relabels.name
  list _ _ _ h := ⟨by rw [Relabels.list h]; rfl, trivial⟩
  call _ _ _ _ _ _ he h := ⟨by rw [he.eq, Relabels.list h]; rfl, trivial⟩
  subscript _ _ _ _ _ _ he hi := ⟨by rw [he.eq, hi.eq]; rfl, trivial⟩
  applyPrefixOp span op _ _ _ he := ⟨by rw [he.eq, relabel_applyPrefixOp]; rfl, trivial⟩
  combine span op _ _ _ _ _ hl hr := ⟨by rw [hl.eq, hr.eq, relabel_combine]; rfl, trivial⟩

theorem statements_relabelling : (relabelling g).Statements where
  call _ he := he
  assign _ _ _ _ _ _ hl hr := ⟨by rw [hl.eq, hr.eq]; rfl, trivial⟩
  block _ _ _ h := ⟨by rw [Relabels.listed h]; rfl, trivial⟩
  branch _ _ _ _ _ _ _ hc ha hb := ⟨by rw [hc.eq, ha.eq, Relabels.optional hb]; rfl, trivial⟩
  loop _ _ _ _ _ hc ha := ⟨by rw [hc.eq, ha.eq]; rfl, trivial⟩
  globals _ _ _ h := ⟨by rw [Relabels.names h]; rfl, trivial⟩
  ret _ _ _ he := ⟨by rw [Relabels.optional he]; rfl, trivial⟩
  empty _ := ⟨rfl, trivial⟩
  item h := h
  func hName hParams ha := by
    rw [steps_relabelling.value_of_ident hName.kind, Relabels.names hParams, ha.eq]
    exact ⟨rfl, trivial⟩

def relabelled (g : Relabel) : Simulation where
  toLikeness := relabelling g
  steps := steps_relabelling
  expressions := expressions_relabelling
  statements := statements_relabelling

theorem State.start?_relabel (settings : Settings) (ts : List Token) :
    State.start? settings (ts.map (Token.relabel g)) =
      (State.start? settings ts).map (State.relabel g) := by
  unfold State.start?
  rw [List.getLast?_map, Option.map_map, Option.map_map]
  congr 1
  funext last
  rw [Function.comp_apply, Function.comp_apply, State.relabel_settle, State.relabel, relabel_default]
  rfl

def Parsed.relabel (g : Relabel) (p : Parsed) : Parsed where
  result := (p.result.map (Node.relabel g)).mapError (Stop.relabel g)
  settings := p.settings
  remarks := p.remarks.map (Remark.relabel g)

theorem parse?_relabel (settings : Settings) (ts : List Token) (g : Relabel) :
    parse? settings (ts.map (Token.relabel g)) = (parse? settings ts).map (Parsed.relabel g) := by
  unfold parse?
  rw [State.start?_relabel, Option.map_map, Option.map_map, List.length_map]
  congr 1
  funext s
  rw [Function.comp_apply, Function.comp_apply]
  have hAgree := Parser.relates_program (S := relabelled g)
    (Likeness.fuel_self (fuelFor ts.length)) s _ rfl
  generalize Parser.program (fuelFor ts.length) s = r at hAgree
  generalize Parser.program (fuelFor ts.length) (s.relabel g) = r' at hAgree
  cases hAgree with
  | ok hValue hState =>
    obtain ⟨span, ns, ms, rfl, rfl, hItems⟩ := hValue
    cases hState
    rw [Relabels.listed hItems]
    rfl
  | rejected hState | endless hState =>
    cases hState
    rfl
  | loose h => cases h

end Syntax

def Leaf.relabel (g : Relabel) : Leaf → Leaf
  | .text s => .text (g.text s)
  | .remark s => .remark (g.remark s)
  | x => x

namespace Node

variable {g : Relabel}

theorem leavesOf_relabel {ns : List Node}
    (h : ∀ n ∈ ns, (n.relabel g).leaves = n.leaves.map (Leaf.relabel g)) :
    leavesOf (relabelAll g ns) = (leavesOf ns).map (Leaf.relabel g) := by
  induction ns with
  | nil => rfl
  | cons n rest ih =>
    obtain ⟨hn, hRest⟩ := List.forall_mem_cons.mp h
    rw [relabelAll, leavesOf, leavesOf, hn, ih hRest, List.map_append]

theorem calleeLeaves_relabel (n : Node) :
    (n.relabel g).calleeLeaves = n.calleeLeaves.map (Leaf.relabel g) := by
  cases n <;> rfl

theorem leaves_relabel (n : Node) : (n.relabel g).leaves = n.leaves.map (Leaf.relabel g) := by
  induction n using Node.induction with
  | list span elems ih | block span stmts synthetic ih => exact leavesOf_relabel ih
  | subscript span a b iha ihb | binary span op a b iha ihb | concat span a b iha ihb
  | strCompare span op a b iha ihb | assign span a b iha ihb | loop span a b iha ihb =>
    simp only [relabel, leaves, iha, ihb, List.map_append]
  | unary span op e ih | ret span e ih => exact ih
  | call span callee args _ ih =>
    simp only [relabel, leaves, calleeLeaves_relabel, leavesOf_relabel ih, List.map_append]
  | branch span cond thenBody elseBody ihCond ihThen ihElse =>
    simp only [relabel, leaves, ihCond, ihThen, ihElse, List.map_append]
  | func span name params body ihParams ihBody =>
    simp only [relabel, leaves, leavesOf_relabel ihParams, ihBody, List.map_append, List.map_cons]
    rfl
  | _ => rfl

end Node

open Classical in
theorem Syntax.forall_remark_of_parse {P : String → Prop} {settings : Settings} {ts : List Token}
    {p : Parsed} {root : Node} (hTokens : ∀ t ∈ ts, t.kind = .comment → P t.value)
    (hParse : parse? settings ts = some p) (hRoot : p.result = .ok root) {s : String}
    (hs : .remark s ∈ root.leaves) : P s := by
  -- Only the comments that lack the property are changed, so the tokens and the tree are not.
  let g : Relabel := ⟨id, id, fun s => if P s then s else s ++ " ", rfl⟩
  have hSame : ∀ t ∈ ts, t.relabel g = t := by
    intro t ht
    obtain ⟨kind, value, span⟩ := t
    cases kind with
    | comment => exact congrArg (Token.mk .comment · span) (if_pos (hTokens _ ht rfl))
    | _ => rfl
  have hParsed := parse?_relabel settings ts g
  rw [List.map_congr_left hSame, List.map_id', hParse, Option.map_some] at hParsed
  have hResult := congrArg Parsed.result (Option.some.inj hParsed)
  simp only [Parsed.relabel, hRoot] at hResult
  have hLeaves := congrArg Node.leaves (Except.ok.inj hResult)
  rw [Node.leaves_relabel] at hLeaves
  have hFixed : Leaf.relabel g (.remark s) = .remark s :=
    List.map_inj_left.mp (hLeaves.symm.trans (List.map_id' _).symm) _ hs
  by_cases hP : P s
  · exact hP
  · simp [Leaf.relabel, g, hP] at hFixed

end BatchCompiler
