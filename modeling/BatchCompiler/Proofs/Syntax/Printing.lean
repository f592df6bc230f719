import BatchCompiler.Proofs.Syntax.Acceptance
import BatchCompiler.Proofs.Syntax.Comments
import BatchCompiler.Proofs.Syntax.Induction

/-!
# Printing expressions

An expression tree is written with parentheses around an operation only where its operator stands in
an earlier row than the position asks for: the left operand of an operator may begin with its own
row, the right one with the next row, and the operand of a prefix operator with none. Parsing what
is printed gives the tree back, wherever the tokens stand.
-/

namespace BatchCompiler

namespace Number

theorem le_ofDigitChars (cs : List Char) (acc : Nat) : acc ≤ Nat.ofDigitChars 10 cs acc := by
  induction cs generalizing acc with
  | nil => exact Nat.le_refl acc
  | cons c rest ih =>
    have hRest := ih (10 * acc + (c.toNat - '0'.toNat))
    rw [Nat.ofDigitChars_cons]
    omega

theorem magnitude_eq {cs : List Char} {acc : Nat} (hDigits : ∀ c ∈ cs, c.isDigit = true)
    (hSmall : Nat.ofDigitChars 10 cs acc < 0x10000000000000000) :
    magnitude acc cs = .exact (Nat.ofDigitChars 10 cs acc) := by
  induction cs generalizing acc with
  | nil => rfl
  | cons c rest ih =>
    obtain ⟨hDigit, hRest⟩ := List.forall_mem_cons.mp hDigits
    have hFirst : acc * 10 + (c.toNat - '0'.toNat) = 10 * acc + (c.toNat - '0'.toNat) := by omega
    rw [Nat.ofDigitChars_cons] at hSmall ⊢
    have hLe := le_ofDigitChars rest (10 * acc + (c.toNat - '0'.toNat))
    rw [magnitude, if_pos hDigit]
    dsimp only
    rw [hFirst, if_pos (by omega)]
    exact ih hRest hSmall

theorem readClamped_natText {n : Nat} (h : n < 0x8000000000000000) :
    readClamped (natText n) = Int64.ofNat n := by
  have hDigits : ∀ c ∈ digitsOf n, c.isDigit = true :=
    fun c hc => Nat.isDigit_of_mem_toDigits (by decide) (by decide) hc
  have hValue : Nat.ofDigitChars 10 (digitsOf n) 0 = n := Nat.ofDigitChars_ten_toDigits
  have hMagnitude : magnitude 0 (digitsOf n) = .exact n := by
    rw [magnitude_eq hDigits (by omega), hValue]
  have hSome : digitsOf n ≠ [] := Nat.toDigits_ne_nil
  have hUnsigned : clamp false (unsigned (digitsOf n)) = Int64.ofNat n := by
    rw [unsigned, if_neg (by simpa using hSome), hMagnitude]
    simp [clamp, h]
  have hSign : ∀ c rest, digitsOf n = c :: rest → c ≠ '-' ∧ c ≠ '+' := by
    intro c rest hEq
    have hDigit := hDigits c (by simp [hEq])
    constructor
    · rintro rfl
      cases hDigit
    · rintro rfl
      cases hDigit
  rw [readClamped, natText, String.toList_ofList]
  split
  · next rest hEq => exact absurd rfl (hSign _ rest hEq).1
  · next rest hEq => exact absurd rfl (hSign _ rest hEq).2
  · exact hUnsigned

theorem ofNat_natAbs {v : Int64} (hv : v.toInt.natAbs < 0x8000000000000000) (h : ¬v < 0) :
    Int64.ofNat v.toInt.natAbs = v := by
  have hSign : ¬v.toInt < 0 := fun hLt => h (Int64.lt_iff_toInt_lt.mpr hLt)
  rw [← Int64.toInt_inj, Int64.toInt_ofNat_of_lt hv]
  omega

theorem neg_ofNat_natAbs {v : Int64} (hv : v.toInt.natAbs < 0x8000000000000000) (h : v < 0) :
    -Int64.ofNat v.toInt.natAbs = v := by
  have hSign : v.toInt < 0 := Int64.lt_iff_toInt_lt.mp h
  have hValue : -(v.toInt.natAbs : Int) = v.toInt := by omega
  rw [← Int64.toInt_inj, Int64.toInt_neg, Int64.toInt_ofNat_of_lt hv, hValue]
  exact Int64.toInt_bmod v

end Number

def Token.content (t : Token) : TokenKind × String := (t.kind, t.value)

namespace Node

mutual

def unplaced : Node → Node
  | .absent => .absent
  | .bool _ v => .bool {} v
  | .number _ v => .number {} v
  | .float _ v => .float {} v
  | .string _ s => .string {} s
  | .list _ elems => .list {} (unplacedAll elems)
  | .ident _ name => .ident {} name
  | .subscript _ array index => .subscript {} array.unplaced index.unplaced
  | .unary _ op e => .unary {} op e.unplaced
  | .binary _ op l r => .binary {} op l.unplaced r.unplaced
  | .concat _ l r => .concat {} l.unplaced r.unplaced
  | .strCompare _ op l r => .strCompare {} op l.unplaced r.unplaced
  | .call _ callee args => .call {} callee.unplaced (unplacedAll args)
  | .comment _ text => .comment {} text
  | .block _ stmts synthetic => .block {} (unplacedAll stmts) synthetic
  | .assign _ lhs rhs => .assign {} lhs.unplaced rhs.unplaced
  | .branch _ cond t e => .branch {} cond.unplaced t.unplaced e.unplaced
  | .loop _ cond body => .loop {} cond.unplaced body.unplaced
  | .ret _ e => .ret {} e.unplaced
  | .globals _ names => .globals {} (unplacedAll names)
  | .empty _ => .empty {}
  | .func _ name params body => .func {} name (unplacedAll params) body.unplaced

def unplacedAll : List Node → List Node
  | [] => []
  | n :: rest => n.unplaced :: unplacedAll rest

end

@[simp] theorem isStringy_unplaced (n : Node) : n.unplaced.isStringy = n.isStringy := by
  cases n <;> rfl

@[simp] theorem isIdent_unplaced (n : Node) : n.unplaced.isIdent = n.isIdent := by
  cases n <;> rfl

@[simp] theorem isPlace_unplaced (n : Node) : n.unplaced.isPlace = n.isPlace := by
  induction n using Node.induction with
  | subscript span array index ih => exact ih
  | _ => rfl

theorem isPlace_of_isIdent {n : Node} (h : n.isIdent = true) : n.isPlace = true := by
  cases n with
  | ident => rfl
  | _ => cases h

end Node

namespace Syntax

open Node Number

variable {span : Span} {op : TokenKind} {l r n : Node} {ts : List Token}

variable {e : Node} {w : TokenKind × String} {ws : List (TokenKind × String)}

theorem unplaced_combine (span : Span) (op : TokenKind) (l r : Node) :
    (Parser.combine span op l r).unplaced = Parser.combine {} op l.unplaced r.unplaced := by
  unfold Parser.combine
  simp only [isStringy_unplaced]
  split
  · split <;> rfl
  · rfl

theorem unplaced_applyPrefixOp (span : Span) (op : TokenKind) (n : Node) :
    (Parser.applyPrefixOp span op n).unplaced = Parser.applyPrefixOp {} op n.unplaced := by
  unfold Parser.applyPrefixOp
  split
  · rfl
  · next hOther =>
    split
    · next span' v hn =>
      cases n with
      | number span'' v' => exact absurd rfl (hOther span'' v' rfl)
      | _ => cases hn
    · rfl

theorem applyPrefixOp_eq_unary (h : (op == .minus && e.isNumber) = false) :
    Parser.applyPrefixOp span op e = .unary span op e := by
  unfold Parser.applyPrefixOp
  split
  · cases h
  · rfl

theorem combine_eq_binary (h : (isOverloaded op && (l.isStringy || r.isStringy)) = false) :
    Parser.combine span op l r = .binary span op l r := by
  unfold Parser.combine
  split
  · next hStringy =>
    rw [hStringy, Bool.and_true] at h
    split
    · cases h
    · cases h
    · cases h
    · rfl
  · rfl

theorem combine_eq_concat (h : (l.isStringy || r.isStringy) = true) :
    Parser.combine span .plus l r = .concat span l r :=
  if_pos h

theorem combine_eq_strCompare (hOp : (op == .eq || op == .ne) = true)
    (h : (l.isStringy || r.isStringy) = true) :
    Parser.combine span op l r = .strCompare span op l r := by
  cases op with
  | eq | ne => exact if_pos h
  | _ => cases hOp

def tightest : Nat := operatorRows.length

def symbol (kind : TokenKind) : TokenKind × String := (kind, "")

def enclosedIf (c : Bool) (ws : List (TokenKind × String)) : List (TokenKind × String) :=
  if c then symbol .lparen :: ws ++ [symbol .rparen] else ws

section

variable (spell : Binary64 → String)

mutual

/-- The tokens of an expression for a position where operators of the row `least` or a later one may
stand outside of parentheses. A negative number is a sign and its amount. -/
def printed (least : Nat) : Node → List (TokenKind × String)
  | .bool _ v => [symbol (if v then .kwTrue else .kwFalse)]
  | .number _ v =>
    if v < 0 then [symbol .minus, (.number, natText v.toInt.natAbs)]
    else [(.number, natText v.toInt.natAbs)]
  | .float _ v => [(.float, spell v)]
  | .string _ s => [(.string, s)]
  | .ident _ name => [(.ident, name)]
  | .list _ elems => symbol .lbracket :: printedAll elems ++ [symbol .rbracket]
  | .subscript _ array index =>
    printed 0 array ++ symbol .lbracket :: printed 0 index ++ [symbol .rbracket]
  | .unary _ op e => symbol op :: printed tightest e
  | .binary _ op l r | .strCompare _ op l r =>
    let row := (row? op).getD 0
    enclosedIf (row < least) (printed row l ++ symbol op :: printed (row + 1) r)
  | .concat _ l r =>
    let row := (row? .plus).getD 0
    enclosedIf (row < least) (printed row l ++ symbol .plus :: printed (row + 1) r)
  | .call _ callee args =>
    printed 0 callee ++ symbol .lparen :: printedAll args ++ [symbol .rparen]
  | _ => []

def printedAll : List Node → List (TokenKind × String)
  | [] => []
  | [n] => printed 0 n
  | n :: m :: rest => printed 0 n ++ symbol .comma :: printedAll (m :: rest)

end

end

theorem Expression.ofAtom {least : Nat} (h : Expression .primary ts n) :
    Expression (.binary least) ts n :=
  .ofUnary (.ofPostfixed (.ofPrimary h))

theorem row?_lt {row : Nat} (h : row? op = some row) : row < tightest := by
  cases op <;> cases h <;> decide

theorem unary_of_tightest (h : Expression (.binary tightest) ts n) : Expression .unary ts n := by
  cases h with
  | ofUnary h => exact h
  | binary hLeast hOp =>
    have hRow := row?_lt hOp
    omega

theorem isPlace_applyPrefixOp (span : Span) (op : TokenKind) (n : Node) :
    (Parser.applyPrefixOp span op n).isPlace = false := by
  unfold Parser.applyPrefixOp
  split <;> rfl

theorem isPlace_combine (span : Span) (op : TokenKind) (l r : Node) :
    (Parser.combine span op l r).isPlace = false := by
  unfold Parser.combine
  split
  · split <;> rfl
  · rfl

theorem postfixed_of_isPlace {least : Nat} (h : Expression (.binary least) ts n)
    (hn : n.isPlace = true) : Expression .postfixed ts n := by
  cases h with
  | ofUnary h =>
    cases h with
    | ofPostfixed h => exact h
    | prefixed hOp h =>
      rw [isPlace_applyPrefixOp] at hn
      cases hn
  | binary hLeast hOp hLeft hRight =>
    rw [isPlace_combine] at hn
    cases hn

def Reads (least : Nat) (ts : List Token) (n : Node) : Prop :=
  ∃ n', Expression (.binary least) ts n' ∧ n'.unplaced = n.unplaced

theorem exists_of_map_cons (h : ts.map Token.content = w :: ws) :
    ∃ t us, ts = t :: us ∧ t.kind = w.1 ∧ t.value = w.2 ∧ us.map Token.content = ws := by
  obtain ⟨t, us, rfl, hFirst, hRest⟩ := List.map_eq_cons_iff.mp h
  exact ⟨t, us, rfl, congrArg Prod.fst hFirst, congrArg Prod.snd hFirst, hRest⟩

theorem exists_of_map_singleton (h : ts.map Token.content = [w]) :
    ∃ t, ts = [t] ∧ t.kind = w.1 ∧ t.value = w.2 := by
  obtain ⟨t, us, rfl, hKind, hValue, hRest⟩ := exists_of_map_cons h
  rw [List.map_eq_nil_iff.mp hRest]
  exact ⟨t, rfl, hKind, hValue⟩

theorem exists_of_map_between {first last : TokenKind × String}
    (h : ts.map Token.content = first :: ws ++ [last]) :
    ∃ a us b, ts = a :: us ++ [b] ∧ a.kind = first.1 ∧ us.map Token.content = ws ∧
      b.kind = last.1 := by
  obtain ⟨us, vs, rfl, hUs, hVs⟩ := List.map_eq_append_iff.mp h
  obtain ⟨a, more, rfl, hFirst, _, hMore⟩ := exists_of_map_cons hUs
  obtain ⟨b, rfl, hLast, _⟩ := exists_of_map_singleton hVs
  exact ⟨a, more, b, rfl, hFirst, hMore, hLast⟩

section

variable {spell : Binary64 → String}

variable {ts : List Token} {least : Nat} {span : Span}

theorem exists_elements {ns : List Node}
    (h : ∀ n ∈ ns, ∀ ts : List Token, ts.map Token.content = printed spell 0 n → Reads 0 ts n)
    (hts : ts.map Token.content = printedAll spell ns) :
    ∃ ns', Parser.Elements ts ns' ∧ unplacedAll ns' = unplacedAll ns := by
  induction ns generalizing ts with
  | nil =>
    rw [List.map_eq_nil_iff.mp hts]
    exact ⟨[], ⟨[], .nil, List.forall_mem_nil _, rfl⟩, rfl⟩
  | cons n rest ih =>
    obtain ⟨hFirst, hRest⟩ := List.forall_mem_cons.mp h
    cases rest with
    | nil =>
      obtain ⟨n', hn', hSame⟩ := hFirst ts hts
      exact ⟨[n'], Parser.separated_one hn', by simp [unplacedAll, hSame]⟩
    | cons m more =>
      obtain ⟨us, vs, rfl, hUs, hVs⟩ := List.map_eq_append_iff.mp hts
      obtain ⟨comma, ws, rfl, hComma, _, hWs⟩ := exists_of_map_cons hVs
      obtain ⟨n', hn', hSame⟩ := hFirst us hUs
      obtain ⟨others, hOthers, hSameOthers⟩ := ih hRest hWs
      have hSome : others ≠ [] := by
        rintro rfl
        cases hSameOthers
      refine ⟨n' :: others, Parser.separated_more hn' hComma hOthers hSome, ?_⟩
      rw [unplacedAll, unplacedAll, hSame, hSameOthers]

theorem exists_operation {row : Nat} {op : TokenKind} {l r : Node} (hRow : row? op = some row)
    (hLeft : ∀ ts : List Token, ts.map Token.content = printed spell row l → Reads row ts l)
    (hRight : ∀ ts : List Token, ts.map Token.content = printed spell (row + 1) r →
      Reads (row + 1) ts r)
    (hts : ts.map Token.content =
      enclosedIf (row < least) (printed spell row l ++ symbol op :: printed spell (row + 1) r)) :
    ∃ n', Expression (.binary least) ts n' ∧
      n'.unplaced = Parser.combine {} op l.unplaced r.unplaced := by
  have hInner : ∀ {level : Nat} {us : List Token}, level ≤ row →
      us.map Token.content = printed spell row l ++ symbol op :: printed spell (row + 1) r →
      ∃ n', Expression (.binary level) us n' ∧
        n'.unplaced = Parser.combine {} op l.unplaced r.unplaced := by
    intro level us hLevel hUs
    obtain ⟨vs, ws, rfl, hVs, hWs⟩ := List.map_eq_append_iff.mp hUs
    obtain ⟨t, xs, rfl, hKind, _, hXs⟩ := exists_of_map_cons hWs
    obtain ⟨l', hl', hSameLeft⟩ := hLeft vs hVs
    obtain ⟨r', hr', hSameRight⟩ := hRight xs hXs
    have hOp : t.kind = op := hKind
    refine ⟨_, .binary hLevel (by rw [hOp, hRow]) hl' hr', ?_⟩
    rw [unplaced_combine, hSameLeft, hSameRight, hOp]
  by_cases hLeast : row < least
  · rw [enclosedIf, if_pos (by simpa using hLeast)] at hts
    obtain ⟨a, us, b, rfl, hFirst, hUs, hLast⟩ := exists_of_map_between hts
    obtain ⟨n', hn', hSame⟩ := hInner (Nat.zero_le row) hUs
    exact ⟨n', .ofAtom (.enclosed hFirst hn' hLast), hSame⟩
  · rw [enclosedIf, if_neg (by simpa using hLeast)] at hts
    exact hInner (by omega) hts

/-- The literal can be written: the amount of a number is below its bound, and a floating-point
value is spelled so that it is read again. -/
def IsWritable (spell : Binary64 → String) : Node → Prop
  | .number _ v => v.toInt.natAbs < 0x8000000000000000
  | .float _ v => Binary64.read (spell v) = .ok v
  | _ => True

theorem reads_number {v : Int64} (hv : v.toInt.natAbs < 0x8000000000000000)
    (hts : ts.map Token.content = printed spell least (.number span v)) :
    Reads least ts (.number span v) := by
  have hRead : readClamped (natText v.toInt.natAbs) = Int64.ofNat v.toInt.natAbs :=
    readClamped_natText hv
  rw [printed] at hts
  split at hts
  · next hNegative =>
    obtain ⟨sign, us, rfl, hSign, _, hUs⟩ := exists_of_map_cons hts
    obtain ⟨t, rfl, hKind, hValue⟩ := exists_of_map_singleton hUs
    have hSignKind : sign.kind = .minus := hSign
    have hText : t.value = natText v.toInt.natAbs := hValue
    refine ⟨_, .ofUnary (.prefixed ?_ (.ofPostfixed (.ofPrimary (.number hKind)))), ?_⟩
    · rw [hSignKind]
      decide
    · rw [hSignKind, hText, hRead, Parser.applyPrefixOp, neg_ofNat_natAbs hv hNegative]
      rfl
  · next hPositive =>
    obtain ⟨t, rfl, hKind, hValue⟩ := exists_of_map_singleton hts
    have hText : t.value = natText v.toInt.natAbs := hValue
    refine ⟨_, .ofAtom (.number hKind), ?_⟩
    rw [hText, hRead, ofNat_natAbs hv hPositive]
    rfl

theorem reads_list {elems : List Node}
    (h : ∀ e ∈ elems, ∀ ts : List Token, ts.map Token.content = printed spell 0 e → Reads 0 ts e)
    (hts : ts.map Token.content = printed spell least (.list span elems)) :
    Reads least ts (.list span elems) := by
  obtain ⟨a, us, b, rfl, hFirst, hUs, hLast⟩ := exists_of_map_between hts
  obtain ⟨_, ⟨parts, hListed, hParts, rfl⟩, hSame⟩ := exists_elements h hUs
  refine ⟨_, .ofAtom (.list hFirst hParts hListed hLast), ?_⟩
  rw [unplaced, unplaced, hSame]

theorem reads_call {callee : Node} {args : List Node} (hName : callee.isIdent = true)
    (hCallee : ∀ ts : List Token, ts.map Token.content = printed spell 0 callee → Reads 0 ts callee)
    (hArgs : ∀ a ∈ args, ∀ ts : List Token, ts.map Token.content = printed spell 0 a → Reads 0 ts a)
    (hts : ts.map Token.content = printed spell least (.call span callee args)) :
    Reads least ts (.call span callee args) := by
  rw [printed, List.append_assoc] at hts
  obtain ⟨us, vs, rfl, hUs, hVs⟩ := List.map_eq_append_iff.mp hts
  obtain ⟨a, ws, b, rfl, hFirst, hWs, hLast⟩ := exists_of_map_between hVs
  obtain ⟨callee', hCallee', hSameCallee⟩ := hCallee us hUs
  obtain ⟨_, ⟨parts, hListed, hParts, rfl⟩, hSame⟩ := exists_elements hArgs hWs
  have hIdent : callee'.isIdent = true := by
    rw [← isIdent_unplaced, hSameCallee, isIdent_unplaced, hName]
  have hPostfixed := postfixed_of_isPlace hCallee' (isPlace_of_isIdent hIdent)
  rw [← List.append_assoc]
  refine ⟨_, .ofUnary (.ofPostfixed (.call hPostfixed hIdent hFirst hParts hListed hLast)), ?_⟩
  rw [unplaced, unplaced, hSame, hSameCallee]

theorem reads_subscript {array index : Node} (hPlace : array.isPlace = true)
    (hArray : ∀ ts : List Token, ts.map Token.content = printed spell 0 array → Reads 0 ts array)
    (hIndex : ∀ ts : List Token, ts.map Token.content = printed spell 0 index → Reads 0 ts index)
    (hts : ts.map Token.content = printed spell least (.subscript span array index)) :
    Reads least ts (.subscript span array index) := by
  rw [printed, List.append_assoc] at hts
  obtain ⟨us, vs, rfl, hUs, hVs⟩ := List.map_eq_append_iff.mp hts
  obtain ⟨a, ws, b, rfl, hFirst, hWs, hLast⟩ := exists_of_map_between hVs
  obtain ⟨array', hArray', hSameArray⟩ := hArray us hUs
  obtain ⟨index', hIndex', hSameIndex⟩ := hIndex ws hWs
  have hPlace' : array'.isPlace = true := by
    rw [← isPlace_unplaced, hSameArray, isPlace_unplaced, hPlace]
  have hPostfixed := postfixed_of_isPlace hArray' hPlace'
  rw [← List.append_assoc]
  refine ⟨_, .ofUnary (.ofPostfixed (.subscript hPostfixed hPlace' hFirst hIndex' hLast)), ?_⟩
  rw [unplaced, unplaced, hSameArray, hSameIndex]

theorem reads_unary {op : TokenKind} {e : Node} (hOp : Parser.isPrefixOp op = true)
    (hSign : (op == .minus && e.isNumber) = false)
    (he : ∀ ts : List Token, ts.map Token.content = printed spell tightest e → Reads tightest ts e)
    (hts : ts.map Token.content = printed spell least (.unary span op e)) :
    Reads least ts (.unary span op e) := by
  obtain ⟨t, us, rfl, hKind, _, hUs⟩ := exists_of_map_cons hts
  obtain ⟨e', he', hSame⟩ := he us hUs
  have hSymbol : t.kind = op := hKind
  have hPrefix : t.kind ∈ prefixOperators := by
    rw [hSymbol]
    exact Parser.isPrefixOp_iff.mp hOp
  refine ⟨_, .ofUnary (.prefixed hPrefix (unary_of_tightest he')), ?_⟩
  rw [unplaced_applyPrefixOp, hSame, hSymbol, ← unplaced_applyPrefixOp span,
    applyPrefixOp_eq_unary hSign]

theorem reads_printed {n : Node} (hn : n.isExpression = true)
    (hw : ∀ x ∈ n.walk, IsWritable spell x) (hts : ts.map Token.content = printed spell least n) :
    Reads least ts n := by
  induction n using Node.induction generalizing least ts with
  | bool span v =>
    obtain ⟨t, rfl, hKind, _⟩ := exists_of_map_singleton hts
    cases v with
    | true => exact ⟨_, .ofAtom (.yes hKind), rfl⟩
    | false => exact ⟨_, .ofAtom (.no hKind), rfl⟩
  | number span v => exact reads_number (hw _ List.mem_cons_self) hts
  | float span v =>
    obtain ⟨t, rfl, hKind, hValue⟩ := exists_of_map_singleton hts
    have hRead : Binary64.read t.value = .ok v := by
      rw [hValue]
      exact hw _ List.mem_cons_self
    exact ⟨_, .ofAtom (.float hKind hRead), rfl⟩
  | string span s =>
    obtain ⟨t, rfl, hKind, hValue⟩ := exists_of_map_singleton hts
    refine ⟨_, .ofAtom (.string hKind), ?_⟩
    rw [hValue]
    rfl
  | ident span name =>
    obtain ⟨t, rfl, hKind, hValue⟩ := exists_of_map_singleton hts
    have hFree : Text.startsWith Parser.reservedLead t.value = false := by
      rw [hValue]
      simpa [isExpression, isFreeName] using hn
    refine ⟨_, .ofAtom (.name ⟨hKind, hFree⟩), ?_⟩
    rw [hValue]
    rfl
  | list span elems ih =>
    have hElems := areExpressions_iff.mp hn
    have hWritable := forall_walkAll_iff.mp (List.forall_mem_cons.mp hw).2
    exact reads_list (fun e he ts => ih e he (hElems e he) (hWritable e he)) hts
  | subscript span array index ihArray ihIndex =>
    simp only [isExpression, Bool.and_eq_true] at hn
    obtain ⟨⟨hPlace, hArray⟩, hIndex⟩ := hn
    obtain ⟨hwArray, hwIndex⟩ := List.forall_mem_append.mp (List.forall_mem_cons.mp hw).2
    exact reads_subscript hPlace (fun ts => ihArray hArray hwArray) (fun ts => ihIndex hIndex hwIndex)
      hts
  | unary span op e ih =>
    simp only [isExpression, Bool.and_eq_true, Bool.not_eq_true'] at hn
    obtain ⟨⟨hOp, hSign⟩, he⟩ := hn
    exact reads_unary hOp hSign (fun ts => ih he (List.forall_mem_cons.mp hw).2) hts
  | binary span op l r ihl ihr =>
    simp only [isExpression, Bool.and_eq_true, Bool.not_eq_true'] at hn
    obtain ⟨⟨⟨hOp, hPlain⟩, hl⟩, hr⟩ := hn
    obtain ⟨hwl, hwr⟩ := List.forall_mem_append.mp (List.forall_mem_cons.mp hw).2
    have hRow : row? op = some ((row? op).getD 0) := by
      rw [Parser.precedence?_eq, Option.isSome_map] at hOp
      obtain ⟨row, hRow⟩ := Option.isSome_iff_exists.mp hOp
      rw [hRow]
      rfl
    obtain ⟨n', hn', hSame⟩ :=
      exists_operation hRow (fun ts => ihl hl hwl) (fun ts => ihr hr hwr) hts
    refine ⟨n', hn', ?_⟩
    rw [hSame, ← unplaced_combine span, combine_eq_binary hPlain]
  | concat span l r ihl ihr =>
    simp only [isExpression, Bool.and_eq_true] at hn
    obtain ⟨⟨hStringy, hl⟩, hr⟩ := hn
    obtain ⟨hwl, hwr⟩ := List.forall_mem_append.mp (List.forall_mem_cons.mp hw).2
    obtain ⟨n', hn', hSame⟩ :=
      exists_operation rfl (fun ts => ihl hl hwl) (fun ts => ihr hr hwr) hts
    refine ⟨n', hn', ?_⟩
    rw [hSame, ← unplaced_combine span, combine_eq_concat hStringy]
  | strCompare span op l r ihl ihr =>
    simp only [isExpression, Bool.and_eq_true] at hn
    obtain ⟨⟨⟨hOp, hStringy⟩, hl⟩, hr⟩ := hn
    obtain ⟨hwl, hwr⟩ := List.forall_mem_append.mp (List.forall_mem_cons.mp hw).2
    have hRow : row? op = some ((row? op).getD 0) := by
      cases op with
      | eq | ne => rfl
      | _ => cases hOp
    obtain ⟨n', hn', hSame⟩ :=
      exists_operation hRow (fun ts => ihl hl hwl) (fun ts => ihr hr hwr) hts
    refine ⟨n', hn', ?_⟩
    rw [hSame, ← unplaced_combine span, combine_eq_strCompare hOp hStringy]
  | call span callee args ihCallee ihArgs =>
    simp only [isExpression, Bool.and_eq_true] at hn
    obtain ⟨hFree, hArgs⟩ := hn
    obtain ⟨hwCallee, hwArgs⟩ := List.forall_mem_append.mp (List.forall_mem_cons.mp hw).2
    obtain ⟨span', name, rfl⟩ := exists_eq_ident hFree
    have hCallee : (Node.ident span' name).isExpression = true := hFree
    have hExpressions := areExpressions_iff.mp hArgs
    have hWritable := forall_walkAll_iff.mp hwArgs
    exact reads_call rfl (fun ts => ihCallee hCallee hwCallee)
      (fun a ha ts => ihArgs a ha (hExpressions a ha) (hWritable a ha)) hts
  | _ => cases hn

end

def foreignKinds : List TokenKind := [.eof, .comment, .directive]

theorem not_operator_of_foreign : ∀ k ∈ foreignKinds, row? k = none ∧ k ∉ prefixOperators := by
  decide

theorem kind_of_listed {parts : List (List Token × Node)} (h : Listed parts ts)
    (hParts : ∀ x ∈ parts, ∀ t ∈ x.1, t.kind ∉ foreignKinds) : ∀ t ∈ ts, t.kind ∉ foreignKinds := by
  induction h with
  | nil => exact List.forall_mem_nil _
  | one x => exact hParts x List.mem_cons_self
  | more hComma hRest hSome ih =>
    obtain ⟨hFirst, hOthers⟩ := List.forall_mem_cons.mp hParts
    rw [List.forall_mem_append, List.forall_mem_cons, hComma]
    exact ⟨hFirst, by decide, ih hOthers⟩

theorem kind_of_expression {level : Level} (h : Expression level ts n) :
    ∀ t ∈ ts, t.kind ∉ foreignKinds := by
  induction h with
  | number hKind | float hKind | string hKind | yes hKind | no hKind =>
    rw [List.forall_mem_singleton, hKind]
    decide
  | name ht =>
    rw [List.forall_mem_singleton, ht.kind]
    decide
  | list hFirst hParts hListed hLast ih =>
    rw [List.forall_mem_append, List.forall_mem_cons, List.forall_mem_singleton, hFirst, hLast]
    exact ⟨⟨by decide, kind_of_listed hListed ih⟩, by decide⟩
  | enclosed hFirst h hLast ih =>
    rw [List.forall_mem_append, List.forall_mem_cons, List.forall_mem_singleton, hFirst, hLast]
    exact ⟨⟨by decide, ih⟩, by decide⟩
  | call hCallee hName hFirst hParts hListed hLast ihCallee ihParts =>
    rw [List.forall_mem_append, List.forall_mem_append, List.forall_mem_cons,
      List.forall_mem_singleton, hFirst, hLast]
    exact ⟨⟨ihCallee, by decide, kind_of_listed hListed ihParts⟩, by decide⟩
  | subscript hArray hPlace hFirst hIndex hLast ihArray ihIndex =>
    rw [List.forall_mem_append, List.forall_mem_append, List.forall_mem_cons,
      List.forall_mem_singleton, hFirst, hLast]
    exact ⟨⟨ihArray, by decide, ihIndex⟩, by decide⟩
  | ofPrimary h ih | ofPostfixed h ih | ofUnary h ih => exact ih
  | @prefixed op ts n hOp h ih =>
    have hKind : op.kind ∉ foreignKinds := fun hForeign => (not_operator_of_foreign _ hForeign).2 hOp
    exact List.forall_mem_cons.mpr ⟨hKind, ih⟩
  | @binary least row op us ts l r hLeast hOp hLeft hRight ihLeft ihRight =>
    have hKind : op.kind ∉ foreignKinds := by
      intro hForeign
      rw [(not_operator_of_foreign _ hForeign).1] at hOp
      cases hOp
    exact List.forall_mem_append.mpr ⟨ihLeft, List.forall_mem_cons.mpr ⟨hKind, ihRight⟩⟩

theorem filter_isSignificant (h : ∀ t ∈ ts, t.kind ∉ foreignKinds) :
    ts.filter isSignificant = ts := by
  apply List.filter_eq_self.mpr
  intro t ht
  have hKind := h t ht
  simp only [foreignKinds, List.mem_cons, List.not_mem_nil, or_false, not_or] at hKind
  simp [isSignificant, hKind]

theorem exists_parse?_assign (settings : Settings) {target op semi last : Token} {rhs : Node}
    (hTarget : IsFree target) (hOp : op.kind = .assign) (hRhs : Expression (.binary 0) ts rhs)
    (hSemi : semi.kind = .semi) (hLast : last.kind = .eof) :
    ∃ p, parse? settings ([target] ++ op :: ts ++ [semi] ++ [last]) = some p ∧
      p.result = .ok (.block target.span
        [.assign op.span (.ident target.span target.value) rhs] true) := by
  have hKinds : ∀ t ∈ [target] ++ op :: ts ++ [semi], t.kind ∉ foreignKinds := by
    rw [List.forall_mem_append, List.forall_mem_append, List.forall_mem_singleton,
      List.forall_mem_cons, List.forall_mem_singleton, hTarget.kind, hOp, hSemi]
    exact ⟨⟨by decide, by decide, kind_of_expression hRhs⟩, by decide⟩
  have hClosed : Closed ([target] ++ op :: ts ++ [semi] ++ [last]) := by
    refine ⟨_, last, rfl, hLast, fun t ht hKind => hKinds t ht ?_⟩
    rw [hKind]
    decide
  have hFilter : ([target] ++ op :: ts ++ [semi] ++ [last]).filter isSignificant =
      [target] ++ op :: ts ++ [semi] ++ [last] := by
    rw [List.filter_append, filter_isSignificant hKinds]
    simp [isSignificant, hLast]
  have hStatement : Statement ([target] ++ op :: ts ++ [semi])
      (.assign op.span (.ident target.span target.value) rhs) :=
    .assign (.ofAtom (.name hTarget)) rfl hOp hRhs hSemi
  have hItems : ∀ x ∈ [([target] ++ op :: ts ++ [semi],
      Node.assign op.span (.ident target.span target.value) rhs)], Item x.1 x.2 :=
    List.forall_mem_singleton.mpr (.statement hStatement)
  have hProgram : Program ([target] ++ op :: ts ++ [semi] ++ [last]) (.block target.span
      [.assign op.span (.ident target.span target.value) rhs] true) :=
    .intro hItems hLast (by simp)
  obtain ⟨s, p, hParse, _, _⟩ := exists_parse?_eq_some settings hClosed
  obtain ⟨root, hRoot, hBare⟩ := (result_iff_program hClosed hParse).mpr (hFilter.symm ▸ hProgram)
  have hComments : ∀ t ∈ [target] ++ op :: ts ++ [semi] ++ [last], t.kind ≠ .comment := by
    rw [List.forall_mem_append, List.forall_mem_singleton, hLast]
    refine ⟨fun t ht hKind => hKinds t ht ?_, by decide⟩
    rw [hKind]
    decide
  rw [bare_of_parse hComments hParse hRoot] at hBare
  exact ⟨p, hParse, by rw [hRoot, hBare]⟩

/-- Every floating-point value of the tree is spelled so that it is read again. -/
def SpellsFloats (spell : Binary64 → String) (e : Node) : Prop :=
  ∀ span v, .float span v ∈ e.walk → Binary64.read (spell v) = .ok v

theorem exists_spellsFloats
    (h : ∀ span v, .float span v ∈ e.walk → ∃ text, Binary64.read text = .ok v) :
    ∃ spell, SpellsFloats spell e := by
  have hSpelling : ∀ v, ∃ text, (∃ other, Binary64.read other = .ok v) →
      Binary64.read text = .ok v := by
    intro v
    by_cases hv : ∃ other, Binary64.read other = .ok v
    · exact ⟨hv.choose, fun _ => hv.choose_spec⟩
    · exact ⟨"", fun hOther => absurd hOther hv⟩
  refine ⟨fun v => (hSpelling v).choose, fun span v hv => ?_⟩
  exact (hSpelling v).choose_spec (h span v hv)

/-- Assigning a printed expression parses as the assignment of its tree, wherever the tokens stand,
and every tree that parsing can produce can be printed. -/
theorem parse?_printed {e : Node} (he : e.isExpression = true)
    (hNumbers : ∀ span v, .number span v ∈ e.walk → v.toInt.natAbs < 0x8000000000000000)
    (hFloats : ∀ span v, .float span v ∈ e.walk → ∃ text, Binary64.read text = .ok v) :
    (∃ spell, SpellsFloats spell e) ∧
    ∀ spell, SpellsFloats spell e → ∀ (settings : Settings) (x : String) (ts : List Token),
      Text.startsWith Parser.reservedLead x = false →
      ts.map Token.content = [(.ident, x), symbol .assign] ++ printed spell 0 e ++
        [symbol .semi, symbol .eof] →
      ∃ p root, parse? settings ts = some p ∧ p.result = .ok root ∧
        root.unplaced = .block {} [.assign {} (.ident {} x) e.unplaced] true := by
  refine ⟨exists_spellsFloats hFloats, ?_⟩
  intro spell hSpell settings x ts hFree hts
  have hWritable : ∀ n ∈ e.walk, IsWritable spell n := by
    intro n hn
    cases n with
    | number span v => exact hNumbers span v hn
    | float span v => exact hSpell span v hn
    | _ => trivial
  obtain ⟨us, ends, rfl, hUs, hEnds⟩ := List.map_eq_append_iff.mp hts
  obtain ⟨target, vs, rfl, hTarget, hValue, hVs⟩ := exists_of_map_cons hUs
  obtain ⟨op, ws, rfl, hOp, _, hWs⟩ := exists_of_map_cons hVs
  obtain ⟨semi, lasts, rfl, hSemi, _, hLasts⟩ := exists_of_map_cons hEnds
  obtain ⟨last, rfl, hLast, _⟩ := exists_of_map_singleton hLasts
  obtain ⟨e', hExpression, hSame⟩ := reads_printed he hWritable hWs
  have hName : target.value = x := hValue
  obtain ⟨p, hParse, hResult⟩ := exists_parse?_assign settings ⟨hTarget, by rw [hName, hFree]⟩ hOp
    hExpression hSemi hLast
  refine ⟨p, _, ?_, hResult, ?_⟩
  · simpa using hParse
  · simp only [unplaced, unplacedAll, hName, hSame]

def oneAndAHalf : Binary64 := .finite false 0x18000000000000 (-52)

def nestedTree : Node :=
  .binary {} .star
    (.binary {} .minus (.ident {} "a") (.binary {} .minus (.ident {} "b") (.number {} (-2))))
    (.unary {} .tilde (.call {} (.ident {} "f")
      [.concat {} (.string {} "s") (.binary {} .plus (.ident {} "a") (.number {} 1)),
        .float {} oneAndAHalf, .subscript {} (.ident {} "a") (.number {} 0)]))

/-- `(a - (b - -2)) * ~f("s" + (a + 1), 1.5, a[0])` -/
def nestedContents : List (TokenKind × String) :=
  [symbol .lparen, (.ident, "a"), symbol .minus, symbol .lparen, (.ident, "b"), symbol .minus,
    symbol .minus, (.number, "2"), symbol .rparen, symbol .rparen, symbol .star, symbol .tilde,
    (.ident, "f"), symbol .lparen, (.string, "s"), symbol .plus, symbol .lparen, (.ident, "a"),
    symbol .plus, (.number, "1"), symbol .rparen, symbol .comma, (.float, "1.5"), symbol .comma,
    (.ident, "a"), symbol .lbracket, (.number, "0"), symbol .rbracket, symbol .rparen]

theorem parse?_printed_nestedTree :
    nestedTree.isExpression = true ∧ printed (fun _ => "1.5") 0 nestedTree = nestedContents ∧
    ∃ p root, parse? {} (([(.ident, "x"), symbol .assign] ++ nestedContents ++
        [symbol .semi, symbol .eof]).map fun w => { kind := w.1, value := w.2 }) = some p ∧
      p.result = .ok root ∧
      root.unplaced = .block {} [.assign {} (.ident {} "x") nestedTree.unplaced] true := by
  have hExpression : nestedTree.isExpression = true := by decide +kernel
  have hPrinted : printed (fun _ => "1.5") 0 nestedTree = nestedContents := by decide +kernel
  have hRead : Binary64.read "1.5" = .ok oneAndAHalf := by rfl
  have hNumbers : ∀ span v, .number span v ∈ nestedTree.walk →
      v.toInt.natAbs < 0x8000000000000000 := by
    intro span v hv
    simp only [nestedTree, walk, walkAll, List.mem_cons, List.mem_append, List.not_mem_nil,
      reduceCtorEq, number.injEq, false_or, or_false] at hv
    rcases hv with ⟨_, rfl⟩ | ⟨_, rfl⟩ | ⟨_, rfl⟩ <;> decide
  have hFloats : ∀ span v, .float span v ∈ nestedTree.walk → v = oneAndAHalf := by
    intro span v hv
    simp only [nestedTree, walk, walkAll, List.mem_cons, List.mem_append, List.not_mem_nil,
      reduceCtorEq, float.injEq, false_or, or_false] at hv
    exact hv.2
  refine ⟨hExpression, hPrinted, ?_⟩
  refine (parse?_printed hExpression hNumbers fun span v hv => ?_).2 (fun _ => "1.5") ?_ {} "x" _
    (by decide) ?_
  · exact ⟨"1.5", hFloats span v hv ▸ hRead⟩
  · exact fun span v hv => hFloats span v hv ▸ hRead
  · rw [hPrinted]
    decide

end Syntax

end BatchCompiler
