import Mathlib
import BatchCompiler.Proofs.Lowering.Acceptance

/-!
# Unreachable code

A return is remarked on if something comes after it in its list. Flattening keeps lists together, but
it evaluates the condition of a loop once more after the body. So a body that is nothing but a return
is remarked on as well if something of the condition has to be computed in front of it.
-/

namespace BatchCompiler

open Lowering

namespace Node

mutual

/-- The returns in the lists of a statement that are followed by more than comments and empty
statements. -/
def followedReturns : Node → Nat
  | .block _ stmts _ => followedReturnsIn false stmts
  | .branch _ _ thenBody elseBody => thenBody.followedReturns + elseBody.followedReturns
  | .loop _ _ body => body.followedReturns
  | .func _ _ _ body => body.followedReturns
  | _ => 0

def followedReturnsIn (more : Bool) : List Node → Nat
  | [] => 0
  | n :: rest =>
    (isReturn n && (more || rest.any fun m => !isSilent m)).toNat + n.followedReturns +
      followedReturnsIn more rest

end

def followedReturnsOf (root : Node) : Nat :=
  followedReturnsIn false ((ScopeTable.itemsOf root).filter fun n => !n.isFunc) +
    followedReturnsIn false ((ScopeTable.itemsOf root).filter isFunc)

end Node

namespace Syntax.Flattening

def spilled (inFunction : Bool) (p : Position) (n : Node) (inParts : Bool) : Bool :=
  (treatment inFunction p n).moves || (treatment inFunction p n == .keep && inParts)

mutual

/-- Something of an expression in a position moves in front of the statement. -/
def spills (inFunction : Bool) (p : Position) : Node → Bool
  | n@(.subscript _ array index) =>
    spilled inFunction p n (spills inFunction .place array || spills inFunction .index index)
  | n@(.unary _ _ e) => spilled inFunction p n (spills inFunction .arithmetic e)
  | n@(.binary _ op l r) =>
    spilled inFunction p n
      (spills inFunction op.operandPosition l || spills inFunction op.operandPosition r)
  | n@(.concat _ l r) | n@(.strCompare _ _ l r) =>
    spilled inFunction p n (spills inFunction .text l || spills inFunction .text r)
  | n@(.list _ elems) => spilled inFunction p n (spillsAny inFunction .value elems)
  | n@(.call _ _ args) => spilled inFunction p n (spillsAny inFunction .text args)
  | n => spilled inFunction p n false

def spillsAny (inFunction : Bool) (p : Position) : List Node → Bool
  | [] => false
  | n :: rest => spills inFunction p n || spillsAny inFunction p rest

end

mutual

/-- The loops that have a return for a body and a condition of which something moves. -/
def repeatedReturns (inFunction : Bool) : Node → Nat
  | .block _ stmts _ => repeatedReturnsIn inFunction stmts
  | .branch _ _ thenBody elseBody =>
    repeatedReturns inFunction thenBody + repeatedReturns inFunction elseBody
  | .loop _ cond body =>
    (isReturn body && spills inFunction .condition cond).toNat + repeatedReturns inFunction body
  | _ => 0

def repeatedReturnsIn (inFunction : Bool) : List Node → Nat
  | [] => 0
  | n :: rest => repeatedReturns inFunction n + repeatedReturnsIn inFunction rest

end

def repeatedReturnsOfItem : Node → Nat
  | .func _ _ _ body => repeatedReturns true body
  | n => repeatedReturns false n

def repeatedReturnsOf (root : Node) : Nat :=
  ((ScopeTable.itemsOf root).map repeatedReturnsOfItem).sum

section

variable {inFunction : Bool} {ns ms new out : List Node} {n : Node} {more : Bool}

theorem spillsAny_eq (p : Position) : spillsAny inFunction p ns =
    (ns.map fun n => (p, n)).any fun x => spills inFunction x.1 x.2 := by
  induction ns with
  | nil => rfl
  | cons n rest ih => rw [spillsAny, ih, List.map_cons, List.any_cons]

theorem spills_eq (p : Position) : spills inFunction p n =
    spilled inFunction p n ((parts n).any fun x => spills inFunction x.1 x.2) := by
  cases n <;> simp [spills, parts, Node.operands, spillsAny_eq]

theorem Turns.isEmpty_new {xs : List (Position × Node)} (h : Turns inFunction xs ns new) :
    (!new.isEmpty) = xs.any fun x => spills inFunction x.1 x.2 := by
  induction h with
  | nil => rfl
  | leave _ hLeave _ ih =>
    rw [List.any_cons, ← ih, spills_eq, spilled, hLeave]
    rfl
  | @keep p n xs es ns before new hKeep _ _ _ ihParts ih =>
    rw [List.any_cons, ← ih, spills_eq, spilled, hKeep, ← ihParts]
    cases before <;> rfl
  | move number hMoves _ _ _ _ _ =>
    rw [List.any_cons, spills_eq, spilled, hMoves]
    simp

structure IsPlain (n : Node) : Prop where
  isReturn : isReturn n = false
  isSilent : isSilent n = false
  followedReturns : n.followedReturns = 0

theorem Turns.isPlain_new {xs : List (Position × Node)} (h : Turns inFunction xs ns new) :
    ∀ n ∈ new, IsPlain n := by
  intro n hn
  obtain ⟨t, span, e, temp, rfl⟩ := h.exists_filling hn
  unfold filling
  split <;> exact ⟨rfl, rfl, rfl⟩

theorem any_of_isPlain (h : ∀ n ∈ new, IsPlain n) :
    (new.any fun m => !isSilent m) = !new.isEmpty := by
  cases new with
  | nil => rfl
  | cons n rest => simp [(h n List.mem_cons_self).isSilent]

theorem followedReturnsIn_append (ns ms : List Node) :
    Node.followedReturnsIn more (ns ++ ms) =
      Node.followedReturnsIn (more || ms.any fun m => !isSilent m) ns +
        Node.followedReturnsIn more ms := by
  induction ns with
  | nil => simp [Node.followedReturnsIn]
  | cons n rest ih =>
    simp only [List.cons_append, Node.followedReturnsIn, ih, List.any_append]
    rw [← Bool.or_assoc, Bool.or_right_comm, Nat.add_assoc _ _ (Node.followedReturnsIn more ms)]

theorem followedReturnsIn_of_isPlain (h : ∀ n ∈ new, IsPlain n) :
    Node.followedReturnsIn more new = 0 := by
  induction new with
  | nil => rfl
  | cons n rest ih =>
    obtain ⟨hn, hRest⟩ := List.forall_mem_cons.mp h
    rw [Node.followedReturnsIn, ih hRest, hn.isReturn, hn.followedReturns]
    rfl

theorem followedReturnsIn_cons (h : isReturn n = false) (ns : List Node) :
    Node.followedReturnsIn more (n :: ns) = n.followedReturns + Node.followedReturnsIn more ns := by
  rw [Node.followedReturnsIn, h, Bool.false_and, Bool.toNat_false, Nat.zero_add]

theorem followedReturns_single (span : Span) (stmts : List Node) :
    (single span stmts).followedReturns = Node.followedReturnsIn false stmts := by
  match stmts with
  | [n] => simp [single, Node.followedReturnsIn]
  | [] | _ :: _ :: _ => rfl

theorem followedReturnsIn_new (h : ∀ n ∈ new, IsPlain n) :
    Node.followedReturnsIn more (new ++ ns) = Node.followedReturnsIn more ns := by
  rw [followedReturnsIn_append, followedReturnsIn_of_isPlain h, Nat.zero_add]

theorem Becomes.any_eq (h : Becomes inFunction ns out) :
    (out.any fun m => !isSilent m) = ns.any fun m => !isSilent m := by
  induction h with
  | nil => rfl
  | passed _ _ ih => rw [List.any_cons, List.any_cons, ih]
  | _ => simp [isSilent, assignTruth]

theorem repeatedReturnsIn_bodyStatements :
    repeatedReturnsIn inFunction (bodyStatements n) = repeatedReturns inFunction n := by
  cases n <;> rfl

theorem followedReturnsIn_bodyStatements :
    Node.followedReturnsIn false (bodyStatements n) = n.followedReturns := by
  cases n <;> simp [bodyStatements, Node.followedReturnsIn, Node.isAbsent, Node.followedReturns]

theorem followedReturns_gathered {stmts : List Node}
    (h : Becomes inFunction (bodyStatements n) stmts)
    (hStmts : ∀ more, Node.followedReturnsIn more stmts =
      Node.followedReturnsIn more (bodyStatements n) +
        repeatedReturnsIn inFunction (bodyStatements n)) :
    (gathered n stmts).followedReturns = n.followedReturns + repeatedReturns inFunction n := by
  rw [← followedReturnsIn_bodyStatements (n := n), ← repeatedReturnsIn_bodyStatements, ← hStmts]
  unfold gathered
  split
  · next hAbsent =>
    rw [bodyStatements, if_pos hAbsent] at h
    cases h
    rfl
  · exact followedReturns_single n.span stmts

/-- Flat statements have the followed returns of the statements, and one for every loop that has a
return for a body and a condition to be computed again. -/
theorem Becomes.followedReturns (h : Becomes inFunction ns out) (more : Bool) :
    Node.followedReturnsIn more out =
      Node.followedReturnsIn more ns + repeatedReturnsIn inFunction ns := by
  induction h generalizing more with
  | nil => rfl
  | @passed n _ _ hn h ih =>
    have hRepeated : repeatedReturns inFunction n = 0 := by
      cases n <;> first | rfl | cases hn
    rw [Node.followedReturnsIn, Node.followedReturnsIn, ih, h.any_eq, repeatedReturnsIn, hRepeated]
    omega
  | block _ _ ihStmts ih =>
    rw [followedReturnsIn_cons rfl, followedReturnsIn_cons rfl, ih, repeatedReturnsIn,
      Node.followedReturns, Node.followedReturns, ihStmts, repeatedReturns]
    omega
  | assign _ hTurns h ih | decide _ hTurns h ih | call hTurns h ih =>
    rw [followedReturnsIn_new hTurns.isPlain_new, followedReturnsIn_cons rfl,
      followedReturnsIn_cons rfl, ih, repeatedReturnsIn]
    simp only [Node.followedReturns, Node.followedReturnsIn, repeatedReturns, assignTruth, isReturn,
      Bool.false_and, Bool.toNat_false]
    omega
  | branch hTurns hThen hElse h ihThen ihElse ih =>
    rw [followedReturnsIn_new hTurns.isPlain_new, followedReturnsIn_cons rfl,
      followedReturnsIn_cons rfl, ih, repeatedReturnsIn, Node.followedReturns,
      followedReturns_gathered hThen ihThen, followedReturns_gathered hElse ihElse,
      Node.followedReturns, repeatedReturns]
    omega
  | @loop span cond cond' body new stmts ns out hTurns _ h ihBody ih =>
    have hPlain := hTurns.isPlain_new
    have hSpills := hTurns.isEmpty_new
    rw [List.any_cons, List.any_nil, Bool.or_false] at hSpills
    rw [followedReturnsIn_new hPlain, followedReturnsIn_cons rfl, followedReturnsIn_cons rfl, ih,
      repeatedReturnsIn, Node.followedReturns, followedReturns_single, followedReturnsIn_append,
      followedReturnsIn_of_isPlain hPlain, any_of_isPlain hPlain, hSpills, ihBody,
      Node.followedReturns, repeatedReturns, Node.followedReturnsIn, repeatedReturnsIn]
    simp only [List.any_nil, Bool.or_false, Bool.false_or, Node.followedReturnsIn, repeatedReturnsIn]
    omega
  | ret hTurns h ih =>
    rw [followedReturnsIn_new hTurns.isPlain_new, Node.followedReturnsIn, Node.followedReturnsIn, ih,
      h.any_eq, repeatedReturnsIn]
    simp only [isReturn, Node.followedReturns, repeatedReturns]
    omega

theorem ItemsBecome.functions (h : ItemsBecome ns out) :
    Node.followedReturnsIn false (out.filter Node.isFunc) +
        repeatedReturnsIn false (ns.filter fun n => !n.isFunc) =
      Node.followedReturnsIn false (ns.filter Node.isFunc) +
        (ns.map repeatedReturnsOfItem).sum := by
  induction h with
  | nil => rfl
  | func hBody _ ih =>
    rw [List.filter_cons_of_pos (p := Node.isFunc) rfl,
      List.filter_cons_of_pos (p := Node.isFunc) rfl, List.filter_cons_of_neg (by simp [Node.isFunc]),
      followedReturnsIn_cons rfl, followedReturnsIn_cons rfl, List.map_cons, List.sum_cons,
      Node.followedReturns, Node.followedReturns,
      followedReturns_gathered hBody hBody.followedReturns, repeatedReturnsOfItem]
    omega
  | @statement n _ _ _ hn hStmts _ ih =>
    have hItem : repeatedReturnsOfItem n = repeatedReturns false n := by
      cases n <;> first | rfl | cases hn
    rw [List.filter_append, (filter_stands (hStmts.stands (List.forall_mem_singleton.mpr hn))).2,
      List.filter_cons_of_neg (p := Node.isFunc) (by simp [hn]),
      List.filter_cons_of_pos (by simp [hn]), repeatedReturnsIn, List.map_cons, List.sum_cons, hItem,
      List.nil_append]
    omega

end

end Syntax.Flattening

namespace Lowering

def unreachableRemarks (rs : List Remark) : Nat :=
  rs.countP fun r => r.warning == .unreachableCode

/-- A run that succeeds adds so many remarks on unreachable code. -/
def Notes {α : Type} (k : Nat) (m : Lower α) : Prop :=
  ∀ s a s', m.run s = (.ok a, s') →
    unreachableRemarks s'.remarks = unreachableRemarks s.remarks + k

section

variable {α β : Type} {c : Context} {span : Span} {message : String} {j k : Nat}

theorem notes_pure (a : α) : Notes 0 (pure a : Lower α) := by
  intro s b s' h
  obtain ⟨_, rfl⟩ := of_run_pure h
  rfl

theorem notes_liftLower (x : Except Failure α) : Notes 0 (liftLower x) := by
  intro s b s' h
  obtain ⟨_, rfl⟩ := of_run_liftLower h
  rfl

theorem notes_throw (e : Failure) : Notes k (throw e : Lower α) := by
  intro s b s' h
  cases h

theorem notes_newLabel : Notes 0 newLabel := by
  rintro s b s' ⟨⟩
  rfl

theorem Notes.bind {m : Lower α} {f : α → Lower β} (hm : Notes j m) (hf : ∀ a, Notes k (f a)) :
    Notes (j + k) (m >>= f) := by
  intro s b s' h
  obtain ⟨a, s₁, hFirst, hRest⟩ := exists_of_run_bind h
  rw [hf a s₁ b s' hRest, hm s a s₁ hFirst, Nat.add_assoc]

theorem Notes.congr {m : Lower α} (hm : Notes j m) (h : j = k) : Notes k m := h ▸ hm

theorem Notes.andThen {m : Lower α} {f : α → Lower β} (hm : Notes 0 m) (hf : ∀ a, Notes k (f a)) :
    Notes k (m >>= f) :=
  Nat.zero_add k ▸ hm.bind hf

theorem notes_remark {w : Warning} (hw : w ≠ .unreachableCode) :
    Notes 0 (remark c w span message) := by
  rintro s b s' ⟨⟩
  simp only [Settings.remark, unreachableRemarks, List.countP_append]
  split <;> simp [hw]

theorem notes_unreachable (hc : c.settings.warning .unreachableCode = true) :
    Notes 1 (remark c .unreachableCode span message) := by
  rintro s b s' ⟨⟩
  simp [Settings.remark, hc, unreachableRemarks]

theorem notes_lowerCall (n callee : Node) (args : List Node) :
    Notes 0 (lowerCall c span n callee args) := by
  cases callee with
  | ident nameSpan name =>
    refine (notes_liftLower _).andThen fun texts => ?_
    split
    · split
      · exact (notes_remark (by decide)).andThen fun _ => notes_pure _
      · exact notes_pure _
    · exact (notes_remark (by decide)).andThen fun _ => notes_pure _
  | _ =>
    intro s b s' h
    cases h

theorem followedReturnsFrom_cons (returned : Bool) (n : Node) (rest : List Node) :
    (returned && (n :: rest).any fun m => !isSilent m).toNat +
        Node.followedReturnsIn false (n :: rest) =
      (returned && !isSilent n).toNat + (n.followedReturns +
        (((isReturn n || (returned && !(returned && !isSilent n))) &&
          rest.any fun m => !isSilent m).toNat + Node.followedReturnsIn false rest)) := by
  have hSilent : isSilent n = true → isReturn n = false := by
    cases n <;> first | exact fun _ => rfl | exact fun h => by cases h
  rw [List.any_cons, Node.followedReturnsIn, Bool.false_or]
  cases hn : isSilent n with
  | true =>
    rw [hSilent hn]
    cases returned <;> simp
    omega
  | false =>
    cases returned <;> simp <;> omega

theorem notes_lowerStatements (hc : c.settings.warning .unreachableCode = true) {ns : List Node}
    (h : ∀ n ∈ ns, Notes n.followedReturns (lowerStatement c n)) (returned : Bool) :
    Notes ((returned && ns.any fun m => !isSilent m).toNat + Node.followedReturnsIn false ns)
      (lowerStatements c returned ns) := by
  induction ns generalizing returned with
  | nil =>
    rw [lowerStatements, List.any_nil, Bool.and_false]
    exact notes_pure _
  | cons n rest ih =>
    obtain ⟨hn, hRest⟩ := List.forall_mem_cons.mp h
    rw [lowerStatements, followedReturnsFrom_cons]
    dsimp only
    split
    · exact notes_throw _
    · split
      · next hReached =>
        refine Notes.congr ((notes_unreachable hc).bind fun _ => hn.bind fun _ =>
          (ih hRest _).bind fun _ => notes_pure _) ?_
        rw [hReached]
        rfl
      · next hReached =>
        refine Notes.congr (hn.bind fun _ => (ih hRest _).bind fun _ => notes_pure _) ?_
        rw [Bool.not_eq_true _ |>.mp hReached, Bool.toNat_false, Nat.zero_add]
        rfl

theorem notes_lowerStatement (hc : c.settings.warning .unreachableCode = true) (n : Node) :
    Notes n.followedReturns (lowerStatement c n) := by
  induction n using Node.induction with
  | absent | comment => exact notes_pure _
  | block span stmts synthetic ih =>
    rw [lowerStatement, Node.followedReturns]
    have hStmts := notes_lowerStatements hc ih false
    rwa [Bool.false_and, Bool.toNat_false, Nat.zero_add] at hStmts
  | call span callee args =>
    rw [lowerStatement]
    exact notes_lowerCall _ _ _
  | assign span lhs rhs =>
    rw [lowerStatement]
    exact (notes_liftLower _).andThen fun _ => notes_liftLower _
  | branch span cond thenBody elseBody _ ihThen ihElse =>
    rw [lowerStatement, Node.followedReturns]
    refine (notes_liftLower _).andThen fun _ => ihThen.bind fun _ => ?_
    split
    · next hAbsent =>
      cases elseBody with
      | absent => exact notes_pure _
      | _ => cases hAbsent
    · exact ihElse.bind fun _ => notes_pure _
  | loop span cond body _ ihBody =>
    rw [lowerStatement, Node.followedReturns]
    refine notes_newLabel.andThen fun _ => (notes_liftLower _).andThen fun _ => ?_
    exact ihBody.bind fun _ => notes_pure _
  | ret span e =>
    rw [lowerStatement]
    split
    · exact notes_pure _
    · split
      · exact notes_liftLower _
      · exact (notes_liftLower _).andThen fun _ => notes_pure _
  | globals span names =>
    rw [lowerStatement]
    split
    · exact (notes_remark (by decide)).andThen fun _ => notes_pure _
    · exact notes_pure _
  | empty span =>
    rw [lowerStatement]
    exact (notes_remark (by decide)).andThen fun _ => notes_pure _
  | _ =>
    intro s b s' h
    cases h

theorem notes_lowerFunction (hc : c.settings.warning .unreachableCode = true) (name : String)
    (params : List Node) (body : Node) :
    Notes body.followedReturns (lowerFunction c span name params body) := by
  unfold lowerFunction
  split
  · exact notes_throw _
  · next scope _ =>
    refine Notes.bind (k := 0) (notes_lowerStatement
      (c := { c with scope := scope.name, function := name }) hc body) fun stmts => ?_
    split
    · exact notes_throw _
    · exact (notes_liftLower _).andThen fun _ => notes_pure _

theorem notes_lowerFunctions (hc : c.settings.warning .unreachableCode = true) {ns : List Node}
    (h : ∀ n ∈ ns, n.isFunc = true) :
    Notes (Node.followedReturnsIn false ns) (lowerFunctions c ns) := by
  induction ns with
  | nil => exact notes_pure _
  | cons n rest ih =>
    obtain ⟨hn, hRest⟩ := List.forall_mem_cons.mp h
    cases n with
    | func span name params body =>
      rw [lowerFunctions, Syntax.Flattening.followedReturnsIn_cons rfl, Node.followedReturns]
      exact (notes_lowerFunction hc name params body).bind fun _ =>
        (ih hRest).bind fun _ => notes_pure _
    | _ => cases hn

theorem notes_lowerItems (hc : c.settings.warning .unreachableCode = true) (ns : List Node) :
    Notes (Node.followedReturnsIn false (ns.filter fun n => !n.isFunc) +
      Node.followedReturnsIn false (ns.filter Node.isFunc)) (lowerItems c ns) := by
  have hStmts := notes_lowerStatements hc
    (fun n (_ : n ∈ ns.filter fun n => !n.isFunc) => notes_lowerStatement hc n) false
  rw [Bool.false_and, Bool.toNat_false, Nat.zero_add] at hStmts
  have hFuncs := notes_lowerFunctions hc
    fun n (hn : n ∈ ns.filter Node.isFunc) => (List.mem_filter.mp hn).2
  unfold lowerItems
  split
  · exact notes_throw _
  · exact hStmts.bind fun _ => hFuncs.bind fun _ => notes_pure _

end

/-- A program that is lowered gets a remark for every return that is followed in its list, and one
for every loop that has a return for a body and a condition of which something is computed in front:
that is computed again after the body. -/
theorem unreachableRemarks_lowerTree {settings : Settings} {tokens : List Token}
    {parsed : Syntax.Parsed} {root : Node} {program : Target.Program} {log log' : List Remark}
    (hParse : Syntax.parse? settings tokens = some parsed) (hRoot : parsed.result = .ok root)
    (hSplit : parsed.settings.feature .split = true)
    (hWarning : parsed.settings.warning .unreachableCode = true)
    (hRun : (Stage.lowerTree parsed.settings root).run log = (.ok program, log')) :
    unreachableRemarks log' = unreachableRemarks log +
      (root.followedReturnsOf + Syntax.Flattening.repeatedReturnsOf root) := by
  obtain ⟨table, flat, flatTable, hTable, hFlat, hLower, rfl⟩ := Stage.of_run_lowerTree hRun
  have hProgram := Syntax.isProgram_of_parse hParse hRoot
  obtain ⟨span, ns, out, synthetic, table', rfl, hFlatten, hItems, -⟩ :=
    Syntax.Flattening.exists_itemsBecome hProgram (ScopeTable.mem_functionNames_of_build hTable)
  rw [Stage.flatten?, if_pos hSplit, hFlatten] at hFlat
  cases hFlat
  have hItemsRun : (lowerItems { settings := parsed.settings, table := flatTable } out).run {} =
      (.ok program, ((lowerItems { settings := parsed.settings, table := flatTable } out).run {}).2) :=
    Prod.ext hLower rfl
  have hNotes : unreachableRemarks
      (lower parsed.settings flatTable (.block span out synthetic)).2 = _ :=
    (notes_lowerItems hWarning out _ _ _ hItemsRun).trans (Nat.zero_add _)
  have hStatements := hItems.statements.followedReturns false
  have hFunctions := hItems.functions
  have hAppend : ∀ rs, unreachableRemarks (log ++ rs) =
      unreachableRemarks log + unreachableRemarks rs := fun rs => List.countP_append
  rw [hAppend, hNotes, Node.followedReturnsOf, Syntax.Flattening.repeatedReturnsOf,
    ScopeTable.itemsOf]
  omega

def returningSource : List Char :=
  "while (x + 1) return;".toList

structure LowersWithRemarks (source : List Char) (parsed : Syntax.Parsed) (root : Node)
    (program : Target.Program) (log : List Remark) : Prop where
  parse : Syntax.parse? {} (Scanner.start {} 0 source).tokens.1 = some parsed
  result : parsed.result = .ok root
  split : parsed.settings.feature .split = true
  warning : parsed.settings.warning .unreachableCode = true
  run : (Stage.lowerTree parsed.settings root).run [] = (.ok program, log)

theorem exists_lowersWithRemarks_returningSource :
    ∃ parsed root program log, LowersWithRemarks returningSource parsed root program log ∧
      root.followedReturnsOf = 0 ∧ unreachableRemarks log = 1 := by
  have hEval : ((Syntax.parse? {} (Scanner.start {} 0 returningSource).tokens.1).bind fun parsed =>
      parsed.result.toOption.bind fun root =>
        ((Stage.lowerTree parsed.settings root).run []).1.toOption.map fun _ =>
          (parsed.settings.feature .split, parsed.settings.warning .unreachableCode,
            root.followedReturnsOf,
            unreachableRemarks ((Stage.lowerTree parsed.settings root).run []).2)) =
      some (true, true, 0, 1) := by
    decide +kernel
  obtain ⟨parsed, hParse, hEval⟩ := Option.bind_eq_some_iff.mp hEval
  obtain ⟨root, hRoot, hEval⟩ := Option.bind_eq_some_iff.mp hEval
  obtain ⟨program, hProgram, hEval⟩ := Option.map_eq_some_iff.mp hEval
  simp only [Prod.mk.injEq] at hEval
  exact ⟨parsed, root, program, _, ⟨hParse, eq_ok_of_toOption hRoot, hEval.1, hEval.2.1,
    Prod.ext (eq_ok_of_toOption hProgram) rfl⟩, hEval.2.2⟩

theorem unreachableRemarks_lowerTree_returningSource :
    ∃ parsed root program log, LowersWithRemarks returningSource parsed root program log ∧
      unreachableRemarks log = unreachableRemarks [] +
        (root.followedReturnsOf + Syntax.Flattening.repeatedReturnsOf root) := by
  obtain ⟨parsed, root, program, log, h, -⟩ := exists_lowersWithRemarks_returningSource
  exact ⟨parsed, root, program, log, h,
    unreachableRemarks_lowerTree h.parse h.result h.split h.warning h.run⟩

/-- Nothing follows the return, and yet a remark is made. -/
theorem unreachableRemarks_ne_followedReturns :
    ∃ parsed root program log, LowersWithRemarks returningSource parsed root program log ∧
      unreachableRemarks log ≠ root.followedReturnsOf := by
  obtain ⟨parsed, root, program, log, h, hFollowed, hRemarks⟩ :=
    exists_lowersWithRemarks_returningSource
  exact ⟨parsed, root, program, log, h, by rw [hFollowed, hRemarks]; decide⟩

end Lowering

end BatchCompiler
