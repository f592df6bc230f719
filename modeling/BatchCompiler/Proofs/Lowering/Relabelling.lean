import BatchCompiler.Proofs.Lowering.Recasting
import BatchCompiler.Proofs.Scope.Relabelling

/-!
# Lowering relabelled trees

The outline of code is what is left of it without its texts and remarks. A relabelled tree is lowered
exactly if the tree is, and to code of the same outline.
-/

namespace BatchCompiler

namespace Target

def Fragment.outline : Fragment → Fragment
  | .text _ => .text ""
  | f => f

def textOutline (fs : List Fragment) : List Fragment :=
  fs.map Fragment.outline

def Comparison.outline (c : Comparison) : Comparison where
  op := c.op
  left := textOutline c.left
  right := textOutline c.right

mutual

def Stmt.outline : Stmt → Stmt
  | .comment _ => .comment ""
  | .setText dst value => .setText dst (textOutline value)
  | .call callee args => .call callee (args.map textOutline)
  | .whenTrue c body => .whenTrue c.outline (outline body)
  | .choose c thenBody elseBody => .choose c.outline (outline thenBody) (outline elseBody)
  | s => s

def outline : List Stmt → List Stmt
  | [] => []
  | s :: rest => s.outline :: outline rest

end

def Recode.blank : Recode where
  name := id
  text := fun _ => ""
  comment := fun _ => ""

theorem Fragment.recode_blank (f : Fragment) : f.recode .blank = f.outline := by
  cases f with
  | read p => exact congrArg Fragment.read p.rename_id
  | _ => rfl

theorem recodeText_blank (fs : List Fragment) : recodeText .blank fs = textOutline fs :=
  List.map_congr_left fun f _ => f.recode_blank

theorem Comparison.recode_blank (c : Comparison) : c.recode .blank = c.outline :=
  congrArg₂ (Comparison.mk c.op) (recodeText_blank c.left) (recodeText_blank c.right)

mutual

theorem Stmt.recode_blank : (s : Stmt) → s.recode .blank = s.outline
  | .absent | .raw _ | .comment _ | .label _ | .jump _ => rfl
  | .setText dst value => congrArg₂ Stmt.setText dst.rename_id (recodeText_blank value)
  | .setNumber dst e => congrArg₂ Stmt.setNumber dst.rename_id e.rename_id
  | .call callee args =>
    congrArg₂ Stmt.call callee.recode_id (List.map_congr_left fun fs _ => recodeText_blank fs)
  | .whenTrue c body => by
    rw [Stmt.recode, Stmt.outline, c.recode_blank, recode_blank body]
  | .choose c thenBody elseBody => by
    rw [Stmt.recode, Stmt.outline, c.recode_blank, recode_blank thenBody, recode_blank elseBody]

theorem recode_blank : (code : List Stmt) → recode .blank code = outline code
  | [] => rfl
  | s :: rest => by rw [recode, outline, s.recode_blank, recode_blank rest]

end

end Target

namespace Lowering

open Target

section

variable {ε α γ : Type}

def SameResult (f : α → γ) (x y : Except ε α) : Prop :=
  x.toOption.map f = y.toOption.map f

theorem SameResult.exists_eq_ok {f : α → γ} {x y : Except ε α} (h : SameResult f x y) {a : α}
    (hx : x = .ok a) : ∃ b, y = .ok b ∧ f a = f b := by
  subst hx
  cases y with
  | error e => cases h
  | ok b => exact ⟨b, rfl, Option.some.inj h⟩

end

variable {g : Relabel}

theorem filter_relabelAll {p : Node → Bool} (hp : ∀ n : Node, p (n.relabel g) = p n)
    (ns : List Node) : (Node.relabelAll g ns).filter p = Node.relabelAll g (ns.filter p) := by
  have hSame : p ∘ Node.relabel g = p := funext hp
  rw [Node.relabelAll_eq_map, Node.relabelAll_eq_map, List.filter_map, hSame]

theorem recastAll_keepingNames (ns : List Node) :
    Node.recastAll g.keepingNames ns = Node.relabelAll g ns := by
  rw [Node.recastAll_eq_map, Node.relabelAll_eq_map]
  exact List.map_congr_left fun n _ => n.recast_keepingNames g

section

variable {V : Reading g.keepingNames}

theorem Reading.Functions.code {name : String} {params : List Node} {a b : List Stmt}
    (h : V.Functions name params a b) : V.Code a b := by
  obtain ⟨names, body, body', _, rfl, rfl, hBody⟩ := h
  rw [Reading.Code, recode_assemble, recode_assemble, hBody]
  rfl

theorem PartByPart.code {names : List String} {a b : List Stmt}
    (h : PartByPart (fun _ => V.Code) names a b) : V.Code a b := by
  induction h with
  | nil => rfl
  | cons hPart _ ih => exact hPart.append ih

variable {c c' : Context} (hc : c.Alike c')

include hc

theorem runFunctions_relabel (ns : List Node) (h : ∀ n ∈ ns, n.isFunc = true) :
    List.Forall₂ (RunFunctions g (fun _ => V.Code) c c') ns (Node.relabelAll g ns) := by
  induction ns with
  | nil => exact .nil
  | cons n rest ih =>
    obtain ⟨hn, hRest⟩ := List.forall_mem_cons.mp h
    rw [Node.relabelAll]
    refine .cons ?_ (ih hRest)
    cases n with
    | func span name params body =>
      have hRun := runs_function (V := V) hc span name params body
      rw [Node.recast_keepingNames] at hRun
      exact ⟨span, name, params, body, g.place span, Node.relabelAll g params, body.relabel g, rfl,
        rfl, hRun.imp fun _ _ hCode => hCode.code⟩
    | _ => cases hn

theorem runs_items_relabel (ns : List Node) :
    Runs g V.Code (lowerItems c ns) (lowerItems c' (Node.relabelAll g ns)) := by
  have hAny : (Node.relabelAll g ns).any Node.isAbsent = ns.any Node.isAbsent := by
    have hSame : Node.isAbsent ∘ Node.relabel g = Node.isAbsent := funext Node.isAbsent_relabel
    rw [Node.relabelAll_eq_map, List.any_map, hSame]
  have hTop : ∀ n : Node, (!(n.relabel g).isFunc) = !n.isFunc := fun n => by rw [Node.isFunc_relabel]
  have hStmts := runs_all (V := V) hc (ns.filter fun n => !n.isFunc) false
  have hFuncs := runs_functions (runFunctions_relabel (V := V) hc (ns.filter Node.isFunc)
    fun n hn => (List.mem_filter.mp hn).2)
  rw [recastAll_keepingNames, ← filter_relabelAll hTop] at hStmts
  rw [← filter_relabelAll Node.isFunc_relabel] at hFuncs
  refine (runs_items hAny hStmts hFuncs).imp ?_
  rintro _ _ ⟨a, b, a', b', rfl, rfl, hCode, hParts⟩
  have hSetup : V.Code setup setup := rfl
  exact (hSetup.append hCode).append hParts.code

end

theorem reads_lower_relabel (V : Reading g.keepingNames) (settings : Settings) (table : ScopeTable)
    (root : Node) :
    Reads g V.Code (lower settings table root).1
        (lower settings (table.relabel g) (root.relabel g)).1 ∧
      (lower settings (table.relabel g) (root.relabel g)).2 =
        (lower settings table root).2.map (Remark.relabel g) := by
  have hNames : (table.relabel g).functionNames = table.functionNames := List.map_map
  have hContexts : Context.Alike { settings := settings, table := table }
      { settings := settings, table := table.relabel g } := ⟨rfl, hNames, rfl, rfl⟩
  have hItems := runs_items_relabel (V := V) hContexts
  cases root with
  | absent => exact ⟨(hItems [] {}).1, congrArg Progress.remarks (hItems [] {}).2⟩
  | block span stmts synthetic =>
    exact ⟨(hItems stmts {}).1, congrArg Progress.remarks (hItems stmts {}).2⟩
  | _ => exact ⟨.error _, rfl⟩

theorem lower_relabel (settings : Settings) (table : ScopeTable) (root : Node) (g : Relabel) :
    SameResult outline (lower settings table root).1
      (lower settings (table.relabel g) (root.relabel g)).1 := by
  have hReads := (reads_lower_relabel (g := g) ⟨fun _ => "", fun _ => "", fun _ => rfl, fun _ => rfl⟩
    settings table root).1
  generalize (lower settings table root).1 = x at hReads ⊢
  generalize (lower settings (table.relabel g) (root.relabel g)).1 = y at hReads ⊢
  cases hReads with
  | error e => rfl
  | @ok a b h =>
    refine congrArg some ?_
    rw [← recode_blank, ← recode_blank]
    exact h.symm

end Lowering

end BatchCompiler
