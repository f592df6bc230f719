import BatchCompiler.Proofs.Script.Rendering
import BatchCompiler.Proofs.Script.Variables

/-!
# Variables are well scoped

On every line of a script the loops in front bind variables of their own: no two the same, none that a
header around the line binds, and each to a value that mentions only variables bound before it.
Rendering fails for lack of variables exactly when the indices read on some line and on the headers
around it are more than there are variables.
-/

namespace BatchCompiler.Target

def Stmt.isPlain : Stmt → Bool
  | .comment _ | .label _ | .jump _ | .setText .. | .setNumber .. | .call .. => true
  | _ => false

end BatchCompiler.Target

namespace BatchCompiler.Script

open Target Text
open Lowering (exists_of_bind_eq_ok)

variable {l : Layout} {s : Stmt}

structure BoundLine where
  loops : List Loop
  body : List Part

namespace BoundLine

def letters (l : BoundLine) : List Char :=
  l.loops.map Loop.letter

def text (l : BoundLine) : String :=
  resolve (String.join (l.loops.map Loop.text) ++ drafted l.body)

structure IsScoped (taken : List Char) (s : Stmt) (l : BoundLine) : Prop where
  distinct : (taken ++ l.letters).Nodup
  earlier : ∀ before x after, l.loops = before ++ x :: after →
    ∀ c ∈ lettersIn x.value, c ∈ before.map Loop.letter
  spelled : ItemsAs l.loops (headItems s) l.body
  once : (mentions l.loops ++ lettersIn l.body).Perm l.letters

end BoundLine

def indented (ending : String) (depth : Nat) (text : String) : String :=
  spaces (4 * depth) ++ text ++ ending

mutual

/-- The text is that of the code, in the scope of headers that bind the variables in `taken`. -/
inductive Scoped (ending : String) : List Char → Nat → List Stmt → String → Prop where
  | nil (taken : List Char) (depth : Nat) : Scoped ending taken depth [] ""
  | raw {taken : List Char} {depth : Nat} {rest : List Stmt} {more : String} (t : String)
    (hRest : Scoped ending taken depth rest more) :
    Scoped ending taken depth (.raw t :: rest) (indented ending depth t ++ more)
  | line {taken : List Char} {depth : Nat} {rest : List Stmt} {more : String} {s : Stmt} {l : BoundLine}
    (hPlain : s.isPlain = true) (hLine : l.IsScoped taken s)
    (hRest : Scoped ending taken depth rest more) :
    Scoped ending taken depth (s :: rest) (indented ending depth l.text ++ more)
  | whenTrue {taken : List Char} {depth : Nat} {rest : List Stmt} {more : String} {c : Comparison}
    {body : List Stmt} {inner : String} {l : BoundLine} (hLine : l.IsScoped taken (.whenTrue c body))
    (hBody : ScopedBody ending (taken ++ l.letters) (depth + 1) body inner)
    (hRest : Scoped ending taken depth rest more) :
    Scoped ending taken depth (.whenTrue c body :: rest)
      (indented ending depth l.text ++ inner ++ indented ending depth ")" ++ more)
  | choose {taken : List Char} {depth : Nat} {rest : List Stmt} {more : String} {c : Comparison}
    {thenBody elseBody : List Stmt} {thenText elseText : String} {l : BoundLine}
    (hLine : l.IsScoped taken (.choose c thenBody elseBody))
    (hThen : ScopedBody ending (taken ++ l.letters) (depth + 1) thenBody thenText)
    (hElse : ScopedBody ending (taken ++ l.letters) (depth + 1) elseBody elseText)
    (hRest : Scoped ending taken depth rest more) :
    Scoped ending taken depth (.choose c thenBody elseBody :: rest)
      (indented ending depth l.text ++ thenText ++ indented ending depth ") else (" ++ elseText ++
        indented ending depth ")" ++ more)

inductive ScopedBody (ending : String) : List Char → Nat → List Stmt → String → Prop where
  | empty (taken : List Char) (depth : Nat) :
    ScopedBody ending taken depth [] (indented ending depth "rem")
  | code {taken : List Char} {depth : Nat} {body : List Stmt} {text : String} (hBody : body ≠ [])
    (h : Scoped ending taken depth body text) : ScopedBody ending taken depth body text

end

def headCount (s : Stmt) : Nat :=
  itemsCount (headItems s)

mutual

/-- For each line of a statement, the variable indices that are read on it and on the headers around
it; `outer` counts those around the statement. -/
def loadsOfStmt (outer : Nat) : Stmt → List Nat
  | s@(.whenTrue _ body) => (outer + headCount s) :: loadsOf (outer + headCount s) body
  | s@(.choose _ thenBody elseBody) =>
    (outer + headCount s) ::
      (loadsOf (outer + headCount s) thenBody ++ loadsOf (outer + headCount s) elseBody)
  | s => [outer + headCount s]

def loadsOf (outer : Nat) : List Stmt → List Nat
  | [] => []
  | s :: rest => loadsOfStmt outer s ++ loadsOf outer rest

end

structure Heads (l : Layout) (s : Stmt) (line : BoundLine) : Prop where
  text_eq : (renderHead l s).1.text = indented l.lineEnding l.depth line.text
  bound_eq : (renderHead l s).2 = headCount s
  letters_eq : line.letters = (List.range' l.bound (headCount s)).map letterAt
  earlier : ∀ before x after, line.loops = before ++ x :: after →
    ∀ c ∈ lettersIn x.value, c ∈ before.map Loop.letter
  spelled : ItemsAs line.loops (headItems s) line.body
  once : (mentions line.loops ++ lettersIn line.body).Perm line.letters
  overflow_iff : (renderHead l s).1.overflow = true ↔ 0 < headCount s ∧ 52 < l.bound + headCount s

theorem exists_headDraft {V : List Part → Prop} (bound : Nat) (s : Stmt)
    (hV : ∀ q ∈ (headItems s).flatMap LineItem.places,
      ∀ final value, IndexAs final (.read q) value → V value) :
    ∃ loops body, Standing V bound loops (headDraft bound s).2 ∧
      (headDraft bound s).1 = drafted body ∧ loops.length = headCount s ∧
      (mentions loops ++ lettersIn body).Perm (loops.map Loop.letter) ∧
      ItemsAs loops (headItems s) body := by
  obtain ⟨loops, body, hStanding, hText, hLength, hUsed, hSpelled⟩ :=
    writes_draftItems (headItems s) hV bound [] _ (standing_nil V bound)
  rw [List.nil_append] at hStanding hSpelled
  rw [← headText_eq] at hStanding hText
  exact ⟨loops, body, hStanding, hText, hLength, hUsed, hSpelled loops (List.Subset.refl loops)⟩

theorem exists_heads (l : Layout) (s : Stmt) : ∃ line, Heads l s line := by
  obtain ⟨loops, body, hStanding, hText, hLength, hUsed, hSpelled⟩ :=
    exists_headDraft (V := fun _ => True) l.bound s fun _ _ _ _ _ => trivial
  refine ⟨⟨loops, body⟩, ?_, ?_, ?_, hStanding.earlier, hSpelled, hUsed, ?_⟩
  · have hHead : (renderHead l s).1.text = l.line (resolve
        (String.join (headDraft l.bound s).2.loops ++ (headDraft l.bound s).1)) := rfl
    rw [hHead]
    refine congrArg (fun t => l.line (resolve t)) (congrArg₂ (· ++ ·) ?_ hText)
    exact congrArg String.join hStanding.loops_eq
  · have hBound : (renderHead l s).2 = (loops.map Loop.text).length :=
      congrArg List.length hStanding.loops_eq
    rw [hBound, List.length_map]
    exact hLength
  · rw [BoundLine.letters, hStanding.letters_eq, hLength]
  · refine hStanding.overflow_iff.trans ?_
    rw [← List.length_pos_iff, hLength]

theorem take_append_letters {outer n : Nat} (h : outer + n ≤ 52) :
    forVariables.take outer ++ (List.range' outer n).map letterAt = forVariables.take (outer + n) := by
  induction n with
  | zero => simp
  | succ n ih =>
    have hLt : outer + n < forVariables.length := h
    have hLetter : letterAt (outer + n) = forVariables[outer + n] := by
      rw [letterAt, List.getD_eq_getElem?_getD, List.getElem?_eq_getElem hLt, Option.getD_some]
    rw [List.range'_concat, List.map_append, ← List.append_assoc, ih (by omega), Nat.one_mul,
      ← Nat.add_assoc, List.take_succ_eq_append_getElem hLt, List.map_singleton, hLetter]

variable {line : BoundLine}

theorem Heads.isScoped (h : Heads l s line) (hBound : l.bound + headCount s ≤ 52) :
    line.IsScoped (forVariables.take l.bound) s := by
  refine ⟨?_, h.earlier, h.spelled, h.once⟩
  have hNodup : forVariables.Nodup := by decide
  rw [h.letters_eq, take_append_letters hBound]
  exact hNodup.sublist (List.take_sublist _ _)

theorem Heads.taken_eq (h : Heads l s line) (hBound : l.bound + headCount s ≤ 52) :
    forVariables.take l.bound ++ line.letters =
      forVariables.take (l.inner (renderHead l s).2).bound := by
  rw [h.letters_eq, take_append_letters hBound, Layout.inner, h.bound_eq]

theorem Heads.le_of_overflow (h : Heads l s line) (hBound : l.bound ≤ 52)
    (hOverflow : (renderHead l s).1.overflow = false) : l.bound + headCount s ≤ 52 := by
  by_contra hMore
  have hTrue := h.overflow_iff.mpr ⟨by omega, by omega⟩
  rw [hOverflow] at hTrue
  cases hTrue

theorem Heads.bound_inner_le (h : Heads l s line) (hBound : l.bound + headCount s ≤ 52) :
    (l.inner (renderHead l s).2).bound ≤ 52 := by
  rw [Layout.inner, h.bound_eq]
  exact hBound

theorem Heads.inner_eq (h : Heads l s line) :
    (l.inner (renderHead l s).2).bound = l.bound + headCount s := by
  rw [Layout.inner, h.bound_eq]

theorem overflow_eq_false {a b : Rendered} (h : (a ++ b).overflow = false) :
    a.overflow = false ∧ b.overflow = false :=
  Bool.or_eq_false_iff.mp h

theorem scopedBody_of_renderBody {body : List Stmt} {r : Rendered}
    (hBody : ∀ r, renderStmts l body = .ok r → r.overflow = false →
      Scoped l.lineEnding (forVariables.take l.bound) l.depth body r.text)
    (h : renderBody l body = .ok r) (hOverflow : r.overflow = false) :
    ScopedBody l.lineEnding (forVariables.take l.bound) l.depth body r.text := by
  cases body with
  | nil =>
    cases h
    exact .empty _ _
  | cons s rest => exact .code (List.cons_ne_nil _ _) (hBody r h hOverflow)

mutual

theorem scoped_of_renderStmt (l : Layout) (hBound : l.bound ≤ 52) : (s : Stmt) → (r : Rendered) →
    renderStmt l s = .ok r → r.overflow = false → ∀ rest more,
      Scoped l.lineEnding (forVariables.take l.bound) l.depth rest more →
      Scoped l.lineEnding (forVariables.take l.bound) l.depth (s :: rest) (r.text ++ more)
  | .absent, _, h => by cases h
  | .raw t, _, h => by
    cases h
    exact fun _ rest more hRest => .raw t hRest
  | .whenTrue c body, r, h => by
    rw [renderStmt_whenTrue] at h
    obtain ⟨bodyText, hBody, h⟩ := exists_of_bind_eq_ok h
    cases h
    intro hOverflow rest more hRest
    obtain ⟨line, hLine⟩ := exists_heads l (.whenTrue c body)
    obtain ⟨hFront, -⟩ := overflow_eq_false hOverflow
    obtain ⟨hHead, hInner⟩ := overflow_eq_false hFront
    have hLe := hLine.le_of_overflow hBound hHead
    have hScopedBody := scopedBody_of_renderBody
      (scoped_of_renderStmts _ (hLine.bound_inner_le hLe) body) hBody hInner
    rw [← hLine.taken_eq hLe] at hScopedBody
    rw [text_append, text_append, hLine.text_eq]
    exact .whenTrue (hLine.isScoped hLe) hScopedBody hRest
  | .choose c thenBody elseBody, r, h => by
    rw [renderStmt_choose] at h
    obtain ⟨thenText, hThen, h⟩ := exists_of_bind_eq_ok h
    obtain ⟨elseText, hElse, h⟩ := exists_of_bind_eq_ok h
    cases h
    intro hOverflow rest more hRest
    obtain ⟨line, hLine⟩ := exists_heads l (.choose c thenBody elseBody)
    obtain ⟨hFront, -⟩ := overflow_eq_false hOverflow
    obtain ⟨hFront, hElseOverflow⟩ := overflow_eq_false hFront
    obtain ⟨hFront, -⟩ := overflow_eq_false hFront
    obtain ⟨hHead, hThenOverflow⟩ := overflow_eq_false hFront
    have hLe := hLine.le_of_overflow hBound hHead
    have hInner := hLine.bound_inner_le hLe
    have hScopedThen := scopedBody_of_renderBody (scoped_of_renderStmts _ hInner thenBody) hThen
      hThenOverflow
    have hScopedElse := scopedBody_of_renderBody (scoped_of_renderStmts _ hInner elseBody) hElse
      hElseOverflow
    rw [← hLine.taken_eq hLe] at hScopedThen hScopedElse
    rw [text_append, text_append, text_append, text_append, hLine.text_eq]
    exact .choose (hLine.isScoped hLe) hScopedThen hScopedElse hRest
  | .comment t, _, h | .label t, _, h | .jump t, _, h | .setText _ t, _, h | .setNumber _ t, _, h
  | .call _ t, _, h => by
    cases h
    intro hOverflow rest more hRest
    obtain ⟨line, hLine⟩ := exists_heads l _
    rw [hLine.text_eq]
    exact .line rfl (hLine.isScoped (hLine.le_of_overflow hBound hOverflow)) hRest

theorem scoped_of_renderStmts (l : Layout) (hBound : l.bound ≤ 52) : (code : List Stmt) →
    (r : Rendered) → renderStmts l code = .ok r → r.overflow = false →
      Scoped l.lineEnding (forVariables.take l.bound) l.depth code r.text
  | [], _, h => by
    cases h
    exact fun _ => .nil _ _
  | s :: rest, r, h => by
    rw [renderStmts] at h
    obtain ⟨first, hFirst, h⟩ := exists_of_bind_eq_ok h
    obtain ⟨others, hOthers, h⟩ := exists_of_bind_eq_ok h
    cases h
    intro hOverflow
    obtain ⟨hFirstOverflow, hOthersOverflow⟩ := overflow_eq_false hOverflow
    exact scoped_of_renderStmt l hBound s first hFirst hFirstOverflow rest others.text
      (scoped_of_renderStmts l hBound rest others hOthers hOthersOverflow)

end

theorem overflow_plain (l : Layout) (t : String) : (l.plain t).overflow = false := rfl

theorem overflow_of_renderBody {body : List Stmt} {r : Rendered}
    (hBody : ∀ r, renderStmts l body = .ok r →
      (r.overflow = true ↔ ∃ n ∈ loadsOf l.bound body, 52 < n)) (h : renderBody l body = .ok r) :
    r.overflow = true ↔ ∃ n ∈ loadsOf l.bound body, 52 < n := by
  cases body with
  | nil =>
    cases h
    simp [loadsOf, overflow_plain]
  | cons s rest => exact hBody r h

theorem Heads.overflow_or_iff (h : Heads l s line) (hBound : l.bound ≤ 52) {overflow : Bool}
    {loads : List Nat}
    (hInner : l.bound + headCount s ≤ 52 → (overflow = true ↔ ∃ n ∈ loads, 52 < n)) :
    ((renderHead l s).1.overflow || overflow) = true ↔
      ∃ n ∈ (l.bound + headCount s) :: loads, 52 < n := by
  rw [Bool.or_eq_true, h.overflow_iff, List.exists_mem_cons_iff]
  by_cases hLe : l.bound + headCount s ≤ 52
  · rw [hInner hLe]
    constructor
    · rintro (⟨_, hMore⟩ | hLoads)
      · omega
      · exact .inr hLoads
    · rintro (hMore | hLoads)
      · omega
      · exact .inr hLoads
  · constructor
    · intro _
      exact .inl (by omega)
    · intro _
      exact .inl ⟨by omega, by omega⟩

theorem overflow_renderHead_iff (hBound : l.bound ≤ 52) (s : Stmt) :
    (renderHead l s).1.overflow = true ↔ ∃ n ∈ [l.bound + headCount s], 52 < n := by
  obtain ⟨line, hLine⟩ := exists_heads l s
  rw [hLine.overflow_iff]
  simp only [List.mem_singleton, exists_eq_left]
  omega

mutual

theorem overflow_of_renderStmt (l : Layout) (hBound : l.bound ≤ 52) : (s : Stmt) → (r : Rendered) →
    renderStmt l s = .ok r → (r.overflow = true ↔ ∃ n ∈ loadsOfStmt l.bound s, 52 < n)
  | .absent, _, h => by cases h
  | .raw t, _, h => by
    cases h
    have hCount : headCount (.raw t) = 0 := rfl
    simp only [overflow_plain, loadsOfStmt, hCount, List.mem_singleton, exists_eq_left,
      Bool.false_eq_true, false_iff]
    omega
  | .whenTrue c body, r, h => by
    rw [renderStmt_whenTrue] at h
    obtain ⟨bodyText, hBody, h⟩ := exists_of_bind_eq_ok h
    cases h
    obtain ⟨line, hLine⟩ := exists_heads l (.whenTrue c body)
    rw [overflow_append, overflow_append, overflow_plain, Bool.or_false, loadsOfStmt]
    refine hLine.overflow_or_iff hBound fun hLe => ?_
    rw [← hLine.inner_eq]
    exact overflow_of_renderBody
      (overflow_of_renderStmts _ (hLine.bound_inner_le hLe) body) hBody
  | .choose c thenBody elseBody, r, h => by
    rw [renderStmt_choose] at h
    obtain ⟨thenText, hThen, h⟩ := exists_of_bind_eq_ok h
    obtain ⟨elseText, hElse, h⟩ := exists_of_bind_eq_ok h
    cases h
    obtain ⟨line, hLine⟩ := exists_heads l (.choose c thenBody elseBody)
    rw [overflow_append, overflow_append, overflow_append, overflow_append, overflow_plain,
      overflow_plain, Bool.or_false, Bool.or_false, Bool.or_assoc, loadsOfStmt]
    refine hLine.overflow_or_iff hBound fun hLe => ?_
    have hInner := hLine.bound_inner_le hLe
    have hThenLoads := overflow_of_renderBody (overflow_of_renderStmts _ hInner thenBody) hThen
    have hElseLoads := overflow_of_renderBody (overflow_of_renderStmts _ hInner elseBody) hElse
    rw [Bool.or_eq_true, hThenLoads, hElseLoads, hLine.inner_eq]
    simp only [List.mem_append, or_and_right, exists_or]
  | .comment t, _, h | .label t, _, h | .jump t, _, h | .setText _ t, _, h | .setNumber _ t, _, h
  | .call _ t, _, h => by
    cases h
    exact overflow_renderHead_iff hBound _

theorem overflow_of_renderStmts (l : Layout) (hBound : l.bound ≤ 52) : (code : List Stmt) →
    (r : Rendered) → renderStmts l code = .ok r →
      (r.overflow = true ↔ ∃ n ∈ loadsOf l.bound code, 52 < n)
  | [], _, h => by
    cases h
    simp [loadsOf]
  | s :: rest, r, h => by
    rw [renderStmts] at h
    obtain ⟨first, hFirst, h⟩ := exists_of_bind_eq_ok h
    obtain ⟨others, hOthers, h⟩ := exists_of_bind_eq_ok h
    cases h
    rw [overflow_append, Bool.or_eq_true, overflow_of_renderStmt l hBound s first hFirst,
      overflow_of_renderStmts l hBound rest others hOthers]
    simp only [loadsOf, List.mem_append, or_and_right, exists_or]

end

/-- A program with no statement missing is rendered unless it lacks variables, which it does exactly
when some line and the headers around it read more than 52 variable indices, and every script is well
scoped. -/
theorem render_scoped (ending : String) {p : Program} (h : arePresent p = true) :
    (render ending p = .error .tooManyIndices ↔ ∃ n ∈ loadsOf 0 p, 52 < n) ∧
      ((∀ n ∈ loadsOf 0 p, n ≤ 52) →
        ∃ script, render ending p = .ok script ∧ Scoped ending [] 0 p script) := by
  obtain ⟨r, hr⟩ := renders_of_arePresent p h { lineEnding := ending }
  have hLoads := overflow_of_renderStmts { lineEnding := ending } (Nat.zero_le 52) p r hr
  have hScoped := scoped_of_renderStmts { lineEnding := ending } (Nat.zero_le 52) p r hr
  rw [render_eq hr, ← hLoads]
  cases hOverflow : r.overflow with
  | true =>
    refine ⟨by simp, fun hEnough => ?_⟩
    obtain ⟨n, hn, hMore⟩ := hLoads.mp hOverflow
    have hLe := hEnough n hn
    omega
  | false => exact ⟨by simp, fun _ => ⟨r.text, rfl, hScoped hOverflow⟩⟩

def nestedReads : Program :=
  let index : Index := .read (.item (.name "i") (.read (.name "j")))
  [.whenTrue ⟨.eq, [.read (.item (.name "a") (.read (.name "k")))], [.text "1"]⟩
    [.setText (.item (.name "b") index) [.read (.item (.name "a") index)]]]

theorem render_scoped_nestedReads : arePresent nestedReads = true ∧ loadsOf 0 nestedReads = [1, 4] ∧
    ∃ script, render "\n" nestedReads = .ok script ∧ Scoped "\n" [] 0 nestedReads script := by
  have hLoads : loadsOf 0 nestedReads = [1, 4] := by decide
  refine ⟨by decide, hLoads, (render_scoped "\n" (p := nestedReads) (by decide)).2 ?_⟩
  rw [hLoads]
  decide

end BatchCompiler.Script
