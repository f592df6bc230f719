import BatchCompiler.Proofs.Meaning.Numbered
import BatchCompiler.Proofs.Script.Heads

/-!
# The rows of a program

A rendered program, cut into lines again, has the lines of its statements in order, and every
statement starts at its row.
-/

namespace BatchCompiler.Script

open Target Text

variable {bound : Nat} {body : List Stmt} {ending : String}

variable {text script : String} {lines : List Line} {s : Stmt} {line tail : List Char} {p : Program}

def closeLine : Line := ")".toList

def elseLine : Line := ") else (".toList

def remLine : Line := "rem".toList

def innerBound (bound : Nat) (s : Stmt) : Nat :=
  bound + (headDraft bound s).2.loops.length

mutual

def linesOfStmt (bound : Nat) : Stmt → List Line
  | .whenTrue c body =>
    let inner := innerBound bound (.whenTrue c body)
    headLine bound (.whenTrue c body) ::
      ((if body.isEmpty then [remLine] else linesOf inner body) ++ [closeLine])
  | .choose c thenBody elseBody =>
    let inner := innerBound bound (.choose c thenBody elseBody)
    headLine bound (.choose c thenBody elseBody) ::
      ((if thenBody.isEmpty then [remLine] else linesOf inner thenBody) ++ elseLine ::
        ((if elseBody.isEmpty then [remLine] else linesOf inner elseBody) ++ [closeLine]))
  | s => [headLine bound s]

def linesOf (bound : Nat) : List Stmt → List Line
  | [] => []
  | s :: rest => linesOfStmt bound s ++ linesOf bound rest

end

def bodyLines (bound : Nat) (body : List Stmt) : List Line :=
  if body.isEmpty then [remLine] else linesOf bound body

theorem linesOfStmt_whenTrue (bound : Nat) (c : Comparison) (body : List Stmt) :
    linesOfStmt bound (.whenTrue c body) = headLine bound (.whenTrue c body) ::
      (bodyLines (innerBound bound (.whenTrue c body)) body ++ [closeLine]) := by
  rw [linesOfStmt]
  rfl

theorem linesOfStmt_choose (bound : Nat) (c : Comparison) (thenBody elseBody : List Stmt) :
    linesOfStmt bound (.choose c thenBody elseBody) =
      headLine bound (.choose c thenBody elseBody) ::
        (bodyLines (innerBound bound (.choose c thenBody elseBody)) thenBody ++ elseLine ::
          (bodyLines (innerBound bound (.choose c thenBody elseBody)) elseBody ++ [closeLine])) := by
  rw [linesOfStmt]
  rfl

theorem one_le_height (s : Stmt) : 1 ≤ s.height := by
  cases s <;> simp only [Stmt.height] <;> omega

theorem max_height_cons (s : Stmt) (rest : List Stmt) :
    max 1 (height (s :: rest)) = height (s :: rest) := by
  have hOne := one_le_height s
  rw [height]
  omega

theorem length_bodyLines (h : (linesOf bound body).length = height body) :
    (bodyLines bound body).length = max 1 (height body) := by
  cases body with
  | nil => rfl
  | cons s rest =>
    rw [max_height_cons]
    exact h

mutual

theorem length_linesOfStmt (bound : Nat) : (s : Stmt) → (linesOfStmt bound s).length = s.height
  | .whenTrue c body => by
    have hBody := length_bodyLines (length_linesOf (innerBound bound (.whenTrue c body)) body)
    rw [linesOfStmt_whenTrue, Stmt.height, List.length_cons, List.length_append, hBody]
    rfl
  | .choose c thenBody elseBody => by
    let inner := innerBound bound (.choose c thenBody elseBody)
    have hThen := length_bodyLines (length_linesOf inner thenBody)
    have hElse := length_bodyLines (length_linesOf inner elseBody)
    rw [linesOfStmt_choose, Stmt.height, List.length_cons, List.length_append, List.length_cons,
      List.length_append, hThen, hElse, List.length_singleton]
    omega
  | .absent | .raw _ | .comment _ | .label _ | .jump _ | .setText .. | .setNumber .. | .call .. => rfl

theorem length_linesOf (bound : Nat) : (code : List Stmt) → (linesOf bound code).length = height code
  | [] => rfl
  | s :: rest => by
    rw [linesOf, height, List.length_append, length_linesOfStmt bound s, length_linesOf bound rest]

end

inductive Wrote (ending : String) : String → List Line → Prop where
  | nil : Wrote ending "" []
  | cons (indent : Nat) (line : Line) {text : String} {lines : List Line}
    (h : Wrote ending text lines) :
    Wrote ending (spaces indent ++ String.ofList line ++ ending ++ text) (line :: lines)

theorem Wrote.append {text' : String} {lines' : List Line} (h : Wrote ending text lines)
    (h' : Wrote ending text' lines') : Wrote ending (text ++ text') (lines ++ lines') := by
  induction h with
  | nil => rwa [String.empty_append]
  | cons indent line _ ih =>
    rw [String.append_assoc]
    exact .cons indent line ih

theorem wrote_line (l : Layout) (line : Line) :
    Wrote l.lineEnding (l.line (String.ofList line)) [line] := by
  have hNil : Wrote l.lineEnding "" [] := .nil
  have hLine := Wrote.cons (4 * l.depth) line hNil
  rwa [String.append_empty] at hLine

theorem wrote_head (l : Layout) (hRaw : ∀ t, s ≠ .raw t) :
    Wrote l.lineEnding (renderHead l s).1.text [headLine l.bound s] := by
  have hText : (renderHead l s).1.text = l.line (String.ofList (headLine l.bound s)) := by
    cases s with
    | raw t => exact absurd rfl (hRaw t)
    | _ =>
      rw [headLine, String.ofList_toList]
      · rfl
      · exact nofun
  rw [hText]
  exact wrote_line l _

theorem text_append (a b : Rendered) : (a ++ b).text = a.text ++ b.text := rfl

theorem overflow_append (a b : Rendered) : (a ++ b).overflow = (a.overflow || b.overflow) := rfl

def renderBody (l : Layout) (body : List Stmt) : Except RenderError Rendered :=
  if body.isEmpty then pure (l.plain "rem") else renderStmts l body

theorem renderStmt_whenTrue (l : Layout) (c : Comparison) (body : List Stmt) :
    renderStmt l (.whenTrue c body) = (do
      let bodyText ← renderBody (l.inner (renderHead l (.whenTrue c body)).2) body
      pure ((renderHead l (.whenTrue c body)).1 ++ bodyText ++ l.plain ")")) := by
  rw [renderStmt]
  cases body <;> rfl

theorem renderStmt_choose (l : Layout) (c : Comparison) (thenBody elseBody : List Stmt) :
    renderStmt l (.choose c thenBody elseBody) = (do
      let inner := l.inner (renderHead l (.choose c thenBody elseBody)).2
      let thenText ← renderBody inner thenBody
      let elseText ← renderBody inner elseBody
      pure ((renderHead l (.choose c thenBody elseBody)).1 ++ thenText ++ l.plain ") else (" ++
        elseText ++ l.plain ")")) := by
  rw [renderStmt]
  cases thenBody <;> cases elseBody <;> rfl

theorem wrote_renderBody {l : Layout} {r : Rendered}
    (hBody : ∀ r, renderStmts l body = .ok r → Wrote l.lineEnding r.text (linesOf l.bound body))
    (h : renderBody l body = .ok r) : Wrote l.lineEnding r.text (bodyLines l.bound body) := by
  cases body with
  | nil =>
    cases h
    exact wrote_line l remLine
  | cons s rest => exact hBody r h

section

open Lowering (exists_of_bind_eq_ok)

mutual

theorem wrote_renderStmt (l : Layout) : (s : Stmt) → (r : Rendered) → renderStmt l s = .ok r →
    Wrote l.lineEnding r.text (linesOfStmt l.bound s)
  | .absent, _, h => by cases h
  | .raw t, _, h => by
    cases h
    have hLine := wrote_line l t.toList
    rwa [String.ofList_toList] at hLine
  | .whenTrue c body, r, h => by
    rw [renderStmt_whenTrue] at h
    obtain ⟨bodyText, hBody, h⟩ := exists_of_bind_eq_ok h
    cases h
    have hBodyLines := wrote_renderBody (wrote_renderStmts _ body) hBody
    have hHead := wrote_head l (s := .whenTrue c body) nofun
    exact (hHead.append hBodyLines).append (wrote_line l closeLine)
  | .choose c thenBody elseBody, r, h => by
    rw [renderStmt_choose] at h
    obtain ⟨thenText, hThen, h⟩ := exists_of_bind_eq_ok h
    obtain ⟨elseText, hElse, h⟩ := exists_of_bind_eq_ok h
    cases h
    have hThenLines := wrote_renderBody (wrote_renderStmts _ thenBody) hThen
    have hElseLines := wrote_renderBody (wrote_renderStmts _ elseBody) hElse
    have hHead := wrote_head l (s := .choose c thenBody elseBody) nofun
    have hAll := (((hHead.append hThenLines).append (wrote_line l elseLine)).append hElseLines).append
      (wrote_line l closeLine)
    simp only [List.append_assoc, List.cons_append, List.nil_append] at hAll
    exact hAll
  | .comment t, _, h | .label t, _, h | .jump t, _, h | .setText _ t, _, h | .setNumber _ t, _, h
  | .call _ t, _, h => by
    cases h
    exact wrote_head l nofun

theorem wrote_renderStmts (l : Layout) : (code : List Stmt) → (r : Rendered) →
    renderStmts l code = .ok r → Wrote l.lineEnding r.text (linesOf l.bound code)
  | [], _, h => by
    cases h
    exact .nil
  | s :: rest, _, h => by
    rw [renderStmts] at h
    obtain ⟨first, hFirst, h⟩ := exists_of_bind_eq_ok h
    obtain ⟨others, hOthers, h⟩ := exists_of_bind_eq_ok h
    cases h
    exact (wrote_renderStmt l s first hFirst).append (wrote_renderStmts l rest others hOthers)

end

end

/-- A line that indenting and ending it does not hide. -/
def Tidy (line : Line) : Prop :=
  line.head? ≠ some ' ' ∧ ∀ c ∈ line, c ∉ lineBreaks

theorem tidy_headLine (h : s.Clean) : Tidy (headLine bound s) :=
  ⟨(reads_headLine _ h).start, (reads_headLine _ h).whole⟩

theorem tidy_closeLine : Tidy closeLine := ⟨by decide, by decide⟩

theorem tidy_elseLine : Tidy elseLine := ⟨by decide, by decide⟩

theorem tidy_remLine : Tidy remLine := ⟨by decide, by decide⟩

theorem tidy_bodyLines (h : ∀ line ∈ linesOf bound body, Tidy line) :
    ∀ line ∈ bodyLines bound body, Tidy line := by
  cases body with
  | nil => exact List.forall_mem_cons.mpr ⟨tidy_remLine, nofun⟩
  | cons s rest => exact h

mutual

theorem tidy_linesOfStmt (bound : Nat) : (s : Stmt) → s.Clean → ∀ line ∈ linesOfStmt bound s, Tidy line
  | .whenTrue c body, h => by
    rw [linesOfStmt_whenTrue]
    refine List.forall_mem_cons.mpr ⟨tidy_headLine h, List.forall_mem_append.mpr ⟨?_, ?_⟩⟩
    · exact tidy_bodyLines (tidy_linesOf _ body h.body)
    · exact List.forall_mem_cons.mpr ⟨tidy_closeLine, nofun⟩
  | .choose c thenBody elseBody, h => by
    rw [linesOfStmt_choose]
    refine List.forall_mem_cons.mpr ⟨tidy_headLine h, List.forall_mem_append.mpr ⟨?_, ?_⟩⟩
    · exact tidy_bodyLines (tidy_linesOf _ thenBody h.thenBody)
    · refine List.forall_mem_cons.mpr ⟨tidy_elseLine, List.forall_mem_append.mpr ⟨?_, ?_⟩⟩
      · exact tidy_bodyLines (tidy_linesOf _ elseBody h.elseBody)
      · exact List.forall_mem_cons.mpr ⟨tidy_closeLine, nofun⟩
  | .absent, h | .raw _, h | .comment _, h | .label _, h | .jump _, h | .setText .., h
  | .setNumber .., h | .call .., h => List.forall_mem_cons.mpr ⟨tidy_headLine h, nofun⟩

theorem tidy_linesOf (bound : Nat) : (code : List Stmt) → Clean code → ∀ line ∈ linesOf bound code,
    Tidy line
  | [], _ => nofun
  | s :: rest, h =>
    List.forall_mem_append.mpr ⟨tidy_linesOfStmt bound s h.head, tidy_linesOf bound rest h.tail⟩

end

theorem splitFrom_append {sep : Char} {cs : List Char} (h : sep ∉ cs) (piece rest : List Char) :
    splitFrom sep piece (cs ++ sep :: rest) = (piece.reverse ++ cs) :: splitFrom sep [] rest := by
  induction cs generalizing piece with
  | nil => simp [splitFrom]
  | cons c cs ih =>
    have hc : (c == sep) = false := by
      rw [beq_eq_false_iff_ne]
      rintro rfl
      exact h List.mem_cons_self
    rw [List.cons_append, splitFrom, hc, if_neg (by decide),
      ih (fun hMem => h (List.mem_cons_of_mem c hMem))]
    simp

theorem dropReturn_cons {c : Char} (h : c ≠ '\r') (cs : List Char) :
    dropReturn (c :: cs) = c :: dropReturn cs := by
  rw [dropReturn]
  rintro rfl
  exact fun _ => h rfl

theorem dropReturn_append (h : '\r' ∉ line) (hTail : tail = [] ∨ tail = ['\r']) :
    dropReturn (line ++ tail) = line := by
  induction line with
  | nil => rcases hTail with rfl | rfl <;> rfl
  | cons c cs ih =>
    have hc : c ≠ '\r' := by
      rintro rfl
      exact h List.mem_cons_self
    rw [List.cons_append, dropReturn_cons hc, ih fun hMem => h (List.mem_cons_of_mem c hMem)]

theorem trimLine_spaces (h : Tidy line) (hTail : tail = [] ∨ tail = ['\r']) (indent : Nat) :
    trimLine (List.replicate indent ' ' ++ (line ++ tail)) = line := by
  have hSpaces : ∀ c ∈ List.replicate indent ' ', (c == ' ') = true := by
    intro c hc
    rw [(List.mem_replicate.mp hc).2]
    rfl
  have hStart : (line ++ tail).dropWhile (· == ' ') = line ++ tail := by
    cases line with
    | nil => rcases hTail with rfl | rfl <;> rfl
    | cons c cs =>
      have hc : (c == ' ') = false := by
        rw [beq_eq_false_iff_ne]
        rintro rfl
        exact h.1 rfl
      rw [List.cons_append, List.dropWhile_cons, hc]
      rfl
  have hReturn : '\r' ∉ line := fun hMem => h.2 '\r' hMem (by decide)
  rw [trimLine, List.dropWhile_append_of_pos hSpaces, hStart, dropReturn_append hReturn hTail]

theorem lines_of_wrote (hEnding : ending = "\n" ∨ ending = "\r\n") (h : Wrote ending text lines)
    (hLines : ∀ line ∈ lines, Tidy line) :
    (splitFrom '\n' [] text.toList).map trimLine = lines ++ [[]] := by
  induction h with
  | nil => rfl
  | @cons indent line text lines h ih =>
    obtain ⟨hLine, hRest⟩ := List.forall_mem_cons.mp hLines
    have hNewline : '\n' ∉ List.replicate indent ' ' ++ line := by
      intro hMem
      rcases List.mem_append.mp hMem with hMem | hMem
      · cases (List.mem_replicate.mp hMem).2
      · exact hLine.2 _ hMem (by decide)
    have hText : ∃ tail, (tail = [] ∨ tail = ['\r']) ∧
        (spaces indent ++ String.ofList line ++ ending ++ text).toList =
          (List.replicate indent ' ' ++ line ++ tail) ++ '\n' :: text.toList := by
      rcases hEnding with rfl | rfl
      · exact ⟨[], .inl rfl, by simp [spaces]⟩
      · exact ⟨['\r'], .inr rfl, by simp [spaces]⟩
    obtain ⟨tail, hTail, hText⟩ := hText
    have hPiece : '\n' ∉ List.replicate indent ' ' ++ line ++ tail := by
      intro hMem
      rcases List.mem_append.mp hMem with hMem | hMem
      · exact hNewline hMem
      · rcases hTail with rfl | rfl
        · cases hMem
        · cases List.mem_singleton.mp hMem
    rw [hText, splitFrom_append hPiece, List.map_cons, ih hRest, List.reverse_nil, List.nil_append,
      List.append_assoc, trimLine_spaces hLine hTail]
    rfl

theorem wrote_of_render (h : render ending p = .ok script) : Wrote ending script (linesOf 0 p) := by
  obtain ⟨r, hr, h⟩ := Lowering.exists_of_bind_eq_ok h
  split at h
  · cases h
  · cases h
    exact wrote_renderStmts { lineEnding := ending } p r hr

theorem rowsOf_of_render (hEnding : ending = "\n" ∨ ending = "\r\n") (hClean : Clean p)
    (h : render ending p = .ok script) : rowsOf script = rowsFrom 0 (linesOf 0 p ++ [[]]) := by
  rw [rowsOf, lines_of_wrote hEnding (wrote_of_render h) (tidy_linesOf 0 p hClean)]

end BatchCompiler.Script
