import BatchCompiler.Proofs.Script.Rows

/-!
# Following a script

A reader of the rows of a program does what the program says by row, where a jump out of a then part
leads on into the else part: the row between them is met while no block is open.
-/

namespace BatchCompiler.Script

open Meaning Target Text

variable {line : Line} {bound d n : Nat} {body : List Stmt} {code : List Numbered} {s : Stmt}
  {more lines : List Line} {label : String}

theorem kindOf_closeLine : kindOf closeLine = .closing := by decide

theorem kindOf_elseLine : kindOf elseLine = .otherwise := by decide

theorem kindOf_remLine : kindOf remLine = .remark := by decide

theorem passBlock_cons (inner n : Nat) (line : Line) (rest : List Row) :
    passBlock inner (⟨n, line⟩ :: rest) =
      match kindOf line, inner with
      | .opening, inner => passBlock (inner + 1) rest
      | .closing, 0 => some (false, rest)
      | .closing, inner + 1 => passBlock inner rest
      | .otherwise, 0 => some (true, rest)
      | _, inner => passBlock inner rest := rfl

theorem passBlock_opening (h : kindOf line = .opening) (inner n : Nat) (rest : List Row) :
    passBlock inner (⟨n, line⟩ :: rest) = passBlock (inner + 1) rest := by
  rw [passBlock_cons]
  simp only [h]

theorem passBlock_close_succ (inner n : Nat) (rest : List Row) :
    passBlock (inner + 1) (⟨n, closeLine⟩ :: rest) = passBlock inner rest := by
  rw [passBlock_cons]
  simp only [kindOf_closeLine]

theorem passBlock_else_succ (inner n : Nat) (rest : List Row) :
    passBlock (inner + 1) (⟨n, elseLine⟩ :: rest) = passBlock (inner + 1) rest := by
  rw [passBlock_cons]
  simp only [kindOf_elseLine]

theorem passBlock_other (hOpening : kindOf line ≠ .opening) (hClosing : kindOf line ≠ .closing)
    (hElse : kindOf line ≠ .otherwise) (inner n : Nat) (rest : List Row) :
    passBlock inner (⟨n, line⟩ :: rest) = passBlock inner rest := by
  rw [passBlock_cons]
  split
  · next h => exact absurd h hOpening
  · next h => exact absurd h hClosing
  · next h => exact absurd h hClosing
  · next h => exact absurd h hElse
  · rfl

theorem passBlock_headLine (h : s.Clean) (hOpening : kindOfStmt s ≠ .opening) (bound inner n : Nat)
    (rest : List Row) : passBlock inner (⟨n, headLine bound s⟩ :: rest) = passBlock inner rest := by
  have hKind := (reads_headLine bound h).kind
  refine passBlock_other ?_ ?_ ?_ inner n rest
  · rwa [hKind]
  · rw [hKind]
    cases s <;> exact nofun
  · rw [hKind]
    cases s <;> exact nofun

theorem passBlock_bodyLines {inner : Nat}
    (h : passBlock inner (rowsFrom n (linesOf bound body ++ more)) =
      passBlock inner (rowsFrom (n + height body) more)) :
    passBlock inner (rowsFrom n (bodyLines bound body ++ more)) =
      passBlock inner (rowsFrom (n + max 1 (height body)) more) := by
  cases body with
  | nil =>
    have hRem := kindOf_remLine
    refine passBlock_other ?_ ?_ ?_ inner n _
    · rw [hRem]
      exact nofun
    · rw [hRem]
      exact nofun
    · rw [hRem]
      exact nofun
  | cons s rest =>
    rw [max_height_cons]
    exact h

mutual

theorem passBlock_linesOfStmt (bound inner n : Nat) (more : List Line) : (s : Stmt) → s.Clean →
    passBlock inner (rowsFrom n (linesOfStmt bound s ++ more)) =
      passBlock inner (rowsFrom (n + s.height) more)
  | .whenTrue c body, h => by
    have hKind := (reads_headLine bound h).kind
    have hBody := passBlock_bodyLines (passBlock_linesOf (innerBound bound (.whenTrue c body))
      (inner + 1) (n + 1) (closeLine :: more) body h.body)
    have hRow : n + 1 + max 1 (height body) + 1 = n + (Stmt.whenTrue c body).height := by
      rw [Stmt.height]
      omega
    simp only [linesOfStmt_whenTrue, List.cons_append, List.append_assoc, List.nil_append]
    rw [rowsFrom, passBlock_opening hKind, hBody, rowsFrom, passBlock_close_succ, hRow]
  | .choose c thenBody elseBody, h => by
    have hKind := (reads_headLine bound h).kind
    have hThen := fun rest => passBlock_bodyLines (passBlock_linesOf
      (innerBound bound (.choose c thenBody elseBody)) (inner + 1) (n + 1) rest thenBody h.thenBody)
    have hElse := fun n => passBlock_bodyLines (passBlock_linesOf
      (innerBound bound (.choose c thenBody elseBody)) (inner + 1) n (closeLine :: more) elseBody
      h.elseBody)
    have hRow : n + 1 + max 1 (height thenBody) + 1 + max 1 (height elseBody) + 1 =
        n + (Stmt.choose c thenBody elseBody).height := by
      rw [Stmt.height]
      omega
    simp only [linesOfStmt_choose, List.cons_append, List.append_assoc, List.nil_append]
    rw [rowsFrom, passBlock_opening hKind, hThen, rowsFrom, passBlock_else_succ, hElse, rowsFrom,
      passBlock_close_succ, hRow]
  | .absent, h | .raw _, h | .comment _, h | .label _, h | .jump _, h | .setText .., h
  | .setNumber .., h | .call .., h => passBlock_headLine h nofun bound inner n _

theorem passBlock_linesOf (bound inner n : Nat) (more : List Line) : (code : List Stmt) →
    Clean code → passBlock inner (rowsFrom n (linesOf bound code ++ more)) =
      passBlock inner (rowsFrom (n + height code) more)
  | [], _ => rfl
  | s :: rest, h => by
    rw [linesOf, List.append_assoc, passBlock_linesOfStmt bound inner n _ s h.head,
      passBlock_linesOf bound inner (n + s.height) more rest h.tail, height, Nat.add_assoc]

end

/-- A reader with so many blocks open, at this row and with these lines to come, has this code still
to run. The row in front of an else part is met either at the end of a then part, and passed over
with the else part, or after a jump. -/
inductive Follows : (depth row : Nat) → List Line → List Numbered → Prop where
  | done {d n : Nat} : Follows d n [[]] []
  | remark {d n : Nat} {lines : List Line} {code : List Numbered}
    (h : Follows d (n + 1) lines code) : Follows d n (remLine :: lines) code
  | stmt {d n bound : Nat} {s : Stmt} {lines : List Line} {code : List Numbered} (hs : s.Clean)
    (h : Follows d (n + s.height) lines code) :
    Follows d n (linesOfStmt bound s ++ lines) (⟨n, s⟩ :: code)
  | close {d n : Nat} {lines : List Line} {code : List Numbered}
    (h : Follows (d - 1) (n + 1) lines code) : Follows d n (closeLine :: lines) code
  | pass {d n bound : Nat} {body : List Stmt} {lines : List Line} {code : List Numbered}
    (hBody : Clean body) (h : Follows d (n + 1 + max 1 (height body) + 1) lines code) :
    Follows (d + 1) n (elseLine :: (bodyLines bound body ++ closeLine :: lines)) code
  | spill {n : Nat} {lines : List Line} {code : List Numbered} (h : Follows 0 (n + 1) lines code) :
    Follows 0 n (elseLine :: lines) code

theorem follows_linesOf {stmts : List Stmt} (hStmts : Clean stmts)
    (h : Follows d (n + height stmts) lines code) :
    Follows d n (linesOf bound stmts ++ lines) (numbered n stmts ++ code) := by
  induction stmts generalizing n with
  | nil => exact h
  | cons s rest ih =>
    rw [height, ← Nat.add_assoc] at h
    rw [linesOf, List.append_assoc, numbered, List.cons_append]
    exact .stmt hStmts.head (ih hStmts.tail h)

theorem follows_bodyLines (hBody : Clean body) (h : Follows d (n + max 1 (height body)) lines code) :
    Follows d n (bodyLines bound body ++ lines) (numbered n body ++ code) := by
  cases body with
  | nil => exact .remark h
  | cons s rest =>
    rw [max_height_cons] at h
    exact follows_linesOf hBody h

theorem afterRow?_cons {label : List Char} (h : line ≠ ':' :: label) (n : Nat) (rest : List Row) :
    afterRow? label (⟨n, line⟩ :: rest) = afterRow? label rest := by
  rw [afterRow?, if_neg h]

theorem kindOf_colon (name : List Char) : kindOf (':' :: name) = .label := by
  have hFirst : firstWord (':' :: name) ≠ "for".toList := by simp [firstWord]
  rw [kindOf, core_eq_self hFirst]
  rfl

theorem ne_colon_of_kind (h : kindOf line ≠ .label) (label : List Char) : line ≠ ':' :: label := by
  rintro rfl
  exact h (kindOf_colon label)

/-- How the search for a label among these lines ends, behind which `more` comes at row `next`. -/
def Found (label : String) (n : Nat) (lines : List Line) (next : Nat) (more : List Line) :
    Option (List Numbered) → Prop
  | some inner => ∃ m rest, afterRow? label.toList (rowsFrom n lines) = some (rowsFrom m rest) ∧
      ∀ code, Follows 0 next more code → Follows 0 m rest (inner ++ code)
  | none => afterRow? label.toList (rowsFrom n lines) = afterRow? label.toList (rowsFrom next more)

section

variable {label : String} {n next : Nat} {lines more : List Line} {found : Option (List Numbered)}

theorem Found.of_eq {n' : Nat} {lines' : List Line}
    (hEq : afterRow? label.toList (rowsFrom n lines) = afterRow? label.toList (rowsFrom n' lines'))
    (h : Found label n' lines' next more found) : Found label n lines next more found := by
  cases found with
  | some inner =>
    obtain ⟨m, rest, hRest, hFollows⟩ := h
    exact ⟨m, rest, hEq.trans hRest, hFollows⟩
  | none => exact hEq.trans h

theorem afterRow?_rowsFrom_cons {line : Line} (hLine : kindOf line ≠ .label) (lines : List Line) :
    afterRow? label.toList (rowsFrom n (line :: lines)) =
      afterRow? label.toList (rowsFrom (n + 1) lines) :=
  afterRow?_cons (ne_colon_of_kind hLine label.toList) n _

theorem Found.close (h : Found label n lines next (closeLine :: more) found) :
    Found label n lines (next + 1) more found := by
  have hClose : kindOf closeLine ≠ .label := by
    rw [kindOf_closeLine]
    exact nofun
  cases found with
  | some inner =>
    obtain ⟨m, rest, hRest, hFollows⟩ := h
    exact ⟨m, rest, hRest, fun code hCode => hFollows code (.close hCode)⟩
  | none => exact h.trans (afterRow?_rowsFrom_cons hClose more)

theorem Found.orElse {inner : List Numbered} (hBody : Clean body)
    (h : Found label n lines next (elseLine :: (bodyLines bound body ++ closeLine :: more))
      (some inner)) :
    Found label n lines (next + 1 + max 1 (height body) + 1) more
      (some (inner ++ numbered (next + 1) body)) := by
  obtain ⟨m, rest, hRest, hFollows⟩ := h
  refine ⟨m, rest, hRest, fun code hCode => ?_⟩
  rw [List.append_assoc]
  exact hFollows _ (.spill (follows_bodyLines hBody (.close hCode)))

theorem Found.bodyLines (h : Found label n (linesOf bound body ++ more) (n + height body) more
      (after? true label n body)) :
    Found label n (bodyLines bound body ++ more) (n + max 1 (height body)) more
      (after? true label n body) := by
  cases body with
  | nil =>
    have hRem : kindOf remLine ≠ .label := by
      rw [kindOf_remLine]
      exact nofun
    exact afterRow?_rowsFrom_cons hRem more
  | cons s rest =>
    rw [max_height_cons]
    exact h

end

theorem found_headLine (h : s.Clean) (hLabel : kindOfStmt s ≠ .label) :
    Found label n (headLine bound s :: more) (n + 1) more none := by
  refine afterRow?_rowsFrom_cons ?_ more
  rwa [(reads_headLine _ h).kind]

mutual

theorem found_linesOfStmt (label : String) (bound n : Nat) (more : List Line) : (s : Stmt) →
    s.Clean → Found label n (linesOfStmt bound s ++ more) (n + s.height) more (s.after? true label n)
  | .label name, h => by
    have hName : ∀ c ∈ name.toList, isNamePart c = true := h.words (.label name) List.mem_cons_self
    have hLines : linesOfStmt bound (.label name) ++ more = (':' :: name.toList) :: more := by
      rw [← headLine_label hName]
      rfl
    rw [hLines, Stmt.after?]
    split
    · next hEq =>
      subst hEq
      refine ⟨n + 1, more, ?_, fun code hCode => hCode⟩
      rw [rowsFrom, afterRow?, if_pos rfl]
    · next hne =>
      refine afterRow?_cons (fun hEq => hne ?_) n _
      exact String.toList_inj.mp (List.cons.inj hEq).2
  | .whenTrue c body, h => by
    have hKind : kindOf (headLine bound (.whenTrue c body)) ≠ .label := by
      rw [(reads_headLine _ h).kind]
      exact nofun
    have hRow : n + 1 + max 1 (height body) + 1 = n + (Stmt.whenTrue c body).height := by
      rw [Stmt.height]
      omega
    have hBody := (found_linesOf label (innerBound bound (.whenTrue c body)) (n + 1)
      (closeLine :: more) body h.body).bodyLines.close
    simp only [linesOfStmt_whenTrue, List.cons_append, List.append_assoc, List.nil_append]
    rw [hRow] at hBody
    exact hBody.of_eq (afterRow?_rowsFrom_cons hKind _)
  | .choose c thenBody elseBody, h => by
    let inner := innerBound bound (.choose c thenBody elseBody)
    have hKind : kindOf (headLine bound (.choose c thenBody elseBody)) ≠ .label := by
      rw [(reads_headLine _ h).kind]
      exact nofun
    have hElseKind : kindOf elseLine ≠ .label := by
      rw [kindOf_elseLine]
      exact nofun
    have hRow : n + 1 + max 1 (height thenBody) + 1 + max 1 (height elseBody) + 1 =
        n + (Stmt.choose c thenBody elseBody).height := by
      rw [Stmt.height]
      omega
    have hElseRow : n + 1 + max 1 (height thenBody) + 1 = elseRow n thenBody := by
      rw [elseRow]
      omega
    have hThen := (found_linesOf label inner (n + 1)
      (elseLine :: (bodyLines inner elseBody ++ closeLine :: more)) thenBody h.thenBody).bodyLines
    simp only [linesOfStmt_choose, List.cons_append, List.append_assoc, List.nil_append, Stmt.after?]
    refine Found.of_eq (afterRow?_rowsFrom_cons hKind _) ?_
    cases hSearch : after? true label (n + 1) thenBody with
    | some code =>
      rw [hSearch] at hThen
      have hFound := hThen.orElse h.elseBody
      rw [hRow, hElseRow] at hFound
      exact hFound
    | none =>
      rw [hSearch] at hThen
      have hElse := (found_linesOf label inner (elseRow n thenBody) (closeLine :: more) elseBody
        h.elseBody).bodyLines.close
      rw [← hElseRow, hRow, hElseRow] at hElse
      refine Found.of_eq (Eq.trans hThen (afterRow?_rowsFrom_cons hElseKind _)) ?_
      rw [hElseRow]
      exact hElse
  | .absent, h | .raw _, h | .comment _, h | .jump _, h | .setText .., h | .setNumber .., h
  | .call .., h => found_headLine h nofun

theorem found_linesOf (label : String) (bound n : Nat) (more : List Line) : (code : List Stmt) →
    Clean code → Found label n (linesOf bound code ++ more) (n + height code) more
      (after? true label n code)
  | [], _ => rfl
  | s :: rest, h => by
    have hFirst := found_linesOfStmt label bound n (linesOf bound rest ++ more) s h.head
    rw [linesOf, List.append_assoc, height, ← Nat.add_assoc, after?]
    cases hSearch : s.after? true label n with
    | some inner =>
      rw [hSearch] at hFirst
      obtain ⟨m, lines, hLines, hFollows⟩ := hFirst
      refine ⟨m, lines, hLines, fun code hCode => ?_⟩
      rw [List.append_assoc]
      exact hFollows _ (follows_linesOf h.tail hCode)
    | none =>
      rw [hSearch] at hFirst
      exact Found.of_eq hFirst (found_linesOf label bound (n + s.height) more rest h.tail)

end

theorem pass_close (hBody : Clean body) (depth : Nat) (more : List Line) :
    Reader.pass depth (rowsFrom n (bodyLines bound body ++ closeLine :: more)) =
      ⟨rowsFrom (n + max 1 (height body) + 1) more, depth⟩ := by
  have hPass := passBlock_bodyLines (passBlock_linesOf bound 0 n (closeLine :: more) body hBody)
  have hClose : ∀ m, passBlock 0 (rowsFrom m (closeLine :: more)) =
      some (false, rowsFrom (m + 1) more) := by
    intro m
    rw [rowsFrom, passBlock_cons]
    simp only [kindOf_closeLine]
  rw [hClose] at hPass
  rw [Reader.pass, hPass]

theorem pass_else (hBody : Clean body) (depth : Nat) (more : List Line) :
    Reader.pass depth (rowsFrom n (bodyLines bound body ++ elseLine :: more)) =
      ⟨rowsFrom (n + max 1 (height body) + 1) more, depth + 1⟩ := by
  have hPass := passBlock_bodyLines (passBlock_linesOf bound 0 n (elseLine :: more) body hBody)
  have hElse : ∀ m, passBlock 0 (rowsFrom m (elseLine :: more)) =
      some (true, rowsFrom (m + 1) more) := by
    intro m
    rw [rowsFrom, passBlock_cons]
    simp only [kindOf_elseLine]
  rw [hElse] at hPass
  rw [Reader.pass, hPass]

theorem turn_cons (script : List Row) (n : Nat) (line : Line) (rest : List Row) (depth : Nat) :
    Reader.turn script ⟨⟨n, line⟩ :: rest, depth⟩ =
      match kindOf line with
      | .remark | .label => .go ⟨rest, depth⟩
      | .jump target =>
        if target = "eof".toList then .stop
        else match afterRow? target script with
          | some rest => .go ⟨rest, 0⟩
          | none => .stop
      | .opening => .test ⟨n, line⟩ ⟨rest, depth + 1⟩ (Reader.pass depth rest)
      | .otherwise =>
        match depth with
        | 0 => .go ⟨rest, 0⟩
        | depth + 1 => .go (Reader.pass depth rest)
      | .closing => .go ⟨rest, depth - 1⟩
      | .command => .act ⟨n, line⟩ ⟨rest, depth⟩ := rfl

def Shows (x : Numbered) (row : Row) : Prop :=
  row.number = x.row ∧ ∃ bound, row.line = headLine bound x.stmt

theorem shows_headLine (n bound : Nat) (s : Stmt) : Shows ⟨n, s⟩ ⟨n, headLine bound s⟩ :=
  ⟨rfl, bound, rfl⟩

def Stands (code : List Numbered) (r : Reader) : Prop :=
  ∃ n lines, Follows r.depth n lines code ∧ r.rest = rowsFrom n lines

theorem Follows.stands (h : Follows d n lines code) : Stands code ⟨rowsFrom n lines, d⟩ :=
  ⟨n, lines, h, rfl⟩

section

variable {p : Program} {script : List Row} (hp : Clean p)
  (hScript : script = rowsFrom 0 (linesOf 0 p ++ [[]]))

variable {code : List Numbered} {d bound : Nat}

include hp hScript

theorem exists_afterRow? (h : after? true label 0 p = some code) :
    ∃ m rest, afterRow? label.toList script = some (rowsFrom m rest) ∧ Follows 0 m rest code := by
  have hFound := found_linesOf label 0 0 [[]] p hp
  rw [h] at hFound
  obtain ⟨m, rest, hRest, hFollows⟩ := hFound
  have hCode := hFollows [] .done
  rw [List.append_nil] at hCode
  exact ⟨m, rest, by rw [hScript, hRest], hCode⟩

theorem afterRow?_eq_none (h : after? true label 0 p = none) :
    afterRow? label.toList script = none := by
  have hFound := found_linesOf label 0 0 [[]] p hp
  rw [h] at hFound
  have hBlank : ([] : Line) ≠ ':' :: label.toList := nofun
  rw [hScript]
  exact Eq.trans hFound (afterRow?_cons hBlank _ _)

theorem answered_jump {target : String} (hs : (Stmt.jump target).Clean) :
    Answered Shows Shows Stands (Reader.turn script)
      ⟨rowsFrom n (linesOfStmt bound (.jump target) ++ lines), d⟩
      (moveNumbered true p (⟨n, .jump target⟩ :: code)) := by
  have hKind : kindOf (headLine bound (.jump target)) = .jump target.toList :=
    (reads_headLine _ hs).kind
  have hRows : rowsFrom n (linesOfStmt bound (.jump target) ++ lines) =
      ⟨n, headLine bound (.jump target)⟩ :: rowsFrom (n + 1) lines := rfl
  have hEof : target.toList = "eof".toList ↔ target = endOfFile := String.toList_inj
  simp only [moveNumbered, moveNumberedBy, hRows]
  split
  · next hEnd =>
    refine ⟨0, _, .zero, ?_⟩
    rw [turn_cons]
    simp only [hKind, if_pos (hEof.mpr hEnd)]
  · next hEnd =>
    cases hAfter : after? true target 0 p with
    | some code' =>
      obtain ⟨m, rest, hRest, hCode⟩ := exists_afterRow? hp hScript hAfter
      refine ⟨0, _, .one ?_, hCode.stands⟩
      rw [turn_cons]
      simp only [hKind, if_neg (mt hEof.mp hEnd), hRest]
    | none =>
      have hNone := afterRow?_eq_none hp hScript hAfter
      refine ⟨0, _, .zero, ?_⟩
      rw [turn_cons]
      simp only [hKind, if_neg (mt hEof.mp hEnd), hNone]

omit hp hScript in
theorem answered_silent
    (hKind : kindOf (headLine bound s) = .remark ∨ kindOf (headLine bound s) = .label)
    (h : Follows d (n + 1) lines code) :
    Answered Shows Shows Stands (Reader.turn script) ⟨rowsFrom n (headLine bound s :: lines), d⟩
      (.go code) := by
  refine ⟨0, _, .one ?_, h.stands⟩
  rw [rowsFrom, turn_cons]
  rcases hKind with hKind | hKind
  · simp only [hKind]
  · simp only [hKind]

omit hp hScript in
theorem answered_act (hKind : kindOf (headLine bound s) = .command)
    (h : Follows d (n + 1) lines code) :
    Answered Shows Shows Stands (Reader.turn script) ⟨rowsFrom n (headLine bound s :: lines), d⟩
      (.act ⟨n, s⟩ code) := by
  refine ⟨0, _, ⟨n, headLine bound s⟩, _, .zero, ?_, shows_headLine n bound _, h.stands⟩
  rw [rowsFrom, turn_cons]
  simp only [hKind]

omit hp hScript in
theorem answered_whenTrue {c : Comparison} (hs : (Stmt.whenTrue c body).Clean)
    (h : Follows d (n + (Stmt.whenTrue c body).height) lines code) :
    Answered Shows Shows Stands (Reader.turn script)
      ⟨rowsFrom n (linesOfStmt bound (.whenTrue c body) ++ lines), d⟩
      (.test ⟨n, .whenTrue c body⟩ (numbered (n + 1) body ++ code) code) := by
  have hKind : kindOf (headLine bound (.whenTrue c body)) = .opening := (reads_headLine _ hs).kind
  have hRow : n + (Stmt.whenTrue c body).height = n + 1 + max 1 (height body) + 1 := by
    rw [Stmt.height]
    omega
  rw [hRow] at h
  have hYes : Follows (d + 1) (n + 1)
      (bodyLines (innerBound bound (.whenTrue c body)) body ++ closeLine :: lines)
      (numbered (n + 1) body ++ code) := follows_bodyLines hs.body (.close h)
  refine ⟨0, _, ⟨n, headLine bound (.whenTrue c body)⟩, _, _, .zero, ?_, shows_headLine n bound _,
    hYes.stands, h.stands⟩
  simp only [linesOfStmt_whenTrue, List.cons_append, List.append_assoc, List.nil_append]
  rw [rowsFrom, turn_cons]
  simp only [hKind, pass_close hs.body]

omit hp hScript in
theorem answered_choose {c : Comparison} {thenBody elseBody : List Stmt}
    (hs : (Stmt.choose c thenBody elseBody).Clean)
    (h : Follows d (n + (Stmt.choose c thenBody elseBody).height) lines code) :
    Answered Shows Shows Stands (Reader.turn script)
      ⟨rowsFrom n (linesOfStmt bound (.choose c thenBody elseBody) ++ lines), d⟩
      (.test ⟨n, .choose c thenBody elseBody⟩ (numbered (n + 1) thenBody ++ code)
        (numbered (elseRow n thenBody) elseBody ++ code)) := by
  have hKind : kindOf (headLine bound (.choose c thenBody elseBody)) = .opening :=
    (reads_headLine _ hs).kind
  have hElseRow : elseRow n thenBody = n + 1 + max 1 (height thenBody) + 1 := by
    rw [elseRow]
    omega
  have hRow : n + (Stmt.choose c thenBody elseBody).height =
      n + 1 + max 1 (height thenBody) + 1 + max 1 (height elseBody) + 1 := by
    rw [Stmt.height]
    omega
  rw [hRow] at h
  rw [hElseRow]
  let inner := innerBound bound (.choose c thenBody elseBody)
  have hYes : Follows (d + 1) (n + 1)
      (bodyLines inner thenBody ++ elseLine :: (bodyLines inner elseBody ++ closeLine :: lines))
      (numbered (n + 1) thenBody ++ code) := follows_bodyLines hs.thenBody (.pass hs.elseBody h)
  have hNo : Follows (d + 1) (n + 1 + max 1 (height thenBody) + 1)
      (bodyLines inner elseBody ++ closeLine :: lines)
      (numbered (n + 1 + max 1 (height thenBody) + 1) elseBody ++ code) :=
    follows_bodyLines hs.elseBody (.close h)
  refine ⟨0, _, ⟨n, headLine bound (.choose c thenBody elseBody)⟩, _, _, .zero, ?_,
    shows_headLine n bound _, hYes.stands, hNo.stands⟩
  simp only [linesOfStmt_choose, List.cons_append, List.append_assoc, List.nil_append]
  rw [rowsFrom, turn_cons]
  simp only [hKind, pass_else hs.thenBody, inner]

/-- Every turn of the program is answered by a reader that stands where the program does. The
induction is on how it came to stand there. -/
theorem answered_of_follows (h : Follows d n lines code) :
    Answered Shows Shows Stands (Reader.turn script) ⟨rowsFrom n lines, d⟩
      (moveNumbered true p code) := by
  induction h with
  | @done d n =>
    have hBlank : Reader.turn script ⟨rowsFrom n [[]], d⟩ = .go ⟨[], d⟩ := rfl
    exact ⟨1, ⟨[], d⟩, .one hBlank, rfl⟩
  | remark _ ih =>
    refine ih.of_quietly (.one ?_)
    rw [rowsFrom, turn_cons]
    simp only [kindOf_remLine]
  | close _ ih =>
    refine ih.of_quietly (.one ?_)
    rw [rowsFrom, turn_cons]
    simp only [kindOf_closeLine]
  | pass hBody _ ih =>
    refine ih.of_quietly (.one ?_)
    rw [rowsFrom, turn_cons]
    simp only [kindOf_elseLine, pass_close hBody]
  | spill _ ih =>
    refine ih.of_quietly (.one ?_)
    rw [rowsFrom, turn_cons]
    simp only [kindOf_elseLine]
  | @stmt d n bound s lines code hs hRest _ =>
    have hKind := (reads_headLine bound hs).kind
    cases s with
    | jump target => exact answered_jump hp hScript hs
    | absent | comment => exact answered_silent (.inl hKind) hRest
    | label => exact answered_silent (.inr hKind) hRest
    | raw | setText | setNumber | call => exact answered_act hKind hRest
    | whenTrue c body => exact answered_whenTrue hs hRest
    | choose c thenBody elseBody => exact answered_choose hs hRest

theorem sameDeeds_of_follows (h : Follows d n lines code) :
    SameDeeds Shows Shows (moveNumbered true p) (Reader.turn script) code ⟨rowsFrom n lines, d⟩ :=
      by
  refine sameDeeds_of_answered (R := Stands) ?_ h.stands
  rintro code r ⟨m, rest, hFollows, hRest⟩
  have hReader : r = ⟨rowsFrom m rest, r.depth⟩ := by rw [← hRest]
  rw [hReader]
  exact .inr (answered_of_follows hp hScript hFollows)

end

end BatchCompiler.Script
