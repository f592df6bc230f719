import BatchCompiler.Proofs.Meaning.Numbered

/-!
# The statements inside a program

All statements of a program with their rows, however deep they are nested. What follows a label
outside an else part has no row in common with it.
-/

namespace BatchCompiler.Target

variable {row lo hi : Nat} {code : List Stmt} {x : Numbered}

mutual

def Stmt.parts (row : Nat) : Stmt → List Numbered
  | .whenTrue c body => ⟨row, .whenTrue c body⟩ :: parts (row + 1) body
  | .choose c thenBody elseBody =>
    ⟨row, .choose c thenBody elseBody⟩ ::
      (parts (row + 1) thenBody ++ parts (elseRow row thenBody) elseBody)
  | s => [⟨row, s⟩]

def parts (row : Nat) : List Stmt → List Numbered
  | [] => []
  | s :: rest => s.parts row ++ parts (row + s.height) rest

end

theorem parts_append (row : Nat) (a b : List Stmt) :
    parts row (a ++ b) = parts row a ++ parts (row + height a) b := by
  induction a generalizing row with
  | nil => rfl
  | cons s rest ih => simp only [List.cons_append, parts, ih, height, List.append_assoc, Nat.add_assoc]

theorem Stmt.mem_parts_self (row : Nat) (s : Stmt) : ⟨row, s⟩ ∈ s.parts row := by
  cases s <;> exact List.mem_cons_self

theorem numbered_subset_parts (row : Nat) (code : List Stmt) : numbered row code ⊆ parts row code := by
  induction code generalizing row with
  | nil => exact List.nil_subset _
  | cons s rest ih =>
    exact List.cons_subset.mpr ⟨List.mem_append_left _ (s.mem_parts_self row),
      List.Subset.trans (ih (row + s.height)) (List.subset_append_right _ _)⟩

theorem Stmt.height_pos (s : Stmt) : 0 < s.height := by
  cases s <;> simp [Stmt.height]

def Numbered.Within (lo hi : Nat) (x : Numbered) : Prop :=
  lo ≤ x.row ∧ x.row + x.stmt.height ≤ hi

theorem Numbered.Within.mono {lo' hi' : Nat} (h : x.Within lo hi) (hlo : lo' ≤ lo) (hhi : hi ≤ hi') :
    x.Within lo' hi' :=
  ⟨Nat.le_trans hlo h.1, Nat.le_trans h.2 hhi⟩

theorem Numbered.Within.lt (h : x.Within lo hi) : x.row < hi := by
  have hPos := x.stmt.height_pos
  obtain ⟨_, hEnd⟩ := h
  omega

mutual

theorem Stmt.within_of_mem_parts {row : Nat} {x : Numbered} : (s : Stmt) → x ∈ s.parts row →
    x.Within row (row + s.height)
  | .whenTrue c body, hx => by
    rcases List.mem_cons.mp hx with rfl | hx
    · exact ⟨Nat.le_refl _, Nat.le_refl _⟩
    · refine (within_of_mem_parts body hx).mono (by omega) ?_
      rw [Stmt.height]
      omega
  | .choose c thenBody elseBody, hx => by
    rcases List.mem_cons.mp hx with rfl | hx
    · exact ⟨Nat.le_refl _, Nat.le_refl _⟩
    rcases List.mem_append.mp hx with hx | hx
    · refine (within_of_mem_parts thenBody hx).mono (by omega) ?_
      rw [Stmt.height]
      omega
    · refine (within_of_mem_parts elseBody hx).mono ?_ ?_
      · rw [elseRow]
        omega
      · rw [Stmt.height, elseRow]
        omega
  | .absent, hx | .raw _, hx | .comment _, hx | .label _, hx | .jump _, hx | .setText .., hx
  | .setNumber .., hx | .call .., hx => by
    rw [List.mem_singleton.mp hx]
    exact ⟨Nat.le_refl _, Nat.le_refl _⟩

theorem within_of_mem_parts {row : Nat} {x : Numbered} : (code : List Stmt) → x ∈ parts row code →
    x.Within row (row + height code)
  | [], hx => nomatch hx
  | s :: rest, hx => by
    rcases List.mem_append.mp hx with hx | hx
    · refine (Stmt.within_of_mem_parts s hx).mono (Nat.le_refl _) ?_
      rw [height]
      omega
    · refine (within_of_mem_parts rest hx).mono (by omega) ?_
      rw [height]
      omega

end

mutual

theorem Stmt.after?_subset {spill : Bool} {label : String} {row : Nat} : (s : Stmt) →
    {code : List Numbered} → s.after? spill label row = some code → code ⊆ s.parts row
  | .label name, code, h => by
    simp only [Stmt.after?] at h
    split at h
    · cases h
      exact List.nil_subset _
    · cases h
  | .whenTrue c body, _, h => List.Subset.trans (after?_subset body h) (List.subset_cons_self _ _)
  | .choose c thenBody elseBody, code, h => by
    refine List.Subset.trans ?_ (List.subset_cons_self _ _)
    simp only [Stmt.after?] at h
    split at h
    · next inner hInner =>
      cases h
      refine List.append_subset.mpr
        ⟨List.Subset.trans (after?_subset thenBody hInner) (List.subset_append_left _ _), ?_⟩
      split
      · exact List.Subset.trans (numbered_subset_parts _ _) (List.subset_append_right _ _)
      · exact List.nil_subset _
    · exact List.Subset.trans (after?_subset elseBody h) (List.subset_append_right _ _)
  | .absent, _, h | .raw _, _, h | .comment _, _, h | .jump _, _, h | .setText .., _, h
  | .setNumber .., _, h | .call .., _, h => nomatch h

theorem after?_subset {spill : Bool} {label : String} {row : Nat} : (code : List Stmt) →
    {rest : List Numbered} → after? spill label row code = some rest → rest ⊆ parts row code
  | [], _, h => nomatch h
  | s :: rest, _, h => by
    rw [after?] at h
    split at h
    · next inner hInner =>
      cases h
      exact List.append_subset.mpr
        ⟨List.Subset.trans (Stmt.after?_subset s hInner) (List.subset_append_left _ _),
          List.Subset.trans (numbered_subset_parts _ _) (List.subset_append_right _ _)⟩
    · exact List.Subset.trans (after?_subset rest h) (List.subset_append_right _ _)

end

mutual

theorem Stmt.parts_subset_of_mem {row : Nat} {x : Numbered} : (s : Stmt) → x ∈ s.parts row →
    x.stmt.parts x.row ⊆ s.parts row
  | .whenTrue c body, hx => by
    rcases List.mem_cons.mp hx with rfl | hx
    · exact List.Subset.refl _
    · exact List.Subset.trans (parts_subset_of_mem body hx) (List.subset_cons_self _ _)
  | .choose c thenBody elseBody, hx => by
    rcases List.mem_cons.mp hx with rfl | hx
    · exact List.Subset.refl _
    refine List.Subset.trans ?_ (List.subset_cons_self _ _)
    rcases List.mem_append.mp hx with hx | hx
    · exact List.Subset.trans (parts_subset_of_mem thenBody hx) (List.subset_append_left _ _)
    · exact List.Subset.trans (parts_subset_of_mem elseBody hx) (List.subset_append_right _ _)
  | .absent, hx | .raw _, hx | .comment _, hx | .label _, hx | .jump _, hx | .setText .., hx
  | .setNumber .., hx | .call .., hx => by
    rw [List.mem_singleton.mp hx]
    exact List.Subset.refl _

theorem parts_subset_of_mem {row : Nat} {x : Numbered} : (code : List Stmt) → x ∈ parts row code →
    x.stmt.parts x.row ⊆ parts row code
  | [], hx => nomatch hx
  | s :: rest, hx => by
    rcases List.mem_append.mp hx with hx | hx
    · exact List.Subset.trans (Stmt.parts_subset_of_mem s hx) (List.subset_append_left _ _)
    · exact List.Subset.trans (parts_subset_of_mem rest hx) (List.subset_append_right _ _)

end

mutual

theorem Stmt.pairwise_parts (row : Nat) : (s : Stmt) →
    (s.parts row).Pairwise fun x y => x.row < y.row
  | .whenTrue c body =>
    List.pairwise_cons.mpr ⟨fun _ hy => (within_of_mem_parts body hy).1, pairwise_parts (row + 1) body⟩
  | .choose c thenBody elseBody => by
    refine List.pairwise_cons.mpr ⟨fun y hy => ?_, List.pairwise_append.mpr
      ⟨pairwise_parts (row + 1) thenBody, pairwise_parts _ elseBody, fun x hx y hy => ?_⟩⟩
    · rcases List.mem_append.mp hy with hy | hy
      · exact (within_of_mem_parts thenBody hy).1
      · have hRow := (within_of_mem_parts elseBody hy).1
        rw [elseRow] at hRow
        show row < y.row
        omega
    · have hx := (within_of_mem_parts thenBody hx).lt
      have hy := (within_of_mem_parts elseBody hy).1
      rw [elseRow] at hy
      omega
  | .absent | .raw _ | .comment _ | .label _ | .jump _ | .setText .. | .setNumber .. | .call .. =>
    List.pairwise_singleton _ _

theorem pairwise_parts (row : Nat) : (code : List Stmt) →
    (parts row code).Pairwise fun x y => x.row < y.row
  | [] => .nil
  | s :: rest => List.pairwise_append.mpr ⟨s.pairwise_parts row, pairwise_parts _ rest,
      fun _ hx _ hy => Nat.lt_of_lt_of_le (Stmt.within_of_mem_parts s hx).lt
        (within_of_mem_parts rest hy).1⟩

end

theorem eq_of_row_eq {y : Numbered} (hx : x ∈ parts row code) (hy : y ∈ parts row code)
    (h : x.row = y.row) : x = y := by
  have hPairwise := pairwise_parts row code
  generalize parts row code = ps at hx hy hPairwise
  induction ps with
  | nil => cases hx
  | cons z rest ih =>
    obtain ⟨hHead, hRest⟩ := List.pairwise_cons.mp hPairwise
    rcases List.mem_cons.mp hx with rfl | hxRest
    · rcases List.mem_cons.mp hy with rfl | hyRest
      · rfl
      · have := hHead y hyRest
        omega
    · rcases List.mem_cons.mp hy with rfl | hyRest
      · have := hHead x hxRest
        omega
      · exact ih hxRest hyRest hRest

theorem le_of_mem_numbered (hx : x ∈ numbered row code) : row ≤ x.row :=
  (within_of_mem_parts code (numbered_subset_parts row code hx)).1

theorem hasLabel_of_after? {label : String} {rest : List Numbered}
    (h : after? false label row code = some rest) : hasLabel label code = true := by
  rw [hasLabel, ← map_after?_false label row code, h]
  rfl

def Outside (lo hi : Nat) (code : List Numbered) : Prop :=
  ∀ x ∈ code, x.row < lo ∨ hi ≤ x.row

theorem outside_of_lt {code : List Numbered} (h : ∀ x ∈ code, x.row < lo) : Outside lo hi code :=
  fun x hx => .inl (h x hx)

theorem outside_of_le {code : List Numbered} (h : ∀ x ∈ code, hi ≤ x.row) : Outside lo hi code :=
  fun x hx => .inr (h x hx)

theorem outside_append {a b : List Numbered} (ha : Outside lo hi a) (hb : Outside lo hi b) :
    Outside lo hi (a ++ b) :=
  List.forall_mem_append.mpr ⟨ha, hb⟩

structure ElsePart (x : Numbered) (body : List Stmt) (lo hi : Nat) : Prop where
  stmt : ∃ c thenBody, x.stmt = .choose c thenBody body ∧ lo = elseRow x.row thenBody
  hi_eq : hi = lo + height body

theorem ElsePart.lt {body : List Stmt} (h : ElsePart x body lo hi) : x.row < lo := by
  obtain ⟨⟨c, thenBody, _, rfl⟩, _⟩ := h
  rw [elseRow]
  omega

theorem ElsePart.le {body : List Stmt} (h : ElsePart x body lo hi) :
    hi ≤ x.row + x.stmt.height := by
  obtain ⟨⟨c, thenBody, hx, rfl⟩, rfl⟩ := h
  rw [hx, Stmt.height, elseRow]
  omega

section

variable {x : Numbered} {body : List Stmt} {lo hi : Nat} (hElse : ElsePart x body lo hi)

include hElse

theorem ElsePart.outside {row' : Nat} (hx : x.Within row row') {rest : List Numbered}
    (h : Outside row row' rest) : Outside lo hi rest := by
  intro y hy
  have hLt := hElse.lt
  have hLe := hElse.le
  obtain ⟨hStart, hEnd⟩ := hx
  rcases h y hy with hRow | hRow
  · exact .inl (by omega)
  · exact .inr (by omega)

theorem ElsePart.outside_numbered {code : List Stmt} (hx : x ∈ parts row code) :
    Outside lo hi (numbered row code) := by
  induction code generalizing row with
  | nil => cases hx
  | cons s rest ih =>
    have hHead : row < lo := Nat.lt_of_le_of_lt (within_of_mem_parts _ hx).1 hElse.lt
    refine List.forall_mem_cons.mpr ⟨.inl hHead, ?_⟩
    rcases List.mem_append.mp hx with hx | hx
    · exact hElse.outside (Stmt.within_of_mem_parts s hx) (outside_of_le fun y hy => le_of_mem_numbered hy)
    · exact ih hx

end

mutual

theorem ElsePart.outside_of_stmtAfter {x : Numbered} {body : List Stmt} {lo hi : Nat}
    (hElse : ElsePart x body lo hi) {label : String} (hLabel : hasLabel label body = false)
    {row : Nat} : (s : Stmt) → x ∈ s.parts row → {code : List Numbered} →
    s.after? false label row = some code → Outside lo hi code
  | .whenTrue c inner, hx, code, h => by
    rcases List.mem_cons.mp hx with rfl | hx
    · obtain ⟨⟨_, _, hStmt, _⟩, _⟩ := hElse
      cases hStmt
    · exact hElse.outside_of_after? hLabel inner hx h
  | .choose c thenBody elseBody, hx, code, h => by
    have hRow : row + 1 + height thenBody ≤ elseRow row thenBody := by
      rw [elseRow]
      omega
    simp only [Stmt.after?] at h
    split at h
    · next inner hInner =>
      cases h
      rw [if_neg Bool.false_ne_true, List.append_nil]
      have hBefore : ∀ y ∈ inner, y.row < elseRow row thenBody := fun y hy =>
        Nat.lt_of_lt_of_le (within_of_mem_parts _ (after?_subset _ hInner hy)).lt hRow
      rcases List.mem_cons.mp hx with rfl | hx
      · obtain ⟨⟨_, _, hStmt, rfl⟩, _⟩ := hElse
        cases hStmt
        exact outside_of_lt hBefore
      rcases List.mem_append.mp hx with hx | hx
      · exact hElse.outside_of_after? hLabel thenBody hx hInner
      · exact hElse.outside (within_of_mem_parts _ hx) (outside_of_lt hBefore)
    · have hAfter : ∀ y ∈ code, elseRow row thenBody ≤ y.row := fun y hy =>
        (within_of_mem_parts _ (after?_subset _ h hy)).1
      rcases List.mem_cons.mp hx with rfl | hx
      · obtain ⟨⟨_, _, hStmt, rfl⟩, _⟩ := hElse
        cases hStmt
        rw [hasLabel_of_after? h] at hLabel
        cases hLabel
      rcases List.mem_append.mp hx with hx | hx
      · refine hElse.outside (within_of_mem_parts _ hx) (outside_of_le fun y hy => ?_)
        exact Nat.le_trans hRow (hAfter y hy)
      · exact hElse.outside_of_after? hLabel elseBody hx h
  | .label _, hx, _, h => by
    obtain ⟨⟨_, _, hStmt, _⟩, _⟩ := hElse
    rw [List.mem_singleton.mp hx] at hStmt
    cases hStmt
  | .absent, _, _, h | .raw _, _, _, h | .comment _, _, _, h | .jump _, _, _, h
  | .setText .., _, _, h | .setNumber .., _, _, h | .call .., _, _, h => nomatch h

theorem ElsePart.outside_of_after? {x : Numbered} {body : List Stmt} {lo hi : Nat}
    (hElse : ElsePart x body lo hi) {label : String} (hLabel : hasLabel label body = false)
    {row : Nat} : (code : List Stmt) → x ∈ parts row code → {rest : List Numbered} →
    after? false label row code = some rest → Outside lo hi rest
  | [], hx, _, _ => nomatch hx
  | s :: rest, hx, _, h => by
    rw [after?] at h
    split at h
    · next inner hInner =>
      cases h
      rcases List.mem_append.mp hx with hx | hx
      · refine outside_append (hElse.outside_of_stmtAfter hLabel s hx hInner) ?_
        exact hElse.outside (Stmt.within_of_mem_parts s hx)
          (outside_of_le fun y hy => le_of_mem_numbered hy)
      · refine outside_append ?_ (hElse.outside_numbered hx)
        exact hElse.outside (within_of_mem_parts rest hx) (outside_of_lt fun y hy =>
          (Stmt.within_of_mem_parts s (Stmt.after?_subset s hInner hy)).lt)
    · rcases List.mem_append.mp hx with hx | hx
      · exact hElse.outside (Stmt.within_of_mem_parts s hx)
          (outside_of_le fun y hy => (within_of_mem_parts rest (after?_subset rest h hy)).1)
      · exact hElse.outside_of_after? hLabel rest hx h

end

end BatchCompiler.Target
