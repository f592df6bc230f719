/-!
# Expansion of a line

What becomes of the characters of a line before it runs. Two percent signs become one; then a caret
outside quotes goes and leaves the character behind it as it is; then, in a line with an exclamation
mark, carets go everywhere. A character carries a tag that tells where it comes from and that no
step looks at.
-/

namespace BatchCompiler.Script

variable {τ : Type} {inside expanded after : Bool}

variable {line u v : List (Char × τ)}

def joinPercents : List (Char × τ) → List (Char × τ)
  | a :: b :: rest =>
    if a.1 = '%' ∧ b.1 = '%' then b :: joinPercents rest else a :: joinPercents (b :: rest)
  | line => line

/-- Drops the carets outside quotes; `turn` tells what a quote does to being inside them. -/
def dropCarets (turn : Bool → Bool) : Bool → List (Char × τ) → List (Char × τ)
  | inside, a :: b :: rest =>
    if a.1 = '^' ∧ inside = false then b :: dropCarets turn inside rest
    else a :: dropCarets turn (if a.1 = '"' then turn inside else inside) (b :: rest)
  | _, line => line

/-- What is left of the rest of a line, inside or outside quotes, if the line is expanded or not. -/
def expandFrom (expanded inside : Bool) (line : List (Char × τ)) : List (Char × τ) :=
  let line := dropCarets not inside (joinPercents line)
  if expanded then dropCarets id false line else line

def expandLine (line : List (Char × τ)) : List (Char × τ) :=
  let line := dropCarets not false (joinPercents line)
  if line.any (·.1 == '!') then dropCarets id false line else line

theorem joinPercents_sublist (line : List (Char × τ)) : (joinPercents line).Sublist line := by
  fun_induction joinPercents line with
  | case1 a b rest hBoth ih => exact (ih.cons_cons b).cons a
  | case2 a b rest hBoth ih => exact ih.cons_cons a
  | case3 => exact .refl _

theorem dropCarets_sublist (turn : Bool → Bool) (inside : Bool) (line : List (Char × τ)) :
    (dropCarets turn inside line).Sublist line := by
  fun_induction dropCarets turn inside line with
  | case1 inside a b rest hCaret ih => exact (ih.cons_cons b).cons a
  | case2 inside a b rest hCaret ih => exact ih.cons_cons a
  | case3 => exact .refl _

theorem expandFrom_sublist (expanded inside : Bool) (line : List (Char × τ)) :
    (expandFrom expanded inside line).Sublist line := by
  have hOnce := (dropCarets_sublist not inside _).trans (joinPercents_sublist line)
  unfold expandFrom
  dsimp only
  split
  · exact (dropCarets_sublist id false _).trans hOnce
  · exact hOnce

theorem any_joinPercents (line : List (Char × τ)) :
    (joinPercents line).any (·.1 == '!') = line.any (·.1 == '!') := by
  fun_induction joinPercents line with
  | case1 a b rest hBoth ih => simp [List.any_cons, ih, hBoth.1]
  | case2 a b rest hBoth ih => rw [List.any_cons, ih, List.any_cons (a := a)]
  | case3 => rfl

theorem any_dropCarets (turn : Bool → Bool) (inside : Bool) (line : List (Char × τ)) :
    (dropCarets turn inside line).any (·.1 == '!') = line.any (·.1 == '!') := by
  fun_induction dropCarets turn inside line with
  | case1 inside a b rest hCaret ih => simp [List.any_cons, ih, hCaret.1]
  | case2 inside a b rest hCaret ih => rw [List.any_cons, ih, List.any_cons (a := a)]
  | case3 => rfl

theorem expandLine_eq (line : List (Char × τ)) :
    expandLine line = expandFrom (line.any (·.1 == '!')) false line := by
  rw [expandLine, expandFrom, any_dropCarets, any_joinPercents]

/-- Whatever follows, what stands first becomes the same. -/
def Yields (f g : List (Char × τ) → List (Char × τ)) (u v : List (Char × τ)) : Prop :=
  ∀ rest, f (u ++ rest) = v ++ g rest

theorem yields_nil {f : List (Char × τ) → List (Char × τ)} : Yields f f [] [] :=
  fun _ => rfl

theorem Yields.append {f g h : List (Char × τ) → List (Char × τ)} {w x : List (Char × τ)}
    (huv : Yields f g u v) (hwx : Yields g h w x) : Yields f h (u ++ w) (v ++ x) := by
  intro rest
  rw [List.append_assoc, huv, hwx, List.append_assoc]

abbrev Keeps (expanded inside : Bool) (u v : List (Char × τ)) : Prop :=
  Yields (expandFrom expanded inside) (expandFrom expanded inside) u v

section

variable {turn : Bool → Bool} {inside : Bool} {a b : Char × τ}

theorem yields_joinPercents_char (h : a.1 ≠ '%') : Yields joinPercents joinPercents [a] [a] := by
  intro rest
  cases rest with
  | nil => rfl
  | cons b rest => exact if_neg fun hBoth => h hBoth.1

theorem yields_joinPercents_self {u : List (Char × τ)} (h : ∀ a ∈ u, a.1 ≠ '%') :
    Yields joinPercents joinPercents u u := by
  induction u with
  | nil => exact yields_nil
  | cons a rest ih =>
    obtain ⟨ha, hRest⟩ := List.forall_mem_cons.mp h
    exact (yields_joinPercents_char ha).append (ih hRest)

theorem yields_joinPercents_pair (ha : a.1 = '%') (hb : b.1 = '%') :
    Yields joinPercents joinPercents [a, b] [b] :=
  fun _ => if_pos ⟨ha, hb⟩

theorem yields_joinPercents_lone (hb : b.1 ≠ '%') :
    Yields joinPercents joinPercents [a, b] [a, b] := by
  intro rest
  refine (if_neg fun hBoth => hb hBoth.2).trans ?_
  exact congrArg (a :: ·) (yields_joinPercents_char hb rest)

theorem yields_dropCarets_caret (ha : a.1 = '^') :
    Yields (dropCarets turn false) (dropCarets turn false) [a, b] [b] :=
  fun _ => if_pos ⟨ha, rfl⟩

theorem yields_dropCarets_char (turn : Bool → Bool) (inside : Bool)
    (h : a.1 ≠ '^' ∨ inside = true) :
    Yields (dropCarets turn inside)
      (dropCarets turn (if a.1 = '"' then turn inside else inside)) [a] [a] := by
  intro rest
  cases rest with
  | nil => rfl
  | cons b rest =>
    refine if_neg ?_
    rintro ⟨ha, hOutside⟩
    rcases h with h | h
    · exact h ha
    · cases hOutside.symm.trans h

theorem yields_dropCarets_other (hCaret : a.1 ≠ '^' ∨ inside = true) (hQuote : a.1 ≠ '"') :
    Yields (dropCarets turn inside) (dropCarets turn inside) [a] [a] := by
  have hChar := yields_dropCarets_char turn inside hCaret
  rwa [if_neg hQuote] at hChar

end

theorem yields_expandFrom {w x : List (Char × τ)}
    (hPercents : Yields joinPercents joinPercents u v)
    (hCarets : Yields (dropCarets not inside) (dropCarets not after) v w)
    (hExpanded : expanded = true → Yields (dropCarets id false) (dropCarets id false) w x)
    (hPlain : expanded = false → x = w) :
    Yields (expandFrom expanded inside) (expandFrom expanded after) u x := by
  intro rest
  unfold expandFrom
  rw [hPercents rest, hCarets (joinPercents rest)]
  cases expanded with
  | true => exact hExpanded rfl _
  | false =>
    rw [hPlain rfl]
    rfl

theorem mem_of_yields (h : Yields (expandFrom expanded inside) (expandFrom expanded after) u v)
    {a : Char × τ} (ha : a ∈ v) : a ∈ u := by
  have hAll : expandFrom expanded inside u = v ++ expandFrom expanded after [] := by
    rw [← h [], List.append_nil]
  have hMem : a ∈ expandFrom expanded inside u := by
    rw [hAll]
    exact List.mem_append_left _ ha
  exact (expandFrom_sublist expanded inside u).mem hMem

section

variable {expanded inside : Bool} {a b : Char × τ}

theorem yields_char (hPercent : a.1 ≠ '%') (hCaret : a.1 ≠ '^') :
    Yields (expandFrom expanded inside)
      (expandFrom expanded (if a.1 = '"' then !inside else inside)) [a] [a] := by
  have hLast : Yields (dropCarets id false) (dropCarets id false) [a] [a] := by
    have hChar := yields_dropCarets_char id false (.inl hCaret)
    rwa [id, ite_self] at hChar
  exact yields_expandFrom (yields_joinPercents_char hPercent)
    (yields_dropCarets_char not inside (.inl hCaret)) (fun _ => hLast) fun _ => rfl

theorem yields_other (hPercent : a.1 ≠ '%') (hCaret : a.1 ≠ '^') (hQuote : a.1 ≠ '"') :
    Keeps expanded inside [a] [a] := by
  have hChar : Yields (expandFrom expanded inside)
      (expandFrom expanded (if a.1 = '"' then !inside else inside)) [a] [a] :=
    yields_char hPercent hCaret
  rwa [if_neg hQuote] at hChar

theorem yields_percents (ha : a.1 = '%') (hb : b.1 = '%') :
    Keeps expanded inside [a, b] [b] := by
  have hCaret : b.1 ≠ '^' := by rw [hb]; decide
  have hQuote : b.1 ≠ '"' := by rw [hb]; decide
  exact yields_expandFrom (yields_joinPercents_pair ha hb)
    (yields_dropCarets_other (.inl hCaret) hQuote)
    (fun _ => yields_dropCarets_other (.inl hCaret) hQuote) fun _ => rfl

theorem yields_percent (ha : a.1 = '%') (hPercent : b.1 ≠ '%') (hCaret : b.1 ≠ '^')
    (hQuote : b.1 ≠ '"') :
    Keeps expanded inside [a, b] [a, b] := by
  have hFirst : a.1 ≠ '^' := by rw [ha]; decide
  have hFirstQuote : a.1 ≠ '"' := by rw [ha]; decide
  have hBoth : ∀ turn inside,
      Yields (dropCarets turn inside) (dropCarets turn inside) [a, b] [a, b] := fun turn inside =>
    (yields_dropCarets_other (.inl hFirst) hFirstQuote).append
      (yields_dropCarets_other (.inl hCaret) hQuote)
  exact yields_expandFrom (yields_joinPercents_lone hPercent) (hBoth _ _) (fun _ => hBoth _ _)
    fun _ => rfl

theorem yields_escaped (ha : a.1 = '^') (hPercent : b.1 ≠ '%') (hCaret : b.1 ≠ '^')
    (hQuote : b.1 ≠ '"') :
    Keeps expanded false [a, b] [b] := by
  have hFirst : a.1 ≠ '%' := by rw [ha]; decide
  exact yields_expandFrom (yields_joinPercents_self (by simp [hFirst, hPercent]))
    (yields_dropCarets_caret ha) (fun _ => yields_dropCarets_other (.inl hCaret) hQuote) fun _ => rfl

theorem yields_escaped_inside (ha : a.1 = '^') (hPercent : b.1 ≠ '%') (hQuote : b.1 ≠ '"') :
    Keeps true true [a, b] [b] := by
  have hFirst : a.1 ≠ '%' := by rw [ha]; decide
  have hFirstQuote : a.1 ≠ '"' := by rw [ha]; decide
  exact yields_expandFrom (yields_joinPercents_self (by simp [hFirst, hPercent]))
    ((yields_dropCarets_other (.inr rfl) hFirstQuote).append
      (yields_dropCarets_other (.inr rfl) hQuote))
    (fun _ => yields_dropCarets_caret ha) nofun

/-- Outside quotes in a line that is expanded, a caret has to be left for the second time. -/
theorem yields_escaped_twice {u : List (Char × τ)} (ha : a.1 = '^') (hu : ∀ x ∈ u, x.1 ≠ '%')
    (hOnce : Yields (dropCarets not false) (dropCarets not false) u [a, b]) :
    Keeps true false u [b] :=
  yields_expandFrom (yields_joinPercents_self hu) hOnce (fun _ => yields_dropCarets_caret ha) nofun

theorem yields_caret_outside (ha : a.1 = '^') (hb : b.1 = '^') :
    Keeps false false [a, b] [b] := by
  have hPercent : ∀ x ∈ [a, b], x.1 ≠ '%' := by simp [ha, hb]
  exact yields_expandFrom (yields_joinPercents_self hPercent) (yields_dropCarets_caret ha) nofun
    fun _ => rfl

theorem yields_caret_inside (ha : a.1 = '^') :
    Keeps false true [a] [a] := by
  have hPercent : a.1 ≠ '%' := by rw [ha]; decide
  have hQuote : a.1 ≠ '"' := by rw [ha]; decide
  exact yields_expandFrom (yields_joinPercents_char hPercent)
    (yields_dropCarets_other (.inr rfl) hQuote) nofun fun _ => rfl

end

section

variable {c : Char × τ}

theorem yields_joinPercents_before (hc : c.1 ≠ '%') (line : List (Char × τ)) :
    Yields joinPercents joinPercents (line ++ [c]) (joinPercents line ++ [c]) := by
  fun_induction joinPercents line with
  | case1 a b rest hBoth ih => exact (yields_joinPercents_pair hBoth.1 hBoth.2).append ih
  | case2 a b rest hBoth ih =>
    intro more
    exact (if_neg hBoth).trans (congrArg (a :: ·) (ih more))
  | case3 line hShort =>
    match line with
    | [] => exact yields_joinPercents_char hc
    | [a] => exact yields_joinPercents_lone hc
    | a :: b :: rest => exact (hShort a b rest rfl).elim

theorem exists_yields_dropCarets_before (turn : Bool → Bool) (inside : Bool) (hCaret : c.1 ≠ '^')
    (hQuote : c.1 ≠ '"') {line : List (Char × τ)} (hLine : ∀ a ∈ line, a.1 ≠ '"') :
    ∃ w, (∀ a ∈ w, a ∈ line) ∧
      Yields (dropCarets turn inside) (dropCarets turn inside) (line ++ [c]) (w ++ [c]) := by
  have hLast : ∀ inside, Yields (dropCarets turn inside) (dropCarets turn inside) [c] [c] :=
    fun _ => yields_dropCarets_other (.inl hCaret) hQuote
  have hKept : ∀ {a : Char × τ} {inside : Bool}, ¬ (a.1 = '^' ∧ inside = false) →
      a.1 ≠ '^' ∨ inside = true := by
    grind
  fun_induction dropCarets turn inside line with
  | case1 inside a b rest hBoth ih =>
    have hRest : ∀ x ∈ rest, x.1 ≠ '"' :=
      fun x hx => hLine x (List.mem_cons_of_mem _ (List.mem_cons_of_mem _ hx))
    obtain ⟨w, hSub, hw⟩ := ih hRest
    obtain ⟨ha, rfl⟩ := hBoth
    refine ⟨b :: w, fun x hx => ?_, (yields_dropCarets_caret ha).append hw⟩
    grind
  | case2 inside a b rest hBoth ih =>
    obtain ⟨ha, hRest⟩ := List.forall_mem_cons.mp hLine
    rw [if_neg ha] at ih
    obtain ⟨w, hSub, hw⟩ := ih hRest
    refine ⟨a :: w, fun x hx => ?_, (yields_dropCarets_other (hKept hBoth) ha).append hw⟩
    grind
  | case3 inside line hShort =>
    match line with
    | [] => exact ⟨[], nofun, hLast inside⟩
    | [a] =>
      by_cases hBoth : a.1 = '^' ∧ inside = false
      · -- The caret at the end takes the separating character, which stays all the same.
        obtain ⟨ha, rfl⟩ := hBoth
        exact ⟨[], nofun, yields_dropCarets_caret ha⟩
      · have ha := hLine a List.mem_cons_self
        exact ⟨[a], fun _ hx => hx, (yields_dropCarets_other (hKept hBoth) ha).append (hLast inside)⟩
    | a :: b :: rest => exact (hShort a b rest rfl).elim

/-- A character that means nothing parts what stands before it from what follows. -/
theorem exists_yields_before (expanded inside : Bool) (hPercent : c.1 ≠ '%') (hCaret : c.1 ≠ '^')
    (hQuote : c.1 ≠ '"') {line : List (Char × τ)} (hLine : ∀ a ∈ line, a.1 ≠ '"') :
    ∃ x, Keeps expanded inside (line ++ [c]) x := by
  have hJoined : ∀ a ∈ joinPercents line, a.1 ≠ '"' :=
    fun a ha => hLine a ((joinPercents_sublist line).mem ha)
  obtain ⟨w, hw, hCarets⟩ := exists_yields_dropCarets_before not inside hCaret hQuote hJoined
  obtain ⟨x, _, hLast⟩ := exists_yields_dropCarets_before id false hCaret hQuote
    fun a ha => hJoined a (hw a ha)
  have hPercents := yields_joinPercents_before hPercent line
  cases expanded with
  | true => exact ⟨_, yields_expandFrom hPercents hCarets (fun _ => hLast) nofun⟩
  | false => exact ⟨_, yields_expandFrom hPercents hCarets nofun fun _ => rfl⟩

end

end BatchCompiler.Script
