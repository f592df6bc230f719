import BatchCompiler.Proofs.Script.Scoping

/-!
# Literals that look like variables

A literal percent sign is written twice, so together with a letter after it it looks like a variable
of a loop. The characters of a line are traced back to the code of the line, to its literals and to
the variables of its loops. Whatever looks like a variable is one or belongs to literals, and it
belongs to literals exactly if there is a percent sign and then the letter in them.
-/

namespace BatchCompiler.Script

open Target Text

variable {c d v : Char} {ps : List Part} {t : String} {s : Stmt}

inductive Origin where
  | code
  | literal
  | variable
deriving DecidableEq

inductive Sign where
  | code (c : Char)
  | literal (inQuotes : Bool) (c : Char)
  | variable (letter : Char)

namespace Sign

def draft : Sign → List Char
  | .code c => [c]
  | .literal true c => quotedChar c
  | .literal false c => unquotedChar c
  | .variable letter => ['%', '%', letter]

def origin : Sign → Origin
  | .code _ => .code
  | .literal .. => .literal
  | .variable _ => .variable

def traced (expanded : Bool) (x : Sign) : List (Char × Origin) :=
  (resolveWith expanded x.draft).map fun c => (c, x.origin)

def char? : Sign → Option Char
  | .literal _ c => some c
  | _ => none

def isLetter : Sign → Bool
  | .code c | .literal _ c => decide (c ∈ forVariables)
  | .variable _ => false

end Sign

/-- What came before a sign: a percent sign of the code or of a literal, or anything else. -/
inductive Ending where
  | calm
  | code
  | literal
deriving DecidableEq

def Sign.ending : Sign → Ending
  | .code c => if c = '%' then .code else .calm
  | .literal _ c => if c = '%' then .literal else .calm
  | .variable _ => .calm

/-- Behind such an ending the signs lead to the other one, and in them a letter comes after a percent
sign in literals only. -/
def Runs : Ending → List Sign → Ending → Prop
  | e, [], e' => e = e'
  | e, x :: rest, e' =>
    (x.isLetter = true → e = .calm ∨ e = .literal ∧ x.char?.isSome = true) ∧ Runs x.ending rest e'

def finished (signs : List Sign) : List (Char × Origin) :=
  signs.flatMap (Sign.traced (expands (signs.flatMap Sign.draft)))

/-- What a reader takes for a variable. -/
def occurrence (v : Char) (a b c : Origin) : List (Char × Origin) :=
  [('%', a), ('%', b), (v, c)]

theorem map_fst_finished (signs : List Sign) :
    (finished signs).map Prod.fst =
      (resolve (String.ofList (signs.flatMap Sign.draft))).toList := by
  rw [toList_resolve, String.toList_ofList, finished, List.map_flatMap, resolveWith,
    List.flatMap_assoc]
  refine List.flatMap_congr fun x _ => ?_
  rw [Sign.traced, List.map_map]
  exact List.map_id _

/-! ## Occurrences -/

/-- Characters that neither are marks nor come from resolving one. -/
def isSteady (c : Char) : Bool :=
  decide (c ∉ '^' :: '!' :: marks)

theorem isSteady_of_mem_forVariables : ∀ v ∈ forVariables, isSteady v = true := by
  decide

theorem eq_of_mem_resolveChar {expanded : Bool} (hc : isSteady c = true)
    (h : c ∈ resolveChar expanded d) : d = c := by
  unfold resolveChar at h
  simp only [isSteady, decide_eq_true_eq, List.mem_cons, not_or] at hc
  grind

theorem eq_of_mem_draft {q : Bool} (hc : isSteady c = true) (h : c ∈ (Sign.literal q d).draft) :
    d = c := by
  simp only [isSteady, decide_eq_true_eq, List.mem_cons, not_or, marks] at hc
  cases q with
  | true =>
    simp only [Sign.draft, quotedChar] at h
    grind
  | false =>
    simp only [Sign.draft, unquotedChar] at h
    grind

theorem eq_of_mem_resolved {expanded : Bool} (hc : isSteady c = true) :
    (x : Sign) → c ∈ resolveWith expanded x.draft →
      x = .code c ∨ (∃ q, x = .literal q c) ∨ ∃ letter, x = .variable letter
  | .code d, h => by
    obtain ⟨d', hd', h⟩ := List.mem_flatMap.mp h
    cases List.mem_singleton.mp hd'
    exact .inl (congrArg Sign.code (eq_of_mem_resolveChar hc h))
  | .literal q d, h => by
    obtain ⟨d', hd', h⟩ := List.mem_flatMap.mp h
    cases eq_of_mem_resolveChar hc h
    exact .inr (.inl ⟨q, congrArg (Sign.literal q) (eq_of_mem_draft hc hd')⟩)
  | .variable letter, _ => .inr (.inr ⟨letter, rfl⟩)

theorem resolved_letter (hv : v ∈ forVariables) (expanded q : Bool) :
    resolveWith expanded (Sign.literal q v).draft = [v] := by
  have hAll : ∀ e q, ∀ v ∈ forVariables, resolveWith e (Sign.literal q v).draft = [v] := by decide
  exact hAll expanded q v hv

theorem resolved_code (hv : v ∈ forVariables) (expanded : Bool) :
    resolveWith expanded (Sign.code v).draft = [v] := by
  have hAll : ∀ e, ∀ v ∈ forVariables, resolveWith e (Sign.code v).draft = [v] := by decide
  exact hAll expanded v hv

theorem resolved_percent (expanded q : Bool) :
    resolveWith expanded (Sign.literal q '%').draft = ['%', '%'] := by
  revert expanded q
  decide

theorem resolved_variable (hv : v ∈ forVariables) (expanded : Bool) :
    resolveWith expanded (Sign.variable v).draft = ['%', '%', v] := by
  have hAll : ∀ e, ∀ v ∈ forVariables, resolveWith e (Sign.variable v).draft = ['%', '%', v] := by
    decide
  exact hAll expanded v hv

theorem traced_ne_nil (expanded : Bool) (x : Sign) : x.traced expanded ≠ [] := by
  have hChar : ∀ c, resolveChar expanded c ≠ [] := by
    intro c
    unfold resolveChar
    grind
  have hDraft : x.draft ≠ [] := by
    cases x with
    | literal q c =>
      cases q with
      | true =>
        simp only [Sign.draft, quotedChar]
        grind
      | false =>
        simp only [Sign.draft, unquotedChar]
        grind
    | _ => exact List.cons_ne_nil _ _
  obtain ⟨c, cs, hCons⟩ := List.exists_cons_of_ne_nil hDraft
  simp [Sign.traced, resolveWith, hCons, hChar]

theorem exists_literal {x : Sign} (h : x.char? = some c) : ∃ q, x = .literal q c := by
  cases x with
  | literal q d =>
    cases h
    exact ⟨q, rfl⟩
  | _ => cases h

theorem runs_append {e e' : Ending} {ws w : List Sign} :
    Runs e (ws ++ w) e' ↔ ∃ m, Runs e ws m ∧ Runs m w e' := by
  induction ws generalizing e with
  | nil => simp [Runs]
  | cons x rest ih => simp [Runs, ih, and_assoc]

section

variable {expanded : Bool} {signs : List Sign} {v : Char} (hv : v ∈ forVariables)
  (hLetters : ∀ w, .variable w ∈ signs → w ∈ forVariables)

include hLetters in
theorem exists_concat_of_percent {before : List (Char × Origin)} {a b : Origin}
    (h : signs.flatMap (Sign.traced expanded) = before ++ [('%', a), ('%', b)]) :
    ∃ front, signs = front ++ [.code '%'] ∨
      (a = .literal ∧ b = .literal ∧ ∃ q, signs = front ++ [.literal q '%']) := by
  rcases List.eq_nil_or_concat signs with rfl | ⟨front, x, rfl⟩
  · simp at h
  rw [List.concat_eq_append] at h hLetters ⊢
  rw [List.flatMap_append, List.flatMap_singleton] at h
  obtain ⟨init, last, hTraced⟩ := (List.eq_nil_or_concat _).resolve_left (traced_ne_nil expanded x)
  have hSplit : (front.flatMap (Sign.traced expanded) ++ init) ++ [last] =
      (before ++ [('%', a)]) ++ [('%', b)] := by
    simpa [hTraced] using h
  obtain ⟨-, hLast⟩ := List.append_inj' hSplit rfl
  obtain rfl := (List.cons.inj hLast).1
  have hMem : '%' ∈ resolveWith expanded x.draft := by
    have hPair : ('%', b) ∈ x.traced expanded := by simp [hTraced]
    obtain ⟨c, hc, hEq⟩ := List.mem_map.mp hPair
    cases hEq
    exact hc
  refine ⟨front, ?_⟩
  rcases eq_of_mem_resolved (by decide) x hMem with rfl | ⟨q, rfl⟩ | ⟨w, rfl⟩
  · exact .inl rfl
  · rw [Sign.traced, resolved_percent] at h
    have hInj := (List.append_inj' h rfl).2
    simp only [Sign.origin, List.map_cons, List.map_nil, List.cons.injEq, Prod.mk.injEq, true_and,
      and_true] at hInj
    exact .inr ⟨hInj.1.symm, hInj.2.symm, q, rfl⟩
  · have hw := hLetters w (List.mem_append_right _ List.mem_cons_self)
    rw [Sign.traced, resolved_variable hw] at hTraced
    have hInj : [('%', Origin.variable), ('%', .variable)] ++ [(w, .variable)] =
        init ++ [('%', b)] := by
      simpa [Sign.origin] using hTraced
    obtain ⟨-, hEq⟩ := List.append_inj' hInj rfl
    cases hEq
    exact absurd hw (by decide)

theorem exists_sign {before after : List (Char × Origin)} {y : Char × Origin} :
    (signs : List Sign) → signs.flatMap (Sign.traced expanded) = before ++ y :: after →
      ∃ front x back lead rest, signs = front ++ x :: back ∧ x.traced expanded = lead ++ y :: rest ∧
        before = front.flatMap (Sign.traced expanded) ++ lead
  | [], h => by simp at h
  | x :: others, h => by
    rw [List.flatMap_cons, List.append_eq_append_iff] at h
    rcases h with ⟨more, rfl, h⟩ | ⟨more, hTraced, h⟩
    · obtain ⟨front, z, back, lead, rest, rfl, hTraced, rfl⟩ := exists_sign others h
      exact ⟨x :: front, z, back, lead, rest, rfl, hTraced, by simp⟩
    · cases more with
      | nil =>
        have hOthers : others.flatMap (Sign.traced expanded) = [] ++ y :: after := h.symm
        obtain ⟨front, z, back, lead, rest, rfl, hRest, hLead⟩ := exists_sign others hOthers
        refine ⟨x :: front, z, back, lead, rest, rfl, hRest, ?_⟩
        rw [List.flatMap_cons, List.append_assoc, ← hLead, hTraced, List.append_nil, List.append_nil]
      | cons z more =>
        obtain ⟨rfl, -⟩ := List.cons.inj h
        exact ⟨[], x, others, before, more, rfl, hTraced, rfl⟩

include hv in
theorem lead_of_occurrence {w : Char} {a b c d : Origin} {lead rest : List (Char × Origin)}
    (h : occurrence w a b c = lead ++ (v, d) :: rest) : lead = [('%', a), ('%', b)] := by
  have hPercent : '%' ≠ v := by
    rintro rfl
    exact absurd hv (by decide)
  rcases lead with _ | ⟨y, _ | ⟨z, _ | ⟨u, lead⟩⟩⟩
  · exact absurd (Prod.mk.inj (List.cons.inj h).1).1 hPercent
  · exact absurd (Prod.mk.inj (List.cons.inj (List.cons.inj h).2).1).1 hPercent
  · obtain ⟨rfl, hRest⟩ := List.cons.inj h
    rw [(List.cons.inj hRest).1]
  · simp [occurrence] at h

variable {e e' : Ending} (hRuns : Runs e signs e')

include hv hLetters hRuns

theorem occurrence_cases {a b c : Origin}
    (h : occurrence v a b c <:+: signs.flatMap (Sign.traced expanded)) :
    (a = .variable ∧ b = .variable ∧ c = .variable) ∨
      (a = .literal ∧ b = .literal ∧ c = .literal ∧
        [some '%', some v] <:+: signs.map Sign.char?) := by
  obtain ⟨before, after, h⟩ := h
  have hSplit : signs.flatMap (Sign.traced expanded) =
      (before ++ [('%', a), ('%', b)]) ++ (v, c) :: after := by
    rw [← h]
    simp [occurrence]
  obtain ⟨front, x, back, lead, rest, rfl, hTraced, hBefore⟩ := exists_sign signs hSplit
  obtain ⟨hMem, rfl⟩ : v ∈ resolveWith expanded x.draft ∧ x.origin = c := by
    have hPair : (v, c) ∈ x.traced expanded := by simp [hTraced]
    obtain ⟨d, hd, hEq⟩ := List.mem_map.mp hPair
    cases hEq
    exact ⟨hd, rfl⟩
  -- A letter that is no variable comes after the percent signs of another sign.
  have hFront : lead = [] → x.isLetter = true → x.char?.isSome = true ∧ a = .literal ∧
      b = .literal ∧ [some '%', x.char?] <:+: (front ++ x :: back).map Sign.char? := by
    rintro rfl hLetter
    rw [List.append_nil] at hBefore
    obtain ⟨init, rfl | ⟨ha, hb, q, rfl⟩⟩ := exists_concat_of_percent
      (fun w hw => hLetters w (List.mem_append_left _ hw)) hBefore.symm
    · rw [List.append_assoc, runs_append] at hRuns
      obtain ⟨m, -, -, hx, -⟩ := hRuns
      simpa [Sign.ending] using hx hLetter
    · rw [List.append_assoc, runs_append] at hRuns
      obtain ⟨m, -, -, hx, -⟩ := hRuns
      have hSome : x.char?.isSome = true := by simpa [Sign.ending] using hx hLetter
      exact ⟨hSome, ha, hb, init.map Sign.char?, back.map Sign.char?, by simp [Sign.char?]⟩
  rcases eq_of_mem_resolved (isSteady_of_mem_forVariables v hv) x hMem with rfl | ⟨q, rfl⟩ | ⟨w, rfl⟩
  · rw [Sign.traced, resolved_code hv] at hTraced
    obtain ⟨hSome, -⟩ := hFront (by cases lead <;> simp_all) (by simpa [Sign.isLetter] using hv)
    cases hSome
  · rw [Sign.traced, resolved_letter hv] at hTraced
    obtain ⟨-, ha, hb, hNear⟩ :=
      hFront (by cases lead <;> simp_all) (by simpa [Sign.isLetter] using hv)
    exact .inr ⟨ha, hb, rfl, hNear⟩
  · have hw := hLetters w (List.mem_append_right _ List.mem_cons_self)
    rw [Sign.traced, resolved_variable hw] at hTraced
    rw [lead_of_occurrence hv hTraced] at hBefore
    have hInj := (List.append_inj' hBefore rfl).2
    simp only [List.cons.injEq, Prod.mk.injEq, true_and, and_true] at hInj
    exact .inl ⟨hInj.1, hInj.2, rfl⟩

theorem occurrence_literal_iff :
    occurrence v .literal .literal .literal <:+: signs.flatMap (Sign.traced expanded) ↔
      [some '%', some v] <:+: signs.map Sign.char? := by
  constructor
  · intro h
    rcases occurrence_cases hv hLetters hRuns h with ⟨hVariable, -⟩ | ⟨-, -, -, hNear⟩
    · cases hVariable
    · exact hNear
  · rintro ⟨front, back, h⟩
    obtain ⟨signs', after, rfl, hFront, -⟩ := List.map_eq_append_iff.mp h.symm
    obtain ⟨before, near, rfl, -, hNear⟩ := List.map_eq_append_iff.mp hFront
    obtain ⟨x, others, rfl, hx, hOthers⟩ := List.map_eq_cons_iff.mp hNear
    obtain ⟨y, none', rfl, hy, hNone⟩ := List.map_eq_cons_iff.mp hOthers
    obtain rfl := List.map_eq_nil_iff.mp hNone
    obtain ⟨q, rfl⟩ := exists_literal hx
    obtain ⟨q', rfl⟩ := exists_literal hy
    refine ⟨before.flatMap (Sign.traced expanded), after.flatMap (Sign.traced expanded), ?_⟩
    simp [Sign.traced, resolved_percent, resolved_letter hv, occurrence, Sign.origin]

end

/-! ## The signs of a line -/

def Part.signs : Part → List Sign
  | .text t => t.toList.map .code
  | .variable letter => [.variable letter]

def signsOf (ps : List Part) : List Sign :=
  ps.flatMap Part.signs

def Loop.signs (l : Loop) : List Sign :=
  signsOf (.text "for " :: .variable l.letter :: .text " in (" :: l.value ++ [.text ") do "])

def LineSpan.As (loops : List Loop) : LineSpan → List Sign → Prop
  | .item i, ws => ∃ ps, ItemAs loops i ps ∧ ws = signsOf ps
  | .literal inQuotes t, ws => ws = t.toList.map (.literal inQuotes)

def SpansAs (loops : List Loop) : List LineSpan → List Sign → Prop
  | [], ws => ws = []
  | x :: rest, ws => ∃ first others, x.As loops first ∧ SpansAs loops rest others ∧ ws = first ++ others

@[simp] theorem signsOf_append (ps qs : List Part) : signsOf (ps ++ qs) = signsOf ps ++ signsOf qs :=
  List.flatMap_append

@[simp] theorem signsOf_cons (p : Part) (ps : List Part) : signsOf (p :: ps) = p.signs ++ signsOf ps :=
  List.flatMap_cons

@[simp] theorem signsOf_nil : signsOf [] = [] := rfl

theorem draft_signsOf (ps : List Part) : (signsOf ps).flatMap Sign.draft = (drafted ps).toList := by
  induction ps with
  | nil => simp
  | cons p rest ih =>
    have hPart : p.signs.flatMap Sign.draft = p.draft.toList := by
      cases p <;> simp [Part.signs, Part.draft, Sign.draft, List.flatMap_map]
    rw [signsOf_cons, List.flatMap_append, hPart, ih, drafted_cons, String.toList_append]

theorem mem_lettersIn_of_mem_signsOf {w : Char} (h : .variable w ∈ signsOf ps) :
    w ∈ lettersIn ps := by
  obtain ⟨p, hp, h⟩ := List.mem_flatMap.mp h
  rcases p with t | letter
  · simp [Part.signs] at h
  · cases List.mem_singleton.mp h
    exact List.mem_filterMap.mpr ⟨_, hp, rfl⟩

variable {loops : List Loop}

theorem spansAs_append {a b : List LineSpan} {ws : List Sign} (h : SpansAs loops (a ++ b) ws) :
    ∃ front back, SpansAs loops a front ∧ SpansAs loops b back ∧ ws = front ++ back := by
  induction a generalizing ws with
  | nil => exact ⟨[], ws, rfl, h, rfl⟩
  | cons x rest ih =>
    obtain ⟨first, others, hFirst, hOthers, rfl⟩ := h
    obtain ⟨front, back, hFront, hBack, rfl⟩ := ih hOthers
    exact ⟨first ++ front, back, ⟨first, front, hFirst, hFront, rfl⟩, hBack, (List.append_assoc ..).symm⟩

theorem exists_spansAs : (spans : List LineSpan) → ∀ {ps}, ItemsAs loops (spans.map LineSpan.toItem) ps →
    ∃ ws, SpansAs loops spans ws ∧ ws.flatMap Sign.draft = (drafted ps).toList ∧
      ∀ w, .variable w ∈ ws → w ∈ lettersIn ps
  | [], _, h => by
    cases h
    exact ⟨[], rfl, by simp, nofun⟩
  | x :: rest, _, h => by
    cases h with
    | @cons _ _ ps qs hFirst hRest =>
      obtain ⟨others, hOthers, hDraft, hLetters⟩ := exists_spansAs rest hRest
      have hOne : ∃ first, x.As loops first ∧ first.flatMap Sign.draft = (drafted ps).toList ∧
          ∀ w, .variable w ∈ first → w ∈ lettersIn ps := by
        cases x with
        | item i => exact ⟨signsOf ps, ⟨ps, hFirst, rfl⟩, draft_signsOf ps,
            fun w => mem_lettersIn_of_mem_signsOf⟩
        | literal inQuotes t =>
          refine ⟨_, rfl, ?_, fun w hw => by simp at hw⟩
          cases inQuotes with
          | true =>
            cases hFirst
            simp [Part.draft, quotedText, Sign.draft, List.flatMap_map]
          | false =>
            cases hFirst
            simp [Part.draft, unquotedText, Sign.draft, List.flatMap_map]
      obtain ⟨first, hAs, hFirstDraft, hFirstLetters⟩ := hOne
      refine ⟨first ++ others, ⟨first, others, hAs, hOthers, rfl⟩, ?_, fun w hw => ?_⟩
      · rw [List.flatMap_append, hFirstDraft, hDraft, drafted_append, String.toList_append]
      · rw [lettersIn_append, List.mem_append]
        exact (List.mem_append.mp hw).imp (hFirstLetters w) (hLetters w)

/-! ## No letter after a percent sign of the code -/

/-- Behind each ending in `A` the signs lead to one in `B`. -/
def Takes (A B : List Ending) (ws : List Sign) : Prop :=
  ∀ e ∈ A, ∃ e' ∈ B, Runs e ws e'

def still : List Ending := [.calm]

def inText : List Ending := [.calm, .literal]

def everywhere : List Ending := [.calm, .code, .literal]

theorem mem_everywhere (e : Ending) : e ∈ everywhere := by
  cases e <;> decide

section

variable {A B C : List Ending} {ws w : List Sign}

theorem takes_nil : Takes A A [] := fun e he => ⟨e, he, rfl⟩

theorem Takes.append (h : Takes A B ws) (hw : Takes B C w) : Takes A C (ws ++ w) := by
  intro e he
  obtain ⟨m, hm, hFirst⟩ := h e he
  obtain ⟨e', he', hSecond⟩ := hw m hm
  exact ⟨e', he', runs_append.mpr ⟨m, hFirst, hSecond⟩⟩

theorem Takes.anywhere (h : Takes everywhere still w) (hB : .calm ∈ B) : Takes A B w := by
  intro e _
  obtain ⟨e', he', hRuns⟩ := h e (mem_everywhere e)
  obtain rfl := List.mem_singleton.mp he'
  exact ⟨.calm, hB, hRuns⟩

end

theorem takes_text (h : '%' ∉ t.toList) : Takes still still (Part.text t).signs := by
  intro e he
  refine ⟨.calm, List.mem_cons_self, ?_⟩
  obtain rfl := List.mem_singleton.mp he
  rw [Part.signs]
  generalize t.toList = cs at h
  induction cs with
  | nil => rfl
  | cons c rest ih =>
    obtain ⟨hc, hRest⟩ : '%' ≠ c ∧ '%' ∉ rest := by simpa using h
    have hEnding : (Sign.code c).ending = .calm := if_neg (Ne.symm hc)
    rw [List.map_cons, Runs, hEnding]
    exact ⟨fun _ => .inl rfl, ih hRest⟩

abbrev Fences (t : String) : Prop :=
  '%' ∉ t.toList ∧ t.toList ≠ [] ∧ ∀ c ∈ t.toList.head?, c ∉ forVariables

theorem takes_fence (h : Fences t) : Takes everywhere still (Part.text t).signs := by
  intro e _
  obtain ⟨m, hm, hRuns⟩ := takes_text h.1 .calm List.mem_cons_self
  refine ⟨m, hm, ?_⟩
  obtain ⟨c, cs, hCons⟩ := List.exists_cons_of_ne_nil h.2.1
  have hLetter : (Sign.code c).isLetter = false := by
    simpa [Sign.isLetter] using h.2.2 c (by simp [hCons])
  rw [Part.signs, hCons, List.map_cons, Runs] at hRuns ⊢
  exact ⟨fun h => absurd h (by simp [hLetter]), hRuns.2⟩

theorem takes_letterless (h : ∀ c ∈ t.toList, c ∉ forVariables) :
    Takes everywhere everywhere (Part.text t).signs := by
  rw [Part.signs]
  generalize t.toList = cs at h
  induction cs with
  | nil => exact takes_nil
  | cons c rest ih =>
    intro e _
    obtain ⟨hc, hRest⟩ := List.forall_mem_cons.mp h
    obtain ⟨e', he', hRuns⟩ := ih hRest _ (mem_everywhere (Sign.code c).ending)
    exact ⟨e', he', fun hLetter => absurd (of_decide_eq_true hLetter) hc, hRuns⟩

theorem takes_literal (inQuotes : Bool) (cs : List Char) :
    Takes inText inText (cs.map (.literal inQuotes)) := by
  induction cs with
  | nil => exact takes_nil
  | cons c rest ih =>
    intro e he
    have hEnding : (Sign.literal inQuotes c).ending ∈ inText := by
      simp only [Sign.ending]
      split <;> decide
    obtain ⟨e', he', hRuns⟩ := ih _ hEnding
    refine ⟨e', he', fun _ => ?_, hRuns⟩
    simpa [inText, Sign.char?] using he

theorem takes_intText (z : Int) : Takes still still (Part.text (Number.intText z)).signs := by
  have hDigits : Avoids ['%'] (Number.intText z) := avoids_intText (by decide) (by decide) z
  exact takes_text fun hMem => hDigits _ hMem List.mem_cons_self

theorem takes_slot (n : Int) : Takes everywhere still (Part.text (slotText n)).signs := by
  have hLead : Takes everywhere still (Part.text "%~").signs := by
    intro e _
    exact ⟨.calm, by decide, fun h => absurd h (by decide), fun h => absurd h (by decide), rfl⟩
  have hSigns : (Part.text (slotText n)).signs =
      (Part.text "%~").signs ++ (Part.text (Number.intText n)).signs := by
    simp [Part.signs, slotText]
  rw [hSigns]
  exact hLead.append (takes_intText n)

theorem takes_variable (letter : Char) : Takes everywhere still (Part.variable letter).signs :=
  fun _ _ => ⟨.calm, by decide, nofun, rfl⟩

theorem takes_name {n : String} (h : ∀ c ∈ n.toList, isNamePart c = true) :
    Takes still still (Part.text n).signs :=
  takes_text fun hMem => absurd (h '%' hMem) (by decide)

theorem takes_item {qs : List Part} (hBase : Takes still still (signsOf ps))
    (hIndex : Takes still still (signsOf qs)) :
    Takes still still (signsOf (ps ++ .text "[" :: qs ++ [.text "]"])) := by
  have hOpen : Takes still still (Part.text "[").signs := takes_text (by decide)
  have hClose : Takes still still (Part.text "]").signs := takes_text (by decide)
  simpa using hBase.append (hOpen.append (hIndex.append hClose))

theorem takes_inBangs (h : Takes still still (signsOf ps)) :
    Takes everywhere still (signsOf (.text "!" :: ps ++ [.text "!"])) := by
  have hBang : Takes everywhere still (Part.text "!").signs := takes_fence (by decide)
  simpa using hBang.append (h.append (hBang.anywhere (by decide)))

mutual

theorem takes_readAs : (p : Place) → p.Named → ∀ ps, ReadAs loops p ps →
    Takes still still (signsOf ps)
  | .absent, _, _, h => by
    cases h
    exact takes_nil
  | .name n, hn, _, h => by
    cases h
    simpa using takes_name hn
  | .slot n, _, _, h => by
    cases h
    simpa using (takes_slot n).anywhere (by decide)
  | .item base index, hNamed, _, h => by
    cases h with
    | item _ hIndex hBase =>
      exact takes_item (takes_readAs base hNamed.1 _ hBase) (takes_indexAs index hNamed.2 _ hIndex)
    | @bound _ _ _ l _ _ _ hBase =>
      exact takes_item (takes_readAs base hNamed.1 _ hBase)
        (by simpa using (takes_variable l.letter).anywhere (by decide))

theorem takes_indexAs : (i : Index) → i.Named → ∀ ps, IndexAs loops i ps →
    Takes still still (signsOf ps)
  | .absent, _, _, h => by
    cases h
    exact takes_nil
  | .int v, _, _, h => by
    cases h
    simpa using takes_intText v.toInt
  | .read p, hNamed, _, h => by
    cases h with
    | slot n => simpa using (takes_slot n).anywhere (by decide)
    | read _ h => exact (takes_inBangs (takes_readAs p hNamed _ h)).anywhere (by decide)

end

theorem takes_writtenAs {p : Place} (hNamed : p.Named) (h : WrittenAs loops p ps) :
    Takes still still (signsOf ps) := by
  induction h with
  | absent => exact takes_nil
  | name n => simpa using takes_name hNamed
  | slot n => simpa using (takes_slot n).anywhere (by decide)
  | item _ hIndex ih => exact takes_item (ih hNamed.1) (takes_indexAs _ hNamed.2 _ hIndex)

/-! ## Statements -/

abbrev LineSpan.Named : LineSpan → Prop :=
  LineSpan.Meets (fun _ => True) fun _ => True

/-- However the template is written, behind each ending in `A` it leads to one in `B`. -/
def SpansTake (loops : List Loop) (A B : List Ending) (spans : List LineSpan) : Prop :=
  ∀ ws, SpansAs loops spans ws → Takes A B ws

section

variable {A B C : List Ending} {spans rest : List LineSpan}

theorem spansTake_nil : SpansTake loops A A [] := by
  rintro _ rfl
  exact takes_nil

theorem SpansTake.append (h : SpansTake loops A B spans) (hRest : SpansTake loops B C rest) :
    SpansTake loops A C (spans ++ rest) := by
  intro ws hAs
  obtain ⟨front, back, hFront, hBack, rfl⟩ := spansAs_append hAs
  exact (h front hFront).append (hRest back hBack)

theorem spansTake_item {i : LineItem} (h : ∀ ps, ItemAs loops i ps → Takes A B (signsOf ps)) :
    SpansTake loops A B [.item i] := by
  rintro _ ⟨_, _, ⟨ps, hItem, rfl⟩, rfl, rfl⟩
  rw [List.append_nil]
  exact h ps hItem

theorem spansTake_code (h : Takes A B (Part.text t).signs) : SpansTake loops A B [codeSpan t] := by
  refine spansTake_item fun ps hItem => ?_
  cases hItem
  simpa using h

theorem spansTake_fence (h : Fences t) (hB : .calm ∈ B) : SpansTake loops A B [codeSpan t] :=
  spansTake_code ((takes_fence h).anywhere hB)

theorem spansTake_read {p : Place} (h : p.Named) (hB : .calm ∈ B) :
    SpansTake loops A B [.item (.read p)] := by
  refine spansTake_item fun ps hItem => ?_
  cases hItem with
  | slot n => simpa using (takes_slot n).anywhere hB
  | read _ hRead => exact (takes_inBangs (takes_readAs p h _ hRead)).anywhere hB

end

theorem spansTake_front (h : '%' ∉ t.toList) : SpansTake loops still still [codeSpan t] :=
  spansTake_code (takes_text h)

theorem spansTake_written {p : Place} (h : p.Named) :
    SpansTake loops still still [.item (.written p)] := by
  refine spansTake_item fun ps hItem => ?_
  cases hItem with
  | written hWritten => exact takes_writtenAs h hWritten

theorem spansTake_fragments {inQuotes : Bool} {fs : List Fragment}
    (h : ∀ x ∈ fragmentSpans inQuotes fs, x.Named) :
    SpansTake loops inText inText (fragmentSpans inQuotes fs) := by
  induction fs with
  | nil => exact spansTake_nil
  | cons f rest ih =>
    obtain ⟨hFirst, hRest⟩ := List.forall_mem_append.mp h
    refine SpansTake.append (B := inText) ?_ (ih hRest)
    cases f with
    | absent => exact spansTake_nil
    | text t =>
      rintro _ ⟨_, _, rfl, rfl, rfl⟩
      rw [List.append_nil]
      exact takes_literal inQuotes _
    | read p => exact spansTake_read (hFirst _ List.mem_cons_self) (by decide)

theorem spansTake_letterless (h : Avoids forVariables t) :
    SpansTake loops everywhere everywhere [codeSpan t] :=
  spansTake_code (takes_letterless h)

theorem spansTake_arith : (e : Arith) → (∀ i ∈ arithItems e, (LineSpan.item i).Named) →
    SpansTake loops everywhere everywhere ((arithItems e).map .item)
  | .absent, _ => spansTake_nil
  | .int _, _ => spansTake_letterless (avoids_intText (by decide) (by decide) _)
  | .read p, h => spansTake_read (h _ List.mem_cons_self) (by decide)
  | .unary op e, h => by
    have hOp : Avoids forVariables (opText op) := by cases op <;> decide
    exact (spansTake_letterless hOp).append (spansTake_arith e (List.forall_mem_cons.mp h).2)
  | .binary op l r, h => by
    simp only [arithItems, List.forall_mem_append, List.forall_mem_cons] at h
    have hOp : Avoids forVariables (" " ++ opText op ++ " ") := by cases op <;> decide
    have hLeft := (spansTake_letterless (t := "(") (by decide)).append (spansTake_arith l h.1.1.2)
    have hRight := (spansTake_letterless hOp).append (spansTake_arith r h.1.2.2)
    simpa [arithItems, codeSpan] using
      (hLeft.append hRight).append (spansTake_letterless (t := ")") (by decide))

/-- However the template is written, a letter comes after a percent sign in literals only. -/
def Sound (loops : List Loop) (spans : List LineSpan) : Prop :=
  ∀ ws, SpansAs loops spans ws → ∃ e, Runs .calm ws e

theorem sound_append {A B : List Ending} {front spans : List LineSpan}
    (hFront : SpansTake loops still still front) (h : SpansTake loops A B spans) (hA : .calm ∈ A) :
    Sound loops (front ++ spans) := by
  intro ws hAs
  obtain ⟨first, others, hFirst, hOthers, rfl⟩ := spansAs_append hAs
  obtain ⟨m, hm, hRuns⟩ := hFront first hFirst .calm List.mem_cons_self
  obtain rfl := List.mem_singleton.mp hm
  obtain ⟨e, -, hRest⟩ := h others hOthers .calm hA
  exact ⟨e, runs_append.mpr ⟨.calm, hRuns, hRest⟩⟩

theorem sound_condition {c : Comparison} (h : ∀ x ∈ conditionSpans c, x.Named) :
    Sound loops (codeSpan "if " :: conditionSpans c ++ [codeSpan " ("]) := by
  have hIf : SpansTake loops still still [codeSpan "if "] := spansTake_front (by decide)
  have hOpen : SpansTake loops inText inText [codeSpan " ("] := spansTake_fence (by decide) (by decide)
  have hEnd : SpansTake loops inText inText [codeSpan "\""] := spansTake_fence (by decide) (by decide)
  have hBetween : SpansTake loops inText inText [codeSpan "\"==\""] :=
    spansTake_fence (by decide) (by decide)
  have hRelation : ∀ op, SpansTake loops inText inText [codeSpan (" " ++ relation op ++ " ")] :=
    fun op => spansTake_fence (by cases op <;> decide) (by decide)
  obtain ⟨op, left, right⟩ := c
  cases op with
  | eq | ne =>
    simp only [conditionSpans, List.forall_mem_append, List.forall_mem_cons] at h
    have hTexts := (spansTake_fragments h.1.1.2).append (hBetween.append (spansTake_fragments h.1.2.2))
    have hQuoted : ∀ t : String, '%' ∉ t.toList → Sound loops (codeSpan "if " ::
        (codeSpan t :: fragmentSpans true left ++ codeSpan "\"==\"" :: fragmentSpans true right ++
          [codeSpan "\""]) ++ [codeSpan " ("]) := by
      intro t ht
      simpa using
        sound_append (hIf.append (spansTake_front ht)) ((hTexts.append hEnd).append hOpen) (by decide)
    exact hQuoted _ (by decide)
  | _ =>
    simp only [conditionSpans, List.forall_mem_append, List.forall_mem_cons] at h
    have hPlain : ∀ op, Sound loops (codeSpan "if " :: (fragmentSpans false left ++
        codeSpan (" " ++ relation op ++ " ") :: fragmentSpans false right) ++ [codeSpan " ("]) := by
      intro op
      have hTexts :=
        (spansTake_fragments h.1).append ((hRelation op).append (spansTake_fragments h.2.2))
      simpa using sound_append hIf (hTexts.append hOpen) (by decide)
    exact hPlain _

theorem sound_call (ht : '%' ∉ t.toList) {spans : List Fragment → List LineSpan}
    {args : List (List Fragment)}
    (hSpans : ∀ a, (∀ x ∈ spans a, x.Named) → SpansTake loops inText inText (spans a))
    (h : ∀ x ∈ codeSpan t :: args.flatMap fun a => codeSpan " " :: spans a, x.Named) :
    Sound loops (codeSpan t :: args.flatMap fun a => codeSpan " " :: spans a) := by
  have hBlank : SpansTake loops inText inText [codeSpan " "] := spansTake_fence (by decide) (by decide)
  refine sound_append (spansTake_front ht) (A := inText) (B := inText) ?_ (by decide)
  replace h := (List.forall_mem_cons.mp h).2
  induction args with
  | nil => exact spansTake_nil
  | cons a rest ih =>
    obtain ⟨hFirst, hRest⟩ := List.forall_mem_append.mp h
    exact (hBlank.append (hSpans a (List.forall_mem_cons.mp hFirst).2)).append (ih hRest)

theorem spansTake_quoted {fs : List Fragment} (h : ∀ x ∈ quotedSpans fs, x.Named) :
    SpansTake loops inText inText (quotedSpans fs) := by
  have hQuote : SpansTake loops inText inText [codeSpan "\""] :=
    spansTake_fence (by decide) (by decide)
  simp only [quotedSpans, List.forall_mem_append, List.forall_mem_cons] at h
  exact (hQuote.append (spansTake_fragments h.1.2)).append hQuote

def isWritten : Stmt → Bool
  | .setText .. | .setNumber .. | .call .. | .whenTrue .. | .choose .. => true
  | _ => false

def CalleeNamed : Stmt → Prop
  | .call callee _ => ∃ x, (∀ c ∈ x.toList, isNamePart c = true) ∧
      (callee = .text x ∨ callee = .text (":" ++ x))
  | _ => True

theorem sound_headSpans (hs : isWritten s = true) (hCallee : CalleeNamed s)
    (h : ∀ x ∈ headSpans s, x.Named) : Sound loops (headSpans s) := by
  have hEquals : SpansTake loops still still [codeSpan "="] := spansTake_front (by decide)
  cases s with
  | setText dst value =>
    simp only [headSpans, List.forall_mem_append, List.forall_mem_cons] at h
    have hSet : SpansTake loops still still [codeSpan "set \""] := spansTake_front (by decide)
    have hQuote : SpansTake loops inText inText [codeSpan "\""] :=
      spansTake_fence (by decide) (by decide)
    have hFront := hSet.append ((spansTake_written h.1.2.1).append hEquals)
    have hValue := (spansTake_fragments h.1.2.2.2).append hQuote
    simpa [headSpans] using sound_append hFront hValue (by decide)
  | setNumber dst e =>
    simp only [headSpans, headItems, List.map_append, List.map_cons, List.forall_mem_append,
      List.forall_mem_cons] at h
    have hSet : SpansTake loops still still [codeSpan "set /a \""] := spansTake_front (by decide)
    have hQuote : SpansTake loops everywhere everywhere [codeSpan "\""] :=
      spansTake_fence (by decide) (by decide)
    have hFront := hSet.append ((spansTake_written h.1.2.1).append hEquals)
    have hValue :=
      (spansTake_arith e fun i hi => h.1.2.2.2 _ (List.mem_map_of_mem hi)).append hQuote
    simpa [headSpans, headItems, codeSpan] using sound_append hFront hValue (by decide)
  | call callee args =>
    obtain ⟨x, hx, rfl | rfl⟩ := hCallee
    · have hPercent : '%' ∉ x.toList := fun hMem => absurd (hx '%' hMem) (by decide)
      have hColon : startsWith ":" x = false := by
        refine Bool.eq_false_iff.mpr fun hStarts => ?_
        obtain ⟨rest, rfl⟩ := startsWith_iff.mp hStarts
        exact absurd (hx ':' (by simp)) (by decide)
      simp only [headSpans, hColon, Bool.false_eq_true, if_false, unquotedText_of_isNamePart hx]
        at h ⊢
      exact sound_call hPercent (fun _ => spansTake_fragments) h
    · have hPercent : '%' ∉ ("call " ++ (":" ++ x)).toList := by
        simp only [String.toList_append, List.mem_append, not_or]
        exact ⟨by decide, by decide, fun hMem => absurd (hx '%' hMem) (by decide)⟩
      simp only [headSpans, startsWith_append, if_true] at h ⊢
      exact sound_call hPercent (fun _ => spansTake_quoted) h
  | whenTrue c body | choose c thenBody elseBody =>
    simp only [headSpans, List.forall_mem_append, List.forall_mem_cons] at h
    exact sound_condition h.1.2
  | _ => cases hs

/-! ## Lines -/

/-- The signs are those of the first line of a statement when so many variables are in force. -/
structure Traces (bound : Nat) (s : Stmt) (loops : List Loop) (signs : List Sign) : Prop where
  text_eq : (finished signs).map Prod.fst = headLine bound s
  letters_eq : loops.map Loop.letter = (List.range' bound (headCount s)).map letterAt
  spelled : ∃ ws, SpansAs loops (headSpans s) ws ∧ signs = loops.flatMap Loop.signs ++ ws

theorem takes_loops (h : ∀ l ∈ loops, Takes still still (signsOf l.value)) :
    Takes still still (loops.flatMap Loop.signs) := by
  induction loops with
  | nil => exact takes_nil
  | cons l rest ih =>
    obtain ⟨hValue, hRest⟩ := List.forall_mem_cons.mp h
    have hFor : Takes still still (Part.text "for ").signs := takes_text (by decide)
    have hIn : Takes still still (Part.text " in (").signs := takes_text (by decide)
    have hDo : Takes still still (Part.text ") do ").signs := takes_text (by decide)
    have hLetter := (takes_variable l.letter).anywhere (A := still) (B := still) (by decide)
    have hLoop : Takes still still l.signs := by
      simpa [Loop.signs] using hFor.append (hLetter.append (hIn.append (hValue.append hDo)))
    exact hLoop.append (ih hRest)

theorem draft_loops (loops : List Loop) :
    (loops.flatMap Loop.signs).flatMap Sign.draft = (String.join (loops.map Loop.text)).toList := by
  rw [String.toList_join, List.flatMap_map, List.flatMap_assoc]
  refine List.flatMap_congr fun l _ => ?_
  rw [Loop.signs, draft_signsOf]
  simp [Loop.text, loopText, Part.draft]

theorem mem_letters_of_mem_loops {w : Char} (h : .variable w ∈ loops.flatMap Loop.signs) :
    w ∈ loops.map Loop.letter ∨ w ∈ mentions loops := by
  obtain ⟨l, hl, h⟩ := List.mem_flatMap.mp h
  have hLetters := mem_lettersIn_of_mem_signsOf h
  simp only [List.cons_append, lettersIn_text, lettersIn_variable, lettersIn_append, lettersIn_nil,
    List.append_nil, List.mem_cons] at hLetters
  rcases hLetters with rfl | hValue
  · exact .inl (List.mem_map_of_mem hl)
  · exact .inr (List.mem_flatMap.mpr ⟨l, hl, hValue⟩)

theorem takes_values (h : ∀ x ∈ headSpans s, x.Named) :
    ∀ q ∈ (headItems s).flatMap LineItem.places,
      ∀ final value, IndexAs final (.read q) value → Takes still still (signsOf value) := by
  intro q hq final value
  obtain ⟨i, hi, hq⟩ := List.mem_flatMap.mp hq
  rw [← map_headSpans] at hi
  obtain ⟨x, hx, rfl⟩ := List.mem_map.mp hi
  have hPlace := h x hx
  refine takes_indexAs (.read q) ?_ value
  rcases x with (t | p | p) | ⟨inQuotes, t⟩
  · cases hq
  · exact named_of_mem_indexPlaces p hPlace q hq
  · exact named_of_mem_indexPlaces p hPlace q hq
  · cases inQuotes <;> cases hq

/-- What looks like a variable on the line of an assignment, call or condition is one or belongs to
literals, and to literals exactly if they hold a percent sign and then its letter. -/
theorem exists_traces (bound : Nat) (hs : isWritten s = true) (hCallee : CalleeNamed s)
    (hNamed : ∀ x ∈ headSpans s, x.Named) :
    ∃ loops signs, Traces bound s loops signs ∧
      ∀ v ∈ forVariables,
        (∀ a b c, occurrence v a b c <:+: finished signs → a ≠ .code ∧ b = a ∧ c = a) ∧
        (occurrence v .literal .literal .literal <:+: finished signs ↔
          [some '%', some v] <:+: signs.map Sign.char?) := by
  obtain ⟨loops, body, hStanding, hText, hLength, hUsed, hItems⟩ :=
    exists_headDraft bound s (takes_values hNamed)
  rw [← map_headSpans] at hItems
  obtain ⟨ws, hAs, hDraft, hBody⟩ := exists_spansAs _ hItems
  have hLetters : ∀ w, .variable w ∈ loops.flatMap Loop.signs ++ ws → w ∈ forVariables := by
    intro w hw
    have hMem : w ∈ loops.map Loop.letter := by
      rcases List.mem_append.mp hw with hw | hw
      · rcases mem_letters_of_mem_loops hw with hw | hw
        · exact hw
        · exact hUsed.subset (List.mem_append_left _ hw)
      · exact hUsed.subset (List.mem_append_right _ (hBody w hw))
    rw [hStanding.letters_eq] at hMem
    obtain ⟨n, -, rfl⟩ := List.mem_map.mp hMem
    exact letterAt_mem_forVariables n
  obtain ⟨m, hm, hLoops⟩ := takes_loops hStanding.valued .calm List.mem_cons_self
  obtain rfl := List.mem_singleton.mp hm
  obtain ⟨e, hLine⟩ := sound_headSpans hs hCallee hNamed ws hAs
  have hRuns : Runs .calm (loops.flatMap Loop.signs ++ ws) e := runs_append.mpr ⟨.calm, hLoops, hLine⟩
  refine ⟨loops, _, ⟨?_, ?_, ws, hAs, rfl⟩, fun v hv => ⟨fun a b c h => ?_, ?_⟩⟩
  · have hHead : headLine bound s =
        (resolve (String.join (headDraft bound s).2.loops ++ (headDraft bound s).1)).toList := by
      cases s with
      | raw t => cases hs
      | _ => rfl
    rw [map_fst_finished, hHead, hStanding.loops_eq, hText, List.flatMap_append, draft_loops, hDraft,
      ← String.toList_append, String.ofList_toList]
  · rw [hStanding.letters_eq, hLength]
  · rcases occurrence_cases hv hLetters hRuns h with ⟨rfl, rfl, rfl⟩ | ⟨rfl, rfl, rfl, -⟩
    · exact ⟨nofun, rfl, rfl⟩
    · exact ⟨nofun, rfl, rfl⟩
  · exact occurrence_literal_iff hv hLetters hRuns

end BatchCompiler.Script
