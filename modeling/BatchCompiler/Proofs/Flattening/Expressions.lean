import BatchCompiler.Proofs.Flattening.Rules

/-!
# Flattening expressions

An expression and its flat form have the same value: the original where the statement starts, the
flat form after the temporaries it uses have been filled. This holds in every position an expression
can stand in, and in the frame of a call as well as outside.
-/

namespace BatchCompiler.Syntax.Flattening

open Meaning

variable {span : Span} {n l r n' array index : Node} {I : Interpretation} {σ τ υ : Store}
  {op : TokenKind} {p : Position} {inFunction : Bool} {es : List Node} {frame : Option String}

theorem not_temporary_of_isFreeName {name : String} (h : (Node.ident span name).isFreeName = true) :
    Text.startsWith temporaryLead name = false := by
  have hFree : Text.startsWith Parser.reservedLead name = false := by
    simpa [Node.isFreeName] using h
  have hLead : temporaryLead = Parser.reservedLead ++ "t" := rfl
  rw [Bool.eq_false_iff]
  intro hTemporary
  rw [hLead] at hTemporary
  rw [Text.startsWith_of_append hTemporary] at hFree
  cases hFree

theorem place_ident (I : Interpretation) (σ : Store) (span : Span) (name : String) :
    Meaning.place I σ (framed frame (.ident span name)) = ⟨name, frame.toList⟩ := by
  cases frame <;> rfl

theorem text_ident (I : Interpretation) (σ : Store) (span : Span) (name : String) :
    text I σ (framed frame (.ident span name)) = σ ⟨name, frame.toList⟩ := by
  cases frame <;> rfl

theorem not_temporary_place (frame : Option String) (I : Interpretation) (σ : Store)
    (hn : n.isExpression = true) (hPlace : n.isPlace = true) :
    Text.startsWith temporaryLead (Meaning.place I σ (framed frame n)).name = false := by
  induction n using Node.induction with
  | ident span name =>
    rw [place_ident]
    exact not_temporary_of_isFreeName hn
  | subscript span array index ihArray _ =>
    simp only [Node.isExpression, Bool.and_eq_true] at hn
    exact ihArray hn.1.2 hn.1.1
  | _ => cases hPlace

theorem isPlace_of_subscript (h : (Node.subscript span array index).isExpression = true) :
    (Node.subscript span array index).isPlace = true := by
  simp only [Node.isExpression, Bool.and_eq_true] at h
  exact h.1.1

theorem text_congr (hAgree : Agree σ υ) (hn : n.isExpression = true) (frame : Option String) :
    text I υ (framed frame n) = text I σ (framed frame n) ∧
      Meaning.place I υ (framed frame n) = Meaning.place I σ (framed frame n) := by
  induction n using Node.induction generalizing frame with
  | ident span name =>
    rw [text_ident, text_ident, place_ident, place_ident]
    exact ⟨(hAgree ⟨name, frame.toList⟩ (not_temporary_of_isFreeName hn)).symm, rfl⟩
  | subscript span array index ihArray ihIndex =>
    have hName := not_temporary_place frame I σ hn (isPlace_of_subscript hn)
    simp only [Node.isExpression, Bool.and_eq_true] at hn
    have hIndex := (ihIndex hn.2 none).1
    rw [framed_none] at hIndex
    simp only [framed, Meaning.place] at hName
    simp only [framed, Meaning.place, text, (ihArray hn.1.2 frame).2, hIndex, and_true]
    exact (hAgree _ hName).symm
  | unary span op e ih =>
    simp only [Node.isExpression, Bool.and_eq_true] at hn
    simp only [framed, text, Meaning.place, (ih hn.2 frame).1, and_self]
  | binary span op l r ihl ihr | concat span l r ihl ihr | strCompare span op l r ihl ihr =>
    simp only [Node.isExpression, Bool.and_eq_true] at hn
    simp only [framed, text, Meaning.place, (ihl hn.1.2 frame).1, (ihr hn.2 frame).1, and_self]
  | _ => simp only [framed, text, Meaning.place, and_self]

theorem values_eq_map (I : Interpretation) (σ : Store) (ns : List Node) :
    Meaning.values I σ ns = ns.map (Meaning.value I σ) := by
  induction ns with
  | nil => simp only [Meaning.values, List.map_nil]
  | cons n rest ih => rw [Meaning.values, ih, List.map_cons]

theorem value_eq_text_or_list (I : Interpretation) (σ : Store) (n : Node) :
    Meaning.value I σ n = .text (text I σ n) ∨
      (∃ vs, Meaning.value I σ n = .list vs) ∧ text I σ n = "" := by
  cases n with
  | list span elems => exact .inr ⟨⟨_, by rw [Meaning.value]⟩, by simp only [text]⟩
  | _ => exact .inl (by simp only [Meaning.value])

theorem text_of_value (h : Meaning.value I υ n' = Meaning.value I σ n) :
    text I υ n' = text I σ n := by
  rcases value_eq_text_or_list I σ n with hn | ⟨⟨vs, hn⟩, hText⟩ <;>
    rcases value_eq_text_or_list I υ n' with hn' | ⟨⟨vs', hn'⟩, hText'⟩ <;>
    rw [hn, hn'] at h
  · exact Value.text.inj h
  · cases h
  · cases h
  · rw [hText, hText']

theorem value_congr (hAgree : Agree σ υ) (hn : n.isExpression = true) :
    Meaning.value I υ (framed frame n) = Meaning.value I σ (framed frame n) := by
  induction n using Node.induction with
  | list span elems ih =>
    rw [Node.isExpression, Node.areExpressions_iff] at hn
    simp only [framed, framedAll_eq, Meaning.value, values_eq_map, List.map_map]
    exact congrArg Value.list (List.map_congr_left fun e he => ih e he (hn e he))
  | ident =>
    have hText := (text_congr (I := I) hAgree hn frame).1
    cases frame <;> exact congrArg Value.text hText
  | _ =>
    have hText := (text_congr (I := I) hAgree hn frame).1
    simp only [framed] at hText ⊢
    simp only [Meaning.value, hText]

theorem holds_congr (hAgree : Agree σ υ) (hn : n.isExpression = true) :
    holds I υ (framed frame n) = holds I σ (framed frame n) := by
  have hText := (text_congr (I := I) hAgree hn frame).1
  cases n with
  | strCompare span op l r | binary span op l r =>
    simp only [Node.isExpression, Bool.and_eq_true] at hn
    simp only [framed] at hText ⊢
    simp only [holds, (text_congr hAgree hn.1.2 frame).1, (text_congr hAgree hn.2 frame).1, hText]
  | ident => cases frame <;> exact congrArg I.truth hText
  | _ =>
    simp only [framed] at hText ⊢
    simp only [holds, hText]

structure PlaceKept (n n' : Node) (I : Interpretation) (σ υ : Store) : Prop where
  place : Meaning.place I υ n' = Meaning.place I σ n
  value : Meaning.value I υ n' = Meaning.value I σ n

def KeptAt (frame : Option String) (n n' : Node) (I : Interpretation) (σ υ : Store) :
    Position → Prop
  | .place => n.isPlace = true → PlaceKept (framed frame n) (framed frame n') I σ υ
  | .index => Meaning.value I υ (framed none n') = Meaning.value I σ (framed none n)
  | .condition => holds I υ (framed frame n') = holds I σ (framed frame n)
  | _ => Meaning.value I υ (framed frame n') = Meaning.value I σ (framed frame n)

def AllKept (frame : Option String) (I : Interpretation) (σ υ : Store) :
    List (Position × Node) → List Node → Prop
  | [], [] => True
  | (p, n) :: xs, n' :: ns => KeptAt frame n n' I σ υ p ∧ AllKept frame I σ υ xs ns
  | _, _ => False

theorem keptAt_self (hAgree : Agree σ υ) (hn : n.isExpression = true) (p : Position) :
    KeptAt frame n n I σ υ p := by
  cases p with
  | place => exact fun _ => ⟨(text_congr hAgree hn frame).2, value_congr hAgree hn⟩
  | condition => exact holds_congr hAgree hn
  | _ => exact value_congr hAgree hn

theorem map_eq_of_allKept {β : Type} {f g : Node → β} {ns : List Node}
    (hKept : ∀ n e, KeptAt frame n e I σ υ p → f e = g n)
    (h : AllKept frame I σ υ (ns.map fun n => (p, n)) es) : es.map f = ns.map g := by
  induction ns generalizing es with
  | nil =>
    cases es with
    | nil => rfl
    | cons => cases h
  | cons n rest ih =>
    cases es with
    | nil => cases h
    | cons e others => rw [List.map_cons, List.map_cons, hKept n e h.1, ih h.2]

theorem texts_eq_of_allKept {ns : List Node} (hp : p = .text ∨ p = .arithmetic)
    (h : AllKept frame I σ υ (ns.map fun n => (p, n)) es) :
    es.map (text I υ ∘ framed frame) = ns.map (text I σ ∘ framed frame) := by
  refine map_eq_of_allKept (fun n e hKept => ?_) h
  rcases hp with rfl | rfl <;> exact text_of_value hKept

theorem exists_two_of_allKept (hp : p = .text ∨ p = .arithmetic)
    (h : AllKept frame I σ υ ([l, r].map fun n => (p, n)) es) :
    ∃ a b, es = [a, b] ∧ text I υ (framed frame a) = text I σ (framed frame l) ∧
      text I υ (framed frame b) = text I σ (framed frame r) := by
  obtain ⟨a, rest, rfl, ha, hRest⟩ := List.map_eq_cons_iff.mp (texts_eq_of_allKept hp h)
  obtain ⟨b, others, rfl, hb, hOthers⟩ := List.map_eq_cons_iff.mp hRest
  rw [List.map_nil, List.map_eq_nil_iff] at hOthers
  exact ⟨a, b, by rw [hOthers], ha, hb⟩

theorem placeKept_subscript (hn : (Node.subscript span array index).isExpression = true)
    {array' index' : Node} (hAgree : Agree σ υ)
    (hArray : PlaceKept (framed frame array) (framed frame array') I σ υ)
    (hIndex : Meaning.value I υ (framed none index') = Meaning.value I σ (framed none index)) :
    PlaceKept (framed frame (.subscript span array index))
      (framed frame (.subscript span array' index')) I σ υ := by
  have hName := not_temporary_place frame I σ hn (isPlace_of_subscript hn)
  simp only [framed, Meaning.place] at hName
  rw [framed_none, framed_none] at hIndex
  constructor
  · simp only [framed, Meaning.place, hArray.place, text_of_value hIndex]
  · simp only [framed, Meaning.value, text, hArray.place, text_of_value hIndex]
    exact congrArg Value.text (hAgree _ hName).symm

theorem keptAt_rebuild (hn : n.isExpression = true) (hCalls : n.isCallFree = true)
    (h : treatment inFunction p n = .keep) (hFrame : p = .index → frame = none)
    (hAgree : Agree σ υ) (hes : AllKept frame I σ υ (parts n) es) :
    KeptAt frame n (rebuild n es) I σ υ p := by
  cases n with
  | subscript span array index =>
    match es, hes with
    | [array', index'], ⟨hArray, hIndex, _⟩ =>
      have hKept := placeKept_subscript hn hAgree (hArray (isPlace_of_subscript hn)) hIndex
      cases p with
      | place => exact fun _ => hKept
      | condition => exact congrArg I.truth (text_of_value hKept.value)
      | index =>
        obtain rfl := hFrame rfl
        exact hKept.value
      | _ => exact hKept.value
  | unary span op e =>
    match es, hes with
    | [e'], ⟨he, _⟩ =>
      have hText : text I υ (framed frame e') = text I σ (framed frame e) := text_of_value he
      cases p with
      | arithmetic | value => simp only [KeptAt, rebuild, framed, Meaning.value, text, hText]
      | _ => cases inFunction <;> cases h
  | binary span op l r =>
    have hPosition : op.operandPosition = .text ∨ op.operandPosition = .arithmetic := by
      unfold TokenKind.operandPosition
      split
      · exact .inl rfl
      · exact .inr rfl
    obtain ⟨l', r', rfl, hl, hr⟩ := exists_two_of_allKept hPosition hes
    cases hOp : op.isRelational with
    | true =>
      cases p with
      | condition => simp only [KeptAt, rebuild, framed, holds, hOp, if_true, hl, hr]
      | _ => cases inFunction <;> simp [treatment, hOp] at h
    | false =>
      cases p with
      | arithmetic | value => simp only [KeptAt, rebuild, framed, Meaning.value, text, hOp, hl, hr]
      | _ => cases inFunction <;> simp [treatment, hOp] at h
  | concat span l r =>
    obtain ⟨l', r', rfl, hl, hr⟩ := exists_two_of_allKept (.inl rfl) hes
    cases p with
    | text | value => simp only [KeptAt, rebuild, framed, Meaning.value, text, hl, hr]
    | _ => cases h
  | strCompare span op l r =>
    obtain ⟨l', r', rfl, hl, hr⟩ := exists_two_of_allKept (.inl rfl) hes
    cases p with
    | condition => simp only [KeptAt, rebuild, framed, holds, hl, hr]
    | _ => cases inFunction <;> cases h
  | list span elems =>
    have hValues : es.map (Meaning.value I υ ∘ framed frame) =
        elems.map (Meaning.value I σ ∘ framed frame) :=
      map_eq_of_allKept (p := .value) (fun _ _ hKept => hKept) hes
    cases p with
    | value => simp only [KeptAt, rebuild, framed, framedAll_eq, Meaning.value, values_eq_map,
        List.map_map, hValues]
    | _ => cases h
  | call => cases hCalls
  | bool => cases p <;> cases inFunction <;> cases h
  | _ => cases p <;> cases h

theorem isCallFree_parts (hn : n.isCallFree = true) : ∀ x ∈ parts n, x.2.isCallFree = true := by
  cases n <;> simp_all [parts, Node.operands, Node.isCallFree, Node.areCallFree_iff]

theorem value_of_isComparison (frame : Option String) (I : Interpretation) (σ : Store)
    (h : n.isComparison = true) :
    Meaning.value I σ (framed frame n) = .text (truthText (holds I σ (framed frame n))) := by
  cases n with
  | strCompare span op l r => simp only [framed, Meaning.value, text, holds]
  | binary span op l r =>
    rw [Node.isComparison] at h
    simp only [framed, Meaning.value, text, holds, if_pos h]
  | _ => cases h

theorem isComparison_of_truth (h : treatment inFunction p n = .truth) : n.isComparison = true := by
  cases n with
  | strCompare => rfl
  | binary span op l r =>
    cases hOp : op.isRelational with
    | true => exact hOp
    | false => cases p <;> cases inFunction <;> simp [treatment, hOp] at h
  | _ => cases p <;> cases inFunction <;> cases h

/-- What is put into the temporary of an expression that moves. -/
theorem value_of_moves (h : (treatment inFunction p n).moves = true) (I : Interpretation) (σ : Store) :
    Meaning.value I σ (framed frame n) = .text (text I σ (framed frame n)) := by
  cases n with
  | list | ident => cases p <;> cases h
  | _ => simp only [framed, Meaning.value]

theorem holds_of_zero (h : treatment inFunction p n = .zero) (I : Interpretation) (σ : Store) :
    holds I σ (framed frame n) = I.compare .ne (text I σ (framed frame n)) "0" := by
  obtain rfl := position_of_zero h
  cases n with
  | unary => rfl
  | binary span op l r =>
    cases hOp : op.isRelational with
    | true => simp [treatment, hOp] at h
    | false => simp only [framed, holds, hOp, Bool.false_eq_true, if_false]
  | _ => cases h

theorem keptAt_remainder {span : Span} {name : String}
    (h : (treatment inFunction p n).moves = true) (hFrame : p = .index → frame = none)
    (hTemporary : υ ⟨name, frame.toList⟩ = text I σ (framed frame n)) :
    KeptAt frame n (remainder (treatment inFunction p n) span (.ident span name)) I σ υ p := by
  rw [← text_ident I υ span] at hTemporary
  have hValue : Meaning.value I υ (framed frame (.ident span name)) =
      Meaning.value I σ (framed frame n) := by
    rw [value_of_moves h, ← hTemporary]
    cases frame <;> rfl
  unfold remainder
  split
  · next hZero =>
    obtain rfl := position_of_zero hZero
    rw [KeptAt, holds_of_zero hZero, ← hTemporary]
    rfl
  · next hZero =>
    cases p with
    | place => cases n <;> cases h
    | condition =>
      cases n with
      | unary => exact absurd rfl hZero
      | binary span op l r => cases hOp : op.isRelational <;> simp_all [treatment, Treatment.moves]
      | _ => cases h
    | index =>
      obtain rfl := hFrame rfl
      exact hValue
    | _ => exact hValue

theorem framed_assignTruth (span : Span) (cond lhs : Node) :
    framed frame (assignTruth span cond lhs) =
      assignTruth span (framed frame cond) (framed frame lhs) := by
  simp only [assignTruth, framed, framedAll]

/-- Running the statements leads from one store to the other, without calls and without loops, and
changes only what they fill. -/
structure Fills (frame : Option String) (I : Interpretation) (new : List Node) (τ τ' : Store) :
    Prop where
  run : ∀ rounds events, execAll I rounds (framedAll frame new) ⟨τ, events⟩ =
    some (.finished, ⟨τ', events⟩)
  others : ∀ l : Location, l.name ∉ filledNames new → τ' l = τ l

theorem Fills.nil (frame : Option String) (I : Interpretation) (τ : Store) : Fills frame I [] τ τ :=
  ⟨fun _ _ => by simp only [framedAll, execAll], fun _ _ => rfl⟩

theorem Fills.append {a b : List Node} {τ₁ τ₂ τ₃ : Store} (ha : Fills frame I a τ₁ τ₂)
    (hb : Fills frame I b τ₂ τ₃) : Fills frame I (a ++ b) τ₁ τ₃ := by
  constructor
  · intro rounds events
    rw [framedAll_append, execAll_append, ha.run rounds events]
    exact hb.run rounds events
  · intro l hl
    rw [filledNames_append, List.mem_append, not_or] at hl
    rw [hb.others l hl.2, ha.others l hl.1]

/-- A filling puts the value of the expression into its temporary. -/
theorem fills_filling (span : Span) (name : String) (hn : n.isExpression = true)
    (hCalls : n.isCallFree = true) (h : (treatment inFunction p n).moves = true) (hAgree : Agree σ τ)
    (hes : AllKept frame I σ τ (parts n) es) :
    Fills frame I [filling (treatment inFunction p n) span (rebuild n es) (.ident span name)] τ
      (τ.set ⟨name, frame.toList⟩ (text I σ (framed frame n))) := by
  refine ⟨fun rounds events => ?run, fun l hl => τ.set_of_ne _ ?others⟩
  case others =>
    rintro rfl
    rw [filledNames_filling] at hl
    exact hl List.mem_cons_self
  have hKept : treatment inFunction (treatment inFunction p n).position n = .keep →
      KeptAt frame n (rebuild n es) I σ τ (treatment inFunction p n).position := fun hKeep =>
    keptAt_rebuild hn hCalls hKeep (by cases treatment inFunction p n <;> nofun) hAgree hes
  rw [framedAll_eq, List.map_singleton, execAll_singleton]
  unfold filling
  split
  · next hTruth =>
    rw [hTruth] at hKept
    have hKeep := treatment_of_moves h
    rw [hTruth] at hKeep
    have hHolds : holds I τ (framed frame (rebuild n es)) = holds I σ (framed frame n) :=
      hKept (hKeep.resolve_right fun hValue => nomatch hValue.1)
    have hText := value_of_isComparison frame I σ (isComparison_of_truth hTruth)
    rw [value_of_moves h] at hText
    rw [framed_assignTruth, exec_assignTruth, hHolds, place_ident, Value.text.inj hText]
  · next hTruth =>
    have hPosition : (treatment inFunction p n).position = .value := by
      cases ht : treatment inFunction p n with
      | truth => exact absurd ht hTruth
      | _ => rfl
    rw [hPosition] at hKept
    have hValue : Meaning.value I τ (framed frame (rebuild n es)) =
        .text (text I σ (framed frame n)) := by
      rcases treatment_of_moves h with hKeep | ⟨-, _, v, rfl⟩
      · rw [hPosition] at hKeep
        exact (hKept hKeep).trans (value_of_moves h I σ)
      · simp only [rebuild, framed, Meaning.value, text]
    rw [framed, exec, assign_of_value hValue, place_ident]

/-- In a function nothing is moved out of an index or a place. -/
theorem Turns.eq_of_index {xs : List (Position × Node)} {ns new : List Node}
    (h : Turns true xs ns new) (hxs : ∀ x ∈ xs, x.1 = .index ∨ x.1 = .place) :
    ns = xs.map Prod.snd ∧ new = [] := by
  induction h with
  | nil => exact ⟨rfl, rfl⟩
  | leave _ _ _ ih =>
    obtain ⟨rfl, rfl⟩ := ih (List.forall_mem_cons.mp hxs).2
    exact ⟨rfl, rfl⟩
  | @keep p n _ _ _ _ _ hKeep _ _ _ ihParts ih =>
    obtain ⟨hp, hRest⟩ := List.forall_mem_cons.mp hxs
    obtain ⟨rfl, rfl⟩ := ih hRest
    cases n with
    | subscript span array index =>
      obtain ⟨rfl, rfl⟩ := ihParts (by simp [parts, Node.operands])
      exact ⟨rfl, rfl⟩
    | _ =>
      dsimp only at hp
      rcases hp with rfl | rfl <;> cases hKeep
  | @move p n _ _ _ _ _ _ hMoves =>
    have hp : p = .index ∨ p = .place := hxs _ List.mem_cons_self
    rcases hp with rfl | rfl <;> cases n <;> cases hMoves

theorem Turns.rebuild_eq {before : List Node} (hKeep : treatment true .index n = .keep)
    (hParts : Turns true (parts n) es before) : rebuild n es = n := by
  cases n with
  | subscript span array index =>
    obtain ⟨rfl, -⟩ := hParts.eq_of_index (by simp [parts, Node.operands])
    rfl
  | _ => cases hKeep

theorem Turns.startsWith_of_mem {xs : List (Position × Node)} {ns new : List Node}
    (h : Turns inFunction xs ns new) :
    ∀ name ∈ filledNames new, Text.startsWith temporaryLead name = true := by
  induction h with
  | nil => exact List.forall_mem_nil _
  | leave _ _ _ ih => exact ih
  | keep _ _ _ _ ihParts ih =>
    rw [filledNames_append]
    exact List.forall_mem_append.mpr ⟨ihParts, ih⟩
  | move number _ _ _ _ ihParts ih =>
    rw [filledNames_append, filledNames_filling]
    exact List.forall_mem_append.mpr
      ⟨ihParts, List.forall_mem_cons.mpr ⟨startsWith_temporaryName number, ih⟩⟩

theorem Turns.agree {xs : List (Position × Node)} {ns new : List Node}
    (h : Turns inFunction xs ns new) (hFills : Fills frame I new τ υ) : Agree τ υ := by
  refine fun l hl => (hFills.others l fun hMem => ?_).symm
  rw [h.startsWith_of_mem _ hMem] at hl
  cases hl

/-- Flat expressions, with the statements in front of them, do what the expressions do, for as long
as only other temporaries change. -/
theorem Turns.exists_allKept {xs : List (Position × Node)} {ns new : List Node}
    (h : Turns inFunction xs ns new) (hFrame : inFunction = true ∨ frame = none)
    (hxs : ∀ x ∈ xs, x.2.isExpression = true ∧ x.2.isCallFree = true) (I : Interpretation)
    (hAgree : Agree σ τ) :
    ∃ τ', Fills frame I new τ τ' ∧ ∀ υ, Agree σ υ →
      (∀ l, l.name ∈ filledNames new → υ l = τ' l) → AllKept frame I σ υ xs ns := by
  induction h generalizing τ with
  | nil => exact ⟨τ, .nil frame I τ, fun _ _ _ => trivial⟩
  | leave _ _ _ ih =>
    obtain ⟨hn, hRest⟩ := List.forall_mem_cons.mp hxs
    obtain ⟨τ', hFills, hAll⟩ := ih hRest hAgree
    exact ⟨τ', hFills, fun υ hυ hFilled => ⟨keptAt_self hυ hn.1 _, hAll υ hυ hFilled⟩⟩
  | @keep p n xs es ns before new hKeep hParts hApart _ ihParts ih =>
    obtain ⟨hn, hRest⟩ := List.forall_mem_cons.mp hxs
    obtain ⟨τ₁, hFills₁, hAll₁⟩ := ihParts (fun x hx =>
      ⟨isExpression_parts hn.1 x hx, isCallFree_parts hn.2 x hx⟩) hAgree
    obtain ⟨τ₂, hFills₂, hAll₂⟩ := ih hRest (hAgree.trans (hParts.agree hFills₁))
    refine ⟨τ₂, hFills₁.append hFills₂, fun υ hυ hFilled => ?_⟩
    simp only [filledNames_append, List.mem_append] at hFilled
    have hes := hAll₁ υ hυ fun l hl =>
      (hFilled l (.inl hl)).trans (hFills₂.others l (hApart _ hl))
    refine ⟨?_, hAll₂ υ hυ fun l hl => hFilled l (.inr hl)⟩
    rcases hFrame with rfl | rfl
    · by_cases hp : p = .index
      · subst hp
        rw [Turns.rebuild_eq hKeep hParts]
        exact keptAt_self hυ hn.1 _
      · exact keptAt_rebuild hn.1 hn.2 hKeep (fun h => absurd h hp) hυ hes
    · exact keptAt_rebuild hn.1 hn.2 hKeep (fun _ => rfl) hυ hes
  | @move p n xs es ns before new number hMoves hParts hNew _ ihParts ih =>
    obtain ⟨hn, hRest⟩ := List.forall_mem_cons.mp hxs
    obtain ⟨τ₁, hFills₁, hAll₁⟩ := ihParts (fun x hx =>
      ⟨isExpression_parts hn.1 x hx, isCallFree_parts hn.2 x hx⟩) hAgree
    have hAgree₁ := hAgree.trans (hParts.agree hFills₁)
    have hFirst : Turns inFunction [(p, n)] _ _ := .move number hMoves hParts List.not_mem_nil .nil
    have hFills₂ := hFills₁.append (fills_filling n.span (temporaryName number) hn.1 hn.2 hMoves
      hAgree₁ (hAll₁ τ₁ hAgree₁ fun _ _ => rfl))
    obtain ⟨τ₃, hFills₃, hAll₃⟩ := ih hRest (hAgree.trans (hFirst.agree hFills₂))
    rw [List.append_cons]
    refine ⟨τ₃, hFills₂.append hFills₃, fun υ hυ hFilled => ?_⟩
    simp only [filledNames_append, filledNames_filling, List.mem_append, List.mem_cons] at hFilled
    refine ⟨keptAt_remainder hMoves ?_ ?_, hAll₃ υ hυ fun l hl => hFilled l (.inr hl)⟩
    · rintro rfl
      refine hFrame.resolve_left ?_
      rintro rfl
      cases n <;> cases hMoves
    · rw [hFilled _ (.inl (.inr (.inl rfl)))]
      exact (hFills₃.others ⟨_, _⟩ hNew).trans (Store.set_self _ _ _)

end BatchCompiler.Syntax.Flattening
