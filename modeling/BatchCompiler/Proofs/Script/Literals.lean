import BatchCompiler.Proofs.Meaning.Expansion
import BatchCompiler.Proofs.Script.Pieces

/-!
# Literals in lines

What the expansion of a head line leaves of the characters that were drafted for literals is what
the literals say, whatever else stands on the line. A literal is drafted for the quotes around it and
for an expanded line or another, and the rest of the line is such that it changes neither.
-/

namespace BatchCompiler.Script

open Target Text

variable {inside after : Bool} {s : String} {ps : List Piece} {texts : List String}
  {args : List (List Fragment)}

variable {between : Bool} {cs : List Char} {text label : String} {fs : List Fragment}
  {callee : Fragment} {c : Comparison}

/-- What a text of the code does to the rest of a line, in quotes or not. -/
def Neutral (inside after : Bool) (text : String) : Prop :=
  ∀ expanded, ∃ x, Yields (expandFrom expanded inside) (expandFrom expanded after)
    ((resolveWith expanded text.toList).map fun c => (c, (none : Option Nat))) x

theorem Neutral.append {t : String} (hs : Neutral inside between s) (ht : Neutral between after t) :
    Neutral inside after (s ++ t) := by
  intro expanded
  obtain ⟨x, hx⟩ := hs expanded
  obtain ⟨y, hy⟩ := ht expanded
  refine ⟨x ++ y, ?_⟩
  rw [String.toList_append, resolveWith_append, List.map_append]
  exact hx.append hy

/-- A text that matters neither to its own line nor, by its quotes, to the rest of it. -/
def Balanced (text : String) : Prop :=
  ∀ inside, Neutral inside inside text

theorem Balanced.append {t : String} (hs : Balanced s) (ht : Balanced t) : Balanced (s ++ t) :=
  fun inside => (hs inside).append (ht inside)

def afterQuotes (inside : Bool) (cs : List Char) : Bool :=
  cs.foldl (fun inside c => if c = '"' then !inside else inside) inside

def special : List Char := '%' :: '^' :: marks

theorem yields_plain {expanded : Bool} (h : ∀ c ∈ cs, c ∉ special) :
    Yields (expandFrom expanded inside) (expandFrom expanded (afterQuotes inside cs))
      (cs.map fun c => (c, (none : Option Nat))) (cs.map fun c => (c, none)) := by
  induction cs generalizing inside with
  | nil => exact yields_nil
  | cons c rest ih =>
    obtain ⟨hc, hRest⟩ := List.forall_mem_cons.mp h
    have hPercent : c ≠ '%' := fun hEq => hc (hEq ▸ List.mem_cons_self)
    have hCaret : c ≠ '^' := fun hEq => hc (hEq ▸ List.mem_cons_of_mem _ List.mem_cons_self)
    exact (yields_char hPercent hCaret).append (ih hRest)

theorem neutral_of_avoids (h : Avoids special text)
    (hAfter : afterQuotes inside text.toList = after) : Neutral inside after text := by
  intro expanded
  have hMarks : ∀ c ∈ text.toList, c ∉ marks :=
    fun c hc hMem => h c hc (List.mem_cons_of_mem _ (List.mem_cons_of_mem _ hMem))
  rw [resolveWith_of_unmarked hMarks]
  subst hAfter
  exact ⟨_, yields_plain h⟩

theorem afterQuotes_of_not_mem (h : '"' ∉ cs) (inside : Bool) : afterQuotes inside cs = inside := by
  induction cs generalizing inside with
  | nil => rfl
  | cons c rest ih =>
    obtain ⟨hc, hRest⟩ := not_or.mp (List.mem_cons.not.mp h)
    rw [afterQuotes, List.foldl_cons, if_neg (Ne.symm hc)]
    exact ih hRest inside

theorem balanced_of_avoids (h : Avoids ('"' :: special) text) : Balanced text := by
  have hQuote : '"' ∉ text.toList := fun hMem => h _ hMem List.mem_cons_self
  exact fun inside => neutral_of_avoids (h.mono fun _ => List.mem_cons_of_mem _)
    (afterQuotes_of_not_mem hQuote inside)

theorem balanced_slotLead : Balanced "%~" := by
  intro inside expanded
  cases expanded <;> exact ⟨_, yields_percent rfl (by decide) (by decide) (by decide)⟩

theorem balanced_percents : Balanced "%%" := by
  intro inside expanded
  cases expanded <;> exact ⟨_, yields_percents rfl rfl⟩

theorem balanced_intText (z : Int) : Balanced (Number.intText z) :=
  balanced_of_avoids (avoids_intText (by decide) (by decide) z)

theorem balanced_forVariable {c : Char} (hc : c ∈ forVariables) :
    Balanced (String.ofList ['%', '%', c]) := by
  have hLetters : ∀ c ∈ forVariables, c ∉ '"' :: special := by decide
  have hLetter : Balanced (String.ofList [c]) :=
    balanced_of_avoids (avoids_ofList (List.forall_mem_cons.mpr ⟨hLetters c hc, nofun⟩))
  have hName : String.ofList ['%', '%', c] = "%%" ++ String.ofList [c] := by
    simp [← String.toList_inj]
  rw [hName]
  exact balanced_percents.append hLetter

theorem spells_balanced : Spells Balanced Balanced where
  empty := balanced_of_avoids (by decide)
  name h := balanced_of_avoids (avoids_of_isNamePart (by decide) h)
  slot n := balanced_slotLead.append (balanced_intText n)
  int z := balanced_intText z
  inBangs h :=
    ((balanced_of_avoids (by decide)).append h).append (balanced_of_avoids (by decide))
  item hBase hIndex :=
    ((hBase.append (balanced_of_avoids (by decide))).append hIndex).append
      (balanced_of_avoids (by decide))
  bound h := by
    refine drafts_bindIndex (fun c hc => balanced_forVariable hc) fun c hc => ?_
    have hFront : Balanced ("for " ++ String.ofList ['%', '%', c] ++ " in (") :=
      ((balanced_of_avoids (by decide)).append (balanced_forVariable hc)).append
        (balanced_of_avoids (by decide))
    exact (hFront.append h).append (balanced_of_avoids (by decide))

theorem neutral_label (h : Avoids ('"' :: marks) label) (inside : Bool) :
    Neutral inside inside (label ++ " ") := by
  intro expanded
  have hMarks : ∀ c ∈ (label ++ " ").toList, c ∉ marks :=
    avoids_append (h.mono fun _ => List.mem_cons_of_mem _) (by decide)
  rw [resolveWith_of_unmarked hMarks, String.toList_append, List.map_append]
  refine exists_yields_before expanded inside (by decide) (by decide) (by decide) ?_
  rintro a ha hQuote
  obtain ⟨c, hc, rfl⟩ := List.mem_map.mp ha
  exact h c hc (hQuote ▸ List.mem_cons_self)

def literalChar (inQuotes : Bool) : Char → List Char :=
  if inQuotes then quotedChar else unquotedChar

theorem toList_literalText (inQuotes : Bool) (s : String) :
    (literalText inQuotes s).toList = s.toList.flatMap (literalChar inQuotes) := by
  cases inQuotes with
  | true => exact String.toList_ofList
  | false => exact String.toList_ofList

section

variable {expanded : Bool} {τ : Type} (t : τ)

theorem yields_literal_percent (inQuotes : Bool) :
    Keeps expanded inQuotes
      ((resolveWith expanded (literalChar inQuotes '%')).map (·, t)) [('%', t)] := by
  have hPair : resolveWith expanded (literalChar inQuotes '%') = ['%', '%'] := by
    cases expanded <;> cases inQuotes <;> rfl
  rw [hPair]
  exact yields_percents rfl rfl

theorem yields_literal_caret (inQuotes : Bool) :
    Keeps expanded inQuotes
      ((resolveWith expanded (literalChar inQuotes '^')).map (·, t)) [('^', t)] := by
  cases inQuotes with
  | true =>
    cases expanded with
    | true => exact yields_escaped_inside rfl (by simp) (by simp)
    | false => exact yields_caret_inside rfl
  | false =>
    cases expanded with
    | true =>
      -- Both steps take carets away here, and each halves them.
      have hOnce : Yields (dropCarets not false) (dropCarets not false)
          [('^', t), ('^', t), ('^', t), ('^', t)] [('^', t), ('^', t)] :=
        (yields_dropCarets_caret rfl).append (yields_dropCarets_caret rfl)
      have hPercent : ∀ a ∈ [('^', t), ('^', t), ('^', t), ('^', t)], a.1 ≠ '%' := by simp
      exact yields_escaped_twice rfl hPercent hOnce
    | false => exact yields_caret_outside rfl rfl

theorem yields_literal_bang (inQuotes : Bool) :
    Keeps true inQuotes
      ((resolveWith true (literalChar inQuotes '!')).map (·, t)) [('!', t)] := by
  cases inQuotes with
  | true => exact yields_escaped_inside rfl (by simp) (by simp)
  | false =>
    have hOnce : Yields (dropCarets not false) (dropCarets not false)
        [('^', t), ('^', t), ('!', t)] [('^', t), ('!', t)] :=
      (yields_dropCarets_caret rfl).append (yields_dropCarets_other (.inl (by simp)) (by simp))
    have hPercent : ∀ a ∈ [('^', t), ('^', t), ('!', t)], a.1 ≠ '%' := by simp
    exact yields_escaped_twice rfl hPercent hOnce

theorem yields_literalChar {inQuotes : Bool} {c : Char} (hc : c ∉ '"' :: marks)
    (hBang : c = '!' → expanded = true) :
    Keeps expanded inQuotes
      ((resolveWith expanded (literalChar inQuotes c)).map (·, t)) [(c, t)] := by
  by_cases hPercent : c = '%'
  · subst hPercent
    exact yields_literal_percent t inQuotes
  by_cases hCaret : c = '^'
  · subst hCaret
    exact yields_literal_caret t inQuotes
  by_cases hIsBang : c = '!'
  · subst hIsBang
    rw [hBang rfl]
    exact yields_literal_bang t inQuotes
  obtain ⟨hQuote, hMark⟩ := not_or.mp (List.mem_cons.not.mp hc)
  have hKept : Keeps expanded inQuotes [(c, t)] [(c, t)] := yields_other hPercent hCaret hQuote
  cases inQuotes with
  | true =>
    have hDraft : literalChar true c = [c] := by
      simp [literalChar, quotedChar, hPercent, hCaret, hIsBang]
    rw [hDraft, resolveWith_of_unmarked (by simpa using hMark)]
    exact hKept
  | false =>
    by_cases hOperator : isOperatorChar c = true
    · have hDraft : literalChar false c = ['^', c] := by
        simp [literalChar, unquotedChar, hPercent, hCaret, hIsBang, hOperator]
      have hUnmarked : ∀ d ∈ ['^', c], d ∉ marks :=
        List.forall_mem_cons.mpr ⟨by decide, List.forall_mem_singleton.mpr hMark⟩
      rw [hDraft, resolveWith_of_unmarked hUnmarked]
      exact yields_escaped rfl hPercent hCaret hQuote
    · have hDraft : literalChar false c = [c] := by
        simp [literalChar, unquotedChar, hPercent, hCaret, hIsBang, hOperator]
      rw [hDraft, resolveWith_of_unmarked (by simpa using hMark)]
      exact hKept

theorem yields_literal {inQuotes : Bool} {s : String} (hs : Avoids ('"' :: marks) s)
    (hBang : '!' ∈ s.toList → expanded = true) :
    Keeps expanded inQuotes
      ((resolveWith expanded (literalText inQuotes s).toList).map (·, t)) (s.toList.map (·, t)) := by
  rw [toList_literalText]
  unfold Avoids at hs
  generalize s.toList = cs at hs hBang
  induction cs with
  | nil => exact yields_nil
  | cons c rest ih =>
    obtain ⟨hc, hRest⟩ := List.forall_mem_cons.mp hs
    rw [List.flatMap_cons, resolveWith_append, List.map_append]
    exact (yields_literalChar t hc fun hEq => hBang (hEq ▸ List.mem_cons_self)).append
      (ih hRest fun hMem => hBang (List.mem_cons_of_mem _ hMem))

end

/-- Pieces that can follow when the line is inside quotes or not: each literal is drafted for where
it stands, and the code between them neither takes from a literal nor leaves it in other quotes. -/
inductive Flows : Bool → List Piece → Prop
  | rest {inside : Bool} {ps : List Piece} (h : literalsOf ps = []) : Flows inside ps
  | code {inside after : Bool} {cs ps : List Piece} (hCode : literalsOf cs = [])
      (hText : Neutral inside after (joined cs)) (h : Flows after ps) : Flows inside (cs ++ ps)
  | literal {inside : Bool} {s : String} {ps : List Piece} (hText : Avoids ('"' :: marks) s)
      (h : Flows inside ps) : Flows inside (.literal inside s :: ps)

theorem trace_append_of_code {cs : List Piece} (h : literalsOf cs = []) (expanded : Bool) (n : Nat)
    (ps : List Piece) : trace expanded n (cs ++ ps) =
      (resolveWith expanded (joined cs).toList).map (·, none) ++ trace expanded n ps := by
  induction cs with
  | nil => rfl
  | cons p rest ih =>
    cases p with
    | code t =>
      rw [List.cons_append, trace, ih h, joined_cons, String.toList_append, resolveWith_append,
        List.map_append, List.append_assoc]
      rfl
    | literal inQuotes s => cases h

theorem filter_isSome_eq_nil {line : List (Char × Option Nat)} (h : ∀ a ∈ line, a.2 = none) :
    line.filter (·.2.isSome) = [] := by
  refine List.filter_eq_nil_iff.mpr fun a ha => ?_
  simp [h a ha]

theorem filter_expandFrom_trace {expanded : Bool} (h : Flows inside ps)
    (hBang : ∀ s ∈ literalsOf ps, '!' ∈ s.toList → expanded = true) (n : Nat) :
    (expandFrom expanded inside (trace expanded n ps)).filter (·.2.isSome) =
      tagged n (literalsOf ps) := by
  induction h generalizing n with
  | @rest inside ps hCode =>
    rw [hCode]
    refine filter_isSome_eq_nil fun a ha => ?_
    have hTrace := trace_append_of_code hCode expanded n []
    rw [List.append_nil, trace, List.append_nil] at hTrace
    have hMem := (expandFrom_sublist _ _ _).mem ha
    rw [hTrace] at hMem
    obtain ⟨c, _, rfl⟩ := List.mem_map.mp hMem
    rfl
  | @code inside after cs ps hCode hText _ ih =>
    obtain ⟨x, hx⟩ := hText expanded
    -- What is left of the code was in the code, and none of that belongs to a literal.
    have hNone : ∀ a ∈ x, a.2 = none := by
      intro a ha
      obtain ⟨c, _, rfl⟩ := List.mem_map.mp (mem_of_yields hx ha)
      rfl
    have hLiterals : literalsOf (cs ++ ps) = literalsOf ps := by
      rw [literalsOf, List.filterMap_append]
      exact congrArg (· ++ literalsOf ps) hCode
    rw [hLiterals] at hBang ⊢
    rw [trace_append_of_code hCode, hx, List.filter_append, filter_isSome_eq_nil hNone, ih hBang,
      List.nil_append]
  | @literal inside s ps hText _ ih =>
    obtain ⟨hFirst, hRest⟩ := List.forall_mem_cons.mp hBang
    have hSome : (s.toList.map fun c => (c, some n)).filter (fun a => a.2.isSome) =
        s.toList.map fun c => (c, some n) := by
      refine List.filter_eq_self.mpr fun a ha => ?_
      obtain ⟨c, _, rfl⟩ := List.mem_map.mp ha
      rfl
    rw [trace, yields_literal (some n) hText hFirst, List.filter_append, hSome, ih hRest]
    rfl

structure Leads (inside after : Bool) (texts : List String) (ps : List Piece) : Prop where
  flows : ∀ {rest : List Piece}, Flows after rest → Flows inside (ps ++ rest)
  literals : literalsOf ps = texts

theorem leads_nil : Leads inside inside [] [] :=
  ⟨id, rfl⟩

theorem leads_code {t : String} (h : Neutral inside after t) : Leads inside after [] [.code t] := by
  refine ⟨fun hRest => ?_, rfl⟩
  refine .code rfl ?_ hRest
  rw [joined_cons]
  exact h.append (balanced_of_avoids (by decide) after)

theorem leads_literal (h : Avoids ('"' :: marks) s) : Leads inside inside [s] [.literal inside s] :=
  ⟨.literal h, rfl⟩

theorem Leads.append {texts' : List String} {qs : List Piece} (hp : Leads inside between texts ps)
    (hq : Leads between after texts' qs) : Leads inside after (texts ++ texts') (ps ++ qs) := by
  refine ⟨fun hRest => ?_, ?_⟩
  · rw [List.append_assoc]
    exact hp.flows (hq.flows hRest)
  · rw [literalsOf, List.filterMap_append]
    exact congrArg₂ (· ++ ·) hp.literals hq.literals

theorem Leads.all (h : Leads inside after texts ps) : Flows inside ps ∧ literalsOf ps = texts := by
  have hEnd : Flows after [] := .rest rfl
  have hAll := h.flows hEnd
  rw [List.append_nil] at hAll
  exact ⟨hAll, h.literals⟩

/-- No literal breaks out of its quotes or looks like a mark, and all variables have names. -/
structure Sayable (fs : List Fragment) : Prop where
  texts : ∀ t ∈ fs.filterMap Fragment.text?, Avoids ('"' :: marks) t
  names : ∀ p ∈ fs.filterMap Fragment.place?, p.Named

theorem sayable_append {gs : List Fragment} : Sayable (fs ++ gs) ↔ Sayable fs ∧ Sayable gs := by
  constructor
  · rintro ⟨hTexts, hNames⟩
    rw [List.filterMap_append, List.forall_mem_append] at hTexts hNames
    exact ⟨⟨hTexts.1, hNames.1⟩, ⟨hTexts.2, hNames.2⟩⟩
  · rintro ⟨hf, hg⟩
    constructor
    · rw [List.filterMap_append]
      exact List.forall_mem_append.mpr ⟨hf.texts, hg.texts⟩
    · rw [List.filterMap_append]
      exact List.forall_mem_append.mpr ⟨hf.names, hg.names⟩

theorem drafts_fragmentPiece (inQuotes : Bool) {f : Fragment} (h : Sayable [f]) :
    DraftsUnder Balanced (fragmentPiece inQuotes f)
      fun p => Leads inQuotes inQuotes ([f].filterMap Fragment.text?) [p] := by
  cases f with
  | absent => exact drafts_pure (leads_code (balanced_of_avoids (by decide) inQuotes))
  | text s => exact drafts_pure (leads_literal (h.texts s List.mem_cons_self))
  | read p =>
    have hName : p.Named := h.names p List.mem_cons_self
    exact drafts_bind (drafts_readText spells_balanced hName)
      fun t ht => drafts_pure (leads_code (ht inQuotes))

theorem drafts_fragmentPieces (inQuotes : Bool) (h : Sayable fs) :
    DraftsUnder Balanced (fragmentPieces inQuotes fs)
      (Leads inQuotes inQuotes (fs.filterMap Fragment.text?)) := by
  induction fs with
  | nil => exact drafts_pure leads_nil
  | cons f rest ih =>
    obtain ⟨hFirst, hRest⟩ := sayable_append.mp (show Sayable ([f] ++ rest) from h)
    refine drafts_bind (drafts_fragmentPiece inQuotes hFirst) fun p hp => ?_
    refine drafts_bind (ih hRest) fun ps hps => drafts_pure ?_
    rw [← List.singleton_append, List.filterMap_append]
    exact hp.append hps

def LeadsApart (texts : List String) (ps : List Piece) : Prop :=
  (ps = [] ∧ texts = []) ∨ ∃ qs, ps = .code " " :: qs ∧ Leads false false texts qs

theorem LeadsApart.leads (h : LeadsApart texts ps) : Leads false false texts ps := by
  rcases h with ⟨rfl, rfl⟩ | ⟨qs, rfl, h⟩
  · exact leads_nil
  · exact (leads_code (balanced_of_avoids (by decide) false)).append h

theorem neutral_quoteIf (inQuotes : Bool) :
    Neutral false inQuotes (quoteIf inQuotes) ∧ Neutral inQuotes false (quoteIf inQuotes) := by
  have hPlain : Avoids special (quoteIf inQuotes) := by
    cases inQuotes <;> decide
  constructor
  · exact neutral_of_avoids hPlain (by cases inQuotes <;> decide)
  · exact neutral_of_avoids hPlain (by cases inQuotes <;> decide)

theorem drafts_argumentPieces (inQuotes : Bool) (h : Sayable args.flatten) :
    DraftsUnder Balanced (argumentPieces inQuotes args)
      (LeadsApart (args.flatten.filterMap Fragment.text?)) := by
  induction args with
  | nil => exact drafts_pure (.inl ⟨rfl, rfl⟩)
  | cons a rest ih =>
    rw [List.flatten_cons] at h ⊢
    obtain ⟨hFirst, hRest⟩ := sayable_append.mp h
    obtain ⟨hOpen, hClose⟩ := neutral_quoteIf inQuotes
    refine drafts_bind (drafts_fragmentPieces inQuotes hFirst) fun ps hps => ?_
    refine drafts_bind (ih hRest) fun qs hqs => drafts_pure (.inr ⟨_, rfl, ?_⟩)
    rw [List.filterMap_append]
    exact ((leads_code hOpen).append hps).append ((leads_code hClose).append hqs.leads)

theorem drafts_callPieces (h : Sayable ([callee] ++ args.flatten)) :
    DraftsUnder Balanced (callPieces callee args)
      (Leads false false (([callee] ++ args.flatten).filterMap Fragment.text?)) := by
  obtain ⟨hCallee, hArgs⟩ := sayable_append.mp h
  refine drafts_bind (drafts_fragmentPiece false hCallee) fun p hp => ?_
  refine drafts_bind (drafts_argumentPieces false hArgs) fun ps hps => drafts_pure ?_
  rw [List.filterMap_append]
  exact hp.append hps.leads

theorem drafts_labelCallPieces (hLabel : Avoids ('"' :: marks) label) (h : Sayable args.flatten) :
    DraftsUnder Balanced (labelCallPieces label args) fun ps =>
      Flows false ps ∧ literalsOf ps = args.flatten.filterMap Fragment.text? := by
  refine drafts_bind (drafts_argumentPieces true h) fun ps hps => drafts_pure ?_
  rcases hps with ⟨rfl, hTexts⟩ | ⟨qs, rfl, hqs⟩
  · exact ⟨.rest rfl, hTexts.symm⟩
  · -- The label is not escaped; it is the blank after it that keeps it apart from the arguments.
    have hCall : Neutral false false (joined [.code ("call " ++ label), .code " "]) := by
      have hText : joined [.code ("call " ++ label), .code " "] = "call " ++ (label ++ " ") := by
        simp [joined, Piece.draft, String.append_assoc]
      rw [hText]
      exact (balanced_of_avoids (by decide) false).append (neutral_label hLabel false)
    exact ⟨.code rfl hCall hqs.all.1, hqs.literals⟩

theorem drafts_conditionPieces (h : Sayable (c.left ++ c.right)) :
    DraftsUnder Balanced (conditionPieces c)
      (Leads false false ((c.left ++ c.right).filterMap Fragment.text?)) := by
  obtain ⟨hLeft, hRight⟩ := sayable_append.mp h
  rw [List.filterMap_append]
  have hQuoted : ∀ lead : String, Neutral false true lead → DraftsUnder Balanced (do
      let l ← fragmentPieces true c.left
      let r ← fragmentPieces true c.right
      pure (.code lead :: l ++ .code "\"==\"" :: r ++ [.code "\""]))
      (Leads false false (c.left.filterMap Fragment.text? ++ c.right.filterMap Fragment.text?)) := by
    intro lead hLead
    refine drafts_bind (drafts_fragmentPieces true hLeft) fun l hl => ?_
    refine drafts_bind (drafts_fragmentPieces true hRight) fun r hr => drafts_pure ?_
    have hMiddle : Neutral true true "\"==\"" := neutral_of_avoids (by decide) (by decide)
    have hClose : Neutral true false "\"" := neutral_of_avoids (by decide) (by decide)
    have hAll := (((leads_code hLead).append hl).append ((leads_code hMiddle).append hr)).append
      (leads_code hClose)
    simpa using hAll
  have hBare : ∀ op : CmpOp, DraftsUnder Balanced (do
      let l ← fragmentPieces false c.left
      let r ← fragmentPieces false c.right
      pure (l ++ .code (" " ++ relation op ++ " ") :: r))
      (Leads false false (c.left.filterMap Fragment.text? ++ c.right.filterMap Fragment.text?)) := by
    intro op
    refine drafts_bind (drafts_fragmentPieces false hLeft) fun l hl => ?_
    refine drafts_bind (drafts_fragmentPieces false hRight) fun r hr => drafts_pure ?_
    have hMiddle : Balanced (" " ++ relation op ++ " ") := by
      cases op <;> exact balanced_of_avoids (by decide)
    exact hl.append ((leads_code (hMiddle false)).append hr)
  obtain ⟨op, left, right⟩ := c
  cases op with
  | eq => exact hQuoted "\"" (neutral_of_avoids (by decide) (by decide))
  | ne => exact hQuoted "not \"" (neutral_of_avoids (by decide) (by decide))
  | _ => exact hBare _

theorem drafts_ifPieces (h : Sayable (c.left ++ c.right)) :
    DraftsUnder Balanced (do
      let c ← conditionPieces c
      pure (.code "if " :: c ++ [.code " ("])) fun ps => Flows false ps ∧
        literalsOf ps = (c.left ++ c.right).filterMap Fragment.text? := by
  refine drafts_bind (drafts_conditionPieces h) fun ps hps => drafts_pure ?_
  have hOpen : Balanced "if " := balanced_of_avoids (by decide)
  have hClose : Balanced " (" := balanced_of_avoids (by decide)
  have hAll := ((leads_code (hOpen false)).append hps).append (leads_code (hClose false))
  rw [List.append_nil] at hAll
  exact hAll.all

theorem drafts_setPieces {dst : Place} {value : List Fragment} (hDst : dst.Named)
    (h : Sayable value) : DraftsUnder Balanced (headPieces (.setText dst value)) fun ps =>
      Flows false ps ∧ literalsOf ps = value.filterMap Fragment.text? := by
  refine drafts_bind (drafts_writtenName spells_balanced dst hDst) fun name hName => ?_
  refine drafts_bind (drafts_fragmentPieces true h) fun ps hps => drafts_pure ?_
  have hOpen : Neutral false true "set \"" := neutral_of_avoids (by decide) (by decide)
  have hSign : Balanced "=" := balanced_of_avoids (by decide)
  have hClose : Neutral true false "\"" := neutral_of_avoids (by decide) (by decide)
  have hAll := ((leads_code ((hOpen.append (hName true)).append (hSign true))).append hps).append
    (leads_code hClose)
  rw [List.append_nil] at hAll
  exact hAll.all

theorem drafts_callHead (h : Sayable (Stmt.call callee args).headFragments)
    (hLabel : ∀ t, (Stmt.call callee args).callLabel? = some t → Avoids ('"' :: marks) t) :
    DraftsUnder Balanced (headPieces (.call callee args)) fun ps =>
      Flows false ps ∧ literalsOf ps = (Stmt.call callee args).literals := by
  have hCommand : (Stmt.call callee args).callLabel? = none →
      DraftsUnder Balanced (callPieces callee args) fun ps =>
        Flows false ps ∧ literalsOf ps = (Stmt.call callee args).literals := by
    intro hNone
    have hFragments : (Stmt.call callee args).headFragments = [callee] ++ args.flatten := by
      rw [Stmt.headFragments, hNone]
      rfl
    rw [hFragments] at h
    rw [Stmt.literals, hFragments]
    intro b hLoops
    obtain ⟨hLeads, hLoops'⟩ := drafts_callPieces h b hLoops
    exact ⟨hLeads.all, hLoops'⟩
  cases callee with
  | absent | read => exact hCommand rfl
  | text s =>
    rw [headPieces]
    split
    · next hColon =>
      have hSome : (Stmt.call (.text s) args).callLabel? = some s := if_pos hColon
      have hFragments : (Stmt.call (.text s) args).headFragments = args.flatten := by
        rw [Stmt.headFragments, hSome]
        rfl
      rw [hFragments] at h
      rw [Stmt.literals, hFragments]
      exact drafts_labelCallPieces (hLabel s hSome) h
    · next hColon => exact hCommand (if_neg hColon)

theorem balanced_join {ts : List String} (h : ∀ t ∈ ts, Balanced t) :
    Balanced (String.join ts) := by
  induction ts with
  | nil =>
    rw [String.join_nil]
    exact balanced_of_avoids (by decide)
  | cons t rest ih =>
    obtain ⟨ht, hRest⟩ := List.forall_mem_cons.mp h
    rw [String.join_cons]
    exact ht.append (ih hRest)

theorem flows_linePieces (l : Layout) {s : Stmt} (h : Sayable s.headFragments)
    (hLabel : ∀ t, s.callLabel? = some t → Avoids ('"' :: marks) t)
    (hNames : ∀ p ∈ s.headPlaces, p.Named) :
    Flows false (linePieces l s) ∧ literalsOf (linePieces l s) = s.literals := by
  have hDrafted : DraftsUnder Balanced (headPieces s)
      (fun ps => Flows false ps ∧ literalsOf ps = s.literals) →
      Flows false (linePieces l s) ∧ literalsOf (linePieces l s) = s.literals := by
    intro hs
    obtain ⟨⟨hFlows, hLiterals⟩, hLoops⟩ := hs { outer := l.bound } nofun
    have hFront : Balanced (joined [.code (spaces (4 * l.depth)),
        .code (String.join ((headPieces s).run { outer := l.bound }).2.loops)]) := by
      rw [joined_cons, joined_cons]
      exact (balanced_of_avoids (avoids_spaces (by decide) _)).append
        ((balanced_join hLoops).append (balanced_of_avoids (by decide)))
    exact ⟨.code rfl (hFront false) hFlows, hLiterals⟩
  cases s with
  | absent | raw | comment | label | jump | setNumber => exact ⟨.rest rfl, rfl⟩
  | setText dst value => exact hDrafted (drafts_setPieces (hNames dst List.mem_cons_self) h)
  | call callee args => exact hDrafted (drafts_callHead h hLabel)
  | whenTrue c body | choose c thenBody elseBody => exact hDrafted (drafts_ifPieces h)

theorem any_resolveWith (expanded : Bool) (cs : List Char) :
    (resolveWith expanded cs).any (· == '!') = expands cs := by
  have hChar : ∀ c, (resolveChar expanded c).any (· == '!') =
      (c == '!' || c == quotedBang || c == unquotedBang) := by
    intro c
    by_cases hMark : c ∈ marks
    · have hMarks : ∀ c ∈ marks, (resolveChar expanded c).any (· == '!') =
          (c == '!' || c == quotedBang || c == unquotedBang) := by
        cases expanded <;> decide
      exact hMarks c hMark
    · rw [resolveChar_of_not_mem_marks hMark]
      have hQuoted : (c == quotedBang) = false :=
        beq_eq_false_iff_ne.mpr fun hEq => hMark (hEq ▸ by decide)
      have hUnquoted : (c == unquotedBang) = false :=
        beq_eq_false_iff_ne.mpr fun hEq => hMark (hEq ▸ by decide)
      simp [hQuoted, hUnquoted]
  rw [resolveWith, List.any_flatMap]
  exact congrArg (cs.any ·) (funext hChar)

theorem expands_of_literal (hs : s ∈ literalsOf ps) (hBang : '!' ∈ s.toList) :
    expands (joined ps).toList = true := by
  obtain ⟨p, hp, hLiteral⟩ := List.mem_filterMap.mp hs
  cases p with
  | code t => cases hLiteral
  | literal inQuotes t =>
    cases hLiteral
    have hMark : ∃ c ∈ literalChar inQuotes '!',
        (c == '!' || c == quotedBang || c == unquotedBang) := by
      cases inQuotes with
      | true => exact ⟨quotedBang, List.mem_singleton.mpr rfl, rfl⟩
      | false => exact ⟨unquotedBang, List.mem_singleton.mpr rfl, rfl⟩
    obtain ⟨c, hc, hIsMark⟩ := hMark
    refine List.any_eq_true.mpr ⟨c, ?_, hIsMark⟩
    rw [joined, String.toList_join]
    refine List.mem_flatMap.mpr ⟨_, List.mem_map.mpr ⟨_, hp, rfl⟩, ?_⟩
    rw [Piece.draft, toList_literalText]
    exact List.mem_flatMap.mpr ⟨'!', hBang, hc⟩

/-- When a head line is expanded, the characters that are left of those drafted for a literal are
the characters of the literal, for each of them and whatever variables, slots, loops and other
literals share the line. -/
theorem expandLine_keeps_literals (l : Layout) {s : Stmt}
    (hTexts : ∀ t ∈ s.literals, Avoids ('"' :: marks) t)
    (hLabel : ∀ t, s.callLabel? = some t → Avoids ('"' :: marks) t)
    (hNames : ∀ p ∈ s.headPlaces, p.Named) :
    (renderHead l s).1.text = String.ofList ((tracedLine l s).map Prod.fst) ++ l.lineEnding ∧
      (expandLine (tracedLine l s)).filter (·.2.isSome) = tagged 0 s.literals := by
  have hSayable : Sayable s.headFragments :=
    ⟨hTexts, fun p hp => hNames p (List.mem_append_right _ hp)⟩
  obtain ⟨hFlows, hLiterals⟩ := flows_linePieces l hSayable hLabel hNames
  have hExpands : (tracedLine l s).any (·.1 == '!') = expands (joined (linePieces l s)).toList := by
    have hAny := any_resolveWith (expands (joined (linePieces l s)).toList)
      (joined (linePieces l s)).toList
    rwa [← map_fst_trace _ 0, List.any_map] at hAny
  refine ⟨text_renderHead l s, ?_⟩
  rw [expandLine_eq, hExpands, ← hLiterals]
  exact filter_expandFrom_trace hFlows (fun t ht hBang => expands_of_literal ht hBang) 0

def crowdedTest : Stmt :=
  .choose
    { op := .lt
      left := [.text "50%^!&(", .read (.item (.name "xs") (.read (.name "i"))), .text "^"]
      right := [.read (.slot 1), .text "%|!"] }
    [] []

def crowdedLayout : Layout := { lineEnding := "\n", depth := 1, bound := 2 }

theorem expandLine_keeps_literals_crowdedTest :
    (∀ t ∈ crowdedTest.literals, Avoids ('"' :: marks) t) ∧
    (∀ p ∈ crowdedTest.headPlaces, p.Named) ∧
    (renderHead crowdedLayout crowdedTest).1.text =
      "    for %%c in (!i!) do if 50%%^^^^^^!^&^(!xs[%%c]!^^^^ LSS %~1%%^|^^! (\n" ∧
    (expandLine (tracedLine crowdedLayout crowdedTest)).filter (·.2.isSome) =
      tagged 0 ["50%^!&(", "^", "%|!"] := by
  have hTexts : ∀ t ∈ crowdedTest.literals, Avoids ('"' :: marks) t := by decide
  have hNames : ∀ p ∈ crowdedTest.headPlaces, p.Named := by
    refine List.forall_mem_cons.mpr ⟨⟨?_, ?_⟩, List.forall_mem_singleton.mpr trivial⟩
    · change ∀ c ∈ "xs".toList, isNamePart c = true
      decide
    · change ∀ c ∈ "i".toList, isNamePart c = true
      decide
  refine ⟨hTexts, hNames, by decide, ?_⟩
  exact (expandLine_keeps_literals crowdedLayout hTexts nofun hNames).2

end BatchCompiler.Script
