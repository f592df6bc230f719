import BatchCompiler.Proofs.Script.Heads

/-!
# Lines in pieces

A head line as pieces, some of them the texts of literals, so that it is known of every character of
the finished line which literal it was drafted for.
-/

namespace BatchCompiler.Target

def Fragment.text? : Fragment → Option String
  | .text s => some s
  | _ => none

def Fragment.place? : Fragment → Option Place
  | .read p => some p
  | _ => none

def Stmt.callLabel? : Stmt → Option String
  | .call (.text s) _ => if Text.startsWith ":" s then some s else none
  | _ => none

def Stmt.headFragments : Stmt → List Fragment
  | .setText _ value => value
  | s@(.call callee args) => (if s.callLabel?.isSome then [] else [callee]) ++ args.flatten
  | .whenTrue c _ | .choose c _ _ => c.left ++ c.right
  | _ => []

def Stmt.literals (s : Stmt) : List String :=
  s.headFragments.filterMap Fragment.text?

def Stmt.headPlaces (s : Stmt) : List Place :=
  (match s with
    | .setText dst _ => [dst]
    | _ => []) ++ s.headFragments.filterMap Fragment.place?

end BatchCompiler.Target

namespace BatchCompiler.Script

open Target Text

inductive Piece where
  | code (text : String)
  | literal (inQuotes : Bool) (value : String)

def literalText (inQuotes : Bool) : String → String :=
  if inQuotes then quotedText else unquotedText

def Piece.draft : Piece → String
  | .code t => t
  | .literal inQuotes s => literalText inQuotes s

def Piece.literal? : Piece → Option String
  | .code _ => none
  | .literal _ s => some s

def joined (ps : List Piece) : String :=
  String.join (ps.map Piece.draft)

def literalsOf (ps : List Piece) : List String :=
  ps.filterMap Piece.literal?

def fragmentPiece (inQuotes : Bool) : Fragment → Draft Piece
  | .absent => pure (.code "")
  | .text s => pure (.literal inQuotes s)
  | .read p => Piece.code <$> readText p

def fragmentPieces (inQuotes : Bool) : List Fragment → Draft (List Piece)
  | [] => pure []
  | f :: rest => do
    let p ← fragmentPiece inQuotes f
    let ps ← fragmentPieces inQuotes rest
    pure (p :: ps)

def quoteIf (inQuotes : Bool) : String :=
  if inQuotes then "\"" else ""

def argumentPieces (inQuotes : Bool) : List (List Fragment) → Draft (List Piece)
  | [] => pure []
  | a :: rest => do
    let a ← fragmentPieces inQuotes a
    let rest ← argumentPieces inQuotes rest
    pure (.code " " :: .code (quoteIf inQuotes) :: a ++ .code (quoteIf inQuotes) :: rest)

def conditionPieces (c : Comparison) : Draft (List Piece) :=
  match c.op with
  | .eq => do
    let l ← fragmentPieces true c.left
    let r ← fragmentPieces true c.right
    pure (.code "\"" :: l ++ .code "\"==\"" :: r ++ [.code "\""])
  | .ne => do
    let l ← fragmentPieces true c.left
    let r ← fragmentPieces true c.right
    pure (.code "not \"" :: l ++ .code "\"==\"" :: r ++ [.code "\""])
  | op => do
    let l ← fragmentPieces false c.left
    let r ← fragmentPieces false c.right
    pure (l ++ .code (" " ++ relation op ++ " ") :: r)

def callPieces (callee : Fragment) (args : List (List Fragment)) : Draft (List Piece) := do
  let command ← fragmentPiece false callee
  let args ← argumentPieces false args
  pure (command :: args)

def labelCallPieces (label : String) (args : List (List Fragment)) : Draft (List Piece) := do
  let args ← argumentPieces true args
  pure (.code ("call " ++ label) :: args)

def headPieces : Stmt → Draft (List Piece)
  | .setText dst value => do
    let name ← writtenName dst
    let value ← fragmentPieces true value
    pure (.code ("set \"" ++ name ++ "=") :: value ++ [.code "\""])
  | .call (.text s) args =>
    if startsWith ":" s then labelCallPieces s args else callPieces (.text s) args
  | .call callee args => callPieces callee args
  | .whenTrue c _ | .choose c _ _ => do
    let c ← conditionPieces c
    pure (.code "if " :: c ++ [.code " ("])
  | s => do
    let t ← headText s
    pure [.code t]

def linePieces (l : Layout) (s : Stmt) : List Piece :=
  let drafted := (headPieces s).run { outer := l.bound }
  .code (spaces (4 * l.depth)) :: .code (String.join drafted.2.loops) :: drafted.1

def trace (expanded : Bool) : Nat → List Piece → List (Char × Option Nat)
  | _, [] => []
  | n, .code t :: rest =>
    (resolveWith expanded t.toList).map (·, none) ++ trace expanded n rest
  | n, .literal inQuotes s :: rest =>
    (resolveWith expanded (literalText inQuotes s).toList).map (·, some n) ++
      trace expanded (n + 1) rest

def tracedLine (l : Layout) (s : Stmt) : List (Char × Option Nat) :=
  let ps := linePieces l s
  trace (expands (joined ps).toList) 0 ps

def tagged : Nat → List String → List (Char × Option Nat)
  | _, [] => []
  | n, s :: rest => s.toList.map (·, some n) ++ tagged (n + 1) rest

theorem joined_cons (p : Piece) (ps : List Piece) : joined (p :: ps) = p.draft ++ joined ps := by
  rw [joined, List.map_cons, String.join_cons]
  rfl

theorem joined_append (ps qs : List Piece) : joined (ps ++ qs) = joined ps ++ joined qs := by
  rw [joined, List.map_append, String.join_append]
  rfl

def Matches {α β : Type} (R : α → β → Prop) (m : Draft α) (m' : Draft β) : Prop :=
  ∀ b, R (m b).1 (m' b).1 ∧ (m b).2 = (m' b).2

theorem matches_pure {α β : Type} {R : α → β → Prop} {a : α} {a' : β} (h : R a a') :
    Matches R (pure a) (pure a') :=
  fun _ => ⟨h, rfl⟩

theorem matches_bind {α β γ δ : Type} {R : α → β → Prop} {S : γ → δ → Prop} {m : Draft α}
    {m' : Draft β} {k : α → Draft γ} {k' : β → Draft δ} (h : Matches R m m')
    (hk : ∀ a a', R a a' → Matches S (k a) (k' a')) : Matches S (m >>= k) (m' >>= k') := by
  intro b
  obtain ⟨hResult, hState⟩ := h b
  have hNext := hk _ _ hResult (m b).2
  rwa [congrArg (k' (m' b).1) hState] at hNext

theorem matches_self {α : Type} (m : Draft α) : Matches Eq m m :=
  fun _ => ⟨rfl, rfl⟩

abbrev IsJoined (t : String) (ps : List Piece) : Prop := t = joined ps

theorem matches_fragment (inQuotes : Bool) (f : Fragment) :
    Matches (fun t p => t = p.draft) (fragmentText (literalText inQuotes) f)
      (fragmentPiece inQuotes f) := by
  cases f with
  | absent | text => exact matches_pure rfl
  | read p => exact fun _ => ⟨rfl, rfl⟩

theorem matches_fragments (inQuotes : Bool) (fs : List Fragment) :
    Matches IsJoined (fragmentsText (literalText inQuotes) fs) (fragmentPieces inQuotes fs) := by
  induction fs with
  | nil => exact matches_pure rfl
  | cons f rest ih =>
    refine matches_bind (matches_fragment inQuotes f) fun t p ht => ?_
    refine matches_bind ih fun ts ps hts => matches_pure ?_
    rw [IsJoined, joined_cons, ht, hts]

theorem intercalate_cons_eq (t : String) (ts : List String) :
    " ".intercalate (t :: ts) = t ++ String.join (ts.map (" " ++ ·)) := by
  induction ts generalizing t with
  | nil => simp
  | cons u rest ih =>
    rw [String.intercalate_cons_cons, ih, List.map_cons, String.join_cons]
    simp only [String.append_assoc]

theorem matches_arguments {draft : List Fragment → Draft String} {inQuotes : Bool}
    (hDraft : ∀ fs, Matches (fun t ps => t = quoteIf inQuotes ++ joined ps ++ quoteIf inQuotes)
      (draft fs) (fragmentPieces inQuotes fs))
    (args : List (List Fragment)) :
    Matches (fun ts ps => String.join (ts.map (" " ++ ·)) = joined ps) (argumentTexts draft args)
      (argumentPieces inQuotes args) := by
  induction args with
  | nil => exact matches_pure rfl
  | cons a rest ih =>
    refine matches_bind (hDraft a) fun t ps ht => ?_
    refine matches_bind ih fun ts qs hts => matches_pure ?_
    rw [List.map_cons, String.join_cons, ht, hts]
    simp only [joined_cons, joined_append, Piece.draft, String.append_assoc, List.cons_append]

theorem matches_inQuotes (fs : List Fragment) :
    Matches (fun t ps => t = quoteIf true ++ joined ps ++ quoteIf true) (inQuotes fs)
      (fragmentPieces true fs) := by
  intro b
  obtain ⟨hText, hState⟩ := matches_fragments true fs b
  exact ⟨congrArg (fun t => "\"" ++ t ++ "\"") hText, hState⟩

theorem matches_unquoted (fs : List Fragment) :
    Matches (fun t ps => t = quoteIf false ++ joined ps ++ quoteIf false) (unquoted fs)
      (fragmentPieces false fs) := by
  intro b
  obtain ⟨hText, hState⟩ := matches_fragments false fs b
  refine ⟨hText.trans ?_, hState⟩
  simp [quoteIf]

theorem matches_callText (callee : Fragment) (args : List (List Fragment)) :
    Matches IsJoined (callText callee args) (callPieces callee args) := by
  have hCommand : Matches (fun t p => t = p.draft) (unquoted [callee])
      (fragmentPiece false callee) := by
    intro b
    obtain ⟨hText, hState⟩ := matches_fragment false callee b
    exact ⟨(String.append_empty).trans hText, hState⟩
  refine matches_bind hCommand fun t p ht => ?_
  refine matches_bind (matches_arguments matches_unquoted args) fun ts ps hts => matches_pure ?_
  rw [IsJoined, intercalate_cons_eq, joined_cons, ht, hts]

theorem matches_labelCallText (label : String) (args : List (List Fragment)) :
    Matches IsJoined (labelCallText label args) (labelCallPieces label args) := by
  refine matches_bind (matches_arguments matches_inQuotes args) fun ts ps hts => matches_pure ?_
  rw [IsJoined, String.intercalate_cons_cons, intercalate_cons_eq, joined_cons, hts, Piece.draft,
    String.append_assoc]
  rfl

theorem matches_conditionText (c : Comparison) :
    Matches IsJoined (conditionText c) (conditionPieces c) := by
  have hBoth : ∀ (inQuotes : Bool) (text : String → String → String)
      (pieces : List Piece → List Piece → List Piece),
      (∀ ls rs, text (joined ls) (joined rs) = joined (pieces ls rs)) →
      Matches IsJoined (do
        let l ← fragmentsText (literalText inQuotes) c.left
        let r ← fragmentsText (literalText inQuotes) c.right
        pure (text l r)) (do
        let l ← fragmentPieces inQuotes c.left
        let r ← fragmentPieces inQuotes c.right
        pure (pieces l r)) := by
    intro inQuotes text pieces hText
    refine matches_bind (matches_fragments inQuotes c.left) fun l ls hl => ?_
    refine matches_bind (matches_fragments inQuotes c.right) fun r rs hr => matches_pure ?_
    rw [IsJoined, hl, hr, hText]
  have hQuoted : ∀ (lead : String) (ls rs : List Piece),
      lead ++ joined ls ++ "\"==\"" ++ joined rs ++ "\"" =
        joined (.code lead :: ls ++ .code "\"==\"" :: rs ++ [.code "\""]) := by
    intro lead ls rs
    simp only [joined_cons, joined_append, Piece.draft, String.append_assoc, List.cons_append]
    rfl
  obtain ⟨op, left, right⟩ := c
  cases op with
  | eq => exact hBoth true (fun l r => "\"" ++ l ++ "\"==\"" ++ r ++ "\"") _ (hQuoted "\"")
  | ne => exact hBoth true (fun l r => "not \"" ++ l ++ "\"==\"" ++ r ++ "\"") _ (hQuoted "not \"")
  | _ =>
    refine hBoth false (fun l r => l ++ " " ++ relation _ ++ " " ++ r) _ fun ls rs => ?_
    simp only [joined_cons, joined_append, Piece.draft, String.append_assoc]

theorem matches_headText (s : Stmt) : Matches IsJoined (headText s) (headPieces s) := by
  have hWhole : ∀ m : Draft String, Matches IsJoined m (do
      let t ← m
      pure [.code t]) := by
    intro m b
    refine ⟨?_, rfl⟩
    change (m b).1 = joined [.code (m b).1]
    rw [joined_cons]
    exact String.append_empty.symm
  have hIf : ∀ c : Comparison, Matches IsJoined (do
      let c ← conditionText c
      pure ("if " ++ c ++ " (")) (do
      let c ← conditionPieces c
      pure (.code "if " :: c ++ [.code " ("])) := by
    intro c
    refine matches_bind (matches_conditionText c) fun t ps ht => matches_pure ?_
    simp only [IsJoined, joined_cons, joined_append, Piece.draft, ht, String.append_assoc,
      List.cons_append]
    rfl
  cases s with
  | absent | raw | comment | label | jump | setNumber => exact hWhole _
  | setText dst value =>
    refine matches_bind (matches_self (writtenName dst)) fun name _ hName => ?_
    subst hName
    refine matches_bind (matches_fragments true value) fun t ps ht => matches_pure ?_
    simp only [IsJoined, joined_cons, joined_append, Piece.draft, ht, String.append_assoc,
      List.cons_append]
    rfl
  | call callee args =>
    cases callee with
    | text s =>
      rw [headText, headPieces]
      split
      · exact matches_labelCallText s args
      · exact matches_callText (.text s) args
    | absent => exact matches_callText .absent args
    | read p => exact matches_callText (.read p) args
  | whenTrue c body | choose c thenBody elseBody => exact hIf c

theorem map_fst_trace (expanded : Bool) (n : Nat) (ps : List Piece) :
    (trace expanded n ps).map Prod.fst = resolveWith expanded (joined ps).toList := by
  induction ps generalizing n with
  | nil => rfl
  | cons p rest ih =>
    rw [joined_cons, String.toList_append, resolveWith_append]
    cases p with
    | code t | literal inQuotes s => simp [trace, ih, Piece.draft, Function.comp_def]

theorem avoids_spaces {bad : List Char} (h : ' ' ∉ bad) (n : Nat) : Avoids bad (spaces n) := by
  refine avoids_ofList fun c hc => ?_
  rw [List.eq_of_mem_replicate hc]
  exact h

theorem text_renderHead (l : Layout) (s : Stmt) :
    (renderHead l s).1.text =
      String.ofList ((tracedLine l s).map Prod.fst) ++ l.lineEnding := by
  obtain ⟨hText, hState⟩ := matches_headText s { outer := l.bound }
  have hDraft : joined (linePieces l s) = spaces (4 * l.depth) ++
      (String.join (headDraft l.bound s).2.loops ++ (headDraft l.bound s).1) := by
    rw [linePieces, joined_cons, joined_cons]
    exact congrArg₂ (fun loops text => spaces (4 * l.depth) ++ (String.join loops ++ text))
      (congrArg Bindings.loops hState).symm hText.symm
  have hBlank : expands (spaces (4 * l.depth)).toList = false := by
    refine List.any_eq_false.mpr fun c hc => ?_
    rw [spaces, String.toList_ofList] at hc
    rw [List.eq_of_mem_replicate hc]
    decide
  have hExpands : expands (joined (linePieces l s)).toList =
      expands (String.join (headDraft l.bound s).2.loops ++ (headDraft l.bound s).1).toList := by
    rw [hDraft, String.toList_append, expands, List.any_append]
    exact (congrArg (· || _) hBlank).trans (Bool.false_or _)
  rw [tracedLine, map_fst_trace, hExpands, hDraft, resolveWith_lead (avoids_spaces (by decide) _),
    ← toList_resolve, ← String.toList_append, String.ofList_toList]
  rfl

end BatchCompiler.Script
