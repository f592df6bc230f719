import BatchCompiler.Proofs.Script.Rows

/-!
# The line feeds of a script

A script has a line feed for each of its lines, and the line feeds that its texts hold. The escapes
that texts are written with neither add nor remove one, and no loop in front of a line has any.
-/

namespace BatchCompiler.Script

open Target Text

def total {α : Type} (f : α → Nat) : List α → Nat
  | [] => 0
  | a :: rest => f a + total f rest

section

variable {α : Type} {f : α → Nat}

@[simp] theorem total_nil : total f [] = 0 := rfl

@[simp] theorem total_cons (a : α) (rest : List α) : total f (a :: rest) = f a + total f rest := rfl

@[simp] theorem total_append (as bs : List α) : total f (as ++ bs) = total f as + total f bs := by
  induction as with
  | nil => simp
  | cons a rest ih => simp [ih, Nat.add_assoc]

theorem total_flatMap {β γ : Type} {f' : β → Nat} {g : γ → List α} {g' : γ → List β}
    (h : ∀ c, total f (g c) = total f' (g' c)) (cs : List γ) :
    total f (cs.flatMap g) = total f' (cs.flatMap g') := by
  induction cs with
  | nil => rfl
  | cons c rest ih => simp [h, ih]

theorem total_eq_zero_iff {as : List α} : total f as = 0 ↔ ∀ a ∈ as, f a = 0 := by
  induction as with
  | nil => simp
  | cons a rest ih => simp [ih]

end

def feeds (cs : List Char) : Nat := cs.count '\n'

def lineFeeds (s : String) : Nat := feeds s.toList

@[simp] theorem feeds_append (a b : List Char) : feeds (a ++ b) = feeds a + feeds b :=
  List.count_append

@[simp] theorem lineFeeds_append (a b : String) : lineFeeds (a ++ b) = lineFeeds a + lineFeeds b := by
  rw [lineFeeds, String.toList_append, feeds_append]
  rfl

theorem feeds_eq_zero_iff {cs : List Char} : feeds cs = 0 ↔ '\n' ∉ cs :=
  List.count_eq_zero

theorem lineFeeds_of_onOneLine {s : String} (h : OnOneLine s) : lineFeeds s = 0 :=
  feeds_eq_zero_iff.mpr fun hMem => h '\n' hMem List.mem_cons_self

theorem feeds_flatMap {f : Char → List Char} (hFeed : feeds (f '\n') = 1)
    (hOther : ∀ c, c ≠ '\n' → '\n' ∉ f c) (cs : List Char) : feeds (cs.flatMap f) = feeds cs := by
  induction cs with
  | nil => rfl
  | cons c rest ih =>
    rw [List.flatMap_cons, feeds_append, ih]
    by_cases hc : c = '\n'
    · subst hc
      rw [hFeed, feeds, feeds, List.count_cons_self, Nat.add_comm]
    · rw [feeds_eq_zero_iff.mpr (hOther c hc), feeds, feeds, List.count_cons_of_ne hc, Nat.zero_add]

theorem lineFeeds_ofList_flatMap {f : Char → List Char} (hFeed : feeds (f '\n') = 1)
    (hOther : ∀ c, c ≠ '\n' → '\n' ∉ f c) (s : String) :
    lineFeeds (String.ofList (s.toList.flatMap f)) = lineFeeds s := by
  rw [lineFeeds, String.toList_ofList, feeds_flatMap hFeed hOther]
  rfl

theorem lineFeeds_quotedText (s : String) : lineFeeds (quotedText s) = lineFeeds s := by
  refine lineFeeds_ofList_flatMap (by decide) (fun c hc => ?_) s
  have hCaret : '\n' ≠ quotedCaret := by decide
  have hBang : '\n' ≠ quotedBang := by decide
  unfold quotedChar
  grind

theorem lineFeeds_unquotedText (s : String) : lineFeeds (unquotedText s) = lineFeeds s := by
  refine lineFeeds_ofList_flatMap (by decide) (fun c hc => ?_) s
  have hCaret : '\n' ≠ unquotedCaret := by decide
  have hBang : '\n' ≠ unquotedBang := by decide
  unfold unquotedChar
  grind

theorem lineFeeds_doublePercent (s : String) : lineFeeds (doublePercent s) = lineFeeds s := by
  refine lineFeeds_ofList_flatMap (by decide) (fun c hc => ?_) s
  grind

theorem feeds_resolveWith (expanded : Bool) (cs : List Char) :
    feeds (resolveWith expanded cs) = feeds cs := by
  refine feeds_flatMap (by cases expanded <;> decide) (fun c hc => ?_) cs
  unfold resolveChar
  grind

end BatchCompiler.Script

namespace BatchCompiler.Target

open Text Script

def Word.feeds : Word → Nat
  | .text s => lineFeeds s
  | _ => 0

def Word.Whole : Word → Prop :=
  Word.Meets (lineFeeds · = 0) fun _ => True

end BatchCompiler.Target

namespace BatchCompiler.Script

open Target Text

variable {s : Stmt}

def LineSpan.feeds : LineSpan → Nat
  | .item _ => 0
  | .literal _ t => lineFeeds t

theorem endures_lineFeeds : Endures (lineFeeds · = 0) where
  fixed := lineFeeds_of_onOneLine
  append ha hb := by rw [lineFeeds_append, ha, hb]
  doubled h := (lineFeeds_doublePercent _).trans h
  unquoted h := (lineFeeds_unquotedText _).trans h

theorem total_fragmentSpans (q : Bool) (fs : List Fragment) :
    total LineSpan.feeds (fragmentSpans q fs) = total Word.feeds (textWords fs) := by
  refine total_flatMap (fun f => ?_) fs
  cases f <;> rfl

theorem total_headSpans (hWords : ∀ w ∈ s.headWords, w.Whole) :
    total LineSpan.feeds (headSpans s) = total Word.feeds s.headWords := by
  have hCode : ∀ t, (codeSpan t).feeds = 0 := fun _ => rfl
  have hItem : ∀ i, (LineSpan.item i).feeds = 0 := fun _ => rfl
  have hItems : ∀ items : List LineItem, total LineSpan.feeds (items.map .item) = 0 :=
    fun _ => total_eq_zero_iff.mpr (List.forall_mem_map.mpr fun _ _ => rfl)
  cases s with
  | call callee args =>
    have hArgs {spans : List Fragment → List LineSpan}
        (h : ∀ fs, total LineSpan.feeds (spans fs) = total Word.feeds (textWords fs)) :
        total LineSpan.feeds (args.flatMap fun a => codeSpan " " :: spans a) =
          total Word.feeds (args.flatMap textWords) :=
      total_flatMap (fun fs => by simp [hCode, h]) args
    cases callee with
    | text t =>
      have hHead : total Word.feeds (Stmt.call (.text t) args).headWords =
          total Word.feeds (args.flatMap textWords) := Nat.zero_add _
      rw [headSpans, hHead]
      split
      · rw [total_cons, hCode, hArgs fun fs => ?_, Nat.zero_add]
        simp [quotedSpans, total_fragmentSpans, hCode]
      · rw [total_cons, hCode, hArgs (total_fragmentSpans false), Nat.zero_add]
    | _ => exact (hWords _ List.mem_cons_self).elim
  | whenTrue c body | choose c thenBody elseBody =>
    obtain ⟨op, left, right⟩ := c
    cases op <;>
      simp [headSpans, conditionSpans, Stmt.headWords, Comparison.words, total_fragmentSpans, hCode]
  | setText dst value => simp [headSpans, Stmt.headWords, Stmt.words, total_fragmentSpans, hCode, hItem]
  | _ => exact hItems _

theorem drafts_spanFeeds {x : LineSpan} (h : x.Meets (lineFeeds · = 0) fun _ => True) :
    Drafts x.toItem.draft (lineFeeds · = x.feeds) := by
  have hLine {m : Draft String} (h : Drafts m OnOneLine) : Drafts m (lineFeeds · = 0) :=
    fun b hLoops => (h b hLoops).imp_left lineFeeds_of_onOneLine
  rcases x with (t | p | p) | ⟨q, t⟩
  · exact drafts_pure h
  · exact hLine (drafts_writtenLine h)
  · exact hLine (drafts_readLine h)
  · cases q with
    | true => exact drafts_pure (lineFeeds_quotedText t)
    | false => exact drafts_pure (lineFeeds_unquotedText t)

theorem feeds_headText (hWords : ∀ w ∈ s.headWords, w.Whole) (hNames : NamesIn s.headUses) :
    Drafts (headText s) (lineFeeds · = total Word.feeds s.headWords) := by
  have hMeets := meets_headSpans endures_lineFeeds hWords hNames
  rw [headText_eq, ← map_headSpans, ← total_headSpans hWords]
  refine drafts_spans (Q := fun xs t => lineFeeds t = total LineSpan.feeds xs) rfl
    (fun ha hb => ?_) _ fun x hx => drafts_spanFeeds (hMeets x hx)
  rw [lineFeeds_append, ha, hb, total_cons]

theorem feeds_headLine (bound : Nat) (hWords : ∀ w ∈ s.headWords, w.Whole)
    (hNames : NamesIn s.headUses) : feeds (headLine bound s) = total Word.feeds s.headWords := by
  obtain ⟨hText, hLoops⟩ := feeds_headText hWords hNames { outer := bound } (List.forall_mem_nil _)
  have hJoin : lineFeeds (String.join (headDraft bound s).2.loops) = 0 :=
    lineFeeds_of_onOneLine (onOneLine_join hLoops)
  have hDraft : lineFeeds (headDraft bound s).1 = total Word.feeds s.headWords := hText
  have hLine : feeds (resolve (String.join (headDraft bound s).2.loops ++
      (headDraft bound s).1)).toList = total Word.feeds s.headWords := by
    rw [toList_resolve, feeds_resolveWith, ← lineFeeds, lineFeeds_append, hJoin, hDraft, Nat.zero_add]
  cases s with
  | raw t => exact hText
  | _ => exact hLine

theorem feeds_fixedLines : feeds closeLine = 0 ∧ feeds elseLine = 0 ∧ feeds remLine = 0 := by
  decide

theorem total_bodyLines {bound : Nat} {body : List Stmt} :
    total feeds (bodyLines bound body) = total feeds (linesOf bound body) := by
  cases body with
  | nil => simp [bodyLines, linesOf, feeds_fixedLines]
  | cons s rest => rfl

theorem total_of_single {bound : Nat} (hLines : linesOfStmt bound s = [headLine bound s])
    (hHeadWords : s.headWords = s.words) (hHeadUses : s.headUses = s.uses)
    (hWords : ∀ w ∈ s.words, w.Whole) (hNames : NamesIn s.uses) :
    total feeds (linesOfStmt bound s) = total Word.feeds s.words := by
  rw [← hHeadWords] at hWords ⊢
  rw [← hHeadUses] at hNames
  rw [hLines, total_cons, total_nil, feeds_headLine bound hWords hNames, Nat.add_zero]

mutual

theorem total_linesOfStmt (bound : Nat) : (s : Stmt) → (∀ w ∈ s.words, w.Whole) →
    NamesIn s.uses → total feeds (linesOfStmt bound s) = total Word.feeds s.words
  | .whenTrue c body, hWords, hNames => by
    obtain ⟨hHead, hBody⟩ := List.forall_mem_append.mp hWords
    have hHeadLine := feeds_headLine bound (s := .whenTrue c body) hHead
      fun u p hp => hNames u p (List.mem_append_left _ hp)
    have hBodyLines := total_linesOf (innerBound bound (.whenTrue c body)) body hBody
      fun u p hp => hNames u p (List.mem_append_right _ hp)
    rw [linesOfStmt_whenTrue, Stmt.words]
    simp [hHeadLine, total_bodyLines, hBodyLines, feeds_fixedLines, Stmt.headWords]
  | .choose c thenBody elseBody, hWords, hNames => by
    obtain ⟨hFirst, hElse⟩ := List.forall_mem_append.mp hWords
    obtain ⟨hHead, hThen⟩ := List.forall_mem_append.mp hFirst
    have hHeadLine := feeds_headLine bound (s := .choose c thenBody elseBody) hHead
      fun u p hp => hNames u p (List.mem_append_left _ (List.mem_append_left _ hp))
    have hThenLines := total_linesOf (innerBound bound (.choose c thenBody elseBody)) thenBody
      hThen fun u p hp => hNames u p (List.mem_append_left _ (List.mem_append_right _ hp))
    have hElseLines := total_linesOf (innerBound bound (.choose c thenBody elseBody)) elseBody
      hElse fun u p hp => hNames u p (List.mem_append_right _ hp)
    rw [linesOfStmt_choose, Stmt.words]
    simp [hHeadLine, total_bodyLines, hThenLines, hElseLines, feeds_fixedLines,
      Stmt.headWords]
  | .absent, hWords, hNames | .raw _, hWords, hNames | .comment _, hWords, hNames
  | .label _, hWords, hNames | .jump _, hWords, hNames | .setText .., hWords, hNames
  | .setNumber .., hWords, hNames | .call .., hWords, hNames =>
    total_of_single rfl rfl rfl hWords hNames

theorem total_linesOf (bound : Nat) : (code : List Stmt) → (∀ w ∈ wordsOf code, w.Whole) →
    NamesIn (usesOf code) → total feeds (linesOf bound code) = total Word.feeds (wordsOf code)
  | [], _, _ => rfl
  | s :: rest, hWords, hNames => by
    obtain ⟨hFirst, hRest⟩ := List.forall_mem_append.mp hWords
    have hFirstLines := total_linesOfStmt bound s hFirst
      fun u p hp => hNames u p (List.mem_append_left _ hp)
    have hRestLines := total_linesOf bound rest hRest
      fun u p hp => hNames u p (List.mem_append_right _ hp)
    rw [linesOf, wordsOf, total_append, total_append, hFirstLines, hRestLines]

end

theorem feeds_replicate_blank (n : Nat) : feeds (List.replicate n ' ') = 0 := by
  refine feeds_eq_zero_iff.mpr fun hMem => ?_
  cases (List.mem_replicate.mp hMem).2

theorem lineFeeds_of_wrote {ending text : String} {lines : List Line} (hEnding : lineFeeds ending = 1)
    (h : Wrote ending text lines) : lineFeeds text = lines.length + total feeds lines := by
  induction h with
  | nil => rfl
  | cons indent line h ih =>
    have hIndent : lineFeeds (spaces indent) = 0 := by
      rw [lineFeeds, spaces, String.toList_ofList, feeds_replicate_blank]
    have hLine : lineFeeds (String.ofList line) = feeds line := by
      rw [lineFeeds, String.toList_ofList]
    rw [lineFeeds_append, lineFeeds_append, lineFeeds_append, hIndent, hLine, hEnding, ih,
      List.length_cons, total_cons]
    omega

theorem lineFeeds_render {ending script : String} {p : Program}
    (hEnding : ending = "\n" ∨ ending = "\r\n") (hWords : ∀ w ∈ wordsOf p, w.Whole)
    (hNames : NamesIn (usesOf p)) (h : render ending p = .ok script) :
    lineFeeds script = height p + total Word.feeds (wordsOf p) := by
  have hOne : lineFeeds ending = 1 := by
    rcases hEnding with rfl | rfl
    · decide
    · decide
  obtain ⟨r, hr, h⟩ := Lowering.exists_of_bind_eq_ok h
  split at h
  · cases h
  · cases h
    have hWrote := wrote_renderStmts { lineEnding := ending } p r hr
    rw [lineFeeds_of_wrote hOne hWrote, length_linesOf, total_linesOf _ p hWords hNames]

end BatchCompiler.Script
