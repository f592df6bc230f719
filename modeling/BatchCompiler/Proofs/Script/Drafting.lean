import BatchCompiler.Proofs.Lowering.Words
import BatchCompiler.Proofs.Script.Lines
import BatchCompiler.Proofs.Script.Templates

/-!
# Drafts

What clean code is drafted as. No draft breaks its line, the values that loops bind hold no
parenthesis that would close them, and the first word of a draft tells its statement.
-/

namespace BatchCompiler.Target

open Text

mutual

def Place.Named : Place → Prop
  | .name n => ∀ c ∈ n.toList, isNamePart c = true
  | .item base index => base.Named ∧ index.Named
  | _ => True

def Index.Named : Index → Prop
  | .read p => p.Named
  | _ => True

end

mutual

theorem named_of_rooted : (p : Place) →
    (∀ n, p.base = .name n → ∀ c ∈ n.toList, isNamePart c = true) →
    (∀ q ∈ p.indexPlaces, q.Rooted fun x => ∀ c ∈ x.toList, isNamePart c = true) → p.Named
  | .absent, _, _ | .slot _, _, _ => trivial
  | .name n, hBase, _ => hBase n rfl
  | .item base index, hBase, hPlaces =>
    ⟨named_of_rooted base hBase fun q hq => hPlaces q (List.mem_append_left _ hq),
      index_named_of_rooted index fun q hq => hPlaces q (List.mem_append_right _ hq)⟩

theorem index_named_of_rooted : (i : Index) →
    (∀ q ∈ i.places, q.Rooted fun x => ∀ c ∈ x.toList, isNamePart c = true) → i.Named
  | .absent, _ | .int _, _ | .read .absent, _ | .read (.slot _), _ => trivial
  | .read (.name n), h => by
    obtain ⟨name, hBase, hName⟩ := h (.name n) List.mem_cons_self
    cases hBase
    exact hName
  | .read (.item base index), h => by
    refine named_of_rooted (.item base index) (fun n hn => ?_)
      fun q hq => h q (List.mem_cons_of_mem _ hq)
    obtain ⟨name, hBase, hName⟩ := h (.item base index) List.mem_cons_self
    rw [hn] at hBase
    cases hBase
    exact hName

end

mutual

theorem named_of_mem_indexPlaces : (p : Place) → p.Named → ∀ q ∈ p.indexPlaces, q.Named
  | .absent, _ | .name _, _ | .slot _, _ => List.forall_mem_nil _
  | .item base index, h => List.forall_mem_append.mpr
    ⟨named_of_mem_indexPlaces base h.1, named_of_mem_places index h.2⟩

theorem named_of_mem_places : (i : Index) → i.Named → ∀ q ∈ i.places, q.Named
  | .absent, _ | .int _, _ | .read (.slot _), _ => List.forall_mem_nil _
  | .read .absent, h | .read (.name _), h => List.forall_mem_cons.mpr ⟨h, List.forall_mem_nil _⟩
  | .read (.item base index), h =>
    List.forall_mem_cons.mpr ⟨h, named_of_mem_indexPlaces (.item base index) h⟩

end

theorem named_of_uses {u : Use} {p : Place} (h : NamesIn ((u, p) :: p.indexUses)) : p.Named := by
  refine named_of_rooted p (fun n hn => ?_) fun q hq => ?_
  · rcases h u p List.mem_cons_self with ⟨name, hBase, hName⟩ | ⟨_, hBase⟩
    · rw [hn] at hBase
      cases hBase
      exact hName
    · rw [hn] at hBase
      cases hBase
  · rcases h .index q (List.mem_cons_of_mem _ (List.mem_map.mpr ⟨q, hq, rfl⟩)) with hRooted | ⟨hu, _⟩
    · exact hRooted
    · cases hu

theorem named_of_valueUses {p : Place} (h : NamesIn p.valueUses) : p.Named := by
  cases p with
  | slot n => trivial
  | _ => exact named_of_uses h

def Word.Meets (C W : String → Prop) : Word → Prop
  | .text s => W s
  | .remark s | .label s | .callee s | .raw s => C s
  | .unnamed => False

end BatchCompiler.Target

namespace BatchCompiler.Script

open Target Text

variable {s : String}

def valueEnds : List Char := ')' :: lineBreaks

def loopText (letter : Char) (value : String) : String :=
  "for " ++ String.ofList ['%', '%', letter] ++ " in (" ++ value ++ ") do "

def IsLoop (s : String) : Prop :=
  ∃ letter value, letter ∈ forVariables ∧ Avoids valueEnds value ∧ s = loopText letter value

/-- The draft has the property, and the loops in front of it have theirs. -/
def DraftsUnder {α : Type} (L : String → Prop) (m : Draft α) (P : α → Prop) : Prop :=
  ∀ b : Bindings, (∀ l ∈ b.loops, L l) → P (m b).1 ∧ ∀ l ∈ (m b).2.loops, L l

abbrev Drafts {α : Type} (m : Draft α) (P : α → Prop) : Prop := DraftsUnder IsLoop m P

theorem drafts_pure {α : Type} {L : String → Prop} {P : α → Prop} {a : α} (h : P a) :
    DraftsUnder L (pure a) P :=
  fun _ hLoops => ⟨h, hLoops⟩

theorem drafts_bind {α β : Type} {L : String → Prop} {P : α → Prop} {Q : β → Prop} {m : Draft α}
    {k : α → Draft β} (h : DraftsUnder L m P) (hk : ∀ a, P a → DraftsUnder L (k a) Q) :
    DraftsUnder L (m >>= k) Q := by
  intro b hLoops
  obtain ⟨hResult, hLoops'⟩ := h b hLoops
  exact hk _ hResult _ hLoops'

theorem drafts_bindIndex {L T : String → Prop} {value : String}
    (hName : ∀ c ∈ forVariables, T (String.ofList ['%', '%', c]))
    (hLoop : ∀ c ∈ forVariables, L (loopText c value)) : DraftsUnder L (bindIndex value) T := by
  intro b hLoops
  have hLetter : (if decide (forVariables.length ≤ b.outer + b.loops.length) = true then 'Z'
      else forVariables.getD (b.outer + b.loops.length) 'Z') ∈ forVariables := by
    split
    · decide
    · next hBound =>
      have hLt : b.outer + b.loops.length < forVariables.length := by simpa using hBound
      rw [List.getD_eq_getElem?_getD, List.getElem?_eq_getElem hLt, Option.getD_some]
      exact List.getElem_mem hLt
  refine ⟨hName _ hLetter, fun l hl => ?_⟩
  rcases List.mem_append.mp hl with hl | hl
  · exact hLoops l hl
  · rw [List.mem_singleton.mp hl]
    exact hLoop _ hLetter

/-- A property of all that the names of variables are drafted with, and one of the loops. -/
structure Spells (L T : String → Prop) : Prop where
  empty : T ""
  name : ∀ {n : String}, (∀ c ∈ n.toList, isNamePart c = true) → T n
  slot : ∀ n : Int, T (slotText n)
  int : ∀ z : Int, T (Number.intText z)
  inBangs : ∀ {t : String}, T t → T ("!" ++ t ++ "!")
  item : ∀ {base index : String}, T base → T index → T (base ++ "[" ++ index ++ "]")
  bound : ∀ {value : String}, T value → DraftsUnder L (bindIndex value) T

section

variable {L T : String → Prop} (hT : Spells L T)

include hT

mutual

theorem drafts_writtenName : (p : Place) → p.Named → DraftsUnder L (writtenName p) T
  | .absent, _ => by
    rw [writtenName]
    exact drafts_pure hT.empty
  | .name n, h => by
    rw [writtenName]
    exact drafts_pure (hT.name h)
  | .slot n, _ => by
    rw [writtenName]
    exact drafts_pure (hT.slot n)
  | .item base index, h => by
    rw [writtenName]
    refine drafts_bind (drafts_writtenName base h.1) fun b hb => ?_
    refine drafts_bind (drafts_indexText index h.2) fun i hi => ?_
    exact drafts_pure (hT.item hb hi)

theorem drafts_readName : (p : Place) → p.Named → DraftsUnder L (readName p) T
  | .absent, _ => by
    rw [readName]
    exact drafts_pure hT.empty
  | .name n, h => by
    rw [readName]
    exact drafts_pure (hT.name h)
  | .slot n, _ => by
    rw [readName]
    exact drafts_pure (hT.slot n)
  | .item base index, h => by
    rw [readName]
    have hItem : ∀ i, T i → DraftsUnder L (do
        let base ← readName base
        pure (base ++ "[" ++ i ++ "]")) T := fun i hi =>
      drafts_bind (drafts_readName base h.1) fun b hb => drafts_pure (hT.item hb hi)
    refine drafts_bind (drafts_indexText index h.2) fun i hi => ?_
    dsimp only
    split
    · exact drafts_bind (hT.bound hi) hItem
    · exact drafts_bind (drafts_pure hi) hItem

theorem drafts_indexText : (i : Index) → i.Named → DraftsUnder L (indexText i) T
  | .absent, _ => by
    rw [indexText]
    exact drafts_pure hT.empty
  | .int v, _ => by
    rw [indexText]
    exact drafts_pure (hT.int _)
  | .read (.slot n), _ => by
    rw [indexText]
    exact drafts_pure (hT.slot n)
  | .read .absent, h => by
    rw [indexText]
    · exact drafts_bind (drafts_readName .absent h) fun _ hn => drafts_pure (hT.inBangs hn)
    · exact nofun
  | .read (.name n), h => by
    rw [indexText]
    · exact drafts_bind (drafts_readName (.name n) h) fun _ hn => drafts_pure (hT.inBangs hn)
    · exact nofun
  | .read (.item base index), h => by
    rw [indexText]
    · refine drafts_bind (drafts_readName (.item base index) h) fun _ hn => ?_
      exact drafts_pure (hT.inBangs hn)
    · exact nofun

end

theorem drafts_readText {p : Place} (h : p.Named) : DraftsUnder L (readText p) T := by
  have hName : DraftsUnder L (do
      let name ← readName p
      pure ("!" ++ name ++ "!")) T :=
    drafts_bind (drafts_readName hT p h) fun _ hn => drafts_pure (hT.inBangs hn)
  cases p with
  | slot n => exact drafts_pure (hT.slot n)
  | _ => exact hName

end

theorem spells_value : Spells IsLoop (Avoids valueEnds) where
  empty := by decide
  name h := avoids_of_isNamePart (by decide) h
  slot n := avoids_append (by decide) (avoids_intText (by decide) (by decide) n)
  int z := avoids_intText (by decide) (by decide) z
  inBangs h := avoids_append (avoids_append (by decide) h) (by decide)
  item hBase hIndex :=
    avoids_append (avoids_append (avoids_append hBase (by decide)) hIndex) (by decide)
  bound h := drafts_bindIndex (by decide) fun c hc => ⟨c, _, hc, h, rfl⟩

theorem onOneLine_of_value (h : Avoids valueEnds s) : OnOneLine s :=
  h.mono fun _ => List.mem_cons_of_mem _

theorem drafts_readLine {p : Place} (h : p.Named) : Drafts (readText p) OnOneLine := by
  intro b hLoops
  obtain ⟨hText, hLoops'⟩ := drafts_readText spells_value h b hLoops
  exact ⟨onOneLine_of_value hText, hLoops'⟩

theorem onOneLine_flatMap {f : Char → List Char} (hf : ∀ c, ∀ d ∈ f c, d = c ∨ d ∉ lineBreaks)
    (h : OnOneLine s) : OnOneLine (String.ofList (s.toList.flatMap f)) := by
  refine avoids_ofList fun d hd => ?_
  obtain ⟨c, hc, hdc⟩ := List.mem_flatMap.mp hd
  rcases hf c d hdc with rfl | hSafe
  · exact h _ hc
  · exact hSafe

theorem onOneLine_quotedText (h : OnOneLine s) : OnOneLine (quotedText s) := by
  have hPercent : '%' ∉ lineBreaks := by decide
  have hCaret : quotedCaret ∉ lineBreaks := by decide
  have hBang : quotedBang ∉ lineBreaks := by decide
  refine onOneLine_flatMap (fun c d hd => ?_) h
  unfold quotedChar at hd
  grind

theorem onOneLine_unquotedText (h : OnOneLine s) : OnOneLine (unquotedText s) := by
  have hPercent : '%' ∉ lineBreaks := by decide
  have hCaret : unquotedCaret ∉ lineBreaks := by decide
  have hBang : unquotedBang ∉ lineBreaks := by decide
  have hEscape : '^' ∉ lineBreaks := by decide
  refine onOneLine_flatMap (fun c d hd => ?_) h
  unfold unquotedChar at hd
  grind

theorem onOneLine_doublePercent (h : OnOneLine s) : OnOneLine (doublePercent s) := by
  have hPercent : '%' ∉ lineBreaks := by decide
  refine onOneLine_flatMap (fun c d hd => ?_) h
  grind

structure IsCommand (word : String) : Prop where
  ne_nil : word.toList ≠ []
  part : ∀ c ∈ word.toList, isNamePart c = true
  other : word ∉ "if" :: ownWords

theorem isCommand_of_isName (h : IsName s) (hOwn : s ∉ ownWords) : IsCommand s := by
  refine ⟨h.ne_nil, h.part, fun hMem => ?_⟩
  rcases List.mem_cons.mp hMem with rfl | hMem
  · cases h.keyword
  · exact hOwn hMem

theorem isCommand_set : IsCommand "set" :=
  ⟨by decide, by decide, by decide⟩

theorem isCommand_call : IsCommand "call" :=
  ⟨by decide, by decide, by decide⟩

def IsCommandLine (text : String) : Prop :=
  ∃ word more, IsCommand word ∧ text = word ++ more ∧ (more = "" ∨ ∃ rest, more = " " ++ rest)

theorem isCommandLine_intercalate {word : String} (h : IsCommand word) (args : List String) :
    IsCommandLine (" ".intercalate (word :: args)) := by
  cases args with
  | nil => exact ⟨word, "", h, by rw [String.intercalate_singleton, String.append_empty], .inl rfl⟩
  | cons a rest =>
    refine ⟨word, " " ++ " ".intercalate (a :: rest), h, ?_, .inr ⟨_, rfl⟩⟩
    rw [String.intercalate_cons_cons, String.append_assoc]

theorem unquotedText_of_isNamePart (h : ∀ c ∈ s.toList, isNamePart c = true) :
    unquotedText s = s := by
  have hChar : ∀ c, isNamePart c = true → unquotedChar c = [c] := by
    intro c hc
    have hSpecial : ∀ d ∈ ['%', '^', '!', '&', '|', '<', '>', '(', ')'], c ≠ d := by
      rintro d hd rfl
      have hNone : ∀ d ∈ ['%', '^', '!', '&', '|', '<', '>', '(', ')'], isNamePart d = false := by
        decide
      rw [hNone _ hd] at hc
      cases hc
    simp only [List.forall_mem_cons] at hSpecial
    unfold unquotedChar isOperatorChar
    grind
  have hChars : s.toList.flatMap unquotedChar = s.toList := by
    rw [List.flatMap_congr fun c hc => hChar c (h c hc)]
    exact List.flatMap_singleton' s.toList
  rw [unquotedText, hChars, String.ofList_toList]

def Begins : Stmt → String → Prop
  | .absent, text => text = ""
  | .raw t, text => text = t
  | .comment _, text => ∃ more, text = "rem " ++ more
  | .label n, text => text = ":" ++ n
  | .jump t, text => text = "goto :" ++ t
  | .setText .., text | .setNumber .., text | .call .., text => IsCommandLine text
  | .whenTrue .., text | .choose .., text => ∃ more, text = "if " ++ more ++ " ("

theorem onOneLine_of_raw_mem_setup {t : String} (h : .raw t ∈ Lowering.setup) : OnOneLine t := by
  simp only [Lowering.setup, List.mem_cons, Stmt.raw.injEq, List.not_mem_nil, or_false] at h
  rcases h with rfl | rfl | rfl
  · decide
  · decide
  · decide

theorem isCommandLine_set (lead name value : String) :
    IsCommandLine ("set " ++ lead ++ name ++ "=" ++ value ++ "\"") := by
  refine ⟨"set", " " ++ (lead ++ name ++ "=" ++ value ++ "\""), isCommand_set, ?_, .inr ⟨_, rfl⟩⟩
  have hSet : "set " = "set" ++ " " := rfl
  simp only [hSet, String.append_assoc]

/-! ## Templates -/

def LineSpan.Meets (C W : String → Prop) : LineSpan → Prop
  | .item (.text t) => C t
  | .item (.written p) | .item (.read p) => p.Named
  | .literal _ t => W t

/-- A property that holds of what the code of a line is made of if it holds of its words. -/
structure Endures (C : String → Prop) : Prop where
  fixed : ∀ {t}, OnOneLine t → C t
  append : ∀ {a b}, C a → C b → C (a ++ b)
  doubled : ∀ {t}, C t → C (doublePercent t)
  unquoted : ∀ {t}, C t → C (unquotedText t)

theorem endures_onOneLine : Endures OnOneLine :=
  ⟨id, avoids_append, onOneLine_doublePercent, onOneLine_unquotedText⟩

section

variable {C W : String → Prop} {s : Stmt}

theorem meets_fragmentSpans {q : Bool} {fs : List Fragment}
    (hWords : ∀ w ∈ textWords fs, w.Meets C W) (hNames : NamesIn (textUses fs)) :
    ∀ x ∈ fragmentSpans q fs, x.Meets C W := by
  intro x hx
  obtain ⟨f, hf, hx⟩ := List.mem_flatMap.mp hx
  cases f with
  | absent => cases hx
  | text t =>
    cases List.mem_singleton.mp hx
    exact hWords _ (List.mem_flatMap.mpr ⟨_, hf, List.mem_cons_self⟩)
  | read p =>
    cases List.mem_singleton.mp hx
    exact named_of_valueUses fun u r hr => hNames u r (List.mem_flatMap.mpr ⟨_, hf, hr⟩)

variable (hC : Endures C)

include hC

theorem meets_arithItems : (e : Arith) → NamesIn e.uses →
    ∀ i ∈ arithItems e, LineSpan.Meets C W (.item i)
  | .absent, _ => List.forall_mem_nil _
  | .int v, _ => List.forall_mem_singleton.mpr (hC.fixed (Lowering.onOneLine_intText _))
  | .read p, h => List.forall_mem_singleton.mpr (named_of_valueUses h)
  | .unary op e, h =>
    have hOp : C (opText op) := hC.fixed (by cases op <;> decide)
    List.forall_mem_cons.mpr ⟨hOp, meets_arithItems e h⟩
  | .binary op l r, h => by
    have hLeft := meets_arithItems l fun u p hp => h u p (List.mem_append_left _ hp)
    have hRight := meets_arithItems r fun u p hp => h u p (List.mem_append_right _ hp)
    have hOp : C (" " ++ opText op ++ " ") := hC.fixed (by cases op <;> decide)
    have hOpen : C "(" := hC.fixed (by decide)
    have hClose : C ")" := hC.fixed (by decide)
    simp only [arithItems, List.forall_mem_append, List.forall_mem_cons]
    exact ⟨⟨⟨hOpen, hLeft⟩, hOp, hRight⟩, hClose, List.forall_mem_nil _⟩

theorem meets_conditionSpans {c : Comparison} (hWords : ∀ w ∈ c.words, w.Meets C W)
    (hNames : NamesIn c.uses) : ∀ x ∈ conditionSpans c, x.Meets C W := by
  have hText : ∀ {t}, OnOneLine t → (codeSpan t).Meets C W := hC.fixed
  obtain ⟨op, left, right⟩ := c
  obtain ⟨hLeft, hRight⟩ := List.forall_mem_append.mp hWords
  have hFirst {q} := meets_fragmentSpans (q := q) hLeft
    fun u p hp => hNames u p (List.mem_append_left _ hp)
  have hSecond {q} := meets_fragmentSpans (q := q) hRight
    fun u p hp => hNames u p (List.mem_append_right _ hp)
  cases op <;> simp only [conditionSpans, List.forall_mem_append, List.forall_mem_cons]
  case eq | ne =>
    exact ⟨⟨⟨hText (by decide), hFirst⟩, hText (by decide), hSecond⟩, hText (by decide),
      List.forall_mem_nil _⟩
  all_goals exact ⟨hFirst, hText (by decide), hSecond⟩

theorem meets_arguments {spans : List Fragment → List LineSpan} {args : List (List Fragment)}
    (hSpans : ∀ a ∈ args, ∀ x ∈ spans a, x.Meets C W) :
    ∀ x ∈ args.flatMap fun a => codeSpan " " :: spans a, x.Meets C W := by
  intro x hx
  obtain ⟨a, ha, hx⟩ := List.mem_flatMap.mp hx
  rcases List.mem_cons.mp hx with rfl | hx
  · exact hC.fixed (by decide)
  · exact hSpans a ha x hx

theorem meets_headSpans (hWords : ∀ w ∈ s.headWords, w.Meets C W) (hNames : NamesIn s.headUses) :
    ∀ x ∈ headSpans s, x.Meets C W := by
  have hText : ∀ {t}, OnOneLine t → (codeSpan t).Meets C W := hC.fixed
  have hWord : ∀ {w}, w ∈ s.headWords → w.Meets C W := hWords _
  cases s with
  | absent => exact List.forall_mem_nil _
  | raw t => exact List.forall_mem_singleton.mpr (hWord List.mem_cons_self)
  | comment t =>
    have hRemark : C t := hWord List.mem_cons_self
    exact List.forall_mem_singleton.mpr (hC.append (hC.fixed (by decide)) (hC.doubled hRemark))
  | label n | jump n =>
    have hName : C n := hWord List.mem_cons_self
    exact List.forall_mem_singleton.mpr (hC.append (hC.fixed (by decide)) hName)
  | setText dst value =>
    have hDst : dst.Named := named_of_uses fun u p hp => hNames u p (List.mem_append_left _ hp)
    have hValue := meets_fragmentSpans (q := true) hWords
      fun u p hp => hNames u p (List.mem_append_right _ hp)
    simp only [headSpans, List.forall_mem_append, List.forall_mem_cons]
    exact ⟨⟨hText (by decide), hDst, hText (by decide), hValue⟩, hText (by decide),
      List.forall_mem_nil _⟩
  | setNumber dst e =>
    have hDst : dst.Named := named_of_uses fun u p hp => hNames u p (List.mem_append_left _ hp)
    have hValue := meets_arithItems hC (W := W) e fun u p hp => hNames u p (List.mem_append_right _ hp)
    simp only [headSpans, headItems, List.forall_mem_map, List.forall_mem_append, List.forall_mem_cons]
    exact ⟨⟨hText (by decide), hDst, hText (by decide), hValue⟩, hText (by decide),
      List.forall_mem_nil _⟩
  | call callee args =>
    obtain ⟨hCallee, hArgs⟩ := List.forall_mem_cons.mp hWords
    have hSpans {q} : ∀ a ∈ args, ∀ x ∈ fragmentSpans q a, x.Meets C W := fun a ha =>
      meets_fragmentSpans (fun w hw => hArgs w (List.mem_flatMap.mpr ⟨a, ha, hw⟩))
        fun u p hp => hNames u p (List.mem_append_right _ (List.mem_flatMap.mpr ⟨a, ha, hp⟩))
    cases callee with
    | text t =>
      rw [headSpans]
      split
      · refine List.forall_mem_cons.mpr ⟨hC.append (hC.fixed (by decide)) hCallee, ?_⟩
        refine meets_arguments hC fun a ha => ?_
        simp only [quotedSpans, List.forall_mem_append, List.forall_mem_cons]
        exact ⟨⟨hText (by decide), hSpans a ha⟩, hText (by decide), List.forall_mem_nil _⟩
      · exact List.forall_mem_cons.mpr ⟨hC.unquoted hCallee, meets_arguments hC hSpans⟩
    | _ => exact hCallee.elim
  | whenTrue c body | choose c thenBody elseBody =>
    simp only [headSpans, List.forall_mem_append, List.forall_mem_cons]
    exact ⟨⟨hText (by decide), meets_conditionSpans hC hWords hNames⟩, hText (by decide),
      List.forall_mem_nil _⟩

end

theorem drafts_spans {L : String → Prop} {P : LineSpan → String → Prop}
    {Q : List LineSpan → String → Prop} (hNil : Q [] "")
    (hCons : ∀ {x rest a b}, P x a → Q rest b → Q (x :: rest) (a ++ b)) :
    (xs : List LineSpan) → (∀ x ∈ xs, DraftsUnder L x.toItem.draft (P x)) →
      DraftsUnder L (draftItems (xs.map LineSpan.toItem)) (Q xs)
  | [], _ => drafts_pure hNil
  | x :: rest, h => by
    obtain ⟨hFirst, hRest⟩ := List.forall_mem_cons.mp h
    refine drafts_bind hFirst fun a ha => ?_
    exact drafts_bind (drafts_spans hNil hCons rest hRest) fun b hb => drafts_pure (hCons ha hb)

theorem drafts_writtenLine {p : Place} (h : p.Named) : Drafts (writtenName p) OnOneLine :=
  fun b hLoops => (drafts_writtenName spells_value p h b hLoops).imp_left onOneLine_of_value

theorem drafts_span {x : LineSpan} (h : x.Meets OnOneLine OnOneLine) :
    Drafts x.toItem.draft OnOneLine := by
  rcases x with (t | p | p) | ⟨q, t⟩
  · exact drafts_pure h
  · exact drafts_writtenLine h
  · exact drafts_readLine h
  · cases q with
    | true => exact drafts_pure (onOneLine_quotedText h)
    | false => exact drafts_pure (onOneLine_unquotedText h)

theorem meets_of_clean {w : Word} (h : w.Clean) : w.Meets OnOneLine OnOneLine := by
  cases w with
  | text s | remark s => exact h
  | label s => exact onOneLine_of_isNamePart h
  | callee s => exact h.1
  | raw s => exact onOneLine_of_raw_mem_setup h
  | unnamed => exact h

theorem meets_of_cleanStmt {s : Stmt} (h : s.Clean) :
    ∀ x ∈ headSpans s, x.Meets OnOneLine OnOneLine := by
  obtain ⟨hWords, hUses⟩ := headWords_subset s
  exact meets_headSpans endures_onOneLine (fun w hw => meets_of_clean (h.words w (hWords hw)))
    fun u p hp => h.names u p (hUses hp)

theorem begins_headText {s : Stmt} (h : s.Clean) (b : Bindings) : Begins s (headText s b).1 := by
  cases s with
  | absent | raw | label | jump => rfl
  | comment t => exact ⟨_, rfl⟩
  | setText dst value => exact isCommandLine_set "\"" _ _
  | setNumber dst e => exact isCommandLine_set "/a \"" _ _
  | call callee args =>
    have hCallee := h.words _ List.mem_cons_self
    cases callee with
    | text name =>
      rw [headText]
      split
      · exact isCommandLine_intercalate isCommand_call _
      · next hLabel =>
        rcases hCallee.2 with hStart | ⟨hName, hOwn⟩
        · exact absurd hStart hLabel
        · have hCommand : (unquoted [.text name] b).1 = name :=
            String.append_empty.trans (unquotedText_of_isNamePart hName.part)
          have hLine := isCommandLine_intercalate (isCommand_of_isName hName hOwn)
            (argumentTexts unquoted args (unquoted [.text name] b).2).1
          rwa [← hCommand] at hLine
    | absent | read => cases hCallee
  | whenTrue c body | choose c thenBody elseBody => exact ⟨_, rfl⟩

theorem drafts_headText {s : Stmt} (h : s.Clean) :
    Drafts (headText s) fun t => OnOneLine t ∧ Begins s t := by
  intro b hLoops
  have hSpans := drafts_spans (Q := fun _ => OnOneLine) (by decide) avoids_append _
    (fun x hx => drafts_span (meets_of_cleanStmt h x hx)) b hLoops
  rw [map_headSpans, ← headText_eq] at hSpans
  exact ⟨⟨hSpans.1, begins_headText h b⟩, hSpans.2⟩

end BatchCompiler.Script
