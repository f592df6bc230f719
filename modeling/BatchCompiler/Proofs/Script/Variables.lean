import BatchCompiler.Proofs.Script.Drafting

/-!
# Variables of lines

A line in parts, some of them variables that the loops in front of it bind. Where a place is read, a
variable stands for every index that is itself read, and it is bound to just that index. Each draft
binds as many variables as there are such indices, and every one of them is used once.
-/

namespace BatchCompiler.Script

open Target Text

inductive Part where
  | text (t : String)
  | variable (letter : Char)

def Part.draft : Part → String
  | .text t => t
  | .variable letter => String.ofList ['%', '%', letter]

def Part.letter? : Part → Option Char
  | .text _ => none
  | .variable letter => some letter

def drafted (ps : List Part) : String :=
  String.join (ps.map Part.draft)

def lettersIn (ps : List Part) : List Char :=
  ps.filterMap Part.letter?

structure Loop where
  letter : Char
  value : List Part

def Loop.text (l : Loop) : String :=
  loopText l.letter (drafted l.value)

mutual

inductive ReadAs (loops : List Loop) : Place → List Part → Prop where
  | absent : ReadAs loops .absent []
  | name (n : String) : ReadAs loops (.name n) [.text n]
  | slot (n : Int) : ReadAs loops (.slot n) [.text (slotText n)]
  | item {base : Place} {index : Index} {ps qs : List Part} (hFixed : isVariable index = false)
    (hIndex : IndexAs loops index qs) (hBase : ReadAs loops base ps) :
    ReadAs loops (.item base index) (ps ++ .text "[" :: qs ++ [.text "]"])
  | bound {base : Place} {index : Index} {ps : List Part} {l : Loop}
    (hVariable : isVariable index = true) (hLoop : l ∈ loops) (hIndex : IndexAs loops index l.value)
    (hBase : ReadAs loops base ps) :
    ReadAs loops (.item base index) (ps ++ .text "[" :: [.variable l.letter] ++ [.text "]"])

inductive IndexAs (loops : List Loop) : Index → List Part → Prop where
  | absent : IndexAs loops .absent []
  | int (v : Int64) : IndexAs loops (.int v) [.text (Number.intText v.toInt)]
  | slot (n : Int) : IndexAs loops (.read (.slot n)) [.text (slotText n)]
  | read {p : Place} {ps : List Part} (hRead : isVariable (.read p) = true) (h : ReadAs loops p ps) :
    IndexAs loops (.read p) (.text "!" :: ps ++ [.text "!"])

end

/-- How a place is written where it is assigned. Its own indices need no variables. -/
inductive WrittenAs (loops : List Loop) : Place → List Part → Prop where
  | absent : WrittenAs loops .absent []
  | name (n : String) : WrittenAs loops (.name n) [.text n]
  | slot (n : Int) : WrittenAs loops (.slot n) [.text (slotText n)]
  | item {base : Place} {index : Index} {ps qs : List Part} (hBase : WrittenAs loops base ps)
    (hIndex : IndexAs loops index qs) :
    WrittenAs loops (.item base index) (ps ++ .text "[" :: qs ++ [.text "]"])

inductive ItemAs (loops : List Loop) : LineItem → List Part → Prop where
  | text (t : String) : ItemAs loops (.text t) [.text t]
  | written {p : Place} {ps : List Part} (h : WrittenAs loops p ps) : ItemAs loops (.written p) ps
  | slot (n : Int) : ItemAs loops (.read (.slot n)) [.text (slotText n)]
  | read {p : Place} {ps : List Part} (hRead : isVariable (.read p) = true) (h : ReadAs loops p ps) :
    ItemAs loops (.read p) (.text "!" :: ps ++ [.text "!"])

inductive ItemsAs (loops : List Loop) : List LineItem → List Part → Prop where
  | nil : ItemsAs loops [] []
  | cons {i : LineItem} {rest : List LineItem} {ps qs : List Part} (h : ItemAs loops i ps)
    (hRest : ItemsAs loops rest qs) : ItemsAs loops (i :: rest) (ps ++ qs)

mutual

def readCount : Place → Nat
  | .item base index => indexCount index + (isVariable index).toNat + readCount base
  | _ => 0

def indexCount : Index → Nat
  | .read p => readCount p
  | _ => 0

end

def writtenCount : Place → Nat
  | .item base index => writtenCount base + indexCount index
  | _ => 0

def LineItem.count : LineItem → Nat
  | .text _ => 0
  | .written p => writtenCount p
  | .read p => readCount p

def LineItem.places : LineItem → List Place
  | .text _ => []
  | .written p | .read p => p.indexPlaces

def itemsCount : List LineItem → Nat
  | [] => 0
  | i :: rest => i.count + itemsCount rest

/-- The variable that the loop with this number binds; the last one serves when there are no more. -/
def letterAt (n : Nat) : Char :=
  forVariables.getD n 'Z'

/-- The bindings of a draft stand for these loops, which bind the variables after the first `outer`
ones, each to a value as `V` says with variables that were bound before. -/
structure Standing (V : List Part → Prop) (outer : Nat) (loops : List Loop) (b : Bindings) : Prop where
  outer_eq : b.outer = outer
  loops_eq : b.loops = loops.map Loop.text
  letters_eq : loops.map Loop.letter = (List.range' outer loops.length).map letterAt
  earlier : ∀ before l after, loops = before ++ l :: after →
    ∀ c ∈ lettersIn l.value, c ∈ before.map Loop.letter
  valued : ∀ l ∈ loops, V l.value
  overflow_iff : b.overflow = true ↔ loops ≠ [] ∧ 52 < outer + loops.length

theorem standing_nil (V : List Part → Prop) (outer : Nat) :
    Standing V outer [] { outer := outer } where
  outer_eq := rfl
  loops_eq := rfl
  letters_eq := rfl
  earlier := by simp
  valued := by simp
  overflow_iff := by simp

def mentions (loops : List Loop) : List Char :=
  loops.flatMap fun l => lettersIn l.value

/-- The draft binds so many further variables. Each of them is used once, and the parts of the draft
are as `P` says behind all loops that include these. -/
def Writes (V : List Part → Prop) (n : Nat) (m : Draft String)
    (P : List Loop → List Part → Prop) : Prop :=
  ∀ outer loops b, Standing V outer loops b → ∃ more parts,
    Standing V outer (loops ++ more) (m b).2 ∧ (m b).1 = drafted parts ∧ more.length = n ∧
    (mentions more ++ lettersIn parts).Perm (more.map Loop.letter) ∧
    ∀ final, loops ++ more ⊆ final → P final parts

@[simp] theorem drafted_nil : drafted [] = "" := by
  simp [drafted]

@[simp] theorem drafted_cons (p : Part) (ps : List Part) : drafted (p :: ps) = p.draft ++ drafted ps := by
  simp [drafted]

@[simp] theorem drafted_append (ps qs : List Part) : drafted (ps ++ qs) = drafted ps ++ drafted qs := by
  simp [drafted]

@[simp] theorem lettersIn_nil : lettersIn [] = [] := rfl

@[simp] theorem lettersIn_text (t : String) (ps : List Part) : lettersIn (.text t :: ps) = lettersIn ps :=
  rfl

@[simp] theorem lettersIn_variable (c : Char) (ps : List Part) :
    lettersIn (.variable c :: ps) = c :: lettersIn ps := rfl

@[simp] theorem lettersIn_append (ps qs : List Part) :
    lettersIn (ps ++ qs) = lettersIn ps ++ lettersIn qs :=
  List.filterMap_append ..

section

variable {V : List Part → Prop}

variable {n : Nat} {m : Draft String} {P : List Loop → List Part → Prop} {p : Place}

theorem Writes.imp {Q : List Loop → List Part → Prop} (h : Writes V n m P)
    (hImp : ∀ final parts, P final parts → Q final parts) : Writes V n m Q := by
  intro outer loops b hb
  obtain ⟨more, parts, hStanding, hText, hLength, hUsed, hParts⟩ := h outer loops b hb
  exact ⟨more, parts, hStanding, hText, hLength, hUsed, fun final hFinal => hImp _ _ (hParts final hFinal)⟩

theorem writes_pure {text : String} {parts : List Part} {P : List Loop → List Part → Prop}
    (hText : text = drafted parts) (hLetters : lettersIn parts = []) (hP : ∀ final, P final parts) :
    Writes V 0 (pure text) P := by
  intro outer loops b hb
  refine ⟨[], parts, ?_, hText, rfl, ?_, fun final _ => hP final⟩
  · rwa [List.append_nil]
  · simp [hLetters, mentions]

theorem writes_text (t : String) {P : List Loop → List Part → Prop}
    (hP : ∀ final, P final [.text t]) : Writes V 0 (pure t) P :=
  writes_pure (by simp [Part.draft]) rfl hP

theorem Writes.around (h : Writes V n m P) (lead tail : String) :
    Writes V n (do
      let t ← m
      pure (lead ++ t ++ tail)) fun final parts =>
        ∃ ps, P final ps ∧ parts = .text lead :: ps ++ [.text tail] := by
  intro outer loops b hb
  obtain ⟨more, parts, hStanding, hText, hLength, hUsed, hParts⟩ := h outer loops b hb
  refine ⟨more, .text lead :: parts ++ [.text tail], hStanding, ?_, hLength, ?_, ?_⟩
  · change lead ++ (m b).1 ++ tail = _
    simp [hText, Part.draft, String.append_assoc]
  · simpa using hUsed
  · intro final hFinal
    exact ⟨parts, hParts final hFinal, rfl⟩

theorem Writes.both {n' : Nat} {m' : Draft String} {P' : List Loop → List Part → Prop}
    (h : Writes V n m P) (h' : Writes V n' m' P') {f : String → String → String}
    {g : List Part → List Part → List Part}
    (hText : ∀ ps qs, f (drafted ps) (drafted qs) = drafted (g ps qs))
    (hLetters : ∀ ps qs, (lettersIn (g ps qs)).Perm (lettersIn ps ++ lettersIn qs)) :
    Writes V (n + n') (do
      let s ← m
      let t ← m'
      pure (f s t)) fun final parts => ∃ ps qs, P final ps ∧ P' final qs ∧ parts = g ps qs := by
  intro outer loops b hb
  obtain ⟨more, ps, hStanding, hText₁, hLength, hUsed, hParts⟩ := h outer loops b hb
  obtain ⟨more', qs, hStanding', hText₂, hLength', hUsed', hParts'⟩ :=
    h' outer (loops ++ more) (m b).2 hStanding
  rw [List.append_assoc] at hStanding' hParts'
  refine ⟨more ++ more', g ps qs, hStanding', ?_, ?_, ?_, ?_⟩
  · change f (m b).1 (m' (m b).2).1 = _
    rw [hText₁, hText₂, hText]
  · rw [List.length_append, hLength, hLength']
  · have hCount := List.perm_iff_count.mp hUsed
    have hCount' := List.perm_iff_count.mp hUsed'
    refine List.perm_iff_count.mpr fun c => ?_
    have hc := hCount c
    have hc' := hCount' c
    have hg := (hLetters ps qs).count_eq c
    simp only [mentions, List.flatMap_append, List.map_append, List.count_append] at hc hc' hg ⊢
    omega
  · intro final hFinal
    have hSub : loops ++ more ⊆ final := by
      intro x hx
      apply hFinal
      rw [← List.append_assoc]
      exact List.mem_append_left _ hx
    exact ⟨ps, qs, hParts final hSub, hParts' final hFinal, rfl⟩

theorem letterAt_mem_forVariables (n : Nat) : letterAt n ∈ forVariables := by
  rw [letterAt, List.getD_eq_getElem?_getD]
  cases h : forVariables[n]? with
  | none => decide
  | some c => exact List.mem_of_getElem? h

theorem letter_eq_letterAt (n : Nat) :
    (if decide (forVariables.length ≤ n) = true then 'Z' else forVariables.getD n 'Z') = letterAt n := by
  split
  · next hLarge =>
    have hNone := List.getElem?_eq_none (of_decide_eq_true hLarge)
    rw [letterAt, List.getD_eq_getElem?_getD, hNone, Option.getD_none]
  · rfl

theorem earlier_append {loops : List Loop} {new : Loop}
    (h : ∀ before l after, loops = before ++ l :: after →
      ∀ c ∈ lettersIn l.value, c ∈ before.map Loop.letter)
    (hNew : ∀ c ∈ lettersIn new.value, c ∈ loops.map Loop.letter) :
    ∀ before l after, loops ++ [new] = before ++ l :: after →
      ∀ c ∈ lettersIn l.value, c ∈ before.map Loop.letter := by
  intro before l after hSplit
  rcases List.eq_nil_or_concat after with rfl | ⟨after, last, rfl⟩
  · obtain ⟨rfl, hLast⟩ := List.append_inj' hSplit rfl
    obtain rfl := (List.cons.inj hLast).1
    exact hNew
  · have hConcat : before ++ l :: after.concat last = (before ++ l :: after) ++ [last] := by simp
    obtain ⟨hLoops, -⟩ := List.append_inj' (hSplit.trans hConcat) rfl
    exact h before l after hLoops

theorem Standing.bind {outer : Nat} {loops : List Loop} {b : Bindings} (h : Standing V outer loops b)
    {value : List Part} (hValue : ∀ c ∈ lettersIn value, c ∈ loops.map Loop.letter) (hV : V value) :
    Standing V outer (loops ++ [⟨letterAt (outer + loops.length), value⟩])
      (bindIndex (drafted value) b).2 ∧
    (bindIndex (drafted value) b).1 = drafted [.variable (letterAt (outer + loops.length))] := by
  have hCount : b.outer + b.loops.length = outer + loops.length := by
    rw [h.outer_eq, h.loops_eq, List.length_map]
  have hBind : bindIndex (drafted value) b =
      (String.ofList ['%', '%', letterAt (outer + loops.length)],
        { outer := b.outer
          loops := b.loops ++ [loopText (letterAt (outer + loops.length)) (drafted value)]
          overflow := b.overflow || decide (forVariables.length ≤ outer + loops.length) }) := by
    unfold bindIndex
    simp only [letter_eq_letterAt, hCount]
    rfl
  rw [hBind]
  refine ⟨⟨h.outer_eq, ?_, ?_, ?_, ?_, ?_⟩, ?_⟩
  · simp [h.loops_eq, Loop.text]
  · simp [h.letters_eq, List.range'_concat]
  · exact earlier_append h.earlier hValue
  · exact List.forall_mem_append.mpr ⟨h.valued, List.forall_mem_singleton.mpr hV⟩
  · have hLength : forVariables.length = 52 := by decide
    rw [Bool.or_eq_true, h.overflow_iff, decide_eq_true_eq, hLength]
    simp only [List.length_append, List.length_singleton, ne_eq, List.append_eq_nil_iff,
      List.cons_ne_nil, and_false, not_false_eq_true, true_and]
    omega
  · simp [Part.draft]

theorem Writes.bound (h : Writes V n m P) (hV : ∀ final value, P final value → V value) :
    Writes V (n + 1) (m >>= bindIndex) fun final parts =>
      ∃ l ∈ final, P final l.value ∧ parts = [.variable l.letter] := by
  intro outer loops b hb
  obtain ⟨more, value, hStanding, hText, hLength, hUsed, hParts⟩ := h outer loops b hb
  have hValue : ∀ c ∈ lettersIn value, c ∈ (loops ++ more).map Loop.letter := by
    intro c hc
    rw [List.map_append]
    exact List.mem_append_right _ (hUsed.subset (List.mem_append_right _ hc))
  obtain ⟨hNext, hName⟩ := hStanding.bind hValue (hV _ _ (hParts _ (List.Subset.refl _)))
  rw [← hText, List.append_assoc] at hNext
  rw [← hText] at hName
  let l : Loop := ⟨letterAt (outer + (loops ++ more).length), value⟩
  refine ⟨more ++ [l], [.variable l.letter], hNext, hName, ?_, ?_, ?_⟩
  · rw [List.length_append, hLength, List.length_singleton]
  · have hCount := List.perm_iff_count.mp hUsed
    refine List.perm_iff_count.mpr fun c => ?_
    have hc := hCount c
    have hNew : lettersIn l.value = lettersIn value := rfl
    simp only [mentions, List.flatMap_append, List.flatMap_cons, List.flatMap_nil, List.map_append,
      List.map_cons, List.map_nil, lettersIn_variable, lettersIn_nil, List.count_append,
      List.append_nil, hNew] at hc ⊢
    omega
  · intro final hFinal
    refine ⟨l, hFinal ?_, hParts final ?_, rfl⟩
    · simp
    · intro x hx
      apply hFinal
      rw [← List.append_assoc]
      exact List.mem_append_left _ hx

theorem drafted_item (ps qs : List Part) :
    drafted ps ++ "[" ++ drafted qs ++ "]" = drafted (ps ++ .text "[" :: qs ++ [.text "]"]) := by
  simp [Part.draft, String.append_assoc]

theorem lettersIn_item (ps qs : List Part) :
    lettersIn (ps ++ .text "[" :: qs ++ [.text "]"]) = lettersIn ps ++ lettersIn qs := by
  simp

theorem readName_bound {base : Place} {index : Index} (h : isVariable index = true) :
    readName (.item base index) = (do
      let text ← indexText index >>= bindIndex
      let name ← readName base
      pure (name ++ "[" ++ text ++ "]")) := by
  rw [readName, bind_assoc]
  simp only [h, if_true]

theorem readName_fixed {base : Place} {index : Index} (h : isVariable index = false) :
    readName (.item base index) = (do
      let text ← indexText index
      let name ← readName base
      pure (name ++ "[" ++ text ++ "]")) := by
  rw [readName]
  simp only [h, Bool.false_eq_true, if_false, pure_bind]

theorem exists_slot_of_isVariable (h : isVariable (.read p) = false) : ∃ n, p = .slot n := by
  cases p with
  | slot n => exact ⟨n, rfl⟩
  | _ => cases h

theorem indexText_read (h : isVariable (.read p) = true) :
    indexText (.read p) = (do
    let name ← readName p
    pure ("!" ++ name ++ "!")) := by
  cases p with
  | slot n => cases h
  | _ =>
    rw [indexText]
    intro _ hSlot
    cases hSlot

theorem readText_read (h : isVariable (.read p) = true) :
    readText p = (do
    let name ← readName p
    pure ("!" ++ name ++ "!")) := by
  cases p with
  | slot n => cases h
  | _ => rfl

theorem places_of_isVariable (h : isVariable (.read p) = true) :
    (Index.read p).places = p :: p.indexPlaces := by
  cases p with
  | slot n => cases h
  | _ => rfl

theorem value_of_isVariable {i : Index}
    (hV : ∀ q ∈ i.places, ∀ final value, IndexAs final (.read q) value → V value)
    (h : isVariable i = true) : ∀ final value, IndexAs final i value → V value := by
  cases i with
  | read p =>
    apply hV p
    rw [places_of_isVariable h]
    exact List.mem_cons_self
  | _ => cases h

mutual

theorem writes_readName : (p : Place) →
    (∀ q ∈ p.indexPlaces, ∀ final value, IndexAs final (.read q) value → V value) →
    Writes V (readCount p) (readName p) fun final => ReadAs final p
  | .absent, _ => by
    rw [readName]
    exact writes_pure drafted_nil.symm rfl fun _ => .absent
  | .name n, _ => by
    rw [readName]
    exact writes_text n fun _ => .name n
  | .slot n, _ => by
    rw [readName]
    exact writes_text (slotText n) fun _ => .slot n
  | .item base index, hV => by
    obtain ⟨hBaseV, hIndexV⟩ := List.forall_mem_append.mp hV
    have hIndex := writes_indexText index hIndexV
    have hBase := writes_readName base hBaseV
    have hText : ∀ qs ps, drafted ps ++ "[" ++ drafted qs ++ "]" = _ := fun qs ps => drafted_item ps qs
    have hLetters : ∀ qs ps, (lettersIn (ps ++ .text "[" :: qs ++ [.text "]"])).Perm
        (lettersIn qs ++ lettersIn ps) := by
      intro qs ps
      rw [lettersIn_item]
      exact List.perm_append_comm
    cases hVariable : isVariable index with
    | false =>
      rw [readName_fixed hVariable, readCount, hVariable]
      refine (hIndex.both hBase hText hLetters).imp ?_
      rintro final _ ⟨qs, ps, hqs, hps, rfl⟩
      exact .item hVariable hqs hps
    | true =>
      rw [readName_bound hVariable, readCount, hVariable]
      refine ((hIndex.bound (value_of_isVariable hIndexV hVariable)).both hBase hText hLetters).imp ?_
      rintro final _ ⟨_, ps, ⟨l, hl, hValue, rfl⟩, hps, rfl⟩
      exact .bound hVariable hl hValue hps

theorem writes_indexText : (i : Index) →
    (∀ q ∈ i.places, ∀ final value, IndexAs final (.read q) value → V value) →
    Writes V (indexCount i) (indexText i) fun final => IndexAs final i
  | .absent, _ => by
    rw [indexText]
    exact writes_pure drafted_nil.symm rfl fun _ => .absent
  | .int v, _ => by
    rw [indexText]
    exact writes_text (Number.intText v.toInt) fun _ => .int v
  | .read p, hV => by
    cases hVariable : isVariable (.read p) with
    | false =>
      obtain ⟨n, rfl⟩ := exists_slot_of_isVariable hVariable
      exact writes_text (slotText n) fun _ => .slot n
    | true =>
      rw [places_of_isVariable hVariable] at hV
      rw [indexText_read hVariable, indexCount]
      refine ((writes_readName p (List.forall_mem_cons.mp hV).2).around "!" "!").imp ?_
      rintro final _ ⟨ps, hps, rfl⟩
      exact .read hVariable hps

end

theorem writes_writtenName : (p : Place) →
    (∀ q ∈ p.indexPlaces, ∀ final value, IndexAs final (.read q) value → V value) →
    Writes V (writtenCount p) (writtenName p) fun final => WrittenAs final p
  | .absent, _ => by
    rw [writtenName]
    exact writes_pure drafted_nil.symm rfl fun _ => .absent
  | .name n, _ => by
    rw [writtenName]
    exact writes_text n fun _ => .name n
  | .slot n, _ => by
    rw [writtenName]
    exact writes_text (slotText n) fun _ => .slot n
  | .item base index, hV => by
    obtain ⟨hBaseV, hIndexV⟩ := List.forall_mem_append.mp hV
    rw [writtenName]
    refine ((writes_writtenName base hBaseV).both (writes_indexText index hIndexV) drafted_item
      fun ps qs => .of_eq (lettersIn_item ps qs)).imp ?_
    rintro final _ ⟨ps, qs, hps, hqs, rfl⟩
    exact .item hps hqs

theorem writes_draft (i : LineItem)
    (hV : ∀ q ∈ i.places, ∀ final value, IndexAs final (.read q) value → V value) :
    Writes V i.count i.draft fun final => ItemAs final i := by
  cases i with
  | text t =>
    exact writes_text t fun _ => .text t
  | written p => exact (writes_writtenName p hV).imp fun _ _ => .written
  | read p =>
    have hRead := (writes_readName p hV).around "!" "!"
    cases hVariable : isVariable (.read p) with
    | false =>
      obtain ⟨n, rfl⟩ := exists_slot_of_isVariable hVariable
      exact writes_text (slotText n) fun _ => .slot n
    | true =>
      rw [LineItem.draft, readText_read hVariable]
      refine hRead.imp ?_
      rintro final _ ⟨ps, hps, rfl⟩
      exact .read hVariable hps

theorem writes_draftItems (items : List LineItem) (hV : ∀ q ∈ items.flatMap LineItem.places,
      ∀ final value, IndexAs final (.read q) value → V value) :
    Writes V (itemsCount items) (draftItems items) fun final => ItemsAs final items := by
  induction items with
  | nil =>
    exact writes_pure drafted_nil.symm rfl fun _ => .nil
  | cons i rest ih =>
    obtain ⟨hFirst, hRest⟩ := List.forall_mem_append.mp hV
    refine ((writes_draft i hFirst).both (ih hRest) (fun _ _ => (drafted_append _ _).symm)
      fun ps qs => .of_eq (lettersIn_append ps qs)).imp ?_
    rintro final _ ⟨ps, qs, hps, hqs, rfl⟩
    exact .cons hps hqs

end

end BatchCompiler.Script
