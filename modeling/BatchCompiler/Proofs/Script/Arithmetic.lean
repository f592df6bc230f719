import BatchCompiler.Proofs.Script.Scoping
import Mathlib.Data.List.Induction

/-!
# Reading arithmetic

A reader for the texts that expressions are drafted as. An operator in front applies to one operand,
two operands with an operator between them stand in parentheses, and exclamation marks enclose the
name of a variable with its indices in brackets. Every expression is drafted as a text that is read
as an expression with the same value, whatever operators and variables stand for.
-/

namespace BatchCompiler

namespace Target

mutual

def Place.Present : Place → Prop
  | .absent => False
  | .item base index => base.Present ∧ index.Present
  | _ => True

def Index.Present : Index → Prop
  | .absent => False
  | .int _ => True
  | .read p => p.Present

end

/-- No part is absent, names are spelled as names, and operators have the operands they need. -/
def Arith.Proper : Arith → Prop
  | .absent => False
  | .int _ => True
  | .read p => p.Present ∧ p.Named
  | .unary op e => op.isUnary = true ∧ e.Proper
  | .binary op l r => (op.isUnary = false ∧ op ≠ .unknown) ∧ l.Proper ∧ r.Proper

end Target

namespace Script

open Target Text Meaning

inductive Reading where
  | number (n : Nat)
  | argument (n : Int)
  | named (name : List Char)
  | unary (op : Op) (e : Reading)
  | binary (op : Op) (l r : Reading)
deriving DecidableEq, Repr

namespace Reading

def natural? (text : List Char) : Option (Nat × List Char) :=
  if (text.takeWhile Char.isDigit).isEmpty then none
  else some (Nat.ofDigitChars 10 (text.takeWhile Char.isDigit) 0, text.dropWhile Char.isDigit)

def integer? : List Char → Option (Int × List Char)
  | '-' :: rest => (natural? rest).map (Prod.map (fun n : Nat => -(n : Int)) id)
  | text => (natural? text).map (Prod.map Int.ofNat id)

def operator? : List Char → Option (Op × List Char)
  | '+' :: rest => some (.add, rest)
  | '-' :: rest => some (.sub, rest)
  | '*' :: rest => some (.mul, rest)
  | '/' :: rest => some (.div, rest)
  | '%' :: '%' :: rest => some (.rem, rest)
  | '&' :: rest => some (.and, rest)
  | '|' :: rest => some (.or, rest)
  | '\x00' :: rest => some (.xor, rest)
  | '<' :: '<' :: rest => some (.shl, rest)
  | '>' :: '>' :: rest => some (.shr, rest)
  | _ => none

def skipBlanks (text : List Char) : List Char :=
  text.dropWhile (· == ' ')

/-- Reads one operand. Each round takes a character, so `fuel` need not exceed the length. -/
def read? : (fuel : Nat) → List Char → Option (Reading × List Char)
  | 0, _ => none
  | fuel + 1, text => match text with
    | '-' :: rest => (read? fuel rest).map (Prod.map (unary .neg) id)
    | '~' :: rest => (read? fuel rest).map (Prod.map (unary .compl) id)
    | '\x01' :: rest => (read? fuel rest).map (Prod.map (unary .not) id)
    | '(' :: rest => do
      let l ← read? fuel rest
      let op ← operator? (skipBlanks l.2)
      let r ← read? fuel (skipBlanks op.2)
      let rest ← afterLead? [')'] (skipBlanks r.2)
      some (binary op.1 l.1 r.1, rest)
    | '!' :: rest =>
      (afterLead? ['!'] (rest.dropWhile (· != '!'))).map (named (rest.takeWhile (· != '!')), ·)
    | '%' :: '~' :: rest => (integer? rest).map (Prod.map argument id)
    | text => (natural? text).map (Prod.map number id)

def ofText? (text : String) : Option Reading :=
  (read? text.length text.toList).bind fun found => if found.2.isEmpty then some found.1 else none

section

variable (args : Arguments) (ρ : Char → String)

def expand : List Char → String
  | ['%', '%', c] => ρ c
  | '%' :: '~' :: n => args (((integer? n).map Prod.fst).getD 0)
  | text => String.ofList text

def locate (name : List Char) : Location :=
  { name := expand args ρ ((name.splitOn '[').headD [])
    indices := (name.splitOn '[').tail.map fun i => expand args ρ i.dropLast }

def value (I : Interpretation) (σ : Store) : Reading → String
  | number n => Number.natText n
  | argument n => args n
  | named name => σ (locate args ρ name)
  | unary op e => I.unary op.token (e.value I σ)
  | binary op l r => I.binary op.token (l.value I σ) (r.value I σ)

end

end Reading

open Reading

def InForce (args : Arguments) (σ : Store) (ρ : Char → String) (loops : List String) : Prop :=
  ∀ c name, loopText c ("!" ++ name ++ "!") ∈ loops → ρ c = σ (locate args ρ name.toList)

/-- A minus in front of a number makes it negative. -/
def Negates (I : Interpretation) : Prop :=
  ∀ z, I.unary .minus (Number.intText z) = Number.intText (-z)

def Ends (rest : List Char) : Prop :=
  ∀ c more, rest = c :: more → c.isDigit = false

def IsRead (text : List Char) (e : Reading) : Prop :=
  ∀ fuel rest, text.length ≤ fuel → Ends rest → read? fuel (text ++ rest) = some (e, rest)

section

variable {rest text : List Char} {e : Reading}

theorem natural?_digitsOf (n : Nat) (hEnds : Ends rest) :
    natural? (Number.digitsOf n ++ rest) = some (n, rest) := by
  have hDigits : ∀ c ∈ Number.digitsOf n, c.isDigit = true :=
    fun c hc => Nat.isDigit_of_mem_toDigits (by decide) (by decide) hc
  have hTake : rest.takeWhile Char.isDigit = [] := by
    cases rest with
    | nil => rfl
    | cons c more => exact List.takeWhile_cons_of_neg (by simp [hEnds c more rfl])
  have hDrop : rest.dropWhile Char.isDigit = rest := by
    cases rest with
    | nil => rfl
    | cons c more => exact List.dropWhile_cons_of_neg (by simp [hEnds c more rfl])
  have hSome : Number.digitsOf n ≠ [] := Nat.toDigits_ne_nil
  have hValue : Nat.ofDigitChars 10 (Number.digitsOf n) 0 = n := Nat.ofDigitChars_ten_toDigits
  rw [natural?, List.takeWhile_append_of_pos hDigits, List.dropWhile_append_of_pos hDigits, hTake,
    hDrop, List.append_nil, if_neg (by simpa using hSome), hValue]

theorem exists_digit (n : Nat) : ∃ d more, Number.digitsOf n = d :: more ∧ d.isDigit = true := by
  obtain ⟨d, more, hDigits⟩ := List.exists_cons_of_ne_nil (Nat.toDigits_ne_nil : Number.digitsOf n ≠ [])
  have hd : d ∈ Nat.toDigits 10 n := by
    rw [show Nat.toDigits 10 n = d :: more from hDigits]
    exact List.mem_cons_self
  exact ⟨d, more, hDigits, Nat.isDigit_of_mem_toDigits (by decide) (by decide) hd⟩

theorem toList_intText_neg {z : Int} (h : z < 0) :
    (Number.intText z).toList = '-' :: Number.digitsOf z.natAbs := by
  rw [Number.intText, if_pos h, String.toList_ofList]

theorem toList_intText_nonneg {z : Int} (h : ¬z < 0) :
    (Number.intText z).toList = Number.digitsOf z.natAbs := by
  rw [Number.intText, if_neg h, Number.natText, String.toList_ofList]

theorem integer?_intText (z : Int) (hEnds : Ends rest) :
    integer? ((Number.intText z).toList ++ rest) = some (z, rest) := by
  by_cases hz : z < 0
  · rw [toList_intText_neg hz, List.cons_append, integer?, natural?_digitsOf _ hEnds]
    have hAbs : -(z.natAbs : Int) = z := by omega
    simp only [Option.map_some, Prod.map_apply, id_eq, hAbs]
  · rw [toList_intText_nonneg hz, integer?, natural?_digitsOf _ hEnds]
    · have hAbs : Int.ofNat z.natAbs = z := Int.natAbs_of_nonneg (by omega)
      simp only [Option.map_some, Prod.map_apply, id_eq, hAbs]
    · intro more hMore
      obtain ⟨d, digits, hDigits, hd⟩ := exists_digit z.natAbs
      rw [hDigits] at hMore
      obtain rfl := (List.cons.inj hMore).1
      cases hd

theorem reads_number (n : Nat) : IsRead (Number.digitsOf n) (number n) := by
  intro fuel rest hFuel hEnds
  obtain ⟨d, digits, hDigits, hd⟩ := exists_digit n
  have hNe : ∀ c : Char, c.isDigit = false → d ≠ c := by
    rintro c hc rfl
    rw [hd] at hc
    cases hc
  obtain ⟨fuel, rfl⟩ := Nat.exists_eq_add_one_of_ne_zero (show fuel ≠ 0 by simp [hDigits] at hFuel; omega)
  have hFound := natural?_digitsOf n hEnds
  rw [hDigits] at hFound ⊢
  rw [List.cons_append] at hFound ⊢
  rw [read?, hFound]
  · rfl
  all_goals
    intro more hMore
    exact hNe _ (by decide) (List.cons.inj hMore).1

theorem reads_unary {op : Op} (hOp : op.isUnary = true) (h : IsRead text e) :
    IsRead ((opText op).toList ++ text) (unary op e) := by
  intro fuel rest hFuel hEnds
  cases fuel with
  | zero =>
    cases op with
    | neg | not | compl => simp [opText, Op.symbol] at hFuel
    | _ => cases hOp
  | succ fuel =>
    cases op with
    | neg | not | compl =>
      have hText := h fuel rest (by simpa [opText, Op.symbol] using hFuel) hEnds
      simp [opText, Op.symbol, quotedBang, read?, hText]
    | _ => cases hOp

theorem operator?_opText {op : Op} (hOp : op.isUnary = false ∧ op ≠ .unknown) (rest : List Char) :
    operator? (skipBlanks (' ' :: ((opText op).toList ++ ' ' :: rest))) = some (op, ' ' :: rest) := by
  cases op with
  | neg | not | compl => cases hOp.1
  | unknown => exact absurd rfl hOp.2
  | _ => simp [opText, Op.symbol, quotedCaret, operator?, skipBlanks]

theorem IsRead.skipBlanks_eq (h : IsRead text e) (rest : List Char) :
    skipBlanks (' ' :: (text ++ rest)) = text ++ rest := by
  have hText := h text.length [] (Nat.le_refl _) (by simp [Ends])
  cases text with
  | nil => cases hText
  | cons c more =>
    have hc : c ≠ ' ' := by
      rintro rfl
      simp [read?, natural?] at hText
    simp [skipBlanks, hc]

theorem ends_cons {c : Char} (hc : c.isDigit = false) (rest : List Char) : Ends (c :: rest) := by
  intro d more h
  rwa [← (List.cons.inj h).1]

theorem reads_binary {op : Op} (hOp : op.isUnary = false ∧ op ≠ .unknown) {left right : List Char}
    {l r : Reading} (hl : IsRead left l) (hr : IsRead right r) :
    IsRead ('(' :: left ++ ' ' :: (opText op).toList ++ ' ' :: right ++ [')']) (binary op l r) := by
  intro fuel rest hFuel hEnds
  simp only [List.length_append, List.length_cons] at hFuel
  obtain ⟨fuel, rfl⟩ := Nat.exists_eq_add_one_of_ne_zero (show fuel ≠ 0 by omega)
  have hLeft := hl fuel (' ' :: ((opText op).toList ++ ' ' :: (right ++ ')' :: rest))) (by omega)
    (ends_cons (by decide) _)
  have hRight := hr fuel (')' :: rest) (by omega) (ends_cons (by decide) _)
  have hBlank := hr.skipBlanks_eq (')' :: rest)
  have hClosed : skipBlanks (')' :: rest) = ')' :: rest := rfl
  simp [read?, hLeft, operator?_opText hOp, hBlank, hRight, hClosed, afterLead?]

theorem reads_named {name : List Char} (h : '!' ∉ name) : IsRead ('!' :: name ++ ['!']) (named name) := by
  intro fuel rest hFuel hEnds
  simp only [List.length_append, List.length_cons] at hFuel
  obtain ⟨fuel, rfl⟩ := Nat.exists_eq_add_one_of_ne_zero (show fuel ≠ 0 by omega)
  have hAll : ∀ c ∈ name, (c != '!') = true := by
    intro c hc
    rw [bne_iff_ne]
    rintro rfl
    exact h hc
  simp [read?, List.takeWhile_append_of_pos hAll, List.dropWhile_append_of_pos hAll, afterLead?]

theorem reads_argument (n : Int) : IsRead (slotText n).toList (argument n) := by
  intro fuel rest hFuel hEnds
  rw [slotText, String.toList_append] at hFuel ⊢
  cases fuel with
  | zero => simp at hFuel
  | succ fuel => simp [read?, integer?_intText n hEnds]

theorem exists_reads_intText (z : Int) : ∃ e, IsRead (Number.intText z).toList e ∧
    ∀ I args σ ρ, Negates I → e.value args ρ I σ = Number.intText z := by
  by_cases hz : z < 0
  · refine ⟨unary .neg (number z.natAbs), ?_, fun I args σ ρ hI => ?_⟩
    · rw [toList_intText_neg hz]
      have hNeg : Op.neg.isUnary = true := rfl
      exact reads_unary hNeg (reads_number _)
    · have hAbs := hI z.natAbs
      rw [show -(z.natAbs : Int) = z by omega] at hAbs
      exact hAbs
  · refine ⟨number z.natAbs, ?_, fun I args σ ρ _ => ?_⟩
    · rw [toList_intText_nonneg hz]
      exact reads_number _
    · rw [Number.intText, if_neg hz]
      rfl

end

section

variable {args : Arguments} {σ : Store} {ρ : Char → String} {loops : List Loop}

theorem drafted_text (t : String) : drafted [.text t] = t := by
  simp [Part.draft]

theorem expand_of_avoids {text : String} (h : Avoids ['%'] text) : expand args ρ text.toList = text := by
  unfold expand
  split
  · next hText => exact absurd List.mem_cons_self (h '%' (by simp [hText]))
  · next hText => exact absurd List.mem_cons_self (h '%' (by simp [hText]))
  · exact String.ofList_toList

theorem avoids_slotText {bad : List Char} (hBad : ∀ c ∈ bad, c.isDigit = false) (hMinus : '-' ∉ bad)
    (hLead : Avoids bad "%~") (n : Int) : Avoids bad (slotText n) :=
  avoids_append hLead (avoids_intText hBad hMinus n)

theorem expand_slotText (n : Int) : expand args ρ (slotText n).toList = args n := by
  have hEnds : Ends [] := by simp [Ends]
  have hRead := integer?_intText n hEnds
  rw [List.append_nil] at hRead
  simp [slotText, expand, hRead]

theorem locate_base {base : List Char} (h : '[' ∉ base) :
    locate args ρ base = { name := expand args ρ base } := by
  rw [locate, List.splitOn_eq_singleton h]
  rfl

theorem locate_item (base : List Char) {index : List Char} (h : '[' ∉ index) :
    locate args ρ (base ++ '[' :: (index ++ [']'])) =
      (locate args ρ base).item (expand args ρ index) := by
  have hIndex : (index ++ [']']).splitOn '[' = [index ++ [']']] :=
    List.splitOn_eq_singleton (by simp [h])
  obtain ⟨first, others, hBase⟩ := List.exists_cons_of_ne_nil (List.splitOn_ne_nil '[' base)
  simp [locate, List.splitOn_append_cons_self, hIndex, hBase, Location.item]

theorem value_of_present {p : Place} (hPresent : p.Present) (h : isVariable (.read p) = true) :
    p.value args σ = σ (p.location args σ) := by
  cases p with
  | absent => cases hPresent
  | slot n => cases h
  | _ => rfl

theorem expand_of_fixed {index : Index} {qs : List Part} (hFixed : isVariable index = false)
    (h : IndexAs loops index qs) :
    lettersIn qs = [] ∧ Avoids ['!', '['] (drafted qs) ∧
      ∀ args σ ρ, expand args ρ (drafted qs).toList = index.value args σ := by
  have hInt (z : Int) : Avoids ['!', '[', '%'] (Number.intText z) :=
    avoids_intText (by decide) (by decide) z
  cases h with
  | absent => exact ⟨rfl, by decide, fun _ _ _ => rfl⟩
  | int v =>
    rw [drafted_text]
    exact ⟨rfl, (hInt _).mono (by simp), fun _ _ _ => expand_of_avoids ((hInt _).mono (by simp))⟩
  | slot n =>
    rw [drafted_text]
    exact ⟨rfl, avoids_slotText (by decide) (by decide) (by decide) n, fun _ _ _ => expand_slotText n⟩
  | read hRead => cases hRead.symm.trans hFixed

theorem avoids_variable {c : Char} (hc : c ∈ forVariables) :
    Avoids ['!', '['] (drafted [.variable c]) := by
  have hAll : ∀ c ∈ forVariables, Avoids ['!', '['] (String.ofList ['%', '%', c]) := by decide
  simpa [Part.draft] using hAll c hc

theorem expand_variable (c : Char) : expand args ρ (drafted [.variable c]).toList = ρ c := by
  simp [Part.draft, expand]

theorem locate_drafted_item (ps : List Part) {qs : List Part} (h : Avoids ['!', '['] (drafted qs)) :
    locate args ρ (drafted (ps ++ .text "[" :: qs ++ [.text "]"])).toList =
      (locate args ρ (drafted ps).toList).item (expand args ρ (drafted qs).toList) := by
  rw [← locate_item _ fun hMem => h '[' hMem (by simp), ← drafted_item]
  simp

theorem locate_name {n : String} (h : ∀ c ∈ n.toList, isNamePart c = true) :
    locate args ρ (drafted [.text n]).toList = { name := n } := by
  have hAvoids : Avoids ['[', '%'] n := avoids_of_isNamePart (by decide) h
  rw [drafted_text, locate_base fun hMem => hAvoids '[' hMem (by simp),
    expand_of_avoids (hAvoids.mono (by simp))]

theorem locate_slot (n : Int) :
    locate args ρ (drafted [.text (slotText n)]).toList = { name := args n } := by
  have hAvoids : Avoids ['['] (slotText n) :=
    avoids_slotText (by decide) (by decide) (by decide) n
  rw [drafted_text, locate_base fun hMem => hAvoids '[' hMem (by simp), expand_slotText]

theorem avoids_bang_item {ps qs : List Part} (hBase : Avoids ['!'] (drafted ps))
    (hIndex : Avoids ['!', '['] (drafted qs)) :
    Avoids ['!'] (drafted (ps ++ .text "[" :: qs ++ [.text "]"])) := by
  rw [← drafted_item]
  exact avoids_append (avoids_append (avoids_append hBase (by decide)) (hIndex.mono (by simp)))
    (by decide)

mutual

theorem locate_of_readAs (hLetters : ∀ l ∈ loops, l.letter ∈ forVariables) : (p : Place) → ∀ {ps},
    p.Named → ReadAs loops p ps → Avoids ['!'] (drafted ps) ∧ ∀ args σ ρ, p.Present →
      InForce args σ ρ (loops.map Loop.text) → locate args ρ (drafted ps).toList = p.location args σ
  | .absent, _, _, h => by
    cases h
    exact ⟨by decide, fun _ _ _ hPresent => hPresent.elim⟩
  | .name n, _, hNamed, h => by
    cases h
    exact ⟨drafted_text n ▸ avoids_of_isNamePart (by decide) hNamed, fun _ _ _ _ _ => locate_name hNamed⟩
  | .slot n, _, _, h => by
    cases h
    exact ⟨drafted_text _ ▸ avoids_slotText (by decide) (by decide) (by decide) n,
      fun _ _ _ _ _ => locate_slot n⟩
  | .item base index, _, hNamed, h => by
    cases h with
    | item hFixed hIndex hBase =>
      obtain ⟨-, hAvoids, hValue⟩ := expand_of_fixed hFixed hIndex
      obtain ⟨hBang, hLocate⟩ := locate_of_readAs hLetters base hNamed.1 hBase
      refine ⟨avoids_bang_item hBang hAvoids, fun args σ ρ hPresent hForce => ?_⟩
      rw [locate_drafted_item _ hAvoids, hValue, hLocate args σ ρ hPresent.1 hForce, Place.location]
    | bound hVariable hl hIndex hBase =>
      have hAvoids := avoids_variable (hLetters _ hl)
      obtain ⟨hBang, hLocate⟩ := locate_of_readAs hLetters base hNamed.1 hBase
      refine ⟨avoids_bang_item hBang hAvoids, fun args σ ρ hPresent hForce => ?_⟩
      rw [locate_drafted_item _ hAvoids, expand_variable, hLocate args σ ρ hPresent.1 hForce,
        bound_of_indexAs hLetters index hNamed.2 hVariable hl hIndex args σ ρ hPresent.2 hForce,
        Place.location]

theorem bound_of_indexAs (hLetters : ∀ l ∈ loops, l.letter ∈ forVariables) : (index : Index) →
    index.Named → isVariable index = true → ∀ {l : Loop}, l ∈ loops → IndexAs loops index l.value →
    ∀ args σ ρ, index.Present → InForce args σ ρ (loops.map Loop.text) →
      ρ l.letter = index.value args σ
  | .absent, _, _, _, _, _ => fun _ _ _ hPresent => hPresent.elim
  | .int _, _, hVariable, _, _, _ => by cases hVariable
  | .read p, hNamed, hVariable, l, hl, h => by
    generalize hValue : l.value = value at h
    cases h with
    | slot n => cases hVariable
    | @read _ ps _ hRead =>
      intro args σ ρ hPresent hForce
      have hText : Loop.text l = loopText l.letter ("!" ++ drafted ps ++ "!") := by
        simp [Loop.text, hValue, Part.draft, String.append_assoc]
      have hBound := hForce l.letter (drafted ps) (hText ▸ List.mem_map_of_mem hl)
      rw [hBound, (locate_of_readAs hLetters p hNamed hRead).2 args σ ρ hPresent hForce, Index.value,
        value_of_present hPresent hVariable]

end

end

/-- The expression that the text is read as has the value of the expression that was drafted. -/
def ReadsBack (loops : List Loop) (e : Arith) (text : String) : Prop :=
  ∃ e', IsRead text.toList e' ∧ ∀ I args σ ρ, Negates I → InForce args σ ρ (loops.map Loop.text) →
    e'.value args ρ I σ = e.value I args σ

section

def IsBound (value : List Part) : Prop :=
  ∃ loops q, q.Named ∧ IndexAs loops (.read q) value

theorem writes_readText {p : Place} (hPresent : p.Present) (hNamed : p.Named) :
    Writes IsBound (readCount p) (readText p) fun final parts =>
      (∀ l ∈ final, l.letter ∈ forVariables) → ReadsBack final (.read p) (drafted parts) := by
  cases hVariable : isVariable (.read p) with
  | false =>
    obtain ⟨n, rfl⟩ := exists_slot_of_isVariable hVariable
    refine writes_text (slotText n) fun final _ => ?_
    rw [drafted_text]
    exact ⟨_, reads_argument n, fun _ _ _ _ _ _ => rfl⟩
  | true =>
    have hBound : ∀ q ∈ p.indexPlaces, ∀ final value, IndexAs final (.read q) value → IsBound value :=
      fun q hq final value h => ⟨final, q, named_of_mem_indexPlaces p hNamed q hq, h⟩
    rw [readText_read hVariable]
    refine ((writes_readName p hBound).around "!" "!").imp ?_
    rintro final _ ⟨ps, hRead, rfl⟩ hLetters
    have hText : (drafted (.text "!" :: ps ++ [.text "!"])).toList = '!' :: (drafted ps).toList ++ ['!'] := by
      simp [Part.draft]
    obtain ⟨hAvoids, hLocate⟩ := locate_of_readAs hLetters p hNamed hRead
    have hBang : '!' ∉ (drafted ps).toList := fun h => hAvoids '!' h (by simp)
    refine ⟨named (drafted ps).toList, hText ▸ reads_named hBang, fun I args σ ρ _ hForce => ?_⟩
    rw [Reading.value, hLocate args σ ρ hPresent hForce, Arith.value,
      value_of_present hPresent hVariable]

theorem writes_arithText (e : Arith) (hProper : e.Proper) :
    ∃ n, Writes IsBound n (arithText e) fun final parts =>
      (∀ l ∈ final, l.letter ∈ forVariables) → ReadsBack final e (drafted parts) := by
  induction e with
  | absent => exact hProper.elim
  | int v =>
    refine ⟨0, writes_text _ fun final _ => ?_⟩
    obtain ⟨e', hRead, hValue⟩ := exists_reads_intText v.toInt
    rw [drafted_text]
    exact ⟨e', hRead, fun I args σ ρ hI _ => hValue I args σ ρ hI⟩
  | read p => exact ⟨_, writes_readText hProper.1 hProper.2⟩
  | unary op e ih =>
    obtain ⟨n, h⟩ := ih hProper.2
    have hDraft : arithText (.unary op e) = (do
        let t ← arithText e
        pure (opText op ++ t ++ "")) := by simp only [arithText, String.append_empty]
    refine ⟨n, hDraft ▸ (h.around (opText op) "").imp ?_⟩
    rintro final _ ⟨ps, hps, rfl⟩ hLetters
    obtain ⟨e', hRead, hValue⟩ := hps hLetters
    have hText : (drafted (.text (opText op) :: ps ++ [.text ""])).toList =
        (opText op).toList ++ (drafted ps).toList := by simp [Part.draft]
    refine ⟨unary op e', hText ▸ reads_unary hProper.1 hRead, fun I args σ ρ hI hForce => ?_⟩
    rw [Reading.value, hValue I args σ ρ hI hForce, Arith.value]
  | binary op l r ihl ihr =>
    obtain ⟨m, hl⟩ := ihl hProper.2.1
    obtain ⟨n, hr⟩ := ihr hProper.2.2
    refine ⟨m + n, (hl.both hr (g := fun ps qs => .text "(" :: ps ++
      .text (" " ++ opText op ++ " ") :: qs ++ [.text ")"]) ?_ ?_).imp ?_⟩
    · intro ps qs
      simp [Part.draft, String.append_assoc]
    · intro ps qs
      exact .of_eq (by simp)
    · rintro final _ ⟨ps, qs, hps, hqs, rfl⟩ hLetters
      obtain ⟨l', hLeft, hLeftValue⟩ := hps hLetters
      obtain ⟨r', hRight, hRightValue⟩ := hqs hLetters
      have hText : (drafted (.text "(" :: ps ++ .text (" " ++ opText op ++ " ") :: qs ++
          [.text ")"])).toList = '(' :: (drafted ps).toList ++ ' ' :: (opText op).toList ++
            ' ' :: (drafted qs).toList ++ [')'] := by simp [Part.draft]
      refine ⟨binary op l' r', hText ▸ reads_binary hProper.1 hLeft hRight,
        fun I args σ ρ hI hForce => ?_⟩
      rw [Reading.value, hLeftValue I args σ ρ hI hForce, hRightValue I args σ ρ hI hForce, Arith.value]

end

section

variable {args : Arguments} {σ : Store} {ρ ρ' : Char → String}

theorem locate_congr {loops : List Loop} : (p : Place) → ∀ {ps}, p.Named → ReadAs loops p ps →
    (∀ c ∈ lettersIn ps, c ∈ forVariables ∧ ρ c = ρ' c) →
    locate args ρ (drafted ps).toList = locate args ρ' (drafted ps).toList
  | .absent, _, _, h, _ => by
    cases h
    rfl
  | .name n, _, hNamed, h, _ => by
    cases h
    rw [locate_name hNamed, locate_name hNamed]
  | .slot n, _, _, h, _ => by
    cases h
    rw [locate_slot, locate_slot]
  | .item base index, _, hNamed, h, hSame => by
    cases h with
    | item hFixed hIndex hBase =>
      obtain ⟨hNone, hAvoids, hValue⟩ := expand_of_fixed hFixed hIndex
      rw [lettersIn_item, hNone, List.append_nil] at hSame
      rw [locate_drafted_item _ hAvoids, locate_drafted_item _ hAvoids, hValue _ (fun _ => "") ρ,
        hValue _ (fun _ => "") ρ', locate_congr base hNamed.1 hBase hSame]
    | bound hVariable hl hIndex hBase =>
      rw [lettersIn_item] at hSame
      obtain ⟨hBaseSame, hLetter⟩ := List.forall_mem_append.mp hSame
      obtain ⟨hc, hEq⟩ := hLetter _ List.mem_cons_self
      rw [locate_drafted_item _ (avoids_variable hc), locate_drafted_item _ (avoids_variable hc),
        expand_variable, expand_variable, hEq, locate_congr base hNamed.1 hBase hBaseSame]

theorem IsBound.locate_congr {value : List Part} {name : String} (h : IsBound value)
    (hName : drafted value = "!" ++ name ++ "!")
    (hSame : ∀ c ∈ lettersIn value, c ∈ forVariables ∧ ρ c = ρ' c) :
    locate args ρ name.toList = locate args ρ' name.toList := by
  obtain ⟨loops, q, hNamed, hIndex⟩ := h
  cases hIndex with
  | slot n =>
    have hChars := congrArg String.toList hName
    simp [Part.draft, slotText] at hChars
  | @read _ ps _ hRead =>
    have hChars := congrArg String.toList hName
    obtain rfl : drafted ps = name := by
      simpa [Part.draft, String.toList_inj] using hChars
    exact Script.locate_congr q hNamed hRead (by simpa using hSame)

theorem exists_values (loops : List Loop) (hNodup : (loops.map Loop.letter).Nodup)
    (hLetters : ∀ l ∈ loops, l.letter ∈ forVariables)
    (hEarlier : ∀ before l after, loops = before ++ l :: after →
      ∀ c ∈ lettersIn l.value, c ∈ before.map Loop.letter)
    (hBound : ∀ l ∈ loops, IsBound l.value) :
    ∃ ρ, ∀ l ∈ loops, ∀ name, drafted l.value = "!" ++ name ++ "!" →
      ρ l.letter = σ (locate args ρ name.toList) := by
  induction loops using List.reverseRecOn with
  | nil => exact ⟨fun _ => "", by simp⟩
  | append_singleton loops new ih =>
    rw [List.map_append, List.nodup_append] at hNodup
    obtain ⟨ρ, hρ⟩ := ih hNodup.1 (fun l hl => hLetters l (List.mem_append_left _ hl))
      (fun before l after h => hEarlier before l (after ++ [new]) (by simp [h]))
      fun l hl => hBound l (List.mem_append_left _ hl)
    let ρ' (c : Char) : String :=
      if c = new.letter then σ (locate args ρ (drafted new.value).toList.tail.dropLast) else ρ c
    have hOld : ∀ c ∈ loops.map Loop.letter, ρ c = ρ' c := fun c hc =>
      (if_neg (hNodup.2.2 c hc new.letter (by simp))).symm
    have hSame : ∀ l ∈ loops ++ [new], ∀ c ∈ lettersIn l.value, c ∈ forVariables ∧ ρ c = ρ' c := by
      intro l hl c hc
      obtain ⟨before, after, hSplit⟩ := List.append_of_mem hl
      have hLe : before.length ≤ loops.length := by
        have hLength := congrArg List.length hSplit
        simp at hLength
        omega
      have hPrefix : before <+: loops := List.prefix_of_prefix_length_le ⟨_, hSplit.symm⟩ ⟨_, rfl⟩ hLe
      have hMem := (hPrefix.map Loop.letter).subset (hEarlier before l after hSplit c hc)
      obtain ⟨k, hk, rfl⟩ := List.mem_map.mp hMem
      exact ⟨hLetters k (List.mem_append_left _ hk), hOld _ hMem⟩
    refine ⟨ρ', fun l hl name hName => ?_⟩
    rw [← (hBound l hl).locate_congr hName (hSame l hl)]
    rcases List.mem_append.mp hl with hl | hl
    · rw [← hOld _ (List.mem_map_of_mem hl), hρ l hl name hName]
    · obtain rfl := List.mem_singleton.mp hl
      exact (if_pos rfl).trans (by simp [hName])

theorem loopText_inj {c c' : Char} {v v' : String} (h : loopText c v = loopText c' v') :
    c = c' ∧ v = v' := by
  have hChars := congrArg String.toList h
  simpa [loopText, String.toList_inj] using hChars

theorem Standing.letter_mem {V : List Part → Prop} {outer : Nat} {loops : List Loop} {b : Bindings}
    (h : Standing V outer loops b) : ∀ l ∈ loops, l.letter ∈ forVariables := by
  intro l hl
  have hMem : l.letter ∈ loops.map Loop.letter := List.mem_map_of_mem hl
  rw [h.letters_eq] at hMem
  obtain ⟨n, -, hLetter⟩ := List.mem_map.mp hMem
  exact hLetter ▸ letterAt_mem_forVariables n

theorem Standing.exists_inForce {outer : Nat} {loops : List Loop} {b : Bindings}
    (h : Standing IsBound outer loops b) (hFits : b.overflow = false) :
    ∃ ρ, InForce args σ ρ b.loops := by
  have hNodup : (loops.map Loop.letter).Nodup := by
    rcases loops with _ | ⟨first, others⟩
    · exact List.nodup_nil
    · have hAll : forVariables.Nodup := by decide
      have hSmall : outer + (first :: others).length ≤ 52 := by
        have hIff := h.overflow_iff
        rw [hFits] at hIff
        simpa using hIff
      rw [h.letters_eq]
      exact ((List.sublist_append_right ..).trans
        (take_append_letters hSmall ▸ List.take_sublist ..)).nodup hAll
  have hLetters : ∀ l ∈ loops, l.letter ∈ forVariables := h.letter_mem
  obtain ⟨ρ, hρ⟩ := exists_values loops hNodup hLetters h.earlier h.valued
  refine ⟨ρ, fun c name hLoop => ?_⟩
  rw [h.loops_eq] at hLoop
  obtain ⟨l, hl, hText⟩ := List.mem_map.mp hLoop
  obtain ⟨rfl, hName⟩ := loopText_inj hText
  exact hρ l hl name hName

end

/-- The text that an expression is drafted as is read as an expression with the same value. The
variables of the loops in front have values whenever there are enough of them. -/
theorem ofText?_arithText (e : Arith) (hProper : e.Proper) (outer : Nat) :
    ∃ e', Reading.ofText? (arithText e { outer }).1 = some e' ∧
      (∀ I args σ ρ, Negates I → InForce args σ ρ (arithText e { outer }).2.loops →
        e'.value args ρ I σ = e.value I args σ) ∧
      ((arithText e { outer }).2.overflow = false →
        ∀ args σ, ∃ ρ, InForce args σ ρ (arithText e { outer }).2.loops) := by
  obtain ⟨n, hWrites⟩ := writes_arithText e hProper
  obtain ⟨loops, parts, hStanding, hText, -, -, hParts⟩ :=
    hWrites outer [] { outer } (standing_nil _ outer)
  rw [List.nil_append] at hStanding hParts
  obtain ⟨e', hRead, hValue⟩ := hParts loops (List.Subset.refl _) hStanding.letter_mem
  refine ⟨e', ?_, ?_, fun hFits args σ => hStanding.exists_inForce hFits⟩
  · have hAll := hRead _ [] (Nat.le_refl _) (by simp [Ends])
    rw [List.append_nil, String.length_toList] at hAll
    rw [Reading.ofText?, hText, hAll]
    rfl
  · intro I args σ ρ hI hForce
    rw [hStanding.loops_eq] at hForce
    exact hValue I args σ ρ hI hForce

def mixedSum : Arith :=
  .binary .add (.unary .neg (.int (-5))) (.read (.item (.name "a") (.read (.name "i"))))

theorem ofText?_arithText_mixedSum :
    mixedSum.Proper ∧ (arithText mixedSum { outer := 0 }).2.overflow = false ∧
      ∃ e', Reading.ofText? (arithText mixedSum { outer := 0 }).1 = some e' ∧
        (∀ I args σ ρ, Negates I → InForce args σ ρ (arithText mixedSum { outer := 0 }).2.loops →
          e'.value args ρ I σ = mixedSum.value I args σ) ∧
        ((arithText mixedSum { outer := 0 }).2.overflow = false →
          ∀ args σ, ∃ ρ, InForce args σ ρ (arithText mixedSum { outer := 0 }).2.loops) :=
  have hProper : mixedSum.Proper := by
    have hNames : ∀ n ∈ ["a", "i"], ∀ c ∈ n.toList, isNamePart c = true := by decide
    exact ⟨⟨rfl, by decide⟩, ⟨rfl, trivial⟩, ⟨trivial, trivial⟩, hNames "a" (by simp),
      hNames "i" (by simp)⟩
  ⟨hProper, rfl, ofText?_arithText mixedSum hProper 0⟩

end Script

end BatchCompiler
