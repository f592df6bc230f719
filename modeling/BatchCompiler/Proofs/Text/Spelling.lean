import BatchCompiler.Number.Integer
import BatchCompiler.Text.Blank

/-!
# Spelling

When a text starts with another, which characters it does without, and that numbers are told apart
by their digits.
-/

namespace BatchCompiler

namespace Text

theorem afterLead?_append (lead rest : List Char) : afterLead? lead (lead ++ rest) = some rest := by
  induction lead with
  | nil => cases rest <;> rfl
  | cons c lead ih => simpa [afterLead?] using ih

theorem afterLead?_eq_some_iff {lead s rest : List Char} :
    afterLead? lead s = some rest ↔ s = lead ++ rest := by
  constructor
  · intro h
    induction lead generalizing s with
    | nil =>
      cases h
      rfl
    | cons c lead ih =>
      cases s with
      | nil => cases h
      | cons d s =>
        simp only [afterLead?] at h
        split at h
        · next hcd =>
          have hd : c = d := by simpa using hcd
          rw [hd, ih h, List.cons_append]
        · cases h
  · rintro rfl
    exact afterLead?_append lead rest

theorem startsWith_iff {lead s : String} :
    startsWith lead s = true ↔ ∃ rest : String, s = lead ++ rest := by
  rw [startsWith, Option.isSome_iff_exists]
  constructor
  · rintro ⟨rest, h⟩
    refine ⟨String.ofList rest, String.toList_inj.mp ?_⟩
    rw [afterLead?_eq_some_iff.mp h]
    simp
  · rintro ⟨rest, rfl⟩
    exact ⟨rest.toList, afterLead?_eq_some_iff.mpr (by simp)⟩

theorem startsWith_append (lead rest : String) : startsWith lead (lead ++ rest) = true :=
  startsWith_iff.mpr ⟨rest, rfl⟩

theorem dropLead_append (lead rest : String) : dropLead lead (lead ++ rest) = rest := by
  simp [dropLead, afterLead?_append]

theorem startsWith_of_append {lead more s : String} (h : startsWith (lead ++ more) s = true) :
    startsWith lead s = true := by
  obtain ⟨rest, rfl⟩ := startsWith_iff.mp h
  rw [String.append_assoc]
  exact startsWith_append lead (more ++ rest)

/-- A property of the characters of a list is decided along the list. -/
instance (priority := high) decidableForallMem (cs : List Char) (p : Char → Prop) [DecidablePred p] :
    Decidable (∀ c, c ∈ cs → p c) :=
  List.decidableBAll p cs

instance (priority := high) decidableForallMemOption (o : Option Char) (p : Char → Prop)
    [DecidablePred p] : Decidable (∀ c, c ∈ o → p c) :=
  Option.decidableForallMem o

def Avoids (bad : List Char) (s : String) : Prop :=
  ∀ c ∈ s.toList, c ∉ bad

instance (bad : List Char) (s : String) : Decidable (Avoids bad s) :=
  inferInstanceAs (Decidable (∀ c ∈ s.toList, c ∉ bad))

section

variable {bad : List Char}

theorem avoids_ofList {cs : List Char} (h : ∀ c ∈ cs, c ∉ bad) : Avoids bad (String.ofList cs) := by
  unfold Avoids
  rwa [String.toList_ofList]

theorem avoids_append {a b : String} (ha : Avoids bad a) (hb : Avoids bad b) :
    Avoids bad (a ++ b) := by
  intro c hc
  rw [String.toList_append] at hc
  rcases List.mem_append.mp hc with hc | hc
  · exact ha c hc
  · exact hb c hc

theorem Avoids.mono {good : List Char} {s : String} (h : Avoids bad s)
    (hSub : ∀ c ∈ good, c ∈ bad) : Avoids good s :=
  fun c hc hGood => h c hc (hSub c hGood)

theorem avoids_of_isNamePart (hBad : ∀ c ∈ bad, isNamePart c = false) {s : String}
    (h : ∀ c ∈ s.toList, isNamePart c = true) : Avoids bad s := by
  intro c hc hMem
  have hPart := h c hc
  rw [hBad c hMem] at hPart
  cases hPart

theorem isDigit_of_mem_digitsOf {n : Nat} {c : Char} (hc : c ∈ Number.digitsOf n) : c.isDigit = true :=
  Nat.isDigit_of_mem_toDigits (by decide) (by decide) hc

theorem isNamePart_of_mem_natText {n : Nat} {c : Char} (hc : c ∈ (Number.natText n).toList) :
    isNamePart c = true := by
  rw [Number.natText, String.toList_ofList] at hc
  simp [isNamePart, isDecimalDigit, isDigit_of_mem_digitsOf hc]

theorem avoids_intText (hBad : ∀ c ∈ bad, c.isDigit = false) (hMinus : '-' ∉ bad) (z : Int) :
    Avoids bad (Number.intText z) := by
  have hDigits : ∀ c ∈ Number.digitsOf z.natAbs, c ∉ bad := by
    intro c hc hMem
    have hDigit := isDigit_of_mem_digitsOf hc
    rw [hBad c hMem] at hDigit
    cases hDigit
  unfold Number.intText
  split
  · exact avoids_ofList (List.forall_mem_cons.mpr ⟨hMinus, hDigits⟩)
  · exact avoids_ofList hDigits

end

end Text

namespace Number

theorem digitsOf_injective {m n : Nat} (h : digitsOf m = digitsOf n) : m = n := by
  have hm : Nat.ofDigitChars 10 (digitsOf m) 0 = m := Nat.ofDigitChars_ten_toDigits
  have hn : Nat.ofDigitChars 10 (digitsOf n) 0 = n := Nat.ofDigitChars_ten_toDigits
  rw [← hm, ← hn, h]

theorem natText_injective {m n : Nat} (h : natText m = natText n) : m = n :=
  digitsOf_injective (String.ofList_injective h)

theorem append_natText_injective {stem : String} {m n : Nat}
    (h : stem ++ natText m = stem ++ natText n) : m = n := by
  have hChars : stem.toList ++ digitsOf m = stem.toList ++ digitsOf n := by
    simpa [natText] using congrArg String.toList h
  exact digitsOf_injective (List.append_cancel_left hChars)

theorem intText_eq_one_iff {z : Int} : intText z = "1" ↔ z = 1 := by
  constructor
  · intro h
    unfold intText at h
    split at h
    · have hHead := congrArg (fun s : String => s.toList.head?) h
      simp at hHead
    · have hNat : natText z.natAbs = natText 1 := h
      have hAbs := natText_injective hNat
      omega
  · rintro rfl
    rfl

end Number

end BatchCompiler
