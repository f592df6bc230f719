import BatchCompiler.Proofs.Meaning.Script
import BatchCompiler.Proofs.Text.Spelling
import BatchCompiler.Script.Line

/-!
# The kinds of lines

A line is of the kind that its first word gives it, once the loops in front of it are taken away.
Resolving the marks of a draft changes no other character.
-/

namespace BatchCompiler.Script

open Text

variable {cs : List Char} {line : Line}

def firstWord (line : Line) : List Char :=
  line.takeWhile (· != ' ')

theorem bne_of_not_mem {bad : Char} (h : bad ∉ cs) : ∀ c ∈ cs, (c != bad) = true := by
  intro c hc
  rw [bne_iff_ne]
  rintro rfl
  exact h hc

theorem firstWord_append {word : List Char} (hWord : ' ' ∉ word) (rest : List Char) :
    firstWord (word ++ ' ' :: rest) = word := by
  rw [firstWord, List.takeWhile_append_of_pos (bne_of_not_mem hWord)]
  exact List.append_nil word

theorem firstWord_of_afterLead? {word line rest : List Char} (hWord : ' ' ∉ word)
    (h : afterLead? (word ++ [' ']) line = some rest) : firstWord line = word := by
  rw [afterLead?_eq_some_iff.mp h, List.append_assoc]
  exact firstWord_append hWord rest

theorem afterBinding?_eq_none (h : firstWord line ≠ "for".toList) : afterBinding? line = none := by
  unfold afterBinding?
  split
  · next c rest hLead =>
    rw [afterLead?_eq_some_iff.mp hLead] at h
    have hFor : ' ' ∉ "for".toList := by decide
    exact absurd (firstWord_append hFor _) h
  · rfl

def bindingLine (letter : Char) (value : List Char) : Line :=
  "for %%".toList ++ letter :: (" in (".toList ++ (value ++ ") do ".toList))

theorem afterBinding?_bindingLine {letter : Char} {value : List Char} (h : ')' ∉ value)
    (rest : Line) : afterBinding? (bindingLine letter value ++ rest) = some rest := by
  have hClose : ") do ".toList = ')' :: " do ".toList := rfl
  have hLine : bindingLine letter value ++ rest =
      "for %%".toList ++ letter :: (" in (".toList ++ (value ++ ')' :: (" do ".toList ++ rest))) := by
    -- The equation of the definition would evaluate its texts.
    delta bindingLine
    simp only [hClose, List.append_assoc, List.cons_append]
  rw [hLine, afterBinding?, afterLead?_append]
  simp only [afterLead?_append, List.dropWhile_append_of_pos (bne_of_not_mem h)]
  exact afterLead?_append ") do ".toList rest

def bindingLines (loops : List (Char × List Char)) : Line :=
  loops.flatMap fun x => bindingLine x.1 x.2

theorem afterBindings_append {loops : List (Char × List Char)}
    (hLoops : ∀ x ∈ loops, ')' ∉ x.2) (hLine : firstWord line ≠ "for".toList) {fuel : Nat}
    (hFuel : loops.length ≤ fuel) : afterBindings fuel (bindingLines loops ++ line) = line := by
  induction loops generalizing fuel with
  | nil =>
    cases fuel with
    | zero => rfl
    | succ fuel =>
      rw [bindingLines, List.flatMap_nil, List.nil_append, afterBindings, afterBinding?_eq_none hLine]
  | cons x rest ih =>
    obtain ⟨hx, hRest⟩ := List.forall_mem_cons.mp hLoops
    cases fuel with
    | zero => cases hFuel
    | succ fuel =>
      rw [bindingLines, List.flatMap_cons, List.append_assoc, afterBindings,
        afterBinding?_bindingLine hx]
      exact ih hRest (Nat.le_of_succ_le_succ hFuel)

theorem length_le_bindingLines (loops : List (Char × List Char)) :
    loops.length ≤ (bindingLines loops).length := by
  induction loops with
  | nil => exact Nat.zero_le _
  | cons x rest ih =>
    rw [bindingLines, List.flatMap_cons, List.length_append, List.length_cons]
    have hOne : 1 ≤ (bindingLine x.1 x.2).length := by
      delta bindingLine
      simp
    rw [bindingLines] at ih
    omega

theorem core_append {loops : List (Char × List Char)}
    (hLoops : ∀ x ∈ loops, ')' ∉ x.2) (hLine : firstWord line ≠ "for".toList) :
    core (bindingLines loops ++ line) = line := by
  refine afterBindings_append hLoops hLine ?_
  have hLength := length_le_bindingLines loops
  rw [List.length_append]
  omega

theorem core_eq_self (hLine : firstWord line ≠ "for".toList) : core line = line :=
  have hNone : ∀ x ∈ ([] : List (Char × List Char)), ')' ∉ x.2 := nofun
  core_append hNone hLine

theorem kindOfCore_of_word (hNil : line ≠ []) (hColon : line.head? ≠ some ':')
    (hClose : line.head? ≠ some ')') (hRem : firstWord line ≠ "rem".toList)
    (hGoto : firstWord line ≠ "goto".toList) (hIf : firstWord line ≠ "if".toList) :
    kindOfCore line = .command := by
  have hLead : ∀ word : List Char, ' ' ∉ word → firstWord line ≠ word →
      afterLead? (word ++ [' ']) line = none := by
    intro word hWord hne
    cases h : afterLead? (word ++ [' ']) line with
    | none => rfl
    | some rest => exact absurd (firstWord_of_afterLead? hWord h) hne
  have hRemLine : line ≠ "rem".toList := by
    rintro rfl
    exact hRem rfl
  have hRemLead : afterLead? "rem ".toList line = none := hLead "rem".toList (by decide) hRem
  have hGotoLead : afterLead? "goto ".toList line = none := hLead "goto".toList (by decide) hGoto
  have hIfLead : afterLead? "if ".toList line = none := hLead "if".toList (by decide) hIf
  unfold kindOfCore
  split
  · exact absurd rfl hNil
  · exact absurd rfl hColon
  · exact absurd rfl hClose
  · simp only [hRemLine, hRemLead, hGotoLead, hIfLead, decide_false, Option.isSome_none,
      Bool.or_self, Bool.false_and, Bool.false_eq_true, if_false]

def resolveWith (expanded : Bool) (cs : List Char) : List Char :=
  cs.flatMap (resolveChar expanded)

def marks : List Char := [quotedCaret, quotedBang, unquotedCaret, unquotedBang]

theorem toList_resolve (draft : String) :
    (resolve draft).toList = resolveWith (expands draft.toList) draft.toList := by
  rw [resolve, String.toList_ofList]
  rfl

theorem resolveWith_append (expanded : Bool) (a b : List Char) :
    resolveWith expanded (a ++ b) = resolveWith expanded a ++ resolveWith expanded b :=
  List.flatMap_append

theorem resolveChar_of_not_mem_marks {c : Char} (hc : c ∉ marks) (expanded : Bool) :
    resolveChar expanded c = [c] := by
  simp only [marks, List.mem_cons, List.not_mem_nil, or_false, not_or] at hc
  obtain ⟨h₁, h₂, h₃, h₄⟩ := hc
  simp only [resolveChar, beq_eq_false_iff_ne.mpr h₁, beq_eq_false_iff_ne.mpr h₂,
    beq_eq_false_iff_ne.mpr h₃, beq_eq_false_iff_ne.mpr h₄, Bool.false_eq_true, if_false]

theorem resolveWith_of_unmarked (h : ∀ c ∈ cs, c ∉ marks) (expanded : Bool) :
    resolveWith expanded cs = cs := by
  induction cs with
  | nil => rfl
  | cons c rest ih =>
    obtain ⟨hc, hRest⟩ := List.forall_mem_cons.mp h
    rw [resolveWith, List.flatMap_cons, resolveChar_of_not_mem_marks hc]
    exact congrArg (c :: ·) (ih hRest)

theorem mem_resolveChar {expanded : Bool} {c d : Char} (h : d ∈ resolveChar expanded c) :
    d = c ∨ d = '^' ∨ d = '!' := by
  unfold resolveChar at h
  repeat' split at h
  all_goals simp_all

theorem avoids_resolveWith {bad : List Char} (hCaret : '^' ∉ bad) (hBang : '!' ∉ bad)
    (h : ∀ c ∈ cs, c ∉ bad) (expanded : Bool) : ∀ c ∈ resolveWith expanded cs, c ∉ bad := by
  intro d hd
  obtain ⟨c, hc, hdc⟩ := List.mem_flatMap.mp hd
  rcases mem_resolveChar hdc with rfl | rfl | rfl
  · exact h _ hc
  · exact hCaret
  · exact hBang

end BatchCompiler.Script
