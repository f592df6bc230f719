import BatchCompiler.Proofs.Settings.Patches
import BatchCompiler.Settings.Group
import Mathlib.Data.List.Basic

/-!
# The last flag wins

On the command line a flag that names a warning or a feature outweighs the collective ones, and of
several such flags the last decides. Two flags do not do what they are called: the one that should
disable the pedantic warning enables it, and the one that should disable directives does nothing,
since the name of that feature starts like a negation.
-/

namespace BatchCompiler

theorem Warning.ofName?_name (w : Warning) : Warning.ofName? w.name = some w := by
  cases w <;> decide

theorem Feature.ofName?_name (f : Feature) : Feature.ofName? f.name = some f := by
  cases f <;> decide

namespace Settings

open Text

variable {flag : String}

inductive Subject where
  | warning (w : Warning)
  | feature (f : Feature)
deriving DecidableEq, Repr

namespace Subject

def isWarning : Subject → Bool
  | warning _ => true
  | feature _ => false

def name : Subject → String
  | warning w => w.name
  | feature f => f.name

def mark (x : Subject) : String := if x.isWarning then "W" else "F"

def onName (x : Subject) : String := x.mark ++ x.name

def offName (x : Subject) : String := x.mark ++ ("no-" ++ x.name)

def isOn (s : Settings) : Subject → Bool
  | warning w => s.warning w
  | feature f => s.feature f

def onByDefault : Subject → Bool
  | warning w => w.onByDefault
  | feature f => f.onByDefault

def said? (x : Subject) (flag : String) : Option Bool :=
  if flag = x.onName then some true
  else if flag = x.offName then some false
  else none

def grouped? (x : Subject) (flag : String) : Option Bool :=
  match x with
  | warning .pedantic => if flag = "pedantic" then some true else none
  | warning _ =>
    if flag = "Wall" then some true
    else if flag = "Wno-all" then some false
    else none
  | feature _ => none

end Subject

def switchNames : List String :=
  ({} : Settings).optionGroups.flatMap fun g =>
    (g.entries.flatMap Options.GroupEntry.definitions).map Options.Definition.name

def collectiveNames : List String := ["Wall", "Wno-all", "pedantic"]

/-- Whether a subject is meant to be on: the last flag that names it decides, without one the last
collective flag that concerns it, and without that the default. -/
def intended (flags : List String) (x : Subject) : Bool :=
  ((flags.filterMap x.said?).getLast?.or (flags.filterMap x.grouped?).getLast?).getD x.onByDefault

namespace Patch

def value (p : Patch) : Subject → Option Bool
  | .warning w => p.warning w
  | .feature f => p.feature f

def ofSubject : Subject → Bool → Patch
  | .warning w, on => ofWarning w on
  | .feature f, on => ofFeature f on

theorem isOn_apply (p : Patch) (s : Settings) (x : Subject) :
    x.isOn (p.apply s) = (p.value x).getD (x.isOn s) := by
  cases x <;> rfl

theorem value_ofSubject (x y : Subject) (on : Bool) :
    (ofSubject y on).value x = if x = y then some on else none := by
  cases x <;> cases y <;> simp [ofSubject, ofWarning, ofFeature, value]

end Patch

def flagPatch (flag : String) : Patch :=
  (Flag.ofText ("-" ++ flag)).patch?.getD {}

theorem apply_eq (s : Settings) (flag : String) :
    s.apply ("-" ++ flag) = (flagPatch flag).apply s := by
  rw [apply, applyFlag?_eq, flagPatch]
  cases (Flag.ofText ("-" ++ flag)).patch? <;> rfl

theorem isOn_foldl (s : Settings) (flags : List String) (x : Subject) :
    x.isOn (flags.foldl (fun s flag => s.apply ("-" ++ flag)) s) =
      ((flags.filterMap fun flag => (flagPatch flag).value x).getLast?).getD (x.isOn s) := by
  induction flags generalizing s with
  | nil => rfl
  | cons flag rest ih =>
    rw [List.foldl_cons, ih, apply_eq, Patch.isOn_apply, List.filterMap_cons]
    cases (flagPatch flag).value x with
    | none => rfl
    | some on =>
      rw [List.getLast?_cons]
      cases (rest.filterMap fun flag => (flagPatch flag).value x).getLast? <;> rfl

theorem isCollective_eq (flag : String) : isCollective flag = decide (flag ∈ collectiveNames) := by
  rw [Bool.eq_iff_iff]
  simp [isCollective, collectiveNames, or_assoc]

section Spelling

theorem startsWith_append_append (a b s : String) :
    startsWith (a ++ b) (a ++ s) = startsWith b s := by
  rw [Bool.eq_iff_iff, startsWith_iff, startsWith_iff]
  constructor
  · rintro ⟨rest, h⟩
    exact ⟨rest, by simpa [String.append_assoc] using h⟩
  · rintro ⟨rest, rfl⟩
    exact ⟨rest, String.append_assoc.symm⟩

theorem ofText_mark (x : Subject) (body : String) :
    Flag.ofText ("-" ++ (x.mark ++ body)) =
      { name := dropLead "no-" body, isWarning := x.isWarning, enable := !startsWith "no-" body } := by
  have hW : startsWith "Wno-" ("W" ++ body) = startsWith "no-" body :=
    startsWith_append_append "W" "no-" body
  have hF : startsWith "Fno-" ("F" ++ body) = startsWith "no-" body :=
    startsWith_append_append "F" "no-" body
  have hName : (if startsWith "no-" body = true then dropLead "no-" body else body) =
      dropLead "no-" body := by
    unfold startsWith dropLead
    cases afterLead? "no-".toList body.toList <;> rfl
  cases x with
  | warning w =>
    have hOther : startsWith "Fno-" ("W" ++ body) = false := by simp [startsWith, afterLead?]
    simp only [Subject.mark, Subject.isWarning, if_true, Flag.ofText, dropLead_append, hW, hOther,
      startsWith_append, Bool.or_false, hName]
  | feature f =>
    have hOther : startsWith "Wno-" ("F" ++ body) = false := by simp [startsWith, afterLead?]
    have hMark : startsWith "W" ("F" ++ body) = false := by simp [startsWith, afterLead?]
    simp only [Subject.mark, Subject.isWarning, Bool.false_eq_true, if_false, if_true, Flag.ofText,
      dropLead_append, hF, hOther, hMark, startsWith_append, Bool.false_or, hName]

theorem dropLead_of_not_startsWith {lead s : String} (h : startsWith lead s = false) :
    dropLead lead s = s := by
  unfold startsWith at h
  unfold dropLead
  rw [Option.isSome_eq_false_iff, Option.isNone_iff_eq_none] at h
  rw [h]

theorem startsWith_name {x : Subject} (hx : x ≠ .feature .noDirectives) :
    startsWith "no-" x.name = false := by
  cases x with
  | warning w => cases w <;> decide
  | feature f =>
    cases f with
    | noDirectives => exact absurd rfl hx
    | _ => decide

end Spelling

theorem patch?_of_subject (x : Subject) (on : Bool) :
    Flag.patch? { name := x.name, isWarning := x.isWarning, enable := on } =
      some (.ofSubject x (on || x = .warning .pedantic)) := by
  cases x with
  | feature f =>
    simp [Flag.patch?, Subject.name, Subject.isWarning, Feature.ofName?_name, Patch.ofSubject]
  | warning w =>
    by_cases hw : w = .pedantic
    · subst hw
      simp [Flag.patch?, Subject.name, Subject.isWarning, Warning.name, Patch.ofSubject]
    · have hAll : w.name ≠ "all" := by cases w <;> decide
      have hName : w.name ≠ "pedantic" := by
        cases w with
        | pedantic => exact absurd rfl hw
        | _ => decide
      simp [Flag.patch?, Subject.name, Subject.isWarning, hAll, hName, Warning.ofName?_name, hw,
        Patch.ofSubject]

variable {x : Subject}

theorem flagPatch_onName (hx : x ≠ .feature .noDirectives) :
    flagPatch x.onName = .ofSubject x true := by
  have hPlain := startsWith_name hx
  rw [flagPatch, Subject.onName, ofText_mark, dropLead_of_not_startsWith hPlain, hPlain]
  simp [patch?_of_subject]

/-- What should disable directives is read as the negation of a feature that there is not. -/
theorem flagPatch_onName_noDirectives : flagPatch (Subject.feature .noDirectives).onName = {} :=
  rfl

theorem flagPatch_offName (x : Subject) :
    flagPatch x.offName = .ofSubject x (x = .warning .pedantic) := by
  rw [flagPatch, Subject.offName, ofText_mark, dropLead_append, startsWith_append]
  simp [patch?_of_subject]

theorem value_flagPatch_collective (h : flag ∈ collectiveNames) (x : Subject) :
    (flagPatch flag).value x = x.grouped? flag := by
  simp only [collectiveNames, List.mem_cons, List.not_mem_nil, or_false] at h
  obtain rfl | rfl | rfl := h
  all_goals
    cases x with
    | feature f => rfl
    | warning w => cases w <;> rfl

theorem grouped?_eq_none (h : flag ∉ collectiveNames) (x : Subject) : x.grouped? flag = none := by
  simp only [collectiveNames, List.mem_cons, List.not_mem_nil, or_false, not_or] at h
  unfold Subject.grouped?
  split
  · exact if_neg h.2.2
  · rw [if_neg h.1, if_neg h.2.1]
  · rfl

theorem filterMap_grouped?_feature (flags : List String) (f : Feature) :
    flags.filterMap (Subject.feature f).grouped? = [] :=
  List.filterMap_eq_nil_iff.mpr fun _ _ => rfl

variable {y : Subject}

theorem mark_append_injective {a b : String} (h : x.mark ++ a = y.mark ++ b) :
    x.isWarning = y.isWarning ∧ a = b := by
  have hMark : ∀ z : Subject, z.mark.toList = [if z.isWarning then 'W' else 'F'] := by
    intro z
    cases z <;> simp [Subject.mark, Subject.isWarning]
  have hChars := congrArg String.toList h
  rw [String.toList_append, String.toList_append, hMark, hMark, List.singleton_append,
    List.singleton_append, List.cons.injEq] at hChars
  refine ⟨?_, String.toList_inj.mp hChars.2⟩
  cases x <;> cases y <;> simp_all [Subject.isWarning]

theorem eq_of_name (hKind : x.isWarning = y.isWarning) (hName : x.name = y.name) : x = y := by
  cases x with
  | warning w =>
    cases y with
    | warning v =>
      have hFound := Warning.ofName?_name w
      rw [show w.name = v.name from hName, Warning.ofName?_name] at hFound
      rw [Option.some.inj hFound]
    | feature g => cases hKind
  | feature f =>
    cases y with
    | warning v => cases hKind
    | feature g =>
      have hFound := Feature.ofName?_name f
      rw [show f.name = g.name from hName, Feature.ofName?_name] at hFound
      rw [Option.some.inj hFound]

theorem onName_eq_iff : y.onName = x.onName ↔ x = y := by
  constructor
  · intro h
    obtain ⟨hKind, hName⟩ := mark_append_injective h
    exact eq_of_name hKind.symm hName.symm
  · rintro rfl
    rfl

theorem offName_eq_iff : y.offName = x.offName ↔ x = y := by
  constructor
  · intro h
    obtain ⟨hKind, hName⟩ := mark_append_injective h
    exact eq_of_name hKind.symm (String.append_right_inj "no-" |>.mp hName).symm
  · rintro rfl
    rfl

theorem onName_ne_offName (x y : Subject) : x.onName ≠ y.offName := by
  intro h
  obtain ⟨_, hName⟩ := mark_append_injective h
  by_cases hx : x = .feature .noDirectives
  · subst hx
    have hRest : "directives" = y.name := String.append_right_inj "no-" |>.mp hName
    revert hRest
    cases y with
    | warning w => cases w <;> decide
    | feature f => cases f <;> decide
  · have hPlain := startsWith_name hx
    rw [hName, startsWith_append] at hPlain
    cases hPlain

theorem said?_onName (x y : Subject) : x.said? y.onName = if x = y then some true else none := by
  simp [Subject.said?, onName_eq_iff, onName_ne_offName]

theorem said?_offName (x y : Subject) : x.said? y.offName = if x = y then some false else none := by
  simp [Subject.said?, offName_eq_iff, (onName_ne_offName _ _).symm]

theorem said?_collective (h : flag ∈ collectiveNames) (x : Subject) : x.said? flag = none := by
  simp only [collectiveNames, List.mem_cons, List.not_mem_nil, or_false] at h
  obtain rfl | rfl | rfl := h
  all_goals
    cases x with
    | feature f => cases f <;> decide
    | warning w => cases w <;> decide

theorem exists_of_mem_switchNames (h : flag ∈ switchNames) :
    ∃ x : Subject, flag = x.onName ∨ flag = x.offName := by
  have hPair : ∀ (y : Subject) (usage : String) (on : Bool),
      flag ∈ (Options.GroupEntry.definitions
        { mark := y.mark, name := y.name, usage := usage, enabled := some on,
          disabled := some false }).map Options.Definition.name →
      flag = y.onName ∨ flag = y.offName := by
    intro y usage on hFlag
    simpa [Options.GroupEntry.definitions, Options.GroupEntry.onName, Options.GroupEntry.offName,
      Subject.onName, Subject.offName, String.append_assoc] using hFlag
  simp only [switchNames, optionGroups, warningEntries, featureEntries, List.flatMap_cons,
    List.flatMap_nil, List.append_nil, List.mem_append, List.map_flatMap, List.flatMap_map,
    List.mem_flatMap] at h
  rcases h with ⟨w, _, hw⟩ | ⟨f, _, hf⟩
  · exact ⟨.warning w, hPair (.warning w) _ _ hw⟩
  · exact ⟨.feature f, hPair (.feature f) _ _ hf⟩

def Subject.effect? (x : Subject) (flag : String) : Option Bool :=
  if flag ∈ collectiveNames then none else (flagPatch flag).value x

theorem isOn_applyNames (flags : List String) (x : Subject) :
    x.isOn (({} : Settings).applyNames flags) =
      ((flags.filterMap x.effect?).getLast?.or (flags.filterMap x.grouped?).getLast?).getD
        x.onByDefault := by
  have hDefault : x.isOn {} = x.onByDefault := by cases x <;> rfl
  have hCollective : (flags.filter isCollective).filterMap (fun flag => (flagPatch flag).value x) =
      flags.filterMap x.grouped? := by
    rw [List.filterMap_filter]
    apply List.filterMap_congr
    intro flag _
    by_cases hFlag : flag ∈ collectiveNames
    · simp [isCollective_eq, hFlag, value_flagPatch_collective hFlag]
    · simp [isCollective_eq, hFlag, grouped?_eq_none hFlag]
  have hOthers : (flags.filter fun n => !isCollective n).filterMap
      (fun flag => (flagPatch flag).value x) = flags.filterMap x.effect? := by
    rw [List.filterMap_filter]
    apply List.filterMap_congr
    intro flag _
    by_cases hFlag : flag ∈ collectiveNames <;> simp [isCollective_eq, Subject.effect?, hFlag]
  rw [applyNames, isOn_foldl, List.filterMap_append, hCollective, hOthers, List.getLast?_append,
    hDefault]

def AreFlags (flags : List String) : Prop :=
  ∀ flag ∈ flags, flag ∈ switchNames ∨ flag ∈ collectiveNames

instance (flags : List String) : Decidable (AreFlags flags) :=
  inferInstanceAs (Decidable (∀ flag ∈ flags, flag ∈ switchNames ∨ flag ∈ collectiveNames))

theorem not_collective_onName (x : Subject) : x.onName ∉ collectiveNames := by
  intro h
  have hNone := said?_collective h x
  simp [said?_onName] at hNone

theorem not_collective_offName (x : Subject) : x.offName ∉ collectiveNames := by
  intro h
  have hNone := said?_collective h x
  simp [said?_offName] at hNone

/-- What a flag makes of a subject is what it says, but for the two flags that do otherwise. -/
theorem effect?_eq (hFlag : flag ∈ switchNames ∨ flag ∈ collectiveNames) (x : Subject) :
    x.effect? flag = (x.said? flag).bind fun on =>
      if x = .warning .pedantic then some true
      else if x = .feature .noDirectives ∧ on = true then none
      else some on := by
  rcases hFlag with hFlag | hFlag
  · obtain ⟨y, rfl | rfl⟩ := exists_of_mem_switchNames hFlag
    · rw [Subject.effect?, if_neg (not_collective_onName y), said?_onName]
      by_cases hy : y = .feature .noDirectives
      · rw [hy, flagPatch_onName_noDirectives]
        by_cases hxy : x = .feature .noDirectives
        · subst hxy
          rfl
        · rw [if_neg hxy]
          cases x <;> rfl
      · rw [flagPatch_onName hy, Patch.value_ofSubject]
        by_cases hxy : x = y
        · subst hxy
          simp [hy]
        · simp [hxy]
    · rw [Subject.effect?, if_neg (not_collective_offName y), said?_offName, flagPatch_offName,
        Patch.value_ofSubject]
      by_cases hxy : x = y
      · subst hxy
        by_cases hPedantic : x = .warning .pedantic <;> simp [hPedantic]
      · simp [hxy]
  · rw [Subject.effect?, if_pos hFlag, said?_collective hFlag]
    rfl

section Outcome

variable {flags : List String} (h : AreFlags flags)

include h

theorem filterMap_effect? (x : Subject) :
    flags.filterMap x.effect? = (flags.filterMap x.said?).filterMap fun on =>
      if x = .warning .pedantic then some true
      else if x = .feature .noDirectives ∧ on = true then none
      else some on := by
  rw [List.filterMap_filterMap]
  exact List.filterMap_congr fun flag hFlag => effect?_eq (h flag hFlag) x

theorem isOn_applyNames_of_ne {x : Subject} (hWarning : x ≠ .warning .pedantic)
    (hFeature : x ≠ .feature .noDirectives) :
    x.isOn (({} : Settings).applyNames flags) = intended flags x := by
  have hSame : flags.filterMap x.effect? = flags.filterMap x.said? := by
    rw [filterMap_effect? h]
    simp [hWarning, hFeature]
  rw [isOn_applyNames, hSame, intended]

theorem warning_applyNames_pedantic :
    (({} : Settings).applyNames flags).warning .pedantic =
      (((flags.filterMap (Subject.warning .pedantic).said?).getLast?.map fun _ => true).or
        (flags.filterMap (Subject.warning .pedantic).grouped?).getLast?).getD false := by
  have hAlways : flags.filterMap (Subject.warning .pedantic).effect? =
      (flags.filterMap (Subject.warning .pedantic).said?).map fun _ => true := by
    rw [filterMap_effect? h]
    simp [List.filterMap_eq_map']
  have hIsOn := isOn_applyNames flags (.warning .pedantic)
  rw [hAlways, List.getLast?_map] at hIsOn
  exact hIsOn

theorem warning_applyNames_pedantic_iff :
    (({} : Settings).applyNames flags).warning .pedantic = true ↔
      ∃ flag ∈ flags, flag ∈ ["pedantic", "Wpedantic", "Wno-pedantic"] := by
  have hGrouped : ∀ on ∈ flags.filterMap (Subject.warning .pedantic).grouped?, on = true := by
    intro on hOn
    obtain ⟨flag, _, hFlag⟩ := List.mem_filterMap.mp hOn
    simp only [Subject.grouped?] at hFlag
    split at hFlag <;> simp_all
  have hNamed : ∀ flag, flag ∈ ["pedantic", "Wpedantic", "Wno-pedantic"] ↔
      (Subject.warning .pedantic).said? flag ≠ none ∨
        (Subject.warning .pedantic).grouped? flag ≠ none := by
    intro flag
    have hOn : (Subject.warning .pedantic).onName = "Wpedantic" := rfl
    have hOff : (Subject.warning .pedantic).offName = "Wno-pedantic" := rfl
    simp only [Subject.said?, Subject.grouped?, hOn, hOff]
    by_cases h₁ : flag = "pedantic" <;> by_cases h₂ : flag = "Wpedantic" <;>
      by_cases h₃ : flag = "Wno-pedantic" <;> simp [h₁, h₂, h₃]
  have hNonempty : (∃ flag ∈ flags, flag ∈ ["pedantic", "Wpedantic", "Wno-pedantic"]) ↔
      flags.filterMap (Subject.warning .pedantic).said? ≠ [] ∨
        flags.filterMap (Subject.warning .pedantic).grouped? ≠ [] := by
    simp only [hNamed, ne_eq, List.filterMap_eq_nil_iff, not_forall, exists_prop, and_or_left,
      exists_or]
  rw [hNonempty, warning_applyNames_pedantic h]
  cases hSaid : (flags.filterMap (Subject.warning .pedantic).said?).getLast? with
  | some on =>
    have hSome := List.ne_nil_of_mem (List.mem_of_getLast? hSaid)
    simp [hSome]
  | none =>
    rw [List.getLast?_eq_none_iff] at hSaid
    cases hLast : (flags.filterMap (Subject.warning .pedantic).grouped?).getLast? with
    | some on =>
      have hSome := List.ne_nil_of_mem (List.mem_of_getLast? hLast)
      simp [hSome, hGrouped on (List.mem_of_getLast? hLast)]
    | none =>
      rw [List.getLast?_eq_none_iff] at hLast
      simp [hSaid, hLast]

theorem feature_applyNames_noDirectives :
    (({} : Settings).applyNames flags).feature .noDirectives = false := by
  have hOff : ∀ on ∈ flags.filterMap (Subject.feature .noDirectives).effect?, on = false := by
    intro on hOn
    rw [filterMap_effect? h] at hOn
    obtain ⟨said, _, hSaid⟩ := List.mem_filterMap.mp hOn
    cases said <;> simp_all
  have hIsOn := isOn_applyNames flags (.feature .noDirectives)
  rw [filterMap_grouped?_feature] at hIsOn
  cases hLast : (flags.filterMap (Subject.feature .noDirectives).effect?).getLast? with
  | none =>
    rw [hLast] at hIsOn
    exact hIsOn
  | some on =>
    rw [hLast, hOff on (List.mem_of_getLast? hLast)] at hIsOn
    exact hIsOn

theorem pedantic_intended_iff :
    (({} : Settings).applyNames flags).warning .pedantic = intended flags (.warning .pedantic) ↔
      (flags.filterMap (Subject.warning .pedantic).said?).getLast? ≠ some false := by
  rw [warning_applyNames_pedantic h, intended]
  cases (flags.filterMap (Subject.warning .pedantic).said?).getLast? with
  | none => simp [Subject.onByDefault, Warning.onByDefault]
  | some on => cases on <;> simp

theorem noDirectives_intended_iff :
    (({} : Settings).applyNames flags).feature .noDirectives =
        intended flags (.feature .noDirectives) ↔
      (flags.filterMap (Subject.feature .noDirectives).said?).getLast? ≠ some true := by
  rw [feature_applyNames_noDirectives h, intended, filterMap_grouped?_feature]
  cases (flags.filterMap (Subject.feature .noDirectives).said?).getLast? with
  | none => simp [Subject.onByDefault, Feature.onByDefault]
  | some on => cases on <;> simp

end Outcome

/-- The last flag that names a warning or a feature decides, unless it is one of the two that do not
do what they are called. -/
theorem applyNames_intended_iff {flags : List String} (h : AreFlags flags) :
    (∀ x : Subject, x ≠ .warning .pedantic → x ≠ .feature .noDirectives →
      x.isOn (({} : Settings).applyNames flags) = intended flags x) ∧
    ((({} : Settings).applyNames flags).warning .pedantic = true ↔
      ∃ flag ∈ flags, flag ∈ ["pedantic", "Wpedantic", "Wno-pedantic"]) ∧
    (({} : Settings).applyNames flags).feature .noDirectives = false ∧
    ((∀ x : Subject, x.isOn (({} : Settings).applyNames flags) = intended flags x) ↔
      (flags.filterMap (Subject.warning .pedantic).said?).getLast? ≠ some false ∧
        (flags.filterMap (Subject.feature .noDirectives).said?).getLast? ≠ some true) := by
  refine ⟨fun x hWarning hFeature => isOn_applyNames_of_ne h hWarning hFeature,
    warning_applyNames_pedantic_iff h, feature_applyNames_noDirectives h, ?_⟩
  rw [← pedantic_intended_iff h, ← noDirectives_intended_iff h]
  constructor
  · intro hAll
    exact ⟨hAll (.warning .pedantic), hAll (.feature .noDirectives)⟩
  · rintro ⟨hPedantic, hDirectives⟩ x
    by_cases hWarning : x = .warning .pedantic
    · rw [hWarning]
      exact hPedantic
    · by_cases hFeature : x = .feature .noDirectives
      · rw [hFeature]
        exact hDirectives
      · exact isOn_applyNames_of_ne h hWarning hFeature

def mixedFlags : List String :=
  ["Wrecursion", "Wno-all", "pedantic", "Fno-split", "Wextra", "Wno-extra", "Fsplit", "Wno-recursion",
    "Wrecursion"]

theorem applyNames_intended_iff_mixedFlags :
    AreFlags mixedFlags ∧
      ∀ x : Subject, x.isOn (({} : Settings).applyNames mixedFlags) = intended mixedFlags x :=
  have hFlags : AreFlags mixedFlags := by decide
  ⟨hFlags, (applyNames_intended_iff hFlags).2.2.2.mpr (by decide)⟩

/-- The flags that should disable the pedantic warning and directives do neither. -/
theorem not_intended_contraryFlags :
    AreFlags ["Wno-pedantic", "Fno-directives"] ∧
      (({} : Settings).applyNames ["Wno-pedantic", "Fno-directives"]).warning .pedantic = true ∧
      intended ["Wno-pedantic", "Fno-directives"] (.warning .pedantic) = false ∧
      (({} : Settings).applyNames ["Wno-pedantic", "Fno-directives"]).feature .noDirectives = false ∧
      intended ["Wno-pedantic", "Fno-directives"] (.feature .noDirectives) = true := by
  decide

end Settings

end BatchCompiler
