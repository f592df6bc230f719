import BatchCompiler.Options.Reading
import BatchCompiler.Proofs.Text.Spelling
import Mathlib.Data.List.Nodup

/-!
# Spellings of options

However a command line spells its options, it says the same as one canonical line: `--name=value` for
each value that it gives, then `--` and the other arguments. An option that is found by its letter is
found by its name as well, because no two options have one name.
-/

namespace BatchCompiler.Options

open Text

/-- The one spelling that fits every option and every value. -/
def spelled (setting : String × String) : String :=
  "--" ++ setting.1 ++ "=" ++ setting.2

def Reading.canonical (reading : Reading) : List String :=
  reading.given.map spelled ++ "--" :: reading.arguments

namespace Registry

/-- What options can be defined and command lines be read into, in any order. -/
inductive Built : Registry → Prop where
  | empty : Built {}
  | define {r : Registry} (h : Built r) (d : Definition) : Built (r.define d).1
  | addGroup {r : Registry} (h : Built r) (g : Group) : Built (r.addGroup g).1
  | parse {r : Registry} (h : Built r) (arguments : List String) : Built (r.parse arguments).1

def names (r : Registry) : List String :=
  r.entries.map fun e => e.definition.name

section

variable {r : Registry} {e : Entry} {name value : String}

theorem nodup_names_define (h : r.names.Nodup) (d : Definition) : (r.define d).1.names.Nodup := by
  unfold define
  split
  · exact h
  · split
    · exact h
    · next hFree =>
      have hNew : d.name ∉ r.names := by
        intro hMem
        obtain ⟨e, he, hName⟩ := List.mem_map.mp hMem
        exact hFree (List.find?_isSome.mpr ⟨e, he, beq_iff_eq.mpr hName⟩)
      rw [names, List.map_append]
      exact List.concat_eq_append ▸ h.concat hNew

theorem nodup_names_defineAll (h : r.names.Nodup) (ds : List Definition) :
    (r.defineAll ds).1.names.Nodup := by
  induction ds generalizing r with
  | nil => exact h
  | cons d rest ih =>
    have hDefine := nodup_names_define h d
    unfold defineAll
    split
    · next hd => exact ih (by rwa [hd] at hDefine)
    · next hd => rwa [hd] at hDefine

theorem nodup_names_addGroup (h : r.names.Nodup) (g : Group) : (r.addGroup g).1.names.Nodup := by
  have hAll := nodup_names_defineAll h (g.entries.flatMap GroupEntry.definitions)
  unfold addGroup
  split
  · next hDefined => rwa [hDefined] at hAll
  · exact hAll

theorem names_give (r : Registry) (name value : String) : (r.give name value).names = r.names := by
  simp only [names, give, List.map_map]
  refine List.map_congr_left fun e _ => ?_
  simp only [Function.comp_apply]
  split <;> rfl

theorem names_giveAll (r : Registry) (given : List (String × String)) :
    (r.giveAll given).names = r.names := by
  induction given generalizing r with
  | nil => rfl
  | cons setting rest ih => exact (ih _).trans (names_give r _ _)

theorem Built.nodup_names (h : Built r) : r.names.Nodup := by
  induction h with
  | empty => exact List.nodup_nil
  | define _ d ih => exact nodup_names_define ih d
  | addGroup _ g ih => exact nodup_names_addGroup ih g
  | parse _ arguments ih => exact (names_giveAll _ _).symm ▸ ih

theorem find?_name_of_mem (h : r.names.Nodup) (he : e ∈ r.entries) :
    r.find? e.definition.name = some e := by
  obtain ⟨before, after, hEntries⟩ := List.append_of_mem he
  rw [names, hEntries, List.map_append] at h
  rw [find?, List.find?_eq_some_iff_append]
  refine ⟨beq_self_eq_true _, before, after, hEntries, fun x hx => ?_⟩
  have hName := List.disjoint_of_nodup_append h (List.mem_map_of_mem hx)
  rw [Bool.not_eq_true', beq_eq_false_iff_ne]
  exact fun hEq => hName (hEq ▸ List.mem_cons_self)

def Takes (r : Registry) (setting : String × String) : Prop :=
  ∃ e, r.find? setting.1 = some e ∧ e.definition.name = setting.1 ∧
    (e.value.given? setting.2).isSome

theorem mem_entries_of_resolve? {a : String} {v : Option String} (h : r.resolve? a = some (e, v)) :
    e ∈ r.entries := by
  simp only [resolve?] at h
  split at h
  · next hFind =>
    cases h
    exact List.mem_of_find?_eq_some hFind
  · split at h
    · cases h
    · split at h
      · cases h
      · obtain ⟨e', hShort, hEq⟩ := Option.map_eq_some_iff.mp h
        cases hEq
        unfold findShort? at hShort
        split at hShort
        · exact List.mem_of_find?_eq_some hShort
        · cases hShort

theorem mem_entries_of_request {a : String}
    (h : r.request a = .giveNext e ∨ ∃ v, r.request a = .give e v) : e ∈ r.entries := by
  unfold request at h
  split at h
  · simp at h
  · split at h
    · simp at h
    · split at h
      · simp at h
      · next hResolve =>
        simp only [Request.give.injEq, reduceCtorEq, false_or, exists_and_left] at h
        exact h.1 ▸ mem_entries_of_resolve? hResolve
      · next hResolve =>
        have hMem := mem_entries_of_resolve? hResolve
        split at h
        · simp only [Request.give.injEq, reduceCtorEq, false_or, exists_and_left] at h
          exact h.1 ▸ hMem
        · simp only [Request.giveNext.injEq, reduceCtorEq, exists_false, or_false] at h
          exact h ▸ hMem

theorem takes_accept {later : Reading} (h : r.names.Nodup) (he : e ∈ r.entries)
    (hLater : later.error = none → ∀ setting ∈ later.given, r.Takes setting)
    (hAccept : (accept e value later).error = none) :
    ∀ setting ∈ (accept e value later).given, r.Takes setting := by
  cases hTaken : e.value.given? value with
  | none => simp [accept, hTaken] at hAccept
  | some v =>
    simp only [accept, hTaken, Reading.give] at hAccept ⊢
    refine List.forall_mem_cons.mpr ⟨?_, hLater hAccept⟩
    exact ⟨e, find?_name_of_mem h he, rfl, Option.isSome_of_eq_some hTaken⟩

theorem takes_of_read (h : r.names.Nodup) (arguments : List String) :
    (r.read arguments).error = none → ∀ setting ∈ (r.read arguments).given, r.Takes setting := by
  fun_induction read r arguments with
  | case1 => simp
  | case2 a rest hArgument ih => exact ih
  | case3 => simp
  | case4 => simp
  | case5 a rest e value hGive ih => exact takes_accept h (mem_entries_of_request (.inr ⟨_, hGive⟩)) ih
  | case6 => simp
  | case7 a e hNext value rest ih => exact takes_accept h (mem_entries_of_request (.inl hNext)) ih

theorem cutOnce_append {sep : Char} {before : List Char} (h : sep ∉ before) (after : List Char) :
    cutOnce sep (before ++ sep :: after) = (before, some after) := by
  induction before with
  | nil => simp [cutOnce]
  | cons c rest ih =>
    rw [List.mem_cons, not_or] at h
    have hc : (c == sep) = false := by simpa using Ne.symm h.1
    simp [cutOnce, hc, ih h.2]

theorem spelled_eq (name value : String) :
    spelled (name, value) = "-" ++ ("-" ++ (name ++ "=" ++ value)) := by
  simp [spelled, ← String.toList_inj]

theorem resolve?_spelled (hFind : r.find? name = some e) (hName : '=' ∉ name.toList) :
    r.resolve? (spelled (name, value)) = some (e, some value) := by
  have hCut : cutOnce '=' (name ++ "=" ++ value).toList = (name.toList, some value.toList) := by
    simpa using cutOnce_append hName value.toList
  simp only [resolve?, spelled_eq, dropLead_append, hCut, String.ofList_toList, hFind,
    Option.map_some]

theorem request_spelled (hFind : r.find? name = some e) (hName : '=' ∉ name.toList) :
    r.request (spelled (name, value)) = .give e value := by
  have hEquals : '=' ∈ (spelled (name, value)).toList := by simp [spelled]
  have hDash : spelled (name, value) ≠ "-" := fun h => absurd (h ▸ hEquals) (by decide)
  have hEnd : spelled (name, value) ≠ "--" := fun h => absurd (h ▸ hEquals) (by decide)
  have hOption : isOption (spelled (name, value)) = true := by
    rw [isOption, decide_eq_true hDash, Bool.and_true, spelled_eq]
    exact startsWith_append _ _
  unfold request
  rw [hOption, if_neg hEnd, resolve?_spelled hFind hName]
  rfl

theorem read_spelled (hTakes : r.Takes (name, value)) (hName : '=' ∉ name.toList)
    (rest : List String) :
    r.read (spelled (name, value) :: rest) = (r.read rest).give name value := by
  obtain ⟨e, hFind, rfl, hTaken⟩ := hTakes
  obtain ⟨v, hv⟩ := Option.isSome_iff_exists.mp hTaken
  simp only [read, request_spelled hFind hName, accept, hv]

theorem read_canonical {reading : Reading} (hTakes : ∀ setting ∈ reading.given, r.Takes setting)
    (hNames : ∀ e ∈ r.entries, '=' ∉ e.definition.name.toList) :
    r.read reading.canonical = { given := reading.given, arguments := reading.arguments } := by
  obtain ⟨given, arguments, error⟩ := reading
  induction given with
  | nil =>
    have hEnd : r.request "--" = .endOfOptions := by
      rw [request, if_neg (by decide), if_pos rfl]
    simp only [Reading.canonical, List.map_nil, List.nil_append, read, hEnd]
  | cons setting rest ih =>
    obtain ⟨hFirst, hRest⟩ := List.forall_mem_cons.mp hTakes
    have hEquals : '=' ∉ setting.1.toList := by
      obtain ⟨e, hFind, hName, -⟩ := hFirst
      exact hName ▸ hNames e (List.mem_of_find?_eq_some hFind)
    have hRead := read_spelled hFirst hEquals (rest.map spelled ++ "--" :: arguments)
    exact hRead.trans (congrArg (Reading.give setting.1 setting.2) (ih hRest))

end

/-- A command line that is read without an error says the same in canonical spelling: the options get
the same values in the same order, and the other arguments are the same. -/
theorem parse_canonical {r : Registry} (hBuilt : r.Built)
    (hNames : ∀ e ∈ r.entries, '=' ∉ e.definition.name.toList) {arguments : List String}
    (hRead : (r.parse arguments).2.error = none) :
    r.parse (r.parse arguments).2.canonical = r.parse arguments := by
  have hTakes := takes_of_read hBuilt.nodup_names arguments hRead
  have hCanonical : r.read (r.read arguments).canonical = r.read arguments := by
    rw [read_canonical hTakes hNames]
    exact congrArg (Reading.mk _ _) hRead.symm
  simp only [parse, hCanonical]

def mixedOptions : Registry :=
  (((({} : Registry).define { name := "output", short := "o", initial := .text "" }).1.define
    { name := "verbose", short := "v", initial := .switch false }).1.define
    { name := "define", short := "D", initial := .texts [] }).1

def mixedLine : List String :=
  ["-oa", "-v", "--define", "-v", "in", "-D=x=y", "-define=", "-verbose=F", "--output", "--", "-",
    "--", "-v"]

theorem parse_canonical_mixedLine :
    (mixedOptions.parse mixedLine).2.error = none ∧
      (mixedOptions.parse mixedLine).2.canonical =
        ["--output=a", "--verbose=", "--define=-v", "--define=x=y", "--define=", "--verbose=F",
          "--output=--", "--", "in", "-", "-v"] ∧
      mixedOptions.parse (mixedOptions.parse mixedLine).2.canonical =
        mixedOptions.parse mixedLine := by
  have hRead : (mixedOptions.parse mixedLine).2.error = none := by decide +kernel
  refine ⟨hRead, by decide +kernel, parse_canonical ?_ (by decide +kernel) hRead⟩
  exact ((Built.empty.define _).define _).define _

end Registry

end BatchCompiler.Options
