import BatchCompiler.Golden.Comparison
import BatchCompiler.Proofs.Text.Spelling
import Mathlib

/-!
# Agreement with a golden record

A compilation passes if it agrees with its record up to the lines that hold an ignored text. What is
left of a text determines what is left of it when more is ignored, so that ignoring more never makes
a comparison fail.
-/

namespace BatchCompiler.Golden

open Text

/-- Nothing that is ignored stands on the line; the empty text stands on no line. -/
abbrev Shown (ignored : List String) (line : List Char) : Prop :=
  ∀ part ∈ ignored, part ≠ "" → ¬part.toList <:+: line

def remaining (ignored : List String) (text : List Char) : List Char :=
  ['\n'].intercalate ((text.splitOn '\n').filter fun line => Shown ignored line)

theorem occursIn_iff (part cs : List Char) : occursIn part cs = true ↔ part <:+: cs := by
  induction cs with
  | nil => simp [occursIn]
  | cons c rest ih =>
    rw [occursIn, Bool.or_eq_true, ih, List.infix_cons_iff, Option.isSome_iff_exists]
    exact or_congr_left (exists_congr fun t => afterLead?_eq_some_iff.trans eq_comm)

theorem isIgnored_eq_not_shown (ignored : List String) (line : List Char) :
    isIgnored ignored (String.ofList line) = !decide (Shown ignored line) := by
  rw [Bool.eq_iff_iff]
  simp [isIgnored, Text.contains, occursIn_iff]

theorem splitFrom_eq (sep : Char) (piece cs : List Char) :
    splitFrom sep piece cs = List.splitOnPPrepend (· == sep) cs piece := by
  induction cs generalizing piece with
  | nil => rfl
  | cons c rest ih => rw [splitFrom, List.splitOnPPrepend, ih, ih]

theorem toList_joinWith (lines : List (List Char)) :
    (joinWith "\n" (lines.map String.ofList)).toList = ['\n'].intercalate lines := by
  induction lines with
  | nil => rfl
  | cons line rest ih =>
    cases rest with
    | nil => simp [joinWith]
    | cons next rest =>
      rw [List.map_cons, List.map_cons, joinWith, String.toList_append, ← List.map_cons, ih]
      · simp
      · exact List.cons_ne_nil _ _

theorem shown_empty (ignored : List String) : Shown ignored [] := by
  simp [Shown]

theorem remaining_nil (ignored : List String) : remaining ignored [] = [] := by
  simp [remaining, decide_eq_true (shown_empty ignored)]

theorem toList_withoutIgnored (text : String) (ignored : List String) :
    (withoutIgnored text ignored).toList = remaining ignored text.toList := by
  unfold withoutIgnored
  split
  · next hPlain =>
    rcases (Bool.or_eq_true _ _).mp hPlain with hNone | hEmpty
    · have hAll : ∀ line, decide (Shown [] line) = true := by simp [Shown]
      simp only [remaining, List.isEmpty_iff.mp hNone, hAll, List.filter_true,
        List.intercalate_splitOn]
    · rw [of_decide_eq_true hEmpty]
      exact (remaining_nil ignored).symm
  · have hLines : splitAt '\n' text = (text.toList.splitOn '\n').map String.ofList :=
      congrArg _ (splitFrom_eq '\n' [] text.toList)
    rw [hLines, List.filter_map, toList_joinWith, remaining]
    simp only [Function.comp_def, isIgnored_eq_not_shown, Bool.not_not]

theorem withoutIgnored_inj {a b : String} {ignored : List String} :
    withoutIgnored a ignored = withoutIgnored b ignored ↔
      remaining ignored a.toList = remaining ignored b.toList := by
  rw [← String.toList_inj, toList_withoutIgnored, toList_withoutIgnored]

theorem not_mem_of_mem_splitOn {a : Char} {cs line : List Char} (h : line ∈ cs.splitOn a) :
    a ∉ line := by
  induction cs generalizing line with
  | nil => simp_all
  | cons c rest ih =>
    rw [List.splitOn, List.splitOnP_cons_eq_if_modifyHead] at h
    split at h
    · rcases List.mem_cons.mp h with rfl | h
      · exact List.not_mem_nil
      · exact ih h
    · next hc =>
      obtain ⟨first, others, hSplit⟩ := List.exists_cons_of_ne_nil (List.splitOnP_ne_nil (· == a) rest)
      rw [hSplit, List.modifyHead_cons] at h
      rw [List.splitOn, hSplit] at ih
      rcases List.mem_cons.mp h with rfl | h
      · refine List.not_mem_cons_of_ne_of_not_mem (fun hEq => ?_) (ih List.mem_cons_self)
        exact hc (beq_iff_eq.mpr hEq.symm)
      · exact ih (List.mem_cons_of_mem _ h)

theorem remaining_remaining {ignored more : List String} (h : ignored ⊆ more) (text : List Char) :
    remaining more (remaining ignored text) = remaining more text := by
  have hTwice : ((text.splitOn '\n').filter fun line => Shown ignored line).filter
      (fun line => Shown more line) = (text.splitOn '\n').filter fun line => Shown more line := by
    rw [List.filter_filter]
    refine List.filter_congr fun line _ => ?_
    simp only [Bool.and_eq_left_iff_imp, decide_eq_true_eq]
    exact fun hLine part hPart => hLine part (h hPart)
  by_cases hNone : ((text.splitOn '\n').filter fun line => Shown ignored line) = []
  · rw [hNone, List.filter_nil] at hTwice
    rw [remaining.eq_1 ignored, hNone, remaining.eq_1 more text, ← hTwice]
    exact remaining_nil more
  · have hLines := List.splitOn_intercalate '\n'
      (fun line hLine => not_mem_of_mem_splitOn (List.mem_of_mem_filter hLine)) hNone
    rw [remaining.eq_1 more, remaining.eq_1 ignored, hLines, hTwice, remaining]

/-- The two compilations agree when nothing but ignored lines tells them apart. -/
structure Agrees (ignored : List String) (golden target : Record) : Prop where
  inTime : target.compile.timedOut = false
  exitCode : golden.compile.exitCode = target.compile.exitCode
  diagnostics : remaining ignored golden.compile.stderr.toList =
    remaining ignored target.compile.stderr.toList
  script : remaining ignored golden.script.toList = remaining ignored target.script.toList

theorem mismatches_eq_nil_iff (ignored : List String) (golden target : Record) :
    mismatches ignored golden target = [] ↔ Agrees ignored golden target := by
  simp only [mismatches, List.append_eq_nil_iff, ite_eq_right_iff, List.cons_ne_nil, imp_false,
    Bool.not_eq_true, not_not, withoutIgnored_inj]
  constructor
  · rintro ⟨⟨⟨hTime, hExit⟩, hDiagnostics⟩, hScript⟩
    exact ⟨hTime, hExit, hDiagnostics, hScript⟩
  · intro h
    exact ⟨⟨⟨h.inTime, h.exitCode⟩, h.diagnostics⟩, h.script⟩

theorem Agrees.extend {ignored more : List String} {golden target : Record} (h : ignored ⊆ more)
    (hAgrees : Agrees ignored golden target) : Agrees more golden target where
  inTime := hAgrees.inTime
  exitCode := hAgrees.exitCode
  diagnostics := by
    rw [← remaining_remaining h, hAgrees.diagnostics, remaining_remaining h]
  script := by
    rw [← remaining_remaining h, hAgrees.script, remaining_remaining h]

theorem status_compare_eq_pass_iff (ignored : List String) (file : String) (golden target : Record) :
    (compare ignored file golden target).status = .pass ↔ Agrees ignored golden target := by
  rw [← mismatches_eq_nil_iff, compare]
  split
  · next hNone => simpa using hNone
  · next hSome => simpa using hSome

/-- A comparison passes just when the target was in time, ended like its record, and differs from it
in ignored lines only; and then it passes whatever else is ignored. -/
theorem compare_passes (ignored : List String) (file : String) (golden target : Record) :
    ((compare ignored file golden target).status = .pass ↔ Agrees ignored golden target) ∧
      ((compare ignored file golden target).status = .pass → ∀ more, ignored ⊆ more →
        (compare more file golden target).status = .pass) := by
  refine ⟨status_compare_eq_pass_iff ignored file golden target, fun hPass more hMore => ?_⟩
  rw [status_compare_eq_pass_iff] at hPass ⊢
  exact hPass.extend hMore

/-- A record whose diagnostics are all ignored, against a compilation without any. -/
theorem compare_passes_ignoredRemark :
    let golden : Record := { compile := { stderr := "remark: a\nremark: b" }, script := "x\n" }
    let target : Record := { script := "x\ny remark" }
    (compare ["remark"] "f" golden target).status = .fail ∧
      (compare ["remark", "", "x"] "f" golden target).status = .pass ∧
      (compare ["x", "", "remark", "w"] "f" golden target).status = .pass := by
  intro golden target
  have hPass : (compare ["remark", "", "x"] "f" golden target).status = .pass := by decide +kernel
  refine ⟨by decide +kernel, hPass, (compare_passes _ "f" golden target).2 hPass _ (by decide)⟩

end BatchCompiler.Golden
