import BatchCompiler.Command.Job
import BatchCompiler.Proofs.Settings.Patches
import BatchCompiler.Proofs.Source.Rescanning
import BatchCompiler.Proofs.Syntax.Invariants

/-!
# The two passes over the files

The first pass ends with the settings that all directives make. Under these settings the files hold
the same tokens up to comments, and the directives among them change nothing more.
-/

namespace BatchCompiler

namespace Syntax

variable {settings a b : Settings} {ts us : List Token}

def directiveFlags (ts : List Token) : List String :=
  (ts.filter fun t => t.kind = .directive).flatMap fun t => Text.words t.value

theorem directed_eq (settings : Settings) (ts : List Token) :
    directed settings ts = (Settings.patchOf (directiveFlags ts)).apply settings := by
  unfold directed directiveFlags
  generalize ts.filter (fun t => t.kind = .directive) = us
  induction us generalizing settings with
  | nil => rfl
  | cons t rest ih =>
    rw [List.foldl_cons, List.flatMap_cons, Settings.patchOf_append, Settings.Patch.apply_andThen,
      ih, Settings.applyDirective, Settings.applyWords_eq]

theorem directed_again (settings : Settings) (ts : List Token) :
    directed (directed settings ts) ts = directed settings ts := by
  simp only [directed_eq, Settings.Patch.apply_apply]

theorem directed_of_no_directive (h : ∀ t ∈ ts, t.kind ≠ .directive) :
    directed settings ts = settings := by
  have hFilter : ts.filter (fun t => t.kind = .directive) = [] :=
    List.filter_eq_nil_iff.mpr (by simpa using h)
  rw [directed, hFilter]
  rfl

theorem filter_congr_of_withoutComments {p : Token → Bool} (hp : ∀ t, p t = true → t.kind ≠ .comment)
    (h : withoutComments us = withoutComments ts) : us.filter p = ts.filter p := by
  have hFilter : ∀ l : List Token, (withoutComments l).filter p = l.filter p := by
    intro l
    rw [withoutComments, List.filter_filter]
    refine List.filter_congr fun t _ => ?_
    cases ht : p t with
    | true => simp [hp t ht]
    | false => rfl
  rw [← hFilter us, h, hFilter]

theorem directed_congr (h : withoutComments us = withoutComments ts) :
    directed settings us = directed settings ts := by
  rw [directed, directed, filter_congr_of_withoutComments (by simp_all) h]

end Syntax

namespace Command

open Syntax

variable {settings : Settings} {index : Nat} {ts : List Token} {inputs : List Input}

theorem map_eq_ok_iff {ε α β : Type} {f : α → β} {x : Except ε α} {b : β} :
    x.map f = .ok b ↔ ∃ a, x = .ok a ∧ b = f a := by
  cases x with
  | error e => simp [Except.map]
  | ok a => simp [Except.map, eq_comm]

theorem result_scanFrom_cons {i : Input} {rest : List Input} :
    (scanFrom settings index (i :: rest)).result = .ok ts ↔
      ∃ bytes first s more, i.content = .ok bytes ∧
        (Scanner.start settings index (Text.decodeUtf8 bytes)).tokens = (first, s) ∧
        s.error = none ∧ (scanFrom settings (index + 1) rest).result = .ok more ∧
        ts = first.filter (fun t => t.kind ≠ .eof) ++ more := by
  rw [scanFrom]
  cases hContent : i.content with
  | error why => simp
  | ok bytes =>
    rcases hTokens : (Scanner.start settings index (Text.decodeUtf8 bytes)).tokens with ⟨first, s⟩
    cases hError : s.error with
    | some d => simp [hError, hTokens]
    | none =>
      simp only [hTokens, hError, map_eq_ok_iff, Except.ok.injEq]
      constructor
      · rintro ⟨more, hMore, hTs⟩
        exact ⟨bytes, first, s, more, rfl, hTokens, hError, hMore, hTs⟩
      · rintro ⟨_, _, _, more, rfl, hAgain, _, hMore, hTs⟩
        cases hTokens.symm.trans hAgain
        exact ⟨more, hMore, hTs⟩

theorem forall_of_scanFrom {P : Token → Prop}
    (hP : ∀ (file : Nat) source, ∀ t ∈ (Scanner.start settings file source).tokens.1,
      t.kind ≠ .eof → P t) (h : (scanFrom settings index inputs).result = .ok ts) :
    ∀ t ∈ ts, P t := by
  induction inputs generalizing index ts with
  | nil =>
    cases h
    exact List.forall_mem_nil _
  | cons i rest ih =>
    obtain ⟨bytes, first, s, more, _, hTokens, _, hMore, rfl⟩ := result_scanFrom_cons.mp h
    rw [List.forall_mem_append]
    constructor
    · intro t ht
      obtain ⟨hMem, hKind⟩ := List.mem_filter.mp ht
      exact hP index (Text.decodeUtf8 bytes) t (hTokens ▸ hMem) (by simpa using hKind)
    · exact ih hMore

theorem scanFrom_alike (h : a.Alike b) (hScan : (scanFrom a index inputs).result = .ok ts) :
    ∃ us, (scanFrom b index inputs).result = .ok us ∧ withoutComments us = withoutComments ts := by
  induction inputs generalizing index ts with
  | nil => exact ⟨ts, hScan, rfl⟩
  | cons i rest ih =>
    obtain ⟨bytes, first, s, more, hContent, hTokens, hError, hMore, rfl⟩ :=
      result_scanFrom_cons.mp hScan
    obtain ⟨later, hLater, hSame⟩ := ih hMore
    have hReads := (Scanner.start a index (Text.decodeUtf8 bytes)).reads_tokens
    rw [hTokens] at hReads
    obtain ⟨us, u, hAgain, hSameFirst, hEnd⟩ :=
      hReads.alike (u := Scanner.start b index (Text.decodeUtf8 bytes)) ⟨h, rfl, rfl, rfl⟩
    refine ⟨_, result_scanFrom_cons.mpr ⟨bytes, us, u, later, hContent,
      Scanner.tokens_eq hAgain, hEnd.trans hError, hLater, rfl⟩, ?_⟩
    have hSwap : ∀ l : List Token, withoutComments (l.filter fun t => t.kind ≠ .eof) =
        (withoutComments l).filter fun t => t.kind ≠ .eof := by
      intro l
      simp only [withoutComments, List.filter_filter, Bool.and_comm]
    rw [withoutComments_append, withoutComments_append, hSwap, hSwap, hSameFirst, hSame]

theorem result_scan :
    (scan settings inputs).result = .ok ts ↔
      ∃ us, (scanFrom settings 0 inputs).result = .ok us ∧ ts = us ++ [finalToken inputs] := by
  exact map_eq_ok_iff

theorem scan_alike (h : a.Alike b) (hScan : (scan a inputs).result = .ok ts) :
    ∃ us, (scan b inputs).result = .ok us ∧ withoutComments us = withoutComments ts := by
  obtain ⟨first, hFirst, rfl⟩ := result_scan.mp hScan
  obtain ⟨us, hUs, hSame⟩ := scanFrom_alike h hFirst
  refine ⟨_, result_scan.mpr ⟨us, hUs, rfl⟩, ?_⟩
  rw [withoutComments_append, withoutComments_append, hSame]

theorem closed_of_scan (h : (scan settings inputs).result = .ok ts) : Closed ts := by
  obtain ⟨us, hUs, rfl⟩ := result_scan.mp h
  exact ⟨us, finalToken inputs, rfl, rfl, forall_of_scanFrom (fun _ _ _ _ hKind => hKind) hUs⟩

theorem kind_ne_directive_of_scan (hOff : settings.feature .noDirectives = true)
    (h : (scan settings inputs).result = .ok ts) : ∀ t ∈ ts, t.kind ≠ .directive := by
  obtain ⟨us, hUs, rfl⟩ := result_scan.mp h
  rw [List.forall_mem_append]
  constructor
  · refine forall_of_scanFrom (P := fun t => t.kind ≠ .directive) ?_ hUs
    intro file source t ht _
    exact (Scanner.start settings file source).reads_tokens.kind_ne_directive hOff t ht
  · simp [finalToken]

theorem alike_directed (h : (scan settings inputs).result = .ok ts) :
    settings.Alike (directed settings ts) := by
  cases hOff : settings.feature .noDirectives with
  | true =>
    rw [directed_of_no_directive (kind_ne_directive_of_scan hOff h)]
    exact ⟨rfl, rfl⟩
  | false =>
    rw [directed_eq]
    exact ⟨hOff.trans (Settings.feature_noDirectives_apply _ hOff).symm, rfl⟩

theorem settingsOfPass_eq {p : Parsed} (hScan : (scan settings inputs).result = .ok ts)
    (hParse : parse? settings ts = some p) : settingsOfPass settings inputs = p.settings := by
  rw [settingsOfPass, hScan]
  simp only [hParse]

/-- After a first pass without errors the settings are those that all directives make, in order; the
second pass reads the same tokens up to comments, parses them without an error and leaves the
settings as they are. Flags that were applied before change nothing. -/
theorem passes_stable {settings : Settings} {inputs : List Input} {ts : List Token} {p : Parsed}
    {root : Node} (hScan : (scan settings inputs).result = .ok ts)
    (hParse : parse? settings ts = some p) (hRoot : p.result = .ok root) :
    p.settings = directed settings ts ∧ settingsOfPass settings inputs = p.settings ∧
    (∃ us p' root', (scan p.settings inputs).result = .ok us ∧
      withoutComments us = withoutComments ts ∧ parse? p.settings us = some p' ∧
      p'.result = .ok root' ∧ p'.settings = p.settings) ∧
    settingsOfPass p.settings inputs = p.settings ∧
    ∀ (s : Settings) (flags : List String),
      ((s.applyWords flags).1.applyWords flags).1 = (s.applyWords flags).1 := by
  have hClosed := closed_of_scan hScan
  have hFirst := settings_of_parse hClosed hParse hRoot
  obtain ⟨us, hAgain, hSame⟩ := scan_alike (alike_directed hScan) hScan
  rw [← hFirst] at hAgain
  have hClosed' := closed_of_scan hAgain
  obtain ⟨_, p', hParse', _, _⟩ := exists_parse?_eq_some p.settings hClosed'
  have hProgram := (result_iff_program hClosed hParse).mp ⟨root, hRoot, rfl⟩
  rw [← filter_congr_of_withoutComments (by simp_all [isSignificant]) hSame] at hProgram
  obtain ⟨root', hRoot', _⟩ := (result_iff_program hClosed' hParse').mpr hProgram
  have hSecond : p'.settings = p.settings := by
    rw [settings_of_parse hClosed' hParse' hRoot', directed_congr hSame, hFirst, directed_again]
  refine ⟨hFirst, settingsOfPass_eq hScan hParse, ?_, ?_, Settings.applyWords_again⟩
  · exact ⟨us, p', root', hAgain, hSame, hParse', hRoot', hSecond⟩
  · rw [settingsOfPass_eq hAgain hParse', hSecond]

/-- The first file drops comments and holds one; the second has a directive behind its last
statement. -/
def directedFiles : List Input :=
  [{ path := "a.gb"
     content := .ok (Text.encodeUtf8 "// [gbat]: -Fno-keep-comments -Wall\n// note\nx = 1;") },
   { path := "b.gb", content := .ok (Text.encodeUtf8 "f(x); // [gbat]: Wno-extra odd") }]

theorem passes_stable_directedFiles :
    ∃ ts p root, (scan {} directedFiles).result = .ok ts ∧ parse? {} ts = some p ∧
      p.result = .ok root ∧ p.settings.feature .keepComments = false ∧
      settingsOfPass p.settings directedFiles = p.settings ∧
      ∃ us, (scan p.settings directedFiles).result = .ok us ∧ us.length + 1 = ts.length ∧
        withoutComments us = withoutComments ts := by
  have hEval : (scan {} directedFiles).result.toOption.bind (fun ts =>
      (parse? {} ts).map fun p =>
        (p.result.toOption.isSome, p.settings.feature .keepComments, ts.length,
          (scan p.settings directedFiles).result.toOption.map List.length)) =
      some (true, false, 13, some 12) := by decide +kernel
  cases hScan : (scan {} directedFiles).result with
  | error a =>
    rw [hScan] at hEval
    cases hEval
  | ok ts =>
    rw [hScan] at hEval
    obtain ⟨p, hParse, hFacts⟩ := Option.map_eq_some_iff.mp hEval
    simp only [Prod.mk.injEq] at hFacts
    obtain ⟨hAccepted, hKeep, hLength, hAgain⟩ := hFacts
    cases hRoot : p.result with
    | error why =>
      rw [hRoot] at hAccepted
      cases hAccepted
    | ok root =>
      obtain ⟨_, _, ⟨us, _, _, hUs, hSame, _⟩, hStable, _⟩ := passes_stable hScan hParse hRoot
      refine ⟨ts, p, root, rfl, hParse, hRoot, hKeep, hStable, us, hUs, ?_, hSame⟩
      rw [hUs] at hAgain
      have hShorter : us.length = 12 := Option.some.inj hAgain
      omega

end Command

end BatchCompiler
