import BatchCompiler.Proofs.Syntax.Acceptance

/-!
# Directives

The directives behind the parser and those still ahead make up the settings that parsing ends with.
The elementary steps of the parser keep these settings, so every parser does.
-/

namespace BatchCompiler.Syntax

variable {s : State} {settings : Settings} {ts : List Token}

def directed (settings : Settings) (ts : List Token) : Settings :=
  (ts.filter fun t => t.kind = .directive).foldl (fun s t => (s.applyDirective t.value).1) settings

theorem directed_cons_of_directive {t : Token} (h : t.kind = .directive) :
    directed settings (t :: ts) = directed (settings.applyDirective t.value).1 ts := by
  simp [directed, h]

theorem directed_cons_of_ne {t : Token} (h : t.kind ≠ .directive) :
    directed settings (t :: ts) = directed settings ts := by
  simp [directed, h]

/-- The settings will be `settings` when all tokens are used up, and the last token is an end of
file. -/
structure State.Heads (settings : Settings) (s : State) : Prop where
  directed_eq : directed s.settings s.rest = settings
  last : ∀ t, s.rest.getLast? = some t → t.kind = .eof

theorem heads_settle (hLast : ∀ t, ts.getLast? = some t → t.kind = .eof) :
    (s.settle ts).Heads (directed s.settings ts) := by
  induction ts generalizing s with
  | nil => exact ⟨rfl, hLast⟩
  | cons t rest ih =>
    have hRest : ∀ x, rest.getLast? = some x → x.kind = .eof := by
      intro x hx
      apply hLast x
      rw [List.getLast?_cons, hx]
      rfl
    unfold State.settle
    split
    · next hKind =>
      rw [directed_cons_of_directive hKind]
      exact ih (s := s.applyDirective t) hRest
    · next hKind =>
      have hSettings : (s.keepComment t).settings = s.settings := by
        unfold State.keepComment
        split <;> rfl
      rw [directed_cons_of_ne (by simp [hKind]), ← hSettings]
      exact ih hRest
    · next hDirective _ =>
      exact ⟨(directed_cons_of_ne hDirective).symm, hRest⟩

theorem stable_heads (settings : Settings) : Stable (State.Heads settings) where
  advance s hs := hs.directed_eq ▸ heads_settle (s := { s with previous := s.current }) hs.last
  drain _ hs := ⟨hs.directed_eq, hs.last⟩
  depth _ _ hs := ⟨hs.directed_eq, hs.last⟩

theorem rest_eq_nil (hHeads : s.Heads settings) (hAhead : s.ahead = [s.current]) : s.rest = [] := by
  have hFilter : s.rest.filter isSignificant = [] := (List.cons.inj hAhead).2
  rcases List.eq_nil_or_concat s.rest with hNil | ⟨front, last, hConcat⟩
  · exact hNil
  · have hKind := hHeads.last last (by simp [hConcat])
    rw [hConcat] at hFilter
    simp [isSignificant, hKind] at hFilter

theorem settings_of_parse {tokens : List Token} {p : Parsed} {root : Node} (hClosed : Closed tokens)
    (h : parse? settings tokens = some p) (hRoot : p.result = .ok root) :
    p.settings = directed settings tokens := by
  obtain ⟨s, hStart, hAhead, hFuel⟩ := exists_start?_eq_some settings hClosed
  have hHeads : s.Heads (directed settings tokens) := by
    obtain ⟨last, hLast, rfl⟩ := Option.map_eq_some_iff.mp hStart
    obtain ⟨us, eof, rfl, hEof, _⟩ := hClosed
    rw [List.getLast?_concat] at hLast
    cases hLast
    refine heads_settle (s := { rest := [], last := last, current := last, settings := settings }) ?_
    simp [hEof]
  rw [parse?, hStart] at h
  simp only [Option.map_some, Option.some.injEq] at h
  cases hRun : Parser.program (fuelFor tokens.length) s with
  | stop why s' =>
    rw [hRun] at h
    subst h
    cases hRoot
  | ok tree s' =>
    rw [hRun] at h
    subst h
    have hEnd := (Parser.formed_of_program (N := fun _ => True) (stable_heads _)
      (fun _ _ _ => trivial) hHeads hRun).2
    have hOnly := (Parser.program_of_eq_ok (hAhead ▸ closed_filter hClosed) hFuel hRun).2
    have hFinal := hEnd.directed_eq
    rw [rest_eq_nil hEnd hOnly] at hFinal
    exact hFinal

end BatchCompiler.Syntax
