import BatchCompiler.Proofs.Settings.Patches
import BatchCompiler.Proofs.Source.Rescanning
import BatchCompiler.Proofs.Syntax.Reading

/-!
# Trees without comments

A parser that is given all tokens and one that is given those that are no comments go the same way,
token by token. They stop at the same problem, or the second one builds the tree of the first
without its comments. Along the way their states differ in the comments still to come, in those that
wait, and in whether the settings say that comments are kept.
-/

namespace BatchCompiler

namespace Settings

structure SameButComments (a b : Settings) : Prop where
  feature : ∀ f, f ≠ .keepComments → a.feature f = b.feature f
  warning : a.warning = b.warning
  directiveMark : a.directiveMark = b.directiveMark

theorem SameButComments.patch {a b : Settings} (h : a.SameButComments b) (p : Patch) :
    (p.apply a).SameButComments (p.apply b) where
  feature f hf := by simp only [Patch.apply, h.feature f hf]
  warning := by simp only [Patch.apply, h.warning]
  directiveMark := h.directiveMark

theorem SameButComments.alike {a b : Settings} (h : a.SameButComments b) : a.Alike b :=
  ⟨h.feature .noDirectives (by decide), h.directiveMark⟩

theorem snd_applyWords (s : Settings) (ws : List String) :
    (s.applyWords ws).2 = ws.filter fun w => (Flag.ofText w).patch?.isNone := by
  fun_induction applyWords s ws with
  | case1 s => rfl
  | case2 s w rest s' hFlag ih =>
    obtain ⟨p, hPatch, _⟩ := Option.map_eq_some_iff.mp ((applyFlag?_eq s _).symm.trans hFlag)
    rw [ih, List.filter_cons_of_neg (by simp [hPatch])]
  | case3 s w rest hFlag s' unknown hRest ih =>
    have hPatch := Option.map_eq_none_iff.mp ((applyFlag?_eq s _).symm.trans hFlag)
    rw [hRest] at ih
    rw [List.filter_cons_of_pos (by simp [hPatch]), ← ih]

theorem SameButComments.remark {a b : Settings} (h : a.SameButComments b) (w : Warning)
    (span : Span) (message : String) : a.remark w span message = b.remark w span message := by
  simp only [Settings.remark, h.warning]

end Settings

namespace Syntax

structure State.Matches (s u : State) : Prop where
  rest : u.rest = withoutComments s.rest
  last : u.last = s.last
  current : u.current = s.current
  settings : s.settings.SameButComments u.settings
  depth : u.depth = s.depth
  pending : u.pending = []
  remarks : u.remarks = s.remarks

namespace State.Matches

variable {s u : State}

theorem applyDirective (h : s.Matches u) (t : Token) :
    (s.applyDirective t).Matches (u.applyDirective t) where
  rest := h.rest
  last := h.last
  current := h.current
  settings := by
    simp only [State.applyDirective, Settings.applyDirective, Settings.applyWords_eq]
    exact h.settings.patch _
  depth := h.depth
  pending := h.pending
  remarks := by
    have hSettings : (s.settings.applyDirective t.value).1.SameButComments
        (u.settings.applyDirective t.value).1 := by
      simp only [Settings.applyDirective, Settings.applyWords_eq]
      exact h.settings.patch _
    have hUnknown : (u.settings.applyDirective t.value).2 = (s.settings.applyDirective t.value).2 := by
      simp only [Settings.applyDirective, Settings.snd_applyWords]
    simp only [State.applyDirective, h.remarks, hUnknown, hSettings.remark]

theorem keepComment (h : s.Matches u) (t : Token) : (s.keepComment t).Matches u := by
  unfold State.keepComment
  split
  · exact ⟨h.rest, h.last, h.current, h.settings, h.depth, h.pending, h.remarks⟩
  · exact h

theorem settle (h : s.Matches u) (ts : List Token) :
    (s.settle ts).Matches (u.settle (withoutComments ts)) := by
  induction ts generalizing s u with
  | nil => exact ⟨rfl, h.last, h.last, h.settings, h.depth, h.pending, h.remarks⟩
  | cons t rest ih =>
    by_cases hComment : t.kind = .comment
    · have hTokens : withoutComments (t :: rest) = withoutComments rest := by
        simp [withoutComments, hComment]
      rw [hTokens, State.settle, hComment]
      exact ih (h.keepComment t)
    · have hTokens : withoutComments (t :: rest) = t :: withoutComments rest := by
        simp [withoutComments, hComment]
      rw [hTokens, State.settle, State.settle]
      split
      · exact ih (h.applyDirective t)
      · contradiction
      · exact ⟨rfl, h.last, rfl, h.settings, h.depth, h.pending, h.remarks⟩

theorem advance (h : s.Matches u) : s.advance.Matches u.advance := by
  have hMoved : State.Matches { s with previous := s.current } { u with previous := u.current } :=
    ⟨h.rest, h.last, h.current, h.settings, h.depth, h.pending, h.remarks⟩
  have hSettled := hMoved.settle s.rest
  rw [← h.rest] at hSettled
  exact hSettled

end State.Matches

structure Strips (n m : Node) : Prop where
  isComment : n.isComment = false
  bare : n.bare = m

def stripping : Likeness where
  place := id
  value := Token.value
  known _ := True
  loose := True
  state := State.Matches
  comments cs ds := (∀ n ∈ cs, n.isComment = true) ∧ ds = []
  expression e e' := e' = e
  statement := Strips
  item := Strips

theorem eq_of_names {ns ms : List Node} (h : List.Forall₂ stripping.Name ns ms) : ms = ns := by
  induction h with
  | nil => rfl
  | cons hn _ ih =>
    cases hn
    rw [ih]
    rfl

theorem eq_of_expressions {ns ms : List Node} (h : List.Forall₂ stripping.expression ns ms) :
    ms = ns := by
  induction h with
  | nil => rfl
  | cons hn _ ih => rw [ih, hn]

theorem bareOf_of_commented {ns ms : List Node} (h : Commented stripping.comments Strips ns ms) :
    Node.bareOf ns = ms := by
  induction h with
  | comments h =>
    obtain ⟨hComments, rfl⟩ := h
    exact Parser.bareOf_comments hComments
  | cons h hn _ ih =>
    obtain ⟨hComments, rfl⟩ := h
    rw [Parser.bareOf_comments_append hComments, Node.bareOf, hn.isComment, hn.bare, ih]
    rfl

theorem steps_stripping : stripping.Steps where
  value _ _ _ := rfl
  current h := ⟨h.current, trivial⟩
  advance h := h.advance
  depth h f := ⟨h.rest, h.last, h.current, h.settings, congrArg f h.depth, h.pending, h.remarks⟩
  drain h := by
    refine ⟨⟨?_, by rw [h.pending]; rfl⟩, h.rest, h.last, h.current, h.settings, h.depth, rfl,
      h.remarks⟩
    rw [List.forall_mem_map]
    exact fun t _ => rfl

theorem expressions_stripping : stripping.Expressions where
  isIdent h := congrArg Node.isIdent h
  isPlace h := congrArg Node.isPlace h
  isCall h := congrArg Node.isCall h
  span h := congrArg Node.span h
  bool _ _ := rfl
  number _ _ := rfl
  float _ _ := rfl
  string _ _ := rfl
  name h := by
    cases h
    rfl
  list _ _ _ h := by rw [eq_of_expressions h]; rfl
  call _ _ _ _ _ _ he h := by rw [eq_of_expressions h, he]; rfl
  subscript _ _ _ _ _ _ he hi := by rw [he, hi]; rfl
  applyPrefixOp _ _ _ _ _ he := by rw [he]; rfl
  combine _ _ _ _ _ _ _ hl hr := by rw [hl, hr]; rfl

theorem statements_stripping : stripping.Statements where
  call := by
    rintro _ e hCall rfl
    cases e with
    | call => exact ⟨rfl, rfl⟩
    | _ => cases hCall
  assign _ _ _ _ _ _ hl hr := ⟨rfl, by rw [hl, hr]; rfl⟩
  block _ _ _ h := ⟨rfl, by rw [Node.bare, bareOf_of_commented h]; rfl⟩
  branch _ _ _ _ _ _ _ hc ha hb := by
    refine ⟨rfl, ?_⟩
    rcases hb with hb | ⟨rfl, rfl⟩
    · rw [Node.bare, ha.bare, hb.bare, hc]; rfl
    · rw [Node.bare, ha.bare, hc]; rfl
  loop _ _ _ _ _ hc ha := ⟨rfl, by rw [Node.bare, ha.bare, hc]; rfl⟩
  globals _ _ _ h := ⟨rfl, by rw [eq_of_names h]; rfl⟩
  ret _ _ _ he := by
    refine ⟨rfl, ?_⟩
    rcases he with rfl | ⟨rfl, rfl⟩ <;> rfl
  empty _ := ⟨rfl, rfl⟩
  item h := h
  func _ h ha := ⟨rfl, by rw [Node.bare, ha.bare, eq_of_names h]; rfl⟩

def stripped : Simulation where
  toLikeness := stripping
  steps := steps_stripping
  expressions := expressions_stripping
  statements := statements_stripping

theorem bare_of_agree {m n : Nat} {s u : State} (hFuel : stripped.Fuel m n) (hState : s.Matches u) :
    Parser.Agree stripped (fun n m => n.bare = m) (Parser.program m s) (Parser.program n u) := by
  have hAgree := Parser.relates_program hFuel s u hState
  generalize Parser.program m s = r at hAgree
  generalize Parser.program n u = r' at hAgree
  cases hAgree with
  | ok hValue hEnd =>
    obtain ⟨span, ns, ms, rfl, rfl, hItems⟩ := hValue
    exact .ok (by rw [Node.bare, bareOf_of_commented hItems]; rfl) hEnd
  | rejected hEnd => exact .rejected hEnd
  | endless hEnd => exact .endless hEnd
  | loose h => exact .loose h

theorem withoutComments_eq {ts : List Token} (h : ∀ t ∈ ts, t.kind ≠ .comment) :
    withoutComments ts = ts :=
  List.filter_eq_self.mpr fun t ht => by simpa using h t ht

theorem bare_of_parse {settings : Settings} {tokens : List Token} {p : Parsed} {root : Node}
    (hTokens : ∀ t ∈ tokens, t.kind ≠ .comment) (h : parse? settings tokens = some p)
    (hRoot : p.result = .ok root) : root.bare = root := by
  obtain ⟨s, hStart, hs⟩ := Option.map_eq_some_iff.mp h
  obtain ⟨last, hLast, rfl⟩ := Option.map_eq_some_iff.mp hStart
  have hFirst : State.Matches { rest := [], last := last, current := last, settings := settings }
      { rest := [], last := last, current := last, settings := settings } :=
    ⟨rfl, rfl, rfl, ⟨fun _ _ => rfl, rfl, rfl⟩, rfl, rfl, rfl⟩
  have hState := hFirst.settle tokens
  rw [withoutComments_eq hTokens] at hState
  have hAgree := bare_of_agree (Likeness.fuel_self (fuelFor tokens.length)) hState
  split at hs
  · next tree s' hProgram =>
    subst hs
    cases hRoot
    rw [hProgram] at hAgree
    cases hAgree with
    | ok hBare => exact hBare
  · subst hs
    cases hRoot

end Syntax

end BatchCompiler
