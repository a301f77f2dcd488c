import Mathlib
import BitCalculus.Prompt
import BitCalculus.Proofs.Source.Lines
import BitCalculus.Proofs.Source.Viability

/-!
# Entries that go on

An entry that is no program may become one with further lines. A line feed ends whatever was being
read: a glyph, a name, a comment. So the tokens of an entry stay the same when lines are added to
it, and what the prompt does with it depends on how far these tokens are from a program. The prompt
asks for more lines if the entry ends with an expression within a parenthesis, but not if it ends
where an expression or a parameter is still to come.
-/

namespace BitCalculus

/-! ### The tokens of further lines -/

theorem programTokens_append {ks : List Token} (h : Reading.Unended ks) (ls : List Token) :
    programTokens (ks ++ ls) = ks ++ programTokens ls := by
  rw [programTokens, List.takeWhile_append_of_pos (by simpa [Reading.Unended] using h)]
  rfl

/-- A line of right parentheses. -/
theorem scan_rightParens (source : Bytes) (line column n : Nat) :
    ∃ rights last, Source.scan source line column (Bytes.glyphs (List.replicate n 41)) =
        rights ++ [last] ∧ rights.length = n ∧ (∀ k ∈ rights, k.kind = .rightParen) ∧
      last.kind = .endOfText := by
  induction n generalizing column with
  | zero => exact ⟨[], _, by rw [List.replicate_zero, Bytes.glyphs_nil, Source.scan]; rfl, by simp⟩
  | succ n ih =>
    obtain ⟨rights, last, scanned, hl, hr, hlast⟩ := ih (column + 1)
    have glyphs : Bytes.glyphs (List.replicate (n + 1) 41) =
        ⟨some 41, [41]⟩ :: Bytes.glyphs (List.replicate n 41) := by
      rw [List.replicate_succ, Bytes.glyphs_cons]
      rfl
    refine ⟨⟨.rightParen, [41], ⟨source, line, column + 1⟩⟩ :: rights, last, ?_, ?_, ?_, hlast⟩
    · rw [glyphs, Source.scan, if_neg (by decide), if_neg (by simp [Glyph.is])]
      rw [show Glyph.reservedKind? ⟨some 41, [41]⟩ = some .rightParen by decide, scanned]
      rfl
    · rw [List.length_cons, hl]
    · simpa using hr

/-! ### Parentheses -/

/-- How many left parentheses there are. -/
def openings (ts : List Token) : Nat :=
  ts.countP fun k ↦ k.kind = .leftParen

/-- How many right parentheses there are. -/
def closings (ts : List Token) : Nat :=
  ts.countP fun k ↦ k.kind = .rightParen

namespace Reading

theorem opened_of_step {s s' : State} {k : Token} (h : step s k = .ok s') :
    s'.opened.length + closings [k] = s.opened.length + openings [k] := by
  rcases step_cases h with ⟨start, o, hk, rfl, rfl⟩ |
    ⟨o, hs, read⟩ | ⟨left, o, hk, rfl, rfl⟩ | ⟨hk, rfl, rfl⟩
  · simp [openings, closings, State.opened, hk]
  · have ho : s.opened = o := by rcases hs with rfl | rfl <;> rfl
    rcases read with ⟨hk, rfl⟩ | ⟨hk, rfl⟩ | ⟨hk, rfl⟩ <;>
      simp [openings, closings, hk, ho] <;> simp [State.opened]
  · simp [openings, closings, State.opened, hk]
  · simp [openings, closings, State.opened, hk]

/-- The parentheses that are kept are those that were opened and not closed. -/
theorem opened_of_run {s s' : State} {ts : List Token} (h : run s ts = .ok s') :
    s'.opened.length + closings ts = s.opened.length + openings ts := by
  induction ts generalizing s with
  | nil =>
    cases h
    rfl
  | cons k ts ih =>
    obtain ⟨s₁, first, rest⟩ := exists_of_run_cons h
    have step := opened_of_step first
    have steps := ih rest
    rw [openings, closings] at *
    rw [List.countP_cons, List.countP_cons]
    simp only [List.countP_singleton] at step
    omega

end Reading

/-! ### The prompt -/

/-- An entry that waits for further lines: it is no program, more parentheses are opened in it than
closed, and it becomes a program with some further lines. -/
structure Unfinished (source text : Bytes) : Prop where
  refused : ∀ t, parseText source text ≠ .ok t
  opened : closings (programTokens (tokenize source text)) <
    openings (programTokens (tokenize source text))
  continued : ∃ more t, parseText source (text ++ 10 :: more) = .ok t

/-- The tokens end with an expression, and not where an expression or a parameter is to come. -/
def EndsInExpression (ts : List Token) : Prop :=
  ¬ Awaits ts ∧ lastKind? ts ≠ some .lambda

/-- The prompt asks for more exactly if a right parenthesis is reported missing, and then it does
nothing else. -/
theorem Prompt.evaluate_cases (d : Desk) (source text : Bytes) :
    (∃ l, parseText source text = .error ⟨.missingRightParen, l⟩) ∧
        evaluate d source text = (true, [], d) ∨
      (¬ ∃ l, parseText source text = .error ⟨.missingRightParen, l⟩) ∧
        (evaluate d source text).1 = false := by
  unfold evaluate Program.compile
  cases hp : parseText source text with
  | ok tree => exact .inr ⟨by simp, rfl⟩
  | error e =>
    obtain ⟨kind, l⟩ := e
    by_cases hk : kind = .missingRightParen
    · exact .inl ⟨⟨l, by rw [hk]⟩, by simp [hk]⟩
    · exact .inr ⟨by simp [hk], by simp [hk]⟩

namespace Reading

section Continued

variable {source text : Bytes} {left : Token} {outer : List Token}

/-- What becomes a program with further lines can be read. -/
theorem exists_run_of_continued {more : Bytes} {t : Tree}
    (h : parseText source (text ++ 10 :: more) = .ok t) :
    ∃ s, run (.needed []) (programTokens (tokenize source text)) = .ok s := by
  have read := (exists_parse_iff (tokenize source (text ++ 10 :: more))).mp ⟨t, h⟩
  rw [tokenize_append_lineFeed, marked, programTokens_append (unended_programTokens _),
    List.append_assoc] at read
  obtain ⟨s, read, -⟩ := exists_of_run_append read
  exact ⟨s, read⟩

/-- Right parentheses on a line of their own close what is open. -/
theorem continued_of_run (h : run (.needed []) (programTokens (tokenize source text)) =
      .ok (.complete (left :: outer))) :
    ∃ more t, parseText source (text ++ 10 :: more) = .ok t := by
  obtain ⟨rights, last, scanned, hl, hr, hlast⟩ :=
    scan_rightParens source (1 + (1 + text.count 10)) 0 (outer.length + 1)
  refine ⟨List.replicate (outer.length + 1) 41, ?_⟩
  have hu : Unended (programTokens (tokenize source text) ++ rights) := by
    intro k hk
    rcases List.mem_append.mp hk with hk | hk
    · exact unended_programTokens _ k hk
    · simp [hr k hk]
  have closes : run (.complete (left :: outer)) rights = .ok (.complete []) := run_closing hr hl
  rw [scan_lower, ← tokenize] at scanned
  rw [parseText, tokenize_append_lineFeed, scanned, ← List.append_assoc]
  rw [exists_parse_iff, marked_concat hu hlast, List.append_assoc, run_append_of_ok h,
    run_append_of_ok closes, run_end hlast]

/-- An entry waits for further lines and ends in an expression exactly if it can be read up to an
expression within a parenthesis. -/
theorem unfinished_iff (source text : Bytes) :
    Unfinished source text ∧ EndsInExpression (programTokens (tokenize source text)) ↔
      ∃ left outer, run (.needed []) (programTokens (tokenize source text)) =
        .ok (.complete (left :: outer)) := by
  constructor
  · rintro ⟨⟨refused, -, more, t, parsed⟩, notAwaits, notLambda⟩
    obtain ⟨s, read⟩ := exists_run_of_continued parsed
    have described := describes_of_run read
    cases s with
    | needed opened => exact absurd described.follows notAwaits
    | parameter start opened =>
      obtain ⟨last, isLambda⟩ := described.follows
      exact absurd (by simp [lastKind?, last, isLambda]) notLambda
    | complete opened =>
      rcases opened with _ | ⟨left, outer⟩
      · have ends : run (.needed []) (marked (tokenize source text)) = .ok .ended := by
          rw [marked, run_append_of_ok read, run_end (kind_endMark _)]
        obtain ⟨t, parsed⟩ := (exists_parse_iff _).mpr ends
        exact absurd parsed (refused t)
      · exact ⟨left, outer, read⟩
    | ended => exact absurd rfl (described.unended.mp (unended_programTokens _))
  · rintro ⟨left, outer, read⟩
    refine ⟨⟨?_, ?_, continued_of_run read⟩, (describes_of_run read).follows⟩
    · intro t parsed
      obtain ⟨l, fails⟩ := (parse_missing_iff (tokenize source text)).mpr ⟨left, outer, read⟩
      rw [parseText, fails] at parsed
      cases parsed
    · have counted := opened_of_run read
      simp only [State.opened, List.length_cons, List.length_nil] at counted
      omega

end Continued

end Reading

/-- For every entry: the prompt asks for more lines exactly if the entry waits for further lines and
ends in an expression, and where it does, it shows nothing, runs nothing and changes nothing. -/
theorem prompt_asks_for_more (d : Desk) (source text : Bytes) :
    ((Prompt.evaluate d source text).1 = true ↔
      Unfinished source text ∧ EndsInExpression (programTokens (tokenize source text))) ∧
    ((Prompt.evaluate d source text).1 = true ↔ Prompt.evaluate d source text = (true, [], d)) := by
  rw [Reading.unfinished_iff, ← Reading.parse_missing_iff]
  rcases Prompt.evaluate_cases d source text with ⟨missing, asks⟩ | ⟨present, answers⟩
  · rw [asks]
    exact ⟨⟨fun _ ↦ missing, fun _ ↦ rfl⟩, by simp⟩
  · refine ⟨⟨fun h ↦ ?_, fun h ↦ absurd h present⟩, ⟨fun h ↦ ?_, fun h ↦ ?_⟩⟩
    · rw [answers] at h
      cases h
    · rw [answers] at h
      cases h
    · rw [h]

/-- A left parenthesis alone waits for further lines, but the prompt refuses it. -/
theorem prompt_refuses_left_paren :
    Unfinished (lit "prompt#1") (lit "(") ∧
      ∀ d, Prompt.evaluate d (lit "prompt#1") (lit "(") =
        (false, [Prompt.line
          (lit "At prompt#1:1:2: Unexpected EOF found when parsing expression.")], d) := by
  refine ⟨⟨?_, ?_, ?_⟩, ?_⟩
  · intro t parsed
    have fails : parseText (lit "prompt#1") (lit "(") =
        .error ⟨.endReached, ⟨lit "prompt#1", 1, 2⟩⟩ := by cbv
    rw [fails] at parsed
    cases parsed
  · cbv
  · exact ⟨lit "x)", _, by cbv⟩
  · intro d
    cbv

end BitCalculus
