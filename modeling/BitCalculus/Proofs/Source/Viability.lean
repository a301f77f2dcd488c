import Mathlib
import BitCalculus.Proofs.Source.Pushdown

/-!
# Where tokens stop being a program

Tokens are viable if some program begins with them. What is no program is refused at the first token
that makes it unviable, and the tokens before that one say what is wrong with it: the parameter of
an abstraction is missing, there is one right parenthesis too many, the text ends within a
parenthesis, or an expression is missing.
-/

namespace BitCalculus

open Reading (State run step endMark marked Unended)

/-! ### Programs, what they begin with, and what is wrong with other tokens -/

/-- The tokens of a program and one that ends it. -/
def IsProgram (ts : List Token) : Prop :=
  ∃ ks last t, ts = ks ++ [last] ∧ last.kind = .endOfText ∧ Derives .chain ks t

/-- Some program begins with the tokens. -/
def Viable (ts : List Token) : Prop :=
  ∃ rest, IsProgram (ts ++ rest)

/-- The kind of the last token. -/
def lastKind? (ts : List Token) : Option TokenKind :=
  ts.getLast?.map Token.kind

/-- After the tokens an expression is required: at the beginning, after a left parenthesis, and
after the parameter of an abstraction. -/
def Awaits (ts : List Token) : Prop :=
  ts = [] ∨ lastKind? ts = some .leftParen ∨
    lastKind? ts = some .name ∧ lastKind? ts.dropLast = some .lambda

/-- The left parentheses that are not closed, the innermost first. -/
def unclosed (ts : List Token) : List Token :=
  ts.foldl (fun opened k ↦ match k.kind with
    | .leftParen => k :: opened
    | .rightParen => opened.tail
    | _ => opened) []

/-- The error that a token causes after the tokens `before`. -/
inductive Blames (before : List Token) (token : Token) : SyntaxError → Prop
  /-- After a backslash it is no name. -/
  | missingParameter {start : Token} (hs : before.getLast? = some start)
      (hk : start.kind = .lambda) : Blames before token ⟨.missingParameter, start.location⟩
  /-- It closes a parenthesis where none is open or an expression is required. -/
  | extraRightParen (hb : lastKind? before ≠ some .lambda) (hk : token.kind = .rightParen) :
      Blames before token ⟨.extraRightParen, token.location⟩
  /-- It ends the text after a complete expression: the innermost open parenthesis, after which the
  expression begins, is not closed. -/
  | missingRightParen {left : Token} {init ks outer : List Token} {t : Tree}
      (hb : lastKind? before ≠ some .lambda) (hk : token.kind = .endOfText) (hc : ¬ Awaits before)
      (hs : before = init ++ left :: ks) (hd : Derives .chain ks t)
      (hu : unclosed before = left :: outer) :
      Blames before token ⟨.missingRightParen, left.location⟩
  /-- It ends the text where an expression is required, or is of no kind that the language has. -/
  | endReached (hb : lastKind? before ≠ some .lambda)
      (hk : token.kind = .endOfText ∧ Awaits before ∨ ∃ code, token.kind = .unknown code) :
      Blames before token ⟨.endReached, token.location⟩

theorem lastKind?_concat (ts : List Token) (k : Token) : lastKind? (ts ++ [k]) = some k.kind := by
  simp [lastKind?]

theorem unclosed_concat (ts : List Token) (k : Token) :
    unclosed (ts ++ [k]) =
      match k.kind with
      | .leftParen => k :: unclosed ts
      | .rightParen => (unclosed ts).tail
      | _ => unclosed ts := by
  rw [unclosed, List.foldl_concat]
  rfl

theorem awaits_concat (ts : List Token) (k : Token) :
    Awaits (ts ++ [k]) ↔ k.kind = .leftParen ∨ k.kind = .name ∧ lastKind? ts = some .lambda := by
  simp [Awaits, lastKind?_concat]

namespace Reading

/-! ### What the machine knows -/

/-- What the last tokens say about the state. -/
def State.Follows (ts : List Token) : State → Prop
  | .needed _ => Awaits ts
  | .parameter start _ => ts.getLast? = some start ∧ start.kind = .lambda
  | .complete _ => ¬ Awaits ts ∧ lastKind? ts ≠ some .lambda
  | .ended => True

/-- The state after the tokens is what they say it is. -/
structure Describes (ts : List Token) (s : State) : Prop where
  opened : unclosed ts = s.opened
  unended : Unended ts ↔ s ≠ .ended
  follows : s.Follows ts

theorem unended_concat (ts : List Token) (k : Token) :
    Unended (ts ++ [k]) ↔ Unended ts ∧ k.kind ≠ .endOfText := by
  simp [Unended, or_imp, forall_and]

section Describes

variable {ts ks opened : List Token} {s s' : State} {k : Token}

/-- Where an expression may begin, no parameter is due. -/
theorem Describes.lastKind_ne (hd : Describes ts s)
    (hs : s = .needed opened ∨ s = .complete opened) : lastKind? ts ≠ some .lambda := by
  rcases hs with rfl | rfl
  · intro h
    rcases hd.follows with rfl | h' | ⟨h', -⟩
    · simp [lastKind?] at h
    · simp [h'] at h
    · simp [h'] at h
  · exact hd.follows.2

/-- Reading a token leads to the state that the tokens describe then. -/
theorem Describes.read (hd : Describes ts s) (h : step s k = .ok s') :
    Describes (ts ++ [k]) s' := by
  have unended : Unended ts := by
    rw [hd.unended]
    rintro rfl
    cases h
  have closes := unclosed_concat ts k
  rw [hd.opened] at closes
  rcases step_cases h with ⟨start, o, hk, rfl, rfl⟩ |
    ⟨o, hs, read⟩ | ⟨left, o, hk, rfl, rfl⟩ | ⟨hk, rfl, rfl⟩
  · rw [hk] at closes
    obtain ⟨hl, hs⟩ := hd.follows
    refine ⟨closes, by simp [unended_concat, unended, hk], ?_⟩
    exact (awaits_concat ts k).mpr (.inr ⟨hk, by simp [lastKind?, hl, hs]⟩)
  · have ho : s.opened = o := by rcases hs with rfl | rfl <;> rfl
    rcases read with ⟨hk, rfl⟩ | ⟨hk, rfl⟩ | ⟨hk, rfl⟩ <;> rw [hk, ho] at closes
    · refine ⟨closes, by simp [unended_concat, unended, hk], ?_, ?_⟩
      · simp [awaits_concat, hk, hd.lastKind_ne hs]
      · simp [lastKind?_concat, hk]
    · refine ⟨closes, by simp [unended_concat, unended, hk], ?_⟩
      exact (awaits_concat ts k).mpr (.inl hk)
    · exact ⟨closes, by simp [unended_concat, unended, hk], by simp, hk⟩
  · rw [hk] at closes
    refine ⟨closes, by simp [unended_concat, unended, hk], ?_, ?_⟩
    · simp [awaits_concat, hk]
    · simp [lastKind?_concat, hk]
  · rw [hk] at closes
    exact ⟨closes, by simp [unended_concat, hk], trivial⟩

/-- Whatever is read leads to the state that the tokens describe. -/
theorem Describes.readAll (hd : Describes ts s) (h : run s ks = .ok s') :
    Describes (ts ++ ks) s' := by
  induction ks generalizing ts s with
  | nil =>
    cases h
    rwa [List.append_nil]
  | cons k ks ih =>
    obtain ⟨s₁, first, rest⟩ := exists_of_run_cons h
    have described := ih (hd.read first) rest
    rwa [List.append_assoc, List.singleton_append] at described

theorem describes_of_run (h : run (.needed []) ts = .ok s) : Describes ts s := by
  have begins : Describes [] (.needed []) := ⟨rfl, by simp [Unended], .inl rfl⟩
  simpa using begins.readAll h

end Describes

/-! ### What the machine can read -/

theorem unended_of_derives {phrase : Phrase} {ks : List Token} {t : Tree}
    (h : Derives phrase ks t) : Unended ks := by
  induction h with
  | atoms _ ih | abstraction _ ih | one _ ih => exact ih
  | atomsThenAbstraction _ _ ihf ihx | more _ _ ihf ihx =>
    intro k hk
    exact (List.mem_append.mp hk).elim (ihf k) (ihx k)
  | name h => simp [Unended, h]
  | parens hl _ hr ih =>
    intro k hk
    simp only [List.mem_cons, List.mem_append, List.not_mem_nil, or_false] at hk
    rcases hk with rfl | hk | rfl
    · simp [hl]
    · exact ih k hk
    · simp [hr]
  | lambda hs hp _ ih =>
    intro k hk
    simp only [List.mem_cons] at hk
    rcases hk with rfl | rfl | hk
    · simp [hs]
    · simp [hp]
    · exact ih k hk

/-- What is read as a complete expression is one. -/
theorem exists_derives_of_run {ks : List Token} (h : run (.needed []) ks = .ok (.complete [])) :
    ∃ t, Derives .chain ks t := by
  have hu : Unended ks := (describes_of_run h).unended.mpr (by simp)
  have hlast := kind_endMark []
  have ends : run (.needed []) (marked (ks ++ [endMark []])) = .ok .ended := by
    rw [marked_concat hu hlast, run_append_of_ok h, run_end hlast]
  obtain ⟨t, parsed⟩ := (exists_parse_iff _).mpr ends
  have derived := derives_of_parse parsed
  rw [programTokens_concat hu hlast] at derived
  exact ⟨t, derived⟩

/-- The machine comes to the end exactly on programs. -/
theorem isProgram_iff (ts : List Token) : IsProgram ts ↔ run (.needed []) ts = .ok .ended := by
  constructor
  · rintro ⟨ks, last, t, rfl, hlast, derived⟩
    have hu := unended_of_derives derived
    have read := exists_parse_iff (ks ++ [last])
    rw [marked_concat hu hlast] at read
    rw [← programTokens_concat hu hlast] at derived
    exact read.mp ⟨t, parse_of_derives derived⟩
  · intro h
    rcases List.eq_nil_or_concat ts with rfl | ⟨ks, last, rfl⟩
    · cases h
    · rw [List.concat_eq_append] at h ⊢
      obtain ⟨s, read, ends⟩ := exists_of_run_concat h
      obtain ⟨rfl, hlast⟩ := eq_of_step_ended ends
      obtain ⟨t, derived⟩ := exists_derives_of_run read
      exact ⟨ks, last, t, rfl, hlast, derived⟩

/-- A token that cannot be read causes the error of the step. -/
theorem blames_of_step {ts : List Token} {s : State} {k : Token} {e : SyntaxError}
    (hr : run (.needed []) ts = .ok s) (hu : Unended ts) (h : step s k = .error e) :
    Blames ts k e := by
  have hd := describes_of_run hr
  cases s with
  | needed o =>
    have hb := hd.lastKind_ne (.inl rfl)
    cases hk : k.kind <;> simp only [step, hk, reduceCtorEq, Except.error.injEq] at h <;> subst h
    · exact .extraRightParen hb hk
    · exact .endReached hb (.inl ⟨hk, hd.follows⟩)
    · exact .endReached hb (.inr ⟨_, hk⟩)
  | parameter start o =>
    by_cases hk : k.kind = .name
    · simp [step, hk] at h
    · simp only [step, hk, if_false, Except.error.injEq] at h
      subst h
      exact .missingParameter hd.follows.1 hd.follows.2
  | complete o =>
    have hb := hd.lastKind_ne (.inr rfl)
    cases hk : k.kind <;> rcases o with _ | ⟨left, outer⟩ <;>
      simp only [step, hk, reduceCtorEq, Except.error.injEq] at h <;> subst h
    · exact .extraRightParen hb hk
    · obtain ⟨ks, -, ⟨init, -, split, -⟩, inside⟩ := exists_segment hr rfl
      obtain ⟨t, derived⟩ := exists_derives_of_run inside
      exact .missingRightParen hb hk hd.follows.1 split derived hd.opened
    · exact .endReached hb (.inr ⟨_, hk⟩)
    · exact .endReached hb (.inr ⟨_, hk⟩)
  | ended => exact absurd rfl (hd.unended.mp hu)

/-- As many right parentheses as there are open ones close them all. -/
theorem run_closing {opened rights : List Token} (hr : ∀ k ∈ rights, k.kind = .rightParen)
    (hl : rights.length = opened.length) : run (.complete opened) rights = .ok (.complete []) := by
  induction rights generalizing opened with
  | nil =>
    rw [List.length_eq_zero_iff.mp hl.symm]
    rfl
  | cons right rights ih =>
    rcases opened with _ | ⟨left, outer⟩
    · cases hl
    · have closes : step (.complete (left :: outer)) right = .ok (.complete outer) := by
        simp [step, hr right List.mem_cons_self]
      rw [run_cons_of_ok closes]
      exact ih (fun k hk ↦ hr k (List.mem_cons_of_mem right hk)) (by simpa using hl)

/-- Every state can be brought to the end. -/
theorem exists_run_to_end (s : State) : ∃ rest, run s rest = .ok .ended := by
  let token (kind : TokenKind) : Token := ⟨kind, [], ⟨[], 0, 0⟩⟩
  have complete (opened : List Token) : ∃ rest, run (.complete opened) rest = .ok .ended := by
    refine ⟨List.replicate opened.length (token .rightParen) ++ [token .endOfText], ?_⟩
    rw [run_append_of_ok (run_closing (fun k hk ↦ by simp [List.eq_of_mem_replicate hk, token])
      List.length_replicate)]
    rfl
  cases s with
  | needed opened =>
    obtain ⟨rest, read⟩ := complete opened
    exact ⟨token .name :: rest, read⟩
  | parameter start opened =>
    obtain ⟨rest, read⟩ := complete opened
    exact ⟨token .name :: token .name :: rest, read⟩
  | complete opened => exact complete opened
  | ended => exact ⟨[], rfl⟩

/-- The machine can read exactly what some program begins with. -/
theorem viable_iff (ts : List Token) : Viable ts ↔ ∃ s, run (.needed []) ts = .ok s := by
  constructor
  · rintro ⟨rest, program⟩
    rw [isProgram_iff] at program
    obtain ⟨s, read, -⟩ := exists_of_run_append program
    exact ⟨s, read⟩
  · rintro ⟨s, read⟩
    obtain ⟨rest, ends⟩ := exists_run_to_end s
    exact ⟨rest, by rwa [isProgram_iff, run_append_of_ok read]⟩

/-! ### Unclosed parentheses -/

/-- Before a token that is read there are only tokens of the program. -/
theorem prefix_of_marked {tokens before after : List Token} {k : Token}
    (h : marked tokens = before ++ k :: after) : before <+: programTokens tokens := by
  have part : before <+: programTokens tokens ++ [endMark tokens] := ⟨k :: after, h.symm⟩
  rcases List.prefix_concat_iff.mp part with all | part
  · rw [marked, ← all] at h
    simp at h
  · exact part

/-- The parser misses a right parenthesis exactly if the tokens before the end are an expression
within an open parenthesis. -/
theorem parse_missing_iff (tokens : List Token) :
    (∃ l, parse tokens = .error ⟨.missingRightParen, l⟩) ↔
      ∃ left outer, run (.needed []) (programTokens tokens) = .ok (.complete (left :: outer)) := by
  simp only [parse_error_iff]
  constructor
  · rintro ⟨l, fails⟩
    obtain ⟨before, k, after, s, split, read, fails⟩ := exists_of_run_error fails
    obtain ⟨hk, left, outer, rfl⟩ := eq_of_step_missing fails
    obtain ⟨rest, all⟩ := prefix_of_marked split
    rcases rest with _ | ⟨k', rest⟩
    · rw [List.append_nil] at all
      exact ⟨left, outer, by rwa [← all]⟩
    · -- The token that ends the text would be one of the program.
      rw [marked, ← all, List.append_assoc, List.append_cancel_left_eq, List.cons_append] at split
      cases split
      exact absurd hk (unended_programTokens tokens k (by simp [← all]))
  · rintro ⟨left, outer, read⟩
    refine ⟨left.location, ?_⟩
    rw [marked, run_append_of_ok read]
    exact run_cons_of_error (by simp [step, kind_endMark])

/-- The tokens are an expression within an open parenthesis exactly if they are no program, but would
be one with some more right parentheses. -/
theorem closes_iff (tokens : List Token) :
    (¬ IsProgram (marked tokens) ∧ ∃ rights, rights ≠ [] ∧ (∀ k ∈ rights, k.kind = .rightParen) ∧
        IsProgram (programTokens tokens ++ rights ++ [endMark tokens])) ↔
      ∃ left outer, run (.needed []) (programTokens tokens) = .ok (.complete (left :: outer)) := by
  simp only [isProgram_iff]
  constructor
  · rintro ⟨-, rights, some, hr, ends⟩
    obtain ⟨s', read', -⟩ := exists_of_run_concat ends
    obtain ⟨s, read, closes⟩ := exists_of_run_append read'
    rcases rights with _ | ⟨right, rights⟩
    · exact absurd rfl some
    · obtain ⟨s₁, closes, -⟩ := exists_of_run_cons closes
      have hk := hr right List.mem_cons_self
      rcases step_cases closes with ⟨-, -, hk', -⟩ | ⟨-, -, ⟨hk', -⟩ | ⟨hk', -⟩ | ⟨hk', -⟩⟩ |
        ⟨left, outer, -, rfl, -⟩ | ⟨hk', -⟩
      case inr.inr.inl => exact ⟨left, outer, read⟩
      all_goals simp [hk] at hk'
  · rintro ⟨left, outer, read⟩
    refine ⟨?_, List.replicate (outer.length + 1) ⟨.rightParen, [], ⟨[], 0, 0⟩⟩, by simp, ?_, ?_⟩
    · intro ends
      obtain ⟨s, read', ends⟩ := exists_of_run_concat ends
      rw [read] at read'
      cases read'
      cases (eq_of_step_ended ends).1
    · intro k hk
      rw [List.eq_of_mem_replicate hk]
    · rw [List.append_assoc, run_append_of_ok read, run_append_of_ok (run_closing ?_ (by simp))]
      · exact run_end (kind_endMark tokens)
      · intro k hk
        rw [List.eq_of_mem_replicate hk]

end Reading

open Reading

/-- For every list of tokens that is refused: there is a first token up to which the tokens are no
beginning of a program, and the error is the one that this token causes after the tokens before it.
A right parenthesis is reported missing exactly if the tokens are no program but become one with
some more right parentheses. -/
theorem errors_at_first_unviable_token (tokens : List Token) :
    (∀ e, parse tokens = .error e →
      ∃ before token after, marked tokens = before ++ token :: after ∧
        (∀ ts, ts <+: before → Viable ts) ∧ ¬ Viable (before ++ [token]) ∧
        Blames before token e) ∧
      ((∃ l, parse tokens = .error ⟨.missingRightParen, l⟩) ↔
        ¬ IsProgram (marked tokens) ∧ ∃ rights, rights ≠ [] ∧
          (∀ k ∈ rights, k.kind = .rightParen) ∧
          IsProgram (programTokens tokens ++ rights ++ [endMark tokens])) := by
  refine ⟨?_, (parse_missing_iff tokens).trans (closes_iff tokens).symm⟩
  intro e refused
  obtain ⟨before, token, after, s, split, read, fails⟩ :=
    exists_of_run_error ((parse_error_iff tokens e).mp refused)
  refine ⟨before, token, after, split, ?_, ?_, ?_⟩
  · rintro ts ⟨rest, rfl⟩
    obtain ⟨s₁, read, -⟩ := exists_of_run_append read
    exact (viable_iff ts).mpr ⟨s₁, read⟩
  · intro viable
    obtain ⟨s', read'⟩ := (viable_iff _).mp viable
    rw [run_append_of_ok read, run_cons_of_error fails] at read'
    cases read'
  · have hu : Unended before := by
      intro k hk
      exact unended_programTokens tokens k ((prefix_of_marked split).subset hk)
    exact blames_of_step read hu fails

/-- Two parentheses are open where the text ends, after a third was closed: the inner one is blamed,
and two right parentheses make a program. -/
theorem errors_at_first_unviable_token_nested :
    ∃ tokens, tokens = tokenize (lit "t") (lit "a (b (c (d) \\x y") ∧
      parse tokens = .error ⟨.missingRightParen, ⟨lit "t", 1, 6⟩⟩ ∧
      (∃ before token after, marked tokens = before ++ token :: after ∧
        (∀ ts, ts <+: before → Viable ts) ∧ ¬ Viable (before ++ [token]) ∧
        Blames before token ⟨.missingRightParen, ⟨lit "t", 1, 6⟩⟩) ∧
      ∃ rights, rights ≠ [] ∧ (∀ k ∈ rights, k.kind = .rightParen) ∧
        IsProgram (programTokens tokens ++ rights ++ [endMark tokens]) := by
  have refused : parse (tokenize (lit "t") (lit "a (b (c (d) \\x y")) =
      .error ⟨.missingRightParen, ⟨lit "t", 1, 6⟩⟩ := by cbv
  obtain ⟨blames, missing⟩ :=
    errors_at_first_unviable_token (tokenize (lit "t") (lit "a (b (c (d) \\x y"))
  exact ⟨_, rfl, refused, blames _ refused, (missing.mp ⟨_, refused⟩).2⟩

end BitCalculus
