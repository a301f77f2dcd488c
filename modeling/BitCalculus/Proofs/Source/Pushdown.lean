import Mathlib
import BitCalculus.Proofs.Source.Grammar

/-!
# Reading token by token

A machine that reads a program token by token and keeps the left parentheses that are still open. It
builds no tree, but it says of every token whether it can stand where it stands, which the parser,
whose errors come out of a recursion, does not. Both give the same verdict on every list of tokens.
-/

namespace BitCalculus

namespace Reading

/-- What the tokens read so far leave to be read; `opened` are the left parentheses that are not
closed, the innermost first. -/
inductive State where
  /-- An expression is required. -/
  | needed (opened : List Token)
  /-- The parameter of the abstraction that begins at `start` is required. -/
  | parameter (start : Token) (opened : List Token)
  /-- An expression is complete; it may be applied, closed, or the end of the program. -/
  | complete (opened : List Token)
  /-- The end of the program was read. -/
  | ended
deriving DecidableEq

/-- Reads one token. -/
def step : State → Token → Except SyntaxError State
  | .needed opened, k =>
    match k.kind with
    | .name => .ok (.complete opened)
    | .leftParen => .ok (.needed (k :: opened))
    | .lambda => .ok (.parameter k opened)
    | .rightParen => .error ⟨.extraRightParen, k.location⟩
    | .endOfText | .unknown _ => .error ⟨.endReached, k.location⟩
  | .parameter start opened, k =>
    if k.kind = .name then .ok (.needed opened) else .error ⟨.missingParameter, start.location⟩
  | .complete opened, k =>
    match k.kind, opened with
    | .name, opened => .ok (.complete opened)
    | .leftParen, opened => .ok (.needed (k :: opened))
    | .lambda, opened => .ok (.parameter k opened)
    | .rightParen, _ :: outer => .ok (.complete outer)
    | .rightParen, [] => .error ⟨.extraRightParen, k.location⟩
    | .endOfText, [] => .ok .ended
    | .endOfText, left :: _ => .error ⟨.missingRightParen, left.location⟩
    | .unknown _, _ => .error ⟨.endReached, k.location⟩
  | .ended, k => .error ⟨.endReached, k.location⟩

/-- The left parentheses that a state keeps. -/
def State.opened : State → List Token
  | .needed opened | .parameter _ opened | .complete opened => opened
  | .ended => []

/-- What reading one token can do. -/
theorem step_cases {s s' : State} {k : Token} (h : step s k = .ok s') :
    (∃ start o, k.kind = .name ∧ s = .parameter start o ∧ s' = .needed o) ∨
    (∃ o, (s = .needed o ∨ s = .complete o) ∧
      (k.kind = .name ∧ s' = .complete o ∨ k.kind = .leftParen ∧ s' = .needed (k :: o) ∨
        k.kind = .lambda ∧ s' = .parameter k o)) ∨
    (∃ left o, k.kind = .rightParen ∧ s = .complete (left :: o) ∧ s' = .complete o) ∨
    k.kind = .endOfText ∧ s = .complete [] ∧ s' = .ended := by
  cases s with
  | needed o => cases hk : k.kind <;> simp_all [step]
  | parameter start o => by_cases hk : k.kind = .name <;> simp_all [step]
  | complete o => cases hk : k.kind <;> cases o <;> simp [step, hk] at h <;> subst h <;> simp
  | ended => simp [step] at h

/-- The end can only be read after a complete expression outside all parentheses. -/
theorem eq_of_step_ended {s : State} {k : Token} (h : step s k = .ok .ended) :
    s = .complete [] ∧ k.kind = .endOfText := by
  rcases step_cases h with ⟨-, -, -, -, ⟨⟩⟩ | ⟨-, -, ⟨-, ⟨⟩⟩ | ⟨-, ⟨⟩⟩ | ⟨-, ⟨⟩⟩⟩ |
    ⟨-, -, -, -, ⟨⟩⟩ | ⟨hk, hs, -⟩
  exact ⟨hs, hk⟩

/-- A right parenthesis is only reported missing at the end, after a complete expression. -/
theorem eq_of_step_missing {s : State} {k : Token} {l : Location}
    (h : step s k = .error ⟨.missingRightParen, l⟩) :
    k.kind = .endOfText ∧ ∃ left outer, s = .complete (left :: outer) := by
  cases s with
  | needed o => cases hk : k.kind <;> simp [step, hk] at h
  | parameter start o => by_cases hk : k.kind = .name <;> simp [step, hk] at h
  | complete o =>
    rcases o with _ | ⟨left, outer⟩
    · cases hk : k.kind <;> simp [step, hk] at h
    · refine ⟨?_, left, outer, rfl⟩
      cases hk : k.kind <;> simp [step, hk] at h
      rfl
  | ended => simp [step] at h

/-- Reads tokens one after another. -/
def run (s : State) (ts : List Token) : Except SyntaxError State :=
  ts.foldlM step s

section Run

variable {s s' : State} {k : Token} {ks ls : List Token} {e : SyntaxError}

@[simp] theorem run_nil (s : State) : run s [] = .ok s := rfl

theorem run_cons_of_ok (h : step s k = .ok s') : run s (k :: ks) = run s' ks := by
  rw [run, List.foldlM_cons, h]
  rfl

theorem run_cons_of_error (h : step s k = .error e) : run s (k :: ks) = .error e := by
  rw [run, List.foldlM_cons, h]
  rfl

theorem run_append_of_ok (h : run s ks = .ok s') : run s (ks ++ ls) = run s' ls := by
  rw [run, List.foldlM_append, show ks.foldlM step s = .ok s' from h]
  rfl

theorem run_append_of_error (h : run s ks = .error e) : run s (ks ++ ls) = .error e := by
  rw [run, List.foldlM_append, show ks.foldlM step s = .error e from h]
  rfl

theorem exists_of_run_cons (h : run s (k :: ks) = .ok s') :
    ∃ s₁, step s k = .ok s₁ ∧ run s₁ ks = .ok s' := by
  cases hs : step s k with
  | error e =>
    rw [run_cons_of_error hs] at h
    cases h
  | ok s₁ => exact ⟨s₁, rfl, by rwa [run_cons_of_ok hs] at h⟩

/-- Outside all parentheses, the text may end after an expression. -/
theorem run_end (h : k.kind = .endOfText) : run (.complete []) [k] = .ok .ended :=
  run_cons_of_ok (by simp [step, h])

/-- What is read can be read up to every point. -/
theorem exists_of_run_append (h : run s (ks ++ ls) = .ok s') :
    ∃ s₁, run s ks = .ok s₁ ∧ run s₁ ls = .ok s' := by
  cases hk : run s ks with
  | error e =>
    rw [run_append_of_error hk] at h
    cases h
  | ok s₁ => exact ⟨s₁, rfl, by rwa [run_append_of_ok hk] at h⟩

theorem exists_of_run_concat (h : run s (ks ++ [k]) = .ok s') :
    ∃ s₁, run s ks = .ok s₁ ∧ step s₁ k = .ok s' := by
  obtain ⟨s₁, read, last⟩ := exists_of_run_append h
  obtain ⟨s₂, read', ends⟩ := exists_of_run_cons last
  cases ends
  exact ⟨s₁, read, read'⟩

/-- A run that fails does so at one token, with the error of that step. -/
theorem exists_of_run_error (h : run s ks = .error e) :
    ∃ before k after s₁, ks = before ++ k :: after ∧ run s before = .ok s₁ ∧
      step s₁ k = .error e := by
  induction ks generalizing s with
  | nil => cases h
  | cons k ks ih =>
    cases hs : step s k with
    | error e' =>
      rw [run_cons_of_error hs] at h
      cases h
      exact ⟨[], k, ks, s, rfl, rfl, hs⟩
    | ok s' =>
      rw [run_cons_of_ok hs] at h
      obtain ⟨before, k', after, s₁, rfl, read, fails⟩ := ih h
      exact ⟨k :: before, k', after, s₁, rfl, by rwa [run_cons_of_ok hs], fails⟩

end Run

/-! ### Expressions in parentheses -/

/-- The state with further parentheses open around it. -/
def State.within (outer : List Token) : State → State
  | .needed opened => .needed (opened ++ outer)
  | .parameter start opened => .parameter start (opened ++ outer)
  | .complete opened => .complete (opened ++ outer)
  | .ended => .ended

/-- The state without the parentheses that are open around it. -/
def State.inner : State → State
  | .needed _ => .needed []
  | .parameter start _ => .parameter start []
  | .complete _ => .complete []
  | .ended => .ended

theorem step_within {s s' : State} {k : Token} (h : step s k = .ok s') (hs : s' ≠ .ended)
    (outer : List Token) : step (s.within outer) k = .ok (s'.within outer) := by
  rcases step_cases h with ⟨start, o, hk, rfl, rfl⟩ |
    ⟨o, rfl | rfl, ⟨hk, rfl⟩ | ⟨hk, rfl⟩ | ⟨hk, rfl⟩⟩ | ⟨left, o, hk, rfl, rfl⟩ | ⟨-, -, rfl⟩
  case inr.inr.inr => exact absurd rfl hs
  all_goals simp [step, State.within, hk]

/-- What can be read can be read in parentheses, unless the text ends. -/
theorem run_within {s s' : State} {ks : List Token} (h : run s ks = .ok s') (hs : s' ≠ .ended)
    (outer : List Token) : run (s.within outer) ks = .ok (s'.within outer) := by
  induction ks generalizing s with
  | nil =>
    cases h
    rfl
  | cons k ks ih =>
    obtain ⟨s₁, first, rest⟩ := exists_of_run_cons h
    have goesOn : s₁ ≠ .ended := by
      rintro rfl
      rcases ks with _ | ⟨k', ks⟩
      · cases rest
        exact hs rfl
      · cases rest
    rw [run_cons_of_ok (step_within first goesOn outer)]
    exact ih rest

/-- The tokens end with `ks`, which follow the innermost open parenthesis `left` and, read by
themselves, lead to the same point. -/
structure Segment (ts : List Token) (s : State) (left : Token) (outer ks : List Token) : Prop where
  kind : left.kind = .leftParen
  before : ∃ init s₀, ts = init ++ left :: ks ∧ run (.needed []) init = .ok s₀ ∧
    (s₀ = .needed outer ∨ s₀ = .complete outer)
  inside : run (.needed []) ks = .ok s.inner

/-- A token that is no parenthesis makes the segment longer. -/
theorem Segment.extend {ts outer ks : List Token} {s s' : State} {left k : Token}
    (h : Segment ts s left outer ks) (hs : step s.inner k = .ok s'.inner) :
    Segment (ts ++ [k]) s' left outer (ks ++ [k]) := by
  obtain ⟨hl, ⟨init, s₀, rfl, read, begins⟩, inside⟩ := h
  refine ⟨hl, ⟨init, s₀, by simp, read, begins⟩, ?_⟩
  rw [run_append_of_ok inside, run_cons_of_ok hs, run_nil]

/-- A right parenthesis makes an inner segment part of the one around it. -/
theorem Segment.close {init outer ks inner : List Token} {s : State} {left closed k : Token}
    (h : Segment init s left outer ks)
    (hs : s = .needed (left :: outer) ∨ s = .complete (left :: outer))
    (hc : closed.kind = .leftParen) (hi : run (.needed []) inner = .ok (.complete []))
    (hk : k.kind = .rightParen) :
    Segment (init ++ closed :: inner ++ [k]) (.complete (left :: outer)) left outer
      (ks ++ closed :: inner ++ [k]) := by
  obtain ⟨hl, ⟨init, s₀, rfl, read, begins⟩, inside⟩ := h
  refine ⟨hl, ⟨init, s₀, by simp, read, begins⟩, ?_⟩
  have opens : step s.inner closed = .ok (.needed [closed]) := by
    rcases hs with rfl | rfl <;> simp [step, State.inner, hc]
  have enclosed : run (.needed [closed]) inner = .ok (.complete [closed]) :=
    run_within hi (by simp) [closed]
  rw [List.append_assoc, run_append_of_ok inside, List.cons_append, run_cons_of_ok opens,
    run_append_of_ok enclosed]
  exact run_cons_of_ok (by simp [step, State.inner, hk])

/-- Wherever a parenthesis is open, the tokens since then are a segment. -/
theorem exists_segment {ts outer : List Token} {s : State} {left : Token}
    (h : run (.needed []) ts = .ok s) (ho : s.opened = left :: outer) :
    ∃ ks, Segment ts s left outer ks := by
  obtain ⟨n, hn⟩ : ∃ n, ts.length = n := ⟨_, rfl⟩
  induction n using Nat.strongRecOn generalizing ts s left outer with
  | ind n ih =>
    rcases List.eq_nil_or_concat ts with rfl | ⟨us, k, rfl⟩
    · cases h
      cases ho
    · rw [List.concat_eq_append] at h hn ⊢
      rw [List.length_append, List.length_singleton] at hn
      obtain ⟨s₁, read, last⟩ := exists_of_run_concat h
      have extend (same : s₁.opened = s.opened) (inside : step s₁.inner k = .ok s.inner) :
          ∃ ks, Segment (us ++ [k]) s left outer ks := by
        obtain ⟨ks, segment⟩ := ih us.length (by omega) read (same.trans ho) rfl
        exact ⟨ks ++ [k], segment.extend inside⟩
      rcases step_cases last with ⟨start, o, hk, rfl, rfl⟩ |
        ⟨o, hs, ⟨hk, rfl⟩ | ⟨hk, rfl⟩ | ⟨hk, rfl⟩⟩ | ⟨closed, o, hk, rfl, rfl⟩ | ⟨-, -, rfl⟩
      · exact extend rfl (by simp [step, State.inner, hk])
      · rcases hs with rfl | rfl <;> exact extend rfl (by simp [step, State.inner, hk])
      · cases ho
        exact ⟨[], hk, ⟨us, s₁, rfl, read, hs⟩, rfl⟩
      · rcases hs with rfl | rfl <;> exact extend rfl (by simp [step, State.inner, hk])
      · -- The segment that ends here and the one around it are both shorter.
        replace ho : o = left :: outer := ho
        subst ho
        obtain ⟨inner, hc, ⟨init, s₂, rfl, before, begins⟩, inside⟩ :=
          ih us.length (by omega) read rfl rfl
        have ho : s₂.opened = left :: outer := by rcases begins with rfl | rfl <;> rfl
        rw [List.length_append] at hn
        obtain ⟨ks, segment⟩ := ih init.length (by omega) before ho rfl
        exact ⟨_, segment.close begins hc inside hk⟩
      · cases ho

/-! ### The parts of the parser -/

open Parse (outcome item chain applied Stops)

/-- No token of the list ends the text. -/
def Unended (ts : List Token) : Prop :=
  ∀ k ∈ ts, k.kind ≠ .endOfText

/-- The machine goes on where a part of the parser stops, with a complete expression. -/
def resume (last : Token) (opened : List Token) :
    Except SyntaxError (Tree × List Token) → Except SyntaxError State
  | .error e => .error e
  | .ok (_, rest) => run (.complete opened) (rest ++ [last])

section Parts

variable {last : Token} {n : Nat} {ts : List Token}

/-- The machine agrees with every chain of fewer than `n` tokens, whatever is open around it. -/
def ChainsAgree (last : Token) (n : Nat) : Prop :=
  ∀ ts opened, ts.length < n → Unended ts →
    run (.needed opened) (ts ++ [last]) = resume last opened (outcome (chain last.location ts))

/-- Where a chain goes on, a complete expression may be followed by what could also begin one. -/
theorem run_complete_of_not_stops (opened : List Token) (h : ¬ Stops ts) (hu : Unended ts) :
    run (.complete opened) (ts ++ [last]) = run (.needed opened) (ts ++ [last]) := by
  rcases ts with _ | ⟨k, ts⟩
  · exact absurd trivial h
  · have same : step (.complete opened) k = step (.needed opened) k := by
      cases hk : k.kind with
      | rightParen => exact absurd hk h
      | endOfText => exact absurd hk (hu k List.mem_cons_self)
      | name | leftParen | lambda | unknown code => simp only [step, hk]
    rw [List.cons_append, run, run, List.foldlM_cons, List.foldlM_cons, same]

theorem run_item (hlast : last.kind = .endOfText) (ih : ChainsAgree last n) (hl : ts.length ≤ n)
    (hu : Unended ts) (opened : List Token) :
    run (.needed opened) (ts ++ [last]) = resume last opened (outcome (item last.location ts)) := by
  rcases ts with _ | ⟨k, ts⟩
  · rw [Parse.outcome_item_nil]
    exact run_cons_of_error (by simp [step, hlast])
  · rw [List.length_cons] at hl
    rw [Parse.outcome_item_cons, List.cons_append]
    cases hk : k.kind with
    | name => exact run_cons_of_ok (by simp [step, hk])
    | leftParen =>
      have inner := ih ts (k :: opened) (by omega) fun t ht ↦ hu t (List.mem_cons_of_mem k ht)
      have opens : step (.needed opened) k = .ok (.needed (k :: opened)) := by simp [step, hk]
      rw [run_cons_of_ok opens, inner]
      rcases hc : outcome (chain last.location ts) with e | ⟨t, _ | ⟨right, rest⟩⟩
      · rfl
      · exact run_cons_of_error (by simp [step, hlast])
      · obtain ⟨-, -, -, hr⟩ := Parse.chainsDerived _ _ _ _ _ (Nat.lt_succ_self _) hc
        replace hr : right.kind = .rightParen := hr
        dsimp only
        rw [if_pos hr]
        exact run_cons_of_ok (by simp [step, hr])
    | rightParen => exact run_cons_of_error (by simp [step, hk])
    | lambda =>
      have starts : step (.needed opened) k = .ok (.parameter k opened) := by simp [step, hk]
      rw [run_cons_of_ok starts]
      rcases ts with _ | ⟨parameter, ts⟩
      · exact run_cons_of_error (by simp [step, hlast])
      · rw [List.length_cons] at hl
        by_cases hp : parameter.kind = .name
        · have body := ih ts opened (by omega) fun t ht ↦ hu t (by simp [ht])
          have binds : step (.parameter k opened) parameter = .ok (.needed opened) := by
            simp [step, hp]
          dsimp only
          rw [List.cons_append, run_cons_of_ok binds, body, if_pos hp]
          rcases outcome (chain last.location ts) with e | ⟨t, rest⟩ <;> rfl
        · dsimp only
          rw [if_neg hp]
          exact run_cons_of_error (by simp [step, hp])
    | endOfText | unknown code => exact run_cons_of_error (by simp [step, hk])

theorem run_applied (hlast : last.kind = .endOfText) (ih : ChainsAgree last n) (hl : ts.length ≤ n)
    (hu : Unended ts) (opened : List Token) (f : Tree) :
    run (.complete opened) (ts ++ [last]) =
      resume last opened (outcome (applied last.location f ts)) := by
  obtain ⟨m, hm⟩ : ∃ m, ts.length = m := ⟨_, rfl⟩
  induction m using Nat.strongRecOn generalizing ts f with
  | ind m ihm =>
    by_cases stops : Stops ts
    · rw [Parse.outcome_applied_of_stops _ f stops]
      rfl
    · rw [run_complete_of_not_stops opened stops hu, run_item hlast ih hl hu,
        Parse.outcome_applied_of_not_stops _ f stops]
      rcases hi : outcome (item last.location ts) with e | ⟨x, rest⟩
      · rfl
      · obtain ⟨ks, rfl, hpos, -⟩ := Parse.derives_item (Parse.chainsDerived _ n) hl hi
        rw [List.length_append] at hl hm
        exact ihm rest.length (by omega) (by omega) (fun t ht ↦ hu t (by simp [ht])) _ rfl

theorem chainsAgree (hlast : last.kind = .endOfText) (n : Nat) : ChainsAgree last n := by
  induction n with
  | zero =>
    intro ts opened hl
    omega
  | succ n ih =>
    intro ts opened hl hu
    rw [run_item hlast ih (by omega) hu, Parse.outcome_chain]
    rcases hi : outcome (item last.location ts) with e | ⟨first, rest⟩
    · rfl
    · obtain ⟨ks, rfl, hpos, -⟩ := Parse.derives_item (Parse.chainsDerived _ n) (by omega) hi
      rw [List.length_append] at hl
      exact run_applied hlast ih (by omega) (fun t ht ↦ hu t (by simp [ht])) opened first

end Parts

/-! ### Lists of tokens -/

/-- The token that ends the program: the first `endOfText`, or one that stands nowhere. -/
def endMark (tokens : List Token) : Token :=
  (tokens.find? fun t ↦ t.kind == .endOfText).getD ⟨.endOfText, [], ⟨[], 0, 0⟩⟩

/-- The tokens of the program and the one that ends it. -/
def marked (tokens : List Token) : List Token :=
  programTokens tokens ++ [endMark tokens]

theorem kind_endMark (tokens : List Token) : (endMark tokens).kind = .endOfText := by
  rw [endMark]
  cases hf : tokens.find? fun t ↦ t.kind == .endOfText with
  | none => rfl
  | some t => simpa using List.find?_some hf

theorem location_endMark (tokens : List Token) :
    (endMark tokens).location = endLocation tokens := by
  rw [endMark, endLocation]
  cases tokens.find? fun t ↦ t.kind == .endOfText <;> rfl

theorem unended_programTokens (tokens : List Token) : Unended (programTokens tokens) := by
  intro k hk
  simpa using List.mem_takeWhile_imp hk

/-- A list that holds one end of text, as its last token, is read to its end. -/
theorem programTokens_concat {ks : List Token} {last : Token} (hu : Unended ks)
    (hlast : last.kind = .endOfText) : programTokens (ks ++ [last]) = ks := by
  rw [programTokens, List.takeWhile_append_of_pos (by simpa [Unended] using hu)]
  simp [hlast]

theorem marked_concat {ks : List Token} {last : Token} (hu : Unended ks)
    (hlast : last.kind = .endOfText) : marked (ks ++ [last]) = ks ++ [last] := by
  have none : ks.find? (fun t ↦ t.kind == .endOfText) = none := by
    simpa [Unended] using hu
  rw [marked, programTokens_concat hu hlast, endMark, List.find?_append, none]
  simp [hlast]

/-- For every list of tokens, the machine comes to the end exactly if the parser comes to a tree,
and otherwise both report the same error. -/
theorem run_marked (tokens : List Token) :
    run (.needed []) (marked tokens) = (parse tokens).map fun _ ↦ .ended := by
  have hlast := kind_endMark tokens
  have agrees := chainsAgree hlast _ (programTokens tokens) [] (Nat.lt_succ_self _)
    (unended_programTokens tokens)
  rw [marked, agrees, parse_eq, location_endMark]
  rcases hc : outcome (chain (endLocation tokens) (programTokens tokens)) with
    e | ⟨t, _ | ⟨extra, rest⟩⟩
  · rfl
  · exact run_end hlast
  · obtain ⟨-, -, -, hr⟩ := Parse.chainsDerived _ _ _ _ _ (Nat.lt_succ_self _) hc
    replace hr : extra.kind = .rightParen := hr
    exact run_cons_of_error (by simp [step, hr])

theorem parse_error_iff (tokens : List Token) (e : SyntaxError) :
    parse tokens = .error e ↔ run (.needed []) (marked tokens) = .error e := by
  rw [run_marked]
  cases parse tokens <;> simp [Except.map]

theorem exists_parse_iff (tokens : List Token) :
    (∃ t, parse tokens = .ok t) ↔ run (.needed []) (marked tokens) = .ok .ended := by
  rw [run_marked]
  cases parse tokens <;> simp [Except.map]

end Reading

end BitCalculus
