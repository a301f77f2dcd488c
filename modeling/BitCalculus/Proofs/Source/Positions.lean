import Mathlib
import BitCalculus.Proofs.Source.Grammar

/-!
# The positions of the parser

The parser again, as a walk through a list of tokens: it keeps a position, looks only at the token
there, and passes it unless it is an `endOfText`. Calls that wait for a result are kept with the
position at which they began. On every list of tokens the walk looks only at tokens that are there
and never passes the first `endOfText`; an item that is read moves the position on, and a call begins
further on than the calls of its part that wait for it. So the walk ends, and it comes to what the
parser comes to.
-/

namespace BitCalculus.Walk

/-! ### The walk -/

/-- The tokens to walk through: an `endOfText` is added unless they end with one. -/
def closed (tokens : List Token) : List Token :=
  if tokens.getLast?.map Token.kind = some .endOfText then tokens
  else tokens ++ [⟨.endOfText, [], ⟨[], 0, 0⟩⟩]

/-- The two parts of the parser, which call each other. -/
inductive Part where
  | item
  | chain
deriving DecidableEq

/-- What a call does with the tree that it waits for. -/
inductive Waiting where
  /-- A chain waits for its first item. -/
  | first
  /-- A chain waits for an item to apply the function to. -/
  | argument (function : Tree)
  /-- An item waits for the chain after a left parenthesis. -/
  | parens (left : Token)
  /-- An item waits for the body of an abstraction. -/
  | abstraction (start parameter : Token)

/-- A call that waits, and the position at which it began. -/
structure Frame where
  start : Nat
  waiting : Waiting

/-- The part that was called. -/
def Frame.part (f : Frame) : Part :=
  match f.waiting with
  | .first | .argument _ => .chain
  | .parens _ | .abstraction _ _ => .item

/-- What the call that does not wait is about to do; `start` is the position at which it began. -/
inductive Control where
  /-- To begin. -/
  | call (part : Part)
  /-- An item: to take the parameter of the abstraction that the token begins. -/
  | parameter (start : Nat) (token : Token)
  /-- A chain: to see whether the function is applied to another item. -/
  | loop (start : Nat) (function : Tree)
  /-- An item: to take the right parenthesis after the tree. -/
  | close (start : Nat) (left : Token) (tree : Tree)
  /-- To hand over its result. -/
  | returned (part : Part) (start : Nat) (result : Except SyntaxError Tree)

/-- The state of a walk; the innermost of the calls that wait comes first. -/
structure State where
  position : Nat
  frames : List Frame
  control : Control

/-- A walk begins with a chain at the first token. -/
def State.start : State :=
  ⟨0, [], .call .chain⟩

/-- What a step leads to: another state, the end of the walk, or a position without a token. -/
inductive Next where
  | state (s : State)
  | finished (position : Nat) (result : Except SyntaxError Tree)
  | outOfRange

/-- Goes on with the token at the position. -/
def look (tokens : List Token) (position : Nat) (next : Token → Next) : Next :=
  match tokens[position]? with
  | some k => next k
  | none => .outOfRange

/-- The position after the token is taken; `endOfText` is not passed. -/
def pass (position : Nat) (k : Token) : Nat :=
  if k.kind = .endOfText then position else position + 1

/-- An item begins by taking the token `k`. -/
def beginItem (position : Nat) (frames : List Frame) (k : Token) : State :=
  match k.kind with
  | .name => ⟨pass position k, frames, .returned .item position (.ok (.name k))⟩
  | .leftParen => ⟨pass position k, ⟨position, .parens k⟩ :: frames, .call .chain⟩
  | .rightParen =>
    ⟨pass position k, frames, .returned .item position (.error ⟨.extraRightParen, k.location⟩)⟩
  | .lambda => ⟨pass position k, frames, .parameter position k⟩
  | .endOfText | .unknown _ =>
    ⟨pass position k, frames, .returned .item position (.error ⟨.endReached, k.location⟩)⟩

/-- A call hands its tree over to the call that waits for it. -/
def resume (position : Nat) (f : Frame) (frames : List Frame) (tree : Tree) : State :=
  match f.waiting with
  | .first => ⟨position, frames, .loop f.start tree⟩
  | .argument function => ⟨position, frames, .loop f.start (.apply function tree)⟩
  | .parens left => ⟨position, frames, .close f.start left tree⟩
  | .abstraction start parameter =>
    ⟨position, frames, .returned .item f.start (.ok (.lambda start parameter tree))⟩

/-- One step. A step looks at no token but the one at the position. -/
def step (tokens : List Token) : State → Next
  | ⟨p, frames, .call .chain⟩ => .state ⟨p, ⟨p, .first⟩ :: frames, .call .item⟩
  | ⟨p, frames, .call .item⟩ => look tokens p fun k => .state (beginItem p frames k)
  | ⟨p, frames, .parameter start token⟩ =>
    look tokens p fun k => .state <|
      if k.kind = .name then ⟨pass p k, ⟨start, .abstraction token k⟩ :: frames, .call .chain⟩
      else ⟨pass p k, frames, .returned .item start (.error ⟨.missingParameter, token.location⟩)⟩
  | ⟨p, frames, .loop start function⟩ =>
    look tokens p fun k => .state <|
      if k.kind = .rightParen ∨ k.kind = .endOfText then
        ⟨p, frames, .returned .chain start (.ok function)⟩
      else ⟨p, ⟨start, .argument function⟩ :: frames, .call .item⟩
  | ⟨p, frames, .close start left tree⟩ =>
    look tokens p fun k => .state <|
      if k.kind = .rightParen then ⟨pass p k, frames, .returned .item start (.ok tree)⟩
      else ⟨pass p k, frames, .returned .item start (.error ⟨.missingRightParen, left.location⟩)⟩
  | ⟨p, f :: frames, .returned _ _ (.ok tree)⟩ => .state (resume p f frames tree)
  | ⟨p, f :: frames, .returned _ _ (.error e)⟩ =>
    .state ⟨p, frames, .returned f.part f.start (.error e)⟩
  | ⟨p, [], .returned _ _ (.ok tree)⟩ =>
    look tokens p fun k => .finished (pass p k) <|
      if k.kind = .endOfText then .ok tree else .error ⟨.extraRightParen, k.location⟩
  | ⟨p, [], .returned _ _ (.error e)⟩ => .finished p (.error e)

/-- Up to `n` steps. -/
def run (tokens : List Token) : (n : Nat) → State → Next
  | 0, s => .state s
  | n + 1, s =>
    match step tokens s with
    | .state s' => run tokens n s'
    | next => next

/-! ### Calls in progress -/

/-- A call in progress: its part and the position at which it began. -/
structure Active where
  part : Part
  start : Nat

/-- The call that does not wait. -/
def Control.own (position : Nat) : Control → Active
  | .call part => ⟨part, position⟩
  | .parameter start _ => ⟨.item, start⟩
  | .loop start _ => ⟨.chain, start⟩
  | .close start _ _ => ⟨.item, start⟩
  | .returned part start _ => ⟨part, start⟩

/-- The calls in progress, the innermost first. -/
def State.active (s : State) : List Active :=
  s.control.own s.position :: s.frames.map fun f ↦ ⟨f.part, f.start⟩

/-- The inner call began at a larger position, unless it is an item with which the outer call, a
chain, began. -/
def Deeper (inner outer : Active) : Prop :=
  outer.start < inner.start ∨
    outer.start = inner.start ∧ outer.part = .chain ∧ inner.part = .item

theorem Deeper.le {inner outer : Active} (h : Deeper inner outer) : outer.start ≤ inner.start :=
  h.elim Nat.le_of_lt fun h ↦ Nat.le_of_eq h.1

/-- A recursive call, which is a call of the same part, begins further on. -/
theorem Deeper.lt {inner outer : Active} (h : Deeper inner outer)
    (recursive : inner.part = outer.part) : outer.start < inner.start := by
  rcases h with lt | ⟨-, ho, hi⟩
  · exact lt
  · rw [ho, hi] at recursive
    cases recursive

/-- A call that begins further on than the innermost one is deeper than all. -/
theorem nested_push {own : Active} {calls : List Active}
    (h : (own :: calls).Pairwise Deeper) (part : Part) {p : Nat} (lt : own.start < p) :
    (⟨part, p⟩ :: own :: calls).Pairwise Deeper := by
  refine List.pairwise_cons.mpr ⟨fun outer hm ↦ .inl ?_, h⟩
  rcases List.mem_cons.mp hm with rfl | hm
  · exact lt
  · exact Nat.lt_of_le_of_lt ((List.pairwise_cons.mp h).1 outer hm).le lt

/-- The first item of a chain is deeper than all, since the chain began further on than all calls
around it. -/
theorem nested_first {p : Nat} {calls : List Active}
    (h : (⟨.chain, p⟩ :: calls : List Active).Pairwise Deeper) :
    (⟨.item, p⟩ :: ⟨.chain, p⟩ :: calls : List Active).Pairwise Deeper := by
  refine List.pairwise_cons.mpr ⟨fun outer hm ↦ ?_, h⟩
  rcases List.mem_cons.mp hm with rfl | hm
  · exact .inr ⟨rfl, rfl, rfl⟩
  · rcases (List.pairwise_cons.mp h).1 outer hm with lt | ⟨-, -, hp⟩
    · exact .inl lt
    · cases hp

/-! ### The tokens ahead -/

/-- The tokens are those of the program, then the first `endOfText` and what follows it. -/
theorem closed_eq (tokens : List Token) :
    ∃ e rest, closed tokens = programTokens tokens ++ e :: rest ∧ e.kind = .endOfText ∧
      e.location = endLocation tokens := by
  rw [closed, endLocation, programTokens]
  cases found : tokens.find? fun k ↦ k.kind == .endOfText with
  | none =>
    -- There is no end among the tokens, so one is added.
    have unended : ∀ k ∈ tokens, k.kind ≠ .endOfText := by
      simpa [List.find?_eq_none] using found
    have last : ¬ tokens.getLast?.map Token.kind = some .endOfText := by
      intro h
      obtain ⟨k, hk, kind⟩ := Option.map_eq_some_iff.mp h
      exact unended k (List.mem_of_getLast? hk) kind
    rw [if_neg last, List.takeWhile_eq_self_iff.mpr (by simpa using unended)]
    exact ⟨_, [], rfl, rfl, rfl⟩
  | some e =>
    obtain ⟨kind, before, after, rfl, unended⟩ := List.find?_eq_some_iff_append.mp found
    have program : (before ++ e :: after).takeWhile (fun k ↦ k.kind != .endOfText) = before := by
      rw [List.takeWhile_append_of_pos (by simpa using unended),
        List.takeWhile_cons_of_neg (by simpa using kind), List.append_nil]
    rw [program]
    split
    · exact ⟨e, after, rfl, by simpa using kind, rfl⟩
    · exact ⟨e, _, List.append_assoc .., by simpa using kind, rfl⟩

section Ahead

variable {tokens : List Token} {p : Nat}

/-- At a position up to the first `endOfText` there is a token: one of the program, which is passed,
or the `endOfText`, which is not. -/
theorem token_at (hp : p ≤ (programTokens tokens).length) :
    (∃ k, (closed tokens)[p]? = some k ∧ p < (programTokens tokens).length ∧
        (programTokens tokens).drop p = k :: (programTokens tokens).drop (p + 1) ∧
        k.kind ≠ .endOfText ∧ pass p k = p + 1) ∨
      ∃ e, (closed tokens)[p]? = some e ∧ (programTokens tokens).drop p = [] ∧
        e.kind = .endOfText ∧ e.location = endLocation tokens ∧ pass p e = p := by
  obtain ⟨e, rest, he, kind, location⟩ := closed_eq tokens
  rw [he]
  rcases Nat.lt_or_eq_of_le hp with lt | rfl
  · left
    have ne : (programTokens tokens)[p].kind ≠ .endOfText := by
      have := List.mem_takeWhile_imp (List.getElem_mem lt)
      simpa using this
    exact ⟨_, (List.getElem?_append_left lt).trans (List.getElem?_eq_getElem lt), lt,
      List.drop_eq_getElem_cons lt, ne, if_neg ne⟩
  · right
    exact ⟨e, by simp, List.drop_length, kind, location, if_pos kind⟩

end Ahead

/-! ### What the parser comes to from a state -/

open Parse (outcome)

/-- An item takes the right parenthesis after a tree. -/
def closeParens (left : Token) (tree : Tree) : List Token → Except SyntaxError (Tree × List Token)
  | right :: rest =>
    if right.kind = .rightParen then .ok (tree, rest)
    else .error ⟨.missingRightParen, left.location⟩
  | [] => .error ⟨.missingRightParen, left.location⟩

/-- An item takes the parameter of an abstraction and reads its body. -/
def readBody (stop : Location) (token : Token) :
    List Token → Except SyntaxError (Tree × List Token)
  | parameter :: rest =>
    if parameter.kind = .name then
      match outcome (Parse.chain stop rest) with
      | .error e => .error e
      | .ok (body, after) => .ok (.lambda token parameter body, after)
    else .error ⟨.missingParameter, token.location⟩
  | [] => .error ⟨.missingParameter, token.location⟩

/-- What a call comes to that was waiting for the given tree and the tokens after it. -/
def Waiting.goOn (stop : Location) (w : Waiting) (tree : Tree) (rest : List Token) :
    Except SyntaxError (Tree × List Token) :=
  match w with
  | .first => outcome (Parse.applied stop tree rest)
  | .argument function => outcome (Parse.applied stop (.apply function tree) rest)
  | .parens left => closeParens left tree rest
  | .abstraction start parameter => .ok (.lambda start parameter tree, rest)

/-- What the calls that wait make of the result that they wait for. -/
def unwind (stop : Location) :
    List Frame → Except SyntaxError (Tree × List Token) → Except SyntaxError Tree
  | _, .error e => .error e
  | [], .ok (tree, []) => .ok tree
  | [], .ok (_, extra :: _) => .error ⟨.extraRightParen, extra.location⟩
  | f :: frames, .ok (tree, rest) => unwind stop frames (f.waiting.goOn stop tree rest)

/-- What the call that does not wait comes to, with the given tokens ahead. -/
def Control.comesTo (stop : Location) (ahead : List Token) :
    Control → Except SyntaxError (Tree × List Token)
  | .call .item => outcome (Parse.item stop ahead)
  | .call .chain => outcome (Parse.chain stop ahead)
  | .parameter _ token => readBody stop token ahead
  | .loop _ function => outcome (Parse.applied stop function ahead)
  | .close _ left tree => closeParens left tree ahead
  | .returned _ _ (.ok tree) => .ok (tree, ahead)
  | .returned _ _ (.error e) => .error e

/-- What the parser comes to from a state of the walk through the tokens. -/
def State.answer (tokens : List Token) (s : State) : Except SyntaxError Tree :=
  unwind (endLocation tokens) s.frames
    (s.control.comesTo (endLocation tokens) ((programTokens tokens).drop s.position))

/-- From its start a walk comes to what the parser comes to. -/
theorem answer_start (tokens : List Token) : State.start.answer tokens = parse tokens := by
  rw [parse_eq, State.answer, State.start, Control.comesTo, List.drop_zero]
  rcases outcome (Parse.chain (endLocation tokens) (programTokens tokens)) with
    e | ⟨t, _ | ⟨extra, rest⟩⟩ <;> rfl

@[simp] theorem unwind_error (stop : Location) (frames : List Frame) (e : SyntaxError) :
    unwind stop frames (.error e) = .error e := by
  cases frames <;> rfl

/-! ### How long a walk can go on -/

/-- The steps that a call that waits still takes once its result is there. -/
def Frame.weight (f : Frame) : Nat :=
  match f.waiting with
  | .first | .argument _ => 2
  | .parens _ | .abstraction _ _ => 1

/-- The steps that a call takes without passing a token. -/
def Control.weight : Control → Nat
  | .call .chain => 4
  | .call .item => 1
  | .parameter _ _ => 1
  | .loop _ _ => 4
  | .close _ _ _ => 1
  | .returned _ _ (.ok _) => 3
  | .returned _ _ (.error _) => 0

/-- A bound on the steps from a state on; a token that is passed pays for five of them. -/
def State.rank (tokens : List Token) (s : State) : Nat :=
  5 * ((programTokens tokens).length - s.position) + (s.frames.map Frame.weight).sum +
    s.control.weight

/-! ### Steps -/

/-- A call that was begun has passed a token, unless it failed. -/
def Control.Progressed (position : Nat) : Control → Prop
  | .call _ => True
  | .parameter start _ => start < position
  | .loop start _ => start < position
  | .close start _ _ => start < position
  | .returned _ start (.ok _) => start < position
  | .returned _ start (.error _) => start ≤ position

/-- What holds of every state of a walk: the first `endOfText` was not passed, the calls in progress
are nested, and the innermost one has passed a token. -/
structure Sound (tokens : List Token) (s : State) : Prop where
  position_le : s.position ≤ (programTokens tokens).length
  nested : s.active.Pairwise Deeper
  progressed : s.control.Progressed s.position

theorem sound_start (tokens : List Token) : Sound tokens .start where
  position_le := Nat.zero_le _
  nested := List.pairwise_singleton _ _
  progressed := trivial

/-- What `n` steps from the state `s` lead to is good: a sound state from which the parser comes to
the same with `n` steps fewer, or the end with what the parser comes to. -/
def Good (tokens : List Token) (s : State) (n : Nat) : Next → Prop
  | .state s' =>
    Sound tokens s' ∧ s'.answer tokens = s.answer tokens ∧ n + s'.rank tokens ≤ s.rank tokens
  | .finished position result =>
    position ≤ (programTokens tokens).length ∧ result = s.answer tokens
  | .outOfRange => False

section Steps

variable {tokens : List Token} {p : Nat} {frames : List Frame}

/-- A call that waits goes on with the result that it waits for, if that is a tree. -/
theorem unwind_cons (stop : Location) (f : Frame) (frames : List Frame)
    (r : Except SyntaxError (Tree × List Token)) :
    unwind stop (f :: frames) r =
      unwind stop frames
        (match r with
        | .error e => .error e
        | .ok (tree, rest) => f.waiting.goOn stop tree rest) := by
  rcases r with e | ⟨tree, rest⟩
  · rw [unwind_error, unwind_error]
  · rw [unwind]

/-- A step at which a call fails is good, whether or not it passes a token. -/
theorem good_failed {control : Control} {part : Part} {start q : Nat} {e : SyntaxError}
    (hs : Sound tokens ⟨p, frames, control⟩) (own : control.own p = ⟨part, start⟩)
    (hw : 0 < control.weight) (le : p ≤ q) (hq : q ≤ (programTokens tokens).length)
    (hstart : start ≤ q)
    (fails : control.comesTo (endLocation tokens) ((programTokens tokens).drop p) = .error e) :
    Good tokens ⟨p, frames, control⟩ 1
      (.state ⟨q, frames, .returned part start (.error e)⟩) := by
  have nested := hs.nested
  rw [State.active, own] at nested
  refine ⟨⟨hq, nested, hstart⟩, ?_, ?_⟩
  · rw [State.answer, State.answer, fails, Control.comesTo]
  · simp only [State.rank]
    rw [Control.weight]
    omega

theorem good_chain (hs : Sound tokens ⟨p, frames, .call .chain⟩) :
    Good tokens ⟨p, frames, .call .chain⟩ 1
      (step (closed tokens) ⟨p, frames, .call .chain⟩) := by
  refine ⟨⟨hs.position_le, nested_first hs.nested, trivial⟩, ?_, ?_⟩
  · rw [State.answer, State.answer, unwind_cons]
    exact congrArg _ (Parse.outcome_chain _ _).symm
  · simp only [State.rank, Frame.weight, Control.weight, List.map_cons, List.sum_cons]
    omega

theorem good_item (hs : Sound tokens ⟨p, frames, .call .item⟩) :
    Good tokens ⟨p, frames, .call .item⟩ 1
      (step (closed tokens) ⟨p, frames, .call .item⟩) := by
  have le : p ≤ (programTokens tokens).length := hs.position_le
  have nested := hs.nested
  rcases token_at le with ⟨k, hk, lt, ahead, ne, hp⟩ | ⟨e, he, ahead, kind, location, hp⟩
  · -- The token is passed; where a chain begins after it, the item that waits began further back.
    simp only [step, look, hk, beginItem, hp]
    cases kind : k.kind with
    | name =>
      refine ⟨⟨lt, nested, Nat.lt_succ_self p⟩, ?_, ?_⟩
      · simp only [State.answer, ahead]
        simp only [Control.comesTo, Parse.outcome_item_cons, kind]
      · simp only [State.rank, Control.weight]
        omega
    | leftParen =>
      refine ⟨⟨lt, nested_push nested _ (Nat.lt_succ_self p), trivial⟩, ?_, ?_⟩
      · simp only [State.answer, ahead]
        simp only [Control.comesTo, Parse.outcome_item_cons, kind, unwind_cons]
        rcases outcome (Parse.chain (endLocation tokens) ((programTokens tokens).drop (p + 1))) with
          e | ⟨tree, _ | ⟨right, rest⟩⟩ <;> rfl
      · simp only [State.rank, Frame.weight, Control.weight, List.map_cons, List.sum_cons]
        omega
    | rightParen =>
      refine good_failed hs rfl Nat.one_pos (Nat.le_succ p) lt (Nat.le_succ p) ?_
      rw [ahead, Control.comesTo, Parse.outcome_item_cons, kind]
    | lambda =>
      refine ⟨⟨lt, nested, Nat.lt_succ_self p⟩, ?_, ?_⟩
      · simp only [State.answer, ahead]
        simp only [Control.comesTo, Parse.outcome_item_cons, kind]
        rcases (programTokens tokens).drop (p + 1) with _ | ⟨parameter, rest⟩ <;> rfl
      · simp only [State.rank, Control.weight]
        omega
    | endOfText => exact absurd kind ne
    | unknown code =>
      refine good_failed hs rfl Nat.one_pos (Nat.le_succ p) lt (Nat.le_succ p) ?_
      rw [ahead, Control.comesTo, Parse.outcome_item_cons, kind]
  · simp only [step, look, he, beginItem, hp, kind]
    refine good_failed hs rfl Nat.one_pos (Nat.le_refl p) le (Nat.le_refl p) ?_
    rw [ahead, Control.comesTo, Parse.outcome_item_nil, location]

theorem good_parameter {start : Nat} {token : Token}
    (hs : Sound tokens ⟨p, frames, .parameter start token⟩) :
    Good tokens ⟨p, frames, .parameter start token⟩ 1
      (step (closed tokens) ⟨p, frames, .parameter start token⟩) := by
  have le : p ≤ (programTokens tokens).length := hs.position_le
  have nested := hs.nested
  have lt_p : start < p := hs.progressed
  rcases token_at le with ⟨k, hk, lt, ahead, -, hp⟩ | ⟨e, he, ahead, kind, -, hp⟩
  · simp only [step, look, hk, hp]
    by_cases kind : k.kind = .name
    · rw [if_pos kind]
      refine ⟨⟨lt, nested_push nested _ (Nat.lt_succ_of_lt lt_p), trivial⟩, ?_, ?_⟩
      · simp only [State.answer, ahead]
        simp only [Control.comesTo, readBody, if_pos kind, unwind_cons]
        rcases outcome (Parse.chain (endLocation tokens) ((programTokens tokens).drop (p + 1))) with
          e | ⟨body, rest⟩ <;> rfl
      · simp only [State.rank, Frame.weight, Control.weight, List.map_cons, List.sum_cons]
        omega
    · rw [if_neg kind]
      refine good_failed hs rfl Nat.one_pos (Nat.le_succ p) lt (Nat.le_succ_of_le lt_p.le) ?_
      rw [ahead, Control.comesTo, readBody, if_neg kind]
  · have not_name : ¬ e.kind = .name := by
      rw [kind]
      decide
    simp only [step, look, he, hp, if_neg not_name]
    refine good_failed hs rfl Nat.one_pos (Nat.le_refl p) le lt_p.le ?_
    rw [ahead, Control.comesTo, readBody]

theorem good_loop {start : Nat} {function : Tree}
    (hs : Sound tokens ⟨p, frames, .loop start function⟩) :
    Good tokens ⟨p, frames, .loop start function⟩ 1
      (step (closed tokens) ⟨p, frames, .loop start function⟩) := by
  have le : p ≤ (programTokens tokens).length := hs.position_le
  have nested := hs.nested
  have lt_p : start < p := hs.progressed
  rcases token_at le with ⟨k, hk, lt, ahead, ne, -⟩ | ⟨e, he, ahead, kind, -, -⟩
  · simp only [step, look, hk]
    by_cases kind : k.kind = .rightParen
    · rw [if_pos (.inl kind)]
      refine ⟨⟨le, nested, lt_p⟩, ?_, ?_⟩
      · have stops : Parse.Stops ((programTokens tokens).drop p) := by
          rw [ahead]
          exact kind
        simp only [State.answer, Control.comesTo, Parse.outcome_applied_of_stops _ _ stops]
      · simp only [State.rank, Control.weight]
        omega
    · rw [if_neg (not_or.mpr ⟨kind, ne⟩)]
      refine ⟨⟨le, nested_push nested _ lt_p, trivial⟩, ?_, ?_⟩
      · have goes : ¬ Parse.Stops ((programTokens tokens).drop p) := by
          rw [ahead]
          exact kind
        simp only [State.answer, Control.comesTo, Parse.outcome_applied_of_not_stops _ _ goes,
          unwind_cons]
        rfl
      · simp only [State.rank, Frame.weight, Control.weight, List.map_cons, List.sum_cons]
        omega
  · simp only [step, look, he, if_pos (Or.inr kind)]
    refine ⟨⟨le, nested, lt_p⟩, ?_, ?_⟩
    · have stops : Parse.Stops ((programTokens tokens).drop p) := by
        rw [ahead]
        trivial
      simp only [State.answer, Control.comesTo, Parse.outcome_applied_of_stops _ _ stops]
    · simp only [State.rank, Control.weight]
      omega

theorem good_close {start : Nat} {left : Token} {tree : Tree}
    (hs : Sound tokens ⟨p, frames, .close start left tree⟩) :
    Good tokens ⟨p, frames, .close start left tree⟩ 1
      (step (closed tokens) ⟨p, frames, .close start left tree⟩) := by
  have le : p ≤ (programTokens tokens).length := hs.position_le
  have nested := hs.nested
  have lt_p : start < p := hs.progressed
  rcases token_at le with ⟨k, hk, lt, ahead, -, hp⟩ | ⟨e, he, ahead, kind, -, hp⟩
  · simp only [step, look, hk, hp]
    by_cases kind : k.kind = .rightParen
    · rw [if_pos kind]
      refine ⟨⟨lt, nested, Nat.lt_succ_of_lt lt_p⟩, ?_, ?_⟩
      · simp only [State.answer, ahead]
        simp only [Control.comesTo, closeParens, if_pos kind]
      · simp only [State.rank, Control.weight]
        omega
    · rw [if_neg kind]
      refine good_failed hs rfl Nat.one_pos (Nat.le_succ p) lt (Nat.le_succ_of_le lt_p.le) ?_
      rw [ahead, Control.comesTo, closeParens, if_neg kind]
  · have not_right : ¬ e.kind = .rightParen := by
      rw [kind]
      decide
    simp only [step, look, he, hp, if_neg not_right]
    refine good_failed hs rfl Nat.one_pos (Nat.le_refl p) le lt_p.le ?_
    rw [ahead, Control.comesTo, closeParens]

/-- The call that waited goes on as `Waiting.goOn` says, in fewer steps than it had left. -/
theorem resume_eq (p : Nat) (f : Frame) (frames : List Frame) (tree : Tree) :
    ∃ control, resume p f frames tree = ⟨p, frames, control⟩ ∧
      control.own p = ⟨f.part, f.start⟩ ∧ (f.start < p → control.Progressed p) ∧
      control.weight < f.weight + 3 ∧
      ∀ stop ahead, control.comesTo stop ahead = f.waiting.goOn stop tree ahead := by
  obtain ⟨start, waiting⟩ := f
  cases waiting with
  | first => exact ⟨.loop start tree, rfl, rfl, id, Nat.lt_succ_self 4, fun _ _ ↦ rfl⟩
  | argument function =>
    exact ⟨.loop start (.apply function tree), rfl, rfl, id, Nat.lt_succ_self 4, fun _ _ ↦ rfl⟩
  | parens left =>
    exact ⟨.close start left tree, rfl, rfl, id, Nat.lt_add_of_pos_right (by decide),
      fun _ _ ↦ rfl⟩
  | abstraction token parameter =>
    exact ⟨.returned .item start (.ok (.lambda token parameter tree)), rfl, rfl, id,
      Nat.lt_succ_self 3, fun _ _ ↦ rfl⟩

/-- A call whose result is handed over began at the position of the call that waits for it or
further on, so that the latter has made as much progress. -/
theorem good_returned {part : Part} {start : Nat} {result : Except SyntaxError Tree} {f : Frame}
    (hs : Sound tokens ⟨p, f :: frames, .returned part start result⟩) :
    Good tokens ⟨p, f :: frames, .returned part start result⟩ 1
      (step (closed tokens) ⟨p, f :: frames, .returned part start result⟩) := by
  have le : p ≤ (programTokens tokens).length := hs.position_le
  obtain ⟨deeper, nested⟩ := List.pairwise_cons.mp hs.nested
  have le_start : f.start ≤ start := (deeper ⟨f.part, f.start⟩ (List.mem_cons_self ..)).le
  rcases result with e | tree
  · have le_p : start ≤ p := hs.progressed
    refine ⟨⟨le, nested, le_start.trans le_p⟩, ?_, ?_⟩
    · simp only [State.answer, Control.comesTo, unwind_error]
    · simp only [State.rank, Frame.weight, Control.weight, List.map_cons, List.sum_cons]
      split <;> omega
  · have lt_p : f.start < p := le_start.trans_lt hs.progressed
    obtain ⟨control, resumed, own, progressed, weight, goOn⟩ := resume_eq p f frames tree
    simp only [step, resumed]
    refine ⟨⟨le, ?_, progressed lt_p⟩, ?_, ?_⟩
    · rw [State.active, own]
      exact nested
    · rw [State.answer, State.answer, goOn, unwind_cons, Control.comesTo]
    · have paid : (Control.returned part start (.ok tree)).weight = 3 := rfl
      simp only [State.rank, paid, List.map_cons, List.sum_cons]
      omega

theorem good_end {part : Part} {start : Nat} {result : Except SyntaxError Tree}
    (hs : Sound tokens ⟨p, [], .returned part start result⟩) :
    Good tokens ⟨p, [], .returned part start result⟩ 1
      (step (closed tokens) ⟨p, [], .returned part start result⟩) := by
  have le : p ≤ (programTokens tokens).length := hs.position_le
  rcases result with e | tree
  · exact ⟨le, rfl⟩
  · rcases token_at le with ⟨k, hk, lt, ahead, ne, hp⟩ | ⟨e, he, ahead, kind, -, hp⟩
    · simp only [step, look, hk, hp, if_neg ne]
      refine ⟨lt, ?_⟩
      simp only [State.answer, Control.comesTo, ahead]
      rfl
    · simp only [step, look, he, hp, if_pos kind]
      refine ⟨le, ?_⟩
      simp only [State.answer, Control.comesTo, ahead]
      rfl

theorem good_step {s : State} (hs : Sound tokens s) :
    Good tokens s 1 (step (closed tokens) s) := by
  obtain ⟨p, frames, control⟩ := s
  cases control with
  | call part =>
    cases part with
    | item => exact good_item hs
    | chain => exact good_chain hs
  | parameter start token => exact good_parameter hs
  | loop start function => exact good_loop hs
  | close start left tree => exact good_close hs
  | returned part start result =>
    cases frames with
    | nil => exact good_end hs
    | cons f frames => exact good_returned hs

end Steps

/-! ### Runs -/

section Runs

variable {tokens : List Token} {s s' : State} {n : Nat}

/-- What is good for a state one step further on is good for the state itself. -/
theorem Good.after {next : Next} (h : Good tokens s 1 (.state s')) (h' : Good tokens s' n next) :
    Good tokens s (n + 1) next := by
  obtain ⟨-, answer, rank⟩ := h
  cases next with
  | state s₂ =>
    obtain ⟨sound, answer', rank'⟩ := h'
    exact ⟨sound, answer'.trans answer, by omega⟩
  | finished position result => exact ⟨h'.1, h'.2.trans answer⟩
  | outOfRange => exact h'

theorem good_run (hs : Sound tokens s) : Good tokens s n (run (closed tokens) n s) := by
  induction n generalizing s with
  | zero => exact ⟨hs, rfl, by omega⟩
  | succ n ih =>
    have h := good_step hs
    rw [run]
    cases hn : step (closed tokens) s with
    | state s' =>
      rw [hn] at h
      exact h.after (ih h.1)
    | finished position result =>
      rw [hn] at h
      exact h
    | outOfRange =>
      rw [hn] at h
      exact h.elim

/-- More steps than the rank allows reach the end. -/
theorem exists_finished (hs : Sound tokens s) (hn : s.rank tokens < n) :
    ∃ position ≤ (programTokens tokens).length,
      run (closed tokens) n s = .finished position (s.answer tokens) := by
  have h := good_run (n := n) hs
  cases hr : run (closed tokens) n s with
  | state s' =>
    rw [hr] at h
    have rank := h.2.2
    omega
  | finished position result =>
    rw [hr] at h
    obtain ⟨le, rfl⟩ := h
    exact ⟨position, le, rfl⟩
  | outOfRange =>
    rw [hr] at h
    exact h.elim

end Runs

end BitCalculus.Walk

namespace BitCalculus

open Walk

/-- For every list of tokens, whether or not it has an `endOfText` and wherever that stands: the
parser looks at no position without a token, and never passes the first `endOfText`; an item that is
read ends further on than it began; a call begins further on than those around it, recursive calls
without exception, and only the first item of a chain together with the chain; after at most five
steps for every token, and five more, the walk ends with what `parse` comes to, a tree or an
error. -/
theorem parse_ends_in_bounds (tokens : List Token) :
    (∀ n s, run (closed tokens) n .start = .state s →
      s.position < (closed tokens).length ∧ s.position ≤ (programTokens tokens).length ∧
        (∀ start tree, s.control = .returned .item start (.ok tree) → start < s.position) ∧
        s.active.Pairwise Deeper ∧
        s.active.Pairwise fun inner outer ↦
          inner.part = outer.part → outer.start < inner.start) ∧
      (∀ n, run (closed tokens) n .start ≠ .outOfRange) ∧
      ∃ n ≤ 5 * (programTokens tokens).length + 5, ∃ position ≤ (programTokens tokens).length,
        run (closed tokens) n .start = .finished position (parse tokens) := by
  refine ⟨?_, ?_, ?_⟩
  · intro n s reached
    have h := good_run (n := n) (sound_start tokens)
    rw [reached] at h
    obtain ⟨sound, -, -⟩ := h
    refine ⟨?_, sound.position_le, ?_, sound.nested, sound.nested.imp Deeper.lt⟩
    · obtain ⟨e, rest, split, -⟩ := closed_eq tokens
      have le := sound.position_le
      rw [split, List.length_append, List.length_cons]
      omega
    · intro start tree returned
      have progressed := sound.progressed
      rw [returned] at progressed
      exact progressed
  · intro n outside
    have h := good_run (n := n) (sound_start tokens)
    rw [outside] at h
    exact h
  · rw [← answer_start]
    refine ⟨_, Nat.le_refl _, exists_finished (sound_start tokens) ?_⟩
    simp only [State.rank, State.start, Control.weight, List.map_nil, List.sum_nil]
    omega

/-- A parenthesis is open where the first `endOfText` stands; the tokens after that are not looked
at. -/
theorem parse_ends_in_bounds_malformed :
    ∃ tokens : List Token,
      tokens.map Token.kind = [.name, .leftParen, .endOfText, .unknown 7, .rightParen] ∧
      (∃ s, run (closed tokens) 2 .start = .state s ∧
        (∃ tree, s.control = .returned .item 0 (.ok tree)) ∧ 0 < s.position) ∧
      (∃ s, run (closed tokens) 6 .start = .state s ∧ s.active.length = 4 ∧
        s.active.Pairwise Deeper ∧ s.position < (closed tokens).length) ∧
      parse tokens = .error ⟨.endReached, ⟨lit "t", 1, 4⟩⟩ ∧
      ∃ n ≤ 15, ∃ position ≤ 2, run (closed tokens) n .start =
        .finished position (.error ⟨.endReached, ⟨lit "t", 1, 4⟩⟩) := by
  let tokens : List Token :=
    [⟨.name, lit "a", ⟨lit "t", 1, 1⟩⟩, ⟨.leftParen, lit "(", ⟨lit "t", 1, 3⟩⟩,
      ⟨.endOfText, [], ⟨lit "t", 1, 4⟩⟩, ⟨.unknown 7, lit "?", ⟨lit "t", 1, 5⟩⟩,
      ⟨.rightParen, lit ")", ⟨lit "t", 1, 6⟩⟩]
  have fails : parse tokens = .error ⟨.endReached, ⟨lit "t", 1, 4⟩⟩ := by cbv
  obtain ⟨states, -, ends⟩ := parse_ends_in_bounds tokens
  rw [fails] at ends
  refine ⟨tokens, rfl, ?_, ?_, fails, ends⟩
  · have reached : run (closed tokens) 2 .start = .state _ := rfl
    obtain ⟨-, -, progress, -, -⟩ := states _ _ reached
    exact ⟨_, reached, ⟨_, rfl⟩, progress _ _ rfl⟩
  · have reached : run (closed tokens) 6 .start = .state _ := rfl
    obtain ⟨inside, -, -, nested, -⟩ := states _ _ reached
    exact ⟨_, reached, rfl, nested, inside⟩

end BitCalculus
