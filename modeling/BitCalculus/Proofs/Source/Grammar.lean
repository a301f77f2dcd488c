import Mathlib
import BitCalculus.Source.Parse

/-!
# The grammar of programs

A program is a chain: one or more atoms, of which each is applied to the next, with at most one
abstraction, which can only stand at the end. An atom is a name or a chain in parentheses, and the
body of an abstraction is again a chain, so that it reaches as far right as its surroundings allow.
The parser accepts exactly the chains, each with the tree of its derivation, and no chain has two
trees.
-/

namespace BitCalculus

/-- The tokens of a tree in the order of the text; parentheses leave no token. -/
def Tree.tokens : Tree → List Token
  | .name token => [token]
  | .lambda start parameter body => start :: parameter :: body.tokens
  | .apply function argument => function.tokens ++ argument.tokens

/-- Whether a token is a parenthesis. -/
def Token.isParen (t : Token) : Bool :=
  t.kind == .leftParen || t.kind == .rightParen

/-- The phrases of the grammar. -/
inductive Phrase where
  | chain
  | atoms
  | atom
  | abstraction
deriving DecidableEq

/-- The token lists of each phrase and their trees. -/
inductive Derives : Phrase → List Token → Tree → Prop
  | atoms {ks : List Token} {t : Tree} (h : Derives .atoms ks t) : Derives .chain ks t
  | atomsThenAbstraction {ks ls : List Token} {f x : Tree} (hf : Derives .atoms ks f)
      (hx : Derives .abstraction ls x) : Derives .chain (ks ++ ls) (.apply f x)
  | abstraction {ks : List Token} {t : Tree} (h : Derives .abstraction ks t) : Derives .chain ks t
  | one {ks : List Token} {t : Tree} (h : Derives .atom ks t) : Derives .atoms ks t
  | more {ks ls : List Token} {f x : Tree} (hf : Derives .atoms ks f) (hx : Derives .atom ls x) :
      Derives .atoms (ks ++ ls) (.apply f x)
  | name {k : Token} (h : k.kind = .name) : Derives .atom [k] (.name k)
  | parens {left right : Token} {ks : List Token} {t : Tree} (hl : left.kind = .leftParen)
      (h : Derives .chain ks t) (hr : right.kind = .rightParen) :
      Derives .atom (left :: (ks ++ [right])) t
  | lambda {start parameter : Token} {ks : List Token} {body : Tree} (hs : start.kind = .lambda)
      (hp : parameter.kind = .name) (h : Derives .chain ks body) :
      Derives .abstraction (start :: parameter :: ks) (.lambda start parameter body)

/-! ### The parts of the parser -/

namespace Parse

/-- What a part of the parser comes to, without the bound on the tokens that are left. -/
def outcome {bound : Nat} (r : Except SyntaxError (Parsed bound)) :
    Except SyntaxError (Tree × List Token) :=
  r.map Subtype.val

section Equations

variable (stop : Location) (k : Token) (ks : List Token) (f : Tree)

theorem outcome_item_nil : outcome (item stop []) = .error ⟨.endReached, stop⟩ := by
  rw [item]
  rfl

theorem outcome_item_cons : outcome (item stop (k :: ks)) =
    match k.kind with
    | .name => .ok (.name k, ks)
    | .leftParen =>
      match outcome (chain stop ks) with
      | .error e => .error e
      | .ok (t, right :: rest) =>
        if right.kind = .rightParen then .ok (t, rest) else .error ⟨.missingRightParen, k.location⟩
      | .ok (_, []) => .error ⟨.missingRightParen, k.location⟩
    | .rightParen => .error ⟨.extraRightParen, k.location⟩
    | .lambda =>
      match ks with
      | [] => .error ⟨.missingParameter, k.location⟩
      | parameter :: rest =>
        if parameter.kind = .name then
          match outcome (chain stop rest) with
          | .error e => .error e
          | .ok (body, after) => .ok (.lambda k parameter body, after)
        else .error ⟨.missingParameter, k.location⟩
    | .endOfText | .unknown _ => .error ⟨.endReached, k.location⟩ := by
  rw [item.eq_def]
  dsimp only
  cases k.kind with
  | name => rfl
  | leftParen =>
    dsimp only
    rcases chain stop ks with e | ⟨⟨t, _ | ⟨right, rest⟩⟩, hl⟩
    · rfl
    · rfl
    · by_cases hr : right.kind = .rightParen <;> simp [outcome, Except.map, hr]
  | rightParen => rfl
  | lambda =>
    rcases ks with _ | ⟨parameter, rest⟩
    · rfl
    · dsimp only
      split
      · rcases chain stop rest with e | ⟨⟨body, after⟩, hl⟩ <;> rfl
      · rfl
  | endOfText => rfl
  | unknown code => rfl

theorem outcome_chain : outcome (chain stop ks) =
    match outcome (item stop ks) with
    | .error e => .error e
    | .ok (first, rest) => outcome (applied stop first rest) := by
  rw [chain]
  rcases item stop ks with e | ⟨⟨first, rest⟩, hl⟩
  · rfl
  · dsimp only [outcome, Except.map]
    rcases applied stop first rest with e | ⟨r, hl'⟩ <;> rfl

/-- The tokens after a chain: there are none, or the first is a right parenthesis. -/
def Stops : List Token → Prop
  | [] => True
  | k :: _ => k.kind = .rightParen

/-- Where a chain stops, a tree is applied to nothing more. -/
theorem outcome_applied_of_stops {ks : List Token} (h : Stops ks) :
    outcome (applied stop f ks) = .ok (f, ks) := by
  rcases ks with _ | ⟨k, ks⟩
  · rw [applied]
    rfl
  · rw [applied, if_pos (show k.kind = .rightParen from h)]
    rfl

/-- Where a chain does not stop, a tree is applied to the next item. -/
theorem outcome_applied_of_not_stops {ks : List Token} (h : ¬ Stops ks) :
    outcome (applied stop f ks) =
      match outcome (item stop ks) with
      | .error e => .error e
      | .ok (x, rest) => outcome (applied stop (.apply f x) rest) := by
  rcases ks with _ | ⟨k, ks⟩
  · exact absurd trivial h
  · rw [applied, if_neg (show ¬ k.kind = .rightParen from h)]
    rcases item stop (k :: ks) with e | ⟨⟨x, rest⟩, hl⟩
    · rfl
    · dsimp only [outcome, Except.map]
      rcases applied stop (.apply f x) rest with e | ⟨r, hl'⟩ <;> rfl

end Equations

/-! ### What is read is derived -/

section Soundness

variable {stop : Location} {n : Nat} {ts rest : List Token} {f t : Tree}

/-- Every chain that is read from fewer than `n` tokens is derived, and stops where it has to. -/
def ChainsDerived (stop : Location) (n : Nat) : Prop :=
  ∀ ts t rest, ts.length < n → outcome (chain stop ts) = .ok (t, rest) →
    ∃ ks, ts = ks ++ rest ∧ Derives .chain ks t ∧ Stops rest

/-- An item is an atom, or an abstraction up to the end of the chain. -/
theorem derives_item (ih : ChainsDerived stop n) (hl : ts.length ≤ n)
    (h : outcome (item stop ts) = .ok (t, rest)) :
    ∃ ks, ts = ks ++ rest ∧ 0 < ks.length ∧
      (Derives .atom ks t ∨ Derives .abstraction ks t ∧ Stops rest) := by
  rcases ts with _ | ⟨k, ts⟩
  · rw [outcome_item_nil] at h
    cases h
  · rw [List.length_cons] at hl
    rw [outcome_item_cons] at h
    split at h
    · next hk =>
      cases h
      exact ⟨[k], rfl, by simp, .inl (.name hk)⟩
    · next hk =>
      split at h
      · cases h
      · next tree right after hc =>
        split at h
        · next hr =>
          cases h
          obtain ⟨ks, rfl, derived, -⟩ := ih ts _ _ (by omega) hc
          exact ⟨k :: (ks ++ [right]), by simp, by simp, .inl (.parens hk derived hr)⟩
        · cases h
      · cases h
    · cases h
    · next hk =>
      split at h
      · cases h
      · next parameter after =>
        rw [List.length_cons] at hl
        split at h
        · next hp =>
          split at h
          · cases h
          · next body after' hc =>
            cases h
            obtain ⟨ks, rfl, derived, stops⟩ := ih after _ _ (by omega) hc
            exact ⟨k :: parameter :: ks, rfl, by simp, .inr ⟨.lambda hk hp derived, stops⟩⟩
        · cases h
    · cases h
    · cases h

/-- Atoms that are applied to the items after them are a chain. -/
theorem derives_applied (ih : ChainsDerived stop n) (hl : ts.length ≤ n) {ks : List Token}
    (hf : Derives .atoms ks f) (h : outcome (applied stop f ts) = .ok (t, rest)) :
    ∃ ls, ts = ls ++ rest ∧ Derives .chain (ks ++ ls) t ∧ Stops rest := by
  induction hm : ts.length using Nat.strongRecOn generalizing ts ks f with
  | ind m ihm =>
    by_cases stops : Stops ts
    · rw [outcome_applied_of_stops stop f stops] at h
      cases h
      exact ⟨[], rfl, by simpa using hf.atoms, stops⟩
    · rw [outcome_applied_of_not_stops stop f stops] at h
      split at h
      · cases h
      · next x after hi =>
        obtain ⟨ls, rfl, hpos, atom | ⟨abstraction, stops'⟩⟩ := derives_item ih hl hi
        · rw [List.length_append] at hl hm
          obtain ⟨ms, rfl, derived, stops'⟩ :=
            ihm after.length (by omega) (by omega) (.more hf atom) h rfl
          exact ⟨ls ++ ms, by simp, by simpa using derived, stops'⟩
        · -- Nothing follows an abstraction, so the loop ends here.
          rw [outcome_applied_of_stops stop _ stops'] at h
          cases h
          exact ⟨ls, rfl, .atomsThenAbstraction hf abstraction, stops'⟩

theorem chainsDerived (stop : Location) (n : Nat) : ChainsDerived stop n := by
  induction n with
  | zero =>
    intro ts t rest hl
    omega
  | succ n ih =>
    intro ts t rest hl h
    rw [outcome_chain] at h
    split at h
    · cases h
    · next first after hi =>
      obtain ⟨ks, rfl, -, atom | ⟨abstraction, stops⟩⟩ := derives_item ih (by omega) hi
      · rw [List.length_append] at hl
        obtain ⟨ls, rfl, derived, stops⟩ := derives_applied ih (by omega) (.one atom) h
        exact ⟨ks ++ ls, by simp, derived, stops⟩
      · rw [outcome_applied_of_stops stop _ stops] at h
        cases h
        exact ⟨ks, rfl, .abstraction abstraction, stops⟩

end Soundness

/-! ### What is derived is read -/

/-- How the tokens of each phrase are read, whatever follows them: atoms are read together with what
they are applied to, and an abstraction only where its chain stops. -/
def Reads (stop : Location) : Phrase → List Token → Tree → Prop
  | .chain, ks, t => ∀ rest, Stops rest → outcome (chain stop (ks ++ rest)) = .ok (t, rest)
  | .atoms, ks, t =>
    ∀ rest, outcome (chain stop (ks ++ rest)) = outcome (applied stop t rest)
  | .atom, ks, t =>
    ∀ rest, ¬ Stops (ks ++ rest) ∧ outcome (item stop (ks ++ rest)) = .ok (t, rest)
  | .abstraction, ks, t => ∀ rest, Stops rest →
    ¬ Stops (ks ++ rest) ∧ outcome (item stop (ks ++ rest)) = .ok (t, rest)

/-- The tokens of every phrase are read as its tree. -/
theorem reads_of_derives (stop : Location) {phrase : Phrase} {ks : List Token} {t : Tree}
    (h : Derives phrase ks t) : Reads stop phrase ks t := by
  induction h with
  | atoms h ih =>
    intro rest stops
    rw [ih rest, outcome_applied_of_stops stop _ stops]
  | atomsThenAbstraction hf hx ihf ihx =>
    intro rest stops
    obtain ⟨goes, read⟩ := ihx rest stops
    rw [List.append_assoc, ihf, outcome_applied_of_not_stops stop _ goes, read]
    exact outcome_applied_of_stops stop _ stops
  | abstraction h ih =>
    intro rest stops
    rw [outcome_chain, (ih rest stops).2]
    exact outcome_applied_of_stops stop _ stops
  | one h ih =>
    intro rest
    rw [outcome_chain, (ih rest).2]
  | more hf hx ihf ihx =>
    intro rest
    obtain ⟨goes, read⟩ := ihx rest
    rw [List.append_assoc, ihf, outcome_applied_of_not_stops stop _ goes, read]
  | name h =>
    intro rest
    refine ⟨by simp [Stops, h], ?_⟩
    rw [List.singleton_append, outcome_item_cons, h]
  | @parens left right ks t hl h hr ih =>
    intro rest
    refine ⟨by simp [Stops, hl], ?_⟩
    rw [List.cons_append, List.append_assoc, outcome_item_cons, hl]
    dsimp only
    rw [List.singleton_append, ih (right :: rest) hr]
    exact if_pos hr
  | lambda hs hp h ih =>
    intro rest stops
    refine ⟨by simp [Stops, hs], ?_⟩
    rw [List.cons_append, List.cons_append, outcome_item_cons, hs]
    dsimp only
    rw [if_pos hp, ih rest stops]

end Parse

/-! ### Programs -/

/-- The tokens of a phrase are those of its tree and parentheses. -/
theorem tokens_of_derives {phrase : Phrase} {ks : List Token} {t : Tree}
    (h : Derives phrase ks t) : t.tokens = ks.filter fun k ↦ !k.isParen := by
  induction h with
  | atoms h ih => exact ih
  | atomsThenAbstraction hf hx ihf ihx => rw [Tree.tokens, ihf, ihx, List.filter_append]
  | abstraction h ih => exact ih
  | one h ih => exact ih
  | more hf hx ihf ihx => rw [Tree.tokens, ihf, ihx, List.filter_append]
  | name h => simp [Tree.tokens, Token.isParen, h]
  | parens hl h hr ih => simp [ih, Token.isParen, hl, hr]
  | lambda hs hp h ih => simp [Tree.tokens, ih, Token.isParen, hs, hp]

/-- No tokens are a chain in two ways. -/
theorem Derives.unique {ks : List Token} {t t' : Tree} (h : Derives .chain ks t)
    (h' : Derives .chain ks t') : t = t' := by
  have read := Parse.reads_of_derives ⟨[], 0, 0⟩ h [] trivial
  rw [Parse.reads_of_derives ⟨[], 0, 0⟩ h' [] trivial] at read
  cases read
  rfl

/-- A program is a chain that no token follows. -/
theorem parse_eq (tokens : List Token) :
    parse tokens =
      match Parse.outcome (Parse.chain (endLocation tokens) (programTokens tokens)) with
      | .error e => .error e
      | .ok (t, []) => .ok t
      | .ok (_, extra :: _) => .error ⟨.extraRightParen, extra.location⟩ := by
  rw [parse]
  rcases Parse.chain (endLocation tokens) (programTokens tokens) with
    e | ⟨⟨t, _ | ⟨extra, rest⟩⟩, hl⟩ <;> rfl

theorem derives_of_parse {tokens : List Token} {t : Tree} (h : parse tokens = .ok t) :
    Derives .chain (programTokens tokens) t := by
  rw [parse_eq] at h
  split at h
  · cases h
  · next hc =>
    cases h
    obtain ⟨ks, hks, derived, -⟩ := Parse.chainsDerived _ _ _ _ _ (Nat.lt_succ_self _) hc
    rwa [hks, List.append_nil]
  · cases h

theorem parse_of_derives {tokens : List Token} {t : Tree}
    (h : Derives .chain (programTokens tokens) t) : parse tokens = .ok t := by
  have read := Parse.reads_of_derives (endLocation tokens) h [] trivial
  rw [List.append_nil] at read
  rw [parse_eq, read]

/-- For every list of tokens: the parser comes to a tree exactly if the tokens before the first
`endOfText` are a chain with this tree; there is at most one such tree, and its tokens are those of
the chain that are no parentheses, in the same order. -/
theorem parse_accepts_grammar (tokens : List Token) :
    (∀ t, parse tokens = .ok t ↔ Derives .chain (programTokens tokens) t) ∧
      ∀ t, Derives .chain (programTokens tokens) t →
        (∀ t', Derives .chain (programTokens tokens) t' → t' = t) ∧
        t.tokens = (programTokens tokens).filter fun k ↦ !k.isParen := by
  refine ⟨fun t ↦ ⟨derives_of_parse, parse_of_derives⟩, fun t derived ↦ ⟨?_, ?_⟩⟩
  · intro t' derived'
    exact derived'.unique derived
  · exact tokens_of_derives derived

/-- The body of an abstraction takes in all that follows it, and a parenthesis that is not closed
leaves no tree. -/
theorem parse_accepts_grammar_body :
    (∃ t, parse (tokenize (lit "t") (lit "f (g x) \\y y z")) = .ok t ∧
      Derives .chain (programTokens (tokenize (lit "t") (lit "f (g x) \\y y z"))) t ∧
      t.tokens.map Token.text =
        [lit "f", lit "g", lit "x", lit "\\", lit "y", lit "y", lit "z"]) ∧
      ∀ t, ¬ Derives .chain (programTokens (tokenize (lit "t") (lit "f (g"))) t := by
  constructor
  · obtain ⟨t, parsed⟩ : ∃ t, parse (tokenize (lit "t") (lit "f (g x) \\y y z")) = .ok t :=
      ⟨_, by cbv⟩
    obtain ⟨accepts, rest⟩ := parse_accepts_grammar (tokenize (lit "t") (lit "f (g x) \\y y z"))
    have derived := (accepts t).mp parsed
    refine ⟨t, parsed, derived, ?_⟩
    rw [(rest t derived).2]
    cbv
  · intro t derived
    have parsed := ((parse_accepts_grammar _).1 t).mpr derived
    have fails : parse (tokenize (lit "t") (lit "f (g")) =
        .error ⟨.missingRightParen, ⟨lit "t", 1, 3⟩⟩ := by cbv
    rw [fails] at parsed
    cases parsed

end BitCalculus
