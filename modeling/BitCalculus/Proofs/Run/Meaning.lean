import Mathlib
import BitCalculus.Proofs.Run.Programs

/-!
# The meaning of trees

What a program means is defined on its tree: names are looked up in an environment of names, an
abstraction closes over the environment in which it stands, and an application evaluates its function,
then its argument, and then applies. Interning keeps meanings. The node of a tree, evaluated in an
environment that corresponds to the environment of names slot by slot, comes to what the tree means,
whatever the arena held before and however much scopes grew since a slot was given.
-/

namespace BitCalculus

open Outcome (andThen)

/-! ### Reference semantics -/

/-- What trees evaluate to. A closure keeps the environment of names in which it was made. -/
inductive Meaning where
  | closure (names : List (Bytes × Meaning)) (parameter : Token) (body : Tree)
  | writer (bit : Bool)
  | reader (held : List Meaning)
  | probe

/-- An environment of names; the first entry of a name counts. -/
abbrev Names := List (Bytes × Meaning)

namespace Meaning

/-- A way to evaluate a tree in an environment of names. -/
abbrev Evaluator := Tree → Names → Streams → Outcome Meaning × Streams

/-- Applies a meaning to an argument. -/
def apply (eval : Evaluator) (function argument : Meaning) (s : Streams) :
    Outcome Meaning × Streams :=
  match function with
  | .closure names parameter body => eval body ((parameter.text, argument) :: names) s
  | .writer bit => (.value argument, s.write bit)
  | .reader [zero, one, atEnd] => (.value (s.pick zero one atEnd).1, (s.pick zero one atEnd).2)
  | .reader held => (.value (.reader (held ++ [argument])), s)
  | .probe => (.value argument, s)

/-- Evaluates a tree to the given depth. -/
def eval : (depth : Nat) → Evaluator
  | 0, _, _, s => (.outOfDepth, s)
  | depth + 1, tree, names, s =>
    match tree with
    | .name token =>
      match names.lookup token.text with
      | some m => (.value m, s)
      | none => (.fault (.raised (undefinedMessage [token])), s)
    | .lambda _ parameter body => (.value (.closure names parameter body), s)
    | .apply function argument =>
      andThen (eval depth function names s) fun f s ↦
        andThen (eval depth argument names s) fun x s ↦ apply (eval depth) f x s

/-- A reader that lacks a continuation takes its argument as the next one. -/
theorem apply_reader (ev : Evaluator) {held : List Meaning} (h : held.length ≠ 3) (x : Meaning)
    (s : Streams) : apply ev (.reader held) x s = (.value (.reader (held ++ [x])), s) := by
  unfold apply
  split
  · next he => cases he
  · next he => cases he
  · next he =>
    cases he
    exact absurd rfl h
  · next he =>
    cases he
    rfl
  · next he => cases he

end Meaning

/-- What a built-in function means. -/
def Builtin.meaning : Builtin → Meaning
  | writeZero => .writer false
  | writeOne => .writer true
  | read => .reader []
  | debug => .probe

/-- The environment of the built-in names. -/
def builtinNames : Names :=
  Builtin.all.map fun b ↦ (b.name, b.meaning)

/-- Evaluates a tree to the given depth in the environment of the built-in names. -/
def Meaning.run (depth : Nat) (tree : Tree) (s : Streams) : Outcome Meaning × Streams :=
  Meaning.eval depth tree builtinNames s

/-- Evaluation of a tree ends before it runs out of depth. -/
def Meaning.Terminates (depth : Nat) (tree : Tree) (s : Streams) : Prop :=
  (Meaning.run depth tree s).1 ≠ .outOfDepth

/-! ### Correspondence -/

/-- A datum corresponds to a meaning: both are the same built-in function, with corresponding
continuations if it is a reader, or both are closures. The body of a closure is then the node that
interning its tree in the arena `A` finds there, and what it captures corresponds name by name to the
environment of names. -/
inductive Corresponds (A : Arena) : Datum → Meaning → Prop
  | closure {captured : List Datum} {body : Expr} {names : Names} {parameter : Token} {tree : Tree}
      {inner : Scope} (node : A.internIn [parameter] tree = (body, parameter :: inner, A))
      (length : captured.length = inner.length)
      (bound : ∀ t ∈ inner, (names.lookup t.text).isSome)
      (values : ∀ i name d m, inner.nameAt? i = some name → captured[i]? = some d →
        names.lookup name = some m → Corresponds A d m) :
      Corresponds A (.closure captured body) (.closure names parameter tree)
  | writer (bit : Bool) : Corresponds A (.writer bit) (.writer bit)
  | reader {held : List Datum} {held' : List Meaning} (length : held.length = held'.length)
      (values : ∀ (i : Nat) d m, held[i]? = some d → held'[i]? = some m → Corresponds A d m) :
      Corresponds A (.reader held) (.reader held')
  | probe : Corresponds A .probe .probe

/-- Each slot of the scope holds a datum that corresponds to the meaning of its name. -/
def Scope.Matches (A : Arena) (s : Scope) (names : Names) (data : List Datum) : Prop :=
  ∀ i name, s.nameAt? i = some name →
    ∃ d m, data[i]? = some d ∧ names.lookup name = some m ∧ Corresponds A d m

/-- Two evaluations go the same way: both come to an end with corresponding results and the same
streams, or both run out of depth. -/
inductive SameWay (A : Arena) : Outcome Datum × Streams → Outcome Meaning × Streams → Prop
  | value {d : Datum} {m : Meaning} (s : Streams) (h : Corresponds A d m) :
      SameWay A (.value d, s) (.value m, s)
  | outOfDepth (s : Streams) : SameWay A (.outOfDepth, s) (.outOfDepth, s)

section Correspondence

variable {A : Arena}

theorem Scope.Matches.shrink {s s' : Scope} {names : Names} {data : List Datum}
    (h : s'.Matches A names data) (grows : s <+: s') : s.Matches A names data :=
  fun i name hn ↦ h i name (nameAt?_mono grows hn)

theorem SameWay.andThen {r : Outcome Datum × Streams} {r' : Outcome Meaning × Streams}
    {next : Datum → Streams → Outcome Datum × Streams}
    {next' : Meaning → Streams → Outcome Meaning × Streams} (h : SameWay A r r')
    (hn : ∀ d m s, Corresponds A d m → SameWay A (next d s) (next' m s)) :
    SameWay A (andThen r next) (andThen r' next') := by
  cases h with
  | value s h => exact hn _ _ s h
  | outOfDepth s => exact .outOfDepth s

/-- What goes the same way runs out of depth together. -/
theorem SameWay.outOfDepth_iff {r : Outcome Datum × Streams} {r' : Outcome Meaning × Streams}
    (h : SameWay A r r') : r.1 = .outOfDepth ↔ r'.1 = .outOfDepth := by
  cases h with
  | value s h => simp
  | outOfDepth s => simp

/-- What goes the way of a value comes to a corresponding one. -/
theorem SameWay.exists_value {d : Datum} {t : Streams} {r : Outcome Meaning × Streams}
    (h : SameWay A (.value d, t) r) : ∃ m, r = (.value m, t) ∧ Corresponds A d m := by
  cases h with
  | value s h => exact ⟨_, rfl, h⟩

/-- The environment of a body matches its scope: the argument stands in slot 0 and the captured data
after it, and the parameter hides no other name of the scope. -/
theorem matches_body (hA : A.Built (0 ≤ ·)) {captured : List Datum} {body : Expr} {names : Names}
    {parameter : Token} {tree : Tree} {inner : Scope} {d : Datum} {m : Meaning}
    (node : A.internIn [parameter] tree = (body, parameter :: inner, A))
    (length : captured.length = inner.length)
    (bound : ∀ t ∈ inner, (names.lookup t.text).isSome)
    (values : ∀ i name d m, inner.nameAt? i = some name → captured[i]? = some d →
      names.lookup name = some m → Corresponds A d m) (h : Corresponds A d m) :
    Scope.Matches A (parameter :: inner) ((parameter.text, m) :: names) (d :: captured) := by
  intro i name hn
  cases i with
  | zero =>
    cases hn
    exact ⟨d, m, rfl, by simp, h⟩
  | succ i =>
    obtain ⟨t, ht, rfl⟩ := Option.map_eq_some_iff.mp hn
    have hm : t ∈ inner := List.mem_of_getElem? ht
    have hne : t.text ≠ parameter.text := (Arena.scope_body hA node).2 t hm
    obtain ⟨m', hm'⟩ := Option.isSome_iff_exists.mp (bound t hm)
    have hi : i < captured.length := by
      rw [length]
      exact Nat.lt_of_succ_lt_succ (List.getElem?_eq_some_iff.mp ht).1
    refine ⟨captured[i], m', by simp [hi], ?_, ?_⟩
    · rw [List.lookup_cons, beq_false_of_ne hne]
      exact hm'
    · exact values i t.text _ m' hn (List.getElem?_eq_getElem hi) hm'

/-! ### Interning keeps meanings -/

/-- Evaluators that go the same way on the bodies of corresponding closures apply what corresponds to
the same effect. -/
theorem sameWay_apply (hA : A.Built (0 ≤ ·)) {ev : Plain.Evaluator} {ev' : Meaning.Evaluator}
    (bodies : ∀ {scope : Scope} {tree : Tree} {e : Expr} {scope' : Scope} {names : Names}
      {data : List Datum} (s : Streams), A.internIn scope tree = (e, scope', A) →
        scope'.Matches A names data → SameWay A (ev e data s) (ev' tree names s))
    {f x : Datum} {f' x' : Meaning} (hf : Corresponds A f f') (hx : Corresponds A x x')
    (s : Streams) : SameWay A (Plain.apply ev f x s) (Meaning.apply ev' f' x' s) := by
  cases hf with
  | closure node length bound values =>
    exact bodies s node (matches_body hA node length bound values hx)
  | writer bit => exact .value _ hx
  | @reader held held' length values =>
    rcases Plain.three_or_not held with ⟨zero, one, atEnd, rfl⟩ | hl
    · obtain ⟨zero', one', atEnd', rfl⟩ : ∃ x y z, held' = [x, y, z] := by
        rcases Plain.three_or_not held' with h | h
        · exact h
        · exact absurd length.symm h
      have hz := values 0 zero zero' rfl rfl
      have ho := values 1 one one' rfl rfl
      have he := values 2 atEnd atEnd' rfl rfl
      rw [Plain.apply, Meaning.apply, Streams.pick, Streams.pick]
      rcases s.read with ⟨_ | _ | _, s'⟩
      · exact .value s' he
      · exact .value s' hz
      · exact .value s' ho
    · rw [Plain.apply_reader _ hl, Meaning.apply_reader _ (length ▸ hl)]
      refine .value s (.reader (by simp [length]) fun i d m hd hm ↦ ?_)
      rw [List.getElem?_append] at hd hm
      rw [← length] at hm
      split at hd
      · next hi =>
        rw [if_pos hi] at hm
        exact values i d m hd hm
      · next hi =>
        rw [if_neg hi] at hm
        rw [List.getElem?_singleton] at hd hm
        split at hd
        · next h0 =>
          rw [if_pos h0] at hm
          cases hd
          cases hm
          exact hx
        · cases hd
  | probe => exact .value _ hx

/-- The captured data of an abstraction correspond name by name to its environment of names. -/
theorem captured_matches {s : Scope} {tokens : List Token} {names : Names} {data : List Datum}
    (h : (s.resolveAll tokens).2.Matches A names data) :
    ∃ captured, collect (elementAt data) ((s.resolveAll tokens).1.map Int.ofNat) = .ok captured ∧
      captured.length = tokens.length ∧ (∀ t ∈ tokens, (names.lookup t.text).isSome) ∧
      ∀ i name d m, Scope.nameAt? tokens i = some name → captured[i]? = some d →
        names.lookup name = some m → Corresponds A d m := by
  have elementAt_eq (slot : Nat) (d : Datum) : elementAt data (slot : Int) = .ok d ↔
      data[slot]? = some d := by
    rw [elementAt, if_pos (Int.natCast_nonneg slot), Int.toNat_natCast]
    cases data[slot]? <;> simp
  obtain ⟨captured, collected⟩ : ∃ captured,
      collect (elementAt data) ((s.resolveAll tokens).1.map Int.ofNat) = .ok captured := by
    cases hc : collect (elementAt data) ((s.resolveAll tokens).1.map Int.ofNat) with
    | ok captured => exact ⟨captured, rfl⟩
    | error reason =>
      obtain ⟨i, hi, reason, he⟩ := exists_of_collect_error hc
      obtain ⟨slot, hs, rfl⟩ := List.mem_map.mp hi
      obtain ⟨t, ht⟩ : ∃ name, (s.resolveAll tokens).2.nameAt? slot = some name := by
        have hlt := Scope.lt_of_mem_resolveAll hs
        exact ⟨_, by rw [Scope.nameAt?, List.getElem?_eq_getElem hlt]; rfl⟩
      obtain ⟨d, m, hd, -⟩ := h slot t ht
      rw [Int.ofNat_eq_natCast, (elementAt_eq slot d).mpr hd] at he
      cases he
  have each := collect_eq_ok.mp collected
  refine ⟨captured, collected, ?_, ?_, ?_⟩
  · have hl := congrArg List.length each
    rw [List.length_map, List.length_map, List.length_map, Scope.length_resolveAll] at hl
    exact hl.symm
  · intro t ht
    obtain ⟨i, hi⟩ := List.getElem?_of_mem ht
    obtain ⟨slot, -, hn⟩ := s.exists_slot_resolveAll hi
    obtain ⟨d, m, -, hm, -⟩ := h slot t.text hn
    rw [hm]
    rfl
  · intro i name d m hn hd hm
    obtain ⟨t, hi, rfl⟩ := Option.map_eq_some_iff.mp hn
    obtain ⟨slot, hs, hn⟩ := s.exists_slot_resolveAll hi
    obtain ⟨d', m', hd', hm', hc⟩ := h slot t.text hn
    have he := congrArg (·[i]?) each
    simp only [List.getElem?_map, hs, hd, Option.map_some, Option.some.injEq] at he
    rw [Int.ofNat_eq_natCast, elementAt_eq, hd'] at he
    cases he
    cases hm.symm.trans hm'
    exact hc

/-- The node of a tree goes the way of the tree, in environments that match the scope which interning
left, at every depth. -/
theorem sameWay_eval (hA : A.Built (0 ≤ ·)) (n : Nat) {a a' : Arena} {scope scope' : Scope}
    {tree : Tree} {e : Expr} {names : Names} {data : List Datum} (s : Streams)
    (ha : a.Built (0 ≤ ·)) (hi : a.internIn scope tree = (e, scope', a')) (keeps : a'.Extends A)
    (hm : scope'.Matches A names data) :
    SameWay A (Plain.eval n e data s) (Meaning.eval n tree names s) := by
  induction n generalizing a a' scope scope' tree e names data s with
  | zero => exact .outOfDepth s
  | succ n ih =>
    cases tree with
    | name token =>
      rw [Arena.internIn_name] at hi
      obtain ⟨rfl, rfl, rfl⟩ := by simpa only [Prod.mk.injEq] using hi
      obtain ⟨d, m, hd, hl, h⟩ := hm _ _ (Scope.nameAt?_resolve scope token)
      obtain ⟨id, hn⟩ := Arena.slot_content ha.wellFormed ((scope.resolve token).1 : Int)
      have he : elementAt data ((scope.resolve token).1 : Int) = .ok d := by
        rw [elementAt, if_pos (Int.natCast_nonneg _), Int.toNat_natCast, hd]
      rw [hn, Plain.eval, he, Meaning.eval, hl]
      exact .value s h
    | lambda start parameter body =>
      rcases hb : a.internIn [parameter] body with ⟨bodyNode, inner, a₁⟩
      rw [Arena.internIn_lambda a scope start parameter body hb] at hi
      obtain ⟨rfl, rfl, rfl⟩ := by simpa only [Prod.mk.injEq] using hi
      have done := Arena.interned_of_internIn ha hb
      have hc := Arena.captured_nonneg (scope.resolveAll inner.tail).1
      have made := (Arena.made_lambda done.built.wellFormed done.mem hc).1
      obtain ⟨id, reads, size, hn⟩ := Arena.lambda_content done.built.wellFormed done.mem hc
      obtain ⟨captured, collected, length, bound, values⟩ := captured_matches hm
      have again := Arena.internIn_again ha hb (made.keeps.trans keeps)
      rw [(Arena.scope_body ha hb).1] at again
      rw [hn, Plain.eval, collected, Meaning.eval]
      exact .value s (.closure again length bound values)
    | apply function argument =>
      rcases hf : a.internIn scope function with ⟨f, s₁, a₁⟩
      rcases hx : a₁.internIn s₁ argument with ⟨x, s₂, a₂⟩
      rw [Arena.internIn_apply a scope function argument hf hx] at hi
      obtain ⟨rfl, rfl, rfl⟩ := by simpa only [Prod.mk.injEq] using hi
      have doneF := Arena.interned_of_internIn ha hf
      have doneX := Arena.interned_of_internIn doneF.built hx
      have mem := doneX.keeps.nodes f doneF.mem
      have made := (Arena.made_apply doneX.built.wellFormed mem doneX.mem).1
      obtain ⟨id, reads, size, hn⟩ := Arena.apply_content doneX.built.wellFormed mem doneX.mem
      have keepsX := made.keeps.trans keeps
      rw [hn, Plain.eval, Meaning.eval]
      refine (ih s ha hf (doneX.keeps.trans keepsX) (hm.shrink doneX.grows)).andThen ?_
      intro d m s hd
      refine (ih s doneF.built hx keepsX hm).andThen fun d' m' s hd' ↦ ?_
      exact sameWay_apply hA (fun s node ↦ ih s hA node (.refl A)) hd hd' s

end Correspondence

/-! ### Programs -/

theorem lookup_builtinNames (name : Bytes) :
    builtinNames.lookup name = (Builtin.find? name).map Builtin.meaning := by
  unfold builtinNames Builtin.find?
  induction Builtin.all with
  | nil => rfl
  | cons b bs ih =>
    rw [List.map_cons, List.lookup_cons, List.find?_cons, Bool.beq_comm, ih]
    cases b.name == name <;> rfl

/-- A built-in function means its datum. -/
theorem corresponds_builtin (A : Arena) (b : Builtin) : Corresponds A b.datum b.meaning := by
  cases b with
  | writeZero => exact .writer false
  | writeOne => exact .writer true
  | read => exact .reader rfl (by simp)
  | debug => exact .probe

/-- The outermost environment matches the free names of a program. -/
theorem matches_builtins (A : Arena) {free : Scope} (hb : AllBuiltin free) :
    free.Matches A builtinNames (builtinData free) := by
  induction free with
  | nil =>
    intro i name hn
    cases hn
  | cons t free ih =>
    obtain ⟨b, hf⟩ := Option.isSome_iff_exists.mp (hb t List.mem_cons_self)
    intro i name hn
    rw [builtinData_cons hf]
    cases i with
    | zero =>
      cases hn
      refine ⟨b.datum, b.meaning, rfl, ?_, corresponds_builtin A b⟩
      rw [lookup_builtinNames, hf]
      rfl
    | succ i => exact ih (fun t ht ↦ hb t (List.mem_cons_of_mem _ ht)) i name hn

/-- For every tree whose free names are built in, interned in any arena with natural captures, on all
streams and under every plan: the run of its node, with the free names bound that interning returned,
comes to an end exactly if evaluation of the tree does; both then leave the same streams after the
same stream calls, and the run comes to a datum that corresponds to the meaning of the tree. -/
theorem interning_keeps_meaning {a a' : Arena} (built : a.Built (0 ≤ ·)) {tree : Tree}
    (builtins : ∀ name ∈ tree.freeNames, (Builtin.find? name).isSome) {root : Expr} {free : Scope}
    (interned : a.intern tree = (root, free, a')) (source : Bytes) (s : Session) :
    ((∃ n, (s.atDepth n).Terminates ⟨source, a'.graph, some root, free⟩) ↔
        ∃ n, Meaning.Terminates n tree s.streams) ∧
      ∀ n m, (s.atDepth n).Terminates ⟨source, a'.graph, some root, free⟩ →
        Meaning.Terminates m tree s.streams →
        ∃ d v t, (s.atDepth n).ComesTo ⟨source, a'.graph, some root, free⟩ d t ∧
          Meaning.run m tree s.streams = (.value v, t) ∧ Corresponds a' d v := by
  have allBuiltin : AllBuiltin free := by
    intro t ht
    rcases Arena.free_of_mem_internIn built interned ht with hn | hf
    · cases hn
    · exact builtins t.text hf
  obtain ⟨F, safe, closed⟩ := Program.closedIn_of_intern built interned allBuiltin source
  have sameWay (n : Nat) : SameWay a'
      (Plain.run n ⟨source, a'.graph, some root, free⟩ s.streams) (Meaning.run n tree s.streams) :=
    sameWay_eval (Arena.interned_of_internIn built interned).built n s.streams built interned
      (.refl a') (matches_builtins a' allBuiltin)
  have terminates (n : Nat) : Plain.Terminates n ⟨source, a'.graph, some root, free⟩ s.streams ↔
      Meaning.Terminates n tree s.streams := not_congr (sameWay n).outOfDepth_iff
  refine ⟨(closed.terminates_iff safe s).trans (exists_congr terminates), ?_⟩
  intro n m hn hm
  obtain ⟨d, t, plain, comes⟩ := closed.comesTo_plain safe hn ((terminates m).mpr hm)
  have same := sameWay m
  rw [show s.streams = (s.atDepth n).streams from rfl, plain] at same
  obtain ⟨v, meaning, corresponds⟩ := same.exists_value
  exact ⟨d, v, t, comes, meaning, corresponds⟩

/-- A parameter is named like a built-in function, and another one hides a parameter of the same name:
the identity is applied to the reader before the one built-in writer writes its bit. -/
theorem interning_keeps_meaning_hiding :
    ∃ tree root free a', parseText (lit "t")
        (lit "(\\__builtin_p0 (\\x (\\x __builtin_p1 x) (__builtin_p0 x)) __builtin_g) (\\y y)") =
          .ok tree ∧ Arena.intern {} tree = (root, free, a') ∧
      ∃ n d v t, (({} : Session).atDepth n).ComesTo ⟨lit "t", a'.graph, some root, free⟩ d t ∧
        Meaning.run 5 tree ({} : Session).streams = (.value v, t) ∧ t.calls = [.write true] ∧
        Corresponds a' d v := by
  obtain ⟨tree, root, free, a', v, t, parsed, builtins, interned, means, calls⟩ :
      ∃ tree root free a' v t, parseText (lit "t")
        (lit "(\\__builtin_p0 (\\x (\\x __builtin_p1 x) (__builtin_p0 x)) __builtin_g) (\\y y)") =
          .ok tree ∧ (∀ name ∈ tree.freeNames, (Builtin.find? name).isSome) ∧
      Arena.intern {} tree = (root, free, a') ∧
      Meaning.run 5 tree ({} : Session).streams = (.value v, t) ∧ t.calls = [.write true] :=
    ⟨_, _, _, _, _, _, by cbv, by decide +kernel, by cbv, by cbv, by cbv⟩
  have terminates : Meaning.Terminates 5 tree ({} : Session).streams := by
    rw [Meaning.Terminates, means]
    simp
  obtain ⟨ends, agree⟩ := interning_keeps_meaning (.empty 0) builtins interned (lit "t") {}
  obtain ⟨n, hn⟩ := ends.mpr ⟨5, terminates⟩
  obtain ⟨d, v', t', comes, means', corresponds⟩ := agree n 5 hn terminates
  cases means.symm.trans means'
  exact ⟨tree, root, free, a', parsed, interned, n, d, v, t, comes, means, calls, corresponds⟩

end BitCalculus
