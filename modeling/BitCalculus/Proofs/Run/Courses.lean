import Mathlib
import BitCalculus.Proofs.Run.Safety

/-!
# The course of a call

There are few ways in which a call of a sequential run comes to an answer: it finds a value in a
slot, closes a body, or applies the answers to two parts. What it applies is found among the
remembered results or else executed, and what was executed may be remembered. A course says which
way was taken, which calls were made, and in which state the call ends.
-/

namespace BitCalculus

open Outcome (andThen andThen_eq_value)

namespace Eval

/-- A value is executed on an argument: a closure evaluates its body, a writer writes, a reader that
holds all three continuations picks one of them, one that does not takes the argument as the next
one, and a probe reports the argument. -/
inductive Execution (plan : Plan) (n busy : Nat) :
    Value → Value → World → List Call → Answer → World → Prop
  | closure {i : Nat} {captured : Base} {body : Expr} {a : Value} {w w' : World} {r : Answer}
    (h : Call.result plan ⟨n, busy, body, .overlay captured a, w.countBody body.id⟩ =
      (.value r, w')) :
    Execution plan n busy (.closure i captured body) a w
      [⟨n, busy, body, .overlay captured a, w.countBody body.id⟩] r w'
  | writer (i : Nat) (bit : Bool) (a : Value) (w : World) :
    Execution plan n busy (.writer i bit) a w [] ⟨a, false⟩ (w.write bit)
  | pick (i : Nat) (zero one atEnd a : Value) (w : World) :
    Execution plan n busy (.reader i [zero, one, atEnd]) a w []
      ⟨(w.streams.pick zero one atEnd).1, false⟩ w.read.2
  | hold (i : Nat) {held : List Value} (h : held.length ≠ 3) (a : Value) (w : World) :
    Execution plan n busy (.reader i held) a w []
      ⟨.reader w.nextId.1 (held ++ [a]), true⟩ w.nextId.2
  | probe (i : Nat) (a : Value) (w : World) :
    Execution plan n busy (.probe i) a w [] ⟨a, true⟩ (w.note (.probed a))

/-- The end of an application that was executed: the result is remembered if all of it was pure. -/
def settle (f a r : Answer) (w : World) : Answer × World :=
  if f.isPure && a.isPure && r.isPure then
    (⟨((w.bump .applyMisses).store f.value a.value r.value).1, true⟩,
      ((w.bump .applyMisses).store f.value a.value r.value).2)
  else (⟨r.value, false⟩, w.bump .applyUncached)

/-- A call makes the given calls and comes to an answer. -/
inductive Course (plan : Plan) : Call → List Call → Answer → World → Prop
  | slot {n busy id : Nat} {index : Int} {env : Env} {w : World} {v : Value}
    (hv : env.get index = .ok v) :
    Course plan ⟨n + 1, busy, .slot id index, env, w⟩ [] ⟨v, true⟩ w
  | lambda {n busy id size : Nat} {captured reads : List Int} {body : Expr} {env : Env} {w : World}
    {values : List Value} (hv : env.getAll captured = .ok values) :
    Course plan ⟨n + 1, busy, .lambda id captured body reads size, env, w⟩ []
      ⟨(w.close values body).1, true⟩ (w.close values body).2
  | found {n busy id size : Nat} {function argument : Expr} {reads : List Int} {env : Env}
    {w w₁ w₂ : World} {f a : Answer} {r : Value}
    (hf : Call.result plan ⟨n, busy, function, env, w⟩ = (.value f, w₁))
    (ha : Call.result plan ⟨n, busy, argument, env, w₁⟩ = (.value a, w₂))
    (hl : w₂.cache.lookup f.value a.value = some r) :
    Course plan ⟨n + 1, busy, .apply id function argument reads size, env, w⟩
      [⟨n, busy, function, env, w⟩, ⟨n, busy, argument, env, w₁⟩]
      ⟨r, f.isPure && a.isPure⟩ (w₂.bump .applyHits)
  | executed {n busy id size : Nat} {function argument : Expr} {reads : List Int} {env : Env}
    {w w₁ w₂ w₃ : World} {f a r : Answer} {calls : List Call}
    (hf : Call.result plan ⟨n, busy, function, env, w⟩ = (.value f, w₁))
    (ha : Call.result plan ⟨n, busy, argument, env, w₁⟩ = (.value a, w₂))
    (hl : w₂.cache.lookup f.value a.value = none)
    (hx : Execution plan n busy f.value a.value w₂ calls r w₃) :
    Course plan ⟨n + 1, busy, .apply id function argument reads size, env, w⟩
      (⟨n, busy, function, env, w⟩ :: ⟨n, busy, argument, env, w₁⟩ :: calls)
      (settle f a r w₃).1 (settle f a r w₃).2

section Courses

variable {plan : Plan} {n busy : Nat} {w w' : World} {r : Answer}

/-- What applying a value comes to, it comes to by executing the value. -/
theorem execution_of_applyValue {f a : Value}
    (h : applyValue (eval plan n) busy f a w = (.value r, w')) :
    Execution plan n busy f a w (bodyCalls n busy f a w) r w' := by
  cases f with
  | closure i captured body => exact .closure h
  | writer i bit =>
    cases h
    exact .writer i bit a w
  | reader i held =>
    rcases Plain.three_or_not held with ⟨zero, one, atEnd, rfl⟩ | hl
    · rw [applyValue_reader] at h
      cases h
      exact .pick i zero one atEnd a w
    · rw [applyValue_reader_of_ne _ _ _ hl] at h
      cases h
      exact .hold i hl a w
  | probe i =>
    cases h
    exact .probe i a w

theorem Execution.applyValue_eq {f a : Value} {calls : List Call}
    (h : Execution plan n busy f a w calls r w') :
    applyValue (eval plan n) busy f a w = (.value r, w') := by
  cases h with
  | closure h => exact h
  | writer i bit a w => rfl
  | pick i zero one atEnd a w => exact applyValue_reader _ _ _ _ _ _ _
  | hold i h a w => exact applyValue_reader_of_ne _ _ _ h _
  | probe i a w => rfl

/-- In a sequential run the parts of an application are evaluated one after the other. -/
theorem operands_of_sequential (sequential : plan.strategy = .sequential) {f a : Answer}
    {e function argument : Expr} {env : Env} {w₂ : World} :
    operands plan (eval plan n) busy e function argument env w = (.value (f, a), w₂) ↔
      ∃ w₁, Call.result plan ⟨n, busy, function, env, w⟩ = (.value f, w₁) ∧
        Call.result plan ⟨n, busy, argument, env, w₁⟩ = (.value a, w₂) := by
  rw [operands, sequential, inTurn_eq, andThen_eq_value]
  simp only [andThen_eq_value, Prod.mk.injEq, Outcome.value.injEq]
  constructor
  · rintro ⟨f, w₁, hf, a, w₂, ha, ⟨rfl, rfl⟩, rfl⟩
    exact ⟨w₁, hf, ha⟩
  · rintro ⟨w₁, hf, ha⟩
    exact ⟨f, w₁, hf, a, w₂, ha, ⟨rfl, rfl⟩, rfl⟩

theorem parts_of_results (sequential : plan.strategy = .sequential) (id size : Nat)
    (reads : List Int) {function argument : Expr} {env : Env} {w₁ w₂ : World} {f a : Answer}
    (hf : Call.result plan ⟨n, busy, function, env, w⟩ = (.value f, w₁))
    (ha : Call.result plan ⟨n, busy, argument, env, w₁⟩ = (.value a, w₂)) :
    Call.parts plan ⟨n + 1, busy, .apply id function argument reads size, env, w⟩ =
      some (.value (f, a), w₂) :=
  congrArg some ((operands_of_sequential sequential).mpr ⟨w₁, hf, ha⟩)

/-- A call of a sequential run that comes to an answer takes one of the courses. -/
theorem course_of_result (sequential : plan.strategy = .sequential) {c : Call}
    (h : c.result plan = (.value r, w')) : Course plan c (c.asks plan) r w' := by
  obtain ⟨depth, busy, e, env, w⟩ := c
  cases depth with
  | zero => cases h
  | succ n =>
    rw [Call.result] at h
    cases e with
    | slot id index =>
      rw [eval, step] at h
      cases hv : env.get index with
      | ok v =>
        rw [hv] at h
        cases h
        exact .slot hv
      | error reason =>
        rw [hv] at h
        cases h
    | lambda id captured body reads size =>
      cases hv : env.getAll captured with
      | ok values =>
        rw [eval_lambda _ _ _ _ _ _ _ hv] at h
        cases h
        exact .lambda hv
      | error reason =>
        rw [eval, step, hv] at h
        cases h
    | apply id function argument reads size =>
      rw [eval_apply, andThen_eq_value] at h
      obtain ⟨⟨f, a⟩, w₂, parts, h⟩ := h
      obtain ⟨w₁, hf, ha⟩ := (operands_of_sequential sequential).mp parts
      have calls : Call.asks plan ⟨n + 1, busy, .apply id function argument reads size, env, w⟩ =
          ⟨n, busy, function, env, w⟩ :: ⟨n, busy, argument, env, w₁⟩ ::
            applyCalls n busy f a w₂ := by
        rw [Call.asks, parts, operandCalls, sequential]
        dsimp only
        rw [inTurnCalls, show eval plan n busy function env w = _ from hf]
        rfl
      rw [calls]
      dsimp only at h
      cases hl : w₂.cache.lookup f.value a.value with
      | some v =>
        rw [applyAnswers, hl] at h
        cases h
        rw [applyCalls, hl]
        exact .found hf ha hl
      | none =>
        rw [applyAnswers_of_none _ _ hl, andThen_eq_value] at h
        obtain ⟨x, w₃, hv, h⟩ := h
        obtain ⟨rfl, rfl⟩ : r = (settle f a x w₃).1 ∧ w' = (settle f a x w₃).2 := by
          rw [settle]
          split at h
          · next isPure =>
            cases h
            rw [if_pos isPure]
            exact ⟨rfl, rfl⟩
          · next isPure =>
            cases h
            rw [if_neg isPure]
            exact ⟨rfl, rfl⟩
        rw [applyCalls, hl]
        exact .executed hf ha hl (execution_of_applyValue hv)

/-- What holds of all calls that `c` leads to and that come to an answer, provided that it holds of
a call if it holds of those that the call makes. -/
theorem answer_induction (sequential : plan.strategy = .sequential) {c : Call}
    {P : Call → Answer → World → Prop}
    (step : ∀ c' calls r w, Reaches plan c c' → c'.asks plan = calls → Course plan c' calls r w →
      (∀ d ∈ calls, ∀ r w, d.result plan = (.value r, w) → P d r w) → P c' r w)
    {c' : Call} (hr : Reaches plan c c') (h : c'.result plan = (.value r, w)) : P c' r w := by
  induction hn : c'.depth using Nat.strongRecOn generalizing c' r w with
  | ind n ih =>
    refine step c' _ r w hr rfl (course_of_result sequential h) fun d hm r' w' h' ↦ ?_
    have depth := (asks_cases hm).1
    exact ih d.depth (by omega) (hr.trans (.step hm (.refl d))) h' rfl

end Courses

/-! ### All evaluations of a call -/

/-- The evaluations that a call leads to down to the given level, itself included, in the order in
which they begin. -/
def Call.evaluationsTo (plan : Plan) : Nat → Call → List Call
  | 0, c => [c]
  | level + 1, c => c :: (c.asks plan).flatMap (Call.evaluationsTo plan level)

/-- All evaluations that a call leads to, itself included, in the order in which they begin. -/
def Call.evaluations (plan : Plan) (c : Call) : List Call :=
  c.evaluationsTo plan c.depth

section Evaluations

variable {plan : Plan}

theorem evaluations_eq (c : Call) :
    c.evaluations plan = c :: (c.asks plan).flatMap (Call.evaluations plan) := by
  rw [Call.evaluations]
  cases hn : c.depth with
  | zero =>
    cases ha : c.asks plan with
    | nil => rfl
    | cons c' calls =>
      have := (asks_cases (ha ▸ List.mem_cons_self : c' ∈ c.asks plan)).1
      omega
  | succ n =>
    rw [Call.evaluationsTo]
    refine congrArg (c :: ·) (List.flatMap_congr fun c' hm ↦ ?_)
    have depth := (asks_cases hm).1
    rw [Call.evaluations, show c'.depth = n by omega]

end Evaluations

end Eval

/-! ### Runs -/

/-- What a run did and how many numbers it gave out is what its first call did and gave out. -/
theorem Session.journal_run {s : Session} {p : Program} {c : Eval.Call} (h : s.start p = some c) :
    (s.run p).1.journal = (c.result s.plan).2.journal ∧
      (s.run p).1.allocated = some (c.result s.plan).2.cache.lastId := by
  rw [run_eq h]
  unfold conclude
  cases (c.result s.plan).1 <;> exact ⟨rfl, rfl⟩

/-- A run that ends before it runs out of depth comes to an answer. -/
theorem Program.ClosedIn.exists_answer {F : NodeFamily} {p : Program} (h : p.ClosedIn F)
    (inRange : F.InRange) {s : Session} {c : Eval.Call} (starts : s.start p = some c)
    (terminates : s.Terminates p) : ∃ r w, c.result s.plan = (.value r, w) := by
  obtain ⟨R, R', spans⟩ := h.spans starts
  rcases (spans.safe inRange (.refl c)).outcome with hv | ⟨r, hv⟩
  · rw [Session.Terminates, Session.run_eq starts, hv] at terminates
    exact absurd rfl terminates
  · exact ⟨r, (c.result s.plan).2, Prod.ext hv rfl⟩

end BitCalculus
