import BitCalculus.Run.Strategy
import BitCalculus.Run.World

/-!
# Evaluation

An expression is evaluated in an environment to a value and a flag that tells whether the streams
were left alone. Applications that left them alone all the way down are remembered in the cache;
the others run again whenever they are met. Evaluation may go on for ever, so it is given a depth:
running out of depth is an outcome of its own, apart from values and faults.
-/

namespace BitCalculus

/-- How an evaluation ends: with a result, with a fault, or by running out of depth. -/
inductive Outcome (α : Type) where
  | value (result : α)
  | fault (reason : Fault)
  | outOfDepth

/-- A value and whether the streams were left alone while it was computed. -/
structure Answer where
  value : Value
  isPure : Bool

/-- The outcome of an evaluation and the state it leaves behind. -/
abbrev Evaluated := Outcome Answer × World

/-- How evaluation proceeds: the strategy, and the order of evaluation where it forks. -/
structure Plan where
  strategy : Strategy := .sequential
  schedule : Schedule := fun _ => .functionFirst

namespace Eval

/-- A way to evaluate an expression in an environment while `busy` workers are at work. -/
abbrev Evaluator := (busy : Nat) → Expr → Env → World → Evaluated

/-- The outcome of evaluating both parts of an application. -/
abbrev Operands := Outcome (Answer × Answer) × World

/-- Applies a value to an argument. A closure evaluates its body; a reader that holds all three
continuations reads a bit, and one that does not takes its argument as the next one. -/
@[inline] def applyValue (eval : Evaluator) (busy : Nat) (function argument : Value)
    (w : World) : Evaluated :=
  match function with
  | .closure _ env body => eval busy body (.overlay env argument) (w.countBody body.id)
  | .writer _ bit => (.value ⟨argument, false⟩, w.write bit)
  | .reader _ [zero, one, atEnd] =>
    match w.read with
    | (some false, w) => (.value ⟨zero, false⟩, w)
    | (some true, w) => (.value ⟨one, false⟩, w)
    | (none, w) => (.value ⟨atEnd, false⟩, w)
  | .reader _ held =>
    let (id, w) := w.nextId
    (.value ⟨.reader id (held ++ [argument]), true⟩, w)
  | .probe _ => (.value ⟨argument, true⟩, w.note (.probed argument))

/-- Evaluates the function, then the argument. -/
@[inline] def inTurn (eval : Evaluator) (busy : Nat) (function argument : Expr) (env : Env)
    (w : World) : Operands :=
  match eval busy function env w with
  | (.value f, w) =>
    match eval busy argument env w with
    | (.value a, w) => (.value (f, a), w)
    | (.fault reason, w) => (.fault reason, w)
    | (.outOfDepth, w) => (.outOfDepth, w)
  | (.fault reason, w) => (.fault reason, w)
  | (.outOfDepth, w) => (.outOfDepth, w)

/-- Evaluates the forked argument; the journal shows when the fork began and ended. -/
@[inline] def forked (eval : Evaluator) (busy number : Nat) (argument : Expr) (env : Env)
    (w : World) : Evaluated :=
  match eval busy argument env (w.note (.forkBegan number)) with
  | (.value a, w) => (.value a, w.note (.forkEnded number))
  | other => other

/-- Evaluates both parts of an application side by side, in the order that the schedule chooses. A
fault of the function is reported in preference to one of the argument. -/
def sideBySide (eval : Evaluator) (order : Order) (busy number : Nat) (function argument : Expr)
    (env : Env) (w : World) : Operands :=
  match order with
  | .functionFirst =>
    match eval busy function env w with
    | (.value f, w) =>
      match forked eval busy number argument env w with
      | (.value a, w) => (.value (f, a), w)
      | (.fault reason, w) => (.fault reason, w)
      | (.outOfDepth, w) => (.outOfDepth, w)
    | (.fault reason, w) => (.fault reason, w)
    | (.outOfDepth, w) => (.outOfDepth, w)
  | .argumentFirst =>
    match forked eval busy number argument env w with
    | (.value a, w) =>
      match eval busy function env w with
      | (.value f, w) => (.value (f, a), w)
      | (.fault reason, w) => (.fault reason, w)
      | (.outOfDepth, w) => (.outOfDepth, w)
    | (.fault reason, w) =>
      match eval busy function env w with
      | (.value _, w) => (.fault reason, w)
      | (.fault reason, w) => (.fault reason, w)
      | (.outOfDepth, w) => (.outOfDepth, w)
    | (.outOfDepth, w) => (.outOfDepth, w)

/-- Evaluates the two parts of the application `e` as the plan says. -/
@[inline] def operands (plan : Plan) (eval : Evaluator) (busy : Nat) (e function argument : Expr)
    (env : Env) (w : World) : Operands :=
  match plan.strategy with
  | .sequential => inTurn eval busy function argument env w
  | .parallel workers minForkSize =>
    match Strategy.forkable minForkSize env e with
    | .error reason => (.fault reason, w)
    | .ok false => inTurn eval busy function argument env w
    | .ok true =>
      if Strategy.hasWorker workers busy then
        let (number, w) := (w.bump .forks).nextFork
        sideBySide eval (plan.schedule number) (busy + 1) number function argument env w
      else inTurn eval busy function argument env (w.bump .forksDeclined)

/-- Applies an evaluated function to an evaluated argument: a remembered result is used, a pure
application is remembered, any other one is not. -/
@[inline] def applyAnswers (eval : Evaluator) (busy : Nat) (f a : Answer) (w : World) :
    Evaluated :=
  match w.cache.lookup f.value a.value with
  | some result => (.value ⟨result, f.isPure && a.isPure⟩, w.bump .applyHits)
  | none =>
    match applyValue eval busy f.value a.value w with
    | (.value r, w) =>
      if f.isPure && a.isPure && r.isPure then
        let (result, w) := (w.bump .applyMisses).store f.value a.value r.value
        (.value ⟨result, true⟩, w)
      else (.value ⟨r.value, false⟩, w.bump .applyUncached)
    | other => other

/-- One step of evaluation: `eval` evaluates the parts of the expression and closure bodies. -/
@[inline] def step (plan : Plan) (eval : Evaluator) : Evaluator := fun busy e env w =>
  match e with
  | .slot _ index =>
    match env.get index with
    | .ok value => (.value ⟨value, true⟩, w)
    | .error reason => (.fault reason, w)
  | .lambda _ captured body _ _ =>
    match env.getAll captured with
    | .ok values =>
      let (value, w) := w.close values body
      (.value ⟨value, true⟩, w)
    | .error reason => (.fault reason, w)
  | .apply _ function argument _ _ =>
    match operands plan eval busy e function argument env w with
    | (.value (f, a), w) => applyAnswers eval busy f a w
    | (.fault reason, w) => (.fault reason, w)
    | (.outOfDepth, w) => (.outOfDepth, w)

end Eval

/-- Evaluates an expression to the given depth. -/
def eval (plan : Plan) : (depth : Nat) → Eval.Evaluator
  | 0, _, _, _, w => (.outOfDepth, w)
  | depth + 1, busy, e, env, w => Eval.step plan (eval plan depth) busy e env w

end BitCalculus
