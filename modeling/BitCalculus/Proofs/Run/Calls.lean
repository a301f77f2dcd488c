import BitCalculus.Proofs.Run.Registry

/-!
# The calls of a run

To evaluate an application is to evaluate its parts and then, unless the result is remembered, the
body of a closure. Each of these evaluations is a call: an expression, an environment and the state
of the run when its evaluation begins. The calls that one call leads to are all evaluations that
take place during it, whether or not they come to an end.
-/

namespace BitCalculus

open Outcome (andThen)

/-! ### The streams of a run -/

/-- The stream call that an event shows; probes and forks are none. -/
def Event.streamCall? : Event → Option StreamCall
  | .wrote bit => some (.write bit)
  | .read bit => some (.read bit)
  | _ => none

namespace World

/-- The streams of a run and the calls that its journal shows. -/
def streams (w : World) : Streams :=
  ⟨w.output, w.input, w.journal.toList.filterMap Event.streamCall?⟩

section Laws

variable (w : World)

theorem streams_nextId : w.nextId.2.streams = w.streams := rfl

@[simp] theorem streams_close (values : List Value) (body : Expr) :
    (w.close values body).2.streams = w.streams := rfl

/-- An event that is no stream call leaves the streams as they are. -/
theorem streams_note {event : Event} (h : event.streamCall? = none) :
    (w.note event).streams = w.streams := by
  simp [streams, note, h]

theorem streams_write (bit : Bool) : (w.write bit).streams = w.streams.write bit := by
  simp [streams, write, Streams.write, Event.streamCall?]

theorem streams_read : w.read.2.streams = w.streams.read.2 := by
  simp [streams, read, Streams.read, Event.streamCall?]

theorem read_eq : w.read.1 = w.streams.read.1 := rfl

/-- The closure of a body of the family over registered values is registered and captures just these
values. -/
theorem sound_close {F : NodeFamily} {R : Registry F} {values : List Value} {body : Expr}
    (sound : w.cache.Sound R) (held : ∀ v ∈ values, R.Holds v)
    (hbody : F.admits (values.length + 1) body) :
    ∃ R', R ≤ R' ∧ (w.close values body).2.cache.Sound R' ∧ R'.Holds (w.close values body).1 ∧
      (w.close values body).1.erase = .closure (values.map Value.erase) body := by
  obtain ⟨R₁, le₁, sound₁, heldE, hv⟩ := Cache.sound_environment sound held
  rw [← hv] at hbody
  obtain ⟨R₂, le₂, sound₂, heldC, id, hc⟩ := Cache.sound_closure sound₁ heldE hbody
  refine ⟨R₂, Registry.le_trans le₁ le₂, sound₂, heldC, ?_⟩
  have he := congrArg Value.erase hc
  rwa [Value.erase_closure, hv] at he

end Laws

end World

namespace Eval

/-! ### Evaluation in sequence -/

section Equations

variable (ev : Evaluator) (busy : Nat)

theorem inTurn_eq (function argument : Expr) (env : Env) (w : World) :
    inTurn ev busy function argument env w =
      andThen (ev busy function env w) fun f w ↦
        andThen (ev busy argument env w) fun a w ↦ (.value (f, a), w) := by
  unfold inTurn andThen
  rcases ev busy function env w with ⟨f | reason | _, w₁⟩
  · dsimp only
    rcases ev busy argument env w₁ with ⟨a | reason | _, w₂⟩ <;> rfl
  · rfl
  · rfl

theorem forked_eq (number : Nat) (argument : Expr) (env : Env) (w : World) :
    forked ev busy number argument env w =
      andThen (ev busy argument env (w.note (.forkBegan number))) fun a w ↦
        (.value a, w.note (.forkEnded number)) := by
  unfold forked andThen
  rcases ev busy argument env (w.note (.forkBegan number)) with ⟨a | reason | _, w₁⟩ <;> rfl

theorem sideBySide_functionFirst (number : Nat) (function argument : Expr) (env : Env)
    (w : World) :
    sideBySide ev .functionFirst busy number function argument env w =
      andThen (ev busy function env w) fun f w ↦
        andThen (forked ev busy number argument env w) fun a w ↦ (.value (f, a), w) := by
  unfold sideBySide andThen
  rcases ev busy function env w with ⟨f | reason | _, w₁⟩
  · dsimp only
    rcases forked ev busy number argument env w₁ with ⟨a | reason | _, w₂⟩ <;> rfl
  · rfl
  · rfl

/-- When the argument comes first, its fault is final only once the function came to a value. -/
theorem sideBySide_argumentFirst (number : Nat) (function argument : Expr) (env : Env)
    (w : World) :
    sideBySide ev .argumentFirst busy number function argument env w =
      match forked ev busy number argument env w with
      | (.value a, w) => andThen (ev busy function env w) fun f w ↦ (.value (f, a), w)
      | (.fault reason, w) => andThen (ev busy function env w) fun _ w ↦ (.fault reason, w)
      | (.outOfDepth, w) => (.outOfDepth, w) := by
  unfold sideBySide andThen
  rcases forked ev busy number argument env w with ⟨a | reason | _, w₁⟩
  · dsimp only
    rcases ev busy function env w₁ with ⟨f | reason | _, w₂⟩ <;> rfl
  · dsimp only
    rcases ev busy function env w₁ with ⟨f | reason | _, w₂⟩ <;> rfl
  · rfl

/-- An application whose result is not remembered is executed, and its result remembered if all of
it was pure. -/
theorem applyAnswers_of_none {f a : Answer} {w : World}
    (h : w.cache.lookup f.value a.value = none) :
    applyAnswers ev busy f a w =
      andThen (applyValue ev busy f.value a.value w) fun r w ↦
        if f.isPure && a.isPure && r.isPure then
          (.value ⟨((w.bump .applyMisses).store f.value a.value r.value).1, true⟩,
            ((w.bump .applyMisses).store f.value a.value r.value).2)
        else (.value ⟨r.value, false⟩, w.bump .applyUncached) := by
  unfold applyAnswers andThen
  rw [h]
  dsimp only
  rcases applyValue ev busy f.value a.value w with ⟨r | reason | _, w₁⟩ <;> rfl

/-- An abstraction whose captured slots hold values closes its body over them. -/
theorem eval_lambda (plan : Plan) (depth id : Nat) {captured : List Int} (body : Expr)
    (reads : List Int) (size : Nat) {env : Env} {values : List Value}
    (h : env.getAll captured = .ok values) (w : World) :
    eval plan (depth + 1) busy (.lambda id captured body reads size) env w =
      (.value ⟨(w.close values body).1, true⟩, (w.close values body).2) := by
  rw [eval, step, h]

/-- An application evaluates its parts as the plan says and applies the answers. -/
theorem eval_apply (plan : Plan) (depth id : Nat) (function argument : Expr) (reads : List Int)
    (size : Nat) (env : Env) (w : World) :
    eval plan (depth + 1) busy (.apply id function argument reads size) env w =
      andThen
        (operands plan (eval plan depth) busy (.apply id function argument reads size) function
          argument env w)
        fun parts w ↦ applyAnswers (eval plan depth) busy parts.1 parts.2 w := by
  rw [eval, step]
  rcases operands plan (eval plan depth) busy (.apply id function argument reads size) function
    argument env w with ⟨⟨f, a⟩ | reason | _, w₁⟩ <;> rfl

end Equations

/-! ### Calls -/

/-- A call of the evaluator. -/
structure Call where
  depth : Nat
  busy : Nat
  e : Expr
  env : Env
  w : World

/-- What a call comes to. -/
def Call.result (plan : Plan) (c : Call) : Evaluated :=
  eval plan c.depth c.busy c.e c.env c.w

/-- The calls that follow a first part: none unless it came to a value. -/
def followUps {α : Type} (first : Outcome α × World) (next : α → World → List Call) : List Call :=
  match first with
  | (.value a, w) => next a w
  | (.fault _, _) => []
  | (.outOfDepth, _) => []

@[simp] theorem followUps_nil {α : Type} (first : Outcome α × World) :
    (followUps first fun _ _ ↦ []) = [] := by
  rcases first with ⟨a | reason | _, w⟩ <;> rfl

section Calls

variable (plan : Plan) (depth : Nat)

/-- The calls of evaluating the parts of an application in turn. -/
def inTurnCalls (busy : Nat) (function argument : Expr) (env : Env) (w : World) : List Call :=
  ⟨depth, busy, function, env, w⟩ ::
    followUps (eval plan depth busy function env w) fun _ w ↦ [⟨depth, busy, argument, env, w⟩]

/-- The calls of evaluating the parts of an application side by side. The function is evaluated even
after a fault of the argument. -/
def sideBySideCalls (order : Order) (busy number : Nat) (function argument : Expr) (env : Env)
    (w : World) : List Call :=
  match order with
  | .functionFirst =>
    ⟨depth, busy, function, env, w⟩ ::
      followUps (eval plan depth busy function env w) fun _ w ↦
        [⟨depth, busy, argument, env, w.note (.forkBegan number)⟩]
  | .argumentFirst =>
    ⟨depth, busy, argument, env, w.note (.forkBegan number)⟩ ::
      match forked (eval plan depth) busy number argument env w with
      | (.value _, w) => [⟨depth, busy, function, env, w⟩]
      | (.fault _, w) => [⟨depth, busy, function, env, w⟩]
      | (.outOfDepth, _) => []

/-- The calls of evaluating the parts of the application `e` as the plan says. -/
def operandCalls (busy : Nat) (e function argument : Expr) (env : Env) (w : World) : List Call :=
  match plan.strategy with
  | .sequential => inTurnCalls plan depth busy function argument env w
  | .parallel workers minForkSize =>
    match Strategy.forkable minForkSize env e with
    | .error _ => []
    | .ok false => inTurnCalls plan depth busy function argument env w
    | .ok true =>
      if Strategy.hasWorker workers busy then
        sideBySideCalls plan depth (plan.schedule (w.bump .forks).nextFork.1) (busy + 1)
          (w.bump .forks).nextFork.1 function argument env (w.bump .forks).nextFork.2
      else inTurnCalls plan depth busy function argument env (w.bump .forksDeclined)

/-- The call of executing a value: the body of a closure. -/
def bodyCalls (busy : Nat) (function argument : Value) (w : World) : List Call :=
  match function with
  | .closure _ env body => [⟨depth, busy, body, .overlay env argument, w.countBody body.id⟩]
  | _ => []

/-- The call of an application of evaluated parts, unless its result is remembered. -/
def applyCalls (busy : Nat) (f a : Answer) (w : World) : List Call :=
  match w.cache.lookup f.value a.value with
  | some _ => []
  | none => bodyCalls depth busy f.value a.value w

end Calls

/-- The calls that a call makes itself. -/
def Call.asks (plan : Plan) : Call → List Call
  | ⟨depth + 1, busy, .apply id function argument reads size, env, w⟩ =>
    operandCalls plan depth busy (.apply id function argument reads size) function argument env w ++
      followUps
        (operands plan (eval plan depth) busy (.apply id function argument reads size) function
          argument env w)
        fun parts w ↦ applyCalls depth busy parts.1 parts.2 w
  | _ => []

/-- A call leads to another one through the calls that it makes itself. -/
inductive Reaches (plan : Plan) : Call → Call → Prop
  | refl (c : Call) : Reaches plan c c
  | step {c c' c'' : Call} (h : c' ∈ c.asks plan) (h' : Reaches plan c' c'') : Reaches plan c c''

theorem Reaches.trans {plan : Plan} {c c' c'' : Call} (h : Reaches plan c c')
    (h' : Reaches plan c' c'') : Reaches plan c c'' := by
  induction h with
  | refl c => exact h'
  | step hm _ ih => exact .step hm (ih h')

end Eval

end BitCalculus
