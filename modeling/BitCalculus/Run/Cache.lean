import BitCalculus.Graph.Key
import BitCalculus.Run.Value
import Std.Data.HashMap

/-!
# The cache of a run

A cache lives for one run. It gives out the numbers of values and environments, keeps one
environment for each list of values and one closure for each environment and body, and remembers
the results of pure applications. Its tables only grow and no entry is ever replaced.
-/

namespace BitCalculus

/-- The last number given out and the three tables: environments by the packed numbers of their
values, closures by the numbers of environment and body, results by the numbers of function and
argument. -/
structure Cache where
  lastId : Nat := 0
  environments : Std.HashMap Bytes Base := {}
  closures : Std.HashMap (Nat × Nat) Value := {}
  applications : Std.HashMap (Nat × Nat) Value := {}

namespace Cache

/-- A number that was not given out before. -/
def next : Cache → Nat × Cache
  | ⟨lastId, environments, closures, applications⟩ =>
    (lastId + 1, ⟨lastId + 1, environments, closures, applications⟩)

/-- The key of a list of values. -/
def environmentKey (values : List Value) : Bytes :=
  Key.pack (values.map Value.id)

/-- The environment of the given values. -/
def environment (c : Cache) (values : List Value) : Base × Cache :=
  let key := environmentKey values
  match c.environments[key]? with
  | some env => (env, c)
  | none =>
    match c with
    | ⟨lastId, environments, closures, applications⟩ =>
      let env := .mk (lastId + 1) values (values.any Value.effectful)
      (env, ⟨lastId + 1, environments.insert key env, closures, applications⟩)

/-- The closure of a body over an environment, and whether it was there before. -/
def closure (c : Cache) (env : Base) (body : Expr) : Value × Bool × Cache :=
  let key := (env.id, body.id)
  match c.closures[key]? with
  | some value => (value, true, c)
  | none =>
    match c with
    | ⟨lastId, environments, closures, applications⟩ =>
      let value := .closure (lastId + 1) env body
      (value, false, ⟨lastId + 1, environments, closures.insert key value, applications⟩)

/-- The remembered result of an application. -/
def lookup (c : Cache) (function argument : Value) : Option Value :=
  c.applications[(function.id, argument.id)]?

/-- Remembers the result of an application and returns the result that is remembered from now on,
which is the first one ever stored. -/
def store (c : Cache) (function argument result : Value) : Value × Cache :=
  let key := (function.id, argument.id)
  match c.applications[key]? with
  | some value => (value, c)
  | none =>
    match c with
    | ⟨lastId, environments, closures, applications⟩ =>
      (result, ⟨lastId, environments, closures, applications.insert key result⟩)

end Cache

end BitCalculus
