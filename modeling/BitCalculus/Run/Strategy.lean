import BitCalculus.Fault
import BitCalculus.Run.Value
import BitCalculus.Text.Quoted

/-!
# Evaluation strategies

How the two parts of an application are evaluated: one after the other, or side by side where both
are large enough and provably leave the streams alone. Evaluation side by side is described by a
schedule, which decides for each fork which part is evaluated first.
-/

namespace BitCalculus

/-- How the parts of an application are evaluated. A worker count of zero or less stands for one
worker for each processor. -/
inductive Strategy where
  | sequential
  | parallel (workers minForkSize : Int)
deriving DecidableEq

namespace Strategy

/-- The name of a strategy as it is shown. -/
def name : Strategy → Bytes
  | sequential => lit "sequential"
  | parallel workers _ =>
    if workers ≤ 0 then lit "parallel(NumCPU)" else lit "parallel(" ++ .ofInt workers ++ lit ")"

/-- The report of a strategy name that is not known. -/
def unknownMessage (name : Bytes) : Bytes :=
  lit "unknown strategy " ++ name.quoted ++ lit " (expected sequential or parallel)"

/-- The strategy with the given name; no name is the sequential one. -/
def ofName (name : Bytes) (workers minForkSize : Int) : Except Bytes Strategy :=
  if name = [] ∨ name = lit "sequential" then .ok sequential
  else if name = lit "parallel" then .ok (parallel workers minForkSize)
  else .error (unknownMessage name)

/-- Whether the strategy may evaluate the parts of an application side by side: both are
applications of at least the given size and the application provably leaves the streams alone. -/
def forkable (minForkSize : Int) (env : Env) (e : Expr) : Except Fault Bool :=
  match e with
  | .apply _ function argument _ _ =>
    if function.isApply && argument.isApply && minForkSize ≤ function.size &&
        minForkSize ≤ argument.size then env.provablyPure e
    else .ok false
  | _ => .ok false

/-- Whether a worker is free while `busy` others are at work. -/
def hasWorker (workers : Int) (busy : Nat) : Bool :=
  workers ≤ 0 || busy < workers

end Strategy

/-- Which part of a forked application is evaluated first. -/
inductive Order where
  | functionFirst
  | argumentFirst
deriving DecidableEq

/-- The order of evaluation of every fork of a run, by the number of the fork. -/
abbrev Schedule := Nat → Order

end BitCalculus
