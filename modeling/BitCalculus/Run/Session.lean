import BitCalculus.Program
import BitCalculus.Report.Trace
import BitCalculus.Run.Builtin
import BitCalculus.Run.Eval

/-!
# Running programs

A session runs programs one after another on one pair of bit streams. Each run has a cache of its
own, which the session keeps until the next run; only the streams and the statistics are carried from
run to run. Free names are bound before anything else happens, so a program with an undefined name
leaves no trace.
-/

namespace BitCalculus

/-- Why a run failed. -/
inductive RunError where
  | undefined (names : List Token)
  | sink (error : Bytes)
  | fault (reason : Fault)
  | outOfDepth
deriving DecidableEq

/-- The report of a failed run. -/
def RunError.message : RunError → Bytes
  | undefined names => undefinedMessage names
  | sink error => lit "bit output: " ++ error
  | fault reason => reason.message
  | outOfDepth => lit "evaluation is nested too deeply"

/-- What a run came to: its error, if it failed; its value, if it has one; what it did to the
outside; and how many numbers its cache gave out, if its names could be bound. -/
structure RunResult where
  error : Option RunError := none
  value : Option Value := none
  journal : Array Event := #[]
  allocated : Option Nat := none

/-- What is carried from run to run: the streams, the statistics if they are kept, the plan of
evaluation, and how deep evaluation may go. The cache is that of the last run, if there was one. -/
structure Session where
  output : Bits.Writer := {}
  input : Bits.Reader := .ofBytes []
  stats : Option Stats := none
  plan : Plan := {}
  depth : Nat := 0x4000000000000000
  cache : Option Cache := none

namespace Session

/-- Evaluates the root of a program in the outermost environment. -/
def evaluate (s : Session) (root : Option Expr) (env : Base) (w : World) : Evaluated :=
  match root with
  | none => (.fault .absentExpression, w)
  | some root => eval s.plan s.depth 0 root (.base env) w

/-- What a run came to, given the outcome of the evaluation and the state it left behind. -/
def conclude (outcome : Outcome Answer) (w : World) : RunResult :=
  let result : RunResult := { journal := w.journal, allocated := some w.cache.lastId }
  match outcome with
  | .value answer =>
    { result with value := some answer.value, error := w.output.firstError.map .sink }
  | .fault reason => { result with error := some (.fault reason) }
  | .outOfDepth => { result with error := some .outOfDepth }

/-- Runs a program. -/
def run (s : Session) (p : Program) : RunResult × Session :=
  match Cache.bind {} p.free with
  | (.error names, _) => ({ error := some (.undefined names) }, s)
  | (.ok env, cache) =>
    let { output, input, stats, plan, depth, .. } := s
    let (outcome, w) := evaluate { plan, depth } p.root env { cache, output, input, stats }
    (conclude outcome w,
      { output := w.output, input := w.input, stats := w.stats, plan, depth, cache := some w.cache })

end Session

/-- The trace events of what a run did; only forks are shown. -/
def forkEvents (journal : Array Event) : List TraceEvent :=
  journal.toList.filterMap fun
    | .forkBegan number =>
      some { name := lit "fork", category := lit "parallel", phase := lit "B", thread := number }
    | .forkEnded number =>
      some { name := lit "fork", category := lit "parallel", phase := lit "E", thread := number }
    | _ => none

/-- Writes a run to a trace; a run whose names could not be bound is not shown. -/
def Trace.run (t : Trace) (source : Bytes) (result : RunResult) : Trace :=
  match result.allocated with
  | none => t
  | some _ =>
    (t.duration (lit "run " ++ source) (lit "run") fun t => ((), t.events (forkEvents result.journal))).2

/-- The lines that a run writes to the debug channel; `runId` identifies the run. -/
def debugLine (runId : Bytes) (value : Value) : Bytes :=
  lit "[debug " ++ runId ++ lit "] " ++ value.text

/-- The values that a run probed, in order. -/
def RunResult.probes (r : RunResult) : List Value :=
  r.journal.toList.filterMap fun
    | .probed value => some value
    | _ => none

end BitCalculus
