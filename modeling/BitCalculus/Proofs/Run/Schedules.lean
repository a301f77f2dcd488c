import Mathlib
import BitCalculus.Proofs.Run.Moments
import BitCalculus.Proofs.Run.Programs

/-!
# Schedules are unobservable

A parallel run may evaluate the argument of a forked application before its function, and both share
the cache. Since only provably pure applications are forked, no schedule can be told from sequential
evaluation, and the answers to both parts of a fork are pure.
-/

namespace BitCalculus

open Eval (Reaches)

namespace Session

/-- The session with sequential evaluation. -/
def sequential (s : Session) : Session :=
  { s with plan := { strategy := .sequential } }

/-- The session with parallel evaluation and the given order of evaluation at every fork. -/
def parallel (s : Session) (workers minForkSize : Int) (schedule : Schedule) : Session :=
  { s with plan := { strategy := .parallel workers minForkSize, schedule } }

end Session

/-- For every compiled program whose free names are built in, on all streams, for every number of
workers, every size from which on applications are forked and every schedule: the parallel run comes
to an end exactly if the sequential run does; both then come to the same datum with the same stream
calls and leave the same streams; and wherever an application is forkable, the answers to both of its
parts are pure. -/
theorem schedules_unobservable {source text : Bytes} {lastId last : Nat} {p : Program}
    (compiled : Program.compile source text lastId = .ok (p, last)) (builtins : AllBuiltin p.free)
    (s : Session) (workers minForkSize : Int) (schedule : Schedule) :
    ((∃ n, ((s.parallel workers minForkSize schedule).atDepth n).Terminates p) ↔
        ∃ n, (s.sequential.atDepth n).Terminates p) ∧
      (∀ n m, ((s.parallel workers minForkSize schedule).atDepth n).Terminates p →
        (s.sequential.atDepth m).Terminates p →
        ∃ d t, ((s.parallel workers minForkSize schedule).atDepth n).ComesTo p d t ∧
          (s.sequential.atDepth m).ComesTo p d t) ∧
      ∀ n c c' f a w, ((s.parallel workers minForkSize schedule).atDepth n).start p = some c →
        Reaches (s.parallel workers minForkSize schedule).plan c c' →
        Strategy.forkable minForkSize c'.env c'.e = .ok true →
        c'.parts (s.parallel workers minForkSize schedule).plan = some (.value (f, a), w) →
        f.isPure = true ∧ a.isPure = true := by
  obtain ⟨F, safe, closed⟩ := Program.closedIn_of_compile compiled builtins
  have parallel := closed.terminates_iff safe (s.parallel workers minForkSize schedule)
  have sequential := closed.terminates_iff safe s.sequential
  refine ⟨parallel.trans sequential.symm, fun n m ↦ closed.comesTo_same safe rfl, ?_⟩
  rintro n c ⟨depth, busy, e, env, w₀⟩ f a w hc hr hk hp
  obtain ⟨R, R', spans⟩ := closed.spans hc
  obtain ⟨R₁, -, -, -, -, ready, -⟩ := spans _ hr
  unfold Eval.Call.parts at hp
  split at hp
  · next he =>
    cases he
    have inert := Env.inert_of_provablyPure (Strategy.provablyPure_of_forkable hk)
    obtain ⟨R₂, -, ⟨-, pureF, -⟩, -, pureA, -⟩ := Eval.inert_operands (Eval.settlesAt _ _)
      ready.admitted ready.env ready.cache inert (Option.some.inj hp)
    exact ⟨pureF, pureA⟩
  · cases hp

/-- Both parts of the fork below the written bit apply the identity to itself, and the second part is
evaluated first. -/
theorem schedules_unobservable_fork :
    ∃ p last, Program.compile (lit "t") (lit "(\\i __builtin_p0 ((i i) (i i))) (\\x x)") 0 =
        .ok (p, last) ∧ AllBuiltin p.free ∧
      (((({ stats := some {} } : Session).parallel 0 1 fun _ ↦ .argumentFirst).atDepth 6).run
        p).2.stats.map Stats.forks = some 1 ∧
      ∃ n d t,
        ((({} : Session).parallel 0 1 fun _ ↦ .argumentFirst).atDepth n).ComesTo p d t ∧
          (({} : Session).sequential.atDepth 6).ComesTo p d t := by
  obtain ⟨p, last, compiled, builtins, forks, fine⟩ : ∃ p last, Program.compile (lit "t")
        (lit "(\\i __builtin_p0 ((i i) (i i))) (\\x x)") 0 = .ok (p, last) ∧ AllBuiltin p.free ∧
      (((({ stats := some {} } : Session).parallel 0 1 fun _ ↦ .argumentFirst).atDepth 6).run
        p).2.stats.map Stats.forks = some 1 ∧
      ((({} : Session).sequential.atDepth 6).run p).1.error = none :=
    ⟨_, _, by cbv, by decide +kernel, by cbv, by cbv⟩
  have terminates : (({} : Session).sequential.atDepth 6).Terminates p := by
    rw [Session.Terminates, fine]
    simp
  obtain ⟨ends, agree, -⟩ :=
    schedules_unobservable compiled builtins {} 0 1 fun _ ↦ .argumentFirst
  obtain ⟨n, hn⟩ := ends.mpr ⟨6, terminates⟩
  obtain ⟨d, t, comes, comes'⟩ := agree n 6 hn terminates
  exact ⟨p, last, compiled, builtins, forks, n, d, t, comes, comes'⟩

end BitCalculus
