import BitCalculus.Proofs.Bits.Reading
import BitCalculus.Proofs.Graph.Recompilation
import BitCalculus.Proofs.Run.Simulation

/-!
# Runs with other node numbers

The number of a node is looked at only where closures are filed, and there it matters only which
nodes have the same number. So two sequential evaluations of one expression with different node
numbers, on readers that still have the same bits to deliver, go through the same states but for the
node numbers in them: they make the same values under the same numbers, count the same events and
make the same stream calls.
-/

namespace BitCalculus

open Outcome (andThen)

/-! ### Values -/

mutual

/-- The value with other node numbers. -/
def Value.renumber (f : Nat → Nat) : Value → Value
  | .closure id env body => .closure id (Base.renumber f env) (body.renumber f)
  | .writer id bit => .writer id bit
  | .reader id held => .reader id (Value.renumberAll f held)
  | .probe id => .probe id

/-- The environment with other node numbers. -/
def Base.renumber (f : Nat → Nat) : Base → Base
  | .mk id values effectful => .mk id (Value.renumberAll f values) effectful

/-- Several values with other node numbers. -/
def Value.renumberAll (f : Nat → Nat) : List Value → List Value
  | [] => []
  | v :: vs => Value.renumber f v :: Value.renumberAll f vs

end

section Values

variable (f : Nat → Nat)

theorem Value.renumberAll_eq_map (vs : List Value) : renumberAll f vs = vs.map (renumber f) := by
  induction vs with
  | nil => rfl
  | cons v vs ih => rw [renumberAll, List.map_cons, ih]

@[simp] theorem Base.id_renumber (b : Base) : (b.renumber f).id = b.id := by
  cases b
  rfl

@[simp] theorem Base.values_renumber (b : Base) :
    (b.renumber f).values = b.values.map (Value.renumber f) := by
  cases b
  exact Value.renumberAll_eq_map f _

@[simp] theorem Base.effectful_renumber (b : Base) : (b.renumber f).effectful = b.effectful := by
  cases b
  rfl

namespace Value

theorem renumber_reader (id : Nat) (held : List Value) :
    (reader id held).renumber f = .reader id (held.map (renumber f)) := by
  rw [renumber, renumberAll_eq_map]

@[simp] theorem id_renumber (v : Value) : (v.renumber f).id = v.id := by
  cases v <;> rfl

@[simp] theorem effectful_renumber (v : Value) : (v.renumber f).effectful = v.effectful := by
  cases v with
  | closure id env body => exact env.effectful_renumber f
  | _ => rfl

/-- A value is shown without node numbers. -/
@[simp] theorem text_renumber (v : Value) : (v.renumber f).text = v.text := by
  cases v with
  | reader id held => simp [renumber_reader, text]
  | _ => rfl

end Value

/-- The environment with other node numbers. -/
def Env.renumber : Env → Env
  | .base values => .base (values.renumber f)
  | .overlay captured argument => .overlay (captured.renumber f) (argument.renumber f)

theorem Env.get_renumber (env : Env) (i : Int) :
    (env.renumber f).get i = (env.get i).map (Value.renumber f) := by
  cases env with
  | base values => rw [renumber, get, get, Base.values_renumber, elementAt_map]
  | overlay captured argument =>
    rw [renumber, get, get, Base.values_renumber, elementAt_map]
    split <;> rfl

theorem Env.getAll_renumber (env : Env) (slots : List Int) :
    (env.renumber f).getAll slots = (env.getAll slots).map (List.map (Value.renumber f)) := by
  induction slots with
  | nil => rfl
  | cons slot slots ih =>
    rw [getAll, getAll, get_renumber, ih]
    cases env.get slot with
    | error fault => rfl
    | ok value => cases env.getAll slots <;> rfl

end Values

/-! ### Caches -/

namespace Cache

/-- The second cache has what the first one has, with other node numbers. -/
structure Renumbers (f : Nat → Nat) (c c' : Cache) : Prop where
  lastId : c'.lastId = c.lastId
  environments : Translates id (Base.renumber f) c.environments c'.environments
  closures : Translates (Prod.map id f) (Value.renumber f) c.closures c'.closures
  applications : Translates id (Value.renumber f) c.applications c'.applications

theorem renumbers_empty (f : Nat → Nat) : Renumbers f {} {} where
  lastId := rfl
  environments := .empty _ _
  closures := .empty _ _
  applications := .empty _ _

namespace Renumbers

variable {f : Nat → Nat} {c c' : Cache}

theorem next (h : c.Renumbers f c') : c'.next.1 = c.next.1 ∧ c.next.2.Renumbers f c'.next.2 := by
  have hl : c'.lastId + 1 = c.lastId + 1 := by rw [h.lastId]
  exact ⟨hl, hl, h.environments, h.closures, h.applications⟩

theorem environment (h : c.Renumbers f c') (values : List Value) :
    (c'.environment (values.map (Value.renumber f))).1 = (c.environment values).1.renumber f ∧
      (c.environment values).2.Renumbers f
        (c'.environment (values.map (Value.renumber f))).2 := by
  have key : environmentKey (values.map (Value.renumber f)) = environmentKey values := by
    simp [environmentKey, Function.comp_def]
  have found := h.environments (environmentKey values)
  rw [id] at found
  rw [Cache.environment, Cache.environment, key, found]
  cases c.environments[environmentKey values]? with
  | some b => exact ⟨rfl, h⟩
  | none =>
    have made : Base.mk (c'.lastId + 1) (values.map (Value.renumber f))
          ((values.map (Value.renumber f)).any Value.effectful) =
        (Base.mk (c.lastId + 1) values (values.any Value.effectful)).renumber f := by
      simp [Base.renumber, Value.renumberAll_eq_map, h.lastId, Function.comp_def]
    dsimp only [Option.map]
    rw [made]
    exact ⟨rfl, congrArg (· + 1) h.lastId, h.environments.insert Function.injective_id _ _,
      h.closures, h.applications⟩

theorem closure (h : c.Renumbers f c') (inj : f.Injective) (env : Base) (body : Expr) :
    (c'.closure (env.renumber f) (body.renumber f)).1 = (c.closure env body).1.renumber f ∧
      (c'.closure (env.renumber f) (body.renumber f)).2.1 = (c.closure env body).2.1 ∧
      (c.closure env body).2.2.Renumbers f
        (c'.closure (env.renumber f) (body.renumber f)).2.2 := by
  have found := h.closures (env.id, body.id)
  rw [Prod.map, id] at found
  rw [Cache.closure, Cache.closure, Base.id_renumber, Expr.id_renumber, found]
  cases c.closures[(env.id, body.id)]? with
  | some v => exact ⟨rfl, rfl, h⟩
  | none =>
    have made : Value.closure (c'.lastId + 1) (env.renumber f) (body.renumber f) =
        (Value.closure (c.lastId + 1) env body).renumber f := by
      rw [Value.renumber, h.lastId]
    dsimp only [Option.map]
    rw [made]
    exact ⟨rfl, rfl, congrArg (· + 1) h.lastId, h.environments,
      h.closures.insert (Function.injective_id.prodMap inj) _ _, h.applications⟩

theorem lookup (h : c.Renumbers f c') (g a : Value) :
    c'.lookup (g.renumber f) (a.renumber f) = (c.lookup g a).map (Value.renumber f) := by
  rw [Cache.lookup, Cache.lookup, Value.id_renumber, Value.id_renumber]
  exact h.applications (g.id, a.id)

theorem store (h : c.Renumbers f c') (g a r : Value) :
    (c'.store (g.renumber f) (a.renumber f) (r.renumber f)).1 = (c.store g a r).1.renumber f ∧
      (c.store g a r).2.Renumbers f
        (c'.store (g.renumber f) (a.renumber f) (r.renumber f)).2 := by
  have found := h.applications (g.id, a.id)
  rw [id] at found
  rw [Cache.store, Cache.store, Value.id_renumber, Value.id_renumber, found]
  cases c.applications[(g.id, a.id)]? with
  | some v => exact ⟨rfl, h⟩
  | none =>
    exact ⟨rfl, h.lastId, h.environments, h.closures,
      h.applications.insert Function.injective_id _ _⟩

end Renumbers

end Cache

/-! ### Counters -/

namespace Stats

theorem get_bump (s : Stats) (counter k : Counter) :
    (s.bump counter).get k = s.get k + if counter = k then 1 else 0 := by
  cases counter <;> cases k <;> rfl

@[simp] theorem get_countBody (s : Stats) (id : Nat) (k : Counter) :
    (s.countBody id).get k = s.get k := by
  cases k <;> rfl

/-- From the first to the second, each counter was increased by the given amount. -/
def Counts (amounts : Counter → Nat) (before after : Option Stats) : Prop :=
  ∀ k, after.map (·.get k) = before.map (·.get k + amounts k)

theorem counts_refl (before : Option Stats) : Counts (fun _ ↦ 0) before before := by
  simp [Counts]

theorem Counts.bump {amounts : Counter → Nat} {before after : Option Stats}
    (h : Counts amounts before after) (counter : Counter) :
    Counts (fun k ↦ amounts k + if counter = k then 1 else 0) before
      (after.map (·.bump counter)) := by
  intro k
  have hk := congrArg (Option.map (· + if counter = k then 1 else 0)) (h k)
  simpa [Function.comp_def, get_bump, Nat.add_assoc] using hk

theorem Counts.countBody {amounts : Counter → Nat} {before after : Option Stats}
    (h : Counts amounts before after) (id : Nat) :
    Counts amounts before (after.map (·.countBody id)) := by
  intro k
  simpa [Function.comp_def] using h k

end Stats

/-! ### States -/

/-- The event with other node numbers. -/
def Event.renumber (f : Nat → Nat) : Event → Event
  | .probed value => .probed (value.renumber f)
  | .wrote bit => .wrote bit
  | .read bit => .read bit
  | .forkBegan number => .forkBegan number
  | .forkEnded number => .forkEnded number

/-- The answer with other node numbers. -/
def Answer.renumber (f : Nat → Nat) (a : Answer) : Answer :=
  ⟨a.value.renumber f, a.isPure⟩

/-- Two runs that began with the statistics `before` and `before'` are in states that are alike:
equal but for node numbers in the cache and in the journal, with the same bits still to be delivered
and with the same increments of all counters. What was written before does not matter. -/
structure World.Alike (f : Nat → Nat) (before before' : Option Stats) (w w' : World) : Prop where
  cache : w.cache.Renumbers f w'.cache
  input : w'.input.remaining = w.input.remaining
  journal : w'.journal.toList = w.journal.toList.map (Event.renumber f)
  counters : ∃ amounts, Stats.Counts amounts before w.stats ∧ Stats.Counts amounts before' w'.stats

/-- The counter that closing a body increases. -/
def World.closeCounter (w : World) (values : List Value) (body : Expr) : Stats.Counter :=
  if ((w.cache.environment values).2.closure (w.cache.environment values).1 body).2.1 then
    .closureHits
  else .closureMisses

theorem World.stats_close (w : World) (values : List Value) (body : Expr) :
    (w.close values body).2.stats = w.stats.map (·.bump (w.closeCounter values body)) := rfl

namespace World.Alike

variable {f : Nat → Nat} {before before' : Option Stats} {w w' : World}

theorem note (h : w.Alike f before before' w') (event : Event) :
    (w.note event).Alike f before before' (w'.note (event.renumber f)) where
  cache := h.cache
  input := h.input
  journal := by simp [World.note, h.journal]
  counters := h.counters

theorem bump (h : w.Alike f before before' w') (counter : Stats.Counter) :
    (w.bump counter).Alike f before before' (w'.bump counter) where
  cache := h.cache
  input := h.input
  journal := h.journal
  counters := by
    obtain ⟨amounts, counts, counts'⟩ := h.counters
    exact ⟨_, counts.bump counter, counts'.bump counter⟩

theorem countBody (h : w.Alike f before before' w') (id id' : Nat) :
    (w.countBody id).Alike f before before' (w'.countBody id') where
  cache := h.cache
  input := h.input
  journal := h.journal
  counters := by
    obtain ⟨amounts, counts, counts'⟩ := h.counters
    exact ⟨amounts, counts.countBody id, counts'.countBody id'⟩

theorem nextId (h : w.Alike f before before' w') :
    w'.nextId.1 = w.nextId.1 ∧ w.nextId.2.Alike f before before' w'.nextId.2 :=
  ⟨h.cache.next.1, h.cache.next.2, h.input, h.journal, h.counters⟩

theorem write (h : w.Alike f before before' w') (bit : Bool) :
    (w.write bit).Alike f before before' (w'.write bit) where
  cache := h.cache
  input := h.input
  journal := by simp [World.write, h.journal, Event.renumber]
  counters := h.counters

theorem read (h : w.Alike f before before' w') :
    w'.read.1 = w.read.1 ∧ w.read.2.Alike f before before' w'.read.2 := by
  obtain ⟨bit, rest⟩ := w.input.read_remaining
  obtain ⟨bit', rest'⟩ := w'.input.read_remaining
  rw [h.input] at bit' rest'
  have same : w'.input.read.1 = w.input.read.1 := bit'.trans bit.symm
  refine ⟨same, h.cache, rest'.trans rest.symm, ?_, h.counters⟩
  simp [World.read, h.journal, Event.renumber, same]

theorem close (h : w.Alike f before before' w') (inj : f.Injective) (values : List Value)
    (body : Expr) :
    (w'.close (values.map (Value.renumber f)) (body.renumber f)).1 =
        (w.close values body).1.renumber f ∧
      (w.close values body).2.Alike f before before'
        (w'.close (values.map (Value.renumber f)) (body.renumber f)).2 := by
  obtain ⟨env, cache₁⟩ := h.cache.environment values
  obtain ⟨value, found, cache₂⟩ := cache₁.closure inj (w.cache.environment values).1 body
  rw [← env] at value found cache₂
  have counter : w'.closeCounter (values.map (Value.renumber f)) (body.renumber f) =
      w.closeCounter values body := by
    rw [closeCounter, closeCounter, found]
  obtain ⟨amounts, counts, counts'⟩ := h.counters
  refine ⟨value, cache₂, h.input, h.journal, ?_⟩
  rw [stats_close, stats_close, counter]
  exact ⟨_, counts.bump _, counts'.bump _⟩

theorem store (h : w.Alike f before before' w') (g a r : Value) :
    (w'.store (g.renumber f) (a.renumber f) (r.renumber f)).1 = (w.store g a r).1.renumber f ∧
      (w.store g a r).2.Alike f before before'
        (w'.store (g.renumber f) (a.renumber f) (r.renumber f)).2 := by
  obtain ⟨value, cache⟩ := h.cache.store g a r
  exact ⟨value, cache, h.input, h.journal, h.counters⟩

end World.Alike

/-! ### Evaluation -/

/-- The outcome with another result. -/
def Outcome.map {α β : Type} (g : α → β) : Outcome α → Outcome β
  | .value a => .value (g a)
  | .fault reason => .fault reason
  | .outOfDepth => .outOfDepth

namespace Eval

/-- Two parts of runs that came to the same outcome but for node numbers and ended alike. -/
def EndAlike {α : Type} (f : Nat → Nat) (before before' : Option Stats) (renumber : α → α)
    (r r' : Outcome α × World) : Prop :=
  r'.1 = r.1.map renumber ∧ r.2.Alike f before before' r'.2

section Alike

variable {α β : Type} {f : Nat → Nat} {before before' : Option Stats}

theorem EndAlike.andThen {g : α → α} {g' : β → β} {first first' : Outcome α × World}
    {next next' : α → World → Outcome β × World} (hf : EndAlike f before before' g first first')
    (hn : ∀ a w w', w.Alike f before before' w' →
      EndAlike f before before' g' (next a w) (next' (g a) w')) :
    EndAlike f before before' g' (andThen first next) (andThen first' next') := by
  obtain ⟨outcome, w⟩ := first
  obtain ⟨outcome', w'⟩ := first'
  obtain ⟨rfl, alike⟩ := hf
  cases outcome with
  | value a => exact hn a w w' alike
  | fault reason => exact ⟨rfl, alike⟩
  | outOfDepth => exact ⟨rfl, alike⟩

/-- Two evaluators that end alike whenever they begin alike. -/
def KeepAlike (f : Nat → Nat) (before before' : Option Stats) (ev ev' : Evaluator) : Prop :=
  ∀ busy busy' e env w w', w.Alike f before before' w' →
    EndAlike f before before' (Answer.renumber f) (ev busy e env w)
      (ev' busy' (e.renumber f) (env.renumber f) w')

variable {ev ev' : Evaluator} {w w' : World}

theorem alike_inTurn (keep : KeepAlike f before before' ev ev') (busy busy' : Nat)
    (function argument : Expr) (env : Env) (alike : w.Alike f before before' w') :
    EndAlike f before before' (Prod.map (Answer.renumber f) (Answer.renumber f))
      (inTurn ev busy function argument env w)
      (inTurn ev' busy' (function.renumber f) (argument.renumber f) (env.renumber f) w') := by
  rw [inTurn_eq, inTurn_eq]
  refine (keep busy busy' function env w w' alike).andThen fun g w w' alike ↦ ?_
  refine (keep busy busy' argument env w w' alike).andThen fun a w w' alike ↦ ?_
  exact ⟨rfl, alike⟩

theorem alike_applyValue (keep : KeepAlike f before before' ev ev') (busy busy' : Nat)
    (g a : Value) (alike : w.Alike f before before' w') :
    EndAlike f before before' (Answer.renumber f) (applyValue ev busy g a w)
      (applyValue ev' busy' (g.renumber f) (a.renumber f) w') := by
  cases g with
  | closure id env body =>
    exact keep busy busy' body (.overlay env a) _ _ (alike.countBody body.id _)
  | writer id bit => exact ⟨rfl, alike.write bit⟩
  | reader id held =>
    rw [Value.renumber_reader]
    rcases Plain.three_or_not held with ⟨zero, one, atEnd, rfl⟩ | hl
    · obtain ⟨same, alike⟩ := alike.read
      rcases hr : w.read with ⟨bit, w₁⟩
      rcases hr' : w'.read with ⟨bit', w₁'⟩
      rw [hr, hr'] at same alike
      simp only [List.map_cons, List.map_nil, applyValue, hr, hr']
      subst same
      rcases bit' with _ | _ | _ <;> exact ⟨rfl, alike⟩
    · have hl' : (held.map (Value.renumber f)).length ≠ 3 := by rwa [List.length_map]
      obtain ⟨same, alike⟩ := alike.nextId
      rw [applyValue_reader_of_ne _ _ _ hl, applyValue_reader_of_ne _ _ _ hl', same]
      refine ⟨?_, alike⟩
      simp [Outcome.map, Answer.renumber, Value.renumber_reader]
  | probe id => exact ⟨rfl, alike.note (.probed a)⟩

theorem alike_applyAnswers (keep : KeepAlike f before before' ev ev') (busy busy' : Nat)
    (g a : Answer) (alike : w.Alike f before before' w') :
    EndAlike f before before' (Answer.renumber f) (applyAnswers ev busy g a w)
      (applyAnswers ev' busy' (g.renumber f) (a.renumber f) w') := by
  have found := alike.cache.lookup g.value a.value
  cases hl : w.cache.lookup g.value a.value with
  | some r =>
    rw [hl] at found
    have found' : w'.cache.lookup (g.renumber f).value (a.renumber f).value =
        some (r.renumber f) := found
    simp only [applyAnswers, hl, found']
    exact ⟨rfl, alike.bump .applyHits⟩
  | none =>
    rw [hl] at found
    rw [applyAnswers_of_none _ _ hl, applyAnswers_of_none _ _ found]
    refine (alike_applyValue keep busy busy' g.value a.value alike).andThen fun r w w' alike ↦ ?_
    have flags : ((g.renumber f).isPure && (a.renumber f).isPure && (r.renumber f).isPure) =
      (g.isPure && a.isPure && r.isPure) := rfl
    rw [flags]
    by_cases pure : (g.isPure && a.isPure && r.isPure) = true
    · rw [if_pos pure, if_pos pure]
      obtain ⟨value, alike⟩ := (alike.bump .applyMisses).store g.value a.value r.value
      exact ⟨congrArg (fun v ↦ Outcome.value (Answer.mk v true)) value, alike⟩
    · rw [if_neg pure, if_neg pure]
      exact ⟨rfl, alike.bump .applyUncached⟩

end Alike

/-- Sequential evaluations that begin alike end alike. -/
theorem alike_eval {f : Nat → Nat} (inj : f.Injective) {before before' : Option Stats}
    {plan plan' : Plan} (sequential : plan.strategy = .sequential)
    (sequential' : plan'.strategy = .sequential) (depth : Nat) :
    KeepAlike f before before' (eval plan depth) (eval plan' depth) := by
  -- On depth rather than on the expression, since the body of a closure is no part of it.
  induction depth with
  | zero =>
    intro busy busy' e env w w' alike
    exact ⟨rfl, alike⟩
  | succ depth ih =>
    intro busy busy' e env w w' alike
    cases e with
    | slot id index =>
      rw [Expr.renumber, eval, eval, step, step, env.get_renumber]
      cases env.get index with
      | ok value => exact ⟨rfl, alike⟩
      | error reason => exact ⟨rfl, alike⟩
    | lambda id captured body reads size =>
      rw [Expr.renumber, eval, eval, step, step, env.getAll_renumber]
      cases env.getAll captured with
      | ok values =>
        obtain ⟨value, alike⟩ := alike.close inj values body
        exact ⟨congrArg (fun v ↦ Outcome.value (Answer.mk v true)) value, alike⟩
      | error reason => exact ⟨rfl, alike⟩
    | apply id function argument reads size =>
      rw [Expr.renumber, eval_apply, eval_apply]
      have parts := alike_inTurn ih busy busy' function argument env alike
      simp only [operands, sequential, sequential']
      exact parts.andThen fun parts w w' alike ↦
        alike_applyAnswers ih busy busy' parts.1 parts.2 alike

end Eval

end BitCalculus
