import Mathlib
import BitCalculus.Proofs.Run.Memoization

/-!
# Results are remembered once

A result is looked up before an application is executed and remembered after it, and anything may be
remembered in between. Still the application itself is not: the calls of an execution need less
depth than the execution, so a pure one, which goes the same way on all streams, never leads to
itself. In a sequential run a result is therefore always remembered where none was, and the results
that were counted are those that are remembered.
-/

namespace BitCalculus

open Outcome (andThen)

namespace World

/-- How many results were counted as remembered, and those that are. -/
def tally (w : World) : Option Nat × Std.HashMap (Nat × Nat) Value :=
  (w.stats.map Stats.applyMisses, w.cache.applications)

variable (w : World)

theorem tally_bump {counter : Stats.Counter} (h : counter ≠ .applyMisses) :
    (w.bump counter).tally = w.tally := by
  refine Prod.ext ?_ rfl
  simp only [tally, bump]
  cases w.stats with
  | none => rfl
  | some stats =>
    cases counter with
    | applyMisses => exact absurd rfl h
    | _ => rfl

theorem tally_countBody (id : Nat) : (w.countBody id).tally = w.tally := by
  refine Prod.ext ?_ rfl
  simp only [tally, countBody]
  cases w.stats <;> rfl

theorem tally_close (values : List Value) (body : Expr) :
    (w.close values body).2.tally = w.tally := by
  refine Prod.ext ?_ (w.applications_close values body)
  simp only [tally, close]
  cases w.stats with
  | none => rfl
  | some stats => split <;> rfl

/-- Remembering a result where none was. -/
theorem store_of_absent {f a : Value} (r : Value) (h : w.cache.lookup f a = none) :
    (w.store f a r).1 = r ∧ (w.store f a r).2.tally =
      (w.tally.1, w.tally.2.insert (f.id, a.id) r) := by
  have he : w.cache.store f a r = (r, { w.cache with
      applications := w.cache.applications.insert (f.id, a.id) r }) := by
    rw [Cache.store, show w.cache.applications[(f.id, a.id)]? = none from h]
  simp only [store, tally, he]
  exact ⟨trivial, trivial⟩

end World

namespace Eval

/-- A function is a closure, or executing it makes no call and leaves the remembered results and
their count alone. -/
theorem closure_or_keeps (plan : Plan) (n busy : Nat) (f a : Value) (w : World) :
    (∃ i captured body, f = .closure i captured body) ∨
      bodyCalls n busy f a w = [] ∧ (applyValue (eval plan n) busy f a w).2.tally = w.tally := by
  cases f with
  | closure i captured body => exact .inl ⟨i, captured, body, rfl⟩
  | writer i bit => exact .inr ⟨rfl, rfl⟩
  | reader i held =>
    refine .inr ⟨rfl, ?_⟩
    rcases Plain.three_or_not held with ⟨zero, one, atEnd, rfl⟩ | hl
    · rw [applyValue_reader]
      rfl
    · rw [applyValue_reader_of_ne _ _ _ hl]
      rfl
  | probe i => exact .inr ⟨rfl, rfl⟩

variable {F : NodeFamily} {plan : Plan} {R R' : Registry F} {c c' : Call}

/-! ### Depth along a run -/

/-- The calls of parts that are evaluated in turn come to values at the depth at which plain
evaluation of the parts does. -/
theorem returns_inTurnCalls {m busy n : Nat} {function argument : Expr} {env : Env} {w : World}
    (ready : Ready R ⟨m, busy, function, env, w⟩)
    (returns : Plain.PartsReturn n function argument env.data w.streams)
    (hm : c ∈ inTurnCalls plan m busy function argument env w) :
    Plain.Returns n c.e c.env.data c.w.streams := by
  obtain ⟨f, s, hf, returnsA⟩ := returns
  rcases List.mem_cons.mp hm with rfl | hm
  · exact ⟨f, s, hf⟩
  · obtain ⟨R₁, -, -, -, meets, -⟩ := settlesAt plan m R busy function env w ready
    rcases hr : eval plan m busy function env w with ⟨f' | reason | _, w₁⟩
    · rw [hr] at hm meets
      rw [List.mem_singleton.mp hm]
      -- The argument begins on the streams that plain evaluation of the function leaves.
      obtain ⟨-, ⟨k, hk⟩, -⟩ := meets
      obtain ⟨-, rfl⟩ := Plain.eval_agree hf hk
      exact returnsA
    · rw [hr] at hm
      cases hm
    · rw [hr] at hm
      cases hm

/-- The call of a body comes to a value at the depth at which plain execution does. -/
theorem returns_applyCalls {m busy n : Nat} {f a : Answer} {w : World}
    (returns : Plain.ApplyReturns n f.value.erase a.value.erase w.streams)
    (hm : c ∈ applyCalls m busy f a w) : Plain.Returns n c.e c.env.data c.w.streams := by
  unfold applyCalls bodyCalls at hm
  split at hm
  · cases hm
  · split at hm
    · next i captured body hf =>
      rw [List.mem_singleton.mp hm]
      rw [hf, Value.erase_closure] at returns
      exact returns
    · cases hm

/-- If plain evaluation of a call of a sequential run comes to a value, then that of the calls that
it makes does so one level below. -/
theorem returns_asks (sequential : plan.strategy = .sequential) (ready : Ready R c)
    (hm : c' ∈ c.asks plan) {n : Nat}
    (returns : Plain.Returns (n + 1) c.e c.env.data c.w.streams) :
    Plain.Returns n c'.e c'.env.data c'.w.streams := by
  obtain ⟨depth, busy, e, env, w⟩ := c
  unfold Call.asks at hm
  split at hm
  · next m _ id function argument reads size _ _ he =>
    cases he
    rcases List.mem_append.mp hm with hm | hm
    · obtain ⟨d, s, h⟩ := returns
      obtain ⟨f, s₁, a, s₂, hf, ha, -⟩ := Plain.eval_apply_eq_value.mp h
      have readyF : Ready R ⟨m, busy, function, env, w⟩ :=
        ⟨F.function ready.admitted, ready.env, ready.cache⟩
      rw [operandCalls, sequential] at hm
      exact returns_inTurnCalls readyF ⟨f, s₁, hf, a, s₂, ha⟩ hm
    · rcases hr : operands plan (eval plan m) busy (.apply id function argument reads size) function
        argument env w with ⟨⟨f, a⟩ | reason | _, w₁⟩
      · rw [hr] at hm
        obtain ⟨_, _, _, _, _, R₁, he, -, -, -, -, agree⟩ := ready.parts (congrArg some hr)
        cases he
        exact returns_applyCalls (agree.applyReturns returns) hm
      · rw [hr] at hm
        cases hm
      · rw [hr] at hm
        cases hm
  · cases hm

/-- If plain evaluation of a call of a sequential run comes to a value, then that of all calls that
it leads to does so at the same depth or below. -/
theorem Spans.returns (h : Spans plan R R' c) (sequential : plan.strategy = .sequential)
    (hr : Reaches plan c c') {n : Nat} (returns : Plain.Returns n c.e c.env.data c.w.streams) :
    ∃ m ≤ n, Plain.Returns m c'.e c'.env.data c'.w.streams := by
  refine h.along (P := fun c' ↦ ∃ m ≤ n, Plain.Returns m c'.e c'.env.data c'.w.streams) ?_
    ⟨n, Nat.le_refl n, returns⟩ hr
  rintro R₁ c₁ c₂ ready ⟨m, le, returns⟩ hm
  cases m with
  | zero =>
    obtain ⟨d, s, hd⟩ := returns
    cases hd
  | succ m => exact ⟨m, Nat.le_of_succ_le le, returns_asks sequential ready hm returns⟩

/-- While a closure is executed on an argument without a stream call, it is not applied to the same
argument again. -/
theorem Spans.not_joins (h : Spans plan R R' c) (sequential : plan.strategy = .sequential)
    {f a : Answer} {captured : List Datum} (hf : f.value.erase = .closure captured c.e)
    (henv : c.env.data = a.value.erase :: captured) {n : Nat} {d : Datum} {s : Streams}
    (plain : Plain.eval n c.e c.env.data c.w.streams = (.value d, s))
    (quiet : s.calls = c.w.streams.calls) : ¬ Joins plan c f a := by
  rintro ⟨c', w, hr, hp⟩
  -- The inner application would come to the same value with less depth, on the same streams too.
  induction n using Nat.strongRecOn generalizing s with
  | ind n ih =>
    obtain ⟨m, le, returns⟩ := h.returns sequential hr ⟨d, s, plain⟩
    obtain ⟨R₁, R₂, -, -, -, ready, -⟩ := h c' hr
    obtain ⟨_, _, _, _, _, -, he, -, -, -, -, agree⟩ := ready.parts hp
    rw [he] at returns
    cases m with
    | zero =>
      obtain ⟨d', s', hd⟩ := returns
      cases hd
    | succ m =>
      obtain ⟨d', s', executes⟩ := agree.applyReturns returns
      rw [hf, Plain.apply, ← henv] at executes
      obtain ⟨rfl, rfl⟩ := Plain.eval_agree executes (Plain.eval_quiet plain quiet w.streams)
      exact ih m (by omega) (Plain.eval_quiet executes rfl c.w.streams) rfl

/-! ### Results that are not remembered -/

/-- A call that applies a closure to an argument without a remembered result executes it. -/
theorem mem_asks_body {n : Nat} (hn : c.depth = n + 1) {f a : Answer} {w : World}
    (hp : c.parts plan = some (.value (f, a), w)) (hl : w.cache.lookup f.value a.value = none)
    {i : Nat} {captured : Base} {body : Expr} (hf : f.value = .closure i captured body) :
    ⟨n, c.busy, body, .overlay captured a.value, w.countBody body.id⟩ ∈ c.asks plan := by
  obtain ⟨depth, busy, e, env, w₀⟩ := c
  unfold Call.parts at hp
  split at hp
  · next he =>
    cases he
    cases hn
    refine List.mem_append_right _ ?_
    rw [hf] at hl
    rw [Option.some.inj hp]
    simp [followUps, applyCalls, hf, hl, bodyCalls]
  · cases hp

/-- No result is remembered for a function and an argument exactly if results are remembered for
others only. -/
theorem remembers_others_iff (f a : Value) (w : World) :
    Remembers (fun f' a' ↦ (f'.id, a'.id) ≠ (f.id, a.id)) w ↔ w.cache.lookup f a = none := by
  constructor
  · intro others
    cases hl : w.cache.lookup f a with
    | none => rfl
    | some r =>
      obtain ⟨f', a', hne, he⟩ := others _ r hl
      exact absurd he.symm hne
  · intro absent key r hk
    -- Any number is that of some value.
    refine ⟨.probe key.1, .probe key.2, fun he ↦ ?_, rfl⟩
    have hk' : w.cache.lookup f a = some r := by rwa [Cache.lookup, ← he]
    rw [absent] at hk'
    cases hk'

/-- While a closure that was applied is executed purely, it is not applied to its argument again. -/
theorem Spans.other_joins (h : Spans plan R R' c) (sequential : plan.strategy = .sequential)
    {f a r : Answer} (outer : Joins plan c f a) (hr : Reaches plan c c') {i : Nat} {captured : Base}
    (hf : f.value = .closure i captured c'.e) (henv : c'.env = .overlay captured a.value)
    (result : (c'.result plan).1 = .value r) (isPure : r.isPure = true) {f' a' : Answer}
    (joins : Joins plan c' f' a') : (f'.value.id, a'.value.id) ≠ (f.value.id, a.value.id) := by
  intro he
  -- Numbers identify values, so this would be the same application.
  obtain ⟨idF, idA⟩ := Prod.mk.inj he
  have inner := joins.of_reaches hr
  have sameF := h.id_inj inner.occurs.1 outer.occurs.1 idF
  have sameA := h.id_inj inner.occurs.2 outer.occurs.2 idA
  obtain ⟨R₁, R₂, -, -, -, -, done⟩ := h c' hr
  have outcome := done.outcome
  rw [result] at outcome
  obtain ⟨-, ⟨n, plain⟩, pure_iff⟩ := outcome
  have hf' : f'.value.erase = .closure (captured.values.map Value.erase) c'.e := by
    rw [sameF, hf, Value.erase_closure]
  have henv' : c'.env.data = a'.value.erase :: captured.values.map Value.erase := by
    rw [sameA, henv, Env.data]
  exact (h.of_reaches hr).not_joins sequential hf' henv' plain (pure_iff.mp isPure) joins

/-- If executing an application is pure, its result is not remembered meanwhile. -/
theorem Spans.absent (h : Spans plan R R' c) (sequential : plan.strategy = .sequential) {n : Nat}
    (hn : c.depth = n + 1) {f a r : Answer} {w w' : World}
    (hp : c.parts plan = some (.value (f, a), w)) (hl : w.cache.lookup f.value a.value = none)
    (hv : applyValue (eval plan n) c.busy f.value a.value w = (.value r, w'))
    (isPure : r.isPure = true) : w'.cache.lookup f.value a.value = none := by
  rcases closure_or_keeps plan n c.busy f.value a.value w with ⟨i, captured, body, hf⟩ | ⟨-, kept⟩
  · have hr : Reaches plan c ⟨n, c.busy, body, .overlay captured a.value, w.countBody body.id⟩ :=
      .step (mem_asks_body hn hp hl hf) (.refl _)
    have result : Call.result plan
        ⟨n, c.busy, body, .overlay captured a.value, w.countBody body.id⟩ = (.value r, w') := by
      rw [← hv, hf]
      rfl
    have others := (stable_remembers _).result _ (fun f' a' joins ↦
      h.other_joins sequential ⟨c, w, .refl c, hp⟩ hr hf rfl (by rw [result]) isPure joins)
      ((remembers_others_iff f.value a.value w).mpr hl)
    rw [result] at others
    exact (remembers_others_iff f.value a.value w').mp others.1
  · rw [hv] at kept
    rw [Cache.lookup, show w'.cache.applications = _ from congrArg Prod.snd kept]
    exact hl

/-! ### Counting remembered results -/

/-- The results that were counted on top of the given number are as many as are remembered. -/
def Counted (before : Option Nat) (w : World) : Prop :=
  w.tally.1 = before.map (· + w.tally.2.size)

theorem Counted.of_tally {before : Option Nat} {w w' : World} (h : Counted before w)
    (he : w'.tally = w.tally) : Counted before w' := by
  rwa [Counted, he]

/-- Counting and remembering a result where none was keeps the count right. -/
theorem Counted.store {before : Option Nat} {f a : Value} {w : World} (h : Counted before w)
    (absent : w.cache.lookup f a = none) (r : Value) :
    Counted before ((w.bump .applyMisses).store f a r).2 := by
  have notMem : (f.id, a.id) ∉ w.cache.applications := by
    rw [Std.HashMap.mem_iff_isSome_getElem?,
      show w.cache.applications[(f.id, a.id)]? = none from absent]
    simp
  have counted : (w.bump .applyMisses).tally = (w.tally.1.map (· + 1), w.tally.2) := by
    refine Prod.ext ?_ rfl
    simp only [World.tally, World.bump]
    cases w.stats <;> rfl
  have remembered := ((w.bump .applyMisses).store_of_absent r absent).2
  rw [counted] at remembered
  rw [Counted, remembered, show w.tally.1 = _ from h, Option.map_map]
  dsimp only
  rw [Std.HashMap.size_insert, if_neg (show (f.id, a.id) ∉ w.tally.2 from notMem)]
  rfl

/-- Executing a value carries along what depends only on the remembered results and their count. -/
theorem carries_applyValue_of_tally {I : World → Prop}
    (keeps : ∀ {w w' : World}, w'.tally = w.tally → I w → I w') (n busy : Nat) (f a : Value)
    (w : World) :
    Carries plan I w (bodyCalls n busy f a w) (applyValue (eval plan n) busy f a w) := by
  rcases closure_or_keeps plan n busy f a w with ⟨i, captured, body, rfl⟩ | ⟨noCalls, kept⟩
  · intro hw
    exact carries_call ⟨n, busy, body, .overlay captured a, w.countBody body.id⟩
      (keeps (w.tally_countBody body.id) hw)
  · rw [noCalls]
    exact fun hw _ ↦ ⟨keeps kept hw, by simp⟩

/-- Applying answers keeps the count right if the execution of bodies does, provided that a result
that is to be remembered is not there yet. -/
theorem carries_counted_applyAnswers (before : Option Nat) (n busy : Nat) {f a : Answer} {w : World}
    (absent : w.cache.lookup f.value a.value = none → ∀ r w',
      applyValue (eval plan n) busy f.value a.value w = (.value r, w') → r.isPure = true →
        w'.cache.lookup f.value a.value = none) :
    Carries plan (Counted before) w (applyCalls n busy f a w)
      (applyAnswers (eval plan n) busy f a w) := by
  cases hl : w.cache.lookup f.value a.value with
  | some r =>
    rw [applyAnswers, applyCalls, hl]
    exact fun hw _ ↦ ⟨hw.of_tally (w.tally_bump (by simp)), by simp⟩
  | none =>
    rw [applyAnswers_of_none _ _ hl, applyCalls, hl]
    refine (carries_applyValue_of_tally (fun he hw ↦ hw.of_tally he) n busy f.value a.value
      w).andReturn ?_
    intro r w₁ hv hw
    cases hp : (f.isPure && a.isPure && r.isPure) with
    | true => exact hw.store (absent hl r w₁ hv (Bool.and_eq_true_iff.mp hp).2) r.value
    | false => exact hw.of_tally (w₁.tally_bump (by simp))

/-- Every call of a sequential run keeps the count right if the calls that it makes do. -/
theorem Spans.carries_counted (h : Spans plan R R' c) (sequential : plan.strategy = .sequential)
    (before : Option Nat) : Carries plan (Counted before) c.w (c.asks plan) (c.result plan) := by
  refine carries_of_parts c (fun values body hw ↦ hw.of_tally (c.w.tally_close values body)) ?_ ?_
  · intro n function argument
    rw [operands, operandCalls, sequential]
    exact carries_inTurn c.busy
  · intro n f a w hn hp
    refine carries_counted_applyAnswers before n c.busy fun hl r w' hv isPure ↦ ?_
    exact h.absent sequential hn hp hl hv isPure

/-! ### Calls that remember a result -/

/-- The call comes to the point where it remembers the result `r` of applying `f` to `a`, in the
state `w`: both parts were pure, no result was remembered when they were known, and executing them
was pure. -/
def Call.Stores (plan : Plan) (c : Call) (f a r : Value) (w : World) : Prop :=
  ∃ n w₁, c.depth = n + 1 ∧ c.parts plan = some (.value (⟨f, true⟩, ⟨a, true⟩), w₁) ∧
    w₁.cache.lookup f a = none ∧
    applyValue (eval plan n) c.busy f a w₁ = (.value ⟨r, true⟩, w)

/-- Such a call counts the result, remembers it and comes to what is remembered from then on. -/
theorem Call.Stores.result {f a r : Value} {w : World} (h : c.Stores plan f a r w) :
    c.result plan = (.value ⟨((w.bump .applyMisses).store f a r).1, true⟩,
      ((w.bump .applyMisses).store f a r).2) := by
  obtain ⟨n, w₁, hn, hp, hl, hv⟩ := h
  obtain ⟨depth, busy, e, env, w₀⟩ := c
  unfold Call.parts at hp
  split at hp
  · next he =>
    cases he
    cases hn
    rw [Call.result, eval_apply, Option.some.inj hp, andThen, applyAnswers_of_none _ _ hl, hv]
    rfl
  · cases hp

end Eval

open Eval (Moment Reaches)

/-- In every sequential run of every compiled program: whenever a call comes to the point where it
remembers a result, none is remembered for this function and argument, although anything may have
been remembered since it was looked up; so an entry is added and the call comes to the very result
that it computed. At every moment of the run, and after it, as many results were counted as are
remembered. -/
theorem result_remembered_once {source text : Bytes} {lastId last : Nat} {p : Program}
    (compiled : Program.compile source text lastId = .ok (p, last)) {s : Session}
    (sequential : s.plan.strategy = .sequential) {c : Eval.Call} (starts : s.start p = some c) :
    (∀ c' f a r w, Reaches s.plan c c' → c'.Stores s.plan f a r w →
        w.cache.lookup f a = none ∧ (w.store f a r).1 = r ∧
        (c'.result s.plan).1 = .value ⟨r, true⟩ ∧
        (c'.result s.plan).2.cache.applications =
          w.cache.applications.insert (f.id, a.id) r) ∧
      (∀ w, Moment s.plan c w → w.stats.map Stats.applyMisses =
        s.stats.map fun stats ↦ stats.applyMisses + w.cache.applications.size) ∧
      (s.run p).2.stats.map Stats.applyMisses = s.stats.map fun stats ↦
        stats.applyMisses + (c.result s.plan).2.cache.applications.size := by
  obtain ⟨⟨env, bound⟩, hstats⟩ := Session.bound_of_start starts
  obtain ⟨F, -, closed⟩ := Program.closedIn_of_compile compiled (Cache.allBuiltin_of_bind bound)
  obtain ⟨R, R', spans⟩ := closed.spans starts
  have counted {w : World} (moment : Moment s.plan c w) : w.stats.map Stats.applyMisses =
      s.stats.map fun stats ↦ stats.applyMisses + w.cache.applications.size := by
    have begins : Eval.Counted (s.stats.map Stats.applyMisses) c.w := by
      rw [Eval.Counted, World.tally, hstats, Session.applications_start starts]
      cases s.stats <;> rfl
    have holds := Eval.Carries.moment
      (fun c' hr ↦ (spans.of_reaches hr).carries_counted sequential _) begins moment
    rw [Eval.Counted, Option.map_map] at holds
    exact holds
  refine ⟨fun c' f a r w hr stores ↦ ?_, fun w ↦ counted, ?_⟩
  · have result := stores.result
    obtain ⟨n, w₁, hn, hp, hl, hv⟩ := stores
    have absent : w.cache.lookup f a = none :=
      (spans.of_reaches hr).absent sequential hn hp hl hv rfl
    obtain ⟨value, remembered⟩ := (w.bump .applyMisses).store_of_absent r absent
    rw [value] at result
    refine ⟨absent, (w.store_of_absent r absent).1, congrArg Prod.fst result, ?_⟩
    rw [result]
    exact congrArg Prod.snd remembered
  · rw [Session.run_eq starts]
    exact counted (.exit (.refl c))

/-- While the outer application is executed the identity is applied to itself three times. This
result is remembered once and found twice, and that of the outer application is remembered last. -/
theorem result_remembered_once_identity :
    ∃ p last c f a r w,
      Program.compile (lit "t") (lit "(\\i (i i) (i i)) (\\x x)") 0 = .ok (p, last) ∧
      (({ stats := some {} } : Session).atDepth 4).start p = some c ∧
      ((({ stats := some {} } : Session).atDepth 4).run p).2.stats.map Stats.applyHits = some 2 ∧
      c.Stores {} f a r w ∧ w.cache.lookup f a = none ∧
      (c.result {}).2.cache.applications = w.cache.applications.insert (f.id, a.id) r ∧
      (c.result {}).2.cache.applications.size = 2 := by
  obtain ⟨p, last, c, f, a, r, w, compiled, starts, hits, misses, stores⟩ : ∃ p last c f a r w,
      Program.compile (lit "t") (lit "(\\i (i i) (i i)) (\\x x)") 0 = .ok (p, last) ∧
      (({ stats := some {} } : Session).atDepth 4).start p = some c ∧
      ((({ stats := some {} } : Session).atDepth 4).run p).2.stats.map Stats.applyHits = some 2 ∧
      ((({ stats := some {} } : Session).atDepth 4).run p).2.stats.map Stats.applyMisses = some 2 ∧
      c.Stores {} f a r w :=
    ⟨_, _, _, _, _, _, _, by cbv, by cbv, by cbv, by cbv, 3, _, rfl, by cbv, by cbv, by cbv⟩
  obtain ⟨once, -, counted⟩ := result_remembered_once compiled rfl starts
  obtain ⟨absent, -, -, remembered⟩ := once c f a r w (.refl c) stores
  rw [misses] at counted
  have size := Option.some.inj counted
  exact ⟨p, last, c, f, a, r, w, compiled, starts, hits, stores, absent, remembered,
    (Nat.zero_add _).symm.trans size.symm⟩

end BitCalculus
