import Mathlib
import BitCalculus.Proofs.Run.Once

/-!
# The flag of an answer

Every answer comes with a flag. It is put together from the flags of the parts, taken over from the
parts alone where a result is remembered, and set where a result is stored; still it tells exactly
whether a stream was called, in whatever state evaluation begins. So what is remembered was computed
without a stream call, from the evaluation of the function on.
-/

namespace BitCalculus

open Outcome (andThen)

/-! ### The calls between two states -/

namespace Streams

/-- The calls, made one after another, lead from the first streams to the last; a read is listed
with what it delivered. -/
inductive Between : Streams → List StreamCall → Streams → Prop
  | none (s : Streams) : Between s [] s
  | write {s s' : Streams} {calls : List StreamCall} (bit : Bool)
      (h : Between (s.write bit) calls s') : Between s (.write bit :: calls) s'
  | read {s s' : Streams} {calls : List StreamCall} (h : Between s.read.2 calls s') :
      Between s (.read s.read.1 :: calls) s'

theorem Between.trans {s s₁ s₂ : Streams} {calls calls' : List StreamCall}
    (h : Between s calls s₁) (h' : Between s₁ calls' s₂) : Between s (calls ++ calls') s₂ := by
  induction h with
  | none s => exact h'
  | write bit _ ih => exact .write bit (ih h')
  | read _ ih => exact .read (ih h')

/-- The streams keep their calls, so there is only one list of calls between two states. -/
theorem Between.calls_eq {s s' : Streams} {calls : List StreamCall} (h : Between s calls s') :
    s'.calls = s.calls ++ calls := by
  induction h with
  | none s => rw [List.append_nil]
  | write bit _ ih => rw [ih, calls_write, List.append_assoc, List.singleton_append]
  | @read s _ _ _ ih =>
    rw [ih, show s.read.2.calls = s.calls ++ [.read s.read.1] from rfl, List.append_assoc,
      List.singleton_append]

/-- Between the same streams there is no call. -/
theorem Between.of_eq {s s' : Streams} (h : s' = s) : Between s [] s' :=
  h ▸ .none s

/-- No call leaves the streams as they are. -/
theorem Between.eq {s s' : Streams} (h : Between s [] s') : s' = s := by
  cases h
  rfl

end Streams

open Streams (Between)

namespace Eval

/-! ### Flags along a part of a run -/

/-- A part of a run begins in `w`. The flag of its result is set exactly if `before` holds and the
part makes no stream call. -/
def Flags {α : Type} (before : Prop) (flag : α → Bool) (w : World) (r : Outcome α × World) : Prop :=
  ∃ calls, Between w.streams calls r.2.streams ∧
    ∀ a, r.1 = .value a → (flag a = true ↔ before ∧ calls = [])

section Flags

variable {α β : Type} {before : Prop} {flag : α → Bool} {w : World} {r : Outcome α × World}

/-- A part that leaves the streams alone. -/
theorem flags_of_eq (hs : r.2.streams = w.streams)
    (hf : ∀ a, r.1 = .value a → (flag a = true ↔ before)) : Flags before flag w r := by
  refine ⟨[], .of_eq hs, fun a ha ↦ ?_⟩
  simp [hf a ha]

/-- A part that makes one call. -/
theorem flags_of_call (call : StreamCall) (hs : Between w.streams [call] r.2.streams)
    (hf : ∀ a, r.1 = .value a → flag a = false) : Flags before flag w r := by
  refine ⟨[call], hs, fun a ha ↦ ?_⟩
  simp [hf a ha]

/-- Where a part begins is a matter of the streams. -/
theorem Flags.of_start {w₀ : World} (h : Flags before flag w₀ r) (hs : w₀.streams = w.streams) :
    Flags before flag w r := by
  rwa [Flags, ← hs]

/-- What was known before joins the flag. -/
theorem Flags.guard (h : Flags True flag w r) (known : Bool) :
    Flags (known = true) (fun a ↦ known && flag a) w r := by
  obtain ⟨calls, between, tells⟩ := h
  refine ⟨calls, between, fun a ha ↦ ?_⟩
  simp [tells a ha]

/-- A second part goes on from the flag of the first. -/
theorem Flags.andThen {flag' : β → Bool} {next : α → World → Outcome β × World}
    (hf : Flags before flag w r)
    (hn : ∀ a w₁, Flags (flag a = true) flag' w₁ (next a w₁)) :
    Flags before flag' w (andThen r next) := by
  obtain ⟨calls, between, tells⟩ := hf
  rcases r with ⟨a | reason | _, w₁⟩
  · obtain ⟨calls', between', tells'⟩ := hn a w₁
    refine ⟨calls ++ calls', between.trans between', fun b hb ↦ ?_⟩
    rw [tells' b hb, tells a rfl, List.append_eq_nil_iff, and_assoc]
  · exact ⟨calls, between, fun b hb ↦ by cases hb⟩
  · exact ⟨calls, between, fun b hb ↦ by cases hb⟩

/-- A part that a fault follows in any case comes to no value and has no flag. -/
theorem flags_fault {calls : List StreamCall} {flag' : β → Bool}
    (hs : Between w.streams calls r.2.streams) (reason : Fault) :
    Flags before flag' w (Outcome.andThen r fun _ w ↦ (.fault reason, w)) := by
  rcases r with ⟨a | reason | _, w₁⟩ <;> exact ⟨calls, hs, fun b hb ↦ by cases hb⟩

end Flags

/-! ### The parts of an application -/

/-- Every evaluation to the given depth flags its answer. -/
def FlagsAt (plan : Plan) (n : Nat) : Prop :=
  ∀ busy e env w, Flags True Answer.isPure w (eval plan n busy e env w)

/-- Whether both answers are pure. -/
def bothPure (parts : Answer × Answer) : Bool :=
  parts.1.isPure && parts.2.isPure

section Parts

variable {plan : Plan} {n : Nat}

theorem flags_inTurn (ih : FlagsAt plan n) (busy : Nat) (function argument : Expr) (env : Env)
    (w : World) : Flags True bothPure w (inTurn (eval plan n) busy function argument env w) := by
  rw [inTurn_eq]
  refine (ih busy function env w).andThen fun f w₁ ↦ ?_
  refine ((ih busy argument env w₁).guard f.isPure).andThen fun a w₂ ↦ ?_
  exact flags_of_eq rfl fun _ h ↦ by cases h; rfl

theorem flags_forked (ih : FlagsAt plan n) (busy number : Nat) (argument : Expr) (env : Env)
    (w : World) :
    Flags True Answer.isPure w (forked (eval plan n) busy number argument env w) := by
  rw [forked_eq]
  refine ((ih busy argument env _).of_start (w.streams_note rfl)).andThen fun a w₁ ↦ ?_
  exact flags_of_eq (w₁.streams_note rfl) fun _ h ↦ by cases h; rfl

theorem flags_sideBySide (ih : FlagsAt plan n) (order : Order) (busy number : Nat)
    (function argument : Expr) (env : Env) (w : World) :
    Flags True bothPure w
      (sideBySide (eval plan n) order busy number function argument env w) := by
  cases order with
  | functionFirst =>
    rw [sideBySide_functionFirst]
    refine (ih busy function env w).andThen fun f w₁ ↦ ?_
    refine ((flags_forked ih busy number argument env w₁).guard f.isPure).andThen fun a w₂ ↦ ?_
    exact flags_of_eq rfl fun _ h ↦ by cases h; rfl
  | argumentFirst =>
    have flags := flags_forked ih busy number argument env w
    rw [sideBySide_argumentFirst]
    rcases hr : forked (eval plan n) busy number argument env w with ⟨a | reason | _, w₁⟩
    · have next (a : Answer) (w : World) : Flags (a.isPure = true) bothPure w
          (andThen (eval plan n busy function env w) fun f w ↦ (.value (f, a), w)) := by
        refine ((ih busy function env w).guard a.isPure).andThen fun f w₂ ↦ ?_
        refine flags_of_eq rfl fun _ h ↦ ?_
        cases h
        simp [bothPure, and_comm]
      rw [hr] at flags
      exact flags.andThen next
    · -- The function is evaluated after all, but there will be no answer.
      rw [hr] at flags
      obtain ⟨calls, between, -⟩ := flags
      obtain ⟨calls', between', -⟩ := ih busy function env w₁
      exact flags_fault (between.trans between') reason
    · rw [hr] at flags
      obtain ⟨calls, between, -⟩ := flags
      exact ⟨calls, between, by simp⟩

theorem flags_operands (ih : FlagsAt plan n) (busy : Nat) (e function argument : Expr) (env : Env)
    (w : World) :
    Flags True bothPure w (operands plan (eval plan n) busy e function argument env w) := by
  unfold operands
  cases plan.strategy with
  | sequential => exact flags_inTurn ih busy function argument env w
  | parallel workers minForkSize =>
    dsimp only
    cases Strategy.forkable minForkSize env e with
    | error reason => exact flags_of_eq rfl (by simp)
    | ok forkable =>
      cases forkable with
      | false => exact flags_inTurn ih busy function argument env w
      | true =>
        dsimp only
        split
        · exact (flags_sideBySide ih _ _ _ function argument env _).of_start rfl
        · exact (flags_inTurn ih busy function argument env _).of_start rfl

/-! ### Applications -/

/-- Executing a value flags its answer. -/
theorem flags_applyValue (ih : FlagsAt plan n) (busy : Nat) (f x : Value) (w : World) :
    Flags True Answer.isPure w (applyValue (eval plan n) busy f x w) := by
  cases f with
  | closure id captured body => exact (ih busy body (.overlay captured x) _).of_start rfl
  | writer id bit =>
    refine flags_of_call (.write bit) ?_ fun a ha ↦ by cases ha; rfl
    exact .write bit (.of_eq (w.streams_write bit))
  | reader id held =>
    rcases Plain.three_or_not held with ⟨zero, one, atEnd, rfl⟩ | hl
    · rw [applyValue_reader]
      refine flags_of_call (.read w.streams.read.1) ?_ fun a ha ↦ by cases ha; rfl
      exact .read (.of_eq w.streams_read)
    · rw [applyValue_reader_of_ne _ _ _ hl]
      exact flags_of_eq rfl fun a ha ↦ by cases ha; simp
  | probe id => exact flags_of_eq (w.streams_note rfl) fun a ha ↦ by cases ha; simp

/-- Applying answers goes on from their flags, whether or not the result is remembered. -/
theorem flags_applyAnswers (ih : FlagsAt plan n) (busy : Nat) (f a : Answer) (w : World) :
    Flags (bothPure (f, a) = true) Answer.isPure w (applyAnswers (eval plan n) busy f a w) := by
  cases hl : w.cache.lookup f.value a.value with
  | some r =>
    rw [applyAnswers, hl]
    exact flags_of_eq rfl fun _ h ↦ by cases h; rfl
  | none =>
    rw [applyAnswers_of_none _ _ hl]
    refine ((flags_applyValue ih busy f.value a.value w).guard (bothPure (f, a))).andThen ?_
    intro r w₁
    cases hp : (f.isPure && a.isPure && r.isPure) with
    | true => exact flags_of_eq rfl fun _ h ↦ by cases h; simp [bothPure, hp]
    | false => exact flags_of_eq rfl fun _ h ↦ by cases h; simp [bothPure, hp]

end Parts

/-- Every evaluation flags its answer, in whatever state it begins. -/
theorem flagsAt (plan : Plan) (n : Nat) : FlagsAt plan n := by
  induction n with
  | zero => exact fun _ _ _ _ ↦ flags_of_eq rfl (by simp [eval])
  | succ n ih =>
    intro busy e env w
    cases e with
    | slot id index =>
      rw [eval, step]
      cases env.get index <;> exact flags_of_eq rfl fun _ h ↦ by cases h <;> simp
    | lambda id captured body reads size =>
      cases hg : env.getAll captured with
      | ok values =>
        rw [eval_lambda _ _ _ _ _ _ _ hg]
        exact flags_of_eq rfl fun _ h ↦ by cases h; simp
      | error reason =>
        rw [eval, step, hg]
        exact flags_of_eq rfl (by simp)
    | apply id function argument reads size =>
      rw [eval_apply]
      exact (flags_operands ih busy _ function argument env w).andThen fun parts w₁ ↦
        flags_applyAnswers ih busy parts.1 parts.2 w₁

/-! ### Where remembered results come from -/

/-- The result was remembered when `c` began, or a call that `c` leads to came to the point where it
remembers it. -/
def Originates (plan : Plan) (c : Call) (key : Nat × Nat) (r : Value) : Prop :=
  c.w.cache.applications[key]? = some r ∨
    ∃ c' f a w, Reaches plan c c' ∧ c'.Stores plan f a r w ∧ key = (f.id, a.id)

/-- All results that are remembered originate in the call. -/
def AllOriginate (plan : Plan) (c : Call) (w : World) : Prop :=
  ∀ key r, w.cache.applications[key]? = some r → Originates plan c key r

section Origins

variable {plan : Plan} {c c' : Call}

theorem AllOriginate.of_tally {w w' : World} (he : w'.tally = w.tally) (h : AllOriginate plan c w) :
    AllOriginate plan c w' := by
  intro key r hk
  rw [show w'.cache.applications = w.cache.applications from congrArg Prod.snd he] at hk
  exact h key r hk

/-- Remembering a result is the only operation that adds one. -/
theorem stable_allOriginate (plan : Plan) (c : Call) :
    Stable (AllOriginate plan c) fun _ _ ↦ False where
  note _ _ _ h := h
  bump _ _ h := h
  countBody _ _ h := h
  nextFork _ h := h
  nextId _ h := h
  close w values body h := h.of_tally (w.tally_close values body)
  write _ _ _ _ hf := hf.elim
  read _ _ _ _ hf := hf.elim
  store _ _ _ _ hf := hf.elim

/-- Applying the answers to the parts of a call adds at most the result that the call stores. -/
theorem carries_allOriginate_applyAnswers (hr : Reaches plan c c') {n : Nat} (hn : c'.depth = n + 1)
    {f a : Answer} {w : World} (hp : c'.parts plan = some (.value (f, a), w)) :
    Carries plan (AllOriginate plan c) w (applyCalls n c'.busy f a w)
      (applyAnswers (eval plan n) c'.busy f a w) := by
  cases hl : w.cache.lookup f.value a.value with
  | some r =>
    rw [applyAnswers, applyCalls, hl]
    exact fun hw _ ↦ ⟨hw, by simp⟩
  | none =>
    rw [applyAnswers_of_none _ _ hl, applyCalls, hl]
    refine (carries_applyValue_of_tally (fun he hw ↦ hw.of_tally he) n c'.busy f.value a.value
      w).andReturn ?_
    intro r w₁ hv hw
    split
    · next isPure =>
      intro key v hk
      rcases Cache.store_entry hk with ⟨rfl, rfl⟩ | hk
      · obtain ⟨f, pureF⟩ := f
        obtain ⟨a, pureA⟩ := a
        obtain ⟨r, pureR⟩ := r
        simp only [Bool.and_eq_true] at isPure
        obtain ⟨⟨rfl, rfl⟩, rfl⟩ := isPure
        exact .inr ⟨c', f, a, w₁, hr, ⟨n, w, hn, hp, hl, hv⟩, rfl⟩
      · exact hw key v hk
    · exact hw

theorem carries_allOriginate (hr : Reaches plan c c') :
    Carries plan (AllOriginate plan c) c'.w (c'.asks plan) (c'.result plan) := by
  have stable := stable_allOriginate plan c
  refine carries_of_parts c' (stable.close c'.w)
    (fun _ _ _ ↦ carries_operands stable c'.busy c'.e) ?_
  intro n f a w hn hp
  exact carries_allOriginate_applyAnswers hr hn hp

/-- At every moment of a call, what is remembered originates in the call. -/
theorem allOriginate_moment {w : World} (h : Moment plan c w) : AllOriginate plan c w :=
  Carries.moment (fun _ hr ↦ carries_allOriginate hr) (fun _ _ hk ↦ .inl hk) h

end Origins

/-! ### Exact flags -/

/-- An answer was computed between two states. Its flag is set exactly if no stream was called in
between, and then the writer and the reader are as they were. -/
structure Exact (w : World) (r : Answer) (w' : World) : Prop where
  calls : ∃ calls, Between w.streams calls w'.streams ∧
    w'.streams.calls = w.streams.calls ++ calls ∧ (r.isPure = true ↔ calls = [])
  streams : r.isPure = true → w'.output = w.output ∧ w'.input = w.input

theorem Flags.exact {w w' : World} {r : Answer} (h : Flags True Answer.isPure w (.value r, w')) :
    Exact w r w' := by
  obtain ⟨calls, between, tells⟩ := h
  have tells := tells r rfl
  rw [true_and] at tells
  refine ⟨⟨calls, between, between.calls_eq, tells⟩, fun isPure ↦ ?_⟩
  rw [tells.mp isPure] at between
  exact ⟨congrArg Streams.output between.eq, congrArg Streams.input between.eq⟩

/-- A call that stores a result leaves the streams alone from its beginning to its end. -/
theorem Call.Stores.streams {plan : Plan} {c : Call} {f a r : Value} {w : World}
    (h : c.Stores plan f a r w) : (c.result plan).2.streams = c.w.streams := by
  obtain ⟨calls, between, tells⟩ := flagsAt plan c.depth c.busy c.e c.env c.w
  have isPure := tells _ (congrArg Prod.fst h.result)
  rw [(isPure.mp rfl).2] at between
  exact between.eq

end Eval

open Eval (Exact Moment Reaches)

/-- Under every plan, in every state, for every expression and environment: whenever evaluation
comes to an answer, its flag is set exactly if not a single bit was written or asked for since it
began, and the same holds of applying any value to any other. A set flag means that the writer and
the reader are as they were. At every moment of every run, each remembered result was stored by a
call that left the streams alone from its beginning to its end. -/
theorem purity_flag_exact (s : Session) :
    (∀ n busy e env w r w', eval s.plan n busy e env w = (.value r, w') → Exact w r w') ∧
      (∀ n busy f x w r w', Eval.applyValue (eval s.plan n) busy f x w = (.value r, w') →
        Exact w r w') ∧
      ∀ p c, s.start p = some c → ∀ w, Moment s.plan c w → ∀ (key : Nat × Nat) (r : Value),
        w.cache.applications[key]? = some r →
          ∃ c' f a w₁, Reaches s.plan c c' ∧ c'.Stores s.plan f a r w₁ ∧ key = (f.id, a.id) ∧
            (c'.result s.plan).2.streams = c'.w.streams := by
  refine ⟨?_, ?_, ?_⟩
  · intro n busy e env w r w' h
    have flags := Eval.flagsAt s.plan n busy e env w
    rw [h] at flags
    exact flags.exact
  · intro n busy f x w r w' h
    have flags := Eval.flags_applyValue (Eval.flagsAt s.plan n) busy f x w
    rw [h] at flags
    exact flags.exact
  · intro p c starts w moment key r hk
    rcases Eval.allOriginate_moment moment key r hk with begins | ⟨c', f, a, w₁, hr, stores, hkey⟩
    · rw [Session.applications_start starts] at begins
      simp at begins
    · exact ⟨c', f, a, w₁, hr, stores, hkey, stores.streams⟩

/-- The identity is applied to itself, which is remembered, and then a bit is written: the flag of
the whole is not set, but the call that remembered the result left the streams alone. -/
theorem purity_flag_exact_write :
    ∃ p last c r w', Program.compile (lit "t")
        (lit "(\\i (\\a __builtin_p1 a) (i i)) (\\x x)") 0 = .ok (p, last) ∧
      (({} : Session).atDepth 6).start p = some c ∧ c.result {} = (.value r, w') ∧
      r.isPure = false ∧ (∃ calls, Between c.w.streams calls w'.streams ∧ calls ≠ []) ∧
      ∃ c' f a v w₁, Reaches {} c c' ∧ c'.Stores {} f a v w₁ ∧ (5, 5) = (f.id, a.id) ∧
        (c'.result {}).2.streams = c'.w.streams := by
  obtain ⟨p, last, c, r, w', v, compiled, starts, result, flag, remembered⟩ :
      ∃ p last c r w' v, Program.compile (lit "t")
        (lit "(\\i (\\a __builtin_p1 a) (i i)) (\\x x)") 0 = .ok (p, last) ∧
      (({} : Session).atDepth 6).start p = some c ∧ c.result {} = (.value r, w') ∧
      r.isPure = false ∧ w'.cache.applications[((5, 5) : Nat × Nat)]? = some v :=
    ⟨_, _, _, _, _, _, by cbv, by cbv, by cbv, by cbv, by cbv⟩
  obtain ⟨flags, -, origins⟩ := purity_flag_exact (({} : Session).atDepth 6)
  have ends : Moment {} c w' := by
    have exit : Moment {} c (c.result {}).2 := .exit (.refl c)
    rwa [result] at exit
  refine ⟨p, last, c, r, w', compiled, starts, result, flag, ?_, ?_⟩
  · obtain ⟨calls, between, -, tells⟩ := (flags _ _ _ _ _ _ _ result).calls
    refine ⟨calls, between, fun none ↦ ?_⟩
    rw [tells.mpr none] at flag
    cases flag
  · obtain ⟨c', f, a, w₁, reaches, stores, key, streams⟩ :=
      origins p c starts w' ends (5, 5) v remembered
    exact ⟨c', f, a, v, w₁, reaches, stores, key, streams⟩

end BitCalculus
