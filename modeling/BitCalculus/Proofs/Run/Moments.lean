import BitCalculus.Proofs.Run.Simulation

/-!
# The moments of a run

A call passes through the states at the beginning and the end of every call it leads to. A property
of states that every operation on them keeps holds at all these moments; results are remembered only
for parts that were evaluated. The values that occur in a run are those in the slots and answers of
its calls and all that these are made of. Numbers identify them, and at every moment the cache is
sound for the values made so far.
-/

namespace BitCalculus

open Outcome (andThen)

namespace Cache

theorem applications_environment (c : Cache) (values : List Value) :
    (c.environment values).2.applications = c.applications := by
  unfold environment
  dsimp only
  split <;> rfl

theorem applications_closure (c : Cache) (env : Base) (body : Expr) :
    (c.closure env body).2.2.applications = c.applications := by
  unfold closure
  dsimp only
  split <;> rfl

/-- A result that is remembered after another one was stored is that one or was remembered before. -/
theorem store_entry {c : Cache} {f a r v : Value} {key : Nat × Nat}
    (h : (c.store f a r).2.applications[key]? = some v) :
    (key = (f.id, a.id) ∧ v = r) ∨ c.applications[key]? = some v := by
  unfold store at h
  dsimp only at h
  split at h
  · exact .inr h
  · rcases insert_cases h with ⟨hk, hv⟩ | h
    · exact .inl ⟨hk.symm, hv.symm⟩
    · exact .inr h

end Cache

/-- Closing a body remembers no result. -/
theorem World.applications_close (w : World) (values : List Value) (body : Expr) :
    (w.close values body).2.cache.applications = w.cache.applications :=
  (Cache.applications_closure _ _ _).trans (Cache.applications_environment _ _)

namespace Eval

/-- The state at the beginning or the end of a call that `c` leads to. Remembering a result is the
last thing that a call does, so no other state remembers anything else. -/
inductive Moment (plan : Plan) (c : Call) : World → Prop
  | entry {c' : Call} (h : Reaches plan c c') : Moment plan c c'.w
  | exit {c' : Call} (h : Reaches plan c c') : Moment plan c (c'.result plan).2

/-- What evaluating the parts of the expression of a call comes to, if it is an application and not
out of depth. -/
def Call.parts (plan : Plan) : Call → Option Operands
  | ⟨depth + 1, busy, .apply id function argument reads size, env, w⟩ =>
    some (operands plan (eval plan depth) busy (.apply id function argument reads size) function
      argument env w)
  | _ => none

/-- During `c` the answers `f` and `a` to the parts of an application are applied. -/
def Joins (plan : Plan) (c : Call) (f a : Answer) : Prop :=
  ∃ c' w, Reaches plan c c' ∧ c'.parts plan = some (.value (f, a), w)

/-! ### Properties that all operations keep -/

/-- A property of states that every operation keeps, as long as only the given functions are applied
to the given arguments: bits are written and read by applying writers and readers, and results are
remembered for what was applied. -/
structure Stable (I : World → Prop) (allows : Value → Value → Prop) : Prop where
  note : ∀ w event, event.streamCall? = none → I w → I (w.note event)
  bump : ∀ w counter, I w → I (w.bump counter)
  countBody : ∀ w id, I w → I (w.countBody id)
  nextFork : ∀ w, I w → I w.nextFork.2
  nextId : ∀ w, I w → I w.nextId.2
  close : ∀ w values body, I w → I (w.close values body).2
  write : ∀ w id bit a, allows (.writer id bit) a → I w → I (w.write bit)
  read : ∀ w id held a, allows (.reader id held) a → I w → I w.read.2
  store : ∀ w f a r, allows f a → I w → I (w.store f a r).2

/-- A part of a run that begins in `w` and makes the given calls carries the property along,
provided that its calls do: it ends with the property, and its calls begin with it. -/
def Carries {α : Type} (plan : Plan) (I : World → Prop) (w : World) (calls : List Call)
    (r : Outcome α × World) : Prop :=
  I w → (∀ c ∈ calls, I c.w → I (c.result plan).2) → I r.2 ∧ ∀ c ∈ calls, I c.w

section Carries

variable {α β : Type} {plan : Plan} {I : World → Prop} {allows : Value → Value → Prop}
variable {n : Nat} {function argument : Expr} {env : Env} {w : World}

theorem carries_call (c : Call) : Carries plan I c.w [c] (c.result plan) := by
  intro hw hc
  refine ⟨hc c List.mem_cons_self hw, fun c' hm ↦ ?_⟩
  rw [List.mem_singleton.mp hm]
  exact hw

theorem Carries.andThen {calls : List Call} {first : Outcome α × World}
    {next : α → World → Outcome β × World} (hf : Carries plan I w calls first)
    (nextCalls : α → World → List Call)
    (hn : ∀ a w', first = (.value a, w') → Carries plan I w' (nextCalls a w') (next a w')) :
    Carries plan I w (calls ++ followUps first nextCalls) (andThen first next) := by
  intro hw hc
  obtain ⟨hr, hb⟩ := hf hw fun c hm ↦ hc c (List.mem_append_left _ hm)
  rcases first with ⟨a | reason | _, w'⟩
  · obtain ⟨hr', hb'⟩ := hn a w' rfl hr fun c hm ↦ hc c (List.mem_append_right _ hm)
    refine ⟨hr', fun c hm ↦ ?_⟩
    rcases List.mem_append.mp hm with hm | hm
    · exact hb c hm
    · exact hb' c hm
  · exact ⟨hr, by simpa [followUps] using hb⟩
  · exact ⟨hr, by simpa [followUps] using hb⟩

theorem Carries.andReturn {calls : List Call} {first : Outcome α × World}
    {next : α → World → Outcome β × World} (hf : Carries plan I w calls first)
    (hn : ∀ a w', first = (.value a, w') → I w' → I (next a w').2) :
    Carries plan I w calls (Outcome.andThen first next) := by
  intro hw hc
  obtain ⟨hr, hb⟩ := hf hw hc
  refine ⟨?_, hb⟩
  rcases first with ⟨a | reason | _, w'⟩
  · exact hn a w' rfl hr
  · exact hr
  · exact hr

theorem carries_inTurn (busy : Nat) :
    Carries plan I w (inTurnCalls plan n busy function argument env w)
      (inTurn (eval plan n) busy function argument env w) := by
  rw [inTurn_eq]
  refine (carries_call ⟨n, busy, function, env, w⟩).andThen
    (fun _ w ↦ [⟨n, busy, argument, env, w⟩]) fun f w₁ _ ↦ ?_
  exact (carries_call ⟨n, busy, argument, env, w₁⟩).andReturn fun _ _ _ h ↦ h

theorem carries_forked (stable : Stable I allows) (busy number : Nat) :
    Carries plan I w [⟨n, busy, argument, env, w.note (.forkBegan number)⟩]
      (forked (eval plan n) busy number argument env w) := by
  rw [forked_eq]
  intro hw
  have hb := stable.note w (.forkBegan number) rfl hw
  refine (carries_call ⟨n, busy, argument, env, w.note (.forkBegan number)⟩).andReturn ?_ hb
  exact fun _ w' _ h ↦ stable.note w' (.forkEnded number) rfl h

theorem carries_sideBySide (stable : Stable I allows) (order : Order) (busy number : Nat) :
    Carries plan I w (sideBySideCalls plan n order busy number function argument env w)
      (sideBySide (eval plan n) order busy number function argument env w) := by
  cases order with
  | functionFirst =>
    rw [sideBySide_functionFirst]
    refine (carries_call ⟨n, busy, function, env, w⟩).andThen
      (fun _ w ↦ [⟨n, busy, argument, env, w.note (.forkBegan number)⟩]) fun f w₁ _ ↦ ?_
    exact (carries_forked stable busy number).andReturn fun _ _ _ h ↦ h
  | argumentFirst =>
    have forkedA : Carries plan I w [⟨n, busy, argument, env, w.note (.forkBegan number)⟩]
        (forked (eval plan n) busy number argument env w) := carries_forked stable busy number
    rw [sideBySide_argumentFirst, sideBySideCalls]
    intro hw hc
    obtain ⟨hr, hb⟩ := forkedA hw fun c hm ↦ hc c (List.mem_cons.mpr (.inl (by simpa using hm)))
    have hb := hb _ List.mem_cons_self
    rcases hf : forked (eval plan n) busy number argument env w with ⟨a | reason | _, w₁⟩
    · rw [hf] at hr hc
      have he := hc ⟨n, busy, function, env, w₁⟩ (List.mem_cons_of_mem _ List.mem_cons_self) hr
      refine ⟨Outcome.andThen_state he fun _ _ h ↦ h, ?_⟩
      simpa using ⟨hb, hr⟩
    · rw [hf] at hr hc
      have he := hc ⟨n, busy, function, env, w₁⟩ (List.mem_cons_of_mem _ List.mem_cons_self) hr
      refine ⟨Outcome.andThen_state he fun _ _ h ↦ h, ?_⟩
      simpa using ⟨hb, hr⟩
    · rw [hf] at hr
      exact ⟨hr, by simpa using hb⟩

theorem carries_operands (stable : Stable I allows) (busy : Nat) (e : Expr) :
    Carries plan I w (operandCalls plan n busy e function argument env w)
      (operands plan (eval plan n) busy e function argument env w) := by
  unfold operands operandCalls
  cases plan.strategy with
  | sequential => exact carries_inTurn busy
  | parallel workers minForkSize =>
    dsimp only
    cases Strategy.forkable minForkSize env e with
    | error reason => exact fun hw _ ↦ ⟨hw, by simp⟩
    | ok forkable =>
      cases forkable with
      | false => exact carries_inTurn busy
      | true =>
        dsimp only
        by_cases free : Strategy.hasWorker workers busy = true
        · rw [if_pos free, if_pos free]
          intro hw
          exact carries_sideBySide stable _ _ _ (stable.nextFork _ (stable.bump w .forks hw))
        · rw [if_neg free, if_neg free]
          intro hw
          exact carries_inTurn busy (stable.bump w .forksDeclined hw)

theorem carries_applyValue (stable : Stable I allows) (busy : Nat) {f a : Value}
    (ha : allows f a) :
    Carries plan I w (bodyCalls n busy f a w) (applyValue (eval plan n) busy f a w) := by
  cases f with
  | closure id captured body =>
    intro hw
    exact carries_call ⟨n, busy, body, .overlay captured a, w.countBody body.id⟩
      (stable.countBody w body.id hw)
  | writer id bit => exact fun hw _ ↦ ⟨stable.write w id bit a ha hw, by simp [bodyCalls]⟩
  | reader id held =>
    rcases Plain.three_or_not held with ⟨zero, one, atEnd, rfl⟩ | hl
    · rw [applyValue_reader]
      exact fun hw _ ↦ ⟨stable.read w id _ a ha hw, by simp [bodyCalls]⟩
    · rw [applyValue_reader_of_ne _ _ _ hl]
      exact fun hw _ ↦ ⟨stable.nextId w hw, by simp [bodyCalls]⟩
  | probe id => exact fun hw _ ↦ ⟨stable.note w (.probed a) rfl hw, by simp [bodyCalls]⟩

theorem carries_applyAnswers (stable : Stable I allows) (busy : Nat) {f a : Answer}
    (ha : allows f.value a.value) :
    Carries plan I w (applyCalls n busy f a w) (applyAnswers (eval plan n) busy f a w) := by
  cases hl : w.cache.lookup f.value a.value with
  | some r =>
    rw [applyAnswers, applyCalls, hl]
    exact fun hw _ ↦ ⟨stable.bump w .applyHits hw, by simp⟩
  | none =>
    rw [applyAnswers_of_none _ _ hl, applyCalls, hl]
    refine (carries_applyValue stable busy ha).andReturn fun r w₁ _ hw ↦ ?_
    split
    · exact stable.store _ _ _ _ ha (stable.bump w₁ .applyMisses hw)
    · exact stable.bump w₁ .applyUncached hw

/-- A call carries a property along if closing bodies keeps it and if evaluating parts and applying
their answers carry it along. -/
theorem carries_of_parts (c : Call) (close : ∀ values body, I c.w → I (c.w.close values body).2)
    (parts : ∀ n function argument, Carries plan I c.w
      (operandCalls plan n c.busy c.e function argument c.env c.w)
      (operands plan (eval plan n) c.busy c.e function argument c.env c.w))
    (apply : ∀ n f a w, c.depth = n + 1 → c.parts plan = some (.value (f, a), w) →
      Carries plan I w (applyCalls n c.busy f a w) (applyAnswers (eval plan n) c.busy f a w)) :
    Carries plan I c.w (c.asks plan) (c.result plan) := by
  obtain ⟨depth, busy, e, env, w⟩ := c
  cases depth with
  | zero => exact fun hw _ ↦ ⟨hw, by simp [Call.asks]⟩
  | succ n =>
    cases e with
    | slot id index =>
      refine fun hw _ ↦ ⟨?_, by simp [Call.asks]⟩
      rw [Call.result, eval, step]
      cases env.get index <;> exact hw
    | lambda id captured body reads size =>
      refine fun hw _ ↦ ⟨?_, by simp [Call.asks]⟩
      cases hg : env.getAll captured with
      | ok values =>
        rw [Call.result, eval_lambda _ _ _ _ _ _ _ hg]
        exact close values body hw
      | error reason =>
        rw [Call.result, eval, step, hg]
        exact hw
    | apply id function argument reads size =>
      rw [Call.result, eval_apply]
      refine (parts n function argument).andThen
        (fun parts w ↦ applyCalls n busy parts.1 parts.2 w) fun answers w₁ hp ↦ ?_
      exact apply n answers.1 answers.2 w₁ rfl (congrArg some hp)

/-- A call carries a stable property along if it may apply what it joins. -/
theorem carries_asks (stable : Stable I allows) (c : Call)
    (hs : ∀ f a, Joins plan c f a → allows f.value a.value) :
    Carries plan I c.w (c.asks plan) (c.result plan) := by
  refine carries_of_parts c (stable.close c.w) (fun _ _ _ ↦ carries_operands stable c.busy c.e) ?_
  intro n f a w _ hp
  exact carries_applyAnswers stable c.busy (hs f a ⟨c, w, .refl c, hp⟩)

end Carries

/-! ### The calls that a call makes -/

section Asks

variable {plan : Plan} {n : Nat} {function argument : Expr} {env : Env} {w : World} {c : Call}

/-- The call evaluates one of two expressions in the given environment to the given depth. -/
private def IsPart (n : Nat) (function argument : Expr) (env : Env) (c : Call) : Prop :=
  c.depth = n ∧ c.env = env ∧ (c.e = function ∨ c.e = argument)

private theorem isPart_followUps {α : Type} {first : Outcome α × World}
    {next : α → World → List Call}
    (hn : ∀ a w, ∀ c ∈ next a w, IsPart n function argument env c)
    (h : c ∈ followUps first next) : IsPart n function argument env c := by
  rcases first with ⟨a | reason | _, w'⟩
  · exact hn a w' c h
  · cases h
  · cases h

private theorem isPart_inTurnCalls {busy : Nat}
    (h : c ∈ inTurnCalls plan n busy function argument env w) :
    IsPart n function argument env c := by
  rcases List.mem_cons.mp h with rfl | h
  · exact ⟨rfl, rfl, .inl rfl⟩
  · refine isPart_followUps (fun _ _ c hc ↦ ?_) h
    rw [List.mem_singleton.mp hc]
    exact ⟨rfl, rfl, .inr rfl⟩

private theorem isPart_sideBySideCalls {order : Order} {busy number : Nat}
    (h : c ∈ sideBySideCalls plan n order busy number function argument env w) :
    IsPart n function argument env c := by
  cases order with
  | functionFirst =>
    rcases List.mem_cons.mp h with rfl | h
    · exact ⟨rfl, rfl, .inl rfl⟩
    · refine isPart_followUps (fun _ _ c hc ↦ ?_) h
      rw [List.mem_singleton.mp hc]
      exact ⟨rfl, rfl, .inr rfl⟩
  | argumentFirst =>
    rcases List.mem_cons.mp h with rfl | h
    · exact ⟨rfl, rfl, .inr rfl⟩
    · split at h
      · rw [List.mem_singleton.mp h]
        exact ⟨rfl, rfl, .inl rfl⟩
      · rw [List.mem_singleton.mp h]
        exact ⟨rfl, rfl, .inl rfl⟩
      · cases h

private theorem isPart_operandCalls {busy : Nat} {e : Expr}
    (h : c ∈ operandCalls plan n busy e function argument env w) :
    IsPart n function argument env c := by
  unfold operandCalls at h
  split at h
  · exact isPart_inTurnCalls h
  · split at h
    · cases h
    · exact isPart_inTurnCalls h
    · split at h
      · exact isPart_sideBySideCalls h
      · exact isPart_inTurnCalls h

private theorem isBody_applyCalls {busy : Nat} {f a : Answer} (h : c ∈ applyCalls n busy f a w) :
    c.depth = n ∧ ∃ i captured, f.value = .closure i captured c.e ∧
      c.env = .overlay captured a.value := by
  unfold applyCalls bodyCalls at h
  split at h
  · cases h
  · split at h
    · next i captured body hf =>
      rw [List.mem_singleton.mp h]
      exact ⟨rfl, i, captured, hf, rfl⟩
    · cases h

/-- A call that makes calls is that of an application. The calls that it makes have one level of
depth less and evaluate its parts, or the body of the closure that its function came to. -/
theorem asks_cases {c' : Call} (h : c' ∈ c.asks plan) :
    c.depth = c'.depth + 1 ∧ ∃ id function argument reads size,
      c.e = .apply id function argument reads size ∧
        ((c'.env = c.env ∧ (c'.e = function ∨ c'.e = argument)) ∨
          ∃ f a w i captured, c.parts plan = some (.value (f, a), w) ∧
            f.value = .closure i captured c'.e ∧ c'.env = .overlay captured a.value) := by
  unfold Call.asks at h
  split at h
  · next n busy id function argument reads size env w =>
    rcases List.mem_append.mp h with h | h
    · obtain ⟨hd, he, hp⟩ := isPart_operandCalls h
      exact ⟨by rw [hd], id, function, argument, reads, size, rfl, .inl ⟨he, hp⟩⟩
    · rcases hr : operands plan (eval plan n) busy (.apply id function argument reads size) function
        argument env w with ⟨⟨f, a⟩ | reason | _, w₁⟩
      · rw [hr] at h
        obtain ⟨hd, i, captured, hf, he⟩ := isBody_applyCalls h
        refine ⟨by rw [hd], id, function, argument, reads, size, rfl, .inr ?_⟩
        exact ⟨f, a, w₁, i, captured, congrArg some hr, hf, he⟩
      · rw [hr] at h
        cases h
      · rw [hr] at h
        cases h
  · cases h

/-- The answers to the parts of a call that begins in order are registered and agree with plain
evaluation. -/
theorem Ready.parts {F : NodeFamily} {R : Registry F} (ready : Ready R c) {f a : Answer}
    {w' : World} (hp : c.parts plan = some (.value (f, a), w')) :
    ∃ id function argument reads size R', c.e = .apply id function argument reads size ∧ R ≤ R' ∧
      w'.cache.Sound R' ∧ PartsAnswered function argument c.env c.w.streams R' (f, a) w' := by
  obtain ⟨depth, busy, e, env, w⟩ := c
  unfold Call.parts at hp
  split at hp
  · next n _ id function argument reads size _ _ he =>
    cases he
    obtain ⟨R', le, sound, -, meets, -⟩ :=
      settles_operands (settlesAt plan n) busy ready.admitted ready.env ready.cache
    rw [Option.some.inj hp] at sound meets
    exact ⟨id, function, argument, reads, size, R', rfl, le, sound, meets⟩
  · cases hp

end Asks

section Moments

variable {plan : Plan} {I : World → Prop} {allows : Value → Value → Prop}

theorem Joins.of_reaches {c c' : Call} (hr : Reaches plan c c') {f a : Answer}
    (h : Joins plan c' f a) : Joins plan c f a := by
  obtain ⟨c'', w, hr', hp⟩ := h
  exact ⟨c'', w, hr.trans hr', hp⟩

/-- If all calls that a call leads to carry a property along, it ends with the property and the
calls that it makes begin with it. -/
theorem Carries.result {c : Call}
    (carries : ∀ c', Reaches plan c c' → Carries plan I c'.w (c'.asks plan) (c'.result plan))
    (hw : I c.w) : I (c.result plan).2 ∧ ∀ c' ∈ c.asks plan, I c'.w := by
  induction hn : c.depth generalizing c with
  | zero =>
    refine carries c (.refl c) hw fun c' hm ↦ ?_
    have := (asks_cases hm).1
    omega
  | succ n ih =>
    refine carries c (.refl c) hw fun c' hm hw' ↦ ?_
    have hd := (asks_cases hm).1
    exact (ih (fun c'' hr ↦ carries c'' (.step hm hr)) hw' (by omega)).1

/-- If all calls that a call leads to carry a property along, they all begin with it. -/
theorem Carries.reaches {c c' : Call}
    (carries : ∀ c', Reaches plan c c' → Carries plan I c'.w (c'.asks plan) (c'.result plan))
    (hw : I c.w) (hr : Reaches plan c c') : I c'.w := by
  induction hr with
  | refl c => exact hw
  | step hm _ ih =>
    exact ih (fun c'' hr ↦ carries c'' (.step hm hr)) ((Carries.result carries hw).2 _ hm)

/-- If all calls that a call leads to carry a property along, it holds at all moments. -/
theorem Carries.moment {c : Call}
    (carries : ∀ c', Reaches plan c c' → Carries plan I c'.w (c'.asks plan) (c'.result plan))
    (hw : I c.w) {w : World} (h : Moment plan c w) : I w := by
  cases h with
  | entry hr => exact Carries.reaches carries hw hr
  | exit hr =>
    have begins := Carries.reaches carries hw hr
    exact (Carries.result (fun c'' hr' ↦ carries c'' (hr.trans hr')) begins).1

/-- A call keeps a stable property if it may apply what it joins. -/
theorem Stable.result (stable : Stable I allows) (c : Call)
    (hs : ∀ f a, Joins plan c f a → allows f.value a.value) (hw : I c.w) :
    I (c.result plan).2 ∧ ∀ c' ∈ c.asks plan, I c'.w :=
  Carries.result (fun c' hr ↦ carries_asks stable c' fun f a hj ↦ hs f a (hj.of_reaches hr)) hw

/-- A stable property holds at all moments of a call that begins with it and may apply what it
joins. -/
theorem Stable.moment (stable : Stable I allows) {c : Call}
    (hs : ∀ f a, Joins plan c f a → allows f.value a.value) (hw : I c.w) {w : World}
    (h : Moment plan c w) : I w :=
  Carries.moment (fun c' hr ↦ carries_asks stable c' fun f a hj ↦ hs f a (hj.of_reaches hr)) hw h

end Moments

/-! ### The values that occur in a run -/

/-- The values in the slots and the answers of the calls that `c` leads to, and all values that they
are made of. -/
inductive Occurs (plan : Plan) (c : Call) : Value → Prop
  | slot {c' : Call} {i : Int} {v : Value} (h : Reaches plan c c') (hv : c'.env.get i = .ok v) :
    Occurs plan c v
  | answer {c' : Call} {a : Answer} (h : Reaches plan c c')
    (ha : (c'.result plan).1 = .value a) : Occurs plan c a.value
  | captured {id : Nat} {env : Base} {body : Expr} {v : Value}
    (h : Occurs plan c (.closure id env body)) (hv : v ∈ env.values) : Occurs plan c v
  | held {id : Nat} {held : List Value} {v : Value} (h : Occurs plan c (.reader id held))
    (hv : v ∈ held) : Occurs plan c v

/-- The environments of the calls that `c` leads to and of the closures that occur. -/
inductive OccursBase (plan : Plan) (c : Call) : Base → Prop
  | base {c' : Call} {b : Base} (h : Reaches plan c c') (hb : c'.env = .base b) :
    OccursBase plan c b
  | overlay {c' : Call} {b : Base} {v : Value} (h : Reaches plan c c')
    (hb : c'.env = .overlay b v) : OccursBase plan c b
  | closure {id : Nat} {env : Base} {body : Expr} (h : Occurs plan c (.closure id env body)) :
    OccursBase plan c env

section Parts

variable {plan : Plan} {n : Nat} {function argument : Expr} {env : Env} {w w' : World}
variable {f a : Answer}

theorem exists_calls_of_inTurn {busy : Nat}
    (h : inTurn (eval plan n) busy function argument env w = (.value (f, a), w')) :
    ∃ cf ∈ inTurnCalls plan n busy function argument env w,
      ∃ ca ∈ inTurnCalls plan n busy function argument env w,
        (cf.result plan).1 = .value f ∧ (ca.result plan).1 = .value a := by
  rw [inTurn_eq, Outcome.andThen_eq_value] at h
  obtain ⟨f', w₁, hf, h⟩ := h
  obtain ⟨a', w₂, ha, h⟩ := Outcome.andThen_eq_value.mp h
  cases h
  refine ⟨⟨n, busy, function, env, w⟩, List.mem_cons_self, ⟨n, busy, argument, env, w₁⟩, ?_, ?_, ?_⟩
  · rw [inTurnCalls, hf]
    exact List.mem_cons_of_mem _ List.mem_cons_self
  · rw [Call.result, hf]
  · rw [Call.result, ha]

theorem exists_call_of_forked {busy number : Nat}
    (h : forked (eval plan n) busy number argument env w = (.value a, w')) :
    (Call.result plan ⟨n, busy, argument, env, w.note (.forkBegan number)⟩).1 = .value a := by
  rw [forked_eq, Outcome.andThen_eq_value] at h
  obtain ⟨a', w₁, ha, h⟩ := h
  cases h
  rw [Call.result, ha]

theorem exists_calls_of_sideBySide {order : Order} {busy number : Nat}
    (h : sideBySide (eval plan n) order busy number function argument env w = (.value (f, a), w')) :
    ∃ cf ∈ sideBySideCalls plan n order busy number function argument env w,
      ∃ ca ∈ sideBySideCalls plan n order busy number function argument env w,
        (cf.result plan).1 = .value f ∧ (ca.result plan).1 = .value a := by
  cases order with
  | functionFirst =>
    rw [sideBySide_functionFirst, Outcome.andThen_eq_value] at h
    obtain ⟨f', w₁, hf, h⟩ := h
    obtain ⟨a', w₂, ha, h⟩ := Outcome.andThen_eq_value.mp h
    cases h
    refine ⟨⟨n, busy, function, env, w⟩, List.mem_cons_self,
      ⟨n, busy, argument, env, w₁.note (.forkBegan number)⟩, ?_, ?_, exists_call_of_forked ha⟩
    · rw [sideBySideCalls, hf]
      exact List.mem_cons_of_mem _ List.mem_cons_self
    · rw [Call.result, hf]
  | argumentFirst =>
    rw [sideBySide_argumentFirst] at h
    rw [sideBySideCalls]
    rcases hf : forked (eval plan n) busy number argument env w with ⟨a' | reason | _, w₁⟩
    · rw [hf] at h
      obtain ⟨f', w₂, hv, h⟩ := Outcome.andThen_eq_value.mp h
      cases h
      refine ⟨⟨n, busy, function, env, w₁⟩, List.mem_cons_of_mem _ List.mem_cons_self,
        _, List.mem_cons_self, ?_, exists_call_of_forked hf⟩
      rw [Call.result, hv]
    · rw [hf] at h
      obtain ⟨f', w₂, hv, h⟩ := Outcome.andThen_eq_value.mp h
      cases h
    · rw [hf] at h
      cases h

/-- The answers to the parts of an application are answers to calls that it makes. -/
theorem exists_calls_of_operands {busy : Nat} {e : Expr}
    (h : operands plan (eval plan n) busy e function argument env w = (.value (f, a), w')) :
    ∃ cf ∈ operandCalls plan n busy e function argument env w,
      ∃ ca ∈ operandCalls plan n busy e function argument env w,
        (cf.result plan).1 = .value f ∧ (ca.result plan).1 = .value a := by
  unfold operands at h
  unfold operandCalls
  cases hs : plan.strategy with
  | sequential =>
    rw [hs] at h
    exact exists_calls_of_inTurn h
  | parallel workers minForkSize =>
    rw [hs] at h
    dsimp only at h ⊢
    cases hk : Strategy.forkable minForkSize env e with
    | error reason =>
      rw [hk] at h
      cases h
    | ok forkable =>
      rw [hk] at h
      cases forkable with
      | false => exact exists_calls_of_inTurn h
      | true =>
        dsimp only at h ⊢
        by_cases free : Strategy.hasWorker workers busy = true
        · rw [if_pos free] at h ⊢
          exact exists_calls_of_sideBySide h
        · rw [if_neg free] at h ⊢
          exact exists_calls_of_inTurn h

end Parts

/-- What a call joins are values that occur in it. -/
theorem Joins.occurs {plan : Plan} {c : Call} {f a : Answer} (h : Joins plan c f a) :
    Occurs plan c f.value ∧ Occurs plan c a.value := by
  obtain ⟨c', w, hr, hp⟩ := h
  have trans {d d' : Call} (hr : Reaches plan c d) (hm : d' ∈ d.asks plan) : Reaches plan c d' :=
    hr.trans (.step hm (.refl _))
  unfold Call.parts at hp
  split at hp
  · obtain ⟨cf, hf, ca, ha, hvf, hva⟩ := exists_calls_of_operands (Option.some.inj hp)
    exact ⟨.answer (trans hr (List.mem_append_left _ hf)) hvf,
      .answer (trans hr (List.mem_append_left _ ha)) hva⟩
  · cases hp

section Spans

variable {F : NodeFamily} {plan : Plan} {R R' : Registry F} {c : Call}

/-- What calls that begin in order pass on to the calls that they make reaches all calls. -/
theorem Spans.along {P : Call → Prop} (h : Spans plan R R' c)
    (passes : ∀ (R₁ : Registry F) (c₁ c₂ : Call), Ready R₁ c₁ → P c₁ → c₂ ∈ c₁.asks plan → P c₂)
    (hc : P c) {c' : Call} (hr : Reaches plan c c') : P c' := by
  induction hr with
  | refl c => exact hc
  | step hm _ ih =>
    obtain ⟨R₁, R₂, -, -, -, ready, -⟩ := h _ (.refl _)
    exact ih (h.of_reaches (.step hm (.refl _))) (passes R₁ _ _ ready hc hm)

/-- The values that occur in a call are registered at its end. -/
theorem Spans.occurs (h : Spans plan R R' c) {v : Value} (hv : Occurs plan c v) : R'.Holds v := by
  induction hv with
  | slot hr hv =>
    obtain ⟨R₁, R₂, -, le, le', ready, -⟩ := h _ hr
    exact (ready.env.get hv).mono (Registry.le_trans le le')
  | answer hr ha =>
    obtain ⟨R₁, R₂, -, -, le, -, done⟩ := h _ hr
    have outcome := done.outcome
    rw [ha] at outcome
    exact outcome.1.mono le
  | captured _ hv ih =>
    obtain ⟨hb, -⟩ := R'.closure ih
    exact R'.values hb _ hv
  | held _ hv ih => exact R'.held ih _ hv

/-- The environments that occur in a call are registered at its end. -/
theorem Spans.occursBase (h : Spans plan R R' c) {b : Base} (hb : OccursBase plan c b) :
    R'.HoldsBase b := by
  cases hb with
  | base hr hb =>
    obtain ⟨R₁, R₂, -, le, le', ready, -⟩ := h _ hr
    have env := ready.env
    rw [hb] at env
    exact Registry.HoldsBase.mono env (Registry.le_trans le le')
  | overlay hr hb =>
    obtain ⟨R₁, R₂, -, le, le', ready, -⟩ := h _ hr
    have env := ready.env
    rw [hb] at env
    exact Registry.HoldsBase.mono env.1 (Registry.le_trans le le')
  | closure hv => exact (R'.closure (h.occurs hv)).1

/-- At every moment of a call the cache is sound for what was registered by then. -/
theorem Spans.moment (h : Spans plan R R' c) {w : World} (hw : Moment plan c w) :
    ∃ R₁, R₁ ≤ R' ∧ w.cache.Sound R₁ := by
  cases hw with
  | entry hr =>
    obtain ⟨R₁, R₂, -, le, le', ready, -⟩ := h _ hr
    exact ⟨R₁, Registry.le_trans le le', ready.cache⟩
  | exit hr =>
    obtain ⟨R₁, R₂, -, -, le, -, done⟩ := h _ hr
    exact ⟨R₂, le, done.cache⟩

end Spans

/-! ### Remembered results -/

/-- Results are remembered only for the given functions and arguments. -/
def Remembers (allows : Value → Value → Prop) (w : World) : Prop :=
  ∀ (key : Nat × Nat) (r : Value), w.cache.applications[key]? = some r →
    ∃ f a, allows f a ∧ key = (f.id, a.id)

theorem stable_remembers (allows : Value → Value → Prop) :
    Stable (Remembers allows) allows where
  note _ _ _ h := h
  bump _ _ h := h
  countBody _ _ h := h
  nextFork _ h := h
  nextId _ h := h
  write _ _ _ _ _ h := h
  read _ _ _ _ _ h := h
  close w values body h := by rwa [Remembers, w.applications_close]
  store w f a r hs h := by
    intro key v hk
    rcases Cache.store_entry hk with ⟨rfl, -⟩ | hk
    · exact ⟨f, a, hs, rfl⟩
    · exact h key v hk

section Entries

variable {F : NodeFamily} {plan : Plan} {R R' : Registry F} {c : Call}

/-- Numbers identify the values that occur in a call. -/
theorem Spans.id_inj (h : Spans plan R R' c) {v v' : Value} (hv : Occurs plan c v)
    (hv' : Occurs plan c v') (hid : v.id = v'.id) : v = v' :=
  (h.occurs hv).unique (h.occurs hv') hid

/-- At every moment of a call that begins with nothing remembered, a remembered result belongs to
values that occur in the call, and executing them comes to it without a stream call. -/
theorem Spans.entry (h : Spans plan R R' c) (hc : c.w.cache.applications = {}) {w : World}
    (hw : Moment plan c w) {key : Nat × Nat} {r : Value}
    (hk : w.cache.applications[key]? = some r) :
    ∃ f a, Occurs plan c f ∧ Occurs plan c a ∧ key = (f.id, a.id) ∧
      Plain.Quiet f.erase a.erase r.erase := by
  have remembers := (stable_remembers fun f a ↦ Occurs plan c f ∧ Occurs plan c a).moment
    (fun f a hj ↦ hj.occurs) (by simp [Remembers, hc]) hw
  obtain ⟨f, a, ⟨hf, ha⟩, rfl⟩ := remembers key r hk
  obtain ⟨R₁, le, sound⟩ := h.moment hw
  obtain ⟨-, f', a', hf', ha', he, quiet⟩ := sound.applications _ r hk
  obtain ⟨hef, hea⟩ := Prod.mk.inj he
  rw [← (h.occurs hf).unique (hf'.mono le) hef, ← (h.occurs ha).unique (ha'.mono le) hea] at quiet
  exact ⟨f, a, hf, ha, rfl, quiet⟩

end Entries

end Eval

end BitCalculus
