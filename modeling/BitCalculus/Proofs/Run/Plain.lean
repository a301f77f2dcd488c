import BitCalculus.Run.Eval
import BitCalculus.Proofs.Graph.Nodes

/-!
# Plain evaluation

Evaluation without a cache: values have no numbers, every application is executed, and all that is
left of a run's state are its streams. More depth never changes a result, a result that was reached
without a stream call is reached the same way on any streams, and an expression whose slots hold
nothing effectful calls no stream.
-/

namespace BitCalculus

namespace Outcome

variable {α β σ : Type}

/-- Goes on with the result of a first part; a fault or a lack of depth is final. -/
def andThen (first : Outcome α × σ) (next : α → σ → Outcome β × σ) : Outcome β × σ :=
  match first with
  | (.value a, s) => next a s
  | (.fault reason, s) => (.fault reason, s)
  | (.outOfDepth, s) => (.outOfDepth, s)

/-- Two parts come to a value exactly if the first comes to one and the second to it from there. -/
theorem andThen_eq_value {first : Outcome α × σ} {next : α → σ → Outcome β × σ} {b : β} {s' : σ} :
    andThen first next = (.value b, s') ↔
      ∃ a s, first = (.value a, s) ∧ next a s = (.value b, s') := by
  rcases first with ⟨outcome, s⟩
  cases outcome with
  | value a =>
    constructor
    · intro h
      exact ⟨a, s, rfl, h⟩
    · rintro ⟨a', s', he, h⟩
      cases he
      exact h
  | fault reason => simp [andThen]
  | outOfDepth => simp [andThen]

/-- A property of states that both parts keep is kept by the whole. -/
theorem andThen_state {first : Outcome α × σ} {next : α → σ → Outcome β × σ} {P : σ → Prop}
    (hf : P first.2) (hn : ∀ a s, P s → P (next a s).2) : P (andThen first next).2 := by
  rcases first with ⟨outcome, s⟩
  cases outcome with
  | value a => exact hn a s hf
  | fault reason => exact hf
  | outOfDepth => exact hf

/-- What an outcome promises: a value satisfies `P`, and a fault shows that it was not `safe`. -/
def Meets (P : α → Prop) (safe : Prop) : Outcome α → Prop
  | .value a => P a
  | .fault _ => ¬ safe
  | .outOfDepth => True

/-- Promises of two parts make a promise of the whole. -/
theorem andThen_meets {first : Outcome α × σ} {next : α → σ → Outcome β × σ} {P : α → Prop}
    {Q : β → Prop} {safe : Prop} (hf : first.1.Meets P safe)
    (hn : ∀ a, P a → (next a first.2).1.Meets Q safe) : (andThen first next).1.Meets Q safe := by
  rcases first with ⟨outcome, s⟩
  cases outcome with
  | value a => exact hn a hf
  | fault reason => exact hf
  | outOfDepth => trivial

end Outcome

open Outcome (andThen andThen_eq_value andThen_state andThen_meets)

/-- A call of a stream: a bit is written, or a bit is asked for and delivered or not. -/
inductive StreamCall where
  | write (bit : Bool)
  | read (bit : Option Bool)
deriving DecidableEq

/-- The two bit streams and the calls made to them so far. -/
structure Streams where
  output : Bits.Writer
  input : Bits.Reader
  calls : List StreamCall := []

namespace Streams

/-- Writes a bit. -/
def write (s : Streams) (bit : Bool) : Streams :=
  { s with output := (s.output.write bit).2, calls := s.calls ++ [.write bit] }

/-- Reads a bit. -/
def read (s : Streams) : Option Bool × Streams :=
  (s.input.read.1, { s with input := s.input.read.2, calls := s.calls ++ [.read s.input.read.1] })

/-- Reads a bit and picks a continuation: for a zero, for a one, or for the end of the input. -/
def pick {α : Type} (s : Streams) (zero one atEnd : α) : α × Streams :=
  match s.read with
  | (some false, s) => (zero, s)
  | (some true, s) => (one, s)
  | (none, s) => (atEnd, s)

theorem calls_write (s : Streams) (bit : Bool) : (s.write bit).calls = s.calls ++ [.write bit] :=
  rfl

theorem pick_snd {α : Type} (s : Streams) (zero one atEnd : α) :
    (s.pick zero one atEnd).2 = s.read.2 := by
  unfold pick
  split <;> next h => rw [h]

theorem calls_pick {α : Type} (s : Streams) (zero one atEnd : α) :
    (s.pick zero one atEnd).2.calls = s.calls ++ [.read s.input.read.1] := by
  rw [pick_snd]
  rfl

/-- What is picked is one of the three. -/
theorem pick_mem {α : Type} (s : Streams) (zero one atEnd : α) :
    (s.pick zero one atEnd).1 ∈ [zero, one, atEnd] := by
  unfold pick
  split <;> simp

/-- Picking goes by position. -/
theorem pick_map {α β : Type} (f : α → β) (s : Streams) (zero one atEnd : α) :
    s.pick (f zero) (f one) (f atEnd) =
      (f (s.pick zero one atEnd).1, (s.pick zero one atEnd).2) := by
  unfold pick
  split <;> rfl

end Streams

/-- What is found in a list is one of its elements. -/
theorem mem_of_elementAt {α : Type} {values : List α} {index : Int} {value : α}
    (h : elementAt values index = .ok value) : value ∈ values := by
  unfold elementAt at h
  split at h
  · split at h
    · next hv =>
      cases h
      exact List.mem_of_getElem? hv
    · cases h
  · cases h

/-- Looking up goes by position. -/
theorem elementAt_map {α β : Type} (f : α → β) (values : List α) (index : Int) :
    elementAt (values.map f) index = (elementAt values index).map f := by
  unfold elementAt
  split
  · rw [List.getElem?_map, List.length_map]
    cases values[index.toNat]? <;> rfl
  · rw [List.length_map]
    rfl

/-- A position inside a list has an element. -/
theorem elementAt_of_lt {α : Type} {values : List α} {index : Int} (h : 0 ≤ index)
    (hlt : index < values.length) : ∃ value, elementAt values index = .ok value := by
  have hn : index.toNat < values.length := by omega
  rw [elementAt, if_pos h, List.getElem?_eq_getElem hn]
  exact ⟨_, rfl⟩

/-- An expression that reads a slot without a value shows that its family is not in range. -/
theorem NodeFamily.not_inRange (F : NodeFamily) {α : Type} {values : List α} {e : Expr} {i : Int}
    (he : F.admits values.length e) (hi : i ∈ e.reads)
    (h : ¬ ∃ value, elementAt values i = .ok value) : ¬ F.InRange := by
  intro safe
  obtain ⟨hp, hlt⟩ := safe _ _ he i hi
  exact h (elementAt_of_lt hp hlt)

/-- The results of a function on a list of arguments; the first failure is the failure of all. -/
def collect {ι ε α : Type} (f : ι → Except ε α) : List ι → Except ε (List α)
  | [] => .ok []
  | i :: is =>
    match f i with
    | .error e => .error e
    | .ok a =>
      match collect f is with
      | .error e => .error e
      | .ok as => .ok (a :: as)

/-- Collecting succeeds exactly if the function succeeds on each argument. -/
theorem collect_eq_ok {ι ε α : Type} {f : ι → Except ε α} {is : List ι} {as : List α} :
    collect f is = .ok as ↔ is.map f = as.map Except.ok := by
  induction is generalizing as with
  | nil => cases as <;> simp [collect]
  | cons i is ih =>
    rw [collect, List.map_cons]
    cases hi : f i with
    | error e => cases as <;> simp
    | ok a =>
      cases hs : collect f is with
      | error e =>
        have hn (rest : List α) : ¬ is.map f = rest.map Except.ok := by
          rw [← ih, hs]
          simp
        cases as <;> simp [hn]
      | ok rest =>
        have hr := ih.mp hs
        cases as with
        | nil => simp
        | cons b bs =>
          rw [hr, List.map_cons, List.cons.injEq, Except.ok.injEq, Except.ok.injEq,
            List.cons.injEq, List.map_inj_right (fun _ _ h ↦ Except.ok.inj h)]

/-- Collecting fails only if the function fails on some argument. -/
theorem exists_of_collect_error {ι ε α : Type} {f : ι → Except ε α} {is : List ι} {reason : ε}
    (h : collect f is = .error reason) : ∃ i ∈ is, ∃ reason, f i = .error reason := by
  induction is with
  | nil => cases h
  | cons i is ih =>
    cases hi : f i with
    | error reason => exact ⟨i, List.mem_cons_self, reason, hi⟩
    | ok a =>
      cases hs : collect f is with
      | error reason =>
        obtain ⟨j, hj, hf⟩ := ih (by rw [← h, collect, hi, hs])
        exact ⟨j, List.mem_cons_of_mem _ hj, hf⟩
      | ok as =>
        rw [collect, hi, hs] at h
        cases h

/-- A value without its number: what it is made of and nothing else. -/
inductive Datum where
  | closure (captured : List Datum) (body : Expr)
  | writer (bit : Bool)
  | reader (held : List Datum)
  | probe

namespace Datum

mutual

/-- Whether a stream can be reached from the datum. -/
def effectful : Datum → Bool
  | closure captured _ => anyEffectful captured
  | writer _ => true
  | reader _ => true
  | probe => false

/-- Whether a stream can be reached from one of the data. -/
def anyEffectful : List Datum → Bool
  | [] => false
  | d :: ds => d.effectful || anyEffectful ds

end

theorem anyEffectful_eq (ds : List Datum) : anyEffectful ds = ds.any effectful := by
  induction ds with
  | nil => rfl
  | cons d ds ih => rw [anyEffectful, List.any_cons, ih]

/-- All bodies inside the datum belong to the family, each with an environment of the size that its
closure provides. -/
inductive Admitted (F : NodeFamily) : Datum → Prop
  | closure {captured : List Datum} {body : Expr} (hb : F.admits (captured.length + 1) body)
      (hc : ∀ d ∈ captured, Admitted F d) : Admitted F (closure captured body)
  | writer (bit : Bool) : Admitted F (writer bit)
  | reader {held : List Datum} (hh : ∀ d ∈ held, Admitted F d) : Admitted F (reader held)
  | probe : Admitted F probe

end Datum

namespace Plain

/-- A way to evaluate an expression in an environment. -/
abbrev Evaluator := Expr → List Datum → Streams → Outcome Datum × Streams

/-- Applies a datum to an argument. -/
def apply (eval : Evaluator) (function argument : Datum) (s : Streams) :
    Outcome Datum × Streams :=
  match function with
  | .closure captured body => eval body (argument :: captured) s
  | .writer bit => (.value argument, s.write bit)
  | .reader [zero, one, atEnd] =>
    (.value (s.pick zero one atEnd).1, (s.pick zero one atEnd).2)
  | .reader held => (.value (.reader (held ++ [argument])), s)
  | .probe => (.value argument, s)

/-- Evaluates an expression to the given depth, executing every application. -/
def eval : (depth : Nat) → Evaluator
  | 0, _, _, s => (.outOfDepth, s)
  | depth + 1, e, env, s =>
    match e with
    | .slot _ index =>
      match elementAt env index with
      | .ok datum => (.value datum, s)
      | .error reason => (.fault reason, s)
    | .lambda _ captured body _ _ =>
      match collect (elementAt env) captured with
      | .ok data => (.value (.closure data body), s)
      | .error reason => (.fault reason, s)
    | .apply _ function argument _ _ =>
      andThen (eval depth function env s) fun f s ↦
        andThen (eval depth argument env s) fun a s ↦ apply (eval depth) f a s

/-- An expression that is an application evaluates its parts in turn and applies the results. -/
theorem eval_apply_eq_value {depth id : Nat} {function argument : Expr} {reads : List Int}
    {size : Nat} {env : List Datum} {s s' : Streams} {d : Datum} :
    eval (depth + 1) (.apply id function argument reads size) env s = (.value d, s') ↔
      ∃ f s₁ a s₂, eval depth function env s = (.value f, s₁) ∧
        eval depth argument env s₁ = (.value a, s₂) ∧
        apply (eval depth) f a s₂ = (.value d, s') := by
  rw [eval]
  simp only [andThen_eq_value]
  constructor
  · rintro ⟨f, s₁, hf, a, s₂, ha, h⟩
    exact ⟨f, s₁, a, s₂, hf, ha, h⟩
  · rintro ⟨f, s₁, a, s₂, hf, ha, h⟩
    exact ⟨f, s₁, hf, a, s₂, ha, h⟩

/-- A list either has three elements or it does not. -/
theorem three_or_not {α : Type} (l : List α) : (∃ x y z, l = [x, y, z]) ∨ l.length ≠ 3 := by
  match l with
  | [] => exact .inr (by simp)
  | [_] => exact .inr (by simp)
  | [_, _] => exact .inr (by simp)
  | [x, y, z] => exact .inl ⟨x, y, z, rfl⟩
  | _ :: _ :: _ :: _ :: _ => exact .inr (by simp)

/-- A reader that lacks a continuation takes its argument as the next one. -/
theorem apply_reader (ev : Evaluator) {held : List Datum} (h : held.length ≠ 3) (a : Datum)
    (s : Streams) : apply ev (.reader held) a s = (.value (.reader (held ++ [a])), s) := by
  unfold apply
  split
  · next he => cases he
  · next he => cases he
  · next he =>
    cases he
    exact absurd rfl h
  · next he =>
    cases he
    rfl
  · next he => cases he

/-! ### Depth -/

/-- An evaluator that finds every value that another one finds applies data to the same effect. -/
theorem apply_mono {ev ev' : Evaluator}
    (h : ∀ e env s d s', ev e env s = (.value d, s') → ev' e env s = (.value d, s'))
    {f a d : Datum} {s s' : Streams} (hv : apply ev f a s = (.value d, s')) :
    apply ev' f a s = (.value d, s') := by
  cases f with
  | closure captured body => exact h _ _ _ _ _ hv
  | writer bit => exact hv
  | reader held =>
    rcases three_or_not held with ⟨zero, one, atEnd, rfl⟩ | hl
    · exact hv
    · rw [apply_reader _ hl] at hv ⊢
      exact hv
  | probe => exact hv

private theorem eval_succ {n : Nat} {e : Expr} {env : List Datum} {s s' : Streams} {d : Datum}
    (h : eval n e env s = (.value d, s')) : eval (n + 1) e env s = (.value d, s') := by
  induction n generalizing e env s d s' with
  | zero => simp [eval] at h
  | succ n ih =>
    cases e with
    | slot id index => exact h
    | lambda id captured body reads size => exact h
    | apply id function argument reads size =>
      obtain ⟨f, s₁, a, s₂, hf, ha, hv⟩ := eval_apply_eq_value.mp h
      exact eval_apply_eq_value.mpr ⟨f, s₁, a, s₂, ih hf, ih ha, apply_mono (fun _ _ _ _ _ ↦ ih) hv⟩

/-- More depth keeps every value that was found. -/
theorem eval_mono {n m : Nat} (le : n ≤ m) {e : Expr} {env : List Datum} {s s' : Streams}
    {d : Datum} (h : eval n e env s = (.value d, s')) : eval m e env s = (.value d, s') := by
  induction le with
  | refl => exact h
  | step le ih => exact eval_succ ih

/-- Any two depths that find a value find the same one. -/
theorem eval_agree {n m : Nat} {e : Expr} {env : List Datum} {s s₁ s₂ : Streams} {d₁ d₂ : Datum}
    (h₁ : eval n e env s = (.value d₁, s₁)) (h₂ : eval m e env s = (.value d₂, s₂)) :
    d₁ = d₂ ∧ s₁ = s₂ := by
  have he := (eval_mono (Nat.le_max_left n m) h₁).symm.trans (eval_mono (Nat.le_max_right n m) h₂)
  simpa using he

/-- Any two depths at which an application has a result give it the same one. -/
theorem apply_agree {n m : Nat} {f a d₁ d₂ : Datum} {s s₁ s₂ : Streams}
    (h₁ : apply (eval n) f a s = (.value d₁, s₁)) (h₂ : apply (eval m) f a s = (.value d₂, s₂)) :
    d₁ = d₂ ∧ s₁ = s₂ := by
  have h₁' := apply_mono (fun _ _ _ _ _ ↦ eval_mono (Nat.le_max_left n m)) h₁
  have he := h₁'.symm.trans (apply_mono (fun _ _ _ _ _ ↦ eval_mono (Nat.le_max_right n m)) h₂)
  simpa using he

/-! ### Stream calls -/

/-- Application only adds stream calls if evaluation of bodies does. -/
theorem apply_calls {ev : Evaluator}
    (h : ∀ e env s, s.calls <+: (ev e env s).2.calls) (f a : Datum) (s : Streams) :
    s.calls <+: (apply ev f a s).2.calls := by
  cases f with
  | closure captured body => exact h _ _ _
  | writer bit => exact List.prefix_append _ _
  | reader held =>
    rcases three_or_not held with ⟨zero, one, atEnd, rfl⟩ | hl
    · rw [apply, Streams.calls_pick]
      exact List.prefix_append _ _
    · simp only [apply_reader _ hl, List.prefix_rfl]
  | probe => exact List.prefix_rfl

/-- Evaluation only adds stream calls. -/
theorem eval_calls (n : Nat) (e : Expr) (env : List Datum) (s : Streams) :
    s.calls <+: (eval n e env s).2.calls := by
  induction n generalizing e env s with
  | zero => exact List.prefix_rfl
  | succ n ih =>
    cases e with
    | slot id index =>
      rw [eval]
      split <;> exact List.prefix_rfl
    | lambda id captured body reads size =>
      rw [eval]
      split <;> exact List.prefix_rfl
    | apply id function argument reads size =>
      rw [eval]
      apply andThen_state (P := fun t : Streams ↦ s.calls <+: t.calls) (ih function env s)
      intro f s₁ h₁
      apply andThen_state (P := fun t : Streams ↦ s.calls <+: t.calls) (h₁.trans (ih argument env s₁))
      intro a s₂ h₂
      exact h₂.trans (apply_calls ih f a s₂)

/-- No call was made between two states exactly if none was made on either side of a third one
between them. -/
theorem calls_eq_iff {s t u : Streams} (h : s.calls <+: t.calls) (h' : t.calls <+: u.calls) :
    u.calls = s.calls ↔ t.calls = s.calls ∧ u.calls = t.calls := by
  constructor
  · intro he
    rw [he] at h'
    have ht := h.eq_of_length_le h'.length_le
    exact ⟨ht.symm, he.trans ht⟩
  · rintro ⟨ht, hu⟩
    exact hu.trans ht

private theorem apply_quiet (ev : Evaluator)
    (h : ∀ e env s d s', ev e env s = (.value d, s') → s'.calls = s.calls →
      ∀ t, ev e env t = (.value d, t))
    {f a d : Datum} {s s' : Streams} (hv : apply ev f a s = (.value d, s'))
    (hc : s'.calls = s.calls) (t : Streams) : apply ev f a t = (.value d, t) := by
  cases f with
  | closure captured body => exact h _ _ _ _ _ hv hc t
  | writer bit =>
    cases hv
    rw [Streams.calls_write] at hc
    exact absurd hc (by simp)
  | reader held =>
    rcases three_or_not held with ⟨zero, one, atEnd, rfl⟩ | hl
    · cases hv
      rw [Streams.calls_pick] at hc
      exact absurd hc (by simp)
    · rw [apply_reader _ hl] at hv ⊢
      cases hv
      rfl
  | probe =>
    cases hv
    rfl

/-- If no stream was called while an application was evaluated, none was called for its parts or for
applying their results. -/
theorem quiet_parts {n id size : Nat} {function argument : Expr} {reads : List Int}
    {env : List Datum} {s s' : Streams} {d : Datum}
    (h : eval (n + 1) (.apply id function argument reads size) env s = (.value d, s'))
    (hc : s'.calls = s.calls) :
    ∃ f s₁ a s₂, (eval n function env s = (.value f, s₁) ∧ s₁.calls = s.calls) ∧
      (eval n argument env s₁ = (.value a, s₂) ∧ s₂.calls = s₁.calls) ∧
      apply (eval n) f a s₂ = (.value d, s') ∧ s'.calls = s₂.calls := by
  obtain ⟨f, s₁, a, s₂, hf, ha, hv⟩ := eval_apply_eq_value.mp h
  have h₁ : s.calls <+: s₁.calls := by simpa [hf] using eval_calls n function env s
  have h₂ : s₁.calls <+: s₂.calls := by simpa [ha] using eval_calls n argument env s₁
  have h₃ : s₂.calls <+: s'.calls := by
    simpa [hv] using apply_calls (eval_calls n) f a s₂
  obtain ⟨hc₂, hc₃⟩ := (calls_eq_iff (h₁.trans h₂) h₃).mp hc
  obtain ⟨hc₁, hc₂⟩ := (calls_eq_iff h₁ h₂).mp hc₂
  exact ⟨f, s₁, a, s₂, ⟨hf, hc₁⟩, ⟨ha, hc₂⟩, hv, hc₃⟩

/-- A value that was found without a stream call is found the same way on any streams. -/
theorem eval_quiet {n : Nat} {e : Expr} {env : List Datum} {s s' : Streams} {d : Datum}
    (h : eval n e env s = (.value d, s')) (hc : s'.calls = s.calls) (t : Streams) :
    eval n e env t = (.value d, t) := by
  induction n generalizing e env s d s' t with
  | zero => simp [eval] at h
  | succ n ih =>
    cases e with
    | slot id index =>
      rw [eval] at h ⊢
      split at h <;> simp_all
    | lambda id captured body reads size =>
      rw [eval] at h ⊢
      split at h <;> simp_all
    | apply id function argument reads size =>
      obtain ⟨f, s₁, a, s₂, ⟨hf, hc₁⟩, ⟨ha, hc₂⟩, hv, hc₃⟩ := quiet_parts h hc
      have quiet := apply_quiet (eval n) (fun _ _ _ _ _ h hc t ↦ ih h hc t) hv hc₃ t
      exact eval_apply_eq_value.mpr ⟨f, t, a, t, ih hf hc₁ t, ih ha hc₂ t, quiet⟩

/-- An application that came to a value without a stream call does so on any streams. -/
theorem apply_eval_quiet {n : Nat} {f a d : Datum} {s s' : Streams}
    (h : apply (eval n) f a s = (.value d, s')) (hc : s'.calls = s.calls) (t : Streams) :
    apply (eval n) f a t = (.value d, t) :=
  apply_quiet (eval n) (fun _ _ _ _ _ h hc t ↦ eval_quiet h hc t) h hc t

/-- Applying `f` to `a` comes to `d` without a stream call. -/
def Quiet (f a d : Datum) : Prop :=
  ∃ n, ∀ s, apply (eval n) f a s = (.value d, s)

/-- An application that once came to a value without a stream call always does. -/
theorem quiet_of_apply {n : Nat} {f a d : Datum} {s s' : Streams}
    (h : apply (eval n) f a s = (.value d, s')) (hc : s'.calls = s.calls) : Quiet f a d :=
  ⟨n, apply_eval_quiet h hc⟩

/-- A quiet application has one result. -/
theorem Quiet.unique {f a d d' : Datum} (h : Quiet f a d) (h' : Quiet f a d') (s : Streams) :
    d = d' := by
  obtain ⟨n, hn⟩ := h
  obtain ⟨m, hm⟩ := h'
  exact (apply_agree (hn s) (hm s)).1

/-! ### Admitted data -/

private theorem apply_admitted {F : NodeFamily} {ev : Evaluator}
    (h : ∀ e env s, F.admits env.length e → (∀ d ∈ env, d.Admitted F) →
      (ev e env s).1.Meets (Datum.Admitted F) F.InRange)
    {f a : Datum} (hf : f.Admitted F) (ha : a.Admitted F) (s : Streams) :
    (apply ev f a s).1.Meets (Datum.Admitted F) F.InRange := by
  cases hf with
  | @closure captured body hb hc =>
    apply h body (a :: captured) s hb
    intro d hd
    rcases List.mem_cons.mp hd with rfl | hd
    · exact ha
    · exact hc d hd
  | writer bit => exact ha
  | @reader held hh =>
    rcases three_or_not held with ⟨zero, one, atEnd, rfl⟩ | hl
    · exact hh _ (s.pick_mem zero one atEnd)
    · rw [apply_reader _ hl]
      refine .reader fun d hd ↦ ?_
      rcases List.mem_append.mp hd with hd | hd
      · exact hh d hd
      · rw [List.mem_singleton.mp hd]
        exact ha
  | probe => exact ha

/-- Expressions of a family come to admitted data, and without a fault if the family reads slots in
range only. -/
theorem eval_admitted {F : NodeFamily} (n : Nat) {e : Expr} {env : List Datum} (s : Streams)
    (he : F.admits env.length e) (henv : ∀ d ∈ env, d.Admitted F) :
    (eval n e env s).1.Meets (Datum.Admitted F) F.InRange := by
  induction n generalizing e env s with
  | zero => trivial
  | succ n ih =>
    cases e with
    | slot id index =>
      rw [eval]
      split
      · next d hd => exact henv d (mem_of_elementAt hd)
      · next reason hr => exact F.not_inRange he (List.mem_singleton.mpr rfl) (by simp [hr])
    | lambda id captured body reads size =>
      rw [eval]
      split
      · next data hd =>
        have hm := collect_eq_ok.mp hd
        have hl : captured.length = data.length := by simpa using congrArg List.length hm
        refine .closure (hl ▸ F.body he) fun d hd ↦ ?_
        have hi : Except.ok d ∈ captured.map (elementAt env) := hm ▸ List.mem_map_of_mem hd
        obtain ⟨i, -, hi⟩ := List.mem_map.mp hi
        exact henv d (mem_of_elementAt hi)
      · next reason hr =>
        obtain ⟨i, hi, fault, hf⟩ := exists_of_collect_error hr
        exact F.not_inRange he ((F.reads_lambda he i).mpr hi) (by simp [hf])
    | apply id function argument reads size =>
      rw [eval]
      refine andThen_meets (ih s (F.function he) henv) fun f hf ↦ ?_
      refine andThen_meets (ih _ (F.argument he) henv) fun a ha ↦ ?_
      exact apply_admitted (fun _ _ s ↦ ih s) hf ha _

/-! ### Inert expressions -/

/-- Applying what is not effectful to what is not effectful calls no stream and comes to nothing
effectful, if evaluation of bodies does. -/
theorem apply_inert {F : NodeFamily} {ev : Evaluator}
    (h : ∀ e env s, F.admits env.length e → (∀ d ∈ env, d.Admitted F) →
      (∀ d ∈ env, d.effectful = false) →
      (ev e env s).2 = s ∧ ∀ d, (ev e env s).1 = .value d → d.effectful = false)
    {f a : Datum} (hf : f.Admitted F) (ha : a.Admitted F) (hf' : f.effectful = false)
    (ha' : a.effectful = false) (s : Streams) :
    (apply ev f a s).2 = s ∧ ∀ d, (apply ev f a s).1 = .value d → d.effectful = false := by
  cases hf with
  | @closure captured body hb hc =>
    rw [Datum.effectful, Datum.anyEffectful_eq, List.any_eq_false] at hf'
    apply h body (a :: captured) s hb
    · intro d hd
      rcases List.mem_cons.mp hd with rfl | hd
      · exact ha
      · exact hc d hd
    · intro d hd
      rcases List.mem_cons.mp hd with rfl | hd
      · exact ha'
      · simpa using hf' d hd
  | writer bit => cases hf'
  | reader hh => cases hf'
  | probe =>
    refine ⟨rfl, fun d hd ↦ ?_⟩
    cases hd
    exact ha'

/-- An expression whose slots hold nothing effectful calls no stream and comes to nothing
effectful. -/
theorem eval_inert {F : NodeFamily} (n : Nat) {e : Expr} {env : List Datum} (s : Streams)
    (he : F.admits env.length e) (henv : ∀ d ∈ env, d.Admitted F)
    (hr : ∀ i ∈ e.reads, ∀ d, elementAt env i = .ok d → d.effectful = false) :
    (eval n e env s).2 = s ∧ ∀ d, (eval n e env s).1 = .value d → d.effectful = false := by
  induction n generalizing e env s with
  | zero => exact ⟨rfl, fun d hd ↦ by cases hd⟩
  | succ n ih =>
    cases e with
    | slot id index =>
      rw [eval]
      split
      · next d hd =>
        refine ⟨rfl, fun d' hd' ↦ ?_⟩
        cases hd'
        exact hr index (List.mem_singleton.mpr rfl) d hd
      · exact ⟨rfl, fun d hd ↦ by cases hd⟩
    | lambda id captured body reads size =>
      rw [eval]
      split
      · next data hd =>
        refine ⟨rfl, fun d' hd' ↦ ?_⟩
        cases hd'
        rw [Datum.effectful, Datum.anyEffectful_eq, List.any_eq_false]
        intro d hm
        have hi : Except.ok d ∈ captured.map (elementAt env) :=
          collect_eq_ok.mp hd ▸ List.mem_map_of_mem hm
        obtain ⟨i, hc, hi⟩ := List.mem_map.mp hi
        simpa using hr i ((F.reads_lambda he i).mpr hc) d hi
      · exact ⟨rfl, fun d hd ↦ by cases hd⟩
    | apply id function argument reads size =>
      have hrf : ∀ i ∈ function.reads, ∀ d, elementAt env i = .ok d → d.effectful = false :=
        fun i hi ↦ hr i ((F.reads_apply he i).mpr (.inl hi))
      have hra : ∀ i ∈ argument.reads, ∀ d, elementAt env i = .ok d → d.effectful = false :=
        fun i hi ↦ hr i ((F.reads_apply he i).mpr (.inr hi))
      have admittedF := eval_admitted n s (F.function he) henv
      obtain ⟨hs, hf⟩ := ih s (F.function he) henv hrf
      have admittedA := eval_admitted n s (F.argument he) henv
      obtain ⟨hs', ha⟩ := ih s (F.argument he) henv hra
      rw [eval]
      rcases hef : eval n function env s with ⟨outcomeF, s₁⟩
      rw [hef] at admittedF hs hf
      cases hs
      cases outcomeF with
      | fault reason => exact ⟨rfl, fun d hd ↦ by cases hd⟩
      | outOfDepth => exact ⟨rfl, fun d hd ↦ by cases hd⟩
      | value f =>
        rcases hea : eval n argument env s₁ with ⟨outcomeA, s₂⟩
        rw [hea] at admittedA hs' ha
        simp only [andThen, hea]
        rw [show s₂ = s₁ from hs']
        cases outcomeA with
        | fault reason => exact ⟨rfl, fun d hd ↦ by cases hd⟩
        | outOfDepth => exact ⟨rfl, fun d hd ↦ by cases hd⟩
        | value a =>
          refine apply_inert (fun e env s he henv hall ↦ ?_) admittedF admittedA (hf f rfl)
            (ha a rfl) s₁
          exact ih s he henv fun i _ d hd ↦ hall d (mem_of_elementAt hd)

/-- An expression that comes to a value found a datum in every slot that it reads. -/
theorem eval_reads {F : NodeFamily} {n : Nat} {e : Expr} {env : List Datum} {s s' : Streams}
    {d : Datum} (he : F.admits env.length e) (h : eval n e env s = (.value d, s')) :
    ∀ i ∈ e.reads, ∃ v, elementAt env i = .ok v := by
  induction n generalizing e s d s' with
  | zero => simp [eval] at h
  | succ n ih =>
    cases e with
    | slot id index =>
      intro i hi
      rw [List.mem_singleton.mp hi]
      rw [eval] at h
      split at h
      · next v hv => exact ⟨v, hv⟩
      · cases h
    | lambda id captured body reads size =>
      intro i hi
      rw [eval] at h
      split at h
      · next data hd =>
        have hm : elementAt env i ∈ data.map Except.ok := collect_eq_ok.mp hd ▸
          List.mem_map_of_mem ((F.reads_lambda he i).mp hi)
        obtain ⟨v, -, hv⟩ := List.mem_map.mp hm
        exact ⟨v, hv.symm⟩
      · cases h
    | apply id function argument reads size =>
      obtain ⟨f, s₁, a, s₂, hf, ha, -⟩ := eval_apply_eq_value.mp h
      intro i hi
      rcases (F.reads_apply he i).mp hi with hi | hi
      · exact ih (F.function he) hf i hi
      · exact ih (F.argument he) ha i hi

end Plain

end BitCalculus
