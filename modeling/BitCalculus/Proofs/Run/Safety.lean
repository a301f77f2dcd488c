import Mathlib
import BitCalculus.Proofs.Run.Moments
import BitCalculus.Proofs.Run.Programs

/-!
# Programs do not go wrong

A run of a compiled program whose names can be bound has no fault, on any streams, under every plan
and however long it lasts: each call finds a value in every slot that its expression reads and comes
to an answer unless it runs out of depth, and no reader ever holds a fourth continuation. The same
holds of a program made by hand if the slots of its root and of all bodies in it exist. A slot that
is merely not too large may be negative, and then it does not exist.
-/

namespace BitCalculus

/-! ### Slots of expressions -/

namespace Expr

/-- The slots of the body of an abstraction are at most as many as the abstraction captures. -/
def BodyBelow : Expr → Prop
  | lambda _ captured body _ _ => ∀ i ∈ body.reads, i ≤ captured.length
  | _ => True

/-- The slots of the expression are below `n`, and those of each body in it at most as many as its
abstraction captures. -/
def SlotsBelow (n : Nat) (e : Expr) : Prop :=
  (∀ i ∈ e.reads, i < n) ∧ ∀ part ∈ e.parts, part.BodyBelow

/-- No node of the expression reads a negative slot. -/
def SlotsNatural (e : Expr) : Prop :=
  ∀ part ∈ e.parts, ∀ i ∈ part.reads, 0 ≤ i

end Expr

/-- An expression of a graph with natural slots that are not too large finds all its slots. -/
theorem Lawful.scoped {ok : Int → Prop} {nodes : Array Expr} {lastId n : Nat}
    (h : Lawful ok nodes lastId) {e : Expr} (he : e ∈ nodes) (below : e.SlotsBelow n)
    (natural : e.SlotsNatural) : e.Scoped n := by
  induction e generalizing n with
  | slot id index =>
    have hi : index ∈ (Expr.slot id index).reads := List.mem_singleton.mpr rfl
    exact ⟨natural _ (Expr.mem_parts_self _) index hi, below.1 index hi⟩
  | lambda id captured body reads size ih =>
    obtain ⟨hb, -, reads_iff⟩ := h.rests _ he
    have inner : body.SlotsBelow (captured.length + 1) := by
      refine ⟨fun i hi ↦ ?_, fun part hm ↦ below.2 part (List.mem_cons_of_mem _ hm)⟩
      have hle : i ≤ captured.length := below.2 _ (Expr.mem_parts_self _) i hi
      omega
    refine ⟨fun i hi ↦ ?_, ih hb inner fun part hm ↦ natural part (List.mem_cons_of_mem _ hm)⟩
    have hr : i ∈ reads := (reads_iff i).mpr hi
    exact ⟨natural _ (Expr.mem_parts_self _) i hr, below.1 i hr⟩
  | apply id function argument reads size ihf iha =>
    obtain ⟨hf, ha, reads_iff⟩ := h.rests _ he
    have inF {part : Expr} (hm : part ∈ function.parts) :
        part ∈ (Expr.apply id function argument reads size).parts :=
      List.mem_cons_of_mem _ (List.mem_append_left _ hm)
    have inA {part : Expr} (hm : part ∈ argument.parts) :
        part ∈ (Expr.apply id function argument reads size).parts :=
      List.mem_cons_of_mem _ (List.mem_append_right _ hm)
    constructor
    · refine ihf hf ⟨fun i hi ↦ ?_, fun part hm ↦ below.2 part (inF hm)⟩ fun part hm ↦
        natural part (inF hm)
      exact below.1 i ((reads_iff i).mpr (.inl hi))
    · refine iha ha ⟨fun i hi ↦ ?_, fun part hm ↦ below.2 part (inA hm)⟩ fun part hm ↦
        natural part (inA hm)
      exact below.1 i ((reads_iff i).mpr (.inr hi))

/-! ### Readers hold at most three continuations -/

/-- No reader in the datum holds more than three continuations. -/
inductive Datum.Staged : Datum → Prop
  | closure {captured : List Datum} (body : Expr) (hc : ∀ d ∈ captured, Staged d) :
    Staged (.closure captured body)
  | writer (bit : Bool) : Staged (.writer bit)
  | reader {held : List Datum} (hl : held.length ≤ 3) (hh : ∀ d ∈ held, Staged d) :
    Staged (.reader held)
  | probe : Staged .probe

theorem Builtin.staged_datum (b : Builtin) : b.datum.Staged := by
  cases b with
  | writeZero => exact .writer false
  | writeOne => exact .writer true
  | read => exact .reader (by simp) (by simp)
  | debug => exact .probe

namespace Plain

private theorem apply_staged {ev : Evaluator}
    (h : ∀ e env s d s', (∀ d ∈ env, d.Staged) → ev e env s = (.value d, s') → d.Staged)
    {f a d : Datum} (hf : f.Staged) (ha : a.Staged) {s s' : Streams}
    (hv : apply ev f a s = (.value d, s')) : d.Staged := by
  cases hf with
  | @closure captured body hc =>
    refine h body (a :: captured) s d s' (fun d hd ↦ ?_) hv
    rcases List.mem_cons.mp hd with rfl | hd
    · exact ha
    · exact hc d hd
  | writer bit =>
    cases hv
    exact ha
  | @reader held hl hh =>
    rcases three_or_not held with ⟨zero, one, atEnd, rfl⟩ | hne
    · cases hv
      exact hh _ (s.pick_mem zero one atEnd)
    · rw [apply_reader _ hne] at hv
      cases hv
      refine .reader (by simp; omega) fun d hd ↦ ?_
      rcases List.mem_append.mp hd with hd | hd
      · exact hh d hd
      · rw [List.mem_singleton.mp hd]
        exact ha
  | probe =>
    cases hv
    exact ha

/-- Evaluation gives no reader a fourth continuation. -/
theorem eval_staged {n : Nat} {e : Expr} {env : List Datum} (henv : ∀ d ∈ env, d.Staged)
    {s s' : Streams} {d : Datum} (h : eval n e env s = (.value d, s')) : d.Staged := by
  induction n generalizing e env s d s' with
  | zero => simp [eval] at h
  | succ n ih =>
    cases e with
    | slot id index =>
      rw [eval] at h
      split at h
      · next v hv =>
        cases h
        exact henv _ (mem_of_elementAt hv)
      · cases h
    | lambda id captured body reads size =>
      rw [eval] at h
      split at h
      · next data hd =>
        cases h
        refine .closure body fun d hm ↦ ?_
        have hi : Except.ok d ∈ captured.map (elementAt env) :=
          collect_eq_ok.mp hd ▸ List.mem_map_of_mem hm
        obtain ⟨i, -, hi⟩ := List.mem_map.mp hi
        exact henv d (mem_of_elementAt hi)
      · cases h
    | apply id function argument reads size =>
      obtain ⟨f, s₁, a, s₂, hf, ha, hv⟩ := eval_apply_eq_value.mp h
      exact apply_staged (fun _ _ _ _ _ henv hv ↦ ih henv hv) (ih henv hf) (ih henv ha) hv

end Plain

namespace Eval

variable {F : NodeFamily} {plan : Plan} {R R' : Registry F} {c c' : Call}

/-- The calls that a call makes begin without a reader of more than three continuations if the call
does. -/
theorem staged_asks (ready : Ready R c) (staged : ∀ d ∈ c.env.data, d.Staged)
    (hm : c' ∈ c.asks plan) : ∀ d ∈ c'.env.data, d.Staged := by
  obtain ⟨-, id, function, argument, reads, size, -, part | body⟩ := asks_cases hm
  · rw [part.1]
    exact staged
  · obtain ⟨f, a, w, i, captured, hp, hf, henv⟩ := body
    obtain ⟨_, _, _, _, _, R₁, -, -, -, -, -, s₁, ⟨⟨nf, plainF⟩, -⟩, ⟨⟨na, plainA⟩, -⟩⟩ :=
      ready.parts hp
    have stagedF := Plain.eval_staged staged plainF
    have stagedA := Plain.eval_staged staged plainA
    rw [hf, Value.erase_closure] at stagedF
    cases stagedF with
    | closure _ hc =>
      rw [henv]
      intro d hd
      rcases List.mem_cons.mp hd with rfl | hd
      · exact stagedA
      · exact hc d hd

/-- All calls that a call leads to begin without a reader of more than three continuations if it
does. -/
theorem Spans.staged (h : Spans plan R R' c) (staged : ∀ d ∈ c.env.data, d.Staged)
    (hr : Reaches plan c c') : ∀ d ∈ c'.env.data, d.Staged :=
  h.along (fun _ _ _ ready staged hm ↦ staged_asks ready staged hm) staged hr

/-- No reader of more than three continuations occurs in a call that begins without one. -/
theorem Spans.staged_occurs (h : Spans plan R R' c) (staged : ∀ d ∈ c.env.data, d.Staged)
    {v : Value} (hv : Occurs plan c v) : v.erase.Staged := by
  induction hv with
  | slot hr hv =>
    rename_i c' i v
    exact h.staged staged hr _ (mem_of_elementAt ((c'.env.elementAt_data i _).mpr ⟨v, hv, rfl⟩))
  | answer hr ha =>
    obtain ⟨R₁, R₂, -, -, -, -, done⟩ := h _ hr
    have outcome := done.outcome
    rw [ha] at outcome
    obtain ⟨n, plain⟩ := outcome.2.plain
    exact Plain.eval_staged (h.staged staged hr) plain
  | captured _ hv ih =>
    rw [Value.erase_closure] at ih
    cases ih with
    | closure _ hc => exact hc _ (List.mem_map_of_mem hv)
  | held _ hv ih =>
    rw [Value.erase_reader] at ih
    cases ih with
    | reader _ hh => exact hh _ (List.mem_map_of_mem hv)

/-! ### Safe calls and safe runs -/

/-- A call does not go wrong: there is a value in every slot that its expression reads, and unless
it runs out of depth it comes to an answer. -/
structure Call.Safe (plan : Plan) (c : Call) : Prop where
  slots : ∀ i ∈ c.e.reads, ∃ v, c.env.get i = .ok v
  outcome : (c.result plan).1 = .outOfDepth ∨ ∃ a, (c.result plan).1 = .value a

/-- If all slots are in range, no call that a call leads to goes wrong. -/
theorem Spans.safe (h : Spans plan R R' c) (inRange : F.InRange) (hr : Reaches plan c c') :
    c'.Safe plan := by
  obtain ⟨R₁, R₂, -, -, -, ready, done⟩ := h c' hr
  constructor
  · intro i hi
    obtain ⟨hp, hlt⟩ := inRange _ _ ready.admitted i hi
    obtain ⟨d, hd⟩ := elementAt_of_lt hp hlt
    obtain ⟨v, hv, -⟩ := (c'.env.elementAt_data i d).mp hd
    exact ⟨v, hv⟩
  · have outcome := done.outcome
    rcases hv : (c'.result plan).1 with a | reason | _
    · exact .inr ⟨a, rfl⟩
    · rw [hv] at outcome
      exact absurd inRange outcome
    · exact .inl rfl

end Eval

open Eval (Occurs Reaches)

/-- The run of a program does not go wrong. It begins, no call of it goes wrong, no reader in it
holds more than three continuations, all that its writers write are bits, and it ends with a value
and without a fault unless it runs out of depth. -/
structure Session.Safe (s : Session) (p : Program) : Prop where
  calls : ∃ c, s.start p = some c ∧ ∀ c', Reaches s.plan c c' → c'.Safe s.plan
  readers : ∀ c id held, s.start p = some c → Occurs s.plan c (.reader id held) → held.length ≤ 3
  writers : ∀ c id bit, s.start p = some c → Occurs s.plan c (.writer id bit) →
    ∀ out : Bits.Writer, out.writeNumber bit.toNat = .ok (out.write bit)
  outcome : (s.run p).1.error = some .outOfDepth ∨
    (∃ v, (s.run p).1.value = some v) ∧ ∀ reason, (s.run p).1.error ≠ some (.fault reason)

theorem Bits.Writer.writeNumber_toNat (out : Bits.Writer) (bit : Bool) :
    out.writeNumber bit.toNat = .ok (out.write bit) := by
  cases bit <;> rfl

/-- A program that is closed in a family whose slots are in range does not go wrong. -/
theorem Program.ClosedIn.safe {F : NodeFamily} {p : Program} (h : p.ClosedIn F)
    (inRange : F.InRange) (s : Session) : s.Safe p := by
  obtain ⟨c, hc, -, -, hd, -⟩ := h.start s
  obtain ⟨R, R', spans⟩ := h.spans hc
  have staged : ∀ d ∈ c.env.data, d.Staged := by
    rw [hd]
    intro d hm
    obtain ⟨t, -, ht⟩ := List.mem_filterMap.mp hm
    obtain ⟨b, -, rfl⟩ := Option.map_eq_some_iff.mp ht
    exact b.staged_datum
  refine ⟨⟨c, hc, fun c' hr ↦ spans.safe inRange hr⟩, ?_, ?_, ?_⟩
  · intro c' id held hc' hv
    cases hc.symm.trans hc'
    have hs := spans.staged_occurs staged hv
    rw [Value.erase_reader] at hs
    cases hs with
    | reader hl _ => simpa using hl
  · intro _ _ bit _ _ out
    exact out.writeNumber_toNat bit
  · rw [Session.run_eq hc]
    rcases (spans.safe inRange (.refl c)).outcome with hv | ⟨a, hv⟩
    · exact .inl (by rw [hv]; rfl)
    · refine .inr ⟨⟨a.value, by rw [hv]; rfl⟩, fun reason ↦ ?_⟩
      rw [hv, Session.conclude]
      cases (c.result s.plan).2.output.firstError <;> simp

/-- The run of a compiled program whose names can be bound does not go wrong, in any session.
Neither does the run of a program with a root in any graph built by operations, if the slots of the
root are natural and below the number of free names, and those of each body natural and at most as
many as its abstraction captures. -/
theorem programs_safe :
    (∀ (source text : Bytes) (lastId last : Nat) (p : Program) (env : Base),
        Program.compile source text lastId = .ok (p, last) → (Cache.bind {} p.free).1 = .ok env →
        ∀ s : Session, s.Safe p) ∧
      ∀ (a : Arena) (p : Program) (root : Expr) (env : Base), a.Built (fun _ ↦ True) →
        p.root = some root → root ∈ a.graph.nodes → (Cache.bind {} p.free).1 = .ok env →
        root.SlotsBelow p.free.length → root.SlotsNatural → ∀ s : Session, s.Safe p := by
  constructor
  · intro source text lastId last p env compiled bound s
    obtain ⟨F, inRange, closed⟩ :=
      Program.closedIn_of_compile compiled (Cache.allBuiltin_of_bind bound)
    exact closed.safe inRange s
  · intro a p root env built rooted mem bound below natural s
    have lawful := built.wellFormed.toLawful
    have closed : p.ClosedIn lawful.scopedFamily :=
      ⟨Cache.allBuiltin_of_bind bound, root, rooted, mem, lawful.scoped mem below natural⟩
    exact closed.safe lawful.inRange_scopedFamily s

/-- A compiled program whose reader is given all of its continuations and reads, and an abstraction
made by hand whose body reads the slot that it captures. -/
theorem programs_safe_reader :
    (∃ p last env, Program.compile (lit "t")
        (lit "__builtin_g __builtin_p0 __builtin_p1 (\\x x) (\\x x) __builtin_debug") 0 =
          .ok (p, last) ∧ (Cache.bind {} p.free).1 = .ok env ∧ ∀ s : Session, s.Safe p) ∧
      ∃ (a : Arena) (p : Program) (env : Base), a.Built (fun _ ↦ True) ∧
        p.root = some (.lambda 2 [0] (.slot 1 1) [0] 2) ∧ (Cache.bind {} p.free).1 = .ok env ∧
        p.free.map Token.text = [lit "__builtin_g"] ∧ ∀ s : Session, s.Safe p := by
  constructor
  · obtain ⟨p, last, env, compiled, bound⟩ : ∃ p last env, Program.compile (lit "t")
        (lit "__builtin_g __builtin_p0 __builtin_p1 (\\x x) (\\x x) __builtin_debug") 0 =
          .ok (p, last) ∧ (Cache.bind {} p.free).1 = .ok env :=
      ⟨_, _, _, by cbv, by cbv⟩
    exact ⟨p, last, env, compiled, bound, programs_safe.1 _ _ _ _ p env compiled bound⟩
  · obtain ⟨body, a₁, a₂, hbody, hroot, he⟩ : ∃ body a₁ a₂, Arena.slot {} 1 = (body, a₁) ∧
        a₁.lambda [0] body = (.lambda 2 [0] body [0] 2, a₂) ∧ body = .slot 1 1 :=
      ⟨_, _, _, by cbv, by cbv, rfl⟩
    obtain ⟨env, bound⟩ : ∃ env,
        (Cache.bind {} [⟨.name, lit "__builtin_g", ⟨lit "free", 1, 1⟩⟩]).1 = .ok env :=
      ⟨_, by cbv⟩
    have start : Arena.Built (fun _ ↦ True) {} := .empty 0
    have built₁ := Arena.Built.slot start 1
    have mem₁ := (Arena.made_slot start.wellFormed 1).1.mem
    rw [hbody] at built₁ mem₁
    have captured : ∀ i ∈ [(0 : Int)], True := fun _ _ ↦ trivial
    have built₂ := Arena.Built.lambda built₁ mem₁ captured
    have mem₂ := (Arena.made_lambda built₁.wellFormed mem₁ captured).1.mem
    rw [hroot, he] at built₂ mem₂
    refine ⟨a₂, ⟨lit "graph", a₂.graph, _, _⟩, env, built₂, rfl, bound, rfl, ?_⟩
    refine programs_safe.2 a₂ _ _ env built₂ rfl mem₂ bound ?_ ?_
    · simp [Expr.SlotsBelow, Expr.BodyBelow, Expr.parts, Expr.reads]
    · simp [Expr.SlotsNatural, Expr.parts, Expr.reads]

/-- Slots that are merely not too large are not enough: the argument of this application is in a
negative slot, and evaluating it is a fault although its value would not be used. -/
theorem negative_slot_faults :
    ∃ (a : Arena) (p : Program) (root : Expr) (env : Base), a.Built (fun _ ↦ True) ∧
      p.root = some root ∧ root ∈ a.graph.nodes ∧ (Cache.bind {} p.free).1 = .ok env ∧
      root.SlotsBelow p.free.length ∧
      ((({} : Session).atDepth 3).run p).1.error = some (.fault (.indexOutOfRange (-1) 1)) ∧
      ¬ ∀ s : Session, s.Safe p := by
  obtain ⟨tree, f, free, a₁, x, a₂, root, a₃, -, interned, hx, hroot, he⟩ :
      ∃ tree f free a₁ x a₂ root a₃, parseText (lit "t") (lit "\\x \\y y") = .ok tree ∧
        Arena.intern {} tree = (f, free, a₁) ∧ a₁.slot (-1) = (x, a₂) ∧
        a₂.apply f x = (root, a₃) ∧
        root = .apply 5 (.lambda 3 [] (.lambda 2 [] (.slot 1 0) [] 2) [] 3) (.slot 4 (-1)) [-1] 5 :=
    ⟨_, _, _, _, _, _, _, _, by cbv, by cbv, by cbv, by cbv, rfl⟩
  have done := Arena.interned_of_internIn (.empty 0) interned
  have built₁ : a₁.Built fun _ ↦ True := done.built.mono fun _ _ ↦ trivial
  have made₂ := (Arena.made_slot built₁.wellFormed (-1)).1
  have built₂ := Arena.Built.slot built₁ (-1)
  rw [hx] at made₂ built₂
  have made₃ := (Arena.made_apply built₂.wellFormed (made₂.keeps.nodes f done.mem) made₂.mem).1
  have built₃ := Arena.Built.apply built₂ (made₂.keeps.nodes f done.mem) made₂.mem
  rw [hroot] at made₃ built₃
  have faults : ((({} : Session).atDepth 3).run ⟨lit "graph", a₃.graph, some root,
      [⟨.name, lit "__builtin_debug", ⟨lit "free", 1, 1⟩⟩]⟩).1.error =
        some (.fault (.indexOutOfRange (-1) 1)) := by
    rw [he]
    cbv
  refine ⟨a₃, _, root, _, built₃, rfl, made₃.mem, by cbv, ?_, faults, fun safe ↦ ?_⟩
  · simp [he, Expr.SlotsBelow, Expr.BodyBelow, Expr.parts, Expr.reads]
  · have outcome := (safe (({} : Session).atDepth 3)).outcome
    rw [faults] at outcome
    rcases outcome with h | ⟨-, h⟩
    · cases h
    · exact h _ rfl

end BitCalculus
