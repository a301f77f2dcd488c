import BitCalculus.Proofs.Graph.Measures
import BitCalculus.Run.Eval

/-!
# Evaluation looks at recorded slots only

Evaluation of an expression looks up slots that the expression records, and no others: a variable
looks at its slot, an abstraction at its captures, an application at what its parts look at, and
whether it may fork is decided by its own slots. Bodies of closures have environments of their own.
So two environments that agree at the recorded slots cannot be told apart.
-/

namespace BitCalculus

namespace Env

variable {env env' : Env}

theorem getAll_congr {slots : List Int} (same : ∀ i ∈ slots, env.get i = env'.get i) :
    env.getAll slots = env'.getAll slots := by
  induction slots with
  | nil => rfl
  | cons i slots ih =>
    obtain ⟨first, rest⟩ := List.forall_mem_cons.mp same
    rw [getAll, getAll, first, ih rest]

theorem allPure_congr {slots : List Int} (same : ∀ i ∈ slots, env.get i = env'.get i) :
    env.allPure slots = env'.allPure slots := by
  induction slots with
  | nil => rfl
  | cons i slots ih =>
    obtain ⟨first, rest⟩ := List.forall_mem_cons.mp same
    rw [allPure, allPure, first, ih rest]

end Env

namespace Eval

variable (eval : Evaluator) {function argument : Expr} {env env' : Env}

/-- Where the parts of an application and its slots cannot tell two environments apart, neither can
the evaluation of both parts. -/
theorem operands_congr (plan : Plan) (busy id size : Nat) {reads : List Int}
    (same : ∀ i ∈ reads, env.get i = env'.get i)
    (hf : ∀ busy w, eval busy function env w = eval busy function env' w)
    (ha : ∀ busy w, eval busy argument env w = eval busy argument env' w) (w : World) :
    operands plan eval busy (.apply id function argument reads size) function argument env w =
      operands plan eval busy (.apply id function argument reads size) function argument env'
        w := by
  have turn (w : World) : inTurn eval busy function argument env w =
      inTurn eval busy function argument env' w := by
    simp only [inTurn, hf, ha]
  have side (order : Order) (number : Nat) (w : World) :
      sideBySide eval order (busy + 1) number function argument env w =
        sideBySide eval order (busy + 1) number function argument env' w := by
    cases order <;> simp only [sideBySide, forked, hf, ha]
  have pure : env.provablyPure (.apply id function argument reads size) =
      env'.provablyPure (.apply id function argument reads size) :=
    Env.allPure_congr same
  unfold operands
  simp only [Strategy.forkable, pure, turn, side]

end Eval

/-- Evaluation cannot tell environments apart that agree at the slots of the expression: it has the
same outcome and leaves the same state behind. -/
theorem eval_congr (F : NodeFamily) (plan : Plan) {depth busy n : Nat} {e : Expr} {env env' : Env}
    {w : World} (he : F.admits n e) (same : ∀ i ∈ e.reads, env.get i = env'.get i) :
    eval plan depth busy e env w = eval plan depth busy e env' w := by
  -- A part of the expression is evaluated in the same environment to a smaller depth.
  induction depth generalizing e busy w with
  | zero => rfl
  | succ depth ih =>
    rw [eval, eval]
    cases e with
    | slot id index => simp only [Eval.step, same index List.mem_cons_self]
    | lambda id captured body reads size =>
      have captures : env.getAll captured = env'.getAll captured :=
        Env.getAll_congr fun i hi ↦ same i ((F.reads_lambda he i).mpr hi)
      simp only [Eval.step, captures]
    | apply id function argument reads size =>
      have parts := F.reads_apply he
      have slots : ∀ i ∈ reads, env.get i = env'.get i := same
      have operands := Eval.operands_congr (eval plan depth) plan busy id size slots
        (fun busy w ↦ ih (F.function he) fun i hi ↦
          same i ((parts i).mpr (.inl hi)))
        (fun busy w ↦ ih (F.argument he) fun i hi ↦
          same i ((parts i).mpr (.inr hi))) w
      simp only [Eval.step, operands]

/-- In graphs that any operations led to, every node records just the slots outside the bodies of
abstractions, in ascending order and each of them once, and the number of nodes of the tree below it
up to 2^30; no sum of two sizes and one leaves the range of machine words. Evaluation depends on
nothing else of an environment: under every plan, to every depth and from every state, it has the
same outcome and leaves the same state behind in two environments that agree at the recorded slots.
-/
theorem slots_and_sizes_exact {ι : Type} [DecidableEq ι] {lastId : Nat} {g : Graphs ι}
    (leads : ({ lastId } : Graphs ι).Leads g) (i : ι) {e : Expr} (he : e ∈ (g.graph i).nodes) :
    e.reads.Pairwise (· < ·) ∧ (∀ s, s ∈ e.reads ↔ e.Mentions s) ∧
      e.size = min (2 ^ 30) e.parts.length ∧
      (∀ m ∈ (g.graph i).nodes, fitsWord (e.size + m.size + 1) = true) ∧
      ∀ (plan : Plan) (depth busy : Nat) (env env' : Env) (w : World),
        (∀ s ∈ e.reads, env.get s = env'.get s) →
          eval plan depth busy e env w = eval plan depth busy e env' w := by
  have built := (leads.separate (Graphs.separate_empty lastId)).built i
  have measured := built.measured
  have own := measured e he
  refine ⟨own.ascending, own.exact, own.size, fun m hm ↦ own.fitsWord_sum (measured m hm), ?_⟩
  intro plan depth busy env env' w same
  exact eval_congr built.wellFormed.toLawful.family plan (n := 0) he same

/-- An abstraction captures slot 2 twice and slot 0, and is applied to slot 2. In an environment
that has a writer in slot 1, it is evaluated as in one that has a probe there. -/
theorem slots_and_sizes_exact_twice :
    ∃ (g : Graphs Unit) (e : Expr), ({ lastId := 0 } : Graphs Unit).Leads g ∧
      e ∈ (g.graph ()).nodes ∧ e.text = lit "(\\[2 0 2] $0 $2)" ∧ e.reads = [0, 2] ∧
      (∀ s, s ∈ e.reads ↔ e.Mentions s) ∧ e.size = min (2 ^ 30) e.parts.length ∧
      e.parts.length = 4 ∧
      eval {} 3 0 e (.base (.mk 5 [.probe 1, .writer 2 true, .probe 4] true)) {} =
        eval {} 3 0 e (.base (.mk 6 [.probe 1, .probe 3, .probe 4] false)) {} := by
  obtain ⟨g, e, leads, mem, text, reads, count⟩ : ∃ (g : Graphs Unit) (e : Expr),
      ({ lastId := 0 } : Graphs Unit).Leads g ∧ e ∈ (g.graph ()).nodes ∧
      e.text = lit "(\\[2 0 2] $0 $2)" ∧ e.reads = [0, 2] ∧ e.parts.length = 4 :=
    ⟨_, _, .step (.step (.step (.step .refl () (.slot 0) trivial) ()
        (.lambda [2, 0, 2] (.slot 1 0)) (Array.mem_of_getElem? (i := 0) (by cbv))) ()
        (.slot 2) trivial) ()
        (.apply (.lambda 2 [2, 0, 2] (.slot 1 0) [0, 2] 2) (.slot 3 2))
        ⟨Array.mem_of_getElem? (i := 1) (by cbv), Array.mem_of_getElem? (i := 2) (by cbv)⟩,
      Array.mem_of_getElem? (i := 3) (by cbv), by cbv, by cbv, by cbv⟩
  obtain ⟨-, exact, size, -, coincide⟩ := slots_and_sizes_exact leads () mem
  refine ⟨g, e, leads, mem, text, reads, exact, size, count, coincide _ _ _ _ _ _ fun s hs ↦ ?_⟩
  rw [reads] at hs
  rcases List.mem_cons.mp hs with rfl | hs
  · rfl
  · rw [List.mem_singleton.mp hs]
    rfl

end BitCalculus
