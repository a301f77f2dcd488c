import BitCalculus.Program
import BitCalculus.Proofs.Graph.Readback
import BitCalculus.Report.Stats

/-!
# Bodies in reports

A report prints a body under a limit and marks it with dots if more than the limit was printed. A
body that fits is shown whole and a longer one is cut and marked, with one exception: when the
limit falls behind the head of one of its outermost abstractions, exactly as many bytes are printed
as the limit says, and the cut is not marked.
-/

namespace BitCalculus

/-- How a report shows an expression: whole if it has at most sixty bytes, and otherwise cut after
fifty-seven and marked with dots; but cut after sixty and not marked if that is where the heads of
its outermost abstractions end. -/
structure Expr.ShownAs (e : Expr) (shown : Bytes) : Prop where
  whole : e.text.length ≤ 60 → shown = e.text
  marked : 60 < e.text.length → ¬ e.HeadsEndAt 60 → shown = e.text.take 57 ++ lit "..."
  unmarked : 60 < e.text.length → e.HeadsEndAt 60 → shown = e.text.take 60
  dots : lit "..." <:+ shown ↔ 60 < e.text.length ∧ ¬ e.HeadsEndAt 60

/-- No part of an expression looks like the dots. -/
theorem Expr.not_dots_suffix_take (e : Expr) (n : Nat) : ¬ lit "..." <:+ e.text.take n := by
  intro dots
  have dot : 46 ∈ lit "..." := by decide
  exact e.not_mem_text (by decide) rfl (List.mem_of_mem_take (dots.subset dot))

namespace Stats

theorem bodyText_eq {g : Graph} (coherent : g.Coherent) {e : Expr} (he : e ∈ g.nodes) :
    bodyText (some g) e.id =
      if 60 < (e.serialize (60 : Nat)).length then (e.serialize (60 : Nat)).take 57 ++ lit "..."
      else e.serialize (60 : Nat) := by
  have found : g.find? e.id = some e := (coherent.find e.id e).mpr ⟨he, rfl⟩
  rw [bodyText, Option.bind_some, found]
  rfl

/-- How the body of a node is shown follows from its text. -/
theorem shownAs_bodyText {g : Graph} (coherent : g.Coherent) {e : Expr} (he : e ∈ g.nodes) :
    e.ShownAs (bodyText (some g) e.id) := by
  rw [bodyText_eq coherent he]
  by_cases fits : e.text.length ≤ 60
  · rw [Expr.serialize_of_le fits, if_neg (Nat.not_lt.mpr fits)]
    have dots := e.not_dots_suffix_take 60
    rw [List.take_of_length_le fits] at dots
    exact ⟨fun _ ↦ rfl, fun long ↦ by omega, fun long ↦ by omega, by simp [dots]; omega⟩
  · have long : 60 < e.text.length := Nat.not_le.mp fits
    obtain ⟨enough, same⟩ := Expr.take_serialize_of_lt long
    have ends := Expr.length_serialize_eq_iff (by decide) long
    by_cases cut : e.HeadsEndAt 60
    · have short := ends.mpr cut
      rw [if_neg (by omega)]
      rw [List.take_of_length_le (Nat.le_of_eq short)] at same
      rw [same]
      exact ⟨fun fits ↦ by omega, fun _ other ↦ absurd cut other, fun _ _ ↦ rfl,
        by simp [e.not_dots_suffix_take 60, cut]⟩
    · have more : (e.serialize (60 : Nat)).length ≠ 60 := fun short ↦ cut (ends.mp short)
      have start : (e.serialize (60 : Nat)).take 57 = e.text.take 57 := by
        simpa [List.take_take] using congrArg (List.take 57) same
      rw [if_pos (by omega)]
      rw [start]
      exact ⟨fun fits ↦ by omega, fun _ _ ↦ rfl, fun _ other ↦ absurd other cut,
        by simp [long, cut]⟩

/-- The lines of a report: three lines of counters, a title, and a line for each hot body. -/
theorem exists_lines {s : Stats} {n : Int} {ids : List Nat} (hot : s.hottest n = .ok ids)
    (graph : Option Graph) :
    ∃ lines, s.report graph n = .ok (Bytes.ofLines lines) ∧
      ∀ (k id : Nat), ids[k]? = some id → lines[k + 4]? = some (s.bodyLine graph id) := by
  refine ⟨_, by rw [report, writeReport, hot], fun k id hk ↦ ?_⟩
  have some : ids.isEmpty = false := by
    cases ids with
    | nil => simp at hk
    | cons id ids => rfl
  simp [counterLines, some, hk]

end Stats

/-- In a graph that operations led to, whatever was counted: the line of a hot body that is a node
of the graph shows how often it was applied, its number and its text, which is shown whole if it has
at most sixty bytes. A longer text is cut after fifty-seven bytes and marked with dots, unless the
heads of its outermost abstractions end after exactly sixty bytes: these are then shown, and nothing
tells that the body is missing. -/
theorem report_shows_bodies {ι : Type} [DecidableEq ι] {lastId : Nat} {g : Graphs ι}
    (leads : ({ lastId } : Graphs ι).Leads g) (i : ι) {s : Stats} {n : Int} {ids : List Nat}
    (hot : s.hottest n = .ok ids) :
    ∃ lines, s.report (some (g.graph i)) n = .ok (Bytes.ofLines lines) ∧
      ∀ (k : Nat) (e : Expr), e ∈ (g.graph i).nodes → ids[k]? = some e.id →
        ∃ shown, e.ShownAs shown ∧
          lines[k + 4]? = some (lit "  " ++ .alignRight 8 (.ofNat (s.bodyCount e.id)) ++
            lit "  #" ++ .ofNat e.id ++ lit "  " ++ shown) := by
  have coherent := ((leads.separate (Graphs.separate_empty lastId)).built i).coherent
  obtain ⟨lines, printed, bodies⟩ := Stats.exists_lines hot (some (g.graph i))
  exact ⟨lines, printed, fun k e he hk ↦
    ⟨_, Stats.shownAs_bodyText coherent he, bodies k e.id hk⟩⟩

/-- The only body that was counted is the hottest one. -/
private theorem Stats.hottest_countBody (id : Nat) :
    (({} : Stats).countBody id).hottest 1 = .ok [id] ∧
      (({} : Stats).countBody id).bodyCount id = 1 := by
  have counted : (({} : Stats).countBody id).bodies[id]? = some 1 := by
    simp [countBody]
  have single : (({} : Stats).countBody id).bodies.size = 1 := by
    simp [countBody, Std.HashMap.size_alter]
  have mem := Std.HashMap.mem_toList_iff_getElem?_eq_some.mpr counted
  obtain ⟨entry, all⟩ := List.length_eq_one_iff.mp (Std.HashMap.length_toList.trans single)
  rw [all, List.mem_singleton] at mem
  constructor
  · rw [hottest, if_neg (by decide), ranking, all, ← mem]
    simp
  · rw [bodyCount, Std.HashMap.getD_eq_getD_getElem?, counted]
    rfl

/-- An application of thirteen slots, which has sixty-two bytes, was applied once: it is cut and
marked. -/
theorem report_shows_bodies_marked :
    ∃ (g : Graphs Unit) (s : Stats) (lines : List Bytes),
      ({ lastId := 0 } : Graphs Unit).Leads g ∧ s.hottest 1 = .ok [13] ∧
      s.report (some (g.graph ())) 1 = .ok (Bytes.ofLines lines) ∧
      lines[4]? = some
        (lit "         1  #13  (((((((((((($0 $0) $0) $0) $0) $0) $0) $0) $0) $0) $0) $0...") := by
  obtain ⟨tree, g, e, -, leads, -, mem, number, text⟩ :
      ∃ tree g e, parseText (lit "t") (lit "x x x x x x x x x x x x x") = .ok tree ∧
        ({ lastId := 0 } : Graphs Unit).Leads g ∧
        g = Graphs.put {} () ((Graphs.arena {} ()).perform (.intern tree)).2 ∧
        e ∈ (g.graph ()).nodes ∧ e.id = 13 ∧
        e.text = lit "(((((((((((($0 $0) $0) $0) $0) $0) $0) $0) $0) $0) $0) $0) $0)" :=
    ⟨_, _, _, by cbv, .step .refl () (.intern _) trivial, rfl,
      Array.mem_of_getElem? (i := 12) (by cbv), by cbv, by cbv⟩
  obtain ⟨hot, count⟩ := Stats.hottest_countBody 13
  obtain ⟨lines, printed, bodies⟩ := report_shows_bodies leads () hot
  obtain ⟨shown, as, line⟩ := bodies 0 e mem (by rw [number]; rfl)
  have heads : ¬ e.HeadsEndAt 60 := by
    cases e with
    | slot => exact id
    | apply => exact id
    | lambda id captured => cases text
  refine ⟨g, _, lines, leads, hot, printed, line.trans ?_⟩
  rw [as.marked (by rw [text]; decide) heads, text, number, count]
  decide

/-- The body of an abstraction is fifteen abstractions and a slot and has sixty-two bytes. After it
was applied once, a report shows the fifteen heads and no more, and does not mark it. -/
theorem cut_body_unmarked :
    ∃ (p : Program) (last : Nat) (body : Expr) (s : Stats) (lines : List Bytes) (shown : Bytes),
      Program.compile (lit "t")
          (lit "(\\z \\x\\x\\x\\x\\x\\x\\x\\x\\x\\x\\x\\x\\x\\x\\x x) (\\y y)") 0 =
        .ok (p, last) ∧
      body ∈ p.graph.nodes ∧ body.id = 16 ∧ s.hottest 1 = .ok [16] ∧
      s.report (some p.graph) 1 = .ok (Bytes.ofLines lines) ∧
      lines[4]? = some (lit "         1  #16  " ++ shown) ∧
      60 < body.text.length ∧ shown ≠ body.text.take 57 ++ lit "..." ∧
      ¬ lit "..." <:+ shown ∧ shown ≠ body.text := by
  obtain ⟨p, last, body, compiled, mem, number, long, shown⟩ : ∃ p last body,
      Program.compile (lit "t")
          (lit "(\\z \\x\\x\\x\\x\\x\\x\\x\\x\\x\\x\\x\\x\\x\\x\\x x) (\\y y)") 0 =
        .ok (p, last) ∧ body ∈ p.graph.nodes ∧ body.id = 16 ∧ body.text.length = 62 ∧
      Stats.bodyText (some p.graph) 16 = body.text.take 60 :=
    ⟨_, _, _, by cbv, Array.mem_of_getElem? (i := 15) (by cbv), by cbv, by cbv, by cbv⟩
  obtain ⟨hot, count⟩ := Stats.hottest_countBody 16
  obtain ⟨lines, printed, bodies⟩ := Stats.exists_lines hot (some p.graph)
  have line := bodies 0 16 rfl
  rw [Stats.bodyLine, count, shown] at line
  have dots := body.not_dots_suffix_take 60
  refine ⟨p, last, body, _, lines, _, compiled, mem, number, hot, printed, line, by omega, ?_,
    dots, ?_⟩
  · intro same
    exact dots (same ▸ List.suffix_append _ _)
  · intro same
    have := congrArg List.length same
    rw [List.length_take] at this
    omega

end BitCalculus
