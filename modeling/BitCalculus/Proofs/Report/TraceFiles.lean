import Mathlib
import BitCalculus.Proofs.Text.Json
import BitCalculus.Report.Trace

/-!
# Well-formed trace files

Whatever is done with a trace before it is closed, its file is a JSON array of the events in the
order in which they were written. The work that is traced may fail anywhere, and a caller may go on
after the failure; every stretch of work that began has also ended then, and two stretches are
nested or apart. Main statement: `trace_file_well_formed`.
-/

namespace BitCalculus

/-! ### Events -/

namespace TraceEvent

/-- The value that an event is written as. A stray byte in a text is the replacement character. -/
def value (e : TraceEvent) : Json :=
  let member (key : String) (v : Json) := (key.toList.map Char.toNat, v)
  .object [member "name" (.string e.name.points), member "cat" (.string e.category.points),
    member "ph" (.string e.phase.points), member "ts" (.number e.time),
    member "pid" (.number e.process), member "tid" (.number e.thread),
    member "s" (.string (lit "g").points)]

/-- The code points of a member of an object. -/
def memberPoints (key : String) (text : List Nat) : List Nat :=
  34 :: (key.toList.map Char.toNat ++ 34 :: 58 :: text)

variable (strays : JsonString.Strays)

/-- The code points by which an event is written. -/
def written (e : TraceEvent) : List Nat :=
  123 :: ([44].intercalate [memberPoints "name" (e.name.literalPoints strays),
    memberPoints "cat" (e.category.literalPoints strays),
    memberPoints "ph" (e.phase.literalPoints strays),
    memberPoints "ts" ((Bytes.ofInt e.time).map UInt8.toNat),
    memberPoints "pid" ((Bytes.ofInt e.process).map UInt8.toNat),
    memberPoints "tid" ((Bytes.ofInt e.thread).map UInt8.toNat),
    memberPoints "s" ((lit "g").literalPoints strays)] ++ [125])

theorem spells_json (e : TraceEvent) : (e.json strays).Spells (e.written strays) := by
  have fixed (s : String) (h : (lit s).all (· < 0x80) = true) :
      (lit s).Spells ((lit s).map UInt8.toNat) :=
    Bytes.spells_ascii (by simpa using h)
  have numeral (i : Int) : (Bytes.ofInt i).Spells ((Bytes.ofInt i).map UInt8.toNat) :=
    Bytes.spells_ascii fun _ hb ↦ (Json.isNumeral_of_mem_ofInt hb).2
  have scope : lit ",\"s\":\"g\"\x7d" =
      lit ",\"s\":" ++ (lit "g").jsonString strays ++ lit "\x7d" := by
    cases strays <;> decide +kernel
  let codes (s : String) : List Nat := (lit s).map UInt8.toNat
  have parts : (e.json strays).Spells (codes "\x7b\"name\":" ++ e.name.literalPoints strays ++
      codes ",\"cat\":" ++ e.category.literalPoints strays ++
      codes ",\"ph\":" ++ e.phase.literalPoints strays ++
      codes ",\"ts\":" ++ (Bytes.ofInt e.time).map UInt8.toNat ++
      codes ",\"pid\":" ++ (Bytes.ofInt e.process).map UInt8.toNat ++
      codes ",\"tid\":" ++ (Bytes.ofInt e.thread).map UInt8.toNat ++
      (codes ",\"s\":" ++ (lit "g").literalPoints strays ++ codes "\x7d")) := by
    rw [json, scope]
    repeat' apply Bytes.Spells.append
    all_goals first
      | exact Bytes.spells_jsonString strays _
      | exact numeral _
      | exact fixed _ rfl
  convert parts using 1
  simp only [written, List.intercalate_cons_cons, List.intercalate_singleton, memberPoints,
    List.append_assoc]
  rfl

theorem readsAs_written (depth : Nat) (e : TraceEvent) :
    Json.ReadsAs (Json.readValue (depth + 2)) (e.written strays) e.value := by
  have texts (t : Bytes) := Json.readsAs_string depth strays t
  have numbers (i : Int) := Json.readsAs_number depth i
  refine Json.readsAs_object (.cons ?_ <| .cons ?_ <| .cons ?_ <| .cons ?_ <| .cons ?_ <|
    .cons ?_ <| .cons ?_ .nil) ?_
  · exact Json.readsAs_member (by decide) (texts _)
  · exact Json.readsAs_member (by decide) (texts _)
  · exact Json.readsAs_member (by decide) (texts _)
  · exact Json.readsAs_member (by decide) (numbers _)
  · exact Json.readsAs_member (by decide) (numbers _)
  · exact Json.readsAs_member (by decide) (numbers _)
  · exact Json.readsAs_member (by decide) (texts _)
  · rintro _ ⟨⟩
    exact ⟨_, _, rfl, by decide, by decide⟩

end TraceEvent

/-! ### Files -/

namespace Trace

theorem events_append (t : Trace) (es fs : List TraceEvent) :
    t.events (es ++ fs) = (t.events es).events fs :=
  List.foldl_append

theorem events_of_started {t : Trace} (h : t.isFirst = false) (es : List TraceEvent) :
    t.events es =
      { t with written := t.written ++ es.flatMap fun e ↦ lit ",\n" ++ e.json t.strays } := by
  induction es generalizing t with
  | nil => simp [events]
  | cons e es ih =>
    have step : t.event e = { t with written := t.written ++ (lit ",\n" ++ e.json t.strays) } := by
      simp [event, h]
    rw [events, List.foldl_cons, ← events, step, ih (by exact h)]
    simp

section Files

variable (strays : JsonString.Strays)

/-- Events as they stand in a file, with a separator in front of all but the first. -/
def separated : List TraceEvent → Bytes
  | [] => []
  | e :: es => e.json strays ++ es.flatMap fun e ↦ lit ",\n" ++ e.json strays

/-- A file holds the opening bracket and then its events. -/
theorem written_events (es : List TraceEvent) :
    (({ strays } : Trace).events es).written = lit "[" ++ separated strays es := by
  cases es with
  | nil => simp [events, separated]
  | cons e es =>
    have step : ({ strays } : Trace).event e =
        ⟨lit "[" ++ e.json strays, false, false, strays⟩ := by
      simp [event]
    rw [events, List.foldl_cons, ← events, step, events_of_started rfl, separated]
    simp

/-- The code points of the events of a file; each but the first stands on a line of its own. -/
def lines : List TraceEvent → List (List Nat)
  | [] => []
  | e :: es => e.written strays :: es.map fun e ↦ 10 :: e.written strays

theorem spells_separated (es : List TraceEvent) :
    (separated strays es).Spells ([44].intercalate (lines strays es)) := by
  cases es with
  | nil => exact Bytes.spells_nil
  | cons e es =>
    rw [separated, lines, Json.intercalate_cons, List.flatMap_map]
    have separator : Bytes.Spells [44, 10] [44, 10] := Bytes.spells_ascii (by simp)
    exact (e.spells_json strays).append
      (Bytes.spells_flatMap fun e _ ↦ separator.append (e.spells_json strays))

theorem readsAs_lines (depth : Nat) (es : List TraceEvent) :
    List.Forall₂ (Json.ReadsAs (Json.readValue (depth + 2))) (lines strays es)
      (es.map TraceEvent.value) := by
  cases es with
  | nil => exact .nil
  | cons e es =>
    refine .cons (e.readsAs_written strays depth) ?_
    rw [List.forall₂_map_left_iff, List.forall₂_map_right_iff, List.forall₂_same]
    exact fun e _ ↦ (e.readsAs_written strays depth).blank (by decide)

/-- A closed file is a JSON array of the events that were written to it, in their order. -/
theorem ofText?_written_close (es : List TraceEvent) :
    Json.ofText? (({ strays } : Trace).events es).close.written =
      some (.array (es.map TraceEvent.value)) := by
  let items := [44].intercalate (lines strays es)
  have starts : ∀ t ∈ (lines strays es).head?, Json.Starts 93 t := by
    cases es with
    | nil => simp [lines]
    | cons e es =>
      rintro _ ⟨⟩
      exact ⟨_, _, rfl, by decide, by decide⟩
  have spelled : Bytes.points? (lit "[" ++ separated strays es ++ lit "]\n") =
      some (91 :: (items ++ [93]) ++ [10]) := by
    have bracket : (lit "[").Spells [91] := Bytes.spells_ascii (show ∀ b ∈ [91], b < 0x80 by simp)
    have ending : (lit "]\n").Spells [93, 10] :=
      Bytes.spells_ascii (show ∀ b ∈ [93, 10], b < 0x80 by simp)
    have whole := ((bracket.append (spells_separated strays es)).append ending).points?
    simpa [items] using whole
  have read : Json.ReadsAs (Json.readValue (91 :: (items ++ [93]) ++ [10]).length)
      (91 :: (items ++ [93])) (.array (es.map TraceEvent.value)) := by
    have deep : (91 :: (items ++ [93]) ++ [10]).length = items.length + 2 + 1 := by simp
    rw [deep]
    exact Json.readsAs_array (readsAs_lines strays _ es) starts
  rw [close, written_events]
  exact Json.ofText?_eq spelled read (Json.follows_cons (by decide) []) rfl

end Files

/-! ### Traced work -/

/-- What a program does with a trace. Work may fail at any point, which ends the stretches around it
one after another; a caller that recovers goes on after the work that failed. -/
inductive Work where
  | done
  | fail
  | full (e : TraceEvent) (next : Work)
  | half (now : Int) (name category phase : Bytes) (thread process : Int) (next : Work)
  | duration (began ended : Int) (name category : Bytes) (inner next : Work)
  | recovered (inner next : Work)

/-- A stretch of work: what it is called, when it began and ended, and where the two events stand.
-/
structure Stretch where
  name : Bytes
  category : Bytes
  began : Int
  ended : Int
  first : Nat
  last : Nat

namespace Stretch

/-- The event that begins a stretch. -/
def beginning (s : Stretch) : TraceEvent :=
  { name := s.name, category := s.category, phase := lit "B", time := s.began }

/-- The event that ends a stretch. -/
def ending (s : Stretch) : TraceEvent :=
  { name := s.name, category := s.category, phase := lit "E", time := s.ended }

/-- The two events of a stretch stand where it says. -/
structure Marks (s : Stretch) (es : List TraceEvent) : Prop where
  first : es[s.first]? = some s.beginning
  last : es[s.last]? = some s.ending

/-- A later stretch begins when the earlier one has ended, or lies inside it. -/
def Nests (s s' : Stretch) : Prop :=
  s.last < s'.first ∨ s.first < s'.first ∧ s'.last < s.last

theorem Marks.append {s : Stretch} {es : List TraceEvent} (h : s.Marks es)
    (more : List TraceEvent) : s.Marks (es ++ more) := by
  have stays {i : Nat} {e : TraceEvent} (at_i : es[i]? = some e) : (es ++ more)[i]? = some e := by
    obtain ⟨bound, -⟩ := List.getElem?_eq_some_iff.mp at_i
    rwa [List.getElem?_append_left bound]
  exact ⟨stays h.first, stays h.last⟩

end Stretch

namespace Work

/-- Does the work with a trace. The result tells whether it failed. -/
def run : Work → Trace → Bool × Trace
  | done, t => (false, t)
  | fail, t => (true, t)
  | full e next, t => next.run (t.event e)
  | half now name category phase thread process next, t =>
    next.run (t.half now name category phase thread process)
  | duration began ended name category inner next, t =>
    match t.durationBetween began ended name category inner.run with
    | (true, t) => (true, t)
    | (false, t) => next.run t
  | recovered inner next, t => next.run (inner.run t).2

/-- Whether the work fails. -/
def fails : Work → Bool
  | done => false
  | fail => true
  | full _ next => next.fails
  | half _ _ _ _ _ _ next => next.fails
  | duration _ _ _ _ inner next => inner.fails || next.fails
  | recovered _ next => next.fails

/-- The events of the work, in the order of the calls. -/
def events : Work → List TraceEvent
  | done => []
  | fail => []
  | full e next => e :: next.events
  | half now name category phase thread process next =>
    ⟨name, category, phase, now, process, thread⟩ :: next.events
  | duration began ended name category inner next =>
    ⟨name, category, lit "B", began, 0, 0⟩ :: inner.events ++
      ⟨name, category, lit "E", ended, 0, 0⟩ :: if inner.fails then [] else next.events
  | recovered inner next => inner.events ++ next.events

/-- The stretches that are begun, in the order of the calls, when the first event stands at `place`.
-/
def stretches (place : Nat) : Work → List Stretch
  | done => []
  | fail => []
  | full _ next => next.stretches (place + 1)
  | half _ _ _ _ _ _ next => next.stretches (place + 1)
  | duration began ended name category inner next =>
    let last := place + 1 + inner.events.length
    ⟨name, category, began, ended, place, last⟩ :: inner.stretches (place + 1) ++
      if inner.fails then [] else next.stretches (last + 1)
  | recovered inner next =>
    inner.stretches place ++ next.stretches (place + inner.events.length)

/-- Work writes its events, and fails as its shape tells. -/
theorem run_eq (w : Work) (t : Trace) : w.run t = (w.fails, t.events w.events) := by
  induction w generalizing t with
  | done => rfl
  | fail => rfl
  | full e next ih => exact ih _
  | half now name category phase thread process next ih => exact ih _
  | duration began ended name category inner next inner_ih next_ih =>
    have between : t.durationBetween began ended name category inner.run =
        (inner.fails, t.events (⟨name, category, lit "B", began, 0, 0⟩ :: inner.events ++
          [⟨name, category, lit "E", ended, 0, 0⟩])) := by
      rw [durationBetween, inner_ih, events_append]
      rfl
    rw [run, between]
    cases failed : inner.fails with
    | true => simp [fails, events, failed]
    | false => simp [fails, events, failed, next_ih, ← events_append]
  | recovered inner next inner_ih next_ih =>
    rw [run, inner_ih, next_ih, ← events_append]
    rfl

theorem bounds_of_mem {w : Work} {place : Nat} {s : Stretch} (h : s ∈ w.stretches place) :
    place ≤ s.first ∧ s.first < s.last ∧ s.last < place + w.events.length := by
  induction w generalizing place with
  | done => cases h
  | fail => cases h
  | full e next ih => have := ih h; simp [events]; omega
  | half now name category phase thread process next ih => have := ih h; simp [events]; omega
  | duration began ended name category inner next inner_ih next_ih =>
    simp only [events, List.length_append, List.length_cons]
    rcases List.mem_append.mp h with h | h
    · rcases List.mem_cons.mp h with rfl | h
      · dsimp only; omega
      · have := inner_ih h
        omega
    · split at h
      · cases h
      · next going =>
        have := next_ih h
        rw [if_neg going]
        omega
  | recovered inner next inner_ih next_ih =>
    simp only [events, List.length_append]
    rcases List.mem_append.mp h with h | h
    · have := inner_ih h
      omega
    · have := next_ih h
      omega

/-- Every stretch that was begun has both of its events, also when the work inside failed. -/
theorem marks_of_mem {w : Work} {s : Stretch} (before : List TraceEvent)
    (h : s ∈ w.stretches before.length) : s.Marks (before ++ w.events) := by
  -- What is written before the work moves its events, so the induction is for any such beginning.
  induction w generalizing before with
  | done => cases h
  | fail => cases h
  | full e next ih =>
    have marks := ih (before ++ [e]) (by simpa [stretches] using h)
    simpa [events] using marks
  | half now name category phase thread process next ih =>
    have marks := ih (before ++ [⟨name, category, phase, now, process, thread⟩])
      (by simpa [stretches] using h)
    simpa [events] using marks
  | duration began ended name category inner next inner_ih next_ih =>
    let B : TraceEvent := ⟨name, category, lit "B", began, 0, 0⟩
    let E : TraceEvent := ⟨name, category, lit "E", ended, 0, 0⟩
    rcases List.mem_append.mp h with h | h
    · rcases List.mem_cons.mp h with rfl | h
      · constructor
        · simp [events, Stretch.beginning]
        · simp [events, Stretch.ending, Nat.add_assoc, Nat.add_comm 1]
      · have marks := inner_ih (before ++ [B]) (by simpa using h)
        have longer := marks.append (E :: if inner.fails then [] else next.events)
        simpa [events] using longer
    · split at h
      · cases h
      · next going =>
        have marks := next_ih (before ++ (B :: inner.events ++ [E]))
          (by simpa [Nat.add_assoc, Nat.add_comm 1] using h)
        simpa [events, going] using marks
  | recovered inner next inner_ih next_ih =>
    rcases List.mem_append.mp h with h | h
    · have marks := (inner_ih before h).append next.events
      simpa [events] using marks
    · have marks := next_ih (before ++ inner.events) (by simpa using h)
      simpa [events] using marks

example : (recovered (duration 3 5 (lit "run") (lit "fork") fail done) done).stretches 0 =
    [⟨lit "run", lit "fork", 3, 5, 0, 1⟩] := rfl

theorem pairwise_nests (w : Work) (place : Nat) : (w.stretches place).Pairwise Stretch.Nests := by
  induction w generalizing place with
  | done => exact .nil
  | fail => exact .nil
  | full e next ih => exact ih _
  | half now name category phase thread process next ih => exact ih _
  | duration began ended name category inner next inner_ih next_ih =>
    have rest : (if inner.fails then [] else
        next.stretches (place + 1 + inner.events.length + 1)).Pairwise Stretch.Nests := by
      split
      · exact .nil
      · exact next_ih _
    have behind {s : Stretch} (hs : s ∈ if inner.fails then [] else
        next.stretches (place + 1 + inner.events.length + 1)) :
        place + 1 + inner.events.length < s.first := by
      split at hs
      · cases hs
      · exact (bounds_of_mem hs).1
    refine List.pairwise_append.mpr ⟨List.pairwise_cons.mpr ⟨fun s hs ↦ .inr ?_, inner_ih _⟩, rest,
      fun s hs s' hs' ↦ .inl ?_⟩
    · -- A stretch of the inner work lies between the two events.
      have := bounds_of_mem hs
      dsimp only
      omega
    · have later := behind hs'
      rcases List.mem_cons.mp hs with rfl | hs
      · exact later
      · have := bounds_of_mem hs
        omega
  | recovered inner next inner_ih next_ih =>
    refine List.pairwise_append.mpr ⟨inner_ih _, next_ih _, fun s hs s' hs' ↦ .inl ?_⟩
    have := bounds_of_mem hs
    have := bounds_of_mem hs'
    omega

end Work

end Trace

/-- When a trace is closed after any work, its file is a JSON array of the events of that work in
the order of the calls, whichever way stray bytes are written. Every stretch that was begun has its
two events in it, and of two stretches one lies inside the other or ends before the other begins. -/
theorem trace_file_well_formed (strays : JsonString.Strays) (w : Trace.Work) :
    let t := (w.run { strays }).2.close
    t.closed = true ∧
      Json.ofText? t.written = some (.array (w.events.map TraceEvent.value)) ∧
      (∀ s ∈ w.stretches 0, s.first < s.last ∧ s.Marks w.events) ∧
      (w.stretches 0).Pairwise Trace.Stretch.Nests := by
  rw [Trace.Work.run_eq]
  refine ⟨rfl, Trace.ofText?_written_close strays w.events, fun s hs ↦ ?_, w.pairwise_nests 0⟩
  exact ⟨(Trace.Work.bounds_of_mem hs).2.1, Trace.Work.marks_of_mem [] hs⟩

end BitCalculus
