import Mathlib
import BitCalculus.Bits.Writer

/-!
# What a sink is offered

A writer ORs each bit into the byte that is being filled. Over any history of bits and closings, and
however the sink refuses bytes, this amounts to chunking: the bits are cut where the writer was
closed, and the sink is offered the complete groups of eight of each segment. A refusal loses one
byte and changes nothing else but the error that the writer remembers.
-/

namespace BitCalculus.Bits

/-! ### Bits in a byte -/

theorem getElem_unpack (b : UInt8) {i : Nat} (h : i < (unpack b).length) :
    (unpack b)[i] = b.toNat.testBit (7 - i) := by
  have hi : i < 8 := by simpa using h
  interval_cases i <;> rfl

theorem unpack_zero : unpack 0 = List.replicate 8 false := by
  decide

/-- A bit that is moved to a place stands there and nowhere else. -/
theorem testBit_shiftLeft_place (bit : Bool) (place : Fin 8) (i : Nat) :
    (bit.toUInt8 <<< place.val.toUInt8).toNat.testBit i = (decide (i = place.val) && bit) := by
  have hp : place.val.toUInt8.toNat % 8 = place.val := by simp [Nat.toUInt8]
  have hb : bit.toUInt8.toNat = bit.toNat := by cases bit <;> rfl
  rw [UInt8.toNat_shiftLeft, hp, hb, Nat.testBit_mod_two_pow, Nat.testBit_shiftLeft,
    Nat.testBit_bool_toNat]
  by_cases he : i = place.val
  · simp [he]
  · by_cases hl : place.val ≤ i
    · have : i - place.val ≠ 0 := by omega
      simp [he, this]
    · simp [he, hl]

/-- If only zeros stand from a place on, a bit that is ORed into the place follows the bits above
it, and only zeros stand below. -/
theorem unpack_or_shiftLeft {b : UInt8} {bits : List Bool} {place : Fin 8} (bit : Bool)
    (h : unpack b = bits ++ List.replicate (place.val + 1) false) :
    unpack (b ||| (bit.toUInt8 <<< place.val.toUInt8)) =
      bits ++ bit :: List.replicate place.val false := by
  have hl : bits.length + (place.val + 1) = 8 := by
    simpa using (congrArg List.length h).symm
  apply List.ext_getElem
  · simp
    omega
  · intro i hi hi'
    have hi8 : i < 8 := by simpa using hi
    have hb : i < (unpack b).length := by simpa using hi8
    have before := getElem_unpack b hb
    simp only [h] at before
    rw [getElem_unpack, UInt8.toNat_or, Nat.testBit_or, ← before,
      testBit_shiftLeft_place]
    rcases Nat.lt_trichotomy i bits.length with hlt | heq | hgt
    · have : ¬ 7 - i = place.val := by omega
      simp [List.getElem_append_left hlt, this]
    · simp [heq]
      omega
    · have : ¬ 7 - i = place.val := by omega
      rw [List.getElem_append_right (by omega), List.getElem_append_right (by omega)]
      simp [this, List.getElem_cons, show i - bits.length ≠ 0 by omega]

/-! ### Groups of eight -/

/-- The complete groups of eight bits, from the first bit on. -/
def groups (bits : List Bool) : List (List Bool) :=
  (List.range (bits.length / 8)).map fun i ↦ (bits.drop (8 * i)).take 8

/-- The bits behind the last complete group. -/
def remainder (bits : List Bool) : List Bool :=
  bits.drop (8 * (bits.length / 8))

theorem length_remainder (bits : List Bool) : (remainder bits).length = bits.length % 8 := by
  rw [remainder, List.length_drop]
  omega

/-- Another bit leaves the groups that are complete as they are. -/
theorem take_drop_concat {bits : List Bool} {i : Nat} (h : i < bits.length / 8) (bit : Bool) :
    ((bits ++ [bit]).drop (8 * i)).take 8 = (bits.drop (8 * i)).take 8 := by
  rw [List.drop_append_of_le_length (by omega), List.take_append_of_le_length]
  rw [List.length_drop]
  omega

/-- A bit that completes no group joins the remainder. -/
theorem groups_concat_of_ne {bits : List Bool} (h : bits.length % 8 ≠ 7) (bit : Bool) :
    groups (bits ++ [bit]) = groups bits ∧ remainder (bits ++ [bit]) = remainder bits ++ [bit] := by
  have hl : (bits ++ [bit]).length / 8 = bits.length / 8 := by
    rw [List.length_append, List.length_singleton]
    omega
  constructor
  · rw [groups, groups, hl]
    apply List.map_congr_left
    intro i hi
    exact take_drop_concat (List.mem_range.mp hi) bit
  · rw [remainder, remainder, hl, List.drop_append_of_le_length (by omega)]

/-- A bit that completes the remainder makes it the last group. -/
theorem groups_concat_of_eq {bits : List Bool} (h : bits.length % 8 = 7) (bit : Bool) :
    groups (bits ++ [bit]) = groups bits ++ [remainder bits ++ [bit]] ∧
      remainder (bits ++ [bit]) = [] := by
  have hl : (bits ++ [bit]).length / 8 = bits.length / 8 + 1 := by
    rw [List.length_append, List.length_singleton]
    omega
  constructor
  · rw [groups, groups, hl, List.range_succ, List.map_append, List.map_singleton]
    congr 1
    · apply List.map_congr_left
      intro i hi
      exact take_drop_concat (List.mem_range.mp hi) bit
    · rw [remainder, List.drop_append_of_le_length (by omega), List.take_of_length_le]
      rw [List.length_append, List.length_drop, List.length_singleton]
      omega
  · rw [remainder, hl, List.drop_eq_nil_iff, List.length_append, List.length_singleton]
    omega

/-! ### Histories of calls -/

/-- A call of a writer: a bit is written, or the writer is closed. `flush` tells how the sink takes
to being flushed then: it cannot be flushed, or flushing succeeds or fails. -/
inductive WriterCall where
  | write (bit : Bool)
  | close (flush : Option (Option Bytes))

/-- The writer with a sink that takes to being flushed as given. -/
def Writer.flushing (w : Writer) (flush : Option (Option Bytes)) : Writer :=
  { w with sink := { w.sink with flushError := flush } }

/-- The writer after a call. -/
def Writer.perform (w : Writer) : WriterCall → Writer
  | .write bit => (w.write bit).2
  | .close flush => (w.flushing flush).close.2

/-- A new writer after a history of calls, on a sink with the given refusals. -/
def Writer.after (refuses : Nat → Option Bytes) (calls : List WriterCall) : Writer :=
  calls.foldl perform { sink := { refuses } }

namespace WriterCall

/-- Takes a call into account: bits go to the last segment, and closing begins a new one. -/
def cut : List (List Bool) × List Bool → WriterCall → List (List Bool) × List Bool
  | (closed, current), .write bit => (closed, current ++ [bit])
  | (closed, current), .close _ => (closed ++ [current], [])

/-- The bits of a history, cut where the writer was closed: the segments that were closed, and the
current one. -/
def segments (calls : List WriterCall) : List (List Bool) × List Bool :=
  calls.foldl cut ([], [])

/-- The bits that were written since the writer was closed last. -/
def current (calls : List WriterCall) : List Bool :=
  (segments calls).2

/-- The complete groups of each segment, in order. -/
def completeGroups (calls : List WriterCall) : List (List Bool) :=
  ((segments calls).1 ++ [(segments calls).2]).flatMap groups

section Laws

variable (calls : List WriterCall)

theorem segments_concat (call : WriterCall) :
    segments (calls ++ [call]) = cut (segments calls) call := by
  rw [segments, List.foldl_concat, segments]

theorem current_write (bit : Bool) : current (calls ++ [.write bit]) = current calls ++ [bit] := by
  rw [current, segments_concat]
  rfl

theorem current_close (flush : Option (Option Bytes)) : current (calls ++ [.close flush]) = [] := by
  rw [current, segments_concat]
  rfl

/-- What a bit adds to the groups of the current segment it adds to those of all segments. -/
theorem completeGroups_write {bit : Bool} {added : List (List Bool)}
    (h : groups (current calls ++ [bit]) = groups (current calls) ++ added) :
    completeGroups (calls ++ [.write bit]) = completeGroups calls ++ added := by
  rw [current] at h
  simp [completeGroups, segments_concat, cut, h]

theorem completeGroups_close (flush : Option (Option Bytes)) :
    completeGroups (calls ++ [.close flush]) = completeGroups calls := by
  simp [completeGroups, segments_concat, cut, groups]

end Laws

end WriterCall

/-- The bytes that a sink with the given refusals keeps of those that it is offered first. -/
def accepted (refuses : Nat → Option Bytes) (offered : List UInt8) : List UInt8 :=
  ((offered.zipIdx 1).filter fun b ↦ (refuses b.2).isNone).map Prod.fst

/-- The first error among the answers to the first `n` writes. -/
def firstRefusal (refuses : Nat → Option Bytes) (n : Nat) : Option Bytes :=
  (List.range n).findSome? fun i ↦ refuses (i + 1)

theorem accepted_concat (refuses : Nat → Option Bytes) (offered : List UInt8) (b : UInt8) :
    accepted refuses (offered ++ [b]) =
      accepted refuses offered ++ if (refuses (offered.length + 1)).isNone then [b] else [] := by
  simp only [accepted, List.zipIdx_append, List.filter_append, List.map_append]
  congr 1
  rw [Nat.add_comm 1]
  cases h : refuses (offered.length + 1) <;> simp [h]

theorem firstRefusal_succ (refuses : Nat → Option Bytes) (n : Nat) :
    firstRefusal refuses (n + 1) = (firstRefusal refuses n).or (refuses (n + 1)) := by
  simp [firstRefusal, List.range_succ, List.findSome?_append]

/-! ### What one call keeps -/

section Sink

variable (s : Sink) (b : UInt8)

theorem Sink.write_fst : (s.write b).1 = s.refuses (s.writes + 1) := by
  unfold write
  split <;> next h => rw [h]

theorem Sink.refuses_write : (s.write b).2.refuses = s.refuses := by
  unfold write
  split <;> rfl

theorem Sink.offered_write : (s.write b).2.offered = s.offered.push b := by
  unfold write
  split <;> rfl

/-- If a sink keeps what it accepted, it still does after another byte. -/
theorem Sink.stored_write (h : s.stored.toList = accepted s.refuses s.offered.toList) :
    (s.write b).2.stored.toList = accepted s.refuses (s.write b).2.offered.toList := by
  rw [offered_write, Array.toList_push, accepted_concat, Array.length_toList, ← h]
  unfold write writes
  split <;> next hr => simp [hr]

end Sink

namespace Writer

/-- The writer keeps account of a history: its sink was offered the complete groups and keeps those
that it accepted, its error is the first refusal, and its buffer has the remainder of the current
segment above the next place and only zeros from there on. -/
structure Accounts (refuses : Nat → Option Bytes) (calls : List WriterCall) (w : Writer) :
    Prop where
  sink : w.sink.refuses = refuses
  offered : w.sink.offered.toList.map unpack = WriterCall.completeGroups calls
  stored : w.sink.stored.toList = accepted refuses w.sink.offered.toList
  firstError : w.firstError = firstRefusal refuses w.sink.writes
  buffer : unpack w.buffer =
    remainder (WriterCall.current calls) ++ List.replicate (w.place.val + 1) false

variable {refuses : Nat → Option Bytes} {calls : List WriterCall} {w : Writer}

/-- The bits in the buffer and the places that are left add up to a byte. -/
theorem Accounts.place (h : Accounts refuses calls w) :
    (WriterCall.current calls).length % 8 + w.place.val = 7 := by
  have hl := congrArg List.length h.buffer
  rw [length_unpack, List.length_append, length_remainder, List.length_replicate] at hl
  omega

theorem accounts_new (refuses : Nat → Option Bytes) :
    Accounts refuses [] { sink := { refuses } } where
  sink := rfl
  offered := rfl
  stored := rfl
  firstError := rfl
  buffer := unpack_zero

/-- A bit that does not fill its byte stays in the buffer. -/
theorem Accounts.write_of_ne (h : Accounts refuses calls w) (hp : w.place ≠ 0) (bit : Bool) :
    (w.write bit).1 = none ∧ Accounts refuses (calls ++ [.write bit]) (w.write bit).2 := by
  have hv : (w.place - 1).val + 1 = w.place.val := by
    have := Fin.val_sub_one_of_ne_zero hp
    have := Fin.val_ne_zero_iff.mpr hp
    omega
  have hc : (WriterCall.current calls).length % 8 ≠ 7 := by
    have := h.place
    omega
  obtain ⟨same, joins⟩ := groups_concat_of_ne hc bit
  rw [write, if_neg hp]
  refine ⟨rfl, h.sink, ?_, h.stored, h.firstError, ?_⟩
  · rw [← List.append_nil (groups (WriterCall.current calls))] at same
    rw [WriterCall.completeGroups_write _ same, List.append_nil]
    exact h.offered
  · rw [WriterCall.current_write, joins, hv, unpack_or_shiftLeft bit h.buffer]
    simp

/-- A bit that fills its byte sends it to the sink, whose answer it returns. -/
theorem Accounts.write_of_eq (h : Accounts refuses calls w) (hp : w.place = 0) (bit : Bool) :
    (w.write bit).1 = refuses (w.sink.writes + 1) ∧
      Accounts refuses (calls ++ [.write bit]) (w.write bit).2 := by
  have hc : (WriterCall.current calls).length % 8 = 7 := by
    have := h.place
    have : w.place.val = 0 := by rw [hp]; rfl
    omega
  obtain ⟨grows, empties⟩ := groups_concat_of_eq hc bit
  have full := unpack_or_shiftLeft bit h.buffer
  rw [write, if_pos hp]
  generalize w.buffer ||| (bit.toUInt8 <<< w.place.val.toUInt8) = b at full
  have answer : (w.sink.write b).1 = refuses (w.sink.writes + 1) := by
    rw [Sink.write_fst, h.sink]
  refine ⟨answer, ?_, ?_, ?_, ?_, ?_⟩
  · exact (Sink.refuses_write _ _).trans h.sink
  · rw [WriterCall.completeGroups_write _ grows, ← h.offered]
    simp [emit, Sink.offered_write, full, hp]
  · have := Sink.stored_write w.sink b (h.sink ▸ h.stored)
    rwa [h.sink] at this
  · rw [emit, Sink.writes, Sink.offered_write, Array.size_push, firstRefusal_succ]
    exact congrArg₂ Option.or h.firstError answer
  · rw [WriterCall.current_write, empties]
    exact unpack_zero

theorem Accounts.close (h : Accounts refuses calls w) (flush : Option (Option Bytes)) :
    (w.flushing flush).close.1 = (w.pending, flush.join.or w.firstError) ∧
      Accounts refuses (calls ++ [.close flush]) (w.flushing flush).close.2 := by
  have kept : (w.flushing flush).sink.flush.2.refuses = w.sink.refuses ∧
      (w.flushing flush).sink.flush.2.offered = w.sink.offered ∧
      (w.flushing flush).sink.flush.2.stored = w.sink.stored := by
    cases flush <;> exact ⟨rfl, rfl, rfl⟩
  obtain ⟨sameRefuses, sameOffered, sameStored⟩ := kept
  refine ⟨?_, sameRefuses.trans h.sink, ?_, ?_, ?_, ?_⟩
  · cases flush <;> rfl
  · rw [WriterCall.completeGroups_close, ← h.offered, ← sameOffered]
    rfl
  · rw [Writer.close, sameOffered, sameStored]
    exact h.stored
  · rw [Writer.close, Sink.writes, sameOffered]
    exact h.firstError
  · rw [WriterCall.current_close]
    exact unpack_zero

/-- No call changes an error that is remembered. -/
theorem firstError_perform {error : Bytes} (h : w.firstError = some error) (call : WriterCall) :
    (w.perform call).firstError = some error := by
  cases call with
  | write bit =>
    rw [perform, write]
    split
    · simp [emit, h]
    · exact h
  | close flush => exact h

theorem firstError_performAll {error : Bytes} (h : w.firstError = some error)
    (calls : List WriterCall) : (calls.foldl perform w).firstError = some error := by
  induction calls generalizing w with
  | nil => exact h
  | cons call calls ih => exact ih (firstError_perform h call)

/-- A new writer keeps account of every history. -/
theorem accounts_after (refuses : Nat → Option Bytes) (calls : List WriterCall) :
    Accounts refuses calls (after refuses calls) := by
  induction calls using List.reverseRec with
  | nil => exact accounts_new refuses
  | append_singleton calls call ih =>
    rw [after, List.foldl_concat]
    cases call with
    | write bit =>
      by_cases hp : (after refuses calls).place = 0
      · exact (ih.write_of_eq hp bit).2
      · exact (ih.write_of_ne hp bit).2
    | close flush => exact (ih.close flush).2

end Writer

/-- For every history of bits and closings, and whatever writes the sink refuses:

* the sink was offered the complete groups of eight bits of each segment, in order and with the most
  significant bit first, and it keeps exactly those bytes whose write did not fail;
* the number of bits that wait is the length of the current segment modulo eight;
* writing a bit is answered by an error exactly if the bit completes a byte whose write fails, and
  the error is that of this write;
* the remembered error is the first one that the sink ever reported, and no later call changes it;
* closing reports the bits that wait as dropped, with the error of the flush or else the remembered
  one. -/
theorem packing_survives_refusals (refuses : Nat → Option Bytes) (calls : List WriterCall) :
    (Writer.after refuses calls).sink.offered.toList.map unpack = WriterCall.completeGroups calls ∧
      (Writer.after refuses calls).sink.stored.toList =
        accepted refuses (Writer.after refuses calls).sink.offered.toList ∧
      (Writer.after refuses calls).pending = (WriterCall.current calls).length % 8 ∧
      (∀ bit, ((Writer.after refuses calls).write bit).1 =
        if ((WriterCall.current calls).length + 1) % 8 = 0 then
          refuses ((Writer.after refuses calls).sink.offered.size + 1)
        else none) ∧
      (Writer.after refuses calls).firstError =
        firstRefusal refuses (Writer.after refuses calls).sink.offered.size ∧
      (∀ more error, (Writer.after refuses calls).firstError = some error →
        (Writer.after refuses (calls ++ more)).firstError = some error) ∧
      ∀ flush, ((Writer.after refuses calls).flushing flush).close.1 =
        ((Writer.after refuses calls).pending,
          flush.join.or (Writer.after refuses calls).firstError) := by
  have h := Writer.accounts_after refuses calls
  have hp := h.place
  refine ⟨h.offered, h.stored, ?_, ?_, h.firstError, ?_, fun flush ↦ (h.close flush).1⟩
  · rw [Writer.pending]
    omega
  · intro bit
    by_cases full : (Writer.after refuses calls).place = 0
    · have : (Writer.after refuses calls).place.val = 0 := by rw [full]; rfl
      rw [if_pos (by omega)]
      exact (h.write_of_eq full bit).1
    · have := Fin.val_ne_zero_iff.mpr full
      rw [if_neg (by omega)]
      exact (h.write_of_ne full bit).1
  · intro more error he
    rw [Writer.after, List.foldl_append]
    exact Writer.firstError_performAll he more

/-- The sink refuses the first byte, and closing drops the two bits behind it. The second byte
begins anew and arrives unshifted, and the error of the first one stays. -/
theorem packing_survives_refusals_first :
    ∃ (refuses : Nat → Option Bytes) (bits : List Bool) (calls : List WriterCall) (w : Writer),
      refuses 1 = some (lit "full") ∧ bits = unpack 0xB2 ++ [true, true] ∧
      calls = bits.map .write ++ [.close none] ++ bits.map .write ∧ w = .after refuses calls ∧
      w.sink.offered = #[0xB2, 0xB2] ∧ w.sink.stored = #[0xB2] ∧ w.pending = 2 ∧
      (Writer.after refuses (calls ++ [.close (some none)])).firstError = some (lit "full") := by
  refine ⟨fun n ↦ if n = 1 then some (lit "full") else none, _, _, _, rfl, rfl, rfl, rfl,
    ?_, ?_, ?_, (packing_survives_refusals _ _).2.2.2.2.2.1 _ _ ?_⟩
  all_goals decide +kernel

end BitCalculus.Bits
