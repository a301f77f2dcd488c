import Mathlib
import BitCalculus.Bits.Reader
import BitCalculus.Proofs.Bits.Packing

/-!
# What a reader delivers

The answers of a reader are the bits of the bytes that its source delivers before it fails, one
after another, and from the failure on there are no more. A byte is fetched when its first bit is
requested and not before, so after `n` requests the source still has all bytes but the first
`⌈n / 8⌉`. Reading and writing undo each other, except that bits which do not fill a byte are lost.
-/

namespace BitCalculus.Bits

/-! ### Bits still to be delivered -/

namespace Source

/-- The bits that the outcomes of a source amount to: no byte counts after a failure that came
without one. -/
def bits : List Attempt → List Bool
  | [] => []
  | ⟨some b, _⟩ :: rest => unpack b ++ bits rest
  | ⟨none, true⟩ :: _ => []
  | ⟨none, false⟩ :: rest => bits rest

/-- The bytes that a source delivers: those in front of the first failure that comes without one. -/
def delivered (outcomes : List Attempt) : Bytes :=
  (outcomes.takeWhile fun a ↦ a.byte.isSome || !a.fails).filterMap Attempt.byte

theorem bits_eq (outcomes : List Attempt) :
    bits outcomes = (delivered outcomes).flatMap unpack := by
  fun_induction bits outcomes with
  | case1 => rfl
  | case2 b fails rest ih => simp [ih, delivered]
  | case3 rest => rfl
  | case4 rest ih => simp [ih, delivered]

theorem bits_fetchFrom (outcomes : List Attempt) (asked : Nat) :
    bits outcomes =
      match fetchFrom outcomes asked with
      | (none, _) => []
      | (some b, source) => unpack b ++ bits source.outcomes := by
  fun_induction fetchFrom outcomes asked with
  | case1 asked => rfl
  | case2 b fails rest asked => rfl
  | case3 rest asked => rfl
  | case4 rest asked ih => rw [bits, ih]

/-- A byte that is fetched was the first one to be delivered. -/
theorem delivered_of_fetchFrom {outcomes : List Attempt} {asked : Nat} {b : UInt8} {s : Source}
    (h : fetchFrom outcomes asked = (some b, s)) :
    delivered outcomes = b :: delivered s.outcomes := by
  fun_induction fetchFrom outcomes asked with
  | case1 asked => cases h
  | case2 b' fails rest asked =>
    cases h
    simp [delivered]
  | case3 rest asked => cases h
  | case4 rest asked ih =>
    rw [← ih h]
    simp [delivered]

theorem delivered_ofBytes (bytes : Bytes) : delivered (ofBytes bytes).outcomes = bytes := by
  induction bytes with
  | nil => rfl
  | cons b bytes ih => simpa [delivered, ofBytes] using ih

end Source

namespace Reader

/-- The bits that a reader still has to deliver. -/
def remaining (r : Reader) : List Bool :=
  if r.exhausted then [] else r.ready ++ Source.bits r.source.outcomes

/-- Reading delivers the first of the remaining bits and leaves the others. -/
theorem read_remaining (r : Reader) :
    r.read.1 = r.remaining.head? ∧ r.read.2.remaining = r.remaining.tail := by
  obtain ⟨source, ready, exhausted⟩ := r
  cases exhausted with
  | true => simp [read, remaining]
  | false =>
    cases ready with
    | cons bit ready => simp [read, remaining]
    | nil =>
      have bits := Source.bits_fetchFrom source.outcomes source.asked
      rw [← Source.fetch] at bits
      simp only [read, remaining, Bool.false_eq_true, if_false, List.nil_append, bits]
      rcases source.fetch with ⟨_ | b, source⟩
      · simp
      · obtain ⟨bit, rest, hb⟩ : ∃ bit rest, unpack b = bit :: rest := ⟨_, _, rfl⟩
        simp [hb]

/-! ### One request after another -/

/-- A new reader on a source with the given outcomes. -/
def ofOutcomes (outcomes : List Attempt) : Reader :=
  { source := { outcomes } }

/-- The reader after `n` more requests. -/
def after (r : Reader) (n : Nat) : Reader :=
  (fun r ↦ r.read.2)^[n] r

/-- The bits that the next `n` requests are answered with. -/
def bitsRead (r : Reader) (n : Nat) : List Bool :=
  (List.range n).filterMap fun i ↦ (r.after i).read.1

section Requests

variable (r : Reader)

theorem after_succ (n : Nat) : r.after (n + 1) = (r.after n).read.2 :=
  Function.iterate_succ_apply' _ _ _

theorem after_add (n m : Nat) : r.after (n + m) = (r.after n).after m := by
  rw [Nat.add_comm, after, Function.iterate_add_apply]
  rfl

theorem remaining_after (n : Nat) : (r.after n).remaining = r.remaining.drop n := by
  induction n with
  | zero => rfl
  | succ n ih => rw [after_succ, (read_remaining _).2, ih, List.tail_drop]

/-- Each request is answered with the next of the bits that there were to deliver. -/
theorem read_after (n : Nat) : (r.after n).read.1 = r.remaining[n]? := by
  rw [(read_remaining _).1, remaining_after, List.head?_drop]

theorem bitsRead_eq (n : Nat) : r.bitsRead n = r.remaining.take n := by
  induction n with
  | zero => rfl
  | succ n ih =>
    rw [bitsRead, List.range_succ, List.filterMap_append, ← bitsRead, ih, List.take_add_one,
      ← read_after]
    cases h : (r.after n).read.1 <;> simp [h]

variable {r}

theorem after_of_exhausted (h : r.exhausted = true) (n : Nat) : r.after n = r := by
  induction n with
  | zero => rfl
  | succ n ih => rw [after_succ, ih, read_of_exhausted h]

/-- A request that is not answered exhausts the reader. -/
theorem exhausted_of_read (h : r.read.1 = none) : r.read.2.exhausted = true := by
  unfold read at h ⊢
  split
  · next he => exact he
  · next he =>
    rw [if_neg he] at h
    split at h
    · cases h
    · split at h
      · rfl
      · cases h

/-- The source is asked only for the first bit of a byte, and never by an exhausted reader. -/
theorem source_read :
    r.read.2.source = if r.exhausted ∨ r.ready ≠ [] then r.source else r.source.fetch.2 := by
  unfold read
  split
  · next he => rw [if_pos (.inl he)]
  · next he =>
    split
    · next bit ready hr => rw [if_pos (.inr (by simp [hr]))]
    · next hr =>
      rw [if_neg (by simp [he, hr])]
      split <;> next hf => rw [hf]

end Requests

/-! ### Bytes that are fetched -/

/-- After `n` requests the bytes are fetched of which a bit was requested, and no others. The bits
that are ready fill up what was requested to whole bytes. -/
structure Stands (bytes : Bytes) (n : Nat) (r : Reader) : Prop where
  ready : n + r.ready.length = 8 * ((n + 7) / 8)
  left : Source.delivered r.source.outcomes = bytes.drop ((n + 7) / 8)

variable {bytes : Bytes} {n : Nat} {r : Reader}

theorem Stands.ready_eq_nil_iff (h : Stands bytes n r) : r.ready = [] ↔ n % 8 = 0 := by
  have := h.ready
  rw [← List.length_eq_zero_iff]
  omega

/-- What one request keeps, unless it exhausts the reader. -/
theorem Stands.read (h : Stands bytes n r) (goesOn : r.read.2.exhausted = false) :
    Stands bytes (n + 1) r.read.2 := by
  have full := h.ready
  unfold Reader.read at goesOn ⊢
  split
  · next he =>
    rw [if_pos he] at goesOn
    exact absurd he (by simpa using goesOn)
  · next he =>
    rw [if_neg he] at goesOn
    split
    · next bit ready hr =>
      rw [hr, List.length_cons] at full
      have same : (n + 1 + 7) / 8 = (n + 7) / 8 := by omega
      exact ⟨by rw [same]; dsimp only; omega, by rw [same]; exact h.left⟩
    · next hr =>
      rw [hr, List.length_nil] at full
      split
      · next hf =>
        rw [hr, hf] at goesOn
        cases goesOn
      · next b source hf =>
        have next : (n + 1 + 7) / 8 = (n + 7) / 8 + 1 := by omega
        constructor
        · rw [next, List.length_tail, length_unpack]
          omega
        · have first := Source.delivered_of_fetchFrom hf
          rw [h.left] at first
          rw [next, ← List.tail_drop, first]
          rfl

/-- As long as a reader is not exhausted, it stands where its requests have brought it. -/
theorem stands_after (outcomes : List Attempt) (n : Nat)
    (goesOn : ((ofOutcomes outcomes).after n).exhausted = false) :
    Stands (Source.delivered outcomes) n ((ofOutcomes outcomes).after n) := by
  induction n with
  | zero => exact ⟨rfl, rfl⟩
  | succ n ih =>
    rw [after_succ] at goesOn ⊢
    refine (ih ?_).read goesOn
    -- An exhausted reader would have stayed exhausted.
    rw [← Bool.not_eq_true]
    intro he
    rw [read_of_exhausted he, he] at goesOn
    cases goesOn

end Reader

/-! ### Bits and bytes -/

/-- The bit at a position is found in the byte that the position falls into. -/
theorem getElem?_flatMap_unpack (bytes : Bytes) (n : Nat) :
    (bytes.flatMap unpack)[n]? = bytes[n / 8]?.map fun b ↦ b.toNat.testBit (7 - n % 8) := by
  induction bytes generalizing n with
  | nil => simp
  | cons b bytes ih =>
    rw [List.flatMap_cons]
    by_cases h : n < 8
    · rw [List.getElem?_append_left (by simpa using h), List.getElem?_eq_getElem (by simpa using h),
        getElem_unpack, Nat.div_eq_of_lt h, Nat.mod_eq_of_lt h]
      rfl
    · obtain ⟨m, rfl⟩ := Nat.exists_eq_add_of_le' (Nat.le_of_not_lt h)
      rw [List.getElem?_append_right (by simp), length_unpack, Nat.add_sub_cancel, ih,
        Nat.add_div_right m (by decide), Nat.add_mod_right]
      rfl

theorem length_flatMap_unpack (bytes : Bytes) :
    (bytes.flatMap unpack).length = 8 * bytes.length := by
  induction bytes with
  | nil => rfl
  | cons b bytes ih =>
    rw [List.flatMap_cons, List.length_append, length_unpack, ih, List.length_cons]
    omega

theorem unpack_inj {b c : UInt8} (h : unpack b = unpack c) : b = c := by
  apply UInt8.toNat_inj.mp
  apply Nat.eq_of_testBit_eq
  intro i
  by_cases hi : i < 8
  · have hb : 7 - i < (unpack b).length := by simp; omega
    have hc : 7 - i < (unpack c).length := by simp; omega
    have same := getElem_unpack b hb
    simp only [h, getElem_unpack c hc, show 7 - (7 - i) = i by omega] at same
    exact same.symm
  · have large : 2 ^ 8 ≤ 2 ^ i := Nat.pow_le_pow_right (by decide) (by omega)
    rw [Nat.testBit_lt_two_pow (Nat.lt_of_lt_of_le b.toNat_lt large),
      Nat.testBit_lt_two_pow (Nat.lt_of_lt_of_le c.toNat_lt large)]

theorem flatMap_unpack_inj {bs cs : Bytes} (h : bs.flatMap unpack = cs.flatMap unpack) :
    bs = cs := by
  have hl := congrArg List.length h
  rw [length_flatMap_unpack, length_flatMap_unpack] at hl
  induction bs generalizing cs with
  | nil =>
    cases cs with
    | nil => rfl
    | cons c cs => simp at hl
  | cons b bs ih =>
    cases cs with
    | nil => simp at hl
    | cons c cs =>
      rw [List.flatMap_cons, List.flatMap_cons] at h
      obtain ⟨first, rest⟩ := List.append_inj h (by simp)
      rw [List.length_cons, List.length_cons] at hl
      rw [unpack_inj first, ih rest (by omega)]

/-! ### Writing into a sink that works -/

theorem flatten_groups (bits : List Bool) :
    (groups bits).flatten = bits.take (8 * (bits.length / 8)) := by
  rw [groups]
  generalize bits.length / 8 = k
  induction k with
  | zero => rfl
  | succ k ih =>
    rw [List.range_succ, List.map_append, List.flatten_append, ih, Nat.mul_succ, List.take_add]
    simp

theorem completeGroups_map_write (bits : List Bool) :
    WriterCall.completeGroups (bits.map .write) = groups bits := by
  have cut : WriterCall.segments (bits.map .write) = ([], bits) := by
    induction bits using List.reverseRec with
    | nil => rfl
    | append_singleton bits bit ih =>
      rw [List.map_append, List.map_singleton, WriterCall.segments_concat, ih]
      rfl
  simp [WriterCall.completeGroups, cut]

theorem accepted_of_none (offered : List UInt8) : accepted (fun _ ↦ none) offered = offered := by
  simp [accepted]

/-- A writer whose sink works. -/
def Writer.writing (bits : List Bool) : Writer :=
  .after (fun _ ↦ none) (bits.map .write)

/-- The sink keeps all bits but those that do not fill a byte. -/
theorem flatMap_unpack_writing (bits : List Bool) :
    (Writer.writing bits).sink.stored.toList.flatMap unpack =
      bits.take (8 * (bits.length / 8)) := by
  have accounts := Writer.accounts_after (fun _ ↦ none) (bits.map .write)
  rw [Writer.writing, accounts.stored, accepted_of_none, List.flatMap_def, accounts.offered,
    completeGroups_map_write, flatten_groups]

theorem Reader.remaining_ofOutcomes (outcomes : List Attempt) :
    (Reader.ofOutcomes outcomes).remaining = (Source.delivered outcomes).flatMap unpack := by
  rw [← Source.bits_eq]
  rfl

theorem Reader.remaining_ofBytes (bytes : Bytes) :
    (Reader.ofBytes bytes).remaining = bytes.flatMap unpack := by
  have := remaining_ofOutcomes (Source.ofBytes bytes).outcomes
  rwa [Source.delivered_ofBytes] at this

/-- For every source, whatever outcomes it has to offer, and after any number of requests:

* the next request is answered with the next bit of the bytes that the source delivers before it
  fails, the most significant bit of each byte first, as long as there is one;
* once a request is not answered, no later one is, and the source is left alone;
* a request asks the source for a byte if it is for the first bit of a byte and the reader is not
  exhausted, and does not touch it otherwise; until the reader is exhausted, the source still has
  all bytes but those of which a bit was requested.

What a writer stored is read as the bits that were written, up to the last complete group of eight,
and nothing after them. Writing all bits that are read from some bytes stores just these bytes. -/
theorem reading_lazy_and_reversible :
    (∀ (outcomes : List Attempt) (n : Nat),
      ((Reader.ofOutcomes outcomes).after n).read.1 =
          (Source.delivered outcomes)[n / 8]?.map (fun b ↦ b.toNat.testBit (7 - n % 8)) ∧
        (((Reader.ofOutcomes outcomes).after n).read.1 = none → ∀ m,
          ((Reader.ofOutcomes outcomes).after (n + m)).read.1 = none ∧
          ((Reader.ofOutcomes outcomes).after (n + 1 + m)).source =
            ((Reader.ofOutcomes outcomes).after (n + 1)).source) ∧
        ((Reader.ofOutcomes outcomes).after (n + 1)).source =
          (if ((Reader.ofOutcomes outcomes).after n).exhausted ∨ n % 8 ≠ 0 then
            ((Reader.ofOutcomes outcomes).after n).source
          else ((Reader.ofOutcomes outcomes).after n).source.fetch.2) ∧
        (((Reader.ofOutcomes outcomes).after n).exhausted = false →
          Source.delivered ((Reader.ofOutcomes outcomes).after n).source.outcomes =
            (Source.delivered outcomes).drop ((n + 7) / 8))) ∧
      (∀ (bits : List Bool) (n : Nat),
        ((Reader.ofBytes (Writer.writing bits).sink.stored.toList).after n).read.1 =
          (bits.take (8 * (bits.length / 8)))[n]?) ∧
      ∀ (bytes : Bytes) (n : Nat), 8 * bytes.length ≤ n →
        (Writer.writing ((Reader.ofBytes bytes).bitsRead n)).sink.stored.toList = bytes := by
  refine ⟨fun outcomes n ↦ ⟨?_, ?_, ?_, ?_⟩, ?_, ?_⟩
  · rw [Reader.read_after, Reader.remaining_ofOutcomes, getElem?_flatMap_unpack]
  · intro unanswered m
    have stays := Reader.after_of_exhausted (Reader.exhausted_of_read unanswered)
    constructor
    · rw [Reader.read_after, List.getElem?_eq_none_iff] at unanswered ⊢
      omega
    · rw [Reader.after_add, Reader.after_succ, stays]
  · rw [Reader.after_succ, Reader.source_read]
    cases he : ((Reader.ofOutcomes outcomes).after n).exhausted with
    | true => simp
    | false => simp [(Reader.stands_after outcomes n he).ready_eq_nil_iff]
  · intro goesOn
    exact (Reader.stands_after outcomes n goesOn).left
  · intro bits n
    rw [Reader.read_after, Reader.remaining_ofBytes, flatMap_unpack_writing]
  · intro bytes n enough
    apply flatMap_unpack_inj
    have hl := length_flatMap_unpack bytes
    have all : (bytes.flatMap unpack).take n = bytes.flatMap unpack :=
      List.take_of_length_le (by omega)
    rw [flatMap_unpack_writing, Reader.bitsRead_eq, Reader.remaining_ofBytes, all,
      List.take_of_length_le]
    omega

/-- A source makes a pause, delivers a byte together with a failure, fails without a byte and would
go on. Its one byte is read; the ninth request fails, and no later one asks again. Eleven bits are
written, of which eight come back, and two bytes are read and written. -/
theorem reading_lazy_and_reversible_failing :
    ∃ (outcomes : List Attempt) (r : Reader),
      outcomes = [⟨none, false⟩, ⟨some 0xA5, true⟩, ⟨none, true⟩, ⟨some 0xFF, false⟩] ∧
      r = .ofOutcomes outcomes ∧ r.bitsRead 8 = unpack 0xA5 ∧
      (r.after 1).source.asked = 2 ∧ (r.after 1).exhausted = false ∧
      Source.delivered (r.after 1).source.outcomes = [] ∧
      (r.after 8).read.1 = none ∧ (∀ m, (r.after (8 + m)).read.1 = none) ∧
      (∀ m, (r.after (9 + m)).source = ⟨[⟨some 0xFF, false⟩], 3⟩) ∧
      ((Reader.ofBytes
        (Writer.writing (unpack 0xB2 ++ [true, true, false])).sink.stored.toList).after 7).read.1 =
          some false ∧
      8 * [0xB2, 0x01].length ≤ 17 ∧
      (Writer.writing ((Reader.ofBytes [0xB2, 0x01]).bitsRead 17)).sink.stored.toList =
        [0xB2, 0x01] := by
  obtain ⟨reads, back, there⟩ := reading_lazy_and_reversible
  refine ⟨_, _, rfl, rfl, by decide, by decide, by decide, ?_, by decide, ?_, ?_, ?_, by decide,
    there _ _ (by decide)⟩
  · exact (reads _ 1).2.2.2 (by decide)
  · exact fun m ↦ ((reads _ 8).2.1 (by decide) m).1
  · intro m
    rw [((reads _ 8).2.1 (by decide) m).2]
    rfl
  · rw [back]
    rfl

end BitCalculus.Bits
