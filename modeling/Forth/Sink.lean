-- SUMMARY: The output sink: the bytes written so far, and a limit on how many it takes.

/-!
# Sinks

A sink keeps the bytes that are written to it. A limited sink takes only so many
bytes in total: of a write that goes beyond the limit it keeps the part that
fits, and the write fails. A write of no bytes never fails.

A limit is the one way in which writing fails here, as into a buffer of a fixed
size. Other outputs fail for reasons of their own, and a report gives the reason;
the reason of a sink is always that it did not take the whole text.
-/

namespace Forth

/-- Written bytes, and how many the sink takes in total. A buffer that is full gives the
    wording of `Fault.writeFailed`, which is fixed for that reason. -/
structure Sink where
  written : ByteArray := .empty
  limit : Option Nat := none
  deriving Inhabited

namespace Sink

/-- Two sinks are equal if they hold the same bytes and have the same limit. -/
instance : DecidableEq Sink := fun s t =>
  decidable_of_iff (s.written.data = t.written.data ∧ s.limit = t.limit) <| by
    obtain ⟨⟨_⟩, _⟩ := s
    obtain ⟨⟨_⟩, _⟩ := t
    simp

/-- How many of `n` more bytes the sink takes. -/
def room (s : Sink) (n : Nat) : Nat :=
  match s.limit with
  | none => n
  | some limit => min n (limit - s.written.size)

def accepts (s : Sink) (bytes : ByteArray) : Bool :=
  s.room bytes.size = bytes.size

def write (s : Sink) (bytes : ByteArray) : Sink :=
  { s with written := s.written ++ bytes.extract 0 (s.room bytes.size) }

@[simp] theorem limit_write (s : Sink) (bytes : ByteArray) : (s.write bytes).limit = s.limit := rfl

theorem room_le (s : Sink) (n : Nat) : s.room n ≤ n := by
  unfold room
  split
  · exact Nat.le_refl _
  · exact Nat.min_le_left _ _

@[simp] theorem accepts_empty (s : Sink) : s.accepts .empty = true := by
  simpa [accepts] using s.room_le 0

/-- A write that succeeds keeps all of its bytes. -/
theorem written_write_of_accepts {s : Sink} {bytes : ByteArray} (h : s.accepts bytes = true) :
    (s.write bytes).written = s.written ++ bytes := by
  simp only [accepts, decide_eq_true_eq] at h
  simp [write, h]

end Sink

end Forth
