/-!
# Sinks

A sink takes bytes. Its room may be limited: then it takes the first bytes of what does not fit
and reports the failure. `written_write` says which bytes a sink holds after a write, and
`write_append` that bytes may be written in pieces.
-/

namespace FrozenScript

/-- What was written, and how many more bytes there is room for; `none` if there is no limit. -/
structure Sink where
  written : ByteArray := .empty
  room : Option Nat := none

namespace Sink

/-- How many of some bytes a sink takes. -/
def taken (sink : Sink) (size : Nat) : Nat :=
  match sink.room with
  | none => size
  | some room => min size room

/-- Whether some bytes fit. -/
def fits (sink : Sink) (size : Nat) : Bool :=
  sink.taken size == size

/-- Write as many bytes as there is room for. -/
def write (sink : Sink) (bytes : ByteArray) : Sink where
  written := sink.written ++ bytes.extract 0 (sink.taken bytes.size)
  room := sink.room.map (· - bytes.size)

/-- A sink takes no more than it is given. -/
theorem taken_le (sink : Sink) (size : Nat) : sink.taken size ≤ size := by
  unfold taken
  split
  · exact Nat.le_refl _
  · exact Nat.min_le_left _ _

/-- A write appends the bytes that the sink takes. -/
theorem written_write (sink : Sink) (bytes : ByteArray) :
    (sink.write bytes).written = sink.written ++ bytes.extract 0 (sink.taken bytes.size) := rfl

/-- What fits is written as a whole. -/
theorem written_write_of_fits {sink : Sink} {bytes : ByteArray} (h : sink.fits bytes.size = true) :
    (sink.write bytes).written = sink.written ++ bytes := by
  rw [written_write, eq_of_beq h, ByteArray.extract_zero_size]

/-- A sink without a limit takes everything. -/
theorem fits_of_room_eq_none {sink : Sink} (h : sink.room = none) (size : Nat) :
    sink.fits size = true := by
  simp [fits, taken, h]

/-- Nothing always fits. -/
theorem fits_zero (sink : Sink) : sink.fits 0 = true := by
  unfold fits taken
  split
  · rfl
  · rw [Nat.min_eq_left (Nat.zero_le _)]
    rfl

/-- Writing nothing changes nothing. -/
theorem write_empty (sink : Sink) : sink.write .empty = sink := by
  obtain ⟨written, room⟩ := sink
  cases room <;> simp [write, taken]

/-- A sink takes of two runs of bytes what it takes of the first one, and of the second one what
there is still room for. -/
theorem taken_add (sink : Sink) (bytes : ByteArray) (more : Nat) :
    sink.taken (bytes.size + more) = sink.taken bytes.size + (sink.write bytes).taken more := by
  unfold taken write
  cases sink.room with
  | none => rfl
  | some room => simp only [Option.map_some]; omega

/-- A sink that does not take all of some bytes has no room left for others. -/
theorem taken_eq_zero {sink : Sink} {bytes : ByteArray} (h : sink.taken bytes.size ≠ bytes.size)
    (more : Nat) : (sink.write bytes).taken more = 0 := by
  unfold taken write at *
  cases hroom : sink.room with
  | none => simp [hroom] at h
  | some room =>
      simp only [hroom, Option.map_some] at h ⊢
      omega

/-- Writing in two pieces is writing at once. -/
theorem write_append (sink : Sink) (a b : ByteArray) :
    sink.write (a ++ b) = (sink.write a).write b := by
  have hbytes : (a ++ b).extract 0 (sink.taken (a.size + b.size)) =
      a.extract 0 (sink.taken a.size) ++ b.extract 0 ((sink.write a).taken b.size) := by
    rw [taken_add, ByteArray.extract_append, Nat.zero_sub]
    by_cases hall : sink.taken a.size = a.size
    · have hfirst : a.size + (sink.write a).taken b.size =
          max (a.size + (sink.write a).taken b.size) a.size := by omega
      rw [hall, Nat.add_sub_cancel_left, ByteArray.extract_zero_size, hfirst,
        ByteArray.extract_zero_max_size]
    · have hle := sink.taken_le a.size
      rw [taken_eq_zero hall, Nat.add_zero, Nat.sub_eq_zero_of_le hle]
  have hroom : sink.room.map (· - (a ++ b).size) = (sink.room.map (· - a.size)).map (· - b.size) := by
    rw [ByteArray.size_append, Option.map_map]
    congr 1
    funext room
    exact Nat.sub_add_eq ..
  unfold write
  rw [hroom, ByteArray.size_append, hbytes, ← ByteArray.append_assoc]
  rfl

/-- Two runs of bytes fit if the first one does and the second one fits behind it. -/
theorem fits_add (sink : Sink) (bytes : ByteArray) (more : Nat) :
    sink.fits (bytes.size + more) = (sink.fits bytes.size && (sink.write bytes).fits more) := by
  have hadd := sink.taken_add bytes more
  have hle := sink.taken_le bytes.size
  have hle' := (sink.write bytes).taken_le more
  unfold fits
  rw [Bool.eq_iff_iff, Bool.and_eq_true, beq_iff_eq, beq_iff_eq, beq_iff_eq]
  omega

/-- Behind bytes that do not fit nothing is written any more. -/
theorem write_write_of_not_fits {sink : Sink} {bytes : ByteArray} (h : sink.fits bytes.size = false)
    (more : ByteArray) : (sink.write bytes).write more = sink.write bytes := by
  have hnot : sink.taken bytes.size ≠ bytes.size := by simpa [fits] using h
  have hroom : (sink.write bytes).room = some 0 := by
    cases hroom : sink.room with
    | none => simp [taken, hroom] at hnot
    | some room =>
        simp only [taken, hroom] at hnot
        simp only [write, hroom, Option.map_some, Option.some.injEq]
        omega
  generalize sink.write bytes = full at hroom
  obtain ⟨written, _⟩ := full
  obtain rfl := hroom
  simp [write, taken]

end Sink

end FrozenScript
