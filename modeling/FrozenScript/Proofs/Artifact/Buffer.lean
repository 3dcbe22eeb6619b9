import FrozenScript.Artifact.FileTree

/-!
# Writing through a buffer

An output is not written at once. The pieces of its text go into a buffer, which passes them on when
it is full and at the end, and each time it does the sink may run out of room. The main statement,
`writeBuffered_eq_write`, says that none of this can be told from a single write of the whole text,
whatever the pieces and the capacity of the buffer are.
-/

namespace FrozenScript

/-- A sink with a buffer in front of it. -/
structure BufferedSink where
  sink : Sink
  /-- The bytes that were not passed on yet. -/
  pending : ByteArray := .empty

/-- Some pieces as one. -/
def joined : List ByteArray → ByteArray
  | [] => .empty
  | piece :: rest => piece ++ joined rest

namespace BufferedSink

/-- Pass on what is pending, and say whether the sink took all of it. The rest stays pending. -/
def flush (buffer : BufferedSink) : Bool × BufferedSink :=
  (buffer.sink.fits buffer.pending.size,
    { sink := buffer.sink.write buffer.pending
      pending := buffer.pending.extract (buffer.sink.taken buffer.pending.size)
        buffer.pending.size })

/-- Put a piece behind what is pending. If there is no place for it, the buffer is flushed first,
and a piece that is too long for the buffer goes straight to the sink. -/
def put (capacity : Nat) (buffer : BufferedSink) (piece : ByteArray) : Bool × BufferedSink :=
  if piece.size < capacity ∧ buffer.pending.size + piece.size ≤ capacity then
    (true, { buffer with pending := buffer.pending ++ piece })
  else
    match buffer.flush with
    | (false, buffer) => (false, buffer)
    | (true, buffer) =>
      if piece.size < capacity then (true, { buffer with pending := buffer.pending ++ piece })
      else (buffer.sink.fits piece.size, { buffer with sink := buffer.sink.write piece })

/-- Put pieces one after the other, up to the first failure. -/
def putAll (capacity : Nat) : BufferedSink → List ByteArray → Bool × BufferedSink
  | buffer, [] => (true, buffer)
  | buffer, piece :: rest =>
    match buffer.put capacity piece with
    | (true, buffer) => putAll capacity buffer rest
    | (false, buffer) => (false, buffer)

end BufferedSink

/-- Write pieces through a buffer. What is pending is passed on at the end, also after a failure. -/
def Sink.drain (capacity : Nat) (sink : Sink) (pieces : List ByteArray) : Bool × Sink :=
  let (complete, buffer) := BufferedSink.putAll capacity { sink } pieces
  let (flushed, buffer) := buffer.flush
  (complete && flushed, buffer.sink)

namespace BufferedSink

variable {buffer : BufferedSink} {sink : Sink} {bytes : ByteArray}

/-- A buffer was given some bytes, and the sink took all that was passed on. -/
def Holds (buffer : BufferedSink) (sink : Sink) (bytes : ByteArray) : Prop :=
  ∃ passed, passed ++ buffer.pending = bytes ∧ sink.fits passed.size = true ∧
    buffer.sink = sink.write passed

/-- Some bytes do not fit, and the sink has taken all that it can take of them. -/
def Overflows (buffer : BufferedSink) (sink : Sink) (bytes : ByteArray) : Prop :=
  sink.fits bytes.size = false ∧ buffer.sink = sink.write bytes

/-- What a buffer was given, if all went well so far or not. -/
def Follows (sink : Sink) (bytes : ByteArray) : Bool × BufferedSink → Prop
  | (true, buffer) => buffer.Holds sink bytes
  | (false, buffer) => buffer.Overflows sink bytes

/-- Bytes behind an overflow change nothing. -/
theorem Overflows.append (h : buffer.Overflows sink bytes) (more : ByteArray) :
    buffer.Overflows sink (bytes ++ more) := by
  obtain ⟨hfits, hsink⟩ := h
  refine ⟨?_, ?_⟩
  · rw [ByteArray.size_append, Sink.fits_add, hfits, Bool.false_and]
  · rw [Sink.write_append, Sink.write_write_of_not_fits hfits, hsink]

/-- Flushing passes on everything. -/
theorem flush_follows (h : buffer.Holds sink bytes) :
    buffer.flush.1 = sink.fits bytes.size ∧ buffer.flush.2.sink = sink.write bytes ∧
      (buffer.flush.1 = true → buffer.flush.2.pending = .empty) := by
  obtain ⟨passed, rfl, hfits, hsink⟩ := h
  unfold flush
  rw [hsink, ByteArray.size_append, Sink.fits_add, hfits, Bool.true_and, Sink.write_append]
  refine ⟨rfl, rfl, fun hall => ?_⟩
  have htaken : (sink.write passed).taken buffer.pending.size = buffer.pending.size :=
    eq_of_beq hall
  rw [htaken, ByteArray.extract_same]

/-- Putting a piece goes well or overflows. -/
theorem put_follows (h : buffer.Holds sink bytes) (capacity : Nat) (piece : ByteArray) :
    Follows sink (bytes ++ piece) (buffer.put capacity piece) := by
  unfold put
  split
  · obtain ⟨passed, rfl, hfits, hsink⟩ := h
    exact ⟨passed, ByteArray.append_assoc.symm, hfits, hsink⟩
  obtain ⟨hflushed, hsink, hpending⟩ := flush_follows h
  split
  next after heq =>
    rw [heq] at hflushed hsink
    exact Overflows.append ⟨hflushed.symm, hsink⟩ piece
  next after heq =>
    rw [heq] at hflushed hsink hpending
    have hempty := hpending rfl
    split
    · refine ⟨bytes, ?_, hflushed.symm, hsink⟩
      rw [hempty, ByteArray.empty_append]
    · have hfits : sink.fits (bytes ++ piece).size = after.sink.fits piece.size := by
        rw [ByteArray.size_append, Sink.fits_add, ← hflushed, hsink, Bool.true_and]
      have hwrite : after.sink.write piece = sink.write (bytes ++ piece) := by
        rw [Sink.write_append, hsink]
      cases hpiece : after.sink.fits piece.size with
      | false => exact ⟨hfits.trans hpiece, hwrite⟩
      | true => exact ⟨bytes ++ piece, by rw [hempty, ByteArray.append_empty],
          hfits.trans hpiece, hwrite⟩

/-- Putting pieces goes well or overflows. -/
theorem putAll_follows (h : buffer.Holds sink bytes) (capacity : Nat) (pieces : List ByteArray) :
    Follows sink (bytes ++ joined pieces) (putAll capacity buffer pieces) := by
  induction pieces generalizing buffer bytes with
  | nil => rwa [joined, ByteArray.append_empty]
  | cons piece rest ih =>
      have hput := put_follows h capacity piece
      rw [joined, ← ByteArray.append_assoc, putAll]
      split
      next after heq =>
        rw [heq] at hput
        exact ih hput
      next after heq =>
        rw [heq] at hput
        exact Overflows.append hput _

end BufferedSink

/-- A sink cannot tell pieces that come through a buffer from a single write. -/
theorem Sink.drain_eq (capacity : Nat) (sink : Sink) (pieces : List ByteArray) :
    sink.drain capacity pieces =
      (sink.fits (joined pieces).size, sink.write (joined pieces)) := by
  have hstart : BufferedSink.Holds { sink } sink .empty :=
    ⟨.empty, ByteArray.append_empty, sink.fits_zero, sink.write_empty.symm⟩
  have hall := BufferedSink.putAll_follows hstart capacity pieces
  rw [ByteArray.empty_append] at hall
  unfold Sink.drain
  match hput : BufferedSink.putAll capacity { sink } pieces with
  | (true, buffer) =>
      rw [hput] at hall
      obtain ⟨hflushed, hsink, -⟩ := BufferedSink.flush_follows hall
      dsimp only
      rw [hflushed, hsink, Bool.true_and]
  | (false, buffer) =>
      -- The failure is settled. The last attempt to pass on what is pending meets a full sink.
      rw [hput] at hall
      obtain ⟨hfits, hsink⟩ := hall
      dsimp only
      rw [BufferedSink.flush, hfits, hsink, Sink.write_write_of_not_fits hfits, Bool.false_and]

namespace FileTree

/-- Write pieces to an open location through a buffer, and say whether all bytes were taken. -/
def writeBuffered (tree : FileTree) (location : Location) (capacity : Nat)
    (pieces : List ByteArray) : Bool × FileTree :=
  match tree.node? location with
  | some (.file contents) =>
    let sink : Sink := { written := contents, room := tree.room }
    let (complete, sink) := sink.drain capacity pieces
    (complete, { tree with nodes := tree.nodes.set location (.file sink.written) })
  | some (.device sink) =>
    let (complete, sink) := sink.drain capacity pieces
    (complete, { tree with nodes := tree.nodes.set location (.device sink) })
  | some .directory | none => (false, tree)

/-- A file tree cannot tell pieces that come through a buffer from a single write. -/
theorem writeBuffered_eq_write (tree : FileTree) (location : Location) (capacity : Nat)
    (pieces : List ByteArray) :
    tree.writeBuffered location capacity pieces = tree.write location (joined pieces) := by
  unfold writeBuffered write
  match tree.node? location with
  | some (.file contents) =>
      dsimp only
      rw [Sink.drain_eq]
  | some (.device sink) =>
      dsimp only
      rw [Sink.drain_eq]
  | some .directory | none => rfl

end FileTree

end FrozenScript
