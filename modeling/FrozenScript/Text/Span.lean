/-!
# Spans of source text

A span is a run of bytes of one source text, given by the offset of its first byte and its
length. Spans are ordered by inclusion, and `Span.join` gives the smallest span that holds two
given ones (`Span.start_join`, `Span.stop_join`).
-/

namespace FrozenScript.Text

/-- A run of bytes of a source text. -/
structure Span where
  offset : Nat
  length : Nat
  deriving DecidableEq, Repr, Inhabited

namespace Span

/-- The offset just behind the last byte of a span. -/
def stop (span : Span) : Nat :=
  span.offset + span.length

/-- The span from one offset up to another. -/
def between (start stop : Nat) : Span :=
  ⟨start, stop - start⟩

/-- The smallest span that holds both spans. -/
def join (first second : Span) : Span :=
  between (min first.offset second.offset) (max first.stop second.stop)

/-- A joined span starts where the earlier of the two spans starts. -/
@[simp] theorem start_join (first second : Span) :
    (join first second).offset = min first.offset second.offset := rfl

/-- A joined span stops where the later of the two spans stops. -/
@[simp] theorem stop_join (first second : Span) :
    (join first second).stop = max first.stop second.stop := by
  simp only [join, between, stop]
  omega

end Span

end FrozenScript.Text
