/-! Half-open byte ranges. A range may be inverted; it is then empty. -/
namespace ProblemScript

/-- The byte positions from `start` up to, and without, `stop`. -/
structure Span where
  start : Nat
  stop : Nat
deriving DecidableEq, Repr, Inhabited

namespace Span

/-- Positions handed in from outside are 64-bit words. -/
def wordBound : Nat := Nat.pow 2 64

/-- Number of positions in the range. -/
def length (s : Span) : Nat := s.stop - s.start

def isEmpty (s : Span) : Bool := s.stop ≤ s.start

/-- The position `offset` is in the range. -/
def contains (s : Span) (offset : Nat) : Bool := s.start ≤ offset && offset < s.stop

/-- Both ends of `t` lie within `s`. -/
def encloses (s t : Span) : Bool := s.start ≤ t.start && t.stop ≤ s.stop

def overlaps (s t : Span) : Bool := s.start < t.stop && t.start < s.stop

/-- The range cut down to the bounds of `outer`. -/
def clampTo (s outer : Span) : Span := ⟨max s.start outer.start, min s.stop outer.stop⟩

/-- Earlier start first, then earlier end. -/
def le (s t : Span) : Bool := s.start < t.start || (s.start == t.start && s.stop ≤ t.stop)

theorem contains_iff (s : Span) (offset : Nat) :
    s.contains offset = true ↔ s.start ≤ offset ∧ offset < s.stop := by
  simp [contains]

/-- A nonempty range is one that contains some position. -/
theorem isEmpty_eq_false_iff (s : Span) :
    s.isEmpty = false ↔ ∃ offset, s.contains offset = true := by
  simp only [isEmpty, contains_iff, decide_eq_false_iff_not]
  exact ⟨fun h => ⟨s.start, by omega, by omega⟩, fun ⟨n, h⟩ => by omega⟩

end Span
end ProblemScript
