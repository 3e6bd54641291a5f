import ScriptLang.Source.Position

/-! Stretches of a source text. -/
namespace ScriptLang

structure Span where
  start : Position
  stop : Position
  deriving DecidableEq, Inhabited

namespace Span

def point (p : Position) : Span := ⟨p, p⟩

/-- The smallest stretch that covers both; on equal byte offsets the places of `a` stay. -/
def cover (a b : Span) : Span where
  start := if b.start.index < a.start.index then b.start else a.start
  stop := if b.stop.index > a.stop.index then b.stop else a.stop

theorem cover_start_index (a b : Span) :
    (a.cover b).start.index = min a.start.index b.start.index := by
  simp only [cover]; split <;> omega

theorem cover_stop_index (a b : Span) :
    (a.cover b).stop.index = max a.stop.index b.stop.index := by
  simp only [cover]; split <;> omega

end Span

end ScriptLang
