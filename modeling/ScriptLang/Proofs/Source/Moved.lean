import ScriptLang.Source.Span

/-! Places and stretches of a text that stands behind another one, which ends with a line break or is
empty. -/
namespace ScriptLang

namespace Position

/-- Where `p` is when its text stands behind one that ends at `d`. -/
def moved (d p : Position) : Position := ⟨d.index + p.index, d.line + p.line, p.column⟩

@[simp]
theorem moved_origin_left (p : Position) : moved origin p = p := by
  simp [moved, origin]

theorem moved_origin {d : Position} (h : d.column = 0) : moved d origin = d := by
  obtain ⟨index, line, column⟩ := d
  subst h
  rfl

def Steady (f : Position → Position) : Prop := ∀ p c, f (p.next c) = (f p).next c

theorem Steady.after {f : Position → Position} (hf : Steady f) (p : Position) (cs : List Char) :
    f (p.after cs) = (f p).after cs := by
  induction cs generalizing p with
  | nil => rfl
  | cons c cs ih => rw [after_cons, after_cons, ih, hf]

theorem steady_moved (d : Position) : Steady (moved d) := by
  intro p c
  unfold next moved
  split
  · simp only [Nat.add_assoc]
  · simp only [Nat.add_assoc]

theorem moved_index_lt (d p q : Position) :
    (moved d p).index < (moved d q).index ↔ p.index < q.index := Nat.add_lt_add_iff_left

end Position

namespace Span

def map (f : Position → Position) (s : Span) : Span := ⟨f s.start, f s.stop⟩

/-- Where a stretch is when its text stands behind one that ends at `d`. -/
def moved (d : Position) (s : Span) : Span := ⟨.moved d s.start, .moved d s.stop⟩

@[simp]
theorem moved_origin_left (s : Span) : moved .origin s = s := by
  simp [moved]

theorem moved_cover (d : Position) (s t : Span) : moved d (s.cover t) = (moved d s).cover (moved d t) := by
  unfold moved cover
  simp only [gt_iff_lt, Position.moved_index_lt]
  split <;> split <;> rfl

end Span

end ScriptLang
