import Mathlib.Data.List.Basic
import ScriptLang.Proofs.Congruence.Rule
import ScriptLang.Proofs.Lexical.Session

/-! Histories of methods of one name: which classes' bodies a run enters, and which classes ask for what is
declared above them.

A run is observed by rules of evaluation that take notes in front of the output, where no program sees them. A
history belongs to a run if it tells what is noted, whatever the notes are. -/
namespace ScriptLang

/-- What code of a class does, and what is `self` there: the body of its method begins, or it asks for the
method that is declared above. -/
inductive Mark where
  | enters (cls : Class) (self : Option Value)
  | asks (cls : Class) (self : Option Value)

/-- What is noted: that something begins, and whether it was completed when it ends. -/
inductive Sign where
  | begins (mark : Mark)
  | ends (completed : Bool)

/-- Visits one after the other, each with those that are made inside of it. -/
inductive History where
  | nil
  | visit (mark : Mark) (completed : Bool) (inside later : History)

namespace History

variable {F G : History} {P : Mark → Bool → History → Prop}

def append : History → History → History
  | nil, G => G
  | visit mark completed inside later, G => visit mark completed inside (later.append G)

instance : Append History := ⟨append⟩

def signs : History → List Sign
  | nil => []
  | visit mark completed inside later => .begins mark :: (inside.signs ++ .ends completed :: later.signs)

def front : History → List (Mark × Bool)
  | nil => []
  | visit mark completed _ later => (mark, completed) :: later.front

def entries : History → List (Class × Option Value)
  | nil => []
  | visit (.enters cls self) _ inside later => (cls, self) :: (inside.entries ++ later.entries)
  | visit (.asks _ _) _ inside later => inside.entries ++ later.entries

/-- Something holds of all visits, with what is inside of them. -/
def All (P : Mark → Bool → History → Prop) : History → Prop
  | nil => True
  | visit mark completed inside later => P mark completed inside ∧ inside.All P ∧ later.All P

def within (F : History) (completed : Bool) : Option Mark → History
  | none => F
  | some mark => visit mark completed F nil

theorem append_nil (F : History) : F ++ nil = F := by
  induction F with
  | nil => rfl
  | visit mark completed inside later _ ih => exact congrArg (visit mark completed inside) ih

theorem append_assoc (F G H : History) : F ++ G ++ H = F ++ (G ++ H) := by
  induction F with
  | nil => rfl
  | visit mark completed inside later _ ih => exact congrArg (visit mark completed inside) ih

theorem signs_append (F G : History) : (F ++ G).signs = F.signs ++ G.signs := by
  induction F with
  | nil => rfl
  | visit mark completed inside later _ ih =>
    change _ :: (_ ++ _ :: (later ++ G).signs) = _
    rw [ih, signs, List.cons_append, List.append_assoc, List.cons_append]

theorem All.append (hF : F.All P) (hG : G.All P) : (F ++ G).All P := by
  induction F with
  | nil => exact hG
  | visit mark completed inside later _ ih => exact ⟨hF.1, hF.2.1, ih hF.2.2⟩

theorem All.within (h : F.All P) {completed : Bool} (mark : Option Mark) (hmark : ∀ m ∈ mark, P m completed F) :
    (F.within completed mark).All P := by
  cases mark with
  | none => exact h
  | some m => exact ⟨hmark m rfl, h, trivial⟩

end History

/-- A store with notes in front of what was printed, the last one first. -/
def Store.noted (lines : List String) (s : Store) : Store :=
  { s with output := lines.reverse.toArray ++ s.output }

theorem Store.noted_noted (first second : List String) (s : Store) :
    (s.noted first).noted second = s.noted (first ++ second) := by
  simp [noted, ← Array.append_assoc]

namespace Eval

variable {α β : Type} {note : Sign → String} {F G : History} {x y : Eval α} {f g : α → Eval β} {s t : Store}

def ended (lines : List String) : EStateM.Result Interrupt Store α → EStateM.Result Interrupt Store α
  | .ok a s => .ok a (s.noted lines)
  | .error i s => .error i (s.noted lines)

/-- From a store, the first evaluation does the same as the second one, and notes a history. -/
def Notes (note : Sign → String) (F : History) (x y : Eval α) (s : Store) : Prop :=
  ∀ before, x (s.noted before) = ended (before ++ F.signs.map note) (y s)

namespace Notes

variable {c d : Interrupt → Eval α}

/-- What is not changed by notes and takes none. -/
theorem quiet (h : ∀ before, x (s.noted before) = ended before (y s)) : Notes note .nil x y s := fun before => by
  rw [h, History.signs, List.map_nil, List.append_nil]

section

variable (h : Notes note F x y s)

include h

theorem bind_ok {a : α} (hy : y s = .ok a t) (next : Notes note G (f a) (g a) t) :
    Notes note (F ++ G) (x >>= f) (y >>= g) s := by
  intro before
  have hx := h before
  rw [hy] at hx
  rw [bind_of_ok hx, bind_of_ok hy, next, History.signs_append, List.map_append, List.append_assoc]

theorem bind_error {i : Interrupt} (hy : y s = .error i t) : Notes note F (x >>= f) (y >>= g) s := by
  intro before
  have hx := h before
  rw [hy] at hx
  rw [bind_of_error hx, bind_of_error hy, ended]

theorem tryCatch_ok {a : α} (hy : y s = .ok a t) : Notes note F (tryCatch x c) (tryCatch y d) s := by
  intro before
  have hx := h before
  rw [hy] at hx
  rw [tryCatch_of_ok hx, tryCatch_of_ok hy, ended]

theorem tryCatch_error {i : Interrupt} (hy : y s = .error i t) (rescue : Notes note G (c i) (d i) t) :
    Notes note (F ++ G) (tryCatch x c) (tryCatch y d) s := by
  intro before
  have hx := h before
  rw [hy] at hx
  rw [tryCatch_of_error hx, tryCatch_of_error hy, rescue, History.signs_append, List.map_append,
    List.append_assoc]

end

theorem onFrames (trace : Trace) (span : Span) (action : Scoping α) :
    Notes note .nil (onFrames trace span action) (onFrames trace span action) s := by
  refine quiet fun before => ?_
  unfold Eval.onFrames Store.noted
  dsimp only
  cases action s.frames <;> rfl

theorem guarded {limit : Nat} (trace : Trace) (span : Span)
    (h : Notes note F x y { s with depth := s.depth + 1 }) (hdepth : s.depth < limit) :
    Notes note F (guarded limit trace span x) (guarded limit trace span y) s := by
  intro before
  have hnoted : (s.noted before).depth < limit := hdepth
  have hx : x { s.noted before with depth := (s.noted before).depth + 1 } = _ := h before
  unfold Eval.guarded
  rw [if_pos hnoted, if_pos hdepth, hx]
  cases y { s with depth := s.depth + 1 } <;> rfl

/-- The history of a run is determined. -/
theorem eq (h : Notes note F x y s) (hG : Notes note G x y s) : F.signs.map note = G.signs.map note := by
  have hends := (h []).symm.trans (hG [])
  have hlines {s : Store} {l l' : List String} (h : s.noted l = s.noted l') : l = l' := by
    simpa [Store.noted, Array.append_left_inj] using congrArg (·.output.toList) h
  cases hy : y s with
  | ok a t =>
    rw [hy] at hends
    exact hlines (EStateM.Result.ok.inj hends).2
  | error i t =>
    rw [hy] at hends
    exact hlines (EStateM.Result.error.inj hends).2

end Notes

/-- Evaluations of which the first one notes a history of the second one, with visits as `P` says. -/
def Tells (P : Mark → Bool → History → Prop) (note : Sign → String) : EvalRel := fun _ _ x y =>
  ∀ s, ∃ F : History, F.All P ∧ Notes note F x y s

variable {P : Mark → Bool → History → Prop} {own : Option FrameId}

theorem Tells.quiet (h : ∀ s before, x (s.noted before) = ended before (x s)) : Tells P note own x x :=
  fun s => ⟨.nil, trivial, .quiet (h s)⟩

theorem Tells.bind (h : Tells P note own x y) (next : ∀ a, Tells P note own (f a) (g a)) :
    Tells P note own (x >>= f) (y >>= g) := by
  intro s
  obtain ⟨F, hF, hnotes⟩ := h s
  cases hy : y s with
  | error i t => exact ⟨F, hF, hnotes.bind_error hy⟩
  | ok a t =>
    obtain ⟨G, hG, hrest⟩ := next a t
    exact ⟨F ++ G, hF.append hG, hnotes.bind_ok hy hrest⟩

/-- No program sees what was printed, so notes change nothing. -/
theorem tells (P : Mark → Bool → History → Prop) (note : Sign → String) (limit : Nat) :
    FullCongruence limit (Tells P note) where
  pure _ := .quiet fun _ _ => rfl
  throw _ := .quiet fun _ _ => rfl
  bind := .bind
  tryCatch {own α x y c d} body rescue s := by
    obtain ⟨F, hF, hnotes⟩ := body s
    cases hy : y s with
    | ok a t => exact ⟨F, hF, hnotes.tryCatch_ok hy⟩
    | error i t =>
      obtain ⟨G, hG, hrest⟩ := rescue i t
      exact ⟨F ++ G, hF.append hG, hnotes.tryCatch_error hy hrest⟩
  get hf _ next s := by
    obtain ⟨F, hF, hnotes⟩ := next s s
    exact ⟨F, hF, fun before => (congrFun (hf s _) _).trans (hnotes before)⟩
  onHeap _ _ action := .quiet fun s _ => by
    unfold onHeap Store.noted
    dsimp only
    cases action s.heap <;> rfl
  heap _ := .quiet fun _ _ => rfl
  statics _ := .quiet fun _ _ => rfl
  setMember object name value := .quiet fun s before => by
    have hsame : (s.noted before).setMember object name value = (s.setMember object name value).noted before := by
      have hmember : (s.noted before).member? object name = s.member? object name := rfl
      unfold Store.setMember
      rw [hmember]
      cases s.member? object name <;> rfl
    exact congrArg (EStateM.Result.ok ()) hsame
  print line := .quiet fun s before => by
    have hsame : (s.noted before).print line = (s.print line).noted before := by simp [Store.print, Store.noted]
    exact congrArg (EStateM.Result.ok ()) hsame
  declare _ _ _ _ _ _ := fun _ => ⟨.nil, trivial, .onFrames _ _ _⟩
  assign _ _ _ _ _ := fun _ => ⟨.nil, trivial, .onFrames _ _ _⟩
  remove _ _ _ _ := fun _ => ⟨.nil, trivial, .onFrames _ _ _⟩
  newFrame next := .bind (.quiet fun _ _ => rfl) next
  guarded {own α} trace span x y call s := by
    by_cases hdepth : s.depth < limit
    · obtain ⟨F, hF, hnotes⟩ := call { s with depth := s.depth + 1 }
      exact ⟨F, hF, hnotes.guarded trace span hdepth⟩
    · refine ⟨.nil, trivial, .quiet fun before => ?_⟩
      have hnoted : ¬(s.noted before).depth < limit := hdepth
      unfold Eval.guarded
      rw [if_neg hnoted, if_neg hdepth]
      rfl
  addInstance _ := .quiet fun _ _ => rfl
  putMember _ _ _ := .quiet fun _ _ => rfl

/-- Takes notes before and behind an evaluation, if there is something to note. -/
def around (note : Sign → String) (x : Eval α) : Option Mark → Eval α
  | none => x
  | some mark => fun s =>
    match x (s.noted [note (.begins mark)]) with
    | .ok a t => .ok a (t.noted [note (.ends true)])
    | .error i t => .error i (t.noted [note (.ends false)])

def completes (x : Eval α) (s : Store) : Bool :=
  match x s with
  | .ok _ _ => true
  | .error _ _ => false

/-- What is noted around an evaluation is a visit. -/
theorem Notes.around (h : Notes note F x y s) (mark : Option Mark) :
    Notes note (F.within (y.completes s) mark) (around note x mark) y s := by
  cases mark with
  | none => exact h
  | some mark =>
    intro before
    have hx := h (before ++ [note (.begins mark)])
    rw [← Store.noted_noted] at hx
    unfold Eval.around completes
    dsimp only
    rw [hx]
    cases y s <;> simp [ended, Store.noted_noted, History.within, History.signs]

end Eval

end ScriptLang
