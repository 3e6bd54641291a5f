import ScriptLang.Table
import ScriptLang.Value.Basic
import ScriptLang.Value.Cause

/-! Variables.

They are kept in frames, and a place in a program sees a chain of them. -/
namespace ScriptLang

structure Binding where
  value : Value
  isConstant : Bool

abbrev Frame := Table Binding

structure Frames where
  all : Array Frame := #[]

namespace Frames

def frame (fs : Frames) (id : FrameId) : Frame := fs.all.getD id.index []

def add (fs : Frames) : FrameId × Frames := (⟨fs.all.size⟩, ⟨fs.all.push []⟩)

def update (fs : Frames) (id : FrameId) (f : Frame → Frame) : Frames := ⟨fs.all.modify id.index f⟩

@[simp]
theorem frame_add_self (fs : Frames) : fs.add.2.frame ⟨fs.all.size⟩ = [] := by
  simp [add, frame, Array.getD_eq_getD_getElem?]

/-- A new frame holds what a frame that is not there seems to hold, that is, nothing. -/
theorem frame_add (fs : Frames) (id : FrameId) : fs.add.2.frame id = fs.frame id := by
  by_cases h : id.index = fs.all.size
  · simp [add, frame, Array.getD_eq_getD_getElem?, h]
  · simp [add, frame, Array.getD_eq_getD_getElem?, Array.getElem?_push, h]

theorem frame_update_self (fs : Frames) {id : FrameId} (f : Frame → Frame)
    (hid : id.index < fs.all.size) : (fs.update id f).frame id = f (fs.frame id) := by
  simp [update, frame, Array.getD_eq_getD_getElem?, Array.getElem_modify, hid]

theorem frame_update_ne (fs : Frames) {id other : FrameId} (f : Frame → Frame)
    (hne : id ≠ other) : (fs.update id f).frame other = fs.frame other := by
  have hne : id.index ≠ other.index := fun e => hne (congrArg FrameId.mk e)
  simp [update, frame, Array.getD_eq_getD_getElem?, Array.getElem?_modify, hne]

def nearest? (fs : Frames) (name : String) : List FrameId → Option (FrameId × Binding)
  | [] => none
  | id :: rest =>
    match (fs.frame id).get? name with
    | some binding => some (id, binding)
    | none => nearest? fs name rest

def lookup? (fs : Frames) (scope : Scope) (name : String) : Option Value :=
  (fs.nearest? name scope.frames).map (·.2.value)

def isConstant (fs : Frames) (scope : Scope) (name : String) : Bool :=
  (fs.nearest? name scope.frames).any (·.2.isConstant)

end Frames

abbrev Scoping := EStateM EvalCause Frames

namespace Scoping

def inner (scope : Scope) : Scoping Scope := do
  let own ← modifyGet Frames.add
  return scope.inner own

/-- Declares a name in the scope's own frame. A constant that can be seen is not declared again. -/
def declare (scope : Scope) (name : String) (value : Value) (isConstant : Bool) : Scoping Unit := do
  if (← get).isConstant scope name then throw (.constantReassignment name)
  modify (·.update scope.own (·.put name ⟨value, isConstant⟩))

def assign (scope : Scope) (name : String) (value : Value) : Scoping Unit := do
  match (← get).nearest? name scope.frames with
  | none => throw (.undefinedVariable name)
  | some (id, binding) =>
    if binding.isConstant then throw (.constantReassignment name)
    modify (·.update id (·.put name ⟨value, false⟩))

def remove (scope : Scope) (name : String) : Scoping Value := do
  match (← get).nearest? name scope.frames with
  | none => throw (.undefinedVariable name)
  | some (id, binding) =>
    if binding.isConstant then throw (.constantReassignment name)
    modify (·.update id (·.erase name))
    return binding.value

end Scoping

end ScriptLang
