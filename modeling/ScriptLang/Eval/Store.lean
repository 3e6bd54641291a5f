import ScriptLang.Scope
import ScriptLang.Value.Heap

/-! The state of a running program. -/
namespace ScriptLang

structure Member where
  value : Value
  visibility : Visibility
  owner : Class

structure Store where
  heap : Heap := {}
  frames : Frames := {}
  /-- The members of each class. -/
  statics : Array (Table Member) := #[]
  /-- The properties of each instance. -/
  members : Array (Table Member) := #[]
  /-- The printed lines in order. -/
  output : Array String := #[]
  /-- How many calls are active. -/
  depth : Nat := 0

namespace Store

def addClass (s : Store) (definition : ClassDef Node) (parent : Option Class) (scope : Scope) :
    Class × Store :=
  (⟨s.statics.size, definition, parent, scope⟩, { s with statics := s.statics.push [] })

def addInstance (s : Store) (cls : Class) : Instance × Store :=
  (⟨s.members.size, cls⟩, { s with members := s.members.push [] })

def ownStatic? (s : Store) (cls : Class) (name : String) : Option Member :=
  (s.statics.getD cls.id []).get? name

def static? (s : Store) (cls : Class) (name : String) : Option Member :=
  cls.lineage.findSome? fun holder => s.ownStatic? holder name

def putStatic (s : Store) (cls : Class) (name : String) (member : Member) : Store :=
  { s with statics := s.statics.modify cls.id (·.put name member) }

def member? (s : Store) (object : Instance) (name : String) : Option Member :=
  (s.members.getD object.id []).get? name

def putMember (s : Store) (object : Instance) (name : String) (member : Member) : Store :=
  { s with members := s.members.modify object.id (·.put name member) }

def print (s : Store) (line : String) : Store := { s with output := s.output.push line }

end Store

end ScriptLang
