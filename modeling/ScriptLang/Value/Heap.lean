import ScriptLang.Dict
import ScriptLang.Value.Basic

/-! The heap: what lists and dictionaries hold. -/
namespace ScriptLang

structure Heap where
  lists : Array (Array Value) := #[]
  dicts : Array (Dict Value) := #[]

namespace Heap

def list (h : Heap) (id : ListId) : Array Value := h.lists.getD id.index #[]

def dict (h : Heap) (id : DictId) : Dict Value := h.dicts.getD id.index {}

def updateList (h : Heap) (id : ListId) (f : Array Value → Array Value) : Heap :=
  { h with lists := h.lists.modify id.index f }

def updateDict (h : Heap) (id : DictId) (f : Dict Value → Dict Value) : Heap :=
  { h with dicts := h.dicts.modify id.index f }

def addList (h : Heap) (elements : Array Value) : Value × Heap :=
  (.list ⟨h.lists.size⟩, { h with lists := h.lists.push elements })

def addDict (h : Heap) (entries : Dict Value) : Value × Heap :=
  (.dict ⟨h.dicts.size⟩, { h with dicts := h.dicts.push entries })

@[simp]
theorem list_addList_self (h : Heap) (elements : Array Value) :
    (h.addList elements).2.list ⟨h.lists.size⟩ = elements := by
  simp [addList, list, Array.getD_eq_getD_getElem?]

theorem list_updateList_self (h : Heap) {id : ListId} (f : Array Value → Array Value)
    (hid : id.index < h.lists.size) : (h.updateList id f).list id = f (h.list id) := by
  simp [updateList, list, Array.getD_eq_getD_getElem?, Array.getElem_modify, hid]

theorem list_updateList_ne (h : Heap) {id other : ListId} (f : Array Value → Array Value)
    (hne : id ≠ other) : (h.updateList id f).list other = h.list other := by
  have hne : id.index ≠ other.index := fun e => hne (congrArg ListId.mk e)
  simp [updateList, list, Array.getD_eq_getD_getElem?, Array.getElem?_modify, hne]

@[simp]
theorem dict_addDict_self (h : Heap) (entries : Dict Value) :
    (h.addDict entries).2.dict ⟨h.dicts.size⟩ = entries := by
  simp [addDict, dict, Array.getD_eq_getD_getElem?]

theorem dict_addDict_of_lt (h : Heap) (entries : Dict Value) {id : DictId}
    (hid : id.index < h.dicts.size) : (h.addDict entries).2.dict id = h.dict id := by
  simp [addDict, dict, Array.getD_eq_getD_getElem?, Array.getElem?_push, Nat.ne_of_lt hid]

theorem dict_updateDict_self (h : Heap) {id : DictId} (f : Dict Value → Dict Value)
    (hid : id.index < h.dicts.size) : (h.updateDict id f).dict id = f (h.dict id) := by
  simp [updateDict, dict, Array.getD_eq_getD_getElem?, Array.getElem_modify, hid]

theorem dict_updateDict_ne (h : Heap) {id other : DictId} (f : Dict Value → Dict Value)
    (hne : id ≠ other) : (h.updateDict id f).dict other = h.dict other := by
  have hne : id.index ≠ other.index := fun e => hne (congrArg DictId.mk e)
  simp [updateDict, dict, Array.getD_eq_getD_getElem?, Array.getElem?_modify, hne]

end Heap

def Value.isTrue (h : Heap) : Value → Bool
  | nothing => false
  | boolean value => value
  | number value => value != 0
  | text value => !value.isEmpty
  | list id => !(h.list id).isEmpty
  | dict id => !(h.dict id).isEmpty
  | function _ | builtin _ | .class _ | .instance _ => true

end ScriptLang
