import Mathlib.Data.List.Induction
import ScriptLang.Proofs.Congruence.Rule
import ScriptLang.Proofs.Eval.Arguments

/-! Loops through the elements of a value. Main statement: the body runs for the elements that the value has when
the loop begins, one after the other and each time in a frame of its own, until it breaks, returns or fails. -/
namespace ScriptLang

variable {v : Value}

def Frame.ofNames (names : List (String × Value)) : Frame :=
  names.foldl (fun frame entry => frame.put entry.1 ⟨entry.2, false⟩) []

/-- A store with one more frame, for a turn that declares some names. -/
def Store.inTurn (s : Store) (names : List (String × Value)) : Store :=
  { s with frames := ⟨s.frames.all.push (Frame.ofNames names)⟩ }

/-- Where the body of a loop is evaluated in a turn that begins in some store. -/
def Context.inTurn (ctx : Context) (label : String) (position : Position) (s : Store) : Context :=
  { ctx with trace := ctx.trace.enter label position, scope := ctx.scope.inner ⟨s.frames.all.size⟩ }

namespace Loop

/-- A run of the body of a loop: the names that the turn declares, the store before it, and how it ends. -/
structure Run where
  names : List (String × Value)
  before : Store
  result : EStateM.Result Interrupt Store Value

namespace Run

def left (run : Run) : Store :=
  match run.result with
  | .ok _ t => t
  | .error _ t => t

def value? (run : Run) : Option Value :=
  match run.result with
  | .ok v _ => some v
  | .error .. => none

/-- Whether there may be a turn after a run: it ends with a value or with `continue`. -/
def GoesOn (run : Run) : Prop :=
  match run.result with
  | .ok .. => True
  | .error e _ => e = .continued

end Run

def leaves (s : Store) (runs : List Run) : Store := (runs.getLast?.map Run.left).getD s

/-- Runs that come one after the other, the first one in the store `s`. -/
def Linked : Store → List Run → Prop
  | _, [] => True
  | s, run :: runs => run.before = s ∧ Linked run.left runs

/-- How the runs of a loop end, if `next` is what the turn behind them would declare. -/
inductive Ends (ctx : Context) (span : Span) (next : Option (List (String × Value))) (s : Store) :
    List Run → EStateM.Result Interrupt Store Unit → Prop
  | finished {runs : List Run} (goOn : ∀ run ∈ runs, run.GoesOn) (none : next = none) :
      Ends ctx span next s runs (.ok () (leaves s runs))
  | constant {runs : List Run} {earlier later : List (String × Value)} {entry : String × Value}
      (goOn : ∀ run ∈ runs, run.GoesOn) (some : next = some (earlier ++ entry :: later))
      (constant : (leaves s runs).frames.isConstant ctx.scope entry.1 = true) :
      Ends ctx span next s runs
        (Eval.fail ctx.trace span (.constantReassignment entry.1) ((leaves s runs).inTurn earlier))
  | broken {runs : List Run} {last : Run} {t : Store} (goOn : ∀ run ∈ runs, run.GoesOn)
      (broken : last.result = .error .broken t) : Ends ctx span next s (runs ++ [last]) (.ok () t)
  | left {runs : List Run} {last : Run} {e : Interrupt} {t : Store} (goOn : ∀ run ∈ runs, run.GoesOn)
      (left : last.result = .error e t) (unbroken : e ≠ .broken) (discontinued : e ≠ .continued) :
      Ends ctx span next s (runs ++ [last]) (.error e t)

/-- What a loop gives after some runs: a list of their values, unless it is left or the values are discarded. -/
def report (discards : Bool) (runs : List Run) :
    EStateM.Result Interrupt Store Unit → EStateM.Result Interrupt Store Value
  | .ok () t =>
    if discards then .ok .nothing t
    else .ok (.list ⟨t.heap.lists.size⟩) { t with
      heap.lists := t.heap.lists.push (runs.filterMap Run.value?).toArray }
  | .error e t => .error e t

theorem leaves_cons (s : Store) (run : Run) (runs : List Run) : leaves s (run :: runs) = leaves run.left runs := by
  cases h : runs.getLast? <;> simp [leaves, List.getLast?_cons, h]

theorem Ends.cons {ctx : Context} {span : Span} {next : Option (List (String × Value))} {run : Run}
    {runs : List Run} {result : EStateM.Result Interrupt Store Unit} (hon : run.GoesOn) (s : Store)
    (h : Ends ctx span next run.left runs result) : Ends ctx span next s (run :: runs) result := by
  cases h with
  | finished goOn none =>
    rw [← leaves_cons s]
    exact .finished (List.forall_mem_cons.mpr ⟨hon, goOn⟩) none
  | constant goOn some constant =>
    rw [← leaves_cons s] at constant ⊢
    exact .constant (List.forall_mem_cons.mpr ⟨hon, goOn⟩) some constant
  | broken goOn broken => exact .broken (List.forall_mem_cons.mpr ⟨hon, goOn⟩) broken
  | left goOn left unbroken discontinued =>
    exact .left (List.forall_mem_cons.mpr ⟨hon, goOn⟩) left unbroken discontinued

end Loop

namespace Frames

theorem update_push (all : Array Frame) (frame : Frame) (f : Frame → Frame) :
    (⟨all.push frame⟩ : Frames).update ⟨all.size⟩ f = ⟨all.push (f frame)⟩ := by
  refine congrArg Frames.mk (Array.ext (by simp) fun i hi hi' => ?_)
  rw [Array.getElem_modify, Array.getElem_push, Array.getElem_push]
  by_cases h : i < all.size
  · simp [h, Nat.ne_of_gt h]
  · have heq : all.size = i := by simp at hi; omega
    simp [heq]

theorem lookup?_push {all : Array Frame} {frame : Frame} {scope : Scope} {name : String} {binding : Binding}
    (h : frame.get? name = some binding) :
    (⟨all.push frame⟩ : Frames).lookup? (scope.inner ⟨all.size⟩) name = some binding.value := by
  have hframe : (⟨all.push frame⟩ : Frames).frame ⟨all.size⟩ = frame := by
    simp [Frames.frame, Array.getD_eq_getD_getElem?]
  rw [lookup?, Scope.frames, nearest?, Scope.inner, hframe, h]
  rfl

end Frames

section InTurn

variable {label : String} {position : Position} {ctx : Context} {s : Store} {names : List (String × Value)}

theorem Store.inTurn_concat (s : Store) (names : List (String × Value)) (name : String) (value : Value) :
    s.inTurn (names ++ [(name, value)]) = { s.inTurn names with
      frames := (s.inTurn names).frames.update ⟨s.frames.all.size⟩ (·.put name ⟨value, false⟩) } := by
  rw [Store.inTurn, Frame.ofNames, List.foldl_append]
  exact congrArg (fun frames => { s with frames }) (Frames.update_push ..).symm

theorem Context.own_inTurn_lt (ctx : Context) (label : String) (position : Position) (s : Store)
    (names : List (String × Value)) :
    (ctx.inTurn label position s).scope.own.index < (s.inTurn names).frames.all.size := by
  simp [Context.inTurn, Scope.inner, Store.inTurn]

/-- A turn sees the constants that can be seen around the loop, unless it declares their names. -/
theorem Context.isConstant_inTurn (label : String) (position : Position) (ctx : Context) (s : Store)
    (names : List (String × Value)) (name : String) :
    (s.inTurn names).frames.isConstant (ctx.inTurn label position s).scope name =
      if name ∈ names.map Prod.fst then false else s.frames.isConstant ctx.scope name := by
  induction names using List.reverseRecOn with
  | nil => exact Machine.isConstant_add s.frames ctx.scope name
  | append_singleton names entry ih =>
    rw [Store.inTurn_concat]
    refine (Machine.isConstant_put (ctx.own_inTurn_lt label position s names) entry.1 name entry.2).trans ?_
    by_cases h : entry.1 = name
    · rw [if_pos h, if_pos (by simp [h])]
    · have hmem : name ∈ (names ++ [entry]).map Prod.fst ↔ name ∈ names.map Prod.fst := by
        rw [List.map_append, List.mem_append, or_iff_left (by simpa using Ne.symm h)]
      rw [if_neg h, ih]
      simp only [hmem]

namespace Machine

/-- What a turn does before its body: it declares names, in a scope that the turn is in. -/
def declares (span : Span) (ctx : Context) (scope : Scope) (names : List (String × Value)) : Eval Unit :=
  names.forM fun entry => .onFrames ctx.trace span (.declare scope entry.1 entry.2 false)

theorem declares_append (span : Span) (ctx : Context) (scope : Scope) (xs ys : List (String × Value)) :
    declares span ctx scope (xs ++ ys) = (declares span ctx scope xs >>= fun _ => declares span ctx scope ys) :=
  List.forM_append

theorem declares_of_free (span : Span) {earlier : List (String × Value)}
    (hfree : ∀ entry ∈ names, s.frames.isConstant ctx.scope entry.1 = false) :
    declares span ctx (ctx.inTurn label position s).scope names (s.inTurn earlier) =
      .ok () (s.inTurn (earlier ++ names)) := by
  induction names generalizing earlier with
  | nil => rw [List.append_nil]; rfl
  | cons entry names ih =>
    have hdeclare := onFrames_declare ⟨"", span, ctx.trace⟩ (ctx.inTurn label position s).scope entry.1 entry.2
      (s.inTurn earlier)
    rw [ctx.isConstant_inTurn, hfree entry List.mem_cons_self, ite_self, if_neg Bool.false_ne_true] at hdeclare
    refine (Eval.bind_of_ok hdeclare).trans ?_
    rw [List.append_cons, ← ih fun entry h => hfree entry (List.mem_cons_of_mem _ h), Store.inTurn_concat]
    rfl

theorem declares_of_constant (span : Span) {earlier later : List (String × Value)} {entry : String × Value}
    (hfree : ∀ entry ∈ earlier, s.frames.isConstant ctx.scope entry.1 = false)
    (hconstant : s.frames.isConstant ctx.scope entry.1 = true) :
    declares span ctx (ctx.inTurn label position s).scope (earlier ++ entry :: later) (s.inTurn []) =
      Eval.fail ctx.trace span (.constantReassignment entry.1) (s.inTurn earlier) := by
  have hdeclare := onFrames_declare ⟨"", span, ctx.trace⟩ (ctx.inTurn label position s).scope entry.1 entry.2
    (s.inTurn earlier)
  have hnew : entry.1 ∉ earlier.map Prod.fst := by
    intro hmem
    obtain ⟨other, hother, heq⟩ := List.mem_map.mp hmem
    rw [← heq, hfree other hother] at hconstant
    cases hconstant
  rw [ctx.isConstant_inTurn, if_neg hnew, if_pos hconstant] at hdeclare
  rw [declares_append]
  exact (Eval.bind_of_ok (declares_of_free span hfree)).trans (Eval.bind_of_fail hdeclare)

theorem iteration_eq (m : Machine) (label : String) (names : List (String × Value)) (body : Node) (span : Span)
    (ctx : Context) (s : Store) : m.iteration label names body span ctx s =
      (declares span ctx (ctx.inTurn label span.start s).scope names >>= fun _ =>
        m.turn body (ctx.inTurn label span.start s)) (s.inTurn []) := rfl

variable (m : Machine) (label : String) (body : Node) (span : Span)

/-- The body runs where no name of the turn is that of a constant. -/
theorem iteration_of_free (hfree : ∀ entry ∈ names, s.frames.isConstant ctx.scope entry.1 = false) :
    m.iteration label names body span ctx s = m.turn body (ctx.inTurn label span.start s) (s.inTurn names) := by
  rw [iteration_eq]
  exact Eval.bind_of_ok (declares_of_free span hfree)

theorem iteration_of_constant (hconstant : ∃ entry ∈ names, s.frames.isConstant ctx.scope entry.1 = true) :
    ∃ earlier entry later, names = earlier ++ entry :: later ∧ s.frames.isConstant ctx.scope entry.1 = true ∧
    m.iteration label names body span ctx s =
      Eval.fail ctx.trace span (.constantReassignment entry.1) (s.inTurn earlier) := by
  obtain ⟨entry, hfind⟩ := Option.isSome_iff_exists.mp (List.find?_isSome.mpr hconstant)
  obtain ⟨hentry, earlier, later, rfl, hfree⟩ := List.find?_eq_some_iff_append.mp hfind
  refine ⟨earlier, entry, later, rfl, hentry, ?_⟩
  rw [iteration_eq]
  exact Eval.bind_of_fail (declares_of_constant span (by simpa using hfree) hentry)

end Machine

end InTurn

structure Machine.Runs (m : Machine) (label : String) (body : Node) (span : Span) (ctx : Context)
    (run : Loop.Run) : Prop where
  free : ∀ entry ∈ run.names, run.before.frames.isConstant ctx.scope entry.1 = false
  result : run.result =
    m.eval body (ctx.inTurn label span.start run.before) (run.before.inTurn run.names)

/-- The turns of a loop through some names: its runs, and how it is left. -/
inductive Machine.Walk (m : Machine) (label : String) (body : Node) (span : Span) (ctx : Context) :
    List (List (String × Value)) → Store → List Loop.Run → EStateM.Result Interrupt Store Unit → Prop
  | done {s : Store} : Walk m label body span ctx [] s [] (.ok () s)
  | next {run : Loop.Run} {items : List (List (String × Value))} {runs : List Loop.Run}
      {result : EStateM.Result Interrupt Store Unit} (runsBody : m.Runs label body span ctx run)
      (goesOn : run.GoesOn) (rest : Walk m label body span ctx items run.left runs result) :
      Walk m label body span ctx (run.names :: items) run.before (run :: runs) result
  | broken {run : Loop.Run} {items : List (List (String × Value))} {t : Store}
      (runsBody : m.Runs label body span ctx run) (broken : run.result = .error .broken t) :
      Walk m label body span ctx (run.names :: items) run.before [run] (.ok () t)
  | left {run : Loop.Run} {items : List (List (String × Value))} {e : Interrupt} {t : Store}
      (runsBody : m.Runs label body span ctx run) (ends : run.result = .error e t)
      (unbroken : e ≠ .broken) (discontinued : e ≠ .continued) :
      Walk m label body span ctx (run.names :: items) run.before [run] (.error e t)
  | constant {earlier later : List (String × Value)} {entry : String × Value}
      {items : List (List (String × Value))} {s : Store}
      (constant : s.frames.isConstant ctx.scope entry.1 = true) :
      Walk m label body span ctx ((earlier ++ entry :: later) :: items) s []
        (Eval.fail ctx.trace span (.constantReassignment entry.1) (s.inTurn earlier))

namespace Machine

variable {m : Machine} {label : String} {body : Node} {span : Span} {ctx : Context}

def gathered (values : Array Value) (result : EStateM.Result Interrupt Store Unit) :
    EStateM.Result Interrupt Store (Array Value) :=
  match result with
  | .ok () t => .ok values t
  | .error e t => .error e t

theorem turn_of_ok {s t : Store} (h : m.eval body ctx s = .ok v t) : m.turn body ctx s = .ok (.next (some v)) t :=
  Eval.tryCatch_of_ok (Eval.bind_of_ok h)

theorem turn_of_continued {s t : Store} (h : m.eval body ctx s = .error .continued t) :
    m.turn body ctx s = .ok (.next none) t :=
  Eval.tryCatch_of_error (Eval.bind_of_error h)

theorem turn_of_broken {s t : Store} (h : m.eval body ctx s = .error .broken t) :
    m.turn body ctx s = .ok (.done ()) t :=
  Eval.tryCatch_of_error (Eval.bind_of_error h)

theorem turn_of_error {s t : Store} {e : Interrupt} (h : m.eval body ctx s = .error e t)
    (hbroken : e ≠ .broken) (hcontinued : e ≠ .continued) : m.turn body ctx s = .error e t := by
  refine (Eval.tryCatch_of_error (Eval.bind_of_error h)).trans ?_
  cases e with
  | broken => exact absurd rfl hbroken
  | continued => exact absurd rfl hcontinued
  | _ => rfl

/-- A turn that goes on hands on the value of its run, if there is one. -/
theorem Runs.iteration_next {run : Loop.Run} (hrun : m.Runs label body span ctx run) (hon : run.GoesOn) :
    m.iteration label run.names body span ctx run.before = .ok (.next run.value?) run.left := by
  rw [m.iteration_of_free label body span hrun.free, Loop.Run.value?, Loop.Run.left]
  rw [Loop.Run.GoesOn] at hon
  cases hresult : run.result with
  | ok v t => exact turn_of_ok (hrun.result.symm.trans hresult)
  | error e t =>
    rw [hresult] at hon
    cases (show e = .continued from hon)
    exact turn_of_continued (hrun.result.symm.trans hresult)

theorem gather_run (discards : Bool) (collected : Array Value) (run : Loop.Run) (runs : List Loop.Run) :
    (if discards then Loop.gather discards collected run.value?
      else Loop.gather discards collected run.value? ++ (runs.filterMap Loop.Run.value?).toArray) =
    if discards then collected else collected ++ ((run :: runs).filterMap Loop.Run.value?).toArray := by
  cases discards with
  | true => rfl
  | false => cases h : run.value? <;> simp [Loop.gather, h]

section

variable (m label body span ctx) (discards : Bool)

/-- A loop that walks through some names, with the values of earlier turns. -/
def Walks (items : List (List (String × Value))) (collected : Array Value) (s : Store)
    (loop : Eval (Array Value)) : Prop :=
  ∃ runs result, m.Walk label body span ctx items s runs result ∧ loop s = gathered
    (if discards then collected else collected ++ (runs.filterMap Loop.Run.value?).toArray) result

/-- A turn and what comes behind it, if that walks through the other items. -/
theorem iteration_walk (names : List (String × Value)) {items : List (List (String × Value))}
    {rest : Array Value → Eval (Array Value)}
    (hrest : ∀ collected s, m.Walks label body span ctx discards items collected s (rest collected))
    (collected : Array Value) (s : Store) : m.Walks label body span ctx discards (names :: items) collected s
      (m.iteration label names body span ctx >>= proceed discards collected rest) := by
  by_cases hconstant : ∃ entry ∈ names, s.frames.isConstant ctx.scope entry.1 = true
  · obtain ⟨earlier, entry, later, rfl, hentry, hiteration⟩ := m.iteration_of_constant label body span hconstant
    refine ⟨[], _, .constant hentry, ?_⟩
    rw [Eval.bind_of_fail hiteration]
    rfl
  let run : Loop.Run := ⟨names, s, m.eval body (ctx.inTurn label span.start s) (s.inTurn names)⟩
  have hrun : m.Runs label body span ctx run := ⟨by simpa using hconstant, rfl⟩
  by_cases hon : run.GoesOn
  · obtain ⟨runs, result, hwalk, hrest⟩ := hrest (Loop.gather discards collected run.value?) run.left
    refine ⟨run :: runs, result, .next hrun hon hwalk, ?_⟩
    rw [Eval.bind_of_ok (hrun.iteration_next hon), ← gather_run]
    exact hrest
  have hiteration := m.iteration_of_free label body span hrun.free
  cases hresult : run.result with
  | ok v t => exact absurd (by rw [Loop.Run.GoesOn, hresult]; trivial) hon
  | error e t =>
    have hnone : [run].filterMap Loop.Run.value? = [] := by simp [Loop.Run.value?, hresult]
    by_cases hbroken : e = .broken
    · cases hbroken
      refine ⟨[run], _, .broken hrun hresult, ?_⟩
      rw [Eval.bind_of_ok (hiteration.trans (turn_of_broken hresult)), hnone, Array.append_empty, ite_self]
      rfl
    · have hcontinued : e ≠ .continued := fun h => hon (by rw [Loop.Run.GoesOn, hresult]; exact h)
      refine ⟨[run], _, .left hrun hresult hbroken hcontinued, ?_⟩
      rw [Eval.bind_of_error (hiteration.trans (turn_of_error hresult hbroken hcontinued))]
      rfl

theorem walk_nil (collected : Array Value) (s : Store) :
    m.Walks label body span ctx discards [] collected s (pure collected) := by
  refine ⟨[], _, .done, ?_⟩
  rw [List.filterMap_nil, Array.append_empty, ite_self]
  rfl

theorem each_walk (items : List (List (String × Value))) (collected : Array Value) (s : Store) :
    m.Walks "<foreach>" body span ctx discards items collected s (m.each body discards span ctx items collected) := by
  induction items generalizing collected s with
  | nil => exact m.walk_nil ..
  | cons names items ih =>
    rw [each_cons]
    exact m.iteration_walk _ _ _ _ _ names ih collected s

end

namespace Walk

variable {items : List (List (String × Value))} {s : Store} {runs : List Loop.Run}
  {result : EStateM.Result Interrupt Store Unit}

variable (h : m.Walk label body span ctx items s runs result)

include h

/-- The turns are for the items in their order. -/
theorem runs_getElem? {i : Nat} {run : Loop.Run} (hi : runs[i]? = some run) :
    items[i]? = some run.names ∧ m.Runs label body span ctx run := by
  induction h generalizing i with
  | done | constant => cases hi
  | next hrun _ _ ih =>
    cases i with
    | zero =>
      cases hi
      exact ⟨rfl, hrun⟩
    | succ i => exact ih hi
  | broken hrun | left hrun =>
    obtain ⟨rfl, rfl⟩ : i = 0 ∧ _ = run := by simpa [List.getElem?_singleton] using hi
    exact ⟨rfl, hrun⟩

theorem linked : Loop.Linked s runs := by
  induction h with
  | done | constant => trivial
  | next _ _ _ ih => exact ⟨rfl, ih⟩
  | broken | left => exact ⟨rfl, trivial⟩

theorem ends : Loop.Ends ctx span items[runs.length]? s runs result := by
  induction h with
  | done => exact .finished (List.forall_mem_nil _) rfl
  | next _ hon _ ih => exact ih.cons hon _
  | broken _ hbroken => exact .broken (List.forall_mem_nil _) hbroken
  | left _ hleft hbroken hcontinued => exact .left (List.forall_mem_nil _) hleft hbroken hcontinued
  | constant hconstant => exact .constant (List.forall_mem_nil _) rfl hconstant

end Walk

end Machine

/-- The element of a list, dictionary or text at a place, behind its index or key. -/
def Value.elementAt? (h : Heap) (i : Nat) : Value → Option (Value × Value)
  | .list id => (h.list id)[i]?.map fun value => (.number (Float.ofNat i), value)
  | .dict id => (h.dict id).toList[i]?.map fun entry => (.text entry.1, entry.2)
  | .text characters => characters.toList[i]?.map fun c => (.number (Float.ofNat i), .text c.toString)
  | _ => none

theorem Value.items_getElem? {h : Heap} {items : List (Value × Value)}
    (hitems : v.items h = some items) (i : Nat) : items[i]? = v.elementAt? h i := by
  cases v with
  | list | dict | text =>
    cases hitems
    simp [elementAt?, Function.comp_def]
  | _ => cases hitems

def Value.isDict : Value → Bool
  | .dict _ => true
  | _ => false

/-- A run for an element: the body sees it by its name, and its index or key by the other one. -/
structure Loop.Run.Visits (run : Loop.Run) (scope : Scope) (key : Option String) (value : String)
    (keysOnly : Bool) (item : Value × Value) : Prop where
  element : (run.before.inTurn run.names).frames.lookup? scope value =
    some (if key.isNone && keysOnly then item.1 else item.2)
  position : ∀ name ∈ key, name ≠ value →
    (run.before.inTurn run.names).frames.lookup? scope name = some item.1

theorem Loop.Run.visits (ctx : Context) (label : String) (position : Position) (before : Store) (key : Option String)
    (value : String) (keysOnly : Bool) (item : Value × Value) (result : EStateM.Result Interrupt Store Value) :
    (Run.mk (itemNames key value keysOnly item) before result).Visits (ctx.inTurn label position before).scope
      key value keysOnly item where
  element := by
    have hframe : (Frame.ofNames (itemNames key value keysOnly item)).get? value =
        some ⟨if key.isNone && keysOnly then item.1 else item.2, false⟩ := by
      cases key <;> simp [Frame.ofNames, itemNames]
    exact Frames.lookup?_push hframe
  position name hname hne := by
    cases hname
    have hframe : (Frame.ofNames (itemNames (some name) value keysOnly item)).get? name =
        some ⟨item.1, false⟩ := by
      simp [Frame.ofNames, itemNames, Table.get?_put_ne hne.symm]
    exact Frames.lookup?_push hframe

/-- The value of a loop, once its turns are known. -/
theorem Machine.collect_gathered {loop : Eval (Array Value)} {discards : Bool} {runs : List Loop.Run} {s : Store}
    {result : EStateM.Result Interrupt Store Unit}
    (h : loop s = gathered (if discards then #[] else #[] ++ (runs.filterMap Loop.Run.value?).toArray) result) :
    (loop >>= Loop.collect discards) s = Loop.report discards runs result := by
  cases result with
  | ok u t =>
    refine (Eval.bind_of_ok h).trans ?_
    cases discards with
    | true => rfl
    | false =>
      rw [if_neg Bool.false_ne_true, Array.empty_append]
      rfl
  | error e t => exact Eval.bind_of_error h

/-- The loop is what its turns make of it. -/
theorem Machine.eachLoop_eq (m : Machine) {source : Node} (key : Option String) (value : String) (body : Node)
    (discards : Bool) (span : Span) (ctx : Context) {s s₀ : Store} {items : List (Value × Value)}
    (hsource : m.eval source ctx s = .ok v s₀) (hitems : v.items s₀.heap = some items) :
    ∃ runs result,
      m.Walk "<foreach>" body span ctx (items.map (Loop.itemNames key value v.isDict)) s₀ runs result ∧
      m.rule ⟨.eachLoop source key value body discards, span⟩ ctx s = Loop.report discards runs result := by
  obtain ⟨runs, result, hwalk, heach⟩ := m.each_walk body span ctx discards
    (items.map (Loop.itemNames key value v.isDict)) #[] s₀
  refine ⟨runs, result, hwalk, ?_⟩
  change m.eachLoop source key value body discards span ctx s = _
  rw [eachLoop, Eval.bind_of_ok hsource, Eval.get_bind, hitems]
  exact collect_gathered heach

/-- A loop goes through what there is when it begins. -/
theorem foreach_walks_snapshot (m : Machine) (source : Node) (key : Option String) (value : String) (body : Node)
    (discards : Bool) (span : Span) (ctx : Context) {s s₀ : Store} {v : Value}
    (hsource : m.eval source ctx s = .ok v s₀) (hitems : (v.items s₀.heap).isSome) :
    ∃ runs result,
      (∀ i run, runs[i]? = some run → ∃ item, v.elementAt? s₀.heap i = some item ∧
        run.names = Loop.itemNames key value v.isDict item ∧
        run.Visits (ctx.inTurn "<foreach>" span.start run.before).scope key value v.isDict item ∧
        m.Runs "<foreach>" body span ctx run) ∧
      Loop.Linked s₀ runs ∧
      Loop.Ends ctx span ((v.elementAt? s₀.heap runs.length).map (Loop.itemNames key value v.isDict)) s₀ runs
        result ∧
      m.rule ⟨.eachLoop source key value body discards, span⟩ ctx s = Loop.report discards runs result := by
  obtain ⟨items, hitems⟩ := Option.isSome_iff_exists.mp hitems
  obtain ⟨runs, result, hwalk, hrule⟩ := m.eachLoop_eq key value body discards span ctx hsource hitems
  refine ⟨runs, result, fun i run hi => ?_, hwalk.linked, ?_, hrule⟩
  · obtain ⟨hnames, hrun⟩ := hwalk.runs_getElem? hi
    rw [List.getElem?_map, Value.items_getElem? hitems] at hnames
    obtain ⟨item, hitem, heq⟩ := Option.map_eq_some_iff.mp hnames
    obtain ⟨_, before, result⟩ := run
    cases heq
    exact ⟨item, hitem, rfl, Loop.Run.visits .., hrun⟩
  · rw [← Value.items_getElem? hitems, ← List.getElem?_map]
    exact hwalk.ends

/-- A list of two elements that each turn adds to is gone through in two turns at most. -/
theorem foreach_walks_snapshot_of_growing :
    let xs : Node := ⟨.lookup "xs", default⟩
    let body : Node := ⟨.assignIndex xs .push ⟨.lookup "x", default⟩, default⟩
    let loop : Node := ⟨.eachLoop xs none "x" body false, default⟩
    let s : Store := {
      heap.lists := #[#[.boolean true, .nothing]], frames.all := #[[("xs", ⟨.list ⟨0⟩, false⟩)]] }
    let ctx : Context := ⟨⟨"main", []⟩, ⟨⟨0⟩, []⟩, none⟩
    ∃ runs result, runs.length ≤ 2 ∧ Loop.Linked s runs ∧
      evaluate 0 3 loop ctx s = Loop.report false runs result := by
  intro xs body loop s ctx
  obtain ⟨runs, result, helements, hlinked, -, hloop⟩ := foreach_walks_snapshot ⟨0, 2, evaluate 0 2⟩ xs none "x"
    body false default ctx (s := s) rfl rfl
  refine ⟨runs, result, Nat.le_of_not_lt fun hlong => ?_, hlinked, hloop⟩
  obtain ⟨item, hitem, -⟩ := helements 2 _ (List.getElem?_eq_getElem hlong)
  cases hitem

end ScriptLang
