import Mathlib.Logic.ExistsUnique
import ScriptLang.Proofs.Form.Basic
import ScriptLang.Proofs.Scope.Growth
import ScriptLang.Proofs.Scope.Visible

/-! Binding the arguments of a call. Main statement: a call with too few or too many arguments fails before
anything is evaluated, and any other one binds its parameters in order, so that every argument is taken by one
of them. -/
namespace ScriptLang

variable {value : Value} {name : String}

namespace Closure

def context (closure : Closure) (site : CallSite) (s : Store) : Context :=
  ⟨site.trace, closure.scope.inner s.frames.add.1, closure.classScope⟩

/-- The store in which a call binds its arguments: there is a frame for it, with `self` in a method. -/
def entered (closure : Closure) (s : Store) : Store :=
  { s with frames := (closure.receiver.map fun object =>
      s.frames.add.2.update s.frames.add.1 (·.put "self" ⟨.instance object, false⟩)).getD s.frames.add.2 }

theorem own_context_lt (closure : Closure) (site : CallSite) (s : Store) :
    (closure.context site s).scope.own.index < (closure.entered s).frames.all.size := by
  change s.frames.add.1.index < _
  cases h : closure.receiver <;> simp [entered, h, Frames.add]

end Closure

/-- The parameter at a place takes an argument: the one at the same place, or one of those that are left. -/
def Param.Takes (params : List (Param Node)) (j i : Nat) : Prop :=
  ∃ param, params[j]? = some param ∧ if param.isRest then j ≤ i else j = i

/-- A parameter becomes a variable of a context, and nothing else changes. -/
structure Context.Binds (ctx : Context) (param : Param Node) (value : Value) (s t : Store) : Prop where
  admitted : param.admits value = true
  free : s.frames.isConstant ctx.scope param.name = false
  seen : t.frames.lookup? ctx.scope param.name = some value
  others : ∀ id name, ¬(ctx.scope.own = id ∧ name = param.name) →
    (t.frames.frame id).get? name = (s.frames.frame id).get? name
  rest : t = { s with frames := t.frames }

theorem Context.Binds.lookup?_of_ne {ctx : Context} {param : Param Node} {s t : Store} (h : ctx.Binds param value s t)
    (hne : name ≠ param.name) : t.frames.lookup? ctx.scope name = s.frames.lookup? ctx.scope name := by
  rw [Frames.lookup?, Frames.lookup?, Frames.nearest?_congr fun id _ => h.others id name fun h => hne h.2]

namespace Machine

/-- What the parameter at a place of a list is bound to, and the store in which that is known. -/
inductive Supplies (m : Machine) (ctx : Context) (args : List Value) (i : Nat) (param : Param Node)
    (s : Store) : Value → Store → Prop
  | given {value : Value} (single : param.isRest = false) (given : args[i]? = some value) :
      Supplies m ctx args i param s value s
  | rest (rest : param.isRest = true) :
      Supplies m ctx args i param s (s.heap.addList (args.drop i).toArray).1
        { s with heap := (s.heap.addList (args.drop i).toArray).2 }
  | fallback {node : Node} {value : Value} {t : Store} (single : param.isRest = false)
      (missing : args.length ≤ i) (written : param.fallback = some node)
      (run : m.value node ctx s = .ok value t) : Supplies m ctx args i param s value t
  | nothing (single : param.isRest = false) (missing : args.length ≤ i)
      (unwritten : param.fallback = none) : Supplies m ctx args i param s .nothing s

/-- How the parameters from a place on are bound. It ends early where a default value fails, a value is not
of the type that is asked for, or a name is that of a constant when its turn comes. -/
inductive BindRun (m : Machine) (site : CallSite) (ctx : Context) (args : List Value) :
    Nat → List (Param Node) → Store → EStateM.Result Interrupt Store (List Value) → Prop
  | done {i : Nat} {s : Store} : BindRun m site ctx args i [] s (.ok [] s)
  | bound {i : Nat} {param : Param Node} {params : List (Param Node)} {value : Value} {values : List Value}
      {s t u v : Store} (supplied : m.Supplies ctx args i param s value t) (binds : ctx.Binds param value t u)
      (behind : BindRun m site ctx args (i + 1) params u (.ok values v)) :
      BindRun m site ctx args i (param :: params) s (.ok (value :: values) v)
  | behind {i : Nat} {param : Param Node} {params : List (Param Node)} {value : Value} {e : Interrupt}
      {s t u v : Store} (supplied : m.Supplies ctx args i param s value t) (binds : ctx.Binds param value t u)
      (behind : BindRun m site ctx args (i + 1) params u (.error e v)) :
      BindRun m site ctx args i (param :: params) s (.error e v)
  | fallback {i : Nat} {param : Param Node} {params : List (Param Node)} {node : Node} {e : Interrupt}
      {s t : Store} (single : param.isRest = false) (missing : args.length ≤ i)
      (written : param.fallback = some node) (run : m.value node ctx s = .error e t) :
      BindRun m site ctx args i (param :: params) s (.error e t)
  | type {i : Nat} {param : Param Node} {params : List (Param Node)} {value : Value} {s t : Store}
      (supplied : m.Supplies ctx args i param s value t) (wrong : param.admits value = false) :
      BindRun m site ctx args i (param :: params) s (site.fail
        (.argumentType site.name param.name (param.typeName.getD "any") value.typeOf) t)
  | constant {i : Nat} {param : Param Node} {params : List (Param Node)} {value : Value} {s t : Store}
      (supplied : m.Supplies ctx args i param s value t) (admitted : param.admits value = true)
      (constant : t.frames.isConstant ctx.scope param.name = true) :
      BindRun m site ctx args i (param :: params) s (site.fail (.constantReassignment param.name) t)

variable {m : Machine} {site : CallSite} {ctx : Context} {args : List Value} {i : Nat}
  {param : Param Node} {params : List (Param Node)} {s t : Store}

/-- What a parameter takes, and what is left for those behind it. -/
theorem argument_supplies (m : Machine) (ctx : Context) (args : List Value) (i : Nat) (param : Param Node)
    (s : Store) :
    (∃ value t, m.Supplies ctx args i param s value t ∧ m.argument ctx param (args.drop i) s =
      .ok (value, if param.isRest then [] else args.drop (i + 1)) t) ∨
    ∃ node e t, param.isRest = false ∧ args.length ≤ i ∧ param.fallback = some node ∧
      m.value node ctx s = .error e t ∧ m.argument ctx param (args.drop i) s = .error e t := by
  unfold argument
  by_cases hrest : param.isRest = true
  · left
    rw [if_pos hrest, if_pos hrest]
    exact ⟨_, _, .rest hrest, rfl⟩
  rw [if_neg hrest, if_neg hrest]
  have hsingle : param.isRest = false := Bool.eq_false_iff.mpr hrest
  by_cases hi : i < args.length
  · left
    rw [List.drop_eq_getElem_cons hi]
    exact ⟨_, _, .given hsingle (List.getElem?_eq_getElem hi), rfl⟩
  have hmissing : args.length ≤ i := Nat.le_of_not_lt hi
  rw [List.drop_eq_nil_of_le hmissing, List.drop_eq_nil_of_le (Nat.le_succ_of_le hmissing)]
  cases hfallback : param.fallback with
  | none => exact .inl ⟨_, _, .nothing hsingle hmissing hfallback, rfl⟩
  | some node =>
    cases hrun : m.value node ctx s with
    | ok value t =>
      exact .inl ⟨_, _, .fallback hsingle hmissing hfallback hrun, Eval.bind_of_ok hrun⟩
    | error e t =>
      exact .inr ⟨node, e, t, hsingle, hmissing, rfl, hrun, Eval.bind_of_error hrun⟩

theorem lookup?_put {fs : Frames} {scope : Scope} (hown : scope.own.index < fs.all.size) (name : String)
    (value : Value) : (fs.update scope.own (·.put name ⟨value, false⟩)).lookup? scope name = some value := by
  rw [Frames.lookup?, Scope.frames, Frames.nearest?, fs.frame_update_self _ hown, Table.get?_put_self]
  rfl

theorem declare_binds (hown : ctx.scope.own.index < s.frames.all.size) (hadmits : param.admits value = true)
    (hfree : s.frames.isConstant ctx.scope param.name = false) :
    ctx.Binds param value s { s with frames := s.frames.update ctx.scope.own (·.put param.name ⟨value, false⟩) } where
  admitted := hadmits
  free := hfree
  seen := lookup?_put hown _ _
  others _ _ hne :=
    s.frames.get?_update_of_ne (fun frame hname => Table.get?_put_ne hname.symm _ frame) hne
  rest := rfl

theorem onFrames_declare (site : CallSite) (scope : Scope) (name : String) (value : Value) (s : Store) :
    Eval.onFrames site.caller site.span (.declare scope name value false) s =
      if s.frames.isConstant scope name then site.fail (.constantReassignment name) s
      else .ok () { s with frames := s.frames.update scope.own (·.put name ⟨value, false⟩) } := by
  by_cases h : s.frames.isConstant scope name = true
  · have hdeclare : Scoping.declare scope name value false s.frames =
        .error (.constantReassignment name) s.frames := by
      change (if s.frames.isConstant scope name then throw _ >>= _ else _ : Scoping Unit) s.frames = _
      rw [if_pos h]
      rfl
    rw [if_pos h, Eval.onFrames, hdeclare]
    rfl
  · have hdeclare : Scoping.declare scope name value false s.frames =
        .ok () (s.frames.update scope.own (·.put name ⟨value, false⟩)) := by
      change (if s.frames.isConstant scope name then throw _ >>= _ else _ : Scoping Unit) s.frames = _
      rw [if_neg h]
      rfl
    rw [if_neg h, Eval.onFrames, hdeclare]

theorem Supplies.size_le (h : m.Supplies ctx args i param s value t)
    (hgrows : ∀ node s, s.frames.all.size ≤ ((m.value node ctx).leaves s).frames.all.size) :
    s.frames.all.size ≤ t.frames.all.size := by
  cases h with
  | given | rest | nothing => exact Nat.le_refl _
  | @fallback node _ _ _ _ _ hrun => simpa only [Eval.leaves_of_ok hrun] using hgrows node s

/-- Parameters are bound as the rules say, as long as default values take away no frames. -/
theorem bind_run (m : Machine) (site : CallSite) (args : List Value) (i : Nat)
    (hgrows : ∀ node s, s.frames.all.size ≤ ((m.value node ctx).leaves s).frames.all.size)
    (hlast : ∀ p ∈ params.dropLast, p.isRest = false) (hown : ctx.scope.own.index < s.frames.all.size) :
    m.BindRun site ctx args i params s (m.bind site ctx params (args.drop i) s) := by
  induction params generalizing i s with
  | nil => exact .done
  | cons param params ih =>
    rw [bind]
    rcases m.argument_supplies ctx args i param s with
      ⟨value, t, hsupplies, hargument⟩ | ⟨node, e, t, hsingle, hmissing, hwritten, hrun, hargument⟩
    · rw [Eval.bind_of_ok hargument]
      dsimp only
      by_cases hadmits : param.admits value = true
      · rw [if_neg (by simp [hadmits])]
        have hdeclare := onFrames_declare site ctx.scope param.name value t
        by_cases hconstant : t.frames.isConstant ctx.scope param.name = true
        · rw [if_pos hconstant] at hdeclare
          rw [Eval.bind_of_fail hdeclare]
          exact .constant hsupplies hadmits hconstant
        · rw [if_neg hconstant] at hdeclare
          rw [Eval.bind_of_ok hdeclare]
          have hown := Nat.lt_of_lt_of_le hown (hsupplies.size_le hgrows)
          have hbinds := declare_binds hown hadmits (Bool.eq_false_iff.mpr hconstant)
          -- Behind a parameter that takes all arguments there are no others.
          have hleft : m.bind site ctx params (if param.isRest then [] else args.drop (i + 1)) =
              m.bind site ctx params (args.drop (i + 1)) := by
            cases params with
            | nil => rfl
            | cons next params => rw [hlast param List.mem_cons_self, if_neg Bool.false_ne_true]
          have hbehind := ih (i + 1) (fun p hp => hlast p (by cases params with
            | nil => cases hp
            | cons next params => exact List.mem_cons_of_mem _ hp))
            (s := { t with frames := t.frames.update ctx.scope.own (·.put param.name ⟨value, false⟩) })
            (by simpa using hown)
          rw [hleft]
          cases hrun : m.bind site ctx params (args.drop (i + 1))
              { t with frames := t.frames.update ctx.scope.own (·.put param.name ⟨value, false⟩) } with
          | ok values u =>
            rw [hrun] at hbehind
            rw [Eval.bind_of_ok hrun]
            exact .bound hsupplies hbinds hbehind
          | error e u =>
            rw [hrun] at hbehind
            rw [Eval.bind_of_error hrun]
            exact .behind hsupplies hbinds hbehind
      · rw [if_pos (by simp [hadmits])]
        exact .type hsupplies (Bool.eq_false_iff.mpr hadmits)
    · rw [Eval.bind_of_error hargument]
      exact .fallback hsingle hmissing hwritten hrun

namespace BindRun

variable {values : List Value}

/-- What happens to the parameter at a place, after those before it and before those behind it. -/
theorem at_place {j : Nat} (h : m.BindRun site ctx args i params s (.ok values t))
    (hj : params[j]? = some param) : ∃ value before u after, values[j]? = some value ∧
      m.BindRun site ctx args i (params.take j) s (.ok (values.take j) before) ∧
      m.Supplies ctx args (i + j) param before value u ∧ ctx.Binds param value u after ∧
      m.BindRun site ctx args (i + j + 1) (params.drop (j + 1)) after (.ok (values.drop (j + 1)) t) := by
  induction params generalizing i j s values with
  | nil => cases hj
  | cons first params ih =>
    cases h with
    | bound hsupplies hbinds hbehind =>
      cases j with
      | zero =>
        cases hj
        exact ⟨_, s, _, _, rfl, .done, hsupplies, hbinds, hbehind⟩
      | succ j =>
        obtain ⟨value, before, u, after, hvalue, hbefore, hthere, hdeclared, hafter⟩ := ih hbehind hj
        rw [Nat.add_right_comm i 1 j] at hthere hafter
        exact ⟨value, before, u, after, hvalue, .bound hsupplies hbinds hbefore, hthere, hdeclared, hafter⟩

/-- A name keeps what it stands for while other parameters are bound, if their default values let it. -/
theorem lookup?_eq (h : m.BindRun site ctx args i params s (.ok values t))
    (hname : name ∉ params.map (·.name))
    (hkeeps : ∀ p ∈ params, ∀ node ∈ p.fallback, ∀ value s t, m.value node ctx s = .ok value t →
      t.frames.lookup? ctx.scope name = s.frames.lookup? ctx.scope name) :
    t.frames.lookup? ctx.scope name = s.frames.lookup? ctx.scope name := by
  induction params generalizing i s values with
  | nil =>
    cases h
    rfl
  | cons first params ih =>
    rw [List.map_cons, List.mem_cons, not_or] at hname
    cases h with
    | @bound _ _ _ value values _ u v _ hsupplies hbinds hbehind =>
      have hsupplied : u.frames.lookup? ctx.scope name = s.frames.lookup? ctx.scope name := by
        cases hsupplies with
        | given | rest | nothing => rfl
        | fallback _ _ hwritten hrun =>
          exact hkeeps first List.mem_cons_self _ hwritten _ _ _ hrun
      calc t.frames.lookup? ctx.scope name
        _ = v.frames.lookup? ctx.scope name :=
          ih hbehind hname.2 fun p hp => hkeeps p (List.mem_cons_of_mem _ hp)
        _ = u.frames.lookup? ctx.scope name := hbinds.lookup?_of_ne hname.1
        _ = s.frames.lookup? ctx.scope name := hsupplied

/-- Binding parameters one by one never complains about their number. -/
theorem not_arityMismatch {limit turns : Nat} {arity : Arity} {count : Nat}
    {result : EStateM.Result Interrupt Store (List Value)}
    (h : (Machine.mk limit turns fun _ _ => throw .exhausted).BindRun site ctx args i params s result) :
    result ≠ site.fail (.arityMismatch name arity count) t := by
  induction h with
  | done | bound => exact nofun
  | behind _ _ _ ih => exact ih
  | fallback _ _ _ hrun =>
    rintro ⟨⟩
    cases hrun
  | type | constant => exact nofun

end BindRun

end Machine

namespace Param.Ordered

variable {params : List (Param Node)} (h : Ordered params) {j : Nat} {param : Param Node}

include h

theorem eq_last (hj : params[j]? = some param) (hrest : param.isRest = true) : j + 1 = params.length := by
  obtain ⟨hlt, rfl⟩ := List.getElem?_eq_some_iff.mp hj
  rcases Nat.lt_or_eq_of_le (Nat.succ_le_of_lt hlt) with hbefore | hlast
  · have hmem : params[j] ∈ params.dropLast := by
      rw [← List.getElem_dropLast (by simp; omega)]
      exact List.getElem_mem _
    rw [h.restLast _ hmem] at hrest
    cases hrest
  · exact hlast

/-- The mandatory parameters stand before all others, so there is an argument for each of them. -/
theorem lt_of_mandatory {count : Nat} (hcount : (Arity.ofParams params).required ≤ count)
    (hj : params[j]? = some param) (hoptional : param.isOptional = false) (hsingle : param.isRest = false) :
    j < count := by
  obtain ⟨hlt, rfl⟩ := List.getElem?_eq_some_iff.mp hj
  have hmandatory : ∀ p ∈ params.take (j + 1), (!p.isOptional && !p.isRest) = true := by
    intro p hp
    obtain ⟨k, hk, rfl⟩ := List.mem_take_iff_getElem.mp hp
    have hkj : k < j ∨ k = j := by omega
    rcases hkj with hkj | rfl
    · have hbefore := List.pairwise_iff_getElem.mp h.optional k j (by omega) hlt hkj
      have hrest : params[k].isRest = false := Bool.eq_false_iff.mpr fun hrest => by
        have hlast := h.eq_last (List.getElem?_eq_getElem (by omega)) hrest
        omega
      have hneeded : params[k].isOptional = false := by simpa [hoptional, hsingle] using hbefore
      simp [hrest, hneeded]
    · simp [hoptional, hsingle]
  have htake : (params.take (j + 1)).countP (fun p => !p.isOptional && !p.isRest) = j + 1 := by
    rw [List.countP_eq_length.mpr hmandatory, List.length_take]
    omega
  calc j + 1
    _ = (params.take (j + 1)).countP fun p => !p.isOptional && !p.isRest := htake.symm
    _ ≤ (Arity.ofParams params).required := (List.take_sublist (j + 1) params).countP_le
    _ ≤ count := hcount

/-- Where the number of arguments is right, each of them is taken by one parameter. -/
theorem existsUnique_takes {count i : Nat} (hcount : (Arity.ofParams params).admits count = true)
    (hi : i < count) : ∃! j, Param.Takes params j i := by
  by_cases hplace : ∃ param, params[i]? = some param ∧ param.isRest = false
  · obtain ⟨param, hparam, hsingle⟩ := hplace
    refine ⟨i, ⟨param, hparam, by simp [hsingle]⟩, ?_⟩
    rintro j ⟨other, hother, htakes⟩
    split at htakes
    next hrest =>
      have hlast := h.eq_last hother hrest
      obtain ⟨hlt, _⟩ := List.getElem?_eq_some_iff.mp hparam
      omega
    next => exact htakes
  · -- No parameter takes this argument alone, so one takes all that are left.
    have hrest : ∃ r param, params[r]? = some param ∧ param.isRest = true ∧ r ≤ i := by
      by_cases hlt : i < params.length
      · exact ⟨i, params[i], List.getElem?_eq_getElem hlt, eq_true_of_ne_false fun hsingle =>
          hplace ⟨_, List.getElem?_eq_getElem hlt, hsingle⟩, Nat.le_refl i⟩
      · have hany : params.any (·.isRest) = true := eq_true_of_ne_false fun hnone => by
          simp only [Arity.admits, Arity.ofParams, hnone, Bool.false_eq_true, ↓reduceIte, Option.all_some,
            Bool.and_eq_true, decide_eq_true_eq] at hcount
          omega
        obtain ⟨param, hmem, hrest⟩ := List.any_eq_true.mp hany
        obtain ⟨r, hr, rfl⟩ := List.getElem_of_mem hmem
        exact ⟨r, params[r], List.getElem?_eq_getElem hr, hrest, by omega⟩
    obtain ⟨r, param, hparam, hrest, hle⟩ := hrest
    refine ⟨r, ⟨param, hparam, by simpa [hrest] using hle⟩, ?_⟩
    rintro j ⟨other, hother, htakes⟩
    split at htakes
    next hotherRest =>
      have hlast := h.eq_last hparam hrest
      have hotherLast := h.eq_last hother hotherRest
      omega
    next hsingle => exact (hplace ⟨other, htakes ▸ hother, Bool.eq_false_iff.mpr hsingle⟩).elim

end Param.Ordered

namespace Machine

variable {params : List (Param Node)}

theorem isConstant_add (fs : Frames) (scope : Scope) (name : String) :
    fs.add.2.isConstant (scope.inner fs.add.1) name = fs.isConstant scope name := by
  have hown : (fs.add.2.frame fs.add.1).get? name = none := by
    rw [show fs.add.1 = ⟨fs.all.size⟩ from rfl, Frames.frame_add_self, Table.get?_nil]
  have hframes : (scope.inner fs.add.1).frames = [fs.add.1] ++ scope.frames := rfl
  have hsame : fs.add.2.nearest? name scope.frames = fs.nearest? name scope.frames :=
    Frames.nearest?_congr fun id _ => by rw [Frames.frame_add]
  rw [Frames.isConstant, hframes, Frames.nearest?_append (by simpa using hown), hsame, Frames.isConstant]

/-- A variable in the innermost frame hides constants of its name and no others. -/
theorem isConstant_put {fs : Frames} {scope : Scope} (hown : scope.own.index < fs.all.size) (name other : String)
    (value : Value) : (fs.update scope.own (·.put name ⟨value, false⟩)).isConstant scope other =
      if name = other then false else fs.isConstant scope other := by
  split
  next heq =>
    rw [Frames.isConstant, Scope.frames, Frames.nearest?, fs.frame_update_self _ hown, heq, Table.get?_put_self]
    rfl
  next hne =>
    rw [Frames.isConstant, Frames.isConstant, Frames.nearest?_congr fun id _ =>
      fs.get?_update_of_ne (fun frame hname => Table.get?_put_ne hname.symm _ frame) fun h => hne h.2.symm]

/-- A call enters a frame of its own, binds its arguments there and runs its body. -/
theorem invoke_eq (m : Machine) (closure : Closure) (args : List Value) (site : CallSite) (s : Store)
    (hself : closure.receiver.isSome → s.frames.isConstant closure.scope "self" = false) :
    let ctx := closure.context site s
    m.invoke closure args site s =
      (m.bindArguments site ctx closure.code.params args >>= fun _ => m.runBody closure.code ctx)
        (closure.entered s) := by
  intro ctx
  have hdiscard (x : Eval (List Value)) (next : Unit → Eval Value) (s : Store) :
      (discard x >>= next) s = (x >>= fun _ => next ()) s := by
    cases hx : x s with
    | ok values t =>
      rw [Eval.bind_of_ok hx]
      exact Eval.bind_of_ok (Eval.bind_of_ok hx)
    | error e t =>
      rw [Eval.bind_of_error hx]
      exact Eval.bind_of_error (Eval.bind_of_error hx)
  have hinner : Eval.innerScope closure.scope s = .ok ctx.scope { s with frames := s.frames.add.2 } := rfl
  rw [invoke, Eval.bind_of_ok hinner]
  cases hreceiver : closure.receiver with
  | none =>
    have hentered : closure.entered s = { s with frames := s.frames.add.2 } := by simp [Closure.entered, hreceiver]
    rw [hentered]
    exact hdiscard _ _ _
  | some object =>
    have hentered : closure.entered s = { s with
        frames := s.frames.add.2.update ctx.scope.own (·.put "self" ⟨.instance object, false⟩) } := by
      rw [Closure.entered, hreceiver]
      rfl
    have hfree : s.frames.add.2.isConstant ctx.scope "self" = false :=
      (isConstant_add ..).trans (hself (Option.isSome_of_eq_some hreceiver))
    have hdeclare := onFrames_declare site ctx.scope "self" (.instance object)
      { s with frames := s.frames.add.2 }
    rw [if_neg (Bool.eq_false_iff.mp hfree)] at hdeclare
    rw [hentered]
    exact (Eval.bind_of_ok hdeclare).trans (hdiscard _ _ _)

theorem admits_eq_false (params : List (Param Node)) (count : Nat) :
    (Arity.ofParams params).admits count = false ↔
      count < params.countP (fun p => !p.isOptional && !p.isRest) ∨
        params.length < count ∧ ∀ p ∈ params, p.isRest = false := by
  cases hany : params.any (·.isRest) with
  | true =>
    have hsome : ¬∀ p ∈ params, p.isRest = false := by simpa using hany
    simp [Arity.admits, Arity.ofParams, hany, hsome]
  | false =>
    have hnone : ∀ p ∈ params, p.isRest = false := by simpa using hany
    rw [Arity.admits, Arity.ofParams, hany, Bool.and_eq_false_iff, and_iff_left hnone]
    simp

theorem bindArguments_of_not_admits (m : Machine) (site : CallSite) (ctx : Context)
    {args : List Value} (h : (Arity.ofParams params).admits args.length = false) (s : Store) :
    m.bindArguments site ctx params args s =
      site.fail (.arityMismatch site.name (Arity.ofParams params) args.length) s := by
  unfold bindArguments
  dsimp only
  rw [if_pos (by rw [h]; rfl)]
  rfl

theorem bindArguments_of_admits (m : Machine) (site : CallSite) (ctx : Context)
    {args : List Value} (h : (Arity.ofParams params).admits args.length = true) :
    m.bindArguments site ctx params args = m.bind site ctx params args := by
  unfold bindArguments
  dsimp only
  rw [if_neg (by rw [h]; exact Bool.false_ne_true)]

end Machine

/-- A call with fewer arguments than mandatory parameters, or with more than all parameters where none takes the
rest, fails whatever its default values would do. Any other call binds its parameters one by one as
`Machine.BindRun` says, and each argument is taken by one parameter. Once all are bound, the parameter at a
place has got what `Machine.Supplies` says after those before it, and it still stands for that when the body
starts, if no default value gives a name another meaning. -/
theorem arguments_bound (limit fuel : Nat) (closure : Closure) (args : List Value) (site : CallSite) (s : Store)
    (hparams : Param.Ordered closure.code.params)
    (hself : closure.receiver.isSome → s.frames.isConstant closure.scope "self" = false) :
    let m : Machine := ⟨limit, fuel, evaluate limit fuel⟩
    let params := closure.code.params
    let ctx := closure.context site s
    let start := closure.entered s
    let refused := args.length < params.countP (fun p => !p.isOptional && !p.isRest) ∨
      params.length < args.length ∧ ∀ p ∈ params, p.isRest = false
    m.invoke closure args site s =
      (m.bindArguments site ctx params args >>= fun _ => m.runBody closure.code ctx) start ∧
    (refused ↔ ∀ n : Machine, n.bindArguments site ctx params args start =
      site.fail (.arityMismatch site.name (Arity.ofParams params) args.length) start) ∧
    (¬refused →
      m.BindRun site ctx args 0 params start (m.bindArguments site ctx params args start) ∧
      (∀ i < args.length, ∃! j, Param.Takes params j i) ∧
      (∀ j param, params[j]? = some param → param.isOptional = false → param.isRest = false →
        j < args.length) ∧
      ∀ values t, m.bindArguments site ctx params args start = .ok values t →
        (∀ j param, params[j]? = some param → ∃ value before u after, values[j]? = some value ∧
          m.BindRun site ctx args 0 (params.take j) start (.ok (values.take j) before) ∧
          m.Supplies ctx args j param before value u ∧ ctx.Binds param value u after ∧
          m.BindRun site ctx args (j + 1) (params.drop (j + 1)) after (.ok (values.drop (j + 1)) t)) ∧
        ((∀ p ∈ params, ∀ node ∈ p.fallback, ∀ value s t, m.value node ctx s = .ok value t →
            ∀ name, t.frames.lookup? ctx.scope name = s.frames.lookup? ctx.scope name) →
          ∀ (j : Nat) (param : Param Node) value, params[j]? = some param → values[j]? = some value →
            t.frames.lookup? ctx.scope param.name = some value)) := by
  intro m params ctx start refused
  have hrefused : (Arity.ofParams params).admits args.length = false ↔ refused :=
    Machine.admits_eq_false params args.length
  have hown : ctx.scope.own.index < start.frames.all.size := closure.own_context_lt site s
  have hcongruent : Machine.Congruent Eval.Confined m m := ⟨rfl, rfl, (Eval.Confined.full limit).evaluate fuel⟩
  have hgrows (node : Node) (s : Store) : s.frames.all.size ≤ ((m.value node ctx).leaves s).frames.all.size :=
    (hcongruent.value (Eval.Confined.full limit).toCongruence node s).size
  refine ⟨m.invoke_eq closure args site s hself, ?_, fun hnot => ?_⟩
  · refine ⟨fun h n => n.bindArguments_of_not_admits site ctx (hrefused.mpr h) start, fun h => ?_⟩
    refine hrefused.mp (Bool.eq_false_iff.mpr fun hadmits => ?_)
    have hidle := h (Machine.mk limit fuel fun _ _ => throw .exhausted)
    rw [Machine.bindArguments_of_admits _ site ctx hadmits] at hidle
    have hrun := Machine.bind_run ⟨limit, fuel, fun _ _ => throw .exhausted⟩ site args 0
      (fun _ _ => Nat.le_refl _) hparams.restLast hown
    exact hrun.not_arityMismatch hidle
  · have hadmits : (Arity.ofParams params).admits args.length = true :=
      eq_true_of_ne_false fun h => hnot (hrefused.mp h)
    have hrun : m.BindRun site ctx args 0 params start (m.bindArguments site ctx params args start) := by
      rw [m.bindArguments_of_admits site ctx hadmits]
      exact m.bind_run site args 0 hgrows hparams.restLast hown
    have hrequired : (Arity.ofParams params).required ≤ args.length := by
      simp only [Arity.admits, Bool.and_eq_true, decide_eq_true_eq] at hadmits
      exact hadmits.1
    refine ⟨hrun, fun i => hparams.existsUnique_takes hadmits,
      fun j param => hparams.lt_of_mandatory hrequired, fun values t hvalues => ?_⟩
    rw [hvalues] at hrun
    refine ⟨fun j param hparam => ?_, fun hkeeps j param value hparam hvalue => ?_⟩
    · simpa only [Nat.zero_add] using hrun.at_place hparam
    · obtain ⟨found, before, u, after, hfound, _, _, hbinds, hbehind⟩ := hrun.at_place hparam
      obtain rfl : found = value := Option.some.inj (hfound.symm.trans hvalue)
      have hnotBehind : param.name ∉ (params.drop (j + 1)).map (·.name) := by
        obtain ⟨hlt, rfl⟩ := List.getElem?_eq_some_iff.mp hparam
        have hnames := hparams.names.sublist ((List.drop_sublist j params).map (·.name))
        rw [List.drop_eq_getElem_cons hlt, List.map_cons] at hnames
        exact (List.nodup_cons.mp hnames).1
      rw [hbehind.lookup?_eq hnotBehind fun p hp node hnode value s t hvalue =>
        hkeeps p (List.mem_of_mem_drop hp) node hnode value s t hvalue param.name]
      exact hbinds.seen

/-- `b` gets the value of `a`, and there are no other arguments for the rest. -/
theorem arguments_bound_sample :
    let params : List (Param Node) :=
      [{ name := "a", span := default },
        { name := "b", isOptional := true, fallback := some ⟨.lookup "a", default⟩, span := default },
        { name := "c", isRest := true, typeName := some "list", span := default }]
    let closure : Closure :=
      ⟨⟨0, some "f", params, ⟨.nothing, default⟩, true, default⟩, (Session.new 9).scope, none, none⟩
    let site : CallSite := ⟨"f", default, ⟨"<program>", []⟩⟩
    let s := (Session.new 9).store
    let ctx := closure.context site s
    let bound (args : List Value) :=
      (Machine.mk 9 2 (evaluate 9 2)).bindArguments site ctx params args (closure.entered s)
    Param.Ordered params ∧
    bound [] = site.fail (.arityMismatch "f" ⟨1, none⟩ 0) (closure.entered s) ∧
    ∃ t, bound [.boolean true] = .ok [.boolean true, .boolean true, .list ⟨0⟩] t ∧
      t.heap.list ⟨0⟩ = #[] ∧ t.frames.lookup? ctx.scope "b" = some (.boolean true) := by
  intro params closure site s ctx bound
  have hparams : Param.Ordered params :=
    ⟨by decide, by decide, by decide, by decide⟩
  have hself (h : closure.receiver.isSome) : s.frames.isConstant closure.scope "self" = false := by cases h
  have hkeeps : ∀ p ∈ params, ∀ node ∈ p.fallback, ∀ value s t,
      (Machine.mk 9 2 (evaluate 9 2)).value node ctx s = .ok value t →
      ∀ name, t.frames.lookup? ctx.scope name = s.frames.lookup? ctx.scope name := by
    intro p hp node hnode value s t hvalue name
    obtain rfl : node = ⟨.lookup "a", default⟩ := by
      simp only [params, List.mem_cons, List.not_mem_nil, or_false] at hp
      rcases hp with rfl | rfl | rfl
      · cases hnode
      · exact (Option.some.inj hnode).symm
      · cases hnode
    have hlookup : Eval.lookup? ctx.scope "a" s = .ok (s.frames.lookup? ctx.scope "a") s := rfl
    cases hfound : s.frames.lookup? ctx.scope "a" with
    | none =>
      rw [hfound] at hlookup
      have hfails : evaluate 9 2 ⟨.lookup "a", default⟩ ctx s =
        Eval.fail ctx.trace default (.undefinedVariable "a") s := Eval.bind_of_ok hlookup
      cases (Eval.tryCatch_of_error hfails).symm.trans hvalue
    | some found =>
      rw [hfound] at hlookup
      have hgives : evaluate 9 2 ⟨.lookup "a", default⟩ ctx s = .ok found s := Eval.bind_of_ok hlookup
      cases (Eval.tryCatch_of_ok hgives).symm.trans hvalue
      rfl
  have hone := arguments_bound 9 2 closure [.boolean true] site s hparams hself
  have hrun : bound [.boolean true] = .ok [.boolean true, .boolean true, .list ⟨0⟩] _ := rfl
  refine ⟨hparams, (arguments_bound 9 2 closure [] site s hparams hself).2.1.mp (.inl (by decide)) _,
    _, hrun, rfl, ?_⟩
  have hbound := (hone.2.2 (by decide)).2.2.2 _ _ hrun
  exact hbound.2 hkeeps 1 _ _ rfl rfl

/-- A default value may declare a constant with the name of a parameter behind it, which then cannot be
bound, although no constant around the function has that name, no type is asked for and no default value
fails. -/
theorem name_taken_by_default :
    let node : Node := ⟨.conditional [⟨⟨.boolean true, default⟩,
      ⟨.declareConstant "c" ⟨.boolean true, default⟩, default⟩, false⟩] none false, default⟩
    let params : List (Param Node) :=
      [{ name := "a", span := default },
        { name := "b", isOptional := true, fallback := some node, span := default },
        { name := "c", isOptional := true, fallback := some ⟨.boolean false, default⟩, span := default }]
    let closure : Closure :=
      ⟨⟨0, some "f", params, ⟨.lookup "c", default⟩, true, default⟩, (Session.new 9).scope, none, none⟩
    let site : CallSite := ⟨"f", default, ⟨"<program>", []⟩⟩
    let s := (Session.new 9).store
    let ctx := closure.context site s
    let m : Machine := ⟨9, 3, evaluate 9 3⟩
    Param.Ordered params ∧
    (∀ p ∈ params, p.typeName = none ∧ s.frames.isConstant closure.scope p.name = false) ∧
    ∃ values t u, m.bindArguments site ctx (params.take 2) [.boolean true] (closure.entered s) = .ok values t ∧
      m.value ⟨.boolean false, default⟩ ctx t = .ok (.boolean false) u ∧
      m.bindArguments site ctx params [.boolean true] (closure.entered s) =
        site.fail (.constantReassignment "c") u := by
  intro node params closure site s ctx m
  exact ⟨⟨by decide, by decide, by decide, by decide⟩, by decide, _, _, _, rfl, rfl, rfl⟩

end ScriptLang
