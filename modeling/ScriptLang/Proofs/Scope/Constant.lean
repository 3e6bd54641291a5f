import ScriptLang.Proofs.Scope.Tree

/-! Constants are written once. Main statement: whatever is done with the scopes of a tree, a constant
stays as it was declared, and the scopes that find it go on finding it. -/
namespace ScriptLang.ScopeTree

variable {t u : ScopeTree} {name : String} {id : FrameId} {value : Value} {scope : Scope} {i : Nat}

/-- Where the nearest binding of a name is a constant, the name is open in no frame up to it. -/
private theorem not_open (h : t.scopes[i]? = some scope)
    (hfound : t.frames.nearest? name scope.frames = some (id, ⟨value, true⟩)) {first : FrameId}
    {nearer farther : List FrameId} (hframes : scope.frames = nearer ++ first :: farther)
    (hnearer : ∀ j ∈ nearer, (t.frames.frame j).get? name = none) {k : Nat} {user : Scope}
    (huser : t.scopes[k]? = some user) : ¬t.frames.Open user name first := by
  -- The scope that has the frame `first` of its own finds the same constant.
  obtain ⟨owner, howner, hsuffix⟩ := frames_suffix h hframes
  have hsame : t.frames.nearest? name owner.frames = some (id, ⟨value, true⟩) := by
    rw [hsuffix, ← Frames.nearest?_append hnearer, ← hframes, hfound]
  rintro (⟨rfl, hfree⟩ | ⟨binding, hnearest, hfree⟩)
  · rw [t.own_eq huser, huser] at howner
    cases howner
    rw [Frames.isConstant, hsame] at hfree
    cases hfree
  · obtain ⟨_, _, -, -, hbinding⟩ := Frames.nearest?_eq_some.mp hnearest
    rw [hsuffix, Frames.nearest?, hbinding] at hsame
    cases hsame
    cases hfree

/-- An operation leaves a constant to those who find it. -/
theorem Stepped.resolves (h : t.Stepped u) (hi : t.Resolves i name id ⟨value, true⟩) :
    u.Resolves i name id ⟨value, true⟩ := by
  obtain ⟨scope, hscope, hfound⟩ := hi
  cases h with
  | none => exact ⟨scope, hscope, hfound⟩
  | used huser used =>
    refine ⟨scope, hscope, Frames.nearest?_eq_of_same hfound ?_⟩
    intro first farther nearer hframes hnearer
    exact used.get?_eq (not_open hscope hfound hframes hnearer huser)
  | grown hparent =>
    refine ⟨scope, getElem?_push_of_some hscope _, Frames.nearest?_eq_of_same hfound ?_⟩
    intro first _ _ _ _
    exact congrArg (Table.get? name) (t.frames.frame_add first)

theorem run_resolves (ops : List ScopeOp) (h : t.Resolves i name id ⟨value, true⟩) :
    (t.run ops).Resolves i name id ⟨value, true⟩ := by
  induction ops generalizing t with
  | nil => exact h
  | cons op ops ih => exact ih ((t.stepped op).resolves h)

/-- A scope is younger than the one around it. -/
private theorem IsChild.lt {i j : Nat} (h : t.IsChild i j) : i < j := by
  obtain ⟨parent, scope, hparent, hscope, houter⟩ := h
  rcases t.outer_eq hscope with hnil | ⟨k, hk, other, hother, hframes⟩
  · rw [houter] at hnil
    cases hnil
  · have hown : (⟨i⟩ : FrameId) = ⟨k⟩ := by
      rw [← t.own_eq hparent, ← t.own_eq hother]
      exact (List.cons.inj (houter.symm.trans hframes)).1
    cases hown
    exact hk

/-- Scopes that are there stay where they are. -/
private theorem Stepped.getElem?_eq (h : t.Stepped u) (hi : i < t.scopes.size) : u.scopes[i]? = t.scopes[i]? := by
  cases h with
  | none | used => rfl
  | grown => exact (Array.getElem?_push ..).trans (if_neg (Nat.ne_of_lt hi))

private theorem Stepped.below (h : t.Stepped u) {since i j : Nat} (hj : j < t.scopes.size)
    (hbelow : u.Below since i j) : t.Below since i j := by
  have hold {k l : Nat} (hl : l < t.scopes.size) (hkl : u.IsChild k l) : t.IsChild k l := by
    have hk : k < t.scopes.size := Nat.lt_trans hkl.lt hl
    rwa [IsChild, h.getElem?_eq hl, h.getElem?_eq hk] at hkl
  induction hbelow with
  | child new hchild => exact .child new (hold hj hchild)
  | deeper _ new hchild ih => exact .deeper (ih (Nat.lt_trans hchild.lt hj)) new (hold hj hchild)

/-- A scope that was not there before has no names of its own. -/
private theorem Stepped.get?_new (h : t.Stepped u) {j : Nat} (hj : u.scopes[j]? = some scope)
    (hnew : t.scopes.size ≤ j) : (u.frames.frame ⟨j⟩).get? name = .none := by
  have habsent : t.scopes[j]? = .none := Array.getElem?_eq_none hnew
  cases h with
  | none | used => cases habsent.symm.trans hj
  | grown =>
    have hsize : j < t.scopes.size + 1 := by
      simpa [withChild] using (Array.getElem?_eq_some_iff.mp hj).1
    obtain rfl : j = t.frames.all.size := by
      rw [← t.size_eq]
      omega
    exact congrArg (Table.get? name) t.frames.frame_add_self

private theorem Below.lt_size {since i j : Nat} (h : t.Below since i j) : since < t.scopes.size := by
  have hlt {k : Nat} (hkj : t.IsChild k j) : j < t.scopes.size := by
    obtain ⟨_, _, -, hj, -⟩ := hkj
    exact (Array.getElem?_eq_some_iff.mp hj).1
  cases h with
  | child new hchild => exact Nat.lt_of_le_of_lt new (hlt hchild)
  | deeper _ new hchild => exact Nat.lt_of_le_of_lt new (hlt hchild)

/-- A scope inside of one that finds a constant finds it too, unless it has the name itself. -/
private theorem IsChild.resolves {i j : Nat} (h : t.IsChild i j) (hi : t.Resolves i name id ⟨value, true⟩)
    (hempty : (t.frames.frame ⟨j⟩).get? name = none) : t.Resolves j name id ⟨value, true⟩ := by
  obtain ⟨parent, scope, hparent, hscope, houter⟩ := h
  obtain ⟨_, hparent', hfound⟩ := hi
  cases hparent.symm.trans hparent'
  refine ⟨scope, hscope, ?_⟩
  rw [Scope.frames, Frames.nearest?, t.own_eq hscope, hempty, houter]
  exact hfound

section

variable {since i : Nat} (hi : t.Resolves i name id ⟨value, true⟩)
  (hold : ∀ j, t.Below since i j → t.Resolves j name id ⟨value, true⟩) {j : Nat}

include hi hold

/-- So do the scopes made below one that finds a constant. -/
private theorem Stepped.resolves_below (h : t.Stepped u) (hj : u.Below since i j) :
    u.Resolves j name id ⟨value, true⟩ := by
  have hnew {k l : Nat} (hbelow : u.Below since i l) (hkl : u.IsChild k l)
      (hk : u.Resolves k name id ⟨value, true⟩) : u.Resolves l name id ⟨value, true⟩ := by
    by_cases hl : l < t.scopes.size
    · exact h.resolves (hold l (h.below hl hbelow))
    · have ⟨_, scope, _, hscope, _⟩ := hkl
      exact hkl.resolves hk (h.get?_new hscope (Nat.le_of_not_lt hl))
  induction hj with
  | child new hchild => exact hnew (.child new hchild) hchild (h.resolves hi)
  | deeper hparent new hchild ih => exact hnew (.deeper hparent new hchild) hchild ih

theorem run_resolves_below (ops : List ScopeOp) (hj : (t.run ops).Below since i j) :
    (t.run ops).Resolves j name id ⟨value, true⟩ := by
  induction ops generalizing t with
  | nil => exact hold j hj
  | cons op ops ih =>
    have h := t.stepped op
    exact ih (h.resolves hi) (fun k hk => h.resolves_below hi hold hk) hj

end

/-- A constant that was declared is found by the scope in which it was. -/
private theorem resolves_declare {table : Nat} {frames : Frames} (htable : t.scopes[table]? = some scope)
    (hdeclared : Scoping.declare scope name value true t.frames = .ok () frames) :
    (t.step (.use table (.declare name value true))).Resolves table name scope.own ⟨value, true⟩ := by
  have hsize : scope.own.index < t.frames.all.size := by
    rw [t.own_eq htable, ← t.size_eq]
    exact (Array.getElem?_eq_some_iff.mp htable).1
  have hfree : ¬t.frames.isConstant scope name := by
    intro hconstant
    change (if t.frames.isConstant scope name then throw _ >>= _ else _ : Scoping Unit) _ = _
      at hdeclared
    rw [if_pos hconstant] at hdeclared
    cases hdeclared
  rw [step, htable]
  refine ⟨scope, htable, ?_⟩
  change (Scoping.leaves (.declare scope name value true) t.frames).nearest? name _ = _
  rw [Scoping.leaves_declare, if_neg hfree, Scope.frames, Frames.nearest?,
    Frames.frame_update_self _ _ hsize, Table.get?_put_self]

/-- Once a constant was declared in a scope, its binding stays in the scope's frame whatever is done
with the scopes of the tree. A scope that finds it at some moment finds it at every later moment, and so
do all scopes that are made below it from that moment on. -/
theorem constant_kept {table : Nat} {scope : Scope} {frames : Frames}
    (htable : t.scopes[table]? = some scope)
    (hdeclared : Scoping.declare scope name value true t.frames = .ok () frames)
    (ops : List ScopeOp) :
    let now := (t.step (.use table (.declare name value true))).run ops
    (now.frames.frame scope.own).get? name = some ⟨value, true⟩ ∧
    now.Resolves table name scope.own ⟨value, true⟩ ∧
    ∀ i, now.Resolves i name scope.own ⟨value, true⟩ → ∀ more : List ScopeOp,
      (now.run more).Resolves i name scope.own ⟨value, true⟩ ∧
      ∀ j, (now.run more).Below now.scopes.size i j →
        (now.run more).Resolves j name scope.own ⟨value, true⟩ := by
  intro now
  have hown : now.Resolves table name scope.own ⟨value, true⟩ :=
    run_resolves ops (resolves_declare htable hdeclared)
  have ⟨_, _, hfound⟩ := hown
  obtain ⟨_, _, -, -, hbinding⟩ := Frames.nearest?_eq_some.mp hfound
  refine ⟨hbinding, hown, fun i hi more => ⟨run_resolves more hi, fun j hj => ?_⟩⟩
  exact run_resolves_below hi (fun k hk => absurd hk.lt_size (Nat.lt_irrefl _)) more hj

/-- A scope that hid the constant finds it once its own binding is removed, and then keeps it. -/
theorem constant_kept_unhidden :
    let shadowed := root.run [.child 0, .use 1 (.declare "x" .nothing false)]
    let now := (shadowed.step (.use 0 (.declare "x" (.boolean true) true))).run [.use 1 (.remove "x")]
    let later := now.run [.child 1, .use 2 (.declare "x" .nothing false), .use 1 (.remove "x")]
    (now.frames.frame ⟨0⟩).get? "x" = some ⟨.boolean true, true⟩ ∧
    later.Resolves 1 "x" ⟨0⟩ ⟨.boolean true, true⟩ ∧ later.Resolves 2 "x" ⟨0⟩ ⟨.boolean true, true⟩ := by
  intro shadowed now later
  have htable : shadowed.scopes[0]? = some ⟨⟨0⟩, []⟩ := rfl
  have hdeclared : Scoping.declare ⟨⟨0⟩, []⟩ "x" (.boolean true) true shadowed.frames = .ok () _ := rfl
  obtain ⟨hbinding, -, hkept⟩ := constant_kept htable hdeclared [.use 1 (.remove "x")]
  have hunhidden : now.Resolves 1 "x" ⟨0⟩ ⟨.boolean true, true⟩ := ⟨⟨⟨1⟩, [⟨0⟩]⟩, rfl, rfl⟩
  have hchild : later.IsChild 1 2 := ⟨⟨⟨1⟩, [⟨0⟩]⟩, ⟨⟨2⟩, [⟨1⟩, ⟨0⟩]⟩, rfl, rfl, rfl⟩
  have hsize : now.scopes.size = 2 := rfl
  obtain ⟨hfirst, hbelow⟩ := hkept 1 hunhidden
    [.child 1, .use 2 (.declare "x" .nothing false), .use 1 (.remove "x")]
  exact ⟨hbinding, hfirst, hbelow 2 (.child (Nat.le_of_eq hsize) hchild)⟩

end ScriptLang.ScopeTree
