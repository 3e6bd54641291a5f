import ScriptLang.Proofs.Lexical.Session

/-! Jumps and returns in whole sessions. Main statement: where all inputs are well placed, no `return`, `break`
or `continue` misfires. -/
namespace ScriptLang

/-- The rules that only say what may leave code. -/
def Placement.jumps (lax : Bool) : Placement where
  admits _ _ := True
  lax := lax
  listed := false

instance (lax : Bool) : (Placement.jumps lax).Untraced := ⟨rfl⟩

theorem Placement.jumps_lexical (lax : Bool) : (jumps lax).Lexical where
  part _ _ _ _ := trivial
  member _ _ _ _ _ _ _ := trivial
  modest _ hbounded := Bool.noConfusion hbounded

/-! By the lax rules, all code of any state is placed. -/
section Lax

theorem FunctionDef.placed_lax (f : FunctionDef Node) (cls : Option Class) : f.Placed (.jumps true) cls where
  fallback _ _ _ _ := .of_lax rfl trivial
  body := .of_lax rfl trivial

theorem Class.known_lax (cls : Class) : cls.Known (.jumps true) [] := fun owner _ =>
  ⟨nofun, nofun, fun _ _ _ _ => .of_lax rfl trivial, fun _ method _ => method.function.placed_lax (some owner)⟩

theorem Value.known_lax (v : Value) : v.Known (.jumps true) [] := by
  cases v with
  | function closure =>
    exact ⟨closure.code.placed_lax _, fun cls _ => cls.known_lax, fun object _ => object.cls.known_lax⟩
  | «class» cls => exact cls.known_lax
  | «instance» object => exact object.cls.known_lax
  | text | builtin => exact fun hbounded => Bool.noConfusion hbounded
  | _ => trivial

theorem Store.known_lax (s : Store) (depth : Nat) : s.Known (.jumps true) depth [] where
  depth := nofun
  count := nofun
  classes := nofun
  heap := ⟨fun _ => ⟨nofun, fun v _ => v.known_lax⟩, fun _ entry _ => ⟨nofun, entry.2.known_lax⟩⟩
  frames _ entry _ := .inl entry.2.value.known_lax
  statics _ entry _ := ⟨entry.2.value.known_lax, nofun⟩
  homes := nofun
  members _ entry _ := ⟨entry.2.value.known_lax, nofun⟩

end Lax

/-! In any state, only what is loose in a node leaves it. -/
section Loose

variable {limit fuel : Nat} {node : Node} {ctx : Context} {s s' : Store}

section

variable {i : Interrupt} (h : evaluate limit fuel node ctx s = .error i s')

include h

/-- How the evaluation of any node is interrupted, by the lax rules. -/
theorem evaluate_interrupted {x : Exits} (hnode : node.isPlaced true x = true) :
    ∃ later, i.Known (.jumps true) x later := by
  have hagrees := Machine.agrees_self (Placement.jumps_lexical true) limit fuel nofun
  have hplaced : (Placement.jumps true).At x ctx.classScope node := ⟨hnode, trivial⟩
  obtain ⟨_, later, _, hended⟩ :=
    (hagrees.eval hplaced ⟨fun cls _ => cls.known_lax, nofun⟩).run s (s.known_lax 0)
  dsimp only at hended
  rw [h] at hended
  cases hended with
  | error cause => exact ⟨later, cause⟩

theorem hasLooseJump_of_interrupted (hi : i = .broken ∨ i = .continued) : node.HasLooseJump := by
  by_contra hnone
  have hplaced : node.isPlaced true ⟨true, false⟩ = true :=
    Node.isPlaced_loose (fun hloose => absurd hloose hnone) fun _ => rfl
  obtain ⟨_, hwithin⟩ := evaluate_interrupted h hplaced
  rcases hi with rfl | rfl <;> cases hwithin

end

theorem hasLooseReturn_of_interrupted {value : Value}
    (h : evaluate limit fuel node ctx s = .error (.returned value) s') : node.HasLooseReturn := by
  by_contra hnone
  have hplaced : node.isPlaced true ⟨false, true⟩ = true :=
    Node.isPlaced_loose (fun _ => rfl) fun hloose => absurd hloose hnone
  obtain ⟨_, hwithin⟩ := evaluate_interrupted h hplaced
  cases hwithin.1

end Loose

namespace Session

variable {limit : Nat} {s : Session} {program : Program}

/-- An input whose statements are well placed, if it can be read. -/
def WellPlaced (s : Session) (source : String) : Prop :=
  ∀ program nextId, s.read source = .ok (program, nextId) → ∀ statement ∈ program, statement.WellPlaced

instance (s : Session) (source : String) : Decidable (s.WellPlaced source) :=
  match hread : s.read source with
  | .error _ => .isTrue fun _ _ hok => by simp [hread] at hok
  | .ok (program, _) => decidable_of_iff (∀ statement ∈ program, statement.WellPlaced)
    ⟨fun h _ _ hok => by simp_all, fun h => h _ _ hread⟩

/-- A well-placed program stands where nothing may leave it. -/
theorem at_of_wellPlaced (hprogram : ∀ statement ∈ program, statement.WellPlaced) :
    ∀ statement ∈ program, (Placement.jumps false).At (.alone false) none statement :=
  fun statement hstatement => ⟨Node.wellPlaced_iff.mp (hprogram statement hstatement), trivial⟩

/-- An input that cannot be read is not run. -/
theorem read_ne_running (s : Session) (source : String) (error : EvalError) :
    s.read source ≠ .error (.fault (.running error)) := by
  intro h
  unfold read at h
  split at h
  · cases h
  · cases h
  · split at h <;> cases h

/-- A well-placed input fails for another reason than a misfire. -/
theorem run_ordinary {known : List Class} (hs : s.store.Known (.jumps false) 0 known) {source : String}
    (hsource : s.WellPlaced source) {fuel : Nat} {error : EvalError}
    (h : (s.run fuel source).1.outcome = .error (.fault (.running error))) : error.cause.Ordinary := by
  unfold Session.run at h
  cases hread : s.read source with
  | error stop =>
    rw [hread] at h
    cases h
    exact absurd hread (s.read_ne_running source error)
  | ok result =>
    rw [hread] at h
    have hs : Store.Known (.jumps false) 0 known { s with nextId := result.2 }.store := hs
    have hprogram := at_of_wellPlaced (hsource _ _ hread)
    have hfails := (execute_known hprogram nofun hs (Placement.jumps_lexical false) fuel).2 error h
    exact hfails.1.resolve_left nofun

/-- In a session whose inputs are all well placed, no run fails because a `return` or a jump misfires. And in
any state, a node is left by a jump only if one is loose in it, and so it is with a `return`. -/
theorem no_control_misfires (limit : Nat) :
    (∀ programs s, After limit programs s →
      (∀ program ∈ programs, ∀ statement ∈ program, statement.WellPlaced) →
      ∀ fuel source error, s.WellPlaced source →
      (s.run fuel source).1.outcome = .error (.fault (.running error)) →
      error.cause ≠ .returnOutsideFunction ∧ ∀ word, error.cause ≠ .loopControlOutsideLoop word) ∧
    ∀ fuel node ctx s s',
      (evaluate limit fuel node ctx s = .error .broken s' → node.HasLooseJump) ∧
      (evaluate limit fuel node ctx s = .error .continued s' → node.HasLooseJump) ∧
      ∀ value, evaluate limit fuel node ctx s = .error (.returned value) s' → node.HasLooseReturn := by
  constructor
  · intro programs s hafter hprograms fuel source error hsource hfails
    obtain ⟨known, hknown⟩ := hafter.exists_known (Placement.jumps_lexical false) fun program hprogram =>
      at_of_wellPlaced (hprograms program hprogram)
    have hordinary := run_ordinary hknown hsource hfails
    constructor
    · intro hcause
      rwa [hcause] at hordinary
    · intro word hcause
      rwa [hcause] at hordinary
  · intro fuel node ctx s s'
    refine ⟨(hasLooseJump_of_interrupted · (.inl rfl)), (hasLooseJump_of_interrupted · (.inr rfl)), fun value => ?_⟩
    exact hasLooseReturn_of_interrupted

/-- A function goes on with its loop, breaks out of an inner one and returns: a call of it ends with the error
that is raised. Outside of all loops and functions, the same statements leave a block. -/
theorem no_control_misfires_in_loops :
    let source := "func f(xs, y = true):\nforeach xs as x:\nif y:\ny = false\ncontinue\nend\n" ++
      "while true:\nbreak\nend\nreturn x\nend\nend"
    let before := ((Session.new 9).run 99 source).2
    let block (shape : Shape Node) : Node := ⟨.block [⟨shape, .point .origin⟩], .point .origin⟩
    (Session.new 9).WellPlaced source ∧ before.WellPlaced "error(f(['a', 'b']))" ∧
    (∃ error, (before.run 99 "error(f(['a', 'b']))").1.outcome = .error (.fault (.running error)) ∧
      error.cause ≠ .returnOutsideFunction ∧ ∀ word, error.cause ≠ .loopControlOutsideLoop word) ∧
    (block .breakLoop).HasLooseJump ∧ (block .continueLoop).HasLooseJump ∧
    (block (.returnWith none)).HasLooseReturn := by
  intro source before block
  obtain ⟨hsessions, hnodes⟩ := no_control_misfires 9
  have hcomputed : ((Session.new 9).read source).isOk = true ∧ (Session.new 9).WellPlaced source ∧
      before.WellPlaced "error(f(['a', 'b']))" ∧ (before.run 99 "error(f(['a', 'b']))").1.outcome matches
        .error (.fault (.running ⟨.raised "b", _, _⟩)) := by
    decide +kernel
  obtain ⟨hread, hsource, huse, hfails⟩ := hcomputed
  let ctx : Context := ⟨⟨"<program>", []⟩, ⟨⟨0⟩, []⟩, none⟩
  refine ⟨hsource, huse, ?_, (hnodes 2 _ ctx {} {}).1 rfl, (hnodes 2 _ ctx {} {}).2.1 rfl,
    (hnodes 2 _ ctx {} {}).2.2 .nothing rfl⟩
  cases hfirst : (Session.new 9).read source with
  | error => simp [hfirst, Except.isOk, Except.toBool] at hread
  | ok first =>
    have hafter : After 9 [first.1] before := After.new.run 99 hfirst
    have hprograms : ∀ program ∈ [first.1], ∀ statement ∈ program, statement.WellPlaced :=
      List.forall_mem_singleton.mpr (hsource _ _ hfirst)
    split at hfails
    next herror => exact ⟨_, herror, hsessions _ _ hafter hprograms 99 _ _ huse herror⟩
    next => cases hfails

end Session

end ScriptLang
