import ScriptLang.Proofs.Loop.Each
import ScriptLang.Proofs.Number.Exact

/-! Counting loops. Main statement: between whole bounds a loop has as many turns as the quotient of distance and step
says, and the turns count by the step, whatever the body does. -/
namespace ScriptLang

namespace Loop

def turnCount (a b d : Int) : Nat := ⌈((b : ℚ) - a) / d⌉₊

def counter (start step : Float) : Nat → Float
  | 0 => start
  | k + 1 => counter start step k + step

end Loop

section Whole

variable {a b d : Int}

theorem Loop.lt_turnCount_iff (hd : d ≠ 0) (k : Nat) :
    k < turnCount a b d ↔ 0 < d ∧ a + k * d < b ∨ d < 0 ∧ b < a + k * d := by
  rw [turnCount, Nat.lt_ceil]
  rcases Int.lt_or_gt_of_ne hd with hneg | hpos
  · rw [lt_div_iff_of_neg (by exact_mod_cast hneg)]
    have hcast : ((b : ℚ) - a < k * d) ↔ b - a < k * d := by exact_mod_cast Iff.rfl
    rw [hcast]
    omega
  · rw [lt_div_iff₀ (by exact_mod_cast hpos)]
    have hcast : ((k : ℚ) * d < b - a) ↔ k * d < b - a := by exact_mod_cast Iff.rfl
    rw [hcast]
    omega

theorem Loop.turnCount_toward (a b : Int) : turnCount a b (if a < b then 1 else -1) = (b - a).natAbs := by
  apply eq_of_forall_lt_iff
  intro k
  rw [lt_turnCount_iff (by split <;> decide)]
  split <;> omega

variable {x y z : Float} (hx : Number.index? x = some a) (hy : Number.index? y = some b)
  (hz : Number.index? z = some d) (ha : a.natAbs < 2 ^ 52) (hb : b.natAbs < 2 ^ 52) (hd : d ≠ 0)
  (hsmall : d.natAbs < 2 ^ 52)

include ha hb hd hsmall

/-- The loop variable stays near the bounds, also behind the last turn. -/
theorem Loop.natAbs_counter_lt {k : Nat} (hk : k ≤ turnCount a b d) : (a + k * d).natAbs < 2 ^ 53 := by
  cases k with
  | zero =>
    rw [Nat.cast_zero, Int.zero_mul, Int.add_zero]
    omega
  | succ k =>
    have hlast := (lt_turnCount_iff hd k).mp hk
    have hstep : ((k + 1 : Nat) : Int) * d = k * d + d := by
      rw [Int.natCast_succ, Int.add_mul, Int.one_mul]
    rw [hstep]
    rcases hlast with ⟨hpos, hlast⟩ | ⟨hneg, hlast⟩
    · have := Int.mul_nonneg (Int.natCast_nonneg k) hpos.le
      omega
    · have := Int.mul_nonpos_of_nonneg_of_nonpos (Int.natCast_nonneg k) hneg.le
      omega

include hx hz

theorem Loop.index?_counter {k : Nat} (hk : k ≤ turnCount a b d) :
    Number.index? (counter x z k) = some (a + k * d) := by
  induction k with
  | zero => simpa [counter] using hx
  | succ k ih =>
    have hstep : a + ((k + 1 : Nat) : Int) * d = a + k * d + d := by
      rw [Int.natCast_succ, Int.add_mul, Int.one_mul, Int.add_assoc]
    have hnext := natAbs_counter_lt ha hb hd hsmall hk
    rw [hstep] at hnext ⊢
    exact Number.index?_add (ih (Nat.le_of_succ_le hk)) hz
      (natAbs_counter_lt ha hb hd hsmall (Nat.le_of_succ_le hk)) (by omega) hnext

include hy

theorem Loop.inRange_counter {k : Nat} (hk : k ≤ turnCount a b d) :
    inRange (counter x z k) y z = decide (k < turnCount a b d) := by
  have hcurrent := index?_counter hx hz ha hb hd hsmall hk
  have hbound := natAbs_counter_lt ha hb hd hsmall hk
  have hstop : b.natAbs < 2 ^ 53 := by omega
  have hstep : d.natAbs < 2 ^ 53 := by omega
  have hzero : (0 : Int).natAbs < 2 ^ 53 := by decide
  rw [Bool.eq_iff_iff, decide_eq_true_iff, lt_turnCount_iff hd, ← Number.lt_iff Number.index?_zero hz hzero hstep,
    ← Number.lt_iff hcurrent hy hbound hstop, ← Number.lt_iff hz Number.index?_zero hstep hzero,
    ← Number.lt_iff hy hcurrent hstop hbound]
  simp [inRange]

theorem Machine.count_walk (m : Machine) (name : String) (body : Node) (discards : Bool) (span : Span) (ctx : Context)
    {n k turns : Nat} (hn : k + n = Loop.turnCount a b d) (hturns : n < turns)
    (collected : Array Value) (s : Store) :
    m.Walks "<for>" body span ctx discards
      ((List.range' k n).map fun k => [(name, .number (Loop.counter x z k))]) collected s
      (m.count name y z body discards span ctx turns (Loop.counter x z k) collected) := by
  induction n generalizing k turns collected s with
  | zero =>
    obtain ⟨turns, rfl⟩ := Nat.exists_eq_succ_of_ne_zero hturns.ne'
    rw [count_succ, Loop.inRange_counter hx hy hz ha hb hd hsmall (show k ≤ _ by omega), decide_eq_false (by omega)]
    exact m.walk_nil ..
  | succ n ih =>
    obtain ⟨turns, rfl⟩ := Nat.exists_eq_succ_of_ne_zero (Nat.ne_zero_of_lt hturns)
    rw [count_succ, Loop.inRange_counter hx hy hz ha hb hd hsmall (by omega), decide_eq_true (by omega)]
    exact m.iteration_walk _ _ _ _ _ _ (ih (show k + 1 + n = _ by omega) (Nat.lt_of_succ_lt_succ hturns)) collected s

end Whole

namespace Machine

/-- A part of the head of a counting loop is the number `x`, which it is by default if it is left out. -/
def HasBound (m : Machine) (ctx : Context) (node : Option Node) (fallback : Float) (s : Store) (x : Float)
    (t : Store) : Prop :=
  match node with
  | some node => m.eval node ctx s = .ok (.number x) t
  | none => x = fallback ∧ t = s

theorem bound_of_eval {m : Machine} {ctx : Context} {node : Node} {s t : Store} {x : Float}
    (h : m.eval node ctx s = .ok (.number x) t) (what : String) : m.bound what node ctx s = .ok x t :=
  Eval.bind_of_ok h

theorem HasBound.step {m : Machine} {ctx : Context} {node : Option Node} {x y z : Float} {s t : Store}
    (h : m.HasBound ctx node (if x < y then 1 else -1) s z t) (hz : (z == 0) = false) :
    m.step node x y ctx s = .ok z t := by
  cases node with
  | some node =>
    refine (Eval.bind_of_ok (bound_of_eval h "step")).trans ?_
    rw [hz]
    rfl
  | none =>
    obtain ⟨rfl, rfl⟩ := h
    rfl

/-- The loop once its head is evaluated. -/
theorem countingLoop_eq (m : Machine) {ctx : Context} {start step : Option Node} {stop : Node} {x y z : Float}
    {s s₁ s₂ s₃ : Store} (hstart : m.HasBound ctx start 0 s x s₁) (hstop : m.eval stop ctx s₁ = .ok (.number y) s₂)
    (hstep : m.HasBound ctx step (if x < y then 1 else -1) s₂ z s₃) (hz : (z == 0) = false) (name : String)
    (body : Node) (discards : Bool) (span : Span) :
    m.countingLoop name start stop step body discards span ctx s =
      (m.count name y z body discards span ctx m.turns x #[] >>= Loop.collect discards) s₃ := by
  have hrest : (do
      let stop ← m.bound "end" stop ctx
      let step ← m.step step x stop ctx
      Loop.collect discards (← m.count name stop step body discards span ctx m.turns x #[]) : Eval Value) s₁ =
      (m.count name y z body discards span ctx m.turns x #[] >>= Loop.collect discards) s₃ :=
    (Eval.bind_of_ok (bound_of_eval hstop "end")).trans (Eval.bind_of_ok (hstep.step hz))
  cases start with
  | some node => exact (Eval.bind_of_ok (bound_of_eval hstart "start")).trans hrest
  | none =>
    obtain ⟨rfl, rfl⟩ := hstart
    exact hrest

end Machine

/-- A loop whose body always goes on ends when nothing is left to declare. -/
theorem Loop.Ends.finished_of_goesOn {ctx : Context} {span : Span} {next : Option (List (String × Value))} {s : Store}
    {runs : List Run} {result : EStateM.Result Interrupt Store Unit} (h : Ends ctx span next s runs result)
    (hon : ∀ run ∈ runs, run.GoesOn)
    (hfree : ∀ names ∈ next, ∀ entry ∈ names, (leaves s runs).frames.isConstant ctx.scope entry.1 = false) :
    next = none ∧ result = .ok () (leaves s runs) := by
  cases h with
  | finished _ none => exact ⟨none, rfl⟩
  | @constant _ _ _ entry _ some constant =>
    rw [hfree _ some entry (by simp)] at constant
    cases constant
  | @broken _ last _ _ broken =>
    have hlast := hon last (by simp)
    rw [Run.GoesOn, broken] at hlast
    cases hlast
  | @left _ last _ _ _ left _ discontinued =>
    have hlast := hon last (by simp)
    rw [Run.GoesOn, left] at hlast
    exact absurd hlast discontinued

/-- A counting loop between whole bounds: turn `k` declares the loop variable anew, as the first bound and `k` steps,
and there are no turns behind the last one that the distance has room for. If the body always goes on and the loop
variable is no constant, there are all of them. -/
theorem counting_loop_turns (m : Machine) (name : String) (start : Option Node) (stop : Node) (step : Option Node)
    (body : Node) (discards : Bool) (span : Span) (ctx : Context) {s s₁ s₂ s₃ : Store} {x y z : Float} {a b d : Int}
    (hstart : m.HasBound ctx start 0 s x s₁) (hstop : m.eval stop ctx s₁ = .ok (.number y) s₂)
    (hstep : m.HasBound ctx step (if x < y then 1 else -1) s₂ z s₃) (hx : Number.index? x = some a)
    (hy : Number.index? y = some b) (hz : Number.index? z = some d) (ha : a.natAbs < 2 ^ 52)
    (hb : b.natAbs < 2 ^ 52) (hd : d ≠ 0) (hsmall : d.natAbs < 2 ^ 52) (hturns : Loop.turnCount a b d < m.turns) :
    (start = none → a = 0) ∧
    (step = none → d = (if a < b then 1 else -1) ∧ Loop.turnCount a b d = (b - a).natAbs) ∧
    ∃ runs result,
      (∀ k run, runs[k]? = some run → k < Loop.turnCount a b d ∧ ∃ x, Number.index? x = some (a + k * d) ∧
        run.names = [(name, .number x)] ∧
        (run.before.inTurn run.names).frames.lookup? (ctx.inTurn "<for>" span.start run.before).scope name =
          some (.number x) ∧
        m.Runs "<for>" body span ctx run) ∧
      Loop.Linked s₃ runs ∧
      Loop.Ends ctx span (if runs.length < Loop.turnCount a b d
        then some [(name, .number (Loop.counter x z runs.length))] else none) s₃ runs result ∧
      ((∀ run ∈ runs, run.GoesOn) → (Loop.leaves s₃ runs).frames.isConstant ctx.scope name = false →
        runs.length = Loop.turnCount a b d ∧ result = .ok () (Loop.leaves s₃ runs)) ∧
      m.rule ⟨.countingLoop name start stop step body discards, span⟩ ctx s = Loop.report discards runs result := by
  have hwhole : (if x < y then (1 : Float) else -1) = z → d = if a < b then 1 else -1 := by
    rintro rfl
    have hlt := Number.lt_iff hx hy (by omega) (by omega)
    by_cases h : a < b
    · rw [if_pos (hlt.mpr h), Number.index?_one] at hz
      rw [if_pos h, Option.some.inj hz]
    · rw [if_neg (mt hlt.mp h), Number.index?_neg_one] at hz
      rw [if_neg h, Option.some.inj hz]
  have hnonzero : (z == 0) = false := by
    have hbeq := Number.beq_iff hz Number.index?_zero (by omega) (by decide)
    rwa [← Bool.not_eq_true, hbeq]
  refine ⟨?_, ?_, ?_⟩
  · rintro rfl
    obtain ⟨rfl, -⟩ := hstart
    rw [Number.index?_zero] at hx
    exact (Option.some.inj hx).symm
  · rintro rfl
    have heq := hwhole hstep.1.symm
    exact ⟨heq, heq ▸ Loop.turnCount_toward a b⟩
  obtain ⟨runs, result, hwalk, hcount⟩ := m.count_walk hx hy hz ha hb hd hsmall name body discards span ctx
    (Nat.zero_add _) hturns #[] s₃
  have hitem (k : Nat) : ((List.range' 0 (Loop.turnCount a b d)).map fun k =>
      [(name, Value.number (Loop.counter x z k))])[k]? =
      if k < Loop.turnCount a b d then some [(name, .number (Loop.counter x z k))] else none := by
    split
    next h => simp [List.getElem?_range' h]
    next h => rw [List.getElem?_eq_none (by simpa using h)]
  have hturn {k : Nat} {run : Loop.Run} (hk : runs[k]? = some run) :
      k < Loop.turnCount a b d ∧ [(name, .number (Loop.counter x z k))] = run.names := by
    have hnames := (hwalk.runs_getElem? hk).1
    rw [hitem] at hnames
    split at hnames
    next hlt => exact ⟨hlt, Option.some.inj hnames⟩
    next => cases hnames
  have hends := hwalk.ends
  rw [hitem] at hends
  refine ⟨runs, result, fun k run hk => ?_, hwalk.linked, hends, fun hon hfree => ?_, ?_⟩
  · obtain ⟨hlt, hnames⟩ := hturn hk
    refine ⟨hlt, _, Loop.index?_counter hx hz ha hb hd hsmall hlt.le, hnames.symm, ?_, (hwalk.runs_getElem? hk).2⟩
    rw [← hnames]
    exact Frames.lookup?_push (Table.get?_put_self ..)
  · obtain ⟨hnone, hresult⟩ := hends.finished_of_goesOn hon fun names hnames entry hentry => by
      split at hnames
      · cases hnames
        rwa [List.mem_singleton.mp hentry]
      · cases hnames
    have hge : ¬ runs.length < Loop.turnCount a b d := fun hlt => by
      rw [if_pos hlt] at hnone
      cases hnone
    have hle : ¬ Loop.turnCount a b d < runs.length := fun hlt =>
      Nat.lt_irrefl _ (hturn (List.getElem?_eq_getElem hlt)).1
    exact ⟨by omega, hresult⟩
  · exact (m.countingLoop_eq hstart hstop hstep hnonzero name body discards span).trans
      (Machine.collect_gathered hcount)

/-- A loop from 5 down to 0 by 2 has three turns at most, for 5, 3 and 1. -/
theorem counting_loop_turns_downward :
    let number (x : Float) : Node := ⟨.number x, default⟩
    let loop : Node :=
      ⟨.countingLoop "i" (some (number 5)) (number 0) (some (number (-2))) ⟨.lookup "i", default⟩ false, default⟩
    let ctx : Context := ⟨⟨"main", []⟩, ⟨⟨0⟩, []⟩, none⟩
    ∃ runs result, runs.length ≤ 3 ∧ Loop.Linked {} runs ∧
      (∀ (k : Nat) run, runs[k]? = some run → ∃ x, Number.index? x = some (5 - 2 * (k : Int)) ∧
        run.names = [("i", .number x)]) ∧
      evaluate 0 5 loop ctx {} = Loop.report false runs result := by
  intro number loop ctx
  have hturns : Loop.turnCount 5 0 (-2) ≤ 3 :=
    Nat.not_lt.mp (mt (Loop.lt_turnCount_iff (by decide) 3).mp (by decide))
  obtain ⟨-, -, runs, result, hruns, hlinked, -, -, hloop⟩ := counting_loop_turns ⟨0, 4, evaluate 0 4⟩ "i"
    (some (number 5)) (number 0) (some (number (-2))) ⟨.lookup "i", default⟩ false default ctx (s := {}) rfl rfl rfl
    (show Number.index? 5 = some 5 by decide) Number.index?_zero (show Number.index? (-2) = some (-2) by decide)
    (by decide) (by decide) (by decide) (by decide) (Nat.lt_succ_of_le hturns)
  refine ⟨runs, result, Nat.le_of_not_lt fun hlong => ?_, hlinked, fun k run hk => ?_, hloop⟩
  · have hlast := (hruns 3 _ (List.getElem?_eq_getElem hlong)).1
    omega
  · obtain ⟨-, x, hx, hnames, -⟩ := hruns k run hk
    refine ⟨x, hx.trans (congrArg some ?_), hnames⟩
    ring

/-- A loop whose variable is a constant around it has no turn, whatever its bounds. -/
theorem constant_is_no_loop_variable :
    let number (x : Float) : Node := ⟨.number x, default⟩
    let loop : Node := ⟨.countingLoop "i" (some (number 0)) (number 3) none (number 1) false, default⟩
    let ctx : Context := ⟨⟨"main", []⟩, ⟨⟨0⟩, []⟩, none⟩
    let s : Store := { frames.all := #[[("i", ⟨.number 9, true⟩)]] }
    Loop.turnCount 0 3 1 = 3 ∧ evaluate 0 5 loop ctx s =
      Eval.fail ctx.trace default (.constantReassignment "i") (s.inTurn []) := by
  intro number loop ctx s
  exact ⟨Loop.turnCount_toward 0 3, rfl⟩

end ScriptLang
