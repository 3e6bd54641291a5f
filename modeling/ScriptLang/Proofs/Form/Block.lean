import ScriptLang.Proofs.Form.Rule
import ScriptLang.Proofs.Grammar.Turn

/-! Blocks and functions, their form and where they stand. -/
namespace ScriptLang

open ScriptLang.Parser

structure Grammar.Forms (g : Grammar) : Prop where
  expression : Form.Reads Form.one g.expression
  comparison : Form.Offers g.comparison
  power : Form.Offers g.power
  factor : Form.Offers g.factor
  statement : Form.Reads Form.one g.statement

namespace Form

variable {z : Zone} {r : Surroundings} {C : Node → Prop} {lo m k : Nat} {g : Grammar} {P : ParseState → Prop}

section Block

variable (hg : g.Forms)

include hg

/-- Statements from the first to the last, the place behind which nothing was taken but line breaks. -/
def Sequence (z : Zone) (r : Surroundings) (k : Nat) (read : Array Node) (s : ParseState) : Prop :=
  ∃ first last, read.toList.head? = some first ∧ read.toList.getLast? = some last ∧
    k ≤ z.start first.span ∧
    Held z (Admits r) (z.start first.span) (z.stop last.span) read.toList ∧
    Past z k (z.stop last.span) s

theorem nextStatement_sequence (read : Array Node) :
    Yields z r (Sequence z r k read) (nextStatement g read) (turnOf (Sequence z r k) (Sequence z r k)) := by
  rintro s ⟨first, last, hfirst, hlast, hk, hheld, hpast⟩
  have hsequence {t : ParseState} (ht : Past z k (z.stop last.span) t) :
      Sequence z r k read t := ⟨first, last, hfirst, hlast, hk, hheld, ht⟩
  suffices h : Yields z r (Past z k (z.stop last.span)) (nextStatement g read)
      (turnOf (Sequence z r k) (Sequence z r k)) from h s hpast
  refine atNewline_bind ?_ (.pure fun _ => hsequence)
  refine of_inside (skipNewlines_past (atBlockEnd_any fun closes => ?_))
  cases closes with
  | true => exact .pure fun _ => hsequence
  | false =>
    refine gives_bind (of_ahead (hg.statement z r _)) fun node m hnode => .pure fun t ht => ?_
    have hbetween := hnode.node
    refine ⟨first, node, ?_, ?_, hk, ?_, ?_⟩
    · rw [Array.toList_push, List.head?_append, hfirst]
      rfl
    · rw [Array.toList_push, List.getLast?_append]
      rfl
    · rw [Array.toList_push]
      exact hheld.append (.of_node ⟨hbetween.nested, hbetween.start, Nat.le_refl _⟩ hnode.only)
    · have := hheld.le
      have := hbetween.start
      have := hbetween.nested.genuine.order
      exact ht.weaken (by omega) hbetween.stop (by omega)

/-- Statements, and where there are none, nothing but line breaks taken. -/
theorem statements_sequence :
    Yields z r (Ahead z k) (statements g) fun read t => read = [] ∧ Ahead z k t ∨ Sequence z r k read.toArray t := by
  rw [statements_eq]
  refine skipNewlines_ahead (atBlockEnd_any fun closes => ?_)
  cases closes with
  | true => exact .pure fun _ hs => .inl ⟨rfl, hs⟩
  | false =>
    refine hg.statement.bind_ahead fun node m hnode => ?_
    have hbetween := hnode.node
    have horder := hbetween.nested.genuine.order
    have hone : ∀ s, Past z k m s → Sequence z r k #[node] s := fun s hs =>
      ⟨node, node, rfl, rfl, hbetween.start,
        .of_node ⟨hbetween.nested, Nat.le_refl _, Nat.le_refl _⟩ hnode.only,
        hs.weaken (Nat.le_refl _) hbetween.stop (Nat.le_trans hbetween.start horder)⟩
    refine .bind ((Yields.loop (nextStatement_sequence hg) _).pre hone) fun read => ?_
    exact .pure fun _ hs => .inr hs

theorem block_reads : Reads one (block g) := by
  intro z r k
  refine here_any (fun _ hs => hs.sound.current) fun start hstart => ?_
  refine .bind (statements_sequence hg) fun body s hs => ?_
  rcases hs with ⟨rfl, _⟩ | ⟨first, last, hfirst, hlast, hk, hheld, hpast⟩
  · exact Yields.fault (P := fun _ => True) hstart s trivial
  · rw [show body.head? = some first from hfirst, show body.getLast? = some last from hlast]
    have hbetween := hheld.lies last (List.mem_of_getLast? hlast)
    have hbegin := hheld.lies first (List.mem_of_head? hfirst)
    refine Yields.pure (P := Past z k (z.stop last.span)) ?_ s hpast
    intro t ht
    refine ⟨z.stop last.span, .of_node (.widen ?_ hk (Nat.le_refl _)) (.plain rfl ?_ hheld.form), ht⟩
    · exact hheld.close hbegin.nested.genuine hbetween.nested.genuine hbetween.start (Nat.le_refl _)
        hbegin.stop fun n hn => hn
    · exact List.ne_nil_of_mem (List.mem_of_head? hfirst)

theorem blockOrStatement_reads : Reads (fun read => [read.1]) (blockOrStatement g) := by
  intro z r k
  refine atNewline_bind (of_inside ?_) ?_
  · exact (block_reads hg).bind_ahead fun node m hnode => .pure fun _ hs => ⟨m, hnode, hs⟩
  · exact hg.statement.bind_ahead fun node m hnode => .pure fun _ hs => ⟨m, hnode, hs⟩

theorem body_reads : Reads (fun read => [read.1]) (body g) := by
  intro z r k
  refine (blockOrStatement_reads hg).bind_ahead ?_
  rintro ⟨node, isBlock⟩ m hnode
  have hdone : Yields z r (Past z k m) (pure (node, isBlock)) (Gives z (Admits r) (fun read => [read.1]) k) :=
    .pure fun _ hs => ⟨m, hnode, hs⟩
  cases isBlock with
  | true => exact expectKeyword_spots.skip hdone
  | false => exact hdone

end Block

section Parameter

variable {read : Array (Param Node)} {next : Param Node}

theorem typeName_past : Yields z r (Past z lo m) typeName fun _ => Past z lo m := by
  refine kind_bind fun kd => ?_
  have htake (name : String) : Yields z r (Inside (Past z lo m))
      (discard advance >>= fun _ => pure name) fun _ => Past z lo m :=
    advance_skip (.pure fun _ => id)
  cases kd with
  | identifier name => exact at_inside (htake name) rfl
  | keyword word =>
    cases word with
    | classWord => exact at_inside (htake "class") rfl
    | _ => exact unexpected fun _ hs => hs.1.sound.current
  | _ => exact unexpected fun _ hs => hs.1.sound.current

private theorem paramSpan_genuine {start nameSpan : Span} (hstart : z.Genuine start)
    (hname : z.Genuine nameSpan) (fallback : Option Node) :
    (∀ n ∈ fallback.toList, z.Genuine n.span) →
      z.Genuine (match fallback with
        | some node => (start.cover nameSpan).cover node.span
        | none => start.cover nameSpan) := by
  intro h
  cases fallback with
  | none => exact hstart.cover hname
  | some node => exact (hstart.cover hname).cover (h node (by simp))

/-- A parameter that takes the rest is not optional and has a type. -/
def RestTyped (param : Param Node) : Prop :=
  param.isRest = true → param.isOptional = false ∧ param.typeName.isSome = true

theorem param_reads (hg : g.Forms) :
    Yields z r (Ahead z k) (param g) fun p t =>
      (z.Genuine p.span ∧ RestTyped p) ∧ Gives z (Admits r) Param.parts k p t := by
  unfold param
  dsimp only
  refine here_ahead fun start hstart hk => eat_ahead fun isRest => ?_
  refine expectIdentifier_spots.bind_ahead ?_
  rintro ⟨name, nameSpan⟩ hname hle
  refine eat_any fun marked => eat_optional (.map typeName_past) fun declared => ?_
  refine eat_option hg.expression (.nil hname.order) fun fallback m hm hheld => ?_
  have hspan := paramSpan_genuine hstart hname fallback fun n hn => (hheld.lies n hn).nested.genuine
  refine .guard hspan fun hrest => previous_bind fun last hlast hlo hstop => .pure fun s hs => ?_
  have hbegin : k ≤ z.start nameSpan := Nat.le_trans hk hle
  refine ⟨⟨hspan.cover hlast, fun h => ?_⟩, z.stop last, (hheld.grow hstop).lower hbegin, hs.lower hbegin⟩
  change isRest = true at h
  subst h
  simp only [Bool.true_and, Bool.not_eq_true] at hrest
  exact ⟨hrest, by simp⟩

structure Follows (read : Array (Param Node)) (next : Param Node) : Prop where
  name : ∀ param ∈ read.toList, param.name ≠ next.name
  last : ∀ last ∈ read.back?, last.isRest = false ∧
    (last.isOptional = true → next.isOptional = true ∨ next.isRest = true)

theorem checkParam_follows (read : Array (Param Node)) (hnext : z.Genuine next.span) :
    Yields z r P (checkParam read next) fun _ s => Follows read next ∧ P s := by
  unfold checkParam
  dsimp only
  have hunique (hlast : ∀ last ∈ read.back?, last.isRest = false ∧
      (last.isOptional = true → next.isOptional = true ∨ next.isRest = true)) :
      Yields z r P (if read.any (·.name = next.name) then
        fault (.duplicateParameter next.name) next.span else pure ()) fun _ s => Follows read next ∧ P s := by
    refine .ite (fun _ => .fault hnext) fun hname => .pure fun _ hs => ⟨⟨?_, hlast⟩, hs⟩
    intro param hparam heq
    apply hname
    rw [Array.any_eq_true']
    exact ⟨param, by simpa using hparam, by simpa using heq⟩
  cases hback : read.back? with
  | none => exact hunique (by simp [hback])
  | some last =>
    refine .guard hnext fun hrest => .guard hnext fun hoptional => hunique fun other hother => ?_
    obtain rfl : last = other := by simpa [hback] using hother
    refine ⟨by simpa using hrest, fun hlast => ?_⟩
    by_cases hnext : next.isOptional = true
    · exact .inl hnext
    · exact .inr (by simpa [hlast, hnext] using hoptional)

private theorem exists_back {param : Param Node} (h : param ∈ read.toList) :
    ∃ init last, read.toList = init ++ [last] ∧ read.back? = some last := by
  have hsome : read.toList.getLast? = some (read.toList.getLast (List.ne_nil_of_mem h)) :=
    List.getLast?_eq_some_getLast _
  obtain ⟨init, hinit⟩ := List.getLast?_eq_some_iff.mp hsome
  exact ⟨init, _, hinit, by rw [← Array.getLast?_toList, hsome]⟩

section

variable (h : Follows read next) (hread : Param.Ordered read.toList)

include h hread

/-- Of the parameters before one that follows them, none takes the rest. -/
theorem Follows.isRest_eq_false : ∀ param ∈ read.toList, param.isRest = false := by
  intro param hparam
  obtain ⟨init, last, hlist, hback⟩ := exists_back hparam
  have hbefore := hread.restLast
  rw [hlist, List.dropLast_concat] at hbefore
  rw [hlist] at hparam
  rcases List.mem_append.mp hparam with hinit | hend
  · exact hbefore param hinit
  · rw [List.mem_singleton.mp hend]
    exact (h.last last hback).1

/-- Behind an optional parameter, the next one is optional or takes the rest. -/
theorem Follows.isOptional :
    ∀ param ∈ read.toList, param.isOptional = true → next.isOptional = true ∨ next.isRest = true := by
  intro param hparam hoptional
  obtain ⟨init, last, hlist, hback⟩ := exists_back hparam
  obtain ⟨hrest, hnext⟩ := h.last last hback
  have horder := hread.optional
  rw [hlist, List.pairwise_append] at horder
  rw [hlist] at hparam
  apply hnext
  rcases List.mem_append.mp hparam with hinit | hend
  · have hbetween := horder.2.2 param hinit last (List.mem_singleton_self last) hoptional
    simpa [hrest] using hbetween
  · rwa [← List.mem_singleton.mp hend]

theorem Follows.push (hnext : RestTyped next) : Param.Ordered (read.push next).toList := by
  rw [Array.toList_push]
  constructor
  · rw [List.map_append, List.nodup_append]
    refine ⟨hread.names, by simp, ?_⟩
    intro name hname other hother
    obtain ⟨param, hparam, rfl⟩ := List.mem_map.mp hname
    obtain rfl : other = next.name := by simpa using hother
    exact h.name param hparam
  · rw [List.dropLast_concat]
    exact h.isRest_eq_false hread
  · intro param hparam
    rcases List.mem_append.mp hparam with hparam | hparam
    · exact hread.rest param hparam
    · rw [List.mem_singleton.mp hparam]
      exact hnext
  · rw [List.pairwise_append]
    refine ⟨hread.optional, by simp, ?_⟩
    intro param hparam other hother
    rw [List.mem_singleton.mp hother]
    exact h.isOptional hread param hparam

end

structure ParamsHeld (z : Zone) (C : Node → Prop) (lo m : Nat) (params : List (Param Node)) : Prop where
  ordered : Param.Ordered params
  spans : ∀ p ∈ params, z.Genuine p.span
  held : Held z C lo m (params.flatMap Param.parts)

theorem ParamsHeld.nil (h : lo ≤ m) : ParamsHeld z C lo m [] :=
  ⟨⟨by simp, by simp, by simp, by simp⟩, by simp, .nil h⟩

theorem nextParam_since (hg : g.Forms) (read : Array (Param Node)) (hk : k ≤ m)
    (hread : ParamsHeld z (Admits r) lo m read.toList) :
    Yields z r (Past z lo m) (nextParam g read)
      (turnOf (Since z lo k fun m read => ParamsHeld z (Admits r) lo m read.toList)
        (Since z lo k (ParamsHeld z (Admits r) lo))) := by
  refine .bind (of_ahead (param_reads hg)) fun next => .given fun hnext s ⟨m', hheld, hpast⟩ => ?_
  suffices h : Yields z r (Past z lo m') _ _ from h s (hpast.lower hread.held.le)
  refine .bind (checkParam_follows read hnext.1) fun _ => .given fun hfollows => ?_
  have hpush : ParamsHeld z (Admits r) lo m' (read.push next).toList := by
    refine ⟨hfollows.push hread.ordered hnext.2, ?_, ?_⟩ <;> rw [Array.toList_push]
    · exact List.forall_mem_append.mpr ⟨hread.spans, by simpa using hnext.1⟩
    · simpa [List.flatMap_append] using hread.held.append hheld
  have hle : k ≤ m' := Nat.le_trans hk hheld.le
  refine skipNewlines_past (eat_bind (skipNewlines_past ?_) (expect_spots.skip ?_))
  · exact .pure fun _ hs => ⟨m', hle, hpush, hs⟩
  · exact .pure fun _ hs => ⟨m', hle, hpush, hs⟩

theorem params_since (hg : g.Forms) : Yields z r (Ahead z k) (params g) (Since z k k (ParamsHeld z (Admits r) k)) := by
  refine expect_spots.skip_ahead (skipNewlines_past (eat_bind ?_ ?_))
  · exact .pure fun _ hs => ⟨k, Nat.le_refl _, .nil (Nat.le_refl _), hs⟩
  · exact loop_since (fun read _ => nextParam_since hg read) (Nat.le_refl _) (.nil (Nat.le_refl _))

end Parameter

section Function

variable {params : List (Param Node)} {start : Span}

/-- What is read behind the parameters of a function makes it up together with them. -/
theorem functionTail_gives (hg : g.Forms) (name : Option String) (hstart : z.Genuine start)
    (hle : z.stop start ≤ m) (hparams : Held z C (z.start start) m (params.flatMap Param.parts)) :
    Yields z r (Past z (z.start start) m) (functionTail g name params start) fun f s =>
      (f.params = params ∧ Admits r f.body) ∧
        Gives z (fun _ => True) (fun f => [⟨.function f, f.span⟩]) (z.start start) f s := by
  have hclose (body : Node) (isArrow : Bool) (m' : Nat) (hbody : Held z (Admits r) m m' [body]) :
      Yields z r (Past z m m') (freshId >>= fun id => previous >>= fun last =>
          pure ⟨id, name, params, body, isArrow, start.cover last⟩) fun f s =>
        (f.params = params ∧ Admits r f.body) ∧
          Gives z (fun _ => True) (fun f => [⟨.function f, f.span⟩]) (z.start start) f s := by
    refine .pre (P := Past z (z.start start) m') ?_ fun s hs => hs.lower hparams.le
    refine freshId_bind fun id => previous_bind fun last hlast hlo hstop => .pure fun s hs => ?_
    refine ⟨⟨rfl, hbody.only⟩, _, .of_node ?_ trivial, hs⟩
    have := hbody.le
    exact (hparams.any.append hbody.any).close hstart hlast hlo hstop (by omega) fun n hn => hn
  refine eat_bind ?_ (eat_bind ?_ (unexpected fun _ hs => hs.sound.current))
  · exact gives_bind (of_ahead (hg.expression z r m)) fun body m' hbody => hclose body true m' hbody
  · refine gives_bind (of_ahead (body_reads hg z r m)) ?_
    rintro ⟨body, isBlock⟩ m' hbody
    exact hclose body false m' hbody

theorem function_takes (hg : g.Forms) : Takes one (function g) := by
  intro z r k
  refine advance_bind fun first hfirst hk => kind_bind fun kd => ?_
  have hrest (name : Option String) : Yields z r (Past z (z.start first.span) (z.stop first.span))
      (params g >>= fun params => inConstructor false (functionTail g name params first.span) >>=
        fun definition => pure ⟨.function definition, definition.span⟩)
      (Gives z (Admits r) one k) := by
    refine since_bind (of_ahead (params_since hg)) fun params m hm hparams => yields_lower ?_ hk
    refine .pre (P := Past z (z.start first.span) m) ?_ fun s hs => hs.lower hfirst.order
    have htail := functionTail_gives (r := { r with inConstructor := false }) hg name hfirst hm
      (hparams.held.lower hfirst.order)
    refine .bind (.inConstructor htail) fun f => .given fun hf => .pure fun s hs => ?_
    obtain ⟨rfl, hbody⟩ := hf
    obtain ⟨m', hheld, hpast⟩ := hs
    exact ⟨m', .of_node hheld.node (.function hparams.ordered hparams.held.form hbody), hpast⟩
  cases kd with
  | identifier name => exact at_inside (advance_skip (hrest (some name))) rfl
  | _ => exact of_at (hrest none)

end Function

end Form

end ScriptLang
