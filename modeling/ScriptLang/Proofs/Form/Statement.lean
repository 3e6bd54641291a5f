import ScriptLang.Proofs.Form.Class
import ScriptLang.Proofs.Form.Expression
import ScriptLang.Proofs.Passage.Append

/-! Statements and programs, their form and where they stand. Main statements: the whole grammar gives
nested nodes, and what can be parsed is admitted at the top of a program. -/
namespace ScriptLang

open ScriptLang.Parser

namespace Form

variable {z : Zone} {r : Surroundings} {p : Place} {lo m k : Nat} {g : Grammar} {read : Array String}

theorem returnStatement_takes (hg : g.Forms) : Takes one (returnStatement g) := by
  refine takes_advance fun z r first hfirst => ?_
  refine atNewline_any fun line => atBlockEnd_any fun closes => .ite (fun _ => ?_) fun _ => ?_
  · refine .pure fun s hs => ⟨_, .of_node ⟨.mk hfirst nofun, Nat.le_refl _, Nat.le_refl _⟩ ?_, hs⟩
    exact .plain rfl trivial nofun
  · refine hg.expression.bind (.nil hfirst.order) fun value m hm hheld => .pure fun s hs => ⟨m, ?_, hs⟩
    exact lead_node hfirst hm hheld (fun n hn => List.mem_singleton.mp hn) fun _ => .plain rfl trivial

/-- What can be deleted is an admitted operand: nothing is written into a node that has empty brackets
inside, and a variable or an element by its key can be written. -/
theorem isDeletable_admitted {target : Node} {s : ParseState} (h : target.Operand p s)
    (hdeletable : isDeletable target = true) :
    target.Admitted p ∧ ((∃ name, target.shape = .lookup name) ∨
      ∃ owner key, target.shape = .index owner (.single key) false) := by
  obtain ⟨shape, span⟩ := target
  unfold isDeletable at hdeletable
  split at hdeletable
  next name hshape =>
    cases hshape
    refine ⟨?_, .inl ⟨name, rfl⟩⟩
    cases h with
    | admitted h => exact h
    | brackets hindex => cases hindex
    | fixed hnone => exact nomatch hnone ⟨.nothing, span⟩
  next owner key hshape =>
    cases hshape
    refine ⟨?_, .inr ⟨owner, key, rfl⟩⟩
    cases h with
    | admitted h => exact h
    | brackets hindex => cases hindex
    | fixed hnone => exact nomatch hnone ⟨.nothing, span⟩
  next => cases hdeletable

theorem deletion_takes (hg : g.Forms) : Takes one (deletion g) := by
  unfold deletion
  dsimp only
  refine takes_advance fun z r first hfirst => ?_
  refine .bind (of_ahead (chain_offers hg z r _)) fun target s ⟨m, hheld, hpast⟩ => ?_
  obtain ⟨hnode, hoperand⟩ := And.intro hheld.node hheld.only
  refine Yields.guard (P := Past z (z.stop first.span) m) hnode.nested.genuine (fun hdeletable => ?_) s hpast
  simp only [Bool.not_eq_true', Bool.not_eq_false] at hdeletable
  obtain ⟨htarget, hform⟩ := isDeletable_admitted hoperand hdeletable
  have htarget : Held z (Admits r) (z.start first.span) m [target] :=
    .lower (.of_node hnode htarget) hfirst.order
  refine .pure fun s hs => ⟨m, ?_, hs.lower hfirst.order⟩
  exact lead_node hfirst hheld.le htarget (fun n hn => List.mem_singleton.mp hn) fun _ => .plain rfl hform

/-- The constructor of the parent is called where the surroundings allow it. -/
theorem superCall_takes (hg : g.Forms) : Takes one (superCall g) := by
  refine takes_advance fun z r first hfirst => ?_
  refine Yields.guard (c := (!r.inConstructor) = true) hfirst fun hflag => ?_
  have hchained : r.place.inConstructor = true := by simpa [Surroundings.place] using hflag
  refine (arguments_reads hg).bind (.nil hfirst.order) fun args m hm hheld => ?_
  refine close_node hheld hfirst hm (fun _ => id) fun span hargs => ?_
  refine .layer trivial (fun _ => hchained) (by simp [Shape.isSign]) fun role part hpart => ?_
  obtain ⟨node, hnode, heq⟩ := List.mem_map.mp hpart
  cases heq
  exact hargs _ hnode

theorem enumMember_past (inBlock : Bool) (hread : read.toList.Nodup) :
    Yields z r (Past z lo m) (enumMember inBlock read)
      (turnOf (fun read s => read.toList.Nodup ∧ Past z lo m s) fun members s =>
        members.Nodup ∧ Past z lo m s) := by
  unfold enumMember
  dsimp only
  intro s hs
  have hle := hs.le
  refine (expectIdentifier_spots.bind ?_) s hs
  rintro ⟨name, span⟩ hspan hstart
  refine .guard hspan fun hname => ?_
  have hpush : (read.push name).toList.Nodup := by
    rw [Array.toList_push, List.nodup_append]
    refine ⟨hread, by simp, fun other hother last hlast => ?_⟩
    rw [List.mem_singleton.mp hlast]
    rintro rfl
    exact hname (by simpa using hother)
  have hback {t : ParseState} (ht : Past z lo (z.stop span) t) : Past z lo m t :=
    ht.weaken (Nat.le_refl _) (Nat.le_trans hstart hspan.order) hle
  refine eat_any fun more => atNewline_any fun line => .ite (fun _ => ?_) fun _ => ?_
  · exact .pure fun _ hs => ⟨hpush, hback hs⟩
  · exact .pure fun _ hs => ⟨hpush, hback hs⟩

theorem nextEnumMember_past (inBlock : Bool) (read : Array String) :
    Yields z r (fun s => read.toList.Nodup ∧ Past z lo m s) (nextEnumMember inBlock read)
      (turnOf (fun read s => read.toList.Nodup ∧ Past z lo m s) fun members s =>
        members.Nodup ∧ Past z lo m s) := by
  refine .given fun hread => ?_
  cases inBlock with
  | false => exact enumMember_past false hread
  | true =>
    refine skipNewlines_past (atKeyword_bind ?_ (enumMember_past true hread))
    exact of_inside (.pure fun _ hs => ⟨hread, hs⟩)

theorem endEnumeration_gives {start : Span} (hstart : z.Genuine start) (hle : z.stop start ≤ m)
    (name : String) (inBlock : Bool) {members : List String} (hmembers : members.Nodup) :
    Yields z r (Past z (z.start start) m) (endEnumeration start name inBlock members)
      (Gives z (Admits r) one (z.start start)) := by
  have hclose : Yields z r (Past z (z.start start) m)
      (if members.isEmpty = true then fault .emptyEnum start >>= fun (_ : Unit) => previous >>=
          fun last => pure ⟨.enumeration name members, start.cover last⟩
        else previous >>= fun last => pure ⟨.enumeration name members, start.cover last⟩)
      (Gives z (Admits r) one (z.start start)) := by
    refine .guard hstart fun hsome => close_node (C := Admits r) (.nil ?_) hstart hle (fun _ => id) fun _ => ?_
    · exact Nat.le_trans hstart.order hle
    · exact .plain rfl ⟨by simpa using hsome, hmembers⟩
  cases inBlock with
  | false => exact hclose
  | true => exact skipNewlines_past (expectKeyword_spots.skip hclose)

theorem enumeration_takes : Takes one enumeration := by
  refine takes_advance fun z r first hfirst => ?_
  refine .bind expectIdentifier_spots.past fun name => expect_spots.skip ?_
  refine atNewline_any fun inBlock => ?_
  refine .bind ((Yields.loop (nextEnumMember_past inBlock) #[]).pre fun s hs => ⟨List.nodup_nil, hs⟩) ?_
  exact fun members => .given (endEnumeration_gives hfirst (Nat.le_refl _) name.1 inBlock)

theorem statement_reads (hg : g.Forms) : Reads one (statement g) := by
  intro z r k
  have hexpression := expression_reads hg z r k
  refine kind_bind fun kd => ?_
  cases kd with
  | keyword word =>
    cases word with
    | returnWord => exact at_inside (returnStatement_takes hg z r k) rfl
    | continueWord | breakWord | passWord => exact leaf_at rfl rfl trivial rfl
    | classWord => exact at_inside (classDefinition_takes hg z r k) rfl
    | enumWord => exact at_inside (enumeration_takes z r k) rfl
    | defineWord =>
      exact at_inside (definition_takes hg .declareConstant (fun _ _ => rfl) (fun _ _ => trivial)
        (fun _ _ => rfl) z r k) rfl
    | deleteWord => exact at_inside (deletion_takes hg z r k) rfl
    | superWord =>
      refine at_inside (fun s hs => ?_) rfl
      exact Yields.ite (fun _ => superCall_takes hg z r k) (fun _ => of_inside hexpression) s hs
    | _ => exact of_at hexpression
  | _ => exact of_at hexpression

theorem program_nested (hg : g.Forms) :
    Yields z r (Ahead z k) (program g) fun read _ => ∀ n ∈ read, n.Nested z ∧ Admits r n := by
  refine .bind (statements_sequence hg) fun read s hs => ?_
  have hread : ∀ n ∈ read, n.Nested z ∧ Admits r n := by
    rcases hs with ⟨rfl, _⟩ | ⟨first, last, _, _, _, hheld, _⟩
    · exact List.forall_mem_nil _
    · exact fun n hn => ⟨(hheld.lies n hn).nested, hheld.form n hn⟩
  have hsound : Sound z s.stream := by
    rcases hs with ⟨_, hahead⟩ | ⟨_, _, _, _, _, _, hpast⟩
    · exact hahead.sound
    · exact hpast.sound
  suffices h : Yields z r (fun s => Sound z s.stream) _ _ from h s hsound
  refine kind_bind fun kd => of_at (.ite (fun _ => ?_) fun _ => .pure fun _ _ => hread)
  exact unexpected_bind fun _ hs => hs.current

end Form

/-- A grammar that reads its parts one level deep or more gives nested and admitted nodes. -/
theorem Grammar.upTo_forms (depth : Nat) : (upTo depth).Forms := by
  induction depth with
  | zero =>
    exact ⟨fun _ _ _ _ _ => ⟨nofun, nofun⟩, fun _ _ _ _ _ => ⟨nofun, nofun⟩, fun _ _ _ _ _ => ⟨nofun, nofun⟩,
      fun _ _ _ _ _ => ⟨nofun, nofun⟩, fun _ _ _ _ _ => ⟨nofun, nofun⟩⟩
  | succ depth ih =>
    exact {
      expression := Form.expression_reads ih
      comparison := Form.comparison_offers ih
      power := Form.power_offers ih
      factor := Form.factor_offers ih
      statement := Form.statement_reads ih }

def Place.top : Place := ⟨0, false⟩

/-- Every statement of a program that can be parsed is admitted. -/
theorem Program.parse_admitted {firstId nextId : Nat} {tokens : List Token} {program : Program}
    (h : Program.parse firstId tokens = .ok (program, nextId)) : ∀ statement ∈ program, statement.Admitted .top := by
  obtain ⟨t, hrun, _⟩ := Program.parse_eq_ok.mp h
  have hprogram := Form.program_nested (z := ⟨none, 0⟩) (r := { turns := Token.weights tokens + 2 })
    (Grammar.upTo_forms (Token.weights tokens + 2)) ⟨.ofTokens tokens, firstId⟩ Form.untold_ahead
  exact fun statement hstatement => (hprogram.1 program t hrun statement hstatement).2

end ScriptLang
