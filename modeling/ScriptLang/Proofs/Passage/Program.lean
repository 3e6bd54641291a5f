import ScriptLang.Proofs.Grammar.Turn
import ScriptLang.Proofs.Grammar.Run
import ScriptLang.Proofs.Token.Alike

/-! Programs as statements on lines of their own. Main statement: a program is read if and only if its
statements are read one after the other up to the end. -/
namespace ScriptLang

open ScriptLang.Parser

def ParseState.AtEnd (s : ParseState) : Prop := s.stream.current.kind = .endOfInput

def ParseState.skipped (s : ParseState) : ParseState := { s with stream := s.stream.skipNewlines }

def TokenKind.closesBlock : TokenKind Token → Bool
  | .endOfInput => true
  | .keyword word => endsBlock word
  | _ => false

theorem Parser.atBlockEnd_apply (r : Surroundings) (s : ParseState) :
    atBlockEnd r s = .ok (s.stream.current.kind.closesBlock, s) := by
  obtain ⟨⟨previous, ⟨kind, span⟩, rest⟩, nextId⟩ := s
  cases kind <;> rfl

section Reading

variable (g : Grammar) (r : Surroundings)

mutual

/-- The statements that a program has from `s` on, where the next one would begin, and the id behind
those of its functions. -/
inductive Opening : ParseState → List Node → Nat → Prop
  | finished {s} (h : s.AtEnd) : Opening s [] s.nextId
  | statement {s t node nodes id} (opens : s.stream.current.kind.closesBlock = false)
      (run : g.statement r s = .ok (node, t)) (rest : Remaining t nodes id) :
      Opening s (node :: nodes) id

inductive Remaining : ParseState → List Node → Nat → Prop
  | finished {s} (h : s.AtEnd) : Remaining s [] s.nextId
  | line {s nodes id} (h : s.stream.current.kind.isNewline = true) (rest : Opening s.skipped nodes id) :
      Remaining s nodes id

end

end Reading

section Loop

variable {g : Grammar} {r : Surroundings} {s t : ParseState} {nodes : List Node} {id : Nat}

private theorem nextStatement_apply (read : Array Node) : nextStatement g read r s =
    if s.stream.current.kind.isNewline = false then .ok (.done read, s)
    else if s.skipped.stream.current.kind.closesBlock = true then .ok (.done read, s.skipped)
    else (g.statement >>= fun node => pure (.next (read.push node))) r s.skipped := by
  change (if (!s.stream.current.kind.isNewline) = true then _ else _ : Parser _) r s = _
  cases s.stream.current.kind.isNewline with
  | false => rfl
  | true =>
    change (atBlockEnd >>= fun closes => if closes = true then pure (Turn.done read)
      else g.statement >>= fun node => pure (Turn.next (read.push node))) r s.skipped = _
    rw [bind_apply, atBlockEnd_apply]
    cases s.skipped.stream.current.kind.closesBlock <;> rfl

/-- What the loop reads from the end of a statement on. -/
private theorem remaining_of_iterate {turns : Nat} {read all : Array Node}
    (h : iterate (nextStatement g) turns read r s = .ok (all, t)) (hend : t.AtEnd) :
    ∃ nodes, all.toList = read.toList ++ nodes ∧ Remaining g r s nodes t.nextId := by
  induction turns generalizing read s with
  | zero => cases h
  | succ turns ih =>
    obtain ⟨next, u, hnext, hrest⟩ := bind_eq_ok.mp h
    rw [nextStatement_apply] at hnext
    split at hnext
    next =>
      cases hnext
      cases hrest
      exact ⟨[], (List.append_nil _).symm, .finished hend⟩
    next hline =>
      have hline : s.stream.current.kind.isNewline = true := by simpa using hline
      split at hnext
      next =>
        cases hnext
        cases hrest
        exact ⟨[], (List.append_nil _).symm, .line hline (.finished hend)⟩
      next hopens =>
        have hopens : s.skipped.stream.current.kind.closesBlock = false := by simpa using hopens
        obtain ⟨node, v, hrun, hnode⟩ := bind_eq_ok.mp hnext
        cases hnode
        obtain ⟨nodes, hall, hnodes⟩ := ih hrest
        refine ⟨node :: nodes, ?_, .line hline (.statement hopens hrun hnodes)⟩
        rw [hall, Array.toList_push, List.append_assoc]
        rfl

private theorem iterate_of_remaining {turns : Nat} (read : Array Node)
    (h : Remaining g r s nodes id) (hturns : nodes.length < turns) :
    ∃ all t, iterate (nextStatement g) turns read r s = .ok (all, t) ∧ t.AtEnd ∧
      t.nextId = id ∧ all.toList = read.toList ++ nodes := by
  induction turns generalizing read s nodes with
  | zero => exact absurd hturns (Nat.not_lt_zero _)
  | succ turns ih =>
    have hstop {u : ParseState} (hnext : nextStatement g read r s = .ok (.done read, u)) :
        iterate (nextStatement g) (turns + 1) read r s = .ok (read, u) :=
      bind_eq_ok.mpr ⟨_, u, hnext, rfl⟩
    cases h with
    | finished hend =>
      refine ⟨read, s, hstop ?_, hend, rfl, (List.append_nil _).symm⟩
      rw [nextStatement_apply, if_pos (by rw [show _ = TokenKind.endOfInput from hend]; rfl)]
    | line hline rest =>
      have hgoon : ¬s.stream.current.kind.isNewline = false := by simp [hline]
      cases rest with
      | finished hend =>
        refine ⟨read, s.skipped, hstop ?_, hend, rfl, (List.append_nil _).symm⟩
        rw [nextStatement_apply, if_neg hgoon,
          if_pos (by rw [show _ = TokenKind.endOfInput from hend]; rfl)]
      | @statement _ u node nodes _ hopens hrun rest =>
        obtain ⟨all, t, hall, hend, hid, hnodes⟩ := ih (read.push node) rest
          (Nat.lt_of_succ_lt_succ hturns)
        refine ⟨all, t, bind_eq_ok.mpr ⟨.next (read.push node), u, ?_, hall⟩, hend, hid, ?_⟩
        · rw [nextStatement_apply, if_neg hgoon, if_neg (by simp [hopens])]
          exact bind_eq_ok.mpr ⟨node, u, hrun, rfl⟩
        · rw [hnodes, Array.toList_push, List.append_assoc]
          rfl

end Loop

section Program

variable {g : Grammar} {r : Surroundings} {s t : ParseState} {nodes : List Node} {id : Nat}

private theorem statements_apply : statements g r s =
    if s.skipped.stream.current.kind.closesBlock = true then .ok ([], s.skipped)
    else (g.statement >>= fun node => loop (nextStatement g) #[node] >>= fun read =>
      pure read.toList) r s.skipped := by
  rw [statements_eq]
  change (atBlockEnd >>= fun closes => if closes = true then pure []
    else g.statement >>= fun node => loop (nextStatement g) #[node] >>= fun read =>
      pure read.toList) r s.skipped = _
  rw [bind_apply, atBlockEnd_apply]
  cases s.skipped.stream.current.kind.closesBlock <;> rfl

private theorem program_eq_ok : program g r s = .ok (nodes, t) ↔ statements g r s = .ok (nodes, t) ∧ t.AtEnd := by
  have hlast (read : List Node) (u : ParseState) :
      (kind >>= fun k => if (!k.isEnd) = true then unexpected "an operator or a newline" >>=
        fun (_ : Unit) => pure read else pure read : Parser (List Node)) r u = .ok (nodes, t) ↔
      read = nodes ∧ u = t ∧ u.AtEnd := by
    rw [ParseState.AtEnd, ← TokenKind.isEnd_iff]
    change (if (!u.stream.current.kind.isEnd) = true then _ else _ : Parser (List Node)) r u = _ ↔ _
    cases u.stream.current.kind.isEnd with
    | false => exact ⟨nofun, nofun⟩
    | true =>
      constructor
      · rintro ⟨⟩
        exact ⟨rfl, rfl, rfl⟩
      · rintro ⟨rfl, rfl, _⟩
        rfl
  unfold program
  rw [bind_eq_ok]
  constructor
  · rintro ⟨read, u, hread, hrest⟩
    obtain ⟨rfl, rfl, hend⟩ := (hlast read u).mp hrest
    exact ⟨hread, hend⟩
  · rintro ⟨hread, hend⟩
    exact ⟨nodes, t, hread, (hlast nodes t).mpr ⟨rfl, rfl, hend⟩⟩

theorem opening_of_program (h : program g r s = .ok (nodes, t)) : Opening g r s.skipped nodes t.nextId := by
  obtain ⟨hrun, hend⟩ := program_eq_ok.mp h
  rw [statements_apply] at hrun
  split at hrun
  next =>
    cases hrun
    exact .finished hend
  next hopens =>
    have hopens : s.skipped.stream.current.kind.closesBlock = false := by simpa using hopens
    obtain ⟨node, u, hnode, hrest⟩ := bind_eq_ok.mp hrun
    obtain ⟨all, v, hall, hdone⟩ := bind_eq_ok.mp hrest
    cases hdone
    obtain ⟨nodes, hnodes, hremaining⟩ := remaining_of_iterate hall hend
    rw [hnodes]
    exact .statement hopens hnode hremaining

theorem program_of_opening (h : Opening g r s.skipped nodes id) (hturns : nodes.length ≤ r.turns) :
    ∃ t, program g r s = .ok (nodes, t) ∧ t.nextId = id := by
  generalize hs : s.skipped = u at h
  cases h with
  | finished hend =>
    refine ⟨s.skipped, program_eq_ok.mpr ⟨?_, hs ▸ hend⟩, by rw [hs]⟩
    rw [statements_apply, if_pos (by rw [hs, show _ = TokenKind.endOfInput from hend]; rfl)]
  | @statement _ v node nodes _ hopens hrun rest =>
    obtain ⟨all, t, hall, hend, hid, hnodes⟩ := iterate_of_remaining #[node] rest hturns
    refine ⟨t, program_eq_ok.mpr ⟨?_, hend⟩, hid⟩
    rw [statements_apply, if_neg (by simp [hs, hopens]), hs]
    exact bind_eq_ok.mpr ⟨node, v, hrun, bind_eq_ok.mpr ⟨all, t, hall, by rw [hnodes]; rfl⟩⟩

end Program

end ScriptLang
