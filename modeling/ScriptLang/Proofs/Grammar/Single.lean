import ScriptLang.Proofs.Grammar.Reads
import ScriptLang.Proofs.Passage.Append

/-! Chains without links, and programs of one statement. -/
namespace ScriptLang

structure TokenKind.EndsChain (k : TokenKind Token) : Prop where
  call : k.isSymbol .leftParen = false
  index : k.isSymbol .leftBracket = false
  member : Parser.memberSign k = none

namespace Parser

variable {g : Grammar} {r : Surroundings} {C : TokenKind Token → Prop} {Q : Node → Prop} {node : Node}

variable (hC : ∀ k, C k → k.EndsChain) (optional : Bool) (hnode : Q node) (hturns : 0 < r.turns)

include hC hnode hturns

theorem links_reads : Reads C (links g optional node) r [] Q := by
  obtain ⟨turns, hturns⟩ := Nat.exists_eq_succ_of_ne_zero (Nat.ne_of_gt hturns)
  refine .loop ?_
  rw [hturns]
  refine .iterate_done (.look (.atSymbol .leftParen false) ?_ fun k hk => (hC k hk).call)
  rintro _ rfl
  refine .look (.atSymbol .leftBracket false) ?_ fun k hk => (hC k hk).index
  rintro _ rfl
  exact .pure ⟨node, rfl, hnode⟩

theorem nextLinks_reads : Reads C (loop (nextLink g) (node, optional)) r [] Q := by
  obtain ⟨turns, hturns⟩ := Nat.exists_eq_succ_of_ne_zero (Nat.ne_of_gt hturns)
  refine .loop ?_
  rw [hturns]
  refine .iterate_done (.look .kind (fun k hk => ?_) fun _ => id)
  rw [(hC k hk).member]
  exact .pure ⟨node, rfl, hnode⟩

end Parser

theorem ParseState.ofTokens_eq_facing (first : Token) (rest : List Token) (span : Span) (id : Nat) :
    (⟨.ofTokens (first :: rest ++ [⟨.endOfInput, span⟩]), id⟩ : ParseState) =
      .facing first.span id (first :: rest ++ [⟨.endOfInput, span⟩]) := by
  have hclosed : Stream.closed (first :: rest ++ [⟨.endOfInput, span⟩]) =
      first :: rest ++ [⟨.endOfInput, span⟩] := by
    rw [Stream.closed, List.getLast?_concat]
    rfl
  rw [Stream.ofTokens, hclosed]
  rfl

/-- A program is one statement where that is all that is read up to the end. -/
theorem Program.parse_single {first : Token} {rest : List Token} {span before : Span} {id : Nat} {node : Node}
    (hline : first.kind.isNewline = false) (hopens : first.kind.closesBlock = false)
    (hrun : Parser.statement (.upTo (Token.weights (first :: rest ++ [⟨.endOfInput, span⟩]) + 1))
      { turns := Token.weights (first :: rest ++ [⟨.endOfInput, span⟩]) + 2 }
      (.facing first.span id (first :: rest ++ [⟨.endOfInput, span⟩])) =
        .ok (node, .facing before id [⟨.endOfInput, span⟩])) :
    Program.parse id (first :: rest ++ [⟨.endOfInput, span⟩]) = .ok ([node], id) := by
  have hskipped : ParseState.skipped (.facing first.span id (first :: rest ++ [⟨.endOfInput, span⟩])) =
      .facing first.span id (first :: rest ++ [⟨.endOfInput, span⟩]) :=
    congrArg (ParseState.mk · id) (Stream.behindNewlines_eq hline)
  refine Program.parse_eq_ok.mpr ?_
  rw [ParseState.ofTokens_eq_facing]
  refine program_of_opening ?_ (Nat.le_add_left _ _)
  rw [hskipped]
  exact .statement hopens hrun (.finished rfl)

end ScriptLang
