import ScriptLang.Proofs.Tandem.Rule

/-! Blocks, functions, control flow and classes, read side by side. -/
namespace ScriptLang

open Likeness (Like)

/-- Two grammars that go on in the same way from states that `F` compares, for texts of no more than `n`
tokens. -/
structure Grammar.InStep (C : Corpus) (F : Seam) (n : Nat) (g g' : Grammar) : Prop where
  fits : F.Fits (n + 1)
  expression : Tandem C F n F.tight .any moves g.expression g'.expression
  comparison : Tandem C F n F.tight .any moves g.comparison g'.comparison
  power : Tandem C F n F.tight .any moves g.power g'.power
  factor : Tandem C F n F.tight .any moves g.factor g'.factor
  statement : Tandem C F n F.tight .any moves g.statement g'.statement
  expression_stuck : g'.expression.Stuck
  statement_stuck : g'.statement.Stuck

structure Grammar.Paired (C : Corpus) (F : Seam) (n : Nat) (g g' : Grammar) : Prop
    extends Grammar.InStep C F n g g' where
  whole : Grammar.InStep C F.whole n g g'

/-- A rule takes a token and reads the same words with either grammar, also if there is one token more. -/
abbrev Grammar.Follows (C : Corpus) (F : Seam) (n : Nat) (g g' : Grammar) (K : Pairing)
    (rule : Grammar → Parser Node) : Prop :=
  Tandem C F (n + 1) F.tight K moves (rule g) (rule g')

namespace Parser

variable {C : Corpus} {F : Seam} {n : Nat} {c : Bool} {g g' : Grammar}

section Block

section

variable (hg : Tandem C F n F.tight .any moves g.statement g'.statement)

include hg

theorem nextStatement_tandem (hstuck : g'.statement.Stuck) {read read' : Array Node} (hread : Like F.scale read read') :
    Tandem C F n F.firm .any onNext (nextStatement g read) (nextStatement g' read') := by
  refine .atNewline_bind (.inl (Seam.calm _)) ?_ (.pure_of (.done hread) id id)
  refine .given (.skipNewlines_bind (.atBlockEnd_bind ?_ ?_ ?_))
  · exact .pure_of (.done hread) id id
  · refine .bind_on hg.firm fun node node' hnode => ?_
    exact .pure (.next (hread.push hnode))
  · exact hstuck.bind _

theorem statements_tandem (hstuck : g'.statement.Stuck) :
    Tandem C F n F.firm .any still (statements g) (statements g') := by
  rw [statements_eq, statements_eq]
  refine .skipNewlines_bind
    (.atBlockEnd_bind (.pure .nil) ?_ ?_)
  · refine .bind hg.firm fun first first' hfirst => ?_
    have hone : Like F.scale #[first] #[first'] := .cons hfirst .nil
    refine .bind (.loop (fun _ _ => nextStatement_tandem hg hstuck) hone) fun read read' hread => ?_
    exact .pure hread
  · exact hstuck.bind _

end

variable (hg : g.Paired C F n g')

include hg

theorem block_tandem : Tandem C F n F.firm .any still (block g) (block g') := by
  unfold block
  refine .here_bind fun start start' hstart => ?_
  refine .bind (statements_tandem hg.statement hg.statement_stuck) fun body body' hbody => ?_
  have hlast := forall₂_getLast? hbody
  generalize body.getLast? = last, body'.getLast? = last' at hlast
  cases hbody with
  | nil => exact .fault _ hstart
  | cons hfirst hrest =>
    cases hlast with
    | none => exact .fault _ hstart
    | some hlast => exact .pure (.mk (.block (.cons hfirst hrest)) (hfirst.span.cover hlast.span))

theorem blockOrStatement_tandem : Tandem C F n F.blockwise .any still (blockOrStatement g) (blockOrStatement g') := by
  refine .atNewline_bind (.inr (hg.statement_stuck.bind _)) ?_ ?_
  · refine .given (.bind_of (u := fun _ x => x.2 = false) (block_tandem hg) (fun node node' hnode => ?_)
      (fun _ => .inl (Nat.le_refl n)) ?_ fun _ _ => False.elim)
    · exact .pure_of (.mk hnode rfl) nofun nofun
    · rintro _ ⟨_, isBlock⟩ h
      cases isBlock with
      | false => exact .inr rfl
      | true => exact .inl h
  · refine .lax (.bind hg.statement fun node node' hnode => ?_) fun _ => Seam.tight_of_behind
    exact .pure (.mk hnode rfl)

theorem body_tandem : Tandem C F n F.tight .any still (body g) (body g') := by
  refine .bind_blockwise (blockOrStatement_tandem hg) fun node node' isBlock hnode => ?_
  cases isBlock with
  | true =>
    refine .expectKeyword_bind ?_
    exact .pure (.mk hnode rfl)
  | false => exact .pure_of (.mk hnode rfl) Bool.false_ne_true Bool.false_ne_true

end Block

section Function

variable {read read' : Array (Param Node)} {next next' : Param Node}

theorem typeName_tandem : Tandem C F n (fun _ => c) .any moves typeName typeName := by
  refine .kind_bind fun k k' hk _ _ => ?_
  have htake (name : String) : Tandem C F n (fun _ => c) .solid moves (discard advance >>= fun _ => pure name)
      (discard advance >>= fun _ => pure name) :=
    .advance_bind (.pure rfl)
  cases hk with
  | seam | line | template => exact .unexpected _
  | plain =>
    cases k with
    | identifier name => exact .of_solid (htake name) rfl
    | keyword word =>
      cases word with
      | classWord => exact .of_solid (htake "class") rfl
      | _ => exact .unexpected _
    | _ => exact .unexpected _

private theorem hasName_iff (hread : Like F.scale read read') (hnext : Like F.scale next next') :
    read.any (·.name = next.name) = true ↔ read'.any (·.name = next'.name) = true := by
  rw [← Array.any_toList, ← Array.any_toList, forall₂_any_eq hread]
  intro a a' ha
  rw [Param.Alike.name_eq ha, Param.Alike.name_eq hnext]

theorem checkParam_tandem (hread : Like F.scale read read') (hnext : Like F.scale next next') :
    Tandem C F n (fun _ => c) .any still (checkParam read next) (checkParam read' next') := by
  unfold checkParam
  dsimp only
  have hname := hasName_iff hread hnext
  have hspan : next.span.Like F.scale next'.span := by
    cases hnext with
    | mk _ _ _ _ _ span => exact span
  have hback : Option.Rel (Like F.scale) read.back? read'.back? := by
    rw [Array.back?, Array.back?, Aligned.size_eq hread]
    exact Aligned.getElem? hread _
  generalize read.back? = last, read'.back? = last' at hback
  have hunique : Tandem C F n (fun _ => c) .any still
      (if read.any (·.name = next.name) then fault (.duplicateParameter next.name) next.span else pure ())
      (if read'.any (·.name = next'.name) then fault (.duplicateParameter next'.name) next'.span
        else pure ()) := by
    rw [Param.Alike.name_eq hnext] at hname ⊢
    exact .ite hname (fun _ => .fault _ hspan) fun _ => .pure rfl
  cases hback with
  | none => exact hunique
  | some hlast =>
    refine .guard _ (by rw [Param.Alike.isRest_eq hlast]) hspan fun _ => ?_
    refine .guard _ ?_ hspan fun _ => hunique
    rw [Param.Alike.isOptional_eq hlast, Param.Alike.isOptional_eq hnext, Param.Alike.isRest_eq hnext]

variable (hg : g.Paired C F n g')

include hg

theorem param_tandem : Tandem C F n F.tight .any moves (param g) (param g') := by
  unfold param
  dsimp only
  refine .here_bind fun start start' hstart => ?_
  refine .eat_any nofun fun isRest => .bind_on (.expectIdentifier _) ?_
  rintro ⟨name, nameSpan⟩ ⟨_, nameSpan'⟩ ⟨rfl, hname⟩
  refine .eat_any nofun fun marked => ?_
  have htype : Tandem C F n F.tight .any moves typeName typeName := typeName_tandem
  refine .eat_option nofun htype.option .none fun declared declared' hdeclared => ?_
  obtain rfl := name_eq_of_like hdeclared
  refine .eat_option nofun hg.expression.option .none fun fallback fallback' hfallback => ?_
  have hsome : fallback.isSome = fallback'.isSome := by
    cases hfallback <;> rfl
  have hcover := hstart.cover hname
  refine .guard _ (by rw [hsome]) ?_ fun _ => .previous_bind hg.fits fun last last' hlast => ?_
  · cases hfallback with
    | none => exact hcover
    | some hnode => exact hcover.cover hnode.span
  · rw [hsome]
    refine .pure (.mk _ _ _ _ hfallback (.cover ?_ hlast))
    cases hfallback with
    | none => exact hcover
    | some hnode => exact hcover.cover hnode.span

theorem nextParam_tandem (hread : Like F.scale read read') :
    Tandem C F n (F.turnwise c) .any moves (nextParam g read) (nextParam g' read') := by
  refine .bind_past (param_tandem hg) fun next next' hnext => ?_
  refine .bind_free (checkParam_tandem hread hnext) fun _ _ _ => ?_
  have hpush := Aligned.push hread hnext
  refine .skipNewlines_moved (.eat_bind nofun (.skipNewlines_next hpush) ?_)
  refine .expect_bind ?_
  exact .pure (.done hpush)

theorem params_tandem : Tandem C F n F.tight .any moves (params g) (params g') := by
  refine .expect_bind (.skipNewlines_moved ?_)
  refine .eat_paren_bind (.pure .nil) (.loop_moves (fun _ _ => nextParam_tandem hg) (fun _ => id) ?_)
  exact List.Forall₂.nil

theorem functionTail_tandem (name : Option String) {params params' : List (Param Node)}
    (hparams : Like F.scale params params') {start start' : Span} (hstart : start.Like F.scale start') :
    Tandem C F n F.tight .any moves (functionTail g name params start) (functionTail g' name params' start') := by
  have hdone (autoReturn : Bool) {body body' : Node} (hbody : Like F.scale body body') :
      Tandem (α := FunctionDef Node) C F n F.tight .any still (freshId >>= fun id => previous >>= fun last =>
          pure ⟨id, name, params, body, autoReturn, start.cover last⟩)
        (freshId >>= fun id => previous >>= fun last =>
          pure ⟨id, name, params', body', autoReturn, start'.cover last⟩) := by
    refine .freshId_bind fun id id' hid => .previous_bind hg.fits fun last last' hlast => ?_
    exact .pure (function_like hid name hparams hbody autoReturn (hstart.cover hlast))
  refine .eat_bind nofun ?_ (.eat_bind nofun ?_ (.unexpected _))
  · exact .bind hg.expression fun body body' hbody => hdone true hbody
  · refine .bind (body_tandem hg) ?_
    rintro ⟨body, isBlock⟩ ⟨body', _⟩ ⟨hbody, rfl⟩
    exact hdone false hbody

theorem function_tandem : g.Follows C F n g' .solid function := by
  refine .bind_moved .advance fun first first' hfirst => .kind_bind fun k k' hk _ _ => ?_
  have hrest (name : Option String) : Tandem (α := Node) C F n F.tight .any still
      (params g >>= fun params => inConstructor false (functionTail g name params first.span) >>=
        fun definition => pure ⟨.function definition, definition.span⟩)
      (params g' >>= fun params => inConstructor false (functionTail g' name params first'.span) >>=
        fun definition => pure ⟨.function definition, definition.span⟩) := by
    refine .bind (params_tandem hg) fun params params' hparams => ?_
    refine .bind (.inConstructor false (functionTail_tandem hg name hparams hfirst)) ?_
    exact fun definition definition' hdef => .pure (.mk (.function hdef) (function_like_span hdef))
  cases hk with
  | seam | line | template => exact (hrest none).given
  | plain =>
    cases k with
    | identifier name =>
      refine .of_solid (.advance_bind ?_) rfl
      exact hrest (some name)
    | _ => exact (hrest none).given

end Function

section Assignment

variable {M : Scale} {target target' value value' : Node}

theorem binary_like (op : BinaryOp) (hleft : Like M target target') (hright : Like M value value') :
    Like M (Node.binary op target value) (Node.binary op target' value') :=
  .mk (.binary op hleft hright) (hleft.span.cover hright.span)

/-- Functions cannot be written, whatever their ids are. -/
private theorem written?_anonymous (M : Scale) (target value : Node) :
    target.written? value = Node.written? ⟨target.shape.anonymous M, target.span⟩ value := by
  obtain ⟨shape, span⟩ := target
  cases shape <;> rfl

theorem written?_like (htarget : Like M target target') (hvalue : Like M value value') :
    Option.Rel (fun a b => Shape.Alike (Span.Like M) M.functions (Node.Like M) (a.anonymous M)
      (b.anonymous M)) (target.written? value) (target'.written? value') := by
  have hshape := htarget.shape
  rw [written?_anonymous M target, written?_anonymous M target']
  unfold Node.written?
  generalize target.shape.anonymous M = shape, target'.shape.anonymous M = shape' at hshape
  cases hshape with
  | lookup name => exact .some (.assign name hvalue)
  | index optional howner hkey =>
    cases hkey with
    | slice => exact .none
    | single hkey =>
      cases optional with
      | true => exact .none
      | false => exact .some (.assignIndex howner (.single hkey) hvalue)
    | push =>
      cases optional with
      | true => exact .none
      | false => exact .some (.assignIndex howner .push hvalue)
  | property name optional howner =>
    cases optional with
    | true => exact .none
    | false => exact .some (.assignProperty name howner hvalue)
  | staticProperty name optional howner =>
    cases optional with
    | true => exact .none
    | false => exact .some (.assignStatic name howner hvalue)
  | _ => exact .none

theorem assign_tandem (htarget : Like F.scale target target') (hvalue : Like F.scale value value') :
    Tandem C F n (fun _ => c) .any still (assign target value) (assign target' value') := by
  have hwritten := written?_like htarget hvalue
  unfold assign
  generalize target.written? value = shape, target'.written? value' = shape' at hwritten
  cases hwritten with
  | none => exact .fault _ htarget.span
  | some hshape => exact .pure (.mk hshape (htarget.span.cover hvalue.span))

theorem compound_tandem (hg : g.Paired C F n g') (op : BinaryOp) (htarget : Like F.scale target target') :
    Tandem C F n F.tight .solid moves (compound g op target) (compound g' op target') := by
  refine .advance_bind ?_
  refine .bind hg.expression fun value value' hvalue => ?_
  exact assign_tandem htarget (binary_like op htarget hvalue)

private theorem step_tandem (next : Int) : Tandem (α := Turn Int Int) C F n (fun _ => c) .solid moves
    (discard advance >>= fun _ => pure (.next next)) (discard advance >>= fun _ => pure (.next next)) :=
  .advance_bind (.pure (.next rfl))

theorem nextIncrement_tandem (delta : Int) :
    Tandem C F n F.tight .any onNext (nextIncrement delta) (nextIncrement delta) := by
  refine .kind_bind fun k k' hk _ _ => ?_
  have hstep (next : Int) : Tandem (α := Turn Int Int) C F n F.tight .solid onNext
      (discard advance >>= fun _ => pure (.next next)) (discard advance >>= fun _ => pure (.next next)) :=
    (step_tandem next).weaken fun _ _ => trivial
  have hdone {K : Pairing} : Tandem (α := Turn Int Int) C F n F.tight K onNext (pure (.done delta))
      (pure (.done delta)) := .pure_of (.done rfl) id id
  cases hk with
  | seam | line | template => exact hdone
  | plain =>
    cases k with
    | symbol sign =>
      cases sign with
      | plusPlus | minusMinus => exact .of_solid (hstep _) rfl
      | _ => exact hdone
    | _ => exact hdone

/-- A run of `++` and `--` whose first sign is at hand. -/
theorem increments_tandem {k : TokenKind Token} (hk : IsIncrement k) (hfits : F.Fits (n + 1)) :
    Tandem C F (n + 1) F.tight (.these k k) moves increments increments := by
  rw [increments_eq]
  refine .here_bind fun start start' hstart => ?_
  have hfirst : Tandem C F (n + 1) F.tight (.these k k) moves (nextIncrement 0) (nextIncrement 0) := by
    refine .kind_these ?_
    rcases hk with rfl | rfl
    · exact .of_solid (step_tandem _) rfl
    · exact .of_solid (step_tandem _) rfl
  refine .bind_moved (.loop_moved ?_ hfirst) fun delta delta' hdelta =>
    .previous_bind hfits fun last last' hlast => ?_
  · rintro delta _ rfl
    exact nextIncrement_tandem delta
  · exact .pure (.mk hdelta (hstart.cover hlast))

theorem increment_tandem (htarget : Like F.scale target target') (delta : Int) {span span' : Span}
    (hspan : span.Like F.scale span') :
    Tandem C F n (fun _ => c) .any still (increment target delta span) (increment target' delta span') := by
  have hdelta : Like F.scale (⟨.number (Float.ofInt delta), span⟩ : Node)
      ⟨.number (Float.ofInt delta), span'⟩ := .mk (.number _) hspan
  refine .bind (assign_tandem htarget (binary_like .add htarget hdelta)) fun node node' hnode => ?_
  exact .pure (.mk hnode.shape (hnode.span.cover hspan))

end Assignment

section Conditional

variable {start start' : Span} {read read' : Array (Branch Node)}

def openedBranch (g : Grammar) (start : Span) (read : Array (Branch Node)) (hasCondition : Bool) :
    Parser (Turn (Array (Branch Node) × Bool) Node) :=
  discard advance >>= fun _ => if hasCondition
    then branch g >>= fun next => pure (.next (read.push next.1, next.2))
    else lastBranch g start read

def endConditional (start : Span) (read : Array (Branch Node)) (lastIsBlock : Bool) :
    Parser (Turn (Array (Branch Node) × Bool) Node) := do
  if lastIsBlock then discard (expectKeyword .endWord)
  return .done ⟨.conditional read.toList none false, start.cover (← previous)⟩

/-- The other branches of a conditional are looked for across the line breaks behind a statement. -/
theorem otherBranches_eq_lookAcross (g : Grammar) (start : Span) (read : Array (Branch Node))
    (lastIsBlock : Bool) : otherBranches g start (read, lastIsBlock) =
      lookAcross (!lastIsBlock) (openedBranch g start read) (endConditional start read lastIsBlock) := by
  have hnext (s t : ParseState) (r : Surroundings) : nextBranch g start read lastIsBlock s r t =
      t.kind.opensBranch?.elim (endConditional start read lastIsBlock r s)
        fun hasCondition => openedBranch g start read hasCondition r t := by
    obtain ⟨⟨previous, ⟨kind, span⟩, rest⟩, nextId⟩ := t
    cases kind with
    | keyword word => cases word <;> rfl
    | _ => rfl
  rw [otherBranches_eq]
  funext r s
  cases lastIsBlock with
  | false => exact hnext s (s.ahead true) r
  | true => exact hnext s (s.ahead false) r

private def branchwise (F : Seam) : Turn (Array (Branch Node) × Bool) Node → Bool
  | .next x => F.blockwise x
  | .done _ => F.known

private theorem endConditional_tandem (hfits : F.Fits (n + 1)) (hstart : start.Like F.scale start')
    (hread : Like F.scale read read') (lastIsBlock : Bool) :
    Tandem C F n (branchwise F) .any (fun t => onNext t ∨ lastIsBlock = true)
      (endConditional start read lastIsBlock) (endConditional start' read' lastIsBlock) := by
  have hclosed {q : Turn (Array (Branch Node) × Bool) Node → Prop} (hq : ∀ node, ¬q (.done node)) :
      Tandem C F n (branchwise F) .any q
        (previous >>= fun last => pure (.done ⟨.conditional read.toList none false, start.cover last⟩))
        (previous >>= fun last => pure (.done
          ⟨.conditional read'.toList none false, start'.cover last⟩)) := by
    refine .previous_bind hfits fun last last' hlast => .pure_of (.done ?_) (hq _) (hq _)
    exact .mk (.conditional false hread .none) (hstart.cover hlast)
  cases lastIsBlock with
  | true => exact .expectKeyword_bind (hclosed fun _ => id)
  | false => exact hclosed fun _ h => h.elim id Bool.false_ne_true

variable (hg : g.Paired C F n g')

include hg

theorem branch_tandem : Tandem C F n F.blockwise .any moves (branch g) (branch g') := by
  refine .bind_past hg.expression fun condition condition' hcondition => ?_
  refine .expect_bind ?_
  refine .bind_of (u := fun x y => y.2 ≠ x.2) (blockOrStatement_tandem hg) ?_
    (fun _ => .inl (Nat.le_refl n)) ?_ fun _ _ => False.elim
  · rintro ⟨body, isBlock⟩ ⟨body', _⟩ ⟨hbody, rfl⟩
    exact .pure_of (.mk (.mk isBlock hcondition hbody) rfl) (· rfl) (· rfl)
  · rintro ⟨body, isBlock⟩ ⟨next, isBlock'⟩ h
    by_cases hsame : isBlock' = isBlock
    · exact .inl (hsame ▸ h)
    · exact .inr hsame

private theorem lastBranch_tandem (hstart : start.Like F.scale start') (hread : Like F.scale read read') :
    Tandem C F n F.tight .any still (lastBranch g start read) (lastBranch g' start' read') := by
  unfold lastBranch
  refine .bind (.discard (.eating nofun) fun _ _ => False.elim) fun _ _ _ => ?_
  refine .bind_blockwise (blockOrStatement_tandem hg) fun otherwise otherwise' isBlock hother => ?_
  have hclosed {q : Turn (Array (Branch Node) × Bool) Node → Prop} (hq : ∀ t, ¬q t) :
      Tandem C F n F.tight .any q
        (previous >>= fun last => pure (.done
          ⟨.conditional read.toList (some otherwise) isBlock, start.cover last⟩))
        (previous >>= fun last => pure (.done
          ⟨.conditional read'.toList (some otherwise') isBlock, start'.cover last⟩)) := by
    refine .previous_bind hg.fits fun last last' hlast => .pure_of (.done ?_) (hq _) (hq _)
    exact .mk (.conditional isBlock hread (.some hother)) (hstart.cover hlast)
  cases isBlock with
  | true => exact .expectKeyword_bind (hclosed fun _ => id)
  | false => exact hclosed nofun

private theorem openedBranch_tandem (hstart : start.Like F.scale start')
    (hread : Like F.scale read read') (hasCondition : Bool) :
    Tandem C F n (branchwise F) .solid moves (openedBranch g start read hasCondition)
      (openedBranch g' start' read' hasCondition) := by
  refine .advance_bind ?_
  cases hasCondition with
  | false =>
    refine (lastBranch_tandem hg hstart hread).lax ?_
    rintro (x | node) h
    · exact Seam.tight_of_behind h
    · exact h
  | true =>
    refine .bind_of (u := fun x t => ∀ y, t = .next y → y.2 ≠ x.2) (branch_tandem hg) ?_
      (fun _ => .inl (Nat.le_refl n)) ?_ fun _ _ => False.elim
    · rintro ⟨next, isBlock⟩ ⟨next', _⟩ ⟨hnext, rfl⟩
      exact .pure_of (.next (.mk (Aligned.push hread hnext) rfl)) (· _ rfl rfl) (· _ rfl rfl)
    · rintro ⟨next, isBlock⟩ (⟨branches, isBlock'⟩ | node) h
      · by_cases hsame : isBlock' = isBlock
        · exact .inl (hsame ▸ h)
        · exact .inr fun y hy => by cases hy; exact hsame
      · exact .inr nofun

theorem conditional_tandem : g.Follows C F n g' .solid conditional := by
  refine .bind_moved .advance fun first first' hfirst => ?_
  refine .bind_blockwise (branch_tandem hg) fun branch branch' isBlock hbranch => ?_
  have hone : Like F.scale (#[branch], isBlock) (#[branch'], isBlock) := PairAlike.mk (.cons hbranch .nil) rfl
  have hturn (x x' : Array (Branch Node) × Bool) (hx : Like F.scale x x') :
      Tandem C F n (branchwise F) .any (fun t => onNext t ∨ x.2 = true)
        (otherBranches g first.span x) (otherBranches g' first'.span x') := by
    obtain ⟨hread, rfl⟩ := hx
    rename_i read read' lastIsBlock
    rw [otherBranches_eq_lookAcross, otherBranches_eq_lookAcross]
    refine .lookAcross (fun hasCondition => ?_) (endConditional_tandem hg.fits hfirst hread lastIsBlock)
    exact (openedBranch_tandem hg hfirst hread hasCondition).weaken fun _ _ => trivial
  -- Behind a block the next turn takes a token.
  refine .loop_of (v := fun x _ => x.2 = true) hturn (fun _ _ => .inl) (fun _ _ h _ => .inr h) ?_ (fun _ => id) ?_
    (hturn _ _ hone) (fun _ => .inl) fun _ h _ => .inr h
  · rintro _ _ ⟨-, rfl⟩ _ h
    exact h
  · rintro ⟨read, lastIsBlock⟩ _ h
    cases lastIsBlock with
    | true => exact .inr rfl
    | false => exact .inl h

end Conditional

section Loops

variable (hg : g.Paired C F n g')

include hg

theorem countingLoop_tandem : g.Follows C F n g' .solid countingLoop := by
  unfold countingLoop
  dsimp only
  refine .bind_moved .advance fun first first' hfirst => .bind (.expectIdentifier _) ?_
  rintro ⟨name, _⟩ ⟨_, _⟩ ⟨rfl, _⟩
  refine .eat_option nofun hg.expression.option .none fun start start' hstart => ?_
  refine .expectKeyword_bind ?_
  refine .bind hg.expression fun stop stop' hstop => ?_
  refine .eatKeyword_option hg.expression.option .none fun step step' hstep => ?_
  refine .expect_bind (.bind (body_tandem hg) ?_)
  rintro ⟨body, discarded⟩ ⟨body', _⟩ ⟨hbody, rfl⟩
  refine .previous_bind hg.fits fun last last' hlast => .pure ?_
  exact .mk (.countingLoop name discarded hstart hstop hstep hbody) (hfirst.cover hlast)

theorem eachLoop_tandem : g.Follows C F n g' .solid eachLoop := by
  unfold eachLoop
  dsimp only
  refine .bind_moved .advance fun first first' hfirst => ?_
  refine .bind hg.expression fun items items' hitems => ?_
  refine .expectKeyword_bind ?_
  refine .bind (.expectIdentifier _) ?_
  rintro ⟨name, _⟩ ⟨_, _⟩ ⟨rfl, _⟩
  refine .eat_option nofun (.optionName (.expectIdentifier _)) .none
    fun second second' hsecond => ?_
  obtain rfl := name_eq_of_like hsecond
  refine .expect_bind (.bind (body_tandem hg) ?_)
  rintro ⟨body, discarded⟩ ⟨body', _⟩ ⟨hbody, rfl⟩
  refine .previous_bind hg.fits fun last last' hlast => .pure ?_
  exact .mk (.eachLoop _ _ discarded hitems hbody) (hfirst.cover hlast)

theorem whileLoop_tandem : g.Follows C F n g' .solid whileLoop := by
  refine .bind_moved .advance fun first first' hfirst => ?_
  refine .bind hg.expression fun condition condition' hcondition => ?_
  refine .expect_bind (.bind (body_tandem hg) ?_)
  rintro ⟨body, discarded⟩ ⟨body', _⟩ ⟨hbody, rfl⟩
  refine .previous_bind hg.fits fun last last' hlast => .pure ?_
  exact .mk (.whileLoop discarded hcondition hbody) (hfirst.cover hlast)

end Loops

section Switch

variable {subject subject' : Node}

variable (hg : g.Paired C F n g')

include hg

theorem switchBranch_tandem (hsubject : Like F.scale subject subject')
    {x x' : SwitchBranches} (hx : Like F.scale x x') :
    Tandem C F n F.firm .any onNext (switchBranch g subject x) (switchBranch g' subject' x') := by
  obtain ⟨hcases, hother⟩ := hx
  rename_i cases cases' other other'
  have hsome : other.isSome = other'.isSome := by
    cases hother <;> rfl
  unfold switchBranch
  dsimp only
  refine .eatKeyword_if ?_ (.eatKeyword_if ?_ ?_)
  · refine .ite (by rw [hsome]) (fun _ => .previous_bind hg.fits fun _ _ hlast => .fault_bind _ hlast) fun _ => ?_
    refine .bind hg.expression.firm fun value value' hvalue => ?_
    refine .expect_bind ?_
    refine .bind (block_tandem hg) fun body body' hbody => .pure (.next (.mk (Aligned.push hcases ?_) hother))
    exact .mk (binary_like .equal hsubject hvalue) hbody
  · refine .ite (by rw [hsome]) (fun _ => .previous_bind hg.fits fun _ _ hlast => .fault_bind _ hlast) fun _ => ?_
    refine .expect_bind ?_
    exact .bind (block_tandem hg) fun body body' hbody => .pure (.next (.mk hcases (.some hbody)))
  · exact .pure_of (.done (.mk hcases hother)) id id

theorem switch_tandem : g.Follows C F n g' .solid switch := by
  unfold switch
  dsimp only
  refine .bind_moved .advance fun first first' hfirst => ?_
  refine .bind hg.expression fun subject subject' hsubject => ?_
  refine .expect_bind ?_
  refine .atNewline_bind (.inr nofun) ?_ (.unexpected_bind _)
  refine .given (.skipNewlines_moved ?_)
  have hnone : Like F.scale ((#[], none) : SwitchBranches) (#[], none) := .mk .nil .none
  refine .bind_past (.loop (fun _ _ => switchBranch_tandem hg hsubject) hnone) ?_
  rintro ⟨cases, otherwise⟩ ⟨cases', otherwise'⟩ ⟨hcases, hother⟩
  refine .expectKeyword_bind ?_
  refine .previous_bind hg.fits fun last last' hlast => .pure ?_
  exact .mk (.switch hcases hother) (hfirst.cover hlast)

end Switch

section Class

variable {start start' : Span}

variable {definition definition' : ClassDef Node}

theorem setVisibility_tandem (visibility : Visibility) (x : Modifiers) :
    Tandem C F n F.tight .solid moves (setVisibility visibility x) (setVisibility visibility x) := by
  obtain ⟨flags, visibilitySet⟩ := x
  refine .ite Iff.rfl (fun _ => .fault_here _) fun _ => ?_
  exact .advance_bind (.pure (.next (.mk rfl rfl)))

theorem nextModifier_tandem (x : Modifiers) : Tandem C F n F.tight .any onNext (nextModifier x) (nextModifier x) := by
  obtain ⟨flags, visibilitySet⟩ := x
  have hdone {K : Pairing} : Tandem (α := Turn Modifiers MemberFlags) C F n F.tight K onNext
      (pure (.done flags)) (pure (.done flags)) := .pure_of (.done rfl) id id
  have hvisibility (visibility : Visibility) : Tandem C F n F.tight .solid onNext
      (setVisibility visibility (flags, visibilitySet)) (setVisibility visibility (flags, visibilitySet)) :=
    (setVisibility_tandem visibility _).weaken fun _ _ => trivial
  have htake (next : Modifiers) : Tandem (α := Turn Modifiers MemberFlags) C F n F.tight .solid onNext
      (discard advance >>= fun _ => pure (.next next)) (discard advance >>= fun _ => pure (.next next)) :=
    .advance_bind (.pure (.next (.mk rfl rfl)))
  refine .kind_bind fun k k' hk _ _ => ?_
  cases hk with
  | seam | line | template => exact hdone
  | plain =>
    cases k with
    | keyword word =>
      cases word with
      | publicWord => exact .of_solid (hvisibility .everyone) rfl
      | protectedWord => exact .of_solid (hvisibility .inheritors) rfl
      | privateWord => exact .of_solid (hvisibility .self) rfl
      | staticWord =>
        refine .of_solid (.ite Iff.rfl (fun _ => ?_) fun _ => htake _) rfl
        exact .fault_here _
      | overrideWord =>
        refine .of_solid (.ite Iff.rfl (fun _ => ?_) fun _ => htake _) rfl
        exact .fault_here _
      | _ => exact hdone
    | _ => exact hdone

theorem modifiers_tandem : Tandem C F n F.tight .any still modifiers modifiers := by
  refine .loop ?_ (PairAlike.mk rfl rfl)
  rintro ⟨flags, visibilitySet⟩ ⟨_, _⟩ ⟨rfl, rfl⟩
  exact nextModifier_tandem _

/-- What all methods, getters and setters end with. -/
private theorem methodTail_tandem (hfits : F.Fits (n + 1)) (hstart : start.Like F.scale start')
    (flags : MemberFlags) (name : String)
    {tail tail' : Parser (FunctionDef Node)} {q : FunctionDef Node → Prop}
    (htail : Tandem C F n F.tight .any q tail tail') :
    Tandem (α := MethodDef Node) C F n F.tight .any still
      (tail >>= fun function => previous >>= fun last => pure ⟨name, function, flags, start.cover last⟩)
      (tail' >>= fun function => previous >>= fun last =>
        pure ⟨name, function, flags, start'.cover last⟩) := by
  refine .bind htail fun function function' hfunction => .previous_bind hfits fun last last' hlast => ?_
  exact .pure (.mk name flags hfunction (hstart.cover hlast))

theorem declares_eq_of_like (h : Like F.scale definition definition') (name : String) (kind : MemberKind) :
    declares definition name kind = declares definition' name kind := by
  have hmethod (x y : MethodDef Node) (hxy : Like F.scale x y) :
      decide (x.name = name) = decide (y.name = name) := by
    rw [method_name_eq_of_like hxy]
  have hproperty (x y : PropertyDef Node) (hxy : Like F.scale x y) :
      decide (x.name = name) = decide (y.name = name) := by
    cases hxy
    rfl
  have hproperties := forall₂_any_eq h.properties hproperty
  have hmethods := forall₂_any_eq h.methods hmethod
  cases kind with
  | property | method => exact congrArg₂ or hproperties hmethods
  | getter => exact forall₂_any_eq h.getters hmethod
  | setter => exact forall₂_any_eq h.setters hmethod

private theorem endMember_tandem {body body' : ClassBody} (hbody : Like F.scale body body') :
    Tandem C F n F.firm .any still (endMember body) (endMember body') := by
  have hdone : Tandem (α := Turn ClassBody ClassBody) C F n F.firm .any still (pure (.next body))
      (pure (.next body')) := .pure (.next hbody)
  refine .atNewline_bind (.inl (Seam.calm _)) (.given ?_) ?_
  · exact .atKeyword_bind hdone.given hdone
  · exact .atKeyword_bind hdone.given (.unexpected_bind _)

theorem isEmptyClass_eq_of_like (h : Like F.scale definition definition') :
    isEmptyClass definition = isEmptyClass definition' := by
  have hempty {α : Type} [Likeness α] {xs ys : List α} (h : Like F.scale xs ys) :
      xs.isEmpty = ys.isEmpty := by
    cases h <;> rfl
  rw [isEmptyClass, isEmptyClass, hempty h.properties, hempty h.methods, hempty h.getters,
    hempty h.setters]

variable (hg : g.Paired C F n g')

include hg

section

variable (hstart : start.Like F.scale start')

include hstart

variable (flags : MemberFlags) (name : String)

theorem property_tandem :
    Tandem C F n F.tight .any still (property g start flags name) (property g' start' flags name) := by
  refine .eat_option nofun hg.expression.option .none fun value value' hvalue => ?_
  refine .previous_bind hg.fits fun last last' hlast => ?_
  exact .pure (.mk name flags hvalue (hstart.cover hlast))

theorem method_tandem : Tandem C F n F.tight .any still (method g start flags name) (method g' start' flags name) := by
  refine .bind (params_tandem hg) fun params params' hparams => ?_
  exact methodTail_tandem hg.fits hstart flags name
    (.inConstructor _ (functionTail_tandem hg (some name) hparams hstart))

theorem getter_tandem : Tandem C F n F.tight .any still (getter g start flags name) (getter g' start' flags name) := by
  have hrest := methodTail_tandem hg.fits hstart flags name (functionTail_tandem hg (some name) .nil hstart)
  refine .guard _ Iff.rfl hstart fun _ => .atSymbol_bind nofun ?_ hrest
  refine .given (.bind (params_tandem hg) fun params params' hparams => ?_)
  cases hparams with
  | nil => exact hrest
  | cons hfirst =>
    cases hfirst with
    | mk _ _ _ _ _ hspan => exact .fault_bind _ hspan

theorem setter_tandem {nameSpan nameSpan' : Span} (hname : nameSpan.Like F.scale nameSpan') :
    Tandem C F n F.tight .any still (setter g start nameSpan flags name) (setter g' start' nameSpan' flags name) := by
  unfold setter
  dsimp only
  refine .guard _ Iff.rfl hstart fun _ => .bind (params_tandem hg) fun params params' hparams => ?_
  have hrest := methodTail_tandem hg.fits hstart flags name (functionTail_tandem hg (some name) hparams hstart)
  cases hparams with
  | nil => exact .fault_bind _ hname
  | cons honly hothers =>
    cases hothers with
    | nil => exact .guard _ (by rw [Param.Alike.isRest_eq honly]) hname fun _ => hrest
    | cons => exact .fault_bind _ hname

end

theorem member_tandem (h : Like F.scale definition definition') :
    Tandem C F n F.tight .any moves (member g definition) (member g' definition') := by
  obtain ⟨className, parent, properties, methods, getters, setters, span⟩ := definition
  obtain ⟨_, parent', properties', methods', getters', setters', span'⟩ := definition'
  obtain rfl := ClassDef.Like.name h
  unfold member
  dsimp only
  refine .here_bind fun start start' hstart =>
    .bind modifiers_tandem ?_
  rintro flags _ rfl
  refine .kind_bind fun k k' hk _ _ => ?_
  have hkind : memberKind? k = memberKind? k' := by
    cases hk <;> rfl
  rw [← hkind]
  cases hmember : memberKind? k with
  | none => exact .unexpected _
  | some kind =>
    refine .of_ask memberKind? (.advance_bind ?_) hkind hmember nofun
    refine .bind (.expectIdentifier _) ?_
    rintro ⟨name, nameSpan⟩ ⟨_, nameSpan'⟩ ⟨rfl, hname⟩
    refine .guard _ (by rw [declares_eq_of_like h]) hname fun _ => ?_
    cases kind with
    | property =>
      refine .bind (property_tandem hg hstart flags name) fun new new' hnew => .pure ?_
      exact { h with properties := List.rel_append h.properties (.cons hnew .nil) }
    | method =>
      refine .bind (method_tandem hg hstart flags name) fun new new' hnew => .pure ?_
      exact { h with methods := List.rel_append h.methods (.cons hnew .nil) }
    | getter =>
      refine .bind (getter_tandem hg hstart flags name) fun new new' hnew => .pure ?_
      exact { h with getters := List.rel_append h.getters (.cons hnew .nil) }
    | setter =>
      refine .bind (setter_tandem hg hstart flags name hname) fun new new' hnew => .pure ?_
      exact { h with setters := List.rel_append h.setters (.cons hnew .nil) }

theorem nextMember_tandem {x x' : ClassBody} (hx : Like F.scale x x') :
    Tandem C F n F.firm .any onNext (nextMember g x) (nextMember g' x') := by
  obtain ⟨hdefinition, rfl⟩ := hx
  rename_i definition definition' sawPass
  refine .skipNewlines_bind
    (.atKeyword_bind ?_ (.eatKeyword_bind ?_ ?_))
  · exact .pure_of (.done (.mk hdefinition rfl)) id id
  · exact endMember_tandem (.mk hdefinition rfl)
  · refine .bind_on (member_tandem hg hdefinition).firm fun next next' hnext => ?_
    exact endMember_tandem (.mk hnext rfl)

theorem classDefinition_tandem : g.Follows C F n g' .solid classDefinition := by
  unfold classDefinition
  dsimp only
  refine .bind_moved .advance fun first first' hfirst => .bind (.expectIdentifier _) ?_
  rintro ⟨name, _⟩ ⟨_, _⟩ ⟨rfl, _⟩
  refine .eatKeyword_option (.optionName (.expectIdentifier _)) .none
    fun parent parent' hparent => ?_
  obtain rfl := name_eq_of_like hparent
  refine .expect_bind ?_
  refine .atNewline_bind (.inr nofun) (.given ?_) (.fault_here _)
  have hempty : Like F.scale ({ name, parent, span := first.span } : ClassDef Node)
      { name, parent, span := first'.span } := ⟨rfl, rfl, .nil, .nil, .nil, .nil, hfirst⟩
  refine .bind_past (.loop (fun _ _ => nextMember_tandem hg) (PairAlike.mk hempty rfl)) ?_
  rintro ⟨definition, sawPass⟩ ⟨definition', _⟩ ⟨hdefinition, rfl⟩
  refine .expectKeyword_bind ?_
  refine .guard _ (by rw [isEmptyClass_eq_of_like hdefinition]) hfirst fun _ => ?_
  refine .previous_bind hg.fits fun last last' hlast => ?_
  have hspan := Span.Like.cover hfirst hlast
  have hclosed : ClassDef.Like F.scale { definition with span := first.span.cover last }
      { definition' with span := first'.span.cover last' } := { hdefinition with span := hspan }
  exact .pure (.mk (.classDefinition hclosed.alike) hspan)

end Class

end Parser

end ScriptLang
