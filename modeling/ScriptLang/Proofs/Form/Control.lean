import ScriptLang.Proofs.Form.Block

/-! Assignments, conditionals, loops and switches, their form and where they stand. -/
namespace ScriptLang.Form

open ScriptLang.Parser

variable {z : Zone} {r : Surroundings} {p : Place} {lo m k : Nat} {g : Grammar} {nodes : List Node}

section Assignment

variable {target value : Node} {span : Span} {shape : Shape Node}

theorem cover_between {s t : Span} (hs : z.Genuine s) (ht : z.Genuine t) (hstart : lo ≤ min (z.start s) (z.start t))
    (hstop : max (z.stop s) (z.stop t) ≤ m)
    (hparts : ∀ n ∈ shape.parts, n.Between z (min (z.start s) (z.start t)) (max (z.stop s) (z.stop t))) :
    Node.Between z lo m ⟨shape, s.cover t⟩ := by
  rw [← z.start_cover s t, ← z.stop_cover s t] at hparts
  rw [← z.start_cover s t] at hstart
  rw [← z.stop_cover s t] at hstop
  exact ⟨.mk (hs.cover ht) hparts, hstart, hstop⟩

theorem binary_between (op : BinaryOp) (htarget : target.Between z lo m)
    (hvalue : value.Between z lo m) : (Node.binary op target value).Between z lo m := by
  refine cover_between htarget.nested.genuine hvalue.nested.genuine
    (Nat.le_min.mpr ⟨htarget.start, hvalue.start⟩) (Nat.max_le.mpr ⟨htarget.stop, hvalue.stop⟩) ?_
  intro n hn
  simp only [Shape.parts, List.mem_cons, List.not_mem_nil, or_false] at hn
  rcases hn with rfl | rfl
  · exact ⟨htarget.nested, Nat.min_le_left .., Nat.le_max_left ..⟩
  · exact ⟨hvalue.nested, Nat.min_le_right .., Nat.le_max_right ..⟩

theorem binary_admitted (op : BinaryOp) (htarget : target.Admitted p) (hvalue : value.Admitted p) :
    (Node.binary op target value).Admitted p :=
  .plain rfl trivial (by simp [Shape.parts, htarget, hvalue])

/-- What is written instead of a node holds its parts and the value. -/
theorem written?_parts (h : target.written? value = some shape) : ∀ n ∈ shape.parts, n ∈ target.parts ∨ n = value := by
  unfold Node.written? at h
  unfold Node.parts
  split at h <;> cases h <;> rename_i hshape <;>
    simp only [hshape, Shape.parts, List.mem_cons, List.mem_append, List.not_mem_nil, or_false] <;>
    intro n hn <;> tauto

/-- What is written instead of a node is a plain layer, well-formed whatever was in the brackets, to
which nothing can be assigned. -/
theorem written?_form (h : target.written? value = some shape) :
    target.shape.isPlain = true ∧ shape.isPlain = true ∧ shape.WellFormed ∧
      ∀ (span : Span) (other : Node), Node.written? ⟨shape, span⟩ other = none := by
  unfold Node.written? at h
  split at h <;> cases h <;> rename_i hshape <;> rw [hshape]
  · exact ⟨rfl, rfl, trivial, fun _ _ => rfl⟩
  · rename_i index hslice
    refine ⟨rfl, rfl, ?_, fun _ _ => rfl⟩
    cases index with
    | slice start stop => exact (hslice start stop rfl).elim
    | _ => trivial
  · exact ⟨rfl, rfl, trivial, fun _ _ => rfl⟩
  · exact ⟨rfl, rfl, trivial, fun _ _ => rfl⟩

def Assignable (p : Place) (target : Node) : Prop :=
  ∀ {value : Node} {shape : Shape Node} {span : Span}, value.Admitted p →
    target.written? value = some shape → Node.Admitted p ⟨shape, span⟩

theorem assignable_of_parts (hparts : target.shape.isPlain = true → ∀ n ∈ target.parts, n.Admitted p) :
    Assignable p target := by
  intro value shape span hvalue h
  obtain ⟨htarget, hplain, hform, _⟩ := written?_form h
  apply Node.Admitted.plain hplain hform
  intro part hpart
  rcases written?_parts h part hpart with hpart | rfl
  · exact hparts htarget part hpart
  · exact hvalue

theorem assignable_of_admitted (h : target.Admitted p) : Assignable p target :=
  assignable_of_parts h.parts_of_isPlain

theorem assignable_of_operand {s : ParseState} (h : target.Operand p s) : Assignable p target := by
  cases h with
  | admitted h => exact assignable_of_admitted h
  | brackets shape inner _ =>
    apply assignable_of_parts
    intro _
    rw [Node.parts, shape]
    simpa [Shape.parts, Index.parts] using inner
  | fixed hnone _ =>
    intro value shape span _ h
    rw [hnone] at h
    cases h

theorem assign_between {P : ParseState → Prop} (htarget : target.Between z lo m) (hvalue : value.Between z lo m) :
    Yields z r P (assign target value) fun node s =>
      (node.Between z lo m ∧ target.written? value = some node.shape) ∧ P s := by
  unfold assign
  cases hwritten : target.written? value with
  | none => exact .fault htarget.nested.genuine
  | some shape =>
    refine .pure fun s hs => ⟨⟨cover_between htarget.nested.genuine hvalue.nested.genuine
      (Nat.le_min.mpr ⟨htarget.start, hvalue.start⟩) (Nat.max_le.mpr ⟨htarget.stop, hvalue.stop⟩) ?_, rfl⟩, hs⟩
    intro n hn
    rcases written?_parts hwritten n hn with hn | rfl
    · exact (htarget.nested.part hn).widen (Nat.min_le_left ..) (Nat.le_max_left ..)
    · exact ⟨hvalue.nested, Nat.min_le_right .., Nat.le_max_right ..⟩

theorem assign_gives (htarget : target.Between z lo m) (hassign : Assignable r.place target)
    (hvalue : value.Between z lo m) (hform : Admits r value) :
    Yields z r (Past z lo m) (assign target value) (Gives z (Admits r) one lo) := by
  refine (assign_between htarget hvalue).post ?_
  rintro ⟨shape, span⟩ s ⟨⟨hnode, hwritten⟩, hs⟩
  exact ⟨m, .of_node hnode (hassign hform hwritten), hs⟩

theorem compound_gives (hg : g.Forms) (op : BinaryOp) (htarget : Held z (Admits r) lo m [target]) :
    Yields z r (Inside (Past z lo m)) (compound g op target) (Gives z (Admits r) one lo) := by
  refine advance_skip (hg.expression.bind htarget fun value m' _ hheld => ?_)
  have hbetween := hheld.lies target (by simp)
  exact assign_gives hbetween (assignable_of_admitted htarget.only)
    (binary_between op hbetween (hheld.lies value (by simp)))
    (binary_admitted op htarget.only (hheld.form value (by simp)))

def InRun (z : Zone) (start : Span) (s : ParseState) : Prop :=
  Begun z start s ∧
    (Past z (z.start start) (z.stop start) s ∨ IsIncrement s.stream.current.kind)

theorem nextIncrement_run {start : Span} (delta : Int) :
    Yields z r (InRun z start) (nextIncrement delta)
      (turnOf (fun _ => InRun z start) fun _ => Past z (z.start start) (z.stop start)) := by
  have hstep (next : Int) : Yields z r (Inside (InRun z start))
      (discard advance >>= fun _ => pure (.next next))
      (turnOf (fun _ => InRun z start) fun (_ : Int) => Past z (z.start start) (z.stop start)) := by
    refine .pre (begun_skip ?_) fun s hs => ⟨hs.1.1, hs.2⟩
    exact .pure fun s hs => ⟨.inl hs, .inl hs⟩
  have hdone {kd : TokenKind Token} (hkd : ¬IsIncrement kd) :
      Yields z r (At (InRun z start) kd) (pure (.done delta))
        (turnOf (fun (_ : Int) => InRun z start) fun _ => Past z (z.start start) (z.stop start)) := by
    refine .pure ?_
    rintro s ⟨⟨_, hpast | hkind⟩, rfl⟩
    · exact hpast
    · exact absurd hkind hkd
  refine kind_bind fun kd => ?_
  cases kd with
  | symbol sign =>
    cases sign with
    | plusPlus | minusMinus => exact at_inside (hstep _) rfl
    | _ => exact hdone (by simp [IsIncrement])
  | _ => exact hdone (by simp [IsIncrement])

theorem increments_spots :
    Yields z r (fun s => Ahead z k s ∧ IsIncrement s.stream.current.kind) increments fun a t =>
      z.Genuine a.2 ∧ k ≤ z.start a.2 ∧ Past z (z.start a.2) (z.stop a.2) t := by
  rw [increments_eq]
  rintro s ⟨hs, hkind⟩
  suffices h : Yields z r (InRun z s.stream.current.span)
      (loop nextIncrement 0 >>= fun delta => previous >>= fun last =>
        pure (delta, s.stream.current.span.cover last)) _ from
    h s ⟨.inr ⟨rfl, hs.sound, Nat.le_refl _⟩, .inr hkind⟩
  refine .bind (.loop nextIncrement_run 0) fun delta => ?_
  refine previous_bind fun last hlast hlo hstop => .pure fun t ht => ?_
  have hcover := hs.sound.current.cover hlast
  have hfirst := z.start_cover s.stream.current.span last
  have hend := z.stop_cover s.stream.current.span last
  refine ⟨hcover, ?_, ?_⟩
  · have := hs.here
    dsimp only
    omega
  · have horder := hcover.order
    exact ht.weaken (by dsimp only; omega) (by dsimp only; omega) horder

/-- A run of `++` and `--` in front of empty brackets gives a node that nothing can be assigned to, and
an assignment is at hand. -/
theorem increment_offers (htarget : target.Between z lo m) (delta : Int) (hspan : z.Genuine span)
    (hstart : lo ≤ z.start span) (hstop : z.stop span ≤ m) :
    Yields z r (fun s => Past z lo m s ∧ target.Operand r.place s) (increment target delta span) (Offered z r lo) := by
  have hdelta : Node.Between z lo m ⟨.number (Float.ofInt delta), span⟩ :=
    ⟨.mk hspan nofun, hstart, hstop⟩
  refine .bind (assign_between htarget (binary_between .add htarget hdelta)) fun node => ?_
  refine .given fun ⟨hnode, hwritten⟩ => .pure fun s ⟨hs, htarget⟩ => ⟨m, .of_node ?_ ?_, hs⟩
  · refine cover_between hnode.nested.genuine hspan (Nat.le_min.mpr ⟨hnode.start, hstart⟩)
      (Nat.max_le.mpr ⟨hnode.stop, hstop⟩) fun n hn => ?_
    exact (hnode.nested.part hn).widen (Nat.min_le_left ..) (Nat.le_max_left ..)
  · obtain ⟨_, _, _, hfixed⟩ := written?_form hwritten
    cases htarget with
    | admitted h =>
      have hdelta : Node.Admitted r.place ⟨.number (Float.ofInt delta), span⟩ := .plain rfl trivial nofun
      have hvalue := binary_admitted .add h hdelta
      exact .admitted (assignable_of_admitted h hvalue hwritten)
    | brackets _ _ atEqual => exact .fixed (hfixed _) atEqual
    | fixed _ atEqual => exact .fixed (hfixed _) atEqual

end Assignment

section Conditional

theorem branch_reads (hg : g.Forms) : Reads (fun read : Branch Node × Bool => read.1.parts) (branch g) := by
  intro z r k
  refine hg.expression.bind_ahead fun condition m hcondition => expect_spots.skip ?_
  refine (blockOrStatement_reads hg).bind hcondition ?_
  rintro ⟨body, isBlock⟩ m' _ hheld
  exact .pure fun s hs => ⟨m', hheld, hs⟩

variable {start : Span} {read : Array (Branch Node)} {Q : Array (Branch Node) × Bool → ParseState → Prop}

abbrev branchNodes (read : Array (Branch Node) × Bool) : List Node := read.1.toList.flatMap Branch.parts

section

variable (hstart : z.Genuine start) (hle : z.stop start ≤ m)

include hstart hle

private theorem conditional_close (otherwise : Option Node) {isBlock : Bool}
    (hheld : Held z (Admits r) (z.start start) m (read.toList.flatMap Branch.parts ++ otherwise.toList))
    (closes : Bool) :
    Yields z r (Past z (z.start start) m)
      (do
        if closes then discard (expectKeyword .endWord)
        return .done ⟨.conditional read.toList otherwise isBlock, start.cover (← previous)⟩)
      (turnOf Q (Gives z (Admits r) one (z.start start))) := by
  have hdone : Yields z r (Past z (z.start start) m)
      (previous >>= fun last => pure (.done ⟨.conditional read.toList otherwise isBlock, start.cover last⟩))
      (turnOf Q (Gives z (Admits r) one (z.start start))) := by
    refine previous_bind fun last hlast hlo hstop => .pure fun s hs => ⟨_, .of_node ?_ ?_, hs⟩
    · exact hheld.close hstart hlast hlo hstop (Nat.le_trans hle hstop) fun n hn => hn
    · exact .plain rfl trivial hheld.form
  cases closes with
  | true => exact expectKeyword_spots.skip hdone
  | false => exact hdone

theorem lastBranch_since (hg : g.Forms)
    (hheld : Held z (Admits r) (z.start start) m (read.toList.flatMap Branch.parts)) :
    Yields z r (Past z (z.start start) m) (lastBranch g start read)
      (turnOf Q (Gives z (Admits r) one (z.start start))) := by
  unfold lastBranch
  refine .bind (.discard eat_past) fun _ => ?_
  refine (blockOrStatement_reads hg).bind hheld ?_
  rintro ⟨otherwise, isBlock⟩ m' hm hheld'
  exact conditional_close hstart (Nat.le_trans hle hm) (some otherwise) hheld' isBlock

theorem otherBranches_since (hg : g.Forms) (x : Array (Branch Node) × Bool)
    (hheld : Held z (Admits r) (z.start start) m (branchNodes x)) :
    Yields z r (Past z (z.start start) m) (otherBranches g start x)
      (turnOf (Since z (z.start start) (z.stop start) fun m x =>
        Held z (Admits r) (z.start start) m (branchNodes x)) (Gives z (Admits r) one (z.start start))) := by
  obtain ⟨read, lastIsBlock⟩ := x
  rw [otherBranches_eq]
  intro s hs
  have hnext : Yields z r (Past z (z.start start) m) (nextBranch g start read lastIsBlock s)
      (turnOf (Since z (z.start start) (z.stop start) fun m x =>
        Held z (Admits r) (z.start start) m (branchNodes x)) (Gives z (Admits r) one (z.start start))) := by
    refine eatKeyword_bind ?_ (eatKeyword_bind (lastBranch_since hstart hle hg hheld) ?_)
    · refine (branch_reads hg).bind hheld ?_
      rintro ⟨next, isBlock⟩ m' hm hheld'
      refine .pure fun t ht => ⟨m', Nat.le_trans hle hm, hheld'.subset fun n hn => ?_, ht⟩
      simpa [branchNodes] using hn
    · -- the state before the line breaks comes back
      exact fun _ _ => conditional_close hstart hle none
        (hheld.subset fun n hn => by simpa using hn) lastIsBlock s hs
  cases lastIsBlock with
  | true => exact hnext s hs
  | false => exact hnext _ hs.skipNewlines

end

theorem conditional_takes (hg : g.Forms) : Takes one (conditional g) := by
  refine takes_advance fun z r first hfirst => ?_
  refine (branch_reads hg).bind (.nil hfirst.order) ?_
  rintro ⟨branch, isBlock⟩ m hm hheld
  refine (Yields.loop (S := Since z (z.start first.span) (z.stop first.span) fun m x =>
    Held z (Admits r) (z.start first.span) m (branchNodes x)) ?_ (#[branch], isBlock)).pre
      fun s hs => ⟨m, hm, ?_, hs⟩
  · rintro x s ⟨m, hm, hheld, hs⟩
    exact otherBranches_since hfirst hm hg x hheld s hs
  · simpa [branchNodes] using hheld

end Conditional

section Loops

variable (hg : g.Forms)

include hg

theorem countingLoop_takes : Takes one (countingLoop g) := by
  unfold countingLoop
  dsimp only
  refine takes_advance fun z r first hfirst => ?_
  refine .bind expectIdentifier_spots.past ?_
  rintro ⟨name, _⟩
  refine eat_option hg.expression (.nil hfirst.order) fun start m hm hstart => ?_
  refine expectKeyword_spots.skip (hg.expression.bind hstart fun stop m' hm' hstop => ?_)
  refine eatKeyword_option hg.expression hstop fun step m'' hm'' hstep => expect_spots.skip ?_
  refine (body_reads hg).bind hstep ?_
  rintro ⟨body, discarded⟩ last hlast hheld
  exact close_node hheld hfirst (by omega) (fun _ => id) fun _ => .plain rfl trivial

theorem eachLoop_takes : Takes one (eachLoop g) := by
  unfold eachLoop
  dsimp only
  refine takes_advance fun z r first hfirst => ?_
  refine hg.expression.bind (.nil hfirst.order) fun items m hm hitems => expectKeyword_spots.skip ?_
  refine .bind expectIdentifier_spots.past ?_
  rintro ⟨name, _⟩
  refine eat_optional (.map expectIdentifier_spots.past) fun second => expect_spots.skip ?_
  refine (body_reads hg).bind hitems ?_
  rintro ⟨body, discarded⟩ m' hm' hheld
  exact close_node hheld hfirst (by omega) (fun _ => id) fun _ => .plain rfl trivial

theorem whileLoop_takes : Takes one (whileLoop g) := by
  refine takes_advance fun z r first hfirst => ?_
  refine hg.expression.bind (.nil hfirst.order) fun condition m hm hcondition => ?_
  refine expect_spots.skip ((body_reads hg).bind hcondition ?_)
  rintro ⟨body, discarded⟩ m' hm' hheld
  exact close_node hheld hfirst (by omega) (fun _ => id) fun _ => .plain rfl trivial

end Loops

section Switch

variable {subject : Node}

def switchNodes (subject : Node) (read : SwitchBranches) : List Node :=
  subject :: (read.1.toList.flatMap (fun c => [c.1, c.2]) ++ read.2.toList)

theorem switchBranch_since (hg : g.Forms) {least : Nat} (x : SwitchBranches) (hle : least ≤ m)
    (hheld : Held z (Admits r) lo m (switchNodes subject x)) :
    Yields z r (Past z lo m) (switchBranch g subject x)
      (turnOf (Since z lo least fun m x => Held z (Admits r) lo m (switchNodes subject x))
        (Since z lo least fun m x => Held z (Admits r) lo m (switchNodes subject x))) := by
  obtain ⟨cases, otherwise⟩ := x
  unfold switchBranch
  dsimp only
  have hfault {c : Prop} [Decidable c] {cause : SyntaxCause} {p : Parser (Turn SwitchBranches SwitchBranches)}
      {Q : Turn SwitchBranches SwitchBranches → ParseState → Prop}
      (h : Yields z r (Past z lo m) p Q) :
      Yields z r (Past z lo m) (if c then previous >>= fun span => fault cause span >>=
          fun (_ : Unit) => p else p) Q :=
    .ite (fun _ => previous_bind fun span hspan _ _ => .fault_bind hspan) fun _ => h
  refine eatKeyword_bind ?_ (eatKeyword_bind ?_ ?_)
  · refine hfault (hg.expression.bind hheld fun value m' hm' hvalue => expect_spots.skip ?_)
    refine (block_reads hg).bind hvalue fun body m'' hm'' hbody => .pure fun s hs => ?_
    have hsubject : subject ∈ switchNodes subject (cases, otherwise) ++ one value ++ one body := by
      simp [switchNodes]
    have hvalue : value ∈ switchNodes subject (cases, otherwise) ++ one value ++ one body := by simp
    have hall := hbody.cons (binary_between .equal (hbody.lies subject hsubject) (hbody.lies value hvalue))
      (binary_admitted .equal (hbody.form subject hsubject) (hbody.form value hvalue))
    refine ⟨m'', by omega, hall.subset fun n hn => ?_, hs⟩
    simp only [switchNodes, Array.toList_push, List.flatMap_append, List.mem_cons, List.mem_append,
      List.flatMap_singleton, List.not_mem_nil, or_false] at hn ⊢
    tauto
  · refine hfault (expect_spots.skip ?_)
    refine (block_reads hg).bind hheld fun body m' hm' hbody => .pure fun s hs => ?_
    refine ⟨m', by omega, hbody.subset fun n hn => ?_, hs⟩
    simp only [switchNodes, List.mem_cons, List.mem_append, Option.toList_some, List.not_mem_nil,
      or_false] at hn ⊢
    tauto
  · exact .pure fun s hs => ⟨m, hle, hheld, hs⟩

theorem switch_takes (hg : g.Forms) : Takes one (switch g) := by
  unfold switch
  dsimp only
  refine takes_advance fun z r first hfirst => ?_
  refine hg.expression.bind (.nil hfirst.order) fun subject m hm hsubject => expect_spots.skip ?_
  refine atNewline_any fun line => .ite (fun _ => ?_) fun _ => skipNewlines_past ?_
  · exact unexpected_bind fun _ hs => hs.sound.current
  refine since_bind (loop_since (fun x _ => switchBranch_since hg x) hm hsubject) ?_
  rintro ⟨cases, otherwise⟩ m' hm' hheld
  refine expectKeyword_spots.skip (close_node hheld hfirst hm' (fun n hn => ?_) fun _ => .plain rfl trivial)
  exact List.mem_cons_of_mem _ hn

end Switch

end ScriptLang.Form
