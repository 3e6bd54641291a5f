import ScriptLang.Proofs.Form.Atom

/-! Expressions, their form and where they stand. -/
namespace ScriptLang.Form

open ScriptLang.Parser

variable {z : Zone} {r : Surroundings} {p : Place} {s : ParseState} {lo m k : Nat} {g : Grammar}
  {node left right : Node}

section Operator

/-- A node around an operand to which nothing can be assigned, and which is admitted if the operand is. -/
theorem operand_of {q : Place} (h : node.Operand q s) {shape : Shape Node} {span : Span}
    (hadmitted : node.Admitted q → Node.Admitted p ⟨shape, span⟩)
    (hfixed : ∀ value, Node.written? ⟨shape, span⟩ value = none) : Node.Operand p ⟨shape, span⟩ s := by
  cases h with
  | admitted h => exact .admitted (hadmitted h)
  | brackets _ _ atEqual => exact .fixed hfixed atEqual
  | fixed _ atEqual => exact .fixed hfixed atEqual

theorem operand_deeper (room : p.depth < maxNesting) (h : node.Operand p.deeper s) : node.Operand p s := by
  cases h with
  | admitted h => exact .admitted (.deeper room h)
  | brackets shape inner atEqual => exact .brackets shape (.deeper room inner) atEqual
  | fixed h atEqual => exact .fixed h atEqual

theorem binary_operand (op : BinaryOp) (hleft : left.Admitted p) (hright : right.Operand p s) :
    (Node.binary op left right).Operand p s :=
  operand_of hright (binary_admitted op hleft) fun _ => rfl

/-- A sign takes one level of the nesting. -/
theorem sign_admitted {op : UnaryOp} {span : Span} (hop : op ≠ .not) (room : p.depth < maxNesting)
    (hnode : node.Admitted p.deeper) : Node.Admitted p ⟨.unary op node, span⟩ := by
  apply Node.Admitted.layer
  · trivial
  · simp [Shape.isSuperCall]
  · exact fun _ => room
  · intro role part hpart
    obtain ⟨rfl, rfl⟩ : role = .own ∧ part = node := by simpa [Shape.roles, Shape.parts] using hpart
    have hplace : p.part (.unary op part) .own = p.deeper := by
      simp [Place.part, Shape.isSign, hop, Place.inside, Role.inConstructor]
    rwa [hplace]

theorem binary_offered (op : BinaryOp) (hleft : Held z (Admits r) lo m [left])
    (hright : Offered z r m right s) : Offered z r lo (.binary op left right) s := by
  obtain ⟨m', hheld, hpast⟩ := hright
  refine ⟨m', .of_node ?_ (binary_operand op hleft.only hheld.only), hpast.lower hleft.le⟩
  exact binary_between op (hleft.grow hheld.le).node (hheld.lower hleft.le).node

theorem Offers.nested {p : Parser Node} (hp : Offers p) : Offers (nested p) := by
  intro z r k
  refine .nested (fun room => (hp z _ k).post fun n s hs => ?_) fun _ hs => hs.sound.current
  obtain ⟨m, hheld, hpast⟩ := hs
  exact ⟨m, hheld.mono fun _ _ => operand_deeper (p := r.place) room, hpast⟩

/-- An operator in front of an operand, if the two together can be an operand. -/
private theorem unary_offers {p : Parser Node} {op : UnaryOp}
    (hp : ∀ k, Yields z r (Ahead z k) p fun n s =>
      Gives z (fun n => ∀ span, Node.Operand r.place ⟨.unary op n, span⟩ s) one k n s) :
    Yields z r (Inside (Ahead z k)) (advance >>= fun first => p >>= fun operand =>
      pure ⟨.unary op operand, first.span.cover operand.span⟩) (Offered z r k) := by
  refine advance_bind fun first hfirst hk => .bind (of_ahead (hp _)) fun operand => .pure ?_
  rintro s ⟨m, hheld, hpast⟩
  refine Gives.lower ⟨m, ?_, hpast.lower hfirst.order⟩ hk
  exact lead_node hfirst hheld.le (hheld.lower hfirst.order) (fun n hn => List.mem_singleton.mp hn)
    fun span h => h operand (List.mem_singleton_self operand) span

end Operator

section Level

variable {operand : Parser Node} {op? : TokenKind Token → Option LevelOp}

private theorem isEnd_of_means (h : Judges op?) {kd : TokenKind Token} {means : LevelOp}
    (hmeans : op? kd = some means) : kd.isEnd = false := by
  cases kd with
  | endOfInput =>
    rw [h.atEnd] at hmeans
    cases hmeans
  | _ => rfl

variable (hg : g.Forms) (hop : Judges op?) (hequal : op? (.symbol .equal) = none) (hoperand : Offers operand)

include hg hop hequal hoperand

theorem nextOperand_offers (left : Node) :
    Yields z r (Offered z r lo left) (nextOperand g operand op? left) (turnOf (Offered z r lo) (Offered z r lo)) := by
  refine kind_bind fun kd => ?_
  cases hmeans : op? kd with
  | none => exact .pure fun _ hs => hs.1
  | some means =>
    have hkd : kd ≠ .symbol .equal := by
      rintro rfl
      rw [hequal] at hmeans
      cases hmeans
    refine of_offered hkd fun m hleft => ?_
    cases means with
    | binary op =>
      refine at_inside (advance_skip ?_) (isEnd_of_means hop hmeans)
      exact .bind (of_ahead (hoperand z r m)) fun right => .pure fun s => binary_offered op hleft
    | compound op =>
      refine at_inside ?_ (isEnd_of_means hop hmeans)
      exact .bind (compound_gives hg op hleft) fun node => .pure fun _ => offered_of
    | increments =>
      refine .bind (increments_spots.pre fun s hs => ⟨hs.1.ahead, hs.2 ▸ hop.increments hmeans⟩) ?_
      rintro ⟨delta, span⟩
      refine .given fun hspan => .given fun hstart => ?_
      have hlo : lo ≤ z.start span := Nat.le_trans hleft.le hstart
      have htarget := (hleft.grow (Nat.le_trans hstart hspan.order)).node
      refine .bind ((increment_offers htarget delta hspan hlo (Nat.le_refl _)).pre fun s hs => ?_)
        fun node => .pure fun _ => id
      exact ⟨hs.lower hlo, .admitted hleft.only⟩

theorem level_offers : Offers (level g operand op?) := fun z r k =>
  .bind (hoperand z r k) fun left => Yields.loop (nextOperand_offers hg hop hequal hoperand) left

end Level

section Expression

variable (hg : g.Forms)

include hg

private theorem signs_offers :
    Yields z r (fun s => Ahead z k s ∧ IsIncrement s.stream.current.kind)
      (increments >>= fun run => chain g >>= fun node => increment node run.1 run.2) (Offered z r k) := by
  refine .bind increments_spots ?_
  rintro ⟨delta, span⟩
  refine .given fun hspan => .given fun hk => .bind (of_ahead (chain_offers hg z r _)) fun node s hs => ?_
  obtain ⟨m, hheld, hpast⟩ := hs
  have hnode := (hheld.lower hspan.order).node
  refine ((increment_offers hnode delta hspan (Nat.le_refl _) hheld.le).post fun node s hs => ?_) s
    ⟨hpast.lower hspan.order, hheld.only⟩
  exact Gives.lower hs hk

omit hg in
theorem unaryOp?_ne {kd : TokenKind Token} {op : UnaryOp} (h : unaryOp? kd = some op) : op ≠ .not := by
  unfold unaryOp? at h
  split at h <;> cases h <;> simp

theorem factor_offers : Offers (factor g) := by
  intro z r k
  refine kind_bind fun kd => ?_
  cases hop : unaryOp? kd with
  | some op =>
    have hkd : kd.isEnd = false := by
      cases kd <;> first | rfl | cases hop
    refine at_inside (unary_offers fun k => ?_) hkd
    refine .nested (fun room => (hg.factor z _ k).post fun n s hs => ?_) fun _ hs => hs.sound.current
    obtain ⟨m, hheld, hpast⟩ := hs
    refine ⟨m, hheld.mono fun n _ hform span => ?_, hpast⟩
    exact operand_of hform (sign_admitted (p := r.place) (unaryOp?_ne hop) room) fun _ => rfl
  | none =>
    refine of_at (kind_bind fun kd => ?_)
    have hchain := chain_offers hg z r k
    cases kd with
    | symbol sign =>
      cases sign with
      | plusPlus => exact (signs_offers hg).pre fun _ hs => ⟨hs.1, .inl hs.2⟩
      | minusMinus => exact (signs_offers hg).pre fun _ hs => ⟨hs.1, .inr hs.2⟩
      | _ => exact of_at hchain
    | _ => exact of_at hchain

theorem power_offers : Offers (power g) := by
  intro z r k
  refine .bind (factor_offers hg z r k) fun base => kind_bind fun kd => ?_
  have hdone {kd : TokenKind Token} : Yields z r (At (Offered z r k base) kd) (pure base)
      (Offered z r k) := .pure fun s hs => hs.1
  have hpower {sign : Symbol} (hsign : sign ≠ .equal) : Yields z r (At (Offered z r k base) (.symbol sign))
      (discard advance >>= fun _ => nested g.power >>= fun right => pure (.binary .power base right))
      (Offered z r k) := by
    refine of_offered (by simpa) fun m hbase => at_inside (advance_skip ?_) rfl
    exact .bind (of_ahead (hg.power.nested z r m)) fun right => .pure fun s => binary_offered .power hbase
  cases kd with
  | symbol sign =>
    cases sign with
    | starStar | caret => exact hpower (by simp)
    | _ => exact hdone
  | _ => exact hdone

theorem bitwise_offers : Offers (bitwise g) := by
  have hterm : Offers (term g) := level_offers hg termOp_judges rfl (power_offers hg)
  exact level_offers hg bitwiseOp_judges rfl (level_offers hg sumOp_judges rfl hterm)

theorem comparison_offers : Offers (comparison g) := by
  intro z r k
  refine kind_bind fun kd => ?_
  have hlevel := level_offers hg comparisonOp_judges rfl (bitwise_offers hg) z r k
  have hnot : Yields z r (Inside (Ahead z k)) (advance >>= fun first => g.comparison >>= fun operand =>
      pure ⟨.unary .not operand, first.span.cover operand.span⟩) (Offered z r k) := by
    refine unary_offers fun k => (hg.comparison z r k).post fun n s ⟨m, hheld, hpast⟩ => ?_
    refine ⟨m, hheld.mono fun n _ hform span => operand_of hform (fun h => ?_) fun _ => rfl, hpast⟩
    exact .plain rfl trivial (by simpa [Shape.parts] using h)
  cases kd with
  | keyword word =>
    cases word with
    | notWord => exact at_inside hnot rfl
    | _ => exact of_at hlevel
  | symbol sign =>
    cases sign with
    | bang => exact at_inside hnot rfl
    | _ => exact of_at hlevel
  | _ => exact of_at hlevel

theorem definition_takes {what : String} (shape : String → Node → Shape Node)
    (hplain : ∀ name value, (shape name value).isPlain = true)
    (hform : ∀ name value, (shape name value).WellFormed)
    (hparts : ∀ name value, (shape name value).parts = [value]) :
    Takes one (advance >>= fun first => expectIdentifier what >>= fun name =>
      discard (expect .equal "'='") >>= fun _ => g.expression >>= fun value =>
        pure ⟨shape name.1 value, first.span.cover value.span⟩) := by
  refine takes_advance fun z r first hfirst => ?_
  refine .bind expectIdentifier_spots.past fun name => expect_spots.skip ?_
  refine hg.expression.bind (.nil hfirst.order) fun value m hm hheld => .pure fun s hs => ⟨m, ?_, hs⟩
  exact lead_node hfirst hm hheld (by simp [hparts]) fun _ => .plain (hplain _ _) (hform _ _)

theorem expression_reads : Reads one (expression g) := by
  refine Reads.nested fun z r k => atKeyword_bind ?_ ?_
  · exact definition_takes hg .declare (fun _ _ => rfl) (fun _ _ => trivial) (fun _ _ => rfl) z r k
  refine .bind (level_offers hg conditionOp_judges rfl (comparison_offers hg) z r k) fun node => ?_
  refine eat_offered (fun m s hnode => ?_) fun m hnode => .pure fun s hs => ⟨m, hnode, hs⟩
  refine gives_bind (of_ahead (hg.expression z r m)) fun value m' hvalue => ?_
  refine (assign_gives (hnode.grow hvalue.le).node (assignable_of_operand hnode.only)
    (hvalue.lower hnode.le).node hvalue.only).pre fun s hs => hs.lower hnode.le

end Expression

end ScriptLang.Form
