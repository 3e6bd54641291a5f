import ScriptLang.Proofs.Form.Extent
import ScriptLang.Proofs.Grammar.Run

/-! Rules for what parsers give: where it stands, and what form it has.

The form of a result may depend on how deep the place is nested and on whether it belongs to a
constructor, so each statement is about one reading of the surroundings, which `nested` and
`inConstructor` change. -/
namespace ScriptLang.Form

open ScriptLang.Parser

/-- From a state that satisfies `P`, a result of `p` in the surroundings `r` and the state behind it
satisfy `Q`, and a fault is shown at a stretch of the text. -/
def Yields {α : Type} (z : Zone) (r : Surroundings) (P : ParseState → Prop) (p : Parser α)
    (Q : α → ParseState → Prop) : Prop :=
  ∀ s, P s → (∀ a t, p r s = .ok (a, t) → Q a t) ∧ ∀ e, p r s = .error (.fault e) → z.Genuine e.span

/-- What is said of a turn, by what is said of it when it goes on and when it is the last. -/
def turnOf {α β : Type} (next : β → ParseState → Prop) (done : α → ParseState → Prop) :
    Turn β α → ParseState → Prop
  | .next x => next x
  | .done a => done a

namespace Yields

variable {α β : Type} {z : Zone} {r : Surroundings} {p : Parser α} {f : α → Parser β}
  {P P' : ParseState → Prop} {Q Q' : α → ParseState → Prop} {U : β → ParseState → Prop}
  {cause : SyntaxCause} {turn : β → Parser (Turn β α)} {span : Span} {S : β → ParseState → Prop} {c : Prop}

theorem pure {a : α} (h : ∀ s, P s → Q a s) : Yields z r P (pure a) Q := by
  intro s hs
  refine ⟨?_, nofun⟩
  rintro _ _ ⟨⟩
  exact h s hs

theorem bind (hp : Yields z r P p Q) (hf : ∀ a, Yields z r (Q a) (f a) U) : Yields z r P (p >>= f) U := by
  intro s hs
  obtain ⟨hok, hfault⟩ := hp s hs
  rw [bind_apply]
  cases hrun : p r s with
  | error stop =>
    refine ⟨nofun, ?_⟩
    rintro e ⟨⟩
    exact hfault e hrun
  | ok result => exact hf result.1 result.2 (hok _ _ hrun)

theorem pre (hp : Yields z r P p Q) (hP : ∀ s, P' s → P s) : Yields z r P' p Q :=
  fun s hs => hp s (hP s hs)

theorem post (hp : Yields z r P p Q) (hQ : ∀ a t, Q a t → Q' a t) : Yields z r P p Q' := fun s hs =>
  ⟨fun a t h => hQ a t ((hp s hs).1 a t h), (hp s hs).2⟩

/-- What is known before a run and does not depend on the state is a hypothesis. -/
theorem given (h : c → Yields z r P p Q) : Yields z r (fun s => c ∧ P s) p Q :=
  fun s hs => h hs.1 s hs.2

theorem ite [Decidable c] {q : Parser α} (yes : c → Yields z r P p Q)
    (no : ¬c → Yields z r P q Q) : Yields z r P (if c then p else q) Q := by
  split
  next h => exact yes h
  next h => exact no h

theorem discard {V : ParseState → Prop} (hp : Yields z r P p fun _ => V) : Yields z r P (discard p) fun _ => V :=
  bind hp fun _ => pure fun _ => id

theorem map {h : α → β} (hp : Yields z r P p fun a => U (h a)) : Yields z r P (h <$> p) U :=
  bind hp fun _ => pure fun _ => id

theorem fault (h : z.Genuine span) : Yields z r P (Parser.fault cause span : Parser α) Q := by
  intro s _
  refine ⟨nofun, ?_⟩
  rintro e ⟨⟩
  exact h

theorem fault_bind {k : α → Parser β} (h : z.Genuine span) : Yields z r P (Parser.fault cause span >>= k) U :=
  bind (Q := fun _ _ => False) (fault h) fun _ _ => False.elim

theorem guard [Decidable c] {k : Unit → Parser α} (hspan : z.Genuine span) (h : ¬c → Yields z r P p Q) :
    Yields z r P (if c then Parser.fault cause span >>= k else p) Q :=
  ite (fun _ => fault_bind hspan) h

theorem inConstructor {flag : Bool} (h : Yields z { r with inConstructor := flag } P p Q) :
    Yields z r P (inConstructor flag p) Q := h

/-- Where something was read one level deeper there was room for the level. -/
theorem nested (h : r.depth < maxNesting → Yields z { r with depth := r.depth + 1 } P p Q)
    (hdeep : ∀ s, P s → z.Genuine s.stream.current.span) : Yields z r P (nested p) Q := by
  intro s hs
  rw [nested_apply]
  split
  next room => exact h room s hs
  next =>
    refine ⟨nofun, ?_⟩
    rintro e ⟨⟩
    exact hdeep s hs

theorem iterate (h : ∀ x, Yields z r (S x) (turn x) (turnOf S Q)) (turns : Nat) (x : β) :
    Yields z r (S x) (iterate turn turns x) Q := by
  induction turns generalizing x with
  | zero => exact fun _ _ => ⟨nofun, nofun⟩
  | succ turns ih =>
    refine bind (h x) fun next => ?_
    cases next with
    | next x => exact ih x
    | done a => exact pure fun _ => id

theorem loop (h : ∀ x, Yields z r (S x) (turn x) (turnOf S Q)) (x : β) : Yields z r (S x) (loop turn x) Q :=
  iterate h r.turns x

theorem mapM {R : β → Prop} {xs : List α} (h : ∀ x ∈ xs, Yields z r P (f x) fun b s => R b ∧ P s) :
    Yields z r P (xs.mapM f) fun bs s => (∀ b ∈ bs, R b) ∧ P s := by
  induction xs with
  | nil =>
    rw [List.mapM_nil]
    exact pure fun _ hs => ⟨nofun, hs⟩
  | cons x xs ih =>
    rw [List.mapM_cons]
    refine bind (h x (List.mem_cons_self ..)) fun b => given fun hb => ?_
    refine bind (ih fun y hy => h y (List.mem_cons_of_mem _ hy)) fun bs => given fun hbs => ?_
    exact pure fun _ hs => ⟨List.forall_mem_cons.mpr ⟨hb, hbs⟩, hs⟩

end Yields

/-- Nodes that stand between two places and have some form. -/
structure Held (z : Zone) (C : Node → Prop) (lo m : Nat) (nodes : List Node) : Prop where
  le : lo ≤ m
  lies : ∀ n ∈ nodes, n.Between z lo m
  form : ∀ n ∈ nodes, C n

namespace Held

variable {z : Zone} {C D : Node → Prop} {lo m m' : Nat} {nodes nodes' : List Node} {n : Node}

theorem nil (h : lo ≤ m) : Held z C lo m [] := ⟨h, by simp, by simp⟩

section

variable (h : Held z C lo m nodes)

include h

theorem mono (hC : ∀ n ∈ nodes, C n → D n) : Held z D lo m nodes :=
  ⟨h.le, h.lies, fun n hn => hC n hn (h.form n hn)⟩

theorem any : Held z (fun _ => True) lo m nodes := h.mono fun _ _ _ => trivial

theorem subset (hsub : ∀ n ∈ nodes', n ∈ nodes) : Held z C lo m nodes' :=
  ⟨h.le, fun n hn => h.lies n (hsub n hn), fun n hn => h.form n (hsub n hn)⟩

theorem grow (hm : m ≤ m') : Held z C lo m' nodes :=
  ⟨Nat.le_trans h.le hm, fun n hn => (h.lies n hn).widen (Nat.le_refl _) hm, h.form⟩

theorem lower {lo' : Nat} (hlo : lo' ≤ lo) : Held z C lo' m nodes :=
  ⟨Nat.le_trans hlo h.le, fun n hn => (h.lies n hn).widen hlo (Nat.le_refl _), h.form⟩

theorem append (h' : Held z C m m' nodes') : Held z C lo m' (nodes ++ nodes') :=
  ⟨Nat.le_trans h.le h'.le, List.forall_mem_append.mpr ⟨(h.grow h'.le).lies, (h'.lower h.le).lies⟩,
    List.forall_mem_append.mpr ⟨h.form, h'.form⟩⟩

theorem cons (hn : n.Between z lo m) (hform : C n) : Held z C lo m (n :: nodes) :=
  ⟨h.le, List.forall_mem_cons.mpr ⟨hn, h.lies⟩, List.forall_mem_cons.mpr ⟨hform, h.form⟩⟩

end

theorem node (h : Held z C lo m [n]) : n.Between z lo m :=
  h.lies n (List.mem_singleton_self n)

theorem only (h : Held z C lo m [n]) : C n := h.form n (List.mem_singleton_self n)

theorem parts (h : Held z C lo m [n]) : Held z (fun _ => True) lo m n.parts :=
  ⟨h.le, fun _ hp => (h.node.nested.part hp).widen h.node.start h.node.stop, fun _ _ => trivial⟩

theorem of_node (h : n.Between z lo m) (hform : C n) : Held z C lo m [n] := by
  have := h.nested.genuine.order
  have := h.start
  have := h.stop
  exact ⟨by omega, List.forall_mem_singleton.mpr h, List.forall_mem_singleton.mpr hform⟩

end Held

/-- The nodes that may stand where something is read. -/
abbrev Admits (r : Surroundings) (n : Node) : Prop := n.Admitted r.place

def Inside (P : ParseState → Prop) (s : ParseState) : Prop :=
  P s ∧ s.stream.current.kind.isEnd = false

def At (P : ParseState → Prop) (k : TokenKind Token) (s : ParseState) : Prop :=
  P s ∧ s.stream.current.kind = k

/-- What was read holds nodes that stand between `lo` and what was taken. -/
def Gives {α : Type} (z : Zone) (C : Node → Prop) (parts : α → List Node) (lo : Nat) (a : α)
    (t : ParseState) : Prop :=
  ∃ m, Held z C lo m (parts a) ∧ Past z lo m t

def Reads {α : Type} (parts : α → List Node) (p : Parser α) : Prop :=
  ∀ z r k, Yields z r (Ahead z k) p (Gives z (Admits r) parts k)

def Takes {α : Type} (parts : α → List Node) (p : Parser α) : Prop :=
  ∀ z r k, Yields z r (Inside (Ahead z k)) p (Gives z (Admits r) parts k)

abbrev one (n : Node) : List Node := [n]

/-- A node was read to which something may be assigned, if `=` is at hand. -/
def Offered (z : Zone) (r : Surroundings) (lo : Nat) (n : Node) (t : ParseState) : Prop :=
  Gives z (·.Operand r.place t) one lo n t

def Offers (p : Parser Node) : Prop := ∀ z r k, Yields z r (Ahead z k) p (Offered z r k)

def Spots {α : Type} (span : α → Span) (p : Parser α) : Prop :=
  ∀ z r k, Yields z r (Ahead z k) p fun a t => z.Genuine (span a) ∧ k ≤ z.start (span a) ∧
    Past z (z.start (span a)) (z.stop (span a)) t

variable {α β : Type} {z : Zone} {r : Surroundings} {C D : Node → Prop} {lo m k : Nat}
  {P : ParseState → Prop} {Q : β → ParseState → Prop} {nodes : List Node} {parts : α → List Node}
  {span : α → Span} {p : Parser α} {sign : Symbol} {word : Keyword} {what : String} {kd : TokenKind Token}

section State

theorem of_at {p : Parser β} (h : Yields z r P p Q) : Yields z r (At P kd) p Q :=
  h.pre fun _ hs => hs.1

theorem of_inside {p : Parser β} (h : Yields z r P p Q) : Yields z r (Inside P) p Q :=
  h.pre fun _ hs => hs.1

theorem at_inside {p : Parser β} (h : Yields z r (Inside P) p Q) (hkd : kd.isEnd = false) : Yields z r (At P kd) p Q :=
  h.pre fun _ hs => ⟨hs.1, hs.2 ▸ hkd⟩

theorem of_ahead {p : Parser β} (h : Yields z r (Ahead z m) p Q) : Yields z r (Past z lo m) p Q :=
  h.pre fun _ hs => hs.ahead

/-- Where another sign than `=` is at hand, what was read is admitted. -/
theorem of_offered {p : Parser β} {node : Node} (hkd : kd ≠ .symbol .equal)
    (h : ∀ m, Held z (Admits r) lo m [node] → Yields z r (At (Past z lo m) kd) p Q) :
    Yields z r (At (Offered z r lo node) kd) p Q := by
  rintro s ⟨⟨m, hheld, hpast⟩, hkind⟩
  refine h m (hheld.mono fun n hn hform => ?_) s ⟨hpast, hkind⟩
  exact hform.admitted_of_ne (hkind ▸ hkd)

theorem offered_of {node : Node} {s : ParseState} (h : Gives z (Admits r) one lo node s) : Offered z r lo node s :=
  h.imp fun _ h => ⟨h.1.mono fun _ _ => .admitted, h.2⟩

end State

section Sequence

variable {f : α → Parser β}

theorem gives_bind (hp : Yields z r P p (Gives z C parts lo))
    (hf : ∀ a m, Held z C lo m (parts a) → Yields z r (Past z lo m) (f a) Q) : Yields z r P (p >>= f) Q := by
  refine .bind hp fun a s hs => ?_
  obtain ⟨m, hheld, hpast⟩ := hs
  exact hf a m hheld s hpast

theorem Reads.bind_ahead (hp : Reads parts p)
    (hf : ∀ a m, Held z (Admits r) k m (parts a) → Yields z r (Past z k m) (f a) Q) :
    Yields z r (Ahead z k) (p >>= f) Q :=
  gives_bind (hp z r k) hf

/-- The nodes that are there already stand before those that are read next. -/
theorem gives_append (hp : Yields z r P p (Gives z C parts m)) (hheld : Held z C lo m nodes)
    (hf : ∀ a m', m ≤ m' → Held z C lo m' (nodes ++ parts a) → Yields z r (Past z lo m') (f a) Q) :
    Yields z r P (p >>= f) Q := by
  refine gives_bind hp fun a m' h => (hf a m' h.le (hheld.append h)).pre fun s hs => ?_
  exact hs.lower hheld.le

theorem Reads.bind (hp : Reads parts p) (hheld : Held z (Admits r) lo m nodes)
    (hf : ∀ a m', m ≤ m' → Held z (Admits r) lo m' (nodes ++ parts a) → Yields z r (Past z lo m') (f a) Q) :
    Yields z r (Past z lo m) (p >>= f) Q :=
  gives_append (of_ahead (hp z r m)) hheld hf

variable (hp : Spots span p)

include hp

theorem Spots.bind_ahead
    (hf : ∀ a, z.Genuine (span a) → k ≤ z.start (span a) →
      Yields z r (Past z (z.start (span a)) (z.stop (span a))) (f a) Q) :
    Yields z r (Ahead z k) (p >>= f) Q := by
  refine .bind (hp z r k) fun a => ?_
  exact .given fun hgenuine => .given fun hstart => hf a hgenuine hstart

theorem Spots.bind
    (hf : ∀ a, z.Genuine (span a) → m ≤ z.start (span a) → Yields z r (Past z lo (z.stop (span a))) (f a) Q) :
    Yields z r (Past z lo m) (p >>= f) Q := by
  intro s hs
  refine (hp.bind_ahead fun a hgenuine hstart => (hf a hgenuine hstart).pre fun t ht => ?_) s hs.ahead
  exact ht.lower (Nat.le_trans hs.le hstart)

theorem Spots.past : Yields z r (Past z lo m) p fun _ => Past z lo m := by
  intro s hs
  rw [← bind_pure p]
  refine (hp.bind fun a hgenuine hstart => .pure fun t ht => ?_) s hs
  exact ht.weaken (Nat.le_refl _) (Nat.le_trans hstart hgenuine.order) hs.le

theorem Spots.skip {f : Unit → Parser β} (hf : Yields z r (Past z lo m) (f ()) Q) :
    Yields z r (Past z lo m) (discard p >>= f) Q :=
  .bind (.discard hp.past) fun _ => hf

theorem Spots.skip_ahead {f : Unit → Parser β} (hf : Yields z r (Past z k k) (f ()) Q) :
    Yields z r (Ahead z k) (discard p >>= f) Q := by
  refine .bind (.discard ((hp z r k).post fun a s hs => ?_)) fun _ => hf
  obtain ⟨hgenuine, hle, hpast⟩ := hs
  exact hpast.weaken hle (Nat.le_trans hle hgenuine.order) (Nat.le_refl _)

end Sequence

theorem Reads.nested {p : Parser Node} (hp : Reads one p) : Reads one (nested p) := by
  intro z r k
  refine .nested (fun room => (hp z _ k).post fun n s hs => ?_) fun _ hs => hs.sound.current
  obtain ⟨m, hheld, hpast⟩ := hs
  exact ⟨m, hheld.mono fun n _ hform => Node.Admitted.deeper (p := r.place) room hform, hpast⟩

section Primitive

variable {f : Span → Parser β}

theorem unexpected {Q : α → ParseState → Prop} (h : ∀ s, P s → z.Genuine s.stream.current.span) :
    Yields z r P (Parser.unexpected what) Q := by
  intro s hs
  refine ⟨nofun, ?_⟩
  rintro e ⟨⟩
  exact h s hs

theorem unexpected_bind {f : α → Parser β} (h : ∀ s, P s → z.Genuine s.stream.current.span) :
    Yields z r P (Parser.unexpected what >>= f) Q :=
  .bind (Q := fun _ _ => False) (unexpected h) fun _ _ => False.elim

theorem kind_bind {f : TokenKind Token → Parser β} (h : ∀ kd, Yields z r (At P kd) (f kd) Q) :
    Yields z r P (kind >>= f) Q :=
  fun s hs => h _ s ⟨hs, rfl⟩

theorem here_ahead (h : ∀ span, z.Genuine span → k ≤ z.start span → Yields z r (Ahead z (z.start span)) (f span) Q) :
    Yields z r (Ahead z k) (here >>= f) Q :=
  fun s hs => h _ hs.sound.current hs.here s ⟨hs.sound, Nat.le_refl _⟩

/-- Where the token at hand stands is looked up for a fault only. -/
theorem here_any (hP : ∀ s, P s → z.Genuine s.stream.current.span)
    (h : ∀ span, z.Genuine span → Yields z r P (f span) Q) : Yields z r P (here >>= f) Q :=
  fun s hs => h _ (hP s hs) s hs

theorem previous_bind
    (h : ∀ span, z.Genuine span → lo ≤ z.start span → m ≤ z.stop span →
      Yields z r (Past z lo (z.stop span)) (f span) Q) :
    Yields z r (Past z lo m) (previous >>= f) Q := by
  intro s hs
  refine h _ hs.sound.previous hs.start hs.stop s ⟨hs.sound, ?_, hs.start, Nat.le_refl _, hs.tight⟩
  exact Nat.le_trans hs.le hs.stop

theorem skipNewlines_ahead {f : Unit → Parser β} (h : Yields z r (Ahead z k) (f ()) Q) :
    Yields z r (Ahead z k) (skipNewlines >>= f) Q :=
  fun _ hs => h _ hs.skipNewlines

theorem skipNewlines_past {f : Unit → Parser β} (h : Yields z r (Past z lo m) (f ()) Q) :
    Yields z r (Past z lo m) (skipNewlines >>= f) Q :=
  fun _ hs => h _ hs.skipNewlines

theorem freshId_bind {f : Nat → Parser β} (h : ∀ id, Yields z r (Past z lo m) (f id) Q) :
    Yields z r (Past z lo m) (freshId >>= f) Q :=
  fun _ hs => h _ _ ⟨hs.sound, hs.le, hs.start, hs.stop, hs.tight⟩

theorem advance_at (hkd : kd.isEnd = false) {f : Token → Parser β}
    (h : ∀ t : Token, (∀ text ∈ z.text, t.Placed text) → t.kind = kd → z.Genuine t.span →
      k ≤ z.start t.span → Yields z r (Past z (z.start t.span) (z.stop t.span)) (f t) Q) :
    Yields z r (At (Ahead z k) kd) (advance >>= f) Q := by
  rintro s ⟨hs, hkind⟩
  have hplaced text ht := hs.sound.placed text ht s.stream.current (List.mem_cons_self ..)
  exact h _ hplaced hkind hs.sound.current hs.here _ (hs.advance (hkind ▸ hkd))

theorem advance_bind {f : Token → Parser β}
    (h : ∀ t : Token, z.Genuine t.span → k ≤ z.start t.span →
      Yields z r (Past z (z.start t.span) (z.stop t.span)) (f t) Q) :
    Yields z r (Inside (Ahead z k)) (advance >>= f) Q :=
  fun s hs => advance_at hs.2 (fun t _ _ => h t) s ⟨hs.1, rfl⟩

theorem advance_skip {f : Unit → Parser β} (h : Yields z r (Past z lo m) (f ()) Q) :
    Yields z r (Inside (Past z lo m)) (discard advance >>= f) Q := by
  have htake : Yields z r (Inside (Past z lo m)) advance fun _ => Past z lo m := by
    intro s hs
    rw [← bind_pure advance]
    refine advance_bind (fun t hgenuine hstart => .pure fun u hu => ?_) s ⟨hs.1.ahead, hs.2⟩
    exact hu.weaken (Nat.le_trans hs.1.le hstart) (Nat.le_trans hstart hgenuine.order) hs.1.le
  exact .bind (.discard htake) fun _ => h

end Primitive

section Begun

variable {start : Span}

/-- A part that begins at `start` is being read: the token there is at hand, or was taken. -/
def Begun (z : Zone) (start : Span) (s : ParseState) : Prop :=
  Past z (z.start start) (z.stop start) s ∨ s.stream.current.span = start ∧ Ahead z (z.start start) s

theorem Begun.ahead {s : ParseState} (h : Begun z start s) : Ahead z (z.start start) s := by
  rcases h with hpast | ⟨_, hahead⟩
  · exact hpast.ahead.weaken hpast.le
  · exact hahead

theorem begun_advance :
    Yields z r (Inside (Begun z start)) advance fun _ => Past z (z.start start) (z.stop start) := by
  rintro s ⟨hs, hend⟩
  refine ⟨?_, nofun⟩
  rintro _ _ ⟨⟩
  rcases hs with hpast | ⟨rfl, hahead⟩
  · have hnext := hpast.ahead.advance hend
    have hhere := hpast.ahead.here
    exact hnext.weaken (Nat.le_trans hpast.le hhere) (Nat.le_trans hhere hnext.le) hpast.le
  · exact hahead.advance hend

theorem begun_skip {f : Unit → Parser β} (h : Yields z r (Past z (z.start start) (z.stop start)) (f ()) Q) :
    Yields z r (Inside (Begun z start)) (discard advance >>= f) Q :=
  .bind (.discard begun_advance) fun _ => h

theorem here_begun {f : Span → Parser β}
    (h : ∀ span, z.Genuine span → k ≤ z.start span → Yields z r (Begun z span) (f span) Q) :
    Yields z r (Ahead z k) (here >>= f) Q :=
  fun s hs => h _ hs.sound.current hs.here s (.inr ⟨rfl, hs.sound, Nat.le_refl _⟩)

end Begun

section Test

variable {f : Bool → Parser β}

private theorem test_bind (test : TokenKind Token → Bool) (hend : test .endOfInput = false)
    (yes : Yields z r (Inside P) (f true) Q) (no : Yields z r P (f false) Q) :
    Yields z r P ((kind >>= fun kd => pure (test kd)) >>= f) Q := by
  rw [bind_assoc]
  refine kind_bind fun kd => ?_
  rw [pure_bind]
  cases htest : test kd with
  | false => exact of_at no
  | true =>
    refine at_inside yes ?_
    cases kd with
    | endOfInput =>
      rw [hend] at htest
      cases htest
    | _ => rfl

private theorem isSymbol_iff {kd : TokenKind Token} : kd.isSymbol sign = true ↔ kd = .symbol sign := by
  cases kd <;> simp [TokenKind.isSymbol]

/-- Where a sign was looked for it is at hand, or it is not. -/
theorem atSymbol_at (yes : Yields z r (At P (.symbol sign)) (f true) Q)
    (no : Yields z r (fun s => P s ∧ s.stream.current.kind ≠ .symbol sign) (f false) Q) :
    Yields z r P (atSymbol sign >>= f) Q := by
  intro s hs
  change (∀ b t, f (s.stream.current.kind.isSymbol sign) r s = .ok (b, t) → Q b t) ∧
    ∀ e, f (s.stream.current.kind.isSymbol sign) r s = .error (.fault e) → z.Genuine e.span
  cases htest : s.stream.current.kind.isSymbol sign with
  | true => exact yes s ⟨hs, isSymbol_iff.mp htest⟩
  | false => exact no s ⟨hs, fun h => by simp [isSymbol_iff.mpr h] at htest⟩

theorem atSymbol_bind (yes : Yields z r (Inside P) (f true) Q)
    (no : Yields z r P (f false) Q) : Yields z r P (atSymbol sign >>= f) Q :=
  atSymbol_at (at_inside yes rfl) (no.pre fun _ hs => hs.1)

theorem atSymbol_any (h : ∀ x, Yields z r P (f x) Q) : Yields z r P (atSymbol sign >>= f) Q :=
  atSymbol_bind (of_inside (h true)) (h false)

theorem atKeyword_bind (yes : Yields z r (Inside P) (f true) Q)
    (no : Yields z r P (f false) Q) : Yields z r P (atKeyword word >>= f) Q :=
  test_bind (·.isKeyword word) rfl yes no

theorem atKeyword_any (h : ∀ x, Yields z r P (f x) Q) : Yields z r P (atKeyword word >>= f) Q :=
  atKeyword_bind (of_inside (h true)) (h false)

theorem atNewline_bind (yes : Yields z r (Inside P) (f true) Q) (no : Yields z r P (f false) Q) :
    Yields z r P (atNewline >>= f) Q :=
  test_bind (·.isNewline) rfl yes no

theorem atNewline_any (h : ∀ x, Yields z r P (f x) Q) : Yields z r P (atNewline >>= f) Q :=
  atNewline_bind (of_inside (h true)) (h false)

theorem atBlockEnd_any (h : ∀ x, Yields z r P (f x) Q) : Yields z r P (atBlockEnd >>= f) Q := by
  unfold atBlockEnd
  rw [bind_assoc]
  refine kind_bind fun kd => ?_
  cases kd with
  | endOfInput => exact of_at (h true)
  | keyword word => exact of_at (h (endsBlock word))
  | _ => exact of_at (h false)

section

variable (yes : Yields z r (Past z lo m) (f true) Q)

include yes

private theorem take_bind : Yields z r (Inside (Past z lo m)) ((discard advance >>= fun _ => pure true) >>= f) Q := by
  rw [bind_assoc]
  exact advance_skip yes

theorem eat_bind (no : Yields z r (Past z lo m) (f false) Q) : Yields z r (Past z lo m) (eat sign >>= f) Q := by
  unfold eat
  rw [bind_assoc]
  exact atSymbol_bind (take_bind yes) no

theorem eatKeyword_bind (no : Yields z r (Past z lo m) (f false) Q) :
    Yields z r (Past z lo m) (eatKeyword word >>= f) Q := by
  unfold eatKeyword
  rw [bind_assoc]
  exact atKeyword_bind (take_bind yes) no

end

theorem eat_any (h : ∀ x, Yields z r (Past z lo m) (f x) Q) : Yields z r (Past z lo m) (eat sign >>= f) Q :=
  eat_bind (h true) (h false)

theorem eat_past : Yields z r (Past z lo m) (eat sign) fun _ => Past z lo m := by
  rw [← bind_pure (eat sign)]
  exact eat_any fun _ => .pure fun _ => id

/-- Where `=` was not taken, what was read before is admitted. -/
theorem eat_offered {node : Node}
    (yes : ∀ m s, Held z (·.Operand r.place s) lo m [node] → Yields z r (Past z lo m) (f true) Q)
    (no : ∀ m, Held z (Admits r) lo m [node] → Yields z r (Past z lo m) (f false) Q) :
    Yields z r (Offered z r lo node) (eat .equal >>= f) Q := by
  unfold eat
  rw [bind_assoc]
  refine atSymbol_at ?_ ?_
  · rintro s ⟨⟨m, hheld, hpast⟩, hkind⟩
    exact at_inside (take_bind (yes m s hheld)) rfl s ⟨hpast, hkind⟩
  · rintro s ⟨⟨m, hheld, hpast⟩, hkind⟩
    exact no m (hheld.mono fun _ _ h => h.admitted_of_ne hkind) s hpast

/-- A sign that may come before the first token that has to be there. -/
theorem eat_ahead (h : ∀ x, Yields z r (Ahead z k) (f x) Q) : Yields z r (Ahead z k) (eat sign >>= f) Q := by
  unfold eat
  rw [bind_assoc]
  refine atSymbol_bind ?_ (h false)
  change Yields z r _ ((discard advance >>= fun _ => pure true) >>= f) Q
  rw [bind_assoc]
  have htake : Yields z r (Inside (Ahead z k)) advance fun _ => Ahead z k := by
    rw [← bind_pure advance]
    refine advance_bind fun t hgenuine hstart => .pure fun s hs => hs.ahead.weaken ?_
    exact Nat.le_trans hstart hgenuine.order
  exact .bind (.discard htake) fun _ => h true

end Test

section Option

section

variable {p : Parser α} {a : α} {f : α → Parser β} (hp : Yields z r (Past z lo m) p fun _ => Past z lo m)
  (hf : ∀ a, Yields z r (Past z lo m) (f a) Q)

include hp hf

theorem eat_optional : Yields z r (Past z lo m) (eat sign >>= fun x => if x = true then p >>= f else pure a >>= f) Q :=
  eat_bind (.bind hp hf) (hf a)

theorem eatKeyword_optional :
    Yields z r (Past z lo m) (eatKeyword word >>= fun x => if x = true then p >>= f else pure a >>= f) Q :=
  eatKeyword_bind (.bind hp hf) (hf a)

end

variable {f : Option Node → Parser β} {p : Parser Node}

variable (hp : Reads one p) (hheld : Held z (Admits r) lo m nodes)
  (hf : ∀ o m', m ≤ m' → Held z (Admits r) lo m' (nodes ++ o.toList) → Yields z r (Past z lo m') (f o) Q)

include hp hheld hf

private theorem some_bind : Yields z r (Past z lo m) (some <$> p >>= f) Q := by
  change Yields z r _ ((p >>= fun n => pure (some n)) >>= f) Q
  rw [bind_assoc]
  exact hp.bind hheld fun n m' hm h => hf (some n) m' hm h

theorem eat_option :
    Yields z r (Past z lo m) (eat sign >>= fun x => if x = true then some <$> p >>= f else pure none >>= f) Q :=
  eat_bind (some_bind hp hheld hf) (hf none m (Nat.le_refl _) (by rwa [Option.toList_none, List.append_nil]))

theorem eatKeyword_option :
    Yields z r (Past z lo m) (eatKeyword word >>= fun x => if x = true then some <$> p >>= f else pure none >>= f) Q :=
  eatKeyword_bind (some_bind hp hheld hf)
    (hf none m (Nat.le_refl _) (by rwa [Option.toList_none, List.append_nil]))

end Option

section Expectation

private theorem advance_spots :
    Yields z r (Inside (Ahead z k)) advance fun t s => z.Genuine t.span ∧
      k ≤ z.start t.span ∧ Past z (z.start t.span) (z.stop t.span) s := by
  rw [← bind_pure advance]
  exact advance_bind fun t hgenuine hstart => .pure fun s hs => ⟨hgenuine, hstart, hs⟩

theorem expect_spots : Spots Token.span (expect sign what) :=
  fun _ _ _ => atSymbol_bind advance_spots (unexpected fun _ hs => hs.sound.current)

theorem expectKeyword_spots : Spots Token.span (expectKeyword word) :=
  fun _ _ _ => atKeyword_bind advance_spots (unexpected fun _ hs => hs.sound.current)

theorem expectIdentifier_spots : Spots (fun a : String × Span => a.2) (expectIdentifier what) := by
  intro z r k
  refine kind_bind fun kd => ?_
  cases kd with
  | identifier name =>
    refine advance_at rfl fun t _ _ hgenuine hstart => ?_
    exact .pure fun s hs => ⟨hgenuine, hstart, hs⟩
  | _ => exact unexpected fun _ hs => hs.1.sound.current

end Expectation

section Loop

variable {γ : Type} {least : Nat} {S : Nat → γ → Prop} {R : Nat → α → Prop}

/-- Something is known of what was read up to some place behind `least`. -/
def Since (z : Zone) (lo least : Nat) (R : Nat → α → Prop) (a : α) (s : ParseState) : Prop :=
  ∃ m, least ≤ m ∧ R m a ∧ Past z lo m s

theorem since_bind {f : α → Parser β} (hp : Yields z r P p (Since z lo least R))
    (hf : ∀ a m, least ≤ m → R m a → Yields z r (Past z lo m) (f a) Q) : Yields z r P (p >>= f) Q := by
  refine .bind hp fun a s hs => ?_
  obtain ⟨m, hleast, ha, hpast⟩ := hs
  exact hf a m hleast ha s hpast

/-- A loop that adds to what was read. -/
theorem loop_since {turn : γ → Parser (Turn γ α)}
    (hturn : ∀ x m, least ≤ m → S m x →
      Yields z r (Past z lo m) (turn x) (turnOf (Since z lo least S) (Since z lo least R)))
    {x : γ} (hleast : least ≤ m) (hx : S m x) : Yields z r (Past z lo m) (loop turn x) (Since z lo least R) := by
  refine (Yields.loop (S := Since z lo least S) (fun x s hs => ?_) x).pre fun s hs => ⟨m, hleast, hx, hs⟩
  obtain ⟨m, hleast, hx, hpast⟩ := hs
  exact hturn x m hleast hx s hpast

end Loop

section Node

variable {shape : Shape Node} {start stop : Span}

/-- A node from `start` to `stop` that holds what was read in between. -/
theorem Held.close (hheld : Held z C (z.start start) m nodes) (hstart : z.Genuine start) (hstop : z.Genuine stop)
    (hlo : z.start start ≤ z.start stop) (hm : m ≤ z.stop stop) (hle : z.stop start ≤ z.stop stop)
    (hshape : ∀ n ∈ shape.parts, n ∈ nodes) :
    Node.Between z (z.start start) (z.stop stop) ⟨shape, start.cover stop⟩ := by
  have hfirst : z.start (start.cover stop) = z.start start := by
    rw [Zone.start_cover]
    omega
  have hlast : z.stop (start.cover stop) = z.stop stop := by
    rw [Zone.stop_cover]
    omega
  refine ⟨.mk (hstart.cover hstop) fun n hn => ?_, Nat.le_of_eq hfirst.symm, Nat.le_of_eq hlast⟩
  rw [hfirst, hlast]
  exact (hheld.lies n (hshape n hn)).widen (Nat.le_refl _) hm

/-- A node from `start` up to the token `stop` behind what was read. -/
theorem Held.close_at (hheld : Held z C (z.start start) m nodes) (hstart : z.Genuine start) (hle : z.stop start ≤ m)
    (hstop : z.Genuine stop) (hm : m ≤ z.start stop) (hshape : ∀ n ∈ shape.parts, n ∈ nodes)
    (hform : ∀ span, (∀ n ∈ shape.parts, C n) → D ⟨shape, span⟩) :
    Held z D (z.start start) (z.stop stop) [⟨shape, start.cover stop⟩] := by
  have := hstart.order
  have := hstop.order
  refine .of_node (hheld.close hstart hstop (by omega) (by omega) (by omega) hshape) ?_
  exact hform _ fun n hn => hheld.form n (hshape n hn)

/-- A node that goes on up to `last`, with what was read behind it. -/
theorem extend_node {node : Node} {last : Span} {m' : Nat} (hnode : Held z C lo m [node])
    (hheld : Held z C m m' nodes) (hlast : z.Genuine last) (hm : m ≤ z.start last) (hstop : m' ≤ z.stop last)
    (hshape : ∀ n ∈ shape.parts, n ∈ node :: nodes) (hform : ∀ span, (∀ n ∈ shape.parts, C n) → D ⟨shape, span⟩) :
    Held z D lo (z.stop last) [⟨shape, node.span.cover last⟩] := by
  have hbetween := hnode.node
  have horder := hbetween.nested.genuine.order
  have hend := hbetween.stop
  have hle := hheld.le
  have hall : Held z C (z.start node.span) m' (node :: nodes) :=
    Held.append (.of_node ⟨hbetween.nested, Nat.le_refl _, hend⟩ hnode.only) hheld
  have hclose := hall.close hbetween.nested.genuine hlast (by omega) hstop (by omega) hshape
  exact .of_node (hclose.widen hbetween.start (Nat.le_refl _))
    (hform _ fun n hn => hall.form n (hshape n hn))

/-- A node from `start` up to the end of another one that it holds. -/
theorem lead_node {node : Node} (hstart : z.Genuine start) (hle : z.stop start ≤ m)
    (hnode : Held z C (z.start start) m [node]) (hshape : ∀ n ∈ shape.parts, n = node)
    (hform : ∀ span, (∀ n ∈ shape.parts, C n) → D ⟨shape, span⟩) :
    Held z D (z.start start) m [⟨shape, start.cover node.span⟩] := by
  have hfirst := z.start_cover start node.span
  have hlast := z.stop_cover start node.span
  have hbegin := hnode.node.start
  have hend := hnode.node.stop
  refine .of_node ⟨.mk (hstart.cover hnode.node.nested.genuine) fun n hn => ?_, ?_, ?_⟩
    (hform _ fun n hn => hshape n hn ▸ hnode.only)
  · rw [hshape n hn, hfirst, hlast]
    exact ⟨hnode.node.nested, Nat.min_le_right .., Nat.le_max_right ..⟩
  · dsimp only
    omega
  · dsimp only
    omega

theorem close_node (hheld : Held z C (z.start start) m nodes) (hstart : z.Genuine start) (hle : z.stop start ≤ m)
    (hshape : ∀ n ∈ shape.parts, n ∈ nodes) (hform : ∀ span, (∀ n ∈ shape.parts, C n) → D ⟨shape, span⟩) :
    Yields z r (Past z (z.start start) m)
      (previous >>= fun last => pure ⟨shape, start.cover last⟩)
      (Gives z D one (z.start start)) := by
  refine previous_bind fun last hlast hlo hm => .pure fun s hs => ⟨z.stop last, ?_, hs⟩
  exact .of_node (hheld.close hstart hlast hlo hm (Nat.le_trans hle hm) hshape)
    (hform _ fun n hn => hheld.form n (hshape n hn))

theorem Gives.lower {a : α} {s : ParseState} (h : Gives z C parts lo a s) (hk : k ≤ lo) : Gives z C parts k a s := by
  obtain ⟨m, hheld, hpast⟩ := h
  exact ⟨m, hheld.lower hk, hpast.lower hk⟩

theorem yields_lower (h : Yields z r P p (Gives z C parts lo)) (hk : k ≤ lo) : Yields z r P p (Gives z C parts k) :=
  h.post fun _ _ h => h.lower hk

/-- What takes a token first begins where this token does. -/
theorem takes_advance {f : Token → Parser α} (h : ∀ z r (t : Token), z.Genuine t.span →
    Yields z r (Past z (z.start t.span) (z.stop t.span)) (f t) (Gives z (Admits r) parts (z.start t.span))) :
    Takes parts (advance >>= f) :=
  fun z r _ => advance_bind fun t ht hk => yields_lower (h z r t ht) hk

end Node

end ScriptLang.Form
