import ScriptLang.Proofs.Grammar.Turn
import ScriptLang.Proofs.Grammar.Run

/-! Parsers that succeed: a logic for the tokens that they take. -/
namespace ScriptLang

def ParseState.facing (previous : Span) (id : Nat) : (tokens : List Token) → ParseState
  | [] => ⟨.ofTokens [], id⟩
  | current :: rest => ⟨⟨previous, current, rest⟩, id⟩

namespace Parser

variable {α β : Type}

/-- A parser that takes tokens of certain kinds and gives a result with `Q`, wherever the kind of the token
behind them satisfies `C`. -/
def Reads (C : TokenKind Token → Prop) (p : Parser α) (r : Surroundings)
    (kinds : List (TokenKind Token)) (Q : α → Prop) : Prop :=
  ∀ previous id (ts : List Token) (next : Token) (rest : List Token),
    ts.map (·.kind) = kinds → C next.kind → ∃ a before,
      p r (.facing previous id (ts ++ next :: rest)) = .ok (a, .facing before id (next :: rest)) ∧ Q a

namespace Reads

variable {C D : TokenKind Token → Prop} {p : Parser α} {f : α → Parser β} {r : Surroundings}
  {kinds more : List (TokenKind Token)} {Q Q' : α → Prop} {U : β → Prop} {k : TokenKind Token}

theorem pure {a : α} (h : Q a) : Reads C (pure a) r [] Q := by
  intro previous id ts next rest hts _
  obtain rfl := List.map_eq_nil_iff.mp hts
  exact ⟨a, previous, rfl, h⟩

/-- What comes behind the first tokens is the second ones, or what comes behind both. -/
theorem bind (hp : Reads C p r kinds Q) (hf : ∀ a, Q a → Reads D (f a) r more U)
    (hnext : ∀ k, D k → C (more.head?.getD k)) : Reads D (p >>= f) r (kinds ++ more) U := by
  intro previous id ts next rest hts hD
  obtain ⟨us, vs, rfl, hus, hvs⟩ := List.map_eq_append_iff.mp hts
  have hsplit : ∃ first others, vs ++ next :: rest = first :: others ∧ C first.kind := by
    cases vs with
    | nil =>
      subst hvs
      exact ⟨next, rest, rfl, hnext _ hD⟩
    | cons first vs =>
      subst hvs
      exact ⟨first, _, rfl, hnext _ hD⟩
  obtain ⟨first, others, hsplit, hC⟩ := hsplit
  obtain ⟨a, before, hrun, hQ⟩ := hp previous id us first others hus hC
  obtain ⟨b, before', hrun', hU⟩ := hf a hQ before id vs next rest hvs hD
  refine ⟨b, before', ?_, hU⟩
  rw [bind_apply, List.append_assoc, hsplit, hrun, ← hsplit]
  exact hrun'

theorem mono (hp : Reads C p r kinds Q) (hC : ∀ k, D k → C k) (hQ : ∀ a, Q a → Q' a) : Reads D p r kinds Q' := by
  intro previous id ts next rest hts hD
  obtain ⟨a, before, hrun, ha⟩ := hp previous id ts next rest hts (hC _ hD)
  exact ⟨a, before, hrun, hQ a ha⟩

theorem look {p : Parser α} (hp : Reads C p r [] Q) (hf : ∀ a, Q a → Reads D (f a) r kinds U)
    (hnext : ∀ k, D k → C (kinds.head?.getD k)) : Reads D (p >>= f) r kinds U :=
  bind hp hf hnext

theorem finish (hp : Reads C p r kinds Q) (hf : ∀ a, Q a → Reads C (f a) r [] U) : Reads C (p >>= f) r kinds U := by
  rw [← List.append_nil kinds]
  exact bind hp hf fun _ => id

theorem kind : Reads C kind r [] C := by
  intro previous id ts next rest hts hC
  obtain rfl := List.map_eq_nil_iff.mp hts
  exact ⟨next.kind, previous, rfl, hC⟩

theorem ahead {f : TokenKind Token → Parser β}
    (h : Reads D (f k) r (k :: kinds) U) : Reads D (Parser.kind >>= f) r (k :: kinds) U := by
  refine look (C := (· = k)) kind ?_ fun _ _ => rfl
  rintro _ rfl
  exact h

theorem advance (k : TokenKind Token) : Reads C advance r [k] (·.kind = k) := by
  intro previous id ts next rest hts _
  obtain ⟨t, rfl, hkind⟩ : ∃ t, ts = [t] ∧ t.kind = k := by
    cases ts with
    | nil => cases hts
    | cons t ts =>
      obtain ⟨hkind, hnil⟩ := List.cons.inj hts
      exact ⟨t, by rw [List.map_eq_nil_iff.mp hnil], hkind⟩
  exact ⟨t, t.span, rfl, hkind⟩

theorem take {f : Token → Parser α} (hf : ∀ token, token.kind = k → Reads D (f token) r kinds Q) :
    Reads D (Parser.advance >>= f) r (k :: kinds) Q :=
  bind (C := fun _ => True) (advance k) hf fun _ _ => trivial

theorem map {g : α → β} (hp : Reads C p r kinds (fun a => U (g a))) : Reads C (g <$> p) r kinds U :=
  finish hp fun _ ha => pure ha

theorem discard (hp : Reads C p r kinds Q) : Reads C (discard p) r kinds fun _ => True :=
  map (hp.mono (fun _ => id) fun _ _ => trivial)

theorem here : Reads C here r [] fun _ => True := by
  intro previous id ts next rest hts _
  obtain rfl := List.map_eq_nil_iff.mp hts
  exact ⟨next.span, previous, rfl, trivial⟩

theorem atSymbol (sign : Symbol) (b : Bool) : Reads (fun k => k.isSymbol sign = b) (atSymbol sign) r [] (· = b) :=
  look kind (fun _ hk => pure hk) fun _ => id

theorem atKeyword (word : Keyword) (b : Bool) : Reads (fun k => k.isKeyword word = b) (atKeyword word) r [] (· = b) :=
  look kind (fun _ hk => pure hk) fun _ => id

theorem skipNewlines : Reads (fun k => k.isNewline = false) skipNewlines r [] fun _ => True := by
  intro previous id ts next rest hts hnext
  obtain rfl := List.map_eq_nil_iff.mp hts
  refine ⟨(), previous, ?_, trivial⟩
  exact congrArg (fun stream => Except.ok ((), ParseState.mk stream id)) (Stream.behindNewlines_eq hnext)

theorem eat (sign : Symbol) : Reads C (eat sign) r [.symbol sign] (· = true) := by
  refine look (atSymbol sign true) ?_ fun _ _ => decide_eq_true rfl
  rintro _ rfl
  exact finish (discard (advance _)) fun _ _ => pure rfl

theorem eat_not (sign : Symbol) : Reads (fun k => k.isSymbol sign = false) (Parser.eat sign) r [] (· = false) := by
  refine look (atSymbol sign false) ?_ fun _ => id
  rintro _ rfl
  exact pure rfl

theorem expect (sign : Symbol) (what : String) :
    Reads C (expect sign what) r [.symbol sign] (·.kind = .symbol sign) := by
  refine look (atSymbol sign true) ?_ fun _ _ => decide_eq_true rfl
  rintro _ rfl
  exact advance _

theorem nested (hp : Reads C p { r with depth := r.depth + 1 } kinds Q) (hdepth : r.depth < maxNesting) :
    Reads C (nested p) r kinds Q := by
  intro previous id ts next rest hts hC
  rw [nested_apply, if_pos hdepth]
  exact hp previous id ts next rest hts hC

section Loop

variable {turn : β → Parser (Turn β α)} {x : β} {turns : Nat}

theorem iterate_done (h : Reads C (turn x) r kinds fun t => ∃ a, t = .done a ∧ Q a) :
    Reads C (iterate turn (turns + 1) x) r kinds Q := by
  refine finish h ?_
  rintro _ ⟨a, rfl, ha⟩
  exact pure ha

theorem iterate_next (h : Reads C (turn x) r kinds fun t => ∃ y, t = .next y ∧ U y)
    (hrest : ∀ y, U y → Reads D (iterate turn turns y) r more Q) (hnext : ∀ k, D k → C (more.head?.getD k)) :
    Reads D (iterate turn (turns + 1) x) r (kinds ++ more) Q := by
  refine bind h ?_ hnext
  rintro _ ⟨y, rfl, hy⟩
  exact hrest y hy

theorem loop (h : Reads C (iterate turn r.turns x) r kinds Q) : Reads C (loop turn x) r kinds Q := h

end Loop

end Reads

end Parser

end ScriptLang
