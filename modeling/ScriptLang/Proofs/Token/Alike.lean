import Mathlib.Data.List.Forall2
import ScriptLang.Proofs.Source.Moved
import ScriptLang.Token.Basic

/-! Tokens that are the same but for where they stand. -/
namespace ScriptLang

inductive Segment.Alike {τ : Type} (P : τ → τ → Prop) : Segment τ → Segment τ → Prop
  | text (value) : Alike P (.text value) (.text value)
  | code {a b} (tokens : List.Forall₂ P a b) : Alike P (.code a) (.code b)

inductive TokenKind.Alike {τ : Type} (P : τ → τ → Prop) : TokenKind τ → TokenKind τ → Prop
  | plain {k} (h : ∀ segments, k ≠ .template segments) : Alike P k k
  | template {a b} (segments : List.Forall₂ (Segment.Alike P) a b) :
      Alike P (.template a) (.template b)

inductive Token.Alike (R : Span → Span → Prop) : Token → Token → Prop
  | mk {a b s t} (kind : TokenKind.Alike (Token.Alike R) a b) (span : R s t) :
      Alike R ⟨a, s⟩ ⟨b, t⟩

theorem TokenKind.isEnd_iff {τ : Type} {k : TokenKind τ} : k.isEnd = true ↔ k = .endOfInput := by
  cases k <;> simp [isEnd]

namespace TokenKind.Alike

variable {τ : Type} {P : τ → τ → Prop} {k l : TokenKind τ}

theorem isEnd_eq (h : Alike P k l) : k.isEnd = l.isEnd := by
  cases h <;> rfl

theorem isNewline_eq (h : Alike P k l) : k.isNewline = l.isNewline := by
  cases h <;> rfl

theorem isSymbol_eq (h : Alike P k l) (sign : Symbol) : k.isSymbol sign = l.isSymbol sign := by
  cases h <;> rfl

end TokenKind.Alike

theorem Token.Alike.kind {R : Span → Span → Prop} {a b : Token} (h : Token.Alike R a b) :
    TokenKind.Alike (Token.Alike R) a.kind b.kind := by
  cases h; assumption

theorem Token.Alike.span {R : Span → Span → Prop} {a b : Token} (h : Token.Alike R a b) : R a.span b.span := by
  cases h; assumption

namespace Token

variable {R : Span → Span → Prop}

mutual

theorem Alike.weight_eq : ∀ {a b : Token}, Token.Alike R a b → a.weight = b.weight
  | ⟨_, _⟩, ⟨_, _⟩, .mk kind _ => by rw [weight, weight, kindWeight_eq kind]

private theorem kindWeight_eq : ∀ {a b : TokenKind Token}, TokenKind.Alike (Token.Alike R) a b →
    kindWeight a = kindWeight b
  | _, _, .plain _ => rfl
  | .template _, .template _, .template segments => by
    rw [kindWeight, kindWeight, segmentsWeight_eq segments]

private theorem segmentsWeight_eq : ∀ {a b : List (Segment Token)},
    List.Forall₂ (Segment.Alike (Token.Alike R)) a b → segmentsWeight a = segmentsWeight b
  | [], [], .nil => rfl
  | _ :: _, _ :: _, .cons first rest => by
    rw [segmentsWeight, segmentsWeight, segmentWeight_eq first, segmentsWeight_eq rest]

private theorem segmentWeight_eq : ∀ {a b : Segment Token}, Segment.Alike (Token.Alike R) a b →
    segmentWeight a = segmentWeight b
  | _, _, .text _ => rfl
  | .code _, .code _, .code tokens => by rw [segmentWeight, segmentWeight, weights_eq tokens]

/-- Tokens that differ in where they stand weigh the same. -/
theorem weights_eq : ∀ {a b : List Token}, List.Forall₂ (Token.Alike R) a b → weights a = weights b
  | [], [], .nil => rfl
  | _ :: _, _ :: _, .cons first rest => by
    rw [weights, weights, Alike.weight_eq first, weights_eq rest]

end

theorem weights_append (a b : List Token) : weights (a ++ b) = weights a + weights b := by
  induction a with
  | nil => rw [List.nil_append, weights, Nat.zero_add]
  | cons t a ih => rw [List.cons_append, weights, weights, ih, Nat.add_assoc]

theorem length_le_weights (a : List Token) : a.length ≤ weights a := by
  induction a with
  | nil => exact Nat.le_refl _
  | cons t a ih =>
    obtain ⟨kind, span⟩ := t
    rw [List.length_cons, weights, weight]
    omega

end Token

/-- The ends of `t` are where `f` puts those of `s`. -/
abbrev MappedBy (f : Position → Position) (s t : Span) : Prop := t = s.map f

abbrev MovedBy (d : Position) (s t : Span) : Prop := t = s.moved d

end ScriptLang
