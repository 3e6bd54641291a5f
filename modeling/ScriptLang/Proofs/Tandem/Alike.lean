import ScriptLang.Grammar.Statement
import ScriptLang.Proofs.Token.Alike
import ScriptLang.Proofs.Value.Aligned

/-! What two readings of the same words have in common: all but the stretches and the ids of functions, or all
with these moved on. Main statements: what is not moved compares with itself, and where nothing is left out either
the comparison is equality. -/
namespace ScriptLang

variable {α β : Type}

/-- How two readings compare the stretches and the ids of functions: not at all, or as in a text that stands
behind one that ends at `d` and has so many functions. -/
inductive Scale
  | loose
  | moved (d : Position) (functions : Nat)

namespace Scale

abbrev exact : Scale := .moved .origin 0

def functions : Scale → Nat
  | .loose => 0
  | .moved _ k => k

def SameId : Scale → Nat → Nat → Prop
  | .loose, _, _ => True
  | .moved _ k, i, j => j = i + k

/-- All things compare with themselves. -/
def Fixed (M : Scale) : Prop := M = .loose ∨ M = .exact

variable {M : Scale}

theorem Fixed.sameId (h : M.Fixed) (i : Nat) : M.SameId i i := by
  rcases h with rfl | rfl
  · trivial
  · rfl

theorem SameId.succ {i j : Nat} (h : M.SameId i j) : M.SameId (i + 1) (j + 1) := by
  cases M with
  | loose => trivial
  | moved d k => exact (congrArg (· + 1) h).trans (Nat.add_right_comm i k 1)

end Scale

variable {M : Scale}

def Span.Like : Scale → Span → Span → Prop
  | .loose, _, _ => True
  | .moved d _, s, t => MovedBy d s t

theorem Span.Like.refl (hM : M.Fixed) (s : Span) : s.Like M s := by
  rcases hM with rfl | rfl
  · trivial
  · exact s.moved_origin_left.symm

theorem Span.Like.eq {s t : Span} (h : s.Like .exact t) : s = t := s.moved_origin_left.symm.trans h.symm

theorem Span.Like.cover {s s' t t' : Span} (hs : s.Like M s') (ht : t.Like M t') :
    (s.cover t).Like M (s'.cover t') := by
  cases M with
  | loose => trivial
  | moved d k =>
    cases hs
    cases ht
    exact (Span.moved_cover d s t).symm

section Anonymous

def FunctionDef.anonymous (M : Scale) (f : FunctionDef α) : FunctionDef α :=
  match M with
  | .loose => { f with id := 0 }
  | .moved .. => f

def MethodDef.anonymous (M : Scale) (m : MethodDef α) : MethodDef α :=
  { m with function := m.function.anonymous M }

def ClassDef.anonymous (M : Scale) (c : ClassDef α) : ClassDef α :=
  { c with
    methods := c.methods.map (·.anonymous M)
    getters := c.getters.map (·.anonymous M)
    setters := c.setters.map (·.anonymous M) }

def Shape.anonymous (M : Scale) : Shape α → Shape α
  | .function definition => .function (definition.anonymous M)
  | .classDefinition definition => .classDefinition (definition.anonymous M)
  | shape => shape

theorem Shape.anonymous_moved (d : Position) (k : Nat) (shape : Shape α) : shape.anonymous (.moved d k) = shape := by
  cases shape with
  | classDefinition definition =>
    have hid : (MethodDef.anonymous (.moved d k) : MethodDef α → MethodDef α) = id := rfl
    simp [anonymous, ClassDef.anonymous, hid]
  | _ => rfl

theorem MethodDef.anonymous_parts (m : MethodDef α) : (m.anonymous M).parts = m.parts := by
  cases M <;> rfl

theorem Shape.anonymous_parts (shape : Shape α) : (shape.anonymous M).parts = shape.parts := by
  have hmethods (ms : List (MethodDef α)) :
      (ms.map (·.anonymous M)).flatMap MethodDef.parts = ms.flatMap MethodDef.parts := by
    rw [List.flatMap_map]
    exact List.flatMap_congr fun m _ => m.anonymous_parts
  cases shape with
  | function definition => cases M <;> rfl
  | classDefinition definition =>
    simp only [anonymous, parts, ClassDef.parts, ClassDef.anonymous, hmethods]
  | _ => rfl

end Anonymous

/-- Nodes that are the same, or that differ in nothing but their stretches and the ids of their functions. -/
inductive Node.Like (M : Scale) : Node → Node → Prop
  | mk {a b s t} (shape : Shape.Alike (Span.Like M) M.functions (Node.Like M) (a.anonymous M)
      (b.anonymous M)) (span : Span.Like M s t) : Like M ⟨a, s⟩ ⟨b, t⟩

namespace Node

variable {a b : Node}

theorem Like.shape (h : Like M a b) : Shape.Alike (Span.Like M) M.functions (Like M)
    (a.shape.anonymous M) (b.shape.anonymous M) := by
  cases h with
  | mk shape _ => exact shape

theorem Like.span (h : Like M a b) : a.span.Like M b.span := by
  cases h with
  | mk _ span => exact span

theorem Like.refl (hM : M.Fixed) (a : Node) : Like M a a := by
  have hfunctions : M.functions = 0 := by
    rcases hM with rfl | rfl <;> rfl
  induction a using Node.induction with
  | step a ih =>
    obtain ⟨shape, span⟩ := a
    refine .mk ?_ (.refl hM span)
    rw [hfunctions]
    refine ((Shape.alike_eq _ _).mpr rfl).imp ?_ ?_
    · rintro s _ rfl
      exact .refl hM s
    · rintro part hp _ rfl
      rw [Shape.anonymous_parts] at hp
      exact ih part hp

/-- Where stretches and ids count, nodes that compare are alike. -/
theorem Like.alike {d : Position} {k : Nat} (h : Like (.moved d k) a b) : Alike (MovedBy d) k a b := by
  induction a using Node.induction generalizing b with
  | step a ih =>
    obtain ⟨shape, span⟩ := h
    rw [Shape.anonymous_moved, Shape.anonymous_moved] at shape
    exact .mk (shape.imp (fun _ _ h => h) fun part hp _ h => ih part hp h) span

/-- Where nothing is left out or moved, the comparison is equality. -/
theorem like_eq (h : Like .exact a b) : a = b :=
  alike_eq (h.alike.mono fun _ _ (h : Span.Like .exact _ _) => h.eq)

end Node

/-- Results of parsers that can be compared. -/
class Likeness (α : Type) where
  Like : Scale → α → α → Prop
  refl {M : Scale} (hM : M.Fixed) (a : α) : Like M a a

open Likeness (Like)

/-- Things that are compared as they are. -/
@[reducible] def Likeness.exact (α : Type) : Likeness α := ⟨fun _ => Eq, fun _ _ => rfl⟩

section Instances

instance : Likeness Unit := .exact Unit
instance : Likeness Bool := .exact Bool
instance : Likeness Int := .exact Int
instance : Likeness String := .exact String
instance : Likeness MemberFlags := .exact MemberFlags

instance : Likeness Span := ⟨Span.Like, .refl⟩
instance : Likeness Token := ⟨fun M a b => a.span.Like M b.span, fun hM _ => .refl hM _⟩
instance : Likeness Node := ⟨Node.Like, .refl⟩

variable [Likeness α] [Likeness β]

theorem forall₂_like_refl (hM : M.Fixed) (xs : List α) : List.Forall₂ (Like M) xs xs :=
  List.forall₂_same.mpr fun a _ => Likeness.refl hM a

theorem option_like_refl (hM : M.Fixed) (x : Option α) : Option.Rel (Like M) x x := by
  cases x with
  | none => exact .none
  | some a => exact .some (Likeness.refl hM a)

instance : Likeness (List α) := ⟨fun M => List.Forall₂ (Like M), forall₂_like_refl⟩
instance : Likeness (Array α) := ⟨fun M => Aligned (Like M), fun hM a => forall₂_like_refl hM a.toList⟩
instance : Likeness (Option α) := ⟨fun M => Option.Rel (Like M), option_like_refl⟩

instance : Likeness (α × β) where
  Like M := PairAlike (Like M) (Like M)
  refl hM x := .mk (Likeness.refl hM x.1) (Likeness.refl hM x.2)

inductive Turn.Like (M : Scale) : Turn β α → Turn β α → Prop
  | next {x x'} (state : Likeness.Like M x x') : Like M (.next x) (.next x')
  | done {a a'} (result : Likeness.Like M a a') : Like M (.done a) (.done a')

instance : Likeness (Turn β α) where
  Like := Turn.Like
  refl hM x := by
    cases x with
    | next x => exact .next (Likeness.refl hM x)
    | done a => exact .done (Likeness.refl hM a)

theorem param_like_refl (hM : M.Fixed) (p : Param Node) : Param.Alike (Span.Like M) (Node.Like M) p p :=
  .mk _ _ _ _ (option_like_refl hM p.fallback) (.refl hM _)

theorem function_like_refl (hM : M.Fixed) (f : FunctionDef Node) :
    FunctionDef.Alike (Span.Like M) M.functions (Node.Like M) f f := by
  have hfunctions : M.functions = 0 := by
    rcases hM with rfl | rfl <;> rfl
  rw [hfunctions]
  exact .mk _ _ _ (List.forall₂_same.mpr fun p _ => param_like_refl hM p) (.refl hM _) (.refl hM _)

instance : Likeness (Index Node) where
  Like M := Index.Alike (Node.Like M)
  refl hM x := by
    cases x with
    | single key => exact .single (.refl hM key)
    | push => exact .push
    | slice start stop => exact .slice (option_like_refl hM start) (option_like_refl hM stop)

instance : Likeness (TemplatePart Node) where
  Like M := TemplatePart.Alike (Node.Like M)
  refl hM x := by
    cases x with
    | text value => exact .text value
    | expression node => exact .expression (.refl hM node)

instance : Likeness (Branch Node) where
  Like M := Branch.Alike (Node.Like M)
  refl hM x := .mk x.discard (.refl hM x.condition) (.refl hM x.body)

instance : Likeness (Param Node) where
  Like M := Param.Alike (Span.Like M) (Node.Like M)
  refl := param_like_refl

instance : Likeness (FunctionDef Node) where
  Like M f g := FunctionDef.Alike (Span.Like M) M.functions (Node.Like M) (f.anonymous M)
    (g.anonymous M)
  refl hM _ := function_like_refl hM _

instance : Likeness (PropertyDef Node) where
  Like M := PropertyDef.Alike (Span.Like M) (Node.Like M)
  refl hM p := .mk _ _ (option_like_refl hM p.value) (.refl hM p.span)

instance : Likeness (MethodDef Node) where
  Like M m n := MethodDef.Alike (Span.Like M) M.functions (Node.Like M) (m.anonymous M)
    (n.anonymous M)
  refl hM _ := .mk _ _ (function_like_refl hM _) (.refl hM _)

structure ClassDef.Like (M : Scale) (c d : ClassDef Node) : Prop where
  name : c.name = d.name
  parent : c.parent = d.parent
  properties : Likeness.Like M c.properties d.properties
  methods : Likeness.Like M c.methods d.methods
  getters : Likeness.Like M c.getters d.getters
  setters : Likeness.Like M c.setters d.setters
  span : c.span.Like M d.span

instance : Likeness (ClassDef Node) where
  Like := ClassDef.Like
  refl hM _ := ⟨rfl, rfl, Likeness.refl hM _, Likeness.refl hM _, Likeness.refl hM _, Likeness.refl hM _,
    .refl hM _⟩

theorem ClassDef.Like.alike {c d : ClassDef Node} (h : c.Like M d) :
    ClassDef.Alike (Span.Like M) M.functions (Node.Like M) (c.anonymous M) (d.anonymous M) := by
  have hmap {xs ys : List (MethodDef Node)} (h : Likeness.Like M xs ys) :
      List.Forall₂ (MethodDef.Alike (Span.Like M) M.functions (Node.Like M))
        (xs.map (·.anonymous M)) (ys.map (·.anonymous M)) :=
    List.forall₂_map_left_iff.mpr (List.forall₂_map_right_iff.mpr h)
  obtain ⟨name, parent, properties, methods, getters, setters, span⟩ := c
  obtain ⟨name', parent', properties', methods', getters', setters', span'⟩ := d
  obtain ⟨rfl, rfl, hproperties, hmethods, hgetters, hsetters, hspan⟩ := h
  exact .mk name parent hproperties (hmap hmethods) (hmap hgetters) (hmap hsetters) hspan

theorem method_name_eq_of_like {m m' : MethodDef Node} (h : Like M m m') : m.name = m'.name := by
  obtain ⟨name, function, flags, span⟩ := m
  obtain ⟨name', function', flags', span'⟩ := m'
  cases h
  rfl

theorem nodes_eq_of_like {xs ys : List Node} (h : Like Scale.exact xs ys) : xs = ys := by
  induction h with
  | nil => rfl
  | cons hfirst _ ih => rw [Node.like_eq hfirst, ih]

theorem name_eq_of_like {x x' : Option String} (h : Like M x x') : x = x' := by
  cases h with
  | none => rfl
  | some h => rw [show _ = _ from h]

/-- Functions with the same parts, and with the same id if that counts. -/
theorem function_like {id id' : Nat} (hid : M.SameId id id') (name : Option String)
    {params params' : List (Param Node)} (hparams : Like M params params') {body body' : Node}
    (hbody : Like M body body') (autoReturn : Bool) {span span' : Span} (hspan : span.Like M span') :
    Like M (⟨id, name, params, body, autoReturn, span⟩ : FunctionDef Node)
      ⟨id', name, params', body', autoReturn, span'⟩ := by
  cases M with
  | loose => exact .mk 0 name autoReturn hparams hbody hspan
  | moved d k =>
    cases hid
    exact .mk id name autoReturn hparams hbody hspan

theorem function_like_span {f f' : FunctionDef Node} (h : Like M f f') : f.span.Like M f'.span := by
  have hspan := FunctionDef.Alike.span h
  cases M <;> exact hspan

end Instances

namespace Token

mutual

/-- Tokens that do not even differ in where they stand are the same. -/
theorem Alike.eq : ∀ {a b : Token}, Token.Alike (Span.Like .exact) a b → a = b
  | ⟨_, _⟩, ⟨_, _⟩, .mk kind span => by rw [kind_eq kind, Span.Like.eq span]

private theorem kind_eq : ∀ {a b : TokenKind Token},
    TokenKind.Alike (Token.Alike (Span.Like .exact)) a b → a = b
  | _, _, .plain _ => rfl
  | .template _, .template _, .template segments => by rw [segments_eq segments]

private theorem segments_eq : ∀ {a b : List (Segment Token)},
    List.Forall₂ (Segment.Alike (Token.Alike (Span.Like .exact))) a b → a = b
  | [], [], .nil => rfl
  | _ :: _, _ :: _, .cons first rest => by rw [segment_eq first, segments_eq rest]

private theorem segment_eq : ∀ {a b : Segment Token},
    Segment.Alike (Token.Alike (Span.Like .exact)) a b → a = b
  | _, _, .text _ => rfl
  | .code _, .code _, .code tokens => by rw [eq_of_alike tokens]

theorem eq_of_alike : ∀ {a b : List Token}, List.Forall₂ (Token.Alike (Span.Like .exact)) a b → a = b
  | [], [], .nil => rfl
  | _ :: _, _ :: _, .cons first rest => by rw [Alike.eq first, eq_of_alike rest]

end

mutual

theorem Alike.refl (hM : M.Fixed) : ∀ a : Token, Token.Alike (Span.Like M) a a
  | ⟨kind, span⟩ => .mk (kind_alike_refl hM kind) (.refl hM span)

theorem kind_alike_refl (hM : M.Fixed) : ∀ a : TokenKind Token, TokenKind.Alike (Token.Alike (Span.Like M)) a a
  | .template segments => .template (segments_refl hM segments)
  | .number _ | .text _ | .identifier _ | .keyword _ | .symbol _ | .newline | .endOfInput => .plain nofun

private theorem segments_refl (hM : M.Fixed) : ∀ a : List (Segment Token),
    List.Forall₂ (Segment.Alike (Token.Alike (Span.Like M))) a a
  | [] => .nil
  | segment :: segments => .cons (segment_refl hM segment) (segments_refl hM segments)

private theorem segment_refl (hM : M.Fixed) : ∀ a : Segment Token, Segment.Alike (Token.Alike (Span.Like M)) a a
  | .text value => .text value
  | .code tokens => .code (alike_refl hM tokens)

theorem alike_refl (hM : M.Fixed) : ∀ a : List Token, List.Forall₂ (Token.Alike (Span.Like M)) a a
  | [] => .nil
  | token :: tokens => .cons (Alike.refl hM token) (alike_refl hM tokens)

end

end Token

end ScriptLang
