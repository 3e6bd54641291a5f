import Mathlib.Tactic.Tauto
import ScriptLang.Proofs.Token.Step

/-! What the scanner reads, with no bound on its steps. Main statement: with enough steps the scanners give what
is read from one cursor to another, and they give nothing else. -/
namespace ScriptLang

variable {ts : List Token}

namespace Cursor

def Reaches (a b : Cursor) : Prop := ∃ taken, a.rest = taken ++ b.rest ∧ b.place = a.place.after taken

variable {a b c : Cursor}

namespace Reaches

theorem refl (a : Cursor) : a.Reaches a := ⟨[], rfl, rfl⟩

theorem trans (h : a.Reaches b) (h' : b.Reaches c) : a.Reaches c := by
  obtain ⟨taken, hrest, hplace⟩ := h
  obtain ⟨taken', hrest', hplace'⟩ := h'
  refine ⟨taken ++ taken', ?_, ?_⟩
  · rw [hrest, hrest', List.append_assoc]
  · rw [hplace', hplace, Position.after_append]

theorem skip (a : Cursor) (n : Nat) : a.Reaches (a.skip n) :=
  ⟨a.rest.take n, (List.take_append_drop n a.rest).symm, rfl⟩

theorem onset (a : Cursor) : a.Reaches a.onset := .skip a _

theorem textEnd (a : Cursor) : a.Reaches a.textEnd := .skip a _

theorem length_le (h : a.Reaches b) : b.rest.length ≤ a.rest.length := by
  obtain ⟨taken, hrest, _⟩ := h
  rw [hrest, List.length_append]
  exact Nat.le_add_left ..

theorem place_eq {source : String} (h : (ofText source).Reaches b) (hrest : b.rest = []) :
    b.place = .after .origin source.toList := by
  obtain ⟨taken, htaken, hplace⟩ := h
  rw [hrest, List.append_nil] at htaken
  rw [hplace, ← htaken]
  rfl

end Reaches

theorem length_skip_lt {first : Char} {others : List Char} (h : a.rest = first :: others) {n : Nat} (hn : 0 < n) :
    (a.skip n).rest.length < a.rest.length := by
  simp only [skip, List.length_drop, h, List.length_cons]
  omega

end Cursor

namespace Token

/-- Tokens that close all braces they open and `depth` more, but at no place in between more than that. -/
structure Balanced (depth : Nat) (ts : List Token) : Prop where
  opened : ∀ front, front <+: ts → braces .rightBrace front ≤ braces .leftBrace front + depth
  total : braces .rightBrace ts = braces .leftBrace ts + depth

theorem Balanced.nil : Balanced 0 [] := by
  refine ⟨fun front hfront => ?_, rfl⟩
  rw [List.prefix_nil.mp hfront]
  exact Nat.zero_le _

theorem braces_cons (side : Symbol) (t : Token) (ts : List Token) :
    braces side (t :: ts) = braces side [t] + braces side ts := by
  rw [← List.singleton_append]
  exact List.countP_append

theorem balanced_cons {t : Token} {depth depth' : Nat}
    (hdepth : braces .rightBrace [t] + depth' = braces .leftBrace [t] + depth) :
    Balanced depth (t :: ts) ↔ Balanced depth' ts := by
  constructor
  · intro h
    refine ⟨fun front hfront => ?_, ?_⟩
    · have hopened := h.opened (t :: front) (List.cons_prefix_cons.mpr ⟨rfl, hfront⟩)
      rw [braces_cons, braces_cons .leftBrace] at hopened
      omega
    · have htotal := h.total
      rw [braces_cons, braces_cons .leftBrace] at htotal
      omega
  · intro h
    refine ⟨fun front hfront => ?_, ?_⟩
    · rcases List.prefix_cons_iff.mp hfront with rfl | ⟨us, rfl, hus⟩
      · exact Nat.zero_le _
      · have hopened := h.opened us hus
        rw [braces_cons, braces_cons .leftBrace]
        omega
    · have htotal := h.total
      rw [braces_cons, braces_cons .leftBrace]
      omega

end Token

namespace Scan

/-- What is read at once: a token, tokens one after the other, or the rest of a template. -/
inductive Piece where
  | token (t : Token)
  | tokens (ts : List Token)
  | segments (parts : List (Segment Token))

/-- What is read from one cursor to another. Code in a template goes up to the first closing brace that none of its
tokens opens, and that brace counts as its end of input. -/
inductive Scans : Cursor → Piece → Cursor → Prop
  | ending {a} (rest : a.onset.rest = []) : Scans a (.token a.ending) a.onset
  | single {a first others t c} (rest : a.onset.rest = first :: others) (plain : first ≠ '\x60')
      (found : single first a.onset = .ok (t, c)) : Scans a (.token t) c
  | template {a others segments c} (rest : a.onset.rest = '\x60' :: others)
      (filled : Scans (a.onset.skip 1) (.segments segments) c) :
      Scans a (.token ⟨.template segments, a.onset.upTo c⟩) c
  | nil (a : Cursor) : Scans a (.tokens []) a
  | cons {a t b ts c} (first : Scans a (.token t) b) (isEnd : t.kind.isEnd = false)
      (rest : Scans b (.tokens ts) c) : Scans a (.tokens (t :: ts)) c
  | close {a others} (rest : a.textEnd.rest = '\x60' :: others) :
      Scans a (.segments (addText [] (textRun endsSegment a.rest).1)) (a.textEnd.skip 1)
  | code {a others body b closing c segments d} (rest : a.textEnd.rest = '\x7b' :: others)
      (inside : Scans (a.textEnd.skip 1) (.tokens body) b)
      (closes : Scans b (.token ⟨.symbol .rightBrace, closing⟩) c) (balanced : Token.Balanced 0 body)
      (more : Scans c (.segments segments) d) :
      Scans a (.segments (addText [] (textRun endsSegment a.rest).1 ++
        .code (body ++ [⟨.endOfInput, closing⟩]) :: segments)) d

variable {a b c : Cursor} {t : Token} {p : Piece} {fuel : Nat} {start : Cursor} {done out : List Token}

theorem numberWidth_pos {cs : List Char} (h : startsWithNumber cs) : 0 < numberWidth false cs := by
  cases cs with
  | nil => cases h
  | cons c cs =>
    by_cases hc : c = '.'
    · subst hc
      have hdigit : startsWithDigit cs = true := h
      simp [numberWidth, hdigit]
    · have hdigit : c.isDigit = true := by
        rw [startsWithNumber] at h
        · exact h
        · rintro rest hrest
          exact hc (List.cons.inj hrest).1
      simp [numberWidth, hdigit]

/-- A single token takes characters. -/
theorem Found.takes {kind : TokenKind Token} (h : Found b kind c) :
    b.Reaches c ∧ (b.rest ≠ [] → c.rest.length < b.rest.length) ∧ kind.isEnd = false := by
  have hskip {n : Nat} (hn : 0 < n) (hne : b.rest ≠ []) : (b.skip n).rest.length < b.rest.length := by
    obtain ⟨first, others, hrest⟩ := List.exists_cons_of_ne_nil hne
    exact Cursor.length_skip_lt hrest hn
  have hword {first : Char} {others : List Char} (hrest : b.rest = first :: others) (hfirst : beginsName first) :
      0 < (b.rest.takeWhile continuesName).length := by
    have hcontinues : continuesName first = true := by
      simp only [beginsName, Bool.or_eq_true] at hfirst
      simp only [continuesName, Bool.or_eq_true]
      tauto
    rw [hrest, List.takeWhile_cons, if_pos hcontinues]
    exact Nat.succ_pos _
  cases h with
  | number begins => exact ⟨.skip _ _, hskip (numberWidth_pos begins), rfl⟩
  | keyword rest begins | identifier rest begins => exact ⟨.skip _ _, hskip (hword rest begins), rfl⟩
  | text rest =>
    refine ⟨((Cursor.Reaches.skip b 1).trans (.skip _ _)).trans (.skip _ _), fun hne => ?_, rfl⟩
    exact Nat.lt_of_le_of_lt ((Cursor.Reaches.skip _ _).trans (.skip _ _)).length_le (hskip Nat.one_pos hne)
  | newline => exact ⟨.skip _ _, hskip Nat.one_pos, rfl⟩
  | @symbol s => exact ⟨.skip _ _, hskip (List.length_pos_iff.mpr s.spelling_ne_nil), rfl⟩

namespace Scans

theorem reaches (h : Scans a p c) : a.Reaches c := by
  induction h with
  | ending => exact .onset _
  | single rest _ found => exact (Cursor.Reaches.onset _).trans (single_found rest found).1.takes.1
  | template _ _ ih => exact ((Cursor.Reaches.onset _).trans (.skip _ 1)).trans ih
  | nil => exact .refl _
  | cons _ _ _ first rest => exact first.trans rest
  | close => exact (Cursor.Reaches.textEnd _).trans (.skip _ 1)
  | code _ _ _ _ _ inside closes more =>
    exact ((((Cursor.Reaches.textEnd _).trans (.skip _ 1)).trans inside).trans closes).trans more

/-- A token stands behind trivia, and if it is not the end of input, it takes characters. -/
theorem takes (h : Scans a (.token t) c) : t.span = a.onset.upTo c ∧ a.onset.Reaches c ∧
    (t.kind.isEnd = false → c.rest.length < a.onset.rest.length) := by
  cases h with
  | ending => exact ⟨rfl, .refl _, nofun⟩
  | single rest _ found =>
    obtain ⟨hfound, hspan⟩ := single_found rest found
    exact ⟨hspan, hfound.takes.1, fun _ => hfound.takes.2.1 (by rw [rest]; exact List.cons_ne_nil _ _)⟩
  | template rest filled =>
    exact ⟨rfl, (Cursor.Reaches.skip _ _).trans filled.reaches, fun _ =>
      Nat.lt_of_le_of_lt filled.reaches.length_le (Cursor.length_skip_lt rest Nat.one_pos)⟩

theorem ends (h : Scans a (.token t) c) (hend : t.kind.isEnd) : a.onset.rest = [] ∧ c = a.onset ∧ t = a.ending := by
  cases h with
  | ending rest => exact ⟨rest, rfl, rfl⟩
  | single rest _ found =>
    rw [(single_found rest found).1.takes.2.2] at hend
    cases hend
  | template => cases hend

end Scans

theorem reverse_addText (segments : List (Segment Token)) (value : List Char) :
    (addText segments value).reverse = segments.reverse ++ addText [] value := by
  unfold addText
  split <;> simp

theorem code_notMem_addText {code : List Token} {value : List Char} : .code code ∉ addText [] value := by
  unfold addText
  split <;> simp

/-- What the three scanners that call each other give with some fuel is read. -/
private structure Sound (fuel : Nat) : Prop where
  token {a c : Cursor} {t : Token} : token fuel a = .ok (t, c) → Scans a (.token t) c
  template {start a c : Cursor} {done out : List (Segment Token)} : template fuel start a done = .ok (out, c) →
    ∃ segments, out = done.reverse ++ segments ∧ Scans a (.segments segments) c
  interpolation {start a c : Cursor} {depth : Nat} {done out : List Token} :
    interpolation fuel start a depth done = .ok (out, c) →
    ∃ body b closing, out = done.reverse ++ body ++ [⟨.endOfInput, closing⟩] ∧ Scans a (.tokens body) b ∧
      Scans b (.token ⟨.symbol .rightBrace, closing⟩) c ∧ Token.Balanced depth body

private theorem sound_token (ih : Sound fuel) (h : token (fuel + 1) a = .ok (t, c)) : Scans a (.token t) c := by
  cases hrest : a.onset.rest with
  | nil =>
    rw [token_nil fuel hrest] at h
    cases h
    exact .ending hrest
  | cons first others =>
    by_cases hfirst : first = '\x60'
    · subst hfirst
      rw [token_template fuel hrest] at h
      cases htemplate : template fuel a.onset (a.onset.skip 1) [] with
      | error =>
        rw [htemplate] at h
        cases h
      | ok out =>
        rw [htemplate] at h
        cases h
        obtain ⟨segments, hout, hfilled⟩ := ih.template htemplate
        rw [hout]
        exact .template hrest hfilled
    · rw [token_single fuel hrest hfirst] at h
      exact .single hrest hfirst h

private theorem sound_template (ih : Sound fuel) {done out : List (Segment Token)}
    (h : template (fuel + 1) start a done = .ok (out, c)) :
    ∃ segments, out = done.reverse ++ segments ∧ Scans a (.segments segments) c := by
  rcases textEnd_cases a with hrest | ⟨others, hrest⟩ | ⟨others, hrest⟩
  · rw [template_nil fuel start done hrest] at h
    cases h
  · rw [template_close fuel start done hrest] at h
    cases h
    exact ⟨_, reverse_addText done _, .close hrest⟩
  · rw [template_code fuel start done hrest] at h
    cases hcode : interpolation fuel (a.textEnd.skip 1) (a.textEnd.skip 1) 0 [] with
    | error =>
      rw [hcode] at h
      cases h
    | ok result =>
      obtain ⟨code, behind⟩ := result
      rw [hcode] at h
      obtain ⟨body, b, closing, rfl, hbody, hcloses, hbalanced⟩ := ih.interpolation hcode
      obtain ⟨segments, rfl, hmore⟩ := ih.template h
      refine ⟨_, ?_, .code hrest hbody hcloses hbalanced hmore⟩
      simp [reverse_addText]

private theorem sound_interpolation (ih : Sound fuel) {depth : Nat}
    (h : interpolation (fuel + 1) start a depth done = .ok (out, c)) :
    ∃ body b closing, out = done.reverse ++ body ++ [⟨.endOfInput, closing⟩] ∧ Scans a (.tokens body) b ∧
      Scans b (.token ⟨.symbol .rightBrace, closing⟩) c ∧ Token.Balanced depth body := by
  cases hnext : token fuel a with
  | error =>
    rw [interpolation_error start depth done hnext] at h
    cases h
  | ok result =>
    obtain ⟨next, behind⟩ := result
    have hfirst := ih.token hnext
    rcases interpolation_cases start depth done hnext with
      ⟨-, heq⟩ | ⟨rfl, hkind, heq⟩ | ⟨depth', hend, hdepth, heq⟩ <;> rw [heq] at h
    · cases h
    · cases h
      obtain ⟨kind, span⟩ := next
      cases hkind
      exact ⟨[], a, span, by simp, .nil a, hfirst, .nil⟩
    · obtain ⟨body, b, closing, rfl, hbody, hclose, hbalanced⟩ := ih.interpolation h
      exact ⟨next :: body, b, closing, by simp, .cons hfirst hend hbody, hclose,
        (Token.balanced_cons hdepth).mpr hbalanced⟩

private theorem sound (fuel : Nat) : Sound fuel := by
  induction fuel with
  | zero => exact ⟨nofun, nofun, nofun⟩
  | succ fuel ih => exact ⟨sound_token ih, sound_template ih, sound_interpolation ih⟩

theorem scans_of_token (h : token fuel a = .ok (t, c)) : Scans a (.token t) c := (sound fuel).token h

theorem interpolation_reaches {fuel depth : Nat}
    (h : interpolation fuel start a depth done = .ok (out, c)) : a.Reaches c := by
  obtain ⟨body, b, closing, -, hbody, hcloses, -⟩ := (sound fuel).interpolation h
  exact hbody.reaches.trans hcloses.reaches

/-- The scanners give a piece whenever they have fuel for the characters that are left. -/
def Piece.Given (a : Cursor) : Piece → Cursor → Prop
  | .token t, c => ∀ fuel, 2 * a.rest.length + 1 ≤ fuel → Scan.token fuel a = .ok (t, c)
  | .tokens ts, b => ∀ closing c,
    (∀ fuel, 2 * b.rest.length + 1 ≤ fuel → Scan.token fuel b = .ok (⟨.symbol .rightBrace, closing⟩, c)) →
    ∀ fuel start depth done, 2 * a.rest.length + 2 ≤ fuel → Token.Balanced depth ts →
      interpolation fuel start a depth done = .ok (done.reverse ++ ts ++ [⟨.endOfInput, closing⟩], c)
  | .segments parts, c => ∀ fuel start done, 2 * a.rest.length + 1 ≤ fuel →
    template fuel start a done = .ok (done.reverse ++ parts, c)

/-- What is read is given. -/
theorem Scans.given (h : Scans a p c) : p.Given a c := by
  induction h with
  | ending rest =>
    rintro (_ | fuel) hfuel
    · omega
    · exact token_nil fuel rest
  | single rest plain found =>
    rintro (_ | fuel) hfuel
    · omega
    · exact (token_single fuel rest plain).trans found
  | @template a others segments c rest filled ih =>
    rintro (_ | fuel) hfuel
    · omega
    · have hle := (Cursor.Reaches.onset a).length_le
      have hlt := Cursor.length_skip_lt rest Nat.one_pos
      rw [token_template fuel rest, ih fuel a.onset [] (by omega)]
      rfl
  | nil a =>
    rintro closing c hcloses (_ | fuel) start depth done hfuel hbalanced
    · omega
    · obtain rfl : 0 = depth := Nat.add_left_cancel (hbalanced.total : 0 + 0 = 0 + depth)
      rw [interpolation, hcloses fuel (by omega), List.append_nil]
      exact congrArg (fun out => Except.ok (out, c)) List.reverse_cons
  | @cons a t b ts c first isEnd rest ihFirst ihRest =>
    rintro closing d hcloses (_ | fuel) start depth done hfuel hbalanced
    · omega
    · have hlt := Nat.lt_of_lt_of_le (first.takes.2.2 isEnd) (Cursor.Reaches.onset a).length_le
      rcases interpolation_cases start depth done (ihFirst fuel (by omega)) with
        ⟨hend, -⟩ | ⟨rfl, hkind, -⟩ | ⟨depth', -, hdepth, heq⟩
      · rw [isEnd] at hend
        cases hend
      · have hopened := hbalanced.opened [t] (List.prefix_append [t] ts)
        simp [Token.braces, hkind, TokenKind.isSymbol] at hopened
      · rw [heq, ihRest closing d hcloses fuel start depth' (t :: done) (by omega)
          ((Token.balanced_cons hdepth).mp hbalanced)]
        simp
  | @close a others rest =>
    rintro (_ | fuel) start done hfuel
    · omega
    · rw [template_close fuel start done rest, reverse_addText]
      rfl
  | @code a others body b closing c segments d rest inside closes balanced more ihInside ihCloses ihMore =>
    rintro (_ | fuel) start done hfuel
    · omega
    · have hle := (Cursor.Reaches.textEnd a).length_le
      have hlt := Cursor.length_skip_lt rest Nat.one_pos
      have hpast := (inside.reaches.trans closes.reaches).length_le
      rw [template_code fuel start done rest,
        ihInside closing c ihCloses fuel (a.textEnd.skip 1) 0 [] (by omega) balanced]
      change Scan.template fuel start c _ = _
      rw [ihMore fuel start _ (by omega)]
      simp [reverse_addText]

/-- All tokens are read one after the other, up to the end of input. -/
theorem tokens_scanned {tokens : List Token} (h : Scan.tokens fuel a = .ok tokens) :
    ∃ body b, tokens = body ++ [b.ending] ∧ Scans a (.tokens body) b ∧ b.onset.rest = [] := by
  induction fuel generalizing a tokens with
  | zero => cases h
  | succ fuel ih =>
    rw [Scan.tokens] at h
    cases hnext : token fuel a with
    | error =>
      rw [hnext] at h
      cases h
    | ok result =>
      obtain ⟨next, behind⟩ := result
      have hfirst := scans_of_token hnext
      rw [hnext] at h
      simp only [bind, Except.bind] at h
      split at h
      next hend =>
        cases h
        obtain ⟨hrest, rfl, rfl⟩ := hfirst.ends hend
        exact ⟨[], a, rfl, .nil a, hrest⟩
      next hend =>
        cases hrest : Scan.tokens fuel behind with
        | error =>
          rw [hrest] at h
          cases h
        | ok rest =>
          rw [hrest] at h
          cases h
          obtain ⟨body, b, rfl, hbody, hlast⟩ := ih hrest
          exact ⟨next :: body, b, rfl, .cons hfirst (by simpa using hend) hbody, hlast⟩

theorem tokens_of_scans (h : Scans a (.tokens ts) b) (hlast : b.onset.rest = [])
    (hfuel : 2 * a.rest.length + 2 ≤ fuel) : Scan.tokens fuel a = .ok (ts ++ [b.ending]) := by
  obtain ⟨fuel, rfl⟩ : ∃ n, fuel = n + 1 := ⟨fuel - 1, by omega⟩
  induction ts generalizing a fuel with
  | nil =>
    cases h
    rw [Scan.tokens, (Scans.ending hlast).given fuel (by omega)]
    rfl
  | cons t ts ih =>
    cases h with
    | cons first isEnd rest =>
      have hlt := Nat.lt_of_lt_of_le (first.takes.2.2 isEnd) (Cursor.Reaches.onset a).length_le
      obtain ⟨fuel, rfl⟩ : ∃ n, fuel = n + 1 := ⟨fuel - 1, by omega⟩
      rw [Scan.tokens, first.given (fuel + 1) (by omega)]
      simp only [bind, Except.bind, isEnd, Bool.false_eq_true, if_false, ih rest fuel (by omega)]
      rfl

theorem Scans.isEnd (h : Scans a (.tokens ts) b) : ∀ t ∈ ts, t.kind.isEnd = false := by
  induction ts generalizing a with
  | nil => exact List.forall_mem_nil _
  | cons t ts ih =>
    cases h with
    | cons first isEnd rest => exact List.forall_mem_cons.mpr ⟨isEnd, ih rest⟩

theorem Scans.append {ts us : List Token} (h : Scans a (.tokens ts) b) (h' : Scans b (.tokens us) c) :
    Scans a (.tokens (ts ++ us)) c := by
  induction ts generalizing a with
  | nil =>
    cases h
    exact h'
  | cons t ts ih =>
    cases h with
    | cons first isEnd rest => exact .cons first isEnd (ih rest)

end Scan

theorem tokenize_of_scans {source : String} {b : Cursor} (h : Scan.Scans (.ofText source) (.tokens ts) b)
    (hlast : b.onset.rest = []) : tokenize source = .ok (ts ++ [b.ending]) := by
  refine Scan.tokens_of_scans h hlast ?_
  rw [Cursor.ofText, String.length_toList]
  omega

end ScriptLang
