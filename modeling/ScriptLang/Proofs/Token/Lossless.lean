import ScriptLang.Proofs.Token.Covered

/-! Nothing is lost in scanning. Main statement: the tokens of a text account for all of it but for trivia,
and so do the tokens of code in a template for what stands between its braces. -/
namespace ScriptLang

namespace Scan

variable {source : String} {a b c : Cursor} {ts : List Token}

/-- All between `a` and what comes behind the last token is covered by the tokens. -/
theorem Scans.covers (h : Scans a (.tokens ts) b) (ha : (Cursor.ofText source).Reaches a) :
    Covers source a.place.index b.onset.place.index ts := by
  induction ts generalizing a with
  | nil =>
    cases h
    exact .nil ha.gap
  | cons t ts ih =>
    cases h with
    | @cons _ _ d _ _ first isEnd rest =>
      obtain ⟨hspan, htaken, hshorter⟩ := first.takes
      have honset := Cursor.Reaches.onset a
      have hd := honset.trans htaken
      have hlast := rest.reaches.trans (.onset b)
      obtain ⟨kind, _⟩ := t
      cases hspan
      refine .cons isEnd ha.gap (htaken.index_lt (hshorter isEnd)) hlast.index_le ?_ (ih rest (ha.trans hd))
      change Text.slice source a.place.index a.onset.place.index ++
        Text.slice source a.onset.place.index d.place.index ++
        Text.slice source d.place.index b.onset.place.index = _
      rw [ha.slice_append honset htaken, ha.slice_append hd hlast]

/-- Code in braces, from `a` up to `c`. The closing brace counts as its end of input. -/
structure Enclosed (a : Cursor) (code : List Token) (c : Cursor) : Prop where
  opens : ∃ others, a.rest = '\x7b' :: others
  closes : ∃ body b closing, Scans (a.skip 1) (.tokens body) b ∧
    Scans b (.token ⟨.symbol .rightBrace, closing⟩) c ∧
    code = body ++ [⟨.endOfInput, closing⟩] ∧ Token.Balanced 0 body

/-- The segments of a template from `a` up to `c`, behind its closing backtick: texts, and between
them code in braces. -/
inductive Laid : Cursor → List (Segment Token) → Cursor → Prop
  | close {a others} (rest : a.textEnd.rest = '\x60' :: others) :
      Laid a (addText [] (textRun endsSegment a.rest).1) (a.textEnd.skip 1)
  | code {a b c code segments} (enclosed : Enclosed a.textEnd code b) (more : Laid b segments c) :
      Laid a (addText [] (textRun endsSegment a.rest).1 ++ .code code :: segments) c

/-- A template is read segment by segment up to its closing backtick. -/
theorem Scans.laid {p : Piece} {segments : List (Segment Token)} (h : Scans a p c) (hp : p = .segments segments) :
    Laid a segments c := by
  induction h generalizing segments with
  | close rest =>
    cases hp
    exact .close rest
  | code rest inside closes balanced _ _ _ ih =>
    cases hp
    exact .code ⟨⟨_, rest⟩, _, _, _, inside, closes, rfl, balanced⟩ (ih rfl)
  | _ => cases hp

end Scan

def Segment.tokens {τ : Type} : Segment τ → List τ
  | .text _ => []
  | .code tokens => tokens

/-- Code in braces, not before the place `lo`: all between the braces is covered by tokens, and the
closing one counts as the end of input. -/
def InBraces (source : String) (lo : Nat) (code : List Token) : Prop :=
  ∃ opening body closing, lo ≤ opening ∧ Text.slice source opening (opening + 1) = "\x7b" ∧
    Text.slice source closing.start.index closing.stop.index = "\x7d" ∧
    code = body ++ [⟨.endOfInput, closing⟩] ∧ Covers source (opening + 1) closing.start.index body

namespace Scan

variable {source : String} {a b c : Cursor}

theorem closing_found {closing : Span} (h : Scans b (.token ⟨.symbol .rightBrace, closing⟩) c) :
    ∃ others, b.onset.rest = '\x7d' :: others ∧ c = b.onset.skip 1 ∧ closing = b.onset.upTo c := by
  cases h with
  | single rest _ found =>
    obtain ⟨hfound, hspan⟩ := single_found rest found
    cases hfound with
    | symbol _ longest =>
      obtain ⟨others, hrest⟩ := (munch?_spelled longest).2
      exact ⟨others, hrest.symm, rfl, hspan⟩

namespace Enclosed

variable {code : List Token}

variable (h : Enclosed a code c)

include h

theorem reaches_inside : (a.skip 1).Reaches c := by
  obtain ⟨body, b, closing, hbody, hcloses, -⟩ := h.closes
  exact hbody.reaches.trans hcloses.reaches

theorem reaches : a.Reaches c := (Cursor.Reaches.skip a 1).trans h.reaches_inside

theorem lined (ha : (Cursor.ofText source).Reaches a) : Lined a.place.index c.place.index code := by
  obtain ⟨body, b, closing, hbody, hcloses, rfl, -⟩ := h.closes
  obtain ⟨rfl, htaken, hshorter⟩ := hcloses.takes
  have hskip := Cursor.Reaches.skip a 1
  have hne := htaken.index_lt (hshorter rfl)
  have hlast : Lined b.onset.place.index c.place.index [⟨.endOfInput, b.onset.upTo c⟩] :=
    Lined.single ⟨.endOfInput, b.onset.upTo c⟩ hne
  have hcovers := hbody.covers (ha.trans hskip)
  have hle := ((hskip.trans hbody.reaches).trans (.onset b)).index_le
  exact (hcovers.toLined.widen hskip.index_le (Nat.le_refl _)).append hlast hle (Nat.le_of_lt hne)

theorem inBraces {lo : Nat} (ha : (Cursor.ofText source).Reaches a) (hlo : lo ≤ a.place.index) :
    InBraces source lo code := by
  obtain ⟨others, hrest⟩ := h.opens
  obtain ⟨body, b, closing, hbody, hcloses, rfl, -⟩ := h.closes
  obtain ⟨others', hrest', rfl, rfl⟩ := closing_found hcloses
  have hskip := Cursor.Reaches.skip a 1
  have hone : (a.skip 1).place.index = a.place.index + 1 := by
    rw [Cursor.skip, hrest]
    rfl
  have hb := (ha.trans hskip).trans hbody.reaches
  refine ⟨a.place.index, body, _, hlo, ?_, ?_, rfl, ?_⟩
  · rw [← hone]
    exact ha.slice_eq hskip (by rw [Cursor.skip, hrest]; rfl)
  · exact (hb.trans (.onset b)).slice_eq (.skip _ 1) (by rw [hrest', Cursor.skip, hrest']; rfl)
  · rw [← hone]
    exact hbody.covers (ha.trans hskip)

end Enclosed

namespace Laid

variable {segments : List (Segment Token)}

theorem reaches (h : Laid a segments c) : a.Reaches c := by
  induction h with
  | close => exact (Cursor.Reaches.textEnd _).trans (.skip _ 1)
  | code enclosed _ ih => exact ((Cursor.Reaches.textEnd _).trans enclosed.reaches).trans ih

private theorem flatMap_addText (value : List Char) : (addText [] value).flatMap Segment.tokens = [] := by
  unfold addText
  split <;> rfl

/-- The tokens of all code stand in order. -/
theorem lined (h : Laid a segments c) (ha : (Cursor.ofText source).Reaches a) :
    Lined a.place.index c.place.index (segments.flatMap Segment.tokens) := by
  induction h with
  | close =>
    rw [flatMap_addText]
    exact .nil _ _
  | @code a b c code segments enclosed more ih =>
    have hskip := Cursor.Reaches.textEnd a
    have hcode := (enclosed.lined (ha.trans hskip)).widen hskip.index_le (Nat.le_refl _)
    have hb := hskip.trans enclosed.reaches
    rw [List.flatMap_append, flatMap_addText, List.nil_append, List.flatMap_cons]
    exact hcode.append (ih (ha.trans hb)) hb.index_le more.reaches.index_le

/-- The code of every segment stands in braces. -/
theorem exists_enclosed (h : Laid a segments c) {code : List Token} (hcode : .code code ∈ segments) :
    ∃ b d, a.Reaches b ∧ Enclosed b code d := by
  induction h with
  | close => exact absurd hcode code_notMem_addText
  | @code a b c other segments enclosed more ih =>
    have hskip := Cursor.Reaches.textEnd a
    rcases List.mem_cons.mp ((List.mem_append.mp hcode).resolve_left code_notMem_addText) with heq | hcode
    · cases heq
      exact ⟨_, b, hskip, enclosed⟩
    · obtain ⟨d, e, hreach, henclosed⟩ := ih hcode
      exact ⟨d, e, (hskip.trans enclosed.reaches).trans hreach, henclosed⟩

end Laid

end Scan

/-- The tokens of a list, and those of the code in templates, however deep. -/
inductive Token.StandsIn (tokens : List Token) : Token → Prop
  | here {t} (mem : t ∈ tokens) : StandsIn tokens t
  | deeper {t u segments code} (outer : StandsIn tokens t) (kind : t.kind = .template segments)
      (inner : .code code ∈ segments) (mem : u ∈ code) : StandsIn tokens u

/-- Tokens that account for all of a text. Only trivia stand before, between and behind them, and an
empty end of input comes last. The same holds of the code in their templates, however deep, but that
there the closing brace is the end of input. -/
structure Lossless (source : String) (tokens : List Token) : Prop where
  ending : ∃ body, tokens = body ++ [⟨.endOfInput, .point (.after .origin source.toList)⟩] ∧
    Covers source 0 source.utf8ByteSize body ∧ Token.joined source 0 source.utf8ByteSize body = source
  places : ∀ t, Token.StandsIn tokens t → t.span.Within source
  templates : ∀ t segments, Token.StandsIn tokens t → t.kind = .template segments →
    Lined t.span.start.index t.span.stop.index (segments.flatMap Segment.tokens) ∧
    ∀ code, .code code ∈ segments → InBraces source t.span.start.index code

namespace Scan

variable {source : String} {text a b c : Cursor} {t : Token} {tokens : List Token}

structure Traced (text : Cursor) (t : Token) : Prop where
  genuine : t.span.Genuine text
  scanned : t.kind.isEnd = false → ∃ a c, text.Reaches a ∧ Scans a (.token t) c

private theorem traced_of_token (ha : text.Reaches a) (h : Scans a (.token t) c) : Traced text t := by
  obtain ⟨hspan, htaken, -⟩ := h.takes
  have honset := ha.trans (.onset a)
  refine ⟨?_, fun _ => ⟨a, c, ha, h⟩⟩
  rw [hspan]
  exact ⟨⟨_, honset, rfl⟩, ⟨c, honset.trans htaken, rfl⟩, htaken.index_le⟩

/-- Tokens that are read up to `b`, and an end of input behind them. -/
private theorem Scans.traced {ts : List Token} (h : Scans a (.tokens ts) b) (ha : text.Reaches a) {last : Token}
    (hlast : Scans b (.token last) c) : ∀ t ∈ ts ++ [⟨.endOfInput, last.span⟩], Traced text t := by
  induction ts generalizing a with
  | nil =>
    cases h
    exact List.forall_mem_cons.mpr ⟨⟨(traced_of_token ha hlast).genuine, nofun⟩, List.forall_mem_nil _⟩
  | cons t ts ih =>
    cases h with
    | cons first _ rest =>
      exact List.forall_mem_cons.mpr ⟨traced_of_token ha first, ih rest (ha.trans first.reaches)⟩

/-- A template is laid out behind its opening backtick. -/
theorem Traced.laid {segments : List (Segment Token)} (h : Traced text t) (hkind : t.kind = .template segments) :
    ∃ b c others, text.Reaches b ∧ b.rest = '\x60' :: others ∧ Laid (b.skip 1) segments c ∧ t.span = b.upTo c := by
  obtain ⟨a, c, ha, hscans⟩ := h.scanned (by rw [hkind]; rfl)
  obtain ⟨kind, span⟩ := t
  cases hkind
  cases hscans with
  | single rest _ found => cases (single_found rest found).1
  | template rest filled => exact ⟨_, c, _, ha.trans (.onset a), rest, filled.laid rfl, rfl⟩

/-- Where the tokens of a list were scanned, so were those of the code in them. -/
theorem traced (h : ∀ t ∈ tokens, Traced text t) (ht : t.StandsIn tokens) : Traced text t := by
  induction ht with
  | here mem => exact h _ mem
  | deeper _ kind inner mem ih =>
    obtain ⟨b, c, others, hb, -, hlaid, -⟩ := ih.laid kind
    obtain ⟨d, e, hreach, henclosed⟩ := hlaid.exists_enclosed inner
    obtain ⟨body, f, closing, hbody, hcloses, rfl, -⟩ := henclosed.closes
    exact hbody.traced (((hb.trans (.skip b 1)).trans hreach).trans (.skip d 1)) hcloses _ mem

theorem tokens_traced {fuel : Nat} (ha : text.Reaches a)
    (h : Scan.tokens fuel a = .ok tokens) : ∀ t ∈ tokens, Traced text t := by
  obtain ⟨body, b, rfl, hbody, hlast⟩ := tokens_scanned h
  exact hbody.traced ha (.ending hlast)

end Scan

/-- Where a text has tokens, they account for all of it. -/
theorem tokenize_lossless {source : String} {tokens : List Token} (h : tokenize source = .ok tokens) :
    Lossless source tokens := by
  have htraced := Scan.tokens_traced (.refl _) h
  obtain ⟨body, b, rfl, hbody, hnone⟩ := Scan.tokens_scanned h
  -- The end of input stands behind all characters.
  have hstart := Cursor.Reaches.refl (.ofText source)
  have hplace := (hbody.reaches.trans (.onset b)).place_eq hnone
  have hsize : b.onset.place.index = source.utf8ByteSize := by
    rw [hplace, Position.origin_after, String.ofList_toList]
  have hcovers : Covers source 0 source.utf8ByteSize body := by
    rw [← hsize]
    exact hbody.covers hstart
  refine ⟨⟨body, ?_, hcovers, ?_⟩, fun t ht => (Scan.traced htraced ht).genuine.within, ?_⟩
  · rw [← hplace]
    rfl
  · rw [hcovers.lossless]
    exact hstart.slice_behind.trans (String.ofList_toList)
  · intro t segments ht hkind
    obtain ⟨b, c, others, hb, -, hlaid, hspan⟩ := (Scan.traced htraced ht).laid hkind
    have hone := Cursor.Reaches.skip b 1
    rw [hspan]
    refine ⟨(hlaid.lined (hb.trans hone)).widen hone.index_le (Nat.le_refl _), fun code hcode => ?_⟩
    obtain ⟨d, e, hreach, henclosed⟩ := hlaid.exists_enclosed hcode
    exact henclosed.inBraces ((hb.trans hone).trans hreach) (hone.trans hreach).index_le

/-- Nothing is lost of a text with letters of two bytes, a template in the code of another one, a comment
that holds a brace, a line that is continued and a comment at the end. -/
theorem tokenize_lossless_nested :
    let source := "x = `é\x7bf(\"\x7d\") + `\x7b1\x7dü` # \x7d\n\x7d\\n` \\\n + y # done"
    ∃ tokens, tokenize source = .ok tokens ∧ Lossless source tokens := by
  intro source
  have hok : (tokenize source).isOk = true := by decide +kernel
  cases htokens : tokenize source with
  | error =>
    rw [htokens] at hok
    cases hok
  | ok tokens => exact ⟨tokens, rfl, tokenize_lossless htokens⟩

end ScriptLang
