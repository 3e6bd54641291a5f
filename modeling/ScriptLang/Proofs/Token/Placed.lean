import ScriptLang.Proofs.Token.Run

/-! Where tokens stand. Main statement: the tokens of a text stand in order, each between two places of
the text, and those of code in a template stand inside of it. -/
namespace ScriptLang

variable {tokens : List Token}

namespace Position

theorem index_le_next (p : Position) (c : Char) : p.index < (p.next c).index := by
  have := c.utf8Size_pos
  unfold next
  split <;> simp only <;> omega

theorem index_le_after (p : Position) (cs : List Char) : p.index ≤ (p.after cs).index := by
  induction cs generalizing p with
  | nil => exact Nat.le_refl _
  | cons c cs ih => exact Nat.le_trans (Nat.le_of_lt (p.index_le_next c)) (ih (p.next c))

end Position

namespace Cursor

theorem Reaches.index_le {a b : Cursor} (h : a.Reaches b) : a.place.index ≤ b.place.index := by
  obtain ⟨taken, _, hplace⟩ := h
  rw [hplace]
  exact a.place.index_le_after taken

def Holds (a : Cursor) (p : Position) : Prop := ∃ b, a.Reaches b ∧ b.place = p

end Cursor

/-- Tokens in order between two places; the last one, and no other, is the end of input. -/
structure Row (lo hi : Nat) (tokens : List Token) : Prop where
  ordered : tokens.Pairwise fun a b => a.span.stop.index ≤ b.span.start.index
  inside : ∀ t ∈ tokens,
    lo ≤ t.span.start.index ∧ t.span.start.index ≤ t.span.stop.index ∧ t.span.stop.index ≤ hi
  ending : ∃ init last, tokens = init ++ [last] ∧ last.kind.isEnd ∧ ∀ t ∈ init, t.kind.isEnd = false

theorem Row.widen {lo hi lo' hi' : Nat} (h : Row lo hi tokens) (hlo : lo' ≤ lo)
    (hhi : hi ≤ hi') : Row lo' hi' tokens := by
  refine ⟨h.ordered, fun t ht => ?_, h.ending⟩
  obtain ⟨hstart, horder, hstop⟩ := h.inside t ht
  exact ⟨Nat.le_trans hlo hstart, horder, Nat.le_trans hstop hhi⟩

theorem Row.single {t : Token} (hend : t.kind.isEnd) (h : t.span.start.index ≤ t.span.stop.index) :
    Row t.span.start.index t.span.stop.index [t] := by
  refine ⟨List.pairwise_singleton .., fun u hu => ?_, [], t, rfl, hend, by simp⟩
  rw [List.mem_singleton.mp hu]
  exact ⟨Nat.le_refl _, h, Nat.le_refl _⟩

theorem Row.cons {hi : Nat} {t : Token} {rest : List Token} (hend : t.kind.isEnd = false)
    (h : t.span.start.index ≤ t.span.stop.index) (hrest : Row t.span.stop.index hi rest) :
    Row t.span.start.index hi (t :: rest) := by
  obtain ⟨init, last, hlist, hlast, hinit⟩ := hrest.ending
  have hhi : t.span.stop.index ≤ hi := by
    obtain ⟨hlo, hmid, hhi⟩ := hrest.inside last (by simp [hlist])
    omega
  refine ⟨.cons (fun u hu => (hrest.inside u hu).1) hrest.ordered, fun u hu => ?_,
    t :: init, last, by rw [hlist, List.cons_append], hlast, fun u hu => ?_⟩
  · rcases List.mem_cons.mp hu with rfl | hu
    · exact ⟨Nat.le_refl _, h, hhi⟩
    · obtain ⟨hstart, hmid, hstop⟩ := hrest.inside u hu
      exact ⟨Nat.le_trans h hstart, hmid, hstop⟩
  · rcases List.mem_cons.mp hu with rfl | hu
    · exact hend
    · exact hinit u hu

/-- A token between two places of the text, with the tokens of its code in order inside of it. -/
inductive Token.Placed (text : Cursor) : Token → Prop
  | mk {kind span} (start : text.Holds span.start) (stop : text.Holds span.stop)
      (order : ∀ segments tokens, kind = .template segments → Segment.code tokens ∈ segments →
        Row span.start.index span.stop.index tokens)
      (code : ∀ segments tokens, kind = .template segments → Segment.code tokens ∈ segments →
        ∀ t ∈ tokens, Token.Placed text t) :
      Placed text ⟨kind, span⟩

namespace Scan

variable {text a b c : Cursor}

/-- Tokens that are read one after the other stand in order, and so does an end of input behind them. -/
theorem Scans.row {ts : List Token} (h : Scans a (.tokens ts) b) (last : Token) (hlast : last.kind.isEnd)
    (hstart : b.place.index ≤ last.span.start.index) (horder : last.span.start.index ≤ last.span.stop.index) :
    Row a.place.index last.span.stop.index (ts ++ [last]) := by
  induction ts generalizing a with
  | nil =>
    cases h
    exact (Row.single hlast horder).widen hstart (Nat.le_refl _)
  | cons t ts ih =>
    cases h with
    | cons first isEnd rest =>
      obtain ⟨hspan, htaken, -⟩ := first.takes
      have hrow := ih rest
      refine (Row.cons isEnd ?_ ?_).widen ?_ (Nat.le_refl _)
      · rw [hspan]
        exact htaken.index_le
      · rw [hspan]
        exact hrow
      · rw [hspan]
        exact (Cursor.Reaches.onset a).index_le

/-- The tokens of a piece that is read between two cursors are placed in the text, and those of code in order. -/
private def Piece.Placed (text a : Cursor) : Piece → Cursor → Prop
  | .token t, _ => t.Placed text
  | .tokens ts, _ => ∀ t ∈ ts, t.Placed text
  | .segments parts, c => ∀ code, .code code ∈ parts →
    Row a.place.index c.place.index code ∧ ∀ t ∈ code, t.Placed text

/-- A token that is no template is placed where it was read. -/
private theorem placed_plain {kind : TokenKind Token} (hkind : ∀ segments, kind ≠ .template segments)
    (ha : text.Reaches a) (hab : a.Reaches b) : Token.Placed text ⟨kind, a.upTo b⟩ :=
  .mk ⟨a, ha, rfl⟩ ⟨b, ha.trans hab, rfl⟩ (fun segments _ h => absurd h (hkind segments))
    fun segments _ h => absurd h (hkind segments)

theorem Scans.placed {p : Piece} (h : Scans a p c) (ha : text.Reaches a) : p.Placed text a c := by
  induction h with
  | ending => exact placed_plain nofun (ha.trans (.onset _)) (.refl _)
  | @single a first others t c rest plain found =>
    obtain ⟨hfound, hspan⟩ := single_found rest found
    obtain ⟨kind, span⟩ := t
    cases hspan
    refine placed_plain (fun segments hkind => ?_) (ha.trans (.onset a)) hfound.takes.1
    cases hkind
    cases hfound
  | @template a others segments c rest filled ih =>
    have honset := ha.trans (.onset a)
    have hone := Cursor.Reaches.skip a.onset 1
    refine .mk ⟨_, honset, rfl⟩ ⟨c, honset.trans (hone.trans filled.reaches), rfl⟩ ?_ ?_
    · rintro _ code ⟨⟩ hcode
      exact (ih (honset.trans hone) code hcode).1.widen hone.index_le (Nat.le_refl _)
    · rintro _ code ⟨⟩ hcode
      exact (ih (honset.trans hone) code hcode).2
  | nil => exact List.forall_mem_nil _
  | cons first _ _ ihFirst ihRest => exact List.forall_mem_cons.mpr ⟨ihFirst ha, ihRest (ha.trans first.reaches)⟩
  | close => exact fun code hcode => absurd hcode code_notMem_addText
  | @code a others body b closing c segments d rest inside closes balanced more ihInside ihCloses ihMore =>
    have hopen := (Cursor.Reaches.textEnd a).trans (.skip _ 1)
    have hb := hopen.trans inside.reaches
    obtain ⟨rfl, htaken, -⟩ := closes.takes
    intro code hcode
    rcases List.mem_cons.mp ((List.mem_append.mp hcode).resolve_left code_notMem_addText) with hsame | hcode
    · cases hsame
      have hrow := inside.row ⟨.endOfInput, b.onset.upTo c⟩ rfl (Cursor.Reaches.onset b).index_le
        htaken.index_le
      refine ⟨hrow.widen hopen.index_le more.reaches.index_le, fun t ht => ?_⟩
      rcases List.mem_append.mp ht with ht | ht
      · exact ihInside (ha.trans hopen) t ht
      · rw [List.mem_singleton.mp ht]
        exact placed_plain nofun ((ha.trans hb).trans (.onset b)) htaken
    · have hc := hb.trans closes.reaches
      obtain ⟨hrow, hplaced⟩ := ihMore (ha.trans hc) code hcode
      exact ⟨hrow.widen hc.index_le (Nat.le_refl _), hplaced⟩

/-- The tokens of a text stand in order, and each between places of the text. -/
theorem tokens_placed {fuel : Nat} (ha : text.Reaches a) (h : Scan.tokens fuel a = .ok tokens) :
    (∃ hi, Row a.place.index hi tokens) ∧ ∀ t ∈ tokens, t.Placed text := by
  obtain ⟨body, b, rfl, hbody, -⟩ := tokens_scanned h
  refine ⟨⟨_, hbody.row _ rfl (Cursor.Reaches.onset b).index_le (Nat.le_refl _)⟩, fun t ht => ?_⟩
  rcases List.mem_append.mp ht with ht | ht
  · exact hbody.placed ha t ht
  · rw [List.mem_singleton.mp ht]
    exact placed_plain nofun ((ha.trans hbody.reaches).trans (.onset b)) (.refl _)

end Scan

end ScriptLang
