import ScriptLang.Proofs.Grammar.Halting
import ScriptLang.Proofs.Passage.Program

/-! Programs in a passage. Main statement: two programs with a line break between them are read one
after the other. -/
namespace ScriptLang

open ScriptLang.Parser
open Likeness (Like)

section Openings

variable {C : Corpus} {g : Grammar} {r : Surroundings} {s : ParseState} {nodes : List Node} {id : Nat}

theorem ParseState.AtEnd.closesBlock (h : s.AtEnd) : s.stream.current.kind.closesBlock = true := by
  rw [show s.stream.current.kind = _ from h]
  rfl

theorem Opening.opensBranch?_eq_none (h : Opening g r s nodes id) : s.kind.opensBranch? = none := by
  cases h with
  | finished hend =>
    rw [show s.kind = _ from hend]
    rfl
  | statement hopens =>
    rw [ParseState.kind]
    generalize s.stream.current.kind = k at hopens
    cases k with
    | keyword word => cases word <;> first | rfl | cases hopens
    | _ => rfl

mutual

/-- Each statement takes a token. -/
theorem Opening.length_lt (hg : Forward C Pairing.any.left moves g.statement) :
    ∀ {s : ParseState} {nodes : List Node} {id : Nat}, Opening g r s nodes id → C.Holds s →
      nodes.length < s.tokens.length
  | _, _, _, .finished _, _ => Nat.succ_pos _
  | s, _, _, .statement _ hrun rest, hs => by
    obtain ⟨hsuffix, hmoved⟩ := hg r s _ _ hs (Pairing.left_any _) hrun
    have hrest := rest.length_lt hg (hs.suffix hsuffix)
    have := hmoved trivial
    rw [List.length_cons]
    omega

theorem Remaining.length_lt (hg : Forward C Pairing.any.left moves g.statement) :
    ∀ {s : ParseState} {nodes : List Node} {id : Nat}, Remaining g r s nodes id → C.Holds s →
      nodes.length < s.tokens.length
  | _, _, _, .finished _, _ => Nat.succ_pos _
  | s, _, _, .line _ rest, hs => by
    have hsuffix : s.skipped.tokens <:+ s.tokens := s.stream.skipNewlines_suffix
    exact Nat.lt_of_lt_of_le (rest.length_lt hg (hs.suffix hsuffix)) hsuffix.length_le

end

end Openings

section Following

variable {C : Corpus} {F : Seam} {g g' : Grammar} {r r' : Surroundings} {s s' : ParseState} {n : Nat}

theorem Seam.Reads.eq_left (h : F.Reads C s s') (hs' : s'.tokens = F.right) : s.tokens = F.left := by
  obtain ⟨xs, xs', hwords, hleft, hright⟩ := h.tokens
  obtain rfl : xs' = [] := List.append_left_eq_self.mp (hright.symm.trans hs')
  cases hwords
  exact hleft

/-- A line break is at hand behind line breaks only if nothing else follows. -/
private theorem behindNewlines_rest (previous : Span) (current : Token) (rest : List Token)
    (h : (Stream.behindNewlines previous current rest).current.kind.isNewline = true) :
    (Stream.behindNewlines previous current rest).rest = [] := by
  induction rest generalizing previous current with
  | nil => rfl
  | cons next rest ih =>
    rw [Stream.behindNewlines] at h ⊢
    split at h
    next hline =>
      rw [if_pos hline]
      exact ih _ _ h
    next hline => exact absurd h hline

/-- A statement of a text is one of the text in front of others too. -/
theorem statement_followed (hfollowed : F.followed = true)
    (hg : Tandem C F n F.tight .any moves g.statement g'.statement) (hr : F.Around r r') (hs : F.Reads C s s')
    (hn : Token.weights s.tokens ≤ n) (hturns : Token.weights s.tokens < r.turns) {node : Node} {t' : ParseState}
    (hrun : g'.statement r' s' = .ok (node, t')) :
    ∃ node' t, g.statement r s = .ok (node', t) ∧ Like F.scale node' node ∧ F.Reads C t t' ∧
      t.tokens <:+ s.tokens := by
  have hrelated := hg.related r r' s s' hr hs hn hturns ⟨trivial, trivial⟩
  obtain ⟨-, e, hright, he⟩ := F.of_followed hfollowed
  rw [hrun] at hrelated
  generalize g.statement r s = x at hrelated
  cases hrelated with
  | same like reads suffix => exact ⟨_, _, rfl, like, reads, suffix⟩
  | gone right =>
    rw [Seam.GoneRight, Seam.tight, Seam.known_iff.mpr (.inr hfollowed), hright] at right
    cases Nat.le_of_succ_le_succ right
  | lost right assigned =>
    obtain ⟨t, ht, hkind⟩ := assigned
    rw [hright] at ht
    cases ht
    rw [he] at hkind
    cases hkind

/-- A text that stands in front of others: what is read behind it, with functions counted from `id` on. -/
structure Followed (F : Seam) (g : Grammar) (r : Surroundings) (front : List Token) (id : Nat) (more : List Node)
    (last : Nat) : Prop where
  followed : F.followed = true
  exact : F.scale = .exact
  inside : ∀ t ∈ front, t.kind.isEnd = false
  behind : ∀ e next rest, F.left = e :: next :: rest →
    Opening g r ⟨.behindNewlines e.span next rest, id⟩ more last

namespace Followed

variable {front : List Token} {id last : Nat} {more : List Node}

variable (h : Followed F g r front id more last)

include h

/-- At the end of the text alone, the seam is reached. -/
theorem tokens_eq_right (hsuffix : s'.tokens <:+ front ++ F.right) (hend : s'.AtEnd) : s'.tokens = F.right := by
  obtain ⟨-, e, hright, -⟩ := F.of_followed h.followed
  rw [hright] at hsuffix ⊢
  rcases List.suffix_concat_iff.mp hsuffix with hnil | ⟨ts, hts, hfront⟩
  · cases hnil
  · cases ts with
    | nil => exact hts
    | cons first ts =>
      obtain ⟨hfirst, -⟩ := List.cons.inj hts
      have hinside := h.inside first (hfront.subset (List.mem_cons_self ..))
      rw [← hfirst, TokenKind.isEnd_iff.mpr hend] at hinside
      cases hinside

variable (hs : F.Reads C s s')

include hs

theorem similar : F.Similar s.kind s'.kind :=
  hs.similar ((Bool.or_eq_true _ _).mpr (.inr h.followed))

theorem closesBlock (hopens : s'.kind.closesBlock = false) : s.kind.closesBlock = false := by
  have hkinds := h.similar hs
  generalize s.kind = k, s'.kind = k' at hkinds hopens
  cases hkinds with
  | plain => exact hopens
  | template => rfl
  | seam hclosed => exact absurd ((Seam.closed_of_followed h.followed).symm.trans hclosed) Bool.false_ne_true
  | line => cases hopens

theorem isNewline (hline : s'.kind.isNewline = true) : s.kind.isNewline = true := by
  have hkinds := h.similar hs
  generalize s.kind = k, s'.kind = k' at hkinds hline
  cases hkinds with
  | plain => exact hline
  | _ => cases hline

theorem nextId_eq : s.nextId = s'.nextId := by
  have hid := hs.nextId
  rw [h.exact] at hid
  exact hid.symm

theorem remaining (hsuffix : s'.tokens <:+ front ++ F.right) (hend : s'.AtEnd) (hid : s'.nextId = id) :
    Remaining g r s more last := by
  have hleft := hs.eq_left (h.tokens_eq_right hsuffix hend)
  obtain ⟨⟨e, next, rest, hseam, he, -⟩, -⟩ := F.of_followed h.followed
  obtain ⟨⟨previous, current, others⟩, nextId⟩ := s
  obtain ⟨rfl, rfl⟩ := List.cons.inj (hleft.trans hseam)
  have hline : current.kind.isNewline = true := he ▸ rfl
  obtain rfl : nextId = id := (h.nextId_eq hs).trans hid
  refine .line hline ?_
  have hskip : Stream.behindNewlines previous current (next :: rest) = .behindNewlines current.span next rest := by
    rw [Stream.behindNewlines, if_pos hline]
  rw [ParseState.skipped, Stream.skipNewlines, hskip]
  exact h.behind current next rest hseam

theorem opening (hsuffix : s'.tokens <:+ front ++ F.right) (hend : s'.skipped.AtEnd) (hid : s'.nextId = id) :
    Opening g r s.skipped more last := by
  rcases hs.skipNewlines with hskipped | ⟨-, ⟨e, next, rest, hseam, hbehind⟩, -⟩
  · have hleft := hskipped.eq_left (h.tokens_eq_right (s'.stream.skipNewlines_suffix.trans hsuffix) hend)
    obtain ⟨⟨e, next, rest, hseam, he, -⟩, -⟩ := F.of_followed h.followed
    obtain ⟨hcurrent, hrest⟩ := List.cons.inj (hleft.trans hseam)
    have hnone := behindNewlines_rest s.stream.previous s.stream.current s.stream.rest
      ((congrArg (·.kind.isNewline) hcurrent).trans (he ▸ rfl))
    cases hrest.symm.trans hnone
  · rw [ParseState.skipped, hbehind, (h.nextId_eq hs).trans hid]
    exact h.behind e next rest hseam

end Followed

variable {front : List Token} {more : List Node} {last : Nat}

mutual

theorem Opening.followed (hg : Tandem C F n F.tight .any moves g.statement g'.statement)
    (hr : F.Around r r') (hturns : n < r.turns) :
    ∀ {s s' : ParseState} {nodes : List Node} {id : Nat}, Opening g' r' s' nodes id →
      Followed F g r front id more last → s'.tokens <:+ front ++ F.right →
      (s'.AtEnd → s'.nextId = id → Opening g r s more last) →
      (¬s'.AtEnd → F.Reads C s s' ∧ Token.weights s.tokens ≤ n) → Opening g r s (nodes ++ more) last
  | _, _, _, _, .finished hend, _, _, hopening, _ => hopening hend rfl
  | s, s', _, _, .statement hopens hrun rest, h, hsuffix, _, hreads => by
    have hinside : ¬s'.AtEnd := fun hend => by
      rw [hend.closesBlock] at hopens
      cases hopens
    obtain ⟨hs, hn⟩ := hreads hinside
    obtain ⟨node, t, hrun', hnode, ht, htokens⟩ :=
      statement_followed h.followed hg hr hs hn (Nat.lt_of_le_of_lt hn hturns) hrun
    rw [h.exact] at hnode
    obtain rfl := Node.like_eq hnode
    have hright := (hg.right (h.exact ▸ .inr rfl) r' s' _ _ hs.right (Pairing.right_any _) hrun).1
    refine .statement (h.closesBlock hs hopens) hrun' ?_
    exact rest.followed hg hr hturns h (hright.trans hsuffix) ht
      (Nat.le_trans (Token.weights_le_of_suffix htokens) hn)

theorem Remaining.followed (hg : Tandem C F n F.tight .any moves g.statement g'.statement)
    (hr : F.Around r r') (hturns : n < r.turns) :
    ∀ {s s' : ParseState} {nodes : List Node} {id : Nat}, Remaining g' r' s' nodes id →
      Followed F g r front id more last → s'.tokens <:+ front ++ F.right → F.Reads C s s' →
      Token.weights s.tokens ≤ n → Remaining g r s (nodes ++ more) last
  | _, _, _, _, .finished hend, h, hsuffix, hs, _ => h.remaining hs hsuffix hend rfl
  | s, s', _, _, .line hline rest, h, hsuffix, hs, hn => by
    refine .line (h.isNewline hs hline) ?_
    refine rest.followed hg hr hturns h (s'.stream.skipNewlines_suffix.trans hsuffix)
      (fun hend hid => h.opening hs hsuffix hend hid) fun hinside => ?_
    rcases hs.skipNewlines with hskipped | ⟨-, -, hright⟩
    · exact ⟨hskipped, Nat.le_trans (Token.weights_le_of_suffix s.stream.skipNewlines_suffix) hn⟩
    · obtain ⟨-, e, hseam, he⟩ := F.of_followed h.followed
      exact absurd ((ParseState.kind_eq (s := s'.skipped) (hright.trans hseam)).trans he) hinside

end

end Following

section Parsing

variable {d : Position} {ts ts' us us' front front' : List Token} {nodes more : List Node}
  {id last k bound : Nat}

theorem Program.parse_eq_ok : Program.parse id ts = .ok (nodes, last) ↔
    ∃ t, program (.upTo (Token.weights ts + 2)) { turns := Token.weights ts + 2 }
      ⟨.ofTokens ts, id⟩ = .ok (nodes, t) ∧ t.nextId = last := by
  unfold Program.parse
  dsimp only
  generalize program _ _ _ = result
  cases result with
  | error => exact ⟨nofun, nofun⟩
  | ok result =>
    constructor
    · rintro ⟨⟩
      exact ⟨_, rfl, rfl⟩
    · rintro ⟨_, ⟨⟩, rfl⟩
      rfl

private theorem closed_append (hne : us ≠ []) : Stream.closed (front ++ us) = front ++ Stream.closed us := by
  unfold Stream.closed
  rw [List.getLast?_append_of_ne_nil _ hne]
  cases hlast : us.getLast? with
  | none => exact absurd (List.getLast?_eq_none_iff.mp hlast) hne
  | some last =>
    dsimp only
    split
    · rfl
    · exact List.append_assoc ..

/-- Words in another place, with functions counted from elsewhere, where so many tokens were left. -/
private def Seam.elsewhere (d : Position) (k start : Nat) : Seam := .bare (.moved d k) true (some start)

/-- The same program is read there. -/
private theorem program_moved {F : Seam} {s s' t : ParseState} {least : Nat} (htwin : F.twin = true)
    (hs : F.Reads .all s s') (hfits : F.Fits (Token.weights s.tokens))
    (hsize : Token.weights s.tokens ≤ least + 1) (hbound : least + 2 ≤ bound)
    (hprogram : program (.upTo (least + 2)) { turns := least + 2 } s = .ok (nodes, t)) :
    ∃ nodes' t', program (.upTo bound) { turns := bound } s' = .ok (nodes', t') ∧ Like F.scale nodes nodes' ∧
      F.scale.SameId t.nextId t'.nextId := by
  have hweights : Token.weights s.tokens = Token.weights s'.tokens := by
    obtain ⟨hleft, hright⟩ := F.of_twin htwin
    obtain ⟨xs, xs', hwords, hs, hs'⟩ := hs.tokens
    rw [hs, hs', hleft, hright, List.append_nil, List.append_nil, Token.weights_eq hwords]
  have hhalts : program (.upTo bound) { turns := bound } s' ≠ .error .exhausted :=
    Grammar.program_halts hs.right (by omega) (by dsimp only; omega)
  obtain ⟨m, hm⟩ := Nat.exists_eq_add_one_of_ne_zero
    (Nat.ne_of_gt (Nat.lt_of_lt_of_le (Nat.succ_pos _) (Token.length_le_weights s.tokens)))
  obtain ⟨depth, rfl⟩ := Nat.exists_eq_add_one_of_ne_zero (Nat.ne_zero_of_lt hbound)
  have hg := Grammar.upTo_paired (C := .all) (F := F) (n := m) (show m ≤ least + 1 by omega) depth (hm ▸ hfits)
  have htandem : Tandem .all F (m + 1) F.firm .any still (program (.upTo (least + 2))) (program (.upTo (depth + 1))) :=
    program_tandem (statement_tandem hg) (statement_stuck _) htwin
  have hrelated := htandem.related { turns := least + 2 } { turns := depth + 1 } s s'
    ⟨Nat.le_refl _, rfl, fun _ => rfl⟩ hs (Nat.le_of_eq hm) (by dsimp only; omega) ⟨trivial, trivial⟩
  rw [hprogram] at hrelated
  generalize program (.upTo (depth + 1)) _ s' = x at hrelated hhalts ⊢
  cases hrelated with
  | same like reads => exact ⟨_, _, rfl, like, reads.nextId⟩
  | gone right => exact absurd (F.of_twin htwin).2 right.not_empty
  | fail twin =>
    rename_i stop
    cases stop with
    | exhausted => exact absurd rfl hhalts
    | fault e =>
      obtain ⟨e', he, -⟩ := twin htwin e rfl
      cases he

section

variable (h : List.Forall₂ (Token.Alike (MovedBy d)) ts ts') (hne : ts ≠ [])
  (hparse : Program.parse id ts = .ok (nodes, last))

include h hne hparse

private theorem parse_elsewhere (hbound : Token.weights ts + 2 ≤ bound) (before : Span) {first : Token}
    {rest : List Token} (hclosed : Stream.closed ts' = first :: rest) :
    ∃ nodes' t, program (.upTo bound) { turns := bound } ⟨⟨before, first, rest⟩, id + k⟩ = .ok (nodes', t) ∧
      List.Forall₂ (Node.Alike (MovedBy d) k) nodes nodes' ∧ t.nextId = last + k := by
  obtain ⟨t, hprogram, rfl⟩ := Program.parse_eq_ok.mp hparse
  let F : Seam := .elsewhere d k (Token.weights (Stream.closed ts))
  have hs : F.Reads .all ⟨.ofTokens ts, id⟩ ⟨⟨before, first, rest⟩, id + k⟩ := by
    have htokens := closed_alike (F := F) hne h
    rw [hclosed] at htokens
    refine ⟨⟨_, Stream.closed_ending ts, Stream.tokens_ofTokens ts ▸ List.suffix_rfl⟩,
      ⟨_, Stream.closed_ending ts', hclosed ▸ List.suffix_rfl⟩, ⟨_, _, htokens, ?_, (List.append_nil _).symm⟩,
      fun hstart => ?_, rfl⟩
    · exact (Stream.tokens_ofTokens ts).trans (List.append_nil _).symm
    · have hlt := hstart _ rfl
      rw [ParseState.tokens, Stream.tokens_ofTokens] at hlt
      exact absurd hlt (Nat.lt_irrefl _)
  have htokens : ParseState.tokens ⟨.ofTokens ts, id⟩ = Stream.closed ts := Stream.tokens_ofTokens ts
  obtain ⟨nodes', t', hrun, hnodes, hid⟩ := program_moved rfl hs
    (fun m hm => by rw [htokens]; cases hm; exact Nat.le_refl _)
    (htokens ▸ Stream.weights_closed_le ts) hbound hprogram
  exact ⟨nodes', t', hrun, hnodes.imp fun _ _ hnode => Node.Like.alike hnode, hid⟩

/-- Tokens in another place, with ids that count from elsewhere, make up the same program there. -/
theorem Program.parse_moved (k : Nat) :
    ∃ nodes', Program.parse (id + k) ts' = .ok (nodes', last + k) ∧
      List.Forall₂ (Node.Alike (MovedBy d) k) nodes nodes' := by
  have hclosed := Stream.tokens_ofTokens ts'
  obtain ⟨nodes', t, hprogram, hnodes, hid⟩ := parse_elsewhere h hne hparse
    (Nat.le_of_eq (congrArg (· + 2) (Token.weights_eq h))) (Stream.ofTokens ts').previous hclosed.symm
  exact ⟨nodes', Program.parse_eq_ok.mpr ⟨t, hprogram, hid⟩, hnodes⟩

end

private def Seam.inFront (start : Nat) (newline next end' : Token) (rest : List Token)
    (hnewline : newline.kind = .newline) (hend : end'.kind = .endOfInput)
    (hopens : (Stream.behindNewlines newline.span next rest).current.kind.opensBranch? = none) : Seam where
  scale := .exact
  left := newline :: next :: rest
  right := [end']
  twin := false
  closed := false
  followed := true
  start := some start
  quiet_left h := absurd h.symm Bool.false_ne_true
  quiet_right := by
    rintro t ⟨⟩
    exact hend ▸ ⟨rfl, rfl⟩
  fixed := .inl (.inr rfl)
  of_twin h := absurd h Bool.false_ne_true
  of_closed h := absurd h Bool.false_ne_true
  of_followed _ := ⟨⟨newline, next, rest, rfl, hnewline, hopens⟩, end', rfl, hend⟩

/-- The tokens of a program, but for their end, with a line break and another program behind them: the
statements of the one and then those of the other. -/
theorem Program.parse_append {end' newline : Token}
    (hfront : List.Forall₂ (Token.Alike (MovedBy .origin)) front front')
    (hgoes : ∀ t ∈ front, t.kind.isEnd = false) (hend : end'.kind = .endOfInput)
    (hnewline : newline.kind = .newline) (hus : List.Forall₂ (Token.Alike (MovedBy d)) us us')
    (hne : us ≠ []) {middle : Nat} (hfirst : Program.parse id (front ++ [end']) = .ok (nodes, middle))
    (hsecond : Program.parse middle us = .ok (more, last)) :
    ∃ more', Program.parse id (front' ++ newline :: us') = .ok (nodes ++ more', last) ∧
      List.Forall₂ (Node.Alike (MovedBy d) 0) more more' := by
  obtain rfl : front = front' := Token.eq_of_alike hfront
  have hne' : us' ≠ [] := fun h => hne (List.forall₂_nil_right_iff.mp (h ▸ hus))
  obtain ⟨next, rest, hclosed⟩ : ∃ next rest, Stream.closed us' = next :: rest :=
    ⟨_, _, (Stream.tokens_ofTokens us').symm⟩
  let whole := front ++ newline :: us'
  have hall : Stream.closed whole = front ++ newline :: next :: rest := by
    rw [closed_append (List.cons_ne_nil _ _), ← List.singleton_append, closed_append hne', hclosed]
    rfl
  have hweights : Token.weights us ≤ Token.weights whole := by
    rw [Token.weights_eq hus]
    exact Token.weights_le_of_suffix ⟨front ++ [newline], List.append_assoc ..⟩
  -- the second program, read with the bound for both and behind the line break
  obtain ⟨more', u, hmore, hlike, hlast⟩ := parse_elsewhere (k := 0) hus hne hsecond
    (Nat.succ_le_succ (Nat.succ_le_succ hweights)) newline.span hclosed
  have hopening := opening_of_program hmore
  let F : Seam := .inFront (Token.weights (Stream.closed whole)) newline next end' rest hnewline hend
    hopening.opensBranch?_eq_none
  have hbehind : Followed F (.upTo (Token.weights whole + 2)) { turns := Token.weights whole + 2 } front middle
      more' last := by
    refine ⟨rfl, rfl, hgoes, ?_⟩
    rintro e n more ⟨⟩
    rwa [hlast] at hopening
  -- the first program in front of it
  obtain ⟨t, hprogram, rfl⟩ := Program.parse_eq_ok.mp hfirst
  have htokens : ParseState.tokens ⟨.ofTokens whole, id⟩ = Stream.closed whole := Stream.tokens_ofTokens whole
  have hsize := Stream.weights_closed_le whole
  have htokens' : ParseState.tokens ⟨.ofTokens (front ++ [end']), id⟩ = front ++ [end'] := by
    rw [ParseState.tokens, Stream.tokens_ofTokens, Stream.closed, List.getLast?_concat]
    exact if_pos (TokenKind.isEnd_iff.mpr hend)
  have hholds (ts : List Token) : Corpus.all.Holds ⟨.ofTokens ts, id⟩ :=
    ⟨_, Stream.closed_ending ts, (Stream.tokens_ofTokens ts).symm ▸ List.suffix_refl _⟩
  have hs : F.Reads .all ⟨.ofTokens whole, id⟩ ⟨.ofTokens (front ++ [end']), id⟩ := by
    refine ⟨hholds _, hholds _, ⟨front, front, Token.alike_refl (.inr rfl) _, htokens.trans hall, htokens'⟩,
      fun hstart => ?_, rfl⟩
    exact absurd (htokens ▸ hstart _ rfl) (Nat.lt_irrefl _)
  obtain ⟨m, hm⟩ := Nat.exists_eq_add_one_of_ne_zero (Nat.ne_of_gt
    (Nat.lt_of_lt_of_le (List.length_pos_iff.mpr (htokens ▸ List.cons_ne_nil _ _))
      (Token.length_le_weights (Stream.closed whole))))
  have hg := Grammar.upTo_paired (C := .all) (F := F) (n := m) (show m ≤ Token.weights whole + 1 by omega)
    (Token.weights (front ++ [end']) + 1) fun k hk => by cases hk; exact Nat.le_of_eq hm.symm
  have hr : F.Around { turns := Token.weights whole + 2 } { turns := Token.weights (front ++ [end']) + 2 } :=
    ⟨Nat.le_refl _, rfl, fun _ => rfl⟩
  have hsuffix : ParseState.tokens ⟨.ofTokens (front ++ [end']), id⟩ <:+ front ++ F.right :=
    htokens'.symm ▸ List.suffix_refl _
  have hboth := (opening_of_program hprogram).followed (g := .upTo (Token.weights whole + 2))
    (statement_tandem hg) hr (show m + 1 < Token.weights whole + 2 by omega)
    (s := ParseState.skipped ⟨.ofTokens whole, id⟩) hbehind ((Stream.skipNewlines_suffix _).trans hsuffix)
    (fun hatEnd hid => hbehind.opening hs hsuffix hatEnd hid) fun hinside => ?_
  · have hforward := (Grammar.upTo_paired (C := .all) (F := .twins) (Nat.zero_le (Token.weights whole + 2))
      (Token.weights whole + 2) fun _ h => absurd h (Option.not_mem_none _)).statement.left Seam.twins_fixed
    have hsuffix : (ParseState.skipped ⟨.ofTokens whole, id⟩).tokens <:+ Stream.closed whole :=
      htokens ▸ Stream.skipNewlines_suffix _
    have hlength := hboth.length_lt hforward ((hholds whole).suffix (htokens ▸ hsuffix))
    have := hsuffix.length_le
    have := Token.length_le_weights (Stream.closed whole)
    obtain ⟨u, hrun, hid⟩ := program_of_opening hboth (by dsimp only; omega)
    exact ⟨more', Program.parse_eq_ok.mpr ⟨u, hrun, hid⟩, hlike⟩
  · rcases hs.skipNewlines with hskipped | ⟨-, -, hright⟩
    · refine ⟨hskipped, Nat.le_trans (Token.weights_le_of_suffix (Stream.skipNewlines_suffix _)) ?_⟩
      exact Nat.le_of_eq ((congrArg Token.weights htokens).trans hm)
    · exact absurd ((ParseState.kind_eq (s := ParseState.skipped _) hright).trans hend) hinside

end Parsing

end ScriptLang
