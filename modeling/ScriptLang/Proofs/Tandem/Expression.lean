import ScriptLang.Proofs.Tandem.Statement

/-! Expressions and statements, read side by side. Main statement: the grammar reads the same words in the same
way whatever comes behind them. -/
namespace ScriptLang

open Likeness (Like)

structure Seam.EndsLinks (F : Seam) (c : Bool) : Prop where
  paren {α : Type} : F.Clear (α := α) (fun _ => c) (·.isSymbol .leftParen)
  bracket {α : Type} : F.Clear (α := α) (fun _ => c) (·.isSymbol .leftBracket)

namespace Parser

variable {C : Corpus} {F : Seam} {n : Nat} {c : Bool} {g g' : Grammar}

section Collection

variable {read read' : Array (String × Node)}

theorem key_tandem (hread : Like F.scale read read') : Tandem C F n F.tight .any moves (key read) (key read') := by
  have hany (name : String) : read.any (·.1 = name) = true ↔ read'.any (·.1 = name) = true := by
    rw [← Array.any_toList, ← Array.any_toList, forall₂_any_eq hread]
    rintro _ _ ⟨hkey, _⟩
    rw [show _ = _ from hkey]
  unfold key
  dsimp only
  refine .here_bind fun span span' hspan =>
    .kind_bind fun k k' hk _ _ => ?_
  have htake (name : String) : Tandem (α := String) C F n F.tight .solid moves
      (discard advance >>= fun _ => if read.any (·.1 = name) = true
        then fault (.duplicateKey name) span >>= fun (_ : Unit) => pure name else pure name)
      (discard advance >>= fun _ => if read'.any (·.1 = name) = true
        then fault (.duplicateKey name) span' >>= fun (_ : Unit) => pure name else pure name) := by
    refine .advance_bind ?_
    exact .guard _ (hany name) hspan fun _ => .pure rfl
  cases hk with
  | seam | line | template => exact .unexpected _
  | plain =>
    cases k with
    | text name => exact .of_solid (htake name) rfl
    | identifier name => exact .of_solid (htake name) rfl
    | _ => exact .unexpected _

variable (hg : g.Paired C F n g')

include hg

theorem nextElement_tandem {read read' : Array Node} (hread : Like F.scale read read') :
    Tandem C F n F.firm .any onNext (nextElement g read) (nextElement g' read') := by
  refine .atSymbol_bind nofun (.pure_of (.done hread) id id) ?_
  refine .bind_on hg.expression.firm fun element element' helement => ?_
  have hpush := Aligned.push hread helement
  refine .skipNewlines_bind (.eat_bind nofun (.skipNewlines_bind ?_) ?_)
  · exact .pure (.next hpush)
  · exact .pure (.done hpush)

theorem listLiteral_tandem : g.Follows C F n g' .solid listLiteral := by
  refine .bind_moved .advance fun first first' hfirst => .skipNewlines_moved ?_
  have hnone : Like F.scale (#[] : Array Node) #[] := List.Forall₂.nil
  refine .bind_past (.loop (fun _ _ => nextElement_tandem hg) hnone) fun elements elements' helements => ?_
  refine .bind_on (.expect _ _) fun close close' hclose => ?_
  exact .pure (.mk (.list helements) (Span.Like.cover hfirst hclose))

theorem nextEntry_tandem (hread : Like F.scale read read') :
    Tandem C F n F.firm .any onNext (nextEntry g read) (nextEntry g' read') := by
  refine .atSymbol_bind nofun (.pure_of (.done hread) id id) ?_
  refine .bind_on (key_tandem hread).firm ?_
  rintro name _ rfl
  refine .expect_bind (.skipNewlines_bind ?_)
  refine .bind hg.expression.firm fun value value' hvalue => ?_
  have hpush := Aligned.push hread (PairAlike.mk rfl hvalue : Like F.scale (name, value) (name, value'))
  refine .skipNewlines_bind (.eat_bind nofun (.skipNewlines_bind ?_) ?_)
  · exact .pure (.next hpush)
  · exact .pure (.done hpush)

theorem dictLiteral_tandem : g.Follows C F n g' .solid dictLiteral := by
  refine .bind_moved .advance fun first first' hfirst => .skipNewlines_moved ?_
  have hnone : Like F.scale (#[] : Array (String × Node)) #[] := List.Forall₂.nil
  refine .bind_past (.loop (fun _ _ => nextEntry_tandem hg) hnone) fun entries entries' hentries => ?_
  refine .bind_on (.expect _ _) fun close close' hclose => .pure (.mk (.dict ?_) (Span.Like.cover hfirst hclose))
  refine List.Forall₂.imp ?_ hentries
  rintro ⟨name, value⟩ ⟨_, value'⟩ ⟨rfl, hvalue⟩
  exact .mk name hvalue

end Collection

section Template

variable {tokens tokens' : List Token}

/-- How an interpolation is read: its tokens take the place of those around it for a while. -/
private theorem interpolation_eq (span : Span) (tokens : List Token) (r : Surroundings) (s : ParseState) :
    interpolation g span tokens r s = if tokens.all (·.kind.isEnd) = true
      then .error (.fault ⟨.emptyInterpolation, span⟩)
      else (g.expression >>= leaveCode s.stream) r ⟨.ofTokens tokens, s.nextId⟩ := by
  change (if tokens.all (·.kind.isEnd) = true then _ else _ : Parser Node) r s = _
  split <;> rfl

private theorem leaveCode_eq (outer : Stream) (node : Node) (r : Surroundings) (u : ParseState) :
    leaveCode outer node r u = if u.kind.isEnd = true then .ok (node, ⟨outer, u.nextId⟩)
      else .error (.fault ⟨.expected "'\x7d'" u.kind, u.stream.current.span⟩) := by
  change (if (!u.kind.isEnd) = true then _ else _ : Parser Node) r u = _
  cases u.kind.isEnd <;> rfl

/-- The tokens around the code are those from before. -/
private theorem interpolation_stream {span : Span} {tokens : List Token} {r : Surroundings} {s t : ParseState}
    {node : Node} (h : interpolation g span tokens r s = .ok (node, t)) : t.stream = s.stream := by
  rw [interpolation_eq] at h
  split at h
  · cases h
  · obtain ⟨_, u, -, hleave⟩ := bind_eq_ok.mp h
    rw [leaveCode_eq] at hleave
    split at hleave
    · cases hleave
      rfl
    · cases hleave

theorem closed_alike (hne : tokens ≠ []) (h : List.Forall₂ F.SameToken tokens tokens') :
    List.Forall₂ F.SameToken (Stream.closed tokens) (Stream.closed tokens') := by
  have hlast := forall₂_getLast? h
  obtain ⟨last, hsome⟩ := Option.ne_none_iff_exists'.mp (mt List.getLast?_eq_none_iff.mp hne)
  rw [hsome] at hlast
  unfold Stream.closed
  rw [hsome]
  generalize tokens'.getLast? = last' at hlast
  cases hlast with
  | some hlast =>
    dsimp only
    rw [← hlast.kind.isEnd_eq]
    split
    · exact h
    · refine List.rel_append h (.cons (.mk (.plain (by simp)) ?_) .nil)
      have hspan := hlast.span
      generalize F.scale = M at hspan
      cases M with
      | loose => trivial
      | moved d k => exact congrArg (fun s : Span => (⟨s.stop, s.stop⟩ : Span)) hspan

theorem ofTokens_previous (tokens : List Token) :
    (Stream.ofTokens tokens).previous = (Stream.ofTokens tokens).current.span := by
  unfold Stream.ofTokens
  split <;> rfl

/-- Parts that are read aside, without a look at the tokens around them. What is read on the right belongs to
the corpus if `Q` holds. -/
private structure Aside {α : Type} [Likeness α] (C : Corpus) (F : Seam) (r r' : Surroundings) (Q : Prop)
    (p p' : Parser α) : Prop where
  halts : F.scale.Fixed → ∀ s, p r s ≠ .error .exhausted
  related : Q → ∀ s s', F.Reads C s s' →
    (∃ a a' t t', p r s = .ok (a, t) ∧ p' r' s' = .ok (a', t') ∧ Like F.scale a a' ∧ F.Reads C t t') ∨
      ∃ stop, p' r' s' = .error stop ∧ (F.twin = true → ∀ e, stop = .fault e →
        ∃ e', p r s = .error (.fault e') ∧ (F.Identical → e' = e))

variable {α β : Type} [Likeness α] [Likeness β] {r r' : Surroundings} {Q : Prop}

private theorem Aside.pure {a a' : α} (h : Like F.scale a a') : Aside C F r r' Q (pure a) (pure a') :=
  ⟨nofun, fun _ s s' hs => .inl ⟨a, a', s, s', rfl, rfl, h, hs⟩⟩

private theorem Aside.bind {p p' : Parser α} {f f' : α → Parser β} (hp : Aside C F r r' Q p p')
    (hf : ∀ a a', Like F.scale a a' → Aside C F r r' Q (f a) (f' a')) : Aside C F r r' Q (p >>= f) (p' >>= f') := by
  refine ⟨fun hfixed s hrun => ?_, fun hQ s s' hs => ?_⟩
  · rw [bind_apply] at hrun
    have hhalts := hp.halts hfixed s
    cases hp' : p r s with
    | error stop =>
      rw [hp'] at hrun hhalts
      cases hrun
      exact hhalts rfl
    | ok result =>
      rw [hp'] at hrun
      exact (hf result.1 result.1 (Likeness.refl hfixed _)).halts hfixed result.2 hrun
  · rw [bind_apply, bind_apply]
    rcases hp.related hQ s s' hs with ⟨a, a', t, t', hrun, hrun', hlike, ht⟩ | ⟨stop, hrun', htwin⟩
    · rw [hrun, hrun']
      exact (hf a a' hlike).related hQ t t' ht
    · refine .inr ⟨stop, by rw [hrun'], fun h e he => ?_⟩
      obtain ⟨e', hrun, hsame⟩ := htwin h e he
      exact ⟨e', by rw [hrun], hsame⟩

private theorem Aside.mapM {γ : Type} {f f' : γ → Parser α} {R : γ → γ → Prop} {xs xs' : List γ}
    (hxs : List.Forall₂ R xs xs') (h : ∀ x x', x ∈ xs → x' ∈ xs' → R x x' → Aside C F r r' Q (f x) (f' x')) :
    Aside C F r r' Q (xs.mapM f) (xs'.mapM f') := by
  induction hxs with
  | nil =>
    rw [List.mapM_nil, List.mapM_nil]
    exact .pure .nil
  | cons hfirst _ ih =>
    rw [List.mapM_cons, List.mapM_cons]
    refine .bind (h _ _ (List.mem_cons_self ..) (List.mem_cons_self ..) hfirst) fun b b' hb => ?_
    have hrest := ih fun x x' hx hx' => h x x' (List.mem_cons_of_mem _ hx) (List.mem_cons_of_mem _ hx')
    exact .bind hrest fun bs bs' hbs => .pure (.cons hb hbs)

variable (hcode : Tandem C F.whole n F.whole.tight .any moves g.expression g'.expression)

include hcode in
/-- Code in a template is a text of its own, with nothing behind it. -/
private theorem interpolation_aside {span span' : Span} (hspan : span.Like F.scale span')
    (htokens : List.Forall₂ F.SameToken tokens tokens') (hmember : C.Member (Stream.closed tokens))
    (hmember' : Q → C.Member (Stream.closed tokens')) (hr : F.Around r r')
    (hn : Token.weights (Stream.closed tokens) ≤ n) (hturns : Token.weights (Stream.closed tokens) < r.turns) :
    Aside C F r r' Q (interpolation g span tokens) (interpolation g' span' tokens') := by
  have hholds {us : List Token} (h : C.Member (Stream.closed us)) (id : Nat) :
      C.Holds ⟨.ofTokens us, id⟩ :=
    ⟨_, h, Stream.tokens_ofTokens us ▸ List.suffix_rfl⟩
  rw [← Stream.tokens_ofTokens] at hn hturns
  refine ⟨fun hfixed s hrun => ?_, fun hQ s s' hs => ?_⟩
  · rw [interpolation_eq] at hrun
    split at hrun
    · cases hrun
    · rw [bind_apply] at hrun
      have hhalts := hcode.halts hfixed r ⟨.ofTokens tokens, s.nextId⟩ (hholds hmember _)
        (Pairing.left_any _) hn hturns
      cases hinner : g.expression r ⟨.ofTokens tokens, s.nextId⟩ with
      | error stop =>
        rw [hinner] at hrun hhalts
        cases hrun
        exact hhalts rfl
      | ok result =>
        rw [hinner] at hrun
        dsimp only at hrun
        rw [leaveCode_eq] at hrun
        split at hrun <;> cases hrun
  · have hall : tokens.all (·.kind.isEnd) = tokens'.all (·.kind.isEnd) := by
      rw [List.all_eq_not_any_not, List.all_eq_not_any_not, forall₂_any_eq htokens]
      intro a a' ha
      rw [ha.kind.isEnd_eq]
    rw [interpolation_eq, interpolation_eq, ← hall]
    split
    · refine .inr ⟨_, rfl, ?_⟩
      rintro htwin e ⟨⟩
      refine ⟨_, rfl, fun hsame => ?_⟩
      rw [hsame.1] at hspan
      rw [hspan.eq]
    have hne : tokens ≠ [] := by
      rintro rfl
      exact absurd rfl ‹_›
    have hclosed := closed_alike hne htokens
    rw [← Stream.tokens_ofTokens, ← Stream.tokens_ofTokens] at hclosed
    have hinner : F.whole.Reads C ⟨.ofTokens tokens, s.nextId⟩ ⟨.ofTokens tokens', s'.nextId⟩ := by
      refine ⟨hholds hmember _, hholds (hmember' hQ) _, ⟨_, _, hclosed, (List.append_nil _).symm,
        (List.append_nil _).symm⟩, fun _ => ?_, hs.nextId⟩
      rw [ofTokens_previous, ofTokens_previous]
      cases hclosed with
      | cons hfirst => exact hfirst.span
    have hrelated := hcode.related r r' _ _ ⟨hr.depth, hr.inConstructor, hr.twin⟩ hinner hn hturns
      ⟨trivial, trivial⟩
    rw [bind_apply, bind_apply]
    generalize g.expression r ⟨.ofTokens tokens, s.nextId⟩ = x,
      g'.expression r' ⟨.ofTokens tokens', s'.nextId⟩ = x' at hrelated
    cases hrelated with
    | fail twin =>
      refine .inr ⟨_, rfl, fun htwin e he => ?_⟩
      obtain ⟨e', rfl, hsame⟩ := twin htwin e he
      exact ⟨e', rfl, fun h => hsame ⟨h.1, rfl⟩⟩
    | gone right => cases Nat.le_zero.mp (Nat.le_trans (Nat.le_add_right ..) right)
    | lost right => cases Nat.le_zero.mp right
    | @same node node' u u' like reads =>
      dsimp only
      rw [leaveCode_eq, leaveCode_eq]
      have hend : u.kind.isEnd = u'.kind.isEnd := by
        rcases reads.at_seam_or_inside with ⟨hseam, -⟩ | ⟨xs, xs', hfirst, -⟩
        · cases hseam
        · exact hfirst.kind.isEnd_eq
      rw [← hend]
      split
      · exact .inl ⟨_, _, _, _, rfl, rfl, like, hs.left, hs.right, hs.tokens, hs.previous, reads.nextId⟩
      · refine .inr ⟨_, rfl, ?_⟩
        rintro htwin e ⟨⟩
        exact ⟨_, rfl, fun h => by rw [reads.eq_of_twin htwin ⟨h.1, rfl⟩]⟩

private def templateAtom (g : Grammar) (segments : List (Segment Token)) : Parser Node :=
  advance >>= fun token => segments.mapM (templatePart g token.span) >>= fun parts =>
    pure ⟨.template parts, token.span⟩

private theorem parts_stream {span : Span} {segments : List (Segment Token)} {r : Surroundings}
    {s t : ParseState} {parts : List (TemplatePart Node)}
    (h : segments.mapM (templatePart g span) r s = .ok (parts, t)) : t.stream = s.stream := by
  induction segments generalizing s parts with
  | nil =>
    rw [List.mapM_nil] at h
    cases h
    rfl
  | cons segment segments ih =>
    rw [List.mapM_cons] at h
    obtain ⟨part, u, hpart, h⟩ := bind_eq_ok.mp h
    obtain ⟨others, v, hothers, h⟩ := bind_eq_ok.mp h
    cases h
    refine (ih hothers).trans ?_
    cases segment with
    | text value =>
      cases hpart
      rfl
    | code tokens =>
      obtain ⟨node, w, hnode, hpart⟩ := bind_eq_ok.mp hpart
      cases hpart
      exact interpolation_stream hnode

private theorem templateAtom_onward (segments : List (Segment Token)) :
    Forward C (· = .template segments) moves (templateAtom g segments) := by
  intro r s a t hs hk hrun
  obtain ⟨token, u, htoken, hrun⟩ := bind_eq_ok.mp hrun
  obtain ⟨parts, v, hparts, hrun⟩ := bind_eq_ok.mp hrun
  cases hrun
  have hadvance := Forward.advance (C := C) (P := (· = .template segments)) (fun _ => (· ▸ rfl)) r s token u
    hs hk htoken
  rw [ParseState.tokens, parts_stream hparts]
  exact hadvance

include hcode

theorem template_tandem {segments segments' : List (Segment Token)}
    (hsegments : List.Forall₂ (Segment.Alike F.SameToken) segments segments') :
    Tandem C F (n + 1) (fun _ => c) (.these (.template segments) (.template segments')) moves
      (templateAtom g segments) (templateAtom g' segments') := by
  have hmember {s : ParseState} (hs : C.Holds s) {segments : List (Segment Token)}
      (hk : s.kind = .template segments) {tokens : List Token} (hcode : .code tokens ∈ segments) :
      C.Member (Stream.closed tokens) := by
    obtain ⟨ts, hts, hsuffix⟩ := hs
    exact C.code hts (hsuffix.subset (List.mem_cons_self ..)) hk hcode
  have hsize {s : ParseState} (hs : C.Holds s) (hk : s.kind = .template segments) {tokens : List Token}
      (hcode : .code tokens ∈ segments) :
      Token.weights (Stream.closed tokens) < Token.weights s.tokens := by
    obtain ⟨next, rest, hrest⟩ := hs.exists_next (hk ▸ rfl)
    have hcurrent : Token.weights tokens < s.stream.current.weight := by
      rw [ParseState.kind] at hk
      generalize s.stream.current = token at hk
      obtain ⟨kind, span⟩ := token
      obtain rfl : kind = _ := hk
      exact Token.weights_code_lt hcode span
    have hclosed := Stream.weights_closed_le tokens
    have hnext := next.weight_pos
    rw [ParseState.tokens, Stream.tokens, hrest, Token.weights, Token.weights]
    omega
  -- What is read aside has fewer tokens than the template itself.
  have hatom {r r' : Surroundings} (hr : F.Around r r') {s : ParseState} (hs : C.Holds s)
      (hk : s.kind = .template segments) (hn : Token.weights s.tokens ≤ n + 1)
      (hturns : Token.weights s.tokens < r.turns) {span span' : Span} (hspan : span.Like F.scale span') :
      Aside (α := Node) C F r r' (∃ s', C.Holds s' ∧ s'.kind = .template segments')
        (segments.mapM (templatePart g span) >>= fun parts => pure ⟨.template parts, span⟩)
        (segments'.mapM (templatePart g' span') >>= fun parts => pure ⟨.template parts, span'⟩) := by
    refine .bind (.mapM hsegments fun segment segment' hmem hmem' hsegment => ?_)
      fun parts parts' hparts => .pure (.mk (.template hparts) hspan)
    cases hsegment with
    | text value => exact .pure (.text value)
    | code htokens =>
      have hlt := hsize hs hk hmem
      refine .bind (interpolation_aside hcode hspan htokens (hmember hs hk hmem) ?_ hr (by omega) (by omega)) ?_
      · rintro ⟨s', hs', hk'⟩
        exact hmember hs' hk' hmem'
      · exact fun node node' hnode => .pure (.expression hnode)
  have hleft (_ : F.scale.Fixed) :
      Forward C (Pairing.these _ (.template segments')).left moves (templateAtom g segments) :=
    (templateAtom_onward segments).pre fun _ h => h.elim fun _ hk => hk.1
  have hright (_ : F.scale.Fixed) :
      Forward C (Pairing.these (.template segments) _).right moves (templateAtom g' segments') :=
    (templateAtom_onward segments').pre fun _ h => h.elim fun _ hk => hk.2
  refine ⟨hleft, hright, ?_, ?_⟩
  · rintro hfixed r s hs ⟨_, hk, _⟩ hn hturns hrun
    exact (hatom ⟨Nat.le_refl _, rfl, fun _ => rfl⟩ hs hk hn hturns (.refl hfixed s.stream.current.span)).halts
      hfixed { s with stream := s.stream.advance } hrun
  rintro r r' s s' hr hs hn hturns ⟨hk, hk'⟩
  rcases hs.at_seam_or_inside with ⟨hseam, hseam'⟩ | ⟨xs, xs', hfirst, hxs, hrest, hrest'⟩
  · exact hs.outcome_of_seam hseam hseam' hleft hright ⟨_, hk, hk'⟩ ⟨_, hk, hk'⟩ (fun _ _ => trivial) r r'
  have hnext := hs.advance (hk ▸ rfl) (hk' ▸ rfl) hfirst hxs hrest hrest'
  rcases (hatom hr hs.left hk hn hturns hfirst.span).related ⟨s', hs.right, hk'⟩ _ _ hnext with
    ⟨a, a', t, t', hrun, hrun', hlike, ht⟩ | ⟨stop, hrun', htwin⟩
  · obtain ⟨hsuffix, hmoved⟩ := templateAtom_onward segments r s a t hs.left hk hrun
    rw [show templateAtom g segments r s = _ from hrun, show templateAtom g' segments' r' s' = _ from hrun']
    exact .same hlike ht hsuffix hmoved
  · rw [show templateAtom g' segments' r' s' = _ from hrun']
    exact .fail htwin

end Template

section Atom

theorem superProperty_tandem : Tandem C F n (fun _ => c) .solid moves superProperty superProperty := by
  refine .bind_on .advance fun first first' hfirst => ?_
  refine .expect_bind (.bind (.expectIdentifier _) ?_)
  rintro ⟨name, nameSpan⟩ ⟨_, nameSpan'⟩ ⟨rfl, hname⟩
  exact .pure (.mk (.superProperty name) (Span.Like.cover hfirst hname))

theorem leaf_tandem {shape shape' : Shape Node}
    (h : Shape.Alike (Span.Like F.scale) F.scale.functions (Node.Like F.scale) (shape.anonymous F.scale)
      (shape'.anonymous F.scale)) : Tandem C F n (fun _ => c) .solid moves (leaf shape) (leaf shape') :=
  .bind_on .advance fun _ _ htoken => .pure (.mk h htoken)

variable (hg : g.Paired C F n g')

include hg

theorem parenthesised_tandem : Tandem C F (n + 1) (fun _ => c) .solid moves (parenthesised g) (parenthesised g') := by
  refine .bind_moved .advance fun first first' hfirst => .skipNewlines_moved ?_
  refine .bind_past hg.expression fun inner inner' hinner => .skipNewlines_moved ?_
  refine .bind_on (.expect _ _) fun close close' hclose => ?_
  exact .pure (.mk hinner.shape (Span.Like.cover hfirst hclose))

theorem atom_tandem : g.Follows C F n g' .any atom := by
  refine .kind_bind fun k k' hk _ _ => ?_
  cases hk with
  | seam | line => exact .unexpected _
  | template hsegments => exact template_tandem hg.whole.expression hsegments
  | plain hplain =>
    cases k with
    | number value => exact .of_solid (leaf_tandem (.number value)) rfl
    | text value => exact .of_solid (leaf_tandem (.text value)) rfl
    | identifier name => exact .of_solid (leaf_tandem (.lookup name)) rfl
    | template segments => exact absurd rfl (hplain segments)
    | symbol sign =>
      cases sign with
      | leftParen => exact .of_solid (parenthesised_tandem hg) rfl
      | leftBracket => exact .of_solid (listLiteral_tandem hg) rfl
      | leftBrace => exact .of_solid (dictLiteral_tandem hg) rfl
      | _ => exact .unexpected _
    | keyword word =>
      cases word with
      | trueWord => exact .of_solid (leaf_tandem (.boolean true)) rfl
      | falseWord => exact .of_solid (leaf_tandem (.boolean false)) rfl
      | noneWord => exact .of_solid (leaf_tandem .nothing) rfl
      | ifWord => exact .of_solid (conditional_tandem hg) rfl
      | forWord => exact .of_solid (countingLoop_tandem hg) rfl
      | foreachWord => exact .of_solid (eachLoop_tandem hg) rfl
      | whileWord => exact .of_solid (whileLoop_tandem hg) rfl
      | switchWord => exact .of_solid (switch_tandem hg) rfl
      | funcWord => exact .of_solid (function_tandem hg) rfl
      | superWord => exact .of_solid superProperty_tandem rfl
      | _ => exact .unexpected _
    | _ => exact .unexpected _

end Atom

section Chain

variable {node node' : Node} {k k' : TokenKind Token}

/-- What the sign before a member name says is the same. -/
theorem memberSign_eq_of_alike {R : Token → Token → Prop}
    (h : TokenKind.Alike R k k') : memberSign k = memberSign k' := by
  cases h <;> rfl

theorem endsLinks (F : Seam) : F.EndsLinks F.known := ⟨F.clear _ rfl rfl, F.clear _ rfl rfl⟩

/-- What a chain can begin with that is a name or stands in parentheses. -/
def IsPrimary (k : TokenKind Token) : Prop := (∃ name, k = .identifier name) ∨ k = .symbol .leftParen

variable (hg : g.Paired C F n g')

include hg

theorem nextArgument_tandem {read read' : Array Node} (hread : Like F.scale read read') :
    Tandem C F n (F.turnwise c) .any moves (nextArgument g read) (nextArgument g' read') := by
  refine .bind_past hg.expression fun argument argument' hargument => ?_
  have hpush := Aligned.push hread hargument
  refine .skipNewlines_moved (.eat_bind nofun (.skipNewlines_next hpush) ?_)
  exact .expect_bind (.pure (.done hpush))

theorem arguments_tandem : Tandem C F n (fun _ => c) .any moves (arguments g) (arguments g') := by
  refine .expect_bind (.skipNewlines_moved ?_)
  refine .eat_paren_bind (.pure .nil) (.loop_moves (fun _ _ => nextArgument_tandem hg) (fun _ => id) ?_)
  exact List.Forall₂.nil

theorem call_tandem (optional : Bool) (hnode : Like F.scale node node') :
    Tandem C F n (fun _ => c) .any moves (call g optional node) (call g' optional node') := by
  refine .bind_on (arguments_tandem hg) fun args args' hargs => .previous_bind hg.fits fun last last' hlast => ?_
  exact .pure (.mk (.call optional hnode hargs) (hnode.span.cover hlast))

theorem sliceBound_tandem : Tandem C F n F.tight .any still (sliceBound g) (sliceBound g') :=
  .atSymbol_bind nofun (.pure .none) hg.expression.option

theorem indexParts_tandem : Tandem C F n F.tight .any still (indexParts g) (indexParts g') := by
  refine .atSymbol_bind nofun (.pure .push) (.eat_bind nofun ?_ ?_)
  · exact .bind (sliceBound_tandem hg) fun stop stop' hstop => .pure (.slice .none hstop)
  · refine .bind hg.expression fun first first' hfirst => .eat_bind nofun ?_ ?_
    · exact .bind (sliceBound_tandem hg) fun stop stop' hstop => .pure (.slice (.some hfirst) hstop)
    · exact .pure (.single hfirst)

theorem index_tandem (optional : Bool) (hnode : Like F.scale node node') :
    Tandem C F n (fun _ => c) .any moves (index g optional node) (index g' optional node') := by
  unfold index
  dsimp only
  refine .bind_on (.expect _ _) fun opening opening' hopening => ?_
  refine .bind_past (indexParts_tandem hg) fun index index' hindex => ?_
  refine .bind_on (.expect _ _) fun close close' hclose => ?_
  have hspan : (opening.span.cover close.span).Like F.scale (opening'.span.cover close'.span) :=
    Span.Like.cover hopening hclose
  have hdone : Tandem (α := Node) C F n (fun _ => c) .any still
      (pure ⟨.index node index optional, node.span.cover close.span⟩)
      (pure ⟨.index node' index' optional, node'.span.cover close'.span⟩) :=
    .pure (.mk (.index optional hnode hindex) (hnode.span.cover hclose))
  cases hindex with
  | push =>
    exact .atSymbol_demand hdone (.fault_bind _ hspan) (fun _ _ => ⟨_, rfl⟩) fun _ _ => ⟨_, rfl⟩
  | _ => exact hdone

theorem links_tandem (hends : F.EndsLinks c) (optional : Bool) (hnode : Like F.scale node node') :
    Tandem C F n (fun _ => c) .any still (links g optional node) (links g' optional node') := by
  refine .loop (fun node node' hnode => ?_) hnode
  refine .atSymbol_look hends.paren ?_ (.atSymbol_look hends.bracket ?_ ?_)
  · exact .given (.bind_on (call_tandem hg optional hnode) fun next next' hnext => .pure (.next hnext))
  · exact .given (.bind_on (index_tandem hg optional hnode) fun next next' hnext =>
      .pure (.next hnext))
  · exact .pure_of (.done hnode) id id

theorem nextLink_these (hends : F.EndsLinks c) {x x' : Node × Bool}
    (hx : Like F.scale x x') (hk : memberSign k = memberSign k') :
    Tandem C F n (fun _ => c) (.these k k') onNext (nextLink g x) (nextLink g' x') := by
  obtain ⟨hnode, rfl⟩ := hx
  rename_i node node' optional
  refine .kind_these ?_
  rw [← hk]
  cases hsign : memberSign k with
  | none => exact .pure_of (.done hnode) id id
  | some sign =>
    obtain ⟨isStatic, isOptional⟩ := sign
    have hlinks (optional : Bool) {next next' : Node} (hnext : Like F.scale next next') :
        Tandem (α := Turn (Node × Bool) Node) C F n (fun _ => c) .any still
          (links g optional next >>= fun node => pure (.next (node, optional)))
          (links g' optional next' >>= fun node => pure (.next (node, optional))) :=
      .bind (links_tandem hg hends optional hnext) fun node node' hnode => .pure (.next (.mk hnode rfl))
    refine .of_ask memberSign (.advance_bind ?_) hk hsign nofun
    refine .atSymbol_any hends.paren fun parens => .ite Iff.rfl (fun _ => ?_) fun _ => ?_
    · exact .bind (call_tandem hg _ hnode) fun next next' hnext => hlinks _ hnext
    refine .atSymbol_any hends.bracket fun brackets => .ite Iff.rfl (fun _ => ?_) fun _ => ?_
    · exact .bind (index_tandem hg _ hnode) fun next next' hnext => hlinks _ hnext
    refine .bind (.expectIdentifier _) ?_
    rintro ⟨name, nameSpan⟩ ⟨_, nameSpan'⟩ ⟨rfl, hname⟩
    refine hlinks _ (.mk ?_ (hnode.span.cover hname))
    cases isStatic with
    | true => exact .staticProperty name _ hnode
    | false => exact .property name _ hnode

theorem nextLink_tandem (hends : F.EndsLinks c)
    (hmember : F.Clear (α := Turn (Node × Bool) Node) (fun _ => c) memberSign) {x x' : Node × Bool}
    (hx : Like F.scale x x') :
    Tandem C F n (fun _ => c) .any onNext (nextLink g x) (nextLink g' x') :=
  .look memberSign (fun _ _ => memberSign_eq_of_alike) hmember fun _ _ => nextLink_these hg hends hx

theorem instantiation_tandem : g.Follows C F n g' .solid instantiation := by
  unfold instantiation
  dsimp only
  refine .bind_moved .advance fun first first' hfirst => .bind (.expectIdentifier _) ?_
  rintro ⟨name, nameSpan⟩ ⟨_, nameSpan'⟩ ⟨rfl, hname⟩
  have hdone {args args' : List Node} (hargs : Like F.scale args args') :
      Tandem (α := Node) C F n F.tight .any still (previous >>= fun last =>
          pure ⟨.instantiate ⟨.lookup name, nameSpan⟩ args, first.span.cover last⟩)
        (previous >>= fun last =>
          pure ⟨.instantiate ⟨.lookup name, nameSpan'⟩ args', first'.span.cover last⟩) := by
    refine .previous_bind hg.fits fun last last' hlast => .pure ?_
    exact .mk (.instantiate (.mk (.lookup name) hname) hargs) (Span.Like.cover hfirst hlast)
  refine .atSymbol_bind nofun (.given ?_) (hdone .nil)
  exact .bind (arguments_tandem hg) fun args args' hargs => hdone hargs

theorem chainHead_tandem : g.Follows C F n g' .any chainHead := by
  refine .atKeyword_bind ?_ ?_
  · exact .bind_moved (instantiation_tandem hg) fun node node' hnode =>
      links_tandem hg (endsLinks F) false hnode
  · exact .bind_moved (atom_tandem hg) fun node node' hnode => links_tandem hg (endsLinks F) false hnode

/-- Such a beginning of a chain is read in the same way even if it has gone to the seam. -/
theorem chainHead_primary (hends : F.EndsLinks c) :
    Tandem C F (n + 1) (fun _ => c) (.both IsPrimary) moves (chainHead g) (chainHead g') := by
  have heq (g : Grammar) : chainHead g = (kind >>= fun k => if k.isKeyword .newWord = true
      then instantiation g >>= links g false else atom g >>= links g false) := rfl
  rw [heq, heq]
  refine .kind_bind fun k k' hk hprimary _ => ?_
  have hlinks {k : TokenKind Token} (hatom : Tandem C F (n + 1) (fun _ => c) (.these k k) moves (atom g) (atom g')) :
      Tandem C F (n + 1) (fun _ => c) (.these k k) moves (atom g >>= links g false) (atom g' >>= links g' false) :=
    .bind_moved hatom fun node node' hnode => links_tandem hg hends false hnode
  cases hk with
  | seam | line | template => exact hprimary.elim (fun ⟨_, h⟩ => nomatch h) nofun
  | plain =>
    rcases hprimary with ⟨name, rfl⟩ | rfl
    · exact hlinks (.kind_these (.of_solid (leaf_tandem (.lookup name)) rfl))
    · exact hlinks (.kind_these (.of_solid (parenthesised_tandem hg) rfl))

theorem chain_of {K : Pairing} (hends : F.EndsLinks c)
    (hmember : F.Clear (α := Turn (Node × Bool) Node) (fun _ => c) memberSign)
    (hhead : Tandem C F (n + 1) (fun _ => c) K moves (chainHead g) (chainHead g')) :
    Tandem C F (n + 1) (fun _ => c) K moves (chain g) (chain g') :=
  .bind_moved hhead fun _ _ hnode =>
    .loop (fun _ _ => nextLink_tandem hg hends hmember) (PairAlike.mk hnode rfl)

theorem chain_tandem : g.Follows C F n g' .any chain :=
  chain_of hg (endsLinks F) (F.clear _ rfl rfl) (chainHead_tandem hg)

end Chain

section Level

variable {operand operand' : Parser Node} {op? : TokenKind Token → Option LevelOp}

variable (hg : g.Paired C F n g')

include hg

variable (hop : Judges op?) (hquiet : op? (.symbol .rightParen) = none ∧ op? .newline = none)

include hop hquiet

theorem nextOperand_tandem (hoperand : Tandem C F n F.tight .any moves operand operand') {left left' : Node}
    (hleft : Like F.scale left left') :
    Tandem C F n F.tight .any onNext (nextOperand g operand op? left) (nextOperand g' operand' op? left') := by
  refine .kind_bind fun k k' hk _ _ => ?_
  have hmeans : op? k = op? k' := by
    cases hk with
    | plain => rfl
    | template => rw [hop.template, hop.template]
    | seam => rw [hop.atEnd, hquiet.1]
    | line => rw [hop.atEnd, hquiet.2]
  rw [← hmeans]
  cases hmeaning : op? k with
  | none => exact .pure_of (.done hleft) id id
  | some means =>
    have hend : op? .endOfInput ≠ some means := hop.atEnd ▸ nofun
    cases means with
    | binary op =>
      refine .of_ask op? (.advance_bind ?_) hmeans hmeaning hend
      exact .bind hoperand fun right right' hright => .pure (.next (binary_like op hleft hright))
    | compound op =>
      refine .of_ask op? (.bind_on (compound_tandem hg op hleft) fun node node' hnode => ?_) hmeans hmeaning hend
      exact .pure (.done hnode)
    | increments =>
      have hrun := hop.increments hmeaning
      obtain rfl : k = k' := by
        cases hk with
        | plain => rfl
        | template | seam | line => exact hrun.elim nofun nofun
      refine .bind_on ((increments_tandem hrun hg.fits).le (Nat.le_succ n)) ?_
      rintro ⟨delta, span⟩ ⟨_, span'⟩ ⟨rfl, hspan⟩
      exact .bind (increment_tandem hleft delta hspan) fun node node' hnode => .pure (.next hnode)

theorem level_tandem (hoperand : Tandem C F (n + 1) F.tight .any moves operand operand') :
    Tandem C F (n + 1) F.tight .any moves (level g operand op?) (level g' operand' op?) := by
  refine .bind_moved hoperand fun left left' hleft => ?_
  exact .loop (fun _ _ => nextOperand_tandem hg hop hquiet (hoperand.le (Nat.le_succ n))) hleft

end Level

section Expression

variable (hg : g.Paired C F n g')

include hg

private theorem signs_tandem {k : TokenKind Token} (hk : IsIncrement k) : g.Follows C F n g' (.these k k)
    fun g => increments >>= fun run => chain g >>= fun node => increment node run.1 run.2 := by
  refine .bind_moved (increments_tandem hk hg.fits) ?_
  rintro ⟨delta, span⟩ ⟨_, span'⟩ ⟨rfl, hspan⟩
  refine .bind ((chain_tandem hg).le (Nat.le_succ n)) fun node node' hnode => ?_
  exact increment_tandem hnode delta hspan

theorem factor_tandem : g.Follows C F n g' .any factor := by
  refine .kind_bind fun k k' hk _ _ => ?_
  have hsame : unaryOp? k = unaryOp? k' := by
    cases hk <;> rfl
  rw [← hsame]
  cases hsign : unaryOp? k with
  | some op =>
    refine .of_ask unaryOp? (.bind_moved .advance fun first first' hfirst => ?_) hsame hsign nofun
    refine .bind (.nested hg.factor) fun operand operand' hoperand => ?_
    exact .pure (.mk (.unary op hoperand) (Span.Like.cover hfirst hoperand.span))
  | none =>
    refine .kind_these ?_
    have hchain {K : Pairing} : g.Follows C F n g' K chain := (chain_tandem hg).given
    cases hk with
    | seam | line | template => exact hchain
    | plain =>
      cases k with
      | symbol sign =>
        cases sign with
        | plusPlus => exact signs_tandem hg (.inl rfl)
        | minusMinus => exact signs_tandem hg (.inr rfl)
        | _ => exact hchain
      | _ => exact hchain

theorem power_tandem : g.Follows C F n g' .any power := by
  refine .bind_moved (factor_tandem hg) fun base base' hbase => ?_
  refine .kind_bind fun k k' hk _ _ => ?_
  have hdone {K : Pairing} : Tandem (α := Node) C F n F.tight K still (pure base) (pure base') :=
    .pure hbase
  have hpower : Tandem (α := Node) C F n F.tight .solid still
      (discard advance >>= fun _ => nested g.power >>= fun right => pure (.binary .power base right))
      (discard advance >>= fun _ => nested g'.power >>= fun right => pure (.binary .power base' right)) := by
    refine .advance_bind ?_
    exact .bind (.nested hg.power) fun right right' hright => .pure (binary_like .power hbase hright)
  cases hk with
  | seam | line | template => exact hdone
  | plain =>
    cases k with
    | symbol sign =>
      cases sign with
      | starStar | caret => exact .of_solid hpower rfl
      | _ => exact hdone
    | _ => exact hdone

theorem term_tandem : g.Follows C F n g' .any term :=
  level_tandem hg termOp_judges ⟨rfl, rfl⟩ (power_tandem hg)

theorem sum_tandem : g.Follows C F n g' .any sum :=
  level_tandem hg sumOp_judges ⟨rfl, rfl⟩ (term_tandem hg)

theorem bitwise_tandem : g.Follows C F n g' .any bitwise :=
  level_tandem hg bitwiseOp_judges ⟨rfl, rfl⟩ (sum_tandem hg)

theorem comparison_tandem : g.Follows C F n g' .any comparison := by
  refine .kind_bind fun k k' hk _ _ => ?_
  have hlevel {K : Pairing} : g.Follows C F n g' K fun g => level g (bitwise g) comparisonOp :=
    (level_tandem hg comparisonOp_judges ⟨rfl, rfl⟩ (bitwise_tandem hg)).given
  have hnot : g.Follows C F n g' .solid fun g => advance >>= fun first => g.comparison >>= fun operand =>
      pure ⟨.unary .not operand, first.span.cover operand.span⟩ := by
    refine .bind_moved .advance fun first first' hfirst => ?_
    refine .bind hg.comparison fun operand operand' hoperand => ?_
    exact .pure (.mk (.unary .not hoperand) (Span.Like.cover hfirst hoperand.span))
  cases hk with
  | seam | line | template => exact hlevel
  | plain =>
    cases k with
    | symbol sign =>
      cases sign with
      | bang => exact .of_solid hnot rfl
      | _ => exact hlevel
    | keyword word =>
      cases word with
      | notWord => exact .of_solid hnot rfl
      | _ => exact hlevel
    | _ => exact hlevel

theorem condition_tandem : g.Follows C F n g' .any condition :=
  level_tandem hg conditionOp_judges ⟨rfl, rfl⟩ (comparison_tandem hg)

theorem declaration_tandem : g.Follows C F n g' .solid declaration := by
  refine .bind_moved .advance fun first first' hfirst => .bind (.expectIdentifier _) ?_
  rintro ⟨name, _⟩ ⟨_, _⟩ ⟨rfl, _⟩
  refine .expect_bind ?_
  refine .bind hg.expression fun value value' hvalue => ?_
  exact .pure (.mk (.declare name hvalue) (Span.Like.cover hfirst hvalue.span))

theorem expression_tandem : g.Follows C F n g' .any expression := by
  refine .nested (.atKeyword_bind (declaration_tandem hg) ?_)
  refine .bind_moved (condition_tandem hg) fun node node' hnode => .eat_bind nofun ?_ ?_
  · exact .bind hg.expression fun value value' hvalue => assign_tandem hnode hvalue
  · exact .pure hnode

end Expression

section Statement

theorem expression_stuck (g : Grammar) : (expression g).Stuck := by
  rintro r ⟨⟨previous, ⟨kind, span⟩, rest⟩, nextId⟩ hs x hx
  unfold expression at hx
  rw [nested_apply] at hx
  obtain rfl | rfl : kind = _ ∨ kind = _ := hs
  · split at hx <;> cases hx
  · split at hx <;> cases hx

theorem isDeletable_eq_of_like {target target' : Node} (h : Like F.scale target target') :
    isDeletable target = isDeletable target' := by
  have hanonymous (target : Node) :
      isDeletable target = isDeletable ⟨target.shape.anonymous F.scale, target.span⟩ := by
    obtain ⟨shape, span⟩ := target
    cases shape <;> rfl
  have hshape := h.shape
  rw [hanonymous target, hanonymous target']
  unfold isDeletable
  generalize target.shape.anonymous F.scale = shape, target'.shape.anonymous F.scale = shape' at hshape
  cases hshape with
  | index optional _ hkey => cases hkey <;> cases optional <;> rfl
  | _ => rfl

private theorem strings_like (xs : List String) : Like F.scale xs xs := List.forall₂_same.mpr fun _ _ => rfl

private theorem enumMember_stuck (inBlock : Bool) (read : Array String) : (enumMember inBlock read).Stuck := by
  refine Stuck.bind (p := expectIdentifier _) ?_ _
  rintro r ⟨⟨previous, ⟨kind, span⟩, rest⟩, nextId⟩ hs x hx
  obtain rfl | rfl : kind = _ ∨ kind = _ := hs <;> cases hx

/-- In a block a line break separates members, so that it matters whether there is one. -/
private theorem enumMember_tandem (inBlock : Bool) (read : Array String) :
    Tandem C F n (fun _ => F.behind inBlock) .any moves (enumMember inBlock read) (enumMember inBlock read) := by
  refine .bind_on (.expectIdentifier _) ?_
  rintro ⟨name, _⟩ ⟨_, _⟩ ⟨rfl, hname⟩
  refine .guard _ Iff.rfl hname fun _ => .eat_any nofun fun more => ?_
  have hend (c newline : Bool) : Tandem (α := Turn (Array String) (List String)) C F n (fun _ => c) .any still
      (if (more || (inBlock && newline)) = true then pure (.next (read.push name))
        else pure (.done (read.push name).toList))
      (if (more || (inBlock && newline)) = true then pure (.next (read.push name))
        else pure (.done (read.push name).toList)) :=
    .ite Iff.rfl (fun _ => .pure (.next (strings_like _))) fun _ => .pure (.done (strings_like _))
  cases inBlock with
  | true => exact .atNewline_bind (.inl (Seam.calm _)) (hend _ true).given (hend _ false)
  | false => exact .kind_bind fun k k' _ _ _ => (hend _ false).given

theorem nextEnumMember_tandem (inBlock : Bool) (read : Array String) :
    Tandem C F n (fun _ => F.behind inBlock) .any onNext (nextEnumMember inBlock read)
      (nextEnumMember inBlock read) := by
  have hmember : Tandem C F n (fun _ => F.behind inBlock) .any onNext (enumMember inBlock read)
      (enumMember inBlock read) := (enumMember_tandem inBlock read).weaken fun _ _ => trivial
  cases inBlock with
  | false => exact hmember
  | true =>
    change Tandem C F n F.firm .any onNext _ _
    refine .skipNewlines_bind (.atKeyword_bind ?_ hmember)
    exact .pure_of (.done (strings_like _)) id id

private theorem endEnumeration_tandem (hfits : F.Fits (n + 1)) {start start' : Span}
    (hstart : start.Like F.scale start') (name : String) (inBlock : Bool) (members : List String) :
    Tandem C F n F.tight .any (fun _ => inBlock = true) (endEnumeration start name inBlock members)
      (endEnumeration start' name inBlock members) := by
  have hclosed {q : Node → Prop} (hq : ∀ node, ¬q node) : Tandem C F n F.tight .any q
      (if members.isEmpty = true then fault .emptyEnum start >>= fun (_ : Unit) => previous >>=
          fun last => pure ⟨.enumeration name members, start.cover last⟩
        else previous >>= fun last => pure ⟨.enumeration name members, start.cover last⟩)
      (if members.isEmpty = true then fault .emptyEnum start' >>= fun (_ : Unit) => previous >>=
          fun last => pure ⟨.enumeration name members, start'.cover last⟩
        else previous >>= fun last => pure ⟨.enumeration name members, start'.cover last⟩) := by
    refine .guard _ Iff.rfl hstart fun _ => .previous_bind hfits fun last last' hlast => ?_
    exact .pure_of (.mk (.enumeration name members) (hstart.cover hlast)) (hq _) (hq _)
  cases inBlock with
  | false => exact hclosed nofun
  | true =>
    refine .skipNewlines_moved ?_
    exact .expectKeyword_bind (hclosed fun _ => id)

theorem enumeration_tandem (hfits : F.Fits (n + 1)) :
    Tandem C F (n + 1) F.tight .solid moves enumeration enumeration := by
  refine .bind_moved .advance fun first first' hfirst => .bind (.expectIdentifier _) ?_
  rintro ⟨name, _⟩ ⟨_, _⟩ ⟨rfl, _⟩
  refine .expect_bind ?_
  have heq {xs ys : List String} (h : Like F.scale xs ys) : xs = ys := by
    induction h with
    | nil => rfl
    | cons hfirst _ ih => rw [show _ = _ from hfirst, ih]
  have hmembers (inBlock : Bool) : Tandem C F n F.tight .any still
      (loop (nextEnumMember inBlock) #[] >>= endEnumeration first.span name inBlock)
      (loop (nextEnumMember inBlock) #[] >>= endEnumeration first'.span name inBlock) := by
    have hturn (read read' : Array String) (hread : Like F.scale read read') :
        Tandem C F n (fun _ => F.behind inBlock) .any onNext (nextEnumMember inBlock read)
          (nextEnumMember inBlock read') := by
      obtain rfl : read = read' := Array.toList_inj.mp (heq hread)
      exact nextEnumMember_tandem inBlock read
    refine .bind_of (u := fun _ _ => inBlock = true) (.loop hturn (strings_like _))
      (fun members members' h => ?_) (fun _ => .inl (Nat.le_refl n)) ?_ fun _ _ => False.elim
    · obtain rfl := heq h
      exact endEnumeration_tandem hfits hfirst name inBlock members
    · intro _ _ htight
      cases inBlock with
      | true => exact .inr rfl
      | false => exact .inl htight
  exact .atNewline_bind (.inr ((enumMember_stuck false #[]).loop.bind _)) (hmembers true).given
    (hmembers false)

theorem statement_stuck (g : Grammar) : (statement g).Stuck := by
  rintro r ⟨⟨previous, ⟨kind, span⟩, rest⟩, nextId⟩ hs x hx
  obtain rfl | rfl : kind = _ ∨ kind = _ := hs
  · exact expression_stuck g r _ (.inl rfl) x hx
  · exact expression_stuck g r _ (.inr rfl) x hx

theorem program_tandem (hg : Tandem C F n F.tight .any moves g.statement g'.statement) (hstuck : g'.statement.Stuck)
    (htwin : F.twin = true) : Tandem C F n F.firm .any still (program g) (program g') := by
  refine .bind (statements_tandem hg hstuck) fun read read' hread => ?_
  refine .kind_bind fun k k' hk _ _ => ?_
  have hend : k.isEnd = k'.isEnd := by
    cases hk with
    | plain | template => rfl
    | seam hclosed => cases htwin.symm.trans (F.twin_of_closed hclosed)
    | line hfollowed => cases htwin.symm.trans (F.twin_of_followed hfollowed)
  exact .ite (by rw [hend]) (fun _ => .unexpected_bind _) fun _ => .pure hread

variable (hg : g.Paired C F n g')

include hg

theorem returnStatement_tandem : g.Follows C F n g' .solid returnStatement := by
  refine .bind_moved .advance fun first first' hfirst => .lineEnd_bind ?_ ?_ ?_
  · exact .pure (.mk (.returnWith .none) hfirst)
  · refine .bind hg.expression fun value value' hvalue => ?_
    exact .pure (.mk (.returnWith (.some hvalue)) (Span.Like.cover hfirst hvalue.span))
  · exact hg.expression_stuck.bind _

theorem constantDeclaration_tandem : g.Follows C F n g' .solid constantDeclaration := by
  refine .bind_moved .advance fun first first' hfirst => .bind (.expectIdentifier _) ?_
  rintro ⟨name, _⟩ ⟨_, _⟩ ⟨rfl, _⟩
  refine .expect_bind ?_
  refine .bind hg.expression fun value value' hvalue => ?_
  exact .pure (.mk (.declareConstant name hvalue) (Span.Like.cover hfirst hvalue.span))

theorem deletion_tandem : g.Follows C F n g' .solid deletion := by
  refine .bind_moved .advance fun first first' hfirst => ?_
  refine .bind ((chain_tandem hg).le (Nat.le_succ n)) fun target target' htarget => ?_
  refine .guard _ (by rw [isDeletable_eq_of_like htarget]) htarget.span fun _ => ?_
  exact .pure (.mk (.delete htarget) (Span.Like.cover hfirst htarget.span))

theorem superCall_tandem : g.Follows C F n g' .solid superCall := by
  refine .bind_moved .advance fun first first' hfirst => .read_bind fun around around' haround => ?_
  refine .guard _ (by rw [haround]) hfirst fun _ => ?_
  refine .bind (arguments_tandem hg) fun args args' hargs => .previous_bind hg.fits fun last last' hlast => ?_
  exact .pure (.mk (.superCall hargs) (Span.Like.cover hfirst hlast))

theorem statement_tandem : g.Follows C F n g' .any statement := by
  refine .kind_bind fun k k' hk _ _ => ?_
  have hexpression {K : Pairing} : g.Follows C F n g' K expression := (expression_tandem hg).given
  cases hk with
  | seam | line | template => exact hexpression
  | plain =>
    cases k with
    | keyword word =>
      cases word with
      | returnWord => exact .of_solid (returnStatement_tandem hg) rfl
      | continueWord => exact .of_solid (leaf_tandem .continueLoop) rfl
      | breakWord => exact .of_solid (leaf_tandem .breakLoop) rfl
      | passWord => exact .of_solid (leaf_tandem .pass) rfl
      | classWord => exact .of_solid (classDefinition_tandem hg) rfl
      | enumWord => exact .of_solid (enumeration_tandem hg.fits) rfl
      | defineWord => exact .of_solid (constantDeclaration_tandem hg) rfl
      | deleteWord => exact .of_solid (deletion_tandem hg) rfl
      | superWord =>
        refine .peek_bind rfl ?_ (.of_solid (superCall_tandem hg) rfl) hexpression
        exact nofun
      | _ => exact hexpression
    | _ => exact hexpression

end Statement

end Parser

namespace Grammar

variable {C : Corpus} {F : Seam} {n : Nat} {g g' : Grammar}

def deeper (g : Grammar) : Grammar :=
  ⟨Parser.expression g, Parser.comparison g, Parser.power g, Parser.factor g, Parser.statement g⟩

theorem InStep.deeper (h : g.Paired C F n g') (hfits : F.Fits (n + 2)) : g.deeper.InStep C F (n + 1) g'.deeper where
  fits := hfits
  expression := Parser.expression_tandem h
  comparison := Parser.comparison_tandem h
  power := Parser.power_tandem h
  factor := Parser.factor_tandem h
  statement := Parser.statement_tandem h
  expression_stuck := Parser.expression_stuck _
  statement_stuck := Parser.statement_stuck _

/-- One level deeper there is one token more. -/
theorem Paired.deeper (h : g.Paired C F n g') (hfits : F.Fits (n + 2)) : g.deeper.Paired C F (n + 1) g'.deeper :=
  ⟨.deeper h hfits, .deeper ⟨h.whole, h.whole⟩ nofun⟩

private theorem InStep.le {m : Nat} (h : g.InStep C F n g') (hm : m ≤ n) : g.InStep C F m g' where
  fits := h.fits.le (Nat.succ_le_succ hm)
  expression := h.expression.le hm
  comparison := h.comparison.le hm
  power := h.power.le hm
  factor := h.factor.le hm
  statement := h.statement.le hm
  expression_stuck := h.expression_stuck
  statement_stuck := h.statement_stuck

/-- Where there are no tokens, nothing has to be shown but that neither grammar goes back. -/
private theorem InStep.of_zero {g g' k k' : Grammar} (hleft : g.InStep C F.whole 0 k)
    (hright : k'.InStep C F.whole 0 g') (hfits : F.Fits 1) : g.InStep C F 0 g' where
  fits := hfits
  expression := .of_zero hleft.expression.left hright.expression.right
  comparison := .of_zero hleft.comparison.left hright.comparison.right
  power := .of_zero hleft.power.left hright.power.right
  factor := .of_zero hleft.factor.left hright.factor.right
  statement := .of_zero hleft.statement.left hright.statement.right
  expression_stuck := hright.expression_stuck
  statement_stuck := hright.statement_stuck

/-- On the right nothing is read at all. -/
private theorem InStep.of_exhausted (h : g.InStep C F n g') : g.InStep C F n (upTo 0) :=
  ⟨h.fits, h.expression.of_exhausted, h.comparison.of_exhausted, h.power.of_exhausted, h.factor.of_exhausted,
    h.statement.of_exhausted, nofun, nofun⟩

/-- Two grammars that are built level by level from nothing, the one on the left with a level for each
token. -/
theorem paired_of_deeper {G G' : Nat → Grammar} (hzero : G 0 = upTo 0) (hzero' : G' 0 = upTo 0)
    (hstep : ∀ {H n d d'}, H.scale = F.scale → (G d).Paired C H n (G' d') → H.Fits (n + 2) →
      (G (d + 1)).Paired C H (n + 1) (G' (d' + 1)))
    {depth : Nat} (h : n ≤ depth) (depth' : Nat) (hfits : F.Fits (n + 1)) : (G depth).Paired C F n (G' depth') := by
  induction n generalizing depth depth' with
  | zero =>
    have honward (d : Nat) : (G d).InStep C F.whole 0 (G' d) := by
      induction d with
      | zero =>
        have hthrow : Tandem (α := Node) C F.whole 0 F.whole.tight .any moves (throw .exhausted)
            (throw .exhausted) := .of_zero nofun nofun
        rw [hzero, hzero']
        exact ⟨nofun, hthrow, hthrow, hthrow, hthrow, hthrow, nofun, nofun⟩
      | succ d ih => exact (hstep (H := F.whole) rfl ⟨ih, ih⟩ nofun).toInStep.le (Nat.zero_le 1)
    exact ⟨.of_zero (honward depth) (honward depth') hfits,
      .of_zero (F := F.whole) (honward depth) (honward depth') nofun⟩
  | succ n ih =>
    obtain ⟨depth, rfl⟩ := Nat.exists_eq_add_one_of_ne_zero (Nat.ne_zero_of_lt h)
    have hdeeper (depth' : Nat) := hstep rfl (ih (Nat.le_of_succ_le_succ h) depth' hfits.pred) hfits
    cases depth' with
    | succ depth' => exact hdeeper depth'
    | zero =>
      rw [hzero']
      exact ⟨(hdeeper 0).toInStep.of_exhausted, (hdeeper 0).whole.of_exhausted⟩

/-- A grammar reads words in the same way as any other one, if it can read as deep as there are tokens. -/
theorem upTo_paired {depth : Nat} (h : n ≤ depth) (depth' : Nat) (hfits : F.Fits (n + 1)) :
    (upTo depth).Paired C F n (upTo depth') :=
  paired_of_deeper rfl rfl (fun _ => Paired.deeper) h depth' hfits

end Grammar

end ScriptLang
