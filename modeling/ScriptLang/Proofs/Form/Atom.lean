import ScriptLang.Proofs.Form.Control

/-! The smallest parts of expressions, and chains of calls, indices and member names: their form and where
they stand. -/
namespace ScriptLang.Form

open ScriptLang.Parser

variable {z : Zone} {r : Surroundings} {C : Node → Prop} {lo m k least : Nat} {g : Grammar}

section Collection

/-- Nodes that are read one after the other. -/
abbrev Collected (z : Zone) (r : Surroundings) (lo m : Nat) (read : Array Node) : Prop :=
  Held z (Admits r) lo m read.toList

theorem nextElement_since (hg : g.Forms) (read : Array Node) (hle : least ≤ m) (hheld : Collected z r lo m read) :
    Yields z r (Past z lo m) (nextElement g read)
      (turnOf (Since z lo least (Collected z r lo)) (Since z lo least (Held z (Admits r) lo))) := by
  refine atSymbol_bind (of_inside (.pure fun s hs => ⟨m, hle, hheld, hs⟩)) ?_
  refine hg.expression.bind hheld fun element m' hm hpush => ?_
  rw [← Array.toList_push] at hpush
  have hle' := Nat.le_trans hle hm
  refine skipNewlines_past (eat_bind (skipNewlines_past ?_) ?_)
  · exact .pure fun s hs => ⟨m', hle', hpush, hs⟩
  · exact .pure fun s hs => ⟨m', hle', hpush, hs⟩

theorem listLiteral_takes (hg : g.Forms) : Takes one (listLiteral g) := by
  refine takes_advance fun z r first hfirst => skipNewlines_past ?_
  refine since_bind (loop_since (fun read _ => nextElement_since hg read) (Nat.le_refl _)
    (.nil hfirst.order)) fun elements m hm hheld => ?_
  refine expect_spots.bind fun close hclose hstart => .pure fun s hs => ⟨_, ?_, hs⟩
  exact hheld.close_at hfirst hm hclose hstart (fun _ => id) fun _ => .plain rfl trivial

theorem key_past (read : Array (String × Node)) :
    Yields z r (Past z lo m) (key read) fun name s => name ∉ read.toList.map (·.1) ∧ Past z lo m s := by
  refine here_any (fun _ hs => hs.sound.current) fun span hspan => kind_bind fun kd => ?_
  have htake (name : String) : Yields z r (Inside (Past z lo m))
      (discard advance >>= fun _ => if read.any (·.1 = name) then
        fault (.duplicateKey name) span >>= fun (_ : Unit) => pure name else pure name)
      fun name s => name ∉ read.toList.map (·.1) ∧ Past z lo m s := by
    refine advance_skip (.guard hspan fun hname => .pure fun s hs => ⟨fun hmem => hname ?_, hs⟩)
    obtain ⟨entry, hentry, heq⟩ := List.mem_map.mp hmem
    rw [Array.any_eq_true']
    exact ⟨entry, by simpa using hentry, by simpa using heq⟩
  cases kd with
  | text name => exact at_inside (htake name) rfl
  | identifier name => exact at_inside (htake name) rfl
  | _ => exact unexpected fun _ hs => hs.1.sound.current

/-- Entries with different keys. -/
structure EntriesHeld (z : Zone) (r : Surroundings) (lo m : Nat) (entries : List (String × Node)) : Prop where
  keys : (entries.map (·.1)).Nodup
  held : Held z (Admits r) lo m (entries.map (·.2))

theorem nextEntry_since (hg : g.Forms) (read : Array (String × Node)) (hle : least ≤ m)
    (hread : EntriesHeld z r lo m read.toList) :
    Yields z r (Past z lo m) (nextEntry g read)
      (turnOf (Since z lo least fun m read => EntriesHeld z r lo m read.toList)
        (Since z lo least (EntriesHeld z r lo))) := by
  refine atSymbol_bind (of_inside (.pure fun s hs => ⟨m, hle, hread, hs⟩)) ?_
  refine .bind (key_past read) fun name => .given fun hname => expect_spots.skip (skipNewlines_past ?_)
  refine hg.expression.bind hread.held fun value m' hm hpush => ?_
  have hnext : EntriesHeld z r lo m' (read.push (name, value)).toList := by
    rw [Array.toList_push]
    constructor
    · rw [List.map_append, List.nodup_append]
      refine ⟨hread.keys, by simp, fun other hother last hlast => ?_⟩
      rw [List.mem_singleton.mp hlast]
      rintro rfl
      exact hname hother
    · rwa [List.map_append]
  have hle' := Nat.le_trans hle hm
  refine skipNewlines_past (eat_bind (skipNewlines_past ?_) ?_)
  · exact .pure fun s hs => ⟨m', hle', hnext, hs⟩
  · exact .pure fun s hs => ⟨m', hle', hnext, hs⟩

theorem dictLiteral_takes (hg : g.Forms) : Takes one (dictLiteral g) := by
  refine takes_advance fun z r first hfirst => skipNewlines_past ?_
  refine since_bind (loop_since (fun read _ => nextEntry_since hg read) (Nat.le_refl _)
    ⟨List.nodup_nil, .nil hfirst.order⟩) fun entries m hm hread => ?_
  refine expect_spots.bind fun close hclose hstart => .pure fun s hs => ⟨_, ?_, hs⟩
  exact hread.held.close_at hfirst hm hclose hstart (fun _ => id) fun _ => .plain rfl hread.keys

end Collection

section Template

variable {text : Cursor} {hi : Nat} {tokens : List Token}

/-- The tokens of code in a template can be read on their own. -/
theorem ofTokens_ahead {id : Nat} (hrow : Row lo hi tokens)
    (hplaced : ∀ t ∈ tokens, t.Placed text) : Ahead ⟨some text, hi⟩ lo ⟨.ofTokens tokens, id⟩ := by
  obtain ⟨init, last, rfl, hlast, hinit⟩ := hrow.ending
  have hclosed : Stream.closed (init ++ [last]) = init ++ [last] := by
    rw [Stream.closed, List.getLast?_append]
    exact if_pos hlast
  cases htokens : init ++ [last] with
  | nil => simp at htokens
  | cons first rest =>
    rw [htokens] at hrow hplaced hclosed
    rw [Stream.ofTokens, hclosed]
    obtain ⟨hlo, horder, hhi⟩ := hrow.inside first (List.mem_cons_self ..)
    have hgenuine : first.span.Genuine text := by
      have hfirst := hplaced first (List.mem_cons_self ..)
      generalize first = t at hfirst horder
      obtain ⟨start, stop, _, _⟩ := hfirst
      exact ⟨start, stop, horder⟩
    have hinside (t : Token) (ht : t ∈ first :: rest) : first.span.start.index ≤ t.span.start.index := by
      rcases List.mem_cons.mp ht with rfl | ht
      · exact Nat.le_refl _
      · exact Nat.le_trans horder ((List.pairwise_cons.mp hrow.ordered).1 t ht)
    have hrest : Row first.span.start.index hi (first :: rest) :=
      ⟨hrow.ordered, fun t ht => ⟨hinside t ht, (hrow.inside t ht).2⟩, hrow.ending⟩
    refine ⟨⟨?_, hhi, fun _ _ => hrest, ?_⟩, hlo⟩
    · rintro _ ⟨⟩
      exact hgenuine
    · rintro _ ⟨⟩
      exact hplaced

/-- Nothing is to be said of tokens that come from no text. -/
theorem untold_ahead {s : ParseState} : Ahead ⟨none, hi⟩ 0 s :=
  ⟨⟨nofun, Nat.zero_le _, nofun, nofun⟩, Nat.le_refl 0⟩

/-- What the code in a token is made of stands inside of the token. -/
structure CodeWithin (z : Zone) (span : Span) (tokens : List Token) : Prop where
  row : ∀ text ∈ z.text, Row span.start.index span.stop.index tokens
  placed : ∀ text ∈ z.text, ∀ t ∈ tokens, t.Placed text

theorem CodeWithin.ahead {span : Span} (h : CodeWithin z span tokens) (id : Nat) :
    Ahead ⟨z.text, z.stop span⟩ (z.start span) ⟨.ofTokens tokens, id⟩ := by
  obtain ⟨_ | text, hi⟩ := z
  · exact untold_ahead
  · exact ofTokens_ahead (h.row text rfl) (h.placed text rfl)

theorem interpolation_between (hg : g.Forms) {span : Span} (hspan : z.Genuine span)
    (hcode : CodeWithin z span tokens) :
    Yields z r (Past z lo m) (interpolation g span tokens) fun n s =>
      (n.Between z (z.start span) (z.stop span) ∧ Admits r n) ∧ Past z lo m s := by
  refine .guard hspan fun _ s hs => ?_
  -- the tokens around the template come back behind the code
  have hleave (node : Node) (hnode : node.Between z (z.start span) (z.stop span) ∧ Admits r node) :
      Yields z r (fun t => z.Genuine t.stream.current.span) (leaveCode s.stream node) fun n t =>
        (n.Between z (z.start span) (z.stop span) ∧ Admits r n) ∧ Past z lo m t := by
    refine kind_bind fun kd => .ite (fun _ => ?_) fun _ t _ => ⟨?_, nofun⟩
    · exact unexpected_bind fun _ ht => ht.1
    · rintro _ _ ⟨⟩
      exact ⟨hnode, hs.sound, hs.le, hs.start, hs.stop, hs.tight⟩
  suffices h : Yields ⟨z.text, z.stop span⟩ r (Ahead ⟨z.text, z.stop span⟩ (z.start span))
      (g.expression >>= leaveCode s.stream) _ from h ⟨.ofTokens tokens, s.nextId⟩ (hcode.ahead s.nextId)
  refine hg.expression.bind_ahead fun node m' hheld t hpast => ?_
  have hstop : m' ≤ z.stop span := Nat.le_trans hpast.stop hpast.sound.bound
  have hnode : node.Between z (z.start span) (z.stop span) :=
    ⟨hheld.node.nested, hheld.node.start, Nat.le_trans hheld.node.stop hstop⟩
  exact hleave node ⟨hnode, hheld.only⟩ t hpast.sound.current

theorem template_takes (hg : g.Forms) (segments : List (Segment Token)) :
    Yields z r (At (Ahead z k) (.template segments))
      (advance >>= fun token => segments.mapM (templatePart g token.span) >>= fun parts =>
        pure ⟨.template parts, token.span⟩) (Gives z (Admits r) one k) := by
  refine advance_at rfl fun token hplaced hkind hgenuine hk => yields_lower ?_ hk
  have hsegment (segment : Segment Token) (hmem : segment ∈ segments) :
      Yields z r (Past z (z.start token.span) (z.stop token.span)) (templatePart g token.span segment)
        fun part s => (∀ n ∈ part.parts, n.Between z (z.start token.span) (z.stop token.span) ∧ Admits r n) ∧
          Past z (z.start token.span) (z.stop token.span) s := by
    cases segment with
    | text value => exact .pure fun s hs => ⟨nofun, hs⟩
    | code tokens =>
      have hcode : CodeWithin z token.span tokens := by
        refine ⟨fun text ht => ?_, fun text ht => ?_⟩ <;> obtain ⟨start, stop, order, code⟩ := hplaced text ht
        · exact order segments tokens hkind hmem
        · exact code segments tokens hkind hmem
      refine .bind (interpolation_between hg hgenuine hcode) fun node => ?_
      exact .given fun hnode => .pure fun s hs => ⟨List.forall_mem_singleton.mpr hnode, hs⟩
  refine .bind (.mapM hsegment) fun parts => .given fun hparts => .pure fun s hs => ⟨_, .of_node ?_ ?_, hs⟩
  · refine ⟨.mk hgenuine fun n hn => ?_, Nat.le_refl _, Nat.le_refl _⟩
    obtain ⟨part, hpart, hn⟩ := List.mem_flatMap.mp hn
    exact (hparts part hpart n hn).1
  · refine .plain rfl trivial fun n hn => ?_
    obtain ⟨part, hpart, hn⟩ := List.mem_flatMap.mp hn
    exact (hparts part hpart n hn).2

end Template

section Atom

theorem superProperty_takes : Takes one superProperty := by
  refine takes_advance fun z r first hfirst => expect_spots.skip ?_
  refine expectIdentifier_spots.bind ?_
  rintro ⟨name, nameSpan⟩ hname hstart
  refine .pure fun s hs => ⟨_, ?_, hs⟩
  exact (Held.nil hfirst.order).close_at hfirst (Nat.le_refl _) hname hstart nofun fun _ => .plain rfl trivial

theorem parenthesised_takes (hg : g.Forms) : Takes one (parenthesised g) := by
  refine takes_advance fun z r first hfirst => skipNewlines_past ?_
  refine hg.expression.bind (.nil hfirst.order) fun inner m hm hinner => skipNewlines_past ?_
  refine expect_spots.bind fun close hclose hstart => .pure fun s hs => ⟨_, ?_, hs⟩
  have hinner : Held z (Admits r) _ m [inner] := hinner
  exact hinner.parts.close_at hfirst hm hclose hstart (fun _ => id) fun _ _ => hinner.only.respan rfl

section

variable {shape : Shape Node} {r : Surroundings} {k : Nat} {kd : TokenKind Token} (h : shape.parts = [])
  (hplain : shape.isPlain = true) (hform : shape.WellFormed)

include h hplain hform

theorem leaf_takes : Takes one (leaf shape) := by
  intro z r k
  refine advance_bind fun token htoken hk => .pure fun s hs => Gives.lower ⟨_, ?_, hs⟩ hk
  refine .of_node ⟨.mk htoken ?_, Nat.le_refl _, Nat.le_refl _⟩ (.plain hplain hform ?_) <;> simp [h]

theorem leaf_at (hkd : kd.isEnd = false) : Yields z r (At (Ahead z k) kd) (leaf shape) (Gives z (Admits r) one k) :=
  at_inside (leaf_takes h hplain hform z r k) hkd

end

theorem atom_reads (hg : g.Forms) : Reads one (atom g) := by
  intro z r k
  refine kind_bind fun kd => ?_
  have hfault {what : String} {kd : TokenKind Token} : Yields z r (At (Ahead z k) kd)
      (Parser.unexpected what) (Gives z (Admits r) one k) :=
    unexpected fun _ hs => hs.1.sound.current
  cases kd with
  | number | text | identifier => exact leaf_at rfl rfl trivial rfl
  | template segments => exact template_takes hg segments
  | symbol sign =>
    cases sign with
    | leftParen => exact at_inside (parenthesised_takes hg z r k) rfl
    | leftBracket => exact at_inside (listLiteral_takes hg z r k) rfl
    | leftBrace => exact at_inside (dictLiteral_takes hg z r k) rfl
    | _ => exact hfault
  | keyword word =>
    cases word with
    | trueWord | falseWord | noneWord => exact leaf_at rfl rfl trivial rfl
    | ifWord => exact at_inside (conditional_takes hg z r k) rfl
    | forWord => exact at_inside (countingLoop_takes hg z r k) rfl
    | foreachWord => exact at_inside (eachLoop_takes hg z r k) rfl
    | whileWord => exact at_inside (whileLoop_takes hg z r k) rfl
    | switchWord => exact at_inside (switch_takes hg z r k) rfl
    | funcWord => exact at_inside (function_takes hg z r k) rfl
    | superWord => exact at_inside (superProperty_takes z r k) rfl
    | _ => exact hfault
  | _ => exact hfault

end Atom

section Chain

variable (hg : g.Forms)

include hg

theorem nextArgument_since (read : Array Node) (hle : least ≤ m) (hheld : Collected z r lo m read) :
    Yields z r (Past z lo m) (nextArgument g read)
      (turnOf (Since z lo least (Collected z r lo)) (Since z lo least (Held z (Admits r) lo))) := by
  refine hg.expression.bind hheld fun argument m' hm hpush => ?_
  rw [← Array.toList_push] at hpush
  have hle' := Nat.le_trans hle hm
  refine skipNewlines_past (eat_bind (skipNewlines_past ?_) (expect_spots.skip ?_))
  · exact .pure fun s hs => ⟨m', hle', hpush, hs⟩
  · exact .pure fun s hs => ⟨m', hle', hpush, hs⟩

theorem arguments_reads : Reads id (arguments g) := by
  intro z r k
  refine expect_spots.skip_ahead (skipNewlines_past (eat_bind ?_ ?_))
  · exact .pure fun s hs => ⟨k, .nil (Nat.le_refl _), hs⟩
  · refine (loop_since (fun read _ => nextArgument_since hg read) (Nat.le_refl _)
      (.nil (Nat.le_refl _))).post fun args s ⟨m, _, hheld, hs⟩ => ?_
    exact ⟨m, hheld, hs⟩

variable {node : Node}

theorem call_gives (optional : Bool) (hnode : Held z (Admits r) lo m [node]) :
    Yields z r (Past z lo m) (call g optional node) (Gives z (Admits r) one lo) := by
  refine gives_bind (of_ahead (arguments_reads hg z r m)) fun args m' hargs => ?_
  refine previous_bind fun last hlast hm hstop => .pure fun s hs => ⟨_, ?_, hs.lower hnode.le⟩
  exact extend_node hnode hargs hlast hm hstop (fun _ => id) fun _ => .plain rfl trivial

/-- What was read before a bound of a slice, and the bound. -/
private theorem sliceBound_since (first : Option Node) (hheld : Held z (Admits r) lo m first.toList) :
    Yields z r (Past z lo m) (sliceBound g >>= fun o => pure (Index.slice first o))
      (Since z lo m fun m (index : Index Node) => Held z (Admits r) lo m index.parts) := by
  unfold sliceBound
  rw [bind_assoc]
  refine atSymbol_bind (of_inside (.pure fun s hs => ⟨m, Nat.le_refl _, ?_, hs⟩)) ?_
  · change Held z (Admits r) lo m (first.toList ++ [])
    rwa [List.append_nil]
  · change Yields z r _ ((g.expression >>= fun n => pure (some n)) >>= fun o =>
      pure (Index.slice first o)) _
    rw [bind_assoc]
    exact hg.expression.bind hheld fun stop m' hm h => .pure fun s hs => ⟨m', hm, h, hs⟩

theorem indexParts_since (hlo : lo ≤ m) :
    Yields z r (Past z lo m) (indexParts g) (Since z lo m fun m (index : Index Node) =>
      Held z (Admits r) lo m index.parts) := by
  refine atSymbol_bind (of_inside (.pure fun s hs => ⟨m, Nat.le_refl _, .nil hlo, hs⟩)) ?_
  refine eat_bind (sliceBound_since hg none (.nil hlo)) ?_
  refine hg.expression.bind (.nil hlo) fun first m' hm hfirst => eat_bind ?_ ?_
  · refine (sliceBound_since hg (some first) hfirst).post ?_
    exact fun i s ⟨m'', hm', h⟩ => ⟨m'', Nat.le_trans hm hm', h⟩
  · exact .pure fun s hs => ⟨m', hm, hfirst, hs⟩

/-- Empty brackets are read where an assignment is at hand. -/
theorem index_offers (optional : Bool) (hnode : Held z (Admits r) lo m [node]) :
    Yields z r (Past z lo m) (index g optional node) (Offered z r lo) := by
  unfold index
  refine of_ahead (expect_spots.bind_ahead fun opening hopening hm => ?_)
  have hbegin : m ≤ z.stop opening.span := Nat.le_trans hm hopening.order
  refine .pre (P := Past z m (z.stop opening.span)) ?_ fun s hs => hs.lower hm
  refine since_bind (indexParts_since hg hbegin) fun key m' hm' hkey => ?_
  refine expect_spots.bind fun close hclose hstart => ?_
  have horder := hclose.order
  have hindex : Held z (fun _ => ∀ n ∈ node :: key.parts, Admits r n) lo (z.stop close.span)
      [⟨.index node key optional, node.span.cover close.span⟩] :=
    extend_node hnode hkey hclose (by omega) (by omega) (fun _ => id) fun _ => id
  cases key with
  | push =>
    refine atSymbol_at (.pure fun s hs => ⟨_, .of_node hindex.node ?_, hs.1.lower hnode.le⟩) ?_
    · exact .brackets rfl hnode.only hs.2
    · exact .fault_bind (hopening.cover hclose)
  | single key =>
    refine .pure fun s hs => offered_of ⟨_, hindex.mono fun n hn hform => ?_, hs.lower hnode.le⟩
    rw [List.mem_singleton.mp hn]
    exact .plain rfl trivial hform
  | slice start stop =>
    refine .pure fun s hs => offered_of ⟨_, hindex.mono fun n hn hform => ?_, hs.lower hnode.le⟩
    rw [List.mem_singleton.mp hn]
    exact .plain rfl trivial hform

/-- Where calls or indices follow an operand, another sign than `=` is at hand. -/
theorem links_offers (optional : Bool) (node : Node) :
    Yields z r (Offered z r lo node) (links g optional node) (Offered z r lo) := by
  refine Yields.loop (fun node => atSymbol_at ?_ ?_) node
  · refine of_offered (by simp) fun m hnode => of_at ?_
    exact .bind (call_gives hg optional hnode) fun next => .pure fun _ => offered_of
  refine .pre (P := Offered z r lo node) (atSymbol_at ?_ (.pure fun _ hs => hs.1)) fun _ hs => hs.1
  refine of_offered (by simp) fun m hnode => of_at ?_
  exact .bind (index_offers hg optional hnode) fun next => .pure fun _ => id

theorem instantiation_takes : Takes one (instantiation g) := by
  unfold instantiation
  dsimp only
  refine takes_advance fun z r first hfirst => ?_
  refine expectIdentifier_spots.bind ?_
  rintro ⟨name, nameSpan⟩ hname hstart
  have horder := hfirst.order
  have hbegin : z.stop first.span ≤ z.stop nameSpan := Nat.le_trans hstart hname.order
  have hclass : Held z (Admits r) (z.start first.span) (z.stop nameSpan) [⟨.lookup name, nameSpan⟩] :=
    .of_node ⟨.mk hname nofun, Nat.le_trans horder hstart, Nat.le_refl _⟩ (.plain rfl trivial nofun)
  refine atSymbol_bind (of_inside ?_) ?_
  · refine (arguments_reads hg).bind hclass fun args m hm hheld => ?_
    exact close_node hheld hfirst (Nat.le_trans hbegin hm) (fun _ => id) fun _ => .plain rfl trivial
  · exact close_node hclass hfirst hbegin (fun _ => id) fun _ => .plain rfl trivial

theorem chainHead_offers : Offers (chainHead g) := by
  intro z r k
  refine atKeyword_bind ?_ ?_
  · exact .bind (instantiation_takes hg z r k) fun node => (links_offers hg false node).pre fun _ => offered_of
  · exact .bind (atom_reads hg z r k) fun node => (links_offers hg false node).pre fun _ => offered_of

theorem nextLink_offers (x : Node × Bool) :
    Yields z r (Offered z r lo x.1) (nextLink g x) (turnOf (fun x => Offered z r lo x.1) (Offered z r lo)) := by
  obtain ⟨node, optional⟩ := x
  refine kind_bind fun kd => ?_
  cases hsign : memberSign kd with
  | none => exact .pure fun s hs => hs.1
  | some means =>
    obtain ⟨isStatic, isOptional⟩ := means
    have hkd : kd.isEnd = false ∧ kd ≠ .symbol .equal := by
      refine ⟨?_, ?_⟩
      · cases kd <;> first | rfl | cases hsign
      · rintro rfl
        cases hsign
    refine of_offered hkd.2 fun m hnode => at_inside (advance_skip ?_) hkd.1
    have hlinks (optional : Bool) (next : Node) :
        Yields z r (Offered z r lo next) (links g optional next >>= fun node => pure (.next (node, optional)))
          (turnOf (fun x => Offered z r lo x.1) (Offered z r lo)) :=
      .bind (links_offers hg optional next) fun node => .pure fun _ => id
    refine atSymbol_any fun parens => .ite (fun _ => ?_) fun _ => ?_
    · exact .bind (call_gives hg _ hnode) fun next => (hlinks _ next).pre fun _ => offered_of
    refine atSymbol_any fun brackets => .ite (fun _ => ?_) fun _ => ?_
    · exact .bind (index_offers hg _ hnode) fun next => hlinks _ next
    refine of_ahead (expectIdentifier_spots.bind_ahead ?_)
    rintro ⟨name, nameSpan⟩ hname hstart
    have hmember {shape : Shape Node} (hshape : shape.parts = [node]) (hplain : shape.isPlain = true)
        (hform : shape.WellFormed) (s : ParseState) (hs : Past z (z.start nameSpan) (z.stop nameSpan) s) :
        Offered z r lo ⟨shape, node.span.cover nameSpan⟩ s := by
      refine offered_of ⟨_, ?_, hs.lower (Nat.le_trans hnode.le hstart)⟩
      exact extend_node hnode (.nil (Nat.le_trans hstart hname.order)) hname hstart
        (Nat.le_refl _) (by simp [hshape]) fun _ => .plain hplain hform
    cases isStatic with
    | true | false => exact (hlinks _ _).pre (hmember rfl rfl trivial)

theorem chain_offers : Offers (chain g) := fun z r k =>
  .bind (chainHead_offers hg z r k) fun node => Yields.loop (nextLink_offers hg) (node, false)

end Chain

end ScriptLang.Form
