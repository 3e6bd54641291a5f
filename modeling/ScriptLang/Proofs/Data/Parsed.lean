import ScriptLang.Proofs.Data.Scanned
import ScriptLang.Proofs.Grammar.Single

/-! The literals of data. Main statement: the tokens of a datum are read as a literal for it. -/
namespace ScriptLang

/-- A literal for a datum. A minus sign is an operator before a number. -/
inductive Node.Denotes : Node → Datum → Prop
  | nothing (span) : Denotes ⟨.nothing, span⟩ .nothing
  | number {value} (span) (h : Number.isNegative value = false) :
      Denotes ⟨.number value.abs, span⟩ (.number value)
  | negative {value} (span inner) (h : Number.isNegative value = true) :
      Denotes ⟨.unary .minus ⟨.number value.abs, inner⟩, span⟩ (.number value)
  | text (value span) : Denotes ⟨.text value, span⟩ (.text value)
  | boolean (value span) : Denotes ⟨.boolean value, span⟩ (.boolean value)
  | list {nodes data} (span) (parts : List.Forall₂ Denotes nodes data) :
      Denotes ⟨.list nodes, span⟩ (.list data)
  | dict {entries data} (span) (parts : List.Forall₂ (EntryAlike Denotes) entries data) :
      Denotes ⟨.dict entries, span⟩ (.dict data)

inductive TokenKind.Opens : TokenKind Token → Prop
  | number (value) : Opens (.number value)
  | text (value) : Opens (.text value)
  | noneWord : Opens (.keyword .noneWord)
  | trueWord : Opens (.keyword .trueWord)
  | falseWord : Opens (.keyword .falseWord)
  | bracket : Opens (.symbol .leftBracket)
  | brace : Opens (.symbol .leftBrace)

inductive TokenKind.Closes : TokenKind Token → Prop
  | endOfInput : Closes .endOfInput
  | comma : Closes (.symbol .comma)
  | bracket : Closes (.symbol .rightBracket)
  | brace : Closes (.symbol .rightBrace)

/-- Every datum begins with a sign or with what opens a literal. -/
theorem Datum.kinds_eq (d : Datum) : ∃ k kinds, d.kinds = k :: kinds ∧ (TokenKind.Opens k ∨ k = .symbol .minus) := by
  cases d with
  | nothing => exact ⟨_, _, by rw [kinds], .inl .noneWord⟩
  | number value =>
    rw [kinds]
    split
    · exact ⟨_, _, rfl, .inr rfl⟩
    · exact ⟨_, _, rfl, .inl (.number _)⟩
  | text value => exact ⟨_, _, by rw [kinds], .inl (.text value)⟩
  | boolean value =>
    rw [kinds]
    cases value
    · exact ⟨_, _, rfl, .inl .falseWord⟩
    · exact ⟨_, _, rfl, .inl .trueWord⟩
  | list => exact ⟨_, _, by rw [kinds]; rfl, .inl .bracket⟩
  | dict => exact ⟨_, _, by rw [kinds]; rfl, .inl .brace⟩

namespace Parser

open TokenKind (Opens Closes)

variable {g : Grammar} {r : Surroundings} {kinds : List (TokenKind Token)} {Q : Node → Prop}
  {k : TokenKind Token}

theorem level_reads {operand : Parser Node} {op? : TokenKind Token → Option LevelOp}
    (h : Reads Closes operand r kinds Q) (hop : ∀ k, Closes k → op? k = none) (hturns : 0 < r.turns) :
    Reads Closes (level g operand op?) r kinds Q := by
  obtain ⟨turns, hturns⟩ := Nat.exists_eq_succ_of_ne_zero (Nat.ne_of_gt hturns)
  refine .finish h fun node hnode => .loop ?_
  rw [hturns]
  refine .iterate_done (.look .kind (fun k hk => ?_) fun _ => id)
  rw [hop k hk]
  exact .pure ⟨node, rfl, hnode⟩

theorem closes_endsChain (k : TokenKind Token) (h : Closes k) : k.EndsChain := by
  cases h <;> exact ⟨rfl, rfl, rfl⟩

section

variable (h : Reads Closes (atom g) r (k :: kinds) Q)

include h

variable (hopens : Opens k) (hturns : 0 < r.turns)

include hopens hturns

theorem chainHead_reads : Reads Closes (chainHead g) r (k :: kinds) Q := by
  refine .look (.atKeyword .newWord false) ?_ fun _ _ => ?_
  · rintro _ rfl
    exact .finish h fun _ hnode => links_reads closes_endsChain false hnode hturns
  · cases hopens <;> rfl

theorem chain_reads : Reads Closes (chain g) r (k :: kinds) Q :=
  .finish (chainHead_reads h hopens hturns) fun _ hnode => nextLinks_reads closes_endsChain false hnode hturns

theorem factor_reads : Reads Closes (factor g) r (k :: kinds) Q := by
  have hchain := chain_reads h hopens hturns
  refine .look .kind (fun k' hk => ?_) fun _ _ => hopens
  cases hk <;> exact .look .kind (fun _ hk => by cases hk <;> exact hchain) fun _ _ => hopens

end

theorem leaf_reads (C : TokenKind Token → Prop) (shape : Shape Node) (k : TokenKind Token) :
    Reads C (leaf shape) r [k] fun node => ∃ span, node = ⟨shape, span⟩ :=
  .take fun token _ => .pure ⟨token.span, rfl⟩

theorem atom_reads_number (C : TokenKind Token → Prop) (value : Float) :
    Reads C (atom g) r [.number value] fun node => ∃ span, node = ⟨.number value, span⟩ := by
  exact .ahead (leaf_reads C _ _)

theorem factor_reads_negative {value : Float} (h : Number.isNegative value = true) {g' : Grammar}
    (hfactor : g.factor = factor g') (hturns : 0 < r.turns) (hdepth : r.depth < maxNesting) :
    Reads Closes (factor g) r (Datum.number value).kinds (Node.Denotes · (.number value)) := by
  rw [Datum.kinds, if_pos h]
  refine .ahead (.take fun sign _ => ?_)
  have hoperand : Reads Closes (factor g') { r with depth := r.depth + 1 } [.number value.abs]
      fun node => ∃ span, node = ⟨.number value.abs, span⟩ :=
    factor_reads (atom_reads_number Closes value.abs) (.number _) hturns
  refine .finish (.nested (hfactor ▸ hoperand) hdepth) ?_
  rintro _ ⟨inner, rfl⟩
  exact .pure (.negative _ inner h)

theorem power_reads (h : Reads Closes (factor g) r kinds Q) : Reads Closes (power g) r kinds Q := by
  refine .finish h fun node hnode => .look .kind (fun k hk => ?_) fun _ => id
  cases hk <;> exact .pure hnode

theorem comparison_reads (h : Reads Closes (factor g) r (k :: kinds) Q) (hopens : Opens k ∨ k = .symbol .minus)
    (hturns : 0 < r.turns) : Reads Closes (comparison g) r (k :: kinds) Q := by
  have hterm : Reads Closes (term g) r (k :: kinds) Q :=
    level_reads (power_reads h) (by rintro _ ⟨⟩ <;> rfl) hturns
  have hsum : Reads Closes (sum g) r (k :: kinds) Q :=
    level_reads hterm (by rintro _ ⟨⟩ <;> rfl) hturns
  have hbitwise : Reads Closes (bitwise g) r (k :: kinds) Q :=
    level_reads hsum (by rintro _ ⟨⟩ <;> rfl) hturns
  have hlevel : Reads Closes (level g (bitwise g) comparisonOp) r (k :: kinds) Q :=
    level_reads hbitwise (by rintro _ ⟨⟩ <;> rfl) hturns
  refine .look (C := fun k => Opens k ∨ k = .symbol .minus) .kind ?_ fun _ _ => hopens
  rintro _ (hk | rfl)
  · cases hk <;> exact hlevel
  · exact hlevel

theorem expression_reads (h : Reads Closes (factor g) { r with depth := r.depth + 1 } (k :: kinds) Q)
    (hopens : Opens k ∨ k = .symbol .minus) (hturns : 0 < r.turns) (hdepth : r.depth < maxNesting) :
    Reads Closes (expression g) r (k :: kinds) Q := by
  have hcondition : Reads Closes (condition g) { r with depth := r.depth + 1 } (k :: kinds) Q :=
    level_reads (comparison_reads h hopens hturns) (by rintro _ ⟨⟩ <;> rfl) hturns
  refine .nested (.look (.atKeyword .varWord false) ?_ fun _ _ => ?_) hdepth
  · rintro _ rfl
    refine .finish hcondition fun node hnode => .look (.eat_not .equal) ?_ ?_
    · rintro _ rfl
      exact .pure hnode
    · rintro _ ⟨⟩ <;> rfl
  · rcases hopens with hopens | rfl
    · cases hopens <;> rfl
    · rfl

section Items

variable {α β : Type}

private def behindItem (read : Array α) (item : α) : Parser (Turn (Array α) (List α)) := do
  skipNewlines
  if ← eat .comma then
    skipNewlines
    return .next (read.push item)
  else return .done (read.push item).toList

private theorem behindItem_reads_comma (read : Array α) (item : α) :
    Reads (fun k => k.isNewline = false) (behindItem read item) r [.symbol .comma]
      fun turn => ∃ next, turn = .next next ∧ next = read.push item := by
  refine .look .skipNewlines (fun _ _ => .finish (.eat .comma) ?_) fun _ _ => rfl
  rintro _ rfl
  exact .look .skipNewlines (fun _ _ => .pure ⟨_, rfl, rfl⟩) fun _ => id

private theorem behindItem_reads_last (read : Array α) (item : α) {close : Symbol} (hclose : close ≠ .comma) :
    Reads (· = .symbol close) (behindItem read item) r []
      fun turn => ∃ all, turn = .done all ∧ all = (read.push item).toList := by
  refine .look .skipNewlines (fun _ _ => .look (.eat_not .comma) ?_ ?_) ?_
  · rintro _ rfl
    exact .pure ⟨_, rfl, rfl⟩
  · rintro _ rfl
    exact decide_eq_false hclose
  · rintro _ rfl
    rfl

/-- A turn that reads the item `b` behind those of `read`, up to what `behindItem` reads. -/
private def ReadsItem (turn : Array α → Parser (Turn (Array α) (List α))) (r : Surroundings)
    (piece : β → List (TokenKind Token)) (R : α → β → Prop) (read : Array α) (b : β) : Prop :=
  ∀ ⦃D : TokenKind Token → Prop⦄ ⦃more : List (TokenKind Token)⦄ ⦃U : Turn (Array α) (List α) → Prop⦄,
    (∀ a, R a b → Reads D (behindItem read a) r more U) → (∀ k, D k → Closes (more.head?.getD k)) →
    Reads D (turn read) r (piece b ++ more) U

variable {turn : Array α → Parser (Turn (Array α) (List α))} {piece : β → List (TokenKind Token)}
  {R : α → β → Prop} {close : Symbol} {items : List β}

variable (hclose : Closes (.symbol close)) (hcomma : close ≠ .comma)
  (hstop : ∀ read : Array α, Reads (· = .symbol close) (turn read) r [] (· = .done read.toList))
  (hitem : ∀ (read : Array α) before b after, before ++ b :: after = items → List.Forall₂ R read.toList before →
    ReadsItem turn r piece R read b)
  (hpiece : ∀ b, ∃ k ks, piece b = k :: ks ∧ k.isNewline = false)

include hclose hcomma hstop hitem hpiece

/-- The items that remain behind those of `read`. -/
private theorem iterate_reads_items (rest : List β) :
    ∀ (turns : Nat) (before : List β) (read : Array α), before ++ rest = items → rest.length < turns →
      List.Forall₂ R read.toList before →
      Reads (· = .symbol close) (iterate turn turns read) r ([.symbol .comma].intercalate (rest.map piece))
        (List.Forall₂ R · items) := by
  induction rest with
  | nil =>
    intro turns before read hitems hturns hread
    obtain ⟨turns, rfl⟩ := Nat.exists_eq_succ_of_ne_zero (Nat.ne_of_gt hturns)
    rw [List.append_nil] at hitems
    subst hitems
    refine .iterate_done ((hstop read).mono (fun _ => id) ?_)
    rintro _ rfl
    exact ⟨_, rfl, hread⟩
  | cons b rest ih =>
    intro turns before read hitems hturns hread
    obtain ⟨turns, rfl⟩ := Nat.exists_eq_succ_of_ne_zero (Nat.ne_of_gt (Nat.zero_lt_of_lt hturns))
    have hreads := hitem read before b rest hitems hread
    have hpush (a : α) (ha : R a b) : List.Forall₂ R (read.push a).toList (before ++ [b]) := by
      rw [Array.toList_push]
      exact List.rel_append hread (.cons ha .nil)
    cases rest with
    | nil =>
      rw [List.map_singleton, List.intercalate_singleton, ← List.append_nil (piece b)]
      refine .iterate_done (hreads (fun a ha => ?_) ?_)
      · refine (behindItem_reads_last read a hcomma).mono (fun _ => id) ?_
        rintro _ ⟨_, rfl, rfl⟩
        exact ⟨_, rfl, hitems ▸ hpush a ha⟩
      · rintro _ rfl
        exact hclose
    | cons b' rest =>
      obtain ⟨k, ks, hk, hline⟩ := hpiece b'
      rw [List.map_cons, List.map_cons, List.intercalate_cons_cons]
      have hturn : Reads (fun k => k.isNewline = false) (turn read) r (piece b ++ [.symbol .comma])
          fun t => ∃ next, t = .next next ∧ List.Forall₂ R next.toList (before ++ [b]) := by
        refine hreads (fun a ha => ?_) fun _ _ => .comma
        refine (behindItem_reads_comma read a).mono (fun _ => id) ?_
        rintro _ ⟨_, rfl, rfl⟩
        exact ⟨_, rfl, hpush a ha⟩
      refine .iterate_next hturn (fun next hnext => ih turns (before ++ [b]) next ?_ ?_ hnext) ?_
      · rw [List.append_assoc]
        exact hitems
      · exact Nat.lt_of_succ_lt_succ hturns
      · intro _ _
        cases rest <;> simpa [hk] using hline

/-- Items between signs, with commas between them. -/
private theorem literal_reads (hturns : items.length < r.turns) (k : TokenKind Token) (shape : List α → Shape Node)
    (what : String) (hshape : ∀ all span, List.Forall₂ R all items → Q ⟨shape all, span⟩) :
    Reads Closes (do
      let start := (← advance).span
      skipNewlines
      let all ← loop turn #[]
      let last ← expect close what
      return ⟨shape all, start.cover last.span⟩) r
      (k :: [.symbol .comma].intercalate (items.map piece) ++ [.symbol close]) Q := by
  have hitems : Reads (· = .symbol close) (loop turn #[]) r
      ([.symbol .comma].intercalate (items.map piece)) (List.Forall₂ R · items) :=
    .loop (iterate_reads_items hclose hcomma hstop hitem hpiece items r.turns [] #[] rfl hturns .nil)
  refine .take fun start _ => .look .skipNewlines (fun _ _ => .bind hitems (fun all hall => ?_) ?_) ?_
  · exact .finish (.expect close what) fun last _ => .pure (hshape all _ hall)
  · exact fun _ _ => rfl
  · intro _ _
    cases items with
    | nil => rfl
    | cons b items =>
      obtain ⟨k, ks, hk, hline⟩ := hpiece b
      cases items <;> simpa [hk] using hline

end Items

section Collection

variable {read : Array (String × Node)}

theorem begins_not_newline (h : Opens k ∨ k = .symbol .minus) : k.isNewline = false := by
  rcases h with h | rfl
  · cases h <;> rfl
  · rfl

theorem nextElement_reads {d : Datum} (h : Reads Closes g.expression r d.kinds (Node.Denotes · d))
    (read : Array Node) : ReadsItem (nextElement g) r Datum.kinds Node.Denotes read d := by
  intro D more U hbehind hmore
  obtain ⟨k, kinds, hkinds, hopens⟩ := d.kinds_eq
  refine .look (.atSymbol .rightBracket false) ?_ fun _ _ => ?_
  · rintro _ rfl
    exact .bind h hbehind hmore
  · rw [hkinds]
    rcases hopens with hopens | rfl
    · cases hopens <;> rfl
    · rfl

theorem listLiteral_reads {data : List Datum} (h : ∀ d ∈ data, Reads Closes g.expression r d.kinds (Node.Denotes · d))
    (hturns : data.length < r.turns) :
    Reads Closes (listLiteral g) r (Datum.list data).kinds (Node.Denotes · (.list data)) := by
  rw [Datum.kinds]
  refine literal_reads .bracket (by decide) (fun read => ?_) (fun read before d after hdata _ => ?_)
    (fun d => ?_) hturns _ .list _ fun all span hall => .list span hall
  · refine .look (.atSymbol .rightBracket true) ?_ ?_
    · rintro _ rfl
      exact .pure rfl
    · rintro _ rfl
      rfl
  · exact nextElement_reads (h d (by simp [← hdata])) read
  · obtain ⟨k, kinds, hkinds, hopens⟩ := d.kinds_eq
    exact ⟨k, kinds, hkinds, begins_not_newline hopens⟩

theorem key_reads (C : TokenKind Token → Prop) {name : String}
    (h : read.any (·.1 = name) = false) : Reads C (key read) r [.text name] (· = name) := by
  refine .look (C := fun _ => True) .here (fun span _ => ?_) fun _ _ => trivial
  refine .ahead (.finish (.discard (.advance _)) fun _ _ => ?_)
  rw [h]
  exact .pure rfl

private abbrev entryKinds (entry : String × Datum) : List (TokenKind Token) :=
  .text entry.1 :: .symbol .colon :: entry.2.kinds

theorem nextEntry_reads {entry : String × Datum}
    (h : Reads Closes g.expression r entry.2.kinds (Node.Denotes · entry.2))
    (hkey : read.any (·.1 = entry.1) = false) :
    ReadsItem (nextEntry g) r entryKinds (EntryAlike Node.Denotes) read entry := by
  intro D more U hbehind hmore
  obtain ⟨name, d⟩ := entry
  refine .look (.atSymbol .rightBrace false) ?_ fun _ _ => rfl
  rintro _ rfl
  have hvalue : Reads D (g.expression >>= fun node => behindItem read (name, node)) r (d.kinds ++ more) U :=
    .bind h (fun node hnode => hbehind (name, node) (.mk name hnode)) hmore
  have hcolon (C : TokenKind Token → Prop) : Reads C (discard (expect .colon "':'")) r
      [.symbol .colon] fun _ => True := .discard (.expect .colon _)
  have hline (k' : TokenKind Token) : ((d.kinds ++ more).head?.getD k').isNewline = false := by
    obtain ⟨k, kinds, hkinds, hopens⟩ := d.kinds_eq
    rw [hkinds]
    exact begins_not_newline hopens
  change Reads D _ r ([.text name] ++ ([.symbol .colon] ++ (d.kinds ++ more))) U
  refine .bind (key_reads (fun _ => True) hkey) ?_ fun _ _ => trivial
  rintro _ rfl
  refine .bind (hcolon fun _ => True) (fun _ _ => ?_) fun _ _ => trivial
  exact .look .skipNewlines (fun _ _ => hvalue) fun k' _ => hline k'

theorem dictLiteral_reads {data : List (String × Datum)} (hnodup : (data.map (·.1)).Nodup)
    (h : ∀ entry ∈ data, Reads Closes g.expression r entry.2.kinds (Node.Denotes · entry.2))
    (hturns : data.length < r.turns) :
    Reads Closes (dictLiteral g) r (Datum.dict data).kinds (Node.Denotes · (.dict data)) := by
  rw [Datum.kinds]
  refine literal_reads .brace (by decide) (fun read => ?_) (fun read before entry after hdata hread => ?_)
    (fun entry => ⟨_, _, rfl, rfl⟩) hturns _ .dict _ fun all span hall => .dict span hall
  · refine .look (.atSymbol .rightBrace true) ?_ ?_
    · rintro _ rfl
      exact .pure rfl
    · rintro _ rfl
      rfl
  · refine nextEntry_reads (h entry (by simp [← hdata])) ?_
    rw [← hdata, List.map_append, List.map_cons, ← keys_of_forall₂ hread] at hnodup
    have hnew := (List.nodup_append.mp hnodup).2.2
    rw [Array.any_eq_false']
    intro other hother heq
    exact hnew other.1 (List.mem_map_of_mem (Array.mem_toList_iff.mpr hother)) entry.1 List.mem_cons_self
      (of_decide_eq_true heq)

end Collection

end Parser

section Length

variable {α β : Type} {x : α} {pieces : List (List α)}

private theorem length_le_intercalate_of_mem {piece : List α} (h : piece ∈ pieces) :
    piece.length ≤ ([x].intercalate pieces).length := by
  induction pieces with
  | nil => cases h
  | cons first rest ih =>
    cases rest with
    | nil =>
      rw [List.mem_singleton.mp h]
      exact Nat.le_of_eq (by rw [List.intercalate_singleton])
    | cons second rest =>
      rw [List.intercalate_cons_cons, List.length_append, List.length_append]
      rcases List.mem_cons.mp h with rfl | h
      · omega
      · exact Nat.le_add_left_of_le (ih h)

private theorem length_le_intercalate (h : ∀ piece ∈ pieces, piece ≠ []) :
    pieces.length ≤ ([x].intercalate pieces).length := by
  induction pieces with
  | nil => exact Nat.zero_le _
  | cons first rest ih =>
    obtain ⟨hfirst, hrest⟩ := List.forall_mem_cons.mp h
    have hpos := List.length_pos_iff.mpr hfirst
    cases rest with
    | nil =>
      rw [List.intercalate_singleton]
      exact hpos
    | cons second rest =>
      have hlength := ih hrest
      rw [List.intercalate_cons_cons, List.length_append, List.length_append, List.length_cons]
      omega

end Length

namespace Datum

open ScriptLang.Parser ScriptLang.TokenKind

theorem kinds_ne_nil (d : Datum) : d.kinds ≠ [] := by
  obtain ⟨k, kinds, hkinds, -⟩ := d.kinds_eq
  rw [hkinds]
  exact List.cons_ne_nil _ _

theorem kinds_list (data : List Datum) : (list data).kinds =
    .symbol .leftBracket :: ([.symbol .comma].intercalate (data.map kinds) ++ [.symbol .rightBracket]) := by
  rw [kinds, List.cons_append]

theorem kinds_dict (data : List (String × Datum)) : (dict data).kinds =
    .symbol .leftBrace :: ([.symbol .comma].intercalate (data.map entryKinds) ++ [.symbol .rightBrace]) := by
  rw [kinds, List.cons_append]

private theorem length_kinds {β : Type} {data : List β} {piece : β → List (TokenKind Token)}
    (hpiece : ∀ b, piece b ≠ []) {left right : TokenKind Token} {all : List (TokenKind Token)}
    (hall : all = left :: ([.symbol .comma].intercalate (data.map piece) ++ [right])) :
    data.length + 2 ≤ all.length ∧ ∀ b ∈ data, (piece b).length + 2 ≤ all.length := by
  have hlength : all.length = ([.symbol .comma].intercalate (data.map piece)).length + 2 := by
    rw [hall, List.length_cons, List.length_append]
    rfl
  rw [hlength]
  constructor
  · have hcount : (data.map piece).length ≤ ([.symbol .comma].intercalate (data.map piece)).length := by
      refine length_le_intercalate fun p hp => ?_
      obtain ⟨b, -, rfl⟩ := List.mem_map.mp hp
      exact hpiece b
    rw [List.length_map] at hcount
    omega
  · intro b hb
    exact Nat.add_le_add_right (length_le_intercalate_of_mem (List.mem_map_of_mem hb)) 2

variable {r : Surroundings} {g : Grammar} {d : Datum} {depth : Nat} {k : TokenKind Token}

private theorem leaf_denotes {shape : Shape Node}
    (h : ∀ span, Node.Denotes ⟨shape, span⟩ d) : Reads Closes (leaf shape) r [k] (Node.Denotes · d) := by
  refine (leaf_reads Closes shape k).mono (fun _ => id) ?_
  rintro _ ⟨span, rfl⟩
  exact h span

/-- A literal without a sign, from the way it is read as the smallest part of an expression. -/
private theorem unsigned_reads {rest : List (TokenKind Token)}
    (hkinds : d.kinds = k :: rest) (hopens : Opens k) (hturns : d.kinds.length ≤ r.turns)
    (hnesting : r.depth + d.depth + 2 ≤ maxNesting)
    (h : Reads Closes (atom g) { r with depth := r.depth + 1 } (k :: rest) (Node.Denotes · d)) :
    Reads Closes (expression g) r d.kinds (Node.Denotes · d) := by
  rw [hkinds] at hturns ⊢
  have hpos : 0 < r.turns := Nat.lt_of_lt_of_le (Nat.succ_pos _) hturns
  exact Parser.expression_reads (factor_reads h hopens hpos) (.inl hopens) hpos (by omega)

private theorem number_reads {value : Float} (hdepth : (number value).kinds.length ≤ depth + 1)
    (hturns : (number value).kinds.length ≤ r.turns) (hnesting : r.depth + (number value).depth + 2 ≤ maxNesting) :
    Reads Closes (expression (.upTo depth)) r (number value).kinds (Node.Denotes · (.number value)) := by
  cases hsign : Number.isNegative value with
  | false =>
    have hkinds : (number value).kinds = [.number value.abs] := by
      rw [kinds, hsign]
      rfl
    have hleaf (span : Span) : Node.Denotes ⟨.number value.abs, span⟩ (.number value) := .number span hsign
    exact unsigned_reads hkinds (.number _) hturns hnesting (.ahead (leaf_denotes hleaf))
  | true =>
    have hkinds : (number value).kinds = [.symbol .minus, .number value.abs] := by
      rw [kinds, hsign]
      rfl
    have hlength : (number value).kinds.length = 2 := congrArg List.length hkinds
    obtain ⟨depth, rfl⟩ : ∃ n, depth = n + 1 := ⟨depth - 1, by omega⟩
    have hpos : 0 < r.turns := by omega
    have hfactor : Reads Closes (factor (.upTo (depth + 1))) { r with depth := r.depth + 1 }
        (number value).kinds (Node.Denotes · (.number value)) :=
      factor_reads_negative hsign rfl hpos (Nat.lt_of_lt_of_le (by simp only; omega) hnesting)
    rw [hkinds] at hfactor ⊢
    exact Parser.expression_reads hfactor (.inr rfl) hpos (by omega)

section

variable (hd : d.Distinct) (hdepth : d.kinds.length ≤ depth + 1) (hturns : d.kinds.length ≤ r.turns)
  (hnesting : r.depth + d.depth + 2 ≤ maxNesting)

include hd hdepth hturns hnesting

/-- A literal for a datum is read as an expression. A token of its own stands for every collection, and
nesting is counted once for every collection, for the literal inside, and for a sign. -/
theorem expression_reads : Reads Closes (expression (.upTo depth)) r d.kinds (Node.Denotes · d) := by
  induction d generalizing depth r with
  | nothing =>
    exact unsigned_reads (by rw [kinds]) .noneWord hturns hnesting (.ahead (leaf_denotes .nothing))
  | number value => exact number_reads hdepth hturns hnesting
  | text value =>
    exact unsigned_reads (by rw [kinds]) (.text value) hturns hnesting (.ahead (leaf_denotes (.text value)))
  | boolean value =>
    cases value with
    | false =>
      refine unsigned_reads (by rw [kinds]; rfl) .falseWord hturns hnesting (.ahead ?_)
      exact leaf_denotes (.boolean false)
    | true =>
      refine unsigned_reads (by rw [kinds]; rfl) .trueWord hturns hnesting (.ahead ?_)
      exact leaf_denotes (.boolean true)
  | list data ih =>
    obtain ⟨hcount, hlength⟩ := length_kinds kinds_ne_nil (kinds_list data)
    obtain ⟨depth, rfl⟩ : ∃ n, depth = n + 1 := ⟨depth - 1, by omega⟩
    have hlist : Reads Closes (listLiteral (.upTo (depth + 1))) { r with depth := r.depth + 1 }
        (list data).kinds (Node.Denotes · (.list data)) := by
      refine listLiteral_reads (fun d hmem => ?_) (Nat.lt_of_lt_of_le (by omega) hturns)
      have hinner := depth_lt_of_mem hmem
      have hshorter := hlength d hmem
      exact ih d hmem (hd.of_list d hmem) (by omega) (Nat.le_trans (by omega) hturns) (by simp only; omega)
    rw [kinds_list] at hlist
    exact unsigned_reads (kinds_list data) .bracket hturns hnesting (.ahead hlist)
  | dict data ih =>
    obtain ⟨keys, parts⟩ := hd.of_dict
    obtain ⟨hcount, hlength⟩ := length_kinds (fun entry => List.cons_ne_nil _ _) (kinds_dict data)
    obtain ⟨depth, rfl⟩ : ∃ n, depth = n + 1 := ⟨depth - 1, by omega⟩
    have hdict : Reads Closes (dictLiteral (.upTo (depth + 1))) { r with depth := r.depth + 1 }
        (dict data).kinds (Node.Denotes · (.dict data)) := by
      refine dictLiteral_reads keys (fun entry hentry => ?_) (Nat.lt_of_lt_of_le (by omega) hturns)
      have hinner := depth_lt_of_entry hentry
      have hshorter : entry.2.kinds.length + 2 + 2 ≤ _ := hlength entry hentry
      exact ih entry hentry (parts entry hentry) (by omega) (Nat.le_trans (by omega) hturns)
        (by simp only; omega)
    rw [kinds_dict] at hdict
    exact unsigned_reads (kinds_dict data) .brace hturns hnesting (.ahead hdict)

theorem statement_reads : Reads Closes (statement (.upTo depth)) r d.kinds (Node.Denotes · d) := by
  have hexpression := expression_reads hd hdepth hturns hnesting
  obtain ⟨k, rest, hkinds, hopens⟩ := d.kinds_eq
  rw [hkinds] at hexpression ⊢
  refine .ahead ?_
  rcases hopens with hopens | rfl
  · cases hopens <;> exact hexpression
  · exact hexpression

end

/-- The tokens of a datum are read as a program of one literal for it. -/
theorem parse_kinds (hd : d.Distinct) (hdepth : d.depth + 2 ≤ maxNesting) {ts : List Token} {span : Span}
    (hts : ts.map (·.kind) = d.kinds) (id : Nat) :
    ∃ node, Program.parse id (ts ++ [⟨.endOfInput, span⟩]) = .ok ([node], id) ∧ node.Denotes d := by
  have hlength : d.kinds.length ≤ Token.weights (ts ++ [⟨.endOfInput, span⟩]) + 1 := by
    have hweights := Token.length_le_weights (ts ++ [⟨.endOfInput, span⟩])
    rw [← hts, List.length_map]
    rw [List.length_append] at hweights
    omega
  obtain ⟨k, kinds, hkinds, hopens⟩ := d.kinds_eq
  obtain ⟨first, rest, rfl, rfl, -⟩ := List.map_eq_cons_iff.mp (hts.trans hkinds)
  have hreads : Reads Closes (statement (.upTo (Token.weights (first :: rest ++ [⟨.endOfInput, span⟩]) + 1)))
      { turns := Token.weights (first :: rest ++ [⟨.endOfInput, span⟩]) + 2 } d.kinds (Node.Denotes · d) :=
    statement_reads hd (Nat.le_succ_of_le hlength) (Nat.le_succ_of_le hlength) (by simpa using hdepth)
  obtain ⟨node, before, hrun, hnode⟩ :=
    hreads first.span id (first :: rest) ⟨.endOfInput, span⟩ [] hts .endOfInput
  refine ⟨node, Program.parse_single (begins_not_newline hopens) ?_ hrun, hnode⟩
  rcases hopens with hopens | hsign
  · generalize first.kind = k at hopens
    cases hopens <;> rfl
  · exact congrArg TokenKind.closesBlock hsign

end Datum

end ScriptLang
