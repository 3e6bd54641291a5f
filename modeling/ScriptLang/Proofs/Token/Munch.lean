import ScriptLang.Proofs.Token.Lossless

/-! Words and signs are read as they are named. Main statement: a word or a sign stands in the text just as it is
named in messages, and a sign is the longest one that stands there. -/
namespace ScriptLang

/-- The first rule that fits is one for the longest symbol: the rules for longer ones come before it. -/
theorem Symbol.munch?_longest {cs : List Char} {s t : Symbol} {width : Nat} (h : munch? cs = some (s, width))
    (ht : t.spelling <+: cs) : t.spelling.length ≤ s.spelling.length := by
  obtain ⟨⟨pattern, _⟩, hfind, rfl⟩ := Option.map_eq_some_iff.mp h
  obtain ⟨hfits, front, back, hrules, hfront⟩ := List.find?_eq_some_iff_append.mp hfind
  obtain ⟨rfl, -⟩ := eq_of_mem_rules (List.mem_of_find?_eq_some hfind)
  have hother := hrules ▸ t.mem_rules
  have hbehind := (List.pairwise_append.mp (hrules ▸ rules_pairwise)).2.1
  rcases List.mem_append.mp hother with hother | hother
  · -- A rule in front of the one that was found does not fit.
    have hno := hfront _ hother
    rw [List.isPrefixOf_iff_prefix.mpr ht] at hno
    cases hno
  · rcases List.mem_cons.mp hother with hsame | hother
    · exact (congrArg (·.1.length) hsame).le
    · -- The spelling of a rule behind it does not go on from its own, so it is the other way round.
      have hnot := List.rel_of_pairwise_cons hbehind hother
      rcases List.prefix_or_prefix_of_prefix ht (List.isPrefixOf_iff_prefix.mp hfits) with hle | hge
      · exact hle.length_le
      · rw [List.isPrefixOf_iff_prefix.mpr hge] at hnot
        cases hnot

/-- A word or a sign that is written as it is named in messages. A sign is the longest one that stands there,
and a point that a digit follows is no sign. -/
structure Token.WrittenAsNamed (source : String) (t : Token) : Prop where
  identifier : ∀ name, t.kind = .identifier name →
    t.kind.describe = "identifier '" ++ Text.slice source t.span.start.index t.span.stop.index ++ "'"
  keyword : ∀ word, t.kind = .keyword word →
    t.kind.describe = "'" ++ Text.slice source t.span.start.index t.span.stop.index ++ "'"
  symbol : ∀ sign, t.kind = .symbol sign →
    t.kind.describe = "'" ++ Text.slice source t.span.start.index t.span.stop.index ++ "'"
  longest : ∀ sign, ∀ other : Symbol, t.kind = .symbol sign →
    other.spelling <+: (Text.slice source t.span.start.index source.utf8ByteSize).toList →
      other.spelling.length ≤ sign.spelling.length
  point : ∀ sign next others, t.kind = .symbol sign →
    (Text.slice source t.span.start.index source.utf8ByteSize).toList = '.' :: next :: others →
      next.isDigit = false

/-- Other tokens are no words and no signs. -/
theorem Token.WrittenAsNamed.of_other {source : String} {t : Token} (hidentifier : ∀ name, t.kind ≠ .identifier name)
    (hkeyword : ∀ word, t.kind ≠ .keyword word) (hsymbol : ∀ sign, t.kind ≠ .symbol sign) :
    t.WrittenAsNamed source where
  identifier _ h := absurd h (hidentifier _)
  keyword _ h := absurd h (hkeyword _)
  symbol _ h := absurd h (hsymbol _)
  longest _ _ h := absurd h (hsymbol _)
  point _ _ _ h := absurd h (hsymbol _)

namespace Scan

theorem Found.writtenAsNamed {source : String} {b c : Cursor} {t : Token} (h : Found b t.kind c)
    (hspan : t.span = b.upTo c) (hb : (Cursor.ofText source).Reaches b) : t.WrittenAsNamed source := by
  have hword := hb.slice_skip (List.takeWhile_prefix continuesName)
  obtain ⟨kind, span⟩ := t
  dsimp only at h hspan
  subst hspan
  cases h with
  | identifier =>
    refine ⟨fun name _ => ?_, fun _ h => absurd h nofun, fun _ h => absurd h nofun, fun _ _ h => absurd h nofun,
      fun _ _ _ h => absurd h nofun⟩
    exact congrArg ("identifier '" ++ · ++ "'") hword.symm
  | keyword rest begins spells =>
    refine ⟨fun _ h => absurd h nofun, fun word _ => ?_, fun _ h => absurd h nofun, fun _ _ h => absurd h nofun,
      fun _ _ _ h => absurd h nofun⟩
    exact congrArg ("'" ++ · ++ "'") ((Keyword.ofSpelling?_eq_some_iff.mp spells).trans hword.symm)
  | symbol begins longest =>
    have hbehind : (Text.slice source b.place.index source.utf8ByteSize).toList = b.rest := by
      rw [hb.slice_behind, String.toList_ofList]
    refine ⟨nofun, nofun, fun _ _ => ?_, fun _ other hsign hother => ?_, fun _ next others _ hpoint => ?_⟩
    · exact congrArg ("'" ++ · ++ "'") (hb.slice_skip (munch?_spelled longest).2).symm
    · cases hsign
      exact Symbol.munch?_longest longest (hbehind ▸ hother)
    · rw [hbehind.symm.trans hpoint] at begins
      exact begins
  | _ => exact .of_other nofun nofun nofun

end Scan

/-- All words and signs of a text are written as they are named, those of the code in templates too. -/
theorem tokenize_maximal_munch {source : String} {tokens : List Token} (h : tokenize source = .ok tokens)
    {t : Token} (ht : t.StandsIn tokens) : t.WrittenAsNamed source := by
  have htraced := Scan.traced (Scan.tokens_traced (.refl _) h) ht
  cases hend : t.kind.isEnd with
  | true =>
    obtain ⟨kind, span⟩ := t
    cases kind with
    | endOfInput => exact .of_other nofun nofun nofun
    | _ => cases hend
  | false =>
    obtain ⟨a, c, ha, hscans⟩ := htraced.scanned hend
    cases hscans with
    | ending | template => exact .of_other nofun nofun nofun
    | single rest _ found =>
      obtain ⟨hfound, hspan⟩ := Scan.single_found rest found
      exact hfound.writtenAsNamed hspan (ha.trans (.onset a))

/-- A sign of four characters in the code of a template, of which shorter signs are beginnings. -/
theorem tokenize_maximal_munch_nested :
    let source := "\x60é\x7ba>>>=b\x7d\x60"
    let t : Token := ⟨.symbol .shiftRightZeroEqual, ⟨⟨5, 0, 4⟩, ⟨9, 0, 8⟩⟩⟩
    ∃ tokens, tokenize source = .ok tokens ∧ t.StandsIn tokens ∧ t.WrittenAsNamed source := by
  intro source t
  have htokens : tokenize source = .ok [⟨.template [.text "é", .code [⟨.identifier "a", ⟨⟨4, 0, 3⟩, ⟨5, 0, 4⟩⟩⟩, t,
      ⟨.identifier "b", ⟨⟨9, 0, 8⟩, ⟨10, 0, 9⟩⟩⟩, ⟨.endOfInput, ⟨⟨10, 0, 9⟩, ⟨11, 0, 10⟩⟩⟩]],
      ⟨⟨0, 0, 0⟩, ⟨12, 0, 11⟩⟩⟩, ⟨.endOfInput, ⟨⟨12, 0, 11⟩, ⟨12, 0, 11⟩⟩⟩] := by
    have hchars : source.toList = ['\x60', 'é', '\x7b', 'a', '>', '>', '>', '=', 'b', '\x7d', '\x60'] := by
      decide +kernel
    rw [tokenize, Cursor.ofText, ← String.length_toList, hchars]
    rfl
  refine ⟨_, htokens, .deeper (.here (.head _)) rfl (.tail _ (.head _)) (.tail _ (.head _)), ?_⟩
  exact tokenize_maximal_munch htokens (.deeper (.here (.head _)) rfl (.tail _ (.head _)) (.tail _ (.head _)))

end ScriptLang
