import ScriptLang.Proofs.Data.Evaluated
import ScriptLang.Proofs.Session.Append

/-! Data through its text. Main statement: the text of a value is a program whose value is equal to it. -/
namespace ScriptLang

namespace Machine

variable {m : Machine} {node : Node} {ctx : Context} {s : Store} {Q : Heap → Value → Prop}

theorem value_adds (h : Eval.Adds s (m.eval node ctx) Q) : Eval.Adds s (m.value node ctx) Q := by
  obtain ⟨v, heap, hrun, hext, hv⟩ := h
  refine ⟨v, heap, ?_, hext, hv⟩
  change EStateM.tryCatch _ _ s = _
  rw [EStateM.tryCatch, hrun]

theorem program_singleton_adds (h : Eval.Adds s (m.eval node ctx) Q) :
    Eval.Adds s (m.program [node] ctx) fun heap vs => ∃ v, vs = [v] ∧ Q heap v := by
  rw [program, List.mapM_cons, List.mapM_nil]
  exact (value_adds h).bind fun v heap _ hv => .pure ⟨v, rfl, hv⟩

end Machine

namespace Session

variable {s : Session} {v : Value} {d : Datum}

/-- The text of a datum is read as a literal for it. -/
theorem read_shown (s : Session) (hd : d.Distinct) (hprintable : d.Printable)
    (hdepth : d.depth ≤ Value.maxShownDepth) :
    ∃ node, s.read d.shown = .ok ([node], s.nextId) ∧ node.Denotes d := by
  obtain ⟨ts, span, htokens, hkinds⟩ := Datum.tokenize_shown hprintable
  have hnesting : d.depth + 2 ≤ maxNesting := Nat.le_trans (Nat.add_le_add_right hdepth 2) (by decide)
  obtain ⟨node, hparse, hnode⟩ := Datum.parse_kinds hd hnesting hkinds s.nextId
  exact ⟨node, read_eq_ok.mpr ⟨_, htokens, hparse⟩, hnode⟩

theorem execute_singleton {node : Node} {fuel : Nat} {Q : Heap → Value → Prop}
    (h : ∀ ctx, Eval.Adds s.store (evaluate s.limit fuel node ctx) Q) :
    ∃ w heap, s.execute fuel [node] = (⟨s.store.output.toList, .ok [w]⟩,
      { s with store := { s.store with heap, output := #[] } }) ∧ s.store.heap.Extends heap ∧ Q heap w := by
  obtain ⟨_, heap, hrun, hext, w, rfl, hw⟩ := Machine.program_singleton_adds
    (m := ⟨s.limit, fuel, evaluate s.limit fuel⟩) (h ⟨⟨"<program>", []⟩, s.scope, none⟩)
  refine ⟨w, heap, ?_, hext, hw⟩
  rw [execute, hrun]

/-- The text of a value is a program that prints nothing and has one value, equal to the one shown. -/
theorem run_text (s : Session) (hv : v.Holds s.store.heap d) (hprintable : d.Printable)
    (hdepth : d.depth ≤ Value.maxShownDepth) (hplain : ∀ value, v ≠ .text value) {fuel : Nat}
    (hfuel : d.depth + 2 ≤ fuel) :
    ∃ w t, s.run fuel (s.text v) = (⟨s.store.output.toList, .ok [w]⟩, t) ∧
      v.equal t.store.heap w = true := by
  obtain ⟨node, hread, hnode⟩ := s.read_shown hv.distinct hprintable hdepth
  have hfinite := hprintable.imp (fun _ h => h.1) (fun _ _ => trivial) (fun _ _ => trivial)
  obtain ⟨w, heap, hrun, hext, hw⟩ := s.execute_singleton fun ctx =>
    hnode.evaluate_adds hv.distinct hfinite hfuel ctx s.store
  have hnumbers := hfinite.imp (fun _ => Number.isNaN_of_isFinite) (fun _ => id) fun _ => id
  refine ⟨w, { s with store := { s.store with heap, output := #[] } }, ?_, (hv.mono hext).equal hw hnumbers⟩
  rw [text, Value.toText_eq hv hdepth hplain, run, hread]
  exact hrun

private def withNested : Session :=
  { Session.new 100 with store := { heap :=
    { lists := #[#[.nothing, .number (-1.5), .text "\"a\n", .boolean true]]
      dicts := #[Dict.empty.insert "k" (.list ⟨0⟩)] } } }

private def nested : Datum :=
  .dict [("k", .list [.nothing, .number (-1.5), .text "\"a\n", .boolean true])]

theorem run_text_nested : ∃ w t, withNested.run 4 (withNested.text (.dict ⟨0⟩)) = (⟨[], .ok [w]⟩, t) ∧
    Value.equal t.store.heap (.dict ⟨0⟩) w = true := by
  have hlist : Value.Holds withNested.store.heap (.list ⟨0⟩)
      (.list [.nothing, .number (-1.5), .text "\"a\n", .boolean true]) :=
    .list rfl (.cons .nothing (.cons (.number _) (.cons (.text _) (.cons (.boolean _) .nil))))
  have hholds : Value.Holds withNested.store.heap (.dict ⟨0⟩) nested :=
    .dict rfl (.cons (.mk "k" hlist) .nil)
  have hprintable : nested.Printable := by
    have hread : Datum.Readable (-1.5) := ⟨rfl, rfl⟩
    have hplain (t : String) (h : t.toList.all (fun c => decide (Text.Plain c)) = true) :
        ∀ c ∈ t.toList, Text.Plain c :=
      fun c hc => of_decide_eq_true (List.all_eq_true.mp h c hc)
    refine .dict (List.forall_mem_singleton.mpr (hplain "k" (by decide))) (List.forall_mem_singleton.mpr (.list ?_))
    simp only [List.forall_mem_cons]
    exact ⟨.nothing, .number hread, .text (hplain _ (by decide)), .boolean true, List.forall_mem_nil _⟩
  have hdepth : nested.depth ≤ 2 := by
    simp [nested, Datum.depth]
  have hplain (value : String) : Value.dict ⟨0⟩ ≠ .text value := by
    rintro ⟨⟩
  exact run_text withNested hholds hprintable (Nat.le_trans hdepth (by decide)) hplain
    (Nat.add_le_add_right hdepth 2)

end Session

end ScriptLang
