import PhelAssist.Proofs.Feeding

namespace PhelAssist

open Datum (eventsAll outlineAll)

/-- A literal that keeps its quotes. -/
def Datum.isString : Datum → Bool
  | token .literal _ text => text.toList.head? = some '"'
  | _ => false

/-- Whether an offset lies in a string of the given forms, with neither quote cut off. -/
def InsideString (forms : List Datum) (offset : Nat) : Prop :=
  ∃ d ∈ (outlineAll 0 forms).map (·.2), d.isString = true ∧ d.span.Surrounds offset

instance (forms : List Datum) (offset : Nat) : Decidable (InsideString forms offset) :=
  inferInstanceAs (Decidable (∃ d ∈ _, _))

theorem Nesting.events_applyAll {n n' : Nesting} {lexemes : List Lexeme}
    (h : lexemes.foldlM Nesting.apply n = .ok n') :
    n'.events = n.events ++ lexemes.map Lexeme.event := by
  induction lexemes generalizing n with
  | nil =>
    obtain rfl : n = n' := Except.ok.inj h
    simp
  | cons lex rest ih =>
    obtain ⟨n₁, hlex, h⟩ := ok_of_foldlM_cons_eq_ok h
    rw [ih h, events_apply hlex, List.map_cons, List.append_assoc]
    rfl

namespace Reader

/-- A reader that has come to a string around an offset, or past one. -/
structure SeesString (r : Reader) (offset : Nat) : Prop where
  reached : offset ≤ r.offset
  string : (∃ start text escaped, r.mode = .quoted start text escaped ∧ start < offset ∧
      text.toList.head? = some '"') ∨
    ∃ span text, Event.token (.token .literal) text span ∈ r.nesting.events ∧
      text.toList.head? = some '"' ∧ span.Surrounds offset

theorem SeesString.step {r r' : Reader} {offset : Nat} {c : Char} (h : r.SeesString offset)
    (hstep : r.step c = .ok r') : r'.SeesString offset := by
  obtain ⟨n, hn, rfl⟩ := ok_of_map_eq_ok hstep
  have hsize := Char.utf8Size_pos c
  have hreached := h.reached
  refine ⟨by simp only; omega, ?_⟩
  rcases h.string with ⟨start, text, escaped, hmode, hstart, hquote⟩ | ⟨span, text, hmem, hstring⟩
  · have hpush : (text.push c).toList.head? = some '"' := by simp [List.head?_append, hquote]
    simp only [hmode] at hn ⊢
    split_ifs at hn ⊢
    · exact .inl ⟨start, _, _, rfl, hstart, hpush⟩
    · exact .inl ⟨start, _, _, rfl, hstart, hpush⟩
    · refine .inr ⟨⟨start, r.offset + c.utf8Size⟩, text.push c, ?_, hpush, hstart, by simp only; omega⟩
      rw [Nesting.events_applyAll hn]
      simp [Lexeme.event]
    · exact .inl ⟨start, _, _, rfl, hstart, hpush⟩
  · refine .inr ⟨span, text, ?_, hstring⟩
    rw [Nesting.events_applyAll hn]
    exact List.mem_append_left _ hmem

theorem SeesString.run {r r' : Reader} {offset : Nat} {cs : List Char} (h : r.SeesString offset)
    (hrun : cs.foldlM Reader.step r = .ok r') : r'.SeesString offset :=
  foldlM_preserves SeesString.step h hrun

theorem mem_eventsAll_of_finish {r : Reader} {forms : List Datum} (h : r.finish = .ok forms)
    {e : Event} (he : e ∈ r.nesting.events) : e ∈ eventsAll forms := by
  unfold Reader.finish at h
  split at h
  · contradiction
  · obtain ⟨n, hn, rfl⟩ := ok_of_map_eq_ok h
    simp [Nesting.eventsAll_finish, Nesting.events_apply hn, he]
  · obtain rfl := Except.ok.inj h
    simp [Nesting.eventsAll_finish, he]
  · obtain rfl := Except.ok.inj h
    simp [Nesting.eventsAll_finish, he]

theorem SeesString.insideString {r : Reader} {offset : Nat} (h : r.SeesString offset)
    {forms : List Datum} (hfinish : r.finish = .ok forms) : InsideString forms offset := by
  rcases h.string with ⟨start, text, escaped, hmode, -⟩ | ⟨span, text, hmem, hquote, hspan⟩
  · simp [Reader.finish, hmode] at hfinish
  · have htold := mem_eventsAll_of_finish hfinish hmem
    exact ⟨.token .literal span text, Datum.token_mem_nodes_iff.2 htold,
      by simpa [Datum.isString] using hquote, hspan⟩

end Reader

end PhelAssist
