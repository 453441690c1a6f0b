import PhelAssist.Proofs.Snippets

namespace PhelAssist

namespace Mark

def slot? : Nat × Mark → Option Slot
  | (offset, region name) =>
    some ⟨String.ofList name, ⟨offset, offset + Text.byteLength name⟩⟩
  | _ => none

def caretAt? : Nat × Mark → Option Nat
  | (offset, caret) => some offset
  | _ => none

theorem slots_eq_placed (offset : Nat) (marks : List Mark) :
    slots offset marks = (Text.placed chars offset marks).filterMap slot? := by
  induction marks generalizing offset with
  | nil => rfl
  | cons mark marks ih =>
    cases mark with
    | text c => exact ih _
    | region name => exact congrArg (List.cons _) (ih _)
    | caret => exact ih _

theorem caret?_eq_placed (offset : Nat) (marks : List Mark) :
    caret? offset marks = ((Text.placed chars offset marks).filterMap caretAt?).getLast? := by
  induction marks generalizing offset with
  | nil => rfl
  | cons mark marks ih =>
    cases mark with
    | text c => exact ih _
    | region name => exact ih _
    | caret =>
      have hrest : caret? offset marks =
          ((Text.placed chars offset marks).filterMap caretAt?).getLast? := ih offset
      simp [caret?, hrest, caretAt?, List.getLast?_cons, chars]

theorem region_of_slot? {offset : Nat} {mark : Mark} {p : Slot}
    (h : slot? (offset, mark) = some p) :
    mark = region p.name.toList ∧ p.span = ⟨offset, offset + Text.byteLength mark.chars⟩ := by
  cases mark with
  | text c => contradiction
  | region name =>
    cases h
    simp [chars]
  | caret => contradiction

theorem caret_of_caretAt? {offset place : Nat} {mark : Mark}
    (h : caretAt? (offset, mark) = some place) : mark = caret ∧ offset = place := by
  cases mark with
  | text c => contradiction
  | region name => contradiction
  | caret => exact ⟨rfl, Option.some.inj h⟩

/-- The text behind a mark that stands somewhere. -/
theorem slice?_of_mem_placed {marks : List Mark} {offset : Nat} {mark : Mark}
    (h : (offset, mark) ∈ Text.placed chars 0 marks) :
    Text.slice? (marks.flatMap chars) offset (offset + Text.byteLength mark.chars) =
      some mark.chars := by
  obtain ⟨before, after, rfl, hoffset⟩ := Text.exists_of_mem_placed h
  rw [Nat.zero_add] at hoffset
  apply Text.slice?_eq_some_iff.2
  exact ⟨before.flatMap chars, after.flatMap chars, by simp, hoffset.symm, rfl⟩

theorem exists_mem_placed_of_mem_slots {marks : List Mark} {p : Slot} (h : p ∈ slots 0 marks) :
    (p.span.start, region p.name.toList) ∈ Text.placed chars 0 marks ∧
      p.span.stop = p.span.start + Text.byteLength p.name.toList := by
  rw [slots_eq_placed] at h
  obtain ⟨⟨offset, mark⟩, hmem, hslot⟩ := List.mem_filterMap.1 h
  obtain ⟨rfl, hspan⟩ := region_of_slot? hslot
  rw [hspan]
  exact ⟨hmem, rfl⟩

theorem mem_placed_of_caret? {marks : List Mark} {offset : Nat} (h : caret? 0 marks = some offset) :
    (offset, caret) ∈ Text.placed chars 0 marks := by
  rw [caret?_eq_placed] at h
  obtain ⟨⟨place, mark⟩, hmem, hcaret⟩ := List.mem_filterMap.1 (List.mem_of_getLast? h)
  obtain ⟨rfl, rfl⟩ := caret_of_caretAt? hcaret
  exact hmem

theorem caret?_of_last (before : List Mark) {after : List Mark} (h : caret ∉ after) :
    caret? 0 (before ++ caret :: after) = some (Text.byteLength (before.flatMap chars)) := by
  have hafter : ∀ offset, (Text.placed chars offset after).filterMap caretAt? = [] := by
    apply Text.filterMap_placed_eq_nil
    intro mark hmark offset
    cases mark with
    | text c => rfl
    | region name => rfl
    | caret => exact absurd hmark h
  rw [caret?_eq_placed, Text.placed_append, List.filterMap_append, Text.placed_cons]
  simp [caretAt?, hafter]

end Mark

/-- The region that a slot covers if the text has its name there. -/
def Slot.region (p : Slot) : Template.Region := ⟨p.span, p.name.toList⟩

namespace Template

open SnippetPart (chars stops)

/-- Slots in order that do not overlap, each with its name as its text, and a caret in the text
that is inside none of them. -/
structure Tidy (t : Template) : Prop where
  ordered : t.slots.Pairwise fun a b => a.span.stop ≤ b.span.start
  named : ∀ p ∈ t.slots,
    Text.slice? t.text.toList p.span.start p.span.stop = some p.name.toList
  caret : Text.IsBoundary t.text.toList t.caret
  outside : ∀ p ∈ t.slots, ¬ p.span.Surrounds t.caret

section

variable (marks : List Mark)

theorem ofMarks_ordered :
    (ofMarks marks).slots.Pairwise fun a b => a.span.stop ≤ b.span.start := by
  have hplaced := Text.pairwise_placed Mark.chars 0 marks
  rw [ofMarks, Mark.slots_eq_placed]
  apply hplaced.filterMap
  intro x y hxy p hp q hq
  rw [(Mark.region_of_slot? hp).2, (Mark.region_of_slot? hq).2]
  exact hxy

theorem ofMarks_named {p : Slot} (hp : p ∈ (ofMarks marks).slots) :
    Text.slice? (ofMarks marks).text.toList p.span.start p.span.stop = some p.name.toList := by
  obtain ⟨hmem, hstop⟩ := Mark.exists_mem_placed_of_mem_slots hp
  have hslice := Mark.slice?_of_mem_placed hmem
  rw [ofMarks, String.toList_ofList, hstop]
  exact hslice

theorem ofMarks_caret_cases :
    (Mark.caret? 0 marks = some (ofMarks marks).caret) ∨
    (∃ p rest, (ofMarks marks).slots = p :: rest ∧ (ofMarks marks).caret = p.span.start) ∨
    ((ofMarks marks).slots = [] ∧
      (ofMarks marks).caret = Text.byteLength (ofMarks marks).text.toList) := by
  unfold ofMarks
  cases hcaret : Mark.caret? 0 marks with
  | some offset => exact .inl rfl
  | none =>
    cases hslots : Mark.slots 0 marks with
    | cons p rest => exact .inr (.inl ⟨p, rest, rfl, rfl⟩)
    | nil => exact .inr (.inr ⟨rfl, by simp⟩)

theorem isBoundary_caret_ofMarks :
    Text.IsBoundary (ofMarks marks).text.toList (ofMarks marks).caret := by
  rcases ofMarks_caret_cases marks with hcaret | ⟨p, rest, hslots, hcaret⟩ | ⟨-, hcaret⟩
  · have hslice := Mark.slice?_of_mem_placed (Mark.mem_placed_of_caret? hcaret)
    rw [ofMarks, String.toList_ofList]
    exact (Text.isBoundary_of_slice? hslice).1
  · have hp : p ∈ (ofMarks marks).slots := hslots ▸ List.mem_cons_self
    rw [hcaret]
    exact (Text.isBoundary_of_slice? (ofMarks_named marks hp)).1
  · rw [hcaret]
    exact Text.isBoundary_byteLength _

theorem not_surrounds_caret_ofMarks {p : Slot} (hp : p ∈ (ofMarks marks).slots) :
    ¬ p.span.Surrounds (ofMarks marks).caret := by
  intro hinside
  have hstart := hinside.1
  have hstop := hinside.2
  rcases ofMarks_caret_cases marks with hcaret | ⟨first, rest, hslots, hcaret⟩ | ⟨hslots, -⟩
  · -- the caret and the slot are different marks
    obtain ⟨hslot, hend⟩ := Mark.exists_mem_placed_of_mem_slots hp
    have happart := Text.apart_of_mem_placed hslot (Mark.mem_placed_of_caret? hcaret) (by simp)
    simp only [Mark.chars, Text.byteLength_nil] at happart
    omega
  · have hordered := ofMarks_ordered marks
    have hfirst : first ∈ (ofMarks marks).slots := hslots ▸ List.mem_cons_self
    have hend := Text.stop_of_slice? (ofMarks_named marks hfirst)
    rw [hslots] at hp hordered
    rw [hcaret] at hstart
    rcases List.mem_cons.1 hp with rfl | hp
    · omega
    · have hle := (List.pairwise_cons.1 hordered).1 p hp
      omega
  · rw [hslots] at hp
    contradiction

theorem tidy_ofMarks : (ofMarks marks).Tidy where
  ordered := ofMarks_ordered marks
  named := fun _ => ofMarks_named marks
  caret := isBoundary_caret_ofMarks marks
  outside := fun _ => not_surrounds_caret_ofMarks marks

end

theorem keepApart_eq_self {cursor : Nat} {rs : List Region}
    (hcursor : ∀ r ∈ rs, cursor ≤ r.span.start)
    (hrs : rs.Pairwise fun a b => a.span.stop ≤ b.span.start) : keepApart cursor rs = rs := by
  induction rs generalizing cursor with
  | nil => rfl
  | cons r rs ih =>
    rw [List.pairwise_cons] at hrs
    have hle : ¬ r.span.start < cursor := Nat.not_lt_of_le (hcursor r List.mem_cons_self)
    rw [keepApart, if_neg hle, ih hrs.1 hrs.2]

namespace Tidy

variable {t : Template}

theorem fitting_eq (h : t.Tidy) : t.fitting = t.slots.map Slot.region := by
  rw [fitting, ← List.filterMap_eq_map]
  apply List.filterMap_congr
  intro p hp
  rw [h.named p hp]
  rfl

theorem regions_eq (h : t.Tidy) : t.regions = t.slots.map Slot.region := by
  have hsorted : (t.slots.map Slot.region).Pairwise fun a b =>
      decide (a.span.start ≤ b.span.start) = true := by
    rw [List.pairwise_map]
    apply h.ordered.imp_of_mem
    intro p q hp hq hpq
    have hstop := Text.stop_of_slice? (h.named p hp)
    apply decide_eq_true
    change p.span.start ≤ q.span.start
    omega
  rw [regions, h.fitting_eq, List.mergeSort_of_pairwise hsorted]

/-- Nothing is left out, since no slot starts before the end of the one before it. -/
theorem stops_parts (h : t.Tidy) : stops 0 t.parts = (t.slots.map Slot.region).zipIdx 1 := by
  have happart : (t.slots.map Slot.region).Pairwise fun a b => a.span.stop ≤ b.span.start := by
    rw [List.pairwise_map]
    exact h.ordered
  have hkept := keepApart_eq_self (fun r _ => Nat.zero_le r.span.start) happart
  have hstops := t.lined_parts.stops_partsFrom 1
  rw [h.regions_eq, hkept] at hstops
  rw [parts, h.regions_eq, hkept]
  exact hstops

end Tidy

/-- Marked text always gives a tidy template, and its snippet has all slots in order, numbered and
with their names as default text. -/
theorem ofMarked_tidy (marked : String) :
    (ofMarked marked).Tidy ∧ ∃ parts, SnippetPart.SpellOut parts (ofMarked marked).snippet ∧
      parts.flatMap chars = (ofMarked marked).text.toList ∧
      stops 0 parts = ((ofMarked marked).slots.map Slot.region).zipIdx 1 := by
  have htidy : (ofMarked marked).Tidy := tidy_ofMarks _
  refine ⟨htidy, (ofMarked marked).parts, SnippetPart.spellOut_render _, ?_, ?_⟩
  · exact flatMap_parts _
  · exact htidy.stops_parts

end Template

end PhelAssist
