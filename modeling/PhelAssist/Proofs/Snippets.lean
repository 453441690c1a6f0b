import Mathlib.Data.List.Forall2
import PhelAssist.Completion.Snippet
import PhelAssist.Proofs.Offsets

namespace PhelAssist

open Template (Region)

namespace SnippetPart

/-- The text that a part leaves behind as long as nobody changes it. -/
def chars : SnippetPart → List Char
  | text cs => cs
  | tabStop _ default => default
  | finalCaret => []

/-- The region that a tab stop covers if it starts at an offset, with its number. -/
def stop? : Nat × SnippetPart → Option (Region × Nat)
  | (offset, tabStop n default) =>
    some (⟨⟨offset, offset + Text.byteLength default⟩, default⟩, n)
  | _ => none

def caret? : Nat × SnippetPart → Option Nat
  | (offset, finalCaret) => some offset
  | _ => none

/-- The tab stops of a snippet whose text starts at an offset. -/
def stops (offset : Nat) (parts : List SnippetPart) : List (Region × Nat) :=
  (Text.placed chars offset parts).filterMap stop?

/-- The offsets of the final carets of a snippet whose text starts at an offset. -/
def carets (offset : Nat) (parts : List SnippetPart) : List Nat :=
  (Text.placed chars offset parts).filterMap caret?

section

variable (offset : Nat)

@[simp] theorem stops_nil : stops offset [] = [] := rfl

@[simp] theorem stops_text (cs : List Char) (rest : List SnippetPart) :
    stops offset (text cs :: rest) = stops (offset + Text.byteLength cs) rest := rfl

@[simp] theorem stops_tabStop (n : Nat) (default : List Char) (rest : List SnippetPart) :
    stops offset (tabStop n default :: rest) =
      (⟨⟨offset, offset + Text.byteLength default⟩, default⟩, n) ::
        stops (offset + Text.byteLength default) rest := rfl

@[simp] theorem stops_finalCaret (rest : List SnippetPart) :
    stops offset (finalCaret :: rest) = stops offset rest := rfl

@[simp] theorem carets_nil : carets offset [] = [] := rfl

@[simp] theorem carets_text (cs : List Char) (rest : List SnippetPart) :
    carets offset (text cs :: rest) = carets (offset + Text.byteLength cs) rest := rfl

@[simp] theorem carets_tabStop (n : Nat) (default : List Char) (rest : List SnippetPart) :
    carets offset (tabStop n default :: rest) =
      carets (offset + Text.byteLength default) rest := rfl

@[simp] theorem carets_finalCaret (rest : List SnippetPart) :
    carets offset (finalCaret :: rest) = offset :: carets offset rest := rfl

theorem stops_append (parts rest : List SnippetPart) :
    stops offset (parts ++ rest) =
      stops offset parts ++ stops (offset + Text.byteLength (parts.flatMap chars)) rest := by
  rw [stops, Text.placed_append, List.filterMap_append]
  rfl

theorem carets_append (parts rest : List SnippetPart) :
    carets offset (parts ++ rest) =
      carets offset parts ++ carets (offset + Text.byteLength (parts.flatMap chars)) rest := by
  rw [carets, Text.placed_append, List.filterMap_append]
  rfl

end

/-- The characters that a backslash keeps from their meaning. -/
def IsActive (c : Char) : Prop := c = '$' ∨ c = '\x7d' ∨ c = '\\'

instance (c : Char) : Decidable (IsActive c) := inferInstanceAs (Decidable (_ ∨ _))

/-- The text behind its escaped form. Nothing else is an escaped form: each active character has
its backslash, and no other character has one. -/
def unescape? : List Char → Option (List Char)
  | [] => some []
  | '\\' :: c :: rest => if IsActive c then (unescape? rest).map (c :: ·) else none
  | c :: rest => if IsActive c then none else (unescape? rest).map (c :: ·)

/-- The written form of a part. -/
inductive Spells : SnippetPart → List Char → Prop
  | text {cs written : List Char} (h : unescape? written = some cs) : Spells (text cs) written
  | tabStop {n : Nat} {cs written : List Char} (h : unescape? written = some cs) :
      Spells (tabStop n cs) (['$', '\x7b'] ++ Nat.toDigits 10 n ++ [':'] ++ written ++ ['\x7d'])
  | finalCaret : Spells finalCaret ['$', '0']

/-- A snippet is nothing but the written forms of its parts, one behind the other. -/
def SpellOut (parts : List SnippetPart) (snippet : String) : Prop :=
  ∃ written, List.Forall₂ Spells parts written ∧ snippet = String.ofList written.flatten

theorem escape_of_isActive {c : Char} (h : IsActive c) : escape c = ['\\', c] := if_pos h

theorem escape_of_not_isActive {c : Char} (h : ¬ IsActive c) : escape c = [c] := if_neg h

theorem unescape?_escape (cs : List Char) : unescape? (cs.flatMap escape) = some cs := by
  induction cs with
  | nil => rfl
  | cons c cs ih =>
    rw [List.flatMap_cons]
    by_cases hc : IsActive c
    · rw [escape_of_isActive hc]
      simp [unescape?, hc, ih]
    · have hback : c ≠ '\\' := fun heq => hc (.inr (.inr heq))
      rw [escape_of_not_isActive hc]
      simp [unescape?, hc, hback, ih]

theorem spells_render (part : SnippetPart) : Spells part part.render := by
  cases part with
  | text cs => exact .text (unescape?_escape cs)
  | tabStop n default => exact .tabStop (unescape?_escape default)
  | finalCaret => exact .finalCaret

theorem spellOut_render (parts : List SnippetPart) :
    SpellOut parts (String.ofList (parts.flatMap render)) := by
  refine ⟨parts.map render, ?_, by rw [List.flatMap_def]⟩
  induction parts with
  | nil => exact .nil
  | cons part parts ih => exact .cons (spells_render part) ih

end SnippetPart

namespace Template

open SnippetPart (chars stops carets)

/-- `ordered` has the same regions from left to right, those with one start in their old order. -/
structure OrderedByStart (rs ordered : List Region) : Prop where
  ascending : ordered.Pairwise fun a b => a.span.start ≤ b.span.start
  kept : ∀ start, ordered.filter (·.span.start = start) = rs.filter (·.span.start = start)

/-- A region is taken unless it starts before the end of one that is taken already. -/
def takeNext (taken : List Region) (r : Region) : List Region :=
  if ∀ q ∈ taken, q.span.stop ≤ r.span.start then taken ++ [r] else taken

def takeGreedily (rs : List Region) : List Region := rs.foldl takeNext []

variable (t : Template)

/-- The parts write the whole text of a template, with a numbered tab stop for each region that is
taken from left to right, and with the caret if it lies in the text and reaches no region. -/
structure WrittenBy (parts : List SnippetPart) : Prop where
  text : parts.flatMap chars = t.text.toList
  stops : ∃ ordered, OrderedByStart t.fitting ordered ∧
    SnippetPart.stops 0 parts = (takeGreedily ordered).zipIdx 1
  carets : SnippetPart.carets 0 parts =
    if Text.IsBoundary t.text.toList t.caret ∧ ∀ r ∈ t.fitting, ¬ r.span.Reaches t.caret
    then [t.caret] else []

/-- Regions of the text one behind the other, from an offset on. -/
inductive Lined : Nat → List Region → Prop
  | nil {cursor : Nat} (hcursor : Text.IsBoundary t.text.toList cursor) : Lined cursor []
  | cons {cursor : Nat} {r : Region} {rest : List Region}
      (hcursor : Text.IsBoundary t.text.toList cursor) (hle : cursor ≤ r.span.start)
      (hslice : Text.slice? t.text.toList r.span.start r.span.stop = some r.default)
      (h : Lined r.span.stop rest) : Lined cursor (r :: rest)

variable {t}

section

variable {start stop : Nat}

theorem slice?_cutOut (hstart : Text.IsBoundary t.text.toList start)
    (hstop : Text.IsBoundary t.text.toList stop) (hle : start ≤ stop) :
    Text.slice? t.text.toList start stop = some (t.cutOut start stop) := by
  obtain ⟨part, hpart⟩ := Text.exists_slice? hstart hstop hle
  rw [cutOut, hpart, Option.getD_some]

theorem slice?_gap (hstart : Text.IsBoundary t.text.toList start)
    (hstop : Text.IsBoundary t.text.toList stop) (hle : start ≤ stop) :
    Text.slice? t.text.toList start stop = some ((t.gap start stop).flatMap chars) := by
  unfold gap
  split
  · next hcaret =>
    obtain ⟨⟨hbound, -⟩, hfrom, hto⟩ := hcaret
    simpa [chars] using
      Text.slice?_trans (slice?_cutOut hstart hbound hfrom) (slice?_cutOut hbound hstop hto)
  · simpa [chars] using slice?_cutOut hstart hstop hle

theorem stops_gap (offset : Nat) : stops offset (t.gap start stop) = [] := by
  unfold gap
  split
  · simp
  · simp

theorem carets_gap (hstart : Text.IsBoundary t.text.toList start) :
    carets start (t.gap start stop) =
      if t.CaretStands ∧ start ≤ t.caret ∧ t.caret ≤ stop then [t.caret] else [] := by
  unfold gap
  split
  · next hcaret =>
    obtain ⟨⟨hbound, -⟩, hfrom, -⟩ := hcaret
    have hlength := Text.stop_of_slice? (slice?_cutOut hstart hbound hfrom)
    simp [hlength]
  · rfl

end

theorem Lined.slice?_partsFrom {cursor : Nat} {rs : List Region} (h : t.Lined cursor rs)
    (number : Nat) :
    Text.slice? t.text.toList cursor (Text.byteLength t.text.toList) =
      some ((t.partsFrom cursor number rs).flatMap chars) := by
  induction h generalizing number with
  | nil hcursor =>
    have hle := Text.le_byteLength_of_isBoundary hcursor
    exact slice?_gap hcursor (Text.isBoundary_byteLength _) hle
  | @cons cursor r rest hcursor hle hslice h ih =>
    have hgap := slice?_gap hcursor (Text.isBoundary_of_slice? hslice).1 hle
    have hrest := Text.slice?_trans hslice (ih (number + 1))
    rw [partsFrom, List.flatMap_append]
    exact Text.slice?_trans hgap hrest

theorem Lined.stops_partsFrom {cursor : Nat} {rs : List Region} (h : t.Lined cursor rs)
    (number : Nat) : stops cursor (t.partsFrom cursor number rs) = rs.zipIdx number := by
  induction h generalizing number with
  | nil hcursor => exact stops_gap _
  | @cons cursor r rest hcursor hle hslice h ih =>
    have hgap := slice?_gap hcursor (Text.isBoundary_of_slice? hslice).1 hle
    have hstart := Text.stop_of_slice? hgap
    have hstop := Text.stop_of_slice? hslice
    rw [partsFrom, SnippetPart.stops_append, stops_gap, List.nil_append, hstart,
      SnippetPart.stops_tabStop, hstop, ih, List.zipIdx_cons]

/-- The caret stands in exactly one of the gaps, since it reaches none of the regions. -/
theorem Lined.carets_partsFrom {cursor : Nat} {rs : List Region} (h : t.Lined cursor rs)
    (hrs : ∀ r ∈ rs, r ∈ t.regions) (number : Nat) :
    carets cursor (t.partsFrom cursor number rs) =
      if t.CaretStands ∧ cursor ≤ t.caret then [t.caret] else [] := by
  induction h generalizing number with
  | nil hcursor =>
    rw [partsFrom, carets_gap hcursor]
    by_cases hcaret : t.CaretStands
    · have hle := Text.le_byteLength_of_isBoundary hcaret.1
      simp [hcaret, hle]
    · simp [hcaret]
  | @cons cursor r rest hcursor hle hslice h ih =>
    have hgap := slice?_gap hcursor (Text.isBoundary_of_slice? hslice).1 hle
    have hstart := Text.stop_of_slice? hgap
    have hstop := Text.stop_of_slice? hslice
    have hrest := ih (fun q hq => hrs q (List.mem_cons_of_mem r hq)) (number + 1)
    rw [partsFrom, SnippetPart.carets_append, carets_gap hcursor, hstart,
      SnippetPart.carets_tabStop, hstop, hrest]
    by_cases hcaret : t.CaretStands
    · -- the caret stands in this gap or behind the region, never both
      have hfree : ¬ (r.span.start ≤ t.caret ∧ t.caret ≤ r.span.stop) :=
        hcaret.2 r (hrs r List.mem_cons_self)
      by_cases hbefore : t.caret ≤ r.span.start
      · have hpast : ¬ r.span.stop ≤ t.caret := by omega
        simp [hcaret, hbefore, hpast]
      · have hpast : r.span.stop ≤ t.caret := by omega
        have hfrom : cursor ≤ t.caret := by omega
        simp [hcaret, hbefore, hpast, hfrom]
    · simp [hcaret]

theorem mem_of_mem_keepApart {cursor : Nat} {rs : List Region} {r : Region}
    (h : r ∈ keepApart cursor rs) : r ∈ rs := by
  induction rs generalizing cursor with
  | nil => exact h
  | cons q rs ih =>
    rw [keepApart] at h
    split at h
    · exact List.mem_cons_of_mem q (ih h)
    · rw [List.mem_cons] at h
      rcases h with rfl | h
      · exact List.mem_cons_self
      · exact List.mem_cons_of_mem q (ih h)

theorem lined_keepApart {cursor : Nat} {rs : List Region}
    (hcursor : Text.IsBoundary t.text.toList cursor)
    (hrs : ∀ r ∈ rs, Text.slice? t.text.toList r.span.start r.span.stop = some r.default) :
    t.Lined cursor (keepApart cursor rs) := by
  induction rs generalizing cursor with
  | nil => exact .nil hcursor
  | cons r rs ih =>
    have hrest : ∀ q ∈ rs, Text.slice? t.text.toList q.span.start q.span.stop = some q.default :=
      fun q hq => hrs q (List.mem_cons_of_mem r hq)
    rw [keepApart]
    split
    · exact ih hcursor hrest
    · next hle =>
      have hslice := hrs r List.mem_cons_self
      exact .cons hcursor (Nat.le_of_not_lt hle) hslice
        (ih (Text.isBoundary_of_slice? hslice).2.1 hrest)

/-- The end of the region that was kept last bounds all that were kept. -/
theorem append_keepApart {taken rs : List Region} {cursor : Nat}
    (htaken : ∀ start, (∀ q ∈ taken, q.span.stop ≤ start) ↔ cursor ≤ start)
    (hrs : ∀ r ∈ rs, r.span.start ≤ r.span.stop) :
    taken ++ keepApart cursor rs = rs.foldl takeNext taken := by
  induction rs generalizing taken cursor with
  | nil => exact List.append_nil taken
  | cons r rs ih =>
    have hrest : ∀ q ∈ rs, q.span.start ≤ q.span.stop :=
      fun q hq => hrs q (List.mem_cons_of_mem r hq)
    rw [List.foldl_cons, keepApart, takeNext]
    by_cases hlt : r.span.start < cursor
    · have hover : ¬ ∀ q ∈ taken, q.span.stop ≤ r.span.start := by
        rw [htaken]
        exact Nat.not_le_of_lt hlt
      rw [if_pos hlt, if_neg hover]
      exact ih htaken hrest
    · have hle : cursor ≤ r.span.start := Nat.le_of_not_lt hlt
      -- it ends behind all that are taken, so that its end is the new bound
      have hgrown : ∀ start, (∀ q ∈ taken ++ [r], q.span.stop ≤ start) ↔ r.span.stop ≤ start := by
        intro start
        rw [List.forall_mem_append, List.forall_mem_singleton, htaken]
        have hr := hrs r List.mem_cons_self
        omega
      rw [if_neg hlt, if_pos ((htaken _).2 hle), ← ih hgrown hrest, List.append_assoc]
      rfl

theorem keepApart_eq_takeGreedily {rs : List Region}
    (hrs : ∀ r ∈ rs, r.span.start ≤ r.span.stop) : keepApart 0 rs = takeGreedily rs := by
  have hnone : ∀ start, (∀ q ∈ ([] : List Region), q.span.stop ≤ start) ↔ 0 ≤ start := by simp
  exact append_keepApart hnone hrs

theorem orderedByStart_mergeSort (rs : List Region) :
    OrderedByStart rs (rs.mergeSort fun a b => a.span.start ≤ b.span.start) := by
  have htrans : ∀ a b c : Region, decide (a.span.start ≤ b.span.start) = true →
      decide (b.span.start ≤ c.span.start) = true →
      decide (a.span.start ≤ c.span.start) = true := by
    intro a b c hab hbc
    exact decide_eq_true (Nat.le_trans (of_decide_eq_true hab) (of_decide_eq_true hbc))
  have htotal : ∀ a b : Region, (decide (a.span.start ≤ b.span.start) ||
      decide (b.span.start ≤ a.span.start)) = true := by
    intro a b
    simpa using Nat.le_total a.span.start b.span.start
  refine ⟨(List.pairwise_mergeSort htrans htotal rs).imp of_decide_eq_true, ?_⟩
  intro start
  -- regions with one start are in order, so that sorting leaves them as they are
  have hsame : (rs.filter (·.span.start = start)).Pairwise fun a b =>
      decide (a.span.start ≤ b.span.start) = true := by
    apply List.pairwise_of_forall_mem_list
    intro a ha b hb
    have ha := of_decide_eq_true (List.mem_filter.1 ha).2
    have hb := of_decide_eq_true (List.mem_filter.1 hb).2
    exact decide_eq_true (Nat.le_of_eq (ha.trans hb.symm))
  have hsub := (List.sublist_mergeSort htrans htotal hsame List.filter_sublist).filter
    (·.span.start = start)
  rw [List.filter_filter] at hsub
  simp only [Bool.and_self] at hsub
  have hperm := (List.mergeSort_perm rs fun a b => decide (a.span.start ≤ b.span.start)).filter
    (·.span.start = start)
  exact (hsub.eq_of_length hperm.length_eq.symm).symm

theorem slice?_of_mem_fitting {r : Region} (h : r ∈ t.fitting) :
    Text.slice? t.text.toList r.span.start r.span.stop = some r.default := by
  obtain ⟨p, -, hp⟩ := List.mem_filterMap.1 h
  obtain ⟨default, hslice, rfl⟩ := Option.map_eq_some_iff.1 hp
  exact hslice

theorem mem_regions_iff {r : Region} : r ∈ t.regions ↔ r ∈ t.fitting :=
  (List.mergeSort_perm t.fitting _).mem_iff

theorem slice?_of_mem_regions {r : Region} (h : r ∈ t.regions) :
    Text.slice? t.text.toList r.span.start r.span.stop = some r.default :=
  slice?_of_mem_fitting (mem_regions_iff.1 h)

theorem lined_parts (t : Template) : t.Lined 0 (keepApart 0 t.regions) :=
  lined_keepApart (Text.isBoundary_zero _) fun _ => slice?_of_mem_regions

theorem flatMap_parts (t : Template) : t.parts.flatMap chars = t.text.toList := by
  have hparts := t.lined_parts.slice?_partsFrom 1
  rw [Text.slice?_whole] at hparts
  exact (Option.some.inj hparts).symm

theorem carets_parts (t : Template) :
    carets 0 t.parts = if t.CaretStands then [t.caret] else [] := by
  have hcarets := t.lined_parts.carets_partsFrom (fun _ => mem_of_mem_keepApart) 1
  simp only [Nat.zero_le, and_true] at hcarets
  exact hcarets

/-- The snippet of a template is spelled out of parts which write all of the template. -/
theorem snippet_spells (t : Template) :
    ∃ parts, SnippetPart.SpellOut parts t.snippet ∧ t.WrittenBy parts := by
  refine ⟨t.parts, SnippetPart.spellOut_render t.parts, t.flatMap_parts, ?_, ?_⟩
  · have hspans : ∀ r ∈ t.regions, r.span.start ≤ r.span.stop := by
      intro r hr
      have hstop := Text.stop_of_slice? (slice?_of_mem_regions hr)
      omega
    refine ⟨t.regions, orderedByStart_mergeSort _, ?_⟩
    rw [← keepApart_eq_takeGreedily hspans]
    exact t.lined_parts.stops_partsFrom 1
  · rw [carets_parts]
    simp only [CaretStands, mem_regions_iff]

example : (⟨"(é x)", [⟨"inverted", ⟨4, 2⟩⟩, ⟨"split", ⟨2, 3⟩⟩, ⟨"x", ⟨4, 5⟩⟩, ⟨"past", ⟨9, 12⟩⟩],
    2⟩ : Template).snippet = "(é $\x7b1:x\x7d)" := by
  decide +kernel

end Template

end PhelAssist
