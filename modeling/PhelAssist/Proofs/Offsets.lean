import PhelAssist.Text.Bytes

namespace PhelAssist.Text

section Slices

theorem eq_nil_of_byteLength_eq_zero {cs : List Char} (h : byteLength cs = 0) : cs = [] := by
  cases cs with
  | nil => rfl
  | cons c cs =>
    have hsize := Char.utf8Size_pos c
    rw [byteLength_cons] at h
    omega

theorem slice?_eq_some_iff {cs part : List Char} {start stop : Nat} :
    slice? cs start stop = some part ↔
      ∃ a b, cs = a ++ (part ++ b) ∧ byteLength a = start ∧ start + byteLength part = stop := by
  constructor
  · intro h
    unfold slice? at h
    split at h
    · next hle =>
      obtain ⟨⟨a, rest⟩, hstart, h⟩ := Option.bind_eq_some_iff.1 h
      obtain ⟨⟨p, b⟩, hstop, h⟩ := Option.bind_eq_some_iff.1 h
      obtain rfl := Option.some.inj h
      obtain ⟨rfl, ha⟩ := cut?_eq_some_iff.1 hstart
      obtain ⟨rfl, hpart⟩ := cut?_eq_some_iff.1 hstop
      exact ⟨a, b, rfl, ha, by omega⟩
    · contradiction
  · intro h
    obtain ⟨a, b, rfl, rfl, rfl⟩ := h
    have hstart : cut? (a ++ (part ++ b)) (byteLength a) = some (a, part ++ b) :=
      cut?_eq_some_iff.2 ⟨rfl, rfl⟩
    have hstop : cut? (part ++ b) (byteLength part) = some (part, b) :=
      cut?_eq_some_iff.2 ⟨rfl, rfl⟩
    simp [slice?, hstart, hstop]

/-- What follows does not change a slice. -/
theorem slice?_append {cs part : List Char} {start stop : Nat}
    (h : slice? cs start stop = some part) (rest : List Char) :
    slice? (cs ++ rest) start stop = some part := by
  obtain ⟨a, b, rfl, hstart, hstop⟩ := slice?_eq_some_iff.1 h
  exact slice?_eq_some_iff.2 ⟨a, b ++ rest, by simp, hstart, hstop⟩

theorem slice?_last (cs : List Char) (c : Char) :
    slice? (cs ++ [c]) (byteLength cs) (byteLength cs + c.utf8Size) = some [c] :=
  slice?_eq_some_iff.2 ⟨cs, [], by simp, rfl, by simp⟩

/-- A slice up to the end grows with the text. -/
theorem slice?_push {cs part : List Char} {start : Nat}
    (h : slice? cs start (byteLength cs) = some part) (c : Char) :
    slice? (cs ++ [c]) start (byteLength cs + c.utf8Size) = some (part ++ [c]) := by
  obtain ⟨a, b, rfl, hstart, hstop⟩ := slice?_eq_some_iff.1 h
  simp only [byteLength_append] at hstop
  obtain rfl : b = [] := eq_nil_of_byteLength_eq_zero (by omega)
  refine slice?_eq_some_iff.2 ⟨a, [], by simp, hstart, ?_⟩
  simp only [byteLength_append, byteLength_cons, byteLength_nil]
  omega

theorem isBoundary_of_slice? {cs part : List Char} {start stop : Nat}
    (h : slice? cs start stop = some part) :
    IsBoundary cs start ∧ IsBoundary cs stop ∧ stop ≤ byteLength cs := by
  obtain ⟨a, b, rfl, rfl, rfl⟩ := slice?_eq_some_iff.1 h
  refine ⟨isBoundary_iff.2 ⟨a, part ++ b, rfl, rfl⟩, isBoundary_iff.2 ⟨a ++ part, b, ?_, ?_⟩, ?_⟩
  · simp
  · simp
  · simp only [byteLength_append]
    omega

theorem stop_of_slice? {cs part : List Char} {start stop : Nat}
    (h : slice? cs start stop = some part) : start + byteLength part = stop := by
  obtain ⟨-, -, -, -, hstop⟩ := slice?_eq_some_iff.1 h
  exact hstop

theorem le_byteLength_of_isBoundary {cs : List Char} {offset : Nat} (h : IsBoundary cs offset) :
    offset ≤ byteLength cs := by
  obtain ⟨a, b, rfl, rfl⟩ := isBoundary_iff.1 h
  rw [byteLength_append]
  exact Nat.le_add_right _ _

theorem isBoundary_zero (cs : List Char) : IsBoundary cs 0 :=
  isBoundary_iff.2 ⟨[], cs, rfl, rfl⟩

theorem isBoundary_byteLength (cs : List Char) : IsBoundary cs (byteLength cs) :=
  isBoundary_iff.2 ⟨cs, [], (List.append_nil cs).symm, rfl⟩

/-- Of two parts from the start of a text, the shorter one begins the longer one. -/
theorem exists_eq_append_of_le {a b a' b' : List Char} (h : a ++ b = a' ++ b')
    (hle : byteLength a ≤ byteLength a') : ∃ part, a' = a ++ part ∧ b = part ++ b' := by
  rcases List.append_eq_append_iff.1 h with ⟨part, ha', hb⟩ | ⟨part, ha, hb'⟩
  · exact ⟨part, ha', hb⟩
  · have hpart : part = [] := by
      apply eq_nil_of_byteLength_eq_zero
      rw [ha, byteLength_append] at hle
      omega
    rw [hpart, List.append_nil] at ha
    rw [hpart, List.nil_append] at hb'
    exact ⟨[], by rw [ha, List.append_nil], by rw [hb', List.nil_append]⟩

theorem exists_slice? {cs : List Char} {start stop : Nat} (hstart : IsBoundary cs start)
    (hstop : IsBoundary cs stop) (hle : start ≤ stop) :
    ∃ part, slice? cs start stop = some part := by
  obtain ⟨a, b, rfl, rfl⟩ := isBoundary_iff.1 hstart
  obtain ⟨a', b', hcs, rfl⟩ := isBoundary_iff.1 hstop
  obtain ⟨part, rfl, rfl⟩ := exists_eq_append_of_le hcs hle
  exact ⟨part, slice?_eq_some_iff.2 ⟨a, b', rfl, rfl, (byteLength_append a part).symm⟩⟩

/-- A slice that ends where another starts is continued by it. -/
theorem slice?_trans {cs part part' : List Char} {start mid stop : Nat}
    (h : slice? cs start mid = some part) (h' : slice? cs mid stop = some part') :
    slice? cs start stop = some (part ++ part') := by
  obtain ⟨a, b, rfl, rfl, rfl⟩ := slice?_eq_some_iff.1 h
  obtain ⟨a', b', hcs, hmid, rfl⟩ := slice?_eq_some_iff.1 h'
  have hlength : byteLength (a ++ part) = byteLength a' := by
    rw [byteLength_append, hmid]
  have hsplit : (a ++ part) ++ b = a' ++ (part' ++ b') := by
    rw [List.append_assoc, hcs]
  obtain ⟨between, ha', hb⟩ := exists_eq_append_of_le hsplit (Nat.le_of_eq hlength)
  have hbetween : between = [] := by
    apply eq_nil_of_byteLength_eq_zero
    rw [ha', byteLength_append (a ++ part)] at hlength
    omega
  apply slice?_eq_some_iff.2
  refine ⟨a, b', ?_, rfl, ?_⟩
  · rw [hb, hbetween, List.nil_append, List.append_assoc]
  · rw [byteLength_append, Nat.add_assoc]

theorem slice?_whole (cs : List Char) : slice? cs 0 (byteLength cs) = some cs :=
  slice?_eq_some_iff.2 ⟨[], [], by simp, rfl, Nat.zero_add _⟩

end Slices

section Placed

variable {α β γ : Type} (chars : α → List Char)

/-- Things that are written one behind the other from an offset on, each with the offset at which
it starts. -/
def placed (offset : Nat) : List α → List (Nat × α)
  | [] => []
  | a :: rest => (offset, a) :: placed (offset + byteLength (chars a)) rest

@[simp] theorem placed_nil (offset : Nat) : placed chars offset [] = [] := rfl

@[simp] theorem placed_cons (offset : Nat) (a : α) (rest : List α) :
    placed chars offset (a :: rest) =
      (offset, a) :: placed chars (offset + byteLength (chars a)) rest := rfl

theorem placed_append (offset : Nat) (l rest : List α) :
    placed chars offset (l ++ rest) =
      placed chars offset l ++ placed chars (offset + byteLength (l.flatMap chars)) rest := by
  induction l generalizing offset with
  | nil => rfl
  | cons a l ih =>
    rw [List.cons_append, placed_cons, placed_cons, ih, List.cons_append, List.flatMap_cons,
      byteLength_append, Nat.add_assoc]

variable {chars} in
/-- Whatever is placed somewhere has the text before it in front of it. -/
theorem exists_of_mem_placed {offset start : Nat} {a : α} {l : List α}
    (h : (start, a) ∈ placed chars offset l) :
    ∃ before after, l = before ++ a :: after ∧
      start = offset + byteLength (before.flatMap chars) := by
  induction l generalizing offset with
  | nil => simp at h
  | cons b l ih =>
    rw [placed_cons, List.mem_cons] at h
    rcases h with h | h
    · cases h
      exact ⟨[], l, rfl, rfl⟩
    · obtain ⟨before, after, rfl, rfl⟩ := ih h
      refine ⟨b :: before, after, rfl, ?_⟩
      rw [List.flatMap_cons, byteLength_append, Nat.add_assoc]

/-- Each of the things ends before the next ones start. -/
theorem pairwise_placed (offset : Nat) (l : List α) :
    (placed chars offset l).Pairwise fun x y => x.1 + byteLength (chars x.2) ≤ y.1 := by
  induction l generalizing offset with
  | nil => exact List.Pairwise.nil
  | cons a l ih =>
    rw [placed_cons, List.pairwise_cons]
    refine ⟨?_, ih _⟩
    intro y hy
    obtain ⟨before, after, -, hstart⟩ := exists_of_mem_placed hy
    rw [hstart]
    exact Nat.le_add_right _ _

variable {chars} in
/-- Of two of the things, one ends before the other starts. -/
theorem apart_of_mem_placed {offset : Nat} {l : List α} {x y : Nat × α}
    (hx : x ∈ placed chars offset l) (hy : y ∈ placed chars offset l) (hne : x ≠ y) :
    x.1 + byteLength (chars x.2) ≤ y.1 ∨ y.1 + byteLength (chars y.2) ≤ x.1 := by
  have hplaced := pairwise_placed chars offset l
  apply List.Pairwise.forall_of_forall_of_flip (R := fun x y => x ≠ y →
    x.1 + byteLength (chars x.2) ≤ y.1 ∨ y.1 + byteLength (chars y.2) ≤ x.1) _ _ _ hx hy hne
  · intro z _ hself
    exact absurd rfl hself
  · exact hplaced.imp fun hle _ => .inl hle
  · exact hplaced.imp fun hle _ => .inr hle

theorem filterMap_placed_eq_nil {f : Nat × α → Option β} {l : List α}
    (h : ∀ a ∈ l, ∀ offset, f (offset, a) = none) (offset : Nat) :
    (placed chars offset l).filterMap f = [] := by
  rw [List.filterMap_eq_nil_iff]
  intro x hx
  obtain ⟨before, after, rfl, -⟩ := exists_of_mem_placed hx
  exact h x.2 (by simp) x.1

/-- Things that are taken apart further stay where they are. -/
theorem filterMap_placed_flatMap {split : α → List β} {chars' : β → List Char}
    {f : Nat × α → Option γ} {f' : Nat × β → Option γ}
    (hchars : ∀ a, (split a).flatMap chars' = chars a)
    (hfound : ∀ offset a, (placed chars' offset (split a)).filterMap f' = (f (offset, a)).toList)
    (offset : Nat) (l : List α) :
    (placed chars' offset (l.flatMap split)).filterMap f' =
      (placed chars offset l).filterMap f := by
  induction l generalizing offset with
  | nil => rfl
  | cons a l ih =>
    rw [List.flatMap_cons, placed_append, List.filterMap_append, hfound, hchars, ih, placed_cons,
      List.filterMap_cons]
    cases f (offset, a) with
    | none => rfl
    | some b => rfl

end Placed

end PhelAssist.Text
