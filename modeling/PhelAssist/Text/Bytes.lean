namespace PhelAssist.Text

/-- Size of a text in bytes, written in UTF-8. -/
def byteLength : List Char → Nat
  | [] => 0
  | c :: cs => c.utf8Size + byteLength cs

@[simp] theorem byteLength_nil : byteLength [] = 0 := rfl

@[simp] theorem byteLength_cons (c : Char) (cs : List Char) :
    byteLength (c :: cs) = c.utf8Size + byteLength cs := rfl

@[simp] theorem byteLength_append (a b : List Char) :
    byteLength (a ++ b) = byteLength a + byteLength b := by
  induction a with
  | nil => simp
  | cons c a ih => simp [ih, Nat.add_assoc]

/-- The two parts of a text before and after a byte offset. An offset inside a character or past
the end cuts nothing. -/
def cut? : List Char → Nat → Option (List Char × List Char)
  | cs, 0 => some ([], cs)
  | [], _ + 1 => none
  | c :: cs, n + 1 =>
    if c.utf8Size ≤ n + 1 then
      (cut? cs (n + 1 - c.utf8Size)).map fun parts => (c :: parts.1, parts.2)
    else none

theorem cut?_eq_some_iff {cs a b : List Char} {n : Nat} :
    cut? cs n = some (a, b) ↔ cs = a ++ b ∧ byteLength a = n := by
  induction cs generalizing n a b with
  | nil =>
    cases n with
    | zero => cases a <;> simp [cut?, eq_comm, Nat.ne_of_gt (Char.utf8Size_pos _)]
    | succ n => cases a <;> simp [cut?]
  | cons c cs ih =>
    have hc := Char.utf8Size_pos c
    cases n with
    | zero => cases a <;> simp [cut?, eq_comm, Nat.ne_of_gt (Char.utf8Size_pos _)]
    | succ n =>
      cases a with
      | nil => simp [cut?]
      | cons d a =>
        simp only [cut?, List.cons_append, List.cons.injEq, byteLength_cons]
        split
        · simp only [Option.map_eq_some_iff, Prod.mk.injEq, List.cons.injEq, Prod.exists, ih]
          constructor
          · rintro ⟨a', b', ⟨hcs, hlen⟩, ⟨hd, rfl⟩, rfl⟩
            exact ⟨⟨hd, hcs⟩, by subst hd; omega⟩
          · rintro ⟨⟨rfl, hcs⟩, hlen⟩
            exact ⟨a, b, ⟨hcs, by omega⟩, ⟨rfl, rfl⟩, rfl⟩
        · simp only [reduceCtorEq, false_iff, not_and]
          rintro ⟨rfl, -⟩
          omega

/-- An offset at which a text can be cut. -/
def IsBoundary (cs : List Char) (offset : Nat) : Prop := (cut? cs offset).isSome

instance (cs : List Char) (offset : Nat) : Decidable (IsBoundary cs offset) :=
  inferInstanceAs (Decidable (_ = true))

theorem isBoundary_iff {cs : List Char} {offset : Nat} :
    IsBoundary cs offset ↔ ∃ a b, cs = a ++ b ∧ byteLength a = offset := by
  simp only [IsBoundary, Option.isSome_iff_exists, Prod.exists, cut?_eq_some_iff]

/-- The part of a text between two byte offsets, if both are boundaries in this order. -/
def slice? (cs : List Char) (start stop : Nat) : Option (List Char) :=
  if start ≤ stop then do
    let (_, rest) ← cut? cs start
    let (part, _) ← cut? rest (stop - start)
    return part
  else none

end PhelAssist.Text
