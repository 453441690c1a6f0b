import PhelAssist.Proofs.Stream

namespace PhelAssist

namespace SourceTree

variable {t : SourceTree}

theorem IsWithin.trans {a b c : Nat} (hab : t.IsWithin a b) (hbc : t.IsWithin b c) :
    t.IsWithin a c := by
  rcases hab with rfl | hab
  · exact hbc
  · rcases hbc with rfl | hbc
    · exact .inr hab
    · exact .inr (mem_ancestors_trans hab hbc)

/-- What lies above a node is its parent, or lies above its parent. -/
theorem mem_ancestors_iff {a i p : Nat} (hp : t.parent? i = some p) :
    a ∈ t.ancestors i ↔ t.IsWithin p a := by
  rw [ancestors_eq_cons hp, List.mem_cons, IsWithin, eq_comm]

theorem mem_descendants_cons {i j : Nat} :
    j ∈ t.descendants i ↔ ∃ c ∈ t.children i, j = c ∨ j ∈ t.descendants c := by
  rw [descendants_eq]
  simp only [List.mem_flatMap, List.mem_cons]

theorem mem_descendants_of_child {i j c : Nat} (hj : j ∈ t.descendants i)
    (hc : c ∈ t.children j) : c ∈ t.descendants i := by
  induction i using descendants.induct t with
  | case1 i ih =>
    obtain ⟨d, hd, h⟩ := mem_descendants_cons.1 hj
    apply mem_descendants_cons.2
    refine ⟨d, hd, .inr ?_⟩
    rcases h with rfl | h
    · exact mem_descendants_cons.2 ⟨c, hc, .inl rfl⟩
    · exact ih ⟨d, hd⟩ h

/-- The nodes below a node are the ones that it lies above. -/
theorem Linked.mem_descendants_iff (ht : t.Linked) {i j : Nat} :
    j ∈ t.descendants i ↔ i ∈ t.ancestors j := by
  constructor
  · intro hj
    induction i using descendants.induct t with
    | case1 i ih =>
      obtain ⟨c, hc, h⟩ := mem_descendants_cons.1 hj
      have hparent := (ht.mem_children i c).1 hc
      have hi : i ∈ t.ancestors c := (mem_ancestors_iff hparent).2 (.inl rfl)
      rcases h with rfl | h
      · exact hi
      · exact mem_ancestors_trans (ih ⟨c, hc⟩ h) hi
  · intro hi
    induction j using Nat.strongRecOn with
    | _ j ih =>
      cases hp : t.parent? j with
      | none => simp [ancestors_eq_nil hp] at hi
      | some p =>
        have hj := (ht.mem_children p j).2 hp
        rcases (mem_ancestors_iff hp).1 hi with rfl | hi
        · exact mem_descendants_cons.2 ⟨j, hj, .inl rfl⟩
        · exact mem_descendants_of_child (ih p (parent?_lt hp) hi) hj

theorem Linked.mem_symbolsIn_iff (ht : t.Linked) {symbol pattern : Nat} :
    symbol ∈ t.symbolsIn pattern ↔
      t.HasKind symbol (.token .symbol) ∧ t.IsWithin symbol pattern := by
  rw [symbolsIn, List.mem_filter, List.mem_cons, ht.mem_descendants_iff, decide_eq_true_iff,
    and_comm, IsWithin]

theorem Linked.isWithin_root (ht : t.Linked) {i : Nat} (hi : i < t.size) : t.IsWithin i root := by
  induction i using Nat.strongRecOn with
  | _ i ih =>
    cases i with
    | zero => exact .inl rfl
    | succ i =>
      obtain ⟨p, hp⟩ := ht.parented (i + 1) (Nat.succ_pos i) hi
      have hlt := parent?_lt hp
      exact .inr ((mem_ancestors_iff hp).2 (ih p hlt (Nat.lt_trans hlt hi)))

/-- Ids run in pre-order: the parent of a node is the node right before it, or lies above that
one. -/
def Preordered (t : SourceTree) : Prop := ∀ i p, t.parent? (i + 1) = some p → t.IsWithin i p

namespace Preordered

/-- What lies above a node lies above all nodes between the two. -/
theorem mem_ancestors_of_between (ht : t.Preordered) {a i j : Nat} (ha : a ∈ t.ancestors j)
    (hai : a < i) (hij : i ≤ j) : a ∈ t.ancestors i := by
  induction j with
  | zero =>
    have := lt_of_mem_ancestors ha
    omega
  | succ j ih =>
    rcases Nat.lt_or_eq_of_le hij with hlt | rfl
    · cases hp : t.parent? (j + 1) with
      | none => simp [ancestors_eq_nil hp] at ha
      | some p =>
        have hwithin : t.IsWithin j a := (ht j p hp).trans ((mem_ancestors_iff hp).1 ha)
        rcases hwithin with rfl | ha
        · omega
        · exact ih ha (by omega)
    · exact ha

/-- What lies within a node comes before the next sibling. -/
theorem lt_sibling (ht : t.Preordered) {p c d x : Nat} (hc : t.parent? c = some p)
    (hd : t.parent? d = some p) (hcd : c < d) (hx : t.IsWithin x c) : x < d := by
  rcases hx with rfl | hx
  · exact hcd
  · refine Nat.lt_of_not_le fun hdx => ?_
    have habove : c ∈ t.ancestors d := ht.mem_ancestors_of_between hx hcd hdx
    have hpc := parent?_lt hc
    rcases (mem_ancestors_iff hd).1 habove with rfl | habove
    · exact Nat.lt_irrefl _ hpc
    · have := lt_of_mem_ancestors habove
      omega

theorem pairwise_descendants (ht : t.Preordered) (hlinked : t.Linked) (i : Nat) :
    (t.descendants i).Pairwise (· < ·) := by
  induction i using descendants.induct t with
  | case1 i ih =>
    rw [descendants_eq]
    apply List.pairwise_flatMap.2
    constructor
    · intro c hc
      apply List.pairwise_cons.2
      refine ⟨?_, ih ⟨c, hc⟩⟩
      intro j hj
      exact lt_of_mem_ancestors (hlinked.mem_descendants_iff.1 hj)
    · apply (hlinked.increasing i).imp_of_mem
      intro c d hc hd hcd x hx y hy
      have hwithin : ∀ {e z}, z ∈ e :: t.descendants e → t.IsWithin z e := by
        intro e z hz
        rcases List.mem_cons.1 hz with rfl | hz
        · exact .inl rfl
        · exact .inr (hlinked.mem_descendants_iff.1 hz)
      have hxd : x < d := ht.lt_sibling ((hlinked.mem_children i c).1 hc)
        ((hlinked.mem_children i d).1 hd) hcd (hwithin hx)
      have hdy : d ≤ y := by
        rcases hwithin hy with rfl | hy
        · exact Nat.le_refl _
        · exact Nat.le_of_lt (lt_of_mem_ancestors hy)
      omega

theorem pairwise_symbolsIn (ht : t.Preordered) (hlinked : t.Linked) (id : Nat) :
    (t.symbolsIn id).Pairwise (· < ·) := by
  apply List.Pairwise.filter
  apply List.pairwise_cons.2
  refine ⟨?_, ht.pairwise_descendants hlinked id⟩
  intro d hd
  exact lt_of_mem_ancestors (hlinked.mem_descendants_iff.1 hd)

end Preordered

/-- An increasing list of numbers behind `i` that leaves none out. -/
theorem eq_range'_of_dense {l : List Nat} {i : Nat} (hsorted : l.Pairwise (· < ·))
    (hlt : ∀ x ∈ l, i < x) (hdense : ∀ x ∈ l, ∀ y, i < y → y ≤ x → y ∈ l) :
    l = List.range' (i + 1) l.length := by
  induction l generalizing i with
  | nil => rfl
  | cons x l ih =>
    obtain ⟨hx, htail⟩ := List.pairwise_cons.1 hsorted
    have hix := hlt x List.mem_cons_self
    have hfirst : x = i + 1 := by
      rcases List.mem_cons.1 (hdense x List.mem_cons_self (i + 1) (by omega) hix) with h | h
      · exact h.symm
      · have := hx _ h
        omega
    subst hfirst
    rw [List.length_cons, List.range'_succ]
    congr 1
    apply ih htail hx
    intro z hz y hy hyz
    have hmem := hdense z (List.mem_cons_of_mem _ hz) y (by omega) hyz
    exact (List.mem_cons.1 hmem).resolve_left (by omega)

/-- The nodes below a node have the ids right behind its own. -/
theorem Preordered.descendants_eq_range' (ht : t.Preordered) (hlinked : t.Linked) (i : Nat) :
    t.descendants i = List.range' (i + 1) (t.descendants i).length := by
  apply eq_range'_of_dense (ht.pairwise_descendants hlinked i)
  · intro x hx
    exact lt_of_mem_ancestors (hlinked.mem_descendants_iff.1 hx)
  · intro x hx y hy hyx
    rw [hlinked.mem_descendants_iff] at hx ⊢
    exact ht.mem_ancestors_of_between hx hy hyx

theorem Preordered.append (ht : t.Preordered) {parent : Nat} (hp : parent < t.size)
    (hlast : t.IsWithin (t.size - 1) parent) (kind : NodeKind) (span : Span)
    (text : Option String) : (t.append parent hp kind span text).Preordered := by
  intro i p h
  rw [parent?_append] at h
  split at h
  · next hi =>
    obtain rfl : parent = p := Option.some.inj h
    obtain rfl : i = t.size - 1 := by omega
    rwa [IsWithin, ancestors_append_of_lt _ _ _ _ _ (by omega)]
  · have := lt_size_of_parent? h
    rw [IsWithin, ancestors_append_of_lt _ _ _ _ _ (by omega)]
    exact ht i p h

theorem Preordered.settle (ht : t.Preordered) (id stop : Nat) (closed : Bool) :
    (t.settle id stop closed).Preordered := by
  intro i p h
  rw [parent?_settle] at h
  rw [IsWithin, ancestors_settle]
  exact ht i p h

/-- A new node lies within all that its parent lies within. -/
theorem isWithin_append_size {parent a : Nat} (hp : parent < t.size) (ha : t.IsWithin parent a)
    (kind : NodeKind) (span : Span) (text : Option String) :
    a ∈ (t.append parent hp kind span text).ancestors t.size := by
  have hnew : (t.append parent hp kind span text).parent? t.size = some parent := by
    rw [parent?_append, if_pos rfl]
  rw [mem_ancestors_iff hnew, IsWithin, ancestors_append_of_lt _ _ _ _ _ hp]
  exact ha

end SourceTree

namespace PartialTree

open SourceTree

/-- A tree under construction whose ids run in pre-order. Its open nodes stand in each other, and
the last node stands in all of them, so the next one comes behind everything below its parent. -/
structure Preordered (b : PartialTree) : Prop where
  sound : b.Sound
  tree : b.tree.Preordered
  nested : b.openIds.Pairwise fun x y => y ∈ b.tree.ancestors x
  last : ∀ i ∈ b.openIds, b.tree.IsWithin (b.tree.size - 1) i

theorem preordered_empty : empty.Preordered where
  sound := sound_empty
  tree := by
    intro i p h
    cases h
  nested := List.Pairwise.nil
  last := by simp [openIds, empty]

namespace Preordered

variable {b : PartialTree}

theorem last_innermost (hb : b.Preordered) :
    b.tree.IsWithin (b.tree.size - 1) b.innermost := by
  rw [innermost_eq]
  cases hids : b.openIds with
  | nil =>
    have := b.tree.nonempty
    exact hb.sound.tree.isWithin_root (Nat.sub_one_lt_of_lt this)
  | cons i ids => exact hb.last i (by simp [hids])

theorem innermost_within (hb : b.Preordered) {i : Nat} (hi : i ∈ b.openIds) :
    b.tree.IsWithin b.innermost i := by
  have hnested := hb.nested
  rw [innermost_eq]
  cases hids : b.openIds with
  | nil => simp [hids] at hi
  | cons j ids =>
    rw [hids] at hi hnested
    rcases List.mem_cons.1 hi with rfl | hi
    · exact .inl rfl
    · exact .inr ((List.pairwise_cons.1 hnested).1 i hi)

end Preordered

theorem size_grow_eq (b : PartialTree) (kind : NodeKind) (span : Span) (text : Option String) :
    (b.grow kind span text).1.size = (b.grow kind span text).2.node + 1 := by
  by_cases hw : b.wraps = true
  · simp [grow_of_wraps hw]
  · simp [grow_of_not_wraps hw]

/-- What the innermost open node lies within lies above the new node. -/
theorem mem_ancestors_grow {b : PartialTree} {i : Nat} (hi : b.tree.IsWithin b.innermost i)
    (kind : NodeKind) (span : Span) (text : Option String) :
    i ∈ (b.grow kind span text).1.ancestors (b.grow kind span text).2.node := by
  by_cases hw : b.wraps = true
  · rw [grow_of_wraps hw]
    have hform := isWithin_append_size b.innermost_lt hi .form span none
    have hnode := isWithin_append_size
      (t := b.tree.append b.innermost b.innermost_lt .form span none) (by simp) (.inr hform) kind
      span text
    simpa using hnode
  · rw [grow_of_not_wraps hw]
    exact isWithin_append_size b.innermost_lt hi kind span text

namespace Preordered

variable {b b' : PartialTree}

theorem grow (hb : b.Preordered) (kind : NodeKind) (span : Span) (text : Option String) :
    (b.grow kind span text).1.Preordered := by
  by_cases hw : b.wraps = true
  · rw [grow_of_wraps hw]
    have hform := hb.tree.append b.innermost_lt hb.last_innermost .form span none
    exact hform.append (by simp) (.inl (by simp)) kind span text
  · rw [grow_of_not_wraps hw]
    exact hb.tree.append b.innermost_lt hb.last_innermost kind span text

/-- The new node comes last, and the nodes that were open stand around it. -/
theorem last_grow (hb : b.Preordered) {i : Nat} (hi : i ∈ b.openIds) (kind : NodeKind)
    (span : Span) (text : Option String) :
    (b.grow kind span text).1.IsWithin ((b.grow kind span text).1.size - 1) i := by
  rw [size_grow_eq, Nat.add_sub_cancel]
  exact .inr (mem_ancestors_grow (hb.innermost_within hi) kind span text)

theorem nested_grow (hb : b.Preordered) (kind : NodeKind) (span : Span) (text : Option String) :
    b.openIds.Pairwise fun x y => y ∈ (b.grow kind span text).1.ancestors x := by
  apply hb.nested.imp_of_mem
  intro x y hx _ hxy
  rwa [ancestors_grow_of_lt (Spaced.openIds_lt b hx)]

theorem step {e : Event} (hb : b.Preordered) (h : b.step e = .ok b') : b'.Preordered := by
  have hsound := hb.sound.step h
  rcases step_cases h with ⟨kind, offset, -, -, rfl⟩ | ⟨kind, text, span, -, -, -, rfl⟩ |
    ⟨stop, closed, o, rest, -, ho, -, rfl⟩
  · refine ⟨hsound, hb.grow kind ⟨offset, offset⟩ none, ?_, ?_⟩
    · apply List.pairwise_cons.2
      refine ⟨?_, hb.nested_grow kind ⟨offset, offset⟩ none⟩
      intro i hi
      exact mem_ancestors_grow (hb.innermost_within hi) kind ⟨offset, offset⟩ none
    · intro i hi
      rcases List.mem_cons.1 hi with rfl | hi
      · left
        simp only [PartialTree.begin]
        rw [size_grow_eq, Nat.add_sub_cancel]
      · exact hb.last_grow hi kind ⟨offset, offset⟩ none
  · exact ⟨hsound, hb.grow kind span (some text), hb.nested_grow kind span (some text),
      fun i hi => hb.last_grow hi kind span (some text)⟩
  · have hids := Spaced.openIds_endInnermost ho stop closed
    have hnested := hb.nested
    rw [hids] at hnested
    refine ⟨hsound, ?_, ?_, ?_⟩
    · intro i p hp
      rw [parent?_endInnermost] at hp
      rw [IsWithin, ancestors_endInnermost]
      exact hb.tree i p hp
    · simpa only [ancestors_endInnermost] using (List.pairwise_cons.1 hnested).2
    · intro i hi
      have hlast := hb.last i (by rw [hids]; exact List.mem_cons_of_mem _ hi)
      rwa [IsWithin, ancestors_endInnermost, size_endInnermost]

end Preordered

end PartialTree
end PhelAssist
