import PhelAssist.Proofs.Arena

namespace PhelAssist

namespace SourceTree

/-- Child lists and parent links say the same. Forms stand exactly below the nodes that want their
children wrapped, and words have nothing below them. -/
structure Linked (t : SourceTree) : Prop where
  file : t.HasKind root .file
  mem_children : ∀ p c, c ∈ t.children p ↔ t.parent? c = some p
  increasing : ∀ p, (t.children p).Pairwise (· < ·)
  parented : ∀ id, 0 < id → id < t.size → ∃ p, t.parent? id = some p
  wrapped : ∀ c p, t.parent? c = some p → (t.HasKind c .form ↔ ∃ k ∈ t.kind? p, k.holdsForms)
  inner : ∀ c p, t.parent? c = some p → ∀ k ∈ t.kind? p, k.isWord = false

/-- A linked tree in which every form holds a single node, the one right behind it. -/
structure Sound (t : SourceTree) : Prop extends Linked t where
  single : ∀ f, t.HasKind f .form → t.children f = [f + 1]

theorem sound_blank : blank.Sound where
  file := rfl
  mem_children p c := by
    have hp : blank.parent? c = none := by cases c <;> rfl
    have hc : blank.children p = [] := by cases p <;> rfl
    simp [hp, hc]
  increasing p := by
    have hc : blank.children p = [] := by cases p <;> rfl
    simp [hc]
  parented id h0 h1 := by
    simp at h1
    omega
  wrapped c p h := by cases c <;> cases h
  inner c p h := by cases c <;> cases h
  single f h := by cases f <;> cases h

theorem Linked.append {t : SourceTree} (ht : t.Linked) {parent : Nat} (hp : parent < t.size)
    {kind : NodeKind} (span : Span) (text : Option String)
    (hkind : kind = .form ↔ ∃ k ∈ t.kind? parent, k.holdsForms)
    (hword : ∀ k ∈ t.kind? parent, k.isWord = false) :
    (t.append parent hp kind span text).Linked where
  file := by
    rw [HasKind, kind?_append, if_neg (show root ≠ t.size from Nat.ne_of_lt t.nonempty)]
    exact ht.file
  mem_children p c := by
    rw [children_append, parent?_append]
    by_cases hc : c = t.size
    · subst hc
      have hnew : t.size ∉ t.children p := fun h => Nat.lt_irrefl _ (lt_of_mem_children h).2
      by_cases hpar : p = parent
      · simp [hpar]
      · simp [hpar, hnew, Ne.symm hpar]
    · rw [if_neg hc, ← ht.mem_children p c]
      by_cases hpar : p = parent
      · simp [hpar, hc]
      · simp [hpar]
  increasing p := by
    rw [children_append]
    split
    · refine List.pairwise_append.2 ⟨ht.increasing p, List.pairwise_singleton _ _, ?_⟩
      intro c hc d hd
      rw [List.mem_singleton.1 hd]
      exact (lt_of_mem_children hc).2
    · exact ht.increasing p
  parented id h0 h1 := by
    rw [parent?_append]
    rw [size_append] at h1
    split
    · exact ⟨parent, rfl⟩
    · exact ht.parented id h0 (by omega)
  wrapped c p h := by
    rw [parent?_append] at h
    by_cases hc : c = t.size
    · obtain rfl : parent = p := by simpa [hc] using h
      rw [HasKind, kind?_append, kind?_append, if_pos hc, if_neg (Nat.ne_of_lt hp)]
      simpa using hkind
    · rw [if_neg hc] at h
      have := parent?_lt h
      have := lt_size_of_parent? h
      rw [HasKind, kind?_append, kind?_append, if_neg hc, if_neg (by omega)]
      exact ht.wrapped c p h
  inner c p h := by
    rw [parent?_append] at h
    by_cases hc : c = t.size
    · obtain rfl : parent = p := by simpa [hc] using h
      rw [kind?_append, if_neg (Nat.ne_of_lt hp)]
      exact hword
    · rw [if_neg hc] at h
      have := parent?_lt h
      have := lt_size_of_parent? h
      rw [kind?_append, if_neg (by omega)]
      exact ht.inner c p h

theorem Sound.settle {t : SourceTree} (ht : t.Sound) (id stop : Nat) (closed : Bool) :
    (t.settle id stop closed).Sound where
  file := by simpa using ht.file
  mem_children p c := by simpa using ht.mem_children p c
  increasing p := by simpa using ht.increasing p
  parented i h0 h1 := by simpa using ht.parented i h0 (by simpa using h1)
  wrapped c p h := by simpa using ht.wrapped c p (by simpa using h)
  inner c p h := by simpa using ht.inner c p (by simpa using h)
  single f h := by simpa using ht.single f (by simpa using h)

namespace Sound

variable {t : SourceTree}

theorem unwrap_form (ht : t.Sound) {f : Nat} (hf : t.HasKind f .form) : t.unwrap f = f + 1 := by
  simp [unwrap, hf, ht.single f hf]

theorem elements_eq (ht : t.Sound) {p : Nat} {k : NodeKind} (hp : t.kind? p = some k)
    (hk : k.holdsForms = true) : t.elements p = (t.children p).map (· + 1) := by
  refine List.map_congr_left fun c hc => ht.unwrap_form ?_
  exact (ht.wrapped c p ((ht.mem_children p c).1 hc)).2 ⟨k, hp, hk⟩

theorem pairwise_elements (ht : t.Sound) {p : Nat} {k : NodeKind} (hp : t.kind? p = some k)
    (hk : k.holdsForms = true) : (t.elements p).Pairwise (· < ·) := by
  rw [ht.elements_eq hp hk, List.pairwise_map]
  exact (ht.increasing p).imp (by omega)

theorem container?_eq_some_iff (ht : t.Sound) {e p : Nat} :
    t.container? e = some p ↔
      ∃ f, e = f + 1 ∧ t.HasKind f .form ∧ t.parent? e = some f ∧ t.parent? f = some p := by
  constructor
  · intro h
    obtain ⟨f, hf, h⟩ := Option.bind_eq_some_iff.1 h
    split at h
    · next hform =>
      have hmem := (ht.mem_children f e).2 hf
      rw [ht.single f hform] at hmem
      exact ⟨f, List.mem_singleton.1 hmem, hform, hf, h⟩
    · contradiction
  · rintro ⟨f, -, hform, hf, hp⟩
    simp [container?, hf, hform, hp]

theorem holdsForms_of_container? (ht : t.Sound) {e p : Nat} (h : t.container? e = some p) :
    ∃ k, t.kind? p = some k ∧ k.holdsForms = true := by
  obtain ⟨f, -, hform, -, hp⟩ := ht.container?_eq_some_iff.1 h
  exact (ht.wrapped f p hp).1 hform

theorem mem_elements_iff (ht : t.Sound) {e p : Nat} {k : NodeKind} (hp : t.kind? p = some k)
    (hk : k.holdsForms = true) : e ∈ t.elements p ↔ t.container? e = some p := by
  rw [ht.elements_eq hp hk, List.mem_map, ht.container?_eq_some_iff]
  constructor
  · rintro ⟨f, hf, rfl⟩
    have hparent := (ht.mem_children p f).1 hf
    have hform := (ht.wrapped f p hparent).2 ⟨k, hp, hk⟩
    refine ⟨f, rfl, hform, (ht.mem_children f (f + 1)).1 ?_, hparent⟩
    simp [ht.single f hform]
  · rintro ⟨f, rfl, -, -, hparent⟩
    exact ⟨f, (ht.mem_children p f).2 hparent, rfl⟩

theorem mem_elements_of_container? (ht : t.Sound) {e p : Nat} (h : t.container? e = some p) :
    e ∈ t.elements p := by
  obtain ⟨k, hp, hk⟩ := ht.holdsForms_of_container? h
  exact (ht.mem_elements_iff hp hk).2 h

/-- Above an element come its form, its container, and what is above that. -/
theorem ancestors_eq (ht : t.Sound) {e p : Nat} (h : t.container? e = some p) :
    ∃ f, t.HasKind f .form ∧ t.ancestors e = f :: p :: t.ancestors p := by
  obtain ⟨f, -, hform, hf, hp⟩ := ht.container?_eq_some_iff.1 h
  exact ⟨f, hform, by rw [ancestors_eq_cons hf, ancestors_eq_cons hp]⟩

theorem not_form_of_container? (ht : t.Sound) {e p : Nat} (h : t.container? e = some p) :
    ¬ t.HasKind e .form := by
  obtain ⟨f, -, hform, hparent, -⟩ := ht.container?_eq_some_iff.1 h
  intro he
  obtain ⟨k, hk, hholds⟩ := (ht.wrapped e f hparent).1 he
  obtain rfl : NodeKind.form = k := hform.unique hk
  simp [NodeKind.holdsForms] at hholds

theorem not_above_sibling (ht : t.Sound) {i j p : Nat} (hi : t.container? i = some p)
    (hj : t.container? j = some p) : i ∉ t.ancestors j := by
  intro hmem
  obtain ⟨form, hform, hanc⟩ := ht.ancestors_eq hj
  have hlt := container?_lt hi
  rw [hanc, List.mem_cons, List.mem_cons] at hmem
  rcases hmem with rfl | rfl | hmem
  · exact ht.not_form_of_container? hi hform
  · exact Nat.lt_irrefl _ hlt
  · exact Nat.lt_asymm hlt (lt_of_mem_ancestors hmem)

theorem elements_of_isWord (ht : t.Sound) {p : Nat} {k : NodeKind} (hp : t.kind? p = some k)
    (hk : k.isWord = true) : t.elements p = [] := by
  have hnone : t.children p = [] := by
    refine List.eq_nil_iff_forall_not_mem.2 fun c hc => ?_
    have := ht.inner c p ((ht.mem_children p c).1 hc) k hp
    simp [hk] at this
  simp [elements, hnone]

end Sound

end SourceTree

namespace PartialTree

open SourceTree

/-- A started node of a tree: one that may hold others, with the place where it starts and the
form around it. -/
structure IsOpenNode (t : SourceTree) (o : Pending) : Prop where
  kind : ∃ k, t.kind? o.node = some k ∧ (k.isDelimited ∨ k = .error)
  start : (t.span? o.node).map (·.start) = some o.start
  wrapper : ∀ f, o.wrapper = some f → t.HasKind f .form

/-- A tree under construction whose parts hang together. -/
structure Sound (b : PartialTree) : Prop where
  tree : b.tree.Sound
  opened : ∀ o ∈ b.opened, IsOpenNode b.tree o

theorem sound_empty : empty.Sound := ⟨sound_blank, by simp [empty]⟩

theorem Sound.innermost_kind {b : PartialTree} (hb : b.Sound) :
    ∃ k, b.tree.kind? b.innermost = some k ∧ (k = .file ∨ k.isDelimited ∨ k = .error) := by
  unfold innermost
  split
  · exact ⟨.file, hb.tree.file, .inl rfl⟩
  · next o rest ho =>
    obtain ⟨k, hk, h⟩ := (hb.opened o (by simp [ho])).kind
    exact ⟨k, hk, .inr h⟩

theorem wraps_iff {b : PartialTree} :
    b.wraps = true ↔ ∃ k ∈ b.tree.kind? b.innermost, k.holdsForms := by
  unfold wraps
  cases b.tree.kind? b.innermost <;> simp

theorem grow_of_wraps {b : PartialTree} (hw : b.wraps = true) (kind : NodeKind) (span : Span)
    (text : Option String) :
    b.grow kind span text =
      ((b.tree.append b.innermost b.innermost_lt .form span none).append b.tree.size
        (by rw [size_append]; exact Nat.lt_succ_self _) kind span text,
        ⟨b.tree.size + 1, some b.tree.size, span.start⟩) := by
  simp [grow, hw]

theorem grow_of_not_wraps {b : PartialTree} (hw : ¬ b.wraps = true) (kind : NodeKind)
    (span : Span) (text : Option String) :
    b.grow kind span text = (b.tree.append b.innermost b.innermost_lt kind span text,
      ⟨b.tree.size, none, span.start⟩) := by
  simp [grow, hw]

theorem Sound.grow {b : PartialTree} (hb : b.Sound) {kind : NodeKind} (hk : kind ≠ .form)
    (span : Span) (text : Option String) : (b.grow kind span text).1.Sound := by
  obtain ⟨k, hkind, hcomposite⟩ := hb.innermost_kind
  have hword : ∀ k ∈ b.tree.kind? b.innermost, k.isWord = false := by
    rw [hkind]
    rcases k with _ | _ | _ | _ | _ <;> simp_all [NodeKind.isWord, NodeKind.isDelimited]
  have hform : ¬ b.tree.HasKind b.innermost .form := by
    rw [HasKind, hkind]
    rintro ⟨⟩
    simp [NodeKind.isDelimited] at hcomposite
  by_cases hw : b.wraps = true
  · rw [grow_of_wraps hw]
    have hlinked : (b.tree.append b.innermost b.innermost_lt .form span none).Linked :=
      hb.tree.append b.innermost_lt span none (by simpa using wraps_iff.1 hw) hword
    refine ⟨hlinked.append (by simp) span text ?_ ?_, fun f hf => ?_⟩
    · simp [kind?_append, hk, NodeKind.holdsForms]
    · simp [kind?_append, NodeKind.isWord]
    · rw [children_append, children_append]
      simp only [HasKind, kind?_append, size_append] at hf
      have hlt := b.innermost_lt
      by_cases hnew : f = b.tree.size
      · subst hnew
        rw [if_pos rfl, if_neg (Nat.ne_of_gt hlt), children_of_size_le (Nat.le_refl _), size_append]
        rfl
      · have hold : f ≠ b.tree.size + 1 := by
          rintro rfl
          simp [hk] at hf
        rw [if_neg hold, if_neg hnew] at hf
        have hne : f ≠ b.innermost := by
          rintro rfl
          exact hform hf
        rw [if_neg hnew, if_neg hne]
        exact hb.tree.single f hf
  · rw [grow_of_not_wraps hw]
    refine ⟨hb.tree.append b.innermost_lt span text ?_ hword, fun f hf => ?_⟩
    · exact ⟨fun h => absurd h hk, fun h => absurd (wraps_iff.2 h) hw⟩
    · rw [children_append]
      rw [HasKind, kind?_append] at hf
      have hold : f ≠ b.tree.size := by
        rintro rfl
        simp [hk] at hf
      rw [if_neg hold] at hf
      have hne : f ≠ b.innermost := by
        rintro rfl
        exact hform hf
      rw [if_neg hne]
      exact hb.tree.single f hf

theorem kind?_grow_of_lt {b : PartialTree} {i : Nat} (hi : i < b.tree.size) (kind : NodeKind)
    (span : Span) (text : Option String) :
    (b.grow kind span text).1.kind? i = b.tree.kind? i := by
  by_cases hw : b.wraps = true
  · rw [grow_of_wraps hw, kind?_append, kind?_append, size_append, if_neg (by omega),
      if_neg (by omega)]
  · rw [grow_of_not_wraps hw, kind?_append, if_neg (by omega)]

theorem span?_grow_of_lt {b : PartialTree} {i : Nat} (hi : i < b.tree.size) (kind : NodeKind)
    (span : Span) (text : Option String) :
    (b.grow kind span text).1.span? i = b.tree.span? i := by
  by_cases hw : b.wraps = true
  · rw [grow_of_wraps hw, span?_append, span?_append, size_append, if_neg (by omega),
      if_neg (by omega)]
  · rw [grow_of_not_wraps hw, span?_append, if_neg (by omega)]

theorem parent?_grow_of_lt {b : PartialTree} {i : Nat} (hi : i < b.tree.size) (kind : NodeKind)
    (span : Span) (text : Option String) :
    (b.grow kind span text).1.parent? i = b.tree.parent? i := by
  by_cases hw : b.wraps = true
  · rw [grow_of_wraps hw, parent?_append, parent?_append, size_append, if_neg (by omega),
      if_neg (by omega)]
  · rw [grow_of_not_wraps hw, parent?_append, if_neg (by omega)]

theorem ancestors_grow_of_lt {b : PartialTree} {i : Nat} (hi : i < b.tree.size) (kind : NodeKind)
    (span : Span) (text : Option String) :
    (b.grow kind span text).1.ancestors i = b.tree.ancestors i :=
  ancestors_congr fun _ hj => parent?_grow_of_lt (Nat.lt_of_le_of_lt hj hi) kind span text

theorem IsOpenNode.grow {b : PartialTree} {o : Pending} (ho : IsOpenNode b.tree o)
    (hlt : o.node < b.tree.size) (kind : NodeKind) (span : Span) (text : Option String) :
    IsOpenNode (b.grow kind span text).1 o where
  kind := by simpa only [kind?_grow_of_lt hlt] using ho.kind
  start := by simpa only [span?_grow_of_lt hlt] using ho.start
  wrapper f hf := by
    have hform := ho.wrapper f hf
    rwa [HasKind, kind?_grow_of_lt (lt_size_of_hasKind hform)]

theorem isOpenNode_grow {b : PartialTree} {kind : NodeKind} (hk : kind.isDelimited ∨ kind = .error)
    (span : Span) (text : Option String) :
    IsOpenNode (b.grow kind span text).1 (b.grow kind span text).2 := by
  by_cases hw : b.wraps = true
  · rw [grow_of_wraps hw]
    exact ⟨⟨kind, by simp [kind?_append], hk⟩, by simp [span?_append],
      fun f hf => by
        obtain rfl : b.tree.size = f := Option.some.inj hf
        simp [HasKind, kind?_append]⟩
  · rw [grow_of_not_wraps hw]
    exact ⟨⟨kind, by simp [kind?_append], hk⟩, by simp [span?_append], by simp⟩

/-- What an event that is taken does. -/
theorem step_cases {b b' : PartialTree} {e : Event} (h : b.step e = .ok b') :
    (∃ kind offset, e = .start kind offset ∧ (kind.isDelimited ∨ kind = .error) ∧
      b' = b.begin kind offset) ∨
    (∃ kind text span, e = .token kind text span ∧ (kind.isWord ∨ kind = .error) ∧
      span.start ≤ span.stop ∧ b' = b.addWord kind text span) ∨
    ∃ stop closed o rest, e = .finish stop closed ∧ b.opened = o :: rest ∧ o.start ≤ stop ∧
      b' = b.endInnermost o stop closed := by
  cases e with
  | start kind offset =>
    simp only [step] at h
    split at h
    · next hk => exact .inl ⟨kind, offset, rfl, hk, (Except.ok.inj h).symm⟩
    · contradiction
  | token kind text span =>
    simp only [step] at h
    split at h
    · next hk =>
      split at h
      · contradiction
      · next hs =>
        exact .inr (.inl ⟨kind, text, span, rfl, hk, by omega, (Except.ok.inj h).symm⟩)
    · contradiction
  | finish stop closed =>
    simp only [step] at h
    split at h
    · contradiction
    · next o rest ho =>
      split at h
      · contradiction
      · next hs =>
        exact .inr (.inr ⟨stop, closed, o, rest, rfl, ho, by omega, (Except.ok.inj h).symm⟩)

theorem tree_endInnermost (b : PartialTree) (o : Pending) (stop : Nat) (closed : Bool) :
    (b.endInnermost o stop closed).tree =
      match o.wrapper with
      | some form => (b.tree.settle o.node stop closed).settle form stop true
      | none => b.tree.settle o.node stop closed :=
  rfl

theorem map_span?_settle {t : SourceTree} (id stop : Nat) (closed : Bool) (i : Nat) :
    ((t.settle id stop closed).span? i).map (·.start) = (t.span? i).map (·.start) := by
  simp only [span?, Option.map_map]
  exact map_settle id stop closed (fun n => n.span.start) (fun _ => rfl) i

theorem IsOpenNode.settle {t : SourceTree} {o : Pending} (ho : IsOpenNode t o) (id stop : Nat)
    (closed : Bool) : IsOpenNode (t.settle id stop closed) o where
  kind := by simpa using ho.kind
  start := by simpa only [map_span?_settle] using ho.start
  wrapper f hf := by simpa using ho.wrapper f hf

theorem Sound.endInnermost {b : PartialTree} (hb : b.Sound) (o : Pending) (stop : Nat)
    (closed : Bool) : (b.endInnermost o stop closed).Sound where
  tree := by
    rw [tree_endInnermost]
    cases o.wrapper with
    | none => exact hb.tree.settle ..
    | some form => exact (hb.tree.settle ..).settle ..
  opened p hp := by
    have ho := hb.opened p (List.mem_of_mem_tail hp)
    rw [tree_endInnermost]
    cases o.wrapper with
    | none => exact ho.settle ..
    | some form => exact (ho.settle ..).settle ..

theorem Sound.step {b b' : PartialTree} {e : Event} (hb : b.Sound) (h : b.step e = .ok b') :
    b'.Sound := by
  rcases step_cases h with ⟨kind, offset, -, hk, rfl⟩ | ⟨kind, text, span, -, hk, -, rfl⟩ |
    ⟨stop, closed, o, rest, -, -, -, rfl⟩
  · have hform : kind ≠ .form := by
      rintro rfl
      simp [NodeKind.isDelimited] at hk
    refine ⟨hb.grow hform _ _, fun o ho => ?_⟩
    rcases List.mem_cons.1 ho with rfl | ho
    · exact isOpenNode_grow hk _ _
    · exact (hb.opened o ho).grow (b.opened_lt o ho) _ _ _
  · have hform : kind ≠ .form := by
      rintro rfl
      simp [NodeKind.isWord] at hk
    exact ⟨hb.grow hform _ _, fun o ho => (hb.opened o ho).grow (b.opened_lt o ho) _ _ _⟩
  · exact hb.endInnermost o stop closed

end PartialTree
end PhelAssist
