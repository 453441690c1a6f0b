import PhelAssist.Proofs.Preorder

namespace PhelAssist

namespace SourceTree

variable {t : SourceTree}

theorem span?_settle (id stop : Nat) (closed : Bool) (i : Nat) :
    (t.settle id stop closed).span? i =
      (t.span? i).map fun s => if i = id then ⟨s.start, stop⟩ else s := by
  simp only [span?, node?_settle, Option.map_map]
  congr 1
  funext n
  by_cases hi : i = id <;> simp [hi, Node.settle]

theorem text?_append_size (parent : Nat) (hp : parent < t.size) (kind : NodeKind) (span : Span)
    (text : Option String) : (t.append parent hp kind span text).text? t.size = text := by
  simp [text?, node?_append]

theorem exists_span? {i : Nat} (hi : i < t.size) : ∃ s, t.span? i = some s := by
  obtain ⟨n, hn⟩ := exists_node hi
  exact ⟨n.span, by simp [span?, hn]⟩

theorem lt_size_of_span? {i : Nat} {s : Span} (h : t.span? i = some s) : i < t.size := by
  obtain ⟨n, hn, -⟩ := Option.map_eq_some_iff.1 h
  exact lt_size_of_node? hn

theorem Sound.lt_size_of_form (ht : t.Sound) {f : Nat} (hf : t.HasKind f .form) :
    f + 1 < t.size := by
  have hmem : f + 1 ∈ t.children f := by simp [ht.single f hf]
  exact (lt_of_mem_children hmem).2

theorem Sound.parent?_of_form (ht : t.Sound) {f : Nat} (hf : t.HasKind f .form) :
    t.parent? (f + 1) = some f := by
  apply (ht.mem_children f (f + 1)).1
  simp [ht.single f hf]

theorem Sound.not_form_of_form (ht : t.Sound) {f : Nat} (hf : t.HasKind f .form) :
    ¬ t.HasKind (f + 1) .form := by
  intro hchild
  obtain ⟨k, hk, hholds⟩ := (ht.wrapped (f + 1) f (ht.parent?_of_form hf)).1 hchild
  obtain rfl : NodeKind.form = k := hf.unique hk
  simp [NodeKind.holdsForms] at hholds

end SourceTree

namespace PartialTree

open SourceTree

section Grow

variable {b : PartialTree} {kind : NodeKind} {span : Span} {text : Option String} {i : Nat}

theorem span?_grow_of_le (hle : b.tree.size ≤ i) (hlt : i < (b.grow kind span text).1.size) :
    (b.grow kind span text).1.span? i = some span := by
  by_cases hw : b.wraps = true
  · rw [grow_of_wraps hw] at hlt ⊢
    simp only [size_append] at hlt
    rw [span?_append, span?_append, size_append]
    by_cases hi : i = b.tree.size + 1
    · rw [if_pos hi]
    · rw [if_neg hi, if_pos (by omega)]
  · rw [grow_of_not_wraps hw] at hlt ⊢
    simp only [size_append] at hlt
    rw [span?_append, if_pos (by omega)]

theorem text?_grow_of_lt (hi : i < b.tree.size) :
    (b.grow kind span text).1.text? i = b.tree.text? i := by
  by_cases hw : b.wraps = true
  · rw [grow_of_wraps hw, text?_append_of_lt _ _ _ _ _ (by rw [size_append]; omega),
      text?_append_of_lt _ _ _ _ _ hi]
  · rw [grow_of_not_wraps hw, text?_append_of_lt _ _ _ _ _ hi]

theorem text?_grow_node :
    (b.grow kind span text).1.text? (b.grow kind span text).2.node = text := by
  by_cases hw : b.wraps = true
  · rw [grow_of_wraps hw]
    have h := text?_append_size (t := b.tree.append b.innermost b.innermost_lt .form span none)
      b.tree.size (by simp) kind span text
    simpa using h
  · rw [grow_of_not_wraps hw]
    exact text?_append_size b.innermost b.innermost_lt kind span text

/-- Of the nodes that a step adds, all but the form have the kind that was asked for. -/
theorem eq_of_hasKind_grow {k : NodeKind} (hle : b.tree.size ≤ i)
    (hk : (b.grow kind span text).1.HasKind i k) (hform : k ≠ .form) :
    i = (b.grow kind span text).2.node ∧ k = kind := by
  have hlt := lt_size_of_hasKind hk
  by_cases hw : b.wraps = true
  · rw [grow_of_wraps hw] at hk hlt ⊢
    simp only [HasKind, kind?_append, size_append] at hk hlt
    by_cases hi : i = b.tree.size + 1
    · rw [if_pos hi] at hk
      exact ⟨hi, (Option.some.inj hk).symm⟩
    · rw [if_neg hi, if_pos (by omega)] at hk
      exact absurd (Option.some.inj hk).symm hform
  · rw [grow_of_not_wraps hw] at hk hlt ⊢
    simp only [size_append] at hlt
    obtain rfl : i = b.tree.size := by omega
    rw [HasKind, kind?_append, if_pos rfl] at hk
    exact ⟨rfl, (Option.some.inj hk).symm⟩

end Grow

theorem span?_endInnermost (b : PartialTree) (o : Pending) (stop : Nat) (closed : Bool) (i : Nat) :
    (b.endInnermost o stop closed).tree.span? i =
      (b.tree.span? i).map fun s =>
        if i = o.node ∨ o.wrapper = some i then ⟨s.start, stop⟩ else s := by
  rw [tree_endInnermost]
  cases hw : o.wrapper with
  | none => simp [span?_settle]
  | some form =>
    simp only [span?_settle, Option.map_map]
    congr 1
    funext s
    by_cases hnode : i = o.node
    · simp [hnode]
    · by_cases hform : i = form
      · subst hform
        simp [hnode]
      · simp [hnode, hform, Ne.symm hform]

theorem text?_endInnermost (b : PartialTree) (o : Pending) (stop : Nat) (closed : Bool) (i : Nat) :
    (b.endInnermost o stop closed).tree.text? i = b.tree.text? i := by
  rw [tree_endInnermost]
  cases o.wrapper <;> simp

/-- A tree under construction whose spans fit: a form spans what the node in it spans, also while
that node is open, and an open node knows its form. -/
structure Shaped (b : PartialTree) : Prop where
  sound : b.Sound
  ordered : ∀ i s, b.tree.span? i = some s → s.start ≤ s.stop
  fitted : ∀ f, b.tree.HasKind f .form → b.tree.span? (f + 1) = b.tree.span? f
  worded : ∀ i k, b.tree.HasKind i (.token k) → ∃ text, b.tree.text? i = some text
  origin : b.tree.span? root = some ⟨0, 0⟩
  paired : ∀ o ∈ b.opened, ∀ f, b.tree.HasKind f .form → (o.wrapper = some f ↔ o.node = f + 1)

theorem shaped_empty : empty.Shaped where
  sound := sound_empty
  ordered := by
    intro i s h
    cases i with
    | zero =>
      obtain rfl : ⟨0, 0⟩ = s := Option.some.inj h
      exact Nat.le_refl 0
    | succ i => cases h
  fitted := by
    intro f h
    cases f <;> cases h
  worded := by
    intro i k h
    cases i <;> cases h
  origin := rfl
  paired := by simp [empty]

namespace Shaped

variable {b b' : PartialTree}

section Grow

variable {kind : NodeKind} {span : Span} {text : Option String}

theorem ordered_grow (hb : b.Shaped) (hspan : span.start ≤ span.stop) {i : Nat} {s : Span}
    (h : (b.grow kind span text).1.span? i = some s) : s.start ≤ s.stop := by
  by_cases hi : i < b.tree.size
  · rw [span?_grow_of_lt hi] at h
    exact hb.ordered i s h
  · rw [span?_grow_of_le (Nat.le_of_not_lt hi) (lt_size_of_span? h)] at h
    rwa [← Option.some.inj h]

theorem fitted_grow (hb : b.Shaped) (hkind : kind ≠ .form) {f : Nat}
    (hf : (b.grow kind span text).1.HasKind f .form) :
    (b.grow kind span text).1.span? (f + 1) = (b.grow kind span text).1.span? f := by
  have hlt := (hb.sound.grow hkind span text).lt_size_of_form hf
  by_cases hi : f < b.tree.size
  · rw [HasKind, kind?_grow_of_lt hi] at hf
    have hchild := hb.sound.tree.lt_size_of_form hf
    rw [span?_grow_of_lt hi, span?_grow_of_lt hchild]
    exact hb.fitted f hf
  · rw [span?_grow_of_le (by omega) hlt, span?_grow_of_le (by omega) (by omega)]

theorem worded_grow (hb : b.Shaped) (htext : kind.isWord → ∃ word, text = some word) {i : Nat}
    {k : Token} (hk : (b.grow kind span text).1.HasKind i (.token k)) :
    ∃ word, (b.grow kind span text).1.text? i = some word := by
  by_cases hi : i < b.tree.size
  · rw [HasKind, kind?_grow_of_lt hi] at hk
    rw [text?_grow_of_lt hi]
    exact hb.worded i k hk
  · obtain ⟨rfl, hkind⟩ := eq_of_hasKind_grow (Nat.le_of_not_lt hi) hk (by simp)
    rw [text?_grow_node]
    apply htext
    rw [← hkind]
    rfl

theorem paired_grow (hb : b.Shaped) {o : Pending} (ho : o ∈ b.opened) {f : Nat}
    (hf : (b.grow kind span text).1.HasKind f .form) : o.wrapper = some f ↔ o.node = f + 1 := by
  by_cases hi : f < b.tree.size
  · rw [HasKind, kind?_grow_of_lt hi] at hf
    exact hb.paired o ho f hf
  · constructor
    · intro hw
      exact absurd (lt_size_of_hasKind ((hb.sound.opened o ho).wrapper f hw)) hi
    · intro hnode
      have := b.opened_lt o ho
      omega

/-- A new node stands in the form that was made for it, and in no other. -/
theorem paired_new (hb : b.Shaped) (hkind : kind ≠ .form) {f : Nat}
    (hf : (b.grow kind span text).1.HasKind f .form) :
    (b.grow kind span text).2.wrapper = some f ↔ (b.grow kind span text).2.node = f + 1 := by
  by_cases hw : b.wraps = true
  · rw [grow_of_wraps hw]
    simp
  · have hsound := hb.sound.grow hkind span text
    rw [grow_of_not_wraps hw] at hf hsound ⊢
    simp only [reduceCtorEq, false_iff]
    intro hnode
    -- then the form would be the parent of the new node, which is the innermost open one
    have hparent := hsound.parent?_of_form hf
    rw [← hnode, parent?_append, if_pos rfl] at hparent
    obtain rfl : b.innermost = f := Option.some.inj hparent
    rw [HasKind, kind?_append, if_neg (Nat.ne_of_lt b.innermost_lt)] at hf
    obtain ⟨k, hk, hcomposite⟩ := hb.sound.innermost_kind
    obtain rfl : NodeKind.form = k := HasKind.unique hf hk
    simp [NodeKind.isDelimited] at hcomposite

end Grow

section EndInnermost

variable {o : Pending} {rest : List Pending} {stop : Nat} {closed : Bool}

/-- An open node and its form start where the node was started. -/
theorem start_eq (hb : b.Shaped) (ho : o ∈ b.opened) {i : Nat} {s : Span}
    (hi : i = o.node ∨ o.wrapper = some i) (hs : b.tree.span? i = some s) : s.start = o.start := by
  have hnode := (hb.sound.opened o ho).start
  rcases hi with rfl | hw
  · simpa [hs] using hnode
  · have hform := (hb.sound.opened o ho).wrapper i hw
    rw [(hb.paired o ho i hform).1 hw, hb.fitted i hform, hs] at hnode
    simpa using hnode

/-- The file is not open, and a form is open only with the node in it. -/
theorem ne_open (hb : b.Shaped) (ho : o ∈ b.opened) {i : Nat} {k : NodeKind}
    (hi : b.tree.HasKind i k) (hk : k = .file ∨ k = .form) : i ≠ o.node := by
  intro h
  obtain ⟨k', hk', hcomposite⟩ := (hb.sound.opened o ho).kind
  obtain rfl : k = k' := hi.unique (h ▸ hk')
  rcases hk with rfl | rfl
  · simp [NodeKind.isDelimited] at hcomposite
  · simp [NodeKind.isDelimited] at hcomposite

theorem endInnermost (hb : b.Shaped) (ho : b.opened = o :: rest) (hstop : o.start ≤ stop) :
    (b.endInnermost o stop closed).Shaped := by
  have hmem : o ∈ b.opened := by simp [ho]
  have hopen := hb.sound.opened o hmem
  refine ⟨hb.sound.endInnermost o stop closed, ?_, ?_, ?_, ?_, ?_⟩
  · intro i s hs
    rw [span?_endInnermost] at hs
    obtain ⟨old, hold, rfl⟩ := Option.map_eq_some_iff.1 hs
    split
    · next hi => simpa only [hb.start_eq hmem hi hold] using hstop
    · exact hb.ordered i old hold
  · intro f hf
    rw [HasKind, kind?_endInnermost] at hf
    have hinner : o.wrapper ≠ some (f + 1) := by
      intro hw
      exact hb.sound.tree.not_form_of_form hf (hopen.wrapper _ hw)
    have hform : f ≠ o.node := hb.ne_open hmem hf (.inr rfl)
    rw [span?_endInnermost, span?_endInnermost, hb.fitted f hf]
    simp only [hinner, hform, or_false, false_or, hb.paired o hmem f hf, eq_comm]
  · intro i k hk
    rw [HasKind, kind?_endInnermost] at hk
    rw [text?_endInnermost]
    exact hb.worded i k hk
  · have hfile := hb.sound.tree.file
    have hnode : root ≠ o.node := hb.ne_open hmem hfile (.inl rfl)
    have hform : o.wrapper ≠ some root := by
      intro hw
      cases hfile.unique (hopen.wrapper _ hw)
    rw [span?_endInnermost, hb.origin]
    simp [hnode, hform]
  · intro p hp f hf
    rw [HasKind, kind?_endInnermost] at hf
    exact hb.paired p (List.mem_of_mem_tail hp) f hf

end EndInnermost

theorem step {e : Event} (hb : b.Shaped) (h : b.step e = .ok b') : b'.Shaped := by
  have hsound := hb.sound.step h
  have hroot : root < b.tree.size := b.tree.nonempty
  rcases step_cases h with ⟨kind, offset, -, hk, rfl⟩ | ⟨kind, text, span, -, hk, hspan, rfl⟩ |
    ⟨stop, closed, o, rest, -, ho, hstop, rfl⟩
  · have hkind : kind ≠ .form ∧ kind.isWord = false := by
      rcases kind with _ | _ | _ | _ | _ <;> simp_all [NodeKind.isDelimited, NodeKind.isWord]
    refine ⟨hsound, fun i s => hb.ordered_grow (Nat.le_refl offset),
      fun f => hb.fitted_grow hkind.1, fun i k => hb.worded_grow (by simp [hkind.2]), ?_, ?_⟩
    · exact (span?_grow_of_lt hroot ..).trans hb.origin
    · intro o ho f hf
      rcases List.mem_cons.1 ho with rfl | ho
      · exact hb.paired_new hkind.1 hf
      · exact hb.paired_grow ho hf
  · have hkind : kind ≠ .form := by
      rintro rfl
      simp [NodeKind.isWord] at hk
    refine ⟨hsound, fun i s => hb.ordered_grow hspan, fun f => hb.fitted_grow hkind,
      fun i k => hb.worded_grow (fun _ => ⟨text, rfl⟩), ?_, fun o ho f => hb.paired_grow ho⟩
    exact (span?_grow_of_lt hroot ..).trans hb.origin
  · exact hb.endInnermost ho hstop

end Shaped

end PartialTree

/-- The greatest end of the given nodes, 0 if there are none. -/
theorem foldl_max_stop (nodes : List Node) (init : Nat) :
    (∀ n ∈ nodes, n.span.stop ≤ nodes.foldl (fun stop n => max stop n.span.stop) init) ∧
      init ≤ nodes.foldl (fun stop n => max stop n.span.stop) init ∧
      (nodes.foldl (fun stop n => max stop n.span.stop) init = init ∨
        ∃ n ∈ nodes, n.span.stop = nodes.foldl (fun stop n => max stop n.span.stop) init) := by
  induction nodes generalizing init with
  | nil => simp
  | cons n nodes ih =>
    obtain ⟨hall, hinit, hreached⟩ := ih (max init n.span.stop)
    rw [List.foldl_cons]
    refine ⟨?_, by omega, ?_⟩
    · intro m hm
      rcases List.mem_cons.1 hm with rfl | hm
      · omega
      · exact hall m hm
    · rcases hreached with heq | ⟨m, hm, heq⟩
      · rcases Nat.le_total init n.span.stop with h | h
        · exact .inr ⟨n, List.mem_cons_self, by omega⟩
        · exact .inl (by omega)
      · exact .inr ⟨m, List.mem_cons_of_mem _ hm, heq⟩

namespace SourceTree

/-- An arena that is an ordered tree of a file. Parents and child lists agree, ids run in
pre-order, elements of a file or collection stand in forms of their own, words are leaves, and the
file reaches as far as any node does. -/
structure WellFormed (t : SourceTree) : Prop where
  file : t.HasKind root .file ∧ t.parent? root = none
  child : ∀ i, 0 < i → i < t.size → ∃ p, p < i ∧ t.parent? i = some p ∧
    (t.children p).count i = 1 ∧ ∀ q, i ∈ t.children q → q = p
  increasing : ∀ p, (t.children p).Pairwise (· < ·)
  preorder : ∀ i, t.descendants i = List.range' (i + 1) (t.descendants i).length
  wrapped : ∀ p c, c ∈ t.children p →
    (t.HasKind c .form ↔ t.HasKind p .file ∨ ∃ k, t.HasKind p (.collection k))
  form : ∀ f, t.HasKind f .form →
    ∃ c, t.children f = [c] ∧ ¬ t.HasKind c .form ∧ t.span? c = t.span? f
  word : ∀ i k, t.HasKind i (.token k) → (∃ text, t.text? i = some text) ∧ t.children i = []
  spans : ∀ i s, t.span? i = some s → s.start ≤ s.stop
  extent : ∃ stop, t.span? root = some ⟨0, stop⟩ ∧
    (∀ i s, t.span? i = some s → s.stop ≤ stop) ∧
    (t.size = 1 ∧ stop = 0 ∨ ∃ i s, 0 < i ∧ t.span? i = some s ∧ s.stop = stop)

namespace Linked

variable {t : SourceTree}

theorem parent?_root (t : SourceTree) : t.parent? root = none := by
  cases h : t.parent? root with
  | none => rfl
  | some p => exact absurd (parent?_lt h) (Nat.not_lt_zero p)

theorem exists_parent (ht : t.Linked) {i : Nat} (h0 : 0 < i) (hi : i < t.size) :
    ∃ p, p < i ∧ t.parent? i = some p ∧ (t.children p).count i = 1 ∧
      ∀ q, i ∈ t.children q → q = p := by
  obtain ⟨p, hp⟩ := ht.parented i h0 hi
  have hmem : i ∈ t.children p := (ht.mem_children p i).2 hp
  have hnodup : (t.children p).Nodup := (ht.increasing p).imp Nat.ne_of_lt
  refine ⟨p, parent?_lt hp, hp, ?_, ?_⟩
  · rw [hnodup.count, if_pos hmem]
  · intro q hq
    have hparent := (ht.mem_children q i).1 hq
    exact Option.some.inj (hparent.symm.trans hp)

theorem wrapped_iff (ht : t.Linked) {p c : Nat} (hc : c ∈ t.children p) :
    t.HasKind c .form ↔ t.HasKind p .file ∨ ∃ k, t.HasKind p (.collection k) := by
  rw [ht.wrapped c p ((ht.mem_children p c).1 hc)]
  constructor
  · rintro ⟨k, hk, hholds⟩
    cases k with
    | file => exact .inl hk
    | collection c => exact .inr ⟨c, hk⟩
    | form => simp [NodeKind.holdsForms] at hholds
    | token _ => simp [NodeKind.holdsForms] at hholds
    | error => simp [NodeKind.holdsForms] at hholds
  · rintro (hk | ⟨c, hk⟩)
    · exact ⟨_, hk, rfl⟩
    · exact ⟨_, hk, rfl⟩

theorem children_of_word (ht : t.Linked) {i : Nat} {k : Token} (hk : t.HasKind i (.token k)) :
    t.children i = [] := by
  apply List.eq_nil_iff_forall_not_mem.2
  intro c hc
  have := ht.inner c i ((ht.mem_children i c).1 hc) _ hk
  simp [NodeKind.isWord] at this

end Linked

end SourceTree

namespace PartialTree

open SourceTree

/-- The file ends where the last of the other nodes ends. -/
theorem Shaped.extent {b : PartialTree} (hb : b.Shaped) {stop : Nat}
    (hstop : stop = b.tree.nodes.foldl (fun stop n => max stop n.span.stop) 0) :
    (∀ i s, b.tree.span? i = some s → s.stop ≤ stop) ∧
      (b.tree.size = 1 ∧ stop = 0 ∨
        ∃ i s, 0 < i ∧ b.tree.span? i = some s ∧ s.stop = stop) := by
  rw [← Array.foldl_toList] at hstop
  obtain ⟨hall, -, hreached⟩ := foldl_max_stop b.tree.nodes.toList 0
  rw [← hstop] at hall hreached
  have hbound : ∀ i s, b.tree.span? i = some s → s.stop ≤ stop := by
    intro i s hs
    obtain ⟨n, hn, rfl⟩ := Option.map_eq_some_iff.1 hs
    exact hall n (Array.mem_toList_iff.2 (Array.mem_of_getElem? hn))
  refine ⟨hbound, ?_⟩
  by_cases hpos : stop = 0
  · -- nothing but empty nodes at the start of the text
    have hsize : 0 < b.tree.size := b.tree.nonempty
    by_cases hone : b.tree.size = 1
    · exact .inl ⟨hone, hpos⟩
    · obtain ⟨s, hs⟩ := exists_span? (t := b.tree) (i := 1) (by omega)
      have := hbound 1 s hs
      exact .inr ⟨1, s, Nat.one_pos, hs, by omega⟩
  · obtain ⟨n, hn, heq⟩ := hreached.resolve_left hpos
    obtain ⟨i, hi, rfl⟩ := Array.mem_iff_getElem.1 (Array.mem_toList_iff.1 hn)
    have hs : b.tree.span? i = some (b.tree.nodes[i]).span := by
      simp [span?, node?, hi]
    refine .inr ⟨i, _, Nat.pos_of_ne_zero ?_, hs, heq⟩
    rintro rfl
    have horigin := Option.some.inj (hs.symm.trans hb.origin)
    rw [horigin] at heq
    exact hpos heq.symm

theorem finish_cases {b : PartialTree} {t : SourceTree} (h : b.finish = .ok t) :
    b.opened = [] ∧ t = b.tree.settle root
      (b.tree.nodes.foldl (fun stop n => max stop n.span.stop) 0) true := by
  unfold finish at h
  split at h
  · next ho => exact ⟨ho, (Except.ok.inj h).symm⟩
  · contradiction

theorem Shaped.finish {b : PartialTree} {t : SourceTree} (hb : b.Shaped) (hpre : b.tree.Preordered)
    (h : b.finish = .ok t) : t.WellFormed := by
  obtain ⟨-, ht⟩ := finish_cases h
  generalize hstop : b.tree.nodes.foldl (fun stop n => max stop n.span.stop) 0 = stop at ht
  subst ht
  have hsound : (b.tree.settle root stop true).Sound := hb.sound.tree.settle root stop true
  have hroot : (b.tree.settle root stop true).span? root = some ⟨0, stop⟩ := by
    rw [span?_settle, hb.origin]
    simp
  have hother : ∀ i, i ≠ root → (b.tree.settle root stop true).span? i = b.tree.span? i := by
    intro i hi
    rw [span?_settle]
    simp [hi]
  have hform : ∀ f, (b.tree.settle root stop true).HasKind f .form → f ≠ root := by
    rintro f hf rfl
    cases hsound.file.unique hf
  obtain ⟨hbound, hreached⟩ := hb.extent hstop.symm
  refine ⟨⟨hsound.file, Linked.parent?_root _⟩, fun i => hsound.exists_parent, hsound.increasing,
    (hpre.settle root stop true).descendants_eq_range' hsound.toLinked,
    fun p c => hsound.wrapped_iff, ?_, ?_, ?_, stop, hroot, ?_, ?_⟩
  · intro f hf
    refine ⟨f + 1, hsound.single f hf, hsound.not_form_of_form hf, ?_⟩
    rw [hother f (hform f hf), hother (f + 1) (Nat.succ_ne_zero f)]
    exact hb.fitted f (by simpa using hf)
  · intro i k hk
    refine ⟨?_, hsound.children_of_word hk⟩
    rw [text?_settle]
    exact hb.worded i k (by simpa using hk)
  · intro i s hs
    by_cases hi : i = root
    · rw [hi, hroot] at hs
      obtain rfl := Option.some.inj hs
      exact Nat.zero_le stop
    · rw [hother i hi] at hs
      exact hb.ordered i s hs
  · intro i s hs
    by_cases hi : i = root
    · rw [hi, hroot] at hs
      obtain rfl := Option.some.inj hs
      exact Nat.le_refl stop
    · rw [hother i hi] at hs
      exact hbound i s hs
  · rw [size_settle]
    apply hreached.imp_right
    rintro ⟨i, s, h0, hs, heq⟩
    exact ⟨i, s, h0, (hother i (Nat.ne_of_gt h0)).trans hs, heq⟩

end PartialTree

theorem ofEvents_shaped {events : List Event} {t : SourceTree}
    (h : SourceTree.ofEvents events = .ok t) :
    t.Sound ∧ ∀ i k, t.HasKind i (.token k) → ∃ text, t.text? i = some text := by
  obtain ⟨b, hrun, hfinish⟩ := PartialTree.exists_takes h
  have hshaped : b.Shaped := PartialTree.Takes.preserves PartialTree.Shaped.step
    PartialTree.shaped_empty hrun
  obtain ⟨-, rfl⟩ := PartialTree.finish_cases hfinish
  refine ⟨hshaped.sound.tree.settle _ _ _, fun i k hk => ?_⟩
  rw [SourceTree.text?_settle]
  exact hshaped.worded i k (by simpa using hk)

theorem ofEvents_preordered {events : List Event} {t : SourceTree}
    (h : SourceTree.ofEvents events = .ok t) : t.Preordered := by
  obtain ⟨b, hrun, hfinish⟩ := PartialTree.exists_takes h
  have hpre : b.Preordered := PartialTree.Takes.preserves PartialTree.Preordered.step
    PartialTree.preordered_empty hrun
  obtain ⟨-, rfl⟩ := PartialTree.finish_cases hfinish
  exact hpre.tree.settle _ _ _

/-- Events that are taken describe a well-formed tree. -/
theorem ofEvents_wellFormed {events : List Event} {t : SourceTree}
    (h : SourceTree.ofEvents events = .ok t) : t.WellFormed := by
  obtain ⟨b, hrun, hfinish⟩ := PartialTree.exists_takes h
  have hshaped : b.Shaped := PartialTree.Takes.preserves PartialTree.Shaped.step
    PartialTree.shaped_empty hrun
  have hpre : b.Preordered := PartialTree.Takes.preserves PartialTree.Preordered.step
    PartialTree.preordered_empty hrun
  exact hshaped.finish hpre.tree hfinish

/-- A region in error that holds a word and a vector without forms, in a list that nothing
closes. -/
theorem ofEvents_wellFormed_error :
    ∃ t, SourceTree.ofEvents [.start (.collection .list) 0, .token (.token .symbol) "f" ⟨1, 2⟩,
      .start .error 3, .token (.token .symbol) "x" ⟨3, 4⟩, .start (.collection .vector) 4,
      .token .error "?" ⟨5, 5⟩, .finish 6 true, .finish 7 true, .finish 9 false] = .ok t ∧
      t.size = 11 ∧ t.WellFormed :=
  have h : SourceTree.ofEvents [.start (.collection .list) 0, .token (.token .symbol) "f" ⟨1, 2⟩,
      .start .error 3, .token (.token .symbol) "x" ⟨3, 4⟩, .start (.collection .vector) 4,
      .token .error "?" ⟨5, 5⟩, .finish 6 true, .finish 7 true, .finish 9 false] = .ok _ := rfl
  ⟨_, h, rfl, ofEvents_wellFormed h⟩

end PhelAssist
