import PhelAssist.Proofs.Feeding

namespace PhelAssist

namespace SourceTree

/-- What a tree keeps of an earlier state `old` of it, from which it was grown with events after
`offset`. Of the nodes that were open then, those in `still` are open to this day. Nothing is added
below a node that had ended; a node that was open then reaches over the offset once it ends, and
a new one starts behind it, unless it is a word that was being read. -/
structure Continues (old : SourceTree) (opened still : List Nat) (offset : Nat)
    (t : SourceTree) : Prop where
  size : old.size ≤ t.size
  opened_lt : ∀ i ∈ opened, i < old.size
  kind : ∀ i, i < old.size → t.kind? i = old.kind? i
  text : ∀ i, i < old.size → t.text? i = old.text? i
  parent : ∀ i, i < old.size → t.parent? i = old.parent? i
  children : ∀ i, ∃ later, t.children i = old.children i ++ later ∧ ∀ c ∈ later, old.size ≤ c
  below : ∀ j p, old.size ≤ j → t.parent? j = some p → p < old.size → p ∈ opened ∨ p = root
  ended : ∀ i f, i ∉ opened → old.face? i = some f → f.IsElement → t.face? i = some f
  reaches : ∀ i f, i ∈ opened → t.face? i = some f → f.span.start < offset ∧
    (i ∉ still → offset < f.span.stop ∨ f.closed = false ∧ offset ≤ f.span.stop)
  late : ∀ j f, old.size ≤ j → t.face? j = some f → f.IsElement →
    offset ≤ f.span.start ∨ f.kind.isDelimited = false ∧ offset ≤ f.span.stop

namespace Continues

variable {old t : SourceTree} {opened still : List Nat} {offset : Nat}

theorem append (h : Continues old opened still offset t) {parent : Nat} (hp : parent < t.size)
    (hparent : parent < old.size → parent ∈ opened ∨ parent = root) {kind : NodeKind} {span : Span}
    (text : Option String) (hlate : kind ≠ .form →
      offset ≤ span.start ∨ kind.isDelimited = false ∧ offset ≤ span.stop) :
    Continues old opened still offset (t.append parent hp kind span text) where
  size := by
    rw [size_append]
    exact Nat.le_succ_of_le h.size
  opened_lt := h.opened_lt
  kind i hi := by
    have := h.size
    rw [kind?_append, if_neg (by omega), h.kind i hi]
  text i hi := by
    rw [text?_append_of_lt _ _ _ _ _ (Nat.lt_of_lt_of_le hi h.size), h.text i hi]
  parent i hi := by
    have := h.size
    rw [parent?_append, if_neg (by omega), h.parent i hi]
  children i := by
    obtain ⟨later, hlater, hle⟩ := h.children i
    rw [children_append]
    split
    · refine ⟨later ++ [t.size], by rw [hlater, List.append_assoc], fun c hc => ?_⟩
      rcases List.mem_append.1 hc with hc | hc
      · exact hle c hc
      · rw [List.mem_singleton.1 hc]
        exact h.size
    · exact ⟨later, hlater, hle⟩
  below j p hj hjp hlt := by
    rw [parent?_append] at hjp
    split at hjp
    · obtain rfl := Option.some.inj hjp
      exact hparent hlt
    · exact h.below j p hj hjp hlt
  ended i f hi hf he := by
    have := lt_size_of_face? hf
    have := h.size
    rw [face?_append, if_neg (by omega)]
    exact h.ended i f hi hf he
  reaches i f hi hf := by
    have := h.opened_lt i hi
    have := h.size
    rw [face?_append, if_neg (by omega)] at hf
    exact h.reaches i f hi hf
  late j f hj hf he := by
    rw [face?_append] at hf
    split at hf
    · obtain rfl := Option.some.inj hf
      exact hlate he.2
    · exact h.late j f hj hf he

/-- The end of a node may be set if the node was open, or has come later, or is no element. -/
theorem settle (h : Continues old opened still offset t) {id stop : Nat} {closed : Bool}
    {still' : List Nat}
    (hold : id < old.size → id ∈ opened ∨ ∀ f, old.face? id = some f → ¬ f.IsElement)
    (hopened : id ∈ opened → offset < stop ∨ closed = false ∧ offset ≤ stop)
    (hlate : old.size ≤ id → offset ≤ stop) (hstill : ∀ i ∈ still, i ∈ still' ∨ i = id) :
    Continues old opened still' offset (t.settle id stop closed) where
  size := by simpa using h.size
  opened_lt := h.opened_lt
  kind i hi := by simpa using h.kind i hi
  text i hi := by simpa using h.text i hi
  parent i hi := by simpa using h.parent i hi
  children i := by simpa using h.children i
  below j p hj hjp hlt := h.below j p hj (by simpa using hjp) hlt
  ended i f hi hf he := by
    have hne : i ≠ id := by
      rintro rfl
      exact (hold (lt_size_of_face? hf)).elim hi fun hno => hno f hf he
    rw [face?_settle, h.ended i f hi hf he]
    simp [hne]
  reaches i f hi hf := by
    rw [face?_settle] at hf
    obtain ⟨g, hg, rfl⟩ := Option.map_eq_some_iff.1 hf
    obtain ⟨hstart, hstop⟩ := h.reaches i g hi hg
    by_cases hid : i = id
    · simp only [hid, if_true]
      exact ⟨hstart, fun _ => hopened (hid ▸ hi)⟩
    · simp only [hid, if_false]
      exact ⟨hstart, fun hno => hstop fun hmem => (hstill i hmem).elim hno hid⟩
  late j f hj hf he := by
    rw [face?_settle] at hf
    obtain ⟨g, hg, rfl⟩ := Option.map_eq_some_iff.1 hf
    by_cases hid : j = id
    · simp only [hid, if_true] at he ⊢
      exact (h.late j g hj hg he).imp_right fun hword => ⟨hword.1, hlate (hid ▸ hj)⟩
    · simp only [hid, if_false] at he ⊢
      exact h.late j g hj hg he

theorem weaken (h : Continues old opened still offset t) {still' : List Nat}
    (hstill : ∀ i ∈ still, i ∈ still') : Continues old opened still' offset t :=
  { h with reaches := fun i f hi hf =>
      ⟨(h.reaches i f hi hf).1, fun hno => (h.reaches i f hi hf).2 fun hmem => hno (hstill i hmem)⟩ }

end Continues

end SourceTree

namespace PartialTree

open SourceTree

/-- A tree under construction that has grown out of `b` by events after `offset`. -/
structure Resumes (b : PartialTree) (offset : Nat) (b₁ : PartialTree) : Prop where
  sound : b₁.Sound
  tree : Continues b.tree b.openIds b₁.openIds offset b₁.tree
  still : ∀ i ∈ b₁.openIds, i < b.tree.size → i ∈ b.openIds

theorem Spaced.resumes {b : PartialTree} {offset : Nat} (hb : b.Spaced offset) :
    b.Resumes offset b where
  sound := hb.sound
  tree := {
    size := Nat.le_refl _
    opened_lt := fun i => Spaced.openIds_lt b
    kind := fun _ _ => rfl
    text := fun _ _ => rfl
    parent := fun _ _ => rfl
    children := fun i => ⟨[], by simp⟩
    below := fun j p hj hjp hlt => by
      have := lt_size_of_parent? hjp
      omega
    ended := fun i f _ hf _ => hf
    reaches := fun i f hi hf => ⟨hb.tree.started i f hf (hb.isElement_of_open hi hf), absurd hi⟩
    late := fun j f hj hf he => by
      have := lt_size_of_face? hf
      omega }
  still i hi _ := hi

namespace Resumes

variable {b b₁ b₂ : PartialTree} {offset : Nat}

theorem innermost (h : b.Resumes offset b₁) (hlt : b₁.innermost < b.tree.size) :
    b₁.innermost ∈ b.openIds ∨ b₁.innermost = root := by
  rw [innermost_eq] at hlt ⊢
  cases hids : b₁.openIds with
  | nil => exact .inr rfl
  | cons i ids =>
    rw [hids] at hlt
    exact .inl (h.still i (by simp [hids]) hlt)

theorem grow (h : b.Resumes offset b₁) {kind : NodeKind} {span : Span} (text : Option String)
    (hlate : offset ≤ span.start ∨ kind.isDelimited = false ∧ offset ≤ span.stop) :
    Continues b.tree b.openIds b₁.openIds offset (b₁.grow kind span text).1 := by
  by_cases hw : b₁.wraps = true
  · rw [grow_of_wraps hw]
    refine (h.tree.append b₁.innermost_lt h.innermost none (by simp)).append (by simp) ?_ text
      fun _ => hlate
    intro hlt
    exact absurd h.tree.size (Nat.not_le.2 hlt)
  · rw [grow_of_not_wraps hw]
    exact h.tree.append b₁.innermost_lt h.innermost text fun _ => hlate

theorem settle_other (hb : b.Spaced offset) {t : SourceTree} {still : List Nat}
    (h : Continues b.tree b.openIds still offset t) {id stop : Nat} {kind : NodeKind}
    (hid : t.HasKind id kind) (hkind : kind = .file ∨ kind = .form)
    (hlate : b.tree.size ≤ id → offset ≤ stop) :
    Continues b.tree b.openIds still offset (t.settle id stop true) := by
  refine h.settle (fun hlt => .inr fun f hf he => ?_) (fun hopen => ?_) hlate fun i hi => .inl hi
  · rw [HasKind, h.kind id hlt, kind?_of_face? hf] at hid
    obtain rfl := Option.some.inj hid
    exact hkind.elim he.1 he.2
  · obtain ⟨c, hc⟩ := hb.kind_of_open hopen
    rw [HasKind, h.kind id (h.opened_lt id hopen), hc] at hid
    obtain rfl := Option.some.inj hid
    simp at hkind

theorem size_le_node_grow (b : PartialTree) (kind : NodeKind) (span : Span)
    (text : Option String) : b.tree.size ≤ (b.grow kind span text).2.node := by
  by_cases hw : b.wraps = true
  · simp [grow_of_wraps hw]
  · simp [grow_of_not_wraps hw]

theorem step (hb : b.Spaced offset) (h : b.Resumes offset b₁) {e : Event}
    (hstep : b₁.step e = .ok b₂) (he : e.After offset) : b.Resumes offset b₂ := by
  have hsound := h.sound.step hstep
  rcases step_cases hstep with ⟨kind, start, rfl, -, rfl⟩ | ⟨kind, text, span, rfl, hk, -, rfl⟩ |
    ⟨stop, closed, o, rest, rfl, ho, -, rfl⟩
  · have hgrow : Continues b.tree b.openIds b₁.openIds offset
        (b₁.grow kind ⟨start, start⟩ none).1 := h.grow none (.inl he)
    refine ⟨hsound, hgrow.weaken fun i hi => List.mem_cons_of_mem _ hi, fun i hi hlt => ?_⟩
    -- the node that is opened is a new one
    rcases List.mem_cons.1 hi with rfl | hi
    · have hle := Nat.le_trans h.tree.size (size_le_node_grow b₁ kind ⟨start, start⟩ none)
      exact absurd hle (Nat.not_le.2 hlt)
    · exact h.still i hi hlt
  · refine ⟨hsound, h.grow (some text) (.inr ⟨?_, he⟩), h.still⟩
    cases kind <;> simp_all [NodeKind.isWord, NodeKind.isDelimited]
  · have hids := Spaced.openIds_endInnermost ho stop closed
    have hle : offset ≤ stop := by
      rcases he with he | ⟨-, he⟩ <;> omega
    have hnode : Continues b.tree b.openIds (b₁.endInnermost o stop closed).openIds offset
        (b₁.tree.settle o.node stop closed) := by
      refine h.tree.settle (fun hlt => .inl (h.still _ (by simp [hids]) hlt)) (fun _ => he)
        (fun _ => hle) fun i hi => ?_
      rw [hids] at hi
      exact (List.mem_cons.1 hi).symm
    refine ⟨hsound, ?_, fun i hi hlt => h.still i (by simp [hids, hi]) hlt⟩
    -- the form around the node ends with it
    rw [tree_endInnermost]
    cases hwrap : o.wrapper with
    | none => exact hnode
    | some form =>
      have hform := (h.sound.opened o (by simp [ho])).wrapper form hwrap
      exact settle_other hb hnode (by simpa using hform) (.inr rfl) fun _ => hle

theorem run (hb : b.Spaced offset) (h : b.Resumes offset b₁) {events : List Event}
    (htakes : b₁.Takes events b₂) (hafter : ∀ e ∈ events, e.After offset) :
    b.Resumes offset b₂ := by
  induction events generalizing b₁ with
  | nil =>
    obtain rfl : b₁ = b₂ := Except.ok.inj htakes
    exact h
  | cons e events ih =>
    obtain ⟨he, hevents⟩ := List.forall_mem_cons.1 hafter
    obtain ⟨b', hstep, htakes⟩ := htakes.cons_inv
    exact ih (h.step hb hstep he) htakes hevents

theorem finish (hb : b.Spaced offset) (h : b.Resumes offset b₁) {t : SourceTree}
    (hopened : b₁.opened = []) (ht : b₁.finish = .ok t) :
    Continues b.tree b.openIds [] offset t := by
  have htree : Continues b.tree b.openIds [] offset b₁.tree := by
    simpa [openIds, hopened] using h.tree
  simp only [PartialTree.finish, hopened] at ht
  obtain rfl := Except.ok.inj ht
  refine settle_other hb htree h.sound.tree.file (.inl rfl) fun hle => ?_
  exact absurd b.tree.nonempty (Nat.not_lt.2 hle)

end Resumes

/-- A tree under construction as it is when the reader of a whole text, whose tree is `t`, has come
to `offset`. -/
structure GrowsInto (b : PartialTree) (offset : Nat) (t : SourceTree) (length : Nat) : Prop where
  past : b.Spaced offset
  closed : b.tree.AllClosed
  whole : t.OfText length
  continues : Continues b.tree b.openIds [] offset t

end PartialTree

namespace Reader

open PartialTree

/-- Whatever text comes next, its tree is grown out of what has been read so far. -/
theorem Fed.growsInto {r : Reader} {b : PartialTree} (h : r.Fed b) {rest : List Char}
    {forms : List Datum} (hread : (rest.foldlM Reader.step r).bind Reader.finish = .ok forms) :
    ∃ t length, SourceTree.ofData forms = .ok t ∧ b.GrowsInto r.offset t length := by
  have hpast : b.Spaced r.offset := by
    refine h.nesting.spaced.mono ?_
    have hbegun := h.begun
    cases hmode : r.mode <;> simp_all [ScanMode.mark, ScanMode.Begun, Nat.le_of_lt]
  obtain ⟨r₁, hrun, hread⟩ := ok_of_bind_eq_ok hread
  obtain ⟨b₁, events, htakes, h₁, hoffset, hevents⟩ := h.run hrun
  obtain ⟨b₂, events', t, htakes', hspaced, hopened, hfinish, ht, hevents'⟩ := h₁.finish hread
  have hresumes : b.Resumes r.offset b₂ := by
    refine hpast.resumes.run hpast (htakes.append htakes') fun e he => ?_
    rcases List.mem_append.1 he with he | he
    · exact (hevents e he).1
    · exact (hevents' e he).mono (by omega)
  exact ⟨t, r₁.offset, ht, hpast, h.nesting.closed, hspaced.ofText hopened hfinish,
    hresumes.finish hpast hopened hfinish⟩

end Reader
end PhelAssist
