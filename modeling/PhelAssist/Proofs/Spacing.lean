import PhelAssist.Proofs.Links

namespace PhelAssist

/-- What a cursor sees of a node. -/
structure Face where
  kind : NodeKind
  span : Span
  closed : Bool

/-- Elements are the nodes that stand in forms. -/
def Face.IsElement (f : Face) : Prop := f.kind ≠ .file ∧ f.kind ≠ .form

def Node.face (n : Node) : Face := ⟨n.kind, n.span, n.closed⟩

namespace SourceTree

def face? (t : SourceTree) (id : Nat) : Option Face := (t.node? id).map Node.face

section Faces

variable {t : SourceTree}

theorem face?_of_kind? {id : Nat} {k : NodeKind} (h : t.kind? id = some k) :
    ∃ f, t.face? id = some f ∧ f.kind = k := by
  obtain ⟨n, hn, rfl⟩ := Option.map_eq_some_iff.1 h
  exact ⟨n.face, by simp [face?, hn], rfl⟩

theorem kind?_of_face? {id : Nat} {f : Face} (h : t.face? id = some f) :
    t.kind? id = some f.kind := by
  obtain ⟨n, hn, rfl⟩ := Option.map_eq_some_iff.1 h
  simp [kind?, hn, Node.face]

theorem span?_of_face? {id : Nat} {f : Face} (h : t.face? id = some f) :
    t.span? id = some f.span := by
  obtain ⟨n, hn, rfl⟩ := Option.map_eq_some_iff.1 h
  simp [span?, hn, Node.face]

theorem lt_size_of_face? {id : Nat} {f : Face} (h : t.face? id = some f) : id < t.size := by
  obtain ⟨n, hn, -⟩ := Option.map_eq_some_iff.1 h
  exact lt_size_of_node? hn

theorem face?_append (parent : Nat) (hp : parent < t.size) (kind : NodeKind) (span : Span)
    (text : Option String) (i : Nat) :
    (t.append parent hp kind span text).face? i =
      if i = t.size then some ⟨kind, span, true⟩ else t.face? i := by
  simp only [face?, node?_append]
  split
  · rfl
  · cases t.node? i with
    | none => rfl
    | some n => by_cases hi : i = parent <;> simp [hi, Node.adopt, Node.face]

theorem face?_settle (id stop : Nat) (closed : Bool) (i : Nat) :
    (t.settle id stop closed).face? i =
      (t.face? i).map fun f => if i = id then ⟨f.kind, ⟨f.span.start, stop⟩, closed⟩ else f := by
  simp only [face?, node?_settle, Option.map_map]
  congr 1
  funext n
  by_cases hi : i = id <;> simp [hi, Node.settle, Node.face]

theorem container?_congr {t' : SourceTree} {id : Nat}
    (hparent : ∀ j, j ≤ id → t'.parent? j = t.parent? j)
    (hkind : ∀ j, j < id → t'.kind? j = t.kind? j) : t'.container? id = t.container? id := by
  simp only [container?, hparent id (Nat.le_refl id)]
  cases hp : t.parent? id with
  | none => rfl
  | some f =>
    have hlt := parent?_lt hp
    have hform : t'.HasKind f .form ↔ t.HasKind f .form := by simp only [HasKind, hkind f hlt]
    by_cases h : t.HasKind f .form
    · simp [h, hform.2 h, hparent f (Nat.le_of_lt hlt)]
    · simp [h, mt hform.1 h]

end Faces

/-- Each node of a list stands in the next one, and the last in the file. -/
def StandInEachOther (t : SourceTree) : List Nat → Prop
  | [] => True
  | x :: rest => t.container? x = some (rest.headD root) ∧ t.StandInEachOther rest

theorem StandInEachOther.congr {t t' : SourceTree} {ids : List Nat} (h : t.StandInEachOther ids)
    (hsame : ∀ i ∈ ids, t'.container? i = t.container? i) : t'.StandInEachOther ids := by
  induction ids with
  | nil => trivial
  | cons x rest ih =>
    obtain ⟨hx, hrest⟩ := List.forall_mem_cons.1 hsame
    exact ⟨hx.trans h.1, ih h.2 hrest⟩

/-- A tree under construction as a reader leaves it that has come as far as `now`. Open nodes hang
in each other. Of two elements the later one stands in the earlier one, or behind its end; what
stands in an element that has ended ends inside it, and before its closing delimiter if it has
one. -/
structure Spaced (t : SourceTree) (opened : List Nat) (now : Nat) : Prop where
  plain : ∀ i f, t.face? i = some f → f.kind ≠ .error ∧ (f.kind = .file → i = root)
  chain : t.StandInEachOther opened
  started : ∀ i f, t.face? i = some f → f.IsElement → f.span.start < now
  ended : ∀ i f, t.face? i = some f → f.IsElement → i ∉ opened →
    f.span.start < f.span.stop ∧ f.span.stop ≤ now
  apart : ∀ i j f g, i < j → t.face? i = some f → t.face? j = some g → f.IsElement →
    g.IsElement → i ∈ t.ancestors j ∨
      i ∉ opened ∧ f.closed = true ∧ f.span.stop ≤ g.span.start
  inside : ∀ i j f g, i ∈ t.ancestors j → t.face? i = some f → t.face? j = some g →
    f.IsElement → g.IsElement → f.span.start < g.span.start ∧
      (i ∉ opened → g.span.stop ≤ f.span.stop ∧ (f.closed = true → g.span.stop < f.span.stop))

theorem Spaced.element_of_container {t : SourceTree} {opened : List Nat} {now : Nat}
    (hs : t.Spaced opened now) (ht : t.Sound) {id p : Nat} (hp : t.container? id = some p) :
    ∃ f, t.face? id = some f ∧ f.IsElement := by
  obtain ⟨form, -, -, hparent, -⟩ := ht.container?_eq_some_iff.1 hp
  obtain ⟨n, hn⟩ := exists_node (lt_size_of_parent? hparent)
  have hf : t.face? id = some n.face := by simp [face?, hn]
  refine ⟨n.face, hf, fun hfile => ?_, fun hform => ?_⟩
  · obtain rfl := (hs.plain id _ hf).2 hfile
    exact Nat.not_lt_zero _ (parent?_lt hparent)
  · exact ht.not_form_of_container? hp (by rw [HasKind, kind?_of_face? hf, hform])

def AllClosed (t : SourceTree) : Prop := ∀ i f, t.face? i = some f → f.closed = true

/-- The open nodes are, forms and the file apart, the innermost one and what is above it. -/
theorem Sound.lineage {t : SourceTree} (ht : t.Sound) {opened : List Nat}
    (hchain : t.StandInEachOther opened) {a : Nat} :
    (a ∈ opened → a = opened.headD root ∨ a ∈ t.ancestors (opened.headD root)) ∧
      (a = opened.headD root ∨ a ∈ t.ancestors (opened.headD root) →
        a ∈ opened ∨ a = root ∨ t.HasKind a .form) := by
  induction opened with
  | nil =>
    have hnone : t.ancestors root = [] := by
      refine List.eq_nil_iff_forall_not_mem.2 fun a ha => ?_
      exact Nat.not_lt_zero a (lt_of_mem_ancestors ha)
    simp +contextual [hnone]
  | cons x rest ih =>
    obtain ⟨f, hform, hanc⟩ := ht.ancestors_eq hchain.1
    have ih := ih hchain.2
    simp only [List.headD_cons, hanc, List.mem_cons]
    constructor
    · rintro (rfl | ha)
      · exact .inl rfl
      · exact .inr (.inr (ih.1 ha))
    · rintro (rfl | rfl | ha)
      · exact .inl (.inl rfl)
      · exact .inr (.inr hform)
      · rcases ih.2 ha with ha | ha
        · exact .inl (.inr ha)
        · exact .inr ha

end SourceTree

namespace PartialTree

open SourceTree

/-- The ids of the open nodes, innermost first. -/
def openIds (b : PartialTree) : List Nat := b.opened.map (·.node)

theorem innermost_eq (b : PartialTree) : b.innermost = b.openIds.headD root := by
  unfold innermost openIds
  cases b.opened <;> rfl

theorem container?_grow_of_lt {b : PartialTree} {i : Nat} (hi : i < b.tree.size)
    (kind : NodeKind) (span : Span) (text : Option String) :
    (b.grow kind span text).1.container? i = b.tree.container? i :=
  container?_congr
    (fun _ hj => parent?_grow_of_lt (Nat.lt_of_le_of_lt hj hi) kind span text)
    (fun _ hj => kind?_grow_of_lt (Nat.lt_trans hj hi) kind span text)

section Grow

variable {b : PartialTree} (hw : b.wraps = true) (kind : NodeKind) (span : Span)
  (text : Option String)

include hw

theorem size_grow : (b.grow kind span text).1.size = b.tree.size + 2 := by
  simp [grow_of_wraps hw]

theorem face?_grow (i : Nat) :
    (b.grow kind span text).1.face? i =
      if i = b.tree.size then some ⟨.form, span, true⟩
      else if i = b.tree.size + 1 then some ⟨kind, span, true⟩ else b.tree.face? i := by
  rw [grow_of_wraps hw, face?_append, face?_append, size_append]
  by_cases h : i = b.tree.size
  · simp [h]
  · simp [h]

theorem element_grow {i : Nat} {f : Face} (hf : (b.grow kind span text).1.face? i = some f)
    (he : f.IsElement) :
    i = b.tree.size + 1 ∧ f = ⟨kind, span, true⟩ ∨
      i < b.tree.size ∧ b.tree.face? i = some f := by
  rw [face?_grow hw] at hf
  split at hf
  · obtain rfl := Option.some.inj hf
    exact absurd rfl he.2
  · split at hf
    · exact .inl ⟨by assumption, (Option.some.inj hf).symm⟩
    · exact .inr ⟨lt_size_of_face? hf, hf⟩

theorem ancestors_grow_node :
    (b.grow kind span text).1.ancestors (b.tree.size + 1) =
      b.tree.size :: b.innermost :: b.tree.ancestors b.innermost := by
  have hnode : (b.grow kind span text).1.parent? (b.tree.size + 1) = some b.tree.size := by
    simp [grow_of_wraps hw, parent?_append]
  have hform : (b.grow kind span text).1.parent? b.tree.size = some b.innermost := by
    simp [grow_of_wraps hw, parent?_append]
  rw [ancestors_eq_cons hnode, ancestors_eq_cons hform,
    ancestors_grow_of_lt b.innermost_lt]

theorem container?_grow_node :
    (b.grow kind span text).1.container? (b.tree.size + 1) = some b.innermost := by
  rw [grow_of_wraps hw]
  simp [container?, parent?_append, HasKind, kind?_append]

end Grow

/-- A tree under construction that a reader has fed as far as `now`. -/
structure Spaced (b : PartialTree) (now : Nat) : Prop where
  sound : b.Sound
  tree : b.tree.Spaced b.openIds now

theorem face?_blank {i : Nat} {f : Face} (hf : blank.face? i = some f) :
    i = root ∧ f = ⟨.file, ⟨0, 0⟩, true⟩ := by
  obtain ⟨n, hn, rfl⟩ := Option.map_eq_some_iff.1 hf
  cases i with
  | zero =>
    obtain rfl := Option.some.inj hn
    exact ⟨rfl, rfl⟩
  | succ i => contradiction

theorem allClosed_blank : blank.AllClosed := by
  intro i f hf
  rw [(face?_blank hf).2]

theorem spaced_empty : empty.Spaced 0 where
  sound := sound_empty
  tree := by
    have hfile : ∀ i f, blank.face? i = some f → ¬ f.IsElement := by
      intro i f hf he
      exact he.1 (by rw [(face?_blank hf).2])
    refine ⟨fun i f hf => ?_, trivial, fun i f hf he => (hfile i f hf he).elim,
      fun i f hf he _ => (hfile i f hf he).elim,
      fun i j f g _ hf _ he _ => (hfile i f hf he).elim,
      fun i j f g _ hf _ he _ => (hfile i f hf he).elim⟩
    obtain ⟨rfl, rfl⟩ := face?_blank hf
    simp

namespace Spaced

variable {b : PartialTree} {now : Nat}

theorem mono (hb : b.Spaced now) {later : Nat} (h : now ≤ later) : b.Spaced later where
  sound := hb.sound
  tree := { hb.tree with
    started := fun i f hf he => Nat.lt_of_lt_of_le (hb.tree.started i f hf he) h
    ended := fun i f hf he hi =>
      ⟨(hb.tree.ended i f hf he hi).1, Nat.le_trans (hb.tree.ended i f hf he hi).2 h⟩ }

theorem wraps (hb : b.Spaced now) : b.wraps = true := by
  obtain ⟨k, hk, hcomposite⟩ := hb.sound.innermost_kind
  refine wraps_iff.2 ⟨k, hk, ?_⟩
  obtain ⟨f, hf, rfl⟩ := face?_of_kind? hk
  have hplain := (hb.tree.plain _ f hf).1
  cases hkind : f.kind <;> simp_all [NodeKind.holdsForms, NodeKind.isDelimited]

theorem mem_lineage (hb : b.Spaced now) {a : Nat} (ha : a ∈ b.openIds) :
    a = b.innermost ∨ a ∈ b.tree.ancestors b.innermost := by
  rw [innermost_eq]
  exact (hb.sound.tree.lineage hb.tree.chain).1 ha

theorem mem_openIds (hb : b.Spaced now) {a : Nat} {f : Face} (hf : b.tree.face? a = some f)
    (he : f.IsElement) (ha : a = b.innermost ∨ a ∈ b.tree.ancestors b.innermost) :
    a ∈ b.openIds := by
  rw [innermost_eq] at ha
  rcases (hb.sound.tree.lineage hb.tree.chain).2 ha with ha | rfl | hform
  · exact ha
  · have hfile := hb.sound.tree.file
    rw [HasKind, kind?_of_face? hf] at hfile
    exact absurd (Option.some.inj hfile) he.1
  · rw [HasKind, kind?_of_face? hf] at hform
    exact absurd (Option.some.inj hform) he.2

theorem openIds_lt (b : PartialTree) {a : Nat} (ha : a ∈ b.openIds) : a < b.tree.size := by
  obtain ⟨o, ho, rfl⟩ := List.mem_map.1 ha
  exact b.opened_lt o ho

theorem kind_of_open (hb : b.Spaced now) {i : Nat} (hi : i ∈ b.openIds) :
    ∃ c, b.tree.HasKind i (.collection c) := by
  obtain ⟨o, ho, rfl⟩ := List.mem_map.1 hi
  obtain ⟨k, hk, hcomposite⟩ := (hb.sound.opened o ho).kind
  obtain ⟨f, hf, rfl⟩ := face?_of_kind? hk
  have hplain := (hb.tree.plain _ f hf).1
  cases hkind : f.kind with
  | collection c => exact ⟨c, by rw [HasKind, hk, hkind]⟩
  | _ => simp_all [NodeKind.isDelimited]

theorem isElement_of_open (hb : b.Spaced now) {i : Nat} (hi : i ∈ b.openIds) {f : Face}
    (hf : b.tree.face? i = some f) : f.IsElement := by
  obtain ⟨c, hc⟩ := hb.kind_of_open hi
  rw [HasKind, kind?_of_face? hf] at hc
  simp [Face.IsElement, Option.some.inj hc]

section Grow

variable {kind : NodeKind} {span : Span} {text : Option String} {opened : List Nat}

theorem apart_grow (hb : b.Spaced now) (hclosed : b.tree.AllClosed) (hstart : now ≤ span.start)
    (hopened : ∀ i, i < b.tree.size → (i ∈ opened ↔ i ∈ b.openIds)) {i j : Nat} {f g : Face}
    (hij : i < j) (hf : (b.grow kind span text).1.face? i = some f)
    (hg : (b.grow kind span text).1.face? j = some g) (hef : f.IsElement) (heg : g.IsElement) :
    i ∈ (b.grow kind span text).1.ancestors j ∨
      i ∉ opened ∧ f.closed = true ∧ f.span.stop ≤ g.span.start := by
  have hw := hb.wraps
  rcases element_grow hw kind span text hf hef with ⟨rfl, -⟩ | ⟨hi, hf⟩
  · -- nothing comes after the new node
    have hlt := lt_size_of_face? hg
    rw [size_grow hw] at hlt
    omega
  rcases element_grow hw kind span text hg heg with ⟨rfl, rfl⟩ | ⟨hj, hg⟩
  · rw [ancestors_grow_node hw, hopened i hi]
    by_cases ho : i ∈ b.openIds
    · exact .inl (List.mem_cons_of_mem _ (List.mem_cons.2 (hb.mem_lineage ho)))
    · have hstop := (hb.tree.ended i f hf hef ho).2
      exact .inr ⟨ho, hclosed i f hf, Nat.le_trans hstop hstart⟩
  · rw [ancestors_grow_of_lt hj, hopened i hi]
    exact hb.tree.apart i j f g hij hf hg hef heg

theorem inside_grow (hb : b.Spaced now) (hstart : now ≤ span.start)
    (hopened : ∀ i, i < b.tree.size → (i ∈ opened ↔ i ∈ b.openIds)) {i j : Nat} {f g : Face}
    (hij : i ∈ (b.grow kind span text).1.ancestors j)
    (hf : (b.grow kind span text).1.face? i = some f)
    (hg : (b.grow kind span text).1.face? j = some g) (hef : f.IsElement) (heg : g.IsElement) :
    f.span.start < g.span.start ∧
      (i ∉ opened → g.span.stop ≤ f.span.stop ∧ (f.closed = true → g.span.stop < f.span.stop)) := by
  have hw := hb.wraps
  have hlt := lt_of_mem_ancestors hij
  rcases element_grow hw kind span text hf hef with ⟨rfl, -⟩ | ⟨hi, hf⟩
  · have hjlt := lt_size_of_face? hg
    rw [size_grow hw] at hjlt
    omega
  rcases element_grow hw kind span text hg heg with ⟨rfl, rfl⟩ | ⟨hj, hg⟩
  · rw [ancestors_grow_node hw, List.mem_cons, List.mem_cons] at hij
    have ho := hb.mem_openIds hf hef (hij.resolve_left (Nat.ne_of_lt hi))
    have hbegan := hb.tree.started i f hf hef
    exact ⟨Nat.lt_of_lt_of_le hbegan hstart, fun hno => absurd ((hopened i hi).2 ho) hno⟩
  · rw [ancestors_grow_of_lt hj] at hij
    rw [hopened i hi]
    exact hb.tree.inside i j f g hij hf hg hef heg

/-- A node that starts at `now` or later may be added, as an open one or as one that has ended. -/
theorem grow (hb : b.Spaced now) (hclosed : b.tree.AllClosed)
    (hkind : kind.isWord ∨ kind.isDelimited) (text : Option String)
    (hstart : now ≤ span.start) {later : Nat} (hlater : span.start < later)
    (hopened : opened = (b.tree.size + 1) :: b.openIds ∨
      opened = b.openIds ∧ span.start < span.stop ∧ span.stop ≤ later) :
    (b.grow kind span text).1.Spaced opened later := by
  have hw := hb.wraps
  have hmem : ∀ i, i < b.tree.size → (i ∈ opened ↔ i ∈ b.openIds) := by
    intro i hi
    rcases hopened with rfl | ⟨rfl, -⟩
    · simp [Nat.ne_of_lt (Nat.lt_succ_of_lt hi)]
    · rfl
  refine ⟨fun i f hf => ?_, ?_, fun i f hf he => ?_, fun i f hf he hi => ?_,
    fun i j f g => hb.apart_grow hclosed hstart hmem, fun i j f g => hb.inside_grow hstart hmem⟩
  · rw [face?_grow hw] at hf
    split at hf
    · obtain rfl := Option.some.inj hf
      simp
    · split at hf
      · obtain rfl := Option.some.inj hf
        rcases hkind with h | h
        · cases kind <;> simp_all [NodeKind.isWord]
        · cases kind <;> simp_all [NodeKind.isDelimited]
      · exact hb.tree.plain i f hf
  · have hids : (b.grow kind span text).1.StandInEachOther b.openIds :=
      hb.tree.chain.congr fun i hi => container?_grow_of_lt (openIds_lt b hi) _ _ _
    rcases hopened with rfl | ⟨rfl, -⟩
    · exact ⟨by rw [container?_grow_node hw, innermost_eq], hids⟩
    · exact hids
  · rcases element_grow hw kind span text hf he with ⟨-, rfl⟩ | ⟨-, hf⟩
    · exact hlater
    · have hbegan := hb.tree.started i f hf he
      omega
  · rcases element_grow hw kind span text hf he with ⟨rfl, rfl⟩ | ⟨hlt, hf⟩
    · rcases hopened with rfl | ⟨-, hspan⟩
      · simp at hi
      · exact hspan
    · have hended := hb.tree.ended i f hf he (mt (hmem i hlt).2 hi)
      omega

end Grow

end Spaced

section EndInnermost

variable {b : PartialTree} (o : Pending) (stop : Nat) (closed : Bool)

theorem size_endInnermost : (b.endInnermost o stop closed).tree.size = b.tree.size := by
  rw [tree_endInnermost]
  cases o.wrapper <;> simp

theorem kind?_endInnermost (i : Nat) :
    (b.endInnermost o stop closed).tree.kind? i = b.tree.kind? i := by
  rw [tree_endInnermost]
  cases o.wrapper <;> simp

theorem parent?_endInnermost (i : Nat) :
    (b.endInnermost o stop closed).tree.parent? i = b.tree.parent? i := by
  rw [tree_endInnermost]
  cases o.wrapper <;> simp

theorem ancestors_endInnermost (i : Nat) :
    (b.endInnermost o stop closed).tree.ancestors i = b.tree.ancestors i :=
  ancestors_congr fun j _ => parent?_endInnermost o stop closed j

theorem container?_endInnermost (i : Nat) :
    (b.endInnermost o stop closed).tree.container? i = b.tree.container? i :=
  container?_congr (fun j _ => parent?_endInnermost o stop closed j)
    fun j _ => kind?_endInnermost o stop closed j

/-- Forms apart, ending a node changes that node alone. -/
theorem face?_endInnermost (ho : IsOpenNode b.tree o) {i : Nat} {f : Face}
    (hf : (b.endInnermost o stop closed).tree.face? i = some f) (he : f.kind ≠ .form) :
    (i = o.node ∧ ∃ g, b.tree.face? i = some g ∧ f = ⟨g.kind, ⟨g.span.start, stop⟩, closed⟩) ∨
      i ≠ o.node ∧ b.tree.face? i = some f := by
  have hnode : ((b.tree.settle o.node stop closed).face? i) = some f := by
    rw [tree_endInnermost] at hf
    cases hwrap : o.wrapper with
    | none => simpa only [hwrap] using hf
    | some form =>
      simp only [hwrap] at hf
      rw [face?_settle] at hf
      obtain ⟨g, hg, hfg⟩ := Option.map_eq_some_iff.1 hf
      by_cases hi : i = form
      · have hform := ho.wrapper form hwrap
        subst hi hfg
        rw [← hasKind_settle o.node stop closed, HasKind, kind?_of_face? hg] at hform
        simp [Option.some.inj hform] at he
      · rw [hg, ← hfg, if_neg hi]
  rw [face?_settle] at hnode
  obtain ⟨g, hg, rfl⟩ := Option.map_eq_some_iff.1 hnode
  by_cases hi : i = o.node
  · exact .inl ⟨hi, g, hg, by simp [hi]⟩
  · exact .inr ⟨hi, by simpa [hi] using hg⟩

end EndInnermost

namespace Spaced

variable {b : PartialTree} {now : Nat}

section EndInnermost

variable {o : Pending} {rest : List Pending} {stop : Nat} {closed : Bool}

theorem openIds_endInnermost (ho : b.opened = o :: rest) (stop : Nat) (closed : Bool) :
    b.openIds = o.node :: (b.endInnermost o stop closed).openIds := by
  simp [openIds, PartialTree.endInnermost, ho]

theorem element_endInnermost (hb : b.Spaced now) (ho : b.opened = o :: rest) {i : Nat} {f : Face}
    (hf : (b.endInnermost o stop closed).tree.face? i = some f) (he : f.IsElement) :
    ∃ g, b.tree.face? i = some g ∧ g.IsElement ∧ g.span.start = f.span.start ∧
      (i = o.node ∧ f.span.stop = stop ∧ f.closed = closed ∨ i ≠ o.node ∧ f = g) := by
  have hnode : IsOpenNode b.tree o := hb.sound.opened o (by simp [ho])
  rcases face?_endInnermost o stop closed hnode hf he.2 with ⟨hi, g, hg, rfl⟩ | ⟨hi, hf⟩
  · exact ⟨g, hg, he, rfl, .inl ⟨hi, rfl, rfl⟩⟩
  · exact ⟨f, hf, he, rfl, .inr ⟨hi, rfl⟩⟩

theorem not_open_of_below (hb : b.Spaced now) (ho : b.opened = o :: rest) {j : Nat}
    (hj : o.node ∈ b.tree.ancestors j) : j ∉ b.openIds := by
  intro hmem
  have hinner : b.innermost = o.node := by simp [innermost, ho]
  have hlt := lt_of_mem_ancestors hj
  rcases hb.mem_lineage hmem with rfl | hanc
  · omega
  · have hup := lt_of_mem_ancestors hanc
    omega

theorem not_open_of_not_still {i : Nat} (ho : b.opened = o :: rest) (hi : i ≠ o.node)
    (hno : i ∉ (b.endInnermost o stop closed).openIds) : i ∉ b.openIds := by
  rw [openIds_endInnermost ho stop closed]
  simp [hi, hno]

theorem apart_endInnermost (hb : b.Spaced now) (ho : b.opened = o :: rest) {i j : Nat}
    {f g : Face} (hij : i < j) (hf : (b.endInnermost o stop closed).tree.face? i = some f)
    (hg : (b.endInnermost o stop closed).tree.face? j = some g) (hef : f.IsElement)
    (heg : g.IsElement) :
    i ∈ (b.endInnermost o stop closed).tree.ancestors j ∨
      i ∉ (b.endInnermost o stop closed).openIds ∧ f.closed = true ∧
        f.span.stop ≤ g.span.start := by
  have hids := openIds_endInnermost ho stop closed
  obtain ⟨f', hf', hef', -, hcases⟩ := hb.element_endInnermost ho hf hef
  obtain ⟨g', hg', heg', hstart, -⟩ := hb.element_endInnermost ho hg heg
  rw [ancestors_endInnermost]
  rcases hb.tree.apart i j f' g' hij hf' hg' hef' heg' with h | ⟨hopen, hc, hle⟩
  · exact .inl h
  rcases hcases with ⟨rfl, -⟩ | ⟨-, rfl⟩
  · exact absurd (by simp [hids]) hopen
  · refine .inr ⟨fun h => hopen ?_, hc, by omega⟩
    rw [hids]
    exact List.mem_cons_of_mem _ h

theorem inside_endInnermost (hb : b.Spaced now) (ho : b.opened = o :: rest) (hstop : now ≤ stop)
    (hclosed : closed = true → now < stop) {i j : Nat} {f g : Face}
    (hij : i ∈ (b.endInnermost o stop closed).tree.ancestors j)
    (hf : (b.endInnermost o stop closed).tree.face? i = some f)
    (hg : (b.endInnermost o stop closed).tree.face? j = some g) (hef : f.IsElement)
    (heg : g.IsElement) :
    f.span.start < g.span.start ∧ (i ∉ (b.endInnermost o stop closed).openIds →
      g.span.stop ≤ f.span.stop ∧ (f.closed = true → g.span.stop < f.span.stop)) := by
  have hids := openIds_endInnermost ho stop closed
  rw [ancestors_endInnermost] at hij
  obtain ⟨f', hf', hef', hfs, hfcases⟩ := hb.element_endInnermost ho hf hef
  obtain ⟨g', hg', heg', hgs, hgcases⟩ := hb.element_endInnermost ho hg heg
  have hin := hb.tree.inside i j f' g' hij hf' hg' hef' heg'
  refine ⟨by omega, fun hi => ?_⟩
  rcases hfcases with ⟨rfl, hend, hc⟩ | ⟨hne, rfl⟩
  · -- `j` stands in the node that ends, and has ended before
    have hj := hb.not_open_of_below ho hij
    have hjend := (hb.tree.ended j g' hg' heg' hj).2
    obtain rfl : g = g' := by
      rcases hgcases with ⟨rfl, -⟩ | ⟨-, h⟩
      · exact absurd (by simp [hids]) hj
      · exact h
    rw [hend, hc]
    refine ⟨Nat.le_trans hjend hstop, fun h => ?_⟩
    exact Nat.lt_of_le_of_lt hjend (hclosed h)
  · have hopen := not_open_of_not_still ho hne hi
    rcases hgcases with ⟨rfl, -⟩ | ⟨-, rfl⟩
    · have hinner : b.innermost = o.node := by simp [innermost, ho]
      exact absurd (hb.mem_openIds hf' hef' (.inr (hinner ▸ hij))) hopen
    · exact hin.2 hopen

/-- The innermost open node may end at `now` or later, and later if that takes a delimiter. -/
theorem endInnermost (hb : b.Spaced now) (ho : b.opened = o :: rest) (hstop : now ≤ stop)
    (hclosed : closed = true → now < stop) : (b.endInnermost o stop closed).Spaced stop := by
  refine ⟨hb.sound.endInnermost o stop closed, fun i f hf => ?_, ?_, fun i f hf he => ?_,
    fun i f hf he hi => ?_, fun i j f g => hb.apart_endInnermost ho,
    fun i j f g => hb.inside_endInnermost ho hstop hclosed⟩
  · have hkind := kind?_of_face? hf
    rw [kind?_endInnermost] at hkind
    obtain ⟨g, hg, hgk⟩ := face?_of_kind? hkind
    rw [← hgk]
    exact hb.tree.plain i g hg
  · have hchain := hb.tree.chain
    rw [openIds_endInnermost ho stop closed] at hchain
    exact hchain.2.congr fun i _ => container?_endInnermost o stop closed i
  · obtain ⟨g, hg, heg, hstart, -⟩ := hb.element_endInnermost ho hf he
    have hbegan := hb.tree.started i g hg heg
    omega
  · obtain ⟨g, hg, heg, hstart, ⟨rfl, hend, -⟩ | ⟨hne, rfl⟩⟩ := hb.element_endInnermost ho hf he
    · have hbegan := hb.tree.started _ g hg heg
      omega
    · have hended := hb.tree.ended i f hg heg (not_open_of_not_still ho hne hi)
      omega

end EndInnermost

theorem begin (hb : b.Spaced now) (hclosed : b.tree.AllClosed) (c : Collection) {offset : Nat}
    (hstart : now ≤ offset) : (b.begin (.collection c) offset).Spaced (offset + 1) where
  sound := hb.sound.step (e := .start (.collection c) offset) (by simp [step, NodeKind.isDelimited])
  tree := by
    refine hb.grow hclosed (by simp [NodeKind.isDelimited]) none hstart (Nat.lt_succ_self _) ?_
    simp [openIds, PartialTree.begin, grow_of_wraps hb.wraps]

theorem addWord (hb : b.Spaced now) (hclosed : b.tree.AllClosed) (k : Token) (text : String)
    {span : Span} (hstart : now ≤ span.start) (hspan : span.start < span.stop) :
    (b.addWord (.token k) text span).Spaced span.stop where
  sound := hb.sound.step (e := .token (.token k) text span)
    (by simp [step, NodeKind.isWord, Nat.not_lt.2 (Nat.le_of_lt hspan)])
  tree := hb.grow hclosed (by simp [NodeKind.isWord]) (some text) hstart hspan
    (.inr ⟨rfl, hspan, Nat.le_refl _⟩)

end Spaced

theorem allClosed_grow {b : PartialTree} (hclosed : b.tree.AllClosed) (hw : b.wraps = true)
    (kind : NodeKind) (span : Span) (text : Option String) :
    (b.grow kind span text).1.AllClosed := by
  intro i f hf
  rw [face?_grow hw] at hf
  split at hf
  · exact congrArg Face.closed (Option.some.inj hf).symm
  · split at hf
    · exact congrArg Face.closed (Option.some.inj hf).symm
    · exact hclosed i f hf

theorem allClosed_endInnermost {b : PartialTree} (hclosed : b.tree.AllClosed) (o : Pending)
    (stop : Nat) : (b.endInnermost o stop true).tree.AllClosed := by
  have hsettle : ∀ (t : SourceTree) (id : Nat), t.AllClosed → (t.settle id stop true).AllClosed := by
    intro t id ht i f hf
    rw [face?_settle] at hf
    obtain ⟨g, hg, rfl⟩ := Option.map_eq_some_iff.1 hf
    split
    · rfl
    · exact ht i g hg
  rw [tree_endInnermost]
  cases o.wrapper with
  | none => exact hsettle _ _ hclosed
  | some form => exact hsettle _ _ (hsettle _ _ hclosed)

end PartialTree
end PhelAssist
