import PhelAssist.Proofs.BindingForms

namespace PhelAssist

namespace SourceTree

variable {t : SourceTree} {form arity vector symbol length : Nat} {words : List String}

/-- An arity of a function form: a list that starts with a vector, in a list that opens with a
function word. -/
structure IsArity (t : SourceTree) (form arity vector : Nat) : Prop where
  isForm : t.HasKind form (.collection .list)
  opens : t.OpensWith form Words.function
  inForm : arity ∈ t.elements form
  isList : t.HasKind arity (.collection .list)
  first : (t.elements arity).head? = some vector
  isVector : t.HasKind vector (.collection .vector)

instance (form arity vector : Nat) : Decidable (t.IsArity form arity vector) :=
  decidable_of_iff (t.HasKind form (.collection .list) ∧ t.OpensWith form Words.function ∧
      arity ∈ t.elements form ∧ t.HasKind arity (.collection .list) ∧
      (t.elements arity).head? = some vector ∧ t.HasKind vector (.collection .vector))
    ⟨fun ⟨h₁, h₂, h₃, h₄, h₅, h₆⟩ => ⟨h₁, h₂, h₃, h₄, h₅, h₆⟩,
      fun h => ⟨h.isForm, h.opens, h.inForm, h.isList, h.first, h.isVector⟩⟩

/-- A node that is reached from `start` downwards, through forms, vectors and maps only. -/
inductive ReachedFrom (t : SourceTree) (start : Nat) : Nat → Prop
  | refl : ReachedFrom t start start
  | child {node child : Nat} (h : ReachedFrom t start node)
      (hkind : t.HasKind node .form ∨ t.HasKind node (.collection .vector) ∨
        t.HasKind node (.collection .map))
      (hchild : child ∈ t.children node) : ReachedFrom t start child

/-- Whether the first symbol in a node is one of the given words. -/
def LeadsWith (t : SourceTree) (node : Nat) (words : List String) : Prop :=
  ∃ first ∈ (t.symbolsIn node).head?, ∃ word ∈ t.text? first, word ∈ words

instance (node : Nat) (words : List String) : Decidable (t.LeadsWith node words) :=
  inferInstanceAs (Decidable (∃ first ∈ (t.symbolsIn node).head?, _))

/-- No list stands between a node and what is reached from it. -/
theorem ReachedFrom.near (ht : t.Linked) {start node : Nat} (h : t.ReachedFrom start node) :
    t.IsWithin node start ∧ t.enclosingList? node = t.enclosingList? start := by
  induction h with
  | refl => exact ⟨.inl rfl, rfl⟩
  | @child node child _ hkind hchild ih =>
    have hparent := (ht.mem_children node child).1 hchild
    have hnot : ¬ t.HasKind node (.collection .list) := by
      intro hlist
      rcases hkind with hkind | hkind | hkind
      · cases hlist.unique hkind
      · cases hlist.unique hkind
      · cases hlist.unique hkind
    constructor
    · exact .inr ((mem_ancestors_iff hparent).2 ih.1)
    · rw [enclosingList?_of_parent hparent, if_neg hnot]
      exact ih.2

/-- The climb ends at a list unless it starts there. -/
theorem placeFrom_of_list {current list : Nat} (hcontainer : t.container? current = some list)
    (hk : t.HasKind list (.collection .list)) (hne : current ≠ symbol) :
    t.placeFrom symbol current = none := by
  rw [placeFrom]
  split
  · rfl
  · next c hc =>
    obtain rfl : list = c := Option.some.inj (hcontainer.symm.trans hc)
    rw [show t.kind? list = _ from hk]
    simp [hne]

namespace IsArity

theorem container? (ht : t.Sound) (h : t.IsArity form arity vector) :
    t.container? arity = some form ∧ t.container? vector = some arity := by
  constructor
  · exact (ht.mem_elements_iff h.isForm rfl).1 h.inForm
  · exact (ht.mem_elements_iff h.isList rfl).1 (List.mem_of_head? h.first)

/-- The operator of an arity is read out of its parameters. -/
theorem operatorIn_iff (ht : t.Sound) (h : t.IsArity form arity vector) :
    t.OperatorIn arity words ↔ t.LeadsWith vector words := by
  simp only [OperatorIn, LeadsWith, ht.operator?_eq h.isList, h.first, Option.bind_some,
    Option.mem_def, Option.bind_eq_some_iff]
  constructor
  · rintro ⟨word, ⟨first, hfirst, htext⟩, hword⟩
    exact ⟨first, hfirst, word, htext, hword⟩
  · rintro ⟨first, hfirst, word, htext, hword⟩
    exact ⟨word, ⟨first, hfirst, htext⟩, hword⟩

/-- An arity takes the vector that it starts with for its parameters, unless a function word is read
out of that vector; then it looks for a later one. -/
theorem parameters? (ht : t.Sound) (h : t.IsArity form arity vector) :
    t.parameters? arity = some vector ↔ ¬ t.LeadsWith vector Words.function := by
  rw [← h.operatorIn_iff ht]
  constructor
  · intro hparams hoperator
    rw [parameters?_of_function hoperator] at hparams
    exact Nat.lt_irrefl _ (ht.head_lt_vectorAfterHead h.isList h.first hparams)
  · intro hoperator
    have hform := ((ht.opensWith_iff h.isForm).1 h.opens).2
    simp [parameters?_of_not_function hoperator, h.first, (h.container? ht).1, h.isVector, hform]

/-- The vector that an arity starts with decides that what is in it are parameters, or else leaves
the decision to the arity. -/
theorem vectorVerdict (ht : t.Sound) (h : t.IsArity form arity vector) (current : Nat) :
    t.vectorVerdict vector current =
      if t.LeadsWith vector Words.function then .outward else .decided (some .parameter) := by
  have hlist := (h.container? ht).2
  have hparams := h.parameters? ht
  split
  · next hleads =>
    have hnot : t.parameters? arity ≠ some vector := fun heq => hparams.1 heq hleads
    have hafter := hnot
    rw [parameters?_of_function ((h.operatorIn_iff ht).2 hleads)] at hafter
    simp [SourceTree.vectorVerdict, hlist, h.isList, hnot, hafter]
  · next hleads => simp [SourceTree.vectorVerdict, hlist, h.isList, hparams.2 hleads]

end IsArity

theorem OfText.bindingPlace?_of_isArity (ht : t.OfText length) (h : t.IsArity form arity vector)
    (hreached : t.ReachedFrom vector symbol) (hsymbol : t.HasKind symbol (.token .symbol))
    (hrest : t.text? symbol ≠ some Words.restSign) :
    t.bindingPlace? symbol =
      if t.LeadsWith vector Words.function then none else some .parameter := by
  have hlist := (h.container? ht.sound).2
  obtain ⟨hwithin, hnear⟩ := hreached.near ht.sound.toLinked
  rw [ht.sound.enclosingList?_of_container hlist, if_pos h.isList] at hnear
  have hne : vector ≠ symbol := by
    rintro rfl
    cases hsymbol.unique h.isVector
  obtain ⟨f, hf, hfe⟩ := exists_element hsymbol (by simp) (by simp)
  obtain ⟨e, hclimb, he⟩ := ht.exists_climbsTo hf hfe hlist h.isVector
    (hwithin.resolve_left hne.symm) hnear
  have hverdict := h.vectorVerdict ht.sound e
  rw [bindingPlace?, if_pos ⟨hsymbol, hrest⟩, hclimb.placeFrom]
  split
  · next hleads =>
    rw [if_pos hleads] at hverdict
    have hstep : t.GoesOn e vector := ⟨he, .inr ⟨h.isVector, hverdict⟩⟩
    rw [hstep.placeFrom]
    exact placeFrom_of_list hlist h.isList hne
  · next hleads =>
    rw [if_neg hleads] at hverdict
    exact placeFrom_of_decided he h.isVector hverdict

end SourceTree

/-- The parameters of an arity are recognised in all patterns, unless the first symbol in its vector
is a function word: then none of them is, since the arity is taken for a function form of its
own. -/
theorem read_bindingPlace_inArity {source : String} {forms : List Datum}
    (h : read source = .ok forms) :
    ∃ t, SourceTree.ofData forms = .ok t ∧ ∀ form arity vector symbol,
      t.IsArity form arity vector → t.ReachedFrom vector symbol →
      t.HasKind symbol (.token .symbol) → t.text? symbol ≠ some Words.restSign →
      t.bindingPlace? symbol =
        if t.LeadsWith vector Words.function then none else some .parameter := by
  obtain ⟨t, htree, ht⟩ := read_ofText h
  refine ⟨t, htree, ?_⟩
  intro form arity vector symbol harity hreached hsymbol hrest
  exact ht.bindingPlace?_of_isArity harity hreached hsymbol hrest

/-- A parameter that is named by a function word, but is not the first one. -/
theorem read_bindingPlace_inArity_nested :
    ∃ forms t, read "(fn ([b \x7b:k fn\x7d] fn))" = .ok forms ∧ SourceTree.ofData forms = .ok t ∧
      t.IsArity 2 6 8 ∧ t.ReachedFrom 8 16 ∧ t.HasKind 16 (.token .symbol) ∧
      t.text? 16 ≠ some Words.restSign ∧
      t.bindingPlace? 16 = if t.LeadsWith 8 Words.function then none else some .parameter := by
  have hread : read "(fn ([b \x7b:k fn\x7d] fn))" = .ok [.group .list ⟨0, 21⟩ true [
      .token .symbol ⟨1, 3⟩ "fn",
      .group .list ⟨4, 20⟩ true [
        .group .vector ⟨5, 16⟩ true [.token .symbol ⟨6, 7⟩ "b",
          .group .map ⟨8, 15⟩ true [.token .keyword ⟨9, 11⟩ ":k", .token .symbol ⟨12, 14⟩ "fn"]],
        .token .symbol ⟨17, 19⟩ "fn"]]] := rfl
  obtain ⟨t, htree, hall⟩ := read_bindingPlace_inArity hread
  have hshape : t.IsArity 2 6 8 ∧ t.HasKind 16 (.token .symbol) ∧
      t.text? 16 ≠ some Words.restSign := by
    obtain rfl := Except.ok.inj htree
    decide +kernel
  have hpath : (t.HasKind 8 (.collection .vector) ∧ 11 ∈ t.children 8) ∧
      (t.HasKind 11 .form ∧ 12 ∈ t.children 11) ∧
      (t.HasKind 12 (.collection .map) ∧ 15 ∈ t.children 12) ∧
      t.HasKind 15 .form ∧ 16 ∈ t.children 15 := by
    obtain rfl := Except.ok.inj htree
    decide +kernel
  obtain ⟨harity, hsymbol, hrest⟩ := hshape
  obtain ⟨⟨hvector, h₁⟩, ⟨hform, h₂⟩, ⟨hmap, h₃⟩, hform', h₄⟩ := hpath
  have hreached : t.ReachedFrom 8 16 :=
    (((SourceTree.ReachedFrom.refl.child (.inr (.inl hvector)) h₁).child (.inl hform) h₂).child
      (.inr (.inr hmap)) h₃).child (.inl hform') h₄
  exact ⟨_, t, hread, htree, harity, hreached, hsymbol, hrest,
    hall 2 6 8 16 harity hreached hsymbol hrest⟩

/-- A first parameter that is named by a function word: neither it nor the one behind it is
recognised. -/
theorem read_bindingPlace_arity_fn :
    ∃ forms t, read "(defn f ([fn x] x))" = .ok forms ∧ SourceTree.ofData forms = .ok t ∧
      t.IsArity 2 8 10 ∧ t.ReachedFrom 10 14 ∧ t.HasKind 14 (.token .symbol) ∧
      t.text? 14 = some "x" ∧ t.bindingPlace? 12 = none ∧ t.bindingPlace? 14 = none := by
  have hread : read "(defn f ([fn x] x))" = .ok [.group .list ⟨0, 19⟩ true [
      .token .symbol ⟨1, 5⟩ "defn", .token .symbol ⟨6, 7⟩ "f",
      .group .list ⟨8, 18⟩ true [
        .group .vector ⟨9, 15⟩ true [.token .symbol ⟨10, 12⟩ "fn", .token .symbol ⟨13, 14⟩ "x"],
        .token .symbol ⟨16, 17⟩ "x"]]] := rfl
  refine ⟨_, _, hread, rfl, by decide +kernel, ?_, by decide +kernel⟩
  refine @SourceTree.ReachedFrom.child _ _ 13 14 ?_ (by decide +kernel) (by decide +kernel)
  refine @SourceTree.ReachedFrom.child _ _ 10 13 ?_ (by decide +kernel) (by decide +kernel)
  exact .refl

end PhelAssist
