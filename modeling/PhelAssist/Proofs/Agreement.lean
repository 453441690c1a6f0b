import PhelAssist.Proofs.BodyScope
import PhelAssist.Proofs.ElementIndex

namespace PhelAssist

/-- The place of a symbol that introduces a name with this binding. -/
def Binding.place : Binding → BindingPlace
  | parameter => .parameter
  | letBinding => .letBinding
  | definition _ => .definitionName

namespace SourceTree

variable {t : SourceTree} {element offset symbol vector list : Nat}

namespace Sound

/-- The list around what is inside a vector is the one that the vector belongs to, or it is inside
the vector too. -/
theorem enclosingList?_cases (ht : t.Sound) {x inner : Nat} (hlist : t.container? vector = some list)
    (hkind : t.HasKind list (.collection .list)) (hx : t.IsWithin x vector)
    (h : t.enclosingList? x = some inner) : inner = list ∨ t.IsWithin inner vector := by
  induction x using Nat.strongRecOn with
  | _ x ih =>
    rcases hx with rfl | hx
    · rw [ht.enclosingList?_of_container hlist, if_pos hkind] at h
      exact .inl (Option.some.inj h).symm
    · cases hp : t.parent? x with
      | none => simp [ancestors_eq_nil hp] at hx
      | some p =>
        have hwithin := (mem_ancestors_iff hp).1 hx
        rw [enclosingList?_of_parent hp] at h
        split at h
        · exact .inr (Option.some.inj h ▸ hwithin)
        · exact ih p (parent?_lt hp) hwithin h

end Sound

namespace Introduces

variable {binding : Binding} {pattern : Nat}

theorem mem_elements (h : t.Introduces element offset list binding vector pattern) :
    vector ∈ t.elements list ∧ t.HasKind vector (.collection .vector) := by
  cases h with
  | parameters hparams _ => exact mem_of_parameters? hparams
  | pair _ hvector _ _ _ | loop _ hvector _ _ _ _ =>
    obtain ⟨hmem, hkind⟩ := mem_of_vectorAfterHead? hvector
    exact ⟨List.mem_of_mem_tail hmem, hkind⟩

theorem container? (ht : t.Sound) (hlist : t.HasKind list (.collection .list))
    (h : t.Introduces element offset list binding vector pattern) :
    t.container? vector = some list :=
  (ht.mem_elements_iff hlist rfl).1 h.mem_elements.1

/-- A pattern is the whole vector, or one of its elements. -/
theorem pattern_cases (ht : t.Sound) (h : t.Introduces element offset list binding vector pattern) :
    binding = .parameter ∧ pattern = vector ∨ t.container? pattern = some vector := by
  have hkind := h.mem_elements.2
  cases h with
  | parameters => exact .inl ⟨rfl, rfl⟩
  | pair _ _ _ _ hpattern | loop _ _ _ _ _ hpattern =>
    exact .inr ((ht.mem_elements_iff hkind rfl).1 (List.mem_of_getElem? hpattern))

theorem isWithin (ht : t.Sound) (h : t.Introduces element offset list binding vector pattern)
    (hsymbol : t.IsWithin symbol pattern) : t.IsWithin symbol vector := by
  rcases h.pattern_cases ht with ⟨-, rfl⟩ | hcontainer
  · exact hsymbol
  · exact hsymbol.trans (isWithin_of_container? hcontainer)

/-- The vector decides about each of its patterns as the list introduces it. -/
theorem vectorVerdict (ht : t.Sound) (hlist : t.HasKind list (.collection .list))
    (h : t.Introduces element offset list binding vector pattern) {e : Nat}
    (he : pattern = e ∨ binding = .parameter) :
    t.vectorVerdict vector e = .decided (some binding.place) := by
  have hcontainer := h.container? ht hlist
  cases h with
  | parameters hparams _ => simp [SourceTree.vectorVerdict, hcontainer, hlist, hparams, Binding.place]
  | pair hparams hvector hoperator _ hpattern =>
    obtain rfl := he.resolve_right (by simp)
    have haround := ht.elementAround?_of_getElem? hpattern (.inl rfl)
    simp [SourceTree.vectorVerdict, hcontainer, hlist, hparams, hvector, haround, hoperator,
      Binding.place]
  | loop hparams hvector hoperator _ hindex hpattern =>
    obtain rfl := he.resolve_right (by simp)
    have haround := ht.elementAround?_of_getElem? hpattern (.inl rfl)
    have hother : ¬ t.OperatorIn list Words.letLike := not_operatorIn hoperator (by decide)
    simp [SourceTree.vectorVerdict, hcontainer, hlist, hparams, hvector, haround, hoperator, hother,
      hindex, Binding.place]

end Introduces

theorem Sound.not_list_of_enclosingList? (ht : t.Sound) {x p : Nat}
    (hp : t.container? x = some p) (h : t.enclosingList? x = some list) (hne : p ≠ list) :
    ¬ t.HasKind p (.collection .list) := by
  intro hlist
  rw [ht.enclosingList?_of_container hp, if_pos hlist] at h
  exact hne (Option.some.inj h)

theorem Sound.isWithin_of_mem_ancestors (ht : t.Sound) {x p a : Nat}
    (hp : t.container? x = some p) (ha : a ∈ t.ancestors x) (hform : ¬ t.HasKind a .form) :
    t.IsWithin p a := by
  obtain ⟨form, hkind, hancestors⟩ := ht.ancestors_eq hp
  rw [hancestors, List.mem_cons, List.mem_cons] at ha
  rcases ha with rfl | rfl | ha
  · exact absurd hkind hform
  · exact .inl rfl
  · exact .inr ha

namespace OfText

variable {length : Nat}

/-- Below a vector the climb goes on, if no list stands between. -/
theorem goesOn (ht : t.OfText length) {x p : Nat} {c : Collection} (hp : t.container? x = some p)
    (hc : t.HasKind p (.collection c)) (hlist : t.container? vector = some list)
    (hvector : t.HasKind vector (.collection .vector)) (hmem : vector ∈ t.ancestors p)
    (h : t.enclosingList? x = some list) : t.GoesOn x p ∧ t.enclosingList? p = some list := by
  have hne : ∀ {y}, t.IsWithin y vector → y ≠ list := by
    rintro y (rfl | hy) rfl
    · exact Nat.lt_irrefl _ (container?_lt hlist)
    · exact Nat.lt_asymm (container?_lt hlist) (lt_of_mem_ancestors hy)
  have hnot := ht.sound.not_list_of_enclosingList? hp h (hne (.inr hmem))
  have hnear : t.enclosingList? p = some list := by
    rwa [ht.sound.enclosingList?_of_container hp, if_neg hnot] at h
  refine ⟨⟨hp, ?_⟩, hnear⟩
  cases c with
  | list => exact absurd hc hnot
  | map => exact .inl hc
  | vector =>
    -- a vector decides only right inside a list
    obtain ⟨f, hf, helement⟩ := exists_element hc (by simp) (by simp)
    obtain ⟨q, hq, -⟩ := ht.exists_container hf helement
    have hform : ¬ t.HasKind vector .form := fun hform => by cases hvector.unique hform
    have hwithin := ht.sound.isWithin_of_mem_ancestors hq hmem hform
    have hqnot := ht.sound.not_list_of_enclosingList? hq hnear (hne hwithin)
    exact .inr ⟨hc, vectorVerdict_of_not_list hq hqnot⟩

theorem exists_climbsTo (ht : t.OfText length) {x : Nat} {f : Face} (hf : t.face? x = some f)
    (he : f.IsElement) (hlist : t.container? vector = some list)
    (hvector : t.HasKind vector (.collection .vector)) (hmem : vector ∈ t.ancestors x)
    (h : t.enclosingList? x = some list) : ∃ e, t.ClimbsTo x e ∧ t.container? e = some vector := by
  have hform : ¬ t.HasKind vector .form := fun hform => by cases hvector.unique hform
  induction x using Nat.strongRecOn generalizing f with
  | _ x ih =>
    obtain ⟨p, hp, hpkind⟩ := ht.exists_container hf he
    rcases ht.sound.isWithin_of_mem_ancestors hp hmem hform with rfl | hmem
    · exact ⟨x, Relation.ReflTransGen.refl, hp⟩
    · obtain ⟨c, hc⟩ : ∃ c, t.HasKind p (.collection c) := by
        refine hpkind.resolve_left ?_
        rintro rfl
        exact Nat.not_lt_zero _ (lt_of_mem_ancestors hmem)
      obtain ⟨hstep, hnear⟩ := ht.goesOn hp hc hlist hvector hmem h
      obtain ⟨g, hg, hge⟩ := exists_element hc (by simp) (by simp)
      obtain ⟨e, hclimb, hcontainer⟩ := ih p (container?_lt hp) hg hge hmem hnear
      exact ⟨e, hclimb.head hstep, hcontainer⟩

/-- What a list introduces is decided at the vector that it stands in, if no list stands
between. -/
theorem decidedAt_of_introduces (ht : t.OfText length) {binding : Binding} {pattern : Nat}
    (hlist : t.HasKind list (.collection .list))
    (h : t.Introduces element offset list binding vector pattern)
    (hsymbol : t.HasKind symbol (.token .symbol)) (hwithin : t.IsWithin symbol pattern)
    (hnear : t.enclosingList? symbol = some list) :
    t.DecidedAt symbol vector list binding.place := by
  have hvector := h.mem_elements.2
  have hcontainer := h.container? ht.sound hlist
  have hmem : vector ∈ t.ancestors symbol := by
    refine (h.isWithin ht.sound hwithin).resolve_left ?_
    rintro rfl
    cases hsymbol.unique hvector
  obtain ⟨f, hf, hkind⟩ := face?_of_kind? hsymbol
  have hfe : f.IsElement := by simp [Face.IsElement, hkind]
  obtain ⟨e, hclimb, he⟩ := ht.exists_climbsTo hf hfe hcontainer hvector hmem hnear
  refine ⟨hvector, hcontainer, e, hclimb, he, h.vectorVerdict ht.sound hlist ?_⟩
  rcases h.pattern_cases ht.sound with ⟨hparameter, -⟩ | hpattern
  · exact .inr hparameter
  · exact .inl (ht.sound.eq_of_isWithin hpattern he hwithin hclimb.isWithin)

end OfText

/-- Where a name that is visible with a local binding comes from. -/
theorem exists_introduces_of_visibleAt (ht : t.Linked) {names : List VisibleName} {s : VisibleName}
    (h : t.visibleAt element offset = .ok names) (hs : s ∈ names)
    (hlocal : s.binding.isLocal = true) :
    ∃ list vector pattern, t.IsWithin element list ∧ t.HasKind list (.collection .list) ∧
      t.Introduces element offset list s.binding vector pattern ∧
      t.HasKind s.node (.token .symbol) ∧ t.IsWithin s.node pattern ∧
      t.text? s.node ≠ some Words.restSign := by
  rcases scope_or_file_of_visibleAt h hs with ⟨scope, hscope, hs⟩ | hs
  · obtain ⟨hkind, htext, hrest, vector, pattern, hintro, hsymbol⟩ :=
      introduces_of_mem_scopeBindings hs
    obtain ⟨hsymbol, hwithin⟩ := ht.mem_symbolsIn_iff.1 hsymbol
    refine ⟨scope, vector, pattern, hscope, hkind, hintro, hsymbol, hwithin, ?_⟩
    rw [htext]
    exact fun heq => hrest (Option.some.inj heq)
  · rw [isLocal_of_mem_fileDefinitions hs] at hlocal
    cases hlocal

end SourceTree

theorem Binding.place_ne_of_isLocal {binding : Binding} (h : binding.isLocal = true) :
    binding.place ≠ .definitionName := by
  cases binding with
  | parameter | letBinding => simp [place]
  | definition kind => simp [isLocal] at h

/-- Completion and classification agree about a name where no list stands between the symbol and
the vector that brings it into scope, and only there, unless a form inside the vector binds the
symbol in the same way. All symbols of a pattern are brought into scope, also those of a list in
it, while the place of a symbol is decided inside the innermost list around it. -/
theorem read_visible_agrees {source : String} {forms : List Datum} (h : read source = .ok forms) :
    ∃ t, SourceTree.ofData forms = .ok t ∧ ∀ element offset names,
      t.visibleAt element offset = .ok names → ∀ s ∈ names, s.binding.isLocal = true →
        ∃ list vector pattern, t.IsWithin element list ∧
          t.Introduces element offset list s.binding vector pattern ∧ t.IsWithin s.node pattern ∧
          (t.bindingPlace? s.node = some s.binding.place ↔
            t.enclosingList? s.node = some list ∨ ∃ vector' list',
              t.DecidedAt s.node vector' list' s.binding.place ∧ t.IsWithin list' vector) := by
  obtain ⟨t, hdata, ht⟩ := read_ofText h
  refine ⟨t, hdata, fun element offset names hnames s hs hlocal => ?_⟩
  obtain ⟨list, vector, pattern, helement, hlist, hintro, hsymbol, hwithin, hrest⟩ :=
    SourceTree.exists_introduces_of_visibleAt ht.sound.toLinked hnames hs hlocal
  refine ⟨list, vector, pattern, helement, hintro, hwithin, ?_⟩
  rw [SourceTree.bindingPlace?_eq_some_iff (Binding.place_ne_of_isLocal hlocal)]
  constructor
  · rintro ⟨-, -, vector', list', hdecided⟩
    have hnear := ht.sound.enclosingList?_of_decidedAt hdecided
    have hcases := ht.sound.enclosingList?_cases (hintro.container? ht.sound hlist) hlist
      (hintro.isWithin ht.sound hwithin) hnear
    rcases hcases with rfl | hinside
    · exact .inl hnear
    · exact .inr ⟨vector', list', hdecided, hinside⟩
  · rintro (hnear | ⟨vector', list', hdecided, -⟩)
    · exact ⟨hsymbol, hrest, vector, list,
        ht.decidedAt_of_introduces hlist hintro hsymbol hwithin hnear⟩
    · exact ⟨hsymbol, hrest, vector', list', hdecided⟩

/-- A parameter next to a list in a parameter vector, seen from the body. -/
theorem read_visible_agrees_parameter :
    ∃ forms t names, read "(fn [a (f b)] a)" = .ok forms ∧ SourceTree.ofData forms = .ok t ∧
      t.visibleAt 16 15 = .ok names ∧ ⟨"a", .parameter, "fn", 8⟩ ∈ names ∧
      ∃ list vector pattern, t.IsWithin 16 list ∧
        t.Introduces 16 15 list .parameter vector pattern ∧ t.IsWithin 8 pattern ∧
        (t.bindingPlace? 8 = some .parameter ↔
          t.enclosingList? 8 = some list ∨ ∃ vector' list',
            t.DecidedAt 8 vector' list' .parameter ∧ t.IsWithin list' vector) := by
  have h : read "(fn [a (f b)] a)" = .ok [.group .list ⟨0, 16⟩ true [.token .symbol ⟨1, 3⟩ "fn",
      .group .vector ⟨4, 13⟩ true [.token .symbol ⟨5, 6⟩ "a",
        .group .list ⟨7, 12⟩ true [.token .symbol ⟨8, 9⟩ "f", .token .symbol ⟨10, 11⟩ "b"]],
      .token .symbol ⟨14, 15⟩ "a"]] := rfl
  obtain ⟨t, hdata, hall⟩ := read_visible_agrees h
  obtain rfl := Except.ok.inj (hdata.symm.trans (rfl : SourceTree.ofData _ = .ok _))
  refine ⟨_, _, _, h, hdata, rfl, by decide +kernel, ?_⟩
  exact hall 16 15 _ rfl ⟨"a", .parameter, "fn", 8⟩ (by decide +kernel) rfl

/-- The symbols of a list in a parameter vector are offered as parameters, and have no binding
place. -/
theorem read_visible_disagrees_list :
    ∃ forms t names, read "(fn [a (f b)] a)" = .ok forms ∧ SourceTree.ofData forms = .ok t ∧
      t.visibleAt 16 15 = .ok names ∧ ⟨"b", .parameter, "fn", 14⟩ ∈ names ∧
      t.bindingPlace? 14 = none := by
  have h : read "(fn [a (f b)] a)" = .ok [.group .list ⟨0, 16⟩ true [.token .symbol ⟨1, 3⟩ "fn",
      .group .vector ⟨4, 13⟩ true [.token .symbol ⟨5, 6⟩ "a",
        .group .list ⟨7, 12⟩ true [.token .symbol ⟨8, 9⟩ "f", .token .symbol ⟨10, 11⟩ "b"]],
      .token .symbol ⟨14, 15⟩ "a"]] := rfl
  exact ⟨_, _, _, h, rfl, rfl, by decide +kernel, by decide +kernel⟩

end PhelAssist
