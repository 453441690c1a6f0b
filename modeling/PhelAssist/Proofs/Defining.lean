import PhelAssist.Proofs.Confinement
import PhelAssist.Proofs.Hovering

namespace PhelAssist

namespace SourceTree

variable {t : SourceTree} {element offset symbol list : Nat} {operator : String}

/-- A list that defines its second element, a symbol, by its operator. -/
structure Defines (t : SourceTree) (list symbol : Nat) (word : String) : Prop where
  isList : t.HasKind list (.collection .list)
  operator : t.operator? list = some word
  defining : word ∈ Words.definition
  second : (t.elements list)[1]? = some symbol
  isSymbol : t.HasKind symbol (.token .symbol)

/-- A form of the file that starts before an offset defines a symbol. -/
def FileDefines (t : SourceTree) (offset symbol : Nat) (word : String) : Prop :=
  ∃ form ∈ t.elements root, (∃ span ∈ t.span? form, span.start < offset) ∧
    t.Defines form symbol word

theorem DefinedAt.placeFrom (h : t.DefinedAt symbol list) :
    t.placeFrom symbol symbol = some .definitionName := by
  rw [SourceTree.placeFrom]
  split
  · next hnone => simp [h.inList] at hnone
  · next c hc =>
    obtain rfl : list = c := Option.some.inj (h.inList.symm.trans hc)
    rw [show t.kind? list = _ from h.isList]
    simp [h.second, h.operator]

/-- The climb from a symbol to the list around it comes to the same list as the way down from a list
to its second element. -/
theorem Sound.definedAt_iff (ht : t.Sound) (hsymbol : t.HasKind symbol (.token .symbol)) :
    t.DefinedAt symbol list ↔ ∃ operator, t.Defines list symbol operator := by
  constructor
  · intro h
    obtain ⟨⟨index, e⟩, haround, hindex⟩ := (Option.any_eq_true _ _).1 h.second
    obtain ⟨operator, hoperator, hword⟩ := h.operator
    have hsecond := ht.getElem?_of_elementAround? h.inList haround
    rw [show index = 1 by simpa using hindex] at hsecond
    exact ⟨operator, h.isList, hoperator, hword, hsecond, hsymbol⟩
  · intro h
    obtain ⟨operator, h⟩ := h
    have haround := ht.elementAround?_of_getElem? h.second (.inl rfl)
    refine ⟨?_, h.isList, by simp [haround], operator, h.operator, h.defining⟩
    exact (ht.mem_elements_iff h.isList rfl).1 (List.mem_of_getElem? h.second)

theorem Sound.enclosingList?_of_defines (ht : t.Sound) (h : t.Defines list symbol operator) :
    t.enclosingList? symbol = some list := by
  have hcontainer := (ht.mem_elements_iff h.isList rfl).1 (List.mem_of_getElem? h.second)
  rw [ht.enclosingList?_of_container hcontainer, if_pos h.isList]

/-- A symbol has the place of a defined name exactly if some list defines it, unless it is the rest
sign. -/
theorem Sound.bindingPlace?_eq_definitionName_iff (ht : t.Sound) :
    t.bindingPlace? symbol = some .definitionName ↔
      t.text? symbol ≠ some Words.restSign ∧ ∃ list operator, t.Defines list symbol operator := by
  unfold bindingPlace?
  split
  · next h =>
    obtain ⟨hsymbol, htext⟩ := h
    constructor
    · intro hplace
      obtain ⟨list, hdefined⟩ := exists_definedAt hplace
      exact ⟨htext, list, (ht.definedAt_iff hsymbol).1 hdefined⟩
    · intro hdefines
      obtain ⟨-, list, hdefines⟩ := hdefines
      exact ((ht.definedAt_iff hsymbol).2 hdefines).placeFrom
  · next h =>
    constructor
    · intro hplace
      cases hplace
    · intro hdefines
      obtain ⟨htext, list, operator, hdefines⟩ := hdefines
      exact absurd ⟨hdefines.isSymbol, htext⟩ h

end SourceTree

theorem usedCategory_ne_definition (catalog : Catalog) (name : String) (kind : DefinedAs) :
    usedCategory catalog name ≠ .definition kind := by
  unfold usedCategory
  split
  · simp
  · split <;> simp

/-- The category of a symbol by the shape of the forms around it, and else by its name. -/
theorem categorize_lexical (catalog : Catalog) {t : SourceTree} {symbol : Nat} {name : String}
    (hsymbol : t.HasKind symbol (.token .symbol)) (htext : t.text? symbol = some name) :
    categorize catalog .lexical t symbol = .ok (((t.bindingPlace? symbol).map
      (BindingPlace.category ((t.enclosingList? symbol).bind t.operator?))).getD
        (usedCategory catalog name)) := by
  unfold categorize
  rw [show t.kind? symbol = some (.token .symbol) from hsymbol, htext, definingCategory?_lexical]
  rfl

namespace SourceTree

variable {t : SourceTree} {element offset symbol : Nat}

/-- A symbol is categorized as a definition exactly where it has the place of a defined name, and
then by the operator of the innermost list around it. -/
theorem categorize_eq_definition_iff_place (catalog : Catalog)
    (hworded : ∀ i k, t.HasKind i (.token k) → ∃ text, t.text? i = some text) {kind : DefinedAs} :
    categorize catalog .lexical t symbol = .ok (.definition kind) ↔
      t.bindingPlace? symbol = some .definitionName ∧
        kind = .ofOperator ((t.enclosingList? symbol).bind t.operator?) := by
  by_cases hsymbol : t.HasKind symbol (.token .symbol)
  · obtain ⟨name, htext⟩ := hworded symbol .symbol hsymbol
    rw [categorize_lexical catalog hsymbol htext, Except.ok.injEq]
    cases hplace : t.bindingPlace? symbol with
    | none => simp [usedCategory_ne_definition]
    | some place => cases place <;> simp [BindingPlace.category, eq_comm]
  · have hother : categorize catalog .lexical t symbol = .ok .unknown := by
      unfold categorize
      split
      · next hkind _ => exact absurd hkind hsymbol
      · rfl
    simp [hother, bindingPlace?, hsymbol]

/-- Climbing from a symbol, and looking for the innermost list around it, both come to the list that
defines it. -/
theorem Sound.categorize_eq_definition_iff (ht : t.Sound)
    (hworded : ∀ i k, t.HasKind i (.token k) → ∃ text, t.text? i = some text) (catalog : Catalog)
    {kind : DefinedAs} :
    categorize catalog .lexical t symbol = .ok (.definition kind) ↔
      t.text? symbol ≠ some Words.restSign ∧ ∃ list operator,
        t.Defines list symbol operator ∧ kind = .ofOperator (some operator) := by
  rw [categorize_eq_definition_iff_place catalog hworded, ht.bindingPlace?_eq_definitionName_iff]
  have hkind : ∀ list operator, t.Defines list symbol operator →
      (t.enclosingList? symbol).bind t.operator? = some operator := by
    intro list operator hdefines
    rw [ht.enclosingList?_of_defines hdefines]
    exact hdefines.operator
  constructor
  · intro h
    obtain ⟨⟨htext, list, operator, hdefines⟩, heq⟩ := h
    rw [hkind list operator hdefines] at heq
    exact ⟨htext, list, operator, hdefines, heq⟩
  · intro h
    obtain ⟨htext, list, operator, hdefines, heq⟩ := h
    rw [hkind list operator hdefines]
    exact ⟨⟨htext, list, operator, hdefines⟩, heq⟩

/-- The definitions of the file are names that a form of the file defines. -/
theorem fileDefines_of_mem_fileDefinitions {s : VisibleName}
    (h : s ∈ t.fileDefinitions element offset) :
    t.FileDefines offset s.node s.form ∧ s.node ≠ element ∧ t.text? s.node = some s.name ∧
      s.binding = .definition (.ofOperator (some s.form)) := by
  obtain ⟨form, hform, hstart, hdefines⟩ := mem_fileDefinitions_iff.1 h
  obtain ⟨hoperator, hword, hsecond, hsymbol, hother, htext, hbinding⟩ :=
    definition?_eq_some_iff.1 hdefines
  have hlist := isList_of_operator? hoperator
  exact ⟨⟨form, hform, hstart, hlist, hoperator, hword, hsecond, hsymbol⟩, hother, htext, hbinding⟩

end SourceTree

/-- Three ways to the kind of a definition agree. A symbol is categorized as a definition exactly if
it is not the rest sign and is the second element of a list with a defining operator, and then the
operator decides its kind; no form around the list, and nothing in the catalog, changes that. A
definition of the file that is visible somewhere is categorized with the kind that it is offered
with. -/
theorem ofEvents_categorize_definition {events : List Event} {t : SourceTree}
    (h : SourceTree.ofEvents events = .ok t) (catalog : Catalog) :
    (∀ symbol kind, categorize catalog .lexical t symbol = .ok (.definition kind) ↔
      t.text? symbol ≠ some Words.restSign ∧ ∃ list operator,
        t.Defines list symbol operator ∧ kind = .ofOperator (some operator)) ∧
    ∀ element offset names, t.visibleAt element offset = .ok names → ∀ s ∈ names, ∀ kind,
      s.binding = .definition kind → s.name ≠ Words.restSign →
        categorize catalog .lexical t s.node = .ok (.definition kind) := by
  obtain ⟨ht, hworded⟩ := ofEvents_shaped h
  refine ⟨fun symbol kind => ht.categorize_eq_definition_iff hworded catalog, ?_⟩
  intro element offset names hnames s hs kind hbinding hname
  have hglobal : s.binding.isLocal = false := by
    rw [hbinding]
    rfl
  have hmem := SourceTree.mem_fileDefinitions_of_visibleAt hnames hs hglobal
  obtain ⟨⟨form, -, -, hdefines⟩, -, htext, hkind⟩ :=
    SourceTree.fileDefines_of_mem_fileDefinitions hmem
  apply (ht.categorize_eq_definition_iff hworded catalog).2
  refine ⟨?_, form, s.form, hdefines, ?_⟩
  · rw [htext]
    intro heq
    exact hname (Option.some.inj heq)
  · rw [hbinding] at hkind
    exact Binding.definition.inj hkind

/-- A definition in a body that shadows one of the file, both with the name of a function of the
catalog: each is categorized by its own operator, and the one of the file as it is offered. -/
theorem read_categorize_definition_nested :
    ∃ forms t names, read "(defn map [x] x)\n(do (def map 2) map)" = .ok forms ∧
      SourceTree.ofData forms = .ok t ∧
      categorize (.ofList [⟨"map", "core", "(map f xs)", "", 0⟩]) .lexical t 22 =
        .ok (.definition .value) ∧
      t.visibleAt 26 36 = .ok names ∧ ⟨"map", .definition .function, "defn", 6⟩ ∈ names ∧
      categorize (.ofList [⟨"map", "core", "(map f xs)", "", 0⟩]) .lexical t 6 =
        .ok (.definition .function) := by
  have hread : read "(defn map [x] x)\n(do (def map 2) map)" = .ok [
      .group .list ⟨0, 16⟩ true [.token .symbol ⟨1, 5⟩ "defn", .token .symbol ⟨6, 9⟩ "map",
        .group .vector ⟨10, 13⟩ true [.token .symbol ⟨11, 12⟩ "x"], .token .symbol ⟨14, 15⟩ "x"],
      .group .list ⟨17, 37⟩ true [.token .symbol ⟨18, 20⟩ "do",
        .group .list ⟨21, 32⟩ true [.token .symbol ⟨22, 25⟩ "def", .token .symbol ⟨26, 29⟩ "map",
          .token .literal ⟨30, 31⟩ "2"],
        .token .symbol ⟨33, 36⟩ "map"]] := rfl
  obtain ⟨t, htree, -⟩ := read_ofText hread
  obtain ⟨hcategory, hvisible⟩ :=
    ofEvents_categorize_definition htree (.ofList [⟨"map", "core", "(map f xs)", "", 0⟩])
  have heval : (t.text? 22 ≠ some Words.restSign ∧ t.HasKind 18 (.collection .list) ∧
      t.operator? 18 = some "def" ∧ (t.elements 18)[1]? = some 22 ∧
      t.HasKind 22 (.token .symbol)) ∧ t.Contains 26 ∧
      (t.visibleAt 26 36).toOption = some [⟨"map", .definition .function, "defn", 6⟩] := by
    obtain rfl := Except.ok.inj htree
    decide +kernel
  obtain ⟨⟨htext, hlist, hoperator, hsecond, hsymbol⟩, hcontains, hsome⟩ := heval
  obtain ⟨names, hnames⟩ := SourceTree.exists_visibleAt_of_contains hcontains 36
  rw [hnames] at hsome
  have hmem : ⟨"map", .definition .function, "defn", 6⟩ ∈ names := by
    rw [Option.some.inj hsome]
    exact List.mem_singleton.2 rfl
  have hinner := (hcategory 22 .value).2
    ⟨htext, 18, "def", ⟨hlist, hoperator, by decide, hsecond, hsymbol⟩, rfl⟩
  have hfile := hvisible 26 36 names hnames _ hmem .function rfl (by decide)
  exact ⟨_, t, names, hread, htree, hinner, hnames, hmem, hfile⟩

namespace SourceTree

variable {t : SourceTree} {element offset : Nat} {names : List VisibleName}

/-- Every path that collects patterns leaves the rest sign out, so only the file can bring it in. -/
theorem mem_fileDefinitions_of_restSign (h : t.visibleAt element offset = .ok names)
    {s : VisibleName} (hs : s ∈ names) (hname : s.name = Words.restSign) :
    s ∈ t.fileDefinitions element offset := by
  rcases scope_or_file_of_visibleAt h hs with ⟨scope, -, hs⟩ | hs
  · obtain ⟨-, -, hrest, -⟩ := introduces_of_mem_scopeBindings hs
    exact absurd hname hrest
  · exact hs

/-- What the file defines is visible, if not as this symbol then as one that hides it. -/
theorem FileDefines.exists_visibleAt {symbol : Nat} {operator name : String}
    (h : t.FileDefines offset symbol operator) (hother : symbol ≠ element)
    (htext : t.text? symbol = some name) (hnames : t.visibleAt element offset = .ok names) :
    ∃ s ∈ names, s.name = name := by
  obtain ⟨form, hform, hstart, hdefines⟩ := h
  have hmem : ⟨name, .definition (.ofOperator (some operator)), operator, symbol⟩ ∈
      t.fileDefinitions element offset := by
    apply mem_fileDefinitions_iff.2
    refine ⟨form, hform, hstart, definition?_eq_some_iff.2 ?_⟩
    exact ⟨hdefines.operator, hdefines.defining, hdefines.second, hdefines.isSymbol, hother, htext,
      rfl⟩
  rw [eq_of_visibleAt hnames]
  apply VisibleName.exists_mem_joinScopes _ hmem (by simp)
  exact List.mem_append_right _ (List.mem_singleton.2 rfl)

end SourceTree

/-- The rest sign is bound in no pattern: it has no binding place, and is no parameter and no
binding that is visible. But a form of the file can define it like any other name: the rest sign is
visible exactly if one that starts before the cursor does so. -/
theorem restSign_visible_iff (t : SourceTree) :
    (∀ symbol, t.text? symbol = some Words.restSign → t.bindingPlace? symbol = none) ∧
    ∀ element offset names, t.visibleAt element offset = .ok names →
      (∀ s ∈ names, s.name = Words.restSign → s.binding.isLocal = false) ∧
      ((∃ s ∈ names, s.name = Words.restSign) ↔
        ∃ symbol operator, t.FileDefines offset symbol operator ∧ symbol ≠ element ∧
          t.text? symbol = some Words.restSign) := by
  constructor
  · intro symbol htext
    simp [SourceTree.bindingPlace?, htext]
  intro element offset names hnames
  constructor
  · intro s hs hname
    apply SourceTree.isLocal_of_mem_fileDefinitions
    exact SourceTree.mem_fileDefinitions_of_restSign hnames hs hname
  constructor
  · intro h
    obtain ⟨s, hs, hname⟩ := h
    have hmem := SourceTree.mem_fileDefinitions_of_restSign hnames hs hname
    obtain ⟨hdefines, hother, htext, -⟩ := SourceTree.fileDefines_of_mem_fileDefinitions hmem
    exact ⟨s.node, s.form, hdefines, hother, hname ▸ htext⟩
  · intro h
    obtain ⟨symbol, operator, hdefines, hother, htext⟩ := h
    exact hdefines.exists_visibleAt hother htext hnames

/-- The rest sign in parameters and in a pattern of a loop: only the other names are visible. -/
theorem read_restSign_visible_patterns :
    ∃ forms t names, read "(fn [& r] (foreach [[a & b] r] a" = .ok forms ∧
      SourceTree.ofData forms = .ok t ∧ t.visibleAt 28 32 = .ok names ∧
      names.map (·.name) = ["a", "b", "r"] ∧
      ¬ ∃ symbol operator, t.FileDefines 32 symbol operator ∧ symbol ≠ 28 ∧
        t.text? symbol = some Words.restSign := by
  have hread : read "(fn [& r] (foreach [[a & b] r] a" = .ok [
      .group .list ⟨0, 32⟩ false [.token .symbol ⟨1, 3⟩ "fn",
        .group .vector ⟨4, 9⟩ true [.token .symbol ⟨5, 6⟩ "&", .token .symbol ⟨7, 8⟩ "r"],
        .group .list ⟨10, 32⟩ false [.token .symbol ⟨11, 18⟩ "foreach",
          .group .vector ⟨19, 30⟩ true [
            .group .vector ⟨20, 27⟩ true [.token .symbol ⟨21, 22⟩ "a", .token .symbol ⟨23, 24⟩ "&",
              .token .symbol ⟨25, 26⟩ "b"],
            .token .symbol ⟨28, 29⟩ "r"],
          .token .symbol ⟨31, 32⟩ "a"]]] := rfl
  obtain ⟨t, htree, -⟩ := read_ofText hread
  have heval : t.Contains 28 ∧
      (t.visibleAt 28 32).toOption.map (·.map (·.name)) = some ["a", "b", "r"] := by
    obtain rfl := Except.ok.inj htree
    decide +kernel
  obtain ⟨hcontains, hsome⟩ := heval
  obtain ⟨names, hnames⟩ := SourceTree.exists_visibleAt_of_contains hcontains 32
  rw [hnames] at hsome
  have hlist : names.map (·.name) = ["a", "b", "r"] := Option.some.inj hsome
  refine ⟨_, t, names, hread, htree, hnames, hlist, ?_⟩
  intro hdefines
  obtain ⟨s, hs, hname⟩ := ((restSign_visible_iff t).2 28 32 names hnames).2.2 hdefines
  have hmem : s.name ∈ names.map (·.name) := List.mem_map_of_mem hs
  rw [hlist, hname] at hmem
  exact absurd hmem (by decide)

/-- The definition of a file can bind the rest sign: it is visible after it, while the symbol itself
has no binding place. -/
theorem read_restSign_visible_definition :
    ∃ forms t names, read "(def & 1) x" = .ok forms ∧ SourceTree.ofData forms = .ok t ∧
      t.visibleAt 10 11 = .ok names ∧ ⟨"&", .definition .value, "def", 6⟩ ∈ names ∧
      t.bindingPlace? 6 = none := by
  have hread : read "(def & 1) x" = .ok [
      .group .list ⟨0, 9⟩ true [.token .symbol ⟨1, 4⟩ "def", .token .symbol ⟨5, 6⟩ "&",
        .token .literal ⟨7, 8⟩ "1"],
      .token .symbol ⟨10, 11⟩ "x"] := rfl
  refine ⟨_, _, _, hread, rfl, rfl, ?_⟩
  decide +kernel

end PhelAssist
