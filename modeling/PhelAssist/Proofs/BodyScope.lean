import PhelAssist.Proofs.Climbing
import PhelAssist.Proofs.Shape

namespace PhelAssist

namespace VisibleName

theorem exists_mem_lastOfEach {taken : List String} {group : List VisibleName} {s : VisibleName}
    (hs : s ∈ group) (hfree : s.name ∉ taken) : ∃ r ∈ lastOfEach taken group, r.name = s.name := by
  induction group generalizing s with
  | nil => simp at hs
  | cons first rest ih =>
    unfold lastOfEach
    rcases List.mem_cons.1 hs with rfl | hs
    · split
      · next h =>
        -- a later symbol of the group has the name
        obtain ⟨r, hr, hname⟩ := List.mem_map.1 (h.resolve_left hfree)
        obtain ⟨k, hk, hkname⟩ := ih hr (hname ▸ hfree)
        exact ⟨k, hk, hkname.trans hname⟩
      · exact ⟨s, List.mem_cons_self, rfl⟩
    · obtain ⟨r, hr, hname⟩ := ih hs hfree
      split
      · exact ⟨r, hr, hname⟩
      · exact ⟨r, List.mem_cons_of_mem _ hr, hname⟩

/-- Joining scopes hides symbols, but loses no name. -/
theorem exists_mem_joinScopes {taken : List String} {groups : List (List VisibleName)}
    {group : List VisibleName} {s : VisibleName} (hgroup : group ∈ groups) (hs : s ∈ group)
    (hfree : s.name ∉ taken) : ∃ r ∈ joinScopes taken groups, r.name = s.name := by
  induction groups generalizing taken with
  | nil => simp at hgroup
  | cons first groups ih =>
    by_cases hfirst : s.name ∈ first.map (·.name)
    · obtain ⟨r, hr, hname⟩ := List.mem_map.1 hfirst
      obtain ⟨k, hk, hkname⟩ := exists_mem_lastOfEach hr (hname ▸ hfree)
      exact ⟨k, List.mem_append_left _ hk, hkname.trans hname⟩
    · have hrest : group ∈ groups := by
        rcases List.mem_cons.1 hgroup with rfl | hrest
        · exact absurd (List.mem_map_of_mem hs) hfirst
        · exact hrest
      have hfree' : s.name ∉ taken ++ first.map (·.name) := by
        rw [List.mem_append, not_or]
        exact ⟨hfree, hfirst⟩
      obtain ⟨r, hr, hname⟩ := ih hrest hfree'
      exact ⟨r, List.mem_append_right _ hr, hname⟩

theorem exists_group_of_mem_joinScopes {taken : List String} {groups : List (List VisibleName)}
    {s : VisibleName} (h : s ∈ joinScopes taken groups) : ∃ group ∈ groups, s ∈ group := by
  induction groups generalizing taken with
  | nil => simp [joinScopes] at h
  | cons first groups ih =>
    rcases List.mem_append.1 h with h | h
    · exact ⟨first, List.mem_cons_self, (lastOfEach_sublist taken first).subset h⟩
    · obtain ⟨group, hgroup, hs⟩ := ih h
      exact ⟨group, List.mem_cons_of_mem _ hgroup, hs⟩

end VisibleName

namespace SourceTree

variable {t : SourceTree} {element offset scope : Nat}

theorem mem_namesBoundBy_iff {patterns : List Nat} {binding : Binding} {form : String}
    {s : VisibleName} :
    s ∈ t.namesBoundBy patterns binding form ↔
      (∃ pattern ∈ patterns, s.node ∈ t.symbolsIn pattern) ∧ t.text? s.node = some s.name ∧
        s.name ≠ Words.restSign ∧ s.binding = binding ∧ s.form = form := by
  rw [namesBoundBy, List.mem_filterMap]
  constructor
  · rintro ⟨symbol, hmem, hs⟩
    split at hs
    · next name htext =>
      split at hs
      · cases hs
      · next hrest =>
        obtain rfl := Option.some.inj hs
        exact ⟨List.mem_flatMap.1 hmem, htext, hrest, rfl, rfl⟩
    · cases hs
  · rintro ⟨hmem, htext, hrest, rfl, rfl⟩
    refine ⟨s.node, List.mem_flatMap.2 hmem, ?_⟩
    rw [htext]
    simp [hrest]

theorem getElem?_evenPlaced {α : Type} (l : List α) (i : Nat) :
    (evenPlaced l)[i]? = l[2 * i]? := by
  induction l using evenPlaced.induct generalizing i with
  | case1 pattern value rest ih =>
    cases i with
    | zero => rfl
    | succ i => simpa [evenPlaced, Nat.mul_add] using ih i
  | case2 pattern => cases i <;> simp [evenPlaced, Nat.mul_add]
  | case3 => simp [evenPlaced]

theorem mem_take_evenPlaced_iff {α : Type} {l : List α} {n : Nat} {a : α} :
    a ∈ (evenPlaced l).take n ↔ ∃ i, i < n ∧ l[2 * i]? = some a := by
  rw [List.mem_iff_getElem?]
  refine exists_congr fun i => ?_
  rw [List.getElem?_take, getElem?_evenPlaced]
  by_cases hi : i < n <;> simp [hi]

theorem mem_dropLast_iff {α : Type} {l : List α} {a : α} :
    a ∈ l.dropLast ↔ ∃ i, i + 1 < l.length ∧ l[i]? = some a := by
  rw [List.mem_iff_getElem?]
  refine exists_congr fun i => ?_
  rw [List.getElem?_dropLast]
  by_cases hi : i + 1 < l.length
  · simp [hi, Nat.lt_sub_of_add_lt hi]
  · simp [hi, show ¬ i < l.length - 1 by omega]

theorem isList_of_operator? {list : Nat} {op : String} (h : t.operator? list = some op) :
    t.HasKind list (.collection .list) := by
  unfold operator? at h
  split at h
  · next hlist => exact hlist
  · cases h

theorem operatorIn_iff {list : Nat} {words : List String} (hwords : "" ∉ words) :
    t.OperatorIn list words ↔ (t.operator? list).getD "" ∈ words := by
  unfold OperatorIn
  cases t.operator? list with
  | none => simp [hwords]
  | some op => simp

theorem OperatorIn.mono {list : Nat} {words others : List String} (h : t.OperatorIn list words)
    (hsub : words ⊆ others) : t.OperatorIn list others := by
  obtain ⟨op, hop, hword⟩ := h
  exact ⟨op, hop, hsub hword⟩

theorem not_operatorIn {list : Nat} {words others : List String} (hop : t.OperatorIn list words)
    (hapart : ∀ op ∈ words, op ∉ others) : ¬ t.OperatorIn list others := by
  obtain ⟨op, hmem, hword⟩ := hop
  rintro ⟨op', hmem', hword'⟩
  obtain rfl : op = op' := Option.some.inj (hmem.symm.trans hmem')
  exact hapart op hword hword'

/-- A list around the cursor brings the symbols of `pattern` into scope, which is an element of
`vector` or `vector` itself. -/
inductive Introduces (t : SourceTree) (element offset scope : Nat) : Binding → Nat → Nat → Prop
  | parameters {vector : Nat} (hparams : t.parameters? scope = some vector)
      (hbehind : t.IsBehind vector element offset) :
      Introduces t element offset scope .parameter vector vector
  | pair {vector pattern index : Nat} (hparams : t.parameters? scope = none)
      (hvector : t.vectorAfterHead? scope = some vector)
      (hoperator : t.OperatorIn scope Words.letLike)
      (hpair : index < t.visiblePairs vector element offset)
      (hpattern : (t.elements vector)[2 * index]? = some pattern) :
      Introduces t element offset scope .letBinding vector pattern
  | loop {vector pattern index : Nat} (hparams : t.parameters? scope = none)
      (hvector : t.vectorAfterHead? scope = some vector)
      (hoperator : t.OperatorIn scope Words.loopLike)
      (hbehind : t.IsBehind vector element offset)
      (hindex : index + 1 < (t.elements vector).length)
      (hpattern : (t.elements vector)[index]? = some pattern) :
      Introduces t element offset scope .letBinding vector pattern

theorem introduces_of_mem_scopeBindings {s : VisibleName}
    (h : s ∈ t.scopeBindings element offset scope) :
    t.HasKind scope (.collection .list) ∧ t.text? s.node = some s.name ∧
      s.name ≠ Words.restSign ∧ ∃ vector pattern,
        t.Introduces element offset scope s.binding vector pattern ∧
        s.node ∈ t.symbolsIn pattern := by
  unfold scopeBindings at h
  split at h
  · cases h
  · next hkind =>
    refine ⟨Decidable.of_not_not hkind, ?_⟩
    split at h
    · next params hparams =>
      split at h
      · next hbehind =>
        obtain ⟨⟨pattern, hpattern, hsymbol⟩, htext, hrest, hbinding, -⟩ := mem_namesBoundBy_iff.1 h
        obtain rfl := List.mem_singleton.1 hpattern
        rw [hbinding]
        exact ⟨htext, hrest, pattern, pattern, .parameters hparams hbehind, hsymbol⟩
      · cases h
    · next hparams =>
      split at h
      · cases h
      · next vector hvector =>
        simp only at h
        split at h
        · next hop =>
          obtain ⟨⟨pattern, hpattern, hsymbol⟩, htext, hrest, hbinding, -⟩ :=
            mem_namesBoundBy_iff.1 h
          obtain ⟨index, hpair, hindex⟩ := mem_take_evenPlaced_iff.1 hpattern
          have hoperator := (operatorIn_iff (by decide)).2 hop
          rw [hbinding]
          exact ⟨htext, hrest, vector, pattern, .pair hparams hvector hoperator hpair hindex,
            hsymbol⟩
        · split at h
          · next hop =>
            obtain ⟨⟨pattern, hpattern, hsymbol⟩, htext, hrest, hbinding, -⟩ :=
              mem_namesBoundBy_iff.1 h
            obtain ⟨index, hlt, hindex⟩ := mem_dropLast_iff.1 hpattern
            have hoperator := (operatorIn_iff (by decide)).2 hop.1
            rw [hbinding]
            exact ⟨htext, hrest, vector, pattern,
              .loop hparams hvector hoperator hop.2 hlt hindex, hsymbol⟩
          · cases h

theorem Introduces.exists_mem_scopeBindings {binding : Binding} {vector pattern symbol : Nat}
    {name : String} (h : t.Introduces element offset scope binding vector pattern)
    (hscope : t.HasKind scope (.collection .list)) (hsymbol : symbol ∈ t.symbolsIn pattern)
    (htext : t.text? symbol = some name) (hrest : name ≠ Words.restSign) :
    ∃ s ∈ t.scopeBindings element offset scope, s.name = name := by
  -- each case gives the patterns and the word that the names are bound with
  suffices ∃ patterns form, t.scopeBindings element offset scope =
      t.namesBoundBy patterns binding form ∧ pattern ∈ patterns by
    obtain ⟨patterns, form, heq, hmem⟩ := this
    refine ⟨⟨name, binding, form, symbol⟩, ?_, rfl⟩
    rw [heq]
    exact mem_namesBoundBy_iff.2 ⟨⟨pattern, hmem, hsymbol⟩, htext, hrest, rfl, rfl⟩
  cases h with
  | parameters hparams hbehind =>
    refine ⟨[vector], t.arityOperator scope, ?_, List.mem_singleton.2 rfl⟩
    simp [scopeBindings, hscope, hparams, hbehind]
  | pair hparams hvector hoperator hpair hpattern =>
    refine ⟨_, (t.operator? scope).getD "", ?_, mem_take_evenPlaced_iff.2 ⟨_, hpair, hpattern⟩⟩
    have hop := (operatorIn_iff (by decide)).1 hoperator
    simp [scopeBindings, hscope, hparams, hvector, hop, pairBindings]
  | loop hparams hvector hoperator hbehind hindex hpattern =>
    refine ⟨_, (t.operator? scope).getD "", ?_, mem_dropLast_iff.2 ⟨_, hindex, hpattern⟩⟩
    have hop := (operatorIn_iff (by decide)).1 hoperator
    have hother : ¬ t.OperatorIn scope Words.letLike := not_operatorIn hoperator (by decide)
    have hnot := mt (operatorIn_iff (by decide)).2 hother
    simp [scopeBindings, hscope, hparams, hvector, hop, hnot, hbehind]

/-- Whether the first element of a list is a symbol. -/
def StartsWithSymbol (t : SourceTree) (list : Nat) : Prop :=
  ∃ head, (t.elements list).head? = some head ∧ t.HasKind head (.token .symbol)

theorem StartsWithSymbol.parameters? {list : Nat} (hhead : t.StartsWithSymbol list)
    (hop : ¬ t.OperatorIn list Words.function) : t.parameters? list = none := by
  obtain ⟨head, hfirst, hkind⟩ := hhead
  cases hparams : t.parameters? list with
  | none => rfl
  | some vector =>
    rcases parameters?_cases hparams with ⟨hfunction, -⟩ | ⟨-, hfirst', hvector, -⟩
    · exact absurd hfunction hop
    · obtain rfl : head = vector := Option.some.inj (hfirst.symm.trans hfirst')
      cases hkind.unique hvector

theorem visiblePairs_of_isBehind {vector : Nat} (h : t.IsBehind vector element offset) :
    t.visiblePairs vector element offset = ((t.elements vector).length + 1) / 2 := by
  simp [visiblePairs, h.1, h.2]

/-- The element of a vector that a climb comes through stands at the index by which the vector
decides. -/
theorem Sound.getElem?_of_elementAround? (ht : t.Sound) {vector current index e : Nat}
    (hcontainer : t.container? current = some vector)
    (haround : t.elementAround? vector current = some (index, e)) :
    (t.elements vector)[index]? = some current := by
  rw [ht.elementAround?_of_isWithin hcontainer (.inl rfl)] at haround
  obtain ⟨i, hi, heq⟩ := Option.map_eq_some_iff.1 haround
  obtain ⟨rfl, -⟩ := Prod.mk.inj heq
  obtain ⟨hlt, hget, -⟩ := List.idxOf?_eq_some_iff.1 hi
  exact List.getElem?_eq_some_iff.2 ⟨hlt, hget⟩

/-- Where the climb from a symbol ends, the list brings a pattern with the symbol into scope, once
the vector is behind the cursor. -/
theorem DecidedAt.introduces (ht : t.Sound) {symbol vector list : Nat} {place : BindingPlace}
    (h : t.DecidedAt symbol vector list place)
    (hhead : place = .parameter ∨ t.StartsWithSymbol list)
    (hbehind : t.IsBehind vector element offset) :
    ∃ binding pattern, t.Introduces element offset list binding vector pattern ∧
      t.IsWithin symbol pattern := by
  obtain ⟨current, hclimb, hcontainer, hverdict⟩ := h.decides
  obtain ⟨list', hlist, -, hcases⟩ := vectorVerdict_cases hverdict
  obtain rfl : list' = list := Option.some.inj (hlist.symm.trans h.inList)
  rcases hcases with ⟨hparams, -⟩ | ⟨hvector, index, e, haround, hanswer⟩
  · exact ⟨_, _, .parameters hparams hbehind, h.isWithin⟩
  · have hget := ht.getElem?_of_elementAround? hcontainer haround
    have hlt : index < (t.elements vector).length := (List.getElem?_eq_some_iff.1 hget).1
    rcases hanswer with ⟨hoperator, hplace⟩ | ⟨hoperator, hplace⟩
    · split at hplace
      · next heven =>
        have hhead := hhead.resolve_left (by simp [Option.some.inj hplace])
        have hparams := hhead.parameters? (not_operatorIn hoperator (by decide))
        have hpair : index / 2 < t.visiblePairs vector element offset := by
          rw [visiblePairs_of_isBehind hbehind]
          omega
        have hpattern : (t.elements vector)[2 * (index / 2)]? = some current := by
          rwa [Nat.mul_div_cancel' (Nat.dvd_of_mod_eq_zero heven)]
        exact ⟨_, current, .pair hparams hvector hoperator hpair hpattern, hclimb.isWithin⟩
      · cases hplace
    · split at hplace
      · next hindex =>
        have hhead := hhead.resolve_left (by simp [Option.some.inj hplace])
        have hparams := hhead.parameters? (not_operatorIn hoperator (by decide))
        exact ⟨_, current, .loop hparams hvector hoperator hbehind hindex hget, hclimb.isWithin⟩
      · cases hplace

/-- What a list around the cursor brings into scope is visible at the cursor, if not as this symbol
then as one that hides it. -/
theorem exists_visibleAt_of_scope {s : VisibleName} (helement : t.IsWithin element scope)
    (hscope : scope < t.size) (hs : s ∈ t.scopeBindings element offset scope) :
    ∃ names, t.visibleAt element offset = .ok names ∧ ∃ r ∈ names, r.name = s.name := by
  have hcontains : t.Contains element := by
    rcases helement with rfl | hmem
    · exact hscope
    · cases hp : t.parent? element with
      | none => simp [ancestors_eq_nil hp] at hmem
      | some p => exact lt_size_of_parent? hp
  refine ⟨_, visibleAt_of_contains hcontains offset, ?_⟩
  apply VisibleName.exists_mem_joinScopes _ hs (by simp)
  apply List.mem_append_left
  refine List.mem_map.2 ⟨scope, ?_, rfl⟩
  exact List.mem_cons.2 (helement.imp Eq.symm id)

/-- What is visible comes from a list around the cursor, or from the file. -/
theorem scope_or_file_of_visibleAt {names : List VisibleName} {s : VisibleName}
    (h : t.visibleAt element offset = .ok names) (hs : s ∈ names) :
    (∃ scope, t.IsWithin element scope ∧ s ∈ t.scopeBindings element offset scope) ∨
      s ∈ t.fileDefinitions element offset := by
  rw [eq_of_visibleAt h] at hs
  obtain ⟨group, hgroup, hs⟩ := VisibleName.exists_group_of_mem_joinScopes hs
  rcases List.mem_append.1 hgroup with hgroup | hgroup
  · obtain ⟨scope, hscope, rfl⟩ := List.mem_map.1 hgroup
    exact .inl ⟨scope, (List.mem_cons.1 hscope).imp Eq.symm id, hs⟩
  · exact .inr (List.mem_singleton.1 hgroup ▸ hs)

end SourceTree

/-- A symbol in a binding position is visible in the body of the form that binds it. There is one
vector at which it is decided that the symbol is bound, and one list that the vector belongs to. At
every node of the list outside of the vector, and at every offset behind the vector, some symbol of
that name is in scope. A list that does not start with a symbol may have its first vector taken for
parameters, so that pairs in a later vector are not in scope. -/
theorem ofEvents_visibleInBody {events : List Event} {t : SourceTree}
    (h : SourceTree.ofEvents events = .ok t) {symbol : Nat} {place : BindingPlace}
    (hplace : t.bindingPlace? symbol = some place) (hlocal : place ≠ .definitionName) :
    ∃ vector list, t.DecidedAt symbol vector list place ∧
      (∀ vector' list' place', t.DecidedAt symbol vector' list' place' →
        vector' = vector ∧ list' = list) ∧
      ((place = .parameter ∨ t.StartsWithSymbol list) →
        ∀ element offset, t.IsWithin element list → ¬ t.IsWithin element vector →
          t.EndsBy vector offset → ∃ names, t.visibleAt element offset = .ok names ∧
            ∃ s ∈ names, t.text? symbol = some s.name) := by
  obtain ⟨ht, hworded⟩ := ofEvents_shaped h
  obtain ⟨hkind, hrest, vector, list, hdecided⟩ :=
    (SourceTree.bindingPlace?_eq_some_iff hlocal).1 hplace
  obtain ⟨name, hname⟩ := hworded symbol .symbol hkind
  refine ⟨vector, list, hdecided, fun _ _ _ h' => hdecided.unique h', ?_⟩
  intro hhead element offset hin hout hends
  obtain ⟨binding, pattern, hintro, hwithin⟩ := hdecided.introduces ht hhead ⟨hout, hends⟩
  have hsymbol := ht.mem_symbolsIn_iff.2 ⟨hkind, hwithin⟩
  have hname' : name ≠ Words.restSign := fun heq => hrest (heq ▸ hname)
  obtain ⟨s, hs, hsname⟩ :=
    hintro.exists_mem_scopeBindings hdecided.isList hsymbol hname hname'
  obtain ⟨names, hnames, r, hr, hrname⟩ := SourceTree.exists_visibleAt_of_scope hin
    (SourceTree.lt_size_of_hasKind hdecided.isList) hs
  exact ⟨names, hnames, r, hr, by rw [hname, hrname, hsname]⟩

/-- The name after the rest sign of a pattern in a vector of pairs, seen from the body. The vector
ends with a pattern that has no value. -/
theorem ofEvents_visibleInBody_rest :
    ∃ t, SourceTree.ofEvents [.start (.collection .list) 0,
        .token (.token .symbol) "let" ⟨1, 4⟩, .start (.collection .vector) 5,
        .start (.collection .vector) 6, .token (.token .symbol) "a" ⟨7, 8⟩,
        .token (.token .symbol) "&" ⟨9, 10⟩, .token (.token .symbol) "b" ⟨11, 12⟩, .finish 13 true,
        .token (.token .symbol) "x" ⟨14, 15⟩, .token (.token .symbol) "c" ⟨16, 17⟩,
        .finish 18 true, .token (.token .symbol) "b" ⟨19, 20⟩, .finish 21 true] = .ok t ∧
      t.bindingPlace? 14 = some .letBinding ∧ t.StartsWithSymbol 2 ∧ t.IsWithin 20 2 ∧
      ¬ t.IsWithin 20 6 ∧ t.EndsBy 6 20 ∧
      ∃ names, t.visibleAt 20 20 = .ok names ∧ ∃ s ∈ names, t.text? 14 = some s.name := by
  have h : SourceTree.ofEvents [.start (.collection .list) 0,
      .token (.token .symbol) "let" ⟨1, 4⟩, .start (.collection .vector) 5,
      .start (.collection .vector) 6, .token (.token .symbol) "a" ⟨7, 8⟩,
      .token (.token .symbol) "&" ⟨9, 10⟩, .token (.token .symbol) "b" ⟨11, 12⟩, .finish 13 true,
      .token (.token .symbol) "x" ⟨14, 15⟩, .token (.token .symbol) "c" ⟨16, 17⟩,
      .finish 18 true, .token (.token .symbol) "b" ⟨19, 20⟩, .finish 21 true] = .ok _ := rfl
  refine ⟨_, h, by decide +kernel, ⟨4, by decide +kernel, by decide +kernel⟩,
    by decide +kernel, by decide +kernel, by decide +kernel, ?_⟩
  have hplace : BindingPlace.letBinding ≠ .definitionName := by decide
  obtain ⟨vector, list, -, hunique, hbody⟩ := ofEvents_visibleInBody h
    (show SourceTree.bindingPlace? _ 14 = _ by decide +kernel) hplace
  -- the climb leads from the symbol to the inner vector, and ends at the outer one
  obtain ⟨rfl, rfl⟩ := hunique 6 2 .letBinding ⟨by decide +kernel, by decide +kernel, 8,
    .single ⟨by decide +kernel, .inr ⟨by decide +kernel, by decide +kernel⟩⟩,
    by decide +kernel, by decide +kernel⟩
  exact hbody (.inr ⟨4, by decide +kernel, by decide +kernel⟩) 20 20 (by decide +kernel)
    (by decide +kernel) (by decide +kernel)

end PhelAssist
