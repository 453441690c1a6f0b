import PhelAssist.Proofs.Agreement

namespace PhelAssist

/-- The words that bind symbols at such a place. -/
def BindingPlace.words : BindingPlace → List String
  | parameter => Words.function
  | letBinding => Words.letLike ++ Words.loopLike
  | definitionName => Words.definition

namespace SourceTree

variable {t : SourceTree} {symbol vector list outer : Nat} {place : BindingPlace}
  {words : List String}

/-- Whether the first element of a list is itself a symbol, and one of the given words. -/
def OpensWith (t : SourceTree) (list : Nat) (words : List String) : Prop :=
  ∃ head ∈ (t.elements list).head?, t.HasKind head (.token .symbol) ∧
    ∃ word ∈ t.text? head, word ∈ words

instance (list : Nat) (words : List String) : Decidable (t.OpensWith list words) :=
  inferInstanceAs (Decidable (∃ head ∈ (t.elements list).head?, _))

/-- The list at which it turns out that a symbol is bound. -/
inductive BoundIn (t : SourceTree) (symbol list : Nat) : BindingPlace → Prop
  | defined (h : t.DefinedAt symbol list) : BoundIn t symbol list .definitionName
  | decided {vector : Nat} {place : BindingPlace} (h : t.DecidedAt symbol vector list place) :
      BoundIn t symbol list place

/-- An arity of a function form, with a symbol in its parameters: a list that starts with the vector
around the symbol, and is an element of a list that opens with a function word. -/
def IsArityOf (t : SourceTree) (symbol list : Nat) : Prop :=
  (∃ first ∈ (t.elements list).head?, t.HasKind first (.collection .vector) ∧
    t.IsWithin symbol first) ∧
  ∃ outer ∈ t.container? list, t.HasKind outer (.collection .list) ∧
    t.OpensWith outer Words.function

instance (symbol list : Nat) : Decidable (t.IsArityOf symbol list) :=
  inferInstanceAs (Decidable ((∃ first ∈ (t.elements list).head?, _) ∧
    ∃ outer ∈ t.container? list, _))

/-- A list that has the form to bind a symbol at such a place: it opens with a word that does so, or
is an arity with the symbol among its parameters. -/
def BindsByForm (t : SourceTree) (symbol list : Nat) (place : BindingPlace) : Prop :=
  t.OpensWith list place.words ∨ place = .parameter ∧ t.IsArityOf symbol list

instance (symbol list : Nat) (place : BindingPlace) : Decidable (t.BindsByForm symbol list place) :=
  inferInstanceAs (Decidable (_ ∨ _))

/-- The list by whose operator a list binds: itself, or else the list around it. -/
def governor? (t : SourceTree) (list : Nat) (place : BindingPlace) : Option Nat :=
  if t.OperatorIn list place.words then some list else t.container? list

namespace Sound

theorem symbolsIn_symbol (ht : t.Sound) (h : t.HasKind symbol (.token .symbol)) :
    t.symbolsIn symbol = [symbol] := by
  have hchildren : t.children symbol = [] := by
    apply List.eq_nil_iff_forall_not_mem.2
    intro c hc
    have hword := ht.inner c symbol ((ht.mem_children symbol c).1 hc) _ h
    simp [NodeKind.isWord] at hword
  rw [symbolsIn, descendants_eq, hchildren]
  simp [h]

/-- A list that starts with a symbol has that symbol as its operator. -/
theorem operator?_of_head (ht : t.Sound) (hk : t.HasKind list (.collection .list)) {head : Nat}
    (hfirst : (t.elements list).head? = some head) (hhead : t.HasKind head (.token .symbol)) :
    t.operator? list = t.text? head := by
  simp [ht.operator?_eq hk, hfirst, ht.symbolsIn_symbol hhead]

theorem opensWith_iff (ht : t.Sound) (hk : t.HasKind list (.collection .list)) :
    t.OpensWith list words ↔ t.StartsWithSymbol list ∧ t.OperatorIn list words := by
  constructor
  · intro h
    obtain ⟨head, hfirst, hhead, hword⟩ := h
    have hoperator := ht.operator?_of_head hk hfirst hhead
    refine ⟨⟨head, hfirst, hhead⟩, ?_⟩
    rwa [OperatorIn, hoperator]
  · intro h
    obtain ⟨⟨head, hfirst, hhead⟩, hoperator⟩ := h
    refine ⟨head, hfirst, hhead, ?_⟩
    rwa [OperatorIn, ht.operator?_of_head hk hfirst hhead] at hoperator

/-- A list that binds by its own operator has the form to do so exactly if its first element is that
operator. -/
theorem bindsByForm_iff (ht : t.Sound) (hk : t.HasKind list (.collection .list))
    (hoperator : t.OperatorIn list place.words)
    (hnot : place = .parameter → ¬ t.IsArityOf symbol list) :
    t.BindsByForm symbol list place ↔ t.StartsWithSymbol list := by
  rw [BindsByForm, ht.opensWith_iff hk]
  constructor
  · intro h
    rcases h with h | ⟨hplace, harity⟩
    · exact h.1
    · exact absurd harity (hnot hplace)
  · intro h
    exact .inl ⟨h, hoperator⟩

/-- An arity has the form to bind its parameters exactly if the first element of the list around it
is the operator of that list. -/
theorem bindsByForm_arity_iff (ht : t.Sound) (hfirst : (t.elements list).head? = some vector)
    (hvector : t.HasKind vector (.collection .vector)) (hsymbol : t.IsWithin symbol vector)
    (houter : t.container? list = some outer) (hoperator : t.OperatorIn outer Words.function) :
    t.BindsByForm symbol list .parameter ↔ t.StartsWithSymbol outer := by
  obtain ⟨word, hword, -⟩ := id hoperator
  have hk := isList_of_operator? hword
  constructor
  · intro h
    rcases h with ⟨head, hhead, hkind, -⟩ | ⟨-, -, outer', houter', -, hopens⟩
    · obtain rfl : vector = head := Option.some.inj (hfirst.symm.trans hhead)
      cases hkind.unique hvector
    · obtain rfl : outer = outer' := Option.some.inj (houter.symm.trans houter')
      exact ((ht.opensWith_iff hk).1 hopens).1
  · intro h
    refine .inr ⟨rfl, ⟨vector, hfirst, hvector, hsymbol⟩, outer, houter, hk, ?_⟩
    exact (ht.opensWith_iff hk).2 ⟨h, hoperator⟩

/-- The first vector after the head of a list comes behind the head. -/
theorem head_lt_vectorAfterHead (ht : t.Sound) (hk : t.HasKind list (.collection .list))
    {first : Nat} (hfirst : (t.elements list).head? = some first)
    (hvector : t.vectorAfterHead? list = some vector) : first < vector := by
  have htail := (mem_of_vectorAfterHead? hvector).1
  have hsorted := ht.pairwise_elements hk rfl
  cases helements : t.elements list with
  | nil => simp [helements] at hfirst
  | cons head rest =>
    obtain rfl : head = first := by simpa [helements] using hfirst
    rw [helements] at htail hsorted
    exact (List.pairwise_cons.1 hsorted).1 vector htail

/-- A symbol in a later vector of a list is not in a vector that the list starts with. -/
theorem not_isArityOf (ht : t.Sound) (hk : t.HasKind list (.collection .list))
    (hvector : t.vectorAfterHead? list = some vector) (hsymbol : t.IsWithin symbol vector) :
    ¬ t.IsArityOf symbol list := by
  intro h
  obtain ⟨⟨first, hfirst, -, hin⟩, -⟩ := h
  have hlt := ht.head_lt_vectorAfterHead hk hfirst hvector
  have hmem : ∀ {e}, e ∈ t.elements list → t.container? e = some list :=
    fun he => (ht.mem_elements_iff hk rfl).1 he
  have heq := ht.eq_of_isWithin (hmem (List.mem_of_head? hfirst))
    (hmem (List.mem_of_mem_tail (mem_of_vectorAfterHead? hvector).1)) hin hsymbol
  exact Nat.ne_of_lt hlt heq

theorem exists_governor_of_own (ht : t.Sound) (hk : t.HasKind list (.collection .list))
    (hoperator : t.OperatorIn list place.words)
    (hnot : place = .parameter → ¬ t.IsArityOf symbol list) :
    ∃ form, t.governor? list place = some form ∧ t.OperatorIn form place.words ∧
      (t.BindsByForm symbol list place ↔ t.StartsWithSymbol form) :=
  ⟨list, if_pos hoperator, hoperator, ht.bindsByForm_iff hk hoperator hnot⟩

theorem exists_governor_of_decidedAt (ht : t.Sound) (h : t.DecidedAt symbol vector list place) :
    ∃ form, t.governor? list place = some form ∧ t.OperatorIn form place.words ∧
      (t.BindsByForm symbol list place ↔ t.StartsWithSymbol form) := by
  have hk := h.isList
  obtain ⟨current, -, -, hverdict⟩ := h.decides
  obtain ⟨list', hlist, -, hcases⟩ := vectorVerdict_cases hverdict
  obtain rfl : list' = list := Option.some.inj (hlist.symm.trans h.inList)
  rcases hcases with ⟨hparams, hplace⟩ | ⟨-, index, e, -, hanswer⟩
  · obtain rfl : place = .parameter := Option.some.inj hplace
    rcases parameters?_cases hparams with ⟨hown, hvector⟩ | ⟨hown, hfirst, hvector, outer, houter, hop⟩
    · exact ht.exists_governor_of_own hk hown fun _ => ht.not_isArityOf hk hvector h.isWithin
    · have hgovernor : t.governor? list' .parameter = some outer := (if_neg hown).trans houter
      exact ⟨outer, hgovernor, hop, ht.bindsByForm_arity_iff hfirst hvector h.isWithin houter hop⟩
  · have hlet : place = .letBinding ∧ t.OperatorIn list' (Words.letLike ++ Words.loopLike) := by
      rcases hanswer with ⟨hop, hplace⟩ | ⟨hop, hplace⟩
      · split at hplace
        · exact ⟨Option.some.inj hplace, hop.mono (List.subset_append_left _ _)⟩
        · cases hplace
      · split at hplace
        · exact ⟨Option.some.inj hplace, hop.mono (List.subset_append_right _ _)⟩
        · cases hplace
    obtain ⟨rfl, hop⟩ := hlet
    exact ht.exists_governor_of_own hk hop (by simp)

/-- Where a symbol is bound, with the form by whose operator it is. -/
theorem exists_governor (ht : t.Sound) (h : t.bindingPlace? symbol = some place) :
    ∃ list form, t.BoundIn symbol list place ∧ t.enclosingList? symbol = some list ∧
      t.governor? list place = some form ∧ t.OperatorIn form place.words ∧
      (t.BindsByForm symbol list place ↔ t.StartsWithSymbol form) := by
  by_cases hname : place = .definitionName
  · subst hname
    unfold bindingPlace? at h
    split at h
    · obtain ⟨list, hdefined⟩ := exists_definedAt h
      obtain ⟨form, hform⟩ : ∃ form, t.governor? list .definitionName = some form ∧ _ :=
        ht.exists_governor_of_own hdefined.isList hdefined.operator (by simp)
      refine ⟨list, form, .defined hdefined, ?_, hform⟩
      rw [ht.enclosingList?_of_container hdefined.inList, if_pos hdefined.isList]
    · cases h
  · obtain ⟨-, -, vector, list, hdecided⟩ := (bindingPlace?_eq_some_iff hname).1 h
    obtain ⟨form, hform⟩ := ht.exists_governor_of_decidedAt hdecided
    exact ⟨list, form, .decided hdecided, ht.enclosingList?_of_decidedAt hdecided, hform⟩

end Sound

end SourceTree

/-- A symbol is bound in the innermost list around it, by the first symbol in the first element of a
list: of this list or, if this list is an arity, of the list around it. That word is one that binds.
But it may stand deep in the first element, as in a call of a function that is written out in its
place; the list has the form to bind the symbol exactly if the first element is the word itself. -/
theorem read_bindingPlace_byForm {source : String} {forms : List Datum}
    (h : read source = .ok forms) :
    ∃ t, SourceTree.ofData forms = .ok t ∧ ∀ symbol place,
      t.bindingPlace? symbol = some place →
        ∃ list form, t.BoundIn symbol list place ∧ t.enclosingList? symbol = some list ∧
          t.governor? list place = some form ∧ t.OperatorIn form place.words ∧
          (t.BindsByForm symbol list place ↔ t.StartsWithSymbol form) := by
  obtain ⟨t, htree, ht⟩ := read_ofText h
  exact ⟨t, htree, fun symbol place hplace => ht.sound.exists_governor hplace⟩

/-- A parameter deep in the second arity of a function. -/
theorem read_bindingPlace_byForm_arity :
    ∃ forms t, read "(defn f ([a] a) ([b \x7b:k [c]\x7d] c))" = .ok forms ∧
      SourceTree.ofData forms = .ok t ∧ t.bindingPlace? 28 = some .parameter ∧
      ∃ list form, t.BoundIn 28 list .parameter ∧ t.enclosingList? 28 = some list ∧
        t.governor? list .parameter = some form ∧
        t.OperatorIn form BindingPlace.parameter.words ∧
        (t.BindsByForm 28 list .parameter ↔ t.StartsWithSymbol form) := by
  have hread : read "(defn f ([a] a) ([b \x7b:k [c]\x7d] c))" = .ok [.group .list ⟨0, 33⟩ true [
      .token .symbol ⟨1, 5⟩ "defn", .token .symbol ⟨6, 7⟩ "f",
      .group .list ⟨8, 15⟩ true [.group .vector ⟨9, 12⟩ true [.token .symbol ⟨10, 11⟩ "a"],
        .token .symbol ⟨13, 14⟩ "a"],
      .group .list ⟨16, 32⟩ true [
        .group .vector ⟨17, 29⟩ true [.token .symbol ⟨18, 19⟩ "b",
          .group .map ⟨20, 28⟩ true [.token .keyword ⟨21, 23⟩ ":k",
            .group .vector ⟨24, 27⟩ true [.token .symbol ⟨25, 26⟩ "c"]]],
        .token .symbol ⟨30, 31⟩ "c"]]] := rfl
  obtain ⟨t, htree, hbound⟩ := read_bindingPlace_byForm hread
  have hplace : t.bindingPlace? 28 = some .parameter := by
    obtain rfl := Except.ok.inj htree
    decide +kernel
  exact ⟨_, t, hread, htree, hplace, hbound 28 .parameter hplace⟩

/-- The argument of a function that is written out in its place counts as a parameter, though the
call has not the form to bind any. -/
theorem read_bindingPlace_applied :
    ∃ forms t, read "((fn [x] x) [a b])" = .ok forms ∧ SourceTree.ofData forms = .ok t ∧
      t.bindingPlace? 16 = some .parameter ∧ t.BoundIn 16 2 .parameter ∧
      t.enclosingList? 16 = some 2 ∧ ¬ t.BindsByForm 16 2 .parameter := by
  have hread : read "((fn [x] x) [a b])" = .ok [.group .list ⟨0, 18⟩ true [
      .group .list ⟨1, 11⟩ true [.token .symbol ⟨2, 4⟩ "fn",
        .group .vector ⟨5, 8⟩ true [.token .symbol ⟨6, 7⟩ "x"], .token .symbol ⟨9, 10⟩ "x"],
      .group .vector ⟨12, 17⟩ true [.token .symbol ⟨13, 14⟩ "a",
        .token .symbol ⟨15, 16⟩ "b"]]] := rfl
  refine ⟨_, _, hread, rfl, by decide +kernel, ?_, by decide +kernel, by decide +kernel⟩
  exact @SourceTree.BoundIn.decided _ 16 2 14 .parameter ⟨by decide +kernel, by decide +kernel, 16,
    .refl, by decide +kernel, by decide +kernel⟩

end PhelAssist
