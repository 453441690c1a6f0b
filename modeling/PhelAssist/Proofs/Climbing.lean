import Mathlib.Logic.Relation
import PhelAssist.Proofs.Causality

namespace PhelAssist.SourceTree

/-- Whether the climb from a pattern goes on to the collection around it: always to a map, and to a
vector if that leaves the decision to what lies around it. -/
def GoesOn (t : SourceTree) (current container : Nat) : Prop :=
  t.container? current = some container ∧
    (t.HasKind container (.collection .map) ∨
      t.HasKind container (.collection .vector) ∧ t.vectorVerdict container current = .outward)

/-- `pattern` is `symbol`, or a pattern around it that the climb comes to. -/
def ClimbsTo (t : SourceTree) (symbol pattern : Nat) : Prop :=
  Relation.ReflTransGen t.GoesOn symbol pattern

/-- The climb from a symbol ends at `vector`, an element of `list`, and there the symbol turns out
to be bound. -/
structure DecidedAt (t : SourceTree) (symbol vector list : Nat) (place : BindingPlace) : Prop where
  isVector : t.HasKind vector (.collection .vector)
  inList : t.container? vector = some list
  decides : ∃ current, t.ClimbsTo symbol current ∧ t.container? current = some vector ∧
    t.vectorVerdict vector current = .decided (some place)

/-- A list that defines its second element, by its operator. -/
structure DefinedAt (t : SourceTree) (symbol list : Nat) : Prop where
  inList : t.container? symbol = some list
  isList : t.HasKind list (.collection .list)
  second : (t.elementAround? list symbol).any (·.1 = 1) = true
  operator : t.OperatorIn list Words.definition

variable {t : SourceTree} {symbol vector list : Nat} {place : BindingPlace}

/-- What a vector that decides goes by. -/
theorem vectorVerdict_cases {current : Nat} {answer : Option BindingPlace}
    (h : t.vectorVerdict vector current = .decided answer) :
    ∃ list, t.container? vector = some list ∧ t.HasKind list (.collection .list) ∧
      (t.parameters? list = some vector ∧ answer = some .parameter ∨
        t.vectorAfterHead? list = some vector ∧ ∃ index e,
          t.elementAround? vector current = some (index, e) ∧
          (t.OperatorIn list Words.letLike ∧
              answer = (if index % 2 = 0 then some .letBinding else none) ∨
            t.OperatorIn list Words.loopLike ∧
              answer = if index + 1 < (t.elements vector).length then some .letBinding
                else none)) := by
  unfold vectorVerdict at h
  split at h
  · cases h
  · next list hlist =>
    refine ⟨list, hlist, ?_⟩
    split at h
    · cases h
    · next hkind =>
      refine ⟨Decidable.of_not_not hkind, ?_⟩
      split at h
      · next hparams => exact .inl ⟨hparams, (Verdict.decided.inj h).symm⟩
      · split at h
        · cases h
        · next hvector =>
          refine .inr ⟨Decidable.of_not_not hvector, ?_⟩
          split at h
          · cases h
          · next index e haround =>
            refine ⟨index, e, haround, ?_⟩
            split at h
            · next hop => exact .inl ⟨hop, (Verdict.decided.inj h).symm⟩
            · split at h
              · next hop => exact .inr ⟨hop, (Verdict.decided.inj h).symm⟩
              · cases h

theorem vectorVerdict_of_not_list {current : Nat} (hlist : t.container? vector = some list)
    (hkind : ¬ t.HasKind list (.collection .list)) :
    t.vectorVerdict vector current = .outward := by
  simp [vectorVerdict, hlist, hkind]

theorem GoesOn.placeFrom {current container : Nat} (h : t.GoesOn current container) :
    t.placeFrom symbol current = t.placeFrom symbol container := by
  obtain ⟨hcontainer, hkind⟩ := h
  rw [SourceTree.placeFrom]
  split
  · next hnone => simp [hcontainer] at hnone
  · next c hc =>
    obtain rfl : container = c := Option.some.inj (hcontainer.symm.trans hc)
    rcases hkind with hmap | ⟨hvector, hverdict⟩
    · rw [show t.kind? container = _ from hmap]
    · rw [show t.kind? container = _ from hvector, hverdict]

theorem ClimbsTo.placeFrom {pattern : Nat} (h : t.ClimbsTo symbol pattern) :
    t.placeFrom symbol symbol = t.placeFrom symbol pattern := by
  induction h with
  | refl => rfl
  | tail _ hstep ih => exact ih.trans hstep.placeFrom

theorem placeFrom_of_decided {current : Nat} {answer : Option BindingPlace}
    (hcontainer : t.container? current = some vector)
    (hkind : t.HasKind vector (.collection .vector))
    (hverdict : t.vectorVerdict vector current = .decided answer) :
    t.placeFrom symbol current = answer := by
  rw [placeFrom]
  split
  · next hnone => simp [hcontainer] at hnone
  · next c hc =>
    obtain rfl : vector = c := Option.some.inj (hcontainer.symm.trans hc)
    rw [show t.kind? vector = _ from hkind, hverdict]

/-- How a climb can find that a symbol is bound: by a list that defines it, by a vector, or further
out. -/
theorem placeFrom_cases {current : Nat} (h : t.placeFrom symbol current = some place) :
    (place = .definitionName ∧ ∃ list, t.DefinedAt symbol list) ∨
      (∃ vector, t.container? current = some vector ∧ t.HasKind vector (.collection .vector) ∧
        t.vectorVerdict vector current = .decided (some place)) ∨
      ∃ container, t.GoesOn current container ∧ t.placeFrom symbol container = some place := by
  rw [placeFrom] at h
  split at h
  · cases h
  · next container hcontainer =>
    split at h
    · next hkind =>
      split at h
      · next hdefines =>
        obtain ⟨rfl, hsecond, hoperator⟩ := hdefines
        exact .inl ⟨(Option.some.inj h).symm, container, hcontainer, hkind, hsecond, hoperator⟩
      · cases h
    · next hkind =>
      split at h
      · next answer hverdict => exact .inr (.inl ⟨container, hcontainer, hkind, h ▸ hverdict⟩)
      · next hverdict =>
        exact .inr (.inr ⟨container, ⟨hcontainer, .inr ⟨hkind, hverdict⟩⟩, h⟩)
    · next hkind => exact .inr (.inr ⟨container, ⟨hcontainer, .inl hkind⟩, h⟩)
    · cases h

theorem DecidedAt.placeFrom (h : t.DecidedAt symbol vector list place) :
    t.placeFrom symbol symbol = some place := by
  obtain ⟨current, hclimb, hcontainer, hverdict⟩ := h.decides
  rw [hclimb.placeFrom]
  exact placeFrom_of_decided hcontainer h.isVector hverdict

/-- A climb that finds a parameter or a binding ends at a vector. -/
theorem ClimbsTo.exists_decidedAt {pattern : Nat} (hclimb : t.ClimbsTo symbol pattern)
    (h : t.placeFrom symbol pattern = some place) (hplace : place ≠ .definitionName) :
    ∃ vector list, t.DecidedAt symbol vector list place := by
  -- the climb goes to smaller ids
  induction pattern using Nat.strongRecOn with
  | _ pattern ih =>
    rcases placeFrom_cases h with ⟨hname, -⟩ | ⟨vector, hcontainer, hkind, hverdict⟩ |
      ⟨container, hstep, h⟩
    · exact absurd hname hplace
    · obtain ⟨list, hlist, -⟩ := vectorVerdict_cases hverdict
      exact ⟨vector, list, hkind, hlist, pattern, hclimb, hcontainer, hverdict⟩
    · exact ih container (container?_lt hstep.1) (hclimb.tail hstep) h

theorem exists_definedAt {current : Nat} (h : t.placeFrom symbol current = some .definitionName) :
    ∃ list, t.DefinedAt symbol list := by
  induction current using Nat.strongRecOn with
  | _ current ih =>
    rcases placeFrom_cases h with ⟨-, hdefined⟩ | ⟨vector, -, -, hverdict⟩ | ⟨container, hstep, h⟩
    · exact hdefined
    · -- a vector never decides that a symbol is defined
      obtain ⟨list, -, -, ⟨-, hanswer⟩ | ⟨-, index, e, -, hanswer⟩⟩ := vectorVerdict_cases hverdict
      · cases hanswer
      · rcases hanswer with ⟨-, hanswer⟩ | ⟨-, hanswer⟩
        all_goals
          split at hanswer
          all_goals cases hanswer
    · exact ih container (container?_lt hstep.1) h

theorem goesOn_rightUnique (t : SourceTree) : Relator.RightUnique t.GoesOn := by
  intro current a b ha hb
  exact Option.some.inj (ha.1.symm.trans hb.1)

/-- A climb ends below a vector that decides. -/
theorem not_goesOn_of_decided {current : Nat} {answer : Option BindingPlace}
    (hcontainer : t.container? current = some vector)
    (hkind : t.HasKind vector (.collection .vector))
    (hverdict : t.vectorVerdict vector current = .decided answer) (next : Nat) :
    ¬ t.GoesOn current next := by
  intro hstep
  obtain rfl : vector = next := Option.some.inj (hcontainer.symm.trans hstep.1)
  rcases hstep.2 with hmap | ⟨-, houtward⟩
  · cases hkind.unique hmap
  · cases hverdict.symm.trans houtward

/-- There is at most one vector that decides about a symbol. -/
theorem DecidedAt.unique {vector' list' : Nat} {place' : BindingPlace}
    (h : t.DecidedAt symbol vector list place) (h' : t.DecidedAt symbol vector' list' place') :
    vector' = vector ∧ list' = list := by
  obtain ⟨current, hclimb, hcontainer, hverdict⟩ := h.decides
  obtain ⟨current', hclimb', hcontainer', hverdict'⟩ := h'.decides
  -- of two climbs from one symbol, one goes on from where the other has ended
  have hsame : current' = current := by
    rcases Relation.ReflTransGen.total_of_right_unique t.goesOn_rightUnique hclimb hclimb' with
      hon | hon
    · rcases hon.cases_head with heq | ⟨d, hstep, -⟩
      · exact heq.symm
      · exact absurd hstep (not_goesOn_of_decided hcontainer h.isVector hverdict d)
    · rcases hon.cases_head with heq | ⟨d, hstep, -⟩
      · exact heq
      · exact absurd hstep (not_goesOn_of_decided hcontainer' h'.isVector hverdict' d)
  subst hsame
  obtain rfl : vector' = vector := Option.some.inj (hcontainer'.symm.trans hcontainer)
  exact ⟨rfl, Option.some.inj (h'.inList.symm.trans h.inList)⟩

/-- A symbol is bound as a parameter or by a pair exactly if some vector decides so. -/
theorem bindingPlace?_eq_some_iff (hplace : place ≠ .definitionName) :
    t.bindingPlace? symbol = some place ↔
      t.HasKind symbol (.token .symbol) ∧ t.text? symbol ≠ some Words.restSign ∧
        ∃ vector list, t.DecidedAt symbol vector list place := by
  unfold bindingPlace?
  split
  · next hsymbol =>
    constructor
    · intro h
      have hstart : t.ClimbsTo symbol symbol := Relation.ReflTransGen.refl
      exact ⟨hsymbol.1, hsymbol.2, hstart.exists_decidedAt h hplace⟩
    · rintro ⟨-, -, vector, list, hdecided⟩
      exact hdecided.placeFrom
  · next hsymbol =>
    constructor
    · intro h
      cases h
    · rintro ⟨hkind, htext, -⟩
      exact absurd ⟨hkind, htext⟩ hsymbol

theorem isWithin_of_container? {e p : Nat} (h : t.container? e = some p) : t.IsWithin e p := by
  obtain ⟨form, hform, h⟩ := Option.bind_eq_some_iff.1 h
  split at h
  · exact .inr ((mem_ancestors_iff hform).2 (.inr ((mem_ancestors_iff h).2 (.inl rfl))))
  · cases h

theorem ClimbsTo.isWithin {pattern : Nat} (h : t.ClimbsTo symbol pattern) :
    t.IsWithin symbol pattern := by
  induction h with
  | refl => exact .inl rfl
  | tail _ hstep ih => exact ih.trans (isWithin_of_container? hstep.1)

theorem DecidedAt.isWithin (h : t.DecidedAt symbol vector list place) :
    t.IsWithin symbol vector := by
  obtain ⟨current, hclimb, hcontainer, -⟩ := h.decides
  exact hclimb.isWithin.trans (isWithin_of_container? hcontainer)

theorem DecidedAt.isList (h : t.DecidedAt symbol vector list place) :
    t.HasKind list (.collection .list) := by
  obtain ⟨_, -, -, hverdict⟩ := h.decides
  obtain ⟨list', hlist', hkind, -⟩ := vectorVerdict_cases hverdict
  rwa [← Option.some.inj (hlist'.symm.trans h.inList)]

theorem enclosingList?_of_parent {c p : Nat} (hp : t.parent? c = some p) :
    t.enclosingList? c =
      if t.HasKind p (.collection .list) then some p else t.enclosingList? p := by
  simp only [enclosingList?, ancestorOfKind?, ancestors_eq_cons hp, List.find?_cons]
  split
  · next h => rw [if_pos (by simpa using h)]
  · next h => rw [if_neg (by simpa using h)]

namespace Sound

theorem enclosingList?_of_container (ht : t.Sound) {e p : Nat} (h : t.container? e = some p) :
    t.enclosingList? e =
      if t.HasKind p (.collection .list) then some p else t.enclosingList? p := by
  obtain ⟨form, -, hform, hparent, hp⟩ := ht.container?_eq_some_iff.1 h
  have hnot : ¬ t.HasKind form (.collection .list) := fun hlist => by cases hform.unique hlist
  rw [enclosingList?_of_parent hparent, if_neg hnot, enclosingList?_of_parent hp]

theorem enclosingList?_of_climb (ht : t.Sound) {pattern : Nat} (h : t.ClimbsTo symbol pattern) :
    t.enclosingList? symbol = t.enclosingList? pattern := by
  induction h with
  | refl => rfl
  | tail _ hstep ih =>
    rw [ih, ht.enclosingList?_of_container hstep.1, if_neg]
    intro hlist
    rcases hstep.2 with hmap | ⟨hvector, -⟩
    · cases hlist.unique hmap
    · cases hlist.unique hvector

/-- A symbol is bound by the form right around the vector: no list stands between. -/
theorem enclosingList?_of_decidedAt (ht : t.Sound) (h : t.DecidedAt symbol vector list place) :
    t.enclosingList? symbol = some list := by
  obtain ⟨current, hclimb, hcontainer, -⟩ := h.decides
  have hnot : ¬ t.HasKind vector (.collection .list) := fun hlist => by
    cases h.isVector.unique hlist
  rw [ht.enclosingList?_of_climb hclimb, ht.enclosingList?_of_container hcontainer, if_neg hnot,
    ht.enclosingList?_of_container h.inList, if_pos h.isList]

end Sound

end PhelAssist.SourceTree
