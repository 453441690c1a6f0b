import PhelAssist.Scope.Visible

namespace PhelAssist

/-- Whether a binding belongs to a form around the cursor, and not to the whole file. -/
def Binding.isLocal : Binding → Bool
  | parameter | letBinding => true
  | definition _ => false

namespace VisibleName

/-- Of each name the last symbol of a group, unless the name is already taken. -/
def lastOfEach (taken : List String) : List VisibleName → List VisibleName
  | [] => []
  | s :: rest =>
    if s.name ∈ taken ∨ s.name ∈ rest.map (·.name) then lastOfEach taken rest
    else s :: lastOfEach taken rest

/-- Joins groups of bindings, the innermost first, with the rule for what stays written out: a later
binding of a group hides an earlier one of its name, and an inner group an outer one. -/
def joinScopes (taken : List String) : List (List VisibleName) → List VisibleName
  | [] => []
  | group :: groups =>
    lastOfEach taken group ++ joinScopes (taken ++ group.map (·.name)) groups

theorem lastOfEach_congr {taken taken' : List String} (h : ∀ name, name ∈ taken ↔ name ∈ taken')
    (group : List VisibleName) : lastOfEach taken group = lastOfEach taken' group := by
  induction group with
  | nil => rfl
  | cons s rest ih => simp only [lastOfEach, h, ih]

/-- Only which names are taken matters, not how often or in which order. -/
theorem joinScopes_congr {taken taken' : List String} (h : ∀ name, name ∈ taken ↔ name ∈ taken')
    (groups : List (List VisibleName)) : joinScopes taken groups = joinScopes taken' groups := by
  induction groups generalizing taken taken' with
  | nil => rfl
  | cons group groups ih =>
    have hnext : ∀ name, name ∈ taken ++ group.map (·.name) ↔
        name ∈ taken' ++ group.map (·.name) := by
      intro name
      rw [List.mem_append, List.mem_append, h]
    rw [joinScopes, joinScopes, lastOfEach_congr h, ih hnext]

namespace Scan

theorem mem_seen_meet (scan : Scan) (s : VisibleName) (name : String) :
    name ∈ (scan.meet s).seen ↔ name = s.name ∨ name ∈ scan.seen := by
  unfold meet
  split
  · next hold =>
    constructor
    · exact .inr
    · intro h
      obtain rfl | h := h
      · exact hold
      · exact h
  · exact List.mem_cons

/-- When a symbol is met on the way from the end of its group, the names that have been seen are the
old ones and those of all symbols behind it. So the last symbol of each new name is accepted. -/
theorem foldl_meet_reverse (seen : List String) (group : List VisibleName) :
    (∀ name, name ∈ (group.reverse.foldl meet ⟨seen, []⟩).seen ↔
      name ∈ seen ∨ name ∈ group.map (·.name)) ∧
    (group.reverse.foldl meet ⟨seen, []⟩).accepted.reverse = lastOfEach seen group := by
  simp only [List.foldl_reverse]
  induction group with
  | nil => simp [lastOfEach]
  | cons s rest ih =>
    obtain ⟨hseen, haccepted⟩ := ih
    refine ⟨?_, ?_⟩
    · intro name
      rw [List.foldr_cons, mem_seen_meet, hseen, List.map_cons, List.mem_cons]
      exact or_left_comm
    · rw [List.foldr_cons, lastOfEach, meet]
      simp only [hseen s.name]
      split
      · exact haccepted
      · rw [List.reverse_append, haccepted]
        rfl

/-- What has been accepted is followed by what the groups ahead leave of the names not yet seen. -/
theorem foldl_join (scan : Scan) (groups : List (List VisibleName)) :
    (groups.foldl join scan).accepted = scan.accepted ++ joinScopes scan.seen groups := by
  induction groups generalizing scan with
  | nil => simp [joinScopes]
  | cons group groups ih =>
    obtain ⟨hseen, haccepted⟩ := foldl_meet_reverse scan.seen group
    have hnext : ∀ name, name ∈ (scan.join group).seen ↔
        name ∈ scan.seen ++ group.map (·.name) := by
      intro name
      rw [List.mem_append]
      exact hseen name
    rw [List.foldl_cons, ih, joinScopes_congr hnext, joinScopes, ← List.append_assoc, ← haccepted]
    rfl

end Scan

theorem mergeScopes_eq_joinScopes (groups : List (List VisibleName)) :
    mergeScopes groups = joinScopes [] groups :=
  Scan.foldl_join ⟨[], []⟩ groups

theorem lastOfEach_sublist (taken : List String) (group : List VisibleName) :
    (lastOfEach taken group).Sublist group := by
  induction group with
  | nil => exact .slnil
  | cons s rest ih =>
    unfold lastOfEach
    split
    · exact ih.cons s
    · exact ih.cons_cons s

theorem nodup_lastOfEach (taken : List String) (group : List VisibleName) :
    ((lastOfEach taken group).map (·.name)).Nodup ∧
      ∀ s ∈ lastOfEach taken group, s.name ∉ taken := by
  induction group with
  | nil => simp [lastOfEach]
  | cons s rest ih =>
    unfold lastOfEach
    split
    · exact ih
    · next h =>
      obtain ⟨htaken, hrest⟩ := not_or.1 h
      have hsub := (lastOfEach_sublist taken rest).map (·.name)
      refine ⟨List.nodup_cons.2 ⟨fun hmem => hrest (hsub.subset hmem), ih.1⟩, ?_⟩
      exact List.forall_mem_cons.2 ⟨htaken, ih.2⟩

/-- Each name is visible once. -/
theorem nodup_joinScopes (taken : List String) (groups : List (List VisibleName)) :
    ((joinScopes taken groups).map (·.name)).Nodup ∧
      ∀ s ∈ joinScopes taken groups, s.name ∉ taken := by
  induction groups generalizing taken with
  | nil => simp [joinScopes]
  | cons group groups ih =>
    obtain ⟨hnodup, hfree⟩ := nodup_lastOfEach taken group
    obtain ⟨hnodup', hfree'⟩ := ih (taken ++ group.map (·.name))
    simp only [List.mem_append, not_or] at hfree'
    simp only [joinScopes, List.map_append]
    refine ⟨List.nodup_append.2 ⟨hnodup, hnodup', ?_⟩, fun s hs => ?_⟩
    · -- what an outer group adds is not taken, so it is in no inner group
      intro a ha c hc hac
      obtain ⟨s, hs, rfl⟩ := List.mem_map.1 hc
      have hmem := ((lastOfEach_sublist taken group).map (·.name)).subset ha
      exact (hfree' s hs).2 (hac ▸ hmem)
    · rcases List.mem_append.1 hs with hs | hs
      · exact hfree s hs
      · exact (hfree' s hs).1

theorem joinScopes_nil_cons (taken : List String) (groups : List (List VisibleName)) :
    joinScopes taken ([] :: groups) = joinScopes taken groups := by
  simp [joinScopes, lastOfEach]

/-- Where an outermost group holds all that is not local, the locals are what the other groups
give. -/
theorem filter_joinScopes (taken : List String) {groups : List (List VisibleName)}
    {outermost : List VisibleName}
    (hlocal : ∀ group ∈ groups, ∀ s ∈ group, s.binding.isLocal = true)
    (hglobal : ∀ s ∈ outermost, s.binding.isLocal = false) :
    (joinScopes taken (groups ++ [outermost])).filter (·.binding.isLocal) =
      joinScopes taken groups := by
  induction groups generalizing taken with
  | nil =>
    simp only [List.nil_append, joinScopes, List.append_nil, List.filter_eq_nil_iff]
    intro s hs
    simp [hglobal s ((lastOfEach_sublist taken outermost).subset hs)]
  | cons group groups ih =>
    obtain ⟨hgroup, hgroups⟩ := List.forall_mem_cons.1 hlocal
    simp only [List.cons_append, joinScopes, List.filter_append, ih _ hgroups]
    congr 1
    refine List.filter_eq_self.2 fun s hs => ?_
    exact hgroup s ((lastOfEach_sublist taken group).subset hs)

end VisibleName

namespace SourceTree

variable {t : SourceTree} {element offset : Nat}

theorem visibleAt_of_contains (h : t.Contains element) (offset : Nat) :
    t.visibleAt element offset = .ok (VisibleName.joinScopes []
      ((element :: t.ancestors element).map (t.scopeBindings element offset) ++
        [t.fileDefinitions element offset])) := by
  rw [visibleAt, if_pos h, VisibleName.mergeScopes_eq_joinScopes]

theorem exists_visibleAt_of_contains (h : t.Contains element) (offset : Nat) :
    ∃ names, t.visibleAt element offset = .ok names := by
  exact ⟨_, visibleAt_of_contains h offset⟩

theorem eq_of_visibleAt {names : List VisibleName} (h : t.visibleAt element offset = .ok names) :
    names = VisibleName.joinScopes []
      ((element :: t.ancestors element).map (t.scopeBindings element offset) ++
        [t.fileDefinitions element offset]) := by
  have hcontains : t.Contains element := by
    refine Decidable.of_not_not fun hmissing => ?_
    simp [visibleAt, hmissing] at h
  exact Except.ok.inj (h.symm.trans (visibleAt_of_contains hcontains offset))

theorem nodup_visibleAt {names : List VisibleName}
    (h : t.visibleAt element offset = .ok names) : (names.map (·.name)).Nodup := by
  rw [eq_of_visibleAt h]
  exact (VisibleName.nodup_joinScopes _ _).1

theorem binding_of_mem_namesBoundBy {patterns : List Nat} {binding : Binding} {form : String}
    {s : VisibleName} (h : s ∈ t.namesBoundBy patterns binding form) : s.binding = binding := by
  obtain ⟨symbol, -, hs⟩ := List.mem_filterMap.1 h
  split at hs
  · split at hs
    · contradiction
    · obtain rfl := Option.some.inj hs
      rfl
  · contradiction

theorem isLocal_of_mem_scopeBindings {scope : Nat} {s : VisibleName}
    (h : s ∈ t.scopeBindings element offset scope) : s.binding.isLocal = true := by
  have hlocal : ∀ patterns form binding, binding = .parameter ∨ binding = .letBinding →
      s ∈ t.namesBoundBy patterns binding form → s.binding.isLocal = true := by
    rintro patterns form binding (rfl | rfl) hs <;> rw [binding_of_mem_namesBoundBy hs] <;> rfl
  unfold scopeBindings at h
  split at h
  · exact nomatch h
  · split at h
    · split at h
      · exact hlocal _ _ _ (.inl rfl) h
      · exact nomatch h
    · split at h
      · exact nomatch h
      · simp only at h
        split at h
        · exact hlocal _ _ _ (.inr rfl) h
        · split at h
          · exact hlocal _ _ _ (.inr rfl) h
          · exact nomatch h

/-- What a form of the file defines, if the cursor is not on the name. -/
theorem definition?_eq_some_iff {form : Nat} {s : VisibleName} :
    t.definition? element form = some s ↔
      t.operator? form = some s.form ∧ s.form ∈ Words.definition ∧
        (t.elements form)[1]? = some s.node ∧ t.HasKind s.node (.token .symbol) ∧
        s.node ≠ element ∧ t.text? s.node = some s.name ∧
        s.binding = .definition (.ofOperator (some s.form)) := by
  simp only [definition?, Option.bind_eq_bind, Option.bind_eq_some_iff]
  constructor
  · intro h
    obtain ⟨operator, hoperator, symbol, hsymbol, name, hname, hs⟩ := h
    split at hs
    · next hdefines =>
      obtain rfl := Option.some.inj hs
      exact ⟨hoperator, hdefines.1, hsymbol, hdefines.2.2, hdefines.2.1, hname, rfl⟩
    · contradiction
  · intro h
    obtain ⟨hoperator, hword, hsymbol, hkind, hother, hname, hbinding⟩ := h
    refine ⟨s.form, hoperator, s.node, hsymbol, s.name, hname, ?_⟩
    rw [if_pos ⟨hword, hother, hkind⟩, ← hbinding]

theorem mem_fileDefinitions_iff {s : VisibleName} :
    s ∈ t.fileDefinitions element offset ↔
      ∃ form ∈ t.elements root, (∃ span ∈ t.span? form, span.start < offset) ∧
        t.definition? element form = some s := by
  simp only [fileDefinitions, List.mem_filterMap, List.mem_filter, Option.any_eq_true,
    decide_eq_true_eq, and_assoc]
  rfl

theorem isLocal_of_mem_fileDefinitions {s : VisibleName}
    (h : s ∈ t.fileDefinitions element offset) : s.binding.isLocal = false := by
  obtain ⟨form, -, -, hdefines⟩ := mem_fileDefinitions_iff.1 h
  obtain ⟨-, -, -, -, -, -, hbinding⟩ := definition?_eq_some_iff.1 hdefines
  rw [hbinding]
  rfl

end SourceTree
end PhelAssist
