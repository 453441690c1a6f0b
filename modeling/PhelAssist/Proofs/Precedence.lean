import PhelAssist.Proofs.Feeding
import PhelAssist.Proofs.Shadowing

namespace PhelAssist

namespace VisibleName

/-- `s` is the last symbol of its name in the innermost group that has the name, with all that comes
before it and all that comes behind it. -/
def Prevails (groups : List (List VisibleName)) (earlier : List VisibleName) (s : VisibleName)
    (later : List VisibleName) : Prop :=
  ∃ inner before behind outer, groups = inner ++ (before ++ s :: behind) :: outer ∧
    earlier = inner.flatten ++ before ∧ later = behind ++ outer.flatten ∧
    s.name ∉ inner.flatten.map (·.name) ∧ s.name ∉ behind.map (·.name)

/-- `names` has every name of the groups once, and for each the symbol that prevails, where it
stands in the groups. -/
structure KeepsInnermost (groups : List (List VisibleName)) (names : List VisibleName) : Prop where
  distinct : (names.map (·.name)).Nodup
  inOrder : names.Sublist groups.flatten
  kept : ∀ name ∈ groups.flatten.map (·.name), ∃ earlier s later,
    s.name = name ∧ Prevails groups earlier s later ∧
      ∃ l r, names = l ++ s :: r ∧ l.Sublist earlier ∧ r.Sublist later

/-- The symbol that prevails is found from inside outwards, and in its group from the end. -/
theorem exists_prevails {groups : List (List VisibleName)} {name : String}
    (h : name ∈ groups.flatten.map (·.name)) :
    ∃ earlier s later, s.name = name ∧ Prevails groups earlier s later := by
  have hgroup : ∃ group ∈ groups, name ∈ group.map (·.name) := by
    obtain ⟨s, hs, rfl⟩ := List.mem_map.1 h
    obtain ⟨group, hgroup, hs⟩ := List.mem_flatten.1 hs
    exact ⟨group, hgroup, List.mem_map_of_mem hs⟩
  have hfirst : (groups.find? fun g => name ∈ g.map (·.name)).isSome := by
    simpa [List.find?_isSome] using hgroup
  obtain ⟨group, hfind⟩ := Option.isSome_iff_exists.1 hfirst
  obtain ⟨hname, inner, outer, hgroups, hinner⟩ := List.find?_eq_some_iff_append.1 hfind
  have hlast : (group.reverse.find? fun s => s.name = name).isSome := by
    simpa [List.find?_isSome] using hname
  obtain ⟨s, hfind⟩ := Option.isSome_iff_exists.1 hlast
  obtain ⟨hs, behind, before, hreverse, hbehind⟩ := List.find?_eq_some_iff_append.1 hfind
  have hsplit : group = before.reverse ++ s :: behind.reverse := by
    rw [← List.reverse_reverse group, hreverse]
    simp
  obtain rfl : s.name = name := by simpa using hs
  refine ⟨_, s, _, rfl, inner, before.reverse, behind.reverse, outer, ?_, rfl, rfl, ?_, ?_⟩
  · rw [hgroups, hsplit]
  · simpa using hinner
  · simpa using hbehind

theorem lastOfEach_append_cons {taken : List String} {s : VisibleName}
    (before : List VisibleName) {behind : List VisibleName} (hfree : s.name ∉ taken)
    (hbehind : s.name ∉ behind.map (·.name)) :
    ∃ l, lastOfEach taken (before ++ s :: behind) = l ++ s :: lastOfEach taken behind ∧
      l.Sublist before := by
  induction before with
  | nil =>
    refine ⟨[], ?_, .slnil⟩
    rw [List.nil_append, lastOfEach, if_neg (not_or.2 ⟨hfree, hbehind⟩), List.nil_append]
  | cons first before ih =>
    obtain ⟨l, hl, hsub⟩ := ih
    rw [List.cons_append, lastOfEach]
    split
    · exact ⟨l, hl, hsub.cons first⟩
    · exact ⟨first :: l, by rw [hl, List.cons_append], hsub.cons_cons first⟩

theorem joinScopes_append (taken : List String) (inner outer : List (List VisibleName)) :
    joinScopes taken (inner ++ outer) =
      joinScopes taken inner ++ joinScopes (taken ++ inner.flatten.map (·.name)) outer := by
  induction inner generalizing taken with
  | nil => simp [joinScopes]
  | cons group inner ih => simp [joinScopes, ih]

theorem joinScopes_sublist (taken : List String) (groups : List (List VisibleName)) :
    (joinScopes taken groups).Sublist groups.flatten := by
  induction groups generalizing taken with
  | nil => exact .slnil
  | cons group groups ih =>
    rw [joinScopes, List.flatten_cons]
    exact (lastOfEach_sublist taken group).append (ih _)

/-- The symbol that prevails stays, between what is left of the symbols before it and of those
behind it. -/
theorem Prevails.exists_split {groups : List (List VisibleName)} {earlier later : List VisibleName}
    {s : VisibleName} (h : Prevails groups earlier s later) :
    ∃ l r, joinScopes [] groups = l ++ s :: r ∧ l.Sublist earlier ∧ r.Sublist later := by
  obtain ⟨inner, before, behind, outer, rfl, rfl, rfl, hinner, hbehind⟩ := h
  have hjoin := joinScopes_append [] inner ((before ++ s :: behind) :: outer)
  rw [List.nil_append, joinScopes] at hjoin
  obtain ⟨l, hl, hsub⟩ := lastOfEach_append_cons before hinner hbehind
  rw [hl, List.append_assoc, List.cons_append, ← List.append_assoc] at hjoin
  refine ⟨_, _, hjoin, ?_, ?_⟩
  · exact (joinScopes_sublist _ _).append hsub
  · exact (lastOfEach_sublist _ _).append (joinScopes_sublist _ _)

theorem keepsInnermost_mergeScopes (groups : List (List VisibleName)) :
    KeepsInnermost groups (mergeScopes groups) := by
  rw [mergeScopes_eq_joinScopes]
  refine ⟨(nodup_joinScopes [] groups).1, joinScopes_sublist [] groups, ?_⟩
  intro name hname
  obtain ⟨earlier, s, later, hs, hprevails⟩ := exists_prevails hname
  exact ⟨earlier, s, later, hs, hprevails, hprevails.exists_split⟩

end VisibleName

/-- Joining groups of bindings keeps each name once, in order, and of each name the last symbol in
the innermost group that has it. So the names visible at a node of any tree are the innermost ones:
the groups are those of the node, of the nodes above it from the innermost outwards, and of the
file. -/
theorem keepsInnermost_visibleAt :
    (∀ groups, VisibleName.KeepsInnermost groups (VisibleName.mergeScopes groups)) ∧
      ∀ (t : SourceTree) (element offset : Nat), t.Contains element →
        ∃ names, t.visibleAt element offset = .ok names ∧ VisibleName.KeepsInnermost
          ((element :: t.ancestors element).map (t.scopeBindings element offset) ++
            [t.fileDefinitions element offset]) names := by
  refine ⟨VisibleName.keepsInnermost_mergeScopes, ?_⟩
  intro t element offset helement
  have hnames := VisibleName.keepsInnermost_mergeScopes
    ((element :: t.ancestors element).map (t.scopeBindings element offset) ++
      [t.fileDefinitions element offset])
  exact ⟨_, by rw [SourceTree.visibleAt, if_pos helement], hnames⟩

/-- A name that is a parameter and is bound twice by pairs, next to one that is not hidden. -/
theorem keepsInnermost_visibleAt_twice :
    ∃ forms t names, read "(fn [x y] (let [x 1 x 2] x))" = .ok forms ∧
      SourceTree.ofData forms = .ok t ∧ t.Contains 26 ∧ t.visibleAt 26 26 = .ok names ∧
      names.map (·.node) = [22, 10] ∧ VisibleName.KeepsInnermost
        ((26 :: t.ancestors 26).map (t.scopeBindings 26 26) ++ [t.fileDefinitions 26 26])
        names := by
  have hread : read "(fn [x y] (let [x 1 x 2] x))" = .ok [.group .list ⟨0, 28⟩ true [
      .token .symbol ⟨1, 3⟩ "fn",
      .group .vector ⟨4, 9⟩ true [.token .symbol ⟨5, 6⟩ "x", .token .symbol ⟨7, 8⟩ "y"],
      .group .list ⟨10, 27⟩ true [.token .symbol ⟨11, 14⟩ "let",
        .group .vector ⟨15, 24⟩ true [.token .symbol ⟨16, 17⟩ "x", .token .literal ⟨18, 19⟩ "1",
          .token .symbol ⟨20, 21⟩ "x", .token .literal ⟨22, 23⟩ "2"],
        .token .symbol ⟨25, 26⟩ "x"]]] := rfl
  obtain ⟨t, htree, -⟩ := read_ofText hread
  have hcontains : t.Contains 26 := by
    obtain rfl := Except.ok.inj htree
    decide +kernel
  obtain ⟨names, hnames, hkeeps⟩ := keepsInnermost_visibleAt.2 t 26 26 hcontains
  have hnodes : names.map (·.node) = [22, 10] := by
    obtain rfl := Except.ok.inj htree
    obtain rfl := Except.ok.inj hnames
    decide +kernel
  exact ⟨_, t, names, hread, htree, hcontains, hnames, hnodes, hkeeps⟩

end PhelAssist
