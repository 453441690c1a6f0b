import PhelAssist.Proofs.Causality
import PhelAssist.Proofs.Strings

namespace PhelAssist

namespace SourceTree

/-- Forms and the file bring nothing into scope, so the groups of names around a node that stands
innermost are those of the nodes that stand in each other. -/
theorem Sound.joinScopes_lineage {t : SourceTree} (ht : t.Sound) {ids : List Nat}
    (hids : t.StandInEachOther ids) {group : Nat → List VisibleName}
    (hgroup : ∀ i, t.HasKind i .form ∨ t.HasKind i .file → group i = []) (taken : List String) :
    VisibleName.joinScopes taken ((ids.headD root :: t.ancestors (ids.headD root)).map group) =
      VisibleName.joinScopes taken (ids.map group) := by
  induction ids generalizing taken with
  | nil =>
    simp [ancestors_root, hgroup root (.inr ht.file), VisibleName.joinScopes_nil_cons]
  | cons x rest ih =>
    obtain ⟨form, hform, hanc⟩ := ht.ancestors_eq hids.1
    rw [List.headD_cons, hanc, List.map_cons, List.map_cons, hgroup form (.inl hform),
      VisibleName.joinScopes, VisibleName.joinScopes_nil_cons, ih hids.2, List.map_cons,
      VisibleName.joinScopes]

end SourceTree

namespace PartialTree

open SourceTree

variable {b : PartialTree} {t : SourceTree} {offset length : Nat}

theorem Spaced.innermost_eq_of_le (hb : b.Spaced offset) {p : Nat}
    (hp : p = root ∨ p ∈ b.openIds) (hlast : ∀ i ∈ b.openIds, i ≤ p) : b.innermost = p := by
  have hchain := hb.tree.chain
  cases hids : b.openIds with
  | nil =>
    rw [innermost_eq, hids]
    exact (hp.resolve_right (by simp [hids])).symm
  | cons x rest =>
    have hinner : b.innermost = x := by simp [innermost_eq, hids]
    have hle := hlast x (by simp [hids])
    rw [hids] at hchain
    have hpos := container?_lt hchain.1
    rcases hp with rfl | hp
    · exact absurd hle (Nat.not_le.2 (Nat.lt_of_le_of_lt (Nat.zero_le _) hpos))
    · rcases hb.mem_lineage hp with heq | hmem
      · exact heq.symm
      · have := lt_of_mem_ancestors hmem
        omega

namespace GrowsInto

theorem isWithin_of_open (h : b.GrowsInto offset t length) {i : Nat} (hi : i ∈ b.openIds) :
    ∃ c, t.HasKind i (.collection c) ∧ t.IsWithin (t.nodeAt offset) i := by
  obtain ⟨c, hc⟩ := h.past.kind_of_open hi
  have hk := h.hasKind hc
  exact ⟨c, hk, (h.whole.isWithin_nodeAt_iff hk).2 ((h.owns_iff hk).2 hi)⟩

/-- The innermost node at the cursor is the innermost open one, or a word in it. -/
theorem nodeAt_cases (h : b.GrowsInto offset t length) :
    t.nodeAt offset = b.innermost ∨
      ∃ k, t.HasKind (t.nodeAt offset) (.token k) ∧
        t.container? (t.nodeAt offset) = some b.innermost := by
  have hle : ∀ i ∈ b.openIds, i ≤ t.nodeAt offset := fun i hi => by
    obtain ⟨c, -, hwithin⟩ := h.isWithin_of_open hi
    exact hwithin.elim (fun heq => heq ▸ Nat.le_refl _)
      fun hmem => Nat.le_of_lt (lt_of_mem_ancestors hmem)
  -- the search ends at the file, at a word, or at a collection
  rcases descend_eq_or_owns t root offset with hroot | howns
  · exact .inl (h.past.innermost_eq_of_le (.inl hroot) hle).symm
  replace howns : t.Owns (t.nodeAt offset) offset := howns
  obtain ⟨f, hf, hfe⟩ := element_of_owns howns
  rcases h.whole.element_kind hf hfe with ⟨k, hk⟩ | ⟨c, hk⟩
  · obtain ⟨p, hp, hpk⟩ := h.whole.exists_container hf hfe
    have hword : t.HasKind (t.nodeAt offset) (.token k) := by rw [HasKind, kind?_of_face? hf, hk]
    refine .inr ⟨k, hword, ?_⟩
    rw [h.past.innermost_eq_of_le (p := p) ?_ fun i hi => ?_, hp]
    · refine hpk.imp id fun hcollection => ?_
      obtain ⟨c, hc⟩ := hcollection
      exact (h.owns_iff hc).1 (h.whole.container_owns hf hfe howns hp hc)
    · obtain ⟨c, hc, hwithin⟩ := h.isWithin_of_open hi
      obtain ⟨form, hform, hanc⟩ := h.whole.sound.ancestors_eq hp
      rcases hwithin with rfl | hmem
      · cases hword.unique hc
      · rw [hanc, List.mem_cons, List.mem_cons] at hmem
        rcases hmem with rfl | rfl | hmem
        · cases hform.unique hc
        · exact Nat.le_refl _
        · exact Nat.le_of_lt (lt_of_mem_ancestors hmem)
  · have hcollection : t.HasKind (t.nodeAt offset) (.collection c) := by
      rw [HasKind, kind?_of_face? hf, hk]
    exact .inl (h.past.innermost_eq_of_le (.inr ((h.owns_iff hcollection).1 howns)) hle).symm

/-- Around the cursor only what the reader has open brings names into scope. -/
theorem joinScopes_around (h : b.GrowsInto offset t length) :
    VisibleName.joinScopes [] ((t.nodeAt offset :: t.ancestors (t.nodeAt offset)).map
        (t.scopeBindings (t.nodeAt offset) offset)) =
      VisibleName.joinScopes [] (b.openIds.map (b.boundSoFar offset)) := by
  have hnone : ∀ i k, t.HasKind i k → k ≠ .collection .list →
      t.scopeBindings (t.nodeAt offset) offset i = [] := fun i k hi hk => by
    have hnot : ¬ t.HasKind i (.collection .list) := fun hlist => hk (hi.unique hlist)
    simp [scopeBindings, hnot]
  have hgroup : ∀ i, t.HasKind i .form ∨ t.HasKind i .file →
      t.scopeBindings (t.nodeAt offset) offset i = [] := by
    rintro i (hi | hi)
    · exact hnone i _ hi (by simp)
    · exact hnone i _ hi (by simp)
  have hchain : t.StandInEachOther b.openIds :=
    h.past.tree.chain.congr fun i hi => h.container?_eq (Spaced.openIds_lt b hi)
  have hinner := h.whole.sound.joinScopes_lineage hchain hgroup []
  rw [← innermost_eq] at hinner
  have hmap : b.openIds.map (b.boundSoFar offset) =
      b.openIds.map (t.scopeBindings (t.nodeAt offset) offset) := by
    refine List.map_congr_left fun i hi => ?_
    obtain ⟨c, hc⟩ := h.past.kind_of_open hi
    by_cases hlist : b.tree.HasKind i (.collection .list)
    · exact (h.scopeBindings_eq_boundSoFar hlist).symm
    · have hne : NodeKind.collection c ≠ .collection .list := fun heq => hlist (heq ▸ hc)
      rw [hnone i _ (h.hasKind hc) hne]
      simp [boundSoFar, bringsIn, hlist]
  rw [hmap, ← hinner]
  rcases h.nodeAt_cases with heq | ⟨k, hword, hcontainer⟩
  · rw [heq]
  · obtain ⟨form, hform, hanc⟩ := h.whole.sound.ancestors_eq hcontainer
    rw [hanc, List.map_cons, List.map_cons, hnone _ _ hword (by simp), hgroup form (.inl hform)]
    simp only [VisibleName.joinScopes_nil_cons]

/-- The locals at a cursor are those that the reader knows of when it comes there. -/
theorem filter_visibleAt (h : b.GrowsInto offset t length) :
    ∃ names, t.visibleAt (t.nodeAt offset) offset = .ok names ∧
      names.filter (·.binding.isLocal) =
        VisibleName.joinScopes [] (b.openIds.map (b.boundSoFar offset)) := by
  refine ⟨_, visibleAt_of_contains (contains_nodeAt t offset) offset, ?_⟩
  rw [VisibleName.filter_joinScopes, h.joinScopes_around]
  · intro group hgroup s hs
    obtain ⟨scope, -, rfl⟩ := List.mem_map.1 hgroup
    exact isLocal_of_mem_scopeBindings hs
  · exact fun s hs => isLocal_of_mem_fileDefinitions hs

end GrowsInto

end PartialTree

theorem read_append {source : String} {before after : List Char} {forms : List Datum}
    (hsource : source.toList = before ++ after) (h : read source = .ok forms) :
    ∃ r, before.foldlM Reader.step .start = .ok r ∧
      (after.foldlM Reader.step r).bind Reader.finish = .ok forms := by
  rw [read, Reader.readChars, hsource, List.foldlM_append] at h
  obtain ⟨r₁, hrun, hfinish⟩ := ok_of_bind_eq_ok h
  obtain ⟨r, hbefore, hafter⟩ := ok_of_bind_eq_ok hrun
  exact ⟨r, hbefore, by rw [hafter]; exact hfinish⟩

/-- Text that can be read can be read up to any place outside of strings. -/
theorem Reader.Fed.exists_finish {r : Reader} {b : PartialTree} (h : r.Fed b) {rest : List Char}
    {forms : List Datum} (hread : (rest.foldlM Reader.step r).bind Reader.finish = .ok forms)
    (hstring : ¬ InsideString forms r.offset) : ∃ forms', r.finish = .ok forms' := by
  cases hmode : r.mode with
  | between => simp [Reader.finish, hmode]
  | comment => simp [Reader.finish, hmode]
  | word start text => simp [Reader.finish, hmode, Nesting.apply, Lexeme.ofWord, Except.map]
  | quoted start text escaped =>
    have hbegun := h.begun
    rw [hmode] at hbegun
    obtain ⟨r', hrun, hfinish⟩ := ok_of_bind_eq_ok hread
    have hsees : r.SeesString r.offset := ⟨Nat.le_refl _, .inl ⟨start, text, escaped, hmode, hbegun⟩⟩
    exact absurd ((hsees.run hrun).insideString hfinish) hstring

/-- Which locals are offered at a cursor depends on the text before the cursor alone: the tree of a
whole text and the tree of the text up to the cursor show the same parameters and bindings, in the
same order. -/
theorem read_cut_visibleAt {source : String} {forms : List Datum} {offset : Nat}
    {before after : List Char} (h : read source = .ok forms)
    (hcut : Text.cut? source.toList offset = some (before, after))
    (hstring : ¬ InsideString forms offset) :
    ∃ t forms' t' names names', SourceTree.ofData forms = .ok t ∧
      read (String.ofList before) = .ok forms' ∧ SourceTree.ofData forms' = .ok t' ∧
      t.visibleAt (t.nodeAt offset) offset = .ok names ∧
      t'.visibleAt (t'.nodeAt offset) offset = .ok names' ∧
      names.filter (·.binding.isLocal) = names'.filter (·.binding.isLocal) := by
  obtain ⟨hsource, hlength⟩ := Text.cut?_eq_some_iff.1 hcut
  obtain ⟨r, hbefore, hafter⟩ := read_append hsource h
  obtain ⟨b, -, -, hfed, hoffset, -⟩ := Reader.fed_start.run hbefore
  obtain rfl : r.offset = offset := by
    rw [hoffset, hlength]
    exact Nat.zero_add offset
  obtain ⟨t, _, ht, hgrows⟩ := hfed.growsInto hafter
  obtain ⟨forms', hforms'⟩ := hfed.exists_finish hafter hstring
  have hnothing : (([] : List Char).foldlM Reader.step r).bind Reader.finish = .ok forms' := hforms'
  obtain ⟨t', _, ht', hgrows'⟩ := hfed.growsInto hnothing
  obtain ⟨names, hnames, hlocals⟩ := hgrows.filter_visibleAt
  obtain ⟨names', hnames', hlocals'⟩ := hgrows'.filter_visibleAt
  refine ⟨t, forms', t', names, names', ht, ?_, ht', hnames, hnames', hlocals.trans hlocals'.symm⟩
  rw [read, Reader.readChars, String.toList_ofList, hbefore]
  exact hforms'

/-- A cursor in a binding vector, in the middle of a list that the rest of the text closes. -/
theorem read_cut_visibleAt_vector :
    ∃ forms, read "(let [x \"a\" y (f x)] y)" = .ok forms ∧ ¬ InsideString forms 16 ∧
      ∃ t forms' t' names names', SourceTree.ofData forms = .ok t ∧
        read "(let [x \"a\" y (f" = .ok forms' ∧ SourceTree.ofData forms' = .ok t' ∧
        t.visibleAt (t.nodeAt 16) 16 = .ok names ∧ t'.visibleAt (t'.nodeAt 16) 16 = .ok names' ∧
        names.filter (·.binding.isLocal) = names'.filter (·.binding.isLocal) := by
  have h : read "(let [x \"a\" y (f x)] y)" = .ok [.group .list ⟨0, 23⟩ true [
      .token .symbol ⟨1, 4⟩ "let", .group .vector ⟨5, 20⟩ true [.token .symbol ⟨6, 7⟩ "x",
        .token .literal ⟨8, 11⟩ "\"a\"", .token .symbol ⟨12, 13⟩ "y",
        .group .list ⟨14, 19⟩ true [.token .symbol ⟨15, 16⟩ "f", .token .symbol ⟨17, 18⟩ "x"]],
      .token .symbol ⟨21, 22⟩ "y"]] := rfl
  have hcut : Text.cut? "(let [x \"a\" y (f x)] y)".toList 16 =
      some ("(let [x \"a\" y (f".toList, " x)] y)".toList) := rfl
  refine ⟨_, h, by decide, ?_⟩
  simpa only [String.ofList_toList] using read_cut_visibleAt h hcut (by decide)

end PhelAssist
