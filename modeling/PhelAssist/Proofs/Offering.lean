import PhelAssist.Assistant
import PhelAssist.Proofs.Enclosure
import PhelAssist.Proofs.Shadowing

namespace PhelAssist

namespace SourceTree.OfText

variable {t : SourceTree} {length : Nat}

/-- A cursor that was found on the tree of a text fits the tree: spans lie in each other there. -/
theorem check_ofOffset (ht : t.OfText length) (offset : Nat) :
    (Cursor.ofOffset t offset).check t = .ok () := by
  apply (ht.sound.check_ofOffset offset).1
  intro hoverrun
  obtain ⟨a, ha, c, outer, inner, hkind, houter, hinner, hcovers⟩ := hoverrun
  obtain ⟨g, hg, hgk⟩ := face?_of_kind? hkind
  obtain rfl : g.span = outer := Option.some.inj ((span?_of_face? hg).symm.trans houter)
  have howns : t.Owns (t.nodeAt offset) offset := by
    rcases descend_eq_or_owns t root offset with h | h
    · rw [nodeAt, h] at ha
      simp [ancestors_root] at ha
    · exact h
  obtain ⟨f, hf, hfe⟩ := element_of_owns howns
  obtain rfl : f.span = inner := Option.some.inj ((span?_of_face? hf).symm.trans hinner)
  obtain ⟨hstart, hstop⟩ := ht.spaced.inside a _ g f ha hg hf (by simp [Face.IsElement, hgk]) hfe
  exact hcovers ⟨Nat.le_of_lt hstart, (hstop List.not_mem_nil).1⟩

end SourceTree.OfText

namespace Candidate

theorem firstOfName_eq_self {taken : List String} {symbols : List VisibleName}
    (hnodup : (symbols.map (·.name)).Nodup) (hfree : ∀ s ∈ symbols, s.name ∉ taken) :
    firstOfName taken symbols = symbols := by
  induction symbols generalizing taken with
  | nil => rfl
  | cons s rest ih =>
    obtain ⟨hs, hrest⟩ := List.nodup_cons.1 hnodup
    obtain ⟨hfirst, hothers⟩ := List.forall_mem_cons.1 hfree
    rw [firstOfName, if_neg hfirst, ih hrest]
    intro r hr
    rw [List.mem_cons, not_or]
    exact ⟨fun heq => hs (List.mem_map.2 ⟨r, hr, heq⟩), hothers r hr⟩

theorem firstOfEach_subset (taken : List (Option String × String)) (candidates : List Candidate) :
    firstOfEach taken candidates ⊆ candidates := by
  induction candidates generalizing taken with
  | nil => simp [firstOfEach]
  | cons c rest ih =>
    unfold firstOfEach
    split
    · exact fun x hx => List.mem_cons_of_mem _ (ih _ hx)
    · exact List.cons_subset_cons c (ih _)

theorem mem_of_mem_rank {c : Candidate} {candidates : List Candidate} (h : c ∈ rank candidates) :
    c ∈ candidates := by
  rw [rank, List.mem_mergeSort] at h
  exact (List.mem_filter.1 (firstOfEach_subset _ _ h)).1

theorem origin_of_mem_ofCatalog {c : Candidate} {catalog : Catalog} (h : c ∈ ofCatalog catalog) :
    c.origin = .library := by
  obtain ⟨e, -, rfl⟩ := List.mem_map.1 (mem_of_mem_rank h)
  rfl

theorem origin_of_mem_starters {c : Candidate} (h : c ∈ starters) : c.origin = .starter := by
  obtain ⟨i, hi, rfl⟩ := List.mem_mapIdx.1 h
  rfl

end Candidate

namespace SourceTree.OfText

variable {t : SourceTree} {length : Nat}

theorem completionsAt_of_not_enclosed (ht : t.OfText length) (catalog : Catalog) {offset : Nat}
    (h : ¬ t.IsEnclosed offset) :
    ((Assistant.lexical catalog).completionsAt t offset).value = Candidate.starters := by
  have hsituation : (Cursor.ofOffset t offset).situation = .newForm := by
    simp [Cursor.situation, (ht.startsForm_iff offset).2 h]
  simp [Assistant.completionsAt, Assistant.complete, Candidate.offer, ht.check_ofOffset,
    hsituation]

theorem completionsAt_of_enclosed (ht : t.OfText length) (catalog : Catalog) {offset : Nat}
    (h : t.IsEnclosed offset) :
    ∃ names, t.visibleAt (t.nodeAt offset) offset = .ok names ∧
      ((Assistant.lexical catalog).completionsAt t offset).value =
        names.map Candidate.ofVisible ++ Candidate.ofCatalog catalog := by
  have hsituation : (Cursor.ofOffset t offset).situation = .insideForm := by
    simp [Cursor.situation, mt (ht.startsForm_iff offset).1 (not_not_intro h)]
  obtain ⟨names, hnames⟩ := exists_visibleAt_of_contains (t.contains_nodeAt offset) offset
  refine ⟨names, hnames, ?_⟩
  have hlocals : Candidate.locals Analyzer.lexical t (Cursor.ofOffset t offset) =
      .quiet (names.map Candidate.ofVisible) := by
    simp [Candidate.locals, Analyzer.lexical, Cursor.ofOffset, hnames, Except.mapError,
      Candidate.firstOfName_eq_self (nodup_visibleAt hnames)]
  simp [Assistant.completionsAt, Assistant.complete, Assistant.lexical, Candidate.offer,
    ht.check_ofOffset, hsituation, hlocals]

end SourceTree.OfText

/-- What completion offers at a cursor of a tree. It never reports a failure. Outside of all
collections it offers the forms to start with; inside it offers the names in scope, each once, and
then the ranked functions of the namespaces that are offered. -/
structure SourceTree.OffersInOrder (t : SourceTree) (catalog : Catalog) (offset : Nat) : Prop where
  unfailing : ∀ c ∈ ((Assistant.lexical catalog).completionsAt t offset).value,
    c.origin ≠ .failure
  outside : ¬ t.IsEnclosed offset →
    ((Assistant.lexical catalog).completionsAt t offset).value = Candidate.starters
  inside : t.IsEnclosed offset → ∃ names locals,
    t.visibleAt (t.nodeAt offset) offset = .ok names ∧ locals = names.map Candidate.ofVisible ∧
    (∀ c ∈ locals, ∃ binding, c.origin = .bound binding) ∧ (locals.map (·.label)).Nodup ∧
    ((Assistant.lexical catalog).completionsAt t offset).value =
      locals ++ Candidate.rank
        ((Candidate.offeredNamespaces.flatMap catalog.inNamespace).map Candidate.ofEntry)

/-- Completion answers on the tree of every text that can be read, with any catalog, and wherever
the cursor is. -/
theorem read_offersInOrder {source : String} {forms : List Datum} (h : read source = .ok forms)
    (catalog : Catalog) (offset : Nat) :
    ∃ t, SourceTree.ofData forms = .ok t ∧ t.OffersInOrder catalog offset := by
  obtain ⟨t, hdata, ht⟩ := read_ofText h
  refine ⟨t, hdata, fun c hc => ?_, ht.completionsAt_of_not_enclosed catalog, fun henclosed => ?_⟩
  · by_cases henclosed : t.IsEnclosed offset
    · obtain ⟨names, -, hvalue⟩ := ht.completionsAt_of_enclosed catalog henclosed
      rw [hvalue] at hc
      rcases List.mem_append.1 hc with hc | hc
      · obtain ⟨s, -, rfl⟩ := List.mem_map.1 hc
        simp [Candidate.ofVisible]
      · simp [Candidate.origin_of_mem_ofCatalog hc]
    · rw [ht.completionsAt_of_not_enclosed catalog henclosed] at hc
      simp [Candidate.origin_of_mem_starters hc]
  · obtain ⟨names, hnames, hvalue⟩ := ht.completionsAt_of_enclosed catalog henclosed
    refine ⟨names, _, hnames, rfl, fun c hc => ?_, ?_, hvalue⟩
    · obtain ⟨s, -, rfl⟩ := List.mem_map.1 hc
      exact ⟨s.binding, rfl⟩
    · rw [List.map_map]
      exact SourceTree.nodup_visibleAt hnames

/-- A cursor at the end of a list that nothing closes, where a local shadows another one and bears
the name of a function of the library. The functions of `core` come before the one of `str`, which
was loaded first and has the highest priority. -/
theorem read_offersInOrder_shadowed :
    let catalog := Catalog.ofList [⟨"len", "str", "(len s)", "length", 9⟩,
      ⟨"map", "core", "(map f xs)", "maps", 0⟩, ⟨"x", "core", "(x)", "ex", 0⟩]
    read "(fn [x] (let [x 1] x" = .ok [.group .list ⟨0, 20⟩ false [.token .symbol ⟨1, 3⟩ "fn",
      .group .vector ⟨4, 7⟩ true [.token .symbol ⟨5, 6⟩ "x"],
      .group .list ⟨8, 20⟩ false [.token .symbol ⟨9, 12⟩ "let",
        .group .vector ⟨13, 18⟩ true [.token .symbol ⟨14, 15⟩ "x", .token .literal ⟨16, 17⟩ "1"],
        .token .symbol ⟨19, 20⟩ "x"]]] ∧
    ∃ t, SourceTree.ofData [.group .list ⟨0, 20⟩ false [.token .symbol ⟨1, 3⟩ "fn",
      .group .vector ⟨4, 7⟩ true [.token .symbol ⟨5, 6⟩ "x"],
      .group .list ⟨8, 20⟩ false [.token .symbol ⟨9, 12⟩ "let",
        .group .vector ⟨13, 18⟩ true [.token .symbol ⟨14, 15⟩ "x", .token .literal ⟨16, 17⟩ "1"],
        .token .symbol ⟨19, 20⟩ "x"]]] = .ok t ∧
      (((Assistant.lexical catalog).completionsAt t 20).value.map fun c => (c.ns, c.label)) =
        [(none, "x"), (some "core", "map"), (some "core", "x"), (some "str", "len")] ∧
      t.OffersInOrder catalog 20 := by
  intro catalog
  have h : read "(fn [x] (let [x 1] x" = .ok [.group .list ⟨0, 20⟩ false [
      .token .symbol ⟨1, 3⟩ "fn", .group .vector ⟨4, 7⟩ true [.token .symbol ⟨5, 6⟩ "x"],
      .group .list ⟨8, 20⟩ false [.token .symbol ⟨9, 12⟩ "let",
        .group .vector ⟨13, 18⟩ true [.token .symbol ⟨14, 15⟩ "x", .token .literal ⟨16, 17⟩ "1"],
        .token .symbol ⟨19, 20⟩ "x"]]] := rfl
  obtain ⟨t, htree, hoffers⟩ := read_offersInOrder h catalog 20
  have hfacts : (t.HasKind 2 (.collection .list) ∧ t.Owns 2 20) ∧ t.nodeAt 20 = 20 := by
    obtain rfl := Except.ok.inj htree
    decide +kernel
  obtain ⟨names, locals, hnames, rfl, -, -, hvalue⟩ := hoffers.inside ⟨2, .list, hfacts.1⟩
  rw [hfacts.2] at hnames
  have hbound : (names.map Candidate.ofVisible).map (fun c => (c.ns, c.label)) =
      [(none, "x")] := by
    obtain rfl := Except.ok.inj htree
    obtain rfl := Except.ok.inj hnames
    decide +kernel
  have hlibrary : Candidate.ofCatalog catalog =
      [.ofEntry ⟨"map", "core", "(map f xs)", "maps", 0⟩, .ofEntry ⟨"x", "core", "(x)", "ex", 0⟩,
        .ofEntry ⟨"len", "str", "(len s)", "length", 9⟩] := by
    rw [Candidate.ofCatalog, Candidate.rank, List.mergeSort_of_pairwise (by decide +kernel)]
    decide +kernel
  refine ⟨h, t, htree, ?_, hoffers⟩
  rw [hvalue, ← Candidate.ofCatalog, hlibrary, List.map_append, hbound]
  rfl

end PhelAssist
