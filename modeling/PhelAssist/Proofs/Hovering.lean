import PhelAssist.Proofs.Cover
import PhelAssist.Proofs.Decoding
import PhelAssist.Proofs.Documenting
import PhelAssist.Proofs.Enclosure
import PhelAssist.Proofs.Positions

namespace PhelAssist

theorem exists_mem_of_mapM_eq_some {α β : Type} {f : α → Option β} {l : List α} {ys : List β}
    (h : l.mapM f = some ys) {a : α} (ha : a ∈ l) : ∃ y ∈ ys, f a = some y := by
  induction l generalizing ys with
  | nil => simp at ha
  | cons x xs ih =>
    simp only [List.mapM_cons, Option.pure_def, Option.bind_eq_bind, Option.bind_eq_some_iff,
      Option.some.injEq] at h
    obtain ⟨y, hy, rest, hrest, rfl⟩ := h
    rcases List.mem_cons.1 ha with rfl | ha
    · exact ⟨y, List.mem_cons_self, hy⟩
    · obtain ⟨z, hz, hfz⟩ := ih hrest ha
      exact ⟨z, List.mem_cons_of_mem y hz, hfz⟩

theorem Datum.nodes_subset {ds : List Datum} {d : Datum} (h : d ∈ ds) : nodes [d] ⊆ nodes ds := by
  obtain ⟨before, after, rfl⟩ := List.append_of_mem h
  intro e he
  simp only [nodes_append, nodes_cons, nodes_nil, List.append_nil, List.mem_append,
    List.mem_cons] at he ⊢
  exact .inr (or_assoc.1 (.inl he))

namespace SourceTree

variable {t : SourceTree} {length offset : Nat}

theorem exists_item {p e : Nat} {c : Collection} (hk : t.HasKind p (.collection c)) {d : Datum}
    (hd : t.datum? p = some d) (he : e ∈ t.elements p) :
    ∃ item ∈ d.items, t.datum? e = some item := by
  obtain ⟨n, hn, hkind⟩ := Option.map_eq_some_iff.1 hk
  cases htext : n.text with
  | some text =>
    rw [datum?] at hd
    simp [hn, hkind, htext] at hd
  | none =>
    rw [datum?_of_collection hn hkind htext] at hd
    obtain ⟨items, hitems, rfl⟩ := Option.map_eq_some_iff.1 hd
    exact exists_mem_of_mapM_eq_some hitems he

/-- Every element of a tree, on whatever level, stands for one of the data that the tree holds. -/
theorem OfText.exists_datum (ht : t.OfText length) {forms : List Datum}
    (hdata : t.data? = some forms) {id : Nat} {k : NodeKind} (hk : t.HasKind id k)
    (hfile : k ≠ .file) (hform : k ≠ .form) :
    ∃ d, t.datum? id = some d ∧ Datum.nodes [d] ⊆ Datum.nodes forms := by
  induction id using Nat.strongRecOn generalizing k with
  | _ id ih =>
    obtain ⟨f, hf, he⟩ := exists_element hk hfile hform
    obtain ⟨p, hp, hroot | ⟨c, hc⟩⟩ := ht.exists_container hf he
    · have hmem := ht.sound.mem_elements_of_container? hp
      rw [hroot] at hmem
      obtain ⟨d, hd, hdatum⟩ := exists_mem_of_mapM_eq_some hdata hmem
      exact ⟨d, hdatum, Datum.nodes_subset hd⟩
    · -- the collection around it stands for a datum, of which it is an item
      have hmem := ht.sound.mem_elements_of_container? hp
      obtain ⟨d, hd, hsubset⟩ := ih p (container?_lt hp) hc (by simp) (by simp)
      obtain ⟨item, hitem, hdatum⟩ := exists_item hc hd hmem
      refine ⟨item, hdatum, ?_⟩
      intro e he
      apply hsubset
      rw [Datum.nodes_cons]
      exact List.mem_cons_of_mem _ (List.mem_append_left _ (Datum.nodes_subset hitem he))

theorem datum?_token {id : Nat} {k : Token} (hk : t.HasKind id (.token k)) {d : Datum}
    (hd : t.datum? id = some d) :
    ∃ span text, t.span? id = some span ∧ t.text? id = some text ∧ d = .token k span text := by
  obtain ⟨n, hn, hkind⟩ := Option.map_eq_some_iff.1 hk
  cases htext : n.text with
  | none =>
    rw [datum?] at hd
    simp [hn, hkind, htext] at hd
  | some text =>
    rw [datum?_of_token hn hkind htext] at hd
    refine ⟨n.span, text, by simp [span?, hn], by simp [text?, hn, htext], ?_⟩
    exact (Option.some.inj hd).symm

end SourceTree

/-- A word among the forms of a text is what stands in the text at its span. -/
theorem slice?_of_token_mem_nodes {source : String} {forms : List Datum}
    (h : read source = .ok forms) {k : Token} {span : Span} {text : String}
    (hd : .token k span text ∈ Datum.nodes forms) :
    Text.slice? source.toList span.start span.stop = some text.toList := by
  obtain ⟨lexemes, n, hlexing, hn, rfl⟩ := read_lexemes h
  have htold := Datum.token_mem_nodes_iff.1 hd
  rw [Nesting.eventsAll_finish_applyAll hn, List.mem_append] at htold
  rcases htold with htold | htold
  · obtain ⟨lex, hlex, hevent⟩ := List.mem_map.1 htold
    have hstands := hlexing.stands lex hlex
    cases lex with
    | token k' span' text' =>
      obtain ⟨-, rfl, rfl⟩ := by simpa [Lexeme.event] using hevent
      exact hstands
    | opening c o => simp [Lexeme.event] at hevent
    | closing c o => simp [Lexeme.event] at hevent
  · have hfinish := List.eq_of_mem_replicate htold
    contradiction

/-- The tree of a text that can be read holds the forms of the text. -/
theorem read_data? {source : String} {forms : List Datum} (h : read source = .ok forms) :
    ∃ t, SourceTree.ofData forms = .ok t ∧ t.OfText (Text.byteLength source.toList) ∧
      t.data? = some forms := by
  obtain ⟨t, hdata, ht⟩ := read_ofText h
  obtain ⟨b, hrun, hfinish⟩ := PartialTree.exists_takes hdata
  exact ⟨t, hdata, ht, ht.sound.data?_eq (PartialTree.events_of_takes hrun hfinish)⟩

namespace SourceTree

variable {t : SourceTree} {length offset : Nat}

/-- No word stands above another node, so a symbol is found only as the innermost node. -/
theorem Linked.nodeAt_of_symbolAt? (ht : t.Linked) {symbol : Nat}
    (h : t.symbolAt? offset = some symbol) : t.nodeAt offset = symbol := by
  unfold symbolAt? at h
  simp only at h
  split at h
  · exact Option.some.inj h
  · have hmem : symbol ∈ t.ancestors (t.nodeAt offset) := List.mem_of_find?_eq_some h
    have hkind : t.HasKind symbol (.token .symbol) := by simpa using List.find?_some h
    obtain ⟨child, hchild⟩ := exists_child_of_mem_ancestors hmem
    have hinner := ht.inner child symbol hchild _ hkind
    contradiction

end SourceTree

/-- What a symbol is that introduces a name, with the operator of the list around it. -/
def BindingPlace.category (operator : Option String) : BindingPlace → Category
  | parameter => .parameter
  | letBinding => .letBinding
  | definitionName => .definition (.ofOperator operator)

/-- Where the shape of forms decides, the place of a symbol is all that matters. -/
theorem definingCategory?_lexical (t : SourceTree) (symbol : Nat) :
    definingCategory? .lexical t symbol = .ok ((t.bindingPlace? symbol).map
      (BindingPlace.category ((t.enclosingList? symbol).bind t.operator?))) := by
  cases hplace : t.bindingPlace? symbol with
  | none =>
    simp only [definingCategory?, Analyzer.lexical, hplace]
    rfl
  | some place =>
    cases place <;> simp only [definingCategory?, Analyzer.lexical, hplace] <;> rfl

/-- The lexical analyzer never breaks off, so every symbol has a description. -/
theorem exists_describe_lexical (catalog : Catalog) {t : SourceTree} {symbol : Nat} {name : String}
    (h : t.symbolText? symbol = some name) :
    ∃ d, describe catalog .lexical t symbol = .ok (some d) := by
  obtain ⟨hkind, htext, -⟩ := SourceTree.symbolText?_eq_some_iff.1 h
  cases hget : catalog.get? name with
  | some entry => exact ⟨_, describe_eq_some_iff.2 ⟨name, h, .inl ⟨entry, hget, rfl⟩⟩⟩
  | none =>
    obtain ⟨c, hc⟩ : ∃ c, categorize catalog .lexical t symbol = .ok c := by
      unfold categorize
      rw [show t.kind? symbol = some (.token .symbol) from hkind, htext, definingCategory?_lexical]
      exact ⟨_, rfl⟩
    exact ⟨_, describe_eq_some_iff.2 ⟨name, h, .inr ⟨c, hget, hc, rfl⟩⟩⟩

theorem Assistant.hoverAt_eq_some_iff {a : Assistant} {t : SourceTree} {offset : Nat}
    {text : Option String} {hover : Hover} :
    (a.hoverAt t offset text).value = some hover ↔
      ∃ symbol d, t.symbolAt? offset = some symbol ∧ a.describeSymbol t symbol = .ok (some d) ∧
        hover = .ofDescription t symbol text d := by
  rw [hoverAt, value_unlessAborted_eq_some_iff]
  cases t.symbolAt? offset with
  | none => simp
  | some symbol =>
    cases hd : a.describeSymbol t symbol with
    | error abort => simp [hd, Except.map]
    | ok d => cases d <;> simp [hd, Except.map, eq_comm]

/-- A symbol of the tree of a text has a name, and its span lies between two boundaries of the
text. -/
theorem read_symbol {source : String} {forms : List Datum} (h : read source = .ok forms)
    {t : SourceTree} (ht : t.OfText (Text.byteLength source.toList))
    (hdata : t.data? = some forms) {symbol : Nat} (hk : t.HasKind symbol (.token .symbol)) :
    ∃ name span, t.symbolText? symbol = some name ∧ t.span? symbol = some span ∧
      Text.IsBoundary source.toList span.start ∧ Text.IsBoundary source.toList span.stop := by
  obtain ⟨d, hd, hsubset⟩ := ht.exists_datum hdata hk (by simp) (by simp)
  obtain ⟨span, name, hspan, hname, rfl⟩ := SourceTree.datum?_token hk hd
  have hslice := slice?_of_token_mem_nodes h (hsubset (Datum.mem_nodes_of_mem List.mem_cons_self))
  obtain ⟨hstart, hstop, -⟩ := Text.isBoundary_of_slice? hslice
  refine ⟨name, span, SourceTree.symbolText?_eq_some_iff.2 ⟨hk, hname, ?_⟩, hspan, hstart, hstop⟩
  -- a word without characters would have an empty span
  rintro rfl
  obtain ⟨f, hf, he⟩ := SourceTree.exists_element hk (by simp) (by simp)
  have hlt := (ht.spaced.ended symbol f hf he List.not_mem_nil).1
  obtain rfl : f.span = span := Option.some.inj ((SourceTree.span?_of_face? hf).symm.trans hspan)
  obtain ⟨a, b, -, -, hsum⟩ := Text.slice?_eq_some_iff.1 hslice
  have hempty : f.span.start = f.span.stop := by simpa using hsum
  omega

/-- A hover shows where there is a symbol and nowhere else. It marks the symbol: the two ends of its
range lead back to the two ends of the symbol, and the cursor is between them. -/
theorem read_hoverAt {source : String} {forms : List Datum} (h : read source = .ok forms)
    (catalog : Catalog) (offset : Nat) :
    ∃ t, SourceTree.ofData forms = .ok t ∧
      (((Assistant.lexical catalog).hoverAt t offset (some source)).value.isSome ↔
        (t.symbolAt? offset).isSome) ∧
      ∀ hover, ((Assistant.lexical catalog).hoverAt t offset (some source)).value = some hover →
        ∃ symbol span start stop, t.symbolAt? offset = some symbol ∧ t.span? symbol = some span ∧
          hover.range = some (start, stop) ∧
          Text.offsetAt? source.toList start = some span.start ∧
          Text.offsetAt? source.toList stop = some span.stop ∧ span.Reaches offset := by
  obtain ⟨t, htree, ht, hdata⟩ := read_data? h
  refine ⟨t, htree, ?_, ?_⟩
  · constructor
    · intro hsome
      obtain ⟨hover, hhover⟩ := Option.isSome_iff_exists.1 hsome
      obtain ⟨symbol, d, hsymbol, -⟩ := Assistant.hoverAt_eq_some_iff.1 hhover
      rw [hsymbol]
      rfl
    · intro hsome
      obtain ⟨symbol, hsymbol⟩ := Option.isSome_iff_exists.1 hsome
      have hk := SourceTree.hasKind_of_symbolAt? hsymbol
      obtain ⟨name, span, hname, -⟩ := read_symbol h ht hdata hk
      obtain ⟨d, hd⟩ : ∃ d, (Assistant.lexical catalog).describeSymbol t symbol = .ok (some d) :=
        exists_describe_lexical catalog hname
      rw [Assistant.hoverAt_eq_some_iff.2 ⟨symbol, d, hsymbol, hd, rfl⟩]
      rfl
  · intro hover hhover
    obtain ⟨symbol, d, hsymbol, -, rfl⟩ := Assistant.hoverAt_eq_some_iff.1 hhover
    have hk := SourceTree.hasKind_of_symbolAt? hsymbol
    obtain ⟨name, span, -, hspan, hstart, hstop⟩ := read_symbol h ht hdata hk
    obtain ⟨start, stop, hrange, hback, hback'⟩ := Text.exists_rangeOf? hstart hstop
    have hnode := ht.sound.nodeAt_of_symbolAt? hsymbol
    have hreaches : span.Reaches offset := ht.nodeAt_reaches (hnode ▸ hk) (hnode ▸ hspan)
    refine ⟨symbol, span, start, stop, hsymbol, hspan, ?_, hback, hback', hreaches⟩
    simp [Hover.ofDescription, hspan, hrange]

/-- A cursor behind a word outside ASCII, on the second line of a text whose break is two
characters. Both words of the text are functions of the library. -/
theorem read_hoverAt_secondLine :
    let catalog := Catalog.ofList [⟨"é", "core", "(é x)", "one", 0⟩,
      ⟨"ünï", "str", "(ünï)", "two", 0⟩]
    read "(é\r\n ünï" = .ok [.group .list ⟨0, 11⟩ false [.token .symbol ⟨1, 3⟩ "é",
      .token .symbol ⟨6, 11⟩ "ünï"]] ∧
    ∃ t, SourceTree.ofData [.group .list ⟨0, 11⟩ false [.token .symbol ⟨1, 3⟩ "é",
      .token .symbol ⟨6, 11⟩ "ünï"]] = .ok t ∧
      ((Assistant.lexical catalog).hoverAt t 11 (some "(é\r\n ünï")).value.map (·.range) =
        some (some (⟨1, 1⟩, ⟨1, 4⟩)) ∧
      (((Assistant.lexical catalog).hoverAt t 11 (some "(é\r\n ünï")).value.isSome ↔
        (t.symbolAt? 11).isSome) ∧
      ∀ hover, ((Assistant.lexical catalog).hoverAt t 11 (some "(é\r\n ünï")).value = some hover →
        ∃ symbol span start stop, t.symbolAt? 11 = some symbol ∧ t.span? symbol = some span ∧
          hover.range = some (start, stop) ∧
          Text.offsetAt? "(é\r\n ünï".toList start = some span.start ∧
          Text.offsetAt? "(é\r\n ünï".toList stop = some span.stop ∧ span.Reaches 11 := by
  intro catalog
  have h : read "(é\r\n ünï" = .ok [.group .list ⟨0, 11⟩ false [.token .symbol ⟨1, 3⟩ "é",
      .token .symbol ⟨6, 11⟩ "ünï"]] := rfl
  obtain ⟨t, htree, hhover⟩ := read_hoverAt h catalog 11
  refine ⟨h, t, htree, ?_, hhover⟩
  obtain rfl := Except.ok.inj htree
  decide +kernel

end PhelAssist
