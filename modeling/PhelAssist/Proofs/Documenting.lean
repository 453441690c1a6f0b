import PhelAssist.Assistant

namespace PhelAssist

namespace Catalog

theorem get?_insert (r : Catalog) (e : Entry) (name : String) :
    (r.insert e).get? name = if e.name = name then some e else r.get? name := by
  rw [get?, insert, List.lookup_cons]
  by_cases h : name = e.name
  · rw [h]
    simp
  · rw [if_neg (Ne.symm h), beq_false_of_ne h]
    rfl

theorem get?_foldl_insert (entries : List Entry) (r : Catalog) (name : String) :
    (entries.foldl insert r).get? name =
      (entries.reverse.find? fun e => e.name = name).or (r.get? name) := by
  induction entries generalizing r with
  | nil => rfl
  | cons e rest ih =>
    rw [List.foldl_cons, ih, get?_insert, List.reverse_cons, List.find?_append, Option.or_assoc]
    by_cases h : e.name = name <;> simp [h]

/-- A name stands for the last entry that was loaded under it. -/
theorem get?_ofList (entries : List Entry) (name : String) :
    (ofList entries).get? name = entries.reverse.find? fun e => e.name = name := by
  rw [ofList, get?_foldl_insert]
  exact Option.or_none

/-- What is found under a name bears that name. -/
theorem name_of_get?_ofList {entries : List Entry} {name : String} {e : Entry}
    (h : (ofList entries).get? name = some e) : e.name = name := by
  rw [get?_ofList] at h
  simpa using List.find?_some h

theorem not_contains_iff {r : Catalog} {name : String} :
    ¬ r.Contains name ↔ r.get? name = none := by
  rw [Contains, Bool.not_eq_true, Option.isSome_eq_false_iff, Option.isNone_iff_eq_none]

end Catalog

namespace SourceTree

variable {t : SourceTree} {symbol offset : Nat} {name : String}

theorem symbolText?_eq_some_iff :
    t.symbolText? symbol = some name ↔
      t.HasKind symbol (.token .symbol) ∧ t.text? symbol = some name ∧ name ≠ "" := by
  by_cases h : t.HasKind symbol (.token .symbol) <;>
    simp [symbolText?, h, Option.filter_eq_some_iff]

theorem hasKind_of_symbolAt? (h : t.symbolAt? offset = some symbol) :
    t.HasKind symbol (.token .symbol) := by
  unfold symbolAt? at h
  simp only at h
  split at h
  · next hkind => exact Option.some.inj h ▸ hkind
  · rw [ancestorOfKind?] at h
    simpa using List.find?_some h

end SourceTree

/-- What there is to say about a symbol: its library entry, or else what it is used as. -/
theorem describe_eq_some_iff {catalog : Catalog} {analyzer : Analyzer} {t : SourceTree}
    {symbol : Nat} {d : Description} :
    describe catalog analyzer t symbol = .ok (some d) ↔
      ∃ name, t.symbolText? symbol = some name ∧
        ((∃ entry, catalog.get? name = some entry ∧ d = .ofEntry entry) ∨
          ∃ c, catalog.get? name = none ∧ categorize catalog analyzer t symbol = .ok c ∧
            d = .undocumented name c) := by
  unfold describe
  cases t.symbolText? symbol with
  | none => simp
  | some name =>
    cases hget : catalog.get? name with
    | some entry => simp [hget, eq_comm]
    | none =>
      cases categorize catalog analyzer t symbol <;> simp [hget, Except.map, eq_comm]

namespace Assistant

variable {a : Assistant} {t : SourceTree} {offset : Nat}

theorem value_unlessAborted_eq_some_iff {α : Type} {request : String} {answer : α}
    {outcome : Except Abort (Option α)} :
    (unlessAborted request offset outcome).value = some answer ↔ outcome = .ok (some answer) := by
  cases outcome <;> simp [unlessAborted]

theorem documentationAt_eq_some_iff {d : Description} :
    (a.documentationAt t offset).value = some d ↔
      ∃ symbol, t.symbolAt? offset = some symbol ∧ a.describeSymbol t symbol = .ok (some d) := by
  rw [documentationAt, value_unlessAborted_eq_some_iff]
  cases t.symbolAt? offset <;> simp

theorem categoryAt_eq_some_iff {c : Category} :
    (a.categoryAt t offset).value = some c ↔
      ∃ symbol, t.symbolAt? offset = some symbol ∧
        categorize a.catalog a.analyzer t symbol = .ok c := by
  rw [categoryAt, value_unlessAborted_eq_some_iff]
  cases t.symbolAt? offset with
  | none => simp
  | some symbol => cases h : categorize a.catalog a.analyzer t symbol <;> simp [h, Except.map]

theorem summaryAt_eq_some_iff {summary : String} :
    a.summaryAt t offset = some summary ↔
      ∃ symbol name entry, t.symbolAt? offset = some symbol ∧
        t.symbolText? symbol = some name ∧ a.catalog.get? name = some entry ∧
        summary = name ++ " " ++ entry.signature := by
  simp only [summaryAt, summary?, Option.bind_eq_bind, Option.bind_eq_some_iff, Option.pure_def,
    Option.some.injEq, exists_and_left, eq_comm (a := summary)]

/-- A host that breaks off the description of a symbol breaks off the one for a hover too. -/
theorem contents_hoverAt (text : Option String) :
    (a.hoverAt t offset text).value.map (·.contents) =
      (a.documentationAt t offset).value.map (·.markdown) := by
  unfold hoverAt documentationAt
  cases t.symbolAt? offset with
  | none => rfl
  | some symbol =>
    simp only
    cases a.describeSymbol t symbol with
    | error abort => rfl
    | ok d => cases d <;> rfl

/-- A summary, a description, a hover and a category that are told of one place tell the same. -/
structure DocumentsAlike (a : Assistant) (t : SourceTree) (offset : Nat) : Prop where
  /-- Entries of the library are told whatever the host does. -/
  ofEntry : ∀ symbol name entry, t.symbolAt? offset = some symbol → t.text? symbol = some name →
    name ≠ "" → a.catalog.get? name = some entry →
    (a.documentationAt t offset).value = some (.ofEntry entry)
  summary : ∀ summary, a.summaryAt t offset = some summary ↔
    ∃ d, (a.documentationAt t offset).value = some d ∧ d.category = none ∧
      summary = d.title ++ " " ++ d.signature
  library : ∀ d, (a.documentationAt t offset).value = some d → d.category = none →
    ∃ symbol name entry, t.symbolAt? offset = some symbol ∧ t.text? symbol = some name ∧
      a.catalog.get? name = some entry ∧
      d.title = entry.name ∧ d.signature = entry.signature ∧ d.body = entry.description
  hover : ∀ text, (a.hoverAt t offset text).value.map (·.contents) =
    (a.documentationAt t offset).value.map (·.markdown)
  category : ∀ d c, (a.documentationAt t offset).value = some d → d.category = some c →
    (a.categoryAt t offset).value = some c ∧
      ∃ symbol name, t.symbolAt? offset = some symbol ∧ t.text? symbol = some name ∧
        ¬ a.catalog.Contains name

/-- Where the description has no category, it is the one of the entry found under the text of the
symbol. -/
theorem documentationAt_uncategorized_iff {d : Description} :
    (a.documentationAt t offset).value = some d ∧ d.category = none ↔
      ∃ symbol name entry, t.symbolAt? offset = some symbol ∧
        t.symbolText? symbol = some name ∧ a.catalog.get? name = some entry ∧
        d = .ofEntry entry := by
  constructor
  · intro ⟨hd, hcategory⟩
    obtain ⟨symbol, hsymbol, hdescribe⟩ := documentationAt_eq_some_iff.1 hd
    obtain ⟨name, hname, ⟨entry, hentry, hd⟩ | ⟨c, _, _, hd⟩⟩ := describe_eq_some_iff.1 hdescribe
    · exact ⟨symbol, name, entry, hsymbol, hname, hentry, hd⟩
    · rw [hd] at hcategory
      cases hcategory
  · intro ⟨symbol, name, entry, hsymbol, hname, hentry, hd⟩
    have hdescribe : a.describeSymbol t symbol = .ok (some d) :=
      describe_eq_some_iff.2 ⟨name, hname, .inl ⟨entry, hentry, hd⟩⟩
    refine ⟨documentationAt_eq_some_iff.2 ⟨symbol, hsymbol, hdescribe⟩, ?_⟩
    rw [hd]
    rfl

theorem categoryAt_of_documentationAt {d : Description} {c : Category}
    (hd : (a.documentationAt t offset).value = some d) (hcategory : d.category = some c) :
    (a.categoryAt t offset).value = some c ∧
      ∃ symbol name, t.symbolAt? offset = some symbol ∧ t.text? symbol = some name ∧
        ¬ a.catalog.Contains name := by
  obtain ⟨symbol, hsymbol, hdescribe⟩ := documentationAt_eq_some_iff.1 hd
  obtain ⟨name, hname, ⟨entry, _, hd⟩ | ⟨c', hget, hc', hd⟩⟩ := describe_eq_some_iff.1 hdescribe
  · rw [hd] at hcategory
    cases hcategory
  · have hc : c' = c := by
      rw [hd] at hcategory
      exact Option.some.inj hcategory
    refine ⟨categoryAt_eq_some_iff.2 ⟨symbol, hsymbol, hc ▸ hc'⟩, symbol, name, hsymbol, ?_, ?_⟩
    · exact (SourceTree.symbolText?_eq_some_iff.1 hname).2.1
    · exact Catalog.not_contains_iff.2 hget

/-- With a loaded library, all that can be asked about one place agrees, whatever the host does. -/
theorem documentsAlike_ofList (entries : List Entry) (analyzer : Analyzer)
    (config : CompletionSettings) (t : SourceTree) (offset : Nat) :
    (Assistant.mk (.ofList entries) analyzer config).DocumentsAlike t offset where
  ofEntry symbol name entry hsymbol htext hne hentry := by
    have hname : t.symbolText? symbol = some name :=
      SourceTree.symbolText?_eq_some_iff.2 ⟨SourceTree.hasKind_of_symbolAt? hsymbol, htext, hne⟩
    exact (documentationAt_uncategorized_iff.2
      ⟨symbol, name, entry, hsymbol, hname, hentry, rfl⟩).1
  summary summary := by
    rw [summaryAt_eq_some_iff]
    constructor
    · intro ⟨symbol, name, entry, hsymbol, hname, hentry, hsummary⟩
      have hd := documentationAt_uncategorized_iff.2
        ⟨symbol, name, entry, hsymbol, hname, hentry, rfl⟩
      -- the summary has the text of the symbol, the description the name of the entry
      rw [← Catalog.name_of_get?_ofList hentry] at hsummary
      exact ⟨.ofEntry entry, hd.1, hd.2, hsummary⟩
    · intro ⟨d, hd, hcategory, hsummary⟩
      obtain ⟨symbol, name, entry, hsymbol, hname, hentry, rfl⟩ :=
        documentationAt_uncategorized_iff.1 ⟨hd, hcategory⟩
      refine ⟨symbol, name, entry, hsymbol, hname, hentry, ?_⟩
      rw [hsummary, ← Catalog.name_of_get?_ofList hentry]
      rfl
  library d hd hcategory := by
    obtain ⟨symbol, name, entry, hsymbol, hname, hentry, rfl⟩ :=
      documentationAt_uncategorized_iff.1 ⟨hd, hcategory⟩
    have htext := (SourceTree.symbolText?_eq_some_iff.1 hname).2.1
    exact ⟨symbol, name, entry, hsymbol, htext, hentry, rfl, rfl, rfl⟩
  hover := contents_hoverAt
  category _ _ := categoryAt_of_documentationAt

end Assistant

end PhelAssist
