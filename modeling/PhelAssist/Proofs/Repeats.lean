import PhelAssist.Proofs.Documenting
import PhelAssist.Proofs.Fallback
import PhelAssist.Proofs.Offering

namespace PhelAssist

/-- Whether an entry stands in a namespace under a name. Nothing keeps a second entry from doing
so too. -/
def Entry.IsAt (ns name : String) (e : Entry) : Prop := e.ns = ns ∧ e.name = name

instance (ns name : String) (e : Entry) : Decidable (e.IsAt ns name) :=
  inferInstanceAs (Decidable (_ ∧ _))

namespace Catalog

theorem lookup_addToGroup (e : Entry) (groups : List (String × List Entry)) (ns : String) :
    ((addToGroup e groups).lookup ns).getD [] =
      (groups.lookup ns).getD [] ++ if e.ns = ns then [e] else [] := by
  induction groups with
  | nil =>
    rw [addToGroup, List.lookup_cons]
    by_cases h : e.ns = ns
    · simp [h]
    · simp [h, beq_false_of_ne (Ne.symm h)]
  | cons group rest ih =>
    obtain ⟨first, es⟩ := group
    rw [addToGroup]
    by_cases hfirst : first = e.ns
    · rw [if_pos hfirst, List.lookup_cons, List.lookup_cons]
      by_cases h : e.ns = ns
      · simp [hfirst, h]
      · simp [hfirst, h, beq_false_of_ne (Ne.symm h)]
    · rw [if_neg hfirst, List.lookup_cons, List.lookup_cons]
      by_cases h : ns = first
      · simp [h, Ne.symm hfirst]
      · simp [beq_false_of_ne h, ih]

theorem inNamespace_insert (r : Catalog) (e : Entry) (ns : String) :
    (r.insert e).inNamespace ns = r.inNamespace ns ++ if e.ns = ns then [e] else [] :=
  lookup_addToGroup e r.groups ns

theorem inNamespace_foldl_insert (entries : List Entry) (r : Catalog) (ns : String) :
    (entries.foldl insert r).inNamespace ns =
      r.inNamespace ns ++ entries.filter fun e => e.ns = ns := by
  induction entries generalizing r with
  | nil => simp
  | cons e rest ih =>
    rw [List.foldl_cons, ih, inNamespace_insert, List.append_assoc]
    by_cases h : e.ns = ns <;> simp [h]

/-- The functions of a namespace are the entries that name it, in load order. -/
theorem inNamespace_ofList (entries : List Entry) (ns : String) :
    (ofList entries).inNamespace ns = entries.filter fun e => e.ns = ns :=
  inNamespace_foldl_insert entries empty ns

/-- What a name stands for is the last entry in its own namespace too. -/
theorem find?_reverse_of_get? {entries : List Entry} {name : String} {e : Entry}
    (h : (ofList entries).get? name = some e) :
    entries.reverse.find? (·.IsAt e.ns name) = some e := by
  rw [get?_ofList, List.find?_eq_some_iff_append] at h
  obtain ⟨hname, later, earlier, hsplit, hlater⟩ := h
  have hname : e.name = name := by simpa using hname
  rw [List.find?_eq_some_iff_append]
  refine ⟨by simp [Entry.IsAt, hname], later, earlier, hsplit, ?_⟩
  intro x hx
  have hx : x.name ≠ name := by simpa using hlater x hx
  simp [Entry.IsAt, hx]

end Catalog

namespace Candidate

/-- Of candidates with one key the first is kept, unless the key is taken. -/
theorem mem_firstOfEach_iff {taken : List (Option String × String)} {candidates : List Candidate}
    {c : Candidate} :
    c ∈ firstOfEach taken candidates ↔
      c.key ∉ taken ∧ candidates.find? (fun x => x.key = c.key) = some c := by
  induction candidates generalizing taken with
  | nil => simp [firstOfEach]
  | cons x rest ih =>
    rw [firstOfEach, List.find?_cons]
    by_cases hx : x.key = c.key
    · by_cases htaken : x.key ∈ taken
      · rw [if_pos htaken, ih]
        simp [← hx, htaken]
      · rw [if_neg htaken, List.mem_cons, ih]
        simp [← hx, htaken, eq_comm]
    · by_cases htaken : x.key ∈ taken
      · rw [if_pos htaken, ih]
        simp [hx]
      · have hne : c ≠ x := by
          intro heq
          exact hx (congrArg key heq.symm)
        rw [if_neg htaken, List.mem_cons, ih]
        simp [hx, hne, Ne.symm hx]

/-- Candidates with the key of `c` have the rank of `c`, so that none of them is dropped. -/
theorem find?_filter_rank {c : Candidate} (hrank : c.rank?.isSome = true)
    (candidates : List Candidate) :
    (candidates.filter (·.rank?.isSome)).find? (fun x => x.key = c.key) =
      candidates.find? (fun x => x.key = c.key) := by
  rw [List.find?_filter]
  congr 1
  funext x
  by_cases hx : x.key = c.key
  · have hsame : x.rank? = c.rank? := by rw [rank?, rank?, (Prod.mk.inj hx).1]
    simp [hx, hsame, hrank]
  · simp [hx]

/-- Ranking keeps the first candidate of each namespace and label, if the namespace is offered. -/
theorem mem_rank_iff {candidates : List Candidate} {c : Candidate} :
    c ∈ rank candidates ↔
      c.rank?.isSome = true ∧ candidates.find? (fun x => x.key = c.key) = some c := by
  rw [rank, List.mem_mergeSort, mem_firstOfEach_iff]
  by_cases hrank : c.rank?.isSome = true
  · rw [find?_filter_rank hrank]
    simp [hrank]
  · constructor
    · intro h
      have hmem := List.mem_of_find?_eq_some h.2
      exact absurd (List.mem_filter.1 hmem).2 hrank
    · intro h
      exact absurd h.1 hrank

theorem isSome_rank?_ofEntry (e : Entry) :
    (ofEntry e).rank?.isSome = true ↔ e.ns ∈ offeredNamespaces := by
  change (offeredNamespaces.idxOf? e.ns).isSome = true ↔ _
  exact List.isSome_idxOf?

theorem findSome?_of_mem {α β : Type} [DecidableEq α] {l : List α} {a : α} (h : a ∈ l)
    (found : Option β) : (l.findSome? fun x => if x = a then found else none) = found := by
  induction l with
  | nil => simp at h
  | cons x l ih =>
    rw [List.findSome?_cons]
    by_cases hx : x = a
    · cases found <;> simp [hx]
    · have hrest : a ∈ l := (List.mem_cons.1 h).resolve_left (Ne.symm hx)
      simp [hx, ih hrest]

/-- Grouping entries by namespace does not change which of them comes first. -/
theorem find?_offered (entries : List Entry) {ns : String} (hns : ns ∈ offeredNamespaces)
    (name : String) :
    (offeredNamespaces.flatMap (Catalog.ofList entries).inNamespace).find? (·.IsAt ns name) =
      entries.find? (·.IsAt ns name) := by
  have hgroup : ∀ group, ((Catalog.ofList entries).inNamespace group).find? (·.IsAt ns name) =
      if group = ns then entries.find? (·.IsAt ns name) else none := by
    intro group
    rw [Catalog.inNamespace_ofList, List.find?_filter]
    split
    · next h =>
      congr 1
      funext e
      by_cases he : e.IsAt ns name
      · simp [h, he, he.1]
      · simp [he]
    · next h =>
      rw [List.find?_eq_none]
      intro e _ he
      have hboth : e.ns = group ∧ e.IsAt ns name := by simpa using he
      exact h (hboth.1.symm.trans hboth.2.1)
  simp only [List.find?_flatMap, hgroup]
  exact findSome?_of_mem hns _

theorem key_ofEntry_eq_iff {x e : Entry} :
    (ofEntry x).key = (ofEntry e).key ↔ x.IsAt e.ns e.name := by
  simp [key, ofEntry, Entry.IsAt]

/-- The library candidates are the first entries of their namespaces and names. -/
theorem mem_ofCatalog_iff {entries : List Entry} {c : Candidate} :
    c ∈ ofCatalog (.ofList entries) ↔
      ∃ e, e.ns ∈ offeredNamespaces ∧ entries.find? (·.IsAt e.ns e.name) = some e ∧
        c = ofEntry e := by
  have hfirst : ∀ e, e.ns ∈ offeredNamespaces →
      (offeredNamespaces.flatMap (Catalog.ofList entries).inNamespace).find?
        (fun x => (ofEntry x).key = (ofEntry e).key) = entries.find? (·.IsAt e.ns e.name) := by
    intro e he
    simp only [key_ofEntry_eq_iff]
    exact find?_offered entries he e.name
  rw [ofCatalog, mem_rank_iff, List.find?_map, Option.map_eq_some_iff]
  constructor
  · rintro ⟨hrank, e, hfind, rfl⟩
    have he := (isSome_rank?_ofEntry e).1 hrank
    exact ⟨e, he, (hfirst e he).symm.trans hfind, rfl⟩
  · rintro ⟨e, he, hfind, rfl⟩
    exact ⟨(isSome_rank?_ofEntry e).2 he, e, (hfirst e he).trans hfind, rfl⟩

theorem origin_of_mem_locals {analyzer : Analyzer} {t : SourceTree} {cursor : Cursor}
    {c : Candidate} (h : c ∈ (locals analyzer t cursor).value) :
    ∃ binding, c.origin = .bound binding := by
  unfold locals at h
  split at h
  · obtain ⟨s, -, rfl⟩ := List.mem_map.1 h
    exact ⟨s.binding, rfl⟩
  · simp at h
  · simp at h

end Candidate

namespace Assistant

/-- What is offered from the library is offered from the catalog, whatever else is offered. -/
theorem mem_ofCatalog_of_mem_complete {a : Assistant} {t : SourceTree} {cursor : Cursor}
    {c : Candidate} (h : c ∈ (a.complete t cursor).value) (horigin : c.origin = .library) :
    c ∈ Candidate.ofCatalog a.catalog := by
  cases hcheck : cursor.check t with
  | error error =>
    rw [complete_of_misfit hcheck] at h
    split at h
    · obtain rfl := List.mem_singleton.1 h
      contradiction
    · simp at h
  | ok =>
    cases hsituation : cursor.situation with
    | newForm =>
      rw [complete_of_newForm hcheck hsituation] at h
      rw [Candidate.origin_of_mem_starters h] at horigin
      contradiction
    | insideForm =>
      rw [complete_of_insideForm hcheck hsituation, List.mem_append] at h
      rcases h with h | h
      · split at h
        · obtain ⟨binding, hbound⟩ := Candidate.origin_of_mem_locals h
          rw [hbound] at horigin
          contradiction
        · simp at h
      · exact h

/-- Of several entries in one namespace under one name, completion offers the first and
documentation tells about the last. They tell the same where there is one entry alone. -/
theorem library_of_mem_complete (entries : List Entry) (analyzer : Analyzer)
    (config : CompletionSettings) (t : SourceTree) (cursor : Cursor) {c : Candidate}
    (h : c ∈ ((Assistant.mk (.ofList entries) analyzer config).complete t cursor).value)
    (horigin : c.origin = .library) {e : Entry}
    (hget : (Catalog.ofList entries).get? c.label = some e) (hns : c.ns = some e.ns) :
    ∃ first, entries.find? (·.IsAt e.ns c.label) = some first ∧
      entries.reverse.find? (·.IsAt e.ns c.label) = some e ∧ c = .ofEntry first ∧
      (entries.filter (·.IsAt e.ns c.label) = [e] →
        c.typeText = e.signature ∧ c.documentation = some e.description) := by
  have hlibrary := mem_ofCatalog_of_mem_complete h horigin
  obtain ⟨first, -, hfirst, rfl⟩ := Candidate.mem_ofCatalog_iff.1 hlibrary
  have hns : first.ns = e.ns := Option.some.inj hns
  have hfirst : entries.find? (·.IsAt e.ns first.name) = some first := by rwa [hns] at hfirst
  refine ⟨first, hfirst, Catalog.find?_reverse_of_get? hget, rfl, ?_⟩
  intro halone
  have heq : first = e := by
    have hhead : entries.find? (·.IsAt e.ns first.name) = some e := by
      rw [← List.head?_filter]
      exact congrArg List.head? halone
    exact Option.some.inj (hfirst.symm.trans hhead)
  rw [heq]
  exact ⟨rfl, rfl⟩

/-- Inside a collection, the first entry of an offered namespace and a name is offered. -/
theorem ofEntry_mem_completionsAt {t : SourceTree} {length offset : Nat} (ht : t.OfText length)
    (henclosed : t.IsEnclosed offset) {entries : List Entry} {e : Entry}
    (hns : e.ns ∈ Candidate.offeredNamespaces)
    (hfirst : entries.find? (·.IsAt e.ns e.name) = some e) :
    Candidate.ofEntry e ∈ ((Assistant.lexical (.ofList entries)).completionsAt t offset).value := by
  obtain ⟨names, -, hvalue⟩ := ht.completionsAt_of_enclosed (.ofList entries) henclosed
  rw [hvalue]
  exact List.mem_append_right _ (Candidate.mem_ofCatalog_iff.2 ⟨e, hns, hfirst, rfl⟩)

/-- The tree of a call, with the cursor behind the name of the function. -/
theorem exists_tree_call :
    ∃ t, SourceTree.ofData [.group .list ⟨0, 3⟩ true [.token .symbol ⟨1, 2⟩ "f"]] = .ok t ∧
      t.OfText (Text.byteLength "(f)".toList) ∧ t.IsEnclosed 2 := by
  have hread : read "(f)" = .ok [.group .list ⟨0, 3⟩ true [.token .symbol ⟨1, 2⟩ "f"]] := rfl
  obtain ⟨t, htree, ht⟩ := read_ofText hread
  refine ⟨t, htree, ht, ?_⟩
  obtain rfl := Except.ok.inj htree
  exact ⟨2, .list, by decide, by decide⟩

/-- A name in two namespaces, of which the later one was loaded last. -/
theorem library_of_mem_complete_twoNamespaces :
    let entries : List Entry := [⟨"f", "core", "(f a)", "one", 1⟩, ⟨"f", "str", "(f b)", "two", 2⟩,
      ⟨"g", "core", "(g)", "three", 3⟩]
    let e : Entry := ⟨"f", "str", "(f b)", "two", 2⟩
    let c := Candidate.ofEntry e
    ∃ t, SourceTree.ofData [.group .list ⟨0, 3⟩ true [.token .symbol ⟨1, 2⟩ "f"]] = .ok t ∧
      c ∈ ((Assistant.lexical (.ofList entries)).completionsAt t 2).value ∧
      c.origin = .library ∧ (Catalog.ofList entries).get? c.label = some e ∧ c.ns = some e.ns ∧
      ∃ first, entries.find? (·.IsAt e.ns c.label) = some first ∧
        entries.reverse.find? (·.IsAt e.ns c.label) = some e ∧ c = .ofEntry first ∧
        (entries.filter (·.IsAt e.ns c.label) = [e] →
          c.typeText = e.signature ∧ c.documentation = some e.description) := by
  intro entries e c
  obtain ⟨t, htree, ht, henclosed⟩ := exists_tree_call
  have hmem : c ∈ ((Assistant.lexical (.ofList entries)).completionsAt t 2).value :=
    ofEntry_mem_completionsAt ht henclosed (by decide) (by decide)
  exact ⟨t, htree, hmem, rfl, rfl, rfl, library_of_mem_complete entries _ _ t _ hmem rfl rfl rfl⟩

/-- A name twice in one namespace: completion offers the entry that has lost the name. -/
theorem library_disagrees_of_repeat :
    let entries : List Entry := [⟨"f", "core", "(f a)", "first", 0⟩,
      ⟨"f", "core", "(f b)", "second", 0⟩]
    ∃ t c e, SourceTree.ofData [.group .list ⟨0, 3⟩ true [.token .symbol ⟨1, 2⟩ "f"]] = .ok t ∧
      c ∈ ((Assistant.lexical (.ofList entries)).completionsAt t 2).value ∧
      c.origin = .library ∧ (Catalog.ofList entries).get? c.label = some e ∧ c.ns = some e.ns ∧
      c.typeText ≠ e.signature ∧ c.documentation ≠ some e.description := by
  intro entries
  obtain ⟨t, htree, ht, henclosed⟩ := exists_tree_call
  have hmem : Candidate.ofEntry ⟨"f", "core", "(f a)", "first", 0⟩ ∈
      ((Assistant.lexical (.ofList entries)).completionsAt t 2).value :=
    ofEntry_mem_completionsAt ht henclosed (by decide) (by decide)
  exact ⟨t, _, ⟨"f", "core", "(f b)", "second", 0⟩, htree, hmem, rfl, rfl, rfl, by decide,
    by decide⟩

end Assistant

end PhelAssist
