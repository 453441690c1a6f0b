import PhelAssist.Assistant

namespace PhelAssist

/-- The symbols that have no symbol of the same name before them. -/
def VisibleName.firstPerName (symbols : List VisibleName) : List VisibleName :=
  (symbols.zipIdx.filter fun (s, i) => s.name ∉ (symbols.take i).map (·.name)).map (·.1)

namespace Candidate

/-- Symbols are kept one by one as if each looked at all that came before. -/
theorem firstOfName_eq_filter (taken : List String) (symbols : List VisibleName) :
    firstOfName taken symbols =
      (symbols.zipIdx.filter fun (s, i) =>
        s.name ∉ taken ∧ s.name ∉ (symbols.take i).map (·.name)).map (·.1) := by
  induction symbols generalizing taken with
  | nil => rfl
  | cons s rest ih =>
    -- the rest is looked at with every index one higher
    have hrest : ∀ taken' : List String,
        (∀ name, name ∉ taken' ↔ name ∉ taken ∧ name ≠ s.name) →
        firstOfName taken' rest =
          ((rest.zipIdx 1).filter fun (r, i) => r.name ∉ taken ∧
            r.name ∉ ((s :: rest).take i).map (·.name)).map (·.1) := by
      intro taken' htaken
      rw [ih taken', List.zipIdx_succ, List.filter_map, List.map_map]
      congr 1
      refine List.filter_congr fun p _ => ?_
      simp [htaken, and_assoc]
    unfold firstOfName
    rw [List.zipIdx_cons, List.filter_cons]
    split
    · next hs =>
      rw [if_neg (by simp [hs])]
      refine hrest taken fun name => ⟨fun h => ⟨h, ?_⟩, And.left⟩
      rintro rfl
      exact h hs
    · next hs =>
      rw [if_pos (by simp [hs]), List.map_cons]
      refine congrArg (s :: ·) (hrest (s.name :: taken) fun name => ?_)
      rw [List.mem_cons, not_or, and_comm]

theorem firstOfName_eq_firstPerName (symbols : List VisibleName) :
    firstOfName [] symbols = VisibleName.firstPerName symbols := by
  rw [firstOfName_eq_filter, VisibleName.firstPerName]
  simp

end Candidate

namespace Assistant

/-- What a request for completions gives, with `library` as what the catalog has to offer. A cursor
that does not fit the tree is told about or not, as wanted. Where the host sees names, the first of
each is offered before the library. Where it refuses or breaks off, nothing but its names is
lost. -/
structure CompletesWith (a : Assistant) (library : List Candidate) (t : SourceTree) (c : Cursor) :
    Prop where
  misfit : ∀ error, c.check t = .error error →
    (a.complete t c).value = if a.config.errorPlaceholders then [error.candidate] else []
  newForm : c.check t = .ok () → c.situation = .newForm →
    (a.complete t c).value = Candidate.starters
  answered : ∀ symbols, c.check t = .ok () → c.situation = .insideForm →
    a.config.localSymbols = true → a.analyzer.visibleAt t c.element c.offset = .ok symbols →
    (a.complete t c).value =
      (VisibleName.firstPerName symbols).map Candidate.ofVisible ++ library
  unasked : c.check t = .ok () → c.situation = .insideForm → a.config.localSymbols = false →
    (a.complete t c).value = library
  unanswered : ∀ failure, a.analyzer.visibleAt t c.element c.offset = .error failure →
    (a.complete t c).value =
      ({ a with config := { a.config with localSymbols := false } }.complete t c).value

variable {a : Assistant} {t : SourceTree} {c : Cursor}

theorem complete_of_misfit {error : OfferError} (h : c.check t = .error error) :
    (a.complete t c).value = if a.config.errorPlaceholders then [error.candidate] else [] := by
  simp [complete, Candidate.offer, h]

theorem complete_of_newForm (h : c.check t = .ok ()) (hnew : c.situation = .newForm) :
    (a.complete t c).value = Candidate.starters := by
  simp [complete, Candidate.offer, h, hnew]

/-- Inside of a form the library is offered after what is found of locals. -/
theorem complete_of_insideForm (h : c.check t = .ok ()) (hinside : c.situation = .insideForm) :
    (a.complete t c).value =
      (if a.config.localSymbols then (Candidate.locals a.analyzer t c).value else []) ++
        Candidate.ofCatalog a.catalog := by
  cases hlocal : a.config.localSymbols <;> simp [complete, Candidate.offer, h, hinside, hlocal]

theorem locals_of_failure {analyzer : Analyzer} {failure : LookupFailure}
    (h : analyzer.visibleAt t c.element c.offset = .error failure) :
    (Candidate.locals analyzer t c).value = [] := by
  cases failure <;> simp [Candidate.locals, h]

/-- A failed lookup gives what is given without asking for locals, whatever becomes of the
request. -/
theorem complete_of_failure {failure : LookupFailure}
    (h : a.analyzer.visibleAt t c.element c.offset = .error failure) :
    (a.complete t c).value =
      ({ a with config := { a.config with localSymbols := false } }.complete t c).value := by
  cases hcheck : c.check t with
  | error error => rw [complete_of_misfit hcheck, complete_of_misfit hcheck]
  | ok =>
    cases hsituation : c.situation with
    | newForm =>
      rw [complete_of_newForm hcheck hsituation, complete_of_newForm hcheck hsituation]
    | insideForm =>
      rw [complete_of_insideForm hcheck hsituation, complete_of_insideForm hcheck hsituation,
        locals_of_failure h]
      simp

/-- Whatever a host answers, and whether it answers or not, completion gives the library of the
catalog inside of a form. No analyzer, tree, cursor or configuration changes that part. -/
theorem completesWith_ofCatalog (a : Assistant) (t : SourceTree) (c : Cursor) :
    a.CompletesWith (Candidate.ofCatalog a.catalog) t c where
  misfit _ := complete_of_misfit
  newForm := complete_of_newForm
  answered symbols hcheck hsituation hlocal hsymbols := by
    rw [complete_of_insideForm hcheck hsituation, hlocal, if_pos rfl]
    simp [Candidate.locals, hsymbols, Candidate.firstOfName_eq_firstPerName]
  unasked hcheck hsituation hlocal := by
    rw [complete_of_insideForm hcheck hsituation, hlocal]
    simp
  unanswered _ := complete_of_failure

end Assistant

end PhelAssist
