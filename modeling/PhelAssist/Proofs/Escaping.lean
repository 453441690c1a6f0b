import Mathlib.Data.List.Nodup
import PhelAssist.Description

namespace PhelAssist

namespace Category

/-- Every category. -/
def all : List Category :=
  [parameter, letBinding, definition .function, definition .expander, definition .value,
    definition .record, definition .generic, library .predicate, library .arithmetic,
    library .comparison, library .collection, library .core, specialForm, unknown]

theorem mem_all (c : Category) : c ∈ all := by
  rcases c with _ | _ | k | k | _ | _
  · decide
  · decide
  · cases k <;> decide
  · cases k <;> decide
  · decide
  · decide

theorem label_injective : Function.Injective label := by
  have hnodup : (all.map label).Nodup := by decide +kernel
  intro a b h
  exact List.inj_on_of_nodup_map hnodup (mem_all a) (mem_all b) h

end Category

namespace Description

/-- What the characters of markup are written as. -/
def entities : List String := ["&amp;", "&lt;", "&gt;", "&quot;", "&#39;"]

/-- Characters of markup, the ampersand apart. -/
def IsMarkup (c : Char) : Prop := c = '<' ∨ c = '>' ∨ c = '"' ∨ c = '\''

/-- A character is written as an entity, unless it has no part in markup. -/
theorem escapeChar_cases (c : Char) :
    (∃ e ∈ entities, escapeChar c = e.toList) ∨ ¬ IsMarkup c ∧ c ≠ '&' ∧ escapeChar c = [c] := by
  unfold escapeChar
  split
  · exact .inl ⟨"&amp;", by simp [entities], rfl⟩
  split
  · exact .inl ⟨"&lt;", by simp [entities], rfl⟩
  split
  · exact .inl ⟨"&gt;", by simp [entities], rfl⟩
  split
  · exact .inl ⟨"&quot;", by simp [entities], rfl⟩
  split
  · exact .inl ⟨"&#39;", by simp [entities], rfl⟩
  · right
    simp_all [IsMarkup]

/-- An entity has no markup in it but the ampersand that it starts with. -/
theorem entities_shape {e : String} (he : e ∈ entities) :
    ∃ rest, e.toList = '&' :: rest ∧ '&' ∉ rest ∧ ∀ c ∈ rest, ¬ IsMarkup c := by
  simp only [entities, List.mem_cons, List.not_mem_nil, or_false] at he
  rcases he with rfl | rfl | rfl | rfl | rfl
  · exact ⟨['a', 'm', 'p', ';'], rfl, by decide, by simp [IsMarkup]⟩
  · exact ⟨['l', 't', ';'], rfl, by decide, by simp [IsMarkup]⟩
  · exact ⟨['g', 't', ';'], rfl, by decide, by simp [IsMarkup]⟩
  · exact ⟨['q', 'u', 'o', 't', ';'], rfl, by decide, by simp [IsMarkup]⟩
  · exact ⟨['#', '3', '9', ';'], rfl, by decide, by simp [IsMarkup]⟩

theorem not_isMarkup_of_mem_escapeChar {c d : Char} (h : d ∈ escapeChar c) : ¬ IsMarkup d := by
  rcases escapeChar_cases c with ⟨e, he, heq⟩ | ⟨hmarkup, -, heq⟩
  · obtain ⟨rest, hrest, -, hfree⟩ := entities_shape he
    rw [heq, hrest] at h
    rcases List.mem_cons.1 h with rfl | h
    · simp [IsMarkup]
    · exact hfree d h
  · rw [heq, List.mem_singleton] at h
    rwa [h]

theorem escapeChar_ne_nil (c : Char) : escapeChar c ≠ [] := by
  rcases escapeChar_cases c with ⟨e, he, heq⟩ | ⟨-, -, heq⟩
  · obtain ⟨rest, hrest, -⟩ := entities_shape he
    simp [heq, hrest]
  · simp [heq]

/-- An ampersand in the written form of a character starts that form. -/
theorem entity_of_escapeChar_eq {c : Char} {before after : List Char}
    (h : escapeChar c = before ++ '&' :: after) : ∃ e ∈ entities, e.toList = '&' :: after := by
  rcases escapeChar_cases c with ⟨e, he, heq⟩ | ⟨-, hc, heq⟩
  · obtain ⟨rest, hrest, hfree, -⟩ := entities_shape he
    refine ⟨e, he, ?_⟩
    rw [heq, hrest] at h
    cases before with
    | nil => rw [hrest, h, List.nil_append]
    | cons d before =>
      obtain ⟨-, htail⟩ := List.cons.inj h
      exact absurd (htail ▸ by simp) hfree
  · have hmem : '&' ∈ escapeChar c := by simp [h]
    rw [heq, List.mem_singleton] at hmem
    exact absurd hmem.symm hc

/-- Every ampersand in an escaped text starts an entity. -/
theorem entity_of_flatMap_eq {cs before after : List Char}
    (h : cs.flatMap escapeChar = before ++ '&' :: after) :
    ∃ e ∈ entities, e.toList <+: '&' :: after := by
  induction cs generalizing before with
  | nil => simp at h
  | cons c cs ih =>
    rw [List.flatMap_cons] at h
    rcases List.append_eq_append_iff.1 h with ⟨part, -, hrest⟩ | ⟨part, hc, hrest⟩
    · exact ih hrest
    · cases part with
      | nil => exact @ih [] hrest.symm
      | cons d part =>
        rw [List.cons_append] at hrest
        obtain ⟨rfl, rfl⟩ := List.cons.inj hrest
        obtain ⟨e, he, heq⟩ := entity_of_escapeChar_eq hc
        exact ⟨e, he, cs.flatMap escapeChar, by rw [heq, List.cons_append]⟩

/-- Reads one escaped character. -/
def unescapeChar? : List Char → Option (Char × List Char)
  | '&' :: 'a' :: 'm' :: 'p' :: ';' :: rest => some ('&', rest)
  | '&' :: 'l' :: 't' :: ';' :: rest => some ('<', rest)
  | '&' :: 'g' :: 't' :: ';' :: rest => some ('>', rest)
  | '&' :: 'q' :: 'u' :: 'o' :: 't' :: ';' :: rest => some ('"', rest)
  | '&' :: '#' :: '3' :: '9' :: ';' :: rest => some ('\'', rest)
  | c :: rest => some (c, rest)
  | [] => none

theorem unescapeChar?_escapeChar (c : Char) (rest : List Char) :
    unescapeChar? (escapeChar c ++ rest) = some (c, rest) := by
  unfold escapeChar
  split
  · next hc => rw [hc]; rfl
  split
  · next hc => rw [hc]; rfl
  split
  · next hc => rw [hc]; rfl
  split
  · next hc => rw [hc]; rfl
  split
  · next hc => rw [hc]; rfl
  · next hamp _ _ _ _ => simp [unescapeChar?, hamp]

theorem escapeChar_append_inj {c d : Char} {x y : List Char}
    (h : escapeChar c ++ x = escapeChar d ++ y) : c = d ∧ x = y := by
  have hread := congrArg unescapeChar? h
  rw [unescapeChar?_escapeChar, unescapeChar?_escapeChar] at hread
  simpa using hread

/-- A tag does not start inside the written form of a character. -/
theorem escapeChar_append_ne (c : Char) (x y : List Char) : escapeChar c ++ x ≠ '<' :: y := by
  intro h
  obtain ⟨d, rest, hd⟩ := List.exists_cons_of_ne_nil (escapeChar_ne_nil c)
  have hfree : ¬ IsMarkup d := not_isMarkup_of_mem_escapeChar (hd ▸ List.mem_cons_self)
  rw [hd, List.cons_append] at h
  exact hfree (.inl (List.cons.inj h).1)

/-- The tag behind an escaped text tells where the text ends. -/
theorem escape_append_inj {s t : String} {tag x y : List Char} (htag : tag.head? = some '<')
    (h : (escape s).toList ++ (tag ++ x) = (escape t).toList ++ (tag ++ y)) : s = t ∧ x = y := by
  obtain ⟨rest, rfl⟩ := List.head?_eq_some_iff.1 htag
  simp only [escape, String.toList_ofList] at h
  rw [← String.toList_inj]
  generalize s.toList = cs at h ⊢
  generalize t.toList = ds at h ⊢
  induction cs generalizing ds with
  | nil =>
    cases ds with
    | nil => simpa using h
    | cons d ds =>
      rw [List.flatMap_cons, List.append_assoc] at h
      exact absurd h.symm (escapeChar_append_ne d _ _)
  | cons c cs ih =>
    cases ds with
    | nil =>
      rw [List.flatMap_cons, List.append_assoc] at h
      exact absurd h (escapeChar_append_ne c _ _)
    | cons d ds =>
      rw [List.flatMap_cons, List.flatMap_cons, List.append_assoc, List.append_assoc] at h
      obtain ⟨rfl, hrest⟩ := escapeChar_append_inj h
      obtain ⟨rfl, hxy⟩ := ih ds hrest
      exact ⟨rfl, hxy⟩

/-- The paragraph of a category is not the start of the one behind it. -/
theorem categoryHtml_some_append_ne (c : Category) (x y : List Char) :
    (categoryHtml (some c)).toList ++ x ≠ "<p><b>Signature:</b> <code>".toList ++ y := by
  intro h
  unfold categoryHtml at h
  simp only [String.toList_append, List.append_assoc] at h
  -- both start with `<p><b>`, and then they differ
  have hseventh : some 'T' = some 'S' := congrArg (fun page : List Char => page[6]?) h
  simp at hseventh

theorem categoryHtml_append_inj {a b : Option Category} {x y : List Char}
    (h : (categoryHtml a).toList ++ ("<p><b>Signature:</b> <code>".toList ++ x) =
      (categoryHtml b).toList ++ ("<p><b>Signature:</b> <code>".toList ++ y)) :
    a = b ∧ x = y := by
  cases a with
  | none =>
    cases b with
    | none => exact ⟨rfl, List.append_cancel_left (List.append_cancel_left h)⟩
    | some b => exact absurd h.symm (categoryHtml_some_append_ne b _ _)
  | some a =>
    cases b with
    | none => exact absurd h (categoryHtml_some_append_ne a _ _)
    | some b =>
      unfold categoryHtml at h
      simp only [String.toList_append, List.append_assoc, List.append_cancel_left_eq] at h
      obtain ⟨hlabel, hrest⟩ := escape_append_inj rfl h
      exact ⟨congrArg some (Category.label_injective hlabel), List.append_cancel_left hrest⟩

theorem toList_html (d : Description) :
    d.html.toList =
      "<html><body><h3>".toList ++ ((escape d.title).toList ++ ("</h3>".toList ++
        ((categoryHtml d.category).toList ++ ("<p><b>Signature:</b> <code>".toList ++
          ((escape d.signature).toList ++ ("</code></p><p>".toList ++
            ((escape d.body).toList ++ ("</p></body></html>".toList ++ [])))))))) := by
  unfold html
  simp only [String.toList_append, List.append_assoc, List.append_nil]

/-- A page tells all of the description that it shows. The fields cannot interfere with the tags
around them: escaped text has no markup in it but entities. -/
theorem html_injective :
    Function.Injective html ∧
    ∀ s : String, (∀ c ∈ (escape s).toList, c ≠ '<' ∧ c ≠ '>' ∧ c ≠ '"' ∧ c ≠ '\'') ∧
      ∀ before after, (escape s).toList = before ++ '&' :: after →
        ∃ e ∈ ["&amp;", "&lt;", "&gt;", "&quot;", "&#39;"], e.toList <+: '&' :: after := by
  refine ⟨?_, ?_⟩
  · intro d₁ d₂ h
    have hpage := congrArg String.toList h
    rw [toList_html, toList_html] at hpage
    obtain ⟨htitle, hrest⟩ := escape_append_inj rfl (List.append_cancel_left hpage)
    obtain ⟨hcategory, hrest⟩ := categoryHtml_append_inj hrest
    obtain ⟨hsignature, hrest⟩ := escape_append_inj rfl hrest
    obtain ⟨hbody, -⟩ := escape_append_inj rfl hrest
    exact Description.ext htitle hsignature hbody hcategory
  · intro s
    simp only [escape, String.toList_ofList]
    refine ⟨?_, fun before after h => entity_of_flatMap_eq h⟩
    intro c hc
    obtain ⟨d, -, hd⟩ := List.mem_flatMap.1 hc
    have hfree := not_isMarkup_of_mem_escapeChar hd
    simpa [IsMarkup] using hfree

end Description

end PhelAssist
