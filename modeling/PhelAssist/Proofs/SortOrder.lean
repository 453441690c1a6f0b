import Mathlib.Data.String.Basic
import PhelAssist.Proofs.Fallback
import PhelAssist.Proofs.Offering

namespace PhelAssist

theorem append_lt_append_of_lt {a b : List Char} (hlength : a.length = b.length) (h : a < b)
    (x y : List Char) : a ++ x < b ++ y := by
  induction a generalizing b with
  | nil =>
    have hb : b = [] := List.eq_nil_of_length_eq_zero hlength.symm
    rw [hb] at h
    exact absurd h (List.lt_irrefl [])
  | cons c a ih =>
    cases b with
    | nil => simp at hlength
    | cons d b =>
      have hrest : a.length = b.length := by simpa using hlength
      rw [List.cons_append, List.cons_append, List.cons_lt_cons_iff]
      rcases List.cons_lt_cons_iff.1 h with hc | ⟨hc, hab⟩
      · exact .inl hc
      · exact .inr ⟨hc, ih hrest hab⟩

theorem digitChar_lt_digitChar {i j : Nat} (hij : i < j) (hj : j < 10) :
    i.digitChar < j.digitChar := by
  have hi : i < 10 := Nat.lt_trans hij hj
  rw [Char.lt_def, UInt32.lt_iff_toNat_lt]
  change i.digitChar.toNat < j.digitChar.toNat
  rw [Nat.toNat_digitChar_of_lt_ten hi, Nat.toNat_digitChar_of_lt_ten hj]
  omega

namespace Item

/-- The digits of a number, with zeros in front up to a width. -/
def paddedDigits (width n : Nat) : List Char :=
  List.replicate (width - (Nat.toDigits 10 n).length) '0' ++ Nat.toDigits 10 n

theorem sortKey_eq (order : Nat) : sortKey order = String.ofList (paddedDigits 4 order) := rfl

theorem length_paddedDigits {width n : Nat} (hn : n < 10 ^ (width + 1)) :
    (paddedDigits (width + 1) n).length = width + 1 := by
  have hdigits : (Nat.toDigits 10 n).length ≤ width + 1 :=
    (Nat.length_toDigits_le_iff (by decide) (Nat.succ_pos width)).2 hn
  rw [paddedDigits, List.length_append, List.length_replicate]
  omega

/-- The last digit stands apart from the number of tens, which is padded to what is left of the
width. -/
theorem paddedDigits_succ (width n : Nat) :
    paddedDigits (width + 2) n = paddedDigits (width + 1) (n / 10) ++ [(n % 10).digitChar] := by
  by_cases hn : n < 10
  · have htens : n / 10 = 0 := Nat.div_eq_of_lt hn
    rw [htens, Nat.mod_eq_of_lt hn, paddedDigits, paddedDigits, Nat.toDigits_zero,
      Nat.toDigits_of_lt_base hn, List.length_singleton, List.length_singleton,
      ← List.replicate_succ']
    rfl
  · have hwidth : ∀ length, width + 2 - (length + 1) = width + 1 - length := by omega
    rw [paddedDigits, paddedDigits, Nat.toDigits_of_base_le (by decide) (Nat.not_lt.1 hn),
      List.length_append, List.length_singleton, hwidth, List.append_assoc]

/-- Among numbers that fit a width, the order of the padded digits is the order of the numbers. -/
theorem paddedDigits_lt {width i j : Nat} (hij : i < j) (hj : j < 10 ^ (width + 1)) :
    paddedDigits (width + 1) i < paddedDigits (width + 1) j := by
  induction width generalizing i j with
  | zero =>
    have hi : i < 10 := Nat.lt_trans hij hj
    have hsingle : ∀ n, n < 10 → paddedDigits 1 n = [n.digitChar] := by
      intro n hn
      rw [paddedDigits, Nat.toDigits_of_lt_base hn]
      rfl
    rw [hsingle i hi, hsingle j hj, List.cons_lt_cons_iff]
    exact .inl (digitChar_lt_digitChar hij hj)
  | succ width ih =>
    have hpow : 10 ^ (width + 2) = 10 ^ (width + 1) * 10 := Nat.pow_succ ..
    have hjtens : j / 10 < 10 ^ (width + 1) := by omega
    rw [paddedDigits_succ, paddedDigits_succ]
    by_cases htens : i / 10 < j / 10
    · apply append_lt_append_of_lt
      · rw [length_paddedDigits (Nat.lt_trans htens hjtens), length_paddedDigits hjtens]
      · exact ih htens hjtens
    · -- with as many tens, the last digit decides
      have hsame : i / 10 = j / 10 := by omega
      have hlast : i % 10 < j % 10 := by omega
      rw [hsame]
      apply List.append_left_lt
      rw [List.cons_lt_cons_iff]
      exact .inl (digitChar_lt_digitChar hlast (Nat.mod_lt j (by decide)))

theorem sortKey_lt {i j : Nat} (hij : i < j) (hj : j < 10000) : sortKey i < sortKey j := by
  rw [String.lt_iff_toList_lt, sortKey_eq, sortKey_eq, String.toList_ofList, String.toList_ofList]
  exact paddedDigits_lt hij hj

/-- Four digits do not hold the ten thousand and first place: its key comes before the one of the
place before it. -/
theorem not_sortKey_lt : ¬ sortKey 9999 < sortKey 10000 := by
  rw [String.lt_iff_toList_lt]
  decide

theorem pairwise_sortKey_iff (n : Nat) :
    ((List.range n).map sortKey).Pairwise (· < ·) ↔ n ≤ 10000 := by
  rw [List.pairwise_map]
  constructor
  · intro h
    apply Nat.le_of_not_lt
    intro hn
    rw [List.pairwise_iff_getElem] at h
    have hlast : 10000 < (List.range n).length := by rwa [List.length_range]
    have hlt := h 9999 10000 (Nat.lt_of_succ_lt hlast) hlast (by decide)
    rw [List.getElem_range, List.getElem_range] at hlt
    exact not_sortKey_lt hlt
  · intro hn
    apply List.Pairwise.imp_of_mem _ List.pairwise_lt_range
    intro i j _ hj hij
    exact sortKey_lt hij (Nat.lt_of_lt_of_le (List.mem_range.1 hj) hn)

/-- The sort texts of a list depend on nothing but its length. -/
theorem map_sortText (candidates : List Candidate) :
    (candidates.mapIdx ofCandidate).map (·.sortText) =
      (List.range candidates.length).map sortKey := by
  apply List.ext_getElem
  · simp
  · intro i hi hi'
    simp [ofCandidate]

end Item

namespace Assistant

theorem map_sortText_itemsAt (a : Assistant) (t : SourceTree) (offset : Nat) :
    (a.itemsAt t offset).value.map (·.sortText) =
      (List.range (a.completionsAt t offset).value.length).map Item.sortKey :=
  Item.map_sortText _

/-- Editors that sort the items of an answer by their sort texts keep the first ten thousand in
order, and all of them exactly if there are no more. -/
theorem pairwise_sortText_itemsAt (a : Assistant) (t : SourceTree) (offset : Nat) :
    (((a.itemsAt t offset).value.take 10000).map (·.sortText)).Pairwise (· < ·) ∧
      (((a.itemsAt t offset).value.map (·.sortText)).Pairwise (· < ·) ↔
        (a.completionsAt t offset).value.length ≤ 10000) := by
  constructor
  · rw [List.map_take, map_sortText_itemsAt, ← List.map_take, List.take_range]
    exact (Item.pairwise_sortKey_iff _).2 (Nat.min_le_left ..)
  · rw [map_sortText_itemsAt]
    exact Item.pairwise_sortKey_iff _

end Assistant

/-- A host that sees the same names wherever it is asked, and nothing else. -/
def Analyzer.seeing (names : List VisibleName) : Analyzer where
  isDefinition _ _ := .ok false
  isParameter _ _ := .ok false
  isLetBinding _ _ := .ok false
  visibleAt _ _ _ := .ok names

/-- As many loop variables as wanted, named by their numbers. -/
def VisibleName.numbered (n : Nat) : List VisibleName :=
  (List.range n).map fun i => ⟨Nat.repr i, .letBinding, "loop", 0⟩

theorem VisibleName.nodup_numbered (n : Nat) : ((numbered n).map (·.name)).Nodup := by
  rw [numbered, List.map_map, List.Nodup, List.pairwise_map]
  apply List.Pairwise.imp _ List.pairwise_lt_range
  intro i j hij hname
  have hdigits : Nat.toDigits 10 i = Nat.toDigits 10 j := by
    have hrepr : Nat.repr i = Nat.repr j := hname
    rwa [Nat.repr_eq_ofList_toDigits, Nat.repr_eq_ofList_toDigits, String.ofList_inj] at hrepr
  have hvalue := congrArg (fun digits => Nat.ofDigitChars 10 digits 0) hdigits
  simp only [Nat.ofDigitChars_ten_toDigits] at hvalue
  omega

/-- Inside a collection all names that a host sees are offered, if no two are the same. -/
theorem SourceTree.OfText.completionsAt_seeing {t : SourceTree} {length offset : Nat}
    (ht : t.OfText length) (h : t.IsEnclosed offset) {names : List VisibleName}
    (hnames : (names.map (·.name)).Nodup) :
    ((Assistant.mk .empty (.seeing names) {}).completionsAt t offset).value =
      names.map Candidate.ofVisible := by
  have hsituation : (Cursor.ofOffset t offset).situation = .insideForm := by
    simp [Cursor.situation, mt (ht.startsForm_iff offset).1 (not_not_intro h)]
  rw [Assistant.completionsAt,
    Assistant.complete_of_insideForm (ht.check_ofOffset offset) hsituation]
  have hlibrary : Candidate.ofCatalog .empty = [] := by
    have hentries : Candidate.offeredNamespaces.flatMap Catalog.empty.inNamespace = [] := rfl
    simp [Candidate.ofCatalog, hentries, Candidate.rank, Candidate.firstOfEach]
  simp [Candidate.locals, Analyzer.seeing, Candidate.firstOfName_eq_self hnames, hlibrary]

/-- With one name more than ten thousand, the sort texts of the last two items are the wrong way
round. -/
theorem not_pairwise_sortText_crowded :
    ∃ t, read "(" = .ok [.group .list ⟨0, 1⟩ false []] ∧
      SourceTree.ofData [.group .list ⟨0, 1⟩ false []] = .ok t ∧
      ¬ (((Assistant.mk .empty (.seeing (VisibleName.numbered 10001)) {}).itemsAt t 1).value.map
        (·.sortText)).Pairwise (· < ·) := by
  have hread : read "(" = .ok [.group .list ⟨0, 1⟩ false []] := rfl
  obtain ⟨t, htree, ht⟩ := read_ofText hread
  refine ⟨t, hread, htree, ?_⟩
  have henclosed : t.IsEnclosed 1 := by
    obtain rfl := Except.ok.inj htree
    exact ⟨2, .list, by decide, by decide⟩
  rw [Assistant.map_sortText_itemsAt, Item.pairwise_sortKey_iff,
    ht.completionsAt_seeing henclosed (VisibleName.nodup_numbered 10001), List.length_map,
    VisibleName.numbered, List.length_map, List.length_range]
  decide

end PhelAssist
