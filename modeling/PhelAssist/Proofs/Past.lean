import PhelAssist.Proofs.Pairs
import PhelAssist.Proofs.Resuming
import PhelAssist.Proofs.Symbols

namespace PhelAssist.PartialTree

open SourceTree

variable {b : PartialTree} {t : SourceTree} {offset length : Nat}

/-- Nothing at or below a node is open. -/
def HasEnded (b : PartialTree) (i : Nat) : Prop :=
  i < b.tree.size ∧ i ≠ root ∧ ∀ o ∈ b.openIds, ¬ b.tree.IsWithin o i

/-- What stands above an open node is open itself, so an element has ended as soon as it is not
open. -/
theorem Spaced.hasEnded (hb : b.Spaced offset) {x : Nat} {f : Face} (hf : b.tree.face? x = some f)
    (he : f.IsElement) (hx : x ∉ b.openIds) : b.HasEnded x := by
  refine ⟨lt_size_of_face? hf, ?_, fun o ho hwithin => hx ?_⟩
  · rintro rfl
    exact he.1 (HasKind.unique (kind?_of_face? hf) hb.sound.tree.file)
  · rcases hwithin with rfl | hmem
    · exact ho
    · refine hb.mem_openIds hf he (.inr ?_)
      rcases hb.mem_lineage ho with rfl | hup
      · exact hmem
      · exact mem_ancestors_trans hup hmem

namespace GrowsInto

theorem agreeOn (h : b.GrowsInto offset t length) : AgreeOn b.tree t b.HasEnded where
  kind i hi := h.continues.kind i hi.1
  text i hi := h.continues.text i hi.1
  children i hi := by
    obtain ⟨later, hlater, hle⟩ := h.continues.children i
    -- only open nodes and the file get children
    suffices hnone : later = [] by rw [hlater, hnone, List.append_nil]
    refine List.eq_nil_iff_forall_not_mem.2 fun c hc => ?_
    have hparent := (h.whole.sound.mem_children i c).1 (by simp [hlater, hc])
    rcases h.continues.below c i (hle c hc) hparent hi.1 with hopen | hroot
    · exact hi.2.2 i hopen (.inl rfl)
    · exact hi.2.1 hroot
  down i hi c hc := by
    have hlt := lt_of_mem_children hc
    have hup : i ∈ b.tree.ancestors c := by
      rw [ancestors_eq_cons ((h.past.sound.tree.mem_children i c).1 hc)]
      exact List.mem_cons_self
    refine ⟨hlt.2, ?_, fun o ho hwithin => hi.2.2 o ho (.inr ?_)⟩
    · rintro rfl
      exact Nat.not_lt_zero _ hlt.1
    · rcases hwithin with rfl | hmem
      · exact hup
      · exact mem_ancestors_trans hmem hup

theorem hasKind_iff (h : b.GrowsInto offset t length) {i : Nat} (hi : i < b.tree.size)
    {k : NodeKind} : t.HasKind i k ↔ b.tree.HasKind i k := by
  rw [HasKind, HasKind, h.continues.kind i hi]

theorem hasKind (h : b.GrowsInto offset t length) {i : Nat} {k : NodeKind}
    (hk : b.tree.HasKind i k) : t.HasKind i k :=
  (h.hasKind_iff (lt_size_of_hasKind hk)).2 hk

theorem container?_eq (h : b.GrowsInto offset t length) {i : Nat} (hi : i < b.tree.size) :
    t.container? i = b.tree.container? i :=
  container?_congr (fun j hj => h.continues.parent j (Nat.lt_of_le_of_lt hj hi))
    fun j hj => h.continues.kind j (Nat.lt_trans hj hi)

theorem face_of_not_open (h : b.GrowsInto offset t length) {i : Nat} {f : Face}
    (hf : b.tree.face? i = some f) (he : f.IsElement) (hi : i ∉ b.openIds) :
    t.face? i = some f ∧ f.closed = true ∧ f.span.stop ≤ offset :=
  ⟨h.continues.ended i f hi hf he, h.closed i f hf, (h.past.tree.ended i f hf he hi).2⟩

/-- The collections that own the cursor are the ones that are open when the reader comes to it. -/
theorem owns_iff (h : b.GrowsInto offset t length) {i : Nat} {c : Collection}
    (hk : t.HasKind i (.collection c)) : t.Owns i offset ↔ i ∈ b.openIds := by
  obtain ⟨f, hf, hfk⟩ := face?_of_kind? hk
  have hfe : f.IsElement := by simp [Face.IsElement, hfk]
  constructor
  · intro ho
    refine Decidable.of_not_not fun hi => ?_
    by_cases hlt : i < b.tree.size
    · obtain ⟨g, hg, hgk⟩ := face?_of_kind? ((h.hasKind_iff hlt).1 hk)
      have hge : g.IsElement := by simp [Face.IsElement, hgk]
      obtain ⟨hsame, hclosed, hstop⟩ := h.face_of_not_open hg hge hi
      exact h.whole.not_owns_of_closed hsame hclosed hstop (by simp [hgk]) ho
    · -- what comes later starts behind the cursor
      have hstart := ((owns_iff_of_collection hf hfk).1 ho).1
      rcases h.continues.late i f (Nat.not_lt.1 hlt) hf hfe with hle | ⟨hword, -⟩
      · omega
      · simp [hfk, NodeKind.isDelimited] at hword
  · intro hi
    obtain ⟨hstart, hstop⟩ := h.continues.reaches i f hi hf
    refine (owns_iff_of_collection hf hfk).2 ⟨hstart, ?_⟩
    rcases hstop List.not_mem_nil with hlt | ⟨hopen, hle⟩
    · exact .inl hlt
    · rcases Nat.lt_or_eq_of_le hle with hlt | heq
      · exact .inl hlt
      · exact .inr ⟨hopen, heq⟩

/-- A collection lies behind the cursor if the reader is done with it when it comes to the
cursor. -/
theorem isBehind_iff (h : b.GrowsInto offset t length) {v : Nat} {c : Collection}
    (hk : t.HasKind v (.collection c)) :
    t.IsBehind v (t.nodeAt offset) offset ↔ v < b.tree.size ∧ v ∉ b.openIds := by
  obtain ⟨f, hf, hfk⟩ := face?_of_kind? hk
  have hfe : f.IsElement := by simp [Face.IsElement, hfk]
  rw [IsBehind, h.whole.isWithin_nodeAt_iff hk, h.owns_iff hk, endsBy_iff hf, and_comm]
  refine and_congr_left fun hopen => ⟨fun hle => ?_, fun hlt => ?_⟩
  · refine Decidable.of_not_not fun hge => ?_
    have hspan := (h.whole.spaced.ended v f hf hfe List.not_mem_nil).1
    rcases h.continues.late v f (Nat.not_lt.1 hge) hf hfe with hlate | ⟨hword, -⟩
    · omega
    · simp [hfk, NodeKind.isDelimited] at hword
  · obtain ⟨g, hg, hgk⟩ := face?_of_kind? ((h.hasKind_iff hlt).1 hk)
    have hge : g.IsElement := by simp [Face.IsElement, hgk]
    obtain ⟨hsame, -, hstop⟩ := h.face_of_not_open hg hge hopen
    obtain rfl := Option.some.inj (hf.symm.trans hsame)
    exact hstop

theorem exists_elements_eq (h : b.GrowsInto offset t length) {i : Nat} {c : Collection}
    (hk : b.tree.HasKind i (.collection c)) :
    ∃ later, t.elements i = b.tree.elements i ++ later ∧ ∀ e ∈ later, b.tree.size ≤ e := by
  obtain ⟨later, hlater, hle⟩ := h.continues.children i
  refine ⟨later.map (· + 1), ?_, fun e he => ?_⟩
  · rw [h.whole.sound.elements_eq (h.hasKind hk) rfl, h.past.sound.tree.elements_eq hk rfl, hlater,
      List.map_append]
  · obtain ⟨c, hc, rfl⟩ := List.mem_map.1 he
    exact Nat.le_succ_of_le (hle c hc)

theorem elements_of_ended (h : b.GrowsInto offset t length) {i : Nat} {c : Collection}
    (hk : b.tree.HasKind i (.collection c)) (hi : b.HasEnded i) :
    t.elements i = b.tree.elements i ∧ ∀ e ∈ b.tree.elements i, b.HasEnded e := by
  have hsound := h.past.sound.tree
  rw [h.whole.sound.elements_eq (h.hasKind hk) rfl, hsound.elements_eq hk rfl,
    h.agreeOn.children i hi]
  refine ⟨rfl, fun e he => ?_⟩
  obtain ⟨f, hf, rfl⟩ := List.mem_map.1 he
  have hform := (hsound.wrapped f i ((hsound.mem_children i f).1 hf)).2 ⟨_, hk, rfl⟩
  exact h.agreeOn.down f (h.agreeOn.down i hi f hf) (f + 1) (by simp [hsound.single f hform])

/-- The operator of a list is settled once the first symbol in it is. -/
theorem operator?_eq_of_head (h : b.GrowsInto offset t length) {list first : Nat}
    {rest : List Nat} (hk : b.tree.HasKind list (.collection .list))
    (helements : b.tree.elements list = first :: rest) {symbol : Option Nat}
    (hold : (b.tree.symbolsIn first).head? = symbol) (hnew : (t.symbolsIn first).head? = symbol)
    (htext : ∀ s ∈ symbol, t.text? s = b.tree.text? s) : t.operator? list = b.tree.operator? list := by
  obtain ⟨later, hlater, -⟩ := h.exists_elements_eq hk
  rw [h.whole.sound.operator?_eq (h.hasKind hk), h.past.sound.tree.operator?_eq hk, hlater,
    helements]
  simp only [List.cons_append, List.head?_cons, Option.bind_some, hold, hnew]
  cases symbol with
  | none => rfl
  | some s => exact htext s rfl

theorem operator?_of_ended (h : b.GrowsInto offset t length) {list first : Nat} {rest : List Nat}
    (hk : b.tree.HasKind list (.collection .list))
    (helements : b.tree.elements list = first :: rest) (hfirst : b.HasEnded first) :
    t.operator? list = b.tree.operator? list := by
  obtain ⟨hsame, hall⟩ := h.agreeOn.symbolsIn hfirst
  refine h.operator?_eq_of_head hk helements rfl (by rw [hsame]) fun s hs => ?_
  exact h.agreeOn.text s (hall s (List.mem_of_head? hs))

/-- Once an open list has a symbol in its first element, the operator of the list around it is
settled as well: it is that symbol, or comes before it. -/
theorem operator?_of_container (h : b.GrowsInto offset t length) {list first outer : Nat}
    {rest : List Nat} (hk : b.tree.HasKind list (.collection .list))
    (helements : b.tree.elements list = first :: rest) (hfirst : b.HasEnded first)
    (hsymbols : b.tree.symbolsIn first ≠ []) (houter : b.tree.container? list = some outer) :
    t.operator? outer = b.tree.operator? outer := by
  have hsound := h.past.sound.tree
  have hlt : outer < b.tree.size := Nat.lt_trans (container?_lt houter) (lt_size_of_hasKind hk)
  by_cases hlist : b.tree.HasKind outer (.collection .list)
  · have hmem := hsound.mem_elements_of_container? houter
    cases houters : b.tree.elements outer with
    | nil => simp [houters] at hmem
    | cons head others =>
      by_cases hhead : head = list
      · -- the first symbol of the outer list is the one in the inner list
        subst hhead
        obtain ⟨symbol, hsymbol⟩ : ∃ s, (b.tree.symbolsIn first).head? = some s := by
          cases hs : b.tree.symbolsIn first with
          | nil => exact absurd hs hsymbols
          | cons s _ => exact ⟨s, rfl⟩
        obtain ⟨hsame, hall⟩ := h.agreeOn.symbolsIn hfirst
        obtain ⟨later, hlater, -⟩ := h.exists_elements_eq hk
        have hold : (b.tree.symbolsIn head).head? = some symbol := by
          simp [hsound.symbolsIn_collection hk, helements, List.head?_append, hsymbol]
        refine h.operator?_eq_of_head hlist houters hold ?_ ?_
        · simp [h.whole.sound.symbolsIn_collection (h.hasKind hk), hlater, helements,
            List.head?_append, hsame, hsymbol]
        · rintro s ⟨⟩
          exact h.agreeOn.text symbol (hall symbol (List.mem_of_head? hsymbol))
      · -- an element before an open one has ended
        have hsorted := hsound.pairwise_elements hlist rfl
        rw [houters] at hmem hsorted
        have hbefore := (List.pairwise_cons.1 hsorted).1 list
          ((List.mem_cons.1 hmem).resolve_left (Ne.symm hhead))
        have hcontainer := (hsound.mem_elements_iff hlist rfl).1
          (show head ∈ b.tree.elements outer by simp [houters])
        obtain ⟨f, hf, hfe⟩ := h.past.tree.element_of_container hsound hcontainer
        obtain ⟨g, hg, hge⟩ := h.past.tree.element_of_container hsound houter
        refine h.operator?_of_ended hlist houters (h.past.hasEnded hf hfe ?_)
        rcases h.past.tree.apart head list f g hbefore hf hg hfe hge with hup | ⟨hopen, -⟩
        · exact absurd hup (hsound.not_above_sibling hcontainer houter)
        · exact hopen
  · rw [operator?, operator?, if_neg hlist, if_neg (mt (h.hasKind_iff hlt).1 hlist)]

end GrowsInto

/-- The elements of a vector that the reader is done with, without a word that ends at the
cursor. -/
def doneIn (b : PartialTree) (offset vector : Nat) : List Nat :=
  (b.tree.elements vector).filter fun e => e ∉ b.openIds ∧ ¬ b.tree.Owns e offset

namespace GrowsInto

theorem owns_of_late (h : b.GrowsInto offset t length) {e p : Nat} (hp : t.container? e = some p)
    (he : b.tree.size ≤ e) (hend : t.EndsBy e offset) : t.Owns e offset := by
  obtain ⟨f, hf, hfe⟩ := h.whole.element_of_container hp
  have hspan := (h.whole.spaced.ended e f hf hfe List.not_mem_nil).1
  have hle := (endsBy_iff hf).1 hend
  rcases h.continues.late e f he hf hfe with hstart | ⟨hword, hstop⟩
  · omega
  · rcases h.whole.element_kind hf hfe with ⟨k, hk⟩ | ⟨c, hk⟩
    · exact (owns_iff_of_token hf hk).2 ⟨by omega, hstop⟩
    · simp [hk, NodeKind.isDelimited] at hword

/-- What the cursor has left behind in a collection is known when the reader comes to it. -/
theorem leftBehind_eq (h : b.GrowsInto offset t length) {v : Nat} {c : Collection}
    (hk : b.tree.HasKind v (.collection c)) : t.leftBehind v offset = b.doneIn offset v := by
  obtain ⟨later, hlater, hle⟩ := h.exists_elements_eq hk
  have hmem : ∀ e, e ∈ t.elements v ↔ t.container? e = some v :=
    fun e => h.whole.sound.mem_elements_iff (h.hasKind hk) rfl
  have hnone : later.filter (fun e => t.EndsBy e offset ∧ ¬ t.Owns e offset) = [] := by
    refine List.filter_eq_nil_iff.2 fun e he hpass => ?_
    obtain ⟨hend, howns⟩ := of_decide_eq_true hpass
    exact howns (h.owns_of_late ((hmem e).1 (by simp [hlater, he])) (hle e he) hend)
  rw [leftBehind, hlater, List.filter_append, hnone, List.append_nil, doneIn]
  refine List.filter_congr fun e he => ?_
  rw [decide_eq_decide]
  obtain ⟨f, hf, hfe⟩ := h.past.tree.element_of_container h.past.sound.tree
    ((h.past.sound.tree.mem_elements_iff hk rfl).1 he)
  by_cases hopen : e ∈ b.openIds
  · obtain ⟨d, hd⟩ := h.past.kind_of_open hopen
    simp [hopen, (h.owns_iff (h.hasKind hd)).2 hopen]
  · obtain ⟨hsame, -, hstop⟩ := h.face_of_not_open hf hfe hopen
    simp [hopen, (endsBy_iff hsame).2 hstop, owns_congr (hsame.trans hf.symm)]

end GrowsInto
end PhelAssist.PartialTree
