import Mathlib.Order.Bounds.Defs
import PhelAssist.Proofs.Shape

namespace PhelAssist

namespace SourceTree

/-- Puts nodes on a stack, each on top of those before it. -/
def pushAll (stack nodes : List Nat) : List Nat := nodes.foldl (fun stack id => id :: stack) stack

/-- Nodes that are pushed from the last to the first are taken off in their order. -/
theorem pushAll_reverse (stack nodes : List Nat) : pushAll stack nodes.reverse = nodes ++ stack := by
  simp [pushAll]

variable (t : SourceTree)

/-- What a search from a stack has still to see: each node on it, with all below that node. -/
def ahead (stack : List Nat) : List Nat := stack.flatMap fun id => id :: t.descendants id

/-- A node that is taken off is seen, and its children take its place. -/
theorem ahead_cons (id : Nat) (rest : List Nat) :
    t.ahead (id :: rest) = id :: t.ahead (pushAll rest (t.children id).reverse) := by
  rw [pushAll_reverse, ahead, ahead, List.flatMap_cons, List.flatMap_append, descendants_eq,
    List.cons_append]

theorem length_ahead_lt (id : Nat) (rest : List Nat) :
    (t.ahead (pushAll rest (t.children id).reverse)).length < (t.ahead (id :: rest)).length := by
  rw [ahead_cons, List.length_cons]
  exact Nat.lt_succ_self _

/-- Takes one node after the other off a stack, with the children of each pushed in its place, and
adds the symbols to those found so far. -/
def gather (stack symbols : List Nat) : List Nat :=
  match stack with
  | [] => symbols
  | id :: rest =>
    let next := pushAll rest (t.children id).reverse
    if t.HasKind id (.token .symbol) then gather next (symbols ++ [id]) else gather next symbols
termination_by (t.ahead stack).length
decreasing_by all_goals exact length_ahead_lt t id rest

/-- Takes nodes off a stack in the same way, up to the first one of a kind. -/
def seek (kind : NodeKind) (stack : List Nat) : Option Nat :=
  match stack with
  | [] => none
  | id :: rest =>
    if t.HasKind id kind then some id
    else seek kind (pushAll rest (t.children id).reverse)
termination_by (t.ahead stack).length
decreasing_by exact length_ahead_lt t id rest

/-- What is found is followed by what is still ahead, at every step of the loop. -/
theorem gather_eq_append_filter (stack symbols : List Nat) :
    t.gather stack symbols =
      symbols ++ (t.ahead stack).filter fun id => t.HasKind id (.token .symbol) := by
  fun_induction gather t stack symbols with
  | case1 symbols => simp [ahead]
  | case2 symbols id rest next hkind ih => simp [ih, next, ahead_cons, hkind]
  | case3 symbols id rest next hkind ih => simp [ih, next, ahead_cons, hkind]

theorem seek_eq_find? (kind : NodeKind) (stack : List Nat) :
    t.seek kind stack = (t.ahead stack).find? fun id => t.HasKind id kind := by
  fun_induction seek t kind stack with
  | case1 => rfl
  | case2 id rest hkind => simp [ahead_cons, hkind]
  | case3 id rest hkind ih => simp [ahead_cons, hkind, ih]

theorem gather_eq_symbolsIn (id : Nat) : t.gather [id] [] = t.symbolsIn id := by
  rw [gather_eq_append_filter, List.nil_append, ahead, List.flatMap_singleton, symbolsIn]

theorem seek_eq_descendantOfKind? (id : Nat) (kind : NodeKind) :
    t.seek kind (pushAll [] (t.children id).reverse) = t.descendantOfKind? id kind := by
  rw [seek_eq_find?, pushAll_reverse, List.append_nil, ahead, ← descendants_eq, descendantOfKind?]

variable {t}

/-- The first number of an increasing list with a property is the least one. -/
theorem find?_eq_some_iff_isLeast {l : List Nat} (hsorted : l.Pairwise (· < ·)) {p : Nat → Bool}
    {d : Nat} : l.find? p = some d ↔ IsLeast {x | x ∈ l ∧ p x = true} d := by
  constructor
  · intro h
    obtain ⟨hp, before, after, rfl, hbefore⟩ := List.find?_eq_some_iff_append.1 h
    refine ⟨⟨by simp, hp⟩, ?_⟩
    rintro x ⟨hx, hpx⟩
    rcases List.mem_append.1 hx with hx | hx
    · have := hbefore x hx
      simp [hpx] at this
    · rcases List.mem_cons.1 hx with rfl | hx
      · exact Nat.le_refl _
      · have htail := (List.pairwise_append.1 hsorted).2.1
        exact Nat.le_of_lt ((List.pairwise_cons.1 htail).1 x hx)
  · rintro ⟨⟨hd, hp⟩, hleast⟩
    obtain ⟨before, after, rfl⟩ := List.append_of_mem hd
    apply List.find?_eq_some_iff_append.2
    refine ⟨hp, before, after, rfl, ?_⟩
    intro x hx
    have hlt : x < d := (List.pairwise_append.1 hsorted).2.2 x hx d List.mem_cons_self
    cases hpx : p x with
    | false => rfl
    | true =>
      have := hleast ⟨List.mem_append_left _ hx, hpx⟩
      omega

theorem Preordered.descendantOfKind?_eq_some_iff (ht : t.Preordered) (hlinked : t.Linked)
    {id d : Nat} {kind : NodeKind} :
    t.descendantOfKind? id kind = some d ↔
      IsLeast {d | id ∈ t.ancestors d ∧ t.HasKind d kind} d := by
  rw [descendantOfKind?, find?_eq_some_iff_isLeast (ht.pairwise_descendants hlinked id)]
  simp only [hlinked.mem_descendants_iff, decide_eq_true_eq]

theorem Linked.descendantOfKind?_eq_none_iff (ht : t.Linked) {id : Nat} {kind : NodeKind} :
    t.descendantOfKind? id kind = none ↔ ∀ d, id ∈ t.ancestors d → ¬ t.HasKind d kind := by
  simp [descendantOfKind?, ht.mem_descendants_iff]

/-- Searches below a node see what lies below it in the order of the ids, whether they go down from
child to child or work off a stack. -/
structure SearchedInOrder (t : SourceTree) (id : Nat) : Prop where
  gathered : t.gather [id] [] = t.symbolsIn id
  increasing : (t.symbolsIn id).Pairwise (· < ·)
  symbols : ∀ j, j ∈ t.symbolsIn id ↔ t.HasKind j (.token .symbol) ∧ t.IsWithin j id
  sought : ∀ kind,
    t.seek kind (pushAll [] (t.children id).reverse) = t.descendantOfKind? id kind
  least : ∀ kind d, t.descendantOfKind? id kind = some d ↔
    IsLeast {d | id ∈ t.ancestors d ∧ t.HasKind d kind} d
  missing : ∀ kind, t.descendantOfKind? id kind = none ↔
    ∀ d, id ∈ t.ancestors d → ¬ t.HasKind d kind

end SourceTree

/-- Below every node of a tree that events describe, searches find all there is to find, in the order
of the ids. -/
theorem ofEvents_searchedInOrder {events : List Event} {t : SourceTree}
    (h : SourceTree.ofEvents events = .ok t) (id : Nat) : t.SearchedInOrder id := by
  have hpre := ofEvents_preordered h
  have hlinked := (ofEvents_shaped h).1.toLinked
  exact ⟨t.gather_eq_symbolsIn id, hpre.pairwise_symbolsIn hlinked id,
    fun j => hlinked.mem_symbolsIn_iff, t.seek_eq_descendantOfKind? id,
    fun kind d => hpre.descendantOfKind?_eq_some_iff hlinked,
    fun kind => hlinked.descendantOfKind?_eq_none_iff⟩

/-- Below a region in error: a word, and a vector without a form of its own whose symbol stands in
one. -/
theorem ofEvents_searchedInOrder_error :
    ∃ t, SourceTree.ofEvents [.start (.collection .list) 0, .token (.token .symbol) "f" ⟨1, 2⟩,
      .start .error 3, .token (.token .symbol) "x" ⟨3, 4⟩, .start (.collection .vector) 4,
      .token (.token .symbol) "y" ⟨5, 6⟩, .finish 7 true, .finish 7 true, .finish 9 false] = .ok t ∧
      t.symbolsIn 6 = [7, 10] ∧ t.descendantOfKind? 6 .form = some 9 ∧
      t.descendantOfKind? 6 (.collection .list) = none ∧ t.SearchedInOrder 6 := by
  have h : SourceTree.ofEvents [.start (.collection .list) 0,
      .token (.token .symbol) "f" ⟨1, 2⟩, .start .error 3, .token (.token .symbol) "x" ⟨3, 4⟩,
      .start (.collection .vector) 4, .token (.token .symbol) "y" ⟨5, 6⟩, .finish 7 true,
      .finish 7 true, .finish 9 false] = .ok _ := rfl
  refine ⟨_, h, ?_, ?_, ?_, ofEvents_searchedInOrder h 6⟩
  · decide +kernel
  · decide +kernel
  · decide +kernel

end PhelAssist
