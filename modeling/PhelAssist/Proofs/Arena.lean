import PhelAssist.Tree.Event
import PhelAssist.Tree.Navigation

namespace PhelAssist

namespace SourceTree

variable {t : SourceTree}

theorem node?_eq_none_iff {id : Nat} : t.node? id = none ↔ t.size ≤ id := by
  simp [node?, size]

theorem exists_node {id : Nat} (h : id < t.size) : ∃ n, t.node? id = some n :=
  ⟨_, Array.getElem?_eq_getElem h⟩

theorem children_of_size_le {id : Nat} (h : t.size ≤ id) : t.children id = [] := by
  simp [children, node?_eq_none_iff.2 h]

theorem lt_size_of_parent? {id p : Nat} (h : t.parent? id = some p) : id < t.size := by
  obtain ⟨n, hn, -⟩ := Option.bind_eq_some_iff.1 h
  exact lt_size_of_node? hn

theorem lt_size_of_hasKind {id : Nat} {kind : NodeKind} (h : t.HasKind id kind) : id < t.size := by
  obtain ⟨n, hn, -⟩ := Option.map_eq_some_iff.1 h
  exact lt_size_of_node? hn

theorem HasKind.unique {id : Nat} {kind kind' : NodeKind} (h : t.HasKind id kind)
    (h' : t.HasKind id kind') : kind = kind' :=
  Option.some.inj (h.symm.trans h')

/-- The nodes above a node depend on the links up to it alone. -/
theorem ancestors_congr {t' : SourceTree} {id : Nat}
    (h : ∀ j, j ≤ id → t'.parent? j = t.parent? j) : t'.ancestors id = t.ancestors id := by
  induction id using Nat.strongRecOn with
  | _ id ih =>
    cases hp : t.parent? id with
    | none => rw [ancestors_eq_nil hp, ancestors_eq_nil ((h id (Nat.le_refl id)).trans hp)]
    | some p =>
      have hlt := parent?_lt hp
      rw [ancestors_eq_cons hp, ancestors_eq_cons ((h id (Nat.le_refl id)).trans hp)]
      rw [ih p hlt fun j hj => h j (Nat.le_trans hj (Nat.le_of_lt hlt))]

theorem mem_ancestors_trans {a b c : Nat} (hab : b ∈ t.ancestors a) (hbc : c ∈ t.ancestors b) :
    c ∈ t.ancestors a := by
  induction a using Nat.strongRecOn with
  | _ a ih =>
    cases hp : t.parent? a with
    | none => simp [ancestors_eq_nil hp] at hab
    | some p =>
      rw [ancestors_eq_cons hp] at hab ⊢
      rcases List.mem_cons.1 hab with rfl | hab
      · exact List.mem_cons_of_mem _ hbc
      · exact List.mem_cons_of_mem _ (ih p (parent?_lt hp) hab)

theorem exists_child_of_mem_ancestors {a p : Nat} (h : p ∈ t.ancestors a) :
    ∃ c, t.parent? c = some p := by
  induction a using Nat.strongRecOn with
  | _ a ih =>
    cases hp : t.parent? a with
    | none => simp [ancestors_eq_nil hp] at h
    | some q =>
      rw [ancestors_eq_cons hp] at h
      rcases List.mem_cons.1 h with rfl | h
      · exact ⟨a, hp⟩
      · exact ih q (parent?_lt hp) h

section Append

variable (parent : Nat) (hp : parent < t.size) (kind : NodeKind) (span : Span)
  (text : Option String)

theorem node?_append (i : Nat) :
    (t.append parent hp kind span text).node? i =
      if i = t.size then some ⟨kind, span, text, some parent, [], true⟩
      else (t.node? i).map fun n => if i = parent then n.adopt t.size else n := by
  simp only [node?, append, size, Array.getElem?_push, Array.size_modify, Array.getElem?_modify]
  by_cases hs : i = t.nodes.size
  · simp [hs]
  · by_cases hi : parent = i
    · simp [hs, hi]
    · simp [hs, hi, Ne.symm hi]

theorem kind?_append (i : Nat) :
    (t.append parent hp kind span text).kind? i = if i = t.size then some kind else t.kind? i := by
  simp only [kind?, node?_append]
  split
  · rfl
  · cases t.node? i with
    | none => rfl
    | some n => by_cases hi : i = parent <;> simp [hi, Node.adopt]

theorem span?_append (i : Nat) :
    (t.append parent hp kind span text).span? i = if i = t.size then some span else t.span? i := by
  simp only [span?, node?_append]
  split
  · rfl
  · cases t.node? i with
    | none => rfl
    | some n => by_cases hi : i = parent <;> simp [hi, Node.adopt]

theorem text?_append_of_lt {i : Nat} (hi : i < t.size) :
    (t.append parent hp kind span text).text? i = t.text? i := by
  rw [text?, text?, node?_append, if_neg (Nat.ne_of_lt hi)]
  cases t.node? i with
  | none => rfl
  | some n => by_cases hi : i = parent <;> simp [hi, Node.adopt]

theorem parent?_append (i : Nat) :
    (t.append parent hp kind span text).parent? i =
      if i = t.size then some parent else t.parent? i := by
  simp only [parent?, node?_append]
  split
  · rfl
  · cases t.node? i with
    | none => rfl
    | some n => by_cases hi : i = parent <;> simp [hi, Node.adopt]

theorem children_append (i : Nat) :
    (t.append parent hp kind span text).children i =
      if i = parent then t.children i ++ [t.size] else t.children i := by
  by_cases hs : i = t.size
  · subst hs
    simp [children, node?_append, node?_eq_none_iff.2 (Nat.le_refl t.size), Nat.ne_of_gt hp]
  · simp only [children, node?_append, hs, if_false]
    by_cases hi : i = parent
    · obtain ⟨n, hn⟩ := exists_node hp
      simp [hi, hn, Node.adopt]
    · simp [hi]

theorem ancestors_append_of_lt {i : Nat} (hi : i < t.size) :
    (t.append parent hp kind span text).ancestors i = t.ancestors i := by
  refine ancestors_congr fun j hj => ?_
  rw [parent?_append, if_neg (by omega)]

end Append

section Settle

variable (id stop : Nat) (closed : Bool)

theorem node?_settle (i : Nat) :
    (t.settle id stop closed).node? i =
      (t.node? i).map fun n => if i = id then n.settle stop closed else n := by
  simp only [node?, settle, Array.getElem?_modify]
  by_cases hi : i = id
  · simp [hi]
  · simp [hi, Ne.symm hi]

/-- Settling changes no field of a node but its end and whether it is closed. -/
theorem map_settle {α : Type} (view : Node → α)
    (hview : ∀ n : Node, view (n.settle stop closed) = view n) (i : Nat) :
    ((t.settle id stop closed).node? i).map view = (t.node? i).map view := by
  rw [node?_settle, Option.map_map]
  congr 1
  funext n
  by_cases hi : i = id <;> simp [hi, hview]

@[simp] theorem kind?_settle (i : Nat) : (t.settle id stop closed).kind? i = t.kind? i :=
  map_settle id stop closed (·.kind) (fun _ => rfl) i

@[simp] theorem hasKind_settle (i : Nat) (kind : NodeKind) :
    (t.settle id stop closed).HasKind i kind ↔ t.HasKind i kind := by
  simp [HasKind]

@[simp] theorem children_settle (i : Nat) :
    (t.settle id stop closed).children i = t.children i :=
  congrArg (·.getD []) (map_settle id stop closed (·.children) (fun _ => rfl) i)

@[simp] theorem parent?_settle (i : Nat) : (t.settle id stop closed).parent? i = t.parent? i := by
  simp only [parent?, node?_settle, Option.bind_map]
  congr 1
  funext n
  by_cases hi : i = id <;> simp [hi, Node.settle]

@[simp] theorem text?_settle (i : Nat) : (t.settle id stop closed).text? i = t.text? i := by
  simp only [text?, node?_settle, Option.bind_map]
  congr 1
  funext n
  by_cases hi : i = id <;> simp [hi, Node.settle]

@[simp] theorem ancestors_settle (i : Nat) :
    (t.settle id stop closed).ancestors i = t.ancestors i :=
  ancestors_congr fun j _ => parent?_settle id stop closed j

end Settle

end SourceTree
end PhelAssist
