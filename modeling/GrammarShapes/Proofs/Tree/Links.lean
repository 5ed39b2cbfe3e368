import GrammarShapes.Proofs.Tree.Numbering
import Mathlib.Data.List.Nodup

set_option autoImplicit false

/-! # Parents and children in built trees

The entries of a tree list its nodes in document order, each with the number of the node above it. Where
the nodes are numbered in this order, a number stands for one subtree, so that nothing is a child of two
nodes or twice a child of one, and the children of a node have greater numbers than the node, in increasing
order.
-/

namespace GrammarShapes

namespace SyntaxTree

mutual

theorem entriesOnto_append (parent : Option Nat) (rest : List (Option Nat × SyntaxTree)) :
    ∀ t : SyntaxTree, entriesOnto parent rest t = entriesOnto parent [] t ++ rest
  | .node n ts => by
      simp only [entriesOnto, entriesAllOnto_append n.id rest ts, List.cons_append]

theorem entriesAllOnto_append (parent : Nat) (rest : List (Option Nat × SyntaxTree)) :
    ∀ ts : List SyntaxTree, entriesAllOnto parent rest ts = entriesAllOnto parent [] ts ++ rest
  | [] => rfl
  | t :: ts => by
      simp only [entriesAllOnto]
      rw [entriesOnto_append _ (entriesAllOnto parent rest ts) t,
        entriesOnto_append _ (entriesAllOnto parent [] ts) t, entriesAllOnto_append parent rest ts,
        List.append_assoc]

end

theorem entriesAllOnto_eq_flatMap (parent : Nat) (ts : List SyntaxTree) :
    entriesAllOnto parent [] ts = ts.flatMap (entriesOnto (some parent) []) := by
  induction ts with
  | nil => rfl
  | cons t ts ih =>
    rw [entriesAllOnto, entriesOnto_append, ih, List.flatMap_cons]

theorem entriesOnto_eq (parent : Option Nat) (t : SyntaxTree) :
    entriesOnto parent [] t =
      (parent, t) :: t.children.flatMap (entriesOnto (some t.root.id) []) := by
  cases t with
  | node n ts =>
    rw [entriesOnto, entriesAllOnto_eq_flatMap]
    rfl

theorem map_snd_entriesOnto (parent : Option Nat) (t : SyntaxTree) :
    (entriesOnto parent [] t).map Prod.snd = t.subtrees := by
  induction t using induction generalizing parent with
  | step t ih =>
    rw [entriesOnto_eq, subtrees_eq, List.map_cons, List.map_flatMap, List.flatMap_def, List.flatMap_def]
    exact congrArg (t :: List.flatten ·) (List.map_congr_left fun c hc => ih c hc _)

theorem map_snd_entries (t : SyntaxTree) : t.entries.map Prod.snd = t.subtrees :=
  map_snd_entriesOnto none t

theorem mem_entriesOnto_iff {above parent : Option Nat} {s t : SyntaxTree} :
    (parent, s) ∈ entriesOnto above [] t ↔
      parent = above ∧ s = t ∨ ∃ p ∈ t.subtrees, s ∈ p.children ∧ parent = some p.root.id := by
  induction t using induction generalizing above with
  | step t ih =>
    rw [entriesOnto_eq, List.mem_cons, List.mem_flatMap, Prod.mk.injEq]
    refine or_congr_right ⟨?_, ?_⟩
    · rintro ⟨c, hc, hEntry⟩
      rcases (ih c hc).mp hEntry with ⟨hParent, rfl⟩ | ⟨p, hp, hs, hParent⟩
      · exact ⟨t, mem_subtrees_self t, hc, hParent⟩
      · exact ⟨p, (infix_subtrees_of_mem_children hc).mem hp, hs, hParent⟩
    · rintro ⟨p, hp, hs, hParent⟩
      rw [subtrees_eq] at hp
      rcases List.mem_cons.mp hp with rfl | hp
      · exact ⟨s, hs, (ih s hs).mpr (Or.inl ⟨hParent, rfl⟩)⟩
      · obtain ⟨c, hc, hp⟩ := List.mem_flatMap.mp hp
        exact ⟨c, hc, (ih c hc).mpr (Or.inr ⟨p, hp, hs, hParent⟩)⟩

theorem mem_entries_iff {parent : Option Nat} {s t : SyntaxTree} :
    (parent, s) ∈ t.entries ↔
      parent = none ∧ s = t ∨ ∃ p ∈ t.subtrees, s ∈ p.children ∧ parent = some p.root.id :=
  mem_entriesOnto_iff

theorem mem_subtrees_of_mem_entries {parent : Option Nat} {s t : SyntaxTree}
    (h : (parent, s) ∈ t.entries) : s ∈ t.subtrees := by
  rw [← map_snd_entries]
  exact List.mem_map_of_mem h

namespace Numbered

variable {c p q s t u : SyntaxTree}

theorem root_id_eq_zero (h : t.Numbered) : t.root.id = 0 := by
  have hHead : (t.nodes.map Node.id).head? = some t.root.id := by
    rw [nodes_eq]
    rfl
  rw [h, List.head?_range, if_neg (by have := t.size_pos; omega)] at hHead
  exact (Option.some.inj hHead).symm

theorem eq_of_root_id (h : t.Numbered) (hs : s ∈ t.subtrees) (hu : u ∈ t.subtrees)
    (hId : s.root.id = u.root.id) : s = u := by
  have hFind := h.find?_root_id hs
  rw [hId, h.find?_root_id hu] at hFind
  exact (Option.some.inj hFind).symm

theorem pairwise_lt_root_children (h : t.Numbered) (hs : s ∈ t.subtrees) :
    ((s.root :: s.children.map root).map Node.id).Pairwise (· < ·) := by
  obtain ⟨-, -, -, -, hOwn⟩ := h.exists_append hs
  have hSublist : (s.children.map root).Sublist (s.children.flatMap nodes) := by
    induction s.children with
    | nil => exact .slnil
    | cons c cs ih =>
      rw [List.map_cons, List.flatMap_cons, nodes_eq, List.cons_append]
      exact (ih.trans (List.sublist_append_right _ _)).cons_cons _
  have hNodes : (s.root :: s.children.map root).Sublist s.nodes := by
    rw [nodes_eq]
    exact hSublist.cons_cons _
  refine List.Pairwise.sublist (hNodes.map Node.id) ?_
  rw [hOwn]
  exact List.pairwise_lt_range'

theorem pairwise_lt_children (h : t.Numbered) (hs : s ∈ t.subtrees) :
    (s.children.map (·.root.id)).Pairwise (· < ·) := by
  have hAll := h.pairwise_lt_root_children hs
  rw [List.map_cons, List.map_map] at hAll
  exact hAll.of_cons

theorem nodup_children (h : t.Numbered) (hs : s ∈ t.subtrees) :
    (s.children.map (·.root.id)).Nodup :=
  (h.pairwise_lt_children hs).imp Nat.ne_of_lt

theorem append_cons_children_unique (h : t.Numbered) (hs : s ∈ t.subtrees)
    {before after front rest : List SyntaxTree} (hFirst : s.children = before ++ c :: after)
    (hSecond : s.children = front ++ c :: rest) : before = front ∧ after = rest := by
  have hNodup := List.Nodup.of_map _ (h.nodup_children hs)
  rw [hFirst, List.nodup_middle, List.nodup_cons, List.mem_append, not_or] at hNodup
  have hSplit := (List.append_cons_inj_of_notMem hNodup.1.1 hNodup.1.2).mp (hFirst.symm.trans hSecond)
  exact ⟨hSplit.1, hSplit.2.2⟩

theorem lt_of_mem_children (h : t.Numbered) (hs : s ∈ t.subtrees) (hc : c ∈ s.children) :
    s.root.id < c.root.id := by
  have hAll := h.pairwise_lt_root_children hs
  rw [List.map_cons] at hAll
  exact List.rel_of_pairwise_cons hAll (List.mem_map_of_mem (List.mem_map_of_mem hc))

theorem le_of_mem_subtrees (h : t.Numbered) (hs : s ∈ t.subtrees) (hu : u ∈ s.subtrees) :
    s.root.id ≤ u.root.id := by
  obtain ⟨-, -, -, -, hOwn⟩ := h.exists_append hs
  have hId : u.root.id ∈ s.nodes.map Node.id := List.mem_map_of_mem (List.mem_map_of_mem hu)
  rw [hOwn] at hId
  exact (List.mem_range'_1.mp hId).1

theorem map_id_entries (h : t.Numbered) : t.entries.map (·.2.root.id) = List.range t.size := by
  rw [← h, nodes, ← map_snd_entries, List.map_map, List.map_map]
  rfl

theorem getElem?_entries (h : t.Numbered) {i : Nat} {entry : Option Nat × SyntaxTree}
    (hEntry : t.entries[i]? = some entry) : entry.2.root.id = i := by
  have hId : (t.entries.map (·.2.root.id))[i]? = some entry.2.root.id := by
    rw [List.getElem?_map, hEntry]
    rfl
  rw [h.map_id_entries] at hId
  obtain ⟨hLt, hId⟩ := List.getElem?_eq_some_iff.mp hId
  rw [← hId, List.getElem_range]

theorem parent_unique (h : t.Numbered) {a b : Option Nat} (ha : (a, s) ∈ t.entries)
    (hb : (b, u) ∈ t.entries) (hId : s.root.id = u.root.id) : a = b ∧ s = u := by
  obtain ⟨i, hi⟩ := List.getElem?_of_mem ha
  obtain ⟨j, hj⟩ := List.getElem?_of_mem hb
  obtain rfl : i = j := by
    rw [← h.getElem?_entries hi, ← h.getElem?_entries hj]
    exact hId
  rw [hi] at hj
  exact Prod.mk.inj (Option.some.inj hj)

theorem eq_of_mem_children (h : t.Numbered) (hp : p ∈ t.subtrees) (hq : q ∈ t.subtrees)
    (hcp : c ∈ p.children) (hcq : c ∈ q.children) : p = q := by
  have hFirst : (some p.root.id, c) ∈ t.entries := mem_entries_iff.mpr (Or.inr ⟨p, hp, hcp, rfl⟩)
  have hSecond : (some q.root.id, c) ∈ t.entries := mem_entries_iff.mpr (Or.inr ⟨q, hq, hcq, rfl⟩)
  obtain ⟨hIds, -⟩ := h.parent_unique hFirst hSecond rfl
  exact h.eq_of_root_id hp hq (Option.some.inj hIds)

theorem root_id_mem_children_iff (h : t.Numbered) {parent : Option Nat} (hs : (parent, s) ∈ t.entries)
    (hu : u ∈ t.subtrees) : s.root.id ∈ u.children.map (·.root.id) ↔ parent = some u.root.id := by
  rw [List.mem_map]
  constructor
  · rintro ⟨c, hc, hId⟩
    have hChild : (some u.root.id, c) ∈ t.entries := mem_entries_iff.mpr (Or.inr ⟨u, hu, hc, rfl⟩)
    exact (h.parent_unique hs hChild hId.symm).1
  · rintro rfl
    rcases mem_entries_iff.mp hs with ⟨hNone, -⟩ | ⟨p, hp, hChild, hParent⟩
    · cases hNone
    · obtain rfl : u = p := h.eq_of_root_id hu hp (Option.some.inj hParent)
      exact ⟨s, hChild, rfl⟩

end Numbered

/-- `Linked t i parent s`: node `i` of the tree is the root of `s`. It has the given parent, which stands
before it, and it is a child of that node once and of no other; its own children follow in order. -/
structure Linked (t : SyntaxTree) (i : Nat) (parent : Option Nat) (s : SyntaxTree) : Prop where
  find? : t.find? i = some s
  parent_eq_none_iff : parent = none ↔ i = 0
  parent_lt : ∀ p, parent = some p → p < i
  children_lt : (s.children.map (·.root.id)).Pairwise (· < ·)
  count_children : ∀ j above u, t.entries[j]? = some (above, u) →
    (u.children.map (·.root.id)).count i = if parent = some j then 1 else 0

theorem Numbered.linked {t s : SyntaxTree} {i : Nat} {parent : Option Nat} (h : t.Numbered)
    (hEntry : t.entries[i]? = some (parent, s)) : Linked t i parent s := by
  have hMem : (parent, s) ∈ t.entries := List.mem_of_getElem? hEntry
  have hs : s ∈ t.subtrees := mem_subtrees_of_mem_entries hMem
  obtain rfl : s.root.id = i := h.getElem?_entries hEntry
  constructor
  · exact h.find?_root_id hs
  · rcases mem_entries_iff.mp hMem with ⟨rfl, rfl⟩ | ⟨p, hp, hChild, rfl⟩
    · exact ⟨fun _ => h.root_id_eq_zero, fun _ => rfl⟩
    · have hLt := h.lt_of_mem_children hp hChild
      exact ⟨fun hNone => (by cases hNone), fun hZero => (by omega)⟩
  · rintro _ rfl
    rcases mem_entries_iff.mp hMem with ⟨hNone, -⟩ | ⟨p, hp, hChild, hParent⟩
    · cases hNone
    · rw [Option.some.inj hParent]
      exact h.lt_of_mem_children hp hChild
  · exact h.pairwise_lt_children hs
  · intro j above u hOther
    have hu : u ∈ t.subtrees := mem_subtrees_of_mem_entries (List.mem_of_getElem? hOther)
    obtain rfl : u.root.id = j := h.getElem?_entries hOther
    rw [(h.nodup_children hu).count]
    simp only [h.root_id_mem_children_iff hMem hu]

end SyntaxTree

end GrammarShapes
