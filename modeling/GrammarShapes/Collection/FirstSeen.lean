set_option autoImplicit false

/-! # Lists of first occurrences

A list without repetitions stands for a set that remembers the order in which its members came. Adding
members keeps the list as a head and appends those that are new.
-/

namespace GrammarShapes

variable {α : Type} [DecidableEq α]

/-- Appends the members of `more` that are not there yet, in order. -/
def addNew (seen : List α) : List α → List α
  | [] => seen
  | x :: more => addNew (if x ∈ seen then seen else seen ++ [x]) more

/-- The first occurrences in a list, in order. -/
def firstSeen (xs : List α) : List α :=
  addNew [] xs

theorem mem_addNew_iff {seen more : List α} {x : α} : x ∈ addNew seen more ↔ x ∈ seen ∨ x ∈ more := by
  induction more generalizing seen with
  | nil => simp [addNew]
  | cons y more ih =>
      rw [addNew, ih]
      by_cases h : y ∈ seen
      · simp only [h, if_true, List.mem_cons]
        constructor
        · rintro (h' | h')
          · exact Or.inl h'
          · exact Or.inr (Or.inr h')
        · rintro (h' | rfl | h')
          · exact Or.inl h'
          · exact Or.inl h
          · exact Or.inr h'
      · simp [h, or_assoc]

theorem mem_firstSeen_iff {xs : List α} {x : α} : x ∈ firstSeen xs ↔ x ∈ xs := by
  simp [firstSeen, mem_addNew_iff]

theorem nodup_addNew {seen more : List α} (h : seen.Nodup) : (addNew seen more).Nodup := by
  induction more generalizing seen with
  | nil => exact h
  | cons y more ih =>
      rw [addNew]
      apply ih
      by_cases hy : y ∈ seen
      · simpa [hy] using h
      · simp only [hy, if_false]
        exact List.nodup_append.2 ⟨h, by simp, by
          intro a ha b hb
          simp only [List.mem_singleton] at hb
          subst hb
          exact fun hab => hy (hab ▸ ha)⟩

theorem nodup_firstSeen (xs : List α) : (firstSeen xs).Nodup :=
  nodup_addNew (by simp)

theorem prefix_addNew (seen more : List α) : seen <+: addNew seen more := by
  induction more generalizing seen with
  | nil => exact List.prefix_rfl
  | cons y more ih =>
      rw [addNew]
      by_cases hy : y ∈ seen
      · simpa [hy] using ih seen
      · simp only [hy, if_false]
        exact (List.prefix_append seen [y]).trans (ih _)

theorem addNew_append (seen more rest : List α) :
    addNew seen (more ++ rest) = addNew (addNew seen more) rest := by
  induction more generalizing seen with
  | nil => rfl
  | cons x more ih => exact ih _

theorem addNew_eq_append (seen more : List α) :
    addNew seen more = seen ++ (more.filter (· ∉ seen)).eraseDups := by
  induction more generalizing seen with
  | nil => exact (List.append_nil seen).symm
  | cons x more ih =>
      rw [addNew, ih, List.filter_cons]
      by_cases hx : x ∈ seen
      · simp [hx]
      · have hOthers : more.filter (· ∉ seen ++ [x]) =
            (more.filter (· ∉ seen)).filter fun y => !y == x := by
          rw [List.filter_filter]
          apply List.filter_congr
          intro y _
          rw [Bool.eq_iff_iff]
          simp [and_comm]
        rw [if_neg hx, if_pos (decide_eq_true hx), hOthers, List.eraseDups_cons, List.append_assoc,
          List.singleton_append]

theorem firstSeen_eq_eraseDups (xs : List α) : firstSeen xs = xs.eraseDups := by
  rw [firstSeen, addNew_eq_append, List.nil_append, List.filter_eq_self.mpr (by simp)]

theorem eraseDups_of_nodup {xs : List α} (h : xs.Nodup) : xs.eraseDups = xs := by
  induction xs with
  | nil => rfl
  | cons x xs ih =>
      obtain ⟨hNew, hRest⟩ := List.nodup_cons.mp h
      have hOthers : xs.filter (fun y => !y == x) = xs := by
        rw [List.filter_eq_self]
        intro y hy
        have hne : y ≠ x := fun hEq => hNew (hEq ▸ hy)
        simpa using hne
      rw [List.eraseDups_cons, hOthers, ih hRest]

/-- Only the first occurrences that are not there yet are appended. -/
theorem addNew_firstSeen (seen more : List α) :
    addNew seen (firstSeen more) = seen ++ more.eraseDups.filter (· ∉ seen) := by
  rw [addNew_eq_append, eraseDups_of_nodup (List.Pairwise.filter _ (nodup_firstSeen more)),
    firstSeen_eq_eraseDups]

end GrammarShapes
