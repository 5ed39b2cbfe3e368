import GrammarShapes.Collection.Directory
import GrammarShapes.Json.Reading
import GrammarShapes.Proofs.Json.Drafts
import Mathlib.Logic.Basic

set_option autoImplicit false

/-! # Readers and the limit on nesting

What a reader makes of a draft that was written depends on the nesting of the value alone: it gives its
result where there is room for all arrays and objects, and else the fault that the nesting is too deep.
`limited` is such an outcome. Sequences of limited readers are limited by the deepest of their values, and a
reader of a container needs room for one more than the readers of its parts.
-/

namespace GrammarShapes.Json

def roomAt (n : Nat) : Nat :=
  nestingLimit - n

/-- The outcome `a`, which needs room for `depth` arrays and objects inside each other, where `n` are
open. -/
def limited {ε α : Type} (e : ε) (n depth : Nat) (a : α) : Except ε α :=
  if depth ≤ roomAt n then .ok a else .error e

abbrev limitedRead {α : Type} (n depth : Nat) (a : α) : Except Error α :=
  limited (.fault .nestingTooDeep) n depth a

section Limited

variable {ε α β : Type} {e : ε} {n depth : Nat} {a : α}

theorem limited_zero : limited e n 0 a = .ok a :=
  if_pos (Nat.zero_le _)

theorem limited_succ_of_lt (h : n < nestingLimit) : limited e n (depth + 1) a = limited e (n + 1) depth a := by
  have hRoom : depth + 1 ≤ roomAt n ↔ depth ≤ roomAt (n + 1) := by
    unfold roomAt
    omega
  rw [limited, limited, if_congr hRoom rfl rfl]

theorem limited_succ_of_not_lt (h : ¬ n < nestingLimit) : limited e n (depth + 1) a = .error e := by
  apply if_neg
  unfold roomAt
  omega

theorem limited_bind {f : α → Except ε β} {depth' : Nat} {b : β} (h : f a = limited e n depth' b) :
    (limited e n depth a >>= f) = limited e n (max depth depth') b := by
  by_cases hDepth : depth ≤ roomAt n
  · have hMax : max depth depth' ≤ roomAt n ↔ depth' ≤ roomAt n := by omega
    rw [limited, if_pos hDepth, limited, if_congr hMax rfl rfl]
    exact h
  · rw [limited, if_neg hDepth, limited, if_neg (by omega)]
    rfl

theorem limited_bind_ok {f : α → Except ε β} {b : β} (h : f a = .ok b) :
    (limited e n depth a >>= f) = limited e n depth b := by
  rw [limited_bind (h.trans limited_zero.symm), Nat.max_zero]

theorem limited_map (f : α → β) : f <$> limited e n depth a = limited e n depth (f a) := by
  unfold limited
  split <;> rfl

theorem once_limited {α : Type} {field : String} {n depth : Nat} {e : Error} {a : α} :
    once field none (limited e n depth a) = limited e n depth (some a) :=
  limited_map some

theorem orFault_limited {f : Fault} : orFault (limited f n depth a) = limited (.fault f) n depth a := by
  unfold limited
  split <;> rfl

end Limited

mutual

theorem read_draftAt (n : Nat) : ∀ v : Json,
    (draftAt n v).read = limited .nestingTooDeep n v.nesting v
  | .null => limited_zero.symm
  | .boolean _ => limited_zero.symm
  | .number _ => limited_zero.symm
  | .string _ => limited_zero.symm
  | .array items => by
      rw [draftAt, nesting, Draft.atDepth]
      split
      · rename_i hRoom
        rw [Draft.read, readItems_draftItems, limited_succ_of_lt hRoom]
        exact limited_bind_ok rfl
      · rename_i hFull
        rw [limited_succ_of_not_lt hFull, Draft.read]
  | .object members => by
      rw [draftAt, nesting, Draft.atDepth]
      split
      · rename_i hRoom
        rw [Draft.read, readMembers_draftMembers, limited_succ_of_lt hRoom]
        exact limited_bind_ok rfl
      · rename_i hFull
        rw [limited_succ_of_not_lt hFull, Draft.read]

theorem readItems_draftItems (n : Nat) : ∀ items : List Json,
    Draft.readItems (draftItems n items) = limited .nestingTooDeep n (nestingItems items) items
  | [] => limited_zero.symm
  | v :: items => by
      rw [draftItems, Draft.readItems, read_draftAt, readItems_draftItems n items, nestingItems]
      exact limited_bind (limited_bind_ok rfl)

theorem readMembers_draftMembers (n : Nat) : ∀ members : List (String × Json),
    Draft.readMembers (draftMembers n members) = limited .nestingTooDeep n (nestingMembers members) members
  | [] => limited_zero.symm
  | (name, v) :: members => by
      rw [draftMembers, Draft.readMembers, read_draftAt, readMembers_draftMembers n members,
        nestingMembers]
      exact limited_bind (limited_bind_ok rfl)

end

theorem value_draftAt (n : Nat) (v : Json) : (draftAt n v).value = limitedRead n v.nesting v := by
  rw [Draft.value, read_draftAt, orFault_limited]

section Lists

variable {α : Type} {read : Draft → Except Error α} {toJson : α → Json} {n : Nat}

theorem readEach_draftItems {as : List α}
    (h : ∀ a ∈ as, read (draftAt n (toJson a)) = limitedRead n (toJson a).nesting a) :
    Draft.readEach read (draftItems n (as.map toJson)) = limitedRead n (nestingItems (as.map toJson)) as := by
  induction as with
  | nil => exact limited_zero.symm
  | cons a as ih =>
    obtain ⟨hHead, hTail⟩ := List.forall_mem_cons.mp h
    rw [List.map_cons, draftItems, Draft.readEach, hHead, ih hTail, nestingItems]
    exact limited_bind (limited_bind_ok rfl)

theorem asList_draftAt {as : List α}
    (h : ∀ a ∈ as, read (draftAt (n + 1) (toJson a)) = limitedRead (n + 1) (toJson a).nesting a) :
    Draft.asList read (draftAt n (.array (as.map toJson))) =
      limitedRead n (Json.array (as.map toJson)).nesting as := by
  rw [draftAt, nesting, Draft.atDepth]
  split
  · rename_i hRoom
    unfold limitedRead at *
    rw [Draft.asList, readEach_draftItems h, limited_succ_of_lt hRoom]
    exact limited_bind_ok rfl
  · rename_i hFull
    rw [limitedRead, limited_succ_of_not_lt hFull]
    rfl

theorem foldMembers_cons {σ : Type} {step : σ → String → Draft → Except Error σ} {s : σ} (name : String)
    (x : Draft) (rest : List (Except Fault String × Draft)) :
    Draft.foldMembers step s ((.ok name, x) :: rest) =
      (step s name x >>= fun s => Draft.foldMembers step s rest) :=
  rfl

theorem foldMembers_append {σ : Type} {step : σ → String → Draft → Except Error σ} {s : σ}
    (xs ys : List (Except Fault String × Draft)) :
    Draft.foldMembers step s (xs ++ ys) =
      (Draft.foldMembers step s xs >>= fun s => Draft.foldMembers step s ys) := by
  induction xs generalizing s with
  | nil => rfl
  | cons x xs ih =>
    rw [List.cons_append, Draft.foldMembers, Draft.foldMembers, bind_assoc]
    congr 1
    funext name
    rw [bind_assoc]
    congr 1
    funext s
    exact ih

theorem draftMembers_append (n : Nat) (xs ys : List (String × Json)) :
    draftMembers n (xs ++ ys) = draftMembers n xs ++ draftMembers n ys := by
  induction xs with
  | nil => rfl
  | cons x xs ih => rw [List.cons_append, draftMembers, draftMembers, ih, List.cons_append]

theorem nestingMembers_append (xs ys : List (String × Json)) :
    nestingMembers (xs ++ ys) = max (nestingMembers xs) (nestingMembers ys) := by
  induction xs with
  | nil => exact (Nat.zero_max _).symm
  | cons x xs ih => rw [List.cons_append, nestingMembers, nestingMembers, ih, Nat.max_assoc]

theorem foldMembers_insert {entries : List (String × α)} {d : Directory α}
    (h : ∀ e ∈ entries, read (draftAt n (toJson e.2)) = limitedRead n (toJson e.2).nesting e.2) :
    Draft.foldMembers (fun d name x => return d.insert name (← read x)) d
        (draftMembers n (entries.map fun e => (e.1, toJson e.2))) =
      limitedRead n (nestingMembers (entries.map fun e => (e.1, toJson e.2)))
        (entries.foldl (fun d e => d.insert e.1 e.2) d) := by
  induction entries generalizing d with
  | nil => exact limited_zero.symm
  | cons e entries ih =>
    obtain ⟨hHead, hTail⟩ := List.forall_mem_cons.mp h
    rw [List.map_cons, draftMembers, foldMembers_cons, hHead, nestingMembers, List.foldl_cons]
    have hInsert : (limitedRead n (toJson e.2).nesting e.2 >>= fun a => (return d.insert e.1 a)) =
        limitedRead n (toJson e.2).nesting (d.insert e.1 e.2) := limited_bind_ok rfl
    rw [hInsert]
    exact limited_bind (ih hTail)

theorem asMap_draftAt (d : Directory α)
    (h : ∀ e ∈ d.entries,
      read (draftAt (n + 1) (toJson e.2)) = limitedRead (n + 1) (toJson e.2).nesting e.2) :
    Draft.asMap (fun d name x => return d.insert name (← read x)) .empty
        (draftAt n (.object (d.entries.map fun e => (e.1, toJson e.2)))) =
      limitedRead n (Json.object (d.entries.map fun e => (e.1, toJson e.2))).nesting d := by
  have hEntries : d.entries.foldl (fun d e => d.insert e.1 e.2) .empty = d := Directory.ofEntries_entries d
  rw [draftAt, nesting, Draft.atDepth]
  split
  · rename_i hRoom
    unfold limitedRead at *
    rw [Draft.asMap, foldMembers_insert h, limited_succ_of_lt hRoom, hEntries]
    exact limited_bind_ok rfl
  · rename_i hFull
    rw [limitedRead, limited_succ_of_not_lt hFull]
    rfl

end Lists

namespace Tagging

variable {τ : Type} (t : Tagging τ) {tag : τ} {members : List (String × Json)}

theorem readMembers_draftMembers {n : Nat} (h : ∀ m ∈ members, m.1 ≠ t.field) :
    t.readMembers (some tag) (draftMembers n members) =
      limitedRead n (nestingMembers members) (some tag, members) := by
  induction members with
  | nil => exact limited_zero.symm
  | cons m members ih =>
    obtain ⟨hHead, hTail⟩ := List.forall_mem_cons.mp h
    rw [draftMembers, readMembers, nestingMembers]
    change (if m.1 = t.field then _ else _) = _
    rw [if_neg hHead, value_draftAt, ih hTail]
    exact limited_bind (limited_bind_ok rfl)

/-- A tagged value that is written with its tag first gives the tag and the other members. -/
theorem read_draftAt {n : Nat} {name : String} (hTag : t.ofName name = .ok tag)
    (h : ∀ m ∈ members, m.1 ≠ t.field) :
    t.read (draftAt n (.object ((t.field, .string name) :: members))) =
      limitedRead n (nestingMembers members + 1) (tag, .members members) := by
  rw [draftAt, Draft.atDepth]
  split
  · rename_i hRoom
    have hMembers : t.readMembers none (draftMembers (n + 1) ((t.field, .string name) :: members)) =
        limitedRead (n + 1) (nestingMembers members) (some tag, members) := by
      rw [draftMembers, readMembers]
      change (if t.field = t.field then (t.ofName name >>= _) else _) = _
      rw [if_pos rfl, hTag]
      exact readMembers_draftMembers t h
    unfold limitedRead at *
    rw [read, hMembers, limited_succ_of_lt hRoom]
    exact limited_bind_ok rfl
  · rename_i hFull
    rw [limitedRead, limited_succ_of_not_lt hFull]
    rfl

theorem findTag_of_field {name : String} (hTag : t.ofName name = .ok tag)
    (h : ∀ m ∈ members, m.1 ≠ t.field) :
    t.findTag none ((t.field, .string name) :: members) = .ok (some tag) := by
  have hRest : ∀ ms : List (String × Json), (∀ m ∈ ms, m.1 ≠ t.field) →
      t.findTag (some tag) ms = .ok (some tag) := by
    intro ms
    induction ms with
    | nil => exact fun _ => rfl
    | cons m ms ih =>
      intro hms
      obtain ⟨hHead, hTail⟩ := List.forall_mem_cons.mp hms
      rw [findTag, if_neg hHead, ih hTail]
  rw [findTag, if_pos rfl]
  change (t.ofName name >>= _) = _
  rw [hTag]
  exact hRest members h

end Tagging

end GrammarShapes.Json
