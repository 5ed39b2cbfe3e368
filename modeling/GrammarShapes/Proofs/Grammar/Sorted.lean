import GrammarShapes.Proofs.Grammar.Fields

set_option autoImplicit false

/-! # Rules in sorted values

Where a value stands for a rule, its sorted form stands for the same rule. A field that could be read had no
value or one, so that the last one is the only one; what is lost are members that were passed over.
-/

namespace GrammarShapes

open Json (Error FilledOnce)

namespace Json

theorem FilledOnce.sortedMembers {α : Type} {read : Json → Except Error α} {new : Option α} {key : String}
    {ms : List (String × Json)} (hRead : ∀ v ∈ valuesAt key ms, ∀ a, read v = .ok a → read v.sorted = .ok a)
    (h : FilledOnce read none (valuesAt key ms) new) :
    FilledOnce read none (valuesAt key (sortedMembers ms)) new := by
  rw [valuesAt_sortedMembers]
  generalize valuesAt key ms = vs at hRead h
  cases h with
  | kept => exact .kept
  | filled _ hFirst => exact .filled rfl (hRead _ List.mem_cons_self _ hFirst)

theorem Tagging.ofJson_sorted {τ : Type} {t : Tagging τ} {v : Json} {tag : τ} (h : t.ofJson v = .ok tag) :
    t.ofJson v.sorted = .ok tag := by
  cases v with
  | array vs | object ms => cases h
  | null | boolean _ | number _ | string _ => exact h

theorem Tagging.ofValue_sorted {τ : Type} {t : Tagging τ} {v : Json} {tag : τ} (h : t.ofValue v = .ok tag) :
    t.ofValue v.sorted = .ok tag := by
  obtain ⟨name, rfl, hName⟩ := ofValue_eq_ok_iff.mp h
  exact h

end Json

namespace Rule

/-- Whether the sorted form of a value stands for the rule that the value stands for, if any. -/
def SortsAlike (v : Json) : Prop :=
  ∀ r, ofJson v = .ok r → ofJson v.sorted = .ok r

theorem allOfJson_sortedItems {vs : List Json} {rs : List Rule} (hEach : ∀ v ∈ vs, SortsAlike v)
    (h : allOfJson vs = .ok rs) : allOfJson (Json.sortedItems vs) = .ok rs := by
  induction vs generalizing rs with
  | nil => exact h
  | cons v vs ih =>
    obtain ⟨hHead, hTail⟩ := List.forall_mem_cons.mp hEach
    obtain ⟨r, hRead, hRest⟩ := bind_eq_ok_iff.mp h
    obtain ⟨rest, hOthers, hSame⟩ := bind_eq_ok_iff.mp hRest
    cases hSame
    rw [Json.sortedItems, allOfJson, hHead r hRead, ih hTail hOthers]
    rfl

theorem readValue_sorted {f : RuleField} {v : Json} {x : f.Value}
    (hEach : ∀ w : Json, sizeOf w ≤ sizeOf v → SortsAlike w) (h : f.readValue v = .ok x) :
    f.readValue v.sorted = .ok x := by
  cases f with
  | content => exact hEach v (Nat.le_refl _) x h
  | members =>
    cases v with
    | array vs =>
      exact allOfJson_sortedItems (fun w hw => hEach w (Nat.le_of_lt (Json.sizeOf_lt_of_mem_array hw))) h
    | null | boolean _ | number _ | string _ | object _ => cases h
  | text | flags | name | named | precedence =>
    cases v with
    | array _ | object _ => cases h
    | null | boolean _ | number _ | string _ => exact h

theorem ofItems_sortedItems {tag : Tag} {i : Nat} {fields : List RuleField} {fs fs' : RuleFields}
    {vs : List Json} (hEach : ∀ v ∈ vs, ∀ w : Json, sizeOf w ≤ sizeOf v → SortsAlike w)
    (h : ofItems tag i fields fs vs = .ok fs') : ofItems tag i fields fs (Json.sortedItems vs) = .ok fs' := by
  induction vs generalizing i fields fs with
  | nil => exact h
  | cons v vs ih =>
    obtain ⟨hHead, hTail⟩ := List.forall_mem_cons.mp hEach
    cases fields with
    | nil =>
      rw [ofItems] at h
      cases h
    | cons f fields =>
      rw [ofItems_cons] at h
      obtain ⟨x, hRead, hRest⟩ := bind_eq_ok_iff.mp h
      rw [Json.sortedItems, ofItems_cons]
      exact bind_eq_ok_iff.mpr ⟨x, readValue_sorted hHead hRead, ih hTail hRest⟩

theorem Spells.sorted {tagOf : Json → Except Error Tag} {v : Json} {r : Rule}
    (hTagOf : ∀ w tag, tagOf w = .ok tag → tagOf w.sorted = .ok tag)
    (hEach : ∀ w : Json, sizeOf w < sizeOf v → SortsAlike w) (h : Spells tagOf v r) :
    Spells tagOf v.sorted r := by
  cases h with
  | @object ms tag fs r hTag hFields hBuild =>
    refine .object (hTag.sortedMembers fun w _ tag => hTagOf w tag) ?_ hBuild
    intro f hField
    apply (hFields f hField).sortedMembers
    intro v hv x hRead
    have hSize := Json.sizeOf_lt_of_mem_object (mem_valuesAt_iff.mp hv)
    exact readValue_sorted (fun w hw => hEach w (Nat.lt_of_le_of_lt hw hSize)) hRead
  | @array first vs tag fs r hTag hFields hBuild =>
    refine .array (hTagOf first tag hTag) (ofItems_sortedItems ?_ hFields) hBuild
    intro v hv w hw
    exact hEach w (Nat.lt_of_le_of_lt hw (Json.sizeOf_lt_of_mem_array (List.mem_cons_of_mem first hv)))

theorem sortsAlike (v : Json) : SortsAlike v := by
  induction hSize : sizeOf v using Nat.strongRecOn generalizing v with
  | ind n ih =>
    subst hSize
    intro r h
    exact ofJson_eq_ok_iff.mpr ((ofJson_eq_ok_iff.mp h).sorted (fun _ _ => Json.Tagging.ofJson_sorted)
      fun w hw => ih (sizeOf w) hw w rfl)

theorem read_sorted {v : Json} {r : Rule} (h : read (.ofJson v) = .ok r) : read (.ofJson v.sorted) = .ok r :=
  read_ofJson_eq_ok_iff.mpr ((read_ofJson_eq_ok_iff.mp h).sorted (fun _ _ => Json.Tagging.ofValue_sorted)
    fun w _ => sortsAlike w)

end Rule

end GrammarShapes
