import GrammarShapes.Proofs.Json.Limited
import GrammarShapes.Schema.Document

set_option autoImplicit false

/-! # Schemas that are written

A schema is read back from its text, whether that is compact or indented: both spacings have the same
tokens. Every shape is a tagged value, the shapes of a rule are a list of them and the schema is a directory
of such lists, so that each layer is read where the one below it is. No more than three arrays and objects
are ever open at once, and the limit on nesting plays no part.
-/

namespace GrammarShapes

open Json (Draft draftAt limitedRead)

namespace Shape

theorem read_draftAt_tagged {n : Nat} {tag : ShapeTag} {name : String} {members : List (String × Json)}
    {s : Shape} (hTag : tagging.ofName name = .ok tag) (hKeys : ∀ m ∈ members, m.1 ≠ tagging.field)
    (hContent : ofContent tag (.members members) = .ok s) :
    read (draftAt n (.object ((tagging.field, .string name) :: members))) =
      limitedRead n (Json.nestingMembers members + 1) s := by
  rw [read, tagging.read_draftAt hTag hKeys]
  exact Json.limited_bind_ok hContent

theorem read_draftAt_toJson (n : Nat) (s : Shape) :
    read (draftAt n s.toJson) = limitedRead n s.toJson.nesting s := by
  cases s with
  | symbol name => exact read_draftAt_tagged rfl (by simp [tagging]) rfl
  | literal value => exact read_draftAt_tagged rfl (by simp [tagging]) rfl
  | pattern => exact read_draftAt_tagged rfl (by simp [tagging]) rfl

theorem isWhole_toJson (s : Shape) : Json.IsWhole s.toJson := by
  cases s <;> exact .object (by simp [Json.IsWhole.string])

theorem nestingItems_toJson_le (shapes : List Shape) :
    Json.nestingItems (shapes.map toJson) ≤ 1 := by
  induction shapes with
  | nil => exact Nat.zero_le 1
  | cons s shapes ih =>
    have hHead : s.toJson.nesting = 1 := by cases s <;> rfl
    rw [List.map_cons, Json.nestingItems, hHead]
    omega

end Shape

namespace Schema

def listJson (shapes : List Shape) : Json :=
  .array (shapes.map Shape.toJson)

theorem asList_draftAt_listJson (shapes : List Shape) :
    Draft.asList Shape.read (draftAt 1 (listJson shapes)) =
      limitedRead 1 (listJson shapes).nesting shapes :=
  Json.asList_draftAt fun s _ => s.read_draftAt_toJson 2

theorem read_draftAt_toJson (s : Schema) :
    read (draftAt 0 s.toJson) = limitedRead 0 s.toJson.nesting s :=
  Json.asMap_draftAt s fun e _ => asList_draftAt_listJson e.2

theorem isWhole_toJson (s : Schema) : Json.IsWhole s.toJson := by
  apply Json.IsWhole.object
  rw [List.forall_mem_map]
  intro e _
  exact .array (List.forall_mem_map.mpr fun shape _ => shape.isWhole_toJson)

theorem nesting_toJson_le (s : Schema) : s.toJson.nesting ≤ 3 := by
  have hMembers : Json.nestingMembers (s.entries.map fun e => (e.1, listJson e.2)) ≤ 2 := by
    induction s.entries with
    | nil => exact Nat.zero_le 2
    | cons e entries ih =>
      have hItems := Shape.nestingItems_toJson_le e.2
      rw [List.map_cons, Json.nestingMembers, listJson, Json.nesting]
      omega
  exact Nat.succ_le_succ hMembers

/-- A schema is given back by its text, compact or indented, with its rules and their shapes in the same
order. -/
theorem ofText_toText_eq_ok (s : Schema) (pretty : Bool) :
    ofText (.ofString (s.toText pretty)) = .ok s := by
  have hRead : read (draftAt 0 s.toJson) = .ok s := by
    rw [read_draftAt_toJson]
    exact if_pos (Nat.le_trans s.nesting_toJson_le (by decide))
  rw [ofText, Json.readText, toText, Json.Document.ofText_toText s.isWhole_toJson, hRead]
  rfl

example : toText ⟨[("list", [.pattern]), ("none", [])], by decide⟩ true =
    "\x7b\n  \"list\": [\n    \x7b\n      \"kind\": \"pattern\"\n    \x7d\n  ],\n  \"none\": []\n\x7d" := rfl

end Schema

end GrammarShapes
