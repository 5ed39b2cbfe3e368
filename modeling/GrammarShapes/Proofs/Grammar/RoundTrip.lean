import GrammarShapes.Grammar.Loading
import GrammarShapes.Proofs.Grammar.Rules
import GrammarShapes.Proofs.Json.Openings

set_option autoImplicit false

/-! # Grammars that are written

A grammar is loaded again from the text that is written for it, with its name, its rules in their order, its
extras and its externals, as long as no more arrays and objects are open at once than may be. In a deeper
text the limit is the only thing that is wrong, so that it is what the load reports.
-/

namespace GrammarShapes

namespace Grammar

open Json (limitedRead limited_zero limited_bind limited_bind_ok limited_map draftAt draftMembers)

def rulesJson (d : Directory Rule) : Json :=
  .object (d.entries.map fun e => (e.1, e.2.toJson))

def listJson (rs : List Rule) : Json :=
  .array (rs.map Rule.toJson)

section Members

variable {fs : Fields}

theorem readRules_rulesJson (d : Directory Rule) :
    readRules (draftAt 1 (rulesJson d)) = limitedRead 1 (rulesJson d).nesting d :=
  Json.asMap_draftAt d fun e _ => Rule.read_draftAt_toJson 2 e.2

theorem readRuleList_listJson (rs : List Rule) :
    readRuleList (draftAt 1 (listJson rs)) = limitedRead 1 (listJson rs).nesting rs :=
  Json.asList_draftAt fun r _ => Rule.read_draftAt_toJson 2 r

theorem readMember_rules (h : fs.rules = none) (d : Directory Rule) :
    readMember fs "rules" (draftAt 1 (rulesJson d)) =
      limitedRead 1 (rulesJson d).nesting { fs with rules := some d } := by
  simp only [readMember, String.reduceEq, if_false, if_true, h, readRules_rulesJson, Json.once_limited]
  exact limited_bind_ok rfl

theorem readMember_extras (h : fs.extras = none) (rs : List Rule) :
    readMember fs "extras" (draftAt 1 (listJson rs)) =
      limitedRead 1 (listJson rs).nesting { fs with extras := some rs } := by
  simp only [readMember, String.reduceEq, if_false, if_true, h, readRuleList_listJson, Json.once_limited]
  exact limited_bind_ok rfl

theorem readMember_externals (h : fs.externals = none) (rs : List Rule) :
    readMember fs "externals" (draftAt 1 (listJson rs)) =
      limitedRead 1 (listJson rs).nesting { fs with externals := some rs } := by
  simp only [readMember, String.reduceEq, if_false, if_true, h, readRuleList_listJson, Json.once_limited]
  exact limited_bind_ok rfl

end Members

def nameMembers (g : Grammar) : List (String × Json) :=
  g.name.toList.map fun n => ("name", .string n)

def ruleMembers (g : Grammar) : List (String × Json) :=
  [("rules", rulesJson g.rules), ("extras", listJson g.extras)]

def externalMembers (g : Grammar) : List (String × Json) :=
  if g.externals = [] then [] else [("externals", listJson g.externals)]

theorem toJson_eq (g : Grammar) :
    g.toJson = .object (g.nameMembers ++ g.ruleMembers ++ g.externalMembers) :=
  rfl

theorem foldMembers_name (g : Grammar) :
    Json.Draft.foldMembers readMember {} (draftMembers 1 g.nameMembers) =
      limitedRead 1 (Json.nestingMembers g.nameMembers) { name := g.name.map some } := by
  cases hName : g.name with
  | none =>
    rw [nameMembers, hName]
    exact limited_zero.symm
  | some n =>
    rw [nameMembers, hName]
    exact limited_zero.symm

theorem foldMembers_rules {fs : Fields} (g : Grammar) (hRules : fs.rules = none)
    (hExtras : fs.extras = none) :
    Json.Draft.foldMembers readMember fs (draftMembers 1 g.ruleMembers) =
      limitedRead 1 (Json.nestingMembers g.ruleMembers)
        { fs with rules := some g.rules, extras := some g.extras } := by
  rw [ruleMembers, draftMembers, draftMembers, Json.foldMembers_cons, readMember_rules hRules]
  apply limited_bind
  have hList : ({ fs with rules := some g.rules } : Fields).extras = none := hExtras
  rw [Json.foldMembers_cons, readMember_extras hList]
  exact limited_bind limited_zero.symm

/-- The externals are left out exactly if there are none, which is what a reader takes for them. -/
theorem foldMembers_externals {fs : Fields} (g : Grammar) (h : fs.externals = none) :
    Json.Draft.foldMembers readMember fs (draftMembers 1 g.externalMembers) =
      limitedRead 1 (Json.nestingMembers g.externalMembers)
        { fs with externals := if g.externals = [] then none else some g.externals } := by
  unfold externalMembers
  split
  · rw [← h]
    exact limited_zero.symm
  · rw [draftMembers, Json.foldMembers_cons, readMember_externals h]
    exact limited_bind limited_zero.symm

def writtenFields (g : Grammar) : Fields where
  name := g.name.map some
  rules := some g.rules
  extras := some g.extras
  externals := if g.externals = [] then none else some g.externals

theorem ofFields_writtenFields (g : Grammar) : ofFields g.writtenFields = .ok g := by
  obtain ⟨name, rules, extras, externals⟩ := g
  cases name <;> cases externals <;> rfl

theorem foldMembers_written (g : Grammar) :
    Json.Draft.foldMembers readMember {}
        (draftMembers 1 (g.nameMembers ++ g.ruleMembers ++ g.externalMembers)) =
      limitedRead 1 (Json.nestingMembers (g.nameMembers ++ g.ruleMembers ++ g.externalMembers))
        g.writtenFields := by
  have hRules : (limitedRead 1 (Json.nestingMembers g.nameMembers) { name := g.name.map some } >>=
      fun fs => Json.Draft.foldMembers readMember fs (draftMembers 1 g.ruleMembers)) =
        limitedRead 1 (max (Json.nestingMembers g.nameMembers) (Json.nestingMembers g.ruleMembers))
          { name := g.name.map some, rules := some g.rules, extras := some g.extras } :=
    limited_bind (foldMembers_rules g rfl rfl)
  rw [Json.draftMembers_append, Json.draftMembers_append, Json.foldMembers_append,
    Json.foldMembers_append, foldMembers_name, Json.nestingMembers_append, Json.nestingMembers_append,
    hRules]
  exact limited_bind (foldMembers_externals g rfl)

theorem read_draftAt_toJson (g : Grammar) :
    read .inText (draftAt 0 g.toJson) = limitedRead 0 g.toJson.nesting g := by
  have hRoom : 0 < Json.nestingLimit := by decide
  rw [toJson_eq, draftAt, Json.Draft.atDepth, if_pos hRoom, read, foldMembers_written, Json.nesting]
  unfold limitedRead
  rw [Json.limited_succ_of_lt hRoom]
  exact limited_bind_ok (ofFields_writtenFields g)

theorem isWhole_toJson (g : Grammar) : Json.IsWhole g.toJson := by
  have hRules : Json.IsWhole (rulesJson g.rules) :=
    .object (List.forall_mem_map.mpr fun e _ => e.2.isWhole_toJson)
  have hList : ∀ rs : List Rule, Json.IsWhole (listJson rs) :=
    fun rs => .array (List.forall_mem_map.mpr fun r _ => r.isWhole_toJson)
  rw [toJson_eq]
  apply Json.IsWhole.object
  rw [List.forall_mem_append, List.forall_mem_append]
  refine ⟨⟨?_, ?_⟩, ?_⟩
  · exact List.forall_mem_map.mpr fun n _ => .string n
  · exact List.forall_mem_cons.mpr ⟨hRules, List.forall_mem_singleton.mpr (hList g.extras)⟩
  · unfold externalMembers
    split
    · exact fun m hm => by cases hm
    · exact List.forall_mem_singleton.mpr (hList g.externals)

theorem ofText_toText (g : Grammar) :
    ofText (.ofString g.toText) = limitedRead 0 g.toJson.nesting g := by
  rw [ofText, Json.readText, toText, Json.Document.ofText_toText g.isWhole_toJson, read_draftAt_toJson]
  exact limited_bind_ok rfl

theorem mostOpen_toText (g : Grammar) : (Json.Text.ofString g.toText).mostOpen = g.toJson.nesting :=
  Json.mostOpen_toText g.isWhole_toJson .compact

/-- A grammar is loaded again from its own text, whatever it holds, if at most 127 arrays and objects are
open at once in the text. If there are more, the load fails, and the reason is the nesting. -/
theorem outcome_load_toText (g : Grammar) :
    (load g.toText).outcome =
      if (Json.Text.ofString g.toText).mostOpen ≤ 127 then .ok g
      else .error (.malformed "recursion limit exceeded") := by
  rw [mostOpen_toText, load, ofText_toText]
  unfold limitedRead Json.limited
  have hRoom : Json.roomAt 0 = 127 := rfl
  rw [hRoom]
  split <;> rfl

end Grammar

end GrammarShapes
