import GrammarShapes.Proofs.Expansion.OpenLevels
import GrammarShapes.Proofs.Grammar.References
import Mathlib.Data.List.Chain

set_option autoImplicit false

/-! # The limit on levels

Every node that is expanded and every rule that is inlined is a level, and no more than `maxDepth` levels are
ever open. Where expansion fails for want of levels there is a chain of nodes that is longer than that: the
node that fails, the one that opened it, and so on up to the first. No rule is inlined twice along the chain,
because a rule is remembered from its opening on and no rule is forgotten. Where nothing is inlined the chains
are those of nested nodes, and expansion succeeds exactly if none is too long.
-/

namespace GrammarShapes

variable {g : Grammar} {o : Options} {e e' : Expander} {err : SchemaError}

def SchemaError.isMalformed : SchemaError → Bool
  | .unknownRule _ => false
  | .malformed _ => true
  | .nestedTooDeep _ _ => true

section Failures

variable {P : Expander → Prop} {expand : Rule → Expansion} {x : Expansion}

namespace Expansion

theorem Keeps.lookup_eq_none {name : String} (h : x.Keeps P) (hNone : (x e).2.memo.lookup name = none) :
    e.memo.lookup name = none := by
  rw [← Option.not_isSome_iff_eq_none] at hNone ⊢
  exact fun hSome => hNone (h.grows e name hSome)

theorem concat_eq_error {rs : List Rule} (hKeeps : ∀ r, (expand r).Keeps P)
    (h : concat expand rs e = (.error err, e')) :
    ∃ c ∈ rs, ∃ e₁, expand c e₁ = (.error err, e') ∧
      ∀ name, e₁.memo.lookup name = none → e.memo.lookup name = none := by
  induction rs generalizing e with
  | nil => cases h
  | cons r rest ih =>
    rcases concat_cons_eq_error h with hFails | ⟨own, e₁, hOwn, hRest⟩
    · exact ⟨r, List.mem_cons_self, e, hFails, fun _ hNone => hNone⟩
    · obtain ⟨c, hc, e₂, hFails, hNew⟩ := ih hRest
      refine ⟨c, List.mem_cons_of_mem _ hc, e₂, hFails, fun name hNone => ?_⟩
      apply (hKeeps r).lookup_eq_none
      rw [hOwn]
      exact hNew name hNone

end Expansion

theorem expandSymbol_eq_error {name : String} (hErr : err.isMalformed = true)
    (h : expandSymbol g o expand name e = (.error err, e')) :
    ∃ body ∈ opened g o (.symbol name), e.memo.lookup name = none ∧
      expand body ((e.remember name []).report (.ruleInlined name)) = (.error err, e') := by
  cases hResolves : g.resolves name with
  | false =>
    rw [expandSymbol_of_dangling e hResolves] at h
    cases h
    cases hErr
  | true =>
    cases hHidden : o.isHidden name with
    | false =>
      rw [expandSymbol_of_visible e hResolves hHidden] at h
      cases h
    | true =>
      cases hKnown : e.memo.lookup name with
      | some own =>
        rw [expandSymbol_of_known e hResolves hHidden hKnown] at h
        cases h
      | none =>
        cases hBody : g.rules.get? name with
        | none =>
          rw [expandSymbol_of_token e hResolves hHidden hKnown hBody] at h
          cases h
        | some body =>
          rw [expandSymbol_of_body e hResolves hHidden hKnown hBody] at h
          exact ⟨body, mem_opened_symbol_iff.mpr ⟨hHidden, hBody⟩, rfl, Expansion.inline_eq_error h⟩

theorem concat_of_expandNode_eq_error {r : Rule} (hSymbol : r.symbol? = none)
    (h : expandNode g o expand r e = (.error err, e')) :
    Expansion.concat expand r.children e = (.error err, e') := by
  cases r using Rule.byKind with
  | transparent r hTransparent => rwa [expandNode_of_isTransparent hTransparent] at h
  | single r hSingle =>
    rw [expandNode_of_isSingleValued hSingle] at h
    exact Expansion.first_eq_error h
  | literal | pattern => cases h
  | symbol name => cases hSymbol

/-- A node fails for want of levels at a node that it opens. If it is a symbol, its rule is new before and
remembered from then on. -/
theorem expandNode_eq_error {r : Rule} (hKeeps : ∀ r, (expand r).Keeps P) (hErr : err.isMalformed = true)
    (h : expandNode g o expand r e = (.error err, e')) :
    ∃ c ∈ opened g o r, ∃ e₁, expand c e₁ = (.error err, e') ∧
      (∀ name, r.symbol? = some name → e.memo.lookup name = none) ∧
      ∀ name, e₁.memo.lookup name = none → e.memo.lookup name = none ∧ r.symbol? ≠ some name := by
  cases hSymbol : r.symbol? with
  | none =>
    obtain ⟨c, hc, e₁, hFails, hNew⟩ :=
      Expansion.concat_eq_error hKeeps (concat_of_expandNode_eq_error hSymbol h)
    exact ⟨c, mem_opened_of_mem_children hc, e₁, hFails, by simp, fun name hNone => ⟨hNew name hNone, by simp⟩⟩
  | some name =>
    obtain rfl : r = .symbol name := Rule.eq_symbol_of_symbol? hSymbol
    obtain ⟨body, hBody, hNew, hFails⟩ := expandSymbol_eq_error hErr h
    refine ⟨body, hBody, _, hFails, ?_, ?_⟩
    · rintro other hOther
      cases hOther
      exact hNew
    · intro other hNone
      have hne : other ≠ name := by
        rintro rfl
        exact absurd hNone (by simp [Expander.report, Expander.remember])
      refine ⟨?_, fun hOther => hne (Option.some.inj hOther).symm⟩
      rwa [← Memo.lookup_cons_of_ne [] e.memo hne]

end Failures

/-- The names of the rules that are inlined along a chain of nodes, in which the body of its rule follows a
symbol. -/
def inlinedAlong (nodes : List Rule) : List String :=
  nodes.dropLast.filterMap Rule.symbol?

variable (g o) in
/-- Whether nodes follow each other down from the first, one more than there are levels, and none of the
rules on the way is inlined twice. -/
structure Overlong (room : Nat) (nodes : List Rule) (last : Rule) : Prop where
  linked : nodes.IsChain fun s t => t ∈ opened g o s
  length : nodes.length = room + 1
  ends : nodes.getLast? = some last
  nodup : (inlinedAlong nodes).Nodup

theorem mem_inlinedAlong_cons_cons {r c : Rule} {below : List Rule} {name : String} :
    name ∈ inlinedAlong (r :: c :: below) ↔ r.symbol? = some name ∨ name ∈ inlinedAlong (c :: below) := by
  rw [inlinedAlong, List.dropLast_cons_cons]
  cases hSymbol : r.symbol? <;> simp [hSymbol, inlinedAlong, eq_comm]

theorem Overlong.cons {room : Nat} {r c last : Rule} {below : List Rule}
    (h : Overlong g o room (c :: below) last) (hOpened : c ∈ opened g o r)
    (hNew : ∀ name ∈ inlinedAlong (c :: below), r.symbol? ≠ some name) :
    Overlong g o (room + 1) (r :: c :: below) last where
  linked := .cons_cons hOpened h.linked
  length := congrArg (· + 1) h.length
  ends := by rw [List.getLast?_cons_cons, h.ends]
  nodup := by
    rw [inlinedAlong, List.dropLast_cons_cons, List.filterMap_cons]
    split
    · exact h.nodup
    · rename_i name hSymbol
      exact List.nodup_cons.mpr ⟨fun hMem => hNew name hMem hSymbol, h.nodup⟩

/-- An expansion that fails for want of levels does so below a chain that is too long, along which only rules
are inlined that were new. -/
theorem exists_overlong_of_expandWithin {room : Nat} {r : Rule} (hErr : err.isMalformed = true)
    (h : expandWithin g o room r e = (.error err, e')) :
    ∃ below last, Overlong g o room (r :: below) last ∧ err = .nestedTooDeep maxDepth last.tag ∧
      ∀ name ∈ inlinedAlong (r :: below), e.memo.lookup name = none := by
  induction room generalizing r e e' with
  | zero =>
    cases h
    exact ⟨[], r, ⟨.singleton r, rfl, rfl, List.nodup_nil⟩, rfl, fun name hName => by cases hName⟩
  | succ room ih =>
    cases hNode : expandNode g o (expandWithin g o room) r e.enter with
    | mk result e₁ =>
      rw [expandWithin, hNode] at h
      cases h
      -- the chain below the node is put behind it; what is inlined there is new there, hence not this rule
      obtain ⟨c, hc, e₂, hFails, hOwn, hNew⟩ :=
        expandNode_eq_error (fun r => outlasts_recordsMemo.expandWithin room r) hErr hNode
      obtain ⟨below, last, hOverlong, hLast, hBelow⟩ := ih hFails
      refine ⟨c :: below, last, hOverlong.cons hc fun name hName => (hNew name (hBelow name hName)).2,
        hLast, fun name hName => ?_⟩
      rcases mem_inlinedAlong_cons_cons.mp hName with hSymbol | hRest
      · exact hOwn name hSymbol
      · exact (hNew name (hBelow name hRest)).1

section NothingInlined

variable {expand : Rule → Expansion} {x : Expansion}

variable (g o) in
def InlinesNothing (r : Rule) : Prop :=
  ∀ name ∈ r.references, g.resolves name = true ∧ ¬ (o.isHidden name = true ∧ name ∈ g.rules.names)

/-- Whether no chain of nested nodes that starts at a node has more than `n` nodes. -/
def NestsWithin (n : Nat) (r : Rule) : Prop :=
  ∀ below, List.IsChain (fun s t => t ∈ s.children) (r :: below) → (r :: below).length ≤ n

theorem InlinesNothing.of_mem_children {r c : Rule} (h : InlinesNothing g o r) (hc : c ∈ r.children) :
    InlinesNothing g o c := by
  intro name hName
  apply h
  rw [Rule.references_eq, List.mem_append, List.mem_flatMap]
  exact Or.inr ⟨c, hc, hName⟩

theorem not_nestsWithin_zero (r : Rule) : ¬ NestsWithin 0 r :=
  fun h => absurd (h [] (.singleton r)) (by simp)

theorem nestsWithin_succ_iff {n : Nat} {r : Rule} :
    NestsWithin (n + 1) r ↔ ∀ c ∈ r.children, NestsWithin n c := by
  constructor
  · intro h c hc below hChain
    exact Nat.le_of_succ_le_succ (h (c :: below) (.cons_cons hc hChain))
  · intro h below hChain
    cases below with
    | nil => exact Nat.succ_le_succ (Nat.zero_le n)
    | cons c below =>
      obtain ⟨hc, hRest⟩ := List.isChain_cons_cons.mp hChain
      exact Nat.succ_le_succ (h c hc below hRest)

def Expansion.Succeeds (x : Expansion) (e : Expander) : Prop :=
  ∃ shapes, (x e).1 = .ok shapes

theorem Expansion.succeeds_first_iff : x.first.Succeeds e ↔ x.Succeeds e := by
  rw [Succeeds, Succeeds, first_eq_map]
  cases (x e).1 <;> simp [Except.map]

theorem Expansion.succeeds_concat_iff {rs : List Rule} {Q : Rule → Prop}
    (h : ∀ c ∈ rs, ∀ e, (expand c).Succeeds e ↔ Q c) :
    (Expansion.concat expand rs).Succeeds e ↔ ∀ c ∈ rs, Q c := by
  induction rs generalizing e with
  | nil => exact ⟨fun _ c hc => (by cases hc), fun _ => ⟨[], rfl⟩⟩
  | cons r rest ih =>
    obtain ⟨hHead, hRest⟩ := List.forall_mem_cons.mp h
    rw [List.forall_mem_cons, ← hHead e, ← ih (e := (expand r e).2) hRest]
    cases hOwn : expand r e with
    | mk result e₁ =>
      cases result with
      | error _ => simp [Succeeds, concat_cons_of_error hOwn, hOwn]
      | ok own =>
        simp only [Succeeds, concat_cons_eq_map hOwn, hOwn]
        cases (concat expand rest e₁).1 <;> simp [Except.map]

theorem InlinesNothing.succeeds_symbol {name : String} (h : InlinesNothing g o (.symbol name)) :
    (expandSymbol g o expand name).Succeeds e := by
  obtain ⟨hResolves, hPlain⟩ := h name (by rw [Rule.references_eq]; exact List.mem_cons_self)
  cases hHidden : o.isHidden name with
  | false => exact ⟨_, congrArg Prod.fst (expandSymbol_of_visible e hResolves hHidden)⟩
  | true =>
    have hToken : g.rules.get? name = none :=
      Directory.get?_eq_none_iff.mpr fun hName => hPlain ⟨hHidden, hName⟩
    cases hKnown : e.memo.lookup name with
    | some own => exact ⟨_, congrArg Prod.fst (expandSymbol_of_known e hResolves hHidden hKnown)⟩
    | none => exact ⟨_, congrArg Prod.fst (expandSymbol_of_token e hResolves hHidden hKnown hToken)⟩

theorem InlinesNothing.succeeds_iff {room : Nat} {r : Rule} (h : InlinesNothing g o r) :
    (expandWithin g o room r).Succeeds e ↔ NestsWithin room r := by
  induction room generalizing r e with
  | zero =>
    refine iff_of_false ?_ (not_nestsWithin_zero r)
    rintro ⟨shapes, hOk⟩
    cases hOk
  | succ room ih =>
    have hRow : (Expansion.concat (expandWithin g o room) r.children).Succeeds e.enter ↔
        ∀ c ∈ r.children, NestsWithin room c :=
      Expansion.succeeds_concat_iff fun c hc e => ih (h.of_mem_children hc)
    change (expandNode g o (expandWithin g o room) r).Succeeds e.enter ↔ _
    rw [nestsWithin_succ_iff, ← hRow]
    cases r using Rule.byKind with
    | transparent r hTransparent => rw [expandNode_of_isTransparent hTransparent]
    | single r hSingle => rw [expandNode_of_isSingleValued hSingle, Expansion.succeeds_first_iff]
    | literal | pattern => exact iff_of_true ⟨_, rfl⟩ ⟨_, rfl⟩
    | symbol name => exact iff_of_true h.succeeds_symbol ⟨_, rfl⟩

end NothingInlined

/-- A grammar is called malformed by an expansion only if a chain of 513 nodes starts at the node, each a
direct sub-rule of the one before or the body of the rule that it inlines, with no rule inlined twice; the
message names the tag of the last. Where every symbol refers to something and nothing is inlined, expansion
succeeds exactly if no more than 512 nodes are nested. Every expansion, whatever it gives, ends with as many
levels open as it began with and has never opened more than 512, and so do those that it consists of. -/
theorem expansion_within_limit (g : Grammar) (o : Options) (r : Rule) :
    (∀ err, (expandFresh g o r).1 = .error err → err.isMalformed = true →
      ∃ nodes last, nodes.head? = some r ∧ nodes.length = 513 ∧ nodes.getLast? = some last ∧
        nodes.IsChain (fun s t => t ∈ opened g o s) ∧ (inlinedAlong nodes).Nodup ∧
        err = .nestedTooDeep 512 last.tag ∧
        err.message = "malformed grammar: rule nesting deeper than 512 levels while expanding " ++
          last.tag.text) ∧
    (InlinesNothing g o r → ((∃ shapes, (expandFresh g o r).1 = .ok shapes) ↔
      ∀ nodes : List Rule, nodes.head? = some r → nodes.IsChain (fun s t => t ∈ s.children) →
        nodes.length ≤ 512)) ∧
    (∀ e, e.depth ≤ 512 →
      (expand g o r e).2.depth = e.depth ∧ (expand g o r e).2.deepest ≤ max e.deepest 512 ∧
      expand g o r e =
        if e.depth = 512 then (.error (.nestedTooDeep 512 r.tag), e)
        else
          ((expandNode g o (expand g o) r e.enter).1, (expandNode g o (expand g o) r e.enter).2.leave)) := by
  refine ⟨fun err h hErr => ?_, fun hNothing => ?_, fun e he => ?_⟩
  · obtain ⟨below, last, hOverlong, rfl, -⟩ :=
      exists_overlong_of_expandWithin hErr (Prod.ext h rfl : expandFresh g o r = (.error err, _))
    exact ⟨r :: below, last, rfl, hOverlong.length, hOverlong.ends, hOverlong.linked, hOverlong.nodup,
      rfl, rfl⟩
  · have hIff : (∃ shapes, (expandFresh g o r).1 = .ok shapes) ↔ NestsWithin maxDepth r :=
      hNothing.succeeds_iff
    rw [hIff]
    constructor
    · intro hNests nodes hHead hChain
      obtain ⟨below, rfl⟩ := List.head?_eq_some_iff.mp hHead
      exact hNests below hChain
    · exact fun hNests below hChain => hNests (r :: below) rfl hChain
  · have hRestored : e.Restored (maxDepth - e.depth) (expand g o r e).2 := restores_expandWithin _ r e
    refine ⟨hRestored.depth, ?_, expand_eq_of_depth_le r he⟩
    have hDeepest : _ ≤ max e.deepest (e.depth + (512 - e.depth)) := hRestored.deepest
    rwa [Nat.add_sub_cancel' he] at hDeepest

def repeatedly (n : Nat) (r : Rule) : Rule :=
  Nat.repeat Rule.zeroOrMore n r

theorem references_repeatedly (n : Nat) (r : Rule) : (repeatedly n r).references = r.references := by
  induction n with
  | zero => rfl
  | succ n ih =>
    rw [← ih, Rule.references_eq]
    exact List.append_nil _

def stacked : Grammar :=
  Grammar.withRule {} "_a" (repeatedly 300 (.literal "x"))

set_option maxRecDepth 20000 in
/-- Below 300 repetitions the body of the rule takes the levels from 302 on, and the last of them are
missing. Without symbols 511 repetitions fit above a text, and no more. -/
theorem stacked_exceeds_limit :
    (∃ (nodes : List Rule) (last : Rule), nodes.head? = some (repeatedly 300 (.symbol "_a")) ∧
      nodes.length = 513 ∧ nodes.getLast? = some last ∧ last.tag = .zeroOrMore ∧
      nodes.IsChain (fun s t => t ∈ opened stacked {} s)) ∧
    (∀ nodes : List Rule, nodes.head? = some (repeatedly 511 (.literal "x")) →
      nodes.IsChain (fun s t => t ∈ s.children) → nodes.length ≤ 512) ∧
    (expandFresh stacked {} (repeatedly 512 (.literal "x"))).1 = .error (.nestedTooDeep 512 .literal) ∧
    (expand stacked {} (.symbol "_a") { depth := 300 }).2.depth = 300 := by
  have hFails : (expandFresh stacked {} (repeatedly 300 (.symbol "_a"))).1 =
      .error (.nestedTooDeep 512 .zeroOrMore) := rfl
  have hFits : (expandFresh stacked {} (repeatedly 511 (.literal "x"))).1 = .ok [.literal "x"] := rfl
  have hNothing : InlinesNothing stacked {} (repeatedly 511 (.literal "x")) := by
    intro name hName
    rw [references_repeatedly, Rule.references_eq] at hName
    cases hName
  obtain ⟨nodes, last, hHead, hLength, hLast, hChain, -, hError, -⟩ :=
    (expansion_within_limit stacked {} _).1 _ hFails rfl
  refine ⟨⟨nodes, last, hHead, hLength, hLast, ?_, hChain⟩, ?_, rfl, ?_⟩
  · exact (SchemaError.nestedTooDeep.inj hError).2.symm
  · exact ((expansion_within_limit stacked {} _).2.1 hNothing).mp ⟨_, hFits⟩
  · exact ((expansion_within_limit stacked {} (.symbol "_a")).2.2 { depth := 300 } (by decide)).1

end GrammarShapes
