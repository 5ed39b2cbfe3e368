import GrammarShapes.Proofs.Expansion.Settled

set_option autoImplicit false

/-! # Untangled nodes

A node is untangled if no two different hidden rules that it can come to refer to each other, directly or
through others; a rule may still refer to itself. Untangled nodes are settled: what a rule leaves for
another was completed where no rule was open that the other refers back to.
-/

namespace GrammarShapes

variable {g : Grammar} {o : Options}

variable (g o) in
def Untangled (r : Rule) : Prop :=
  ∀ name other, Meets g o r (.symbol name) → Meets g o (.symbol name) (.symbol other) →
    Meets g o (.symbol other) (.symbol name) → name = other

theorem Untangled.of_meets {r t : Rule} (h : Untangled g o r) (hMeets : Meets g o r t) :
    Untangled g o t := fun name other hName => h name other (hMeets.trans hName)

section Classical

open Classical

variable (g o) in
noncomputable def countMet (name : String) : Nat :=
  g.rules.names.countP fun other => decide (Meets g o (.symbol name) (.symbol other))

theorem countMet_lt {name other : String} {body : Rule} (hBody : g.rules.get? name = some body)
    (hMeets : Meets g o (.symbol name) (.symbol other))
    (hOnly : ¬ Meets g o (.symbol other) (.symbol name)) : countMet g o other < countMet g o name := by
  refine countP_lt_of_mem (fun inner _ hInner => ?_) (Directory.mem_names_of_get? hBody) ?_ ?_
  · exact decide_eq_true (hMeets.trans (of_decide_eq_true hInner))
  · exact decide_eq_true (Meets.refl _)
  · exact decide_eq_false hOnly

end Classical

/-- A rule settles all others if the other rules that it can come to are settled: its body meets these and
the rule itself, which is open. -/
theorem settles_of_settled {name : String} (h : ∀ inner, Meets g o (.symbol name) (.symbol inner) →
    inner ≠ name → Settled g o (.symbol inner)) (other : String) : Settles g o name other := by
  by_cases hFirm : Firm g o (.symbol name)
  · exact hFirm.settled name other (Meets.refl _)
  intro room shapes e' own list hRoom hOwn hYields
  have hRun := Run.of_expandWithin hRoom
  have hResolved := hRun.resolved List.mem_cons_self
  obtain ⟨body, hOpened⟩ := hRun.exists_opened (Option.isSome_of_eq_some hOwn)
  obtain ⟨hHidden, hBody⟩ := mem_opened_symbol_iff.mp hOpened
  have hFirmOf : ∀ inner, Meets g o body (.symbol inner) → inner ≠ name → Firm g o (.symbol inner) := by
    intro inner hInner hne
    have hMeets := (Meets.of_opened hOpened).trans hInner
    exact ⟨hResolved.of_meets hMeets, h inner hMeets hne⟩
  rcases hRun.of_body hHidden hBody with ⟨hNone, -⟩ | ⟨-, all, m₁, hAll, hShapes, hMemo⟩
  · cases hNone
  by_cases hne : other = name
  · subst hne
    obtain rfl := hYields.unique ⟨room, e', hRoom⟩
    rw [hMemo, Memo.lookup_cons_self] at hOwn
    cases hOwn
    rw [hShapes]
    exact .refl _
  · rw [hMemo, Memo.lookup_cons_of_ne _ _ hne] at hOwn
    have hOpen : Memo.Accurate g o [(name, [])] := accurate_nil.remember [] hFirm hOpened
    have hAccurate : m₁.Accurate g o := by
      refine hOpen.of_run (List.forall_mem_singleton.mpr fun inner hInner => ?_) hAll
      by_cases hSame : inner = name
      · subst hSame
        exact Or.inl (Option.isSome_of_eq_some (Memo.lookup_cons_self _ _ _))
      · exact Or.inr (hFirmOf inner hInner hSame)
    rcases hAll.known_or_meets (Option.isSome_of_eq_some hOwn) with hOld | ⟨t, ht, hMeets⟩
    · rw [Memo.lookup_cons_of_ne _ _ hne] at hOld
      cases hOld
    · obtain rfl := List.mem_singleton.mp ht
      exact hAccurate.yields other own list hOwn (hFirmOf other hMeets hne) hYields

theorem settles_of_not_opened {name : String} (h : ∀ body, body ∉ opened g o (.symbol name))
    (other : String) : Settles g o name other := by
  intro room shapes e' own list hRoom hOwn _
  obtain ⟨body, hBody⟩ := (Run.of_expandWithin hRoom).exists_opened (Option.isSome_of_eq_some hOwn)
  exact absurd hBody (h body)

theorem Untangled.settles {name : String} (h : Untangled g o (.symbol name)) (other : String) :
    Settles g o name other := by
  induction hCount : countMet g o name using Nat.strongRecOn generalizing name other with
  | ind n ih =>
    subst hCount
    by_cases hOpened : ∃ body, body ∈ opened g o (.symbol name)
    · obtain ⟨body, hOpened⟩ := hOpened
      refine settles_of_settled (fun inner hInner hne x y hx => ?_) other
      have hMeets := hInner.trans hx
      have hOnly : ¬ Meets g o (.symbol x) (.symbol name) := fun hBack =>
        hne (h name inner (Meets.refl _) hInner (hx.trans hBack)).symm
      have hFewer := countMet_lt (mem_opened_symbol_iff.mp hOpened).2 hMeets hOnly
      exact ih (countMet g o x) hFewer (h.of_meets hMeets) y rfl
    · exact settles_of_not_opened (fun body hBody => hOpened ⟨body, hBody⟩) other

theorem Untangled.settled {r : Rule} (h : Untangled g o r) : Settled g o r :=
  fun _ other hMeets => (h.of_meets hMeets).settles other

end GrammarShapes
