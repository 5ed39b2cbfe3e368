import GrammarShapes.Proofs.Expansion.Run
import Mathlib.Data.Nat.Find

set_option autoImplicit false

/-! # Expansion without memory

`plain` expands the body of a hidden rule at every reference to it and remembers nothing. It can fail for
want of levels where expansion does not, and where hidden rules refer to each other in a circle it never
succeeds. Whatever else it gives, a list or an unknown rule, expansion gives too.

What is remembered of a completed rule is what the plain expansion of its body gives at some number of
levels, and more levels change nothing. A rule that is open is not referred to: the plain expansion of its
body at the least number of levels that suffice would contain itself at fewer.
-/

namespace GrammarShapes

variable (g : Grammar) (o : Options)

abbrev PlainOutcome :=
  Except SchemaError (List Shape)

def plainConcat (expand : Rule → PlainOutcome) : List Rule → PlainOutcome
  | [] => .ok []
  | r :: rest => do
      let own ← expand r
      let more ← plainConcat expand rest
      return own ++ more

def plainSymbol (expand : Rule → PlainOutcome) (name : String) : PlainOutcome :=
  if !g.resolves name then .error (.unknownRule name)
  else if !o.isHidden name then .ok [.symbol name]
  else
    match g.rules.get? name with
    | none => .ok []
    | some body => (expand body).map List.eraseDups

def plainNode (expand : Rule → PlainOutcome) : Rule → PlainOutcome
  | .alias content _ _ => (expand content).map (·.take 1)
  | .field _ content => (expand content).map (·.take 1)
  | .sequence members => plainConcat expand members
  | .choice members => plainConcat expand members
  | .zeroOrMore content => expand content
  | .oneOrMore content => expand content
  | .ranked _ content => expand content
  | .rankedLeft _ content => expand content
  | .literal text => .ok [.literal text]
  | .pattern _ _ => .ok [.pattern]
  | .symbol name => plainSymbol g o expand name
  | .blank => .ok []

def plainWithin : Nat → Rule → PlainOutcome
  | 0, r => .error (.nestedTooDeep maxDepth r.tag)
  | room + 1, r => plainNode g o (plainWithin room) r

/-- All shapes that a node can produce, each reference to a hidden rule expanded for itself. -/
def plain (r : Rule) : PlainOutcome :=
  plainWithin g o maxDepth r

def Overruns (x : PlainOutcome) : Prop :=
  ∃ limit tag, x = .error (.nestedTooDeep limit tag)

variable {g : Grammar} {o : Options}

theorem not_overruns_ok (shapes : List Shape) : ¬ Overruns (.ok shapes) := by
  rintro ⟨limit, tag, h⟩
  cases h

theorem not_overruns_unknownRule (name : String) : ¬ Overruns (.error (.unknownRule name)) := by
  rintro ⟨limit, tag, h⟩
  cases h

theorem overruns_map_iff {x : PlainOutcome} {f : List Shape → List Shape} :
    Overruns (x.map f) ↔ Overruns x := by
  cases x <;> simp [Overruns, Except.map]

theorem plainConcat_singleton (expand : Rule → PlainOutcome) (r : Rule) :
    plainConcat expand [r] = expand r := by
  simp only [plainConcat]
  cases expand r with
  | error e => rfl
  | ok own => exact congrArg Except.ok (List.append_nil own)

theorem plainConcat_cons_of_error {expand : Rule → PlainOutcome} {r : Rule} {rest : List Rule}
    {err : SchemaError} (h : expand r = .error err) : plainConcat expand (r :: rest) = .error err := by
  rw [plainConcat, h]
  rfl

theorem plainConcat_cons_of_ok {expand : Rule → PlainOutcome} {r : Rule} {rest : List Rule}
    {own : List Shape} (h : expand r = .ok own) :
    plainConcat expand (r :: rest) = (plainConcat expand rest).map (own ++ ·) := by
  rw [plainConcat, h]
  cases plainConcat expand rest <;> rfl

theorem plainNode_of_isTransparent {expand : Rule → PlainOutcome} {r : Rule}
    (h : r.isTransparent = true) : plainNode g o expand r = plainConcat expand r.children := by
  cases r with
  | blank | sequence _ | choice _ => rfl
  | zeroOrMore content | oneOrMore content | ranked _ content | rankedLeft _ content =>
    exact (plainConcat_singleton expand content).symm
  | «alias» _ _ _ | field _ _ | literal _ | pattern _ _ | symbol _ => cases h

theorem plainNode_of_isSingleValued {expand : Rule → PlainOutcome} {r : Rule}
    (h : r.isSingleValued = true) :
    plainNode g o expand r = (plainConcat expand r.children).map (·.take 1) := by
  cases r with
  | «alias» content _ _ | field _ content =>
    exact congrArg (Except.map (·.take 1)) (plainConcat_singleton expand content).symm
  | blank | sequence _ | choice _ | zeroOrMore _ | oneOrMore _ | ranked _ _ | rankedLeft _ _
    | literal _ | pattern _ _ | symbol _ => cases h

theorem plainSymbol_of_dangling {expand : Rule → PlainOutcome} {name : String}
    (hDangling : g.resolves name = false) :
    plainSymbol g o expand name = .error (.unknownRule name) := by
  simp [plainSymbol, hDangling]

theorem plainSymbol_of_visible {expand : Rule → PlainOutcome} {name : String}
    (hResolves : g.resolves name = true) (hVisible : o.isHidden name = false) :
    plainSymbol g o expand name = .ok [.symbol name] := by
  simp [plainSymbol, hResolves, hVisible]

theorem plainSymbol_of_token {expand : Rule → PlainOutcome} {name : String}
    (hResolves : g.resolves name = true) (hHidden : o.isHidden name = true)
    (hToken : g.rules.get? name = none) : plainSymbol g o expand name = .ok [] := by
  simp [plainSymbol, hResolves, hHidden, hToken]

theorem plainSymbol_of_body {expand : Rule → PlainOutcome} {name : String} {body : Rule}
    (hResolves : g.resolves name = true) (hHidden : o.isHidden name = true)
    (hBody : g.rules.get? name = some body) :
    plainSymbol g o expand name = (expand body).map List.eraseDups := by
  simp [plainSymbol, hResolves, hHidden, hBody]

section Levels

variable {expand expand' : Rule → PlainOutcome}
  (hSame : ∀ r, ¬ Overruns (expand r) → expand' r = expand r)

include hSame

theorem plainConcat_congr {rs : List Rule} (h : ¬ Overruns (plainConcat expand rs)) :
    plainConcat expand' rs = plainConcat expand rs := by
  induction rs with
  | nil => rfl
  | cons r rest ih =>
    cases hOwn : expand r with
    | error err =>
      rw [plainConcat_cons_of_error hOwn] at h ⊢
      have hOwn' : expand' r = .error err := (hSame r (hOwn ▸ h)).trans hOwn
      exact plainConcat_cons_of_error hOwn'
    | ok own =>
      rw [plainConcat_cons_of_ok hOwn] at h ⊢
      have hFirst : ¬ Overruns (expand r) := hOwn ▸ not_overruns_ok own
      have hOwn' : expand' r = .ok own := (hSame r hFirst).trans hOwn
      rw [plainConcat_cons_of_ok hOwn', ih (fun hRest => h (overruns_map_iff.mpr hRest))]

theorem plainSymbol_congr {name : String} (h : ¬ Overruns (plainSymbol g o expand name)) :
    plainSymbol g o expand' name = plainSymbol g o expand name := by
  cases hResolves : g.resolves name with
  | false => rw [plainSymbol_of_dangling hResolves, plainSymbol_of_dangling hResolves]
  | true =>
    cases hHidden : o.isHidden name with
    | false => rw [plainSymbol_of_visible hResolves hHidden, plainSymbol_of_visible hResolves hHidden]
    | true =>
      cases hBody : g.rules.get? name with
      | none =>
        rw [plainSymbol_of_token hResolves hHidden hBody, plainSymbol_of_token hResolves hHidden hBody]
      | some body =>
        rw [plainSymbol_of_body hResolves hHidden hBody] at h ⊢
        rw [plainSymbol_of_body hResolves hHidden hBody]
        rw [hSame body (fun hOver => h (overruns_map_iff.mpr hOver))]

theorem plainNode_congr {r : Rule} (h : ¬ Overruns (plainNode g o expand r)) :
    plainNode g o expand' r = plainNode g o expand r := by
  cases r using Rule.byKind with
  | transparent r hTransparent =>
    rw [plainNode_of_isTransparent hTransparent] at h ⊢
    rw [plainNode_of_isTransparent hTransparent]
    exact plainConcat_congr hSame h
  | single r hSingle =>
    rw [plainNode_of_isSingleValued hSingle] at h ⊢
    rw [plainNode_of_isSingleValued hSingle,
      plainConcat_congr hSame (fun hRow => h (overruns_map_iff.mpr hRow))]
  | literal | pattern => rfl
  | symbol name => exact plainSymbol_congr hSame h

end Levels

theorem plainWithin_of_le {room room' : Nat} {r : Rule} (hLe : room ≤ room')
    (h : ¬ Overruns (plainWithin g o room r)) : plainWithin g o room' r = plainWithin g o room r := by
  induction room generalizing room' r with
  | zero => exact absurd ⟨maxDepth, r.tag, rfl⟩ h
  | succ room ih =>
    cases room' with
    | zero => omega
    | succ room' => exact plainNode_congr (fun t ht => ih (by omega) ht) h

theorem plainWithin_eq_of_ok {room room' : Nat} {r : Rule} {shapes : List Shape}
    (hOk : plainWithin g o room r = .ok shapes) (h : ¬ Overruns (plainWithin g o room' r)) :
    plainWithin g o room' r = .ok shapes := by
  have hOver : ¬ Overruns (plainWithin g o room r) := hOk ▸ not_overruns_ok shapes
  rcases Nat.le_total room room' with hLe | hLe
  · rw [plainWithin_of_le hLe hOver, hOk]
  · rw [← plainWithin_of_le hLe h, hOk]

theorem exists_least_room {room : Nat} {r : Rule} (h : ¬ Overruns (plainWithin g o room r)) :
    ∃ least ≤ room, ¬ Overruns (plainWithin g o least r) ∧
      ∀ j < least, Overruns (plainWithin g o j r) := by
  classical
  have hExists : ∃ j, ¬ Overruns (plainWithin g o j r) := ⟨room, h⟩
  refine ⟨Nat.find hExists, Nat.find_min' hExists h, Nat.find_spec hExists, ?_⟩
  exact fun j hj => not_not.mp (Nat.find_min hExists hj)

section Memory

variable (g o)

/-- A rule that is remembered is open, or its entry is what plain expansion of its body gives. -/
def Memo.Faithful (active : List String) (m : Memo) : Prop :=
  ∀ name own, m.lookup name = some own → name ∈ active ∨
    ∃ body room list, g.rules.get? name = some body ∧ plainWithin g o room body = .ok list ∧
      own = list.eraseDups

def OutOfReach (active : List String) (room : Nat) : Prop :=
  ∀ name ∈ active, ∃ body, g.rules.get? name = some body ∧
    ∀ j < room, Overruns (plainWithin g o j body)

/-- An expansion has the plain outcome and leaves a faithful memo. -/
def Follows (active : List String) (x : PlainOutcome)
    (y : Except SchemaError (List Shape) × Expander) : Prop :=
  y.1 = x ∧ ∀ own, x = .ok own → Memo.Faithful g o active y.2.memo

end Memory

variable {active : List String}

theorem OutOfReach.of_le {room room' : Nat} (h : OutOfReach g o active room) (hLe : room' ≤ room) :
    OutOfReach g o active room' := by
  intro name hName
  obtain ⟨body, hBody, hOver⟩ := h name hName
  exact ⟨body, hBody, fun j hj => hOver j (by omega)⟩

theorem Memo.Faithful.remember_open {m : Memo} (h : m.Faithful g o active) (name : String) :
    Memo.Faithful g o (name :: active) ((name, []) :: m) := by
  intro other own hOwn
  rw [Memo.lookup_cons] at hOwn
  split at hOwn
  · rename_i hOther
    exact Or.inl (hOther ▸ List.mem_cons_self)
  · exact (h other own hOwn).imp_left (List.mem_cons_of_mem _)

theorem Memo.Faithful.remember_closed {m : Memo} {name : String} {body : Rule} {room : Nat}
    {list : List Shape} (h : m.Faithful g o (name :: active)) (hBody : g.rules.get? name = some body)
    (hPlain : plainWithin g o room body = .ok list) :
    Memo.Faithful g o active ((name, list.eraseDups) :: m) := by
  intro other own hOwn
  rw [Memo.lookup_cons] at hOwn
  split at hOwn
  · rename_i hOther
    cases hOwn
    exact Or.inr ⟨body, room, list, hOther ▸ hBody, hPlain, rfl⟩
  · rename_i hOther
    refine (h other own hOwn).imp_left fun hActive => ?_
    exact (List.mem_cons.mp hActive).resolve_left hOther

theorem Memo.Faithful.map_eraseDups {m : Memo} {name : String} {body : Rule} {room : Nat}
    {own : List Shape} (h : m.Faithful g o active) (hReach : OutOfReach g o active (room + 1))
    (hBody : g.rules.get? name = some body) (hKnown : m.lookup name = some own)
    (hOver : ¬ Overruns (plainWithin g o room body)) :
    (plainWithin g o room body).map List.eraseDups = .ok own := by
  rcases h name own hKnown with hActive | ⟨body', room', list, hBody', hPlain, rfl⟩
  · obtain ⟨body', hBody', hShort⟩ := hReach name hActive
    rw [hBody] at hBody'
    cases hBody'
    exact absurd (hShort room (by omega)) hOver
  · rw [hBody] at hBody'
    cases hBody'
    rw [plainWithin_eq_of_ok hPlain hOver]
    rfl

namespace Follows

theorem of_error (err : SchemaError) (e : Expander) :
    Follows g o active (.error err) (.error err, e) :=
  ⟨rfl, fun _ h => by cases h⟩

theorem of_ok {e : Expander} (h : Memo.Faithful g o active e.memo) (shapes : List Shape) :
    Follows g o active (.ok shapes) (.ok shapes, e) :=
  ⟨rfl, fun _ _ => h⟩

theorem map {x : PlainOutcome} {y : Except SchemaError (List Shape) × Expander}
    (h : Follows g o active x y) (f : List Shape → List Shape) :
    Follows g o active (x.map f) (y.1.map f, y.2) := by
  obtain ⟨rfl, hMemo⟩ := h
  refine ⟨rfl, fun own hOwn => ?_⟩
  cases hResult : y.1 with
  | error err =>
    rw [hResult] at hOwn
    cases hOwn
  | ok shapes => exact hMemo shapes hResult

theorem concat {plainOf : Rule → PlainOutcome} {expand : Rule → Expansion}
    (hExpand : ∀ r e, Memo.Faithful g o active e.memo → ¬ Overruns (plainOf r) →
      Follows g o active (plainOf r) (expand r e))
    {rs : List Rule} {e : Expander} (hMemo : Memo.Faithful g o active e.memo)
    (h : ¬ Overruns (plainConcat plainOf rs)) :
    Follows g o active (plainConcat plainOf rs) (Expansion.concat expand rs e) := by
  induction rs generalizing e with
  | nil => exact .of_ok hMemo []
  | cons r rest ih =>
    cases hOwn : plainOf r with
    | error err =>
      rw [plainConcat_cons_of_error hOwn] at h ⊢
      obtain ⟨hResult, -⟩ := hExpand r e hMemo (hOwn ▸ h)
      have hHead : expand r e = (.error err, (expand r e).2) := Prod.ext (hResult.trans hOwn) rfl
      rw [Expansion.concat_cons_of_error hHead]
      exact .of_error err _
    | ok own =>
      rw [plainConcat_cons_of_ok hOwn] at h ⊢
      obtain ⟨hResult, hMemo₁⟩ := hExpand r e hMemo (hOwn ▸ not_overruns_ok own)
      have hHead : expand r e = (.ok own, (expand r e).2) := Prod.ext (hResult.trans hOwn) rfl
      rw [Expansion.concat_cons_eq_map hHead]
      exact (ih (hMemo₁ own hOwn) (fun hRest => h (overruns_map_iff.mpr hRest))).map (own ++ ·)

theorem first {x : PlainOutcome} {y : Expansion} {e : Expander} (h : Follows g o active x (y e)) :
    Follows g o active (x.map (·.take 1)) (y.first e) := by
  rw [Expansion.first_eq_map]
  exact h.map (·.take 1)

theorem inline {name : String} {body : Rule} {least : Nat} {expand : Rule → Expansion} {e : Expander}
    (hBody : g.rules.get? name = some body)
    (h : Follows g o (name :: active) (plainWithin g o least body)
      (expand body ((e.remember name []).report (.ruleInlined name)))) :
    Follows g o active ((plainWithin g o least body).map List.eraseDups)
      (Expansion.inline expand name body e) := by
  obtain ⟨hResult, hMemo⟩ := h
  cases hPlain : plainWithin g o least body with
  | error err =>
    rw [Expansion.inline_of_error (Prod.ext (hResult.trans hPlain) rfl)]
    exact .of_error err _
  | ok own =>
    rw [Expansion.inline_of_ok (Prod.ext (hResult.trans hPlain) rfl), firstSeen_eq_eraseDups]
    exact .of_ok ((hMemo own hPlain).remember_closed hBody hPlain) own.eraseDups

theorem token {expand : Rule → Expansion} {name : String} {e : Expander} {room : Nat}
    (hMemo : Memo.Faithful g o active e.memo) (hReach : OutOfReach g o active room)
    (hResolves : g.resolves name = true) (hHidden : o.isHidden name = true)
    (hToken : g.rules.get? name = none) :
    Follows g o active (.ok []) (expandSymbol g o expand name e) := by
  cases hKnown : e.memo.lookup name with
  | none =>
    rw [expandSymbol_of_token e hResolves hHidden hKnown hToken]
    exact .of_ok hMemo []
  | some own =>
    rcases hMemo name own hKnown with hActive | ⟨_, _, _, hBody, _⟩
    · obtain ⟨_, hBody, _⟩ := hReach name hActive
      rw [hToken] at hBody
      cases hBody
    · rw [hToken] at hBody
      cases hBody

theorem symbol {room : Nat} {expand : Rule → Expansion} {name : String} {e : Expander}
    (hExpand : ∀ least ≤ room, ∀ active r e, Memo.Faithful g o active e.memo →
      OutOfReach g o active least → ¬ Overruns (plainWithin g o least r) →
      Follows g o active (plainWithin g o least r) (expand r e))
    (hMemo : Memo.Faithful g o active e.memo) (hReach : OutOfReach g o active (room + 1))
    (h : ¬ Overruns (plainSymbol g o (plainWithin g o room) name)) :
    Follows g o active (plainSymbol g o (plainWithin g o room) name)
      (expandSymbol g o expand name e) := by
  cases hResolves : g.resolves name with
  | false =>
    rw [plainSymbol_of_dangling hResolves, expandSymbol_of_dangling e hResolves]
    exact .of_error _ e
  | true =>
    cases hHidden : o.isHidden name with
    | false =>
      rw [plainSymbol_of_visible hResolves hHidden, expandSymbol_of_visible e hResolves hHidden]
      exact .of_ok hMemo _
    | true =>
      cases hBody : g.rules.get? name with
      | none =>
        rw [plainSymbol_of_token hResolves hHidden hBody]
        exact .token hMemo hReach hResolves hHidden hBody
      | some body =>
        rw [plainSymbol_of_body hResolves hHidden hBody] at h ⊢
        have hOver : ¬ Overruns (plainWithin g o room body) :=
          fun hOver => h (overruns_map_iff.mpr hOver)
        cases hKnown : e.memo.lookup name with
        | some own =>
          rw [hMemo.map_eraseDups hReach hBody hKnown hOver]
          rw [expandSymbol_of_known e hResolves hHidden hKnown]
          refine ⟨rfl, fun _ _ => ?_⟩
          rw [Expander.memo_ite_report]
          exact hMemo
        | none =>
          -- at the least number of levels the body cannot contain a reference to its own rule
          obtain ⟨least, hLe, hLeast, hShort⟩ := exists_least_room hOver
          rw [plainWithin_of_le hLe hLeast, expandSymbol_of_body e hResolves hHidden hKnown hBody]
          apply inline hBody
          apply hExpand least hLe _ _ _ (hMemo.remember_open name) _ hLeast
          intro other hOther
          rcases List.mem_cons.mp hOther with rfl | hOther
          · exact ⟨body, hBody, hShort⟩
          · exact (hReach.of_le (by omega : least ≤ room + 1)) other hOther

end Follows

theorem follows_expandWithin {room room' : Nat} {r : Rule} {e : Expander} (hLe : room ≤ room')
    (hMemo : Memo.Faithful g o active e.memo) (hReach : OutOfReach g o active room)
    (h : ¬ Overruns (plainWithin g o room r)) :
    Follows g o active (plainWithin g o room r) (expandWithin g o room' r e) := by
  induction room using Nat.strongRecOn generalizing room' r e active with
  | ind room ih =>
    cases room with
    | zero => exact absurd ⟨maxDepth, r.tag, rfl⟩ h
    | succ room =>
      cases room' with
      | zero => omega
      | succ room' =>
        have hRow : ∀ r e, Memo.Faithful g o active e.memo → ¬ Overruns (plainWithin g o room r) →
            Follows g o active (plainWithin g o room r) (expandWithin g o room' r e) :=
          fun r e hMemo h => ih room (by omega) (by omega) hMemo (hReach.of_le (by omega)) h
        have hNode : Follows g o active (plainNode g o (plainWithin g o room) r)
            (expandNode g o (expandWithin g o room') r e.enter) := by
          change ¬ Overruns (plainNode g o (plainWithin g o room) r) at h
          have hEnter : Memo.Faithful g o active e.enter.memo := hMemo
          cases r using Rule.byKind with
          | transparent r hTransparent =>
            rw [plainNode_of_isTransparent hTransparent] at h ⊢
            rw [expandNode_of_isTransparent hTransparent]
            exact Follows.concat hRow hEnter h
          | single r hSingle =>
            rw [plainNode_of_isSingleValued hSingle] at h ⊢
            rw [expandNode_of_isSingleValued hSingle]
            exact (Follows.concat hRow hEnter (fun hOver => h (overruns_map_iff.mpr hOver))).first
          | literal | pattern => exact .of_ok hEnter _
          | symbol name =>
            refine Follows.symbol (fun least hLeast active r e hMemo hReach h => ?_) hEnter hReach h
            exact ih least (by omega) (by omega) hMemo hReach h
        exact hNode

/-- What plain expansion gives, a list with its order and repetitions or an unknown rule, expansion
gives. No cycle of hidden rules is excluded: plain expansion runs out of levels in one. -/
theorem expandFresh_eq_of_plain (r : Rule) :
    (∀ shapes, plain g o r = .ok shapes → (expandFresh g o r).1 = .ok shapes) ∧
    (∀ name, plain g o r = .error (.unknownRule name) →
      (expandFresh g o r).1 = .error (.unknownRule name)) := by
  have hFollows : ¬ Overruns (plain g o r) → (expandFresh g o r).1 = plain g o r := by
    intro h
    have hEmpty : Memo.Faithful g o [] [] := fun _ _ hNone => by cases hNone
    have hReach : OutOfReach g o [] maxDepth := fun _ hNone => by cases hNone
    exact (follows_expandWithin (Nat.le_refl maxDepth) hEmpty hReach h).1
  constructor
  · intro shapes hPlain
    rw [← hPlain]
    exact hFollows (hPlain ▸ not_overruns_ok shapes)
  · intro name hPlain
    rw [← hPlain]
    exact hFollows (hPlain ▸ not_overruns_unknownRule name)

def layered : Grammar :=
  (Grammar.withRule {} "_kw" (.choice [.literal "if", .literal "else"])).withRule "_word" (.symbol "_kw")

theorem layered_expandFresh :
    (expandFresh layered {} (.sequence [.alias (.symbol "_word") true "k", .symbol "_kw",
      .field "f" (.symbol "_word"), .symbol "_word"])).1 =
      .ok [.literal "if", .literal "if", .literal "else", .literal "if", .literal "if", .literal "else"] ∧
    (expandFresh layered {} (.sequence [.symbol "_word", .symbol "ghost"])).1 =
      .error (.unknownRule "ghost") :=
  ⟨(expandFresh_eq_of_plain _).1 _ rfl, (expandFresh_eq_of_plain _).2 _ rfl⟩

end GrammarShapes
