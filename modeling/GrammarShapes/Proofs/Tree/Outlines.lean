import GrammarShapes.Cursor.Outline
import GrammarShapes.Proofs.Tree.Descendants
import Mathlib.Data.List.Forall2

set_option autoImplicit false

/-! # Outlines of trees

The outline of a tree has a line for the root and for each node below it, in document order. The indentation
shows the level, and the rest of the line the kind, cut if it is long. Where no kind is cut, breaks its line
or begins with a blank, levels and kinds can be read off the lines. They determine the tree up to the numbers
and the ranges of its nodes: what lies below a node ends with the first line whose level is not greater.
-/

namespace GrammarShapes

namespace SyntaxTree

inductive SameKinds : SyntaxTree → SyntaxTree → Prop where
  | node {n m : Node} {ts us : List SyntaxTree} (hKind : n.kind = m.kind)
      (hChildren : List.Forall₂ SameKinds ts us) : SameKinds (.node n ts) (.node m us)

theorem sameKinds_iff {t u : SyntaxTree} :
    SameKinds t u ↔ t.root.kind = u.root.kind ∧ List.Forall₂ SameKinds t.children u.children := by
  constructor
  · rintro ⟨hKind, hChildren⟩
    exact ⟨hKind, hChildren⟩
  · rintro ⟨hKind, hChildren⟩
    cases t
    cases u
    exact .node hKind hChildren

theorem forestInduction {motive : List SyntaxTree → Prop} (nil : motive [])
    (cons : ∀ t ts, motive t.children → motive ts → motive (t :: ts)) (ts : List SyntaxTree) :
    motive ts := by
  have hBelow : ∀ t : SyntaxTree, motive t.children := by
    intro t
    induction t using induction with
    | step t ih =>
      generalize t.children = us at ih
      induction us with
      | nil => exact nil
      | cons u us ihBeside =>
        exact cons u us (ih u List.mem_cons_self) (ihBeside fun c hc => ih c (List.mem_cons_of_mem _ hc))
  induction ts with
  | nil => exact nil
  | cons t ts ih => exact cons t ts (hBelow t) ih

/-- The kinds of the nodes of some trees whose parent lies at the given level, each with its own level. -/
def levels (level : Nat) (ts : List SyntaxTree) : List (String × Nat) :=
  (descendantsOfAll level ts).map fun e => (e.1.kind, e.2)

theorem levels_cons (level : Nat) (t : SyntaxTree) (ts : List SyntaxTree) :
    levels level (t :: ts) =
      (t.root.kind, level + 1) :: (levels (level + 1) t.children ++ levels level ts) := by
  rw [levels, descendantsOfAll, List.map_cons, List.map_append, descendants_eq]
  rfl

theorem levels_eq_of_sameKinds {level : Nat} {ts us : List SyntaxTree}
    (h : List.Forall₂ SameKinds ts us) : levels level ts = levels level us := by
  induction ts using forestInduction generalizing level us with
  | nil =>
    cases h
    rfl
  | cons t ts ihBelow ihBeside =>
    cases h with
    | cons hFirst hRest =>
      obtain ⟨hKind, hChildren⟩ := sameKinds_iff.mp hFirst
      rw [levels_cons, levels_cons, hKind, ihBelow hChildren, ihBeside hRest]

def EndsAt (level : Nat) (rest : List (String × Nat)) : Prop :=
  ∀ e, rest.head? = some e → e.2 ≤ level

theorem EndsAt.levels_append {level : Nat} {rest : List (String × Nat)} (h : EndsAt level rest)
    (ts : List SyntaxTree) : EndsAt (level + 1) (levels level ts ++ rest) := by
  intro e he
  cases ts with
  | nil => exact Nat.le_succ_of_le (h e he)
  | cons t ts =>
    rw [levels_cons] at he
    cases he
    exact Nat.le_refl _

/-- The levels and kinds of these trees, whatever follows at their parent's level or above, are those of no
other trees. -/
def Determined (ts : List SyntaxTree) : Prop :=
  ∀ level us rest rest', EndsAt level rest → EndsAt level rest' →
    levels level ts ++ rest = levels level us ++ rest' → List.Forall₂ SameKinds ts us ∧ rest = rest'

theorem EndsAt.not_levels_cons {level : Nat} {rest rest' : List (String × Nat)} (h : EndsAt level rest)
    (t : SyntaxTree) (ts : List SyntaxTree) : rest ≠ levels level (t :: ts) ++ rest' := by
  rintro rfl
  rw [levels_cons] at h
  exact absurd (h _ rfl) (Nat.not_succ_le_self level)

theorem determined_nil : Determined [] := by
  intro level us rest rest' hRest _ hLevels
  cases us with
  | nil => exact ⟨.nil, hLevels⟩
  | cons u us => exact absurd hLevels (hRest.not_levels_cons u us)

theorem Determined.cons {t : SyntaxTree} {ts : List SyntaxTree} (hBelow : Determined t.children)
    (hBeside : Determined ts) : Determined (t :: ts) := by
  intro level us rest rest' hRest hRest' hLevels
  cases us with
  | nil => exact absurd hLevels.symm (hRest'.not_levels_cons t ts)
  | cons u us =>
    rw [levels_cons, levels_cons, List.cons_append, List.cons_append, List.append_assoc,
      List.append_assoc] at hLevels
    obtain ⟨hRoot, hTail⟩ := List.cons.inj hLevels
    obtain ⟨hChildren, hAfter⟩ :=
      hBelow (level + 1) _ _ _ (hRest.levels_append ts) (hRest'.levels_append us) hTail
    obtain ⟨hSiblings, hEnd⟩ := hBeside level us rest rest' hRest hRest' hAfter
    exact ⟨.cons (sameKinds_iff.mpr ⟨congrArg Prod.fst hRoot, hChildren⟩) hSiblings, hEnd⟩

theorem determined (ts : List SyntaxTree) : Determined ts := by
  induction ts using forestInduction with
  | nil => exact determined_nil
  | cons t ts ihBelow ihBeside => exact ihBelow.cons ihBeside

def kindLevels (t : SyntaxTree) : List (String × Nat) :=
  (t.root.kind, 0) :: levels 0 t.children

theorem kindLevels_eq (t : SyntaxTree) :
    t.kindLevels = ((t.root, 0) :: t.descendants 0).map fun e => (e.1.kind, e.2) := by
  rw [kindLevels, levels, descendants_eq, List.map_cons]

theorem sameKinds_iff_kindLevels {t u : SyntaxTree} : SameKinds t u ↔ t.kindLevels = u.kindLevels := by
  rw [sameKinds_iff]
  constructor
  · rintro ⟨hKind, hChildren⟩
    rw [kindLevels, kindLevels, hKind, levels_eq_of_sameKinds hChildren]
  · intro hLevels
    obtain ⟨hRoot, hBelow⟩ := List.cons.inj hLevels
    have hNothing : EndsAt 0 [] := fun e he => (by cases he)
    obtain ⟨hChildren, -⟩ :=
      determined t.children 0 u.children [] [] hNothing hNothing (congrArg (· ++ []) hBelow)
    exact ⟨congrArg Prod.fst hRoot, hChildren⟩

theorem exists_of_mem_kindLevels {t : SyntaxTree} {e : String × Nat} (h : e ∈ t.kindLevels) :
    ∃ n ∈ t.nodes, n.kind = e.1 := by
  rw [kindLevels_eq] at h
  obtain ⟨⟨n, level⟩, hMem, rfl⟩ := List.mem_map.mp h
  have hFirst := List.mem_map_of_mem (f := Prod.fst) hMem
  rw [List.map_cons, map_fst_descendants, nodes_eq, List.tail_cons, ← nodes_eq] at hFirst
  exact ⟨n, hFirst, rfl⟩

end SyntaxTree

/-- Where two lists begin with items that meet a condition and go on with one that does not, they are equal
part by part. -/
theorem append_inj_of_takeWhile {α : Type} {p : α → Bool} {xs us ys vs : List α}
    (hxs : ∀ a ∈ xs, p a = true) (hus : ∀ a ∈ us, p a = true)
    (hys : ∀ a, ys.head? = some a → p a = false) (hvs : ∀ a, vs.head? = some a → p a = false)
    (h : xs ++ ys = us ++ vs) : xs = us ∧ ys = vs := by
  have hStops : ∀ zs : List α, (∀ a, zs.head? = some a → p a = false) → zs.takeWhile p = [] := by
    intro zs hzs
    cases zs with
    | nil => rfl
    | cons a zs => rw [List.takeWhile_cons, hzs a rfl]; rfl
  have hFront := congrArg (List.takeWhile p) h
  rw [List.takeWhile_append_of_pos hxs, List.takeWhile_append_of_pos hus, hStops ys hys, hStops vs hvs,
    List.append_nil, List.append_nil] at hFront
  rw [hFront] at h
  exact ⟨hFront, List.append_cancel_left h⟩

namespace Outline

/-- The characters of a line: two blanks for each level, the first thirty characters of the kind, dots if it
has more, and a line break. -/
def written (kind : String) (level : Nat) : List Char :=
  List.replicate (2 * level) ' ' ++ kind.toList.take 30 ++ (if 30 < kind.length then ['.', '.', '.'] else []) ++
    ['\n']

/-- Nothing of the kind is cut, and its first character is told from the blanks before it and its last from
the line break behind it. -/
structure Legible (kind : String) : Prop where
  length_le : kind.length ≤ 30
  notMem_lineBreak : '\n' ∉ kind.toList
  head_ne_blank : kind.toList.head? ≠ some ' '

instance (kind : String) : Decidable (Legible kind) :=
  decidable_of_iff (kind.length ≤ 30 ∧ '\n' ∉ kind.toList ∧ kind.toList.head? ≠ some ' ')
    ⟨fun ⟨hLength, hBreak, hBlank⟩ => ⟨hLength, hBreak, hBlank⟩,
      fun ⟨hLength, hBreak, hBlank⟩ => ⟨hLength, hBreak, hBlank⟩⟩

theorem toList_cut (kind : String) :
    (cut kind).toList = kind.toList.take 30 ++ if 30 < kind.length then ['.', '.', '.'] else [] := by
  rw [cut, kindLimit]
  rcases Nat.lt_or_ge 30 kind.length with hLong | hShort
  · rw [if_neg (Nat.not_le.mpr hLong), if_pos hLong, String.toList_append, String.toList_ofList]
    rfl
  · have hWhole : kind.toList.length ≤ 30 := String.length_toList ▸ hShort
    rw [if_pos hShort, if_neg (Nat.not_lt.mpr hShort), List.append_nil, List.take_of_length_le hWhole]

theorem toList_line {ν : Type} [SyntaxNode ν] (node : ν) (level : Nat) :
    (line (ofParameters []) node level).toList = written (SyntaxNode.kind node) level := by
  have hLine : line (ofParameters []) node level =
      "" ++ indentation level ++ cut (SyntaxNode.kind node) ++ "" ++ "\n" := rfl
  rw [hLine, written, List.append_assoc (List.replicate _ _), ← toList_cut, indentation]
  simp

theorem Legible.written_eq {kind : String} (h : Legible kind) (level : Nat) :
    written kind level = (List.replicate (2 * level) ' ' ++ kind.toList) ++ ['\n'] := by
  have hLength : kind.toList.length ≤ 30 := by
    rw [String.length_toList]
    exact h.length_le
  rw [written, if_neg (Nat.not_lt.mpr h.length_le), List.append_nil, List.take_of_length_le hLength]

theorem Legible.notMem_line {kind : String} (h : Legible kind) (level : Nat) :
    ∀ c ∈ List.replicate (2 * level) ' ' ++ kind.toList, (c != '\n') = true := by
  intro c hc
  rw [bne_iff_ne]
  rcases List.mem_append.mp hc with hBlank | hKind
  · rw [List.eq_of_mem_replicate hBlank]
    decide
  · rintro rfl
    exact h.notMem_lineBreak hKind

theorem Legible.beq_blank_of_head? {kind : String} (h : Legible kind) :
    ∀ c, kind.toList.head? = some c → (c == ' ') = false := by
  intro c hc
  rw [beq_eq_false_iff_ne]
  rintro rfl
  exact h.head_ne_blank hc

theorem written_append_inj {kind kind' : String} {level level' : Nat} {rest rest' : List Char}
    (h : Legible kind) (h' : Legible kind')
    (hText : written kind level ++ rest = written kind' level' ++ rest') :
    kind = kind' ∧ level = level' ∧ rest = rest' := by
  have hBreak : ∀ (cs : List Char) c, (['\n'] ++ cs).head? = some c → (c != '\n') = false := by
    intro cs c hc
    cases hc
    decide
  have hBlanks : ∀ n, ∀ c ∈ List.replicate n ' ', (c == ' ') = true := by
    intro n c hc
    rw [List.eq_of_mem_replicate hc]
    decide
  rw [h.written_eq, h'.written_eq, List.append_assoc _ ['\n'], List.append_assoc _ ['\n']] at hText
  -- the line ends with its first break, and the blanks with the first other character
  obtain ⟨hLine, hRest⟩ := append_inj_of_takeWhile (h.notMem_line level) (h'.notMem_line level')
    (hBreak rest) (hBreak rest') hText
  obtain ⟨hLevel, hChars⟩ := append_inj_of_takeWhile (hBlanks _) (hBlanks _) h.beq_blank_of_head?
    h'.beq_blank_of_head? hLine
  have hLength := congrArg List.length hLevel
  rw [List.length_replicate, List.length_replicate] at hLength
  exact ⟨String.toList_inj.mp hChars, by omega, List.append_cancel_left hRest⟩

theorem written_append_ne_nil (kind : String) (level : Nat) (rest : List Char) :
    written kind level ++ rest ≠ [] := by
  simp [written]

theorem flatMap_written_inj {es es' : List (String × Nat)} (h : ∀ e ∈ es, Legible e.1)
    (h' : ∀ e ∈ es', Legible e.1)
    (hText : (es.flatMap fun e => written e.1 e.2) = es'.flatMap fun e => written e.1 e.2) : es = es' := by
  induction es generalizing es' with
  | nil =>
    cases es' with
    | nil => rfl
    | cons e' es' => exact absurd hText.symm (written_append_ne_nil e'.1 e'.2 _)
  | cons e es ih =>
    cases es' with
    | nil => exact absurd hText (written_append_ne_nil e.1 e.2 _)
    | cons e' es' =>
      rw [List.forall_mem_cons] at h h'
      rw [List.flatMap_cons, List.flatMap_cons] at hText
      obtain ⟨hKind, hLevel, hRest⟩ := written_append_inj h.1 h'.1 hText
      rw [ih h.2 h'.2 hRest, Prod.ext hKind hLevel]

end Outline

namespace TreeCursor

open SyntaxTree Outline

variable {s t : SyntaxTree}

theorem text_ofTree (o : Outline) {bound : Nat} (h : s.size ≤ bound) :
    o.text cursor bound (.ofTree s) =
      (String.join (((s.root, 0) :: s.descendants 0).map fun e => o.line e.1 e.2), .ofTree s) := by
  rw [Outline.text, take_next_ofTree h]
  rfl

theorem toList_text_ofTree {bound : Nat} (h : s.size ≤ bound) :
    ((ofParameters []).text cursor bound (.ofTree s)).1.toList =
      s.kindLevels.flatMap fun e => written e.1 e.2 := by
  have hLine : ∀ e : Node × Nat, (line (ofParameters []) e.1 e.2).toList = written e.1.kind e.2 :=
    fun e => toList_line e.1 e.2
  rw [text_ofTree _ h, String.toList_join, List.flatMap_map, kindLevels_eq, List.flatMap_map]
  simp only [hLine]

theorem text_eq_iff_sameKinds {u : SyntaxTree} {bound bound' : Nat} (h : s.size ≤ bound)
    (h' : u.size ≤ bound') (hLegible : ∀ n ∈ s.nodes, Legible n.kind)
    (hLegible' : ∀ n ∈ u.nodes, Legible n.kind) :
    ((ofParameters []).text cursor bound (.ofTree s)).1 =
      ((ofParameters []).text cursor bound' (.ofTree u)).1 ↔ SameKinds s u := by
  have hKinds : ∀ {t : SyntaxTree}, (∀ n ∈ t.nodes, Legible n.kind) → ∀ e ∈ t.kindLevels, Legible e.1 := by
    intro t hAll e he
    obtain ⟨n, hn, hKind⟩ := exists_of_mem_kindLevels he
    exact hKind ▸ hAll n hn
  rw [sameKinds_iff_kindLevels, ← String.toList_inj, toList_text_ofTree h, toList_text_ofTree h']
  exact ⟨flatMap_written_inj (hKinds hLegible) (hKinds hLegible'), fun hSame => by rw [hSame]⟩

/-- The outline of a node of a built tree has a line for it and one for each node below it, in document
order: two blanks for each level below it, the kind, cut behind its thirtieth character, and a line break.
If all kinds in two subtrees of built trees are legible, then the subtrees have one outline exactly if they
have the same structure and the same kinds. -/
theorem outline_of_ofSteps {steps : List BuildStep} (h : SyntaxTree.ofSteps steps = .ok t)
    (hs : s ∈ t.subtrees) :
    t.cursorAt? s.root.id = some (.ofTree s) ∧
    (∀ bound, s.size ≤ bound → (ofParameters []).text cursor bound (.ofTree s) =
      (String.ofList (((s.root, 0) :: s.descendants 0).flatMap fun e => written e.1.kind e.2), .ofTree s)) ∧
    ∀ steps' t' s', SyntaxTree.ofSteps steps' = .ok t' → s' ∈ t'.subtrees →
      (∀ n ∈ s.nodes, Legible n.kind) → (∀ n ∈ s'.nodes, Legible n.kind) →
      ∀ bound bound', s.size ≤ bound → s'.size ≤ bound' →
      (((ofParameters []).text cursor bound (.ofTree s)).1 =
        ((ofParameters []).text cursor bound' (.ofTree s')).1 ↔ SameKinds s s') := by
  have hNumbered := SyntaxTree.numbered_of_ofSteps h
  refine ⟨hNumbered.cursorAt?_root_id hs, fun bound hBound => ?_,
    fun _ _ s' _ _ hLegible hLegible' bound bound' hBound hBound' =>
      text_eq_iff_sameKinds hBound hBound' hLegible hLegible'⟩
  have hText := toList_text_ofTree hBound
  rw [kindLevels_eq, List.flatMap_map] at hText
  rw [← hText, String.ofList_toList, text_ofTree _ hBound]

def placedSteps : List BuildStep :=
  [.start "list" ⟨⟨0, 0, 0⟩, ⟨3, 0, 3⟩⟩, .token "b" ⟨⟨1, 0, 1⟩, ⟨2, 0, 2⟩⟩, .finish]

def placedTree : SyntaxTree :=
  .node ⟨0, "list", ⟨⟨0, 0, 0⟩, ⟨3, 0, 3⟩⟩⟩ [.leaf ⟨1, "b", ⟨⟨1, 0, 1⟩, ⟨2, 0, 2⟩⟩⟩]

theorem outline_innerTree :
    (ofParameters []).text cursor 2 (.ofTree innerTree) = ("list\n  b\n", .ofTree innerTree) ∧
    SameKinds innerTree placedTree := by
  have hBuilt : SyntaxTree.ofSteps nestedSteps = .ok nestedTree := rfl
  have hInner : innerTree ∈ nestedTree.subtrees := .tail _ (.tail _ (.head _))
  have hPlaced : SyntaxTree.ofSteps placedSteps = .ok placedTree := rfl
  obtain ⟨-, hText, hSame⟩ := outline_of_ofSteps hBuilt hInner
  refine ⟨hText 2 (by decide), (hSame _ _ _ hPlaced (mem_subtrees_self _) ?_ ?_ 2 2 ?_ ?_).mp ?_⟩
  · decide
  · decide
  · decide
  · decide
  · rfl

/-- A kind with a line break can pass for two kinds, one below the other. -/
example : ((ofParameters []).text cursor 1 (.ofTree (.leaf ⟨0, "a\n  b", {}⟩))).1 =
    ((ofParameters []).text cursor 2 (.ofTree (.node ⟨0, "a", {}⟩ [.leaf ⟨1, "b", {}⟩]))).1 := rfl

end TreeCursor

end GrammarShapes
