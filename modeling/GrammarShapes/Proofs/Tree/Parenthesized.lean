import GrammarShapes.Proofs.Tree.Building
import GrammarShapes.Tree.Parenthesized

set_option autoImplicit false

/-! # What a text in parentheses denotes

A text falls into tokens in one way, each word as long as possible. The tokens are written down for steps of
building, two for the start of a node and one for everything else, unless an opening parenthesis has no word
behind it. So what holds of steps holds of tokens: a text denotes a tree exactly if its tokens are derived
from the grammar of one tree, and otherwise the first token that does not fit decides the error. A missing
kind goes before all other errors.
-/

namespace GrammarShapes

namespace Parenthesized

section Lexing

variable {c : Char} {word text : List Char} {ts : List Token}

def InWord (c : Char) : Prop :=
  c ≠ '(' ∧ c ≠ ')' ∧ isBlank c = false

/-- `Lexes text ts`: the text falls into the tokens, with blanks between them. A word ends where no
character of a word follows. -/
inductive Lexes : List Char → List Token → Prop where
  | nil : Lexes [] []
  | blank {c : Char} {text : List Char} {ts : List Token} (hBlank : isBlank c = true)
      (hRest : Lexes text ts) : Lexes (c :: text) ts
  | opening {text : List Char} {ts : List Token} (hRest : Lexes text ts) :
      Lexes ('(' :: text) (.opening :: ts)
  | closing {text : List Char} {ts : List Token} (hRest : Lexes text ts) :
      Lexes (')' :: text) (.closing :: ts)
  | word {word text : List Char} {ts : List Token} (hNonempty : word ≠ []) (hWord : ∀ c ∈ word, InWord c)
      (hEnd : ∀ c, text.head? = some c → ¬ InWord c) (hRest : Lexes text ts) :
      Lexes (word ++ text) (.word (String.ofList word) :: ts)

theorem tokensAfter_append (before : List Char) (hWord : ∀ c ∈ word, InWord c) (text : List Char) :
    tokensAfter before (word ++ text) = tokensAfter (word.reverse ++ before) text := by
  induction word generalizing before with
  | nil => rfl
  | cons c word ih =>
    obtain ⟨⟨hOpening, hClosing, hBlank⟩, hWord⟩ := List.forall_mem_cons.mp hWord
    rw [List.cons_append, tokensAfter, if_neg hOpening, if_neg hClosing,
      if_neg (Bool.eq_false_iff.mp hBlank), ih _ hWord, List.reverse_cons, List.append_assoc]
    rfl

theorem tokensAfter_of_end (word : List Char) (hEnd : ∀ c, text.head? = some c → ¬ InWord c) :
    tokensAfter word text = endWord word (tokensAfter [] text) := by
  cases text with
  | nil => rfl
  | cons c text =>
    have hNot := hEnd c rfl
    rw [tokensAfter, tokensAfter]
    by_cases hOpening : c = '('
    · rw [if_pos hOpening, if_pos hOpening]
      rfl
    by_cases hClosing : c = ')'
    · rw [if_neg hOpening, if_neg hOpening, if_pos hClosing, if_pos hClosing]
      rfl
    have hBlank : isBlank c = true :=
      eq_true_of_ne_false fun hBlank => hNot ⟨hOpening, hClosing, hBlank⟩
    rw [if_neg hOpening, if_neg hOpening, if_neg hClosing, if_neg hClosing, if_pos hBlank, if_pos hBlank]
    rfl

theorem Lexes.tokensAfter_eq (h : Lexes text ts) : tokensAfter [] text = ts := by
  induction h with
  | nil => rfl
  | @blank c text ts hBlank _ ih =>
    have hOpening : c ≠ '(' := fun hc => by subst hc; cases hBlank
    have hClosing : c ≠ ')' := fun hc => by subst hc; cases hBlank
    rw [tokensAfter, if_neg hOpening, if_neg hClosing, if_pos hBlank]
    exact ih
  | opening _ ih => exact congrArg (Token.opening :: ·) ih
  | closing _ ih => exact congrArg (Token.closing :: ·) ih
  | @word word text ts hNonempty hWord hEnd _ ih =>
    rw [tokensAfter_append [] hWord, tokensAfter_of_end _ hEnd, ih, List.append_nil, endWord,
      List.isEmpty_reverse, if_neg (by simpa using hNonempty), List.reverse_reverse]

theorem lexes_endWord (hWord : ∀ c ∈ word, InWord c) (hEnd : ∀ c, text.head? = some c → ¬ InWord c)
    (h : Lexes text ts) : Lexes (word.reverse ++ text) (endWord word ts) := by
  rw [endWord]
  cases word with
  | nil => exact h
  | cons c word =>
    exact .word (by simp) (fun d hd => hWord d (List.mem_reverse.mp hd)) hEnd h

theorem lexes_tokensAfter (word : List Char) (hWord : ∀ c ∈ word, InWord c) (text : List Char) :
    Lexes (word.reverse ++ text) (tokensAfter word text) := by
  induction text generalizing word with
  | nil => exact lexes_endWord hWord (fun c hc => by cases hc) .nil
  | cons c text ih =>
    have hNil := ih [] (fun c hc => by cases hc)
    rw [tokensAfter]
    split
    · next hc =>
      subst hc
      exact lexes_endWord hWord (fun c hc h => h.1 (Option.some.inj hc).symm) (.opening hNil)
    split
    · next hc =>
      subst hc
      exact lexes_endWord hWord (fun c hc h => h.2.1 (Option.some.inj hc).symm) (.closing hNil)
    split
    · next hBlank =>
      refine lexes_endWord hWord (fun d hd h => ?_) (.blank hBlank hNil)
      rw [← Option.some.inj hd, InWord, hBlank] at h
      exact Bool.noConfusion h.2.2
    · next hOpening hClosing hBlank =>
      have hChar : InWord c := ⟨hOpening, hClosing, Bool.eq_false_iff.mpr hBlank⟩
      have hMore := ih (c :: word) (List.forall_mem_cons.mpr ⟨hChar, hWord⟩)
      rwa [List.reverse_cons, List.append_assoc] at hMore

theorem lexes_iff {source : String} : Lexes source.toList ts ↔ tokens source = ts := by
  refine ⟨fun h => h.tokensAfter_eq, fun h => ?_⟩
  rw [← h]
  exact lexes_tokensAfter [] (fun c hc => by cases hc) source.toList

end Lexing

open BuildStep SyntaxTree

/-- `Directs ts steps`: the tokens are written down for the steps, none of which tells a range. -/
inductive Directs : List Token → List BuildStep → Prop where
  | nil : Directs [] []
  | start (kind : String) {ts : List Token} {steps : List BuildStep} (hRest : Directs ts steps) :
      Directs (.opening :: .word kind :: ts) (.start kind {} :: steps)
  | token (kind : String) {ts : List Token} {steps : List BuildStep} (hRest : Directs ts steps) :
      Directs (.word kind :: ts) (.token kind {} :: steps)
  | finish {ts : List Token} {steps : List BuildStep} (hRest : Directs ts steps) :
      Directs (.closing :: ts) (.finish :: steps)

def Named (ts : List Token) : Prop :=
  ∀ before after, ts = before ++ .opening :: after → ∃ kind rest, after = .word kind :: rest

/-- `Denotes ts trees`: the tokens are derived from the grammar of a row of trees, where a tree is a word or
a word and a row of trees in parentheses, and these are the trees, whatever the numbers of their nodes. -/
inductive Denotes : List Token → List SyntaxTree → Prop where
  | nil : Denotes [] []
  | word {id : Nat} {kind : String} {rest : List Token} {trees : List SyntaxTree}
      (hRest : Denotes rest trees) : Denotes (.word kind :: rest) (.leaf ⟨id, kind, {}⟩ :: trees)
  | group {id : Nat} {kind : String} {inner rest : List Token} {children trees : List SyntaxTree}
      (hInner : Denotes inner children) (hRest : Denotes rest trees) :
      Denotes (.opening :: .word kind :: (inner ++ .closing :: rest))
        (.node ⟨id, kind, {}⟩ children :: trees)

/-- `Offends before token after e`: behind tokens that fit, this one does not. Nothing is open, and it
closes a group or begins a second tree; the word behind an opening parenthesis begins none. -/
inductive Offends (before : List Token) : Token → List Token → TreeError → Prop where
  | closing {after : List Token} (hIdle : before.count .opening = before.count .closing) :
      Offends before .closing after .noOpenNode
  | group {kind : String} {after : List Token} (hIdle : before.count .opening = before.count .closing)
      (hRoot : before ≠ []) : Offends before .opening (.word kind :: after) (.secondRoot kind)
  | word {kind : String} {after : List Token} (hIdle : before.count .opening = before.count .closing)
      (hRoot : before ≠ []) (hFree : ∀ front, before ≠ front ++ [.opening]) :
      Offends before (.word kind) after (.secondRoot kind)

def Fitting (ts : List Token) : Prop :=
  ∀ before token after e, ts = before ++ token :: after → ¬ Offends before token after e

/-- `Faulty ts e`: the tokens denote no tree, and `e` tells why. -/
inductive Faulty : List Token → TreeError → Prop where
  | missingKind {ts : List Token} (hMissing : ¬ Named ts) : Faulty ts .missingKind
  | misused {before after : List Token} {token : Token} {e : TreeError}
      (hNamed : Named (before ++ token :: after)) (hBefore : Fitting before)
      (hOffends : Offends before token after e) : Faulty (before ++ token :: after) e
  | empty : Faulty [] .empty
  | unclosed {ts : List Token} (hNamed : Named ts) (hFitting : Fitting ts)
      (hOpen : ts.count .closing < ts.count .opening) :
      Faulty ts (.unclosed (ts.count .opening - ts.count .closing))

variable {before after ts us : List Token} {token : Token} {first second steps : List BuildStep}
  {s : BuildStep} {e : TreeError} {t : SyntaxTree} {trees : List SyntaxTree}

namespace Directs

theorem append (h : Directs ts first) (hSecond : Directs us second) :
    Directs (ts ++ us) (first ++ second) := by
  induction h with
  | nil => exact hSecond
  | start kind _ ih => exact .start kind ih
  | token kind _ ih => exact .token kind ih
  | finish _ ih => exact .finish ih

theorem exists_append (h : Directs ts (first ++ second)) :
    ∃ before after, ts = before ++ after ∧ Directs before first ∧ Directs after second := by
  induction first generalizing ts with
  | nil => exact ⟨[], ts, rfl, .nil, h⟩
  | cons s first ih =>
    cases h with
    | start kind hRest =>
      obtain ⟨before, after, rfl, hBefore, hAfter⟩ := ih hRest
      exact ⟨.opening :: .word kind :: before, after, rfl, .start kind hBefore, hAfter⟩
    | token kind hRest =>
      obtain ⟨before, after, rfl, hBefore, hAfter⟩ := ih hRest
      exact ⟨.word kind :: before, after, rfl, .token kind hBefore, hAfter⟩
    | finish hRest =>
      obtain ⟨before, after, rfl, hBefore, hAfter⟩ := ih hRest
      exact ⟨.closing :: before, after, rfl, .finish hBefore, hAfter⟩

/-- `Parts before after steps`: the steps are parted where the tokens are, or these are parted between an
opening parenthesis and the word behind it. -/
inductive Parts (before after : List Token) : List BuildStep → Prop where
  | between {first second : List BuildStep} (hFirst : Directs before first)
      (hSecond : Directs after second) : Parts before after (first ++ second)
  | within {front rest : List Token} {kind : String} {steps : List BuildStep}
      (hBefore : before = front ++ [.opening]) (hAfter : after = .word kind :: rest) :
      Parts before after steps

theorem Parts.append {own : List Token} (hOwn : Directs own [s]) (h : Parts before after steps) :
    Parts (own ++ before) after (s :: steps) := by
  cases h with
  | between hFirst hSecond => exact .between (hOwn.append hFirst) hSecond
  | within hBefore hAfter => exact .within (by rw [hBefore, List.append_assoc]) hAfter

theorem parts : ∀ {before : List Token} {steps : List BuildStep}, Directs (before ++ after) steps →
    Parts before after steps
  | [], _, h => .between .nil h
  -- an opening parenthesis and the word behind it belong to one step
  | [.opening], _, h => by
    cases h with
    | start kind _ => exact .within (List.nil_append _).symm rfl
  | .opening :: _ :: before, _, h => by
    cases h with
    | start kind hRest => exact (parts hRest).append (.start kind .nil)
  | .word kind :: before, _, h => by
    cases h with
    | token _ hRest => exact (parts hRest).append (.token kind .nil)
  | .closing :: before, _, h => by
    cases h with
    | finish hRest => exact (parts hRest).append (.finish .nil)

theorem count_opening (h : Directs ts steps) : ts.count .opening = starts steps := by
  induction h with
  | nil => rfl
  | start _ _ ih | token _ _ ih | finish _ ih =>
    rw [starts] at ih ⊢
    simp [List.countP_cons, isStart, ih]

theorem count_closing (h : Directs ts steps) : ts.count .closing = finishes steps := by
  induction h with
  | nil => rfl
  | start _ _ ih | token _ _ ih | finish _ ih =>
    rw [finishes] at ih ⊢
    simp [List.countP_cons, isFinish, ih]

theorem named (h : Directs ts steps) : Named ts := by
  rintro before after rfl
  cases h.parts with
  | between hFirst hSecond =>
    cases hSecond with
    | start kind _ => exact ⟨kind, _, rfl⟩
  | within hBefore hAfter => cases hAfter

theorem eq_nil_iff (h : Directs ts steps) (hIdle : starts steps = finishes steps) :
    ts = [] ↔ added steps = [] := by
  have hLength := length_eq steps
  have hStarts := starts_le steps
  constructor
  · rintro rfl
    cases h
    rfl
  · -- no node and as many starts as finishes leave no step at all
    intro hNone
    rw [hNone, List.length_nil] at hLength hStarts
    have hSteps : steps = [] := List.eq_nil_of_length_eq_zero (by omega)
    subst hSteps
    cases h
    rfl

theorem offends_iff (hBefore : Directs before first) (hRest : Directs (token :: after) (s :: second)) :
    Offends before token after e ↔ misuse? first s = some e := by
  have hOpening := hBefore.count_opening
  have hClosing := hBefore.count_closing
  have hNil := hBefore.eq_nil_iff
  constructor
  · intro hOffends
    cases hOffends with
    | closing hIdle =>
      cases hRest
      rw [misuse?, if_pos (by omega)]
    | group hIdle hRoot =>
      cases hRest
      have hStarts : starts first = finishes first := by omega
      rw [misuse?, if_pos ⟨hStarts, mt (hNil hStarts).mpr hRoot⟩]
    | word hIdle hRoot hFree =>
      cases hRest
      have hStarts : starts first = finishes first := by omega
      rw [misuse?, if_pos ⟨hStarts, mt (hNil hStarts).mpr hRoot⟩]
  · intro hMisuse
    cases hRest with
    | start kind _ =>
      obtain ⟨⟨hStarts, hAdded⟩, hError⟩ := Option.ite_none_right_eq_some.mp hMisuse
      cases hError
      exact .group (by omega) (mt (hNil hStarts).mp hAdded)
    | token kind _ =>
      obtain ⟨⟨hStarts, hAdded⟩, hError⟩ := Option.ite_none_right_eq_some.mp hMisuse
      cases hError
      refine .word (by omega) (mt (hNil hStarts).mp hAdded) fun front hFront => ?_
      obtain ⟨_, _, hWord⟩ := hBefore.named front [] hFront
      cases hWord
    | finish _ =>
      obtain ⟨hStarts, hError⟩ := Option.ite_none_right_eq_some.mp hMisuse
      cases hError
      exact .closing (by omega)

theorem exists_offends_iff (h : Directs ts (first ++ s :: second)) :
    ∃ before token after, ts = before ++ token :: after ∧ Directs before first ∧
      ∀ e, Offends before token after e ↔ misuse? first s = some e := by
  obtain ⟨before, rest, rfl, hBefore, hRest⟩ := h.exists_append
  cases rest with
  | nil => cases hRest
  | cons token after => exact ⟨before, token, after, rfl, hBefore, fun e => offends_iff hBefore hRest⟩

theorem exists_misuse_of_offends (h : Directs (before ++ token :: after) steps)
    (hOffends : Offends before token after e) :
    ∃ first s second, steps = first ++ s :: second ∧ Directs before first ∧ misuse? first s = some e := by
  cases h.parts with
  | @between first rest hFirst hRest =>
    cases rest with
    | nil => cases hRest
    | cons s second => exact ⟨first, s, second, rfl, hFirst, (offends_iff hFirst hRest).mp hOffends⟩
  | within hBefore hAfter =>
    -- the word behind an opening parenthesis does not offend
    cases hAfter
    cases hOffends with
    | word _ _ hFree => exact absurd hBefore (hFree _)

theorem fitting_iff (h : Directs ts steps) : Fitting ts ↔ Orderly steps := by
  constructor
  · rintro hFitting first s second rfl
    obtain ⟨before, token, after, rfl, -, hOffends⟩ := h.exists_offends_iff
    exact Option.eq_none_iff_forall_ne_some.mpr fun e hMisuse =>
      hFitting before token after e rfl ((hOffends e).mpr hMisuse)
  · rintro hOrderly before token after e rfl hOffends
    obtain ⟨first, s, second, hSplit, -, hMisuse⟩ := h.exists_misuse_of_offends hOffends
    rw [hOrderly first s second hSplit] at hMisuse
    cases hMisuse

theorem faulty_of_steps (h : Directs ts steps) (hFaulty : BuildStep.Faulty steps e) : Faulty ts e := by
  cases hFaulty with
  | misused hBefore hMisuse =>
    obtain ⟨before, token, after, rfl, hFirst, hOffends⟩ := h.exists_offends_iff
    exact .misused h.named (hFirst.fitting_iff.mpr hBefore) ((hOffends e).mpr hMisuse)
  | empty hOrderly hNone =>
    cases h with
    | nil => exact .empty
    | start _ _ | token _ _ => cases hNone
    | finish _ => cases hOrderly [] .finish _ rfl
  | unclosed hOrderly _ hOpen =>
    rw [← h.count_opening, ← h.count_closing] at hOpen ⊢
    exact .unclosed h.named (h.fitting_iff.mpr hOrderly) hOpen

theorem steps_of_faulty (h : Directs ts steps) (hFaulty : Faulty ts e) : BuildStep.Faulty steps e := by
  cases hFaulty with
  | missingKind hMissing => exact absurd h.named hMissing
  | misused _ hBefore hOffends =>
    obtain ⟨first, s, second, rfl, hFirst, hMisuse⟩ := h.exists_misuse_of_offends hOffends
    exact .misused (hFirst.fitting_iff.mp hBefore) hMisuse
  | empty =>
    cases h
    exact .empty orderly_nil rfl
  | unclosed _ hFitting hOpen =>
    rw [h.count_opening, h.count_closing] at hOpen ⊢
    have hStarts := starts_le steps
    refine .unclosed (h.fitting_iff.mp hFitting) (fun hNone => ?_) hOpen
    rw [hNone, List.length_nil] at hStarts
    omega

theorem faulty_iff (h : Directs ts steps) : Faulty ts e ↔ BuildStep.Faulty steps e :=
  ⟨h.steps_of_faulty, h.faulty_of_steps⟩

theorem denotes_of_traces (h : Directs ts steps) (hTraces : Traces steps trees) : Denotes ts trees := by
  induction hTraces generalizing ts with
  | nil =>
    cases h
    exact .nil
  | token _ ih =>
    cases h with
    | token kind hRest => exact .word (ih hRest)
  | group _ _ ihInner ihRest =>
    cases h with
    | start kind hMore =>
      obtain ⟨inner, rest, rfl, hInner, hFinish⟩ := hMore.exists_append
      cases hFinish with
      | finish hRest => exact .group (ihInner hInner) (ihRest hRest)

end Directs

theorem denotes_iff : Denotes ts trees ↔ ∃ steps, Directs ts steps ∧ Traces steps trees := by
  refine ⟨fun h => ?_, fun ⟨_, hDirects, hTraces⟩ => hDirects.denotes_of_traces hTraces⟩
  induction h with
  | nil => exact ⟨[], .nil, .nil⟩
  | word _ ih =>
    obtain ⟨steps, hDirects, hTraces⟩ := ih
    exact ⟨_, .token _ hDirects, .token hTraces⟩
  | group _ _ ihInner ihRest =>
    obtain ⟨inner, hInner, hInnerTraces⟩ := ihInner
    obtain ⟨rest, hRest, hRestTraces⟩ := ihRest
    exact ⟨_, .start _ (hInner.append (.finish hRest)), .group hInnerTraces hRestTraces⟩

theorem faulty_iff_of_missing (h : ¬ Named ts) : Faulty ts e ↔ e = .missingKind := by
  constructor
  · intro hFaulty
    cases hFaulty with
    | missingKind _ => rfl
    | misused hNamed _ _ | unclosed hNamed _ _ => exact absurd hNamed h
    | empty => exact absurd Directs.nil.named h
  · rintro rfl
    exact .missingKind h

theorem build_of_directs (h : Directs ts steps) (b : TreeBuilder) : build b ts = .ok (b.run steps) := by
  induction h generalizing b with
  | nil => rfl
  | start _ _ ih | token _ _ ih | finish _ ih => exact ih _

theorem build_append {own : List Token} (hOwn : Directs own [s]) (b : TreeBuilder) (ts : List Token) :
    build b (own ++ ts) = build (b.step s) ts := by
  cases hOwn with
  | start _ h | token _ h | finish h =>
    cases h
    rfl

theorem Named.of_append {front rest : List Token} (h : Named (front ++ rest)) : Named rest := by
  rintro before after rfl
  exact h (front ++ before) after (List.append_assoc _ _ _).symm

/-- `Guides ts`: the tokens are written down for steps, or a kind is missing and no builder comes through. -/
def Guides (ts : List Token) : Prop :=
  (∃ steps, Directs ts steps) ∨ ¬ Named ts ∧ ∀ b, build b ts = .error .missingKind

theorem Guides.append {own : List Token} (h : Guides ts) (hOwn : Directs own [s]) : Guides (own ++ ts) := by
  rcases h with ⟨steps, hDirects⟩ | ⟨hMissing, hBuild⟩
  · exact Or.inl ⟨_, hOwn.append hDirects⟩
  · exact Or.inr ⟨mt Named.of_append hMissing, fun b => by rw [build_append hOwn, hBuild]⟩

theorem guides : ∀ ts : List Token, Guides ts
  | [] => Or.inl ⟨[], .nil⟩
  | .opening :: .word kind :: rest => (guides rest).append (.start kind .nil)
  | .word kind :: rest => (guides rest).append (.token kind .nil)
  | .closing :: rest => (guides rest).append (.finish .nil)
  | [.opening] | .opening :: .opening :: _ | .opening :: .closing :: _ => by
    refine Or.inr ⟨fun hNamed => ?_, fun b => rfl⟩
    obtain ⟨kind, rest, hWord⟩ := hNamed [] _ rfl
    cases hWord

variable {source : String}

theorem tree_of_directs (h : Directs (tokens source) steps) : tree source = ofSteps steps := by
  rw [tree, build_of_directs h]
  rfl

theorem tree_eq_ok_iff : tree source = .ok t ↔ Denotes (tokens source) [t] ∧ t.Numbered := by
  rw [denotes_iff]
  constructor
  · intro hTree
    rcases guides (tokens source) with ⟨steps, hDirects⟩ | ⟨-, hBuild⟩
    · rw [tree_of_directs hDirects] at hTree
      obtain ⟨hTraces, hNumbered⟩ := ofSteps_eq_ok_iff.mp hTree
      exact ⟨⟨steps, hDirects, hTraces⟩, hNumbered⟩
    · rw [tree, hBuild] at hTree
      cases hTree
  · rintro ⟨⟨steps, hDirects, hTraces⟩, hNumbered⟩
    rw [tree_of_directs hDirects]
    exact ofSteps_of_traces hTraces hNumbered

theorem exists_tree_iff : (∃ t, tree source = .ok t) ↔ ∃ t, Denotes (tokens source) [t] := by
  constructor
  · rintro ⟨t, hTree⟩
    exact ⟨t, (tree_eq_ok_iff.mp hTree).1⟩
  · rintro ⟨t, hDenotes⟩
    obtain ⟨steps, hDirects, hTraces⟩ := denotes_iff.mp hDenotes
    rw [tree_of_directs hDirects]
    exact exists_ofSteps_iff.mpr ⟨t, hTraces⟩

theorem tree_eq_error_iff : tree source = .error e ↔ Faulty (tokens source) e := by
  rcases guides (tokens source) with ⟨steps, hDirects⟩ | ⟨hMissing, hBuild⟩
  · rw [tree_of_directs hDirects, ofSteps_eq_error_iff, hDirects.faulty_iff]
  · have hTree : tree source = .error .missingKind := by
      rw [tree, hBuild]
      rfl
    rw [hTree, faulty_iff_of_missing hMissing, Except.error.injEq, eq_comm]

/-- A text falls into tokens in one way. It denotes a tree if and only if the tokens are derived from the
grammar of one tree, and this is the tree, with its nodes numbered in document order. Otherwise a kind is
missing behind an opening parenthesis, or else the first token that does not fit decides the error. Without
such a token there is none at all or some nodes are open, as many as there are more opening parentheses than
closing ones. -/
theorem outcome_of_tokens (source : String) :
    (∀ ts, Lexes source.toList ts ↔ tokens source = ts) ∧
    ((∃ t, tree source = .ok t) ↔ ∃ t, Denotes (tokens source) [t]) ∧
    (∀ t, tree source = .ok t ↔ Denotes (tokens source) [t] ∧ t.Numbered) ∧
    ∀ e, tree source = .error e ↔ Faulty (tokens source) e :=
  ⟨fun _ => lexes_iff, exists_tree_iff, fun _ => tree_eq_ok_iff, fun _ => tree_eq_error_iff⟩

/-- A missing kind counts more than the parenthesis before it that closes nothing. -/
example : tree "a) (" = .error .missingKind := rfl

end Parenthesized

end GrammarShapes
