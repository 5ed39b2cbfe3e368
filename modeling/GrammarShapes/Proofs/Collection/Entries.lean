import GrammarShapes.Collection.Directory
import GrammarShapes.Collection.FirstSeen

set_option autoImplicit false

/-! # Entries with repeated keys

The values that stand at one key of a list of entries are all that matters to whoever looks for that key:
neither the other entries nor their places do. A directory that is made of such entries has their keys in
the order in which they first come, each with the value that stands there last.
-/

namespace GrammarShapes

section Values

variable {κ α : Type} [DecidableEq κ]

def valuesAt (key : κ) : List (κ × α) → List α
  | [] => []
  | (k, a) :: rest => if k = key then a :: valuesAt key rest else valuesAt key rest

variable {key : κ} {a : α} {es : List (κ × α)}

theorem valuesAt_cons_self (key : κ) (a : α) (es : List (κ × α)) :
    valuesAt key ((key, a) :: es) = a :: valuesAt key es :=
  if_pos rfl

theorem valuesAt_cons_of_ne {k : κ} (h : k ≠ key) (a : α) (es : List (κ × α)) :
    valuesAt key ((k, a) :: es) = valuesAt key es :=
  if_neg h

theorem mem_valuesAt_iff : a ∈ valuesAt key es ↔ (key, a) ∈ es := by
  induction es with
  | nil => exact iff_of_false (List.not_mem_nil) (List.not_mem_nil)
  | cons e es ih =>
    obtain ⟨k, b⟩ := e
    by_cases h : k = key
    · subst h
      rw [valuesAt_cons_self, List.mem_cons, List.mem_cons, ih]
      simp
    · rw [valuesAt_cons_of_ne h, List.mem_cons, ih]
      simp [Ne.symm h]

theorem valuesAt_eq_nil_iff : valuesAt key es = [] ↔ key ∉ es.map (·.1) := by
  simp only [List.eq_nil_iff_forall_not_mem, mem_valuesAt_iff, List.mem_map, not_exists, not_and,
    Prod.forall]
  constructor
  · rintro h k a hMem rfl
    exact h a hMem
  · exact fun h a hMem => h key a hMem rfl

/-- Where no key is repeated, one value at most stands at each. -/
theorem valuesAt_of_nodup (hNodup : (es.map (·.1)).Nodup) (h : (key, a) ∈ es) : valuesAt key es = [a] := by
  induction es with
  | nil => exact absurd h List.not_mem_nil
  | cons e es ih =>
    obtain ⟨k, b⟩ := e
    obtain ⟨hNew, hRest⟩ := List.nodup_cons.mp hNodup
    rcases List.mem_cons.mp h with hFirst | h
    · cases hFirst
      rw [valuesAt_cons_self, valuesAt_eq_nil_iff.mpr hNew]
    · have hOther : k ≠ key := by
        rintro rfl
        exact hNew (List.mem_map.mpr ⟨(k, a), h, rfl⟩)
      rw [valuesAt_cons_of_ne hOther, ih hRest h]

/-- Where no key is repeated, the order of the entries is of no account. -/
theorem valuesAt_perm {fs : List (κ × α)} (hNodup : (es.map (·.1)).Nodup) (h : es.Perm fs) (key : κ) :
    valuesAt key es = valuesAt key fs := by
  by_cases hKey : key ∈ es.map (·.1)
  · obtain ⟨⟨_, a⟩, hMem, rfl⟩ := List.mem_map.mp hKey
    rw [valuesAt_of_nodup hNodup hMem, valuesAt_of_nodup ((h.map _).nodup_iff.mp hNodup) (h.mem_iff.mp hMem)]
  · rw [valuesAt_eq_nil_iff.mpr hKey, valuesAt_eq_nil_iff.mpr fun hMem => hKey ((h.map _).mem_iff.mpr hMem)]

theorem valuesAt_filter {p : κ × α → Bool} (h : ∀ a, p (key, a) = true) (es : List (κ × α)) :
    valuesAt key (es.filter p) = valuesAt key es := by
  induction es with
  | nil => rfl
  | cons e es ih =>
    obtain ⟨k, a⟩ := e
    by_cases hKey : k = key
    · subst hKey
      rw [List.filter_cons_of_pos (h a), valuesAt_cons_self, valuesAt_cons_self, ih]
    · rw [valuesAt_cons_of_ne hKey, ← ih]
      by_cases hKept : p (k, a) = true
      · rw [List.filter_cons_of_pos hKept, valuesAt_cons_of_ne hKey]
      · rw [List.filter_cons_of_neg hKept]

/-- Other names for the keys change nothing as long as no other key gets the name that is looked for. -/
theorem valuesAt_map {lam β : Type} [DecidableEq lam] {f : κ → lam} {name : lam}
    (hf : ∀ k, f k = name ↔ k = key) (g : α → β) (es : List (κ × α)) :
    valuesAt name (es.map fun e => (f e.1, g e.2)) = (valuesAt key es).map g := by
  induction es with
  | nil => rfl
  | cons e es ih =>
    obtain ⟨k, a⟩ := e
    by_cases hKey : k = key
    · subst hKey
      rw [List.map_cons, (hf k).mpr rfl, valuesAt_cons_self, valuesAt_cons_self, ih, List.map_cons]
    · rw [List.map_cons, valuesAt_cons_of_ne (fun hName => hKey ((hf k).mp hName)), valuesAt_cons_of_ne hKey, ih]

end Values

namespace Directory

variable {α : Type}

theorem names_insertEntry_of_mem {name : String} (value : α) {entries : List (String × α)}
    (h : name ∈ entries.map (·.1)) : (insertEntry name value entries).map (·.1) = entries.map (·.1) := by
  induction entries with
  | nil => exact absurd h List.not_mem_nil
  | cons e entries ih =>
    rw [insertEntry]
    split
    · rename_i hSame
      rw [List.map_cons, List.map_cons, hSame]
    · rename_i hOther
      have hRest : name ∈ entries.map (·.1) :=
        (List.mem_cons.mp h).resolve_left fun hSame => hOther hSame.symm
      rw [List.map_cons, List.map_cons, ih hRest]

theorem names_insert_eq (d : Directory α) (name : String) (value : α) :
    (d.insert name value).names = if name ∈ d.names then d.names else d.names ++ [name] := by
  split
  · rename_i hOld
    exact names_insertEntry_of_mem value hOld
  · rename_i hNew
    exact names_insert_of_not_mem hNew

theorem names_foldl_insert (es : List (String × α)) (d : Directory α) :
    (es.foldl (fun d e => d.insert e.1 e.2) d).names = addNew d.names (es.map (·.1)) := by
  induction es generalizing d with
  | nil => rfl
  | cons e es ih => rw [List.foldl_cons, ih, names_insert_eq, List.map_cons, addNew]

theorem get?_foldl_insert (es : List (String × α)) (d : Directory α) (name : String) :
    (es.foldl (fun d e => d.insert e.1 e.2) d).get? name =
      (valuesAt name es).getLast?.or (d.get? name) := by
  induction es generalizing d with
  | nil => rfl
  | cons e es ih =>
    obtain ⟨key, a⟩ := e
    rw [List.foldl_cons, ih, get?_insert]
    by_cases h : name = key
    · subst h
      rw [if_pos rfl, valuesAt_cons_self, List.getLast?_cons]
      cases (valuesAt name es).getLast? <;> rfl
    · rw [if_neg h, valuesAt_cons_of_ne (Ne.symm h)]

theorem names_ofEntries (es : List (String × α)) : (ofEntries es).names = firstSeen (es.map (·.1)) :=
  names_foldl_insert es empty

theorem get?_ofEntries (es : List (String × α)) (name : String) :
    (ofEntries es).get? name = (valuesAt name es).getLast? := by
  rw [ofEntries, get?_foldl_insert, show empty.get? name = (none : Option α) from rfl, Option.or_none]

end Directory

end GrammarShapes
