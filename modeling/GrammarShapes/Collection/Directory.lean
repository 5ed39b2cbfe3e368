set_option autoImplicit false

/-! # Directories

A directory maps names to values and keeps the order in which the names first came. Giving a name a new
value leaves the name at its place.
-/

namespace GrammarShapes

structure Directory (α : Type) where
  entries : List (String × α)
  nodup_names : (entries.map (·.1)).Nodup

namespace Directory

variable {α : Type}

def empty : Directory α :=
  ⟨[], by simp⟩

def names (d : Directory α) : List String :=
  d.entries.map (·.1)

def values (d : Directory α) : List α :=
  d.entries.map (·.2)

def size (d : Directory α) : Nat :=
  d.entries.length

def get? (d : Directory α) (name : String) : Option α :=
  d.entries.lookup name

def contains (d : Directory α) (name : String) : Bool :=
  d.entries.any (·.1 == name)

/-- Gives the name its value among entries: in its place, or else at the end. -/
def insertEntry (name : String) (value : α) : List (String × α) → List (String × α)
  | [] => [(name, value)]
  | (other, v) :: rest =>
      if other = name then (name, value) :: rest else (other, v) :: insertEntry name value rest

theorem mem_names_insertEntry_iff {name other : String} {value : α} {entries : List (String × α)} :
    other ∈ (insertEntry name value entries).map (·.1) ↔
      other = name ∨ other ∈ entries.map (·.1) := by
  induction entries with
  | nil => simp [insertEntry]
  | cons head rest ih =>
      obtain ⟨first, v⟩ := head
      by_cases h : first = name
      · simp [insertEntry, h]
      · simp only [insertEntry, h, if_false, List.map_cons, List.mem_cons, ih]
        constructor
        · rintro (h | h | h)
          · exact Or.inr (Or.inl h)
          · exact Or.inl h
          · exact Or.inr (Or.inr h)
        · rintro (h | h | h)
          · exact Or.inr (Or.inl h)
          · exact Or.inl h
          · exact Or.inr (Or.inr h)

theorem nodup_insertEntry {name : String} {value : α} {entries : List (String × α)}
    (h : (entries.map (·.1)).Nodup) : ((insertEntry name value entries).map (·.1)).Nodup := by
  induction entries with
  | nil => simp [insertEntry]
  | cons head rest ih =>
      obtain ⟨first, v⟩ := head
      simp only [List.map_cons, List.nodup_cons] at h
      by_cases hfirst : first = name
      · subst hfirst
        simpa [insertEntry] using h
      · simp only [insertEntry, hfirst, if_false, List.map_cons, List.nodup_cons,
          mem_names_insertEntry_iff]
        exact ⟨by simpa [hfirst] using h.1, ih h.2⟩

/-- Gives a name its value. A new name comes last. -/
def insert (d : Directory α) (name : String) (value : α) : Directory α :=
  ⟨insertEntry name value d.entries, nodup_insertEntry d.nodup_names⟩

def ofEntries (entries : List (String × α)) : Directory α :=
  entries.foldl (fun d e => d.insert e.1 e.2) empty

def filter (d : Directory α) (p : α → Bool) : List (String × α) :=
  d.entries.filter fun e => p e.2

/-- The same names with other values. -/
def map {β : Type} (d : Directory α) (f : α → β) : Directory β :=
  ⟨d.entries.map fun e => (e.1, f e.2), by
    rw [List.map_map]
    exact d.nodup_names⟩

theorem ext {c d : Directory α} (h : c.entries = d.entries) : c = d := by
  cases c; cases d; simp_all

instance [DecidableEq α] : DecidableEq (Directory α) := fun c d =>
  decidable_of_iff (c.entries = d.entries) ⟨ext, fun h => h ▸ rfl⟩

theorem names_insert (d : Directory α) (name : String) (value : α) {other : String} :
    other ∈ (d.insert name value).names ↔ other = name ∨ other ∈ d.names :=
  mem_names_insertEntry_iff

theorem lookup_insertEntry (name : String) (value : α) (entries : List (String × α))
    (other : String) :
    (insertEntry name value entries).lookup other =
      if other = name then some value else entries.lookup other := by
  induction entries with
  | nil =>
      by_cases h : other = name
      · simp [insertEntry, h]
      · simp [insertEntry, List.lookup_cons, h, beq_eq_false_iff_ne.2 h]
  | cons head rest ih =>
      obtain ⟨first, v⟩ := head
      by_cases hfirst : first = name
      · subst hfirst
        by_cases h : other = first
        · simp [insertEntry, h]
        · simp [insertEntry, List.lookup_cons, h, beq_eq_false_iff_ne.2 h]
      · by_cases h : other = first
        · subst h
          simp [insertEntry, hfirst]
        · simp [insertEntry, List.lookup_cons, hfirst, beq_eq_false_iff_ne.2 h, ih]

theorem get?_insert (d : Directory α) (name : String) (value : α) (other : String) :
    (d.insert name value).get? other = if other = name then some value else d.get? other :=
  lookup_insertEntry name value d.entries other

theorem get?_eq_some_iff {d : Directory α} {name : String} {value : α} :
    d.get? name = some value ↔ (name, value) ∈ d.entries := by
  rw [get?, List.lookup_eq_some_iff]
  constructor
  · rintro ⟨before, after, hEntries, -⟩
    rw [hEntries]
    exact List.mem_append_right _ List.mem_cons_self
  · intro h
    obtain ⟨before, after, hEntries⟩ := List.append_of_mem h
    refine ⟨before, after, hEntries, fun entry hEntry => ?_⟩
    have hNodup := d.nodup_names
    rw [hEntries, List.map_append, List.nodup_append] at hNodup
    have hne := hNodup.2.2 entry.1 (List.mem_map_of_mem hEntry) name List.mem_cons_self
    exact bne_iff_ne.mpr hne.symm

theorem get?_eq_none_iff {d : Directory α} {name : String} :
    d.get? name = none ↔ name ∉ d.names := by
  rw [get?, List.lookup_eq_none_iff, names, List.mem_map]
  constructor
  · rintro h ⟨entry, hEntry, rfl⟩
    exact bne_iff_ne.mp (h entry hEntry) rfl
  · intro h entry hEntry
    exact bne_iff_ne.mpr fun hSame => h ⟨entry, hEntry, hSame.symm⟩

theorem mem_names_of_get? {d : Directory α} {name : String} {value : α} (h : d.get? name = some value) :
    name ∈ d.names :=
  List.mem_map_of_mem (get?_eq_some_iff.mp h)

theorem insertEntry_of_not_mem {name : String} (value : α) {entries : List (String × α)}
    (h : name ∉ entries.map (·.1)) : insertEntry name value entries = entries ++ [(name, value)] := by
  induction entries with
  | nil => rfl
  | cons head rest ih =>
      rw [List.map_cons, List.mem_cons, not_or] at h
      rw [insertEntry, if_neg fun hSame => h.1 hSame.symm, ih h.2, List.cons_append]

theorem mem_insertEntry {name : String} {value : α} {entries : List (String × α)} {e : String × α}
    (h : e ∈ insertEntry name value entries) : e = (name, value) ∨ e ∈ entries := by
  induction entries with
  | nil => exact Or.inl (List.mem_singleton.mp h)
  | cons head rest ih =>
      rw [insertEntry] at h
      split at h
      · exact (List.mem_cons.mp h).imp_right (List.mem_cons_of_mem _)
      · rcases List.mem_cons.mp h with rfl | hRest
        · exact Or.inr List.mem_cons_self
        · exact (ih hRest).imp_right (List.mem_cons_of_mem _)

theorem mem_entries_insert {d : Directory α} {name : String} {value : α} {e : String × α}
    (h : e ∈ (d.insert name value).entries) : e = (name, value) ∨ e ∈ d.entries :=
  mem_insertEntry h

theorem entries_insert_of_not_mem {d : Directory α} {name : String} {value : α}
    (h : name ∉ d.names) : (d.insert name value).entries = d.entries ++ [(name, value)] :=
  insertEntry_of_not_mem value h

theorem names_insert_of_not_mem {d : Directory α} {name : String} {value : α}
    (h : name ∉ d.names) : (d.insert name value).names = d.names ++ [name] := by
  rw [names, entries_insert_of_not_mem h, List.map_append]
  rfl

/-- If names come behind those of a directory and none is repeated, the first one can be inserted, and the
others come behind it. -/
theorem nodup_names_insert {d : Directory α} {name : String} {value : α} {more : List String}
    (h : (d.names ++ name :: more).Nodup) :
    name ∉ d.names ∧ ((d.insert name value).names ++ more).Nodup := by
  have hNew : name ∉ d.names := fun hOld =>
    (List.nodup_append.mp h).2.2 name hOld name List.mem_cons_self rfl
  refine ⟨hNew, ?_⟩
  rw [names_insert_of_not_mem hNew, List.append_assoc]
  exact h

theorem entries_foldl_insert {entries : List (String × α)} {d : Directory α}
    (h : (d.names ++ entries.map (·.1)).Nodup) :
    (entries.foldl (fun d e => d.insert e.1 e.2) d).entries = d.entries ++ entries := by
  induction entries generalizing d with
  | nil => exact (List.append_nil _).symm
  | cons e rest ih =>
      obtain ⟨hNew, hRest⟩ := nodup_names_insert h
      have hEntries : (d.insert e.1 e.2).entries = d.entries ++ [e] := entries_insert_of_not_mem hNew
      rw [List.foldl_cons, ih hRest, hEntries, List.append_assoc, List.singleton_append]

theorem ofEntries_entries (d : Directory α) : ofEntries d.entries = d :=
  ext (entries_foldl_insert (show (empty.names ++ d.entries.map (·.1)).Nodup from d.nodup_names))

end Directory

end GrammarShapes
