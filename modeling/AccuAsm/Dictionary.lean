import AccuAsm.Text.Basic

/-!
# Dictionaries

Finite maps from names, kept in the byte order of the names, so that a listing of
the entries needs no sorting and two dictionaries with the same content are equal.

`find?_insert` and `find?_erase` say what the two operations do to a look-up.
-/

namespace AccuAsm

/-- Which of two texts comes first in the order of their bytes. -/
def Text.order : Text → Text → Ordering
  | [], [] => .eq
  | [], _ :: _ => .lt
  | _ :: _, [] => .gt
  | a :: as, b :: bs => if a = b then order as bs else if a < b then .lt else .gt

theorem Text.order_eq_eq_iff {a b : Text} : a.order b = .eq ↔ a = b := by
  induction a generalizing b with
  | nil => cases b <;> simp [order]
  | cons head tail ih =>
    cases b with
    | nil => simp [order]
    | cons other rest =>
      by_cases same : head = other
      · simp [order, same, ih]
      · by_cases less : head < other <;> simp [order, same, less]

theorem Text.order_eq_lt_iff {a b : Text} : a.order b = .lt ↔ a < b := by
  induction a generalizing b with
  | nil => cases b <;> simp [order]
  | cons head tail ih =>
    cases b with
    | nil => simp [order]
    | cons other rest =>
      rw [List.cons_lt_cons_iff]
      by_cases same : head = other
      · subst same
        simp [order, ih]
      · by_cases less : head < other <;> simp [order, same, less]

/-- A text that comes neither before another one nor equals it comes behind it. -/
theorem Text.lt_of_order_eq_gt {a b : Text} (h : a.order b = .gt) : b < a := by
  have notLess : ¬a < b := fun less => by simp [order_eq_lt_iff.mpr less] at h
  have differ : b ≠ a := fun same => by simp [order_eq_eq_iff.mpr same.symm] at h
  exact Std.lt_of_le_of_ne (List.not_lt.mp notLess) differ

/-- A finite map from names to values. -/
structure Dictionary (α : Type) where
  /-- The entries in the order of their names. -/
  entries : List (Text × α) := []
  /-- Names ascend, so each occurs once. -/
  sorted : entries.Pairwise (fun a b => a.1 < b.1) := by simp
  deriving DecidableEq, Repr

namespace Dictionary

variable {α : Type}

instance : Inhabited (Dictionary α) := ⟨{}⟩

/-- The dictionary without entries. -/
def empty : Dictionary α := {}

/-- The value of a name. -/
def find? (d : Dictionary α) (name : Text) : Option α := d.entries.lookup name

/-- Whether a name has a value. -/
def contains (d : Dictionary α) (name : Text) : Bool := (d.find? name).isSome

/-- The names in ascending order. -/
def names (d : Dictionary α) : List Text := d.entries.map (·.1)

/-- Put an entry at its place in an ascending list, over an entry of the same name. -/
def insertEntry (name : Text) (value : α) : List (Text × α) → List (Text × α)
  | [] => [(name, value)]
  | entry :: rest =>
    match name.order entry.1 with
    | .lt => (name, value) :: entry :: rest
    | .eq => (name, value) :: rest
    | .gt => entry :: insertEntry name value rest

theorem mem_insertEntry {name : Text} {value : α} {entry : Text × α}
    {entries : List (Text × α)} (h : entry ∈ insertEntry name value entries) :
    entry = (name, value) ∨ entry ∈ entries := by
  induction entries with
  | nil => simpa [insertEntry] using h
  | cons head rest ih =>
    simp only [insertEntry] at h
    split at h
    · exact List.mem_cons.mp h
    · rcases List.mem_cons.mp h with h | h
      · exact .inl h
      · exact .inr (List.mem_cons_of_mem _ h)
    · rcases List.mem_cons.mp h with h | h
      · exact .inr (h ▸ List.mem_cons_self)
      · exact (ih h).imp_right (List.mem_cons_of_mem _)

theorem sorted_insertEntry {name : Text} {value : α} {entries : List (Text × α)}
    (h : entries.Pairwise (fun a b => a.1 < b.1)) :
    (insertEntry name value entries).Pairwise (fun a b => a.1 < b.1) := by
  induction entries with
  | nil => simp [insertEntry]
  | cons head rest ih =>
    obtain ⟨above, tail⟩ := List.pairwise_cons.mp h
    simp only [insertEntry]
    split
    · next less =>
      have first : name < head.1 := Text.order_eq_lt_iff.mp less
      refine List.pairwise_cons.mpr ⟨?_, h⟩
      intro entry member
      rcases List.mem_cons.mp member with rfl | member
      · exact first
      · exact List.lt_trans first (above entry member)
    · next same =>
      have same : name = head.1 := Text.order_eq_eq_iff.mp same
      exact List.pairwise_cons.mpr ⟨same ▸ above, tail⟩
    · next greater =>
      refine List.pairwise_cons.mpr ⟨?_, ih tail⟩
      intro entry member
      rcases mem_insertEntry member with rfl | member
      · exact Text.lt_of_order_eq_gt greater
      · exact above entry member

/-- The dictionary with a name bound to a value, whatever it was bound to before. -/
def insert (d : Dictionary α) (name : Text) (value : α) : Dictionary α where
  entries := insertEntry name value d.entries
  sorted := sorted_insertEntry d.sorted

/-- The dictionary without a name. -/
def erase (d : Dictionary α) (name : Text) : Dictionary α where
  entries := d.entries.filter (·.1 != name)
  sorted := d.sorted.filter _

/-- The dictionary of a list of entries; the last entry of a name counts. -/
def ofList (entries : List (Text × α)) : Dictionary α :=
  entries.foldl (fun d entry => d.insert entry.1 entry.2) empty

/-- A look-up in a list, one entry at a time. -/
theorem lookup_cons_eq (name key : Text) (value : α) (rest : List (Text × α)) :
    ((key, value) :: rest).lookup name = if name = key then some value else rest.lookup name := by
  by_cases h : name = key
  · simp [h]
  · simp [List.lookup_cons, beq_false_of_ne h, h]

theorem lookup_insertEntry (name other : Text) (value : α) (entries : List (Text × α)) :
    (insertEntry name value entries).lookup other =
      if other = name then some value else entries.lookup other := by
  induction entries with
  | nil => simp [insertEntry, lookup_cons_eq]
  | cons head rest ih =>
    obtain ⟨key, old⟩ := head
    simp only [insertEntry]
    split
    · rw [lookup_cons_eq]
    · next same =>
      have same : name = key := Text.order_eq_eq_iff.mp same
      subst same
      by_cases h : other = name <;> simp [lookup_cons_eq, h]
    · next greater =>
      have differ : name ≠ key := fun same => by simp [Text.order_eq_eq_iff.mpr same] at greater
      rw [lookup_cons_eq, lookup_cons_eq, ih]
      by_cases h : other = key
      · simp [h, Ne.symm differ]
      · simp [h]

/-- A look-up after an insertion. -/
@[simp] theorem find?_insert (d : Dictionary α) (name other : Text) (value : α) :
    (d.insert name value).find? other = if other = name then some value else d.find? other :=
  lookup_insertEntry name other value d.entries

theorem lookup_filter_ne (name other : Text) (entries : List (Text × α)) :
    (entries.filter (·.1 != name)).lookup other =
      if other = name then none else entries.lookup other := by
  induction entries with
  | nil => simp
  | cons head rest ih =>
    obtain ⟨key, old⟩ := head
    rw [lookup_cons_eq]
    by_cases gone : key = name
    · subst gone
      rw [List.filter_cons_of_neg (by simp), ih]
      by_cases h : other = key <;> simp [h]
    · rw [List.filter_cons_of_pos (by simpa using gone), lookup_cons_eq, ih]
      by_cases h : other = key
      · simp [h, gone]
      · simp [h]

/-- A look-up after a removal. -/
@[simp] theorem find?_erase (d : Dictionary α) (name other : Text) :
    (d.erase name).find? other = if other = name then none else d.find? other :=
  lookup_filter_ne name other d.entries

@[simp] theorem find?_empty (name : Text) : (empty : Dictionary α).find? name = none := rfl

end Dictionary

end AccuAsm
