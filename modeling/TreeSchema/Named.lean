/-!
Ordered collections whose entries are found under their own names. `lookup`
finds the first entry of a name; `put` overwrites an entry where it stands or
appends a new one, so the order of first arrival is kept.
-/

namespace TreeSchema

class Named (α : Type u) where
  name : α → String

namespace Named

variable {α : Type u} [Named α]

def names (entries : List α) : List String :=
  entries.map name

def lookup (wanted : String) (entries : List α) : Option α :=
  entries.find? fun entry => name entry = wanted

/-- Position and value of the first entry called `wanted`. -/
def locate (wanted : String) (entries : List α) : Option (Nat × α) :=
  match entries with
  | [] => none
  | entry :: rest =>
      if name entry = wanted then some (0, entry)
      else (locate wanted rest).map fun (position, found) => (position + 1, found)

/-- An entry of the same name gives up its place to the new one. -/
def put (entry : α) : List α → List α
  | [] => [entry]
  | first :: rest =>
      if name first = name entry then entry :: rest else first :: put entry rest

def bound (wanted : String) (entries : List α) : Bool :=
  entries.any fun entry => name entry = wanted

theorem bound_iff {wanted : String} {entries : List α} :
    bound wanted entries = true ↔ wanted ∈ names entries := by
  simp [bound, names, List.any_eq_true]

theorem lookup_isSome {wanted : String} {entries : List α} :
    (lookup wanted entries).isSome = bound wanted entries := by
  induction entries with
  | nil => rfl
  | cons entry rest ih =>
      simp only [lookup, bound] at ih
      by_cases same : name entry = wanted <;> simp [lookup, bound, same, ih]

theorem name_of_lookup {wanted : String} {entries : List α} {entry : α}
    (found : lookup wanted entries = some entry) : name entry = wanted := by
  simpa using List.find?_some found

theorem locate_eq_lookup (wanted : String) (entries : List α) :
    (locate wanted entries).map Prod.snd = lookup wanted entries := by
  induction entries with
  | nil => rfl
  | cons entry rest ih =>
      by_cases same : name entry = wanted
      · simp [locate, lookup, same]
      · simp only [lookup] at ih
        simp [locate, lookup, same, ← ih, Function.comp_def]

theorem locate_eq_none_iff {wanted : String} {entries : List α} :
    locate wanted entries = none ↔ wanted ∉ names entries := by
  rw [← Option.map_eq_none_iff, locate_eq_lookup, ← bound_iff, ← lookup_isSome]
  exact Option.not_isSome_iff_eq_none.symm

theorem locate_eq_some {wanted : String} {entries : List α} {position : Nat} {entry : α}
    (hfound : locate wanted entries = some (position, entry)) :
    entries[position]? = some entry ∧ name entry = wanted := by
  induction entries generalizing position with
  | nil => simp [locate] at hfound
  | cons first rest ih =>
      rw [locate] at hfound
      split at hfound
      case isTrue hsame =>
        obtain ⟨rfl, rfl⟩ : 0 = position ∧ first = entry := by simpa using hfound
        exact ⟨rfl, hsame⟩
      case isFalse hother =>
        obtain ⟨⟨later, found⟩, hlater, hshift⟩ := Option.map_eq_some_iff.mp hfound
        obtain ⟨rfl, rfl⟩ : later + 1 = position ∧ found = entry := by simpa using hshift
        exact ih hlater

/-- Where no name stands twice, every entry is found at its own position. -/
theorem locate_name {entries : List α} {position : Nat} {entry : α}
    (hdistinct : (names entries).Nodup) (hentry : entries[position]? = some entry) :
    locate (name entry) entries = some (position, entry) := by
  induction entries generalizing position with
  | nil => simp at hentry
  | cons first rest ih =>
      obtain ⟨hnew, hrest⟩ := List.nodup_cons.mp hdistinct
      cases position with
      | zero =>
          obtain rfl : first = entry := by simpa using hentry
          simp [locate]
      | succ later =>
          have hmem : name entry ∈ names rest :=
            List.mem_map_of_mem (List.mem_of_getElem? hentry)
          have hother : name first ≠ name entry := fun h => hnew (h ▸ hmem)
          rw [locate, if_neg hother, ih hrest hentry]
          rfl

/-- Where no name stands twice, every entry is the one found under its name. -/
theorem lookup_name {entries : List α} {entry : α} (hdistinct : (names entries).Nodup)
    (hmem : entry ∈ entries) : lookup (name entry) entries = some entry := by
  obtain ⟨position, hentry⟩ := List.mem_iff_getElem?.mp hmem
  rw [← locate_eq_lookup, locate_name hdistinct hentry]
  rfl

theorem locate_cons_position (entry : α) (rest : List α) (wanted : String) :
    (locate wanted (entry :: rest)).map Prod.fst =
      if name entry = wanted then some 0
      else ((locate wanted rest).map Prod.fst).map (· + 1) := by
  rw [locate]
  split
  · rfl
  · cases locate wanted rest <;> rfl

/-- Lists with the same names have the same first position for a name. -/
theorem locate_position {β : Type v} [Named β] {entries : List α} {others : List β}
    (hnames : names entries = names others) (wanted : String) :
    (locate wanted entries).map Prod.fst = (locate wanted others).map Prod.fst := by
  induction entries generalizing others with
  | nil =>
      cases others with
      | nil => rfl
      | cons other later => cases hnames
  | cons entry rest ih =>
      cases others with
      | nil => cases hnames
      | cons other later =>
          obtain ⟨hname, hrest⟩ := List.cons.inj hnames
          rw [locate_cons_position, locate_cons_position, hname, ih hrest]

/-- A name leads to the entry at its first position in any list of the same names. -/
theorem lookup_eq_getElem? {β : Type v} [Named β] {entries : List α} {others : List β}
    (hnames : names entries = names others) (wanted : String) :
    lookup wanted entries =
      ((locate wanted others).map Prod.fst).bind fun position => entries[position]? := by
  rw [← locate_position hnames, ← locate_eq_lookup]
  cases hfound : locate wanted entries with
  | none => rfl
  | some found => exact (locate_eq_some hfound).1.symm

/-- Overwriting keeps every name in its place; a new name comes last. -/
theorem names_put (entry : α) (entries : List α) :
    names (put entry entries) =
      if name entry ∈ names entries then names entries
      else names entries ++ [name entry] := by
  induction entries with
  | nil => rfl
  | cons first rest ih =>
      by_cases same : name first = name entry
      · simp [put, names, same]
      · simp only [names] at ih
        by_cases later : name entry ∈ rest.map name <;>
          simp [put, names, same, Ne.symm same, ih, later]

theorem lookup_put (entry : α) (entries : List α) (wanted : String) :
    lookup wanted (put entry entries) =
      if name entry = wanted then some entry else lookup wanted entries := by
  induction entries with
  | nil => simp [put, lookup]
  | cons first rest ih =>
      simp only [lookup] at ih
      by_cases same : name first = name entry
      · by_cases hit : name entry = wanted <;> simp [put, lookup, same, hit]
      · by_cases hit : name first = wanted
        · have other : name entry ≠ wanted := fun h => same (hit.trans h.symm)
          simp [put, lookup, hit, Ne.symm other, other]
        · simp [put, lookup, same, hit, ih]

end Named

end TreeSchema
