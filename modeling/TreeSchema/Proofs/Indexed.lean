import Mathlib.Data.List.Induction
import TreeSchema.Named

/-!
Entries in order beside an index that leads from names to positions. The index is
not made anew for a lookup: whatever changes the entries changes the index with
them, and the two have to agree. As long as they do, the index finds what a search
in the entries finds.
-/

namespace TreeSchema

theorem getElem?_snoc_eq_some_iff {α : Type} {items : List α} {item found : α} {position : Nat} :
    (items ++ [item])[position]? = some found ↔
      items[position]? = some found ∨ position = items.length ∧ item = found := by
  rw [List.getElem?_append, List.getElem?_singleton]
  split
  case isTrue hlt => simp [Nat.ne_of_lt hlt]
  case isFalse hge =>
    have hnone : items[position]? = none := List.getElem?_eq_none (Nat.not_lt.mp hge)
    rw [hnone]
    by_cases hlast : position = items.length
    · simp [hlast]
    · have hbeyond : position - items.length ≠ 0 := by omega
      simp [hbeyond, hlast]

/-- Each name leads to the position at which it stands, and a name that stands
nowhere leads to none. -/
def IndexAgrees (index : Std.HashMap String Nat) (names : List String) : Prop :=
  ∀ (wanted : String) (position : Nat),
    index[wanted]? = some position ↔ names[position]? = some wanted

namespace IndexAgrees

variable {index : Std.HashMap String Nat} {names : List String}

theorem nil : IndexAgrees ∅ [] := by
  intro wanted position
  simp

/-- A name that is not indexed can be put last. -/
theorem snoc (h : IndexAgrees index names) {name : String} (hnew : index[name]? = none) :
    IndexAgrees (index.insert name names.length) (names ++ [name]) := by
  intro wanted position
  rw [Std.HashMap.getElem?_insert, getElem?_snoc_eq_some_iff, ← h]
  by_cases hsame : name = wanted
  · subst hsame
    simp [hnew, eq_comm]
  · simp [hsame]

theorem index_eq_none_iff (h : IndexAgrees index names) {wanted : String} :
    index[wanted]? = none ↔ wanted ∉ names := by
  rw [List.mem_iff_getElem?, Option.eq_none_iff_forall_ne_some, not_exists]
  exact forall_congr' fun position => not_congr (h wanted position)

end IndexAgrees

namespace Named

variable {α : Type} [Named α] {entries : List α} {index : Std.HashMap String Nat}

/-- The index leads to the position at which a search ends. -/
theorem position_of_agrees (h : IndexAgrees index (names entries)) (wanted : String) :
    index[wanted]? = (locate wanted entries).map Prod.fst := by
  cases hfound : locate wanted entries with
  | none => exact h.index_eq_none_iff.mpr (locate_eq_none_iff.mp hfound)
  | some found =>
      obtain ⟨hentry, hname⟩ := locate_eq_some hfound
      rw [Option.map_some, h, names, List.getElem?_map, hentry, Option.map_some, hname]

/-- A search finds the entry at the position that the index leads to. -/
theorem locate_of_agrees (h : IndexAgrees index (names entries)) (wanted : String) :
    locate wanted entries =
      index[wanted]?.bind fun position => entries[position]?.map fun entry => (position, entry) := by
  rw [position_of_agrees h]
  cases hfound : locate wanted entries with
  | none => rfl
  | some found =>
      rw [Option.map_some, Option.bind_some, (locate_eq_some hfound).1]
      rfl

theorem agrees_snoc (h : IndexAgrees index (names entries)) {entry : α}
    (hnew : index[name entry]? = none) :
    IndexAgrees (index.insert (name entry) entries.length) (names (entries ++ [entry])) := by
  have hlength : (names entries).length = entries.length := List.length_map name
  rw [names, List.map_append, ← hlength]
  exact h.snoc hnew

theorem put_of_locate {entry found : α} {position : Nat}
    (hfound : locate (name entry) entries = some (position, found)) :
    put entry entries = entries.set position entry := by
  induction entries generalizing position with
  | nil => cases hfound
  | cons first rest ih =>
      rw [locate] at hfound
      rw [put]
      split at hfound
      case isTrue hsame =>
        cases hfound
        rw [if_pos hsame]
        rfl
      case isFalse hother =>
        obtain ⟨⟨later, other⟩, hlater, hshift⟩ := Option.map_eq_some_iff.mp hfound
        cases hshift
        rw [if_neg hother, ih hlater]
        rfl

theorem put_of_unbound {entry : α} (hnew : name entry ∉ names entries) :
    put entry entries = entries ++ [entry] := by
  induction entries with
  | nil => rfl
  | cons first rest ih =>
      rw [names, List.map_cons, List.mem_cons, not_or] at hnew
      rw [put, if_neg (Ne.symm hnew.1), ih hnew.2]
      rfl

/-- The positions of all names, entered one after the other. Of entries with the
same name the last one counts. -/
def positions (entries : List α) : Std.HashMap String Nat :=
  entries.zipIdx.foldl (fun index (entry, position) => index.insert (name entry) position) ∅

theorem positions_snoc (entries : List α) (entry : α) :
    positions (entries ++ [entry]) = (positions entries).insert (name entry) entries.length := by
  rw [positions, List.zipIdx_append, List.foldl_append, Nat.zero_add]
  rfl

theorem positions_agree (hdistinct : (names entries).Nodup) :
    IndexAgrees (positions entries) (names entries) := by
  induction entries using List.reverseRecOn with
  | nil => exact IndexAgrees.nil
  | append_singleton earlier entry ih =>
      rw [names, List.map_append] at hdistinct
      obtain ⟨hearlier, -, hnew⟩ := List.nodup_append.mp hdistinct
      have hagrees := ih hearlier
      rw [positions_snoc]
      apply agrees_snoc hagrees
      rw [hagrees.index_eq_none_iff]
      intro hmem
      exact hnew _ hmem _ List.mem_cons_self rfl

/-- The positions of all names, of which the first one that is entered stays. -/
def firstPositions (entries : List α) : Std.HashMap String Nat :=
  entries.zipIdx.foldl (fun index (entry, position) => index.insertIfNew (name entry) position) ∅

theorem firstPositions_snoc (entries : List α) (entry : α) :
    firstPositions (entries ++ [entry]) =
      (firstPositions entries).insertIfNew (name entry) entries.length := by
  rw [firstPositions, List.zipIdx_append, List.foldl_append, Nat.zero_add]
  rfl

theorem locate_snoc (entries : List α) (entry : α) (wanted : String) :
    locate wanted (entries ++ [entry]) =
      (locate wanted entries).or
        (if name entry = wanted then some (entries.length, entry) else none) := by
  induction entries with
  | nil => rfl
  | cons first rest ih =>
      rw [List.cons_append, locate, locate, ih]
      split
      · rfl
      · cases locate wanted rest with
        | some found => rfl
        | none => split <;> rfl

/-- Even where names stand twice, the positions that were entered first are those
that a search finds. -/
theorem firstPositions_eq (entries : List α) (wanted : String) :
    (firstPositions entries)[wanted]? = (locate wanted entries).map Prod.fst := by
  induction entries using List.reverseRecOn with
  | nil => simp [firstPositions, locate]
  | append_singleton earlier entry ih =>
      have hindexed : wanted ∈ firstPositions earlier ↔ (locate wanted earlier).isSome := by
        rw [Std.HashMap.mem_iff_isSome_getElem?, ih, Option.isSome_map]
      rw [firstPositions_snoc, Std.HashMap.getElem?_insertIfNew, locate_snoc, ih]
      by_cases hsame : name entry = wanted
      · subst hsame
        cases hfound : locate (name entry) earlier <;> simp [hindexed, hfound]
      · simp [hsame]

end Named

/-- Entries with an index that agrees with their names. -/
structure Indexed (α : Type) [Named α] where
  entries : List α
  index : Std.HashMap String Nat
  agrees : IndexAgrees index (Named.names entries)

namespace Indexed

variable {α : Type} [Named α]

open Named

def empty : Indexed α := ⟨[], ∅, .nil⟩

def get? (indexed : Indexed α) (wanted : String) : Option α :=
  indexed.index[wanted]?.bind fun position => indexed.entries[position]?

def bound (indexed : Indexed α) (wanted : String) : Bool :=
  indexed.index.contains wanted

/-- An entry of a new name goes behind the others. -/
def push (indexed : Indexed α) (entry : α) (hnew : indexed.index[name entry]? = none) :
    Indexed α where
  entries := indexed.entries ++ [entry]
  index := indexed.index.insert (name entry) indexed.entries.length
  agrees := agrees_snoc indexed.agrees hnew

/-- An entry takes the place that the index has for its name. -/
def replace (indexed : Indexed α) (position : Nat) (entry : α)
    (hindex : indexed.index[name entry]? = some position) : Indexed α where
  entries := indexed.entries.set position entry
  index := indexed.index
  agrees := by
    obtain ⟨hlt, hsame⟩ := List.getElem?_eq_some_iff.mp ((indexed.agrees _ _).mp hindex)
    have hnames : names (indexed.entries.set position entry) = names indexed.entries := by
      rw [names, List.map_set, ← hsame]
      exact List.set_getElem_self hlt
    rw [hnames]
    exact indexed.agrees

/-- An entry of an indexed name takes its place, and one of a new name goes behind
the others. -/
def put (indexed : Indexed α) (entry : α) : Indexed α :=
  match hindex : indexed.index[name entry]? with
  | some position => indexed.replace position entry hindex
  | none => indexed.push entry hindex

variable (indexed : Indexed α)

/-- A lookup through the index finds the entry that a search finds. -/
theorem get?_eq (wanted : String) : indexed.get? wanted = lookup wanted indexed.entries := by
  rw [get?, position_of_agrees indexed.agrees]
  exact (lookup_eq_getElem? rfl wanted).symm

theorem bound_eq (wanted : String) : indexed.bound wanted = Named.bound wanted indexed.entries := by
  rw [bound, Std.HashMap.contains_eq_isSome_getElem?, position_of_agrees indexed.agrees,
    Option.isSome_map, ← lookup_isSome, ← locate_eq_lookup, Option.isSome_map]

/-- An indexed name always leads to an entry: no index points past the end. -/
theorem get?_isSome (wanted : String) :
    (indexed.get? wanted).isSome = indexed.bound wanted := by
  rw [get?_eq, bound_eq, lookup_isSome]

theorem index_eq_none_of_not_bound {wanted : String} (h : ¬ indexed.bound wanted = true) :
    indexed.index[wanted]? = none := by
  rw [bound, Std.HashMap.contains_eq_isSome_getElem?] at h
  exact Option.not_isSome_iff_eq_none.mp h

/-- Putting an entry where the index has its name, or else behind the others, does
to the entries what a search for the place does. -/
theorem entries_put (entry : α) : (indexed.put entry).entries = Named.put entry indexed.entries := by
  rw [put]
  split
  case h_1 position hindex =>
    rw [position_of_agrees indexed.agrees] at hindex
    obtain ⟨⟨found, other⟩, hfound, rfl⟩ := Option.map_eq_some_iff.mp hindex
    exact (put_of_locate hfound).symm
  case h_2 hindex => exact (put_of_unbound (indexed.agrees.index_eq_none_iff.mp hindex)).symm

end Indexed

end TreeSchema
