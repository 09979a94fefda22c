import TreeSchema.Values.IndexSet

/-!
Packed index sets as sets. A member is a bit of the word that its index falls
into; inserting an index sets its bit and no other, also when the words have to
grow first. After any insertions the members are the indices inserted, and each
insertion has told whether its index was new.
-/

namespace TreeSchema.IndexSet

/-- The bit that stands for an index. Bits beyond the last word are zero. -/
def bit (set : IndexSet) (index : Nat) : Bool :=
  (set.words.getD (index / 64) 0).toNat.testBit (index % 64)

theorem toNat_mask (index : Nat) : (mask index).toNat = 1 <<< (index % 64) := by
  have hoffset : index % 64 < 64 := Nat.mod_lt _ (by decide)
  have hpower : 2 ^ (index % 64) < 2 ^ 64 := Nat.pow_lt_pow_right (by decide) hoffset
  simp only [mask, UInt64.toNat_shiftLeft, UInt64.toNat_ofNat', UInt64.toNat_one,
    Nat.one_shiftLeft]
  rw [Nat.mod_eq_of_lt (Nat.lt_trans hoffset (by decide)), Nat.mod_eq_of_lt hoffset,
    Nat.mod_eq_of_lt hpower]

theorem masked_ne_zero (word : UInt64) (index : Nat) :
    (word &&& mask index != 0) = word.toNat.testBit (index % 64) := by
  have hmasked : (word &&& mask index).toNat = word.toNat &&& 2 ^ (index % 64) := by
    rw [UInt64.toNat_and, toNat_mask, Nat.one_shiftLeft]
  have hzero : word &&& mask index = 0 ↔ word.toNat &&& 2 ^ (index % 64) = 0 := by
    rw [← hmasked, ← UInt64.toNat_inj]
    rfl
  cases hbit : word.toNat.testBit (index % 64) with
  | true =>
      have hkept : (word.toNat &&& 2 ^ (index % 64)).testBit (index % 64) = true := by
        simp [Nat.testBit_and, hbit]
      have hnonzero : word &&& mask index ≠ 0 := by
        intro h
        rw [hzero.mp h] at hkept
        simp at hkept
      simpa using hnonzero
  | false =>
      have hgone : word.toNat &&& 2 ^ (index % 64) = 0 := by
        apply Nat.eq_of_testBit_eq
        intro position
        rcases Nat.decEq (index % 64) position with hother | rfl
        · simp [Nat.testBit_and, hother]
        · simp [Nat.testBit_and, hbit]
      simpa using hzero.mpr hgone

theorem contains_eq_bit (set : IndexSet) (index : Nat) :
    set.contains index = set.bit index := by
  unfold contains bit
  rw [Array.getD_eq_getD_getElem?]
  cases set.words[index / 64]? with
  | none => simp
  | some word => exact masked_ne_zero word index

@[simp] theorem contains_withSize (size index : Nat) :
    (withSize size).contains index = false := by
  rw [contains_eq_bit]
  simp only [bit, withSize, Array.getD_eq_getD_getElem?, Array.getElem?_replicate]
  split <;> simp

/-- Growing adds zero words only. -/
theorem bit_grow (set : IndexSet) (count index : Nat) :
    (set.grow count).bit index = set.bit index := by
  simp only [bit, grow, Array.getD_eq_getD_getElem?]
  rcases Nat.lt_or_ge (index / 64) set.words.size with hinside | hbeyond
  · rw [Array.getElem?_append_left hinside]
  · rw [Array.getElem?_append_right hbeyond, Array.getElem?_eq_none hbeyond,
      Array.getElem?_replicate]
    split <;> rfl

theorem bit_insert (set : IndexSet) (index other : Nat) :
    (set.insert index).1.bit other = (decide (index = other) || set.bit other) := by
  have hroom : index / 64 < (set.grow (index / 64 + 1)).words.size := by
    simp [grow]
    omega
  rw [← bit_grow set (index / 64 + 1) other]
  simp only [bit, insert, Array.getD_eq_getD_getElem?, Array.getElem?_modify]
  generalize (set.grow (index / 64 + 1)).words = words at hroom
  split
  case isFalse hword =>
    have hother : index ≠ other := fun h => hword (by rw [h])
    simp [hother]
  case isTrue hword =>
    rw [← hword, Array.getElem?_eq_getElem hroom]
    have hsame : index = other ↔ index % 64 = other % 64 := by omega
    simp [toNat_mask, Nat.one_shiftLeft, Nat.testBit_two_pow, hsame, Bool.or_comm]

/-- An insertion tells whether its bit was clear, in the words grown for it. -/
theorem insert_snd (set : IndexSet) (index : Nat) :
    (set.insert index).2 = !(set.grow (index / 64 + 1)).bit index := by
  rw [bit_grow, ← contains_eq_bit]
  rfl

/-- An insertion adds the index and leaves every other index as it was. -/
theorem contains_insert (set : IndexSet) (index other : Nat) :
    (set.insert index).1.contains other = (decide (index = other) || set.contains other) := by
  rw [contains_eq_bit, contains_eq_bit, bit_insert]

/-- A set with room for an index keeps its words when the index is inserted. -/
theorem size_insert {set : IndexSet} {index : Nat} (hroom : index / 64 < set.words.size) :
    (set.insert index).1.words.size = set.words.size := by
  simp only [insert, grow, Array.size_modify, Array.size_append, Array.size_replicate]
  omega

/-- Sets of as many words are the same when they have the same members. -/
theorem ext_contains {left right : IndexSet} (hsize : left.words.size = right.words.size)
    (hsame : ∀ index, left.contains index = right.contains index) : left = right := by
  rw [IndexSet.mk.injEq]
  apply Array.ext hsize
  intro word hleft hright
  rw [← UInt64.toNat_inj]
  apply Nat.eq_of_testBit_eq
  intro position
  rcases Nat.lt_or_ge position 64 with hinside | hbeyond
  · have hindex := hsame (64 * word + position)
    have hword : (64 * word + position) / 64 = word := by omega
    have hposition : (64 * word + position) % 64 = position := by omega
    simpa only [contains_eq_bit, bit, hword, hposition, Array.getD_eq_getD_getElem?,
      Array.getElem?_eq_getElem hleft, Array.getElem?_eq_getElem hright, Option.getD_some]
      using hindex
  · have hzero (bits : UInt64) : bits.toNat.testBit position = false := by
      apply Nat.testBit_lt_two_pow
      exact Nat.lt_of_lt_of_le bits.toNat_lt (Nat.pow_le_pow_right (by decide) hbeyond)
    rw [hzero, hzero]

/-- Inserts indices in order. With the last set comes what each insertion told. -/
def insertAll (set : IndexSet) : List Nat → IndexSet × List Bool
  | [] => (set, [])
  | index :: rest =>
      let (next, isNew) := set.insert index
      let (last, others) := next.insertAll rest
      (last, isNew :: others)

/-- The members of the set are the listed indices. -/
def Holds (set : IndexSet) (members : List Nat) : Prop :=
  ∀ index, set.contains index = true ↔ index ∈ members

theorem holds_withSize (size : Nat) : (withSize size).Holds [] := by
  intro index
  simp

theorem Holds.insert {set : IndexSet} {members : List Nat} (h : set.Holds members)
    (index : Nat) :
    (set.insert index).1.Holds (members ++ [index]) ∧
      (set.insert index).2 = decide (index ∉ members) := by
  constructor
  · intro other
    rw [contains_insert, Bool.or_eq_true, decide_eq_true_iff, h other, List.mem_append,
      List.mem_singleton, eq_comm, or_comm]
  · have hmember : set.contains index = decide (index ∈ members) :=
      Bool.eq_iff_iff.mpr ((h index).trans decide_eq_true_iff.symm)
    rw [insert_snd, bit_grow, ← contains_eq_bit, hmember, decide_not]

/-- Insertions into a set with members: an index is new when it is neither among
these nor among the indices inserted before it. -/
theorem Holds.insertAll {set : IndexSet} {members : List Nat} (h : set.Holds members)
    (indices : List Nat) :
    (set.insertAll indices).1.Holds (members ++ indices) ∧
      (set.insertAll indices).2 = indices.mapIdx fun position index =>
        decide (index ∉ members ++ indices.take position) := by
  induction indices generalizing set members with
  | nil => exact ⟨by simpa [IndexSet.insertAll] using h, rfl⟩
  | cons index rest ih =>
      -- for the rest of the run the first index is one of the members
      obtain ⟨hnext, hnew⟩ := h.insert index
      obtain ⟨hlast, hothers⟩ := ih hnext
      simp only [List.append_assoc, List.singleton_append] at hlast hothers
      refine ⟨hlast, ?_⟩
      rw [IndexSet.insertAll, List.mapIdx_cons, List.take_zero, List.append_nil, ← hnew]
      exact congrArg _ hothers

/-- A set that starts without members holds the indices inserted into it and no
others, whatever room it started with. Each insertion told that its index is new
exactly when no insertion before it was of the same index. -/
theorem insertAll_members {start : IndexSet}
    (hstart : start = empty ∨ ∃ size, start = withSize size) (indices : List Nat) :
    (∀ index, (start.insertAll indices).1.contains index = true ↔ index ∈ indices) ∧
      (start.insertAll indices).2 = indices.mapIdx fun position index =>
        decide (index ∉ indices.take position) := by
  have hnone : start.Holds [] := by
    rcases hstart with rfl | ⟨size, rfl⟩
    · exact holds_withSize 0
    · exact holds_withSize size
  exact hnone.insertAll indices

/-- Room for three indices, then growth by two words: 5 and 69 stand for the same
bit of different words, 133 for that bit of a third. -/
theorem insertAll_members_third_word :
    let (last, told) := (withSize 3).insertAll [69, 1, 133, 69, 1]
    told = [true, true, true, false, false] ∧ last.contains 133 = true ∧
      last.contains 5 = false ∧ last.contains 64 = false := by
  obtain ⟨hmembers, htold⟩ := insertAll_members (.inr ⟨3, rfl⟩) [69, 1, 133, 69, 1]
  have habsent (index : Nat) (hindex : index ∉ [69, 1, 133, 69, 1]) :
      ((withSize 3).insertAll [69, 1, 133, 69, 1]).1.contains index = false :=
    Bool.eq_false_iff.mpr fun h => hindex ((hmembers index).mp h)
  exact ⟨htold, (hmembers 133).mpr (by decide), habsent 5 (by decide), habsent 64 (by decide)⟩

end TreeSchema.IndexSet
