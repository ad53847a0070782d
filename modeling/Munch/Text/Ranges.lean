/-
Classes of characters given as sorted lists of code point ranges. A
class with some hundred ranges is data; membership is one walk that
stops at the first range lying wholly above the code point, so a
character below the table costs one comparison. `has_iff` says that the
early stop loses nothing on a sorted table.
-/

namespace Munch

/-- Inclusive code point ranges, lowest first. -/
abbrev Ranges := List (Nat × Nat)

namespace Ranges

/-- Whether a code point lies in one of the ranges. -/
def has (n : Nat) : Ranges → Bool
  | [] => false
  | (low, high) :: rest =>
      if n < low then false else n ≤ high || has n rest

/-- The ranges are in order, apart, and none starts below `floor`. -/
def sortedFrom (floor : Nat) : Ranges → Bool
  | [] => true
  | (low, high) :: rest =>
      floor ≤ low && low ≤ high && sortedFrom (high + 1) rest

/-- No range of a sorted table starts below its floor. -/
private theorem le_of_mem_of_sortedFrom {floor : Nat} {ranges : Ranges}
    (sorted : sortedFrom floor ranges = true) {r : Nat × Nat}
    (mem : r ∈ ranges) : floor ≤ r.1 := by
  induction ranges generalizing floor with
  | nil => simp at mem
  | cons s rest ih =>
    simp only [sortedFrom, Bool.and_eq_true, decide_eq_true_eq] at sorted
    rcases List.mem_cons.1 mem with rfl | mem
    · exact sorted.1.1
    · have := ih sorted.2 mem
      omega

/-- On a sorted table the walk finds a code point exactly when some
range holds it. -/
theorem has_iff {n floor : Nat} {ranges : Ranges}
    (sorted : sortedFrom floor ranges = true) :
    has n ranges = true ↔ ∃ r ∈ ranges, r.1 ≤ n ∧ n ≤ r.2 := by
  induction ranges generalizing floor with
  | nil => simp [has]
  | cons s rest ih =>
    simp only [sortedFrom, Bool.and_eq_true, decide_eq_true_eq] at sorted
    by_cases below : n < s.1
    · simp only [has, below, if_true, Bool.false_eq_true, false_iff]
      rintro ⟨r, mem, lo, -⟩
      rcases List.mem_cons.1 mem with rfl | mem
      · omega
      · have := le_of_mem_of_sortedFrom sorted.2 mem
        omega
    · simp [has, below, ih sorted.2, Nat.not_lt.1 below]

end Ranges

end Munch
