import Mathlib.Data.List.Basic
import Mathlib.Data.List.Perm.Basic

set_option linter.all false

/-! A list that is parted around its first element from both ends, and put in order around it. -/
namespace Scc.Listing
variable {α : Type}

/-- Two elements change their places. -/
def exchange (xs : List α) (i j : Nat) : List α :=
  match xs[i]?, xs[j]? with
  | some x, some y => (xs.set i y).set j x
  | _, _ => xs

/-- The elements up to `i` are not above the first one, and those from `j` on are not below it. -/
structure Zones (le : α → α → Prop) (p : α) (xs : List α) (i j : Nat) : Prop where
  head : xs[0]? = some p
  low : ∀ k x, 0 < k → k ≤ i → xs[k]? = some x → le x p
  high : ∀ k x, j ≤ k → xs[k]? = some x → le p x

variable {le : α → α → Prop} {p x y : α} {xs : List α} {i j : Nat}

theorem exchange_eq (one : xs[i]? = some x) (two : xs[j]? = some y) : exchange xs i j = (xs.set i y).set j x := by
  rw [exchange, one, two]

theorem exchange_perm (xs : List α) (i j : Nat) : (exchange xs i j).Perm xs := by
  unfold exchange
  split
  · rename_i x y one two
    obtain ⟨less, rfl⟩ := List.getElem?_eq_some_iff.mp one
    obtain ⟨less', rfl⟩ := List.getElem?_eq_some_iff.mp two
    exact List.set_set_perm less less'
  · exact .refl _

theorem exchange_length (xs : List α) (i j : Nat) : (exchange xs i j).length = xs.length :=
  (exchange_perm xs i j).length_eq

/-- Elsewhere nothing changes. -/
theorem exchange_other {k : Nat} (first : k ≠ i) (second : k ≠ j) : (exchange xs i j)[k]? = xs[k]? := by
  unfold exchange
  split
  · rw [List.getElem?_set_ne (Ne.symm second), List.getElem?_set_ne (Ne.symm first)]
  · rfl

theorem exchange_left (one : xs[i]? = some x) (two : xs[j]? = some y) : (exchange xs i j)[i]? = some y := by
  obtain ⟨less, -⟩ := List.getElem?_eq_some_iff.mp one
  rw [exchange_eq one two]
  by_cases same : j = i
  · subst same
    rw [List.getElem?_set_self (by simpa using less), ← one, two]
  · rw [List.getElem?_set_ne same, List.getElem?_set_self less]

theorem exchange_right (one : xs[i]? = some x) (two : xs[j]? = some y) : (exchange xs i j)[j]? = some x := by
  obtain ⟨less, -⟩ := List.getElem?_eq_some_iff.mp two
  rw [exchange_eq one two, List.getElem?_set_self (by simpa using less)]

theorem exchange_self (xs : List α) (i : Nat) : exchange xs i i = xs := by
  unfold exchange
  split
  · rename_i x y one two
    obtain ⟨_, rfl⟩ := List.getElem?_eq_some_iff.mp two
    rw [List.set_getElem_self, ← Option.some.inj (two.symm.trans one)]
    exact List.set_getElem_self _
  · rfl

theorem set_middle (before after : List α) (x y : α) : (before ++ x :: after).set before.length y = before ++ y :: after := by
  simp

theorem exchange_parts (before middle after : List α) (x y : α) :
    exchange (before ++ x :: middle ++ y :: after) before.length (before ++ x :: middle).length =
      before ++ y :: middle ++ x :: after := by
  have one : (before ++ x :: middle ++ y :: after)[before.length]? = some x := by simp
  have two : (before ++ x :: middle ++ y :: after)[(before ++ x :: middle).length]? = some y := by
    rw [List.getElem?_append_right (Nat.le_refl _), Nat.sub_self]
    rfl
  have length : (before ++ x :: middle).length = (before ++ y :: middle).length := by simp
  have whole : before ++ x :: middle ++ y :: after = before ++ x :: (middle ++ y :: after) := by simp
  have half : before ++ y :: (middle ++ y :: after) = before ++ y :: middle ++ y :: after := by simp
  rw [exchange_eq one two, whole, set_middle, half, length, set_middle]

theorem cut (found : xs[i]? = some x) : ∃ before after, xs = before ++ x :: after ∧ before.length = i := by
  obtain ⟨less, rfl⟩ := List.getElem?_eq_some_iff.mp found
  refine ⟨xs.take i, xs.drop (i + 1), ?_, by simp; omega⟩
  rw [List.getElem_cons_drop, List.take_append_drop]

/-- Both elements and what is around them. -/
theorem cut_two (less : i < j) (one : xs[i]? = some x) (two : xs[j]? = some y) :
    ∃ before middle after, xs = before ++ x :: middle ++ y :: after ∧ before.length = i ∧ (before ++ x :: middle).length = j := by
  obtain ⟨whole, after, rfl, rfl⟩ := cut two
  rw [List.getElem?_append_left less] at one
  obtain ⟨before, middle, rfl, rfl⟩ := cut one
  exact ⟨before, middle, after, rfl, rfl, rfl⟩

namespace Zones

theorem start (head : xs[0]? = some p) : Zones le p xs 0 xs.length where
  head := head
  low := fun k x pos small => absurd small (by omega)
  high := fun k x large here => by
    rw [List.getElem?_eq_none large] at here
    cases here

theorem up (zones : Zones le p xs i j) (here : ∀ x, xs[i + 1]? = some x → le x p) : Zones le p xs (i + 1) j where
  head := zones.head
  low := fun k x pos small found => by
    rcases Nat.lt_or_eq_of_le small with less | rfl
    · exact zones.low k x pos (Nat.le_of_lt_succ less) found
    · exact here x found
  high := zones.high

theorem down (zones : Zones le p xs i (j + 1)) (here : ∀ x, xs[j]? = some x → le p x) : Zones le p xs i j where
  head := zones.head
  low := zones.low
  high := fun k x large found => by
    rcases Nat.lt_or_eq_of_le large with less | rfl
    · exact zones.high k x less found
    · exact here x found

/-- Both indices have stopped, and the elements there change their places. -/
theorem exchange (zones : Zones le p xs i (j + 1)) (order : i < j) (one : xs[i + 1]? = some x) (two : xs[j]? = some y)
    (above : le p x) (below : le y p) : Zones le p (exchange xs (i + 1) j) (i + 1) j where
  head := by rw [exchange_other (by omega) (by omega), zones.head]
  low := fun k z pos small found => by
    by_cases here : k = i + 1
    · rw [here, exchange_left one two] at found
      cases found
      exact below
    · rw [exchange_other here (by omega)] at found
      exact zones.low k z pos (by omega) found
  high := fun k z large found => by
    by_cases here : k = j
    · rw [here, exchange_right one two] at found
      cases found
      exact above
    · by_cases same : k = i + 1
      · omega
      · rw [exchange_other same here] at found
        exact zones.high k z (by omega) found

/-- When the indices have met, the first element goes between the zones. -/
theorem split (zones : Zones le p xs i (j + 1)) (met : j ≤ i) (inside : j < xs.length) :
    ∃ left right, Listing.exchange xs 0 j = left ++ p :: right ∧ left.length = j ∧ (∀ x ∈ left, le x p) ∧ ∀ x ∈ right, le p x := by
  obtain ⟨y, found⟩ : ∃ y, xs[j]? = some y := ⟨_, List.getElem?_eq_getElem inside⟩
  have middle := exchange_right zones.head found
  have first := exchange_left zones.head found
  have length := exchange_length xs 0 j
  generalize same : Listing.exchange xs 0 j = ys at middle first length
  obtain ⟨less, here⟩ := List.getElem?_eq_some_iff.mp middle
  refine ⟨ys.take j, ys.drop (j + 1), ?_, by simp; omega, ?_, ?_⟩
  · rw [← here, List.getElem_cons_drop, List.take_append_drop]
  · intro x member
    obtain ⟨k, small, rfl⟩ := List.getElem_of_mem member
    have short : k < j := by simp at small; omega
    rw [List.getElem_take]
    by_cases zero : k = 0
    · subst zero
      obtain ⟨_, value⟩ := List.getElem?_eq_some_iff.mp first
      rw [value]
      exact zones.low j y short met found
    · refine zones.low k _ (by omega) (by omega) ?_
      rw [← exchange_other (i := 0) (j := j) zero (by omega), same, List.getElem?_eq_getElem]
  · intro x member
    obtain ⟨k, small, rfl⟩ := List.getElem_of_mem member
    rw [List.getElem_drop]
    refine zones.high (j + 1 + k) _ (by omega) ?_
    rw [← exchange_other (i := 0) (j := j) (by omega) (by omega), same, List.getElem?_eq_getElem]

end Zones

/-- What is in order on both sides of an element that is between them is in order. -/
theorem pairwise_around {left right : List α} (one : left.Pairwise le) (two : right.Pairwise le) (below : ∀ x ∈ left, le x p)
    (above : ∀ x ∈ right, le p x) (trans : ∀ x y, le x p → le p y → le x y) : (left ++ p :: right).Pairwise le := by
  rw [List.pairwise_append, List.pairwise_cons]
  refine ⟨one, ⟨above, two⟩, fun x member y member' => ?_⟩
  rcases List.mem_cons.mp member' with rfl | later
  · exact below x member
  · exact trans x y (below x member) (above y later)

end Scc.Listing
