import Scc.Libc.Stdlib.Malloc

set_option linter.all false

/-! `bsearch` (stdlib/bsearch.c). The elements are counted from `base`, and a number past the end is the memory that
follows the array. -/
namespace Scc.Libc.Stdlib

/-- The loop of `bsearch`, with what the comparison function says of the key and an element: the elements that it is
called with, and the one that is returned. -/
def searchLoop (cmp : Nat → Int) (low high : Nat) : List Nat × Option Nat :=
  if low ≤ high then
    let mid := low + (high - low) / 2
    let t := cmp mid
    if t = 0 then ([mid], some mid)
    else if t > 0 ∧ mid < SIZE_MAX then
      let rest := searchLoop cmp (mid + 1) high
      (mid :: rest.1, rest.2)
    else if t < 0 ∧ mid > 0 then
      let rest := searchLoop cmp low (mid - 1)
      (mid :: rest.1, rest.2)
    else ([mid], none)
  else ([], none)
termination_by high + 1 - low

variable {κ α : Type} (cmp : κ → α → Int) (key : κ) (ary : Nat → α) (n : BitVec 64)

def bsearch : List Nat × Option Nat := searchLoop (fun i => cmp key (ary i)) 0 (n - 1).toNat

/-- The elements before the key come first, then those that are equal to it, then the others. -/
def SortedFor : Prop :=
  ∀ i j, i < j → j < n.toNat →
    (cmp key (ary i) ≤ 0 → cmp key (ary j) ≤ 0) ∧ (cmp key (ary i) < 0 → cmp key (ary j) < 0)

/-- An element that is equal to the key is returned if there is one, and only elements of the array are compared. -/
structure Searches (result : List Nat × Option Nat) : Prop where
  inside : ∀ i ∈ result.1, i < n.toNat
  equal : ∀ i, result.2 = some i → i < n.toNat ∧ cmp key (ary i) = 0
  complete : result.2 = none → ∀ i < n.toNat, cmp key (ary i) ≠ 0

variable {cmp key ary n} {low high : Nat}

/-- The elements between the bounds are left, and the others are not equal to the key. -/
structure Between (cmp : κ → α → Int) (key : κ) (ary : Nat → α) (n : BitVec 64) (low high : Nat) : Prop where
  inside : high < n.toNat
  below : ∀ i < low, cmp key (ary i) ≠ 0
  above : ∀ i, high < i → i < n.toNat → cmp key (ary i) ≠ 0

theorem SortedFor.ordered (sorted : SortedFor cmp key ary n) {i j : Nat} (le : i ≤ j) (last : j < n.toNat) :
    (0 < cmp key (ary j) → 0 < cmp key (ary i)) ∧ (cmp key (ary i) < 0 → cmp key (ary j) < 0) := by
  rcases Nat.lt_or_eq_of_le le with lt | rfl
  · obtain ⟨upto, less⟩ := sorted i j lt last
    refine ⟨fun more => ?_, less⟩
    by_contra other
    exact absurd (upto (Int.not_lt.mp other)) (Int.not_le.mpr more)
  · exact ⟨id, id⟩

/-- The key is behind the element in the middle. -/
theorem Between.behind (between : Between cmp key ary n low high) (sorted : SortedFor cmp key ary n) {mid : Nat}
    (last : mid < n.toNat) (more : 0 < cmp key (ary mid)) : Between cmp key ary n (mid + 1) high where
  inside := between.inside
  below i lt := by
    have positive := (sorted.ordered (Nat.le_of_lt_succ lt) last).1 more
    exact Int.ne_of_gt positive
  above := between.above

/-- The key is before the element in the middle. -/
theorem Between.before (between : Between cmp key ary n low high) (sorted : SortedFor cmp key ary n) {mid : Nat}
    (last : mid < n.toNat) (less : cmp key (ary mid) < 0) : Between cmp key ary n low (mid - 1) where
  inside := Nat.lt_of_le_of_lt (Nat.sub_le mid 1) last
  below := between.below
  above i lt inside := by
    have negative := (sorted.ordered (Nat.le_of_pred_lt lt) inside).2 less
    exact Int.ne_of_lt negative

/-- One more call, with an element of the array. -/
theorem Searches.called {result : List Nat × Option Nat} {i : Nat} (rest : Searches cmp key ary n result) (inside : i < n.toNat) :
    Searches cmp key ary n (i :: result.1, result.2) where
  inside := List.forall_mem_cons.mpr ⟨inside, rest.inside⟩
  equal := rest.equal
  complete := rest.complete

theorem Between.searches (sorted : SortedFor cmp key ary n) (between : Between cmp key ary n low high) :
    Searches cmp key ary n (searchLoop (fun i => cmp key (ary i)) low high) := by
  have size : n.toNat ≤ SIZE_MAX := Nat.le_of_lt_succ n.isLt
  induction low, high using searchLoop.induct (fun i => cmp key (ary i)) with
  | case1 low high le mid t zero =>
    have last : mid < n.toNat := Nat.lt_of_le_of_lt (by omega) between.inside
    rw [searchLoop, if_pos le]
    dsimp only
    rw [if_pos zero]
    refine ⟨?_, ?_, nofun⟩
    · intro i mem
      cases List.mem_singleton.mp mem
      exact last
    · rintro i ⟨⟩
      exact ⟨last, zero⟩
  | case2 low high le mid t other more ih =>
    have last : mid < n.toNat := Nat.lt_of_le_of_lt (by omega) between.inside
    rw [searchLoop, if_pos le]
    dsimp only
    rw [if_neg other, if_pos more]
    exact (ih (between.behind sorted last more.1)).called last
  | case3 low high le mid t other more less ih =>
    have last : mid < n.toNat := Nat.lt_of_le_of_lt (by omega) between.inside
    rw [searchLoop, if_pos le]
    dsimp only
    rw [if_neg other, if_neg more, if_pos less]
    exact (ih (between.before sorted last less.1)).called last
  | case4 low high le mid t other more less =>
    have last : mid < n.toNat := Nat.lt_of_le_of_lt (by omega) between.inside
    rw [searchLoop, if_pos le]
    dsimp only
    rw [if_neg other, if_neg more, if_neg less]
    -- the key is before the first element
    have negative : t < 0 := by omega
    have first : mid = 0 := by omega
    refine ⟨?_, nofun, ?_⟩
    · intro i mem
      cases List.mem_singleton.mp mem
      exact last
    · intro _ i inside
      exact Int.ne_of_lt ((sorted.ordered (first ▸ Nat.zero_le i) inside).2 negative)
  | case5 low high gt =>
    rw [searchLoop, if_neg gt]
    refine ⟨nofun, nofun, fun _ i inside => ?_⟩
    rcases Nat.lt_or_ge i low with below | above
    · exact between.below i below
    · exact between.above i (by omega) inside

/-- The loop looks at an element, where there are bounds for one. -/
theorem searchLoop_calls (cmp : Nat → Int) (le : low ≤ high) : (searchLoop cmp low high).1.head? = some (low + (high - low) / 2) := by
  rw [searchLoop, if_pos le]
  dsimp only
  split
  · rfl
  split
  · rfl
  split
  · rfl
  · rfl

/-- The key is found exactly in the arrays that are not empty: `n - 1` is `SIZE_MAX` for an empty one. -/
theorem bsearch_iff (sorted : SortedFor cmp key ary n) : Searches cmp key ary n (bsearch cmp key ary n) ↔ n ≠ 0 := by
  constructor
  · rintro searches rfl
    have first := searchLoop_calls (fun i => cmp key (ary i)) (Nat.zero_le (0 - 1 : BitVec 64).toNat)
    exact absurd (searches.inside _ (List.mem_of_mem_head? first)) (Nat.not_lt_zero _)
  · intro some
    have size : (n - 1).toNat = n.toNat - 1 := by
      have positive : n.toNat ≠ 0 := fun zero => some (BitVec.eq_of_toNat_eq zero)
      bv_omega
    refine Between.searches sorted ⟨?_, ?_, ?_⟩
    · have positive : n.toNat ≠ 0 := fun zero => some (BitVec.eq_of_toNat_eq zero)
      omega
    · exact fun i below => absurd below (Nat.not_lt_zero i)
    · exact fun i above inside => absurd inside (by omega)

/-- Integers in their order. -/
theorem bsearch_seven :
    Searches (fun key elem : Int => key - elem) 7 (fun i => 2 * i + 1) 5 (bsearch (fun key elem : Int => key - elem) 7 (fun i => 2 * i + 1) 5) := by
  apply (bsearch_iff _).mpr (by decide)
  intro i j lt _
  dsimp only
  omega

theorem bsearch_empty :
    ¬Searches (fun key elem : Int => key - elem) 7 (fun _ => 0) 0 (bsearch (fun key elem : Int => key - elem) 7 (fun _ => 0) 0) := by
  intro searches
  have first := searchLoop_calls (fun _ => (7 - 0 : Int)) (Nat.zero_le (0 - 1 : BitVec 64).toNat)
  exact absurd (searches.inside _ (List.mem_of_mem_head? first)) (Nat.not_lt_zero _)

end Scc.Libc.Stdlib
