import Scc.Libc.Stdlib.Qsort

set_option linter.all false

/-! `qsort` sorts where its uninitialized variable holds the right number, and only arrays of at most one element
do not need it. -/
namespace Scc.Libc.Stdlib
open Listing

/-! Elements in the bytes of an array. -/

/-- Every element has the size of an element. -/
def Sized (es : Nat) (xs : List (List UInt8)) : Prop := ∀ x ∈ xs, x.length = es

variable {es i j : Nat} {x y : List UInt8} {xs : List (List UInt8)} {pre post : List UInt8}

theorem Sized.perm {ys : List (List UInt8)} (sized : Sized es xs) (perm : ys.Perm xs) : Sized es ys :=
  fun x member => sized x (perm.mem_iff.mp member)

theorem Sized.flatten (sized : Sized es xs) : xs.flatten.length = xs.length * es := by
  induction xs with
  | nil => simp
  | cons x xs ih =>
    have head := sized x List.mem_cons_self
    have tail := ih fun y member => sized y (List.mem_cons_of_mem x member)
    rw [List.flatten_cons, List.length_append, head, tail, List.length_cons, Nat.succ_mul, Nat.add_comm]

theorem swapBytes_self (n : Nat) {mem : List UInt8} (inside : i + n ≤ mem.length) : swapBytes i i n mem = some mem := by
  induction n generalizing i with
  | zero => rfl
  | succ n ih =>
    have here : mem[i]? = some mem[i] := List.getElem?_eq_getElem (by omega)
    have same : (mem.set i mem[i]).set i mem[i] = mem := by simp
    simp only [swapBytes, here, Option.bind_eq_bind, Option.bind_some, same]
    exact ih (by omega)

theorem swapBytes_apart (same : x.length = y.length) (u v w : List UInt8) :
    swapBytes u.length (u ++ x ++ v).length x.length (u ++ x ++ v ++ y ++ w) = some (u ++ y ++ v ++ x ++ w) := by
  induction x generalizing y u v with
  | nil =>
    obtain rfl : y = [] := List.length_eq_zero_iff.mp same.symm
    simp [swapBytes]
  | cons c x ih =>
    obtain ⟨d, y, rfl⟩ : ∃ d t, y = d :: t := List.exists_cons_of_ne_nil (by rintro rfl; cases same)
    have first : (u ++ c :: x ++ v ++ d :: y ++ w)[u.length]? = some c := by simp
    have second : (u ++ c :: x ++ v ++ d :: y ++ w)[(u ++ c :: x ++ v).length]? = some d := by
      rw [List.append_assoc, List.getElem?_append_right (Nat.le_refl _), Nat.sub_self]
      rfl
    have mem : ((u ++ c :: x ++ v ++ d :: y ++ w).set u.length d).set (u ++ c :: x ++ v).length c =
        u ++ [d] ++ x ++ (v ++ [c]) ++ y ++ w := by
      have length : (u ++ c :: x ++ v).length = (u ++ d :: x ++ v).length := by simp
      have whole : u ++ c :: x ++ v ++ d :: y ++ w = u ++ c :: (x ++ v ++ d :: y ++ w) := by simp
      have half : u ++ d :: (x ++ v ++ d :: y ++ w) = u ++ d :: x ++ v ++ d :: (y ++ w) := by simp
      rw [whole, set_middle, half, length, set_middle]
      simp
    have step := ih (Nat.succ.inj same) (u ++ [d]) (v ++ [c])
    have start : (u ++ [d]).length = u.length + 1 := by simp
    have other : (u ++ [d] ++ x ++ (v ++ [c])).length = (u ++ c :: x ++ v).length + 1 := by simp; omega
    rw [start, other] at step
    simp only [swapBytes, first, second, Option.bind_eq_bind, Option.bind_some, List.length_cons, mem, step]
    simp

/-- An array of elements with other bytes before and after it. -/
def around (pre post : List UInt8) (xs : List (List UInt8)) : List UInt8 := pre ++ xs.flatten ++ post

section
attribute [local simp] swapBytes swap Qsort.element Qsort.compare Qsort.up Qsort.down Qsort.part Qsort.xqsort around
end

section elements
variable (pre post)

theorem around_at {before : List (List UInt8)} (after : List (List UInt8)) (sized : Sized es before) :
    around pre post (before ++ x :: after) = pre ++ before.flatten ++ x ++ (after.flatten ++ post) ∧
      (pre ++ before.flatten).length = pre.length + before.length * es := by
  constructor
  · simp [around]
  · rw [List.length_append, sized.flatten]

theorem around_length (sized : Sized es xs) : (around pre post xs).length = pre.length + xs.length * es + post.length := by
  rw [around, List.length_append, List.length_append, sized.flatten]

theorem element_at (cmp : List UInt8 → List UInt8 → Int) (sized : Sized es xs) (found : xs[i]? = some x) :
    Qsort.element ⟨es, cmp⟩ (around pre post xs) (pre.length + i * es) = some x := by
  obtain ⟨before, after, rfl, rfl⟩ := cut found
  have here : x.length = es := sized x (by simp)
  obtain ⟨parts, length⟩ := around_at pre post (x := x) after fun z member =>
    sized z (List.mem_append_left _ member)
  have inside : (pre ++ before.flatten).length + es ≤ (pre ++ before.flatten ++ x ++ (after.flatten ++ post)).length := by
    simp only [List.length_append, here]
    omega
  rw [Qsort.element, parts, ← length, if_pos inside, List.append_assoc, List.drop_left, ← here, List.take_left]

/-- Whole elements are swapped. -/
theorem swap_at (positive : 0 < es) (sized : Sized es xs) (order : i ≤ j) (inside : j < xs.length) :
    swap (pre.length + i * es) (pre.length + j * es) es (around pre post xs) = some (around pre post (exchange xs i j)) := by
  rw [swap, if_neg (Nat.ne_of_gt positive)]
  rcases Nat.eq_or_lt_of_le order with rfl | less
  · rw [exchange_self]
    refine swapBytes_self es ?_
    have whole := Nat.mul_le_mul_right es (Nat.succ_le_of_lt inside)
    rw [around_length pre post sized, Nat.add_assoc, ← Nat.succ_mul]
    omega
  · obtain ⟨x, one⟩ : ∃ x, xs[i]? = some x := ⟨_, List.getElem?_eq_getElem (Nat.lt_trans less inside)⟩
    obtain ⟨y, two⟩ : ∃ y, xs[j]? = some y := ⟨_, List.getElem?_eq_getElem inside⟩
    obtain ⟨before, middle, after, rfl, rfl, rfl⟩ := cut_two less one two
    have here : x.length = es := sized x (by simp)
    have there : y.length = es := sized y (by simp)
    have first : (pre ++ before.flatten).length = pre.length + before.length * es := by
      rw [List.length_append, Sized.flatten fun z member => sized z (by simp [member])]
    have second : (pre ++ before.flatten ++ x ++ middle.flatten).length = pre.length + (before ++ x :: middle).length * es := by
      have sized' : Sized es (before ++ x :: middle) := fun z member => sized z (List.mem_append_left _ member)
      rw [← sized'.flatten]
      simp
    have swapped := swapBytes_apart (here.trans there.symm) (pre ++ before.flatten) middle.flatten (after.flatten ++ post)
    rw [first, second, here] at swapped
    rw [exchange_parts]
    simpa [around] using swapped


end elements

/-! The loops. -/

/-- The comparison function is a total preorder. -/
structure TotalPreorder (cmp : List UInt8 → List UInt8 → Int) : Prop where
  swapped : ∀ x y, cmp x y < 0 ↔ 0 < cmp y x
  trans : ∀ x y z, cmp x y ≤ 0 → cmp y z ≤ 0 → cmp x z ≤ 0

/-- Not above in the order. -/
def Le (cmp : List UInt8 → List UInt8 → Int) (x y : List UInt8) : Prop := cmp x y ≤ 0

theorem TotalPreorder.le_of_not_lt {cmp : List UInt8 → List UInt8 → Int} (total : TotalPreorder cmp) (not : ¬ cmp x y < 0) : Le cmp y x := by
  by_contra above
  exact not ((total.swapped x y).mpr (Int.not_le.mp above))

section loops
variable (pre post)
variable {cmp : List UInt8 → List UInt8 → Int} {p : List UInt8} {n : Nat}

theorem compare_at (sized : Sized es xs) (found : xs[i]? = some x) (head : xs[0]? = some p) :
    Qsort.compare ⟨es, cmp⟩ (around pre post xs) (pre.length + i * es) pre.length = some (cmp x p) := by
  have first := element_at pre post cmp sized head
  rw [Nat.zero_mul, Nat.add_zero] at first
  simp [Qsort.compare, element_at pre post cmp sized found, first]

theorem up_spec (total : TotalPreorder cmp) (positive : 0 < es) (sized : Sized es xs) (enough : xs.length - i < n) (inside : i < xs.length)
    (zones : Zones (Le cmp) p xs i j) :
    ∃ k, Qsort.up ⟨es, cmp⟩ (around pre post xs) pre.length (pre.length + xs.length * es) n (pre.length + i * es) =
        some (pre.length + (k + 1) * es) ∧
      i ≤ k ∧ k < xs.length ∧ Zones (Le cmp) p xs k j ∧ ∀ x, xs[k + 1]? = some x → Le cmp p x := by
  induction n generalizing i with
  | zero => cases enough
  | succ n ih =>
    have next : pre.length + i * es + es = pre.length + (i + 1) * es := by rw [Nat.succ_mul, Nat.add_assoc]
    unfold Qsort.up
    simp only [next]
    by_cases more : i + 1 < xs.length
    · have below : pre.length + (i + 1) * es < pre.length + xs.length * es :=
        Nat.add_lt_add_left (Nat.mul_lt_mul_of_pos_right more positive) _
      have found : xs[i + 1]? = some xs[i + 1] := List.getElem?_eq_getElem more
      rw [if_pos below, compare_at pre post sized found zones.head]
      simp only [Option.bind_eq_bind, Option.bind_some]
      by_cases less : cmp xs[i + 1] p < 0
      · rw [if_pos less]
        have zones' := zones.up fun x here => by
          rw [found] at here
          cases here
          exact Int.le_of_lt less
        obtain ⟨k, result, order, rest⟩ := ih (by omega) more zones'
        exact ⟨k, result, by omega, rest⟩
      · rw [if_neg less]
        refine ⟨i, rfl, Nat.le_refl i, inside, zones, fun x here => ?_⟩
        rw [found] at here
        cases here
        exact total.le_of_not_lt less
    · have beyond : ¬ pre.length + (i + 1) * es < pre.length + xs.length * es := by
        have := Nat.mul_le_mul_right es (Nat.not_lt.mp more)
        omega
      rw [if_neg beyond]
      refine ⟨i, rfl, Nat.le_refl i, inside, zones, fun x here => ?_⟩
      rw [List.getElem?_eq_none (Nat.not_lt.mp more)] at here
      cases here

theorem down_spec (total : TotalPreorder cmp) (positive : 0 < es) (sized : Sized es xs) (enough : j < n) (inside : j < xs.length)
    (zones : Zones (Le cmp) p xs i (j + 1)) :
    ∃ k, Qsort.down ⟨es, cmp⟩ (around pre post xs) pre.length n (pre.length + (j + 1) * es) = some (pre.length + k * es) ∧
      k ≤ j ∧ Zones (Le cmp) p xs i (k + 1) ∧ (0 < k → ∀ y, xs[k]? = some y → Le cmp y p) := by
  induction n generalizing j with
  | zero => cases enough
  | succ n ih =>
    have next : pre.length + (j + 1) * es - es = pre.length + j * es := by
      rw [Nat.succ_mul, ← Nat.add_assoc, Nat.add_sub_cancel]
    unfold Qsort.down
    simp only [next]
    cases j with
    | zero =>
      rw [if_neg (by omega)]
      exact ⟨0, rfl, Nat.le_refl 0, zones, fun pos => absurd pos (by omega)⟩
    | succ j =>
      have above : pre.length < pre.length + (j + 1) * es := Nat.lt_add_of_pos_right (Nat.mul_pos (Nat.succ_pos j) positive)
      have found : xs[j + 1]? = some xs[j + 1] := List.getElem?_eq_getElem inside
      rw [if_pos above, compare_at pre post sized found zones.head]
      simp only [Option.bind_eq_bind, Option.bind_some]
      by_cases greater : 0 < cmp xs[j + 1] p
      · rw [if_pos greater]
        have zones' := zones.down fun x here => by
          rw [found] at here
          cases here
          exact Int.le_of_lt ((total.swapped _ _).mpr greater)
        obtain ⟨k, result, order, rest⟩ := ih (by omega) (by omega) zones'
        exact ⟨k, result, by omega, rest⟩
      · rw [if_neg greater]
        refine ⟨j + 1, rfl, Nat.le_refl _, zones, fun _ y here => ?_⟩
        rw [found] at here
        cases here
        exact Int.not_lt.mp greater

theorem part_spec (total : TotalPreorder cmp) (positive : 0 < es) (sized : Sized es xs) (enough : xs.length - i < n) (enough' : j < n)
    (inside : i < xs.length) (inside' : j < xs.length) (order : i ≤ j + 1) (zones : Zones (Le cmp) p xs i (j + 1)) :
    ∃ ys k m, Qsort.part ⟨es, cmp⟩ pre.length (pre.length + xs.length * es) n (pre.length + i * es) (pre.length + (j + 1) * es)
        (around pre post xs) = some (pre.length + m * es, around pre post ys) ∧
      ys.Perm xs ∧ Zones (Le cmp) p ys k (m + 1) ∧ m ≤ k ∧ m < ys.length := by
  induction n generalizing i j xs with
  | zero => cases enough
  | succ n ih =>
    obtain ⟨k, up, left, inK, zonesK, above⟩ := up_spec pre post total positive sized enough inside zones
    obtain ⟨m, down, right, zonesM, below⟩ := down_spec pre post total positive sized enough' inside' zonesK
    have meets : pre.length + m * es < pre.length + (k + 1) * es ↔ m < k + 1 := by
      rw [Nat.add_lt_add_iff_left, Nat.mul_lt_mul_right positive]
    unfold Qsort.part
    simp only [up, down, Option.bind_eq_bind, Option.bind_some, meets]
    by_cases met : m < k + 1
    · rw [if_pos met]
      exact ⟨xs, k, m, rfl, .refl xs, zonesM, by omega, by omega⟩
    · rw [if_neg met, swap_at pre post positive sized (by omega) (by omega)]
      have one : xs[k + 1]? = some xs[k + 1] := List.getElem?_eq_getElem (by omega)
      have two : xs[m]? = some xs[m] := List.getElem?_eq_getElem (by omega)
      have zones' := zonesM.exchange (by omega) one two (above _ one) (below (by omega) _ two)
      have perm := exchange_perm xs (k + 1) m
      have length := perm.length_eq
      obtain ⟨m, rfl⟩ : ∃ m', m = m' + 1 := ⟨m - 1, by omega⟩
      obtain ⟨ys, k', m', result, perm', rest⟩ :=
        ih (sized.perm perm) (by omega) (by omega) (by omega) (by omega) (by omega) zones'
      rw [length] at result
      exact ⟨ys, k', m', result, perm'.trans perm, rest⟩

end loops

section around
variable (pre post)

theorem around_lower (left right : List (List UInt8)) (p : List UInt8) :
    around pre post (left ++ p :: right) = around pre (p ++ right.flatten ++ post) left := by
  simp [around]

theorem around_upper (left right : List (List UInt8)) (p : List UInt8) :
    around pre post (left ++ p :: right) = around (pre ++ left.flatten ++ p) post right := by
  simp [around]

/-- Where the variable holds the right number, the elements are sorted. -/
theorem xqsort_spec (xs : List (List UInt8)) {cmp : List UInt8 → List UInt8 → Int} (total : TotalPreorder cmp) (positive : 0 < es) (depth : Nat)
    (enough : xs.length < depth) (sized : Sized es xs) (few : xs.length ≤ SIZE_MAX) :
    ∃ ys, Qsort.xqsort ⟨es, cmp⟩ depth (fun _ ni => ni) pre.length xs.length (around pre post xs) = some (around pre post ys) ∧
      ys.Perm xs ∧ ys.Pairwise (Le cmp) := by
  induction depth generalizing xs pre post with
  | zero => cases enough
  | succ depth ih =>
    unfold Qsort.xqsort
    by_cases one : xs.length ≤ 1
    · rw [if_pos one]
      refine ⟨xs, rfl, .refl xs, ?_⟩
      match xs, one with
      | [], _ => exact .nil
      | [x], _ => exact List.pairwise_singleton _ x
    rw [if_neg one]
    have half := swap_at pre post positive sized (Nat.zero_le (xs.length / 2)) (by omega)
    have perm := exchange_perm xs 0 (xs.length / 2)
    have length := perm.length_eq
    generalize exchange xs 0 (xs.length / 2) = xs' at half perm length
    have sized' := sized.perm perm
    obtain ⟨p, head⟩ : ∃ p, xs'[0]? = some p := ⟨_, List.getElem?_eq_getElem (by omega)⟩
    have start : Zones (Le cmp) p xs' 0 xs'.length := .start head
    obtain ⟨j, last⟩ : ∃ j, xs'.length = j + 1 := ⟨xs'.length - 1, by omega⟩
    rw [last] at start
    obtain ⟨ys, k, m, parted, perm', zones, met, inside⟩ :=
      part_spec pre post (n := xs.length + 1) total positive sized' (by omega) (by omega) (by omega) (by omega)
        (Nat.zero_le _) start
    have middle := swap_at pre post positive (sized'.perm perm') (Nat.zero_le m) inside
    obtain ⟨left, right, split, here, below, above⟩ := zones.split met inside
    rw [← last, length] at parted
    simp only [Nat.zero_mul, Nat.add_zero] at half parted middle
    have all : (left ++ p :: right).Perm xs := split ▸ (exchange_perm ys 0 m).trans (perm'.trans perm)
    have sum : left.length + (right.length + 1) = xs.length := by simpa using all.length_eq
    have ni : (pre.length + m * es - pre.length) / es = left.length := by
      rw [Nat.add_sub_cancel_left, Nat.mul_div_cancel _ positive, here]
    have nj : (((xs.length : Int) - (left.length : Nat) - 1) % (SIZE_MAX + 1)).toNat = right.length := by
      have exact_ : (xs.length : Int) - (left.length : Nat) - 1 = right.length := by omega
      rw [exact_, Int.emod_eq_of_lt (by omega) (by omega), Int.toNat_natCast]
    have sizedAll := sized.perm all
    have sizedP : p.length = es := sizedAll p (by simp)
    have next : pre.length + m * es + es = (pre ++ left.flatten ++ p).length := by
      rw [List.length_append, List.length_append, Sized.flatten fun z member => sizedAll z (by simp [member]), sizedP, here]
    simp only [half, parted, middle, split, Option.bind_eq_bind, Option.bind_some, ni, nj, next]
    have sizedL : Sized es left := fun z member => sizedAll z (by simp [member])
    have sizedR : Sized es right := fun z member => sizedAll z (by simp [member])
    have around_ : ∀ {left' right'}, left'.Perm left → right'.Perm right → left'.Pairwise (Le cmp) → right'.Pairwise (Le cmp) →
        (left' ++ p :: right').Perm xs ∧ (left' ++ p :: right').Pairwise (Le cmp) := by
      intro left' right' permL permR sortedL sortedR
      refine ⟨(permL.append (permR.cons p)).trans all, ?_⟩
      exact pairwise_around sortedL sortedR (fun z member => below z (permL.mem_iff.mp member))
        (fun z member => above z (permR.mem_iff.mp member)) fun x y one two => total.trans x p y one two
    have lower := fun right' : List (List UInt8) => ih pre (p ++ right'.flatten ++ post) left (by omega) sizedL (by omega)
    have upper := fun left' : List (List UInt8) => ih (pre ++ left'.flatten ++ p) post right (by omega) sizedR (by omega)
    -- The smaller part comes first.
    split
    · obtain ⟨left', result, permL, sortedL⟩ := lower right
      obtain ⟨right', result', permR, sortedR⟩ := upper left'
      have same : (pre ++ left.flatten ++ p).length = (pre ++ left'.flatten ++ p).length := by
        simp [sizedL.flatten, (sizedL.perm permL).flatten, permL.length_eq]
      refine ⟨left' ++ p :: right', ?_, around_ permL permR sortedL sortedR⟩
      rw [around_lower, result, Option.bind_some, ← around_lower, around_upper, same, result', ← around_upper]
    · obtain ⟨right', result, permR, sortedR⟩ := upper left
      obtain ⟨left', result', permL, sortedL⟩ := lower right'
      refine ⟨left' ++ p :: right', ?_, around_ permL permR sortedL sortedR⟩
      rw [around_upper, result, Option.bind_some, ← around_upper, around_lower, result', ← around_lower]

end around

/-! The number of the bytes does not change. -/

section length
variable {qs : Qsort} {mem mem' : List UInt8}

theorem swapBytes_length {n : Nat} (swapped : swapBytes i j n mem = some mem') : mem'.length = mem.length := by
  induction n generalizing i j mem with
  | zero => exact congrArg List.length (Option.some.inj swapped).symm
  | succ n ih =>
    simp only [swapBytes, Option.bind_eq_bind, Option.bind_eq_some_iff] at swapped
    obtain ⟨c, -, d, -, later⟩ := swapped
    simpa using ih later

theorem part_length {a pn n pi pj pj' : Nat} (parted : qs.part a pn n pi pj mem = some (pj', mem')) : mem'.length = mem.length := by
  induction n generalizing pi pj mem with
  | zero => cases parted
  | succ n ih =>
    simp only [Qsort.part, Option.bind_eq_bind, Option.bind_eq_some_iff] at parted
    obtain ⟨pi', -, pj'', -, later⟩ := parted
    split at later
    · cases later
      rfl
    · obtain ⟨mem'', swapped, later⟩ := Option.bind_eq_some_iff.mp later
      exact (ih later).trans (swapBytes_length swapped)

theorem xqsort_length {depth a n : Nat} {junk : List Bool → Nat → Nat} (sorted : qs.xqsort depth junk a n mem = some mem') :
    mem'.length = mem.length := by
  induction depth generalizing junk a n mem mem' with
  | zero => cases sorted
  | succ depth ih =>
    unfold Qsort.xqsort at sorted
    split at sorted
    · cases sorted
      rfl
    · simp only [Option.bind_eq_bind, Option.bind_eq_some_iff] at sorted
      obtain ⟨mem₁, first, ⟨pj, mem₂⟩, parted, mem₃, second, later⟩ := sorted
      have same := (swapBytes_length second).trans ((part_length parted).trans (swapBytes_length first))
      split at later
      · obtain ⟨mem₄, one, two⟩ := Option.bind_eq_some_iff.mp later
        exact (ih two).trans ((ih one).trans same)
      · obtain ⟨mem₄, one, two⟩ := Option.bind_eq_some_iff.mp later
        exact (ih two).trans ((ih one).trans same)

/-- A part that is too large for the array is read past its end. -/
theorem xqsort_outside {depth a : Nat} {junk : List Bool → Nat → Nat} (positive : 0 < qs.es) (outside : mem.length < a + SIZE_MAX * qs.es) :
    qs.xqsort depth junk a SIZE_MAX mem = none := by
  cases depth with
  | zero => rfl
  | succ depth =>
    have large : SIZE_MAX * qs.es = (SIZE_MAX - 1) * qs.es + qs.es := Nat.succ_mul (SIZE_MAX - 1) qs.es
    have more : 0 < (SIZE_MAX - 1) * qs.es := Nat.mul_pos (by decide) positive
    unfold Qsort.xqsort
    rw [if_neg (by decide)]
    cases swapped : swap a (a + SIZE_MAX / 2 * qs.es) qs.es mem with
    | none => rfl
    | some mem' =>
      have length := swapBytes_length swapped
      have down : qs.down mem' a (SIZE_MAX + 1) (a + SIZE_MAX * qs.es) = none := by
        have above : a < a + SIZE_MAX * qs.es - qs.es := by omega
        have beyond : ¬ a + SIZE_MAX * qs.es - qs.es + qs.es ≤ mem'.length := by omega
        rw [Qsort.down, if_pos above, Qsort.compare, Qsort.element, if_neg beyond]
        rfl
      simp [Qsort.part, down]

end length

section qsort
variable {cmp : List UInt8 → List UInt8 → Int} {size : Nat} {els : List (List UInt8)}

/-- `qsort` comes back, within the array, and the elements are in order. -/
def Sorts (cmp : List UInt8 → List UInt8 → Int) (size : Nat) (els : List (List UInt8)) (junk : List Bool → Nat → Nat) : Prop :=
  ∃ (depth : Nat) (els' : List (List UInt8)), qsort depth junk els.flatten els.length size cmp = some els'.flatten ∧
    els'.Perm els ∧ els'.Pairwise fun x y => cmp x y ≤ 0

/-- With `n` in the uninitialized variable the upper part has `SIZE_MAX` elements. -/
theorem unsorted (sized : Sized size els) (several : 1 < els.length) (few : els.length ≤ SIZE_MAX) :
    ¬ Sorts cmp size els fun _ _ => els.length := by
  rintro ⟨depth, els', sorted, -⟩
  have length := sized.flatten
  unfold qsort at sorted
  cases depth with
  | zero => cases sorted
  | succ depth =>
    unfold Qsort.xqsort at sorted
    rw [if_neg (by omega)] at sorted
    simp only [Option.bind_eq_bind, Option.bind_eq_some_iff] at sorted
    obtain ⟨mem₁, first, ⟨pj, mem₂⟩, parted, mem₃, second, later⟩ := sorted
    have same := (swapBytes_length second).trans ((part_length parted).trans (swapBytes_length first))
    have positive : 0 < size := by
      rcases Nat.eq_zero_or_pos size with rfl | positive
      · obtain ⟨c, here, -⟩ : ∃ c, els.flatten[0]? = some c ∧ _ := by
          simpa [swap, swapBytes, Option.bind_eq_some_iff] using first
        rw [List.getElem?_eq_none (by omega)] at here
        cases here
      · exact positive
    have nj : (((els.length : Int) - els.length - 1) % (SIZE_MAX + 1)).toNat = SIZE_MAX := by
      rw [Int.sub_self]
      rfl
    rw [nj] at later
    have most : els.length * size ≤ SIZE_MAX * size := Nat.mul_le_mul_right size few
    have outside : ∀ {mem : List UInt8}, mem.length = els.flatten.length → mem.length < pj + size + SIZE_MAX * size := by omega
    split at later
    · obtain ⟨mem₄, lower, upper⟩ := Option.bind_eq_some_iff.mp later
      have same' := (xqsort_length lower).trans same
      rw [xqsort_outside positive (outside same')] at upper
      cases upper
    · obtain ⟨mem₄, upper, lower⟩ := Option.bind_eq_some_iff.mp later
      rw [xqsort_outside positive (outside same)] at upper
      cases upper

/-- Without a second element nothing is read from the variable; with the right number in it the elements are
sorted. -/
theorem qsort_sorts (total : TotalPreorder cmp) (sized : Sized size els) (few : els.length ≤ SIZE_MAX) :
    ((∀ junk, Sorts cmp size els junk) ↔ els.length ≤ 1) ∧ (0 < size → Sorts cmp size els fun _ ni => ni) := by
  refine ⟨⟨fun sorts => ?_, fun one junk => ?_⟩, fun positive => ?_⟩
  · by_contra several
    exact unsorted sized (Nat.not_le.mp several) few (sorts _)
  · refine ⟨1, els, if_pos one, .refl els, ?_⟩
    match els, one with
    | [], _ => exact .nil
    | [x], _ => exact List.pairwise_singleton _ x
  · obtain ⟨els', result, perm, sorted⟩ :=
      xqsort_spec [] [] els total positive (els.length + 1) (Nat.lt_succ_self _) sized few
    refine ⟨els.length + 1, els', ?_, perm, sorted⟩
    simpa [around, qsort] using result

/-- Numbers of one byte. -/
theorem byte_preorder : TotalPreorder fun x y => (x.headD 0).toNat - (y.headD 0).toNat where
  swapped := fun x y => by omega
  trans := fun x y z one two => by omega

theorem qsort_sorts_bytes : Sized 1 [[2], [1]] ∧
    Sorts (fun x y => (x.headD 0).toNat - (y.headD 0).toNat) 1 [[2], [1]] fun _ ni => ni :=
  ⟨by simp [Sized], (qsort_sorts byte_preorder (by simp [Sized]) (by decide)).2 (by decide)⟩

theorem two_unsorted : TotalPreorder (fun x y : List UInt8 => ((x.headD 0).toNat - (y.headD 0).toNat : Int)) ∧
    ¬ ∀ junk, Sorts (fun x y => (x.headD 0).toNat - (y.headD 0).toNat) 1 [[2], [1]] junk :=
  ⟨byte_preorder, fun sorts => unsorted (by simp [Sized]) (by decide) (by decide) (sorts _)⟩

end qsort
end Scc.Libc.Stdlib
