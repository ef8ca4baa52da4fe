import Mathlib.Algebra.Group.Nat.Defs
import Mathlib.Algebra.Group.Int.Defs
import Mathlib.Data.List.Infix
import Scc.Libc.String.Span

set_option linter.all false

/-! `strncmp` and `strstr` (string/strncmp.c, string/strstr.c), with what they call. A string is given with the bytes
after its NUL; what is read past the last of them has no value. -/
namespace Scc.Libc.Strings

def strncmp : Nat → List UInt8 → List UInt8 → Option Int
  | 0, _, _ => some 0
  | n + 1, a :: s1, b :: s2 => if a = b then strncmp n s1 s2 else some ((a.toNat : Int) - b.toNat)
  | _ + 1, _, _ => none

/-- The number of characters before the first one that is the given one, or a null pointer. -/
def strchr (c : UInt8) : List UInt8 → Option (Option Nat)
  | [] => none
  | a :: s => if a ≠ 0 ∧ a ≠ c then (strchr c s).map (·.map (· + 1)) else some (if a = c then some 0 else none)

def strlen : List UInt8 → Option Nat
  | [] => none
  | a :: s => if a = 0 then some 0 else (strlen s).map (· + 1)

theorem strchr_lt {c : UInt8} {s : List UInt8} {k : Nat} (found : strchr c s = some (some k)) : k < s.length := by
  induction s generalizing k with
  | nil => cases found
  | cons a s ih =>
    unfold strchr at found
    split at found
    · cases rest : strchr c s with
      | none => simp [rest] at found
      | some r =>
        cases r with
        | none => simp [rest] at found
        | some j =>
          have small := ih rest
          simp only [rest, Option.map_some, Option.some.injEq] at found
          rw [List.length_cons]
          omega
    · split at found
      · cases found
        exact Nat.zero_lt_succ _
      · cases found

/-- The loop of `strstr`, which goes on after a place where the strings differ. -/
def search (c : UInt8) (len : Nat) (s1 s2 : List UInt8) : Option (Option Nat) :=
  match _found : strchr c s1 with
  | none => none
  | some none => some none
  | some (some k) => do
    if (← strncmp len (s1.drop k) s2) = 0 then return some k
    else return (← search c len (s1.drop (k + 1)) s2).map (· + (k + 1))
termination_by s1.length
decreasing_by
  have := strchr_lt _found
  rw [List.length_drop]
  omega

/-- A length that is kept as an `int`. -/
def toInt (n : Nat) : Int := (n : Int).bmod (2 ^ 32)

/-- An `int` that is converted to a `size_t`. -/
def toSize (i : Int) : Nat := (i % 2 ^ 64).toNat

def strstr (s1 s2 : List UInt8) : Option (Option Nat) :=
  match s2.head?, strlen s2 with
  | some c, some n => if toInt n = 0 then some (some 0) else search c (toSize (toInt n)) s1 s2
  | _, _ => none

/-! ## What they are to do -/

/-- One result, whatever is after the strings, and its sign is that of the comparison of at most `n` characters. -/
def Compares (s1 s2 : CString) (n : Nat) : Prop :=
  ∃ v, (∀ x y, strncmp n (s1.bytes ++ 0 :: x) (s2.bytes ++ 0 :: y) = some v) ∧
    (v < 0 ↔ (s1.bytes ++ [0]).take n < (s2.bytes ++ [0]).take n) ∧
    (v = 0 ↔ (s1.bytes ++ [0]).take n = (s2.bytes ++ [0]).take n)

/-- The first place at which a word occurs in a text, if there is one. -/
def First (word text : List UInt8) : Option Nat → Prop
  | none => ∀ p, ¬word <+: text.drop p
  | some p => word <+: text.drop p ∧ ∀ q < p, ¬word <+: text.drop q

def Finds (s1 s2 : CString) : Prop :=
  ∃ p, (∀ x y, strstr (s1.bytes ++ 0 :: x) (s2.bytes ++ 0 :: y) = some p) ∧ First s2.bytes s1.bytes p

/-! ## Comparison -/

variable {s t x y : List UInt8} {n m : Nat}

/-- Different characters end the comparison. -/
theorem strncmp_differ {a b : UInt8} (differ : a ≠ b) (n : Nat) (s t : List UInt8) :
    ((a.toNat : Int) - b.toNat < 0 ↔ (a :: s).take (n + 1) < (b :: t).take (n + 1)) ∧
      ((a.toNat : Int) - b.toNat = 0 ↔ (a :: s).take (n + 1) = (b :: t).take (n + 1)) := by
  have other : a.toNat ≠ b.toNat := fun same => differ (UInt8.toNat_inj.mp same)
  rw [List.take_succ_cons, List.take_succ_cons, List.cons_lt_cons_iff, UInt8.lt_iff_toNat_lt]
  refine ⟨⟨fun less => .inl (by omega), fun either => ?_⟩, fun same => by omega, fun same => absurd (List.cons.inj same).1 differ⟩
  rcases either with less | ⟨same, -⟩
  · omega
  · exact absurd same differ

theorem strncmp_signs (nonzero : ∀ c ∈ s, c ≠ 0) (nonzero' : ∀ c ∈ t, c ≠ 0) (apart : s ≠ t ∨ n ≤ s.length + 1) :
    ∃ v, (∀ x y, strncmp n (s ++ 0 :: x) (t ++ 0 :: y) = some v) ∧
      (v < 0 ↔ (s ++ [0]).take n < (t ++ [0]).take n) ∧ (v = 0 ↔ (s ++ [0]).take n = (t ++ [0]).take n) := by
  induction n generalizing s t with
  | zero => exact ⟨0, fun _ _ => rfl, by simp, by simp⟩
  | succ n ih =>
    cases s with
    | nil =>
      cases t with
      | nil =>
        have last : n = 0 := by simpa using apart.resolve_left fun other => other rfl
        subst last
        exact ⟨0, fun _ _ => rfl, by simp, by simp⟩
      | cons b t =>
        have differ : 0 ≠ b := (nonzero' b List.mem_cons_self).symm
        refine ⟨_, fun x y => if_neg differ, ?_⟩
        rw [List.nil_append, List.cons_append]
        exact strncmp_differ differ n [] (t ++ [0])
    | cons a s =>
      cases t with
      | nil =>
        have differ : a ≠ 0 := nonzero a List.mem_cons_self
        refine ⟨_, fun x y => if_neg differ, ?_⟩
        rw [List.nil_append, List.cons_append]
        exact strncmp_differ differ n (s ++ [0]) []
      | cons b t =>
        by_cases same : a = b
        · subst same
          obtain ⟨v, run, less, equal⟩ := ih (fun c member => nonzero c (List.mem_cons_of_mem _ member))
            (fun c member => nonzero' c (List.mem_cons_of_mem _ member)) (by simpa using apart)
          refine ⟨v, fun x y => (if_pos rfl).trans (run x y), less.trans ?_, equal.trans ?_⟩
          · simp
          · simp
        · refine ⟨_, fun x y => if_neg same, ?_⟩
          rw [List.cons_append, List.cons_append]
          exact strncmp_differ same n (s ++ [0]) (t ++ [0])

/-- Past equal terminators, the bytes after them are compared. -/
theorem strncmp_past (s : List UInt8) (longer : s.length + 1 < n) (a b : UInt8) (differ : a ≠ b) :
    strncmp n (s ++ [0, a]) (s ++ [0, b]) = some ((a.toNat : Int) - b.toNat) := by
  induction s generalizing n with
  | nil =>
    obtain ⟨n, rfl⟩ : ∃ k, n = k + 2 := ⟨n - 2, by simp at longer; omega⟩
    exact if_neg differ
  | cons c s ih =>
    obtain ⟨n, rfl⟩ : ∃ k, n = k + 1 := ⟨n - 1, by simp at longer; omega⟩
    exact (if_pos rfl).trans (ih (by simpa using longer))

/-- The comparison is right exactly where the strings differ or it ends with their terminators. -/
theorem compares_iff (s1 s2 : CString) (n : Nat) : Compares s1 s2 n ↔ s1.bytes ≠ s2.bytes ∨ n ≤ s1.bytes.length + 1 := by
  refine ⟨fun compares => ?_, fun apart => strncmp_signs s1.nonzero s2.nonzero apart⟩
  by_contra past
  obtain ⟨same, longer⟩ := not_or.mp past
  obtain ⟨v, run, -⟩ := compares
  have less := run [1] [2]
  have more := run [2] [1]
  rw [← not_not.mp same] at less more
  have below := (strncmp_past s1.bytes (Nat.not_le.mp longer) 1 2 (by decide)).symm.trans less
  have above := (strncmp_past s1.bytes (Nat.not_le.mp longer) 2 1 (by decide)).symm.trans more
  simp at below above
  omega

/-! ## Search -/

/-- A comparison of no more characters than the second string has is a test for a prefix. -/
theorem strncmp_prefix (nonzero : ∀ c ∈ t, c ≠ 0) (within : m ≤ t.length) :
    ∃ v, (∀ x y, strncmp m (s ++ 0 :: x) (t ++ 0 :: y) = some v) ∧ (v = 0 ↔ t.take m <+: s) := by
  induction m generalizing s t with
  | zero => exact ⟨0, fun _ _ => rfl, by simp⟩
  | succ m ih =>
    obtain ⟨b, t, rfl⟩ := List.exists_cons_of_length_pos (Nat.lt_of_lt_of_le (Nat.succ_pos m) within)
    have positive : b ≠ 0 := nonzero b List.mem_cons_self
    cases s with
    | nil =>
      refine ⟨_, fun x y => if_neg positive.symm, ?_⟩
      have other : b.toNat ≠ 0 := fun zero => positive (UInt8.toNat_inj.mp zero)
      simp
      omega
    | cons a s =>
      by_cases same : a = b
      · subst same
        obtain ⟨v, run, equal⟩ := ih (s := s) (fun c member => nonzero c (List.mem_cons_of_mem _ member)) (by simpa using within)
        refine ⟨v, fun x y => (if_pos rfl).trans (run x y), equal.trans ?_⟩
        simp
      · refine ⟨_, fun x y => if_neg same, ?_⟩
        have other : a.toNat ≠ b.toNat := fun h => same (UInt8.toNat_inj.mp h)
        have apart : ¬(b = a) := fun h => same h.symm
        simp [apart]
        omega

theorem strchr_found {c : UInt8} (nonzero : ∀ a ∈ s, a ≠ 0) (positive : c ≠ 0) :
    c ∉ s ∧ (∀ x, strchr c (s ++ 0 :: x) = some none) ∨
      ∃ u v, s = u ++ c :: v ∧ c ∉ u ∧ ∀ x, strchr c (s ++ 0 :: x) = some (some u.length) := by
  induction s with
  | nil => exact .inl ⟨List.not_mem_nil, fun x => by simp [strchr, positive.symm]⟩
  | cons a s ih =>
    have first : a ≠ 0 := nonzero a List.mem_cons_self
    by_cases same : a = c
    · subst same
      exact .inr ⟨[], s, rfl, List.not_mem_nil, fun x => by simp [strchr]⟩
    · have passed : ∀ x, strchr c (a :: s ++ 0 :: x) = (strchr c (s ++ 0 :: x)).map (·.map (· + 1)) :=
        fun x => if_pos ⟨first, same⟩
      rcases ih fun b member => nonzero b (List.mem_cons_of_mem _ member) with ⟨none, run⟩ | ⟨u, v, rfl, none, run⟩
      · exact .inl ⟨by simp [none, Ne.symm same], fun x => by rw [passed, run]; rfl⟩
      · exact .inr ⟨a :: u, v, rfl, by simp [none, Ne.symm same], fun x => by rw [passed, run]; rfl⟩

theorem search_null {c : UInt8} (gone : strchr c x = some none) : search c m x y = some none := by
  unfold search
  split <;> simp_all

theorem search_hit {c : UInt8} {k : Nat} {v : Int} (found : strchr c x = some (some k)) (compared : strncmp m (x.drop k) y = some v) :
    search c m x y = if v = 0 then some (some k) else (search c m (x.drop (k + 1)) y).map (·.map (· + (k + 1))) := by
  conv_lhs => unfold search
  split
  · simp_all
  · simp_all
  · rename_i place
    cases Option.some.inj (Option.some.inj (place.symm.trans found))
    rw [compared]
    by_cases zero : v = 0
    · simp [zero]
    · simp [zero]
      cases search c m (x.drop (k + 1)) y <;> rfl

/-- Before the first character of a word there is no place for it. -/
theorem First.later {c : UInt8} {w u v : List UInt8} {r : Option Nat} (none : c ∉ u) (here : ¬(c :: w) <+: c :: v)
    (later : First (c :: w) v r) : First (c :: w) (u ++ c :: v) (r.map (· + (u.length + 1))) := by
  have early : ∀ q ≤ u.length, ¬(c :: w) <+: (u ++ c :: v).drop q := by
    intro q low occurs
    rcases Nat.lt_or_eq_of_le low with before | rfl
    · rw [List.drop_append_of_le_length low, List.drop_eq_getElem_cons before] at occurs
      obtain ⟨rest, parts⟩ := occurs
      exact none ((List.cons.inj parts).1 ▸ List.getElem_mem before)
    · rw [List.drop_left] at occurs
      exact here occurs
  have shift : ∀ q, (u ++ c :: v).drop (q + (u.length + 1)) = v.drop q := by
    intro q
    rw [Nat.add_comm, ← List.drop_drop, List.append_cons]
    congr 1
    have size : u.length + 1 = (u ++ [c]).length := by simp
    rw [size, List.drop_left]
  have late : ∀ q, ¬(c :: w) <+: v.drop q → ¬(c :: w) <+: (u ++ c :: v).drop (q + (u.length + 1)) := by
    intro q gone
    rwa [shift]
  cases r with
  | none =>
    intro p occurs
    by_cases low : p ≤ u.length
    · exact early p low occurs
    · apply late (p - (u.length + 1)) (later _)
      rwa [Nat.sub_add_cancel (by omega)]
  | some p =>
    refine ⟨?_, fun q small occurs => ?_⟩
    · rw [shift]
      exact later.1
    · by_cases low : q ≤ u.length
      · exact early q low occurs
      · dsimp only at small
        apply late (q - (u.length + 1)) (later.2 _ (by omega))
        rwa [Nat.sub_add_cancel (by omega)]

/-- The loop finds the first place of the characters that are compared. -/
theorem search_first {c : UInt8} (nonzero : ∀ a ∈ c :: t, a ≠ 0) (within : m ≤ t.length) (s : List UInt8)
    (nonzero' : ∀ a ∈ s, a ≠ 0) :
    ∃ p, (∀ x y, search c (m + 1) (s ++ 0 :: x) (c :: t ++ 0 :: y) = some p) ∧ First (c :: t.take m) s p := by
  induction size : s.length using Nat.strongRecOn generalizing s with
  | ind n ih =>
    rcases strchr_found nonzero' (nonzero c List.mem_cons_self) with ⟨none, run⟩ | ⟨u, v, rfl, none, run⟩
    · refine ⟨Option.none, fun x y => search_null (run x), fun p occurs => ?_⟩
      exact none (List.mem_of_mem_drop (occurs.subset List.mem_cons_self))
    · have inside : ∀ a ∈ v, a ≠ 0 := fun a member => nonzero' a (by simp [member])
      obtain ⟨w, compared, equal⟩ := strncmp_prefix (s := c :: v) nonzero (m := m + 1) (by simpa using within)
      have hit : ∀ x y, search c (m + 1) (u ++ c :: v ++ 0 :: x) (c :: t ++ 0 :: y) =
          if w = 0 then some (some u.length)
          else (search c (m + 1) (v ++ 0 :: x) (c :: t ++ 0 :: y)).map (·.map (· + (u.length + 1))) := by
        intro x y
        have here : (u ++ c :: v ++ 0 :: x).drop u.length = c :: v ++ 0 :: x := by
          rw [List.append_assoc, List.drop_left]
        have next : (u ++ c :: v ++ 0 :: x).drop (u.length + 1) = v ++ 0 :: x := by
          rw [← List.drop_drop, here]
          rfl
        rw [search_hit (run x) (here ▸ compared x y), next]
      by_cases zero : w = 0
      · refine ⟨some u.length, fun x y => (hit x y).trans (if_pos zero), ?_, fun q small occurs => ?_⟩
        · rw [List.drop_left]
          exact equal.mp zero
        · rw [List.drop_append_of_le_length (Nat.le_of_lt small), List.drop_eq_getElem_cons small] at occurs
          obtain ⟨rest, parts⟩ := occurs
          exact none ((List.cons.inj parts).1 ▸ List.getElem_mem small)
      · obtain ⟨p, found, first⟩ := ih v.length (by rw [← size]; simp; omega) v inside rfl
        refine ⟨p.map (· + (u.length + 1)), fun x y => ?_, first.later none fun occurs => zero (equal.mpr occurs)⟩
        rw [hit, if_neg zero, found]
        rfl

theorem strlen_eq (nonzero : ∀ c ∈ s, c ≠ 0) : strlen (s ++ 0 :: x) = some s.length := by
  induction s with
  | nil => rfl
  | cons a s ih =>
    have rest := ih fun b member => nonzero b (List.mem_cons_of_mem _ member)
    simp [strlen, nonzero a List.mem_cons_self, rest]

/-- A length that is an `int` is that of the comparisons. -/
theorem strstr_search {c : UInt8} {k : Nat} (head : y.head? = some c) (length : strlen y = some (k + 1)) (short : k + 1 < 2 ^ 31) :
    strstr x y = search c (k + 1) x y := by
  have whole : toInt (k + 1) = (k + 1 : Nat) := Int.bmod_eq_of_le (by omega) (by omega)
  have size : toSize (k + 1 : Nat) = k + 1 := by
    unfold toSize
    omega
  have other : ((k + 1 : Nat) : Int) ≠ 0 := by omega
  unfold strstr
  rw [head, length]
  dsimp only
  rw [whole, if_neg other, size]

theorem strstr_first (s1 s2 : CString) (short : s2.bytes.length < 2 ^ 31) : Finds s1 s2 := by
  obtain ⟨word, nonzero⟩ := s2
  cases word with
  | nil => exact ⟨some 0, fun x y => rfl, List.nil_prefix, fun q small => absurd small (Nat.not_lt_zero q)⟩
  | cons c t =>
    obtain ⟨p, found, first⟩ := search_first nonzero (Nat.le_refl _) s1.bytes s1.nonzero
    rw [List.take_length] at first
    exact ⟨p, fun x y => (strstr_search rfl (strlen_eq nonzero) short).trans (found x y), first⟩

/-- `strncmp` is right exactly where the strings differ or the comparison ends with their terminators; `strstr` finds every
word whose length is an `int`. -/
theorem strncmp_iff (s1 s2 : CString) (n : Nat) :
    (Compares s1 s2 n ↔ s1.bytes ≠ s2.bytes ∨ n ≤ s1.bytes.length + 1) ∧ (s2.bytes.length < 2 ^ 31 → Finds s1 s2) :=
  ⟨compares_iff s1 s2 n, strstr_first s1 s2⟩

theorem strncmp_short : Finds ⟨[97, 98, 99], by simp⟩ ⟨[98, 99], by simp⟩ :=
  (strncmp_iff ⟨[97, 98, 99], by simp⟩ ⟨[98, 99], by simp⟩ 0).2 (by decide)

/-- Four characters of two strings that are both `"a"`. -/
theorem terminators_passed : ¬Compares ⟨[97], by simp⟩ ⟨[97], by simp⟩ 4 := by
  rintro ⟨v, run, -⟩
  have less : some (-1 : Int) = some v := run [98, 0] [99, 0]
  have more : some (1 : Int) = some v := run [99, 0] [98, 0]
  rw [← more] at less
  cases less

end Scc.Libc.Strings
