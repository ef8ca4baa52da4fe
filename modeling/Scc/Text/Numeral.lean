import Mathlib.Data.Nat.Digits.Lemmas

set_option linter.all false

/-! Numerals in a base, most significant digit first: printing and reading them back.
The characters of the digits are arbitrary. -/
namespace Scc.Text
variable {α : Type}

/-- The value of a sequence of digits. -/
def readDigits (base : Nat) (value : α → Nat) (digits : List α) : Nat :=
  digits.foldl (fun v c => v * base + value c) 0

/-- Zero has one digit. -/
def numeral (base : Nat) (digit : Nat → α) (n : Nat) : List α :=
  if n = 0 then [digit 0] else (base.digits n).reverse.map digit

theorem numeral_ne_nil (base : Nat) (digit : Nat → α) (n : Nat) : numeral base digit n ≠ [] := by
  unfold numeral
  split
  · exact List.cons_ne_nil _ _
  · rename_i nonzero
    simpa using Nat.digits_ne_nil_iff_ne_zero.mpr nonzero

theorem mem_numeral {base n : Nat} {digit : Nat → α} {c : α} (positive : 1 < base)
    (member : c ∈ numeral base digit n) : ∃ d < base, digit d = c := by
  unfold numeral at member
  split at member
  · exact ⟨0, Nat.zero_lt_of_lt positive, (List.mem_singleton.mp member).symm⟩
  · obtain ⟨d, among, rfl⟩ := List.mem_map.mp member
    exact ⟨d, Nat.digits_lt_base positive (List.mem_reverse.mp among), rfl⟩

theorem numeral_of_lt {base n : Nat} {digit : Nat → α} (less : n < base) : numeral base digit n = [digit n] := by
  unfold numeral
  split
  · rename_i zero
    rw [zero]
  · rename_i nonzero
    rw [Nat.digits_of_lt base n nonzero less]
    rfl

theorem numeral_of_le {base n : Nat} {digit : Nat → α} (positive : 1 < base) (le : base ≤ n) :
    numeral base digit n = numeral base digit (n / base) ++ [digit (n % base)] := by
  have nonzero : n ≠ 0 := by omega
  have more : n / base ≠ 0 := Nat.ne_of_gt (Nat.div_pos le (by omega))
  unfold numeral
  rw [if_neg nonzero, if_neg more, Nat.digits_def' positive (Nat.pos_of_ne_zero nonzero), List.reverse_cons, List.map_append]
  rfl

/-- The first digit of a number is not 0. -/
theorem numeral_head {base n : Nat} (positive : 1 < base) (digit : Nat → α) (nonzero : n ≠ 0) :
    ∃ d rest, 0 < d ∧ d < base ∧ numeral base digit n = digit d :: rest := by
  induction n using Nat.strongRecOn with
  | ind n ih =>
    by_cases less : n < base
    · exact ⟨n, [], Nat.pos_of_ne_zero nonzero, less, numeral_of_lt less⟩
    · have le : base ≤ n := Nat.le_of_not_lt less
      have more : n / base ≠ 0 := Nat.ne_of_gt (Nat.div_pos le (by omega))
      obtain ⟨d, rest, some, small, same⟩ := ih _ (Nat.div_lt_self (Nat.pos_of_ne_zero nonzero) positive) more
      refine ⟨d, rest ++ [digit (n % base)], some, small, ?_⟩
      rw [numeral_of_le positive le, same]
      rfl

theorem numeral_length_le {base k n : Nat} (positive : 1 < base) (digit : Nat → α)
    (small : n < base ^ (k + 1)) : (numeral base digit n).length ≤ k + 1 := by
  unfold numeral
  split
  · simp
  · simpa using (Nat.digits_length_le_iff positive n).mpr small

variable {base : Nat} {digit : Nat → α} {value : α → Nat}

theorem readDigits_map (inverse : ∀ d < base, value (digit d) = d) {ds : List Nat}
    (small : ∀ d ∈ ds, d < base) :
    readDigits base value (ds.map digit) = Nat.ofDigits base ds.reverse := by
  rw [Nat.ofDigits_eq_foldr, List.foldr_reverse, readDigits, List.foldl_map]
  have step : ∀ (ds : List Nat) (v : Nat), (∀ d ∈ ds, d < base) →
      ds.foldl (fun v d => v * base + value (digit d)) v =
        ds.foldl (fun v d => (d : Nat) + base * v) v := by
    intro ds
    induction ds with
    | nil => intros; rfl
    | cons d ds ih =>
      intro v small
      simp only [List.foldl_cons, inverse d (small d List.mem_cons_self)]
      rw [ih _ fun e later => small e (List.mem_cons_of_mem d later), Nat.add_comm, Nat.mul_comm]
  simpa using step ds 0 small

theorem readDigits_numeral (positive : 1 < base) (inverse : ∀ d < base, value (digit d) = d)
    (n : Nat) : readDigits base value (numeral base digit n) = n := by
  unfold numeral
  split
  · rename_i zero
    simp [readDigits, inverse 0 (Nat.zero_lt_of_lt positive), zero]
  · have small : ∀ d ∈ (base.digits n).reverse, d < base := fun d among =>
      Nat.digits_lt_base positive (List.mem_reverse.mp among)
    rw [readDigits_map inverse small, List.reverse_reverse, Nat.ofDigits_digits]

end Scc.Text
