import Mathlib.Data.List.TakeDrop

set_option linter.all false

/-! `strspn` and `strcspn` (string/strspn.c, string/strcspn.c). Both mark the characters of a set in a map that is
indexed by them; an index outside of the map has no value. -/
namespace Scc.Libc.Strings

/-- The characters of a string before its NUL. -/
structure CString where
  bytes : List UInt8
  nonzero : ∀ c ∈ bytes, c ≠ 0

/-- The same for all the machines in include/bits. -/
def NUMCHARS : Nat := 128

/-- The first loop, which sets the entries of a set of characters. -/
def mark : List UInt8 → List Bool → Option (List Bool)
  | [], map => some map
  | ch :: set, map => if ch.toNat < map.length then mark set (map.set ch.toNat true) else none

/-- The second loop, which counts the characters whose entry is the given one. -/
def count (entry : Bool) (map : List Bool) : List UInt8 → Option Nat
  | [] => none
  | ch :: s =>
    if ch = 0 then some 0
    else do
      if (← map[ch.toNat]?) = entry then return (← count entry map s) + 1
      else return 0

/-- What both compute. -/
def span (entry : Bool) (s1 : List UInt8) (s2 : CString) : Option Nat := do
  count entry (← mark s2.bytes (List.replicate NUMCHARS false)) s1

def strspn : List UInt8 → CString → Option Nat := span true

def strcspn : List UInt8 → CString → Option Nat := span false

/-- An index of the map. -/
def Covered (c : UInt8) : Prop := c.toNat < NUMCHARS

instance (c : UInt8) : Decidable (Covered c) := inferInstanceAs (Decidable (_ < _))

variable {set text rest : List UInt8} {map : List Bool} {entry : Bool}

theorem mark_length {map' : List Bool} (marked : mark set map = some map') : map'.length = map.length := by
  induction set generalizing map with
  | nil => exact congrArg List.length (Option.some.inj marked).symm
  | cons ch set ih =>
    unfold mark at marked
    split at marked
    · exact (ih marked).trans List.length_set
    · cases marked

theorem mark_entry {map' : List Bool} (marked : mark set map = some map') {c : Nat} (inside : c < map.length) :
    map'[c]? = some (map.getD c false || decide (c ∈ set.map UInt8.toNat)) := by
  induction set generalizing map with
  | nil =>
    cases marked
    simp [inside]
  | cons ch set ih =>
    unfold mark at marked
    split at marked
    · rename_i inside'
      have later := ih marked (by simpa using inside)
      rw [later]
      by_cases same : ch.toNat = c
      · subst same
        simp [inside']
      · have other : c ≠ ch.toNat := fun h => same h.symm
        simp [List.getElem?_set_ne same, other]
    · cases marked

theorem mark_some (covered : ∀ c ∈ set, c.toNat < map.length) : ∃ map', mark set map = some map' := by
  induction set generalizing map with
  | nil => exact ⟨map, rfl⟩
  | cons ch set ih =>
    unfold mark
    rw [if_pos (covered ch List.mem_cons_self)]
    apply ih
    intro c member
    rw [List.length_set]
    exact covered c (List.mem_cons_of_mem _ member)

theorem mark_none (wide : ¬∀ c ∈ set, c.toNat < map.length) : mark set map = none := by
  induction set generalizing map with
  | nil => exact absurd (fun c member => nomatch member) wide
  | cons ch set ih =>
    unfold mark
    split
    · rename_i inside
      apply ih
      rw [List.length_set]
      exact fun all => wide fun c member => (List.mem_cons.mp member).elim (fun same => same ▸ inside) (all c)
    · rfl

/-- The characters that a span looks at: those that belong to it, and the next one. -/
def looked (p : UInt8 → Bool) (text : List UInt8) : List UInt8 := text.takeWhile p ++ (text.dropWhile p).take 1

theorem looked_cons (p : UInt8 → Bool) (c : UInt8) (text : List UInt8) :
    looked p (c :: text) = if p c then c :: looked p text else [c] := by
  unfold looked
  cases h : p c <;> simp [h]

/-- The loop counts the characters of a span, if the map has an index for each of them and the next one. -/
theorem count_inside {has : UInt8 → Bool} (nonzero : ∀ c ∈ text, c ≠ 0) (marks : ∀ c, Covered c → map[c.toNat]? = some (has c))
    (inside : ∀ c ∈ looked (has · == entry) text, Covered c) :
    count entry map (text ++ 0 :: rest) = some (text.takeWhile (has · == entry)).length := by
  induction text with
  | nil => simp [count]
  | cons c text ih =>
    have other : c ≠ 0 := nonzero c List.mem_cons_self
    rw [looked_cons] at inside
    rw [List.cons_append, count, if_neg other]
    by_cases same : has c = entry
    · simp only [same, beq_self_eq_true, if_true, List.forall_mem_cons] at inside
      have later := ih (fun c member => nonzero c (List.mem_cons_of_mem _ member)) inside.2
      simp [marks c inside.1, same, later]
    · have covered : Covered c := by simpa [same] using inside
      simp [marks c covered, same]

theorem count_outside {has : UInt8 → Bool} (nonzero : ∀ c ∈ text, c ≠ 0) (size : map.length = NUMCHARS)
    (marks : ∀ c, Covered c → map[c.toNat]? = some (has c)) (outside : ¬∀ c ∈ looked (has · == entry) text, Covered c) :
    count entry map (text ++ 0 :: rest) = none := by
  induction text with
  | nil => exact absurd (fun c member => by simp [looked] at member) outside
  | cons c text ih =>
    have other : c ≠ 0 := nonzero c List.mem_cons_self
    rw [looked_cons] at outside
    rw [List.cons_append, count, if_neg other]
    by_cases covered : Covered c
    · by_cases same : has c = entry
      · have later : ¬∀ c ∈ looked (has · == entry) text, Covered c := by simpa [same, covered] using outside
        simp [marks c covered, same, ih (fun c member => nonzero c (List.mem_cons_of_mem _ member)) later]
      · exact absurd (by simpa [same] using covered) outside
    · have none : map[c.toNat]? = none := by
        rw [List.getElem?_eq_none_iff, size]
        exact Nat.not_lt.mp covered
      rw [none]
      rfl

namespace CString
variable (set : CString)

def has (c : UInt8) : Bool := c ∈ set.bytes

/-- The map that is made of the set, if each of its characters is an index. -/
theorem marked (covered : ∀ c ∈ set.bytes, Covered c) :
    ∃ map, mark set.bytes (List.replicate NUMCHARS false) = some map ∧ map.length = NUMCHARS ∧
      ∀ c, Covered c → map[c.toNat]? = some (set.has c) := by
  have size : (List.replicate NUMCHARS false).length = NUMCHARS := List.length_replicate
  have inside : ∀ c, Covered c → c.toNat < (List.replicate NUMCHARS false).length := by
    intro c covered
    rw [size]
    exact covered
  obtain ⟨map, found⟩ := mark_some fun c member => inside c (covered c member)
  refine ⟨map, found, (mark_length found).trans size, fun c within => ?_⟩
  have clear : (List.replicate NUMCHARS false).getD c.toNat false = false := by
    rw [List.getD_eq_getElem?_getD, List.getElem?_replicate]
    split <;> rfl
  have same : c.toNat ∈ set.bytes.map UInt8.toNat ↔ c ∈ set.bytes := by simp [UInt8.toNat_inj]
  rw [mark_entry found (inside c within), clear, Bool.false_or]
  exact congrArg some (decide_eq_decide.mpr same)

/-- The characters that a span of a text looks at are indices of the map, those of the set included. -/
def Inside (entry : Bool) (text : List UInt8) : Prop :=
  (∀ c ∈ set.bytes, Covered c) ∧ ∀ c ∈ looked (set.has · == entry) text, Covered c

end CString

variable {set : CString}

theorem span_inside (nonzero : ∀ c ∈ text, c ≠ 0) (inside : set.Inside entry text) :
    span entry (text ++ 0 :: rest) set = some (text.takeWhile (set.has · == entry)).length := by
  obtain ⟨map, found, -, entries⟩ := set.marked inside.1
  unfold span
  rw [found]
  exact count_inside nonzero entries inside.2

theorem span_outside (nonzero : ∀ c ∈ text, c ≠ 0) (outside : ¬set.Inside entry text) :
    span entry (text ++ 0 :: rest) set = none := by
  unfold span
  by_cases covered : ∀ c ∈ set.bytes, Covered c
  · obtain ⟨map, found, size, entries⟩ := set.marked covered
    rw [found]
    exact count_outside nonzero size entries fun all => outside ⟨covered, all⟩
  · rw [mark_none covered]
    rfl

end Scc.Libc.Strings
