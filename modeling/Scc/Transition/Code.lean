import Mathlib.Data.List.Basic
import Mathlib.Data.List.Nodup

set_option linter.all false

/-! Code with symbolic labels, addressed by the suffix that starts at the label. -/
namespace Scc.Transition
variable {α L : Type}

def labels (labelOf : α → Option L) (code : List α) : List L := code.filterMap labelOf

@[simp] theorem labels_nil {labelOf : α → Option L} : labels labelOf [] = [] := rfl

@[simp] theorem labels_cons {labelOf : α → Option L} (x : α) (rest : List α) :
    labels labelOf (x :: rest) = (labelOf x).toList ++ labels labelOf rest := by
  cases here : labelOf x <;> simp [labels, here]

@[simp] theorem labels_append {labelOf : α → Option L} (first second : List α) :
    labels labelOf (first ++ second) = labels labelOf first ++ labels labelOf second :=
  List.filterMap_append

/-- Code that starts with an item which the first part does not have starts in the second part. -/
theorem suffix_of_notMem {x : α} {first code rest : List α} (absent : x ∉ first) (position : x :: code <:+ first ++ rest) :
    x :: code <:+ rest := by
  induction first with
  | nil => exact position
  | cons y first ih =>
    obtain ⟨other, absent⟩ := not_or.mp (mt List.mem_cons.mpr absent)
    rcases List.suffix_cons_iff.mp position with here | later
    · exact absurd (List.cons.inj here).1 other
    · exact ih absent later

section Seek
variable [DecidableEq L]

/-- The code from the item that defines the label on. -/
def seek (labelOf : α → Option L) (l : L) : List α → Option (List α)
  | [] => none
  | x :: rest => if labelOf x = some l then some (x :: rest) else seek labelOf l rest

variable {labelOf : α → Option L}

theorem seek_suffix {l : L} {code found : List α} (seeks : seek labelOf l code = some found) :
    found <:+ code := by
  induction code with
  | nil => cases seeks
  | cons x rest ih =>
    simp only [seek] at seeks
    split at seeks
    · cases seeks
      exact List.suffix_refl _
    · exact (ih seeks).trans (List.suffix_cons _ _)

theorem seek_head {l : L} {code found : List α} (seeks : seek labelOf l code = some found) :
    ∃ x rest, found = x :: rest ∧ labelOf x = some l := by
  induction code with
  | nil => cases seeks
  | cons x rest ih =>
    simp only [seek] at seeks
    split at seeks
    · cases seeks
      exact ⟨x, rest, rfl, ‹_›⟩
    · exact ih seeks

theorem seek_isSome {l : L} {code : List α} :
    (seek labelOf l code).isSome ↔ l ∈ labels labelOf code := by
  induction code with
  | nil => simp [seek, labels]
  | cons x rest ih =>
    simp only [seek]
    split
    · rename_i here
      simp [labels, List.filterMap_cons_some here]
    · rename_i other
      rw [ih]
      cases here : labelOf x with
      | none => simp [labels, List.filterMap_cons_none here]
      | some l' =>
        have different : l ≠ l' := fun same => other (same ▸ here)
        simp [labels, List.filterMap_cons_some here, different]

theorem seek_append_of_notMem {l : L} {before code : List α} (absent : l ∉ labels labelOf before) :
    seek labelOf l (before ++ code) = seek labelOf l code := by
  induction before with
  | nil => rfl
  | cons x rest ih =>
    have other : labelOf x ≠ some l := by
      intro here
      exact absent (by simp [labels, List.filterMap_cons_some here])
    have absent' : l ∉ labels labelOf rest := by
      intro later
      refine absent ?_
      cases here : labelOf x with
      | none => simpa [labels, List.filterMap_cons_none here] using later
      | some l' => simpa [labels, List.filterMap_cons_some here] using Or.inr later
    rw [List.cons_append, seek, if_neg other, ih absent']

/-- Where labels are defined once, a label is found at the only item that defines it. -/
theorem seek_of_suffix {l : L} {x : α} {code rest : List α} (unique : (labels labelOf code).Nodup)
    (position : x :: rest <:+ code) (here : labelOf x = some l) :
    seek labelOf l code = some (x :: rest) := by
  obtain ⟨before, rfl⟩ := position
  have absent : l ∉ labels labelOf before := by
    intro earlier
    rw [labels_append] at unique
    refine List.disjoint_of_nodup_append unique earlier ?_
    simp [labels, List.filterMap_cons_some here]
  rw [seek_append_of_notMem absent, seek, if_pos here]

end Seek
end Scc.Transition

/-! Generators of code with symbolic labels. A generator emits items in order, takes numbers for new
labels and may give up; its code defines each of the labels that it took at most once. -/
namespace Scc.Transition

/-- From the last number taken to a result, the code and the last number taken after it. -/
def Gen (I α : Type) := Nat → Option (α × List I × Nat)

namespace Gen
variable {I L α β : Type}

instance : Monad (Gen I) where
  pure a := fun num => some (a, [], num)
  bind g k := fun num => (g num).bind fun r => (k r.1 r.2.2).map fun q => (q.1, r.2.1 ++ q.2.1, q.2.2)

def fail : Gen I α := fun _ => none

def emit (i : I) : Gen I Unit := fun num => some ((), [i], num)

def number : Gen I Nat := fun num => some (num + 1, [], num + 1)

def ofOption : Option α → Gen I α
  | some a => pure a
  | none => fail

def check (p : Prop) [Decidable p] : Gen I Unit := if p then pure () else fail

/-- One generator for each element, in order. -/
def each (g : α → Gen I β) : List α → Gen I (List β)
  | [] => pure []
  | a :: rest => do
    let b ← g a
    let others ← each g rest
    return b :: others

theorem pure_some {a b : α} {num last : Nat} {code : List I} (run : (pure a : Gen I α) num = some (b, code, last)) :
    b = a ∧ code = [] ∧ last = num := by
  cases run
  exact ⟨rfl, rfl, rfl⟩

theorem bind_some {g : Gen I α} {k : α → Gen I β} {b : β} {num last : Nat} {code : List I}
    (run : (g >>= k) num = some (b, code, last)) :
    ∃ a mid first second, g num = some (a, first, mid) ∧ k a mid = some (b, second, last) ∧ code = first ++ second := by
  obtain ⟨⟨a, first, mid⟩, one, rest⟩ := Option.bind_eq_some_iff.mp run
  obtain ⟨⟨b', second, last'⟩, two, same⟩ := Option.map_eq_some_iff.mp rest
  cases same
  exact ⟨a, mid, first, second, one, two, rfl⟩

theorem pure_bind (a : α) (k : α → Gen I β) : pure a >>= k = k a := by
  funext num
  exact Option.map_id'

end Gen

section Labels
variable {I L α β : Type} {labelOf : I → Option L} {name : Nat → L}

/-- The labels of the code are the given ones and ones with numbers after `num` up to `last`; each of
these is defined once. -/
structure Defines (labelOf : I → Option L) (name : Nat → L) (given : List L) (num last : Nat) (code : List I) : Prop where
  le : num ≤ last
  own : ∃ taken : List Nat, (labels labelOf code).Perm (given ++ taken.map name) ∧ taken.Nodup ∧
    ∀ n ∈ taken, num < n ∧ n ≤ last

namespace Defines
variable {given more : List L} {num mid last : Nat} {first second code : List I}

theorem plain (le : num ≤ last) (none : labels labelOf code = []) : Defines labelOf name [] num last code where
  le := le
  own := ⟨[], by simp [none], List.nodup_nil, nofun⟩

theorem label {i : I} {l : L} (here : labelOf i = some l) : Defines labelOf name [l] num num [i] where
  le := Nat.le_refl num
  own := ⟨[], by simp [here], List.nodup_nil, nofun⟩

theorem append (one : Defines labelOf name given num mid first) (two : Defines labelOf name more mid last second) :
    Defines labelOf name (given ++ more) num last (first ++ second) := by
  obtain ⟨early, perm₁, nodup₁, range₁⟩ := one.own
  obtain ⟨late, perm₂, nodup₂, range₂⟩ := two.own
  refine ⟨Nat.le_trans one.le two.le, early ++ late, ?_, ?_, ?_⟩
  · rw [labels_append, List.map_append]
    refine (perm₁.append perm₂).trans ?_
    simp only [List.append_assoc]
    refine List.Perm.append_left given ?_
    have swapped : (early.map name ++ more).Perm (more ++ early.map name) := List.perm_append_comm
    simpa only [List.append_assoc] using swapped.append_right (late.map name)
  · refine nodup₁.append nodup₂ ?_
    intro n before after
    have := (range₁ n before).2
    have := (range₂ n after).1
    omega
  · intro n member
    rcases List.mem_append.mp member with before | after
    · have := range₁ n before
      have := two.le
      omega
    · have := range₂ n after
      have := one.le
      omega

theorem perm (defined : Defines labelOf name given num last code) (same : given.Perm more) :
    Defines labelOf name more num last code := by
  obtain ⟨taken, perm, nodup, range⟩ := defined.own
  exact ⟨defined.le, taken, perm.trans (same.append_right _), nodup, range⟩

/-- The label with the next number is one of those that the generator took. -/
theorem fresh (defined : Defines labelOf name (name (num + 1) :: given) (num + 1) last code) :
    Defines labelOf name given num last code := by
  obtain ⟨taken, perm, nodup, range⟩ := defined.own
  have le := defined.le
  refine ⟨by omega, (num + 1) :: taken, ?_, ?_, ?_⟩
  · exact perm.trans List.perm_middle.symm
  · refine List.nodup_cons.mpr ⟨?_, nodup⟩
    intro member
    have := (range _ member).1
    omega
  · intro n member
    rcases List.mem_cons.mp member with rfl | member
    · omega
    · have := range n member
      omega

theorem widen {low : Nat} (defined : Defines labelOf name given num last code) (below : low ≤ num) :
    Defines labelOf name given low last code := by
  obtain ⟨taken, perm, nodup, range⟩ := defined.own
  refine ⟨Nat.le_trans below defined.le, taken, perm, nodup, ?_⟩
  intro n member
  have := range n member
  omega

/-- Given labels that are distinct, and not among those with a later number, are defined once as well. -/
theorem nodup (defined : Defines labelOf name given num last code) (injective : Function.Injective name)
    (distinct : given.Nodup) (apart : ∀ n, num < n → name n ∉ given) : (labels labelOf code).Nodup := by
  obtain ⟨taken, perm, nodup, range⟩ := defined.own
  refine perm.nodup_iff.mpr (distinct.append (nodup.map injective) ?_)
  intro l early late
  obtain ⟨n, member, rfl⟩ := List.mem_map.mp late
  exact apart n (range n member).1 early

theorem mem_iff (defined : Defines labelOf name given num last code) {l : L} (member : l ∈ labels labelOf code) :
    l ∈ given ∨ ∃ n, num < n ∧ n ≤ last ∧ l = name n := by
  obtain ⟨taken, perm, -, range⟩ := defined.own
  rcases List.mem_append.mp (perm.subset member) with early | late
  · exact .inl early
  · obtain ⟨n, taking, rfl⟩ := List.mem_map.mp late
    exact .inr ⟨n, (range n taking).1, (range n taking).2, rfl⟩

end Defines

/-- Whatever the generator emits, it defines the given labels and labels of its own. -/
def Generates (labelOf : I → Option L) (name : Nat → L) (given : List L) (g : Gen I α) : Prop :=
  ∀ ⦃num last a code⦄, g num = some (a, code, last) → Defines labelOf name given num last code

namespace Generates
variable {given more : List L} {g : Gen I α} {k : α → Gen I β}

theorem pure (a : α) : Generates labelOf name [] (pure a : Gen I α) := by
  intro num last b code run
  obtain ⟨-, rfl, rfl⟩ := Gen.pure_some run
  exact .plain (Nat.le_refl _) rfl

theorem fail : Generates labelOf name given (Gen.fail : Gen I α) := nofun

theorem emit {i : I} (unlabelled : labelOf i = none) : Generates labelOf name [] (Gen.emit i) := by
  intro num last a code run
  cases run
  exact .plain (Nat.le_refl _) (by simp [unlabelled])

theorem label {i : I} {l : L} (here : labelOf i = some l) : Generates labelOf name [l] (Gen.emit i) := by
  intro num last a code run
  cases run
  exact .label here

theorem number : Generates labelOf name [] (Gen.number : Gen I Nat) := by
  intro num last a code run
  cases run
  exact .plain (Nat.le_succ _) rfl

theorem ofOption (a : Option α) : Generates labelOf name [] (Gen.ofOption a : Gen I α) := by
  cases a with
  | none => exact fail
  | some a => exact pure a

theorem check (p : Prop) [Decidable p] : Generates labelOf name [] (Gen.check p : Gen I Unit) := by
  by_cases holds : p
  · rw [Gen.check, if_pos holds]
    exact pure ()
  · rw [Gen.check, if_neg holds]
    exact fail

theorem perm (generates : Generates labelOf name given g) (same : given.Perm more) : Generates labelOf name more g :=
  fun _ _ _ _ run => (generates run).perm same

theorem append (one : Generates labelOf name given g) (two : ∀ a, Generates labelOf name more (k a)) :
    Generates labelOf name (given ++ more) (g >>= k) := by
  intro num last b code run
  obtain ⟨a, mid, first, second, early, late, rfl⟩ := Gen.bind_some run
  exact (one early).append (two a late)

/-- A generator without given labels, and one with them. -/
theorem bind (one : Generates labelOf name [] g) (two : ∀ a, Generates labelOf name given (k a)) :
    Generates labelOf name given (g >>= k) :=
  one.append two

/-- A number that becomes a label, which the rest defines. -/
theorem fresh {k : Nat → Gen I β} (rest : ∀ n, Generates labelOf name (name n :: given) (k n)) :
    Generates labelOf name given (Gen.number >>= k) := by
  intro num last b code run
  obtain ⟨a, mid, first, second, taken, late, rfl⟩ := Gen.bind_some run
  cases taken
  exact (rest _ late).fresh

theorem each {f : α → Gen I β} (generates : ∀ a, Generates labelOf name [] (f a)) (as : List α) :
    Generates labelOf name [] (Gen.each f as) := by
  induction as with
  | nil => exact pure []
  | cons a rest ih => exact (generates a).bind fun b => ih.bind fun others => pure (b :: others)

end Generates
end Labels
end Scc.Transition
