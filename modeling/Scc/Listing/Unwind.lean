import Mathlib.Data.List.Perm.Basic
import Mathlib.Logic.Function.Basic

set_option linter.all false

/-! Chains, one for every bucket, from which elements are taken in the order of a list. An element can only be taken
where it is the first one of its chain. -/
namespace Scc.Listing

variable {α κ : Type} [DecidableEq κ] {bucket : α → κ}

/-- The elements of a bucket, in their order. -/
def inBucket (bucket : α → κ) (l : List α) (b : κ) : List α := l.filter fun a => bucket a = b

def unwind [DecidableEq α] (bucket : α → κ) : List α → (κ → List α) → Option (κ → List α)
  | [], chains => some chains
  | a :: order, chains =>
    match chains (bucket a) with
    | c :: rest => if c = a then unwind bucket order (Function.update chains (bucket a) rest) else none
    | [] => none

@[simp] theorem inBucket_nil (b : κ) : inBucket bucket [] b = [] := rfl

theorem inBucket_cons_self (a : α) (l : List α) : inBucket bucket (a :: l) (bucket a) = a :: inBucket bucket l (bucket a) :=
  List.filter_cons_of_pos (decide_eq_true rfl)

theorem inBucket_cons_of_ne {a : α} {b : κ} (other : bucket a ≠ b) (l : List α) :
    inBucket bucket (a :: l) b = inBucket bucket l b :=
  List.filter_cons_of_neg fun same => other (of_decide_eq_true same)

theorem inBucket_append (l l' : List α) (b : κ) : inBucket bucket (l ++ l') b = inBucket bucket l b ++ inBucket bucket l' b :=
  List.filter_append l l'

variable [DecidableEq α]

/-- Everything can be taken if and only if the chains begin with it in its order, and the rest of them is left. -/
theorem unwind_iff {order : List α} {chains left : κ → List α} :
    unwind bucket order chains = some left ↔ ∀ b, chains b = inBucket bucket order b ++ left b := by
  induction order generalizing chains with
  | nil => exact ⟨fun same b => congrFun (Option.some.inj same) b, fun same => congrArg some (funext same)⟩
  | cons a order ih =>
    constructor
    · intro taken b
      unfold unwind at taken
      split at taken
      · rename_i c rest first
        split at taken
        · rename_i same
          subst same
          have later := ih.mp taken b
          by_cases here : bucket c = b
          · subst here
            rw [first, inBucket_cons_self, List.cons_append, ← later, Function.update_self]
          · rw [inBucket_cons_of_ne here, ← later, Function.update_of_ne (Ne.symm here)]
        · cases taken
      · cases taken
    · intro split
      have first := split (bucket a)
      rw [inBucket_cons_self, List.cons_append] at first
      rw [unwind, first]
      refine (if_pos rfl).trans (ih.mpr fun b => ?_)
      by_cases here : bucket a = b
      · subst here
        exact Function.update_self ..
      · rw [Function.update_of_ne (Ne.symm here), split b, inBucket_cons_of_ne here]

/-- Where the chains begin with a permutation of what is taken, and this is sorted, the chains must be sorted there. -/
theorem unwind_sorted {r : α → α → Prop} [Std.Antisymm r] {order inner : List α} {chains outer : κ → List α}
    (same : order.Perm inner) (sorted : order.Pairwise r) (begins : ∀ b, chains b = inBucket bucket inner b ++ outer b) :
    ((∀ b, (inBucket bucket inner b).Pairwise r) → unwind bucket order chains = some outer) ∧
      ((¬ ∀ b, (inBucket bucket inner b).Pairwise r) → unwind bucket order chains = none) := by
  constructor
  · intro chained
    refine unwind_iff.mpr fun b => (begins b).trans (congrArg (· ++ outer b) ?_)
    have perm : (inBucket bucket inner b).Perm (inBucket bucket order b) := (same.filter _).symm
    exact perm.eq_of_pairwise (fun _ _ _ _ => antisymm) (chained b) (sorted.filter _)
  · intro unchained
    refine Option.eq_none_iff_forall_not_mem.mpr fun left taken => unchained fun b => ?_
    have lengths : (inBucket bucket inner b).length = (inBucket bucket order b).length :=
      (same.filter fun a => decide (bucket a = b)).length_eq.symm
    have split := unwind_iff.mp taken b
    rw [(List.append_inj ((begins b).symm.trans split) lengths).1]
    exact sorted.filter _

omit [DecidableEq κ] [DecidableEq α]

/-- Where nothing else comes before an element with a property, these elements are the first ones. -/
theorem takeWhile_filter {P : α → Bool} {l : List α} (first : l.Pairwise fun a b => P b = true → P a = true) :
    l.takeWhile P = l.filter P ∧ l.dropWhile P = l.filter fun a => !P a := by
  induction l with
  | nil => exact ⟨rfl, rfl⟩
  | cons a rest ih =>
    obtain ⟨before, later⟩ := List.pairwise_cons.mp first
    cases here : P a with
    | true => simp [here, ih later]
    | false =>
      have none_ : ∀ b ∈ rest, P b = false := fun b member =>
        Bool.eq_false_iff.mpr fun there => Bool.eq_false_iff.mp here (before b member there)
      simp only [List.takeWhile_cons, List.dropWhile_cons, List.filter_cons, here]
      constructor
      · exact (List.filter_eq_nil_iff.mpr fun b member => Bool.eq_false_iff.mp (none_ b member)).symm
      · exact congrArg (a :: ·) (List.filter_eq_self.mpr fun b member => by rw [none_ b member]; rfl).symm

end Scc.Listing
