import Mathlib.Data.List.Basic
import Mathlib.Data.List.Perm.Basic

set_option linter.all false

/-! A group of items put into a list before or after the first item of a kind, and a list that is
dealt into the part before the group and the part after it. -/
namespace Scc.Listing
variable {β : Type} (here : β → Bool)

/-- Directly after the first item of the kind, at the end where there is none. -/
def putAfter (group : List β) : List β → List β
  | [] => group
  | b :: items => if here b then b :: (group ++ items) else b :: putAfter group items

/-- Directly before the first item of the kind, at the end where there is none. -/
def putBefore (group : List β) : List β → List β
  | [] => group
  | b :: items => if here b then group ++ b :: items else b :: putBefore group items

/-- Each item of the kind goes to the part after the group if `later`, else to the part before it;
the other ones go to the part before it until one of the kind `passed`. -/
def deal (later : Bool) : Bool → List β → List β × List β
  | _, [] => ([], [])
  | passed, b :: items =>
    let rest := deal later (passed || here b) items
    if (here b && later) || (!here b && passed) then (rest.1, b :: rest.2) else (b :: rest.1, rest.2)

/-- The items of the kind come before the others. -/
def Grouped : List β → Prop
  | [] => True
  | b :: items => if here b then Grouped items else ∀ other ∈ items, here other = false

/-- Behind the first item of the kind there is none, or only directly behind it and the group is
empty. -/
def Once (group : List β) : List β → Prop
  | [] => True
  | b :: items =>
    if here b then (∀ other ∈ items, here other = false) ∨ group = [] ∧ Grouped here items
    else Once group items

variable {here} {group items : List β}

section
attribute [local simp] putAfter putBefore deal Grouped Once
end

theorem grouped_of_none (none : ∀ b ∈ items, here b = false) : Grouped here items := by
  cases items with
  | nil => trivial
  | cons b items =>
    rw [Grouped, none b List.mem_cons_self, if_neg Bool.false_ne_true]
    exact fun other member => none other (List.mem_cons_of_mem _ member)

theorem putAfter_nil (items : List β) : putAfter here [] items = items := by
  induction items with
  | nil => rfl
  | cons b items ih => rw [putAfter, ih, List.nil_append, ite_self]

theorem putBefore_nil (items : List β) : putBefore here [] items = items := by
  induction items with
  | nil => rfl
  | cons b items ih => rw [putBefore, ih, List.nil_append, ite_self]

theorem putAfter_perm (group items : List β) : (putAfter here group items).Perm (group ++ items) := by
  induction items with
  | nil => rw [putAfter, List.append_nil]
  | cons b items ih =>
    rw [putAfter]
    split
    · exact List.perm_middle.symm
    · exact (ih.cons b).trans List.perm_middle.symm

theorem putBefore_perm (group items : List β) :
    (putBefore here group items).Perm (group ++ items) := by
  induction items with
  | nil => rw [putBefore, List.append_nil]
  | cons b items ih =>
    rw [putBefore]
    split
    · rfl
    · exact (ih.cons b).trans List.perm_middle.symm

/-- Nothing is lost or doubled by dealing. -/
theorem deal_perm (later passed : Bool) (group items : List β) :
    ((deal here later passed items).1 ++ group ++ (deal here later passed items).2).Perm
      (group ++ items) := by
  induction items generalizing passed with
  | nil => rw [deal, List.nil_append]
  | cons b items ih =>
    rw [deal]
    split
    · exact List.perm_middle.trans (((ih _).cons b).trans List.perm_middle.symm)
    · exact ((ih _).cons b).trans List.perm_middle.symm

theorem deal_later_passed (items : List β) : deal here true true items = ([], items) := by
  induction items with
  | nil => rfl
  | cons b items ih =>
    rw [deal, Bool.true_or, ih]
    cases here b <;> rfl

theorem deal_putBefore (group items : List β) :
    (deal here true false items).1 ++ group ++ (deal here true false items).2 =
      putBefore here group items := by
  induction items with
  | nil => rw [deal, putBefore, List.nil_append, List.append_nil]
  | cons b items ih =>
    rw [deal, putBefore, Bool.false_or]
    cases this : here b with
    | true =>
      rw [deal_later_passed]
      rfl
    | false =>
      rw [← ih]
      rfl

/-- Once one passed, the items of the kind are taken to the part before. -/
theorem deal_passed (items : List β) :
    deal here false true items = (items.filter here, items.filter fun b => !here b) := by
  induction items with
  | nil => rfl
  | cons b items ih =>
    rw [deal, Bool.true_or, ih]
    cases this : here b with
    | true =>
      rw [List.filter_cons_of_pos this, List.filter_cons_of_neg (by simp [this])]
      rfl
    | false =>
      rw [List.filter_cons_of_neg (by simp [this]), List.filter_cons_of_pos (by simp [this])]
      rfl

/-- Two lists have the same items up to a place, and there only one of them has an item of the
kind. -/
def Differ (here : β → Bool) (xs ys : List β) : Prop :=
  ∃ front x xs' y ys', xs = front ++ x :: xs' ∧ ys = front ++ y :: ys' ∧ here x ≠ here y

theorem Differ.cons {xs ys : List β} (b : β) (differ : Differ here xs ys) :
    Differ here (b :: xs) (b :: ys) := by
  obtain ⟨front, x, xs', y, ys', rfl, rfl, ne⟩ := differ
  exact ⟨b :: front, x, xs', y, ys', rfl, rfl, ne⟩

theorem filter_grouped (grouped : Grouped here items) :
    items.filter here ++ items.filter (fun b => !here b) = items := by
  induction items with
  | nil => rfl
  | cons b items ih =>
    rw [Grouped] at grouped
    cases this : here b with
    | true =>
      rw [this, if_pos rfl] at grouped
      rw [List.filter_cons_of_pos this, List.filter_cons_of_neg (by simp [this]), List.cons_append,
        ih grouped]
    | false =>
      rw [this, if_neg Bool.false_ne_true] at grouped
      rw [List.filter_cons_of_neg (by simp [this]), List.filter_cons_of_pos (by simp [this]),
        List.filter_eq_nil_iff.mpr fun b member => by simp [grouped b member],
        List.filter_eq_self.mpr fun b member => by simp [grouped b member]]
      rfl

theorem filter_of_some (some : ¬∀ b ∈ items, here b = false) :
    ∃ x xs, items.filter here = x :: xs ∧ here x = true := by
  simp only [not_forall, Bool.not_eq_false] at some
  obtain ⟨other, member, isHere⟩ := some
  cases kind : items.filter here with
  | nil => exact absurd isHere (List.filter_eq_nil_iff.mp kind other member)
  | cons x xs => exact ⟨x, xs, rfl, (List.mem_filter.mp (kind ▸ List.mem_cons_self)).2⟩

theorem differ_of_ungrouped (ungrouped : ¬Grouped here items) :
    Differ here (items.filter here ++ items.filter fun b => !here b) items := by
  induction items with
  | nil => exact absurd trivial ungrouped
  | cons b items ih =>
    rw [Grouped] at ungrouped
    cases this : here b with
    | true =>
      rw [this, if_pos rfl] at ungrouped
      rw [List.filter_cons_of_pos this, List.filter_cons_of_neg (by simp [this])]
      exact (ih ungrouped).cons b
    | false =>
      rw [this, if_neg Bool.false_ne_true] at ungrouped
      obtain ⟨x, xs, kind, isHere⟩ := filter_of_some ungrouped
      rw [List.filter_cons_of_neg (by simp [this]), kind]
      exact ⟨[], x, _, b, items, rfl, rfl, by simp [isHere, this]⟩

/-- Without items of the kind in the group, dealing puts the group behind the first one exactly if
that is the only one, up to ones directly behind it. -/
theorem deal_putAfter (others : ∀ b ∈ group, here b = false) (items : List β) :
    (Once here group items →
        (deal here false false items).1 ++ group ++ (deal here false false items).2 =
          putAfter here group items) ∧
      (¬Once here group items →
        Differ here ((deal here false false items).1 ++ group ++ (deal here false false items).2)
          (putAfter here group items)) := by
  induction items with
  | nil => exact ⟨fun _ => List.append_nil group, fun not => absurd trivial not⟩
  | cons b items ih =>
    rw [Once, deal, putAfter, Bool.false_or]
    cases this : here b with
    | false =>
      rw [if_neg Bool.false_ne_true, if_neg Bool.false_ne_true]
      refine ⟨fun once => ?_, fun apart => (ih.2 apart).cons b⟩
      rw [← ih.1 once]
      rfl
    | true =>
      rw [deal_passed, if_pos rfl, if_pos rfl]
      change (_ → b :: items.filter here ++ group ++ (items.filter fun b => !here b) =
          b :: (group ++ items)) ∧
        (_ → Differ here (b :: (items.filter here ++ group ++ items.filter fun b => !here b))
          (b :: (group ++ items)))
      constructor
      · rintro (none | ⟨rfl, grouped⟩)
        · rw [List.filter_eq_nil_iff.mpr fun b member => by simp [none b member],
            List.filter_eq_self.mpr fun b member => by simp [none b member]]
          rfl
        · rw [List.append_nil, List.cons_append, filter_grouped grouped, List.nil_append]
      · intro apart
        rw [not_or] at apart
        refine Differ.cons b ?_
        cases group with
        | nil =>
          rw [List.append_nil]
          exact differ_of_ungrouped fun grouped => apart.2 ⟨rfl, grouped⟩
        | cons q group =>
          obtain ⟨x, xs, kind, isHere⟩ := filter_of_some apart.1
          refine ⟨[], x, xs ++ (q :: group) ++ items.filter fun b => !here b, q, group ++ items, ?_, rfl,
            by simp [isHere, others q List.mem_cons_self]⟩
          rw [kind]
          rfl

end Scc.Listing
