import Mathlib.Data.List.Basic

set_option linter.all false

/-! A recipient that takes what it is offered, in order, until it stops for good. -/
namespace Scc.Transition

variable {α σ β : Type}

/-- What has been taken so far, and whether the recipient has stopped. -/
structure Ledger (α : Type) where
  taken : List α
  stopped : Bool

/-- Offering `items` to the recipient takes it from `l` to `m`: a first part is
taken, and the rest is refused only by a recipient that has stopped. -/
def Offer (l : Ledger α) (items : List α) (m : Ledger α) : Prop :=
  ∃ more refused, items = more ++ refused ∧ m.taken = l.taken ++ more ∧
    (l.stopped → more = [] ∧ m.stopped) ∧ (refused ≠ [] → m.stopped)

theorem Offer.nothing {l m : Ledger α} (taken : m.taken = l.taken)
    (stopped : l.stopped → m.stopped) : Offer l [] m :=
  ⟨[], [], rfl, by simp [taken], fun h => ⟨rfl, stopped h⟩, by simp⟩

theorem Offer.all {l m : Ledger α} {items : List α} (running : l.stopped = false)
    (taken : m.taken = l.taken ++ items) : Offer l items m :=
  ⟨items, [], by simp, taken, by simp [running], by simp⟩

theorem Offer.refused {l m : Ledger α} {items : List α} (taken : m.taken = l.taken)
    (stopped : m.stopped) : Offer l items m :=
  ⟨[], items, rfl, by simp [taken], fun _ => ⟨rfl, stopped⟩, fun _ => stopped⟩

theorem Offer.append {l m n : Ledger α} {first second : List α} (h : Offer l first m)
    (h' : Offer m second n) : Offer l (first ++ second) n := by
  obtain ⟨more, refused, split, taken, stays, stops⟩ := h
  obtain ⟨more', refused', split', taken', stays', stops'⟩ := h'
  by_cases all : refused = []
  · refine ⟨more ++ more', refused', by simp [split, split', all], by simp [taken, taken'], ?_, stops'⟩
    intro stopped
    obtain ⟨empty, stopped⟩ := stays stopped
    obtain ⟨empty', stopped⟩ := stays' stopped
    exact ⟨by simp [empty, empty'], stopped⟩
  · obtain ⟨empty', stopped⟩ := stays' (stops all)
    refine ⟨more, refused ++ second, by simp [split], by simp [taken, taken', empty'], ?_, fun _ => stopped⟩
    exact fun h => ⟨(stays h).1, stopped⟩

theorem Offer.first {l m : Ledger α} {items : List α} (h : Offer l items m) :
    ∃ refused, l.taken ++ items = m.taken ++ refused := by
  obtain ⟨more, refused, split, taken, _, _⟩ := h
  exact ⟨refused, by simp [split, taken]⟩

theorem Offer.eq_of_running {l m : Ledger α} {items : List α} (h : Offer l items m)
    (running : m.stopped = false) : m.taken = l.taken ++ items := by
  obtain ⟨more, refused, split, taken, _, stops⟩ := h
  have all : refused = [] := by
    by_contra some
    simp [running] at stops
    exact some stops
  simp [split, taken, all]

/-- Offers along a run. What makes a step succeed is asked of the state the run
ends in, since `Fine` only gets lost along it. -/
theorem Offer.run (step : σ → β → σ) (ledger : σ → Ledger α) (items : β → List α)
    {Inv Fine : σ → Prop} (back : ∀ s b, Fine (step s b) → Fine s) :
    ∀ (bs : List β) (s : σ),
      (∀ s, ∀ b ∈ bs, Inv s → Fine (step s b) →
        Inv (step s b) ∧ Offer (ledger s) (items b) (ledger (step s b))) →
      Inv s → Fine (bs.foldl step s) →
      Inv (bs.foldl step s) ∧ Offer (ledger s) (bs.flatMap items) (ledger (bs.foldl step s))
  | [], s, _, inv, _ => ⟨inv, .nothing rfl id⟩
  | b :: bs, s, one, inv, fine => by
    have early : Fine (step s b) := by
      clear one inv
      induction bs generalizing s b with
      | nil => exact fine
      | cons c bs ih => exact back _ c (ih c (step s b) fine)
    obtain ⟨inv, offer⟩ := one s b List.mem_cons_self inv early
    obtain ⟨inv, offers⟩ := Offer.run step ledger items back bs (step s b)
      (fun s c hc => one s c (List.mem_cons_of_mem _ hc)) inv fine
    exact ⟨inv, offer.append offers⟩

end Scc.Transition
