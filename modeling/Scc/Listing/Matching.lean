import Mathlib.Data.List.Basic

set_option linter.all false

/-! Requests that each take the first free item with their key, where keys may repeat, and the same
served item by item. -/
namespace Scc.Listing
variable {α π κ : Type} [DecidableEq κ] (key : α → κ) (wants : π → κ)

/-- The first free item with the key of the request goes to it. -/
def claim (p : π) : List (α × Option π) → Option (List (α × Option π))
  | [] => none
  | (a, mark) :: items =>
    if mark.isNone ∧ key a = wants p then some ((a, some p) :: items)
    else (claim p items).map ((a, mark) :: ·)

/-- The items after all requests in their order, and the requests that got none. -/
def claimAll : List π → List (α × Option π) → List (α × Option π) × List π
  | [], items => (items, [])
  | p :: ps, items =>
    match claim key wants p items with
    | some items => claimAll ps items
    | none => ((claimAll ps items).1, p :: (claimAll ps items).2)

/-- Each item goes to the first request that wants its key. -/
def serve : List π → List α → List (α × Option π) × List π
  | ps, [] => ([], ps)
  | ps, a :: as =>
    match ps.find? fun p => wants p = key a with
    | some p =>
      let rest := serve (ps.eraseP fun p => wants p = key a) as
      ((a, some p) :: rest.1, rest.2)
    | none =>
      let rest := serve ps as
      ((a, none) :: rest.1, rest.2)

variable {key wants}

section
attribute [local simp] claim claimAll serve
end

theorem claimAll_taken (ps : List π) (a : α) (q : π) (items : List (α × Option π)) :
    claimAll key wants ps ((a, some q) :: items) =
      ((a, some q) :: (claimAll key wants ps items).1, (claimAll key wants ps items).2) := by
  induction ps generalizing items with
  | nil => rfl
  | cons p ps ih =>
    rw [claimAll, claimAll, claim, if_neg (by simp)]
    cases claim key wants p items with
    | none => simp only [Option.map_none, ih]
    | some items => simp only [Option.map_some, ih]

theorem claimAll_free (ps : List π) (a : α) (items : List (α × Option π)) :
    claimAll key wants ps ((a, none) :: items) =
      match ps.find? fun p => wants p = key a with
      | some p =>
        let rest := claimAll key wants (ps.eraseP fun p => wants p = key a) items
        ((a, some p) :: rest.1, rest.2)
      | none =>
        let rest := claimAll key wants ps items
        ((a, none) :: rest.1, rest.2) := by
  induction ps generalizing items with
  | nil => rfl
  | cons p ps ih =>
    rw [claimAll, claim]
    by_cases same : wants p = key a
    · rw [if_pos ⟨rfl, same.symm⟩, List.find?_cons_of_pos (by simpa using same),
        List.eraseP_cons_of_pos (by simpa using same)]
      exact claimAll_taken ps a p items
    · rw [if_neg fun both => same both.2.symm, List.find?_cons_of_neg (by simpa using same),
        List.eraseP_cons_of_neg (by simpa using same)]
      cases taken : claim key wants p items with
      | some items' =>
        simp only [Option.map_some, ih]
        cases ps.find? fun p => decide (wants p = key a) with
        | some q => simp only [claimAll, taken]
        | none => simp only [claimAll, taken]
      | none =>
        simp only [Option.map_none, ih]
        cases ps.find? fun p => decide (wants p = key a) with
        | some q => simp only [claimAll, taken]
        | none => simp only [claimAll, taken]

/-- Serving the items in their order gives each request what it would take. -/
theorem claimAll_eq_serve (ps : List π) (as : List α) :
    claimAll key wants ps (as.map (·, none)) = serve key wants ps as := by
  induction as generalizing ps with
  | nil =>
    induction ps with
    | nil => rfl
    | cons p ps ih =>
      simp only [List.map_nil] at ih
      simp only [List.map_nil, claimAll, claim, ih, serve]
  | cons a as ih =>
    rw [List.map_cons, claimAll_free, serve]
    cases ps.find? fun p => decide (wants p = key a) with
    | some p => simp only [ih]
    | none => simp only [ih]

/-- A taken item has the key of its request, which is one of those given. -/
theorem serve_taken {ps : List π} {as : List α} {a : α} {p : π}
    (member : (a, some p) ∈ (serve key wants ps as).1) : p ∈ ps ∧ wants p = key a := by
  induction as generalizing ps with
  | nil => exact (List.not_mem_nil member).elim
  | cons b as ih =>
    rw [serve] at member
    cases found : ps.find? fun p => decide (wants p = key b) with
    | some q =>
      simp only [found] at member
      rcases List.mem_cons.mp member with same | rest
      · cases same
        exact ⟨List.mem_of_find?_eq_some found, by simpa using List.find?_some found⟩
      · obtain ⟨inside, equal⟩ := ih rest
        exact ⟨List.mem_of_mem_eraseP inside, equal⟩
    | none =>
      simp only [found] at member
      rcases List.mem_cons.mp member with same | rest
      · cases same
      · exact ih rest

theorem serve_left {ps : List π} {as : List α} {p : π} (member : p ∈ (serve key wants ps as).2) :
    p ∈ ps := by
  induction as generalizing ps with
  | nil => exact member
  | cons b as ih =>
    rw [serve] at member
    cases found : ps.find? fun p => decide (wants p = key b) with
    | some q =>
      simp only [found] at member
      exact List.mem_of_mem_eraseP (ih member)
    | none =>
      simp only [found] at member
      exact ih member

end Scc.Listing
