import Mathlib.Data.List.Basic

set_option linter.all false

/-! Linked lists as walks along their links, and the loops that search them. -/
namespace Scc.Memory

variable {α : Type} {next next' : α → α} {a b c d : α} {l l' : List α}

/-- Following the links from `a` passes the nodes of the list and arrives at `b`. -/
def Walk (next : α → α) : α → List α → α → Prop
  | a, [], b => a = b
  | a, x :: l, b => a = x ∧ Walk next (next x) l b

namespace Walk

theorem append_iff : Walk next a (l ++ l') b ↔ ∃ c, Walk next a l c ∧ Walk next c l' b := by
  induction l generalizing a with
  | nil => simp [Walk]
  | cons x l ih =>
    simp only [List.cons_append, Walk, ih]
    constructor
    · rintro ⟨start, c, first, second⟩
      exact ⟨c, ⟨start, first⟩, second⟩
    · rintro ⟨c, ⟨start, first⟩, second⟩
      exact ⟨start, c, first, second⟩

theorem append (first : Walk next a l c) (second : Walk next c l' b) :
    Walk next a (l ++ l') b :=
  append_iff.mpr ⟨c, first, second⟩

/-- The last node links to where the walk arrives. -/
theorem concat_iff : Walk next a (l ++ [b]) c ↔ Walk next a l b ∧ next b = c := by
  rw [append_iff]
  constructor
  · rintro ⟨d, first, same, arrives⟩
    subst same
    exact ⟨first, arrives⟩
  · rintro ⟨first, arrives⟩
    exact ⟨b, first, rfl, arrives⟩

theorem congr (walk : Walk next a l b) (same : ∀ x ∈ l, next' x = next x) :
    Walk next' a l b := by
  induction l generalizing a with
  | nil => exact walk
  | cons x l ih =>
    obtain ⟨start, walk⟩ := walk
    refine ⟨start, ?_⟩
    rw [same x List.mem_cons_self]
    exact ih walk fun y mem => same y (List.mem_cons_of_mem x mem)

/-- The last link of a walk set anew. -/
theorem relink (walk : Walk next a (l ++ [b]) c) (same : ∀ x ∈ l, next' x = next x) :
    Walk next' a (l ++ [b]) (next' b) :=
  concat_iff.mpr ⟨(concat_iff.mp walk).1.congr same, rfl⟩

/-- A ring can be walked from each of its nodes. -/
theorem rotate (ring : Walk next a (l ++ c :: l') a) : Walk next c (c :: (l' ++ l)) c := by
  obtain ⟨d, first, start, second⟩ := append_iff.mp ring
  subst start
  exact ⟨rfl, second.append first⟩

theorem next_eq (walk : Walk next a (l ++ b :: c :: l') d) : next b = c := by
  obtain ⟨e, -, start, inner, -⟩ := append_iff.mp walk
  exact inner

/-- In an ascending ring each node but the last links to the least one above it. -/
theorem next_ascending [LT α] (ring : Walk next a (l ++ b :: l') a)
    (ascending : (l ++ b :: l').Pairwise (· < ·)) :
    l' = [] ∧ next b = a ∨ ∃ c l'', l' = c :: l'' ∧ next b = c ∧ b < c := by
  cases l' with
  | nil => exact .inl ⟨rfl, (concat_iff.mp ring).2⟩
  | cons c l' =>
    have above := (List.pairwise_append.mp ascending).2.1
    exact .inr ⟨c, l', rfl, ring.next_eq, (List.pairwise_cons.mp above).1 c List.mem_cons_self⟩

end Walk

/-- The loop that follows the links until it may stop; none after `n` rounds. -/
def search (next : α → α) (stop : α → Bool) : Nat → α → Option α
  | 0, _ => none
  | n + 1, p => if stop p then some p else search next stop n (next p)

theorem search_walk {stop : α → Bool} {n : Nat} (walk : Walk next a l b)
    (found : ∃ x ∈ l, stop x) (long : l.length ≤ n) :
    ∃ x ∈ l, stop x ∧ search next stop n a = some x := by
  induction l generalizing a n with
  | nil => simp at found
  | cons y l ih =>
    obtain ⟨rfl, walk⟩ := walk
    cases n with
    | zero => simp at long
    | succ n =>
      by_cases here : stop a = true
      · refine ⟨a, List.mem_cons_self, here, ?_⟩
        rw [search, if_pos here]
      · obtain ⟨x, mem, stops⟩ := found
        have later : ∃ x ∈ l, stop x := by
          rcases List.mem_cons.mp mem with rfl | mem
          · exact absurd stops here
          · exact ⟨x, mem, stops⟩
        obtain ⟨z, mem', stops', result⟩ := ih walk later (by simpa using long)
        refine ⟨z, List.mem_cons_of_mem a mem', stops', ?_⟩
        rw [search, if_neg here, result]

/-- A loop round a ring finds a node where it may stop, if there is one. -/
theorem search_ring {stop : α → Bool} {n : Nat} (ring : Walk next a (a :: l) a)
    (start : c ∈ a :: l) (found : ∃ x ∈ a :: l, stop x) (long : l.length + 1 ≤ n) :
    ∃ x ∈ a :: l, stop x ∧ search next stop n c = some x := by
  obtain ⟨before, after, split⟩ := List.append_of_mem start
  have same (x : α) : x ∈ a :: l ↔ x ∈ c :: (after ++ before) := by
    rw [split]
    simp only [List.mem_append, List.mem_cons]
    tauto
  have walk : Walk next c (c :: (after ++ before)) c := (split ▸ ring).rotate
  have count := congrArg List.length split
  simp only [List.length_append, List.length_cons] at count
  have long' : (c :: (after ++ before)).length ≤ n := by
    simp only [List.length_append, List.length_cons]
    omega
  obtain ⟨x, mem, stops⟩ := found
  obtain ⟨y, mem', stops', result⟩ := search_walk walk ⟨x, (same x).mp mem, stops⟩ long'
  exact ⟨y, (same y).mpr mem', stops', result⟩

end Scc.Memory
