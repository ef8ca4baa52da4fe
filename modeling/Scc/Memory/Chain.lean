import Mathlib.Data.List.Basic

set_option linter.all false

/-! Lists of nodes linked by pointers, in a heap where a node may have been freed. -/
namespace Scc.Memory

variable {α β : Type}

/-- Following a link from a pointer passes the nodes of the list, and ends behind them. -/
def Chain (heap : α → Option β) (link : β → Option α) : Option α → List α → Prop
  | start, [] => start = none
  | start, a :: rest => start = some a ∧ ∃ node, heap a = some node ∧ Chain heap link (link node) rest

namespace Chain

variable {heap heap' : α → Option β} {link : β → Option α} {start : Option α} {a : α} {l l' : List α}

theorem alive (chain : Chain heap link start l) (mem : a ∈ l) : ∃ node, heap a = some node := by
  induction l generalizing start with
  | nil => cases mem
  | cons b rest ih =>
    obtain ⟨-, node, present, chain⟩ := chain
    rcases List.mem_cons.mp mem with rfl | mem
    · exact ⟨node, present⟩
    · exact ih chain mem

/-- A heap in which the nodes have the same links has the same chain. -/
theorem congr (chain : Chain heap link start l)
    (same : ∀ a ∈ l, ∀ node, heap a = some node → ∃ node', heap' a = some node' ∧ link node' = link node) :
    Chain heap' link start l := by
  induction l generalizing start with
  | nil => exact chain
  | cons b rest ih =>
    obtain ⟨rfl, node, present, chain⟩ := chain
    obtain ⟨node', present', link'⟩ := same b List.mem_cons_self node present
    refine ⟨rfl, node', present', ?_⟩
    rw [link']
    exact ih chain fun a mem => same a (List.mem_cons_of_mem b mem)

theorem unchanged (chain : Chain heap link start l) (same : ∀ a ∈ l, heap' a = heap a) : Chain heap' link start l :=
  chain.congr fun a mem node present => ⟨node, (same a mem).trans present, rfl⟩

/-- A new node in front. -/
theorem cons {node : β} (chain : Chain heap link (link node) l) (present : heap a = some node) :
    Chain heap link (some a) (a :: l) :=
  ⟨rfl, node, present, chain⟩

theorem unique (chain : Chain heap link start l) (chain' : Chain heap link start l') : l = l' := by
  induction l generalizing start l' with
  | nil =>
    cases l' with
    | nil => rfl
    | cons b rest =>
      cases chain
      cases chain'.1
  | cons b rest ih =>
    obtain ⟨rfl, node, present, chain⟩ := chain
    cases l' with
    | nil => cases chain'
    | cons c rest' =>
      obtain ⟨same, node', present', chain'⟩ := chain'
      cases same
      cases present.symm.trans present'
      rw [ih chain chain']

end Chain

end Scc.Memory
