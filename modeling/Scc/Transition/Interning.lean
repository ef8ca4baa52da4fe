import Mathlib.Data.List.Nodup

set_option linter.all false

/-! A pool that hands out one element for every view it is asked for. -/
namespace Scc.Transition

variable {ρ α κ β : Type}

/-- No two elements of the pool look alike, and each request of the log was answered by
an element that looks as it wanted. -/
structure Interned (wanted : ρ → κ) (view : α → κ) (pool : List α) (log : List (ρ × α)) : Prop where
  distinct : (pool.map view).Nodup
  answered : ∀ e ∈ log, e.2 ∈ pool ∧ view e.2 = wanted e.1

namespace Interned
variable {wanted : ρ → κ} {view : α → κ} {pool : List α} {log : List (ρ × α)} {r : ρ} {a : α}

theorem same_iff (h : Interned wanted view pool log) {e e' : ρ × α} (mem : e ∈ log)
    (mem' : e' ∈ log) : e.2 = e'.2 ↔ wanted e.1 = wanted e'.1 := by
  obtain ⟨inside, looks⟩ := h.answered e mem
  obtain ⟨inside', looks'⟩ := h.answered e' mem'
  rw [← looks, ← looks']
  constructor
  · intro same
    rw [same]
  · exact List.inj_on_of_nodup_map h.distinct inside inside'

theorem found (h : Interned wanted view pool log) (inside : a ∈ pool) (looks : view a = wanted r) :
    Interned wanted view pool ((r, a) :: log) where
  distinct := h.distinct
  answered := by
    intro e mem
    rcases List.mem_cons.mp mem with rfl | mem
    · exact ⟨inside, looks⟩
    · exact h.answered e mem

theorem made (h : Interned wanted view pool log) (missing : ∀ b ∈ pool, view b ≠ wanted r)
    (looks : view a = wanted r) : Interned wanted view (a :: pool) ((r, a) :: log) where
  distinct := by
    rw [List.map_cons, List.nodup_cons, List.mem_map]
    refine ⟨?_, h.distinct⟩
    rintro ⟨b, inside, same⟩
    exact missing b inside (same.trans looks)
  answered := by
    intro e mem
    rcases List.mem_cons.mp mem with rfl | mem
    · exact ⟨List.mem_cons_self, looks⟩
    · obtain ⟨inside, looks⟩ := h.answered e mem
      exact ⟨List.mem_cons_of_mem _ inside, looks⟩

theorem forget (h : Interned wanted view pool log) {pool' : List α} {log' : List (ρ × α)}
    (sub : List.Sublist pool' pool) (old : ∀ e ∈ log', e ∈ log) (kept : ∀ e ∈ log', e.2 ∈ pool') :
    Interned wanted view pool' log' where
  distinct := h.distinct.sublist (sub.map view)
  answered := fun e mem => ⟨kept e mem, (h.answered e (old e mem)).2⟩

end Interned

/-- When elements are looked for by their key in one bucket only, equal keys get one
element exactly when they always lead to one bucket. -/
theorem Interned.exact_iff {key : ρ → κ} {bucket : ρ → β} {view : α → β × κ} {pool : List α}
    {log : List (ρ × α)} (h : Interned (fun r => (bucket r, key r)) view pool log) :
    (∀ e ∈ log, ∀ e' ∈ log, (e.2 = e'.2 ↔ key e.1 = key e'.1)) ↔
      ∀ e ∈ log, ∀ e' ∈ log, key e.1 = key e'.1 → bucket e.1 = bucket e'.1 := by
  constructor
  · intro same e mem e' mem' keys
    have views := (h.same_iff mem mem').mp ((same e mem e' mem').mpr keys)
    exact (Prod.mk.inj views).1
  · intro agree e mem e' mem'
    rw [h.same_iff mem mem', Prod.mk.injEq]
    constructor
    · exact And.right
    · intro keys
      exact ⟨agree e mem e' mem' keys, keys⟩

end Scc.Transition
