import Mathlib.Logic.Relation
import Mathlib.Data.Set.Finite.Basic
import Mathlib.Data.Fintype.Card

set_option linter.all false

/-! Relations without cycles: how one more edge closes a cycle, and induction along an acyclic
relation that leaves finitely many elements. -/
namespace Scc.Transition
open Relation

variable {α : Type} {r q : α → α → Prop} {a b : α}

def Acyclic (r : α → α → Prop) : Prop := ∀ a, ¬TransGen r a a

/-- The relation with one more edge. -/
def insertEdge (r : α → α → Prop) (a b : α) (x y : α) : Prop := r x y ∨ x = a ∧ y = b

theorem Acyclic.mono (acyclic : Acyclic q) (sub : ∀ x y, r x y → q x y) : Acyclic r :=
  fun a cycle => acyclic a (TransGen.mono sub _ _ cycle)

theorem Acyclic.congr (same : ∀ x y, r x y ↔ q x y) : Acyclic r ↔ Acyclic q :=
  ⟨fun acyclic => acyclic.mono fun x y => (same x y).mpr,
    fun acyclic => acyclic.mono fun x y => (same x y).mp⟩

/-- A relation that a rank goes down along has no cycle. -/
theorem Acyclic.of_rank (rank : α → Nat) (down : ∀ x y, r x y → rank y < rank x) : Acyclic r := by
  intro a cycle
  have lower : ∀ x y, TransGen r x y → rank y < rank x := by
    intro x y path
    induction path with
    | single edge => exact down _ _ edge
    | tail _ edge ih => exact (down _ _ edge).trans ih
  exact Nat.lt_irrefl _ (lower a a cycle)

/-- A path that may use the new edge avoids it or passes it. -/
theorem insertEdge_path {x y : α} (path : TransGen (insertEdge r a b) x y) :
    TransGen r x y ∨ ReflTransGen r x a ∧ ReflTransGen r b y := by
  induction path with
  | single edge =>
    rcases edge with old | ⟨rfl, rfl⟩
    · exact .inl (.single old)
    · exact .inr ⟨.refl, .refl⟩
  | tail _ edge ih =>
    rcases edge with old | ⟨rfl, rfl⟩
    · rcases ih with path | ⟨front, after⟩
      · exact .inl (path.tail old)
      · exact .inr ⟨front, after.tail old⟩
    · rcases ih with path | ⟨front, -⟩
      · exact .inr ⟨path.to_reflTransGen, .refl⟩
      · exact .inr ⟨front, .refl⟩

theorem acyclic_insertEdge :
    Acyclic (insertEdge r a b) ↔ Acyclic r ∧ ¬ReflTransGen r b a := by
  constructor
  · intro acyclic
    refine ⟨acyclic.mono fun x y => .inl, fun back => acyclic a ?_⟩
    have edge : insertEdge r a b a b := .inr ⟨rfl, rfl⟩
    exact TransGen.head' edge (ReflTransGen.mono (fun x y => .inl) _ _ back)
  · rintro ⟨acyclic, back⟩ x cycle
    rcases insertEdge_path cycle with path | ⟨front, after⟩
    · exact acyclic x path
    · exact back (after.trans front)

/-- Where only finitely many elements have edges, following them ends. -/
theorem Acyclic.wellFounded (acyclic : Acyclic r) (finite : {a | ∃ b, r a b}.Finite) :
    WellFounded fun b a => r a b := by
  have := finite.to_subtype
  let onSources (x y : {a | ∃ b, r a b}) : Prop := TransGen r y.1 x.1
  have trans : IsTrans _ onSources := ⟨fun x y z xy yz => TransGen.trans yz xy⟩
  have irrefl : Std.Irrefl onSources := ⟨fun x => acyclic x.1⟩
  have wf := Finite.wellFounded_of_trans_of_irrefl onSources
  have source (x : {a | ∃ b, r a b}) : Acc (fun b a => r a b) x.1 := by
    induction x using wf.induction with
    | _ x ih =>
      refine ⟨_, fun y edge => ?_⟩
      by_cases more : ∃ z, r y z
      · exact ih ⟨y, more⟩ (.single edge)
      · exact ⟨_, fun z edge => absurd ⟨z, edge⟩ more⟩
  refine ⟨fun a => ?_⟩
  by_cases more : ∃ b, r a b
  · exact source ⟨a, more⟩
  · exact ⟨_, fun b edge => absurd ⟨b, edge⟩ more⟩

end Scc.Transition
