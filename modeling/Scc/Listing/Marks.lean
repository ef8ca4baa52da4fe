import Mathlib.Data.List.Basic

set_option linter.all false

/-! Lists that satisfy a pattern element by element, where an element may be optional or repeated. -/
namespace Scc.Listing

inductive Element (π : Type) where
  | one (p : π)
  | opt (p : π)  -- zero or one
  | rep (p : π)  -- one or more
  deriving DecidableEq

variable {π α : Type}

def Element.pat : Element π → π
  | .one p | .opt p | .rep p => p

/-- The element wants an item. -/
def Element.Mandatory : Element π → Prop
  | .opt _ => False
  | _ => True

/-- The element stands for exactly one item. -/
def Element.Plain : Element π → Prop
  | .one _ => True
  | _ => False

/-- The elements up to the first that does not stand for exactly one item. -/
theorem first_marked {es : List (Element π)} (marked : ∃ e ∈ es, ¬e.Plain) :
    ∃ pre m post, es = pre ++ m :: post ∧ (∀ e ∈ pre, e.Plain) ∧ ¬m.Plain := by
  induction es with
  | nil =>
    obtain ⟨e, mem, -⟩ := marked
    cases mem
  | cons e es ih =>
    by_cases plain : e.Plain
    · obtain ⟨e', mem, mark⟩ := marked
      have later : e' ∈ es := by
        rcases List.mem_cons.mp mem with rfl | later
        · exact (mark plain).elim
        · exact later
      obtain ⟨pre, m, post, rfl, plains, is⟩ := ih ⟨e', later, mark⟩
      refine ⟨e :: pre, m, post, rfl, fun e' mem => ?_, is⟩
      rcases List.mem_cons.mp mem with rfl | mem
      · exact plain
      · exact plains e' mem
    · exact ⟨[], e, es, rfl, fun e mem => (by cases mem), plain⟩

inductive Accepts (sat : π → α → Prop) : List (Element π) → List α → Prop where
  | nil : Accepts sat [] []
  | one {p a es as} (here : sat p a) (rest : Accepts sat es as) : Accepts sat (.one p :: es) (a :: as)
  | without {p es as} (rest : Accepts sat es as) : Accepts sat (.opt p :: es) as
  | taken {p a es as} (here : sat p a) (rest : Accepts sat es as) : Accepts sat (.opt p :: es) (a :: as)
  | last {p a es as} (here : sat p a) (rest : Accepts sat es as) : Accepts sat (.rep p :: es) (a :: as)
  | more {p a es as} (here : sat p a) (rest : Accepts sat (.rep p :: es) as) : Accepts sat (.rep p :: es) (a :: as)

namespace Accepts

variable {sat : π → α → Prop} {p : π} {a : α} {e : Element π} {pre es : List (Element π)} {as : List α}

theorem one_iff : Accepts sat (.one p :: es) (a :: as) ↔ sat p a ∧ Accepts sat es as := by
  constructor
  · intro accepts
    cases accepts with
    | one here rest => exact ⟨here, rest⟩
  · rintro ⟨here, rest⟩
    exact .one here rest

theorem rep_singleton (accepts : Accepts sat (.rep p :: es) [a]) : sat p a := by
  cases accepts with
  | last here rest => exact here
  | more here rest => exact here

/-- A pattern accepts the list with one item for each element. -/
theorem chosen (choose : π → α) (es : List (Element π)) (good : ∀ e ∈ es, sat e.pat (choose e.pat)) :
    Accepts sat es (es.map fun e => choose e.pat) := by
  induction es with
  | nil => exact .nil
  | cons e es ih =>
    have here := good e List.mem_cons_self
    have rest := ih fun e mem => good e (List.mem_cons_of_mem _ mem)
    cases e with
    | one p => exact .one here rest
    | opt p => exact .taken here rest
    | rep p => exact .last here rest

/-- What is left of the pattern and of the list behind elements that stand for one item each. -/
theorem drop (choose : π → α) (plain : ∀ e ∈ pre, e.Plain)
    (accepts : Accepts sat (pre ++ es) (pre.map (fun e => choose e.pat) ++ as)) : Accepts sat es as := by
  induction pre with
  | nil => exact accepts
  | cons e pre ih =>
    have here := plain e List.mem_cons_self
    cases e with
    | one p => exact ih (fun e mem => plain e (List.mem_cons_of_mem _ mem)) (one_iff.mp accepts).2
    | opt p => exact here.elim
    | rep p => exact here.elim

theorem append (choose : π → α) (plain : ∀ e ∈ pre, e.Plain) (good : ∀ e ∈ pre, sat e.pat (choose e.pat))
    (rest : Accepts sat es as) : Accepts sat (pre ++ es) (pre.map (fun e => choose e.pat) ++ as) := by
  induction pre with
  | nil => exact rest
  | cons e pre ih =>
    have here := plain e List.mem_cons_self
    have next := ih (fun e mem => plain e (List.mem_cons_of_mem _ mem)) fun e mem => good e (List.mem_cons_of_mem _ mem)
    cases e with
    | one p => exact .one (good _ List.mem_cons_self) next
    | opt p => exact here.elim
    | rep p => exact here.elim

/-- An item is there for an element that wants one. -/
theorem mandatory (accepts : Accepts sat es as) (mem : e ∈ es) (wants : e.Mandatory) : ∃ a ∈ as, sat e.pat a := by
  induction accepts with
  | nil => cases mem
  | @one p a es as here rest ih =>
    rcases List.mem_cons.mp mem with rfl | mem
    · exact ⟨a, List.mem_cons_self, here⟩
    · obtain ⟨b, there, sat_⟩ := ih mem
      exact ⟨b, List.mem_cons_of_mem _ there, sat_⟩
  | without rest ih =>
    rcases List.mem_cons.mp mem with rfl | mem
    · exact wants.elim
    · exact ih mem
  | taken here rest ih =>
    rcases List.mem_cons.mp mem with rfl | mem
    · exact wants.elim
    · obtain ⟨b, there, sat_⟩ := ih mem
      exact ⟨b, List.mem_cons_of_mem _ there, sat_⟩
  | @last p a es as here rest ih =>
    rcases List.mem_cons.mp mem with rfl | mem
    · exact ⟨a, List.mem_cons_self, here⟩
    · obtain ⟨b, there, sat_⟩ := ih mem
      exact ⟨b, List.mem_cons_of_mem _ there, sat_⟩
  | @more p a es as here rest ih =>
    obtain ⟨b, there, sat_⟩ := ih mem
    exact ⟨b, List.mem_cons_of_mem _ there, sat_⟩

/-- Without such elements the pattern accepts the empty list. -/
theorem empty (none_ : ∀ e ∈ es, ¬e.Mandatory) : Accepts sat es [] := by
  induction es with
  | nil => exact .nil
  | cons e es ih =>
    have rest := ih fun e mem => none_ e (List.mem_cons_of_mem _ mem)
    cases e with
    | one p => exact (none_ _ List.mem_cons_self trivial).elim
    | opt p => exact .without rest
    | rep p => exact (none_ _ List.mem_cons_self trivial).elim

/-- With an element that wants an item, an optional one in front leaves it the only item there is. -/
theorem behind_optional (accepts : Accepts sat (.opt p :: es) [a]) (mem : e ∈ es) (wants : e.Mandatory) :
    sat e.pat a := by
  cases accepts with
  | without rest =>
    obtain ⟨b, there, sat_⟩ := rest.mandatory mem wants
    rw [List.mem_singleton.mp there] at sat_
    exact sat_
  | taken here rest =>
    obtain ⟨b, there, -⟩ := rest.mandatory mem wants
    cases there

end Accepts

end Scc.Listing
