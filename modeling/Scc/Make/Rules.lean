import Scc.Transition.Acyclic
import Mathlib.Data.List.Basic
import Mathlib.Data.List.Induction

set_option linter.all false

/-! The rules of `make` as the parser of a makefile enters them. -/
namespace Scc.Make

abbrev Name := List Char

scoped instance : LawfulBEq Name := inferInstance

/-- A target. Its `name` is the name it is looked up with; null pointers are `none`. -/
structure Target where
  target : Name
  req : Option Name
  stamp : Int
  defined : Bool
  deps : List Name
  actions : Option (List Name)
  deriving DecidableEq

/-- A target that `lookup` makes. -/
def Target.made (name : Name) : Target :=
  { target := name, req := none, stamp := -1, defined := false, deps := [], actions := none }

/-- The hash table, which has every target that is looked for, and what else the rules set. -/
structure Rules where
  lookup : Name → Target
  deftarget : Option Name
  sflag : Bool
  iflag : Bool

def SUFFIXES : Name := ".SUFFIXES".toList
def DEFAULT : Name := ".DEFAULT".toList
def SILENT : Name := ".SILENT".toList
def IGNORE : Name := ".IGNORE".toList

namespace Rules

/-- Before any makefile is read. -/
def start : Rules := { lookup := .made, deftarget := none, sflag := false, iflag := false }

def set (rules : Rules) (name : Name) (tp : Target) : Rules :=
  { rules with lookup := fun other => if other = name then tp else rules.lookup other }

def deps (rules : Rules) (name : Name) : List Name := (rules.lookup name).deps

/-- The name that is looked for among the dependencies of `target` is `target`. -/
def depends (rules : Rules) (target _dep : Name) : Bool := target ∈ rules.deps target

/-- `none` where `make` ends with an error. -/
def addtarget (rules : Rules) (target : Name) (ndeps : Nat) : Option Rules :=
  let rules := rules.set target { rules.lookup target with defined := true }
  let rules :=
    if rules.deftarget = none ∧ target.head? ≠ some '.' then { rules with deftarget := some target }
    else rules
  let rules :=
    if target = SUFFIXES ∧ ndeps = 0 then rules.set target { rules.lookup target with deps := [] }
    else rules
  if target = DEFAULT ∧ ndeps > 0 then none
  else
    some
      { rules with
        sflag := rules.sflag || target = SILENT && ndeps = 0
        iflag := rules.iflag || target = IGNORE && ndeps = 0 }

def adddep (rules : Rules) (target dep : Name) : Rules :=
  if rules.depends dep target then rules
  else if dep ∈ rules.deps target then rules
  else rules.set target { rules.lookup target with deps := rules.deps target ++ [dep] }

def addrule (rules : Rules) (target : Name) (actions : List Name) : Rules :=
  rules.set target { rules.lookup target with actions := some actions }

end Rules

/-- A call that the parser makes. -/
inductive Call where
  | addtarget (target : Name) (ndeps : Nat)
  | adddep (target dep : Name)
  | addrule (target : Name) (actions : List Name)

def Call.enter (rules : Rules) : Call → Option Rules
  | .addtarget target ndeps => rules.addtarget target ndeps
  | .adddep target dep => some (rules.adddep target dep)
  | .addrule target actions => some (rules.addrule target actions)

/-- The rules after a sequence of calls. -/
def parsed (calls : List Call) : Option Rules := calls.foldlM Call.enter .start

/-- The graph of targets and dependencies. -/
def Rules.Edge (rules : Rules) (target dep : Name) : Prop := dep ∈ rules.deps target

end Scc.Make

/-! When the graph of targets and dependencies has no cycle while a makefile is read. -/
namespace Scc.Make
open Transition Relation

variable {rules now : Rules} {calls : List Call} {target dep name : Name}

/-! ## The graph while a makefile is read -/

/-- The graph has no cycle after any number of the calls. -/
def StaysAcyclic (calls : List Call) : Prop :=
  ∀ before after, calls = before ++ after → ∀ rules, parsed before = some rules → Acyclic rules.Edge

/-- No dependency that is added leads back to its target. -/
def NoCycleClosed (calls : List Call) : Prop :=
  ∀ before target dep after, calls = before ++ .adddep target dep :: after →
    ∀ rules, parsed before = some rules → ¬ReflTransGen rules.Edge dep target

@[simp] theorem lookup_set_self (tp : Target) : (rules.set name tp).lookup name = tp := if_pos rfl

theorem lookup_set_other {other : Name} (tp : Target) (ne : other ≠ name) :
    (rules.set name tp).lookup other = rules.lookup other := if_neg ne

/-- A field that a target keeps when it is set. -/
theorem lookup_set_field {β : Type} (f : Target → β) (tp : Target)
    (same : f tp = f (rules.lookup name)) (other : Name) :
    f ((rules.set name tp).lookup other) = f (rules.lookup other) := by
  by_cases h : other = name
  · rw [h, lookup_set_self, same]
  · rw [lookup_set_other tp h]

theorem edge_set_same (tp : Target) (same : tp.deps = rules.deps name) (x y : Name) :
    (rules.set name tp).Edge x y ↔ rules.Edge x y := by
  have deps := @lookup_set_field rules name _ Target.deps tp same x
  exact iff_of_eq (congrArg (y ∈ ·) deps)

/-- `addtarget` changes no actions, and may take the dependencies of `.SUFFIXES` away. -/
theorem addtarget_fields {ndeps : Nat} (entered : rules.addtarget target ndeps = some now)
    (t : Name) : (now.lookup t).actions = (rules.lookup t).actions ∧
      (now.deps t = rules.deps t ∨ now.deps t = []) := by
  unfold Rules.addtarget at entered
  dsimp only at entered
  split at entered
  · cases entered
  · cases entered
    by_cases here : t = target
    · subst here
      split
      · split
        · simp [Rules.set, Rules.deps]
        · simp [Rules.set, Rules.deps]
      · split
        · simp [Rules.set, Rules.deps]
        · simp [Rules.set, Rules.deps]
    · split
      · split
        · simp [Rules.set, Rules.deps, here]
        · simp [Rules.set, Rules.deps, here]
      · split
        · simp [Rules.set, Rules.deps, here]
        · simp [Rules.set, Rules.deps, here]

theorem addtarget_edge {ndeps : Nat} (entered : rules.addtarget target ndeps = some now) (x y : Name)
    (edge : now.Edge x y) : rules.Edge x y := by
  rcases (addtarget_fields entered x).2 with same | none
  · rwa [Rules.Edge, same] at edge
  · rw [Rules.Edge, none] at edge
    exact (List.not_mem_nil edge).elim

theorem addrule_edge (actions : List Name) (x y : Name) :
    (rules.addrule target actions).Edge x y ↔ rules.Edge x y :=
  edge_set_same { rules.lookup target with actions := some actions } rfl x y

/-- `adddep` leaves the graph as it is, where the dependency depends on itself or the edge is there,
or it adds the edge. -/
theorem adddep_edge :
    (rules.Edge dep dep ∧ rules.adddep target dep = rules) ∨
      (rules.Edge target dep ∧ rules.adddep target dep = rules) ∨
      ∀ x y, (rules.adddep target dep).Edge x y ↔ insertEdge rules.Edge target dep x y := by
  unfold Rules.adddep Rules.depends
  by_cases self : dep ∈ rules.deps dep
  · exact .inl ⟨self, if_pos (decide_eq_true self)⟩
  · rw [if_neg (by simpa using self)]
    by_cases there : dep ∈ rules.deps target
    · exact .inr (.inl ⟨there, if_pos there⟩)
    · rw [if_neg there]
      refine .inr (.inr fun x y => ?_)
      by_cases here : x = target
      · subst here
        rw [Rules.Edge, Rules.deps, lookup_set_self]
        simp [insertEdge, Rules.Edge]
      · rw [Rules.Edge, Rules.deps, lookup_set_other _ here]
        simp [insertEdge, Rules.Edge, Rules.deps, here]

theorem adddep_acyclic (acyclic : Acyclic rules.Edge) :
    Acyclic (rules.adddep target dep).Edge ↔ ¬ReflTransGen rules.Edge dep target := by
  rcases @adddep_edge rules target dep with ⟨self, -⟩ | ⟨there, same⟩ | added
  · exact absurd (.single self) (acyclic dep)
  · rw [same]
    exact iff_of_true acyclic fun back => acyclic target (TransGen.head' there back)
  · rw [Acyclic.congr added, acyclic_insertEdge, and_iff_right acyclic]

theorem parsed_snoc (calls : List Call) (call : Call) :
    parsed (calls ++ [call]) = (parsed calls).bind fun rules => call.enter rules := by
  rw [parsed, List.foldlM_append]
  simp only [parsed, List.foldlM_cons, List.foldlM_nil]
  exact congrArg _ (funext fun rules => bind_pure _)

/-- The graph stays acyclic exactly when no added dependency leads back to its target. -/
theorem staysAcyclic_iff (calls : List Call) : StaysAcyclic calls ↔ NoCycleClosed calls := by
  constructor
  · rintro stays before target dep after rfl rules entered
    have acyclic := stays before _ rfl rules entered
    have next := stays (before ++ [.adddep target dep]) after (by simp)
      (rules.adddep target dep) (by rw [parsed_snoc, entered]; rfl)
    exact (adddep_acyclic acyclic).mp next
  · intro none before
    induction before using List.reverseRecOn with
    | nil =>
      rintro after - rules entered
      cases entered
      intro x cycle
      obtain ⟨y, edge, -⟩ := TransGen.head'_iff.mp cycle
      exact (List.not_mem_nil edge).elim
    | append_singleton before call ih =>
      rintro after rfl rules entered
      rw [parsed_snoc] at entered
      obtain ⟨earlier, parsedEarlier, entered⟩ := Option.bind_eq_some_iff.mp entered
      have acyclic := ih ([call] ++ after) (by simp) earlier parsedEarlier
      cases call with
      | addtarget target ndeps => exact acyclic.mono (addtarget_edge entered)
      | addrule target actions =>
        cases entered
        exact (Acyclic.congr (addrule_edge actions)).mpr acyclic
      | adddep target dep =>
        cases entered
        exact (adddep_acyclic acyclic).mpr (none before target dep after (by simp) earlier
          parsedEarlier)

/-! ## Where the rules come from -/

/-- A dependency in the graph was added. -/
theorem parsed_edge (entered : parsed calls = some rules) (edge : rules.Edge target dep) :
    .adddep target dep ∈ calls := by
  induction calls using List.reverseRecOn generalizing rules with
  | nil =>
    cases entered
    exact (List.not_mem_nil edge).elim
  | append_singleton calls call ih =>
    rw [parsed_snoc] at entered
    obtain ⟨earlier, parsedEarlier, entered⟩ := Option.bind_eq_some_iff.mp entered
    have old (edge : earlier.Edge target dep) : Call.adddep target dep ∈ calls ++ [call] :=
      List.mem_append_left _ (ih parsedEarlier edge)
    cases call with
    | addtarget t ndeps => exact old (addtarget_edge entered _ _ edge)
    | addrule t actions =>
      cases entered
      exact old ((addrule_edge actions _ _).mp edge)
    | adddep t d =>
      cases entered
      rcases @adddep_edge earlier t d with ⟨-, same⟩ | ⟨-, same⟩ | added
      · exact old (same ▸ edge)
      · exact old (same ▸ edge)
      · rcases (added _ _).mp edge with there | ⟨rfl, rfl⟩
        · exact old there
        · exact List.mem_append_right _ (List.mem_singleton.mpr rfl)

/-- The actions of a target were entered. -/
theorem parsed_actions (entered : parsed calls = some rules)
    (some : (rules.lookup target).actions ≠ none) : ∃ actions, .addrule target actions ∈ calls := by
  induction calls using List.reverseRecOn generalizing rules with
  | nil =>
    cases entered
    exact absurd rfl some
  | append_singleton calls call ih =>
    rw [parsed_snoc] at entered
    obtain ⟨earlier, parsedEarlier, entered⟩ := Option.bind_eq_some_iff.mp entered
    have old (some : (earlier.lookup target).actions ≠ none) :
        ∃ actions, Call.addrule target actions ∈ calls ++ [call] := by
      obtain ⟨actions, member⟩ := ih parsedEarlier some
      exact ⟨actions, List.mem_append_left _ member⟩
    cases call with
    | addtarget t ndeps => exact old ((addtarget_fields entered target).1 ▸ some)
    | addrule t actions =>
      cases entered
      by_cases here : target = t
      · subst here
        exact ⟨actions, List.mem_append_right _ (List.mem_singleton.mpr rfl)⟩
      · rw [Rules.addrule, lookup_set_other _ here] at some
        exact old some
    | adddep t d =>
      cases entered
      refine old ?_
      unfold Rules.adddep at some
      split at some
      · exact some
      · split at some
        · exact some
        · rwa [lookup_set_field Target.actions _ (by rfl)] at some

/-- The target of a call. -/
def Call.subject : Call → Name
  | .addtarget target _ => target
  | .adddep target _ => target
  | .addrule target _ => target

/-- Only finitely many targets have dependencies or actions. -/
theorem parsed_finite (entered : parsed calls = some rules) :
    {target | (∃ dep, rules.Edge target dep) ∨ (rules.lookup target).actions ≠ none}.Finite := by
  refine (List.finite_toSet (calls.map Call.subject)).subset ?_
  rintro target (⟨dep, edge⟩ | some)
  · exact List.mem_map.mpr ⟨_, parsed_edge entered edge, rfl⟩
  · obtain ⟨actions, member⟩ := parsed_actions entered some
    exact List.mem_map.mpr ⟨_, member, rfl⟩

end Scc.Make
