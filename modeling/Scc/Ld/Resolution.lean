import Mathlib.Data.List.Induction
import Scc.Ld.Symbol

set_option linter.all false

/-! When the table of symbols follows the references, common declarations and definitions of the
objects that are loaded. -/
namespace Scc.Ld

/-! ## What the objects say of a symbol -/

/-- Not local to its object. -/
def Symbol.external (sym : Symbol) : Bool := !islower sym.type

/-- A definition or a common declaration. -/
def Symbol.declares (sym : Symbol) : Bool := sym.external && sym.type ≠ 'U'

def loads : List Event → List (List Symbol)
  | [] => []
  | .u _ :: evs => loads evs
  | .load obj :: evs => obj :: loads evs

/-- The external symbols of the loaded objects, in order. -/
def occurrences (evs : List Event) : List Symbol := (loads evs).flatten.filter Symbol.external

/-- A symbol is asked for with `-u`. -/
def Asked (evs : List Event) (x : Name) : Prop := .u x ∈ evs

def Referenced (evs : List Event) (x : Name) : Prop :=
  Asked evs x ∨ ∃ sym ∈ occurrences evs, sym.type = 'U' ∧ sym.name = x

def commons (evs : List Event) (x : Name) : List Symbol :=
  (occurrences evs).filter fun sym => sym.type = 'C' && sym.name = x

def definitions (evs : List Event) (x : Name) : List Symbol :=
  (occurrences evs).filter fun sym => sym.type ≠ 'U' && sym.type ≠ 'C' && sym.name = x

/-- Referenced and neither defined nor declared common so far. -/
def Undefined (evs : List Event) (x : Name) : Prop :=
  Referenced evs x ∧ definitions evs x = [] ∧ commons evs x = []

/-- A symbol of the options and objects. -/
def Occurs (evs : List Event) (x : Name) : Prop :=
  Asked evs x ∨ ∃ sym ∈ occurrences evs, sym.name = x

/-- Just one of three holds. -/
def One (p q r : Prop) : Prop := (p ∧ ¬q ∧ ¬r) ∨ (¬p ∧ q ∧ ¬r) ∨ (¬p ∧ ¬q ∧ r)

/-- The table says what the options and objects say. -/
structure Resolved (evs : List Event) (s : State) : Prop where
  one : ∀ x, Occurs evs x → One (x ∈ s.undef) (x ∈ s.common) (x ∈ s.def_)
  undef : ∀ x, x ∈ s.undef ↔ Undefined evs x
  hasref : ∀ x, s.hasref x = true ↔ x ∈ s.undef
  size : ∀ x ∈ s.common, ∃ sym, s.find x = some sym ∧ (∀ osym ∈ commons evs x, osym.size ≤ sym.size) ∧
    ∃ osym ∈ commons evs x, sym.size = osym.size
  redefined : ∀ x, s.redefined.count x = (definitions evs x).length - 1

/-! ## The table in every run -/

def State.names (s : State) : List Name := s.symtab.map Symbol.name

/-- The types in the table are never set. -/
def State.Untyped (s : State) : Prop := ∀ sym ∈ s.symtab, sym.type = 'U'

section
variable {s : State} {base : Symbol → UInt64}

theorem find_some {x : Name} {sym : Symbol} (found : s.find x = some sym) :
    sym ∈ s.symtab ∧ sym.name = x :=
  ⟨List.mem_of_find?_eq_some found,
    of_decide_eq_true (List.find?_some (p := fun sym : Symbol => decide (sym.name = x)) found)⟩

theorem find_isSome (x : Name) : (s.find x).isSome = true ↔ x ∈ s.names := by
  rw [State.find, List.find?_isSome, State.names, List.mem_map]
  simp only [decide_eq_true_eq]

theorem hasref_iff (untyped : s.Untyped) (x : Name) : s.hasref x = true ↔ x ∈ s.names := by
  rw [← find_isSome]
  cases found : s.find x with
  | none => simp [State.hasref, found]
  | some sym => simp [State.hasref, found, untyped sym (find_some found).1]

/-- What a step does to the names in the table and to the lists. -/
structure Enters (s s' : State) (added declared : Name → Prop) : Prop where
  untyped : s'.Untyped
  names : ∀ x, x ∈ s'.names ↔ x ∈ s.names ∨ added x ∨ declared x
  undef : ∀ x, x ∈ s'.undef ↔ (x ∈ s.undef ∨ (added x ∧ x ∉ s.names)) ∧ ¬declared x
  others : ∀ x, x ∈ s'.common ∨ x ∈ s'.def_ → x ∈ s.common ∨ x ∈ s.def_ ∨ declared x
  redefined : s'.redefined = s.redefined

theorem assign_names (x : Name) (value size : UInt64) : (s.assign x value size).names = s.names := by
  simp only [State.names, State.assign, List.map_map]
  apply List.map_congr_left
  intro sym _
  simp only [Function.comp]
  split <;> rfl

theorem assign_untyped (untyped : s.Untyped) (x : Name) (value size : UInt64) :
    (s.assign x value size).Untyped := by
  intro sym member
  obtain ⟨old, inside, rfl⟩ := List.mem_map.mp member
  split
  · exact untyped old inside
  · exact untyped old inside

theorem lookupsym_found (x : Name) : (s.lookupsym x).1.name = x ∧ (s.lookupsym x).1 ∈ (s.lookupsym x).2.symtab := by
  unfold State.lookupsym
  cases found : s.find x with
  | none => exact ⟨rfl, List.mem_cons_self⟩
  | some sym => exact ⟨(find_some found).2, (find_some found).1⟩

theorem lookupsym_enters (untyped : s.Untyped) (x : Name) :
    Enters s (s.lookupsym x).2 (· = x) fun _ => False := by
  have known := find_isSome (s := s) x
  unfold State.lookupsym
  cases found : s.find x with
  | some sym =>
    have inside : x ∈ s.names := known.mp (by rw [found]; rfl)
    constructor
    · exact untyped
    · intro y
      constructor
      · exact .inl
      · rintro (old | same | never)
        · exact old
        · exact same ▸ inside
        · cases never
    · intro y
      constructor
      · intro old
        exact ⟨.inl old, id⟩
      · rintro ⟨old | ⟨same, outside⟩, -⟩
        · exact old
        · exact absurd (same ▸ inside) outside
    · rintro y (old | old)
      · exact .inl old
      · exact .inr (.inl old)
    · rfl
  | none =>
    have outside : x ∉ s.names := by
      intro inside
      have := known.mpr inside
      rw [found] at this
      cases this
    constructor
    · intro sym member
      rcases List.mem_cons.mp member with rfl | old
      · rfl
      · exact untyped sym old
    · intro y
      simp only [State.names, State.linksym, List.map_cons, List.mem_cons, or_false]
      exact or_comm
    · intro y
      simp only [State.linksym, List.mem_append, List.mem_singleton, not_false_iff, and_true]
      constructor
      · rintro (old | rfl)
        · exact .inl old
        · exact .inr ⟨rfl, outside⟩
      · rintro (old | ⟨same, -⟩)
        · exact .inl old
        · exact .inr same
    · rintro y (old | old)
      · exact .inl old
      · exact .inr (.inl old)
    · rfl

theorem relink_others {lst : Lst} (declared : lst ≠ .undef) (x y : Name)
    (member : y ∈ ((s.unlinksym x).linksym lst x).common ∨ y ∈ ((s.unlinksym x).linksym lst x).def_) :
    y ∈ s.common ∨ y ∈ s.def_ ∨ y = x := by
  cases lst with
  | undef => exact absurd rfl declared
  | common =>
    simp only [State.linksym, State.unlinksym, List.mem_append, List.mem_filter,
      List.mem_singleton] at member
    tauto
  | def_ =>
    simp only [State.linksym, State.unlinksym, List.mem_append, List.mem_filter,
      List.mem_singleton] at member
    tauto

theorem relink_undef {lst : Lst} (declared : lst ≠ .undef) (x y : Name) :
    y ∈ ((s.unlinksym x).linksym lst x).undef ↔ y ∈ s.undef ∧ y ≠ x := by
  cases lst with
  | undef => exact absurd rfl declared
  | common => simp [State.linksym, State.unlinksym]
  | def_ => simp [State.linksym, State.unlinksym]

theorem relink_table (lst : Lst) (x : Name) : ((s.unlinksym x).linksym lst x).symtab = s.symtab ∧
    ((s.unlinksym x).linksym lst x).redefined = s.redefined := by
  cases lst <;> exact ⟨rfl, rfl⟩

/-- Every symbol is taken for undefined, and goes to the list of its last declaration. -/
theorem define_relinks (untyped : s.Untyped) (osym : Symbol) :
    s.define osym = (((s.lookupsym osym.name).2.assign osym.name osym.value osym.size).unlinksym
      osym.name).linksym (if osym.type = 'C' then .common else .def_) osym.name := by
  have entered := lookupsym_enters untyped osym.name
  obtain ⟨named, inside⟩ := lookupsym_found (s := s) osym.name
  have type := entered.untyped _ inside
  unfold State.define
  generalize s.lookupsym osym.name = found at *
  dsimp only
  rw [type, named]
  rfl

theorem define_enters (untyped : s.Untyped) (osym : Symbol) :
    Enters s (s.define osym) (fun _ => False) (· = osym.name) := by
  have entered := lookupsym_enters untyped osym.name
  have untyped' := assign_untyped entered.untyped osym.name osym.value osym.size
  have names' := assign_names (s := (s.lookupsym osym.name).2) osym.name osym.value osym.size
  have declared : (if osym.type = 'C' then Lst.common else Lst.def_) ≠ .undef := by
    split <;> decide
  rw [define_relinks untyped]
  generalize (if osym.type = 'C' then Lst.common else Lst.def_) = lst at *
  obtain ⟨table, redefined⟩ := relink_table
    (s := (s.lookupsym osym.name).2.assign osym.name osym.value osym.size) lst osym.name
  constructor
  · rw [State.Untyped, table]
    exact untyped'
  · intro x
    have added := entered.names x
    rw [State.names, table, ← State.names, names', added]
    tauto
  · intro x
    have left := entered.undef x
    rw [relink_undef declared]
    simp only [State.assign, left]
    tauto
  · intro x member
    have before := entered.others x
    have after := relink_others declared osym.name x member
    simp only [State.assign] at after
    tauto
  · exact redefined.trans entered.redefined

theorem enters_trans {s₁ s₂ : State} {d₁ d₂ : Name → Prop} (one : Enters s s₁ (fun _ => False) d₁)
    (two : Enters s₁ s₂ (fun _ => False) d₂) :
    Enters s s₂ (fun _ => False) fun x => d₁ x ∨ d₂ x where
  untyped := two.untyped
  names x := by
    rw [two.names, one.names]
    tauto
  undef x := by
    rw [two.undef, one.undef]
    tauto
  others x member := by
    have first := one.others x
    have second := two.others x member
    tauto
  redefined := two.redefined.trans one.redefined

theorem enters_refl (untyped : s.Untyped) : Enters s s (fun _ => False) fun _ => False where
  untyped := untyped
  names x := by tauto
  undef x := by tauto
  others x member := by tauto
  redefined := rfl

theorem declares_iff (sym : Symbol) :
    sym.declares = true ↔ ¬(sym.type = 'U' || islower sym.type) = true := by
  rw [Symbol.declares, Symbol.external]
  cases islower sym.type <;> simp

variable (base) in
theorem newsym_enters (untyped : s.Untyped) (osym : Symbol) :
    Enters s (newsym base s osym) (fun _ => False) fun x => osym.declares = true ∧ osym.name = x := by
  unfold newsym
  have entered := define_enters untyped osym
  cases declared : osym.declares with
  | false =>
    rw [if_pos (not_not.mp (mt (declares_iff osym).mpr (by simp [declared])))]
    simpa only [Bool.false_eq_true, false_and] using enters_refl untyped
  | true =>
    rw [if_neg ((declares_iff osym).mp declared)]
    simp only [true_and, eq_comm (a := osym.name)]
    cases found : (s.define osym).find osym.name with
    | none => exact entered
    | some sym =>
      exact ⟨assign_untyped entered.untyped _ _ _, fun x => by rw [assign_names, entered.names],
        entered.undef, entered.others, entered.redefined⟩

variable (base) in
theorem newsyms_enters (untyped : s.Untyped) (obj : List Symbol) :
    Enters s (newsyms base s obj) (fun _ => False)
      fun x => ∃ sym ∈ obj, sym.declares = true ∧ sym.name = x := by
  induction obj generalizing s with
  | nil => simpa [newsyms] using enters_refl untyped
  | cons sym obj ih =>
    have one := newsym_enters base untyped sym
    have two := ih one.untyped
    have both := enters_trans one two
    show Enters s (newsyms base (newsym base s sym) obj) _ _
    simpa only [List.mem_cons, exists_eq_or_imp] using both

end

/-! ## Whole runs -/

def Declared (evs : List Event) (x : Name) : Prop :=
  ∃ sym ∈ occurrences evs, sym.declares = true ∧ sym.name = x

/-- The table has the symbols that are asked for or declared, and does not forget them. -/
structure Tracks (evs : List Event) (s : State) : Prop where
  untyped : s.Untyped
  names : ∀ x, x ∈ s.names ↔ Asked evs x ∨ Declared evs x
  undef : ∀ x, x ∈ s.undef ↔ Asked evs x ∧ ¬Declared evs x
  others : ∀ x, x ∈ s.common ∨ x ∈ s.def_ → Declared evs x
  redefined : s.redefined = []

section
variable {evs : List Event} {base : Symbol → UInt64}

theorem loads_append (evs later : List Event) : loads (evs ++ later) = loads evs ++ loads later := by
  induction evs with
  | nil => rfl
  | cons e evs ih =>
    cases e with
    | u x => exact ih
    | load obj => exact congrArg (obj :: ·) ih

theorem mem_loads (obj : List Symbol) : obj ∈ loads evs ↔ .load obj ∈ evs := by
  induction evs with
  | nil => simp [loads]
  | cons e evs ih =>
    cases e with
    | u x => simp [loads, ih]
    | load obj => simp [loads, ih]

theorem mem_occurrences {sym : Symbol} :
    sym ∈ occurrences evs ↔ (∃ obj ∈ loads evs, sym ∈ obj) ∧ sym.external = true := by
  rw [occurrences, List.mem_filter, List.mem_flatten]

theorem asked_snoc (e : Event) (x : Name) : Asked (evs ++ [e]) x ↔ Asked evs x ∨ e = .u x := by
  rw [Asked, List.mem_append, List.mem_singleton, eq_comm (b := e)]
  rfl

theorem declared_snoc (obj : List Symbol) (x : Name) : Declared (evs ++ [.load obj]) x ↔
    Declared evs x ∨ ∃ sym ∈ obj, sym.declares = true ∧ sym.name = x := by
  have external (sym : Symbol) (declares : sym.declares = true) : sym.external = true :=
    (Bool.and_eq_true_iff.mp declares).1
  have both : occurrences (evs ++ [.load obj]) = occurrences evs ++ obj.filter Symbol.external := by
    rw [occurrences, loads_append, List.flatten_append, List.filter_append]
    simp [occurrences, loads]
  simp only [Declared, both, List.mem_append, List.mem_filter]
  constructor
  · rintro ⟨sym, old | ⟨new, -⟩, declares, rfl⟩
    · exact .inl ⟨sym, old, declares, rfl⟩
    · exact .inr ⟨sym, new, declares, rfl⟩
  · rintro (⟨sym, old, declares, rfl⟩ | ⟨sym, new, declares, rfl⟩)
    · exact ⟨sym, .inl old, declares, rfl⟩
    · exact ⟨sym, .inr ⟨new, external sym declares⟩, declares, rfl⟩

theorem occurrences_u (x : Name) : occurrences (evs ++ [.u x]) = occurrences evs := by
  rw [occurrences, loads_append]
  simp [occurrences, loads]

variable (base) in
theorem run_tracks (evs : List Event) : Tracks evs (run base evs) := by
  induction evs using List.reverseRecOn with
  | nil =>
    constructor
    · intro sym member
      cases member
    · intro x
      simp [run, State.start, State.names, Asked, Declared, occurrences, loads]
    · intro x
      simp [run, State.start, Asked]
    · rintro x (member | member) <;> cases member
    · rfl
  | append_singleton evs e ih =>
    have last : run base (evs ++ [e]) = step base (run base evs) e := by
      rw [run, List.foldl_append]
      rfl
    rw [last]
    generalize run base evs = s at *
    cases e with
    | u name =>
      have entered := lookupsym_enters ih.untyped name
      have asked (x : Name) : Asked (evs ++ [.u name]) x ↔ Asked evs x ∨ x = name := by
        rw [asked_snoc, Event.u.injEq, eq_comm (a := name)]
      have declared (x : Name) : Declared (evs ++ [.u name]) x ↔ Declared evs x := by
        rw [Declared, occurrences_u]
        rfl
      constructor
      · exact entered.untyped
      · intro x
        rw [step, entered.names, ih.names, asked, declared]
        tauto
      · intro x
        rw [step, entered.undef, ih.names, ih.undef, asked, declared]
        tauto
      · intro x member
        have before := ih.others x
        have after := entered.others x member
        rw [declared]
        tauto
      · exact entered.redefined.trans ih.redefined
    | load obj =>
      have entered := newsyms_enters base ih.untyped obj
      have asked (x : Name) : Asked (evs ++ [.load obj]) x ↔ Asked evs x := by
        rw [asked_snoc]
        simp
      constructor
      · exact entered.untyped
      · intro x
        rw [step, entered.names, ih.names, asked, declared_snoc]
        tauto
      · intro x
        rw [step, entered.undef, ih.undef, asked, declared_snoc]
        simp only [false_and, or_false, not_or, and_assoc]
      · intro x member
        have before := ih.others x
        have after := entered.others x member
        rw [declared_snoc]
        tauto
      · exact entered.redefined.trans ih.redefined

theorem declared_iff (x : Name) : Declared evs x ↔ ¬(definitions evs x = [] ∧ commons evs x = []) := by
  have kinds (sym : Symbol) (member : sym ∈ occurrences evs) :
      sym.declares = true ↔ sym.type ≠ 'U' := by
    simp [Symbol.declares, (mem_occurrences.mp member).2]
  constructor
  · rintro ⟨sym, member, declares, rfl⟩ ⟨noDefinition, noCommon⟩
    have other := (kinds sym member).mp declares
    by_cases common : sym.type = 'C'
    · have listed : sym ∈ commons evs sym.name := by
        rw [commons, List.mem_filter]
        exact ⟨member, by simp [common]⟩
      rw [noCommon] at listed
      cases listed
    · have listed : sym ∈ definitions evs sym.name := by
        rw [definitions, List.mem_filter]
        exact ⟨member, by simp [common, other]⟩
      rw [noDefinition] at listed
      cases listed
  · intro some_
    rcases not_and_or.mp some_ with definition | common
    · obtain ⟨sym, listed⟩ := List.exists_mem_of_ne_nil _ definition
      rw [definitions, List.mem_filter] at listed
      obtain ⟨member, which⟩ := listed
      simp only [Bool.and_eq_true, decide_eq_true_eq, ne_eq] at which
      exact ⟨sym, member, (kinds sym member).mpr which.1.1, which.2⟩
    · obtain ⟨sym, listed⟩ := List.exists_mem_of_ne_nil _ common
      rw [commons, List.mem_filter] at listed
      obtain ⟨member, which⟩ := listed
      simp only [Bool.and_eq_true, decide_eq_true_eq] at which
      exact ⟨sym, member, (kinds sym member).mpr (by rw [which.1]; decide), which.2⟩

theorem undefined_iff (x : Name) : Undefined evs x ↔ Referenced evs x ∧ ¬Declared evs x := by
  rw [Undefined, declared_iff, not_not]

/-- The table is right where all external symbols are references that `-u` asks for. -/
theorem resolved_iff (evs : List Event) : Resolved evs (run base evs) ↔
    ∀ sym ∈ occurrences evs, sym.type = 'U' ∧ Asked evs sym.name := by
  have tracks := run_tracks base evs
  generalize run base evs = s at *
  constructor
  · intro resolved
    have none (x : Name) : ¬Declared evs x := by
      intro declared
      have listed := (resolved.hasref x).mp
        ((hasref_iff tracks.untyped x).mpr ((tracks.names x).mpr (.inr declared)))
      exact ((tracks.undef x).mp listed).2 declared
    intro sym member
    have reference : sym.type = 'U' := by
      by_contra other
      have declares : sym.declares = true := by
        simp [Symbol.declares, (mem_occurrences.mp member).2, other]
      exact none sym.name ⟨sym, member, declares, rfl⟩
    refine ⟨reference, ?_⟩
    have undefined : Undefined evs sym.name :=
      (undefined_iff _).mpr ⟨.inr ⟨sym, member, reference, rfl⟩, none sym.name⟩
    exact ((tracks.undef _).mp ((resolved.undef _).mpr undefined)).1
  · intro asked
    have none (x : Name) : ¬Declared evs x := by
      rintro ⟨sym, member, declares, -⟩
      have reference := (asked sym member).1
      simp [Symbol.declares, reference] at declares
    have empty (x : Name) : definitions evs x = [] ∧ commons evs x = [] :=
      not_not.mp (mt (declared_iff x).mpr (none x))
    have occurs (x : Name) : Occurs evs x → Asked evs x := by
      rintro (direct | ⟨sym, member, rfl⟩)
      · exact direct
      · exact (asked sym member).2
    constructor
    · intro x occurred
      exact .inl ⟨(tracks.undef x).mpr ⟨occurs x occurred, none x⟩,
        fun listed => none x (tracks.others x (.inl listed)),
        fun listed => none x (tracks.others x (.inr listed))⟩
    · intro x
      rw [tracks.undef, undefined_iff]
      constructor
      · rintro ⟨direct, other⟩
        exact ⟨.inl direct, other⟩
      · rintro ⟨direct | ⟨sym, member, -, named⟩, other⟩
        · exact ⟨direct, other⟩
        · exact ⟨occurs x (.inr ⟨sym, member, named⟩), other⟩
    · intro x
      rw [hasref_iff tracks.untyped, tracks.names, tracks.undef]
      have := none x
      tauto
    · intro x listed
      exact absurd (tracks.others x (.inl listed)) (none x)
    · intro x
      rw [tracks.redefined, (empty x).1]
      rfl

/-- In a run, the table is right after each load where every external symbol that is loaded is a
reference that `-u` asks for before. -/
theorem resolved_runs_iff (evs : List Event) :
    (∀ before obj after, evs = before ++ .load obj :: after →
      Resolved (before ++ [.load obj]) (run base (before ++ [.load obj]))) ↔
    ∀ before obj after, evs = before ++ .load obj :: after →
      ∀ sym ∈ obj, sym.external = true → sym.type = 'U' ∧ Asked before sym.name := by
  have asked (before : List Event) (obj : List Symbol) (x : Name) :
      Asked (before ++ [.load obj]) x ↔ Asked before x := by
    rw [asked_snoc]
    simp
  constructor
  · intro right before obj after split sym inside external
    have loaded : obj ∈ loads (before ++ [.load obj]) := (mem_loads obj).mpr (by simp)
    obtain ⟨reference, known⟩ := (resolved_iff _).mp (right before obj after split) sym
      (mem_occurrences.mpr ⟨⟨obj, loaded, inside⟩, external⟩)
    exact ⟨reference, (asked before obj _).mp known⟩
  · intro met before obj after split
    apply (resolved_iff _).mpr
    intro sym member
    obtain ⟨⟨other, loaded, inside⟩, external⟩ := mem_occurrences.mp member
    obtain ⟨front, back, place⟩ := List.append_of_mem ((mem_loads other).mp loaded)
    have whole : evs = front ++ .load other :: (back ++ after) := by
      rw [split, List.append_cons, place, List.append_assoc]
      rfl
    obtain ⟨reference, known⟩ := met front other _ whole sym inside external
    refine ⟨reference, ?_⟩
    rw [place]
    exact List.mem_append_left _ known

end

/-- A symbol that is defined is still taken for a reference. -/
theorem defined_not_resolved :
    ¬Resolved [.load [⟨[120], 'T', 0, 4⟩]] (run (fun _ => 0) [.load [⟨[120], 'T', 0, 4⟩]]) := by
  intro resolved
  have listed := (resolved.hasref [120]).mp (by decide)
  exact absurd listed (by decide)

end Scc.Ld
