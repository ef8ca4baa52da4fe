import Scc.Ld.Symbol
import Scc.Ld.Resolution

set_option linter.all false

/-! When the scan of an indexed library loads the members that are needed. -/
namespace Scc.Ld

section
variable (base : Symbol → UInt64) (reader : Reader) (bintype : Nat) (file : List UInt8)

/-- The symbols of a member, none where it cannot be loaded. -/
def member (off : Nat) : List Symbol :=
  match object reader bintype file off with
  | .error _ => []
  | .ok obj => obj

/-- The options and loads up to when these members are loaded, too. -/
def history (evs : List Event) (offs : List Nat) : List Event :=
  evs ++ offs.map fun off => .load (member reader bintype file off)

def loaded (trace : Trace) : List Nat :=
  trace.filterMap fun visit => if visit.2 = none then some visit.1 else none

/-- Members are loaded once, for a symbol that is undefined at that moment, as long as one of the
index is. -/
structure Scanned (evs : List Event) (index : Index) (offs : List Nat) : Prop where
  once : offs.Nodup
  needed : ∀ before off after, offs = before ++ off :: after →
    (∃ sym ∈ member reader bintype file off, sym.declares = true ∧
      Undefined (history reader bintype file evs before) sym.name) ∧
    ∃ entry ∈ index, Undefined (history reader bintype file evs before) entry.1
  done : ∀ entry ∈ index, ¬Undefined (history reader bintype file evs offs) entry.1

/-- The scan of the library returns, and has loaded what is needed. -/
def RightScan (evs : List Event) (index : Index) : Prop :=
  ∃ fuel s trace, scanindex base reader bintype file index fuel (run base evs) = some (s, trace) ∧
    Scanned reader bintype file evs index (loaded trace)

/-- Asked for, or declared in an object. -/
def known (evs : List Event) (x : Name) : Bool :=
  evs.any fun e =>
    match e with
    | .u y => y = x
    | .load obj => obj.any fun sym => sym.declares && sym.name = x

/-- A symbol that `-u` asks for is not declared yet. -/
def Wanted (evs : List Event) : Prop := ∃ x, Asked evs x ∧ ¬Declared evs x

/-- The members to which one pass through the index leads: those with a name that is known or
declared by such a member before. -/
def led (evs : List Event) : Index → List Nat
  | [] => []
  | (name, off) :: index =>
    if known evs name then
      match object reader bintype file off with
      | .error _ => led evs index
      | .ok obj => off :: led (evs ++ [.load obj]) index
    else led evs index

/-- One pass is enough: each of its members declares a symbol that is undefined until then, while
one of the index is, and they declare all that is asked for and all symbols of the index that are
referred to. -/
structure OnePass (evs : List Event) (index : Index) (offs : List Nat) : Prop where
  useful : ∀ before off after, offs = before ++ off :: after →
    (∃ sym ∈ member reader bintype file off, sym.declares = true ∧
      Undefined (history reader bintype file evs before) sym.name) ∧
    ∃ entry ∈ index, Undefined (history reader bintype file evs before) entry.1
  asked : ¬Wanted (history reader bintype file evs offs)
  referenced : ∀ entry ∈ index, Referenced (history reader bintype file evs offs) entry.1 →
    Declared (history reader bintype file evs offs) entry.1

end

section
attribute [local simp] known led history loaded member scanindex pass load run
end

section
variable {base : Symbol → UInt64} {reader : Reader} {bintype : Nat} {file : List UInt8}
  {evs : List Event} {index : Index}

theorem known_iff (x : Name) : known evs x = true ↔ Asked evs x ∨ Declared evs x := by
  rw [known, List.any_eq_true]
  constructor
  · rintro ⟨e, inside, which⟩
    cases e with
    | u y => exact .inl (of_decide_eq_true which ▸ inside)
    | load obj =>
      obtain ⟨sym, member, which⟩ := List.any_eq_true.mp which
      simp only [Bool.and_eq_true, decide_eq_true_eq] at which
      have external := (Bool.and_eq_true_iff.mp which.1).1
      exact .inr ⟨sym, mem_occurrences.mpr ⟨⟨obj, (mem_loads obj).mpr inside, member⟩, external⟩, which⟩
  · rintro (asked | ⟨sym, member, declares, named⟩)
    · exact ⟨.u x, asked, decide_eq_true rfl⟩
    · obtain ⟨⟨obj, inside, member⟩, -⟩ := mem_occurrences.mp member
      refine ⟨.load obj, (mem_loads obj).mp inside, List.any_eq_true.mpr ⟨sym, member, ?_⟩⟩
      simp [declares, named]

theorem known_append {x : Name} (later : List Event) (before : known evs x = true) :
    known (evs ++ later) x = true := by
  simp only [known, List.any_append, Bool.or_eq_true] at before ⊢
  exact .inl before

theorem hasref_run (x : Name) : (run base evs).hasref x = known evs x := by
  have tracks := run_tracks base evs
  rw [Bool.eq_iff_iff, hasref_iff tracks.untyped, tracks.names, known_iff]

variable (base) in
theorem moreundef_run : (run base evs).moreundef = true ↔ Wanted evs := by
  have tracks := run_tracks base evs
  simp only [State.moreundef, Bool.not_eq_true', List.isEmpty_eq_false_iff_exists_mem, Wanted, tracks.undef]

theorem run_snoc (obj : List Symbol) :
    newsyms base (run base evs) obj = run base (evs ++ [.load obj]) := by
  rw [run, run, List.foldl_append]
  rfl

/-! ## One pass -/

variable (base reader bintype file) in
theorem pass_run (evs : List Event) (index : Index) :
    ∃ trace, pass base reader bintype file index (run base evs) =
        (run base (history reader bintype file evs (led reader bintype file evs index)), trace) ∧
      loaded trace = led reader bintype file evs index ∧
      (trace = [] ↔ ∀ entry ∈ index, known evs entry.1 = false) := by
  induction index generalizing evs with
  | nil => exact ⟨[], by simp [pass, led, history], rfl, by simp⟩
  | cons entry index ih =>
    obtain ⟨name, off⟩ := entry
    rw [pass, hasref_run, led]
    cases reached : known evs name with
    | false =>
      obtain ⟨trace, passed, same, empty⟩ := ih evs
      refine ⟨trace, passed, same, empty.trans ?_⟩
      simp [reached]
    | true =>
      have other : ¬∀ entry ∈ (name, off) :: index, known evs entry.1 = false := by
        intro none
        have := none (name, off) List.mem_cons_self
        rw [reached] at this
        cases this
      rw [if_pos rfl, if_pos rfl, load]
      cases found : object reader bintype file off with
      | error failure =>
        obtain ⟨trace, passed, same, -⟩ := ih evs
        refine ⟨(off, some failure) :: trace, ?_, ?_, by simpa using other⟩
        · simp only [passed]
        · simpa [loaded] using same
      | ok obj =>
        obtain ⟨trace, passed, same, -⟩ := ih (evs ++ [.load obj])
        have here : member reader bintype file off = obj := by
          rw [member, found]
        refine ⟨(off, none) :: trace, ?_, ?_, by simpa using other⟩
        · simp only [run_snoc, passed]
          rw [history, history, List.map_cons, here, List.append_assoc]
          rfl
        · simpa [loaded] using same

/-- A pass leads to the members of an earlier one again. -/
theorem led_again {evs' : List Event} (more : ∀ x, known evs x = true → known evs' x = true)
    {off : Nat} (reached : off ∈ led reader bintype file evs index) :
    off ∈ led reader bintype file evs' index := by
  induction index generalizing evs evs' with
  | nil => cases reached
  | cons entry index ih =>
    obtain ⟨name, other⟩ := entry
    have further {obj : List Symbol} : ∀ x, known (evs ++ [.load obj]) x = true →
        known (evs' ++ [.load obj]) x = true := by
      intro x before
      simp only [known, List.any_append, Bool.or_eq_true] at before ⊢
      exact before.imp_left (more x)
    have onward (obj : List Symbol) : ∀ x, known evs x = true → known (evs' ++ [.load obj]) x = true :=
      fun x before => known_append _ (more x before)
    rw [led] at reached ⊢
    cases first : known evs name with
    | false =>
      rw [first, if_neg Bool.false_ne_true] at reached
      split
      · split
        · exact ih more reached
        · exact List.mem_cons_of_mem _ (ih (onward _) reached)
      · exact ih more reached
    | true =>
      rw [first, if_pos rfl] at reached
      rw [more name first, if_pos rfl]
      split
      · rename_i failure found
        rw [found] at reached
        exact ih more reached
      · rename_i obj found
        rw [found] at reached
        rcases List.mem_cons.mp reached with rfl | later
        · exact List.mem_cons_self
        · exact List.mem_cons_of_mem _ (ih further later)

/-! ## The whole scan -/

theorem history_nil (evs : List Event) : history reader bintype file evs [] = evs := by
  rw [history, List.map_nil, List.append_nil]

theorem led_nil (none : ∀ entry ∈ index, known evs entry.1 = false) :
    led reader bintype file evs index = [] := by
  induction index with
  | nil => rfl
  | cons entry index ih =>
    rw [led, none entry List.mem_cons_self, if_neg Bool.false_ne_true]
    exact ih fun other member => none other (List.mem_cons_of_mem _ member)

theorem scanindex_stops (fuel : Nat) (calm : ¬Wanted evs ∨ ∀ entry ∈ index, known evs entry.1 = false) :
    scanindex base reader bintype file index (fuel + 1) (run base evs) = some (run base evs, []) := by
  by_cases wanted : Wanted evs
  · have none := calm.resolve_left (not_not.mpr wanted)
    obtain ⟨trace, passed, -, empty⟩ :=
      pass_run base reader bintype file evs index
    rw [led_nil none, history_nil, empty.mpr none] at passed
    rw [scanindex, (moreundef_run base).mpr wanted, passed]
    rfl
  · have nothing : (run base evs).moreundef = false := by
      rw [← Bool.not_eq_true, moreundef_run base]
      exact wanted
    rw [scanindex, nothing]
    rfl

variable (base reader bintype file) in
theorem scanindex_goes (fuel : Nat) (wanted : Wanted evs)
    (some_ : ¬∀ entry ∈ index, known evs entry.1 = false) : ∃ first,
    loaded first = led reader bintype file evs index ∧
    scanindex base reader bintype file index (fuel + 1) (run base evs) =
      (scanindex base reader bintype file index fuel
        (run base (history reader bintype file evs (led reader bintype file evs index)))).map
          fun (s, later) => (s, first ++ later) := by
  obtain ⟨trace, passed, same, empty⟩ :=
    pass_run base reader bintype file evs index
  refine ⟨trace, same, ?_⟩
  have more := (moreundef_run base).mpr wanted
  rw [scanindex, more, passed]
  cases trace with
  | nil => exact absurd (empty.mp rfl) some_
  | cons visit trace => rfl

/-- Nothing is gained by a pass in which every member is refused. -/
theorem scanindex_refused (fuel : Nat) (wanted : Wanted evs)
    (some_ : ¬∀ entry ∈ index, known evs entry.1 = false)
    (refused : led reader bintype file evs index = []) :
    scanindex base reader bintype file index fuel (run base evs) = none := by
  induction fuel with
  | zero => rfl
  | succ fuel ih =>
    obtain ⟨first, -, ran⟩ := scanindex_goes base reader bintype file fuel wanted some_
    rw [ran, refused, history_nil, ih]
    rfl

theorem declared_history {offs : List Nat} {off : Nat} (inside : off ∈ offs) {sym : Symbol}
    (of : sym ∈ member reader bintype file off) (declares : sym.declares = true) :
    Declared (history reader bintype file evs offs) sym.name := by
  refine ⟨sym, mem_occurrences.mpr ⟨⟨_, (mem_loads _).mpr ?_, of⟩, (Bool.and_eq_true_iff.mp declares).1⟩,
    declares, rfl⟩
  rw [history, List.mem_append]
  exact .inr (List.mem_map.mpr ⟨off, inside, rfl⟩)

/-- A member that declares a new symbol is not loaded before. -/
theorem once_of_useful {offs : List Nat}
    (useful : ∀ before off after, offs = before ++ off :: after →
      ∃ sym ∈ member reader bintype file off, sym.declares = true ∧
        Undefined (history reader bintype file evs before) sym.name) : offs.Nodup := by
  induction offs using List.reverseRecOn with
  | nil => exact List.nodup_nil
  | append_singleton offs off ih =>
    rw [List.nodup_append]
    refine ⟨ih fun before other after split => ?_, List.pairwise_singleton _ off, ?_⟩
    · exact useful before other (after ++ [off]) (by rw [split, List.append_assoc]; rfl)
    · intro other inside last same again
      obtain ⟨sym, of, declares, undefined⟩ := useful offs off [] rfl
      rw [again, List.mem_singleton.mp same] at inside
      exact ((undefined_iff _).mp undefined).2 (declared_history inside of declares)

theorem not_undefined_iff (x : Name) : ¬Undefined evs x ↔ (Referenced evs x → Declared evs x) := by
  rw [undefined_iff, not_and, not_not]

end

/-- A library with one member, which defines the name of one letter. -/
def oneReader : Reader where
  objprobe _ := some 0x20
  readobj _ _ := some [⟨[120], 'T', 0, 4⟩]

end Scc.Ld
