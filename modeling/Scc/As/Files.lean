import Mathlib.Algebra.GroupWithZero.Nat
import Scc.As.Changes

set_option linter.all false

/-! When the files of one run are assembled one behind the other. -/
namespace Scc.As

/-- What is emitted into a section. -/
def Event.bytes (k : Nat) : Event → List UInt8
  | .emit j bytes => if j = k then bytes else []
  | _ => []

def bytes (k : Nat) (events : List Event) : List UInt8 := events.flatMap (Event.bytes k)

/-- The events that give a symbol its value. -/
def Event.defines (i : Nat) : Event → Bool
  | .label j _ => j = i
  | .equ j => j = i
  | _ => false

def defines (i : Nat) (events : List Event) : Bool := events.any (Event.defines i)

namespace State

/-- What each of `n` files does in the first pass, in order. -/
def firstpass (s : State) (n : Nat) : List (List Event) := (s.log.drop n).reverse

def secondpass (s : State) (n : Nat) : List (List Event) := (s.log.take n).reverse

end State

/-- The files are assembled one behind the other: the contents of each section of the output is what the
files emit into it in the pass that writes, its size what they emit in the pass that computes the sizes,
and each label that keeps its value is at its place. -/
structure Concatenated (n : Nat) (s : State) : Prop where
  contents : ∀ (k : Nat) (sec : Lsection), s.secs[k]? = some sec → sec.flags.SALLOC = true →
    sec.contents = bytes k (s.secondpass n).flatten
  size : ∀ (k : Nat) (sec : Lsection), s.secs[k]? = some sec → sec.flags.SALLOC = true →
    sec.size = (bytes k (s.firstpass n).flatten).length
  labels : ∀ (i k : Nat) (before after : List (List Event)) (pre post : List Event),
    s.secondpass n = before ++ (pre ++ .label i k :: post) :: after →
    defines i (post ++ after.flatten) = false → s.valueOf i = (bytes k (before.flatten ++ pre)).length

/-- Nothing is emitted into a section of the output before the last file, or into one that the second
pass on this file makes; one file at most emits into a section in the first pass; and nothing is emitted
into a section before a file that defines a label there. -/
structure Separate (n : Nat) (s : State) : Prop where
  contents : ∀ (k : Nat) (sec : Lsection), s.secs[k]? = some sec → sec.flags.SALLOC = true →
    ∀ before last, s.secondpass n = before ++ [last] →
      bytes k before.flatten = [] ∧ (.newsec k ∈ last → bytes k last = [])
  size : ∀ (k : Nat) (sec : Lsection), s.secs[k]? = some sec → sec.flags.SALLOC = true →
    (s.firstpass n).Pairwise fun f g => bytes k f = [] ∨ bytes k g = []
  labels : ∀ (i k : Nat) (before after : List (List Event)) (pre post : List Event),
    s.secondpass n = before ++ (pre ++ .label i k :: post) :: after →
    defines i (post ++ after.flatten) = false → bytes k before.flatten = []

/-- A run of the assembler up to where nothing is left to do. -/
def Assembles (env : Env) (argv : List Name) (r : Run) : Prop :=
  ∃ s, State.start = .ok s ∧
    Relation.ReflTransGen (fun r r' => Run.step env argv r = .ok (some r')) ⟨argv, s⟩ r ∧
    Run.step env argv r = .ok none

/-! ## Lists of events -/

@[simp] theorem bytes_nil (k : Nat) : bytes k [] = [] := rfl

@[simp] theorem bytes_append (k : Nat) (f g : List Event) : bytes k (f ++ g) = bytes k f ++ bytes k g :=
  List.flatMap_append

theorem bytes_single (k : Nat) (e : Event) : bytes k [e] = e.bytes k := by
  simp [bytes]

/-- The largest of the sizes is their sum where only one is not 0. -/
theorem foldr_max_eq_sum (sizes : List Nat) :
    sizes.foldr max 0 = sizes.sum ↔ sizes.Pairwise fun a b => a = 0 ∨ b = 0 := by
  have below (sizes : List Nat) : sizes.foldr max 0 ≤ sizes.sum := by
    induction sizes with
    | nil => simp
    | cons a sizes ih =>
      rw [List.foldr_cons, List.sum_cons]
      omega
  induction sizes with
  | nil => simp
  | cons a sizes ih =>
    have small := below sizes
    have zero : sizes.sum = 0 ↔ ∀ b ∈ sizes, b = 0 := List.sum_eq_zero_iff_forall_eq_nat
    rw [List.foldr_cons, List.sum_cons, List.pairwise_cons]
    constructor
    · intro same
      rcases Nat.eq_zero_or_pos a with none | some
      · exact ⟨fun b _ => .inl none, ih.mp (by omega)⟩
      · have rest : sizes.sum = 0 := by omega
        exact ⟨fun b inside => .inr (zero.mp rest b inside), ih.mp (by omega)⟩
    · rintro ⟨apart, rest⟩
      have same := ih.mpr rest
      rcases Nat.eq_zero_or_pos a with none | some
      · omega
      · have rest : sizes.sum = 0 := zero.mpr fun b inside => (apart b inside).resolve_left (by omega)
        omega

/-- The largest part of a section in the passes over the files. -/
def largest (k : Nat) (log : List (List Event)) : Nat := (log.map fun g => (bytes k g).length).foldr max 0

/-! ## What holds within the pass over a file -/

/-- A section after the events of the pass over a file; `before` is the size before the pass. -/
structure Section (second : Bool) (before k : Nat) (current : List Event) (sec : Lsection) : Prop where
  base : sec.base = 0
  curpc : sec.curpc = (bytes k current).length
  pc : sec.pc = (bytes k current).length
  size : sec.size = if second then before else max (bytes k current).length before
  closed : second = false → sec.fp = none
  fp : second = true → sec.flags.SALLOC = true →
    sec.fp = if .newsec k ∈ current then none else some (bytes k current)

structure Sections (second : Bool) (before : Nat → Nat) (current : List Event) (s : State) : Prop where
  pass : second = true ↔ s.pass = 2
  inside : ∀ (k : Nat) (sec : Lsection), s.secs[k]? = some sec → Section second (before k) k current sec
  outside : ∀ k, s.secs.length ≤ k → bytes k current = [] ∧ before k = 0 ∧ .newsec k ∉ current

/-- The symbols have the values of the labels that were defined last. -/
def Values (log : List (List Event)) (s : State) : Prop :=
  ∀ (i k : Nat) (newer older : List (List Event)) (pre post : List Event),
    log = newer ++ (pre ++ .label i k :: post) :: older →
    defines i post = false → defines i newer.flatten = false → s.valueOf i = (bytes k pre).length

section
variable {second : Bool} {before : Nat → Nat} {current : List Event} {s s' : State}

/-- An event that neither makes a section nor emits anything. -/
theorem Section.event {k b : Nat} {sec : Lsection} (h : Section second b k current sec) {e : Event}
    (silent : e.bytes k = []) (old : e ≠ .newsec k) : Section second b k (current ++ [e]) sec := by
  obtain ⟨base, curpc, pc, size, closed, fp⟩ := h
  have same : bytes k (current ++ [e]) = bytes k current := by
    rw [bytes_append, bytes_single, silent, List.append_nil]
  have member : (.newsec k ∈ current ++ [e]) ↔ .newsec k ∈ current := by
    simp [Ne.symm old]
  constructor
  · exact base
  · rw [curpc, same]
  · rw [pc, same]
  · rw [size, same]
  · exact closed
  · intro writes alloc
    rw [fp writes alloc, same]
    simp only [member]

theorem Section.emitted {k b : Nat} {sec : Lsection} (h : Section second b k current sec)
    (pass : second = true ↔ s.pass = 2) (added : List UInt8) :
    Section second b k (current ++ [.emit k added]) (sec.emitted s.pass added) := by
  obtain ⟨base, curpc, pc, size, closed, fp⟩ := h
  have more : bytes k (current ++ [.emit k added]) = bytes k current ++ added := by
    simp [bytes_single, Event.bytes]
  have member : (.newsec k ∈ current ++ [.emit k added]) ↔ .newsec k ∈ current := by
    simp
  constructor
  · exact base
  · rw [more, List.length_append, ← curpc]
    rfl
  · rw [more, List.length_append, ← pc]
    rfl
  · rw [more, List.length_append]
    cases second with
    | true =>
      have two := pass.mp rfl
      simpa [Lsection.emitted, two] using size
    | false =>
      have one : s.pass ≠ 2 := fun two => absurd (pass.mpr two) (by simp)
      simp only [Bool.false_eq_true, if_false] at size ⊢
      simp only [Lsection.emitted, if_neg one, size, pc, base]
      omega
  · intro first
    simp [Lsection.emitted, closed first]
  · intro writes alloc
    simp only [Lsection.emitted, fp writes alloc, more, member]
    split <;> rfl

theorem Sections.event (h : Sections second before current s) {e : Event} (secs : s'.secs = s.secs)
    (pass : s'.pass = s.pass) (silent : ∀ k, e.bytes k = []) (old : ∀ k, e ≠ .newsec k) :
    Sections second before (current ++ [e]) s' := by
  obtain ⟨two, inside, outside⟩ := h
  constructor
  · rw [two, pass]
  · intro k sec there
    rw [secs] at there
    exact (inside k sec there).event (silent k) (old k)
  · intro k none
    rw [secs] at none
    obtain ⟨nothing, size, notNew⟩ := outside k none
    refine ⟨?_, size, ?_⟩
    · rw [bytes_append, bytes_single, nothing, silent]
      rfl
    · simpa [Ne.symm (old k)] using notNew

theorem Sections.quiet (h : Sections second before current s) (secs : s'.secs = s.secs)
    (pass : s'.pass = s.pass) : Sections second before current s' := by
  obtain ⟨two, inside, outside⟩ := h
  constructor
  · rw [two, pass]
  · rwa [secs]
  · rwa [secs]

theorem Sections.newsec (h : Sections second before current s) {sec : Lsection}
    (fresh : sec.base = 0 ∧ sec.size = 0 ∧ sec.fp = none ∧ sec.curpc = 0 ∧ sec.pc = 0)
    (secs : s'.secs = s.secs ++ [sec]) (pass : s'.pass = s.pass) :
    Sections second before (current ++ [.newsec s.secs.length]) s' := by
  obtain ⟨two, inside, outside⟩ := h
  constructor
  · rw [two, pass]
  · intro k sec' there
    rw [secs, List.getElem?_append] at there
    split at there
    · rename_i old
      refine (inside k sec' there).event rfl ?_
      intro same
      exact absurd (Event.newsec.inj same) (by omega)
    · rename_i new
      obtain ⟨last, rfl⟩ : k = s.secs.length ∧ sec' = sec := by
        obtain ⟨small, same⟩ := List.getElem?_eq_some_iff.mp there
        have small : k - s.secs.length < 1 := small
        have place : k = s.secs.length := by omega
        subst place
        simpa [eq_comm] using there
      subst last
      obtain ⟨nothing, size, -⟩ := outside s.secs.length (Nat.le_refl _)
      obtain ⟨base, size', fp, curpc, pc⟩ := fresh
      have none : bytes s.secs.length (current ++ [.newsec s.secs.length]) = [] := by
        rw [bytes_append, bytes_single, nothing]
        rfl
      constructor
      · exact base
      · rw [curpc, none]
        rfl
      · rw [pc, none]
        rfl
      · rw [size', none, size]
        cases second <;> rfl
      · exact fun _ => fp
      · intro _ _
        simp [fp]
  · intro k none
    rw [secs, List.length_append, List.length_singleton] at none
    obtain ⟨nothing, size, notNew⟩ := outside k (by omega)
    refine ⟨?_, size, ?_⟩
    · rw [bytes_append, bytes_single, nothing]
      rfl
    · have other : k ≠ s.secs.length := by omega
      simp [notNew, other]

theorem Sections.emit (h : Sections second before current s) {k : Nat} {added : List UInt8}
    (here : k < s.secs.length) (secs : s'.secs = s.secs.modify k (Lsection.emitted s.pass added))
    (pass : s'.pass = s.pass) : Sections second before (current ++ [.emit k added]) s' := by
  obtain ⟨two, inside, outside⟩ := h
  constructor
  · rw [two, pass]
  · intro j sec there
    rw [secs, List.getElem?_modify] at there
    obtain ⟨old, found, rfl⟩ := Option.map_eq_some_iff.mp there
    by_cases same : k = j
    · subst same
      rw [if_pos rfl]
      exact (inside k old found).emitted two added
    · rw [if_neg same]
      exact (inside j old found).event (if_neg same) (by simp)
  · intro j none
    rw [secs, List.length_modify] at none
    obtain ⟨nothing, size, notNew⟩ := outside j none
    refine ⟨?_, size, by simpa using notNew⟩
    have other : k ≠ j := by omega
    rw [bytes_append, bytes_single, nothing, Event.bytes, if_neg other]
    rfl

/-- One change goes on with the events of the pass. -/
theorem Sections.step (h : Sections second before current s) (changed : Changed s s')
    {older : List (List Event)} (log : s.log = current :: older) :
    ∃ more, s'.log = (current ++ more) :: older ∧ Sections second before (current ++ more) s' := by
  obtain ⟨pass, change⟩ := changed
  cases change with
  | quiet secs log' values =>
    refine ⟨[], ?_, ?_⟩
    · rw [log', log, List.append_nil]
    · rw [List.append_nil]
      exact h.quiet secs pass
  | newsec sec fresh secs log' values =>
    refine ⟨[.newsec s.secs.length], ?_, ?_⟩
    · rw [log', State.note, log]
      rfl
    · exact h.newsec fresh secs pass
  | emit k added inside secs log' values =>
    refine ⟨[.emit k added], ?_, ?_⟩
    · rw [log', State.note, log]
      rfl
    · exact h.emit inside secs pass
  | label i k sec there secs log' value values =>
    refine ⟨[.label i k], ?_, ?_⟩
    · rw [log', State.note, log]
      rfl
    · exact h.event secs pass (fun _ => rfl) fun _ => by simp
  | equ i secs log' values =>
    refine ⟨[.equ i], ?_, ?_⟩
    · rw [log', State.note, log]
      rfl
    · exact h.event secs pass (fun _ => rfl) fun _ => by simp

theorem Values.quiet {log : List (List Event)} (h : Values log s) (values : ∀ i, s'.valueOf i = s.valueOf i) :
    Values log s' := by
  intro i k newer older pre post split last newest
  rw [values]
  exact h i k newer older pre post split last newest

/-- An event that leaves the value of each symbol that it does not define. -/
theorem Values.event {older : List (List Event)} (h : Values (current :: older) s) (e : Event)
    (values : ∀ i, e.defines i = false → s'.valueOf i = s.valueOf i)
    (label : ∀ i k, e = .label i k → s'.valueOf i = (bytes k current).length) :
    Values ((current ++ [e]) :: older) s' := by
  intro i k newer older' pre post split last newest
  cases newer with
  | nil =>
    obtain ⟨here, rfl⟩ := List.cons.inj split
    rcases List.eq_nil_or_concat post with rfl | ⟨post', e', rfl⟩
    · obtain ⟨rfl, same⟩ := List.append_inj' here rfl
      exact label i k (List.head_eq_of_cons_eq same)
    · rw [List.concat_eq_append, ← List.cons_append, ← List.append_assoc] at here
      obtain ⟨before, same⟩ := List.append_inj' here rfl
      obtain rfl := List.head_eq_of_cons_eq same
      simp only [List.concat_eq_append, defines, List.any_append, List.any_cons, List.any_nil, Bool.or_false,
        Bool.or_eq_false_iff] at last
      rw [values i last.2]
      exact h i k [] older pre post' (by rw [before]; rfl) last.1 rfl
  | cons first newer =>
    obtain ⟨rfl, rest⟩ := List.cons.inj split
    simp only [List.flatten_cons, defines, List.any_append, List.any_cons, List.any_nil, Bool.or_false,
      Bool.or_eq_false_iff] at newest
    obtain ⟨⟨current', this⟩, others⟩ := newest
    rw [values i this]
    refine h i k (current :: newer) older' pre post ?_ last ?_
    · rw [rest]
      rfl
    · rw [List.flatten_cons, defines, List.any_append, current', others]
      rfl

theorem Values.step {older rest : List (List Event)} {current' : List Event} (h : Values (current :: older) s)
    (sections : Sections second before current s) (changed : Changed s s')
    (log : s.log = current :: rest) (log' : s'.log = current' :: rest) : Values (current' :: older) s' := by
  obtain ⟨-, change⟩ := changed
  have noted {e : Event} (noted : s'.log = (s.note e).log) : current' = current ++ [e] := by
    rw [log', State.note, log] at noted
    exact (List.cons.inj noted).1
  cases change with
  | quiet secs same values =>
    obtain rfl : current' = current := by
      rw [log', log] at same
      exact (List.cons.inj same).1
    exact h.quiet values
  | newsec sec fresh secs log' values =>
    rw [noted log']
    exact h.event _ (fun i _ => values i) (by simp)
  | emit k added inside secs log' values =>
    rw [noted log']
    exact h.event _ (fun i _ => values i) (by simp)
  | label i k sec there secs log' value values =>
    rw [noted log']
    refine h.event _ (fun j other => values j ?_) ?_
    · rintro rfl
      simp [Event.defines] at other
    · intro j l same
      obtain ⟨rfl, rfl⟩ := Event.label.inj same
      rw [value, (sections.inside k sec there).curpc]
  | equ i secs log' values =>
    rw [noted log']
    refine h.event _ (fun j other => values j ?_) (by simp)
    rintro rfl
    simp [Event.defines] at other

/-- The changes of a line. -/
theorem Sections.run (h : Sections second before current s) (changes : Changes s s') {rest : List (List Event)}
    (log : s.log = current :: rest) :
    ∃ current', s'.log = current' :: rest ∧ Sections second before current' s' ∧
      ∀ older, Values (current :: older) s → Values (current' :: older) s' := by
  induction changes with
  | refl => exact ⟨current, log, h, fun _ values => values⟩
  | tail _ changed ih =>
    obtain ⟨middle, log₁, h₁, values₁⟩ := ih
    obtain ⟨more, log₂, h₂⟩ := h₁.step changed log₁
    exact ⟨_, log₂, h₂, fun older values => (values₁ older values).step h₁ changed log₁ log₂⟩

theorem Values.newfile {log : List (List Event)} (h : Values log s) (values : ∀ i, s'.valueOf i = s.valueOf i) :
    Values ([] :: log) s' := by
  intro i k newer older pre post split last newest
  cases newer with
  | nil => simp at split
  | cons first newer =>
    obtain ⟨rfl, rest⟩ := List.cons.inj split
    rw [values]
    exact h i k newer older pre post rest last (by simpa using newest)

/-- The start of the pass over a file. -/
theorem Sections.cleansecs {before' : Nat → Nat} (pass : second = true ↔ s.pass = 2)
    (inside : ∀ (k : Nat) (sec : Lsection), s.secs[k]? = some sec →
      sec.base = 0 ∧ sec.size = before' k ∧ (second = false → sec.fp = none))
    (outside : ∀ k, s.secs.length ≤ k → before' k = 0) (one : s.pass = 1 ∨ s.pass = 2) :
    Sections second before' [] s.cleansecs := by
  constructor
  · exact pass
  · intro k sec there
    simp only [State.cleansecs, List.getElem?_map] at there
    obtain ⟨old, found, rfl⟩ := Option.map_eq_some_iff.mp there
    obtain ⟨base, size, closed⟩ := inside k old found
    constructor
    · exact base
    · exact base
    · exact base
    · simp only [size, bytes_nil, List.length_nil, Nat.zero_max, ite_self]
    · intro first
      have notTwo : s.pass ≠ 2 := fun two => absurd (pass.mpr two) (by simp [first])
      simp [one.resolve_right notTwo, closed first]
    · intro writes alloc
      have alloc : old.flags.SALLOC = true := alloc
      have two := pass.mp writes
      simp [two, alloc]
  · intro k none
    rw [State.cleansecs, List.length_map] at none
    exact ⟨rfl, outside k none, by simp⟩

end

end Scc.As
