import Scc.As.Files

set_option linter.all false

/-! The assembler on several files: the contents of a section are those of the last file. -/
namespace Scc.As
open Transition

variable {env : Env} {argv : List Name}

theorem start_fresh {s : State} (started : State.start = .ok s) :
    s.pass = 1 ∧ s.log = [] ∧ nextline s.inputs = none ∧
      ∀ sec ∈ s.secs, sec.base = 0 ∧ sec.size = 0 ∧ sec.fp = none := by
  have computed : (State.start.toOption.map fun s => (s.pass, s.log, s.inputs.isEmpty,
      s.secs.map fun sec => (sec.base, sec.size, sec.fp))) =
      some (1, [], true, [(0, 0, none), (0, 0, none), (0, 0, none)]) := by
    rfl
  rw [started] at computed
  simp only [Except.toOption, Option.map_some, Option.some.injEq, Prod.mk.injEq, List.isEmpty_iff] at computed
  obtain ⟨pass, log, inputs, secs⟩ := computed
  refine ⟨pass, log, by rw [inputs]; rfl, fun sec inside => ?_⟩
  have known : (sec.base, sec.size, sec.fp) ∈ s.secs.map fun sec => (sec.base, sec.size, sec.fp) :=
    List.mem_map_of_mem inside
  rw [secs] at known
  simpa using known

/-- A run is between the passes, with nothing to read, or within the pass over a file. -/
inductive Holds (argv : List Name) : Run → Prop where
  | between (s : State) (nothing : (if s.endpass then none else nextline s.inputs) = none)
      (pass : s.log = [] ∧ s.pass = 1 ∨ s.log.length = argv.length ∧ s.pass = 2)
      (inside : ∀ (k : Nat) (sec : Lsection), s.secs[k]? = some sec →
        sec.base = 0 ∧ sec.size = largest k s.log ∧ sec.fp = none)
      (outside : ∀ k, s.secs.length ≤ k → largest k s.log = 0) : Holds argv ⟨argv, s⟩
  | first (s : State) (todo : List Name) (current : List Event) (older : List (List Event))
      (one : s.pass = 1) (log : s.log = current :: older)
      (count : older.length + 1 + todo.length = argv.length)
      (sections : Sections false (fun k => largest k older) current s) : Holds argv ⟨todo, s⟩
  | second (s : State) (todo : List Name) (current : List Event) (newer older : List (List Event))
      (two : s.pass = 2) (log : s.log = current :: (newer ++ older)) (whole : older.length = argv.length)
      (count : newer.length + 1 + todo.length = argv.length)
      (sections : Sections true (fun k => largest k older) current s)
      (values : Values (current :: newer) s) : Holds argv ⟨todo, s⟩

theorem Holds.start {s : State} (started : State.start = .ok s) : Holds argv ⟨argv, s⟩ := by
  obtain ⟨pass, log, nothing, fresh⟩ := start_fresh started
  refine .between s ?_ (.inl ⟨log, pass⟩) ?_ ?_
  · rw [nothing, ite_self]
  · intro k sec there
    rw [log]
    exact fresh sec (List.mem_of_getElem? there)
  · intro k _
    rw [log]
    rfl

theorem addinput_eq {s s' : State} {fname : Name} (opened : s.addinput env fname = .ok s') :
    ∃ lines, env.fopen fname = some lines ∧ s' = { s with inputs := lines :: s.inputs } := by
  unfold State.addinput at opened
  split at opened
  · cases opened
  split at opened
  · rename_i lines found
    cases opened
    exact ⟨lines, found, rfl⟩
  · cases opened

/-- A line in the pass over a file. -/
theorem Holds.line {r : Run} {s : State} {l : Line} {inputs : List (List Line)} (h : Holds argv r)
    (next : (if r.s.endpass then none else nextline r.s.inputs) = some (l, inputs))
    (done : State.line env { r.s with inputs } l = .ok s) : Holds argv { r with s } := by
  have changes := State.line_changes done
  cases h with
  | between s₀ nothing pass inside outside =>
    rw [nothing] at next
    cases next
  | first s₀ todo current older one log count sections =>
    obtain ⟨current', log', sections', -⟩ := Sections.run (s := { s₀ with inputs })
      (sections.quiet rfl rfl) changes log
    exact .first s todo current' older (changes.pass.trans one) log' count sections'
  | second s₀ todo current newer older two log whole count sections values =>
    obtain ⟨current', log', sections', values'⟩ := Sections.run (s := { s₀ with inputs })
      (sections.quiet rfl rfl) changes log
    exact .second s todo current' newer older (changes.pass.trans two) log' whole count sections'
      (values' newer (values.quiet fun _ => rfl))

/-- The start of the pass over a file. -/
theorem Holds.file {r : Run} {s : State} {fname : Name} {todo : List Name} (h : Holds argv r)
    (files : r.todo = fname :: todo) (opened : r.s.addinput env fname = .ok s) :
    Holds argv ⟨todo, { s.cleansecs with endpass := false }⟩ := by
  obtain ⟨lines, -, rfl⟩ := addinput_eq opened
  cases h with
  | between s₀ nothing pass inside outside =>
    dsimp only at files
    subst files
    rcases pass with ⟨empty, one⟩ | ⟨whole, two⟩
    · refine .first _ todo [] [] one ?_ ?_ ?_
      · exact congrArg ([] :: ·) empty
      · simp only [List.length_nil, List.length_cons]
        omega
      · refine Sections.quiet (Sections.cleansecs (s := { s₀ with inputs := lines :: s₀.inputs })
          (by simp [one]) ?_ ?_ (.inl one)) rfl rfl
        · intro k sec there
          obtain ⟨base, size, closed⟩ := inside k sec there
          rw [empty] at size
          exact ⟨base, size, fun _ => closed⟩
        · exact fun k _ => rfl
    · refine .second _ todo [] [] s₀.log two rfl whole ?_ ?_ ?_
      · simp only [List.length_nil, List.length_cons]
        omega
      · refine Sections.quiet (Sections.cleansecs (s := { s₀ with inputs := lines :: s₀.inputs })
          (by simp [two]) ?_ outside (.inr two)) rfl rfl
        intro k sec there
        obtain ⟨base, size, closed⟩ := inside k sec there
        exact ⟨base, size, fun _ => closed⟩
      · have none_ : Values [] s₀ := by
          intro i k newer older pre post split
          simp at split
        exact none_.newfile fun _ => rfl
  | first s₀ todo₀ current older one log count sections =>
    dsimp only at files
    subst files
    refine .first _ todo [] (current :: older) one ?_ ?_ ?_
    · exact congrArg ([] :: ·) log
    · simp only [List.length_cons] at count ⊢
      omega
    · refine Sections.quiet (Sections.cleansecs (s := { s₀ with inputs := lines :: s₀.inputs })
        sections.pass ?_ ?_ (.inl one)) rfl rfl
      · intro k sec there
        have h := sections.inside k sec there
        exact ⟨h.base, h.size, h.closed⟩
      · intro k none
        obtain ⟨nothing, size, -⟩ := sections.outside k none
        simp only [largest, List.map_cons, List.foldr_cons, nothing] at size ⊢
        simpa using size
  | second s₀ todo₀ current newer older two log whole count sections values =>
    dsimp only at files
    subst files
    refine .second _ todo [] (current :: newer) older two ?_ whole ?_ ?_ ?_
    · exact congrArg ([] :: ·) log
    · simp only [List.length_cons] at count ⊢
      omega
    · refine Sections.quiet (Sections.cleansecs (s := { s₀ with inputs := lines :: s₀.inputs })
        sections.pass ?_ ?_ (.inr two)) rfl rfl
      · intro k sec there
        have h := sections.inside k sec there
        exact ⟨h.base, h.size, h.closed⟩
      · exact fun k none => (sections.outside k none).2.1
    · exact values.newfile fun _ => rfl

/-- The start of the second pass. -/
theorem Holds.switch {r : Run} (h : Holds argv r) (files : r.todo = []) (one : r.s.pass = 1)
    (nothing : (if r.s.endpass then none else nextline r.s.inputs) = none) :
    Holds argv ⟨argv, { r.s with pass := 2 }⟩ := by
  cases h with
  | between s _ pass inside outside =>
    dsimp only at files
    subst files
    refine .between _ nothing (.inr ?_) inside outside
    rcases pass with ⟨empty, -⟩ | ⟨-, two⟩
    · simp [empty]
    · rw [two] at one
      cases one
  | first s todo current older _ log count sections =>
    dsimp only at files
    subst files
    refine .between _ nothing (.inr ⟨?_, rfl⟩) ?_ ?_
    · simpa [log] using count
    · intro k sec there
      have h := sections.inside k sec there
      rw [show ({ s with pass := 2 } : State).log = current :: older from log]
      exact ⟨h.base, h.size, h.closed rfl⟩
    · intro k none
      obtain ⟨empty, size, -⟩ := sections.outside k none
      rw [show ({ s with pass := 2 } : State).log = current :: older from log]
      simp only [largest, List.map_cons, List.foldr_cons, empty] at size ⊢
      simpa using size
  | second s todo current newer older two =>
    rw [two] at one
    cases one

theorem Holds.step {r r' : Run} (h : Holds argv r) (step : r.step env argv = .ok (some r')) :
    Holds argv r' := by
  unfold Run.step at step
  split at step
  · rename_i l inputs next
    obtain ⟨s, done, step⟩ := bind_ok.mp step
    cases step
    exact h.line next done
  · rename_i nothing
    split at step
    · rename_i fname todo files
      obtain ⟨s, opened, step⟩ := bind_ok.mp step
      cases step
      exact h.file files opened
    · rename_i files
      split at step
      · rename_i one
        cases step
        exact h.switch files one nothing
      · cases step

theorem Holds.run {r r' : Run} (h : Holds argv r)
    (steps : Relation.ReflTransGen (fun r r' => Run.step env argv r = .ok (some r')) r r') :
    Holds argv r' := by
  induction steps with
  | refl => exact h
  | tail _ step ih => exact ih.step step

/-! ## The end of a run -/

theorem defines_append (i : Nat) (f g : List Event) : defines i (f ++ g) = (defines i f || defines i g) :=
  List.any_append

theorem defines_reverse (i : Nat) (log : List (List Event)) :
    defines i log.reverse.flatten = defines i log.flatten := by
  induction log with
  | nil => rfl
  | cons g log ih =>
    simp [defines_append, ih, Bool.or_comm]

/-- What the last file leaves of a section. -/
def rest (k : Nat) : List (List Event) → List UInt8
  | [] => []
  | current :: _ => if .newsec k ∈ current then [] else bytes k current

/-- The passes are over; the last file comes first. -/
structure Over (n : Nat) (s : State) (second first : List (List Event)) : Prop where
  secondpass : s.secondpass n = second.reverse
  firstpass : s.firstpass n = first.reverse
  contents : ∀ (k : Nat) (sec : Lsection), s.secs[k]? = some sec → sec.flags.SALLOC = true →
    sec.contents = rest k second
  size : ∀ (k : Nat) (sec : Lsection), s.secs[k]? = some sec → sec.size = largest k first
  values : Values second s

theorem Holds.finished {r : Run} (h : Holds argv r) (ended : r.step env argv = .ok none) :
    ∃ second first, Over argv.length r.s second first := by
  unfold Run.step at ended
  split at ended
  · obtain ⟨s, -, ended⟩ := bind_ok.mp ended
    cases ended
  split at ended
  · obtain ⟨s, -, ended⟩ := bind_ok.mp ended
    cases ended
  rename_i files
  split at ended
  · cases ended
  rename_i notOne
  cases h with
  | between s nothing pass inside outside =>
    dsimp only at files
    subst files
    have empty : s.log = [] := by
      rcases pass with ⟨empty, -⟩ | ⟨whole, -⟩
      · exact empty
      · exact List.length_eq_zero_iff.mp whole
    refine ⟨[], [], by simp [State.secondpass, empty], by simp [State.firstpass, empty], ?_, ?_, ?_⟩
    · intro k sec there _
      simp [Lsection.contents, (inside k sec there).2.2, rest]
    · intro k sec there
      rw [(inside k sec there).2.1, empty]
    · intro i k newer older pre post split
      simp at split
  | first s todo current older one => exact absurd one notOne
  | second s todo current newer older two log whole count sections values =>
    dsimp only at files
    subst files
    have length : (current :: newer).length = argv.length := by simpa using count
    have log : s.log = (current :: newer) ++ older := log
    refine ⟨current :: newer, older, ?_, ?_, ?_, ?_, values⟩
    · rw [State.secondpass, log, ← length, List.take_left]
    · rw [State.firstpass, log, ← length, List.drop_left]
    · intro k sec there alloc
      rw [Lsection.contents, (sections.inside k sec there).fp rfl alloc, rest]
      split <;> rfl
    · exact fun k sec there => (sections.inside k sec there).size

section
variable {n : Nat} {s : State} {second first : List (List Event)}

theorem Over.contents_iff (h : Over n s second first) {k : Nat} {sec : Lsection}
    (there : s.secs[k]? = some sec) (alloc : sec.flags.SALLOC = true) :
    sec.contents = bytes k (s.secondpass n).flatten ↔
      ∀ before last, s.secondpass n = before ++ [last] →
        bytes k before.flatten = [] ∧ (.newsec k ∈ last → bytes k last = []) := by
  rw [h.contents k sec there alloc, h.secondpass]
  cases second with
  | nil => simp [rest]
  | cons current newer =>
    rw [List.reverse_cons]
    have unique (P : List (List Event) → List Event → Prop) :
        (∀ before last, newer.reverse ++ [current] = before ++ [last] → P before last) ↔
          P newer.reverse current := by
      constructor
      · exact fun h => h _ _ rfl
      · intro p before last same
        obtain ⟨rfl, one⟩ := List.append_inj' same rfl
        obtain rfl := List.head_eq_of_cons_eq one
        exact p
    rw [unique fun before last => bytes k before.flatten = [] ∧ (.newsec k ∈ last → bytes k last = []),
      List.flatten_append, bytes_append, rest]
    have single : bytes k [current].flatten = bytes k current := by simp
    rw [single]
    split
    · rename_i new
      rw [eq_comm, List.append_eq_nil_iff]
      simp [new]
    · rename_i old
      simp [old]

theorem length_bytes_flatten (k : Nat) (log : List (List Event)) :
    (bytes k log.flatten).length = (log.map fun g => (bytes k g).length).sum := by
  induction log with
  | nil => rfl
  | cons g log ih => simp [ih]

theorem Over.size_iff (h : Over n s second first) {k : Nat} {sec : Lsection} (there : s.secs[k]? = some sec) :
    sec.size = (bytes k (s.firstpass n).flatten).length ↔
      (s.firstpass n).Pairwise fun f g => bytes k f = [] ∨ bytes k g = [] := by
  rw [h.size k sec there, h.firstpass, length_bytes_flatten, List.map_reverse, List.sum_reverse, largest,
    foldr_max_eq_sum, List.pairwise_map, List.pairwise_reverse]
  simp only [List.length_eq_zero_iff, or_comm]

theorem Over.value (h : Over n s second first) {i k : Nat} {before after : List (List Event)}
    {pre post : List Event} (split : s.secondpass n = before ++ (pre ++ .label i k :: post) :: after)
    (last : defines i (post ++ after.flatten) = false) : s.valueOf i = (bytes k pre).length := by
  rw [defines_append, Bool.or_eq_false_iff] at last
  refine h.values i k after.reverse before.reverse pre post ?_ last.1 ?_
  · rw [h.secondpass] at split
    have reversed := congrArg List.reverse split
    simpa using reversed
  · rw [defines_reverse]
    exact last.2

end

/-- `NOP` with the label `x` in the file `a` and with `y` in the file `b`. -/
def two : Env where
  instab name := if name = ['N', 'O', 'P'] then some [⟨1, .noargs, [0], none⟩] else none
  fopen name :=
    if name = ['a'] then some [.fields (some ['x']) (some ['n', 'o', 'p']) none]
    else if name = ['b'] then some [.fields (some ['y']) (some ['n', 'o', 'p']) none]
    else none

/-- So many steps of a run. -/
def Run.steps (env : Env) (argv : List Name) : Nat → Run → Option Run
  | 0, r => some r
  | n + 1, r =>
    match r.step env argv with
    | .ok (some r) => Run.steps env argv n r
    | _ => none

theorem Run.steps_run {n : Nat} {r r' : Run} (steps : Run.steps env argv n r = some r') :
    Relation.ReflTransGen (fun r r' => Run.step env argv r = .ok (some r')) r r' := by
  induction n generalizing r with
  | zero =>
    cases steps
    exact .refl
  | succ n ih =>
    rw [Run.steps] at steps
    split at steps
    · rename_i next step
      exact .head step (ih steps)
    · cases steps

/-- Both files in nine steps, with the sections that are written. -/
theorem two_assembles : ∃ r, Assembles two [['a'], ['b']] r ∧
    r.s.secs[0]?.map (fun sec => (sec.flags.SALLOC, sec.contents)) = some (true, [0]) ∧
    (r.s.secondpass 2).flatten = [.label 32 0, .emit 0 [0], .label 33 0, .emit 0 [0]] := by
  have computed : (State.start.toOption.bind fun s =>
      (Run.steps two [['a'], ['b']] 9 ⟨[['a'], ['b']], s⟩).bind fun r =>
        match r.step two [['a'], ['b']] with
        | .error _ => none
        | .ok (some _) => none
        | .ok none => some (r.s.secs[0]?.map fun sec => (sec.flags.SALLOC, sec.contents), (r.s.secondpass 2).flatten)) =
      some (some (true, [0]), [.label 32 0, .emit 0 [0], .label 33 0, .emit 0 [0]]) := by
    rfl
  obtain ⟨s, started, computed⟩ := Option.bind_eq_some_iff.mp computed
  obtain ⟨r, steps, computed⟩ := Option.bind_eq_some_iff.mp computed
  have started : State.start = .ok s := by
    cases start : State.start with
    | error e => simp [start, Except.toOption] at started
    | ok s' =>
      rw [start] at started
      exact congrArg Except.ok (Option.some.inj started)
  split at computed
  · cases computed
  · cases computed
  · rename_i ended
    obtain ⟨text, events⟩ := Prod.mk.inj (Option.some.inj computed)
    exact ⟨r, ⟨s, started, Run.steps_run steps, ended⟩, text, events⟩

end Scc.As
