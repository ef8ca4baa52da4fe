import Scc.Make.BuildProofs

set_option linter.all false

/-! In which order the actions of targets are run. -/
namespace Scc.Make
open Transition Relation

variable {W : Type} {sys : System W} {flags : Flags} {rules : Rules} {name : Name}
  {s s' t : State W} {log mid tr : List Event}

/-- The target an event is about. -/
def Event.subject : Event → Name
  | .checking target _ _ => target
  | .running target _ => target
  | .rebuilt target _ _ _ => target

/-- No target failed. -/
def Clean (tr : List Event) : Prop := ∀ target r build stamp, .rebuilt target r build stamp ∈ tr → r = 0

/-- A dependency was processed, with these results. -/
def Processed (tr : List Event) (dep : Name) : Prop := ∃ build stamp, .rebuilt dep 0 build stamp ∈ tr

/-- A dependency was built or is newer than `stamp`. -/
def Forces (tr : List Event) (deps : List Name) (stamp : Int) : Prop :=
  ∃ dep ∈ deps, ∃ build newer, .rebuilt dep 0 build newer ∈ tr ∧ (build = true ∨ newer > stamp)

/-- The target served as an inference rule for another one. -/
def Served (tr : List Event) (name : Name) : Prop := ∃ other, .running other name ∈ tr

/-- What happened since a target was checked, when its actions are run. -/
structure Visit (rules : Rules) (name : Name) (earlier : List Event) (stamp : Int) (deps : List Name)
    (mid : List Event) : Prop where
  current : deps = rules.deps name ∨ ∃ other, .running other name ∈ earlier ∧ deps = rules.deps other
  once : ∀ rule, .running name rule ∉ mid
  processed : ∀ dep ∈ deps, Processed mid dep
  clean : Clean mid
  needed : ¬Served mid name → stamp = -1 ∨ Forces mid deps stamp

/-- The actions of a target may be run after these events. -/
def Ready (rules : Rules) (name : Name) (before : List Event) : Prop :=
  ∃ earlier stamp deps mid, before = earlier ++ .checking name stamp deps :: mid ∧
    Visit rules name earlier stamp deps mid

/-- Wherever the actions of a target are run, they were to be. -/
def Ordered (rules : Rules) (log : List Event) : Prop :=
  ∀ before name rule after, log = before ++ .running name rule :: after → Ready rules name before

theorem Ordered.snoc (ordered : Ordered rules log) (event : Event)
    (ready : ∀ name rule, event = .running name rule → Ready rules name log) :
    Ordered rules (log ++ [event]) := by
  intro before name rule after split
  rcases List.eq_nil_or_concat after with rfl | ⟨after, last, rfl⟩
  · obtain ⟨rfl, same⟩ := List.append_inj' split rfl
    exact ready name rule (List.singleton_inj.mp same)
  · rw [List.concat_eq_append, ← List.cons_append, ← List.append_assoc] at split
    obtain ⟨same, -⟩ := List.append_inj' split rfl
    exact ordered before name rule after same

/-! ## What a call adds to the log -/

/-- What is kept of the rules and the log in a build. -/
structure Kept (rules : Rules) (s : State W) : Prop where
  within : Within rules s.rules
  recorded : ∀ t, s.rules.deps t = rules.deps t ∨
    ∃ other, .running other t ∈ s.log ∧ s.rules.deps t = rules.deps other
  ordered : Ordered rules s.log

/-- The events that a call adds, all about targets that `about` admits. A stamp changes only where
its target is checked or serves as an inference rule. -/
structure Adds (about : Name → Prop) (s s' : State W) (tr : List Event) : Prop where
  log : s'.log = s.log ++ tr
  about : ∀ event ∈ tr, about event.subject
  stamps : ∀ x, s'.stamp x = s.stamp x ∨ (∃ stamp deps, .checking x stamp deps ∈ tr) ∨ Served tr x

variable {about about' : Name → Prop} {tr' : List Event}

theorem Adds.refl (about : Name → Prop) (s : State W) : Adds about s s [] where
  log := (List.append_nil _).symm
  about := fun _ mem => (List.not_mem_nil mem).elim
  stamps := fun _ => .inl rfl

theorem Adds.trans (first : Adds about s s' tr) (second : Adds about s' t tr') :
    Adds about s t (tr ++ tr') where
  log := by rw [second.log, first.log, List.append_assoc]
  about := by
    intro event member
    rcases List.mem_append.mp member with member | member
    · exact first.about event member
    · exact second.about event member
  stamps := by
    intro x
    rcases second.stamps x with same | ⟨stamp, deps, member⟩ | ⟨other, member⟩
    · rw [same]
      rcases first.stamps x with same | ⟨stamp, deps, member⟩ | ⟨other, member⟩
      · exact .inl same
      · exact .inr (.inl ⟨stamp, deps, List.mem_append_left _ member⟩)
      · exact .inr (.inr ⟨other, List.mem_append_left _ member⟩)
    · exact .inr (.inl ⟨stamp, deps, List.mem_append_right _ member⟩)
    · exact .inr (.inr ⟨other, List.mem_append_right _ member⟩)

theorem Adds.mono (adds : Adds about s s' tr) (wider : ∀ x, about x → about' x) :
    Adds about' s s' tr :=
  ⟨adds.log, fun event member => wider _ (adds.about event member), adds.stamps⟩

theorem Outside.adds (outside : Outside s s') (about : Name → Prop) : Adds about s s' [] where
  log := by rw [outside.log, List.append_nil]
  about := fun _ mem => (List.not_mem_nil mem).elim
  stamps := fun x => .inl (by rw [State.stamp, outside.rules, State.stamp])

theorem Kept.outside (kept : Kept rules s) (outside : Outside s s') : Kept rules s' where
  within := outside.rules ▸ kept.within
  recorded := by
    rw [outside.rules, outside.log]
    exact kept.recorded
  ordered := outside.log ▸ kept.ordered

theorem Kept.note (kept : Kept rules s) (event : Event)
    (ready : ∀ name rule, event = .running name rule → Ready rules name s.log) :
    Kept rules (s.note event) where
  within := kept.within
  recorded := by
    intro t
    rcases kept.recorded t with same | ⟨other, member, same⟩
    · exact .inl same
    · exact .inr ⟨other, List.mem_append_left _ member, same⟩
  ordered := kept.ordered.snoc event ready

theorem note_adds (s : State W) (event : Event) (admitted : about event.subject) :
    Adds about s (s.note event) [event] where
  log := rfl
  about := by
    intro e member
    rw [List.mem_singleton.mp member]
    exact admitted
  stamps := fun _ => .inl rfl

theorem Kept.check (kept : Kept rules s) (name : Name) : Kept rules (s.check sys name) := by
  refine ⟨kept.within.check name, ?_, kept.ordered.snoc _ (fun _ _ same => by cases same)⟩
  intro t
  rw [check_deps]
  rcases kept.recorded t with same | ⟨other, member, same⟩
  · exact .inl same
  · exact .inr ⟨other, List.mem_append_left _ member, same⟩

theorem check_adds (s : State W) (name : Name) (admitted : about name) :
    Adds about s (s.check sys name)
      [.checking name (sys.stamp s.world name) (s.rules.deps name)] where
  log := rfl
  about := by
    intro event member
    rw [List.mem_singleton.mp member]
    exact admitted
  stamps := by
    intro x
    by_cases here : x = name
    · subst here
      exact .inr (.inl ⟨_, _, List.mem_singleton.mpr rfl⟩)
    · left
      exact congrArg Target.stamp (lookup_set_other _ here)

/-- An inference rule that serves a target. -/
theorem Kept.serve {rule fname : Name} {before : State W} (kept : Kept rules before)
    (ruleOf : RuleOf before.rules name rule) (log : s.log = before.log)
    (same : s.rules = used before.rules name rule fname) (ready : Ready rules name before.log) :
    Kept rules (s.note (.running name rule)) := by
  have within : Within rules (used before.rules name rule fname) := kept.within.used ruleOf
  rw [← same] at within
  refine ⟨within, ?_, ?_⟩
  · intro t
    have old : (s.note (.running name rule)).log = before.log ++ [.running name rule] := by
      rw [← log]
      rfl
    rw [old]
    by_cases here : t = rule
    · subst here
      refine .inr ⟨name, List.mem_append_right _ (List.mem_singleton.mpr rfl), ?_⟩
      have plain : (rules.lookup name).actions = none :=
        (kept.within.actions name).symm.trans ruleOf.plain
      rw [← kept.within.plain name plain]
      change s.rules.deps t = _
      rw [same, Rules.deps, used, lookup_set_self]
    · have deps : s.rules.deps t = before.rules.deps t := by
        rw [same, Rules.deps, used, lookup_set_other _ here, Rules.deps]
      rcases kept.recorded t with same | ⟨other, member, same⟩
      · exact .inl (deps.trans same)
      · exact .inr ⟨other, List.mem_append_left _ member, deps.trans same⟩
  · change Ordered rules (s.log ++ [_])
    rw [log]
    refine kept.ordered.snoc _ ?_
    rintro name' rule' same
    cases same
    exact ready

theorem serve_adds {rule fname : Name} {before : State W} (log : s.log = before.log)
    (same : s.rules = used before.rules name rule fname) :
    Adds (· = name) before (s.note (.running name rule)) [.running name rule] where
  log := by
    rw [← log]
    rfl
  about := by
    intro event member
    rw [List.mem_singleton.mp member]
    rfl
  stamps := by
    intro x
    by_cases here : x = rule
    · subst here
      exact .inr (.inr ⟨name, List.mem_singleton.mpr rfl⟩)
    · left
      change (s.rules.lookup x).stamp = _
      rw [same, used, lookup_set_other _ here]
      rfl

/-- `update` runs the actions of its target once at most. -/
theorem update_adds (kept : Kept rules s) (ready : Ready rules name s.log) :
    Kept rules (update sys flags name s).state ∧
      ∃ tr, Adds (· = name) s (update sys flags name s).state tr ∧ Clean tr := by
  rcases @update_cases _ sys flags name s with ⟨s', outside, -, stops | ends⟩ |
    ⟨rule, s', runs, log, -, same⟩
  · rw [stops]
    exact ⟨kept.outside outside, [], outside.adds _, fun _ _ _ _ mem => (List.not_mem_nil mem).elim⟩
  · rw [ends]
    exact ⟨kept.outside outside, [], outside.adds _, fun _ _ _ _ mem => (List.not_mem_nil mem).elim⟩
  · rw [runs]
    have outside := @run_outside _ sys flags rule (s'.note (.running name rule))
    have clean : Clean [.running name rule] := by
      intro _ _ _ _ member
      cases List.mem_singleton.mp member
    rcases same with same | ⟨fname, ruleOf, same⟩
    · have quiet : Outside s s' := ⟨same, log⟩
      have noted := (kept.outside quiet).note (.running name rule) (by
        rintro name' rule' same
        cases same
        rw [log]
        exact ready)
      have adds := (quiet.adds (· = name)).trans (note_adds s' (.running name rule) rfl)
      exact ⟨noted.outside outside, _, adds.trans (outside.adds _), by simpa using clean⟩
    · have noted := kept.serve ruleOf log same ready
      have adds := @serve_adds _ _ _ rule _ _ log same
      exact ⟨noted.outside outside, _, adds.trans (outside.adds _), by simpa using clean⟩

/-- What a return of `rebuild` tells. -/
def Told (name : Name) (result : Result W (Int × Bool)) (tr : List Event) : Prop :=
  ∀ r build s', result = .ok ((r, build), s') →
    .rebuilt name r build (s'.stamp name) ∈ tr ∧ (r = 0 → Clean tr)

theorem returning_adds (kept : Kept rules s) (r : Int) (build : Bool) (adds : Adds (· = name) t s tr)
    (clean : r = 0 → Clean tr) :
    Kept rules (returning name r build s).state ∧
      ∃ tr, Adds (· = name) t (returning name r build s).state tr ∧
        Told name (returning name r build s) tr := by
  refine ⟨kept.note _ (fun _ _ same => by cases same), _, adds.trans (note_adds s _ rfl), ?_⟩
  intro r' build' s' same
  cases same
  refine ⟨List.mem_append_right _ (List.mem_singleton.mpr rfl), ?_⟩
  rintro rfl target r build stamp member
  rcases List.mem_append.mp member with old | new
  · exact clean rfl target r build stamp old
  · cases List.mem_singleton.mp new
    rfl

theorem remake_adds (err need : Bool) (kept : Kept rules s)
    (ready : err = false → need = true ∨ s.stamp name = -1 → Ready rules name s.log) :
    Kept rules (remake sys flags name err need s).state ∧
      ∃ tr, Adds (· = name) s (remake sys flags name err need s).state tr ∧
        Told name (remake sys flags name err need s) tr ∧
        (err = true → ∀ build s', remake sys flags name err need s ≠ .ok ((0, build), s')) := by
  have nothing : Clean [] := fun _ _ _ _ mem => (List.not_mem_nil mem).elim
  rcases @remake_cases _ sys flags name err need s with ⟨ends, failed⟩ | ⟨ends, fine, -⟩ |
    ⟨fine, needed, ended⟩
  · rw [ends]
    obtain ⟨kept', tr, adds, told⟩ :=
      @returning_adds _ _ name _ _ _ kept 1 false (Adds.refl _ s) (fun _ => nothing)
    refine ⟨kept', tr, adds, told, fun _ build s' same => ?_⟩
    cases same
  · rw [ends]
    obtain ⟨kept', tr, adds, told⟩ :=
      @returning_adds _ _ name _ _ _ kept 0 false (Adds.refl _ s) (fun _ => nothing)
    exact ⟨kept', tr, adds, told, fun failed => absurd failed (by simp [fine])⟩
  · obtain ⟨kept', tr, adds, clean⟩ := @update_adds _ sys flags _ name s kept (ready fine needed)
    have last (r : Int) (build : Bool) (s' : State W) (kept : Kept rules s')
        (adds : Adds (· = name) s s' tr) :
        Kept rules (returning name r build s').state ∧
          ∃ tr, Adds (· = name) s (returning name r build s').state tr ∧
            Told name (returning name r build s') tr ∧
            (err = true → ∀ build' s'', returning name r build s' ≠ .ok ((0, build'), s'')) := by
      obtain ⟨kept', tr, adds, told⟩ := returning_adds kept r build adds (fun _ => clean)
      exact ⟨kept', tr, adds, told, fun failed => absurd failed (by simp [fine])⟩
    rcases ended with ⟨s', updated, ends⟩ | ⟨r, s', updated, ⟨-, ends⟩ | ⟨-, -, ends⟩ | ⟨-, -, ends⟩⟩
    · rw [updated] at kept' adds
      rw [ends]
      refine ⟨kept', tr, adds, ?_, fun failed => absurd failed (by simp [fine])⟩
      intro r build s' same
      cases same
    · rw [updated] at kept' adds
      rw [ends]
      exact last 0 true s' kept' adds
    · rw [updated] at kept' adds
      rw [ends]
      have outside : Outside s' { s' with exitstatus := true } := ⟨rfl, rfl⟩
      refine last r true _ (kept'.outside outside) ?_
      have adds' := adds.trans (outside.adds _)
      rwa [List.append_nil] at adds'
    · rw [updated] at kept' adds
      rw [ends]
      have outside : Outside s' { s' with exitstatus := true } := ⟨rfl, rfl⟩
      have adds' := adds.trans (outside.adds _)
      rw [List.append_nil] at adds'
      refine ⟨kept'.outside outside, tr, adds', ?_, fun failed => absurd failed (by simp [fine])⟩
      intro r build s' same
      cases same

/-- What a call of `rebuild` for a target does. -/
def Rebuilds (rules : Rules) (name : Name) (s : State W) (result : Result W (Int × Bool)) : Prop :=
  Kept rules result.state ∧
    ∃ tr, Adds (ReflTransGen (MayDepend rules) name) s result.state tr ∧ Told name result tr

/-- What the loop over the dependencies has found. -/
structure Looped (name : Name) (deps : List Name) (err need : Bool) (s : State W)
    (err' need' : Bool) (tr : List Event) : Prop where
  failed : err = true → err' = true
  clean : err' = false → Clean tr
  processed : err' = false → ∀ dep ∈ deps, Processed tr dep
  forced : err' = false → need' = true →
    need = true ∨ Served tr name ∨ Forces tr deps (s.stamp name)

theorem Processed.mono {dep : Name} (processed : Processed tr dep) (sub : tr ⊆ tr') :
    Processed tr' dep := by
  obtain ⟨build, stamp, member⟩ := processed
  exact ⟨build, stamp, sub member⟩

theorem Served.mono (served : Served tr name) (sub : tr ⊆ tr') : Served tr' name := by
  obtain ⟨other, member⟩ := served
  exact ⟨other, sub member⟩

theorem Forces.mono {deps deps' : List Name} {stamp : Int} (forces : Forces tr deps stamp)
    (sub : tr ⊆ tr') (subDeps : deps ⊆ deps') : Forces tr' deps' stamp := by
  obtain ⟨dep, member, build, newer, event, why⟩ := forces
  exact ⟨dep, subDeps member, build, newer, sub event, why⟩

theorem Clean.append (first : Clean tr) (second : Clean tr') : Clean (tr ++ tr') := by
  intro target r build stamp member
  rcases List.mem_append.mp member with member | member
  · exact first target r build stamp member
  · exact second target r build stamp member

theorem checkDeps_looped {f : Name → State W → Option (Result W (Int × Bool))}
    (acyclic : Acyclic (MayDepend rules))
    (calls : ∀ q s r, f q s = some r → Kept rules s → Rebuilds rules q s r)
    {deps : List Name} {err need : Bool} {result : Result W (Bool × Bool)}
    (below : ∀ q ∈ deps, MayDepend rules name q) (kept : Kept rules s)
    (done : checkDeps f name deps err need s = some result) :
    Kept rules result.state ∧
      ∃ tr, Adds (TransGen (MayDepend rules) name) s result.state tr ∧
        ∀ err' need' s', result = .ok ((err', need'), s') → Looped name deps err need s err' need' tr := by
  induction deps generalizing err need s with
  | nil =>
    cases done
    refine ⟨kept, [], .refl _ s, ?_⟩
    intro err' need' s' same
    cases same
    exact ⟨id, fun _ _ _ _ _ mem => (List.not_mem_nil mem).elim,
      fun _ _ mem => (List.not_mem_nil mem).elim, fun _ => .inl⟩
  | cons q deps ih =>
    obtain ⟨edge, below⟩ := List.forall_mem_cons.mp below
    simp only [checkDeps] at done
    cases called : f q s with
    | none => simp [called] at done
    | some first =>
      obtain ⟨kept', tr, adds, told⟩ := calls q s first called kept
      have adds' := adds.mono fun x path => TransGen.head' edge path
      cases first with
      | error s' =>
        simp only [called, Option.some.injEq] at done
        subst done
        refine ⟨kept', tr, adds', ?_⟩
        intro err' need' s' same
        cases same
      | ok first =>
        obtain ⟨⟨r, build⟩, s'⟩ := first
        obtain ⟨event, clean⟩ := told r build s' rfl
        simp only [Result.state] at kept' adds adds'
        have stamp : s'.stamp name = s.stamp name ∨ Served tr name := by
          rcases adds.stamps name with same | ⟨_, _, checked⟩ | served
          · exact .inl same
          · exact absurd (TransGen.head' edge (adds.about _ checked)) (acyclic name)
          · exact .inr served
        simp only [called] at done
        split at done
        · rename_i bad
          obtain ⟨kept'', tr', more, looped⟩ := ih below kept' done
          refine ⟨kept'', tr ++ tr', adds'.trans more, ?_⟩
          intro err' need' t same
          have failed := (looped err' need' t same).failed rfl
          exact ⟨fun _ => failed, by simp [failed], by simp [failed], by simp [failed]⟩
        · rename_i good
          have zero : r = 0 := by simpa using good
          subst zero
          obtain ⟨kept'', tr', more, looped⟩ := ih below kept' done
          refine ⟨kept'', tr ++ tr', adds'.trans more, ?_⟩
          intro err' need' t same
          have rest := looped err' need' t same
          have left : tr ⊆ tr ++ tr' := List.subset_append_left tr tr'
          have right : tr' ⊆ tr ++ tr' := List.subset_append_right tr tr'
          refine ⟨rest.failed, fun fine => (clean rfl).append (rest.clean fine), ?_, ?_⟩
          · intro fine
            exact List.forall_mem_cons.mpr ⟨⟨build, _, left event⟩,
              fun dep member => (rest.processed fine dep member).mono right⟩
          · intro fine needed
            rcases rest.forced fine needed with now | served | forces
            · simp only [Bool.or_eq_true, decide_eq_true_eq] at now
              rcases now with (old | built) | newer
              · exact .inl old
              · exact .inr (.inr ⟨q, List.mem_cons_self, build, _, left event, .inl built⟩)
              · rcases stamp with same | served
                · rw [same] at newer
                  exact .inr (.inr ⟨q, List.mem_cons_self, build, _, left event, .inr newer⟩)
                · exact .inr (.inl (served.mono left))
            · exact .inr (.inl (served.mono right))
            · rcases stamp with same | served
              · rw [same] at forces
                exact .inr (.inr (forces.mono right (List.subset_cons_self q deps)))
              · exact .inr (.inl (served.mono left))

theorem rebuild_rebuilds (acyclic : Acyclic (MayDepend rules)) {depth : Nat}
    {result : Result W (Int × Bool)} (kept : Kept rules s)
    (done : rebuild sys flags depth name s = some result) : Rebuilds rules name s result := by
  induction depth generalizing name s result with
  | zero => cases done
  | succ depth ih =>
    simp only [rebuild] at done
    have checked := @Kept.check _ sys _ _ kept name
    have start := @check_adds _ sys (ReflTransGen (MayDepend rules) name) s name .refl
    rw [check_deps] at done
    cases loop : checkDeps (rebuild sys flags depth) name (s.rules.deps name) false false
        (s.check sys name) with
    | none => simp [loop] at done
    | some looped =>
      obtain ⟨keptLoop, mid, adds, found⟩ := checkDeps_looped acyclic
        (fun q s r called kept => ih kept called)
        (fun q member => kept.within.deps name q member) checked loop
      have adds' := start.trans (adds.mono fun _ path => path.to_reflTransGen)
      rw [loop] at done
      cases looped with
      | error s' =>
        cases done
        refine ⟨keptLoop, _, adds', ?_⟩
        intro r build s' same
        cases same
      | ok looped =>
        obtain ⟨⟨err, need⟩, s'⟩ := looped
        cases done
        have all := found err need s' rfl
        have ready (fine : err = false) (needed : need = true ∨ s'.stamp name = -1) :
            Ready rules name s'.log := by
          have log : s'.log = s.log ++
              .checking name (sys.stamp s.world name) (s.rules.deps name) :: mid := by
            have same := adds'.log
            simpa [Result.state] using same
          refine ⟨s.log, _, _, mid, log, ?_, ?_, all.processed fine, all.clean fine, ?_⟩
          · exact kept.recorded name
          · exact fun rule member => acyclic name (adds.about _ member)
          · intro unserved
            rcases needed with forced | missing
            · rcases all.forced fine forced with no | served | forces
              · cases no
              · exact absurd served unserved
              · rw [check_stamp] at forces
                exact .inr forces
            · rcases adds.stamps name with same | ⟨_, _, member⟩ | served
              · left
                rw [← @check_stamp _ sys s name, ← same]
                exact missing
              · exact absurd (adds.about _ member) (acyclic name)
              · exact absurd served unserved
        obtain ⟨keptLast, last, more, told, fails⟩ :=
          @remake_adds _ sys flags rules name s' err need keptLoop ready
        refine ⟨keptLast, _, adds'.trans (more.mono fun x same => same ▸ .refl), ?_⟩
        intro r build s'' same
        obtain ⟨event, clean⟩ := told r build s'' same
        refine ⟨List.mem_append_right _ event, ?_⟩
        rintro rfl
        have fine : err = false := by
          cases err with
          | false => rfl
          | true => exact absurd same (fails rfl build s'')
        have first : Clean [.checking name (sys.stamp s.world name) (s.rules.deps name)] := by
          intro _ _ _ _ member
          cases List.mem_singleton.mp member
        exact (first.append (all.clean fine)).append (clean rfl)

theorem builds_kept (acyclic : Acyclic (MayDepend rules)) {depth : Nat} {goals : List Name}
    {last : State W} (kept : Kept rules s) (done : builds sys flags depth goals s = some last) :
    Kept rules last := by
  induction goals generalizing s with
  | nil =>
    cases done
    exact kept
  | cons goal goals ih =>
    simp only [builds] at done
    cases called : rebuild sys flags depth goal s with
    | none => simp [called] at done
    | some result =>
      obtain ⟨kept', -⟩ := rebuild_rebuilds acyclic kept called
      rw [called] at done
      cases result with
      | error s' =>
        cases done
        exact kept'
      | ok result => exact ih kept' done

/-- The actions of no target are run twice. -/
def AtMostOnce (log : List Event) : Prop :=
  ∀ before name rule mid rule' after,
    log ≠ before ++ .running name rule :: (mid ++ .running name rule' :: after)

/-- No actions are run for a target that is newer than those of its dependencies that exist. -/
def UpToDate (log : List Event) : Prop :=
  ∀ before name stamp deps mid rule after,
    log = before ++ .checking name stamp deps :: (mid ++ .running name rule :: after) → stamp ≠ -1 →
    (∀ again deps', .checking name again deps' ∉ mid) →
    ∃ dep ∈ deps, ∃ r build newer, .rebuilt dep r build newer ∈ mid ∧ newer ≠ -1 ∧ stamp ≤ newer

/-- A system without files, where every command succeeds. -/
def noFiles : System Unit where
  stamp _ _ := -1
  launch _ _ _ := (0, ())
  system _ _ := (0, ())
  expandstring _ line _ := some line

def noFlags : Flags := ⟨false, false, false, false⟩

/-- `m: a b`, `a: c`, `b: c` and `c:` with an action -/
def diamond : List Call :=
  [.addtarget ['m'] 2, .adddep ['m'] ['a'], .adddep ['m'] ['b'], .addtarget ['a'] 1,
    .adddep ['a'] ['c'], .addtarget ['b'] 1, .adddep ['b'] ['c'], .addtarget ['c'] 0,
    .addrule ['c'] [['x']]]

theorem diamond_acyclic (entered : parsed diamond = some rules) : Acyclic (MayDepend rules) := by
  refine .of_rank (fun target => if target = ['m'] then 2 else if target = ['c'] then 0 else 1) ?_
  intro target dep may
  have plain : ∀ call ∈ diamond, call.subject.head? ≠ some '.' := by decide
  have special : SUFFIXES.head? = some '.' := by decide
  have never (from_ : Name) : ¬MayDepend rules SUFFIXES from_ := by
    intro may
    generalize same : SUFFIXES = rule at may
    cases may with
    | dep edge =>
      subst same
      exact plain _ (parsed_edge entered edge) special
    | inferred _ actions =>
      rw [← same] at actions
      obtain ⟨_, member⟩ := parsed_actions entered actions
      exact plain _ member special
  cases may with
  | dep edge =>
    have member := parsed_edge entered edge
    simp only [diamond, List.mem_cons, List.not_mem_nil, or_false, reduceCtorEq, false_or,
      Call.adddep.injEq] at member
    rcases member with ⟨rfl, rfl⟩ | ⟨rfl, rfl⟩ | ⟨rfl, rfl⟩ | ⟨rfl, rfl⟩
    all_goals decide
  | inferred _ _ suffix => exact absurd suffix (never _)

theorem diamond_log : ∃ rules, parsed diamond = some rules ∧ ∃ last,
    builds noFiles noFlags 4 [['m']] ⟨rules, (), false, []⟩ = some last ∧
    last.log =
      [.checking ['m'] (-1) [['a'], ['b']], .checking ['a'] (-1) [['c']], .checking ['c'] (-1) [],
        .running ['c'] ['c'], .rebuilt ['c'] 0 true (-1), .rebuilt ['a'] 0 true (-1),
        .checking ['b'] (-1) [['c']], .checking ['c'] (-1) [], .running ['c'] ['c'],
        .rebuilt ['c'] 0 true (-1), .rebuilt ['b'] 0 true (-1), .rebuilt ['m'] 0 true (-1)] :=
  ⟨_, rfl, _, rfl, rfl⟩

end Scc.Make
