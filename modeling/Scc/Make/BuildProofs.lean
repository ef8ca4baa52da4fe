import Scc.Make.Build
import Scc.Make.Rules

set_option linter.all false

/-! What the functions of `make` do to its rules, and that `rebuild` ends where no cycle can arise. -/
namespace Scc.Make
open Transition Relation

section
attribute [local simp] checkDeps rebuild builds
end

variable {W : Type} {sys : System W} {flags : Flags} {rules : Rules} {name : Name}

/-! ## The parts of `update` -/

/-- The actions of a rule change the world and the exit status only. -/
structure Outside (s t : State W) : Prop where
  rules : t.rules = s.rules
  log : t.log = s.log

theorem Outside.refl (s : State W) : Outside s s := ⟨rfl, rfl⟩

theorem Outside.trans {s t u : State W} (st : Outside s t) (tu : Outside t u) : Outside s u :=
  ⟨tu.rules.trans st.rules, tu.log.trans st.log⟩

theorem execline_outside (line : Name) (ignore : Bool) (s : State W) :
    Outside s (execline sys flags line ignore s).2 := by
  unfold execline
  dsimp only
  split
  · exact .refl s
  · split
    · exact ⟨rfl, rfl⟩
    · exact ⟨rfl, rfl⟩

theorem touchAll_outside (ignore : Bool) (names : List Name) (s : State W) :
    Outside s (touchAll sys ignore names s).2 := by
  induction names generalizing s with
  | nil => exact .refl s
  | cons name names ih =>
    have first : Outside s (touch sys name ignore s).2 := ⟨rfl, rfl⟩
    simp only [touchAll]
    split
    · exact first
    · exact first.trans (ih _)

/-- The state a result leaves. -/
def Result.state {α : Type} : Result W α → State W
  | .ok (_, s) => s
  | .error s => s

theorem runActions_outside (ignore : Bool) (actions : List Name) (s : State W) :
    Outside s (runActions sys flags name ignore actions s).state := by
  induction actions generalizing s with
  | nil => exact .refl s
  | cons action actions ih =>
    simp only [runActions]
    split
    · exact .refl s
    · rename_i line _
      have first := @execline_outside _ sys flags line ignore s
      split
      · exact first
      · exact first.trans (ih _)

theorem run_outside (name : Name) (s : State W) : Outside s (run sys flags name s).state := by
  have acted (ignore : Bool) (actions : List Name) {s t : State W} {result : Result W Int}
      (before : Outside s t) (ended : runActions sys flags name ignore actions t = result) :
      Outside s result.state := by
    rw [← ended]
    exact before.trans (runActions_outside ignore actions t)
  unfold run
  cases tflag : flags.tflag with
  | false =>
    simp only [Bool.false_eq_true, if_false, ne_eq, not_true_eq_false]
    split
    · rename_i ended
      exact acted _ _ (.refl s) ended
    · rename_i ended
      have done := acted _ _ (.refl s) ended
      split
      · exact done
      · exact done
  | true =>
    have touched (ignore : Bool) : Outside s (touchAll sys ignore
        ((s.rules.lookup name).req.toList ++ (s.rules.lookup name).deps) s).2 :=
      touchAll_outside _ _ s
    simp only [if_true, touchdeps]
    split
    · exact touched _
    · split
      · rename_i ended
        exact acted _ _ (touched _) ended
      · rename_i ended
        have done := acted _ _ (touched _) ended
        split
        · exact done
        · exact done.trans ⟨rfl, rfl⟩

/-- The rule is one for the suffix of the target. -/
structure RuleOf (rules : Rules) (name rule : Name) : Prop where
  plain : (rules.lookup name).actions = none
  actions : (rules.lookup rule).actions ≠ none
  suffixes : ∃ from_ ∈ rules.deps SUFFIXES, rule = from_ ++ (splitSuffix name).2.getD []
  enabled : ∀ to_ ∈ (splitSuffix name).2, to_ ∈ rules.deps SUFFIXES

/-- The rules once an inference rule is used for a target. -/
def used (rules : Rules) (name rule : Name) (fname : Name) : Rules :=
  rules.set rule
    { rules.lookup rule with
      req := some fname, deps := rules.deps name, target := name, stamp := (rules.lookup name).stamp }

theorem tryRules_cases {base to_ : Name} {suffixes : List Name} {s s' : State W} {found : Option Name}
    (tried : tryRules sys name base to_ suffixes s = .ok (found, s')) :
    (found = none ∧ s' = s) ∨
      ∃ from_ ∈ suffixes, ∃ fname, found = some (from_ ++ to_) ∧
        (s.rules.lookup (from_ ++ to_)).actions ≠ none ∧
        s' = { s with rules := used s.rules name (from_ ++ to_) fname } := by
  induction suffixes with
  | nil =>
    cases tried
    exact .inl ⟨rfl, rfl⟩
  | cons from_ suffixes ih =>
    have later (tried : tryRules sys name base to_ suffixes s = .ok (found, s')) :
        (found = none ∧ s' = s) ∨
          ∃ other ∈ from_ :: suffixes, ∃ fname, found = some (other ++ to_) ∧
            (s.rules.lookup (other ++ to_)).actions ≠ none ∧
            s' = { s with rules := used s.rules name (other ++ to_) fname } := by
      rcases ih tried with none | ⟨other, member, rest⟩
      · exact .inl none
      · exact .inr ⟨other, List.mem_cons_of_mem _ member, rest⟩
    simp only [tryRules] at tried
    split at tried
    · cases tried
    · split at tried
      · exact later tried
      · rename_i actions
        split at tried
        · cases tried
        · split at tried
          · exact later tried
          · cases tried
            exact .inr ⟨from_, List.mem_cons_self, _, rfl, actions, rfl⟩

theorem tryRules_error {base to_ : Name} {suffixes : List Name} {s s' : State W}
    (tried : tryRules sys name base to_ suffixes s = .error s') : s' = s := by
  induction suffixes with
  | nil => cases tried
  | cons from_ suffixes ih =>
    simp only [tryRules] at tried
    split at tried
    · cases tried
      rfl
    · split at tried
      · exact ih tried
      · split at tried
        · cases tried
          rfl
        · split at tried
          · exact ih tried
          · cases tried

theorem inference_error {s s' : State W} (inferred : inference sys name s = .error s') : s' = s := by
  simp only [inference] at inferred
  split at inferred
  · cases inferred
  · exact tryRules_error inferred

theorem inference_cases {s s' : State W} {found : Option Name}
    (plain : (s.rules.lookup name).actions = none)
    (inferred : inference sys name s = .ok (found, s')) :
    (found = none ∧ s' = s) ∨
      ∃ rule fname, found = some rule ∧ RuleOf s.rules name rule ∧
        s' = { s with rules := used s.rules name rule fname } := by
  simp only [inference] at inferred
  split at inferred
  · cases inferred
    exact .inl ⟨rfl, rfl⟩
  · rename_i enabled
    push Not at enabled
    rcases tryRules_cases inferred with none | ⟨from_, member, fname, rfl, actions, rfl⟩
    · exact .inl none
    · exact .inr ⟨_, fname, rfl, ⟨plain, actions, ⟨from_, member, rfl⟩, enabled⟩, rfl⟩

/-- What `update` does: it ends at once, or runs a rule with the target's own actions, with those
of an inference rule or with those of `.DEFAULT`. -/
theorem update_cases (s : State W) :
    (∃ s', Outside s s' ∧ (s'.rules.lookup name).actions = none ∧
      (update sys flags name s = .error s' ∨ update sys flags name s = .ok (0, s'))) ∨
    ∃ (rule : Name) (s' : State W), update sys flags name s = run sys flags rule (s'.note (.running name rule)) ∧
      s'.log = s.log ∧ s'.world = s.world ∧
      (s'.rules = s.rules ∨
        ∃ fname, RuleOf s.rules name rule ∧ s'.rules = used s.rules name rule fname) := by
  unfold update
  by_cases own : (s.rules.lookup name).actions = none
  · rw [if_neg (not_not.mpr own)]
    cases inferred : inference sys name s with
    | error s' =>
      cases inference_error inferred
      exact .inl ⟨s, .refl s, own, .inl rfl⟩
    | ok found =>
      obtain ⟨found, s'⟩ := found
      rcases inference_cases own inferred with ⟨rfl, rfl⟩ | ⟨rule, fname, rfl, ruleOf, rfl⟩
      · dsimp only
        split
        · exact .inr ⟨DEFAULT, s', rfl, rfl, rfl, .inl rfl⟩
        · split
          · exact .inl ⟨s', .refl s', own, .inr rfl⟩
          · exact .inl ⟨s', .refl s', own, .inl rfl⟩
      · exact .inr ⟨rule, _, rfl, rfl, rfl, .inr ⟨fname, ruleOf, rfl⟩⟩
  · rw [if_pos own]
    exact .inr ⟨name, s, rfl, rfl, rfl, .inl rfl⟩

/-! ## What dependencies can become -/

/-- What a target may come to depend on: its dependencies and, for an inference rule, those of the
targets without actions that it is for. -/
inductive MayDepend (rules : Rules) : Name → Name → Prop where
  | dep {target dep : Name} : rules.Edge target dep → MayDepend rules target dep
  | inferred {name from_ dep : Name} : (rules.lookup name).actions = none →
      (rules.lookup (from_ ++ (splitSuffix name).2.getD [])).actions ≠ none →
      MayDepend rules SUFFIXES from_ → (∀ to_ ∈ (splitSuffix name).2, MayDepend rules SUFFIXES to_) →
      rules.Edge name dep → MayDepend rules (from_ ++ (splitSuffix name).2.getD []) dep

/-- Rules that came from others in a build. -/
structure Within (rules now : Rules) : Prop where
  actions : ∀ t, (now.lookup t).actions = (rules.lookup t).actions
  deps : ∀ t, ∀ d ∈ now.deps t, MayDepend rules t d
  plain : ∀ t, (rules.lookup t).actions = none → now.deps t = rules.deps t

theorem Within.refl (rules : Rules) : Within rules rules :=
  ⟨fun _ => rfl, fun _ _ => .dep, fun _ _ => rfl⟩

theorem check_deps {s : State W} (name t : Name) :
    (s.check sys name).rules.deps t = s.rules.deps t := by
  refine lookup_set_field Target.deps _ ?_ t
  rfl

theorem check_actions {s : State W} (name t : Name) :
    ((s.check sys name).rules.lookup t).actions = (s.rules.lookup t).actions := by
  refine lookup_set_field Target.actions _ ?_ t
  rfl

theorem check_stamp {s : State W} (name : Name) :
    (s.check sys name).stamp name = sys.stamp s.world name := by
  rw [State.stamp]
  exact congrArg Target.stamp (if_pos rfl)

theorem Within.check {s : State W} (within : Within rules s.rules) (name : Name) :
    Within rules (s.check sys name).rules := by
  refine ⟨fun t => (check_actions name t).trans (within.actions t), ?_, ?_⟩
  · intro t d member
    rw [check_deps] at member
    exact within.deps t d member
  · intro t none
    rw [check_deps]
    exact within.plain t none

theorem Within.used {now : Rules} {rule fname : Name} (within : Within rules now)
    (ruleOf : RuleOf now name rule) : Within rules (used now name rule fname) := by
  have plain : (rules.lookup name).actions = none := (within.actions name).symm.trans ruleOf.plain
  have actions : (rules.lookup rule).actions ≠ none := by
    rw [← within.actions]
    exact ruleOf.actions
  refine ⟨?_, ?_, ?_⟩
  · intro t
    rw [← within.actions]
    refine lookup_set_field Target.actions _ ?_ t
    rfl
  · intro t d member
    by_cases here : t = rule
    · subst here
      rw [Rules.deps, Make.used, lookup_set_self] at member
      obtain ⟨from_, suffix, rfl⟩ := ruleOf.suffixes
      have edge : d ∈ rules.deps name := within.plain name plain ▸ member
      exact .inferred plain actions (within.deps _ _ suffix)
        (fun to_ mem => within.deps _ _ (ruleOf.enabled to_ mem)) edge
    · rw [Rules.deps, Make.used, lookup_set_other _ here] at member
      exact within.deps t d member
  · intro t none
    have ne : t ≠ rule := by
      rintro rfl
      exact actions none
    rw [Rules.deps, Make.used, lookup_set_other _ ne]
    exact within.plain t none

theorem Within.update {s : State W} (within : Within rules s.rules) :
    Within rules (update sys flags name s).state.rules := by
  rcases @update_cases _ sys flags name s with ⟨s', outside, -, stops | ends⟩ | ⟨rule, s', runs, -, -, same⟩
  · rw [stops]
    exact outside.rules ▸ within
  · rw [ends]
    exact outside.rules ▸ within
  · rw [runs, (run_outside rule _).rules]
    rcases same with same | ⟨fname, ruleOf, same⟩
    · exact same ▸ within
    · exact same ▸ within.used ruleOf

/-- What `remake` returns, after `update` or without it. -/
theorem remake_cases (err need : Bool) (s : State W) :
    (remake sys flags name err need s = returning name 1 false s ∧ err = true) ∨
    (remake sys flags name err need s = returning name 0 false s ∧ err = false ∧ need = false ∧
      s.stamp name ≠ -1) ∨
    (err = false ∧ (need = true ∨ s.stamp name = -1) ∧
      ((∃ s', update sys flags name s = .error s' ∧ remake sys flags name err need s = .error s') ∨
        ∃ r s', update sys flags name s = .ok (r, s') ∧
          ((r = 0 ∧ remake sys flags name err need s = returning name 0 true s') ∨
            (r ≠ 0 ∧ flags.kflag = true ∧ remake sys flags name err need s =
              returning name r true { s' with exitstatus := true }) ∨
            (r ≠ 0 ∧ flags.kflag = false ∧
              remake sys flags name err need s = .error { s' with exitstatus := true })))) := by
  unfold remake
  cases err with
  | true => exact .inl ⟨rfl, rfl⟩
  | false =>
    dsimp only
    rw [if_neg Bool.false_ne_true]
    by_cases needed : need = true ∨ s.stamp name = -1
    · rw [if_pos (by simpa using needed)]
      refine .inr (.inr ⟨rfl, needed, ?_⟩)
      cases update sys flags name s with
      | error s' => exact .inl ⟨s', rfl, rfl⟩
      | ok ended =>
        obtain ⟨r, s'⟩ := ended
        refine .inr ⟨r, s', rfl, ?_⟩
        dsimp only
        split
        · rename_i zero
          exact .inl ⟨zero, rfl⟩
        · rename_i some
          split
          · rename_i keep
            exact .inr (.inl ⟨some, keep, rfl⟩)
          · rename_i stop
            exact .inr (.inr ⟨some, by simpa using stop, rfl⟩)
    · rw [if_neg (by simpa using needed)]
      push Not at needed
      exact .inr (.inl ⟨rfl, rfl, by simpa using needed.1, needed.2⟩)

theorem Within.remake {s : State W} {err need : Bool} (within : Within rules s.rules) :
    Within rules (remake sys flags name err need s).state.rules := by
  have updated := @Within.update _ sys flags rules name s within
  rcases @remake_cases _ sys flags name err need s with ⟨ends, -⟩ | ⟨ends, -⟩ |
    ⟨-, -, ⟨s', ended, ends⟩ | ⟨r, s', ended, ⟨-, ends⟩ | ⟨-, -, ends⟩ | ⟨-, -, ends⟩⟩⟩
  · rw [ends]
    exact within
  · rw [ends]
    exact within
  all_goals
    rw [ended] at updated
    rw [ends]
    exact updated

/-! ## The depth of the recursion -/

section
variable {f g : Name → State W → Option (Result W (Int × Bool))} {deps : List Name} {err need : Bool}
  {s s' : State W}

theorem checkDeps_mono (more : ∀ q s r, f q s = some r → g q s = some r)
    {r : Result W (Bool × Bool)} (done : checkDeps f name deps err need s = some r) :
    checkDeps g name deps err need s = some r := by
  induction deps generalizing err need s with
  | nil => exact done
  | cons q deps ih =>
    simp only [checkDeps] at done ⊢
    cases first : f q s with
    | none => simp [first] at done
    | some result =>
      rw [more q s result first]
      simp only [first] at done
      cases result with
      | error s' => exact done
      | ok result =>
        dsimp only at done ⊢
        split at done
        · rename_i failed
          rw [if_pos failed]
          exact ih done
        · rename_i built
          rw [if_neg built]
          exact ih done

theorem rebuild_mono {n m : Nat} (le : n ≤ m) {t : Name} {r : Result W (Int × Bool)}
    (done : rebuild sys flags n t s = some r) : rebuild sys flags m t s = some r := by
  induction n generalizing m t s r with
  | zero => cases done
  | succ n ih =>
    obtain ⟨k, rfl⟩ := Nat.exists_eq_add_of_le le
    rw [Nat.add_right_comm]
    simp only [rebuild] at done ⊢
    cases checked : checkDeps (rebuild sys flags n) t ((s.check sys t).rules.deps t) false false
        (s.check sys t) with
    | none => simp [checked] at done
    | some result =>
      rw [checkDeps_mono (fun q s r => ih (Nat.le_add_right n k)) checked]
      rw [checked] at done
      exact done

/-- What every call of `rebuild` for a dependency keeps. -/
theorem checkDeps_keeps (P : State W → Prop)
    (keeps : ∀ q s r s', f q s = some (.ok (r, s')) → P s → P s') {r : Bool × Bool}
    (done : checkDeps f name deps err need s = some (.ok (r, s'))) (before : P s) : P s' := by
  induction deps generalizing err need s with
  | nil =>
    cases done
    exact before
  | cons q deps ih =>
    simp only [checkDeps] at done
    split at done
    · cases done
    · cases done
    · rename_i called
      have after := keeps _ _ _ _ called before
      split at done
      · exact ih done after
      · exact ih done after

end

theorem Within.rebuild {depth : Nat} {t : Name} {s s' : State W} {r : Int × Bool}
    (done : rebuild sys flags depth t s = some (.ok (r, s'))) (within : Within rules s.rules) :
    Within rules s'.rules := by
  induction depth generalizing t s s' r with
  | zero => cases done
  | succ depth ih =>
    simp only [Make.rebuild] at done
    split at done
    · cases done
    · cases done
    · rename_i err need after checked
      have kept := checkDeps_keeps (fun s => Within rules s.rules)
        (fun q s r s' called => ih called) checked (within.check t)
      have remade := @Within.remake _ sys flags rules t after err need kept
      rw [Option.some.inj done] at remade
      exact remade

/-- The recursion ends where what targets may depend on has no infinite chain. -/
theorem rebuild_ends (wf : WellFounded fun dep target => MayDepend rules target dep) (t : Name)
    (s : State W) (within : Within rules s.rules) :
    ∃ depth r, rebuild sys flags depth t s = some r := by
  induction t using wf.induction generalizing s with
  | _ t ih =>
    have loop (deps : List Name) (err need : Bool) (s : State W)
        (below : ∀ q ∈ deps, MayDepend rules t q) (within : Within rules s.rules) :
        ∃ depth r, checkDeps (rebuild sys flags depth) t deps err need s = some r := by
      induction deps generalizing err need s with
      | nil => exact ⟨0, _, rfl⟩
      | cons q deps more =>
        obtain ⟨edge, below⟩ := List.forall_mem_cons.mp below
        obtain ⟨n, result, called⟩ := ih q edge s within
        cases result with
        | error s' =>
          refine ⟨n, .error s', ?_⟩
          simp [checkDeps, called]
        | ok result =>
          obtain ⟨⟨r, build⟩, s'⟩ := result
          have kept := within.rebuild called
          obtain ⟨m, r', rest⟩ := more (if r ≠ 0 then true else err)
            (if r ≠ 0 then need else need || build || s'.stamp q > s'.stamp t) s' below kept
          refine ⟨max n m, r', ?_⟩
          have longer := checkDeps_mono (fun q s r => rebuild_mono (Nat.le_max_right n m)) rest
          simp only [checkDeps, rebuild_mono (Nat.le_max_left n m) called]
          by_cases failed : r = 0
          · simpa [failed] using longer
          · simpa [failed] using longer
    have checked := @Within.check _ sys _ _ within t
    obtain ⟨depth, r, done⟩ := loop _ false false _ (fun q member => checked.deps t q member) checked
    cases r with
    | error s' =>
      refine ⟨depth + 1, .error s', ?_⟩
      simp [rebuild, done]
    | ok result =>
      refine ⟨depth + 1, remake sys flags t result.1.1 result.1.2 result.2, ?_⟩
      simp [rebuild, done]

/-- Every goal is built, or `make` ends with an error. -/
def Terminates (rules : Rules) : Prop :=
  ∀ (W : Type) (sys : System W) (flags : Flags) (goals : List Name) (s : State W), s.rules = rules →
    ∃ depth last, builds sys flags depth goals s = some last

theorem builds_mono {n m : Nat} (le : n ≤ m) {goals : List Name} {s last : State W}
    (done : builds sys flags n goals s = some last) : builds sys flags m goals s = some last := by
  induction goals generalizing s with
  | nil => exact done
  | cons goal goals ih =>
    simp only [builds] at done ⊢
    cases called : rebuild sys flags n goal s with
    | none => simp [called] at done
    | some result =>
      rw [rebuild_mono le called]
      rw [called] at done
      cases result with
      | error s' => exact done
      | ok result => exact ih done

theorem builds_ends (wf : WellFounded fun dep target => MayDepend rules target dep)
    (goals : List Name) (s : State W) (within : Within rules s.rules) :
    ∃ depth last, builds sys flags depth goals s = some last := by
  induction goals generalizing s with
  | nil => exact ⟨0, s, rfl⟩
  | cons goal goals ih =>
    obtain ⟨n, result, called⟩ := @rebuild_ends _ sys flags _ wf goal s within
    cases result with
    | error s' => exact ⟨n, s', by simp [builds, called]⟩
    | ok result =>
      obtain ⟨r, s'⟩ := result
      obtain ⟨m, last, rest⟩ := ih s' (within.rebuild called)
      refine ⟨max n m, last, ?_⟩
      simp only [builds, rebuild_mono (Nat.le_max_left n m) called]
      exact builds_mono (Nat.le_max_right n m) rest

/-! ## Makefiles -/

theorem mayDepend_wellFounded {calls : List Call} (entered : parsed calls = some rules)
    (acyclic : Acyclic (MayDepend rules)) : WellFounded fun dep target => MayDepend rules target dep := by
  refine acyclic.wellFounded ((parsed_finite entered).subset ?_)
  rintro target ⟨dep, edge⟩
  cases edge with
  | dep edge => exact .inl ⟨dep, edge⟩
  | inferred _ actions => exact .inr actions

/-- No call closes a cycle, and none can arise when inference gives a rule the dependencies of a
target. -/
structure Sound (calls : List Call) : Prop where
  added : NoCycleClosed calls
  inferred : ∀ rules, parsed calls = some rules → Acyclic (MayDepend rules)

/-- The graph of a makefile never has a cycle if and only if no dependency that is added leads back
to its target; and no build of its rules goes on for ever where inference cannot close one either. -/
theorem makefile_acyclic (calls : List Call) :
    (StaysAcyclic calls ↔ NoCycleClosed calls) ∧
      (Sound calls → StaysAcyclic calls ∧ ∀ rules, parsed calls = some rules → Terminates rules) := by
  refine ⟨staysAcyclic_iff calls, fun sound => ⟨(staysAcyclic_iff calls).mpr sound.added, ?_⟩⟩
  intro rules entered W sys flags goals s same
  exact builds_ends (mayDepend_wellFounded entered (sound.inferred rules entered)) goals s
    (same ▸ .refl rules)

/-- `a: b` -/
def oneRule : List Call := [.addtarget ['a'] 1, .adddep ['a'] ['b']]

theorem oneRule_edge (entered : parsed oneRule = some rules) {target dep : Name}
    (may : MayDepend rules target dep) : target = ['a'] ∧ dep = ['b'] := by
  cases may with
  | dep edge =>
    have member := parsed_edge entered edge
    simpa [oneRule] using member
  | inferred _ actions =>
    obtain ⟨_, member⟩ := parsed_actions entered actions
    simp [oneRule] at member

theorem oneRule_sound : Sound oneRule where
  added := by
    intro before target dep after split rules entered
    have length := congrArg List.length split
    cases before with
    | nil => cases split
    | cons first before =>
      cases before with
      | nil =>
        cases split
        cases entered
        intro back
        rcases ReflTransGen.cases_head back with same | ⟨next, edge, -⟩
        · cases same
        · exact (List.not_mem_nil edge).elim
      | cons second before =>
        simp only [oneRule, List.length_cons, List.length_nil, List.length_append] at length
        omega
  inferred := by
    intro rules entered
    refine .of_rank (fun target => if target = ['a'] then 1 else 0) ?_
    intro target dep may
    obtain ⟨rfl, rfl⟩ := oneRule_edge entered may
    decide

theorem oneRule_terminates :
    StaysAcyclic oneRule ∧ ∀ rules, parsed oneRule = some rules → Terminates rules :=
  (makefile_acyclic oneRule).2 oneRule_sound

/-- `a: b` and `b: a` -/
theorem two_targets_cyclic :
    ¬∀ calls : List Call, StaysAcyclic calls ∧
      ∀ rules, parsed calls = some rules → Terminates rules := by
  intro h
  have entered : ∃ rules, parsed [.addtarget ['a'] 1, .adddep ['a'] ['b'], .addtarget ['b'] 1,
      .adddep ['b'] ['a']] = some rules ∧ rules.Edge ['a'] ['b'] ∧ rules.Edge ['b'] ['a'] :=
    ⟨_, rfl, by unfold Rules.Edge; decide, by unfold Rules.Edge; decide⟩
  obtain ⟨rules, entered, there, back⟩ := entered
  have acyclic := (h _).1 _ [] (List.append_nil _).symm rules entered
  exact acyclic ['a'] ((TransGen.single there).tail back)

end Scc.Make
