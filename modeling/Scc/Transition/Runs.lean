import Mathlib.Data.List.Basic

set_option linter.all false

/-! Deterministic machines that emit events, and the measured forward simulations that
prove two of them to behave alike. A machine is its step function; nothing here
depends on what the states or the events are. -/
namespace Scc.Transition
variable {S T E R : Type}

/-- What a state does next: stop with a result, or go on after some events. -/
inductive Next (S E R : Type) where
  | done (result : R)
  | more (events : List E) (state : S)

inductive Runs (step : S → Next S E R) : Nat → S → List E → S → Prop where
  | refl (s : S) : Runs step 0 s [] s
  | next {s t u : S} {es fs : List E} {n : Nat} :
      step s = .more es t → Runs step n t fs u → Runs step (n + 1) s (es ++ fs) u

/-- The events of the first `n` steps and the state after them. -/
def exec (step : S → Next S E R) : Nat → S → Option (List E × S)
  | 0, s => some ([], s)
  | n + 1, s =>
    match step s with
    | .done _ => none
    | .more es t => (exec step n t).map fun later => (es ++ later.1, later.2)

/-- The machine stops after exactly these events. -/
def Ends (step : S → Next S E R) (s : S) (es : List E) (r : R) : Prop :=
  ∃ n t, Runs step n s es t ∧ step t = .done r

/-- The events are the first ones of a run, finished or not. -/
def Emits (step : S → Next S E R) (s : S) (es : List E) : Prop :=
  ∃ n t fs, Runs step n s fs t ∧ es <+: fs

/-- The same terminations and the same finite prefixes of events. -/
def SameBehavior (step₁ : S → Next S E R) (s : S) (step₂ : T → Next T E R) (t : T) : Prop :=
  (∀ es r, Ends step₁ s es r ↔ Ends step₂ t es r) ∧ ∀ es, Emits step₁ s es ↔ Emits step₂ t es

namespace Runs
variable {step : S → Next S E R} {s t u : S} {es fs : List E} {n m : Nat}

theorem one (head : step s = .more es t) : Runs step 1 s es t := by
  simpa using Runs.next head (.refl t)

theorem silent (head : step s = .more [] t) (run : Runs step n t es u) :
    Runs step (n + 1) s es u := by
  simpa using Runs.next head run

theorem of_exec (steps : exec step n s = some (es, t)) : Runs step n s es t := by
  induction n generalizing s es with
  | zero =>
    cases steps
    exact .refl _
  | succ n ih =>
    simp only [exec] at steps
    split at steps
    · cases steps
    · obtain ⟨⟨fs, u⟩, later, same⟩ := Option.map_eq_some_iff.mp steps
      cases same
      exact .next ‹_› (ih later)

theorem trans (first : Runs step n s es t) (second : Runs step m t fs u) :
    Runs step (n + m) s (es ++ fs) u := by
  induction first with
  | refl => simpa using second
  | next head _ ih =>
    rw [List.append_assoc, Nat.add_right_comm]
    exact .next head (ih second)

theorem invariant {P : S → Prop} (preserves : ∀ s es t, P s → step s = .more es t → P t)
    (run : Runs step n s es t) (initial : P s) : P t := by
  induction run with
  | refl => exact initial
  | next head _ ih => exact ih (preserves _ _ _ initial head)

/-- A machine is deterministic: of two runs from one state, one continues the other. -/
theorem compare (first : Runs step n s es t) (second : Runs step m s fs u) :
    (∃ k gs, m = n + k ∧ fs = es ++ gs ∧ Runs step k t gs u) ∨
      ∃ k gs, n = m + (k + 1) ∧ es = fs ++ gs ∧ Runs step (k + 1) u gs t := by
  induction first generalizing m fs with
  | refl => exact .inl ⟨m, fs, by omega, rfl, second⟩
  | @next s t' t es' fs' n head tail ih =>
    cases second with
    | refl => exact .inr ⟨n, _, by omega, rfl, .next head tail⟩
    | next head' tail' =>
      obtain ⟨rfl, rfl⟩ := Next.more.inj (head.symm.trans head')
      rcases ih tail' with ⟨k, gs, rfl, rfl, rest⟩ | ⟨k, gs, rfl, rfl, rest⟩
      · exact .inl ⟨k, gs, by omega, (List.append_assoc ..).symm, rest⟩
      · exact .inr ⟨k, gs, by omega, (List.append_assoc ..).symm, rest⟩

theorem stopped {r : R} (run : Runs step n s es t) (done : step s = .done r) :
    n = 0 ∧ es = [] ∧ t = s := by
  cases run with
  | refl => exact ⟨rfl, rfl, rfl⟩
  | next head _ => cases done.symm.trans head

/-- A run that stops contains every other run from the same state. -/
theorem to_stop {r : R} (run : Runs step n s es t) (done : step t = .done r)
    (other : Runs step m s fs u) : ∃ k gs, n = m + k ∧ es = fs ++ gs ∧ Runs step k u gs t := by
  rcases other.compare run with found | ⟨k, gs, -, -, rest⟩
  · exact found
  · cases (rest.stopped done).1

end Runs

theorem ends_unique {step : S → Next S E R} {s : S} {es fs : List E} {r r' : R}
    (first : Ends step s es r) (second : Ends step s fs r') : es = fs ∧ r = r' := by
  obtain ⟨n, t, run, done⟩ := first
  obtain ⟨m, u, run', done'⟩ := second
  obtain ⟨k, gs, -, rfl, rest⟩ := run.to_stop done run'
  obtain ⟨-, rfl, rfl⟩ := rest.stopped done'
  exact ⟨List.append_nil _, Next.done.inj (done.symm.trans done')⟩

theorem Emits.shorter {step : S → Next S E R} {s : S} {es fs : List E} (emits : Emits step s fs)
    (before : es <+: fs) : Emits step s es := by
  obtain ⟨n, t, gs, run, shorter⟩ := emits
  exact ⟨n, t, gs, run, before.trans shorter⟩

theorem emits_nil (step : S → Next S E R) (s : S) : Emits step s [] :=
  ⟨0, s, [], .refl s, List.nil_prefix⟩

theorem SameBehavior.refl (step : S → Next S E R) (s : S) : SameBehavior step s step s :=
  ⟨fun _ _ => Iff.rfl, fun _ => Iff.rfl⟩

theorem SameBehavior.symm {step₁ : S → Next S E R} {s : S} {step₂ : T → Next T E R} {t : T}
    (same : SameBehavior step₁ s step₂ t) : SameBehavior step₂ t step₁ s :=
  ⟨fun es r => (same.1 es r).symm, fun es => (same.2 es).symm⟩

theorem SameBehavior.trans {U : Type} {step₁ : S → Next S E R} {s : S} {step₂ : T → Next T E R} {t : T}
    {step₃ : U → Next U E R} {u : U} (first : SameBehavior step₁ s step₂ t) (second : SameBehavior step₂ t step₃ u) :
    SameBehavior step₁ s step₃ u :=
  ⟨fun es r => (first.1 es r).trans (second.1 es r), fun es => (first.2 es).trans (second.2 es)⟩

/-- A silent first step makes no difference. -/
theorem SameBehavior.of_silent {step : S → Next S E R} {s t : S} (head : step s = .more [] t) :
    SameBehavior step s step t := by
  constructor
  · intro es r
    constructor
    · rintro ⟨n, u, run, done⟩
      cases run with
      | refl => cases head.symm.trans done
      | next first rest =>
        obtain ⟨rfl, rfl⟩ := Next.more.inj (head.symm.trans first)
        exact ⟨_, u, rest, done⟩
    · rintro ⟨n, u, run, done⟩
      exact ⟨n + 1, u, .silent head run, done⟩
  · intro es
    constructor
    · rintro ⟨n, u, fs, run, before⟩
      cases run with
      | refl => exact ⟨0, t, [], .refl t, before⟩
      | next first rest =>
        obtain ⟨rfl, rfl⟩ := Next.more.inj (head.symm.trans first)
        exact ⟨_, u, _, rest, before⟩
    · rintro ⟨n, u, fs, run, before⟩
      exact ⟨n + 1, u, fs, .silent head run, before⟩

/-! Machines whose results are seen through a function. -/

def Next.map {R' : Type} (f : R → R') : Next S E R → Next S E R'
  | .done r => .done (f r)
  | .more es s => .more es s

section
variable {R' : Type} {f : R → R'} {step : S → Next S E R}

theorem Next.map_more {s t : S} {es : List E} : (step s).map f = .more es t ↔ step s = .more es t := by
  cases step s with
  | done r => exact ⟨nofun, nofun⟩
  | more es s => exact ⟨fun same => by cases same; rfl, fun same => by cases same; rfl⟩

theorem Next.map_done {s : S} {r' : R'} : (step s).map f = .done r' ↔ ∃ r, f r = r' ∧ step s = .done r := by
  cases step s with
  | done r => exact ⟨fun same => ⟨r, Next.done.inj same, rfl⟩, by rintro ⟨_, rfl, ⟨⟩⟩; rfl⟩
  | more es s => exact ⟨nofun, by rintro ⟨_, _, ⟨⟩⟩⟩

theorem Runs.map_iff {n : Nat} {s t : S} {es : List E} : Runs (fun s => (step s).map f) n s es t ↔ Runs step n s es t := by
  constructor
  · intro run
    induction run with
    | refl s => exact .refl s
    | next head _ ih => exact .next (Next.map_more.mp head) ih
  · intro run
    induction run with
    | refl s => exact .refl s
    | next head _ ih => exact .next (Next.map_more.mpr head) ih

theorem ends_map {s : S} {es : List E} {r' : R'} :
    Ends (fun s => (step s).map f) s es r' ↔ ∃ r, f r = r' ∧ Ends step s es r := by
  constructor
  · rintro ⟨n, t, run, done⟩
    obtain ⟨r, same, last⟩ := Next.map_done.mp done
    exact ⟨r, same, n, t, Runs.map_iff.mp run, last⟩
  · rintro ⟨r, same, n, t, run, last⟩
    exact ⟨n, t, Runs.map_iff.mpr run, Next.map_done.mpr ⟨r, same, last⟩⟩

/-- Machines that behave the same do so however their results are seen. -/
theorem SameBehavior.map (f : R → R') {step₁ : S → Next S E R} {s : S} {step₂ : T → Next T E R} {t : T}
    (same : SameBehavior step₁ s step₂ t) :
    SameBehavior (fun s => (step₁ s).map f) s (fun t => (step₂ t).map f) t := by
  constructor
  · intro es r'
    rw [ends_map, ends_map]
    exact exists_congr fun r => and_congr_right fun _ => same.1 es r
  · intro es
    have emits {U : Type} {step : U → Next U E R} {u : U} : Emits (fun u => (step u).map f) u es ↔ Emits step u es :=
      exists_congr fun n => exists_congr fun v => exists_congr fun fs => and_congr_left fun _ => Runs.map_iff
    rw [emits, emits]
    exact same.2 es

end

/-- A step of the first machine is matched by a positive number of steps of the second
with the same events, or by none when it is silent and `rank` decreases. -/
structure Simulation (step₁ : S → Next S E R) (step₂ : T → Next T E R) (Match : S → T → Prop)
    (rank : S → Nat) : Prop where
  done : ∀ {s t r}, Match s t → step₁ s = .done r →
    ∃ n u, Runs step₂ n t [] u ∧ step₂ u = .done r
  more : ∀ {s t es s'}, Match s t → step₁ s = .more es s' →
    (∃ n t', Runs step₂ (n + 1) t es t' ∧ Match s' t') ∨
      (es = [] ∧ Match s' t ∧ rank s' < rank s)

namespace Simulation
variable {step₁ : S → Next S E R} {step₂ : T → Next T E R} {Match : S → T → Prop}
  {rank : S → Nat}

theorem runs (sim : Simulation step₁ step₂ Match rank) {n : Nat} {s s' : S} {t : T}
    {es : List E} (run : Runs step₁ n s es s') (related : Match s t) :
    ∃ m t', Runs step₂ m t es t' ∧ Match s' t' := by
  induction run generalizing t with
  | refl => exact ⟨0, t, .refl t, related⟩
  | next head _ ih =>
    rcases sim.more related head with ⟨k, t₁, first, related₁⟩ | ⟨rfl, related₁, -⟩
    · obtain ⟨m, t', rest, last⟩ := ih related₁
      exact ⟨k + 1 + m, t', first.trans rest, last⟩
    · exact ih related₁

theorem ends (sim : Simulation step₁ step₂ Match rank) {s : S} {t : T} {es : List E} {r : R}
    (related : Match s t) (finished : Ends step₁ s es r) : Ends step₂ t es r := by
  obtain ⟨n, s', run, done⟩ := finished
  obtain ⟨m, t', run', related'⟩ := sim.runs run related
  obtain ⟨k, u, last, done'⟩ := sim.done related' done
  exact ⟨m + k, u, by simpa using run'.trans last, done'⟩

/-- The first machine keeps up with the second: silent steps of the first cannot go on
for ever, so every other step consumes some of the run of the second. -/
theorem back_ends (sim : Simulation step₁ step₂ Match rank) {m : Nat} {s : S} {t u : T}
    {fs : List E} {r : R} (related : Match s t) (run : Runs step₂ m t fs u)
    (done : step₂ u = .done r) : Ends step₁ s fs r := by
  cases first : step₁ s with
  | done r' =>
    obtain ⟨n, v, silent, done'⟩ := sim.done related first
    obtain ⟨rfl, rfl⟩ := ends_unique ⟨m, u, run, done⟩ ⟨n, v, silent, done'⟩
    exact ⟨0, s, .refl s, first⟩
  | more es s' =>
    rcases sim.more related first with ⟨n, t', ahead, related'⟩ | ⟨rfl, related', smaller⟩
    · obtain ⟨k, gs, rfl, rfl, rest⟩ := run.to_stop done ahead
      obtain ⟨i, s'', run', done'⟩ := sim.back_ends related' rest done
      exact ⟨i + 1, s'', .next first run', done'⟩
    · obtain ⟨i, s'', run', done'⟩ := sim.back_ends related' run done
      exact ⟨i + 1, s'', .next first run', done'⟩
termination_by (m, rank s)

theorem back_emits (sim : Simulation step₁ step₂ Match rank) {m : Nat} {s : S} {t u : T}
    {fs : List E} (related : Match s t) (run : Runs step₂ m t fs u) : Emits step₁ s fs := by
  cases first : step₁ s with
  | done r' =>
    obtain ⟨n, v, silent, done⟩ := sim.done related first
    obtain ⟨k, gs, -, none, -⟩ := silent.to_stop done run
    obtain ⟨rfl, -⟩ := List.append_eq_nil_iff.mp none.symm
    exact emits_nil step₁ s
  | more es s' =>
    rcases sim.more related first with ⟨n, t', ahead, related'⟩ | ⟨rfl, related', smaller⟩
    · rcases ahead.compare run with ⟨k, gs, rfl, rfl, rest⟩ | ⟨k, gs, -, rfl, -⟩
      · obtain ⟨i, s'', es', run', shorter⟩ := sim.back_emits related' rest
        exact ⟨i + 1, s'', _, .next first run', (List.prefix_append_right_inj es).mpr shorter⟩
      · exact ⟨1, s', _, .one first, List.prefix_append fs gs⟩
    · obtain ⟨i, s'', es', run', shorter⟩ := sim.back_emits related' run
      exact ⟨i + 1, s'', _, .next first run', shorter⟩
termination_by (m, rank s)

theorem same_behavior (sim : Simulation step₁ step₂ Match rank) {s : S} {t : T}
    (related : Match s t) : SameBehavior step₁ s step₂ t := by
  refine ⟨fun es r => ⟨sim.ends related, ?_⟩, fun es => ⟨?_, ?_⟩⟩
  · rintro ⟨m, u, run, done⟩
    exact sim.back_ends related run done
  · rintro ⟨n, s', fs, run, before⟩
    obtain ⟨m, t', run', -⟩ := sim.runs run related
    exact ⟨m, t', fs, run', before⟩
  · rintro ⟨m, u, fs, run, before⟩
    exact (sim.back_emits related run).shorter before

end Simulation
end Scc.Transition

/-! Steps that fail or yield a result, one after the other. -/
namespace Scc.Transition
variable {ε α β : Type}

theorem bind_ok {x : Except ε α} {f : α → Except ε β} {b : β} :
    (x >>= f) = .ok b ↔ ∃ a, x = .ok a ∧ f a = .ok b := by
  cases x with
  | error e => simp [bind, Except.bind]
  | ok a => simp [bind, Except.bind]

theorem bind_error {x : Except ε α} {f : α → Except ε β} {e : ε} :
    (x >>= f) = .error e ↔ x = .error e ∨ ∃ a, x = .ok a ∧ f a = .error e := by
  cases x with
  | error e => simp [bind, Except.bind]
  | ok a => simp [bind, Except.bind]

/-- A step that fails when a condition holds and else goes on. -/
theorem guard_ok {c : Prop} [Decidable c] {e : ε} {x : Except ε α} {a : α} :
    (if c then (Except.error e : Except ε PUnit) >>= fun _ => x else x) = .ok a ↔ ¬c ∧ x = .ok a := by
  by_cases h : c
  · simp [h, bind, Except.bind]
  · simp [h]

end Scc.Transition
