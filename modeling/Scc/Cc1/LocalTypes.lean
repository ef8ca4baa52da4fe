import Scc.Cc1.TypesProofs

set_option linter.all false

/-! The types that are created in the body of a function, and the table after it. -/
namespace Scc.Cc1.Types

/-- A derived type, or a structure, a union or an enumeration, which are not in the table. -/
def Step.Creates : Step → Prop
  | .mktype .. => True
  | .newtag _ type => type.chain = none
  | .funbody | .endbody => False

/-- Types are created one after the other. -/
inductive Creations (arch : Arch) : State → State → Prop where
  | refl (s : State) : Creations arch s s
  | next {s t u : State} {c : Step} :
      c.Creates → step arch c s = some t → Creations arch t u → Creations arch s u

/-- The types of the body stand in front of each chain, in the order of the local list. -/
structure Stacked (outer : Nat → List Ty) (s : State) : Prop where
  inside : s.curfun = true
  chains : ∀ h, s.typetab h = s.localtypes.filter (·.shape.chain == some h) ++ outer h

section
variable {arch : Arch} {outer : Nat → List Ty} {s t : State}

theorem Stacked.tag (stacked : Stacked outer s) {addr : Nat} {type : Shape}
    (other : type.chain = none) : Stacked outer (Types.newtype addr type s) where
  inside := stacked.inside
  chains h := by
    have local_ : (Types.newtype addr type s).localtypes = .mk addr type :: s.localtypes :=
      if_pos stacked.inside
    rw [local_, List.filter_cons_of_neg (by simp [Ty.shape, other])]
    exact stacked.chains h

theorem Stacked.enter (stacked : Stacked outer s) {addr b : Nat} {type : Shape}
    (chain : type.chain = some b) : Stacked outer { Types.newtype addr type s with
      typetab := Function.update s.typetab b (.mk addr type :: s.typetab b) } where
  inside := stacked.inside
  chains h := by
    have local_ : (Types.newtype addr type s).localtypes = .mk addr type :: s.localtypes :=
      if_pos stacked.inside
    dsimp only
    rw [local_]
    by_cases same : h = b
    · subst same
      rw [Function.update_self, stacked.chains, List.filter_cons_of_pos (by simp [Ty.shape, chain]),
        List.cons_append]
    · rw [Function.update_of_ne same, stacked.chains, List.filter_cons_of_neg]
      simpa [Ty.shape, chain] using Ne.symm same

variable (arch) in
theorem Stacked.mktype (stacked : Stacked outer s) (addr : Nat) (op : TypeOp) (tp : Ty) (nelem : Int)
    (pars : Pars) : Stacked outer (mktype arch addr op tp nelem pars s).2 := by
  unfold Types.mktype
  split
  · exact stacked
  · dsimp only
    split
    · exact stacked
    · exact stacked.enter (wanted_chain op tp nelem pars)

theorem Stacked.step (stacked : Stacked outer s) {c : Step} (creates : c.Creates)
    (result : step arch c s = some t) : Stacked outer t := by
  cases c with
  | mktype addr op tp nelem pars =>
    have made := stacked.mktype arch addr op tp nelem pars
    cases result
    exact ⟨made.inside, made.chains⟩
  | newtag addr type =>
    cases result
    exact stacked.tag creates
  | funbody => cases creates
  | endbody => cases creates

theorem Creations.stacked (body : Creations arch s t) (stacked : Stacked outer s) : Stacked outer t := by
  induction body with
  | refl => exact stacked
  | next creates result _ ih => exact ih (stacked.step creates result)

theorem flush_empties {locals : List Ty} (flushed : flush locals s = some t) : t.localtypes = [] := by
  induction locals generalizing s with
  | nil =>
    cases flushed
    rfl
  | cons tp next ih =>
    unfold flush at flushed
    split at flushed
    · exact ih flushed
    · split at flushed
      · cases flushed
      · split at flushed
        · exact ih flushed
        · cases flushed

variable (arch) in
theorem mktype_outside (addr : Nat) (op : TypeOp) (tp : Ty) (nelem : Int) (pars : Pars) (s : State) :
    (mktype arch addr op tp nelem pars s).2.curfun = s.curfun ∧
      (s.curfun = false → (mktype arch addr op tp nelem pars s).2.localtypes = s.localtypes) := by
  unfold mktype
  split
  · exact ⟨rfl, fun _ => rfl⟩
  · dsimp only
    split
    · exact ⟨rfl, fun _ => rfl⟩
    · refine ⟨rfl, fun outside => ?_⟩
      simp [newtype, outside]

/-- Outside of functions the local list is empty. -/
theorem Run.outside (run : Run arch s t) (before : s.curfun = false → s.localtypes = []) :
    t.curfun = false → t.localtypes = [] := by
  induction run with
  | refl => exact before
  | @next s t u c valid result _ ih =>
    apply ih
    intro after
    cases c with
    | mktype addr op tp nelem pars =>
      obtain ⟨place, kept⟩ := mktype_outside arch addr op tp nelem pars s
      cases result
      have outside : s.curfun = false := place.symm.trans after
      exact (kept outside).trans (before outside)
    | newtag addr type =>
      cases result
      have outside : s.curfun = false := after
      simpa [newtype, outside] using before outside
    | funbody =>
      cases result
      cases after
    | endbody =>
      obtain ⟨u, flushed, rfl⟩ := Option.map_eq_some_iff.mp result
      exact flush_empties (t := u) flushed

/-- After the body of a function the table is as it was before, and the assertion holds for each of
its types. -/
theorem flushtypes_restores {heap : Nat → Option Shape} (run : Run arch (initial heap) s)
    (outside : s.curfun = false) (body : Creations arch { s with curfun := true } t) :
    ∃ u, flushtypes t = some u ∧ u.typetab = s.typetab ∧ u.localtypes = [] := by
  have empty := run.outside (fun _ => rfl) outside
  have start : Stacked s.typetab { s with curfun := true } := by
    constructor
    · rfl
    · intro h
      rw [empty, List.filter_nil, List.nil_append]
  have stacked := body.stacked start
  exact ⟨_, flush_eq s.typetab t.localtypes t stacked.chains, rfl, rfl⟩

end

/-- The pointer to `long` of the file, with an array of it and a structure in a function. -/
theorem flushtypes_restores_pointers : ∃ u,
    flushtypes (newtype 0x5000 (.aggregate .STRUCT 'S' none .nil)
      (enter 0x4000 (.ary longtype 3) (HASH .ARY longtype) { pointers with curfun := true })) = some u ∧
    u.typetab = pointers.typetab ∧ u.localtypes = [] := by
  apply flushtypes_restores pointers_run rfl
  refine .next (c := .mktype 0x4000 .ARY longtype 3 .nil) trivial rfl ?_
  refine .next (c := .newtag 0x5000 (.aggregate .STRUCT 'S' none .nil)) rfl rfl ?_
  exact .refl _

end Scc.Cc1.Types
