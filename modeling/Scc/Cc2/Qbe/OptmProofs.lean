import Scc.Cc2.Qbe.Optm

set_option linter.all false

/-! The jump optimisation against the execution of the list. Dropping a branch that falls
to its destination also drops the evaluation of its condition: the pass is a simulation
exactly as long as such conditions have no effect when they are reached. -/
namespace Scc.Cc2.Qbe
open Transition
variable {E W V Ev : Type}

/-- The statements that `falls` walks over. -/
def Marker : Stmt E → Prop
  | .ONOP _ | .OBLOOP | .OELOOP => True
  | _ => False

theorem falls_split {dst : Sym} {next : List (Stmt E)} (falling : falls dst next = true) :
    ∃ markers rest, next = markers ++ .ONOP dst :: rest ∧ ∀ m ∈ markers, Marker m := by
  induction next with
  | nil => cases falling
  | cons stmt rest ih =>
    have further : falls dst rest = true → Marker stmt →
        ∃ markers rest', stmt :: rest = markers ++ .ONOP dst :: rest' ∧ ∀ m ∈ markers, Marker m := by
      intro falling' marker
      obtain ⟨markers, rest', rfl, all⟩ := ih falling'
      exact ⟨stmt :: markers, rest', rfl, List.forall_mem_cons.mpr ⟨marker, all⟩⟩
    cases stmt with
    | ONOP sym =>
      simp only [falls, Bool.or_eq_true, decide_eq_true_eq] at falling
      rcases falling with rfl | falling
      · exact ⟨[], rest, rfl, by simp⟩
      · exact further falling trivial
    | OBLOOP => exact further falling trivial
    | OELOOP => exact further falling trivial
    | _ => cases falling

theorem optimized_markers (prev : Option (Stmt E)) {markers : List (Stmt E)}
    (all : ∀ m ∈ markers, Marker m) (code : List (Stmt E)) :
    ∃ prev', optimized prev (markers ++ code) = markers ++ optimized prev' code := by
  induction markers generalizing prev with
  | nil => exact ⟨prev, rfl⟩
  | cons m rest ih =>
    obtain ⟨marker, all⟩ := List.forall_mem_cons.mp all
    obtain ⟨prev', eq⟩ := ih (some m) all
    refine ⟨prev', ?_⟩
    cases m <;> first | contradiction | simp [optimized, drops, eq]

theorem runs_markers (sem : Semantics E W V Ev) (body : List (Stmt E)) {markers : List (Stmt E)}
    (all : ∀ m ∈ markers, Marker m) (code : List (Stmt E)) (w : W) :
    Runs (step sem body) markers.length (.at (markers ++ code) w) [] (.at code w) := by
  induction markers with
  | nil => exact .refl _
  | cons m rest ih =>
    obtain ⟨marker, all⟩ := List.forall_mem_cons.mp all
    have head : step sem body (.at (m :: (rest ++ code)) w) = .more [] (.at (rest ++ code) w) := by
      cases m <;> first | contradiction | rfl
    exact .next head (ih all)

/-- A label of the list is found again in the optimised list. -/
theorem seek_optimized {l : Sym} {code found : List (Stmt E)} (prev : Option (Stmt E))
    (seeks : seek Stmt.labelOf l code = some found) :
    ∃ prev', seek Stmt.labelOf l (optimized prev code) = some (optimized prev' found) := by
  induction code generalizing prev with
  | nil => cases seeks
  | cons stmt rest ih =>
    by_cases here : stmt.labelOf = some l
    · rw [seek, if_pos here] at seeks
      cases seeks
      refine ⟨prev, ?_⟩
      cases stmt <;> simp only [Stmt.labelOf, Option.some.injEq, reduceCtorEq] at here
      subst here
      simp [optimized, drops, seek, Stmt.labelOf]
    · rw [seek, if_neg here] at seeks
      rw [optimized_cons]
      split
      · exact ih prev seeks
      · rw [seek, if_neg here]
        unfold added
        split
        · split
          · obtain ⟨prev', eq⟩ := ih (some (.ORET none)) seeks
            exact ⟨prev', by simpa [optimized, drops, seek, Stmt.labelOf] using eq⟩
          · exact ih _ seeks
        · exact ih _ seeks

/-- The positions of the optimised list that stand for a position of the list. -/
inductive Follows : List (Stmt E) → List (Stmt E) → Prop where
  | same (prev : Option (Stmt E)) (code : List (Stmt E)) : Follows code (optimized prev code)
  | last : Follows [] [.ORET none]

inductive Related (f : Function E) : Config E W V → Config E W V → Prop where
  | code {code code' : List (Stmt E)} {w : W} : code <:+ f.stmts → Follows code code' →
      Related f (.at code w) (.at code' w)
  | table {value : V} {deflabel : Option Sym} {code : List (Stmt E)} {w : W}
      (prev : Option (Stmt E)) : code <:+ f.stmts → Table code →
      (∀ sym, deflabel = some sym → sym ∈ labels Stmt.labelOf f.stmts) →
      Related f (.table value deflabel code w) (.table value deflabel (optimized prev code) w)
  | returned (value : Option V) (w : W) : Related f (.returned value w) (.returned value w)
  | stuck : Related f .stuck .stuck

/-- Evaluation of the condition changes nothing. -/
def Inert (sem : Semantics E W V Ev) (left : E) (w : W) : Prop :=
  (sem.eval left w).1 = [] ∧ (sem.eval left w).2.1 = w

/-- The run never evaluates a condition with side effects at a branch that falls to its
destination. -/
def Harmless (sem : Semantics E W V Ev) (body : List (Stmt E)) (c : Config E W V) : Prop :=
  ∀ n es sym left code w, Runs (step sem body) n c es (.at (.OBRANCH sym left :: code) w) →
    falls sym code = true → Inert sem left w

theorem Harmless.next {sem : Semantics E W V Ev} {body : List (Stmt E)} {c c' : Config E W V}
    {es : List Ev} (harmless : Harmless sem body c) (head : step sem body c = .more es c') :
    Harmless sem body c' :=
  fun n fs sym left code w run => harmless (n + 1) (es ++ fs) sym left code w (.next head run)

/-- Length of the code still ahead; a dropped jump makes it shorter. -/
def ahead : Config E W V → Nat
  | .at code _ => code.length
  | _ => 0

section
variable {f : Function E}

theorem goto_related {sym : Sym} (defined : sym ∈ labels Stmt.labelOf f.stmts) (w : W) :
    Related (V := V) f (goto f.stmts sym w) (goto (optimized none f.stmts) sym w) := by
  obtain ⟨code, found⟩ := Option.isSome_iff_exists.mp (seek_isSome.mpr defined)
  obtain ⟨prev, found'⟩ := seek_optimized none found
  simp only [goto, found, found']
  exact .code (seek_suffix found) (.same prev code)

theorem target_defined {stmt : Stmt E} {code : List (Stmt E)} {sym : Sym}
    (position : stmt :: code <:+ f.stmts) (target : stmt.target = some sym) :
    sym ∈ labels Stmt.labelOf f.stmts :=
  f.closed stmt (position.subset List.mem_cons_self) sym target

/-- A jump that falls to its destination need not be taken. -/
theorem falls_related {sym : Sym} {next : List (Stmt E)} (position : next <:+ f.stmts)
    (falling : falls sym next = true) (sem : Semantics E W V Ev) (prev : Option (Stmt E)) (w : W) :
    ∃ n c, Runs (step sem (optimized none f.stmts)) n (.at (optimized prev next) w) [] c ∧
      Related f (goto f.stmts sym w) c ∧ (n = 0 → c = .at (optimized prev next) w) ∧
      ahead (goto (V := V) f.stmts sym w) ≤ next.length := by
  obtain ⟨markers, rest, rfl, all⟩ := falls_split falling
  have position' : .ONOP sym :: rest <:+ f.stmts := (List.suffix_append _ _).trans position
  have found := seek_of_suffix f.unique position' rfl
  obtain ⟨prev', eq⟩ := optimized_markers prev all (.ONOP sym :: rest)
  refine ⟨markers.length, _, eq ▸ runs_markers sem _ all _ w, ?_, fun none => ?_, ?_⟩
  · simp only [goto, found]
    exact .code position' (.same prev' _)
  · rw [eq, List.length_eq_zero_iff.mp none, List.nil_append]
  · simp [goto, found, ahead]

theorem later {stmt : Stmt E} {code : List (Stmt E)} (position : stmt :: code <:+ f.stmts) :
    code <:+ f.stmts :=
  (List.suffix_cons _ _).trans position

/-- After `OEFUN` there is nothing, or the `ORET` that the pass adds. -/
theorem after_oefun (prev : Option (Stmt E)) :
    Follows ([] : List (Stmt E)) (optimized (some .OEFUN) (added prev .OEFUN ++ [])) := by
  simp only [added]
  split
  · exact .last
  · exact .same _ []

/-- A statement that stays does the same in both lists. -/
theorem kept_step {stmt : Stmt E} {next : List (Stmt E)} (position : stmt :: next <:+ f.stmts)
    (sem : Semantics E W V Ev) (prev : Option (Stmt E)) (w : W) {es : List Ev} {c : Config E W V}
    (head : step sem f.stmts (.at (stmt :: next) w) = .more es c) :
    ∃ c', step sem (optimized none f.stmts)
        (.at (stmt :: optimized (some stmt) (added prev stmt ++ next)) w) = .more es c' ∧
      Related f c c' := by
  have moves : ∀ w' : W, Related (V := V) f (.at next w') (.at (optimized (some stmt) next) w') :=
    fun w' => .code (later position) (.same _ _)
  cases stmt with
  | OEFUN =>
    obtain ⟨rfl, rfl⟩ := Next.more.inj head
    have last := f.ends next position
    subst last
    exact ⟨_, rfl, .code (later position) (after_oefun prev)⟩
  | OJMP sym =>
    obtain ⟨rfl, rfl⟩ := Next.more.inj head
    exact ⟨_, rfl, goto_related (target_defined position rfl) w⟩
  | OBRANCH sym left =>
    obtain ⟨rfl, rfl⟩ := Next.more.inj head
    refine ⟨_, rfl, ?_⟩
    split
    · exact goto_related (target_defined position rfl) _
    · exact moves _
  | ORET left =>
    cases left <;> obtain ⟨rfl, rfl⟩ := Next.more.inj head <;> exact ⟨_, rfl, .returned _ _⟩
  | OBSWITCH left nr =>
    obtain ⟨rfl, rfl⟩ := Next.more.inj head
    exact ⟨_, rfl, .table _ (later position) (f.tables left nr next position) (by simp)⟩
  | OCASE sym left =>
    obtain ⟨rfl, rfl⟩ := Next.more.inj head
    exact ⟨_, rfl, .stuck⟩
  | ODEFAULT sym =>
    obtain ⟨rfl, rfl⟩ := Next.more.inj head
    exact ⟨_, rfl, .stuck⟩
  | OESWITCH sym =>
    obtain ⟨rfl, rfl⟩ := Next.more.inj head
    exact ⟨_, rfl, .stuck⟩
  | _ =>
    obtain ⟨rfl, rfl⟩ := Next.more.inj head
    exact ⟨_, rfl, moves _⟩

/-- The entries of a table are kept. -/
theorem table_step {value : V} {deflabel : Option Sym} {code : List (Stmt E)}
    (position : code <:+ f.stmts) (table : Table code)
    (defined : ∀ sym, deflabel = some sym → sym ∈ labels Stmt.labelOf f.stmts)
    (sem : Semantics E W V Ev) (prev : Option (Stmt E)) (w : W) {es : List Ev} {c : Config E W V}
    (head : step sem f.stmts (.table value deflabel code w) = .more es c) :
    ∃ c', step sem (optimized none f.stmts) (.table value deflabel (optimized prev code) w) =
        .more es c' ∧ Related f c c' := by
  cases code with
  | nil => contradiction
  | cons stmt next =>
    cases stmt with
    | OCASE sym left =>
      obtain ⟨rfl, rfl⟩ := Next.more.inj head
      refine ⟨_, rfl, ?_⟩
      split
      · exact goto_related (target_defined position rfl) _
      · exact .table _ (later position) table defined
    | ODEFAULT sym =>
      obtain ⟨rfl, rfl⟩ := Next.more.inj head
      refine ⟨_, rfl, .table _ (later position) table fun sym' same => ?_⟩
      cases same
      exact target_defined position rfl
    | OESWITCH sym =>
      obtain ⟨rfl, rfl⟩ := Next.more.inj head
      refine ⟨_, rfl, goto_related ?_ _⟩
      cases h : deflabel with
      | none => exact target_defined position rfl
      | some sym' => exact defined sym' h
    | _ => contradiction

/-- A dropped statement leads where the optimised list already is, or is about to be. -/
theorem dropped_step {stmt : Stmt E} {next : List (Stmt E)} (position : stmt :: next <:+ f.stmts)
    (dropped : drops stmt next = true) (sem : Semantics E W V Ev) (prev : Option (Stmt E)) (w : W)
    {es : List Ev} {c : Config E W V}
    (harmless : Harmless sem f.stmts (.at (stmt :: next) w))
    (head : step sem f.stmts (.at (stmt :: next) w) = .more es c) :
    es = [] ∧ ∃ n c', Runs (step sem (optimized none f.stmts)) n (.at (optimized prev next) w) [] c' ∧
      Related f c c' ∧ (n = 0 → c' = .at (optimized prev next) w) ∧ ahead c ≤ next.length := by
  cases stmt with
  | OJMP sym =>
    obtain ⟨rfl, rfl⟩ := Next.more.inj head
    exact ⟨rfl, falls_related (later position) dropped sem prev w⟩
  | OBRANCH sym left =>
    obtain ⟨quiet, same⟩ := harmless 0 [] sym left next w (.refl _) dropped
    obtain ⟨rfl, rfl⟩ := Next.more.inj head
    simp only [quiet, same, true_and]
    split
    · exact falls_related (later position) dropped sem prev w
    · exact ⟨0, _, .refl _, .code (later position) (.same _ _), fun _ => rfl, Nat.le_refl _⟩
  | _ => contradiction

theorem optm_simulation (sem : Semantics E W V Ev) :
    Simulation (step sem f.stmts) (step sem (optimized none f.stmts))
      (fun c c' => Harmless sem f.stmts c ∧ Related f c c') ahead where
  done := by
    rintro c c' r ⟨-, related⟩ stops
    cases related with
    | @code code code' w position follows =>
      cases code with
      | cons stmt next =>
        cases stmt with
        | ORET left => cases left <;> contradiction
        | _ => contradiction
      | nil =>
        cases stops
        cases follows with
        | same prev => exact ⟨0, _, .refl _, rfl⟩
        | last => exact ⟨1, _, .one rfl, rfl⟩
    | @table value deflabel code w prev position table defined =>
      cases code with
      | nil => contradiction
      | cons stmt next => cases stmt <;> contradiction
    | returned value w => exact ⟨0, _, .refl _, stops⟩
    | stuck => exact ⟨0, _, .refl _, stops⟩
  more := by
    rintro c c' es t ⟨harmless, related⟩ head
    have harmless' := harmless.next head
    cases related with
    | @code code code' w position follows =>
      cases follows with
      | last => cases head
      | same prev =>
        cases code with
        | nil => cases head
        | cons stmt next =>
          rw [optimized_cons]
          by_cases dropped : drops stmt next = true
          · rw [if_pos dropped]
            obtain ⟨rfl, n, t', run, related', unmoved, shorter⟩ :=
              dropped_step position dropped sem prev w harmless head
            cases n with
            | succ n => exact .inl ⟨n, t', run, harmless', related'⟩
            | zero =>
              refine .inr ⟨rfl, ⟨harmless', unmoved rfl ▸ related'⟩, ?_⟩
              exact Nat.lt_of_le_of_lt shorter (Nat.lt_succ_self _)
          · rw [if_neg dropped]
            obtain ⟨t', step', related'⟩ := kept_step position sem prev w head
            exact .inl ⟨0, t', .one step', harmless', related'⟩
    | table prev position table defined =>
      obtain ⟨t', step', related'⟩ := table_step position table defined sem prev _ head
      exact .inl ⟨0, t', .one step', harmless', related'⟩
    | returned value w => cases head
    | stuck => cases head

end

/-- The optimised list of a function behaves, from `w`, as the list it was made from. -/
def Preserves (sem : Semantics E W V Ev) (nodes : List (Entry E)) (num : Nat) (w : W) : Prop :=
  SameBehavior (step sem (nodes.map Entry.stmt)) (.at (nodes.map Entry.stmt) w)
    (step sem ((optm num nodes).map Entry.stmt)) (.at ((optm num nodes).map Entry.stmt) w)

theorem optm_preserves (f : Function E) (nodes : List (Entry E)) (list : nodes.map Entry.stmt = f.stmts)
    (num : Nat) (sem : Semantics E W V Ev) (w : W)
    (harmless : Harmless sem f.stmts (.at f.stmts w)) : Preserves sem nodes num w := by
  have result : (optm num nodes).map Entry.stmt = optimized none f.stmts := by
    rw [optm, apply_stmts, list, Option.map_none]
  rw [Preserves, result, list]
  exact (optm_simulation sem).same_behavior
    ⟨harmless, .code (List.suffix_refl _) (.same none f.stmts)⟩

/-- The list of `if (f()) ;`: the branch over the empty statement falls to its label. -/
def emptyIf : Function Unit where
  stmts := [.OBFUN, .OBRANCH (.named 1) (), .ONOP (.named 1), .OEFUN]
  closed := by simp [labels, Stmt.labelOf, Stmt.target]
  unique := by decide
  tables := by
    intro left nr code position
    have member := position.subset List.mem_cons_self
    simp at member
  ends := by
    intro code position
    rcases position with ⟨before, eq⟩
    have length := congrArg List.length eq
    match before with
    | [] | [_] | [_, _] => simp at eq
    | [_, _, _] => simp_all
    | _ :: _ :: _ :: _ :: _ => simp at length

/-- Every evaluation calls something. -/
def calls : Semantics Unit Unit Bool Unit where
  eval _ w := ([()], w, true)
  nonzero := id
  equal := (· == ·)

theorem emptyIf_loses_call : ¬ Preserves calls (emptyIf.stmts.map (⟨·, none⟩)) 0 () := by
  intro same
  have result : (optm 0 (emptyIf.stmts.map (⟨·, none⟩))).map Entry.stmt =
      [.OBFUN, .ONOP (.named 1), .OEFUN, .ORET none] := by
    rw [optm, apply_stmts]
    rfl
  rw [Preserves, result] at same
  have once : Ends (step calls emptyIf.stmts) (.at emptyIf.stmts ()) [()] (.returned none ()) :=
    ⟨4, _, .of_exec rfl, rfl⟩
  have never := (same.1 [()] (.returned none ())).mp once
  have silent : Ends (step calls [.OBFUN, .ONOP (.named 1), .OEFUN, .ORET none])
      (.at [.OBFUN, .ONOP (.named 1), .OEFUN, .ORET none] ()) [] (.returned none ()) :=
    ⟨4, _, .of_exec rfl, rfl⟩
  cases (ends_unique never silent).1

theorem optm_preserves_emptyIf :
    Preserves (⟨fun _ w => ([], w, true), id, (· == ·)⟩ : Semantics Unit Unit Bool Unit)
      (emptyIf.stmts.map (⟨·, none⟩)) 0 () :=
  optm_preserves emptyIf _ rfl 0 _ () fun _ _ _ _ _ _ _ _ => ⟨rfl, rfl⟩

end Scc.Cc2.Qbe
