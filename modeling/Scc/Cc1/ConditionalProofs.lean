import Mathlib.Data.List.Basic
import Scc.Cc1.Conditional

set_option linter.all false

/-! What the directives of `cpp.c` select. `#elif` and `#else` toggle one bit, which
forgets that a group of the chain has been taken: the run of a nested block is first
characterised exactly, and then compared with the selection of C99. -/
namespace Scc.Cc1.Conditional
variable {M : Type}

section
attribute [local simp] run cpp Block.lines Tail.lines Block.texts Tail.texts
end

theorem run_cons_ok {s s₁ s₂ : State M} {line : Line M} {rest : List (Line M)} {a b : List Bool}
    (h₁ : cpp s line = .ok (s₁, a)) (h₂ : run s₁ rest = .ok (s₂, b)) :
    run s (line :: rest) = .ok (s₂, a ++ b) := by
  simp [run, h₁, h₂, bind, Except.bind, pure, Except.pure]

theorem run_cons_inv {s t : State M} {line : Line M} {rest : List (Line M)} {ds : List Bool}
    (h : run s (line :: rest) = .ok (t, ds)) :
    ∃ s₁ a b, cpp s line = .ok (s₁, a) ∧ run s₁ rest = .ok (t, b) ∧ ds = a ++ b := by
  cases first : cpp s line with
  | error e => simp [run, first, bind, Except.bind] at h
  | ok next =>
    cases later : run next.1 rest with
    | error e => simp [run, first, later, bind, Except.bind] at h
    | ok after =>
      simp only [run, first, later, bind, Except.bind, pure, Except.pure, Except.ok.injEq,
        Prod.mk.injEq] at h
      obtain ⟨rfl, rfl⟩ := h
      exact ⟨next.1, next.2, after.2, rfl, later, rfl⟩

theorem run_append_ok {s s₁ s₂ : State M} {first second : List (Line M)} {a b : List Bool}
    (h₁ : run s first = .ok (s₁, a)) (h₂ : run s₁ second = .ok (s₂, b)) :
    run s (first ++ second) = .ok (s₂, a ++ b) := by
  induction first generalizing s a with
  | nil =>
    simp only [run, Except.ok.injEq, Prod.mk.injEq] at h₁
    obtain ⟨rfl, rfl⟩ := h₁
    exact h₂
  | cons line rest ih =>
    obtain ⟨s', a₁, a₂, step, run', rfl⟩ := run_cons_inv h₁
    rw [List.append_assoc]
    exact run_cons_ok step (ih run')

theorem run_append_inv {s t : State M} {first second : List (Line M)} {ds : List Bool}
    (h : run s (first ++ second) = .ok (t, ds)) :
    ∃ s₁ a b, run s first = .ok (s₁, a) ∧ run s₁ second = .ok (t, b) ∧ ds = a ++ b := by
  induction first generalizing s ds with
  | nil => exact ⟨s, [], ds, rfl, h, rfl⟩
  | cons line rest ih =>
    obtain ⟨s', a₁, a₂, step, run', rfl⟩ := run_cons_inv h
    obtain ⟨s₁, a, b, h₁, h₂, rfl⟩ := ih run'
    exact ⟨s₁, a₁ ++ a, b, run_cons_ok step h₁, h₂, (List.append_assoc ..).symm⟩

/-- The levels under `n` and the error flag are as before. -/
def Below (n : Nat) (s t : State M) : Prop :=
  t.failure = s.failure ∧ ∀ i < n, t.ifstate i = s.ifstate i

theorem Below.refl (n : Nat) (s : State M) : Below n s s := ⟨rfl, fun _ _ => rfl⟩

theorem Below.trans {n : Nat} {s t u : State M} (first : Below n s t) (second : Below n t u) :
    Below n s u :=
  ⟨second.1.trans first.1, fun i hi => (second.2 i hi).trans (first.2 i hi)⟩

theorem Below.mono {n k : Nat} {s t : State M} (below : Below n s t) (smaller : k ≤ n) :
    Below k s t :=
  ⟨below.1, fun i hi => below.2 i (by omega)⟩

/-- Between an opening directive and its `#endif`, at level `n`, with `off` switched-off
levels outside the chain. -/
structure InChain (s : State M) (n : Nat) (off : Int) (enabled iselse : Bool) : Prop where
  ctx : s.cppctx = n + 1
  top : s.ifstate n = ⟨enabled, iselse⟩
  count : s.cppoff = off + if enabled then 0 else 1
  nonneg : 0 ≤ off

theorem InChain.unmoved {s t : State M} {n : Nat} {off : Int} {enabled iselse : Bool}
    (inside : InChain s n off enabled iselse) (ctx : t.cppctx = s.cppctx)
    (count : t.cppoff = s.cppoff) (below : Below s.cppctx s t) :
    InChain t n off enabled iselse where
  ctx := ctx.trans inside.ctx
  top := (below.2 n (by rw [inside.ctx]; omega)).trans inside.top
  count := count.trans inside.count
  nonneg := inside.nonneg

theorem InChain.off_iff {s : State M} {n : Nat} {off : Int} {enabled iselse : Bool}
    (inside : InChain s n off enabled iselse) :
    s.cppoff = 0 ↔ off = 0 ∧ enabled = true := by
  have nonneg := inside.nonneg
  rw [inside.count]
  cases enabled
  · simp
    omega
  · simp

/-- The truth value the compiler gives a group: none is looked at in a skipped chain. -/
def reached (off : Int) (holds : Bool) : Bool := decide (off = 0) && holds

theorem ifclause_step (opening : Opening M) (s : State M) (nonneg : 0 ≤ s.cppoff)
    (room : s.cppctx < NR_COND - 1) :
    ∃ t, ifclause opening.clause s = .ok t ∧
      InChain t s.cppctx s.cppoff (reached s.cppoff (opening.holds s.macros)) false ∧
      t.macros = s.macros ∧ Below s.cppctx s t := by
  have status : opening.clause.status s.macros = some (opening.holds s.macros) := by
    cases opening <;> rfl
  have level : s.cppctx ≠ NR_COND - 1 := by omega
  simp only [ifclause, if_neg level, status]
  have below : ∀ b, Below s.cppctx s (setState { s with cppctx := s.cppctx + 1 } s.cppctx b) := by
    intro b
    refine ⟨rfl, fun i hi => ?_⟩
    simp [setState, Function.update_of_ne (show i ≠ s.cppctx by omega)]
  have inside : ∀ b,
      InChain (setState { s with cppctx := s.cppctx + 1 } s.cppctx b) s.cppctx s.cppoff b false := by
    intro b
    refine ⟨rfl, by simp [setState], ?_, nonneg⟩
    cases b <;> simp [setState]
  by_cases off : s.cppoff = 0
  · simp only [off, ne_eq, not_true_eq_false, if_false]
    exact ⟨_, rfl, by simpa [reached, off] using inside (opening.holds s.macros), rfl, below _⟩
  · rw [if_pos off]
    exact ⟨_, rfl, by simpa [reached, off] using inside false, rfl, below _⟩

theorem elseclause_step {s : State M} {n : Nat} {off : Int} {enabled iselse : Bool}
    (inside : InChain s n off enabled iselse) :
    InChain (elseclause s) n off (!enabled) iselse ∧ (elseclause s).macros = s.macros ∧
      Below n s (elseclause s) := by
  have last : s.cppctx - 1 = n := by rw [inside.ctx]; rfl
  refine ⟨⟨inside.ctx, ?_, ?_, inside.nonneg⟩, rfl, rfl, fun i hi => ?_⟩
  · simp [elseclause, last, inside.top]
  · have count := inside.count
    cases enabled <;> simp [elseclause, last, inside.top] at count ⊢ <;> omega
  · simp [elseclause, last, Function.update_of_ne (show i ≠ n by omega)]

theorem InChain.placed {s : State M} {n : Nat} {off : Int} {enabled : Bool}
    (inside : InChain s n off enabled false) : misplaced s = false := by
  simp [misplaced, inside.top, inside.ctx]

/-- The bit set by a group is cleared by the next `#elif` and, being clear, set again
by the one after it: nothing remembers that the chain has been taken. -/
theorem elif_step (constexpr : M → Int) {s : State M} {n : Nat} {off : Int} {enabled : Bool}
    (inside : InChain s n off enabled false) (skipped : off ≠ 0 → enabled = false)
    (room : n < NR_COND - 1) :
    ∃ t, elif (fun m => some (constexpr m)) s = .ok t ∧
      InChain t n off (reached off (!enabled && constexpr s.macros != 0)) false ∧
      t.macros = s.macros ∧ Below n s t := by
  obtain ⟨toggled, macros, below⟩ := elseclause_step inside
  have last : (elseclause s).cppctx - 1 = n := by rw [toggled.ctx]; rfl
  simp only [elif, inside.placed, if_false, last, toggled.top, Bool.false_eq_true]
  cases enabled with
  | true =>
    exact ⟨_, rfl, by simpa [reached] using toggled, macros, below⟩
  | false =>
    have count : (elseclause s).cppoff = off := by simpa using toggled.count
    obtain ⟨t, done, opened, same, under⟩ := ifclause_step (.cppif constexpr)
      { elseclause s with cppctx := n } (by simpa [count] using inside.nonneg) room
    refine ⟨t, done, ?_, same.trans macros, below.trans under⟩
    simpa [count, macros, Opening.holds] using opened

theorem cppelse_step {s : State M} {n : Nat} {off : Int} {enabled : Bool}
    (inside : InChain s n off enabled false) :
    InChain (cppelse s) n off (!enabled) true ∧ (cppelse s).macros = s.macros ∧
      Below n s (cppelse s) := by
  have last : s.cppctx - 1 = n := by rw [inside.ctx]; rfl
  have marked : InChain { s with
      ifstate := Function.update s.ifstate n ⟨enabled, true⟩ } n off enabled true :=
    ⟨inside.ctx, by simp, inside.count, inside.nonneg⟩
  obtain ⟨toggled, macros, below⟩ := elseclause_step marked
  have unfolded : cppelse s = elseclause { s with
      ifstate := Function.update s.ifstate n ⟨enabled, true⟩ } := by
    simp [cppelse, inside.placed, last, inside.top]
  rw [unfolded]
  refine ⟨toggled, macros, below.1, fun i hi => (below.2 i hi).trans ?_⟩
  simp [Function.update_of_ne (show i ≠ n by omega)]

theorem endif_step {s : State M} {n : Nat} {off : Int} {enabled iselse : Bool}
    (inside : InChain s n off enabled iselse) :
    ∃ t, endif s = .ok t ∧ t.cppctx = n ∧ t.cppoff = off ∧ t.macros = s.macros ∧
      Below n s t := by
  have ctx := inside.ctx
  have last : s.cppctx - 1 = n := by omega
  have positive : s.cppctx ≠ 0 := by omega
  simp only [endif, if_neg positive, last, inside.top]
  refine ⟨_, rfl, rfl, ?_, rfl, rfl, fun _ _ => rfl⟩
  have count := inside.count
  cases enabled <;> simp at count ⊢ <;> omega

mutual
/-- The lines acted upon in a block read with no level switched off, when each `#elif`
and `#else` only looks at the bit the previous group left. -/
def Block.toggled (m : M) : Block M → M × List Bool
  | .nil => (m, [])
  | .other act rest =>
    let after := rest.toggled (act m)
    (after.1, true :: after.2)
  | .chain opening body tail rest =>
    let group := if opening.holds m then body.toggled m else (m, body.skip)
    let others := tail.toggled (opening.holds m) group.1
    let after := rest.toggled others.1
    (after.1, group.2 ++ (others.2 ++ after.2))

def Tail.toggled (enabled : Bool) (m : M) : Tail M → M × List Bool
  | .endif => (m, [])
  | .elif constexpr body tail =>
    let kept := !enabled && constexpr m != 0
    let group := if kept then body.toggled m else (m, body.skip)
    let others := tail.toggled kept group.1
    (others.1, group.2 ++ others.2)
  | .cppelse body => if enabled then (m, body.skip) else body.toggled m
end

/-- What a block does to the macros and to its lines below `off` switched-off levels. -/
def Block.outcome (off : Int) (m : M) (b : Block M) : M × List Bool :=
  if off = 0 then b.toggled m else (m, b.skip)

def Tail.outcome (off : Int) (enabled : Bool) (m : M) (t : Tail M) : M × List Bool :=
  if off = 0 then t.toggled enabled m else (m, t.skip)

@[simp] theorem reached_zero (holds : Bool) : reached 0 holds = holds := by simp [reached]

theorem reached_off {off : Int} (outer : off ≠ 0) (holds : Bool) : reached off holds = false := by
  simp [reached, outer]

theorem reached_idem (off : Int) (holds : Bool) :
    reached off (reached off holds) = reached off holds := by
  by_cases outer : off = 0
  · rw [outer, reached_zero]
  · simp only [reached_off outer]

/-- A group of a chain acts upon its lines or drops them all. -/
def Block.group (kept : Bool) (m : M) (b : Block M) : M × List Bool :=
  if kept then b.toggled m else (m, b.skip)

section
attribute [local simp] Block.toggled Tail.toggled
end

theorem Block.outcome_group {s : State M} {n : Nat} {off : Int} {enabled iselse : Bool}
    (inside : InChain s n off enabled iselse) (m : M) (b : Block M) :
    b.outcome s.cppoff m = b.group (reached off enabled) m := by
  simp only [Block.outcome, inside.off_iff, Block.group, reached, Bool.and_eq_true,
    decide_eq_true_eq]

theorem Block.outcome_chain (off : Int) (m : M) (opening : Opening M) (body : Block M)
    (tail : Tail M) (rest : Block M) :
    let kept := reached off (opening.holds m)
    let group := body.group kept m
    let others := tail.outcome off kept group.1
    let after := rest.outcome off others.1
    (Block.chain opening body tail rest).outcome off m =
      (after.1, group.2 ++ (others.2 ++ after.2)) := by
  by_cases outer : off = 0
  · simp only [Block.outcome, Tail.outcome, outer, if_true, reached_zero, Block.toggled,
      Block.group]
  · simp [Block.outcome, Tail.outcome, outer, reached_off, Block.group, Block.skip, Tail.skip,
      Block.texts]

theorem Tail.outcome_elif (off : Int) (enabled : Bool) (m : M) (constexpr : M → Int)
    (body : Block M) (tail : Tail M) :
    let kept := reached off (!enabled && constexpr m != 0)
    let group := body.group kept m
    let others := tail.outcome off kept group.1
    (Tail.elif constexpr body tail).outcome off enabled m = (others.1, group.2 ++ others.2) := by
  by_cases outer : off = 0
  · simp only [Tail.outcome, outer, if_true, reached_zero, Tail.toggled, Block.group]
  · simp [Tail.outcome, outer, reached_off, Block.group, Block.skip, Tail.skip, Tail.texts]

theorem Tail.outcome_cppelse (off : Int) (enabled : Bool) (m : M) (body : Block M) :
    (Tail.cppelse body).outcome off enabled m = body.group (reached off (!enabled)) m := by
  by_cases outer : off = 0
  · cases enabled <;> simp [Tail.outcome, outer, Tail.toggled, Block.group]
  · simp [Tail.outcome, outer, reached_off, Block.group, Block.skip, Tail.skip, Tail.texts]

mutual
/-- A nested block runs to its end, leaves the counters and the outer levels as they
were, and acts upon exactly the lines the toggling selects. -/
theorem Block.run_lines (b : Block M) (s : State M) (nonneg : 0 ≤ s.cppoff)
    (room : s.cppctx + b.depth ≤ NR_COND - 1) :
    ∃ t, run s b.lines = .ok (t, (b.outcome s.cppoff s.macros).2) ∧
      t.macros = (b.outcome s.cppoff s.macros).1 ∧
      t.cppctx = s.cppctx ∧ t.cppoff = s.cppoff ∧ Below s.cppctx s t := by
  cases b with
  | nil =>
    refine ⟨s, ?_, ?_, rfl, rfl, Below.refl _ s⟩ <;>
      simp [Block.lines, run, Block.outcome, Block.toggled, Block.skip, Block.texts]
  | other act rest =>
    simp only [Block.depth] at room
    by_cases off : s.cppoff = 0
    · obtain ⟨t, done, macros, ctx, count, below⟩ :=
        rest.run_lines { s with macros := act s.macros } nonneg room
      have step : cpp s (.other act) = .ok ({ s with macros := act s.macros }, [true]) := by
        simp [cpp, off]
      refine ⟨t, ?_, ?_, ctx, count, below⟩
      · simpa [Block.outcome, off, Block.toggled, Block.lines] using run_cons_ok step done
      · simpa [Block.outcome, off, Block.toggled] using macros
    · obtain ⟨t, done, macros, ctx, count, below⟩ := rest.run_lines s nonneg room
      have step : cpp s (.other act) = .ok (s, [false]) := by simp [cpp, off]
      refine ⟨t, ?_, ?_, ctx, count, below⟩
      · simpa [Block.outcome, off, Block.lines, Block.skip, Block.texts, List.replicate_succ]
          using run_cons_ok step done
      · simpa [Block.outcome, off] using macros
  | chain opening body tail rest =>
    simp only [Block.depth] at room
    obtain ⟨s₁, opened, inside, same, below⟩ := ifclause_step opening s nonneg (by omega)
    have first : cpp s (.ifclause opening.clause) = .ok (s₁, []) := by
      simp [cpp, opened, Except.map]
    have nonneg₁ : 0 ≤ s₁.cppoff := by
      have count := inside.count
      split at count <;> omega
    obtain ⟨s₂, ran₂, macros₂, ctx₂, count₂, below₂⟩ :=
      body.run_lines s₁ nonneg₁ (by rw [inside.ctx]; omega)
    have inside₂ := inside.unmoved ctx₂ count₂ below₂
    obtain ⟨s₃, ran₃, macros₃, ctx₃, count₃, below₃⟩ := tail.run_lines inside₂
      (by intro off; simp [reached, off]) (by omega)
    obtain ⟨s₄, ran₄, macros₄, ctx₄, count₄, below₄⟩ :=
      rest.run_lines s₃ (by omega) (by omega)
    rw [Block.outcome_group inside, same, reached_idem] at ran₂ macros₂
    have whole := run_cons_ok first (run_append_ok ran₂ (run_append_ok ran₃ ran₄))
    have below' := below.trans ((below₂.mono (by rw [inside.ctx]; omega)).trans
      (below₃.trans (below₄.mono (by omega))))
    rw [ctx₃] at ctx₄
    rw [count₃] at count₄
    rw [Block.outcome_chain]
    refine ⟨s₄, ?_, ?_, ctx₄, count₄, below'⟩
    · rw [Block.lines, whole, macros₃, count₃, macros₂]
      rfl
    · rw [macros₄, macros₃, count₃, macros₂]

theorem Tail.run_lines (tl : Tail M) {s : State M} {n : Nat} {off : Int} {enabled : Bool}
    (inside : InChain s n off enabled false) (skipped : off ≠ 0 → enabled = false)
    (room : n + 1 + tl.depth ≤ NR_COND - 1) :
    ∃ t, run s tl.lines = .ok (t, (tl.outcome off enabled s.macros).2) ∧
      t.macros = (tl.outcome off enabled s.macros).1 ∧
      t.cppctx = n ∧ t.cppoff = off ∧ Below n s t := by
  cases tl with
  | endif =>
    obtain ⟨t, done, ctx, count, macros, below⟩ := endif_step inside
    refine ⟨t, ?_, ?_, ctx, count, below⟩
    · simp [Tail.lines, run, cpp, done, Except.map, bind, Except.bind, pure, Except.pure,
        Tail.outcome, Tail.toggled, Tail.skip, Tail.texts]
    · rw [macros, Tail.outcome]
      split <;> rfl
  | elif constexpr body tail =>
    simp only [Tail.depth] at room
    obtain ⟨s₁, opened, inside₁, same, below⟩ := elif_step constexpr inside skipped (by omega)
    have first : cpp s (.elif fun m => some (constexpr m)) = .ok (s₁, []) := by
      simp [cpp, opened, Except.map]
    have nonneg₁ : 0 ≤ s₁.cppoff := by
      have count := inside₁.count
      have nonneg := inside.nonneg
      split at count <;> omega
    obtain ⟨s₂, ran₂, macros₂, ctx₂, count₂, below₂⟩ :=
      body.run_lines s₁ nonneg₁ (by rw [inside₁.ctx]; omega)
    have inside₂ := inside₁.unmoved ctx₂ count₂ below₂
    obtain ⟨s₃, ran₃, macros₃, ctx₃, count₃, below₃⟩ := tail.run_lines inside₂
      (by intro off; simp [reached, off]) (by omega)
    rw [Block.outcome_group inside₁, same, reached_idem] at ran₂ macros₂
    have whole := run_cons_ok first (run_append_ok ran₂ ran₃)
    have below' := below.trans ((below₂.mono (by rw [inside₁.ctx]; omega)).trans below₃)
    rw [Tail.outcome_elif]
    refine ⟨s₃, ?_, ?_, ctx₃, count₃, below'⟩
    · rw [Tail.lines, whole, macros₂]
      rfl
    · rw [macros₃, macros₂]
  | cppelse body =>
    simp only [Tail.depth] at room
    obtain ⟨inside₁, same, below⟩ := cppelse_step inside
    have first : cpp s .cppelse = .ok (cppelse s, []) := rfl
    have nonneg₁ : 0 ≤ (cppelse s).cppoff := by
      have count := inside₁.count
      have nonneg := inside.nonneg
      split at count <;> omega
    obtain ⟨s₂, ran₂, macros₂, ctx₂, count₂, below₂⟩ :=
      body.run_lines (cppelse s) nonneg₁ (by rw [inside₁.ctx]; omega)
    obtain ⟨s₃, done, ctx₃, count₃, macros₃, below₃⟩ :=
      endif_step (inside₁.unmoved ctx₂ count₂ below₂)
    have last : run s₂ [.endif] = .ok (s₃, []) := by
      simp [run, cpp, done, Except.map, bind, Except.bind, pure, Except.pure]
    rw [Block.outcome_group inside₁, same] at ran₂ macros₂
    have whole := run_cons_ok first (run_append_ok ran₂ last)
    have below' := below.trans ((below₂.mono (by rw [inside₁.ctx]; omega)).trans below₃)
    rw [Tail.outcome_cppelse]
    refine ⟨s₃, ?_, macros₃.trans macros₂, ctx₃, count₃, below'⟩
    rw [Tail.lines, whole, List.nil_append, List.append_nil]
end

end Scc.Cc1.Conditional
