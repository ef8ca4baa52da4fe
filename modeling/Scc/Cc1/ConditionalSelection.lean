import Scc.Cc1.ConditionalProofs

set_option linter.all false

/-! When the groups `cpp.c` selects are those of C99, and the invariant of its counters:
`cppoff` is the number of open levels whose bit is clear. -/
namespace Scc.Cc1.Conditional
variable {M : Type}

mutual
/-- Nothing in the block is acted upon when it is read with no level switched off. -/
def Block.Inert (m : M) : Block M → Prop
  | .nil => True
  | .other _ _ => False
  | .chain opening body tail rest =>
    (opening.holds m = true → body.Inert m) ∧ tail.Inert (opening.holds m) m ∧ rest.Inert m

def Tail.Inert (enabled : Bool) (m : M) : Tail M → Prop
  | .endif => True
  | .elif constexpr body tail =>
    ((!enabled && constexpr m != 0) = true → body.Inert m) ∧
      tail.Inert (!enabled && constexpr m != 0) m
  | .cppelse body => enabled = false → body.Inert m
end

mutual
/-- In every chain that is processed, the group after the one taken is skipped and what
the toggling lets in later holds no line to act upon. -/
def Block.SelectsOnce (m : M) : Block M → Prop
  | .nil => True
  | .other act rest => rest.SelectsOnce (act m)
  | .chain opening body tail rest =>
    (if opening.holds m then body.SelectsOnce m ∧ tail.Inert true (body.keep m).1
      else tail.SelectsOnce m) ∧
    rest.SelectsOnce ((Block.chain opening body tail .nil).keep m).1

/-- The same for the rest of a chain of which no group has been taken yet. -/
def Tail.SelectsOnce (m : M) : Tail M → Prop
  | .endif => True
  | .elif constexpr body tail =>
    if constexpr m != 0 then body.SelectsOnce m ∧ tail.Inert true (body.keep m).1
    else tail.SelectsOnce m
  | .cppelse body => body.SelectsOnce m
end

@[simp] theorem Block.length_skip (b : Block M) : b.skip.length = b.texts :=
  List.length_replicate

@[simp] theorem Tail.length_skip (t : Tail M) : t.skip.length = t.texts :=
  List.length_replicate

mutual
theorem Block.length_toggled (m : M) (b : Block M) : (b.toggled m).2.length = b.texts := by
  cases b with
  | nil => rfl
  | other act rest => simp [Block.toggled, Block.texts, rest.length_toggled]
  | chain opening body tail rest =>
    simp only [Block.toggled, Block.texts, List.length_append, tail.length_toggled,
      rest.length_toggled]
    split <;> simp [body.length_toggled]

theorem Tail.length_toggled (enabled : Bool) (m : M) (t : Tail M) :
    (t.toggled enabled m).2.length = t.texts := by
  cases t with
  | endif => rfl
  | elif constexpr body tail =>
    simp only [Tail.toggled, Tail.texts, List.length_append, tail.length_toggled]
    split <;> simp [body.length_toggled]
  | cppelse body =>
    simp only [Tail.toggled, Tail.texts]
    split <;> simp [body.length_toggled]
end

mutual
theorem Block.length_keep (m : M) (b : Block M) : (b.keep m).2.length = b.texts := by
  cases b with
  | nil => rfl
  | other act rest => simp [Block.keep, Block.texts, rest.length_keep]
  | chain opening body tail rest =>
    simp only [Block.keep, Block.texts, List.length_append, tail.length_keep, rest.length_keep]
    split <;> simp [body.length_keep]

theorem Tail.length_keep (taken : Bool) (m : M) (t : Tail M) :
    (t.keep taken m).2.length = t.texts := by
  cases t with
  | endif => rfl
  | elif constexpr body tail =>
    simp only [Tail.keep, Tail.texts, List.length_append, tail.length_keep]
    split <;> simp [body.length_keep]
  | cppelse body =>
    simp only [Tail.keep, Tail.texts]
    split <;> simp [body.length_keep]
end

theorem Block.skip_chain (opening : Opening M) (body : Block M) (tail : Tail M) (rest : Block M) :
    (Block.chain opening body tail rest).skip = body.skip ++ (tail.skip ++ rest.skip) := by
  simp [Block.skip, Tail.skip, Block.texts]

theorem Tail.skip_elif (constexpr : M → Int) (body : Block M) (tail : Tail M) :
    (Tail.elif constexpr body tail).skip = body.skip ++ tail.skip := by
  simp [Block.skip, Tail.skip, Tail.texts]

/-- After a taken group C99 drops the rest of the chain. -/
theorem Tail.keep_taken (m : M) (t : Tail M) : t.keep true m = (m, t.skip) := by
  cases t with
  | endif => rfl
  | elif constexpr body tail =>
    simp [Tail.keep, Tail.skip_elif, tail.keep_taken m]
  | cppelse body => simp [Tail.keep, Tail.skip, Block.skip, Tail.texts]

mutual
theorem Block.toggled_inert {m : M} (b : Block M) (inert : b.Inert m) :
    b.toggled m = (m, b.skip) := by
  cases b with
  | nil => rfl
  | other act rest => exact inert.elim
  | chain opening body tail rest =>
    obtain ⟨group, others, after⟩ := inert
    have first : (if opening.holds m = true then body.toggled m else (m, body.skip)) =
        (m, body.skip) := by
      split
      · exact body.toggled_inert (group ‹_›)
      · rfl
    simp only [Block.toggled, first, tail.toggled_inert others, rest.toggled_inert after,
      Block.skip_chain]

theorem Tail.toggled_inert {enabled : Bool} {m : M} (t : Tail M) (inert : t.Inert enabled m) :
    t.toggled enabled m = (m, t.skip) := by
  cases t with
  | endif => rfl
  | elif constexpr body tail =>
    obtain ⟨group, others⟩ := inert
    have first : (if (!enabled && constexpr m != 0) = true then body.toggled m
        else (m, body.skip)) = (m, body.skip) := by
      split
      · exact body.toggled_inert (group ‹_›)
      · rfl
    simp only [Tail.toggled, first, tail.toggled_inert others, Tail.skip_elif]
  | cppelse body =>
    cases enabled with
    | true => rfl
    | false => exact body.toggled_inert (inert rfl)
end

/-- The group of a chain contributes exactly its dropped lines only if it is inert. -/
theorem group_inert {m : M} {kept : Prop} [Decidable kept] {body : Block M}
    (dropped : (if kept then body.toggled m else (m, body.skip)).2 = body.skip)
    (ih : (body.toggled m).2 = body.skip → body.Inert m) :
    (kept → body.Inert m) ∧
      (if kept then body.toggled m else (m, body.skip)) = (m, body.skip) := by
  by_cases h : kept
  · simp only [h, if_true] at dropped ⊢
    exact ⟨fun _ => ih dropped, body.toggled_inert (ih dropped)⟩
  · simp [h]

mutual
theorem Block.inert_of_toggled {m : M} (b : Block M) (dropped : (b.toggled m).2 = b.skip) :
    b.Inert m := by
  cases b with
  | nil => trivial
  | other act rest => simp [Block.toggled, Block.skip, Block.texts, List.replicate_succ] at dropped
  | chain opening body tail rest =>
    rw [Block.skip_chain] at dropped
    obtain ⟨first, later⟩ := List.append_inj dropped
      (by split <;> simp [body.length_toggled])
    obtain ⟨group, same⟩ := group_inert first body.inert_of_toggled
    simp only [same] at later
    obtain ⟨second, third⟩ := List.append_inj later (by simp [tail.length_toggled])
    have others := tail.inert_of_toggled second
    rw [tail.toggled_inert others] at third
    exact ⟨group, others, rest.inert_of_toggled third⟩

theorem Tail.inert_of_toggled {enabled : Bool} {m : M} (t : Tail M)
    (dropped : (t.toggled enabled m).2 = t.skip) : t.Inert enabled m := by
  cases t with
  | endif => trivial
  | elif constexpr body tail =>
    rw [Tail.skip_elif] at dropped
    obtain ⟨first, later⟩ := List.append_inj dropped
      (by split <;> simp [body.length_toggled])
    obtain ⟨group, same⟩ := group_inert first body.inert_of_toggled
    simp only [same] at later
    exact ⟨group, tail.inert_of_toggled later⟩
  | cppelse body =>
    intro enabled
    subst enabled
    exact body.inert_of_toggled dropped
end

theorem Tail.toggled_taken {m : M} (t : Tail M) (inert : t.Inert true m) :
    t.toggled true m = t.keep true m :=
  (t.toggled_inert inert).trans (t.keep_taken m).symm

mutual
theorem Block.toggled_selectsOnce {m : M} (b : Block M) (once : b.SelectsOnce m) :
    b.toggled m = b.keep m := by
  cases b with
  | nil => rfl
  | other act rest => simp only [Block.toggled, Block.keep, rest.toggled_selectsOnce once]
  | chain opening body tail rest =>
    obtain ⟨chain, after⟩ := once
    cases holds : opening.holds m with
    | true =>
      simp only [holds, if_true] at chain
      simp only [Block.keep, holds, if_true] at after
      simp only [Block.toggled, Block.keep, holds, if_true, body.toggled_selectsOnce chain.1,
        tail.toggled_taken chain.2, rest.toggled_selectsOnce after]
    | false =>
      simp only [holds, Bool.false_eq_true, if_false] at chain
      simp only [Block.keep, holds, Bool.false_eq_true, if_false] at after
      simp only [Block.toggled, Block.keep, holds, Bool.false_eq_true, if_false,
        tail.toggled_selectsOnce chain, rest.toggled_selectsOnce after]

theorem Tail.toggled_selectsOnce {m : M} (t : Tail M) (once : t.SelectsOnce m) :
    t.toggled false m = t.keep false m := by
  cases t with
  | endif => rfl
  | elif constexpr body tail =>
    simp only [Tail.SelectsOnce] at once
    cases holds : constexpr m != 0 with
    | true =>
      simp only [holds, if_true] at once
      simp only [Tail.toggled, Tail.keep, holds, Bool.not_false, Bool.and_self, Bool.or_true,
        if_true, body.toggled_selectsOnce once.1, tail.toggled_taken once.2]
    | false =>
      simp only [holds, Bool.false_eq_true, if_false] at once
      simp only [Tail.toggled, Tail.keep, holds, Bool.and_false, Bool.or_self,
        Bool.false_eq_true, if_false, tail.toggled_selectsOnce once]
  | cppelse body => exact body.toggled_selectsOnce once
end

theorem Tail.inert_of_keep {m : M} (t : Tail M)
    (same : (t.toggled true m).2 = (t.keep true m).2) : t.Inert true m :=
  t.inert_of_toggled (same.trans (congrArg Prod.snd (t.keep_taken m)))

mutual
theorem Block.selectsOnce_of_toggled {m : M} (b : Block M)
    (same : (b.toggled m).2 = (b.keep m).2) : b.SelectsOnce m := by
  cases b with
  | nil => trivial
  | other act rest => exact rest.selectsOnce_of_toggled (List.cons.inj same).2
  | chain opening body tail rest =>
    cases holds : opening.holds m with
    | true =>
      simp only [Block.toggled, Block.keep, holds, if_true] at same
      obtain ⟨first, later⟩ := List.append_inj same
        (by rw [body.length_toggled, body.length_keep])
      have once := body.selectsOnce_of_toggled first
      rw [body.toggled_selectsOnce once] at later
      obtain ⟨second, third⟩ := List.append_inj later
        (by rw [tail.length_toggled, tail.length_keep])
      have inert := tail.inert_of_keep second
      rw [tail.toggled_taken inert] at third
      refine ⟨by simpa only [holds, if_true] using ⟨once, inert⟩, ?_⟩
      simpa only [Block.keep, holds, if_true] using rest.selectsOnce_of_toggled third
    | false =>
      simp only [Block.toggled, Block.keep, holds, Bool.false_eq_true, if_false] at same
      have later := List.append_cancel_left same
      obtain ⟨second, third⟩ := List.append_inj later
        (by rw [tail.length_toggled, tail.length_keep])
      have once := tail.selectsOnce_of_toggled second
      rw [tail.toggled_selectsOnce once] at third
      refine ⟨by simpa only [holds, Bool.false_eq_true, if_false] using once, ?_⟩
      simpa only [Block.keep, holds, Bool.false_eq_true, if_false] using
        rest.selectsOnce_of_toggled third

theorem Tail.selectsOnce_of_toggled {m : M} (t : Tail M)
    (same : (t.toggled false m).2 = (t.keep false m).2) : t.SelectsOnce m := by
  cases t with
  | endif => trivial
  | elif constexpr body tail =>
    cases holds : constexpr m != 0 with
    | true =>
      simp only [Tail.toggled, Tail.keep, holds, Bool.not_false, Bool.and_self, Bool.or_true,
        if_true] at same
      obtain ⟨first, later⟩ := List.append_inj same
        (by rw [body.length_toggled, body.length_keep])
      have once := body.selectsOnce_of_toggled first
      rw [body.toggled_selectsOnce once] at later
      simpa only [Tail.SelectsOnce, holds, if_true] using ⟨once, tail.inert_of_keep later⟩
    | false =>
      simp only [Tail.toggled, Tail.keep, holds, Bool.and_false, Bool.or_self,
        Bool.false_eq_true, if_false] at same
      simpa only [Tail.SelectsOnce, holds, Bool.false_eq_true, if_false] using
        tail.selectsOnce_of_toggled (List.append_cancel_left same)
  | cppelse body => exact body.selectsOnce_of_toggled same
end

/-! The invariant of the counters, over any sequence of lines whose conditions have a
truth value, nested or not. -/

/-- Number of levels under `n` whose bit is clear. -/
def clearBits (ifstate : Nat → IfState) : Nat → Nat
  | 0 => 0
  | n + 1 => clearBits ifstate n + if (ifstate n).enabled then 0 else 1

theorem clearBits_update (ifstate : Nat → IfState) (bits : IfState) {n k : Nat} (le : n ≤ k) :
    clearBits (Function.update ifstate k bits) n = clearBits ifstate n := by
  induction n with
  | zero => rfl
  | succ n ih =>
    simp [clearBits, ih (by omega), Function.update_of_ne (show n ≠ k by omega)]

structure Counted (s : State M) : Prop where
  level : s.cppctx ≤ NR_COND - 1
  count : s.cppoff = clearBits s.ifstate s.cppctx

theorem Counted.nonneg {s : State M} (counted : Counted s) : 0 ≤ s.cppoff := by
  rw [counted.count]
  omega

def Line.Evaluable : Line M → Prop
  | .ifclause clause => ∀ m, clause.status m ≠ none
  | .elif constexpr => ∀ m, constexpr m ≠ none
  | _ => True

theorem ifclause_counted {s t : State M} {clause : Clause M} (counted : Counted s)
    (evaluable : ∀ m, clause.status m ≠ none) (done : ifclause clause s = .ok t) :
    Counted t := by
  obtain ⟨level, count⟩ := counted
  have opened : ∀ status, s.cppctx ≠ NR_COND - 1 →
      Counted (setState { s with cppctx := s.cppctx + 1 } s.cppctx status) := by
    intro status room
    refine ⟨by simp only [setState]; omega, ?_⟩
    cases status <;> simp [setState, clearBits, clearBits_update, count]
  unfold ifclause at done
  split at done
  · contradiction
  · rename_i room
    simp only at done
    split at done
    · cases done
      exact opened false room
    · split at done
      · exact absurd ‹_› (evaluable _)
      · cases done
        exact opened _ room

theorem elseclause_counted {s : State M} (counted : Counted s) (inside : s.cppctx ≠ 0) :
    Counted (elseclause s) := by
  obtain ⟨level, count⟩ := counted
  refine ⟨level, ?_⟩
  obtain ⟨n, ctx⟩ : ∃ n, s.cppctx = n + 1 := ⟨s.cppctx - 1, by omega⟩
  simp only [elseclause, ctx, Nat.add_sub_cancel, clearBits, clearBits_update _ _ (Nat.le_refl n),
    Function.update_self, count]
  cases (s.ifstate n).enabled with
  | true => simp
  | false =>
    simp only [Bool.not_false, Bool.false_eq_true, if_true, if_false]
    omega

theorem placed_inside {s : State M} (placed : ¬ misplaced s = true) : s.cppctx ≠ 0 := by
  intro outside
  simp [misplaced, outside] at placed

theorem elif_counted {s t : State M} {constexpr : M → Option Int} (counted : Counted s)
    (evaluable : ∀ m, constexpr m ≠ none) (done : elif constexpr s = .ok t) : Counted t := by
  unfold elif at done
  split at done
  · cases done
    exact ⟨counted.level, counted.count⟩
  · rename_i placed
    have inside := placed_inside placed
    obtain ⟨level, count⟩ := elseclause_counted counted inside
    simp only at done
    split at done
    · rename_i enabled
      refine ifclause_counted ⟨?_, ?_⟩ (fun m => ?_) done
      · simp only
        omega
      · obtain ⟨n, ctx⟩ : ∃ n, (elseclause s).cppctx = n + 1 :=
          ⟨s.cppctx - 1, by simp only [elseclause]; omega⟩
        simp only [ctx, Nat.add_sub_cancel] at enabled ⊢
        simpa only [ctx, clearBits, enabled, if_true, Nat.add_zero] using count
      · simpa only [Clause.status, ne_eq, Option.map_eq_none_iff] using evaluable m
    · cases done
      exact ⟨level, count⟩

theorem cppelse_counted {s : State M} (counted : Counted s) : Counted (cppelse s) := by
  unfold cppelse
  split
  · exact ⟨counted.level, counted.count⟩
  · rename_i placed
    have inside := placed_inside placed
    refine elseclause_counted ⟨counted.level, ?_⟩ inside
    obtain ⟨n, ctx⟩ : ∃ n, s.cppctx = n + 1 := ⟨s.cppctx - 1, by omega⟩
    simpa only [ctx, Nat.add_sub_cancel, clearBits, clearBits_update _ _ (Nat.le_refl n),
      Function.update_self] using counted.count

theorem endif_counted {s t : State M} (counted : Counted s) (done : endif s = .ok t) :
    Counted t := by
  unfold endif at done
  split at done
  · contradiction
  · rename_i inside
    cases done
    refine ⟨Nat.le_trans (Nat.sub_le _ _) counted.level, ?_⟩
    obtain ⟨n, ctx⟩ : ∃ n, s.cppctx = n + 1 := ⟨s.cppctx - 1, by omega⟩
    have count := counted.count
    simp only [ctx, clearBits, Nat.add_sub_cancel] at count ⊢
    cases enabled : (s.ifstate n).enabled <;> simp [enabled] at count ⊢ <;> omega

theorem cpp_counted {s t : State M} {line : Line M} {ds : List Bool} (counted : Counted s)
    (evaluable : line.Evaluable) (done : cpp s line = .ok (t, ds)) : Counted t := by
  cases line with
  | other act =>
    simp only [cpp] at done
    split at done <;> cases done
    · exact counted
    · exact ⟨counted.level, counted.count⟩
  | ifclause clause =>
    cases h : ifclause clause s <;> simp [cpp, h, Except.map] at done
    exact done.1 ▸ ifclause_counted counted evaluable h
  | elif constexpr =>
    cases h : elif constexpr s <;> simp [cpp, h, Except.map] at done
    exact done.1 ▸ elif_counted counted evaluable h
  | cppelse =>
    cases done
    exact cppelse_counted counted
  | endif =>
    cases h : endif s <;> simp [cpp, h, Except.map] at done
    exact done.1 ▸ endif_counted counted h

/-- `cppoff` counts the open levels whose bit is clear, after every sequence of lines. -/
theorem run_counted {s t : State M} {lines : List (Line M)} {ds : List Bool}
    (counted : Counted s) (evaluable : ∀ line ∈ lines, line.Evaluable)
    (done : run s lines = .ok (t, ds)) : Counted t := by
  induction lines generalizing s ds with
  | nil =>
    cases done
    exact counted
  | cons line rest ih =>
    obtain ⟨s₁, a, b, step, ran, -⟩ := run_cons_inv done
    exact ih (cpp_counted counted (evaluable line List.mem_cons_self) step)
      (fun line' member => evaluable line' (List.mem_cons_of_mem _ member)) ran

mutual
theorem Block.evaluable (b : Block M) : ∀ line ∈ b.lines, line.Evaluable := by
  intro line member
  cases b with
  | nil => contradiction
  | other act rest =>
    rcases List.mem_cons.mp member with rfl | member
    · trivial
    · exact rest.evaluable line member
  | chain opening body tail rest =>
    rcases List.mem_cons.mp member with rfl | member
    · cases opening <;> simp [Line.Evaluable, Opening.clause, Clause.status]
    · rcases List.mem_append.mp member with member | member
      · exact body.evaluable line member
      · rcases List.mem_append.mp member with member | member
        · exact tail.evaluable line member
        · exact rest.evaluable line member

theorem Tail.evaluable (t : Tail M) : ∀ line ∈ t.lines, line.Evaluable := by
  intro line member
  cases t with
  | endif =>
    rw [List.mem_singleton.mp member]
    trivial
  | elif constexpr body tail =>
    rcases List.mem_cons.mp member with rfl | member
    · simp [Line.Evaluable]
    · rcases List.mem_append.mp member with member | member
      · exact body.evaluable line member
      · exact tail.evaluable line member
  | cppelse body =>
    rcases List.mem_cons.mp member with rfl | member
    · trivial
    · rcases List.mem_append.mp member with member | member
      · exact body.evaluable line member
      · rw [List.mem_singleton.mp member]
        trivial
end

mutual
/-- A run that ends without a fatal error never exceeded the nesting limit. -/
theorem Block.room_of_run (b : Block M) {s t : State M} {ds : List Bool}
    (nonneg : 0 ≤ s.cppoff) (level : s.cppctx ≤ NR_COND - 1)
    (done : run s b.lines = .ok (t, ds)) : s.cppctx + b.depth ≤ NR_COND - 1 := by
  cases b with
  | nil => exact level
  | other act rest =>
    obtain ⟨s₁, a, b, step, ran, -⟩ := run_cons_inv done
    simp only [cpp] at step
    split at step <;> cases step
    · exact rest.room_of_run nonneg level ran
    · exact rest.room_of_run (s := { s with macros := act s.macros }) nonneg level ran
  | chain opening body tail rest =>
    obtain ⟨s₁, a, b, step, ran, -⟩ := run_cons_inv done
    have below : s.cppctx < NR_COND - 1 := by
      by_contra full
      simp [cpp, ifclause, show s.cppctx = NR_COND - 1 by omega, Except.map] at step
    obtain ⟨s₁', opened, inside, -, -⟩ := ifclause_step opening s nonneg below
    simp only [cpp, opened, Except.map, Except.ok.injEq, Prod.mk.injEq] at step
    obtain ⟨rfl, -⟩ := step
    obtain ⟨s₂, _, _, ran₂, ran, -⟩ := run_append_inv ran
    obtain ⟨s₃, _, _, ran₃, ran₄, -⟩ := run_append_inv ran
    have count := inside.count
    have nonneg₁ : 0 ≤ s₁'.cppoff := by split at count <;> omega
    have room := body.room_of_run nonneg₁ (by rw [inside.ctx]; omega) ran₂
    obtain ⟨s₂', again, -, ctx₂, count₂, below₂⟩ := body.run_lines s₁' nonneg₁ room
    obtain ⟨rfl, -⟩ := Prod.mk.inj (Except.ok.inj (ran₂.symm.trans again))
    have inside₂ := inside.unmoved ctx₂ count₂ below₂
    have skipped : s.cppoff ≠ 0 → reached s.cppoff (opening.holds s.macros) = false :=
      fun off => reached_off off _
    have room' := tail.room_of_run inside₂ skipped (by omega) ran₃
    obtain ⟨s₃', again, -, ctx₃, count₃, -⟩ := tail.run_lines inside₂ skipped room'
    obtain ⟨rfl, -⟩ := Prod.mk.inj (Except.ok.inj (ran₃.symm.trans again))
    have last := rest.room_of_run (by omega) (by omega) ran₄
    rw [inside.ctx] at room
    simp only [Block.depth]
    omega

theorem Tail.room_of_run (tl : Tail M) {s t : State M} {n : Nat} {off : Int} {enabled : Bool}
    {ds : List Bool} (inside : InChain s n off enabled false)
    (skipped : off ≠ 0 → enabled = false) (level : n < NR_COND - 1)
    (done : run s tl.lines = .ok (t, ds)) : n + 1 + tl.depth ≤ NR_COND - 1 := by
  cases tl with
  | endif => exact level
  | elif constexpr body tail =>
    obtain ⟨s₁, a, b, step, ran, -⟩ := run_cons_inv done
    obtain ⟨s₁', opened, inside₁, -, -⟩ := elif_step constexpr inside skipped level
    simp only [cpp, opened, Except.map, Except.ok.injEq, Prod.mk.injEq] at step
    obtain ⟨rfl, -⟩ := step
    obtain ⟨s₂, _, _, ran₂, ran₃, -⟩ := run_append_inv ran
    have count := inside₁.count
    have nonneg := inside.nonneg
    have nonneg₁ : 0 ≤ s₁'.cppoff := by split at count <;> omega
    have room := body.room_of_run nonneg₁ (by rw [inside₁.ctx]; omega) ran₂
    obtain ⟨s₂', again, -, ctx₂, count₂, below₂⟩ := body.run_lines s₁' nonneg₁ room
    obtain ⟨rfl, -⟩ := Prod.mk.inj (Except.ok.inj (ran₂.symm.trans again))
    have room' := tail.room_of_run (inside₁.unmoved ctx₂ count₂ below₂)
      (fun off => reached_off off _) level ran₃
    rw [inside₁.ctx] at room
    simp only [Tail.depth]
    omega
  | cppelse body =>
    obtain ⟨s₁, a, b, step, ran, -⟩ := run_cons_inv done
    obtain ⟨inside₁, -, -⟩ := cppelse_step inside
    obtain ⟨rfl, -⟩ := Prod.mk.inj (Except.ok.inj step)
    obtain ⟨s₂, _, _, ran₂, -, -⟩ := run_append_inv ran
    have count := inside₁.count
    have nonneg := inside.nonneg
    have nonneg₁ : 0 ≤ (cppelse s).cppoff := by split at count <;> omega
    have room := body.room_of_run nonneg₁ (by rw [inside₁.ctx]; omega) ran₂
    rw [inside₁.ctx] at room
    exact room
end

/-- The lines of one chain, from its opening directive to its `#endif`. -/
def chainLines (opening : Opening M) (body : Block M) (tail : Tail M) : List (Line M) :=
  (Block.chain opening body tail .nil).lines

/-- Wherever a chain stands in the lines of a block, its run restores both counters. -/
theorem chain_restores {m : M} {b : Block M} {t s₁ : State M} {ds ds₁ : List Bool}
    {before after : List (Line M)} {opening : Opening M} {body : Block M} {tail : Tail M}
    (done : run (State.init m) b.lines = .ok (t, ds))
    (lines : b.lines = before ++ (chainLines opening body tail ++ after))
    (ran : run (State.init m) before = .ok (s₁, ds₁)) :
    ∃ s₂ ds₂, run s₁ (chainLines opening body tail) = .ok (s₂, ds₂) ∧
      s₂.cppctx = s₁.cppctx ∧ s₂.cppoff = s₁.cppoff := by
  rw [lines] at done
  obtain ⟨s₁', _, _, ran', done, -⟩ := run_append_inv done
  obtain ⟨rfl, -⟩ := Prod.mk.inj (Except.ok.inj (ran'.symm.trans ran))
  obtain ⟨s₂, ds₂, _, chain, -, -⟩ := run_append_inv done
  have initial : Counted (State.init m) := ⟨Nat.zero_le _, rfl⟩
  have counted := run_counted initial
    (fun line member => b.evaluable line (lines ▸ List.mem_append_left _ member)) ran
  have room := (Block.chain opening body tail .nil).room_of_run counted.nonneg counted.level chain
  obtain ⟨s₂', again, -, ctx, count, -⟩ :=
    (Block.chain opening body tail .nil).run_lines s₁' counted.nonneg room
  exact ⟨s₂', _, again, ctx, count⟩

/-- A file made of the block acts upon exactly the lines C99 keeps, and each chain in it
gives the counters back as it found them. -/
def Selects (m : M) (b : Block M) : Prop :=
  ∃ t, run (State.init m) b.lines = .ok (t, (b.keep m).2) ∧
    ∀ before opening body tail after s₁ ds,
      b.lines = before ++ (chainLines opening body tail ++ after) →
      run (State.init m) before = .ok (s₁, ds) →
      ∃ s₂ ds₂, run s₁ (chainLines opening body tail) = .ok (s₂, ds₂) ∧
        s₂.cppctx = s₁.cppctx ∧ s₂.cppoff = s₁.cppoff

theorem selects_iff (m : M) (b : Block M) (room : b.depth ≤ NR_COND - 1) :
    Selects m b ↔ b.SelectsOnce m := by
  obtain ⟨t, done, -⟩ := b.run_lines (State.init m) (Int.le_refl 0) (by simpa [State.init] using room)
  have toggled : b.outcome (State.init m).cppoff (State.init m).macros = b.toggled m := rfl
  rw [toggled] at done
  constructor
  · rintro ⟨t', kept, -⟩
    have same := Except.ok.inj (done.symm.trans kept)
    exact b.selectsOnce_of_toggled (Prod.mk.inj same).2
  · intro once
    rw [b.toggled_selectsOnce once] at done
    exact ⟨t, done, fun _ _ _ _ _ _ _ lines ran => chain_restores done lines ran⟩

/-- `#if 1 … #elif 0 … #else … #endif`: the `#else` group is taken as well. -/
def reopened : Block Unit :=
  .chain (.cppif fun _ => 1) (.other id .nil)
    (.elif (fun _ => 0) (.other id .nil) (.cppelse (.other id .nil))) .nil

theorem reopened_not_selected : ¬ Selects () reopened := by
  rintro ⟨t, done, -⟩
  have acted : (run (State.init ()) reopened.lines).map Prod.snd = .ok [true, false, true] := by
    decide
  simp only [done, Except.map] at acted
  exact absurd (Except.ok.inj acted) (by decide)

theorem selects_one_chain :
    Block.depth (M := Unit) (.chain (.cppif fun _ => 1) (.other id .nil) (.cppelse (.other id .nil)) .nil)
      ≤ NR_COND - 1 ∧
    (Selects () (.chain (.cppif fun _ => 1) (.other id .nil) (.cppelse (.other id .nil)) .nil) ↔
      Block.SelectsOnce () (.chain (.cppif fun _ => 1) (.other id .nil) (.cppelse (.other id .nil)) .nil)) :=
  ⟨by decide, selects_iff () _ (by decide)⟩

end Scc.Cc1.Conditional
