import Scc.Cc1.Call
import Scc.Cc1.EqualityProofs

set_option linter.all false

/-! A call is checked as its function type says where the arguments do not outnumber the parameters
of a prototype without an ellipsis. -/
namespace Scc.Cc1.Call
open Equality

section
attribute [local simp] convert promote argumentLoop
end

variable {m : Memory}

/-! Conversions. -/

/-- A conversion there is yields the argument or its cast. -/
theorem convert_spec {np e : Exp} {newtp : Ty} {iscast : Bool}
    (there : convert m np newtp iscast = some (some e)) : Converted m newtp np e := by
  have cast : Converted m newtp np (.OCAST newtp np) := ⟨.inr rfl, eqtype_refl newtp⟩
  unfold convert at there
  split at there
  · cases there
  · cases there
    exact ⟨.inl rfl, ‹_›⟩
  · rw [Option.map_eq_some_iff] at there
    obtain ⟨good, -, there⟩ := there
    cases good with
    | true =>
      cases there
      exact cast
    | false => cases there

/-- An arithmetic type of the target can be compared with every type. -/
theorem eqtype_object {o : Object} (arith : o.basic.op = .INT ∨ o.basic.op = .FLOAT) (t : Ty) :
    ∃ answer, eqtype m false o.type t = some answer := by
  obtain ⟨addr, tp⟩ := t
  rw [Object.type, eqtype]
  split
  · exact ⟨_, rfl⟩
  · cases tp with
    | basic tp =>
      rw [eqshape]
      rcases arith with op | op <;> rw [op] <;> split <;> exact ⟨_, rfl⟩
    | _ => exact ⟨false, by simp [eqshape]⟩

/-- There is a conversion from every arithmetic type to every one of the target. -/
theorem convert_arith {o : Object} (arith : o.basic.op = .INT ∨ o.basic.op = .FLOAT) {np : Exp} {addr : Nat}
    {tp : Basic} (type : np.type = .mk addr (.basic tp)) (arith' : tp.op = .INT ∨ tp.op = .FLOAT) :
    ∃ e, convert m np o.type true = some (some e) := by
  obtain ⟨answer, same⟩ := eqtype_object (m := m) arith np.type
  have op : Ty.op o.type = .INT ∨ Ty.op o.type = .FLOAT := by
    rw [Object.type, Ty.op]
    exact arith.imp (fun op => by rw [op]) (fun op => by rw [op])
  have oldop : Ty.op np.type = .INT ∨ Ty.op np.type = .FLOAT := by
    rw [type, Ty.op]
    exact arith'.imp (fun op => by rw [op]) (fun op => by rw [op])
  cases answer with
  | true => exact ⟨np, by simp [convert, same]⟩
  | false =>
    have good : goodConv m np o.type true = some true := by
      rcases op with op | op <;> rcases oldop with oldop | oldop <;> simp [goodConv, op, oldop]
    exact ⟨.OCAST o.type np, by simp [convert, same, good]⟩

/-! The default promotions. -/

/-- `promote` compares the greatest values, which decides whether `int` has all of them. -/
theorem maxLimit_le {tp int : Basic} (signed : int.tsigned = true) :
    maxLimit tp ≤ maxLimit int ↔ ∀ v, Holds tp v → Holds int v := by
  unfold Holds
  rw [if_pos signed]
  constructor
  · intro le v range
    split at range <;> omega
  · intro all
    have greatest := all (maxLimit tp) (by split <;> omega)
    omega

theorem variadic_spec (arg : Exp) :
    ∃ e, variadic m arg = some e ∧ ∃ type, Promoted m arg.type type ∧ Converted m type arg e := by
  have same : (∀ addr tp, arg.type = .mk addr (.basic tp) → tp.op = .INT → m.inttype.basic.rank ≤ tp.rank) →
      (∀ addr tp, arg.type = .mk addr (.basic tp) → tp.op = .FLOAT → addr ≠ m.floattype.addr) →
      ∃ type, Promoted m arg.type type ∧ Converted m type arg arg := by
    intro wide double
    exact ⟨arg.type, .same arg.type wide double, .inl rfl, eqtype_refl _⟩
  unfold variadic
  cases shape : arg.type with
  | mk addr s =>
    rw [shape] at same
    cases s with
    | basic tp =>
      cases op : tp.op with
      | INT =>
        by_cases small : tp.rank ≥ m.inttype.basic.rank
        · refine ⟨arg, by simp [op, promote, shape, small], same ?_ ?_⟩
          · rintro _ _ ⟨⟩ _
            exact small
          · rintro _ _ ⟨⟩ op'
            cases op.symm.trans op'
        · by_cases fits : maxLimit tp ≤ maxLimit m.inttype.basic
          · obtain ⟨e, there⟩ := convert_arith (m := m) (.inl m.int.1) shape (.inl op)
            refine ⟨e, by simp [op, promote, shape, small, fits, there], m.inttype.type, ?_, convert_spec there⟩
            exact .int addr tp op (Nat.lt_of_not_le small) ((maxLimit_le m.int.2).mp fits)
          · obtain ⟨e, there⟩ := convert_arith (m := m) (.inl m.uint) shape (.inl op)
            refine ⟨e, by simp [op, promote, shape, small, fits, there], m.uinttype.type, ?_, convert_spec there⟩
            exact .uint addr tp op (Nat.lt_of_not_le small) (mt (maxLimit_le m.int.2).mpr fits)
      | FLOAT =>
        by_cases float : addr = m.floattype.addr
        · obtain ⟨e, there⟩ := convert_arith (m := m) (.inr m.double) shape (.inr op)
          refine ⟨e, by simp [op, float, there], m.doubletype.type, ?_, convert_spec there⟩
          subst float
          exact .double tp op
        · refine ⟨arg, by simp [op, float], same ?_ ?_⟩
          · rintro _ _ ⟨⟩ op'
            cases op.symm.trans op'
          · rintro _ _ ⟨⟩ _
            exact float
      | _ =>
        refine ⟨arg, by simp [op], same ?_ ?_⟩
        all_goals
          rintro _ _ ⟨⟩ op'
          cases op.symm.trans op'
    | _ =>
      refine ⟨arg, rfl, same ?_ ?_⟩
      all_goals
        rintro _ _ ⟨⟩

/-! The loop over the arguments. -/

/-- From the ellipsis on every argument gets the default promotions. -/
theorem argumentLoop_variadic (nelem : Int) {dots : Ty} (is : dots.addr = m.ellipsistype.addr) :
    ∀ (args : List Exp) (s : Progress), s.targs = [dots] →
      ∃ es, Passed m [] args es ∧
        argumentLoop m nelem args s = some { s with n := if args = [] then s.n else 0, par := chain s.par es }
  | [], s, _ => ⟨[], trivial, rfl⟩
  | arg :: args, s, here => by
    obtain ⟨e, there, promoted⟩ := variadic_spec (m := m) arg
    obtain ⟨es, passed, later⟩ := argumentLoop_variadic nelem is args
      { s with n := 0, par := .OPAR e.type s.par e } here
    refine ⟨e :: es, ⟨promoted, passed⟩, ?_⟩
    have step : argument m nelem arg s = some { s with n := 0, par := .OPAR e.type s.par e } := by
      simp [argument, here, is, there]
    rw [argumentLoop, step, Option.bind_eq_bind, Option.bind_some, later]
    simp [chain]

/-- One argument for a parameter. -/
theorem argument_named (nelem : Int) (arg : Exp) (k : Nat) {s : Progress} {par : Ty} {rest : List Ty}
    (here : s.targs = par :: rest) (plain : par.addr ≠ m.ellipsistype.addr) (left : s.n = k + 1) :
    argument m nelem arg s = (convert m arg par false).map fun
      | some e => { s with targs := rest, n := k, par := .OPAR e.type s.par e }
      | none => { s with targs := rest, n := k, errors := s.errors ++ [incompatible (nelem - k)] } := by
  have next : s.n - 1 = k := by omega
  have enough : ¬(k : Int) < 0 := by omega
  simp only [argument, here, plain, next, enough, if_false]
  cases convert m arg par false with
  | none => rfl
  | some e => cases e <;> rfl

/-- How the loop over the arguments ends for parameters that are left. -/
structure Ended (named : List Ty) (args : List Exp) (s s' : Progress) : Prop where
  errors : s'.errors = [] ↔
    s.errors = [] ∧ ∀ p ∈ named.zip args, ∃ e, convert m p.2 p.1 false = some (some e)
  passed : s'.errors = [] → ∃ es, Passed m named args es ∧ s'.par = chain s.par es
  few : args.length < named.length → s'.n > 0 ∧ ∃ t rest, s'.targs = t :: rest ∧ t.addr ≠ m.ellipsistype.addr
  many : named.length ≤ args.length → s'.n > 0 → ∃ t rest, s'.targs = t :: rest ∧ t.addr = m.ellipsistype.addr

/-- The parameters and what may follow them; the counter says how many there are. -/
structure Left (named dots : List Ty) (s : Progress) : Prop where
  targs : s.targs = named ++ dots
  n : s.n = named.length + dots.length
  plain : ∀ type ∈ named, type.addr ≠ m.ellipsistype.addr
  dots : dots = [] ∨ dots = [m.ellipsistype.type]

theorem Left.next {par : Ty} {named dots : List Ty} {s : Progress} (left : Left (m := m) (par :: named) dots s)
    (left_ : Progress) (targs : left_.targs = named ++ dots) (n : left_.n = named.length + dots.length) :
    Left (m := m) named dots left_ :=
  ⟨targs, n, fun type mem => left.plain type (List.mem_cons_of_mem _ mem), left.dots⟩

theorem argumentLoop_ended (nelem : Int) {dots : List Ty} : ∀ (named : List Ty) (args : List Exp) (s : Progress),
    Left (m := m) named dots s → (dots ≠ [] ∨ args.length ≤ named.length) →
    (∀ p ∈ named.zip args, convert m p.2 p.1 false ≠ none) →
    ∃ s', argumentLoop m nelem args s = some s' ∧ Ended (m := m) named args s s'
  | named, [], s, left, _, _ => by
    refine ⟨s, rfl, ?_, ?_, ?_, ?_⟩
    · simp
    · intro _
      refine ⟨[], ?_, rfl⟩
      cases named <;> exact trivial
    · intro some_
      cases named with
      | nil => cases some_
      | cons par named =>
        refine ⟨?_, par, named ++ dots, left.targs, left.plain par List.mem_cons_self⟩
        rw [left.n, List.length_cons]
        omega
    · intro none_ positive
      have empty : named = [] := List.length_eq_zero_iff.mp (Nat.le_zero.mp none_)
      subst empty
      rcases left.dots with none_ | one
      · rw [left.n, none_] at positive
        exact absurd positive (by decide)
      · exact ⟨m.ellipsistype.type, [], by rw [left.targs, one]; rfl, rfl⟩
  | [], arg :: args, s, left, room, _ => by
    have one : dots = [m.ellipsistype.type] := by
      apply left.dots.resolve_left
      exact room.resolve_right (by simp)
    have here : s.targs = [m.ellipsistype.type] := by
      rw [left.targs, one]
      rfl
    obtain ⟨es, passed, ran⟩ := argumentLoop_variadic nelem rfl (arg :: args) s here
    refine ⟨_, ran, ?_, ?_, ?_, ?_⟩
    · simp
    · exact fun _ => ⟨es, passed, rfl⟩
    · exact fun few => absurd few (Nat.not_lt_zero _)
    · exact fun _ _ => ⟨m.ellipsistype.type, [], here, rfl⟩
  | par :: named, arg :: args, s, left, room, defined => by
    have step := argument_named nelem arg (named.length + dots.length) left.targs
      (left.plain par List.mem_cons_self) (by rw [left.n, List.length_cons]; omega)
    have defined' : ∀ p ∈ named.zip args, convert m p.2 p.1 false ≠ none :=
      fun p mem => defined p (List.mem_cons_of_mem _ mem)
    have room' : dots ≠ [] ∨ args.length ≤ named.length := room.imp_right Nat.le_of_succ_le_succ
    obtain ⟨converted, there⟩ := Option.ne_none_iff_exists'.mp (defined (par, arg) List.mem_cons_self)
    change convert m arg par false = some converted at there
    rw [there, Option.map_some] at step
    cases converted with
    | some e =>
      obtain ⟨s', ran, ended⟩ := argumentLoop_ended nelem named args
        { s with targs := named ++ dots, n := (named.length + dots.length : Nat), par := .OPAR e.type s.par e }
        (left.next _ rfl (Int.natCast_add _ _)) room' defined'
      refine ⟨s', by rw [argumentLoop, step]; exact ran, ?_, ?_, ?_, ?_⟩
      · rw [ended.errors]
        simp [there]
      · intro none_
        obtain ⟨es, passed, par_⟩ := ended.passed none_
        exact ⟨e :: es, ⟨convert_spec there, passed⟩, par_⟩
      · exact fun few => ended.few (Nat.lt_of_succ_lt_succ few)
      · exact fun many => ended.many (Nat.le_of_succ_le_succ many)
    | none =>
      -- An error has been reported, and the loop goes on with the next parameter.
      obtain ⟨s', ran, ended⟩ := argumentLoop_ended nelem named args
        { s with
          targs := named ++ dots
          n := (named.length + dots.length : Nat)
          errors := s.errors ++ [incompatible (nelem - (named.length + dots.length : Nat))] }
        (left.next _ rfl (Int.natCast_add _ _)) room' defined'
      have reported : s'.errors ≠ [] := by
        rw [ne_eq, ended.errors]
        simp
      refine ⟨s', by rw [argumentLoop, step]; exact ran, ?_, ?_, ?_, ?_⟩
      · refine ⟨fun none_ => (reported none_).elim, fun all => ?_⟩
        obtain ⟨e, there'⟩ := all.2 (par, arg) List.mem_cons_self
        cases there.symm.trans there'
      · exact fun none_ => (reported none_).elim
      · exact fun few => ended.few (Nat.lt_of_succ_lt_succ few)
      · exact fun many => ended.many (Nat.le_of_succ_le_succ many)

/-- A loop that comes to its end has read parameters only. -/
theorem argumentLoop_within (nelem : Int) {dots : List Ty} : ∀ (named : List Ty) (args : List Exp) (s : Progress),
    Left (m := m) named dots s → argumentLoop m nelem args s ≠ none →
    (dots ≠ [] ∨ args.length ≤ named.length) ∧ ∀ p ∈ named.zip args, convert m p.2 p.1 false ≠ none
  | named, [], _, _, _ => by simp
  | [], arg :: args, s, left, ran => by
    refine ⟨.inl fun none_ => ran ?_, by simp⟩
    have behind : s.targs = [] := by
      rw [left.targs, none_]
      rfl
    simp [argumentLoop, argument, behind]
  | par :: named, arg :: args, s, left, ran => by
    have step := argument_named nelem arg (named.length + dots.length) left.targs
      (left.plain par List.mem_cons_self) (by rw [left.n, List.length_cons]; omega)
    rw [argumentLoop, step] at ran
    have there : convert m arg par false ≠ none := by
      intro undefined
      rw [undefined] at ran
      exact ran rfl
    obtain ⟨converted, same⟩ := Option.ne_none_iff_exists'.mp there
    rw [same, Option.map_some, Option.bind_eq_bind, Option.bind_some] at ran
    have rest : (dots ≠ [] ∨ args.length ≤ named.length) ∧
        ∀ p ∈ named.zip args, convert m p.2 p.1 false ≠ none := by
      cases converted with
      | some e => exact argumentLoop_within nelem named args _ (left.next _ rfl (Int.natCast_add _ _)) ran
      | none => exact argumentLoop_within nelem named args _ (left.next _ rfl (Int.natCast_add _ _)) ran
    refine ⟨rest.1.imp_right Nat.succ_le_succ, ?_⟩
    intro p mem
    rcases List.mem_cons.mp mem with rfl | mem
    · exact there
    · exact rest.2 p mem

/-! The whole call. -/

section
variable (fn : Signature m)

theorem toList_ofList (pars : List Ty) : Pars.toList (Pars.ofList pars) = pars := by
  induction pars with
  | nil => rfl
  | cons par rest ih => rw [Pars.ofList, Pars.toList, ih]

/-- Where the loop starts. -/
def Signature.start : Progress := ⟨fn.named ++ fn.dots, (fn.named ++ fn.dots).length, false, .nil, []⟩

theorem Signature.left : Left (m := m) fn.named fn.dots fn.start := by
  refine ⟨rfl, ?_, fn.plain, ?_⟩
  · rw [Signature.start, List.length_append, Int.natCast_add]
  · unfold Signature.dots
    split
    · exact .inr rfl
    · exact .inl rfl

theorem Signature.dots_ne_nil : fn.dots ≠ [] ↔ fn.ellipsis = true := by
  unfold Signature.dots
  split <;> simp_all

theorem Signature.tellipsis : tellipsis m fn.kr (fn.named ++ fn.dots) = (!fn.kr && fn.ellipsis) := by
  unfold Call.tellipsis Signature.dots
  congr 1
  cases dots : fn.ellipsis with
  | true => simp [Object.type, Ty.addr]
  | false =>
    rw [if_neg Bool.false_ne_true, List.append_nil]
    cases last : fn.named.getLast? with
    | none => rfl
    | some par =>
      have mem : par ∈ fn.named := List.mem_of_getLast? last
      simpa using fn.plain par mem

theorem callee_type {np : Exp} (function : fn.Callee np.type) : ∃ addr, (callee np).type = .mk addr fn.shape := by
  unfold callee
  cases type : np.type with
  | mk addr s =>
    rw [type] at function
    rcases function with shape | ⟨⟨addr', s'⟩, shape, inner⟩
    · cases shape
      exact ⟨addr, type⟩
    · cases shape
      cases inner
      exact ⟨addr', rfl⟩

theorem arguments_eq {np : Exp} (function : fn.Callee np.type) (args : List Exp) :
    arguments m np args = finish m (callee np) fn.rettype (!fn.kr && fn.ellipsis) args fn.start := by
  obtain ⟨addr, type⟩ := callee_type fn function
  unfold arguments
  simp only [type, Signature.shape, toList_ofList, fn.tellipsis]
  rfl

/-- The test for too few arguments counts them. -/
theorem toofew_eq {args : List Exp} {s s' : Progress} (ended : Ended (m := m) fn.named args s s') :
    toofew m s' = some (decide (args.length < fn.named.length)) := by
  unfold toofew
  by_cases few : args.length < fn.named.length
  · obtain ⟨positive, t, rest, targs, plain⟩ := ended.few few
    simp [few, positive, targs, plain]
  · by_cases positive : s'.n > 0
    · obtain ⟨t, rest, targs, dots⟩ := ended.many (Nat.le_of_not_lt few) positive
      simp [few, positive, targs, dots]
    · simp [few, positive]

/-- A call is checked by the law exactly where the arguments do not outnumber the parameters that
there are, and the types of each argument and its parameter can be compared. -/
theorem arguments_checked (np : Exp) (args : List Exp) (function : fn.Callee np.type) :
    (∃ call, arguments m np args = some call ∧ Checked fn args call) ↔
      (fn.ellipsis = true ∨ args.length ≤ fn.named.length) ∧
        ∀ p ∈ fn.named.zip args, convert m p.2 p.1 false ≠ none := by
  rw [arguments_eq fn function args, finish]
  constructor
  · rintro ⟨call, ran, -⟩
    have inside : argumentLoop m fn.start.n args fn.start ≠ none := by
      intro outside
      rw [outside] at ran
      cases ran
    have within_ := argumentLoop_within _ fn.named args fn.start fn.left inside
    rwa [fn.dots_ne_nil] at within_
  · rintro ⟨room, defined⟩
    rw [← fn.dots_ne_nil] at room
    obtain ⟨s', ran, ended⟩ := argumentLoop_ended fn.start.n fn.named args fn.start fn.left room defined
    refine ⟨_, by rw [ran, Option.bind_eq_bind, Option.bind_some, toofew_eq fn ended]; rfl, ?_⟩
    have counted : fn.Counted args ↔ fn.named.length ≤ args.length := by
      unfold Signature.Counted
      split
      · rfl
      · rename_i exact_
        have bound := room.resolve_left (mt fn.dots_ne_nil.mp exact_)
        omega
    by_cases few : args.length < fn.named.length
    · have refused : ¬fn.Counted args := by rw [counted]; omega
      refine ⟨?_, ?_, rfl, rfl⟩
      · simp [few, refused]
      · simp [few]
    · refine ⟨?_, ?_, rfl, rfl⟩
      · simp only [few, decide_false, Bool.false_eq_true, if_false, counted.mpr (Nat.le_of_not_lt few), true_and]
        rw [ended.errors]
        simp [Signature.start]
      · intro none_
        apply ended.passed
        simpa [few] using none_

end

/-- `int f(int)` -/
def oneint : Signature functions where
  rettype := inttype.type
  kr := false
  named := [inttype.type]
  ellipsis := false
  plain := by
    intro type mem
    obtain rfl := List.mem_singleton.mp mem
    decide
  old := fun kr => by cases kr

def f : Exp := .tree 0 (.mk 3 oneint.shape) false

theorem f_callee : oneint.Callee f.type := .inl rfl

theorem arguments_checked_one :
    ∃ call, arguments functions f [.tree 1 inttype.type false] = some call ∧
      Checked oneint [.tree 1 inttype.type false] call := by
  apply (arguments_checked oneint f _ f_callee).mpr
  refine ⟨.inr (Nat.le_refl 1), ?_⟩
  intro p mem
  obtain rfl := List.mem_singleton.mp mem
  decide

/-- In `f(1, 2)` the second argument makes the loop read behind the only parameter. -/
theorem arguments_outside : ¬∃ call,
    arguments functions f [.tree 1 inttype.type false, .tree 2 inttype.type false] = some call ∧
      Checked oneint [.tree 1 inttype.type false, .tree 2 inttype.type false] call := by
  rintro ⟨call, ran, -⟩
  cases ran

end Scc.Cc1.Call
