import Scc.Libc.Stdio.Vfprintf

set_option linter.all false

/-! What `vfprintf` returns and what `%n` stores: how far the count is from the characters put. -/
namespace Scc.Libc.Stdio.Printf
open Transition

/-! ## What a step can do -/

/-- The characters for which the switch sets `inc`, or goes on with the directive. -/
def known (c : Int) : Bool :=
  c ∈ [32, 43, 35, 46, 42, 45, 48, 108, 104, 37, 99, 106, 116, 122, 117, 105, 100, 112, 120, 88, 111, 115] ∨ (49 ≤ c ∧ c ≤ 57)

/-- What the switch can do at a character. -/
inductive Effect (m : Machine) (d : Directive) (c : Int) : Machine.Step → Prop where
  | goes (fmt : List Int) (args : List Arg) (next : Directive) :
      known c → fmt.length ≤ m.fmt.length → Effect m d c (.more [] { m with fmt := fmt, args := args, control := .flags next })
  | puts (args : List Arg) (out : List Int) : known c → Effect m d c ({ m with args := args }.put out)
  | stores (args : List Arg) : c = 110 → Effect m d c ({ m with args := args }.skip [.store ((savecnt d.flags).value m.cnt)])
  | skips : ¬known c → c ≠ 110 → Effect m d c (m.skip [])
  | failed : Effect m d c (.done .failed)
  | undefined : Effect m d c (.done .undefined)

variable {o : Outside} {m next : Machine} {d e : Directive} {c : Int} {args : List Arg}

theorem decimal_length (fmt : List Int) (n : Int) : (decimal o fmt n).2.length ≤ fmt.length := by
  induction fmt generalizing n with
  | nil => exact Nat.le_refl 0
  | cons c fmt ih =>
    unfold decimal
    split
    · exact Nat.le_succ_of_le (ih _)
    · exact Nat.le_refl _

theorem goto_effect (is_known : known c) : Effect m d c (m.goto e) := .goes m.fmt m.args e is_known (Nat.le_refl _)

theorem string_effect (is_known : known c) (s : List Int) (len : Nat) : Effect m d c ({ m with args := args }.string o e s len) :=
  .puts args _ is_known

theorem wide_effect (is_known : known c) (ws : List Int) (len : Nat) : Effect m d c ({ m with args := args }.wide e ws len) := by
  unfold Machine.wide
  split
  · exact .failed
  · exact .puts args _ is_known

theorem numeric_effect (is_known : known c) : Effect m d c (m.numeric o e) := by
  unfold Machine.numeric
  split
  · split
    · exact .undefined
    · exact string_effect is_known _ _
  · exact .undefined

theorem width_effect (is_known : known c) {fmt : List Int} (short : (decimal o fmt 0).2.length ≤ m.fmt.length) :
    Effect m d c ({ m with fmt := fmt }.width o e) := .goes _ m.args _ is_known short

theorem precision_effect (is_known : known c) : Effect m d c (m.precision o e) := by
  unfold Machine.precision
  dsimp only
  split
  · split
    · rename_i rest star _ _ _ _
      have shorter : rest.length ≤ m.fmt.length := by
        rw [star]
        exact Nat.le_succ _
      exact .goes rest _ _ is_known shorter
    · exact .undefined
  · exact .goes _ m.args _ is_known (decimal_length _ _)

theorem character_effect (is_known : known c) : Effect m d c (m.character o e) := by
  unfold Machine.character
  split
  · split
    · exact wide_effect is_known _ _
    · exact string_effect is_known _ _
  · exact .undefined

theorem text_effect (is_known : known c) : Effect m d c (m.text o e) := by
  unfold Machine.text
  split
  · split
    · exact .undefined
    · exact string_effect is_known _ _
  · split
    · exact wide_effect is_known _ _
    · exact .undefined
  · exact .undefined

theorem switch_effect (o : Outside) (m : Machine) (d : Directive) (c : Int) : Effect m d c (m.switch o d c) := by
  unfold Machine.switch
  split
  · exact goto_effect rfl
  · exact goto_effect rfl
  · exact goto_effect rfl
  · exact precision_effect rfl
  · split
    · rename_i args _
      exact .goes m.fmt args _ rfl (Nat.le_refl _)
    · exact .undefined
  · exact width_effect rfl (decimal_length _ _)
  · exact goto_effect rfl
  · exact goto_effect rfl
  · exact goto_effect rfl
  · exact string_effect rfl _ _
  · exact character_effect rfl
  · exact goto_effect rfl
  · exact goto_effect rfl
  · exact goto_effect rfl
  · exact numeric_effect rfl
  · exact numeric_effect rfl
  · exact numeric_effect rfl
  · exact numeric_effect rfl
  · exact numeric_effect rfl
  · exact numeric_effect rfl
  · exact numeric_effect rfl
  · exact text_effect rfl
  · split
    · rename_i args _
      exact .stores args rfl
    · exact .undefined
  · split
    · rename_i digit
      have is_known : known c := decide_eq_true (.inr digit)
      apply width_effect is_known
      unfold decimal
      rw [if_pos (isdigit_digit (by omega))]
      exact decimal_length _ _
    · apply Effect.skips
      · simp only [imp_false] at *
        simp only [known, decide_eq_true_eq, List.mem_cons, List.not_mem_nil, or_false]
        omega
      · assumption

/-! ## The count -/

/-- The number of characters that are put. -/
def puts (es : List Output) : Nat := es.countP fun | .put _ => true | .store _ => false

/-- Each value that is stored is the number of characters put before it. -/
def Stored (es : List Output) : Prop := ∀ before (value : Int) behind, es = before ++ .store value :: behind → value = puts before

namespace Machine

/-- What the step counts again: `inc`, as an earlier conversion left it. -/
def stale (m : Machine) : Nat :=
  match m.control, m.fmt with
  | .flags _, c :: _ => if known c then 0 else m.inc
  | _, _ => 0

/-- Where the count is seen, and as what: at the end, and at `%n`. -/
def seen (m : Machine) : Option Counter :=
  match m.fmt, m.control with
  | [], _ => some (.signed 32)
  | c :: _, .flags d => if c = 110 then some (savecnt d.flags) else none
  | _, _ => none

end Machine

/-- What is counted again in so many steps. -/
def drift (o : Outside) : Nat → Machine → Nat
  | 0, _ => 0
  | n + 1, m =>
    match m.step o with
    | .done _ => 0
    | .more _ next => m.stale + drift o n next

/-- Where the count is seen, what was counted again comes to nothing in its type, and what was put is a value of it. -/
def Clean (o : Outside) (start : Machine) : Prop :=
  ∀ n es m c, Runs (Machine.step o) n start es m → m.seen = some c → puts es < c.limit ∧ c.modulus ∣ drift o n start

variable {es fs : List Output} {n : Nat} {counter : Counter}

theorem puts_append (es fs : List Output) : puts (es ++ fs) = puts es + puts fs := List.countP_append

theorem puts_map (out : List Int) : puts (out.map .put) = out.length := by
  induction out with
  | nil => rfl
  | cons ch out ih =>
    change puts ([.put ch] ++ out.map .put) = out.length + 1
    rw [puts_append, ih, Nat.add_comm]
    rfl

/-- What a step does to the count, to what is stored and to the format. -/
structure Stepped (m : Machine) (es : List Output) (next : Machine) : Prop where
  count : next.cnt = m.cnt + puts es + m.stale
  output : (m.seen = none ∧ ∃ out : List Int, es = out.map .put) ∨ ∃ counter, m.seen = some counter ∧ es = [.store (counter.value m.cnt)]
  shorter : next.fmt.length < m.fmt.length

theorem seen_known {fmt : List Int} {cnt inc : Nat} (is_known : known c) : Machine.seen ⟨c :: fmt, args, cnt, inc, .flags d⟩ = none := by
  have other : c ≠ 110 := by
    rintro rfl
    cases is_known
  exact if_neg other

theorem step_stepped (step : m.step o = .more es next) : Stepped m es next := by
  obtain ⟨fmt, args, cnt, inc, control⟩ := m
  match control, fmt with
  | .text, [] => cases step
  | .flags _, [] => cases step
  | .text, ch :: fmt =>
    unfold Machine.step at step
    dsimp only at step
    split at step
    · cases step
      exact ⟨rfl, .inl ⟨rfl, [ch], rfl⟩, Nat.lt_succ_self _⟩
    · cases step
      exact ⟨rfl, .inl ⟨rfl, [], rfl⟩, Nat.lt_succ_self _⟩
  | .flags d, c :: fmt =>
    have effect := switch_effect o ⟨fmt, args, cnt, inc, .flags d⟩ d c
    change Machine.switch o ⟨fmt, args, cnt, inc, .flags d⟩ d c = _ at step
    rw [step] at effect
    cases effect with
    | goes rest args' next is_known short =>
      have stale : Machine.stale ⟨c :: fmt, args, cnt, inc, .flags d⟩ = 0 := if_pos is_known
      refine ⟨?_, .inl ⟨seen_known is_known, [], rfl⟩, Nat.lt_succ_of_le short⟩
      rw [stale]
      rfl
    | puts args' out is_known =>
      have stale : Machine.stale ⟨c :: fmt, args, cnt, inc, .flags d⟩ = 0 := if_pos is_known
      refine ⟨?_, .inl ⟨seen_known is_known, out, rfl⟩, Nat.lt_succ_self _⟩
      rw [stale, puts_map]
      rfl
    | stores args' letter =>
      have stale : Machine.stale ⟨c :: fmt, args, cnt, inc, .flags d⟩ = inc := by
        rw [letter]
        rfl
      refine ⟨?_, .inr ⟨savecnt d.flags, if_pos letter, rfl⟩, Nat.lt_succ_self _⟩
      rw [stale]
      rfl
    | skips unknown other =>
      have stale : Machine.stale ⟨c :: fmt, args, cnt, inc, .flags d⟩ = inc := if_neg unknown
      refine ⟨?_, .inl ⟨if_neg other, [], rfl⟩, Nat.lt_succ_self _⟩
      rw [stale]
      rfl

/-- It stops with a count at the end of the format. -/
theorem step_returned {value : Int} (step : m.step o = .done (.returned value)) :
    m.seen = some (.signed 32) ∧ value = Counter.value (.signed 32) m.cnt := by
  obtain ⟨fmt, args, cnt, inc, control⟩ := m
  match control, fmt with
  | .text, [] =>
    cases step
    exact ⟨rfl, rfl⟩
  | .flags _, [] =>
    cases step
    exact ⟨rfl, rfl⟩
  | .text, ch :: fmt =>
    unfold Machine.step at step
    dsimp only at step
    split at step <;> cases step
  | .flags d, c :: fmt =>
    have effect := switch_effect o ⟨fmt, args, cnt, inc, .flags d⟩ d c
    change Machine.switch o ⟨fmt, args, cnt, inc, .flags d⟩ d c = _ at step
    rw [step] at effect
    cases effect

/-- The format is at its end sooner or later. -/
theorem vfprintf_ends (o : Outside) (m : Machine) : ∃ es r, Ends (Machine.step o) m es r := by
  generalize length : m.fmt.length = n
  induction n using Nat.strongRecOn generalizing m with
  | ind n ih =>
    match step : m.step o with
    | .done r => exact ⟨[], r, 0, m, .refl m, step⟩
    | .more es next =>
      obtain ⟨fs, r, k, last, run, done⟩ := ih _ (length ▸ (step_stepped step).shorter) next rfl
      exact ⟨es ++ fs, r, k + 1, last, .next step run, done⟩

/-- The count is the number of characters put and what was counted again. -/
theorem runs_count (run : Runs (Machine.step o) n m es next) : next.cnt = m.cnt + puts es + drift o n m := by
  induction run with
  | refl => rfl
  | @next m next last es fs n step rest ih =>
    have first := (step_stepped step).count
    have again : drift o (n + 1) m = m.stale + drift o n next := by
      rw [drift, step]
    rw [ih, puts_append, again]
    omega

/-! ## Where it is seen -/

structure Counter.Sane (counter : Counter) : Prop where
  positive : 0 < counter.modulus
  limit : counter.limit ≤ counter.modulus

/-- A counter shows the number exactly where the rest of the count is nothing to it and the number is one of its values. -/
theorem value_iff (sane : counter.Sane) (number rest : Nat) :
    counter.value (number + rest) = number ↔ number < counter.limit ∧ counter.modulus ∣ rest := by
  have limit := sane.limit
  constructor
  · intro shown
    have least := Nat.mod_lt (number + rest) sane.positive
    have parts := Nat.div_add_mod (number + rest) counter.modulus
    unfold Counter.value at shown
    split at shown
    · have same : (number + rest) % counter.modulus = number := Int.ofNat.inj shown
      rw [same] at parts
      exact ⟨by omega, _, Nat.add_left_cancel (parts.symm.trans (Nat.add_comm _ _))⟩
    · omega
  · rintro ⟨small, k, rfl⟩
    have same : (number + counter.modulus * k) % counter.modulus = number := by
      rw [Nat.add_mul_mod_self_left, Nat.mod_eq_of_lt (by omega)]
    unfold Counter.value
    rw [same, if_pos small]

theorem signed_sane (bits : Nat) : (Counter.signed bits).Sane :=
  ⟨Nat.two_pow_pos bits, Nat.pow_le_pow_right Nat.two_pos (Nat.sub_le bits 1)⟩

theorem savecnt_sane (flags : Nat) : (savecnt flags).Sane := by
  unfold savecnt
  split
  · exact signed_sane 8
  split
  · exact signed_sane 16
  split
  · exact signed_sane 64
  split
  · exact signed_sane 64
  split
  · exact ⟨Nat.two_pow_pos 64, Nat.le_refl _⟩
  split
  · exact signed_sane 64
  · exact signed_sane 32

theorem seen_sane (seen : m.seen = some counter) : counter.Sane := by
  unfold Machine.seen at seen
  split at seen
  · cases seen
    exact signed_sane 32
  · split at seen
    · cases seen
      exact savecnt_sane _
    · cases seen
  · cases seen

/-- A value is stored in a state that the run reaches, where the count is seen. -/
theorem stored_at (run : Runs (Machine.step o) n m es next) {before behind : List Output} {value : Int}
    (at_value : es = before ++ .store value :: behind) :
    ∃ k t counter, Runs (Machine.step o) k m before t ∧ t.seen = some counter ∧ value = counter.value t.cnt := by
  induction run generalizing before with
  | refl => cases before <;> cases at_value
  | @next m next last es fs n step rest ih =>
    rcases List.append_eq_append_iff.mp at_value with ⟨more, rfl, tail⟩ | ⟨more, rfl, tail⟩
    · obtain ⟨k, t, counter, run, seen⟩ := ih tail
      exact ⟨k + 1, t, counter, .next step run, seen⟩
    · cases more with
      | nil =>
        obtain ⟨k, t, counter, run, seen⟩ := ih (show fs = [] ++ .store value :: behind from tail.symm)
        refine ⟨k + 1, t, counter, ?_, seen⟩
        have joined := Runs.next step run
        rw [List.append_nil, List.append_nil] at joined
        exact joined
      | cons first more =>
        obtain ⟨rfl, -⟩ := List.cons.inj tail
        rcases (step_stepped step).output with ⟨-, out, puts⟩ | ⟨counter, seen, one⟩
        · have stored : Output.store value ∈ out.map Output.put := by
            rw [← puts]
            exact List.mem_append_right _ (List.mem_cons_self ..)
          obtain ⟨ch, -, same⟩ := List.mem_map.mp stored
          cases same
        · cases before with
          | nil =>
            cases one
            exact ⟨0, m, counter, .refl m, seen, rfl⟩
          | cons e before => cases before <;> cases one

/-- Where a run that returns a count passes a state at which the count is seen, the count of that state comes out. -/
theorem seen_out {value : Int} (ends : Ends (Machine.step o) m es (.returned value)) {before : List Output}
    (run : Runs (Machine.step o) n m before next) (seen : next.seen = some counter) :
    (before = es ∧ value = counter.value next.cnt) ∨ ∃ behind, es = before ++ .store (counter.value next.cnt) :: behind := by
  obtain ⟨k, last, whole, done⟩ := ends
  obtain ⟨j, fs, -, rfl, rest⟩ := whole.to_stop done run
  cases rest with
  | refl =>
    obtain ⟨last_seen, same⟩ := step_returned done
    cases last_seen.symm.trans seen
    exact .inl ⟨(List.append_nil _).symm, same⟩
  | next step rest =>
    rcases (step_stepped step).output with ⟨none, -⟩ | ⟨found, again, rfl⟩
    · cases none.symm.trans seen
    · cases again.symm.trans seen
      exact .inr ⟨_, rfl⟩

variable {fmt : List Int} {inc : Nat}

theorem vfprintf_count (run : Runs (Machine.step o) n (vfprintf fmt args inc) es next) :
    next.cnt = puts es + drift o n (vfprintf fmt args inc) := by
  rw [runs_count run]
  exact congrArg (· + _) (Nat.zero_add _)

/-- Where the count is seen, it is the number of the characters put. -/
theorem seen_iff (run : Runs (Machine.step o) n (vfprintf fmt args inc) es next) (seen : next.seen = some counter) :
    counter.value next.cnt = puts es ↔ puts es < counter.limit ∧ counter.modulus ∣ drift o n (vfprintf fmt args inc) := by
  rw [vfprintf_count run]
  exact value_iff (seen_sane seen) _ _

/-- The result alone. -/
theorem returned_iff (run : Runs (Machine.step o) n (vfprintf fmt args inc) es next) {value : Int}
    (done : next.step o = .done (.returned value)) :
    value = puts es ↔ puts es < 2 ^ 31 ∧ 2 ^ 32 ∣ drift o n (vfprintf fmt args inc) := by
  obtain ⟨seen, rfl⟩ := step_returned done
  exact seen_iff run seen

/-- What `vfprintf` returns and stores is the number of characters put, exactly where the steps that set no `inc` have
counted nothing again. -/
theorem counted_iff (o : Outside) (fmt : List Int) (args : List Arg) (inc : Nat) :
    ∃ es r, Ends (Machine.step o) (vfprintf fmt args inc) es r ∧
      ∀ value, r = .returned value → (value = puts es ∧ Stored es ↔ Clean o (vfprintf fmt args inc)) := by
  obtain ⟨es, r, ends⟩ := vfprintf_ends o (vfprintf fmt args inc)
  refine ⟨es, r, ends, ?_⟩
  rintro value rfl
  constructor
  · rintro ⟨right, stored⟩ n before next counter run seen
    apply (seen_iff run seen).mp
    rcases seen_out ends run seen with ⟨rfl, same⟩ | ⟨behind, at_value⟩
    · exact same.symm.trans right
    · exact stored before _ behind at_value
  · intro clean
    obtain ⟨n, last, run, done⟩ := ends
    constructor
    · exact (returned_iff run done).mpr (clean n es last _ run (step_returned done).1)
    · intro before value behind at_value
      obtain ⟨k, t, counter, part, seen, rfl⟩ := stored_at run at_value
      exact (seen_iff part seen).mpr (clean k before t counter part seen)

/-- `a%n`: the `a` is counted twice. -/
theorem counted_twice :
    ∃ es, Ends (Machine.step ⟨fun _ => false, fun _ => false, fun _ => false⟩) (vfprintf [97, 37, 110] [.count] 0) es (.returned 2) ∧
      puts es = 1 := by
  refine ⟨_, ⟨3, _, Runs.of_exec rfl, rfl⟩, rfl⟩

end Scc.Libc.Stdio.Printf
