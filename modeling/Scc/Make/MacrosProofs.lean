import Scc.Make.Macros
import Scc.Transition.Acyclic

set_option linter.all false

/-! Which lines are expanded once, and which expansions end. -/
namespace Scc.Make
open Transition

section
attribute [local simp] expandstring expansion
end

variable {table : Macros} {tp : Option Tp} {s : Text} {input : Input} {n : Nat} {e : Expanded}

/-! ## One step -/

theorem expandstring_char {c : Char} {out : Bool} (plain : c ≠ '$') :
    expandstring table (n + 1) tp ((c, out) :: input) = (expandstring table n tp input).map (.prepend [c]) := by
  rw [expandstring, if_pos plain]

theorem expandstring_dollar {out out' : Bool} :
    expandstring table (n + 1) tp (('$', out) :: ('$', out') :: input) =
      (expandstring table n tp input).map fun e => (e.prepend ['$']).take out := by
  rw [expandstring, if_neg (fun plain => plain rfl)]
  rfl

section
variable {out : Bool} (single : (input.map Prod.fst).head? ≠ some '$')
include single

theorem expandstring_invalid {msg : String} (read : expansion (input.map Prod.fst) = .error msg) :
    expandstring table (n + 1) tp (('$', out) :: input) = some ⟨.error msg, out⟩ := by
  rw [List.head?_map] at single
  rw [expandstring, if_neg (fun plain => plain rfl), if_neg single, read]

theorem expandstring_internal {i : Char} {k : Nat} (read : expansion (input.map Prod.fst) = .ok (.internal i, k)) :
    expandstring table (n + 1) tp (('$', out) :: input) =
      (expandstring table n tp (push (expandsimple tp i) (input.drop k))).map (.take out) := by
  rw [List.head?_map] at single
  rw [expandstring, if_neg (fun plain => plain rfl), if_neg single, read]

theorem expandstring_value {name repl to_ : Text} {k : Nat}
    (read : expansion (input.map Prod.fst) = .ok (.macro_ name repl to_, k)) :
    expandstring table (n + 1) tp (('$', out) :: input) =
      (expandstring table n none (.line ( getmacro table name))).bind fun value =>
        match value.text with
        | .error msg => some ⟨.error msg, out || value.taken⟩
        | .ok s =>
          (expandstring table n tp (push (replace repl to_ 0 s) (input.drop k))).map (.take (out || value.taken)) := by
  rw [List.head?_map] at single
  rw [expandstring, if_neg (fun plain => plain rfl), if_neg single, read]
  change Option.bind _ _ = _
  refine congrArg (Option.bind _) (funext fun value => ?_)
  cases value.text with
  | error msg => rfl
  | ok s => exact Option.map_eq_bind.symm

end

/-- What becomes of a `$`. -/
inductive Dollar (table : Macros) (n : Nat) (tp : Option Tp) (out : Bool) (input : Input) : Expanded → Prop where
  | dollar {out' : Bool} {input' : Input} {e : Expanded} (double : input = ('$', out') :: input')
      (rest : expandstring table n tp input' = some e) : Dollar table n tp out input ((e.prepend ['$']).take out)
  | invalid {msg : String} (single : (input.map Prod.fst).head? ≠ some '$')
      (read : expansion (input.map Prod.fst) = .error msg) : Dollar table n tp out input ⟨.error msg, out⟩
  | internal {i : Char} {k : Nat} {e : Expanded} (single : (input.map Prod.fst).head? ≠ some '$')
      (read : expansion (input.map Prod.fst) = .ok (.internal i, k))
      (rest : expandstring table n tp (push (expandsimple tp i) (input.drop k)) = some e) :
      Dollar table n tp out input (e.take out)
  | failed {name repl to_ : Text} {k : Nat} {msg : String} {taken : Bool} (single : (input.map Prod.fst).head? ≠ some '$')
      (read : expansion (input.map Prod.fst) = .ok (.macro_ name repl to_, k))
      (value : expandstring table n none (.line ( getmacro table name)) = some ⟨.error msg, taken⟩) :
      Dollar table n tp out input ⟨.error msg, out || taken⟩
  | macro_ {name repl to_ v : Text} {k : Nat} {taken : Bool} {e : Expanded} (single : (input.map Prod.fst).head? ≠ some '$')
      (read : expansion (input.map Prod.fst) = .ok (.macro_ name repl to_, k))
      (value : expandstring table n none (.line ( getmacro table name)) = some ⟨.ok v, taken⟩)
      (rest : expandstring table n tp (push (replace repl to_ 0 v) (input.drop k)) = some e) :
      Dollar table n tp out input (e.take (out || taken))

theorem dollar_iff {out : Bool} :
    expandstring table (n + 1) tp (('$', out) :: input) = some e ↔ Dollar table n tp out input e := by
  constructor
  · intro ends
    by_cases double : (input.map Prod.fst).head? = some '$'
    · match input, double with
      | (_, out') :: input, double =>
        obtain rfl := Option.some.inj double
        rw [expandstring_dollar] at ends
        obtain ⟨e', rest, rfl⟩ := Option.map_eq_some_iff.mp ends
        exact .dollar rfl rest
    · cases read : expansion (input.map Prod.fst) with
      | error msg =>
        cases (expandstring_invalid double read).symm.trans ends
        exact .invalid double read
      | ok p =>
        obtain ⟨_ | ⟨name, repl, to_⟩, k⟩ := p
        · rw [expandstring_internal double read] at ends
          obtain ⟨e', rest, rfl⟩ := Option.map_eq_some_iff.mp ends
          exact .internal double read rest
        · rw [expandstring_value double read] at ends
          obtain ⟨⟨_ | v, taken⟩, value, ends⟩ := Option.bind_eq_some_iff.mp ends
          · cases ends
            exact .failed double read value
          · obtain ⟨e', rest, rfl⟩ := Option.map_eq_some_iff.mp ends
            exact .macro_ double read value rest
  · intro step
    cases step with
    | dollar double rest => rw [double, expandstring_dollar, rest, Option.map_some]
    | invalid single read => exact expandstring_invalid single read
    | internal single read rest => rw [expandstring_internal single read, rest, Option.map_some]
    | failed single read value => rw [expandstring_value single read, value, Option.bind_some]
    | macro_ single read value rest => 
      rw [expandstring_value single read, value, Option.bind_some]
      exact Option.map_eq_some_iff.mpr ⟨_, rest, rfl⟩

/-! ## More steps -/

theorem expandstring_mono {m : Nat} (ends : expandstring table n tp input = some e) (more : n ≤ m) :
    expandstring table m tp input = some e := by
  induction n generalizing m tp input e with
  | zero => cases ends
  | succ n ih =>
    obtain ⟨m, rfl⟩ : ∃ k, m = k + 1 := ⟨m - 1, by omega⟩
    have later : n ≤ m := by omega
    match input with
    | [] => exact ends
    | (c, out) :: input =>
      by_cases special : c = '$'
      · subst special
        apply dollar_iff.mpr
        cases dollar_iff.mp ends with
        | dollar double rest => exact .dollar double (ih rest later)
        | invalid single read => exact .invalid single read
        | internal single read rest => exact .internal single read (ih rest later)
        | failed single read value => exact .failed single read (ih value later)
        | macro_ single read value rest => exact .macro_ single read (ih value later) (ih rest later)
      · rw [expandstring_char special] at ends ⊢
        obtain ⟨e', rest, same⟩ := Option.map_eq_some_iff.mp ends
        rw [ih rest later]
        exact congrArg some same

theorem line_fst (s : Text) : (Input.line s).map Prod.fst = s := by
  simp [Input.line, Function.comp_def]

theorem line_drop (s : Text) (k : Nat) : (Input.line s).drop k = Input.line (s.drop k) := by
  simp [Input.line, List.map_drop]

/-- A text without a `$` that takes the place of a reference is read as it is. -/
theorem push_run {m : Text} (free : '$' ∉ m) (ends : expandstring table n tp input = some e) :
    expandstring table (n + m.length) tp (push m input) = some (e.prepend m) := by
  induction m with
  | nil =>
    obtain ⟨text, taken⟩ := e
    cases text <;> exact ends
  | cons c m ih =>
    have plain : c ≠ '$' := fun same => free (same ▸ List.mem_cons_self)
    have rest := ih fun mem => free (List.mem_cons_of_mem c mem)
    change expandstring table (n + m.length + 1) tp ((c, true) :: push m input) = _
    rw [expandstring_char plain, rest]
    obtain ⟨text, taken⟩ := e
    cases text <;> rfl

/-- Where no `$` of a text that is pushed is taken, it has none, and what is behind it is read as if it were
alone. -/
theorem push_free {m : Text} (ends : expandstring table n tp (push m input) = some e) (kept : e.taken = false) :
    '$' ∉ m ∧ ∃ k e', k ≤ n ∧ expandstring table k tp input = some e' ∧ e'.taken = false ∧ e = e'.prepend m := by
  induction m generalizing n e with
  | nil =>
    refine ⟨List.not_mem_nil, n, e, Nat.le_refl n, ends, kept, ?_⟩
    obtain ⟨text, taken⟩ := e
    cases text <;> rfl
  | cons c m ih =>
    cases n with
    | zero => cases ends
    | succ n =>
      change expandstring table (n + 1) tp ((c, true) :: push m input) = some e at ends
      by_cases special : c = '$'
      · subst special
        have taken : e.taken = true := by
          cases dollar_iff.mp ends <;> rfl
        cases kept.symm.trans taken
      · rw [expandstring_char special] at ends
        obtain ⟨e', rest, rfl⟩ := Option.map_eq_some_iff.mp ends
        obtain ⟨free, k, e'', le, run, kept', rfl⟩ := ih rest kept
        refine ⟨?_, k, e'', by omega, run, kept', ?_⟩
        · intro mem
          rcases List.mem_cons.mp mem with same | mem
          · exact special same.symm
          · exact free mem
        · obtain ⟨text, taken⟩ := e''
          cases text <;> rfl

/-! ## The expansion of a line -/

theorem line_dollar : expandstring table (n + 1) tp (.line ('$' :: s)) = some e ↔ Dollar table n tp false (.line s) e :=
  dollar_iff

theorem line_char {c : Char} (plain : c ≠ '$') :
    expandstring table (n + 1) tp (.line (c :: s)) = (expandstring table n tp (.line s)).map (.prepend [c]) :=
  expandstring_char plain

theorem free_run {r : Except String Text} (free : Free table tp s r) :
    ∃ n, expandstring table n tp (.line s) = some ⟨r, false⟩ := by
  induction free with
  | nil => exact ⟨1, rfl⟩
  | char plain _ ih =>
    obtain ⟨n, rest⟩ := ih
    refine ⟨n + 1, ?_⟩
    rw [line_char plain, rest]
    rfl
  | dollar _ ih =>
    obtain ⟨n, rest⟩ := ih
    exact ⟨n + 1, line_dollar.mpr (.dollar rfl rest)⟩
  | invalid single read =>
    refine ⟨1, line_dollar.mpr (.invalid ?_ ?_)⟩
    · rwa [line_fst]
    · rwa [line_fst]
  | @internal tp s c k r single read free _ ih =>
    obtain ⟨n, rest⟩ := ih
    rw [← line_fst s] at single read
    rw [← line_drop] at rest
    exact ⟨_, line_dollar.mpr (.internal single read (push_run free rest))⟩
  | @failed tp s name repl to_ k msg single read _ ih =>
    obtain ⟨n, value⟩ := ih
    rw [← line_fst s] at single read
    exact ⟨n + 1, line_dollar.mpr (.failed single read value)⟩
  | @macro_ tp s name repl to_ v k r single read _ free _ ihv ih =>
    obtain ⟨m, value⟩ := ihv
    obtain ⟨n, rest⟩ := ih
    rw [← line_fst s] at single read
    rw [← line_drop] at rest
    have later := expandstring_mono (push_run free rest) (Nat.le_add_left _ m)
    exact ⟨_, line_dollar.mpr (.macro_ single read (expandstring_mono value (Nat.le_add_right m _)) later)⟩

/-- A run in which no `$` of an expansion is taken is one of a text whose references stand for texts without
one. -/
theorem run_free (ends : expandstring table n tp (.line s) = some e) (kept : e.taken = false) :
    Free table tp s e.text := by
  induction n using Nat.strongRecOn generalizing tp s e with
  | _ n ih =>
    cases n with
    | zero => cases ends
    | succ n =>
      cases s with
      | nil =>
        cases ends
        exact .nil
      | cons c s =>
        by_cases special : c = '$'
        · subst special
          cases line_dollar.mp ends with
          | dollar double rest =>
            match s, double with
            | c :: s, double =>
              obtain ⟨first, rfl⟩ := List.cons.inj double
              obtain rfl := (Prod.mk.inj first).1
              exact .dollar (ih n (by omega) rest kept)
          | invalid single read =>
            rw [line_fst] at single read
            exact .invalid single read
          | internal single read rest =>
            rw [line_fst] at single read
            rw [line_drop] at rest
            obtain ⟨free, k, e', le, run, kept', rfl⟩ := push_free rest kept
            exact .internal single read free (ih k (by omega) run kept')
          | failed single read value =>
            rw [line_fst] at single read
            exact .failed single read (ih n (by omega) value kept)
          | macro_ single read value rest =>
            rw [line_fst] at single read
            rw [line_drop] at rest
            simp only [Expanded.take, Bool.or_eq_false_iff] at kept
            obtain ⟨free, k, e', le, run, kept', rfl⟩ := push_free rest kept.2
            exact .macro_ single read (ih n (by omega) value kept.1.2) free (ih k (by omega) run kept')
        · rw [line_char special] at ends
          obtain ⟨e', rest, rfl⟩ := Option.map_eq_some_iff.mp ends
          exact .char special (ih n (by omega) rest kept)

/-- What a text stands for without a `$` from a reference, it stands for. -/
theorem Free.stands {r : Except String Text} (free : Free table tp s r) : Stands table tp s r := by
  induction free with
  | nil => exact .nil
  | char plain _ ih => exact .char plain ih
  | dollar _ ih => exact .dollar ih
  | invalid single read => exact .invalid single read
  | internal single read _ _ ih => exact .internal single read trivial ih
  | failed single read _ ih => exact .failed single read ih
  | macro_ single read _ _ _ ihv ih => exact .macro_ single read ihv trivial ih

/-! ## Tables without cycles -/

theorem references_drop (n : Nat) (s : Text) : references n s = references 0 (s.drop n) := by
  induction s generalizing n with
  | nil => cases n <;> rfl
  | cons c s ih =>
    cases n with
    | zero => rfl
    | succ n => exact ih n

/-- A text stands for something where the macros that it refers to do. -/
theorem stands_of_values (values : ∀ name ∈ references 0 s, ∃ r, Stands table none ( getmacro table name) r) :
    ∃ r, Stands table tp s r := by
  induction length : s.length using Nat.strongRecOn generalizing s with
  | _ l ih =>
    cases s with
    | nil => exact ⟨_, .nil⟩
    | cons c s =>
      have later : ∀ n, (∀ name ∈ references n s, ∃ r, Stands table none ( getmacro table name) r) →
          ∃ r, Stands table tp (s.drop n) r := by
        intro n rest
        rw [references_drop] at rest
        exact ih _ (by simp only [List.length_cons] at length; simp only [List.length_drop]; omega) rest rfl
      rw [references] at values
      by_cases special : c = '$'
      · subst special
        rw [if_neg (fun plain => plain rfl)] at values
        by_cases double : s.head? = some '$'
        · rw [if_pos double] at values
          obtain ⟨r, rest⟩ := later 1 values
          match s, double with
          | _ :: s, double =>
            obtain rfl := Option.some.inj double
            exact ⟨_, .dollar rest⟩
        · rw [if_neg double] at values
          cases read : expansion s with
          | error msg => exact ⟨_, .invalid double read⟩
          | ok p =>
            rw [read] at values
            obtain ⟨_ | ⟨name, repl, to_⟩, n⟩ := p
            · obtain ⟨r, rest⟩ := later n values
              exact ⟨_, .internal double read trivial rest⟩
            · obtain ⟨first, rest⟩ := List.forall_mem_cons.mp values
              obtain ⟨_ | v, value⟩ := first
              · exact ⟨_, .failed double read value⟩
              · obtain ⟨r, rest⟩ := later n rest
                exact ⟨_, .macro_ double read value trivial rest⟩
      · rw [if_pos special] at values
        obtain ⟨r, rest⟩ := later 0 values
        exact ⟨_, .char special rest⟩

/-- Where no macro refers to itself, each text stands for something. -/
theorem stands_total (acyclic : Acyclic (Refers table)) (tp : Option Tp) (s : Text) : ∃ r, Stands table tp s r := by
  have finite : {name | ∃ other, Refers table name other}.Finite := by
    refine (List.finite_toSet (table.map Prod.fst)).subset ?_
    rintro name ⟨other, refers⟩
    rw [Refers, getmacro] at refers
    cases found : table.lookup name with
    | none =>
      rw [found] at refers
      cases refers
    | some value =>
      obtain ⟨before, after, parts, -⟩ := List.lookup_eq_some_iff.mp found
      exact List.mem_map.mpr ⟨(name, value), by simp [parts], rfl⟩
  have values : ∀ name, ∃ r, Stands table none ( getmacro table name) r := by
    intro name
    induction name using (acyclic.wellFounded finite).induction with
    | _ name ih => exact stands_of_values ih
  exact stands_of_values fun name _ => values name
/-- A text stands for one thing. -/
theorem Expands.unique {r r' : Except String Text} (stands : Stands table tp s r) (stands' : Stands table tp s r') :
    r = r' := by
  induction stands generalizing r' with
  | nil =>
    cases stands'
    rfl
  | char plain _ ih =>
    cases stands' with
    | char _ rest => rw [ih rest]
    | _ => exact absurd rfl plain
  | dollar _ ih =>
    cases stands' with
    | char plain _ => exact absurd rfl plain
    | dollar rest => rw [ih rest]
    | invalid single | internal single | failed single | macro_ single => exact absurd rfl single
  | invalid single read =>
    cases stands' with
    | char plain _ => exact absurd rfl plain
    | dollar _ => exact absurd rfl single
    | invalid _ read' | internal _ read' | failed _ read' | macro_ _ read' =>
      cases read.symm.trans read'
      all_goals rfl
  | internal single read _ _ ih =>
    cases stands' with
    | char plain _ => exact absurd rfl plain
    | dollar _ => exact absurd rfl single
    | internal _ read' _ rest =>
      cases read.symm.trans read'
      rw [ih rest]
    | invalid _ read' | failed _ read' | macro_ _ read' => cases read.symm.trans read'
  | failed single read _ ih =>
    cases stands' with
    | char plain _ => exact absurd rfl plain
    | dollar _ => exact absurd rfl single
    | failed _ read' value | macro_ _ read' value =>
      cases read.symm.trans read'
      cases ih value
      all_goals rfl
    | invalid _ read' | internal _ read' => cases read.symm.trans read'
  | macro_ single read _ _ _ ihv ih =>
    cases stands' with
    | char plain _ => exact absurd rfl plain
    | dollar _ => exact absurd rfl single
    | failed _ read' value =>
      cases read.symm.trans read'
      cases ihv value
    | macro_ _ read' value _ rest =>
      cases read.symm.trans read'
      cases ihv value
      rw [ih rest]
    | invalid _ read' | internal _ read' => cases read.symm.trans read'

theorem once_iff (table : Macros) (acyclic : Acyclic (Refers table)) (tp : Option Tp) (s : Text) :
    Once table tp s ↔ ∀ r, Stands table tp s r → Free table tp s r := by
  constructor
  · rintro ⟨n, r, ends, -⟩ r' stands
    have free := run_free ends rfl
    cases free.stands.unique stands
    exact free
  · intro free
    obtain ⟨r, stands⟩ := stands_total acyclic tp s
    obtain ⟨n, ends⟩ := free_run (free r stands)
    exact ⟨n, r, ends, stands⟩

/-- The macro `C` is `$(H)`, and `H` is `x`. -/
def two : Macros := [(['C'], ['$', '(', 'H', ')']), (['H'], ['x'])]

theorem two_acyclic : Acyclic (Refers two) := by
  apply Acyclic.of_rank fun name => if name = ['C'] then 1 else 0
  intro name other refers
  by_cases first : name = ['C']
  · subst first
    have one : references 0 ( getmacro two ['C']) = [['H']] := rfl
    rw [Refers, one, List.mem_singleton] at refers
    subst refers
    decide
  · have none : references 0 ( getmacro two name) = [] := by
      by_cases second : name = ['H']
      · subst second
        rfl
      · have missing : two.lookup name = none := by
          rw [two, List.lookup_cons, beq_false_of_ne first, List.lookup_cons, beq_false_of_ne second]
          rfl
        rw [ getmacro, missing]
        rfl
    rw [Refers, none] at refers
    cases refers

theorem two_once : Once two none ['$', '(', 'C', ')'] := by
  have single : ∀ c, ['(', c, ')'].head? ≠ some '$' := by
    intro c
    exact fun same => absurd (Option.some.inj same) (by decide)
  have value : Free two none ['x'] (.ok ['x']) := .char (by decide) .nil
  have middle : Free two none ['$', '(', 'H', ')'] (.ok ['x']) := .macro_ (single 'H') rfl value (by decide) .nil
  have free : Free two none ['$', '(', 'C', ')'] (.ok ['x']) := .macro_ (single 'C') rfl middle (by decide) .nil
  refine (once_iff two two_acyclic none _).mpr fun r stands => ?_
  rwa [stands.unique free.stands]

/-- The macro `C` is `$$(H)`, and `H` is `x`. -/
def again : Macros := [(['C'], ['$', '$', '(', 'H', ')']), (['H'], ['x'])]

theorem again_stands : Stands again none ['$', '(', 'C', ')'] (.ok ['$', '(', 'H', ')']) := by
  have plain : Stands again none ['(', 'H', ')'] (.ok ['(', 'H', ')']) :=
    .char (by decide) (.char (by decide) (.char (by decide) .nil))
  have single : ['(', 'C', ')'].head? ≠ some '$' := by decide
  exact .macro_ single rfl (.dollar plain) trivial .nil

/-- The value `$(H)` of the reference is read again. -/
theorem read_again :
    (∃ n, expandstring again n none (.line ['$', '(', 'C', ')']) = some ⟨.ok ['x'], true⟩) ∧
      Stands again none ['$', '(', 'C', ')'] (.ok ['$', '(', 'H', ')']) ∧ ¬Once again none ['$', '(', 'C', ')'] := by
  have run : expandstring again 10 none (.line ['$', '(', 'C', ')']) = some ⟨.ok ['x'], true⟩ := rfl
  refine ⟨⟨10, run⟩, again_stands, ?_⟩
  rintro ⟨n, r, ends, -⟩
  have both := (expandstring_mono run (Nat.le_max_left 10 n)).symm.trans (expandstring_mono ends (Nat.le_max_right 10 n))
  cases both

/-- The macro `A` is `$(A)`. -/
def cycle : Macros := [(['A'], ['$', '(', 'A', ')'])]

end Scc.Make
