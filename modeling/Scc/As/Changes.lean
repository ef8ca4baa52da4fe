import Scc.As.Main
import Scc.Transition.Runs
import Mathlib.Logic.Relation

set_option linter.all false

/-! What a line does to the sections and to the values of the symbols. -/
namespace Scc.As
open Transition

namespace State

/-- The value of a symbol, 0 for one that is not there yet. -/
def valueOf (s : State) (i : Nat) : Nat := ((s.syms[i]?).map Symbol.value).getD 0

end State

/-- A section after bytes have been emitted into it. -/
def Lsection.emitted (pass : Nat) (bytes : List UInt8) (sec : Lsection) : Lsection :=
  { sec with
    fp := sec.fp.map (· ++ bytes)
    curpc := sec.curpc + bytes.length
    pc := sec.pc + bytes.length
    size := if pass = 2 then sec.size else max sec.size (sec.pc + bytes.length - sec.base) }

/-- One change, with its event. -/
inductive Change (s s' : State) : Prop where
  | quiet (secs : s'.secs = s.secs) (log : s'.log = s.log) (values : ∀ i, s'.valueOf i = s.valueOf i)
  | newsec (sec : Lsection)
    (fresh : sec.base = 0 ∧ sec.size = 0 ∧ sec.fp = none ∧ sec.curpc = 0 ∧ sec.pc = 0)
    (secs : s'.secs = s.secs ++ [sec]) (log : s'.log = (s.note (.newsec s.secs.length)).log)
    (values : ∀ i, s'.valueOf i = s.valueOf i)
  | emit (k : Nat) (bytes : List UInt8) (inside : k < s.secs.length)
    (secs : s'.secs = s.secs.modify k (Lsection.emitted s.pass bytes))
    (log : s'.log = (s.note (.emit k bytes)).log) (values : ∀ i, s'.valueOf i = s.valueOf i)
  | label (i k : Nat) (sec : Lsection) (current : s.secs[k]? = some sec) (secs : s'.secs = s.secs)
    (log : s'.log = (s.note (.label i k)).log) (value : s'.valueOf i = sec.curpc)
    (values : ∀ j, j ≠ i → s'.valueOf j = s.valueOf j)
  | equ (i : Nat) (secs : s'.secs = s.secs) (log : s'.log = (s.note (.equ i)).log)
    (values : ∀ j, j ≠ i → s'.valueOf j = s.valueOf j)

/-- A change within a pass. -/
def Changed (s s' : State) : Prop := s'.pass = s.pass ∧ Change s s'

abbrev Changes : State → State → Prop := Relation.ReflTransGen Changed

theorem Changes.pass {s s' : State} (changes : Changes s s') : s'.pass = s.pass := by
  induction changes with
  | refl => rfl
  | tail _ step ih => exact step.1.trans ih

theorem Changed.changes {s s' : State} (changed : Changed s s') : Changes s s' :=
  Relation.ReflTransGen.single changed

/-- Nothing but what the other changes leave open. -/
theorem Changes.quiet {s s' : State} (pass : s'.pass = s.pass) (secs : s'.secs = s.secs)
    (log : s'.log = s.log) (values : ∀ i, s'.valueOf i = s.valueOf i) : Changes s s' :=
  Changed.changes ⟨pass, .quiet secs log values⟩

namespace State

variable {s s' : State}

theorem valueOf_setSym (i : Nat) (f : Symbol → Symbol) (same : ∀ sym, (f sym).value = sym.value) (j : Nat) :
    (s.setSym i f).valueOf j = s.valueOf j := by
  simp only [valueOf, setSym, List.getElem?_modify]
  split
  · cases s.syms[j]? <;> simp [same]
  · simp

theorem valueOf_setSym_other (i : Nat) (f : Symbol → Symbol) {j : Nat} (other : j ≠ i) :
    (s.setSym i f).valueOf j = s.valueOf j := by
  simp [valueOf, setSym, Ne.symm other]

/-! ## Symbols -/

theorem sym_some {i : Nat} {sym : Symbol} (found : s.sym i = .ok sym) : s.syms[i]? = some sym := by
  unfold State.sym at found
  split at found
  · rename_i sym' there
    cases found
    exact there
  · cases found

theorem sec_some {k : Nat} {sec : Lsection} (found : s.sec = .ok (k, sec)) :
    s.cursec = some k ∧ s.secs[k]? = some sec := by
  unfold State.sec at found
  split at found
  · cases found
  · rename_i j current
    split at found
    · rename_i sec' there
      cases found
      exact ⟨current, there⟩
    · cases found

/-- A name that is looked up is a symbol in a table which has at most one symbol more. -/
theorem lookup_cases {name : Name} {i : Nat} (looked : s.lookup name = .ok (s', i)) :
    ∃ name', s.qualify name = .ok name' ∧
      ((s.find name' = some i ∧ s' = s) ∨
        (s.find name' = none ∧ i = s.syms.length ∧
          s' = { s with syms := s.syms ++ [⟨name', .none, 0, 0, s.cursec, 0, none⟩] })) := by
  obtain ⟨name', qualified, looked⟩ := bind_ok.mp looked
  refine ⟨name', qualified, ?_⟩
  split at looked
  · rename_i j found
    cases looked
    exact .inl ⟨found, rfl⟩
  · rename_i missing
    cases looked
    exact .inr ⟨missing, rfl, rfl⟩

theorem lookup_changes {name : Name} {i : Nat} (looked : s.lookup name = .ok (s', i)) : Changes s s' := by
  obtain ⟨name', -, ⟨-, rfl⟩ | ⟨-, -, rfl⟩⟩ := lookup_cases looked
  · exact .refl
  · refine .quiet rfl rfl rfl fun j => ?_
    simp only [valueOf, List.getElem?_append]
    split
    · rfl
    · rename_i outside
      rw [List.getElem?_eq_none (Nat.le_of_not_lt outside)]
      cases j - s.syms.length <;> rfl

theorem deflabel_changes {name : Name} {i : Nat} (defined : s.deflabel name = .ok (s', i)) : Changes s s' := by
  obtain ⟨name', -, defined⟩ := bind_ok.mp defined
  obtain ⟨⟨s₁, j⟩, looked, defined⟩ := bind_ok.mp defined
  obtain ⟨sym, found, defined⟩ := bind_ok.mp defined
  apply (lookup_changes looked).trans
  dsimp only at defined
  split at defined
  · cases defined
  obtain ⟨⟨k, sec⟩, current, defined⟩ := bind_ok.mp defined
  have there := sym_some found
  cases defined
  have value : ∀ f : Symbol → Symbol, (∀ sym, (f sym).value = sec.curpc) →
      (s₁.setSym i f).valueOf i = sec.curpc := by
    intro f set
    simp [valueOf, setSym, there, set]
  refine Changed.changes ⟨by split <;> rfl, .label i k sec (sec_some current).2 ?_ ?_ ?_ ?_⟩
  · split <;> rfl
  · split <;> rfl
  · split <;> exact value _ fun _ => rfl
  · intro j other
    split <;> exact valueOf_setSym_other i _ other

/-! ## Operands -/

theorem getreg_changes {name : Name} {i : Nat} (read : s.getreg name = .ok (s', i)) : Changes s s' := by
  obtain ⟨⟨s₁, j⟩, looked, read⟩ := bind_ok.mp read
  obtain ⟨sym, -, read⟩ := bind_ok.mp read
  split at read
  · cases read
    exact lookup_changes looked
  · cases read

theorem getiden_changes {name : Name} {i : Nat} (read : s.getiden name = .ok (s', i)) : Changes s s' := by
  obtain ⟨⟨s₁, j⟩, looked, read⟩ := bind_ok.mp read
  obtain ⟨sym, -, read⟩ := bind_ok.mp read
  split at read
  · cases read
  · cases read
    exact lookup_changes looked

theorem expr_changes {e : Expr} {v : Val} (evaluated : s.expr e = .ok (s', v)) : Changes s s' := by
  induction e generalizing s s' v with
  | number val =>
    cases evaluated
    exact .refl
  | iden name =>
    obtain ⟨⟨s₁, i⟩, read, evaluated⟩ := bind_ok.mp evaluated
    cases evaluated
    exact getiden_changes read
  | unary op e ih =>
    obtain ⟨⟨s₁, v⟩, read, evaluated⟩ := bind_ok.mp evaluated
    cases evaluated
    exact ih read
  | binary op l r ihl ihr =>
    obtain ⟨⟨s₁, v₁⟩, left, evaluated⟩ := bind_ok.mp evaluated
    obtain ⟨⟨s₂, v₂⟩, right, evaluated⟩ := bind_ok.mp evaluated
    obtain ⟨v, -, evaluated⟩ := bind_ok.mp evaluated
    cases evaluated
    exact (ihl left).trans (ihr right)

theorem operand_changes {op : Operand} {arg : Arg} (read : s.operand op = .ok (s', arg)) :
    Changes s s' := by
  cases op with
  | reg name | indir name =>
    obtain ⟨⟨s₁, i⟩, found, read⟩ := bind_ok.mp read
    cases read
    exact getreg_changes found
  | iden name =>
    obtain ⟨⟨s₁, i⟩, found, read⟩ := bind_ok.mp read
    cases read
    exact getiden_changes found
  | string text =>
    cases read
    exact .refl
  | imm e | direct e =>
    obtain ⟨⟨s₁, v⟩, evaluated, read⟩ := bind_ok.mp read
    cases read
    exact expr_changes evaluated
  | index name off =>
    obtain ⟨⟨s₁, i⟩, found, read⟩ := bind_ok.mp read
    obtain ⟨⟨s₂, v⟩, evaluated, read⟩ := bind_ok.mp read
    cases read
    exact (getreg_changes found).trans (expr_changes evaluated)
  | bad msg => cases read

theorem operands_changes {ops : List Operand} {args : List Arg} (read : s.operands ops = .ok (s', args)) :
    Changes s s' := by
  induction ops generalizing s s' args with
  | nil =>
    cases read
    exact .refl
  | cons op ops ih =>
    obtain ⟨⟨s₁, arg⟩, one, read⟩ := bind_ok.mp read
    obtain ⟨⟨s₂, rest⟩, others, read⟩ := bind_ok.mp read
    cases read
    exact (operand_changes one).trans (ih others)

theorem getargs_changes {ops : Option (List Operand)} {args : Option (List Arg)}
    (read : s.getargs ops = .ok (s', args)) : Changes s s' := by
  cases ops with
  | none =>
    cases read
    exact .refl
  | some ops =>
    obtain ⟨⟨s₁, args⟩, read', read⟩ := bind_ok.mp read
    dsimp only at read
    split at read
    · cases read
    · cases read
      exact operands_changes read'

/-! ## Bytes -/

theorem modify_congr {α : Type} {l : List α} {k : Nat} {x : α} {f g : α → α} (there : l[k]? = some x)
    (same : f x = g x) : l.modify k f = l.modify k g := by
  apply List.ext_getElem?
  intro j
  rw [List.getElem?_modify, List.getElem?_modify]
  by_cases at_ : k = j
  · subst at_
    simp [there, same]
  · simp [at_]

/-- What `emit` does where it does not stop. -/
theorem emit_eq {maxaddr : Nat} {bytes : List UInt8} (emitted : s.emit maxaddr bytes = .ok s') :
    ∃ k, s.cursec = some k ∧ k < s.secs.length ∧
      s' = { s with secs := s.secs.modify k (Lsection.emitted s.pass bytes) }.note (.emit k bytes) := by
  obtain ⟨⟨k, sec⟩, current, emitted⟩ := bind_ok.mp emitted
  obtain ⟨cursec, there⟩ := sec_some current
  obtain ⟨inside, -⟩ := List.getElem?_eq_some_iff.mp there
  refine ⟨k, cursec, inside, ?_⟩
  obtain ⟨⟨j, sec'⟩, current', emitted⟩ := bind_ok.mp emitted
  obtain ⟨same, there'⟩ := sec_some current'
  obtain rfl : k = j := Option.some.inj (cursec.symm.trans same)
  have written : sec' = { sec with fp := sec.fp.map (· ++ bytes) } := by
    simpa [State.note, State.setSec, there, eq_comm] using there'
  subst written
  dsimp only at emitted
  split at emitted
  · rename_i second
    cases emitted
    have second : s.pass = 2 := second
    simp only [State.note, State.setSec, List.modify_modify_eq]
    congr 1
    refine modify_congr there ?_
    simp only [Function.comp, Lsection.emitted, if_pos second]
  · rename_i first
    have first : ¬s.pass = 2 := first
    split at emitted
    · cases emitted
    · cases emitted
      simp only [State.note, State.setSec, List.modify_modify_eq]
      congr 1
      refine modify_congr there ?_
      simp only [Function.comp, Lsection.emitted, if_neg first]
      split
      · rename_i larger
        rw [Nat.max_eq_right (Nat.le_of_lt larger)]
      · rename_i smaller
        rw [Nat.max_eq_left (Nat.le_of_not_lt smaller)]

theorem emit_changes {maxaddr : Nat} {bytes : List UInt8} (emitted : s.emit maxaddr bytes = .ok s') :
    Changes s s' := by
  obtain ⟨k, -, inside, rfl⟩ := emit_eq emitted
  exact Changed.changes ⟨rfl, .emit k bytes inside rfl rfl fun _ => rfl⟩

theorem xstring_changes {arch : Arch} {args : List Arg} (written : s.xstring arch args = .ok s') :
    Changes s s' := by
  induction args generalizing s with
  | nil =>
    cases written
    exact .refl
  | cons arg args ih =>
    obtain ⟨text, -, written⟩ := bind_ok.mp written
    obtain ⟨s₁, emitted, written⟩ := bind_ok.mp written
    exact (emit_changes emitted).trans (ih written)

theorem def_changes {arch : Arch} {siz : Nat} {args : List Arg} (written : s.def_ arch siz args = .ok s') :
    Changes s s' := by
  induction args generalizing s with
  | nil =>
    cases written
    exact .refl
  | cons arg args ih =>
    obtain ⟨abs, -, written⟩ := bind_ok.mp written
    obtain ⟨value, -, written⟩ := bind_ok.mp written
    obtain ⟨bytes, -, written⟩ := bind_ok.mp written
    obtain ⟨s₁, emitted, written⟩ := bind_ok.mp written
    exact (emit_changes emitted).trans (ih written)

theorem pad_changes {arch : Arch} {n : Nat} (padded : s.pad arch n = .ok s') : Changes s s' := by
  induction n generalizing s with
  | zero =>
    cases padded
    exact .refl
  | succ n ih =>
    obtain ⟨s₁, emitted, padded⟩ := bind_ok.mp padded
    exact (emit_changes emitted).trans (ih padded)

theorem align_changes {arch : Arch} {args : List Arg} (aligned : s.align arch args = .ok s') :
    Changes s s' := by
  cases args with
  | nil => cases aligned
  | cons arg args =>
    obtain ⟨abs, -, aligned⟩ := bind_ok.mp aligned
    dsimp only at aligned
    split at aligned
    · cases aligned
    obtain ⟨value, -, aligned⟩ := bind_ok.mp aligned
    split at aligned
    · cases aligned
      exact .refl
    · obtain ⟨pc, -, aligned⟩ := bind_ok.mp aligned
      exact pad_changes aligned

/-! ## Symbols and sections -/

theorem setSym_changes {i : Nat} {f : Symbol → Symbol} (same : ∀ sym, (f sym).value = sym.value) :
    Changes s (s.setSym i f) :=
  .quiet rfl rfl rfl (valueOf_setSym i f same)

theorem symexp_changes {which : Which} {args : List Arg} (set : symexp which s args = .ok s') :
    Changes s s' := by
  obtain ⟨⟨sym, exp⟩, -, set⟩ := bind_ok.mp set
  obtain ⟨abs, -, set⟩ := bind_ok.mp set
  dsimp only at set
  split at set
  · cases set
  obtain ⟨value, -, set⟩ := bind_ok.mp set
  cases sym with
  | none =>
    cases set
    exact .refl
  | some i =>
    cases which with
    | EQU =>
      obtain ⟨sym, -, set⟩ := bind_ok.mp set
      split at set
      · cases set
      · cases set
        exact Changed.changes ⟨rfl, .equ i rfl rfl fun j other => valueOf_setSym_other i _ other⟩
    | COMMON | SIZE | TYPE =>
      cases set
      exact setSym_changes fun _ => rfl

theorem setflags_changes {f : Symflags → Symflags} {args : List Arg} (set : s.setflags f args = .ok s') :
    Changes s s' := by
  cases args with
  | nil => cases set
  | cons arg args =>
    obtain ⟨sym, -, set⟩ := bind_ok.mp set
    cases sym with
    | none =>
      cases set
      exact .refl
    | some i =>
      cases set
      exact setSym_changes fun _ => rfl

theorem newsec_changed {i : Nat} {name attr : Name} : Changed s (s.newsec i name attr) :=
  ⟨rfl, .newsec ⟨name, 0, 0, secflags attr, none, 0, 0⟩ ⟨rfl, rfl, rfl, rfl, rfl⟩ rfl rfl
    (valueOf_setSym i (fun sym =>
      { sym with section_ := some s.secs.length, sec := some s.secs.length, flags := { Symflags.none with FSECT := true } })
      fun _ => rfl)⟩

theorem defsec_changes {name attr : Name} (defined : s.defsec name attr = .ok s') : Changes s s' := by
  obtain ⟨⟨s₁, i⟩, looked, defined⟩ := bind_ok.mp defined
  obtain ⟨sym, -, defined⟩ := bind_ok.mp defined
  have looked : Changes s s₁ :=
    Relation.ReflTransGen.trans (b := { s with cursec := none }) (Changes.quiet rfl rfl rfl fun _ => rfl)
      (lookup_changes looked)
  dsimp only at defined
  split at defined
  · cases defined
  apply looked.trans
  split at defined
  · cases defined
    exact Changes.quiet rfl rfl rfl fun _ => rfl
  · cases defined
    exact newsec_changed.changes.trans (Changes.quiet rfl rfl rfl fun _ => rfl)

theorem section_changes {args : List Arg} (defined : s.section_ args = .ok s') : Changes s s' := by
  rcases args with _ | ⟨arg, _ | ⟨attr, args⟩⟩
  · cases defined
  · obtain ⟨name, -, defined⟩ := bind_ok.mp defined
    exact defsec_changes defined
  · obtain ⟨name, -, defined⟩ := bind_ok.mp defined
    obtain ⟨attr, -, defined⟩ := bind_ok.mp defined
    exact defsec_changes defined

/-! ## Lines -/

variable {env : Env}

theorem addinput_changes {fname : Name} (opened : s.addinput env fname = .ok s') : Changes s s' := by
  unfold addinput at opened
  split at opened
  · cases opened
  split at opened
  · cases opened
    exact .quiet rfl rfl rfl fun _ => rfl
  · cases opened

theorem format_changes {op : Op} {args : List Arg} (done : s.format env op args = .ok s') :
    Changes s s' := by
  have emit {bytes : M (List UInt8)} (emitted : (do s.emit z80.maxaddr (← bytes)) = .ok s') :
      Changes s s' := by
    obtain ⟨b, -, emitted⟩ := bind_ok.mp emitted
    exact emit_changes emitted
  unfold State.format at done
  split at done
  case h_1 => exact emit_changes done
  case h_2 | h_3 => exact xstring_changes done
  case h_4 | h_5 | h_6 | h_7 => exact def_changes done
  case h_8 | h_9 | h_10 | h_11 => exact symexp_changes done
  case h_12 => exact section_changes done
  case h_13 | h_14 | h_15 =>
    cases done
    exact .quiet rfl rfl rfl fun _ => rfl
  case h_16 | h_17 => exact setflags_changes done
  case h_18 => exact align_changes done
  case h_19 =>
    cases done
    exact .quiet rfl rfl rfl fun _ => rfl
  case h_20 =>
    split at done
    · obtain ⟨name, -, done⟩ := bind_ok.mp done
      exact addinput_changes done
    · cases done
  all_goals exact emit done

theorem translate_changes {text : Name} {xargs : Option (List Operand)}
    (translated : s.translate env text xargs = .ok s') : Changes s s' := by
  unfold translate at translated
  split at translated
  · cases translated
  · obtain ⟨⟨s₁, args⟩, read, translated⟩ := bind_ok.mp translated
    obtain ⟨op, -, translated⟩ := bind_ok.mp translated
    exact (getargs_changes read).trans (format_changes translated)

theorem label_changes {name : Option Name} (labelled : s.label name = .ok s') : Changes s s' := by
  have cleared : Changes s { s with linesym := none } := Changes.quiet rfl rfl rfl fun _ => rfl
  cases name with
  | none =>
    cases labelled
    exact cleared
  | some name =>
    obtain ⟨⟨s₁, i⟩, defined, labelled⟩ := bind_ok.mp labelled
    cases labelled
    exact (cleared.trans (deflabel_changes defined)).trans (Changes.quiet rfl rfl rfl fun _ => rfl)

theorem define_changes : Changes s s.define := by
  unfold define
  split
  · exact .refl
  · exact setSym_changes fun _ => rfl

/-- A line is a sequence of changes. -/
theorem line_changes {l : Line} (done : s.line env l = .ok s') : Changes s s' := by
  cases l with
  | bad msg => cases done
  | fields label op args =>
    obtain ⟨s₁, labelled, done⟩ := bind_ok.mp done
    obtain ⟨s₂, translated, done⟩ := bind_ok.mp done
    cases done
    apply (label_changes labelled).trans
    refine Relation.ReflTransGen.trans ?_ define_changes
    rcases op with _ | op
    · cases args with
      | none =>
        cases translated
        exact .refl
      | some args => cases translated
    · exact translate_changes translated

end State

end Scc.As
