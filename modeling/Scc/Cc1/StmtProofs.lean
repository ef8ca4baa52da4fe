import Scc.Cc1.StmtLabels
import Scc.Cc1.StmtSemantics

set_option linter.all false

/-! The emitted sequence of a statement behaves as the statement. A point of the sequence
matches a state of the structured execution when the lines ahead are those of the
statement followed by lines that carry out its continuation. -/
namespace Scc.Cc1
open Transition
variable {W V Ev : Type}

def Stmt.gotoFree : Stmt → Bool
  | .seq first rest => first.gotoFree && rest.gotoFree
  | .label _ body | .if _ body | .case _ body | .default body => body.gotoFree
  | .ifelse _ body other => body.gotoFree && other.gotoFree
  | .while _ body | .dowhile body _ | .for _ _ _ body | .switch _ body => body.gotoFree
  | .goto _ => false
  | _ => true

/-- Statements that may stand where these labels are the targets of `break` and `continue`. -/
structure Stmt.Fits (s : Stmt) (lbreak lcont : Option Nat) : Prop where
  placed : s.placed lbreak.isSome lcont.isSome = true
  gotoFree : s.gotoFree = true

section
variable (newlabel : Nat → Nat) (m : Meaning W V Ev) (prog : List Emit)

/-- The lines after the body of a loop whose test is at the bottom. -/
def loopEnd (begin lcont lbreak : Nat) (np : Node) (rest : List Emit) : List Emit :=
  .OLABEL lcont :: .OBRANCH begin :: .OEXPR np :: .OELOOP :: .OLABEL lbreak :: rest

def forEnd (begin lcont cond lbreak : Nat) (econd einc : Option Node) (rest : List Emit) :
    List Emit :=
  .OLABEL lcont :: .OEXPR (einc.getD .nil) :: .OLABEL cond ::
    (forTest begin econd ++ .OELOOP :: .OLABEL lbreak :: rest)

/-- The lines carry out the continuation, with these targets of `break` and `continue`. -/
inductive MatchCont : Cont → Option Nat → Option Nat → List Emit → Prop where
  | stop : MatchCont .stop none none [.OEFUN]
  | seq {s k lbreak lcont rest} (n : Nat) : s.Fits lbreak lcont → MatchCont k lbreak lcont rest →
      MatchCont (.seq s k) lbreak lcont ((stmt newlabel lbreak lcont n s).1 ++ rest)
  | if {k lbreak lcont code rest} :
      (∀ w, ∃ n, Runs (flat m prog) (n + 1) (.at code w) [] (.at rest w)) →
      rest <:+ prog → MatchCont k lbreak lcont rest → MatchCont (.if k) lbreak lcont code
  | while {cond body k lbreak lcont code rest} (begin inner outer n : Nat) :
      code = loopEnd begin inner outer (cond.tree false) rest →
      body.Fits (some outer) (some inner) →
      .OLABEL begin :: ((stmt newlabel (some outer) (some inner) n body).1 ++ code) <:+ prog →
      MatchCont k lbreak lcont rest → MatchCont (.while cond body k) (some outer) (some inner) code
  | dowhile {cond body k lbreak lcont code rest} (begin inner outer n : Nat) :
      code = loopEnd begin inner outer (cond.tree false) rest →
      body.Fits (some outer) (some inner) →
      .OLABEL begin :: ((stmt newlabel (some outer) (some inner) n body).1 ++ code) <:+ prog →
      MatchCont k lbreak lcont rest →
      MatchCont (.dowhile body cond k) (some outer) (some inner) code
  | for {econd : Option Cond} {einc body k lbreak lcont code rest} (begin inner test outer n : Nat) :
      code = forEnd begin inner test outer (econd.map fun c => c.tree false) einc rest →
      body.Fits (some outer) (some inner) →
      .OLABEL begin :: ((stmt newlabel (some outer) (some inner) n body).1 ++ code) <:+ prog →
      MatchCont k lbreak lcont rest →
      MatchCont (.for econd einc body k) (some outer) (some inner) code
  | switch {k lbreak lcont code rest} (outer : Nat) :
      code = .OESWITCH outer :: .OLABEL outer :: rest → code <:+ prog →
      MatchCont k lbreak lcont rest → MatchCont (.switch k) (some outer) lcont code

inductive Match : State W V → Point W V → Prop where
  | stmt {s k w lbreak lcont rest code} (n : Nat) : s.Fits lbreak lcont →
      code = (stmt newlabel lbreak lcont n s).1 ++ rest → code <:+ prog →
      MatchCont newlabel m prog k lbreak lcont rest →
      Match (.running (.stmt s) k w) (.at code w)
  | normal {k w lbreak lcont rest} : rest <:+ prog →
      MatchCont newlabel m prog k lbreak lcont rest →
      Match (.running .normal k w) (.at rest w)
  | break {k w lbreak lcont rest} (code : List Emit) :
      MatchCont newlabel m prog k (some lbreak) lcont rest →
      Match (.running .break k w) (.at (.OJUMP lbreak :: code) w)
  | continue {k w lbreak lcont rest} (code : List Emit) :
      MatchCont newlabel m prog k lbreak (some lcont) rest →
      Match (.running .continue k w) (.at (.OJUMP lcont :: code) w)
  | test {econd : Option Cond} {einc body k w lbreak lcont inner np code} :
      MatchCont newlabel m prog (.for econd einc body k) lbreak lcont
        (.OLABEL inner :: .OEXPR np :: code) →
      Match (.running .test (.for econd einc body k) w) (.at code w)
  | returned (value : Option V) (w : W) : Match (.returned value w) (.returned value w)

end

section
variable {newlabel : Nat → Nat} {m : Meaning W V Ev} {prog : List Emit}

/-- A line that does nothing where it stands. -/
def Emit.skips : Emit → Prop
  | .OLABEL _ | .OBLOOP | .OELOOP | .OESWITCH _ | .ODEFAULT _ | .ODECL _ _ | .OEXPR .nil
  | .OEFUN => True
  | _ => False

theorem flat_skip (m : Meaning W V Ev) (prog : List Emit) {line : Emit} (skips : line.skips)
    (code : List Emit) (w : W) : flat m prog (.at (line :: code) w) = .more [] (.at code w) := by
  cases line with
  | OEXPR np => cases np <;> first | rfl | exact skips.elim
  | _ => first | rfl | exact skips.elim

theorem runs_skip {line : Emit} {code : List Emit} {w : W} {n : Nat} {es : List Ev}
    {p : Point W V} (skips : line.skips) (run : Runs (flat m prog) n (.at code w) es p) :
    Runs (flat m prog) (n + 1) (.at (line :: code) w) es p :=
  Runs.silent (flat_skip m prog skips code w) run

theorem jump_label (unique : (labels Emit.labelOf prog).Nodup) {sym : Nat} {code : List Emit}
    (position : .OLABEL sym :: code <:+ prog) (w : W) :
    jump (V := V) prog (some sym) w = .at (.OLABEL sym :: code) w := by
  simp [jump, seek_of_suffix unique position rfl]

theorem flat_jump (m : Meaning W V Ev) (unique : (labels Emit.labelOf prog).Nodup) {sym : Nat}
    {after : List Emit} (position : .OLABEL sym :: after <:+ prog) (code : List Emit) (w : W) :
    flat m prog (.at (.OJUMP sym :: code) w) = .more [] (.at (.OLABEL sym :: after) w) := by
  simp [flat, lineStep, jump_label unique position]

/-- A jump to a label goes on after it. -/
theorem runs_jump (m : Meaning W V Ev) (unique : (labels Emit.labelOf prog).Nodup) {sym : Nat}
    {after : List Emit} (position : .OLABEL sym :: after <:+ prog) (code : List Emit) (w : W) :
    Runs (flat m prog) 2 (.at (.OJUMP sym :: code) w) [] (.at after w) :=
  .silent (flat_jump m unique position code w) (runs_skip trivial (.refl _))

/-- A branch to a label, with the point after the label or after the branch. -/
theorem runs_branch (m : Meaning W V Ev) (unique : (labels Emit.labelOf prog).Nodup) {sym : Nat}
    (np : Node) (code : List Emit) {after : List Emit} (position : .OLABEL sym :: after <:+ prog) (w : W) :
    ∃ n, Runs (flat m prog) (n + 1) (.at (.OBRANCH sym :: .OEXPR np :: code) w) (m.truth np w).1
      (.at (if (m.truth np w).2.2 then after else code) (m.truth np w).2.1) := by
  cases taken : (m.truth np w).2.2 with
  | true =>
    have head : flat m prog (.at (.OBRANCH sym :: .OEXPR np :: code) w) =
        .more (m.truth np w).1 (.at (.OLABEL sym :: after) (m.truth np w).2.1) := by
      simp [flat, lineStep, taken, jump_label unique position]
    refine ⟨1, ?_⟩
    simpa using Runs.next head (runs_skip trivial (.refl _))
  | false =>
    have head : flat m prog (.at (.OBRANCH sym :: .OEXPR np :: code) w) =
        .more (m.truth np w).1 (.at code (m.truth np w).2.1) := by
      simp [flat, lineStep, taken]
    exact ⟨0, .one head⟩

/-- From the test at the bottom of a loop to the body, or past the loop. -/
theorem runs_loopEnd (m : Meaning W V Ev) (unique : (labels Emit.labelOf prog).Nodup)
    {begin : Nat} (inner outer : Nat) (np : Node) (rest : List Emit) {after : List Emit}
    (position : .OLABEL begin :: after <:+ prog) (w : W) :
    ∃ n, Runs (flat m prog) (n + 1) (.at (loopEnd begin inner outer np rest) w) (m.truth np w).1
      (.at (if (m.truth np w).2.2 then after else rest) (m.truth np w).2.1) := by
  obtain ⟨n, run⟩ := runs_branch m unique np (.OELOOP :: .OLABEL outer :: rest) position w
  cases taken : (m.truth np w).2.2 with
  | true =>
    simp only [taken, if_true] at run ⊢
    exact ⟨n + 1, runs_skip trivial run⟩
  | false =>
    simp only [taken, Bool.false_eq_true, if_false] at run ⊢
    have leave : ∀ w', Runs (flat m prog) 2 (.at (.OELOOP :: .OLABEL outer :: rest) w') []
        (.at rest w') := fun w' => runs_skip trivial (runs_skip trivial (.refl _))
    refine ⟨n + 1 + 2, runs_skip trivial ?_⟩
    simpa using run.trans (leave _)

theorem runs_forTest (m : Meaning W V Ev) (unique : (labels Emit.labelOf prog).Nodup)
    {begin : Nat} (test outer : Nat) (np : Node) (rest : List Emit) {after : List Emit}
    (position : .OLABEL begin :: after <:+ prog) (w : W) :
    ∃ n, Runs (flat m prog) (n + 1)
      (.at (.OLABEL test :: (forTest begin (some np) ++ .OELOOP :: .OLABEL outer :: rest)) w)
      (m.truth np w).1 (.at (if (m.truth np w).2.2 then after else rest) (m.truth np w).2.1) :=
  runs_loopEnd m unique test outer np rest position w

/-- Go on with the branch that the truth value chooses. -/
theorem matched_branch {r : List Ev × W × Bool} {p : Point W V} (yesCode noCode : List Emit)
    {yes no : Control × Cont} {es : List Ev} {s' : State W V}
    (run : ∃ n, Runs (flat m prog) (n + 1) p r.1 (.at (if r.2.2 then yesCode else noCode) r.2.1))
    (first : Match newlabel m prog (.running yes.1 yes.2 r.2.1) (.at yesCode r.2.1))
    (second : Match newlabel m prog (.running no.1 no.2 r.2.1) (.at noCode r.2.1))
    (head : branch r yes no = .more es s') :
    ∃ n p', Runs (flat m prog) (n + 1) p es p' ∧ Match newlabel m prog s' p' := by
  obtain ⟨rfl, rfl⟩ := Next.more.inj head
  obtain ⟨n, run⟩ := run
  refine ⟨n, _, run, ?_⟩
  cases r.2.2
  · exact second
  · exact first

theorem tail_suffix {line : Emit} {code : List Emit} (position : line :: code <:+ prog) :
    code <:+ prog :=
  (List.suffix_cons _ _).trans position

theorem append_suffix {first code : List Emit} (position : first ++ code <:+ prog) :
    code <:+ prog :=
  (List.suffix_append _ _).trans position

theorem loopEnd_label {begin inner outer : Nat} {np : Node} {rest : List Emit}
    (position : loopEnd begin inner outer np rest <:+ prog) : .OLABEL outer :: rest <:+ prog :=
  tail_suffix (tail_suffix (tail_suffix (tail_suffix position)))

theorem loopEnd_suffix {begin inner outer : Nat} {np : Node} {rest : List Emit}
    (position : loopEnd begin inner outer np rest <:+ prog) : rest <:+ prog :=
  tail_suffix (loopEnd_label position)

theorem forEnd_suffix {begin inner test outer : Nat} {econd einc : Option Node}
    {rest : List Emit} (position : forEnd begin inner test outer econd einc rest <:+ prog) :
    .OLABEL test :: (forTest begin econd ++ .OELOOP :: .OLABEL outer :: rest) <:+ prog ∧
      rest <:+ prog :=
  have test := tail_suffix (tail_suffix position)
  ⟨test, tail_suffix (tail_suffix (append_suffix (tail_suffix test)))⟩

end
end Scc.Cc1
