import Scc.Cc1.StmtProofs

set_option linter.all false

/-! Every step of a structured statement is matched by the emitted sequence. -/
namespace Scc.Cc1
open Transition
variable {W V Ev : Type}

section
variable {newlabel : Nat → Nat} {m : Meaning W V Ev} {prog : List Emit}

section
attribute [local simp] stmtStep normalStep breakStep continueStep testStep structured lineStep table tableEnd stmt
  Stmt.find Stmt.select loopEnd forEnd
end

/-- The lines of a `while` around those of its body, and the frame of its continuation. -/
theorem while_frame {cond : Cond} {body : Stmt} {k : Cont} {lbreak lcont : Option Nat}
    {rest : List Emit} {n : Nat} (fits : (Stmt.while cond body).Fits lbreak lcont)
    (position : (stmt newlabel lbreak lcont n (.while cond body)).1 ++ rest <:+ prog)
    (after : MatchCont newlabel m prog k lbreak lcont rest) :
    ∃ begin inner outer i code,
      (stmt newlabel lbreak lcont n (.while cond body)).1 ++ rest =
        .OJUMP inner :: .OBLOOP :: .OLABEL begin ::
          ((stmt newlabel (some outer) (some inner) i body).1 ++ code) ∧
      code = loopEnd begin inner outer (cond.tree false) rest ∧
      body.Fits (some outer) (some inner) ∧
      .OLABEL begin :: ((stmt newlabel (some outer) (some inner) i body).1 ++ code) <:+ prog ∧
      MatchCont newlabel m prog (.while cond body k) (some outer) (some inner) code := by
  have shape : (stmt newlabel lbreak lcont n (.while cond body)).1 ++ rest =
      .OJUMP (newlabel (n + 1)) :: .OBLOOP :: .OLABEL (newlabel n) ::
        ((stmt newlabel (some (newlabel (n + 2))) (some (newlabel (n + 1))) (n + 3) body).1 ++
          loopEnd (newlabel n) (newlabel (n + 1)) (newlabel (n + 2)) (cond.tree false) rest) := by
    simp [stmt, While, loopEnd]
  have inside : body.Fits (some (newlabel (n + 2))) (some (newlabel (n + 1))) :=
    ⟨fits.placed, fits.gotoFree⟩
  rw [shape] at position
  exact ⟨_, _, _, _, _, shape, rfl, inside, tail_suffix (tail_suffix position),
    .while _ _ _ _ rfl inside (tail_suffix (tail_suffix position)) after⟩

theorem dowhile_frame {cond : Cond} {body : Stmt} {k : Cont} {lbreak lcont : Option Nat}
    {rest : List Emit} {n : Nat} (fits : (Stmt.dowhile body cond).Fits lbreak lcont)
    (position : (stmt newlabel lbreak lcont n (.dowhile body cond)).1 ++ rest <:+ prog)
    (after : MatchCont newlabel m prog k lbreak lcont rest) :
    ∃ begin inner outer i code,
      (stmt newlabel lbreak lcont n (.dowhile body cond)).1 ++ rest =
        .OBLOOP :: .OLABEL begin ::
          ((stmt newlabel (some outer) (some inner) i body).1 ++ code) ∧
      code = loopEnd begin inner outer (cond.tree false) rest ∧
      body.Fits (some outer) (some inner) ∧
      .OLABEL begin :: ((stmt newlabel (some outer) (some inner) i body).1 ++ code) <:+ prog ∧
      MatchCont newlabel m prog (.dowhile body cond k) (some outer) (some inner) code := by
  have shape : (stmt newlabel lbreak lcont n (.dowhile body cond)).1 ++ rest =
      .OBLOOP :: .OLABEL (newlabel n) ::
        ((stmt newlabel (some (newlabel (n + 2))) (some (newlabel (n + 1))) (n + 3) body).1 ++
          loopEnd (newlabel n) (newlabel (n + 1)) (newlabel (n + 2)) (cond.tree false) rest) := by
    simp [stmt, Dowhile, loopEnd]
  have inside : body.Fits (some (newlabel (n + 2))) (some (newlabel (n + 1))) :=
    ⟨fits.placed, fits.gotoFree⟩
  rw [shape] at position
  exact ⟨_, _, _, _, _, shape, rfl, inside, tail_suffix position,
    .dowhile _ _ _ _ rfl inside (tail_suffix position) after⟩

theorem for_frame {econd : Option Cond} {einc : Option Node} {body : Stmt} {k : Cont}
    {lbreak lcont : Option Nat} {rest : List Emit} {n : Nat} (init : List Init)
    (fits : (Stmt.for init econd einc body).Fits lbreak lcont)
    (position : (stmt newlabel lbreak lcont n (.for init econd einc body)).1 ++ rest <:+ prog)
    (after : MatchCont newlabel m prog k lbreak lcont rest) :
    ∃ begin inner test outer i code,
      (stmt newlabel lbreak lcont n (.for init econd einc body)).1 ++ rest =
        init.map Init.emits ++ .OJUMP test :: .OBLOOP :: .OLABEL begin ::
          ((stmt newlabel (some outer) (some inner) i body).1 ++ code) ∧
      code = forEnd begin inner test outer (econd.map fun c => c.tree false) einc rest ∧
      body.Fits (some outer) (some inner) ∧
      .OLABEL begin :: ((stmt newlabel (some outer) (some inner) i body).1 ++ code) <:+ prog ∧
      MatchCont newlabel m prog (.for econd einc body k) (some outer) (some inner) code := by
  have shape : (stmt newlabel lbreak lcont n (.for init econd einc body)).1 ++ rest =
      init.map Init.emits ++ .OJUMP (newlabel (n + 2)) :: .OBLOOP :: .OLABEL (newlabel n) ::
        ((stmt newlabel (some (newlabel (n + 3))) (some (newlabel (n + 1))) (n + 4) body).1 ++
          forEnd (newlabel n) (newlabel (n + 1)) (newlabel (n + 2)) (newlabel (n + 3))
            (econd.map fun c => c.tree false) einc rest) := by
    simp [stmt, For, forEnd]
  have inside : body.Fits (some (newlabel (n + 3))) (some (newlabel (n + 1))) :=
    ⟨fits.placed, fits.gotoFree⟩
  rw [shape] at position
  have start := tail_suffix (tail_suffix (append_suffix position))
  exact ⟨_, _, _, _, _, _, shape, rfl, inside, start,
    .for _ _ _ _ _ rfl inside start after⟩

theorem if_frame {cond : Cond} {body : Stmt} {k : Cont} {lbreak lcont : Option Nat}
    {rest : List Emit} {n : Nat} (fits : (Stmt.if cond body).Fits lbreak lcont)
    (position : (stmt newlabel lbreak lcont n (.if cond body)).1 ++ rest <:+ prog)
    (after : MatchCont newlabel m prog k lbreak lcont rest) :
    ∃ lelse i,
      (stmt newlabel lbreak lcont n (.if cond body)).1 ++ rest =
        .OBRANCH lelse :: .OEXPR (cond.tree true) ::
          ((stmt newlabel lbreak lcont i body).1 ++ .OLABEL lelse :: rest) ∧
      body.Fits lbreak lcont ∧
      (stmt newlabel lbreak lcont i body).1 ++ .OLABEL lelse :: rest <:+ prog ∧
      MatchCont newlabel m prog (.if k) lbreak lcont (.OLABEL lelse :: rest) := by
  have shape : (stmt newlabel lbreak lcont n (.if cond body)).1 ++ rest =
      .OBRANCH (newlabel n) :: .OEXPR (cond.tree true) ::
        ((stmt newlabel lbreak lcont (n + 1) body).1 ++ .OLABEL (newlabel n) :: rest) := by
    simp [stmt]
  have joins : MatchCont newlabel m prog (.if k) lbreak lcont (.OLABEL (newlabel n) :: rest) :=
    .if (fun w => ⟨0, runs_skip trivial (.refl _)⟩) (append_suffix position) after
  rw [shape] at position
  exact ⟨_, _, shape, ⟨fits.placed, fits.gotoFree⟩, tail_suffix (tail_suffix position), joins⟩

theorem ifelse_frame (unique : (labels Emit.labelOf prog).Nodup) {cond : Cond}
    {body other : Stmt} {k : Cont} {lbreak lcont : Option Nat}
    {rest : List Emit} {n : Nat} (fits : (Stmt.ifelse cond body other).Fits lbreak lcont)
    (position : (stmt newlabel lbreak lcont n (.ifelse cond body other)).1 ++ rest <:+ prog)
    (after : MatchCont newlabel m prog k lbreak lcont rest) :
    ∃ lelse lend i j last,
      (stmt newlabel lbreak lcont n (.ifelse cond body other)).1 ++ rest =
        .OBRANCH lelse :: .OEXPR (cond.tree true) ::
          ((stmt newlabel lbreak lcont i body).1 ++ .OJUMP lend :: .OLABEL lelse :: last) ∧
      last = (stmt newlabel lbreak lcont j other).1 ++ .OLABEL lend :: rest ∧
      body.Fits lbreak lcont ∧ other.Fits lbreak lcont ∧
      (stmt newlabel lbreak lcont i body).1 ++ .OJUMP lend :: .OLABEL lelse :: last <:+ prog ∧
      MatchCont newlabel m prog (.if k) lbreak lcont (.OJUMP lend :: .OLABEL lelse :: last) ∧
      MatchCont newlabel m prog (.if k) lbreak lcont (.OLABEL lend :: rest) := by
  let i := n + 1
  let lend := newlabel (stmt newlabel lbreak lcont i body).2
  let j := (stmt newlabel lbreak lcont i body).2 + 1
  let last := (stmt newlabel lbreak lcont j other).1 ++ .OLABEL lend :: rest
  have shape : (stmt newlabel lbreak lcont n (.ifelse cond body other)).1 ++ rest =
      .OBRANCH (newlabel n) :: .OEXPR (cond.tree true) ::
        ((stmt newlabel lbreak lcont i body).1 ++ .OJUMP lend :: .OLABEL (newlabel n) :: last) := by
    simp [stmt, i, j, lend, last]
  have placed := fits.placed
  have gotoFree := fits.gotoFree
  simp only [Stmt.placed, Stmt.gotoFree, Bool.and_eq_true] at placed gotoFree
  rw [shape] at position
  have start := tail_suffix (tail_suffix position)
  have ending : .OLABEL lend :: rest <:+ prog :=
    append_suffix (tail_suffix (tail_suffix (append_suffix start)))
  exact ⟨_, lend, i, j, last, shape, rfl, ⟨placed.1, gotoFree.1⟩, ⟨placed.2, gotoFree.2⟩, start,
    .if (fun w => ⟨1, runs_jump m unique ending _ w⟩) (tail_suffix ending) after,
    .if (fun w => ⟨0, runs_skip trivial (.refl _)⟩) (tail_suffix ending) after⟩

theorem switch_frame {cond : Node} {body : Stmt} {k : Cont} {lbreak lcont : Option Nat}
    {rest : List Emit} {n : Nat} (fits : (Stmt.switch cond body).Fits lbreak lcont)
    (position : (stmt newlabel lbreak lcont n (.switch cond body)).1 ++ rest <:+ prog)
    (after : MatchCont newlabel m prog k lbreak lcont rest) :
    ∃ outer i last,
      (stmt newlabel lbreak lcont n (.switch cond body)).1 ++ rest =
        .OBSWITCH :: .OEXPR (switchCond cond) ::
          ((stmt newlabel (some outer) lcont i body).1 ++ last) ∧
      last = .OESWITCH outer :: .OLABEL outer :: rest ∧
      body.Fits (some outer) lcont ∧
      (stmt newlabel (some outer) lcont i body).1 ++ last <:+ prog ∧
      MatchCont newlabel m prog (.switch k) (some outer) lcont last := by
  have shape : (stmt newlabel lbreak lcont n (.switch cond body)).1 ++ rest =
      .OBSWITCH :: .OEXPR (switchCond cond) ::
        ((stmt newlabel (some (newlabel n)) lcont (n + 1) body).1 ++
          .OESWITCH (newlabel n) :: .OLABEL (newlabel n) :: rest) := by
    simp [stmt]
  rw [shape] at position
  have start := tail_suffix (tail_suffix position)
  exact ⟨_, _, _, shape, rfl, ⟨fits.placed, fits.gotoFree⟩, start,
    .switch _ rfl (append_suffix start) after⟩

/-! Entering a switch. -/

/-- The label that the table yields is the one before the statement found, whose
continuation the lines after it carry out. -/
def Finds (newlabel : Nat → Nat) (m : Meaning W V Ev) (prog : List Emit)
    (labelled : Option Node → Bool) (entries : List (Option Node × Nat)) :
    Option (Stmt × Cont) → Prop
  | none => entries.find? (fun entry => labelled entry.1) = none
  | some (s, k) => ∃ entry, entries.find? (fun entry => labelled entry.1) = some entry ∧
      ∃ lbreak lcont rest n, s.Fits lbreak lcont ∧
        .OLABEL entry.2 :: ((stmt newlabel lbreak lcont n s).1 ++ rest) <:+ prog ∧
        MatchCont newlabel m prog k lbreak lcont rest

theorem Finds.or {labelled : Option Node → Bool} {first second : List (Option Node × Nat)}
    {a b : Option (Stmt × Cont)} (one : Finds newlabel m prog labelled first a)
    (two : Finds newlabel m prog labelled second b) :
    Finds newlabel m prog labelled (first ++ second) (a.or b) := by
  cases a with
  | none =>
    cases b with
    | none =>
      simp only [Finds] at one two
      simp [Finds, List.find?_append, one, two]
    | some found =>
      simp only [Finds] at one
      obtain ⟨entry, found', rest⟩ := two
      exact ⟨entry, by simp [List.find?_append, one, found'], rest⟩
  | some found =>
    obtain ⟨entry, found', rest⟩ := one
    exact ⟨entry, by simp [List.find?_append, found'], rest⟩

theorem table_body (newlabel : Nat → Nat) (s : Stmt) (lbreak lcont : Option Nat) (n : Nat)
    (rest : List Emit) :
    table 0 ((stmt newlabel lbreak lcont n s).1 ++ rest) =
      table 0 (stmt newlabel lbreak lcont n s).1 ++ table 0 rest :=
  (stmt_balanced newlabel s lbreak lcont n).entries rest

theorem table_init (init : List Init) (rest : List Emit) :
    table 0 (init.map Init.emits ++ rest) = table 0 rest := by
  induction init with
  | nil => rfl
  | cons first others ih => cases first <;> exact ih

theorem seq_fits {first rest : Stmt} {lbreak lcont : Option Nat}
    (fits : (Stmt.seq first rest).Fits lbreak lcont) :
    first.Fits lbreak lcont ∧ rest.Fits lbreak lcont := by
  have placed := fits.placed
  have gotoFree := fits.gotoFree
  simp only [Stmt.placed, Stmt.gotoFree, Bool.and_eq_true] at placed gotoFree
  exact ⟨⟨placed.1, gotoFree.1⟩, placed.2, gotoFree.2⟩

/-- Searching a statement for a label of its switch and searching the labels of its lines
find the same place. -/
theorem find_matches (unique : (labels Emit.labelOf prog).Nodup) (labelled : Option Node → Bool)
    (s : Stmt) (k : Cont) (lbreak lcont : Option Nat) (rest : List Emit) (n : Nat)
    (fits : s.Fits lbreak lcont)
    (position : (stmt newlabel lbreak lcont n s).1 ++ rest <:+ prog)
    (after : MatchCont newlabel m prog k lbreak lcont rest) :
    Finds newlabel m prog labelled (table 0 (stmt newlabel lbreak lcont n s).1)
      (s.find labelled k) := by
  induction s generalizing k lbreak lcont rest n with
  | seq first others ih₁ ih₂ =>
    obtain ⟨one, two⟩ := seq_fits fits
    simp only [stmt, List.append_assoc] at position ⊢
    rw [table_body]
    exact (ih₁ _ _ _ _ _ one position (.seq _ two after)).or
      (ih₂ _ _ _ _ _ two (append_suffix position) after)
  | label sym body ih => exact ih _ _ _ _ _ ⟨fits.placed, fits.gotoFree⟩ (tail_suffix position) after
  | «while» cond body ih =>
    obtain ⟨begin, inner, outer, i, code, shape, tail, inside, start, frame⟩ :=
      while_frame fits position after
    have entries := congrArg (table 0) shape
    subst tail
    simp only [table_body, table, loopEnd, List.append_cancel_right_eq] at entries
    rw [entries]
    exact ih _ _ _ _ _ inside (tail_suffix start) frame
  | dowhile body cond ih =>
    obtain ⟨begin, inner, outer, i, code, shape, tail, inside, start, frame⟩ :=
      dowhile_frame fits position after
    have entries := congrArg (table 0) shape
    subst tail
    simp only [table_body, table, loopEnd, List.append_cancel_right_eq] at entries
    rw [entries]
    exact ih _ _ _ _ _ inside (tail_suffix start) frame
  | «for» init econd einc body ih =>
    obtain ⟨begin, inner, test, outer, i, code, shape, tail, inside, start, frame⟩ :=
      for_frame init fits position after
    have entries := congrArg (table 0) shape
    subst tail
    have tests : ∀ last, table 0 (forTest begin (econd.map fun c => c.tree false) ++ last) =
        table 0 last := by
      intro last
      cases econd <;> rfl
    simp only [table_body, table_init, table, forEnd, tests, List.append_cancel_right_eq] at entries
    rw [entries]
    exact ih _ _ _ _ _ inside (tail_suffix start) frame
  | «if» cond body ih =>
    obtain ⟨lelse, i, shape, inside, start, frame⟩ := if_frame fits position after
    have entries := congrArg (table 0) shape
    simp only [table_body, table, List.append_cancel_right_eq] at entries
    rw [entries]
    exact ih _ _ _ _ _ inside start frame
  | ifelse cond body other ih₁ ih₂ =>
    obtain ⟨lelse, lend, i, j, last, shape, tail, one, two, start, frame, frame'⟩ :=
      ifelse_frame unique fits position after
    have entries := congrArg (table 0) shape
    subst tail
    simp only [table_body, table, ← List.append_assoc, List.append_cancel_right_eq] at entries
    rw [entries]
    exact (ih₁ _ _ _ _ _ one start frame).or
      (ih₂ _ _ _ _ _ two (tail_suffix (tail_suffix (append_suffix start))) frame')
  | case np body ih =>
    have inside : body.Fits lbreak lcont := ⟨fits.placed, fits.gotoFree⟩
    have start := tail_suffix (tail_suffix position)
    have entries : table 0 (stmt newlabel lbreak lcont n (.case np body)).1 =
        (some np, newlabel n) :: table 0 (stmt newlabel lbreak lcont (n + 1) body).1 := rfl
    rw [entries, Stmt.find]
    split
    · rename_i here
      exact ⟨_, List.find?_cons_of_pos here, _, _, rest, _, inside, start, after⟩
    · rename_i other
      simpa [Finds, List.find?_cons_of_neg, other] using
        ih _ _ _ _ _ inside (tail_suffix start) after
  | default body ih =>
    have inside : body.Fits lbreak lcont := ⟨fits.placed, fits.gotoFree⟩
    have start := tail_suffix position
    have entries : table 0 (stmt newlabel lbreak lcont n (.default body)).1 =
        (none, newlabel n) :: table 0 (stmt newlabel lbreak lcont (n + 1) body).1 := rfl
    rw [entries, Stmt.find]
    split
    · rename_i here
      exact ⟨_, List.find?_cons_of_pos here, _, _, rest, _, inside, start, after⟩
    · rename_i other
      simpa [Finds, List.find?_cons_of_neg, other] using
        ih _ _ _ _ _ inside (tail_suffix start) after
  | switch cond body ih =>
    have operand : Balanced (.OEXPR (switchCond cond) ::
        (stmt newlabel (some (newlabel n)) lcont (n + 1) body).1) :=
      .cons trivial (stmt_balanced newlabel body _ _ _)
    have entries : table 0 (stmt newlabel lbreak lcont n (.switch cond body)).1 = [] :=
      table_switch operand 0 _ [.OLABEL (newlabel n)]
    rw [entries]
    rfl
  | «break» => cases lbreak <;> rfl
  | «continue» => cases lcont <;> rfl
  | _ => rfl

/-! The steps. -/

def Stmt.size : Stmt → Nat
  | .seq first rest => first.size + rest.size + 2
  | .label _ body | .while _ body | .dowhile body _ | .for _ _ _ body | .if _ body
  | .switch _ body | .case _ body | .default body => body.size + 1
  | .ifelse _ body other => body.size + other.size + 1
  | _ => 1

def Cont.size : Cont → Nat
  | .stop => 0
  | .seq s k => s.size + 1 + k.size
  | .if k | .while _ _ k | .dowhile _ _ k | .for _ _ _ k | .switch k => k.size + 1

/-- What decreases in the steps that no line corresponds to. -/
def rank : State W V → Nat
  | .running (.stmt s) k _ => s.size + k.size
  | .running _ k _ => k.size
  | _ => 0

section
attribute [local simp] Stmt.size Cont.size rank
end

/-- The point goes on to match the next state, or matches it already. -/
def Answers (newlabel : Nat → Nat) (m : Meaning W V Ev) (prog : List Emit) (p : Point W V)
    (es : List Ev) (s' : State W V) (before : Nat) : Prop :=
  (∃ n p', Runs (flat m prog) (n + 1) p es p' ∧ Match newlabel m prog s' p') ∨
    (es = [] ∧ Match newlabel m prog s' p ∧ rank s' < before)

/-- A branch on the negated condition goes on where the condition holds. -/
theorem runs_negated (m : Meaning W V Ev) (unique : (labels Emit.labelOf prog).Nodup)
    (cond : Cond) {sym : Nat} (code : List Emit) {after : List Emit}
    (position : .OLABEL sym :: after <:+ prog) (w : W) :
    ∃ n, Runs (flat m prog) (n + 1) (.at (.OBRANCH sym :: .OEXPR (cond.tree true) :: code) w)
      (m.holdsCond cond w).1
      (.at (if (m.holdsCond cond w).2.2 then code else after) (m.holdsCond cond w).2.1) := by
  have opposite : m.truth (cond.tree true) w = _ := cond_negated m cond w
  obtain ⟨n, run⟩ := runs_branch m unique (cond.tree true) code position w
  rw [opposite] at run
  refine ⟨n, ?_⟩
  cases holds : (m.holdsCond cond w).2.2 <;> simpa [holds] using run

variable {k : Cont} {lbreak lcont : Option Nat} {rest : List Emit} {n : Nat} {es : List Ev}
  {s' : State W V}

theorem if_step {cond : Cond} {body : Stmt} (unique : (labels Emit.labelOf prog).Nodup)
    (fits : (Stmt.if cond body).Fits lbreak lcont)
    (position : (stmt newlabel lbreak lcont n (.if cond body)).1 ++ rest <:+ prog)
    (after : MatchCont newlabel m prog k lbreak lcont rest) (w : W)
    (head : stmtStep m k w (.if cond body) = .more es s') :
    ∃ i p', Runs (flat m prog) (i + 1)
      (.at ((stmt newlabel lbreak lcont n (.if cond body)).1 ++ rest) w) es p' ∧
      Match newlabel m prog s' p' := by
  obtain ⟨lelse, i, shape, inside, start, frame⟩ := if_frame fits position after
  have leave := append_suffix start
  rw [shape]
  exact matched_branch _ _ (runs_negated m unique cond _ leave w) (.stmt i inside rfl start frame)
    (.normal (tail_suffix leave) after) head

theorem ifelse_step {cond : Cond} {body other : Stmt} (unique : (labels Emit.labelOf prog).Nodup)
    (fits : (Stmt.ifelse cond body other).Fits lbreak lcont)
    (position : (stmt newlabel lbreak lcont n (.ifelse cond body other)).1 ++ rest <:+ prog)
    (after : MatchCont newlabel m prog k lbreak lcont rest) (w : W)
    (head : stmtStep m k w (.ifelse cond body other) = .more es s') :
    ∃ i p', Runs (flat m prog) (i + 1)
      (.at ((stmt newlabel lbreak lcont n (.ifelse cond body other)).1 ++ rest) w) es p' ∧
      Match newlabel m prog s' p' := by
  obtain ⟨lelse, lend, i, j, last, shape, tail, one, two, start, frame, frame'⟩ :=
    ifelse_frame unique fits position after
  have leave := tail_suffix (append_suffix start)
  rw [shape]
  exact matched_branch _ _ (runs_negated m unique cond _ leave w) (.stmt i one rfl start frame)
    (.stmt j two tail (tail_suffix leave) frame') head

theorem while_step {cond : Cond} {body : Stmt} (unique : (labels Emit.labelOf prog).Nodup)
    (fits : (Stmt.while cond body).Fits lbreak lcont)
    (position : (stmt newlabel lbreak lcont n (.while cond body)).1 ++ rest <:+ prog)
    (after : MatchCont newlabel m prog k lbreak lcont rest) (w : W)
    (head : stmtStep m k w (.while cond body) = .more es s') :
    ∃ i p', Runs (flat m prog) (i + 1)
      (.at ((stmt newlabel lbreak lcont n (.while cond body)).1 ++ rest) w) es p' ∧
      Match newlabel m prog s' p' := by
  obtain ⟨begin, inner, outer, i, code, shape, tail, inside, start, frame⟩ :=
    while_frame fits position after
  have bottom : code <:+ prog := append_suffix (tail_suffix start)
  rw [shape]
  subst tail
  obtain ⟨j, run⟩ := runs_loopEnd m unique inner outer (cond.tree false) rest start w
  exact matched_branch _ _ ⟨j + 1, .silent (flat_jump m unique bottom _ w) run⟩
    (.stmt i inside rfl (tail_suffix start) frame) (.normal (loopEnd_suffix bottom) after) head

/-- A switch goes on after the label that its value selects. -/
theorem runs_switch (m : Meaning W V Ev) (unique : (labels Emit.labelOf prog).Nodup) {np : Node}
    {code after : List Emit} {sym : Nat} (w : W)
    (selected : destination m (m.value np w).2.2 (table 0 code) (tableEnd 0 code) = some sym)
    (position : .OLABEL sym :: after <:+ prog) :
    Runs (flat m prog) 2 (.at (.OBSWITCH :: .OEXPR np :: code) w) (m.value np w).1
      (.at after (m.value np w).2.1) := by
  have head : flat m prog (.at (.OBSWITCH :: .OEXPR np :: code) w) =
      .more (m.value np w).1 (.at (.OLABEL sym :: after) (m.value np w).2.1) := by
    simp [flat, lineStep, selected, jump_label unique position]
  simpa using Runs.next head (runs_skip trivial (.refl _))

/-- The statement selected in the body of a switch is the one after the label that the
table selects. -/
theorem select_matches (unique : (labels Emit.labelOf prog).Nodup) (v : V) {body : Stmt}
    (fits : body.Fits lbreak lcont)
    (position : (stmt newlabel lbreak lcont n body).1 ++ rest <:+ prog)
    (after : MatchCont newlabel m prog k lbreak lcont rest) :
    (body.select m v k = none ∧
      ∀ last, destination m v (table 0 (stmt newlabel lbreak lcont n body).1) last = last) ∨
    ∃ s k' sym, body.select m v k = some (s, k') ∧
      (∀ last, destination m v (table 0 (stmt newlabel lbreak lcont n body).1) last = some sym) ∧
      ∃ lb lc rest' i, s.Fits lb lc ∧
        .OLABEL sym :: ((stmt newlabel lb lc i s).1 ++ rest') <:+ prog ∧
        MatchCont newlabel m prog k' lb lc rest' := by
  let matching : Option Node → Bool := fun label => label.any fun np => m.equal (m.constant np) v
  have cases := find_matches unique matching body _ _ _ _ _ fits position after
  have defaults := find_matches unique Option.isNone body _ _ _ _ _ fits position after
  unfold Stmt.select destination
  cases first : body.find matching k with
  | some found =>
    rw [first] at cases
    obtain ⟨entry, chosen, found'⟩ := cases
    exact .inr ⟨found.1, found.2, entry.2, rfl, fun last => by rw [chosen], found'⟩
  | none =>
    rw [first] at cases
    simp only [Finds] at cases
    cases second : body.find Option.isNone k with
    | some found =>
      rw [second] at defaults
      obtain ⟨entry, chosen, found'⟩ := defaults
      exact .inr ⟨found.1, found.2, entry.2, rfl, fun last => by rw [cases, chosen], found'⟩
    | none =>
      rw [second] at defaults
      simp only [Finds] at defaults
      exact .inl ⟨rfl, fun last => by rw [cases, defaults]⟩

theorem switch_step {cond : Node} {body : Stmt} (unique : (labels Emit.labelOf prog).Nodup)
    (fits : (Stmt.switch cond body).Fits lbreak lcont)
    (position : (stmt newlabel lbreak lcont n (.switch cond body)).1 ++ rest <:+ prog)
    (after : MatchCont newlabel m prog k lbreak lcont rest) (w : W)
    (head : stmtStep m k w (.switch cond body) = .more es s') :
    ∃ i p', Runs (flat m prog) (i + 1)
      (.at ((stmt newlabel lbreak lcont n (.switch cond body)).1 ++ rest) w) es p' ∧
      Match newlabel m prog s' p' := by
  obtain ⟨outer, i, last, shape, tail, inside, start, frame⟩ := switch_frame fits position after
  have ending : .OLABEL outer :: rest <:+ prog := tail_suffix (tail ▸ append_suffix start)
  have entries : table 0 ((stmt newlabel (some outer) lcont i body).1 ++ last) =
      table 0 (stmt newlabel (some outer) lcont i body).1 := by
    rw [table_body, tail]
    exact List.append_nil _
  have final : tableEnd 0 ((stmt newlabel (some outer) lcont i body).1 ++ last) = some outer := by
    rw [(stmt_balanced ..).last, tail]
    rfl
  rw [shape]
  simp only [stmtStep] at head
  rcases select_matches unique (m.value (switchCond cond) w).2.2 inside start frame with
    ⟨none, selected⟩ | ⟨s, k', sym, found, selected, lb, lc, rest', j, fits', start', cont⟩
  · rw [none] at head
    obtain ⟨rfl, rfl⟩ := Next.more.inj head
    have leaves := selected (some outer)
    exact ⟨1, _, runs_switch m unique w (by rw [entries, final]; exact leaves) ending,
      .normal (tail_suffix ending) after⟩
  · rw [found] at head
    obtain ⟨rfl, rfl⟩ := Next.more.inj head
    have enters := selected (some outer)
    exact ⟨1, _, runs_switch m unique w (by rw [entries, final]; exact enters) start',
      .stmt j fits' rfl (tail_suffix start') cont⟩

theorem dowhile_step {cond : Cond} {body : Stmt}
    (fits : (Stmt.dowhile body cond).Fits lbreak lcont)
    (position : (stmt newlabel lbreak lcont n (.dowhile body cond)).1 ++ rest <:+ prog)
    (after : MatchCont newlabel m prog k lbreak lcont rest) (w : W)
    (head : stmtStep m k w (.dowhile body cond) = .more es s') :
    ∃ i p', Runs (flat m prog) (i + 1)
      (.at ((stmt newlabel lbreak lcont n (.dowhile body cond)).1 ++ rest) w) es p' ∧
      Match newlabel m prog s' p' := by
  obtain ⟨begin, inner, outer, i, code, shape, -, inside, start, frame⟩ :=
    dowhile_frame fits position after
  obtain ⟨rfl, rfl⟩ := Next.more.inj head
  rw [shape]
  exact ⟨1, _, runs_skip trivial (runs_skip trivial (.refl _)),
    .stmt i inside rfl (tail_suffix start) frame⟩

/-- What stands before the first semicolon is executed once, then the test is due. -/
theorem for_step {init : List Init} {econd : Option Cond} {einc : Option Node} {body : Stmt}
    (unique : (labels Emit.labelOf prog).Nodup)
    (fits : (Stmt.for init econd einc body).Fits lbreak lcont)
    (position : (stmt newlabel lbreak lcont n (.for init econd einc body)).1 ++ rest <:+ prog)
    (after : MatchCont newlabel m prog k lbreak lcont rest) (w : W)
    (head : stmtStep m k w (.for init econd einc body) = .more es s') :
    ∃ i p', Runs (flat m prog) (i + 1)
      (.at ((stmt newlabel lbreak lcont n (.for init econd einc body)).1 ++ rest) w) es p' ∧
      Match newlabel m prog s' p' := by
  cases init with
  | nil =>
    obtain ⟨begin, inner, test, outer, i, code, shape, tail, inside, start, frame⟩ :=
      for_frame [] fits position after
    obtain ⟨rfl, rfl⟩ := Next.more.inj head
    have bottom : code <:+ prog := append_suffix (tail_suffix start)
    subst tail
    rw [shape]
    exact ⟨0, _, .one (flat_jump m unique (forEnd_suffix bottom).1 _ w), .test frame⟩
  | cons first init =>
    have fits' : (Stmt.for init econd einc body).Fits lbreak lcont := ⟨fits.placed, fits.gotoFree⟩
    cases first <;>
    · obtain ⟨rfl, rfl⟩ := Next.more.inj head
      exact ⟨0, _, .one rfl, .stmt n fits' rfl (tail_suffix position) after⟩

theorem stmt_step {s : Stmt} (unique : (labels Emit.labelOf prog).Nodup)
    (fits : s.Fits lbreak lcont) (position : (stmt newlabel lbreak lcont n s).1 ++ rest <:+ prog)
    (after : MatchCont newlabel m prog k lbreak lcont rest) (w : W)
    (head : stmtStep m k w s = .more es s') :
    Answers newlabel m prog (.at ((stmt newlabel lbreak lcont n s).1 ++ rest) w) es s'
      (s.size + k.size) := by
  cases s with
  | skip =>
    obtain ⟨rfl, rfl⟩ := Next.more.inj head
    exact .inr ⟨rfl, .normal position after, Nat.lt_add_of_pos_left Nat.one_pos⟩
  | seq first others =>
    obtain ⟨rfl, rfl⟩ := Next.more.inj head
    obtain ⟨one, two⟩ := seq_fits fits
    simp only [stmt, List.append_assoc] at position ⊢
    refine .inr ⟨rfl, .stmt n one rfl position (.seq _ two after), ?_⟩
    simp only [rank, Cont.size, Stmt.size]
    omega
  | decl sym type =>
    obtain ⟨rfl, rfl⟩ := Next.more.inj head
    exact .inl ⟨0, _, .one rfl, .normal (tail_suffix position) after⟩
  | expr np =>
    obtain ⟨rfl, rfl⟩ := Next.more.inj head
    exact .inl ⟨0, _, .one rfl, .normal (tail_suffix position) after⟩
  | label sym body =>
    obtain ⟨rfl, rfl⟩ := Next.more.inj head
    exact .inl ⟨0, _, .one rfl,
      .stmt n ⟨fits.placed, fits.gotoFree⟩ rfl (tail_suffix position) after⟩
  | goto sym => cases fits.gotoFree
  | «while» cond body => exact .inl (while_step unique fits position after w head)
  | dowhile body cond => exact .inl (dowhile_step fits position after w head)
  | «for» init econd einc body => exact .inl (for_step unique fits position after w head)
  | «if» cond body => exact .inl (if_step unique fits position after w head)
  | ifelse cond body other => exact .inl (ifelse_step unique fits position after w head)
  | «break» =>
    obtain ⟨rfl, rfl⟩ := Next.more.inj head
    obtain ⟨outer, rfl⟩ := Option.isSome_iff_exists.mp fits.placed
    exact .inr ⟨rfl, .break _ after, Nat.lt_add_of_pos_left Nat.one_pos⟩
  | «continue» =>
    obtain ⟨rfl, rfl⟩ := Next.more.inj head
    obtain ⟨inner, rfl⟩ := Option.isSome_iff_exists.mp fits.placed
    exact .inr ⟨rfl, .continue _ after, Nat.lt_add_of_pos_left Nat.one_pos⟩
  | «return» np =>
    obtain ⟨rfl, rfl⟩ := Next.more.inj head
    exact .inl ⟨0, _, .one rfl, .returned _ _⟩
  | switch cond body => exact .inl (switch_step unique fits position after w head)
  | case np body =>
    obtain ⟨rfl, rfl⟩ := Next.more.inj head
    exact .inl ⟨1, _, .silent rfl (runs_skip trivial (.refl _)),
      .stmt (n + 1) ⟨fits.placed, fits.gotoFree⟩ rfl
        (tail_suffix (tail_suffix (tail_suffix position))) after⟩
  | default body =>
    obtain ⟨rfl, rfl⟩ := Next.more.inj head
    exact .inl ⟨1, _, runs_skip trivial (runs_skip trivial (.refl _)),
      .stmt (n + 1) ⟨fits.placed, fits.gotoFree⟩ rfl (tail_suffix (tail_suffix position)) after⟩

/-! Continuations. -/

def Cont.repeats : Cont → Bool
  | .while _ _ _ | .dowhile _ _ _ | .for _ _ _ _ => true
  | _ => false

/-- The lines after the body of a loop, from the label that `continue` goes to. -/
theorem loop_step {code : List Emit} (unique : (labels Emit.labelOf prog).Nodup)
    (loop : k.repeats = true) (position : code <:+ prog)
    (frame : MatchCont newlabel m prog k lbreak lcont code) (w : W)
    (head : normalStep m w k = .more es s') :
    ∃ i p', Runs (flat m prog) (i + 1) (.at code w) es p' ∧ Match newlabel m prog s' p' := by
  cases frame with
  | stop | seq | «if» | switch => cases loop
  | «while» begin inner outer i tail inside start after =>
    subst tail
    exact matched_branch _ _ (runs_loopEnd m unique inner outer _ _ start w)
      (.stmt i inside rfl (tail_suffix start) (.while _ _ _ _ rfl inside start after))
      (.normal (loopEnd_suffix position) after) head
  | dowhile begin inner outer i tail inside start after =>
    subst tail
    exact matched_branch _ _ (runs_loopEnd m unique inner outer _ _ start w)
      (.stmt i inside rfl (tail_suffix start) (.dowhile _ _ _ _ rfl inside start after))
      (.normal (loopEnd_suffix position) after) head
  | «for» begin inner test outer i tail inside start after =>
    subst tail
    obtain ⟨rfl, rfl⟩ := Next.more.inj head
    exact ⟨1, _, runs_skip trivial (.one rfl), .test (.for _ _ _ _ _ rfl inside start after)⟩

theorem loop_label {inner : Nat} {code : List Emit} (loop : k.repeats = true)
    (frame : MatchCont newlabel m prog k lbreak (some inner) code) :
    ∃ tail, code = .OLABEL inner :: tail ∧ code <:+ prog := by
  cases frame with
  | seq | «if» | switch => cases loop
  | «while» begin _ outer i tail inside start after =>
    exact ⟨_, tail, append_suffix (tail_suffix start)⟩
  | dowhile begin _ outer i tail inside start after =>
    exact ⟨_, tail, append_suffix (tail_suffix start)⟩
  | «for» begin _ test outer i tail inside start after =>
    exact ⟨_, tail, append_suffix (tail_suffix start)⟩

theorem normal_step {code : List Emit} (unique : (labels Emit.labelOf prog).Nodup)
    (position : code <:+ prog) (frame : MatchCont newlabel m prog k lbreak lcont code) (w : W)
    (head : normalStep m w k = .more es s') :
    Answers newlabel m prog (.at code w) es s' k.size := by
  cases loop : k.repeats with
  | true => exact .inl (loop_step unique loop position frame w head)
  | false =>
    cases frame with
    | stop => cases head
    | seq n fits after =>
      obtain ⟨rfl, rfl⟩ := Next.more.inj head
      refine .inr ⟨rfl, .stmt n fits rfl position after, ?_⟩
      simp only [rank, Cont.size]
      omega
    | «if» joins ahead after =>
      obtain ⟨rfl, rfl⟩ := Next.more.inj head
      obtain ⟨i, run⟩ := joins w
      exact .inl ⟨i, _, run, .normal ahead after⟩
    | switch outer tail _ after =>
      subst tail
      obtain ⟨rfl, rfl⟩ := Next.more.inj head
      exact .inl ⟨1, _, runs_skip trivial (runs_skip trivial (.refl _)),
        .normal (tail_suffix (tail_suffix position)) after⟩
    | «while» | dowhile | «for» => cases loop

/-- `break` goes to the label after the innermost loop or switch. -/
theorem break_step {outer : Nat} {code : List Emit} (unique : (labels Emit.labelOf prog).Nodup)
    (others : List Emit) (frame : MatchCont newlabel m prog k (some outer) lcont code) (w : W)
    (head : breakStep w k = .more es s') :
    Answers newlabel m prog (.at (.OJUMP outer :: others) w) es s' k.size := by
  have leaves : ∀ {k : Cont} {lbreak lcont : Option Nat} {rest : List Emit},
      .OLABEL outer :: rest <:+ prog → MatchCont newlabel m prog k lbreak lcont rest →
      ∃ i p', Runs (flat m prog) (i + 1) (.at (.OJUMP outer :: others) w) [] p' ∧
        Match newlabel m prog (.running .normal k w) p' :=
    fun ending after => ⟨1, _, runs_jump m unique ending _ w, .normal (tail_suffix ending) after⟩
  cases frame with
  | seq n fits after =>
    obtain ⟨rfl, rfl⟩ := Next.more.inj head
    refine .inr ⟨rfl, .break _ after, ?_⟩
    simp only [rank, Cont.size]
    omega
  | «if» joins ahead after =>
    obtain ⟨rfl, rfl⟩ := Next.more.inj head
    exact .inr ⟨rfl, .break _ after, Nat.lt_succ_self _⟩
  | «while» begin inner _ i tail inside start after =>
    subst tail
    obtain ⟨rfl, rfl⟩ := Next.more.inj head
    exact .inl (leaves (loopEnd_label (append_suffix (tail_suffix start))) after)
  | dowhile begin inner _ i tail inside start after =>
    subst tail
    obtain ⟨rfl, rfl⟩ := Next.more.inj head
    exact .inl (leaves (loopEnd_label (append_suffix (tail_suffix start))) after)
  | «for» begin inner test _ i tail inside start after =>
    subst tail
    obtain ⟨rfl, rfl⟩ := Next.more.inj head
    have bottom := (forEnd_suffix (append_suffix (tail_suffix start))).1
    exact .inl (leaves (tail_suffix (append_suffix (tail_suffix bottom))) after)
  | switch _ tail position after =>
    subst tail
    obtain ⟨rfl, rfl⟩ := Next.more.inj head
    exact .inl (leaves (tail_suffix position) after)

/-- `continue` goes to the label after the body of the innermost loop. -/
theorem continue_step {inner : Nat} {code : List Emit}
    (unique : (labels Emit.labelOf prog).Nodup) (others : List Emit)
    (frame : MatchCont newlabel m prog k lbreak (some inner) code) (w : W)
    (head : continueStep m w k = .more es s') :
    Answers newlabel m prog (.at (.OJUMP inner :: others) w) es s' k.size := by
  cases loop : k.repeats with
  | true =>
    obtain ⟨tail, shape, position⟩ := loop_label loop frame
    have again : normalStep m w k = .more es s' := by
      cases k <;> first | exact head | cases loop
    obtain ⟨i, p', run, related⟩ := loop_step unique loop position frame w again
    subst shape
    exact .inl ⟨i + 1, p', .silent (flat_jump m unique position _ w) run, related⟩
  | false =>
    cases frame with
    | seq n fits after =>
      obtain ⟨rfl, rfl⟩ := Next.more.inj head
      refine .inr ⟨rfl, .continue _ after, ?_⟩
      simp only [rank, Cont.size]
      omega
    | «if» joins ahead after =>
      obtain ⟨rfl, rfl⟩ := Next.more.inj head
      exact .inr ⟨rfl, .continue _ after, Nat.lt_succ_self _⟩
    | switch _ tail position after =>
      obtain ⟨rfl, rfl⟩ := Next.more.inj head
      exact .inr ⟨rfl, .continue _ after, Nat.lt_succ_self _⟩
    | «while» | dowhile | «for» => cases loop

theorem test_step {econd : Option Cond} {einc : Option Node} {body : Stmt} {inner : Nat}
    {np : Node} {code : List Emit} (unique : (labels Emit.labelOf prog).Nodup)
    (frame : MatchCont newlabel m prog (.for econd einc body k) lbreak lcont
      (.OLABEL inner :: .OEXPR np :: code)) (w : W)
    (head : testStep m w (.for econd einc body k) = .more es s') :
    ∃ i p', Runs (flat m prog) (i + 1) (.at code w) es p' ∧ Match newlabel m prog s' p' := by
  obtain _ | _ | _ | _ | _ | ⟨begin, inner', test, outer, i, tail, inside, start, after⟩ := frame
  have again := MatchCont.for _ _ _ _ _ tail inside start after
  have body_match : ∀ w, Match newlabel m prog (.running (.stmt body) (.for econd einc body k) w)
      (.at _ w) := fun w => .stmt i inside rfl (tail_suffix start) again
  have bottom := append_suffix (tail_suffix start)
  rw [tail] at bottom
  obtain ⟨testing, ending⟩ := forEnd_suffix bottom
  obtain ⟨-, rfl⟩ := List.cons.inj (List.cons.inj tail).2
  cases econd with
  | none =>
    obtain ⟨rfl, rfl⟩ := Next.more.inj head
    exact ⟨2, _, runs_skip trivial (runs_jump m unique start _ w), body_match w⟩
  | some cond =>
    exact matched_branch _ _ (runs_forTest m unique test outer _ _ start w)
      (body_match _) (.normal ending after) head

/-! The whole function. -/

theorem structured_stops {s : State W V} {r : Outcome W V} (stops : structured m s = .done r) :
    (∃ w, s = .running .normal .stop w ∧ r = .returned none w) ∨
      (∃ value w, s = .returned value w ∧ r = .returned value w) ∨ s = .stuck := by
  match s with
  | .running .normal .stop w => exact .inl ⟨w, rfl, (Next.done.inj stops).symm⟩
  | .returned value w => exact .inr (.inl ⟨value, w, rfl, (Next.done.inj stops).symm⟩)
  | .stuck => exact .inr (.inr rfl)
  | .running (.stmt s) k w =>
    simp only [structured] at stops
    unfold stmtStep at stops
    split at stops <;> (repeat' split at stops) <;> cases stops
  | .running .break k w => cases k <;> cases stops
  | .running .continue k w => cases k <;> cases stops
  | .running .test k w =>
    simp only [structured] at stops
    unfold testStep at stops
    split at stops <;> cases stops

/-- The code of every statement follows its structured execution. -/
theorem stmt_simulation (newlabel : Nat → Nat) (m : Meaning W V Ev)
    (unique : (labels Emit.labelOf prog).Nodup) :
    Simulation (structured m) (flat m prog) (Match newlabel m prog) rank where
  done := by
    intro s p r related stops
    obtain ⟨w, rfl, rfl⟩ | ⟨value, w, rfl, rfl⟩ | rfl := structured_stops stops
    · cases related with
      | normal position frame =>
        cases frame
        exact ⟨1, _, runs_skip trivial (.refl _), rfl⟩
    · cases related
      exact ⟨0, _, .refl _, rfl⟩
    · cases related
  more := by
    intro s p es s' related head
    cases related with
    | stmt n fits shape position after =>
      subst shape
      exact stmt_step unique fits position after _ head
    | normal position frame => exact normal_step unique position frame _ head
    | «break» code frame => exact break_step unique code frame _ head
    | «continue» code frame => exact continue_step unique code frame _ head
    | test frame => exact .inl (test_step unique frame _ head)
    | returned value w => cases head

end

/-- The condition `!0`. -/
def notZero : Cond where
  exp := node .ONEG inttype (constnode inttype 0) .nil
  tree neg :=
    if neg then node .ONEG inttype (node .ONEG inttype (constnode inttype 0) .nil) .nil
    else node .ONEG inttype (constnode inttype 0) .nil
  accepted neg := by cases neg <;> rfl
  present neg := by cases neg <;> simp [node]
  typed := by
    intro op nconst type sym left right same comparison
    cases same
    cases comparison

/-- `for (;;) { if (!0) break; else continue; }` -/
def breakOut : Stmt := .for [] none none (.ifelse notZero .break .continue)

/-- Every tree counts an evaluation and has the count as its value. -/
def counting : Meaning Nat Nat Nat where
  value _ w := ([w], w + 1, w)
  nonzero v := v != 0
  constant _ := 0
  equal := (· == ·)
  holds _ _ l r := l == r

end Scc.Cc1
