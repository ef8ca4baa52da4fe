import Scc.Cc1.StmtSemantics

set_option linter.all false

/-! What the emitted sequence of a statement looks like from outside: the labels it
defines and the labels it adds to the switch around it. -/
namespace Scc.Cc1
open Transition
variable {W V Ev : Type}

section
attribute [local simp] stmt Emit.labelOf table tableEnd While Dowhile For
end

/-- The labels the program names itself. -/
def Stmt.named : Stmt → List Nat
  | .seq first rest => first.named ++ rest.named
  | .label sym body => sym :: body.named
  | .while _ body | .dowhile body _ | .for _ _ _ body | .if _ body | .switch _ body
  | .case _ body | .default body => body.named
  | .ifelse _ body other => body.named ++ other.named
  | _ => []

theorem stmt_mono (newlabel : Nat → Nat) (s : Stmt) (lbreak lcont : Option Nat) (n : Nat) :
    n ≤ (stmt newlabel lbreak lcont n s).2 := by
  induction s generalizing lbreak lcont n with
  | seq first rest ih₁ ih₂ => exact Nat.le_trans (ih₁ ..) (ih₂ ..)
  | label sym body ih => exact ih ..
  | «while» cond body ih => exact Nat.le_trans (Nat.le_add_right n 3) (ih ..)
  | dowhile body cond ih => exact Nat.le_trans (Nat.le_add_right n 3) (ih ..)
  | «for» init econd einc body ih => exact Nat.le_trans (Nat.le_add_right n 4) (ih ..)
  | «if» cond body ih => exact Nat.le_trans (Nat.le_add_right n 1) (ih ..)
  | ifelse cond body other ih₁ ih₂ =>
    have inner := ih₁ lbreak lcont (n + 1)
    have outer := ih₂ lbreak lcont ((stmt newlabel lbreak lcont (n + 1) body).2 + 1)
    simp only [stmt]
    omega
  | switch cond body ih => exact Nat.le_trans (Nat.le_add_right n 1) (ih ..)
  | case np body ih => exact Nat.le_trans (Nat.le_add_right n 1) (ih ..)
  | default body ih => exact Nat.le_trans (Nat.le_add_right n 1) (ih ..)
  | _ => exact Nat.le_refl n

/-- The labels with the numbers from `n` to `n'`. -/
def taken (newlabel : Nat → Nat) (n n' : Nat) : List Nat :=
  (List.range' n (n' - n)).map newlabel

theorem taken_self (newlabel : Nat → Nat) (n : Nat) : taken newlabel n n = [] := by
  simp [taken]

theorem taken_trans (newlabel : Nat → Nat) {n m n' : Nat} (first : n ≤ m) (second : m ≤ n') :
    taken newlabel n n' = taken newlabel n m ++ taken newlabel m n' := by
  have split : n' - n = (m - n) + (n' - m) := by omega
  have position : n + (m - n) = m := by omega
  simp only [taken, split, ← List.range'_append, List.map_append, Nat.one_mul, position]

theorem taken_next (newlabel : Nat → Nat) {n n' : Nat} (next : n + 1 ≤ n') :
    taken newlabel n n' = newlabel n :: taken newlabel (n + 1) n' := by
  rw [taken_trans newlabel (Nat.le_succ n) next]
  simp [taken]

theorem labels_init (init : List Init) : labels Emit.labelOf (init.map Init.emits) = [] := by
  induction init with
  | nil => rfl
  | cons first rest ih => cases first <;> simpa [Init.emits, Emit.labelOf] using ih

theorem labels_forTest (begin : Nat) (econd : Option Node) :
    labels Emit.labelOf (forTest begin econd) = [] := by
  cases econd <;> rfl

theorem labels_While (begin lcont lbreak : Nat) (np : Node) (body : List Emit) :
    labels Emit.labelOf (While begin lcont lbreak np body) =
      begin :: (labels Emit.labelOf body ++ [lcont, lbreak]) := by
  simp [While, Emit.labelOf]

theorem labels_Dowhile (begin lcont lbreak : Nat) (np : Node) (body : List Emit) :
    labels Emit.labelOf (Dowhile begin lcont lbreak np body) =
      begin :: (labels Emit.labelOf body ++ [lcont, lbreak]) := by
  simp [Dowhile, Emit.labelOf]

theorem labels_For (begin lcont cond lbreak : Nat) (init : List Init) (econd einc : Option Node)
    (body : List Emit) :
    labels Emit.labelOf (For begin lcont cond lbreak init econd einc body) =
      begin :: (labels Emit.labelOf body ++ [lcont, cond, lbreak]) := by
  simp [For, Emit.labelOf, labels_init, labels_forTest]

/-- Every label taken is defined once, and so is every label the program names. -/
theorem count_labels (newlabel : Nat → Nat) (s : Stmt) (lbreak lcont : Option Nat) (n l : Nat) :
    (labels Emit.labelOf (stmt newlabel lbreak lcont n s).1).count l =
      s.named.count l + (taken newlabel n (stmt newlabel lbreak lcont n s).2).count l := by
  induction s generalizing lbreak lcont n with
  | seq first rest ih₁ ih₂ =>
    have one := stmt_mono newlabel first lbreak lcont n
    have two := stmt_mono newlabel rest lbreak lcont (stmt newlabel lbreak lcont n first).2
    simp only [stmt, Stmt.named, labels_append, List.count_append, ih₁, ih₂,
      taken_trans newlabel one two]
    omega
  | label sym body ih =>
    simp only [stmt, Stmt.named, labels_cons, Emit.labelOf, Option.toList_some,
      List.singleton_append, List.count_cons, ih]
    omega
  | «while» cond body ih =>
    have mono := stmt_mono newlabel body (some (newlabel (n + 2))) (some (newlabel (n + 1))) (n + 3)
    simp only [stmt, Stmt.named, labels_While]
    rw [taken_next newlabel (by omega), taken_next newlabel (by omega), taken_next newlabel mono]
    simp only [List.count_cons, List.count_append, List.count_nil, ih, Nat.add_assoc, Nat.reduceAdd]
    omega
  | dowhile body cond ih =>
    have mono := stmt_mono newlabel body (some (newlabel (n + 2))) (some (newlabel (n + 1))) (n + 3)
    simp only [stmt, Stmt.named, labels_Dowhile]
    rw [taken_next newlabel (by omega), taken_next newlabel (by omega), taken_next newlabel mono]
    simp only [List.count_cons, List.count_append, List.count_nil, ih, Nat.add_assoc, Nat.reduceAdd]
    omega
  | «for» init econd einc body ih =>
    have mono := stmt_mono newlabel body (some (newlabel (n + 3))) (some (newlabel (n + 1))) (n + 4)
    simp only [stmt, Stmt.named, labels_For]
    rw [taken_next newlabel (by omega), taken_next newlabel (by omega),
      taken_next newlabel (by omega), taken_next newlabel mono]
    simp only [List.count_cons, List.count_append, List.count_nil, ih, Nat.add_assoc, Nat.reduceAdd]
    omega
  | «if» cond body ih =>
    have mono := stmt_mono newlabel body lbreak lcont (n + 1)
    simp only [stmt, Stmt.named, taken_next newlabel mono]
    simp [Emit.labelOf, List.count_cons, ih]
    omega
  | ifelse cond body other ih₁ ih₂ =>
    have one := stmt_mono newlabel body lbreak lcont (n + 1)
    have two := stmt_mono newlabel other lbreak lcont
      ((stmt newlabel lbreak lcont (n + 1) body).2 + 1)
    simp only [stmt, Stmt.named]
    rw [taken_next newlabel (by omega), taken_trans newlabel one (by omega),
      taken_next newlabel two]
    simp [Emit.labelOf, List.count_cons, ih₁, ih₂]
    omega
  | switch cond body ih =>
    have mono := stmt_mono newlabel body (some (newlabel n)) lcont (n + 1)
    simp only [stmt, Stmt.named, taken_next newlabel mono]
    simp [Emit.labelOf, List.count_cons, ih]
    omega
  | case np body ih =>
    have mono := stmt_mono newlabel body lbreak lcont (n + 1)
    simp only [stmt, Stmt.named, taken_next newlabel mono]
    simp [Emit.labelOf, List.count_cons, ih]
    omega
  | default body ih =>
    have mono := stmt_mono newlabel body lbreak lcont (n + 1)
    simp only [stmt, Stmt.named, taken_next newlabel mono]
    simp [Emit.labelOf, List.count_cons, ih]
    omega
  | «break» => cases lbreak <;> simp [stmt, Stmt.named, taken_self, Emit.labelOf]
  | «continue» => cases lcont <;> simp [stmt, Stmt.named, taken_self, Emit.labelOf]
  | _ => simp [stmt, Stmt.named, taken_self, Emit.labelOf]

/-- The supply of `newlabel` gives each number once and none that a named label has. -/
structure Supply (named : List Nat) where
  newlabel : Nat → Nat
  injective : Function.Injective newlabel
  apart : ∀ n, newlabel n ∉ named
  distinct : named.Nodup

theorem function_unique (s : Stmt) (supply : Supply s.named) :
    (labels Emit.labelOf (function supply.newlabel s)).Nodup := by
  rw [List.nodup_iff_count_le_one]
  intro l
  simp only [function, labels_append, labels_cons, labels_nil, Emit.labelOf, Option.toList_none,
    List.append_nil, count_labels]
  have names := List.nodup_iff_count_le_one.mp supply.distinct l
  have fresh : (taken supply.newlabel 0 (stmt supply.newlabel none none 0 s).2).Nodup :=
    List.Nodup.map supply.injective List.nodup_range'
  have numbers := List.nodup_iff_count_le_one.mp fresh l
  by_cases member : l ∈ s.named
  · have absent : l ∉ taken supply.newlabel 0 (stmt supply.newlabel none none 0 s).2 := by
      intro used
      obtain ⟨i, -, rfl⟩ := List.mem_map.mp used
      exact supply.apart i member
    rw [List.count_eq_zero_of_not_mem absent]
    exact names
  · rw [List.count_eq_zero_of_not_mem member, Nat.zero_add]
    exact numbers

/-! The labels that the lines of a statement add to the switch around it. -/

/-- Lines whose switches are closed: seen from the switch around them, they add the labels
of their own level and nothing else. -/
structure Balanced (code : List Emit) : Prop where
  entries : ∀ rest, table 0 (code ++ rest) = table 0 code ++ table 0 rest
  deeper : ∀ depth rest, table (depth + 1) (code ++ rest) = table (depth + 1) rest
  last : ∀ depth rest, tableEnd depth (code ++ rest) = tableEnd depth rest

theorem Balanced.nil : Balanced [] := ⟨fun _ => rfl, fun _ _ => rfl, fun _ _ => rfl⟩

theorem Balanced.append {first second : List Emit} (one : Balanced first)
    (two : Balanced second) : Balanced (first ++ second) where
  entries rest := by
    rw [List.append_assoc, one.entries, one.entries, two.entries, List.append_assoc]
  deeper depth rest := by rw [List.append_assoc, one.deeper, two.deeper]
  last depth rest := by rw [List.append_assoc, one.last, two.last]

/-- A line that neither opens or closes a switch nor labels one. -/
def Emit.plain : Emit → Prop
  | .OBSWITCH | .OESWITCH _ | .OCASE _ | .ODEFAULT _ => False
  | _ => True

theorem table_plain {line : Emit} (plain : line.plain) (depth : Nat) (rest : List Emit) :
    table depth (line :: rest) = table depth rest := by
  cases line <;> first | exact plain.elim | rfl

theorem tableEnd_plain {line : Emit} (plain : line.plain) (depth : Nat) (rest : List Emit) :
    tableEnd depth (line :: rest) = tableEnd depth rest := by
  cases line <;> first | exact plain.elim | rfl

theorem Balanced.cons {line : Emit} {code : List Emit} (plain : line.plain)
    (balanced : Balanced code) : Balanced (line :: code) where
  entries rest := by
    rw [List.cons_append, table_plain plain, table_plain plain, balanced.entries]
  deeper depth rest := by rw [List.cons_append, table_plain plain, balanced.deeper]
  last depth rest := by rw [List.cons_append, tableEnd_plain plain, balanced.last]

theorem Balanced.case (sym : Nat) (np : Node) {code : List Emit} (balanced : Balanced code) :
    Balanced (.OCASE sym :: .OEXPR np :: code) where
  entries rest := by simp [table, balanced.entries]
  deeper depth rest := by simp [table, balanced.deeper]
  last depth rest := by simp [tableEnd, balanced.last]

theorem Balanced.default (sym : Nat) {code : List Emit} (balanced : Balanced code) :
    Balanced (.ODEFAULT sym :: code) where
  entries rest := by simp [table, balanced.entries]
  deeper depth rest := by simp [table, balanced.deeper]
  last depth rest := by simp [tableEnd, balanced.last]

/-- A closed switch adds nothing to the switch around it. -/
theorem table_switch {body : List Emit} (balanced : Balanced body) (depth sym : Nat)
    (rest : List Emit) :
    table depth (.OBSWITCH :: (body ++ .OESWITCH sym :: rest)) = table depth rest := by
  simp [table, balanced.deeper]

theorem tableEnd_switch {body : List Emit} (balanced : Balanced body) (depth sym : Nat)
    (rest : List Emit) :
    tableEnd depth (.OBSWITCH :: (body ++ .OESWITCH sym :: rest)) = tableEnd depth rest := by
  simp [tableEnd, balanced.last]

theorem Balanced.switch {body code : List Emit} (balanced : Balanced body) (sym : Nat)
    (after : Balanced code) : Balanced (.OBSWITCH :: (body ++ .OESWITCH sym :: code)) where
  entries rest := by
    rw [table_switch balanced, ← after.entries, ← table_switch balanced 0 sym (code ++ rest)]
    simp
  deeper depth rest := by
    rw [← after.deeper depth rest, ← table_switch balanced (depth + 1) sym (code ++ rest)]
    simp
  last depth rest := by
    rw [← after.last depth rest, ← tableEnd_switch balanced depth sym (code ++ rest)]
    simp

theorem balanced_init (init : List Init) : Balanced (init.map Init.emits) := by
  induction init with
  | nil => exact .nil
  | cons first rest ih => cases first <;> exact .cons trivial ih

theorem balanced_forTest (begin : Nat) (econd : Option Node) : Balanced (forTest begin econd) := by
  cases econd <;> exact .cons trivial (.cons trivial .nil)

theorem stmt_balanced (newlabel : Nat → Nat) (s : Stmt) (lbreak lcont : Option Nat) (n : Nat) :
    Balanced (stmt newlabel lbreak lcont n s).1 := by
  induction s generalizing lbreak lcont n with
  | skip => exact .nil
  | seq first rest ih₁ ih₂ => exact (ih₁ ..).append (ih₂ ..)
  | label sym body ih => exact .cons trivial (ih ..)
  | «while» cond body ih =>
    refine .cons trivial (.cons trivial (.cons trivial ((ih ..).append ?_)))
    exact .cons trivial (.cons trivial (.cons trivial (.cons trivial (.cons trivial .nil))))
  | dowhile body cond ih =>
    refine .cons trivial (.cons trivial ((ih ..).append ?_))
    exact .cons trivial (.cons trivial (.cons trivial (.cons trivial (.cons trivial .nil))))
  | «for» init econd einc body ih =>
    refine (balanced_init init).append ?_
    refine .cons trivial (.cons trivial (.cons trivial ((ih ..).append ?_)))
    refine .cons trivial (.cons trivial (.cons trivial ((balanced_forTest ..).append ?_)))
    exact .cons trivial (.cons trivial .nil)
  | «if» cond body ih =>
    exact .cons trivial (.cons trivial ((ih ..).append (.cons trivial .nil)))
  | ifelse cond body other ih₁ ih₂ =>
    refine .cons trivial (.cons trivial ((ih₁ ..).append ?_))
    exact .cons trivial (.cons trivial ((ih₂ ..).append (.cons trivial .nil)))
  | «break» =>
    cases lbreak with
    | none => exact .nil
    | some sym => exact .cons trivial .nil
  | «continue» =>
    cases lcont with
    | none => exact .nil
    | some sym => exact .cons trivial .nil
  | «return» np => exact .cons trivial (.cons trivial .nil)
  | switch cond body ih =>
    have inner := ih (some (newlabel n)) lcont (n + 1)
    have operand : Balanced (.OEXPR (switchCond cond) ::
        (stmt newlabel (some (newlabel n)) lcont (n + 1) body).1) := .cons trivial inner
    exact .switch operand _ (.cons trivial .nil)
  | case np body ih => exact .case _ np (.cons trivial (ih ..))
  | default body ih => exact .default _ (.cons trivial (ih ..))
  | _ => exact .cons trivial .nil

end Scc.Cc1
