import Mathlib.Algebra.Ring.Nat
import Scc.Cc2.Statement

set_option linter.all false

/-! The jump optimisation of the QBE target (`optm_dep`), applied to the statements of a
function while the list is traversed (`apply`, with `delstmt` and `addstmt`). -/
namespace Scc.Cc2.Qbe
open Transition

/-- A statement in the list; `label` starts a basic block of the generated code. -/
structure Entry (E : Type) where
  stmt : Stmt E
  label : Option Sym

variable {E W V Ev : Type}

/-- What a call of `optm_dep` leaves behind: the node, unless `NULL` was returned, the
statements after it and the last number taken by `getsym(TMPSYM)`. -/
structure Visited (E : Type) where
  np : Option (Entry E)
  next : List (Entry E)
  num : Nat

def labelNext (num : Nat) : List (Entry E) → List (Entry E) × Nat
  | next :: rest =>
    match next.label with
    | none => ({ next with label := some (.tmp (num + 1)) } :: rest, num + 1)
    | some _ => (next :: rest, num)
  | [] => ([], num)

/-- The destination after following jumps to jumps, at most `fuel` of them. -/
def thread (stmtOf : Sym → Option (Stmt E)) : Nat → Sym → Sym
  | 0, sym => sym
  | fuel + 1, sym =>
    match stmtOf sym with
    | some (.OJMP sym') => thread stmtOf fuel sym'
    | _ => sym

/-- Only labels and loop markers stand before the destination. -/
def falls (dst : Sym) : List (Stmt E) → Bool
  | .ONOP sym :: rest => sym = dst || falls dst rest
  | .OBLOOP :: rest | .OELOOP :: rest => falls dst rest
  | _ => false

def needsRet (prev : Option (Stmt E)) : Bool :=
  match prev with
  | some (.ORET _) | some (.OJMP _) => false
  | _ => true

def optmDep (stmtOf : Sym → Option (Stmt E)) (fuel : Nat) (prev : Option (Entry E)) (num : Nat)
    (np : Entry E) (next : List (Entry E)) : Visited E :=
  match np.stmt with
  | .OEFUN =>
    if needsRet (prev.map Entry.stmt) then ⟨some np, ⟨.ORET none, none⟩ :: next, num⟩
    else ⟨some np, next, num⟩
  | .OBRANCH sym left =>
    let (next, num) := labelNext num next
    let dst := thread stmtOf fuel sym
    if falls dst (next.map Entry.stmt) then ⟨none, next, num⟩
    else ⟨some { np with stmt := .OBRANCH dst left }, next, num⟩
  | .OJMP sym =>
    let dst := thread stmtOf fuel sym
    if falls dst (next.map Entry.stmt) then ⟨none, next, num⟩
    else ⟨some { np with stmt := .OJMP dst }, next, num⟩
  | _ => ⟨some np, next, num⟩

/-- Visits a node can still cause: an `OEFUN` may add an `ORET`. -/
def visit : Stmt E → Nat
  | .OEFUN => 2
  | _ => 1

def visits (nodes : List (Entry E)) : Nat := (nodes.map fun np => visit np.stmt).sum

theorem visit_pos (stmt : Stmt E) : 0 < visit stmt := by
  cases stmt <;> simp [visit]

theorem visits_cons (np : Entry E) (next : List (Entry E)) :
    visits (np :: next) = visit np.stmt + visits next := by
  simp [visits]

theorem visits_labelNext (num : Nat) (nodes : List (Entry E)) :
    visits (labelNext num nodes).1 = visits nodes := by
  cases nodes with
  | nil => rfl
  | cons np rest => cases h : np.label <;> simp [labelNext, visits_cons, h]

theorem visits_optmDep (stmtOf : Sym → Option (Stmt E)) (fuel : Nat) (prev : Option (Entry E))
    (num : Nat) (np : Entry E) (next : List (Entry E)) :
    visits (optmDep stmtOf fuel prev num np next).next < visits (np :: next) := by
  have pos := visit_pos np.stmt
  rw [visits_cons]
  unfold optmDep
  split
  · rename_i h
    split <;> simp only [visits_cons, h, visit] <;> omega
  · simp only
    split <;> rw [visits_labelNext] <;> omega
  · simp only
    split <;> simp only <;> omega
  · simp only
    omega

def apply (stmtOf : Sym → Option (Stmt E)) (fuel : Nat) (prev : Option (Entry E)) (num : Nat) :
    List (Entry E) → List (Entry E)
  | [] => []
  | np :: next =>
    let visited := optmDep stmtOf fuel prev num np next
    match visited.np with
    | none => apply stmtOf fuel prev visited.num visited.next
    | some np' => np' :: apply stmtOf fuel (some np') visited.num visited.next
termination_by nodes => visits nodes
decreasing_by all_goals exact visits_optmDep ..

/-- `u.stmt` of a label. -/
def stmtOf (stmts : List (Stmt E)) (sym : Sym) : Option (Stmt E) :=
  (seek Stmt.labelOf sym stmts).bind List.head?

/-- `apply(optm_dep)` on the statements of a function. -/
def optm (num : Nat) (nodes : List (Entry E)) : List (Entry E) :=
  apply (stmtOf (nodes.map Entry.stmt)) nodes.length none num nodes

/-! What the pass does to the statements alone: a jump or branch is dropped when it
falls to its destination, everything else stays as it is. -/

def drops (stmt : Stmt E) (next : List (Stmt E)) : Bool :=
  match stmt with
  | .OJMP sym | .OBRANCH sym _ => falls sym next
  | _ => false

def optimized (prev : Option (Stmt E)) : List (Stmt E) → List (Stmt E)
  | [] => []
  | .OEFUN :: next =>
    if needsRet prev then .OEFUN :: .ORET none :: optimized (some (.ORET none)) next
    else .OEFUN :: optimized (some .OEFUN) next
  | stmt :: next =>
    if drops stmt next then optimized prev next else stmt :: optimized (some stmt) next

theorem thread_label (stmts : List (Stmt E)) (fuel : Nat) (sym : Sym) :
    thread (stmtOf stmts) fuel sym = sym := by
  cases fuel with
  | zero => rfl
  | succ fuel =>
    unfold thread stmtOf
    cases found : seek Stmt.labelOf sym stmts with
    | none => rfl
    | some code =>
      obtain ⟨stmt, rest, rfl, label⟩ := seek_head found
      cases stmt <;> simp_all [Stmt.labelOf]

theorem stmts_labelNext (num : Nat) (nodes : List (Entry E)) :
    (labelNext num nodes).1.map Entry.stmt = nodes.map Entry.stmt := by
  cases nodes with
  | nil => rfl
  | cons np rest => cases h : np.label <;> simp [labelNext, h]

/-- The statements added after a node, which the traversal visits next. -/
def added (prev : Option (Stmt E)) : Stmt E → List (Stmt E)
  | .OEFUN => if needsRet prev then [.ORET none] else []
  | _ => []

theorem optmDep_np (stmts : List (Stmt E)) (fuel : Nat) (prev : Option (Entry E)) (num : Nat)
    (np : Entry E) (next : List (Entry E)) :
    (optmDep (stmtOf stmts) fuel prev num np next).np.map Entry.stmt =
      if drops np.stmt (next.map Entry.stmt) then none else some np.stmt := by
  obtain ⟨stmt, label⟩ := np
  cases stmt with
  | OEFUN =>
    simp only [optmDep]
    split <;> rfl
  | OBRANCH sym left =>
    cases falling : falls sym (next.map Entry.stmt) <;>
      simp [optmDep, drops, thread_label, stmts_labelNext, falling]
  | OJMP sym =>
    cases falling : falls sym (next.map Entry.stmt) <;>
      simp [optmDep, drops, thread_label, falling]
  | _ => rfl

theorem optmDep_next (stmts : List (Stmt E)) (fuel : Nat) (prev : Option (Entry E)) (num : Nat)
    (np : Entry E) (next : List (Entry E)) :
    (optmDep (stmtOf stmts) fuel prev num np next).next.map Entry.stmt =
      added (prev.map Entry.stmt) np.stmt ++ next.map Entry.stmt := by
  obtain ⟨stmt, label⟩ := np
  cases stmt with
  | OEFUN =>
    simp only [optmDep, added]
    split <;> rfl
  | OBRANCH sym left =>
    simp only [optmDep, thread_label]
    split <;> exact stmts_labelNext num next
  | OJMP sym =>
    simp only [optmDep, thread_label]
    split <;> rfl
  | _ => rfl

theorem optimized_cons (prev : Option (Stmt E)) (stmt : Stmt E) (next : List (Stmt E)) :
    optimized prev (stmt :: next) =
      if drops stmt next then optimized prev next
      else stmt :: optimized (some stmt) (added prev stmt ++ next) := by
  cases stmt with
  | OEFUN =>
    simp only [optimized, added, drops]
    split <;> rfl
  | _ => rfl

theorem apply_stmts (stmts : List (Stmt E)) (fuel : Nat) (prev : Option (Entry E)) (num : Nat)
    (nodes : List (Entry E)) :
    (apply (stmtOf stmts) fuel prev num nodes).map Entry.stmt =
      optimized (prev.map Entry.stmt) (nodes.map Entry.stmt) := by
  induction prev, num, nodes using apply.induct (stmtOf stmts) fuel with
  | case1 prev num =>
    rw [apply]
    rfl
  | case2 prev num np next visited deleted ih =>
    have verdict := optmDep_np stmts fuel prev num np next
    have later := optmDep_next stmts fuel prev num np next
    have dropped : drops np.stmt (next.map Entry.stmt) = true := by
      by_contra kept
      simp [visited, deleted, kept] at verdict
    have nothing : added (prev.map Entry.stmt) np.stmt = [] := by
      cases h : np.stmt <;> simp [h, drops] at dropped <;> rfl
    rw [apply]
    simp only [deleted, visited] at ih ⊢
    rw [ih, later, nothing, List.map_cons, optimized_cons, if_pos dropped, List.nil_append]
  | case3 prev num np next visited np' kept ih =>
    have verdict := optmDep_np stmts fuel prev num np next
    have later := optmDep_next stmts fuel prev num np next
    have retained : ¬ drops np.stmt (next.map Entry.stmt) = true := by
      intro dropped
      simp [visited, kept, dropped] at verdict
    have same : np'.stmt = np.stmt := by
      simpa [visited, kept, retained] using verdict
    rw [apply]
    simp only [kept, visited] at ih ⊢
    rw [List.map_cons, ih, later, List.map_cons, optimized_cons, if_neg retained, same,
      Option.map_some, same]

section
attribute [local simp] optmDep
end

end Scc.Cc2.Qbe
