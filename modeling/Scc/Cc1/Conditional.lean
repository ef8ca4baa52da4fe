import Mathlib.Logic.Function.Basic
import Mathlib.Tactic.Basic

set_option linter.all false

/-! Conditional inclusion of cc1 (`cpp.c`): the nesting stack, the shared count of
switched-off levels and the directives that update them. The macro table is an
arbitrary type: a condition is a function of it and an accepted line changes it.
The reference selection of C99 6.10.1 is defined on nested chains, apart from the code. -/
namespace Scc.Cc1.Conditional

/-- Translation limit on nested conditional inclusion (`cstd-c99.h`). -/
def NR_COND : Nat := 63

structure IfState where
  enabled : Bool
  iselse : Bool
  deriving DecidableEq, Repr

/-- The static variables of `cpp.c` that conditional inclusion reads and writes. -/
structure State (M : Type) where
  cppctx : Nat
  cppoff : Int
  ifstate : Nat → IfState
  macros : M
  failure : Bool

def State.init (m : M) : State M := ⟨0, 0, fun _ => ⟨false, false⟩, m, false⟩

/-- `error()` ends the compiler; `cpperror()` only sets `failure`. -/
inductive Fatal where
  | tooManyLevels
  | endifWithoutIf
  deriving DecidableEq, Repr

/-- `#ifdef`/`#ifndef` look a name up, `#if` evaluates a constant expression;
`none` is a directive without a name or whose operand is not constant. -/
inductive Clause (M : Type) where
  | ifdef (negate : Bool) (declared : M → Option Bool)
  | cppif (constexpr : M → Option Int)

def Clause.status (m : M) : Clause M → Option Bool
  | .ifdef negate declared => (declared m).map (negate ^^ ·)
  | .cppif constexpr => (constexpr m).map (· != 0)

inductive Line (M : Type) where
  /-- A text line or a non-conditional directive, with its effect on the macros. -/
  | other (act : M → M)
  | ifclause (clause : Clause M)
  | elif (constexpr : M → Option Int)
  | cppelse
  | endif

def setState (s : State M) (n : Nat) (status : Bool) : State M :=
  { s with
    cppoff := if status then s.cppoff else s.cppoff + 1
    ifstate := Function.update s.ifstate n ⟨status, false⟩ }

def ifclause (clause : Clause M) (s : State M) : Except Fatal (State M) :=
  if s.cppctx = NR_COND - 1 then
    .error .tooManyLevels
  else
    let n := s.cppctx
    let s := { s with cppctx := n + 1 }
    if s.cppoff ≠ 0 then
      .ok (setState s n false)
    else
      match clause.status s.macros with
      | none => .ok { s with failure := true }
      | some status => .ok (setState s n status)

def elseclause (s : State M) : State M :=
  let status := (s.ifstate (s.cppctx - 1)).enabled
  { s with
    ifstate := Function.update s.ifstate (s.cppctx - 1)
      { s.ifstate (s.cppctx - 1) with enabled := !status }
    cppoff := s.cppoff + if status then 1 else -1 }

/-- No open chain, or its `#else` has been seen already. -/
def misplaced (s : State M) : Bool := s.cppctx = 0 || (s.ifstate (s.cppctx - 1)).iselse

def cppelse (s : State M) : State M :=
  if misplaced s then
    { s with failure := true }
  else
    elseclause { s with
      ifstate := Function.update s.ifstate (s.cppctx - 1)
        { s.ifstate (s.cppctx - 1) with iselse := true } }

def elif (constexpr : M → Option Int) (s : State M) : Except Fatal (State M) :=
  if misplaced s then
    .ok { s with failure := true }
  else
    let s := elseclause s
    if (s.ifstate (s.cppctx - 1)).enabled then
      ifclause (.cppif constexpr) { s with cppctx := s.cppctx - 1 }
    else
      .ok s

def endif (s : State M) : Except Fatal (State M) :=
  if s.cppctx = 0 then
    .error .endifWithoutIf
  else
    let s := { s with cppctx := s.cppctx - 1 }
    .ok { s with cppoff := if (s.ifstate s.cppctx).enabled then s.cppoff else s.cppoff - 1 }

/-- One line; a line that is not a conditional directive also reports whether it
was acted upon (`cpp` drops it, and its handler returns at once, when `cppoff` is set). -/
def cpp (s : State M) : Line M → Except Fatal (State M × List Bool)
  | .other act =>
    if s.cppoff ≠ 0 then .ok (s, [false]) else .ok ({ s with macros := act s.macros }, [true])
  | .ifclause clause => (ifclause clause s).map (·, [])
  | .elif constexpr => (elif constexpr s).map (·, [])
  | .cppelse => .ok (cppelse s, [])
  | .endif => (endif s).map (·, [])

def run (s : State M) : List (Line M) → Except Fatal (State M × List Bool)
  | [] => .ok (s, [])
  | line :: rest => do
    let (s, first) ← cpp s line
    let (s, later) ← run s rest
    return (s, first ++ later)

/-! Properly nested sequences of lines, whose conditions have a truth value for
every macro table. -/

inductive Opening (M : Type) where
  | ifdef (negate : Bool) (declared : M → Bool)
  | cppif (constexpr : M → Int)

def Opening.holds (m : M) : Opening M → Bool
  | .ifdef negate declared => negate ^^ declared m
  | .cppif constexpr => constexpr m != 0

def Opening.clause : Opening M → Clause M
  | .ifdef negate declared => .ifdef negate (fun m => some (declared m))
  | .cppif constexpr => .cppif (fun m => some (constexpr m))

mutual
inductive Block (M : Type) where
  | nil
  | other (act : M → M) (rest : Block M)
  | chain (opening : Opening M) (body : Block M) (tail : Tail M) (rest : Block M)

/-- What may follow a group up to the matching `#endif`. -/
inductive Tail (M : Type) where
  | endif
  | elif (constexpr : M → Int) (body : Block M) (tail : Tail M)
  | cppelse (body : Block M)
end

mutual
def Block.lines : Block M → List (Line M)
  | .nil => []
  | .other act rest => .other act :: rest.lines
  | .chain opening body tail rest =>
    .ifclause opening.clause :: (body.lines ++ (tail.lines ++ rest.lines))

def Tail.lines : Tail M → List (Line M)
  | .endif => [.endif]
  | .elif constexpr body tail =>
    .elif (fun m => some (constexpr m)) :: (body.lines ++ tail.lines)
  | .cppelse body => .cppelse :: (body.lines ++ [.endif])
end

mutual
def Block.depth : Block M → Nat
  | .nil => 0
  | .other _ rest => rest.depth
  | .chain _ body tail rest => max (max body.depth tail.depth + 1) rest.depth

/-- Nesting of the groups of a chain, its own level not counted. -/
def Tail.depth : Tail M → Nat
  | .endif => 0
  | .elif _ body tail => max body.depth tail.depth
  | .cppelse body => body.depth
end

mutual
/-- Number of lines that are not conditional directives. -/
def Block.texts : Block M → Nat
  | .nil => 0
  | .other _ rest => rest.texts + 1
  | .chain _ body tail rest => body.texts + (tail.texts + rest.texts)

def Tail.texts : Tail M → Nat
  | .endif => 0
  | .elif _ body tail => body.texts + tail.texts
  | .cppelse body => body.texts
end

def Block.skip (b : Block M) : List Bool := List.replicate b.texts false
def Tail.skip (t : Tail M) : List Bool := List.replicate t.texts false

mutual
/-- C99 group selection of a processed block: the macros after it, and for each of
its lines whether it is kept. -/
def Block.keep (m : M) : Block M → M × List Bool
  | .nil => (m, [])
  | .other act rest =>
    let after := rest.keep (act m)
    (after.1, true :: after.2)
  | .chain opening body tail rest =>
    let group := if opening.holds m then body.keep m else (m, body.skip)
    let others := tail.keep (opening.holds m) group.1
    let after := rest.keep others.1
    (after.1, group.2 ++ (others.2 ++ after.2))

/-- `taken` says that an earlier group of the chain has been kept. -/
def Tail.keep (taken : Bool) (m : M) : Tail M → M × List Bool
  | .endif => (m, [])
  | .elif constexpr body tail =>
    let kept := !taken && constexpr m != 0
    let group := if kept then body.keep m else (m, body.skip)
    let others := tail.keep (taken || kept) group.1
    (others.1, group.2 ++ others.2)
  | .cppelse body => if taken then (m, body.skip) else body.keep m
end

end Scc.Cc1.Conditional
