import Scc.Cc2.Qbe.Code
import Scc.Cc2.Qbe.Optm

set_option linter.all false

/-! The code of a whole function in the QBE target (`rhs`, `lhs`, `bool` and `cgen` in `cgen.c`; `getbblocks`
and `writeout` in `code.c`). The recursion on trees has fuel, since an assignment generates the code of
a tree that it makes up. -/
namespace Scc.Cc2.Qbe.Code
open Transition

/-- What `function` reads of a symbol of the function. -/
structure Local where
  sym : Sym
  type : CType
  /-- The kind is `SAUTO` and the symbol is not a temporary. -/
  auto : Bool

/-- The globals that are read: the offsets of members, the locals, and what a node that `delstmt` has
freed holds when so many statements remain. -/
structure Globals where
  off : Sym → BitVec 64
  locals : List Local
  freed : Nat → Tree

variable (g : Globals)

/-- The operation of `aux` in the abbreviation of an assignment. -/
def auxnode (op : Op) (type : CType) (left right : Tree) : Tree := .mk op type .zero 0 left right

mutual
def rhs : Nat → Tree → Gen Inst (Option Operand)
  | 0, _ => Gen.fail
  | _ + 1, .nil => Gen.fail
  | _ + 1, .operand v _ =>
    match v.addr with
    | .var _ => load v.type (some v)
    | _ => pure (some v)
  | n + 1, .mk op tp u complex l r =>
    match op with
    | .OCONST => do
      let v ← Gen.ofOption (operandOf (.mk .OCONST tp u complex l r))
      return some v
    | .OMEM | .OREG | .OAUTO => do
      let v ← Gen.ofOption (operandOf (.mk op tp u complex l r))
      load tp (some v)
    | .ONEG | .OAND | .OOR => do
      let ifyes ← newlabel
      let ifno ← newlabel
      let phi ← newlabel
      let tmp ← tmpnode int32type
      bool n (.mk op tp u complex l r) ifyes ifno
      setlabel (some ifyes)
      code .ASCOPYW (some tmp) (some ⟨.const 1, int32type⟩) none
      Gen.emit (.ASJMP phi)
      setlabel (some ifno)
      code .ASCOPYW (some tmp) (some ⟨.const 0, int32type⟩) none
      setlabel (some phi)
      return some tmp
    | .OMOD | .OSHL | .OBAND | .OBOR | .OBXOR | .OSHR =>
      if tp.intf then binary n op tp l r else Gen.fail
    | .ODIV | .OLT | .OGT | .OLE | .OGE | .OADD | .OSUB | .OMUL | .OEQ | .ONE => binary n op tp l r
    | .OCALL | .OCALLE => do
      let fn ← (if l.op = some .OPTR then rhs n l else Gen.ofOption ((operandOf l).map some))
      let pars ← Gen.each (rhs n) (params r)
      Gen.check (pars.length ≤ NR_FUNPARAM)
      let tmp ← tmpnode tp
      code .ASCALL (some tmp) fn none
      pass pars
      code (if op = .OCALL then .ASCALLE else .ASCALLEX) none none none
      return some tmp
    | .OCAST => do
      let v ← rhs n l
      let v ← Gen.ofOption v
      let v ← cast tp v
      return some v
    | .OASSIG => assign n tp u l r
    | .OASK => ternary n tp l r
    | .OCOMMA => do
      let _ ← rhs n l
      rhs n r
    | .OPTR => do
      let v ← rhs n l
      load tp v
    | .OADDR => do
      let v ← lhs n l
      let v ← Gen.ofOption v
      return some { v with type := { tp with ptrf := true } }
    | .OFIELD => field n tp l r false
    | .OBUILTIN =>
      match u with
      | .builtin .BVA_START => do
        let v ← rhs n l
        code .ASVSTAR none v none
        return none
      | .builtin .BVA_END => return none
      | .builtin .BVA_ARG => do
        let v ← rhs n l
        let tmp ← tmpnode tp
        code .ASVARG (some tmp) v none
        return some tmp
      | _ => Gen.fail
    | _ => Gen.fail

/-- The common end of the binary operators in `rhs`. -/
def binary : Nat → Op → CType → Tree → Tree → Gen Inst (Option Operand)
  | 0, _, _, _, _ => Gen.fail
  | n + 1, op, tp, l, r =>
    if tp.size = 4 ∨ tp.size = 8 then do
      let op ← Gen.ofOption (opbin tp.floatf (tp.size = 8) op !tp.signf)
      let (l, r) ← rhs_rhs n l r
      let tmp ← tmpnode tp
      code op (some tmp) l r
      return some tmp
    else Gen.fail

def rhs_rhs : Nat → Tree → Tree → Gen Inst (Option Operand × Option Operand)
  | 0, _, _ => Gen.fail
  | n + 1, l, r =>
    if l = .nil ∨ r = .nil then Gen.fail
    else if r.complex ≤ l.complex then do
      let l ← rhs n l
      let r ← rhs n r
      return (l, r)
    else do
      let r ← rhs n r
      let l ← rhs n l
      return (l, r)

def lhs_rhs : Nat → Tree → Tree → Gen Inst (Option Operand × Option Operand)
  | 0, _, _ => Gen.fail
  | n + 1, l, r =>
    if l = .nil ∨ r = .nil then Gen.fail
    else if r.complex ≤ l.complex then do
      let l ← lhs n l
      let r ← rhs n r
      return (l, r)
    else do
      let r ← rhs n r
      let l ← lhs n l
      return (l, r)

def lhs : Nat → Tree → Gen Inst (Option Operand)
  | 0, _ => Gen.fail
  | _ + 1, .nil => Gen.fail
  | _ + 1, .operand v _ =>
    match v.addr with
    | .var _ => pure (some v)
    | _ => Gen.fail
  | n + 1, .mk op tp u complex l r =>
    match op with
    | .OREG | .OMEM | .OAUTO => do
      let v ← Gen.ofOption (operandOf (.mk op tp u complex l r))
      return some v
    | .OPTR => rhs n l
    | .OFIELD => field n tp l r true
    | _ => Gen.fail

def field : Nat → CType → Tree → Tree → Bool → Gen Inst (Option Operand)
  | 0, _, _, _, _ => Gen.fail
  | n + 1, tp, l, r, islhs =>
    match r with
    | .mk _ _ (.sym sym) _ _ _ => do
      let addr ← rhs n l
      let addr ← Gen.ofOption addr
      let addr ← rhs n (auxnode .OADD ptrtype (.operand addr 0) (constnode (g.off sym) ptrtype))
      if islhs then return addr else load tp addr
    | _ => Gen.fail

def bool : Nat → Tree → Sym → Sym → Gen Inst Unit
  | 0, _, _, _ => Gen.fail
  | _ + 1, .nil, _, _ => Gen.fail
  | n + 1, np, ifyes, ifno =>
    match np with
    | .mk .ONEG _ _ _ l _ => bool n l ifno ifyes
    | .mk .OAND _ _ _ l r => do
      let label ← newlabel
      bool n l label ifno
      setlabel (some label)
      bool n r ifyes ifno
    | .mk .OOR _ _ _ l r => do
      let label ← newlabel
      bool n l ifyes label
      setlabel (some label)
      bool n r ifyes ifno
    | np => do
      let v ← rhs n np
      let v ← Gen.ofOption v
      Gen.emit (.ASBRANCH v.addr ifyes ifno)

def ternary : Nat → CType → Tree → Tree → Gen Inst (Option Operand)
  | 0, _, _, _ => Gen.fail
  | n + 1, tp, l, colon =>
    match colon with
    | .mk _ _ _ _ left right => do
      let tmp ← tmpnode tp
      let ifyes ← newlabel
      let ifno ← newlabel
      let phi ← newlabel
      let v ← rhs n l
      let v ← Gen.ofOption v
      Gen.emit (.ASBRANCH v.addr ifyes ifno)
      setlabel (some ifyes)
      let v ← rhs n left
      copy tmp.type tmp v
      Gen.emit (.ASJMP phi)
      setlabel (some ifno)
      let v ← rhs n right
      copy tmp.type tmp v
      setlabel (some phi)
      return some tmp
    | _ => Gen.fail

def assign : Nat → CType → Payload → Tree → Tree → Gen Inst (Option Operand)
  | 0, _, _, _, _ => Gen.fail
  | n + 1, tp, u, l, r =>
    match u with
    | .subop .OINC => postoper n tp .OADD l r
    | .subop .ODEC => postoper n tp .OSUB l r
    | .subop op =>
      if l = .nil ∨ r = .nil ∨ l.type.size ≠ r.type.size then Gen.fail
      else if r.type.size < 4 then do
        let (l, r) ← lhs_rhs n l r
        let r ← Gen.ofOption r
        let left ← load r.type l
        let left ← Gen.ofOption left
        let ret ← rhs n (auxnode op int32type (.operand left 0) (.operand r 0))
        let op ← Gen.ofOption (assignop tp)
        code op l ret none
        return ret
      else do
        let r ← Gen.ofOption (sethi (auxnode op tp l r))
        store n tp l r
    | _ => store n tp l r

/-- The end of `assign` where `ret` is the operand that is stored. -/
def store : Nat → CType → Tree → Tree → Gen Inst (Option Operand)
  | 0, _, _, _ => Gen.fail
  | n + 1, tp, l, r => do
    let (l, r) ← lhs_rhs n l r
    let op ← Gen.ofOption (assignop tp)
    code op l r none
    return r

def postoper : Nat → CType → Op → Tree → Tree → Gen Inst (Option Operand)
  | 0, _, _, _, _ => Gen.fail
  | n + 1, tp, op, l, r => do
    let (l, r) ← lhs_rhs n l r
    let l ← Gen.ofOption l
    let ret ← load l.type (some l)
    let ret ← Gen.ofOption ret
    let r ← Gen.ofOption r
    let aux ← Gen.ofOption (sethi (auxnode op tp (.operand ret 0) (.operand r 0)))
    let r ← rhs n aux
    let op ← Gen.ofOption (assignop tp)
    code op (some l) r none
    return some ret
end

/-- Stack space for parameters and for local variables, and the stores of the parameters. -/
def function : Gen Inst Unit := do
  let _ ← Gen.each (fun p => code .ASALLOC (some ⟨.var p.sym, p.type⟩) none none)
    (g.locals.filter fun p => p.type.parf && !p.type.aggrf)
  let _ ← Gen.each (fun p => code .ASALLOC (some ⟨.var p.sym, p.type⟩) none none)
    (g.locals.filter fun p => !p.type.parf && p.auto)
  let _ ← Gen.each (fun p => code .ASFORM (some ⟨.var p.sym, p.type⟩) none none)
    (g.locals.filter fun p => p.type.parf && !p.type.aggrf && !(p.type.arrf || p.type.aggrf))

/-- The switch whose table comes next: the node of its operand, and the label of the `default` met so
far. -/
structure Switch where
  idx : Operand
  deflabel : Option Sym

/-- `idx` is read after its tree was freed, unless the tree made it a temporary. -/
def Switch.operand (sw : Switch) (remain : Nat) : Tree :=
  match sw.idx.addr with
  | .tmp _ => .operand sw.idx 0
  | _ => g.freed remain

/-- The label of the next statement, which a branch makes when there is none. -/
def nextlabel : List (Entry Tree) → Gen Inst Sym
  | [] => Gen.fail
  | np :: _ =>
    match np.label with
    | none => newlabel
    | some sym => pure sym

/-- `cgen` of the statements, each of which is deleted after it; `label` is the one that a branch has
given to the first. -/
def cgen (fuel : Nat) (label : Option Sym) (sw : Option Switch) : List (Entry Tree) → Gen Inst Unit
  | [] => if sw.isNone then pure () else Gen.fail
  | np :: next => do
    setlabel (label <|> np.label)
    match sw, np.stmt with
    | none, .OBFUN => do
      function g
      cgen fuel none none next
    | none, .ONOP _ | none, .OBLOOP | none, .OELOOP | none, .OEFUN => cgen fuel none none next
    | none, .OJMP sym => do
      Gen.emit (.ASJMP sym)
      cgen fuel none none next
    | none, .OBRANCH sym left => do
      let label ← nextlabel next
      bool g fuel left sym label
      cgen fuel (some label) none next
    | none, .ORET none => do
      Gen.emit (.ASRET none)
      cgen fuel none none next
    | none, .ORET (some left) => do
      let p ← rhs g fuel left
      Gen.emit (.ASRET (p.map Operand.addr))
      cgen fuel none none next
    | none, .OBSWITCH left _ => do
      let p ← rhs g fuel left
      let idx ← Gen.ofOption p
      cgen fuel none (some ⟨idx, none⟩) next
    | none, .expr np => do
      let _ ← rhs g fuel np
      cgen fuel none none next
    | some sw, .OESWITCH sym => do
      Gen.emit (.ASJMP (sw.deflabel.getD sym))
      cgen fuel none none next
    | some sw, .OCASE sym left => do
      let label ← nextlabel next
      let idx := sw.operand g next.length
      bool g fuel (auxnode .OEQ idx.type left idx) sym label
      cgen fuel (some label) (some sw) next
    | some sw, .ODEFAULT sym => cgen fuel none (some { sw with deflabel := some sym }) next
    | _, _ => Gen.fail

/-- `sethi` of the tree of a statement. -/
def sethiStmt : Stmt Node → Option (Stmt Tree)
  | .OBFUN => some .OBFUN
  | .OEFUN => some .OEFUN
  | .ONOP sym => some (.ONOP sym)
  | .OJMP sym => some (.OJMP sym)
  | .OBRANCH sym left => (sethi (.ofNode left)).map (.OBRANCH sym)
  | .ORET none => some (.ORET none)
  | .ORET (some left) => (sethi (.ofNode left)).map fun left => .ORET (some left)
  | .OBLOOP => some .OBLOOP
  | .OELOOP => some .OELOOP
  | .OBSWITCH left nr => (sethi (.ofNode left)).map (.OBSWITCH · nr)
  | .OCASE sym left => (sethi (.ofNode left)).map (.OCASE sym)
  | .ODEFAULT sym => some (.ODEFAULT sym)
  | .OESWITCH sym => some (.OESWITCH sym)
  | .expr np => (sethi (.ofNode np)).map .expr

def sethiEntry (np : Entry Node) : Option (Entry Tree) := (sethiStmt np.stmt).map (⟨·, np.label⟩)

/-- The last number taken by `apply(optm_dep)`. -/
def optmNum (stmtOf : Sym → Option (Stmt E)) (fuel : Nat) (prev : Option (Entry E)) (num : Nat) : List (Entry E) → Nat
  | [] => num
  | np :: next =>
    let visited := optmDep stmtOf fuel prev num np next
    match visited.np with
    | none => optmNum stmtOf fuel prev visited.num visited.next
    | some np' => optmNum stmtOf fuel (some np') visited.num visited.next
termination_by nodes => visits nodes
decreasing_by all_goals exact visits_optmDep ..

/-! The instructions of a function and their output. -/

/-- The instruction after these begins a basic block. -/
def Inst.ends : Inst → Bool
  | .ASBRANCH .. | .ASJMP _ | .ASRET _ => true
  | _ => false

/-- The instructions with their flag `BBENTRY`: the first one, the targets, and those after a transfer of
control. -/
def mark (targets : List Sym) (entry : Bool) : List Inst → List (Inst × Bool)
  | [] => []
  | pc :: next => (pc, entry || pc.labelOf.any (· ∈ targets)) :: mark targets pc.ends next

/-- The pointer of a label that is not set is null. -/
def getbblocks (prog : List Inst) : Option (List (Inst × Bool)) :=
  let targets := prog.flatMap Inst.targets
  if ∀ sym ∈ targets, sym ∈ labels Inst.labelOf prog then some (mark targets true prog) else none

/-- A line of the output between the braces. -/
inductive Line where
  | label (sym : Sym)
  | inst (pc : Inst)
  deriving DecidableEq, Repr

def writeout (num : Nat) (haslabel : Bool) : List (Inst × Bool) → List Line
  | [] => []
  | (.ASLABEL sym, _) :: next => .label sym :: writeout num true next
  | (pc, bbentry) :: next =>
    if bbentry && !haslabel then .label (.tmp (num + 1)) :: .inst pc :: writeout (num + 1) false next
    else .inst pc :: writeout num false next

/-- The node of a statement that was just read; `labeldcl` gives its label to an `ONOP`. -/
def entry (stmt : Stmt E) : Entry E := ⟨stmt, stmt.labelOf⟩

/-- `main`, from the statements of a function to its lines; `num` is the last number taken before. -/
def compile (fuel num : Nat) (stmts : List (Stmt Node)) : Option (List Line) := do
  let nodes := stmts.map entry
  let num' := optmNum (stmtOf stmts) nodes.length none num nodes
  let nodes ← (optm num nodes).mapM sethiEntry
  let (_, prog, last) ← cgen g fuel none none nodes num'
  let prog ← getbblocks prog
  return writeout last false prog

end Scc.Cc2.Qbe.Code
