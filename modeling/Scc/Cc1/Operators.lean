import Scc.Cc1.Evaluation

set_option linter.all false

/-! Conversions and operators on the trees that are evaluated (`expr.c`), and what the language asks
of them. -/
namespace Scc.Cc1.Fold
open Arithmetic

/-! The types of amd64 that have no name of their own in C. -/

def sizettype : CType := integerType 'O' 8 3 false
def pdifftype : CType := integerType 'Q' 8 4 true
def wchartype : CType := integerType 'Z' 4 3 true

section
variable (fp : Floats) (syms : Symbols)

/-- `convert`, over `eqtype` with EQUIV for pointers; `nil` when there is no conversion. -/
def convert (equiv : CType → CType → Bool) (np : Node) (newtp : CType) (iscast : Bool) : Node :=
  let oldtp := np.type
  let op := newtp.op
  let arith := op = .INT || op = .FLOAT || op = .ENUM
  let good :=
    (iscast && op = .VOID) ||
    match oldtp.op with
    | .ENUM | .INT => (op = .PTR && (iscast || cmpnode fp syms np 0)) || arith
    | .FLOAT => arith
    | .PTR =>
      if op = .ENUM || op = .INT then iscast
      else op = .PTR && (equiv newtp oldtp || iscast || newtp = pvoidtype || oldtp = pvoidtype)
    | _ => false
  if eqtype newtp oldtp then np
  else if good then node .OCAST newtp np .nil
  else .nil

variable (equiv : CType → CType → Bool)

def promote (np : Node) : Node :=
  match np.type.op with
  | .ENUM | .INT =>
    if np.type.rank ≥ inttype.rank then np
    else
      match convert fp syms equiv np (promotedType np.type) true with
      | .nil => np
      | new => new
  | _ =>
    match convert fp syms equiv np doubletype true with
    | .nil => np
    | new => new

def arithconv (p1 p2 : Node) : Node × Node :=
  let np1 := promote fp syms equiv p1
  let np2 := promote fp syms equiv p2
  let dir := convDirection np1.type np2.type
  if dir > 0 then (np1, convert fp syms equiv np2 np1.type true)
  else if dir < 0 then (convert fp syms equiv np1 np2.type true, np2)
  else (np1, np2)

def integerop (op : Op) (lp rp : Node) : Except String Node :=
  if !lp.type.tinteger || !rp.type.tinteger then .error "operator requires integer operands"
  else
    match op with
    | .OA_MOD | .OA_SHL | .OA_SHR | .OA_AND | .OA_XOR | .OA_OR =>
      .ok (node op lp.type lp (convert fp syms equiv rp lp.type false))
    | _ =>
      let (lp, rp) := arithconv fp syms equiv lp rp
      .ok (node op lp.type lp rp)

end

/-! The integer types. -/

/-- Those of the target; `schartype` is a second `chartype`. -/
def integerTypes : List CType :=
  [booltype, chartype, uchartype, shorttype, ushorttype, inttype, uinttype, longtype, ulongtype, llongtype,
    ullongtype, sizettype, pdifftype, wchartype]

def Integer (tp : CType) : Prop := tp ∈ integerTypes ∨ ∃ id, tp = enumType id

/-- The types of the language that the integer promotions leave. -/
inductive Standard where
  | int | uint | long | ulong | llong | ullong
  deriving DecidableEq, Repr

def Standard.rank : Standard → Nat
  | .int | .uint => 3
  | .long | .ulong => 4
  | .llong | .ullong => 5

/-- The values of the type. -/
def Standard.ints : Standard → IntType
  | .int => ⟨32, true⟩
  | .uint => ⟨32, false⟩
  | .long | .llong => ⟨64, true⟩
  | .ulong | .ullong => ⟨64, false⟩

def Standard.unsigned : Standard → Standard
  | .int | .uint => .uint
  | .long | .ulong => .ulong
  | .llong | .ullong => .ullong

/-- Every value of one type is a value of the other. -/
def within (t t' : IntType) : Bool := t'.min ≤ t.min && t.max ≤ t'.max

/-- The common type of an unsigned and a signed type. -/
def Standard.mixed (u i : Standard) : Standard :=
  if u.rank ≥ i.rank then u
  else if within u.ints i.ints then i
  else i.unsigned

/-- The common type of two promoted types. -/
def Standard.common (t t' : Standard) : Standard :=
  if t.ints.signed = t'.ints.signed then if t.rank ≥ t'.rank then t else t'
  else if t.ints.signed then Standard.mixed t' t
  else Standard.mixed t t'

/-- The type of the language that a type of cc1 has once it is promoted: `size_t` is declared
as `unsigned long`, `ptrdiff_t` as `long`, `wchar_t` as `int`, and an enumeration has values of `int`. -/
def standard (tp : CType) : Standard :=
  if tp = uinttype then .uint
  else if tp = longtype || tp = pdifftype then .long
  else if tp = ulongtype || tp = sizettype then .ulong
  else if tp = llongtype then .llong
  else if tp = ullongtype then .ullong
  else .int

def Standard.type : Standard → CType
  | .int => inttype
  | .uint => uinttype
  | .long => longtype
  | .ulong => ulongtype
  | .llong => llongtype
  | .ullong => ullongtype

/-- A type of cc1 that is this type of the language, or is not told apart from it. -/
def Standard.is (t : Standard) (tp : CType) : Bool := eqtype tp t.type || (t = .int && tp = wchartype)

/-- What is asked of `arithconv`. -/
structure Usual (fp : Floats) (syms : Symbols) (equiv : CType → CType → Bool) (p1 p2 : Node) : Prop where
  same : eqtype (arithconv fp syms equiv p1 p2).1.type (arithconv fp syms equiv p1 p2).2.type = true
  left : ((standard p1.type).common (standard p2.type)).is (arithconv fp syms equiv p1 p2).1.type = true
  right : ((standard p1.type).common (standard p2.type)).is (arithconv fp syms equiv p1 p2).2.type = true
  leftValue : ∀ {σ : Type} (M : Machine σ) (s : σ), eval M syms (arithconv fp syms equiv p1 p2).1 s =
    (eval M syms p1 s).map fun out => (((standard p1.type).common (standard p2.type)).ints.convert out.1, out.2)
  rightValue : ∀ {σ : Type} (M : Machine σ) (s : σ), eval M syms (arithconv fp syms equiv p1 p2).2 s =
    (eval M syms p2 s).map fun out => (((standard p1.type).common (standard p2.type)).ints.convert out.1, out.2)

/-- The types for which `arithconv` finds the common one: of two with the rank of `int` none is an
enumeration, and they are one type, or a signed and an unsigned one that are not taken for the same. -/
def consistent (tp1 tp2 : CType) : Bool :=
  tp1.rank ≠ inttype.rank || tp2.rank ≠ inttype.rank ||
    (tp1.op ≠ .ENUM && tp2.op ≠ .ENUM && (tp1 = tp2 || (tp1.tsigned ≠ tp2.tsigned && !eqtype tp1 tp2)))

/-! Shifts. -/

def shift (op : Op) (t : IntType) (v w : Int) : Option Int := if op = .OSHL then t.shl v w else t.shr v w

/-- What is asked of the tree for a shift: the type of the promoted left operand alone, and its
value shifted in that type where the language says what it is. -/
structure Shifted (syms : Symbols) (op : Op) (lp rp tree : Node) : Prop where
  type : (standard lp.type).is tree.type = true
  value : ∀ {σ : Type} (M : Machine σ) (s s1 s2 : σ) (v w x : Int), eval M syms lp s = some (v, s1) →
    eval M syms rp s1 = some (w, s2) → shift op (standard lp.type).ints v w = some x →
    eval M syms tree s = some (x, s2)

/-- The left operand is no enumeration, and `arithconv` keeps its promoted type. -/
def keepsLeft (tp1 tp2 : CType) : Bool := tp1.op ≠ .ENUM && (convDirection tp1 tp2 ≥ 0 || eqtype tp2 tp1)

/-! The operands of a `switch` (`stmt.c`). The expressions are those that `simplify` leaves. -/

section
variable (fp : Floats) (syms : Symbols) (equiv : CType → CType → Bool)

/-- `simplify` of a cast. -/
def simplifycast (np : Node) : Option (Node × Symbols) := do
  let (np, syms) ← foldunary fp syms np
  fold fp syms np

/-- `simplify(convert(np, inttype, 0))`, with `nil` for the null pointer. -/
def intexpr (np : Node) : Option (Node × Symbols) :=
  if eqtype inttype np.type then some (np, syms)
  else
    match convert fp syms equiv np inttype false with
    | .nil => some (.nil, syms)
    | new => simplifycast fp syms new

/-- The controlling expression that `Swtch` emits; `none` where it reports an error. -/
def swtchcond (np : Node) : Option (Node × Symbols) := do
  let (np, syms) ← intexpr fp syms equiv np
  if np = .nil then none else return (np, syms)

/-- `constexpr`, for the constant that `Case` emits; `none` where it reports an error. -/
def constexpr (np : Node) : Option (Node × Symbols) :=
  if np.type.op = .INT then do
    let (np, syms) ← intexpr fp syms equiv np
    if np.nconst then return (np, syms) else none
  else none

end

/-- A constant is a leaf with a value of its type. -/
def Ranged (syms : Symbols) (np : Node) : Prop :=
  ∀ a, np.constant = some a → np = constnode a np.type ∧ (ints np.type).Fits (value np.type (syms.get a).u)

/-- The comparison for a case is the one of C: between the value of the controlling expression and
that of the constant in the promoted type. -/
def Compared (tp ctp : CType) : Prop :=
  ∀ (fp : Floats) (syms : Symbols) (equiv : CType → CType → Bool) (np : Node) (a : Nat), np.type = tp →
    Ranged syms np → Ranged syms (constnode a ctp) →
    ∃ cond condsyms const constsyms, swtchcond fp syms equiv np = some (cond, condsyms) ∧
      constexpr fp syms equiv (constnode a ctp) = some (const, constsyms) ∧
      ∀ {σ : Type} (M : Machine σ) (s s' : σ) (v : Int), eval M syms np s = some (v, s') →
        ∃ v' k', eval M condsyms cond s = some (v', s') ∧ eval M constsyms const s' = some (k', s') ∧
          (k' = v' ↔ (standard tp).ints.convert (value ctp (syms.get a).u) = (standard tp).ints.convert v)

/-- Different values of the controlling expression stay different. -/
def Distinct (tp : CType) : Prop :=
  ∀ (fp : Floats) (equiv : CType → CType → Bool) (syms1 syms2 : Symbols) (np1 np2 : Node), np1.type = tp →
    np2.type = tp → Ranged syms1 np1 → Ranged syms2 np2 →
    ∀ cond1 condsyms1 cond2 condsyms2, swtchcond fp syms1 equiv np1 = some (cond1, condsyms1) →
      swtchcond fp syms2 equiv np2 = some (cond2, condsyms2) →
      ∀ {σ : Type} (M : Machine σ) (s1 s2 t1 t2 : σ) (v w x : Int), eval M syms1 np1 s1 = some (v, t1) →
        eval M syms2 np2 s2 = some (w, t2) → eval M condsyms1 cond1 s1 = some (x, t1) →
        eval M condsyms2 cond2 s2 = some (x, t2) → v = w

/-! Pointers. -/

/-- What pointers point to, and which of the types are `TDEFINED`. -/
structure Pointees where
  type : CType → CType
  defined : CType → Bool

/-- `sizeofnode()` with its new symbol. -/
def sizeofnode (syms : Symbols) (tp : CType) : Node × Symbols :=
  (constnode syms.next sizettype, syms.newsym ⟨sizettype, false, BitVec.ofNat 64 tp.size⟩)

section
variable (fp : Floats) (syms : Symbols) (equiv : CType → CType → Bool) (pointees : Pointees)

/-- `XCHG` -/
def exchange (lp rp : Node) : Node × Node := if lp.type.op ≠ .PTR then (rp, lp) else (lp, rp)

def parithmetic (op : Op) (lp rp : Node) : Except String (Node × Symbols) :=
  let (lp, rp) := exchange lp rp
  let tp := lp.type
  if (rp.type.op = .PTR && !pointees.defined (pointees.type rp.type)) || !pointees.defined (pointees.type tp) then
    .error "invalid use of undefined type"
  else
    let (size, syms) := sizeofnode syms (pointees.type tp)
    if op = .OSUB && rp.type.op = .PTR then
      match convert fp syms equiv rp tp false with
      | .nil => .error "incorrect arithmetic operands"
      | rp => .ok (node .ODIV inttype (node .OSUB pdifftype lp rp) size, syms)
    else if !rp.type.tinteger then .error "incorrect arithmetic operands"
    else
      let rp := convert fp syms equiv (promote fp syms equiv rp) sizettype false
      let rp := convert fp syms equiv (node .OMUL sizettype rp size) tp true
      .ok (node op tp lp rp, syms)

def Node.flagged (np : Node) (nconst : Bool) : Node :=
  match np with
  | .nil => .nil
  | .mk op flag type sym left right => .mk op (flag || nconst) type sym left right

def arithmetic (op : Op) (lp rp : Node) : Except String (Node × Symbols) :=
  if lp.type.tarith && rp.type.tarith then
    match op with
    | .OA_ADD | .OA_SUB | .OA_MUL | .OA_DIV => .ok (node op lp.type lp (convert fp syms equiv rp lp.type false), syms)
    | _ =>
      let (lp, rp) := arithconv fp syms equiv lp rp
      .ok (node op lp.type lp rp, syms)
  else if lp.type.op = .PTR || rp.type.op = .PTR then
    match op with
    | .OADD | .OSUB | .OA_ADD | .OA_SUB | .OINC | .ODEC => do
      let (np, syms) ← parithmetic fp syms equiv pointees op lp rp
      return (np.flagged (lp.nconst && rp.nconst), syms)
    | _ => .error "incorrect arithmetic operands"
  else .error "incorrect arithmetic operands"

/-- `incdec` with the symbol `one`; the operand is an lvalue. -/
def incdec (one : Nat) (np : Node) (op : Op) : Except String (Node × Symbols) :=
  let tp := np.type
  if !pointees.defined tp then .error "invalid use of undefined type"
  else if tp.op = .PTR && !pointees.defined (pointees.type tp) then
    let change := if op = .OINC || op = .OA_ADD then "increment" else "decrement"
    .error (change ++ " of pointer to an incomplete type")
  else if tp.op = .PTR || tp.tarith then arithmetic fp syms equiv pointees op np (constnode one inttype)
  else .error "wrong type argument to increment or decrement"

end

end Scc.Cc1.Fold
