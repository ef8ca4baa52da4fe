import Mathlib.Data.List.ReduceOption
import Scc.Ar.Header

set_option linter.all false

/-! The options `-d`, `-r` and `-m` of `ar`: the members of the archive are streamed to three
temporary files, which are merged into the new archive. -/
namespace Scc.Ar

inductive Key where
  | d
  | r
  | m
  deriving DecidableEq

/-- `posname` is set by `-a`, `-b` and `-i`, and `bflag` by the last two. -/
structure Options where
  posname : Option Name
  bflag : Bool
  uflag : Bool

inductive Place where
  | BEFORE
  | INDOT
  | AFTER
  deriving DecidableEq

/-- The temporary files, where the next members go, and the files that are left, where those that
were used are `none`. -/
structure State where
  tmps : Place → List UInt8
  cur : Place
  argv : List (Option Name)

/-- The files that can be opened. -/
abbrev System := Name → Option File

def State.put (s : State) (place : Place) (bytes : List UInt8) : State :=
  { s with tmps := fun other => if other = place then s.tmps other ++ bytes else s.tmps other }

/-- The bytes of a member, of which the last can be missing at the end of the archive. -/
def copy (m : Member) (src : List UInt8) : List UInt8 := m.hdr ++ src.take m.padded

/-- The first file that is left with the name, and the files without it. -/
def inlist (fname : Name) : List (Option Name) → Option (Name × List (Option Name))
  | [] => none
  | none :: argv => (inlist fname argv).map fun (p, argv) => (p, none :: argv)
  | some p :: argv =>
    if canonical p = fname then some (p, none :: argv)
    else (inlist fname argv).map fun (q, argv) => (q, some p :: argv)

section
variable (sys : System) (opts : Options)

def archive (pname : Name) : Option (List UInt8) := (sys pname).map fun file => file.member pname

def older (m : Member) (pname : Name) : Option Bool :=
  (sys pname).map fun file => decide ((m.date : Int) < file.time)

/-- Where `move` and `update` copy a member that is not in the list. -/
def stay (m : Member) (src : List UInt8) (s : State) : State :=
  if opts.posname = some m.fname then
    { s.put (if opts.bflag then .AFTER else .BEFORE) (copy m src) with cur := .AFTER }
  else s.put s.cur (copy m src)

def move (m : Member) (src : List UInt8) (s : State) : Option State :=
  match inlist m.fname s.argv with
  | some (_, argv) => some ({ s with argv }.put .INDOT (copy m src))
  | none => some (stay opts m src s)

def update (m : Member) (src : List UInt8) (s : State) : Option State :=
  match inlist m.fname s.argv with
  | some (pname, argv) =>
    let s := { s with argv }
    match if opts.uflag then older sys m pname else some true with
    | some true => (archive sys pname).map fun bytes => s.put s.cur bytes
    | some false => some (stay opts m src s)
    | none => none
  | none => some (stay opts m src s)

def del (m : Member) (src : List UInt8) (s : State) : Option State :=
  match inlist m.fname s.argv with
  | some (_, argv) => some { s with argv }
  | none => some (s.put .BEFORE (copy m src))

/-- The members until less than a header is left; `none` where one is corrupted. -/
def run (fun_ : Member → List UInt8 → State → Option State) (fp : List UInt8) (s : State) :
    Option State :=
  if fp.length < hdrSize then some s
  else
    match valid (fp.take hdrSize) with
    | none => none
    | some m =>
      match fun_ m (fp.drop hdrSize) s with
      | none => none
      | some s => run fun_ ((fp.drop hdrSize).drop m.padded) s
termination_by fp.length
decreasing_by
  simp only [hdrSize, List.length_drop] at *
  omega

/-- The files that are left, one after the other. -/
def insert (s : State) : List (Option Name) → Option State
  | [] => some s
  | none :: argv => insert s argv
  | some pname :: argv =>
    match archive sys pname with
    | none => none
    | some bytes => insert (s.put .INDOT bytes) argv

def merge (s : State) : List UInt8 := ARMAG ++ s.tmps .BEFORE ++ s.tmps .INDOT ++ s.tmps .AFTER

/-- What follows the magic number of the archive, which is made if there is none. -/
def openar (arfile : Option (List UInt8)) : Option (List UInt8) :=
  match arfile with
  | none => some []
  | some bytes => if bytes.take SARMAG = ARMAG then some (bytes.drop SARMAG) else none

/-- The archive when `ar` ends and the first file with which nothing was done, which is an error;
`none` where it ends with an error before it writes the archive. -/
def ar (key : Key) (argv : List Name) (arfile : Option (List UInt8)) :
    Option (List UInt8 × Option Name) := do
  let fp ← openar arfile
  if argv = [] then return (ARMAG ++ fp, none)
  let start : State := ⟨fun _ => [], .BEFORE, argv.map some⟩
  match key with
  | .r =>
    let s ← run (update sys opts) fp start
    let s ← insert sys s s.argv
    return (merge s, none)
  | .m =>
    let s ← run (move opts) fp start
    return (merge s, s.argv.reduceOption.head?)
  | .d =>
    let s ← run del fp start
    return (merge s, s.argv.reduceOption.head?)

end

end Scc.Ar
