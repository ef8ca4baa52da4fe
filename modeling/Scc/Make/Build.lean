import Scc.Make.Rules

set_option linter.all false

/-! How `make` builds its goals: `rebuild`, `update`, `inference` and `run`. What it prints is left
out, and no signal arrives. -/
namespace Scc.Make

/-- What `make` uses of the system, and the expansion of a line of a target by the macros, which
ends `make` where it finds an error. -/
structure System (W : Type) where
  stamp : W → Name → Int
  launch : W → Name → Bool → Int × W
  system : W → Name → Int × W
  expandstring : (Name → Target) → Name → Name → Option Name

structure Flags where
  kflag : Bool
  nflag : Bool
  qflag : Bool
  tflag : Bool

/-- What happened: a target is checked and has a stamp and dependencies, the actions of a rule are
run for a target, and `rebuild` returns with the stamp the target has by then. -/
inductive Event where
  | checking (target : Name) (stamp : Int) (deps : List Name)
  | running (target rule : Name)
  | rebuilt (target : Name) (r : Int) (build : Bool) (stamp : Int)
  deriving DecidableEq

structure State (W : Type) where
  rules : Rules
  world : W
  exitstatus : Bool
  log : List Event

/-- What a function returns, or the state in which `make` ended with an error. -/
abbrev Result (W α : Type) := Except (State W) (α × State W)

def FILENAME_MAX : Nat := 256

section
variable {W : Type} (sys : System W) (flags : Flags)

namespace State

def stamp (s : State W) (name : Name) : Int := (s.rules.lookup name).stamp

def note (s : State W) (event : Event) : State W := { s with log := s.log ++ [event] }

/-- `tp->stamp = stamp(tp->name)` -/
def check (s : State W) (name : Name) : State W :=
  let stamp := sys.stamp s.world name
  { s with rules := s.rules.set name { s.rules.lookup name with stamp := stamp } }.note
    (.checking name stamp (s.rules.deps name))

end State

/-- The line without the characters before it, and whether `-` and `+` are among them. -/
def modifiers : Name → Bool × Bool × Name
  | '@' :: line => modifiers line
  | '-' :: line => (true, (modifiers line).2)
  | '+' :: line => ((modifiers line).1, true, (modifiers line).2.2)
  | line => (false, false, line)

def execline (line : Name) (ignore : Bool) (s : State W) : Int × State W :=
  let (minus, plus, line) := modifiers line
  if flags.tflag && !plus then (0, s)
  else if (flags.nflag || flags.qflag) && !plus then
    (0, { s with exitstatus := s.exitstatus || flags.qflag })
  else
    let ignore := minus || s.rules.iflag || ignore
    let (r, world) := sys.launch s.world line ignore
    (if ignore then 0 else r, { s with world })

def touch (name : Name) (ignore : Bool) (s : State W) : Int × State W :=
  let (r, world) := sys.system s.world ("touch ".toList ++ name)
  (if ignore || s.rules.iflag then 0 else r, { s with world })

def touchAll (ignore : Bool) : List Name → State W → Int × State W
  | [], s => (0, s)
  | name :: names, s =>
    let (r, s) := touch sys name ignore s
    if r ≠ 0 then (r, s) else touchAll ignore names s

/-- The caller has the two flags in the other order, so that it is `silent` that ignores. -/
def touchdeps (tp : Target) (_ignore silent : Bool) (s : State W) : Int × State W :=
  touchAll sys silent (tp.req.toList ++ tp.deps) s

/-- The loop of `run` over the actions. -/
def runActions (name : Name) (ignore : Bool) : List Name → State W → Result W Int
  | [], s => .ok (0, s)
  | action :: actions, s =>
    match sys.expandstring s.rules.lookup action name with
    | none => .error s
    | some line =>
      let (r, s) := execline sys flags line ignore s
      if r ≠ 0 then .ok (r, s) else runActions name ignore actions s

def run (name : Name) (s : State W) : Result W Int :=
  let tp := s.rules.lookup name
  let silent : Bool := name ∈ s.rules.deps SILENT
  let ignore : Bool := name ∈ s.rules.deps IGNORE
  let (r, s) := if flags.tflag then touchdeps sys tp ignore silent s else (0, s)
  if r ≠ 0 then .ok (r, s)
  else
    match runActions sys flags name ignore (tp.actions.getD []) s with
    | .error s => .error s
    | .ok (r, s) =>
      if r ≠ 0 then .ok (r, s)
      else if flags.tflag then .ok (touch sys tp.target ignore s)
      else .ok (0, s)

/-- The name up to its last dot and the rest, if it has a dot. -/
def splitSuffix (name : Name) : Name × Option Name :=
  if '.' ∈ name then
    let rest := (name.reverse.takeWhile (· ≠ '.')).length + 1
    (name.take (name.length - rest), some (name.drop (name.length - rest)))
  else (name, none)

/-- The loop of `inference` over the suffixes. -/
def tryRules (name base to_ : Name) : List Name → State W → Result W (Option Name)
  | [], s => .ok (none, s)
  | from_ :: suffixes, s =>
    let rule := from_ ++ to_
    let fname := base ++ from_
    if rule.length ≥ 20 then .error s
    else if (s.rules.lookup rule).actions = none then tryRules name base to_ suffixes s
    else if fname.length ≥ FILENAME_MAX then .error s
    else
      let t := sys.stamp s.world fname
      let tp := s.rules.lookup name
      if t = -1 ∨ t ≤ tp.stamp then tryRules name base to_ suffixes s
      else
        let q :=
          { s.rules.lookup rule with
            req := some fname, deps := tp.deps, target := name, stamp := tp.stamp }
        .ok (some rule, { s with rules := s.rules.set rule q })

def inference (name : Name) (s : State W) : Result W (Option Name) :=
  let (base, suffix) := splitSuffix name
  let suffixes := s.rules.deps SUFFIXES
  if ∃ to_ ∈ suffix, to_ ∉ suffixes then .ok (none, s)
  else tryRules sys name base (suffix.getD []) suffixes s

def update (name : Name) (s : State W) : Result W Int :=
  if (s.rules.lookup name).actions ≠ none then run sys flags name (s.note (.running name name))
  else
    match inference sys name s with
    | .error s => .error s
    | .ok (some rule, s) => run sys flags rule (s.note (.running name rule))
    | .ok (none, s) =>
      if (s.rules.lookup DEFAULT).defined then
        run sys flags DEFAULT (s.note (.running name DEFAULT))
      else if (s.rules.lookup name).defined then .ok (0, s)
      else .error s

/-- The return of `rebuild`. -/
def returning (name : Name) (r : Int) (build : Bool) (s : State W) : Result W (Int × Bool) :=
  .ok ((r, build), s.note (.rebuilt name r build (s.stamp name)))

/-- What `rebuild` does after the loop over the dependencies. -/
def remake (name : Name) (err need : Bool) (s : State W) : Result W (Int × Bool) :=
  let need := need || s.stamp name = -1
  if err then returning name 1 false s
  else if need then
    match update sys flags name s with
    | .error s => .error s
    | .ok (r, s) =>
      if r = 0 then returning name 0 true s
      else
        let s := { s with exitstatus := true }
        if flags.kflag then returning name r true s else .error s
  else returning name 0 false s

/-- The loop of `rebuild` over the dependencies: whether one failed, and whether one was built or
is newer. -/
def checkDeps (rebuild : Name → State W → Option (Result W (Int × Bool))) (name : Name) :
    List Name → Bool → Bool → State W → Option (Result W (Bool × Bool))
  | [], err, need, s => some (.ok ((err, need), s))
  | q :: deps, err, need, s =>
    match rebuild q s with
    | none => none
    | some (.error s) => some (.error s)
    | some (.ok ((r, build), s)) =>
      if r ≠ 0 then checkDeps rebuild name deps true need s
      else checkDeps rebuild name deps err (need || build || s.stamp q > s.stamp name) s

/-- `none` where the depth of the recursion is not enough. -/
def rebuild : Nat → Name → State W → Option (Result W (Int × Bool))
  | 0, _, _ => none
  | depth + 1, name, s =>
    let s := s.check sys name
    match checkDeps (rebuild depth) name (s.rules.deps name) false false s with
    | none => none
    | some (.error s) => some (.error s)
    | some (.ok ((err, need), s)) => some (remake sys flags name err need s)

/-- The goals one after the other, without a goal the default target. -/
def builds (depth : Nat) : List Name → State W → Option (State W)
  | [], s => some s
  | name :: goals, s =>
    match rebuild sys flags depth name s with
    | none => none
    | some (.error s) => some s
    | some (.ok (_, s)) => builds depth goals s

/-- What `main` builds. -/
def goalsOf (argv : List Name) (rules : Rules) : List Name :=
  if argv = [] then rules.deftarget.toList else argv

end

end Scc.Make
