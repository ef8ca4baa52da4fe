import Mathlib.Data.List.TakeWhile
import Scc.Ar.Edit
import Scc.Listing.Matching
import Scc.Listing.Placing

set_option linter.all false

/-! The archive that `ar` makes is the edited list of its members, except that the members behind the
first one with the position name are dealt again where the name repeats. -/
namespace Scc.Ar
open Listing

/-- A member of a well-formed archive, with the bytes that pad it. -/
structure Entry where
  info : Member
  body : List UInt8
  length : info.hdr.length = hdrSize
  valid : valid info.hdr = some info
  whole : body.length = info.padded

namespace Entry

def bytes (e : Entry) : List UInt8 := e.info.hdr ++ e.body

def name (e : Entry) : Name := e.info.fname

end Entry

variable {sys : System} {opts : Options} {e : Entry} {s : State} {rest : List UInt8}

theorem copy_entry (e : Entry) (rest : List UInt8) : copy e.info (e.body ++ rest) = e.bytes := by
  rw [copy, ← e.whole, List.take_left]
  rfl

theorem run_nil (f : Member → List UInt8 → State → Option State) (s : State) : run f [] s = some s := by
  rw [run, if_pos (by decide)]

/-- A member is given to the function with what follows its header, and then the next ones. -/
theorem run_entry (f : Member → List UInt8 → State → Option State) (e : Entry) (rest : List UInt8)
    (s : State) :
    run f (e.bytes ++ rest) s = (f e.info (e.body ++ rest) s).bind (run f rest) := by
  have long : ¬(e.bytes ++ rest).length < hdrSize := by
    rw [Entry.bytes, List.length_append, List.length_append, e.length]
    omega
  have front : (e.bytes ++ rest).take hdrSize = e.info.hdr := by
    rw [Entry.bytes, List.append_assoc, ← e.length, List.take_left]
  have back : (e.bytes ++ rest).drop hdrSize = e.body ++ rest := by
    rw [Entry.bytes, List.append_assoc, ← e.length, List.drop_left]
  have next : (e.body ++ rest).drop e.info.padded = rest := by rw [← e.whole, List.drop_left]
  rw [run, if_neg long, front, back, e.valid]
  simp only [next]
  cases f e.info (e.body ++ rest) s <;> rfl

theorem valid_fname {hdr : List UInt8} {m : Member} (found : Ar.valid hdr = some m) :
    m.fname = getfname hdr := by
  simp only [Ar.valid, Option.bind_eq_bind, Option.bind_eq_some_iff] at found
  obtain ⟨size, -, mode, -, date, -, rest⟩ := found
  split at rest
  · cases rest
    rfl
  · cases rest

theorem getfname_append {front : List UInt8} (long : SARNAM ≤ front.length) (back : List UInt8) :
    getfname (front ++ back) = getfname front := by
  rw [getfname, arName, List.take_append_of_le_length long]
  rfl

theorem getfname_bytes (e : Entry) : getfname e.bytes = e.name := by
  rw [Entry.bytes, getfname_append (by rw [e.length]; decide), Entry.name, valid_fname e.valid]

/-- An accepted name fits its field. -/
theorem canonical_plain {pname : Name} (accepted : checkfname pname = true) (text : (0 : UInt8) ∉ pname) :
    (canonical pname).length ≤ SARNAM ∧ ∀ c ∈ canonical pname, c ≠ 32 ∧ c ≠ 0 := by
  have within : ∀ c ∈ canonical pname, c ∈ pname := by
    intro c member
    unfold canonical at member
    dsimp only at member
    split at member
    · exact member
    · exact List.mem_reverse.mp (List.takeWhile_subset _ (List.mem_reverse.mp member))
  simp only [checkfname, Bool.and_eq_true, decide_eq_true_eq] at accepted
  obtain ⟨short, all⟩ := accepted
  have blanks : (canonical pname).takeWhile (· ≠ 32) = canonical pname :=
    (List.takeWhile_prefix _).eq_of_length_le (List.drop_eq_nil_iff.mp all)
  rw [blanks] at short
  refine ⟨short, fun c member => ⟨?_, ?_⟩⟩
  · simpa using List.takeWhile_eq_self_iff.mp blanks c member
  · intro zero
    exact text (zero ▸ within c member)

theorem arName_member {pname : Name} (accepted : checkfname pname = true) (text : (0 : UInt8) ∉ pname)
    (file : File) (rest : List UInt8) :
    arName (file.member pname ++ rest) = left SARNAM (canonical pname) := by
  have short := (canonical_plain accepted text).1
  have exact_ : (left SARNAM (canonical pname)).length = SARNAM := by
    rw [left, List.length_append, List.length_replicate]
    omega
  have whole : (canonical pname).take 16 = canonical pname := List.take_of_length_le short
  rw [arName, File.member, printHdr, whole]
  simp only [List.append_assoc]
  exact List.take_left' exact_

/-- A file whose name is accepted has the name as a member. -/
theorem getfname_member {pname : Name} (accepted : checkfname pname = true)
    (text : (0 : UInt8) ∉ pname) (file : File) : getfname (file.member pname) = canonical pname := by
  have plain : ∀ c ∈ canonical pname, (c ≠ 32 && c ≠ 0) = true := by
    intro c member
    obtain ⟨notBlank, notZero⟩ := (canonical_plain accepted text).2 c member
    simp [notBlank, notZero]
  have field := arName_member accepted text file []
  rw [List.append_nil] at field
  rw [getfname, field, left, List.takeWhile_append_of_pos plain]
  cases (SARNAM - (canonical pname).length) with
  | zero => simp
  | succ n => simp [List.replicate_succ]

/-- What `inlist` finds is the first file that is left, and it is taken from them. -/
theorem inlist_find (fname : Name) (argv : List (Option Name)) :
    match argv.reduceOption.find? fun p => canonical p = fname with
    | none => inlist fname argv = none
    | some p => ∃ argv', inlist fname argv = some (p, argv') ∧
        argv'.reduceOption = argv.reduceOption.eraseP fun p => canonical p = fname := by
  induction argv with
  | nil => rfl
  | cons first argv ih =>
    cases first with
    | none =>
      rw [List.reduceOption_cons_of_none, inlist]
      split at ih
      · rw [ih]
        rfl
      · obtain ⟨argv', here, left⟩ := ih
        exact ⟨none :: argv', by rw [here]; rfl, by rw [List.reduceOption_cons_of_none, left]⟩
    | some q =>
      rw [List.reduceOption_cons_of_some, inlist]
      by_cases same : canonical q = fname
      · rw [List.find?_cons_of_pos (by simpa using same), if_pos same]
        refine ⟨none :: argv, rfl, ?_⟩
        rw [List.reduceOption_cons_of_none, List.eraseP_cons_of_pos (by simpa using same)]
      · rw [List.find?_cons_of_neg (by simpa using same), if_neg same]
        split at ih
        · rw [ih]
          rfl
        · obtain ⟨argv', here, left⟩ := ih
          refine ⟨some q :: argv', by rw [here]; rfl, ?_⟩
          rw [List.reduceOption_cons_of_some, left, List.eraseP_cons_of_neg (by simpa using same)]

theorem inlist_none {fname : Name} {argv : List (Option Name)}
    (none : (argv.reduceOption.find? fun p => canonical p = fname) = none) :
    inlist fname argv = .none := by
  have found := inlist_find fname argv
  rwa [none] at found

theorem inlist_some {fname p : Name} {argv : List (Option Name)}
    (some : (argv.reduceOption.find? fun p => canonical p = fname) = some p) :
    ∃ argv', inlist fname argv = .some (p, argv') ∧
      argv'.reduceOption = argv.reduceOption.eraseP fun p => canonical p = fname := by
  have found := inlist_find fname argv
  rwa [some] at found

/-- The temporary files, whether a member with the position name has passed, and the files left. -/
structure Parts (s : State) (before indot after : List UInt8) (passed : Bool) (left : List Name) :
    Prop where
  before : s.tmps .BEFORE = before
  indot : s.tmps .INDOT = indot
  after : s.tmps .AFTER = after
  cur : s.cur = if passed then .AFTER else .BEFORE
  left : s.argv.reduceOption = left

/-- The member has the position name. -/
def here (opts : Options) (bytes : List UInt8) : Bool := opts.posname = some (getfname bytes)

variable {before indot after : List UInt8} {passed : Bool} {ps : List Name}

/-- Whether the next block goes to the part after the group. -/
def behind (opts : Options) (passed : Bool) (block : List UInt8) : Bool :=
  (here opts block && opts.bflag) || (!here opts block && passed)

theorem deal_before (block : List UInt8) (blocks : List (List UInt8)) :
    before ++ (deal (here opts) opts.bflag passed (block :: blocks)).1.flatten =
      (if behind opts passed block then before else before ++ block) ++
        (deal (here opts) opts.bflag (passed || here opts block) blocks).1.flatten := by
  rw [deal, behind]
  split <;> simp

theorem deal_after (block : List UInt8) (blocks : List (List UInt8)) :
    after ++ (deal (here opts) opts.bflag passed (block :: blocks)).2.flatten =
      (if behind opts passed block then after ++ block else after) ++
        (deal (here opts) opts.bflag (passed || here opts block) blocks).2.flatten := by
  rw [deal, behind]
  split <;> simp

theorem put_parts (parts : Parts s before indot after passed ps) {block : List UInt8}
    (other : here opts block = false) :
    Parts (s.put s.cur block) (if behind opts passed block then before else before ++ block) indot
      (if behind opts passed block then after ++ block else after)
      (passed || here opts block) ps := by
  obtain ⟨rfl, rfl, rfl, cur, left⟩ := parts
  rw [behind, other, Bool.or_false, cur]
  cases passed with
  | false => exact ⟨rfl, rfl, rfl, cur, left⟩
  | true => exact ⟨rfl, rfl, rfl, cur, left⟩

theorem stay_parts (parts : Parts s before indot after passed ps) (e : Entry) (rest : List UInt8) :
    Parts (stay opts e.info (e.body ++ rest) s)
      (if behind opts passed e.bytes then before else before ++ e.bytes) indot
      (if behind opts passed e.bytes then after ++ e.bytes else after)
      (passed || here opts e.bytes) ps := by
  have kind : here opts e.bytes = decide (opts.posname = some e.info.fname) := by
    rw [here, getfname_bytes]
    rfl
  rw [stay, copy_entry]
  by_cases same : opts.posname = some e.info.fname
  · rw [if_pos same]
    obtain ⟨rfl, rfl, rfl, -, left⟩ := parts
    rw [behind, kind, decide_eq_true same, Bool.or_true]
    cases later : opts.bflag with
    | false => exact ⟨rfl, rfl, rfl, rfl, left⟩
    | true => exact ⟨rfl, rfl, rfl, rfl, left⟩
  · rw [if_neg same]
    exact put_parts parts (kind.trans (decide_eq_false same))

theorem bytes_flatMap (e : Entry) (entries : List Entry) :
    (e :: entries).flatMap Entry.bytes = e.bytes ++ entries.flatMap Entry.bytes := List.flatMap_cons

/-- The members that no file takes, and the ones that files take. -/
def kept (served : List (Entry × Option Name)) : List (List UInt8) :=
  (served.filter (·.2.isNone)).map (·.1.bytes)

def taken (served : List (Entry × Option Name)) : List (List UInt8) :=
  (served.filter (·.2.isSome)).map (·.1.bytes)

theorem run_move (opts : Options) (parts : Parts s before indot after passed ps) (entries : List Entry) :
    ∃ s' passed', run (move opts) (entries.flatMap Entry.bytes) s = some s' ∧
      Parts s'
        (before ++ (deal (here opts) opts.bflag passed
          (kept (serve Entry.name canonical ps entries).1)).1.flatten)
        (indot ++ (taken (serve Entry.name canonical ps entries).1).flatten)
        (after ++ (deal (here opts) opts.bflag passed
          (kept (serve Entry.name canonical ps entries).1)).2.flatten)
        passed' (serve Entry.name canonical ps entries).2 := by
  induction entries generalizing s before indot after passed ps with
  | nil =>
    refine ⟨s, passed, run_nil _ s, ?_⟩
    simpa [serve, kept, taken, deal] using parts
  | cons e entries ih =>
    rw [bytes_flatMap, run_entry, move, serve]
    have left := parts.left
    cases first : ps.find? fun p => decide (canonical p = e.name) with
    | some p =>
      rw [← left] at first
      obtain ⟨argv', listed, erased⟩ := inlist_some first
      rw [left] at erased
      rw [show e.info.fname = e.name from rfl, listed, copy_entry]
      have next : Parts ({ s with argv := argv' }.put .INDOT e.bytes) before (indot ++ e.bytes) after
          passed (ps.eraseP fun p => canonical p = e.name) := by
        obtain ⟨rfl, rfl, rfl, cur, -⟩ := parts
        exact ⟨rfl, rfl, rfl, cur, erased⟩
      obtain ⟨s', passed', ran, parts'⟩ := ih next
      refine ⟨s', passed', ran, ?_⟩
      rw [List.append_assoc] at parts'
      exact parts'
    | none =>
      rw [← left] at first
      rw [show e.info.fname = e.name from rfl, inlist_none first]
      obtain ⟨s', passed', ran, parts'⟩ := ih (stay_parts parts e (entries.flatMap Entry.bytes))
      refine ⟨s', passed', ran, ?_⟩
      rw [← deal_before, ← deal_after] at parts'
      exact parts'

/-- The block of a member in place: the file that took it, unless `-u` finds it not newer. -/
def edited (sys : System) (opts : Options) : Entry × Option Name → List UInt8
  | (e, none) => e.bytes
  | (e, some p) =>
    match sys p with
    | none => e.bytes
    | some file =>
      if opts.uflag && !decide ((e.info.date : Int) < file.time) then e.bytes else file.member p

/-- Arguments that `main` passes on and that are not the position name. -/
def Named (opts : Options) (ps : List Name) : Prop :=
  ∀ p ∈ ps, checkfname p = true ∧ (0 : UInt8) ∉ p ∧ opts.posname ≠ some (canonical p)

theorem Named.erase {q : Name → Bool} (named : Named opts ps) : Named opts (ps.eraseP q) :=
  fun p member => named p (List.mem_of_mem_eraseP member)

theorem here_member {p : Name} (named : Named opts ps) (member : p ∈ ps) (file : File) :
    here opts (file.member p) = false := by
  obtain ⟨accepted, text, other⟩ := named p member
  rw [here, getfname_member accepted text]
  exact decide_eq_false other

/-- A member that is in the list is replaced in place, or copied where it is not older. -/
theorem update_taken {p : Name} {argv : List (Option Name)}
    (listed : inlist e.name s.argv = some (p, argv)) (named : Named opts [p])
    (readable : (sys p).isSome = true)
    (parts : Parts { s with argv } before indot after passed ps) (rest : List UInt8) :
    ∃ s', update sys opts e.info (e.body ++ rest) s = some s' ∧
      Parts s'
        (if behind opts passed (edited sys opts (e, some p)) then before
          else before ++ edited sys opts (e, some p)) indot
        (if behind opts passed (edited sys opts (e, some p)) then after ++ edited sys opts (e, some p)
          else after)
        (passed || here opts (edited sys opts (e, some p))) ps := by
  obtain ⟨file, opened⟩ := Option.isSome_iff_exists.mp readable
  have other := here_member named List.mem_cons_self file
  rw [update, show e.info.fname = e.name from rfl, listed]
  simp only [older, archive, opened, Option.map_some, edited]
  cases opts.uflag with
  | false => exact ⟨_, rfl, put_parts parts other⟩
  | true =>
    cases decide ((e.info.date : Int) < file.time) with
    | true => exact ⟨_, rfl, put_parts parts other⟩
    | false => exact ⟨_, rfl, stay_parts parts e rest⟩

theorem run_update (parts : Parts s before indot after passed ps) (named : Named opts ps)
    (readable : ∀ p ∈ ps, (sys p).isSome = true) (entries : List Entry) :
    ∃ s' passed', run (update sys opts) (entries.flatMap Entry.bytes) s = some s' ∧
      Parts s'
        (before ++ (deal (here opts) opts.bflag passed
          ((serve Entry.name canonical ps entries).1.map (edited sys opts))).1.flatten)
        indot
        (after ++ (deal (here opts) opts.bflag passed
          ((serve Entry.name canonical ps entries).1.map (edited sys opts))).2.flatten)
        passed' (serve Entry.name canonical ps entries).2 := by
  induction entries generalizing s before indot after passed ps with
  | nil =>
    refine ⟨s, passed, run_nil _ s, ?_⟩
    simpa [serve, deal] using parts
  | cons e entries ih =>
    rw [bytes_flatMap, run_entry, serve]
    have left := parts.left
    cases first : ps.find? fun p => decide (canonical p = e.name) with
    | some p =>
      have member : p ∈ ps := List.mem_of_find?_eq_some first
      rw [← left] at first
      obtain ⟨argv', listed, erased⟩ := inlist_some first
      rw [left] at erased
      have fewer : Parts { s with argv := argv' } before indot after passed
          (ps.eraseP fun p => canonical p = e.name) := by
        obtain ⟨rfl, rfl, rfl, cur, -⟩ := parts
        exact ⟨rfl, rfl, rfl, cur, erased⟩
      have alone : Named opts [p] := fun q only => named q (List.mem_singleton.mp only ▸ member)
      obtain ⟨next, stepped, parts⟩ := update_taken listed alone (readable p member) fewer
        (entries.flatMap Entry.bytes)
      obtain ⟨s', passed', ran, parts'⟩ := ih parts named.erase fun q among =>
        readable q (List.mem_of_mem_eraseP among)
      refine ⟨s', passed', by rw [stepped]; exact ran, ?_⟩
      rw [← deal_before, ← deal_after] at parts'
      exact parts'
    | none =>
      rw [← left] at first
      have stepped : update sys opts e.info (e.body ++ entries.flatMap Entry.bytes) s =
          some (stay opts e.info (e.body ++ entries.flatMap Entry.bytes) s) := by
        rw [update, show e.info.fname = e.name from rfl, inlist_none first]
      obtain ⟨s', passed', ran, parts'⟩ :=
        ih (stay_parts parts e (entries.flatMap Entry.bytes)) named readable
      refine ⟨s', passed', by rw [stepped]; exact ran, ?_⟩
      rw [← deal_before, ← deal_after] at parts'
      exact parts'

theorem run_del (s : State) (entries : List Entry) :
    ∃ s', run del (entries.flatMap Entry.bytes) s = some s' ∧
      s'.tmps .BEFORE =
        s.tmps .BEFORE ++ (kept (serve Entry.name canonical s.argv.reduceOption entries).1).flatten ∧
      s'.tmps .INDOT = s.tmps .INDOT ∧ s'.tmps .AFTER = s.tmps .AFTER := by
  induction entries generalizing s with
  | nil => exact ⟨s, run_nil _ s, by simp [serve, kept], rfl, rfl⟩
  | cons e entries ih =>
    rw [bytes_flatMap, run_entry, del, serve, show e.info.fname = e.name from rfl]
    cases first : s.argv.reduceOption.find? fun p => decide (canonical p = e.name) with
    | some p =>
      obtain ⟨argv', listed, erased⟩ := inlist_some first
      rw [listed, ← erased]
      exact ih { s with argv := argv' }
    | none =>
      rw [inlist_none first, copy_entry]
      obtain ⟨s', ran, before, others⟩ := ih (s.put .BEFORE e.bytes)
      refine ⟨s', ran, ?_, others⟩
      rw [before]
      exact List.append_assoc _ _ _

/-- What `archive` writes for a file that can be opened. -/
def fresh (sys : System) (p : Name) : List UInt8 := ((archive sys p).getD [])

theorem insert_parts {argv : List (Option Name)} (parts : Parts s before indot after passed ps)
    (readable : ∀ p ∈ argv.reduceOption, (sys p).isSome = true) :
    ∃ s', insert sys s argv = some s' ∧
      Parts s' before (indot ++ (argv.reduceOption.map (fresh sys)).flatten) after passed ps := by
  induction argv generalizing s indot with
  | nil => exact ⟨s, rfl, by simpa using parts⟩
  | cons first argv ih =>
    cases first with
    | none => exact ih parts readable
    | some p =>
      rw [List.reduceOption_cons_of_some] at readable ⊢
      obtain ⟨file, opened⟩ := Option.isSome_iff_exists.mp (readable p List.mem_cons_self)
      have written : archive sys p = some (fresh sys p) := by simp [fresh, archive, opened]
      have next : Parts (s.put .INDOT (fresh sys p)) before (indot ++ fresh sys p) after passed ps := by
        obtain ⟨rfl, rfl, rfl, cur, left⟩ := parts
        exact ⟨rfl, rfl, rfl, cur, left⟩
      obtain ⟨s', inserted, parts'⟩ := ih next fun q among => readable q (List.mem_cons_of_mem _ among)
      refine ⟨s', by rw [insert, written]; exact inserted, ?_⟩
      rw [List.append_assoc] at parts'
      exact parts'

end Scc.Ar
