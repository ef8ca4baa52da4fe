import Scc.Ar.EditProofs

set_option linter.all false

/-! What `-d`, `-r` and `-m` are for, and when `ar` does it. -/
namespace Scc.Ar
open Listing

section
variable (sys : System) (opts : Options) (key : Key) (argv : List Name) (entries : List Entry)

/-- Each file in its turn takes the first member with its name that is not taken yet. -/
def matched : List (Entry × Option Name) × List Name :=
  claimAll Entry.name canonical argv (entries.map (·, none))

/-- The moved members, or the files that no member matches. -/
def group : List (List UInt8) :=
  match key with
  | .d => []
  | .r => (matched argv entries).2.map (fresh sys)
  | .m => taken (matched argv entries).1

/-- The members that stay, with the files that replace members in their place. -/
def staying : List (List UInt8) :=
  match key with
  | .r => (matched argv entries).1.map (edited sys opts)
  | .d | .m => kept (matched argv entries).1

/-- The group stands next to the first member with the position name, or at the end. -/
def asked : List (List UInt8) :=
  let put := if opts.bflag then putBefore else putAfter
  put (here opts) (group sys key argv entries) (staying sys opts key argv entries)

/-- The archive of the members. -/
def rendered (blocks : List (List UInt8)) : List UInt8 := ARMAG ++ blocks.flatten

/-- What is written: the members are dealt to the parts before and after the group. -/
def made : List (List UInt8) :=
  if argv = [] ∨ key = .d then staying sys opts key argv entries
  else
    let dealt := deal (here opts) opts.bflag false (staying sys opts key argv entries)
    dealt.1 ++ group sys key argv entries ++ dealt.2

end

variable {sys : System} {opts : Options} {key : Key} {argv : List Name} {entries : List Entry}

theorem matched_serve (argv : List Name) (entries : List Entry) :
    matched argv entries = serve Entry.name canonical argv entries := claimAll_eq_serve argv entries

theorem openar_archive (bytes : List UInt8) : openar (some (ARMAG ++ bytes)) = some bytes := by
  have magic : (ARMAG ++ bytes).take SARMAG = ARMAG := List.take_left' rfl
  rw [openar, if_pos magic]
  rfl

theorem serve_nil (entries : List Entry) :
    serve Entry.name canonical [] entries = (entries.map (·, none), []) := by
  rw [← claimAll_eq_serve]
  rfl

theorem staying_nil (entries : List Entry) :
    staying sys opts key [] entries = entries.map Entry.bytes := by
  have all : kept (entries.map (·, none)) = entries.map Entry.bytes := by
    rw [kept, List.filter_eq_self.mpr (by simp), List.map_map]
    rfl
  cases key with
  | r => rw [staying, matched_serve, serve_nil, List.map_map]; rfl
  | d => rw [staying, matched_serve, serve_nil]; exact all
  | m => rw [staying, matched_serve, serve_nil]; exact all

theorem ar_made (named : Named opts argv)
    (readable : key = .r → ∀ p ∈ argv, (sys p).isSome = true) (entries : List Entry) :
    ∃ missing, ar sys opts key argv (some (ARMAG ++ entries.flatMap Entry.bytes)) =
      some (rendered (made sys opts key argv entries), missing) := by
  rw [ar, openar_archive, made, rendered]
  by_cases nothing : argv = []
  · subst nothing
    refine ⟨none, ?_⟩
    rw [if_pos (.inl rfl), staying_nil, List.flatMap_def]
    rfl
  · have start : Parts ⟨fun _ => [], .BEFORE, argv.map some⟩ [] [] [] false argv :=
      ⟨rfl, rfl, rfl, rfl, by simp [List.reduceOption]⟩
    have given : (argv.map some).reduceOption = argv := by simp [List.reduceOption]
    simp only [Option.bind_eq_bind, Option.bind_some, nothing, false_or]
    cases key with
    | d =>
      obtain ⟨s, ran, before, indot, after⟩ := run_del ⟨fun _ => [], .BEFORE, argv.map some⟩ entries
      refine ⟨s.argv.reduceOption.head?, ?_⟩
      rw [given, ← matched_serve] at before
      simp only [ran, Option.bind_some, merge, before, indot, after]
      simp [staying]
    | r =>
      obtain ⟨s, passed, ran, parts⟩ := run_update start named (readable rfl) entries
      obtain ⟨s', inserted, parts'⟩ := insert_parts parts fun p member => by
        rw [parts.left] at member
        exact readable rfl p (serve_left member)
      refine ⟨none, ?_⟩
      rw [parts.left, ← matched_serve] at parts'
      simp only [ran, inserted, Option.bind_some, merge, parts'.before, parts'.indot, parts'.after]
      simp [staying, group]
    | m =>
      obtain ⟨s, passed, ran, parts⟩ := run_move opts start entries
      refine ⟨s.argv.reduceOption.head?, ?_⟩
      rw [← matched_serve] at parts
      simp only [ran, Option.bind_some, merge, parts.before, parts.indot, parts.after]
      simp [staying, group]

/-- Only one member has the position name where it matters: with `-a`, behind the first one that
stays there is none, or only directly behind it and there is no group. -/
def Clear (sys : System) (opts : Options) (key : Key) (argv : List Name) (entries : List Entry) : Prop :=
  argv = [] ∨ key = .d ∨ opts.bflag = true ∨
    Once (here opts) (group sys key argv entries) (staying sys opts key argv entries)

theorem group_nil (entries : List Entry) : group sys key [] entries = [] := by
  have none : taken (entries.map (·, none)) = [] := by
    rw [taken, List.filter_eq_nil_iff.mpr (by simp)]
    rfl
  cases key with
  | d => rfl
  | r => rw [group, matched_serve, serve_nil]; rfl
  | m => rw [group, matched_serve, serve_nil]; exact none

theorem asked_alone (empty : group sys key argv entries = []) :
    asked sys opts key argv entries = staying sys opts key argv entries := by
  rw [asked, empty]
  cases opts.bflag with
  | false => exact putAfter_nil _
  | true => exact putBefore_nil _

theorem here_taken (apart : ∀ p ∈ argv, opts.posname ≠ some (canonical p)) {e : Entry} {p : Name}
    (member : (e, some p) ∈ (serve Entry.name canonical argv entries).1) : here opts e.bytes = false := by
  obtain ⟨inside, same⟩ := serve_taken member
  rw [here, getfname_bytes, ← same]
  exact decide_eq_false (apart p inside)

theorem group_here (named : Named opts argv)
    (readable : key = .r → ∀ p ∈ argv, (sys p).isSome = true) (entries : List Entry) :
    ∀ block ∈ group sys key argv entries, here opts block = false := by
  intro block member
  cases key with
  | d => exact (List.not_mem_nil member).elim
  | r =>
    rw [group, matched_serve] at member
    obtain ⟨p, left, rfl⟩ := List.mem_map.mp member
    obtain ⟨file, opened⟩ := Option.isSome_iff_exists.mp (readable rfl p (serve_left left))
    have written : fresh sys p = file.member p := by simp [fresh, archive, opened]
    rw [written]
    exact here_member named (serve_left left) file
  | m =>
    rw [group, matched_serve, taken] at member
    obtain ⟨⟨e, mark⟩, among, rfl⟩ := List.mem_map.mp member
    obtain ⟨inside, some⟩ := List.mem_filter.mp among
    obtain ⟨p, rfl⟩ := Option.isSome_iff_exists.mp some
    exact here_taken (fun p given => (named p given).2.2) inside

theorem made_clear (named : Named opts argv)
    (readable : key = .r → ∀ p ∈ argv, (sys p).isSome = true) (entries : List Entry) :
    (Clear sys opts key argv entries → made sys opts key argv entries = asked sys opts key argv entries) ∧
      (¬Clear sys opts key argv entries →
        Differ (here opts) (made sys opts key argv entries) (asked sys opts key argv entries)) := by
  have dealt := deal_putAfter (group_here named readable entries) (staying sys opts key argv entries)
  constructor
  · intro clear
    by_cases alone : argv = [] ∨ key = .d
    · have empty : group sys key argv entries = [] := by
        rcases alone with rfl | rfl
        · exact group_nil entries
        · rfl
      rw [made, if_pos alone, asked_alone empty]
    · rw [made, if_neg alone, asked]
      cases later : opts.bflag with
      | true => exact deal_putBefore _ _
      | false =>
        refine dealt.1 ?_
        rcases clear with nothing | deletes | before | once
        · exact absurd (.inl nothing) alone
        · exact absurd (.inr deletes) alone
        · rw [later] at before
          cases before
        · exact once
  · intro apart
    simp only [Clear, not_or, Bool.not_eq_true] at apart
    obtain ⟨some, edits, after, twice⟩ := apart
    rw [made, if_neg (not_or.mpr ⟨some, edits⟩), asked, after]
    exact dealt.2 twice

/-- Every block begins with a field for a name. -/
theorem long_bytes (e : Entry) : SARNAM ≤ e.bytes.length := by
  rw [Entry.bytes, List.length_append, e.length, SARNAM, hdrSize]
  omega

theorem long_member (file : File) (p : Name) : SARNAM ≤ (file.member p).length := by
  rw [File.member, printHdr, left, SARNAM]
  simp only [List.append_assoc]
  rw [List.length_append, List.length_append, List.length_replicate]
  omega

theorem long_block (readable : key = .r → ∀ p ∈ argv, (sys p).isSome = true) :
    ∀ block ∈ group sys key argv entries ++ staying sys opts key argv entries,
      SARNAM ≤ block.length := by
  intro block member
  have copied {served : List (Entry × Option Name)} (member : block ∈ kept served ∨ block ∈ taken served) :
      SARNAM ≤ block.length := by
    rcases member with member | member
    · obtain ⟨⟨e, mark⟩, -, rfl⟩ := List.mem_map.mp member
      exact long_bytes e
    · obtain ⟨⟨e, mark⟩, -, rfl⟩ := List.mem_map.mp member
      exact long_bytes e
  cases key with
  | d => exact copied (.inl member)
  | m =>
    rcases List.mem_append.mp member with moved | stays
    · exact copied (.inr moved)
    · exact copied (.inl stays)
  | r =>
    rcases List.mem_append.mp member with new | stays
    · rw [group, matched_serve] at new
      obtain ⟨p, left, rfl⟩ := List.mem_map.mp new
      obtain ⟨file, opened⟩ := Option.isSome_iff_exists.mp (readable rfl p (serve_left left))
      have written : fresh sys p = file.member p := by simp [fresh, archive, opened]
      rw [written]
      exact long_member file p
    · obtain ⟨⟨e, mark⟩, -, rfl⟩ := List.mem_map.mp stays
      unfold edited
      split
      · exact long_bytes _
      · split
        · exact long_bytes _
        · split
          · exact long_bytes _
          · exact long_member _ _

/-- No member and no file is lost or doubled, whatever the position is. -/
theorem made_perm : (made sys opts key argv entries).Perm
    (group sys key argv entries ++ staying sys opts key argv entries) := by
  by_cases alone : argv = [] ∨ key = .d
  · have empty : group sys key argv entries = [] := by
      rcases alone with rfl | rfl
      · exact group_nil entries
      · rfl
    rw [made, if_pos alone, empty, List.nil_append]
  · rw [made, if_neg alone]
    exact deal_perm _ _ _ _

theorem asked_perm : (asked sys opts key argv entries).Perm
    (group sys key argv entries ++ staying sys opts key argv entries) := by
  rw [asked]
  cases opts.bflag with
  | false => exact putAfter_perm _ _
  | true => exact putBefore_perm _ _

/-- The names of the blocks are in the archive, so that a difference in them is one of the archives. -/
theorem rendered_ne {xs ys : List (List UInt8)} (differ : Differ (here opts) xs ys)
    (long : ∀ block ∈ xs, SARNAM ≤ block.length) (long' : ∀ block ∈ ys, SARNAM ≤ block.length) :
    rendered xs ≠ rendered ys := by
  obtain ⟨front, x, xs', y, ys', rfl, rfl, ne⟩ := differ
  intro same
  simp only [rendered, List.flatten_append, List.flatten_cons, List.append_cancel_left_eq] at same
  have names := congrArg getfname same
  rw [getfname_append (long x (by simp)), getfname_append (long' y (by simp))] at names
  exact ne (by rw [here, here, names])

theorem not_asked (named : Named opts argv)
    (readable : key = .r → ∀ p ∈ argv, (sys p).isSome = true)
    (apart : ¬Clear sys opts key argv entries) (missing : Option Name) :
    ar sys opts key argv (some (rendered (entries.map Entry.bytes))) ≠
      some (rendered (asked sys opts key argv entries), missing) := by
  obtain ⟨left, ran⟩ := ar_made named readable entries
  rw [List.flatMap_def, ← rendered] at ran
  intro ran'
  rw [ran] at ran'
  refine rendered_ne ((made_clear named readable entries).2 apart) (fun block member => ?_)
    (fun block member => ?_) (congrArg Prod.fst (Option.some.inj ran'))
  · exact long_block readable block (made_perm.mem_iff.mp member)
  · exact long_block readable block (asked_perm.mem_iff.mp member)

theorem ar_asked (named : Named opts argv)
    (readable : key = .r → ∀ p ∈ argv, (sys p).isSome = true) :
    (∃ missing, ar sys opts key argv (some (rendered (entries.map Entry.bytes))) =
      some (rendered (asked sys opts key argv entries), missing)) ↔ Clear sys opts key argv entries := by
  constructor
  · rintro ⟨missing, ran⟩
    by_contra apart
    exact not_asked named readable apart missing ran
  · intro clear
    obtain ⟨missing, ran⟩ := ar_made named readable entries
    rw [List.flatMap_def, ← rendered] at ran
    exact ⟨missing, by rw [ran, (made_clear named readable entries).1 clear]⟩

/-- An empty member with a name of one letter. -/
def emptyMember (c : UInt8) : Entry where
  info :=
    { hdr := c :: List.replicate 15 32 ++ 48 :: List.replicate 11 32 ++ 48 :: List.replicate 5 32 ++
        48 :: List.replicate 5 32 ++ 48 :: List.replicate 7 32 ++ 48 :: List.replicate 9 32 ++ ARFMAG
      fname := getfname (c :: List.replicate 15 32)
      size := 0
      mode := 0
      date := 0 }
  body := []
  length := rfl
  valid := rfl
  whole := rfl

/-- `ar -m lib x` moves the first of two members to the end. -/
theorem ar_asked_end : ∃ missing,
    ar (fun _ => none) ⟨none, false, false⟩ .m [[120]]
        (some (rendered ([emptyMember 120, emptyMember 112].map Entry.bytes))) =
      some (rendered [(emptyMember 112).bytes, (emptyMember 120).bytes], missing) :=
  (ar_asked (by simp only [Named]; decide) (fun other => by cases other)).mpr
    (.inr (.inr (.inr ⟨⟩)))

/-- `ar -m -a p lib x` where `x` is already there, but another `p` follows. -/
theorem repeated_not_asked : ¬∃ missing,
    ar (fun _ => none) ⟨some [112], false, false⟩ .m [[120]]
        (some (rendered ([emptyMember 112, emptyMember 120, emptyMember 112].map Entry.bytes))) =
      some (rendered (asked (fun _ => none) ⟨some [112], false, false⟩ .m [[120]]
        [emptyMember 112, emptyMember 120, emptyMember 112]), missing) := by
  rintro ⟨missing, ran⟩
  refine not_asked (by simp only [Named]; decide) (fun other => by cases other) ?_ missing ran
  rintro (none | deletes | before | once)
  · cases none
  · cases deletes
  · cases before
  · rcases once with once | ⟨none, -⟩
    · exact absurd (once (emptyMember 112).bytes List.mem_cons_self) (by decide)
    · cases none

end Scc.Ar
