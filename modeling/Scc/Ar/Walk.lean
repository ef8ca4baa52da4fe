import Scc.Ar.EditPlaces
import Scc.Ar.HeaderProofs
import Scc.Ar.Ranlib

set_option linter.all false

/-! How the programs that read archives walk through the members that `ar` has written. -/
namespace Scc.Ar

/-- `ar -q` writes the files behind the archive. -/
def append (sys : System) (argv : List Name) (arfile : List UInt8) : Option (List UInt8) :=
  argv.foldlM (fun fp pname => (archive sys pname).map (fp ++ ·)) arfile

/-- The loop of `nmlib`: where each member begins and its name, and whether the end of the archive
is found. A seek to before the file does not move. -/
def nmlib (file : List UInt8) : Nat → Nat → Option (List (Nat × Name) × Bool)
  | 0, _ => none
  | fuel + 1, cur =>
    if (armember (file.drop cur)).1 = -1 then some ([], false)
    else if (armember (file.drop cur)).1 = 0 then some ([], true)
    else
      (nmlib file fuel
        (if cur + (armember (file.drop cur)).1 < 0 then cur
          else (cur + (armember (file.drop cur)).1).toNat)).map fun (members, end_) =>
        ((cur, (armember (file.drop cur)).2) :: members, end_)

/-- A file with the path under which it is written. -/
abbrev Input := File × Name

def Input.member (input : Input) : List UInt8 := File.member input.1 input.2

/-- The archive with a member for each file. -/
def library (inputs : List Input) : List UInt8 := rendered (inputs.map Input.member)

/-- Where each member begins, with the name that is stored for it. -/
def stored : Nat → List Input → List (Nat × Name)
  | _, [] => []
  | cur, input :: inputs =>
    (cur, canonical input.2) :: stored (cur + input.member.length) inputs

/-- Every member is visited once, in order and under its name, up to the end of the archive. -/
def Visited (inputs : List Input) : Prop :=
  ∃ fuel, nmlib (library inputs) fuel SARMAG = some (stored SARMAG inputs, true)

/-- A name that does not end in a slash, but can be one. -/
def Unslashed (name : Name) : Prop := name ≠ [] ∧ name.tail.getLast? ≠ some 47

/-- A file that is not empty, of which every number fits its field of the header. -/
structure Input.Plain (input : Input) : Prop where
  fits : input.1.Fits
  data : input.1.data ≠ []
  name : Unslashed (canonical input.2)

theorem append_library {sys : System} {argv : List Name} {given : List File}
    (readable : argv.mapM sys = some given) (inputs : List Input) :
    append sys argv (library inputs) = some (library (inputs ++ given.zip argv)) := by
  induction argv generalizing given inputs with
  | nil =>
    rw [List.mapM_nil] at readable
    cases readable
    rw [append, List.foldlM_nil, List.zip_nil_left, List.append_nil]
    rfl
  | cons pname argv ih =>
    rw [List.mapM_cons] at readable
    obtain ⟨file, opened, readable⟩ := Option.bind_eq_some_iff.mp readable
    obtain ⟨files, rest, readable⟩ := Option.bind_eq_some_iff.mp readable
    cases readable
    have written : library inputs ++ file.member pname = library (inputs ++ [(file, pname)]) := by
      simp only [library, rendered, List.map_append, List.flatten_append, List.append_assoc]
      rw [List.map_singleton, List.flatten_singleton]
      rfl
    rw [append, List.foldlM_cons, archive, opened]
    simp only [Option.map_some, Option.bind_eq_bind, Option.bind_some]
    rw [written]
    have later := ih rest (inputs ++ [(file, pname)])
    rw [append] at later
    rw [later, List.append_assoc]
    rfl

/-! ## The size -/

theorem digits_front {n : Nat} (positive : 0 < n) :
    ∃ d rest, 0 < d ∧ d < 10 ∧ digits 10 n = UInt8.ofNat (48 + d) :: rest := by
  have some_ : Nat.digits 10 n ≠ [] := Nat.digits_ne_nil_iff_ne_zero.mpr (by omega)
  have last := Nat.getLast_digit_ne_zero 10 (m := n) (by omega)
  have low := Nat.digits_lt_base (b := 10) (by decide) (List.getLast_mem some_)
  have split := List.dropLast_append_getLast some_
  refine ⟨(Nat.digits 10 n).getLast some_,
    ((Nat.digits 10 n).dropLast.reverse).map fun d => UInt8.ofNat (48 + d), by omega, low, ?_⟩
  rw [digits, Text.numeral, if_neg (by omega)]
  conv => lhs; rw [← split]
  rw [List.reverse_append, List.map_append]
  rfl

theorem digitOf_digit : ∀ d < 10, digitOf (UInt8.ofNat (48 + d)) = d := by
  decide

theorem digitsValue_left (width n : Nat) : digitsValue 10 (left width (digits 10 n)) = n := by
  have all : ∀ c ∈ digits 10 n, decide (digitOf c < 10) = true := by
    intro c member
    obtain ⟨d, low, rfl⟩ := Text.mem_numeral (by decide) member
    rw [digitOf_digit d low]
    exact decide_eq_true low
  have stops : ∀ k, (List.replicate k (32 : UInt8)).takeWhile (fun c => digitOf c < 10) = [] := by
    intro k
    cases k with
    | zero => rfl
    | succ k => rfl
  rw [digitsValue, left, List.takeWhile_append_of_pos all, stops, List.append_nil]
  exact Text.readDigits_numeral (by decide) digitOf_digit n

theorem strtol_left {n : Nat} (positive : 0 < n) : strtol (left 10 (digits 10 n)) = n := by
  have value := digitsValue_left 10 n
  obtain ⟨d, rest, nonzero, low, front⟩ := digits_front positive
  rw [front, left, List.cons_append] at value ⊢
  generalize rest ++ _ = s at value ⊢
  interval_cases d <;> exact congrArg Nat.cast value

theorem strtol_empty : strtol (left 10 (digits 10 0)) = 0 := by
  decide

/-! ## The name -/

theorem armemberName_left {name : Name} (short : name.length ≤ 16)
    (plain : ∀ c ∈ name, c ≠ 32 ∧ c ≠ 0) {hdr : List UInt8} (field : arName hdr = left 16 name) :
    armemberName hdr = name ↔ Unslashed name := by
  have blanks : ∀ k (s : List UInt8), (List.replicate k 32 ++ s).dropWhile
      (fun c => c = 32 || c = 47) = s.dropWhile fun c => c = 32 || c = 47 := by
    intro k s
    induction k with
    | zero => rfl
    | succ k ih =>
      rw [List.replicate_succ, List.cons_append, List.dropWhile_cons_of_pos (by rfl), ih]
  rw [armemberName, field, left]
  cases name with
  | nil =>
    constructor
    · intro same
      exact absurd same (by decide)
    · intro named
      exact absurd rfl named.1
  | cons c front =>
    have cut := List.dropWhile_suffix (l := front.reverse) fun c => c = 32 || c = 47
    have text : ∀ d ∈ c :: (front.reverse.dropWhile fun c => c = 32 || c = 47).reverse,
        decide (d ≠ 0) = true := by
      intro d member
      have inside : d ∈ c :: front := by
        rcases List.mem_cons.mp member with rfl | later
        · exact List.mem_cons_self
        · exact List.mem_cons_of_mem _ (List.mem_reverse.mp (cut.subset (List.mem_reverse.mp later)))
      exact decide_eq_true (plain d inside).2
    rw [List.cons_append, List.take_succ_cons, List.take_zero, List.drop_succ_cons, List.drop_zero,
      List.reverse_append, List.reverse_replicate, blanks, List.singleton_append,
      List.takeWhile_eq_self_iff.mpr text]
    constructor
    · intro same
      refine ⟨List.cons_ne_nil _ _, ?_⟩
      rw [List.tail_cons]
      intro slash
      have whole : front.reverse.dropWhile (fun c => c = 32 || c = 47) = front.reverse := by
        rw [← List.reverse_inj, List.reverse_reverse]
        exact List.tail_eq_of_cons_eq same
      rw [← List.head?_reverse] at slash
      cases behind : front.reverse with
      | nil =>
        rw [behind] at slash
        cases slash
      | cons d before =>
        rw [behind, List.head?_cons] at slash
        cases slash
        have shorter := (List.dropWhile_suffix (l := before) fun c => c = 32 || c = 47).length_le
        rw [behind, List.dropWhile_cons_of_pos (by rfl)] at whole
        rw [whole, List.length_cons] at shorter
        omega
    · rintro ⟨-, other⟩
      rw [List.tail_cons, ← List.head?_reverse] at other
      have whole : front.reverse.dropWhile (fun c => c = 32 || c = 47) = front.reverse := by
        cases behind : front.reverse with
        | nil => rfl
        | cons d before =>
          rw [behind, List.head?_cons] at other
          have blank := (plain d (by
            apply List.mem_cons_of_mem
            rw [← List.mem_reverse, behind]
            exact List.mem_cons_self)).1
          apply List.dropWhile_cons_of_neg
          simp only [Bool.or_eq_true, decide_eq_true_eq, not_or]
          exact ⟨blank, fun same => other (congrArg some same)⟩
      rw [whole, List.reverse_reverse]

/-! ## One member -/

section
variable {input : Input}

/-- The fields between the name and the magic number. -/
def numbers (file : File) : List UInt8 :=
  left 12 (decimal file.time) ++ left 6 (digits 10 file.uid) ++ left 6 (digits 10 file.gid) ++
    left 8 (digits 8 file.mode) ++ left 10 (digits 10 file.data.length)

theorem digits_byte {b n : Nat} (positive : 1 < b) (small : b ≤ 10) : ∀ c ∈ digits b n, c ≠ 96 := by
  intro c member
  obtain ⟨d, low, rfl⟩ := Text.mem_numeral positive member
  have ten : d < 10 := by omega
  interval_cases d <;> decide

theorem left_byte {w : Nat} {s : List UInt8} (all : ∀ c ∈ s, c ≠ 96) : ∀ c ∈ left w s, c ≠ 96 := by
  intro c member
  rcases List.mem_append.mp member with member | blank
  · exact all c member
  · rw [List.eq_of_mem_replicate blank]
    decide

theorem decimal_byte (time : Int) : ∀ c ∈ decimal time, c ≠ 96 := by
  cases time with
  | ofNat n => exact digits_byte (by decide) (by decide)
  | negSucc n =>
    intro c member
    rcases List.mem_cons.mp member with rfl | member
    · decide
    · exact digits_byte (b := 10) (by decide) (by decide) c member

theorem numbers_byte (file : File) : ∀ c ∈ numbers file, c ≠ 96 := by
  intro c member
  simp only [numbers, List.mem_append] at member
  rcases member with (((date | user) | group) | mode) | size
  · exact left_byte (decimal_byte _) c date
  · exact left_byte (digits_byte (by decide) (by decide)) c user
  · exact left_byte (digits_byte (by decide) (by decide)) c group
  · exact left_byte (digits_byte (by decide) (by decide)) c mode
  · exact left_byte (digits_byte (by decide) (by decide)) c size

/-- A header that is too long has no magic number where one is looked for. -/
theorem fmag_long (long : ¬input.1.Fits) (rest : List UInt8) :
    arFmag (input.1.header input.2 ++ rest) ≠ ARFMAG := by
  have name := (length_left (w := 16) ((canonical input.2).take 16)).2.mpr (List.length_take_le 16 _)
  have least := length_printHdr (canonical input.2) input.1.time input.1.uid input.1.gid input.1.mode
    input.1.data.length
  have split : input.1.header input.2 =
      left 16 ((canonical input.2).take 16) ++ (numbers input.1 ++ ARFMAG) := by
    simp only [File.header, printHdr, numbers, List.append_assoc]
  have magic : ARFMAG.length = 2 := rfl
  rw [← length_header input.1 input.2] at long
  rw [← File.header] at least
  rw [split] at long least ⊢
  simp only [List.length_append, name, magic, hdrSize] at long least
  intro same
  have byte : (arFmag (left 16 ((canonical input.2).take 16) ++ (numbers input.1 ++ ARFMAG) ++ rest))[0]? =
      some 96 := by
    rw [same]
    rfl
  rw [arFmag, List.getElem?_take_of_lt (by decide), List.getElem?_drop, List.append_assoc,
    List.getElem?_append_right (by omega), List.append_assoc,
    List.getElem?_append_left (by omega), name] at byte
  exact numbers_byte input.1 96 (List.mem_of_getElem? byte) rfl

theorem member_long (input : Input) (rest : List UInt8) :
    ¬(input.member ++ rest).length < hdrSize := by
  have least := length_printHdr (canonical input.2) input.1.time input.1.uid input.1.gid input.1.mode
    input.1.data.length
  simp only [Input.member, File.member, List.length_append]
  omega

theorem length_member (fits : input.1.Fits) :
    input.member.length = hdrSize + (input.1.data.length + input.1.data.length % 2) := by
  have header := (length_header input.1 input.2).mpr fits
  rw [File.header] at header
  rw [Input.member, File.member, List.length_append, List.length_append, header]
  split <;> (simp only [List.length_singleton, List.length_nil]; omega)

theorem member_fields (fits : input.1.Fits) (rest : List UInt8) : Fields input.1 (input.member ++ rest) := by
  rw [Input.member, File.member, ← File.header, List.append_assoc, List.append_assoc]
  exact header_fields fits input.2 _

/-- The length of a member is returned where the member is not empty. -/
theorem armember_full (fits : input.1.Fits) (data : input.1.data ≠ []) (rest : List UInt8) :
    armember (input.member ++ rest) =
      ((input.member.length : Int), armemberName (input.member ++ rest)) := by
  have fields := member_fields fits rest
  have some_ : 0 < input.1.data.length := List.length_pos_iff.mpr data
  rw [armember, if_neg (member_long input rest), if_neg (not_not.mpr fields.fmag), fields.size,
    strtol_left some_, length_member fits]
  dsimp only
  rw [if_neg (by omega)]
  congr 1

theorem armember_empty (fits : input.1.Fits) (data : input.1.data = []) (rest : List UInt8) :
    armember (input.member ++ rest) = (-1, []) := by
  have fields := member_fields fits rest
  have none : input.1.data.length = 0 := List.length_eq_zero_iff.mpr data
  rw [armember, if_neg (member_long input rest), if_neg (not_not.mpr fields.fmag), fields.size, none,
    strtol_empty]
  rfl

theorem armember_long (long : ¬input.1.Fits) (rest : List UInt8) :
    armember (input.member ++ rest) = (-1, []) := by
  have other := fmag_long long (input.1.data ++ (if input.1.data.length % 2 = 1 then [10] else []) ++ rest)
  have front : input.member ++ rest = input.1.header input.2 ++
      (input.1.data ++ (if input.1.data.length % 2 = 1 then [10] else []) ++ rest) := by
    simp only [Input.member, File.member, File.header, List.append_assoc]
  rw [← front] at other
  rw [armember, if_neg (member_long input rest), if_pos other]

theorem armemberName_member (accepted : checkfname input.2 = true) (text : (0 : UInt8) ∉ input.2)
    (rest : List UInt8) :
    armemberName (input.member ++ rest) = canonical input.2 ↔ Unslashed (canonical input.2) := by
  obtain ⟨short, plain⟩ := canonical_plain accepted text
  exact armemberName_left short plain (arName_member accepted text input.1 rest)

/-! ## The whole archive -/

theorem nmlib_end (front : List UInt8) (fuel : Nat) :
    nmlib front (fuel + 1) front.length = some ([], true) := by
  rw [nmlib, List.drop_length]
  rfl

theorem nmlib_full (front : List UInt8) (fits : input.1.Fits) (data : input.1.data ≠ [])
    (rest : List UInt8) (fuel : Nat) :
    nmlib (front ++ (input.member ++ rest)) (fuel + 1) front.length =
      (nmlib (front ++ input.member ++ rest) fuel (front ++ input.member).length).map
        fun (members, end_) => ((front.length, armemberName (input.member ++ rest)) :: members, end_) := by
  have positive : hdrSize ≤ input.member.length := by
    rw [length_member fits]
    omega
  rw [hdrSize] at positive
  have next : ((front.length : Int) + input.member.length).toNat = (front ++ input.member).length := by
    rw [List.length_append]
    omega
  rw [nmlib, List.drop_left, armember_full fits data, List.append_assoc]
  dsimp only
  rw [if_neg (by omega), if_neg (by omega), if_neg (by omega), next]

theorem nmlib_corrupted (front : List UInt8) (corrupted : ¬(input.1.Fits ∧ input.1.data ≠ []))
    (rest : List UInt8) (fuel : Nat) :
    nmlib (front ++ (input.member ++ rest)) (fuel + 1) front.length = some ([], false) := by
  have error : armember (input.member ++ rest) = (-1, []) := by
    by_cases fits : input.1.Fits
    · exact armember_empty fits (not_not.mp fun data => corrupted ⟨fits, data⟩) rest
    · exact armember_long fits rest
  rw [nmlib, List.drop_left, error]
  rfl

theorem nmlib_members (inputs : List Input)
    (named : ∀ input ∈ inputs, checkfname input.2 = true ∧ (0 : UInt8) ∉ input.2)
    (front : List UInt8) :
    (∃ fuel, nmlib (front ++ (inputs.map Input.member).flatten) fuel front.length =
      some (stored front.length inputs, true)) ↔ ∀ input ∈ inputs, input.Plain := by
  induction inputs generalizing front with
  | nil =>
    simp only [List.map_nil, List.flatten_nil, List.append_nil, List.not_mem_nil, false_implies,
      implies_true, iff_true]
    exact ⟨1, nmlib_end front 0⟩
  | cons input inputs ih =>
    obtain ⟨accepted, text⟩ := named input List.mem_cons_self
    have later := ih (fun input member => named input (List.mem_cons_of_mem _ member))
      (front ++ input.member)
    rw [List.map_cons, List.flatten_cons, List.forall_mem_cons, ← later, stored]
    constructor
    · rintro ⟨fuel, ran⟩
      cases fuel with
      | zero => cases ran
      | succ fuel =>
        by_cases corrupted : input.1.Fits ∧ input.1.data ≠ []
        · obtain ⟨fits, data⟩ := corrupted
          rw [nmlib_full front fits data] at ran
          obtain ⟨⟨members, end_⟩, rest, same⟩ := Option.map_eq_some_iff.mp ran
          obtain ⟨names, rfl⟩ := Prod.mk.inj same
          obtain ⟨name, rfl⟩ := List.cons.inj names
          have name := (armemberName_member accepted text _).mp (Prod.mk.inj name).2
          rw [List.length_append] at rest ⊢
          exact ⟨⟨fits, data, name⟩, fuel, rest⟩
        · rw [nmlib_corrupted front corrupted] at ran
          cases ran
    · rintro ⟨plain, fuel, ran⟩
      refine ⟨fuel + 1, ?_⟩
      rw [nmlib_full front plain.fits plain.data, ran,
        (armemberName_member accepted text _).mpr plain.name, List.length_append]
      rfl

/-- An archive is walked through where no member is empty or has numbers that are too long for its
header, and no name ends in a slash. -/
theorem visited_iff {inputs : List Input}
    (named : ∀ input ∈ inputs, checkfname input.2 = true ∧ (0 : UInt8) ∉ input.2) :
    Visited inputs ↔ ∀ input ∈ inputs, input.Plain :=
  nmlib_members inputs named ARMAG

end

/-- Two files, one of them with an odd size and a name that fills its field. -/
theorem visited_two : Visited [(⟨0, 0, 33188, 0, [104, 105, 10]⟩, [100, 47, 120]),
    (⟨0, 0, 33188, 0, [0, 1]⟩, List.replicate 16 97)] := by
  apply (visited_iff (by decide)).mpr
  intro input member
  simp only [List.mem_cons, List.not_mem_nil, or_false] at member
  rcases member with rfl | rfl
  · exact ⟨⟨by decide, by decide, by decide, by decide, by decide⟩, by decide, by decide, by decide⟩
  · exact ⟨⟨by decide, by decide, by decide, by decide, by decide⟩, by decide, by decide, by decide⟩

/-- The empty file `x` is an error for every program that walks through the archive. -/
theorem empty_not_visited : checkfname [120] = true ∧ ¬Visited [(⟨0, 0, 33188, 0, []⟩, [120])] := by
  constructor
  · decide
  · rintro ⟨fuel, ran⟩
    cases fuel with
    | zero => cases ran
    | succ fuel =>
      rw [library, rendered, List.map_singleton, List.flatten_singleton, ← List.append_nil (Input.member _),
        show SARMAG = ARMAG.length from rfl, nmlib_corrupted ARMAG (fun full => full.2 rfl)] at ran
      cases ran

end Scc.Ar
