import Scc.Ar.EditProofs

set_option linter.all false

/-! When a header that `archive` prints is read back as it was. -/
namespace Scc.Ar

def arUid (hdr : List UInt8) : List UInt8 := (hdr.drop 28).take 6
def arGid (hdr : List UInt8) : List UInt8 := (hdr.drop 34).take 6

/-! ## Numbers in fields -/

theorem getnum_blanks (base v n : Nat) : getnum base v (List.replicate n 32) = some v := by
  cases n with
  | zero => rfl
  | succ n =>
    rw [List.replicate_succ, getnum, if_pos rfl, if_pos]
    simp

theorem getnum_digits {base : Nat} (small : base ≤ 10) {ds : List UInt8}
    (all : ∀ c ∈ ds, ∃ d < base, UInt8.ofNat (48 + d) = c) (v n : Nat) :
    getnum base v (ds ++ List.replicate n 32) =
      some (ds.foldl (fun v c => v * base + (c.toNat - 48)) v) := by
  induction ds generalizing v with
  | nil => exact getnum_blanks base v n
  | cons c ds ih =>
    obtain ⟨d, low, rfl⟩ := all c List.mem_cons_self
    have value : (UInt8.ofNat (48 + d)).toNat = 48 + d := by
      rw [UInt8.toNat_ofNat']
      omega
    have notBlank : UInt8.ofNat (48 + d) ≠ 32 := by
      intro same
      rw [same] at value
      have : (32 : UInt8).toNat = 32 := rfl
      omega
    rw [List.cons_append, getnum, if_neg notBlank, if_pos (by omega), ih]
    · rfl
    · intro c member
      exact all c (List.mem_cons_of_mem _ member)

theorem getnum_left {b width n : Nat} (positive : 1 < b) (small : b ≤ 10) :
    getnum b 0 (left width (digits b n)) = some n := by
  rw [left, getnum_digits small]
  · apply congrArg some
    apply Text.readDigits_numeral positive
    intro d low
    rw [UInt8.toNat_ofNat']
    omega
  · intro c member
    exact Text.mem_numeral positive member

/-- A field keeps its width where the number has no more digits. -/
theorem length_left {w : Nat} (s : List UInt8) :
    w ≤ (left w s).length ∧ ((left w s).length = w ↔ s.length ≤ w) := by
  rw [left, List.length_append, List.length_replicate]
  omega

theorem length_printHdr (name : Name) (time : Int) (uid gid mode size : Nat) :
    hdrSize ≤ (printHdr name time uid gid mode size).length := by
  have name := (length_left (w := 16) (name.take 16)).1
  have date := (length_left (w := 12) (decimal time)).1
  have user := (length_left (w := 6) (digits 10 uid)).1
  have group := (length_left (w := 6) (digits 10 gid)).1
  have mode := (length_left (w := 8) (digits 8 mode)).1
  have size := (length_left (w := 10) (digits 10 size)).1
  have magic : ARFMAG.length = 2 := rfl
  simp only [printHdr, List.length_append, hdrSize]
  omega

theorem length_digits {b k n : Nat} (positive : 1 < b) :
    (digits b n).length ≤ k + 1 ↔ n < b ^ (k + 1) := by
  constructor
  · intro short
    by_cases zero : n = 0
    · subst zero
      exact Nat.pow_pos (Nat.zero_lt_of_lt positive)
    · rw [digits, Text.numeral, if_neg zero, List.length_map, List.length_reverse] at short
      exact (Nat.digits_length_le_iff positive n).mp short
  · intro small
    exact Text.numeral_length_le positive _ small

/-- Seconds before the epoch have a sign in front. -/
theorem length_decimal {k : Nat} (time : Int) :
    (decimal time).length ≤ k + 2 ↔ -10 ^ (k + 1) < time ∧ time < 10 ^ (k + 2) := by
  have short : (10 : Int) ^ (k + 1) = ((10 ^ (k + 1) : Nat) : Int) := (Int.natCast_pow 10 _).symm
  have long : (10 : Int) ^ (k + 2) = ((10 ^ (k + 2) : Nat) : Int) := (Int.natCast_pow 10 _).symm
  have positive : 0 < 10 ^ (k + 1) ∧ 0 < 10 ^ (k + 2) := ⟨Nat.pow_pos (by decide), Nat.pow_pos (by decide)⟩
  have front (n : Nat) : (digits 10 n).length ≤ k + 2 ↔ n < 10 ^ (k + 2) := length_digits (by decide)
  have behind (n : Nat) : (digits 10 n).length ≤ k + 1 ↔ n < 10 ^ (k + 1) := length_digits (by decide)
  rw [short, long]
  generalize 10 ^ (k + 1) = low at *
  generalize 10 ^ (k + 2) = high at *
  cases time with
  | ofNat n =>
    have front := front n
    rw [decimal, front, Int.ofNat_eq_natCast]
    omega
  | negSucc n =>
    have behind := behind (n + 1)
    rw [decimal, List.length_cons, Int.negSucc_eq]
    omega

/-! ## The whole header -/

/-- The header that `archive` writes for a file. -/
def File.header (file : File) (pname : Name) : List UInt8 :=
  printHdr (canonical pname) file.time file.uid file.gid file.mode file.data.length

/-- Every property of the file has the digits of its field. -/
structure File.Fits (file : File) : Prop where
  uid : file.uid < 10 ^ 6
  gid : file.gid < 10 ^ 6
  mode : file.mode < 8 ^ 8
  time : -10 ^ 11 < file.time ∧ file.time < 10 ^ 12
  size : file.data.length < 10 ^ 10

/-- What `valid`, `getfname` and `getnum` read from a header is what was printed. -/
structure RoundTrip (file : File) (pname : Name) : Prop where
  length : (file.header pname).length = hdrSize
  valid : ∃ m, Ar.valid (file.header pname) = some m ∧ m.fname = canonical pname ∧
    m.mode = file.mode ∧ (m.date : Int) = file.time ∧ m.size = file.data.length
  uid : getnum 10 0 (arUid (file.header pname)) = some file.uid
  gid : getnum 10 0 (arGid (file.header pname)) = some file.gid

section
variable {file : File} {pname : Name}

theorem length_header (file : File) (pname : Name) :
    (file.header pname).length = hdrSize ↔ file.Fits := by
  have name := (length_left (w := 16) ((canonical pname).take 16)).2.mpr (List.length_take_le 16 _)
  obtain ⟨date, dateFits⟩ := length_left (w := 12) (decimal file.time)
  obtain ⟨user, userFits⟩ := length_left (w := 6) (digits 10 file.uid)
  obtain ⟨group, groupFits⟩ := length_left (w := 6) (digits 10 file.gid)
  obtain ⟨mode, modeFits⟩ := length_left (w := 8) (digits 8 file.mode)
  obtain ⟨size, sizeFits⟩ := length_left (w := 10) (digits 10 file.data.length)
  have magic : ARFMAG.length = 2 := rfl
  rw [length_decimal (k := 10)] at dateFits
  rw [length_digits (by decide)] at userFits groupFits modeFits sizeFits
  simp only [File.header, printHdr, List.length_append, hdrSize]
  constructor
  · intro exact_
    exact ⟨userFits.mp (by omega), groupFits.mp (by omega), modeFits.mp (by omega),
      dateFits.mp (by omega), sizeFits.mp (by omega)⟩
  · rintro ⟨uid, gid, octal, time, length⟩
    have date := dateFits.mpr time
    have user := userFits.mpr uid
    have group := groupFits.mpr gid
    have mode := modeFits.mpr octal
    have size := sizeFits.mpr length
    omega

theorem slice {α : Type} {front field : List α} {i w : Nat} (before : front.length = i)
    (width : field.length = w) (back : List α) : ((front ++ (field ++ back)).drop i).take w = field := by
  rw [List.drop_left' before, List.take_left' width]

/-- The fields of a header in which everything fits. -/
structure Fields (file : File) (hdr : List UInt8) : Prop where
  date : arDate hdr = left 12 (decimal file.time)
  uid : arUid hdr = left 6 (digits 10 file.uid)
  gid : arGid hdr = left 6 (digits 10 file.gid)
  mode : arMode hdr = left 8 (digits 8 file.mode)
  size : arSize hdr = left 10 (digits 10 file.data.length)
  fmag : arFmag hdr = ARFMAG

theorem header_fields (fits : file.Fits) (pname : Name) (back : List UInt8) :
    Fields file (file.header pname ++ back) := by
  have name := (length_left (w := 16) ((canonical pname).take 16)).2.mpr (List.length_take_le 16 _)
  have date := (length_left (w := 12) (decimal file.time)).2.mpr
    ((length_decimal (k := 10) _).mpr fits.time)
  have user := (length_left (w := 6) (digits 10 file.uid)).2.mpr
    ((length_digits (by decide)).mpr fits.uid)
  have group := (length_left (w := 6) (digits 10 file.gid)).2.mpr
    ((length_digits (by decide)).mpr fits.gid)
  have mode := (length_left (w := 8) (digits 8 file.mode)).2.mpr
    ((length_digits (by decide)).mpr fits.mode)
  have size := (length_left (w := 10) (digits 10 file.data.length)).2.mpr
    ((length_digits (by decide)).mpr fits.size)
  rw [File.header, printHdr]
  generalize left 16 ((canonical pname).take 16) = n at *
  generalize ended : ARFMAG = magic
  have two : magic.length = 2 := by rw [← ended]; rfl
  constructor
  · rw [arDate, List.append_assoc, List.append_assoc, List.append_assoc, List.append_assoc,
      List.append_assoc, List.append_assoc]
    exact slice name date _
  · rw [arUid, List.append_assoc, List.append_assoc, List.append_assoc, List.append_assoc,
      List.append_assoc]
    exact slice (by rw [List.length_append, name, date]) user _
  · rw [arGid, List.append_assoc, List.append_assoc, List.append_assoc, List.append_assoc]
    exact slice (by simp only [List.length_append, name, date, user]) group _
  · rw [arMode, List.append_assoc, List.append_assoc, List.append_assoc]
    exact slice (by simp only [List.length_append, name, date, user, group]) mode _
  · rw [arSize, List.append_assoc, List.append_assoc]
    exact slice (by simp only [List.length_append, name, date, user, group, mode]) size _
  · rw [arFmag, List.append_assoc, ended]
    exact slice (by simp only [List.length_append, name, date, user, group, mode, size]) two _

theorem getfname_header (accepted : checkfname pname = true) (text : (0 : UInt8) ∉ pname)
    (file : File) : getfname (file.header pname) = canonical pname := by
  have named := getfname_member accepted text file
  have long : SARNAM ≤ (file.header pname).length := by
    have name := (length_left (w := 16) ((canonical pname).take 16)).1
    simp only [File.header, printHdr, List.length_append, SARNAM]
    omega
  rwa [File.member, List.append_assoc, ← File.header, getfname_append long] at named

theorem valid_header (fits : file.Fits) {n : Nat} (time : file.time = n) (pname : Name) :
    Ar.valid (file.header pname) =
      some ⟨file.header pname, getfname (file.header pname), file.data.length, file.mode, n⟩ := by
  have fields := header_fields fits pname []
  rw [List.append_nil] at fields
  rw [Ar.valid, fields.size, fields.mode, fields.date, fields.fmag, time]
  simp only [decimal, getnum_left (b := 10) (by decide) (by decide),
    getnum_left (b := 8) (by decide) (by decide), Option.bind_eq_bind, Option.bind_some, if_true]

/-- The header is read back where every number fits its field and the time is not before the epoch. -/
theorem roundTrip_iff (accepted : checkfname pname = true) (text : (0 : UInt8) ∉ pname)
    (file : File) :
    RoundTrip file pname ↔ file.uid < 10 ^ 6 ∧ file.gid < 10 ^ 6 ∧ file.mode < 8 ^ 8 ∧
      (0 ≤ file.time ∧ file.time < 10 ^ 12) ∧ file.data.length < 10 ^ 10 := by
  constructor
  · intro trip
    obtain ⟨uid, gid, mode, time, size⟩ := (length_header file pname).mp trip.length
    obtain ⟨m, -, -, -, date, -⟩ := trip.valid
    exact ⟨uid, gid, mode, ⟨date ▸ Int.natCast_nonneg m.date, time.2⟩, size⟩
  · rintro ⟨uid, gid, mode, time, size⟩
    have fits : file.Fits := ⟨uid, gid, mode, ⟨by omega, time.2⟩, size⟩
    obtain ⟨n, date⟩ := Int.eq_ofNat_of_zero_le time.1
    have fields := header_fields fits pname []
    rw [List.append_nil] at fields
    constructor
    · exact (length_header file pname).mpr fits
    · exact ⟨_, valid_header fits date pname, getfname_header accepted text file, rfl, date.symm, rfl⟩
    · rw [fields.uid]
      exact getnum_left (by decide) (by decide)
    · rw [fields.gid]
      exact getnum_left (by decide) (by decide)

end

/-- A file `x` of an ordinary user. -/
theorem roundTrip_x : RoundTrip ⟨1000, 1000, 33188, 1700000000, [104, 105, 10]⟩ [120] :=
  (roundTrip_iff (by decide) (by decide) _).mpr (by decide)

/-- The first user identifier with seven digits. -/
theorem uid_moves_fields : checkfname [120] = true ∧ ¬RoundTrip ⟨1000000, 1000, 33188, 1700000000, []⟩ [120] := by
  constructor
  · decide
  · intro trip
    have fits := (length_header _ _).mp trip.length
    exact absurd fits.uid (by decide)

end Scc.Ar
