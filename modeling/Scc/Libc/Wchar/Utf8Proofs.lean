import Scc.Libc.Wchar.Utf8

set_option linter.all false

/-! What the conversions do with each character and with each sequence of bytes. -/
namespace Scc.Libc.Wchar

/-- The code of a Unicode scalar value in UTF-8. -/
def utf8 (c : Char) : List UInt8 := String.utf8EncodeChar c

/-- The bytes begin a code, but do not end it. -/
def Incomplete (bytes : List UInt8) : Prop := ∃ c, bytes <+: utf8 c ∧ bytes ≠ utf8 c

/-- No code begins with the bytes, nor do they begin with a code. -/
def Malformed (bytes : List UInt8) : Prop := ∀ c, ¬utf8 c <+: bytes ∧ ¬bytes <+: utf8 c

/-- `wcrtomb` rejects what is no scalar value, and `mbrtowc` gives a scalar value back from what
`wcrtomb` writes for it. -/
structure Encodes (wc : Int) : Prop where
  rejects : wcrtomb wc = none ↔ ∀ c : Char, wc ≠ c.toNat
  roundtrip : ∀ c : Char, wc = c.toNat → ∃ bytes, wcrtomb wc = some bytes ∧
    ∀ s : Nat → UInt8, (List.range bytes.length).map s = bytes →
      (mbrtowc s bytes.length).pwc = some wc ∧ (mbrtowc s bytes.length).looked = bytes.length

/-- `mbrtowc` keeps to the limit, accepts a complete code, and rejects bytes that are malformed. -/
structure Decodes (s : Nat → UInt8) (n : Nat) : Prop where
  limit : (mbrtowc s n).looked ≤ n
  accepts : ∀ c : Char, utf8 c <+: (List.range n).map s →
    (mbrtowc s n).pwc = some (c.toNat : Int) ∧
      (mbrtowc s n).ret = if c.toNat = 0 then 0 else ((utf8 c).length : Int)
  rejects : Malformed ((List.range n).map s) → (mbrtowc s n).ret = -1 ∧ (mbrtowc s n).eilseq = true

/-! ## The ranges -/

theorem Range.holds_iff {c : Nat} {bp : Range} : bp.holds c = true ↔ bp.start ≤ c ∧ c < bp.fin := by
  rw [holds, Bool.and_eq_true, decide_eq_true_eq, decide_eq_true_eq]

theorem validutf8_ascii {wc : Int} (small : unsignedLong wc < 0x80) : validutf8 wc = (true, 2) := by
  have goes : Range.holds (unsignedLong wc) ⟨0, 0x80, true, 1⟩ = true :=
    Range.holds_iff.mpr ⟨Nat.zero_le _, small⟩
  have stays : ¬Range.holds (unsignedLong wc) ⟨0x80, 0x800, true, 2⟩ = true := by
    rw [Range.holds_iff]
    dsimp only
    omega
  rw [validutf8, ranges, List.dropWhile_cons_of_pos goes, List.dropWhile_cons_of_neg stays]

theorem unsignedLong_other {wc : Int} (other : ¬(0 ≤ wc ∧ wc < 0x80))
    (fits : -2 ^ 31 ≤ wc ∧ wc < 2 ^ 31) : 0x80 ≤ unsignedLong wc := by
  rw [unsignedLong]
  omega

theorem validutf8_other {wc : Int} (large : 0x80 ≤ unsignedLong wc) : validutf8 wc = (true, 1) := by
  have stays : ¬Range.holds (unsignedLong wc) ⟨0, 0x80, true, 1⟩ = true := by
    rw [Range.holds_iff]
    dsimp only
    omega
  rw [validutf8, ranges, List.dropWhile_cons_of_neg stays]

theorem wchar_fits (wc : Nat) : -2 ^ 31 ≤ wchar wc ∧ wchar wc < 2 ^ 31 := by
  rw [wchar]
  split
  · omega
  · omega

/-! ## Reading -/

theorem leading_count (n c len : Nat) : (leading n c len).1 + (leading n c len).2.2 = n + len := by
  induction n generalizing c len with
  | zero => rfl
  | succ n ih =>
    rw [leading]
    split
    · rw [ih]
      omega
    · rfl

theorem leading_le (n c len : Nat) : len ≤ (leading n c len).2.2 := by
  induction n generalizing c len with
  | zero => exact Nat.le_refl len
  | succ n ih =>
    rw [leading]
    split
    · exact Nat.le_trans (Nat.le_succ len) (ih _ _)
    · exact Nat.le_refl len

theorem continued_looked (s : Nat → UInt8) (i t wc : Nat) : (continued s i t wc).2 ≤ t + i := by
  induction i generalizing t wc with
  | zero => exact Nat.le_refl t
  | succ i ih =>
    rw [continued]
    split
    · dsimp only
      omega
    · have := ih (t + 1) ((wc <<< 6 ||| (s t &&& 0x3F).toNat) % 2 ^ 64)
      omega

theorem leading_ascii (n : Nat) {c : Nat} (ascii : c &&& 0x80 = 0) :
    leading (n + 1) c 0 = (n + 1, c, 0) := by
  rw [leading, if_neg (not_not.mpr ascii)]

set_option maxRecDepth 2000 in
theorem and_high : ∀ x < 256, x &&& 0x80 = 0 ↔ x < 0x80 := by decide

theorem checked_cases (s : Nat → UInt8) {len : Nat} (more : 1 < len) (wc looked : Nat) :
    checked s len wc looked = failed looked ∨
      checked s len wc looked = converted s wc looked ∧ 0 ≤ wchar wc ∧ wchar wc < 0x80 := by
  rw [checked]
  split
  · exact .inl rfl
  · rename_i found
    refine .inr ⟨rfl, ?_⟩
    by_contra other
    rw [validutf8_other (unsignedLong_other other (wchar_fits wc))] at found
    simp at found
    omega

/-- What is accepted of bytes that begin above 0x7f is a value below 0x80. -/
theorem multibyte_cases (s : Nat → UInt8) (c : Nat) {len : Nat} (more : 1 < len) :
    ∃ looked ≤ len, multibyte s c len = failed looked ∨
      ∃ wc, multibyte s c len = converted s wc looked ∧ 0 ≤ wchar wc ∧ wchar wc < 0x80 := by
  have bound := continued_looked s (len - 1) 1 ((c &&& 0xFF) >>> len)
  rw [multibyte]
  generalize continued s (len - 1) 1 ((c &&& 0xFF) >>> len) = result at bound ⊢
  obtain ⟨found, looked⟩ := result
  dsimp only at bound
  refine ⟨looked, by omega, ?_⟩
  cases found with
  | none => exact .inl rfl
  | some wc =>
    rcases checked_cases s more wc looked with fails | ⟨accepts, value⟩
    · exact .inl fails
    · exact .inr ⟨wc, accepts, value⟩

theorem mbrtowc_high (s : Nat → UInt8) {n : Nat} (some' : 0 < n) (high : 0x80 ≤ (s 0).toNat) :
    ∃ looked ≤ n, mbrtowc s n = failed looked ∨
      ∃ wc, mbrtowc s n = converted s wc looked ∧ 0 ≤ wchar wc ∧ wchar wc < 0x80 := by
  have count := leading_count n (s 0).toNat 0
  have ones : (leading n (s 0).toNat 0).2.2 ≠ 0 := by
    obtain ⟨k, rfl⟩ := Nat.exists_eq_succ_of_ne_zero (Nat.ne_of_gt some')
    have bit : (s 0).toNat &&& 0x80 ≠ 0 := by
      rw [ne_eq, and_high _ (s 0).toNat_lt]
      omega
    rw [leading, if_pos bit]
    have grows := leading_le k ((s 0).toNat <<< 1 % 2 ^ 32) (0 + 1)
    omega
  rw [mbrtowc]
  generalize leading n (s 0).toNat 0 = result at count ones ⊢
  obtain ⟨left, c, len⟩ := result
  dsimp only at count ones ⊢
  split
  · exact ⟨1, some', .inl rfl⟩
  · rename_i ends
    simp only [Bool.or_eq_true, decide_eq_true_eq, not_or] at ends
    have more : 1 < len := by omega
    obtain ⟨looked, le, result⟩ := multibyte_cases s c more
    exact ⟨looked, by omega, result⟩

theorem mbrtowc_ascii (s : Nat → UInt8) {n : Nat} (some' : 0 < n) (ascii : (s 0).toNat < 0x80) :
    mbrtowc s n = converted s (s 0).toNat 1 := by
  obtain ⟨k, rfl⟩ := Nat.exists_eq_succ_of_ne_zero (Nat.ne_of_gt some')
  rw [mbrtowc, leading_ascii k ((and_high _ (s 0).toNat_lt).mpr ascii)]
  rfl

theorem mbrtowc_zero (s : Nat → UInt8) : mbrtowc s 0 = failed 1 := rfl

theorem wchar_byte (b : UInt8) : wchar b.toNat = b.toNat := by
  have small := b.toNat_lt
  rw [wchar]
  split
  · omega
  · omega

/-! ## Codes -/

theorem utf8_ascii {c : Char} (ascii : c.toNat < 0x80) : utf8 c = [UInt8.ofNat c.toNat] :=
  if_pos (Nat.le_of_lt_succ ascii)

/-- The first byte of a longer code is above 0x7f. -/
theorem utf8_high {c : Char} (high : 0x80 ≤ c.toNat) : ∃ b bytes, utf8 c = b :: bytes ∧ 0x80 ≤ b.toNat := by
  rw [utf8, String.utf8EncodeChar]
  have not1 : ¬c.val.toNat ≤ 0x7f := Nat.not_le.mpr high
  rw [if_neg not1]
  split
  · refine ⟨_, _, rfl, ?_⟩
    rw [UInt8.toNat_ofNat']
    omega
  · split
    · refine ⟨_, _, rfl, ?_⟩
      rw [UInt8.toNat_ofNat']
      omega
    · refine ⟨_, _, rfl, ?_⟩
      rw [UInt8.toNat_ofNat']
      omega

/-- No code begins with another one. -/
theorem utf8_prefix {c d : Char} (front : utf8 c <+: utf8 d) : c = d := by
  obtain ⟨rest, whole⟩ := front
  have first := @ByteArray.utf8DecodeChar?_utf8EncodeChar_append rest.toByteArray c
  have second := @ByteArray.utf8DecodeChar?_utf8EncodeChar_append ByteArray.empty d
  rw [← List.toByteArray_append] at first
  rw [ByteArray.append_empty] at second
  have same : String.utf8EncodeChar c ++ rest = String.utf8EncodeChar d := whole
  rw [same, second] at first
  exact (Option.some.inj first).symm

section
variable {s : Nat → UInt8} {n : Nat}

/-- The first byte of what is read. -/
theorem first_byte (some' : 0 < n) {b : UInt8} {bytes : List UInt8}
    (front : b :: bytes <+: (List.range n).map s) : s 0 = b := by
  obtain ⟨k, rfl⟩ := Nat.exists_eq_succ_of_ne_zero (Nat.ne_of_gt some')
  rw [List.range_succ_eq_map, List.map_cons] at front
  exact (List.cons_prefix_cons.mp front).1.symm

theorem ascii_of_prefix (some' : 0 < n) {c : Char} (front : utf8 c <+: (List.range n).map s) :
    c.toNat < 0x80 ∧ s 0 = UInt8.ofNat c.toNat ∨ 0x80 ≤ c.toNat ∧ 0x80 ≤ (s 0).toNat := by
  rcases Nat.lt_or_ge c.toNat 0x80 with ascii | high
  · rw [utf8_ascii ascii] at front
    exact .inl ⟨ascii, first_byte some' front⟩
  · obtain ⟨b, bytes, code, above⟩ := utf8_high high
    rw [code] at front
    rw [first_byte some' front]
    exact .inr ⟨high, above⟩

theorem decodes_ascii (some' : 0 < n) (ascii : (s 0).toNat < 0x80) : Decodes s n := by
  have reads := mbrtowc_ascii s some' ascii
  constructor
  · rw [reads]
    exact some'
  · intro c front
    rcases ascii_of_prefix some' front with ⟨small, here⟩ | ⟨-, high⟩
    · have value : (s 0).toNat = c.toNat := by
        rw [here, UInt8.toNat_ofNat']
        omega
      have zero : s 0 = 0 ↔ c.toNat = 0 := by
        rw [← value, ← UInt8.toNat_inj]
        rfl
      rw [reads, converted, wchar_byte, value, utf8_ascii small]
      refine ⟨rfl, ?_⟩
      by_cases null : s 0 = 0
      · rw [if_pos null, if_pos (zero.mp null)]
      · rw [if_neg null, if_neg (mt zero.mpr null)]
        rfl
    · omega
  · intro malformed
    have code : utf8 (Char.ofNat (s 0).toNat) = [s 0] := by
      have value : (Char.ofNat (s 0).toNat).toNat = (s 0).toNat := by
        have scalar : Nat.isValidChar (s 0).toNat := .inl (by omega)
        rw [Char.ofNat, dif_pos scalar]
        rfl
      rw [utf8_ascii (by omega), value, UInt8.ofNat_toNat]
    refine absurd ?_ (malformed (Char.ofNat (s 0).toNat)).1
    obtain ⟨k, rfl⟩ := Nat.exists_eq_succ_of_ne_zero (Nat.ne_of_gt some')
    rw [code, List.range_succ_eq_map, List.map_cons]
    exact List.cons_prefix_cons.mpr ⟨rfl, List.nil_prefix⟩

theorem decodes_incomplete (some' : 0 < n) (high : 0x80 ≤ (s 0).toNat)
    (incomplete : Incomplete ((List.range n).map s)) : Decodes s n := by
  obtain ⟨d, front, proper⟩ := incomplete
  constructor
  · obtain ⟨looked, le, fails | ⟨wc, accepts, -⟩⟩ := mbrtowc_high s some' high
    · rw [fails]
      exact le
    · rw [accepts]
      exact le
  · intro c code
    have same := utf8_prefix (code.trans front)
    rw [same] at code
    exact absurd (front.eq_of_length_le code.length_le) proper
  · intro malformed
    exact absurd front (malformed d).2

/-- Exactly one byte below 0x80, or an incomplete code, is converted as it should be. -/
theorem decodes_iff : Decodes s n ↔
    0 < n ∧ ((s 0).toNat < 0x80 ∨ Incomplete ((List.range n).map s)) := by
  constructor
  · intro decodes
    have some' : 0 < n := by
      rcases Nat.eq_zero_or_pos n with rfl | some'
      · have limit := decodes.limit
        rw [mbrtowc_zero] at limit
        exact absurd limit (Nat.not_succ_le_zero 0)
      · exact some'
    refine ⟨some', ?_⟩
    by_contra other
    simp only [not_or, Nat.not_lt] at other
    obtain ⟨high, complete⟩ := other
    obtain ⟨looked, -, result⟩ := mbrtowc_high s some' high
    by_cases malformed : Malformed ((List.range n).map s)
    · have set := (decodes.rejects malformed).2
      rcases result with fails | ⟨wc, accepts, -⟩
      · rw [fails] at set
        cases set
      · rw [accepts] at set
        cases set
    · obtain ⟨c, code⟩ : ∃ c, utf8 c <+: (List.range n).map s := by
        simp only [Malformed, not_forall, not_and_or, not_not] at malformed
        obtain ⟨c, code | front⟩ := malformed
        · exact ⟨c, code⟩
        · by_cases whole : (List.range n).map s = utf8 c
          · rw [whole]
            exact ⟨c, List.prefix_refl _⟩
          · exact absurd ⟨c, front, whole⟩ complete
      have value := (decodes.accepts c code).1
      rcases result with fails | ⟨wc, accepts, -, small⟩
      · rw [fails] at value
        cases value
      · rw [accepts] at value
        have same : wchar wc = c.toNat := Option.some.inj value
        rcases ascii_of_prefix some' code with ⟨ascii, here⟩ | ⟨large, -⟩
        · rw [here, UInt8.toNat_ofNat'] at high
          omega
        · omega
  · rintro ⟨some', ascii | incomplete⟩
    · exact decodes_ascii some' ascii
    · rcases Nat.lt_or_ge (s 0).toNat 0x80 with ascii | high
      · exact decodes_ascii some' ascii
      · exact decodes_incomplete some' high incomplete

end

/-! ## Writing -/

/-- A character below 0x80 becomes two bytes that continue a code. -/
theorem wcrtomb_ascii {wc : Int} (small : unsignedLong wc < 0x80) : wcrtomb wc =
    some [(0x80 : UInt8) ||| UInt8.ofNat (unsignedLong wc >>> 6),
      (0x80 : UInt8) ||| UInt8.ofNat (unsignedLong wc &&& 0x3f)] := by
  rw [wcrtomb, validutf8_ascii small]
  rfl

/-- Each other one becomes one byte, of its low bits. -/
theorem wcrtomb_other {wc : Int} (large : 0x80 ≤ unsignedLong wc) :
    wcrtomb wc = some [UInt8.ofNat (unsignedLong wc)] := by
  have zero : (0 : UInt8) ||| UInt8.ofNat (unsignedLong wc) = UInt8.ofNat (unsignedLong wc) :=
    UInt8.zero_or
  rw [wcrtomb, validutf8_other large, ← zero]
  rfl

theorem wcrtomb_accepts (wc : Int) : wcrtomb wc ≠ none := by
  rcases Nat.lt_or_ge (unsignedLong wc) 0x80 with small | large
  · rw [wcrtomb_ascii small]
    exact Option.some_ne_none _
  · rw [wcrtomb_other large]
    exact Option.some_ne_none _

theorem unsignedLong_char (c : Char) : unsignedLong c.toNat = c.toNat := by
  have small : c.toNat < 0x110000 := by
    have valid := c.valid
    simp only [UInt32.isValidChar, Nat.isValidChar] at valid
    rw [Char.toNat]
    omega
  rw [unsignedLong]
  omega

/-- The bytes in a memory. -/
def stored (bytes : List UInt8) : Nat → UInt8 := fun i => bytes.getD i 0

theorem stored_range (bytes : List UInt8) : (List.range bytes.length).map (stored bytes) = bytes := by
  apply List.ext_getElem
  · simp
  · intro i _ below
    simp [stored, below]

/-- A byte that continues a code cannot begin one. -/
theorem mbrtowc_two {a b : UInt8} (first : a = 0x80 ∨ a = 0x81) :
    mbrtowc (stored [a, b]) 2 = failed 1 := by
  rcases first with rfl | rfl
  · have ones : leading 2 128 0 = (1, 256, 1) := by decide
    have start : leading 2 (stored [0x80, b] 0).toNat 0 = (1, 256, 1) := ones
    rw [mbrtowc, start]
    rfl
  · have ones : leading 2 129 0 = (1, 258, 1) := by decide
    have start : leading 2 (stored [0x81, b] 0).toNat 0 = (1, 258, 1) := ones
    rw [mbrtowc, start]
    rfl

theorem mbrtowc_one {a : UInt8} (high : 0x80 ≤ a.toNat) : mbrtowc (stored [a]) 1 = failed 1 := by
  have bit : (stored [a] 0).toNat &&& 0x80 ≠ 0 := by
    rw [ne_eq, and_high _ (stored [a] 0).toNat_lt]
    exact Nat.not_lt.mpr high
  rw [mbrtowc, leading, if_pos bit]
  rfl

theorem encodes_never (wc : Int) : ¬Encodes wc := by
  intro encodes
  by_cases scalar : ∃ c : Char, wc = c.toNat
  · obtain ⟨c, rfl⟩ := scalar
    obtain ⟨bytes, wrote, reads⟩ := encodes.roundtrip c rfl
    have value := (reads (stored bytes) (stored_range bytes)).1
    rcases Nat.lt_or_ge (unsignedLong c.toNat) 0x80 with small | large
    · rw [wcrtomb_ascii small] at wrote
      cases wrote
      have first : (0x80 : UInt8) ||| UInt8.ofNat (unsignedLong c.toNat >>> 6) = 0x80 ∨
          (0x80 : UInt8) ||| UInt8.ofNat (unsignedLong c.toNat >>> 6) = 0x81 := by
        have bit : unsignedLong c.toNat >>> 6 = 0 ∨ unsignedLong c.toNat >>> 6 = 1 := by
          rw [Nat.shiftRight_eq_div_pow]
          omega
        rcases bit with zero | one
        · rw [zero]
          exact .inl rfl
        · rw [one]
          exact .inr rfl
      have fails := @mbrtowc_two _ (0x80 ||| UInt8.ofNat (unsignedLong c.toNat &&& 0x3f)) first
      simp only [List.length_cons, List.length_nil, Nat.zero_add, Nat.reduceAdd, fails] at value
      cases value
    · rw [wcrtomb_other large] at wrote
      cases wrote
      rw [unsignedLong_char] at large value
      rcases Nat.lt_or_ge (UInt8.ofNat c.toNat).toNat 0x80 with ascii | high
      · have one : 0 < [UInt8.ofNat c.toNat].length := Nat.one_pos
        rw [mbrtowc_ascii (stored [UInt8.ofNat c.toNat]) one ascii] at value
        have same : wchar (UInt8.ofNat c.toNat).toNat = c.toNat := Option.some.inj value
        rw [wchar_byte] at same
        omega
      · simp only [List.length_singleton, mbrtowc_one high] at value
        cases value
  · simp only [not_exists] at scalar
    exact wcrtomb_accepts wc (encodes.rejects.mpr scalar)

/-- `wcrtomb` is never right; `mbrtowc` is for a byte below 0x80 and for an incomplete code. -/
theorem utf8_right (wc : Int) (s : Nat → UInt8) (n : Nat) : ¬Encodes wc ∧
    (Decodes s n ↔ 0 < n ∧ ((s 0).toNat < 0x80 ∨ Incomplete ((List.range n).map s))) :=
  ⟨encodes_never wc, decodes_iff⟩

/-- The two bytes of U+00E9 are refused under a limit of two bytes, and no character is written as it
is in UTF-8. -/
theorem letter_not_right : ¬Encodes 0x41 ∧ ¬Decodes (stored [0xC3, 0xA9]) 2 := by
  refine ⟨encodes_never 0x41, fun decodes => ?_⟩
  have front : utf8 'é' <+: (List.range 2).map (stored [0xC3, 0xA9]) := List.prefix_refl _
  have value := (decodes.accepts 'é' front).1
  cases value

end Scc.Libc.Wchar
