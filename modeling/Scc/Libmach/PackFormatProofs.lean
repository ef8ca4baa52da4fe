import Scc.Libmach.Pack

set_option linter.all false

/-! What `pack` writes for a format, `unpack` reads back. -/
namespace Scc.Libmach.Format

section
attribute [local simp] packLoop unpackLoop pack unpack lget
end

/-! ## Cases of the loops -/

/-- Disjoint bits are added. -/
theorem or_shift {x k : Nat} (y : Nat) (low : x < 2 ^ k) : x ||| y <<< k = x + y * 2 ^ k := by
  have sum := Nat.shiftLeft_add_eq_or_of_lt low y
  rw [Nat.shiftLeft_eq] at sum
  rw [Nat.or_comm, Nat.shiftLeft_eq, ← sum, Nat.add_comm]

theorem lget_spec (conv : Scalar) (bp : Nat → UInt8) :
    lget conv (fun i => (bp i).toNat) = bytesValue ((List.range conv.width).map bp) := by
  have small (i : Nat) : (bp i).toNat < 256 := (bp i).toNat_lt
  have s0 := small 0; have s1 := small 1; have s2 := small 2; have s3 := small 3
  have s4 := small 4; have s5 := small 5; have s6 := small 6; have s7 := small 7
  cases conv with
  | c => rfl
  | s =>
    simp only [lget]
    rw [or_shift (bp 1).toNat (by omega)]
    simp [Scalar.width, List.range_succ, bytesValue]
    omega
  | l =>
    simp only [lget]
    rw [or_shift (bp 1).toNat (by omega), or_shift (bp 2).toNat (by omega),
      or_shift (bp 3).toNat (by omega)]
    simp [Scalar.width, List.range_succ, bytesValue]
    omega
  | q =>
    simp only [lget]
    rw [or_shift (bp 1).toNat (by omega), or_shift (bp 2).toNat (by omega),
      or_shift (bp 3).toNat (by omega), or_shift (bp 4).toNat (by omega),
      or_shift (bp 5).toNat (by omega), or_shift (bp 6).toNat (by omega),
      or_shift (bp 7).toNat (by omega)]
    simp [Scalar.width, List.range_succ, bytesValue]
    omega

theorem or_reverse (a b c d : Nat) : a ||| b ||| c ||| d = d ||| c ||| b ||| a := by
  rw [Nat.or_comm a b, Nat.or_comm _ c, Nat.or_comm _ d, ← Nat.or_assoc, ← Nat.or_assoc]

theorem or_reverse_long (a b c d e f g h : Nat) : a ||| b ||| c ||| d ||| e ||| f ||| g ||| h =
    h ||| g ||| f ||| e ||| d ||| c ||| b ||| a := by
  ac_rfl

/-- The other order reads the bytes from the end. -/
theorem bget_spec (conv : Scalar) (bp : Nat → Nat) :
    bget conv bp = lget conv fun i => bp (conv.width - 1 - i) := by
  cases conv with
  | c => rfl
  | s => exact Nat.or_comm _ _
  | l => exact or_reverse _ _ _ _
  | q => exact or_reverse_long _ _ _ _ _ _ _ _

theorem bput_spec (conv : Scalar) (v : Nat) : bput conv v = (lput conv v).reverse := by
  cases conv <;> rfl

theorem ofInt_byte (v : Nat) : UInt8.ofInt v = UInt8.ofNat v := by
  apply UInt8.toNat_inj.mp
  have value := ofInt_toNat v
  rw [UInt8.toNat_ofNat']
  omega

theorem lowBytes_shifts (w v : Nat) :
    lowBytes w v = (List.range w).map fun i => UInt8.ofNat (v >>> (8 * i)) := by
  induction w generalizing v with
  | zero => rfl
  | succ w ih =>
    have rest : (v : Int) / 256 = ((v / 256 : Nat) : Int) := rfl
    rw [lowBytes, ofInt_byte, rest, ih, List.range_succ_eq_map, List.map_cons, List.map_map]
    congr 1
    apply List.map_congr_left
    intro i _
    have step : 2 ^ (8 * (i + 1)) = 256 * 2 ^ (8 * i) := by
      rw [Nat.mul_add, Nat.pow_add, Nat.mul_comm]
    simp only [Function.comp, Nat.succ_eq_add_one, Nat.shiftRight_eq_div_pow, step, Nat.div_div_eq_div_mul]

theorem lput_spec (conv : Scalar) (v : Nat) : lput conv v = lowBytes conv.width v := by
  rw [lowBytes_shifts]
  cases conv <;> rfl

/-! ## One conversion -/

/-- The loop of an order writes and reads each number in it. -/
structure Law (put : Scalar → Nat → List UInt8) (get : Scalar → (Nat → Nat) → Nat) : Prop where
  length : ∀ conv v, (put conv v).length = conv.width
  inverse : ∀ conv v rest, v < 256 ^ conv.width →
    get conv (fun i => ((put conv v ++ rest).getD i 0).toNat) = v

theorem lget_bytes (conv : Scalar) {bp : Nat → UInt8} {l : List UInt8}
    (length : l.length = conv.width) (same : ∀ i (below : i < l.length), bp i = l[i]) :
    lget conv (fun i => (bp i).toNat) = bytesValue l := by
  rw [lget_spec]
  congr 1
  apply List.ext_getElem
  · rw [List.length_map, List.length_range, length]
  · intro i _ below
    rw [List.getElem_map, List.getElem_range]
    exact same i below

theorem bytesValue_lput {conv : Scalar} {v : Nat} (fits : v < 256 ^ conv.width) :
    bytesValue (lput conv v) = v := by
  have value := bytesValue_lowBytes conv.width v
  have power : ((256 ^ conv.width : Nat) : Int) = (256 : Int) ^ conv.width := Int.natCast_pow 256 _
  rw [← lput_spec, ← power, ← Int.natCast_emod, Nat.mod_eq_of_lt fits] at value
  exact Int.ofNat.inj value

theorem getD_front {l rest : List UInt8} {i : Nat} (below : i < l.length) :
    (l ++ rest).getD i 0 = l[i] := by
  rw [List.getD_eq_getElem?_getD, List.getElem?_append_left below, List.getElem?_eq_getElem below]
  rfl

theorem law_little : Law lput lget where
  length conv v := by rw [lput_spec, lowBytes_length]
  inverse conv v rest fits := by
    have length : (lput conv v).length = conv.width := by rw [lput_spec, lowBytes_length]
    rw [lget_bytes conv length, bytesValue_lput fits]
    intro i below
    exact getD_front below

theorem law_big : Law bput bget where
  length conv v := by rw [bput_spec, List.length_reverse, lput_spec, lowBytes_length]
  inverse conv v rest fits := by
    have length : (lput conv v).length = conv.width := by rw [lput_spec, lowBytes_length]
    rw [bget_spec, lget_bytes conv length, bytesValue_lput fits]
    intro i below
    have below' : conv.width - 1 - i < (bput conv v).length := by
      rw [bput_spec, List.length_reverse]
      omega
    rw [getD_front below']
    simp only [bput_spec, List.getElem_reverse, length]
    congr 1
    omega

/-! ## Formats -/

/-- An item of a format: a quote with the digits of its number, or a letter. -/
inductive Item where
  | quote (digits : List (Fin 10))
  | scalar (conv : Scalar)

def digit (d : Fin 10) : Char := Char.ofNat (48 + d)

def letter : Scalar → Char
  | .c => 'c'
  | .s => 's'
  | .l => 'l'
  | .q => 'q'

def Item.text : Item → List Char
  | .quote digits => '\'' :: digits.map digit
  | .scalar conv => [letter conv]

/-- How many bytes an item takes. -/
def Item.width : Item → Nat
  | .quote digits => Text.readDigits 10 Fin.val digits
  | .scalar conv => conv.width

def text (items : List Item) : List Char := items.flatMap Item.text

def total (items : List Item) : Nat := (items.map Item.width).sum

/-- A value of the width of its item. -/
def Item.Fits : Item → Val → Prop
  | .quote digits, .ptr bytes => bytes.length = (Item.quote digits).width
  | .scalar conv, .num v => v < 256 ^ conv.width
  | _, _ => False

/-- `unpack` stores what `pack` has written, and both return the number of bytes. -/
def Inverse (order : Order) (items : List Item) (vals : List Val) : Prop :=
  ∃ bytes, pack order (text items) vals = some (bytes, (bytes.length : Int)) ∧
    unpack order bytes (text items) = some (vals, (bytes.length : Int)) ∧ bytes.length = total items

theorem isdigit_digit (d : Fin 10) : isdigit (digit d) = true ∧ (digit d).toNat - 48 = d := by
  decide +revert

theorem text_stops (items : List Item) :
    (text items).takeWhile isdigit = [] ∧ (text items).dropWhile isdigit = text items := by
  cases items with
  | nil => exact ⟨rfl, rfl⟩
  | cons item items =>
    cases item with
    | quote digits => exact ⟨rfl, rfl⟩
    | scalar conv => cases conv <;> exact ⟨rfl, rfl⟩

theorem text_digits (digits : List (Fin 10)) (items : List Item) :
    (digits.map digit ++ text items).dropWhile isdigit = text items ∧
      ((Item.quote digits).width < 2 ^ 31 →
        atoi (digits.map digit ++ text items) = some (Item.quote digits).width) := by
  have all : ∀ c ∈ digits.map digit, isdigit c = true := by
    intro c mem
    obtain ⟨d, -, rfl⟩ := List.mem_map.mp mem
    exact (isdigit_digit d).1
  obtain ⟨none, rest⟩ := text_stops items
  constructor
  · rw [List.dropWhile_append_of_pos all, rest]
  · intro small
    have value : Text.readDigits 10 (fun c => c.toNat - 48) (digits.map digit) =
        (Item.quote digits).width := by
      rw [Text.readDigits, List.foldl_map]
      simp only [(isdigit_digit _).2]
      rfl
    rw [atoi, List.takeWhile_append_of_pos all, none, List.append_nil, value]
    exact if_pos small

/-! ## The loops -/

section
variable {put : Scalar → Nat → List UInt8} {get : Scalar → (Nat → Nat) → Nat} {items : List Item}

theorem packLoop_quote {digits : List (Fin 10)} {cp : List UInt8} {va : List Val}
    (small : (Item.quote digits).width < 2 ^ 31) (long : cp.length = (Item.quote digits).width) :
    packLoop put (text (.quote digits :: items)) (.ptr cp :: va) = (do
      let (bytes, all) ← packLoop put (text items) va
      some (cp ++ bytes, all)) := by
  obtain ⟨rest, number⟩ := text_digits digits items
  have enough : ¬cp.length < (Item.quote digits).width := by omega
  have whole : cp.take (Item.quote digits).width = cp := List.take_of_length_le (by omega)
  have front : text (.quote digits :: items) = '\'' :: (digits.map digit ++ text items) := rfl
  rw [front, packLoop, number small]
  simp only [Option.bind_eq_bind, Option.bind_some, if_neg enough, whole, rest]

theorem packLoop_scalar {conv : Scalar} {v : Nat} {va : List Val} :
    packLoop put (text (.scalar conv :: items)) (.num v :: va) = (do
      let (bytes, all) ← packLoop put (text items) va
      some (put conv v ++ bytes, all)) := by
  have front : text (.scalar conv :: items) = letter conv :: text items := rfl
  rw [front]
  cases conv <;>
  · rw [letter, packLoop]
    · rfl
    · simp

theorem unpackLoop_quote {digits : List (Fin 10)} {cp rest : List UInt8}
    (small : (Item.quote digits).width < 2 ^ 31) (long : cp.length = (Item.quote digits).width) :
    unpackLoop get (text (.quote digits :: items)) (cp ++ rest) = (do
      let (vals, read, all) ← unpackLoop get (text items) rest
      some (.ptr cp :: vals, cp.length + read, all)) := by
  obtain ⟨after, number⟩ := text_digits digits items
  have enough : ¬(cp ++ rest).length < (Item.quote digits).width := by
    rw [List.length_append]
    omega
  have front : text (.quote digits :: items) = '\'' :: (digits.map digit ++ text items) := rfl
  rw [front, unpackLoop, number small]
  simp only [Option.bind_eq_bind, Option.bind_some, if_neg enough, after]
  rw [← long, List.take_left, List.drop_left]

theorem unpackLoop_scalar (law : Law put get) {conv : Scalar} {v : Nat} {rest : List UInt8}
    (fits : v < 256 ^ conv.width) :
    unpackLoop get (text (.scalar conv :: items)) (put conv v ++ rest) = (do
      let (vals, read, all) ← unpackLoop get (text items) rest
      some (.num v :: vals, conv.width + read, all)) := by
  have length := law.length conv v
  have value := law.inverse conv v rest fits
  have enough : ¬(put conv v ++ rest).length < conv.width := by
    rw [List.length_append]
    omega
  have after : (put conv v ++ rest).drop conv.width = rest := by
    rw [← length, List.drop_left]
  have front : text (.scalar conv :: items) = letter conv :: text items := rfl
  rw [front]
  cases conv <;>
  · rw [letter, unpackLoop]
    · simp only [scalar]
      rw [if_neg enough, after, value]
    · simp

theorem loops_inverse (law : Law put get) {vals : List Val} (fits : List.Forall₂ Item.Fits items vals)
    (small : total items < 2 ^ 31) :
    ∃ bytes, packLoop put (text items) vals = some (bytes, true) ∧ bytes.length = total items ∧
      unpackLoop get (text items) bytes = some (vals, total items, true) := by
  induction fits with
  | nil => exact ⟨[], by rw [text, List.flatMap_nil, packLoop], rfl, by rw [text, List.flatMap_nil, unpackLoop]; rfl⟩
  | @cons item val items vals fit fits ih =>
    have sum : total (item :: items) = item.width + total items := List.sum_cons
    obtain ⟨bytes, packed, length, unpacked⟩ := ih (by omega)
    cases item with
    | quote digits =>
      cases val with
      | num v => cases fit
      | ptr cp =>
        have long : cp.length = (Item.quote digits).width := fit
        refine ⟨cp ++ bytes, ?_, ?_, ?_⟩
        · rw [packLoop_quote (by omega) long, packed]
          rfl
        · rw [List.length_append]
          omega
        · rw [unpackLoop_quote (by omega) long, unpacked, sum, long]
          rfl
    | scalar conv =>
      cases val with
      | ptr cp => cases fit
      | num v =>
        have low : v < 256 ^ conv.width := fit
        refine ⟨put conv v ++ bytes, ?_, ?_, ?_⟩
        · rw [packLoop_scalar, packed]
          rfl
        · rw [List.length_append, law.length, sum, length]
          rfl
        · rw [unpackLoop_scalar law low, unpacked, sum]
          rfl

end

theorem int_small {n : Nat} (small : n < 2 ^ 31) : int n = n := by
  have below : n % 2 ^ 32 < 2 ^ 31 := by omega
  rw [int, if_pos below]
  omega

/-- What is packed is unpacked again, in every format of less than 2 ^ 31 bytes. -/
theorem pack_inverse (order : Order) {items : List Item} {vals : List Val}
    (fits : List.Forall₂ Item.Fits items vals) (small : total items < 2 ^ 31) :
    Inverse order items vals := by
  cases order with
  | LITTLE_ENDIAN =>
    obtain ⟨bytes, packed, length, unpacked⟩ := loops_inverse law_little fits small
    refine ⟨bytes, ?_, ?_, length⟩
    · simp [pack, lpack, packed, int_small (length ▸ small)]
    · simp [unpack, lunpack, unpacked, length, int_small small]
  | BIG_ENDIAN =>
    obtain ⟨bytes, packed, length, unpacked⟩ := loops_inverse law_big fits small
    refine ⟨bytes, ?_, ?_, length⟩
    · simp [pack, bpack, packed, int_small (length ▸ small)]
    · simp [unpack, bunpack, unpacked, length, int_small small]

/-- The result is no number of bytes where there are 2 ^ 31 of them. -/
theorem pack_large {order : Order} {items : List Item} (vals : List Val)
    (large : total items = 2 ^ 31) : ¬Inverse order items vals := by
  rintro ⟨bytes, packed, -, length⟩
  unfold pack at packed
  obtain ⟨result, -, packed⟩ := Option.bind_eq_some_iff.mp packed
  obtain ⟨rfl, returned⟩ := Prod.mk.inj (Option.some.inj packed)
  rw [length, large] at returned
  generalize result.2 = all at returned
  cases all <;> revert returned <;> decide

/-- An entry of an object file, with a name of three bytes before its numbers. -/
theorem pack_inverse_entry : Inverse .BIG_ENDIAN
    [.quote [0, 3], .scalar .c, .scalar .s, .scalar .l, .scalar .q]
    [.ptr [104, 105, 0], .num 255, .num 258, .num 4294967295, .num 1] := by
  have low : 255 < 256 ^ Scalar.width .c ∧ 258 < 256 ^ Scalar.width .s ∧
      4294967295 < 256 ^ Scalar.width .l ∧ 1 < 256 ^ Scalar.width .q := by decide
  obtain ⟨c, s, l, q⟩ := low
  apply pack_inverse
  · exact .cons (R := Item.Fits) rfl (.cons c (.cons s (.cons l (.cons q .nil))))
  · decide

/-- A format of one byte after the longest quote. -/
theorem pack_returns_negative :
    List.Forall₂ Item.Fits [.quote [2, 1, 4, 7, 4, 8, 3, 6, 4, 7], .scalar .c]
      [.ptr (List.replicate 2147483647 0), .num 0] ∧
    ¬Inverse .LITTLE_ENDIAN [.quote [2, 1, 4, 7, 4, 8, 3, 6, 4, 7], .scalar .c]
      [.ptr (List.replicate 2147483647 0), .num 0] := by
  have width : (Item.quote [2, 1, 4, 7, 4, 8, 3, 6, 4, 7]).width = 2147483647 := by decide
  have low : 0 < 256 ^ Scalar.width .c := by decide
  have long : Item.Fits (.quote [2, 1, 4, 7, 4, 8, 3, 6, 4, 7])
      (.ptr (List.replicate 2147483647 0)) := by
    rw [Item.Fits, List.length_replicate, width]
  constructor
  · exact .cons long (.cons low .nil)
  · apply pack_large
    decide

end Scc.Libmach.Format
