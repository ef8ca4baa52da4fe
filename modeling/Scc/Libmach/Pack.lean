import Mathlib.Data.List.Basic
import Mathlib.Data.Int.Init
import Mathlib.Data.Int.Cast.Lemmas
import Scc.Text.Numeral

set_option linter.all false

/-! `pack` and `unpack`: values laid out as bytes in either order, after a format of fields. -/
namespace Scc.Libmach

inductive Order where
  | LITTLE_ENDIAN
  | BIG_ENDIAN
  deriving DecidableEq, Repr

/-- A conversion of a format, with its argument. -/
inductive Arg where
  | quote (bytes : List UInt8)
  | c (v : Int)
  | s (v : Int)
  | l (v : Int)
  | q (v : Int)
  deriving DecidableEq, Repr

/-- A conversion of a format. -/
inductive Conv where
  | quote (n : Nat)
  | c
  | s
  | l
  | q
  deriving DecidableEq, Repr

def Arg.conv : Arg → Conv
  | .quote bytes => .quote bytes.length
  | .c _ => .c
  | .s _ => .s
  | .l _ => .l
  | .q _ => .q

/-- How many bytes a conversion takes. -/
def Conv.width : Conv → Nat
  | .quote n => n
  | .c => 1
  | .s => 2
  | .l => 4
  | .q => 8

/-- The low `w` bytes of a value, the lowest first. -/
def lowBytes : Nat → Int → List UInt8
  | 0, _ => []
  | w + 1, v => UInt8.ofInt v :: lowBytes w (v / 256)

/-- The value of bytes with the lowest first. -/
def bytesValue : List UInt8 → Nat
  | [] => 0
  | b :: bytes => b.toNat + 256 * bytesValue bytes

def Order.arrange (order : Order) (bytes : List UInt8) : List UInt8 :=
  match order with
  | .LITTLE_ENDIAN => bytes
  | .BIG_ENDIAN => bytes.reverse

def packArg (order : Order) : Arg → List UInt8
  | .quote bytes => bytes
  | .c v => order.arrange (lowBytes 1 v)
  | .s v => order.arrange (lowBytes 2 v)
  | .l v => order.arrange (lowBytes 4 v)
  | .q v => order.arrange (lowBytes 8 v)

def pack (order : Order) (args : List Arg) : List UInt8 := args.flatMap (packArg order)

def unpackArg (order : Order) (bytes : List UInt8) : Conv → Arg
  | .quote _ => .quote bytes
  | .c => .c (bytesValue (order.arrange bytes))
  | .s => .s (bytesValue (order.arrange bytes))
  | .l => .l (bytesValue (order.arrange bytes))
  | .q => .q (bytesValue (order.arrange bytes))

def unpack (order : Order) : List Conv → List UInt8 → List Arg
  | [], _ => []
  | conv :: convs, bytes =>
    unpackArg order (bytes.take conv.width) conv :: unpack order convs (bytes.drop conv.width)

/-- What is left of an argument after it went through its bytes. -/
def Arg.stored : Arg → Arg
  | .quote bytes => .quote bytes
  | .c v => .c (v % 2 ^ 8)
  | .s v => .s (v % 2 ^ 16)
  | .l v => .l (v % 2 ^ 32)
  | .q v => .q (v % 2 ^ 64)

@[simp] theorem Order.arrange_arrange (order : Order) (bytes : List UInt8) :
    order.arrange (order.arrange bytes) = bytes := by
  cases order <;> simp [arrange]

@[simp] theorem Order.length_arrange (order : Order) (bytes : List UInt8) :
    (order.arrange bytes).length = bytes.length := by
  cases order <;> simp [arrange]

@[simp] theorem lowBytes_length (w : Nat) (v : Int) : (lowBytes w v).length = w := by
  induction w generalizing v with
  | zero => rfl
  | succ w ih => simp [lowBytes, ih]

theorem ofInt_toNat (v : Int) : ((UInt8.ofInt v).toNat : Int) = v % 256 := by
  have small : (v % 2 ^ 8).toNat < 2 ^ 8 := by omega
  rw [UInt8.ofInt, UInt8.toNat_ofNat', Nat.mod_eq_of_lt small]
  omega

/-- Reduction by one byte and then the rest. -/
theorem emod_split (v k : Int) (pos : 0 < k) : v % (256 * k) = v % 256 + 256 * (v / 256 % k) := by
  have split := Int.emod_add_mul_ediv (v / 256) k
  have low := Int.emod_nonneg (v / 256) (Int.ne_of_gt pos)
  have high := Int.emod_lt_of_pos (v / 256) pos
  have again : 256 * k * (v / 256 / k) = 256 * (k * (v / 256 / k)) := Int.mul_assoc _ _ _
  exact ((Int.ediv_emod_unique (q := v / 256 / k) (by omega)).mpr
    ⟨by omega, by omega, by omega⟩).2

theorem bytesValue_lowBytes (w : Nat) (v : Int) :
    (bytesValue (lowBytes w v) : Int) = v % 256 ^ w := by
  induction w generalizing v with
  | zero => simp [lowBytes, bytesValue]
  | succ w ih =>
    rw [Int.pow_succ', emod_split v _ (Int.pow_pos (by decide))]
    simp only [lowBytes, bytesValue, Int.natCast_add, Int.natCast_mul, ofInt_toNat, ih]
    rfl

@[simp] theorem packArg_length (order : Order) (arg : Arg) :
    (packArg order arg).length = arg.conv.width := by
  cases arg <;> simp [packArg, Arg.conv, Conv.width]

theorem unpackArg_packArg (order : Order) (arg : Arg) :
    unpackArg order (packArg order arg) arg.conv = arg.stored := by
  cases arg <;> simp [packArg, unpackArg, Arg.conv, Arg.stored, bytesValue_lowBytes]

/-- Unpacking with the format they were packed with gives back the arguments, as
far as their bytes hold them. -/
theorem unpack_pack (order : Order) (args : List Arg) (rest : List UInt8) :
    unpack order (args.map Arg.conv) (pack order args ++ rest) = args.map Arg.stored := by
  induction args with
  | nil => rfl
  | cons arg args ih =>
    have cut : pack order (arg :: args) ++ rest = packArg order arg ++ (pack order args ++ rest) := by
      simp [pack]
    have first := @List.take_left _ (packArg order arg) (pack order args ++ rest)
    have after := @List.drop_left _ (packArg order arg) (pack order args ++ rest)
    rw [packArg_length] at first after
    rw [cut]
    simp only [List.map_cons, unpack, first, after, unpackArg_packArg, ih]

theorem pack_length (order : Order) (args : List Arg) :
    (pack order args).length = ((args.map Arg.conv).map Conv.width).sum := by
  simp [pack, List.length_flatMap, Function.comp_def]

end Scc.Libmach

/-! The loops of `pack` and `unpack` over the characters of a format (libmach/pack.c and unpack.c). -/
namespace Scc.Libmach.Format

/-- The conversions that take a number. -/
inductive Scalar where
  | c
  | s
  | l
  | q
  deriving DecidableEq, Repr

def Scalar.width : Scalar → Nat
  | .c => 1
  | .s => 2
  | .l => 4
  | .q => 8

def scalar : Char → Option Scalar
  | 'c' => some .c
  | 's' => some .s
  | 'l' => some .l
  | 'q' => some .q
  | _ => none

/-! The assignments of each case. -/

def lput : Scalar → Nat → List UInt8
  | .c, v => [UInt8.ofNat v]
  | .s, s => [UInt8.ofNat s, UInt8.ofNat (s >>> 8)]
  | .l, l => [UInt8.ofNat l, UInt8.ofNat (l >>> 8), UInt8.ofNat (l >>> 16), UInt8.ofNat (l >>> 24)]
  | .q, q =>
    [UInt8.ofNat q, UInt8.ofNat (q >>> 8), UInt8.ofNat (q >>> 16), UInt8.ofNat (q >>> 24),
      UInt8.ofNat (q >>> 32), UInt8.ofNat (q >>> 40), UInt8.ofNat (q >>> 48), UInt8.ofNat (q >>> 56)]

def bput : Scalar → Nat → List UInt8
  | .c, v => [UInt8.ofNat v]
  | .s, s => [UInt8.ofNat (s >>> 8), UInt8.ofNat s]
  | .l, l => [UInt8.ofNat (l >>> 24), UInt8.ofNat (l >>> 16), UInt8.ofNat (l >>> 8), UInt8.ofNat l]
  | .q, q =>
    [UInt8.ofNat (q >>> 56), UInt8.ofNat (q >>> 48), UInt8.ofNat (q >>> 40), UInt8.ofNat (q >>> 32),
      UInt8.ofNat (q >>> 24), UInt8.ofNat (q >>> 16), UInt8.ofNat (q >>> 8), UInt8.ofNat q]

def lget : Scalar → (Nat → Nat) → Nat
  | .c, bp => bp 0
  | .s, bp => bp 0 ||| bp 1 <<< 8
  | .l, bp => bp 0 ||| bp 1 <<< 8 ||| bp 2 <<< 16 ||| bp 3 <<< 24
  | .q, bp => bp 0 ||| bp 1 <<< 8 ||| bp 2 <<< 16 ||| bp 3 <<< 24 |||
      bp 4 <<< 32 ||| bp 5 <<< 40 ||| bp 6 <<< 48 ||| bp 7 <<< 56

def bget : Scalar → (Nat → Nat) → Nat
  | .c, bp => bp 0
  | .s, bp => bp 0 <<< 8 ||| bp 1
  | .l, bp => bp 0 <<< 24 ||| bp 1 <<< 16 ||| bp 2 <<< 8 ||| bp 3
  | .q, bp => bp 0 <<< 56 ||| bp 1 <<< 48 ||| bp 2 <<< 40 ||| bp 3 <<< 32 |||
      bp 4 <<< 24 ||| bp 5 <<< 16 ||| bp 6 <<< 8 ||| bp 7

def isdigit (c : Char) : Bool := '0' ≤ c && c ≤ '9'

/-- `atoi` of a string that begins with a digit or has no number; none where it overflows. -/
def atoi (s : List Char) : Option Nat :=
  let n := Text.readDigits 10 (fun c => c.toNat - 48) (s.takeWhile isdigit)
  if n < 2 ^ 31 then some n else none

/-- An argument: the bytes behind a pointer, or a number. -/
inductive Val where
  | ptr (bytes : List UInt8)
  | num (v : Nat)
  deriving DecidableEq, Repr

/-- The bytes that are written, and whether the format was read to its end. None where an argument
is missing or of another type. -/
def packLoop (put : Scalar → Nat → List UInt8) : List Char → List Val → Option (List UInt8 × Bool)
  | [], _ => some ([], true)
  | '\'' :: fmt, va => do
    let n ← atoi fmt
    match va with
    | .ptr cp :: va =>
      if cp.length < n then none
      else
        let (bytes, all) ← packLoop put (fmt.dropWhile isdigit) va
        some (cp.take n ++ bytes, all)
    | _ => none
  | c :: fmt, va =>
    match scalar c with
    | none => some ([], false)
    | some conv =>
      match va with
      | .num v :: va => do
        let (bytes, all) ← packLoop put fmt va
        some (put conv v ++ bytes, all)
      | _ => none
  termination_by fmt => fmt.length
  decreasing_by
    · have := (List.dropWhile_suffix (l := fmt) isdigit).length_le
      simp only [List.length_cons]
      omega
    · simp

/-- What is stored through the arguments, how many bytes are read, and whether the format was read
to its end. None where there are not enough bytes. -/
def unpackLoop (get : Scalar → (Nat → Nat) → Nat) :
    List Char → List UInt8 → Option (List Val × Nat × Bool)
  | [], _ => some ([], 0, true)
  | '\'' :: fmt, bp => do
    let n ← atoi fmt
    if bp.length < n then none
    else
      let (vals, read, all) ← unpackLoop get (fmt.dropWhile isdigit) (bp.drop n)
      some (.ptr (bp.take n) :: vals, n + read, all)
  | c :: fmt, bp =>
    match scalar c with
    | none => some ([], 0, false)
    | some conv =>
      if bp.length < conv.width then none
      else do
        let (vals, read, all) ← unpackLoop get fmt (bp.drop conv.width)
        some (.num (get conv fun i => (bp.getD i 0).toNat) :: vals, conv.width + read, all)
  termination_by fmt => fmt.length
  decreasing_by
    · have := (List.dropWhile_suffix (l := fmt) isdigit).length_le
      simp only [List.length_cons]
      omega
    · simp

/-- The difference of two pointers as `int`. -/
def int (n : Nat) : Int := if n % 2 ^ 32 < 2 ^ 31 then (n % 2 ^ 32 : Nat) else (n % 2 ^ 32 : Nat) - 2 ^ 32

def lpack : List Char → List Val → Option (List UInt8 × Bool) := packLoop lput

def bpack : List Char → List Val → Option (List UInt8 × Bool) := packLoop bput

/-- The bytes that are written with what is returned. -/
def pack (order : Order) (fmt : List Char) (va : List Val) : Option (List UInt8 × Int) := do
  let fn := match order with
    | .LITTLE_ENDIAN => lpack
    | .BIG_ENDIAN => bpack
  let (bytes, all) ← fn fmt va
  some (bytes, if all then int bytes.length else -1)

def lunpack : List Char → List UInt8 → Option (List Val × Nat × Bool) := unpackLoop lget

def bunpack : List Char → List UInt8 → Option (List Val × Nat × Bool) := unpackLoop bget

/-- What is stored with what is returned. -/
def unpack (order : Order) (src : List UInt8) (fmt : List Char) : Option (List Val × Int) := do
  let fn := match order with
    | .LITTLE_ENDIAN => lunpack
    | .BIG_ENDIAN => bunpack
  let (vals, read, all) ← fn fmt src
  some (vals, if all then int read else -1)

end Scc.Libmach.Format
