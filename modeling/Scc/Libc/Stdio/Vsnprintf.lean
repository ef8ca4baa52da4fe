import Scc.Libc.Stdio.Counting
import Scc.Libc.Stdio.File

set_option linter.all false

/-! `vsnprintf` (stdio/vsnprintf.c): a stream on the buffer of the caller, whose addresses are words that wrap. -/
namespace Scc.Libc.Stdio.Printf
open Transition

/-- The fields of the stream that `putc` uses, and the memory by address. -/
structure Target where
  wp : BitVec 64
  rp : BitVec 64
  memory : BitVec 64 → UInt8

/-- `putc`; `__putc` drops the character of a string stream. -/
def Target.putc (f : Target) (ch : Int) : Target :=
  if f.wp ≥ f.rp then f else { f with wp := f.wp + 1, memory := Function.update f.memory f.wp (uchar ch) }

/-- The memory after `vsnprintf`, for the characters that `vfprintf` puts. -/
def vsnprintf (memory : BitVec 64 → UInt8) (buf siz : BitVec 64) (out : List Int) : BitVec 64 → UInt8 :=
  let f := out.foldl Target.putc ⟨buf, buf + siz, memory⟩
  if buf ≠ 0 then
    let wp := if f.wp = f.rp then f.wp - 1 else f.wp
    if siz ≠ 0 then Function.update f.memory wp 0 else f.memory
  else f.memory

/-- What a buffer of so many bytes holds of the characters: those that fit in one byte less, and a NUL. -/
def truncated (siz : Nat) (out : List UInt8) : List UInt8 := if siz = 0 then [] else out.take (siz - 1) ++ [0]

/-- The memory with the bytes at an address. -/
def placed (memory : BitVec 64 → UInt8) (buf : BitVec 64) (bytes : List UInt8) : BitVec 64 → UInt8 :=
  fun a => bytes.getD (a - buf).toNat (memory a)

/-- The characters put, in their order. -/
def characters (es : List Output) : List Int := es.filterMap fun | .put ch => some ch | .store _ => none

theorem characters_length (es : List Output) : (characters es).length = puts es := by
  induction es with
  | nil => rfl
  | cons e es ih =>
    have split : puts (e :: es) = puts [e] + puts es := puts_append [e] es
    cases e with
    | put ch =>
      have one : puts [.put ch] = 1 := rfl
      change (characters es).length + 1 = _
      rw [split, one, ih, Nat.add_comm]
    | store value =>
      have none : puts [.store value] = 0 := rfl
      change (characters es).length = _
      rw [split, none, ih, Nat.zero_add]

variable {memory : BitVec 64 → UInt8} {buf siz : BitVec 64}

theorem placed_nil (memory : BitVec 64 → UInt8) (buf : BitVec 64) : placed memory buf [] = memory := rfl

theorem concat_at (bytes : List UInt8) (c : UInt8) (i : Nat) :
    (bytes ++ [c])[i]? = if i = bytes.length then some c else bytes[i]? := by
  by_cases last : i = bytes.length
  · rw [if_pos last, last]
    exact List.getElem?_concat_length
  rw [if_neg last]
  by_cases before : i < bytes.length
  · exact List.getElem?_append_left before
  · have outside : (bytes ++ [c]).length ≤ i := by
      rw [List.length_append]
      exact Nat.lt_of_le_of_ne (Nat.le_of_not_lt before) (Ne.symm last)
    rw [List.getElem?_eq_none outside, List.getElem?_eq_none (Nat.le_of_not_lt before)]

/-- The byte behind those that are placed. -/
theorem placed_concat (bytes : List UInt8) (c : UInt8) {a : BitVec 64} (at_end : a.toNat = buf.toNat + bytes.length) :
    Function.update (placed memory buf bytes) a c = placed memory buf (bytes ++ [c]) := by
  funext x
  unfold placed
  rw [List.getD_eq_getElem?_getD (l := bytes ++ [c]), concat_at]
  by_cases same : x = a
  · have index : (a - buf).toNat = bytes.length := by bv_omega
    rw [same, Function.update_self, if_pos index]
    rfl
  · have index : (x - buf).toNat ≠ bytes.length := by bv_omega
    rw [Function.update_of_ne same, if_neg index]
    rfl

/-- The characters in a buffer that ends before the last address. -/
theorem filled (fits : buf.toNat + siz.toNat < 2 ^ 64) (memory : BitVec 64 → UInt8) (out : List Int) :
    out.foldl Target.putc ⟨buf, buf + siz, memory⟩ =
      ⟨buf + BitVec.ofNat 64 (min out.length siz.toNat), buf + siz, placed memory buf ((out.map uchar).take siz.toNat)⟩ := by
  induction out using List.reverseRecOn with
  | nil => simp [placed_nil]
  | append_singleton out ch ih =>
    rw [List.foldl_concat, ih, List.map_append, List.length_append]
    unfold Target.putc
    dsimp only
    by_cases full : siz.toNat ≤ out.length
    · have behind : buf + BitVec.ofNat 64 (min out.length siz.toNat) ≥ buf + siz := by
        rw [Nat.min_eq_right full, BitVec.ofNat_toNat, BitVec.setWidth_eq]
        exact BitVec.le_refl _
      have longer : siz.toNat ≤ out.length + [ch].length := Nat.le_add_right_of_le full
      rw [if_pos behind, Nat.min_eq_right full, Nat.min_eq_right longer, List.take_append_of_le_length (by rwa [List.length_map])]
    · have short : out.length < siz.toNat := Nat.lt_of_not_le full
      have small := siz.isLt
      have least : min out.length siz.toNat = out.length := by omega
      have next : min (out.length + [ch].length) siz.toNat = out.length + 1 := by
        rw [List.length_singleton]
        omega
      have inside : ¬buf + BitVec.ofNat 64 out.length ≥ buf + siz := by bv_omega
      have place : (buf + BitVec.ofNat 64 out.length).toNat = buf.toNat + (out.map uchar).length := by
        rw [List.length_map]
        bv_omega
      have whole : (out.map uchar).take siz.toNat = out.map uchar := List.take_of_length_le (by rw [List.length_map]; omega)
      have whole' : (out.map uchar ++ [ch].map uchar).take siz.toNat = out.map uchar ++ [uchar ch] := by
        apply List.take_of_length_le
        rw [List.length_append, List.length_map, List.length_map, List.length_singleton]
        omega
      rw [least, if_neg inside, next, whole, whole', placed_concat _ _ place]
      congr 1
      bv_omega

/-- The byte that is at the end of those placed is overwritten. -/
theorem placed_last (bytes : List UInt8) (x c : UInt8) {a : BitVec 64} (at_end : a.toNat = buf.toNat + bytes.length) :
    Function.update (placed memory buf (bytes ++ [x])) a c = placed memory buf (bytes ++ [c]) := by
  rw [← placed_concat bytes x at_end, Function.update_idem, placed_concat bytes c at_end]

theorem vsnprintf_fits (fits : buf.toNat + siz.toNat < 2 ^ 64) (buffer : siz ≠ 0 → buf ≠ 0) (memory : BitVec 64 → UInt8)
    (out : List Int) : vsnprintf memory buf siz out = placed memory buf (truncated siz.toNat (out.map uchar)) := by
  unfold vsnprintf
  rw [filled fits]
  dsimp only
  by_cases empty : siz = 0
  · have none : ¬(0 : BitVec 64) ≠ 0 := fun other => other rfl
    rw [empty, if_neg none, ite_self]
    rfl
  have positive : siz.toNat ≠ 0 := fun zero => empty (BitVec.eq_of_toNat_eq zero)
  rw [if_pos (buffer empty), if_pos empty, truncated, if_neg positive]
  by_cases full : siz.toNat ≤ out.length
  · have at_end : buf + BitVec.ofNat 64 (min out.length siz.toNat) = buf + siz := by
      rw [Nat.min_eq_right full, BitVec.ofNat_toNat, BitVec.setWidth_eq]
    obtain ⟨k, size⟩ : ∃ k, siz.toNat = k + 1 := Nat.exists_eq_succ_of_ne_zero positive
    have inside : k < (out.map uchar).length := by
      rw [List.length_map]
      omega
    have place : (buf + siz - 1).toNat = buf.toNat + ((out.map uchar).take k).length := by
      rw [List.length_take_of_le (Nat.le_of_lt inside)]
      bv_omega
    rw [at_end, if_pos rfl, size, List.take_succ_eq_append_getElem inside, placed_last _ _ _ place]
    rfl
  · have short : out.length < siz.toNat := Nat.lt_of_not_le full
    have least : min out.length siz.toNat = out.length := by omega
    have small := siz.isLt
    have inside : buf + BitVec.ofNat 64 out.length ≠ buf + siz := by bv_omega
    have whole : ∀ k, out.length ≤ k → (out.map uchar).take k = out.map uchar := by
      intro k long
      exact List.take_of_length_le (by rwa [List.length_map])
    have place : (buf + BitVec.ofNat 64 out.length).toNat = buf.toNat + (out.map uchar).length := by
      rw [List.length_map]
      bv_omega
    rw [least, if_neg inside, whole _ (by omega), whole _ (by omega), placed_concat _ _ place]

/-- A buffer that is said to reach the last address takes no character. -/
theorem vsnprintf_wraps (wraps : 2 ^ 64 ≤ buf.toNat + siz.toNat) (memory : BitVec 64 → UInt8) (out : List Int) :
    vsnprintf memory buf siz out = placed memory buf [0] := by
  have behind : buf ≥ buf + siz := by bv_omega
  have dropped : ∀ out : List Int, out.foldl Target.putc ⟨buf, buf + siz, memory⟩ = ⟨buf, buf + siz, memory⟩ := by
    intro out
    induction out with
    | nil => rfl
    | cons ch out ih =>
      rw [List.foldl_cons, Target.putc, if_pos behind]
      exact ih
  have buffer : buf ≠ 0 := by bv_omega
  have positive : siz ≠ 0 := by bv_omega
  have apart : buf ≠ buf + siz := by bv_omega
  unfold vsnprintf
  rw [dropped]
  dsimp only
  rw [if_pos buffer, if_pos positive, if_neg apart, ← placed_nil memory buf]
  exact placed_concat [] 0 rfl

/-- The buffer holds what it is to hold, whatever was in it, where its end does not wrap or nothing is to be stored. -/
theorem truncated_iff (buffer : siz ≠ 0 → buf ≠ 0) (out : List Int) :
    (∀ memory, vsnprintf memory buf siz out = placed memory buf (truncated siz.toNat (out.map uchar))) ↔
      buf.toNat + siz.toNat < 2 ^ 64 ∨ siz.toNat = 1 ∨ out = [] := by
  by_cases fits : buf.toNat + siz.toNat < 2 ^ 64
  · exact ⟨fun _ => .inl fits, fun _ memory => vsnprintf_fits fits buffer memory out⟩
  have wraps := Nat.le_of_not_lt fits
  have positive : siz.toNat ≠ 0 := by
    have := buf.isLt
    omega
  simp only [vsnprintf_wraps wraps, truncated, if_neg positive]
  constructor
  · intro same
    by_contra neither
    simp only [not_or] at neither
    obtain ⟨-, large, some⟩ := neither
    obtain ⟨ch, rest, rfl⟩ := List.exists_cons_of_ne_nil some
    obtain ⟨k, size⟩ : ∃ k, siz.toNat = k + 2 := ⟨siz.toNat - 2, by omega⟩
    obtain ⟨c, more, second⟩ := List.exists_cons_of_ne_nil (List.append_ne_nil_of_right_ne_nil ((rest.map uchar).take k) (List.cons_ne_nil 0 []))
    -- the second byte is to be stored and is not
    obtain ⟨x, apart⟩ : ∃ x : UInt8, x ≠ c := by
      by_cases zero : c = 0
      · rw [zero]
        exact ⟨1, by decide⟩
      · exact ⟨0, Ne.symm zero⟩
    have at_second := congrFun (same fun _ => x) (buf + 1)
    have index : (buf + 1 - buf).toNat = 1 := by bv_omega
    have bytes : ((ch :: rest).map uchar).take (siz.toNat - 1) ++ [0] = uchar ch :: c :: more := by
      rw [size, ← second]
      rfl
    rw [bytes, placed, placed, index] at at_second
    exact apart at_second
  · rintro (inside | one | rfl) memory
    · exact absurd inside fits
    · rw [one]
      rfl
    · rw [List.map_nil, List.take_nil]
      rfl

/-- `vsnprintf` stores the output truncated and returns its length, exactly where the end of the buffer does not wrap (or
nothing is to be stored) and the count that `vfprintf` returns is right. -/
theorem vsnprintf_iff (o : Outside) (buf siz : BitVec 64) (buffer : siz ≠ 0 → buf ≠ 0) (fmt : List Int) (args : List Arg) (inc : Nat) :
    ∃ n es last r, Runs (Machine.step o) n (vfprintf fmt args inc) es last ∧ last.step o = .done r ∧ ∀ value, r = .returned value →
      ((∀ memory, vsnprintf memory buf siz (characters es) = placed memory buf (truncated siz.toNat ((characters es).map uchar))) ∧
          value = (characters es).length ↔
        (buf.toNat + siz.toNat < 2 ^ 64 ∨ siz.toNat = 1 ∨ characters es = []) ∧
          puts es < 2 ^ 31 ∧ 2 ^ 32 ∣ drift o n (vfprintf fmt args inc)) := by
  obtain ⟨es, r, n, last, run, done⟩ := vfprintf_ends o (vfprintf fmt args inc)
  refine ⟨n, es, last, r, run, done, ?_⟩
  rintro value rfl
  rw [truncated_iff buffer, characters_length]
  exact and_congr_right fun _ => returned_iff run done

/-- Four bytes for `ab`. -/
theorem vsnprintf_ab :
    ∃ n es last r, Runs (Machine.step ⟨fun _ => false, fun _ => false, fun _ => false⟩) n (vfprintf [97, 98] [] 0) es last ∧
      last.step ⟨fun _ => false, fun _ => false, fun _ => false⟩ = .done r ∧ ∀ value, r = .returned value →
      ((∀ memory, vsnprintf memory 4096 4 (characters es) =
          placed memory 4096 (truncated (4 : BitVec 64).toNat ((characters es).map uchar))) ∧ value = (characters es).length ↔
        ((4096 : BitVec 64).toNat + (4 : BitVec 64).toNat < 2 ^ 64 ∨ (4 : BitVec 64).toNat = 1 ∨ characters es = []) ∧
          puts es < 2 ^ 31 ∧ 2 ^ 32 ∣ drift ⟨fun _ => false, fun _ => false, fun _ => false⟩ n (vfprintf [97, 98] [] 0)) :=
  vsnprintf_iff ⟨fun _ => false, fun _ => false, fun _ => false⟩ 4096 4 (fun _ => by decide) [97, 98] [] 0

/-- `vsprintf` of `a`, which says that the buffer has `SIZE_MAX` bytes: only the NUL is stored. -/
theorem sprintf_stores_nothing :
    ∃ es, Ends (Machine.step ⟨fun _ => false, fun _ => false, fun _ => false⟩) (vfprintf [97] [] 0) es (.returned 1) ∧
      characters es = [97] ∧ ∀ memory, vsnprintf memory 4096 (BitVec.allOnes 64) (characters es) 4096 = 0 := by
  refine ⟨_, ⟨1, _, Runs.of_exec rfl, rfl⟩, rfl, fun memory => ?_⟩
  have wraps : 2 ^ 64 ≤ (4096 : BitVec 64).toNat + (BitVec.allOnes 64).toNat := by decide
  rw [vsnprintf_wraps wraps]
  rfl

end Scc.Libc.Stdio.Printf
