import Scc.Cc1.Numbers
import Scc.Memory.Blocks

set_option linter.all false

/-! Adjacent string literals (`adjstrings` in `expr.c`). -/
namespace Scc.Cc1.Literals
open Memory

/-- The symbol of a string: the number of elements of its type and `u.s`. -/
structure Sym where
  elem : Nat
  s : Nat
  deriving DecidableEq

/-- `newstring`: the bytes of the literal are copied with their NUL. -/
def newstring (h : Blocks UInt8) (bytes : List UInt8) : Sym × Blocks UInt8 :=
  let (s, h) := h.alloc (bytes ++ [0])
  (⟨bytes.length + 1, s⟩, h)

def deref (h : Blocks UInt8) (s : Nat) : List UInt8 := (h.content s).getD []

/-- The bytes before the first NUL. -/
def cut (s : List UInt8) : List UInt8 := s.takeWhile (· ≠ 0)

def strlen (h : Blocks UInt8) (s : Nat) : Nat := (cut (deref h s)).length

/-- `xrealloc`, which may move the block. The bytes behind the old ones are not defined. -/
def xrealloc (h : Blocks UInt8) (moves : Bool) (s size : Nat) : Nat × Blocks UInt8 :=
  h.move moves s ((deref h s).take size ++ List.replicate (size - (deref h s).length) 0)

def memcpy (h : Blocks UInt8) (s offset : Nat) (t : List UInt8) : Blocks UInt8 :=
  h.write s ((deref h s).take offset ++ t ++ (deref h s).drop (offset + t.length))

/-- A literal that follows, and whether `xrealloc` moves the text for it. -/
structure Adjacent where
  bytes : List UInt8
  moves : Bool
  deriving DecidableEq

/-- The first `n` bytes of `t` are added behind the `len` bytes of `s`. -/
def adjoin (h : Blocks UInt8) (moves : Bool) (s len t n : Nat) : Nat × Blocks UInt8 :=
  let (s, h) := xrealloc h moves s (len + n + 1)
  let h := memcpy h s len ((deref h t).take n)
  (s, h.write s ((deref h s).set (len + n) 0))

/-- The loop of `adjstrings`; each literal that follows is read by `next`. -/
def adjLoop (h : Blocks UInt8) (s len : Nat) : List Adjacent → Blocks UInt8 × Nat × Nat
  | [] => (h, s, len)
  | o :: others =>
    let (sym, h) := newstring h o.bytes
    let n := strlen h sym.s
    let (s, h) := adjoin h o.moves s len sym.s n
    adjLoop h s (len + n) others

def adjstrings (h : Blocks UInt8) (sym : Sym) (others : List Adjacent) : Sym × Blocks UInt8 :=
  let (h, s, len) := adjLoop h sym.s (strlen h sym.s) others
  if sym.elem ≠ len + 1 then (⟨len + 1, s⟩, h) else (sym, h)

/-- The bytes of literals one after another. -/
def concatenation (first : List UInt8) (others : List Adjacent) : List UInt8 := first ++ others.flatMap Adjacent.bytes

/-- The array has an element for each byte and one for the NUL, and its storage is alive and holds them. -/
def Concatenated (h : Blocks UInt8) (first : List UInt8) (others : List Adjacent) : Prop :=
  let (sym, h) := newstring h first
  let (sym, h) := adjstrings h sym others
  sym.elem = (concatenation first others).length + 1 ∧ h.content sym.s = some (concatenation first others ++ [0])

section
variable {h h' : Blocks UInt8} {s s' len len' b : Nat} {others : List Adjacent} {old : List UInt8}

theorem cut_nul (bytes rest : List UInt8) : cut (bytes ++ 0 :: rest) = cut bytes := by
  induction bytes with
  | nil => rfl
  | cons c bytes ih =>
    by_cases nul : c = 0
    · simp [cut, nul]
    · simpa [cut, nul] using ih

theorem cut_whole {bytes : List UInt8} : (cut bytes).length = bytes.length ↔ 0 ∉ bytes := by
  induction bytes with
  | nil => simp [cut]
  | cons c bytes ih =>
    by_cases nul : c = 0
    · simp [cut, nul]
    · have nul' : 0 ≠ c := fun equal => nul equal.symm
      simpa [cut, nul, nul'] using ih

theorem cut_length (bytes : List UInt8) : (cut bytes).length ≤ bytes.length := (List.takeWhile_sublist _).length_le

/-- The bytes of the enlarged block when the next text and its NUL have been stored. -/
theorem stored {t : List UInt8} (known : len < old.length) :
    (((old.take (len + t.length + 1) ++ List.replicate (len + t.length + 1 - old.length) 0).take len ++ t ++
      (old.take (len + t.length + 1) ++ List.replicate (len + t.length + 1 - old.length) 0).drop (len + t.length)).set
        (len + t.length) 0) = old.take len ++ t ++ [0] := by
  have size : (old.take (len + t.length + 1) ++ List.replicate (len + t.length + 1 - old.length) 0).length =
      len + t.length + 1 := by
    simp
    omega
  generalize grown : old.take (len + t.length + 1) ++ List.replicate (len + t.length + 1 - old.length) 0 = r at size
  have start : r.take len = old.take len := by
    rw [← grown, List.take_append_of_le_length (by simp; omega), List.take_take, Nat.min_eq_left (by omega)]
  obtain ⟨c, last⟩ : ∃ c, r.drop (len + t.length) = [c] := List.length_eq_one_iff.mp (by simp [size])
  have place : (old.take len ++ t).length = len + t.length := by simp; omega
  rw [start, last, ← place, List.set_append_right _ _ le_rfl, Nat.sub_self]
  rfl

theorem deref_eq {text : List UInt8} (live : h.content s = some text) : deref h s = text := by simp [deref, live]

/-- The enlarged text, in its place or in a new one. -/
theorem adjoin_content {moves : Bool} {t : Nat} {x rest : List UInt8} (live : h.content s = some old) (known : len < old.length)
    (text : h.content t = some (x ++ rest)) (apart : t ≠ s) :
    (adjoin h moves s len t x.length).2.content (adjoin h moves s len t x.length).1 = some (old.take len ++ x ++ [0]) := by
  have live₂ := Blocks.move_content moves
    (old.take (len + x.length + 1) ++ List.replicate (len + x.length + 1 - old.length) 0) live
  have text₂ := (Blocks.move_other moves
    (old.take (len + x.length + 1) ++ List.replicate (len + x.length + 1 - old.length) 0) apart
    (Blocks.below text)).trans text
  have start : (x ++ rest).take x.length = x := List.take_left
  simp only [adjoin, memcpy, xrealloc, deref_eq live, deref_eq text₂, deref_eq live₂, start]
  rw [Blocks.write_content (Blocks.write_content live₂), deref_eq (Blocks.write_content live₂), stored known]

theorem adjoin_other (moves : Bool) (len t n : Nat) (other : b ≠ s) (old : b < h.next) :
    b ≠ (adjoin h moves s len t n).1 ∧ (adjoin h moves s len t n).2.content b = h.content b := by
  have apart : b ≠ (xrealloc h moves s (len + n + 1)).1 := Blocks.move_place other old
  refine ⟨apart, ?_⟩
  simp only [adjoin, memcpy]
  rw [Blocks.write_other apart, Blocks.write_other apart]
  exact Blocks.move_other moves _ other old

theorem adjoin_next (h : Blocks UInt8) (moves : Bool) (s len t n : Nat) : h.next ≤ (adjoin h moves s len t n).2.next :=
  Blocks.move_next ..

theorem adjoin_moves {t n : Nat} (live : h.content s = some old) :
    s ≠ (adjoin h true s len t n).1 ∧ (adjoin h true s len t n).2.content s = none := by
  have below := Blocks.below live
  have apart : s ≠ (xrealloc h true s (len + n + 1)).1 := by
    simp only [xrealloc, Blocks.move, if_true]
    omega
  refine ⟨apart, ?_⟩
  simp only [adjoin, memcpy]
  rw [Blocks.write_other apart, Blocks.write_other apart]
  exact Blocks.move_gone live

/-- What one turn of the loop leaves. -/
theorem adjLoop_step (o : Adjacent) (others : List Adjacent) (live : h.content s = some old) (known : len < old.length) :
    ∃ h' s', adjLoop h s len (o :: others) = adjLoop h' s' (len + (cut o.bytes).length) others ∧
      h'.content s' = some (old.take len ++ cut o.bytes ++ [0]) ∧ (o.moves = false → s' = s) ∧
      (o.moves = true → s ≠ s' ∧ h'.content s = none) ∧ h.next < h'.next ∧
      ∀ b < h.next, b ≠ s → b ≠ s' ∧ h'.content b = h.content b := by
  have below := Blocks.below live
  have text : (h.alloc (o.bytes ++ [0])).2.content h.next = some (o.bytes ++ [0]) := Blocks.alloc_content (h := h)
  have live₁ : (h.alloc (o.bytes ++ [0])).2.content s = some old := (Blocks.alloc_other below).trans live
  have n : strlen (h.alloc (o.bytes ++ [0])).2 h.next = (cut o.bytes).length := by rw [strlen, deref_eq text, cut_nul]
  obtain ⟨more, split⟩ : ∃ more, o.bytes ++ [0] = cut o.bytes ++ more := by
    obtain ⟨more, same⟩ := List.takeWhile_prefix (l := o.bytes) fun c => decide (c ≠ 0)
    exact ⟨more ++ [0], by rw [← List.append_assoc]; exact congrArg (· ++ [0]) same.symm⟩
  refine ⟨(adjoin (h.alloc (o.bytes ++ [0])).2 o.moves s len h.next (cut o.bytes).length).2,
    (adjoin (h.alloc (o.bytes ++ [0])).2 o.moves s len h.next (cut o.bytes).length).1, ?_, ?_, ?_, ?_, ?_, ?_⟩
  · rw [adjLoop]
    simp only [newstring]
    rw [show (h.alloc (o.bytes ++ [0])).1 = h.next from rfl, n]
  · exact adjoin_content live₁ known (text.trans (congrArg some split)) (by omega)
  · intro still
    rw [still]
    rfl
  · intro moves
    rw [moves]
    exact adjoin_moves live₁
  · have later := adjoin_next (h.alloc (o.bytes ++ [0])).2 o.moves s len h.next (cut o.bytes).length
    rw [Blocks.alloc_next] at later
    omega
  · intro b low other
    obtain ⟨apart, same⟩ := adjoin_other o.moves len h.next (cut o.bytes).length other
      (show b < (h.alloc (o.bytes ++ [0])).2.next by rw [Blocks.alloc_next]; omega)
    exact ⟨apart, same.trans (Blocks.alloc_other low)⟩

/-- The bytes that the loop adds: each text up to its first NUL. -/
def added (others : List Adjacent) : List UInt8 := others.flatMap fun o => cut o.bytes

/-- The loop adds what lies before the NULs. -/
theorem adjLoop_text (others : List Adjacent) (live : h.content s = some old) (known : len < old.length) :
    (adjLoop h s len others).2.2 = len + (added others).length ∧
      (adjLoop h s len others).1.content (adjLoop h s len others).2.1 =
        some (if others = [] then old else old.take len ++ added others ++ [0]) := by
  induction others generalizing h s len old with
  | nil => exact ⟨rfl, live⟩
  | cons o others ih =>
    obtain ⟨h', s', step, live', -, -, -, -⟩ := adjLoop_step o others live known
    have size : (old.take len ++ cut o.bytes).length = len + (cut o.bytes).length := by
      simp
      omega
    have next : len + (cut o.bytes).length < (old.take len ++ cut o.bytes ++ [0]).length := by
      simp
      omega
    obtain ⟨length, text⟩ := ih live' next
    rw [List.take_append_of_le_length size.ge, List.take_of_length_le size.le] at text
    rw [step]
    refine ⟨by rw [length]; simp [added]; omega, ?_⟩
    rw [text, if_neg (List.cons_ne_nil o others)]
    split
    case isTrue last => simp [added, last]
    case isFalse => simp [added]

/-- Where no text is moved, the first one keeps its place. -/
theorem adjLoop_still (others : List Adjacent) (live : h.content s = some old) (known : len < old.length)
    (still : ∀ o ∈ others, o.moves = false) : (adjLoop h s len others).2.1 = s := by
  induction others generalizing h len old with
  | nil => rfl
  | cons o others ih =>
    obtain ⟨h', s', step, live', same, -, -, -⟩ := adjLoop_step o others live known
    obtain rfl := same (still o List.mem_cons_self)
    rw [step]
    exact ih live' (by simp; omega) fun o' later => still o' (List.mem_cons_of_mem o later)

/-- A block that was freed stays free. -/
theorem adjLoop_gone (live : h.content s = some old) (known : len < old.length) (free : h.content b = none)
    (low : b < h.next) (other : b ≠ s) : (adjLoop h s len others).1.content b = none := by
  induction others generalizing h s len old with
  | nil => exact free
  | cons o others ih =>
    obtain ⟨h', s', step, live', -, -, later, kept⟩ := adjLoop_step o others live known
    obtain ⟨apart, same⟩ := kept b low other
    rw [step]
    exact ih live' (by simp; omega) (same.trans free) (by omega) apart

theorem adjLoop_moved (others : List Adjacent) (live : h.content s = some old) (known : len < old.length)
    (moved : ∃ o ∈ others, o.moves = true) :
    (adjLoop h s len others).1.content s = none := by
  induction others generalizing h len old with
  | nil => simp at moved
  | cons o others ih =>
    obtain ⟨h', s', step, live', same, gone, later, -⟩ := adjLoop_step o others live known
    rw [step]
    cases moves : o.moves with
    | true =>
      obtain ⟨apart, free⟩ := gone moves
      exact adjLoop_gone live' (by simp; omega) free (by have := Blocks.below live; omega) apart
    | false =>
      obtain rfl := same moves
      obtain ⟨o', among, moves'⟩ := moved
      rcases List.mem_cons.mp among with rfl | among
      · rw [moves] at moves'
        cases moves'
      · exact ih live' (by simp; omega) ⟨o', among, moves'⟩

theorem cut_eq {bytes : List UInt8} (nonzero : 0 ∉ bytes) : cut bytes = bytes :=
  List.Sublist.eq_of_length (List.takeWhile_sublist _) (cut_whole.mpr nonzero)

theorem added_eq (nonzero : ∀ o ∈ others, 0 ∉ o.bytes) : added others = others.flatMap Adjacent.bytes := by
  induction others with
  | nil => rfl
  | cons o others ih =>
    simp only [added, List.flatMap_cons, cut_eq (nonzero o List.mem_cons_self)]
    exact congrArg _ (ih fun o' later => nonzero o' (List.mem_cons_of_mem o later))

theorem added_length (others : List Adjacent) : (added others).length ≤ (others.flatMap Adjacent.bytes).length := by
  induction others with
  | nil => exact le_rfl
  | cons o others ih =>
    have := cut_length o.bytes
    simp only [added, List.flatMap_cons, List.length_append] at ih ⊢
    omega

theorem added_whole : (added others).length = (others.flatMap Adjacent.bytes).length ↔ ∀ o ∈ others, 0 ∉ o.bytes := by
  induction others with
  | nil => simp [added]
  | cons o others ih =>
    have first := cut_length o.bytes
    have rest := added_length others
    rw [List.forall_mem_cons, ← ih, ← cut_whole]
    simp only [added, List.flatMap_cons, List.length_append] at rest ⊢
    omega

end

/-- Adjacent literals make one array exactly where none of them has a NUL, and a later one is not empty
or the text of the first was never moved: the symbol keeps the old pointer when the length is the same. -/
theorem adjstrings_iff (h : Blocks UInt8) (first : List UInt8) (others : List Adjacent) :
    Concatenated h first others ↔
      (0 ∉ first ∧ ∀ o ∈ others, 0 ∉ o.bytes) ∧ ((∃ o ∈ others, o.bytes ≠ []) ∨ ∀ o ∈ others, o.moves = false) := by
  have live : (h.alloc (first ++ [0])).2.content h.next = some (first ++ [0]) := Blocks.alloc_content (h := h)
  have length : strlen (h.alloc (first ++ [0])).2 h.next = (cut first).length := by rw [strlen, deref_eq live, cut_nul]
  have known : (cut first).length < (first ++ [0]).length := by
    have := cut_length first
    simp
    omega
  obtain ⟨size, text⟩ := adjLoop_text others live known
  have still := adjLoop_still others live known
  have moved := adjLoop_moved others live known
  have bound := cut_length first
  have bounds := added_length others
  have empty : (∃ o ∈ others, o.bytes ≠ []) ↔ (others.flatMap Adjacent.bytes).length ≠ 0 := by
    rw [Ne, List.length_eq_zero_iff, List.flatMap_eq_nil_iff]
    push Not
    rfl
  have size' : (concatenation first others).length = first.length + (others.flatMap Adjacent.bytes).length :=
    List.length_append
  have whole : (0 ∉ first ∧ ∀ o ∈ others, 0 ∉ o.bytes) ↔
      (cut first).length + (added others).length = (concatenation first others).length := by
    rw [← cut_whole, ← added_whole]
    omega
  have bytes (nonzero : 0 ∉ first ∧ ∀ o ∈ others, 0 ∉ o.bytes) :
      (if others = [] then first ++ [0] else (first ++ [0]).take (cut first).length ++ added others ++ [0]) =
        concatenation first others ++ [0] := by
    rw [cut_eq nonzero.1, added_eq nonzero.2, List.take_left, concatenation]
    split
    case isTrue none => simp [none]
    case isFalse => rfl
  unfold Concatenated
  simp only [newstring, adjstrings, show (h.alloc (first ++ [0])).1 = h.next from rfl, length, size]
  generalize adjLoop (h.alloc (first ++ [0])).2 h.next (cut first).length others = result at *
  obtain ⟨h', s', len'⟩ := result
  dsimp only at text still moved ⊢
  by_cases same : first.length = (cut first).length + (added others).length
  · rw [if_neg (by omega)]
    dsimp only
    constructor
    · rintro ⟨elem, kept⟩
      refine ⟨whole.mpr (by omega), .inr fun o among => ?_⟩
      by_contra moves
      rw [moved ⟨o, among, by simpa using moves⟩] at kept
      cases kept
    · rintro ⟨nonzero, kept⟩
      have none : (others.flatMap Adjacent.bytes).length = 0 := by
        have := whole.mp nonzero
        omega
      have place := still (kept.resolve_left fun some => empty.mp some none)
      exact ⟨by omega, by rw [← place, text, bytes nonzero]⟩
  · rw [if_pos (by omega)]
    dsimp only
    constructor
    · rintro ⟨elem, -⟩
      exact ⟨whole.mpr (by omega), .inl (empty.mpr (by omega))⟩
    · rintro ⟨nonzero, -⟩
      have := whole.mp nonzero
      exact ⟨by omega, by rw [text, bytes nonzero]⟩

/-- `"a\0"`: the array has no element for the NUL that ends the string. -/
theorem nul_lost : ¬ ∀ h first others, Concatenated h first others := by
  intro all
  obtain ⟨elem, -⟩ := all ⟨0, fun _ => none, fun _ _ => rfl⟩ [97, 0] []
  exact absurd elem (by decide)

end Scc.Cc1.Literals
