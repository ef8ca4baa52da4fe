import Scc.Cc1.Code
import Scc.Ir.Lines

set_option linter.all false

/-! cc2 reads the data of an initialiser from the lines that cc1 prints for it. A line holds
a whole run of printable bytes, and the longest line that cc2 takes bounds the run. -/
namespace Scc.Ir
open Text Cc2

/-! The pieces of a string. -/

section
variable {isprint : UInt8 → Bool}

theorem run_initial (isprint : UInt8 → Bool) (bytes : List UInt8) :
    Cc1.run isprint bytes <+: bytes := by
  simp only [Cc1.run]
  split
  · exact List.takeWhile_prefix _
  · exact List.nil_prefix

theorem run_split (isprint : UInt8 → Bool) (bytes : List UInt8) :
    bytes = Cc1.run isprint bytes ++ bytes.drop (Cc1.run isprint bytes).length := by
  obtain ⟨rest, split⟩ := run_initial isprint bytes
  nth_rewrite 1 [← split]
  rw [List.append_cancel_left_eq]
  nth_rewrite 2 [← split]
  rw [List.drop_left]

theorem flatMap_escaped (bytes : List UInt8) :
    (bytes.map Cc1.Piece.escaped).flatMap Cc1.Piece.bytes = bytes := by
  simp [List.flatMap_map, Cc1.Piece.bytes]

theorem printed_bytes (isprint : UInt8 → Bool) (bytes : List UInt8) :
    (Cc1.printed isprint bytes).flatMap Cc1.Piece.bytes = Cc1.run isprint bytes := by
  unfold Cc1.printed
  split
  · next none => simp [none]
  · simp [Cc1.Piece.bytes]

theorem pieces_last {bytes : List UInt8}
    (rest : bytes.drop (Cc1.run isprint bytes).length = []) :
    Cc1.pieces isprint bytes = Cc1.printed isprint bytes := by
  rw [Cc1.pieces]
  split
  · exact List.append_nil _
  · next c bp more => exact absurd (more.symm.trans rest) (List.cons_ne_nil c bp)

theorem pieces_more {bytes bp : List UInt8} {c : UInt8}
    (rest : bytes.drop (Cc1.run isprint bytes).length = c :: bp) :
    Cc1.pieces isprint bytes = Cc1.printed isprint bytes ++
      ((c :: bp.takeWhile (!isprint ·)).map .escaped ++
        Cc1.pieces isprint (bp.dropWhile (!isprint ·))) := by
  rw [Cc1.pieces]
  split
  · next none => exact absurd (rest.symm.trans none) (List.cons_ne_nil c bp)
  · next c' bp' more =>
    obtain ⟨rfl, rfl⟩ := List.cons.inj (rest.symm.trans more)
    rfl

theorem pieces_bytes (isprint : UInt8 → Bool) (bytes : List UInt8) :
    (Cc1.pieces isprint bytes).flatMap Cc1.Piece.bytes = bytes := by
  induction bytes using Cc1.pieces.induct isprint with
  | case1 bytes ih =>
    have split := run_split isprint bytes
    cases rest : bytes.drop (Cc1.run isprint bytes).length with
    | nil =>
      rw [pieces_last rest, printed_bytes]
      simpa only [rest, List.append_nil] using split.symm
    | cons c bp =>
      rw [pieces_more rest, List.flatMap_append, List.flatMap_append, printed_bytes,
        flatMap_escaped, ih c bp rest, List.cons_append, List.takeWhile_append_dropWhile, ← rest,
        ← split]

theorem infix_split {α : Type} {l a b : List α} {c : α} (inside : l <:+: a ++ c :: b)
    (absent : c ∉ l) : l <:+: a ∨ l <:+: b := by
  obtain ⟨x, y, whole⟩ := inside
  rcases List.append_eq_append_iff.mp whole with ⟨a', left, -⟩ | ⟨later, left, right⟩
  · exact .inl ⟨x, a', left.symm⟩
  · cases later with
    | nil => exact .inl ⟨x, [], by simpa using left⟩
    | cons d later =>
      obtain ⟨rfl, rfl⟩ := List.cons.inj right
      rcases List.append_eq_append_iff.mp left with ⟨l', -, middle⟩ | ⟨x', -, middle⟩
      · rw [middle] at absent
        exact absurd (List.mem_append_right _ List.mem_cons_self) absent
      · cases x' with
        | nil =>
          rw [← List.nil_append l, ← middle] at absent
          exact absurd List.mem_cons_self absent
        | cons e x' =>
          obtain ⟨rfl, rfl⟩ := List.cons.inj middle
          exact .inr ⟨x', y, rfl⟩

theorem infix_skip {l skipped rest : List UInt8} (inside : l <:+: skipped ++ rest)
    (printable : ∀ c ∈ l, isprint c) (others : ∀ c ∈ skipped, isprint c = false) :
    l <:+: rest := by
  induction skipped with
  | nil => exact inside
  | cons c skipped ih =>
    have absent : c ∉ l := by
      intro member
      simpa [printable c member] using others c List.mem_cons_self
    rcases infix_split (a := []) inside absent with none | later
    · rw [List.infix_nil.mp none]
      exact List.nil_infix
    · exact ih later fun d member => others d (List.mem_cons_of_mem _ member)

theorem run_printable (isprint : UInt8 → Bool) (bytes : List UInt8) :
    ∀ c ∈ Cc1.run isprint bytes, isprint c := by
  intro c member
  simp only [Cc1.run] at member
  split at member
  · exact List.mem_takeWhile_imp member
  · cases member

/-- Printable bytes are printed in the run, or come after the byte behind it. -/
theorem run_or_after {bytes bp l : List UInt8} {c : UInt8}
    (rest : bytes.drop (Cc1.run isprint bytes).length = c :: bp) (inside : l <:+: bytes)
    (printable : ∀ c ∈ l, isprint c) (two : 1 < l.length) :
    l <:+: Cc1.run isprint bytes ∨ l <:+: bp := by
  have split := run_split isprint bytes
  rw [rest] at split
  by_cases shown : isprint c
  · have all := run_printable isprint bytes
    have single : ¬1 < (bytes.takeWhile isprint).length := by
      intro long
      have run : Cc1.run isprint bytes = bytes.takeWhile isprint := if_pos long
      have more := congrArg List.length (congrArg (List.takeWhile isprint) split)
      rw [List.takeWhile_append_of_pos all, List.takeWhile_cons_of_pos shown, run] at more
      simp at more
    have none : Cc1.run isprint bytes = [] := if_neg single
    rw [none, List.nil_append] at split
    subst split
    rw [List.takeWhile_cons_of_pos shown] at single
    have first : l <:+: [c] → l <:+: Cc1.run isprint (c :: bp) := by
      intro inside
      have := inside.length_le
      simp at this
      omega
    cases bp with
    | nil => exact .inl (first inside)
    | cons d bp =>
      have hidden : ¬isprint d := by
        intro shown
        simp [shown] at single
      rcases infix_split (a := [c]) inside fun member => hidden (printable d member) with
        one | later
      · exact .inl (first one)
      · exact .inr (List.infix_cons later)
  · rw [split] at inside
    exact infix_split inside fun member => shown (printable c member)

theorem mem_printed {bytes s : List UInt8} (member : .run s ∈ Cc1.printed isprint bytes) :
    s = Cc1.run isprint bytes := by
  unfold Cc1.printed at member
  split at member
  · cases member
  · exact Cc1.Piece.run.inj (List.mem_singleton.mp member)

theorem run_not_escaped {s bytes : List UInt8} :
    Cc1.Piece.run s ∉ bytes.map Cc1.Piece.escaped := by
  intro member
  obtain ⟨c, -, same⟩ := List.mem_map.mp member
  cases same

theorem pieces_run {bytes s : List UInt8} (member : .run s ∈ Cc1.pieces isprint bytes) :
    s <:+: bytes ∧ ∀ c ∈ s, isprint c := by
  have first : ∀ {bytes}, .run s ∈ Cc1.printed isprint bytes →
      s <:+: bytes ∧ ∀ c ∈ s, isprint c := by
    intro bytes member
    rw [mem_printed member]
    exact ⟨(run_initial isprint bytes).isInfix, run_printable isprint bytes⟩
  induction bytes using Cc1.pieces.induct isprint with
  | case1 bytes ih =>
    cases rest : bytes.drop (Cc1.run isprint bytes).length with
    | nil =>
      rw [pieces_last rest] at member
      exact first member
    | cons c bp =>
      rw [pieces_more rest, List.mem_append, List.mem_append] at member
      rcases member with here | escaped | later
      · exact first here
      · exact absurd escaped run_not_escaped
      · obtain ⟨inside, printable⟩ := ih c bp rest later
        have skipped : bp.dropWhile (!isprint ·) <:+ bytes := by
          apply (List.dropWhile_suffix _).trans
          apply (List.suffix_cons c bp).trans
          rw [← rest]
          exact List.drop_suffix _ _
        exact ⟨inside.trans skipped.isInfix, printable⟩

theorem pieces_infix {bytes l : List UInt8} (inside : l <:+: bytes)
    (printable : ∀ c ∈ l, isprint c) (two : 1 < l.length) :
    ∃ s, .run s ∈ Cc1.pieces isprint bytes ∧ l.length ≤ s.length := by
  have first : ∀ {bytes}, l <:+: Cc1.run isprint bytes →
      .run (Cc1.run isprint bytes) ∈ Cc1.printed isprint bytes := by
    intro bytes inside
    have some : Cc1.run isprint bytes ≠ [] := by
      intro none
      rw [none, List.infix_nil] at inside
      simp [inside] at two
    rw [Cc1.printed, if_neg some]
    exact List.mem_singleton_self _
  induction bytes using Cc1.pieces.induct isprint with
  | case1 bytes ih =>
    cases rest : bytes.drop (Cc1.run isprint bytes).length with
    | nil =>
      have whole := run_split isprint bytes
      rw [rest, List.append_nil] at whole
      rw [whole] at inside
      exact ⟨_, pieces_last rest ▸ first inside, inside.length_le⟩
    | cons c bp =>
      rw [pieces_more rest]
      rcases run_or_after rest inside printable two with here | later
      · exact ⟨_, List.mem_append_left _ (first here), here.length_le⟩
      · have others : ∀ c ∈ bp.takeWhile (!isprint ·), isprint c = false := by
          intro c member
          simpa using List.mem_takeWhile_imp member
        rw [← List.takeWhile_append_dropWhile (p := (!isprint ·)) (l := bp)] at later
        obtain ⟨s, member, long⟩ := ih c bp rest (infix_skip later printable others)
        exact ⟨s, List.mem_append_right _ (List.mem_append_right _ member), long⟩

/-- No more than `n` printable bytes stand next to each other. -/
def Short (isprint : UInt8 → Bool) (n : Nat) (bytes : List UInt8) : Prop :=
  ∀ l, l <:+: bytes → (∀ c ∈ l, isprint c) → l.length ≤ n

theorem short_iff {n : Nat} (one : 1 ≤ n) (bytes : List UInt8) :
    Short isprint n bytes ↔ ∀ s, .run s ∈ Cc1.pieces isprint bytes → s.length ≤ n := by
  constructor
  · intro short s member
    obtain ⟨inside, printable⟩ := pieces_run member
    exact short s inside printable
  · intro short l inside printable
    by_cases two : 1 < l.length
    · obtain ⟨s, member, long⟩ := pieces_infix inside printable two
      exact long.trans (short s member)
    · omega

end

/-! The bytes of a value, and of the entries that `data()` gets. -/

def valueBytes (size : Nat) (u : BitVec 64) : List UInt8 :=
  (List.range size).map fun i => ⟨u.extractLsb' (8 * i) 8⟩

def encoded : Cc1.Datum → List UInt8
  | .const type u => valueBytes type.size u
  | .string bytes => bytes

def decoded : Node → List UInt8
  | .mk .OSTRING _ (.s text) _ _ => text.map fun c => .ofNat c.toNat
  | .mk .OCONST tp (.i u) _ _ => valueBytes tp.size u
  | _ => []

theorem rawChar_toNat (c : UInt8) : (Cc1.rawChar c).toNat = c.toNat := by
  have valid : c.toNat.isValidChar := .inl (Nat.lt_trans c.toNat_lt (by decide))
  rw [Cc1.rawChar, Char.ofNat, dif_pos valid]
  exact UInt32.toNat_ofNatLT ..

theorem ones_bit {size j : Nat} (wide : size ≤ 8) (small : j < 64) :
    (Cc1.ones size).getLsbD j = decide (j < 8 * size) := by
  unfold Cc1.ones
  split
  · next whole =>
    subst whole
    rw [BitVec.getLsbD_allOnes]
  · rw [BitVec.getLsbD_not, BitVec.getLsbD_shiftLeft, BitVec.getLsbD_allOnes]
    have inside : j - size * 8 < 64 := by omega
    simp [small, inside, Nat.mul_comm]

/-- What `emitconst` masks is not among the bytes. -/
theorem valueBytes_masked {size : Nat} (wide : size ≤ 8) (u : BitVec 64) :
    valueBytes size (u &&& Cc1.ones size) = valueBytes size u := by
  apply List.map_congr_left
  intro i member
  have inside := List.mem_range.mp member
  congr 1
  apply BitVec.eq_of_getLsbD_eq
  intro j bit
  have small : 8 * i + j < 64 := by omega
  simp only [BitVec.getLsbD_extractLsb', BitVec.getLsbD_and, ones_bit wide small]
  have low : 8 * i + j < 8 * size := by omega
  simp [low]

def pieceNode : Cc1.Piece → Node
  | .run s =>
    let tp := { zerotype with strf := true, size := s.length, align := int8type.align }
    .mk .OSTRING tp (.s (s.map Cc1.rawChar)) .nil .nil
  | .escaped c => .mk .OCONST int8type (.i (.ofNat 64 c.toNat)) .nil .nil

theorem pieceNode_decoded (piece : Cc1.Piece) : decoded (pieceNode piece) = piece.bytes := by
  cases piece with
  | run s =>
    have back : ∀ c ∈ s, UInt8.ofNat (Cc1.rawChar c).toNat = c := by simp [rawChar_toNat]
    simp only [pieceNode, decoded, Cc1.Piece.bytes, List.map_map]
    exact (List.map_congr_left back).trans (List.map_id s)
  | escaped c =>
    have low : (BitVec.ofNat 64 c.toNat).extractLsb' 0 8 = c.toBitVec := by
      apply BitVec.eq_of_toNat_eq
      have small := c.toNat_lt
      simp
    simp [pieceNode, decoded, Cc1.Piece.bytes, valueBytes, int8type, low]

/-! The lines. -/

/-- The types of integer constants. -/
def Integral (tp : Cc1.CType) : Prop :=
  tp ∈ [Cc1.booltype, Cc1.chartype, Cc1.uchartype, Cc1.shorttype, Cc1.ushorttype, Cc1.inttype,
    Cc1.uinttype, Cc1.longtype, Cc1.ulongtype, Cc1.llongtype, Cc1.ullongtype] ∨
  (∃ id, tp = Cc1.enumType id) ∨
  tp.op = .PTR ∧ tp.letter = 'P' ∧ tp.size = 8 ∧ tp.tellipsis = false

theorem Integral.received {tp : Cc1.CType} (integral : Integral tp) (table : Nat → CType) :
    (lettertype tp.letter).isSome ∧ tp.tellipsis = false ∧ tp.size ≤ 8 ∧
      (Ir.received table tp).size = tp.size := by
  rcases integral with listed | ⟨id, rfl⟩ | ⟨-, letter, size, plain⟩
  · simp only [List.mem_cons, List.not_mem_nil, or_false] at listed
    rcases listed with rfl | rfl | rfl | rfl | rfl | rfl | rfl | rfl | rfl | rfl | rfl <;>
      exact ⟨rfl, rfl, by decide, rfl⟩
  · exact ⟨rfl, rfl, show 4 ≤ 8 by decide, rfl⟩
  · simp [Ir.received, letter, size, plain, lettertype, ptrtype]

/-- The lines of a datum, with the nodes that are to come out of them. -/
def datumLines (high : UInt8 → Bool) (table : Nat → CType) : Cc1.Datum → List (List Char × Node)
  | .const type u => [(Cc1.emitnode (Cc1.constnode type u), image table (Cc1.constnode type u))]
  | .string bytes =>
    (Cc1.pieces (Cc1.isprint high) bytes).map fun piece => (piece.text, pieceNode piece)

theorem datumLines_text (high : UInt8 → Bool) (table : Nat → CType) (datum : Cc1.Datum) :
    Cc1.emitdatum high datum = (datumLines high table datum).flatMap fun line =>
      line.1 ++ ['\n'] := by
  cases datum with
  | const type u => exact (List.append_nil _).symm
  | string bytes => simp [Cc1.emitdatum, datumLines, Cc1.emitstring, List.flatMap_map]

theorem datumLines_decoded (high : UInt8 → Bool) (table : Nat → CType) (datum : Cc1.Datum)
    (integral : ∀ type u, datum = .const type u → Integral type) :
    ((datumLines high table datum).map Prod.snd).flatMap decoded = encoded datum := by
  cases datum with
  | const type u =>
    obtain ⟨-, -, wide, size⟩ := (integral type u rfl).received table
    simp [datumLines, image, Cc1.constnode, decoded, encoded, size, valueBytes_masked wide]
  | string bytes =>
    simp [datumLines, encoded, List.flatMap_map, pieceNode_decoded, pieces_bytes]

/-- A line from which cc2 gets the node, unless it is too long for its buffer. -/
structure Reads (table : Nat → CType) (line : List Char × Node) : Prop where
  clean : '\n' ∉ line.1
  read : ∀ s : State, s.stack = [] → s.ininit = true → s.table = table →
    nextline line.1 s =
      if line.1.length + 1 < LINESIZ then .ok { s with data := s.data ++ [line.2] }
      else .error .ELNLINE

theorem Reads.tabbed {table : Nat → CType} {token : Token} {np : Node}
    (plain : Plain delim token) (read : ∀ s : State, s.stack = [] → s.table = table →
      eval [token] s = .ok { s with stack := [.node np] }) : Reads table ('\t' :: token, np) where
  clean := by
    intro member
    rcases List.mem_cons.mp member with tab | inside
    · exact absurd tab (by decide)
    · exact absurd (plain.undivided _ inside) (by decide)
  read := by
    intro s empty init same
    have found : tokens delim ('\t' :: token) = [token] := by
      rw [tokens_delim rfl, plain.tokens]
    by_cases room : ('\t' :: token).length + 1 < LINESIZ
    · rw [if_pos room]
      refine nextline_eq room found (List.cons_ne_nil _ _) (read s empty same) ?_ empty
      simp only [evalLine, Cc2.stmt, init, if_true, empty]
    · have long : ('\t' :: token).length + 1 ≥ LINESIZ := Nat.le_of_not_lt room
      rw [if_neg room]
      simp only [nextline, if_pos long, bind, Except.bind]

theorem const_reads (table : Nat → CType) {type : Cc1.CType} (integral : Integral type)
    (u : BitVec 64) :
    Reads table (Cc1.emitnode (Cc1.constnode type u), image table (Cc1.constnode type u)) := by
  obtain ⟨letter, plain, -, -⟩ := integral.received table
  refine .tabbed (emitconst_plain letter _) fun s empty same => ?_
  have value := constant_eq (s := s) letter plain (u &&& Cc1.ones type.size)
    (by simp [empty, STACKSIZ])
  rw [empty] at value
  subst same
  exact eval_token [] rfl rfl value

theorem rawChar_undivided {high : UInt8 → Bool} {c : UInt8}
    (printable : Cc1.isprint high c = true) : delim (Cc1.rawChar c) = false := by
  have code := rawChar_toNat c
  have other : ∀ d : Char, d.toNat < 32 → Cc1.rawChar c ≠ d := by
    rintro d control rfl
    rw [code] at control
    have ascii : c < 128 := UInt8.lt_iff_toNat_lt.mpr (show c.toNat < 128 by omega)
    have low : ¬32 ≤ c := fun le =>
      absurd (UInt8.le_iff_toNat_le.mp le) (show ¬32 ≤ c.toNat by omega)
    simp [Cc1.isprint, ascii, low] at printable
  simp [delim, other '\t' (by decide), other '\n' (by decide)]

theorem piece_reads (high : UInt8 → Bool) (table : Nat → CType) {piece : Cc1.Piece}
    (printable : ∀ s, piece = .run s → ∀ c ∈ s, Cc1.isprint high c) :
    Reads table (piece.text, pieceNode piece) := by
  cases piece with
  | run s =>
    have plain : Plain delim ('#' :: '"' :: s.map Cc1.rawChar) := by
      refine ⟨List.cons_ne_nil _ _, ?_⟩
      intro c member
      rcases List.mem_cons.mp member with rfl | member
      · rfl
      · rcases List.mem_cons.mp member with rfl | member
        · rfl
        · obtain ⟨b, inside, rfl⟩ := List.mem_map.mp member
          exact rawChar_undivided (printable s rfl b inside)
    refine .tabbed plain fun state empty same => ?_
    have value : Cc2.constant ('"' :: s.map Cc1.rawChar) state =
        .ok { state with stack := [.node (pieceNode (.run s))] } := by
      have pushed := push_eq (s := state) (.node (pieceNode (.run s))) (by simp [empty, STACKSIZ])
      rw [empty] at pushed
      simpa [Cc2.constant, pieceNode] using pushed
    exact eval_token [] rfl rfl value
  | escaped c =>
    have upper : c.toNat / 16 < 16 := by have := c.toNat_lt; omega
    have lower : c.toNat % 16 < 16 := Nat.mod_lt _ (by decide)
    have clear : ∀ d < 16, delim (Cc1.hexDigit d) = false := by decide
    have digits : ∀ d < 16, hexValue (Cc1.hexDigit d) = d := by decide
    have plain : Plain delim ['#', Cc1.chartype.letter, Cc1.hexDigit (c.toNat / 16),
        Cc1.hexDigit (c.toNat % 16)] := by
      refine ⟨List.cons_ne_nil _ _, undivided_of_all ?_⟩
      simp only [List.all_cons, List.all_nil, clear _ upper, clear _ lower]
      rfl
    refine .tabbed plain fun state empty same => ?_
    have value : Cc2.constant [Cc1.chartype.letter, Cc1.hexDigit (c.toNat / 16),
        Cc1.hexDigit (c.toNat % 16)] state =
        .ok { state with stack := [.node (pieceNode (.escaped c))] } := by
      have pushed := push_eq (s := state) (.node (pieceNode (.escaped c)))
        (by simp [empty, STACKSIZ])
      rw [empty] at pushed
      have typed : gettype ('C' :: [Cc1.hexDigit (c.toNat / 16), Cc1.hexDigit (c.toNat % 16)])
          state = .ok int8type := if_neg (by simp [empty, STACKSIZ])
      have sum : c.toNat / 16 * 16 + c.toNat % 16 = c.toNat := by omega
      have folded := hexValues [Cc1.hexDigit (c.toNat / 16), Cc1.hexDigit (c.toNat % 16)] 0
      simp only [List.foldl_cons, List.foldl_nil, digits _ upper, digits _ lower, Nat.zero_mul,
        Nat.zero_add, sum] at folded
      simp only [Cc2.constant, Cc1.chartype, Cc1.integerType, typed, bind, Except.bind,
        List.tail_cons, List.foldl_cons, List.foldl_nil, digits _ upper, digits _ lower]
      rw [← pushed, pieceNode, ← folded]
      rfl
    exact eval_token [] rfl rfl value

/-- The lines of an initialiser, between its brackets. -/
theorem lines_read {table : Nat → CType} (read : List (List Char × Node)) (rest : List (List Char))
    (reads : ∀ line ∈ read, Reads table line) (s : State) (empty : s.stack = [])
    (init : s.ininit = true) (going : s.endf = false) (same : s.table = table) :
    lines (read.map Prod.fst ++ rest) s =
      if ∀ line ∈ read, line.1.length + 1 < LINESIZ then
        lines rest { s with data := s.data ++ read.map Prod.snd }
      else .error .ELNLINE := by
  induction read generalizing s with
  | nil => simp
  | cons line read ih =>
    have first := (reads line List.mem_cons_self).read s empty init same
    have later := ih (fun line member => reads line (List.mem_cons_of_mem _ member))
      { s with data := s.data ++ [line.2] } empty init going same
    have running : ¬s.endf = true := by simp [going]
    simp only [List.map_cons, List.cons_append, lines, if_neg running, first, List.forall_mem_cons]
    by_cases short : line.1.length + 1 < LINESIZ
    · simp only [short, if_true, true_and]
      rw [later]
      simp only [List.append_assoc, List.singleton_append]
    · simp only [short, if_false, false_and]

theorem binit_read {s : State} (empty : s.stack = []) :
    nextline "\t(".toList s = .ok { s with ininit := true } := by
  have found : tokens delim "\t(".toList = [['(']] := by decide
  have read : eval [['(']] s = .ok { s with ininit := true } := eval_token [] rfl rfl rfl
  have idle : Cc2.stmt { s with ininit := true } = .ok { s with ininit := true } := by
    simp only [Cc2.stmt, empty]
  exact nextline_eq (by decide) found (List.cons_ne_nil _ _) read idle empty

theorem einit_read (s : State) (empty : s.stack = []) :
    nextline ")".toList s = .ok { s with ininit := false } := by
  have found : tokens delim ")".toList = [[')']] := by decide
  have read : eval [[')']] s = .ok { s with ininit := false } := eval_token [] rfl rfl rfl
  exact nextline_eq (by decide) found (List.cons_ne_nil _ _) read rfl empty

/-- What cc2 has after an initialiser: all of its data, unless a line is too long. -/
theorem initialiser_read (high : UInt8 → Bool) (data : List Cc1.Datum) (s : State)
    (integral : ∀ type u, .const type u ∈ data → Integral type) (empty : s.stack = [])
    (going : s.endf = false) :
    parse (Cc1.emitinit high data) s =
      if ∀ line ∈ data.flatMap (datumLines high s.table), line.1.length + 1 < LINESIZ then
        .ok { s with
          data := s.data ++ (data.flatMap (datumLines high s.table)).map Prod.snd
          ininit := false }
      else .error .ELNLINE := by
  have reads : ∀ line ∈ data.flatMap (datumLines high s.table), Reads s.table line := by
    intro line member
    obtain ⟨datum, among, inside⟩ := List.mem_flatMap.mp member
    cases datum with
    | const type u =>
      obtain rfl := List.mem_singleton.mp inside
      exact const_reads s.table (integral type u among) u
    | string bytes =>
      obtain ⟨piece, printed, rfl⟩ := List.mem_map.mp inside
      apply piece_reads high s.table
      rintro run rfl
      exact (pieces_run printed).2
  have text : Cc1.emitinit high data = ("\t(".toList ::
      ((data.flatMap (datumLines high s.table)).map Prod.fst ++ [")".toList])).flatMap
        fun line => line ++ ['\n'] := by
    have each := funext (datumLines_text high s.table)
    simp [Cc1.emitinit, each, List.flatMap_map, List.flatMap_assoc]
  have clean : ∀ line ∈ "\t(".toList ::
      ((data.flatMap (datumLines high s.table)).map Prod.fst ++ [")".toList]), '\n' ∉ line := by
    intro line member
    rcases List.mem_cons.mp member with rfl | member
    · decide
    · rcases List.mem_append.mp member with member | member
      · obtain ⟨read, among, rfl⟩ := List.mem_map.mp member
        exact (reads read among).clean
      · obtain rfl := List.mem_singleton.mp member
        decide
  have running : ¬s.endf = true := by simp [going]
  rw [parse, text, splitOn_lines clean]
  simp only [List.getLast?_concat, if_true, List.dropLast_concat]
  rw [lines, if_neg running]
  simp only [binit_read empty]
  rw [lines_read _ _ reads { s with ininit := true } empty rfl going rfl]
  split
  · rw [lines, if_neg running]
    simp only [einit_read { s with
      data := s.data ++ (data.flatMap (datumLines high s.table)).map Prod.snd, ininit := true } empty]
    rfl
  · rfl

/-- cc2 has the bytes of the data, in their order and behind those that were there. -/
def Rebuilt (high : UInt8 → Bool) (data : List Cc1.Datum) (s : State) : Prop :=
  ∃ s' nodes, parse (Cc1.emitinit high data) s = .ok s' ∧ s'.stack = [] ∧ s'.ininit = false ∧
    s'.data = s.data ++ nodes ∧ nodes.flatMap decoded = data.flatMap encoded

theorem const_short {type : Cc1.CType} (u : BitVec 64) :
    (Cc1.emitnode (Cc1.constnode type u)).length + 1 < LINESIZ := by
  have digits := numeral_length_le (k := 15) (n := (u &&& Cc1.ones type.size).toNat)
    (show 1 < 16 by decide) Cc1.hexDigit (BitVec.isLt _)
  simp only [Cc1.emitnode, Cc1.constnode, Cc1.emitconst, Cc1.hexadecimal, LINESIZ, if_true,
    Bool.false_eq_true, if_false, List.length_append, List.length_cons, List.length_nil]
  omega

theorem lines_short (high : UInt8 → Bool) (table : Nat → CType) (data : List Cc1.Datum) :
    (∀ line ∈ data.flatMap (datumLines high table), line.1.length + 1 < LINESIZ) ↔
      ∀ bytes, .string bytes ∈ data → Short (Cc1.isprint high) (LINESIZ - 5) bytes := by
  have one : 1 ≤ LINESIZ - 5 := by decide
  constructor
  · intro short bytes member
    refine (short_iff one bytes).mpr fun s run => ?_
    have line := short (Cc1.Piece.text (.run s), pieceNode (.run s))
      (List.mem_flatMap.mpr ⟨_, member, List.mem_map.mpr ⟨_, run, rfl⟩⟩)
    simp only [Cc1.Piece.text, List.length_cons, List.length_map] at line
    omega
  · intro short line member
    obtain ⟨datum, among, inside⟩ := List.mem_flatMap.mp member
    cases datum with
    | const type u =>
      obtain rfl := List.mem_singleton.mp inside
      exact const_short u
    | string bytes =>
      obtain ⟨piece, printed, rfl⟩ := List.mem_map.mp inside
      cases piece with
      | run s =>
        have bound := (short_iff one bytes).mp (short bytes among) s printed
        have size : LINESIZ = 4095 := rfl
        simp only [Cc1.Piece.text, List.length_cons, List.length_map]
        omega
      | escaped c => exact show 5 + 1 < LINESIZ by decide

theorem Rebuilt.short {high : UInt8 → Bool} {data : List Cc1.Datum} {s : State}
    (rebuilt : Rebuilt high data s) (integral : ∀ type u, .const type u ∈ data → Integral type)
    (empty : s.stack = []) (going : s.endf = false) :
    ∀ bytes, .string bytes ∈ data → Short (Cc1.isprint high) (LINESIZ - 5) bytes := by
  rw [← lines_short high s.table]
  by_contra long
  obtain ⟨s', nodes, parsed, -⟩ := rebuilt
  rw [initialiser_read high data s integral empty going, if_neg long] at parsed
  cases parsed

/-- The data that cc1 prints come back, integers as far as their types hold them, if no string
has more printable bytes in a row than a line has place for. -/
theorem data_roundtrip (high : UInt8 → Bool) (data : List Cc1.Datum) (s : State)
    (integral : ∀ type u, .const type u ∈ data → Integral type) (empty : s.stack = [])
    (going : s.endf = false) :
    Rebuilt high data s ↔
      ∀ bytes, .string bytes ∈ data → Short (Cc1.isprint high) (LINESIZ - 5) bytes := by
  constructor
  · intro rebuilt
    exact rebuilt.short integral empty going
  · intro short
    rw [← lines_short high s.table] at short
    have read := initialiser_read high data s integral empty going
    rw [if_pos short] at read
    refine ⟨_, _, read, empty, rfl, rfl, ?_⟩
    rw [List.map_flatMap, List.flatMap_assoc]
    apply List.flatMap_congr
    intro datum member
    exact datumLines_decoded high s.table datum fun type u same => integral type u (same ▸ member)

theorem data_roundtrip_escapes :
    Rebuilt (fun _ => false) [.const Cc1.shorttype (-2), .string [97, 98, 10, 34, 200, 0]]
        (ready fun _ => voidtype) ↔
      ∀ bytes, .string bytes ∈
          [Cc1.Datum.const Cc1.shorttype (-2), .string [97, 98, 10, 34, 200, 0]] →
        Short (Cc1.isprint fun _ => false) (LINESIZ - 5) bytes :=
  data_roundtrip (fun _ => false) _ (ready fun _ => voidtype)
    (by
      rintro type u (_ | ⟨_, _ | ⟨_, ⟨⟩⟩⟩)
      exact .inl (by decide)) rfl rfl

/-- The line of a literal of 4091 letters does not fit. -/
theorem long_literal_refused :
    ¬Rebuilt (fun _ => false) [.string (List.replicate 4091 97 ++ [0])]
      (ready fun _ => voidtype) := by
  intro rebuilt
  have integral : ∀ type u, Cc1.Datum.const type u ∉
      [Cc1.Datum.string (List.replicate 4091 97 ++ [0])] := by
    rintro type u (_ | ⟨_, ⟨⟩⟩)
  have short := rebuilt.short (fun type u member => absurd member (integral type u)) rfl rfl
  have bound := short _ List.mem_cons_self (List.replicate 4091 97) (List.infix_append' [] _ [0])
    fun c member => by
      rw [List.eq_of_mem_replicate member]
      decide
  rw [List.length_replicate] at bound
  exact absurd bound (by decide)

end Scc.Ir
