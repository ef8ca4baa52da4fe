import Scc.Ir.Trees
import Mathlib.Data.List.TakeWhile

set_option linter.all false

/-! cc2 rebuilds the trees that cc1 prints. The tokens of a tree leave its image on the
stack, above what was there. -/
namespace Scc.Ir
open Text

/-! The tokens of a tree. -/

/-- The tokens of a node itself, after those of its operands. -/
def own (op : Cc1.Op) (nconst : Bool) (type : Cc1.CType) (sym : Option Cc1.Symbol) :
    List Cc2.Token :=
  match op, sym with
  | .OSYM, some sym => [if nconst then Cc1.emitconst type sym else Cc1.emitvar sym]
  | .OCAST, _ => if type = Cc1.voidtype then [] else [['g', type.letter]]
  | .OBUILTIN, sym =>
    ['"' :: (sym.map fun sym => sym.name.toList).getD [], 'm' :: Cc1.emitletter type]
  | op, _ =>
    match Cc1.optxt op with
    | some s => [s ++ Cc1.emitletter type]
    | none => []

def words : Cc1.Node → List Cc2.Token
  | .nil => []
  | .mk op nconst type sym left right => words left ++ words right ++ own op nconst type sym

theorem plain_append {first second : List Char} (one : Plain Cc2.delim first)
    (two : ∀ c ∈ second, Cc2.delim c = false) : Plain Cc2.delim (first ++ second) where
  nonempty := List.append_ne_nil_of_left_ne_nil one.nonempty _
  undivided c member := by
    rcases List.mem_append.mp member with left | right
    · exact one.undivided c left
    · exact two c right

theorem decimal_digits {n : Nat} : ∀ c ∈ Cc1.decimal n, c.isDigit = true := by
  have digits : ∀ d < 10, (Nat.digitChar d).isDigit = true := by decide
  intro c member
  obtain ⟨d, small, rfl⟩ := mem_numeral (by decide) member
  exact digits d small

theorem decimal_undivided {n : Nat} : ∀ c ∈ Cc1.decimal n, Cc2.delim c = false := by
  have digits : ∀ d < 10, Cc2.delim (Nat.digitChar d) = false := by decide
  intro c member
  obtain ⟨d, small, rfl⟩ := mem_numeral (by decide) member
  exact digits d small

theorem hexadecimal_undivided {n : Nat} : ∀ c ∈ Cc1.hexadecimal n, Cc2.delim c = false := by
  have digits : ∀ d < 16, Cc2.delim (Cc1.hexDigit d) = false := by decide
  intro c member
  obtain ⟨d, small, rfl⟩ := mem_numeral (by decide) member
  exact digits d small

theorem atoi_decimal (n : Nat) : Cc2.atoi (Cc1.decimal n) = n := by
  have all : (Cc1.decimal n).takeWhile Char.isDigit = Cc1.decimal n :=
    List.takeWhile_eq_self_iff.mpr decimal_digits
  have digits : ∀ d < 10, (Nat.digitChar d).toNat - '0'.toNat = d := by decide
  rw [Cc2.atoi, all]
  exact readDigits_numeral (by decide) digits n

theorem lettertype_undivided {c : Char} (known : (lettertype c).isSome) : Cc2.delim c = false := by
  unfold lettertype at known
  split at known <;> first | rfl | cases known

theorem Printable.undivided {tp : Cc1.CType} (printable : Printable tp) :
    ∀ c ∈ Cc1.emitletter tp, Cc2.delim c = false := by
  have first : Cc2.delim (if tp.tellipsis then 'E' else tp.letter) = false := by
    split
    · rfl
    · rcases printable.letter with ⟨-, derived, -⟩ | known
      · have letters : ∀ c ∈ ['V', 'S', 'U'], Cc2.delim c = false :=
          undivided_of_all (by decide)
        exact letters _ derived
      · exact lettertype_undivided known
  intro c member
  unfold Cc1.emitletter at member
  rcases List.mem_cons.mp member with rfl | later
  · exact first
  · split at later
    all_goals first | exact decimal_undivided c later | cases later

theorem optbl_letter {c : Char} {tp : Cc2.CType} (known : lettertype c = some tp) :
    Cc2.optbl c = some (.type tp) := by
  unfold lettertype at known
  split at known <;> first | (cases known; rfl) | cases known

/-- The type of a token is the one printed. -/
theorem gettype_emitletter {tp : Cc1.CType} (printable : Printable tp) (s : Cc2.State)
    (space : s.stack.length < Cc2.STACKSIZ) :
    Cc2.gettype (Cc1.emitletter tp) s = .ok (received s.table tp) := by
  have room : s.stack.length ≠ Cc2.STACKSIZ := Nat.ne_of_lt space
  rcases printable.letter with ⟨derived, letter, plain⟩ | known
  · have number : Cc2.getsym (Cc1.decimal tp.id) = .ok tp.id := by
      have small := printable.id
      simp only [Cc2.getsym, atoi_decimal, Cc2.USHRT_MAX]
      exact if_neg (by omega)
    have text : Cc1.emitletter tp = tp.letter :: Cc1.decimal tp.id := by
      unfold Cc1.emitletter
      rcases derived with op | op | op <;> simp [op, plain]
    have composed : Cc2.optbl tp.letter = some .composed ∧ lettertype tp.letter = none := by
      simp only [List.mem_cons, List.not_mem_nil, or_false] at letter
      rcases letter with h | h | h <;> rw [h] <;> exact ⟨rfl, rfl⟩
    simp [text, Cc2.gettype, composed.1, composed.2, number, room, received, plain, bind,
      Except.bind]
  · obtain ⟨type, letter⟩ := Option.isSome_iff_exists.mp known
    unfold Cc1.emitletter Cc2.gettype received
    cases ellipsis : tp.tellipsis with
    | true => simp [Cc2.optbl, room]
    | false => simp [optbl_letter letter, letter, room]

/-! The tables of operators agree. -/

theorem unary_text {op : Cc1.Op} {op' : Cc2.Op} (known : unaryOp op = some op') :
    ∃ c, Cc1.optxt op = some [c] ∧ Cc2.optbl c = some (.unary op') ∧ Cc2.delim c = false := by
  cases op <;> cases known <;> exact ⟨_, rfl, rfl, rfl⟩

theorem binary_text {op : Cc1.Op} {op' : Cc2.Op} (known : binaryOp op = some op') :
    ∃ c, Cc1.optxt op = some [c] ∧ Cc2.optbl c = some (.binary op') ∧ Cc2.delim c = false := by
  cases op <;> cases known <;> exact ⟨_, rfl, rfl, rfl⟩

theorem call_text {op : Cc1.Op} {op' : Cc2.Op} (known : callOp op = some op') :
    ∃ c, Cc1.optxt op = some [c] ∧ Cc2.optbl c = some (.call op') ∧ Cc2.delim c = false := by
  cases op <;> cases known <;> exact ⟨_, rfl, rfl, rfl⟩

/-- The operator of a compound assignment stands between the colon and the type. -/
theorem assign_text {op : Cc1.Op} {u : Cc2.Payload} (known : assignOp op = some u) :
    (Cc1.optxt op = some [':'] ∧ u = .zero) ∨
      ∃ c op', Cc1.optxt op = some [':', c] ∧ Cc2.subop c = some op' ∧ u = .subop op' ∧
        Cc2.delim c = false := by
  cases op <;> cases known <;>
    first | exact .inl ⟨rfl, rfl⟩ | exact .inr ⟨_, _, rfl, rfl, rfl, rfl⟩

section
variable {op : Cc1.Op} {s : List Char} {nconst : Bool} {type : Cc1.CType}
  {sym : Option Cc1.Symbol} {left right : Cc1.Node}

theorem emitnode_operator (text : Cc1.optxt op = some s) :
    Cc1.emitnode (.mk op nconst type sym left right) = Cc1.emitnode left ++ Cc1.emitnode right ++
      '\t' :: (s ++ Cc1.emitletter type) := by
  cases op <;> first | (cases text; rfl) | cases text

theorem own_operator (text : Cc1.optxt op = some s) :
    own op nconst type sym = [s ++ Cc1.emitletter type] := by
  cases op <;> first | (cases text; rfl) | cases text

theorem optxt_undivided (text : Cc1.optxt op = some s) : Plain Cc2.delim s := by
  cases op <;> first
    | (cases text; exact ⟨List.cons_ne_nil _ _, undivided_of_all (by decide)⟩)
    | cases text

end

theorem emitted_text {role : Role} {np : Cc1.Node} (emitted : Emitted role np) :
    Cc1.emitnode np = (words np).flatMap fun word => '\t' :: word := by
  have operator : ∀ {op s nconst type sym left right}, Cc1.optxt op = some s →
      Cc1.emitnode left = (words left).flatMap (fun word => '\t' :: word) →
      Cc1.emitnode right = (words right).flatMap (fun word => '\t' :: word) →
      Cc1.emitnode (.mk op nconst type sym left right) =
        (words (.mk op nconst type sym left right)).flatMap fun word => '\t' :: word := by
    intro op s nconst type sym left right text one two
    simp [emitnode_operator text, words, own_operator text, one, two]
  induction emitted with
  | constant kind letter plain listed => simp [Cc1.emitnode, words, own, listed]
  | «variable» small listed => simp [Cc1.emitnode, words, own, listed]
  | void inner ih => simpa [Cc1.emitnode, words, own] using ih
  | cast castable inner ih => simp [Cc1.emitnode, words, own, castable.value, ih]
  | unary known printable inner ih =>
    obtain ⟨c, text, -⟩ := unary_text known
    exact operator text ih rfl
  | binary known printable one two ih₁ ih₂ =>
    obtain ⟨c, text, -⟩ := binary_text known
    exact operator text ih₁ ih₂
  | assign known printable one two ih₁ ih₂ =>
    rcases assign_text known with ⟨text, -⟩ | ⟨c, op', text, -⟩
    · exact operator text ih₁ ih₂
    · exact operator text ih₁ ih₂
  | ternary printable one two three ih₁ ih₂ ih₃ =>
    simp [Cc1.emitnode, words, own, Cc1.optxt, ih₁, ih₂, ih₃]
  | call known printable inner args ih₁ ih₂ =>
    obtain ⟨c, text, -⟩ := call_text known
    exact operator text ih₁ ih₂
  | builtin1 name printable inner ih => simp [Cc1.emitnode, words, own, ih]
  | builtin2 name printable one two ih₁ ih₂ => simp [Cc1.emitnode, words, own, ih₁, ih₂]
  | none => rfl
  | argument printable one two ih₁ ih₂ => exact operator (show Cc1.optxt .OPAR = some ['p'] from rfl) ih₁ ih₂

theorem builtin_name {name : List Char} {entry : Cc2.Builtin × Bool}
    (known : Cc2.builtins name = some entry) : ∀ c ∈ name, Cc2.delim c = false := by
  unfold Cc2.builtins at known
  split at known
  · rename_i same
    subst same
    exact undivided_of_all (by decide)
  · split at known
    · rename_i same
      subst same
      exact undivided_of_all (by decide)
    · split at known
      · rename_i same
        subst same
        exact undivided_of_all (by decide)
      · split at known
        · rename_i same
          subst same
          exact undivided_of_all (by decide)
        · cases known

theorem emitvar_plain (sym : Cc1.Symbol) : Plain Cc2.delim (Cc1.emitvar sym) where
  nonempty := List.cons_ne_nil _ _
  undivided c member := by
    unfold Cc1.emitvar at member
    rcases List.mem_cons.mp member with rfl | later
    · repeat' split
      all_goals rfl
    · exact decimal_undivided c later

theorem emitconst_plain {type : Cc1.CType} (letter : (lettertype type.letter).isSome)
    (sym : Cc1.Symbol) : Plain Cc2.delim (Cc1.emitconst type sym) where
  nonempty := List.cons_ne_nil _ _
  undivided c member := by
    unfold Cc1.emitconst at member
    rcases List.mem_cons.mp member with rfl | later
    · rfl
    · rcases List.mem_cons.mp later with rfl | digits
      · exact lettertype_undivided letter
      · exact hexadecimal_undivided c digits

theorem emitted_plain {role : Role} {np : Cc1.Node} (emitted : Emitted role np) :
    ∀ word ∈ words np, Plain Cc2.delim word := by
  have operator : ∀ {op s nconst type sym left right}, Cc1.optxt op = some s → Printable type →
      (∀ word ∈ words left, Plain Cc2.delim word) → (∀ word ∈ words right, Plain Cc2.delim word) →
      ∀ word ∈ words (.mk op nconst type sym left right), Plain Cc2.delim word := by
    intro op s nconst type sym left right text printable one two word member
    simp only [words, own_operator text, List.mem_append, List.mem_singleton] at member
    rcases member with (left | right) | rfl
    · exact one word left
    · exact two word right
    · exact plain_append (optxt_undivided text) printable.undivided
  have named : ∀ {nconst type sym entry left right}, Cc2.builtins sym.name.toList = some entry →
      Printable type →
      (∀ word ∈ words left, Plain Cc2.delim word) → (∀ word ∈ words right, Plain Cc2.delim word) →
      ∀ word ∈ words (.mk .OBUILTIN nconst type (some sym) left right), Plain Cc2.delim word := by
    intro nconst type sym entry left right name printable one two word member
    simp only [words, own, Option.map_some, Option.getD_some, List.mem_append, List.mem_cons,
      List.not_mem_nil, or_false] at member
    rcases member with (left | right) | rfl | rfl
    · exact one word left
    · exact two word right
    · exact plain_append ⟨List.cons_ne_nil '"' [], undivided_of_all (by decide)⟩ (builtin_name name)
    · exact plain_append ⟨List.cons_ne_nil 'm' [], undivided_of_all (by decide)⟩ printable.undivided
  induction emitted with
  | constant kind letter plain listed =>
    intro word member
    obtain rfl := List.mem_singleton.mp member
    exact emitconst_plain letter _
  | «variable» small listed =>
    intro word member
    obtain rfl := List.mem_singleton.mp member
    exact emitvar_plain _
  | void inner ih => simpa [words, own] using ih
  | cast castable inner ih =>
    intro word member
    simp only [words, own, if_neg castable.value, List.append_nil, List.mem_append,
      List.mem_singleton] at member
    rcases member with left | rfl
    · exact ih word left
    · have letter := lettertype_undivided castable.letter
      refine ⟨List.cons_ne_nil _ _, ?_⟩
      rintro c (_ | ⟨_, _ | ⟨_, ⟨⟩⟩⟩)
      · rfl
      · exact letter
  | unary known printable inner ih =>
    obtain ⟨c, text, -⟩ := unary_text known
    exact operator text printable ih nofun
  | binary known printable one two ih₁ ih₂ =>
    obtain ⟨c, text, -⟩ := binary_text known
    exact operator text printable ih₁ ih₂
  | assign known printable one two ih₁ ih₂ =>
    rcases assign_text known with ⟨text, -⟩ | ⟨c, op', text, -⟩
    · exact operator text printable ih₁ ih₂
    · exact operator text printable ih₁ ih₂
  | ternary printable one two three ih₁ ih₂ ih₃ =>
    refine operator (show Cc1.optxt .OASK = some ['?'] from rfl) printable ih₁ ?_
    intro word member
    simp only [words, own, Cc1.optxt, List.append_nil, List.mem_append] at member
    rcases member with left | right
    · exact ih₂ word left
    · exact ih₃ word right
  | call known printable inner args ih₁ ih₂ =>
    obtain ⟨c, text, -⟩ := call_text known
    exact operator text printable ih₁ ih₂
  | builtin1 name printable inner ih => exact named name printable ih nofun
  | builtin2 name printable one two ih₁ ih₂ => exact named name printable ih₁ ih₂
  | none => nofun
  | argument printable one two ih₁ ih₂ =>
    exact operator (show Cc1.optxt .OPAR = some ['p'] from rfl) printable ih₁ ih₂

/-- cc2 finds the tokens in the text of a tree. -/
theorem tokens_emitnode {np : Cc1.Node} (emitted : Emitted .expression np) :
    tokens Cc2.delim (Cc1.emitnode np) = words np := by
  rw [emitted_text emitted]
  exact tokens_flatMap rfl (emitted_plain emitted)

end Scc.Ir
