import Scc.Ir.Expressions

set_option linter.all false

/-! cc2 rebuilds the trees that cc1 prints: the tokens of a tree leave its image on the
stack, above what was there. -/
namespace Scc.Ir
open Text Cc2

/-! Handlers of single tokens. -/

section
variable {s : State} {stack : List Elem}

theorem push_eq (elem : Elem) (space : s.stack.length < STACKSIZ) :
    push elem s = .ok { s with stack := elem :: s.stack } :=
  if_neg (Nat.ne_of_lt space)

theorem popnode_eq (np : Node) (stack : List Elem) (s : State) :
    popnode { s with stack := .node np :: stack } = .ok (np, { s with stack := stack }) := rfl

theorem unary_eq {type : Cc1.CType} {left : Node} (op : Op) (printable : Printable type)
    (space : stack.length + 2 ≤ STACKSIZ) :
    Cc2.unary op (Cc1.emitletter type) { s with stack := .node left :: stack } =
      .ok { s with stack := .node (.mk op (received s.table type) .zero left .nil) :: stack } := by
  rw [Cc2.unary, gettype_emitletter printable _ (by simp only [List.length_cons]; omega)]
  exact push_eq (s := { s with stack := stack }) _ (by simp only; omega)

theorem cast_eq {type : Cc1.CType} {left : Node} (castable : Castable type)
    (space : stack.length + 2 ≤ STACKSIZ) :
    Cc2.unary .OCAST [type.letter] { s with stack := .node left :: stack } =
      .ok { s with stack := .node (.mk .OCAST (received s.table type) .zero left .nil) :: stack } := by
  obtain ⟨tp, known⟩ := Option.isSome_iff_exists.mp castable.letter
  have same : received s.table type = tp := by simp [received, castable.scalar, known]
  have room : stack.length + 1 ≠ STACKSIZ := by omega
  have typed : gettype [type.letter] { s with stack := .node left :: stack } = .ok tp := by
    simp [gettype, optbl_letter known, room]
  rw [Cc2.unary, typed, same]
  exact push_eq (s := { s with stack := stack }) _ (by simp only; omega)

theorem binary_eq {type : Cc1.CType} {left right : Node} (op : Op) (printable : Printable type)
    (space : stack.length + 3 ≤ STACKSIZ) :
    Cc2.binary op (Cc1.emitletter type) { s with stack := .node right :: .node left :: stack } =
      .ok { s with stack := .node (.mk op (received s.table type) .zero left right) :: stack } := by
  rw [Cc2.binary, gettype_emitletter printable _ (by simp only [List.length_cons]; omega)]
  exact push_eq (s := { s with stack := stack }) _ (by simp only; omega)

theorem ternary_eq {type : Cc1.CType} {left yes other : Node} (printable : Printable type)
    (space : stack.length + 4 ≤ STACKSIZ) :
    Cc2.ternary (Cc1.emitletter type)
        { s with stack := .node other :: .node yes :: .node left :: stack } =
      .ok { s with stack := .node (.mk .OASK (received s.table type) .zero left
        (.mk .OCOLON zerotype .zero yes other)) :: stack } := by
  rw [Cc2.ternary, gettype_emitletter printable _ (by simp only [List.length_cons]; omega)]
  exact push_eq (s := { s with stack := stack }) _ (by simp only; omega)

/-- A type does not begin like the operator of a compound assignment. -/
theorem subop_emitletter {type : Cc1.CType} (printable : Printable type) :
    ∃ c text, Cc1.emitletter type = c :: text ∧ subop c = none := by
  refine ⟨_, _, rfl, ?_⟩
  split
  · rfl
  · rcases printable.letter with ⟨-, derived, -⟩ | known
    · have letters : ∀ c ∈ ['V', 'S', 'U'], subop c = none := by simp [subop]
      exact letters _ derived
    · unfold lettertype at known
      split at known <;> first | (rename_i letter; rw [letter]; rfl) | cases known

theorem assign_eq {type : Cc1.CType} {op : Cc1.Op} {u : Payload} {left right : Node}
    (known : assignOp op = some u) (printable : Printable type)
    (space : stack.length + 3 ≤ STACKSIZ) :
    ∃ text, Cc1.optxt op = some (':' :: text) ∧
      Cc2.assign (text ++ Cc1.emitletter type)
          { s with stack := .node right :: .node left :: stack } =
        .ok { s with stack := .node (.mk .OASSIG (received s.table type) u left right) :: stack } := by
  have typed := gettype_emitletter printable
    { s with stack := .node right :: .node left :: stack } (by simp only [List.length_cons]; omega)
  have pushed : ∀ u, push (.node (.mk .OASSIG (received s.table type) u left right))
      { s with stack := stack } = .ok _ := fun u => push_eq _ (by simp only; omega)
  rcases assign_text known with ⟨text, rfl⟩ | ⟨c, op', text, operator, rfl, -⟩
  · obtain ⟨c, tail, shape, other⟩ := subop_emitletter printable
    refine ⟨[], text, ?_⟩
    rw [List.nil_append, shape]
    rw [shape] at typed
    simp only [Cc2.assign, other, typed]
    exact pushed _
  · refine ⟨[c], text, ?_⟩
    simp only [List.cons_append, List.nil_append, Cc2.assign, operator, typed]
    exact pushed _

/-! Leaves. -/

theorem hexValues (digits : List Char) (v : Nat) :
    digits.foldl (fun (v : BitVec 64) c => (v <<< 4) + .ofNat 64 (hexValue c)) (.ofNat 64 v) =
      .ofNat 64 (digits.foldl (fun v c => v * 16 + hexValue c) v) := by
  induction digits generalizing v with
  | nil => rfl
  | cons c digits ih =>
    have step : (BitVec.ofNat 64 v <<< 4) + .ofNat 64 (hexValue c) =
        .ofNat 64 (v * 16 + hexValue c) := by
      apply BitVec.eq_of_toNat_eq
      simp [Nat.shiftLeft_eq]
    rw [List.foldl_cons, List.foldl_cons, step, ih]

/-- A constant is read back from its digits. -/
theorem hexadecimal_value (u : BitVec 64) :
    (Cc1.hexadecimal u.toNat).foldl
      (fun (v : BitVec 64) c => (v <<< 4) + .ofNat 64 (hexValue c)) 0 = u := by
  have digits : ∀ d < 16, hexValue (Cc1.hexDigit d) = d := by decide
  have value := readDigits_numeral (by decide) digits u.toNat
  rw [readDigits] at value
  rw [show (0 : BitVec 64) = .ofNat 64 0 from rfl, hexValues, Cc1.hexadecimal, value,
    BitVec.ofNat_toNat, BitVec.setWidth_eq]

theorem constant_eq {type : Cc1.CType} (letter : (lettertype type.letter).isSome)
    (plain : type.tellipsis = false) (u : BitVec 64) (space : s.stack.length < STACKSIZ) :
    Cc2.constant (type.letter :: Cc1.hexadecimal u.toNat) s =
      .ok { s with stack := .node (.mk .OCONST (received s.table type) (.i u) .nil .nil) :: s.stack } := by
  obtain ⟨tp, known⟩ := Option.isSome_iff_exists.mp letter
  have typed : gettype (type.letter :: Cc1.hexadecimal u.toNat) s = .ok tp := by
    simp [gettype, optbl_letter known, Nat.ne_of_lt space]
  have same : received s.table type = tp := by simp [received, plain, known]
  have number : type.letter ≠ '"' := by
    intro quote
    rw [quote] at known
    cases known
  unfold Cc2.constant
  split
  · next text start => exact absurd (List.cons.inj start).1 number
  rw [typed]
  simp only [bind, Except.bind, List.tail_cons, hexadecimal_value, same]
  exact push_eq _ space

theorem emitvar_text (sym : Cc1.Symbol) :
    ∃ c, Cc1.emitvar sym = c :: Cc1.decimal sym.id ∧ optbl c = some (.symbol (variableOp sym)) := by
  refine ⟨_, rfl, ?_⟩
  unfold variableOp
  cases sym.slocal <;> cases sym.sprivate <;> cases sym.sglobal <;> cases sym.sregister <;>
    cases sym.sfield <;> cases sym.sextern <;> rfl

theorem variable_eq {id : Nat} (op : Op) (small : id < USHRT_MAX)
    (space : s.stack.length < STACKSIZ) :
    parseToken (.symbol op) (Cc1.decimal id) s =
      .ok { s with stack := .node (.mk op (s.table id) (.sym (.named id)) .nil .nil) :: s.stack } := by
  have number : getsym (Cc1.decimal id) = .ok id := by
    simp [getsym, atoi_decimal, Nat.not_le.mpr small]
  simp only [parseToken, number]
  exact push_eq _ space

/-! Calls. -/

/-- The elements that the tokens of a chain of arguments leave on the stack. -/
def argumentElems (table : Nat → CType) : Cc1.Node → List Elem
  | .mk .OPAR _ type _ left right =>
    .node (.mk .OPAR (received table type) .zero (image table right) .nil) ::
      argumentElems table left
  | _ => []

theorem length_argumentElems (table : Nat → CType) {args : Cc1.Node}
    (emitted : Emitted .arguments args) :
    (argumentElems table (unvoid args)).length = count args := by
  generalize role : Role.arguments = r at emitted
  induction emitted with
  | none => rfl
  | argument printable one two ih₁ ih₂ => simp [unvoid, argumentElems, count, ih₁ rfl]
  | _ => cases role

theorem popargs_eq (table : Nat → CType) {args : Cc1.Node} (emitted : Emitted .arguments args)
    {f : Node} (function : ∀ type u left right, f ≠ .mk .OPAR type u left right)
    (stack : List Elem) (par : Node) :
    popargs (argumentElems table (unvoid args) ++ .node f :: stack) par =
      .ok (f, arguments table (unvoid args) par, stack) := by
  generalize role : Role.arguments = r at emitted
  induction emitted generalizing par with
  | none =>
    cases f with
    | nil => rfl
    | mk op type u left right =>
      have other : op ≠ .OPAR := fun same => function type u left right (same ▸ rfl)
      cases op <;> first | rfl | exact absurd rfl other
  | argument printable one two ih₁ ih₂ =>
    simp [unvoid, argumentElems, popargs, arguments, ih₁ _ rfl]
  | _ => cases role

/-- The image of an expression is no argument. -/
theorem image_not_argument (table : Nat → CType) {np : Cc1.Node}
    (emitted : Emitted .expression np) :
    ∀ type u left right, image table (unvoid np) ≠ .mk .OPAR type u left right := by
  generalize role : Role.expression = r at emitted
  intro type u left right
  induction emitted with
  | constant => simp [unvoid, image]
  | @«variable» _ sym =>
    have other : variableOp sym ≠ .OPAR := by
      unfold variableOp
      repeat' split
      all_goals decide
    simp [unvoid, image, other]
  | void inner ih => simpa [unvoid] using ih rfl
  | cast castable => simp [unvoid, image, castable.value]
  | @unary op _ _ _ _ _ known => cases op <;> cases known <;> simp [unvoid, image, unaryOp]
  | @binary op _ _ _ _ _ _ known =>
    cases op <;> cases known <;> simp [unvoid, image, unaryOp, binaryOp]
  | @assign op _ _ _ _ _ _ known =>
    cases op <;> cases known <;> simp [unvoid, image, unaryOp, binaryOp, assignOp]
  | ternary => simp [unvoid, image]
  | @call op _ _ _ _ _ _ known => cases op <;> cases known <;> simp [unvoid, image]
  | builtin1 name => simp [unvoid, image, name]
  | builtin2 name => simp [unvoid, image, name]
  | none | argument => cases role

theorem call_eq {type : Cc1.CType} {args : Cc1.Node} {f : Node} (op : Op)
    (printable : Printable type) (emitted : Emitted .arguments args)
    (function : ∀ type u left right, f ≠ .mk .OPAR type u left right)
    (space : stack.length < STACKSIZ) :
    Cc2.call op (Cc1.emitletter type)
        { s with stack := argumentElems s.table (unvoid args) ++ .node f :: stack } =
      .ok { s with stack := .node (.mk op (received s.table type) .zero f
        (arguments s.table (unvoid args) .nil)) :: stack } := by
  simp only [Cc2.call, popargs_eq s.table emitted function, bind, Except.bind]
  rw [gettype_emitletter printable _ space]
  exact push_eq (s := { s with stack := stack }) _ space

theorem getname_eq (name : List Char) (space : s.stack.length < STACKSIZ) :
    parseToken .getname name s = .ok { s with stack := .name name :: s.stack } :=
  push_eq _ space

theorem builtin1_eq {type : Cc1.CType} {name : List Char} {b : Builtin} {left : Node}
    (known : builtins name = some (b, false)) (printable : Printable type)
    (space : stack.length + 3 ≤ STACKSIZ) :
    Cc2.builtin (Cc1.emitletter type) { s with stack := .name name :: .node left :: stack } =
      .ok { s with stack := .node (.mk .OBUILTIN (received s.table type) (.builtin b) left .nil)
        :: stack } := by
  rw [Cc2.builtin, gettype_emitletter printable _ (by simp only [List.length_cons]; omega)]
  simp only [bind, Except.bind, pop, known]
  exact push_eq (s := { s with stack := stack }) _ (by simp only; omega)

theorem builtin2_eq {type : Cc1.CType} {name : List Char} {b : Builtin} {left right : Node}
    (known : builtins name = some (b, true)) (printable : Printable type)
    (space : stack.length + 4 ≤ STACKSIZ) :
    Cc2.builtin (Cc1.emitletter type)
        { s with stack := .name name :: .node right :: .node left :: stack } =
      .ok { s with stack := .node (.mk .OBUILTIN (received s.table type) (.builtin b) left right)
        :: stack } := by
  rw [Cc2.builtin, gettype_emitletter printable _ (by simp only [List.length_cons]; omega)]
  simp only [bind, Except.bind, pop, known]
  exact push_eq (s := { s with stack := stack }) _ (by simp only; omega)

end

/-! Whole trees. -/

/-- The tokens that are handled without reading further ones. -/
def alone : Parse → Bool
  | .jump _ | .oreturn | .bswitch => false
  | _ => true

theorem eval_token {c : Char} {text : List Char} {p : Parse} {s s' : State}
    (rest : List Token) (row : optbl c = some p) (single : alone p = true)
    (parsed : parseToken p text s = .ok s') : eval ((c :: text) :: rest) s = eval rest s' := by
  simp only [eval, row]
  cases p <;> first | (simp only [parsed]; rfl) | cases single

/-- What the tokens leave on the stack. -/
def elems (table : Nat → CType) (role : Role) (np : Cc1.Node) : List Elem :=
  match role with
  | .expression => [.node (image table (unvoid np))]
  | .arguments => argumentElems table (unvoid np)

theorem emitted_present {np : Cc1.Node} (emitted : Emitted .expression np) : np ≠ .nil := by
  rintro rfl
  cases emitted

section
variable {op : Cc1.Op} {nconst : Bool} {type : Cc1.CType} {sym : Option Cc1.Symbol}
  {left right : Cc1.Node}

theorem unary_shape {op' : Op} (known : unaryOp op = some op') :
    slots (.mk op nconst type sym left .nil) = max (slots left) 2 ∧
      ∀ table, image table (unvoid (.mk op nconst type sym left .nil)) =
        .mk op' (received table type) .zero (image table (unvoid left)) .nil := by
  cases op <;> cases known <;> simp [slots, unvoid, image, unaryOp]

theorem binary_shape {op' : Op} (known : binaryOp op = some op') (present : right ≠ .nil) :
    slots (.mk op nconst type sym left right) = max (slots left) (max (1 + slots right) 3) ∧
      ∀ table, image table (unvoid (.mk op nconst type sym left right)) =
        .mk op' (received table type) .zero (image table (unvoid left))
          (image table (unvoid right)) := by
  cases op <;> cases known <;> simp [slots, unvoid, image, unaryOp, binaryOp, present]

theorem assign_shape {u : Payload} (known : assignOp op = some u) (present : right ≠ .nil) :
    slots (.mk op nconst type sym left right) = max (slots left) (max (1 + slots right) 3) ∧
      ∀ table, image table (unvoid (.mk op nconst type sym left right)) =
        .mk .OASSIG (received table type) u (image table (unvoid left))
          (image table (unvoid right)) := by
  cases op <;> cases known <;> simp [slots, unvoid, image, unaryOp, binaryOp, assignOp, present]

theorem call_shape {op' : Op} (known : callOp op = some op') :
    slots (.mk op nconst type sym left right) = max (slots left) (1 + slots right) ∧
      ∀ table, image table (unvoid (.mk op nconst type sym left right)) =
        .mk op' (received table type) .zero (image table (unvoid left))
          (arguments table (unvoid right) .nil) := by
  cases op <;> cases known <;> simp [slots, unvoid, image]

end

theorem length_expression (table : Nat → CType) (np : Cc1.Node) (stack : List Elem) :
    (elems table .expression np ++ stack).length = stack.length + 1 := by
  simp [elems]

theorem length_arguments (table : Nat → CType) {args : Cc1.Node}
    (emitted : Emitted .arguments args) (stack : List Elem) :
    (elems table .arguments args ++ stack).length = count args + stack.length := by
  simp [elems, length_argumentElems table emitted]

/-- The tokens of a tree are evaluated to its image, those of a chain of arguments to the
arguments, wherever they fit on the stack. -/
theorem eval_words {role : Role} {np : Cc1.Node} (emitted : Emitted role np) (s : State)
    (declared : Declared s.table np) (stack : List Elem) (rest : List Token)
    (space : stack.length + slots np ≤ STACKSIZ) :
    eval (words np ++ rest) { s with stack := stack } =
      eval rest { s with stack := elems s.table role np ++ stack } := by
  induction emitted generalizing stack rest with
  | @constant type sym kind letter plain listed =>
    exact eval_token rest rfl rfl (constant_eq letter plain _ space)
  | @«variable» type sym small listed =>
    obtain ⟨c, text, row⟩ := emitvar_text sym
    have typed : s.table sym.id = variableType s.table sym type := declared.1 rfl rfl sym rfl
    have handled := variable_eq (s := { s with stack := stack }) (variableOp sym) small space
    simp only [typed] at handled
    simp only [words, own, text, List.nil_append, List.singleton_append, Bool.false_eq_true, if_false]
    exact eval_token rest row rfl handled
  | @void nconst sym left inner ih =>
    have size : slots (.mk .OCAST nconst Cc1.voidtype sym left .nil) = slots left := by
      simp [slots]
    simp only [words, own, if_true, List.append_nil]
    exact ih declared.2.1 stack rest (size ▸ space)
  | @cast nconst type sym left castable inner ih =>
    have size : slots (.mk .OCAST nconst type sym left .nil) = max (slots left) 2 :=
      if_neg castable.value
    have tree : image s.table (unvoid (.mk .OCAST nconst type sym left .nil)) =
        .mk .OCAST (received s.table type) .zero (image s.table (unvoid left)) .nil := by
      simp [unvoid, image, castable.value]
    rw [size] at space
    simp only [words, own, if_neg castable.value, List.append_nil, List.append_assoc]
    rw [ih declared.2.1 stack _ (by omega)]
    simp only [elems, tree, List.cons_append, List.nil_append]
    exact eval_token rest rfl rfl (cast_eq castable (by omega))
  | @unary op op' nconst type sym left known printable inner ih =>
    obtain ⟨c, text, row, -⟩ := unary_text known
    obtain ⟨size, tree⟩ := @unary_shape op nconst type sym left op' known
    rw [size] at space
    simp only [words, own_operator text, List.append_nil, List.append_assoc]
    rw [ih declared.2.1 stack _ (by omega)]
    simp only [elems, tree, List.cons_append, List.nil_append]
    exact eval_token rest row rfl (unary_eq op' printable (by omega))
  | @binary op op' nconst type sym left right known printable one two ih₁ ih₂ =>
    obtain ⟨c, text, row, -⟩ := binary_text known
    obtain ⟨size, tree⟩ := @binary_shape op nconst type sym left right op' known (emitted_present two)
    rw [size] at space
    simp only [words, own_operator text, List.append_assoc]
    rw [ih₁ declared.2.1 stack _ (by omega),
      ih₂ declared.2.2 _ _ (by rw [length_expression]; omega), elems]
    simp only [elems, tree, List.cons_append, List.nil_append]
    exact eval_token rest row rfl (binary_eq op' printable (by omega))
  | @assign op u nconst type sym left right known printable one two ih₁ ih₂ =>
    obtain ⟨size, tree⟩ := @assign_shape op nconst type sym left right u known (emitted_present two)
    rw [size] at space
    obtain ⟨tail, text, handled⟩ := @assign_eq s stack type op u (image s.table (unvoid left))
      (image s.table (unvoid right)) known printable (by omega)
    simp only [words, own_operator text, List.append_assoc]
    rw [ih₁ declared.2.1 stack _ (by omega),
      ih₂ declared.2.2 _ _ (by rw [length_expression]; omega), elems]
    simp only [elems, tree, List.cons_append, List.nil_append]
    exact eval_token rest rfl rfl handled
  | @ternary nconst nconst' type type' sym sym' left yes other printable one two three ih₁ ih₂ ih₃ =>
    have size : slots (.mk .OASK nconst type sym left (.mk .OCOLON nconst' type' sym' yes other)) =
        max (slots left) (max (1 + max (slots yes) (1 + slots other)) 4) := rfl
    rw [size] at space
    simp only [words, own, Cc1.optxt, List.append_nil, List.append_assoc]
    rw [ih₁ declared.2.1 stack _ (by omega),
      ih₂ declared.2.2.2.1 _ _ (by rw [length_expression]; omega),
      ih₃ declared.2.2.2.2 _ _ (by rw [length_expression, length_expression]; omega)]
    simp only [elems, List.cons_append, List.nil_append]
    exact eval_token rest rfl rfl (ternary_eq printable (by omega))
  | @call op op' nconst type sym left args known printable inner chain ih₁ ih₂ =>
    obtain ⟨c, text, row, -⟩ := call_text known
    obtain ⟨size, tree⟩ := @call_shape op nconst type sym left args op' known
    rw [size] at space
    simp only [words, own_operator text, List.append_assoc]
    rw [ih₁ declared.2.1 stack _ (by omega),
      ih₂ declared.2.2 _ _ (by rw [length_expression]; omega), elems]
    simp only [elems, tree, List.cons_append, List.nil_append]
    exact eval_token rest row rfl
      (call_eq op' printable chain (image_not_argument s.table inner) (by omega))
  | @builtin1 nconst type sym subop left name printable inner ih =>
    have size : slots (.mk .OBUILTIN nconst type (some sym) left .nil) = max (slots left) 3 := rfl
    have tree : image s.table (unvoid (.mk .OBUILTIN nconst type (some sym) left .nil)) =
        .mk .OBUILTIN (received s.table type) (.builtin subop) (image s.table (unvoid left)) .nil := by
      simp [unvoid, image, name]
    rw [size] at space
    simp only [words, own, List.append_nil, List.append_assoc]
    rw [ih declared.2.1 stack _ (by omega)]
    simp only [elems, tree, List.cons_append, List.nil_append]
    exact (eval_token _ rfl rfl (getname_eq _ (by simp only [List.length_cons]; omega))).trans
      (eval_token rest rfl rfl (builtin1_eq name printable (by omega)))
  | @builtin2 nconst type sym subop left right name printable one two ih₁ ih₂ =>
    have size : slots (.mk .OBUILTIN nconst type (some sym) left right) =
        max (slots left) (max (1 + slots right) 4) := by
      simp [slots, emitted_present two]
    have tree : image s.table (unvoid (.mk .OBUILTIN nconst type (some sym) left right)) =
        .mk .OBUILTIN (received s.table type) (.builtin subop) (image s.table (unvoid left))
          (image s.table (unvoid right)) := by
      simp [unvoid, image, name]
    rw [size] at space
    simp only [words, own, List.append_assoc]
    rw [ih₁ declared.2.1 stack _ (by omega),
      ih₂ declared.2.2 _ _ (by rw [length_expression]; omega), elems]
    simp only [elems, tree, List.cons_append, List.nil_append]
    exact (eval_token _ rfl rfl (getname_eq _ (by simp only [List.length_cons]; omega))).trans
      (eval_token rest rfl rfl (builtin2_eq name printable (by omega)))
  | none => rfl
  | @argument nconst type sym left right printable one two ih₁ ih₂ =>
    have size : slots (.mk .OPAR nconst type sym left right) =
        max (slots left) (count left + max (slots right) 2) := rfl
    have length := length_arguments s.table one stack
    rw [size] at space
    simp only [words, own, Cc1.optxt, List.append_assoc]
    rw [ih₁ declared.2.1 stack _ (by omega), ih₂ declared.2.2 _ _ (by omega)]
    simp only [elems, List.cons_append, List.nil_append] at length ⊢
    exact eval_token rest rfl rfl (unary_eq .OPAR printable (by omega))

/-- A parser at the start of a line, with these types in its symbol table. -/
def ready (table : Nat → CType) : State := ⟨[], table, [], none, [], 0, false, false, []⟩

def external (id : Nat) : Cc1.Symbol :=
  ⟨id, "", false, false, false, false, false, true, false, 0⟩

def fun1 : Cc1.CType := ⟨.FTN, 'F', 7, 0, 0, false, false, false, false, false⟩

/-- `x2 = f1(10, x2)` -/
def callTree : Cc1.Node :=
  let x := .mk .OSYM false Cc1.inttype (some (external 2)) .nil .nil
  Cc1.node .OASSIGN Cc1.inttype x
    (Cc1.node .OCALL Cc1.inttype (.mk .OSYM false fun1 (some (external 1)) .nil .nil)
      (Cc1.node .OPAR Cc1.inttype
        (Cc1.node .OPAR Cc1.inttype .nil (Cc1.constnode Cc1.inttype 10)) x))

/-- `(void) 5` -/
def voidTree : Cc1.Node :=
  Cc1.node .OCAST Cc1.voidtype (Cc1.constnode Cc1.inttype 5) .nil

end Scc.Ir
