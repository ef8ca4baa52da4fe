import Scc.Cc1.Numbers
import Mathlib.Algebra.Order.Group.Nat
import Mathlib.Data.Nat.Basic

set_option linter.all false

/-! The type and the value of an integer constant against the list of types of the language. -/
namespace Scc.Cc1.Numbers
open Text

/-- A condition on every character of a list is decided by the list. -/
local instance (priority := 2000) decidableAll (p : Char → Prop) [DecidablePred p] (l : List Char) :
    Decidable (∀ c ∈ l, p c) := List.decidableBAll p l

/-- The types that `readint` tries one after the other. -/
def chain (base : Nat) (sign : Bool) (tp : CType) : List CType :=
  tp ::
    match _wider : widen base sign tp with
    | none => []
    | some tp => chain base sign tp
termination_by narrow tp
decreasing_by exact widen_narrow _wider

section
variable {base u v w : Nat} {sign : Bool} {tp tp' : CType} {types : List CType}

theorem chain_eq (base : Nat) (sign : Bool) (tp : CType) :
    chain base sign tp = tp :: ((widen base sign tp).map (chain base sign)).getD [] := by
  rw [chain]
  split <;> simp [*]

theorem room_iff {max : Nat} (positive : 0 < base) (small : v ≤ max) :
    u ≤ max / base ∧ u * base ≤ max - v ↔ u * base + v ≤ max := by
  rw [Nat.le_div_iff_mul_le positive]
  omega

/-- The first type that holds a value begins what is left of the types when the smaller ones are gone. -/
def left (v : Nat) (types : List CType) : List CType := types.dropWhile fun tp => maxLimit tp < v

theorem head_left (v : Nat) (types : List CType) : (left v types).head? = types.find? fun tp => v ≤ maxLimit tp := by
  induction types with
  | nil => rfl
  | cons tp types ih =>
    by_cases small : maxLimit tp < v
    · rw [left, List.dropWhile_cons_of_pos (by simpa using small), List.find?_cons_of_neg (by simpa using small)]
      exact ih
    · rw [left, List.dropWhile_cons_of_neg (by simpa using small), List.find?_cons_of_pos (by simpa using small)]
      rfl

/-- A type that does not hold a value does not hold a greater one. -/
theorem left_left (grows : u ≤ v) (types : List CType) : left v (left u types) = left v types := by
  induction types with
  | nil => rfl
  | cons tp types ih =>
    by_cases small : maxLimit tp < u
    · have small' : maxLimit tp < v := Nat.lt_of_lt_of_le small grows
      simpa [left, small, small'] using ih
    · simp [left, small]

/-- `settle` goes on to the first type that has room. -/
theorem settle_chain (positive : 0 < base) (wide : ∀ t ∈ chain base sign tp, v ≤ maxLimit t) :
    settle base sign u v tp = (left (u * base + v) (chain base sign tp)).head? ∧
      ∀ tp', settle base sign u v tp = some tp' → chain base sign tp' = left (u * base + v) (chain base sign tp) := by
  induction tp using settle.induct base sign u v with
  | case1 tp max room =>
    have holds : u * base + v ≤ maxLimit tp := (room_iff positive (wide tp (by simp [chain_eq]))).mp room
    have stays : left (u * base + v) (chain base sign tp) = chain base sign tp := by
      rw [left, chain_eq, List.dropWhile_cons_of_neg (by simpa using holds)]
    rw [settle, if_pos room, stays]
    refine ⟨by simp [chain_eq], fun tp' same => ?_⟩
    cases same
    rfl
  | case2 tp max room last =>
    have types : chain base sign tp = [tp] := by rw [chain_eq, last]; rfl
    have small : maxLimit tp < u * base + v :=
      Nat.lt_of_not_le fun holds => room ((room_iff positive (wide tp (by simp [types]))).mpr holds)
    have none_ : settle base sign u v tp = none := by
      rw [settle, if_neg room]
      split <;> simp_all
    rw [none_, types, left, List.dropWhile_cons_of_pos (by simpa using small)]
    exact ⟨rfl, nofun⟩
  | case3 tp max room tp' wider ih =>
    have types : chain base sign tp = tp :: chain base sign tp' := by rw [chain_eq, wider]; rfl
    have small : maxLimit tp < u * base + v :=
      Nat.lt_of_not_le fun holds => room ((room_iff positive (wide tp (by simp [types]))).mpr holds)
    have next : settle base sign u v tp = settle base sign u v tp' := by
      rw [settle, if_neg room]
      split <;> simp_all
    rw [types] at wide
    rw [next, types, left, List.dropWhile_cons_of_pos (by simpa using small)]
    exact ih fun t mem => wide t (List.mem_cons_of_mem tp mem)

theorem val_le (c : Char) (digit : isxdigit c = true) : val c ≤ 15 := by
  have each : ∀ c ∈ letters ++ ['a', 'b', 'c', 'd', 'e', 'f'], val c ≤ 15 := by decide
  exact each c (of_decide_eq_true digit)

theorem foldl_grows (positive : 0 < base) (ds : List Char) (u : Nat) :
    u ≤ ds.foldl (fun u c => u * base + val c) u := by
  induction ds generalizing u with
  | nil => exact Nat.le_refl u
  | cons c ds ih =>
    exact Nat.le_trans (Nat.le_add_right_of_le (Nat.le_mul_of_pos_right u positive)) (ih (u * base + val c))

/-- The loop over the digits: it ends in the first of the types that holds the value. -/
theorem digitLoop_spec {ds rest : List Char} (positive : 0 < base) (digits : ∀ c ∈ ds, isxdigit c = true)
    (ends : ∀ c ∈ rest.head?, isxdigit c = false) (wide : ∀ t ∈ types, 15 ≤ maxLimit t ∧ maxLimit t < 2 ^ 64)
    (from_ : chain base sign tp = left u types) :
    digitLoop base sign (ds ++ rest) tp u =
      match types.find? fun tp => ds.foldl (fun u c => u * base + val c) u ≤ maxLimit tp with
      | none => .error "overflow in integer constant"
      | some tp => .ok ⟨tp, BitVec.ofNat 64 (ds.foldl (fun u c => u * base + val c) u)⟩ := by
  induction ds generalizing tp u with
  | nil =>
    have found : types.find? (fun tp => u ≤ maxLimit tp) = some tp := by
      rw [← head_left, ← from_, chain_eq]
      rfl
    rw [List.foldl_nil, found]
    cases rest with
    | nil => rfl
    | cons c rest => exact if_neg (by simp [ends c rfl])
  | cons c ds ih =>
    have grows : u ≤ u * base + val c := Nat.le_add_right_of_le (Nat.le_mul_of_pos_right u positive)
    have held : ∀ t ∈ chain base sign tp, val c ≤ maxLimit t := fun t mem =>
      Nat.le_trans (val_le c (digits c List.mem_cons_self))
        (wide t ((List.dropWhile_sublist _).subset (from_ ▸ mem))).1
    obtain ⟨settled, stays⟩ := settle_chain positive held
    rw [from_, left_left grows] at settled stays
    rw [List.cons_append, digitLoop, if_pos (digits c List.mem_cons_self), List.foldl_cons]
    cases next : settle base sign u (val c) tp with
    | none =>
      -- A type that is too small for the digits so far is too small for all of them.
      have none_ : types.find? (fun tp => ds.foldl (fun u c => u * base + val c) (u * base + val c) ≤ maxLimit tp) = none := by
        rw [← head_left, ← left_left (foldl_grows positive ds _), List.head?_eq_none_iff.mp (settled.symm.trans next)]
        rfl
      rw [none_]
    | some tp' =>
      have first := settled.symm.trans next
      rw [head_left] at first
      have holds : u * base + val c ≤ maxLimit tp' := by simpa using List.find?_some first
      have bound := (wide tp' (List.mem_of_find?_eq_some first)).2
      show digitLoop base sign (ds ++ rest) tp' ((u * base + val c) % 2 ^ 64) = _
      rw [Nat.mod_eq_of_lt (by omega)]
      exact ih (fun c mem => digits c (List.mem_cons_of_mem _ mem)) (stays tp' next)

end

/-! The constants of the language. -/

/-- A prefix and the digits of a constant. -/
inductive Spelled : Nat → List Char → List Char → Prop
  | decimal {c : Char} {ds : List Char} (digits : ∀ d ∈ c :: ds, d ∈ decimals) (first : c ≠ '0') :
    Spelled 10 [] (c :: ds)
  | octal {ds : List Char} (digits : ∀ c ∈ ds, c ∈ octals) : Spelled 8 ['0'] ds
  | hexadecimal {x : Char} {ds : List Char} (letter : x ∈ ['x', 'X']) (digits : ∀ c ∈ ds, isxdigit c = true)
    (some_ : ds ≠ []) : Spelled 16 ['0', x] ds

def unsignedSuffix : Bool → List (List Char)
  | false => [[]]
  | true => [['u'], ['U']]

def longSuffix : Size → List (List Char)
  | .INT => [[]]
  | .LONG => [['l'], ['L']]
  | .LLONG => [['l', 'l'], ['L', 'L']]

/-- The two parts of a suffix stand in any order. -/
def Suffix (sign : Bool) (size : Size) (sfx : List Char) : Prop :=
  ∃ us ∈ unsignedSuffix sign, ∃ ls ∈ longSuffix size, sfx = us ++ ls ∨ sfx = ls ++ us

/-- What follows does not begin with a character that a constant can have. -/
def Ends (rest : List Char) : Prop := ∀ c ∈ rest.head?, c.toUpper ∉ letters ++ ['L', 'U', 'X']

/-- The types of which a constant has the first one that can represent its value. -/
def listed (base : Nat) (sign : Bool) : Size → List CType
  | .INT =>
    if sign then [uinttype, ulongtype, ullongtype]
    else if base = 10 then [inttype, longtype, llongtype]
    else [inttype, uinttype, longtype, ulongtype, llongtype, ullongtype]
  | .LONG =>
    if sign then [ulongtype, ullongtype]
    else if base = 10 then [longtype, llongtype]
    else [longtype, ulongtype, llongtype, ullongtype]
  | .LLONG =>
    if sign then [ullongtype]
    else if base = 10 then [llongtype]
    else [llongtype, ullongtype]

/-- The constant of a value, where one of the types can represent it. -/
def constant (types : List CType) (v : Nat) : Except String Constant :=
  match types.find? fun tp => v ≤ maxLimit tp with
  | none => .error "overflow in integer constant"
  | some tp => .ok ⟨tp, BitVec.ofNat 64 v⟩

section
variable {base v : Nat} {sign : Bool} {size : Size} {front ds sfx rest : List Char}

theorem Spelled.positive (spelled : Spelled base front ds) : 0 < base := by
  cases spelled <;> decide

theorem Spelled.digits (spelled : Spelled base front ds) : ∀ c ∈ ds, isdigit base c = true := by
  cases spelled with
  | decimal digits _ => exact fun c mem => decide_eq_true (digits c mem)
  | octal digits => exact fun c mem => decide_eq_true (digits c mem)
  | hexadecimal _ digits _ => exact digits

theorem isdigit_isxdigit {c : Char} (digit : isdigit base c = true) : isxdigit c = true := by
  unfold isdigit at digit
  split at digit
  · have each : ∀ c ∈ octals, isxdigit c = true := by decide
    exact each c (of_decide_eq_true digit)
  · split at digit
    · have each : ∀ c ∈ decimals, isxdigit c = true := by decide
      exact each c (of_decide_eq_true digit)
    · exact digit

theorem isxdigit_letter {c : Char} (digit : isxdigit c = true) : c.toUpper ∈ letters := by
  have each : ∀ c ∈ letters ++ ['a', 'b', 'c', 'd', 'e', 'f'], c.toUpper ∈ letters := by decide
  exact each c (of_decide_eq_true digit)

theorem Suffix.letters (suffixed : Suffix sign size sfx) : ∀ c ∈ sfx, c ∈ ['u', 'U', 'l', 'L'] := by
  obtain ⟨us, unsigned, ls, long, same⟩ := suffixed
  have first : ∀ us ∈ unsignedSuffix sign, ∀ c ∈ us, c ∈ ['u', 'U', 'l', 'L'] := by
    cases sign <;> decide
  have second : ∀ ls ∈ longSuffix size, ∀ c ∈ ls, c ∈ ['u', 'U', 'l', 'L'] := by
    cases size <;> decide
  intro c mem
  rcases same with rfl | rfl
  all_goals
    rcases List.mem_append.mp mem with mem | mem
    all_goals first | exact first us unsigned c mem | exact second ls long c mem

theorem ends_nil : Ends [] := nofun

/-- The digits end where the suffix begins. -/
theorem Suffix.head (suffixed : Suffix sign size sfx) (ends : Ends rest) :
    ∀ c ∈ (sfx ++ rest).head?, isxdigit c = false ∧ c.toUpper ≠ 'X' := by
  intro c mem
  cases sfx with
  | nil =>
    have away := ends c mem
    simp only [List.mem_append, not_or] at away
    refine ⟨?_, fun same => away.2 (by simp [same])⟩
    cases digit : isxdigit c with
    | false => rfl
    | true => exact absurd (isxdigit_letter digit) away.1
  | cons d sfx =>
    cases mem
    have each : ∀ c ∈ ['u', 'U', 'l', 'L'], isxdigit c = false ∧ c.toUpper ≠ 'X' := by decide
    exact each _ (suffixed.letters _ List.mem_cons_self)

theorem suffix_ends (ends : Ends rest) (size : Size) (sign : Bool) : suffix rest size sign = .ok (size, sign, rest) := by
  cases rest with
  | nil => rfl
  | cons c rest =>
    have away := ends c rfl
    simp only [List.mem_append, not_or, List.mem_cons] at away
    rw [suffix, if_neg away.2.1, if_neg away.2.2.1]

theorem suffix_spec (suffixed : Suffix sign size sfx) (ends : Ends rest) :
    suffix (sfx ++ rest) .INT false = .ok (size, sign, rest) := by
  obtain ⟨us, unsigned, ls, long, same⟩ := suffixed
  have upper : 'l'.toUpper = 'L' ∧ 'L'.toUpper = 'L' ∧ 'u'.toUpper = 'U' ∧ 'U'.toUpper = 'U' := by decide
  cases sign <;> cases size <;> simp only [unsignedSuffix, longSuffix, List.mem_cons, List.not_mem_nil, or_false] at unsigned long
  all_goals
    first | subst unsigned | rcases unsigned with rfl | rfl
  all_goals
    first | subst long | rcases long with rfl | rfl
  all_goals
    rcases same with rfl | rfl
    all_goals simp [suffix, upper, suffix_ends ends]

/-- An octal constant has no `x` behind its first digit. -/
theorem octal_plain {text : List Char} (digits : ∀ c ∈ ds, c ∈ octals) (after : ∀ c ∈ text.head?, c.toUpper ≠ 'X') :
    ¬(ds ++ text).head?.map Char.toUpper = some 'X' := by
  intro same
  cases ds with
  | nil =>
    obtain ⟨c, mem, upper⟩ := Option.map_eq_some_iff.mp same
    exact after c mem upper
  | cons d ds =>
    have each : ∀ d ∈ octals, d.toUpper ≠ 'X' := by decide
    exact each d (digits d List.mem_cons_self) (Option.some.inj same)

/-- How `number` divides a text into the token and the rest. -/
theorem integer_spec (front ds : List Char) (suffixed : Suffix sign size sfx) (ends : Ends rest) :
    integer (front ++ ds ++ sfx ++ rest) (sfx ++ rest) base =
      if (front ++ ds ++ sfx).length > INTIDENTSIZ then .error "token too big"
      else (readint (front ++ ds ++ sfx) base sign (ctype sign size)).map fun sym => (sym, rest) := by
  have token : (front ++ ds ++ sfx ++ rest).take ((front ++ ds ++ sfx ++ rest).length - rest.length) = front ++ ds ++ sfx := by
    rw [List.length_append, Nat.add_sub_cancel, List.take_left]
  unfold integer
  simp only [suffix_spec suffixed ends, bind, Except.bind, token]
  split
  · rfl
  · cases readint (front ++ ds ++ sfx) base sign (ctype sign size) <;> rfl

theorem dropWhile_digits (spelled : Spelled base front ds) (suffixed : Suffix sign size sfx) (ends : Ends rest) :
    (ds ++ (sfx ++ rest)).dropWhile (isdigit base) = sfx ++ rest := by
  rw [List.dropWhile_append_of_pos spelled.digits]
  cases after : sfx ++ rest with
  | nil => rfl
  | cons c text =>
    have other : isdigit base c = false := by
      cases digit : isdigit base c with
      | false => rfl
      | true =>
        have head := (suffixed.head ends c (by rw [after]; rfl)).1
        cases head.symm.trans (isdigit_isxdigit digit)
    rw [List.dropWhile_cons_of_neg (by simp [other])]

theorem number_spec (spelled : Spelled base front ds) (suffixed : Suffix sign size sfx) (ends : Ends rest) :
    number (front ++ ds ++ sfx ++ rest) =
      if (front ++ ds ++ sfx).length > INTIDENTSIZ then .error "token too big"
      else (readint (front ++ ds ++ sfx) base sign (ctype sign size)).map fun sym => (sym, rest) := by
  have dropped := dropWhile_digits spelled suffixed ends
  rw [← integer_spec front ds suffixed ends]
  cases spelled with
  | decimal digits first =>
    simp only [List.nil_append, List.append_assoc] at dropped ⊢
    rw [number, if_pos (by simpa using first), dropped]
  | octal digits =>
    simp only [List.cons_append, List.nil_append, List.append_assoc] at dropped ⊢
    have plain := octal_plain digits fun c mem => (suffixed.head ends c mem).2
    rw [number, if_neg (by simp), List.tail_cons, if_neg plain, dropped]
  | hexadecimal letter digits some_ =>
    simp only [List.cons_append, List.nil_append, List.append_assoc] at dropped ⊢
    have upper : ∀ x ∈ ['x', 'X'], x.toUpper = 'X' := by decide
    rw [number, if_neg (by simp), List.tail_cons, if_pos (by exact congrArg some (upper _ letter)), List.tail_cons, dropped]

section
variable (base : Nat) (sign : Bool)

theorem widen_int : widen base sign inttype = some (if base = 10 then longtype else uinttype) := rfl

theorem widen_long : widen base sign longtype = some (if base = 10 then llongtype else ulongtype) := rfl

theorem widen_llong : widen base sign llongtype = none := rfl

theorem widen_uint : widen base sign uinttype = some (if sign then ulongtype else longtype) := rfl

theorem widen_ulong : widen base sign ulongtype = some (if sign then ullongtype else llongtype) := rfl

theorem widen_ullong : widen base sign ullongtype = none := rfl

end

theorem chain_ctype (base : Nat) (sign : Bool) (size : Size) : chain base sign (ctype sign size) =
    match size with
    | .INT =>
      if sign then [uinttype, ulongtype, ullongtype]
      else if base = 10 then [inttype, longtype, llongtype]
      else [inttype, uinttype, longtype, ulongtype, llongtype]
    | .LONG =>
      if sign then [ulongtype, ullongtype]
      else if base = 10 then [longtype, llongtype]
      else [longtype, ulongtype, llongtype]
    | .LLONG => if sign then [ullongtype] else [llongtype] := by
  by_cases ten : base = 10 <;> cases sign <;> cases size
  all_goals
    simp [ctype, chain_eq, widen_int, widen_long, widen_llong, widen_uint, widen_ulong, widen_ullong, ten]

theorem chain_wide (base : Nat) (sign : Bool) (size : Size) : ∀ tp ∈ chain base sign (ctype sign size),
    15 ≤ maxLimit tp ∧ maxLimit tp < 2 ^ 64 := by
  rw [chain_ctype]
  by_cases ten : base = 10
  · simp only [ten, if_true]
    cases size <;> cases sign <;> decide
  · simp only [ten, if_false]
    cases size <;> cases sign <;> decide

/-- `readint` tries the types of its chain. -/
theorem readint_spec (spelled : Spelled base front ds) (suffixed : Suffix sign size sfx) :
    readint (front ++ ds ++ sfx) base sign (ctype sign size) =
      constant (chain base sign (ctype sign size)) (readDigits base val ds) := by
  have begins : chain base sign (ctype sign size) = left 0 (chain base sign (ctype sign size)) := by
    rw [left, chain_eq, List.dropWhile_cons_of_neg (by simp)]
  have loop := digitLoop_spec spelled.positive (fun c mem => isdigit_isxdigit (spelled.digits c mem))
    (fun c mem => (suffixed.head ends_nil c (by simpa using mem)).1) (chain_wide base sign size) begins
  rw [constant, readDigits, ← loop]
  cases spelled with
  | decimal digits first =>
    have each : ∀ d ∈ decimals, d.toUpper ≠ 'X' := by decide
    have plain := each _ (digits _ List.mem_cons_self)
    rw [readint, skipZero, if_neg (by simpa using first), skipX, if_neg (by simpa using plain)]
    rfl
  | octal digits =>
    have plain := octal_plain digits fun c mem => (suffixed.head ends_nil c (by simpa using mem)).2
    rw [readint, skipZero, if_pos (by rfl), skipX, if_neg (by exact plain)]
    rfl
  | hexadecimal letter digits some_ =>
    have upper : ∀ x ∈ ['x', 'X'], x.toUpper = 'X' := by decide
    rw [readint, skipZero, if_pos (by rfl), skipX, if_pos (by exact congrArg some (upper _ letter))]
    rfl

/-- A type that comes after one of the same size is never needed. -/
theorem constant_useless (before after : List CType) (v : Nat) (same : maxLimit ullongtype ≤ maxLimit ulongtype) :
    constant (before ++ ulongtype :: after ++ [ullongtype]) v = constant (before ++ ulongtype :: after) v := by
  have found : (before ++ ulongtype :: after ++ [ullongtype]).find? (fun tp => v ≤ maxLimit tp) =
      (before ++ ulongtype :: after).find? fun tp => v ≤ maxLimit tp := by
    rw [List.find?_append]
    cases first : (before ++ ulongtype :: after).find? fun tp => v ≤ maxLimit tp with
    | some tp => rfl
    | none =>
      have above := List.find?_eq_none.mp first ulongtype (by simp)
      rw [decide_eq_true_eq] at above
      rw [Option.none_or, List.find?_cons_of_neg (by simp; omega)]
      rfl
  rw [constant, constant, found]

theorem constant_llong (v : Nat) : constant [llongtype] v = constant [llongtype, ullongtype] v ↔
    ¬(maxLimit llongtype < v ∧ v ≤ maxLimit ullongtype) := by
  by_cases fits : v ≤ maxLimit llongtype
  · have found (types : List CType) : constant (llongtype :: types) v = .ok ⟨llongtype, BitVec.ofNat 64 v⟩ := by
      rw [constant, List.find?_cons_of_pos (by simpa using fits)]
    rw [found, found]
    exact iff_of_true rfl fun between => Nat.not_lt.mpr fits between.1
  · have missing : constant [llongtype] v = .error "overflow in integer constant" := by
      rw [constant, List.find?_cons_of_neg (by simpa using fits)]
      rfl
    rw [missing, constant, List.find?_cons_of_neg (by simpa using fits)]
    by_cases fits' : v ≤ maxLimit ullongtype
    · rw [List.find?_cons_of_pos (by simpa using fits')]
      exact iff_of_false (fun same => by cases same) fun absent => absent ⟨Nat.lt_of_not_le fits, fits'⟩
    · rw [List.find?_cons_of_neg (by simpa using fits')]
      exact iff_of_true rfl fun between => fits' between.2

/-- The chain of `readint` lacks `unsigned long long` behind a `long long` that is not decimal. -/
theorem constant_chain (base : Nat) (sign : Bool) (size : Size) (v : Nat) :
    constant (chain base sign (ctype sign size)) v = constant (listed base sign size) v ↔
      ¬(sign = false ∧ size = .LLONG ∧ base ≠ 10 ∧ maxLimit llongtype < v ∧ v ≤ maxLimit ullongtype) := by
  rw [chain_ctype]
  cases sign with
  | true =>
    refine iff_of_true ?_ (by simp)
    cases size <;> rfl
  | false =>
    by_cases ten : base = 10
    · refine iff_of_true ?_ (by simp [ten])
      simp only [listed, ten, if_true]
    · cases size with
      | INT =>
        refine iff_of_true ?_ (by simp)
        simp only [listed, ten, if_false, Bool.false_eq_true]
        exact (constant_useless [inttype, uinttype, longtype] [llongtype] v (by decide)).symm
      | LONG =>
        refine iff_of_true ?_ (by simp)
        simp only [listed, ten, if_false, Bool.false_eq_true]
        exact (constant_useless [longtype] [llongtype] v (by decide)).symm
      | LLONG =>
        simp only [listed, ten, if_false, Bool.false_eq_true, ne_eq, not_false_eq_true, true_and]
        exact constant_llong v

/-- A constant of the language gets the value and the type it has, but for one that is not decimal
and has `LL` without `U`: from 2^63 on, where it is an `unsigned long long`, it is refused. -/
theorem number_exact (spelled : Spelled base front ds) (suffixed : Suffix sign size sfx) (ends : Ends rest) :
    number (front ++ ds ++ sfx ++ rest) =
        (if (front ++ ds ++ sfx).length > INTIDENTSIZ then .error "token too big"
        else (readint (front ++ ds ++ sfx) base sign (ctype sign size)).map fun sym => (sym, rest)) ∧
      (readint (front ++ ds ++ sfx) base sign (ctype sign size) =
          constant (listed base sign size) (readDigits base val ds) ↔
        ¬(sign = false ∧ size = .LLONG ∧ base ≠ 10 ∧ maxLimit llongtype < readDigits base val ds ∧
          readDigits base val ds ≤ maxLimit ullongtype)) := by
  refine ⟨number_spec spelled suffixed ends, ?_⟩
  rw [readint_spec spelled suffixed]
  exact constant_chain base sign size _

theorem number_exact_suffixed : number ['0', 'x', 'f', 'F', 'u', 'L', ';'] = .ok (⟨ulongtype, 255⟩, [';']) := by
  have spelled : Spelled 16 ['0', 'x'] ['f', 'F'] := .hexadecimal (by decide) (by decide) (by decide)
  have suffixed : Suffix true .LONG ['u', 'L'] := ⟨['u'], by decide, ['L'], by decide, .inl rfl⟩
  have ends : Ends [';'] := by
    rintro _ ⟨⟩
    decide
  obtain ⟨token, value⟩ := number_exact spelled suffixed ends
  have read := value.mpr (by decide)
  rw [if_neg (by decide), read] at token
  exact token

/-- `0xffffffffffffffffLL` is refused, although it fits in `unsigned long long`. -/
theorem llong_refused : Spelled 16 ['0', 'x'] (List.replicate 16 'f') ∧ Suffix false .LLONG ['L', 'L'] ∧
    constant (listed 16 false .LLONG) (readDigits 16 val (List.replicate 16 'f')) =
      .ok ⟨ullongtype, 0xffffffffffffffff⟩ ∧
    readint (['0', 'x'] ++ List.replicate 16 'f' ++ ['L', 'L']) 16 false (ctype false .LLONG) =
      .error "overflow in integer constant" := by
  have spelled : Spelled 16 ['0', 'x'] (List.replicate 16 'f') := .hexadecimal (by decide) (by decide) (by decide)
  have suffixed : Suffix false .LLONG ['L', 'L'] := ⟨[], by decide, ['L', 'L'], by decide, .inl rfl⟩
  have value : readDigits 16 val (List.replicate 16 'f') = 0xffffffffffffffff := by decide
  refine ⟨spelled, suffixed, ?_, ?_⟩
  · rw [value]
    rfl
  · rw [readint_spec spelled suffixed, value, chain_ctype]
    rfl

end

end Scc.Cc1.Numbers
