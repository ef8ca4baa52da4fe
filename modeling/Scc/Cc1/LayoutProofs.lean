import Scc.Cc1.Layout

set_option linter.all false

/-! The layout of aggregates: when the members of a `struct` or a `union` and of the elements of an
array of them lie where the language has them. -/
namespace Scc.Cc1.Sizes
open Arithmetic

/-- An alignment of 0, which a type without members has, asks for nothing. -/
def Aligned (a m : Nat) : Prop := a = 0 ∨ a ∣ m

/-- Each member of a `struct` has the smallest offset behind the one before. -/
def Placed (last : Nat) : List (Nat × Layout) → Prop
  | [] => True
  | (offset, type) :: rest =>
    IsLeast {m | last ≤ m ∧ Aligned type.align m} offset ∧ Placed (offset + type.size.toNat) rest

def greatest (types : List Layout) : Nat := (types.map Layout.align).foldr max 0

/-- What a layout is of an aggregate with these members. -/
structure Law (struct : Bool) (types : List Layout) (layout : Layout) (offsets : List Nat) : Prop where
  align : layout.align = greatest types
  multiple : Aligned layout.align layout.size.toNat
  all : offsets.length = types.length
  ends : ∀ e ∈ offsets.zip types, e.1 + e.2.size.toNat ≤ layout.size.toNat
  places : if struct then Placed 0 (offsets.zip types) else ∀ e ∈ offsets.zip types, e.1 = 0
  members : ∀ e ∈ offsets.zip types, Aligned e.2.align e.1
  elements : ∀ base k, Aligned layout.align base → ∀ e ∈ offsets.zip types,
    Aligned e.2.align (base + k * layout.size.toNat + e.1)

/-- Where the members of a `struct` end, if they have room: a type without members has none
unless what comes before is empty too. -/
def extent (last : Nat) : List Layout → Option Nat
  | [] => some last
  | type :: rest =>
    if (type.align = 0 → last = 0) ∧ roundup last type.align + type.size.toNat < 2 ^ 64 then
      extent (roundup last type.align + type.size.toNat) rest
    else none

def widest (types : List Layout) : Nat := (types.map fun type => type.size.toNat).foldr max 0

def aligns : List Nat := [0, 1, 2, 4, 8, 16]

section
variable {last a m e k : Nat} {types : List Layout} {type : Layout} {s : Progress}

theorem power (known : a ∈ aligns) (positive : a ≠ 0) : ∃ k < 64, a = 2 ^ k := by
  have each : ∀ a ∈ aligns, a ≠ 0 → ∃ k < 64, a = 2 ^ k := by decide
  exact each a known positive

theorem greatest_known (known : ∀ type ∈ types, type.align ∈ aligns) : greatest types ∈ aligns := by
  induction types with
  | nil => decide
  | cons type rest ih =>
    have later := ih fun t mem => known t (List.mem_cons_of_mem _ mem)
    show max type.align (greatest rest) ∈ aligns
    rcases Nat.le_total type.align (greatest rest) with le | le
    · rwa [Nat.max_eq_right le]
    · rw [Nat.max_eq_left le]
      exact known type List.mem_cons_self

theorem le_greatest (mem : type ∈ types) : type.align ≤ greatest types := by
  induction types with
  | nil => cases mem
  | cons t rest ih =>
    show type.align ≤ max t.align (greatest rest)
    rcases List.mem_cons.mp mem with rfl | mem
    · exact Nat.le_max_left _ _
    · exact Nat.le_trans (ih mem) (Nat.le_max_right _ _)

theorem dvd_of_le {b : Nat} (known : a ∈ aligns) (known' : b ∈ aligns) (le : a ≤ b) (positive : a ≠ 0) : a ∣ b := by
  have each : ∀ a ∈ aligns, ∀ b ∈ aligns, a ≤ b → a ≠ 0 → a ∣ b := by decide
  exact each a known b known' le positive

/-- The mask rounds up to an alignment; without one it yields nothing. -/
theorem toNat_rounded (offset : BitVec 64) (known : a ∈ aligns) :
    (rounded offset ((a : Int) - 1)).toNat =
      if roundup offset.toNat a < 2 ^ 64 then roundup offset.toNat a else 0 := by
  by_cases none_ : a = 0
  · subst none_
    have all : (BitVec.ofInt 64 (((0 : Nat) : Int) - 1)) = BitVec.allOnes 64 := by decide
    rw [rounded, all, BitVec.not_allOnes, BitVec.and_zero]
    simp [roundup]
  · obtain ⟨k, below, rfl⟩ := power known none_
    have cast : (((2 ^ k : Nat) : Int) - 1) = ((2 ^ k - 1 : Nat) : Int) := by
      have := Nat.two_pow_pos k
      omega
    rw [rounded, cast, BitVec.ofInt_natCast]
    exact toNat_roundup offset below

/-- The offset of a member of a `struct`. -/
theorem field_offset (known : type.align ∈ aligns) (s : Progress) : (field true type s).1.toNat =
    if roundup s.offset.toNat type.align < 2 ^ 64 then roundup s.offset.toNat type.align else 0 := by
  show (if (type.align : Int) - 1 ≠ 0 then rounded s.offset ((type.align : Int) - 1) else s.offset).toNat = _
  split
  case isTrue => exact toNat_rounded s.offset known
  case isFalse one =>
    have one : type.align = 1 := by omega
    rw [one, roundup_one, if_pos s.offset.isLt]

theorem aligned_zero (m : Nat) : Aligned 0 m := .inl rfl

/-- The smallest offset for a member is the rounded end of the one before. -/
theorem isLeast_aligned (offset : Nat) : IsLeast {m | last ≤ m ∧ Aligned a m} offset ↔
    offset = if a = 0 then last else roundup last a := by
  have least : IsLeast {m | last ≤ m ∧ Aligned a m} (if a = 0 then last else roundup last a) := by
    split
    case isTrue none_ =>
      subst none_
      exact ⟨⟨Nat.le_refl last, aligned_zero last⟩, fun _ bound => bound.1⟩
    case isFalse some_ =>
      have least := roundup_least (Nat.pos_of_ne_zero some_) last
      refine ⟨⟨least.1.1, .inr least.1.2⟩, fun m bound => ?_⟩
      exact least.2 ⟨bound.1, bound.2.resolve_left some_⟩
  exact ⟨fun other => other.unique least, fun same => same ▸ least⟩

/-- The members with their offsets. -/
def places (struct : Bool) (types : List Layout) (s : Progress) : List (Nat × Layout) :=
  ((fieldLoop struct types s).1.map BitVec.toNat).zip types

theorem places_cons (struct : Bool) (type : Layout) (rest : List Layout) (s : Progress) :
    places struct (type :: rest) s =
      ((field struct type s).1.toNat, type) :: places struct rest (field struct type s).2 := rfl

theorem field_next (type : Layout) (s : Progress) :
    (field true type s).2.offset = (field true type s).1 + type.size := rfl

/-- The members of a `struct` that have room get their places. -/
theorem fieldLoop_placed (known : ∀ type ∈ types, type.align ∈ aligns) (joined : s.size = s.offset)
    (room : extent s.offset.toNat types = some e) :
    Placed s.offset.toNat (places true types s) ∧
      (fieldLoop true types s).2.size.toNat = e ∧
      s.offset.toNat ≤ e ∧ ∀ f ∈ places true types s, f.1 + f.2.size.toNat ≤ e := by
  induction types generalizing s with
  | nil =>
    cases room
    exact ⟨trivial, by rw [← joined]; rfl, Nat.le_refl _, nofun⟩
  | cons type rest ih =>
    unfold extent at room
    split at room
    case isFalse => cases room
    case isTrue fits =>
      obtain ⟨empty, below⟩ := fits
      have offset := field_offset (known type List.mem_cons_self) s
      rw [if_pos (by omega)] at offset
      have next : (field true type s).2.offset.toNat = roundup s.offset.toNat type.align + type.size.toNat := by
        rw [field_next, BitVec.toNat_add, offset, Nat.mod_eq_of_lt below]
      rw [← next] at room
      obtain ⟨placed, size, start, ends⟩ := ih (fun t mem => known t (List.mem_cons_of_mem _ mem)) rfl room
      have least : IsLeast {m | s.offset.toNat ≤ m ∧ Aligned type.align m} (field true type s).1.toNat := by
        rw [isLeast_aligned, offset]
        split
        case isTrue none_ => rw [none_, empty none_, roundup, Nat.div_zero, Nat.zero_mul]
        case isFalse => rfl
      rw [places_cons]
      refine ⟨⟨least, ?_⟩, size, ?_, ?_⟩
      · rw [offset, ← next]
        exact placed
      · have above := least.1.1
        omega
      · intro f mem
        rcases List.mem_cons.mp mem with rfl | mem
        · rw [offset, ← next]
          exact start
        · exact ends f mem

/-- A `struct` whose members have their places has room for them. -/
theorem extent_of_placed {limit : Nat} (known : ∀ type ∈ types, type.align ∈ aligns) (small : limit < 2 ^ 64)
    (start : s.offset.toNat ≤ limit)
    (placed : Placed s.offset.toNat (places true types s))
    (ends : ∀ f ∈ places true types s, f.1 + f.2.size.toNat ≤ limit) :
    ∃ e ≤ limit, extent s.offset.toNat types = some e := by
  induction types generalizing s with
  | nil => exact ⟨_, start, rfl⟩
  | cons type rest ih =>
    rw [places_cons] at placed ends
    obtain ⟨least, placed⟩ := placed
    have first : (field true type s).1.toNat + type.size.toNat ≤ limit := ends _ List.mem_cons_self
    have offset := field_offset (known type List.mem_cons_self) s
    have ideal := (isLeast_aligned _).mp least
    have empty : type.align = 0 → s.offset.toNat = 0 := by
      intro none_
      rw [if_pos none_] at ideal
      rw [none_, roundup, Nat.div_zero, Nat.zero_mul, ite_self] at offset
      omega
    have same : (field true type s).1.toNat = roundup s.offset.toNat type.align := by
      rw [ideal]
      split
      case isTrue none_ => rw [none_, empty none_, roundup, Nat.div_zero, Nat.zero_mul]
      case isFalse => rfl
    have next : (field true type s).2.offset.toNat = roundup s.offset.toNat type.align + type.size.toNat := by
      rw [field_next, BitVec.toNat_add, same, Nat.mod_eq_of_lt (by omega)]
    have below : roundup s.offset.toNat type.align + type.size.toNat < 2 ^ 64 := by omega
    rw [extent, if_pos ⟨empty, below⟩, ← next]
    apply ih (fun t mem => known t (List.mem_cons_of_mem _ mem))
    · omega
    · rw [next, ← same]
      exact placed
    · exact fun f mem => ends f (List.mem_cons_of_mem _ mem)

theorem fieldLoop_length (struct : Bool) (types : List Layout) (s : Progress) :
    (fieldLoop struct types s).1.length = types.length := by
  induction types generalizing s with
  | nil => rfl
  | cons type rest ih => exact congrArg (· + 1) (ih (field struct type s).2)

theorem fieldLoop_align (struct : Bool) (types : List Layout) (s : Progress) :
    (fieldLoop struct types s).2.align = max s.align (greatest types) := by
  induction types generalizing s with
  | nil => exact (Nat.max_eq_left (Nat.zero_le _)).symm
  | cons type rest ih =>
    have first : (field struct type s).2.align = max s.align type.align := by
      have choice : (if type.align > s.align then type.align else s.align) = max s.align type.align := by
        rw [Nat.max_def]
        split <;> split <;> omega
      cases struct <;> exact choice
    calc
      (fieldLoop struct (type :: rest) s).2.align = max (field struct type s).2.align (greatest rest) := ih _
      _ = max s.align (max type.align (greatest rest)) := by rw [first, Nat.max_assoc]

/-- The members of a `struct` are aligned, and so are those of its elements in an array. -/
theorem Aligned.element {b base size offset : Nat} (known : a ∈ aligns) (known' : b ∈ aligns) (le : a ≤ b)
    (multiple : Aligned b size) (start : Aligned b base) (member : Aligned a offset) :
    Aligned a (base + k * size + offset) := by
  by_cases none_ : a = 0
  · exact .inl none_
  · have divides := dvd_of_le known known' le none_
    have some_ : b ≠ 0 := by omega
    refine .inr (Nat.dvd_add (Nat.dvd_add ?_ ?_) (member.resolve_left none_))
    · exact Nat.dvd_trans divides (start.resolve_left some_)
    · exact Nat.dvd_trans divides (Nat.dvd_mul_left_of_dvd (multiple.resolve_left some_) k)

theorem placed_members {l : List (Nat × Layout)} (placed : Placed last l) : ∀ e ∈ l, Aligned e.2.align e.1 := by
  induction l generalizing last with
  | nil => exact nofun
  | cons e rest ih =>
    obtain ⟨least, later⟩ := placed
    intro f mem
    rcases List.mem_cons.mp mem with rfl | mem
    · exact least.1.2
    · exact ih later f mem

theorem mem_types {f : Nat × Layout} (mem : f ∈ places struct types s) : f.2 ∈ types :=
  (List.of_mem_zip mem).2

theorem aggregate_align (struct : Bool) (types : List Layout) : (aggregate struct types).1.align = greatest types := by
  show (fieldLoop struct types ⟨0, 0, 0⟩).2.align = _
  rw [fieldLoop_align]
  exact Nat.max_eq_right (Nat.zero_le _)

/-- The padding at the end of a `struct`. -/
theorem struct_size (known : ∀ type ∈ types, type.align ∈ aligns) :
    (aggregate true types).1.size.toNat =
      if greatest types > 1 then
        if roundup (fieldLoop true types ⟨0, 0, 0⟩).2.size.toNat (greatest types) < 2 ^ 64 then
          roundup (fieldLoop true types ⟨0, 0, 0⟩).2.size.toNat (greatest types)
        else 0
      else (fieldLoop true types ⟨0, 0, 0⟩).2.size.toNat := by
  have align : (fieldLoop true types ⟨0, 0, 0⟩).2.align = greatest types := aggregate_align true types
  show (if true && decide ((fieldLoop true types ⟨0, 0, 0⟩).2.align > 1) then _ else _ : BitVec 64).toNat = _
  rw [align, Bool.true_and]
  by_cases wide : greatest types > 1
  · rw [if_pos (decide_eq_true wide), if_pos wide]
    exact toNat_rounded _ (greatest_known known)
  · rw [if_neg (by simpa using wide), if_neg wide]

/-- The members of each element of an array are aligned where the size is a multiple of the alignment. -/
theorem elements_of (known : ∀ type ∈ types, type.align ∈ aligns) {struct : Bool} {size : Nat}
    (multiple : Aligned (greatest types) size)
    (members : ∀ f ∈ places struct types s, Aligned f.2.align f.1) :
    ∀ base k, Aligned (greatest types) base → ∀ f ∈ places struct types s,
      Aligned f.2.align (base + k * size + f.1) := by
  intro base k start f mem
  have type := mem_types mem
  apply Aligned.element (known f.2 type) (greatest_known known) (le_greatest type) multiple start
  exact members f mem

theorem places_length (struct : Bool) (types : List Layout) (s : Progress) :
    ((fieldLoop struct types s).1.map BitVec.toNat).length = types.length := by
  rw [List.length_map, fieldLoop_length]

/-- A `struct` is laid out by the law exactly where its members and the padding have room. -/
theorem struct_law (known : ∀ type ∈ types, type.align ∈ aligns) :
    Law true types (aggregate true types).1 ((aggregate true types).2.map BitVec.toNat) ↔
      ∃ e, extent 0 types = some e ∧ roundup e (greatest types) < 2 ^ 64 := by
  have size := struct_size known
  have align := aggregate_align true types
  constructor
  · intro law
    have limit := (aggregate true types).1.size.isLt
    obtain ⟨e, inside, room⟩ :=
      extent_of_placed (s := ⟨0, 0, 0⟩) known limit (Nat.zero_le _) law.places law.ends
    obtain ⟨-, ended, -⟩ := fieldLoop_placed (s := ⟨0, 0, 0⟩) known rfl room
    refine ⟨e, room, ?_⟩
    rw [ended] at size
    by_contra above
    by_cases wide : greatest types > 1
    · -- Without room for the padding the size is 0, and then nothing needed padding.
      rw [if_pos wide, if_neg above] at size
      have empty : e = 0 := by omega
      apply above
      rw [empty, roundup, Nat.div_eq_of_lt (by omega), Nat.zero_mul]
      decide
    · have narrow : greatest types = 0 ∨ greatest types = 1 := by omega
      apply above
      rcases narrow with none_ | one
      · rw [none_, roundup, Nat.div_zero, Nat.zero_mul]
        decide
      · rw [one, roundup_one]
        omega
  · rintro ⟨e, room, padding⟩
    obtain ⟨placed, ended, -, ends⟩ := fieldLoop_placed (s := ⟨0, 0, 0⟩) known rfl room
    have members := placed_members placed
    rw [ended, if_pos padding] at size
    have holds : e ≤ (aggregate true types).1.size.toNat ∧
        Aligned (greatest types) (aggregate true types).1.size.toNat := by
      rw [size]
      split
      case isTrue wide =>
        exact ⟨le_roundup (by omega) e, .inr (dvd_roundup e _)⟩
      case isFalse narrow =>
        have narrow : greatest types = 0 ∨ greatest types = 1 := by omega
        refine ⟨Nat.le_refl e, narrow.imp id fun one => ?_⟩
        rw [one]
        exact Nat.one_dvd e
    exact {
      align := align
      multiple := align.symm ▸ holds.2
      all := places_length true types _
      ends := fun f mem => Nat.le_trans (ends f mem) holds.1
      places := placed
      members := members
      elements := align.symm ▸ elements_of known holds.2 members }

/-- The loop over the members of a `union`. -/
theorem fieldLoop_union (types : List Layout) (s : Progress) :
    (fieldLoop false types s).2.size.toNat = max s.size.toNat (widest types) ∧
      ∀ f ∈ places false types s, f.1 = 0 ∧ f.2.size.toNat ≤ widest types := by
  induction types generalizing s with
  | nil => exact ⟨(Nat.max_eq_left (Nat.zero_le _)).symm, nofun⟩
  | cons type rest ih =>
    have first : (field false type s).2.size.toNat = max s.size.toNat type.size.toNat := by
      show (if type.size > s.size then type.size else s.size).toNat = _
      split
      case isTrue above => exact (Nat.max_eq_right (Nat.le_of_lt above)).symm
      case isFalse below => exact (Nat.max_eq_left (Nat.le_of_not_lt below)).symm
    obtain ⟨size, members⟩ := ih (field false type s).2
    constructor
    · calc
        (fieldLoop false (type :: rest) s).2.size.toNat
          = max (field false type s).2.size.toNat (widest rest) := size
        _ = max s.size.toNat (max type.size.toNat (widest rest)) := by rw [first, Nat.max_assoc]
    · intro f mem
      rw [places_cons] at mem
      rcases List.mem_cons.mp mem with rfl | mem
      · exact ⟨rfl, Nat.le_max_left _ _⟩
      · obtain ⟨zero, le⟩ := members f mem
        exact ⟨zero, Nat.le_trans le (Nat.le_max_right _ _)⟩

theorem union_size (types : List Layout) : (aggregate false types).1.size.toNat = widest types := by
  show (fieldLoop false types ⟨0, 0, 0⟩).2.size.toNat = _
  rw [(fieldLoop_union types _).1]
  exact Nat.max_eq_right (Nat.zero_le _)

/-- A `union` gets no padding: it is laid out by the law exactly where it needs none. -/
theorem union_law (known : ∀ type ∈ types, type.align ∈ aligns) :
    Law false types (aggregate false types).1 ((aggregate false types).2.map BitVec.toNat) ↔
      Aligned (greatest types) (widest types) := by
  have size := union_size types
  have align := aggregate_align false types
  obtain ⟨-, fits⟩ := fieldLoop_union types ⟨0, 0, 0⟩
  constructor
  · intro law
    have multiple := law.multiple
    rwa [align, size] at multiple
  · intro multiple
    have members : ∀ f ∈ places false types ⟨0, 0, 0⟩, Aligned f.2.align f.1 := by
      intro f mem
      rw [(fits f mem).1]
      exact .inr (Nat.dvd_zero _)
    rw [← size] at multiple
    exact {
      align := align
      multiple := align.symm ▸ multiple
      all := places_length false types _
      ends := by
        intro f mem
        obtain ⟨zero, le⟩ := fits f mem
        show f.1 + f.2.size.toNat ≤ _
        rw [size, zero, Nat.zero_add]
        exact le
      places := fun f mem => (fits f mem).1
      members := members
      elements := align.symm ▸ elements_of known multiple members }

end

mutual

/-- Every type of the target has one of the known alignments. -/
theorem Ty.typesize_known : ∀ {ty : Ty}, ty.Targeted → ty.typesize.align ∈ aligns
  | .basic layout, targeted => by
    have each : ∀ layout ∈ basics, layout.align ∈ aligns := by decide
    exact each layout targeted
  | .PTR, _ => by decide
  | .ENUM, _ => by decide
  | .ARY type _, targeted => by
    have known : type.typesize.align ∈ aligns := Ty.typesize_known targeted
    exact known
  | .STRUCT fields, targeted => by
    show (aggregate true fields.typesizes).1.align ∈ aligns
    rw [aggregate_align]
    exact greatest_known (Fields.typesizes_known targeted)
  | .UNION fields, targeted => by
    show (aggregate false fields.typesizes).1.align ∈ aligns
    rw [aggregate_align]
    exact greatest_known (Fields.typesizes_known targeted)

theorem Fields.typesizes_known :
    ∀ {fields : Fields}, fields.Targeted → ∀ type ∈ fields.typesizes, type.align ∈ aligns
  | .nil, _ => nofun
  | .cons type rest, targeted => by
    intro t mem
    rcases List.mem_cons.mp mem with rfl | mem
    · exact Ty.typesize_known targeted.1
    · exact Fields.typesizes_known targeted.2 t mem

end

/-- When `typesize` lays an aggregate out by the law. -/
theorem typesize_law (fields : Fields) (targeted : fields.Targeted) :
    (Law true fields.typesizes (Ty.STRUCT fields).typesize
        ((aggregate true fields.typesizes).2.map BitVec.toNat) ↔
      ∃ e, extent 0 fields.typesizes = some e ∧ roundup e (greatest fields.typesizes) < 2 ^ 64) ∧
    (Law false fields.typesizes (Ty.UNION fields).typesize
        ((aggregate false fields.typesizes).2.map BitVec.toNat) ↔
      Aligned (greatest fields.typesizes) (widest fields.typesizes)) :=
  ⟨struct_law (Fields.typesizes_known targeted), union_law (Fields.typesizes_known targeted)⟩

/-- An `int` and five characters. -/
def unpadded : Fields := .cons (.basic ⟨4, 4⟩) (.cons (.ARY (.basic ⟨1, 1⟩) 5) .nil)

theorem typesize_law_unpadded :
    Law true unpadded.typesizes (Ty.STRUCT unpadded).typesize
      ((aggregate true unpadded.typesizes).2.map BitVec.toNat) := by
  have targeted : unpadded.Targeted := by
    refine ⟨?_, ?_, trivial⟩
    · show (⟨4, 4⟩ : Layout) ∈ basics
      decide
    · show (⟨1, 1⟩ : Layout) ∈ basics
      decide
  exact (typesize_law unpadded targeted).1.mpr ⟨9, by decide, by decide⟩

/-- In a `union` of them the size is 5, which is no multiple of 4. -/
theorem union_unpadded : ¬Law false unpadded.typesizes (Ty.UNION unpadded).typesize
    ((aggregate false unpadded.typesizes).2.map BitVec.toNat) := by
  intro law
  have multiple : Aligned 4 5 := law.multiple
  revert multiple
  unfold Aligned
  decide

end Scc.Cc1.Sizes
