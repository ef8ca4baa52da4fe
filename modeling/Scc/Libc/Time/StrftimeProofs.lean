import Scc.Libc.Time.Strftime

set_option linter.all false

/-! Where `strftime` stores. -/
namespace Scc.Libc.Time.Strftime

variable {s n length length' inc inc' : Nat} {fits fits' hole hole' : Prop} {ws ws' : List Write} {cs : List Char} {w : Write}
  {inner : List Char → List Char} {again : Nat → Nat → List Char → Option (List Write × Nat)} {tm : Zoned}

/-- What is known of characters stored from a place on with `n` bytes left, when there are `length` of them to be stored. -/
structure Stored (s n length : Nat) (fits hole : Prop) (ws : List Write) (inc : Nat) : Prop where
  within : inc ≤ n
  low : ∀ w ∈ ws, s ≤ w.1
  moves : fits → inc = min length n
  high : fits → ∀ w ∈ ws, w.1 < s + n ∧ w.1 ≤ s + length
  full : fits → ¬hole → ∀ i, s ≤ i → i < s + min length n → ∃ w ∈ ws, w.1 = i
  outside : ¬fits → ∃ w ∈ ws, s + n ≤ w.1
  left : fits → hole → length < n → ∃ i, s < i ∧ i < s + length ∧ ∀ w ∈ ws, w.1 ≠ i

theorem mem_put (member : w ∈ put s cs) : s ≤ w.1 ∧ w.1 < s + cs.length := by
  induction cs generalizing s with
  | nil => cases member
  | cons c cs ih =>
    rw [List.length_cons]
    rcases List.mem_cons.mp member with rfl | later
    · exact ⟨Nat.le_refl _, by dsimp only; omega⟩
    · obtain ⟨low, high⟩ := ih later
      omega

theorem put_full {i : Nat} (low : s ≤ i) (high : i < s + cs.length) : ∃ w ∈ put s cs, w.1 = i := by
  induction cs generalizing s with
  | nil => exact absurd high (by simpa using low)
  | cons c cs ih =>
    rw [List.length_cons] at high
    by_cases here : i = s
    · exact ⟨_, List.mem_cons_self, here.symm⟩
    · obtain ⟨w, member, same⟩ := ih (s := s + 1) (by omega) (by omega)
      exact ⟨w, List.mem_cons_of_mem _ member, same⟩

/-- Characters that are stored one after the other, as many as there is room for. -/
theorem put_stored (size : cs.length = min length n) : Stored s n length True False (put s cs) cs.length where
  within := by omega
  low w member := (mem_put member).1
  moves _ := size
  high _ w member := by
    have := (mem_put member).2
    omega
  full _ _ i low high := put_full low (by omega)
  outside wrong := absurd trivial wrong
  left _ hole := hole.elim

namespace Stored

theorem congr (stored : Stored s n length fits hole ws inc) (same : fits ↔ fits') (same' : hole ↔ hole') :
    Stored s n length fits' hole' ws inc := propext same ▸ propext same' ▸ stored

/-- Nothing is stored where nothing is left, or there is nothing to store. -/
theorem nothing (none : n = 0 ∨ length = 0 ∧ ¬hole) (true : fits) : Stored s n length fits hole [] 0 where
  within := Nat.zero_le n
  low _ member := nomatch member
  moves _ := by omega
  high _ _ member := nomatch member
  full _ _ i low high := by omega
  outside wrong := absurd true wrong
  left _ open' small := by
    rcases none with none | none
    · omega
    · exact absurd open' none.2

/-- Some characters and those after them. -/
theorem append (first : Stored s n length fits hole ws inc)
    (second : Stored (s + inc) (n - inc) length' fits' hole' ws' inc') :
    Stored s n (length + length') (fits ∧ fits') (hole ∨ hole') (ws ++ ws') (inc + inc') where
  within := by
    have := first.within
    have := second.within
    omega
  low w member := by
    rcases List.mem_append.mp member with member | member
    · exact first.low w member
    · have := second.low w member
      omega
  moves fit := by
    have := first.moves fit.1
    have := second.moves fit.2
    omega
  high fit w member := by
    have moved := first.moves fit.1
    rcases List.mem_append.mp member with member | member
    · have := first.high fit.1 w member
      omega
    · have := second.high fit.2 w member
      omega
  full fit solid i low high := by
    have moved := first.moves fit.1
    by_cases early : i < s + min length n
    · obtain ⟨w, member, same⟩ := first.full fit.1 (fun h => solid (.inl h)) i low early
      exact ⟨w, List.mem_append_left _ member, same⟩
    · obtain ⟨w, member, same⟩ := second.full fit.2 (fun h => solid (.inr h)) i (by omega) (by omega)
      exact ⟨w, List.mem_append_right _ member, same⟩
  outside wrong := by
    by_cases fit : fits
    · obtain ⟨w, member, out⟩ := second.outside fun fit' => wrong ⟨fit, fit'⟩
      have := first.within
      exact ⟨w, List.mem_append_right _ member, by omega⟩
    · obtain ⟨w, member, out⟩ := first.outside fit
      exact ⟨w, List.mem_append_left _ member, out⟩
  left fit either small := by
    have moved := first.moves fit.1
    rcases either with open' | open'
    · obtain ⟨i, low, high, free⟩ := first.left fit.1 open' (by omega)
      refine ⟨i, low, by omega, fun w member => ?_⟩
      rcases List.mem_append.mp member with member | member
      · exact free w member
      · have := second.low w member
        omega
    · obtain ⟨i, low, high, free⟩ := second.left fit.2 open' (by omega)
      refine ⟨i, by omega, by omega, fun w member => ?_⟩
      rcases List.mem_append.mp member with member | member
      · have := first.high fit.1 w member
        omega
      · exact free w member

end Stored

/-! ## One turn -/

theorem before_length (fill : Char) (n val : Nat) (cs : List Char) : (before fill n val cs).length = n + cs.length := by
  induction n generalizing val cs with
  | zero => simp [before]
  | succ n ih =>
    unfold before
    split
    · rw [ih, List.length_cons]
      omega
    · rw [ih, List.length_cons]
      omega

theorem dval_length (some : 0 < n) {prec : Nat} (wide : 0 < prec) (fill : Char) (val : Int) :
    (dval n prec fill val).length = if val < 0 then 1 else min prec n := by
  unfold dval
  rw [if_neg (by omega)]
  split
  · rfl
  · obtain ⟨k, same⟩ : ∃ k, min prec n = k + 1 := ⟨min prec n - 1, by omega⟩
    rw [same]
    dsimp only
    rw [before_length]
    rfl

theorem dval_stored (some : 0 < n) {prec : Nat} (wide : 0 < prec) (fill : Char) (val : Int) :
    (dval n prec fill val).length = min (dval prec prec fill val).length n := by
  rw [dval_length some wide, dval_length wide wide]
  split <;> omega

/-- The digits of hours and minutes. -/
theorem dval_two (n : Nat) {val : Int} (positive : 0 ≤ val) : (dval n 2 '0' val).length = min 2 n := by
  by_cases some : 0 < n
  · rw [dval_length some (by decide), if_neg (Int.not_lt.mpr positive)]
  · obtain rfl : n = 0 := by omega
    rfl

/-- The time zone: a place is left out where there is room for it, and the last place is outside where there is not enough. -/
theorem timezone_stored (some : 0 < n) (off : Int) :
    Stored s n 5 (n ≠ 4 ∧ n ≠ 5) True (timezone s n off).1 (timezone s n off).2 := by
  unfold timezone
  dsimp only
  have hours := dval_two (n - 1) (Int.ediv_nonneg (Int.natCast_nonneg off.natAbs) (by decide : (0 : Int) ≤ 3600))
  generalize dval (n - 1) 2 '0' ((off.natAbs : Int) / 3600) = hs at hours ⊢
  have minutes := dval_two (n - (1 + hs.length))
    (Int.ediv_nonneg (Int.emod_nonneg off.natAbs (by decide : (3600 : Int) ≠ 0)) (by decide : (0 : Int) ≤ 60))
  generalize dval (n - (1 + hs.length)) 2 '0' ((off.natAbs : Int) % 3600 / 60) = ms at minutes ⊢
  generalize (if off ≥ 0 then '+' else '-') = sign
  have places : ∀ w ∈ (s, sign) :: put (s + 1) hs ++ put (s + 1 + (1 + hs.length)) ms, w.1 = s ∨
      s + 1 ≤ w.1 ∧ w.1 < s + 1 + hs.length ∨ s + 2 + hs.length ≤ w.1 ∧ w.1 < s + 2 + hs.length + ms.length := by
    intro w member
    rcases List.mem_append.mp member with member | member
    · rcases List.mem_cons.mp member with rfl | member
      · exact .inl rfl
      · exact .inr (.inl (mem_put member))
    · have := mem_put member
      omega
  constructor
  · omega
  · intro w member
    have := places w member
    omega
  · omega
  · intro fit w member
    have := places w member
    omega
  · exact fun _ solid => absurd trivial solid
  · intro wrong
    have low : s + 1 + (1 + hs.length) ≤ s + 1 + hs.length + ms.length := by omega
    have high : s + 1 + hs.length + ms.length < s + 1 + (1 + hs.length) + ms.length := by omega
    obtain ⟨w, member, same⟩ := put_full low high
    exact ⟨w, List.mem_append_right _ member, by omega⟩
  · intro _ _ room
    refine ⟨s + 3, by omega, by omega, fun w member => ?_⟩
    have := places w member
    omega

/-- A call for a format within a format, which is given a byte more than there is left. -/
def Calls (again : Nat → Nat → List Char → Option (List Write × Nat)) (inner : List Char → List Char) (tfmt : List Char) : Prop :=
  ∀ s n, 0 < n → ∃ ws inc, again s (n + 1) tfmt = some (ws, inc) ∧
    Stored s n (inner tfmt).length ((inner tfmt).length < n) False ws inc

/-- The names of a conversion are in the tables, and the calls for its format are known. -/
def Covered (again : Nat → Nat → List Char → Option (List Write × Nat)) (inner : List Char → List Char) : Conversion → Prop
  | .name strs _ idx _ => 0 ≤ idx ∧ idx < strs.length
  | .number width _ _ => 0 < width
  | .recursive tfmt => Calls again inner tfmt
  | _ => True

/-- What a conversion stores. -/
theorem convert_stored (room : 0 < n) (c : Conversion) (covered : Covered again inner c) :
    ∃ ws inc, convert again tm s n c = some (ws, inc) ∧
      Stored s n (c.text inner tm).length (c.Fits inner n) (c = .timezone) ws inc := by
  cases c with
  | name strs abrev idx max =>
    obtain ⟨low, high⟩ := covered
    obtain ⟨str, found⟩ : ∃ str, strs[idx.toNat]? = some str := ⟨_, List.getElem?_eq_getElem (by omega)⟩
    have chars : sval n strs abrev idx max = some ((if abrev then str.toList.take 3 else str.toList).take n) := by
      unfold sval
      rw [if_neg (by omega), if_neg (by omega), if_neg (by omega), found]
      rfl
    refine ⟨_, _, by rw [convert, chars]; rfl, (put_stored ?_).congr Iff.rfl (by simp)⟩
    rw [Conversion.text, found, List.length_take, Nat.min_comm]
    rfl
  | number width fill val => exact ⟨_, _, rfl, (put_stored (dval_stored room covered fill val)).congr Iff.rfl (by simp)⟩
  | character val =>
    have size : [val].length = min (Conversion.text inner tm (.character val)).length n := by
      rw [Conversion.text, List.length_singleton]
      omega
    exact ⟨_, _, rfl, (put_stored size).congr Iff.rfl (by simp)⟩
  | recursive tfmt =>
    obtain ⟨ws, inc, run, stored⟩ := covered s n room
    exact ⟨ws, inc, run, stored.congr Iff.rfl (by simp)⟩
  | timezone =>
    have hours := dval_two 2 (Int.ediv_nonneg (Int.natCast_nonneg tm.tm_gmtoff.natAbs) (by decide : (0 : Int) ≤ 3600))
    have minutes := dval_two 2 (Int.ediv_nonneg (Int.emod_nonneg tm.tm_gmtoff.natAbs (by decide : (3600 : Int) ≠ 0)) (by decide : (0 : Int) ≤ 60))
    have size : (Conversion.text inner tm .timezone).length = 5 := by
      rw [Conversion.text, List.length_append, List.length_cons, hours, minutes]
      rfl
    refine ⟨_, _, rfl, ?_⟩
    rw [size]
    exact (timezone_stored room tm.tm_gmtoff).congr Iff.rfl (by simp)
  | zone =>
    refine ⟨_, _, rfl, (put_stored ?_).congr Iff.rfl (by simp)⟩
    rw [Conversion.text, List.length_take, Nat.min_comm]

/-- The conversions of the items are in the switch, and what they store is known. -/
def Ready (again : Nat → Nat → List Char → Option (List Write × Nat)) (inner : List Char → List Char) (tm : Zoned)
    (items : List Item) : Prop :=
  ∀ ch, .directive ch ∈ items → ∃ c, conversion tm ch = some c ∧ Covered again inner c

theorem turn_stored (room : 0 < n) (item : Item) (ready : Ready again inner tm [item]) :
    ∃ ws inc, turn again tm s n item = some (ws, inc) ∧
      Stored s n (item.text inner tm).length (item.Fits inner tm n) (Zone tm [item]) ws inc := by
  cases item with
  | ordinary ch =>
    have size : [ch].length = min (Item.text inner tm (.ordinary ch)).length n := by
      rw [Item.text, List.length_singleton]
      omega
    exact ⟨_, _, rfl, (put_stored size).congr Iff.rfl (by simp [Zone])⟩
  | directive ch =>
    obtain ⟨c, found, covered⟩ := ready ch List.mem_cons_self
    obtain ⟨ws, inc, run, stored⟩ : ∃ ws inc, convert again tm s n c = some (ws, inc) ∧
        Stored s n (c.text inner tm).length (c.Fits inner n) (c = .timezone) ws inc := convert_stored room c covered
    refine ⟨ws, inc, by rw [turn, found]; exact run, ?_⟩
    rw [Item.text, found]
    refine stored.congr ?_ ?_
    · simp [Item.Fits, found]
    · simp [Zone, found]

/-- The whole loop. -/
theorem loop_stored (items : List Item) (ready : Ready again inner tm items) (s n : Nat) :
    ∃ ws inc, loop again tm items s n = some (ws, s + inc) ∧
      Stored s n (items.flatMap (Item.text inner tm)).length (Room inner tm items n) (Zone tm items) ws inc := by
  induction items generalizing s n with
  | nil => exact ⟨[], 0, rfl, .nothing (.inr ⟨rfl, by simp [Zone]⟩) trivial⟩
  | cons item items ih =>
    by_cases room : 0 < n
    · obtain ⟨ws, inc, run, stored⟩ := turn_stored (s := s) room item fun ch member =>
        ready ch (by rw [List.mem_singleton.mp member]; exact List.mem_cons_self)
      obtain ⟨ws', inc', run', stored'⟩ := ih (fun ch member => ready ch (List.mem_cons_of_mem _ member)) (s + inc) (n - inc)
      refine ⟨ws ++ ws', inc + inc', ?_, ?_⟩
      · unfold loop
        rw [if_neg (by omega), run]
        simp [run', Nat.add_assoc]
      · rw [List.flatMap_cons, List.length_append]
        refine (stored.append stored').congr ?_ ?_
        · have same : item.Fits inner tm n → n - inc = n - (item.text inner tm).length := fun fits => by
            have := stored.moves fits
            omega
          constructor
          · rintro ⟨fits, later⟩
            exact .inr ⟨fits, same fits ▸ later⟩
          · rintro (none | ⟨fits, later⟩)
            · omega
            · exact ⟨fits, (same fits).symm ▸ later⟩
        · simp only [Zone, List.mem_cons, List.not_mem_nil, or_false, or_and_right, exists_or]
    · refine ⟨[], 0, ?_, .nothing (.inl (by omega)) (.inl (by omega))⟩
      unfold loop
      rw [if_pos (by omega)]
      rfl

/-! ## Formats within formats -/

/-- A result that is shorter than what is left has room at each of its conversions. -/
theorem room_short (items : List Item) (zoneless : ¬Zone tm items) (short : (items.flatMap (Item.text inner tm)).length < n) :
    Room inner tm items n := by
  induction items generalizing n with
  | nil => trivial
  | cons item items ih =>
    rw [List.flatMap_cons, List.length_append] at short
    refine .inr ⟨?_, ih (fun ⟨ch, member, zone⟩ => zoneless ⟨ch, List.mem_cons_of_mem _ member, zone⟩) (by omega)⟩
    cases item with
    | ordinary ch => trivial
    | directive ch =>
      intro c found
      cases c with
      | recursive tfmt =>
        have size : (Item.text inner tm (.directive ch)).length = (inner tfmt).length := by
          rw [Item.text, found]
          rfl
        have fits : (inner tfmt).length < n := by omega
        exact fits
      | timezone => exact absurd ⟨ch, List.mem_cons_self, found⟩ zoneless
      | _ => trivial

/-- What is returned, from where the loop ends. -/
theorem strftime_run {levels : Nat} {format : List Char} (run : loop (strftime tm levels) tm (items format) s n = some (ws, s + inc)) :
    strftime tm (levels + 1) s n format = if inc = n then some (ws, 0) else some (ws ++ [(s + inc, '\x00')], inc) := by
  rw [strftime, run]
  simp only [Option.bind_eq_bind, Option.bind_some, Nat.add_sub_cancel_left, Option.pure_def]

theorem strftime_calls {levels : Nat} {tfmt : List Char} (zoneless : ¬Zone tm (items tfmt))
    (ready : Ready (strftime tm levels) (result tm levels) tm (items tfmt)) :
    Calls (strftime tm (levels + 1)) (result tm (levels + 1)) tfmt := by
  intro s n some
  obtain ⟨ws, inc, run, stored⟩ := loop_stored (items tfmt) ready s (n + 1)
  have returned := strftime_run run
  have last : ∀ w ∈ ws ++ [(s + inc, '\x00')], w ∈ ws ∨ w.1 = s + inc := by
    intro w member
    refine (List.mem_append.mp member).imp id fun single => ?_
    rw [List.mem_singleton.mp single]
  change ∃ ws inc, _ ∧ Stored s n ((items tfmt).flatMap (Item.text (result tm levels) tm)).length
    (((items tfmt).flatMap (Item.text (result tm levels) tm)).length < n) False ws inc
  generalize size : ((items tfmt).flatMap (Item.text (result tm levels) tm)).length = length at stored ⊢
  have within := stored.within
  have short (fits : length < n) : Room (result tm levels) tm (items tfmt) (n + 1) ∧ inc = length := by
    have small : ((items tfmt).flatMap (Item.text (result tm levels) tm)).length < n + 1 := by omega
    have room := room_short (items tfmt) zoneless small
    have := stored.moves room
    exact ⟨room, by omega⟩
  by_cases full : inc = n + 1
  · -- all the bytes are taken, the one more included
    refine ⟨ws, 0, returned.trans (if_pos full), Nat.zero_le n, stored.low, fun fits => ?_, fun fits => ?_, fun fits => ?_, fun _ => ?_,
      fun _ => False.elim⟩
    · have := (short fits).2
      omega
    · have := (short fits).2
      omega
    · have := (short fits).2
      omega
    · by_cases room : Room (result tm levels) tm (items tfmt) (n + 1)
      · have := stored.moves room
        obtain ⟨w, member, same⟩ := stored.full room zoneless (s + n) (by omega) (by omega)
        exact ⟨w, member, by omega⟩
      · obtain ⟨w, member, out⟩ := stored.outside room
        exact ⟨w, member, by omega⟩
  · refine ⟨ws ++ [(s + inc, '\x00')], inc, returned.trans (if_neg full), by omega, fun w member => ?_, fun fits => ?_, fun fits w member => ?_,
      fun fits _ i low high => ?_, fun wrong => ?_, fun _ => False.elim⟩
    · rcases last w member with member | same
      · exact stored.low w member
      · omega
    · have := (short fits).2
      omega
    · obtain ⟨room, moved⟩ := short fits
      rcases last w member with member | same
      · have := stored.high room w member
        omega
      · omega
    · obtain ⟨room, moved⟩ := short fits
      obtain ⟨w, member, same⟩ := stored.full room zoneless i low (by omega)
      exact ⟨w, List.mem_append_left _ member, same⟩
    · by_cases room : Room (result tm levels) tm (items tfmt) (n + 1)
      · have := stored.moves room
        exact ⟨_, List.mem_append_right _ List.mem_cons_self, by dsimp only; omega⟩
      · obtain ⟨w, member, out⟩ := stored.outside room
        exact ⟨w, List.mem_append_left _ member, by omega⟩

/-- The conversions of a format that have no format of their own and are no time zone. -/
def Plain (tm : Zoned) (tfmt : List Char) : Prop :=
  ∀ ch, .directive ch ∈ items tfmt → ∃ c, conversion tm ch = some c ∧ c ≠ .timezone ∧ ∀ again inner, Covered again inner c

theorem Plain.zoneless {tfmt : List Char} (plain : Plain tm tfmt) : ¬Zone tm (items tfmt) := by
  rintro ⟨ch, member, zone⟩
  obtain ⟨c, found, other, -⟩ := plain ch member
  exact other (Option.some.inj (found.symm.trans zone))

theorem Plain.calls {tfmt : List Char} (plain : Plain tm tfmt) (levels : Nat) :
    Calls (strftime tm (levels + 1)) (result tm (levels + 1)) tfmt := by
  refine strftime_calls plain.zoneless fun ch member => ?_
  obtain ⟨c, found, -, covered⟩ := plain ch member
  exact ⟨c, found, covered _ _⟩

/-- The directives of the items are among some. -/
def among (chs : List Char) : List Item → Bool
  | [] => true
  | .ordinary _ :: items => among chs items
  | .directive ch :: items => chs.contains ch && among chs items

theorem among_mem {chs : List Char} {items : List Item} (all : among chs items = true) {ch : Char}
    (member : .directive ch ∈ items) : ch ∈ chs := by
  induction items with
  | nil => cases member
  | cons item items ih =>
    cases item with
    | ordinary c => exact ih all ((List.mem_cons.mp member).resolve_left nofun)
    | directive c =>
      rw [among, Bool.and_eq_true, List.contains_iff_mem] at all
      rcases List.mem_cons.mp member with same | member
      · cases same
        exact all.1
      · exact ih all.2 member

/-- The directives that are plain, of those that formats within formats have. -/
def plains : List Char := ['H', 'M', 'S', 'm', 'd', 'y', 'Y', 'I', 'p', 'a', 'b', 'e']

theorem plain_covered (valid : Valid tm) {ch : Char} (member : ch ∈ plains) :
    ∃ c, conversion tm ch = some c ∧ c ≠ .timezone ∧ ∀ again inner, Covered again inner c := by
  have two : 0 < 2 := by decide
  have four : 0 < 4 := by decide
  have half : 0 ≤ (if tm.tm_hour > 12 then 1 else 0 : Int) ∧ (if tm.tm_hour > 12 then 1 else 0 : Int) < 2 := by
    split <;> decide
  simp only [plains, List.mem_cons, List.not_mem_nil, or_false] at member
  rcases member with rfl | rfl | rfl | rfl | rfl | rfl | rfl | rfl | rfl | rfl | rfl | rfl
  · exact ⟨_, rfl, nofun, fun _ _ => two⟩
  · exact ⟨_, rfl, nofun, fun _ _ => two⟩
  · exact ⟨_, rfl, nofun, fun _ _ => two⟩
  · exact ⟨_, rfl, nofun, fun _ _ => two⟩
  · exact ⟨_, rfl, nofun, fun _ _ => two⟩
  · exact ⟨_, rfl, nofun, fun _ _ => two⟩
  · exact ⟨_, rfl, nofun, fun _ _ => four⟩
  · exact ⟨_, rfl, nofun, fun _ _ => two⟩
  · exact ⟨_, rfl, nofun, fun _ _ => half⟩
  · exact ⟨_, rfl, nofun, fun _ _ => valid.wday⟩
  · exact ⟨_, rfl, nofun, fun _ _ => valid.mon⟩
  · exact ⟨_, rfl, nofun, fun _ _ => two⟩

theorem plain_of {tfmt : List Char} (valid : Valid tm) (all : among plains (items tfmt) = true) : Plain tm tfmt :=
  fun _ member => plain_covered valid (among_mem all member)

/-- `%c` has `%T` besides plain directives. -/
theorem whole_calls (valid : Valid tm) (levels : Nat) : Calls (strftime tm (levels + 2)) (result tm (levels + 2))
    ['%', 'a', ' ', '%', 'b', ' ', '%', 'e', ' ', '%', 'T', ' ', '%', 'Y'] := by
  have all : among ('T' :: plains) (items ['%', 'a', ' ', '%', 'b', ' ', '%', 'e', ' ', '%', 'T', ' ', '%', 'Y']) = true := rfl
  have time : Plain tm ['%', 'H', ':', '%', 'M', ':', '%', 'S'] := plain_of valid rfl
  apply strftime_calls
  · rintro ⟨ch, member, zone⟩
    rcases List.mem_cons.mp (among_mem all member) with rfl | plain
    · cases zone
    · obtain ⟨c, found, other, -⟩ := plain_covered valid plain
      exact other (Option.some.inj (found.symm.trans zone))
  · intro ch member
    rcases List.mem_cons.mp (among_mem all member) with rfl | plain
    · exact ⟨_, rfl, time.calls levels⟩
    · obtain ⟨c, found, -, covered⟩ := plain_covered valid plain
      exact ⟨c, found, covered _ _⟩

/-- What all the conversions of the switch store is known. -/
theorem conversions_covered (valid : Valid tm) (levels : Nat) :
    ∀ e ∈ conversions tm, Covered (strftime tm (levels + 2)) (result tm (levels + 2)) e.2 := by
  have calls {tfmt : List Char} (all : among plains (items tfmt) = true) (levels : Nat) :
      Calls (strftime tm (levels + 1)) (result tm (levels + 1)) tfmt := (plain_of valid all).calls levels
  have one : 0 < 1 := by decide
  have two : 0 < 2 := by decide
  have three : 0 < 3 := by decide
  have four : 0 < 4 := by decide
  have half : 0 ≤ (if tm.tm_hour > 12 then 1 else 0 : Int) ∧ (if tm.tm_hour > 12 then 1 else 0 : Int) < 2 := by
    split <;> decide
  simp only [conversions, List.forall_mem_cons, List.not_mem_nil, false_imp_iff, implies_true, and_true]
  exact ⟨valid.wday, valid.wday, valid.mon, valid.mon, valid.mon, whole_calls valid levels, two, two, calls rfl _, two, calls rfl _, two, four, two, two,
    three, two, two, trivial, half, calls rfl _, calls rfl _, two, trivial, one, two, two, one, two, calls rfl _, calls rfl _,
    calls rfl _, two, four, trivial, trivial, trivial⟩

/-- The condition: there is room at every conversion that is come to, and a result that fits has no time zone. -/
def Safe (tm : Zoned) (maxsize : Nat) (format : List Char) : Prop :=
  Room (result tm 2) tm (items format) maxsize ∧ ((result tm levels format).length < maxsize → ¬Zone tm (items format))

/-- Nothing is stored outside of the buffer, and what is returned is right, exactly under the condition. -/
theorem strftime_iff (tm : Zoned) (maxsize : Nat) (format : List Char) (valid : Valid tm) (known : Known tm format) :
    Right tm maxsize format ↔ Safe tm maxsize format := by
  have ready : Ready (strftime tm 2) (result tm 2) tm (items format) := by
    intro ch member
    obtain ⟨c, found⟩ := known ch member
    obtain ⟨_, _, table, -⟩ := List.lookup_eq_some_iff.mp found
    exact ⟨c, found, conversions_covered valid 0 (ch, c) (by rw [table]; simp)⟩
  obtain ⟨ws, inc, run, stored⟩ := loop_stored (items format) ready 0 maxsize
  have whole : (items format).flatMap (Item.text (result tm 2) tm) = result tm levels format := rfl
  have returned := strftime_run run
  rw [Nat.zero_add] at returned
  rw [whole] at stored
  have within := stored.within
  by_cases full : inc = maxsize
  · replace returned : strftime tm levels 0 maxsize format = some (ws, 0) := returned.trans (if_pos full)
    have long : Room (result tm 2) tm (items format) maxsize → maxsize ≤ (result tm levels format).length := fun room => by
      have := stored.moves room
      omega
    constructor
    · rintro ⟨_, _, same, inside, -⟩
      cases returned.symm.trans same
      have room : Room (result tm 2) tm (items format) maxsize := Classical.byContradiction fun wrong => by
        obtain ⟨w, member, out⟩ := stored.outside wrong
        have := inside w member
        omega
      exact ⟨room, fun short => absurd short (Nat.not_lt.mpr (long room))⟩
    · rintro ⟨room, -⟩
      refine ⟨ws, 0, returned, fun w member => ?_, fun short => absurd short (Nat.not_lt.mpr (long room)), fun _ => rfl⟩
      have := stored.high room w member
      omega
  · replace returned : strftime tm levels 0 maxsize format = some (ws ++ [(inc, '\x00')], inc) := returned.trans (if_neg full)
    have short (room : Room (result tm 2) tm (items format) maxsize) : inc = (result tm levels format).length := by
      have := stored.moves room
      omega
    constructor
    · rintro ⟨_, _, same, inside, fits, -⟩
      cases returned.symm.trans same
      have room : Room (result tm 2) tm (items format) maxsize := Classical.byContradiction fun wrong => by
        obtain ⟨w, member, out⟩ := stored.outside wrong
        have := inside w (List.mem_append_left _ member)
        omega
      refine ⟨room, fun fit zone => ?_⟩
      -- the place that the time zone leaves out is before the NUL
      obtain ⟨i, low, high, free⟩ := stored.left room zone fit
      obtain ⟨w, member, same⟩ := (fits fit).2 i (by omega)
      rcases List.mem_append.mp member with member | last
      · exact free w member same
      · have place : w.1 = inc := by rw [List.mem_singleton.mp last]
        have := short room
        omega
    · rintro ⟨room, zoneless⟩
      have moved := short room
      refine ⟨_, _, returned, fun w member => ?_, fun fit => ⟨moved, fun i low => ?_⟩, fun wide => by omega⟩
      · rcases List.mem_append.mp member with member | last
        · have := stored.high room w member
          omega
        · have place : w.1 = inc := by rw [List.mem_singleton.mp last]
          omega
      · by_cases last : i = inc
        · exact ⟨_, List.mem_append_right _ List.mem_cons_self, last.symm⟩
        · obtain ⟨w, member, same⟩ := stored.full room (zoneless fit) i (Nat.zero_le i) (by omega)
          exact ⟨w, List.mem_append_left _ member, same⟩

/-- Seven seconds past noon of the 29th of February of 2024. -/
def noon : Zoned := ⟨⟨7, 0, 12, 29, 1, 124, 4, 59, 0⟩, "GMT", 0⟩

/-- A date and a letter in ten bytes. -/
theorem strftime_ten : Right noon 10 ['%', 'D', 'x'] := by
  have parts : items ['%', 'D', 'x'] = [.directive 'D', .ordinary 'x'] := rfl
  have only (ch : Char) (member : .directive ch ∈ items ['%', 'D', 'x']) : ch = 'D' := by
    rw [parts] at member
    simpa using member
  have known : Known noon ['%', 'D', 'x'] := by
    intro ch member
    cases only ch member
    exact ⟨_, rfl⟩
  refine (strftime_iff noon 10 ['%', 'D', 'x'] ⟨by decide, by decide, by decide⟩ known).mpr ⟨.inr ⟨?_, .inr ⟨trivial, trivial⟩⟩, ?_⟩
  · intro c found
    cases found
    exact (by decide : 8 < 10)
  · rintro - ⟨ch, member, zone⟩
    cases only ch member
    cases zone

/-- A time of eight characters in eight bytes: its NUL is stored behind them. -/
theorem time_behind : ¬Right noon 8 ['%', 'T'] := by
  rintro ⟨ws, r, run, inside, -⟩
  have behind : (strftime noon levels 0 8 ['%', 'T']).map (fun result => result.1.any (·.1 == 8)) = some true := rfl
  rw [run] at behind
  obtain ⟨w, member, same⟩ := List.any_eq_true.mp (Option.some.inj behind)
  have := inside w member
  simp at same
  omega

end Scc.Libc.Time.Strftime
