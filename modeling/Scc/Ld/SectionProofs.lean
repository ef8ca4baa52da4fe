import Scc.Ld.Symbol

set_option linter.all false

/-! Which sequences of sections are merged as they should be. -/
namespace Scc.Ld

/-! ## The table -/

namespace Link

variable {l l' : Link} {sec : Sectab} {name : Name}

theorem lookupsec_name (l : Link) (name : Name) : (l.lookupsec name).name = name := by
  rw [lookupsec]
  cases found : l.secs.find? fun sec => sec.name = name with
  | none => rfl
  | some sec => simpa using List.find?_some found

theorem lookupsec_assign (l : Link) (sec : Sectab) (name : Name) :
    (l.assign sec).lookupsec name = if name = sec.name then sec else l.lookupsec name := by
  rw [lookupsec, lookupsec, assign]
  dsimp only
  split
  · rename_i there
    have renamed : ∀ other : Sectab, (if other.name = sec.name then sec else other).name = other.name := by
      intro other
      split <;> simp [*]
    have same : ((fun other : Sectab => decide (other.name = name)) ∘
        fun other => if other.name = sec.name then sec else other) = fun other => decide (other.name = name) := by
      funext other
      simp only [Function.comp, renamed]
    rw [List.find?_map, same]
    cases found : l.secs.find? fun other => other.name = name with
    | none =>
      obtain ⟨other, mem, equal⟩ := List.any_eq_true.mp there
      have missing := List.find?_eq_none.mp found other mem
      rw [if_neg (fun here => missing (by simpa [here] using equal))]
      rfl
    | some other =>
      have named : other.name = name := by simpa using List.find?_some found
      simp only [Option.map_some, Option.getD_some, named]
  · rename_i missing
    rw [List.find?_cons]
    by_cases here : name = sec.name
    · simp [here]
    · simp [here, Ne.symm here]

theorem lookupsec_log (log : List (Osec × Option Nat)) : ({ l with log } : Link).lookupsec name = l.lookupsec name := rfl

end Link

/-! ## The places -/

theorem placed_append (log log' : List (Osec × Option Nat)) (name : Name) :
    placed (log ++ log') name = placed log name ++ placed log' name := List.filterMap_append ..

theorem Laid.append {start stop : Nat} {ps : List (Osec × Nat)} {osec : Osec} {offset : Nat} (laid : Laid start ps stop)
    (after : stop ≤ offset) (padding : offset - stop < osec.al) (aligned : osec.al ∣ offset) :
    Laid start (ps ++ [(osec, offset)]) (offset + osec.size.toNat) := by
  induction ps generalizing start with
  | nil =>
    obtain rfl := laid
    exact ⟨after, padding, aligned, rfl⟩
  | cons p ps ih =>
    obtain ⟨first, pad, al, rest⟩ := laid
    exact ⟨first, pad, al, ih rest⟩

/-- Where the sections before end, the next one lies behind its padding. -/
theorem Laid.next {start stop stop' : Nat} {ps qs : List (Osec × Nat)} {osec : Osec} {offset : Nat}
    (before : Laid start ps stop) (laid : Laid start (ps ++ (osec, offset) :: qs) stop') :
    stop ≤ offset ∧ offset - stop < osec.al ∧ osec.al ∣ offset := by
  induction ps generalizing start with
  | nil =>
    obtain rfl := before
    exact ⟨laid.1, laid.2.1, laid.2.2.1⟩
  | cons p ps ih => exact ih before.2.2.2 laid.2.2.2

/-! ## The sizes -/

theorem mkfile_eq {sec sec' : Sectab} {size : UInt64} :
    sec.mkfile size = some sec' ↔ sec.size.toNat + size.toNat < 2 ^ 64 ∧
      sec' = { sec with size := sec.size + size, tmpfp := some (sec.tmpfp.getD []) } := by
  have small := size.toNat_lt
  rw [Sectab.mkfile]
  split
  · constructor
    · intro none
      cases none
    · rintro ⟨short, -⟩
      omega
  · constructor
    · intro made
      cases made
      exact ⟨by omega, rfl⟩
    · rintro ⟨-, rfl⟩
      rfl

/-- Without an alignment the padding is 0, or the section is too long, or it grows. -/
theorem padding_toNat (sec : Sectab) : (sec.padding 0).toNat = (2 ^ 64 - sec.size.toNat) % 2 ^ 32 := by
  have all : sec.size.toBitVec &&& (BitVec.ofNat 64 0 - 1) = sec.size.toBitVec := BitVec.and_allOnes
  have small := sec.size.toNat_lt
  rw [Sectab.padding, all, BitVec.toNat_setWidth, BitVec.toNat_sub]
  simp only [UInt64.toNat_toBitVec, BitVec.toNat_ofNat]
  omega

theorem signExtend_toNat (nbytes : BitVec 32) :
    (nbytes.signExtend 64).toNat =
      if nbytes.toNat < 2 ^ 31 then nbytes.toNat else nbytes.toNat + (2 ^ 64 - 2 ^ 32) := by
  have small := nbytes.isLt
  rw [BitVec.toNat_signExtend, BitVec.toNat_setWidth, BitVec.msb_eq_decide]
  split <;> split <;> simp_all <;> omega

theorem mkfile_zero (sec : Sectab) : sec.mkfile 0 = some { sec with tmpfp := some (sec.tmpfp.getD []) } := by
  have small := sec.size.toNat_lt
  have made : sec.mkfile 0 = some { sec with size := sec.size + 0, tmpfp := some (sec.tmpfp.getD []) } :=
    mkfile_eq.mpr ⟨by simpa using small, rfl⟩
  rw [made]
  simp

/-- Without an alignment the section stays as it is where its size is a multiple of 2^32. -/
theorem grow_nothing {sec : Sectab} (whole : 2 ^ 32 ∣ sec.size.toNat) :
    sec.grow (sec.padding 0) = some { sec with tmpfp := some (sec.tmpfp.getD []) } := by
  have small := sec.size.toNat_lt
  have none : sec.padding 0 = 0#32 := by
    apply BitVec.eq_of_toNat_eq
    rw [padding_toNat, BitVec.toNat_zero]
    omega
  have zero : (⟨BitVec.signExtend 64 0#32⟩ : UInt64) = 0 := rfl
  rw [Sectab.grow, none, zero, mkfile_zero]
  simp

/-- Where it is none, the section is too long or becomes larger. -/
theorem grow_larger {sec sec' : Sectab} (odd : ¬2 ^ 32 ∣ sec.size.toNat)
    (grown : sec.grow (sec.padding 0) = some sec') : sec.size.toNat < sec'.size.toNat := by
  have small := sec.size.toNat_lt
  have pad := padding_toNat sec
  have extended := signExtend_toNat (sec.padding 0)
  obtain ⟨made, making, rest⟩ := Option.bind_eq_some_iff.mp grown
  obtain ⟨short, rfl⟩ := mkfile_eq.mp making
  obtain rfl := Option.some.inj rest
  change sec.size.toNat + (BitVec.signExtend 64 (sec.padding 0)).toNat < 2 ^ 64 at short
  have sum : (sec.size + ⟨BitVec.signExtend 64 (sec.padding 0)⟩).toNat =
      (sec.size.toNat + (BitVec.signExtend 64 (sec.padding 0)).toNat) % 2 ^ 64 := UInt64.toNat_add ..
  dsimp only
  rw [sum]
  split at extended <;> omega

/-! ## The sections that are linked so far -/

section
variable {osecs pre post : List Osec} {osec : Osec}

theorem agrees_first (split : osecs = pre ++ osec :: post)
    (first : (pre.find? fun other => other.name = osec.name) = none) : osec.agrees osecs = true := by
  rw [Osec.agrees, split, List.find?_append, first]
  simp

theorem agrees_later {first : Osec} (split : osecs = pre ++ osec :: post)
    (found : (pre.find? fun other => other.name = osec.name) = some first) :
    osec.agrees osecs = (first.type = osec.type && first.flags = osec.flags) := by
  rw [Osec.agrees, split, List.find?_append, found]
  simp

theorem total_append (osecs pre : List Osec) (osec : Osec) (name : Name) :
    total osecs (pre ++ [osec]) name =
      total osecs pre name + if osec.name = name ∧ osec.agrees osecs = true then osec.size.toNat else 0 := by
  rw [total, List.filter_append, List.map_append, List.sum_append]
  by_cases taken : osec.name = name ∧ osec.agrees osecs = true
  · simp [total, taken]
  · rw [if_neg taken]
    simp only [not_and, Bool.not_eq_true] at taken
    by_cases named : osec.name = name <;> simp [total, named, taken]

/-- What holds as long as the sections are merged as they should be: nothing is written, and the size of an
output section is what its sections add up to. -/
structure Kept (osecs pre : List Osec) (l : Link) : Prop where
  done : l.log.map Prod.fst = pre
  accepted : ∀ osec, (osec, none) ∈ l.log → osec.agrees osecs = false
  taken : ∀ osec offset, (osec, some offset) ∈ l.log → osec.agrees osecs = true
  laid : ∀ name, Laid 0 (placed l.log name) (total osecs pre name)
  size : ∀ name, (l.lookupsec name).size.toNat = total osecs pre name
  tmpfp : ∀ name, (l.lookupsec name).tmpfp.getD [] = []
  align : ∀ name, (l.lookupsec name).align = 0
  type : ∀ name, (l.lookupsec name).type = (pre.find? fun other => other.name = name).map Osec.type
  flags : ∀ name first, (pre.find? fun other => other.name = name) = some first →
    (l.lookupsec name).flags = first.flags

theorem Kept.start (osecs : List Osec) : Kept osecs [] Link.start where
  done := rfl
  accepted := fun _ mem => absurd mem List.not_mem_nil
  taken := fun _ _ mem => absurd mem List.not_mem_nil
  laid := fun _ => rfl
  size := fun _ => rfl
  tmpfp := fun _ => rfl
  align := fun _ => rfl
  type := fun _ => rfl
  flags := fun _ _ none => by cases none

variable {l : Link}

/-- A section that is reported as incompatible. -/
theorem Kept.reject (h : Kept osecs pre l) (there : (pre.find? fun other => other.name = osec.name).isSome)
    (apart : osec.agrees osecs = false) : Kept osecs (pre ++ [osec]) { l with log := l.log ++ [(osec, none)] } := by
  have same : ∀ name, ((pre ++ [osec]).find? fun other => other.name = name) =
      pre.find? fun other => other.name = name := by
    intro name
    rw [List.find?_append]
    by_cases named : osec.name = name
    · rw [Option.or_of_isSome (named ▸ there)]
    · simp [named]
  have sizes : ∀ name, total osecs (pre ++ [osec]) name = total osecs pre name := by
    intro name
    rw [total_append, if_neg (by simp [apart]), Nat.add_zero]
  constructor
  · simp [h.done]
  · intro other mem
    rcases List.mem_append.mp mem with mem | mem
    · exact h.accepted other mem
    · cases List.mem_singleton.mp mem
      exact apart
  · intro other offset mem
    rcases List.mem_append.mp mem with mem | mem
    · exact h.taken other offset mem
    · cases List.mem_singleton.mp mem
  · intro name
    have none : placed [(osec, none)] name = [] := by
      simp [placed]
    rw [placed_append, none, List.append_nil, sizes]
    exact h.laid name
  · intro name
    rw [sizes]
    exact h.size name
  · exact h.tmpfp
  · exact h.align
  · intro name
    rw [same]
    exact h.type name
  · intro name first
    rw [same]
    exact h.flags name first

/-- A section that is placed where the ones before it end. -/
theorem Kept.place (h : Kept osecs pre l) (sec : Sectab) (agrees : osec.agrees osecs = true)
    (name : sec.name = osec.name) (aligned : osec.al ∣ total osecs pre osec.name)
    (size : sec.size.toNat = total osecs pre osec.name + osec.size.toNat) (tmpfp : sec.tmpfp.getD [] = [])
    (align : sec.align = 0)
    (type : sec.type = ((pre ++ [osec]).find? fun other => other.name = osec.name).map Osec.type)
    (flags : ∀ first, ((pre ++ [osec]).find? fun other => other.name = osec.name) = some first → sec.flags = first.flags) :
    Kept osecs (pre ++ [osec])
      { l.assign sec with log := l.log ++ [(osec, some (total osecs pre osec.name))] } := by
  have looked : ∀ other log, Link.lookupsec { l.assign sec with log } other =
      if other = osec.name then sec else l.lookupsec other := by
    intro other log
    rw [← name]
    exact Link.lookupsec_assign l sec other
  have found : ∀ other, other ≠ osec.name → ((pre ++ [osec]).find? fun first => first.name = other) =
      pre.find? fun first => first.name = other := by
    intro other apart
    rw [List.find?_append, List.find?_singleton, if_neg (by simpa using Ne.symm apart), Option.or_none]
  have sizes : ∀ other, total osecs (pre ++ [osec]) other =
      total osecs pre other + if other = osec.name then osec.size.toNat else 0 := by
    intro other
    rw [total_append]
    by_cases here : other = osec.name
    · rw [if_pos ⟨here.symm, agrees⟩, if_pos here]
    · rw [if_neg (fun taken => here taken.1.symm), if_neg here]
  constructor
  · simp [h.done]
  · intro other mem
    rcases List.mem_append.mp mem with mem | mem
    · exact h.accepted other mem
    · cases List.mem_singleton.mp mem
  · intro other offset mem
    rcases List.mem_append.mp mem with mem | mem
    · exact h.taken other offset mem
    · cases List.mem_singleton.mp mem
      exact agrees
  · intro other
    rw [placed_append, sizes]
    by_cases here : other = osec.name
    · subst here
      have one : placed [(osec, some (total osecs pre osec.name))] osec.name = [(osec, total osecs pre osec.name)] := by
        simp [placed]
      rw [one, if_pos rfl]
      exact (h.laid osec.name).append (Nat.le_refl _) (by rw [Nat.sub_self]; exact Nat.le_max_right ..) aligned
    · have none : placed [(osec, some (total osecs pre osec.name))] other = [] := by
        simp [placed, Ne.symm here]
      rw [none, if_neg here, List.append_nil, Nat.add_zero]
      exact h.laid other
  · intro other
    rw [looked, sizes]
    split
    · subst other
      exact size
    · exact h.size other
  · intro other
    rw [looked]
    split
    · exact tmpfp
    · exact h.tmpfp other
  · intro other
    rw [looked]
    split
    · exact align
    · exact h.align other
  · intro other
    rw [looked]
    split
    · subst other
      exact type
    · rename_i apart
      rw [found other apart]
      exact h.type other
  · intro other first
    rw [looked]
    split
    · subst other
      exact flags first
    · rename_i apart
      rw [found other apart]
      exact h.flags other first

/-- What is done with a section, where it is placed. -/
def Link.place (l : Link) (osec : Osec) (sec : Sectab) : Option Link := do
  let copied ← sec.copy osec
  return { l.assign copied with log := l.log ++ [(osec, some sec.size.toNat)] }

theorem newsec_first (h : Kept osecs pre l) (first : (pre.find? fun other => other.name = osec.name) = none) :
    l.newsec osec = l.place osec { l.lookupsec osec.name with
      type := some osec.type, base := osec.base, size := osec.size, flags := osec.flags } := by
  have none := h.type osec.name
  rw [first] at none
  simp only [Link.newsec, none, Option.map_none]
  rfl

theorem newsec_later {first : Osec} (h : Kept osecs pre l)
    (found : (pre.find? fun other => other.name = osec.name) = some first) :
    l.newsec osec =
      if first.type ≠ osec.type ∨ first.flags ≠ osec.flags ∨ 0 ≠ osec.align then
        some { l with log := l.log ++ [(osec, none)] }
      else ((l.lookupsec osec.name).grow ((l.lookupsec osec.name).padding osec.align)).bind (l.place osec) := by
  have type := h.type osec.name
  rw [found] at type
  simp only [Link.newsec, type, Option.map_some, h.flags osec.name first found, h.align osec.name]
  rfl

theorem place_eq {l' : Link} {sec : Sectab} :
    l.place osec sec = some l' ↔ sec.size.toNat + osec.size.toNat < 2 ^ 64 ∧
      l' = { l.assign { sec with size := sec.size + osec.size, tmpfp := some (sec.tmpfp.getD []) } with
        log := l.log ++ [(osec, some sec.size.toNat)] } := by
  rw [Link.place, Option.bind_eq_bind, Option.bind_eq_some_iff]
  constructor
  · rintro ⟨copied, copy, linked⟩
    obtain rfl := Option.some.inj linked
    obtain ⟨short, rfl⟩ := mkfile_eq.mp copy
    exact ⟨short, rfl⟩
  · rintro ⟨short, rfl⟩
    exact ⟨_, mkfile_eq.mpr ⟨short, rfl⟩, rfl⟩

theorem any_find (pre : List Osec) (name : Name) :
    (pre.any fun other => other.name = name) = (pre.find? fun other => other.name = name).isSome :=
  List.isSome_find?.symm

theorem total_none (osecs : List Osec) {name : Name} (none : (pre.find? fun other => other.name = name) = none) : total osecs pre name = 0 := by
  have empty : (pre.filter fun other => other.name = name && other.agrees osecs) = [] := by
    apply List.filter_eq_nil_iff.mpr
    intro other mem
    have apart := List.find?_eq_none.mp none other mem
    simp only [decide_eq_true_eq] at apart
    simp [apart]
  rw [total, empty]
  rfl

/-- The next section is merged as it should be where the condition holds of it. -/
theorem Kept.good (h : Kept osecs pre l) (split : osecs = pre ++ osec :: post)
    (sized : osec.agrees osecs = true → Sized osecs pre osec) :
    ∃ l', l.newsec osec = some l' ∧ Kept osecs (pre ++ [osec]) l' := by
  cases found : pre.find? fun other => other.name = osec.name with
  | none =>
    have agrees := agrees_first split found
    have empty := sized agrees
    rw [Sized, any_find, found, if_neg (by simp)] at empty
    rw [newsec_first h found, empty]
    refine ⟨_, place_eq.mpr ⟨by simp [empty], rfl⟩, ?_⟩
    have here : ((pre ++ [osec]).find? fun other => other.name = osec.name) = some osec := by
      rw [List.find?_append, found]
      simp
    have zero := total_none osecs found
    have placed := h.place
      { l.lookupsec osec.name with
        type := some osec.type, base := osec.base, size := 0 + osec.size, flags := osec.flags,
        tmpfp := some ((l.lookupsec osec.name).tmpfp.getD []) }
      agrees (Link.lookupsec_name l osec.name) (by rw [zero]; exact Nat.dvd_zero _) (by simp [zero, empty])
      (h.tmpfp osec.name) (h.align osec.name) (by rw [here]; rfl) (by rw [here]; intro first same; cases same; rfl)
    rw [zero] at placed
    exact placed
  | some first =>
    have later := newsec_later h found
    have agreed := agrees_later split found
    have here : ((pre ++ [osec]).find? fun other => other.name = osec.name) = some first := by
      rw [List.find?_append, found]
      rfl
    cases agrees : osec.agrees osecs with
    | false =>
      rw [agrees] at agreed
      have apart : first.type ≠ osec.type ∨ first.flags ≠ osec.flags ∨ 0 ≠ osec.align := by
        by_contra same
        simp only [not_or, not_not] at same
        simp [same] at agreed
      rw [if_pos apart] at later
      exact ⟨_, later, h.reject (by rw [found]; rfl) agrees⟩
    | true =>
      have fits := sized agrees
      rw [Sized, any_find, found, if_pos (by rfl)] at fits
      obtain ⟨unaligned, whole, short⟩ := fits
      rw [agrees, eq_comm, Bool.and_eq_true, decide_eq_true_eq, decide_eq_true_eq] at agreed
      rw [if_neg (by simp [agreed, unaligned]), unaligned, grow_nothing (by rwa [h.size]), Option.bind_some] at later
      rw [← h.size] at short
      refine ⟨_, later.trans (place_eq.mpr ⟨short, rfl⟩), ?_⟩
      have placed := h.place
        { l.lookupsec osec.name with
          size := (l.lookupsec osec.name).size + osec.size, tmpfp := some ((l.lookupsec osec.name).tmpfp.getD []) }
        agrees (Link.lookupsec_name l osec.name) (by rw [Osec.al, unaligned]; exact Nat.one_dvd _)
        (by rw [← h.size, UInt64.toNat_add, Nat.mod_eq_of_lt short]) (h.tmpfp osec.name) (h.align osec.name)
        (by rw [here, ← found]; exact h.type osec.name)
        (by rw [here, ← found]; exact h.flags osec.name)
      rw [← h.size] at placed
      exact placed

/-- A section that is placed with a padding that is not less than its alignment, or at no multiple of it, stays so. -/
theorem Kept.misplaced {offset : Nat} {more : List (Osec × Option Nat)} (h : Kept osecs pre l)
    (laid : ∀ name, ∃ stop, Laid 0 (placed (l.log ++ (osec, some offset) :: more) name) stop) :
    total osecs pre osec.name ≤ offset ∧ offset - total osecs pre osec.name < osec.al ∧ osec.al ∣ offset := by
  obtain ⟨stop, laid⟩ := laid osec.name
  have here : placed ((osec, some offset) :: more) osec.name = (osec, offset) :: placed more osec.name := by
    simp [placed]
  rw [placed_append, here] at laid
  exact (h.laid osec.name).next laid

/-- Where it does not hold, no later section makes up for it. -/
theorem Kept.bad {l' : Link} {more : List (Osec × Option Nat)} (h : Kept osecs pre l) (agrees : osec.agrees osecs = true) (odd : ¬Sized osecs pre osec)
    (step : l.newsec osec = some l') (accepted : ∀ osec, (osec, none) ∈ l'.log ++ more → osec.agrees osecs = false)
    (laid : ∀ name, ∃ stop, Laid 0 (placed (l'.log ++ more) name) stop) : False := by
  cases found : pre.find? fun other => other.name = osec.name with
  | none =>
    rw [Sized, any_find, found, if_neg (by simp)] at odd
    rw [newsec_first h found] at step
    obtain ⟨-, rfl⟩ := place_eq.mp step
    dsimp only at laid
    rw [List.append_assoc] at laid
    obtain ⟨-, padding, aligned⟩ := h.misplaced laid
    rw [total_none osecs found] at padding
    have zero := Nat.eq_zero_of_dvd_of_lt aligned padding
    exact odd (UInt64.toNat_inj.mp zero)
  | some first =>
    rw [Sized, any_find, found, if_pos (by rfl)] at odd
    rw [newsec_later h found] at step
    split at step
    · cases step
      have rejected := accepted osec (by simp)
      cases agrees.symm.trans rejected
    · rename_i same
      simp only [not_or, not_not] at same
      rw [← same.2.2] at step odd
      obtain ⟨sec, grown, step⟩ := Option.bind_eq_some_iff.mp step
      obtain ⟨short, rfl⟩ := place_eq.mp step
      by_cases whole : 2 ^ 32 ∣ (l.lookupsec osec.name).size.toNat
      · cases (grow_nothing whole).symm.trans grown
        rw [h.size] at whole short
        exact odd ⟨rfl, whole, short⟩
      · have larger := grow_larger whole grown
        dsimp only at laid
        rw [List.append_assoc] at laid
        obtain ⟨-, padding, -⟩ := h.misplaced laid
        rw [Osec.al, ← same.2.2, ← h.size] at padding
        omega

theorem newsec_log {l' : Link} (step : l.newsec osec = some l') : ∃ place, l'.log = l.log ++ [(osec, place)] := by
  simp only [Link.newsec] at step
  split at step
  · obtain ⟨-, rfl⟩ := place_eq.mp step
    exact ⟨_, rfl⟩
  · split at step
    · cases step
      exact ⟨_, rfl⟩
    · obtain ⟨_, -, step⟩ := Option.bind_eq_some_iff.mp step
      obtain ⟨-, rfl⟩ := place_eq.mp step
      exact ⟨_, rfl⟩

theorem load_log {l' : Link} (run : l.load post = some l') : ∃ more, l'.log = l.log ++ more := by
  induction post generalizing l with
  | nil =>
    cases run
    exact ⟨[], (List.append_nil _).symm⟩
  | cons osec post ih =>
    obtain ⟨l₁, step, run⟩ := Option.bind_eq_some_iff.mp run
    obtain ⟨place, log⟩ := newsec_log step
    obtain ⟨more, log'⟩ := ih run
    exact ⟨(osec, place) :: more, by rw [log', log, List.append_assoc]; rfl⟩

/-- A run of sections whose sizes fit. -/
theorem Kept.run (h : Kept osecs pre l) (split : osecs = pre ++ post)
    (sized : ∀ p osec q, post = p ++ osec :: q → osec.agrees osecs = true → Sized osecs (pre ++ p) osec) :
    ∃ l', l.load post = some l' ∧ Kept osecs osecs l' := by
  induction post generalizing pre l with
  | nil =>
    rw [List.append_nil] at split
    exact ⟨l, rfl, split ▸ h⟩
  | cons osec post ih =>
    have first := sized [] osec post rfl
    rw [List.append_nil] at first
    obtain ⟨l₁, step, h₁⟩ := h.good split first
    have rest : ∀ p other q, post = p ++ other :: q → other.agrees osecs = true → Sized osecs (pre ++ [osec] ++ p) other := by
      rintro p other q rfl agrees
      rw [List.append_assoc]
      exact sized (osec :: p) other q rfl agrees
    obtain ⟨l', run, h'⟩ := ih h₁ (by simp [split]) rest
    exact ⟨l', Option.bind_eq_some_iff.mpr ⟨l₁, step, run⟩, h'⟩

/-- The sizes of a run that comes out right. -/
theorem Kept.sized {l' : Link} (h : Kept osecs pre l) (split : osecs = pre ++ post) (run : l.load post = some l')
    (accepted : ∀ osec, (osec, none) ∈ l'.log → osec.agrees osecs = false)
    (laid : ∀ name, ∃ stop, Laid 0 (placed l'.log name) stop) :
    ∀ p osec q, post = p ++ osec :: q → osec.agrees osecs = true → Sized osecs (pre ++ p) osec := by
  induction post generalizing pre l with
  | nil =>
    intro p osec q none
    simp at none
  | cons osec post ih =>
    obtain ⟨l₁, step, rest⟩ := Option.bind_eq_some_iff.mp run
    obtain ⟨more, log⟩ := load_log rest
    have first : osec.agrees osecs = true → Sized osecs pre osec := by
      intro agrees
      by_contra odd
      rw [log] at accepted laid
      exact h.bad agrees odd step accepted laid
    obtain ⟨l₂, step₂, h₁⟩ := h.good split first
    cases step.symm.trans step₂
    have later := ih h₁ (by simp [split]) rest
    intro p other q parts agrees
    cases p with
    | nil =>
      obtain ⟨rfl, -⟩ := List.cons.inj parts
      rw [List.append_nil]
      exact first agrees
    | cons _ p =>
      obtain ⟨rfl, tails⟩ := List.cons.inj parts
      have fits := later p other q tails agrees
      rwa [List.append_assoc] at fits

end

theorem mem_placed {log : List (Osec × Option Nat)} {name : Name} {p : Osec × Nat} :
    p ∈ placed log name ↔ p.1.name = name ∧ (p.1, some p.2) ∈ log := by
  obtain ⟨osec, offset⟩ := p
  simp only [placed, List.mem_filterMap, Prod.exists]
  constructor
  · rintro ⟨other, place, mem, named⟩
    split at named
    · rename_i here
      obtain ⟨there, rfl, same⟩ := Option.map_eq_some_iff.mp named
      cases same
      exact ⟨here, mem⟩
    · cases named
  · rintro ⟨here, mem⟩
    exact ⟨osec, some offset, mem, by rw [if_pos here]; rfl⟩

/-- The sections that are merged as they should be are those that fit. -/
theorem merged_iff (osecs : List Osec) : (∃ l, Link.start.load osecs = some l ∧ Merged osecs l) ↔ Fit osecs := by
  constructor
  · rintro ⟨l, run, merged⟩
    have sized := (Kept.start osecs).sized rfl run merged.accepted fun name => ⟨_, merged.laid name⟩
    obtain ⟨l', run', h⟩ := (Kept.start osecs).run rfl sized
    cases run.symm.trans run'
    intro pre osec post split agrees
    refine ⟨sized pre osec post split agrees, ?_⟩
    have mem : osec ∈ l.log.map Prod.fst := by
      rw [h.done, split]
      exact List.mem_append_right _ List.mem_cons_self
    obtain ⟨place, mem⟩ : ∃ place, (osec, place) ∈ l.log := by
      simpa using mem
    cases place with
    | none => cases agrees.symm.trans (h.accepted osec mem)
    | some offset =>
      cases bytes : osec.bytes with
      | nil => rfl
      | cons byte rest =>
        have written := merged.contents osec.name (osec, offset) (mem_placed.mpr ⟨rfl, mem⟩) 0 byte (by simp [bytes])
        rw [h.tmpfp] at written
        cases written
  · intro fit
    obtain ⟨l, run, h⟩ := (Kept.start osecs).run rfl fun p osec q split agrees => (fit p osec q split agrees).1
    refine ⟨l, run, h.accepted, ?_, ?_⟩
    · intro name
      rw [h.size]
      exact h.laid name
    · intro name p mem i byte there
      obtain ⟨-, mem⟩ := mem_placed.mp mem
      have inside : p.1 ∈ osecs := by
        rw [← h.done]
        exact List.mem_map.mpr ⟨_, mem, rfl⟩
      obtain ⟨pre, post, split⟩ := List.append_of_mem inside
      rw [(fit pre p.1 post split (h.taken _ _ mem)).2] at there
      cases there

/-- The section `.text` of four bytes. -/
def four : Osec := ⟨[46, 116, 101, 120, 116], .T, 0, 4, 0, 1, [1, 2, 3, 4]⟩

/-- The only section is placed behind its own size, and the output section is twice as long. -/
theorem four_doubled : (∃ l, Link.start.load [four] = some l ∧ l.log = [(four, some 4)] ∧
    (l.lookupsec four.name).size = 8) ∧ ¬∃ l, Link.start.load [four] = some l ∧ Merged [four] l := by
  refine ⟨⟨_, rfl, rfl, rfl⟩, ?_⟩
  rintro ⟨l, run, merged⟩
  cases run
  have padding : 4 - 0 < four.al := (merged.laid four.name).2.1
  exact absurd padding (by decide)

end Scc.Ld
