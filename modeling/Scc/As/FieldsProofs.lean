import Scc.As.Fields
import Mathlib.Data.List.TakeWhile

set_option linter.all false

/-! When the fields of a line are the ones that are written there. -/
namespace Scc.As.Fields

section
attribute [local simp] trim
end

variable {p q t line : List Char} {ps : List (List Char)}

/-! One field. -/

theorem trim_other {c : Char} (other : isspace c = false) (before t : List Char) : trim before (c :: t) = before.reverse ++ c :: t := by
  unfold trim
  rw [other, if_neg Bool.false_ne_true]

theorem trim_space {c : Char} (space : isspace c) (b : Char) (before t : List Char) :
    trim (b :: before) (c :: t) = trim before (b :: NUL :: t) := by
  rw [trim, if_pos space]

/-- White space behind the tab becomes the end of the line. -/
theorem trim_tab (body t : List Char) :
    trim (body ++ [NUL]).reverse t =
      match t with
      | [] => body ++ [NUL]
      | c :: rest => if isspace c then body ++ NUL :: NUL :: rest else body ++ NUL :: c :: rest := by
  have back : (body ++ [NUL]).reverse = NUL :: body.reverse := by simp
  rw [back]
  cases t with
  | nil => simp [trim]
  | cons c rest =>
    by_cases space : isspace c
    · rw [trim_space space, trim_other (by decide), List.reverse_reverse]
      simp only [space, if_true]
    · rw [trim_other (by simpa using space)]
      simp [space]

theorem cstring_of (clean : NUL ∉ p) (rest : List Char) : cstring (p ++ NUL :: rest) = p := by
  induction p with
  | nil => simp [cstring]
  | cons c p ih =>
    have other : c ≠ NUL := fun same => clean (same ▸ List.mem_cons_self)
    have later := ih fun member => clean (List.mem_cons_of_mem c member)
    simpa [cstring, other] using later

theorem cstring_whole (clean : NUL ∉ p) : cstring p = p := by
  have all : ∀ c ∈ p, decide (c ≠ NUL) = true := fun c member => decide_eq_true fun same => clean (same ▸ member)
  exact List.takeWhile_eq_self_iff.mpr all

/-- Blanks are skipped as far as a tab. -/
theorem skip_blanks (tabless : '\t' ∉ p) (t : List Char) :
    (p ++ t).dropWhile (fun c => isspace c && c ≠ '\t') =
      if ltrim p = [] then t.dropWhile (fun c => isspace c && c ≠ '\t') else ltrim p ++ t := by
  induction p with
  | nil => rfl
  | cons c p ih =>
    have other : c ≠ '\t' := fun same => tabless (same ▸ List.mem_cons_self)
    have later := ih fun member => tabless (List.mem_cons_of_mem c member)
    by_cases space : isspace c
    · have step : ltrim (c :: p) = ltrim p := by simp [ltrim, space]
      rw [step, ← later]
      simp [space, other]
    · have step : ltrim (c :: p) = c :: p := by simp [ltrim, space]
      rw [step]
      simp [space]

theorem mem_ltrim {c : Char} (member : c ∈ ltrim p) : c ∈ p := (List.dropWhile_suffix _).mem member

theorem takeWhile_tab (tabless : '\t' ∉ p) (t : List Char) : (p ++ '\t' :: t).takeWhile (· ≠ '\t') = p := by
  have all : ∀ c ∈ p, decide (c ≠ '\t') = true := fun c member => decide_eq_true fun same => tabless (same ▸ member)
  rw [List.takeWhile_append_of_pos all]
  simp

theorem dropWhile_tab (tabless : '\t' ∉ p) (t : List Char) : (p ++ '\t' :: t).dropWhile (· ≠ '\t') = '\t' :: t := by
  have all : ∀ c ∈ p, decide (c ≠ '\t') = true := fun c member => decide_eq_true fun same => tabless (same ▸ member)
  rw [List.dropWhile_append_of_pos all]
  simp

theorem takeWhile_tabless (tabless : '\t' ∉ p) : p.takeWhile (· ≠ '\t') = p ∧ p.dropWhile (· ≠ '\t') = [] := by
  have all : ∀ c ∈ p, decide (c ≠ '\t') = true := fun c member => decide_eq_true fun same => tabless (same ▸ member)
  constructor
  · exact List.takeWhile_eq_self_iff.mpr all
  · exact List.dropWhile_eq_nil_iff.mpr all

/-- A part that is there. -/
def present (part : List Char) : Option (List Char) := if part = [] then none else some part

/-- The text after a tab, as it is left. -/
def after : List Char → List Char
  | [] => []
  | c :: t => if isspace c then [] else c :: t

theorem comment_head (part : List Char) : comment part = true ↔ (ltrim part).head? = some '#' := by
  unfold comment
  split
  · rename_i rest same
    simp [same]
  · rename_i other
    cases same : ltrim part with
    | nil => simp
    | cons c rest =>
      refine iff_of_false nofun fun head => ?_
      obtain rfl : c = '#' := Option.some.inj head
      exact other rest same

theorem field_last (tabless : '\t' ∉ p) (clean : NUL ∉ p) :
    field (some p) = if ltrim p = [] ∨ comment p then (none, none) else (some (ltrim p), some []) := by
  have skip := skip_blanks tabless []
  have tabless' : '\t' ∉ ltrim p := fun member => tabless (mem_ltrim member)
  have clean' : NUL ∉ ltrim p := fun member => clean (mem_ltrim member)
  simp only [List.append_nil, List.dropWhile_nil] at skip
  have skip : p.dropWhile (fun c => isspace c && c ≠ '\t') = ltrim p := by
    rw [skip]
    split
    · rename_i none
      exact none.symm
    · rfl
  unfold field
  simp only [skip, ← comment_head, takeWhile_tabless tabless']
  by_cases none : ltrim p = [] ∨ comment p
  · rw [if_pos none, if_pos none]
  · rw [if_neg none, if_neg none]
    have whole : trim (ltrim p).reverse [] = ltrim p := by simp [trim]
    have some_ : ltrim p ≠ [] := fun empty => none (.inl empty)
    rw [whole, cstring_whole clean', if_pos some_, List.drop_length]
    rfl

theorem field_tab (tabless : '\t' ∉ p) (clean : NUL ∉ p) (clean' : NUL ∉ t) :
    field (some (p ++ '\t' :: t)) = if comment p then (none, none) else (present (ltrim p), some (after t)) := by
  have tabless' : '\t' ∉ ltrim p := fun member => tabless (mem_ltrim member)
  have clean'' : NUL ∉ ltrim p := fun member => clean (mem_ltrim member)
  have skip : (p ++ '\t' :: t).dropWhile (fun c => isspace c && c ≠ '\t') = ltrim p ++ '\t' :: t := by
    rw [skip_blanks tabless]
    split
    · rename_i none
      rw [none]
      simp
    · rfl
  have some_ : ltrim p ++ '\t' :: t ≠ [] := by simp
  have head : (ltrim p ++ '\t' :: t).head? = some '#' ↔ comment p := by
    rw [comment_head]
    cases ltrim p with
    | nil => simp
    | cons c rest => rfl
  unfold field
  simp only [skip, some_, false_or, head, takeWhile_tab tabless', dropWhile_tab tabless', trim_tab]
  by_cases comments : comment p
  · rw [if_pos comments, if_pos comments]
  rw [if_neg comments, if_neg comments]
  have head' : ∀ rest, (if cstring (ltrim p ++ NUL :: rest) ≠ [] then some (cstring (ltrim p ++ NUL :: rest)) else none) = present (ltrim p) := by
    intro rest
    rw [cstring_of clean'', present]
    split <;> simp_all
  have cut : ∀ rest, (ltrim p ++ NUL :: rest).drop (ltrim p ++ [NUL]).length = rest := fun rest => by simp
  cases t with
  | nil =>
    simp only [head', List.drop_length]
    rfl
  | cons c rest =>
    by_cases space : isspace c
    · simp only [space, if_true, head', after]
      rw [cut]
      rfl
    · simp only [space, if_false, head', after, Bool.false_eq_true]
      rw [cut, cstring_whole clean']

/-! The parts. -/

theorem parts_last (tabless : '\t' ∉ p) : parts p = [p] := List.splitOn_eq_singleton tabless

theorem parts_tab (tabless : '\t' ∉ p) (t : List Char) : parts (p ++ '\t' :: t) = p :: parts t := by
  rw [parts, List.splitOn_append_cons_self, List.splitOn_eq_singleton tabless]
  rfl

theorem parts_ne_nil (t : List Char) : parts t ≠ [] := List.splitOn_ne_nil _ _

/-- A line has a first part, and perhaps others after a tab. -/
theorem line_cases (line : List Char) : '\t' ∉ line ∨ ∃ p t, line = p ++ '\t' :: t ∧ '\t' ∉ p := by
  by_cases tab : '\t' ∈ line
  · obtain ⟨p, t, same, first⟩ := List.eq_append_cons_of_mem tab
    exact .inr ⟨p, t, same, first⟩
  · exact .inl tab

theorem parts_head {c : Char} (other : c ≠ '\t') (t : List Char) : ∃ q qs, parts (c :: t) = (c :: q) :: qs := by
  rcases line_cases (c :: t) with tabless | ⟨p, u, same, first⟩
  · exact ⟨t, [], parts_last tabless⟩
  · rw [same, parts_tab first]
    cases p with
    | nil => exact absurd (List.cons.inj same).1 other
    | cons d p => exact ⟨p, parts u, by rw [(List.cons.inj same).1]⟩

theorem parts_empty (t : List Char) : parts ('\t' :: t) = [] :: parts t := parts_tab (p := []) (by simp) t

theorem lost_parts (t : List Char) : (Lost (parts t) → after t = []) ∧ (¬ Lost (parts t) → after t = t) := by
  cases t with
  | nil => exact ⟨fun _ => rfl, fun _ => rfl⟩
  | cons c t =>
    by_cases tab : c = '\t'
    · subst tab
      have lost : Lost (parts ('\t' :: t)) := by
        rw [parts_empty]
        exact parts_ne_nil t
      exact ⟨fun _ => rfl, fun not => absurd lost not⟩
    · obtain ⟨q, qs, same⟩ := parts_head tab t
      rw [same]
      constructor
      · intro lost
        have space : isspace c = true := lost
        simp [after, space]
      · intro kept
        have other : ¬ isspace c = true := kept
        simp [after, other]

theorem text_present (p : List Char) :
    text p = present (ltrim p) ↔ ∀ c, (ltrim p).getLast? = some c → isspace c = false := by
  unfold text rtrim present
  generalize ltrim p = q
  rw [← List.reverse_reverse q, List.getLast?_reverse]
  cases q.reverse with
  | nil => simp
  | cons c rest =>
    by_cases space : isspace c
    · refine iff_of_false ?_ fun all => ?_
      · intro same
        have shorter := (List.dropWhile_suffix isspace (l := rest)).length_le
        have some_ : (c :: rest).reverse ≠ [] := by simp
        rw [List.reverse_reverse, List.dropWhile_cons_of_pos space, if_neg some_] at same
        split at same
        · cases same
        · have length := congrArg List.length (Option.some.inj same)
          simp only [List.length_reverse, List.length_cons] at length
          omega
      · rw [all c rfl] at space
        cases space
    · rw [List.reverse_reverse, List.dropWhile_cons_of_neg space]
      refine iff_of_true rfl fun d same => ?_
      cases same
      simpa using space

theorem text_blank (blank : ltrim p = []) : text p = none := by
  rw [text, blank]
  rfl

/-! Several fields. -/

/-- Fields that are read one after the other. -/
def fields : Nat → Option (List Char) → List (Option (List Char))
  | 0, _ => []
  | n + 1, s => (field s).1 :: fields n (field s).2

/-- The texts of so many parts. -/
def wanted : Nat → List (List Char) → List (Option (List Char))
  | 0, _ => []
  | n + 1, ps => ps.head?.bind text :: wanted n ps.tail

theorem fields_none (n : Nat) : fields n none = List.replicate n none := by
  induction n with
  | zero => rfl
  | succ n ih => rw [fields, List.replicate_succ, ← ih]; rfl

theorem fields_end (n : Nat) : fields n (some []) = List.replicate n none := by
  cases n with
  | zero => rfl
  | succ n => rw [fields, List.replicate_succ, ← fields_none n]; rfl

theorem wanted_none (n : Nat) (ps : List (List Char)) :
    wanted n ps = List.replicate n none ↔ ∀ q ∈ ps.take n, text q = none := by
  induction n generalizing ps with
  | zero => simp [wanted]
  | succ n ih =>
    rw [wanted, List.replicate_succ, List.cons.injEq, ih]
    cases ps with
    | nil => simp
    | cons p ps => simp

/-- Nothing is read any more. -/
theorem wanted_nil (n : Nat) : wanted n [] = List.replicate n none := (wanted_none n []).mpr (by simp)

theorem tidy_nil (n : Nat) (seen : Prop) : Tidy n seen [] := by
  cases n with
  | zero => exact .inr (by simp [uncommented])
  | succ n => trivial

theorem uncommented_comment (comments : comment p = true) (ps : List (List Char)) : uncommented (p :: ps) = [] := by
  simp [uncommented, comments]

theorem uncommented_part (part : comment p = false) (ps : List (List Char)) : uncommented (p :: ps) = p :: uncommented ps := by
  simp [uncommented, part]

/-- A part that is not a comment, before what is read after it. -/
theorem part_tidy {n : Nat} {seen : Prop} {us : List (List Char)} {read : List (Option (List Char))} :
    (present (ltrim p) :: read = wanted (n + 1) (p :: us) ∧
      (¬ seen → (∀ f ∈ present (ltrim p) :: read, f = none) → ∀ q ∈ p :: us, text q = none)) ↔
      (∀ c, (ltrim p).getLast? = some c → isspace c = false) ∧ read = wanted n us ∧
        (¬ (seen ∨ ltrim p ≠ []) → (∀ f ∈ read, f = none) → ∀ q ∈ us, text q = none) := by
  have absent : present (ltrim p) = none ↔ ltrim p = [] := by
    unfold present
    split <;> simp_all
  rw [wanted, List.head?_cons, Option.bind_some, List.tail_cons, List.cons.injEq, eq_comm, text_present, and_assoc]
  refine and_congr_right fun _ => and_congr_right fun _ => ?_
  simp only [List.forall_mem_cons, absent, not_or, not_not]
  constructor
  · exact fun all both none => (all both.1 ⟨both.2, none⟩).2
  · exact fun all seen both => ⟨text_blank both.1, all ⟨seen, both.1⟩ both.2⟩

theorem fields_tidy (n : Nat) (clean : NUL ∉ line) (seen : Prop) :
    (fields n (some line) = wanted n (uncommented (parts line)) ∧
      (¬ seen → (∀ f ∈ fields n (some line), f = none) → ∀ q ∈ uncommented (parts line), text q = none)) ↔
      Tidy n seen (parts line) := by
  induction n generalizing line seen with
  | zero =>
    simp only [fields, wanted, true_and, List.not_mem_nil, false_implies, implies_true, true_implies]
    exact Classical.or_iff_not_imp_left.symm
  | succ n ih =>
    rcases line_cases line with tabless | ⟨p, t, rfl, tabless⟩
    · have read := field_last tabless clean
      rw [parts_last tabless, fields]
      by_cases comments : comment line
      · rw [if_pos (.inr comments)] at read
        rw [uncommented_comment comments, wanted_nil, read, fields_none, List.replicate_succ]
        exact iff_of_true ⟨rfl, fun _ _ q member => nomatch member⟩ (.inl comments)
      · have rest : (field (some line)).1 = present (ltrim line) ∧ fields n (field (some line)).2 = List.replicate n none := by
          rw [read]
          unfold present
          by_cases blank : ltrim line = []
          · rw [if_pos (.inl blank), if_pos blank]
            exact ⟨rfl, fields_none n⟩
          · rw [if_neg (not_or.mpr ⟨blank, comments⟩), if_neg blank]
            exact ⟨rfl, fields_end n⟩
        have none : uncommented [] = [] := rfl
        rw [rest.1, rest.2, uncommented_part (by simpa using comments), part_tidy, Tidy, or_iff_right comments, none, wanted_nil]
        refine and_congr_right fun _ => iff_of_true ⟨rfl, fun _ _ q member => nomatch member⟩ (.inr ⟨id, tidy_nil _ _⟩)
    · have clean' : NUL ∉ t := fun member => clean (by simp [member])
      have read := field_tab tabless (fun member => clean (by simp [member])) clean'
      rw [parts_tab tabless, fields, read]
      by_cases comments : comment p
      · rw [if_pos comments, uncommented_comment comments, wanted_nil, fields_none, List.replicate_succ]
        exact iff_of_true ⟨rfl, fun _ _ q member => nomatch member⟩ (.inl comments)
      · rw [if_neg comments, uncommented_part (by simpa using comments), part_tidy, Tidy, or_iff_right comments]
        refine and_congr_right fun _ => ?_
        by_cases lost : Lost (parts t)
        · rw [(lost_parts t).1 lost, fields_end, eq_comm, wanted_none]
          simp only [lost, not_true_eq_false, false_and, or_false, true_and]
          refine and_congr_right fun _ => ?_
          simp only [List.mem_replicate]
          constructor
          · exact fun all => Classical.or_iff_not_imp_left.mpr fun not => all not fun f member => member.2
          · exact fun either not _ => either.resolve_left not
        · rw [(lost_parts t).2 lost, ih clean']
          simp only [lost, not_false_eq_true, false_and, false_or, true_and]

/-! A whole line. -/

theorem isAlphanum_spaceless {c : Char} (letter : c.isAlphanum) : isspace c = false := by
  by_contra space
  have low : c.toNat ≤ 32 := by
    simp only [isspace, Bool.not_eq_false, Bool.or_eq_true, Bool.and_eq_true, decide_eq_true_eq] at space
    rcases space with rfl | ⟨-, below⟩
    · decide
    · exact Nat.le_trans (UInt32.le_iff_toNat_le.mp below) (by decide)
  have high : 48 ≤ c.toNat := by
    have kinds : (c.isUpper = true ∨ c.isLower = true) ∨ c.isDigit = true :=
      (Bool.or_eq_true_iff.mp letter).imp_left Bool.or_eq_true_iff.mp
    rcases kinds with (upper | lower) | digit
    · exact Nat.le_trans (by decide) (UInt32.le_iff_toNat_le.mp (of_decide_eq_true upper).1)
    · have first := (Bool.and_eq_true_iff.mp lower).1
      exact Nat.le_trans (by decide) (UInt32.le_iff_toNat_le.mp (of_decide_eq_true first))
    · have first := (Bool.and_eq_true_iff.mp digit).1
      exact UInt32.le_iff_toNat_le.mp (of_decide_eq_true first)
  omega

theorem validlabel_spaceless {name label : List Char} (valid : validlabel name = some label) : ∀ c ∈ name, isspace c = false := by
  induction name generalizing label with
  | nil => exact nofun
  | cons c name ih =>
    unfold validlabel at valid
    split at valid
    · rename_i char
      obtain ⟨rest, later, -⟩ := Option.map_eq_some_iff.mp valid
      have here : isspace c = false := by
        simp only [Bool.or_eq_true, decide_eq_true_eq] at char
        rcases char with ((letter | rfl) | rfl) | rfl
        · exact isAlphanum_spaceless letter
        · decide
        · decide
        · decide
      exact List.forall_mem_cons.mpr ⟨here, ih later⟩
    · split at valid
      · rename_i colon
        obtain ⟨rfl, rfl⟩ := colon
        exact List.forall_mem_singleton.mpr (by decide)
      · cases valid

/-- The pointer after so many fields. -/
def pointer : Nat → Option (List Char) → Option (List Char)
  | 0, s => s
  | n + 1, s => pointer n (field s).2

def Ends (n : Nat) (s : Option (List Char)) : Prop := ∃ c rest, pointer n s = some (c :: rest) ∧ c ≠ '#'

theorem ends_none (n : Nat) : ¬ Ends n none := by
  induction n with
  | zero => exact nofun
  | succ n ih => exact ih

theorem ends_nil (n : Nat) : ¬ Ends n (some []) := by
  cases n with
  | zero => exact nofun
  | succ n => exact ends_none n

theorem ends_zero (kept : ¬ Lost (parts t)) : Ends 0 (some t) ↔ Trailing 0 (parts t) := by
  cases t with
  | nil =>
    refine iff_of_false nofun ?_
    rintro ⟨d, rest, more, same, -⟩
    cases same
  | cons c t =>
    by_cases tab : c = '\t'
    · subst tab
      rw [parts_empty] at kept
      exact absurd (parts_ne_nil t) kept
    · obtain ⟨q, qs, same⟩ := parts_head tab t
      rw [same]
      constructor
      · rintro ⟨d, rest, here, other⟩
        cases here
        exact ⟨c, q, qs, rfl, other⟩
      · rintro ⟨d, rest, more, here, other⟩
        cases here
        exact ⟨c, t, rfl, other⟩

/-- What is left after some fields, where no white space stands at its start. -/
theorem ends_trailing (n : Nat) (clean : NUL ∉ line) (kept : n = 0 → ¬ Lost (parts line)) :
    Ends n (some line) ↔ Trailing n (parts line) := by
  induction n generalizing line with
  | zero => exact ends_zero (kept rfl)
  | succ n ih =>
    have step : Ends (n + 1) (some line) ↔ Ends n (field (some line)).2 := Iff.rfl
    rw [step]
    rcases line_cases line with tabless | ⟨p, t, rfl, tabless⟩
    · rw [parts_last tabless, field_last tabless clean]
      refine iff_of_false ?_ fun trailing => trailing.2.1 rfl
      split
      · exact ends_none n
      · exact ends_nil n
    · have clean' : NUL ∉ t := fun member => clean (by simp [member])
      rw [parts_tab tabless, field_tab tabless (fun member => clean (by simp [member])) clean', Trailing]
      by_cases comments : comment p
      · rw [if_pos comments]
        exact iff_of_false (ends_none n) fun trailing => absurd comments (by simp [trailing.1])
      · rw [if_neg comments, and_iff_right (by simpa using comments), and_iff_right (parts_ne_nil t)]
        by_cases lost : Lost (parts t)
        · rw [(lost_parts t).1 lost]
          exact iff_of_false (ends_nil n) fun trailing => trailing.1 lost
        · rw [(lost_parts t).2 lost, and_iff_right lost]
          exact ih clean' fun _ => lost

theorem extract_eq (line : List Char) :
    extract line =
      match pointer 3 (some line) with
      | some (c :: _) =>
        if c ≠ '#' then .error "trailing characters at the end of the line"
        else extract.found (field (some line)).1 (field (field (some line)).2).1 (field (field (field (some line)).2).2).1
      | _ => extract.found (field (some line)).1 (field (field (some line)).2).1 (field (field (field (some line)).2).2).1 := by
  rfl

theorem label_text {p label : List Char} (valid : validlabel (ltrim p) = some label) : text p = present (ltrim p) :=
  (text_present p).mpr fun c last => validlabel_spaceless valid c (List.mem_of_getLast? last)

/-- The first field, however it ends. -/
theorem field_first (clean : NUL ∉ line) :
    ∃ p ps, parts line = p :: ps ∧ (field (some line)).1 = if comment p then none else present (ltrim p) := by
  rcases line_cases line with tabless | ⟨p, t, rfl, tabless⟩
  · refine ⟨line, [], parts_last tabless, ?_⟩
    rw [field_last tabless clean]
    by_cases comments : comment line
    · rw [if_pos (.inr comments), if_pos comments]
    · rw [if_neg comments, present]
      by_cases blank : ltrim line = []
      · rw [if_pos (.inl blank), if_pos blank]
      · rw [if_neg (not_or.mpr ⟨blank, comments⟩), if_neg blank]
  · refine ⟨p, parts t, parts_tab tabless t, ?_⟩
    rw [field_tab tabless (fun member => clean (by simp [member])) fun member => clean (by simp [member])]
    split <;> rfl

theorem badLabel_iff (clean : NUL ∉ line) :
    BadLabel (parts line) ↔ ∃ label, (field (some line)).1 = some label ∧ validlabel label = none := by
  obtain ⟨p, ps, same, first⟩ := field_first clean
  rw [same, first]
  constructor
  · rintro ⟨p', rest, here, part, bad⟩
    cases here
    have some_ : ltrim p ≠ [] := fun blank => by
      rw [blank] at bad
      cases bad
    refine ⟨ltrim p, ?_, bad⟩
    rw [if_neg (by simp [part]), present, if_neg some_]
  · rintro ⟨label, here, bad⟩
    split at here
    · cases here
    · rename_i part
      unfold present at here
      split at here
      · cases here
      · cases here
        exact ⟨p, ps, rfl, by simpa using part, bad⟩

/-- A label that is valid is the first part. -/
theorem label_part (clean : NUL ∉ line) (good : ¬ BadLabel (parts line)) :
    (field (some line)).1 = (uncommented (parts line))[0]?.bind text := by
  obtain ⟨p, ps, same, first⟩ := field_first clean
  rw [badLabel_iff clean] at good
  rw [same]
  by_cases comments : comment p
  · rw [first, if_pos comments, uncommented_comment comments]
    rfl
  · rw [if_neg comments] at first
    rw [uncommented_part (by simpa using comments), first, List.getElem?_cons_zero, Option.bind_some]
    by_cases blank : ltrim p = []
    · rw [text_blank blank, present, if_pos blank]
    · rw [present, if_neg blank] at first
      cases valid : validlabel (ltrim p) with
      | none => exact absurd ⟨_, first, valid⟩ good
      | some label => exact (label_text valid).symm

theorem found_valid {label op args : Option (List Char)} (good : ¬ ∃ l, label = some l ∧ validlabel l = none) :
    extract.found label op args =
      if label = none ∧ op = none ∧ args = none then .skipped else .fields (label.bind validlabel) op args := by
  cases label with
  | none => simp [extract.found]
  | some l =>
    cases valid : validlabel l with
    | none => exact absurd ⟨l, rfl, valid⟩ good
    | some label => simp [extract.found, valid]

theorem wanted_three (us : List (List Char)) : wanted 3 us = [us[0]?.bind text, us[1]?.bind text, us[2]?.bind text] := by
  match us with
  | [] => rfl
  | [_] => rfl
  | [_, _] => rfl
  | _ :: _ :: _ :: _ => rfl

/-- The fields that are given are the ones that are written, and no line with a field is skipped, if and only if an
error is found or the line is tidy. -/
theorem extract_right (buff : List Char) :
    Right (cstring buff) ↔ Trailing 3 (parts (cstring buff)) ∨ BadLabel (parts (cstring buff)) ∨ Tidy 3 False (parts (cstring buff)) := by
  have clean : NUL ∉ cstring buff := fun member => by
    have all := List.all_eq_true.mp (List.all_takeWhile (p := fun c => c ≠ NUL) (l := buff)) NUL member
    exact of_decide_eq_true all rfl
  generalize cstring buff = line at clean
  have trailing := ends_trailing 3 clean nofun
  by_cases ends : Ends 3 (some line)
  · refine iff_of_true ?_ (.inl (trailing.mp ends))
    obtain ⟨c, rest, left, other⟩ := ends
    have reported : extract line = .error "trailing characters at the end of the line" := by
      rw [extract_eq, left]
      exact if_pos other
    unfold Right
    rw [reported]
    exact ⟨nofun, nofun⟩
  rw [← trailing, or_iff_right ends]
  have given : extract line =
      extract.found (field (some line)).1 (field (field (some line)).2).1 (field (field (field (some line)).2).2).1 := by
    rw [extract_eq]
    split
    · rename_i c rest left
      exact if_neg fun other => ends ⟨c, rest, left, other⟩
    · rfl
  by_cases bad : BadLabel (parts line)
  · refine iff_of_true ?_ (.inl bad)
    obtain ⟨label, here, invalid⟩ := (badLabel_iff clean).mp bad
    unfold Right
    rw [given, here, extract.found, invalid]
    exact ⟨nofun, nofun⟩
  rw [or_iff_right bad, ← fields_tidy 3 clean False, wanted_three]
  have label := label_part clean bad
  unfold Right
  rw [given, found_valid ((badLabel_iff clean).not.mp bad)]
  simp only [fields, List.cons.injEq, and_true, not_false_eq_true, true_implies, List.forall_mem_cons, List.not_mem_nil,
    false_implies, implies_true]
  by_cases none : (field (some line)).1 = none ∧ (field (field (some line)).2).1 = none ∧
      (field (field (field (some line)).2).2).1 = none
  · rw [if_pos none]
    constructor
    · rintro ⟨-, blank⟩
      have blank := blank rfl
      have part : ∀ k : Nat, (uncommented (parts line))[k]?.bind text = Option.none := by
        intro k
        cases here : (uncommented (parts line))[k]? with
        | none => rfl
        | some q => exact blank q (List.mem_of_getElem? here)
      exact ⟨⟨none.1.trans (part 0).symm, none.2.1.trans (part 1).symm, none.2.2.trans (part 2).symm⟩, fun _ => blank⟩
    · exact fun both => ⟨nofun, fun _ => both.2 none⟩
  · rw [if_neg none]
    constructor
    · rintro ⟨given, -⟩
      exact ⟨⟨label, (given _ _ _ rfl).2⟩, fun all => absurd all none⟩
    · rintro ⟨⟨first, second, third⟩, -⟩
      refine ⟨fun label op args same => ?_, nofun⟩
      cases same
      exact ⟨congrArg (·.bind validlabel) first, second, third⟩

/-- What follows a blank after a tab is lost. -/
theorem line_skipped : ¬ Right (cstring ['\t', '\t', 'n', 'o', 'p']) := by
  rintro ⟨-, blank⟩
  have part := blank rfl ['n', 'o', 'p'] (by decide)
  cases part

end Scc.As.Fields
