import Scc.Make.MacrosProofs

set_option linter.all false

/-! The substitution of a reference, against the suffixes of the words of the value. -/
namespace Scc.Make

def blank (c : Char) : Bool := c = ' ' || c = '\t'

/-- Each word of a text, where `w` is what has been read of the first one; the blanks stay. -/
def eachword (f : Text → Text) (w : Text) : Text → Text
  | [] => f w
  | c :: s => if blank c then f w ++ c :: eachword f [] s else eachword f (w ++ [c]) s

/-- A word with the suffix `a` replaced. -/
def suffixed (a b w : Text) : Text := if a <:+ w then w.take (w.length - a.length) ++ b else w

/-- The value with the suffix `a` of its words replaced by `b`. -/
def posix (a b s : Text) : Text := eachword (suffixed a b) [] s

/-- What is between `$` and the next text. -/
def substitution (name a b : Text) : Text := '(' :: (name ++ ':' :: (a ++ '=' :: (b ++ [')'])))

/-- The names and the strings that are not reported as wrong or too long, and end where they should. -/
structure Writable (name a b : Text) : Prop where
  name : name ≠ [] ∧ (∀ c ∈ name, validchar c = true) ∧ name.length < MAXTOKEN
  repl : a ≠ [] ∧ (∀ c ∈ a, c ≠ ')' ∧ c ≠ '=') ∧ a.length < MAXREPL
  to_ : (∀ c ∈ b, c ≠ ')') ∧ b.length < MAXREPL

/-- What is pushed for the reference. -/
def pushed (table : Macros) (steps : Nat) (name a b : Text) : Option Text :=
  match expansion (substitution name a b) with
  | .ok (.macro_ name repl to_, _) => do
    let value ← expandstring table steps none (.line ( getmacro table name))
    match value.text with
    | .ok s => return replace repl to_ 0 s
    | .error _ => none
  | _ => none

/-- Each occurrence of `a` is at the end of a word. -/
def Final (a s : Text) : Prop :=
  ∀ before after, s = before ++ (a ++ after) → (∀ c ∈ a, blank c = false) ∧ ∀ c ∈ after.head?, blank c = true

section
attribute [local simp] eachword suffixed posix expansion readref
end

/-! ## What is read of a reference -/

theorem readref_name {delim : Char} {name : Text} (valid : ∀ c ∈ name, validchar c = true)
    (other : ∀ c ∈ name, c ≠ delim) (got : Text) (short : got.length + name.length < MAXTOKEN) (n : Nat) (s : Text) :
    readref delim 0 got [] [] n (name ++ s) = readref delim 0 (got ++ name) [] [] (n + name.length) s := by
  induction name generalizing got n with
  | nil => simp
  | cons c name ih =>
    obtain ⟨first, valid⟩ := List.forall_mem_cons.mp valid
    obtain ⟨apart, other⟩ := List.forall_mem_cons.mp other
    have colon : c ≠ ':' := by
      rintro rfl
      cases first
    simp only [List.length_cons] at short
    rw [List.cons_append, readref, if_neg apart, if_neg colon, if_neg (by simp [first]), if_neg (by simp [MAXTOKEN] at *; omega)]
    rw [ih valid other (got ++ [c]) (by simp; omega)]
    simp [Nat.add_assoc, Nat.add_comm 1]

theorem readref_repl {delim : Char} {a : Text} (other : ∀ c ∈ a, c ≠ delim ∧ c ≠ '=') (name got : Text)
    (short : got.length + a.length < MAXREPL) (n : Nat) (s : Text) :
    readref delim 1 name got [] n (a ++ s) = readref delim 1 name (got ++ a) [] (n + a.length) s := by
  induction a generalizing got n with
  | nil => simp
  | cons c a ih =>
    obtain ⟨first, other⟩ := List.forall_mem_cons.mp other
    simp only [List.length_cons] at short
    rw [List.cons_append, readref, if_neg first.1, if_neg first.2, if_neg (by simp only [MAXREPL] at *; omega)]
    rw [ih other (got ++ [c]) (by simp; omega)]
    simp [Nat.add_assoc, Nat.add_comm 1]

theorem readref_to {delim : Char} {b : Text} (other : ∀ c ∈ b, c ≠ delim) (name repl got : Text)
    (short : got.length + b.length < MAXREPL) (n : Nat) (s : Text) :
    readref delim 2 name repl got n (b ++ s) = readref delim 2 name repl (got ++ b) (n + b.length) s := by
  induction b generalizing got n with
  | nil => simp
  | cons c b ih =>
    obtain ⟨first, other⟩ := List.forall_mem_cons.mp other
    simp only [List.length_cons] at short
    have step : readref delim 2 name repl got n (c :: (b ++ s)) = if got.length = MAXREPL - 1 then
        .error "macro substiturion too big" else readref delim 2 name repl (got ++ [c]) (n + 1) (b ++ s) :=
      if_neg first
    rw [List.cons_append, step, if_neg (by simp only [MAXREPL] at *; omega), ih other (got ++ [c]) (by simp; omega)]
    simp [Nat.add_assoc, Nat.add_comm 1]

theorem Writable.expansion {name a b : Text} (h : Writable name a b) :
    expansion (substitution name a b) = .ok (.macro_ name a b, (substitution name a b).length) := by
  obtain ⟨⟨named, valid, short⟩, ⟨some, other, small⟩, others, smaller⟩ := h
  have apart : ∀ c ∈ name, c ≠ ')' := by
    rintro c mem rfl
    cases valid _ mem
  have first := readref_name valid apart [] (by simpa using short) 1 (':' :: (a ++ '=' :: (b ++ [')'])))
  have second := readref_repl other name [] (by simpa using small) (1 + name.length + 1) ('=' :: (b ++ [')']))
  have third := readref_to others name a [] (by simpa using smaller) (1 + name.length + 1 + a.length + 1) [')']
  have colon : readref ')' 0 name [] [] (1 + name.length) (':' :: (a ++ '=' :: (b ++ [')']))) =
      readref ')' 1 name [] [] (1 + name.length + 1) (a ++ '=' :: (b ++ [')'])) := rfl
  have equals : readref ')' 1 name a [] (1 + name.length + 1 + a.length) ('=' :: (b ++ [')'])) =
      readref ')' 2 name a [] (1 + name.length + 1 + a.length + 1) (b ++ [')']) := rfl
  have done : readref ')' 2 name a b (1 + name.length + 1 + a.length + 1 + b.length) [')'] =
      .ok (.macro_ name a b, 1 + name.length + 1 + a.length + 1 + b.length + 1) := by
    refine (if_pos rfl).trans (if_neg ?_)
    simp [named, some]
  have length : (substitution name a b).length = 1 + name.length + 1 + a.length + 1 + b.length + 1 := by
    simp only [substitution, List.length_cons, List.length_append, List.length_nil]
    omega
  rw [length]
  exact first.trans (colon.trans (second.trans (equals.trans (third.trans done))))

/-! ## Words -/

theorem eachword_plain {f : Text → Text} {u : Text} (plain : ∀ c ∈ u, blank c = false) (w s : Text) :
    eachword f w (u ++ s) = eachword f (w ++ u) s := by
  induction u generalizing w with
  | nil => simp
  | cons c u ih =>
    obtain ⟨first, rest⟩ := List.forall_mem_cons.mp plain
    rw [List.cons_append, eachword, if_neg (by simp [first]), ih rest, List.append_assoc]
    rfl

theorem eachword_end {f : Text → Text} {w s : Text} (over_ : ∀ c ∈ s.head?, blank c = true) :
    ∃ s', eachword f w s = f w ++ s' ∧ (s = [] ∧ s' = [] ∨ ∃ c t, s = c :: t ∧ s' = c :: eachword f [] t) := by
  cases s with
  | nil => exact ⟨[], (List.append_nil _).symm, .inl ⟨rfl, rfl⟩⟩
  | cons c t =>
    refine ⟨c :: eachword f [] t, ?_, .inr ⟨c, t, rfl, rfl⟩⟩
    rw [eachword, if_pos (over_ c rfl)]

/-- No occurrence of `a` begins in the part `w`. -/
def Before (a w s : Text) : Prop := ∀ before after, w ++ s = before ++ (a ++ after) → w.length ≤ before.length

section
variable {a b w s : Text} {c : Char}

theorem Before.nil (a s : Text) : Before a [] s := fun _ _ _ => Nat.zero_le _

theorem Before.snoc (h : Before a w (c :: s)) (other : ¬a <+: c :: s) : Before a (w ++ [c]) s := by
  intro before after parts
  rw [List.append_assoc] at parts
  have le := h before after parts
  rcases Nat.lt_or_eq_of_le le with lt | same
  · rwa [List.length_append]
  · obtain ⟨-, rest⟩ := List.append_inj parts same
    exact absurd ⟨after, rest.symm⟩ other

/-- The word is no word that ends with `a`. -/
theorem Before.suffixed (h : Before a w s) (some : a ≠ []) : suffixed a b w = w := by
  rw [Make.suffixed, if_neg]
  rintro ⟨before, rfl⟩
  have le := h before s (List.append_assoc ..)
  have long := List.length_pos_of_ne_nil some
  rw [List.length_append] at le
  omega

theorem suffixed_append (a b w : Text) : suffixed a b (w ++ a) = w ++ b := by
  rw [suffixed, if_pos (List.suffix_append w a), List.length_append, Nat.add_sub_cancel, List.take_left']
  rfl

theorem Final.tail {u : Text} (h : Final a (u ++ s)) : Final a s := by
  intro before after parts
  exact h (u ++ before) after (by rw [parts, List.append_assoc])

theorem Final.cons (h : Final a s) (other : ¬a <+: c :: s) : Final a (c :: s) := by
  intro before after parts
  cases before with
  | nil => exact absurd ⟨after, parts.symm⟩ other
  | cons d before => exact h before after (List.cons.inj parts).2

/-- A blank begins no occurrence of a part of a word. -/
theorem blank_other (some : a ≠ []) (plain : ∀ d ∈ a, blank d = false) (first : blank c = true) : ¬a <+: c :: s := by
  rintro ⟨after, parts⟩
  cases a with
  | nil => exact some rfl
  | cons d a =>
    cases (List.cons.inj parts).1
    cases first.symm.trans (plain c List.mem_cons_self)

theorem Final.append (some : a ≠ []) (plain : ∀ d ∈ a, blank d = false) {r : Text}
    (over_ : ∀ d ∈ r.head?, blank d = true) (rest : ∀ d t, r = d :: t → Final a t) : Final a (a ++ r) := by
  intro before after parts
  rcases List.append_eq_append_iff.mp parts with ⟨x, -, later⟩ | ⟨x, whole, early⟩
  · -- the occurrence is in the rest, and not where the blank is
    cases x with
    | nil =>
      cases r with
      | nil =>
        exact absurd (List.append_eq_nil_iff.mp (List.append_eq_nil_iff.mp later.symm).2).1 some
      | cons d t => exact absurd ⟨after, later.symm⟩ (blank_other some plain (over_ d rfl))
    | cons d x => exact rest d (x ++ (a ++ after)) later x after rfl
  · rcases List.append_eq_append_iff.mp early with ⟨y, long, -⟩ | ⟨y, within, same⟩
    · -- the first one is the occurrence itself
      have lengths := congrArg List.length whole
      have longer := congrArg List.length long
      simp only [List.length_append] at lengths longer
      obtain rfl : y = [] := List.eq_nil_of_length_eq_zero (by omega)
      obtain rfl : before = [] := List.eq_nil_of_length_eq_zero (by omega)
      refine ⟨plain, ?_⟩
      rw [← List.append_cancel_left (parts.trans (List.nil_append _))]
      exact over_
    · cases y with
      | nil =>
        have lengths := congrArg List.length whole
        have longer := congrArg List.length within
        simp only [List.length_append, List.length_nil] at lengths longer
        obtain rfl : before = [] := List.eq_nil_of_length_eq_zero (by omega)
        refine ⟨plain, ?_⟩
        rw [← List.append_cancel_left (parts.trans (List.nil_append _))]
        exact over_
      | cons d y =>
        -- the blank after the first one would be in the second one
        have mem : d ∈ a := within ▸ List.mem_append_right x List.mem_cons_self
        cases (plain d mem).symm.trans (over_ d (by rw [same]; rfl))

theorem replace_other (other : ¬a <+: c :: s) : replace a b 0 (c :: s) = c :: replace a b 0 s := by
  rw [replace, if_neg]
  simp [other]

theorem replace_skip (a b : Text) (n : Nat) (s : Text) : replace a b n s = replace a b 0 (s.drop n) := by
  induction s generalizing n with
  | nil => cases n <;> rfl
  | cons c s ih =>
    cases n with
    | zero => rfl
    | succ n => exact ih n

theorem replace_append (some : a ≠ []) (r : Text) : replace a b 0 (a ++ r) = b ++ replace a b 0 r := by
  cases a with
  | nil => exact absurd rfl some
  | cons c a =>
    rw [List.cons_append, replace, if_pos (by simp), replace_skip]
    simp

/-- Where each occurrence is at the end of a word, `make` replaces the suffixes. -/
theorem replace_final (some : a ≠ []) (before : Before a w s) (final : Final a s) :
    eachword (suffixed a b) w s = w ++ replace a b 0 s := by
  induction length : s.length using Nat.strongRecOn generalizing w s with
  | _ n ih =>
    cases s with
    | nil =>
      rw [eachword, before.suffixed some]
      exact (List.append_nil w).symm
    | cons c t =>
      simp only [List.length_cons] at length
      by_cases here : a <+: c :: t
      · obtain ⟨r, parts⟩ := here
        obtain ⟨plain, over_⟩ := final [] r parts.symm
        obtain ⟨s', words, rest⟩ := eachword_end (f := suffixed a b) (w := w ++ a) over_
        rw [← parts, eachword_plain plain, words, suffixed_append, replace_append some, List.append_assoc]
        rcases rest with ⟨rfl, rfl⟩ | ⟨d, u, rfl, rfl⟩
        · rfl
        · have shorter := congrArg List.length parts
          simp only [List.length_append, List.length_cons] at shorter
          have long := List.length_pos_of_ne_nil some
          have later : Final a u := by
            rw [← parts, ← List.singleton_append, ← List.append_assoc] at final
            exact final.tail
          rw [replace_other (blank_other some plain (over_ d rfl)), ih u.length (by omega) (Before.nil a u) later rfl]
          rfl
      · rw [replace_other here]
        by_cases first : blank c = true
        · rw [eachword, if_pos first, before.suffixed some, ih t.length (by omega) (Before.nil a t) (final.tail (u := [c])) rfl]
          rfl
        · rw [eachword, if_neg first, ih t.length (by omega) (before.snoc here) (final.tail (u := [c])) rfl, List.append_assoc]
          rfl

theorem first_word (s : Text) : ∃ u v, s = u ++ v ∧ (∀ c ∈ u, blank c = false) ∧ ∀ c ∈ v.head?, blank c = true := by
  induction s with
  | nil => exact ⟨[], [], rfl, by simp, by simp⟩
  | cons c s ih =>
    obtain ⟨u, v, rfl, plain, over_⟩ := ih
    by_cases first : blank c = true
    · exact ⟨[], c :: (u ++ v), rfl, by simp, by simpa using first⟩
    · exact ⟨c :: u, v, rfl, List.forall_mem_cons.mpr ⟨by simpa using first, plain⟩, over_⟩

/-- A word that is replaced where an occurrence begins, by a character that is not its first one, is the occurrence. -/
theorem whole_word {d : Char} {t u v v' r : Text} (first : c ∈ a.head?) (apart : d ∉ a.head?) (before : Before a w (c :: t))
    (parts : c :: t = u ++ v) (rest : v = [] ∧ v' = [] ∨ ∃ e x x', v = e :: x ∧ v' = e :: x')
    (same : suffixed a [d] (w ++ u) ++ v' = w ++ d :: r) : u = a ∧ v' = r := by
  have other : c ≠ d := by
    rintro rfl
    exact apart first
  by_cases ends : a <:+ w ++ u
  · obtain ⟨x, word⟩ := ends
    rw [← word, suffixed_append, List.append_assoc] at same
    obtain ⟨y, rfl⟩ : w <+: x := by
      have occurs : w ++ c :: t = x ++ (a ++ v) := by rw [parts, ← List.append_assoc, ← word, List.append_assoc]
      exact List.prefix_of_prefix_length_le ⟨_, occurs⟩ (List.prefix_append _ _) (before x v occurs)
    rw [List.append_assoc] at same word
    have later := List.append_cancel_left same
    have suffix := List.append_cancel_left word
    cases y with
    | nil => exact ⟨suffix.symm, (List.cons.inj later).2⟩
    | cons e y =>
      rw [← suffix] at parts
      exact absurd ((List.cons.inj parts).1.trans (List.cons.inj later).1) other
  · rw [suffixed, if_neg ends, List.append_assoc] at same
    have later := List.append_cancel_left same
    cases u with
    | nil =>
      rcases rest with ⟨rfl, -⟩ | ⟨e, x, x', rfl, rfl⟩
      · cases parts
      · exact absurd ((List.cons.inj parts).1.trans (List.cons.inj later).1) other
    | cons e u => exact absurd ((List.cons.inj parts).1.trans (List.cons.inj later).1) other

/-- Where `make` replaces the suffixes, by a character the suffix does not begin with, no other occurrence is there. -/
theorem final_of_replace (some : a ≠ []) {d : Char} (apart : d ∉ a.head?) (before : Before a w s)
    (same : eachword (suffixed a [d]) w s = w ++ replace a [d] 0 s) : Final a s := by
  induction length : s.length using Nat.strongRecOn generalizing w s with
  | _ n ih =>
    cases s with
    | nil =>
      intro x y parts
      exact absurd (List.append_eq_nil_iff.mp (List.append_eq_nil_iff.mp parts.symm).2).1 some
    | cons c t =>
      simp only [List.length_cons] at length
      by_cases here : a <+: c :: t
      · obtain ⟨r, occurs⟩ := here
        have first : c ∈ a.head? := by
          cases a with
          | nil => exact absurd rfl some
          | cons e a =>
            cases (List.cons.inj occurs).1
            rfl
        obtain ⟨u, v, split, plain, over_⟩ := first_word (c :: t)
        obtain ⟨v', words, rest⟩ := eachword_end (f := suffixed a [d]) (w := w ++ u) over_
        have replaced : replace a [d] 0 (c :: t) = d :: replace a [d] 0 r := by
          rw [← occurs, replace_append some]
          rfl
        rw [replaced, split, eachword_plain plain, words] at same
        have ends : v = [] ∧ v' = [] ∨ ∃ e x x', v = e :: x ∧ v' = e :: x' :=
          rest.imp_right fun ⟨e, x, h, h'⟩ => ⟨e, x, _, h, h'⟩
        obtain ⟨rfl, later⟩ := whole_word first apart before split ends same
        obtain rfl : r = v := List.append_cancel_left (occurs.trans split)
        rw [← occurs]
        refine Final.append some plain over_ fun e x h => ?_
        rcases rest with ⟨rfl, -⟩ | ⟨e', x', rfl, rfl⟩
        · cases h
        · cases h
          rw [replace_other (blank_other some plain (over_ e rfl))] at later
          have shorter := congrArg List.length occurs
          simp only [List.length_append, List.length_cons] at shorter
          exact ih x.length (by omega) (Before.nil u x) (List.cons.inj later).2 rfl
      · rw [replace_other here] at same
        refine Final.cons ?_ here
        by_cases first : blank c = true
        · rw [eachword, if_pos first, before.suffixed some] at same
          exact ih t.length (by omega) (Before.nil a t) (List.cons.inj (List.append_cancel_left same)).2 rfl
        · rw [eachword, if_neg first] at same
          exact ih t.length (by omega) (before.snoc here) (by rw [same, List.append_assoc]; rfl) rfl

end

/-! ## The reference -/

theorem pushed_eq {table : Macros} {steps : Nat} {name a b s : Text} {taken : Bool} (writable : Writable name a b)
    (value : expandstring table steps none (.line ( getmacro table name)) = some ⟨.ok s, taken⟩) :
    pushed table steps name a b = some (replace a b 0 s) := by
  simp [pushed, writable.expansion, value]

/-- A line with the reference alone is expanded to what is pushed for it, where no `$` is in that. -/
theorem pushed_line {table : Macros} {steps : Nat} {name a b s : Text} {taken : Bool} (writable : Writable name a b)
    (value : expandstring table steps none (.line ( getmacro table name)) = some ⟨.ok s, taken⟩)
    (free : '$' ∉ replace a b 0 s) (tp : Option Tp) :
    ∃ n, expandstring table n tp (.line ('$' :: substitution name a b)) = some ⟨.ok (replace a b 0 s), taken⟩ := by
  have single : ((Input.line (substitution name a b)).map Prod.fst).head? ≠ some '$' := by
    rw [line_fst]
    exact fun same => absurd (Option.some.inj same) (by decide)
  have read : expansion ((Input.line (substitution name a b)).map Prod.fst) =
      .ok (.macro_ name a b, (substitution name a b).length) := by
    rw [line_fst, writable.expansion]
  have none_left : (Input.line (substitution name a b)).drop (substitution name a b).length = [] := by
    rw [line_drop, List.drop_length]
    rfl
  have ends : expandstring table (steps + 1) tp [] = some ⟨.ok [], false⟩ := rfl
  have text := push_run free ends
  have later := expandstring_mono value (show steps ≤ steps + 1 + (replace a b 0 s).length by omega)
  refine ⟨steps + 1 + (replace a b 0 s).length + 1, ?_⟩
  refine (expandstring_value single read).trans ?_
  rw [later, none_left]
  refine (congrArg (Option.map _) text).trans ?_
  simp [Expanded.prepend, Expanded.take]

/-- The references that substitute `a` in a value are the suffixes of its words replaced, exactly where each occurrence of
`a` in the value is at the end of a word. -/
theorem suffixes_iff {table : Macros} {steps : Nat} {name a s : Text} {taken : Bool} (writable : Writable name a [])
    (value : expandstring table steps none (.line ( getmacro table name)) = some ⟨.ok s, taken⟩) :
    (∀ b, Writable name a b → pushed table steps name a b = some (posix a b s)) ↔ Final a s := by
  have some := writable.repl.1
  have pushes : ∀ b, Writable name a b → pushed table steps name a b = Option.some (replace a b 0 s) := by
    exact fun b writable => pushed_eq writable value
  constructor
  · intro all
    obtain ⟨d, paren, apart⟩ : ∃ d, d ≠ ')' ∧ d ∉ a.head? := by
      by_cases x : a.head? = Option.some 'x'
      · exact ⟨'y', by decide, by simp [x]⟩
      · exact ⟨'x', by decide, x⟩
    have one : Writable name a [d] := ⟨writable.name, writable.repl, by simpa using paren, by simp [MAXREPL]⟩
    have same := Option.some.inj ((all [d] one).symm.trans (pushes [d] one))
    exact final_of_replace some apart (Before.nil a s) same
  · intro final b writable
    rw [pushes b writable, posix, replace_final some (Before.nil a s) final]
    rfl

/-- The sources of a program, and a value with the suffix twice in one word. -/
def sources : Macros := [(['S'], ['a', '.', 'c', ' ', 'b', '.', 'c']), (['T'], ['a', '.', 'c', '.', 'c'])]

theorem dot_c_writable {name b : Text} (named : name = ['S'] ∨ name = ['T']) (short : b = [] ∨ b = ['.', 'o']) :
    Writable name ['.', 'c'] b := by
  have names : name ≠ [] ∧ (∀ c ∈ name, validchar c = true) ∧ name.length < MAXTOKEN := by
    rcases named with rfl | rfl <;> exact ⟨by simp, List.forall_mem_singleton.mpr rfl, by simp [MAXTOKEN]⟩
  have others : (∀ c ∈ b, c ≠ ')') ∧ b.length < MAXREPL := by
    rcases short with rfl | rfl <;> simp [MAXREPL]
  exact ⟨names, by simp [MAXREPL], others⟩

theorem dot_c_final : Final ['.', 'c'] ['a', '.', 'c', ' ', 'b', '.', 'c'] := by
  have plain : ∀ d ∈ ['.', 'c'], blank d = false := by simp [blank]
  have last : Final ['.', 'c'] ['b', '.', 'c'] := by
    refine Final.cons (Final.append (r := []) (by simp) plain (by simp) ?_) (by simp)
    rintro d t ⟨⟩
  refine Final.cons (Final.append (r := [' ', 'b', '.', 'c']) (by simp) plain (by simp [blank]) ?_) (by simp)
  rintro d t ⟨⟩
  exact last

theorem sources_objects :
    pushed sources 20 ['S'] ['.', 'c'] ['.', 'o'] = some ['a', '.', 'o', ' ', 'b', '.', 'o'] := by
  have value : expandstring sources 20 none (.line ( getmacro sources ['S'])) =
      some ⟨.ok ['a', '.', 'c', ' ', 'b', '.', 'c'], false⟩ := rfl
  have all := (suffixes_iff (dot_c_writable (.inl rfl) (.inl rfl)) value).mpr dot_c_final
  exact all ['.', 'o'] (dot_c_writable (.inl rfl) (.inr rfl))

/-- The first `.c` of `a.c.c` is replaced too. -/
theorem twice_replaced :
    pushed sources 20 ['T'] ['.', 'c'] ['.', 'o'] = some ['a', '.', 'o', '.', 'o'] ∧
      posix ['.', 'c'] ['.', 'o'] ( getmacro sources ['T']) = ['a', '.', 'c', '.', 'o'] := by
  decide

end Scc.Make
