import Mathlib.Data.List.TakeWhile
import Scc.Libc.String.Span

set_option linter.all false

/-! `strtok` (string/strtok.c), which keeps in `line` where it goes on. Places of the string are indices of its bytes. -/
namespace Scc.Libc.Strtok
open Strings

structure State where
  buf : List UInt8
  line : Option Nat

/-- The place that is returned, and the state after it. Nothing is returned where a set has no map. -/
def strtok (s1 : Option Nat) (s2 : CString) (s : State) : Option (Option Nat × State) :=
  match s1 <|> s.line with
  | none => some (none, s)
  | some line => do
    let s1 := line + (← strspn (s.buf.drop line) s2)
    if (← s.buf[s1]?) = 0 then return (none, { s with line := none })
    else
      let line := s1 + (← strcspn (s.buf.drop s1) s2)
      if (← s.buf[line]?) = 0 then return (some s1, { s with line := none })
      else return (some s1, ⟨s.buf.set line 0, some (line + 1)⟩)

/-- The string at a place, for the caller. -/
def string (buf : List UInt8) (s1 : Nat) : List UInt8 := (buf.drop s1).takeWhile (· != 0)

/-- Successive calls, the first of which may give a string: the places that are returned and the strings found there. -/
def calls : Option Nat → List CString → State → Option (List (Option (Nat × List UInt8)) × State)
  | _, [], s => some ([], s)
  | s1, s2 :: sets, s => do
    let (place, s) ← strtok s1 s2 s
    let (results, last) ← calls none sets s
    return (place.map (fun place => (place, string s.buf place)) :: results, last)

/-! ## The tokens -/

/-- The next token of what is left: a maximal run of characters outside of the set, after none or some of the set. -/
structure Token (s2 : CString) (rest gap token after : List UInt8) : Prop where
  split : rest = gap ++ (token ++ after)
  gap : ∀ c ∈ gap, s2.has c = true
  nonempty : token ≠ []
  token : ∀ c ∈ token, s2.has c = false
  maximal : ∀ c ∈ after.head?, s2.has c = true

/-- The results of calls that go on after some bytes with the rest of a string, and all of its bytes in the end. -/
inductive Enumerates : List UInt8 → Option (List UInt8) → List CString → List (Option (Nat × List UInt8)) → List UInt8 → Prop
  | done (before : List UInt8) (rest : Option (List UInt8)) : Enumerates before rest [] [] (before ++ rest.getD [])
  | null (s2 : CString) (later : Enumerates before none sets results bytes) :
      Enumerates before none (s2 :: sets) (none :: results) bytes
  | none (gap : ∀ c ∈ rest, s2.has c = true) (later : Enumerates (before ++ rest) none sets results bytes) :
      Enumerates before (some rest) (s2 :: sets) (none :: results) bytes
  | last (next : Token s2 rest gap token []) (later : Enumerates (before ++ rest) none sets results bytes) :
      Enumerates before (some rest) (s2 :: sets) (some (before.length + gap.length, token) :: results) bytes
  | token (next : Token s2 rest gap token (c :: after))
      (later : Enumerates (before ++ gap ++ token ++ [0]) (some after) sets results bytes) :
      Enumerates before (some rest) (s2 :: sets) (some (before.length + gap.length, token) :: results) bytes

/-- Calls of which the first gives a string enumerate its tokens, and change no byte of it but the delimiter after each of
them, whatever is kept from before. -/
def Right (text : CString) (sets : List CString) : Prop :=
  ∀ kept, ∃ results bytes last, calls (some 0) sets ⟨text.bytes ++ [0], kept⟩ = some (results, last) ∧
    last.buf = bytes ++ [0] ∧ Enumerates [] (some text.bytes) sets results bytes

/-! ## The characters that are looked at -/

/-- What is left after the token, its delimiter included. -/
def after (s2 : CString) (rest : List UInt8) : List UInt8 := (rest.dropWhile s2.has).dropWhile (!s2.has ·)

/-- All the characters of the sets and of the string that the calls look at are indices of the map. -/
def Narrow : Option (List UInt8) → List CString → Prop
  | some rest, s2 :: sets =>
    s2.Inside true rest ∧ s2.Inside false (rest.dropWhile s2.has) ∧ Narrow (after s2 rest).tail? sets
  | _, _ => True

variable {s2 : CString} {sets : List CString} {s : State} {s1 : Option Nat} {before rest : List UInt8}

theorem token_next {c : UInt8} {text : List UInt8} (found : rest.dropWhile s2.has = c :: text) :
    Token s2 rest (rest.takeWhile s2.has) ((c :: text).takeWhile (!s2.has ·)) (after s2 rest) := by
  have head : s2.has c = false := by
    have stop := List.head?_dropWhile_not s2.has rest
    rw [found] at stop
    simpa using stop
  constructor
  · unfold after
    rw [found, List.takeWhile_append_dropWhile, ← found, List.takeWhile_append_dropWhile]
  · exact fun _ member => List.mem_takeWhile_imp member
  · simp [head]
  · intro c member
    simpa using List.mem_takeWhile_imp member
  · intro d member
    have stop := List.head?_dropWhile_not (!s2.has ·) (rest.dropWhile s2.has)
    rw [← after, Option.mem_def.mp member] at stop
    simpa using stop

section
variable {line n m : Nat} {c d : UInt8}

theorem strtok_stop (start : (s1 <|> s.line) = some line) (skip : strspn (s.buf.drop line) s2 = some n)
    (stop : s.buf[line + n]? = some 0) : strtok s1 s2 s = some (none, ⟨s.buf, none⟩) := by
  simp [strtok, start, skip, stop]

theorem strtok_token (start : (s1 <|> s.line) = some line) (skip : strspn (s.buf.drop line) s2 = some n)
    (first : s.buf[line + n]? = some c) (more : c ≠ 0) (take : strcspn (s.buf.drop (line + n)) s2 = some m)
    (next : s.buf[line + n + m]? = some d) :
    strtok s1 s2 s = some (some (line + n), if d = 0 then ⟨s.buf, none⟩ else ⟨s.buf.set (line + n + m) 0, some (line + n + m + 1)⟩) := by
  unfold strtok
  rw [start]
  by_cases last : d = 0 <;> simp [skip, first, more, take, next, last]

theorem strtok_skipless (start : (s1 <|> s.line) = some line) (skip : strspn (s.buf.drop line) s2 = none) :
    strtok s1 s2 s = none := by
  unfold strtok
  rw [start]
  simp [skip]

theorem strtok_takeless (start : (s1 <|> s.line) = some line) (skip : strspn (s.buf.drop line) s2 = some n)
    (first : s.buf[line + n]? = some c) (more : c ≠ 0) (take : strcspn (s.buf.drop (line + n)) s2 = none) :
    strtok s1 s2 s = none := by
  unfold strtok
  rw [start]
  simp [skip, first, more, take]

end

/-- The first character of a token is the one after the characters that are skipped. -/
theorem at_token {c : UInt8} {text : List UInt8} (buf : s.buf = before ++ (rest ++ [0])) (found : rest.dropWhile s2.has = c :: text) :
    s.buf.drop (before.length + (rest.takeWhile s2.has).length) = c :: text ++ [0] ∧
      s.buf[before.length + (rest.takeWhile s2.has).length]? = some c := by
  have whole : rest = rest.takeWhile s2.has ++ c :: text := by
    rw [← found, List.takeWhile_append_dropWhile]
  have dropped : s.buf.drop (before.length + (rest.takeWhile s2.has).length) = c :: text ++ [0] := by
    have tail : s.buf = (before ++ rest.takeWhile s2.has) ++ (c :: text ++ [0]) := by
      rw [buf, List.append_assoc, ← List.append_assoc _ (c :: text), ← whole]
    rw [tail, ← List.length_append, List.drop_left]
  have first := @List.getElem?_drop _ s.buf (before.length + (rest.takeWhile s2.has).length) 0
  rw [dropped] at first
  exact ⟨dropped, first.symm⟩

/-- A call that goes on after some bytes with the rest of the string, in the three ways that it can end. -/
theorem strtok_narrow (start : (s1 <|> s.line) = some before.length) (buf : s.buf = before ++ (rest ++ [0]))
    (nonzero : ∀ c ∈ rest, c ≠ 0) (skip : s2.Inside true rest) (take : s2.Inside false (rest.dropWhile s2.has)) :
    (∀ c ∈ rest, s2.has c = true) ∧ after s2 rest = [] ∧ strtok s1 s2 s = some (none, ⟨s.buf, none⟩) ∨
      ∃ gap token, Token s2 rest gap token (after s2 rest) ∧
        match after s2 rest with
        | [] => strtok s1 s2 s = some (some (before.length + gap.length), ⟨s.buf, none⟩)
        | _ :: after => strtok s1 s2 s = some (some (before.length + gap.length),
            ⟨(before ++ gap ++ token ++ [0]) ++ (after ++ [0]), some (before ++ gap ++ token ++ [0]).length⟩) := by
  have spans : strspn (s.buf.drop before.length) s2 = some (rest.takeWhile s2.has).length := by
    rw [buf, List.drop_left]
    exact (span_inside nonzero skip).trans (by simp)
  cases found : rest.dropWhile s2.has with
  | nil =>
    have all : rest.takeWhile s2.has = rest := by
      have parts := List.takeWhile_append_dropWhile (p := s2.has) (l := rest)
      rwa [found, List.append_nil] at parts
    refine .inl ⟨List.takeWhile_eq_self_iff.mp all, by rw [after, found]; rfl, strtok_stop start spans ?_⟩
    rw [buf, all]
    simp
  | cons c text =>
    have next := token_next found
    refine .inr ⟨_, _, next, ?_⟩
    rw [found] at take
    have whole : rest = rest.takeWhile s2.has ++ c :: text := by
      rw [← found, List.takeWhile_append_dropWhile]
    have parts : c :: text = (c :: text).takeWhile (!s2.has ·) ++ after s2 rest := by
      rw [after, found, List.takeWhile_append_dropWhile]
    have spans' : strcspn (c :: text ++ [0]) s2 = some ((c :: text).takeWhile (!s2.has ·)).length :=
      (span_inside (fun d member => nonzero d (whole ▸ List.mem_append_right _ member)) take).trans (by simp)
    obtain ⟨dropped, first⟩ := at_token buf found
    generalize rest.takeWhile s2.has = gap at *
    generalize ((c :: text).takeWhile (!s2.has ·)) = token at *
    have more : c ≠ 0 := nonzero c (by rw [whole]; simp)
    have end' : s.buf = (before ++ gap ++ token) ++ (after s2 rest ++ [0]) := by
      have split := next.split
      generalize after s2 rest = later at split ⊢
      rw [buf, split]
      simp
    have place : before.length + gap.length + token.length = (before ++ gap ++ token).length := by
      simp only [List.length_append]
    rw [← dropped] at spans'
    cases last : after s2 rest with
    | nil =>
      refine (strtok_token start spans first more spans' (d := 0) ?_).trans (by simp)
      rw [end', place, last]
      simp
    | cons d later =>
      have other : d ≠ 0 := nonzero d (by rw [whole, parts, last]; simp)
      refine (strtok_token start spans first more spans' (d := d) ?_).trans ?_
      · rw [end', place, last]
        simp
      · rw [if_neg other, place, end', last]
        simp [Nat.add_assoc]

/-- A call for which the map is too small. -/
theorem strtok_wide (start : (s1 <|> s.line) = some before.length) (buf : s.buf = before ++ (rest ++ [0]))
    (nonzero : ∀ c ∈ rest, c ≠ 0) (wide : ¬(s2.Inside true rest ∧ s2.Inside false (rest.dropWhile s2.has))) :
    strtok s1 s2 s = none := by
  have dropped : s.buf.drop before.length = rest ++ [0] := by
    rw [buf, List.drop_left]
  by_cases skip : s2.Inside true rest
  · have spans : strspn (s.buf.drop before.length) s2 = some (rest.takeWhile s2.has).length := by
      rw [dropped]
      exact (span_inside nonzero skip).trans (by simp)
    cases found : rest.dropWhile s2.has with
    | nil =>
      refine absurd ⟨skip, skip.1, ?_⟩ wide
      rw [found]
      exact fun _ member => nomatch member
    | cons c text =>
      obtain ⟨dropped', first⟩ := at_token buf found
      have inside : ∀ d ∈ c :: text, d ≠ 0 := fun d member => nonzero d ((List.dropWhile_sublist _).subset (found ▸ member))
      apply strtok_takeless start spans first (inside c List.mem_cons_self)
      rw [dropped']
      exact span_outside inside (found ▸ fun take => wide ⟨skip, take⟩)
  · apply strtok_skipless start
    rw [dropped]
    exact span_outside nonzero skip

theorem string_token {gap token after : List UInt8} (plain : ∀ c ∈ token, c ≠ 0) :
    string (before ++ gap ++ token ++ 0 :: after) (before.length + gap.length) = token := by
  have place : before.length + gap.length = (before ++ gap).length := by simp
  unfold string
  rw [List.append_assoc, place, List.drop_left, List.takeWhile_append_of_pos (by simpa using plain)]
  simp

/-! ## Runs -/

theorem narrow_none (sets : List CString) : Narrow none sets := by
  cases sets <;> trivial

theorem calls_cons {s' last : State} {place : Option Nat} {results : List (Option (Nat × List UInt8))}
    (call : strtok s1 s2 s = some (place, s')) (run : calls none sets s' = some (results, last)) :
    calls s1 (s2 :: sets) s = some (place.map (fun place => (place, string s'.buf place)) :: results, last) := by
  simp [calls, call, run]

/-- With nothing left, every call returns null. -/
theorem calls_null (sets : List CString) (bytes : List UInt8) :
    ∃ results, calls none sets ⟨bytes ++ [0], none⟩ = some (results, ⟨bytes ++ [0], none⟩) ∧
      Enumerates bytes none sets results bytes := by
  induction sets with
  | nil => exact ⟨[], rfl, by simpa using Enumerates.done bytes none⟩
  | cons s2 sets ih =>
    obtain ⟨results, run, all⟩ := ih
    have call : strtok none s2 ⟨bytes ++ [0], none⟩ = some (none, ⟨bytes ++ [0], none⟩) := rfl
    exact ⟨none :: results, calls_cons call run, .null s2 all⟩

theorem goes_from_start (kept : Option Nat) : (some 0 <|> kept) = some ([] : List UInt8).length := rfl

theorem goes_on (bytes : List UInt8) : ((none : Option Nat) <|> some bytes.length) = some bytes.length := rfl

theorem calls_narrow (start : (s1 <|> s.line) = some before.length) (buf : s.buf = before ++ (rest ++ [0]))
    (nonzero : ∀ c ∈ rest, c ≠ 0) (narrow : Narrow (some rest) sets) :
    ∃ results bytes last, calls s1 sets s = some (results, last) ∧ last.buf = bytes ++ [0] ∧
      Enumerates before (some rest) sets results bytes := by
  induction sets generalizing s1 s before rest with
  | nil => exact ⟨[], before ++ rest, s, rfl, by rw [buf, List.append_assoc], .done before (some rest)⟩
  | cons s2 sets ih =>
    obtain ⟨skip, take, later⟩ := narrow
    have whole : s.buf = before ++ rest ++ [0] := by rw [buf, List.append_assoc]
    obtain ⟨results, run, all⟩ := calls_null sets (before ++ rest)
    rw [← whole] at run
    obtain ⟨gap, -, call⟩ | ⟨gap, token, next, call⟩ := strtok_narrow start buf nonzero skip take
    · exact ⟨none :: results, before ++ rest, _, calls_cons call run, whole, .none gap all⟩
    have split := next.split
    have plain : ∀ c ∈ token, c ≠ 0 := fun c member => nonzero c (by rw [split]; simp [member])
    have seen : ∀ after, string (before ++ gap ++ token ++ 0 :: after) (before.length + gap.length) = token :=
      fun _ => string_token plain
    cases found : after s2 rest with
    | nil =>
      rw [found] at next call split
      have there : string s.buf (before.length + gap.length) = token := by
        rw [whole, split, List.append_nil, ← List.append_assoc]
        exact seen []
      have first := calls_cons call run
      rw [Option.map_some, there] at first
      exact ⟨_, before ++ rest, _, first, whole, .last next all⟩
    | cons c text =>
      rw [found] at next call later
      have inside : ∀ d ∈ text, d ≠ 0 := fun d member => nonzero d (by rw [next.split]; simp [member])
      obtain ⟨results, bytes, last, run, buf', all⟩ := ih (s := ⟨_, some (before ++ gap ++ token ++ [0]).length⟩)
        (goes_on _) rfl inside later
      have first := calls_cons call run
      have there := seen (text ++ [0])
      rw [List.append_cons] at there
      rw [Option.map_some, there] at first
      exact ⟨_, bytes, last, first, buf', .token next all⟩

theorem calls_wide (start : (s1 <|> s.line) = some before.length) (buf : s.buf = before ++ (rest ++ [0]))
    (nonzero : ∀ c ∈ rest, c ≠ 0) (wide : ¬Narrow (some rest) sets) : calls s1 sets s = none := by
  induction sets generalizing s1 s before rest with
  | nil => exact absurd trivial wide
  | cons s2 sets ih =>
    by_cases inside : s2.Inside true rest ∧ s2.Inside false (rest.dropWhile s2.has)
    · obtain ⟨gap, none, -⟩ | ⟨gap, token, next, call⟩ := strtok_narrow start buf nonzero inside.1 inside.2
      · refine absurd ⟨inside.1, inside.2, ?_⟩ wide
        rw [none]
        exact narrow_none sets
      cases found : after s2 rest with
      | nil =>
        refine absurd ⟨inside.1, inside.2, ?_⟩ wide
        rw [found]
        exact narrow_none sets
      | cons c text =>
        rw [found] at next call
        have plain : ∀ d ∈ text, d ≠ 0 := fun d member => nonzero d (by rw [next.split]; simp [member])
        have later : ¬Narrow (some text) sets := fun narrow => wide ⟨inside.1, inside.2, found ▸ narrow⟩
        have stuck := ih (s := ⟨_, some (before ++ gap ++ token ++ [0]).length⟩) (goes_on _) rfl plain later
        unfold calls
        rw [call]
        exact congrArg (· >>= _) stuck
    · unfold calls
      rw [strtok_wide start buf nonzero inside]
      rfl

/-- The tokens are enumerated exactly where no character that is looked at lies outside of the map. -/
theorem strtok_iff (text : CString) (sets : List CString) : Right text sets ↔ Narrow (some text.bytes) sets := by
  constructor
  · intro right
    by_contra wide
    obtain ⟨results, bytes, last, run, -⟩ := right none
    rw [calls_wide (goes_from_start none) rfl text.nonzero wide] at run
    cases run
  · intro narrow kept
    exact calls_narrow (goes_from_start kept) rfl text.nonzero narrow

/-- A letter of two bytes, of which neither is an index of the map. -/
theorem accent_outside : ¬Right ⟨[0xC3, 0xA9], by simp⟩ [⟨[44], by simp⟩] := by
  intro right
  obtain ⟨results, bytes, last, run, -⟩ := right none
  have wide : ¬Narrow (some [0xC3, 0xA9]) [⟨[44], by simp⟩] :=
    fun narrow => absurd (narrow.1.2 0xC3 List.mem_cons_self) (by decide)
  rw [calls_wide (goes_from_start none) rfl (by simp) wide] at run
  cases run

end Scc.Libc.Strtok
