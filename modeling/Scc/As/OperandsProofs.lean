import Mathlib.Data.List.TakeWhile
import Scc.As.Operands
import Scc.As.Changes

set_option linter.all false

/-! Which operand fields are split. -/
namespace Scc.As.Args
open Transition Fields

/-! ## The tokens -/

/-- The current label is in the table. -/
def Reader.Linked (r : Reader) : Prop := ∀ cur ∈ r.state.cursym, cur < r.state.syms.length

/-- What a token leaves. -/
structure Scanned (r r' : Reader) : Prop where
  linked : r'.Linked
  mode : r'.regmode = r.regmode
  cursor : r'.textp = r'.endp
  suffix : r'.endp <:+ r.endp

/-- More than nothing, which fits. -/
structure Progress (r r' : Reader) : Prop where
  shorter : r'.endp.length < r.endp.length
  fits : r'.yytext.length ≤ INTIDENTSIZ

/-- There is an error, or a reader with the property. -/
def Gives (result : M Reader) (P : Reader → Prop) : Prop := (∃ msg, result = .error (.error msg)) ∨ ∃ r, result = .ok r ∧ P r

theorem Gives.error {result : M Reader} {P : Reader → Prop} {stop : Stop} (failed : result = .error stop)
    (ends : ∃ msg, stop = .error msg) : Gives result P := by
  obtain ⟨msg, rfl⟩ := ends
  exact .inl ⟨msg, failed⟩

theorem Gives.ok {result : M Reader} {P : Reader → Prop} {r : Reader} (gives : Gives result P) (read : result = .ok r) : P r := by
  rcases gives with ⟨msg, failed⟩ | ⟨r', read', holds⟩
  · cases failed.symm.trans read
  · cases read'.symm.trans read
    exact holds

namespace Reader
variable {r r' : Reader} {stop : Stop} {c : Char} {text : List Char}

theorem tok2str_ok (read : r.tok2str = .ok r') :
    ∃ text, text.length ≤ INTIDENTSIZ ∧ r' = { r with yytext := text, textp := r.endp } ∧
      text = r.textp.take (r.textp.length - r.endp.length) := by
  obtain ⟨text, taken, same⟩ := bind_ok.mp read
  cases same
  rw [Numbers.tok2str] at taken
  split at taken
  · cases taken
  · rename_i short
    cases taken
    exact ⟨_, (List.length_take_le _ _).trans (Nat.le_of_not_lt short), rfl, rfl⟩

theorem tok2str_error (read : r.tok2str = .error stop) : ∃ msg, stop = .error msg := by
  rcases bind_error.mp read with taken | ⟨text, -, same⟩
  · rw [Numbers.tok2str] at taken
    split at taken
    · cases taken
      exact ⟨_, rfl⟩
    · cases taken
  · cases same

/-- A name is found in the table. -/
theorem lookup_there {s s' : State} {name : Name} {i : Nat} (looked : s.lookup name = .ok (s', i)) : ∃ sym, s'.sym i = .ok sym := by
  have there : ∃ sym : Symbol, s'.syms[i]? = some sym := by
    obtain ⟨name', -, ⟨found, rfl⟩ | ⟨-, rfl, rfl⟩⟩ := State.lookup_cases looked
    · obtain ⟨inside, -⟩ := List.findIdx?_eq_some_iff_getElem.mp found
      exact ⟨_, List.getElem?_eq_getElem inside⟩
    · exact ⟨_, List.getElem?_concat_length⟩
  obtain ⟨sym, there⟩ := there
  exact ⟨sym, by rw [State.sym, there]⟩

theorem lookup_error {s : State} {name : Name} (linked : ∀ cur ∈ s.cursym, cur < s.syms.length)
    (looked : s.lookup name = .error stop) : ∃ msg, stop = .error msg := by
  rcases bind_error.mp looked with failed | ⟨name', -, failed⟩
  · rw [State.qualify] at failed
    split at failed
    · rename_i cur _ current
      obtain ⟨sym, found⟩ : ∃ sym, s.sym cur = .ok sym := by
        rw [State.sym, List.getElem?_eq_getElem (linked cur current)]
        exact ⟨_, rfl⟩
      rw [found] at failed
      change (if _ then _ else _) = _ at failed
      split at failed
      · cases failed
        exact ⟨_, rfl⟩
      · cases failed
    · cases failed
  · split at failed <;> cases failed

theorem iden_gives (linked : r.Linked) :
    Gives r.iden fun r' => Scanned r r' ∧ r'.endp = r.endp.dropWhile idchar ∧ r'.yytext.length ≤ INTIDENTSIZ := by
  cases read : r.iden with
  | error stop =>
    apply Gives.error rfl
    rcases bind_error.mp read with copied | ⟨r₁, copied, read⟩
    · exact tok2str_error copied
    obtain ⟨text, -, rfl, -⟩ := tok2str_ok copied
    rcases bind_error.mp read with looked | ⟨⟨s, i⟩, looked, read⟩
    · exact lookup_error linked looked
    · obtain ⟨sym, there⟩ := lookup_there looked
      rcases bind_error.mp read with missing | ⟨sym', -, same⟩
      · cases missing.symm.trans there
      · cases same
  | ok r' =>
    obtain ⟨r₁, copied, read⟩ := bind_ok.mp read
    obtain ⟨text, short, rfl, -⟩ := tok2str_ok copied
    obtain ⟨⟨s, i⟩, looked, read⟩ := bind_ok.mp read
    obtain ⟨sym, -, same⟩ := bind_ok.mp read
    cases same
    refine .inr ⟨_, rfl, ⟨?_, rfl, rfl, List.dropWhile_suffix _⟩, rfl, short⟩
    obtain ⟨name', -, ⟨-, rfl⟩ | ⟨-, rfl, rfl⟩⟩ := State.lookup_cases looked
    · exact linked
    · intro cur current
      exact (linked cur current).trans_le (by simp)

theorem digitLoop_suffix {base n v : Nat} {text rest : List Char} (read : Numbers.digitLoop base text n = .ok (v, rest)) :
    rest <:+ text := by
  induction text generalizing n with
  | nil =>
    cases read
    exact List.suffix_refl _
  | cons c text ih =>
    unfold Numbers.digitLoop at read
    split at read
    · split at read
      · cases read
      · split at read
        · cases read
        · exact (ih read).trans (List.suffix_cons _ _)
    · cases read
      exact List.suffix_refl _

theorem digitLoop_error {base n : Nat} {text : List Char} (read : Numbers.digitLoop base text n = .error stop) :
    ∃ msg, stop = .error msg := by
  induction text generalizing n with
  | nil => cases read
  | cons c text ih =>
    unfold Numbers.digitLoop at read
    split at read
    · split at read
      · cases read
        exact ⟨_, rfl⟩
      · split at read
        · cases read
          exact ⟨_, rfl⟩
        · exact ih read
    · cases read

theorem isxdigit_digit (digit : c.isDigit = true) : Numbers.isxdigit c = true := by
  obtain ⟨first, second⟩ := Bool.and_eq_true_iff.mp digit
  have low : 48 ≤ c.toNat := UInt32.le_iff_toNat_le.mp (of_decide_eq_true first)
  have high : c.toNat ≤ 57 := UInt32.le_iff_toNat_le.mp (of_decide_eq_true second)
  rw [← Char.ofNat_toNat c]
  generalize c.toNat = n at low high
  have ten : n = 48 ∨ n = 49 ∨ n = 50 ∨ n = 51 ∨ n = 52 ∨ n = 53 ∨ n = 54 ∨ n = 55 ∨ n = 56 ∨ n = 57 := by omega
  rcases ten with rfl | rfl | rfl | rfl | rfl | rfl | rfl | rfl | rfl | rfl <;> rfl

/-- A digit is read. -/
theorem digitLoop_digit {base n v : Nat} {rest : List Char} (digit : c.isDigit = true)
    (read : Numbers.digitLoop base (c :: text) n = .ok (v, rest)) : rest <:+ text := by
  unfold Numbers.digitLoop at read
  rw [if_pos (isxdigit_digit digit)] at read
  split at read
  · cases read
  · split at read
    · cases read
    · exact digitLoop_suffix read

/-- A number takes the digit that it starts with. -/
theorem number_rest {v : Nat} {rest : List Char} (digit : c.isDigit = true) (read : Numbers.number (c :: text) = .ok (v, rest)) :
    rest <:+ text := by
  obtain ⟨⟨n, endp⟩, looped, read⟩ := bind_ok.mp read
  obtain ⟨_, -, same⟩ := bind_ok.mp read
  cases same
  revert looped
  unfold Numbers.radix
  split
  · rename_i same
    cases same
    exact fun looped => (digitLoop_suffix looped).trans (List.suffix_cons _ _)
  · rename_i same
    cases same
    exact digitLoop_suffix
  · exact digitLoop_digit digit

theorem number_gives (linked : r.Linked) (starts : r.endp = c :: text) (digit : c.isDigit = true) :
    Gives r.number fun r' => Scanned r r' ∧ Progress r r' := by
  cases read : r.number with
  | error stop =>
    apply Gives.error rfl
    rcases bind_error.mp read with failed | ⟨⟨n, endp⟩, -, read⟩
    · rcases bind_error.mp failed with looped | ⟨⟨n, endp⟩, -, failed⟩
      · exact digitLoop_error looped
      · rcases bind_error.mp failed with copied | ⟨_, -, same⟩
        · rw [Numbers.tok2str] at copied
          split at copied
          · cases copied
            exact ⟨_, rfl⟩
          · cases copied
        · cases same
    · rcases bind_error.mp read with copied | ⟨_, -, same⟩
      · exact tok2str_error copied
      · cases same
  | ok r' =>
    obtain ⟨⟨n, endp⟩, value, read⟩ := bind_ok.mp read
    obtain ⟨r₁, copied, same⟩ := bind_ok.mp read
    obtain ⟨_, short, rfl, -⟩ := tok2str_ok copied
    cases same
    rw [starts] at value
    have rest := number_rest digit value
    refine .inr ⟨_, rfl, ⟨linked, rfl, rfl, starts ▸ rest.trans (List.suffix_cons c text)⟩, ?_, short⟩
    rw [starts]
    exact Nat.lt_succ_of_le rest.length_le

/-- Without a second quote the loop of `string` runs out of the text. -/
theorem string_open (starts : r.endp = '"' :: text) (closed : '"' ∉ text) : r.string = .error .fault := by
  have none : text.dropWhile (· ≠ '"') = [] := by
    rw [List.dropWhile_eq_nil_iff]
    intro c mem
    exact decide_eq_true fun same => closed (same ▸ mem)
  rw [string, starts, List.tail_cons, none]

theorem string_gives (linked : r.Linked) (starts : r.endp = '"' :: text) (closed : '"' ∈ text) :
    Gives r.string fun r' => Scanned r r' ∧ Progress r r' := by
  have suffix := List.dropWhile_suffix (l := text) (· ≠ '"')
  unfold string
  rw [starts, List.tail_cons]
  cases rest : text.dropWhile (· ≠ '"') with
  | nil =>
    have all := List.dropWhile_eq_nil_iff.mp rest '"' closed
    simp at all
  | cons c endp =>
    rw [rest] at suffix
    have inside := (List.suffix_cons c endp).trans suffix
    dsimp only
    cases read : tok2str { r with endp := endp } with
    | error stop => exact .error rfl (tok2str_error read)
    | ok r₁ =>
      obtain ⟨_, short, rfl, -⟩ := tok2str_ok read
      refine .inr ⟨_, rfl, ⟨linked, rfl, rfl, starts ▸ inside.trans (List.suffix_cons '"' text)⟩, ?_, short⟩
      rw [starts]
      exact Nat.lt_succ_of_le inside.length_le

theorem character_quote (starts : r.endp = '\'' :: text) : r.character = .ok { r with yytoken := NUMBER } := by
  rw [character, starts]
  rfl

theorem operator_gives (linked : r.Linked) (starts : r.endp = c :: text) :
    Gives (r.operator c) fun r' => Scanned r r' ∧ Progress r r' := by
  cases read : r.operator c with
  | error stop =>
    apply Gives.error rfl
    rcases bind_error.mp read with copied | ⟨_, -, same⟩
    · exact tok2str_error copied
    · cases same
  | ok r' =>
    obtain ⟨r₁, copied, read⟩ := bind_ok.mp read
    obtain ⟨_, short, rfl, -⟩ := tok2str_ok copied
    cases read
    refine .inr ⟨_, rfl, ⟨linked, rfl, rfl, List.tail_suffix _⟩, ?_, short⟩
    rw [starts]
    exact Nat.lt_succ_self _

/-- The variables where the next token starts. -/
def skipped (r : Reader) : Reader := { r with textp := r.textp.dropWhile isspace, endp := r.textp.dropWhile isspace }

theorem next_end (none : r.textp.dropWhile isspace = []) :
    r.next = .ok { r.skipped with yytext := ['E', 'O', 'S'], yytoken := EOS } := by
  rw [next, skipped, none]
  rfl

theorem next_eq (starts : r.textp.dropWhile isspace = c :: text) :
    r.next =
      if c = '"' then r.skipped.string
      else if c = '\'' then r.skipped.character
      else if c = '%' then if r.regmode then r.skipped.iden else r.skipped.operator c
      else if c = '.' || c = '_' then r.skipped.iden
      else if c.isDigit then r.skipped.number
      else if c.isAlpha then r.skipped.iden
      else r.skipped.operator c := by
  unfold next skipped
  rw [starts]

theorem iden_progress (linked : r.Linked) (starts : r.endp = c :: text) (id : idchar c = true) :
    Gives r.iden fun r' => Scanned r r' ∧ Progress r r' := by
  rcases iden_gives linked with failed | ⟨r', read, scanned, endp, short⟩
  · exact .inl failed
  · refine .inr ⟨r', read, scanned, ?_, short⟩
    rw [endp, starts, List.dropWhile_cons_of_pos id]
    exact Nat.lt_succ_of_le (List.dropWhile_suffix _).length_le

/-- A token that is readable is read. -/
theorem next_gives (linked : r.Linked) (starts : r.textp.dropWhile isspace = c :: text)
    (readable : Readable r.regmode (r.textp.dropWhile isspace)) :
    Gives r.next fun r' => Scanned r.skipped r' ∧ Progress r.skipped r' := by
  have linked : r.skipped.Linked := linked
  have begin : r.skipped.endp = c :: text := starts
  rw [next_eq starts]
  rw [starts] at readable
  split
  · rename_i quote
    subst quote
    exact string_gives linked begin (readable.closed rfl)
  split
  · rename_i quote
    exact absurd (congrArg some quote) readable.quote
  split
  · rename_i percent
    rw [readable.percent (congrArg some percent)]
    exact operator_gives linked begin
  split
  · rename_i dot
    refine iden_progress linked begin ?_
    rcases Bool.or_eq_true_iff.mp dot with dot | line
    · cases of_decide_eq_true dot
      rfl
    · cases of_decide_eq_true line
      rfl
  split
  · rename_i digit
    exact number_gives linked begin digit
  split
  · rename_i letter
    refine iden_progress linked begin ?_
    have alphanumeric : c.isAlphanum = true := Bool.or_eq_true_iff.mpr (.inl letter)
    simp [idchar, alphanumeric]
  · exact operator_gives linked begin

/-- `%` is no part of a name, and the name without a character is found. -/
theorem iden_percent (linked : r.Linked) (starts : r.endp = '%' :: text) (same : r.textp = r.endp) :
    ∃ r', r.iden = .ok r' ∧ Scanned r r' ∧ r'.endp = '%' :: text := by
  have stays : r.endp.dropWhile idchar = r.endp := by
    rw [starts]
    rfl
  rcases iden_gives linked with ⟨msg, failed⟩ | ⟨r', read, scanned, endp, -⟩
  · rcases bind_error.mp failed with copied | ⟨r₁, copied, failed⟩
    · rcases bind_error.mp copied with copied | ⟨_, -, same⟩
      · rw [Numbers.tok2str, same, stays, Nat.sub_self] at copied
        cases copied
      · cases same
    · obtain ⟨name, -, rfl, empty⟩ := tok2str_ok copied
      rw [same, stays, Nat.sub_self, List.take_zero] at empty
      subst empty
      rcases bind_error.mp failed with looked | ⟨⟨s, i⟩, looked, failed⟩
      · rcases bind_error.mp looked with qualified | ⟨name, -, looked⟩
        · cases qualified
        · split at looked <;> cases looked
      · obtain ⟨sym, there⟩ := lookup_there looked
        rcases bind_error.mp failed with missing | ⟨sym', -, same⟩
        · cases missing.symm.trans there
        · cases same
  · exact ⟨r', read, scanned, by rw [endp, stays, starts]⟩

/-- Where it is not, nothing is read of the text, or more than there is. -/
theorem next_stuck (linked : r.Linked) (unreadable : ¬Readable r.regmode (r.textp.dropWhile isspace)) :
    r.next = .error .fault ∨
      ∃ r', r.next = .ok r' ∧ Scanned r.skipped r' ∧ r.textp.dropWhile isspace ≠ [] ∧ r'.endp = r.textp.dropWhile isspace := by
  cases starts : r.textp.dropWhile isspace with
  | nil =>
    rw [starts] at unreadable
    exact absurd ⟨by simp, by simp, by simp⟩ unreadable
  | cons c text =>
    have begin : r.skipped.endp = c :: text := starts
    rw [next_eq starts]
    rw [starts] at unreadable
    by_cases string : c = '"'
    · subst string
      have opened : '"' ∉ text := fun closed => unreadable ⟨by simp, fun _ => closed, by simp⟩
      exact .inl ((if_pos rfl).trans (string_open begin opened))
    by_cases quote : c = '\''
    · subst quote
      refine .inr ⟨{ r.skipped with yytoken := NUMBER }, ?_, ⟨linked, rfl, rfl, List.suffix_refl _⟩, nofun, begin⟩
      rw [if_neg string, if_pos rfl, character_quote begin]
    by_cases percent : c = '%'
    · subst percent
      cases mode : r.regmode with
      | false => exact absurd ⟨by simp, by simp, fun _ => mode⟩ unreadable
      | true =>
        rw [if_neg string, if_neg quote, if_pos rfl, if_pos rfl]
        obtain ⟨r', read, scanned, endp⟩ := iden_percent (r := r.skipped) linked begin rfl
        exact .inr ⟨r', read, scanned, nofun, endp⟩
    · refine absurd ⟨by simpa using quote, fun same => ?_, fun same => ?_⟩ unreadable
      · exact absurd (Option.some.inj same) string
      · exact absurd (Option.some.inj same) percent

theorem next_scanned (linked : r.Linked) (read : r.next = .ok r') :
    Scanned r.skipped r' ∧ (r.textp.dropWhile isspace = [] → r'.yytoken = EOS ∧ r'.yytext = ['E', 'O', 'S']) := by
  cases starts : r.textp.dropWhile isspace with
  | nil =>
    cases (next_end starts).symm.trans read
    exact ⟨⟨linked, rfl, rfl, List.suffix_refl _⟩, fun _ => ⟨rfl, rfl⟩⟩
  | cons c text =>
    refine ⟨?_, nofun⟩
    by_cases readable : Readable r.regmode (r.textp.dropWhile isspace)
    · exact ((next_gives linked starts readable).ok read).1
    · rcases next_stuck linked readable with failed | ⟨r'', read', scanned, -, -⟩
      · cases failed.symm.trans read
      · cases read'.symm.trans read
        exact scanned

end Reader

/-! ## The invariant of a run -/

/-- The operators of the frames are those that their functions take. -/
def Frame.Sane : Frame → Prop
  | .right f op _ => f.takes op = true
  | .unary op => op = code '!' ∨ op = code '-' ∨ op = code '+'
  | _ => True

/-- A control that reads no token. -/
def Control.Quiet (k : Control) : Prop := ∀ k', k ≠ .read k'

/-- One token is read, and none behind the end but the first one of an operand. -/
def Behind (token : Int) (k : Control) : Prop := ∀ k', k = .read k' → (k' = .switch ∨ token ≠ EOS) ∧ k'.Quiet

namespace Machine

/-- The cursors stay in the field. -/
structure Valid (field : List Char) (m : Machine) : Prop where
  linked : m.reader.Linked
  inside : m.reader.endp <:+ field
  cursor : m.control = .operand ∨ m.reader.textp <:+ m.reader.endp
  reads : Behind m.reader.yytoken m.control
  frames : ∀ frame ∈ m.stack, frame.Sane

/-! How far a run has come: what is left of the field, and then the calls that are left before the next token. -/

def weight (m : Machine) : Nat := 2 * m.reader.endp.length + if m.reader.yytoken = EOS then 0 else 1

end Machine

def Fn.height : Fn → Nat
  | .expr => 18
  | .and => 15
  | .relational => 12
  | .add => 9
  | .mul => 6
  | .unary => 3
  | .primary => 1

def Control.height (token : Int) : Control → Nat
  | .read .switch => 1
  | .read _ => 0
  | .operand => 2
  | .switch => if token = EOS then 0 else 22
  | .moperand => 21
  | .indirect => 21
  | .sign _ => 21
  | .base _ => 1
  | .close _ => 1
  | .finish _ => 3
  | .call f => f.height
  | .loop _ _ => 5
  | .ret _ => 4

namespace Machine

def rank (m : Machine) : Nat := m.control.height m.reader.yytoken + 2 * m.stack.length

/-- What a step should do, from a state with this weight and this rank. -/
def Goes (field : List Char) (weight rank : Nat) : Step → Prop
  | .done result => ∀ stop, result = .error stop → ∃ msg, stop = .error msg
  | .more es m => m.Valid field ∧ (∀ token ∈ es, token.Sound field) ∧ Prod.Lex (· < ·) (· < ·) (m.weight, m.rank) (weight, rank)

variable {m m' : Machine} {field : List Char} {es : List Reading} {weight rank : Nat} {k : Control}

theorem takes_eos (f : Fn) : f.takes EOS = false := by
  cases f <;> rfl

theorem goes_error (msg : String) : Goes field weight rank (.done (error msg)) := by
  rintro stop same
  cases same
  exact ⟨msg, rfl⟩

/-- What stays where no token is read. -/
structure Stays (field : List Char) (weight : Nat) (m : Machine) : Prop where
  linked : m.reader.Linked
  inside : m.reader.endp <:+ field
  cursor : m.reader.textp <:+ m.reader.endp
  frames : ∀ frame ∈ m.stack, frame.Sane
  weight : m.weight = weight

theorem behind_quiet {token : Int} (quiet : k.Quiet) : Behind token k := fun k' same => absurd same (quiet k')

theorem behind_read {token : Int} (some_ : token ≠ EOS) (quiet : k.Quiet) : Behind token (.read k) := by
  rintro k' same
  cases same
  exact ⟨.inr some_, quiet⟩

theorem Stays.goto (stays : Stays field weight m) (behind : Behind m.reader.yytoken k)
    (lower : k.height m.reader.yytoken + 2 * m.stack.length < rank) : Goes field weight rank (m.goto k) := by
  refine ⟨⟨stays.linked, stays.inside, .inr stays.cursor, behind, stays.frames⟩, nofun, ?_⟩
  have same : ({ m with control := k } : Machine).weight = weight := stays.weight
  rw [same]
  exact .right _ lower

theorem Stays.enter {frame : Frame} (stays : Stays field weight m) (sane : frame.Sane) (behind : Behind m.reader.yytoken k)
    (lower : k.height m.reader.yytoken + 2 * m.stack.length + 2 < rank) : Goes field weight rank (m.enter frame k) := by
  have frames : ∀ frame' ∈ frame :: m.stack, frame'.Sane := List.forall_mem_cons.mpr ⟨sane, stays.frames⟩
  refine ⟨⟨stays.linked, stays.inside, .inr stays.cursor, behind, frames⟩, nofun, ?_⟩
  have same : ({ m with control := k, stack := frame :: m.stack } : Machine).weight = weight := stays.weight
  rw [same]
  exact .right _ lower

theorem Stays.expect {token : Int} (stays : Stays field weight m) (some_ : token ≠ EOS) (quiet : k.Quiet)
    (lower : (Control.read k).height m.reader.yytoken + 2 * m.stack.length < rank) : Goes field weight rank (m.expect token k) := by
  unfold Machine.expect
  split
  · exact goes_error _
  · rename_i same
    exact stays.goto (behind_read (Classical.not_not.mp same ▸ some_) quiet) lower

theorem Stays.getreg {k : Node → Control} (stays : Stays field weight m) (quiet : ∀ np, (k np).Quiet)
    (lower : ∀ np, (Control.read (k np)).height m.reader.yytoken + 2 * m.stack.length < rank) :
    Goes field weight rank (m.getreg k) :=
  stays.expect (by decide) (quiet _) (lower _)

theorem Stays.regctx (stays : Stays field weight m) (mode : Bool) : Stays field weight (m.regctx mode) :=
  ⟨stays.linked, stays.inside, stays.cursor, stays.frames, stays.weight⟩

theorem Stays.ahead (stays : Stays field weight m) : Stays field weight { m with reader := m.reader.ahead.2 } :=
  ⟨stays.linked, stays.inside, (List.dropWhile_suffix _).trans stays.cursor, stays.frames, stays.weight⟩

theorem Valid.operand (valid : m.Valid field) (lower : 1 + 2 * m.stack.length < rank) :
    Goes field m.weight rank m.operand := by
  unfold Machine.operand
  split
  · exact goes_error _
  · refine ⟨⟨valid.linked, valid.inside, .inr (List.suffix_refl _), ?_, valid.frames⟩, nofun, .right _ lower⟩
    rintro k' same
    cases same
    exact ⟨.inl rfl, nofun⟩

theorem Stays.switch (stays : Stays field weight m) (lower : m.reader.yytoken ≠ EOS → 21 + 2 * m.stack.length < rank) :
    Goes field weight rank m.switch := by
  unfold Machine.switch
  dsimp only
  split
  · exact nofun
  · rename_i some_
    have lower := lower some_
    have read : ∀ {k}, Goes field weight rank (m.goto (.read (.finish k))) := by
      intro k
      refine stays.goto (behind_read some_ nofun) ?_
      change 0 + _ < _
      omega
    split
    · refine stays.getreg (fun _ => nofun) fun np => ?_
      change 0 + _ < _
      omega
    split
    · exact read
    split
    · have ahead := stays.ahead
      split
      · refine ahead.goto (behind_quiet nofun) ?_
        change 21 + _ < _
        exact lower
      · refine ahead.goto (behind_read some_ nofun) ?_
        change 0 + _ < _
        dsimp only
        omega
    split
    · refine stays.enter trivial (behind_read some_ nofun) ?_
      change 0 + _ + _ < _
      omega
    · refine stays.goto (behind_quiet nofun) ?_
      change 21 + _ < _
      omega

theorem Stays.moperand (stays : Stays field weight m) (lower : 20 + 2 * m.stack.length < rank) :
    Goes field weight rank m.moperand := by
  unfold Machine.moperand
  split
  · rename_i same
    refine stays.goto (behind_read (same ▸ by decide) nofun) ?_
    change 0 + _ < _
    omega
  · refine stays.enter trivial (behind_quiet nofun) ?_
    change 18 + _ + _ < _
    omega

theorem Stays.indirect (stays : Stays field weight m) (lower : 20 + 2 * m.stack.length < rank) :
    Goes field weight rank m.indirect := by
  unfold Machine.indirect
  split
  · refine stays.enter trivial (behind_quiet nofun) ?_
    change 18 + _ + _ < _
    omega
  · refine stays.getreg (fun _ => nofun) fun np => ?_
    change 0 + _ < _
    omega

theorem Stays.sign {reg : Node} (stays : Stays field weight m) (lower : 20 + 2 * m.stack.length < rank) :
    Goes field weight rank (m.sign reg) := by
  unfold Machine.sign
  split
  · refine stays.enter trivial (behind_quiet nofun) ?_
    change 18 + _ + _ < _
    omega
  split
  · refine stays.goto (behind_quiet nofun) ?_
    change 1 + _ < _
    omega
  · exact goes_error _

theorem Stays.finish {np : Node} (stays : Stays field weight m) (lower : 2 + 2 * m.stack.length < rank) :
    Goes field weight rank (m.finish np) := by
  unfold Machine.finish
  split
  · exact goes_error _
  · refine ⟨⟨stays.linked, stays.inside, .inl rfl, nofun, stays.frames⟩, nofun, ?_⟩
    have same : ({ m with args := m.args ++ [np], control := .operand } : Machine).weight = weight := stays.weight
    rw [same]
    exact .right _ lower

theorem Stays.loop {f : Fn} {np : Node} (stays : Stays field weight m) (lower : 4 + 2 * m.stack.length < rank) :
    Goes field weight rank (m.loop f np) := by
  unfold Machine.loop
  dsimp only
  split
  · rename_i takes
    have some_ : m.reader.yytoken ≠ EOS := by
      intro same
      rw [same, takes_eos] at takes
      cases takes
    refine stays.enter takes (behind_read some_ nofun) ?_
    change 0 + _ + _ < _
    omega
  split
  · exact (stays.regctx true).goto (behind_quiet nofun) lower
  · exact stays.goto (behind_quiet nofun) lower

/-! ## Calls -/

theorem Stays.unary (stays : Stays field weight m) (lower : 2 + 2 * m.stack.length < rank) :
    Goes field weight rank m.unary := by
  unfold Machine.unary
  dsimp only
  split
  · rename_i sign
    have some_ : m.reader.yytoken ≠ EOS := by
      rcases sign with same | same | same <;> rw [same] <;> decide
    refine stays.enter sign (behind_read some_ nofun) ?_
    change 0 + _ + _ < _
    omega
  · refine stays.goto (behind_quiet nofun) ?_
    change 1 + _ < _
    omega

theorem Stays.primary (stays : Stays field weight m) (other : m.reader.yytoken ≠ code '(') (lower : 2 * m.stack.length < rank) :
    Goes field weight rank m.primary := by
  unfold Machine.primary
  dsimp only
  split
  · rename_i operand
    have some_ : m.reader.yytoken ≠ EOS := by
      rcases operand with same | same <;> rw [same] <;> decide
    refine stays.goto (behind_read some_ nofun) ?_
    change 0 + _ < _
    omega
  · exact goes_error _

theorem Stays.call {f : Fn} (stays : Stays field weight m) (other : f = .primary → m.reader.yytoken ≠ code '(')
    (lower : f.height + 2 * m.stack.length ≤ rank) : Goes field weight rank (m.call f) := by
  have deeper : ∀ {m : Machine} {g : Fn}, Stays field weight m → g.left.height + 2 < g.height →
      g.height + 2 * m.stack.length ≤ rank → Goes field weight rank (m.enter (.left g) (.call g.left)) := by
    intro m g stays less lower
    refine stays.enter trivial (behind_quiet nofun) ?_
    change g.left.height + _ + _ < _
    omega
  cases f with
  | expr => exact deeper (stays.regctx false) (by decide) lower
  | and => exact deeper stays (by decide) lower
  | relational => exact deeper stays (by decide) lower
  | add => exact deeper stays (by decide) lower
  | mul => exact deeper stays (by decide) lower
  | unary =>
    change 3 + _ ≤ _ at lower
    exact stays.unary (by omega)
  | primary =>
    change 1 + _ ≤ _ at lower
    exact stays.primary (other rfl) (by omega)

/-! ## Returns -/

end Machine

/-- The operators other than `&` and those of `mul` are computed. -/
theorem folds {f : Fn} {op : Int} (takes : f.takes op = true) (simple : f ≠ .mul) (other : op ≠ code '&') :
    ∃ b, binop op = some b ∧ ∀ lv rv, ∃ val, As.fold b lv rv = .ok val := by
  cases f with
  | expr | relational | add =>
    simp only [Fn.takes, Bool.or_eq_true, decide_eq_true_eq] at takes
    rcases takes with takes | rfl
    all_goals try rcases takes with takes | rfl
    all_goals try rcases takes with takes | rfl
    all_goals try rcases takes with takes | rfl
    all_goals try subst takes
    all_goals exact ⟨_, rfl, fun lv rv => ⟨_, rfl⟩⟩
  | and => exact absurd (of_decide_eq_true takes) other
  | mul => exact absurd rfl simple
  | unary | primary => cases takes

namespace Reader
variable {r r' : Reader} {l np np' : Node} {lv rv : Nat}

/-- The temporary symbol with the result of an operator. -/
def result (r : Reader) (val : Nat) : Reader × Node :=
  ({ r with tmps := r.tmps ++ [⟨val, none⟩] }, .leaf NUMBER ANUMBER (some (.tmp r.tmps.length)))

/-- An operator of operands that are known. -/
theorem binary_known {op : Int} {b : Binop} (left : r.Known l lv) (right : r.Known np rv) (known : binop op = some b) :
    r.binary op l np = (As.fold b lv rv).map r.result := by
  have folded : r.fold op l np = (As.fold b lv rv).map fun val => some (r.result val) := by
    rw [fold, left.1, right.1, left.2, right.2, known]
    change (As.fold b lv rv >>= _) = _
    cases As.fold b lv rv <;> rfl
  rw [binary, folded]
  cases As.fold b lv rv <;> rfl

theorem binary_none {op : Int} (left : r.Known l lv) (right : r.Known np rv) (missing : binop op = none) :
    r.binary op l np = .error .abort := by
  have folded : r.fold op l np = .error .abort := by
    rw [fold, left.1, right.1, left.2, right.2, missing]
    rfl
  rw [binary, folded]
  rfl

theorem deref_cases (sym : Option Sym) : r.deref sym = .error .fault ∨ ∃ p, r.deref sym = .ok p := by
  cases sym with
  | none => exact .inl rfl
  | some sym =>
    cases sym with
    | table i =>
      change (r.state.sym i >>= _) = _ ∨ ∃ p, (r.state.sym i >>= _) = _
      unfold State.sym
      cases r.state.syms[i]? with
      | none => exact .inl rfl
      | some sym => exact .inr ⟨_, rfl⟩
    | tmp k =>
      cases found : r.tmps[k]? with
      | none => exact .inl (by rw [deref, found])
      | some tmp =>
        refine .inr ⟨(false, tmp.value), ?_⟩
        rw [deref, found]
        rfl

theorem value_cases (np : Node) : r.value np = .error .fault ∨ ∃ val, r.value np = .ok val := by
  unfold value
  rcases deref_cases np.sym with fault | ⟨p, found⟩
  · rw [fault]
    exact .inl rfl
  · rw [found]
    exact .inr ⟨_, rfl⟩

theorem constant_cases (np : Node) : r.constant np = .error .fault ∨ ∃ b, r.constant np = .ok b := by
  unfold constant
  split
  · exact .inr ⟨_, rfl⟩
  split
  · rcases deref_cases np.sym with fault | ⟨p, found⟩
    · rw [fault]
      exact .inl rfl
    · rw [found]
      exact .inr ⟨_, rfl⟩
  · exact .inr ⟨_, rfl⟩

/-- Operands that are not known abort the assembler, or it reads through a null pointer. -/
theorem binary_unknown (op : Int) (unknown : ¬∃ lv rv, r.Known l lv ∧ r.Known np rv) :
    r.binary op l np = .error .fault ∨ r.binary op l np = .error .abort := by
  have fold : r.fold op l np = .error .fault ∨ r.fold op l np = .ok none := by
    unfold Reader.fold
    rcases constant_cases l with fault | ⟨known, left⟩
    · rw [fault]
      exact .inl rfl
    rw [left]
    cases known with
    | false => exact .inr rfl
    | true =>
      rcases constant_cases np with fault | ⟨known, right⟩
      · rw [fault]
        exact .inl rfl
      rw [right]
      cases known with
      | false => exact .inr rfl
      | true =>
        rcases value_cases l with fault | ⟨lv, first⟩
        · rw [fault]
          exact .inl rfl
        rw [first]
        rcases value_cases np with fault | ⟨rv, second⟩
        · rw [fault]
          exact .inl rfl
        exact absurd ⟨lv, rv, ⟨left, first⟩, right, second⟩ unknown
  unfold binary
  rcases fold with fault | none
  · rw [fault]
    exact .inl rfl
  · rw [none]
    exact .inr rfl

theorem ite_other {p : Prop} [Decidable p] {x y b : Option Binop} (first : x ≠ b) (second : y ≠ b) : (if p then x else y) ≠ b := by
  split
  · exact first
  · exact second

theorem binop_division {op : Int} {b : Binop} (known : binop op = some b) (division : b = .divide ∨ b = .mod) :
    op = code '/' ∨ op = code '%' := by
  by_contra other
  obtain ⟨quotient, remainder⟩ := not_or.mp other
  revert known
  unfold binop
  rw [if_neg quotient, if_neg remainder]
  rcases division with rfl | rfl
  all_goals
    repeat refine ite_other nofun ?_
    exact nofun

theorem fold_error {b : Binop} {msg : String} (failed : As.fold b lv rv = .error (.error msg)) :
    (b = .divide ∨ b = .mod) ∧ rv = 0 := by
  cases b with
  | divide =>
    by_cases zero : rv = 0
    · exact ⟨.inl rfl, zero⟩
    · rw [As.fold, if_neg zero] at failed
      cases failed
  | mod =>
    by_cases zero : rv = 0
    · exact ⟨.inr rfl, zero⟩
    · rw [As.fold, if_neg zero] at failed
      cases failed
  | _ => cases failed

/-- An operator is computed, or the division by zero is reported. -/
theorem binary_iff {f : Fn} {op : Int} (takes : f.takes op = true) :
    r.Computes f op l np ↔
      (∃ msg, r.binary op l np = .error (.error msg)) ∨ f ≠ .mul ∧ ∃ p, r.binary op l np = .ok p := by
  constructor
  · rintro ⟨lv, rv, left, right, rest⟩
    split at rest
    · obtain ⟨division, rfl⟩ := rest
      refine .inl ⟨"division by 0", ?_⟩
      rcases division with rfl | rfl
      · exact binary_known left right (b := .divide) rfl
      · exact binary_known left right (b := .mod) rfl
    · rename_i simple
      obtain ⟨b, known, folds⟩ := folds takes simple rest
      obtain ⟨val, folded⟩ := folds lv rv
      refine .inr ⟨simple, r.result val, ?_⟩
      rw [binary_known left right known, folded]
      rfl
  · intro ends
    by_cases known : ∃ lv rv, r.Known l lv ∧ r.Known np rv
    · obtain ⟨lv, rv, left, right⟩ := known
      refine ⟨lv, rv, left, right, ?_⟩
      cases known : binop op with
      | none =>
        rw [binary_none left right known] at ends
        rcases ends with ⟨msg, same⟩ | ⟨-, p, same⟩ <;> cases same
      | some b =>
        rw [binary_known left right known] at ends
        split
        · rename_i multiplies
          rcases ends with ⟨msg, failed⟩ | ⟨simple, -⟩
          · have failed : As.fold b lv rv = .error (.error msg) := by
              cases folded : As.fold b lv rv with
              | ok val => rw [folded] at failed; cases failed
              | error stop => rw [folded] at failed; cases failed; rfl
            obtain ⟨division, zero⟩ := fold_error failed
            exact ⟨binop_division known division, zero⟩
          · exact absurd multiplies simple
        · rintro rfl
          cases known
    · rcases binary_unknown op known with fault | abort
      · rw [fault] at ends
        rcases ends with ⟨msg, same⟩ | ⟨-, p, same⟩ <;> cases same
      · rw [abort] at ends
        rcases ends with ⟨msg, same⟩ | ⟨-, p, same⟩ <;> cases same

/-- The operators change no more than values. -/
structure Alike (r r' : Reader) : Prop where
  linked : r.Linked → r'.Linked
  textp : r'.textp = r.textp
  endp : r'.endp = r.endp
  yytoken : r'.yytoken = r.yytoken

theorem binary_alike {op : Int} (ok : r.binary op l np = .ok (r', np')) : Alike r r' := by
  by_cases known : ∃ lv rv, r.Known l lv ∧ r.Known np rv
  · obtain ⟨lv, rv, left, right⟩ := known
    cases known : binop op with
    | none => cases (binary_none left right known).symm.trans ok
    | some b =>
      rw [binary_known left right known] at ok
      cases folded : As.fold b lv rv with
      | error stop => rw [folded] at ok; cases ok
      | ok val =>
        rw [folded] at ok
        cases ok
        exact ⟨id, rfl, rfl, rfl⟩
  · rcases binary_unknown op known with failed | failed <;> cases failed.symm.trans ok

theorem setValue_alike {val : Nat} (np : Node) (set : Nat) (found : r.value np = .ok val) :
    ∃ r', r.setValue set np.sym = .ok r' ∧ Alike r r' := by
  unfold value at found
  cases symbol : np.sym with
  | none =>
    rw [symbol] at found
    cases found
  | some s =>
    cases s with
    | table i =>
      refine ⟨_, rfl, ?_, rfl, rfl, rfl⟩
      intro linked cur current
      have inside := linked cur current
      change cur < (r.state.syms.modify i _).length
      rwa [List.length_modify]
    | tmp k => exact ⟨_, rfl, id, rfl, rfl, rfl⟩

/-- A unary operator gives a node, or the operand is none that it can have. -/
theorem unaryop_gives {op : Int} (sane : op = code '!' ∨ op = code '-' ∨ op = code '+')
    (known : np.addr = some ANUMBER → np.op = NUMBER → ∃ val, r.value np = .ok val) :
    (∃ msg, r.unaryop op np = .error (.error msg)) ∨ ∃ r' np', r.unaryop op np = .ok (r', np') ∧ Alike r r' := by
  unfold unaryop
  by_cases addr : np.addr = some ANUMBER
  · rw [if_neg (not_not.mpr addr)]
    right
    by_cases number : np.op = NUMBER
    · rw [if_neg (not_not.mpr number)]
      obtain ⟨val, found⟩ := known addr number
      rw [found]
      have set : ∀ v, ∃ r' np', ((pure v : M Nat) >>= fun val => r.setValue val np.sym >>= fun r' => pure (r', np)) = .ok (r', np') ∧
          Alike r r' := by
        intro v
        obtain ⟨r', stored, alike⟩ := setValue_alike np v found
        refine ⟨r', np, ?_, alike⟩
        change (r.setValue v np.sym >>= _) = _
        rw [stored]
        rfl
      rcases sane with rfl | rfl | rfl
      · exact set (if val = 0 then 1 else 0)
      · exact set ((2 ^ 64 - val) % 2 ^ 64)
      · exact set val
    · rw [if_pos number]
      exact ⟨r, _, rfl, id, rfl, rfl, rfl⟩
  · rw [if_pos addr]
    exact .inl ⟨_, rfl⟩

theorem unaryop_unknown {op : Int}
    (unknown : ¬(np.addr = some ANUMBER → np.op = NUMBER → ∃ val, r.value np = .ok val)) :
    r.unaryop op np = .error .fault := by
  simp only [not_forall] at unknown
  obtain ⟨addr, number, unknown⟩ := unknown
  rw [unaryop, if_neg (not_not.mpr addr), if_neg (not_not.mpr number)]
  rw [(value_cases np).resolve_right unknown]
  rfl

end Reader

namespace Machine
variable {m m' : Machine} {field : List Char} {es : List Reading} {weight rank : Nat} {np : Node} {frame : Frame}

/-- The condition on what is returned to a frame. -/
def Returns (r : Reader) (np : Node) : Frame → Prop
  | .right f op l => r.Computes f op l np
  | .unary _ => np.addr = some ANUMBER → np.op = NUMBER → ∃ val, r.value np = .ok val
  | _ => True

theorem Stays.alike {r : Reader} (stays : Stays field weight m) (alike : Reader.Alike m.reader r) :
    Stays field weight { m with reader := r } := by
  obtain ⟨linked, textp, endp, yytoken⟩ := alike
  refine ⟨linked stays.linked, ?_, ?_, stays.frames, ?_⟩
  · exact endp ▸ stays.inside
  · exact endp ▸ textp ▸ stays.cursor
  · rw [← stays.weight]
    unfold Machine.weight
    dsimp only
    rw [endp, yytoken]

theorem Stays.ret (stays : Stays field weight m) (sane : frame.Sane) (returns : Returns m.reader np frame)
    (lower : 5 + 2 * m.stack.length < rank) : Goes field weight rank (m.ret np frame) := by
  cases frame with
  | left f => exact stays.goto (behind_quiet nofun) lower
  | right f op l =>
    unfold Machine.ret
    dsimp only
    rcases (Reader.binary_iff sane).mp returns with ⟨msg, failed⟩ | ⟨simple, ⟨r, np'⟩, made⟩
    · rw [failed]
      exact goes_error msg
    · rw [made]
      dsimp only
      rw [if_neg simple]
      have alike := Reader.binary_alike made
      refine (stays.alike alike).goto (behind_quiet nofun) ?_
      exact lower
  | unary op =>
    unfold Machine.ret
    dsimp only
    rcases Reader.unaryop_gives sane returns with ⟨msg, failed⟩ | ⟨r, np', made, alike⟩
    · rw [failed]
      exact goes_error msg
    · rw [made]
      refine (stays.alike alike).goto (behind_quiet nofun) ?_
      change 4 + _ < _
      dsimp only
      omega
  | paren | off =>
    refine stays.expect (by decide) nofun ?_
    change 0 + _ < _
    omega
  | imm =>
    refine stays.goto (behind_quiet nofun) ?_
    change 3 + _ < _
    omega
  | dir | regoff reg =>
    refine stays.goto (behind_quiet nofun) ?_
    change 1 + _ < _
    omega

theorem Valid.stays (valid : m.Valid field) (other : m.control ≠ .operand) : Stays field m.weight m :=
  ⟨valid.linked, valid.inside, valid.cursor.resolve_left other, valid.frames, rfl⟩

/-- The text that the next token is read from. -/
def rest (m : Machine) : List Char := m.reader.textp.dropWhile isspace

theorem Stays.rest_suffix (stays : Stays field weight m) : m.rest <:+ m.reader.endp :=
  (List.dropWhile_suffix _).trans stays.cursor

theorem Valid.scanned {k : Control} {r : Reader} (valid : m.Valid field) (control : m.control = .read k)
    (scanned : Scanned m.reader.skipped r) : Valid field { m with reader := r, control := k } := by
  have stays := valid.stays (control ▸ nofun)
  have quiet := (valid.reads k control).2
  have suffix : r.endp <:+ m.reader.endp := List.IsSuffix.trans scanned.suffix stays.rest_suffix
  exact ⟨scanned.linked, suffix.trans valid.inside, .inr (scanned.cursor ▸ List.suffix_refl _), behind_quiet quiet, valid.frames⟩

/-- A token is read that is readable. -/
theorem Valid.read {k : Control} (valid : m.Valid field) (control : m.control = .read k)
    (readable : Readable m.reader.regmode m.rest) : Goes field m.weight m.rank m.step := by
  have stays := valid.stays (control ▸ nofun)
  have inside := stays.rest_suffix.trans valid.inside
  unfold step
  rw [control]
  dsimp only
  cases starts : m.rest with
  | nil =>
    have read := Reader.next_end starts
    have scanned := (Reader.next_scanned valid.linked read).1
    rw [read]
    refine ⟨valid.scanned control scanned, ?_, ?_⟩
    · intro token mem
      cases List.mem_singleton.mp mem
      refine ⟨inside, scanned.suffix, fun some_ => absurd starts some_, ?_⟩
      change 3 ≤ 63
      omega
    · have endp : m.reader.skipped.endp = [] := starts
      have none_left : weight { m with reader := { m.reader.skipped with yytext := ['E', 'O', 'S'], yytoken := EOS }, control := k } = 0 := by
        unfold Machine.weight
        dsimp only
        rw [endp]
        rfl
      rw [none_left]
      rcases Nat.eq_zero_or_pos m.weight with zero | more
      · -- the field is at its end already, and `operand` finds it there
        have token : m.reader.yytoken = EOS := by
          by_contra some_
          unfold Machine.weight at zero
          rw [if_neg some_] at zero
          omega
        rw [zero]
        rcases (valid.reads k control).1 with rfl | some_
        · refine .right _ ?_
          unfold Machine.rank
          rw [control]
          change 0 + _ < 1 + _
          dsimp only
          omega
        · exact absurd token some_
      · exact .left _ _ more
  | cons c text =>
    rcases Reader.next_gives valid.linked starts readable with ⟨msg, failed⟩ | ⟨r, read, scanned, shorter, fits⟩
    · rw [failed]
      exact goes_error msg
    · rw [read]
      refine ⟨valid.scanned control scanned, ?_, .left _ _ ?_⟩
      · intro token mem
        cases List.mem_singleton.mp mem
        exact ⟨inside, scanned.suffix, fun _ => shorter, fits⟩
      · have less : m.rest.length ≤ m.reader.endp.length := stays.rest_suffix.length_le
        change r.endp.length < m.rest.length at shorter
        unfold Machine.weight
        dsimp only
        split <;> split <;> omega

/-- A step from a state that meets the condition. -/
theorem Valid.step (valid : m.Valid field) (fine : m.Fine) : Goes field m.weight m.rank m.step := by
  obtain ⟨reader, args, control, stack⟩ := m
  cases control with
  | read k => exact valid.read rfl fine
  | operand => exact valid.operand (by change _ < 2 + _; omega)
  | switch =>
    refine (valid.stays nofun).switch fun some_ => ?_
    change _ < (if _ then _ else _) + _
    rw [if_neg some_]
    omega
  | moperand => exact (valid.stays nofun).moperand (by change _ < 21 + _; omega)
  | indirect => exact (valid.stays nofun).indirect (by change _ < 21 + _; omega)
  | sign reg => exact (valid.stays nofun).sign (by change _ < 21 + _; omega)
  | base off =>
    refine (valid.stays nofun).getreg (k := fun reg => .close (index reg off)) (fun _ => nofun) fun np => ?_
    change 0 + _ < 1 + _
    omega
  | close np => exact (valid.stays nofun).expect (by decide) nofun (by change 0 + _ < 1 + _; omega)
  | finish np => exact (valid.stays nofun).finish (by change _ < 3 + _; omega)
  | call f =>
    refine (valid.stays nofun).call (fun same => ?_) (Nat.le_refl _)
    subst same
    exact fine
  | loop f np => exact (valid.stays nofun).loop (by change _ < 5 + _; omega)
  | ret np =>
    have stays := valid.stays nofun
    cases stack with
    | nil => exact stays.goto (behind_quiet nofun) (by change 3 + _ < 4 + _; omega)
    | cons frame stack =>
      have frames := List.forall_mem_cons.mp valid.frames
      have rest : Stays field _ ⟨reader, args, .ret np, stack⟩ :=
        ⟨stays.linked, stays.inside, stays.cursor, frames.2, stays.weight⟩
      refine rest.ret frames.1 ?_ ?_
      · cases frame with
        | right f op l => exact fine
        | unary op => exact fine
        | _ => trivial
      · change _ < 4 + 2 * (stack.length + 1)
        dsimp only
        omega

/-! ## The states that do not meet it -/

/-- `expr` is called for a parenthesis again and again. -/
def Nested (m : Machine) : Prop := m.reader.yytoken = code '(' ∧ ∃ f, m.control = .call f

theorem Nested.step (nested : m.Nested) : ∃ m', m.step = .more [] m' ∧ m'.Nested := by
  obtain ⟨token, f, control⟩ := nested
  unfold Machine.step
  rw [control]
  cases f with
  | unary =>
    have other : ¬(m.reader.yytoken = code '!' ∨ m.reader.yytoken = code '-' ∨ m.reader.yytoken = code '+') := by
      rw [token]
      decide
    exact ⟨_, if_neg other, token, _, rfl⟩
  | primary =>
    have other : ¬(m.reader.yytoken = IDEN ∨ m.reader.yytoken = NUMBER) := by
      rw [token]
      decide
    exact ⟨_, (if_neg other).trans (if_pos token), token, _, rfl⟩
  | _ => exact ⟨_, rfl, token, _, rfl⟩

/-- What goes wrong in a state that does not meet the condition. -/
theorem Valid.wrong (valid : m.Valid field) (wrong : ¬m.Fine) :
    m.Nested ∨ (∃ stop, m.step = .done (.error stop) ∧ ∀ msg, stop ≠ .error msg) ∨
      ∃ token m', m.step = .more [token] m' ∧ ¬token.Sound field := by
  obtain ⟨reader, args, control, stack⟩ := m
  cases control with
  | read k =>
    rcases Reader.next_stuck valid.linked wrong with fault | ⟨r, read, -, some_, endp⟩
    · refine .inr (.inl ⟨.fault, ?_, nofun⟩)
      unfold Machine.step
      dsimp only
      rw [fault]
    · let token : Reading := ⟨reader.textp.dropWhile isspace, r.endp, r.yytext⟩
      refine .inr (.inr ⟨token, ⟨r, args, k, stack⟩, ?_, fun sound => ?_⟩)
      · unfold Machine.step
        dsimp only
        rw [read]
      · have shorter : r.endp.length < (reader.textp.dropWhile isspace).length := sound.progress some_
        rw [endp] at shorter
        exact Nat.lt_irrefl _ shorter
  | call f =>
    cases f with
    | primary => exact .inl ⟨Classical.not_not.mp wrong, _, rfl⟩
    | _ => exact absurd trivial wrong
  | ret np =>
    cases stack with
    | nil => exact absurd trivial wrong
    | cons frame stack =>
      have sane := valid.frames frame List.mem_cons_self
      cases frame with
      | right f op l =>
        have neither := (Reader.binary_iff sane).not.mp wrong
        obtain ⟨reported, made⟩ := not_or.mp neither
        refine .inr (.inl ?_)
        unfold Machine.step Machine.ret
        dsimp only
        cases result : reader.binary op l np with
        | error stop => exact ⟨stop, rfl, fun msg same => reported ⟨msg, same ▸ result⟩⟩
        | ok p =>
          have multiplies : f = .mul := by
            by_contra simple
            exact made ⟨simple, p, result⟩
          exact ⟨.fault, if_pos multiplies, nofun⟩
      | unary op =>
        refine .inr (.inl ⟨.fault, ?_, nofun⟩)
        unfold Machine.step Machine.ret
        dsimp only
        rw [Reader.unaryop_unknown wrong]
      | _ => exact absurd trivial wrong
  | _ => exact absurd trivial wrong

theorem Nested.endless {n : Nat} {t : Machine} {result : M (List Node)} (nested : m.Nested) (run : Runs Machine.step n m es t) :
    t.step ≠ .done result := by
  induction run with
  | refl m =>
    obtain ⟨m', step, -⟩ := nested.step
    rw [step]
    exact nofun
  | next head _ ih =>
    obtain ⟨m', step, nested'⟩ := nested.step
    cases step.symm.trans head
    exact ih nested'

theorem Splits.next (splits : m.Splits field) (step : m.step = .more es m') : m'.Splits field := by
  constructor
  · obtain ⟨fs, result, ⟨n, t, run, done⟩, good⟩ := splits.ends
    obtain ⟨k, gs, -, -, rest⟩ := run.to_stop done (.one step)
    exact ⟨gs, result, ⟨k, t, rest, done⟩, good⟩
  · rintro fs ⟨n, t, gs, run, shorter⟩ token mem
    exact splits.tokens (es ++ fs) ⟨n + 1, t, es ++ gs, .next step run, (List.prefix_append_right_inj es).mpr shorter⟩ token
      (List.mem_append_right es mem)

theorem Splits.fine (splits : m.Splits field) (valid : m.Valid field) : m.Fine := by
  by_contra wrong
  obtain ⟨fs, result, ends, good⟩ := splits.ends
  rcases valid.wrong wrong with nested | ⟨stop, done, other⟩ | ⟨token, m', step, unsound⟩
  · obtain ⟨n, t, run, done⟩ := ends
    exact nested.endless run done
  · obtain ⟨-, same⟩ := ends_unique ends ⟨0, m, .refl m, done⟩
    obtain ⟨msg, same⟩ := good stop same
    exact other msg same
  · exact unsound (splits.tokens [token] ⟨1, m', [token], .one step, List.prefix_refl _⟩ token List.mem_cons_self)

theorem Steady.next (steady : m.Steady) (step : m.step = .more es m') : m'.Steady :=
  fun _ _ _ run => steady _ _ _ (.next step run)

theorem Splits.steady (splits : m.Splits field) (valid : m.Valid field) : m.Steady := by
  intro n es t run
  induction run with
  | refl m => exact splits.fine valid
  | next head _ ih =>
    have goes := valid.step (splits.fine valid)
    rw [head] at goes
    exact ih (splits.next head) goes.1

theorem Steady.emits (steady : m.Steady) (valid : m.Valid field) (emits : Emits Machine.step m es) :
    ∀ token ∈ es, token.Sound field := by
  obtain ⟨n, t, fs, run, shorter⟩ := emits
  suffices all : ∀ token ∈ fs, token.Sound field from fun token mem => all token (shorter.subset mem)
  clear shorter
  induction run with
  | refl => exact nofun
  | next head _ ih =>
    have goes := valid.step (steady _ _ _ (.refl _))
    rw [head] at goes
    intro token mem
    rcases List.mem_append.mp mem with now | later
    · exact goes.2.1 token now
    · exact ih (steady.next head) goes.1 token later

/-- The weight and the rank go down until the run ends. -/
theorem Steady.ends (m : Machine) (steady : m.Steady) (valid : m.Valid field) :
    ∃ es result, Ends Machine.step m es result ∧ ∀ stop, result = .error stop → ∃ msg, stop = .error msg := by
  have goes := valid.step (steady _ _ _ (.refl _))
  cases step : m.step with
  | done result =>
    rw [step] at goes
    exact ⟨[], result, ⟨0, m, .refl m, step⟩, goes⟩
  | more es m' =>
    rw [step] at goes
    have lower := goes.2.2
    obtain ⟨fs, result, ⟨n, t, run, done⟩, good⟩ := Steady.ends m' (steady.next step) goes.1
    exact ⟨es ++ fs, result, ⟨n + 1, t, .next step run, done⟩, good⟩
termination_by (m.weight, m.rank)
decreasing_by exact lower

end Machine

theorem getargs_valid {r : Reader} (linked : r.Linked) (field : List Char) : (Machine.getargs r field).Valid field :=
  ⟨linked, List.suffix_refl _, .inl rfl, nofun, nofun⟩

/-- A field is split in operands or there is an error, with tokens that are sound, exactly where every state of the
run meets the condition. -/
theorem splits_iff {r : Reader} (linked : r.Linked) (field : List Char) :
    (Machine.getargs r field).Splits field ↔ (Machine.getargs r field).Steady := by
  have valid := getargs_valid linked field
  constructor
  · exact fun splits => splits.steady valid
  · exact fun steady => ⟨Machine.Steady.ends _ steady valid, fun es emits => steady.emits valid emits⟩

/-! The field `x`, and fields that are not split. -/

theorem Machine.Steady.of_step {m : Machine} (fine : m.Fine) (next : ∀ es m', m.step = .more es m' → m'.Steady) : m.Steady := by
  intro n es t run
  cases run with
  | refl => exact fine
  | next head rest => exact next _ _ head _ _ _ rest

/-- The assembler without a symbol. -/
def blank : Reader where
  textp := []
  endp := []
  regmode := false
  yytoken := 0
  yylval := none
  yytext := []
  state := ⟨[], [], none, none, none, 1, [], false, []⟩
  tmps := []

theorem blank_linked : blank.Linked := nofun

theorem x_readable (mode : Bool) : Readable mode ['x'] := ⟨by simp, by simp, by simp⟩

theorem nothing_readable (mode : Bool) : Readable mode [] := ⟨by simp, by simp, by simp⟩

theorem x_steady : (Machine.getargs blank ['x']).Steady := by
  refine .of_step trivial ?_
  rintro _ _ ⟨⟩
  refine .of_step (x_readable true) ?_
  rintro _ _ ⟨⟩
  refine .of_step trivial ?_
  rintro _ _ ⟨⟩
  refine .of_step (nothing_readable true) ?_
  rintro _ _ ⟨⟩
  refine .of_step trivial ?_
  rintro _ _ ⟨⟩
  refine .of_step trivial ?_
  rintro _ _ ⟨⟩
  refine .of_step (nothing_readable true) ?_
  rintro _ _ ⟨⟩
  refine .of_step trivial ?_
  rintro _ _ ⟨⟩

theorem x_splits : (Machine.getargs blank ['x']).Splits ['x'] := (splits_iff blank_linked ['x']).mpr x_steady

/-- A string without its end, a quote, and a parenthesis in an expression. -/
theorem not_split :
    ¬(Machine.getargs blank ['"', 'a']).Splits ['"', 'a'] ∧ ¬(Machine.getargs blank ['\'', 'a', '\'']).Splits ['\'', 'a', '\''] ∧
      ¬(Machine.getargs blank ['$', '(', '1', ')']).Splits ['$', '(', '1', ')'] := by
  refine ⟨fun splits => ?_, fun splits => ?_, fun splits => ?_⟩
  · have readable : Readable true ['"', 'a'] := splits.steady (getargs_valid blank_linked _) _ _ _ (.one rfl)
    have closed := readable.closed rfl
    simp at closed
  · have readable : Readable true ['\'', 'a', '\''] := splits.steady (getargs_valid blank_linked _) _ _ _ (.one rfl)
    exact readable.quote rfl
  · have later := (((splits.next rfl).next rfl).next rfl).next rfl
    obtain ⟨es, result, ⟨n, t, run, done⟩, -⟩ := later.ends
    exact Machine.Nested.endless ⟨rfl, _, rfl⟩ run done

end Scc.As.Args
