import Scc.As.Values
import Scc.As.FieldsProofs

set_option linter.all false

/-! Which expressions have the value of their tokens. -/
namespace Scc.As.Args
open Transition Fields

/-! ## Names -/

/-- The symbols stay, and those that are new have the value 0. -/
structure Extends (s s' : State) : Prop where
  syms : ∃ more, s'.syms = s.syms ++ more
  cursym : s'.cursym = s.cursym
  names : ∀ n, nameValue s' n = nameValue s n

theorem Extends.refl (s : State) : Extends s s := ⟨⟨[], (List.append_nil _).symm⟩, rfl, fun _ => rfl⟩

theorem qualify_append {s : State} {n : Name} (linked : ∀ cur ∈ s.cursym, cur < s.syms.length) (more : List Symbol) :
    State.qualify { s with syms := s.syms ++ more } n = s.qualify n := by
  unfold State.qualify
  dsimp only
  split
  · rename_i cur _ current
    have same : State.sym { s with syms := s.syms ++ more } cur = s.sym cur := by
      unfold State.sym
      dsimp only
      rw [List.getElem?_append_left (linked cur current)]
    rw [same]
  · rfl

theorem find_append (s : State) (full : Name) (sym : Symbol) :
    State.find { s with syms := s.syms ++ [sym] } full = s.find full ∨
      s.find full = none ∧ State.find { s with syms := s.syms ++ [sym] } full = some s.syms.length := by
  unfold State.find
  dsimp only
  rw [List.findIdx?_append]
  cases s.syms.findIdx? _ with
  | some i => exact .inl rfl
  | none =>
    rw [Option.none_or, List.findIdx?_singleton]
    split
    · exact .inr ⟨rfl, by simp⟩
    · exact .inl rfl

theorem valueOf_append {s : State} {i : Nat} (inside : i < s.syms.length) (more : List Symbol) :
    State.valueOf { s with syms := s.syms ++ more } i = s.valueOf i := by
  unfold State.valueOf
  dsimp only
  rw [List.getElem?_append_left inside]

theorem find_inside {s : State} {full : Name} {i : Nat} (found : s.find full = some i) : i < s.syms.length :=
  (List.findIdx?_eq_some_iff_getElem.mp found).1

theorem lookup_extends {s s' : State} {n : Name} {i : Nat} (linked : ∀ cur ∈ s.cursym, cur < s.syms.length)
    (looked : s.lookup n = .ok (s', i)) : Extends s s' ∧ i < s'.syms.length ∧ s'.valueOf i = nameValue s n := by
  obtain ⟨full, qualified, ⟨found, rfl⟩ | ⟨missing, rfl, rfl⟩⟩ := State.lookup_cases looked
  · refine ⟨.refl _, find_inside found, ?_⟩
    rw [nameValue, qualified]
    simp [found]
  · refine ⟨⟨⟨_, rfl⟩, rfl, fun n => ?_⟩, by simp, ?_⟩
    · unfold nameValue
      rw [qualify_append linked]
      cases s.qualify n with
      | error stop => rfl
      | ok other =>
        dsimp only
        rcases find_append s other _ with same | ⟨none, last⟩
        · rw [same]
          cases found : s.find other with
          | none => rfl
          | some j => exact valueOf_append (find_inside found) _
        · rw [last, none]
          simp [State.valueOf]
    · rw [nameValue, qualified]
      simp [missing, State.valueOf]

/-! ## Values that stay -/

/-- The values of the nodes stay. -/
structure Grows (r r' : Reader) : Prop where
  tmps : ∃ more, r'.tmps = r.tmps ++ more
  state : Extends r.state r'.state

namespace Reader
variable {r r' : Reader} {np : Node} {v : Nat}

theorem deref_grows (grows : Grows r r') {sym : Option Sym} {p : Bool × Nat} (found : r.deref sym = .ok p) :
    r'.deref sym = .ok p := by
  cases sym with
  | none => cases found
  | some sym =>
    cases sym with
    | table i =>
      obtain ⟨more, syms⟩ := grows.state.syms
      obtain ⟨sym, there, same⟩ := bind_ok.mp found
      have there' : r'.state.sym i = .ok sym := by
        unfold State.sym at there ⊢
        rw [syms]
        cases old : r.state.syms[i]? with
        | none =>
          rw [old] at there
          cases there
        | some old' =>
          rw [List.getElem?_append_left (List.getElem?_eq_some_iff.mp old).1, old]
          rwa [old] at there
      exact bind_ok.mpr ⟨sym, there', same⟩
    | tmp k =>
      obtain ⟨more, tmps⟩ := grows.tmps
      unfold deref at found ⊢
      dsimp only at found ⊢
      rw [tmps]
      cases old : r.tmps[k]? with
      | none =>
        rw [old] at found
        cases found
      | some tmp =>
        rw [List.getElem?_append_left (List.getElem?_eq_some_iff.mp old).1, old]
        rwa [old] at found

theorem value_grows (grows : Grows r r') (found : r.value np = .ok v) : r'.value np = .ok v := by
  obtain ⟨p, there, same⟩ := bind_ok.mp found
  exact bind_ok.mpr ⟨p, deref_grows grows there, same⟩

theorem number_reads (read : r.number = .ok r') :
    ∃ v, Numbers.number r.endp = .ok (v, r'.endp) ∧ r'.yytoken = NUMBER ∧ r'.yylval = some (.tmp r.tmps.length) ∧
      r'.tmps = r.tmps ++ [⟨v, none⟩] ∧ r'.state = r.state := by
  obtain ⟨⟨v, endp⟩, value, read⟩ := bind_ok.mp read
  obtain ⟨r₁, copied, same⟩ := bind_ok.mp read
  obtain ⟨_, -, rfl, -⟩ := tok2str_ok copied
  cases same
  exact ⟨v, value, rfl, rfl, rfl, rfl⟩

theorem iden_reads (linked : r.Linked) (same : r.textp = r.endp) (read : r.iden = .ok r') :
    (r'.yytoken = REG ∨ r'.yytoken = IDEN) ∧ r'.tmps = r.tmps ∧ r'.endp = r.endp.dropWhile idchar ∧ Extends r.state r'.state ∧
      ∃ i, r'.yylval = some (.table i) ∧
        ∀ np, np.sym = some (.table i) → r'.value np = .ok (nameValue r.state (r.endp.takeWhile idchar)) := by
  obtain ⟨r₁, copied, read⟩ := bind_ok.mp read
  obtain ⟨text, -, rfl, taken⟩ := tok2str_ok copied
  obtain ⟨⟨s, i⟩, looked, read⟩ := bind_ok.mp read
  obtain ⟨sym, there, same'⟩ := bind_ok.mp read
  cases same'
  have name : text = r.endp.takeWhile idchar := by
    rw [taken, same]
    have split := List.takeWhile_append_dropWhile (p := idchar) (l := r.endp)
    have length := congrArg List.length split
    rw [List.length_append] at length
    have count : r.endp.length - (r.endp.dropWhile idchar).length = (r.endp.takeWhile idchar).length := by omega
    rw [count]
    exact (congrArg (List.take _) split.symm).trans (List.take_left' rfl)
  obtain ⟨extends_, inside, value⟩ := lookup_extends linked looked
  refine ⟨?_, rfl, rfl, extends_, i, rfl, fun np here => ?_⟩
  · dsimp only
    split
    · exact .inl rfl
    · exact .inr rfl
  · unfold Reader.value
    rw [here]
    unfold deref
    dsimp only
    rw [there, ← name, ← value]
    unfold State.sym at there
    cases found : s.syms[i]? with
    | none =>
      rw [found] at there
      cases there
    | some sym' =>
      rw [found] at there
      cases there
      rw [State.valueOf, found]
      rfl

theorem operator_reads {c : Char} (read : r.operator c = .ok r') :
    r'.tmps = r.tmps ∧ r'.state = r.state ∧ r'.endp = r.endp.tail ∧
      r'.yytoken =
        (if c = '>' then follow r.textp '=' '>' LE SHL (code '>')
        else if c = '<' then follow r.textp '=' '<' GE SHR (code '>')
        else (code c, r.textp)).1 := by
  obtain ⟨r₁, copied, same⟩ := bind_ok.mp read
  obtain ⟨_, -, rfl, -⟩ := tok2str_ok copied
  cases same
  exact ⟨rfl, rfl, rfl, rfl⟩

end Reader

/-! ## The next token -/

/-- The code of a token of one character that is read as it is written. -/
def Lexeme.token : Lexeme → Option Int
  | .op .times => some (code '*')
  | .op .divide => some (code '/')
  | .op .mod => some (code '%')
  | .op .plus => some (code '+')
  | .op .minus => some (code '-')
  | .op .gt => some (code '>')
  | .op .eq => some (code '=')
  | .op .or => some (code '|')
  | .op .xor => some (code '^')
  | .op .and => some (code '&')
  | .not => some (code '!')
  | .open_ => some (code '(')
  | .close => some (code ')')
  | _ => none

/-- The text starts with the second character of an operator. -/
def Compares (s : List Char) : Prop := ∃ c t, s = c :: t ∧ (c = '<' ∨ c = '>' ∨ c = '=')

/-- The tokens from the one that has been read on; `b` is where the new temporary symbols start. -/
inductive Ahead (env : Name → Nat) (r : Reader) (b : Nat) : List Lexeme → Prop where
  | nil (token : r.yytoken = EOS) (rest : r.endp = []) : Ahead env r b []
  | number {v k : Nat} {xs : List Lexeme} (token : r.yytoken = NUMBER) (sym : r.yylval = some (.tmp k)) (above : b ≤ k)
      (value : ∀ np, np.sym = some (.tmp k) → r.value np = .ok v) (rest : Lexes r.textp xs) : Ahead env r b (.number v :: xs)
  | name {n : Name} {i : Nat} {xs : List Lexeme} (token : r.yytoken = IDEN) (sym : r.yylval = some (.table i))
      (value : ∀ np, np.sym = some (.table i) → r.value np = .ok (env n)) (rest : Lexes r.textp xs) : Ahead env r b (.name n :: xs)
  | register {xs : List Lexeme} (token : r.yytoken = REG) : Ahead env r b xs
  | sign {x : Lexeme} {xs : List Lexeme} (token : x.token = some r.yytoken) (rest : Lexes r.textp xs) : Ahead env r b (x :: xs)
  /-- The second character of an operator is read once more. -/
  | broken {xs : List Lexeme} (token : r.yytoken = SHL ∨ r.yytoken = SHR ∨ r.yytoken = GE ∨ r.yytoken = LE)
      (rest : Compares r.textp) : Ahead env r b xs

theorem single_space {c : Char} {x : Lexeme} (one : Lexeme.single c = some x) : isspace c = false := by
  unfold Lexeme.single at one
  split at one
  all_goals first | rfl | cases one

theorem double_space {c d : Char} {op : Binop} (two : Lexeme.double c d = some op) : isspace c = false := by
  unfold Lexeme.double at two
  split at two
  all_goals first | rfl | cases two

theorem name_space {c : Char} (first : c.isAlpha = true ∨ c = '_' ∨ c = '.') : isspace c = false := by
  rcases first with letter | rfl | rfl
  · exact isAlphanum_spaceless (Bool.or_eq_true_iff.mpr (.inl letter))
  · rfl
  · rfl

theorem digit_space {c : Char} (digit : c.isDigit = true) : isspace c = false :=
  isAlphanum_spaceless (Bool.or_eq_true_iff.mpr (.inr digit))

theorem alpha_digit {c : Char} (letter : c.isAlpha = true) : ¬c.isDigit = true := by
  intro digit
  have below := UInt32.le_iff_toNat_le.mp (of_decide_eq_true (Bool.and_eq_true_iff.mp digit).2)
  have above : 65 ≤ c.val.toNat := by
    rcases Bool.or_eq_true_iff.mp letter with upper | lower
    · exact UInt32.le_iff_toNat_le.mp (of_decide_eq_true upper).1
    · have first := UInt32.le_iff_toNat_le.mp (of_decide_eq_true (Bool.and_eq_true_iff.mp lower).1)
      exact Nat.le_trans (by decide) first
  exact absurd (Nat.le_trans above below) (by decide)

/-- The blanks before a token. -/
theorem Lexes.skip {s : List Char} {xs : List Lexeme} (lexes : Lexes s xs) : Lexes (s.dropWhile isspace) xs := by
  have stays : ∀ {c : Char} {s : List Char} {ys : List Lexeme}, isspace c = false → Lexes (c :: s) ys →
      Lexes ((c :: s).dropWhile isspace) ys := by
    intro c s ys other lexes
    rwa [List.dropWhile_cons_of_neg (by simp [other])]
  induction lexes with
  | nil => exact .nil
  | blank space _ ih => rwa [List.dropWhile_cons_of_pos space]
  | number digit read later => exact stays (digit_space digit) (.number digit read later)
  | wrong digit reported => exact stays (digit_space digit) (.wrong digit reported)
  | name first rest => exact stays (name_space first) (.name first rest)
  | double two rest => exact stays (double_space two) (.double two rest)
  | single one alone rest => exact stays (single_space one) (.single one alone rest)

theorem skip_head {s t : List Char} {c : Char} (starts : s.dropWhile isspace = c :: t) : isspace c = false := by
  induction s with
  | nil => cases starts
  | cons d s ih =>
    by_cases space : isspace d = true
    · rw [List.dropWhile_cons_of_pos space] at starts
      exact ih starts
    · rw [List.dropWhile_cons_of_neg space] at starts
      cases starts
      exact Bool.eq_false_iff.mpr space

namespace Reader
variable {r r' : Reader} {env : Name → Nat} {b : Nat} {c : Char} {s : List Char} {xs : List Lexeme}

/-- The functions that read a token, by its first character. -/
theorem next_number (starts : r.textp.dropWhile isspace = c :: s) (digit : c.isDigit = true) : r.next = r.skipped.number := by
  have other : c ≠ '"' ∧ c ≠ '\'' ∧ c ≠ '%' ∧ ¬(c = '.' || c = '_') = true := by
    refine ⟨?_, ?_, ?_, ?_⟩
    · rintro rfl; cases digit
    · rintro rfl; cases digit
    · rintro rfl; cases digit
    · intro name
      rcases Bool.or_eq_true_iff.mp name with dot | line
      · cases of_decide_eq_true dot; cases digit
      · cases of_decide_eq_true line; cases digit
  obtain ⟨string, quote, percent, name⟩ := other
  rw [next_eq starts, if_neg string, if_neg quote, if_neg percent, if_neg name, if_pos digit]

theorem next_name (starts : r.textp.dropWhile isspace = c :: s) (first : c.isAlpha = true ∨ c = '_' ∨ c = '.') :
    r.next = r.skipped.iden := by
  rw [next_eq starts]
  rcases first with letter | rfl | rfl
  · have other : c ≠ '"' ∧ c ≠ '\'' ∧ c ≠ '%' := by
      refine ⟨?_, ?_, ?_⟩
      · rintro rfl; cases letter
      · rintro rfl; cases letter
      · rintro rfl; cases letter
    obtain ⟨string, quote, percent⟩ := other
    rw [if_neg string, if_neg quote, if_neg percent]
    split
    · rfl
    · rw [if_neg (alpha_digit letter)]
  · rfl
  · rfl

theorem next_operator (starts : r.textp.dropWhile isspace = c :: s) (readable : Readable r.regmode (r.textp.dropWhile isspace))
    (single : (Lexeme.single c).isSome = true) : r.next = r.skipped.operator c := by
  rw [next_eq starts]
  rw [starts] at readable
  by_cases percent : c = '%'
  · subst percent
    rw [readable.percent rfl]
    rfl
  · unfold Lexeme.single at single
    split at single
    all_goals first | rfl | exact absurd rfl percent | cases single

/-- A token of one character that is not the beginning of another one. -/
theorem single_reads {x : Lexeme} (one : Lexeme.single c = some x) (alone : ∀ d, s.head? = some d → Lexeme.double c d = none)
    (starts : r.endp = c :: s) (same : r.textp = r.endp) (less : c ≠ '<') (read : r.operator c = .ok r') :
    x.token = some r'.yytoken := by
  obtain ⟨-, -, -, token⟩ := operator_reads read
  rw [token]
  by_cases greater : c = '>'
  · subst greater
    cases one
    rw [if_pos rfl, same, starts, follow, List.tail_cons]
    have equal : s.head? ≠ some '=' := fun here => nomatch alone '=' here
    have again : s.head? ≠ some '>' := fun here => nomatch alone '>' here
    rw [if_neg equal, if_neg again]
    rfl
  · rw [if_neg greater, if_neg less]
    unfold Lexeme.single at one
    split at one
    all_goals first | (cases one; rfl) | exact absurd rfl less | exact absurd rfl greater | cases one

theorem double_reads {d : Char} {op : Binop} (two : Lexeme.double c d = some op) (starts : r.endp = c :: d :: s)
    (same : r.textp = r.endp) (read : r.operator c = .ok r') :
    (r'.yytoken = SHL ∨ r'.yytoken = SHR ∨ r'.yytoken = GE ∨ r'.yytoken = LE) ∧ Compares r'.endp := by
  obtain ⟨-, -, endp, token⟩ := operator_reads read
  rw [token, endp, same, starts]
  unfold Lexeme.double at two
  split at two
  · exact ⟨.inr (.inl rfl), _, _, rfl, .inl rfl⟩
  · exact ⟨.inl rfl, _, _, rfl, .inr (.inl rfl)⟩
  · exact ⟨.inr (.inr (.inl rfl)), _, _, rfl, .inr (.inr rfl)⟩
  · exact ⟨.inr (.inr (.inr rfl)), _, _, rfl, .inr (.inr rfl)⟩
  · cases two

theorem single_of_double {d : Char} {op : Binop} (two : Lexeme.double c d = some op) : (Lexeme.single c).isSome = true := by
  unfold Lexeme.double at two
  split at two
  all_goals first | rfl | cases two

/-- What has been read of a text of tokens. -/
theorem next_ahead (linked : r.Linked) (names : ∀ n, nameValue r.state n = env n) (lexes : Lexes r.textp xs)
    (readable : Readable r.regmode (r.textp.dropWhile isspace))
    (less : ∀ s, r.textp.dropWhile isspace = '<' :: s → s.head? = some '<' ∨ s.head? = some '=')
    (bound : b ≤ r.tmps.length) (read : r.next = .ok r') : Ahead env r' b xs ∧ Grows r r' := by
  have lexes := lexes.skip
  have cursor := (next_scanned linked read).1.cursor
  cases starts : r.textp.dropWhile isspace with
  | nil =>
    rw [starts] at lexes
    cases lexes
    cases (next_end starts).symm.trans read
    exact ⟨.nil rfl starts, ⟨[], (List.append_nil _).symm⟩, .refl _⟩
  | cons c s =>
    have space := skip_head starts
    have begin : r.skipped.endp = c :: s := starts
    rw [starts] at lexes
    cases lexes with
    | blank space' => cases space.symm.trans space'
    | number digit value later =>
      rw [next_number starts digit] at read
      obtain ⟨v, value', token, sym, tmps, state⟩ := number_reads read
      rw [begin] at value'
      cases value.symm.trans value'
      rw [← cursor] at later
      refine ⟨.number token sym bound (fun np here => ?_) later, ⟨_, tmps⟩, state ▸ .refl _⟩
      unfold Reader.value deref
      rw [here, tmps]
      dsimp only
      rw [List.getElem?_concat_length]
      rfl
    | wrong digit reported =>
      rw [next_number starts digit] at read
      obtain ⟨v, value', -⟩ := number_reads read
      rw [begin] at value'
      cases reported.symm.trans value'
    | name first rest =>
      rw [next_name starts first] at read
      obtain ⟨token, tmps, endp, extends_, i, sym, value⟩ := iden_reads (r := r.skipped) linked rfl read
      refine ⟨?_, ⟨[], tmps.trans (List.append_nil _).symm⟩, extends_⟩
      rcases token with reg | iden
      · exact .register reg
      · refine .name iden sym (fun np here => ?_) ?_
        · rw [value np here, begin]
          exact congrArg Except.ok (names _)
        · rw [cursor, endp, begin]
          exact rest
    | double two rest =>
      rw [next_operator starts readable (single_of_double two)] at read
      obtain ⟨tmps, state, -⟩ := operator_reads read
      obtain ⟨token, compares⟩ := double_reads two begin rfl read
      rw [← cursor] at compares
      exact ⟨.broken token compares, ⟨[], tmps.trans (List.append_nil _).symm⟩, state ▸ .refl _⟩
    | single one alone rest =>
      have apart : c ≠ '<' := by
        rintro rfl
        rcases less s starts with again | equal
        · cases alone _ again
        · cases alone _ equal
      rw [next_operator starts readable (one ▸ rfl)] at read
      obtain ⟨tmps, state, endp, -⟩ := operator_reads read
      have token := single_reads one alone begin rfl apart read
      refine ⟨.sign token ?_, ⟨[], tmps.trans (List.append_nil _).symm⟩, state ▸ .refl _⟩
      rw [cursor, endp, begin]
      exact rest

end Reader

/-! ## The invariant -/

/-- What is read behind an operand. -/
inductive Follows (r : Reader) : List Lexeme → Prop where
  | nil (token : r.yytoken = EOS) (rest : r.endp = []) : Follows r []
  | operand {xs : List Lexeme} (token : r.yytoken = NUMBER ∨ r.yytoken = IDEN ∨ r.yytoken = REG) : Follows r xs
  | sign {x : Lexeme} {xs : List Lexeme} (token : x.token = some r.yytoken) (rest : Lexes r.textp xs) : Follows r (x :: xs)
  | broken {xs : List Lexeme} (token : r.yytoken = SHL ∨ r.yytoken = SHR ∨ r.yytoken = GE ∨ r.yytoken = LE)
      (rest : Compares r.textp) : Follows r xs

theorem Ahead.follows {env : Name → Nat} {r : Reader} {b : Nat} {xs : List Lexeme} (ahead : Ahead env r b xs) : Follows r xs := by
  cases ahead with
  | nil token rest => exact .nil token rest
  | number token => exact .operand (.inl token)
  | name token => exact .operand (.inr (.inl token))
  | register token => exact .operand (.inr (.inr token))
  | sign token rest => exact .sign token rest
  | broken token rest => exact .broken token rest

/-- The temporary symbol of a node is an old one. -/
def Node.Below (b : Nat) (np : Node) : Prop := ∀ k, np.sym = some (.tmp k) → k < b

/-- The operand of a function, whose temporary symbol is a new one. -/
structure Held (r : Reader) (b : Nat) (np : Node) (v : Nat) : Prop where
  value : r.value np = .ok v
  above : ∀ k, np.sym = some (.tmp k) → b ≤ k
  addr : np.addr = some ANUMBER
  number : np.op = NUMBER → ∃ k, np.sym = some (.tmp k)

/-- The calls that wait for a function of the grammar, with the tokens before it. -/
inductive Context (env : Name → Nat) (r : Reader) : List Frame → Fn → List Lexeme → Nat → Prop where
  | imm {b : Nat} : Context env r [.imm] .expr [] b
  | left {st : List Frame} {f : Fn} {xs : List Lexeme} {b : Nat} (outer : Context env r st f xs b) :
      Context env r (.left f :: st) f.left xs b
  | right {st : List Frame} {op : Binop} {t : Int} {l : Node} {v b b' : Nat} {xs ys : List Lexeme}
      (outer : Context env r st op.fn xs b) (value : Value env op.fn ys v) (held : r.value l = .ok v) (below : l.Below b')
      (le : b ≤ b') (token : (Lexeme.op op).token = some t) :
      Context env r (.right op.fn t l :: st) op.fn.right (xs ++ (ys ++ [.op op])) b'
  | unary {st : List Frame} {x : Lexeme} {f : Nat → Nat} {t : Int} {b : Nat} {xs : List Lexeme}
      (outer : Context env r st .unary xs b) (op : x.unop = some f) (token : x.token = some t) :
      Context env r (.unary t :: st) .primary (xs ++ [x]) b

/-- The values below `b` stay. -/
theorem Context.mono {env : Name → Nat} {r r' : Reader} {st : List Frame} {f : Fn} {xs : List Lexeme} {b : Nat}
    (context : Context env r st f xs b) (stay : ∀ np v, np.Below b → r.value np = .ok v → r'.value np = .ok v) :
    Context env r' st f xs b := by
  induction context with
  | imm => exact .imm
  | left _ ih => exact .left (ih stay)
  | right _ value held below le token ih =>
    refine .right (ih fun np v below => ?_) value (stay _ _ below held) below le token
    exact stay np v fun k here => (below k here).trans_le le
  | unary _ op token ih => exact .unary (ih stay) op token

theorem Context.grows {env : Name → Nat} {r r' : Reader} {st : List Frame} {f : Fn} {xs : List Lexeme} {b : Nat}
    (context : Context env r st f xs b) (grows : Grows r r') : Context env r' st f xs b :=
  context.mono fun _ _ _ found => Reader.value_grows grows found

/-- The token begins no operand. -/
def Refused (token : Int) : Prop :=
  token ≠ IDEN ∧ token ≠ NUMBER ∧ token ≠ code '(' ∧ token ≠ code '!' ∧ token ≠ code '-' ∧ token ≠ code '+'

instance (token : Int) : Decidable (Refused token) := inferInstanceAs (Decidable (_ ∧ _ ∧ _ ∧ _ ∧ _ ∧ _))

/-- The states of a run on an expression with the tokens `all`. -/
inductive Evaluating (env : Name → Nat) (all : List Lexeme) : Machine → Prop where
  | begins {r : Reader} {st : List Frame} {f : Fn} {xs ys : List Lexeme} {b : Nat} (context : Context env r st f xs b)
      (rest : Lexes r.textp ys) (split : xs ++ ys = all) (bound : b ≤ r.tmps.length) :
      Evaluating env all ⟨r, [], .read (.call f), st⟩
  | call {r : Reader} {st : List Frame} {f g : Fn} {xs ys : List Lexeme} {b : Nat} (context : Context env r st f xs b)
      (tail : f = g ∨ f = .unary ∧ g = .primary) (ahead : Ahead env r b ys) (split : xs ++ ys = all)
      (bound : b ≤ r.tmps.length) : Evaluating env all ⟨r, [], .call g, st⟩
  | operand {r : Reader} {st : List Frame} {f : Fn} {x : Lexeme} {xs ys : List Lexeme} {b v : Nat} {np : Node}
      (context : Context env r st f xs b) (value : Value env f [x] v) (held : Held r b np v) (rest : Lexes r.textp ys)
      (split : xs ++ x :: ys = all) (bound : b ≤ r.tmps.length) : Evaluating env all ⟨r, [], .read (.ret np), st⟩
  | loop {r : Reader} {st : List Frame} {f : Fn} {xs ws ys : List Lexeme} {b v : Nat} {np : Node}
      (context : Context env r st f xs b) (value : Value env f ws v) (held : Held r b np v) (follows : Follows r ys)
      (split : xs ++ (ws ++ ys) = all) (bound : b ≤ r.tmps.length) : Evaluating env all ⟨r, [], .loop f np, st⟩
  | ret {r : Reader} {st : List Frame} {f : Fn} {xs ws ys : List Lexeme} {b v : Nat} {np : Node}
      (context : Context env r st f xs b) (value : Value env f ws v) (held : Held r b np v) (follows : Follows r ys)
      (split : xs ++ (ws ++ ys) = all) (bound : b ≤ r.tmps.length) : Evaluating env all ⟨r, [], .ret np, st⟩
  | finish {r : Reader} {xs ys : List Lexeme} {v : Nat} {np : Node} (value : Value env .expr xs v)
      (held : r.value np = .ok v) (follows : Follows r ys) (split : xs ++ ys = all) : Evaluating env all ⟨r, [], .finish np, []⟩
  | last {r : Reader} {k : Control} {v : Nat} {np : Node} (value : Value env .expr all v) (held : r.value np = .ok v)
      (place : k = .operand ∧ r.endp = [] ∨ k = .read .switch ∧ r.textp = [] ∨ k = .switch ∧ r.yytoken = EOS) :
      Evaluating env all ⟨r, [np], k, []⟩
  /-- An operator of two characters, which is an error. -/
  | lost {r : Reader} {args : List Node} {st : List Frame} {f : Fn} (rest : Compares r.textp) :
      Evaluating env all ⟨r, args, .read (.call f), st⟩
  | refused {r : Reader} {args : List Node} {st : List Frame} {f : Fn} (token : Refused r.yytoken) :
      Evaluating env all ⟨r, args, .call f, st⟩

/-! ## What a step keeps -/

namespace Lexeme

theorem token_sign {x : Lexeme} {t : Int} (token : x.token = some t) : t ≠ EOS ∧ t ≠ IDEN ∧ t ≠ NUMBER ∧ t ≠ code ',' := by
  unfold Lexeme.token at token
  split at token
  all_goals first | (cases token; decide) | cases token

theorem token_takes {x : Lexeme} {t : Int} {f : Fn} (token : x.token = some t) (takes : f.takes t = true) :
    ∃ op, x = .op op ∧ op.fn = f := by
  unfold Lexeme.token at token
  split at token
  all_goals first | (cases token; cases f <;> first | exact ⟨_, rfl, rfl⟩ | cases takes) | cases token

theorem token_unop {x : Lexeme} {t : Int} (token : x.token = some t) (sign : t = code '!' ∨ t = code '-' ∨ t = code '+') :
    ∃ f, x.unop = some f := by
  unfold Lexeme.token at token
  split at token
  all_goals first | (cases token; first | exact ⟨_, rfl⟩ | exact absurd sign (by decide)) | cases token

theorem token_binop {op : Binop} {t : Int} (token : (Lexeme.op op).token = some t) : binop t = some op ∨ op = .and := by
  cases op
  all_goals first | (cases token; exact .inl rfl) | exact .inr rfl | cases token

end Lexeme

/-- The operators that are computed give what they mean. -/
theorem fold_meaning {op : Binop} {l r v : Nat} (folded : As.fold op l r = .ok v) (simple : op.fn ≠ .mul) :
    op.meaning l r = some v := by
  cases op
  all_goals first | exact absurd rfl simple | (cases folded; rfl) | cases folded

theorem Reader.value_inside {r : Reader} {np : Node} {v : Nat} (found : r.value np = .ok v) : np.Below r.tmps.length := by
  intro k here
  unfold Reader.value Reader.deref at found
  rw [here] at found
  dsimp only at found
  by_contra outside
  rw [List.getElem?_eq_none (Nat.le_of_not_lt outside)] at found
  cases found

theorem Held.grows {r r' : Reader} {b v : Nat} {np : Node} (held : Held r b np v) (grows : Grows r r') : Held r' b np v :=
  ⟨Reader.value_grows grows held.value, held.above, held.addr, held.number⟩

theorem Grows.bound {r r' : Reader} {b : Nat} (grows : Grows r r') (bound : b ≤ r.tmps.length) : b ≤ r'.tmps.length := by
  obtain ⟨more, tmps⟩ := grows.tmps
  rw [tmps, List.length_append]
  omega

theorem Grows.regctx (r : Reader) (mode : Bool) : Grows r { r with regmode := mode } := ⟨⟨[], (List.append_nil _).symm⟩, .refl _⟩

theorem Ahead.regctx {env : Name → Nat} {r : Reader} {b : Nat} {xs : List Lexeme} (ahead : Ahead env r b xs) (mode : Bool) :
    Ahead env { r with regmode := mode } b xs := by
  cases ahead with
  | nil token rest => exact .nil token rest
  | number token sym above value rest => exact .number token sym above value rest
  | name token sym value rest => exact .name token sym value rest
  | register token => exact .register token
  | sign token rest => exact .sign token rest
  | broken token rest => exact .broken token rest

theorem Ahead.sign_of {env : Name → Nat} {r : Reader} {b : Nat} {xs : List Lexeme} (ahead : Ahead env r b xs)
    (sign : r.yytoken = code '!' ∨ r.yytoken = code '-' ∨ r.yytoken = code '+') :
    ∃ x ys, xs = x :: ys ∧ x.token = some r.yytoken ∧ Lexes r.textp ys := by
  cases ahead with
  | sign token rest => exact ⟨_, _, rfl, token, rest⟩
  | nil token | number token | name token | register token =>
    rw [token] at sign
    exact absurd sign (by decide)
  | broken token =>
    rcases token with token | token | token | token <;> rw [token] at sign <;> exact absurd sign (by decide)

/-- The symbols of the expressions do not bear on what is read next. -/
theorem Follows.same {r r' : Reader} {xs : List Lexeme} (follows : Follows r xs) (token : r'.yytoken = r.yytoken)
    (textp : r'.textp = r.textp) (endp : r'.endp = r.endp) : Follows r' xs := by
  cases follows with
  | nil here rest => exact .nil (token ▸ here) (endp ▸ rest)
  | operand here => exact .operand (token ▸ here)
  | sign here rest => exact .sign (token ▸ here) (textp ▸ rest)
  | broken here rest => exact .broken (token ▸ here) (textp ▸ rest)

/-- A unary operator puts its value in the symbol of the number. -/
theorem Reader.unaryop_number {r : Reader} {np : Node} {b v : Nat} {x : Lexeme} {f : Nat → Nat} {t : Int} (held : Held r b np v)
    (number : np.op = NUMBER) (op : x.unop = some f) (token : x.token = some t) :
    ∃ r', r.unaryop t np = .ok (r', np) ∧ Held r' b np (f v) ∧ r'.state = r.state ∧ r'.tmps.length = r.tmps.length ∧
      r'.yytoken = r.yytoken ∧ r'.textp = r.textp ∧ r'.endp = r.endp ∧
      ∀ np' w, np'.Below b → r.value np' = .ok w → r'.value np' = .ok w := by
  obtain ⟨k, sym⟩ := held.number number
  have above := held.above k sym
  have inside := Reader.value_inside held.value k sym
  let set (w : Nat) : Reader := { r with tmps := r.tmps.modify k fun tmp => { tmp with value := w } }
  have stored : ∀ w, r.setValue w np.sym = .ok (set w) := by
    intro w
    rw [sym]
    rfl
  have value : ∀ w, (set w).value np = .ok w := by
    intro w
    unfold Reader.value Reader.deref
    rw [sym]
    dsimp only [set]
    rw [List.getElem?_modify_eq, List.getElem?_eq_getElem inside]
    rfl
  have others : ∀ w np' u, np'.Below b → r.value np' = .ok u → (set w).value np' = .ok u := by
    intro w np' u below found
    unfold Reader.value Reader.deref at found ⊢
    cases symbol : np'.sym with
    | none =>
      rw [symbol] at found
      cases found
    | some s =>
      rw [symbol] at found
      cases s with
      | table i => exact found
      | tmp j =>
        have apart : k ≠ j := by
          have := below j symbol
          omega
        dsimp only [set]
        rw [List.getElem?_modify_ne _ _ apart]
        exact found
  refine ⟨set (f v), ?_, ⟨value _, held.above, held.addr, held.number⟩, rfl, List.length_modify .., rfl, rfl, rfl, others _⟩
  unfold Reader.unaryop
  rw [if_neg (not_not.mpr held.addr), if_neg (not_not.mpr number), held.value]
  unfold Lexeme.unop at op
  split at op
  all_goals first
    | (cases op; cases token; exact congrArg (· >>= fun r' => pure (r', np)) (stored _))
    | cases op

namespace Machine
variable {env : Name → Nat} {all xs ys : List Lexeme} {m : Machine} {r : Reader} {args : List Node} {st : List Frame} {f g : Fn}
  {np : Node} {b v : Nat} {field : List Char}

/-- What a step should keep, from a state with this reader. -/
def Keeps (env : Name → Nat) (all : List Lexeme) (r : Reader) : Step → Prop
  | .done (.ok args) => ∃ np v, args = [np] ∧ r.value np = .ok v ∧ Value env .expr all v
  | .done (.error _) => True
  | .more _ m => Evaluating env all m ∧ ∀ n, nameValue m.reader.state n = nameValue r.state n

theorem keeps_begins (context : Context env r st f xs b) (rest : Lexes r.textp ys) (split : xs ++ ys = all)
    (bound : b ≤ r.tmps.length) (linked : r.Linked) (names : ∀ n, nameValue r.state n = env n)
    (exact_ : Exact ⟨r, args, .read (.call f), st⟩) : Keeps env all r (step ⟨r, [], .read (.call f), st⟩) := by
  unfold step
  dsimp only
  cases read : r.next with
  | error stop => trivial
  | ok r' =>
    obtain ⟨ahead, grows⟩ := Reader.next_ahead linked names rest exact_.fine (exact_.less _ · rfl) bound read
    exact ⟨.call (context.grows grows) (.inl rfl) ahead split (grows.bound bound), grows.state.names⟩

theorem keeps_operand (context : Context env r st f xs b) {x : Lexeme} (value : Value env f [x] v) (held : Held r b np v)
    (rest : Lexes r.textp ys) (split : xs ++ x :: ys = all) (bound : b ≤ r.tmps.length) (linked : r.Linked)
    (names : ∀ n, nameValue r.state n = env n) (exact_ : Exact ⟨r, args, .read (.ret np), st⟩) :
    Keeps env all r (step ⟨r, [], .read (.ret np), st⟩) := by
  unfold step
  dsimp only
  cases read : r.next with
  | error stop => trivial
  | ok r' =>
    obtain ⟨ahead, grows⟩ := Reader.next_ahead linked names rest exact_.fine (exact_.less _ · rfl) (Nat.zero_le _) read
    exact ⟨.ret (context.grows grows) value (held.grows grows) ahead.follows split (grows.bound bound), grows.state.names⟩

theorem keeps_call (context : Context env r st f xs b) (tail : f = g ∨ f = .unary ∧ g = .primary) (ahead : Ahead env r b ys)
    (split : xs ++ ys = all) (bound : b ≤ r.tmps.length) (exact_ : Exact ⟨r, args, .call g, st⟩) :
    Keeps env all r (step ⟨r, [], .call g, st⟩) := by
  have level : ∀ {h : Fn}, f = h → Keeps env all r (enter ⟨r, [], .call g, st⟩ (.left h) (.call h.left)) := by
    rintro h rfl
    exact ⟨.call context.left (.inl rfl) ahead split bound, fun _ => rfl⟩
  cases g with
  | expr =>
    obtain rfl : f = .expr := by simpa using tail
    exact ⟨.call (context.grows (.regctx r false)).left (.inl rfl) (ahead.regctx false) split bound, fun _ => rfl⟩
  | and => exact level (by simpa using tail)
  | relational => exact level (by simpa using tail)
  | add => exact level (by simpa using tail)
  | mul => exact level (by simpa using tail)
  | unary =>
    obtain rfl : f = .unary := by simpa using tail
    change Keeps env all r (Machine.unary _)
    unfold Machine.unary
    dsimp only
    split
    · rename_i sign
      obtain ⟨x, ys, rfl, token, rest⟩ := ahead.sign_of sign
      obtain ⟨h, op⟩ := Lexeme.token_unop token sign
      refine ⟨.begins (context.unary op token) rest ?_ bound, fun _ => rfl⟩
      rw [← split, List.append_assoc]
      rfl
    · exact ⟨.call context (.inr ⟨rfl, rfl⟩) ahead split bound, fun _ => rfl⟩
  | primary =>
    have first : ∀ {xs v}, Value env .primary xs v → Value env f xs v := by
      intro xs v value
      rcases tail with rfl | ⟨rfl, -⟩
      · exact value
      · exact .first value
    change Keeps env all r (Machine.primary _)
    unfold Machine.primary
    dsimp only
    split
    · rename_i operand
      cases ahead with
      | nil token =>
        rw [token] at operand
        exact absurd operand (by decide)
      | @number v k ys token sym above value rest =>
        have node : Held r b (.leaf r.yytoken ANUMBER r.yylval) v :=
          ⟨value _ sym, fun j here => Sym.tmp.inj (Option.some.inj (sym.symm.trans here)) ▸ above, rfl, fun _ => ⟨k, sym⟩⟩
        exact ⟨.operand context (first .number) node rest split bound, fun _ => rfl⟩
      | @name n i ys token sym value rest =>
        have node : Held r b (.leaf r.yytoken ANUMBER r.yylval) (env n) := by
          refine ⟨value _ sym, fun j here => ?_, rfl, fun number => ?_⟩
          · cases sym.symm.trans here
          · exact absurd (token.symm.trans number) (by decide)
        exact ⟨.operand context (first .name) node rest split bound, fun _ => rfl⟩
      | register token =>
        rw [token] at operand
        exact absurd operand (by decide)
      | sign token rest =>
        obtain ⟨-, iden, number, -⟩ := Lexeme.token_sign token
        exact absurd operand (not_or.mpr ⟨iden, number⟩)
      | broken token rest =>
        rcases token with token | token | token | token <;> rw [token] at operand <;> exact absurd operand (by decide)
    split
    · rename_i paren
      exact absurd paren exact_.fine
    · trivial

theorem keeps_loop {ws : List Lexeme} (context : Context env r st f xs b) (value : Value env f ws v) (held : Held r b np v)
    (follows : Follows r ys) (split : xs ++ (ws ++ ys) = all) (bound : b ≤ r.tmps.length) :
    Keeps env all r (step ⟨r, [], .loop f np, st⟩) := by
  change Keeps env all r (Machine.loop _ f np)
  unfold Machine.loop
  dsimp only
  split
  · rename_i takes
    cases follows with
    | nil token =>
      rw [token, takes_eos] at takes
      cases takes
    | operand token =>
      have other : f.takes r.yytoken = false := by
        rcases token with token | token | token <;> rw [token] <;> cases f <;> rfl
      cases takes.symm.trans other
    | @sign x ys token rest =>
      obtain ⟨op, rfl, rfl⟩ := Lexeme.token_takes token takes
      refine ⟨.begins (.right context value held.value (Reader.value_inside held.value) bound token) rest ?_ (Nat.le_refl _), fun _ => rfl⟩
      rw [← split]
      simp
    | broken token rest => exact ⟨.lost rest, fun _ => rfl⟩
  split
  · have same : Follows { r with regmode := true } ys := follows.same rfl rfl rfl
    exact ⟨.ret (context.grows (.regctx r true)) value (held.grows (.regctx r true)) same split bound, fun _ => rfl⟩
  · exact ⟨.ret context value held follows split bound, fun _ => rfl⟩

theorem keeps_finish {v : Nat} (value : Value env .expr xs v) (held : r.value np = .ok v) (follows : Follows r ys)
    (split : xs ++ ys = all) : Keeps env all r (step ⟨r, [], .finish np, []⟩) := by
  change Keeps env all r (Machine.finish _ np)
  unfold Machine.finish
  dsimp only
  split
  · trivial
  · rename_i ends
    have ends : r.yytoken = code ',' ∨ r.yytoken = EOS := by
      by_contra neither
      exact ends (not_or.mp neither)
    cases follows with
    | nil token rest =>
      rw [List.append_nil] at split
      subst split
      exact ⟨.last value held (.inl ⟨rfl, rest⟩), fun _ => rfl⟩
    | operand token =>
      rcases token with token | token | token <;> rw [token] at ends <;> exact absurd ends (by decide)
    | sign token =>
      obtain ⟨eos, -, -, comma⟩ := Lexeme.token_sign token
      exact absurd ends (not_or.mpr ⟨comma, eos⟩)
    | broken token =>
      rcases token with token | token | token | token <;> rw [token] at ends <;> exact absurd ends (by decide)

theorem keeps_last {k : Control} {v : Nat} (value : Value env .expr all v) (held : r.value np = .ok v)
    (place : k = .operand ∧ r.endp = [] ∨ k = .read .switch ∧ r.textp = [] ∨ k = .switch ∧ r.yytoken = EOS) :
    Keeps env all r (step ⟨r, [np], k, []⟩) := by
  rcases place with ⟨rfl, rest⟩ | ⟨rfl, rest⟩ | ⟨rfl, token⟩
  · exact ⟨.last value held (.inr (.inl ⟨rfl, rest⟩)), fun _ => rfl⟩
  · have none_left : r.textp.dropWhile isspace = [] := by
      rw [rest]
      rfl
    unfold step
    dsimp only
    rw [Reader.next_end none_left]
    exact ⟨.last value held (.inr (.inr ⟨rfl, rfl⟩)), fun _ => rfl⟩
  · change Keeps env all r (Machine.switch _)
    unfold Machine.switch
    dsimp only
    rw [if_pos token]
    exact ⟨np, v, rfl, held, value⟩

theorem refused_read {r' : Reader} (compares : Compares r.textp) (readable : Readable r.regmode (r.textp.dropWhile isspace))
    (read : r.next = .ok r') : Refused r'.yytoken ∧ r'.state = r.state := by
  obtain ⟨c, t, text, char⟩ := compares
  have starts : r.textp.dropWhile isspace = c :: t := by
    rw [text]
    rcases char with rfl | rfl | rfl <;> rfl
  have single : (Lexeme.single c).isSome = true := by
    rcases char with rfl | rfl | rfl <;> rfl
  rw [Reader.next_operator starts readable single] at read
  obtain ⟨-, state, -, token⟩ := Reader.operator_reads read
  refine ⟨?_, state⟩
  rw [token]
  have followed : ∀ {s : List Char} {d e : Char} {i j k : Int}, Refused i → Refused j → Refused k →
      Refused (Reader.follow s d e i j k).1 := by
    intro s d e i j k first second third
    unfold Reader.follow
    split
    · exact first
    split
    · exact second
    · exact third
  rcases char with rfl | rfl | rfl
  · exact followed (by decide) (by decide) (by decide)
  · exact followed (by decide) (by decide) (by decide)
  · exact (by decide : Refused (code '='))

theorem keeps_lost (compares : Compares r.textp) (exact_ : Exact ⟨r, args, .read (.call f), st⟩) :
    Keeps env all r (step ⟨r, args, .read (.call f), st⟩) := by
  unfold step
  dsimp only
  cases read : r.next with
  | error stop => trivial
  | ok r' =>
    obtain ⟨token, state⟩ := refused_read compares exact_.fine read
    exact ⟨.refused token, fun _ => congrArg (nameValue · _) state⟩

theorem keeps_refused (refused : Refused r.yytoken) : Keeps env all r (step ⟨r, args, .call f, st⟩) := by
  obtain ⟨iden, number, paren, not, minus, plus⟩ := refused
  cases f with
  | unary =>
    change Keeps env all r (Machine.unary _)
    unfold Machine.unary
    dsimp only
    rw [if_neg (by simp [not, minus, plus])]
    exact ⟨.refused ⟨iden, number, paren, not, minus, plus⟩, fun _ => rfl⟩
  | primary =>
    change Keeps env all r (Machine.primary _)
    unfold Machine.primary
    dsimp only
    rw [if_neg (by simp [iden, number]), if_neg paren]
    trivial
  | _ => exact ⟨.refused ⟨iden, number, paren, not, minus, plus⟩, fun _ => rfl⟩

theorem keeps_ret {ws : List Lexeme} (context : Context env r st f xs b) (value : Value env f ws v) (held : Held r b np v)
    (follows : Follows r ys) (split : xs ++ (ws ++ ys) = all) (bound : b ≤ r.tmps.length) (exact_ : Exact ⟨r, args, .ret np, st⟩) :
    Keeps env all r (step ⟨r, [], .ret np, st⟩) := by
  cases context with
  | imm =>
    have sym : (np.setAddr AIMM).sym = np.sym := by
      cases np
      rfl
    have held' : r.value (np.setAddr AIMM) = .ok v := by
      rw [← held.value]
      unfold Reader.value
      rw [sym]
    refine ⟨.finish value held' follows ?_, fun _ => rfl⟩
    simpa using split
  | left outer => exact ⟨.loop outer (.first value) held follows split bound, fun _ => rfl⟩
  | @right st op t l lv b₀ _ xs ws' outer value' held' below le token =>
    change Keeps env all r (Machine.ret _ np (.right op.fn t l))
    unfold Machine.ret
    dsimp only
    cases made : r.binary t l np with
    | error stop => trivial
    | ok p =>
      obtain ⟨r', np'⟩ := p
      dsimp only
      split
      · trivial
      · rename_i simple
        obtain ⟨lv', rv, left, right, other⟩ := exact_.fine
        rw [if_neg simple] at other
        cases left.2.symm.trans held'
        cases right.2.symm.trans held.value
        have known : binop t = some op := by
          rcases Lexeme.token_binop token with known | rfl
          · exact known
          · cases token
            exact absurd rfl other
        rw [Reader.binary_known left right known] at made
        cases folded : As.fold op lv v with
        | error stop =>
          rw [folded] at made
          cases made
        | ok w =>
          rw [folded] at made
          cases made
          have grows : Grows r (r.result w).1 := ⟨⟨_, rfl⟩, .refl _⟩
          have node : Held (r.result w).1 b₀ (r.result w).2 w := by
            refine ⟨?_, fun k here => ?_, rfl, fun _ => ⟨_, rfl⟩⟩
            · change (do return (← (r.result w).1.deref (some (.tmp r.tmps.length))).2) = _
              unfold Reader.deref Reader.result
              dsimp only
              rw [List.getElem?_concat_length]
              rfl
            · cases here
              exact le.trans bound
          refine ⟨.loop (outer.grows grows) (.binary value' value (fold_meaning folded simple)) node
            (follows.same rfl rfl rfl) ?_ (grows.bound (le.trans bound)), fun _ => rfl⟩
          rw [← split]
          simp
  | @unary st x h t _ xs outer op token =>
    obtain ⟨r', made, held', state, length, yytoken, textp, endp, stay⟩ :=
      Reader.unaryop_number held (exact_.number np t st rfl rfl) op token
    change Keeps env all r (Machine.ret _ np (.unary t))
    unfold Machine.ret
    dsimp only
    rw [made]
    refine ⟨.ret (outer.mono stay) (.unary op value) held' (follows.same yytoken textp endp) ?_ (length ▸ bound),
      fun n => congrArg (nameValue · n) state⟩
    rw [← split]
    simp

theorem keeps_step (evaluating : Evaluating env all m) (valid : m.Valid field) (exact_ : m.Exact)
    (names : ∀ n, nameValue m.reader.state n = env n) : Keeps env all m.reader m.step := by
  cases evaluating with
  | begins context rest split bound => exact keeps_begins context rest split bound valid.linked names exact_
  | call context tail ahead split bound => exact keeps_call context tail ahead split bound exact_
  | operand context value held rest split bound =>
    exact keeps_operand context value held rest split bound valid.linked names exact_
  | loop context value held follows split bound => exact keeps_loop context value held follows split bound
  | ret context value held follows split bound => exact keeps_ret context value held follows split bound exact_
  | finish value held follows split => exact keeps_finish value held follows split
  | last value held place => exact keeps_last value held place
  | lost rest => exact keeps_lost rest exact_
  | refused token => exact keeps_refused token

/-- A run on an expression goes on being one. -/
theorem keeps_run {n : Nat} {es : List Reading} {t : Machine} (run : Runs Machine.step n m es t) (evaluating : Evaluating env all m)
    (valid : m.Valid field) (exact_ : ∀ n es t, Runs Machine.step n m es t → t.Exact)
    (names : ∀ n, nameValue m.reader.state n = env n) :
    Evaluating env all t ∧ t.Valid field ∧ ∀ n, nameValue t.reader.state n = env n := by
  induction run with
  | refl => exact ⟨evaluating, valid, names⟩
  | next head _ ih =>
    have here := exact_ _ _ _ (.refl _)
    have goes := valid.step here.fine
    have keeps := keeps_step evaluating valid here names
    rw [head] at goes keeps
    exact ih keeps.1 goes.1 (fun _ _ _ run => exact_ _ _ _ (.next head run)) fun n => (keeps.2 n).trans (names n)

/-- The `$` of an immediate operand. -/
theorem getargs_immediate (r : Reader) (s : List Char) :
    ∃ es r', Runs Machine.step 3 (.getargs r ('$' :: s)) es ⟨r', [], .read (.call .expr), [.imm]⟩ ∧ r'.textp = s ∧
      r'.state = r.state := by
  have text : Numbers.tok2str ('$' :: s) s = .ok ['$'] := by
    rw [Numbers.tok2str, List.length_cons, Nat.add_sub_cancel_left]
    rfl
  let r₁ : Reader := { r with textp := '$' :: s, endp := '$' :: s, regmode := true }
  let r₂ : Reader := { r₁ with textp := s, endp := s, yytext := ['$'], yytoken := code '$' }
  have read : r₁.next = .ok r₂ := by
    change (Numbers.tok2str ('$' :: s) s >>= _) >>= _ = _
    rw [text]
    rfl
  have first : step (.getargs r ('$' :: s)) = .more [] ⟨r₁, [], .read .switch, []⟩ := rfl
  have second : step ⟨r₁, [], .read .switch, []⟩ = .more [⟨'$' :: s, s, ['$']⟩] ⟨r₂, [], .switch, []⟩ := by
    unfold step
    dsimp only
    rw [read]
    rfl
  have third : step ⟨r₂, [], .switch, []⟩ = .more [] ⟨r₂, [], .read (.call .expr), [.imm]⟩ := rfl
  exact ⟨_, r₂, .next first (.next second (.next third (.refl _))), rfl, rfl⟩

theorem Steady.valid {n : Nat} {es : List Reading} {t : Machine} (steady : m.Steady) (valid : m.Valid field)
    (run : Runs Machine.step n m es t) : t.Valid field := by
  induction run with
  | refl => exact valid
  | next head _ ih =>
    have goes := valid.step (steady _ _ _ (.refl _))
    rw [head] at goes
    exact ih (steady.next head) goes.1

end Machine

/-- An expression is evaluated to the value of its tokens, or there is an error, where every state of the run meets the
condition. -/
theorem evaluates {r : Reader} (linked : r.Linked) {s : List Char} {xs : List Lexeme} (lexes : Lexes s xs)
    (exact_ : ∀ n es t, Runs Machine.step n (.getargs r ('$' :: s)) es t → t.Exact) :
    (Machine.getargs r ('$' :: s)).Evaluates (nameValue r.state) xs := by
  have valid := getargs_valid linked ('$' :: s)
  have steady : (Machine.getargs r ('$' :: s)).Steady := fun n es t run => (exact_ n es t run).fine
  obtain ⟨es, r', start, textp, state⟩ := Machine.getargs_immediate r s
  obtain ⟨fs, result, ⟨n, t, run, done⟩, good⟩ := Machine.Steady.ends _ steady valid
  obtain ⟨k, gs, -, -, rest⟩ := run.to_stop done start
  have begins : Evaluating (nameValue r.state) xs ⟨r', [], .read (.call .expr), [.imm]⟩ :=
    .begins (b := 0) .imm (textp ▸ lexes) rfl (Nat.zero_le _)
  have later : ∀ n es t, Runs Machine.step n ⟨r', [], .read (.call .expr), [.imm]⟩ es t → t.Exact :=
    fun n es t run => exact_ _ _ t (start.trans run)
  obtain ⟨evaluating, valid', names⟩ :=
    Machine.keeps_run rest begins (steady.valid valid start) later fun n => congrArg (nameValue · n) state
  have keeps := Machine.keeps_step evaluating valid' (exact_ n fs t run) names
  refine ⟨n, fs, t, run, ?_⟩
  rw [done] at keeps
  cases result with
  | error stop =>
    obtain ⟨msg, rfl⟩ := good stop rfl
    exact .inl ⟨msg, done⟩
  | ok args =>
    obtain ⟨np, v, rfl, held, value⟩ := keeps
    exact .inr ⟨np, v, done, held, value⟩


/-! The sum `1+2`, and expressions that are not evaluated. -/

theorem Machine.exact_of_step {m : Machine} (here : m.Exact)
    (later : ∀ es m', m.step = .more es m' → ∀ n fs t, Runs Machine.step n m' fs t → t.Exact) :
    ∀ n es t, Runs Machine.step n m es t → t.Exact := by
  intro n es t run
  cases run with
  | refl => exact here
  | next head rest => exact later _ _ head _ _ _ rest

/-- A text that is read where the condition holds. -/
theorem Machine.exact_read {m : Machine} {k : Control} {c : Char} {s : List Char} (control : m.control = .read k)
    (text : m.reader.textp.dropWhile isspace = c :: s) (other : c ≠ '\'' ∧ c ≠ '"' ∧ c ≠ '%' ∧ c ≠ '<') : m.Exact := by
  obtain ⟨quote, string, percent, less⟩ := other
  constructor
  · unfold Machine.Fine
    rw [control]
    exact ⟨by simp [text, quote], by simp [text, string], by simp [text, percent]⟩
  · intro _ _ _ starts
    rw [text] at starts
    cases starts
    exact absurd rfl less
  · intro _ _ _ returns
    rw [control] at returns
    cases returns

theorem sum_lexes : Lexes ['1', '+', '2'] [.number 1, .op .plus, .number 2] := by
  have last : Lexes ['2'] [.number 2] := .number rfl (show Numbers.number ['2'] = .ok (2, []) from rfl) .nil
  refine .number rfl (show Numbers.number ['1', '+', '2'] = .ok (1, ['+', '2']) from rfl) ?_
  refine .single rfl ?_ last
  rintro _ ⟨⟩
  rfl

theorem Machine.exact_end {m : Machine} {k : Control} (control : m.control = .read k)
    (text : m.reader.textp.dropWhile isspace = []) : m.Exact := by
  constructor
  · unfold Machine.Fine
    rw [control, text]
    exact nothing_readable _
  · intro _ _ _ starts
    rw [text] at starts
    cases starts
  · intro _ _ _ returns
    rw [control] at returns
    cases returns

theorem sum_exact : ∀ n es t, Runs Machine.step n (.getargs blank ['$', '1', '+', '2']) es t → t.Exact := by
  repeat
    refine Machine.exact_of_step ?_ ?_
    · first
      | exact ⟨trivial, nofun, nofun⟩
      | exact Machine.exact_read rfl rfl (by decide)
      | exact Machine.exact_end rfl rfl
      | exact ⟨show _ ≠ _ by decide, nofun, nofun⟩
      | exact ⟨⟨1, 2, ⟨rfl, rfl⟩, ⟨rfl, rfl⟩, by decide⟩, nofun, nofun⟩
    rintro _ _ ⟨⟩

theorem sum_evaluates :
    (Machine.getargs blank ['$', '1', '+', '2']).Evaluates (nameValue blank.state) [.number 1, .op .plus, .number 2] :=
  evaluates blank_linked sum_lexes sum_exact

/-- The run of the field from here ends so. -/
theorem Machine.ends_of_step {m m' : Machine} {es : List Reading} {result : M (List Node)} (step : m.step = .more es m')
    (ends : ∃ fs, Ends Machine.step m' fs result) : ∃ fs, Ends Machine.step m fs result := by
  obtain ⟨fs, n, t, run, done⟩ := ends
  exact ⟨es ++ fs, n + 1, t, .next step run, done⟩

theorem product_fault : ∃ es, Ends Machine.step (.getargs blank ['$', '2', '*', '3']) es (.error .fault) := by
  repeat refine Machine.ends_of_step rfl ?_
  exact ⟨[], 0, _, .refl _, rfl⟩

/-- The product `2*3` is not evaluated. -/
theorem not_evaluated :
    ¬(Machine.getargs blank ['$', '2', '*', '3']).Evaluates (nameValue blank.state) [.number 2, .op .times, .number 3] := by
  rintro ⟨n, es, t, run, ends⟩
  obtain ⟨fs, faults⟩ := product_fault
  rcases ends with ⟨msg, done⟩ | ⟨np, v, done, -⟩
  · cases (ends_unique ⟨n, t, run, done⟩ faults).2
  · cases (ends_unique ⟨n, t, run, done⟩ faults).2

end Scc.As.Args
