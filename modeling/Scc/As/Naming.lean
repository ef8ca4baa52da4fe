import Scc.As.Changes

set_option linter.all false

/-! Which symbols and sections the names of a source denote. -/
namespace Scc.As
open Transition

/-- The names are equal where upper and lower case are not told apart. -/
def Same (name name' : Name) : Prop := name.map Char.toUpper = name'.map Char.toUpper

instance (name name' : Name) : Decidable (Same name name') := inferInstanceAs (Decidable (_ = _))

/-- Where a name stands in a source. -/
inductive Naming where
  | label (name : Name)
  | reference (name : Name)
  | section_ (name : Name) (attr : Name)   -- .SECTION name,"attr"

def Naming.name : Naming → Name
  | .label name | .reference name | .section_ name _ => name

/-- A name that begins with a dot belongs to the latest label that does not. -/
def qualified (latest : Option Name) (name : Name) : Name :=
  if name.head? = some '.' then latest.getD [] ++ name else name

/-- The assembler after some namings, with the latest label that is not local, what each name denoted,
qualified, and what section each section directive selected. -/
structure Names where
  s : State
  latest : Option Name
  symbols : List (Name × Nat)
  sections : List (Name × Option Nat)

namespace Names

/-- Before the first naming the names of the table denote its symbols. -/
def start (s : State) : Names where
  s := s
  latest := none
  symbols := s.syms.mapIdx fun i sym => (sym.name, i)
  sections := (s.syms.filter fun sym => sym.sec.isSome).map fun sym => (sym.name, sym.sec)

def step (r : Names) : Naming → M Names
  | .label name => do
    let (s, i) ← r.s.deflabel name
    let latest := if name.head? = some '.' then r.latest else some name
    return { r with s, latest, symbols := (qualified r.latest name, i) :: r.symbols }
  | .reference name => do
    let (s, i) ← r.s.lookup name
    return { r with s, symbols := (qualified r.latest name, i) :: r.symbols }
  | .section_ name attr => do
    let (s, i) ← r.s.getiden name
    let s ← s.section_ [.iden i, .string attr]
    return { r with s, symbols := (qualified r.latest name, i) :: r.symbols,
                    sections := (name, s.cursec) :: r.sections }

def run (r : Names) : List Naming → M Names
  | [] => return r
  | n :: ns => do
    let r ← r.step n
    r.run ns

/-- Names denote one symbol where they are the same, and a section directive always selects the same
section. -/
def Right (r : Names) : Prop :=
  (∀ e ∈ r.symbols, ∀ e' ∈ r.symbols, e.2 = e'.2 ↔ Same e.1 e'.1) ∧
    ∀ e ∈ r.sections, ∀ e' ∈ r.sections, e.1 = e'.1 → e.2 = e'.2

end Names

/-- The symbols that have the name are in the hash chain of the name. -/
def State.Chained (s : State) (name : Name) : Prop :=
  ∀ sym ∈ s.syms, Same sym.name name → genhash sym.name % HASHSIZ = genhash name % HASHSIZ

instance (s : State) (name : Name) : Decidable (s.Chained name) := inferInstanceAs (Decidable (∀ _ ∈ _, _))

/-- The condition of a naming: the qualified name fits and the symbols that have it are in its hash
chain, and the name of a section is not taken for a local one. -/
def Naming.Fits (s : State) : Naming → Prop
  | .label name | .reference name => ∃ full, s.qualify name = .ok full ∧ s.Chained full
  | .section_ name _ => s.Chained name ∧ (name.head? = some '.' → s.cursym = none)

/-- A string of C: the NUL is only behind its end. -/
def NulFree (name : Name) : Prop := '\x00' ∉ name

instance (name : Name) : Decidable (NulFree name) := inferInstanceAs (Decidable (¬_))

/-! The comparison of names. -/

theorem toUpper_dot (c : Char) : c.toUpper = '.' ↔ c = '.' := by
  constructor
  · intro dot
    unfold Char.toUpper at dot
    split at dot
    · rename_i lower
      have val := congrArg (fun d : Char => d.val.toNat) dot
      have low : 97 ≤ c.val.toNat := lower.1
      have high : c.val.toNat ≤ 122 := lower.2
      simp only [UInt32.toNat_add] at val
      have shift : ('A'.val - 'a'.val : UInt32).toNat = 2 ^ 32 - 32 := by decide
      have point : ('.' : Char).val.toNat = 46 := rfl
      omega
    · exact dot
  · rintro rfl
    rfl

theorem toNat_ne {c : Char} (text : '\x00' ≠ c) : c.toNat ≠ 0 := by
  intro zero
  exact text (Char.toNat_inj.mp zero).symm

theorem casecmp_same {a b : Name} (text : NulFree a) (text' : NulFree b) : casecmp a b = 0 ↔ Same a b := by
  induction a generalizing b with
  | nil =>
    cases b with
    | nil => simp [casecmp, Same]
    | cons d b =>
      have := toNat_ne (List.ne_of_not_mem_cons text')
      simp [casecmp, Same, this]
  | cons c a ih =>
    cases b with
    | nil =>
      have := toNat_ne (List.ne_of_not_mem_cons text)
      simp [casecmp, Same, this]
    | cons d b =>
      simp only [NulFree, List.mem_cons, not_or] at text text'
      by_cases upper : c.toUpper = d.toUpper
      · simp [casecmp, Same, upper, ih text.2 text'.2]
      · have other : (c.toNat : Int) - d.toNat ≠ 0 := by
          intro zero
          exact upper (congrArg _ (Char.toNat_inj.mp (by omega)))
        simp [casecmp, Same, upper, other]

theorem Same.symm {a b : Name} (same : Same a b) : Same b a := Eq.symm same

theorem Same.trans {a b c : Name} (first : Same a b) (second : Same b c) : Same a c := Eq.trans first second

theorem Same.append {a b c : Name} (same : Same a b) : Same (a ++ c) (b ++ c) := by
  rw [Same, List.map_append, List.map_append, same]

theorem Same.head {a b : Name} (same : Same a b) : a.head? = some '.' ↔ b.head? = some '.' := by
  cases a with
  | nil => cases b with
    | nil => rfl
    | cons _ _ => cases same
  | cons c a => cases b with
    | nil => cases same
    | cons d b =>
      have upper := (List.cons.inj same).1
      simp only [List.head?_cons, Option.some.injEq]
      rw [← toUpper_dot c, ← toUpper_dot d, upper]

/-! A name that is looked up: the table keeps one symbol for each name. -/

/-- The symbol has the name. -/
def State.Has (s : State) (i : Nat) (name : Name) : Prop := ∃ sym : Symbol, s.syms[i]? = some sym ∧ Same sym.name name

/-- No two symbols of the table have the same name. -/
structure State.Table (s : State) : Prop where
  text : ∀ sym ∈ s.syms, NulFree sym.name
  distinct : ∀ (i j : Nat) (name : Name), s.Has i name → s.Has j name → i = j

/-- The symbols stay where they are, with their names and their sections. -/
def State.Keeps (s s' : State) : Prop :=
  ∀ (i : Nat) (sym : Symbol), s.syms[i]? = some sym →
    ∃ sym' : Symbol, s'.syms[i]? = some sym' ∧ sym'.name = sym.name ∧ ∀ k, sym.sec = some k → sym'.sec = some k

namespace State

variable {s s' : State}

theorem Keeps.refl (s : State) : Keeps s s := fun _ sym there => ⟨sym, there, rfl, fun _ sec => sec⟩

theorem Keeps.trans {s'' : State} (first : Keeps s s') (second : Keeps s' s'') : Keeps s s'' := by
  intro i sym there
  obtain ⟨sym', there', name', sec'⟩ := first i sym there
  obtain ⟨sym'', there'', name'', sec''⟩ := second i sym' there'
  exact ⟨sym'', there'', name''.trans name', fun k sec => sec'' k (sec' k sec)⟩

theorem Has.keeps {i : Nat} {name : Name} (has : s.Has i name) (keeps : Keeps s s') : s'.Has i name := by
  obtain ⟨sym, there, same⟩ := has
  obtain ⟨sym', there', name', -⟩ := keeps i sym there
  exact ⟨sym', there', name' ▸ same⟩

theorem Table.found {name : Name} {i : Nat} (table : s.Table) (text : NulFree name) (found : s.find name = some i) :
    s.Has i name := by
  obtain ⟨inside, equal, -⟩ := List.findIdx?_eq_some_iff_getElem.mp found
  rw [Bool.and_eq_true, decide_eq_true_eq, decide_eq_true_eq] at equal
  exact ⟨s.syms[i], List.getElem?_eq_getElem inside,
    (casecmp_same (table.text _ (List.getElem_mem inside)) text).mp equal.2⟩

theorem Table.missing {name : Name} (table : s.Table) (text : NulFree name) (chained : s.Chained name)
    (missing : s.find name = none) : ∀ sym ∈ s.syms, ¬Same sym.name name := by
  intro sym mem same
  have other := List.findIdx?_eq_none_iff.mp missing sym mem
  rw [chained sym mem same, (casecmp_same (table.text sym mem) text).mpr same] at other
  simp at other

theorem Keeps.of_append {sym : Symbol} (syms : s'.syms = s.syms ++ [sym]) : Keeps s s' := by
  intro i a there
  refine ⟨a, ?_, rfl, fun _ sec => sec⟩
  rw [syms, List.getElem?_append_left (List.getElem?_eq_some_iff.mp there).1, there]

/-- A symbol that is changed keeps its name and its section. -/
theorem Keeps.of_modify {i : Nat} {f : Symbol → Symbol} (syms : s'.syms = s.syms.modify i f)
    (name : ∀ sym, (f sym).name = sym.name)
    (sec : ∀ (sym : Symbol) (k : Nat), s.syms[i]? = some sym → sym.sec = some k → (f sym).sec = some k) :
    Keeps s s' := by
  intro j a there
  rw [syms, List.getElem?_modify, there]
  by_cases here : i = j
  · subst here
    exact ⟨f a, by simp, name a, fun k => sec a k there⟩
  · exact ⟨a, by simp [here], rfl, fun _ sec => sec⟩

/-- The names of a table that keeps its symbols and has no new ones. -/
theorem Table.of_keeps (table : s.Table) (keeps : Keeps s s') (length : s'.syms.length = s.syms.length) : s'.Table := by
  have back : ∀ {i : Nat} {sym' : Symbol}, s'.syms[i]? = some sym' → ∃ sym : Symbol, s.syms[i]? = some sym ∧ sym'.name = sym.name := by
    intro i sym' there'
    have inside := (List.getElem?_eq_some_iff.mp there').1
    have there := List.getElem?_eq_getElem (show i < s.syms.length by omega)
    obtain ⟨sym'', there'', name, -⟩ := keeps i _ there
    cases there'.symm.trans there''
    exact ⟨_, there, name⟩
  constructor
  · intro sym' mem'
    obtain ⟨i, there'⟩ := List.mem_iff_getElem?.mp mem'
    obtain ⟨sym, there, name⟩ := back there'
    rw [name]
    exact table.text sym (List.mem_of_getElem? there)
  · rintro i j name ⟨a', ia', same⟩ ⟨b', jb', same'⟩
    obtain ⟨a, ia, na⟩ := back ia'
    obtain ⟨b, jb, nb⟩ := back jb'
    exact table.distinct i j name ⟨a, ia, na ▸ same⟩ ⟨b, jb, nb ▸ same'⟩

theorem Table.of_modify {i : Nat} {f : Symbol → Symbol} (table : s.Table) (syms : s'.syms = s.syms.modify i f)
    (name : ∀ sym, (f sym).name = sym.name)
    (sec : ∀ (sym : Symbol) (k : Nat), s.syms[i]? = some sym → sym.sec = some k → (f sym).sec = some k) :
    Keeps s s' ∧ s'.Table := by
  have keeps := Keeps.of_modify syms name sec
  refine ⟨keeps, table.of_keeps keeps ?_⟩
  rw [syms, List.length_modify]

theorem Table.of_append {sym : Symbol} (table : s.Table) (syms : s'.syms = s.syms ++ [sym]) (text : NulFree sym.name)
    (fresh : ∀ a ∈ s.syms, ¬Same a.name sym.name) : s'.Table := by
  have cases : ∀ {i : Nat} {name : Name}, s'.Has i name →
      s.Has i name ∨ i = s.syms.length ∧ Same sym.name name := by
    rintro i name ⟨a, there, same⟩
    rw [syms] at there
    rcases Nat.lt_or_ge i s.syms.length with inside | outside
    · exact .inl ⟨a, (List.getElem?_append_left inside).symm.trans there, same⟩
    · have last := (List.getElem?_eq_some_iff.mp there).1
      simp only [List.length_append, List.length_singleton] at last
      have here : i = s.syms.length := by omega
      subst here
      rw [List.getElem?_concat_length] at there
      cases there
      exact .inr ⟨rfl, same⟩
  have apart : ∀ {i : Nat} {name : Name}, s.Has i name → ¬Same sym.name name := by
    rintro i name ⟨a, there, same⟩ same'
    exact fresh a (List.mem_of_getElem? there) (same.trans same'.symm)
  constructor
  · intro a mem
    rw [syms, List.mem_append, List.mem_singleton] at mem
    rcases mem with mem | rfl
    · exact table.text a mem
    · exact text
  · intro i j name has has'
    rcases cases has with old | ⟨rfl, same⟩ <;> rcases cases has' with old' | ⟨rfl, same'⟩
    · exact table.distinct i j name old old'
    · exact absurd same' (apart old)
    · exact absurd same (apart old')
    · rfl

/-- A name whose symbols are in its chain denotes the symbol that has it. -/
theorem Table.lookup {name full : Name} {i : Nat} (table : s.Table) (qualified : s.qualify name = .ok full)
    (text : NulFree full) (chained : s.Chained full) (looked : s.lookup name = .ok (s', i)) :
    Keeps s s' ∧ s'.Table ∧ s'.Has i full ∧ s'.cursym = s.cursym := by
  obtain ⟨full', qualified', looked⟩ := lookup_cases looked
  cases qualified.symm.trans qualified'
  rcases looked with ⟨found, rfl⟩ | ⟨missing, rfl, rfl⟩
  · exact ⟨Keeps.refl _, table, table.found text found, rfl⟩
  · exact ⟨.of_append rfl, table.of_append rfl text (table.missing text chained missing),
      ⟨_, List.getElem?_concat_length, rfl⟩, rfl⟩

/-- The current symbol is the latest label that is not local. -/
def Latest (s : State) : Option Nat → Option Name → Prop
  | none, none => True
  | some i, some name => s.Has i name ∧ name.head? ≠ some '.'
  | _, _ => False

theorem Latest.keeps {cursym : Option Nat} {latest : Option Name} (h : s.Latest cursym latest) (keeps : Keeps s s') :
    s'.Latest cursym latest := by
  match cursym, latest, h with
  | none, none, _ => trivial
  | some i, some name, ⟨has, head⟩ => exact ⟨has.keeps keeps, head⟩

theorem qualify_plain {name : Name} (plain : name.head? ≠ some '.') : s.qualify name = .ok name := by
  unfold State.qualify
  split
  · rename_i dot _
    exact absurd dot plain
  · rfl

theorem qualify_global {name : Name} (global : s.cursym = none) : s.qualify name = .ok name := by
  unfold State.qualify
  split
  · rename_i current
    cases global.symm.trans current
  · rfl

/-- What a local name is qualified to, where it fits. -/
theorem qualify_local {name full : Name} {i : Nat} (dot : name.head? = some '.') (current : s.cursym = some i) :
    s.qualify name = .ok full ↔
      ∃ sym, s.sym i = .ok sym ∧ full = sym.name ++ name ∧ full.length ≤ INTIDENTSIZ := by
  unfold State.qualify
  rw [dot, current]
  refine bind_ok.trans ?_
  refine exists_congr fun sym => and_congr_right fun _ => ?_
  dsimp only
  split
  · rename_i long
    constructor
    · intro stop
      cases stop
    · rintro ⟨rfl, short⟩
      omega
  · rename_i short
    constructor
    · intro ok
      cases ok
      exact ⟨rfl, by omega⟩
    · rintro ⟨rfl, -⟩
      rfl

theorem Table.qualify {name full : Name} {latest : Option Name} (table : s.Table) (h : s.Latest s.cursym latest)
    (text : NulFree name) (qualify : s.qualify name = .ok full) : NulFree full ∧ Same full (qualified latest name) := by
  by_cases dot : name.head? = some '.'
  · rw [qualified, if_pos dot]
    cases current : s.cursym with
    | none =>
      cases (qualify_global current).symm.trans qualify
      rw [current] at h
      cases latest with
      | none => exact ⟨text, rfl⟩
      | some _ => exact absurd h id
    | some cur =>
      obtain ⟨sym, found, rfl, -⟩ := (qualify_local dot current).mp qualify
      rw [current] at h
      cases latest with
      | none => exact absurd h id
      | some latest =>
        obtain ⟨⟨sym', there, same⟩, -⟩ := h
        cases (sym_some found).symm.trans there
        refine ⟨fun nul => ?_, same.append⟩
        exact (List.mem_append.mp nul).elim (table.text sym (List.mem_of_getElem? there)) text
  · cases (qualify_plain dot).symm.trans qualify
    rw [qualified, if_neg dot]
    exact ⟨text, rfl⟩

/-- The name of a label is the one that is qualified, which is looked up as it is. -/
theorem labelname_full {name label full : Name} {latest : Option Name} (h : s.Latest s.cursym latest)
    (cut : s.labelname name = .ok label) (qualify : s.qualify name = .ok full) :
    label = full ∧ s.qualify full = .ok full := by
  unfold State.labelname at cut
  by_cases dot : name.head? = some '.'
  · rw [if_pos dot] at cut
    cases current : s.cursym with
    | none =>
      rw [current] at cut
      cases cut
    | some cur =>
      rw [current] at cut h
      obtain ⟨sym, found, rfl, short⟩ := (qualify_local dot current).mp qualify
      obtain ⟨sym', found', cut⟩ := bind_ok.mp cut
      cases found.symm.trans found'
      dsimp only at cut
      have fits : (sym.name ++ name).length ≤ MAXSYM := short
      rw [if_neg (by omega), List.take_of_length_le fits] at cut
      cases cut
      refine ⟨rfl, ?_⟩
      cases latest with
      | none => exact absurd h id
      | some latest =>
        obtain ⟨⟨sym', there, same⟩, head⟩ := h
        cases (sym_some found).symm.trans there
        have plain := mt same.head.mp head
        cases spelled : sym.name with
        | nil =>
          rw [spelled] at qualify
          exact qualify
        | cons c rest =>
          rw [spelled] at plain
          exact qualify_plain plain
  · rw [if_neg dot] at cut
    cases cut
    cases (qualify_plain dot).symm.trans qualify
    exact ⟨rfl, qualify⟩

theorem Table.deflabel {name full : Name} {i : Nat} {latest : Option Name} (table : s.Table)
    (h : s.Latest s.cursym latest) (text : NulFree full) (qualify : s.qualify name = .ok full) (chained : s.Chained full)
    (defined : s.deflabel name = .ok (s', i)) :
    Keeps s s' ∧ s'.Table ∧ s'.Has i full ∧ s'.cursym = if name.head? = some '.' then s.cursym else some i := by
  obtain ⟨label, cut, defined⟩ := bind_ok.mp defined
  obtain ⟨rfl, again⟩ := labelname_full h cut qualify
  obtain ⟨⟨s₁, j⟩, looked, defined⟩ := bind_ok.mp defined
  obtain ⟨keeps, table₁, has, current₁⟩ := table.lookup again text chained looked
  obtain ⟨sym, found, defined⟩ := bind_ok.mp defined
  dsimp only at defined
  split at defined
  · cases defined
  obtain ⟨⟨k, sec⟩, current, defined⟩ := bind_ok.mp defined
  -- the label is set in its symbol, which keeps its name and its section
  obtain ⟨f, syms, rfl, cursym, name', sec'⟩ : ∃ f : Symbol → Symbol, s'.syms = s₁.syms.modify i f ∧ i = j ∧
      (s'.cursym = if name.head? = some '.' then s₁.cursym else some i) ∧
        (∀ sym, (f sym).name = sym.name) ∧ ∀ sym, (f sym).sec = sym.sec := by
    by_cases dot : name.head? = some '.'
    · rw [if_pos dot] at defined ⊢
      cases defined
      exact ⟨_, rfl, rfl, rfl, fun _ => rfl, fun _ => rfl⟩
    · rw [if_neg dot] at defined ⊢
      cases defined
      exact ⟨_, rfl, rfl, rfl, fun _ => rfl, fun _ => rfl⟩
  obtain ⟨keeps', table'⟩ := table₁.of_modify syms name' fun sym _ _ sec => (sec' sym).trans sec
  exact ⟨keeps.trans keeps', table', has.keeps keeps', current₁ ▸ cursym⟩

theorem getiden_lookup {name : Name} {i : Nat} (read : s.getiden name = .ok (s', i)) : s.lookup name = .ok (s', i) := by
  obtain ⟨⟨s₁, j⟩, looked, read⟩ := bind_ok.mp read
  obtain ⟨sym, -, read⟩ := bind_ok.mp read
  split at read
  · cases read
  · cases read
    exact looked

/-- A section directive, on the symbol of its operand, selects the section of the name. -/
theorem Table.defsec {attr : Name} {i : Nat} {sym : Symbol} (table : s.Table) (there : s.syms[i]? = some sym)
    (global : sym.name.head? = some '.' → s.cursym = none) (defined : s.defsec sym.name attr = .ok s') :
    Keeps s s' ∧ s'.Table ∧ s'.cursym = s.cursym ∧
      ∃ sym' k, s'.syms[i]? = some sym' ∧ sym'.name = sym.name ∧ sym'.sec = some k ∧ s'.cursec = some k := by
  have outside : State.Table { s with cursec := none } := ⟨table.text, table.distinct⟩
  have chained : State.Chained { s with cursec := none } sym.name := by
    intro other mem same
    obtain ⟨j, at_j⟩ := List.mem_iff_getElem?.mp mem
    obtain rfl := table.distinct j i sym.name ⟨other, at_j, same⟩ ⟨sym, there, rfl⟩
    cases at_j.symm.trans there
    rfl
  have qualify : State.qualify { s with cursec := none } sym.name = .ok sym.name := by
    by_cases dot : sym.name.head? = some '.'
    · exact qualify_global (global dot)
    · exact qualify_plain dot
  obtain ⟨⟨s₁, j⟩, looked, defined⟩ := bind_ok.mp defined
  obtain ⟨keeps, table₁, has, current₁⟩ :=
    outside.lookup qualify (table.text sym (List.mem_of_getElem? there)) chained looked
  obtain ⟨sym₁, there₁, name₁, -⟩ := keeps i sym there
  obtain rfl := table₁.distinct i j sym.name ⟨sym₁, there₁, congrArg _ name₁⟩ has
  obtain ⟨sym₂, found, defined⟩ := bind_ok.mp defined
  cases there₁.symm.trans (sym_some found)
  dsimp only at defined
  split at defined
  · cases defined
  split at defined
  · rename_i k sec
    cases defined
    exact ⟨keeps, ⟨table₁.text, table₁.distinct⟩, current₁, sym₁, k, there₁, name₁, sec, rfl⟩
  · rename_i none
    cases defined
    have there₁ := sym_some found
    obtain ⟨f, syms, name', sec'⟩ : ∃ f : Symbol → Symbol,
        (s₁.newsec i sym₁.name attr).syms = s₁.syms.modify i f ∧ (∀ sym, (f sym).name = sym.name) ∧
          ∀ sym, (f sym).sec = some s₁.secs.length := ⟨_, rfl, fun _ => rfl, fun _ => rfl⟩
    obtain ⟨keeps', table'⟩ := table₁.of_modify syms name' fun sym k there sec => by
      cases there₁.symm.trans there
      cases none.symm.trans sec
    refine ⟨keeps.trans keeps', ⟨table'.text, table'.distinct⟩, current₁, f sym₁, s₁.secs.length, ?_,
      (name' sym₁).trans name₁, sec' sym₁, rfl⟩
    change (s₁.newsec i sym₁.name attr).syms[i]? = _
    rw [syms, List.getElem?_modify_eq, there₁]
    rfl

end State

namespace Names

variable {r r' : Names}

/-- What is kept: the names denote symbols of their own, and the sections that were selected are those of
the symbols. -/
structure Kept (r : Names) : Prop where
  table : r.s.Table
  latest : r.s.Latest r.s.cursym r.latest
  symbols : ∀ e ∈ r.symbols, r.s.Has e.2 e.1
  sections : ∀ e ∈ r.sections, ∃ (i : Nat) (sym : Symbol) (k : Nat),
    r.s.syms[i]? = some sym ∧ Same sym.name e.1 ∧ sym.sec = some k ∧ e.2 = some k

theorem Kept.right (h : Kept r) : r.Right := by
  constructor
  · intro e mem e' mem'
    obtain ⟨sym, there, same⟩ := h.symbols e mem
    obtain ⟨sym', there', same'⟩ := h.symbols e' mem'
    constructor
    · intro one
      rw [one] at there
      cases there.symm.trans there'
      exact same.symm.trans same'
    · intro names
      exact h.table.distinct e.2 e'.2 e'.1 ⟨sym, there, same.trans names⟩ ⟨sym', there', same'⟩
  · intro e mem e' mem' names
    obtain ⟨i, sym, k, there, same, sec, selected⟩ := h.sections e mem
    obtain ⟨i', sym', k', there', same', sec', selected'⟩ := h.sections e' mem'
    rw [← names] at same'
    obtain rfl := h.table.distinct i i' e.1 ⟨sym, there, same⟩ ⟨sym', there', same'⟩
    cases there.symm.trans there'
    rw [selected, selected']
    exact sec.symm.trans sec'

/-- What is kept by a step that adds a symbol to those of the names. -/
theorem Kept.keeps {s' : State} (h : Kept r) (keeps : r.s.Keeps s') {name : Name} {i : Nat} (has : s'.Has i name) :
    (∀ e ∈ (name, i) :: r.symbols, s'.Has e.2 e.1) ∧
      ∀ e ∈ r.sections, ∃ (i : Nat) (sym : Symbol) (k : Nat),
        s'.syms[i]? = some sym ∧ Same sym.name e.1 ∧ sym.sec = some k ∧ e.2 = some k := by
  constructor
  · intro e mem
    rcases List.mem_cons.mp mem with rfl | mem
    · exact has
    · exact (h.symbols e mem).keeps keeps
  · intro e mem
    obtain ⟨i, sym, k, there, same, sec, selected⟩ := h.sections e mem
    obtain ⟨sym', there', name', sec'⟩ := keeps i sym there
    exact ⟨i, sym', k, there', name' ▸ same, sec' k sec, selected⟩

theorem Kept.step {n : Naming} (h : Kept r) (text : NulFree n.name) (fits : n.Fits r.s) (step : r.step n = .ok r') :
    Kept r' := by
  cases n with
  | label name =>
    change NulFree name at text
    obtain ⟨full, qualify, chained⟩ := fits
    obtain ⟨⟨s', i⟩, defined, step⟩ := bind_ok.mp step
    cases step
    obtain ⟨textual, same⟩ := h.table.qualify h.latest text qualify
    obtain ⟨keeps, table, ⟨sym, there, same'⟩, cursym⟩ := h.table.deflabel h.latest textual qualify chained defined
    obtain ⟨symbols, sections⟩ := h.keeps keeps ⟨sym, there, same'.trans same⟩
    refine ⟨table, ?_, symbols, sections⟩
    dsimp only
    rw [cursym]
    by_cases dot : name.head? = some '.'
    · rw [if_pos dot, if_pos dot]
      exact h.latest.keeps keeps
    · rw [qualified, if_neg dot] at same
      rw [if_neg dot, if_neg dot]
      exact ⟨⟨sym, there, same'.trans same⟩, dot⟩
  | reference name =>
    obtain ⟨full, qualify, chained⟩ := fits
    obtain ⟨⟨s', i⟩, looked, step⟩ := bind_ok.mp step
    cases step
    obtain ⟨textual, same⟩ := h.table.qualify h.latest text qualify
    obtain ⟨keeps, table, ⟨sym, there, same'⟩, cursym⟩ := h.table.lookup qualify textual chained looked
    obtain ⟨symbols, sections⟩ := h.keeps keeps ⟨sym, there, same'.trans same⟩
    exact ⟨table, cursym ▸ h.latest.keeps keeps, symbols, sections⟩
  | section_ name attr =>
    obtain ⟨chained, global⟩ := fits
    have qualify : r.s.qualify name = .ok name := by
      by_cases dot : name.head? = some '.'
      · exact State.qualify_global (global dot)
      · exact State.qualify_plain dot
    obtain ⟨⟨s₁, i⟩, read, step⟩ := bind_ok.mp step
    obtain ⟨s', selected, step⟩ := bind_ok.mp step
    cases step
    obtain ⟨-, same⟩ := h.table.qualify h.latest text qualify
    obtain ⟨keeps₁, table₁, ⟨sym, there, same₁⟩, cursym₁⟩ :=
      h.table.lookup qualify text chained (State.getiden_lookup read)
    have argname : s₁.argname (.iden i) = .ok sym.name := by
      rw [State.argname, State.sym, there]
      rfl
    rw [State.section_, argname] at selected
    have global₁ : sym.name.head? = some '.' → s₁.cursym = none :=
      fun dot => cursym₁.trans (global (same₁.head.mp dot))
    obtain ⟨keeps₂, table₂, cursym₂, sym', k, there', name', sec, cursec⟩ := table₁.defsec there global₁ selected
    rw [← name'] at same₁
    obtain ⟨symbols, sections⟩ := h.keeps (keeps₁.trans keeps₂) ⟨sym', there', same₁.trans same⟩
    refine ⟨table₂, ?_, symbols, ?_⟩
    · exact (cursym₂.trans cursym₁) ▸ h.latest.keeps (keeps₁.trans keeps₂)
    · intro e mem
      rcases List.mem_cons.mp mem with rfl | mem
      · exact ⟨i, sym', k, there', same₁, sec, cursec⟩
      · exact sections e mem

/-- The run whose namings all meet the condition in the state before them. -/
inductive Fit : Names → List Naming → Prop where
  | nil (r : Names) : Fit r []
  | cons {r : Names} {n : Naming} {ns : List Naming} (fits : n.Fits r.s) (rest : ∀ r', r.step n = .ok r' → Fit r' ns) :
    Fit r (n :: ns)

theorem Kept.run {ns : List Naming} (h : Kept r) (text : ∀ n ∈ ns, NulFree n.name) (fit : Fit r ns)
    (run : r.run ns = .ok r') : Kept r' := by
  induction fit with
  | nil r =>
    cases run
    exact h
  | cons fits _ ih =>
    obtain ⟨first, rest⟩ := List.forall_mem_cons.mp text
    obtain ⟨r₁, step, run⟩ := bind_ok.mp run
    exact ih r₁ step (h.step first fits step) rest run

theorem Kept.start {s : State} (table : s.Table) (global : s.cursym = none) : Kept (start s) where
  table := table
  latest := by
    change s.Latest s.cursym none
    rw [global]
    trivial
  symbols := by
    rintro ⟨name, i⟩ mem
    obtain ⟨j, inside, same⟩ := List.mem_mapIdx.mp mem
    rw [← (Prod.mk.inj same).1, ← (Prod.mk.inj same).2]
    exact ⟨s.syms[j], List.getElem?_eq_getElem inside, rfl⟩
  sections := by
    rintro ⟨name, sec⟩ mem
    obtain ⟨sym, kept, same⟩ := List.mem_map.mp mem
    obtain ⟨inside, some⟩ := List.mem_filter.mp kept
    rw [← (Prod.mk.inj same).1, ← (Prod.mk.inj same).2]
    obtain ⟨i, there⟩ := List.mem_iff_getElem?.mp inside
    obtain ⟨k, sec⟩ := Option.isSome_iff_exists.mp some
    exact ⟨i, sym, k, there, rfl, sec, sec⟩

/-- A table is one where the names are all different, here by computing. -/
theorem table_of_nodup {s : State} (text : ∀ sym ∈ s.syms, NulFree sym.name)
    (nodup : (s.syms.map fun sym => sym.name.map Char.toUpper).Nodup) : s.Table := by
  refine ⟨text, ?_⟩
  rintro i j name ⟨a, there, same⟩ ⟨b, there', same'⟩
  have inside := (List.getElem?_eq_some_iff.mp there).1
  refine (List.getElem?_inj (by rwa [List.length_map]) nodup).mp ?_
  rw [List.getElem?_map, List.getElem?_map, there, there']
  exact congrArg some (same.trans same'.symm)

/-- The registers and the sections that the assembler starts with have names of their own. -/
theorem start_table {s : State} (started : State.start = .ok s) : s.Table ∧ s.cursym = none := by
  cases started
  exact ⟨table_of_nodup (by decide +kernel) (by decide +kernel), rfl⟩

/-- A label, a name that is local to it and a section. -/
def few : List Naming := [.label "loop".toList, .reference ".x".toList, .section_ "rom".toList "rx".toList]

end Names

end Scc.As
