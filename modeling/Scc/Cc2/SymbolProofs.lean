import Scc.Cc2.Symbol
import Scc.Memory.Chain

set_option linter.all false

/-! The symbol table of cc2 over any order of its calls: each chain has the symbols of the current
function in front of those that were there before. -/
namespace Scc.Cc2.Symtab
open Memory

/-- The chain of a bucket: of the symbols of the function, each with its number and the newest first,
those that belong there, and behind them the ones from outside. -/
def bucket (outer : Nat → List Nat) (inner : List (Nat × Nat)) (b : Nat) : List Nat :=
  (inner.filter fun e => e.2 ≠ TMPSYM ∧ hash e.2 = b).map Prod.fst ++ outer b

/-- How the symbols lie in memory. `cur` is where the list of the function's symbols is entered. -/
structure Layout (s : State) (outer : Nat → List Nat) (inner : List (Nat × Nat)) (cur : Option Nat) : Prop where
  chains : ∀ b, Chain s.heap Symbol.h_next (s.symtab b) (bucket outer inner b)
  order : Chain s.heap Symbol.prev cur (inner.map Prod.fst)
  numbers : ∀ e ∈ inner, ∃ sym, s.heap e.1 = some sym ∧ sym.id = e.2
  apart : (inner.map Prod.fst).Nodup
  outside : ∀ b, ∀ p ∈ outer b, p ∉ inner.map Prod.fst
  placed : ∀ b, ∀ p ∈ outer b, ∃ sym, s.heap p = some sym ∧ sym.id ≠ TMPSYM ∧ hash sym.id = b
  reached : ∀ p sym, s.heap p = some sym → sym.id ≠ TMPSYM → p ∈ bucket outer inner (hash sym.id)
  unique : ∀ p q sym sym', s.heap p = some sym → s.heap q = some sym' → sym.id ≠ TMPSYM → sym.id = sym'.id → p = q
  short : ∀ b, (bucket outer inner b).length ≤ s.num
  few : inner.length ≤ s.num
  small : s.num ≤ USHRT_MAX

/-- What `getsym` does where it makes a symbol. -/
structure Made (s t : State) (id fresh : Nat) : Prop where
  node : ∃ sym, t.heap fresh = some sym ∧ sym.id = id ∧ (s.infunction = true → sym.prev = s.tail) ∧
    (id ≠ TMPSYM → sym.h_next = s.symtab (hash id))
  last : s.infunction = true → ∀ q sym, s.tail = some q → s.heap q = some sym →
    t.heap q = some { sym with next := some fresh }
  others : ∀ q, q ≠ fresh → (s.infunction = true → s.tail ≠ some q) → t.heap q = s.heap q
  symtab : ∀ b, t.symtab b = if id ≠ TMPSYM ∧ b = hash id then some fresh else s.symtab b
  tail : t.tail = if s.infunction then some fresh else s.tail
  infunction : t.infunction = s.infunction
  num : t.num = s.num + 1

section
variable {s t u : State} {outer : Nat → List Nat} {inner : List (Nat × Nat)} {cur : Option Nat} {id fresh p : Nat}

theorem deref_some {sym : Symbol} (present : s.heap p = some sym) : s.deref p = .ok sym := by
  rw [State.deref, present]

/-- The search finds the first symbol of the chain that has the number. -/
theorem search_chain {steps : Nat} {start : Option Nat} {l : List Nat} (chain : Chain s.heap Symbol.h_next start l)
    (enough : l.length ≤ steps) :
    search s id steps start = .ok (l.find? fun p => (s.heap p).map Symbol.id = some id) := by
  induction l generalizing start steps with
  | nil =>
    cases chain
    cases steps <;> rfl
  | cons p rest ih =>
    obtain ⟨rfl, sym, present, chain⟩ := chain
    cases steps with
    | zero => cases enough
    | succ steps =>
      rw [search, deref_some present]
      show (if sym.id = id then Except.ok (some p) else search s id steps sym.h_next) = _
      by_cases same : sym.id = id
      · rw [if_pos same, List.find?_cons_of_pos (by simp [present, same])]
      · rw [if_neg same, List.find?_cons_of_neg (by simp [present, same])]
        exact ih chain (Nat.le_of_succ_le_succ enough)

/-- A number is found exactly where a symbol has it. -/
theorem Layout.lookup (layout : Layout s outer inner cur) (named : id ≠ TMPSYM) :
    (∃ p sym, s.heap p = some sym ∧ sym.id = id ∧ Symtab.lookup s id = .ok (some p)) ∨
      (∀ p sym, s.heap p = some sym → sym.id ≠ id) ∧ Symtab.lookup s id = .ok none := by
  rw [Symtab.lookup, if_pos named, search_chain (layout.chains (hash id)) (layout.short (hash id))]
  cases found : (bucket outer inner (hash id)).find? fun p => (s.heap p).map Symbol.id = some id with
  | some p =>
    have same : (s.heap p).map Symbol.id = some id := by
      simpa using List.find?_some found
    obtain ⟨sym, present, number⟩ := Option.map_eq_some_iff.mp same
    exact .inl ⟨p, sym, present, number, rfl⟩
  | none =>
    refine .inr ⟨fun p sym present number => ?_, rfl⟩
    subst number
    have missing := List.find?_eq_none.mp found p (layout.reached p sym present named)
    simp [present] at missing

theorem tail_present {q : Nat} (order : Chain s.heap Symbol.prev s.tail (inner.map Prod.fst)) (tail : s.tail = some q) :
    ∃ last, s.heap q = some last := by
  rw [tail] at order
  cases inner with
  | nil => cases order
  | cons e rest =>
    obtain ⟨same, last, present, -⟩ := order
    cases same
    exact ⟨last, present⟩

/-- What `setNext` leaves: the state but for the link of the last symbol. -/
theorem setNext_spec (order : Chain s.heap Symbol.prev s.tail (inner.map Prod.fst)) (p : Nat) :
    ∃ heap, setNext s p = .ok { s with heap := heap } ∧
      (∀ q last, s.tail = some q → s.heap q = some last → heap q = some { last with next := some p }) ∧
      ∀ q, s.tail ≠ some q → heap q = s.heap q := by
  rw [setNext]
  split
  case h_1 tail => exact ⟨s.heap, rfl, by simp [tail], fun q _ => rfl⟩
  case h_2 q tail =>
    obtain ⟨last, present⟩ := tail_present order tail
    rw [deref_some present]
    refine ⟨_, rfl, ?_, ?_⟩
    · intro q' last' tail' present'
      cases tail.symm.trans tail'
      cases present.symm.trans present'
      exact if_pos rfl
    · intro q' other
      exact if_neg fun same => other (by rw [same, tail])

theorem addNumbered_room (room : s.num < USHRT_MAX) (sym : Symbol) :
    addNumbered s p sym = .ok (p, { s.write p { sym with numid := s.num + 1 } with num := s.num + 1 }) := by
  have num : (s.num + 1) % (USHRT_MAX + 1) = s.num + 1 := Nat.mod_eq_of_lt (by omega)
  simp only [addNumbered, num, Nat.succ_ne_zero, if_false]

theorem addNumbered_full (full : s.num = USHRT_MAX) (sym : Symbol) : addNumbered s p sym = .error .EIDOVER := by
  rw [addNumbered, full]
  rfl

/-- What `addLocal` leaves: the state but for the list, and the symbol with its link. -/
theorem addLocal_spec (order : Chain s.heap Symbol.prev s.tail (inner.map Prod.fst)) (p : Nat) (new : Symbol) :
    ∃ t sym, addLocal s p new = .ok (t, sym) ∧ sym.id = new.id ∧ (s.infunction = true → sym.prev = s.tail) ∧
      (s.infunction = true → ∀ q last, s.tail = some q → s.heap q = some last →
        t.heap q = some { last with next := some p }) ∧
      (∀ q, (s.infunction = true → s.tail ≠ some q) → t.heap q = s.heap q) ∧ t.symtab = s.symtab ∧
      t.tail = (if s.infunction then some p else s.tail) ∧ t.infunction = s.infunction ∧ t.num = s.num := by
  cases inside : s.infunction with
  | true =>
    obtain ⟨heap, linked, last, others⟩ := setNext_spec order p
    rw [addLocal, if_pos inside, linked]
    exact ⟨_, _, rfl, rfl, fun _ => rfl, fun _ => last, fun q other => others q (other rfl), rfl, rfl, inside, rfl⟩
  | false =>
    rw [addLocal, if_neg (by simp [inside])]
    exact ⟨_, _, rfl, rfl, (fun same => by cases same), (fun same => by cases same), fun _ _ => rfl, rfl, rfl, inside, rfl⟩

theorem addHashed_spec (s : State) (p : Nat) (new : Symbol) :
    ∃ symtab link, addHashed s p new = ({ s with symtab := symtab }, { new with h_next := link }) ∧
      (new.id ≠ TMPSYM → link = s.symtab (hash new.id)) ∧
      ∀ b, symtab b = if new.id ≠ TMPSYM ∧ b = hash new.id then some p else s.symtab b := by
  by_cases named : new.id = TMPSYM
  · rw [addHashed, if_neg (by simp [named])]
    exact ⟨s.symtab, new.h_next, rfl, absurd named, fun b => by simp [named]⟩
  · rw [addHashed, if_pos named]
    exact ⟨_, _, rfl, fun _ => rfl, fun b => by simp [named]⟩

/-- Where the search finds nothing, there is a new symbol. -/
theorem getsym_made (order : Chain s.heap Symbol.prev s.tail (inner.map Prod.fst)) (free : s.heap fresh = none)
    (below : id < USHRT_MAX) (room : s.num < USHRT_MAX) (missing : lookup s id = .ok none) :
    ∃ t, getsym fresh id s = .ok (fresh, t) ∧ Made s t id fresh := by
  obtain ⟨t, sym, added, number, prev, last, others, table, tail, inside, num⟩ := addLocal_spec order fresh { id := id }
  obtain ⟨symtab, link, hashed, first, buckets⟩ := addHashed_spec t fresh sym
  subst number
  have room' : t.num < USHRT_MAX := by omega
  have absent : s.tail ≠ some fresh := fun tail => by
    obtain ⟨last, present⟩ := tail_present order tail
    cases free.symm.trans present
  have result : getsym fresh sym.id s = addNumbered { t with symtab := symtab } fresh { sym with h_next := link } := by
    rw [getsym, if_neg (by omega), missing]
    simp only [bind, Except.bind, added, hashed]
  rw [result, addNumbered_room (by exact room')]
  refine ⟨_, rfl, ?_⟩
  · exact
      { node := ⟨_, if_pos rfl, rfl, prev, fun named => by rw [first named, table]⟩
        last := fun inside q last' tail present => by
          have differs : q ≠ fresh := fun same => absent (by rw [← same, tail])
          exact (if_neg differs).trans (last inside q last' tail present)
        others := fun q differs other => (if_neg differs).trans (others q other)
        symtab := fun b => by rw [← table]; exact buckets b
        tail := tail
        infunction := inside
        num := by simp [num] }

theorem ne_fresh {sym : Symbol} (free : s.heap fresh = none) (present : s.heap p = some sym) : p ≠ fresh := by
  rintro rfl
  cases free.symm.trans present

/-- Every other symbol stays with its number and its links to older symbols. -/
theorem Made.keeps {sym : Symbol} (made : Made s t id fresh) (differs : p ≠ fresh) (present : s.heap p = some sym) :
    ∃ sym', t.heap p = some sym' ∧ sym'.id = sym.id ∧ sym'.h_next = sym.h_next ∧ sym'.prev = sym.prev := by
  by_cases isLast : s.infunction = true ∧ s.tail = some p
  · exact ⟨_, made.last isLast.1 p sym isLast.2 present, rfl, rfl, rfl⟩
  · exact ⟨sym, (made.others p differs fun inside tail => isLast ⟨inside, tail⟩).trans present, rfl, rfl, rfl⟩

theorem Made.present {sym : Symbol} (made : Made s t id fresh)
    (order : Chain s.heap Symbol.prev s.tail (inner.map Prod.fst)) (differs : p ≠ fresh)
    (present : t.heap p = some sym) : ∃ old, s.heap p = some old ∧ old.id = sym.id := by
  by_cases isLast : s.infunction = true ∧ s.tail = some p
  · obtain ⟨old, before⟩ := tail_present order isLast.2
    cases present.symm.trans (made.last isLast.1 p old isLast.2 before)
    exact ⟨old, before, rfl⟩
  · rw [made.others p differs fun inside tail => isLast ⟨inside, tail⟩] at present
    exact ⟨sym, present, rfl⟩

theorem Layout.bucket_alive (layout : Layout s outer inner cur) {b : Nat} (mem : p ∈ bucket outer inner b) :
    ∃ sym, s.heap p = some sym :=
  (layout.chains b).alive mem

/-- A chain that a new symbol does not join. -/
theorem Made.chain {link : Symbol → Option Nat} {start : Option Nat} {l : List Nat} (made : Made s t id fresh)
    (free : s.heap fresh = none) (chain : Chain s.heap link start l)
    (kept : ∀ sym sym' : Symbol, sym'.h_next = sym.h_next → sym'.prev = sym.prev → link sym' = link sym) :
    Chain t.heap link start l := by
  refine chain.congr fun p mem sym present => ?_
  obtain ⟨sym', present', -, h_next, prev⟩ := made.keeps (ne_fresh free present) present
  exact ⟨sym', present', kept sym sym' h_next prev⟩

/-- The chains that a new symbol leaves. -/
def extended (fresh id : Nat) (old : Nat → List Nat) (b : Nat) : List Nat :=
  if id ≠ TMPSYM ∧ b = hash id then fresh :: old b else old b

theorem extended_sub {old : Nat → List Nat} {b : Nat} (mem : p ∈ old b) : p ∈ extended fresh id old b := by
  unfold extended
  split
  · exact List.mem_cons_of_mem _ mem
  · exact mem

theorem mem_extended {old : Nat → List Nat} {b : Nat} (mem : p ∈ extended fresh id old b) :
    p ∈ old b ∨ p = fresh ∧ id ≠ TMPSYM ∧ b = hash id := by
  unfold extended at mem
  split at mem
  case isTrue named =>
    rcases List.mem_cons.mp mem with same | mem
    · exact .inr ⟨same, named⟩
    · exact .inl mem
  case isFalse => exact .inl mem

theorem bucket_inside (b : Nat) :
    bucket outer ((fresh, id) :: inner) b = extended fresh id (bucket outer inner) b := by
  by_cases here : id ≠ TMPSYM ∧ b = hash id
  · simp [bucket, extended, here]
  · simp only [extended, if_neg here, bucket]
    rw [List.filter_cons_of_neg]
    rw [decide_eq_true_eq]
    exact fun named => here ⟨named.1, named.2.symm⟩

theorem bucket_outside (b : Nat) : bucket (extended fresh id outer) [] b = extended fresh id (bucket outer []) b := rfl

/-- A new symbol, wherever it lies: what the layout needs of its chains. -/
theorem Made.layout {outer' : Nat → List Nat} {inner' : List (Nat × Nat)} (made : Made s t id fresh)
    (layout : Layout s outer inner s.tail) (free : s.heap fresh = none) (room : s.num < USHRT_MAX)
    (unused : id ≠ TMPSYM → ∀ p sym, s.heap p = some sym → sym.id ≠ id)
    (buckets : ∀ b, bucket outer' inner' b = extended fresh id (bucket outer inner) b)
    (order : Chain t.heap Symbol.prev t.tail (inner'.map Prod.fst))
    (numbers : ∀ e ∈ inner', ∃ sym, t.heap e.1 = some sym ∧ sym.id = e.2) (apart : (inner'.map Prod.fst).Nodup)
    (outside : ∀ b, ∀ p ∈ outer' b, p ∉ inner'.map Prod.fst)
    (placed : ∀ b, ∀ p ∈ outer' b, ∃ sym, t.heap p = some sym ∧ sym.id ≠ TMPSYM ∧ hash sym.id = b)
    (few : inner'.length ≤ inner.length + 1) : Layout t outer' inner' t.tail := by
  obtain ⟨sym, present, number, -, link⟩ := made.node
  have only (q : Nat) (sym' : Symbol) (present' : t.heap q = some sym') :
      q = fresh ∨ ∃ old, s.heap q = some old ∧ old.id = sym'.id := by
    by_cases same : q = fresh
    · exact .inl same
    · exact .inr (made.present layout.order same present')
  refine
    { chains := fun b => ?_, order, numbers, apart, outside, placed, reached := ?_, unique := ?_, short := fun b => ?_
      few := by have := layout.few; have := made.num; omega
      small := by have := made.num; omega }
  · rw [buckets, made.symtab, extended]
    have old := made.chain free (layout.chains b) fun _ _ h_next _ => h_next
    split
    case isTrue named =>
      obtain ⟨named, rfl⟩ := named
      rw [← link named] at old
      exact old.cons present
    case isFalse => exact old
  · intro q sym' present' named
    rw [buckets]
    rcases only q sym' present' with rfl | ⟨old, before, same⟩
    · cases present.symm.trans present'
      rw [extended, if_pos ⟨by rwa [← number], by rw [number]⟩]
      exact List.mem_cons_self
    · rw [← same] at named ⊢
      exact extended_sub (layout.reached q old before named)
  · intro q q' sym₁ sym₂ present₁ present₂ named same
    rcases only q sym₁ present₁ with rfl | ⟨old₁, before₁, same₁⟩
    · cases present.symm.trans present₁
      rcases only q' sym₂ present₂ with rfl | ⟨old₂, before₂, same₂⟩
      · rfl
      · exact absurd (by rw [same₂, ← same, number]) (unused (by rwa [← number]) q' old₂ before₂)
    · rcases only q' sym₂ present₂ with rfl | ⟨old₂, before₂, same₂⟩
      · cases present.symm.trans present₂
        exact absurd (by rw [same₁, same, number]) (unused (by rwa [← number, ← same]) q old₁ before₁)
      · exact layout.unique q q' old₁ old₂ before₁ before₂ (by rwa [same₁]) (by rw [same₁, same₂, same])
  · rw [buckets, extended, made.num]
    have short := layout.short b
    split
    · exact Nat.succ_le_succ short
    · omega

/-- A symbol of the function goes in front of its chain and of the list. -/
theorem Layout.made_inside (layout : Layout s outer inner s.tail) (made : Made s t id fresh) (free : s.heap fresh = none)
    (room : s.num < USHRT_MAX) (unused : id ≠ TMPSYM → ∀ p sym, s.heap p = some sym → sym.id ≠ id)
    (inside : s.infunction = true) : Layout t outer ((fresh, id) :: inner) t.tail := by
  obtain ⟨sym, present, number, prev, -⟩ := made.node
  have new {l : List Nat} (alive : ∀ p ∈ l, ∃ sym, s.heap p = some sym) : fresh ∉ l := by
    intro mem
    obtain ⟨sym, present⟩ := alive fresh mem
    cases free.symm.trans present
  refine made.layout layout free room unused bucket_inside ?order ?numbers ?apart ?outside ?placed (Nat.le_refl _)
  case order =>
    rw [made.tail, if_pos inside]
    have old := made.chain free layout.order fun _ _ _ prev => prev
    rw [← prev inside] at old
    exact old.cons present
  case numbers =>
    intro e mem
    rcases List.mem_cons.mp mem with rfl | mem
    · exact ⟨sym, present, number⟩
    · obtain ⟨old, before, same⟩ := layout.numbers e mem
      obtain ⟨sym', after, same', -⟩ := made.keeps (ne_fresh free before) before
      exact ⟨sym', after, same'.trans same⟩
  case apart => exact List.nodup_cons.mpr ⟨new fun p mem => layout.order.alive mem, layout.apart⟩
  case outside =>
    intro b p mem joined
    obtain ⟨old, before, -⟩ := layout.placed b p mem
    rcases List.mem_cons.mp joined with rfl | joined
    · cases free.symm.trans before
    · exact layout.outside b p mem joined
  case placed =>
    intro b p mem
    obtain ⟨old, before, named, here⟩ := layout.placed b p mem
    obtain ⟨sym', after, same, -⟩ := made.keeps (ne_fresh free before) before
    exact ⟨sym', after, by rwa [same], by rwa [same]⟩

/-- A symbol from outside a function goes in front of its chain. -/
theorem Layout.made_outside (layout : Layout s outer [] s.tail) (made : Made s t id fresh) (free : s.heap fresh = none)
    (room : s.num < USHRT_MAX) (unused : id ≠ TMPSYM → ∀ p sym, s.heap p = some sym → sym.id ≠ id)
    (outside : s.infunction = false) : Layout t (extended fresh id outer) [] t.tail := by
  obtain ⟨sym, present, number, -⟩ := made.node
  refine made.layout layout free room unused bucket_outside ?order nofun .nil (fun _ _ _ => nofun) ?placed (Nat.zero_le _)
  case order =>
    rw [made.tail, if_neg (by simp [outside])]
    exact layout.order
  case placed =>
    intro b p mem
    rcases mem_extended mem with mem | ⟨rfl, named, rfl⟩
    · obtain ⟨old, before, named, here⟩ := layout.placed b p mem
      obtain ⟨sym', after, same, -⟩ := made.keeps (ne_fresh free before) before
      exact ⟨sym', after, by rwa [same], by rwa [same]⟩
    · exact ⟨sym, present, by rwa [number], by rw [number]⟩

theorem insert_symtab (b : Nat) (start : Option Nat) (c : Nat) :
    (s.insert b start).symtab c = if c = b then start else s.symtab c := rfl

/-- What the chain of a bucket is when the newest symbol of the function is gone. -/
theorem Layout.without {sym : Symbol} {rest : List (Nat × Nat)} (layout : Layout s outer ((p, id) :: rest) cur)
    (present : s.heap p = some sym) (b : Nat) :
    Chain s.heap Symbol.h_next
      ((if sym.id ≠ TMPSYM then s.insert (hash sym.id) sym.h_next else s).symtab b) (bucket outer rest b) := by
  obtain ⟨sym', present', number⟩ := layout.numbers _ List.mem_cons_self
  cases present.symm.trans present'
  have old := layout.chains b
  rw [bucket_inside, extended] at old
  subst number
  by_cases here : sym.id ≠ TMPSYM ∧ b = hash sym.id
  · rw [if_pos here] at old
    obtain ⟨named, rfl⟩ := here
    obtain ⟨-, sym', present', old⟩ := old
    cases present.symm.trans present'
    rwa [if_pos named, insert_symtab, if_pos rfl]
  · rw [if_neg here] at old
    split
    case isTrue named => rwa [insert_symtab, if_neg fun same => here ⟨named, same⟩]
    case isFalse => exact old

/-- The step of `popctx`: the newest symbol of the function is the first of its chain. -/
theorem Layout.popped {sym : Symbol} {rest : List (Nat × Nat)} (layout : Layout s outer ((p, id) :: rest) cur)
    (present : s.heap p = some sym) :
    Layout (freesym (if sym.id ≠ TMPSYM then s.insert (hash sym.id) sym.h_next else s) p) outer rest sym.prev := by
  obtain ⟨first, apart⟩ := List.nodup_cons.mp layout.apart
  have away (b : Nat) (q : Nat) (mem : q ∈ bucket outer rest b) : q ≠ p := by
    rintro rfl
    rcases List.mem_append.mp mem with mem | mem
    · obtain ⟨e, mem, same⟩ := List.mem_map.mp mem
      exact first (List.mem_map.mpr ⟨e, (List.mem_filter.mp mem).1, same⟩)
    · exact layout.outside b q mem List.mem_cons_self
  have heap (q : Nat) :
      (freesym (if sym.id ≠ TMPSYM then s.insert (hash sym.id) sym.h_next else s) p).heap q =
        if q = p then none else s.heap q := by
    split <;> rfl
  have num : (freesym (if sym.id ≠ TMPSYM then s.insert (hash sym.id) sym.h_next else s) p).num = s.num := by
    split <;> rfl
  have old {q : Nat} {sym' : Symbol} (after : (freesym (if sym.id ≠ TMPSYM then s.insert (hash sym.id) sym.h_next
      else s) p).heap q = some sym') : q ≠ p ∧ s.heap q = some sym' := by
    rw [heap] at after
    split at after
    case isTrue => cases after
    case isFalse differs => exact ⟨differs, after⟩
  refine
    { chains := fun b => ?_, order := ?_, numbers := fun e mem => ?_, apart
      outside := fun b q mem joined => layout.outside b q mem (List.mem_cons_of_mem _ joined)
      placed := fun b q mem => ?_, reached := fun q sym' after named => ?_
      unique := fun q q' _ _ after after' => layout.unique q q' _ _ (old after).2 (old after').2
      short := fun b => ?_, few := ?_, small := by rw [num]; exact layout.small }
  · refine (layout.without present b).unchanged fun q mem => ?_
    rw [heap, if_neg (away b q mem)]
  · obtain ⟨-, sym', present', order⟩ := layout.order
    cases present.symm.trans present'
    refine order.unchanged fun q mem => ?_
    rw [heap, if_neg fun same => first (by rwa [← same])]
  · obtain ⟨sym', before, number⟩ := layout.numbers e (List.mem_cons_of_mem _ mem)
    refine ⟨sym', ?_, number⟩
    rw [heap, if_neg fun same => first (List.mem_map.mpr ⟨e, mem, same⟩), before]
  · obtain ⟨sym', before, named⟩ := layout.placed b q mem
    refine ⟨sym', ?_, named⟩
    rw [heap, if_neg (away b q (List.mem_append_right _ mem)), before]
  · have joined := layout.reached q sym' (old after).2 named
    rw [bucket_inside] at joined
    rcases mem_extended joined with joined | ⟨same, -⟩
    · exact joined
    · exact absurd same (old after).1
  · rw [num]
    have short := layout.short b
    rw [bucket_inside, extended] at short
    split at short
    · exact Nat.le_of_succ_le short
    · exact short
  · rw [num]
    exact Nat.le_of_succ_le layout.few

/-- `popctx` frees the symbols of the function, and the others stay as they are. -/
theorem popctxLoop_spec {steps : Nat} (layout : Layout s outer inner cur) (enough : inner.length ≤ steps) :
    ∃ t, popctxLoop steps cur s = .ok t ∧ Layout t outer [] none ∧ t.infunction = s.infunction ∧
      (∀ q, q ∉ inner.map Prod.fst → t.heap q = s.heap q) ∧ ∀ q ∈ inner.map Prod.fst, t.heap q = none := by
  induction inner generalizing s cur steps with
  | nil =>
    cases layout.order
    refine ⟨s, ?_, layout, rfl, fun _ _ => rfl, nofun⟩
    cases steps <;> rfl
  | cons e rest ih =>
    obtain ⟨p, id⟩ := e
    obtain ⟨rfl, sym, present, -⟩ := layout.order
    cases steps with
    | zero => cases enough
    | succ steps =>
      obtain ⟨t, done, layout', inside, others, gone⟩ := ih (layout.popped present) (Nat.le_of_succ_le_succ enough)
      obtain ⟨first, -⟩ := List.nodup_cons.mp layout.apart
      refine ⟨t, ?_, layout', ?_, fun q away => ?_, fun q mem => ?_⟩
      · rw [popctxLoop, deref_some present]
        exact done
      · rw [inside]
        split <;> rfl
      · have differs : q ≠ p := fun same => away (by rw [same]; exact List.mem_cons_self)
        rw [others q fun mem => away (List.mem_cons_of_mem _ mem)]
        split <;> exact if_neg differs
      · rcases List.mem_cons.mp mem with rfl | mem
        · rw [others _ first]
          split <;> exact if_pos rfl
        · exact gone q mem

/-- Every way `getsym` can end. -/
theorem getsym_cases (id : Nat) (layout : Layout s outer inner s.tail) (free : s.heap fresh = none) :
    getsym fresh id s = .error .EBADID ∨ getsym fresh id s = .error .EIDOVER ∨
      (∃ p sym, getsym fresh id s = .ok (p, s) ∧ s.heap p = some sym ∧ sym.id = id) ∨
      s.num < USHRT_MAX ∧ (id ≠ TMPSYM → ∀ p sym, s.heap p = some sym → sym.id ≠ id) ∧
        ∃ t, getsym fresh id s = .ok (fresh, t) ∧ Made s t id fresh := by
  by_cases below : id < USHRT_MAX
  case neg => exact .inl (if_pos (by omega))
  obtain ⟨p, sym, present, number, found⟩ | ⟨unused, missing⟩ :
      (∃ p sym, s.heap p = some sym ∧ sym.id = id ∧ lookup s id = .ok (some p)) ∨
        (id ≠ TMPSYM → ∀ p sym, s.heap p = some sym → sym.id ≠ id) ∧ lookup s id = .ok none := by
    by_cases named : id = TMPSYM
    · exact .inr ⟨absurd named, if_neg (by simp [named])⟩
    · rcases layout.lookup named with found | ⟨unused, missing⟩
      · exact .inl found
      · exact .inr ⟨fun _ => unused, missing⟩
  · refine .inr (.inr (.inl ⟨p, sym, ?_, present, number⟩))
    rw [getsym, if_neg (by omega), found]
    rfl
  · by_cases full : s.num = USHRT_MAX
    · refine .inr (.inl ?_)
      obtain ⟨t, sym, added, -, -, -, -, -, -, -, num⟩ := addLocal_spec layout.order fresh { id := id }
      obtain ⟨symtab, link, hashed, -⟩ := addHashed_spec t fresh sym
      rw [getsym, if_neg (by omega), missing]
      simp only [bind, Except.bind, added, hashed]
      exact addNumbered_full (by exact num.trans full) _
    · have room : s.num < USHRT_MAX := Nat.lt_of_le_of_ne layout.small full
      exact .inr (.inr (.inr ⟨room, unused, getsym_made layout.order free below room missing⟩))

theorem popctx_spec (layout : Layout s outer inner s.tail) :
    ∃ t, popctx s = .ok t ∧ Layout t outer [] t.tail ∧ t.infunction = false ∧
      (∀ q, q ∉ inner.map Prod.fst → t.heap q = s.heap q) ∧ ∀ q ∈ inner.map Prod.fst, t.heap q = none := by
  have closed : Layout { s with infunction := false } outer inner s.tail := { layout with }
  obtain ⟨t, done, after, inside, others, gone⟩ := popctxLoop_spec closed layout.few
  refine ⟨{ t with locals := none, tail := none }, ?_, { after with }, inside, others, gone⟩
  rw [popctx, done]
  rfl

/-- What holds between the calls. -/
def Table (s : State) : Prop :=
  ∃ outer inner, Layout s outer inner s.tail ∧ (s.infunction = false → inner = [])

theorem table_init : Table init :=
  ⟨fun _ => [], [],
    { chains := fun _ => rfl, order := rfl, numbers := nofun, apart := .nil, outside := nofun, placed := nofun
      reached := nofun, unique := nofun, short := fun _ => Nat.le_refl _, few := Nat.le_refl _
      small := Nat.zero_le _ }, fun _ => rfl⟩

theorem layout_pushctx (layout : Layout s outer inner s.tail) : Layout (pushctx s) outer inner (pushctx s).tail :=
  { layout with }

theorem Table.step (table : Table s) (taken : Step s t) : Table t := by
  obtain ⟨outer, inner, layout, outside⟩ := table
  obtain ⟨c, allocates, taken⟩ := taken
  cases c with
  | pushctx =>
    cases taken
    exact ⟨outer, inner, layout_pushctx layout, nofun⟩
  | popctx =>
    obtain ⟨t', done, after, -⟩ := popctx_spec layout
    cases done.symm.trans taken
    exact ⟨outer, [], after, fun _ => rfl⟩
  | getsym id fresh =>
    simp only [Symtab.step] at taken
    rcases getsym_cases id layout allocates with
      failed | failed | ⟨p, sym, found, -⟩ | ⟨room, unused, t', new, made⟩
    · rw [failed] at taken
      cases taken
    · rw [failed] at taken
      cases taken
    · rw [found] at taken
      cases taken
      exact ⟨outer, inner, layout, outside⟩
    · rw [new] at taken
      cases taken
      cases inside : s.infunction with
      | true =>
        refine ⟨outer, _, layout.made_inside made allocates room unused inside, fun closed => ?_⟩
        cases (made.infunction.symm.trans closed).symm.trans inside
      | false =>
        obtain rfl := outside inside
        exact ⟨_, [], layout.made_outside made allocates room unused inside, fun _ => rfl⟩

theorem Table.reachable (reached : Reachable s) : Table s := by
  induction reached with
  | refl => exact table_init
  | tail _ taken ih => exact ih.step taken

theorem chainFrom_chain {steps : Nat} {start : Option Nat} {l : List Nat}
    (chain : Chain s.heap Symbol.h_next start l) (enough : l.length ≤ steps) :
    chainFrom s steps start = .ok (l.filterMap fun p => (s.heap p).map (Prod.mk p)) := by
  induction l generalizing start steps with
  | nil =>
    cases chain
    cases steps <;> rfl
  | cons p rest ih =>
    obtain ⟨rfl, sym, present, chain⟩ := chain
    cases steps with
    | zero => cases enough
    | succ steps =>
      rw [chainFrom, deref_some present]
      simp only [bind, Except.bind, ih chain (Nat.le_of_succ_le_succ enough), List.filterMap_cons, present, Option.map_some]
      rfl

theorem Layout.chain (layout : Layout s outer inner cur) (b : Nat) :
    Symtab.chain s b = .ok ((bucket outer inner b).filterMap fun p => (s.heap p).map (Prod.mk p)) :=
  chainFrom_chain (layout.chains b) (layout.short b)

/-- No chain passes a symbol that was freed. -/
theorem Table.chain (table : Table s) (b : Nat) :
    ∃ ps, Symtab.chain s b = .ok ps ∧ ∀ e ∈ ps, s.heap e.1 = some e.2 := by
  obtain ⟨outer, inner, layout, -⟩ := table
  refine ⟨_, layout.chain b, fun e mem => ?_⟩
  obtain ⟨p, -, listed⟩ := List.mem_filterMap.mp mem
  obtain ⟨sym, present, rfl⟩ := Option.map_eq_some_iff.mp listed
  exact present

/-- Within a function the symbols from outside stay as they are, at the ends of their chains. -/
theorem within_layout (within : Relation.ReflTransGen Within s t) (layout : Layout s outer [] s.tail)
    (inside : s.infunction = true) :
    t.infunction = true ∧ ∃ inner, Layout t outer inner t.tail ∧ ∀ b, ∀ p ∈ outer b, t.heap p = s.heap p := by
  induction within with
  | refl => exact ⟨inside, [], layout, fun _ _ _ => rfl⟩
  | @tail t u _ taken ih =>
    obtain ⟨inside, inner, layout, same⟩ := ih
    obtain ⟨c, other, allocates, taken⟩ := taken
    cases c with
    | pushctx =>
      cases taken
      exact ⟨rfl, inner, layout_pushctx layout, same⟩
    | popctx => exact absurd rfl other
    | getsym id fresh =>
      simp only [Symtab.step] at taken
      rcases getsym_cases id layout allocates with
        failed | failed | ⟨p, sym, found, -⟩ | ⟨room, unused, t', new, made⟩
      · rw [failed] at taken
        cases taken
      · rw [failed] at taken
        cases taken
      · rw [found] at taken
        cases taken
        exact ⟨inside, inner, layout, same⟩
      · rw [new] at taken
        cases taken
        refine ⟨made.infunction.trans inside, _, layout.made_inside made allocates room unused inside, fun b p mem => ?_⟩
        obtain ⟨sym, present, -⟩ := layout.placed b p mem
        rw [← same b p mem]
        refine made.others p (ne_fresh allocates present) fun _ tail => layout.outside b p mem ?_
        have order := layout.order
        rw [tail] at order
        cases inner with
        | nil => cases order
        | cons e rest =>
          obtain ⟨first, -⟩ := order
          cases first
          exact List.mem_cons_self

/-- `popctx` leaves each chain as it was when the function began. -/
theorem chain_restored (table : Table s) (closed : s.infunction = false)
    (within : Relation.ReflTransGen Within (pushctx s) t) (popped : popctx t = .ok u) (b : Nat) :
    Symtab.chain u b = Symtab.chain s b := by
  obtain ⟨outer, inner, layout, outside⟩ := table
  obtain rfl := outside closed
  obtain ⟨-, inner, during, same⟩ := within_layout within (layout_pushctx layout) rfl
  obtain ⟨u', done, after, -, others, -⟩ := popctx_spec during
  cases done.symm.trans popped
  rw [after.chain, layout.chain]
  congr 1
  refine List.filterMap_congr fun p mem => ?_
  rw [others p (during.outside b p mem), same b p mem]
  rfl

/-- A symbol that is not freed keeps its number. -/
theorem keeping_number {sym : Symbol} (table : Table s) (present : s.heap p = some sym)
    (run : Relation.ReflTransGen (Keeping p) s t) : Table t ∧ ∃ sym', t.heap p = some sym' ∧ sym'.id = sym.id := by
  induction run with
  | refl => exact ⟨table, sym, present, rfl⟩
  | @tail t u _ taken ih =>
    obtain ⟨⟨outer, inner, layout, outside⟩, sym', present', number⟩ := ih
    obtain ⟨taken, alive⟩ := taken
    refine ⟨Table.step ⟨outer, inner, layout, outside⟩ taken, ?_⟩
    obtain ⟨c, allocates, taken⟩ := taken
    cases c with
    | pushctx =>
      cases taken
      exact ⟨sym', present', number⟩
    | popctx =>
      obtain ⟨u', done, -, -, others, gone⟩ := popctx_spec layout
      cases done.symm.trans taken
      by_cases mem : p ∈ inner.map Prod.fst
      · exact absurd (gone p mem) alive
      · exact ⟨sym', (others p mem).trans present', number⟩
    | getsym id fresh =>
      simp only [Symtab.step] at taken
      rcases getsym_cases id layout allocates with
        failed | failed | ⟨p, sym, found, -⟩ | ⟨room, unused, t', new, made⟩
      · rw [failed] at taken
        cases taken
      · rw [failed] at taken
        cases taken
      · rw [found] at taken
        cases taken
        exact ⟨sym', present', number⟩
      · rw [new] at taken
        cases taken
        obtain ⟨sym'', present'', same, -⟩ := made.keeps (ne_fresh allocates present') present'
        exact ⟨sym'', present'', same.trans number⟩

/-- What `getsym` gives has the number that was asked for. -/
theorem getsym_number (table : Table s) (free : s.heap fresh = none) (given : getsym fresh id s = .ok (p, t)) :
    Table t ∧ ∃ sym, t.heap p = some sym ∧ sym.id = id := by
  refine ⟨table.step ⟨.getsym id fresh, free, by rw [Symtab.step, given]; rfl⟩, ?_⟩
  obtain ⟨outer, inner, layout, -⟩ := table
  rcases getsym_cases id layout free with failed | failed | ⟨p, sym, found, present⟩ | ⟨-, -, t', new, made⟩
  · cases failed.symm.trans given
  · cases failed.symm.trans given
  · cases found.symm.trans given
    exact ⟨sym, present⟩
  · cases new.symm.trans given
    obtain ⟨sym, present, number, -⟩ := made.node
    exact ⟨sym, present, number⟩

/-- A number that a symbol has is found there. -/
theorem getsym_found {sym : Symbol} (table : Table s) (present : s.heap p = some sym) (named : sym.id ≠ TMPSYM)
    (below : sym.id < USHRT_MAX) (fresh : Nat) : getsym fresh sym.id s = .ok (p, s) := by
  obtain ⟨outer, inner, layout, -⟩ := table
  rcases layout.lookup named with ⟨p', sym', present', number, found⟩ | ⟨unused, -⟩
  · cases layout.unique p p' sym sym' present present' named number.symm
    rw [getsym, if_neg (by omega), found]
    rfl
  · exact absurd rfl (unused p sym present)

theorem getsym_below (given : getsym fresh id s = .ok (p, t)) : id < USHRT_MAX := by
  by_contra above
  rw [getsym, if_pos (by omega)] at given
  cases given

/-- Over any sequence of calls: the end of a function restores the chains, what a call finds or makes
is the symbol of its number, and the chains have no freed symbol. -/
theorem symtab_correct (reached : Reachable s) :
    (s.infunction = false → ∀ t u, Relation.ReflTransGen Within (pushctx s) t → popctx t = .ok u →
      ∀ b, chain u b = chain s b) ∧
    (∃ t, popctx s = .ok t) ∧
    (∀ id fresh, s.heap fresh = none → getsym fresh id s ≠ .error .dangling) ∧
    (∀ id fresh p t u, s.heap fresh = none → getsym fresh id s = .ok (p, t) →
      Relation.ReflTransGen (Keeping p) t u →
        (id ≠ TMPSYM → ∀ fresh', getsym fresh' id u = .ok (p, u)) ∧
        ∀ id' fresh' p' v, u.heap fresh' = none → getsym fresh' id' u = .ok (p', v) → id ≠ id' → p ≠ p') ∧
    ∀ b, ∃ ps, chain s b = .ok ps ∧ ∀ e ∈ ps, s.heap e.1 = some e.2 := by
  have table := Table.reachable reached
  refine ⟨fun closed t u within popped => chain_restored table closed within popped, ?_, ?_, ?_, table.chain⟩
  · obtain ⟨outer, inner, layout, -⟩ := table
    obtain ⟨t, done, -⟩ := popctx_spec layout
    exact ⟨t, done⟩
  · intro id fresh free dangles
    obtain ⟨outer, inner, layout, -⟩ := table
    rcases getsym_cases id layout free with failed | failed | ⟨p, sym, found, -⟩ | ⟨-, -, t, new, -⟩
    · cases failed.symm.trans dangles
    · cases failed.symm.trans dangles
    · cases found.symm.trans dangles
    · cases new.symm.trans dangles
  · intro id fresh p t u free given run
    obtain ⟨table', sym, present, number⟩ := getsym_number table free given
    obtain ⟨table'', sym', present', number'⟩ := keeping_number table' present run
    have same : sym'.id = id := number'.trans number
    constructor
    · intro named fresh'
      rw [← same] at named ⊢
      apply getsym_found table'' present' named
      rw [same]
      exact getsym_below given
    · rintro id' fresh' p' v free' given' differs rfl
      obtain ⟨-, found, present'', number''⟩ := getsym_number table'' free' given'
      have step : Step u v := ⟨.getsym id' fresh', free', by rw [Symtab.step, given']; rfl⟩
      have alive : v.heap p ≠ none := by
        rw [present'']
        exact nofun
      obtain ⟨-, sym'', present₃, number₃⟩ := keeping_number table'' present' (.single ⟨step, alive⟩)
      cases present''.symm.trans present₃
      exact differs ((number₃.trans same).symm.trans number'')

theorem symtab_correct_collision :
    ∃ s t u, getsym 0 1 init = .ok (0, s) ∧ getsym 1 65 (pushctx s) = .ok (1, t) ∧ popctx t = .ok u ∧
      ∀ b, chain u b = chain s b := by
  refine ⟨_, _, _, rfl, rfl, rfl, ?_⟩
  refine (symtab_correct (.single ⟨.getsym 1 0, rfl, rfl⟩)).1 rfl _ _ (.single ⟨.getsym 65 1, nofun, ?_, rfl⟩) rfl
  rfl

/-- Within a function, `pushctx` opens nothing of its own that `popctx` could end. -/
theorem nested_not_restored :
    ∃ s u, getsym 0 1 (pushctx init) = .ok (0, s) ∧ popctx (pushctx s) = .ok u ∧ chain u 1 ≠ chain s 1 := by
  refine ⟨_, _, rfl, rfl, ?_⟩
  intro same
  cases same

end

end Scc.Cc2.Symtab
