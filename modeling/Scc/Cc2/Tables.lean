import Scc.Cc2.Parser

set_option linter.all false

/-! The tables of switches. The entries of a switch are moved behind its head while its
body is still being read; at the end every entry stands with its own switch, and the
other statements keep their order. -/
namespace Scc.Cc2
variable {E : Type}

/-- What `waft` moves. -/
def Stmt.entry : Stmt E → Bool
  | .OCASE _ _ | .ODEFAULT _ | .OESWITCH _ => true
  | _ => false

/-- The entries, up to its end, of a switch with `depth` switches open in it. -/
def entries : Nat → List (Stmt E) → List (Stmt E)
  | _, [] => []
  | depth, .OBSWITCH _ _ :: code => entries (depth + 1) code
  | 0, .OESWITCH sym :: _ => [.OESWITCH sym]
  | depth + 1, .OESWITCH _ :: code => entries depth code
  | 0, .OCASE sym left :: code => .OCASE sym left :: entries 0 code
  | 0, .ODEFAULT sym :: code => .ODEFAULT sym :: entries 0 code
  | depth, _ :: code => entries depth code

/-- Every switch followed by its entries, and the number of them in its head. -/
def arrange : List (Stmt E) → List (Stmt E)
  | [] => []
  | .OBSWITCH left _ :: code =>
    .OBSWITCH left (entries 0 code).length :: (entries 0 code ++ arrange code)
  | np :: code => if np.entry then arrange code else np :: arrange code

/-- With `depth` switches open: entries stand in switches, of which at most `NR_BLOCK` are
open at a time, and all are closed at the end. -/
def nested : Nat → List (Stmt E) → Bool
  | depth, [] => depth = 0
  | depth, .OBSWITCH _ _ :: code => depth < NR_BLOCK && nested (depth + 1) code
  | 0, .OESWITCH _ :: _ => false
  | depth + 1, .OESWITCH _ :: code => nested depth code
  | depth, .OCASE _ _ :: code | depth, .ODEFAULT _ :: code => 0 < depth && nested depth code
  | depth, _ :: code => nested depth code

/-- Neither a head nor an entry of a switch. -/
def Stmt.plain : Stmt E → Bool
  | .OBSWITCH _ _ => false
  | np => !np.entry

section
variable {np : Stmt E} (plain : np.plain = true) (code : List (Stmt E))
include plain

theorem entries_plain (depth : Nat) : entries depth (np :: code) = entries depth code := by
  cases np <;> first | (cases depth <;> rfl) | cases plain

theorem arrange_plain : arrange (np :: code) = np :: arrange code := by
  cases np <;> first | rfl | cases plain

theorem nested_plain (depth : Nat) : nested depth (np :: code) = nested depth code := by
  cases np <;> first | (cases depth <;> rfl) | cases plain

end

theorem entries_are_entries (depth : Nat) (code : List (Stmt E)) :
    ∀ np ∈ entries depth code, np.entry = true := by
  fun_induction entries depth code with
  | case1 => simp
  | case2 depth left nr code ih => exact ih
  | case3 sym code => simp [Stmt.entry]
  | case4 depth sym code ih => exact ih
  | case5 sym left code ih => simpa [Stmt.entry] using ih
  | case6 sym code ih => simpa [Stmt.entry] using ih
  | case7 => assumption

/-- The statements that are not moved, with no number in the heads of switches. -/
def unmoved (code : List (Stmt E)) : List (Stmt E) :=
  (code.filter fun np => !np.entry).map fun np =>
    match np with
    | .OBSWITCH left _ => .OBSWITCH left 0
    | np => np

theorem unmoved_append (first second : List (Stmt E)) :
    unmoved (first ++ second) = unmoved first ++ unmoved second := by
  simp [unmoved]

theorem unmoved_entries {code : List (Stmt E)} (all : ∀ np ∈ code, np.entry = true) :
    unmoved code = [] := by
  have none : code.filter (fun np => !np.entry) = [] :=
    List.filter_eq_nil_iff.mpr fun np member => by simp [all np member]
  simp [unmoved, none]

/-- The statements that are not moved keep their order. -/
theorem unmoved_arrange (code : List (Stmt E)) : unmoved (arrange code) = unmoved code := by
  induction code with
  | nil => rfl
  | cons np code ih =>
    by_cases plain : np.plain = true
    · rw [arrange_plain plain]
      exact (unmoved_append [np] _).trans ((congrArg _ ih).trans (unmoved_append [np] code).symm)
    · cases np with
      | OBSWITCH left nr =>
        rw [arrange, ← List.singleton_append, unmoved_append, unmoved_append,
          unmoved_entries (entries_are_entries 0 code), ih]
        rfl
      | OCASE sym left => exact ih
      | ODEFAULT sym => exact ih
      | OESWITCH sym => exact ih
      | _ => exact absurd rfl plain

/-! The list while it is built. -/

/-- The effect of a line that leaves the node `np`. -/
def join (np : Stmt Node) (s : State) : Except Error State :=
  let next := { s with num := s.num + 1 }
  match np with
  | .OCASE _ _ => place .OCASE s.num np next
  | .ODEFAULT _ => place .ODEFAULT s.num np next
  | .OESWITCH _ => place .OESWITCH s.num np next
  | .OBSWITCH left _ =>
    if s.swtbl.length = NR_BLOCK then .error .EWTACKO
    else .ok (addstmt (s.num, .OBSWITCH left 0)
      { next with swtbl := ⟨0, s.num, s.num⟩ :: s.swtbl })
  | .OEFUN => .ok (endfun s)
  | np => .ok (addstmt (s.num, np) next)

def Stmt.ends : Stmt E → Bool
  | .OEFUN => true
  | _ => false

/-- `join` leaves the stack, the symbols and the data alone, and sees the end of the function. -/
structure Joined (np : Stmt Node) (s s' : State) : Prop where
  stack : s'.stack = s.stack
  table : s'.table = s.table
  endf : s'.endf = (s.endf || np.ends)
  ininit : s'.ininit = s.ininit

abbrev Nodes := List (Nat × Stmt Node)

def stmtsOf (nodes : Nodes) : List (Stmt Node) := nodes.map Prod.snd

/-- An open switch: its head, the entries behind it and the statements that follow these. -/
structure Frame where
  id : Nat
  left : Node
  table : Nodes
  after : Nodes

def Frame.front (f : Frame) : Nodes := (f.id, .OBSWITCH f.left 0) :: f.table

/-- The node where the next entry goes. -/
def Frame.last (f : Frame) : Nat := (f.table.getLast?.map Prod.fst).getD f.id

def Frame.nodes (f : Frame) : Nodes := f.front ++ f.after

/-- The statements before the open switches and those of the open switches, the innermost
of which comes first and stands last. -/
def nodes (base : Nodes) : List Frame → Nodes
  | [] => base
  | f :: outer => nodes base outer ++ f.nodes

def Frame.append (f : Frame) (more : Nodes) : Frame := { f with after := f.after ++ more }

/-- The innermost switch, or else the list, gets further statements. -/
def extend (base : Nodes) (frames : List Frame) (more : Nodes) : Nodes × List Frame :=
  match frames with
  | [] => (base ++ more, [])
  | f :: outer => (base, f.append more :: outer)

/-- The statement list of the parser: the current statement is the last one. -/
structure Listed (code : Nodes) (s : State) : Prop where
  stmts : s.stmts = code
  curstmt : s.curstmt = code.getLast?.map Prod.fst
  unique : (code.map Prod.fst).Nodup
  fresh : ∀ np ∈ code, np.1 < s.num

/-- The state of the parser for a list with open switches. -/
structure Represents (base : Nodes) (frames : List Frame) (s : State) : Prop where
  listed : Listed (nodes base frames) s
  swtbl : s.swtbl = frames.map fun f => ⟨f.table.length, f.id, f.last⟩

/-- What becomes of the open switches when the statements `code` follow. -/
def close (depth : Nat) (code : List (Stmt Node)) : List Frame → List (Stmt Node)
  | [] => []
  | f :: outer =>
    close (depth + 1) code outer ++
      .OBSWITCH f.left (f.table.length + (entries depth code).length) ::
        (stmtsOf f.table ++ entries depth code ++ stmtsOf f.after)

def whole (base : Nodes) (frames : List Frame) (code : List (Stmt Node)) : List (Stmt Node) :=
  stmtsOf base ++ close 0 code frames ++ arrange code

theorem nodes_extend (base : Nodes) (frames : List Frame) (more : Nodes) :
    nodes (extend base frames more).1 (extend base frames more).2 = nodes base frames ++ more := by
  cases frames with
  | nil => rfl
  | cons f outer => simp [extend, nodes, Frame.append, Frame.nodes, Frame.front]

theorem close_congr {code code' : List (Stmt Node)} {depth depth' : Nat}
    (same : ∀ k, entries (depth + k) code = entries (depth' + k) code') (frames : List Frame) :
    close depth code frames = close depth' code' frames := by
  induction frames generalizing depth depth' with
  | nil => rfl
  | cons f outer ih =>
    have next := @ih (depth + 1) (depth' + 1) fun k => by
      simpa [Nat.add_assoc, Nat.add_comm 1 k] using same (k + 1)
    have here := same 0
    simp only [Nat.add_zero] at here
    simp only [close, next, here]

theorem whole_extend (base : Nodes) (frames : List Frame) (more : Nodes) (code : List (Stmt Node)) :
    whole (extend base frames more).1 (extend base frames more).2 code =
      stmtsOf base ++ close 0 code frames ++ stmtsOf more ++ arrange code := by
  cases frames with
  | nil => simp [whole, extend, close, stmtsOf]
  | cons f outer => simp [whole, extend, close, stmtsOf, Frame.append]

/-! Insertion. -/

theorem insertAfter_last {before after : Nodes} {x np : Nat × Stmt Node}
    (unique : ((before ++ x :: after).map Prod.fst).Nodup) :
    insertAfter x.1 np (before ++ x :: after) = before ++ x :: np :: after := by
  induction before with
  | nil => simp [insertAfter]
  | cons first before ih =>
    obtain ⟨new, rest⟩ := List.nodup_cons.mp unique
    have other : first.1 ≠ x.1 := by
      intro same
      exact new (by simp [same])
    simp only [List.cons_append, insertAfter, if_neg other, ih rest]

theorem setnr_append (first nr : Nat) (before after : Nodes) :
    setnr first nr (before ++ after) = setnr first nr before ++ setnr first nr after :=
  List.map_append

theorem setnr_other {first : Nat} (nr : Nat) {code : Nodes}
    (absent : first ∉ code.map Prod.fst) : setnr first nr code = code := by
  induction code with
  | nil => rfl
  | cons np code ih =>
    obtain ⟨other, later⟩ := not_or.mp (mt List.mem_cons.mpr absent)
    have rest := ih later
    obtain ⟨id, np⟩ := np
    have head : setnr first nr [(id, np)] = [(id, np)] := by
      cases np <;> simp [setnr, Ne.symm other]
    rw [← List.singleton_append, setnr_append, head, rest]

/-- Every list of nodes that ends somewhere can be split at its last node. -/
theorem Frame.front_split (f : Frame) : ∃ before x, f.front = before ++ [x] ∧ x.1 = f.last := by
  rcases List.eq_nil_or_concat f.table with empty | ⟨table, x, ends⟩
  · exact ⟨[], (f.id, .OBSWITCH f.left 0), by simp [Frame.front, empty], by simp [Frame.last, empty]⟩
  · exact ⟨(f.id, .OBSWITCH f.left 0) :: table, x, by simp [Frame.front, ends],
      by simp [Frame.last, ends]⟩

theorem Listed.new {code : Nodes} {s : State} (listed : Listed code s) :
    s.num ∉ code.map Prod.fst := by
  intro member
  obtain ⟨np, among, same⟩ := List.mem_map.mp member
  exact absurd (listed.fresh np among) (by omega)

/-- `addstmt` adds to the end of the list. -/
theorem Listed.addstmt {code : Nodes} {s : State} (listed : Listed code s) (np : Stmt Node) :
    Listed (code ++ [(s.num, np)]) (addstmt (s.num, np) { s with num := s.num + 1 }) where
  stmts := by
    simp only [Cc2.addstmt, listed.curstmt, listed.stmts]
    rcases List.eq_nil_or_concat code with empty | ⟨before, x, ends⟩
    · simp [empty]
    · have unique := listed.unique
      simp only [ends, List.concat_eq_append] at unique ⊢
      have inserted := @insertAfter_last _ _ _ (s.num, np) unique
      simpa using inserted
  curstmt := by simp [Cc2.addstmt]
  unique := by
    rw [List.map_append, List.map_singleton, List.nodup_append]
    refine ⟨listed.unique, List.nodup_singleton _, ?_⟩
    intro a old b once same
    rw [same, List.mem_singleton.mp once] at old
    exact listed.new old
  fresh := by
    intro other member
    rcases List.mem_append.mp member with old | new
    · exact Nat.lt_succ_of_lt (listed.fresh other old)
    · rw [List.mem_singleton.mp new]
      exact Nat.lt_succ_self _

section
variable {base : Nodes} {frames : List Frame} {s : State} {f : Frame} {outer : List Frame}

/-- A statement that is not moved goes to the end of the list. -/
theorem Represents.addstmt (repr : Represents base frames s) (np : Stmt Node) :
    Represents (extend base frames [(s.num, np)]).1 (extend base frames [(s.num, np)]).2
      (addstmt (s.num, np) { s with num := s.num + 1 }) where
  listed := by
    rw [nodes_extend]
    exact repr.listed.addstmt np
  swtbl := by
    cases frames with
    | nil => exact repr.swtbl
    | cons f outer => exact repr.swtbl

/-- The head of a switch opens it. -/
theorem Represents.bswitch (repr : Represents base frames s) (left : Node) :
    Represents base (⟨s.num, left, [], []⟩ :: frames)
      (Cc2.addstmt (s.num, .OBSWITCH left 0)
        { s with num := s.num + 1, swtbl := ⟨0, s.num, s.num⟩ :: s.swtbl }) where
  listed := by
    have added := repr.listed.addstmt (.OBSWITCH left 0)
    exact ⟨added.stmts, added.curstmt, added.unique, added.fresh⟩
  swtbl := by simp [Cc2.addstmt, repr.swtbl, Frame.last]

@[simps] def Frame.enter (f : Frame) (np : Nat × Stmt Node) : Frame :=
  { f with table := f.table ++ [np] }

theorem Frame.last_enter (f : Frame) (np : Nat × Stmt Node) : (f.enter np).last = np.1 := by
  simp [Frame.last]

/-- An entry goes behind the table of the innermost switch. -/
theorem Represents.waft (repr : Represents base (f :: outer) s) (np : Stmt Node) :
    ∃ s', waft (s.num, np) { s with num := s.num + 1 } = .ok s' ∧
      Represents base (f.enter (s.num, np) :: outer) s' ∧
      s'.stack = s.stack ∧ s'.table = s.table ∧ s'.endf = s.endf ∧ s'.ininit = s.ininit := by
  obtain ⟨before, x, front, last⟩ := f.front_split
  have split : nodes base (f :: outer) = (nodes base outer ++ before) ++ x :: f.after := by
    simp [nodes, Frame.nodes, front]
  have entered : (f.enter (s.num, np)).front = before ++ [x] ++ [(s.num, np)] := by
    rw [← front]
    simp [Frame.front]
  have split' : nodes base (f.enter (s.num, np) :: outer) =
      (nodes base outer ++ before) ++ x :: (s.num, np) :: f.after := by
    simp [nodes, Frame.nodes, entered]
  have unique := repr.listed.unique
  have fresh := repr.listed.fresh
  have new := repr.listed.new
  rw [split] at unique fresh new
  have moved : Cc2.waft (s.num, np) { s with num := s.num + 1 } = .ok
      { s with
        num := s.num + 1
        stmts := insertAfter f.last (s.num, np) s.stmts
        curstmt := if s.curstmt = some f.last then some s.num else s.curstmt
        swtbl := ⟨f.table.length + 1, f.id, s.num⟩ ::
          outer.map fun f => ⟨f.table.length, f.id, f.last⟩ } := by
    simp only [Cc2.waft, repr.swtbl, List.map_cons]
  refine ⟨_, moved, ⟨⟨?_, ?_, ?_, ?_⟩, ?_⟩, rfl, rfl, rfl, rfl⟩
  · rw [split', repr.listed.stmts, split, ← last]
    exact insertAfter_last unique
  · rw [repr.listed.curstmt, split, split', ← last]
    rcases List.eq_nil_or_concat f.after with empty | ⟨after, y, ends⟩
    · simp [empty]
    · rw [ends] at unique
      have other : y.1 ≠ x.1 := by
        intro same
        rw [List.map_append, List.nodup_append] at unique
        exact (List.nodup_cons.mp unique.2.1).1 (by simp [same])
      have final : ∀ front : Nodes, (front ++ x :: f.after).getLast? = some y ∧
          (front ++ x :: (s.num, np) :: f.after).getLast? = some y := by
        intro front
        rw [ends]
        simp [List.getLast?_cons]
      rw [(final _).1, (final _).2]
      simp [other]
  · have moved : (List.map Prod.fst (nodes base outer ++ before) ++ [x.1] ++
        s.num :: List.map Prod.fst f.after).Nodup := by
      rw [List.nodup_middle]
      refine List.nodup_cons.mpr ⟨?_, ?_⟩
      · simpa using new
      · simpa using unique
    rw [split']
    simpa using moved
  · rw [split']
    intro other member
    have cases : other = (s.num, np) ∨
        other ∈ (nodes base outer ++ before) ++ x :: f.after := by
      simp only [List.mem_append, List.mem_cons] at member ⊢
      tauto
    rcases cases with rfl | old
    · exact Nat.lt_succ_self _
    · exact Nat.lt_succ_of_lt (fresh other old)
  · simp only [List.map_cons, Frame.last_enter, Frame.enter_id, Frame.enter_table,
      List.length_append, List.length_singleton]

/-- The switch with all its entries. -/
def Frame.closed (f : Frame) : Nodes :=
  (f.id, .OBSWITCH f.left f.table.length) :: f.table ++ f.after

theorem setnr_frame {f : Frame} (unique : ((nodes base outer ++ f.nodes).map Prod.fst).Nodup)
    (nr : Nat) : setnr f.id nr (nodes base outer ++ f.nodes) =
      nodes base outer ++ ((f.id, .OBSWITCH f.left nr) :: f.table ++ f.after) := by
  have middle : (f.id :: (nodes base outer ++ (f.table ++ f.after)).map Prod.fst).Nodup := by
    simp only [Frame.nodes, Frame.front, List.cons_append, List.map_append, List.map_cons,
      List.nodup_middle] at unique
    simpa using unique
  have absent := (List.nodup_cons.mp middle).1
  simp only [List.map_append, List.mem_append, not_or] at absent
  rw [setnr_append, setnr_other nr absent.1, Frame.nodes, Frame.front, List.cons_append,
    ← List.singleton_append, setnr_append, @setnr_other _ nr (f.table ++ f.after)]
  · simp [setnr]
  · simpa using absent.2

/-- The innermost switch joins the statements around it. -/
theorem Represents.close (repr : Represents base (f :: outer) s) :
    Represents (extend base outer f.closed).1 (extend base outer f.closed).2
      { s with swtbl := s.swtbl.tail, stmts := setnr f.id f.table.length s.stmts } := by
  have ids : (nodes base outer ++ f.closed).map Prod.fst =
      (nodes base outer ++ f.nodes).map Prod.fst := by
    simp [Frame.closed, Frame.nodes, Frame.front]
  refine ⟨⟨?_, ?_, ?_, ?_⟩, ?_⟩
  · rw [nodes_extend, repr.listed.stmts]
    exact setnr_frame repr.listed.unique _
  · rw [nodes_extend, ← List.getLast?_map, ids, List.getLast?_map]
    exact repr.listed.curstmt
  · rw [nodes_extend, ids]
    exact repr.listed.unique
  · intro np member
    rw [nodes_extend] at member
    have id := ids ▸ List.mem_map_of_mem (f := Prod.fst) member
    obtain ⟨other, among, same⟩ := List.mem_map.mp id
    exact same ▸ repr.listed.fresh other among
  · rw [repr.swtbl]
    cases outer <;> rfl

/-! Steps. -/

theorem close_plain {np : Stmt Node} (plain : np.plain = true) (code : List (Stmt Node)) :
    close 0 (np :: code) frames = close 0 code frames :=
  close_congr (fun _ => entries_plain plain code _) frames

theorem close_switch (left : Node) (nr : Nat) (code : List (Stmt Node)) :
    close 0 (.OBSWITCH left nr :: code) frames = close 1 code frames :=
  close_congr (fun k => by rw [Nat.zero_add, Nat.add_comm 1 k, entries]) frames

theorem close_end (sym : Sym) (code : List (Stmt Node)) :
    close 1 (.OESWITCH sym :: code) frames = close 0 code frames :=
  close_congr (fun k => by rw [Nat.zero_add, Nat.add_comm 1 k, entries]) frames

/-- A label of the innermost switch goes into its table. -/
theorem whole_enter {np : Stmt Node} {code : List (Stmt Node)} (id : Nat)
    (here : entries 0 (np :: code) = np :: entries 0 code)
    (deeper : ∀ depth, entries (depth + 1) (np :: code) = entries (depth + 1) code)
    (moved : arrange (np :: code) = arrange code) :
    whole base (f.enter (id, np) :: outer) code = whole base (f :: outer) (np :: code) := by
  have around : Cc2.close 1 (np :: code) outer = Cc2.close 1 code outer :=
    close_congr (fun k => by rw [Nat.add_comm 1 k, deeper]) outer
  have count : f.table.length + 1 + (entries 0 code).length =
      f.table.length + (np :: entries 0 code).length := by
    simp only [List.length_cons]
    omega
  simp only [whole, Cc2.close, Nat.zero_add, Frame.enter_left, Frame.enter_table, Frame.enter_after,
    List.length_append, List.length_singleton, stmtsOf, List.map_append, List.map_singleton, here,
    around, moved, count, List.append_assoc, List.cons_append, List.nil_append]

/-- The end of the innermost switch completes its table. -/
theorem whole_closed {code : List (Stmt Node)} (id : Nat) (sym : Sym) :
    whole (extend base outer (f.enter (id, .OESWITCH sym)).closed).1
        (extend base outer (f.enter (id, .OESWITCH sym)).closed).2 code =
      whole base (f :: outer) (.OESWITCH sym :: code) := by
  rw [whole_extend, whole, Cc2.close, close_end]
  simp [Frame.closed, stmtsOf, entries, arrange, Stmt.entry]

/-- One line: whatever follows, the list comes out as `whole` says. -/
theorem join_step {np : Stmt Node} {code : List (Stmt Node)} (repr : Represents base frames s)
    (nest : nested frames.length (np :: code) = true) :
    ∃ base' frames' s', join np s = .ok s' ∧ Joined np s s' ∧ Represents base' frames' s' ∧
      nested frames'.length code = true ∧
      whole base' frames' code = whole base frames (np :: code) := by
  by_cases plain : np.plain = true
  · have size : (extend base frames [(s.num, np)]).2.length = frames.length := by
      cases frames <;> rfl
    have list : whole (extend base frames [(s.num, np)]).1 (extend base frames [(s.num, np)]).2 code =
        whole base frames (np :: code) := by
      rw [whole_extend, whole, close_plain plain, arrange_plain plain]
      simp [stmtsOf]
    rw [nested_plain plain, ← size] at nest
    by_cases final : np = .OEFUN
    · subst final
      have ended : Represents base frames { s with endf := true } :=
        ⟨⟨repr.listed.stmts, repr.listed.curstmt, repr.listed.unique, repr.listed.fresh⟩, repr.swtbl⟩
      exact ⟨_, _, _, rfl, ⟨rfl, rfl, by simp [endfun, Cc2.addstmt, Stmt.ends], rfl⟩,
        ended.addstmt .OEFUN, nest, list⟩
    · have added : join np s = .ok (Cc2.addstmt (s.num, np) { s with num := s.num + 1 }) := by
        cases np <;> first | rfl | exact absurd rfl final | cases plain
      have going : np.ends = false := by
        cases np <;> first | rfl | exact absurd rfl final
      exact ⟨_, _, _, added, ⟨rfl, rfl, by simp [Cc2.addstmt, going], rfl⟩, repr.addstmt np, nest, list⟩
  · cases np with
    | OBSWITCH left nr =>
      obtain ⟨room, later⟩ := Bool.and_eq_true_iff.mp nest
      have room : ¬s.swtbl.length = NR_BLOCK := by
        have size : s.swtbl.length = frames.length := by simp [repr.swtbl]
        have fewer := of_decide_eq_true room
        omega
      refine ⟨_, _, _, if_neg room, ⟨rfl, rfl, by simp [Cc2.addstmt, Stmt.ends], rfl⟩,
        repr.bswitch left, later, ?_⟩
      rw [whole, whole, close_switch]
      simp [Cc2.close, stmtsOf, arrange]
    | OCASE sym left =>
      obtain ⟨inside, later⟩ := Bool.and_eq_true_iff.mp nest
      cases frames with
      | nil => cases inside
      | cons f outer =>
        obtain ⟨s', moved, after, stack, table, endf, ininit⟩ := repr.waft (.OCASE sym left)
        exact ⟨_, _, s', moved, ⟨stack, table, by simp [endf, Stmt.ends], ininit⟩, after, later,
          whole_enter s.num rfl (fun _ => rfl) rfl⟩
    | ODEFAULT sym =>
      obtain ⟨inside, later⟩ := Bool.and_eq_true_iff.mp nest
      cases frames with
      | nil => cases inside
      | cons f outer =>
        obtain ⟨s', moved, after, stack, table, endf, ininit⟩ := repr.waft (.ODEFAULT sym)
        exact ⟨_, _, s', moved, ⟨stack, table, by simp [endf, Stmt.ends], ininit⟩, after, later,
          whole_enter s.num rfl (fun _ => rfl) rfl⟩
    | OESWITCH sym =>
      cases frames with
      | nil => cases nest
      | cons f outer =>
        obtain ⟨s', moved, after, stack, table, endf, ininit⟩ := repr.waft (.OESWITCH sym)
        have size : (extend base outer (f.enter (s.num, .OESWITCH sym)).closed).2.length =
            outer.length := by
          cases outer <;> rfl
        have table' := after.swtbl
        simp only [List.map_cons] at table'
        have left : join (.OESWITCH sym) s = .ok
            { s' with
              swtbl := s'.swtbl.tail
              stmts := setnr (f.enter (s.num, .OESWITCH sym)).id
                (f.enter (s.num, .OESWITCH sym)).table.length s'.stmts } := by
          simp only [join, place, moved, bind, Except.bind, table', List.tail_cons]
        exact ⟨_, _, _, left, ⟨stack, table, by simp [endf, Stmt.ends], ininit⟩, after.close,
          size.symm ▸ nest, whole_closed s.num sym⟩
    | _ => exact absurd rfl plain

end

end Scc.Cc2
