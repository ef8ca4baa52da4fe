import Scc.Cc1.Symbol
import Scc.Listing.Unwind
import Mathlib.Data.List.Find

set_option linter.all false

/-! The symbol table keeps the scopes of C. A lookup follows the order of the declarations, and `popctx` the order in
which the symbols were created: it finds each symbol at the head of its chain if and only if these agree. -/
namespace Scc.Cc1.Symtab
open Listing

variable {genhash : Name → Nat} {s s' : State} {p q : Nat}

/-- The declarations that are visible, the latest first: of every block, innermost first, of the labels of a function,
and of the macros. -/
structure Scopes where
  blocks : List (List Nat)
  labels : List Nat
  macros : List Nat

namespace Scopes

def visible (a : Scopes) : Table → List Nat
  | .htab => a.blocks.flatten
  | .htablbl => a.labels
  | .htabcpp => a.macros

def declare (p : Nat) (a : Scopes) : Table → Scopes
  | .htab => { a with blocks := a.blocks.modifyHead (p :: ·) }
  | .htablbl => { a with labels := p :: a.labels }
  | .htabcpp => { a with macros := p :: a.macros }

def enter (a : Scopes) : Scopes := { a with blocks := [] :: a.blocks }

/-- The labels end with the function. -/
def leave (a : Scopes) : Scopes := { a with
  blocks := a.blocks.tail
  labels := if a.blocks.length = 2 then [] else a.labels }

end Scopes

/-- The chain that a symbol belongs to. -/
def place (genhash : Name → Nat) (s : State) (p : Nat) : Table × Nat :=
  hash genhash ((s.sym p).name.getD []) (s.sym p).ns

/-- The table holds the declarations of the scopes. -/
structure Tracks (genhash : Name → Nat) (s : State) (a : Scopes) : Prop where
  chains : ∀ b, s.chain b = inBucket (place genhash s) (a.visible b.1) b
  tables : ∀ t, ∀ p ∈ a.visible t, table (s.sym p).ns = t
  named : ∀ t, ∀ p ∈ a.visible t, ∃ name, (s.sym p).name = some name
  created : ∀ t, ∀ p ∈ a.visible t, p < s.count
  nodup : ∀ t, (a.visible t).Nodup
  depth : a.blocks.length = s.curctx + 1
  level : ∀ i scope, a.blocks[i]? = some scope → ∀ p ∈ scope, (s.sym p).ctx + i = s.curctx
  head_ns : ∀ p ∈ s.head, table (s.sym p).ns = .htab
  head_created : ∀ p ∈ s.head, p < s.count
  head_order : s.head.Pairwise (· > ·)
  head_ctx : s.head.Pairwise fun p q => (s.sym q).ctx ≤ (s.sym p).ctx
  head_le : ∀ p ∈ s.head, (s.sym p).ctx ≤ s.curctx
  labels_ns : ∀ p ∈ s.labels, table (s.sym p).ns = .htablbl
  labels_created : ∀ p ∈ s.labels, p < s.count
  labels_order : s.labels.Pairwise (· > ·)
  listed : ∀ p ∈ a.visible .htab, (s.sym p).ctx ≠ GLOBALCTX → p ∈ s.head
  labelled : ∀ p ∈ a.labels, p ∈ s.labels
  declared : ∀ p ∈ s.head, (s.sym p).declared = true → p ∈ a.visible .htab
  defined : ∀ p ∈ s.labels, (s.sym p).declared = true → p ∈ a.labels

/-! Lookups. -/

/-- A lookup returns the innermost and latest declaration that it may return. -/
theorem Tracks.find {a : Scopes} (tracks : Tracks genhash s a) (ns : Nat) (name : Name) :
    (s.chain (hash genhash name ns)).find? (fun p => Found s ns name p) =
      (a.visible (table ns)).find? fun p => Found s ns name p := by
  rw [tracks.chains, inBucket, List.find?_filter]
  apply List.find?_congr
  intro p member
  by_cases found : Found s ns name p
  · have same : place genhash s p = hash genhash name ns := by
      rw [place, found.1, Option.getD_some, hash, hash, tracks.tables _ p member]
      rfl
    simp [found, same]
  · simp [found]

/-! New symbols. -/

section
variable {a : Scopes} {ns : Nat} {name : Option Name}

theorem newsym_sym (old : p ≠ s.count) : (newsym ns name s).2.sym p = s.sym p := by
  have same : (Function.update s.sym s.count ⟨name, ns, s.curctx, false, false⟩) p = s.sym p := Function.update_of_ne old ..
  unfold newsym
  split
  · exact same
  · split <;> exact same

theorem newsym_new : (newsym ns name s).2.sym s.count = ⟨name, ns, s.curctx, false, false⟩ := by
  have same := Function.update_self s.count (⟨name, ns, s.curctx, false, false⟩ : Symbol) s.sym
  unfold newsym
  split
  · exact same
  · split <;> exact same

theorem newsym_fst : (newsym ns name s).1 = s.count := rfl

theorem newsym_chain : (newsym ns name s).2.chain = s.chain := by
  unfold newsym
  split
  · rfl
  · split <;> rfl

theorem newsym_curctx : (newsym ns name s).2.curctx = s.curctx := by
  unfold newsym
  split
  · rfl
  · split <;> rfl

theorem newsym_count : (newsym ns name s).2.count = s.count + 1 := by
  unfold newsym
  split
  · rfl
  · split <;> rfl

theorem newsym_head : (newsym ns name s).2.head = if table ns = .htab then s.count :: s.head else s.head := by
  unfold newsym table
  by_cases label : ns = NS_LABEL
  · subst label
    rfl
  · by_cases cpp : ns = NS_CPP
    · subst cpp
      rfl
    · simp [label, cpp]

theorem newsym_labels : (newsym ns name s).2.labels = if table ns = .htablbl then s.count :: s.labels else s.labels := by
  unfold newsym table
  by_cases label : ns = NS_LABEL
  · subst label
    rfl
  · by_cases cpp : ns = NS_CPP
    · subst cpp
      rfl
    · simp [label, cpp]

theorem place_newsym (old : p ≠ s.count) : place genhash (newsym ns name s).2 p = place genhash s p := by
  rw [place, place, newsym_sym old]

/-- A new symbol is in no scope. -/
theorem newsym_tracks (tracks : Tracks genhash s a) (ns : Nat) (name : Option Name) :
    Tracks genhash (newsym ns name s).2 a := by
  have visible {t : Table} {p : Nat} (member : p ∈ a.visible t) : (newsym ns name s).2.sym p = s.sym p :=
    newsym_sym (Nat.ne_of_lt (tracks.created t p member))
  have head {p : Nat} (member : p ∈ s.head) : (newsym ns name s).2.sym p = s.sym p :=
    newsym_sym (Nat.ne_of_lt (tracks.head_created p member))
  have labels {p : Nat} (member : p ∈ s.labels) : (newsym ns name s).2.sym p = s.sym p :=
    newsym_sym (Nat.ne_of_lt (tracks.labels_created p member))
  have in_head {p : Nat} (member : p ∈ (newsym ns name s).2.head) : p ∈ s.head ∨ p = s.count ∧ table ns = .htab := by
    rw [newsym_head] at member
    split at member
    · rename_i here
      exact (List.mem_cons.mp member).symm.imp id fun new => ⟨new, here⟩
    · exact .inl member
  have in_labels {p : Nat} (member : p ∈ (newsym ns name s).2.labels) :
      p ∈ s.labels ∨ p = s.count ∧ table ns = .htablbl := by
    rw [newsym_labels] at member
    split at member
    · rename_i here
      exact (List.mem_cons.mp member).symm.imp id fun new => ⟨new, here⟩
    · exact .inl member
  constructor
  case chains =>
    intro b
    rw [newsym_chain, tracks.chains b]
    apply List.filter_congr
    intro p member
    rw [place_newsym (Nat.ne_of_lt (tracks.created b.1 p member))]
  case tables => exact fun t p member => visible member ▸ tracks.tables t p member
  case named => exact fun t p member => visible member ▸ tracks.named t p member
  case created => exact fun t p member => newsym_count ▸ Nat.lt_succ_of_lt (tracks.created t p member)
  case nodup => exact tracks.nodup
  case depth =>
    rw [newsym_curctx]
    exact tracks.depth
  case level =>
    intro i scope at_ p member
    have shown : p ∈ a.visible .htab := List.mem_flatten.mpr ⟨scope, List.mem_of_getElem? at_, member⟩
    rw [visible shown, newsym_curctx]
    exact tracks.level i scope at_ p member
  case head_ns =>
    intro p member
    rcases in_head member with old | ⟨rfl, here⟩
    · exact head old ▸ tracks.head_ns p old
    · rwa [newsym_new]
  case head_created =>
    intro p member
    rw [newsym_count]
    rcases in_head member with old | ⟨rfl, -⟩
    · exact Nat.lt_succ_of_lt (tracks.head_created p old)
    · exact Nat.lt_succ_self _
  case head_order =>
    rw [newsym_head]
    split
    · exact List.pairwise_cons.mpr ⟨tracks.head_created, tracks.head_order⟩
    · exact tracks.head_order
  case head_ctx =>
    have old : s.head.Pairwise fun p q => ((newsym ns name s).2.sym q).ctx ≤ ((newsym ns name s).2.sym p).ctx :=
      tracks.head_ctx.imp_of_mem fun here there le => by rwa [head here, head there]
    rw [newsym_head]
    split
    · refine List.pairwise_cons.mpr ⟨fun p member => ?_, old⟩
      rw [newsym_new, head member]
      exact tracks.head_le p member
    · exact old
  case head_le =>
    intro p member
    rw [newsym_curctx]
    rcases in_head member with old | ⟨rfl, -⟩
    · exact head old ▸ tracks.head_le p old
    · exact Nat.le_of_eq (congrArg Symbol.ctx newsym_new)
  case labels_ns =>
    intro p member
    rcases in_labels member with old | ⟨rfl, here⟩
    · exact labels old ▸ tracks.labels_ns p old
    · rwa [newsym_new]
  case labels_created =>
    intro p member
    rw [newsym_count]
    rcases in_labels member with old | ⟨rfl, -⟩
    · exact Nat.lt_succ_of_lt (tracks.labels_created p old)
    · exact Nat.lt_succ_self _
  case labels_order =>
    rw [newsym_labels]
    split
    · exact List.pairwise_cons.mpr ⟨tracks.labels_created, tracks.labels_order⟩
    · exact tracks.labels_order
  case listed =>
    intro p member inner
    rw [visible member] at inner
    have old := tracks.listed p member inner
    rw [newsym_head]
    split
    · exact List.mem_cons_of_mem _ old
    · exact old
  case labelled =>
    intro p member
    have old := tracks.labelled p member
    rw [newsym_labels]
    split
    · exact List.mem_cons_of_mem _ old
    · exact old
  case declared =>
    intro p member flag
    rcases in_head member with old | ⟨rfl, -⟩
    · rw [head old] at flag
      exact tracks.declared p old flag
    · rw [newsym_new] at flag
      cases flag
  case defined =>
    intro p member flag
    rcases in_labels member with old | ⟨rfl, -⟩
    · rw [labels old] at flag
      exact tracks.defined p old flag
    · rw [newsym_new] at flag
      cases flag

/-! Declarations. -/

/-- The flags change, or other parts of a symbol that the table does not look at. -/
theorem Tracks.flags (tracks : Tracks genhash s a) {sym : Nat → Symbol}
    (same : ∀ p, (sym p).name = (s.sym p).name ∧ (sym p).ns = (s.sym p).ns ∧ (sym p).ctx = (s.sym p).ctx)
    (declared : ∀ p, (sym p).declared = true → (s.sym p).declared = true ∨ p ∈ a.visible (table (s.sym p).ns)) :
    Tracks genhash { s with sym := sym } a := by
  have places : place genhash { s with sym := sym } = place genhash s := by
    funext p
    rw [place, place, (same p).1, (same p).2.1]
  constructor
  case chains => exact fun b => places ▸ tracks.chains b
  case tables => exact fun t p member => (same p).2.1 ▸ tracks.tables t p member
  case named => exact fun t p member => (same p).1 ▸ tracks.named t p member
  case created => exact tracks.created
  case nodup => exact tracks.nodup
  case depth => exact tracks.depth
  case level => exact fun i scope at_ p member => (same p).2.2 ▸ tracks.level i scope at_ p member
  case head_ns => exact fun p member => (same p).2.1 ▸ tracks.head_ns p member
  case head_created => exact tracks.head_created
  case head_order => exact tracks.head_order
  case head_ctx =>
    exact tracks.head_ctx.imp fun {p q} le => by
      change (sym q).ctx ≤ (sym p).ctx
      rwa [(same p).2.2, (same q).2.2]
  case head_le => exact fun p member => (same p).2.2 ▸ tracks.head_le p member
  case labels_ns => exact fun p member => (same p).2.1 ▸ tracks.labels_ns p member
  case labels_created => exact tracks.labels_created
  case labels_order => exact tracks.labels_order
  case listed => exact fun p member inner => tracks.listed p member ((same p).2.2 ▸ inner)
  case labelled => exact tracks.labelled
  case declared =>
    intro p member flag
    rcases declared p flag with old | shown
    · exact tracks.declared p member old
    · rwa [tracks.head_ns p member] at shown
  case defined =>
    intro p member flag
    rcases declared p flag with old | shown
    · exact tracks.defined p member old
    · rwa [tracks.labels_ns p member] at shown

theorem visible_declare (tracks : Tracks genhash s a) (p : Nat) (t u : Table) :
    (a.declare p t).visible u = if t = u then p :: a.visible u else a.visible u := by
  obtain ⟨blocks, labels, macros⟩ := a
  cases blocks with
  | nil => exact absurd tracks.depth (Nat.ne_of_lt (Nat.succ_pos _))
  | cons scope outer => cases t <;> cases u <;> rfl

theorem declare_blocks (p : Nat) (t : Table) : (a.declare p t).blocks.length = a.blocks.length := by
  cases t with
  | htab => exact List.length_modifyHead
  | htabcpp | htablbl => rfl

/-- Where the lists have a symbol that can be linked. -/
def Listed (s : State) (p : Nat) : Prop :=
  match table (s.sym p).ns with
  | .htab => p ∈ s.head
  | .htablbl => p ∈ s.labels
  | .htabcpp => True

/-- A symbol of the current context is linked: it is the latest declaration. -/
theorem link_tracks (tracks : Tracks genhash s a) (named : ∃ name, (s.sym p).name = some name) (created : p < s.count)
    (here : (s.sym p).ctx = s.curctx) (absent : p ∉ s.chain (place genhash s p)) (listed : Listed s p) :
    Tracks genhash
      { s with chain := Function.update s.chain (place genhash s p) (p :: s.chain (place genhash s p)) }
      (a.declare p (table (s.sym p).ns)) := by
  have split {t : Table} {q : Nat} (member : q ∈ (a.declare p (table (s.sym p).ns)).visible t) :
      q = p ∧ table (s.sym p).ns = t ∨ q ∈ a.visible t := by
    rw [visible_declare tracks] at member
    split at member
    · rename_i same
      exact (List.mem_cons.mp member).imp_left fun new => ⟨new, same⟩
    · exact .inr member
  have keeps {t : Table} {q : Nat} (member : q ∈ a.visible t) : q ∈ (a.declare p (table (s.sym p).ns)).visible t := by
    rw [visible_declare tracks]
    split
    · exact List.mem_cons_of_mem p member
    · exact member
  constructor
  case chains =>
    intro b
    rw [visible_declare tracks]
    change Function.update s.chain _ _ b = inBucket (place genhash s) _ b
    by_cases same : b = place genhash s p
    · subst same
      have first : table (s.sym p).ns = (place genhash s p).1 := rfl
      rw [Function.update_self, if_pos first, tracks.chains]
      exact (inBucket_cons_self p _).symm
    · rw [Function.update_of_ne same, tracks.chains b]
      split
      · rw [inBucket_cons_of_ne (Ne.symm same)]
      · rfl
  case tables =>
    intro t q member
    rcases split member with ⟨rfl, same⟩ | old
    · exact same
    · exact tracks.tables t q old
  case named =>
    intro t q member
    rcases split member with ⟨rfl, -⟩ | old
    · exact named
    · exact tracks.named t q old
  case created =>
    intro t q member
    rcases split member with ⟨rfl, -⟩ | old
    · exact created
    · exact tracks.created t q old
  case nodup =>
    intro t
    rw [visible_declare tracks]
    split
    · rename_i same
      subst same
      refine List.nodup_cons.mpr ⟨fun member => absent ?_, tracks.nodup _⟩
      rw [tracks.chains]
      exact List.mem_filter.mpr ⟨member, decide_eq_true rfl⟩
    · exact tracks.nodup t
  case depth => exact (declare_blocks p _).trans tracks.depth
  case level =>
    intro i scope at_ q member
    cases t : table (s.sym p).ns with
    | htab =>
      rw [t] at at_
      cases blocks : a.blocks with
      | nil => simp [Scopes.declare, blocks] at at_
      | cons first outer =>
        cases i with
        | zero =>
          simp only [Scopes.declare, blocks, List.modifyHead_cons, List.getElem?_cons_zero, Option.some.injEq] at at_
          subst at_
          rcases List.mem_cons.mp member with rfl | old
          · exact here
          · exact tracks.level 0 first (by rw [blocks]; rfl) q old
        | succ i =>
          simp only [Scopes.declare, blocks, List.modifyHead_cons, List.getElem?_cons_succ] at at_
          exact tracks.level (i + 1) scope (by rw [blocks]; exact at_) q member
    | htablbl | htabcpp =>
      rw [t] at at_
      exact tracks.level i scope at_ q member
  case head_ns => exact tracks.head_ns
  case head_created => exact tracks.head_created
  case head_order => exact tracks.head_order
  case head_ctx => exact tracks.head_ctx
  case head_le => exact tracks.head_le
  case labels_ns => exact tracks.labels_ns
  case labels_created => exact tracks.labels_created
  case labels_order => exact tracks.labels_order
  case listed =>
    intro q member inner
    rcases split member with ⟨rfl, same⟩ | old
    · rwa [Listed, same] at listed
    · exact tracks.listed q old inner
  case labelled =>
    intro q member
    rcases split (t := .htablbl) member with ⟨rfl, same⟩ | old
    · rwa [Listed, same] at listed
    · exact tracks.labelled q old
  case declared => exact fun q member flag => keeps (tracks.declared q member flag)
  case defined => exact fun q member flag => keeps (t := .htablbl) (tracks.defined q member flag)

theorem linkhash_tracks (tracks : Tracks genhash s a) (linked : linkhash genhash p s = .ok s') (created : p < s.count)
    (here : (s.sym p).ctx = s.curctx) (listed : Listed s p) :
    Tracks genhash s' (a.declare p (table (s.sym p).ns)) := by
  unfold linkhash at linked
  split at linked
  · cases linked
  · rename_i name named
    have at_ : place genhash s p = hash genhash name (s.sym p).ns := by
      rw [place, named, Option.getD_some]
    dsimp only at linked
    split at linked
    · cases linked
    · rename_i absent
      cases linked
      rw [← at_] at absent ⊢
      refine (link_tracks tracks ⟨name, named⟩ created here absent listed).flags (fun q => ?_) fun q flag => ?_
      · by_cases same : q = p
        · subst same
          simp
        · simp [same]
      · by_cases same : q = p
        · subst same
          refine .inr ?_
          rw [visible_declare tracks, if_pos rfl]
          exact List.mem_cons_self
        · rw [Function.update_of_ne same] at flag
          exact .inl flag

end

/-! The end of a context. -/

/-- The symbols of a list that `unlinkhash` does something with. -/
def declaredIn (s : State) (l : List Nat) : List Nat := l.filter fun p => (s.sym p).declared

/-- Symbols that `unlinkhash` makes its assertion of. -/
def Checked (s : State) (l : List Nat) : Prop :=
  ∀ p ∈ l, (s.sym p).declared = true → (∃ name, (s.sym p).name = some name) ∧ (s.sym p).ns ≠ NS_CPP

/-- A loop that takes symbols off their chains: its state, or the assertion. -/
def taken (s : State) : Option (Table × Nat → List Nat) → Except Fault State
  | some chain => .ok { s with chain := chain }
  | none => .error .assertion

theorem unlinkhash_undeclared (flag : (s.sym p).declared = false) (chain : Table × Nat → List Nat) :
    unlinkhash genhash p { s with chain := chain } = .ok { s with chain := chain } := if_pos flag

theorem unlinkhash_declared (flag : (s.sym p).declared = true) (named : ∃ name, (s.sym p).name = some name)
    (other : (s.sym p).ns ≠ NS_CPP) (chain : Table × Nat → List Nat) :
    unlinkhash genhash p { s with chain := chain } = taken s (unwind (place genhash s) [p] chain) := by
  obtain ⟨name, named⟩ := named
  have at_ : place genhash s p = hash genhash name (s.sym p).ns := by
    rw [place, named, Option.getD_some]
  rcases first : chain (hash genhash name (s.sym p).ns) with _ | ⟨c, chained⟩
  · simp [unlinkhash, unwind, flag, named, at_, first, other, taken]
  · by_cases same : c = p
    · subst same
      simp [unlinkhash, unwind, flag, named, at_, first, taken]
    · simp [unlinkhash, unwind, flag, named, at_, first, same, other, taken]

/-- What a loop does with the first symbol of its list. -/
theorem unlink_cons {rest : List Nat} (checked : Checked s (p :: rest)) {loop : State → Except Fault State} {after : State → State}
    (chain : Table × Nat → List Nat)
    (later : ∀ chain, loop { s with chain := chain } =
      (taken s (unwind (place genhash s) (declaredIn s rest) chain)).map after) :
    (match unlinkhash genhash p { s with chain := chain } with
      | .ok s => loop s
      | .error fault => .error fault) =
      (taken s (unwind (place genhash s) (declaredIn s (p :: rest)) chain)).map after := by
  cases flag : (s.sym p).declared with
  | false =>
    have same : declaredIn s (p :: rest) = declaredIn s rest := List.filter_cons_of_neg (by simp [flag])
    rw [unlinkhash_undeclared flag, same]
    exact later chain
  | true =>
    have same : declaredIn s (p :: rest) = p :: declaredIn s rest := List.filter_cons_of_pos flag
    obtain ⟨named, other⟩ := checked p List.mem_cons_self flag
    rw [unlinkhash_declared flag named other, same]
    cases first : chain (place genhash s p) with
    | nil => simp [unwind, first, taken, Except.map]
    | cons c chained =>
      by_cases here : c = p
      · subst here
        simp [unwind, first, taken, later]
      · simp [unwind, first, here, taken, Except.map]

/-- The symbols of the current context. -/
def current (s : State) (l : List Nat) : List Nat := l.takeWhile fun p => (s.sym p).ctx = s.curctx

theorem popLoop_taken {l : List Nat} (checked : Checked s (current s l)) (chain : Table × Nat → List Nat) :
    popLoop genhash l { s with chain := chain } =
      (taken s (unwind (place genhash s) (declaredIn s (current s l)) chain)).map
        fun s' => { s' with head := l.dropWhile fun p => (s.sym p).ctx = s.curctx } := by
  induction l generalizing chain with
  | nil => rfl
  | cons p rest ih =>
    unfold popLoop
    by_cases here : (s.sym p).ctx = s.curctx
    · have same : current s (p :: rest) = p :: current s rest := List.takeWhile_cons_of_pos (decide_eq_true here)
      have skips : (p :: rest).dropWhile (fun p => (s.sym p).ctx = s.curctx) =
          rest.dropWhile fun p => (s.sym p).ctx = s.curctx := List.dropWhile_cons_of_pos (decide_eq_true here)
      rw [same] at checked ⊢
      rw [skips]
      refine (if_pos here).trans (unlink_cons checked chain fun chain => ih (fun q member => ?_) chain)
      exact checked q (List.mem_cons_of_mem p member)
    · have same : current s (p :: rest) = [] := List.takeWhile_cons_of_neg (by simpa using here)
      have stays : (p :: rest).dropWhile (fun p => (s.sym p).ctx = s.curctx) = p :: rest :=
        List.dropWhile_cons_of_neg (by simpa using here)
      rw [same, stays]
      exact if_neg here

theorem labelLoop_taken {l : List Nat} (checked : Checked s l) (chain : Table × Nat → List Nat) :
    labelLoop genhash l { s with chain := chain } =
      (taken s (unwind (place genhash s) (declaredIn s l) chain)).map fun s' => { s' with labels := [] } := by
  induction l generalizing chain with
  | nil => rfl
  | cons p rest ih =>
    unfold labelLoop
    exact unlink_cons checked chain fun chain => ih (fun q member => checked q (List.mem_cons_of_mem p member)) chain

section
variable {a : Scopes}

/-- The symbols of the current context are the first ones of `head`. -/
theorem Tracks.current_filter (tracks : Tracks genhash s a) :
    current s s.head = s.head.filter (fun p => (s.sym p).ctx = s.curctx) ∧
      s.head.dropWhile (fun p => (s.sym p).ctx = s.curctx) = s.head.filter fun p => !decide ((s.sym p).ctx = s.curctx) := by
  apply takeWhile_filter
  refine tracks.head_ctx.imp_of_mem fun {p q} member _ le same => ?_
  have here := of_decide_eq_true same
  exact decide_eq_true (Nat.le_antisymm (tracks.head_le p member) (here ▸ le))

/-- The declarations of the innermost block. -/
def Scopes.inner (a : Scopes) : List Nat := a.blocks.headD []

/-- The scopes without the innermost block. -/
def Scopes.outer (a : Scopes) : Scopes := { a with blocks := a.blocks.tail }

theorem Tracks.inner_append (tracks : Tracks genhash s a) : a.visible .htab = a.inner ++ a.outer.visible .htab := by
  obtain ⟨blocks, labels, macros⟩ := a
  cases blocks with
  | nil => exact absurd tracks.depth (Nat.ne_of_lt (Nat.succ_pos _))
  | cons scope outer => rfl

theorem Tracks.inner_ctx (tracks : Tracks genhash s a) (member : p ∈ a.inner) : (s.sym p).ctx = s.curctx := by
  obtain ⟨blocks, labels, macros⟩ := a
  cases blocks with
  | nil => cases member
  | cons scope outer => exact tracks.level 0 scope rfl p member

theorem Tracks.outer_ctx (tracks : Tracks genhash s a) (member : p ∈ a.outer.visible .htab) :
    (s.sym p).ctx < s.curctx := by
  obtain ⟨scope, among, within⟩ := List.mem_flatten.mp member
  obtain ⟨i, at_⟩ := List.mem_iff_getElem?.mp among
  have place : a.blocks[i + 1]? = some scope := by
    rw [← List.getElem?_tail]
    exact at_
  have := tracks.level (i + 1) scope place p within
  omega

/-- Every symbol of the scopes that end is declared: the code is not in the middle of a declaration. -/
structure Settled (s : State) (a : Scopes) : Prop where
  inner : ∀ p ∈ a.inner, (s.sym p).declared = true
  labels : s.curctx = 1 → ∀ p ∈ a.labels, (s.sym p).declared = true

/-- A chain has the symbols of a scope in the order of their creation. -/
def Ordered (genhash : Name → Nat) (s : State) (scope : List Nat) : Prop :=
  ∀ b, (inBucket (place genhash s) scope b).Pairwise (· > ·)

theorem Tracks.inner_perm (tracks : Tracks genhash s a) (deep : 0 < s.curctx) (settled : Settled s a) :
    (declaredIn s (current s s.head)).Perm a.inner := by
  have nodup : a.inner.Nodup := (List.nodup_append.mp (tracks.inner_append ▸ tracks.nodup .htab)).1
  have nodup' : (declaredIn s (current s s.head)).Nodup := by
    rw [tracks.current_filter.1]
    exact ((tracks.head_order.imp fun more => Nat.ne_of_gt more).filter _).filter _
  rw [List.perm_ext_iff_of_nodup nodup' nodup]
  intro p
  rw [tracks.current_filter.1, declaredIn, List.mem_filter, List.mem_filter, decide_eq_true_eq]
  constructor
  · rintro ⟨⟨member, here⟩, flag⟩
    have shown := tracks.declared p member flag
    rw [tracks.inner_append] at shown
    exact (List.mem_append.mp shown).resolve_right fun out => Nat.ne_of_lt (tracks.outer_ctx out) here
  · intro member
    have here := tracks.inner_ctx member
    have shown : p ∈ a.visible .htab := tracks.inner_append ▸ List.mem_append_left _ member
    refine ⟨⟨tracks.listed p shown ?_, here⟩, settled.inner p member⟩
    rw [here]
    exact Nat.ne_of_gt deep

theorem Tracks.labels_perm (tracks : Tracks genhash s a) (last : s.curctx = 1) (settled : Settled s a) :
    (declaredIn s s.labels).Perm a.labels := by
  have nodup : a.labels.Nodup := tracks.nodup .htablbl
  have nodup' : (declaredIn s s.labels).Nodup := (tracks.labels_order.imp fun more => Nat.ne_of_gt more).filter _
  rw [List.perm_ext_iff_of_nodup nodup' nodup]
  intro p
  rw [declaredIn, List.mem_filter]
  constructor
  · rintro ⟨member, flag⟩
    exact tracks.defined p member flag
  · intro member
    exact ⟨tracks.labelled p member, settled.labels last p member⟩

/-- The chains of the innermost block can be taken if and only if they follow the order of the creation. -/
theorem Tracks.unwind_inner (tracks : Tracks genhash s a) (deep : 0 < s.curctx) (settled : Settled s a) :
    (Ordered genhash s a.inner → unwind (place genhash s) (declaredIn s (current s s.head)) s.chain =
      some fun b => inBucket (place genhash s) (a.outer.visible b.1) b) ∧
    (¬ Ordered genhash s a.inner → unwind (place genhash s) (declaredIn s (current s s.head)) s.chain = none) := by
  apply unwind_sorted (tracks.inner_perm deep settled)
  · rw [tracks.current_filter.1]
    exact (tracks.head_order.filter _).filter _
  · intro b
    rw [tracks.chains b]
    by_cases here : b.1 = .htab
    · rw [here, tracks.inner_append, inBucket_append]
    · have none_ : inBucket (place genhash s) a.inner b = [] := by
        refine List.filter_eq_nil_iff.mpr fun p member same => here ?_
        have shown : p ∈ a.visible .htab := tracks.inner_append ▸ List.mem_append_left _ member
        rw [← of_decide_eq_true same]
        exact tracks.tables .htab p shown
      have same : a.visible b.1 = a.outer.visible b.1 := by
        cases t : b.1 with
        | htab => exact absurd t here
        | htabcpp | htablbl => rfl
      rw [none_, same]
      rfl

/-- The labels, which are taken after the outermost block of a function. -/
theorem Tracks.unwind_labels (tracks : Tracks genhash s a) (last : s.curctx = 1) (settled : Settled s a) :
    (Ordered genhash s a.labels → unwind (place genhash s) (declaredIn s s.labels)
        (fun b => inBucket (place genhash s) (a.outer.visible b.1) b) =
      some fun b => inBucket (place genhash s) (a.leave.visible b.1) b) ∧
    (¬ Ordered genhash s a.labels → unwind (place genhash s) (declaredIn s s.labels)
        (fun b => inBucket (place genhash s) (a.outer.visible b.1) b) = none) := by
  apply unwind_sorted (tracks.labels_perm last settled) (tracks.labels_order.filter _)
  intro b
  have two : a.blocks.length = 2 := by rw [tracks.depth, last]
  cases t : b.1 with
  | htablbl =>
    have none_ : a.leave.visible .htablbl = [] := if_pos two
    rw [none_, inBucket_nil, List.append_nil]
    rfl
  | htab | htabcpp =>
    have none_ : inBucket (place genhash s) a.labels b = [] := by
      refine List.filter_eq_nil_iff.mpr fun p member same => ?_
      have here : table (s.sym p).ns = b.1 := congrArg Prod.fst (of_decide_eq_true same)
      rw [tracks.tables .htablbl p member, t] at here
      cases here
    rw [none_]
    rfl

/-- The state after the innermost scope. -/
def left (genhash : Name → Nat) (s : State) (a : Scopes) : State := { s with
  chain := fun b => inBucket (place genhash s) (a.leave.visible b.1) b
  head := s.head.filter fun p => !decide ((s.sym p).ctx = s.curctx)
  curctx := s.curctx - 1
  labels := if s.curctx = 1 then [] else s.labels }

theorem leave_visible {t : Table} (member : p ∈ a.leave.visible t) : p ∈ a.visible t := by
  cases t with
  | htab =>
    obtain ⟨scope, among, within⟩ := List.mem_flatten.mp member
    exact List.mem_flatten.mpr ⟨scope, List.mem_of_mem_tail among, within⟩
  | htablbl =>
    have member : p ∈ (if a.blocks.length = 2 then [] else a.labels) := member
    split at member
    · cases member
    · exact member
  | htabcpp => exact member

theorem left_tracks (tracks : Tracks genhash s a) (deep : 0 < s.curctx) : Tracks genhash (left genhash s a) a.leave := by
  have inside {p : Nat} (member : p ∈ (left genhash s a).head) : p ∈ s.head ∧ (s.sym p).ctx ≠ s.curctx :=
    ⟨(List.mem_filter.mp member).1, fun same => by simp [same, left] at member⟩
  have labels {p : Nat} (member : p ∈ (left genhash s a).labels) : p ∈ s.labels ∧ s.curctx ≠ 1 := by
    have member : p ∈ (if s.curctx = 1 then [] else s.labels) := member
    split at member
    · cases member
    · rename_i more
      exact ⟨member, more⟩
  have depth := tracks.depth
  have kept (more : s.curctx ≠ 1) : a.leave.labels = a.labels := if_neg fun two => by omega
  constructor
  case chains => exact fun b => rfl
  case tables => exact fun t p member => tracks.tables t p (leave_visible member)
  case named => exact fun t p member => tracks.named t p (leave_visible member)
  case created => exact fun t p member => tracks.created t p (leave_visible member)
  case nodup =>
    intro t
    cases t with
    | htab => exact (List.nodup_append.mp (tracks.inner_append ▸ tracks.nodup .htab)).2.1
    | htablbl =>
      change (if a.blocks.length = 2 then [] else a.labels).Nodup
      split
      · exact List.nodup_nil
      · exact tracks.nodup .htablbl
    | htabcpp => exact tracks.nodup .htabcpp
  case depth =>
    change a.blocks.tail.length = s.curctx - 1 + 1
    rw [List.length_tail]
    omega
  case level =>
    intro i scope at_ p member
    have at_ : a.blocks.tail[i]? = some scope := at_
    rw [List.getElem?_tail] at at_
    have := tracks.level (i + 1) scope at_ p member
    change (s.sym p).ctx + i = s.curctx - 1
    omega
  case head_ns => exact fun p member => tracks.head_ns p (inside member).1
  case head_created => exact fun p member => tracks.head_created p (inside member).1
  case head_order => exact tracks.head_order.filter _
  case head_ctx => exact tracks.head_ctx.filter _
  case head_le =>
    intro p member
    exact Nat.le_sub_one_of_lt (Nat.lt_of_le_of_ne (tracks.head_le p (inside member).1) (inside member).2)
  case labels_ns => exact fun p member => tracks.labels_ns p (labels member).1
  case labels_created => exact fun p member => tracks.labels_created p (labels member).1
  case labels_order =>
    change (if s.curctx = 1 then [] else s.labels).Pairwise _
    split
    · exact List.Pairwise.nil
    · exact tracks.labels_order
  case listed =>
    intro p member inner
    have old := tracks.listed p (leave_visible member) inner
    have lower := tracks.outer_ctx member
    exact List.mem_filter.mpr ⟨old, by simp [Nat.ne_of_lt lower]⟩
  case labelled =>
    intro p member
    have member : p ∈ (if a.blocks.length = 2 then [] else a.labels) := member
    change p ∈ (if s.curctx = 1 then [] else s.labels)
    split at member
    · cases member
    · rename_i more
      rw [if_neg (by omega)]
      exact tracks.labelled p member
  case declared =>
    intro p member flag
    have shown := tracks.declared p (inside member).1 flag
    rw [tracks.inner_append] at shown
    exact (List.mem_append.mp shown).resolve_left fun here => (inside member).2 (tracks.inner_ctx here)
  case defined =>
    intro p member flag
    rw [kept (labels member).2]
    exact tracks.defined p (labels member).1 flag

/-- The order that `popctx` relies on. -/
structure Agrees (genhash : Name → Nat) (s : State) (a : Scopes) : Prop where
  inner : Ordered genhash s a.inner
  labels : s.curctx = 1 → Ordered genhash s a.labels

theorem Tracks.checked_inner (tracks : Tracks genhash s a) : Checked s (current s s.head) := by
  intro p member flag
  have listed : p ∈ s.head := (List.takeWhile_sublist _).subset member
  refine ⟨tracks.named .htab p (tracks.declared p listed flag), fun cpp => ?_⟩
  have := tracks.head_ns p listed
  rw [cpp] at this
  cases this

theorem Tracks.checked_labels (tracks : Tracks genhash s a) : Checked s s.labels := by
  intro p member flag
  refine ⟨tracks.named .htablbl p (tracks.defined p member flag), fun cpp => ?_⟩
  have := tracks.labels_ns p member
  rw [cpp] at this
  cases this

/-- Both loops of `popctx`. -/
theorem popctx_taken (tracks : Tracks genhash s a) :
    popctx genhash s = match unwind (place genhash s) (declaredIn s (current s s.head)) s.chain with
      | none => .error .assertion
      | some chain =>
        let s' := { s with
          chain := chain
          head := s.head.filter fun p => !decide ((s.sym p).ctx = s.curctx)
          curctx := s.curctx - 1 }
        if s.curctx - 1 = GLOBALCTX then
          (taken s' (unwind (place genhash s) (declaredIn s s.labels) chain)).map fun s' => { s' with labels := [] }
        else .ok s' := by
  have first : popLoop genhash s.head s = _ := popLoop_taken tracks.checked_inner s.chain
  rw [tracks.current_filter.2] at first
  unfold popctx
  rw [first]
  cases unwind (place genhash s) (declaredIn s (current s s.head)) s.chain with
  | none => rfl
  | some chain =>
    by_cases last : s.curctx - 1 = GLOBALCTX
    · refine (if_pos last).trans (Eq.trans ?_ (if_pos last).symm)
      exact labelLoop_taken (s := { s with
        head := s.head.filter fun p => !decide ((s.sym p).ctx = s.curctx)
        curctx := s.curctx - 1 }) tracks.checked_labels chain
    · exact (if_neg last).trans (if_neg last).symm

theorem popctx_left (tracks : Tracks genhash s a) (deep : 0 < s.curctx) (settled : Settled s a)
    (agrees : Agrees genhash s a) : popctx genhash s = .ok (left genhash s a) := by
  rw [popctx_taken tracks, (tracks.unwind_inner deep settled).1 agrees.inner]
  by_cases last : s.curctx = 1
  · have zero : s.curctx - 1 = GLOBALCTX := by rw [last]; rfl
    refine (if_pos zero).trans ?_
    rw [(tracks.unwind_labels last settled).1 (agrees.labels last)]
    simp [left, taken, Except.map, last]
  · have more : s.curctx - 1 ≠ GLOBALCTX := fun zero => last (by unfold GLOBALCTX at zero; omega)
    refine (if_neg more).trans ?_
    have kept : a.leave.visible = a.outer.visible := by
      funext t
      have labels : a.leave.labels = a.labels := if_neg fun two => last (by have := tracks.depth; omega)
      cases t with
      | htablbl => exact labels
      | htab | htabcpp => rfl
    rw [left, kept, if_neg last]

theorem popctx_assertion (tracks : Tracks genhash s a) (deep : 0 < s.curctx) (settled : Settled s a)
    (differs : ¬ Agrees genhash s a) : popctx genhash s = .error .assertion := by
  rw [popctx_taken tracks]
  by_cases inner : Ordered genhash s a.inner
  · have labels : s.curctx = 1 ∧ ¬ Ordered genhash s a.labels := by
      by_contra other
      exact differs ⟨inner, fun last => by_contra fun unordered => other ⟨last, unordered⟩⟩
    have zero : s.curctx - 1 = GLOBALCTX := by rw [labels.1]; rfl
    rw [(tracks.unwind_inner deep settled).1 inner]
    refine (if_pos zero).trans ?_
    rw [(tracks.unwind_labels labels.1 settled).2 labels.2]
    rfl
  · rw [(tracks.unwind_inner deep settled).2 inner]

end

end Scc.Cc1.Symtab
