import Scc.Cc1.Types
import Scc.Transition.Interning

set_option linter.all false

/-! `mktype` hands out one pointer for equal types exactly when the addresses of what they
derive from agree in the hash. Types compare equal when they have one normal form, which
forgets the addresses; the chain of the table also depends on one of them. -/
namespace Scc.Cc1.Types
open Transition

/-! The normal form of a type. -/

/-- Types that are equal to themselves only. -/
def Shape.single : Shape → Bool
  | .basic .INT _ | .basic .FLOAT _ => false
  | .basic .. => true
  | _ => false

mutual

def Ty.canon : Ty → Ty
  | .mk addr shape => .mk (if shape.single then addr + 1 else 0) shape.canon

def Shape.canon : Shape → Shape
  | .basic op letter => .basic op letter
  | .aggregate op letter tag fields =>
    .aggregate op letter tag (if tag.isSome then .nil else fields.canon)
  | .ptr type => .ptr type.canon
  | .ary type nelem => .ary type.canon nelem
  | .ftn type kr pars => .ftn type.canon kr (if kr then .nil else pars.canon)

def Pars.canon : Pars → Pars
  | .nil => .nil
  | .cons par rest => .cons par.canon rest.canon

def Fields.canon : Fields → Fields
  | .nil => .nil
  | .cons name type rest => .cons name type.canon rest.canon

end

section
variable {heap : Nat → Option Shape} {n n' : List (Nat × Shape)}

theorem Stored.left (h : Stored heap (n ++ n')) : Stored heap n :=
  fun x mem => h x (List.mem_append_left _ mem)

theorem Stored.right (h : Stored heap (n ++ n')) : Stored heap n' :=
  fun x mem => h x (List.mem_append_right _ mem)

theorem Stored.shape {t : Ty} (h : Stored heap t.nodes) : heap t.addr = some t.shape := by
  cases t with
  | mk addr shape =>
    simp only [Ty.nodes] at h
    exact h (addr, shape) List.mem_cons_self

theorem Stored.inner {addr : Nat} {shape : Shape} (h : Stored heap (Ty.mk addr shape).nodes) :
    Stored heap shape.nodes := by
  intro x mem
  apply h
  simp only [Ty.nodes]
  exact List.mem_cons_of_mem _ mem

theorem Stored.of_shape {t : Ty} (h : Stored heap t.nodes) : Stored heap t.shape.nodes := by
  cases t
  exact h.inner

/-- The address of an allocated type tells it. -/
theorem Stored.ext {t t' : Ty} (h : Stored heap t.nodes) (h' : Stored heap t'.nodes)
    (same : t.addr = t'.addr) : t = t' := by
  have shapes := h.shape.symm.trans (same ▸ h'.shape)
  cases t
  cases t'
  simp only [Ty.addr, Ty.shape, Option.some.injEq] at same shapes
  rw [same, shapes]

theorem eqshape_single {s : Shape} (single : s.single = true) (s' : Shape) :
    eqshape s s' = false := by
  cases s with
  | basic op letter =>
    cases s' with
    | basic op' letter' => cases op <;> simp_all [eqshape, Shape.single]
    | _ => rfl
  | _ => cases single

theorem single_canon {s s' : Shape} (same : s.canon = s'.canon) : s.single = s'.single := by
  cases s <;> cases s' <;> simp_all [Shape.canon, Shape.single]

mutual

theorem eqtype_iff (t t' : Ty) (h : Stored heap t.nodes) (h' : Stored heap t'.nodes) :
    eqtype t t' = true ↔ t.canon = t'.canon := by
  cases t with
  | mk addr s =>
    cases t' with
    | mk addr' s' =>
      by_cases same : addr = addr'
      · obtain ⟨rfl, rfl⟩ := Ty.mk.inj (h.ext h' same)
        simp [eqtype]
      · by_cases single : s.single = true
        · simp only [eqtype, eqshape_single single, Ty.canon, single, if_true]
          simp only [beq_eq_false_iff_ne.mpr same, Bool.or_self, Bool.false_eq_true, false_iff]
          intro canon
          obtain ⟨addrs, shapes⟩ := Ty.mk.inj canon
          rw [if_pos ((single_canon shapes).symm.trans single)] at addrs
          omega
        · have shape := eqshape_iff s s' h.inner h'.inner (by simpa using single)
          simp only [eqtype, beq_eq_false_iff_ne.mpr same, Bool.false_or, shape, Ty.canon,
            if_neg single, Ty.mk.injEq]
          constructor
          · intro canon
            rw [← single_canon canon, if_neg single]
            exact ⟨rfl, canon⟩
          · exact And.right

theorem eqshape_iff (s s' : Shape) (h : Stored heap s.nodes) (h' : Stored heap s'.nodes)
    (plain : s.single = false) : eqshape s s' = true ↔ s.canon = s'.canon := by
  cases s with
  | basic op letter =>
    cases s' with
    | basic op' letter' => cases op <;> simp_all [eqshape, Shape.single, Shape.canon]
    | _ => simp [eqshape, Shape.canon]
  | aggregate op letter tag fields =>
    cases s' with
    | aggregate op' letter' tag' fields' =>
      simp only [Shape.nodes] at h h'
      have inner := eqfields_iff fields fields' h h'
      cases tag <;> cases tag' <;> simp [eqshape, Shape.canon, inner, and_assoc]
    | _ => simp [eqshape, Shape.canon]
  | ptr type =>
    cases s' with
    | ptr type' =>
      simp only [Shape.nodes] at h h'
      simp [eqshape, Shape.canon, eqtype_iff type type' h h']
    | _ => simp [eqshape, Shape.canon]
  | ary type nelem =>
    cases s' with
    | ary type' nelem' =>
      simp only [Shape.nodes] at h h'
      simp [eqshape, Shape.canon, eqtype_iff type type' h h', and_comm]
    | _ => simp [eqshape, Shape.canon]
  | ftn type kr pars =>
    cases s' with
    | ftn type' kr' pars' =>
      simp only [Shape.nodes] at h h'
      have base := eqtype_iff type type' h.left h'.left
      have inner := eqpars_iff pars pars' h.right h'.right
      cases kr <;> cases kr' <;> simp [eqshape, Shape.canon, base, inner, and_comm]
    | _ => simp [eqshape, Shape.canon]

theorem eqpars_iff (p p' : Pars) (h : Stored heap p.nodes) (h' : Stored heap p'.nodes) :
    eqpars p p' = true ↔ p.canon = p'.canon := by
  cases p with
  | nil => cases p' <;> simp [eqpars, Pars.canon]
  | cons par rest =>
    cases p' with
    | nil => simp [eqpars, Pars.canon]
    | cons par' rest' =>
      simp only [Pars.nodes] at h h'
      simp [eqpars, Pars.canon, eqtype_iff par par' h.left h'.left,
        eqpars_iff rest rest' h.right h'.right]

theorem eqfields_iff (f f' : Fields) (h : Stored heap f.nodes) (h' : Stored heap f'.nodes) :
    eqfields f f' = true ↔ f.canon = f'.canon := by
  cases f with
  | nil => cases f' <;> simp [eqfields, Fields.canon]
  | cons name type rest =>
    cases f' with
    | nil => simp [eqfields, Fields.canon]
    | cons name' type' rest' =>
      simp only [Fields.nodes] at h h'
      simp [eqfields, Fields.canon, eqtype_iff type type' h.left h'.left,
        eqfields_iff rest rest' h.right h'.right, and_assoc]

end

end

/-! The table along a run. -/

theorem plain_of_chain {s : Shape} (derived : s.chain ≠ none) : s.single = false := by
  cases s <;> simp_all [Shape.chain, Shape.single]

theorem wanted_chain (op : TypeOp) (tp : Ty) (nelem : Int) (pars : Pars) :
    (wanted op tp nelem pars).chain = some (HASH op.op tp) := by
  cases op <;> rfl

theorem Stored.wanted {heap : Nat → Option Shape} {tp : Ty} {pars : Pars}
    (h : Stored heap tp.nodes) (h' : Stored heap pars.nodes) (op : TypeOp) (nelem : Int) :
    Stored heap (wanted op tp nelem pars).nodes := by
  have both : Stored heap (tp.nodes ++ pars.nodes) :=
    fun x mem => (List.mem_append.mp mem).elim (h x) (h' x)
  cases op with
  | PTR | ARY => exact h
  | FTN | KRFTN => exact both

theorem Stored.alloc {heap : Nat → Option Shape} {n : List (Nat × Shape)} {addr : Nat}
    (h : Stored heap n) (fresh : heap addr = none) (type : Shape) :
    Stored (Function.update heap addr (some type)) n := by
  intro x mem
  have used := h x mem
  rw [Function.update_of_ne]
  · exact used
  · rintro rfl
    rw [fresh] at used
    cases used

theorem Stored.new {heap : Nat → Option Shape} {addr : Nat} {type : Shape}
    (h : Stored heap type.nodes) (fresh : heap addr = none) :
    Stored (Function.update heap addr (some type)) (Ty.mk addr type).nodes := by
  intro x mem
  simp only [Ty.nodes] at mem
  rcases List.mem_cons.mp mem with rfl | mem
  · exact Function.update_self ..
  · exact h.alloc fresh type x mem

/-- What stays allocated when the types of the function are flushed. -/
def kept (s : State) (addr : Nat) : Option Shape :=
  if addr ∈ s.localtypes.map Ty.addr then none else s.heap addr

theorem Stored.of_kept {s : State} {n : List (Nat × Shape)} (h : Stored (kept s) n) :
    Stored s.heap n := by
  intro x mem
  have there := h x mem
  unfold kept at there
  split at there
  · cases there
  · exact there

def look (type : Shape) : Option Nat × Shape := (type.chain, type.canon)

/-- The types that calls have returned: those of the table, and the pointer to void. -/
def pool (arch : Arch) (types : List Ty) : List Ty :=
  types.filter (·.shape.chain.isSome) ++ [arch.pvoidtype]

/-- The table holds the local types, the last one first, before the global ones. -/
structure Consed (arch : Arch) (globals : List Ty) (s : State) : Prop where
  chains : ∀ h, s.typetab h = (s.localtypes ++ globals).filter (·.shape.chain == some h)
  outside : s.curfun = false → s.localtypes = []
  locals : ∀ t ∈ s.localtypes, Stored s.heap t.nodes
  lasting : ∀ t ∈ globals, Stored (kept s) t.nodes
  pvoid : Stored (kept s) arch.pvoidtype.nodes
  requests : ∀ e ∈ s.log, e.1.chain ≠ none ∧ Stored s.heap e.1.nodes
  interned : Interned look (look ∘ Ty.shape) (pool arch (s.localtypes ++ globals)) s.log

section
variable {arch : Arch} {globals : List Ty} {s t : State}

theorem Consed.pool_stored (h : Consed arch globals s) {tp : Ty}
    (mem : tp ∈ pool arch (s.localtypes ++ globals)) : Stored s.heap tp.nodes := by
  rcases List.mem_append.mp mem with mem | mem
  · rcases List.mem_append.mp (List.mem_of_mem_filter mem) with mem | mem
    · exact h.locals tp mem
    · exact (h.lasting tp mem).of_kept
  · rw [List.mem_singleton.mp mem]
    exact h.pvoid.of_kept

/-- Two calls got one pointer when they got one type. -/
theorem Consed.same_addr (h : Consed arch globals s) {e e' : Shape × Ty} (mem : e ∈ s.log)
    (mem' : e' ∈ s.log) : e.2.addr = e'.2.addr ↔ e.2 = e'.2 := by
  constructor
  · exact (h.pool_stored (h.interned.answered e mem).1).ext
      (h.pool_stored (h.interned.answered e' mem').1)
  · intro same
    rw [same]

theorem Consed.equal_iff (h : Consed arch globals s) {e e' : Shape × Ty} (mem : e ∈ s.log)
    (mem' : e' ∈ s.log) : eqshape e.1 e'.1 = true ↔ e.1.canon = e'.1.canon := by
  obtain ⟨derived, stored⟩ := h.requests e mem
  exact eqshape_iff e.1 e'.1 stored (h.requests e' mem').2 (plain_of_chain derived)

theorem Stored.kept_alloc {n : List (Nat × Shape)} {addr : Nat} (h : Stored (kept s) n)
    (fresh : s.heap addr = none) (type : Shape) : Stored (kept (newtype addr type s)) n := by
  intro x mem
  have there := h x mem
  unfold kept at there
  split at there
  · cases there
  · next outer =>
    have apart : x.1 ≠ addr := by
      rintro rfl
      rw [fresh] at there
      cases there
    have outer' : x.1 ∉ (newtype addr type s).localtypes.map Ty.addr := by
      simp only [newtype]
      split
      · rw [List.map_cons, List.mem_cons, not_or]
        exact ⟨apart, outer⟩
      · exact outer
    unfold kept
    rw [if_neg outer']
    exact (Function.update_of_ne apart ..).trans there

theorem initial_consed {heap : Nat → Option Shape} (wf : arch.WellFormed heap) :
    Consed arch [] (initial heap) where
  chains := fun _ => rfl
  outside := fun _ => rfl
  locals := fun _ mem => (List.not_mem_nil mem).elim
  lasting := fun _ mem => (List.not_mem_nil mem).elim
  pvoid := wf.stored
  requests := fun _ mem => (List.not_mem_nil mem).elim
  interned := ⟨List.nodup_singleton _, fun _ mem => (List.not_mem_nil mem).elim⟩

/-- A call that returns a type that exists. -/
theorem Consed.hit (h : Consed arch globals s) {type : Shape} {bp : Ty}
    (derived : type.chain ≠ none) (stored : Stored s.heap type.nodes)
    (inside : bp ∈ pool arch (s.localtypes ++ globals)) (looks : look bp.shape = look type) :
    Consed arch globals { s with log := (type, bp) :: s.log } where
  chains := h.chains
  outside := h.outside
  locals := h.locals
  lasting := h.lasting
  pvoid := h.pvoid
  requests := by
    intro e mem
    rcases List.mem_cons.mp mem with rfl | mem
    · exact ⟨derived, stored⟩
    · exact h.requests e mem
  interned := h.interned.found inside looks

theorem Consed.outside_alloc (h : Consed arch globals s) {addr : Nat} {type : Shape}
    (out : (newtype addr type s).curfun = false) : (newtype addr type s).localtypes = [] := by
  simp only [newtype] at out ⊢
  simp only [out, Bool.false_eq_true, if_false]
  exact h.outside out

theorem Consed.locals_alloc (h : Consed arch globals s) {addr : Nat} {type : Shape}
    (fresh : s.heap addr = none) (stored : Stored s.heap type.nodes) :
    ∀ tp ∈ (newtype addr type s).localtypes, Stored (newtype addr type s).heap tp.nodes := by
  intro tp mem
  simp only [newtype] at mem ⊢
  split at mem
  · rcases List.mem_cons.mp mem with rfl | mem
    · exact stored.new fresh
    · exact (h.locals tp mem).alloc fresh type
  · exact (h.locals tp mem).alloc fresh type

theorem Consed.tag (h : Consed arch globals s) {addr : Nat} {type : Shape}
    (fresh : s.heap addr = none) (basic : type.chain = none) (stored : Stored s.heap type.nodes) :
    Consed arch globals (newtype addr type s) := by
  have skip : ∀ p : Ty → Bool, p (.mk addr type) = false →
      ((newtype addr type s).localtypes ++ globals).filter p =
        (s.localtypes ++ globals).filter p := by
    intro p out
    simp only [newtype]
    split
    · exact List.filter_cons_of_neg (by simp [out])
    · rfl
  constructor
  · intro b
    rw [skip _ (by simp [Ty.shape, basic])]
    exact h.chains b
  · exact h.outside_alloc
  · exact h.locals_alloc fresh stored
  · exact fun tp mem => (h.lasting tp mem).kept_alloc fresh type
  · exact h.pvoid.kept_alloc fresh type
  · exact fun e mem => ⟨(h.requests e mem).1, (h.requests e mem).2.alloc fresh type⟩
  · rw [pool, skip _ (by simp [Ty.shape, basic])]
    exact h.interned

/-- The state after `mktype` has made a type and put it at the head of its chain. -/
def enter (addr : Nat) (type : Shape) (h : Nat) (s : State) : State :=
  { newtype addr type s with
    typetab := Function.update s.typetab h (.mk addr type :: s.typetab h)
    log := (type, .mk addr type) :: s.log }

theorem Consed.miss (h : Consed arch globals s) {addr b : Nat} {type : Shape}
    (fresh : s.heap addr = none) (chain : type.chain = some b) (stored : Stored s.heap type.nodes)
    (missing : ∀ bp ∈ pool arch (s.localtypes ++ globals), look bp.shape ≠ look type) :
    ∃ globals', Consed arch globals' (enter addr type b s) := by
  have derived : type.chain ≠ none := by simp [chain]
  have whole : ∃ globals', (enter addr type b s).localtypes ++ globals' =
      .mk addr type :: (s.localtypes ++ globals) ∧
      ∀ tp ∈ globals', tp ∈ globals ∨ tp = .mk addr type ∧ s.curfun = false := by
    cases inside : s.curfun with
    | true =>
      refine ⟨globals, ?_, fun tp mem => .inl mem⟩
      simp [enter, newtype, inside]
    | false =>
      refine ⟨.mk addr type :: globals, ?_, ?_⟩
      · simp [enter, newtype, inside, h.outside inside]
      · intro tp mem
        rcases List.mem_cons.mp mem with rfl | mem
        · exact .inr ⟨rfl, rfl⟩
        · exact .inl mem
  obtain ⟨globals', types, origin⟩ := whole
  refine ⟨globals', ?_, ?_, ?_, ?_, h.pvoid.kept_alloc fresh type, ?_, ?_⟩
  · intro b'
    rw [types]
    simp only [enter]
    by_cases same : b' = b
    · subst same
      rw [Function.update_self, h.chains, List.filter_cons_of_pos (by simp [Ty.shape, chain])]
    · rw [Function.update_of_ne same, h.chains, List.filter_cons_of_neg]
      simpa [Ty.shape, chain] using Ne.symm same
  · exact h.outside_alloc
  · exact h.locals_alloc fresh stored
  · intro tp mem
    rcases origin tp mem with mem | ⟨rfl, out⟩
    · exact (h.lasting tp mem).kept_alloc fresh type
    · intro x mem
      have there := stored.new fresh x mem
      simpa [kept, enter, newtype, out, h.outside out] using there
  · intro e mem
    rcases List.mem_cons.mp mem with rfl | mem
    · exact ⟨derived, stored.alloc fresh type⟩
    · exact ⟨(h.requests e mem).1, (h.requests e mem).2.alloc fresh type⟩
  · have made := h.interned.made missing (a := Ty.mk addr type) rfl
    rw [pool, types, List.filter_cons_of_pos (by simp [Ty.shape, chain])]
    exact made

/-- A type of the table that compares equal to the wanted one is found in its chain. -/
theorem Consed.find_none (h : Consed arch globals s) {b : Nat} {type : Shape}
    (chain : type.chain = some b) (stored : Stored s.heap type.nodes)
    (missing : (s.typetab b).find? (fun bp => eqshape bp.shape type) = none) :
    ∀ bp ∈ s.localtypes ++ globals, look bp.shape ≠ look type := by
  intro bp mem same
  obtain ⟨chains, canon⟩ := Prod.mk.inj same
  have inside : bp ∈ s.typetab b := by
    rw [h.chains, List.mem_filter]
    exact ⟨mem, by simpa [chain] using chains⟩
  have derived : bp.shape.chain ≠ none := by simp [chains, chain]
  have known : Stored s.heap bp.nodes := by
    rcases List.mem_append.mp mem with mem | mem
    · exact h.locals bp mem
    · exact (h.lasting bp mem).of_kept
  have different := List.find?_eq_none.mp missing bp inside
  exact different ((eqshape_iff _ _ known.of_shape stored (plain_of_chain derived)).mpr canon)

/-- Only the pointers to void look like `pvoidtype`. -/
theorem pvoid_look (wf : arch.WellFormed heap) {op : TypeOp} {tp : Ty} {nelem : Int}
    {pars : Pars} (same : look arch.pvoidtype.shape = look (wanted op tp nelem pars)) :
    op = .PTR ∧ tp.addr = arch.voidtype.addr := by
  have canon := (Prod.mk.inj same).2
  obtain ⟨letter, void⟩ := wf.void
  rw [wf.pvoid] at canon
  cases op with
  | PTR =>
    have base : arch.voidtype.canon = tp.canon := Shape.ptr.inj canon
    refine ⟨rfl, ?_⟩
    cases voidtype : arch.voidtype with
    | mk addr shape =>
      cases tp with
      | mk addr' shape' =>
        rw [voidtype] at void base
        obtain ⟨addrs, shapes⟩ := Ty.mk.inj base
        have single : shape.single = true := by
          rw [show shape = .basic .VOID letter from void]
          rfl
        rw [if_pos single, if_pos ((single_canon shapes).symm.trans single)] at addrs
        exact (Nat.succ.inj addrs).symm
  | ARY | FTN | KRFTN => cases canon

/-- What a call of `mktype` does. -/
theorem step_mktype {addr : Nat} {op : TypeOp} {tp : Ty} {nelem : Int} {pars : Pars}
    (result : step arch (.mktype addr op tp nelem pars) s = some t) :
    (op = .PTR ∧ tp.addr = arch.voidtype.addr) ∧
        t = { s with log := (wanted op tp nelem pars, arch.pvoidtype) :: s.log } ∨
      (∃ bp, (s.typetab (HASH op.op tp)).find?
          (fun bp => eqshape bp.shape (wanted op tp nelem pars)) = some bp ∧
        t = { s with log := (wanted op tp nelem pars, bp) :: s.log }) ∨
      ¬(op = .PTR ∧ tp.addr = arch.voidtype.addr) ∧
        (s.typetab (HASH op.op tp)).find?
          (fun bp => eqshape bp.shape (wanted op tp nelem pars)) = none ∧
        t = enter addr (wanted op tp nelem pars) (HASH op.op tp) s := by
  simp only [step, mktype, Option.some.injEq] at result
  by_cases void : op = .PTR ∧ tp.addr = arch.voidtype.addr
  · rw [if_pos void] at result
    exact .inl ⟨void, result.symm⟩
  · rw [if_neg void] at result
    cases search : (s.typetab (HASH op.op tp)).find?
        (fun bp => eqshape bp.shape (wanted op tp nelem pars)) with
    | some bp =>
      rw [search] at result
      exact .inr (.inl ⟨bp, rfl, result.symm⟩)
    | none =>
      rw [search] at result
      exact .inr (.inr ⟨void, rfl, result.symm⟩)

/-- `mktype` keeps the table, and the call can be compared with those before it. -/
theorem Consed.mktype (h : Consed arch globals s) (wf : arch.WellFormed heap) {addr : Nat}
    {op : TypeOp} {tp : Ty} {nelem : Int} {pars : Pars}
    (valid : (Step.mktype addr op tp nelem pars).Valid s)
    (result : step arch (.mktype addr op tp nelem pars) s = some t) :
    ∃ globals', Consed arch globals' t := by
  obtain ⟨fresh, base, params⟩ := valid
  have stored := base.wanted params op nelem
  have chain := wanted_chain op tp nelem pars
  have derived : (wanted op tp nelem pars).chain ≠ none := by simp [chain]
  rcases step_mktype result with ⟨⟨rfl, void⟩, rfl⟩ | ⟨bp, search, rfl⟩ | ⟨other, search, rfl⟩
  · refine ⟨globals, h.hit derived stored (List.mem_append_right _ List.mem_cons_self) ?_⟩
    have known := h.pvoid.of_kept.of_shape
    rw [wf.pvoid] at known ⊢
    rw [base.ext known void]
    rfl
  · have inside := List.mem_of_find?_eq_some search
    rw [h.chains, List.mem_filter, beq_iff_eq] at inside
    have equal := List.find?_some search
    have pooled : bp ∈ pool arch (s.localtypes ++ globals) :=
      List.mem_append_left _ (List.mem_filter.mpr ⟨inside.1, by simp [inside.2]⟩)
    refine ⟨globals, h.hit derived stored pooled ?_⟩
    have plain := plain_of_chain (s := bp.shape) (by simp [inside.2])
    rw [look, look, inside.2, chain,
      (eqshape_iff _ _ (h.pool_stored pooled).of_shape stored plain).mp equal]
  · refine h.miss fresh chain stored ?_
    have missing := h.find_none chain stored search
    intro bp mem same
    rcases List.mem_append.mp mem with mem | mem
    · exact missing bp (List.mem_of_mem_filter mem) same
    · rw [List.mem_singleton.mp mem] at same
      exact other (pvoid_look wf same)

/-- `flushtypes` finds every local type at the head of its chain, and leaves the table as
it was before the first of them. -/
theorem flush_eq (outer : Nat → List Ty) : ∀ (locals : List Ty) (s : State),
    (∀ h, s.typetab h = locals.filter (·.shape.chain == some h) ++ outer h) →
    flush locals s = some { s with
      heap := fun a => if a ∈ locals.map Ty.addr then none else s.heap a
      typetab := outer
      localtypes := []
      log := s.log.filter fun e =>
        !(e.1.nodes ++ e.2.nodes).any (fun n => decide (n.1 ∈ locals.map Ty.addr)) }
  | [], s, chains => by
    have all : s.log.filter (fun e =>
        !(e.1.nodes ++ e.2.nodes).any fun n => decide (n.1 ∈ [].map Ty.addr)) = s.log := by
      apply List.filter_eq_self.mpr
      simp
    rw [flush, all]
    simp [funext chains]
  | tp :: next, s, chains => by
    have later (s' : State) (chains' : ∀ h, s'.typetab h =
        next.filter (·.shape.chain == some h) ++ outer h) (heap : s'.heap = s.heap)
        (log : s'.log = s.log) (curfun : s'.curfun = s.curfun) :
        flush next (s'.free tp.addr) = some { s with
          heap := fun a => if a ∈ (tp :: next).map Ty.addr then none else s.heap a
          typetab := outer
          localtypes := []
          log := s.log.filter fun e =>
            !(e.1.nodes ++ e.2.nodes).any (fun n => decide (n.1 ∈ (tp :: next).map Ty.addr)) } := by
      rw [flush_eq outer next (s'.free tp.addr) chains']
      simp only [State.free, heap, log, curfun, Option.some.injEq, State.mk.injEq, true_and]
      constructor
      · funext a
        by_cases same : a = tp.addr <;> simp [same, Function.update_of_ne]
      · rw [List.filter_filter]
        apply List.filter_congr
        intro e _
        rw [Bool.eq_iff_iff]
        simp only [Bool.and_eq_true, Bool.not_eq_true', List.any_eq_false, beq_iff_eq,
          decide_eq_true_eq, List.map_cons, List.mem_cons, not_or]
        constructor
        · intro apart n mem
          exact ⟨apart.2 n mem, apart.1 n mem⟩
        · intro apart
          exact ⟨fun n mem => (apart n mem).2, fun n mem => (apart n mem).1⟩
    unfold flush
    cases chain : tp.shape.chain with
    | none =>
      refine later s (fun h => ?_) rfl rfl rfl
      rw [chains, List.filter_cons_of_neg (by simp [chain])]
    | some h =>
      have head : s.typetab h = tp :: (next.filter (·.shape.chain == some h) ++ outer h) := by
        rw [chains, List.filter_cons_of_pos (by simp [chain]), List.cons_append]
      simp only [head, if_true]
      refine later { s with typetab := Function.update s.typetab h _ } (fun h' => ?_) rfl rfl rfl
      by_cases same : h' = h
      · subst same
        exact Function.update_self ..
      · refine (Function.update_of_ne same ..).trans ?_
        rw [chains, List.filter_cons_of_neg]
        simpa [chain] using Ne.symm same

theorem Consed.parts (h : Consed arch globals s) (b : Nat) : s.typetab b =
    s.localtypes.filter (·.shape.chain == some b) ++ globals.filter (·.shape.chain == some b) := by
  rw [h.chains, List.filter_append]

theorem Consed.endbody (h : Consed arch globals s) :
    ∃ t, step arch .endbody s = some t ∧ Consed arch globals t := by
  refine ⟨_, by rw [step, flushtypes, flush_eq _ s.localtypes s h.parts]; rfl, ?_⟩
  have outer {n : List (Nat × Shape)} (stored : Stored s.heap n)
      (apart : ∀ x ∈ n, x.1 ∉ s.localtypes.map Ty.addr) : Stored (kept s) n := by
    intro x mem
    unfold kept
    rw [if_neg (apart x mem)]
    exact stored x mem
  have old {n : List (Nat × Shape)} (stored : Stored (kept s) n) (t : State)
      (empty : t.localtypes = []) (heap : t.heap = kept s) : Stored (kept t) n := by
    intro x mem
    simpa [kept, empty, heap] using stored x mem
  have untouched {e : Shape × Ty} (mem : e ∈ s.log.filter fun e => !(e.1.nodes ++ e.2.nodes).any
      (fun n => decide (n.1 ∈ s.localtypes.map Ty.addr))) :
      e ∈ s.log ∧ ∀ x ∈ e.1.nodes ++ e.2.nodes, x.1 ∉ s.localtypes.map Ty.addr := by
    obtain ⟨mem, apart⟩ := List.mem_filter.mp mem
    refine ⟨mem, fun x inside => ?_⟩
    rw [Bool.not_eq_true', List.any_eq_false] at apart
    simpa using apart x inside
  constructor
  · exact fun b => rfl
  · exact fun _ => rfl
  · exact fun _ mem => (List.not_mem_nil mem).elim
  · exact fun tp mem => old (h.lasting tp mem) _ rfl rfl
  · exact old h.pvoid _ rfl rfl
  · intro e mem
    obtain ⟨mem, apart⟩ := untouched mem
    obtain ⟨derived, stored⟩ := h.requests e mem
    exact ⟨derived, outer stored fun x inside => apart x (List.mem_append_left _ inside)⟩
  · refine h.interned.forget ?_ (fun e mem => (untouched mem).1) ?_
    · exact ((List.sublist_append_right _ _).filter _).append_right _
    · intro e mem
      obtain ⟨mem, apart⟩ := untouched mem
      have there := (h.interned.answered e mem).1
      have own : e.2.addr ∉ s.localtypes.map Ty.addr := by
        cases bp : e.2 with
        | mk addr shape =>
          rw [bp] at apart
          exact apart (addr, shape) (List.mem_append_right _ (by simp [Ty.nodes]))
      rcases List.mem_append.mp there with there | there
      · obtain ⟨there, derived⟩ := List.mem_filter.mp there
        rcases List.mem_append.mp there with there | there
        · exact absurd (List.mem_map_of_mem there) own
        · exact List.mem_append_left _ (List.mem_filter.mpr ⟨there, derived⟩)
      · exact List.mem_append_right _ there

theorem Consed.step (h : Consed arch globals s) (wf : arch.WellFormed heap) {c : Step}
    (valid : c.Valid s) :
    ∃ t globals', step arch c s = some t ∧ Consed arch globals' t := by
  cases c with
  | mktype addr op tp nelem pars =>
    obtain ⟨globals', h'⟩ := h.mktype wf valid rfl
    exact ⟨_, globals', rfl, h'⟩
  | newtag addr type =>
    obtain ⟨fresh, basic, stored⟩ := valid
    exact ⟨_, globals, rfl, h.tag fresh basic stored⟩
  | funbody =>
    have empty := h.outside valid
    exact ⟨_, globals, rfl, h.chains, fun _ => empty, h.locals, h.lasting, h.pvoid, h.requests,
      h.interned⟩
  | endbody =>
    obtain ⟨t, result, h'⟩ := h.endbody
    exact ⟨t, globals, result, h'⟩

theorem Run.consed (run : Run arch s t) (wf : arch.WellFormed heap) {globals : List Ty}
    (h : Consed arch globals s) : ∃ globals', Consed arch globals' t := by
  induction run generalizing globals with
  | refl => exact ⟨globals, h⟩
  | next valid result _ ih =>
    obtain ⟨u, globals', result', h'⟩ := h.step wf valid
    cases result.symm.trans result'
    exact ih h'

/-- The assertion of `flushtypes` never fails. -/
theorem flushtypes_heads {heap : Nat → Option Shape} (wf : arch.WellFormed heap)
    (run : Run arch (initial heap) s) : (flushtypes s).isSome := by
  obtain ⟨globals, h⟩ := run.consed wf (initial_consed wf)
  rw [flushtypes, flush_eq _ s.localtypes s h.parts]
  rfl

end

/-- At any time the calls of `mktype` that can be compared got one pointer for equal types
and for no others, exactly when equal types among them are in one chain. -/
theorem pointers_exact {arch : Arch} {heap : Nat → Option Shape} {s : State}
    (wf : arch.WellFormed heap) (run : Run arch (initial heap) s) :
    (∀ e ∈ s.log, ∀ e' ∈ s.log, (e.2.addr = e'.2.addr ↔ eqshape e.1 e'.1 = true)) ↔
      ∀ e ∈ s.log, ∀ e' ∈ s.log, eqshape e.1 e'.1 = true → e.1.chain = e'.1.chain := by
  obtain ⟨globals, h⟩ := run.consed wf (initial_consed wf)
  have interned : Interned (fun r : Shape => (r.chain, r.canon)) (look ∘ Ty.shape)
      (pool arch (s.localtypes ++ globals)) s.log := h.interned
  have exact_iff := interned.exact_iff
  constructor
  · intro same e mem e' mem' equal
    refine exact_iff.mp ?_ e mem e' mem' ((h.equal_iff mem mem').mp equal)
    intro e mem e' mem'
    rw [← h.same_addr mem mem', same e mem e' mem', h.equal_iff mem mem']
  · intro agree e mem e' mem'
    rw [h.same_addr mem mem', h.equal_iff mem mem']
    refine exact_iff.mpr ?_ e mem e' mem'
    intro e mem e' mem' equal
    exact agree e mem e' mem' ((h.equal_iff mem mem').mpr equal)

/-! Pointers to the two types of 64 bits, whose addresses differ in the hash. -/

def longtype : Ty := .mk 0x1000 (.basic .INT 'Q')

def llongtype : Ty := .mk 0x10a0 (.basic .INT 'Q')

def voids : Arch where
  voidtype := .mk 0x800 (.basic .VOID '0')
  pvoidtype := .mk 0x850 (.ptr (.mk 0x800 (.basic .VOID '0')))

def basics (addr : Nat) : Option Shape :=
  if addr = 0x800 then some (.basic .VOID '0')
  else if addr = 0x850 then some (.ptr voids.voidtype)
  else if addr = 0x1000 then some longtype.shape
  else if addr = 0x10a0 then some llongtype.shape
  else none

def pointers : State :=
  enter 0x3000 (.ptr llongtype) (HASH .PTR llongtype)
    (enter 0x2000 (.ptr longtype) (HASH .PTR longtype) (initial basics))

theorem basics_wellFormed : voids.WellFormed basics where
  void := ⟨'0', rfl⟩
  pvoid := rfl
  stored := by
    intro n mem
    simp only [voids, Ty.nodes, Shape.nodes, List.mem_cons, List.not_mem_nil, or_false] at mem
    rcases mem with rfl | rfl <;> rfl

theorem pointers_run : Run voids (initial basics) pointers := by
  have stored {heap : Nat → Option Shape} {addr : Nat} {letter : Char}
      (there : heap addr = some (.basic .INT letter)) :
      Stored heap (Ty.mk addr (.basic .INT letter)).nodes := by
    intro n mem
    simp only [Ty.nodes, Shape.nodes, List.mem_singleton] at mem
    rw [mem]
    exact there
  have none (heap : Nat → Option Shape) : Stored heap Pars.nil.nodes :=
    fun _ mem => (List.not_mem_nil mem).elim
  refine .next (c := .mktype 0x2000 .PTR longtype 0 .nil) ⟨rfl, stored rfl, none _⟩ rfl ?_
  refine .next (c := .mktype 0x3000 .PTR llongtype 0 .nil) ⟨rfl, stored rfl, none _⟩ rfl ?_
  exact .refl _

theorem pointers_exact_longs :
    (∀ e ∈ pointers.log, ∀ e' ∈ pointers.log,
        (e.2.addr = e'.2.addr ↔ eqshape e.1 e'.1 = true)) ↔
      ∀ e ∈ pointers.log, ∀ e' ∈ pointers.log,
        eqshape e.1 e'.1 = true → e.1.chain = e'.1.chain :=
  pointers_exact basics_wellFormed pointers_run

/-- The pointers to `long` and to `long long` are equal types at two addresses. -/
theorem equal_pointers_apart : ∃ (arch : Arch) (heap : Nat → Option Shape) (s : State),
    arch.WellFormed heap ∧ Run arch (initial heap) s ∧
      ∃ e ∈ s.log, ∃ e' ∈ s.log, eqshape e.1 e'.1 = true ∧ e.2.addr ≠ e'.2.addr := by
  refine ⟨voids, basics, pointers, basics_wellFormed, pointers_run,
    (.ptr longtype, .mk 0x2000 (.ptr longtype)), ?_,
    (.ptr llongtype, .mk 0x3000 (.ptr llongtype)), ?_, rfl, ?_⟩
  · exact List.mem_cons_of_mem _ List.mem_cons_self
  · exact List.mem_cons_self
  · decide

end Scc.Cc1.Types
