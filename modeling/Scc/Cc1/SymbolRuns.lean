import Scc.Ar.Symdefs
import Scc.Cc1.SymbolProofs

set_option linter.all false

/-! Whole runs of the symbol table. -/
namespace Scc.Cc1.Symtab
open Listing

variable {genhash : Name → Nat} {s s' : State} {a : Scopes} {p q : Nat}

/-- What a step of the table means for the scopes. -/
def Scopes.step (a : Scopes) (s : State) : Op → Scopes
  | .install ns p =>
    if (s.sym p).declared ∨ (s.sym p).ctx ≠ s.curctx then
      if (s.sym p).ctx = s.curctx ∧ ns = (s.sym p).ns then a else a.declare s.count (table ns)
    else a.declare p (table (s.sym p).ns)
  | .killsym p => if (s.sym p).declared then { a with macros := a.macros.erase p } else a
  | .pushctx => a.enter
  | .popctx => a.leave
  | _ => a

/-- The scope that a declaration is added to. -/
def Scopes.latest (a : Scopes) : Table → List Nat
  | .htab => a.inner
  | .htablbl => a.labels
  | .htabcpp => a.macros

/-- A symbol that is not linked yet, and that is younger than what its scope has in its chain. -/
structure Youngest (genhash : Name → Nat) (s : State) (a : Scopes) (p : Nat) : Prop where
  created : p < s.count
  listed : Listed s p
  absent : p ∉ a.latest (table (s.sym p).ns)
  younger : table (s.sym p).ns ≠ .htabcpp → ∀ q ∈ a.latest (table (s.sym p).ns), place genhash s q = place genhash s p → q < p

/-- How the table may be used. -/
def Allowed (genhash : Name → Nat) (s : State) (a : Scopes) : Op → Prop
  | .install _ p => (∃ name, (s.sym p).name = some name) ∧
      ((s.sym p).declared = false → (s.sym p).ctx = s.curctx → Youngest genhash s a p)
  | .flags p declared _ => declared = true → (s.sym p).declared = true ∨ p ∈ a.visible (table (s.sym p).ns)
  | .killsym p => (s.sym p).declared = true → (s.sym p).ns = NS_CPP ∧ p ∈ a.macros
  | .popctx => 0 < s.curctx ∧ Settled s a
  | _ => True

structure Sound (genhash : Name → Nat) (s : State) (a : Scopes) : Prop where
  tracks : Tracks genhash s a
  blocks : ∀ scope ∈ a.blocks, Ordered genhash s scope
  labels : Ordered genhash s a.labels

/-- A scope keeps its order where its symbols stay in their chains. -/
theorem Ordered.keep {scope : List Nat} (ordered : Ordered genhash s scope)
    (same : ∀ p ∈ scope, place genhash s' p = place genhash s p) : Ordered genhash s' scope := by
  intro b
  have equal : inBucket (place genhash s') scope b = inBucket (place genhash s) scope b :=
    List.filter_congr fun p member => by rw [same p member]
  rw [equal]
  exact ordered b

theorem Ordered.cons {scope : List Nat} (ordered : Ordered genhash s scope)
    (younger : ∀ q ∈ scope, place genhash s q = place genhash s p → q < p) : Ordered genhash s (p :: scope) := by
  intro b
  by_cases here : place genhash s p = b
  · subst here
    rw [inBucket_cons_self]
    refine List.pairwise_cons.mpr ⟨fun q member => ?_, ordered _⟩
    obtain ⟨among, same⟩ := List.mem_filter.mp member
    exact younger q among (of_decide_eq_true same)
  · rw [inBucket_cons_of_ne here]
    exact ordered b

theorem Sound.inner (sound : Sound genhash s a) : Ordered genhash s a.inner := by
  cases blocks : a.blocks with
  | nil =>
    intro b
    rw [Scopes.inner, blocks]
    exact List.Pairwise.nil
  | cons scope outer =>
    rw [Scopes.inner, blocks]
    exact sound.blocks scope (blocks ▸ List.mem_cons_self)

theorem Sound.keep (sound : Sound genhash s a) (tracks : Tracks genhash s' a)
    (same : ∀ p < s.count, place genhash s' p = place genhash s p) : Sound genhash s' a where
  tracks := tracks
  blocks scope among := (sound.blocks scope among).keep fun p member =>
    same p (sound.tracks.created .htab p (List.mem_flatten.mpr ⟨scope, among, member⟩))
  labels := sound.labels.keep fun p member => same p (sound.tracks.created .htablbl p member)

theorem newsym_sound (sound : Sound genhash s a) (ns : Nat) (name : Option Name) :
    Sound genhash (newsym ns name s).2 a :=
  sound.keep (newsym_tracks sound.tracks ns name) fun _ old => place_newsym (Nat.ne_of_lt old)

theorem Scopes.latest_visible {t : Table} (member : p ∈ a.latest t) : p ∈ a.visible t := by
  cases t with
  | htab =>
    cases blocks : a.blocks with
    | nil =>
      rw [Scopes.latest, Scopes.inner, blocks] at member
      cases member
    | cons scope outer =>
      rw [Scopes.latest, Scopes.inner, blocks] at member
      exact List.mem_flatten.mpr ⟨scope, blocks ▸ List.mem_cons_self, member⟩
  | htablbl | htabcpp => exact member

theorem linkhash_place (linked : linkhash genhash p s = .ok s') (q : Nat) : place genhash s' q = place genhash s q := by
  unfold linkhash at linked
  split at linked
  · cases linked
  · dsimp only at linked
    split at linked
    · cases linked
    · cases linked
      by_cases same : q = p
      · subst same
        simp [place]
      · simp [place, same]

/-- A symbol of the current context is in no chain if its scope does not have it. -/
theorem Youngest.unlinked (tracks : Tracks genhash s a) (youngest : Youngest genhash s a p)
    (here : (s.sym p).ctx = s.curctx) : p ∉ s.chain (place genhash s p) := by
  rw [tracks.chains]
  intro member
  have shown : p ∈ a.visible (table (s.sym p).ns) := (List.mem_filter.mp member).1
  refine youngest.absent ?_
  cases t : table (s.sym p).ns with
  | htab =>
    rw [t, tracks.inner_append] at shown
    exact (List.mem_append.mp shown).resolve_right fun outer => Nat.ne_of_lt (tracks.outer_ctx outer) here
  | htablbl | htabcpp => rwa [t] at shown

/-- A symbol of the current context becomes the latest declaration. -/
theorem linkhash_sound (sound : Sound genhash s a) (named : ∃ name, (s.sym p).name = some name)
    (here : (s.sym p).ctx = s.curctx) (youngest : Youngest genhash s a p) :
    ∃ s', linkhash genhash p s = .ok s' ∧ Sound genhash s' (a.declare p (table (s.sym p).ns)) := by
  have absent := youngest.unlinked sound.tracks here
  obtain ⟨name, named⟩ := named
  have at_ : place genhash s p = hash genhash name (s.sym p).ns := by
    rw [place, named, Option.getD_some]
  have linked : ∃ s', linkhash genhash p s = .ok s' := by
    rw [at_] at absent
    unfold linkhash
    rw [named]
    exact ⟨_, if_neg absent⟩
  obtain ⟨s', linked⟩ := linked
  have tracks := linkhash_tracks sound.tracks linked youngest.created here youngest.listed
  have same := linkhash_place linked
  refine ⟨s', linked, tracks, fun scope among => ?_, ?_⟩
  · cases t : table (s.sym p).ns with
    | htab =>
      rw [t] at among
      have younger := youngest.younger (by simp [t])
      have inner := sound.inner
      cases blocks : a.blocks with
      | nil => simp [Scopes.declare, blocks] at among
      | cons first outer =>
        rw [t, Scopes.latest] at younger
        rw [Scopes.inner, blocks] at younger inner
        simp only [Scopes.declare, blocks, List.modifyHead_cons, List.mem_cons] at among
        rcases among with rfl | among
        · exact (inner.cons younger).keep fun q _ => same q
        · exact (sound.blocks scope (blocks ▸ List.mem_cons_of_mem first among)).keep fun q _ => same q
    | htablbl | htabcpp =>
      rw [t] at among
      exact (sound.blocks scope among).keep fun q _ => same q
  · cases t : table (s.sym p).ns with
    | htablbl =>
      have younger := youngest.younger (by simp [t])
      rw [t] at younger
      exact (sound.labels.cons younger).keep fun q _ => same q
    | htab | htabcpp => exact sound.labels.keep fun q _ => same q

/-- A symbol that was just created can be linked. -/
theorem newsym_youngest (sound : Sound genhash s a) (ns : Nat) (name : Option Name) :
    Youngest genhash (newsym ns name s).2 a s.count := by
  have old {t : Table} {q : Nat} (member : q ∈ a.latest t) : q < s.count :=
    sound.tracks.created t q (Scopes.latest_visible member)
  refine ⟨newsym_count ▸ Nat.lt_succ_self _, ?_, fun member => Nat.lt_irrefl _ (old member), fun _ q member _ => old member⟩
  rw [Listed, newsym_new]
  cases t : table ns with
  | htab =>
    rw [newsym_head, if_pos t]
    exact List.mem_cons_self
  | htablbl =>
    rw [newsym_labels, if_pos t]
    exact List.mem_cons_self
  | htabcpp => trivial

theorem newlink_sound (sound : Sound genhash s a) (ns : Nat) (name : Name) :
    ∃ s', linkhash genhash s.count (newsym ns (some name) s).2 = .ok s' ∧ Sound genhash s' (a.declare s.count (table ns)) := by
  have new : (newsym ns (some name) s).2.sym s.count = ⟨some name, ns, s.curctx, false, false⟩ := newsym_new
  obtain ⟨s', linked, sound'⟩ := linkhash_sound (p := s.count) (newsym_sound sound ns (some name))
    ⟨name, by rw [new]⟩ (by rw [new, newsym_curctx]) (newsym_youngest sound ns (some name))
  rw [new] at sound'
  exact ⟨s', linked, sound'⟩

theorem install_new {ns : Nat} (other : (s.sym p).declared ∨ (s.sym p).ctx ≠ s.curctx)
    (again : ¬ ((s.sym p).ctx = s.curctx ∧ ns = (s.sym p).ns))
    (linked : linkhash genhash s.count (newsym ns (s.sym p).name s).2 = .ok s') :
    install genhash ns p s = .ok (some s.count, s') := by
  unfold install
  rw [if_pos other, if_neg again]
  dsimp only
  rw [newsym_fst, linked]

theorem install_old {ns : Nat} (first : ¬ ((s.sym p).declared ∨ (s.sym p).ctx ≠ s.curctx))
    (linked : linkhash genhash p s = .ok s') : install genhash ns p s = .ok (some p, s') := by
  unfold install
  rw [if_neg first, linked]

theorem install_sound (sound : Sound genhash s a) {ns : Nat} (allowed : Allowed genhash s a (.install ns p)) :
    ∃ s', step genhash (.install ns p) s = .ok s' ∧ Sound genhash s' (a.step s (.install ns p)) := by
  obtain ⟨⟨name, named⟩, youngest⟩ := allowed
  by_cases other : (s.sym p).declared ∨ (s.sym p).ctx ≠ s.curctx
  · by_cases again : (s.sym p).ctx = s.curctx ∧ ns = (s.sym p).ns
    · refine ⟨s, congrArg (Except.map Prod.snd) ((if_pos other).trans (if_pos again)), ?_⟩
      rw [Scopes.step, if_pos other, if_pos again]
      exact sound
    · obtain ⟨s', linked, sound'⟩ := newlink_sound sound ns name
      refine ⟨s', congrArg (Except.map Prod.snd) (install_new other again (named ▸ linked)), ?_⟩
      rw [Scopes.step, if_pos other, if_neg again]
      exact sound'
  · have undeclared : (s.sym p).declared = false := Bool.eq_false_iff.mpr fun flag => other (.inl flag)
    have here : (s.sym p).ctx = s.curctx := by_contra fun out => other (.inr out)
    obtain ⟨s', linked, sound'⟩ := linkhash_sound sound ⟨name, named⟩ here (youngest undeclared here)
    refine ⟨s', congrArg (Except.map Prod.snd) (install_old other linked), ?_⟩
    rw [Scopes.step, if_neg other]
    exact sound'

theorem flags_sound (sound : Sound genhash s a) {declared typedef : Bool}
    (allowed : Allowed genhash s a (.flags p declared typedef)) :
    ∃ s', step genhash (.flags p declared typedef) s = .ok s' ∧ Sound genhash s' (a.step s (.flags p declared typedef)) := by
  refine ⟨_, rfl, sound.keep (sound.tracks.flags (fun q => ?_) fun q flag => ?_) fun q _ => ?_⟩
  · by_cases same : q = p
    · subst same
      simp
    · simp [same]
  · by_cases same : q = p
    · subst same
      rw [Function.update_self] at flag
      exact allowed flag
    · rw [Function.update_of_ne same] at flag
      exact .inl flag
  · by_cases same : q = p
    · subst same
      simp [place]
    · simp [place, same]

/-- The chains without a macro. -/
theorem unlink_tracks (tracks : Tracks genhash s a) (member : p ∈ a.macros) :
    Tracks genhash
      { s with chain := Function.update s.chain (place genhash s p) ((s.chain (place genhash s p)).erase p) }
      { a with macros := a.macros.erase p } := by
  have nodup : a.macros.Nodup := tracks.nodup .htabcpp
  have fewer {t : Table} {q : Nat} (member : q ∈ Scopes.visible { a with macros := a.macros.erase p } t) :
      q ∈ a.visible t := by
    cases t with
    | htab | htablbl => exact member
    | htabcpp => exact List.mem_of_mem_erase member
  have first : (place genhash s p).1 = .htabcpp := tracks.tables .htabcpp p member
  constructor
  case chains =>
    intro b
    change Function.update s.chain _ _ b = inBucket (place genhash s) _ b
    by_cases same : b = place genhash s p
    · subst same
      rw [Function.update_self, tracks.chains, first]
      change (inBucket (place genhash s) a.macros _).erase p = inBucket (place genhash s) (a.macros.erase p) _
      have filtered : (inBucket (place genhash s) a.macros (place genhash s p)).Nodup := nodup.filter _
      rw [filtered.erase_eq_filter, inBucket, inBucket, nodup.erase_eq_filter, List.filter_filter, List.filter_filter]
      exact List.filter_congr fun q _ => Bool.and_comm ..
    · rw [Function.update_of_ne same, tracks.chains b]
      cases t : b.1 with
      | htab | htablbl => rfl
      | htabcpp =>
        change inBucket (place genhash s) a.macros b = inBucket (place genhash s) (a.macros.erase p) b
        rw [inBucket, inBucket, nodup.erase_eq_filter, List.filter_filter]
        refine List.filter_congr fun q _ => ?_
        by_cases here : place genhash s q = b
        · have differs : q ≠ p := fun equal => same (equal ▸ here.symm)
          simp [here, differs]
        · simp [here]
  case tables => exact fun t q member => tracks.tables t q (fewer member)
  case named => exact fun t q member => tracks.named t q (fewer member)
  case created => exact fun t q member => tracks.created t q (fewer member)
  case nodup =>
    intro t
    cases t with
    | htab => exact tracks.nodup .htab
    | htablbl => exact tracks.nodup .htablbl
    | htabcpp => exact nodup.erase p
  case depth => exact tracks.depth
  case level => exact tracks.level
  case head_ns => exact tracks.head_ns
  case head_created => exact tracks.head_created
  case head_order => exact tracks.head_order
  case head_ctx => exact tracks.head_ctx
  case head_le => exact tracks.head_le
  case labels_ns => exact tracks.labels_ns
  case labels_created => exact tracks.labels_created
  case labels_order => exact tracks.labels_order
  case listed => exact tracks.listed
  case labelled => exact tracks.labelled
  case declared => exact tracks.declared
  case defined => exact tracks.defined

theorem unlinkhash_macro {name : Name} (flag : (s.sym p).declared = true) (named : (s.sym p).name = some name)
    (cpp : (s.sym p).ns = NS_CPP) (chained : p ∈ s.chain (place genhash s p)) :
    unlinkhash genhash p s = .ok
      { s with chain := Function.update s.chain (place genhash s p) ((s.chain (place genhash s p)).erase p) } := by
  have at_ : place genhash s p = hash genhash name (s.sym p).ns := by
    rw [place, named, Option.getD_some]
  rw [at_] at chained ⊢
  unfold unlinkhash
  rw [if_neg (by simp [flag]), named]
  exact (if_neg fun other => other.1 cpp).trans (if_pos chained)

theorem Sound.macro_chained (sound : Sound genhash s a) (member : p ∈ a.macros) : p ∈ s.chain (place genhash s p) := by
  rw [sound.tracks.chains]
  refine List.mem_filter.mpr ⟨?_, decide_eq_true rfl⟩
  have first : (place genhash s p).1 = .htabcpp := sound.tracks.tables .htabcpp p member
  rwa [first]

theorem killsym_sound (sound : Sound genhash s a) (allowed : Allowed genhash s a (.killsym p)) :
    ∃ s', step genhash (.killsym p) s = .ok s' ∧ Sound genhash s' (a.step s (.killsym p)) := by
  cases flag : (s.sym p).declared with
  | false => exact ⟨s, if_pos flag, by rw [Scopes.step, flag]; exact sound⟩
  | true =>
    obtain ⟨cpp, member⟩ := allowed flag
    obtain ⟨name, named⟩ := sound.tracks.named .htabcpp p member
    refine ⟨_, unlinkhash_macro flag named cpp (sound.macro_chained member), ?_⟩
    rw [Scopes.step, if_pos flag]
    exact ⟨unlink_tracks sound.tracks member, sound.blocks, sound.labels⟩

theorem pushctx_tracks (tracks : Tracks genhash s a) : Tracks genhash { s with curctx := s.curctx + 1 } a.enter := by
  have visible (t : Table) : a.enter.visible t = a.visible t := by
    cases t with
    | htab | htablbl | htabcpp => rfl
  constructor
  case chains => exact fun b => (visible b.1).symm ▸ tracks.chains b
  case tables => exact fun t => visible t ▸ tracks.tables t
  case named => exact fun t => visible t ▸ tracks.named t
  case created => exact fun t => visible t ▸ tracks.created t
  case nodup => exact fun t => visible t ▸ tracks.nodup t
  case depth => exact congrArg Nat.succ tracks.depth
  case level =>
    intro i scope at_ p member
    cases i with
    | zero =>
      cases at_
      cases member
    | succ i => exact congrArg Nat.succ (tracks.level i scope at_ p member)
  case head_ns => exact tracks.head_ns
  case head_created => exact tracks.head_created
  case head_order => exact tracks.head_order
  case head_ctx => exact tracks.head_ctx
  case head_le => exact fun p member => Nat.le_succ_of_le (tracks.head_le p member)
  case labels_ns => exact tracks.labels_ns
  case labels_created => exact tracks.labels_created
  case labels_order => exact tracks.labels_order
  case listed => exact tracks.listed
  case labelled => exact tracks.labelled
  case declared => exact tracks.declared
  case defined => exact tracks.defined

theorem lookup_sound (sound : Sound genhash s a) (ns : Nat) (name : Name) (alloc : Bool) :
    Sound genhash (lookup genhash ns name alloc s).2 a := by
  unfold lookup
  split
  · exact sound
  · split
    · exact newsym_sound sound ns (some name)
    · exact sound

theorem popctx_sound (sound : Sound genhash s a) (allowed : Allowed genhash s a .popctx) :
    ∃ s', step genhash .popctx s = .ok s' ∧ Sound genhash s' (a.step s .popctx) := by
  obtain ⟨deep, settled⟩ := allowed
  refine ⟨_, popctx_left sound.tracks deep settled ⟨sound.inner, fun _ => sound.labels⟩, left_tracks sound.tracks deep, ?_, ?_⟩
  · exact fun scope among => sound.blocks scope (List.mem_of_mem_tail among)
  · change Ordered genhash s (if a.blocks.length = 2 then [] else a.labels)
    split
    · exact fun b => List.Pairwise.nil
    · exact sound.labels

/-- What one step does. -/
theorem step_sound (sound : Sound genhash s a) {op : Op} (allowed : Allowed genhash s a op) :
    (∃ s', step genhash op s = .ok s' ∧ Sound genhash s' (a.step s op)) ∨ step genhash op s = .error .nested := by
  cases op with
  | newsym ns name => exact .inl ⟨_, rfl, newsym_sound sound ns name⟩
  | lookup ns name alloc => exact .inl ⟨_, rfl, lookup_sound sound ns name alloc⟩
  | install ns p => exact .inl (install_sound sound allowed)
  | flags p declared typedef => exact .inl (flags_sound sound allowed)
  | killsym p => exact .inl (killsym_sound sound allowed)
  | pushctx =>
    by_cases deep : s.curctx + 1 = NR_BLOCK + 1
    · exact .inr (if_pos deep)
    · refine .inl ⟨_, if_neg deep, pushctx_tracks sound.tracks, fun scope among => ?_, sound.labels⟩
      rcases List.mem_cons.mp among with rfl | among
      · exact fun b => List.Pairwise.nil
      · exact sound.blocks scope among
  | popctx => exact .inl (popctx_sound sound allowed)

/-- Every step of a run is allowed in the state that it starts from. -/
def AllowedRun (genhash : Name → Nat) : List Op → State → Scopes → Prop
  | [], _, _ => True
  | op :: ops, s, a => Allowed genhash s a op ∧ ∀ s', step genhash op s = .ok s' → AllowedRun genhash ops s' (a.step s op)

theorem AllowedRun.cons {op : Op} {ops : List Op} {s₁ : State} (allowed : Allowed genhash s a op)
    (stepped : step genhash op s = .ok s₁) (rest : AllowedRun genhash ops s₁ (a.step s op)) :
    AllowedRun genhash (op :: ops) s a := by
  refine ⟨allowed, fun s' stepped' => ?_⟩
  cases Except.ok.inj (stepped.symm.trans stepped')
  exact rest

/-- The scopes after a run. -/
def Scopes.after (genhash : Name → Nat) (a : Scopes) : List Op → State → Scopes
  | [], _ => a
  | op :: ops, s =>
    match Symtab.step genhash op s with
    | .ok s' => (a.step s op).after genhash ops s'
    | .error _ => a.step s op

theorem run_cons {op : Op} {ops : List Op} (done : run genhash (op :: ops) s = .ok s') :
    ∃ s₁, step genhash op s = .ok s₁ ∧ run genhash ops s₁ = .ok s' ∧
      ∀ a : Scopes, a.after genhash (op :: ops) s = (a.step s op).after genhash ops s₁ := by
  rw [run] at done
  cases stepped : step genhash op s with
  | ok s₁ =>
    rw [stepped] at done
    exact ⟨s₁, rfl, done, fun a => by rw [Scopes.after, stepped]⟩
  | error fault =>
    rw [stepped] at done
    cases done

theorem run_sound {ops : List Op} (sound : Sound genhash s a) (allowed : AllowedRun genhash ops s a) :
    (∃ s', run genhash ops s = .ok s' ∧ Sound genhash s' (a.after genhash ops s)) ∨ run genhash ops s = .error .nested := by
  induction ops generalizing s a with
  | nil => exact .inl ⟨s, rfl, sound⟩
  | cons op ops ih =>
    obtain ⟨first, later⟩ := allowed
    rcases step_sound sound first with ⟨s', stepped, sound'⟩ | nested
    · rw [run, stepped, Scopes.after, stepped]
      exact ih sound' (later s' stepped)
    · rw [run, nested]
      exact .inr rfl

/-! The start. -/

theorem linkhash_state (linked : linkhash genhash p s = .ok s') : s'.count = s.count ∧ s'.curctx = s.curctx := by
  unfold linkhash at linked
  split at linked
  · cases linked
  · dsimp only at linked
    split at linked
    · cases linked
    · cases linked
      exact ⟨rfl, rfl⟩

/-- The scopes of the predefined symbols, which have the numbers from `n` on. -/
def Scopes.predefined : List (Nat × Name) → Nat → Scopes → Scopes
  | [], _, a => a
  | (ns, _) :: words, n, a => predefined words (n + 1) (a.declare n (table ns))

theorem keywords_sound (words : List (Nat × Name)) (sound : Sound genhash s a) :
    ∃ s', keywords genhash words s = .ok s' ∧ Sound genhash s' (Scopes.predefined words s.count a) ∧ s'.curctx = s.curctx := by
  induction words generalizing s a with
  | nil => exact ⟨s, rfl, sound, rfl⟩
  | cons word words ih =>
    obtain ⟨ns, str⟩ := word
    obtain ⟨s₁, linked, sound₁⟩ := newlink_sound sound ns str
    obtain ⟨count, ctx⟩ := linkhash_state linked
    rw [newsym_count] at count
    obtain ⟨s', done, sound', same⟩ := ih sound₁
    rw [count] at sound'
    refine ⟨s', ?_, sound', same.trans (ctx.trans newsym_curctx)⟩
    unfold keywords
    dsimp only
    rw [newsym_fst, linked]
    exact done

/-- Nothing is declared. -/
def Scopes.start : Scopes := ⟨[[]], [], []⟩

theorem blank_sound : Sound genhash blank Scopes.start := by
  have none_ (t : Table) : Scopes.start.visible t = [] := by
    cases t with
    | htab | htablbl | htabcpp => rfl
  have nothing {t : Table} {p : Nat} (member : p ∈ Scopes.start.visible t) : False := by
    rw [none_] at member
    cases member
  refine ⟨?_, fun scope among b => ?_, fun b => List.Pairwise.nil⟩
  rotate_left
  · cases List.mem_singleton.mp among
    exact List.Pairwise.nil
  constructor
  case chains => exact fun b => (none_ b.1).symm ▸ rfl
  case tables => exact fun t p member => (nothing member).elim
  case named => exact fun t p member => (nothing member).elim
  case created => exact fun t p member => (nothing member).elim
  case nodup => exact fun t => (none_ t).symm ▸ List.nodup_nil
  case depth => rfl
  case level =>
    intro i scope at_ p member
    exact (nothing (t := .htab) (List.mem_flatten.mpr ⟨scope, List.mem_of_getElem? at_, member⟩)).elim
  case head_order | head_ctx | labels_order => exact List.Pairwise.nil
  case listed => exact fun p member => (nothing member).elim
  case labelled => exact fun p member => (nothing (t := .htablbl) member).elim
  all_goals nofun

variable (genhash) in
theorem isyms_sound (words : List (Nat × Name)) :
    ∃ s, isyms genhash words = .ok s ∧ Sound genhash s (Scopes.predefined words 0 Scopes.start) := by
  obtain ⟨s, done, sound, ctx⟩ := keywords_sound words (blank_sound : Sound genhash blank Scopes.start)
  refine ⟨{ s with head := [] }, by rw [isyms, done], ?_, sound.blocks, sound.labels⟩
  have tracks : Tracks genhash s (Scopes.predefined words 0 Scopes.start) := sound.tracks
  constructor
  case chains => exact tracks.chains
  case tables => exact tracks.tables
  case named => exact tracks.named
  case created => exact tracks.created
  case nodup => exact tracks.nodup
  case depth => exact tracks.depth
  case level => exact tracks.level
  case labels_ns => exact tracks.labels_ns
  case labels_created => exact tracks.labels_created
  case labels_order => exact tracks.labels_order
  case listed =>
    intro p member inner
    rw [tracks.inner_append] at member
    have global : s.curctx = GLOBALCTX := ctx
    rcases List.mem_append.mp member with here | outer
    · exact absurd ((tracks.inner_ctx here).trans global) inner
    · exact absurd (global ▸ tracks.outer_ctx outer) (Nat.not_lt_zero _)
  case labelled => exact tracks.labelled
  case defined => exact tracks.defined
  case head_order | head_ctx => exact List.Pairwise.nil
  all_goals nofun

/-- A variable, and a block with another one of its name. -/
def shadowing : List Op := [.lookup 1 [120] true, .install 1 0, .pushctx, .install 1 0, .popctx]

theorem shadowing_allowed : AllowedRun Ar.genhash shadowing blank (Scopes.predefined [] 0 Scopes.start) := by
  refine .cons trivial rfl (.cons ⟨⟨_, rfl⟩, fun _ _ => newsym_youngest blank_sound 1 _⟩ rfl ?_)
  refine .cons trivial rfl (.cons ⟨⟨_, rfl⟩, fun flag => absurd flag (by decide)⟩ rfl ?_)
  refine .cons ⟨Nat.one_pos, fun p member => ?_, fun _ => nofun⟩ rfl trivial
  cases List.mem_singleton.mp (show p ∈ [1] from member)
  rfl

/-- The steps of a list of declarations and statements, whose blocks are closed. -/
inductive Balanced : List Op → Prop
  | nil : Balanced []
  | plain {op : Op} {ops : List Op} (enter : op ≠ .pushctx) (leave : op ≠ .popctx) (rest : Balanced ops) : Balanced (op :: ops)
  | block {inner ops : List Op} (body : Balanced inner) (rest : Balanced ops) :
    Balanced (.pushctx :: (inner ++ .popctx :: ops))

theorem run_append {ops ops' : List Op} (done : run genhash (ops ++ ops') s = .ok s') :
    ∃ s₁, run genhash ops s = .ok s₁ ∧ run genhash ops' s₁ = .ok s' ∧
      ∀ a : Scopes, a.after genhash (ops ++ ops') s = (a.after genhash ops s).after genhash ops' s₁ := by
  induction ops generalizing s with
  | nil => exact ⟨s, rfl, done, fun _ => rfl⟩
  | cons op ops ih =>
    obtain ⟨s₀, stepped, later, after⟩ := run_cons done
    obtain ⟨s₁, first, second, split⟩ := ih later
    refine ⟨s₁, by rw [run, stepped]; exact first, second, fun a => ?_⟩
    refine (after a).trans ((split _).trans ?_)
    rw [Scopes.after, stepped]

/-- Old symbols stay in their chains. -/
theorem step_place (sound : Sound genhash s a) {op : Op} (allowed : Allowed genhash s a op)
    (stepped : step genhash op s = .ok s') : (∀ p < s.count, place genhash s' p = place genhash s p) ∧ s.count ≤ s'.count := by
  have new (ns : Nat) (name : Option Name) :
      (∀ p < s.count, place genhash (newsym ns name s).2 p = place genhash s p) ∧ s.count ≤ (newsym ns name s).2.count :=
    ⟨fun p old => place_newsym (Nat.ne_of_lt old), newsym_count ▸ Nat.le_succ _⟩
  cases op with
  | newsym ns name =>
    cases stepped
    exact new ns name
  | lookup ns name alloc =>
    cases stepped
    unfold lookup
    split
    · exact ⟨fun _ _ => rfl, Nat.le_refl _⟩
    · split
      · exact new ns (some name)
      · exact ⟨fun _ _ => rfl, Nat.le_refl _⟩
  | install ns p =>
    by_cases other : (s.sym p).declared ∨ (s.sym p).ctx ≠ s.curctx
    · by_cases again : (s.sym p).ctx = s.curctx ∧ ns = (s.sym p).ns
      · rw [step, install, if_pos other, if_pos again] at stepped
        cases stepped
        exact ⟨fun _ _ => rfl, Nat.le_refl _⟩
      · obtain ⟨name, named⟩ := allowed.1
        obtain ⟨s₁, linked, -⟩ := newlink_sound sound ns name
        rw [step, install_new other again (named ▸ linked)] at stepped
        cases stepped
        have created := new ns (some name)
        exact ⟨fun p old => (linkhash_place linked p).trans (created.1 p old), (linkhash_state linked).1 ▸ created.2⟩
    · have here : (s.sym p).ctx = s.curctx := by_contra fun out => other (.inr out)
      have undeclared : (s.sym p).declared = false := Bool.eq_false_iff.mpr fun flag => other (.inl flag)
      obtain ⟨s₁, linked, -⟩ := linkhash_sound sound allowed.1 here (allowed.2 undeclared here)
      rw [step, install_old other linked] at stepped
      cases stepped
      exact ⟨fun p _ => linkhash_place linked p, Nat.le_of_eq (linkhash_state linked).1.symm⟩
  | flags p declared typedef =>
    cases stepped
    refine ⟨fun q _ => ?_, Nat.le_refl _⟩
    by_cases same : q = p
    · subst same
      simp [place]
    · simp [place, same]
  | killsym p =>
    cases flag : (s.sym p).declared with
    | false =>
      rw [step, unlinkhash, if_pos flag] at stepped
      cases stepped
      exact ⟨fun _ _ => rfl, Nat.le_refl _⟩
    | true =>
      obtain ⟨cpp, member⟩ := allowed flag
      obtain ⟨name, named⟩ := sound.tracks.named .htabcpp p member
      rw [step, unlinkhash_macro flag named cpp (sound.macro_chained member)] at stepped
      cases stepped
      exact ⟨fun _ _ => rfl, Nat.le_refl _⟩
  | pushctx =>
    rw [step, pushctx] at stepped
    split at stepped
    · cases stepped
    · cases stepped
      exact ⟨fun _ _ => rfl, Nat.le_refl _⟩
  | popctx =>
    rw [step, popctx_left sound.tracks allowed.1 allowed.2 ⟨sound.inner, fun _ => sound.labels⟩] at stepped
    cases stepped
    exact ⟨fun _ _ => rfl, Nat.le_refl _⟩

theorem run_place {ops : List Op} (sound : Sound genhash s a) (allowed : AllowedRun genhash ops s a)
    (done : run genhash ops s = .ok s') : (∀ p < s.count, place genhash s' p = place genhash s p) ∧ s.count ≤ s'.count := by
  induction ops generalizing s a with
  | nil =>
    cases done
    exact ⟨fun _ _ => rfl, Nat.le_refl _⟩
  | cons op ops ih =>
    obtain ⟨first, later⟩ := allowed
    obtain ⟨s₁, stepped, done, -⟩ := run_cons done
    have one := step_place sound first stepped
    rcases step_sound sound first with ⟨s₂, stepped', sound₂⟩ | nested
    · cases Except.ok.inj (stepped.symm.trans stepped')
      have rest := ih sound₂ (later s₁ stepped) done
      exact ⟨fun p old => (rest.1 p (Nat.lt_of_lt_of_le old one.2)).trans (one.1 p old), Nat.le_trans one.2 rest.2⟩
    · cases stepped.symm.trans nested

theorem plain_blocks {op : Op} (enter : op ≠ .pushctx) (leave : op ≠ .popctx) :
    (a.step s op).blocks.tail = a.blocks.tail := by
  have declared (p : Nat) (t : Table) : (a.declare p t).blocks.tail = a.blocks.tail := by
    cases t with
    | htab =>
      unfold Scopes.declare
      cases a.blocks with
      | nil => rfl
      | cons scope outer => rfl
    | htablbl | htabcpp => rfl
  cases op with
  | newsym | lookup | flags => rfl
  | install ns p =>
    rw [Scopes.step]
    split
    · split
      · rfl
      · exact declared _ _
    · exact declared _ _
  | killsym p =>
    rw [Scopes.step]
    split
    · rfl
    · rfl
  | pushctx => exact absurd rfl enter
  | popctx => exact absurd rfl leave

/-- Declarations and statements only change the innermost block. -/
theorem Balanced.blocks {ops : List Op} (balanced : Balanced ops) (done : run genhash ops s = .ok s') :
    (a.after genhash ops s).blocks.tail = a.blocks.tail := by
  induction balanced generalizing s s' a with
  | nil => rfl
  | @plain op ops enter leave rest ih =>
    obtain ⟨s₁, -, done, after⟩ := run_cons done
    rw [after]
    exact (ih done).trans (plain_blocks enter leave)
  | @block inner ops body rest ihb ihr =>
    obtain ⟨s₁, -, done, pushed⟩ := run_cons done
    obtain ⟨s₂, ran, done, split⟩ := run_append done
    obtain ⟨s₃, -, done, popped⟩ := run_cons done
    rw [pushed, split, popped]
    exact (ihr done).trans (congrArg List.tail (ihb ran))

/-- The steps of a block leave the chains of the names outside as they were, and so what is looked up there. -/
theorem block_restores {ops : List Op} {n : Nat} (sound : Sound genhash s a) (balanced : Balanced ops)
    (allowed : AllowedRun genhash (.pushctx :: (ops ++ [.popctx])) s a)
    (done : run genhash (.pushctx :: (ops ++ [.popctx])) s = .ok s') :
    s'.chain (.htab, n) = s.chain (.htab, n) ∧ s'.curctx = s.curctx := by
  rcases run_sound sound allowed with ⟨s₁, ran, sound'⟩ | nested
  · cases Except.ok.inj (done.symm.trans ran)
    have same : (a.after genhash (.pushctx :: (ops ++ [.popctx])) s).blocks = a.blocks := by
      obtain ⟨s₁, -, done, pushed⟩ := run_cons done
      obtain ⟨s₂, ran, done, split⟩ := run_append done
      obtain ⟨s₃, -, -, popped⟩ := run_cons done
      rw [pushed, split, popped]
      exact balanced.blocks ran
    have chain : s'.chain (.htab, n) = inBucket (place genhash s') a.blocks.flatten (.htab, n) :=
      same ▸ sound'.tracks.chains (.htab, n)
    have depth : a.blocks.length = s'.curctx + 1 := same ▸ sound'.tracks.depth
    constructor
    · rw [chain, sound.tracks.chains]
      refine List.filter_congr fun p member => ?_
      rw [(run_place sound allowed done).1 p (sound.tracks.created .htab p member)]
    · have := sound.tracks.depth
      omega
  · cases done.symm.trans nested

/-- A block with a variable. -/
def local_ : List Op := .pushctx :: ([.lookup 1 [120] true, .install 1 0] ++ [.popctx])

theorem local_restored :
    ∃ s', run Ar.genhash local_ blank = .ok s' ∧
      s'.chain (.htab, 29) = blank.chain (.htab, 29) ∧ s'.curctx = blank.curctx := by
  have entered : Sound Ar.genhash { blank with curctx := 1 } Scopes.start.enter :=
    ⟨pushctx_tracks blank_sound.tracks, fun scope among => (List.forall_mem_cons.mpr
      ⟨fun _ => List.Pairwise.nil, blank_sound.blocks⟩) scope among, blank_sound.labels⟩
  have allowed : AllowedRun Ar.genhash local_ blank Scopes.start := by
    refine .cons trivial rfl (.cons trivial rfl (.cons ⟨⟨_, rfl⟩, fun _ _ => newsym_youngest entered 1 _⟩ rfl ?_))
    refine .cons ⟨Nat.one_pos, fun p member => ?_, fun _ => nofun⟩ rfl trivial
    cases List.mem_singleton.mp (show p ∈ [0] from member)
    rfl
  obtain ⟨s', done⟩ : ∃ s', run Ar.genhash local_ blank = .ok s' := ⟨_, rfl⟩
  have balanced : Balanced [.lookup 1 [120] true, .install 1 0] := .plain nofun nofun (.plain nofun nofun .nil)
  exact ⟨s', done, block_restores blank_sound balanced allowed done⟩

/-- In a block, the assertion of `unlinkhash` fails if and only if a chain has symbols of the block, or labels of the
function that ends, in another order than that of their creation. -/
theorem popctx_exact (tracks : Tracks genhash s a) (deep : 0 < s.curctx) (settled : Settled s a) :
    (popctx genhash s = .error .assertion ↔ ¬ Agrees genhash s a) ∧
      (Agrees genhash s a → ∃ s', popctx genhash s = .ok s' ∧ Tracks genhash s' a.leave) := by
  have good (agrees : Agrees genhash s a) := popctx_left tracks deep settled agrees
  constructor
  · constructor
    · intro failed agrees
      cases failed.symm.trans (good agrees)
    · exact popctx_assertion tracks deep settled
  · exact fun agrees => ⟨_, good agrees, left_tracks tracks deep⟩

/-- `enum { b = sizeof(struct b {int x;}) };` in a block: the constant is created first and the tag is declared first. -/
def crossed : List Op := [.pushctx, .newsym 1 (some [98]), .newsym 2 (some [98]), .install 2 1, .install 1 0]

theorem crossed_assertion :
    ∃ s, run Ar.genhash crossed blank = .ok s ∧ popctx Ar.genhash s = .error .assertion := by
  have entered : Tracks Ar.genhash _ _ := pushctx_tracks blank_sound.tracks
  have created := newsym_tracks (newsym_tracks entered 1 (some [98])) 2 (some [98])
  have tag := linkhash_tracks (p := 1) created rfl (by decide) rfl (show 1 ∈ [1, 0] by decide)
  have constant := linkhash_tracks (p := 0) tag rfl (by decide) rfl (show 0 ∈ [1, 0] by decide)
  refine ⟨_, rfl, (popctx_exact constant Nat.one_pos ⟨fun p member => ?_, fun _ => nofun⟩).1.mpr fun agrees => ?_⟩
  · have member : p ∈ [0, 1] := member
    rcases List.mem_cons.mp member with rfl | member
    · rfl
    · cases List.mem_singleton.mp member
      rfl
  · have pair : [0, 1].Pairwise (· > ·) := agrees.inner (.htab, 7)
    exact absurd pair (by decide)

end Scc.Cc1.Symtab
