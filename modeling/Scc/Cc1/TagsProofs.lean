import Scc.Cc1.Tags
import Scc.Transition.Runs

set_option linter.all false

/-! What a specifier with a list in an inner scope does to the types of the outer scopes. It
declares a type of its own if no enclosing scope has declared the tag; otherwise `newtag` finds
the outer symbol, and the members are added to its type. -/
namespace Scc.Cc1.Tags
open Transition

/-- The number of tags with the newest first, and members of contexts that are still open. -/
structure Wf (s : State) : Prop where
  ordered : s.head.Pairwise fun new old => old.type < new.type ∧ old.ctx ≤ new.ctx
  ctx : ∀ sym ∈ s.head, sym.ctx ≤ s.curctx
  type : ∀ sym ∈ s.head, sym.type < s.types.length
  fields : ∀ tp ∈ s.types, ∀ f ∈ tp.fields, f.freed = false → f.ctx ≤ s.curctx

theorem Wf.injective {s : State} (wf : Wf s) {a b : Symbol} (first : a ∈ s.head)
    (second : b ∈ s.head) (same : a.type = b.type) : a = b := by
  have distinct : (s.head.map (·.type)).Nodup :=
    List.pairwise_map.mpr (wf.ordered.imp fun order => Nat.ne_of_gt order.1)
  exact List.inj_on_of_nodup_map distinct first second same

/-- Steps of one context: tags are added in front, and no visible one is hidden. -/
structure Grows (s s' : State) : Prop where
  curctx : s'.curctx = s.curctx
  head : ∃ added, s'.head = added ++ s.head ∧ ∀ sym ∈ added, sym.ctx = s.curctx ∧
    s.types.length ≤ sym.type
  lookup : ∀ name sym, s.lookup name = some sym → s'.lookup name = some sym
  types : s.types.length ≤ s'.types.length

theorem Grows.refl (s : State) : Grows s s where
  curctx := rfl
  head := ⟨[], rfl, by simp⟩
  lookup _ _ found := found
  types := Nat.le_refl _

theorem Grows.trans {s s' s'' : State} (one : Grows s s') (two : Grows s' s'') : Grows s s'' where
  curctx := two.curctx.trans one.curctx
  head := by
    obtain ⟨added, head, each⟩ := one.head
    obtain ⟨more, head', each'⟩ := two.head
    refine ⟨more ++ added, by rw [head', head, List.append_assoc], ?_⟩
    intro sym member
    rcases List.mem_append.mp member with new | old
    · obtain ⟨ctx, type⟩ := each' sym new
      exact ⟨ctx.trans one.curctx, Nat.le_trans one.types type⟩
    · exact each sym old
  lookup name sym found := two.lookup name sym (one.lookup name sym found)
  types := Nat.le_trans one.types two.types

/-- The types keep their number when only one of them changes. -/
theorem Grows.of_types {s s' : State} (head : s'.head = s.head) (curctx : s'.curctx = s.curctx)
    (types : s'.types.length = s.types.length) : Grows s s' where
  curctx := curctx
  head := ⟨[], head, by simp⟩
  lookup name sym found := by rw [State.lookup, head]; exact found
  types := Nat.le_of_eq types.symm

/-! What changes one type only. -/

/-- A step that changes the type `tp` and the messages; members keep their contexts, and new
ones belong to the current one. -/
structure Touches (tp : Nat) (s s' : State) : Prop where
  head : s'.head = s.head
  curctx : s'.curctx = s.curctx
  length : s'.types.length = s.types.length
  others : ∀ t ≠ tp, s'.types[t]? = s.types[t]?
  fields : ∀ type', s'.types[tp]? = some type' → ∀ f ∈ type'.fields, f.ctx = s.curctx ∨
    ∃ type, s.types[tp]? = some type ∧ ∃ g ∈ type.fields, g.ctx = f.ctx ∧ g.freed = f.freed

theorem Touches.same {tp : Nat} {s s' : State} (head : s'.head = s.head)
    (curctx : s'.curctx = s.curctx) (types : s'.types = s.types) : Touches tp s s' where
  head := head
  curctx := curctx
  length := by rw [types]
  others t other := by rw [types]
  fields type found f member := .inr ⟨type, by rw [← types, found], f, member, rfl, rfl⟩

theorem Touches.trans {tp : Nat} {s s' s'' : State} (one : Touches tp s s')
    (two : Touches tp s' s'') : Touches tp s s'' where
  head := two.head.trans one.head
  curctx := two.curctx.trans one.curctx
  length := two.length.trans one.length
  others t other := (two.others t other).trans (one.others t other)
  fields type'' found f member := by
    rcases two.fields type'' found f member with here | ⟨type', found', g, member', ctx, freed⟩
    · exact .inl (here.trans one.curctx)
    · rcases one.fields type' found' g member' with here | ⟨type, old, h, inside, ctx', freed'⟩
      · exact .inl (ctx.symm.trans here)
      · exact .inr ⟨type, old, h, inside, ctx'.trans ctx, freed'.trans freed⟩

theorem Touches.modify {tp : Nat} {s : State} (change : TagType → TagType)
    (fields : ∀ type, ∀ f ∈ (change type).fields, f.ctx = s.curctx ∨
      ∃ g ∈ type.fields, g.ctx = f.ctx ∧ g.freed = f.freed) :
    Touches tp s { s with types := s.types.modify tp change } where
  head := rfl
  curctx := rfl
  length := List.length_modify ..
  others t other := by simp [Ne.symm other]
  fields type' found f member := by
    simp only [List.getElem?_modify, if_true, Option.map_eq_map, Option.map_eq_some_iff] at found
    obtain ⟨type, old, rfl⟩ := found
    rcases fields type f member with here | ⟨g, inside, kept⟩
    · exact .inl here
    · exact .inr ⟨type, old, g, inside, kept⟩

theorem Touches.grows {tp : Nat} {s s' : State} (touches : Touches tp s s') : Grows s s' :=
  .of_types touches.head touches.curctx touches.length

theorem Touches.wf {tp : Nat} {s s' : State} (touches : Touches tp s s') (wf : Wf s) : Wf s' where
  ordered := by rw [touches.head]; exact wf.ordered
  ctx := by rw [touches.head, touches.curctx]; exact wf.ctx
  type := by rw [touches.head, touches.length]; exact wf.type
  fields := by
    intro type' member f inside open'
    rw [touches.curctx]
    obtain ⟨t, found⟩ := List.mem_iff_getElem?.mp member
    by_cases same : t = tp
    · subst same
      rcases touches.fields type' found f inside with here | ⟨type, old, g, among, ctx, freed⟩
      · exact Nat.le_of_eq here
      · rw [← ctx]
        exact wf.fields type (List.mem_of_getElem? old) g among (freed.trans open')
    · rw [touches.others t same] at found
      exact wf.fields type' (List.mem_of_getElem? found) f inside open'

theorem place_fields (sizeof : FieldType → Nat × Nat) (offset : Nat) (fields : List Field) :
    ∀ f ∈ (place sizeof offset fields).1, ∃ g ∈ fields, g.ctx = f.ctx ∧ g.freed = f.freed := by
  induction fields generalizing offset with
  | nil => nofun
  | cons first fields ih =>
    intro f member
    rcases List.mem_cons.mp member with rfl | later
    · exact ⟨first, List.mem_cons_self, rfl, rfl⟩
    · obtain ⟨g, inside, kept⟩ := ih _ f later
      exact ⟨g, List.mem_cons_of_mem _ inside, kept⟩

theorem typesize_fields (sizeof : FieldType → Nat × Nat) (tp : TagType) :
    ∀ f ∈ (typesize sizeof tp).fields, ∃ g ∈ tp.fields, g.ctx = f.ctx ∧ g.freed = f.freed := by
  intro f member
  unfold typesize at member
  cases op : tp.op with
  | STRUCT =>
    simp only [op] at member
    exact place_fields sizeof 0 tp.fields f member
  | UNION =>
    simp only [op] at member
    obtain ⟨g, inside, rfl⟩ := List.mem_map.mp member
    exact ⟨g, inside, rfl, rfl⟩
  | ENUM =>
    simp only [op] at member
    exact ⟨f, member, rfl, rfl⟩

theorem deftype_touches (tp : Nat) (s : State) : Touches tp s (deftype tp s) :=
  .modify _ fun type f member => .inr (typesize_fields _ { type with defined := true } f member)

theorem closes_touches (tag : Tag) (tp : Nat) (s : State) : Touches tp s (closes tag tp s) := by
  have last : ∀ s : State, Touches tp s { s with last := tp } := fun s => .same rfl rfl rfl
  unfold closes
  split
  · exact last s
  · exact (deftype_touches tp s).trans (last _)

theorem errorp_touches (tp : Nat) (message : Message) (s : State) :
    Touches tp s (s.errorp message) := .same rfl rfl rfl

theorem addfield_touches (structp : Nat) (name : String) (tp : FieldType) (s : State) :
    Touches structp s (addfield structp name tp s) := by
  unfold addfield
  split
  · exact errorp_touches structp _ s
  · refine .modify _ fun type f member => ?_
    rcases List.mem_append.mp member with old | new
    · exact .inr ⟨f, old, rfl, rfl⟩
    · obtain rfl := List.mem_singleton.mp new
      exact .inl rfl

theorem field_touches (structp : Nat) (name : String) (type : Option FieldType) (s : State) :
    Touches structp s (field structp name type s) := by
  simp only [field]
  split
  · exact errorp_touches structp _ s
  · split
    · exact addfield_touches structp name _ s
    · exact (errorp_touches structp _ s).trans (addfield_touches structp name _ _)

/-! The symbol of a tag. -/

theorem newtag_ok {tag : Tag} {name : Option String} {s s' : State} {sym : Symbol}
    (found : newtag tag name s = .ok (sym, s')) :
    (∃ id, name = some id ∧ s.lookup id = some sym ∧ s' = s) ∨
      (∀ id, name = some id → s.lookup id = none) ∧ sym = ⟨name, s.curctx, s.types.length⟩ ∧
        s' = { s with head := sym :: s.head, types := s.types ++ [{ op := tag }] } := by
  unfold newtag at found
  split at found
  · next sym' known =>
    split at found
    · obtain ⟨rfl, rfl⟩ := Prod.mk.inj (Except.ok.inj found)
      obtain ⟨id, named, visible⟩ := Option.bind_eq_some_iff.mp known
      exact .inl ⟨id, named, visible, rfl⟩
    · cases found
  · next unknown =>
    split at found
    · cases found
    · obtain ⟨rfl, rfl⟩ := Prod.mk.inj (Except.ok.inj found)
      refine .inr ⟨?_, rfl, rfl⟩
      rintro id rfl
      exact unknown

theorem newtag_grows {tag : Tag} {name : Option String} {s s' : State} {sym : Symbol}
    (found : newtag tag name s = .ok (sym, s')) : Grows s s' := by
  rcases newtag_ok found with ⟨id, -, -, rfl⟩ | ⟨absent, rfl, rfl⟩
  · exact .refl _
  · refine ⟨rfl, ⟨[⟨name, s.curctx, s.types.length⟩], rfl, ?_⟩, ?_, ?_⟩
    · intro sym member
      obtain rfl := List.mem_singleton.mp member
      exact ⟨rfl, Nat.le_refl _⟩
    · intro id sym visible
      have other : name ≠ some id := by
        intro same
        rw [absent id same] at visible
        cases visible
      simpa [State.lookup, other] using visible
    · simp

theorem newtag_wf {tag : Tag} {name : Option String} {s s' : State} {sym : Symbol}
    (found : newtag tag name s = .ok (sym, s')) (wf : Wf s) : Wf s' := by
  rcases newtag_ok found with ⟨id, -, -, rfl⟩ | ⟨-, rfl, rfl⟩
  · exact wf
  · constructor
    · exact List.pairwise_cons.mpr ⟨fun old member => ⟨wf.type old member, wf.ctx old member⟩,
        wf.ordered⟩
    · intro sym member
      rcases List.mem_cons.mp member with rfl | old
      · exact Nat.le_refl _
      · exact wf.ctx sym old
    · intro sym member
      rw [List.length_append, List.length_singleton]
      rcases List.mem_cons.mp member with rfl | old
      · exact Nat.lt_succ_self _
      · exact Nat.lt_succ_of_lt (wf.type sym old)
    · intro tp member f inside
      rcases List.mem_append.mp member with old | new
      · exact wf.fields tp old f inside
      · obtain rfl := List.mem_singleton.mp new
        cases inside

/-- The symbol of a specifier is the visible one of its name. -/
theorem newtag_visible {tag : Tag} {name : Option String} {s s' : State} {sym : Symbol}
    (found : newtag tag name s = .ok (sym, s')) :
    ∀ id, name = some id → s'.lookup id = some sym := by
  rintro id rfl
  rcases newtag_ok found with ⟨_, same, visible, rfl⟩ | ⟨-, rfl, rfl⟩
  · obtain rfl := Option.some.inj same
    exact visible
  · simp [State.lookup]

theorem opens_ok {tag : Tag} {name : Option String} {nested tp : Nat} {s s' : State}
    (opened : opens tag name nested s = .ok (tp, s')) :
    ∃ sym s₁, newtag tag name s = .ok (sym, s₁) ∧ tp = sym.type ∧ Touches tp s₁ s' := by
  unfold opens at opened
  obtain ⟨⟨sym, s₁⟩, found, rest⟩ := bind_ok.mp opened
  refine ⟨sym, s₁, found, ?_⟩
  simp only at rest
  split at rest
  · obtain ⟨rfl, rfl⟩ := Prod.mk.inj (Except.ok.inj rest)
    refine ⟨rfl, ?_⟩
    split
    · exact (errorp_touches _ _ _).trans (deftype_touches _ _)
    · exact deftype_touches _ _
  · split at rest
    · cases rest
    · split at rest
      · cases rest
      · obtain ⟨rfl, rfl⟩ := Prod.mk.inj (Except.ok.inj rest)
        exact ⟨rfl, .same rfl rfl rfl⟩

/-! Runs. -/

theorem pushctx_ok {s s' : State} (pushed : pushctx s = .ok s') :
    s' = { s with curctx := s.curctx + 1 } := by
  unfold pushctx at pushed
  split at pushed
  · cases pushed
  · exact (Except.ok.inj pushed).symm

theorem pushctx_wf {s s' : State} (pushed : pushctx s = .ok s') (wf : Wf s) : Wf s' := by
  obtain rfl := pushctx_ok pushed
  exact
    { ordered := wf.ordered
      ctx := fun sym member => Nat.le_succ_of_le (wf.ctx sym member)
      type := wf.type
      fields := fun tp member f inside open' =>
        Nat.le_succ_of_le (wf.fields tp member f inside open') }

section
variable {s s₁ s₂ : State}

theorem popctx_curctx (pushed : pushctx s = .ok s₁) (grows : Grows s₁ s₂) :
    (popctx s₂).curctx = s.curctx := by
  obtain rfl := pushctx_ok pushed
  simp [popctx, grows.curctx]

variable (pushed : pushctx s = .ok s₁) (wf : Wf s) (grows : Grows s₁ s₂)
include pushed wf grows

theorem popctx_head : (popctx s₂).head = s.head := by
  obtain rfl := pushctx_ok pushed
  obtain ⟨added, head, each⟩ := grows.head
  have inner : ∀ sym ∈ added, decide (sym.ctx = s₂.curctx) = true := by
    intro sym member
    simp [(each sym member).1, grows.curctx]
  have outer : s.head.dropWhile (fun sym => decide (sym.ctx = s₂.curctx)) = s.head := by
    cases h : s.head with
    | nil => rfl
    | cons sym head =>
      have low := wf.ctx sym (h ▸ List.mem_cons_self)
      have other : ¬sym.ctx = s₂.curctx := by
        rw [grows.curctx]
        simp only
        omega
      simp [other]
  simp only [popctx]
  rw [head, List.dropWhile_append_of_pos inner, outer]

theorem popctx_grows : Grows s (popctx s₂) where
  curctx := popctx_curctx pushed grows
  head := ⟨[], popctx_head pushed wf grows, by simp⟩
  lookup name sym found := by
    rw [State.lookup, popctx_head pushed wf grows]
    exact found
  types := by
    obtain rfl := pushctx_ok pushed
    have more := grows.types
    simpa [popctx] using more

theorem popctx_wf (wf₂ : Wf s₂) : Wf (popctx s₂) := by
  have head := popctx_head pushed wf grows
  have curctx := popctx_curctx pushed grows
  have deeper : s₂.curctx = s.curctx + 1 := by
    obtain rfl := pushctx_ok pushed
    exact grows.curctx
  constructor
  · rw [head]
    exact wf.ordered
  · rw [head, curctx]
    exact wf.ctx
  · rw [head]
    intro sym member
    exact Nat.lt_of_lt_of_le (wf.type sym member) (popctx_grows pushed wf grows).types
  · rw [curctx]
    intro tp member f inside open'
    obtain ⟨i, small, rfl⟩ := List.mem_mapIdx.mp member
    obtain ⟨g, among, rfl⟩ := List.mem_map.mp inside
    split at open'
    · cases open'
    · next other =>
      rw [if_neg other]
      have low := wf₂.fields _ (List.getElem_mem small) g among open'
      omega

end

theorem exec_grows {c : Dcl} {structp : Option Nat} {nested : Nat} {s s' : State}
    (run : exec c structp nested s = .ok s') (wf : Wf s) : Grows s s' ∧ Wf s' := by
  induction c generalizing structp nested s s' with
  | skip =>
    cases run
    exact ⟨.refl s, wf⟩
  | seq first rest ih₁ ih₂ =>
    obtain ⟨s₁, one, two⟩ := bind_ok.mp run
    obtain ⟨grows, wf₁⟩ := ih₁ one wf
    obtain ⟨more, wf₂⟩ := ih₂ two wf₁
    exact ⟨grows.trans more, wf₂⟩
  | scope body ih =>
    obtain ⟨s₁, pushed, run⟩ := bind_ok.mp run
    obtain ⟨s₂, inner, done⟩ := bind_ok.mp run
    obtain ⟨grows, wf₂⟩ := ih inner (pushctx_wf pushed wf)
    cases done
    exact ⟨popctx_grows pushed wf grows, popctx_wf pushed wf grows wf₂⟩
  | refer tag name =>
    obtain ⟨⟨sym, s₁⟩, found, done⟩ := bind_ok.mp run
    cases done
    have last : Touches sym.type s₁ { s₁ with last := sym.type } := .same rfl rfl rfl
    exact ⟨(newtag_grows found).trans last.grows, last.wf (newtag_wf found wf)⟩
  | define tag name members ih =>
    obtain ⟨⟨tp, s₁⟩, opened, run⟩ := bind_ok.mp run
    obtain ⟨s₂, inner, done⟩ := bind_ok.mp run
    obtain ⟨sym, s₀, found, rfl, touches⟩ := opens_ok opened
    obtain ⟨grows, wf₂⟩ := ih inner (touches.wf (newtag_wf found wf))
    cases done
    have last := closes_touches tag sym.type s₂
    exact ⟨((newtag_grows found).trans touches.grows).trans (grows.trans last.grows), last.wf wf₂⟩
  | field name type =>
    cases structp with
    | none =>
      cases run
      exact ⟨.refl s, wf⟩
    | some structp =>
      cases run
      have touches := field_touches structp name type s
      exact ⟨touches.grows, touches.wf wf⟩

/-! What the outer scopes see. -/

/-- No enclosing scope has declared the tag. -/
def Clear (name : Option String) (s : State) : Prop :=
  ∀ id, name = some id → ∀ sym, s.lookup id = some sym → sym.ctx = s.curctx

/-- No specifier with a list has a tag that an enclosing scope has declared. -/
def Careful : Dcl → Option Nat → Nat → State → Prop
  | .seq first rest, structp, nested, s => Careful first structp nested s ∧
      ∀ s', exec first structp nested s = .ok s' → Careful rest structp nested s'
  | .scope body, _, nested, s => ∀ s', pushctx s = .ok s' → Careful body none nested s'
  | .define tag name members, _, nested, s => Clear name s ∧
      ∀ tp s', opens tag name nested s = .ok (tp, s') →
        Careful members (parent tag tp) (if tag = .ENUM then nested else nested + 1) s'
  | _, _, _, _ => True

/-- Inside the scopes above `d`, which have the types from `n` on for their own. -/
structure Within (n d : Nat) (s : State) : Prop where
  deep : d < s.curctx
  tags : ∀ sym ∈ s.head, d < sym.ctx → n ≤ sym.type
  size : n ≤ s.types.length
  held : ∀ t < n, ∀ tp, s.types[t]? = some tp → ∀ f ∈ tp.fields, f.freed = false → f.ctx ≤ d

/-- The types below `n` are as they were. -/
def Kept (n : Nat) (s s' : State) : Prop := ∀ t < n, s'.types[t]? = s.types[t]?

section
variable {n d : Nat} {s s' : State}

theorem Within.grown (within : Within n d s) (grows : Grows s s') (kept : Kept n s s') :
    Within n d s' where
  deep := by rw [grows.curctx]; exact within.deep
  tags := by
    obtain ⟨added, head, each⟩ := grows.head
    rw [head]
    intro sym member deep
    rcases List.mem_append.mp member with new | old
    · exact Nat.le_trans within.size (each sym new).2
    · exact within.tags sym old deep
  size := Nat.le_trans within.size grows.types
  held t small tp found := within.held t small tp ((kept t small).symm.trans found)

theorem Within.entered (within : Within n d s) (pushed : pushctx s = .ok s') :
    Within n d s' := by
  obtain rfl := pushctx_ok pushed
  exact ⟨Nat.lt_succ_of_lt within.deep, within.tags, within.size, within.held⟩

theorem Touches.kept {tp : Nat} (touches : Touches tp s s') (own : n ≤ tp) : Kept n s s' :=
  fun t small => touches.others t (by omega)

/-- A tag that no enclosing scope has declared gets, or has, a type of the inner scope. -/
theorem newtag_own {tag : Tag} {name : Option String} {sym : Symbol} (within : Within n d s)
    (clear : Clear name s) (found : newtag tag name s = .ok (sym, s')) :
    n ≤ sym.type ∧ Kept n s s' := by
  rcases newtag_ok found with ⟨id, named, visible, rfl⟩ | ⟨-, rfl, rfl⟩
  · have here := clear id named sym visible
    refine ⟨within.tags sym (List.mem_of_find?_eq_some visible) ?_, fun _ _ => rfl⟩
    rw [here]
    exact within.deep
  · refine ⟨within.size, fun t small => ?_⟩
    exact List.getElem?_append_left (Nat.lt_of_lt_of_le small within.size)

theorem newtag_kept {tag : Tag} {name : Option String} {sym : Symbol} (within : Within n d s)
    (found : newtag tag name s = .ok (sym, s')) : Kept n s s' := by
  rcases newtag_ok found with ⟨_, -, -, rfl⟩ | ⟨-, rfl, rfl⟩
  · exact fun _ _ => rfl
  · exact fun t small => List.getElem?_append_left (Nat.lt_of_lt_of_le small within.size)

/-- The symbols of an inner context take nothing from the outer types with them. -/
theorem popctx_kept (within : Within n d s) : Kept n s (popctx s) := by
  intro t small
  have inside : t < s.types.length := Nat.lt_of_lt_of_le small within.size
  have tags : (s.head.takeWhile (·.ctx = s.curctx)).any (·.type = t) = false := by
    rw [List.any_eq_false]
    intro sym member
    have here := List.mem_takeWhile_imp member
    have own := within.tags sym ((List.takeWhile_sublist _).mem member)
      (by rw [of_decide_eq_true here]; exact within.deep)
    simp only [decide_eq_true_eq]
    omega
  have fields : ∀ f ∈ s.types[t].fields,
      (if f.ctx = s.curctx then { f with freed := true } else f) = f := by
    intro f member
    split
    · next here =>
      cases freed : f.freed with
      | true => rw [← freed]
      | false =>
        have low := within.held t small _ (List.getElem?_eq_getElem inside) f member freed
        have deep := within.deep
        omega
    · rfl
  simp only [popctx, List.getElem?_mapIdx, List.getElem?_eq_getElem inside, Option.map_some,
    TagType.killed, tags, Bool.not_false, Bool.and_true]
  rw [List.map_congr_left fields, List.map_id']

end

theorem parent_own {n tp t : Nat} {tag : Tag} (own : n ≤ tp) (some : parent tag tp = some t) :
    n ≤ t := by
  unfold parent at some
  split at some
  · cases some
  · obtain rfl := Option.some.inj some
    exact own

/-- The types of the outer scopes are not touched. -/
theorem exec_kept {n d : Nat} {c : Dcl} {structp : Option Nat} {nested : Nat} {s s' : State}
    (run : exec c structp nested s = .ok s') (wf : Wf s) (within : Within n d s)
    (own : ∀ t, structp = some t → n ≤ t) (careful : Careful c structp nested s) :
    Kept n s s' := by
  induction c generalizing structp nested s s' with
  | skip =>
    cases run
    exact fun _ _ => rfl
  | seq first rest ih₁ ih₂ =>
    obtain ⟨s₁, one, two⟩ := bind_ok.mp run
    obtain ⟨grows, wf₁⟩ := exec_grows one wf
    have kept := ih₁ one wf within own careful.1
    have more := ih₂ two wf₁ (within.grown grows kept) own (careful.2 s₁ one)
    exact fun t small => (more t small).trans (kept t small)
  | scope body ih =>
    obtain ⟨s₁, pushed, run⟩ := bind_ok.mp run
    obtain ⟨s₂, inner, done⟩ := bind_ok.mp run
    have wf₁ := pushctx_wf pushed wf
    have within₁ := within.entered pushed
    have kept := ih inner wf₁ within₁ nofun (careful s₁ pushed)
    have left := popctx_kept (within₁.grown (exec_grows inner wf₁).1 kept)
    obtain rfl := pushctx_ok pushed
    cases done
    exact fun t small => (left t small).trans (kept t small)
  | refer tag name =>
    obtain ⟨⟨sym, s₁⟩, found, done⟩ := bind_ok.mp run
    have kept := newtag_kept within found
    cases done
    exact kept
  | define tag name members ih =>
    obtain ⟨⟨tp, s₁⟩, opened, run⟩ := bind_ok.mp run
    obtain ⟨s₂, inner, done⟩ := bind_ok.mp run
    obtain ⟨clear, careful⟩ := careful
    have careful := careful _ _ opened
    obtain ⟨sym, s₀, found, rfl, touches⟩ := opens_ok opened
    obtain ⟨mine, kept₀⟩ := newtag_own within clear found
    have within₁ := (within.grown (newtag_grows found) kept₀).grown touches.grows
      (touches.kept mine)
    have kept := ih inner (touches.wf (newtag_wf found wf)) within₁
      (fun t some => parent_own mine some) careful
    have last := (closes_touches tag sym.type s₂).kept mine
    cases done
    exact fun t small => (last t small).trans ((kept t small).trans
      ((touches.kept mine t small).trans (kept₀ t small)))
  | field name type =>
    cases structp with
    | none =>
      cases run
      exact fun _ _ => rfl
    | some structp =>
      cases run
      exact (field_touches structp name type s).kept (own structp rfl)

/-- The type that a specifier with a list gives is none of an enclosing scope, and its tag
denotes it from then on. -/
structure New (name : Option String) (s s' : State) : Prop where
  own : ∀ sym ∈ s.head, sym.ctx < s.curctx → sym.type ≠ s'.last
  denotes : ∀ id, name = some id →
    ∃ sym, s'.lookup id = some sym ∧ sym.type = s'.last ∧ sym.ctx = s'.curctx

/-- After a scope the types that were there have their members, their layout and all else as
before, and tags denote what they did. -/
structure Restored (s s' : State) : Prop where
  types : Kept s.types.length s s'
  lookup : ∀ id, s'.lookup id = s.lookup id
  curctx : s'.curctx = s.curctx

/-- Only the limits of the compiler refuse a tag that its scope has not declared before. -/
def Accepted (tag : Tag) (name : Option String) (nested : Nat) (s : State) : Prop :=
  (∀ id, name = some id → ∀ sym, s.lookup id = some sym → sym.ctx ≠ s.curctx) →
    ∀ e, opens tag name nested s = .error e → e = .tooManyTags ∨ e = .tooManyLevels

/-- Whatever is completed in the run hides the outer types, and every scope restores them. -/
def Hides : Dcl → Option Nat → Nat → State → Prop
  | .seq first rest, structp, nested, s => Hides first structp nested s ∧
      ∀ s', exec first structp nested s = .ok s' → Hides rest structp nested s'
  | .scope body, _, nested, s =>
      (∀ s', pushctx s = .ok s' → Hides body none nested s') ∧
        ∀ s', exec (.scope body) none nested s = .ok s' → Restored s s'
  | .define tag name members, structp, nested, s =>
      (∀ tp s', opens tag name nested s = .ok (tp, s') →
        Hides members (parent tag tp) (if tag = .ENUM then nested else nested + 1) s') ∧
        (∀ s', exec (.define tag name members) structp nested s = .ok s' → New name s s') ∧
        Accepted tag name nested s
  | _, _, _, _ => True

theorem scope_restored {body : Dcl} {structp : Option Nat} {nested : Nat} {s s' : State}
    (run : exec (.scope body) structp nested s = .ok s') (wf : Wf s)
    (careful : Careful (.scope body) structp nested s) : Restored s s' := by
  obtain ⟨s₁, pushed, run⟩ := bind_ok.mp run
  obtain ⟨s₂, inner, done⟩ := bind_ok.mp run
  have wf₁ := pushctx_wf pushed wf
  obtain ⟨grows, -⟩ := exec_grows inner wf₁
  have careful := careful s₁ pushed
  have head := popctx_head pushed wf grows
  have curctx := popctx_curctx pushed grows
  cases done
  obtain rfl := pushctx_ok pushed
  have within : Within s.types.length s.curctx { s with curctx := s.curctx + 1 } := by
    constructor
    · exact Nat.lt_succ_self _
    · intro sym member deep
      exact absurd (wf.ctx sym member) (Nat.not_le_of_lt deep)
    · exact Nat.le_refl _
    · intro t small tp found f member open'
      exact wf.fields tp (List.mem_of_getElem? found) f member open'
  have kept := exec_kept inner wf₁ within nofun careful
  have left := popctx_kept (within.grown grows kept)
  exact
    { types := fun t small => (left t small).trans (kept t small)
      lookup := fun id => by rw [State.lookup, head, State.lookup]
      curctx := curctx }

theorem define_ok {tag : Tag} {name : Option String} {members : Dcl} {structp : Option Nat}
    {nested : Nat} {s s' : State} (run : exec (.define tag name members) structp nested s = .ok s')
    (wf : Wf s) : ∃ sym s₁, newtag tag name s = .ok (sym, s₁) ∧ s'.last = sym.type ∧
      Grows s₁ s' := by
  obtain ⟨⟨tp, s₁⟩, opened, run⟩ := bind_ok.mp run
  obtain ⟨s₂, inner, done⟩ := bind_ok.mp run
  obtain ⟨sym, s₀, found, rfl, touches⟩ := opens_ok opened
  obtain ⟨grows, -⟩ := exec_grows inner (touches.wf (newtag_wf found wf))
  have last := closes_touches tag sym.type s₂
  cases done
  refine ⟨sym, s₀, found, ?_, touches.grows.trans (grows.trans last.grows)⟩
  simp [closes]

theorem define_new {tag : Tag} {name : Option String} {members : Dcl} {structp : Option Nat}
    {nested : Nat} {s s' : State} (run : exec (.define tag name members) structp nested s = .ok s')
    (wf : Wf s) (clear : Clear name s) : New name s s' := by
  obtain ⟨sym, s₁, found, last, grows⟩ := define_ok run wf
  have visible := newtag_visible found
  constructor
  · intro outer member low
    rw [last]
    rcases newtag_ok found with ⟨id, named, known, rfl⟩ | ⟨-, rfl, rfl⟩
    · have here := clear id named sym known
      intro same
      rw [wf.injective member (List.mem_of_find?_eq_some known) same] at low
      omega
    · exact Nat.ne_of_lt (wf.type outer member)
  · rintro id rfl
    refine ⟨sym, grows.lookup id sym (visible id rfl), last.symm, ?_⟩
    rw [grows.curctx]
    rcases newtag_ok found with ⟨_, named, known, rfl⟩ | ⟨-, rfl, rfl⟩
    · exact clear _ named sym known
    · rfl

theorem clear_accepted {tag : Tag} {name : Option String} {nested : Nat} {s : State}
    (clear : Clear name s) : Accepted tag name nested s := by
  intro undeclared e refused
  have unknown : name.bind s.lookup = none := by
    rw [Option.bind_eq_none_iff]
    rintro id rfl
    cases known : s.lookup id with
    | none => rfl
    | some sym => exact absurd (clear id rfl sym known) (undeclared id rfl sym known)
  unfold opens newtag at refused
  rw [unknown] at refused
  by_cases full : s.types.length = NR_MAXSTRUCTS
  · simp only [full, if_true, bind, Except.bind] at refused
    exact .inl (Except.error.inj refused).symm
  · have fresh : ({ s with
        head := ⟨name, s.curctx, s.types.length⟩ :: s.head
        types := s.types ++ [{ op := tag }] } : State).defined s.types.length = false := by
      simp [State.defined]
    simp only [full, if_false, bind, Except.bind, fresh, Bool.false_eq_true, false_and] at refused
    split at refused
    · cases refused
    · split at refused
      · exact .inr (Except.error.inj refused).symm
      · cases refused

theorem careful_hides {c : Dcl} {structp : Option Nat} {nested : Nat} {s : State} (wf : Wf s)
    (careful : Careful c structp nested s) : Hides c structp nested s := by
  induction c generalizing structp nested s with
  | skip | refer | field => trivial
  | seq first rest ih₁ ih₂ =>
    constructor
    · exact ih₁ wf careful.1
    · intro s' run
      exact ih₂ (exec_grows run wf).2 (careful.2 s' run)
  | scope body ih =>
    constructor
    · intro s' pushed
      exact ih (pushctx_wf pushed wf) (careful s' pushed)
    · intro s' run
      exact scope_restored run wf careful
  | define tag name members ih =>
    constructor
    · intro tp s' opened
      have inner := careful.2 tp s' opened
      obtain ⟨sym, s₀, found, rfl, touches⟩ := opens_ok opened
      exact ih (touches.wf (newtag_wf found wf)) inner
    · constructor
      · intro s' run
        exact define_new run wf careful.1
      · exact clear_accepted careful.1

theorem hides_careful {c : Dcl} {structp : Option Nat} {nested : Nat} {s s' : State} (wf : Wf s)
    (run : exec c structp nested s = .ok s') (hides : Hides c structp nested s) :
    Careful c structp nested s := by
  induction c generalizing structp nested s s' with
  | skip | refer | field => trivial
  | seq first rest ih₁ ih₂ =>
    obtain ⟨s₁, one, two⟩ := bind_ok.mp run
    have wf₁ := (exec_grows one wf).2
    constructor
    · exact ih₁ wf one hides.1
    · intro s'' same
      obtain rfl := Except.ok.inj (one.symm.trans same)
      exact ih₂ wf₁ two (hides.2 s₁ one)
  | scope body ih =>
    obtain ⟨s₁, pushed, run⟩ := bind_ok.mp run
    obtain ⟨s₂, inner, -⟩ := bind_ok.mp run
    intro s'' same
    obtain rfl := Except.ok.inj (pushed.symm.trans same)
    exact ih (pushctx_wf pushed wf) inner (hides.1 s₁ pushed)
  | define tag name members ih =>
    constructor
    · rintro id rfl sym known
      by_contra outer
      have member := List.mem_of_find?_eq_some known
      have low : sym.ctx < s.curctx := Nat.lt_of_le_of_ne (wf.ctx sym member) outer
      obtain ⟨sym', s₁, found, last, -⟩ := define_ok run wf
      rcases newtag_ok found with ⟨_, same, known', -⟩ | ⟨absent, -, -⟩
      · obtain rfl := Option.some.inj same
        obtain rfl := Option.some.inj (known.symm.trans known')
        exact (hides.2.1 s' run).own sym member low last.symm
      · exact nomatch (absent id rfl).symm.trans known
    · intro tp s'' same
      obtain ⟨⟨tp', s₁⟩, opened, run⟩ := bind_ok.mp run
      obtain ⟨s₂, inner, -⟩ := bind_ok.mp run
      obtain ⟨rfl, rfl⟩ := Prod.mk.inj (Except.ok.inj (opened.symm.trans same))
      have kept := hides.1 tp' s₁ opened
      obtain ⟨sym, s₀, found, rfl, touches⟩ := opens_ok opened
      exact ih (touches.wf (newtag_wf found wf)) inner kept

theorem Wf.init : Wf {} where
  ordered := .nil
  ctx := nofun
  type := nofun
  fields := nofun

/-- The types of outer scopes are hidden and kept in every run in which no specifier with a list
has a tag of an enclosing scope, and in no other run to the end. -/
theorem tags_hide (c : Dcl) :
    (Careful c none 0 {} → Hides c none 0 {}) ∧
      ∀ s', exec c none 0 {} = .ok s' → Hides c none 0 {} → Careful c none 0 {} := by
  constructor
  · exact careful_hides .init
  · intro s' run
    exact hides_careful .init run

/-- `struct A { int x; }; void f(void) { struct B { char y; }; }` -/
def distinct : Dcl :=
  .seq (.define .STRUCT (some "A") (.field "x" (some (.sized 4 4))))
    (.scope (.define .STRUCT (some "B") (.field "y" (some (.sized 1 1)))))

theorem tags_hide_distinct : Hides distinct none 0 {} := by
  refine (tags_hide distinct).1 ⟨⟨?_, fun _ _ _ => trivial⟩, ?_⟩
  · rintro id ⟨⟩ sym ⟨⟩
  · rintro s' ⟨⟩ s'' ⟨⟩
    refine ⟨?_, fun _ _ _ => trivial⟩
    rintro id ⟨⟩ sym known
    cases known

/-- `struct A { int x; }; void f(void) { struct A { char y; }; }` -/
def redeclared : Dcl :=
  .seq (.define .STRUCT (some "A") (.field "x" (some (.sized 4 4))))
    (.scope (.define .STRUCT (some "A") (.field "y" (some (.sized 1 1)))))

/-- The outer structure has got the inner member, and another size. -/
theorem redeclared_extends :
    (exec redeclared none 0 {}).toOption.bind (fun s => s.types[0]?) =
        some { op := .STRUCT, defined := true, size := 8, align := 4, fields :=
          [⟨"x", 0, .sized 4 4, 0, false⟩, ⟨"y", 1, .sized 1 1, 4, true⟩] } ∧
      ¬Hides redeclared none 0 {} := by
  constructor
  · decide
  · intro hides
    have inner := ((hides.2 _ rfl).1 _ rfl).2.1 _ rfl
    exact inner.own ⟨some "A", 0, 0⟩ (by decide) (by decide) rfl

end Scc.Cc1.Tags
