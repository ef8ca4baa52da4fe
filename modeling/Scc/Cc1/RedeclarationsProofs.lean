import Scc.Cc1.Compatible
import Scc.Cc1.Redeclarations

set_option linter.all false

/-! When a sequence of declarations at file scope is accepted as the language says. -/
namespace Scc.Cc1.Types

/-! ## The rules of the language -/

inductive Linkage where
  | external
  | internal
  deriving DecidableEq

/-- An object or function with linkage: `placed` says that it has been declared without `extern`, or
with a body, and `defined` that it has an initializer or a body. -/
structure Entity where
  linkage : Linkage
  type : Ty
  placed : Bool
  defined : Bool

inductive Known where
  | typedef_ (type : Ty)
  | entity (e : Entity)

def Declaration.hasbody (d : Declaration) : Bool :=
  match d.rest with
  | .body .. => true
  | _ => false

/-- A declaration with storage for the object or with the code of the function. -/
def Declaration.places (d : Declaration) : Bool :=
  if d.type.isFtn then d.hasbody else d.sclass ≠ .EXTERN || d.hasinit

/-- The type after the initializer, or after a body whose identifier list is empty. -/
def Declaration.ends (d : Declaration) (tp : Ty) : Ty :=
  match d.rest, tp with
  | .init elems, tp => tp.sized elems
  | .body _ 0 noargs, .mk _ (.ftn type true _) => .mk noargs (.ftn type false .nil)
  | _, tp => tp

/-- The initializer of an array without a size has as many elements as the array is known to have. -/
def Declaration.fits (d : Declaration) (tp : Ty) : Prop :=
  match d.rest, d.type, tp with
  | .init elems, .mk _ (.ary _ 0), .mk _ (.ary _ nelem) => nelem = 0 ∨ nelem = elems
  | _, _, _ => True

section
-- Whether a tentative definition can have the type of its declaration, where that is not complete.
variable (tentative : Declaration → Bool) (arch : Promotion) (name : String)

/-- The rules for a declaration of what is known. -/
structure Permits (k : Option Known) (d : Declaration) : Prop where
  storage : d.sclass ≠ .AUTO ∧ d.sclass ≠ .REGISTER
  main : d.type.isFtn = true → name = "main" → retaddr d.type = some arch.inttype
  reserved : name ≠ "__func__"
  init : d.hasinit = true → d.sclass ≠ .TYPEDEF ∧ d.type.isFtn = false
  body : ∀ declarator names noargs, d.rest = .body declarator names noargs →
    d.sclass ≠ .TYPEDEF ∧ d.type.isFtn = true ∧ declarator = true
  complete : d.sclass = .NOSCLASS ∨ d.sclass = .STATIC → d.defined = true ∨
    (d.type.isAry = true ∧ d.hasinit = true) ∨ (d.sclass = .NOSCLASS ∧ tentative d = true)
  again : match k with
    | none => True
    | some (.typedef_ _) => False
    | some (.entity e) => d.sclass ≠ .TYPEDEF ∧ compatible arch e.type d.type = true ∧ d.fits e.type ∧
      (d.sclass = .STATIC → e.linkage = .internal) ∧
      (d.sclass = .NOSCLASS → d.type.isFtn = false → e.linkage = .external) ∧
      (d.hasinit = true ∨ d.hasbody = true → e.defined = false)

/-- What is known after a declaration, with the composite type. -/
def next (k : Option Known) (d : Declaration) : Known :=
  match k with
  | some (.entity e) =>
    .entity ⟨e.linkage, d.ends (composite e.type d.type), e.placed || d.places,
      e.defined || d.hasinit || d.hasbody⟩
  | _ =>
    if d.sclass = .TYPEDEF then .typedef_ d.type
    else
      .entity ⟨if d.sclass = .STATIC then .internal else .external, d.ends d.type, d.places,
        d.hasinit || d.hasbody⟩

def Allowed (k : Option Known) : List Declaration → Prop
  | [] => True
  | d :: ds => Permits tentative arch name k d ∧ Allowed (some (next k d)) ds

def outcome : Option Known → List Declaration → Option Known
  | k, [] => k
  | k, d :: ds => outcome (some (next k d)) ds

end

/-- The symbol has one linkage, which is the one of the object or function, and its type. -/
def Settled : Known → Sym → Prop
  | .typedef_ type, sym => sym.typeiden = true ∧ sym.type = type
  | .entity e, sym => sym.typeiden = false ∧ sym.type = e.type ∧
    (sym.private_ = true ↔ e.linkage = .internal) ∧
    (sym.global = true ↔ e.linkage = .external ∧ e.placed = true) ∧
    (sym.extern_ = true ↔ e.linkage = .external ∧ e.placed = false)

/-! ## Where the code follows them -/

section
variable (arch : Promotion) (name : String)

/-- The types are plain and the declaration adds nothing to the type that is known, an initializer does
not follow only declarations with `extern` and is not itself one, and no static object is declared
before it is initialized. -/
def Regular (k : Option Known) (d : Declaration) : Prop :=
  match k with
  | none => d.sclass = .EXTERN → d.hasinit = true → d.type.isFtn = true
  | some (.typedef_ type) => Plain arch type d.type
  | some (.entity e) => Plain arch e.type d.type ∧
    (compatible arch e.type d.type = true → composite e.type d.type = e.type ∧ d.fits e.type) ∧
    (d.hasinit = true → d.type.isFtn = true ∨
      if e.linkage = .internal then e.defined = true else d.sclass = .EXTERN → e.placed = true)

/-- Up to the first declaration that is not permitted. -/
def Regulars (k : Option Known) : List Declaration → Prop
  | [] => True
  | d :: ds => Regular arch k d ∧
    (Permits (fun _ => false) arch name k d → Regulars (some (next k d)) ds)

end

/-- The symbol that stands for what is known. -/
def Known.sym : Known → Sym
  | .typedef_ type => ⟨type, true, false, false, false, true, !type.isFtn⟩
  | .entity e =>
    ⟨e.type, false, e.linkage = .external && !e.placed, e.linkage = .external && e.placed,
      e.linkage = .internal, false, if e.type.isFtn then e.defined else e.linkage = .internal || e.defined⟩

section
variable {arch : Promotion} {name : String}

theorem settled_sym (k : Known) : Settled k k.sym := by
  cases k with
  | typedef_ type => exact ⟨rfl, rfl⟩
  | entity e => simp [Settled, Known.sym]

theorem checks_nil (d : Declaration) : d.checks arch name = [] ↔
    ((d.defined = true ∨ d.sclass = .EXTERN ∨ d.sclass = .TYPEDEF ∨
        (d.type.isAry = true ∧ d.hasinit = true)) ∧
      (d.type.isFtn = true → name = "main" → retaddr d.type = some arch.inttype)) ∧ name ≠ "__func__" := by
  have none (c : Prop) [Decidable c] (e : Error) : (if c then [e] else []) = [] ↔ ¬c := by
    split <;> simp [*]
  simp only [Declaration.checks, List.append_eq_nil_iff, none, Bool.and_eq_true, Bool.not_eq_true',
    decide_eq_true_eq, not_and, ne_eq, not_not]
  cases d.defined <;> cases d.type.isAry <;> cases d.hasinit <;> simp <;> tauto

theorem sized_isFtn (elems : Int) (tp : Ty) : (tp.sized elems).isFtn = tp.isFtn := by
  unfold Ty.sized
  split <;> rfl

theorem permits_iff (k : Option Known) (d : Declaration) : Permits (fun _ => false) arch name k d ↔
    d.checks arch name = [] ∧ (d.sclass ≠ .AUTO ∧ d.sclass ≠ .REGISTER) ∧
    (d.hasinit = true → d.sclass ≠ .TYPEDEF ∧ d.type.isFtn = false) ∧
    (∀ declarator names noargs, d.rest = .body declarator names noargs →
      d.sclass ≠ .TYPEDEF ∧ d.type.isFtn = true ∧ declarator = true) ∧
    (match k with
    | none => True
    | some (.typedef_ _) => False
    | some (.entity e) => d.sclass ≠ .TYPEDEF ∧ compatible arch e.type d.type = true ∧ d.fits e.type ∧
      (d.sclass = .STATIC → e.linkage = .internal) ∧
      (d.sclass = .NOSCLASS → d.type.isFtn = false → e.linkage = .external) ∧
      (d.hasinit = true ∨ d.hasbody = true → e.defined = false)) := by
  rw [checks_nil]
  constructor
  · rintro ⟨storage, main, reserved, init, body, complete, again⟩
    refine ⟨⟨⟨?_, main⟩, reserved⟩, storage, init, body, again⟩
    obtain ⟨auto, register⟩ := storage
    cases kind : d.sclass with
    | NOSCLASS => simpa [kind] using complete
    | STATIC => simpa [kind] using complete
    | EXTERN => simp
    | TYPEDEF => simp
    | AUTO => exact absurd kind auto
    | REGISTER => exact absurd kind register
  · rintro ⟨⟨⟨complete, main⟩, reserved⟩, storage, init, body, again⟩
    refine ⟨storage, main, reserved, init, body, ?_, again⟩
    rintro (kind | kind) <;> simpa [kind] using complete

/-! ## The first declaration -/

theorem first_object (d : Declaration) (regular : Regular arch none d) (object : d.type.isFtn = false) :
    (Permits (fun _ => false) arch name none d →
      declare arch name none d = some ((next none d).sym, [])) ∧
    (∀ sym, declare arch name none d = some (sym, []) → Permits (fun _ => false) arch name none d) := by
  rw [permits_iff]
  obtain ⟨sclass, type, prop, rest⟩ := d
  generalize checked : Declaration.checks arch name ⟨sclass, type, prop, rest⟩ = errors
  dsimp only at object
  cases rest with
  | end_ =>
    cases sclass <;> simp [declare, identifier, newdcl, Declaration.linked, object, checked, funbody, next,
      Known.sym, Declaration.hasinit, Declaration.hasbody, Declaration.ends, Declaration.places]
  | init elems =>
    cases sclass <;> simp [declare, identifier, newdcl, Declaration.linked, object, checked, funbody, next,
      Known.sym, Declaration.hasinit, Declaration.hasbody, Declaration.ends, Declaration.places, initializer,
      sized_isFtn, Regular] at regular ⊢
  | body declarator names noargs =>
    cases sclass <;> simp [declare, identifier, newdcl, Declaration.linked, object, checked, funbody, next,
      Known.sym, Declaration.hasinit, Declaration.hasbody, Declaration.ends, Declaration.places]

theorem isFtn_shape {t : Ty} (isFtn : t.isFtn = true) : ∃ addr type kr pars, t = .mk addr (.ftn type kr pars) := by
  unfold Ty.isFtn at isFtn
  split at isFtn
  · exact ⟨_, _, _, _, rfl⟩
  · cases isFtn

theorem funbody_function {e : Entity} (isFtn : e.type.isFtn = true) (declarator : Bool)
    (names noargs : Nat) : ∃ sym errors,
    funbody (Known.entity e).sym (.body declarator names noargs) = (sym, errors) ∧
    (errors = [] ↔ declarator = true ∧ e.defined = false) ∧
    sym = (Known.entity ⟨e.linkage,
      Declaration.ends ⟨.NOSCLASS, e.type, true, .body declarator names noargs⟩ e.type, true, true⟩).sym := by
  obtain ⟨linkage, known, placed, defined⟩ := e
  obtain ⟨addr, base, kr, pars, rfl⟩ := isFtn_shape isFtn
  cases declarator <;> cases defined <;> cases linkage <;> cases placed <;> cases kr <;> cases names <;>
    simp [funbody, Known.sym, Ty.isFtn, Declaration.ends]

theorem initializer_function {sym : Sym} {elems : Int} (isFtn : sym.type.isFtn = true) :
    (initializer sym elems).2 ≠ [] := by
  simp only [initializer, isFtn, ↓reduceIte]
  repeat' split
  all_goals simp

theorem newdcl_function (d : Declaration) (isFtn : d.type.isFtn = true) (notTypedef : d.sclass ≠ .TYPEDEF) :
    ∃ errors, newdcl d.type d.linked =
      ((Known.entity ⟨if d.sclass = .STATIC then .internal else .external, d.type, false, false⟩).sym, errors) ∧
    (errors = [] ↔ d.sclass ≠ .AUTO ∧ d.sclass ≠ .REGISTER) := by
  obtain ⟨sclass, type, prop, rest⟩ := d
  dsimp only at isFtn notTypedef
  cases sclass <;> simp [newdcl, Declaration.linked, isFtn, Known.sym] at notTypedef ⊢

theorem first_function (d : Declaration) (isFtn : d.type.isFtn = true) :
    (Permits (fun _ => false) arch name none d →
      declare arch name none d = some ((next none d).sym, [])) ∧
    (∀ sym, declare arch name none d = some (sym, []) → Permits (fun _ => false) arch name none d) := by
  rw [permits_iff]
  cases rest : d.rest with
  | end_ =>
    obtain ⟨sclass, type, prop, rest⟩ := d
    dsimp only at isFtn rest
    subst rest
    generalize checked : Declaration.checks arch name ⟨sclass, type, prop, .end_⟩ = errors
    cases sclass <;> simp [declare, identifier, newdcl, Declaration.linked, isFtn, checked, funbody, next,
      Known.sym, Declaration.hasinit, Declaration.hasbody, Declaration.ends, Declaration.places]
  | init elems =>
    have ftn : (newdcl d.type d.linked).1.type.isFtn = true := by
      unfold newdcl
      cases d.linked <;> simp [isFtn]
    simp [declare, identifier, rest, isFtn, Declaration.hasinit, initializer_function ftn]
  | body declarator names noargs =>
    by_cases typedef_ : d.sclass = .TYPEDEF
    · simp [declare, identifier, rest, isFtn, typedef_, newdcl, Declaration.linked, funbody]
      intros
      split <;> simp
    · obtain ⟨errors, created, storage⟩ := newdcl_function d isFtn typedef_
      obtain ⟨sym, errors', body, accepted, result⟩ := funbody_function
        (e := ⟨if d.sclass = .STATIC then .internal else .external, d.type, false, false⟩) isFtn
        declarator names noargs
      have ends : d.ends d.type =
          Declaration.ends ⟨.NOSCLASS, d.type, true, .body declarator names noargs⟩ d.type := by
        simp only [Declaration.ends, rest]
      simp [declare, identifier, created, rest, isFtn, body, next, typedef_, storage, accepted, ends, result,
        Declaration.places, Declaration.hasinit, Declaration.hasbody]

/-! ## Further declarations -/

theorem redcl_typedef {sym : Sym} {d : Declaration} (typeiden : sym.typeiden = true)
    (plain : Plain arch sym.type d.type) :
    ∃ sym' e, redcl arch sym d.type d.linked = some (sym', e) ∧ e ≠ [] := by
  unfold redcl
  rw [equiv_plain _ _ plain]
  cases compatible arch sym.type d.type with
  | false => exact ⟨_, _, rfl, by simp⟩
  | true =>
    have token :
        (if (!sym.type.kr && d.type.kr) = true then { sym with type := d.type } else sym).typeiden = true := by
      split <;> exact typeiden
    simp only [Option.bind_eq_bind, Option.bind_some, Bool.not_true, Bool.false_eq_true, if_false, token]
    cases linked : d.linked <;> exact ⟨_, _, rfl, by simp⟩

theorem redcl_conflict {sym : Sym} {d : Declaration} (plain : Plain arch sym.type d.type)
    (other : compatible arch sym.type d.type = false) :
    redcl arch sym d.type d.linked = some (sym, [.conflictingTypes]) := by
  rw [redcl, equiv_plain _ _ plain, other]
  rfl

theorem declare_error {sym sym' : Sym} {d : Declaration} {e : List Error}
    (redeclared : redcl arch sym d.type d.linked = some (sym', e)) (some_ : e ≠ []) (last : Sym) :
    declare arch name (some sym) d ≠ some (last, []) := by
  intro accepted
  simp [declare, identifier, redeclared, some_] at accepted

theorem redcl_object {d : Declaration} {e : Entity} (plain : Plain arch e.type d.type)
    (agree : compatible arch e.type d.type = true) (object : d.type.isFtn = false) : ∃ sym errors,
    redcl arch (Known.entity e).sym d.type d.linked = some (sym, errors) ∧
    (errors = [] ↔ (d.sclass ≠ .AUTO ∧ d.sclass ≠ .REGISTER) ∧ d.sclass ≠ .TYPEDEF ∧
      (d.sclass = .STATIC → e.linkage = .internal) ∧ (d.sclass = .NOSCLASS → e.linkage = .external)) ∧
    (errors = [] → sym = (Known.entity { e with placed := e.placed || !decide (d.sclass = .EXTERN) }).sym) := by
  obtain ⟨kind, style⟩ := plain_agree plain agree
  have decided := equiv_plain _ _ plain
  obtain ⟨linkage, known, placed, defined⟩ := e
  obtain ⟨sclass, type, prop, rest⟩ := d
  dsimp only at *
  rw [agree] at decided
  cases sclass <;> cases linkage <;> cases placed <;>
    simp [redcl, Declaration.linked, Known.sym, decided, style, object]

theorem initializer_object {e : Entity} (object : e.type.isFtn = false) (elems : Int) : ∃ sym errors,
    initializer (Known.entity e).sym elems = (sym, errors) ∧
    (errors = [] ↔ e.linkage = .external ∧ e.placed = true ∧ e.defined = false) ∧
    (errors = [] → sym = (Known.entity { e with type := e.type.sized elems, defined := true }).sym) := by
  obtain ⟨linkage, known, placed, defined⟩ := e
  dsimp only at object
  cases linkage <;> cases placed <;> cases defined <;>
    simp [initializer, Known.sym, object, sized_isFtn]

/-- Static objects are marked as defined from their first declaration on. -/
theorem defined_object {e : Entity} (object : e.type.isFtn = false)
    (global : (Known.entity e).sym.global = false) (extern_ : (Known.entity e).sym.extern_ = false) :
    { (Known.entity e).sym with defined := true } = (Known.entity e).sym := by
  obtain ⟨linkage, known, placed, defined⟩ := e
  dsimp only at object
  cases linkage with
  | internal => simp [Known.sym, object]
  | external => cases placed <;> simp [Known.sym] at global extern_

theorem next_object {d : Declaration} {e : Entity} (regular : Regular arch (some (.entity e)) d)
    (agree : compatible arch e.type d.type = true) (object : d.type.isFtn = false) :
    (Permits (fun _ => false) arch name (some (.entity e)) d →
      declare arch name (some (Known.entity e).sym) d = some ((next (some (.entity e)) d).sym, [])) ∧
    (∀ sym, declare arch name (some (Known.entity e).sym) d = some (sym, []) →
      Permits (fun _ => false) arch name (some (.entity e)) d) := by
  rw [permits_iff]
  obtain ⟨plain, adds, initialized⟩ := regular
  obtain ⟨same, fits⟩ := adds agree
  have kind := (plain_agree plain agree).1.trans object
  obtain ⟨sym, errors, redeclared, silent, result⟩ := redcl_object plain agree object
  by_cases some_ : errors = []
  · obtain ⟨storage, notTypedef, static, none⟩ := silent.mp some_
    have symbol := result some_
    subst some_ symbol
    have settled := defined_object (e := { e with placed := e.placed || !decide (d.sclass = .EXTERN) }) kind
    have bare (uninit : d.hasinit = false) : identifier arch name (some (Known.entity e).sym) d =
        some ((Known.entity { e with placed := e.placed || !decide (d.sclass = .EXTERN) }).sym,
          d.checks arch name) := by
      have rest : ∀ elems, d.rest ≠ .init elems := by
        intro elems rest
        simp [Declaration.hasinit, rest] at uninit
      unfold identifier
      split <;> simp_all
    cases rest : d.rest with
    | end_ =>
      rw [declare, bare (by simp [Declaration.hasinit, rest])]
      simp [rest, object, funbody, next, same, Declaration.ends,
        Declaration.places, Declaration.hasinit, Declaration.hasbody, agree, fits, storage, notTypedef]
      exact ⟨fun checked _ _ => checked, fun checked => ⟨checked, static, none⟩⟩
    | init elems =>
      obtain ⟨sym, errors, initial, blank, result⟩ :=
        initializer_object (e := { e with placed := e.placed || !decide (d.sclass = .EXTERN) }) kind elems
      have hasinit : d.hasinit = true := by simp [Declaration.hasinit, rest]
      have uninit : d.hasbody = false := by simp [Declaration.hasbody, rest]
      have places := (initialized hasinit).resolve_left (by simp [object])
      have allowed : errors = [] ↔ e.defined = false := by
        rw [blank]
        refine ⟨fun h => h.2.2, fun first => ?_⟩
        rw [first] at places
        cases link : e.linkage with
        | internal => simp [link] at places
        | external =>
          refine ⟨rfl, ?_, first⟩
          by_cases extern_ : d.sclass = .EXTERN
          · simpa [link, extern_] using places
          · simp [extern_]
      constructor
      · rintro ⟨checked, -, -, -, -, -, -, -, -, first⟩
        have silent := allowed.mpr (first (.inl hasinit))
        obtain ⟨-, placed, -⟩ := blank.mp silent
        have symbol := result silent
        subst silent symbol
        simp only [declare, identifier, redeclared, initial, rest, object, checked, funbody, next, same, hasinit,
          uninit, Declaration.ends, Declaration.places, Option.bind_eq_bind, Option.bind_some]
        rw [Bool.or_eq_true] at placed
        rcases placed with placed | placed <;> simp [Known.sym, placed]
      · intro sym' accepted
        have silent : d.checks arch name = [] ∧ errors = [] := by
          simp [declare, identifier, redeclared, initial, rest, funbody] at accepted
          exact ⟨accepted.2.1, accepted.2.2⟩
        refine ⟨silent.1, storage, fun _ => ⟨notTypedef, object⟩, ?_, notTypedef, agree, fits, static,
          fun storage _ => none storage, fun _ => allowed.mp silent.2⟩
        intro declarator names noargs body
        cases body
    | body declarator names noargs =>
      rw [declare, bare (by simp [Declaration.hasinit, rest])]
      constructor
      · rintro ⟨-, -, -, body, -⟩
        have isFtn := (body declarator names noargs rfl).2.1
        rw [object] at isFtn
        cases isFtn
      · intro sym accepted
        simp [rest, funbody, Known.sym, kind] at accepted
  · refine ⟨fun permits => absurd (silent.mpr ?_) some_, fun sym accepted =>
      absurd accepted (declare_error redeclared some_ sym)⟩
    obtain ⟨-, storage, -, -, notTypedef, -, -, static, none, -⟩ := permits
    exact ⟨storage, notTypedef, static, fun kind => none kind object⟩

/-- A function keeps its symbol up to its body. -/
theorem redcl_function {d : Declaration} {e : Entity} (plain : Plain arch e.type d.type)
    (agree : compatible arch e.type d.type = true) (isFtn : d.type.isFtn = true) : ∃ errors,
    redcl arch (Known.entity e).sym d.type d.linked = some ((Known.entity e).sym, errors) ∧
    (errors = [] ↔ (d.sclass ≠ .AUTO ∧ d.sclass ≠ .REGISTER) ∧ d.sclass ≠ .TYPEDEF ∧
      (d.sclass = .STATIC → e.linkage = .internal)) := by
  obtain ⟨kind, style⟩ := plain_agree plain agree
  have decided := equiv_plain _ _ plain
  obtain ⟨linkage, known, placed, defined⟩ := e
  obtain ⟨sclass, type, prop, rest⟩ := d
  dsimp only at *
  rw [agree] at decided
  cases sclass <;> cases linkage <;> cases placed <;>
    simp [redcl, Declaration.linked, Known.sym, decided, style, isFtn]

theorem next_function {d : Declaration} {e : Entity} (regular : Regular arch (some (.entity e)) d)
    (agree : compatible arch e.type d.type = true) (isFtn : d.type.isFtn = true) :
    (Permits (fun _ => false) arch name (some (.entity e)) d →
      declare arch name (some (Known.entity e).sym) d = some ((next (some (.entity e)) d).sym, [])) ∧
    (∀ sym, declare arch name (some (Known.entity e).sym) d = some (sym, []) →
      Permits (fun _ => false) arch name (some (.entity e)) d) := by
  rw [permits_iff]
  obtain ⟨plain, adds, -⟩ := regular
  obtain ⟨same, fits⟩ := adds agree
  have kind := (plain_agree plain agree).1.trans isFtn
  obtain ⟨errors, redeclared, silent⟩ := redcl_function plain agree isFtn
  cases rest : d.rest with
  | end_ =>
    simp [declare, identifier, redeclared, rest, isFtn, funbody, next, same, silent, Declaration.ends,
      Declaration.places, Declaration.hasinit, Declaration.hasbody, agree, fits]
  | init elems =>
    have refused : (initializer (Known.entity e).sym elems).2 ≠ [] := initializer_function kind
    simp [declare, identifier, redeclared, rest, isFtn, Declaration.hasinit, refused]
  | body declarator names noargs =>
    obtain ⟨sym, errors', body, accepted, result⟩ := funbody_function kind declarator names noargs
    have ends : d.ends = Declaration.ends ⟨.NOSCLASS, e.type, true, .body declarator names noargs⟩ := by
      funext tp
      simp only [Declaration.ends, rest]
    simp [declare, identifier, redeclared, rest, isFtn, body, next, same, silent, accepted, ends, result,
      Declaration.places, Declaration.hasinit, Declaration.hasbody, agree, fits]
    constructor
    · intro clean auto register typedef_ proper _ static fresh
      exact ⟨clean, ⟨⟨auto, register⟩, typedef_, static⟩, proper, fresh⟩
    · intro clean auto register typedef_ static proper fresh
      exact ⟨clean, ⟨auto, register⟩, ⟨typedef_, proper⟩, typedef_, static, fresh⟩

/-- A declaration of what is known is accepted where it is permitted, and the symbol follows. -/
theorem declare_spec (k : Option Known) (d : Declaration) (regular : Regular arch k d) :
    (Permits (fun _ => false) arch name k d →
      declare arch name (k.map Known.sym) d = some ((next k d).sym, [])) ∧
    (∀ sym, declare arch name (k.map Known.sym) d = some (sym, []) →
      Permits (fun _ => false) arch name k d) := by
  cases k with
  | none =>
    cases isFtn : d.type.isFtn with
    | true => exact first_function d isFtn
    | false => exact first_object d regular isFtn
  | some known =>
    cases known with
    | typedef_ type =>
      obtain ⟨sym', e, redeclared, some_⟩ := redcl_typedef (d := d) (show (Known.typedef_ type).sym.typeiden = true from rfl) regular
      exact ⟨fun permits => permits.again.elim, fun sym accepted =>
        absurd accepted (declare_error redeclared some_ sym)⟩
    | entity e =>
      cases agree : compatible arch e.type d.type with
      | false =>
        have redeclared : redcl arch (Known.entity e).sym d.type d.linked =
            some ((Known.entity e).sym, [.conflictingTypes]) := redcl_conflict regular.1 agree
        constructor
        · intro permits
          have other := permits.again.2.1
          rw [agree] at other
          cases other
        · intro sym accepted
          exact absurd accepted (declare_error redeclared (by simp) sym)
      | true =>
        cases isFtn : d.type.isFtn with
        | true => exact next_function regular agree isFtn
        | false => exact next_object regular agree isFtn

/-! ## Whole sequences -/

theorem declares_allowed {k : Option Known} {ds : List Declaration} (regulars : Regulars arch name k ds)
    (allowed : Allowed (fun _ => false) arch name k ds) :
    declares arch name (k.map Known.sym) ds = some ((outcome k ds).map Known.sym, []) := by
  induction ds generalizing k with
  | nil => rfl
  | cons d ds ih =>
    obtain ⟨regular, later⟩ := regulars
    obtain ⟨permits, allowed⟩ := allowed
    have declared := (declare_spec k d regular).1 permits
    have rest := ih (later permits) allowed
    rw [Option.map_some] at rest
    simp [declares, declared, rest, outcome]

theorem allowed_of_declares {k : Option Known} {ds : List Declaration} (regulars : Regulars arch name k ds)
    {sym : Option Sym} (accepted : declares arch name (k.map Known.sym) ds = some (sym, [])) :
    Allowed (fun _ => false) arch name k ds := by
  induction ds generalizing k with
  | nil => trivial
  | cons d ds ih =>
    obtain ⟨regular, later⟩ := regulars
    rw [declares] at accepted
    obtain ⟨⟨sym', e⟩, declared, accepted⟩ := Option.bind_eq_some_iff.mp accepted
    obtain ⟨⟨last, e'⟩, rest, same⟩ := Option.bind_eq_some_iff.mp accepted
    obtain ⟨rfl, errors⟩ := Prod.mk.inj (Option.some.inj same)
    obtain ⟨rfl, rfl⟩ := List.append_eq_nil_iff.mp errors
    have permits := (declare_spec k d regular).2 sym' declared
    have one := (declare_spec k d regular).1 permits
    rw [declared] at one
    obtain ⟨rfl, -⟩ := Prod.mk.inj (Option.some.inj one)
    exact ⟨permits, ih (later permits) rest⟩

end

/-- `int` at an address, with the ranks of `amd64-sysv` as far as they matter here. -/
def amd64 : Promotion := ⟨fun addr => if addr = 0x1000 then 3 else 2, 0x1000, 0x1200⟩

def int_ : Ty := .mk 0x1000 (.basic .INT 'I')

/-- `extern int a[2]; int a[2] = {1, 2}; static int a[2];` has one declaration too many. -/
def arrays : List Declaration :=
  [⟨.EXTERN, .mk 0x2000 (.ary int_ 2), true, .end_⟩, ⟨.NOSCLASS, .mk 0x2000 (.ary int_ 2), true, .init 2⟩,
    ⟨.STATIC, .mk 0x2000 (.ary int_ 2), true, .end_⟩]

end Scc.Cc1.Types
