import Scc.Cc1.Types

set_option linter.all false

/-! `eqtype` with EQUIV (types.c), and the compatible and composite types of the language. -/
namespace Scc.Cc1.Types

/-- The ranks of the integer types by their addresses, and the types that promotion names. -/
structure Promotion where
  rank : Nat → Nat
  inttype : Nat
  floattype : Nat

def Pars.length : Pars → Nat
  | .nil => 0
  | .cons _ rest => rest.length + 1

def Ty.isFtn : Ty → Bool
  | .mk _ (.ftn ..) => true
  | _ => false

/-- `prop & TK_R` -/
def Ty.kr : Ty → Bool
  | .mk _ (.ftn _ kr _) => kr
  | _ => false

section
variable (arch : Promotion)

/-- A type that is another one after the default promotions, or an ellipsis. -/
def Ty.promoted : Ty → Bool
  | .mk _ (.basic .ELLIPSIS _) => true
  | .mk addr (.basic .INT _) | .mk addr (.basic .ENUM _) => arch.rank addr < arch.rank arch.inttype
  | .mk addr (.basic .FLOAT _) => addr == arch.floattype
  | _ => false

def Pars.promoted : Pars → Bool
  | .nil => false
  | .cons par rest => par.promoted arch || rest.promoted

mutual

/-- `none` where `eqfuns` reads behind the parameters, for which no null pointer is stored. -/
def equiv : Ty → Ty → Option Bool
  | .mk addr₁ tp₁, .mk addr₂ tp₂ => if addr₁ == addr₂ then some true else equivshape tp₁ tp₂
termination_by structural type => type

def equivshape : Shape → Shape → Option Bool
  | .basic op₁ letter₁, .basic op₂ letter₂ =>
    some (op₁ == op₂ && match op₁ with
      | .INT | .FLOAT => letter₁ == letter₂
      | _ => false)
  | .aggregate op₁ letter₁ tag₁ fields₁, .aggregate op₂ letter₂ tag₂ fields₂ =>
    if op₁ == op₂ && letter₁ == letter₂ then
      if tag₁.isSome || tag₂.isSome then some (tag₁ == tag₂) else equivfields fields₁ fields₂
    else some false
  | .ptr type₁, .ptr type₂ => equiv type₁ type₂
  | .ary type₁ nelem₁, .ary type₂ nelem₂ =>
    if nelem₁ == 0 || nelem₂ == 0 || nelem₁ == nelem₂ then equiv type₁ type₂ else some false
  | .ftn type₁ kr₁ pars₁, .ftn type₂ kr₂ pars₂ =>
    match kr₁, kr₂ with
    | false, false =>
      if pars₁.length == pars₂.length then
        match equivpars pars₁ pars₂ with
        | some true => equiv type₁ type₂
        | other => other
      else some false
    | true, true => equiv type₁ type₂
    | true, false => if pars₂.promoted arch then some false else none
    | false, true => if pars₁.promoted arch then some false else none
  | _, _ => some false

def equivpars : Pars → Pars → Option Bool
  | .cons p₁ rest₁, .cons p₂ rest₂ =>
    match equiv p₁ p₂ with
    | some true => equivpars rest₁ rest₂
    | other => other
  | _, _ => some true

def equivfields : Fields → Fields → Option Bool
  | .nil, .nil => some true
  | .cons name₁ type₁ rest₁, .cons name₂ type₂ rest₂ =>
    if name₁ == name₂ then
      match equiv type₁ type₂ with
      | some true => equivfields rest₁ rest₂
      | other => other
    else some false
  | _, _ => some false

end

/-! The compatible types of the language. Types that are not derived are told apart by their objects. -/

/-- An enumeration is compatible with the type of its constants. -/
def enumeration : Ty → Ty → Bool
  | .mk _ (.basic .ENUM _), .mk addr _ => addr == arch.inttype
  | _, _ => false

mutual

def compatible : Ty → Ty → Bool
  | .mk addr₁ tp₁, .mk addr₂ tp₂ =>
    addr₁ == addr₂ || enumeration arch (.mk addr₁ tp₁) (.mk addr₂ tp₂) ||
      enumeration arch (.mk addr₂ tp₂) (.mk addr₁ tp₁) || compatibleshape tp₁ tp₂
termination_by structural type => type

def compatibleshape : Shape → Shape → Bool
  | .ptr type₁, .ptr type₂ => compatible type₁ type₂
  | .ary type₁ nelem₁, .ary type₂ nelem₂ =>
    (nelem₁ == 0 || nelem₂ == 0 || nelem₁ == nelem₂) && compatible type₁ type₂
  | .ftn type₁ kr₁ pars₁, .ftn type₂ kr₂ pars₂ =>
    compatible type₁ type₂ &&
      match kr₁, kr₂ with
      | false, false => compatiblepars pars₁ pars₂
      | true, true => true
      | true, false => !pars₂.promoted arch
      | false, true => !pars₁.promoted arch
  | _, _ => false

def compatiblepars : Pars → Pars → Bool
  | .nil, .nil => true
  | .cons p₁ rest₁, .cons p₂ rest₂ => compatible p₁ p₂ && compatiblepars rest₁ rest₂
  | _, _ => false

end

end

mutual

/-- The composite of compatible types, in the object of the first. -/
def composite : Ty → Ty → Ty
  | .mk addr₁ tp₁, .mk addr₂ tp₂ =>
    .mk addr₁ (if addr₁ == addr₂ then tp₁ else compositeshape tp₁ tp₂)
termination_by structural type => type

def compositeshape : Shape → Shape → Shape
  | .ptr type₁, .ptr type₂ => .ptr (composite type₁ type₂)
  | .ary type₁ nelem₁, .ary type₂ nelem₂ =>
    .ary (composite type₁ type₂) (if nelem₁ == 0 then nelem₂ else nelem₁)
  | .ftn type₁ kr₁ pars₁, .ftn type₂ kr₂ pars₂ =>
    .ftn (composite type₁ type₂) (kr₁ && kr₂)
      (match kr₁, kr₂ with
      | true, false => pars₂
      | false, false => compositepars pars₁ pars₂
      | _, true => pars₁)
  | tp₁, _ => tp₁

def compositepars : Pars → Pars → Pars
  | .cons p₁ rest₁, .cons p₂ rest₂ => .cons (composite p₁ p₂) (compositepars rest₁ rest₂)
  | pars₁, _ => pars₁

end

/-! Where `eqtype` decides the compatible types. -/

section
variable (arch : Promotion)

mutual

/-- No old-style function meets a prototype that would agree with it, no enumeration an integer, no
arithmetic type another one of its letter, and no unnamed structure another one with its fields. What
is at one address is one type. -/
def Plain : Ty → Ty → Prop
  | .mk addr₁ tp₁, .mk addr₂ tp₂ =>
    (addr₁ = addr₂ ∧ tp₁ = tp₂) ∨
      (addr₁ ≠ addr₂ ∧ enumeration arch (.mk addr₁ tp₁) (.mk addr₂ tp₂) = false ∧
        enumeration arch (.mk addr₂ tp₂) (.mk addr₁ tp₁) = false ∧ Plainshape tp₁ tp₂)
termination_by structural type => type

def Plainshape : Shape → Shape → Prop
  | .ptr type₁, .ptr type₂ => Plain type₁ type₂
  | .ary type₁ nelem₁, .ary type₂ nelem₂ =>
    (nelem₁ == 0 || nelem₂ == 0 || nelem₁ == nelem₂) = true → Plain type₁ type₂
  | .ftn type₁ kr₁ pars₁, .ftn type₂ kr₂ pars₂ =>
    match kr₁, kr₂ with
    | false, false => pars₁.length = pars₂.length →
      Plainpars pars₁ pars₂ ∧ (compatiblepars arch pars₁ pars₂ = true → Plain type₁ type₂)
    | true, true => Plain type₁ type₂
    | true, false => pars₂.promoted arch = true
    | false, true => pars₁.promoted arch = true
  | .basic op₁ letter₁, .basic op₂ letter₂ =>
    equivshape arch (.basic op₁ letter₁) (.basic op₂ letter₂) = some false
  | .aggregate op₁ letter₁ tag₁ fields₁, .aggregate op₂ letter₂ tag₂ fields₂ =>
    equivshape arch (.aggregate op₁ letter₁ tag₁ fields₁) (.aggregate op₂ letter₂ tag₂ fields₂) = some false
  | _, _ => True

def Plainpars : Pars → Pars → Prop
  | .cons p₁ rest₁, .cons p₂ rest₂ =>
    Plain p₁ p₂ ∧ (compatible arch p₁ p₂ = true → Plainpars rest₁ rest₂)
  | _, _ => True

end

end

/-! On plain types, `eqtype` decides the compatible ones. -/

variable {arch : Promotion}

theorem compatiblepars_length : ∀ p p' : Pars, compatiblepars arch p p' = true → p.length = p'.length
  | .nil, .nil, _ => rfl
  | .cons _ rest, .cons _ rest', agree => by
    rw [compatiblepars, Bool.and_eq_true] at agree
    rw [Pars.length, Pars.length, compatiblepars_length rest rest' agree.2]
  | .nil, .cons _ _, agree => by simp [compatiblepars] at agree
  | .cons _ _, .nil, agree => by simp [compatiblepars] at agree

mutual

theorem equiv_plain (t t' : Ty) (plain : Plain arch t t') :
    equiv arch t t' = some (compatible arch t t') := by
  cases t with
  | mk addr s =>
    cases t' with
    | mk addr' s' =>
      by_cases same : addr = addr'
      · simp [equiv, compatible, same]
      · rw [Plain] at plain
        obtain ⟨-, left, right, shape⟩ := plain.resolve_left fun one => same one.1
        have inner := equivshape_plain s s' shape
        simp [equiv, compatible, same, left, right, inner]

theorem equivshape_plain (s s' : Shape) (plain : Plainshape arch s s') :
    equivshape arch s s' = some (compatibleshape arch s s') := by
  cases s with
  | basic op letter =>
    cases s' with
    | basic op' letter' =>
      rw [Plainshape] at plain
      rw [plain, compatibleshape]
      all_goals simp
    | _ => simp [equivshape, compatibleshape]
  | aggregate op letter tag fields =>
    cases s' with
    | aggregate op' letter' tag' fields' =>
      rw [Plainshape] at plain
      rw [plain, compatibleshape]
      all_goals simp
    | _ => simp [equivshape, compatibleshape]
  | ptr type =>
    cases s' with
    | ptr type' =>
      rw [Plainshape] at plain
      rw [equivshape, compatibleshape, equiv_plain type type' plain]
    | _ => simp [equivshape, compatibleshape]
  | ary type nelem =>
    cases s' with
    | ary type' nelem' =>
      rw [Plainshape] at plain
      rw [equivshape, compatibleshape]
      cases sizes : nelem == 0 || nelem' == 0 || nelem == nelem' with
      | true => rw [equiv_plain type type' (plain sizes)]; rfl
      | false => rfl
    | _ => simp [equivshape, compatibleshape]
  | ftn type kr pars =>
    cases s' with
    | ftn type' kr' pars' =>
      cases kr with
      | false =>
        cases kr' with
        | false =>
          simp only [Plainshape] at plain
          simp only [equivshape, compatibleshape]
          by_cases length : pars.length = pars'.length
          · obtain ⟨inner, base⟩ := plain length
            rw [if_pos (beq_iff_eq.mpr length), equivpars_plain pars pars' length inner]
            cases agree : compatiblepars arch pars pars' with
            | true => simp [equiv_plain type type' (base agree)]
            | false => simp
          · have other : compatiblepars arch pars pars' = false := by
              rw [← Bool.not_eq_true]
              exact fun agree => length (compatiblepars_length pars pars' agree)
            simp [length, other]
        | true =>
          simp only [Plainshape] at plain
          simp [equivshape, compatibleshape, plain]
      | true =>
        cases kr' with
        | false =>
          simp only [Plainshape] at plain
          simp [equivshape, compatibleshape, plain]
        | true =>
          simp only [Plainshape] at plain
          simp [equivshape, compatibleshape, equiv_plain type type' plain]
    | _ => simp [equivshape, compatibleshape]

theorem equivpars_plain (p p' : Pars) (length : p.length = p'.length) (plain : Plainpars arch p p') :
    equivpars arch p p' = some (compatiblepars arch p p') := by
  cases p with
  | nil =>
    cases p' with
    | nil => simp [equivpars, compatiblepars]
    | cons par' rest' => simp [Pars.length] at length
  | cons par rest =>
    cases p' with
    | nil => simp [Pars.length] at length
    | cons par' rest' =>
      rw [Plainpars] at plain
      rw [equivpars, compatiblepars, equiv_plain par par' plain.1]
      cases agree : compatible arch par par' with
      | true =>
        simp only [Pars.length] at length
        simp [equivpars_plain rest rest' (by omega) (plain.2 agree)]
      | false => simp

end

/-- Compatible types are both functions, in one style, or none is. -/
theorem plain_agree {t t' : Ty} (plain : Plain arch t t') (agree : compatible arch t t' = true) :
    t.isFtn = t'.isFtn ∧ t.kr = t'.kr := by
  obtain ⟨addr, s⟩ := t
  obtain ⟨addr', s'⟩ := t'
  rw [Plain] at plain
  rcases plain with ⟨rfl, rfl⟩ | ⟨apart, left, right, plain⟩
  · exact ⟨rfl, rfl⟩
  · simp only [compatible, beq_eq_false_iff_ne.mpr apart, left, right, Bool.false_or] at agree
    cases s <;> cases s' <;> simp_all [compatibleshape, Ty.isFtn, Ty.kr]
    rename_i kr _ _ kr' _
    cases kr <;> cases kr' <;> simp_all [Plainshape]

end Scc.Cc1.Types
