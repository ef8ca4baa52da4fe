import Mathlib.Tactic.FinCases
import Scc.Cc1.Equality

set_option linter.all false

/-! `eqtype` comes to an answer, the same in both directions, where it stays inside the types. -/
namespace Scc.Cc1.Equality

section
attribute [local simp] eqshape eqpars eqfields agreeshape agreepars agreefields Insideshape Insidepars Insidefields
end

section
variable {first second : Option Bool} {a b : Bool}

theorem andThen_some (one : first = some a) (two : a = true → second = some b) :
    andThen first second = some (a && b) := by
  rw [one]
  cases a with
  | false => rfl
  | true => exact two rfl

theorem andThen_true : andThen first second = some true ↔ first = some true ∧ second = some true := by
  rcases first with _ | _ | _ <;> simp [andThen]

theorem andThen_ne_none : andThen first second ≠ none ↔ first ≠ none ∧ (first = some true → second ≠ none) := by
  rcases first with _ | _ | _ <;> simp [andThen]

end

variable {m : Memory} {equiv : Bool}

/-! What is in memory. -/

theorem holds_append {nodes nodes' : List (Nat × Shape)} :
    m.Holds (nodes ++ nodes') ↔ m.Holds nodes ∧ m.Holds nodes' := List.forall_mem_append

theorem holds_mk {addr : Nat} {s : Shape} :
    m.Holds (Ty.mk addr s).nodes ↔ m.type addr = some s ∧ m.Holds s.nodes := by
  rw [Ty.nodes]
  exact List.forall_mem_cons

/-- There is one object for the ellipsis. -/
theorem ellipsis_apart {addr addr' : Nat} {s s' : Shape} (apart : addr ≠ addr') (one : m.type addr = some s)
    (two : m.type addr' = some s') : s.ellipsis = true → s'.ellipsis = true → False := by
  intro left right
  exact apart ((m.ellipsis addr s one left).trans (m.ellipsis addr' s' two right).symm)

/-! The answer that is meant. -/

theorem eqpromoted_eq : ∀ pars : Pars, eqpromoted m pars = if pars.promoted m then some false else none
  | .nil => rfl
  | .cons par rest => by
    rw [eqpromoted, Pars.promoted, eqpromoted_eq rest]
    cases par.promoted m <;> simp

theorem agreepars_length : ∀ {p p' : Pars}, agreepars m equiv p p' = true → p.length = p'.length
  | .nil, .nil, _ => rfl
  | .cons _ rest, .cons _ rest', same => by
    rw [agreepars, Bool.and_eq_true] at same
    rw [Pars.length, Pars.length, agreepars_length same.2]
  | .nil, .cons _ _, same => by simp [agreepars] at same
  | .cons _ _, .nil, same => by simp [agreepars] at same

theorem agreefields_length : ∀ {f f' : Fields}, agreefields m equiv f f' = true → f.length = f'.length
  | .nil, .nil, _ => rfl
  | .cons _ _ rest, .cons _ _ rest', same => by
    rw [agreefields, Bool.and_eq_true] at same
    rw [Fields.length, Fields.length, agreefields_length same.2]
  | .nil, .cons .., same => by simp [agreefields] at same
  | .cons .., .nil, same => by simp [agreefields] at same

mutual

theorem agree_comm : ∀ t t' : Ty, agree m equiv t t' = agree m equiv t' t
  | .mk addr tp, .mk addr' tp' => by
    rw [agree, agree, agreeshape_comm tp tp', Bool.beq_comm]
termination_by structural t => t

theorem agreeshape_comm : ∀ s s' : Shape, agreeshape m equiv s s' = agreeshape m equiv s' s
  | .basic tp, s' => by
    cases s' with
    | basic tp' =>
      rw [agreeshape, agreeshape]
      by_cases same : tp.op = tp'.op
      · rw [same, Bool.beq_comm (a := tp.letter)]
      · rw [beq_eq_false_iff_ne.mpr same, beq_eq_false_iff_ne.mpr (Ne.symm same)]
        rfl
    | _ => simp [agreeshape]
  | .aggregate union letter tag fields, s' => by
    cases s' with
    | aggregate union' letter' tag' fields' =>
      rw [agreeshape, agreeshape, agreefields_comm fields fields', Bool.or_comm (tagged m tag)]
      simp only [Bool.beq_comm (a := union), Bool.beq_comm (a := letter), Bool.beq_comm (a := tag)]
    | _ => simp [agreeshape]
  | .ptr type, s' => by
    cases s' with
    | ptr type' => rw [agreeshape, agreeshape, agree_comm type type']
    | _ => simp [agreeshape]
  | .ary type nelem, s' => by
    cases s' with
    | ary type' nelem' =>
      rw [agreeshape, agreeshape, agree_comm type type', Bool.or_comm (nelem == 0) (nelem' == 0),
        Bool.beq_comm (a := nelem) (b := nelem')]
    | _ => simp [agreeshape]
  | .ftn type kr pars, s' => by
    cases s' with
    | ftn type' kr' pars' =>
      cases kr <;> cases kr' <;>
        simp only [agreeshape, agree_comm type type', agreepars_comm pars pars']
    | _ => simp [agreeshape]
termination_by structural t => t

theorem agreepars_comm : ∀ p p' : Pars, agreepars m equiv p p' = agreepars m equiv p' p
  | .nil, .nil => rfl
  | .nil, .cons .. => by simp [agreepars]
  | .cons .., .nil => by simp [agreepars]
  | .cons p rest, .cons p' rest' => by
    rw [agreepars, agreepars, agree_comm p p', agreepars_comm rest rest']
termination_by structural t => t

theorem agreefields_comm : ∀ f f' : Fields, agreefields m equiv f f' = agreefields m equiv f' f
  | .nil, .nil => rfl
  | .nil, .cons .. => by simp [agreefields]
  | .cons .., .nil => by simp [agreefields]
  | .cons name type rest, .cons name' type' rest' => by
    rw [agreefields, agreefields, agree_comm type type', agreefields_comm rest rest', Bool.beq_comm (a := name)]
termination_by structural t => t

end

/-! Where the comparison stays inside, it gives that answer. -/

mutual

theorem eqtype_inside : ∀ t t' : Ty, m.Holds t.nodes → m.Holds t'.nodes → Inside m equiv t t' →
    eqtype m equiv t t' = some (agree m equiv t t')
  | .mk addr s, .mk addr' s', held, held', inside => by
    rw [holds_mk] at held held'
    rw [eqtype, agree]
    by_cases same : addr = addr'
    · simp [same]
    · have shape := eqshape_inside s s' held.2 held'.2 (ellipsis_apart same held.1 held'.1) (inside same)
      rw [if_neg (by simpa using same), shape, beq_eq_false_iff_ne.mpr same, Bool.false_or]
termination_by structural t => t

theorem eqshape_inside : ∀ s s' : Shape, m.Holds s.nodes → m.Holds s'.nodes →
    (s.ellipsis = true → s'.ellipsis = true → False) → Insideshape m equiv s s' →
    eqshape m equiv s s' = some (agreeshape m equiv s s')
  | .basic tp, s', _, _, apart, _ => by
    cases s' with
    | basic tp' =>
      obtain ⟨op, letter, rank, size, tsigned⟩ := tp
      obtain ⟨op', letter', rank', size', tsigned'⟩ := tp'
      simp only [eqshape, agreeshape]
      by_cases same : op = op'
      · subst same
        cases op
        case ELLIPSIS => exact (apart rfl rfl).elim
        all_goals simp
      · simp [same]
    | _ => simp [eqshape, agreeshape]
  | .aggregate union letter tag fields, s', held, held', _, inside => by
    cases s' with
    | aggregate union' letter' tag' fields' =>
      rw [Insideshape] at inside
      by_cases kind : union = union' ∧ letter = letter'
      · obtain ⟨rfl, rfl⟩ := kind
        obtain ⟨alive, alive', inside⟩ := inside rfl rfl
        obtain ⟨named, name⟩ := Option.ne_none_iff_exists'.mp alive
        obtain ⟨named', name'⟩ := Option.ne_none_iff_exists'.mp alive'
        simp only [tagged, name, name'] at inside
        simp only [eqshape, agreeshape, tagged, name, name', bne_self_eq_false, Bool.or_self,
          Bool.false_eq_true, if_false, BEq.rfl, Bool.true_and]
        cases named with
        | true => simp
        | false =>
          cases named' with
          | true => simp
          | false =>
            by_cases length : fields.length = fields'.length
            · have members := eqfields_inside fields fields' held held' length (inside rfl rfl length)
              simp [length, members]
            · have other : agreefields m equiv fields fields' = false := by
                rw [← Bool.not_eq_true]
                exact fun agreed => length (agreefields_length agreed)
              simp [length, other]
      · have other : (union == union' && letter == letter') = false := by
          rw [← Bool.not_eq_true, Bool.and_eq_true, beq_iff_eq, beq_iff_eq]
          exact kind
        have apart : (union != union' || letter != letter') = true := by
          rw [bne, bne, ← Bool.not_and, other]
          rfl
        simp only [eqshape, agreeshape, apart, other, if_true, Bool.false_and]
    | _ => simp [eqshape, agreeshape]
  | .ptr type, s', held, held', _, inside => by
    cases s' with
    | ptr type' =>
      rw [Insideshape] at inside
      rw [eqshape, agreeshape, eqtype_inside type type' held held' inside]
    | _ => simp [eqshape, agreeshape]
  | .ary type nelem, s', held, held', _, inside => by
    cases s' with
    | ary type' nelem' =>
      rw [Insideshape] at inside
      rw [eqshape, agreeshape]
      cases sizes : equiv && (nelem == 0 || nelem' == 0) || nelem == nelem' with
      | true =>
        have base := eqtype_inside type type' held held' (inside sizes)
        rw [base, Bool.true_and]
        rcases Bool.or_eq_true_iff.mp sizes with open_ | same
        · rw [if_pos open_]
        · simp [beq_iff_eq.mp same]
      | false =>
        rw [Bool.or_eq_false_iff] at sizes
        rw [sizes.1, bne, sizes.2]
        rfl
    | _ => simp [eqshape, agreeshape]
  | .ftn type kr pars, s', held, held', _, inside => by
    cases s' with
    | ftn type' kr' pars' =>
      obtain ⟨heldtype, heldpars⟩ := holds_append.mp held
      obtain ⟨heldtype', heldpars'⟩ := holds_append.mp held'
      cases kr <;> cases kr' <;> simp only [Insideshape] at inside <;> simp only [eqshape, agreeshape]
      case false.false =>
        by_cases length : pars.length = pars'.length
        · obtain ⟨inner, base⟩ := inside length
          rw [if_neg (by simpa using length)]
          apply andThen_some (eqpars_inside pars pars' heldpars heldpars' length inner)
          exact fun agreed => eqtype_inside type type' heldtype heldtype' (base agreed)
        · have other : agreepars m equiv pars pars' = false := by
            rw [← Bool.not_eq_true]
            exact fun agreed => length (agreepars_length agreed)
          simp [length, other]
      case false.true =>
        cases equiv with
        | false => rfl
        | true => simp [eqpromoted_eq, inside rfl, andThen]
      case true.false =>
        cases equiv with
        | false => rfl
        | true => simp [eqpromoted_eq, inside rfl, andThen]
      case true.true => rw [eqtype_inside type type' heldtype heldtype' inside, Bool.true_and]
    | _ => simp [eqshape, agreeshape]
termination_by structural t => t

theorem eqpars_inside : ∀ p p' : Pars, m.Holds p.nodes → m.Holds p'.nodes → p.length = p'.length →
    Insidepars m equiv p p' → eqpars m equiv p p' = some (agreepars m equiv p p')
  | .nil, .nil, _, _, _, _ => rfl
  | .cons p rest, .cons p' rest', held, held', length, inside => by
    obtain ⟨first, later⟩ := holds_append.mp held
    obtain ⟨first', later'⟩ := holds_append.mp held'
    rw [Insidepars] at inside
    rw [eqpars, agreepars]
    apply andThen_some (eqtype_inside p p' first first' inside.1)
    exact fun agreed => eqpars_inside rest rest' later later' (Nat.succ.inj length) (inside.2 agreed)
termination_by structural t => t

theorem eqfields_inside : ∀ f f' : Fields, m.Holds f.nodes → m.Holds f'.nodes → f.length = f'.length →
    Insidefields m equiv f f' → eqfields m equiv f f' = some (agreefields m equiv f f')
  | .nil, .nil, _, _, _, _ => rfl
  | .cons name type rest, .cons name' type' rest', held, held', length, inside => by
    obtain ⟨first, later⟩ := holds_append.mp held
    obtain ⟨first', later'⟩ := holds_append.mp held'
    rw [Insidefields] at inside
    obtain ⟨there, there', inside⟩ := inside
    cases name with
    | none => exact (there rfl).elim
    | some name =>
      cases name' with
      | none => exact (there' rfl).elim
      | some name' =>
        rw [eqfields, agreefields]
        by_cases same : name = name'
        · subst same
          obtain ⟨inner, members⟩ := inside rfl
          simp only [bne_self_eq_false, Bool.false_eq_true, if_false, BEq.rfl, Bool.true_and]
          apply andThen_some (eqtype_inside type type' first first' inner)
          exact fun agreed => eqfields_inside rest rest' later later' (Nat.succ.inj length) (members agreed)
        · simp [same]
termination_by structural t => t

end

/-! The other direction of a comparison that stays inside. -/

mutual

theorem Inside.symm : ∀ t t' : Ty, Inside m equiv t t' → Inside m equiv t' t
  | .mk addr s, .mk addr' s', inside => by
    rw [Inside] at inside ⊢
    exact fun apart => Insideshape.symm s s' (inside (Ne.symm apart))
termination_by structural t => t

theorem Insideshape.symm : ∀ s s' : Shape, Insideshape m equiv s s' → Insideshape m equiv s' s
  | .basic .., s', _ => by cases s' <;> simp [Insideshape]
  | .aggregate union letter tag fields, s', inside => by
    cases s' with
    | aggregate union' letter' tag' fields' =>
      rw [Insideshape] at inside ⊢
      intro kind same
      obtain ⟨alive, alive', inside⟩ := inside kind.symm same.symm
      refine ⟨alive', alive, fun unnamed' unnamed length => ?_⟩
      exact Insidefields.symm fields fields' (inside unnamed unnamed' length.symm)
    | _ => simp [Insideshape]
  | .ptr type, s', inside => by
    cases s' with
    | ptr type' =>
      rw [Insideshape] at inside ⊢
      exact Inside.symm type type' inside
    | _ => simp [Insideshape]
  | .ary type nelem, s', inside => by
    cases s' with
    | ary type' nelem' =>
      rw [Insideshape] at inside ⊢
      rw [Bool.or_comm (nelem' == 0) (nelem == 0), Bool.beq_comm (a := nelem') (b := nelem)]
      exact fun sizes => Inside.symm type type' (inside sizes)
    | _ => simp [Insideshape]
  | .ftn type kr pars, s', inside => by
    cases s' with
    | ftn type' kr' pars' =>
      cases kr <;> cases kr' <;> simp only [Insideshape] at inside ⊢
      case false.false =>
        intro length
        obtain ⟨inner, base⟩ := inside length.symm
        refine ⟨Insidepars.symm pars pars' inner, fun agreed => ?_⟩
        exact Inside.symm type type' (base (agreepars_comm pars pars' ▸ agreed))
      case false.true => exact inside
      case true.false => exact inside
      case true.true => exact Inside.symm type type' inside
    | _ => simp [Insideshape]
termination_by structural t => t

theorem Insidepars.symm : ∀ p p' : Pars, Insidepars m equiv p p' → Insidepars m equiv p' p
  | .nil, p', _ => by cases p' <;> simp [Insidepars]
  | .cons .., .nil, _ => by simp [Insidepars]
  | .cons p rest, .cons p' rest', inside => by
    rw [Insidepars] at inside ⊢
    refine ⟨Inside.symm p p' inside.1, fun agreed => ?_⟩
    exact Insidepars.symm rest rest' (inside.2 (agree_comm p p' ▸ agreed))
termination_by structural t => t

theorem Insidefields.symm : ∀ f f' : Fields, Insidefields m equiv f f' → Insidefields m equiv f' f
  | .nil, f', _ => by cases f' <;> simp [Insidefields]
  | .cons .., .nil, _ => by simp [Insidefields]
  | .cons name type rest, .cons name' type' rest', inside => by
    rw [Insidefields] at inside ⊢
    obtain ⟨there, there', inside⟩ := inside
    refine ⟨there', there, fun same => ?_⟩
    obtain ⟨inner, members⟩ := inside same.symm
    refine ⟨Inside.symm type type' inner, fun agreed => ?_⟩
    exact Insidefields.symm rest rest' (members (agree_comm type type' ▸ agreed))
termination_by structural t => t

end

/-! A comparison that comes to an answer in both directions stays inside. -/

/-- A part of a comparison with an answer that has one too. -/
theorem answer_agree {t t' : Ty} (held : m.Holds t.nodes) (held' : m.Holds t'.nodes) (inside : Inside m equiv t t')
    (agreed : agree m equiv t t' = true) : eqtype m equiv t t' = some true ∧ eqtype m equiv t' t = some true := by
  rw [eqtype_inside t t' held held' inside, eqtype_inside t' t held' held (Inside.symm t t' inside), agree_comm t' t,
    agreed]
  exact ⟨rfl, rfl⟩

mutual

theorem inside_eqtype : ∀ t t' : Ty, m.Holds t.nodes → m.Holds t'.nodes →
    eqtype m equiv t t' ≠ none → eqtype m equiv t' t ≠ none → Inside m equiv t t'
  | .mk addr s, .mk addr' s', held, held', there, back => by
    rw [holds_mk] at held held'
    rw [Inside]
    intro apart
    rw [eqtype, if_neg (by simpa using apart)] at there
    rw [eqtype, if_neg (by simpa using Ne.symm apart)] at back
    exact inside_eqshape s s' held.2 held'.2 there back
termination_by structural t => t

theorem inside_eqshape : ∀ s s' : Shape, m.Holds s.nodes → m.Holds s'.nodes →
    eqshape m equiv s s' ≠ none → eqshape m equiv s' s ≠ none → Insideshape m equiv s s'
  | .basic .., s', _, _, _, _ => by cases s' <;> simp [Insideshape]
  | .aggregate union letter tag fields, s', held, held', there, back => by
    cases s' with
    | aggregate union' letter' tag' fields' =>
      rw [Insideshape]
      rintro rfl rfl
      simp only [eqshape, bne_self_eq_false, Bool.or_self, Bool.false_eq_true, if_false] at there back
      have alive : m.named tag ≠ none := by
        intro freed
        simp [freed] at there
      have alive' : m.named tag' ≠ none := by
        intro freed
        simp [freed] at back
      refine ⟨alive, alive', fun unnamed unnamed' length => ?_⟩
      obtain ⟨named, name⟩ := Option.ne_none_iff_exists'.mp alive
      obtain ⟨named', name'⟩ := Option.ne_none_iff_exists'.mp alive'
      simp only [tagged, name, name'] at unnamed unnamed'
      have plain : named = false := by simpa using unnamed
      have plain' : named' = false := by simpa using unnamed'
      subst plain plain'
      simp only [name, name', length, bne_self_eq_false, Bool.false_eq_true, if_false] at there back
      exact inside_eqfields fields fields' held held' there back
    | _ => simp [Insideshape]
  | .ptr type, s', held, held', there, back => by
    cases s' with
    | ptr type' =>
      rw [eqshape] at there back
      rw [Insideshape]
      exact inside_eqtype type type' held held' there back
    | _ => simp [Insideshape]
  | .ary type nelem, s', held, held', there, back => by
    cases s' with
    | ary type' nelem' =>
      rw [Insideshape]
      intro sizes
      have base : ∀ {type type' : Ty} {nelem nelem' : Int},
          (equiv && (nelem == 0 || nelem' == 0) || nelem == nelem') = true →
          eqshape m equiv (.ary type nelem) (.ary type' nelem') = eqtype m equiv type type' := by
        intro type type' nelem nelem' sizes
        rw [eqshape]
        rcases Bool.or_eq_true_iff.mp sizes with open_ | same
        · rw [if_pos open_]
        · simp [beq_iff_eq.mp same]
      rw [base sizes] at there
      rw [Bool.or_comm (nelem == 0) (nelem' == 0), Bool.beq_comm (a := nelem) (b := nelem')] at sizes
      rw [base sizes] at back
      exact inside_eqtype type type' held held' there back
    | _ => simp [Insideshape]
  | .ftn type kr pars, s', held, held', there, back => by
    cases s' with
    | ftn type' kr' pars' =>
      obtain ⟨heldtype, heldpars⟩ := holds_append.mp held
      obtain ⟨heldtype', heldpars'⟩ := holds_append.mp held'
      cases kr <;> cases kr' <;> simp only [eqshape] at there back <;> simp only [Insideshape]
      case false.false =>
        intro length
        rw [if_neg (by simpa using length)] at there
        rw [if_neg (by simpa using length.symm)] at back
        rw [andThen_ne_none] at there back
        have inner := inside_eqpars pars pars' heldpars heldpars' length there.1 back.1
        refine ⟨inner, fun agreed => ?_⟩
        have answer := eqpars_inside pars pars' heldpars heldpars' length inner
        have answer' := eqpars_inside pars' pars heldpars' heldpars length.symm (Insidepars.symm pars pars' inner)
        rw [agreepars_comm pars' pars] at answer'
        rw [agreed] at answer answer'
        exact inside_eqtype type type' heldtype heldtype' (there.2 answer) (back.2 answer')
      case true.true => exact inside_eqtype type type' heldtype heldtype' there back
      all_goals
        rintro rfl
        simp only [Bool.not_true, Bool.false_eq_true, if_false, andThen_ne_none, eqpromoted_eq] at there
        by_contra goes_on
        exact there.1 (if_neg goes_on)
    | _ => simp [Insideshape]
termination_by structural t => t

theorem inside_eqpars : ∀ p p' : Pars, m.Holds p.nodes → m.Holds p'.nodes → p.length = p'.length →
    eqpars m equiv p p' ≠ none → eqpars m equiv p' p ≠ none → Insidepars m equiv p p'
  | .nil, .nil, _, _, _, _, _ => by simp [Insidepars]
  | .cons p rest, .cons p' rest', held, held', length, there, back => by
    obtain ⟨first, later⟩ := holds_append.mp held
    obtain ⟨first', later'⟩ := holds_append.mp held'
    rw [eqpars, andThen_ne_none] at there back
    rw [Insidepars]
    have inner := inside_eqtype p p' first first' there.1 back.1
    refine ⟨inner, fun agreed => ?_⟩
    obtain ⟨answer, answer'⟩ := answer_agree first first' inner agreed
    exact inside_eqpars rest rest' later later' (Nat.succ.inj length) (there.2 answer) (back.2 answer')
termination_by structural t => t

theorem inside_eqfields : ∀ f f' : Fields, m.Holds f.nodes → m.Holds f'.nodes →
    eqfields m equiv f f' ≠ none → eqfields m equiv f' f ≠ none → Insidefields m equiv f f'
  | .nil, f', _, _, _, _ => by cases f' <;> simp [Insidefields]
  | .cons .., .nil, _, _, _, _ => by simp [Insidefields]
  | .cons name type rest, .cons name' type' rest', held, held', there, back => by
    obtain ⟨first, later⟩ := holds_append.mp held
    obtain ⟨first', later'⟩ := holds_append.mp held'
    cases name with
    | none => exact (there (by simp [eqfields])).elim
    | some name =>
      cases name' with
      | none => exact (there (by simp [eqfields])).elim
      | some name' =>
        rw [Insidefields]
        refine ⟨Option.some_ne_none _, Option.some_ne_none _, fun same => ?_⟩
        cases same
        simp only [eqfields, bne_self_eq_false, Bool.false_eq_true, if_false, andThen_ne_none] at there back
        have inner := inside_eqtype type type' first first' there.1 back.1
        refine ⟨inner, fun agreed => ?_⟩
        obtain ⟨answer, answer'⟩ := answer_agree first first' inner agreed
        exact inside_eqfields rest rest' later later' (there.2 answer) (back.2 answer')
termination_by structural t => t

end

/-! The first mode is transitive. -/

theorem eqshape_aggregate {union union' : Bool} {letter letter' : Char} {tag tag' : Nat} {fields fields' : Fields} :
    eqshape m equiv (.aggregate union letter tag fields) (.aggregate union' letter' tag' fields') = some true ↔
      union = union' ∧ letter = letter' ∧ (m.named tag = some true ∧ tag = tag' ∨
        m.named tag = some false ∧ m.named tag' = some false ∧ fields.length = fields'.length ∧
          eqfields m equiv fields fields' = some true) := by
  by_cases kind : union = union' ∧ letter = letter'
  · obtain ⟨rfl, rfl⟩ := kind
    simp only [eqshape, bne_self_eq_false, Bool.or_self, Bool.false_eq_true, if_false, true_and]
    cases name : m.named tag with
    | none => simp
    | some named =>
      cases named with
      | true => simp
      | false =>
        cases name' : m.named tag' with
        | none => simp
        | some named' =>
          cases named' with
          | true =>
            have apart : tag ≠ tag' := by
              rintro rfl
              cases name.symm.trans name'
            simp [apart]
          | false => by_cases length : fields.length = fields'.length <;> simp [length]
  · have apart : (union != union' || letter != letter') = true := by
      rw [Bool.or_eq_true, bne_iff_ne, bne_iff_ne]
      exact Decidable.not_and_iff_or_not.mp kind
    rw [eqshape, if_pos apart]
    constructor
    · intro same
      cases same
    · rintro ⟨one, two, -⟩
      exact (kind ⟨one, two⟩).elim

theorem eqshape_basic {tp tp' : Basic} : eqshape m equiv (.basic tp) (.basic tp') = some true ↔
    tp.op = tp'.op ∧ (tp.op = .INT ∨ tp.op = .FLOAT) ∧ tp.letter = tp'.letter := by
  obtain ⟨op, letter, rank, size, tsigned⟩ := tp
  obtain ⟨op', letter', rank', size', tsigned'⟩ := tp'
  by_cases same : op = op'
  · subst same
    cases op <;> simp [eqshape]
  · simp [eqshape, same]

theorem eqshape_ary {type type' : Ty} {nelem nelem' : Int} :
    eqshape m false (.ary type nelem) (.ary type' nelem') = some true ↔
      nelem = nelem' ∧ eqtype m false type type' = some true := by
  by_cases same : nelem = nelem' <;> simp [eqshape, same]

theorem eqshape_ftn {type type' : Ty} {kr kr' : Bool} {pars pars' : Pars} :
    eqshape m false (.ftn type kr pars) (.ftn type' kr' pars') = some true ↔
      kr = kr' ∧ eqtype m false type type' = some true ∧
        (kr = false → pars.length = pars'.length ∧ eqpars m false pars pars' = some true) := by
  cases kr <;> cases kr' <;> simp only [eqshape]
  case false.false =>
    by_cases length : pars.length = pars'.length
    · simp [length, andThen_true, and_comm]
    · simp [length]
  all_goals simp

mutual

theorem eqtype_trans : ∀ t t' t'' : Ty, m.Holds t.nodes → m.Holds t'.nodes → m.Holds t''.nodes →
    eqtype m false t t' = some true → eqtype m false t' t'' = some true → eqtype m false t t'' = some true
  | .mk addr s, .mk addr' s', .mk addr'' s'', held, held', held'', one, two => by
    rw [holds_mk] at held held' held''
    rw [eqtype] at one two ⊢
    by_cases first : addr = addr'
    · -- What is at one address is one type.
      subst first
      cases held.1.symm.trans held'.1
      exact two
    · by_cases second : addr' = addr''
      · subst second
        cases held'.1.symm.trans held''.1
        exact one
      · rw [if_neg (by simpa using first)] at one
        rw [if_neg (by simpa using second)] at two
        rw [eqshape_trans s s' s'' held.2 held'.2 held''.2 one two, ite_self]
termination_by structural t => t

theorem eqshape_trans : ∀ s s' s'' : Shape, m.Holds s.nodes → m.Holds s'.nodes → m.Holds s''.nodes →
    eqshape m false s s' = some true → eqshape m false s' s'' = some true → eqshape m false s s'' = some true
  | .basic tp, s', s'', _, _, _, one, two => by
    cases s' with
    | basic tp' =>
      cases s'' with
      | basic tp'' =>
        rw [eqshape_basic] at one two ⊢
        obtain ⟨op, arith, letter⟩ := one
        exact ⟨op.trans two.1, arith, letter.trans two.2.2⟩
      | _ => simp [eqshape] at two
    | _ => simp [eqshape] at one
  | .aggregate union letter tag fields, s', s'', held, held', held'', one, two => by
    cases s' with
    | aggregate union' letter' tag' fields' =>
      cases s'' with
      | aggregate union'' letter'' tag'' fields'' =>
        rw [eqshape_aggregate] at one two ⊢
        obtain ⟨rfl, rfl, one⟩ := one
        obtain ⟨rfl, rfl, two⟩ := two
        refine ⟨rfl, rfl, ?_⟩
        rcases one with ⟨named, rfl⟩ | ⟨unnamed, unnamed', length, one⟩
        · rcases two with ⟨named', same⟩ | ⟨unnamed, -⟩
          · exact .inl ⟨named, same⟩
          · cases named.symm.trans unnamed
        · rcases two with ⟨named', -⟩ | ⟨-, unnamed'', length', two⟩
          · cases named'.symm.trans unnamed'
          · refine .inr ⟨unnamed, unnamed'', length.trans length', ?_⟩
            exact eqfields_trans fields fields' fields'' held held' held'' length length' one two
      | _ => simp [eqshape] at two
    | _ => simp [eqshape] at one
  | .ptr type, s', s'', held, held', held'', one, two => by
    cases s' with
    | ptr type' =>
      cases s'' with
      | ptr type'' =>
        rw [eqshape] at one two ⊢
        exact eqtype_trans type type' type'' held held' held'' one two
      | _ => simp [eqshape] at two
    | _ => simp [eqshape] at one
  | .ary type nelem, s', s'', held, held', held'', one, two => by
    cases s' with
    | ary type' nelem' =>
      cases s'' with
      | ary type'' nelem'' =>
        rw [eqshape_ary] at one two ⊢
        exact ⟨one.1.trans two.1, eqtype_trans type type' type'' held held' held'' one.2 two.2⟩
      | _ => simp [eqshape] at two
    | _ => simp [eqshape] at one
  | .ftn type kr pars, s', s'', held, held', held'', one, two => by
    cases s' with
    | ftn type' kr' pars' =>
      cases s'' with
      | ftn type'' kr'' pars'' =>
        rw [eqshape_ftn] at one two ⊢
        obtain ⟨rfl, base, one⟩ := one
        obtain ⟨rfl, base', two⟩ := two
        rw [Shape.nodes, holds_append] at held held' held''
        refine ⟨rfl, eqtype_trans type type' type'' held.1 held'.1 held''.1 base base', fun ansi => ?_⟩
        obtain ⟨length, one⟩ := one ansi
        obtain ⟨length', two⟩ := two ansi
        refine ⟨length.trans length', ?_⟩
        exact eqpars_trans pars pars' pars'' held.2 held'.2 held''.2 length length' one two
      | _ => simp [eqshape] at two
    | _ => simp [eqshape] at one
termination_by structural t => t

theorem eqpars_trans : ∀ p p' p'' : Pars, m.Holds p.nodes → m.Holds p'.nodes → m.Holds p''.nodes →
    p.length = p'.length → p'.length = p''.length →
    eqpars m false p p' = some true → eqpars m false p' p'' = some true → eqpars m false p p'' = some true
  | .nil, .nil, .nil, _, _, _, _, _, _, _ => rfl
  | .cons p rest, .cons p' rest', .cons p'' rest'', held, held', held'', length, length', one, two => by
    rw [Pars.nodes, holds_append] at held held' held''
    rw [eqpars, andThen_true] at one two ⊢
    refine ⟨eqtype_trans p p' p'' held.1 held'.1 held''.1 one.1 two.1, ?_⟩
    exact eqpars_trans rest rest' rest'' held.2 held'.2 held''.2 (Nat.succ.inj length) (Nat.succ.inj length') one.2 two.2
termination_by structural t => t

theorem eqfields_trans : ∀ f f' f'' : Fields, m.Holds f.nodes → m.Holds f'.nodes → m.Holds f''.nodes →
    f.length = f'.length → f'.length = f''.length →
    eqfields m false f f' = some true → eqfields m false f' f'' = some true → eqfields m false f f'' = some true
  | .nil, .nil, .nil, _, _, _, _, _, _, _ => rfl
  | .cons name type rest, .cons name' type' rest', .cons name'' type'' rest'', held, held', held'', length, length',
      one, two => by
    rw [Fields.nodes, holds_append] at held held' held''
    cases name with
    | none => simp [eqfields] at one
    | some name =>
      cases name' with
      | none => simp [eqfields] at one
      | some name' =>
        cases name'' with
        | none => simp [eqfields] at two
        | some name'' =>
          rw [eqfields] at one two ⊢
          by_cases first : name = name'
          · by_cases second : name' = name''
            · subst first second
              simp only [bne_self_eq_false, Bool.false_eq_true, if_false, andThen_true] at one two ⊢
              refine ⟨eqtype_trans type type' type'' held.1 held'.1 held''.1 one.1 two.1, ?_⟩
              exact eqfields_trans rest rest' rest'' held.2 held'.2 held''.2 (Nat.succ.inj length)
                (Nat.succ.inj length') one.2 two.2
            · simp [second] at two
          · simp [first] at one
termination_by structural t => t

end

theorem eqtype_refl (t : Ty) : eqtype m equiv t t = some true := by
  obtain ⟨addr, s⟩ := t
  rw [eqtype, if_pos BEq.rfl]

/-- The laws hold for types where the comparison of the first two stays inside them. -/
theorem eqtype_laws (m : Memory) (t₁ t₂ t₃ : Ty) (held₁ : m.Holds t₁.nodes) (held₂ : m.Holds t₂.nodes)
    (held₃ : m.Holds t₃.nodes) : Laws m t₁ t₂ t₃ ↔ ∀ equiv, Inside m equiv t₁ t₂ := by
  constructor
  · intro laws equiv
    obtain ⟨answer, there, back⟩ := laws.symm equiv
    apply inside_eqtype t₁ t₂ held₁ held₂
    · exact Option.ne_none_iff_exists'.mpr ⟨answer, there⟩
    · exact Option.ne_none_iff_exists'.mpr ⟨answer, back⟩
  · intro inside
    refine ⟨fun _ => eqtype_refl t₁, fun equiv => ?_, eqtype_trans t₁ t₂ t₃ held₁ held₂ held₃⟩
    refine ⟨agree m equiv t₁ t₂, eqtype_inside t₁ t₂ held₁ held₂ (inside equiv), ?_⟩
    rw [agree_comm t₁ t₂]
    exact eqtype_inside t₂ t₁ held₂ held₁ (Inside.symm t₁ t₂ (inside equiv))

/-! Functions that return an `int`, without and with prototypes. -/

def inttype : Object := ⟨0, .INT, 'W', 3, 4, true⟩
def unprototyped : Ty := .mk 1 (.ftn inttype.type true .nil)
def noparameters : Ty := .mk 2 (.ftn inttype.type false .nil)
def oneparameter : Ty := .mk 3 (.ftn inttype.type false (.cons inttype.type .nil))

/-- A memory with these types. -/
def functions : Memory where
  type
    | 0 => some inttype.type.shape
    | 1 => some unprototyped.shape
    | 2 => some noparameters.shape
    | 3 => some oneparameter.shape
    | _ => none
  named _ := none
  inttype := inttype
  uinttype := ⟨4, .INT, 'Z', 3, 4, false⟩
  floattype := ⟨5, .FLOAT, 'J', 6, 4, false⟩
  doubletype := ⟨6, .FLOAT, 'D', 7, 8, false⟩
  pvoidtype := .mk 7 (.ptr (.mk 8 (.basic ⟨.VOID, '0', 0, 0, false⟩)))
  ellipsistype := ⟨9, .ELLIPSIS, 'E', 0, 0, false⟩
  int := ⟨rfl, rfl⟩
  uint := rfl
  double := rfl
  ellipsis := by
    intro addr shape there dots
    split at there <;> cases there <;> cases dots

theorem eqtype_laws_functions : Laws functions noparameters oneparameter noparameters := by
  have held : ∀ t ∈ [noparameters, oneparameter], functions.Holds t.nodes := by
    intro t mem
    rcases List.mem_cons.mp mem with rfl | mem
    · intro n mem
      fin_cases mem <;> rfl
    · obtain rfl := List.mem_singleton.mp mem
      intro n mem
      fin_cases mem <;> rfl
  have one := held noparameters List.mem_cons_self
  have two := held oneparameter (List.mem_cons_of_mem _ List.mem_cons_self)
  apply (eqtype_laws functions noparameters oneparameter noparameters one two one).mpr
  intro equiv _ length
  cases length

/-- `int f(); int f(void);` makes `eqfuns` read behind the parameters of the second. -/
theorem unprototyped_not_inside : ¬Laws functions unprototyped noparameters unprototyped := by
  intro laws
  obtain ⟨answer, there, -⟩ := laws.symm true
  cases there

end Scc.Cc1.Equality
