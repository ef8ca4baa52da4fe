import Scc.Ar.SymdefsProofs

set_option linter.all false

/-! The index of `ranlib` has every symbol of the members once, and there is an error exactly for
two definitions, where no reference decides it. -/
namespace Scc.Ar

section
attribute [local simp] readPart readAll newsymbols stopsAt
end

variable {seen : List Sym} {ranlib : Ranlib} {object : Object} {objects : List Object}

theorem stopped_append {more : List Sym} (stopped : Stopped seen) : Stopped (seen ++ more) := by
  obtain ⟨before, sym, after, rfl, stops⟩ := stopped
  exact ⟨before, sym, after ++ more, by simp, stops⟩

theorem stopped_snoc {sym : Sym} : Stopped (seen ++ [sym]) ↔ Stopped seen ∨ stopsAt seen sym = true := by
  constructor
  · rintro ⟨before, found, after, split, stops⟩
    rcases List.eq_nil_or_concat after with rfl | ⟨front, last, rfl⟩
    · obtain ⟨rfl, last⟩ := List.append_inj' split rfl
      rw [← List.singleton_inj.mp last] at stops
      exact .inr stops
    · rw [List.concat_eq_append, ← List.cons_append, ← List.append_assoc] at split
      exact .inl ⟨before, found, front, (List.append_inj' split rfl).1, stops⟩
  · rintro (before | stops)
    · exact stopped_append before
    · exact ⟨seen, sym, [], rfl, stops⟩

theorem not_stopped_nil : ¬Stopped [] := by
  rintro ⟨before, sym, after, split, -⟩
  exact List.append_ne_nil_of_right_ne_nil before (List.cons_ne_nil sym after) split.symm

/-- A member is stopped in what is read of it exactly when it is stopped at all. -/
theorem stopped_readPart (syms : List Sym) :
    Stopped (seen ++ readPart seen syms) ↔ Stopped (seen ++ syms) := by
  induction syms generalizing seen with
  | nil => rfl
  | cons sym syms ih =>
    rw [readPart]
    split
    · rename_i stops
      have stopped : Stopped (seen ++ [sym]) := stopped_snoc.mpr (.inr stops)
      refine iff_of_true stopped ?_
      rw [List.append_cons]
      exact stopped_append stopped
    · rw [List.append_cons, ih, ← List.append_cons]

theorem readPart_all {syms : List Sym} (goes : ¬Stopped (seen ++ syms)) : readPart seen syms = syms := by
  induction syms generalizing seen with
  | nil => rfl
  | cons sym syms ih =>
    rw [List.append_cons] at goes
    have free : ¬stopsAt seen sym = true := fun stops =>
      goes (stopped_append (stopped_snoc.mpr (.inr stops)))
    rw [readPart, if_neg free, ih goes]

theorem stopped_readAll (objects : List Object) :
    Stopped (readAll seen objects) ↔ Stopped (seen ++ objects.flatMap Object.syms) := by
  have later (seen : List Sym) (objects : List Object) (stopped : Stopped seen) :
      Stopped (readAll seen objects) := by
    induction objects generalizing seen with
    | nil => exact stopped
    | cons object objects ih => exact ih _ (stopped_append stopped)
  induction objects generalizing seen with
  | nil => rw [readAll, List.flatMap_nil, List.append_nil]
  | cons object objects ih =>
    rw [readAll, List.flatMap_cons, ← List.append_assoc]
    by_cases stopped : Stopped (seen ++ object.syms)
    · exact iff_of_true (later _ _ ((stopped_readPart _).mpr stopped)) (stopped_append stopped)
    · refine ih.trans ?_
      rw [readPart_all stopped]

/-- The loop of `newmember` reads up to the symbol that stops it. -/
theorem newsymbols_holds {table : Symdefs} (offset : Int) (holds : Holds seen table)
    (syms : List Sym) :
    Holds (seen ++ readPart seen syms) (newsymbols offset table syms).1 ∧
      (Stopped (seen ++ readPart seen syms) ↔
        Stopped seen ∨ (newsymbols offset table syms).2 = false) := by
  induction syms generalizing seen table with
  | nil =>
    rw [readPart, newsymbols, List.append_nil]
    exact ⟨holds, by simp⟩
  | cons sym syms ih =>
    obtain ⟨next, ok⟩ := newsymbol_holds offset holds sym
    rw [readPart, newsymbols]
    rcases result : newsymbol offset table sym with ⟨table', taken⟩
    rw [result] at next ok
    cases stops : stopsAt seen sym with
    | true =>
      rw [stops] at ok
      subst ok
      exact ⟨next, iff_of_true (stopped_snoc.mpr (.inr stops)) (.inr rfl)⟩
    | false =>
      rw [stops] at ok
      subst ok
      obtain ⟨rest, flag⟩ := ih next
      rw [if_neg Bool.false_ne_true, List.append_cons]
      refine ⟨rest, flag.trans ?_⟩
      rw [stopped_snoc, stops, or_iff_left Bool.false_ne_true]
      rfl

/-- What `ranlib` has after it read some symbols. -/
structure Reads (seen : List Sym) (ranlib : Ranlib) : Prop where
  table : Holds seen ranlib.table
  status : ranlib.status = true ↔ Stopped seen

theorem reads_start : Reads [] .start := by
  constructor
  · constructor <;> simp [Ranlib.start]
  · exact iff_of_false Bool.false_ne_true not_stopped_nil

/-- A member of another type than the first is not read. -/
theorem newmember_reads (reads : Reads seen ranlib) (object : Object) :
    (newmember ranlib object).artype = some (ranlib.artype.getD object.type) ∧
      if ranlib.artype.getD object.type = object.type then
        (newmember ranlib object).nolib = ranlib.nolib ∧
          Reads (seen ++ readPart seen object.syms) (newmember ranlib object)
      else (newmember ranlib object).nolib = true ∧ Reads seen (newmember ranlib object) := by
  have differs : (∃ t ∈ ranlib.artype, t ≠ object.type) ↔
      ¬ranlib.artype.getD object.type = object.type := by
    cases ranlib.artype <;> simp
  unfold newmember
  by_cases same : ranlib.artype.getD object.type = object.type
  · rw [if_neg (by rw [differs]; exact not_not.mpr same), if_pos same, same]
    obtain ⟨holds, flag⟩ := newsymbols_holds object.offset reads.table object.syms
    refine ⟨rfl, rfl, holds, ?_⟩
    rw [flag, ← reads.status]
    simp
  · rw [if_pos (differs.mpr same), if_neg same]
    refine ⟨?_, rfl, reads.table, reads.status⟩
    cases set : ranlib.artype with
    | none => exact absurd (by rw [set]; rfl) same
    | some t => rfl

/-- Members of one type. -/
def OneType (objects : List Object) : Prop :=
  ∀ object ∈ objects, ∀ other ∈ objects, object.type = other.type

theorem foldl_reads (reads : Reads seen ranlib)
    (same : ∀ object ∈ objects, ranlib.artype.getD object.type = object.type)
    (one : OneType objects) :
    Reads (readAll seen objects) (objects.foldl newmember ranlib) ∧
      (objects.foldl newmember ranlib).nolib = ranlib.nolib := by
  induction objects generalizing seen ranlib with
  | nil => exact ⟨reads, rfl⟩
  | cons object objects ih =>
    obtain ⟨artype, next⟩ := newmember_reads reads object
    have here := same object List.mem_cons_self
    rw [if_pos here] at next
    obtain ⟨rest, nolib⟩ := ih next.2 (by
      intro other member
      rw [artype, here, Option.getD_some]
      exact one object List.mem_cons_self other (List.mem_cons_of_mem _ member))
      fun a ha b hb => one a (List.mem_cons_of_mem _ ha) b (List.mem_cons_of_mem _ hb)
    exact ⟨rest, nolib.trans next.1⟩

theorem readObjects_reads (one : OneType objects) :
    Reads (readAll [] objects) (readObjects objects) ∧ (readObjects objects).nolib = false :=
  foldl_reads reads_start (fun _ _ => rfl) one

/-- Some symbol of some member has the name and is defined or common. -/
def Wanted (objects : List Object) (name : Name) : Prop :=
  ∃ object ∈ objects, ∃ sym ∈ object.syms, sym.name = name ∧ (sym.defines = true ∨ sym.common = true)

/-- Two members define one symbol. -/
def TwoDefine (objects : List Object) : Prop :=
  ∃ before object between other after name,
    objects = before ++ object :: (between ++ other :: after) ∧
      (∃ sym ∈ object.syms, sym.defines = true ∧ sym.name = name) ∧
      ∃ sym ∈ other.syms, sym.defines = true ∧ sym.name = name

theorem foldl_nolib {t : Nat} (reads : Reads seen ranlib) (artype : ranlib.artype = some t)
    (differs : ranlib.nolib = true ∨ ∃ object ∈ objects, object.type ≠ t) :
    (objects.foldl newmember ranlib).nolib = true := by
  induction objects generalizing seen ranlib with
  | nil => simpa using differs
  | cons object objects ih =>
    obtain ⟨artype', next⟩ := newmember_reads reads object
    rw [artype, Option.getD_some] at artype' next
    by_cases same : t = object.type
    · rw [if_pos same] at next
      refine ih next.2 artype' ?_
      rw [next.1]
      refine differs.imp id ?_
      rintro ⟨other, member, ne⟩
      rcases List.mem_cons.mp member with rfl | rest
      · exact absurd same.symm ne
      · exact ⟨other, rest, ne⟩
    · rw [if_neg same] at next
      exact ih next.2 artype' (.inl next.1)

theorem readObjects_nolib (several : ¬OneType objects) : (readObjects objects).nolib = true := by
  cases objects with
  | nil => exact absurd (fun _ member => (List.not_mem_nil member).elim) several
  | cons object objects =>
    obtain ⟨artype, next⟩ := newmember_reads reads_start object
    have first : Ranlib.start.artype.getD object.type = object.type := rfl
    rw [if_pos first] at next
    change (objects.foldl newmember (newmember .start object)).nolib = true
    refine foldl_nolib next.2 artype (.inr ?_)
    by_contra none
    simp only [not_exists, not_and, ne_eq, not_not] at none
    have all : ∀ other ∈ object :: objects, other.type = object.type := by
      intro other member
      rcases List.mem_cons.mp member with rfl | rest
      · rfl
      · exact none other rest
    exact several fun a ha b hb => (all a ha).trans (all b hb).symm

theorem mem_readPart {syms : List Sym} {sym : Sym} (member : sym ∈ readPart seen syms) : sym ∈ syms := by
  induction syms generalizing seen with
  | nil => exact member
  | cons first syms ih =>
    rw [readPart] at member
    split at member
    · rw [List.mem_singleton.mp member]
      exact List.mem_cons_self
    · rcases List.mem_cons.mp member with rfl | rest
      · exact List.mem_cons_self
      · exact List.mem_cons_of_mem _ (ih rest)

/-- Whatever the types are, only symbols of members are read. -/
theorem foldl_members (reads : Reads seen ranlib) (objects : List Object) :
    ∃ read, Reads read (objects.foldl newmember ranlib) ∧
      ∀ sym ∈ read, sym ∈ seen ∨ ∃ object ∈ objects, sym ∈ object.syms := by
  induction objects generalizing seen ranlib with
  | nil => exact ⟨seen, reads, fun _ => .inl⟩
  | cons object objects ih =>
    obtain ⟨-, next⟩ := newmember_reads reads object
    have step : ∃ more, Reads more (newmember ranlib object) ∧
        ∀ sym ∈ more, sym ∈ seen ∨ sym ∈ object.syms := by
      split at next
      · refine ⟨_, next.2, fun sym member => ?_⟩
        exact (List.mem_append.mp member).imp id mem_readPart
      · exact ⟨seen, next.2, fun _ => .inl⟩
    obtain ⟨more, reads, origin⟩ := step
    obtain ⟨read, reads, source⟩ := ih reads
    refine ⟨read, reads, fun sym member => ?_⟩
    rcases source sym member with earlier | ⟨other, rest, inside⟩
    · exact (origin sym earlier).imp id fun inside => ⟨object, List.mem_cons_self, inside⟩
    · exact .inr ⟨other, List.mem_cons_of_mem _ rest, inside⟩

theorem exists_of_stopped (stopped : Stopped seen) : ∃ sym ∈ seen, sym.defines = true := by
  obtain ⟨before, sym, after, rfl, stops⟩ := stopped
  simp only [stopsAt, Bool.and_eq_true, List.any_eq_true] at stops
  obtain ⟨-, other, member, defines, -⟩ := stops
  exact ⟨other, List.mem_append_left _ member, defines⟩

theorem readObjects_quiet (nothing : ∀ name, ¬Wanted objects name) :
    (readObjects objects).status = false := by
  obtain ⟨read, reads, origin⟩ := foldl_members reads_start objects
  rw [← Bool.not_eq_true]
  intro error
  obtain ⟨sym, member, defines⟩ := exists_of_stopped (reads.status.mp error)
  rcases origin sym member with none | ⟨object, inside, has⟩
  · exact (List.not_mem_nil none).elim
  · exact nothing sym.name ⟨object, inside, sym, has, rfl, .inl defines⟩

theorem wanted_of_twoDefine (two : TwoDefine objects) : ∃ name, Wanted objects name := by
  obtain ⟨before, object, between, other, after, name, rfl, ⟨sym, member, defines, same⟩, -⟩ := two
  exact ⟨name, object, by simp, sym, member, same, .inl defines⟩

/-- The second definition stops its member. -/
theorem stopped_of_twoDefine (two : TwoDefine objects) : Stopped (objects.flatMap Object.syms) := by
  obtain ⟨before, object, between, other, after, name, rfl, ⟨sym, member, defines, same⟩,
    again, member', defines', same'⟩ := two
  obtain ⟨front, back, split⟩ := List.append_of_mem member'
  refine ⟨before.flatMap Object.syms ++ object.syms ++ between.flatMap Object.syms ++ front, again,
    back ++ after.flatMap Object.syms, ?_, ?_⟩
  · simp [split, List.append_assoc]
  · have notCommon : again.common = false := by
      simp only [Sym.defines, Bool.and_eq_true, Bool.not_eq_true'] at defines'
      exact defines'.2
    simp only [stopsAt, external_of_defines defines', notCommon, Bool.not_false, Bool.and_true,
      Bool.true_and, List.any_eq_true]
    exact ⟨sym, by simp [member], by simp [defines, same, same']⟩

/-- What the index of an archive is for. -/
structure RightIndex (objects : List Object) (ranlib : Ranlib) : Prop where
  once : ∀ name, Wanted objects name → (ranlib.index.map Prod.fst).count name = 1
  only : ∀ name, ¬Wanted objects name → name ∉ ranlib.index.map Prod.fst
  error : ranlib.status = true ↔ TwoDefine objects

/-- The members have one type. Every symbol that is read as a reference is defined or common in some
member; every defined or common symbol is read, not behind a place where its member stops; and if
there is a reference or definition after a definition of the symbol, two members define one.
Members of several types define nothing. -/
def Collected (objects : List Object) : Prop :=
  OneType objects ∧
      (∀ sym ∈ readAll [] objects, sym.type = 'U' → Wanted objects sym.name) ∧
      (∀ name, Wanted objects name → ∃ sym ∈ readAll [] objects, sym.external = true ∧ sym.name = name) ∧
      (Stopped (objects.flatMap Object.syms) → TwoDefine objects) ∨
    ¬OneType objects ∧ ∀ name, ¬Wanted objects name

theorem mem_readAll {sym : Sym} (member : sym ∈ readAll seen objects) :
    sym ∈ seen ∨ ∃ object ∈ objects, sym ∈ object.syms := by
  induction objects generalizing seen with
  | nil => exact .inl member
  | cons object objects ih =>
    rcases ih member with earlier | ⟨other, rest, inside⟩
    · refine (List.mem_append.mp earlier).imp id fun part => ?_
      exact ⟨object, List.mem_cons_self, mem_readPart part⟩
    · exact .inr ⟨other, List.mem_cons_of_mem _ rest, inside⟩

/-- A symbol that is read is a reference, or it makes its name wanted. -/
theorem wanted_of_read {sym : Sym} (referenced : sym.type = 'U' → Wanted objects sym.name)
    (member : sym ∈ readAll [] objects) (external : sym.external = true) : Wanted objects sym.name := by
  by_cases only : sym.type = 'U'
  · exact referenced only
  · rcases mem_readAll member with none | ⟨object, inside, has⟩
    · exact (List.not_mem_nil none).elim
    · refine ⟨object, inside, sym, has, rfl, ?_⟩
      cases common : sym.common with
      | true => exact .inr rfl
      | false => exact .inl (by simp [Sym.defines, external, only, common])

theorem index_names (open_ : ranlib.nolib = false) :
    ranlib.index.map Prod.fst = (ranlib.table.syms.map Symdef.name).reverse := by
  rw [Ranlib.index, open_, if_neg Bool.false_ne_true, List.map_reverse, List.map_map]
  rfl

theorem index_right (objects : List Object) :
    RightIndex objects (readObjects objects) ↔ Collected objects := by
  by_cases one : OneType objects
  · obtain ⟨reads, open_⟩ := readObjects_reads one
    have names := index_names open_
    have status := reads.status.trans (stopped_readAll objects)
    rw [List.nil_append] at status
    constructor
    · intro right
      refine .inl ⟨one, fun sym member reference => ?_, fun name wanted => ?_,
        fun stopped => right.error.mp (status.mpr stopped)⟩
      · refine not_imp_not.mp (right.only sym.name) ?_
        rw [names, List.mem_reverse, reads.table.names]
        exact ⟨sym, member, by simp [Sym.external, reference], rfl⟩
      · rw [← reads.table.names, ← List.mem_reverse, ← names, ← List.count_pos_iff,
          right.once name wanted]
        exact Nat.one_pos
    · rintro (⟨-, referenced, read, two⟩ | ⟨several, -⟩)
      · refine ⟨fun name wanted => ?_, fun name unwanted => ?_, ?_⟩
        · rw [names, List.count_reverse, reads.table.nodup.count,
            if_pos ((reads.table.names name).mpr (read name wanted))]
        · rw [names, List.mem_reverse, reads.table.names]
          rintro ⟨sym, member, external, rfl⟩
          exact unwanted (wanted_of_read (referenced sym member) member external)
        · exact status.trans ⟨two, stopped_of_twoDefine⟩
      · exact absurd one several
  · have none : (readObjects objects).index = [] := by
      rw [Ranlib.index, readObjects_nolib one, if_pos rfl]
    constructor
    · intro right
      refine .inr ⟨one, fun name wanted => ?_⟩
      have count := right.once name wanted
      rw [none] at count
      cases count
    · rintro (⟨all, -⟩ | ⟨-, nothing⟩)
      · exact absurd all one
      · refine ⟨fun name wanted => absurd wanted (nothing name), fun name _ => ?_, ?_⟩
        · rw [none]
          exact List.not_mem_nil
        · rw [readObjects_quiet nothing]
          refine iff_of_false Bool.false_ne_true fun two => ?_
          obtain ⟨name, wanted⟩ := wanted_of_twoDefine two
          exact nothing name wanted

/-- The second member has an error for its reference to `f`, and `g` is not in the index. -/
theorem reference_not_right : ¬RightIndex
    [⟨68, 0, [⟨[102], 'T'⟩]⟩, ⟨200, 0, [⟨[102], 'U'⟩, ⟨[103], 'T'⟩]⟩]
    (readObjects [⟨68, 0, [⟨[102], 'T'⟩]⟩, ⟨200, 0, [⟨[102], 'U'⟩, ⟨[103], 'T'⟩]⟩]) := by
  intro right
  have count := right.once [103] ⟨⟨200, 0, [⟨[102], 'U'⟩, ⟨[103], 'T'⟩]⟩, by simp,
    ⟨[103], 'T'⟩, by simp, rfl, .inl (by decide)⟩
  revert count
  decide

end Scc.Ar
