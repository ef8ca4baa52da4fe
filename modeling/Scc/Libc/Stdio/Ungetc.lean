import Scc.Libc.Stdio.Ftell

set_option linter.all false

/-! `ungetc` of a character on a stream that is read. -/
namespace Scc.Libc.Stdio

def ungetc (c : Int) (s : Reader) : Int × Reader :=
  if c = EOF then (EOF, s)
  else if s.file.flags.iowrite then (EOF, s)
  else if s.file.rp = 0 ∨ s.file.wp ≠ 0 then (EOF, s)
  else
    let rp := s.file.rp - 1
    let buf := if s.file.flags.iostrg then s.file.buf else s.file.buf.map (Function.update · rp (uchar c))
    (c, { s with file := { s.file with rp := rp, buf := buf, flags := { s.file.flags with ioeof := false } } })

/-- The character is pushed back and read again, and what is read then is what would have been read. -/
def Undone (src : Source) (s : Reader) (c : Int) : Prop :=
  (ungetc c s).1 ≠ EOF ∧ (ungetc c s).2.file.flags.ioeof = false ∧ (getc src (ungetc c s).2).1 = (uchar c).toNat ∧
    ∀ n, (getcs src n (getc src (ungetc c s).2).2).2.1 = (getcs src n s).2.1

/-- A stream that has just been opened, or from which a character was read, with any calls of `getc` after it. -/
inductive ReadFrom (src : Source) : Reader → Prop where
  | opened (f : FILE) (content : List UInt8) (pos : Nat) : OpenedFor f → ReadFrom src (.start f content pos)
  | read (s : Reader) : (getc src s).1 ≠ EOF → ReadFrom src (getc src s).2
  | more (s : Reader) : ReadFrom src s → ReadFrom src (getc src s).2

variable {src : Source} {s : Reader}

/-- The condition under which `ungetc` gives up. -/
def Guarded (f : FILE) : Prop := f.rp = 0 ∨ f.wp ≠ 0

theorem OpenedFor.guarded {f : FILE} (opened : OpenedFor f) : Guarded f := by
  cases opened <;> exact .inl rfl

/-- The call gives a character, or the stream was so before; then `ungetc` gives up after it. -/
def Guards (s : Reader) (r : Int × Reader) : Prop := Guarded s.file ∨ r.1 ≠ EOF → Guarded r.2.file

/-- A call that gives no character and leaves the pointers. -/
theorem idle_guards {t : Reader} (same : Guarded s.file → Guarded t.file) : Guards s (EOF, t) := by
  rintro (guarded | read)
  · exact same guarded
  · exact absurd rfl read

/-- A `getc` that reads leaves `wp` behind the bytes that it has found. -/
theorem getcBuffered_guards (src : Source) (s : Reader) : Guards s (getcBuffered src s) := by
  unfold getcBuffered
  generalize readBuffer src s.file.memory s = r
  obtain ⟨cnt, memory⟩ := r
  dsimp only
  split
  · exact idle_guards id
  · refine fun _ => .inr ?_
    dsimp only
    omega

theorem getc_guards (src : Source) (s : Reader) : Guards s (getc src s) := by
  unfold getc
  split
  · unfold getcSlow
    split
    · exact idle_guards id
    split
    · exact idle_guards id
    split
    · exact idle_guards id
    cases buf : s.file.buf with
    | some memory => exact getcBuffered_guards src s
    | none =>
      unfold Stream.allocbuf allocbuf
      cases src.malloc s.mallocs with
      | none => exact idle_guards id
      | some memory =>
        refine fun _ => getcBuffered_guards src _ (.inl ?_)
        exact .inl rfl
  · rename_i more
    refine fun _ => .inr ?_
    dsimp only
    omega

theorem ReadFrom.guarded (reached : ReadFrom src s) : Guarded s.file := by
  induction reached with
  | opened f content pos opened => exact opened.guarded
  | read s read => exact getc_guards src s (.inr read)
  | more s _ ih => exact getc_guards src s (.inl ih)

/-- `ungetc` never pushes a character back: the pointer it looks at is behind what was read. -/
theorem never_undone (src : Source) {s : Reader} (reached : ReadFrom src s) (c : Int) : ¬Undone src s c := by
  rintro ⟨pushed, -⟩
  apply pushed
  unfold ungetc
  split
  · rfl
  split
  · rfl
  split
  · rfl
  · rename_i pushes
    exact absurd reached.guarded pushes

/-- The first of two bytes on `stdin`. -/
theorem first_not_undone : ¬Undone Source.plain (getc Source.plain (.start stdin [97, 98] 0)).2 97 :=
  never_undone Source.plain (.read _ (by decide)) 97

/-- After the first of two bytes `ungetc` returns `EOF`. -/
theorem pushback_refused : ∃ s, ReadFrom Source.plain s ∧ ¬Undone Source.plain s 97 :=
  ⟨(getc Source.plain (.start stdin [97, 98] 0)).2, .read _ (by decide), fun undone => undone.1 rfl⟩

end Scc.Libc.Stdio
