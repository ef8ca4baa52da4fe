import Scc.Libc.Stdio.Read
import Scc.Libc.Stdio.WriteProofs

set_option linter.all false

/-! What a program reads from a stream is the file at the position it has moved to, as long as no
seek is made while bytes are unread. -/
namespace Scc.Libc.Stdio

variable {src : Source}

/-- The position a seek asks for. -/
def target (content : List UInt8) (pos : Nat) (off : Int) : Whence → Int
  | .SEEK_SET => off
  | .SEEK_CUR => pos + off
  | .SEEK_END => content.length + off

/-- The events are those of a program that reads `content` from position `pos`
on: every byte is the one at the position, the end of file is met at the end
only (or the stream is in error), and a successful seek moves the position to
its target. Nothing is asked after a seek whose target is not in the file. -/
def Abides (content : List UInt8) : Nat → List Event → Prop
  | _, [] => True
  | pos, ⟨.getc, .char c, ferror⟩ :: rest =>
    (∃ b, content[pos]? = some b ∧ c = b.toNat ∧ Abides content (pos + 1) rest) ∨
      c = EOF ∧ (pos = content.length ∨ ferror) ∧ Abides content pos rest
  | pos, ⟨.fread size nmemb, .items n bytes, ferror⟩ :: rest =>
    bytes <+: content.drop pos ∧ bytes.length ≤ nmemb * size ∧ n = bytes.length / size ∧
      (bytes.length < nmemb * size → pos + bytes.length = content.length ∨ ferror) ∧
      Abides content (pos + bytes.length) rest
  | pos, ⟨.fseek off whence, .moved r, _⟩ :: rest =>
    0 ≤ target content pos off whence → target content pos off whence ≤ content.length →
      Abides content (if r = 0 then (target content pos off whence).toNat else pos) rest
  | _, ⟨.rewind, .done, _⟩ :: rest => Abides content 0 rest
  | _, _ => False

/-- The call takes bytes from the stream. -/
def ReadCall.takes : ReadCall → Bool
  | .getc => true
  | .fread size nmemb => 0 < nmemb * size
  | _ => false

/-- The call moves the position. -/
def ReadCall.seeks : ReadCall → Bool
  | .fseek _ _ | .rewind => true
  | _ => false

/-- No bytes are taken after a seek that was made while there were unread bytes
in the buffer. -/
def Drained (src : Source) (s : Reader) : List ReadCall → Prop
  | [] => True
  | c :: calls =>
    (c.seeks → s.file.rp < s.file.wp → ∀ d ∈ calls, d.takes = false) ∧
      Drained src (c.run src s).2 calls

/-- The buffer and the descriptor together stand for position `pos` of the file. -/
structure Synced (content : List UInt8) (pos : Nat) (s : Reader) : Prop where
  same : s.content = content
  inside : pos + (s.file.wp - s.file.rp) ≤ content.length
  offset : s.offset = pos + (s.file.wp - s.file.rp)
  order : s.file.rp ≤ s.file.wp
  unread : ∀ i, s.file.rp + i < s.file.wp → content[pos + i]? = some (s.file.memory (s.file.rp + i))
  writing : s.file.flags.iowrite = false
  string : s.file.flags.iostrg = false
  reading : s.file.flags.ioread ∨ s.file.flags.iorw
  room : s.file.buf.isSome → 0 < s.file.len
  ended : s.file.flags.ioeof → pos = content.length

theorem readBuffer_spec {content : List UInt8} (s : Reader) (memory : Memory)
    (same : s.content = content) :
    (readBuffer src memory s).1 = -1 ∨
      ∃ cnt : Nat, (readBuffer src memory s).1 = cnt ∧ s.offset + cnt ≤ max s.offset content.length ∧
        (∀ i < cnt, content[s.offset + i]? = some ((readBuffer src memory s).2 i)) ∧
        (cnt = 0 → s.file.len = 0 ∨ content.length ≤ s.offset) := by
  unfold readBuffer
  cases src.read s.reads with
  | none => exact .inl rfl
  | some most =>
    refine .inr ⟨_, rfl, ?_, ?_, ?_⟩
    · simp [same]
      omega
    · intro i small
      simp only [same, List.length_take, List.length_drop] at small
      simp only [same, List.getD_eq_getElem?_getD, List.getElem?_take, List.getElem?_drop]
      rw [if_pos (by omega), if_pos (by omega)]
      cases h : content[s.offset + i]? with
      | some b => simp
      | none =>
        have := List.getElem?_eq_none_iff.mp h
        omega
    · simp [same]
      omega

/-- What a `getc` at position `pos` may return and leave. -/
def Gets (content : List UInt8) (pos : Nat) (r : Int × Reader) : Prop :=
  (∃ b, content[pos]? = some b ∧ r.1 = b.toNat ∧ Synced content (pos + 1) r.2) ∨
    r.1 = EOF ∧ (pos = content.length ∨ r.2.file.flags.ioerr) ∧ Synced content pos r.2

variable {content : List UInt8} {pos : Nat} {s : Reader}

theorem getcBuffered_gets (h : Synced content pos s) (empty : s.file.rp = s.file.wp)
    (there : s.file.buf.isSome) (more : s.file.flags.ioeof = false) :
    Gets content pos (getcBuffered src s) := by
  have place : s.offset = pos := by
    have := h.offset
    omega
  have inside := h.inside
  unfold getcBuffered
  obtain fails | ⟨cnt, count, bound, bytes, none⟩ :=
    @readBuffer_spec src _ s s.file.memory h.same
  · simp only [fails]
    refine .inr ⟨rfl, .inr rfl, { h with }⟩
  · simp only [count]
    by_cases zero : cnt = 0
    · have ended : pos = content.length := by
        have room := h.room there
        have := none zero
        omega
      simp only [zero]
      exact .inr ⟨rfl, .inl ended, { h with ended := fun _ => ended }⟩
    · rw [if_neg (by omega)]
      refine .inl ⟨_, by simpa [place] using bytes 0 (by omega), rfl, ?_⟩
      exact
        { h with
          inside := by simp; omega
          offset := by simp; omega
          order := by simp; omega
          unread := by
            intro i small
            simp only [Int.toNat_natCast] at small
            simpa [place, Nat.add_assoc, FILE.memory] using bytes (1 + i) (by omega)
          reading := .inl rfl
          room := fun _ => h.room there
          ended := by simp [more] }

theorem getcSlow_gets (h : Synced content pos s) (empty : s.file.rp = s.file.wp) :
    Gets content pos (getcSlow src s) := by
  have reads : (s.file.flags.ioread || s.file.flags.iorw) = true := by simpa using h.reading
  unfold getcSlow
  cases stopped : s.file.flags.ioerr
  · cases more : s.file.flags.ioeof
    · simp only [reads, h.string, Bool.or_self, Bool.not_true, Bool.false_eq_true, if_false]
      cases there : s.file.buf with
      | some memory =>
        exact getcBuffered_gets h empty (by simp [there]) more
      | none =>
        simp only [Option.isNone_none, if_true, Stream.allocbuf]
        cases got : src.malloc s.mallocs with
        | none =>
          simp only [Option.isNone_none, if_true, ne_eq, EOF, reduceCtorEq, not_false_eq_true]
          exact .inr ⟨rfl, .inr rfl, { h with }⟩
        | some memory =>
          simp only [Option.isNone_some, Bool.false_eq_true, if_false, ne_eq, not_true_eq_false]
          have inside := h.inside
          have offset := h.offset
          refine getcBuffered_gets ?_ rfl rfl more
          exact
            { h with
              inside := by simp [allocbuf]; omega
              offset := by simp [allocbuf]; omega
              order := Nat.le_refl _
              unread := by simp [allocbuf]
              room := fun _ => by simp [allocbuf, BUFSIZ] }
    · exact .inr ⟨rfl, .inl (h.ended more), h⟩
  · simp only [Bool.or_true, if_true]
    exact .inr ⟨rfl, .inr stopped, h⟩

theorem getc_gets (h : Synced content pos s) : Gets content pos (getc src s) := by
  unfold getc
  split
  · have := h.order
    exact getcSlow_gets h (by omega)
  · rename_i some
    have inside := h.inside
    have offset := h.offset
    refine .inl ⟨_, h.unread 0 (by omega), rfl, ?_⟩
    exact
      { h with
        inside := by simp; omega
        offset := by simp; omega
        order := by simp; omega
        unread := by
          intro i small
          have := h.unread (1 + i) (by simp at small; omega)
          simpa [Nat.add_assoc, FILE.memory] using this
        ended := by
          intro ended
          have := h.ended ended
          omega }

theorem getcs_succ (src : Source) (want : Nat) (s : Reader) :
    getcs src (want + 1) s =
      if (getc src s).1 = EOF then (false, [], (getc src s).2)
      else
        ((getcs src want (getc src s).2).1,
          uchar (getc src s).1 :: (getcs src want (getc src s).2).2.1,
          (getcs src want (getc src s).2).2.2) := rfl

theorem getcs_spec (h : Synced content pos s) (want : Nat) :
    (getcs src want s).2.1 <+: content.drop pos ∧
      Synced content (pos + (getcs src want s).2.1.length) (getcs src want s).2.2 ∧
      ((getcs src want s).1 = true ∧ (getcs src want s).2.1.length = want ∨
        (getcs src want s).1 = false ∧ (getcs src want s).2.1.length < want ∧
          (pos + (getcs src want s).2.1.length = content.length ∨
            (getcs src want s).2.2.file.flags.ioerr)) := by
  induction want generalizing pos s with
  | zero => exact ⟨List.nil_prefix, h, .inl ⟨rfl, rfl⟩⟩
  | succ want ih =>
    rw [getcs_succ]
    obtain ⟨b, found, c, synced⟩ | ⟨c, ended, synced⟩ := @getc_gets src _ _ _ h
    · have char : ¬(b.toNat : Int) = EOF := by
        rw [EOF]
        omega
      have cut : content.drop pos = b :: content.drop (pos + 1) := by
        obtain ⟨small, same⟩ := List.getElem?_eq_some_iff.mp found
        rw [List.drop_eq_getElem_cons small, same]
      obtain ⟨first, synced, all⟩ := ih synced
      simp only [c, char, if_false, uchar_toNat, List.length_cons, cut]
      refine ⟨List.cons_prefix_cons.mpr ⟨rfl, first⟩, ?_, ?_⟩
      · simpa [Nat.add_assoc, Nat.add_comm 1] using synced
      · obtain ⟨all, count⟩ | ⟨all, count, ended⟩ := all
        · exact .inl ⟨all, congrArg (· + 1) count⟩
        · refine .inr ⟨all, Nat.succ_lt_succ count, ended.imp_left ?_⟩
          omega
    · simp only [c, if_true]
      exact ⟨List.nil_prefix, by simpa using synced, .inr (by simpa using ended)⟩

theorem freadItems_succ (src : Source) (size left n : Nat) (s : Reader) :
    freadItems src size (left + 1) n s =
      if !(getcs src size s).1 then (n, (getcs src size s).2.1, (getcs src size s).2.2)
      else
        ((freadItems src size left (n + 1) (getcs src size s).2.2).1,
          (getcs src size s).2.1 ++ (freadItems src size left (n + 1) (getcs src size s).2.2).2.1,
          (freadItems src size left (n + 1) (getcs src size s).2.2).2.2) := rfl

/-- `n` and `bytes` are what an `fread` of `want` items may return at `pos`. -/
structure Freads (content : List UInt8) (pos size want n : Nat) (bytes : List UInt8) (s : Reader) :
    Prop where
  first : bytes <+: content.drop pos
  most : bytes.length ≤ want * size
  count : n = bytes.length / size
  short : bytes.length < want * size → pos + bytes.length = content.length ∨ s.file.flags.ioerr
  synced : Synced content (pos + bytes.length) s

theorem freadItems_spec (h : Synced content pos s) (size left n : Nat) (some : 0 < size) :
    n ≤ (freadItems src size left n s).1 ∧
      Freads content pos size left ((freadItems src size left n s).1 - n)
        (freadItems src size left n s).2.1 (freadItems src size left n s).2.2 := by
  induction left generalizing pos n s with
  | zero =>
    refine ⟨Nat.le_refl _, ?_, ?_, ?_, ?_, ?_⟩ <;> simp [freadItems, h]
  | succ left ih =>
    rw [freadItems_succ]
    obtain ⟨first, synced, ⟨all, count⟩ | ⟨all, count, ended⟩⟩ := @getcs_spec src _ _ _ h size
    · obtain ⟨least, rest⟩ := ih synced (n + 1)
      have next : content.drop pos =
          (getcs src size s).2.1 ++ content.drop (pos + (getcs src size s).2.1.length) := by
        obtain ⟨more, split⟩ := first
        rw [← split, ← List.drop_drop, ← split, List.drop_left]
      simp only [all, Bool.not_true, Bool.false_eq_true, if_false]
      refine ⟨by omega, ?_, ?_, ?_, ?_, ?_⟩
      · rw [next]
        exact (List.prefix_append_right_inj _).mpr rest.first
      · have := rest.most
        rw [List.length_append, Nat.succ_mul]
        omega
      · have := rest.count
        rw [List.length_append, count, Nat.add_div_left _ some]
        omega
      · intro short
        rw [List.length_append, Nat.succ_mul] at short
        rw [List.length_append, ← Nat.add_assoc]
        exact rest.short (by omega)
      · rw [List.length_append, ← Nat.add_assoc]
        exact rest.synced
    · simp only [all, Bool.not_false, if_true]
      refine ⟨Nat.le_refl _, first, ?_, ?_, fun _ => ended, synced⟩
      · rw [Nat.succ_mul]
        omega
      · rw [Nat.sub_self, Nat.div_eq_of_lt count]

theorem fread_spec (h : Synced content pos s) (size nmemb : Nat) :
    Freads content pos size nmemb (fread src size nmemb s).1 (fread src size nmemb s).2.1
      (fread src size nmemb s).2.2 := by
  unfold fread
  by_cases none : size = 0
  · simp only [none, if_true]
    exact ⟨List.nil_prefix, Nat.zero_le _, rfl, by simp, h⟩
  · simp only [none, if_false]
    exact (freadItems_spec h size nmemb 0 (Nat.pos_of_ne_zero none)).2

/-! ## Seeks -/

theorem lseek_nonneg (off : Int) (whence : Whence) (place : s.offset = pos)
    (same : s.content = content) (low : 0 ≤ target content pos off whence) :
    lseek off whence s = (target content pos off whence,
      { s with offset := (target content pos off whence).toNat }) := by
  cases whence <;> simp only [lseek, target, place, same, Int.natCast_zero, Int.zero_add] at low ⊢ <;>
    rw [if_neg (by omega)]

/-- A stream with nothing unread that goes to a place in the file. -/
theorem Synced.moved (h : Synced content pos s) (drained : s.file.rp = s.file.wp) (place : Nat)
    (inside : place ≤ content.length) (flags : Flags) (writing : flags.iowrite = false)
    (string : flags.iostrg = false) (reading : flags.ioread ∨ flags.iorw)
    (more : flags.ioeof = false) :
    Synced content place { s with offset := place, file := { s.file with flags := flags } } :=
  { h with
    inside := by simp [drained, inside]
    offset := by simp [drained]
    unread := by
      intro i some
      simp only [drained] at some
      omega
    writing
    string
    reading
    ended := by simp [more] }

/-- A seek with nothing unread moves the stream or leaves it where it is. -/
theorem fseek_spec (h : Synced content pos s) (drained : s.file.rp = s.file.wp) (off : Int)
    (whence : Whence) (low : 0 ≤ target content pos off whence)
    (high : target content pos off whence ≤ content.length) :
    Synced content (if (fseek src off whence s).1 = 0 then (target content pos off whence).toNat
      else pos) (fseek src off whence s).2 := by
  have place : s.offset = pos := by
    have := h.offset
    omega
  have unread : (s.file.wp : Int) - s.file.rp = 0 := by omega
  unfold fseek
  cases stopped : s.file.flags.ioerr
  · simp only [h.writing, Bool.false_eq_true, if_false, ne_eq, not_true_eq_false, unread,
      Int.sub_zero, ite_self, lseek_nonneg off whence place h.same low, Int.not_lt.mpr low, if_true]
    refine h.moved drained _ (by omega) _ ?_ ?_ ?_ rfl
    · split
      · rfl
      · exact h.writing
    · split <;> exact h.string
    · split
      · rename_i both
        exact .inr both
      · exact h.reading
  · simpa [EOF] using h

/-- It does move it unless the stream is in error. -/
theorem fseek_moves (h : Synced content pos s) (drained : s.file.rp = s.file.wp) (off : Int)
    (whence : Whence) (low : 0 ≤ target content pos off whence)
    (running : s.file.flags.ioerr = false) : (fseek src off whence s).1 = 0 := by
  have place : s.offset = pos := by
    have := h.offset
    omega
  have unread : (s.file.wp : Int) - s.file.rp = 0 := by omega
  simp only [fseek, running, h.writing, Bool.false_eq_true, if_false, ne_eq, not_true_eq_false,
    unread, Int.sub_zero, ite_self, lseek_nonneg off whence place h.same low, Int.not_lt.mpr low]

theorem rewind_spec (h : Synced content pos s) (drained : s.file.rp = s.file.wp) :
    Synced content 0 (rewind src s) := by
  have calm : Synced content pos
      { s with file := { s.file with flags := { s.file.flags with ioerr := false } } } := { h with }
  have moves := @fseek_moves src _ _ _ calm drained 0 .SEEK_SET (Int.le_refl _) rfl
  have there := @fseek_spec src _ _ _ calm drained 0 .SEEK_SET (Int.le_refl _)
    (Int.natCast_nonneg _)
  rw [if_pos moves] at there
  exact { there with ended := fun ended => Bool.noConfusion ended }

/-! ## Runs -/

/-- Calls that take no bytes meet the file whatever the stream holds. -/
theorem idle_abides (content : List UInt8) (pos : Nat) (s : Reader) (calls : List ReadCall)
    (idle : ∀ c ∈ calls, c.takes = false) : Abides content pos (ReadCall.events src s calls) := by
  induction calls generalizing pos s with
  | nil => trivial
  | cons c calls ih =>
    have rest := fun pos s => ih pos s fun d hd => idle d (List.mem_cons_of_mem _ hd)
    have none := idle c List.mem_cons_self
    cases c with
    | getc => cases none
    | fread size nmemb =>
      have zero : nmemb * size = 0 := Nat.eq_zero_of_not_pos (of_decide_eq_false none)
      have nothing : fread src size nmemb s = (0, [], s) := by
        unfold fread
        split
        · rfl
        · obtain rfl : nmemb = 0 := by
            obtain rfl | rfl := Nat.mul_eq_zero.mp zero
            · rfl
            · contradiction
          rfl
      simp only [ReadCall.events, ReadCall.run, nothing, Abides]
      exact ⟨List.nil_prefix, Nat.zero_le _, by simp, by simp [zero], rest _ _⟩
    | fseek off whence => exact fun _ _ => rest _ _
    | rewind => exact rest _ _

theorem events_abide (calls : List ReadCall) (h : Synced content pos s)
    (drained : Drained src s calls) : Abides content pos (ReadCall.events src s calls) := by
  induction calls generalizing pos s with
  | nil => trivial
  | cons c calls ih =>
    obtain ⟨seek, drained⟩ := drained
    cases c with
    | getc =>
      obtain ⟨b, found, char, synced⟩ | ⟨char, ended, synced⟩ := @getc_gets src _ _ _ h
      · exact .inl ⟨b, found, char, ih synced drained⟩
      · exact .inr ⟨char, ended, ih synced drained⟩
    | fread size nmemb =>
      have freads := @fread_spec src _ _ _ h size nmemb
      exact ⟨freads.first, freads.most, freads.count, freads.short, ih freads.synced drained⟩
    | fseek off whence =>
      intro low high
      by_cases unread : s.file.rp < s.file.wp
      · exact idle_abides _ _ _ _ (seek rfl unread)
      · have order := h.order
        exact ih (fseek_spec h (by omega) off whence low high) drained
    | rewind =>
      by_cases unread : s.file.rp < s.file.wp
      · exact idle_abides _ 0 _ calls (seek rfl unread)
      · have order := h.order
        exact ih (rewind_spec h (by omega)) drained

theorem OpenedToRead.synced {f : FILE} (opened : OpenedToRead f)
    (room : f.buf.isSome → 0 < f.len) (content : List UInt8) (pos : Nat)
    (inside : pos ≤ content.length) : Synced content pos (.start f content pos) := by
  have flags : f.rp = 0 ∧ f.wp = 0 ∧ f.flags.iowrite = false ∧ f.flags.iostrg = false ∧
      f.flags.ioeof = false ∧ (f.flags.ioread ∨ f.flags.iorw) := by
    clear room
    induction opened with
    | fpopen access bin f reads closed =>
      have flags := fun (p : Flags → Bool) => congrArg p closed
      have writing : f.flags.iowrite = false := (flags Flags.iowrite).symm
      have string : f.flags.iostrg = false := (flags Flags.iostrg).symm
      have more : f.flags.ioeof = false := (flags Flags.ioeof).symm
      cases access <;> simp [Stdio.fpopen, writing, string, more] at reads ⊢
    | stdin => decide
    | setvbuf f opened buf mode size ih => exact ⟨rfl, rfl, ih.2.2⟩
  obtain ⟨rp, wp, writing, string, more, reading⟩ := flags
  exact
    { same := rfl
      inside := by simpa [Reader.start, Stream.start, rp, wp] using inside
      offset := by simp [Reader.start, Stream.start, rp, wp]
      order := by simp [Reader.start, Stream.start, rp, wp]
      unread := by simp [Reader.start, Stream.start, rp, wp]
      writing
      string
      reading
      room
      ended := by simp [Reader.start, Stream.start, more] }

/-- What a program reads is the file at the position it has moved to, in every
run in which the buffer has room for a byte and no bytes are taken after a seek
made while there were unread ones: `fseek` moves the descriptor and leaves them
in the buffer. -/
theorem input_abides (src : Source) (f : FILE) (opened : OpenedToRead f)
    (room : f.buf.isSome → 0 < f.len) (content : List UInt8) (pos : Nat)
    (inside : pos ≤ content.length) (calls : List ReadCall)
    (drained : Drained src (.start f content pos) calls) :
    Abides content pos (ReadCall.events src (.start f content pos) calls) :=
  events_abide calls (opened.synced room content pos inside) drained

/-- A source whose reads take what there is. -/
def Source.plain : Source := ⟨⟨fun _ data => data.length, fun _ => some fun _ => 0, 0⟩, fun _ => some 4096⟩

/-- Two bytes are read to the end of the file, and read again after a rewind. -/
theorem input_abides_again :
    Abides [97, 98] 0 (ReadCall.events .plain
      (.start (fpopen .O_RDONLY true { stderr with flags := .none }) [97, 98] 0) [.fread 1 2, .rewind, .getc]) := by
  refine input_abides .plain _ (.fpopen .O_RDONLY true { stderr with flags := .none } (by decide) rfl)
    (by decide) _ 0 (by decide) _ ?_
  simp only [Drained]
  decide

/-- The first byte is read, then the file from its start: the second byte comes
out of the buffer. -/
theorem rewound_getc_is_stale :
    ¬∀ (src : Source) (f : FILE), OpenedToRead f → ∀ (content : List UInt8) (calls : List ReadCall),
      Abides content 0 (ReadCall.events src (.start f content 0) calls) := by
  intro h
  have abides := h .plain stdin .stdin [97, 98] [.getc, .fseek 0 .SEEK_SET, .getc]
  have events : ReadCall.events .plain (.start stdin [97, 98] 0) [.getc, .fseek 0 .SEEK_SET, .getc] =
      [⟨.getc, .char 97, false⟩, ⟨.fseek 0 .SEEK_SET, .moved 0, false⟩, ⟨.getc, .char 98, false⟩] := by
    decide
  rw [events] at abides
  simp [Abides, target, EOF] at abides

end Scc.Libc.Stdio
