import Scc.Libc.Stdio.ReadProofs

set_option linter.all false

/-! `ftell`, beside a count of the bytes read ahead and of those not flushed. -/
namespace Scc.Libc.Stdio

/-- `tell` is what `_lseek(fp->fd, 0, SEEK_CUR)` returns. -/
def ftell (tell : Int) (f : FILE) : Int × FILE :=
  if f.flags.ioerr then (EOF, f)
  else if tell < 0 then (EOF, f.fail)
  else if f.flags.ioread then (tell - (f.wp - f.rp), f)
  else if f.flags.iowrite then (tell + (if f.flags.iolbf then f.lp else f.wp), f)
  else (tell, f)

/-- What the library leaves in `FILE` for a stream that is opened, with any buffer set before the first call. -/
inductive OpenedFor : FILE → Prop where
  | fpopen (access : Access) (bin : Bool) (f : FILE) (closed : f.flags.closed = f.flags) : OpenedFor (fpopen access bin f)
  | stdin : OpenedFor stdin
  | stdout : OpenedFor stdout
  | stderr : OpenedFor stderr
  | setvbuf (f : FILE) (opened : OpenedFor f) (buf : Option Memory) (mode : Int) (size : Nat) : OpenedFor (f.rebuffered buf mode size)

/-- The number of bytes in calls of `_write` that took all they were passed. -/
def bytesTaken : List Written → Nat
  | [] => 0
  | w :: writes => (if w.result = w.data.length then w.data.length else 0) + bytesTaken writes

/-- A call on a stream that is read, written or both. `fread`, `fwrite` and the like are calls of `getc` and `putc`. -/
inductive StreamCall where
  | getc
  | putc (ch : Int)
  | fflush
  | fseek (off : Int) (whence : Whence)
  | rewind
  | clearerr

namespace StreamCall
variable (src : Source) (s : Reader)

/-- The result of the call and the stream after it; for `rewind` it is the one of its `fseek`. -/
def run : StreamCall → Int × Reader
  | .getc => Stdio.getc src s
  | .putc ch => ((Stdio.putc src.toSystem ch s.toStream).1, { s with toStream := (Stdio.putc src.toSystem ch s.toStream).2 })
  | .fflush => ((Stdio.fflush src.toSystem s.toStream).1, { s with toStream := (Stdio.fflush src.toSystem s.toStream).2 })
  | .fseek off whence => Stdio.fseek src off whence s
  | .rewind => ((Stdio.fseek src 0 .SEEK_SET s).1, Stdio.rewind src s)
  | .clearerr => (0, Stdio.clearerr s)

/-- The bytes that are read ahead and not consumed, after the call. -/
def ahead (before : Nat) : StreamCall → Nat
  | .getc => if (Stdio.getc src s).1 = EOF then before else before + ((Stdio.getc src s).2.offset - s.offset) - 1
  | _ => before

/-- The bytes that are put and not flushed, after the call. -/
def behind (before : Nat) (call : StreamCall) : Nat :=
  let flushed := bytesTaken (call.run src s).2.writes - bytesTaken s.writes
  match call with
  | .putc _ => if (call.run src s).1 = EOF then before else before + 1 - flushed
  | .fflush => before - flushed
  | .fseek _ _ => if (call.run src s).1 = 0 then 0 else before - flushed
  | .rewind => if (call.run src s).1 = 0 then 0 else before - flushed
  | _ => before

/-- Input does not follow output that is not flushed. What is put comes behind what was put and not behind what was read;
the stream moves where nothing is unread and what is pending is flagged as written. -/
def Allowed (before after : Nat) : StreamCall → Prop
  | .getc => after = 0
  | .putc _ => s.file.flags.ioread = false → s.file.wp = after
  | .fseek _ _ => before = 0 ∧ (0 < after → s.file.flags.iowrite)
  | .rewind => before = 0 ∧ (0 < after → s.file.flags.iowrite)
  | _ => True

end StreamCall

/-- The stream whose file has got another content and whose descriptor another offset. -/
def Reader.moved (content : List UInt8) (offset : Nat) (s : Reader) : Reader := { s with content := content, offset := offset }

/-- A stream in use, with the bytes that are read ahead and those that are not flushed. No call is made where an error is
flagged. What `_write` does to the file and to the offset of its descriptor is left open; it is not called while the stream
is read. -/
inductive Session (src : Source) : Reader → Nat → Nat → Prop where
  | opened (f : FILE) (content : List UInt8) (pos : Nat) : OpenedFor f → Session src (.start f content pos) 0 0
  | call {s : Reader} {ahead behind : Nat} (call : StreamCall) (content : List UInt8) (offset : Nat) :
      Session src s ahead behind → s.file.flags.ioerr = false → call.Allowed s ahead behind →
      (s.file.flags.ioread = true → offset = s.offset ∧ content = s.content) →
      Session src (call.run src (s.moved content offset)).2 (call.ahead src (s.moved content offset) ahead)
        (call.behind src (s.moved content offset) behind)

/-! ## What the pointers say -/

/-- The pointers of a stream without an error hold the two counts. A stream that was moved after it was read has the
pointers still where the reading left them. -/
structure Held (f : FILE) (ahead behind : Nat) : Prop where
  string : f.flags.iostrg = false
  null : f.buf = none → f.rp = 0 ∧ f.wp = 0
  reading : f.flags.ioread = true → f.rp + ahead = f.wp ∧ behind = 0
  writing : f.flags.ioread = false → ahead = 0 ∧ (f.wp = behind ∨ behind = 0 ∧ f.flags.iowrite = false ∧ f.rp = f.wp)

theorem OpenedFor.held {f : FILE} (opened : OpenedFor f) : Held f 0 0 := by
  induction opened with
  | fpopen access bin f closed =>
    have string : f.flags.iostrg = false := congrArg Flags.iostrg closed.symm
    exact ⟨string, fun _ => ⟨rfl, rfl⟩, fun _ => ⟨rfl, rfl⟩, fun _ => ⟨rfl, .inl rfl⟩⟩
  | stdin => exact ⟨rfl, fun _ => ⟨rfl, rfl⟩, fun _ => ⟨rfl, rfl⟩, fun _ => ⟨rfl, .inl rfl⟩⟩
  | stdout => exact ⟨rfl, fun _ => ⟨rfl, rfl⟩, fun _ => ⟨rfl, rfl⟩, fun _ => ⟨rfl, .inl rfl⟩⟩
  | stderr => exact ⟨rfl, fun _ => ⟨rfl, rfl⟩, fun _ => ⟨rfl, rfl⟩, fun _ => ⟨rfl, .inl rfl⟩⟩
  | setvbuf f opened buf mode size ih =>
    exact ⟨ih.string, fun _ => ⟨rfl, rfl⟩, fun _ => ⟨rfl, rfl⟩, fun _ => ⟨rfl, .inl rfl⟩⟩

variable {sys : System} {s : Stream}

theorem bytesTaken_concat (writes : List Written) (w : Written) :
    bytesTaken (writes ++ [w]) = bytesTaken writes + if w.result = w.data.length then w.data.length else 0 := by
  induction writes with
  | nil => exact Nat.add_comm _ _
  | cons first writes ih =>
    change _ + bytesTaken (writes ++ [w]) = _ + bytesTaken writes + _
    rw [ih, Nat.add_assoc]

/-- What `_flsbuf` does: nothing while reading, and else it passes on all that is pending or fails. -/
inductive Flushes (s : Stream) : Int × Stream → Prop where
  | reading : s.file.flags.ioread = true → Flushes s (0, s)
  | whole (writes : List Written) : s.file.flags.ioread = false → bytesTaken writes = bytesTaken s.writes + s.file.wp →
      Flushes s (0, { s with writes := writes, file := { s.file with wp := 0 } })
  | failed (writes : List Written) : s.file.flags.ioread = false → bytesTaken writes = bytesTaken s.writes →
      Flushes s (EOF, { s with writes := writes, file := s.file.fail })

theorem flsbuf_flushes (sys : System) (null : s.file.buf = none → s.file.wp = 0) : Flushes s (flsbuf sys s) := by
  unfold flsbuf
  split
  · exact .reading ‹_›
  · have writing : s.file.flags.ioread = false := (Bool.not_eq_true _).mp ‹_›
    split
    · rename_i pending
      have there : s.file.buf.isSome := by
        cases buf : s.file.buf with
        | none => exact absurd (null buf) (Nat.ne_of_gt pending)
        | some => rfl
      have length := FILE.pending_length s.file there
      dsimp only
      split
      · rename_i short
        apply Flushes.failed _ writing
        rw [bytesTaken_concat, length, if_neg short]
        rfl
      · rename_i whole
        apply Flushes.whole _ writing
        rw [bytesTaken_concat, length, if_pos (not_not.mp whole)]
    · apply Flushes.whole s.writes writing
      omega

/-- A stream that is not read and has taken so many more bytes. -/
structure Carries (n : Nat) (s t : Stream) : Prop where
  reading : t.file.flags.ioread = false
  string : t.file.flags.iostrg = false
  there : t.file.buf.isSome
  total : bytesTaken t.writes + t.file.wp = bytesTaken s.writes + s.file.wp + n
  grown : bytesTaken s.writes ≤ bytesTaken t.writes

variable {t u : Stream} {n m : Nat} {r : Int × Stream}

theorem Carries.trans (first : Carries n s t) (second : Carries m t u) : Carries (n + m) s u := by
  refine ⟨second.reading, second.string, second.there, ?_, first.grown.trans second.grown⟩
  rw [second.total, first.total]
  omega

/-- The call fails with an error flagged, or has given the stream so many bytes. -/
def Gives (n : Nat) (s : Stream) (r : Int × Stream) : Prop :=
  r.1 = EOF ∧ r.2.file.flags.ioerr = true ∨ r.1 ≠ EOF ∧ Carries n s r.2

theorem accepted_gives (ch : Int) (carries : Carries n s t) : Gives n s (accepted ch t) := by
  refine .inr ⟨?_, carries.reading, carries.string, carries.there, carries.total, carries.grown⟩
  unfold accepted EOF
  dsimp only
  omega

theorem store_carries (c : UInt8) (carries : Carries n s t) : Carries (n + 1) s (t.store c) := by
  refine carries.trans ⟨carries.reading, carries.string, ?_, rfl, Nat.le_refl _⟩
  have there := carries.there
  unfold Stream.store FILE.store
  rwa [Option.isSome_map]

/-- A flush before the rest of the call. -/
theorem flushed_gives {rest : Stream → Int × Stream} (sys : System) (carries : Carries n s t)
    (gives : ∀ u, Carries n s u → Gives m s (rest u)) : Gives m s (unlessFails (flsbuf sys t) rest) := by
  have null : t.file.buf = none → t.file.wp = 0 := by
    intro none
    have there := carries.there
    rw [none] at there
    cases there
  have effect := flsbuf_flushes sys null
  generalize flsbuf sys t = result at effect ⊢
  cases effect with
  | reading => exact gives t carries
  | whole writes reading taken =>
    apply gives
    have emptied : Carries 0 t { t with writes := writes, file := { t.file with wp := 0 } } :=
      ⟨reading, carries.string, carries.there, taken, by dsimp only; omega⟩
    exact carries.trans emptied
  | failed => exact .inl ⟨rfl, rfl⟩

/-- A flush before the rest of the call, where there is one. -/
theorem maybe_gives {rest : Stream → Int × Stream} (sys : System) (flush : Prop) [Decidable flush] (carries : Carries n s t)
    (gives : ∀ u, Carries n s u → Gives m s (rest u)) :
    Gives m s (unlessFails (if flush then flsbuf sys t else (0, t)) rest) := by
  split
  · exact flushed_gives sys carries gives
  · exact gives t carries

theorem putcBuffered_gives (sys : System) (ch : Int) (carries : Carries n s t) : Gives (n + 1) s (putcBuffered sys ch t) := by
  unfold putcBuffered
  split
  · apply maybe_gives sys _ carries
    intro u carries
    apply maybe_gives sys _ (store_carries _ carries)
    intro v carries
    exact accepted_gives ch carries
  · split
    · apply flushed_gives sys carries
      intro u carries
      have stored := store_carries (uchar ch) carries
      exact accepted_gives ch ⟨stored.reading, stored.string, stored.there, stored.total, stored.grown⟩
    · apply flushed_gives sys (store_carries _ carries)
      intro u carries
      exact accepted_gives ch carries

theorem putc_gives (sys : System) (ch : Int) (reading : s.file.flags.ioread = false) (string : s.file.flags.iostrg = false)
    (null : s.file.buf = none → s.file.rp = 0 ∧ s.file.wp = 0) : Gives 1 s (putc sys ch s) := by
  unfold putc
  split
  · unfold putcSlow
    split
    · exact .inl ⟨rfl, ‹_›⟩
    rw [reading, string, if_neg Bool.false_ne_true, if_neg Bool.false_ne_true]
    cases buf : s.file.buf with
    | some memory =>
      have same : Carries 0 s s := ⟨reading, string, by rw [buf]; rfl, rfl, Nat.le_refl _⟩
      exact putcBuffered_gives sys ch same
    | none =>
      unfold Stream.allocbuf unlessFails allocbuf
      cases given : sys.malloc s.mallocs with
      | none => exact .inl ⟨rfl, rfl⟩
      | some memory =>
        have fresh : Carries 0 s
            { s with
              file := { s.file with buf := some memory, rp := 0, wp := 0, lp := BUFSIZ, len := BUFSIZ }
              mallocs := s.mallocs + 1 } :=
          ⟨reading, string, rfl, by rw [(null buf).2]; rfl, Nat.le_refl _⟩
        exact putcBuffered_gives sys ch fresh
  · rename_i inside
    have there : s.file.buf.isSome := by
      cases buf : s.file.buf with
      | none =>
        have := null buf
        omega
      | some => rfl
    have same : Carries 0 s s := ⟨reading, string, there, rfl, Nat.le_refl _⟩
    refine .inr ⟨?_, store_carries _ same⟩
    unfold EOF
    dsimp only
    omega

/-! ## Each call keeps them -/

variable {src : Source} {reader : Reader} {ahead behind : Nat}

/-- What a `getc` leaves of a stream whose descriptor was at the offset. -/
def Reads (ahead offset : Nat) (r : Int × Reader) : Prop :=
  let left := if r.1 = EOF then ahead else ahead + (r.2.offset - offset) - 1
  left ≤ r.2.offset ∧ (r.2.file.flags.ioerr = false → Held r.2.file left 0)

theorem byte_ne (b : UInt8) : (b.toNat : Int) ≠ EOF := by
  unfold EOF
  omega

/-- A `getc` that gives no byte and leaves the pointers. -/
theorem idle_reads {s : Reader} (bound : ahead ≤ s.offset) (held : s.file.flags.ioerr = false → Held s.file ahead 0) :
    Reads ahead s.offset (EOF, s) := ⟨bound, held⟩

theorem getcBuffered_reads (src : Source) (held : Held reader.file 0 0) :
    Reads 0 reader.offset (getcBuffered src reader) := by
  unfold getcBuffered
  generalize readBuffer src reader.file.memory reader = r
  obtain ⟨cnt, memory⟩ := r
  dsimp only
  split
  · refine ⟨Nat.zero_le _, fun running => ?_⟩
    split
    · exact ⟨held.string, held.null, held.reading, held.writing⟩
    · rename_i failed
      rw [if_neg failed] at running
      cases running
  · rename_i got
    have left : (if ((memory 0).toNat : Int) = EOF then 0 else 0 + (reader.offset + cnt.toNat - reader.offset) - 1) = cnt.toNat - 1 := by
      rw [if_neg (byte_ne _)]
      omega
    unfold Reads
    dsimp only
    rw [left]
    refine ⟨by omega, fun _ => ⟨held.string, nofun, fun _ => ⟨?_, rfl⟩, nofun⟩⟩
    dsimp only
    omega

theorem getc_reads (src : Source) (bound : ahead ≤ reader.offset) (held : Held reader.file ahead 0) :
    Reads ahead reader.offset (getc src reader) := by
  have drained : reader.file.wp ≤ reader.file.rp → ahead = 0 := by
    intro empty
    cases reading : reader.file.flags.ioread with
    | true =>
      have := (held.reading reading).1
      omega
    | false => exact (held.writing reading).1
  unfold getc
  split
  · rename_i empty
    obtain rfl := drained empty
    unfold getcSlow
    split
    · exact idle_reads bound fun _ => held
    split
    · exact idle_reads (s := { reader with toStream := reader.toStream.fail .EBADF }) bound nofun
    rw [held.string, if_neg Bool.false_ne_true]
    cases buf : reader.file.buf with
    | some memory => exact getcBuffered_reads src held
    | none =>
      unfold Stream.allocbuf allocbuf
      cases given : src.malloc reader.mallocs with
      | none => exact ⟨Nat.zero_le _, nofun⟩
      | some memory =>
        have fresh : Held { reader.file with buf := some memory, rp := 0, wp := 0, lp := BUFSIZ, len := BUFSIZ } 0 0 :=
          ⟨held.string, nofun, fun _ => ⟨rfl, rfl⟩, fun _ => ⟨rfl, .inl rfl⟩⟩
        exact getcBuffered_reads src fresh
  · rename_i more
    cases reading : reader.file.flags.ioread with
    | true =>
      have pointers := (held.reading reading).1
      have left : (if ((reader.file.memory reader.file.rp).toNat : Int) = EOF then ahead else ahead + (reader.offset - reader.offset) - 1) =
          ahead - 1 := by
        rw [if_neg (byte_ne _), Nat.sub_self]
        rfl
      unfold Reads
      dsimp only
      rw [left]
      refine ⟨by omega, fun _ => ⟨held.string, fun none => ?_, fun _ => ⟨?_, rfl⟩, fun writing => absurd reading (by rw [writing]; exact Bool.false_ne_true)⟩⟩
      · have := held.null none
        omega
      · dsimp only
        omega
    | false =>
      have := (held.writing reading).2
      omega

/-- The pointers hold the counts of a stream without an error, and no more is read ahead than was passed. -/
def Tallied (s : Reader) (ahead behind : Nat) : Prop :=
  ahead ≤ s.offset ∧ (s.file.flags.ioerr = false → Held s.file ahead behind)

theorem putc_tallied (ch : Int) (running : reader.file.flags.ioerr = false) (tallied : Tallied reader ahead behind)
    (allowed : (StreamCall.putc ch).Allowed reader ahead behind) :
    Tallied ((StreamCall.putc ch).run src reader).2 ((StreamCall.putc ch).ahead src reader ahead)
      ((StreamCall.putc ch).behind src reader behind) := by
  have held := tallied.2 running
  refine ⟨tallied.1, fun still => ?_⟩
  cases reading : reader.file.flags.ioread with
  | true =>
    -- the character is refused with an error
    have pointers := (held.reading reading).1
    change (putc src.toSystem ch reader.toStream).2.file.flags.ioerr = false at still
    unfold putc putcSlow at still
    rw [if_pos (by omega), running, reading, if_neg Bool.false_ne_true, if_pos rfl] at still
    cases still
  | false =>
    have place := allowed reading
    rcases putc_gives src.toSystem ch reading held.string held.null with ⟨-, failed⟩ | ⟨taken, carries⟩
    · cases failed.symm.trans still
    · have total := carries.total
      have grown := carries.grown
      have behind_eq : (StreamCall.putc ch).behind src reader behind = (putc src.toSystem ch reader.toStream).2.file.wp := by
        unfold StreamCall.behind StreamCall.run
        dsimp only
        rw [if_neg taken]
        omega
      refine ⟨carries.string, fun none => ?_, fun read => ?_, fun _ => ⟨(held.writing reading).1, .inl behind_eq.symm⟩⟩
      · have there := carries.there
        change (putc src.toSystem ch reader.toStream).2.file.buf = Option.none at none
        rw [none] at there
        cases there
      · cases carries.reading.symm.trans read

theorem fflush_tallied (running : reader.file.flags.ioerr = false) (tallied : Tallied reader ahead behind) :
    Tallied (StreamCall.fflush.run src reader).2 (StreamCall.fflush.ahead src reader ahead)
      (StreamCall.fflush.behind src reader behind) := by
  have held := tallied.2 running
  refine ⟨tallied.1, fun still => ?_⟩
  unfold StreamCall.behind StreamCall.run fflush
  unfold StreamCall.run fflush at still
  have effect := flsbuf_flushes src.toSystem fun none => (held.null none).2
  generalize flsbuf src.toSystem reader.toStream = r at effect still
  cases effect with
  | reading reading =>
    dsimp only
    rw [Nat.sub_self, Nat.sub_zero]
    exact held
  | whole writes reading taken =>
    have counts := held.writing reading
    refine ⟨held.string, fun none => ⟨(held.null none).1, rfl⟩, fun read => ?_, fun _ => ⟨counts.1, .inl ?_⟩⟩
    · cases reading.symm.trans read
    · dsimp only
      omega
  | failed => cases still

/-- The counts depend on the pointers and on these flags only. -/
theorem Held.same {f g : FILE} (held : Held f ahead behind) (string : g.flags.iostrg = f.flags.iostrg) (buf : g.buf = f.buf)
    (rp : g.rp = f.rp) (wp : g.wp = f.wp) (ioread : g.flags.ioread = f.flags.ioread) (iowrite : g.flags.iowrite = f.flags.iowrite) :
    Held g ahead behind := by
  obtain ⟨held_string, null, reading, writing⟩ := held
  constructor
  · rwa [string]
  · rwa [buf, rp, wp]
  · rwa [rp, wp, ioread]
  · rwa [rp, wp, ioread, iowrite]

/-- The flags that `fseek` leaves. -/
theorem Held.moved {f : FILE} (held : Held f 0 0) :
    Held { f with flags :=
      { (if f.flags.iorw then { f.flags with ioread := false, iowrite := false } else f.flags) with ioeof := false } } 0 0 := by
  split
  · refine ⟨held.string, held.null, nofun, fun _ => ⟨rfl, ?_⟩⟩
    cases reading : f.flags.ioread with
    | true => exact .inr ⟨rfl, rfl, (held.reading reading).1⟩
    | false =>
      rcases (held.writing reading).2 with empty | ⟨-, -, same⟩
      · exact .inl empty
      · exact .inr ⟨rfl, rfl, same⟩
  · exact held.same rfl rfl rfl rfl rfl rfl

/-- The bytes not flushed after these calls of `_write`. -/
def leftOver (behind : Nat) (s t : Stream) : Nat := behind - (bytesTaken t.writes - bytesTaken s.writes)

/-- What `fseek` does first. -/
theorem seek_flush (sys : System) (held : Held s.file 0 behind) (flagged : 0 < behind → s.file.flags.iowrite = true)
    (r : Int × Stream) (flush : r = if s.file.flags.iowrite then flsbuf sys s else (0, s)) :
    Held r.2.file 0 (leftOver behind s r.2) ∧ (r.1 = 0 → leftOver behind s r.2 = 0) := by
  unfold leftOver
  split at flush
  · rename_i writing
    have effect := flsbuf_flushes sys fun none => (held.null none).2
    rw [← flush] at effect
    cases effect with
    | reading reading =>
      rw [Nat.sub_self, Nat.sub_zero]
      exact ⟨held, fun _ => (held.reading reading).2⟩
    | whole writes reading taken =>
      have counts := (held.writing reading).2
      have none : behind - (bytesTaken writes - bytesTaken s.writes) = 0 := by
        rcases counts with pending | ⟨zero, -, -⟩ <;> omega
      dsimp only
      rw [none]
      refine ⟨⟨held.string, fun none => ⟨(held.null none).1, rfl⟩, fun read => ?_, fun _ => ⟨rfl, .inl rfl⟩⟩, fun _ => rfl⟩
      cases reading.symm.trans read
    | failed writes reading taken =>
      dsimp only
      rw [taken, Nat.sub_self, Nat.sub_zero]
      exact ⟨held.same rfl rfl rfl rfl rfl rfl, nofun⟩
  · rename_i still
    rw [flush]
    dsimp only
    rw [Nat.sub_self, Nat.sub_zero]
    exact ⟨held, fun _ => Nat.eq_zero_of_not_pos fun pending => still (flagged pending)⟩

theorem lseek_stream (off : Int) (whence : Whence) (s : Reader) : (lseek off whence s).2.toStream = s.toStream := by
  unfold lseek
  dsimp only
  cases whence <;> dsimp only <;> split <;> rfl

theorem fseek_held (src : Source) (off : Int) (whence : Whence) (running : reader.file.flags.ioerr = false)
    (held : Held reader.file 0 behind) (flagged : 0 < behind → reader.file.flags.iowrite = true) :
    Held (fseek src off whence reader).2.file 0
      (if (fseek src off whence reader).1 = 0 then 0 else leftOver behind reader.toStream (fseek src off whence reader).2.toStream) := by
  unfold fseek
  rw [running, if_neg Bool.false_ne_true]
  obtain ⟨after, passes⟩ := seek_flush src.toSystem held flagged _ rfl
  generalize (if reader.file.flags.iowrite then flsbuf src.toSystem reader.toStream else (0, reader.toStream)) = r at after passes ⊢
  obtain ⟨result, stream⟩ := r
  dsimp only at after passes ⊢
  split
  · exact after
  · rename_i went
    have none := passes (not_not.mp went)
    rw [none] at after
    generalize (if decide (whence = .SEEK_CUR) && stream.file.flags.ioread then off - ((stream.file.wp : Int) - stream.file.rp) else off) = off
    have stays := lseek_stream off whence { reader with toStream := stream }
    generalize lseek off whence { reader with toStream := stream } = sought at stays ⊢
    obtain ⟨place, stream', content, offset, reads⟩ := sought
    dsimp only at stays ⊢
    subst stays
    split
    · have refused : ¬EOF = 0 := by decide
      rw [if_neg refused, none]
      exact after
    · rw [if_pos rfl]
      exact after.moved

theorem call_tallied (src : Source) (call : StreamCall) (running : reader.file.flags.ioerr = false) (tallied : Tallied reader ahead behind)
    (allowed : call.Allowed reader ahead behind) :
    Tallied (call.run src reader).2 (call.ahead src reader ahead) (call.behind src reader behind) := by
  have held := tallied.2 running
  cases call with
  | getc =>
    have none : behind = 0 := allowed
    subst none
    exact getc_reads src tallied.1 held
  | putc ch => exact putc_tallied ch running tallied allowed
  | fflush => exact fflush_tallied running tallied
  | fseek off whence =>
    obtain ⟨rfl, flagged⟩ := allowed
    exact ⟨Nat.zero_le _, fun _ => fseek_held src off whence running held flagged⟩
  | rewind =>
    obtain ⟨rfl, flagged⟩ := allowed
    refine ⟨Nat.zero_le _, fun _ => ?_⟩
    have same : ({ reader.file.flags with ioerr := false } : Flags) = reader.file.flags := by rw [← running]
    have sought := fseek_held src 0 .SEEK_SET running held flagged
    unfold StreamCall.behind StreamCall.run rewind
    dsimp only
    rw [same]
    exact sought.same rfl rfl rfl rfl rfl rfl
  | clearerr => exact ⟨tallied.1, fun _ => held.same rfl rfl rfl rfl rfl rfl⟩

theorem session_tallied {src : Source} {s : Reader} (session : Session src s ahead behind) : Tallied s ahead behind := by
  induction session with
  | opened f content pos opened => exact ⟨Nat.zero_le _, fun _ => opened.held⟩
  | @call s ahead behind call content offset session running allowed still ih =>
    have held := ih.2 running
    have bound : ahead ≤ offset := by
      cases reading : s.file.flags.ioread with
      | true =>
        rw [(still reading).1]
        exact ih.1
      | false =>
        rw [(held.writing reading).1]
        exact Nat.zero_le _
    exact call_tallied src call running ⟨bound, fun _ => held⟩ allowed

/-- `ftell` returns the position and leaves the stream as it is, exactly where no error is flagged, the descriptor has an
offset, and a stream that is not read has the pointer that is used where the pending bytes end. -/
theorem ftell_iff {src : Source} {s : Reader} {ahead behind : Nat} (session : Session src s ahead behind) (tell : Int)
    (place : 0 ≤ tell → tell = s.offset) :
    ftell tell s.file = ((s.offset : Int) - ahead + behind, s.file) ↔
      s.file.flags.ioerr = false ∧ 0 ≤ tell ∧
        (s.file.flags.ioread = false → if s.file.flags.iowrite then s.file.flags.iolbf = true → s.file.lp = s.file.wp else behind = 0) := by
  obtain ⟨bound, held⟩ := session_tallied session
  unfold ftell
  cases running : s.file.flags.ioerr with
  | true =>
    refine ⟨fun same => ?_, fun all => absurd all.1 Bool.noConfusion⟩
    have position : EOF = (s.offset : Int) - ahead + behind := congrArg Prod.fst same
    unfold EOF at position
    omega
  | false =>
    have held := held running
    rw [if_neg Bool.false_ne_true]
    by_cases sought : tell < 0
    · rw [if_pos sought]
      refine ⟨fun same => ?_, fun all => absurd all.2.1 (by omega)⟩
      have position : EOF = (s.offset : Int) - ahead + behind := congrArg Prod.fst same
      unfold EOF at position
      omega
    obtain rfl := place (by omega)
    rw [if_neg sought]
    have known : (0 : Int) ≤ s.offset := by omega
    cases reading : s.file.flags.ioread with
    | true =>
      have pointers := held.reading reading
      refine ⟨fun _ => ⟨rfl, known, nofun⟩, fun _ => ?_⟩
      rw [if_pos rfl]
      congr 1
      omega
    | false =>
      obtain ⟨rfl, pending⟩ := held.writing reading
      rw [if_neg Bool.false_ne_true]
      cases writing : s.file.flags.iowrite with
      | true =>
        have ends : s.file.wp = behind := by
          rcases pending with ends | ⟨-, other, -⟩
          · exact ends
          · cases writing.symm.trans other
        rw [if_pos rfl, if_pos rfl]
        constructor
        · intro same
          have position : (s.offset : Int) + (if s.file.flags.iolbf then s.file.lp else s.file.wp) = (s.offset : Int) - (0 : Nat) + behind :=
            congrArg Prod.fst same
          refine ⟨rfl, known, fun _ line => ?_⟩
          rw [if_pos line] at position
          omega
        · rintro ⟨-, -, full⟩
          have place : (if s.file.flags.iolbf then s.file.lp else s.file.wp) = s.file.wp := by
            split
            · exact full rfl ‹_›
            · rfl
          rw [place]
          congr 1
          omega
      | false =>
        rw [if_neg Bool.false_ne_true, if_neg Bool.false_ne_true]
        constructor
        · intro same
          have position : (s.offset : Int) = (s.offset : Int) - (0 : Nat) + behind := congrArg Prod.fst same
          exact ⟨rfl, known, fun _ => by omega⟩
        · rintro ⟨-, -, none⟩
          have none := none rfl
          congr 1
          omega

/-- Two bytes are read, and one of them is consumed. -/
theorem ftell_one_read :
    ∃ s, Session Source.plain s 1 0 ∧ (ftell 2 s.file = ((s.offset : Int) - (1 : Nat) + (0 : Nat), s.file) ↔
      s.file.flags.ioerr = false ∧ (0 : Int) ≤ 2 ∧
        (s.file.flags.ioread = false → if s.file.flags.iowrite then s.file.flags.iolbf = true → s.file.lp = s.file.wp else 0 = 0)) := by
  have session : Session Source.plain (getc Source.plain (.start stdin [97, 98] 0)).2 1 0 :=
    .call .getc [97, 98] 0 (.opened stdin [97, 98] 0 .stdin) rfl rfl fun _ => ⟨rfl, rfl⟩
  exact ⟨_, session, ftell_iff session 2 fun _ => rfl⟩

/-- One byte is put on `stdout` and pending in its line buffer of 512 bytes. -/
theorem line_end_told : ∃ s, Session Source.plain s 0 1 ∧ s.offset = 0 ∧ (ftell 0 s.file).1 = 512 :=
  ⟨_, .call (.putc 97) [] 0 (.opened stdout [] 0 .stdout) rfl (fun _ => rfl) nofun, rfl, rfl⟩

end Scc.Libc.Stdio
