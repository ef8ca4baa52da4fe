import Scc.Libc.Stdio.File
import Scc.Transition.Ledger

set_option linter.all false

/-! Every byte given to a write stream is passed to `_write` or pending, once and in order. -/
namespace Scc.Libc.Stdio
open Scc.Transition

variable {sys : System} {s s' : Stream}

/-- Every call of `_write` so far took all it was passed. -/
def Complete (s : Stream) : Prop := ∀ w ∈ s.writes, w.complete

/-- What the stream holds of the bytes it was given: those passed on and those pending. -/
def Stream.ledger (s : Stream) : Ledger UInt8 := ⟨s.sent ++ s.file.pending, s.file.flags.ioerr⟩

/-- A stream in any buffering mode between two calls of the program, while every
write is complete. `sized` says that it never got a buffer of no bytes. -/
structure Writable (sys : System) (sized : Prop) (s : Stream) : Prop where
  reading : s.file.flags.ioread = false
  string : s.file.flags.iostrg = false
  writing : s.file.flags.iowrite ∨ s.file.flags.iorw
  refusing : s.file.flags.ioerr → ∃ i < s.mallocs, (sys.malloc i).isNone
  halted : s.file.flags.ioerr → s.file.rp = 0
  null : s.file.buf = none → s.file.rp = 0 ∧ s.file.wp = 0
  direct : s.file.flags.iolbf = true ∨ s.file.flags.iofbf = false → s.file.rp = 0
  full : s.file.rp = 0 ∨ s.file.rp = s.file.len
  limit : s.file.flags.iolbf → s.file.buf.isSome → s.file.lp = s.file.len
  single : s.file.flags.iolbf = false → s.file.flags.iofbf = false → s.file.wp = 0
  dirty : 0 < s.file.rp ∨ 0 < s.file.wp → s.file.flags.iowrite
  room : 0 < s.file.len → s.file.wp ≤ s.file.len
  stores : sized → (s.file.buf.isSome → 0 < s.file.len) ∧ s.stray = false

/-! ## Calls of `_write` are only added -/

/-- `s'` comes from `s` by further calls of `_write`. -/
def Grows (s s' : Stream) : Prop := s.writes <+: s'.writes

theorem Grows.complete (h : Grows s s') (all : Complete s') : Complete s :=
  fun w hw => all w (h.subset hw)

theorem unlessFails_grows {r : Int × Stream} {rest : Stream → Int × Stream} (h : Grows s r.2)
    (h' : ∀ s, Grows s (rest s).2) : Grows s (unlessFails r rest).2 := by
  unfold unlessFails
  split
  · exact h.trans (h' _)
  · exact h

theorem accepted_grows (ch : Int) (s : Stream) : Grows s (accepted ch s).2 := List.prefix_rfl

@[simp] theorem unlessFails_zero (s : Stream) (rest : Stream → Int × Stream) :
    unlessFails (0, s) rest = rest s := if_pos rfl

@[simp] theorem unlessFails_eof (s : Stream) (rest : Stream → Int × Stream) :
    unlessFails (EOF, s) rest = (EOF, s) := if_neg (by simp [EOF])

theorem flsbuf_grows (sys : System) (s : Stream) : Grows s (flsbuf sys s).2 := by
  unfold flsbuf
  split
  · exact List.prefix_rfl
  · split
    · dsimp only
      split <;> exact List.prefix_append _ _
    · exact List.prefix_rfl

theorem putcBuffered_grows (sys : System) (ch : Int) (s : Stream) :
    Grows s (putcBuffered sys ch s).2 := by
  have maybe : ∀ (c : Prop) [Decidable c] (s : Stream),
      Grows s (if c then flsbuf sys s else (0, s)).2 := by
    intro c _ s
    split
    · exact flsbuf_grows sys s
    · exact List.prefix_rfl
  unfold putcBuffered
  split
  · refine unlessFails_grows (maybe _ s) fun s => ?_
    exact unlessFails_grows (maybe _ (s.store (uchar ch))) fun s => List.prefix_rfl
  · split
    · exact unlessFails_grows (flsbuf_grows sys s) fun s => List.prefix_rfl
    · exact unlessFails_grows (flsbuf_grows sys (s.store (uchar ch))) fun s => List.prefix_rfl

theorem putcSlow_grows (sys : System) (ch : Int) (s : Stream) : Grows s (putcSlow sys ch s).2 := by
  unfold putcSlow
  split
  · exact List.prefix_rfl
  split
  · exact List.prefix_rfl
  split
  · exact List.prefix_rfl
  refine unlessFails_grows ?_ (putcBuffered_grows sys ch)
  split <;> exact List.prefix_rfl

theorem putc_grows (sys : System) (ch : Int) (s : Stream) : Grows s (putc sys ch s).2 := by
  unfold putc
  split
  · exact putcSlow_grows sys ch s
  · exact List.prefix_rfl

/-! ## What a complete flush does -/

/-- The stream once its pending bytes have gone out in the calls `more`. -/
def Stream.flushed (more : List Written) (s : Stream) : Stream :=
  { s with writes := s.writes ++ more, file := { s.file with wp := 0 } }

theorem flsbuf_complete (reading : s.file.flags.ioread = false)
    (null : s.file.buf = none → s.file.wp = 0) (all : Complete (flsbuf sys s).2) :
    ∃ more, more.flatMap Written.data = s.file.pending ∧ flsbuf sys s = (0, s.flushed more) := by
  unfold flsbuf at all ⊢
  simp only [reading, Bool.false_eq_true, if_false] at all ⊢
  by_cases some : 0 < s.file.wp
  · have there : s.file.buf.isSome := by
      cases h : s.file.buf with
      | none => simp [null h] at some
      | some => rfl
    have taken : sys.write s.writes s.file.pending = s.file.wp := by
      have : Written.complete ⟨s.file.pending, sys.write s.writes s.file.pending⟩ := by
        apply all
        simp only [some, if_true]
        split <;> simp
      simpa [Written.complete, FILE.pending_length _ there] using this
    exact ⟨[⟨s.file.pending, s.file.wp⟩], by simp, by simp [some, taken, Stream.flushed]⟩
  · refine ⟨[], by simp [FILE.pending_empty _ (Nat.eq_zero_of_not_pos some)], ?_⟩
    simp [some, Stream.flushed]

theorem Stream.flushed_ledger {more : List Written}
    (out : more.flatMap Written.data = s.file.pending) : (s.flushed more).ledger = s.ledger := by
  have empty : (s.flushed more).file.pending = [] := FILE.pending_empty _ rfl
  simp [ledger, empty]
  simp [flushed, sent, out]

theorem Writable.flushed {sized : Prop} (h : Writable sys sized s) (more : List Written) :
    Writable sys sized (s.flushed more) where
  reading := h.reading
  string := h.string
  writing := h.writing
  refusing := h.refusing
  halted := h.halted
  null := fun none => ⟨(h.null none).1, rfl⟩
  direct := h.direct
  full := h.full
  limit := h.limit
  single := fun _ _ => rfl
  dirty := by simpa [Stream.flushed] using fun some => h.dirty (.inl some)
  room := by simp [Stream.flushed]
  stores := h.stores

/-! ## One character -/

theorem Stream.store_ledger (c : UInt8) (there : s.file.buf.isSome) :
    (s.store c).ledger = ⟨s.ledger.taken ++ [c], s.ledger.stopped⟩ := by
  simp only [ledger, store, FILE.store_pending _ c there, sent]
  simp [FILE.store]

/-- Storing a character in a buffer with room for it, with `rp` left or set to
the end of the buffer as its mode asks. -/
theorem Writable.stored {sized : Prop} (h : Writable sys sized s) (c : UInt8) (rp : Nat)
    (writes : Bool) (running : s.file.flags.ioerr = false) (there : s.file.buf.isSome) (fits : 0 < s.file.len → s.file.wp < s.file.len)
    (buffered : s.file.flags.iolbf = true ∧ rp = 0 ∨
      s.file.flags.iolbf = false ∧ s.file.flags.iofbf = true ∧ rp = s.file.len)
    (dirty : writes) :
    Writable sys sized { s.store c with
      file := { (s.store c).file with rp := rp, flags := { s.file.flags with iowrite := writes } } } where
  reading := h.reading
  string := h.string
  writing := .inl dirty
  refusing := h.refusing
  halted := by simp [running]
  null := by
    intro none
    simp [Stream.store, FILE.store, Option.map_eq_none_iff] at none
    simp [none] at there
  direct := by
    obtain ⟨_, at0⟩ | ⟨line, full, _⟩ := buffered
    · exact fun _ => at0
    · simp [line, full]
  full := by
    obtain ⟨_, at0⟩ | ⟨_, _, ended⟩ := buffered
    · exact .inl at0
    · exact .inr ended
  limit := fun line _ => h.limit line there
  single := by
    obtain ⟨line, _⟩ | ⟨_, full, _⟩ := buffered
    · simp [line]
    · simp [full]
  dirty := fun _ => dirty
  room := fun some => fits some
  stores := by
    intro size
    obtain ⟨some, inside⟩ := h.stores size
    refine ⟨fun _ => some there, ?_⟩
    simp [Stream.store, inside, FILE.room, there, fits (some there)]

/-- A character that is stored and goes out at once leaves the stream as it was. -/
theorem Writable.passed {sized : Prop} (h : Writable sys sized s) (c : UInt8) (more : List Written)
    (there : s.file.buf.isSome) (fits : 0 < s.file.len → s.file.wp < s.file.len) (ch : Int) :
    Writable sys sized (accepted ch ((s.store c).flushed more)).2 where
  reading := h.reading
  string := h.string
  writing := .inl rfl
  refusing := h.refusing
  halted := h.halted
  null := by
    intro none
    simp [accepted, Stream.flushed, Stream.store, FILE.store, Option.map_eq_none_iff] at none
    simp [none] at there
  direct := h.direct
  full := h.full
  limit := fun line _ => h.limit line there
  single := fun _ _ => rfl
  dirty := fun _ => rfl
  room := fun _ => Nat.zero_le _
  stores := by
    intro size
    obtain ⟨some, inside⟩ := h.stores size
    refine ⟨fun _ => some there, ?_⟩
    simp [accepted, Stream.flushed, Stream.store, inside, FILE.room, there, fits (some there)]

theorem store_flsbuf {sized : Prop} (h : Writable sys sized s) (ch : Int)
    (there : s.file.buf.isSome) (fits : 0 < s.file.len → s.file.wp < s.file.len)
    (all : Complete (flsbuf sys (s.store (uchar ch))).2) :
    Writable sys sized (unlessFails (flsbuf sys (s.store (uchar ch))) (accepted ch)).2 ∧
      (unlessFails (flsbuf sys (s.store (uchar ch))) (accepted ch)).2.ledger =
        ⟨s.ledger.taken ++ [uchar ch], s.ledger.stopped⟩ := by
  have null : (s.store (uchar ch)).file.buf = none → (s.store (uchar ch)).file.wp = 0 := by
    intro none
    simp [Stream.store, FILE.store, Option.map_eq_none_iff] at none
    simp [none] at there
  obtain ⟨more, out, flush⟩ := flsbuf_complete (s := s.store (uchar ch)) h.reading null all
  rw [flush]
  refine ⟨h.passed (uchar ch) more there fits ch, ?_⟩
  exact (Stream.flushed_ledger out).trans (Stream.store_ledger _ there)

theorem unlessFails_first (r : Int × Stream) {rest : Stream → Int × Stream}
    (h : ∀ s, Grows s (rest s).2) : Grows r.2 (unlessFails r rest).2 :=
  unlessFails_grows List.prefix_rfl h

theorem line_store {sized : Prop} (h : Writable sys sized s) (ch : Int)
    (running : s.file.flags.ioerr = false)
    (there : s.file.buf.isSome) (fits : 0 < s.file.len → s.file.wp < s.file.len)
    (line : s.file.flags.iolbf = true)
    (all : Complete (unlessFails (if ch = '\n'.toNat then flsbuf sys (s.store (uchar ch))
      else (0, s.store (uchar ch))) (accepted ch)).2) :
    Writable sys sized (unlessFails (if ch = '\n'.toNat then flsbuf sys (s.store (uchar ch))
      else (0, s.store (uchar ch))) (accepted ch)).2 ∧
      (unlessFails (if ch = '\n'.toNat then flsbuf sys (s.store (uchar ch))
        else (0, s.store (uchar ch))) (accepted ch)).2.ledger =
          ⟨s.ledger.taken ++ [uchar ch], s.ledger.stopped⟩ := by
  have early := (unlessFails_first _ (accepted_grows ch)).complete all
  by_cases newline : ch = '\n'.toNat
  · simp only [newline, if_true] at early ⊢
    exact store_flsbuf h _ there fits early
  · simp only [newline, if_false]
    refine ⟨?_, Stream.store_ledger _ there⟩
    exact h.stored (uchar ch) s.file.rp true running there fits (.inl ⟨line, h.direct (.inl line)⟩) rfl

theorem putcBuffered_spec {sized : Prop} (h : Writable sys sized s) (ch : Int)
    (running : s.file.flags.ioerr = false)
    (there : s.file.buf.isSome) (all : Complete (putcBuffered sys ch s).2) :
    Writable sys sized (putcBuffered sys ch s).2 ∧
      (putcBuffered sys ch s).2.ledger = ⟨s.ledger.taken ++ [uchar ch], s.ledger.stopped⟩ := by
  have null := fun none => (h.null none).2
  unfold putcBuffered at all ⊢
  cases line : s.file.flags.iolbf
  · simp only [line, Bool.false_eq_true, if_false] at all ⊢
    cases full : s.file.flags.iofbf
    · -- unbuffered: the buffer is empty between calls
      simp only [full, Bool.false_eq_true, if_false] at all ⊢
      have empty := h.single line full
      exact store_flsbuf h ch there (by omega) ((unlessFails_first _ (accepted_grows ch)).complete all)
    · simp only [full, if_true] at all ⊢
      have stores : ∀ s : Stream, Grows s (accepted ch { s.store (uchar ch) with
          file := { (s.store (uchar ch)).file with rp := s.file.len } }).2 :=
        fun s => List.prefix_rfl
      obtain ⟨more, out, flush⟩ := flsbuf_complete h.reading null
        ((unlessFails_first _ stores).complete all)
      rw [flush]
      have kept := h.flushed more
      refine ⟨kept.stored (uchar ch) s.file.len true running there id (.inr ⟨line, full, rfl⟩) rfl, ?_⟩
      rw [← Stream.flushed_ledger out]
      exact Stream.store_ledger (s := s.flushed more) _ there
  · simp only [line, if_true] at all ⊢
    by_cases atEnd : s.file.wp = s.file.lp
    · simp only [atEnd, if_true] at all ⊢
      have stores : ∀ s : Stream, Grows s (unlessFails (if ch = '\n'.toNat
          then flsbuf sys (s.store (uchar ch)) else (0, s.store (uchar ch))) (accepted ch)).2 := by
        intro s
        refine unlessFails_grows ?_ (accepted_grows ch)
        split
        · exact flsbuf_grows sys (s.store (uchar ch))
        · exact List.prefix_rfl
      obtain ⟨more, out, flush⟩ := flsbuf_complete h.reading null
        ((unlessFails_first _ stores).complete all)
      rw [flush] at all ⊢
      rw [← Stream.flushed_ledger out]
      exact line_store (h.flushed more) ch running there id line all
    · simp only [atEnd, if_false] at all ⊢
      have limit := h.limit line there
      refine line_store h ch running there (fun some => ?_) line all
      have := h.room some
      omega

theorem Writable.unallocated {sized : Prop} (h : Writable sys sized s) (bare : s.file.buf = none)
    (got : sys.malloc s.mallocs = none) (errno : Option Errno) :
    Writable sys sized
      { s with file := s.file.fail, mallocs := s.mallocs + 1, errno := errno } where
  reading := h.reading
  string := h.string
  writing := h.writing
  refusing := fun _ => ⟨s.mallocs, Nat.lt_succ_self _, by simp [got]⟩
  halted := fun _ => (h.null bare).1
  null := h.null
  direct := h.direct
  full := h.full
  limit := h.limit
  single := h.single
  dirty := h.dirty
  room := h.room
  stores := h.stores

theorem Writable.allocated {sized : Prop} (h : Writable sys sized s)
    (running : s.file.flags.ioerr = false) (memory : Memory) :
    Writable sys sized
      { s with file := allocbuf (some memory) s.file, mallocs := s.mallocs + 1 } where
  reading := h.reading
  string := h.string
  writing := h.writing
  refusing := by simp [allocbuf, running]
  halted := fun _ => rfl
  null := by simp [allocbuf]
  direct := fun _ => rfl
  full := .inl rfl
  limit := fun _ _ => rfl
  single := fun _ _ => rfl
  dirty := by simp [allocbuf]
  room := fun _ => Nat.zero_le _
  stores := fun size => ⟨fun _ => by simp [allocbuf, BUFSIZ], (h.stores size).2⟩

theorem putcSlow_spec {sized : Prop} (h : Writable sys sized s) (ch : Int)
    (all : Complete (putcSlow sys ch s).2) :
    Writable sys sized (putcSlow sys ch s).2 ∧
      Offer s.ledger [uchar ch] (putcSlow sys ch s).2.ledger := by
  unfold putcSlow at all ⊢
  cases stopped : s.file.flags.ioerr
  · simp only [stopped, h.reading, h.string, Bool.false_eq_true, if_false] at all ⊢
    cases there : s.file.buf with
    | some memory =>
      simp only [there, Option.isNone_some, Bool.false_eq_true, if_false, unlessFails_zero] at all ⊢
      obtain ⟨kept, taken⟩ := putcBuffered_spec h ch stopped (by simp [there]) all
      exact ⟨kept, .all stopped (by rw [taken])⟩
    | none =>
      simp only [there, Option.isNone_none, if_true, Stream.allocbuf] at all ⊢
      have empty : s.file.pending = [] := FILE.pending_empty _ (h.null there).2
      cases got : sys.malloc s.mallocs with
      | none =>
        simp only [Option.isNone_none, if_true, unlessFails_eof, allocbuf]
        exact ⟨h.unallocated there got _, .refused rfl rfl⟩
      | some memory =>
        simp only [got, Option.isNone_some, Bool.false_eq_true, if_false, unlessFails_zero] at all ⊢
        obtain ⟨kept, taken⟩ := putcBuffered_spec (h.allocated stopped memory) ch stopped rfl all
        refine ⟨kept, .all stopped ?_⟩
        rw [taken]
        simp only [Stream.ledger, empty]
        rfl
  · exact ⟨h, .refused rfl stopped⟩

theorem putc_spec {sized : Prop} (h : Writable sys sized s) (ch : Int)
    (all : Complete (putc sys ch s).2) :
    Writable sys sized (putc sys ch s).2 ∧ Offer s.ledger [uchar ch] (putc sys ch s).2.ledger := by
  unfold putc at all ⊢
  split
  · rename_i slow
    exact putcSlow_spec h ch (by simpa only [slow, if_true] using all)
  · -- only a full buffer sets `rp`, and only once the stream has been written
    rename_i inside
    have set : 0 < s.file.rp := by omega
    have ends : s.file.rp = s.file.len := by
      obtain at0 | ends := h.full
      · omega
      · exact ends
    have line : s.file.flags.iolbf = false := by
      by_contra line
      have := h.direct (.inl (by simpa using line))
      omega
    have full : s.file.flags.iofbf = true := by
      by_contra full
      have := h.direct (.inr (by simpa using full))
      omega
    have there : s.file.buf.isSome := by
      cases none : s.file.buf with
      | none =>
        have := (h.null none).1
        omega
      | some => rfl
    have running : s.file.flags.ioerr = false := by
      by_contra stopped
      have := h.halted (by simpa using stopped)
      omega
    have kept := h.stored (uchar ch) s.file.rp s.file.flags.iowrite running there (fun _ => by omega)
      (.inr ⟨line, full, ends⟩) (h.dirty (.inl set))
    refine ⟨kept, .all running ?_⟩
    simp only [Stream.store_ledger (uchar ch) there]

/-! ## The loops of `fputs` and `fwrite` -/

theorem putcs_foldl (sys : System) (r : Int) (chs : List Int) (s : Stream) :
    (putcs sys r chs s).2 = chs.foldl (fun s ch => (putc sys ch s).2) s := by
  induction chs generalizing r s with
  | nil => rfl
  | cons ch chs ih => exact ih _ _

theorem putcs_grows (sys : System) (r : Int) (chs : List Int) (s : Stream) :
    Grows s (putcs sys r chs s).2 := by
  induction chs generalizing r s with
  | nil => exact List.prefix_rfl
  | cons ch chs ih => exact (putc_grows sys ch s).trans (ih _ _)

theorem putcs_spec {sized : Prop} (h : Writable sys sized s) (r : Int) (chs : List Int)
    (all : Complete (putcs sys r chs s).2) :
    Writable sys sized (putcs sys r chs s).2 ∧
      Offer s.ledger (chs.map uchar) (putcs sys r chs s).2.ledger := by
  rw [putcs_foldl] at all ⊢
  rw [← List.flatMap_singleton' (chs.map uchar), List.flatMap_map]
  exact Offer.run _ Stream.ledger _ (fun s ch => (putc_grows sys ch s).complete) chs s
    (fun s ch _ inv all => putc_spec inv ch all) h all

theorem uchar_toNat (c : UInt8) : uchar c.toNat = c := by
  have small : ((c.toNat : Int) % 2 ^ 8).toNat = c.toNat := by
    have := c.toNat_lt
    omega
  rw [uchar, UInt8.ofInt, small, UInt8.ofNat_toNat]

theorem item_bytes (ptr : Memory) (size n : Nat) :
    (item ptr size n).map uchar = (List.range' (n * size) size).map ptr := by
  simp [item, List.range'_eq_map_range, uchar_toNat, Function.comp_def]

theorem fwriteItems_grows (sys : System) (ptr : Memory) (size left n : Nat) (s : Stream) :
    Grows s (fwriteItems sys ptr size left n s).2 := by
  induction left generalizing n s with
  | zero => exact List.prefix_rfl
  | succ left ih =>
    have first := putcs_grows sys 0 (item ptr size n) s
    simp only [fwriteItems]
    split
    · exact first
    · exact first.trans (ih _ _)

theorem fwriteItems_spec {sized : Prop} (h : Writable sys sized s) (ptr : Memory)
    (size left n : Nat) (all : Complete (fwriteItems sys ptr size left n s).2) :
    Writable sys sized (fwriteItems sys ptr size left n s).2 ∧
      Offer s.ledger ((List.range' (n * size) (left * size)).map ptr)
        (fwriteItems sys ptr size left n s).2.ledger := by
  induction left generalizing n s with
  | zero => exact ⟨h, by simpa using .nothing rfl id⟩
  | succ left ih =>
    have bytes : (List.range' (n * size) ((left + 1) * size)).map ptr =
        (item ptr size n).map uchar ++ (List.range' ((n + 1) * size) (left * size)).map ptr := by
      rw [item_bytes, ← List.map_append, Nat.succ_mul n, List.range'_append_1, Nat.succ_mul,
        Nat.add_comm size]
    simp only [fwriteItems, bytes] at all ⊢
    by_cases stopped : (putcs sys 0 (item ptr size n) s).2.file.flags.ioerr
    · simp only [stopped, if_true] at all ⊢
      obtain ⟨kept, offer⟩ := putcs_spec h 0 (item ptr size n) all
      exact ⟨kept, offer.append (.refused rfl stopped)⟩
    · simp only [stopped, Bool.false_eq_true, if_false] at all ⊢
      obtain ⟨kept, offer⟩ := putcs_spec h 0 (item ptr size n)
        ((fwriteItems_grows sys ptr size left _ _).complete all)
      obtain ⟨kept, offers⟩ := ih kept (n + 1) all
      exact ⟨kept, offer.append offers⟩

/-! ## Calls that empty the buffer -/

theorem flsbuf_spec {sized : Prop} (h : Writable sys sized s) (all : Complete (flsbuf sys s).2) :
    Writable sys sized (flsbuf sys s).2 ∧ (flsbuf sys s).2.ledger = s.ledger ∧
      (flsbuf sys s).1 = 0 ∧ (flsbuf sys s).2.file.wp = 0 := by
  obtain ⟨more, out, flush⟩ := flsbuf_complete h.reading (fun none => (h.null none).2) all
  rw [flush]
  exact ⟨h.flushed more, Stream.flushed_ledger out, rfl, rfl⟩

theorem fflushEach_grows (sys : System) (s : Stream) : Grows s (fflushEach sys s).2 := by
  unfold fflushEach
  split
  · exact flsbuf_grows sys s
  · exact List.prefix_rfl

theorem fflushEach_spec {sized : Prop} (h : Writable sys sized s)
    (all : Complete (fflushEach sys s).2) :
    Writable sys sized (fflushEach sys s).2 ∧ (fflushEach sys s).2.ledger = s.ledger ∧
      (fflushEach sys s).2.file.wp = 0 := by
  unfold fflushEach at all ⊢
  by_cases wrote : s.file.flags.iowrite
  · simp only [wrote, if_true] at all ⊢
    obtain ⟨kept, same, _, empty⟩ := flsbuf_spec h all
    exact ⟨kept, same, empty⟩
  · simp only [wrote, Bool.false_eq_true, if_false]
    refine ⟨h, trivial, ?_⟩
    by_contra some
    exact wrote (h.dirty (.inr (Nat.pos_of_ne_zero some)))

theorem setvbuf_grows (sys : System) (buf : Option Memory) (mode : Int) (size : Nat) (s : Stream) :
    Grows s (setvbuf sys buf mode size s).2 := by
  have flush := flsbuf_grows sys s
  unfold setvbuf
  dsimp only
  split
  · exact flush
  · split <;> exact flush

theorem Writable.rebuffered {sized : Prop} (h : Writable sys sized s) (buf : Option Memory)
    (mode : Int) (size : Nat) (some : sized → (Call.setvbuf buf mode size).sized) :
    Writable sys sized { s with file := s.file.rebuffered buf mode size } where
  reading := h.reading
  string := h.string
  writing := h.writing
  refusing := h.refusing
  halted := fun _ => rfl
  null := fun _ => ⟨rfl, rfl⟩
  direct := fun _ => rfl
  full := .inl rfl
  limit := fun _ _ => rfl
  single := fun _ _ => rfl
  dirty := by simp [FILE.rebuffered]
  room := fun _ => Nat.zero_le _
  stores := by
    intro size'
    obtain ⟨long, inside⟩ := h.stores size'
    refine ⟨?_, inside⟩
    simp only [FILE.rebuffered]
    split
    · exact fun _ => Nat.one_pos
    · rename_i buffered
      split
      · rename_i given
        exact fun _ => some size' given buffered
      · exact long

theorem setvbuf_spec {sized : Prop} (h : Writable sys sized s) (buf : Option Memory) (mode : Int)
    (size : Nat) (some : sized → (Call.setvbuf buf mode size).sized) (all : Complete (setvbuf sys buf mode size s).2) :
    Writable sys sized (setvbuf sys buf mode size s).2 ∧
      (setvbuf sys buf mode size s).2.ledger = s.ledger := by
  have early : Complete (flsbuf sys s).2 := by
    unfold setvbuf at all
    dsimp only at all
    split at all
    · exact all
    · split at all <;> exact all
  obtain ⟨kept, same, done, empty⟩ := flsbuf_spec h early
  have none : ¬(flsbuf sys s).1 = EOF := by simp [done, EOF]
  rw [← same]
  unfold setvbuf
  simp only [none, if_false]
  split
  · refine ⟨kept.rebuffered buf mode size some, ?_⟩
    have before := FILE.pending_empty _ empty
    have after : ((flsbuf sys s).2.file.rebuffered buf mode size).pending = [] :=
      FILE.pending_empty _ rfl
    simp only [Stream.ledger, before, after]
    rfl
  · exact ⟨{ kept with }, rfl⟩

theorem fclose_spec {sized : Prop} (h : Writable sys sized s)
    (all : Complete (fclose sys s).2) :
    (fclose sys s).2.sent = s.ledger.taken ∧ (fclose sys s).2.file.pending = [] := by
  have live : (!s.file.flags.iostrg &&
      (s.file.flags.iowrite || s.file.flags.ioread || s.file.flags.iorw)) = true := by
    simpa [h.string, h.reading] using h.writing
  have writes : (fclose sys s).2.sent = (flsbuf sys s).2.sent := by
    simp only [fclose, live, if_true]
    split <;> rfl
  have early : Complete (flsbuf sys s).2 := by
    simpa only [Complete, fclose, live, if_true] using all
  obtain ⟨kept, same, _, empty⟩ := flsbuf_spec h early
  have none := FILE.pending_empty _ empty
  constructor
  · rw [writes, ← same]
    simp [Stream.ledger, none]
  · apply FILE.pending_empty
    simp only [fclose, live, if_true]
    split
    · rfl
    · exact empty

/-! ## Runs -/

theorem Call.run_grows (sys : System) (c : Call) (s : Stream) : Grows s (c.run sys s) := by
  cases c with
  | putc ch => exact putc_grows sys ch s
  | fwrite ptr size nmemb =>
    simp only [Call.run, Stdio.fwrite]
    split
    · exact List.prefix_rfl
    · exact fwriteItems_grows sys ptr size nmemb 0 s
  | fputs bp => exact putcs_grows sys 0 _ s
  | fflush => exact flsbuf_grows sys s
  | fflushAll => exact fflushEach_grows sys s
  | setvbuf buf mode size => exact setvbuf_grows sys buf mode size s

theorem Call.run_spec {sized : Prop} (c : Call) (h : Writable sys sized s)
    (some : sized → c.sized) (all : Complete (c.run sys s)) :
    Writable sys sized (c.run sys s) ∧ Offer s.ledger c.bytes (c.run sys s).ledger := by
  have same : ∀ {s' : Stream}, s'.ledger = s.ledger → Offer s.ledger [] s'.ledger :=
    fun h => .nothing (by rw [h]) (by rw [h]; exact id)
  cases c with
  | putc ch => exact putc_spec h ch all
  | fwrite ptr size nmemb =>
    simp only [Call.run, Stdio.fwrite] at all ⊢
    by_cases none : size = 0
    · simp only [none, if_true]
      exact ⟨h, by simpa [Call.bytes] using same rfl⟩
    · simp only [none, if_false] at all ⊢
      simpa [Call.bytes, List.range_eq_range'] using fwriteItems_spec h ptr size nmemb 0 all
  | fputs bp => exact putcs_spec h 0 _ all
  | fflush =>
    obtain ⟨kept, ledger, _⟩ := flsbuf_spec h all
    exact ⟨kept, same ledger⟩
  | fflushAll =>
    obtain ⟨kept, ledger, _⟩ := fflushEach_spec h all
    exact ⟨kept, same ledger⟩
  | setvbuf buf mode size =>
    obtain ⟨kept, ledger⟩ := setvbuf_spec h buf mode size some all
    exact ⟨kept, same ledger⟩

theorem Opened.writable {f : FILE} (opened : Opened f) (sys : System) (sized : Prop) :
    Writable sys sized (.start f) := by
  cases opened with
  | fpopen access bin f writes closed =>
    have flags := fun (p : Flags → Bool) => congrArg p closed
    have reading : f.flags.ioread = false := (flags Flags.ioread).symm
    have erring : f.flags.ioerr = false := (flags Flags.ioerr).symm
    have string : f.flags.iostrg = false := (flags Flags.iostrg).symm
    constructor <;> simp [Stream.start, Stdio.fpopen, reading, erring, string]
    all_goals cases access <;> simp_all
  | stdout => constructor <;> simp [Stream.start, Stdio.stdout, Flags.none]
  | stderr => constructor <;> simp [Stream.start, Stdio.stderr, Flags.none]

theorem Call.runs_spec {f : FILE} (opened : Opened f) (sys : System) (calls : List Call)
    (all : Complete (Call.runs sys calls (.start f))) :
    Writable sys (∀ c ∈ calls, c.sized) (Call.runs sys calls (.start f)) ∧
      Offer ⟨[], false⟩ (calls.flatMap Call.bytes) (Call.runs sys calls (.start f)).ledger := by
  have inv := opened.writable sys (∀ c ∈ calls, c.sized)
  have fresh : (Stream.start f).ledger = ⟨[], false⟩ := by
    have empty : f.pending = [] := by
      cases opened <;> rfl
    have running : f.flags.ioerr = false := by
      by_contra stopped
      obtain ⟨i, early, _⟩ := inv.refusing ((Bool.not_eq_false _).mp stopped)
      exact absurd early (Nat.not_lt_zero i)
    simp [Stream.ledger, Stream.start, Stream.sent, empty, running]
  have steps := Offer.run (fun s c => Call.run sys c s) Stream.ledger Call.bytes
    (fun s c => (Call.run_grows sys c s).complete) calls (.start f)
    (fun s c hc inv all => Call.run_spec c inv (fun sized => sized c hc) all) inv all
  rwa [fresh] at steps

instance (s : Stream) : Decidable (Complete s) :=
  inferInstanceAs (Decidable (∀ w ∈ s.writes, w.result = w.data.length))

/-- As long as every `_write` takes all it is passed, the bytes passed on and
the bytes pending are those given to the stream: all of them, or those given
before a failed allocation put the stream in error. A flush or close leaves none
pending, and a stream whose buffers have room for a byte never stores outside. -/
theorem output_accounted (sys : System) (f : FILE) (opened : Opened f) (calls : List Call)
    (all : Complete (Call.runs sys calls (.start f))) :
    (∃ refused, calls.flatMap Call.bytes = (Call.runs sys calls (.start f)).sent ++
        (Call.runs sys calls (.start f)).file.pending ++ refused ∧
      (refused ≠ [] → (Call.runs sys calls (.start f)).file.flags.ioerr ∧
        ∃ i < (Call.runs sys calls (.start f)).mallocs, (sys.malloc i).isNone)) ∧
    (∀ flush ∈ [fflush sys, fflushEach sys, fclose sys],
      Complete (flush (Call.runs sys calls (.start f))).2 →
        (flush (Call.runs sys calls (.start f))).2.file.pending = [] ∧
        (flush (Call.runs sys calls (.start f))).2.sent =
          (Call.runs sys calls (.start f)).sent ++ (Call.runs sys calls (.start f)).file.pending) ∧
    ((∀ c ∈ calls, c.sized) → (Call.runs sys calls (.start f)).stray = false) := by
  obtain ⟨inv, offer⟩ := Call.runs_spec opened sys calls all
  refine ⟨?_, ?_, fun sized => (inv.stores sized).2⟩
  · obtain ⟨taken, refused, split, more, _, stops⟩ := offer
    refine ⟨refused, ?_, fun some => ⟨stops some, inv.refusing (stops some)⟩⟩
    rw [split, show taken = _ by simpa using more.symm]
    rfl
  · have emptied : ∀ s' : Stream, s'.ledger = (Call.runs sys calls (.start f)).ledger →
        s'.file.wp = 0 → s'.file.pending = [] ∧ s'.sent =
          (Call.runs sys calls (.start f)).sent ++ (Call.runs sys calls (.start f)).file.pending := by
      intro s' same empty
      have none := FILE.pending_empty _ empty
      have content := congrArg Ledger.taken same
      exact ⟨none, by simpa [Stream.ledger, none] using content⟩
    simp only [List.forall_mem_cons, List.not_mem_nil, false_imp_iff, implies_true, and_true]
    refine ⟨fun all => ?_, fun all => ?_, fun all => ?_⟩
    · obtain ⟨_, same, _, empty⟩ := flsbuf_spec inv all
      exact emptied _ same empty
    · obtain ⟨_, same, empty⟩ := fflushEach_spec inv all
      exact emptied _ same empty
    · obtain ⟨content, none⟩ := fclose_spec inv all
      exact ⟨none, content⟩

/-- Two lines through a buffer of three bytes, the second one unfinished. -/
theorem output_accounted_lines :
    let sys : System := ⟨fun _ data => data.length, fun _ => some fun _ => 0, 0⟩
    let calls := [.setvbuf (some fun _ => 0) IOLBF 3, .fputs [97, 98, 10], .putc 99]
    (Call.runs sys calls (.start stdout)).sent ++
      (Call.runs sys calls (.start stdout)).file.pending = [97, 98, 10, 99] := by
  intro sys calls
  obtain ⟨⟨refused, split, stops⟩, _⟩ := output_accounted sys stdout .stdout calls (by decide)
  have none : refused = [] := by
    by_contra some
    exact absurd (stops some).1 (by decide)
  rw [none, List.append_nil] at split
  rw [← split]
  decide

end Scc.Libc.Stdio
