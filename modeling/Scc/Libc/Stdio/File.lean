import Mathlib.Logic.Function.Basic
import Mathlib.Data.List.Basic
import Mathlib.Data.List.Range
import Mathlib.Data.List.Flatten

set_option linter.all false

/-! The stream object of stdio.h, with its pointers as offsets from `buf`, and the routines that set it up. -/
namespace Scc.Libc.Stdio

/-- The bytes of one object, by offset from its first byte. An offset past its
end is the memory that follows it. -/
abbrev Memory := Nat → UInt8

def EOF : Int := -1

/-- The size `_allocbuf` asks for. -/
def BUFSIZ : Nat := 512

def IOFBF : Int := 128
def IOLBF : Int := 256
def IONBF : Int := 512

inductive Errno where
  | EBADF
  | EINVAL
  | ENOMEM
  deriving DecidableEq, Repr

/-- The bits of `flags`. -/
structure Flags where
  iowrite : Bool
  ioread : Bool
  iorw : Bool
  ioeof : Bool
  ioerr : Bool
  iostrg : Bool
  iotxt : Bool
  iofbf : Bool
  iolbf : Bool
  ionbf : Bool
  ioalloc : Bool
  deriving DecidableEq, Repr

def Flags.none : Flags := ⟨false, false, false, false, false, false, false, false, false, false, false⟩

/-- `buf` is `none` for a null pointer; `rp`, `wp` and `lp` count from `buf`.
`unbuf` is what the stream's own byte holds when `buf` does not point to it. -/
structure FILE where
  buf : Option Memory
  rp : Nat
  wp : Nat
  lp : Nat
  len : Nat
  flags : Flags
  unbuf : UInt8

/-- A character converted to `unsigned char`. -/
def uchar (ch : Int) : UInt8 := UInt8.ofInt ch

namespace FILE

/-- What `buf` points to. -/
def memory (f : FILE) : Memory := f.buf.getD fun _ => 0

/-- The bytes between `buf` and `wp`. -/
def pending (f : FILE) : List UInt8 :=
  match f.buf with
  | none => []
  | some memory => (List.range f.wp).map memory

/-- `*fp->wp++ = c` -/
def store (c : UInt8) (f : FILE) : FILE :=
  { f with buf := f.buf.map (Function.update · f.wp c), wp := f.wp + 1 }

/-- `fp->flags |= _IOERR` -/
def fail (f : FILE) : FILE := { f with flags := { f.flags with ioerr := true } }

/-- The store at `wp` is inside the buffer. -/
def room (f : FILE) : Bool := f.buf.isSome && f.wp < f.len

theorem store_pending (f : FILE) (c : UInt8) (h : f.buf.isSome) :
    (f.store c).pending = f.pending ++ [c] := by
  obtain ⟨memory, hm⟩ := Option.isSome_iff_exists.mp h
  have same : (List.range f.wp).map (Function.update memory f.wp c) = (List.range f.wp).map memory := by
    apply List.map_congr_left
    intro i hi
    exact Function.update_of_ne (Nat.ne_of_lt (List.mem_range.mp hi)) _ _
  simp [store, pending, hm, List.range_succ, same]

theorem pending_empty (f : FILE) (h : f.wp = 0) : f.pending = [] := by
  unfold pending
  split <;> simp [h]

theorem pending_length (f : FILE) (h : f.buf.isSome) : f.pending.length = f.wp := by
  obtain ⟨memory, hm⟩ := Option.isSome_iff_exists.mp h
  simp [pending, hm]

end FILE

/-- `_allocbuf`, with the memory `malloc` returned. -/
def allocbuf (bp : Option Memory) (f : FILE) : FILE :=
  match bp with
  | none => f.fail
  | some memory => { f with buf := some memory, rp := 0, wp := 0, lp := BUFSIZ, len := BUFSIZ }

/-- The `O_ACCMODE` part of the flags an opening mode asks for. -/
inductive Access where
  | O_RDONLY
  | O_WRONLY
  | O_RDWR
  deriving DecidableEq, Repr

/-- What `_fpopen` stores in the stream once the file is open. -/
def fpopen (access : Access) (bin : Bool) (f : FILE) : FILE :=
  { f with
    buf := none, rp := 0, wp := 0, lp := 0
    flags := { f.flags with
      iotxt := f.flags.iotxt || !bin
      iorw := f.flags.iorw || access == .O_RDWR
      ioread := f.flags.ioread || access == .O_RDONLY
      iowrite := f.flags.iowrite || access == .O_WRONLY } }

/-- The flags `fclose` leaves. -/
def Flags.closed (f : Flags) : Flags :=
  { f with
    iowrite := false, ioread := false, iorw := false, ioerr := false, ioeof := false
    ioalloc := false, iotxt := false, iostrg := false }

/-- The entries of `__iob` that are open when a program starts. -/
def stdin : FILE := ⟨none, 0, 0, 0, 0, { Flags.none with ioread := true }, 0⟩
def stdout : FILE := ⟨none, 0, 0, 0, 0, { Flags.none with iowrite := true, iolbf := true }, 0⟩
def stderr : FILE := ⟨some fun _ => 0, 0, 0, 0, 1, { Flags.none with iowrite := true, ionbf := true }, 0⟩

end Scc.Libc.Stdio

/-! Writing to a stream: the calls of stdio that fill the buffer and those that empty it. -/
namespace Scc.Libc.Stdio

/-- A call of `_write`: the bytes passed and the count returned. -/
structure Written where
  data : List UInt8
  result : Int
  deriving DecidableEq, Repr

def Written.complete (w : Written) : Prop := w.result = w.data.length

/-- The calls below the library: what `_write` returns after the given earlier
calls, what the n-th `malloc` returns and what `_close` returns. -/
structure System where
  write : List Written → List UInt8 → Int
  malloc : Nat → Option Memory
  close : Int

/-- A stream, with the calls of `_write` and the number of calls of `malloc`
made for it so far. `stray` records a store outside the buffer. -/
structure Stream where
  file : FILE
  writes : List Written
  mallocs : Nat
  errno : Option Errno
  stray : Bool

namespace Stream

/-- The bytes passed to `_write`. -/
def sent (s : Stream) : List UInt8 := s.writes.flatMap Written.data

/-- `*fp->wp++ = c` -/
def store (c : UInt8) (s : Stream) : Stream :=
  { s with file := s.file.store c, stray := s.stray || !s.file.room }

def fail (e : Errno) (s : Stream) : Stream :=
  { s with file := s.file.fail, errno := some e }

end Stream

/-- The idiom `if (f(fp)) return EOF;` before the rest of a function. -/
def unlessFails (r : Int × Stream) (rest : Stream → Int × Stream) : Int × Stream :=
  if r.1 = 0 then rest r.2 else (EOF, r.2)

def flsbuf (sys : System) (s : Stream) : Int × Stream :=
  if s.file.flags.ioread then (0, s)
  else if 0 < s.file.wp then
    let result := sys.write s.writes s.file.pending
    let s := { s with writes := s.writes ++ [(⟨s.file.pending, result⟩ : Written)] }
    if result ≠ s.file.wp then (EOF, { s with file := s.file.fail })
    else (0, { s with file := { s.file with wp := 0 } })
  else (0, { s with file := { s.file with wp := 0 } })

/-- `_allocbuf` on the stream. -/
def Stream.allocbuf (sys : System) (s : Stream) : Int × Stream :=
  let bp := sys.malloc s.mallocs
  ( if bp.isNone then EOF else 0,
    { s with
      file := Stdio.allocbuf bp s.file
      mallocs := s.mallocs + 1
      errno := if bp.isNone then some .ENOMEM else s.errno } )

/-- `fp->flags |= _IOWRITE; return ch & 0xFF;` -/
def accepted (ch : Int) (s : Stream) : Int × Stream :=
  ((uchar ch).toNat, { s with file := { s.file with flags := { s.file.flags with iowrite := true } } })

/-- The part of `__putc` after the buffer is there. -/
def putcBuffered (sys : System) (ch : Int) (s : Stream) : Int × Stream :=
  if s.file.flags.iolbf then
    unlessFails (if s.file.wp = s.file.lp then flsbuf sys s else (0, s)) fun s =>
      let s := s.store (uchar ch)
      unlessFails (if ch = '\n'.toNat then flsbuf sys s else (0, s)) fun s => accepted ch s
  else if s.file.flags.iofbf then
    unlessFails (flsbuf sys s) fun s =>
      let s := s.store (uchar ch)
      accepted ch { s with file := { s.file with rp := s.file.len } }
  else
    let s := s.store (uchar ch)
    unlessFails (flsbuf sys s) fun s => accepted ch s

/-- `__putc`, the path of `putc` that is not inlined. -/
def putcSlow (sys : System) (ch : Int) (s : Stream) : Int × Stream :=
  if s.file.flags.ioerr then (EOF, s)
  else if s.file.flags.ioread then (EOF, s.fail .EBADF)
  else if s.file.flags.iostrg then ((uchar ch).toNat, s)
  else unlessFails (if s.file.buf.isNone then s.allocbuf sys else (0, s)) (putcBuffered sys ch)

def putc (sys : System) (ch : Int) (s : Stream) : Int × Stream :=
  if s.file.rp ≤ s.file.wp then putcSlow sys ch s else ((uchar ch).toNat, s.store (uchar ch))

/-- A run of `putc` calls, with the result of the last one. -/
def putcs (sys : System) : Int → List Int → Stream → Int × Stream
  | r, [], s => (r, s)
  | _, ch :: rest, s =>
    let (r, s) := putc sys ch s
    putcs sys r rest s

/-- `bp` is the string with its characters promoted to `int`, up to its
terminator or past it. -/
def fputs (sys : System) (bp : List Int) (s : Stream) : Int × Stream :=
  putcs sys 0 (bp.takeWhile (· ≠ 0)) s

/-- The `size` bytes of the `n`-th item at `ptr`. -/
def item (ptr : Memory) (size n : Nat) : List Int :=
  (List.range size).map fun i => ((ptr (n * size + i)).toNat : Int)

/-- The loop of `fwrite` with `left` items to go, `n` of them done. -/
def fwriteItems (sys : System) (ptr : Memory) (size : Nat) : Nat → Nat → Stream → Nat × Stream
  | 0, n, s => (n, s)
  | left + 1, n, s =>
    let s := (putcs sys 0 (item ptr size n) s).2
    if s.file.flags.ioerr then (n, s) else fwriteItems sys ptr size left (n + 1) s

def fwrite (sys : System) (ptr : Memory) (size nmemb : Nat) (s : Stream) : Nat × Stream :=
  if size = 0 then (0, s) else fwriteItems sys ptr size nmemb 0 s

/-- `fflush` of a stream. -/
def fflush (sys : System) (s : Stream) : Int × Stream := flsbuf sys s

/-- What `fflush(NULL)` does for each stream of `__iob`. -/
def fflushEach (sys : System) (s : Stream) : Int × Stream :=
  if s.file.flags.iowrite then
    let (r, s) := flsbuf sys s
    (if r ≠ 0 then EOF else 0, s)
  else (0, s)

/-- The stream `setvbuf` leaves for a mode it knows: the buffer and length asked
for, else the ones it had, and in any case its own byte when unbuffered. -/
def FILE.rebuffered (buf : Option Memory) (mode : Int) (size : Nat) (f : FILE) : FILE :=
  let (p, l) := if buf.isSome then (buf, size) else (f.buf, f.len)
  let (p, l) := if mode = IONBF then (some fun _ => f.unbuf, 1) else (p, l)
  let freed := f.flags.ioalloc && (buf.isSome || mode = IONBF)
  let flags := { f.flags with
    ioalloc := f.flags.ioalloc && !freed
    ionbf := mode = IONBF, iolbf := mode = IOLBF, iofbf := mode = IOFBF }
  { f with buf := p, len := l, rp := 0, wp := 0, lp := l, flags := flags }

def setvbuf (sys : System) (buf : Option Memory) (mode : Int) (size : Nat) (s : Stream) :
    Int × Stream :=
  let (r, s) := flsbuf sys s
  if r = EOF then (EOF, s)
  else if mode = IONBF ∨ mode = IOLBF ∨ mode = IOFBF then
    (0, { s with file := s.file.rebuffered buf mode size })
  else (EOF, { s with errno := some .EINVAL })

def fclose (sys : System) (s : Stream) : Int × Stream :=
  let (r, s) :=
    if !s.file.flags.iostrg && (s.file.flags.iowrite || s.file.flags.ioread || s.file.flags.iorw) then
      let (r, s) := flsbuf sys s
      (if r = EOF ∨ sys.close < 0 then EOF else 0, s)
    else (EOF, s)
  let f := s.file
  let f := if f.flags.ioalloc then { f with buf := none, rp := 0, wp := 0, lp := 0 } else f
  (r, { s with file := { f with flags := f.flags.closed } })

/-- A call the program makes on the stream. -/
inductive Call where
  | putc (ch : Int)
  | fwrite (ptr : Memory) (size nmemb : Nat)
  | fputs (bp : List Int)
  | fflush
  | fflushAll
  | setvbuf (buf : Option Memory) (mode : Int) (size : Nat)

/-- The bytes a call gives to the stream. -/
def Call.bytes : Call → List UInt8
  | .putc ch => [uchar ch]
  | .fwrite ptr size nmemb => (List.range (nmemb * size)).map ptr
  | .fputs bp => (bp.takeWhile (· ≠ 0)).map uchar
  | _ => []

/-- The call does not hand the stream a buffer of no bytes. -/
def Call.sized : Call → Prop
  | .setvbuf buf mode size => buf.isSome → mode ≠ IONBF → 0 < size
  | _ => True

def Call.run (sys : System) : Call → Stream → Stream
  | .putc ch, s => (Stdio.putc sys ch s).2
  | .fwrite ptr size nmemb, s => (Stdio.fwrite sys ptr size nmemb s).2
  | .fputs bp, s => (Stdio.fputs sys bp s).2
  | .fflush, s => (Stdio.fflush sys s).2
  | .fflushAll, s => (Stdio.fflushEach sys s).2
  | .setvbuf buf mode size, s => (Stdio.setvbuf sys buf mode size s).2

def Call.runs (sys : System) (calls : List Call) (s : Stream) : Stream :=
  calls.foldl (fun s c => c.run sys s) s

/-- What the library leaves in `FILE` for a stream that can be written. -/
inductive Opened : FILE → Prop where
  | fpopen (access : Access) (bin : Bool) (f : FILE) (writes : access ≠ .O_RDONLY)
      (closed : f.flags.closed = f.flags) : Opened (fpopen access bin f)
  | stdout : Opened stdout
  | stderr : Opened stderr

/-- A stream on which no call has been made yet. -/
def Stream.start (f : FILE) : Stream := ⟨f, [], 0, none, false⟩

end Scc.Libc.Stdio
