import Scc.Libc.Stdio.File

set_option linter.all false

/-! Reading from a stream and moving in it. -/
namespace Scc.Libc.Stdio

/-- The calls below the library. `read` says how much the n-th `_read` takes at
most (one byte at least), or that it fails. -/
structure Source extends System where
  read : Nat → Option Nat

/-- A stream on a file of the given bytes, with the offset of its descriptor and
the number of calls of `_read` so far. -/
structure Reader extends Stream where
  content : List UInt8
  offset : Nat
  reads : Nat

inductive Whence where
  | SEEK_SET
  | SEEK_CUR
  | SEEK_END
  deriving DecidableEq, Repr

variable (src : Source)

/-- `_lseek`, which refuses a negative offset. -/
def lseek (off : Int) (whence : Whence) (s : Reader) : Int × Reader :=
  let base : Nat := match whence with
    | .SEEK_SET => 0
    | .SEEK_CUR => s.offset
    | .SEEK_END => s.content.length
  if base + off < 0 then (-1, s) else (base + off, { s with offset := (base + off).toNat })

/-- The call of `_read` in `__getc`: the count and the bytes left in `buf`. -/
def readBuffer (memory : Memory) (s : Reader) : Int × Memory :=
  match src.read s.reads with
  | none => (-1, memory)
  | some most =>
    let data := ((s.content.drop s.offset).take s.file.len).take (max 1 most)
    (data.length, fun i => data.getD i (memory i))

/-- The part of `__getc` after the buffer is there. -/
def getcBuffered (s : Reader) : Int × Reader :=
  let (cnt, memory) := readBuffer src s.file.memory s
  let s := { s with reads := s.reads + 1 }
  if cnt ≤ 0 then
    let flags := if cnt = 0 then { s.file.flags with ioeof := true }
      else { s.file.flags with ioerr := true }
    (EOF, { s with file := { s.file with flags := flags } })
  else
    ((memory 0).toNat,
      { s with
        offset := s.offset + cnt.toNat
        file := { s.file with
          buf := some memory, rp := 1, wp := cnt.toNat
          flags := { s.file.flags with ioread := true } } })

/-- `__getc`, the path of `getc` that is not inlined. -/
def getcSlow (s : Reader) : Int × Reader :=
  if s.file.flags.ioeof || s.file.flags.ioerr then (EOF, s)
  else if !(s.file.flags.ioread || s.file.flags.iorw) then
    (EOF, { s with toStream := s.toStream.fail .EBADF })
  else if s.file.flags.iostrg then
    (EOF, { s with file := { s.file with flags := { s.file.flags with ioeof := true } } })
  else
    let (r, stream) := if s.file.buf.isNone then s.toStream.allocbuf src.toSystem else (0, s.toStream)
    if r ≠ 0 then (EOF, { s with toStream := stream })
    else getcBuffered src { s with toStream := stream }

def getc (s : Reader) : Int × Reader :=
  if s.file.wp ≤ s.file.rp then getcSlow src s
  else ((s.file.memory s.file.rp).toNat, { s with file := { s.file with rp := s.file.rp + 1 } })

/-- The inner loop of `fread`: whether all the characters came, and those stored. -/
def getcs : Nat → Reader → Bool × List UInt8 × Reader
  | 0, s => (true, [], s)
  | i + 1, s =>
    let (c, s) := getc src s
    if c = EOF then (false, [], s)
    else
      let (all, bytes, s) := getcs i s
      (all, uchar c :: bytes, s)

/-- The loop of `fread` with `left` items to go, `n` of them done. -/
def freadItems (size : Nat) : Nat → Nat → Reader → Nat × List UInt8 × Reader
  | 0, n, s => (n, [], s)
  | left + 1, n, s =>
    let (all, bytes, s) := getcs src size s
    if !all then (n, bytes, s)
    else
      let (m, more, s) := freadItems size left (n + 1) s
      (m, bytes ++ more, s)

/-- The items read and the bytes stored at `ptr`. -/
def fread (size nmemb : Nat) (s : Reader) : Nat × List UInt8 × Reader :=
  if size = 0 then (0, [], s) else freadItems src size nmemb 0 s

def fseek (off : Int) (whence : Whence) (s : Reader) : Int × Reader :=
  if s.file.flags.ioerr then (EOF, s)
  else
    let (r, stream) := if s.file.flags.iowrite then flsbuf src.toSystem s.toStream
      else (0, s.toStream)
    let s := { s with toStream := stream }
    if r ≠ 0 then (-1, s)
    else
      let unread : Int := s.file.wp - s.file.rp
      let off := if whence = .SEEK_CUR && s.file.flags.ioread then off - unread else off
      let (r, s) := lseek off whence s
      if r < 0 then (EOF, s)
      else
        let f := s.file.flags
        let flags := if f.iorw then { f with ioread := false, iowrite := false } else f
        (0, { s with file := { s.file with flags := { flags with ioeof := false } } })

def clearerr (s : Reader) : Reader :=
  { s with file := { s.file with flags := { s.file.flags with ioerr := false, ioeof := false } } }

def rewind (s : Reader) : Reader :=
  let s := { s with file := { s.file with flags := { s.file.flags with ioerr := false } } }
  clearerr (fseek src 0 .SEEK_SET s).2

/-- A call the program makes on the stream. -/
inductive ReadCall where
  | getc
  | fread (size nmemb : Nat)
  | fseek (off : Int) (whence : Whence)
  | rewind
  deriving DecidableEq, Repr

/-- What a call returns. -/
inductive Outcome where
  | char (c : Int)
  | items (n : Nat) (bytes : List UInt8)
  | moved (r : Int)
  | done
  deriving DecidableEq, Repr

def ReadCall.run (s : Reader) : ReadCall → Outcome × Reader
  | .getc =>
    let (c, s) := Stdio.getc src s
    (.char c, s)
  | .fread size nmemb =>
    let (n, bytes, s) := Stdio.fread src size nmemb s
    (.items n bytes, s)
  | .fseek off whence =>
    let (r, s) := Stdio.fseek src off whence s
    (.moved r, s)
  | .rewind => (.done, Stdio.rewind src s)

/-- A call with what it returned and `ferror` after it. -/
structure Event where
  call : ReadCall
  outcome : Outcome
  ferror : Bool
  deriving DecidableEq, Repr

/-- What a program sees of its calls. -/
def ReadCall.events (s : Reader) : List ReadCall → List Event
  | [] => []
  | c :: calls =>
    let (o, s) := c.run src s
    ⟨c, o, s.file.flags.ioerr⟩ :: events s calls

/-- What the library leaves in `FILE` for a stream that can be read, with any
buffer set before the first call. -/
inductive OpenedToRead : FILE → Prop where
  | fpopen (access : Access) (bin : Bool) (f : FILE) (reads : access ≠ .O_WRONLY)
      (closed : f.flags.closed = f.flags) : OpenedToRead (fpopen access bin f)
  | stdin : OpenedToRead stdin
  | setvbuf (f : FILE) (opened : OpenedToRead f) (buf : Option Memory) (mode : Int) (size : Nat) :
      OpenedToRead (f.rebuffered buf mode size)

/-- A stream on which no call has been made yet, its descriptor at `pos`. -/
def Reader.start (f : FILE) (content : List UInt8) (pos : Nat) : Reader :=
  ⟨.start f, content, pos, 0⟩

end Scc.Libc.Stdio
