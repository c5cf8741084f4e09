import Mathlib.Logic.Function.Basic
import LinuxDevNote.Library.CString
import LinuxDevNote.Library.Execution

/-!
# The programs around the named pipe

Any number of runs of `fifo_write` send one command-line argument each through a
FIFO, and any number of reader programs print what they read from it. Writer and
readers agree on a record of 100 bytes: a C string, its terminator, and whatever
follows it in the writer's buffer. The pipe is that of POSIX: a short write goes in
whole or not at all, and a read takes the first bytes.
-/

namespace LinuxDevNote.Fifo

open CString Execution

/-- The size of `w_buf` and `buf_r`, and of every transfer. -/
def bufSize : ℕ := 100

/-- A buffer of 100 bytes. -/
def Buf : Type := { bytes : List UInt8 // bytes.length = bufSize }

/-- A command-line argument that fits `w_buf` with its terminator. -/
structure Arg where
  /-- The characters. -/
  chars : List UInt8
  /-- A C string contains no NUL. -/
  nul_free : 0 ∉ chars
  /-- At most 99 characters. -/
  fits : chars.length < bufSize

/-- `memset(buf, 0, sizeof(buf))`. -/
def Buf.zero : Buf := ⟨List.replicate bufSize 0, List.length_replicate⟩

/-- `strcpy(w_buf, argv[1])`: what follows the terminator stays as it was. -/
def Buf.strcpy (buf : Buf) (a : Arg) : Buf :=
  ⟨a.chars ++ 0 :: buf.val.drop (a.chars.length + 1), by
    have hfits := a.fits
    have hlen := buf.property
    simp
    omega⟩

/-- `read(fd, buf_r, 100)` from a pipe with the given content. -/
def Buf.receive (buf : Buf) (content : List UInt8) : Buf :=
  ⟨content.take bufSize ++ buf.val.drop (content.take bufSize).length, by
    have hlen := buf.property
    simp
    omega⟩

/-- The two shapes of the read loop: that of `fifo_Read` and `fifoRead_block`, and
that of `fifoRead_selectBlock`, which waits in `select` first. -/
inductive Reader
  | fifoRead
  | selectBlock

/-- The statement a run of `fifo_write` executes next. -/
inductive WriterPc
  | start
  | write
  | done

/-- The statement a reader executes next. The readers clear the buffer before the
loop, and then either at its start or at its end. -/
inductive ReaderPc
  | clear
  | select
  | read
  | print

/-- The programs that take part, with everything they start from. -/
structure Setup (ι κ : Type*) where
  /-- `argv[1]` of each writer, if it was given. -/
  arg : ι → Option Arg
  /-- What `w_buf` held before. -/
  stack : ι → Buf
  /-- The program each reader runs. -/
  program : κ → Reader
  /-- What `buf_r` held before. -/
  junk : κ → Buf

/-- The record of a writer: `w_buf` when it is written. -/
def Setup.record {ι κ : Type*} (setup : Setup ι κ) (w : ι) : List UInt8 :=
  match setup.arg w with
  | none => []
  | some a => ((setup.stack w).strcpy a).val

/-- The FIFO and the programs. -/
structure State (ι κ : Type*) where
  /-- The bytes in the FIFO. -/
  content : List UInt8
  /-- Where each writer stands. -/
  writer : ι → WriterPc
  /-- `w_buf` of each writer. -/
  wBuf : ι → Buf
  /-- Where each reader stands. -/
  reader : κ → ReaderPc
  /-- `buf_r` of each reader. -/
  bufR : κ → Buf

/-- The empty FIFO, before any program has started. -/
def State.init {ι κ : Type*} (setup : Setup ι κ) : State ι κ :=
  ⟨[], fun _ => .start, setup.stack, fun _ => .clear, setup.junk⟩

/-- A scheduling decision: a writer takes a step, or a reader does. The flag says
whether a write finds room, and whether `select` reports data. -/
inductive Label (ι κ : Type*)
  | writer (w : ι) (success : Bool)
  | reader (r : κ) (success : Bool)

/-- What can be observed: a write that went in, a read with the bytes it returned,
and a line that was printed. -/
inductive Event (ι κ : Type*)
  | sent (w : ι)
  | read (r : κ) (data : List UInt8)
  | printed (r : κ) (text : Option (List UInt8))

variable {ι κ : Type*} [DecidableEq ι] [DecidableEq κ]

/-- Move a writer, with the buffer it has now. -/
def State.setWriter (s : State ι κ) (w : ι) (pc : WriterPc) (buf : Buf) : State ι κ :=
  { s with writer := Function.update s.writer w pc, wBuf := Function.update s.wBuf w buf }

/-- Move a reader, with the buffer it has now. -/
def State.setReader (s : State ι κ) (r : κ) (pc : ReaderPc) (buf : Buf) : State ι κ :=
  { s with reader := Function.update s.reader r pc, bufR := Function.update s.bufR r buf }

/-- One statement of `fifo_write`. -/
def State.stepWriter (setup : Setup ι κ) (s : State ι κ) (w : ι) (success : Bool) :
    Option (State ι κ × List (Event ι κ)) :=
  match s.writer w with
  | .start =>
    match setup.arg w with
    | none => some (s.setWriter w .done (s.wBuf w), [])
    | some a => some (s.setWriter w .write ((s.wBuf w).strcpy a), [])
  | .write =>
    if success then
      some ({ s with content := s.content ++ (s.wBuf w).val }.setWriter w .done (s.wBuf w),
        [.sent w])
    else some (s.setWriter w .done (s.wBuf w), [])
  | .done => none

/-- One statement of a reader. A read from an empty FIFO returns no data, or an
error, and leaves the buffer alone. -/
def State.stepReader (setup : Setup ι κ) (s : State ι κ) (r : κ) (success : Bool) :
    Option (State ι κ × List (Event ι κ)) :=
  match s.reader r with
  | .clear =>
    match setup.program r with
    | .fifoRead => some (s.setReader r .read .zero, [])
    | .selectBlock => some (s.setReader r .select .zero, [])
  | .select => some (s.setReader r (if success then .read else .select) (s.bufR r), [])
  | .read =>
    some ({ s with content := s.content.drop bufSize }.setReader r .print
      ((s.bufR r).receive s.content), [.read r (s.content.take bufSize)])
  | .print => some (s.setReader r .clear (s.bufR r), [.printed r (cString (s.bufR r).val)])

/-- One step of the system. -/
def State.step (setup : Setup ι κ) (s : State ι κ) :
    Label ι κ → Option (State ι κ × List (Event ι κ))
  | .writer w success => s.stepWriter setup w success
  | .reader r success => s.stepReader setup r success

/-- What follows the terminator never shows: the text of a copied argument is the
argument. -/
theorem cString_strcpy (buf : Buf) (a : Arg) : cString (buf.strcpy a).val = some a.chars :=
  cString_append a.nul_free _

/-- A cleared buffer prints nothing. -/
theorem cString_zero : cString Buf.zero.val = some [] := by decide

/-- A full record replaces the whole buffer. -/
theorem receive_of_length_ge {buf : Buf} {content : List UInt8}
    (h : bufSize ≤ content.length) : (buf.receive content).val = content.take bufSize := by
  have hlen := buf.property
  have hdrop : buf.val.drop (content.take bufSize).length = [] :=
    List.drop_eq_nil_of_le (by simp; omega)
  rw [Buf.receive]
  dsimp only
  rw [hdrop, List.append_nil]

/-- Reading nothing leaves the buffer alone. -/
theorem receive_nil (buf : Buf) : buf.receive [] = buf :=
  Subtype.ext (by simp [Buf.receive])

end LinuxDevNote.Fifo
