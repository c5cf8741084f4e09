import LinuxDevNote.Library.CString
import LinuxDevNote.Library.Execution
import LinuxDevNote.Library.Memory

/-!
# The TCP client and server

Any number of runs of `tcp_client` send one line each over a connection of their
own, and `tcp_server` accepts the connections one after another. TCP is a reliable
ordered stream of bytes: what a client writes reaches the server's `read` in pieces
that are not empty, and nothing else is known about where it is cut. The calls that
set the sockets up succeed.
-/

namespace LinuxDevNote.Tcp

open Memory CString Execution

/-- The size of the buffers of both programs. -/
def bufSize : ℕ := 1024

/-- What a user types: at least one byte, and no NUL. -/
structure Stdin where
  /-- The bytes. -/
  bytes : List UInt8
  /-- There is a line to read. -/
  nonempty : bytes ≠ []
  /-- No byte is NUL. -/
  nul_free : 0 ∉ bytes

/-- The bytes `fgets` stores when its buffer has room for `room` of them: those up to
the end of the line. -/
def fgets : ℕ → List UInt8 → List UInt8
  | 0, _ => []
  | _, [] => []
  | room + 1, b :: rest => if b = 10 then [b] else b :: fgets room rest

/-- A way TCP may cut what was written: into pieces that are not empty. -/
structure Segmentation where
  /-- The pieces some bytes arrive in. -/
  pieces : List UInt8 → List (List UInt8)
  /-- Nothing is lost, added or reordered. -/
  flatten : ∀ bytes, (pieces bytes).flatten = bytes
  /-- No piece is empty. -/
  nonempty : ∀ bytes, [] ∉ pieces bytes

/-- `data` stored at the start of a buffer, with a terminator after it. -/
def store (buffer : ℤ → UInt8) (data : List UInt8) : ℤ → UInt8 :=
  Function.update (splice buffer 0 data) data.length 0

/-- The bytes that `strlen` counts and `%s` prints: those before the first NUL. -/
def text (buffer : ℤ → UInt8) : Option (List UInt8) := cString (slice buffer 0 bufSize)

/-- The clients, with everything they start from. -/
structure Setup (ι : Type*) where
  /-- What is typed into each client. -/
  stdin : ι → Stdin
  /-- How the stream of each client is cut. -/
  segmentation : ι → Segmentation
  /-- What `buffer` of each client held before. -/
  junk : ι → ℤ → UInt8

/-- The line of a client. -/
def Setup.line {ι : Type*} (setup : Setup ι) (c : ι) : List UInt8 :=
  fgets (bufSize - 1) (setup.stdin c).bytes

/-- The piece in which the line of a client starts to arrive. -/
def Setup.firstPiece {ι : Type*} (setup : Setup ι) (c : ι) : List UInt8 :=
  ((setup.segmentation c).pieces (setup.line c)).headD []

/-- The call a client makes next. -/
inductive ClientPc
  | connect
  | fgets
  | write
  | close
  | done

/-- The call the server makes next, and the connection it makes it for. -/
inductive ServerPc (ι : Type*)
  | accept
  | read (c : ι)
  | print (c : ι)
  | close (c : ι)

/-- The programs and the connections. -/
structure State (ι : Type*) where
  /-- Where each client stands. -/
  client : ι → ClientPc
  /-- `buffer` of each client. -/
  clientBuf : ι → ℤ → UInt8
  /-- The connections waiting to be accepted. -/
  backlog : List ι
  /-- The pieces of each stream that were not read yet. -/
  stream : ι → List (List UInt8)
  /-- Where the server stands. -/
  server : ServerPc ι
  /-- `buffer` of the server. -/
  buffer : ℤ → UInt8

/-- Nobody has connected yet. -/
def State.init {ι : Type*} (setup : Setup ι) (buffer : ℤ → UInt8) : State ι :=
  ⟨fun _ => .connect, setup.junk, [], fun _ => [], .accept, buffer⟩

/-- A scheduling decision: a client takes a step, or the server does. -/
inductive Label (ι : Type*)
  | client (c : ι)
  | server

/-- What can be observed: a line the server printed, and a connection it closed. -/
inductive Event (ι : Type*)
  | printed (c : ι) (text : Option (List UInt8))
  | closed (c : ι)

variable {ι : Type*} [DecidableEq ι]

/-- Move a client. -/
def State.setClient (s : State ι) (c : ι) (pc : ClientPc) : State ι :=
  { s with client := Function.update s.client c pc }

/-- The next call of a client. -/
def State.stepClient (setup : Setup ι) (s : State ι) (c : ι) :
    Option (State ι × List (Event ι)) :=
  match s.client c with
  | .connect => some ({ s with backlog := s.backlog ++ [c] }.setClient c .fgets, [])
  | .fgets =>
    let buf := store (s.clientBuf c) (fgets (bufSize - 1) (setup.stdin c).bytes)
    some ({ s with clientBuf := Function.update s.clientBuf c buf }.setClient c .write, [])
  | .write =>
    -- `strlen(buffer)` bytes, all of which are written
    (text (s.clientBuf c)).map fun data =>
      ({ s with
          stream := Function.update s.stream c ((setup.segmentation c).pieces data)
        }.setClient c .close, [])
  | .close => some (s.setClient c .done, [])
  | .done => none

/-- The next call of the server. -/
def State.stepServer (s : State ι) : Option (State ι × List (Event ι)) :=
  match s.server with
  | .accept =>
    match s.backlog with
    | [] => none
    | c :: backlog => some ({ s with backlog := backlog, server := .read c }, [])
  | .read c =>
    match s.stream c, s.client c with
    | piece :: rest, _ =>
      let unread := piece.drop bufSize
      some ({ s with
          stream := Function.update s.stream c (if unread = [] then rest else unread :: rest)
          buffer := store s.buffer (piece.take bufSize)
          server := .print c }, [])
    -- the end of the stream: nothing is read
    | [], .done => some ({ s with buffer := store s.buffer [], server := .print c }, [])
    | [], _ => none
  | .print c => some ({ s with server := .close c }, [.printed c (text s.buffer)])
  | .close c => some ({ s with server := .accept }, [.closed c])

/-- One step of the system. -/
def State.step (setup : Setup ι) (s : State ι) : Label ι → Option (State ι × List (Event ι))
  | .client c => s.stepClient setup c
  | .server => s.stepServer

/-- `fgets` stores bytes from the start of the input. -/
theorem fgets_isInitial (room : ℕ) (bytes : List UInt8) : fgets room bytes <+: bytes := by
  induction room generalizing bytes with
  | zero => simp [fgets]
  | succ room ih =>
    cases bytes with
    | nil => simp [fgets]
    | cons b rest =>
      rw [fgets]
      split
      · simp
      · exact List.prefix_cons_inj b |>.mpr (ih rest)

/-- `fgets` keeps to its room. -/
theorem fgets_length_le (room : ℕ) (bytes : List UInt8) : (fgets room bytes).length ≤ room := by
  induction room generalizing bytes with
  | zero => simp [fgets]
  | succ room ih =>
    cases bytes with
    | nil => simp [fgets]
    | cons b rest =>
      rw [fgets]
      split
      · simp
      · simpa using ih rest

/-- What is stored with a terminator within the buffer is its text, up to the first NUL. -/
theorem text_store_takeWhile (buffer : ℤ → UInt8) {data : List UInt8}
    (hlen : data.length < bufSize) :
    text (store buffer data) = some (data.takeWhile (· ≠ 0)) := by
  have hsplit : bufSize = data.length + (1 + (bufSize - data.length - 1)) := by omega
  have hfirst : slice (store buffer data) 0 data.length = data := by
    rw [store, slice_update_of_outside _ _ (by omega), slice_splice]
  have hend : slice (store buffer data) (0 + data.length) 1 = [0] := by
    simp [slice, store]
  rw [text, hsplit, slice_add, slice_add, hfirst, hend, List.singleton_append]
  exact cString_append_nul data _

/-- What is stored with a terminator is the text of the buffer. -/
theorem text_store (buffer : ℤ → UInt8) {data : List UInt8} (hdata : 0 ∉ data)
    (hlen : data.length < bufSize) : text (store buffer data) = some data := by
  rw [text_store_takeWhile buffer hlen, takeWhile_of_nul_free hdata]

section Line

omit [DecidableEq ι]

variable (setup : Setup ι) (c : ι)

/-- A line contains no NUL. -/
theorem Setup.line_nul_free : 0 ∉ setup.line c :=
  fun h => (setup.stdin c).nul_free ((fgets_isInitial _ _).subset h)

/-- A line has at most 1023 bytes. -/
theorem Setup.line_length_lt : (setup.line c).length < bufSize := by
  have hle := fgets_length_le (bufSize - 1) (setup.stdin c).bytes
  rw [line]
  unfold bufSize at hle ⊢
  omega

/-- A line is not empty. -/
theorem Setup.line_ne_nil : setup.line c ≠ [] := by
  obtain ⟨b, rest, hbytes⟩ := List.exists_cons_of_ne_nil (setup.stdin c).nonempty
  have hroom : bufSize - 1 = 1022 + 1 := rfl
  rw [line, hbytes, hroom, fgets]
  split
  · simp
  · simp

/-- The stream of a line starts with its first piece. -/
theorem Setup.pieces_eq :
    ∃ rest, (setup.segmentation c).pieces (setup.line c) = setup.firstPiece c :: rest := by
  have hflatten := (setup.segmentation c).flatten (setup.line c)
  cases hpieces : (setup.segmentation c).pieces (setup.line c) with
  | nil =>
    rw [hpieces] at hflatten
    exact absurd hflatten.symm (setup.line_ne_nil c)
  | cons piece rest => exact ⟨rest, by rw [firstPiece, hpieces]; rfl⟩

/-- The first piece is the start of the line. -/
theorem Setup.firstPiece_isInitial : setup.firstPiece c <+: setup.line c := by
  obtain ⟨rest, hpieces⟩ := setup.pieces_eq c
  have hflatten := (setup.segmentation c).flatten (setup.line c)
  rw [hpieces, List.flatten_cons] at hflatten
  exact ⟨rest.flatten, hflatten⟩

/-- The first piece fits the server's buffer with its terminator. -/
theorem Setup.firstPiece_length_lt : (setup.firstPiece c).length < bufSize :=
  (setup.firstPiece_isInitial c).length_le.trans_lt (setup.line_length_lt c)

/-- The text of the server's buffer after the first piece was read is that piece. -/
theorem Setup.text_firstPiece (buffer : ℤ → UInt8) :
    text (store buffer ((setup.firstPiece c).take bufSize)) = some (setup.firstPiece c) := by
  rw [List.take_of_length_le (setup.firstPiece_length_lt c).le]
  exact text_store buffer (fun h => setup.line_nul_free c ((setup.firstPiece_isInitial c).subset h))
    (setup.firstPiece_length_lt c)

end Line

end LinuxDevNote.Tcp
