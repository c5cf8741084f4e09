import LinuxDevNote.QueueWait.Driver

/-!
# Complete calls of the queue-wait driver

What the driver is for when no two calls overlap: a mailbox in which a write
leaves its message, replacing any other, and from which a read takes the message.
That mailbox is run beside the device, and the two agree after every sequence of
calls. What the handlers return, and what a failed call leaves behind, is compared
with the mailbox.
-/

namespace LinuxDevNote.QueueWait

open Memory Kernel Execution

/-- What a call leaves in the mailbox: a write the bytes it supplies, a read
nothing, even when it fails. -/
def Op.leaves : Op → Option (List UInt8)
  | .write size buf => some (readable buf size)
  | .read _ _ _ => none

/-- The device, and the mailbox it stands for. -/
structure Tracked where
  /-- The globals of the driver. -/
  device : Device
  /-- The pending message. -/
  slot : Option (List UInt8)

/-- A completed call: the message it found, its arguments, and its outcome. -/
structure Call where
  /-- The message pending before the call. -/
  slot : Option (List UInt8)
  /-- The call. -/
  op : Op
  /-- The outcome of its handler. -/
  result : Result Device

/-- The loaded module, with an empty mailbox. -/
def Tracked.init (byte : ℤ → UInt8) : Tracked := ⟨Device.init byte, none⟩

/-- A complete call on the device and on the mailbox; the VFS refuses counts above
its limit. -/
def Tracked.step (s : Tracked) (op : Op) : Option (Tracked × List Call) :=
  if op.size ≤ MAX_RW_COUNT then
    (op.result s.device).map fun r => (⟨r.device, op.leaves⟩, [⟨s.slot, op, r⟩])
  else none

/-- The device shows the mailbox: the flag says whether a message is pending, and
the array holds it. -/
structure Tracked.Agrees (s : Tracked) : Prop where
  /-- `havedata` says whether a message is pending. -/
  flag : s.device.havedata = s.slot.isSome
  /-- The array holds the pending message. -/
  holds : ∀ m, s.slot = some m → Holds s.device.toBuffer m

/-- A completed call was admitted by the VFS and ran its handler. -/
theorem Tracked.step_eq_some {s t : Tracked} {op : Op} {calls : List Call} :
    s.step op = some (t, calls) ↔
      op.size ≤ MAX_RW_COUNT ∧ ∃ r, op.result s.device = some r ∧ t = ⟨r.device, op.leaves⟩ ∧
        calls = [⟨s.slot, op, r⟩] := by
  unfold step
  split
  · rename_i hsize
    simp only [Option.map_eq_some_iff, Prod.mk.injEq, hsize, true_and]
    exact exists_congr fun r => and_congr_right fun _ => and_congr eq_comm eq_comm
  · rename_i hsize
    simp [hsize]

/-- The mailbox is empty at the start. -/
theorem Tracked.agrees_init (byte : ℤ → UInt8) : (Tracked.init byte).Agrees where
  flag := rfl
  holds m hm := by cases hm

/-- The device shows the mailbox after every call. -/
theorem Tracked.Agrees.step {s t : Tracked} {op : Op} {calls : List Call} (_h : s.Agrees)
    (hstep : s.step op = some (t, calls)) : t.Agrees := by
  obtain ⟨hsize, r, hr, rfl, -⟩ := Tracked.step_eq_some.mp hstep
  cases op with
  | write size buf =>
    obtain rfl := Option.some.inj hr
    refine ⟨rfl, fun m hm => ?_⟩
    rw [← Option.some.inj hm]
    exact holds_exampleWrite s.device buf hsize
  | read size nonblock writable =>
    exact ⟨exampleRead_havedata hr, fun m hm => by cases hm⟩

/-- The device shows the mailbox in every reachable state. -/
theorem agrees_of_run {ok : Tracked → Op → Prop} {byte : ℤ → UInt8} {s : Tracked}
    {calls : List Call} (hrun : Run Tracked.step ok (Tracked.init byte) s calls) : s.Agrees :=
  hrun.invariant (I := fun s _ => s.Agrees) (Tracked.agrees_init byte)
    fun h _ hstep => h.step hstep

/-- A read that found a message returns the number of its bytes that were asked
for, and puts these into the caller's buffer. -/
def Call.ReadsMessage (c : Call) : Prop :=
  ∀ m, c.slot = some m → c.op.isWrite = false →
    c.result.ret = min c.op.size m.length ∧
      c.result.out.take (min c.op.size m.length) = m.take (min c.op.size m.length)

/-- A read that finds a message asks for all of it, into memory that can be
written. -/
def Op.TakesAll (s : Device) (op : Op) : Prop :=
  s.havedata = true → op.isWrite = false →
    s.buffLen ≤ op.size ∧ ∀ k < op.size, op.writable k = true

instance (s : Device) (op : Op) : Decidable (op.TakesAll s) :=
  inferInstanceAs (Decidable (_ → _))

/-- A read that finds the message `m` returns what was asked for of it exactly when that
is all of it and meets no fault. -/
theorem exampleRead_message_iff {s : Device} {size : ℕ} {nonblock : Bool} {writable : ℕ → Bool}
    {r : Result Device} {m : List UInt8} (hdata : s.havedata = true) (hholds : Holds s.toBuffer m)
    (hr : exampleRead s size nonblock writable = some r) :
    (r.ret = min size m.length ∧
        r.out.take (min size m.length) = m.take (min size m.length)) ↔
      s.buffLen ≤ size ∧ ∀ k < size, writable k = true := by
  obtain ⟨hlen, hslice⟩ := hholds
  rcases exampleRead_cases hr with ⟨hnone, -⟩ | ⟨-, ⟨k, hk, hfault⟩, hret, -, -⟩ |
    ⟨-, hwritable, hret, -, hout⟩
  · rw [hdata] at hnone
    cases hnone
  · refine iff_of_false (fun hgood => ?_) fun hall => ?_
    · rw [hret, EFAULT] at hgood
      omega
    · rw [hall.2 k hk] at hfault
      cases hfault
  · rw [hret, hlen, and_iff_left hwritable]
    constructor
    · rintro ⟨hmin, -⟩
      omega
    · intro hle
      have hmin : min size m.length = m.length := by omega
      rw [hmin]
      refine ⟨rfl, ?_⟩
      rw [hout, slice_take, min_eq_left (by omega), hslice, List.take_length]

/-- A call returns what the mailbox says exactly when it takes all of the message. -/
theorem Tracked.Agrees.readsMessage_iff {s t : Tracked} {op : Op} {calls : List Call}
    (h : s.Agrees) (hstep : s.step op = some (t, calls)) :
    (∀ c ∈ calls, c.ReadsMessage) ↔ op.TakesAll s.device := by
  obtain ⟨-, r, hr, -, rfl⟩ := Tracked.step_eq_some.mp hstep
  rw [List.forall_mem_singleton]
  cases op with
  | write size buf =>
    refine iff_of_true ?_ ?_
    · intro m _ hread
      cases hread
    · intro _ hread
      cases hread
  | read size nonblock writable =>
    simp only [Call.ReadsMessage, Op.TakesAll, Op.size, Op.writable, Op.isWrite, forall_const,
      h.flag]
    cases hslot : s.slot with
    | none => simp
    | some m =>
      have hdata : s.device.havedata = true := by rw [h.flag, hslot]; rfl
      simp only [Option.some.injEq, forall_eq', Option.isSome_some, forall_const]
      exact exampleRead_message_iff hdata (h.holds m hslot) hr

/-- **What a read returns.** In every sequence of complete calls each read that
finds a message returns the smaller of its size and the length of the message, with
the bytes of the message, exactly when every such read asks for all of it and meets
no fault. -/
theorem reads_message_iff {byte : ℤ → UInt8} {ops : List Op} {s : Tracked} {calls : List Call}
    (hexec : exec Tracked.step (Tracked.init byte) ops = some (s, calls)) :
    (∀ c ∈ calls, c.ReadsMessage) ↔
      Meets Tracked.step (fun s op => op.TakesAll s.device) (Tracked.init byte) ops :=
  forall_events_iff_meets Tracked.Agrees Call.ReadsMessage (fun s op => op.TakesAll s.device)
    (fun h hstep => h.readsMessage_iff hstep) (fun h _ hstep => h.step hstep)
    (Tracked.agrees_init byte) hexec

/-- A message of two bytes is read whole into five. -/
theorem reads_message_iff_run :
    ∃ s calls, exec Tracked.step (Tracked.init fun _ => 0)
        [.write 2 fun _ => some 7, .read 5 false fun _ => true] = some (s, calls) ∧
      ∀ c ∈ calls, c.ReadsMessage := by
  obtain ⟨⟨s, calls⟩, hexec, _⟩ := Option.map_eq_some_iff.mp
    (show (exec Tracked.step (Tracked.init fun _ => 0)
      [.write 2 fun _ => some 7, .read 5 false fun _ => true]).map (fun p => p.1.slot) = some none
      by decide)
  exact ⟨s, calls, hexec, (reads_message_iff hexec).mpr (by decide)⟩

/-- A write of at most 100 bytes, or a read, without a fault. -/
def Op.Promised : Op → Prop
  | .write size buf => size ≤ byteSize ∧ ∀ k < size, (buf k).isSome = true
  | .read size _ writable => ∀ k < size, writable k = true

/-- A read of two bytes of a message of five returns five. -/
theorem read_overcounts :
    ¬ ∀ (byte : ℤ → UInt8) (ops : List Op) (s : Tracked) (calls : List Call),
      (∀ op ∈ ops, op.Promised) → exec Tracked.step (Tracked.init byte) ops = some (s, calls) →
        ∀ c ∈ calls, c.ReadsMessage := by
  intro h
  have hwrite : (Tracked.init fun _ => 0).step (.write 5 fun _ => some 7) = some (_, _) :=
    Tracked.step_eq_some.mpr ⟨by decide, _, rfl, rfl, rfl⟩
  have hread : Tracked.step ⟨(exampleWrite (Device.init fun _ => 0) 5 fun _ => some 7).device,
      some [7, 7, 7, 7, 7]⟩ (.read 2 false fun _ => true) = some (_, _) :=
    Tracked.step_eq_some.mpr ⟨by decide, _, rfl, rfl, rfl⟩
  have hpromised : ∀ op ∈ [Op.write 5 fun _ => some 7] ++ [.read 2 false fun _ => true],
      op.Promised := by
    simp [Op.Promised, byteSize]
  have hmessage := h _ _ _ _ hpromised (exec_append (exec_singleton hwrite) (exec_singleton hread))
    _ (List.mem_append_right _ List.mem_cons_self) [7, 7, 7, 7, 7] rfl rfl
  exact absurd hmessage.1 (by decide)

section Faults

/-- The message the globals show. -/
def Device.pending (s : Device) : Option (List UInt8) :=
  if s.havedata then some (slice s.byte 0 s.buffLen.toNat) else none

/-- The call meets a fault: a write whose first byte cannot be read, or a read of a
message into memory that cannot all be written. -/
def Op.Faults (s : Device) : Op → Prop
  | .write size buf => 0 < size ∧ buf 0 = none
  | .read size _ writable => s.havedata = true ∧ ∃ k < size, writable k = false

/-- The call reports an error and leaves the mailbox as it found it. -/
structure Undone (s : Device) (r : Result Device) : Prop where
  /-- The return value is an error number. -/
  error : r.ret < 0
  /-- `havedata` is unchanged. -/
  flag : r.device.havedata = s.havedata
  /-- `buff_len` is unchanged. -/
  length : r.device.buffLen = s.buffLen
  /-- The same message is pending. -/
  message : r.device.pending = s.pending

/-- A read that meets a fault returns `-EFAULT` and drops the message. -/
theorem exampleRead_of_fault {s : Device} {size : ℕ} {nonblock : Bool} {writable : ℕ → Bool}
    {r : Result Device} (hdata : s.havedata = true) (hfault : ∃ k < size, writable k = false)
    (hr : exampleRead s size nonblock writable = some r) :
    r.ret = -EFAULT ∧ r.device.havedata = false ∧ r.device.pending = none := by
  obtain ⟨k, hk, hk'⟩ := hfault
  rcases exampleRead_cases hr with ⟨hnone, -⟩ | ⟨-, -, hret, hdevice, -⟩ | ⟨-, hwritable, -, -, -⟩
  · rw [hdata] at hnone
    cases hnone
  · rw [hdevice]
    exact ⟨hret, rfl, rfl⟩
  · rw [hwritable k hk] at hk'
    cases hk'

/-- A write that cannot read its first byte returns 0 and publishes an empty
message, in place of one that was pending. -/
theorem exampleWrite_of_fault (s : Device) {size : ℕ} {buf : ℕ → Option UInt8}
    (hpos : 0 < size) (hfault : buf 0 = none) (hsize : size ≤ MAX_RW_COUNT) :
    (exampleWrite s size buf).ret = 0 ∧ (exampleWrite s size buf).device.pending = some [] := by
  have hnone : readable buf size = [] := readable_of_none (k := 0) rfl (by omega) hfault
  rw [exampleWrite_eq s buf hsize, hnone]
  exact ⟨rfl, rfl⟩

/-- **Failed calls.** Whatever the globals are, no call that meets a fault is undone:
a read has dropped the message, and a write has published an empty one. -/
theorem faulting_call_not_undone {s : Device} {op : Op} {r : Result Device}
    (hsize : op.size ≤ MAX_RW_COUNT) (hfaults : op.Faults s) (hr : op.result s = some r) :
    ¬ Undone s r := by
  intro hundone
  cases op with
  | write size buf =>
    obtain rfl := Option.some.inj hr
    have herror := hundone.error
    rw [(exampleWrite_of_fault s hfaults.1 hfaults.2 hsize).1] at herror
    omega
  | read size nonblock writable =>
    obtain ⟨hdata, hfault⟩ := hfaults
    have hflag := hundone.flag
    rw [(exampleRead_of_fault hdata hfault hr).2.1, hdata] at hflag
    cases hflag

/-- A read of a pending message into an unmapped buffer is not undone. -/
theorem faulting_call_not_undone_run :
    ¬ Undone ⟨⟨fun _ => 0, 2⟩, true⟩
      ((exampleRead ⟨⟨fun _ => 0, 2⟩, true⟩ 2 false fun _ => false).get rfl) :=
  faulting_call_not_undone (show Op.size (.read 2 false fun _ => false) ≤ MAX_RW_COUNT by decide)
    ⟨rfl, 0, by decide⟩ rfl

/-- A message of two bytes is written, and lost by a read that cannot deliver it. -/
theorem failed_read_drops_message :
    ¬ ∀ (byte : ℤ → UInt8) (ops : List Op) (s : Device) (touched : List ℤ),
      exec Device.step (Device.init byte) ops = some (s, touched) →
        ∀ (op : Op) (r : Result Device), op.size ≤ byteSize → op.Faults s →
          op.result s = some r → Undone s r := by
  intro h
  have hwrite : (Device.init fun _ => 0).step (.write 2 fun _ => some 7) = some (_, _) :=
    Device.step_eq_some.mpr ⟨by decide, _, rfl, rfl, rfl⟩
  have hundone := h _ _ _ _ (exec_singleton hwrite) (.read 2 false fun _ => false) _ (by decide)
    ⟨rfl, 0, by decide⟩ rfl
  exact absurd hundone.flag (by decide)

end Faults

end LinuxDevNote.QueueWait
