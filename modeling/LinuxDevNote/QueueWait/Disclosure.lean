import LinuxDevNote.QueueWait.Driver

/-!
# What a read discloses

`byte` is never cleared, and a read copies out as many bytes as its caller asks
for. Two runs are compared that end with the same write and the same read but
differ before that write. The last read leaves the same bytes with its caller,
whatever came before, exactly when it takes no more bytes than that write stored.
-/

namespace LinuxDevNote.QueueWait

open Memory Kernel Execution

/-- The number of bytes a read of `size` bytes delivers: those up to the first that
cannot be written. -/
def delivered (writable : ℕ → Bool) (size : ℕ) : ℕ := ((List.range size).takeWhile writable).length

/-- The caller's buffer after a read that delivered `out` at its start. -/
def callerBuffer (before out : List UInt8) : List UInt8 := out ++ before.drop out.length

/-- The complete calls `earlier`, whose messages have all been consumed, then the
calls `last`, and then the read `r` with the outcome `res`. -/
def Outcome (byte : ℤ → UInt8) (earlier last : List Op) (r : Op) (res : Result Device) : Prop :=
  (∀ op ∈ earlier, op.isWrite = true → op.size ≤ byteSize) ∧
    ∃ s t es fs, exec Device.step (Device.init byte) earlier = some (s, es) ∧
      s.havedata = false ∧ exec Device.step s last = some (t, fs) ∧ r.result t = some res

/-- Whatever the earlier messages were, the read `r` after the calls `last` leaves its
caller with the same buffer. -/
def DisclosesNothing (byte : ℤ → UInt8) (last : List Op) (r : Op) : Prop :=
  ∀ earlier earlier' res res', Outcome byte earlier last r res →
    Outcome byte earlier' last r res' → ∀ before : List UInt8, before.length = r.size →
      callerBuffer before res.out = callerBuffer before res'.out

/-- No more bytes are delivered than asked for. -/
theorem delivered_le (writable : ℕ → Bool) (size : ℕ) : delivered writable size ≤ size := by
  have hle := (List.takeWhile_prefix writable (l := List.range size)).length_le
  rwa [List.length_range] at hle

/-- A read delivers the start of the array when it finds a message, and nothing
when it finds none. -/
theorem exampleRead_out {s : Device} {size : ℕ} {nonblock : Bool} {writable : ℕ → Bool}
    {r : Result Device} (hr : exampleRead s size nonblock writable = some r) :
    r.out = if s.havedata then slice s.byte 0 (delivered writable size) else [] := by
  have hcopied : (copyToUser writable (slice s.byte 0 size)).1 =
      slice s.byte 0 (delivered writable size) := by
    simp only [copyToUser, slice_length]
    rw [slice_take, ← delivered, min_eq_left (delivered_le writable size)]
  rcases exampleRead_cases hr with ⟨hdata, rfl⟩ | ⟨hdata, -, -, -, hout⟩ |
    ⟨hdata, hwritable, -, -, hout⟩
  · simp [hdata]
  · rw [hout, hcopied, if_pos hdata]
  · rw [hout, if_pos hdata, ← hcopied, copyToUser_of_writable]
    exact fun k hk => hwritable k (by simpa using hk)

/-- After one read or more no message is left. -/
theorem havedata_of_reads {s t : Device} {op : Op} {reads : List Op} {touched : List ℤ}
    (hreads : ∀ op' ∈ op :: reads, op'.isWrite = false)
    (hexec : exec Device.step s (op :: reads) = some (t, touched)) : t.havedata = false := by
  induction reads generalizing s op touched with
  | nil =>
    obtain ⟨u, es, rest, hstep, hrest, -⟩ := exec_cons_eq_some.mp hexec
    obtain ⟨rfl, -⟩ := Prod.mk.inj (Option.some.inj hrest)
    obtain ⟨-, r, hr, rfl, -⟩ := Device.step_eq_some.mp hstep
    cases op with
    | write size buf => cases hreads _ List.mem_cons_self
    | read size nonblock writable => exact exampleRead_havedata hr
  | cons op' reads ih =>
    obtain ⟨u, es, rest, -, hrest, -⟩ := exec_cons_eq_some.mp hexec
    exact ih (fun op'' h => hreads op'' (List.mem_cons_of_mem _ h)) hrest

/-- A read that finds a message returns. -/
theorem exists_exampleRead {s : Device} (hdata : s.havedata = true) (size : ℕ) (nonblock : Bool)
    (writable : ℕ → Bool) : ∃ r, exampleRead s size nonblock writable = some r := by
  simp only [exampleRead, hdata, if_true]
  split
  · exact ⟨_, rfl⟩
  · exact ⟨_, rfl⟩

/-- A read that takes no more than the last write stored delivers bytes of that write
only. -/
theorem Outcome.out_eq {byte : ℤ → UInt8} {earlier reads : List Op} {size rsize : ℕ}
    {buf : ℕ → Option UInt8} {nonblock : Bool} {writable : ℕ → Bool} {res : Result Device}
    (h : Outcome byte earlier (.write size buf :: reads) (.read rsize nonblock writable) res)
    (hreads : ∀ op ∈ reads, op.isWrite = false)
    (hle : reads = [] → delivered writable rsize ≤ (stored buf size).length) :
    res.out = if reads = [] then (stored buf size).take (delivered writable rsize) else [] := by
  obtain ⟨-, s, t, es, fs, -, -, hexec, hres⟩ := h
  obtain ⟨u, gs, rest, hstep, hrest, -⟩ := exec_cons_eq_some.mp hexec
  rw [exampleRead_out hres]
  cases reads with
  | nil =>
    obtain ⟨hsize, r, hr, rfl, -⟩ := Device.step_eq_some.mp hstep
    obtain ⟨rfl, -⟩ := Prod.mk.inj (Option.some.inj hrest)
    obtain rfl := Option.some.inj hr
    rw [exampleWrite_eq s buf (by simpa [Op.size] using hsize)]
    simp only [if_true]
    exact slice_splice_of_le _ _ (hle rfl)
  | cons op reads => simp [havedata_of_reads hreads hrest]

/-- A message of 100 equal bytes is written and read. -/
def fill (x : UInt8) : List Op :=
  [.write byteSize fun _ => some x, .read byteSize false fun _ => true]

/-- When all bytes are the same, so are those stored. -/
theorem stored_of_const (x : UInt8) (size : ℕ) :
    stored (fun _ => some x) size = List.replicate size x := by
  induction size with
  | zero => rfl
  | succ size ih => rw [stored, ih, List.replicate_succ]

/-- After it was filled and read, the array still holds the filling. -/
theorem exec_fill (byte : ℤ → UInt8) (x : UInt8) :
    ∃ s touched, exec Device.step (Device.init byte) (fill x) = some (s, touched) ∧
      s.havedata = false ∧ ∀ n < byteSize, s.byte n = x := by
  have hadmitted : byteSize ≤ MAX_RW_COUNT := by decide
  have hwritten := exampleWrite_eq (Device.init byte) (fun _ => some x) hadmitted
  rw [stored_of_const] at hwritten
  obtain ⟨r, hr⟩ := exists_exampleRead
    (s := (exampleWrite (Device.init byte) byteSize fun _ => some x).device) rfl byteSize false
    fun _ => true
  have hwrite : (Device.init byte).step (.write byteSize fun _ => some x) = some (_, _) :=
    Device.step_eq_some.mpr ⟨hadmitted, _, rfl, rfl, rfl⟩
  have hread : Device.step _ (.read byteSize false fun _ => true) = some (r.device, r.touched) :=
    Device.step_eq_some.mpr ⟨hadmitted, r, hr, rfl, rfl⟩
  refine ⟨r.device, _, exec_append (exec_singleton hwrite) (exec_singleton hread),
    exampleRead_havedata hr, fun n hn => ?_⟩
  have hbyte : r.device.byte = splice byte 0 (List.replicate byteSize x) := by
    rcases exampleRead_cases hr with ⟨hnone, -⟩ | ⟨-, ⟨k, -, hk⟩, -⟩ | ⟨-, -, -, hdevice, -⟩
    · cases hnone
    · cases hk
    · rw [hdevice, hwritten]
      rfl
  have hcell := splice_getElem byte 0 (List.replicate byteSize x) (i := n) (by simpa using hn)
  rw [zero_add, List.getElem_replicate] at hcell
  rw [hbyte, hcell]

/-- After the array was filled, a read that takes more than the last write stored
delivers a byte of the filling. -/
theorem outcome_of_fill {size rsize : ℕ} {buf : ℕ → Option UInt8} {writable : ℕ → Bool}
    (byte : ℤ → UInt8) (nonblock : Bool) (x : UInt8) (hsize : size ≤ byteSize)
    (hrsize : rsize ≤ byteSize) (hmore : (stored buf size).length < delivered writable rsize) :
    ∃ res, Outcome byte (fill x) [.write size buf] (.read rsize nonblock writable) res ∧
      res.out.length = delivered writable rsize ∧
        res.out[(stored buf size).length]? = some x := by
  obtain ⟨s, es, hfill, hdata, hcells⟩ := exec_fill byte x
  have hadmitted : size ≤ MAX_RW_COUNT := hsize.trans (by decide)
  have hwrite : s.step (.write size buf) = some (_, _) :=
    Device.step_eq_some.mpr ⟨hadmitted, _, rfl, rfl, rfl⟩
  obtain ⟨res, hres⟩ := exists_exampleRead (s := (exampleWrite s size buf).device) rfl rsize
    nonblock writable
  have hout : res.out =
      slice (splice s.byte 0 (stored buf size)) 0 (delivered writable rsize) := by
    rw [exampleRead_out hres, exampleWrite_eq s buf hadmitted]
    rfl
  have hbound := delivered_le writable rsize
  refine ⟨res, ⟨?_, s, _, es, _, hfill, hdata, exec_singleton hwrite, hres⟩, ?_, ?_⟩
  · intro op hop hop'
    simp only [fill, List.mem_cons, List.not_mem_nil, or_false] at hop
    rcases hop with rfl | rfl
    · exact le_rfl
    · cases hop'
  · rw [hout, slice_length]
  · rw [hout, List.getElem?_eq_getElem (by rw [slice_length]; exact hmore), slice_getElem,
      splice_of_ge _ _ (by omega), zero_add, hcells _ (by omega)]

/-- A read whose buffer does not depend on the earlier messages delivers no more bytes
than the last write stored. -/
theorem DisclosesNothing.delivered_le {byte : ℤ → UInt8} {size rsize : ℕ}
    {buf : ℕ → Option UInt8} {nonblock : Bool} {writable : ℕ → Bool}
    (h : DisclosesNothing byte [.write size buf] (.read rsize nonblock writable))
    (hsize : size ≤ byteSize) (hrsize : rsize ≤ byteSize) :
    delivered writable rsize ≤ (stored buf size).length := by
  by_contra hmore
  rw [not_le] at hmore
  obtain ⟨res, hres, hlen, hcell⟩ :=
    outcome_of_fill byte nonblock 0 hsize hrsize hmore
  obtain ⟨res', hres', hlen', hcell'⟩ :=
    outcome_of_fill byte nonblock 1 hsize hrsize hmore
  have hbuffer := h _ _ _ _ hres hres' (List.replicate rsize 0) (by simp [Op.size])
  have hout := (List.append_inj hbuffer (hlen.trans hlen'.symm)).1
  rw [hout, hcell'] at hcell
  exact absurd hcell (by decide)

/-- **What a read discloses.** Of a read after a write of at most 100 bytes, and
possibly other reads in between, the caller's buffer is the same whatever the earlier
messages were exactly when another read came first or the read delivers no more bytes
than the write stored. -/
theorem discloses_nothing_iff {byte : ℤ → UInt8} {size rsize : ℕ} {buf : ℕ → Option UInt8}
    {reads : List Op} {nonblock : Bool} {writable : ℕ → Bool} (hsize : size ≤ byteSize)
    (hrsize : rsize ≤ byteSize) (hreads : ∀ op ∈ reads, op.isWrite = false) :
    DisclosesNothing byte (.write size buf :: reads) (.read rsize nonblock writable) ↔
      (reads = [] → delivered writable rsize ≤ (stored buf size).length) := by
  constructor
  · rintro h rfl
    exact h.delivered_le hsize hrsize
  · intro hle earlier earlier' res res' hres hres' before _
    rw [hres.out_eq hreads hle, hres'.out_eq hreads hle]

/-- A read of the length of the message discloses nothing else. -/
theorem discloses_nothing_iff_run :
    DisclosesNothing (fun _ => 0) [.write 5 fun _ => some 7] (.read 5 false fun _ => true) :=
  (discloses_nothing_iff (by decide) (by decide) (by decide)).mpr fun _ => by decide

/-- A read of two bytes of a message of one byte discloses a byte of an earlier
message. -/
theorem earlier_message_disclosed :
    ¬ ∀ (byte : ℤ → UInt8) (size rsize : ℕ) (buf : ℕ → Option UInt8) (reads : List Op)
      (nonblock : Bool) (writable : ℕ → Bool), size ≤ byteSize → rsize ≤ byteSize →
        (∀ op ∈ reads, op.isWrite = false) →
          DisclosesNothing byte (.write size buf :: reads) (.read rsize nonblock writable) := by
  intro h
  have hlaw := h (fun _ => 0) 1 2 (fun _ => some 7) [] false (fun _ => true) (by decide) (by decide)
    (by decide)
  exact absurd (hlaw.delivered_le (by decide) (by decide)) (by decide)

end LinuxDevNote.QueueWait
