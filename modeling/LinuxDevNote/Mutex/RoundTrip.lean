import LinuxDevNote.Library.Pieces
import LinuxDevNote.Mutex.Positions

/-!
# Writing and reading back in pieces

One open file is written from some position, moved back there, and read. How the data
was cut into writes does not show in the memory, and how the reads were cut does not
show in what they deliver. `writecount` selects the loop of every write, and neither
depends on it.
-/

namespace LinuxDevNote.Mutex

open Memory Kernel Execution Pieces

/-- The shared data and the position of the one open file. -/
structure Session where
  /-- `sh->mem` and `writecount`. -/
  share : Share
  /-- `f_pos`. -/
  fPos : BitVec 64

/-- A faultless system call: the caller's buffer is exactly the bytes named. -/
inductive SessionOp
  | write (data : List UInt8)
  | llseek (offset : BitVec 64) (whence : ℤ)
  | read (size : ℕ)

/-- What a completed call gives its caller. -/
structure Reply where
  /-- The value returned. -/
  ret : ℤ
  /-- The bytes placed in the caller's buffer. -/
  out : List UInt8

/-- The reply of a read that delivers some bytes. -/
def Reply.ofBytes (out : List UInt8) : Reply := ⟨out.length, out⟩

/-- The call runs its handler to the end. -/
def Session.step (s : Session) : SessionOp → Option (Session × List Reply)
  | .write data =>
    let r := Mutex.write s.share (BitVec.ofNat 64 data.length) (fun i => data[i]?) s.fPos
    some (⟨r.share, storedPosition none s.fPos r.loff r.ret⟩, [⟨r.ret, []⟩])
  | .llseek offset whence =>
    some (⟨s.share, (llseek s.fPos offset whence).2⟩, [⟨(llseek s.fPos offset whence).1, []⟩])
  | .read size =>
    let r := Mutex.read s.share.mem (BitVec.ofNat 64 size) (fun i => decide (i < size)) s.fPos
    some (⟨s.share, storedPosition none s.fPos r.loff r.ret⟩, [⟨r.ret, r.out⟩])

/-- The part of the data that fits between a position and the end. -/
def fitting (p : ℕ) (data : List UInt8) : List UInt8 := data.take (memSize - p)

/-- As much of the data fits as there is room. -/
@[simp] theorem length_fitting (p : ℕ) (data : List UInt8) :
    (fitting p data).length = min data.length (memSize - p) := by
  rw [fitting, List.length_take, min_comm]

/-- What fits, cut off at its own length. -/
theorem fitting_eq_take (p : ℕ) (data : List UInt8) :
    fitting p data = data.take (min data.length (memSize - p)) := by
  rw [fitting, List.take_eq_take_iff]
  omega

/-- What is left to read from a position on. -/
def unread (mem : Mem) (p : ℕ) : List UInt8 := slice mem p (memSize - p)

/-- The narrowing to 32 bits does not show in a count the VFS admits. -/
theorem clampCount_eq_min {n : ℕ} (h : n ≤ MAX_RW_COUNT) (p : ℕ) :
    clampCount p (BitVec.ofNat 64 n) = min n (memSize - p) := by
  have hnarrow : ((BitVec.ofNat 64 n).setWidth 32).toNat = n := by
    unfold MAX_RW_COUNT at h
    rw [BitVec.toNat_setWidth, BitVec.toNat_ofNat]
    omega
  unfold clampCount
  rw [hnarrow]
  dsimp only
  split <;> omega

/-- The bytes the copy loop moves from a buffer that holds exactly the data. -/
theorem map_copyFromUserByte {data : List UInt8} {n : ℕ} (h : n ≤ data.length) :
    ((List.range' 0 n).map fun k => (copyFromUserByte data[k]?).1) = data.take n := by
  apply List.ext_getElem
  · simpa using h
  · intro i hi hi'
    have hlt : i < data.length := by
      rw [List.length_take] at hi'
      omega
    simp [copyFromUserByte, List.getElem?_eq_getElem hlt]

/-- A write of an admitted size stores what fits, and both its result and the position
count those bytes. -/
theorem Session.step_write {s : Session} {data : List UInt8} (hpos : s.fPos.toNat ≤ memSize)
    (hsize : data.length ≤ MAX_RW_COUNT) :
    ∃ t, s.step (.write data) = some (t, [⟨(fitting s.fPos.toNat data).length, []⟩]) ∧
      t.share.mem = splice s.share.mem s.fPos.toNat (fitting s.fPos.toNat data) ∧
      t.fPos.toNat = s.fPos.toNat + (fitting s.fPos.toNat data).length := by
  have hlen := length_fitting s.fPos.toNat data
  by_cases hend : memSize ≤ s.fPos.toNat
  · have hnone : fitting s.fPos.toNat data = [] := by
      rw [fitting, Nat.sub_eq_zero_of_le hend, List.take_zero]
    refine ⟨⟨s.share.countWrite, s.fPos⟩, ?_, ?_, ?_⟩
    · simp [step, write_of_ge hend, storedPosition, hnone]
    · simp [hnone, Share.countWrite]
    · simp [hnone]
  · have hclamp := clampCount_eq_min hsize s.fPos.toNat
    have hcells : ((List.range' 0 (clampCount s.fPos.toNat (BitVec.ofNat 64 data.length))).map
        fun k => (copyFromUserByte data[k]?).1) = fitting s.fPos.toNat data := by
      rw [hclamp, map_copyFromUserByte (min_le_left _ _), fitting_eq_take]
    refine ⟨_, by rw [step, write_of_lt (not_le.mp hend), hclamp, ← hlen], ?_, ?_⟩
    · dsimp only
      rw [writeLoop_mem, Nat.cast_zero, add_zero, hlen, ← hclamp, hcells]
    · have hnonneg : (0 : ℤ) ≤ (fitting s.fPos.toNat data).length := by omega
      simp only [storedPosition, hnonneg, and_self, if_true]
      exact toNat_advance hpos (by omega)

/-- A piece of the data that fits leaves the rest to fit behind it. -/
theorem fitting_append (p : ℕ) (xs ys : List UInt8) :
    fitting p (xs ++ ys) = fitting p xs ++ fitting (p + (fitting p xs).length) ys := by
  have hroom : memSize - (p + (fitting p xs).length) = memSize - p - xs.length := by
    rw [length_fitting]
    omega
  rw [fitting, List.take_append, fitting, fitting, ← hroom, fitting]

/-- Consecutive writes leave what one write of all their data leaves. -/
theorem exec_writes {s : Session} {chunks : List (List UInt8)} (hpos : s.fPos.toNat ≤ memSize)
    (hsizes : ∀ data ∈ chunks, data.length ≤ MAX_RW_COUNT) :
    ∃ t replies, exec Session.step s (chunks.map SessionOp.write) = some (t, replies) ∧
      t.share.mem = splice s.share.mem s.fPos.toNat (fitting s.fPos.toNat chunks.flatten) ∧
      t.fPos.toNat = s.fPos.toNat + (fitting s.fPos.toNat chunks.flatten).length ∧
      (replies.map Reply.ret).sum = (fitting s.fPos.toNat chunks.flatten).length := by
  induction chunks generalizing s with
  | nil => exact ⟨s, [], rfl, by simp [fitting], by simp [fitting], by simp [fitting]⟩
  | cons data chunks ih =>
    obtain ⟨u, hstep, hmem, hnext⟩ := Session.step_write hpos (hsizes data List.mem_cons_self)
    have hle : (fitting s.fPos.toNat data).length ≤ memSize - s.fPos.toNat :=
      List.length_take_le _ _
    obtain ⟨t, replies, hexec, hrest, hlast, hsum⟩ := ih (s := u) (by omega)
      fun xs hxs => hsizes xs (List.mem_cons_of_mem _ hxs)
    rw [hnext] at hrest hlast hsum
    refine ⟨t, _, exec_cons_eq_some.mpr ⟨u, _, replies, hstep, hexec, rfl⟩, ?_, ?_, ?_⟩
    · rw [hrest, hmem, List.flatten_cons, fitting_append, splice_append, Nat.cast_add]
    · rw [hlast, List.flatten_cons, fitting_append, List.length_append]
      omega
    · rw [List.flatten_cons, fitting_append, List.length_append, List.map_append, List.sum_append,
        hsum]
      simp

/-- Before the end a read that meets no fault delivers the clamped count. -/
theorem read_of_writable (mem : Mem) (cnt : BitVec 64) (writable : ℕ → Bool) {loff : BitVec 64}
    (h : loff.toNat < memSize) (hwritable : ∀ i < clampCount loff.toNat cnt, writable i = true) :
    Mutex.read mem cnt writable loff =
      ⟨clampCount loff.toNat cnt, loff + BitVec.ofNat 64 (clampCount loff.toNat cnt),
        slice mem loff.toNat (clampCount loff.toNat cnt),
        indices loff.toNat (clampCount loff.toNat cnt)⟩ := by
  have hcopy : readCopy mem writable loff.toNat (clampCount loff.toNat cnt) =
      (slice mem loff.toNat (clampCount loff.toNat cnt), (clampCount loff.toNat cnt : ℤ)) := by
    simp [readCopy, copyToUser_of_writable (by simpa using hwritable :
      ∀ i < (slice mem loff.toNat (clampCount loff.toNat cnt)).length, writable i = true)]
  have hcount : (clampCount loff.toNat cnt : ℤ) ≠ -EFAULT := by
    unfold EFAULT
    omega
  unfold Mutex.read
  dsimp only
  rw [if_neg (not_le.mpr h), hcopy]
  simp only [hcount, if_false]

/-- A read of an admitted size delivers the next bytes that are left, and both its result
and the position count them. -/
theorem Session.step_read {s : Session} {size : ℕ} (hpos : s.fPos.toNat ≤ memSize)
    (hsize : size ≤ MAX_RW_COUNT) :
    ∃ t, s.step (.read size) =
        some (t, [Reply.ofBytes ((unread s.share.mem s.fPos.toNat).take size)]) ∧
      t.share = s.share ∧ t.fPos.toNat ≤ memSize ∧
      unread s.share.mem t.fPos.toNat = (unread s.share.mem s.fPos.toNat).drop size := by
  by_cases hend : memSize ≤ s.fPos.toNat
  · have hnone : unread s.share.mem s.fPos.toNat = [] := by
      rw [unread, Nat.sub_eq_zero_of_le hend, slice_zero]
    refine ⟨s, ?_, rfl, hpos, ?_⟩
    · simp [step, read_of_ge hend, storedPosition, hnone, Reply.ofBytes]
    · simp [hnone]
  · have hclamp := clampCount_eq_min hsize s.fPos.toNat
    have hread := read_of_writable s.share.mem (BitVec.ofNat 64 size)
      (fun i => decide (i < size)) (not_le.mp hend) (fun i hi => decide_eq_true (by omega))
    have htake : (unread s.share.mem s.fPos.toNat).take size =
        slice s.share.mem s.fPos.toNat (min size (memSize - s.fPos.toNat)) := slice_take _ _ _ _
    have hnonneg : (0 : ℤ) ≤ (min size (memSize - s.fPos.toNat) : ℕ) := by omega
    have hmove := toNat_advance hpos (min_le_right size (memSize - s.fPos.toNat))
    refine ⟨⟨s.share, s.fPos + BitVec.ofNat 64 (min size (memSize - s.fPos.toNat))⟩, ?_, rfl, ?_,
      ?_⟩
    · simp only [step, hread, hclamp, htake, slice_length, storedPosition, hnonneg, and_self,
        if_true, Reply.ofBytes]
    · dsimp only
      omega
    · simp only [hmove, unread, slice_drop, Nat.cast_add]
      rcases le_total size (memSize - s.fPos.toNat) with hle | hge
      · rw [min_eq_left hle, Nat.sub_add_eq]
      · have hgone : memSize - (s.fPos.toNat + (memSize - s.fPos.toNat)) = 0 := by omega
        rw [min_eq_right hge, hgone, Nat.sub_eq_zero_of_le hge, slice_zero, slice_zero]

/-- Consecutive reads deliver what is left in pieces. -/
theorem exec_reads {s : Session} {sizes : List ℕ} (hpos : s.fPos.toNat ≤ memSize)
    (hsizes : ∀ n ∈ sizes, n ≤ MAX_RW_COUNT) :
    ∃ t, exec Session.step s (sizes.map SessionOp.read) =
        some (t, (sizes.splitLengths (unread s.share.mem s.fPos.toNat)).map
          Reply.ofBytes) ∧
      t.share = s.share := by
  induction sizes generalizing s with
  | nil => exact ⟨s, rfl, rfl⟩
  | cons size sizes ih =>
    obtain ⟨u, hstep, hshare, hle, hleft⟩ := Session.step_read hpos (hsizes size List.mem_cons_self)
    obtain ⟨t, hexec, hsame⟩ := ih hle fun n hn => hsizes n (List.mem_cons_of_mem _ hn)
    rw [hshare, hleft] at hexec
    refine ⟨t, exec_cons_eq_some.mpr ⟨u, _, _, hstep, hexec, ?_⟩, hsame.trans hshare⟩
    rw [List.splitLengths_cons, List.map_cons, List.singleton_append]

/-- The bytes of such replies. -/
theorem map_out_ofBytes (pieces : List (List UInt8)) :
    (pieces.map Reply.ofBytes).map Reply.out = pieces := by
  rw [List.map_map]
  exact List.map_id _

/-- Moving a file to a position within the device. -/
theorem Session.step_seek (s : Session) {pos : BitVec 64} (hpos : pos.toNat ≤ memSize) :
    s.step (.llseek pos 0) = some (⟨s.share, pos⟩, [⟨pos.toNat, []⟩]) := by
  have hin := inDevice_iff.mpr hpos
  have hseek : llseek s.fPos pos 0 = (pos.toInt, pos) := by
    unfold llseek
    rw [show seekTarget s.fPos pos 0 = some pos from rfl]
    dsimp only
    rw [if_neg (by have hlo := hin.1; have hhi := hin.2; omega)]
  rw [step, hseek, toInt_eq_toNat_of_le hpos]

/-- **Write and read round trip.** From every position within the device, whatever the
memory and `writecount` are: the data arrives cut off at the end of the device and nothing
else changes, however it was cut into writes, and the results sum to what arrived. Back at
the start, the reads deliver the rest of the memory, and return 0 only and always once
they have. -/
theorem write_read_round_trip {s : Session} {chunks : List (List UInt8)} {sizes : List ℕ}
    (hpos : s.fPos.toNat ≤ memSize) (hchunks : ∀ data ∈ chunks, data.length ≤ MAX_RW_COUNT)
    (hsizes : ∀ n ∈ sizes, 0 < n ∧ n ≤ MAX_RW_COUNT) :
    ∃ t wrote u replies,
      exec Session.step s (chunks.map SessionOp.write) = some (t, wrote) ∧
      t.share.mem = splice s.share.mem s.fPos.toNat
        (chunks.flatten.take (min chunks.flatten.length (memSize - s.fPos.toNat))) ∧
      t.fPos.toNat = s.fPos.toNat + min chunks.flatten.length (memSize - s.fPos.toNat) ∧
      (wrote.map Reply.ret).sum = min chunks.flatten.length (memSize - s.fPos.toNat) ∧
      exec Session.step t (.llseek s.fPos 0 :: sizes.map SessionOp.read) =
        some (u, ⟨s.fPos.toNat, []⟩ :: replies) ∧ u.share = t.share ∧
      (replies.map Reply.out).flatten =
        (slice t.share.mem s.fPos.toNat (memSize - s.fPos.toNat)).take sizes.sum ∧
      (∀ r ∈ replies, r.ret = r.out.length) ∧
      ∀ before r after, replies = before ++ r :: after → (r.ret = 0 ↔
        (before.map Reply.out).flatten =
          slice t.share.mem s.fPos.toNat (memSize - s.fPos.toNat)) := by
  obtain ⟨t, wrote, hwrite, hmem, hlast, hsum⟩ := exec_writes hpos hchunks
  obtain ⟨u, hread, hshare⟩ := exec_reads (s := ⟨t.share, s.fPos⟩) hpos fun n hn => (hsizes n hn).2
  rw [length_fitting] at hlast hsum
  rw [fitting_eq_take] at hmem
  refine ⟨t, wrote, u, (sizes.splitLengths (unread t.share.mem s.fPos.toNat)).map Reply.ofBytes,
    hwrite, hmem, hlast, hsum, exec_cons_eq_some.mpr ⟨_, _, _, t.step_seek hpos, hread, rfl⟩,
    hshare, ?_, ?_, ?_⟩
  · rw [map_out_ofBytes]
    exact flatten_splitLengths _ _
  · intro r hr
    obtain ⟨out, _, rfl⟩ := List.mem_map.mp hr
    rfl
  · intro before r after hsplit
    obtain ⟨pieces, tail, hpieces, rfl, htail⟩ := List.map_eq_append_iff.mp hsplit
    obtain ⟨piece, pieces', rfl, rfl, rfl⟩ := List.map_eq_cons_iff.mp htail
    have hnil := eq_nil_iff_of_splitLengths (fun n hn => (hsizes n hn).1) hpieces
    rw [map_out_ofBytes, Reply.ofBytes, Int.natCast_eq_zero, List.length_eq_zero_iff, hnil]
    rfl

/-- Five bytes are written in two pieces at position 126 and read back one at a time. -/
theorem write_read_round_trip_run :
    ∃ t wrote u replies,
      exec Session.step ⟨⟨fun _ => 0, -3⟩, 126⟩ ([[7], [8, 9, 7, 8]].map SessionOp.write) =
        some (t, wrote) ∧
      (wrote.map Reply.ret).sum = 2 ∧
      exec Session.step t (.llseek 126 0 :: [1, 1, 1].map SessionOp.read) =
        some (u, ⟨126, []⟩ :: replies) ∧
      (replies.map Reply.out).flatten = [7, 8] := by
  obtain ⟨t, wrote, u, replies, hwrite, hmem, _, hsum, hread, _, hout, _⟩ :=
    write_read_round_trip (s := ⟨⟨fun _ => 0, -3⟩, 126⟩) (by decide)
      (show ∀ data ∈ [[7], [8, 9, 7, 8]], data.length ≤ MAX_RW_COUNT by decide)
      (show ∀ n ∈ [1, 1, 1], 0 < n ∧ n ≤ MAX_RW_COUNT by decide)
  refine ⟨t, wrote, u, replies, hwrite, hsum, hread, ?_⟩
  rw [hout, hmem]
  decide

end LinuxDevNote.Mutex
