import LinuxDevNote.Library.Memory

/-!
# The request function of the block device

`block_device.c` keeps a 16 MiB disk in one array and serves its request queue in
`simp_blkdev_do_request`. The block layer below it is modelled by what the driver
sees of it: a request with a current segment, the segments after it, and a start
sector that moves on as segments are completed. Both loops of the driver follow
the source; that Lean accepts them is the proof that they terminate.
-/

namespace LinuxDevNote.Block

open Memory

/-- `SIMP_BLKDEV_BYTES`. -/
def simpBlkdevBytes : ℕ := 16 * 1024 * 1024

/-- `SECTOR_SIZE_SHIFT`. -/
def sectorSizeShift : ℕ := 9

/-- `simp_blkdev_data`, indexed from its start. -/
abbrev Data := ℤ → UInt8

/-- One segment of a request: a buffer whose length is a positive multiple of 512. -/
structure Segment where
  /-- Which buffer this is. -/
  id : ℕ
  /-- `bio_data`: the bytes of the buffer. -/
  bytes : List UInt8
  /-- A segment is not empty. -/
  nonempty : 0 < bytes.length
  /-- A segment consists of whole sectors. -/
  sectors : 512 ∣ bytes.length

/-- `rq_data_dir`. -/
inductive Dir
  | read
  | write
  deriving DecidableEq

/-- A request as the driver sees it: it always has a current segment. -/
structure Request where
  /-- `blk_rq_pos`: the sector of the current segment. -/
  pos : BitVec 64
  /-- `rq_data_dir`. -/
  dir : Dir
  /-- `req->bio`: the current segment. -/
  bio : Segment
  /-- The segments after the current one. -/
  rest : List Segment

/-- All segments still to be completed. -/
def Request.segments (req : Request) : List Segment := req.bio :: req.rest

/-- The bytes of all remaining segments, exactly. -/
def Request.total (req : Request) : ℕ := (req.segments.map fun seg => seg.bytes.length).sum

/-- `blk_rq_cur_bytes`. -/
def Request.curBytes (req : Request) : ℕ := req.bio.bytes.length

/-- `blk_rq_bytes`, an `unsigned int`. -/
def Request.bytes (req : Request) : BitVec 32 := BitVec.ofNat 32 req.total

/-- `blk_rq_pos(req) << SECTOR_SIZE_SHIFT`, in the 64 bits of `sector_t`. -/
def Request.address (req : Request) : BitVec 64 := req.pos <<< sectorSizeShift

/-- `__blk_end_request_cur`: drop the current segment and move the position past
it. The result is the request while segments remain, and `none` once none does. -/
def Request.endCur (req : Request) : Option Request :=
  match req.rest with
  | [] => none
  | next :: rest => some ⟨req.pos + BitVec.ofNat 64 (req.curBytes / 512), req.dir, next, rest⟩

/-- A segment handed back to its submitter, with the status it was given. -/
structure Completion where
  /-- The segment, with the bytes its buffer then holds. -/
  segment : Segment
  /-- The `err` argument of `__blk_end_request_cur`. -/
  status : ℤ

/-- The device and what has been observed of it so far. -/
structure Progress where
  /-- `simp_blkdev_data`. -/
  data : Data
  /-- The completed segments, in order. -/
  completions : List Completion
  /-- The indices of `simp_blkdev_data` accessed, in order. -/
  touched : List ℤ

/-- The current segment after `memcpy` filled it from the device. -/
def Request.filled (data : Data) (req : Request) : Segment where
  id := req.bio.id
  bytes := slice data req.address.toNat req.curBytes
  nonempty := by simpa [curBytes] using req.bio.nonempty
  sectors := by simpa [curBytes] using req.bio.sectors

/-- Completing a segment makes the request shorter. -/
theorem Request.rest_length_of_endCur {req next : Request} (h : req.endCur = some next) :
    next.rest.length < req.rest.length := by
  obtain ⟨pos, dir, bio, rest⟩ := req
  cases rest with
  | nil => simp [endCur] at h
  | cons seg rest =>
    simp only [endCur, Option.some.injEq] at h
    simp [← h]

/-- The `do ... while` loop of `case READ`. -/
def readLoop (st : Progress) (req : Request) : Progress :=
  let st : Progress :=
    { st with
      completions := st.completions ++ [⟨req.filled st.data, 0⟩]
      touched := st.touched ++ indices req.address.toNat req.curBytes }
  match _h : req.endCur with
  | none => st
  | some next => readLoop st next
termination_by req.rest.length
decreasing_by exact Request.rest_length_of_endCur _h

/-- The `do ... while` loop of `case WRITE`. -/
def writeLoop (st : Progress) (req : Request) : Progress :=
  let st : Progress :=
    { data := splice st.data req.address.toNat req.bio.bytes
      completions := st.completions ++ [⟨req.bio, 0⟩]
      touched := st.touched ++ indices req.address.toNat req.curBytes }
  match _h : req.endCur with
  | none => st
  | some next => writeLoop st next
termination_by req.rest.length
decreasing_by exact Request.rest_length_of_endCur _h

/-- The range check of `simp_blkdev_do_request`, in 64-bit unsigned arithmetic. -/
def Request.outOfRange (req : Request) : Bool :=
  BitVec.ofNat 64 simpBlkdevBytes < req.address + req.bytes.setWidth 64

/-- One turn of the outer loop. A request that fails the range check has its
current segment completed, with status zero, and is left there. -/
def serveRequest (st : Progress) (req : Request) : Progress :=
  if req.outOfRange then { st with completions := st.completions ++ [⟨req.bio, 0⟩] }
  else
    match req.dir with
    | .read => readLoop st req
    | .write => writeLoop st req

/-- `simp_blkdev_do_request`: fetch and serve until the queue is empty. -/
def simpBlkdevDoRequest (st : Progress) : List Request → Progress
  | [] => st
  | req :: queue => simpBlkdevDoRequest (serveRequest st req) queue

/-- A request is within the device when its exact byte range is. -/
def Request.InRange (req : Request) : Prop := 512 * req.pos.toNat + req.total ≤ simpBlkdevBytes

/-- The bytes left after the current segment. -/
theorem Request.total_eq (req : Request) :
    req.total = req.curBytes + (req.rest.map fun seg => seg.bytes.length).sum := by
  simp [total, segments, curBytes]

/-- Within the device the address does not wrap. -/
theorem Request.InRange.address_eq {req : Request} (h : req.InRange) :
    req.address.toNat = 512 * req.pos.toNat := by
  unfold InRange simpBlkdevBytes at h
  have hsmall : req.pos.toNat * 2 ^ 9 < 2 ^ 64 := by omega
  rw [address, sectorSizeShift, BitVec.toNat_shiftLeft, Nat.shiftLeft_eq,
    Nat.mod_eq_of_lt hsmall]
  omega

/-- A request within the device passes the range check. -/
theorem Request.InRange.not_outOfRange {req : Request} (h : req.InRange) :
    req.outOfRange = false := by
  have haddr := h.address_eq
  unfold InRange simpBlkdevBytes at h
  have hbytes : (req.bytes.setWidth 64).toNat = req.total := by
    rw [bytes, BitVec.toNat_setWidth, BitVec.toNat_ofNat]
    omega
  have hsum : (req.address + req.bytes.setWidth 64).toNat = 512 * req.pos.toNat + req.total := by
    rw [BitVec.toNat_add, haddr, hbytes]
    omega
  rw [outOfRange, decide_eq_false_iff_not, BitVec.lt_def, hsum, BitVec.toNat_ofNat]
  unfold simpBlkdevBytes
  omega

/-- What remains of a request within the device is within it, and starts where the
completed segment ended. -/
theorem Request.InRange.next {pos : BitVec 64} {dir : Dir} {bio seg : Segment}
    {rest : List Segment} (h : Request.InRange ⟨pos, dir, bio, seg :: rest⟩) :
    Request.InRange ⟨pos + BitVec.ofNat 64 (bio.bytes.length / 512), dir, seg, rest⟩ ∧
      (512 * (pos + BitVec.ofNat 64 (bio.bytes.length / 512)).toNat : ℤ) =
        512 * pos.toNat + bio.bytes.length := by
  obtain ⟨k, hk⟩ := bio.sectors
  simp only [InRange, total_eq, curBytes, List.map_cons, List.sum_cons, simpBlkdevBytes] at h ⊢
  have hpos : (pos + BitVec.ofNat 64 (bio.bytes.length / 512)).toNat =
      pos.toNat + bio.bytes.length / 512 := by
    rw [BitVec.toNat_add, BitVec.toNat_ofNat]
    omega
  rw [hpos]
  omega

end LinuxDevNote.Block
