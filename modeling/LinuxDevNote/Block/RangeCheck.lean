import LinuxDevNote.Block.FlatArray

/-!
# The range check of the block device

Before it serves a request `simp_blkdev_do_request` compares the end of the request
with the size of the array, in 64 bits that wrap. This file says for which positions
and lengths the comparison agrees with the capacity announced to the block layer,
and what becomes of a request that fails it.
-/

namespace LinuxDevNote.Block

open Memory

/-- The sectors announced by `set_capacity` in `simp_blkdev_init`. -/
def capacity : ℕ := simpBlkdevBytes >>> 9

/-- The range check on the values of `blk_rq_pos` and `blk_rq_bytes`. -/
def rangeCheck (pos : BitVec 64) (bytes : BitVec 32) : Bool :=
  BitVec.ofNat 64 simpBlkdevBytes < (pos <<< sectorSizeShift) + bytes.setWidth 64

/-- The end of a request in bytes, exactly. -/
def endByte (pos : BitVec 64) (bytes : BitVec 32) : ℕ := 512 * pos.toNat + bytes.toNat

/-- The request function checks the position and length of a request. -/
theorem Request.outOfRange_eq (req : Request) : req.outOfRange = rangeCheck req.pos req.bytes := rfl

/-- The check compares the end of the request modulo `2 ^ 64`. -/
theorem rangeCheck_iff (pos : BitVec 64) (bytes : BitVec 32) :
    rangeCheck pos bytes = true ↔ simpBlkdevBytes < endByte pos bytes % 2 ^ 64 := by
  have hshift : (pos <<< sectorSizeShift).toNat = 512 * pos.toNat % 2 ^ 64 := by
    rw [sectorSizeShift, BitVec.toNat_shiftLeft, Nat.shiftLeft_eq]
    omega
  have hbytes : (bytes.setWidth 64).toNat = bytes.toNat := by
    have hlt := bytes.isLt
    rw [BitVec.toNat_setWidth]
    omega
  rw [rangeCheck, decide_eq_true_iff, BitVec.lt_def, BitVec.toNat_add, hshift, hbytes,
    Nat.mod_add_mod, BitVec.toNat_ofNat, endByte]
  unfold simpBlkdevBytes
  omega

/-- A request of whole sectors is beyond the capacity exactly when its end is beyond
the array. -/
theorem capacity_lt_iff {pos : BitVec 64} {bytes : BitVec 32} (hsectors : 512 ∣ bytes.toNat) :
    capacity < pos.toNat + bytes.toNat / 512 ↔ simpBlkdevBytes < endByte pos bytes := by
  have hcapacity : 512 * capacity = simpBlkdevBytes := by decide
  obtain ⟨k, hk⟩ := hsectors
  rw [endByte, hk, ← hcapacity]
  omega

/-- The check on a position and a length is right: it fails the requests that reach
beyond the capacity, and those it lets through are served from their own sectors,
within the array. -/
structure RangeExact (pos : BitVec 64) (bytes : BitVec 32) : Prop where
  /-- A request is bad when its exact end is beyond the announced capacity. -/
  bad_iff : rangeCheck pos bytes = true ↔ capacity < pos.toNat + bytes.toNat / 512
  /-- A request that is not bad is served, and exactly its slice is accessed. -/
  served : ∀ (st : Progress) (req : Request), req.pos = pos → req.total = bytes.toNat →
    rangeCheck pos bytes = false → Serves st req (serveRequest st req)
  /-- The slice of a request that is not bad lies within `simp_blkdev_data`. -/
  inside : rangeCheck pos bytes = false →
    ∀ j ∈ indices (512 * pos.toNat) bytes.toNat, Within simpBlkdevBytes j

/-- **The range check.** For every position and every length of whole sectors the
check is right exactly when the end of the request does not wrap in 64 bits, or is
beyond the array even so. -/
theorem range_exact_iff {pos : BitVec 64} {bytes : BitVec 32} (hsectors : 512 ∣ bytes.toNat) :
    RangeExact pos bytes ↔
      endByte pos bytes < 2 ^ 64 ∨ simpBlkdevBytes < endByte pos bytes % 2 ^ 64 := by
  constructor
  · intro h
    have hiff := (rangeCheck_iff pos bytes).symm.trans (h.bad_iff.trans (capacity_lt_iff hsectors))
    unfold simpBlkdevBytes at hiff ⊢
    omega
  · intro h
    have hbad : rangeCheck pos bytes = true ↔ simpBlkdevBytes < endByte pos bytes := by
      rw [rangeCheck_iff]
      unfold simpBlkdevBytes at h ⊢
      omega
    have hinside : rangeCheck pos bytes = false → endByte pos bytes ≤ simpBlkdevBytes := by
      intro hgood
      by_contra hmore
      rw [hbad.mpr (not_le.mp hmore)] at hgood
      cases hgood
    refine ⟨hbad.trans (capacity_lt_iff hsectors).symm, fun st req hpos htotal hgood => ?_,
      fun hgood j hj => ?_⟩
    · refine serveRequest_serves st ?_
      have hle := hinside hgood
      rwa [endByte, ← hpos, ← htotal] at hle
    · have hle := hinside hgood
      rw [mem_indices] at hj
      unfold endByte at hle
      unfold Within
      omega

/-- The last sector of the disk is checked and served rightly. -/
theorem range_exact_iff_run : RangeExact 32767 512 :=
  (range_exact_iff (by decide)).mpr (Or.inl (by decide))

/-- A request of one sector at sector `2 ^ 55` passes the check. -/
theorem wrapped_request_served :
    ¬ ∀ (pos : BitVec 64) (bytes : BitVec 32), 512 ∣ bytes.toNat → RangeExact pos bytes := by
  intro h
  have hexact := h (BitVec.ofNat 64 (2 ^ 55)) 512 (by decide)
  exact absurd (hexact.bad_iff.mpr (by decide)) (by decide)

section BadRequest

/-- A request is refused: every segment is completed once, in order, with an error,
and the array is not accessed. -/
def Refuses (st : Progress) (req : Request) (st' : Progress) : Prop :=
  ∃ done, st'.completions = st.completions ++ done ∧
    done.map (fun c => c.segment.id) = req.segments.map Segment.id ∧ (∀ c ∈ done, c.status < 0) ∧
      st'.data = st.data ∧ st'.touched = st.touched

/-- A request that fails the range check has its current segment completed with
success, and the array is not accessed. -/
theorem serveRequest_of_outOfRange (st : Progress) {req : Request} (h : req.outOfRange = true) :
    serveRequest st req = { st with completions := st.completions ++ [⟨req.bio, 0⟩] } := by
  rw [serveRequest, if_pos h]

/-- A segment completed with success is not refused. -/
theorem not_refuses_of_success {st : Progress} {req : Request} {seg : Segment} :
    ¬ Refuses st req { st with completions := st.completions ++ [⟨seg, 0⟩] } := by
  rintro ⟨done, hcompletions, -, herror, -, -⟩
  rw [List.append_cancel_left_eq] at hcompletions
  have hstatus := herror ⟨seg, 0⟩ (hcompletions ▸ List.mem_cons_self)
  exact absurd hstatus (lt_irrefl 0)

/-- **Out-of-range requests.** No request that fails the range check is refused: its
submitter is told that the first segment succeeded, and of any other segment
nothing. -/
theorem bad_request_not_refused (st : Progress) {req : Request} (h : req.outOfRange = true) :
    ¬ Refuses st req (serveRequest st req) := by
  rw [serveRequest_of_outOfRange st h]
  exact not_refuses_of_success

/-- A request of two segments behind the last sector. -/
theorem bad_request_not_refused_run :
    ¬ Refuses ⟨fun _ => 0, [], []⟩ ⟨32768, .read, sectorOf 0 7, [sectorOf 1 8]⟩
      (serveRequest ⟨fun _ => 0, [], []⟩ ⟨32768, .read, sectorOf 0 7, [sectorOf 1 8]⟩) :=
  bad_request_not_refused _ (by
    simp [Request.outOfRange, Request.address, Request.bytes, Request.total, Request.segments,
      simpBlkdevBytes, sectorSizeShift])

/-- Its first segment is completed with success. -/
theorem bad_request_completed_with_success :
    ¬ ∀ (st : Progress) (req : Request), req.outOfRange = true →
      Refuses st req (serveRequest st req) := by
  intro h
  have hbad : Request.outOfRange ⟨32768, .read, sectorOf 0 7, [sectorOf 1 8]⟩ = true := by
    simp [Request.outOfRange, Request.address, Request.bytes, Request.total, Request.segments,
      simpBlkdevBytes, sectorSizeShift]
  have hrefused := h ⟨fun _ => 0, [], []⟩ _ hbad
  rw [serveRequest_of_outOfRange _ hbad] at hrefused
  exact not_refuses_of_success hrefused

end BadRequest

end LinuxDevNote.Block
