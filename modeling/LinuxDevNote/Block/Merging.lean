import Mathlib.Algebra.BigOperators.Ring.List
import LinuxDevNote.Block.RangeCheck
import LinuxDevNote.Block.Reordering

/-!
# Merging requests

The block layer joins requests that continue each other. Served as one, two such requests do
what they do one after the other, as long as both are within the device. A request that leaves
the device takes the one it is merged with down: of the two only one segment comes back.
-/

namespace LinuxDevNote.Block

open Memory

/-- A request with the segments of the one that follows it. -/
def Request.merge (a b : Request) : Request := ⟨a.pos, a.dir, a.bio, a.rest ++ b.segments⟩

/-- A request starts where another one ends, and goes the same way. -/
structure Follows (a b : Request) : Prop where
  /-- Both read or both write. -/
  dir : b.dir = a.dir
  /-- The sector after the last one. -/
  pos : b.pos = a.pos + BitVec.ofNat 64 (a.total / 512)

/-- The bytes of both. -/
theorem total_merge (a b : Request) : (a.merge b).total = a.total + b.total := by
  simp [Request.total, Request.segments, Request.merge, add_assoc]

/-- The sector after a request, and after what remains of it. -/
theorem pos_add_total (pos : BitVec 64) (dir : Dir) (bio seg : Segment) (rest : List Segment) :
    pos + BitVec.ofNat 64 (bio.bytes.length / 512) + BitVec.ofNat 64 (Request.total
        ⟨pos + BitVec.ofNat 64 (bio.bytes.length / 512), dir, seg, rest⟩ / 512) =
      pos + BitVec.ofNat 64 (Request.total ⟨pos, dir, bio, seg :: rest⟩ / 512) := by
  obtain ⟨k, hk⟩ := bio.sectors
  rw [total_more pos (pos + BitVec.ofNat 64 (bio.bytes.length / 512)), hk,
    Nat.mul_add_div (by decide : 512 > 0), Nat.mul_div_cancel_left _ (by decide : 0 < 512),
    BitVec.ofNat_add, BitVec.add_assoc]

/-- The read loop runs over the segments of both requests. -/
theorem readLoop_merge (rest : List Segment) (st : Progress) (pos : BitVec 64) (dir : Dir)
    (bio seg : Segment) (rest' : List Segment) :
    readLoop st ⟨pos, dir, bio, rest ++ seg :: rest'⟩ =
      readLoop (readLoop st ⟨pos, dir, bio, rest⟩)
        ⟨pos + BitVec.ofNat 64 (Request.total ⟨pos, dir, bio, rest⟩ / 512), dir, seg, rest'⟩ := by
  induction rest generalizing st pos bio with
  | nil =>
    rw [List.nil_append, readLoop_more, readLoop_last]
    simp only [Request.total, Request.segments, List.map_cons, List.map_nil, List.sum_cons,
      List.sum_nil, add_zero]
    rfl
  | cons next rest ih =>
    rw [List.cons_append, readLoop_more, readLoop_more, ih, pos_add_total]
    rfl

/-- The write loop runs over the segments of both requests. -/
theorem writeLoop_merge (rest : List Segment) (st : Progress) (pos : BitVec 64) (dir : Dir)
    (bio seg : Segment) (rest' : List Segment) :
    writeLoop st ⟨pos, dir, bio, rest ++ seg :: rest'⟩ =
      writeLoop (writeLoop st ⟨pos, dir, bio, rest⟩)
        ⟨pos + BitVec.ofNat 64 (Request.total ⟨pos, dir, bio, rest⟩ / 512), dir, seg, rest'⟩ := by
  induction rest generalizing st pos bio with
  | nil =>
    rw [List.nil_append, writeLoop_more, writeLoop_last]
    simp only [Request.total, Request.segments, List.map_cons, List.map_nil, List.sum_cons,
      List.sum_nil, add_zero]
    rfl
  | cons next rest ih =>
    rw [List.cons_append, writeLoop_more, writeLoop_more, ih, pos_add_total]
    rfl

/-- The number of segments that come back from a request. -/
def Request.returned (req : Request) : ℕ := if req.outOfRange then 1 else req.segments.length

/-- The read loop returns all segments. -/
theorem readLoop_length (rest : List Segment) (st : Progress) (pos : BitVec 64) (dir : Dir)
    (bio : Segment) :
    (readLoop st ⟨pos, dir, bio, rest⟩).completions.length =
      st.completions.length + (rest.length + 1) := by
  induction rest generalizing st pos bio with
  | nil =>
    rw [readLoop_last]
    simp
  | cons seg rest ih =>
    rw [readLoop_more, ih]
    simp only [List.length_append, List.length_cons, List.length_nil]
    omega

/-- The write loop returns all segments. -/
theorem writeLoop_length (rest : List Segment) (st : Progress) (pos : BitVec 64) (dir : Dir)
    (bio : Segment) :
    (writeLoop st ⟨pos, dir, bio, rest⟩).completions.length =
      st.completions.length + (rest.length + 1) := by
  induction rest generalizing st pos bio with
  | nil =>
    rw [writeLoop_last]
    simp
  | cons seg rest ih =>
    rw [writeLoop_more, ih]
    simp only [List.length_append, List.length_cons, List.length_nil]
    omega

/-- How many segments come back does not depend on the disk. -/
theorem simpBlkdevDoRequest_length (st : Progress) (queue : List Request) :
    (simpBlkdevDoRequest st queue).completions.length =
      st.completions.length + (queue.map Request.returned).sum := by
  induction queue generalizing st with
  | nil => rfl
  | cons req queue ih =>
    have hserve : (serveRequest st req).completions.length =
        st.completions.length + req.returned := by
      unfold serveRequest Request.returned
      split
      · simp
      · obtain ⟨pos, dir, bio, rest⟩ := req
        cases dir with
        | read => exact readLoop_length rest st pos .read bio
        | write => exact writeLoop_length rest st pos .write bio
    rw [simpBlkdevDoRequest, ih, hserve, List.map_cons, List.sum_cons, Nat.add_assoc]

/-- A request consists of whole sectors. -/
theorem dvd_total (req : Request) : 512 ∣ req.total := by
  refine List.dvd_sum fun n hn => ?_
  obtain ⟨seg, _, rfl⟩ := List.mem_map.mp hn
  exact seg.sectors

/-- The sector after a request within the device, exactly. -/
theorem Follows.toNat_pos {a b : Request} (h : Follows a b) (ha : a.InRange) :
    512 * b.pos.toNat = 512 * a.pos.toNat + a.total := by
  have hdvd := dvd_total a
  unfold Request.InRange simpBlkdevBytes at ha
  rw [h.pos, BitVec.toNat_add, BitVec.toNat_ofNat]
  omega

/-- Merged with one within the device, a request is within the device as it was alone. -/
theorem Follows.merge_inRange_iff {a b : Request} (h : Follows a b) (ha : a.InRange) :
    (a.merge b).InRange ↔ b.InRange := by
  have hpos := h.toNat_pos ha
  rw [Request.InRange, Request.InRange, total_merge]
  change 512 * a.pos.toNat + _ ≤ _ ↔ _
  omega

/-- A request that leaves the device from a sector of it fails the range check, when its size
fits an `unsigned int`. -/
theorem outOfRange_of_not_inRange {req : Request} (h : ¬ req.InRange)
    (hpos : 512 * req.pos.toNat ≤ simpBlkdevBytes) (hsize : req.total < 2 ^ 32) :
    req.outOfRange = true := by
  have hbytes : req.bytes.toNat = req.total := by
    rw [Request.bytes, BitVec.toNat_ofNat]
    exact Nat.mod_eq_of_lt hsize
  rw [Request.outOfRange_eq, rangeCheck_iff, endByte, hbytes]
  unfold Request.InRange simpBlkdevBytes at h
  unfold simpBlkdevBytes at hpos ⊢
  omega

/-- Within the device, two requests are served as one. -/
theorem serveRequest_merge (st : Progress) {a b : Request} (h : Follows a b) (ha : a.InRange)
    (hb : b.InRange) :
    serveRequest st (a.merge b) = serveRequest (serveRequest st a) b := by
  have hmerge := (h.merge_inRange_iff ha).mpr hb
  obtain ⟨pos, dir, bio, rest⟩ := a
  obtain ⟨pos', dir', seg, rest'⟩ := b
  obtain ⟨rfl, rfl⟩ : dir' = dir ∧ pos' = _ := ⟨h.dir, h.pos⟩
  rw [serveRequest, hmerge.not_outOfRange, serveRequest, hb.not_outOfRange, serveRequest,
    ha.not_outOfRange]
  cases dir' with
  | read => exact readLoop_merge rest st pos .read bio seg rest'
  | write => exact writeLoop_merge rest st pos .write bio seg rest'

/-- **Merging.** Anywhere in the queue, a request within the device and one that continues it can
be served as one exactly when the other one is within the device, too. -/
theorem merge_iff (st : Progress) (before after : List Request) {a b : Request} (ha : a.InRange)
    (h : Follows a b) (hsize : (a.merge b).total < 2 ^ 32) :
    simpBlkdevDoRequest st (before ++ a.merge b :: after) =
      simpBlkdevDoRequest st (before ++ a :: b :: after) ↔ b.InRange := by
  constructor
  · intro heq
    by_contra hb
    have hlength := congrArg (fun st => st.completions.length) heq
    have hpos := h.toNat_pos ha
    have htotal := total_merge a b
    have hbad : b.outOfRange = true := by
      refine outOfRange_of_not_inRange hb ?_ (by omega)
      unfold Request.InRange at ha
      omega
    have hbad' : (a.merge b).outOfRange = true := by
      refine outOfRange_of_not_inRange (mt (h.merge_inRange_iff ha).mp hb) ?_ hsize
      unfold Request.InRange at ha
      change 512 * a.pos.toNat ≤ _
      omega
    -- of the merged request one segment comes back, of the two at least two
    simp only [simpBlkdevDoRequest_length, List.map_append, List.map_cons, List.sum_append,
      List.sum_cons, Request.returned, hbad, hbad', ha.not_outOfRange, if_true, Request.segments,
      List.length_cons] at hlength
    simp at hlength
  · intro hb
    rw [simpBlkdevDoRequest_append, simpBlkdevDoRequest_append, simpBlkdevDoRequest,
      simpBlkdevDoRequest, simpBlkdevDoRequest, serveRequest_merge _ h ha hb]

/-- A write of sector 3 and one of sector 4 are merged. -/
theorem merge_iff_run :
    simpBlkdevDoRequest ⟨fun _ => 0, [], []⟩
        ([] ++ Request.merge ⟨3, .write, sectorOf 0 7, []⟩ ⟨4, .write, sectorOf 1 8, []⟩ :: []) =
      simpBlkdevDoRequest ⟨fun _ => 0, [], []⟩
        ([] ++ ⟨3, .write, sectorOf 0 7, []⟩ :: ⟨4, .write, sectorOf 1 8, []⟩ :: []) := by
  have htotal : ∀ pos id b, Request.total ⟨pos, .write, sectorOf id b, []⟩ = 512 := by
    simp [Request.total, Request.segments]
  have hfollows : Follows ⟨3, .write, sectorOf 0 7, []⟩ ⟨4, .write, sectorOf 1 8, []⟩ := by
    refine ⟨rfl, ?_⟩
    rw [htotal]
    decide
  refine (merge_iff _ _ _ ?_ hfollows ?_).mpr ?_
  · rw [Request.InRange, htotal]
    decide
  · rw [total_merge, htotal, htotal]
    decide
  · rw [Request.InRange, htotal]
    decide

end LinuxDevNote.Block
