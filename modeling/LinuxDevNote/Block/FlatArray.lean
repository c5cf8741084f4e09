import LinuxDevNote.Block.Driver

/-!
# The block device as a flat byte array

What the device is for: a request reads or writes one slice of a flat array, and
hands every segment back once. `FlatServe` states this for one request and
`FlatRun` for a queue, without sectors, shifts or positions that move. The
request function refines it for every queue of requests within the device.
-/

namespace LinuxDevNote.Block

open Memory

/-- The bytes of some segments, concatenated. -/
def contents (segments : List Segment) : List UInt8 := (segments.map Segment.bytes).flatten

/-- Serving one request on a flat array: each segment is completed once, in order,
with success and with its own length; a write replaces the slice at its sector by
the segments' bytes, and a read fills the segments with the slice and changes
nothing. -/
structure FlatServe (data : Data) (req : Request) (data' : Data) (done : List Completion) :
    Prop where
  /-- The completed segments are those of the request, in order. -/
  ids : done.map (fun c => c.segment.id) = req.segments.map Segment.id
  /-- Every buffer keeps its length. -/
  lengths : done.map (fun c => c.segment.bytes.length) =
    req.segments.map fun seg => seg.bytes.length
  /-- Every segment is completed with success. -/
  success : ∀ c ∈ done, c.status = 0
  /-- A write stores the concatenated segments and leaves their buffers alone. -/
  write : req.dir = .write → data' = splice data (512 * req.pos.toNat) (contents req.segments) ∧
    done.map Completion.segment = req.segments
  /-- A read delivers exactly the slice and leaves the device alone. -/
  read : req.dir = .read → data' = data ∧
    contents (done.map Completion.segment) = slice data (512 * req.pos.toNat) req.total

/-- Serving a queue one request after another. -/
inductive FlatRun : Data → List Request → Data → List Completion → Prop
  | nil (data : Data) : FlatRun data [] data []
  | cons {data data' data'' : Data} {req : Request} {queue : List Request}
      {done done' : List Completion} : FlatServe data req data' done →
      FlatRun data' queue data'' done' → FlatRun data (req :: queue) data'' (done ++ done')

/-- Over a whole queue every segment of every request is completed once, in order. -/
theorem FlatRun.ids {data data' : Data} {queue : List Request} {done : List Completion}
    (h : FlatRun data queue data' done) :
    done.map (fun c => c.segment.id) =
      queue.flatMap fun req => req.segments.map Segment.id := by
  induction h with
  | nil => rfl
  | cons hserve _ ih => rw [List.map_append, hserve.ids, ih, List.flatMap_cons]

/-- Over a whole queue every segment is completed with success. -/
theorem FlatRun.success {data data' : Data} {queue : List Request} {done : List Completion}
    (h : FlatRun data queue data' done) : ∀ c ∈ done, c.status = 0 := by
  induction h with
  | nil => simp
  | cons hserve _ ih =>
    intro c hc
    rcases List.mem_append.mp hc with hc | hc
    · exact hserve.success c hc
    · exact ih c hc

/-- The read loop on the last segment. -/
theorem readLoop_last (st : Progress) (pos : BitVec 64) (dir : Dir) (bio : Segment) :
    readLoop st ⟨pos, dir, bio, []⟩ =
      { st with
        completions := st.completions ++ [⟨Request.filled st.data ⟨pos, dir, bio, []⟩, 0⟩]
        touched := st.touched ++ indices (Request.address ⟨pos, dir, bio, []⟩).toNat
          bio.bytes.length } := by
  rw [readLoop]
  simp [Request.endCur, Request.curBytes]

/-- The read loop on a segment with others after it. -/
theorem readLoop_more (st : Progress) (pos : BitVec 64) (dir : Dir) (bio seg : Segment)
    (rest : List Segment) :
    readLoop st ⟨pos, dir, bio, seg :: rest⟩ =
      readLoop
        { st with
          completions :=
            st.completions ++ [⟨Request.filled st.data ⟨pos, dir, bio, seg :: rest⟩, 0⟩]
          touched := st.touched ++
            indices (Request.address ⟨pos, dir, bio, seg :: rest⟩).toNat bio.bytes.length }
        ⟨pos + BitVec.ofNat 64 (bio.bytes.length / 512), dir, seg, rest⟩ := by
  rw [readLoop]
  simp [Request.endCur, Request.curBytes]

/-- The write loop on the last segment. -/
theorem writeLoop_last (st : Progress) (pos : BitVec 64) (dir : Dir) (bio : Segment) :
    writeLoop st ⟨pos, dir, bio, []⟩ =
      { data := splice st.data (Request.address ⟨pos, dir, bio, []⟩).toNat bio.bytes
        completions := st.completions ++ [⟨bio, 0⟩]
        touched := st.touched ++ indices (Request.address ⟨pos, dir, bio, []⟩).toNat
          bio.bytes.length } := by
  rw [writeLoop]
  simp [Request.endCur, Request.curBytes]

/-- The write loop on a segment with others after it. -/
theorem writeLoop_more (st : Progress) (pos : BitVec 64) (dir : Dir) (bio seg : Segment)
    (rest : List Segment) :
    writeLoop st ⟨pos, dir, bio, seg :: rest⟩ =
      writeLoop
        { data := splice st.data (Request.address ⟨pos, dir, bio, seg :: rest⟩).toNat bio.bytes
          completions := st.completions ++ [⟨bio, 0⟩]
          touched := st.touched ++
            indices (Request.address ⟨pos, dir, bio, seg :: rest⟩).toNat bio.bytes.length }
        ⟨pos + BitVec.ofNat 64 (bio.bytes.length / 512), dir, seg, rest⟩ := by
  rw [writeLoop]
  simp [Request.endCur, Request.curBytes]

/-- The progress made by serving one request: it is served as on the flat array,
and exactly the slice of the request is accessed. -/
def Serves (st : Progress) (req : Request) (st' : Progress) : Prop :=
  ∃ done, st'.completions = st.completions ++ done ∧ FlatServe st.data req st'.data done ∧
    st'.touched = st.touched ++ indices (512 * req.pos.toNat) req.total

/-- The total of a request is the current segment and the total of what remains. -/
theorem total_more (pos pos' : BitVec 64) (dir : Dir) (bio seg : Segment) (rest : List Segment) :
    Request.total ⟨pos, dir, bio, seg :: rest⟩ =
      bio.bytes.length + Request.total ⟨pos', dir, seg, rest⟩ := by
  simp [Request.total_eq, Request.curBytes]

/-- The slice of a request is that of its current segment and that of what remains. -/
theorem Request.InRange.indices_more {pos : BitVec 64} {dir : Dir} {bio seg : Segment}
    {rest : List Segment} (h : Request.InRange ⟨pos, dir, bio, seg :: rest⟩) :
    indices (512 * pos.toNat) (Request.total ⟨pos, dir, bio, seg :: rest⟩) =
      indices (Request.address ⟨pos, dir, bio, seg :: rest⟩).toNat bio.bytes.length ++
        indices (512 * (pos + BitVec.ofNat 64 (bio.bytes.length / 512)).toNat)
          (Request.total ⟨pos + BitVec.ofNat 64 (bio.bytes.length / 512), dir, seg, rest⟩) := by
  have haddr := h.address_eq
  obtain ⟨_, hpos⟩ := h.next
  rw [total_more pos (pos + BitVec.ofNat 64 (bio.bytes.length / 512)), indices_add, hpos]
  simp only [haddr, Nat.cast_mul, Nat.cast_ofNat]

/-- The read loop serves a read request: each turn fills the current segment from
where the turn before it ended. -/
theorem readLoop_serves (rest : List Segment) (st : Progress) (pos : BitVec 64) (bio : Segment)
    (h : Request.InRange ⟨pos, .read, bio, rest⟩) :
    Serves st ⟨pos, .read, bio, rest⟩ (readLoop st ⟨pos, .read, bio, rest⟩) := by
  induction rest generalizing st pos bio with
  | nil =>
    have haddr := h.address_eq
    rw [readLoop_last, haddr]
    refine ⟨_, rfl, ⟨?_, ?_, ?_, ?_, ?_⟩, ?_⟩
    · simp [Request.filled, Request.segments]
    · simp [Request.filled, Request.segments, Request.curBytes]
    · simp
    · simp
    · simp [contents, Request.filled, haddr, Request.total_eq, Request.curBytes]
    · simp [Request.total_eq, Request.curBytes]
  | cons seg rest ih =>
    have haddr := h.address_eq
    obtain ⟨hnext, hpos⟩ := h.next
    obtain ⟨done, hcompl, hserve, htouched⟩ := ih _ _ _ hnext
    obtain ⟨hdata, hcontents⟩ := hserve.read rfl
    rw [readLoop_more]
    refine ⟨_ :: done, by rw [hcompl, List.append_assoc, List.singleton_append],
      ⟨?_, ?_, ?_, ?_, ?_⟩, ?_⟩
    · simpa [Request.segments, Request.filled] using hserve.ids
    · simpa [Request.segments, Request.filled, Request.curBytes] using hserve.lengths
    · simpa using hserve.success
    · simp
    · intro _
      refine ⟨hdata, ?_⟩
      rw [total_more pos (pos + BitVec.ofNat 64 (bio.bytes.length / 512)), slice_add]
      rw [contents] at hcontents ⊢
      rw [List.map_cons, List.map_cons, List.flatten_cons, hcontents]
      simp only [Request.filled, haddr, Request.curBytes, hpos, Nat.cast_mul, Nat.cast_ofNat]
    · rw [htouched, h.indices_more, List.append_assoc]

/-- The write loop serves a write request: each turn stores the current segment
where the turn before it ended. -/
theorem writeLoop_serves (rest : List Segment) (st : Progress) (pos : BitVec 64) (bio : Segment)
    (h : Request.InRange ⟨pos, .write, bio, rest⟩) :
    Serves st ⟨pos, .write, bio, rest⟩ (writeLoop st ⟨pos, .write, bio, rest⟩) := by
  induction rest generalizing st pos bio with
  | nil =>
    have haddr := h.address_eq
    rw [writeLoop_last, haddr]
    refine ⟨_, rfl, ⟨?_, ?_, ?_, ?_, ?_⟩, ?_⟩
    · simp [Request.segments]
    · simp [Request.segments]
    · simp
    · simp [contents, Request.segments]
    · simp
    · simp [Request.total_eq, Request.curBytes]
  | cons seg rest ih =>
    have haddr := h.address_eq
    obtain ⟨hnext, hpos⟩ := h.next
    obtain ⟨done, hcompl, hserve, htouched⟩ := ih _ _ _ hnext
    obtain ⟨hdata, hsegments⟩ := hserve.write rfl
    rw [writeLoop_more]
    refine ⟨_ :: done, by rw [hcompl, List.append_assoc, List.singleton_append],
      ⟨?_, ?_, ?_, ?_, ?_⟩, ?_⟩
    · simpa [Request.segments] using hserve.ids
    · simpa [Request.segments] using hserve.lengths
    · simpa using hserve.success
    · intro _
      refine ⟨?_, by simpa [Request.segments] using hsegments⟩
      rw [hdata]
      simp only [contents, Request.segments, List.map_cons, List.flatten_cons, splice_append, haddr,
        hpos, Nat.cast_mul, Nat.cast_ofNat]
    · simp
    · rw [htouched, h.indices_more, List.append_assoc]

/-- One turn of the outer loop serves a request within the device. -/
theorem serveRequest_serves (st : Progress) {req : Request} (h : req.InRange) :
    Serves st req (serveRequest st req) := by
  rw [serveRequest, h.not_outOfRange]
  obtain ⟨pos, dir, bio, rest⟩ := req
  cases dir with
  | read => exact readLoop_serves rest st pos bio h
  | write => exact writeLoop_serves rest st pos bio h

/-- The slice of a request within the device lies within `simp_blkdev_data`. -/
theorem Request.InRange.indices_in_bounds {req : Request} (h : req.InRange) :
    ∀ j ∈ indices (512 * req.pos.toNat) req.total, 0 ≤ j ∧ j < simpBlkdevBytes := by
  intro j hj
  rw [mem_indices] at hj
  unfold InRange at h
  omega

/-- Serving a queue from any progress serves it as on the flat array and stays
within `simp_blkdev_data`. -/
theorem simpBlkdevDoRequest_serves (queue : List Request) (st : Progress)
    (h : ∀ req ∈ queue, req.InRange) :
    ∃ done, (simpBlkdevDoRequest st queue).completions = st.completions ++ done ∧
      FlatRun st.data queue (simpBlkdevDoRequest st queue).data done ∧
      ∀ j ∈ (simpBlkdevDoRequest st queue).touched,
        j ∈ st.touched ∨ 0 ≤ j ∧ j < simpBlkdevBytes := by
  induction queue generalizing st with
  | nil => exact ⟨[], by simp [simpBlkdevDoRequest], .nil _, fun j hj => Or.inl hj⟩
  | cons req queue ih =>
    have hreq := h req (by simp)
    obtain ⟨done, hcompl, hserve, htouched⟩ := serveRequest_serves st hreq
    obtain ⟨done', hcompl', hrun, htouched'⟩ :=
      ih (serveRequest st req) fun r hr => h r (by simp [hr])
    refine ⟨done ++ done', ?_, .cons hserve hrun, ?_⟩
    · rw [simpBlkdevDoRequest, hcompl', hcompl, List.append_assoc]
    · intro j hj
      rcases htouched' j hj with hold | hbounds
      · rw [htouched, List.mem_append] at hold
        exact hold.imp_right (hreq.indices_in_bounds j)
      · exact Or.inr hbounds

/-- **The block device as a flat byte array.** For every queue of requests within
the device the request function returns; it has the effect of serving the requests
one by one on a flat array, completing every segment of every request exactly once
and in order; and it accesses only indices of `simp_blkdev_data`. -/
theorem do_request_serves_flat_array (data : Data) (queue : List Request)
    (h : ∀ req ∈ queue, req.InRange) :
    FlatRun data queue (simpBlkdevDoRequest ⟨data, [], []⟩ queue).data
        (simpBlkdevDoRequest ⟨data, [], []⟩ queue).completions ∧
      (simpBlkdevDoRequest ⟨data, [], []⟩ queue).completions.map (fun c => c.segment.id) =
        queue.flatMap (fun req => req.segments.map Segment.id) ∧
      (∀ c ∈ (simpBlkdevDoRequest ⟨data, [], []⟩ queue).completions, c.status = 0) ∧
      ∀ j ∈ (simpBlkdevDoRequest ⟨data, [], []⟩ queue).touched, 0 ≤ j ∧ j < simpBlkdevBytes := by
  obtain ⟨done, hcompl, hrun, htouched⟩ := simpBlkdevDoRequest_serves queue ⟨data, [], []⟩ h
  rw [List.nil_append] at hcompl
  rw [hcompl]
  refine ⟨hrun, ?_, ?_, fun j hj => (htouched j hj).resolve_left List.not_mem_nil⟩
  · exact hrun.ids
  · exact hrun.success

/-- A segment of one sector filled with a byte. -/
def sectorOf (id : ℕ) (b : UInt8) : Segment where
  id := id
  bytes := List.replicate 512 b
  nonempty := by rw [List.length_replicate]; decide
  sectors := by rw [List.length_replicate]

/-- A sector holds 512 bytes. -/
@[simp] theorem sectorOf_length (id : ℕ) (b : UInt8) : (sectorOf id b).bytes.length = 512 :=
  List.length_replicate

/-- Two sectors are written at sector 3 and read back as one request. -/
theorem do_request_serves_flat_array_run :
    FlatRun (fun _ => 0)
      [⟨3, .write, sectorOf 0 7, [sectorOf 1 8]⟩, ⟨3, .read, sectorOf 2 0, [sectorOf 3 0]⟩]
      (simpBlkdevDoRequest ⟨fun _ => 0, [], []⟩
        [⟨3, .write, sectorOf 0 7, [sectorOf 1 8]⟩,
          ⟨3, .read, sectorOf 2 0, [sectorOf 3 0]⟩]).data
      (simpBlkdevDoRequest ⟨fun _ => 0, [], []⟩
        [⟨3, .write, sectorOf 0 7, [sectorOf 1 8]⟩,
          ⟨3, .read, sectorOf 2 0, [sectorOf 3 0]⟩]).completions :=
  (do_request_serves_flat_array _ _ (by
    simp [Request.InRange, Request.total, Request.segments, simpBlkdevBytes])).1

end LinuxDevNote.Block
