import LinuxDevNote.Block.FlatArray
import LinuxDevNote.Library.Reordering

/-!
# Reordering the request queue

The block layer sorts the queue before `simp_blkdev_do_request` sees it. As long as requests
that overlap keep their order, where one of them writes, nobody can tell: the disk ends up the
same, and every segment comes back with the same bytes and the same status.
-/

namespace LinuxDevNote.Block

open Memory Reordering

deriving instance DecidableEq for Segment, Request

/-- Two requests conflict when they overlap and one of them writes. -/
def Conflict (a b : Request) : Prop :=
  (a.dir = .write ∨ b.dir = .write) ∧ 512 * a.pos.toNat < 512 * b.pos.toNat + b.total ∧
    512 * b.pos.toNat < 512 * a.pos.toNat + a.total

/-- Conflicts are mutual. -/
theorem Conflict.symm {a b : Request} (h : Conflict a b) : Conflict b a :=
  ⟨h.1.symm, h.2.2, h.2.1⟩

/-- The progress made after some other progress. -/
def Progress.after (st p : Progress) : Progress :=
  ⟨p.data, st.completions ++ p.completions, st.touched ++ p.touched⟩

/-- The read loop goes on from what was done before. -/
theorem readLoop_after (rest : List Segment) (st p : Progress) (pos : BitVec 64) (dir : Dir)
    (bio : Segment) :
    readLoop (st.after p) ⟨pos, dir, bio, rest⟩ = st.after (readLoop p ⟨pos, dir, bio, rest⟩) := by
  induction rest generalizing p pos bio with
  | nil => simp only [readLoop_last, Progress.after, List.append_assoc]
  | cons seg rest ih =>
    rw [readLoop_more, readLoop_more, ← ih]
    simp only [Progress.after, List.append_assoc]

/-- The write loop goes on from what was done before. -/
theorem writeLoop_after (rest : List Segment) (st p : Progress) (pos : BitVec 64) (dir : Dir)
    (bio : Segment) :
    writeLoop (st.after p) ⟨pos, dir, bio, rest⟩ =
      st.after (writeLoop p ⟨pos, dir, bio, rest⟩) := by
  induction rest generalizing p pos bio with
  | nil => simp only [writeLoop_last, Progress.after, List.append_assoc]
  | cons seg rest ih =>
    rw [writeLoop_more, writeLoop_more, ← ih]
    simp only [Progress.after, List.append_assoc]

/-- A queue is served the same after whatever was done before. -/
theorem simpBlkdevDoRequest_after (st p : Progress) (queue : List Request) :
    simpBlkdevDoRequest (st.after p) queue = st.after (simpBlkdevDoRequest p queue) := by
  induction queue generalizing p with
  | nil => rfl
  | cons req queue ih =>
    have hserve : serveRequest (st.after p) req = st.after (serveRequest p req) := by
      unfold serveRequest
      split
      · simp only [Progress.after, List.append_assoc]
      · obtain ⟨pos, dir, bio, rest⟩ := req
        cases dir with
        | read => exact readLoop_after rest st p pos .read bio
        | write => exact writeLoop_after rest st p pos .write bio
    rw [simpBlkdevDoRequest, hserve, ih, simpBlkdevDoRequest]

/-- A queue is served in two parts. -/
theorem simpBlkdevDoRequest_append (st : Progress) (queue queue' : List Request) :
    simpBlkdevDoRequest st (queue ++ queue') =
      simpBlkdevDoRequest (simpBlkdevDoRequest st queue) queue' := by
  induction queue generalizing st with
  | nil => rfl
  | cons req queue ih => exact ih (serveRequest st req)

/-- Completions with the same buffers, lengths and bytes are the same. -/
theorem completions_ext {done done' : List Completion}
    (hids : done.map (fun c => c.segment.id) = done'.map fun c => c.segment.id)
    (hlengths : done.map (fun c => c.segment.bytes.length) =
      done'.map fun c => c.segment.bytes.length)
    (hcontents : contents (done.map Completion.segment) = contents (done'.map Completion.segment))
    (hsuccess : ∀ c ∈ done, c.status = 0) (hsuccess' : ∀ c ∈ done', c.status = 0) :
    done = done' := by
  induction done generalizing done' with
  | nil =>
    cases done' with
    | nil => rfl
    | cons c' done' => simp at hids
  | cons c done ih =>
    cases done' with
    | nil => simp at hids
    | cons c' done' =>
      simp only [List.map_cons, List.cons.injEq, contents, List.flatten_cons]
        at hids hlengths hcontents
      obtain ⟨hbytes, hrest⟩ := List.append_inj hcontents hlengths.1
      have hsegment : c.segment = c'.segment := by
        obtain ⟨⟨id, bytes, _, _⟩, _⟩ := c
        obtain ⟨⟨id', bytes', _, _⟩, _⟩ := c'
        obtain rfl : id = id' := hids.1
        obtain rfl : bytes = bytes' := hbytes
        rfl
      have hstatus : c.status = c'.status := by
        rw [hsuccess c List.mem_cons_self, hsuccess' c' List.mem_cons_self]
      have hhead : c = c' := by
        obtain ⟨segment, status⟩ := c
        obtain rfl : segment = c'.segment := hsegment
        obtain rfl : status = c'.status := hstatus
        rfl
      rw [hhead, ih hids.2 hlengths.2 hrest (fun d hd => hsuccess d (List.mem_cons_of_mem _ hd))
        fun d hd => hsuccess' d (List.mem_cons_of_mem _ hd)]

/-- A request is served the same from disks that agree where it reads. -/
theorem FlatServe.done_eq {data data' disk disk' : Data} {req : Request}
    {done done' : List Completion}
    (h : FlatServe data req disk done) (h' : FlatServe data' req disk' done')
    (hsame : req.dir = .read →
      slice data (512 * req.pos.toNat) req.total = slice data' (512 * req.pos.toNat) req.total) :
    done = done' := by
  refine completions_ext (h.ids.trans h'.ids.symm) (h.lengths.trans h'.lengths.symm) ?_ h.success
    h'.success
  cases hdir : req.dir with
  | read => rw [(h.read hdir).2, (h'.read hdir).2, hsame hdir]
  | write => rw [(h.write hdir).2, (h'.write hdir).2]

/-- The bytes of the segments are as many as the request has. -/
theorem length_contents (req : Request) : (contents req.segments).length = req.total := by
  simp [contents, Request.total, Function.comp_def]

/-- The disk after a request. -/
def Request.applied (req : Request) (data : Data) : Data :=
  match req.dir with
  | .read => data
  | .write => splice data (512 * req.pos.toNat) (contents req.segments)

/-- A request that was served has been applied to the disk. -/
theorem FlatServe.data_eq {data data' : Data} {req : Request} {done : List Completion}
    (h : FlatServe data req data' done) : data' = req.applied data := by
  unfold Request.applied
  cases hdir : req.dir with
  | read => exact (h.read hdir).1
  | write => exact (h.write hdir).1

/-- Where two requests do not overlap. -/
theorem apart_of_not_conflict {a b : Request} (h : ¬ Conflict a b)
    (hwrite : a.dir = .write ∨ b.dir = .write) :
    (512 * a.pos.toNat : ℤ) + a.total ≤ 512 * b.pos.toNat ∨
      (512 * b.pos.toNat : ℤ) + b.total ≤ 512 * a.pos.toNat := by
  have hnot : ¬ (512 * a.pos.toNat < 512 * b.pos.toNat + b.total ∧
      512 * b.pos.toNat < 512 * a.pos.toNat + a.total) := fun hover => h ⟨hwrite, hover⟩
  omega

/-- Requests that do not conflict are applied in either order. -/
theorem applied_comm {a b : Request} (h : ¬ Conflict a b) (data : Data) :
    b.applied (a.applied data) = a.applied (b.applied data) := by
  unfold Request.applied
  cases ha : a.dir with
  | read => rfl
  | write =>
    cases hb : b.dir with
    | read => rfl
    | write =>
      have hapart := apart_of_not_conflict h (Or.inl ha)
      rw [← length_contents, ← length_contents b] at hapart
      exact splice_comm data hapart

/-- A request that does not conflict with another one does not change what that one reads. -/
theorem slice_applied {a b : Request} (h : ¬ Conflict a b) (data : Data) :
    slice (a.applied data) (512 * b.pos.toNat) b.total =
      slice data (512 * b.pos.toNat) b.total := by
  unfold Request.applied
  cases ha : a.dir with
  | read => rfl
  | write =>
    have hapart := apart_of_not_conflict h (Or.inl ha)
    rw [← length_contents] at hapart
    exact slice_splice_of_outside data hapart.symm

/-- The same disk, and the same completions and accesses in some order. -/
structure Alike (p q : Progress) : Prop where
  /-- The disk. -/
  data : p.data = q.data
  /-- The segments that came back, with their bytes and status. -/
  completions : p.completions.Perm q.completions
  /-- The accesses. -/
  touched : p.touched.Perm q.touched

/-- What is alike stays alike when the same queue is served. -/
theorem Alike.simpBlkdevDoRequest {p q : Progress} (h : Alike p q) (queue : List Request) :
    Alike (simpBlkdevDoRequest p queue) (simpBlkdevDoRequest q queue) := by
  have hfresh : ∀ p : Progress, p = p.after ⟨p.data, [], []⟩ := fun p => by
    simp [Progress.after]
  rw [hfresh p, hfresh q, simpBlkdevDoRequest_after, simpBlkdevDoRequest_after, h.data]
  exact ⟨rfl, h.completions.append_right _, h.touched.append_right _⟩

/-- Neighbours that do not conflict are served in either order. -/
theorem alike_exchange (st : Progress) {a b : Request} (ha : a.InRange) (hb : b.InRange)
    (h : ¬ Conflict a b) :
    Alike (serveRequest (serveRequest st a) b) (serveRequest (serveRequest st b) a) := by
  have hsymm : ¬ Conflict b a := fun hba => h hba.symm
  obtain ⟨done₁, hc₁, hs₁, ht₁⟩ := serveRequest_serves st ha
  obtain ⟨done₂, hc₂, hs₂, ht₂⟩ := serveRequest_serves (serveRequest st a) hb
  obtain ⟨done₃, hc₃, hs₃, ht₃⟩ := serveRequest_serves st hb
  obtain ⟨done₄, hc₄, hs₄, ht₄⟩ := serveRequest_serves (serveRequest st b) ha
  have hfirst : done₁ = done₄ := hs₁.done_eq hs₄ fun _ => by
    rw [hs₃.data_eq, slice_applied hsymm]
  have hsecond : done₂ = done₃ := hs₂.done_eq hs₃ fun _ => by
    rw [hs₁.data_eq, slice_applied h]
  refine ⟨?_, ?_, ?_⟩
  · rw [hs₂.data_eq, hs₁.data_eq, hs₄.data_eq, hs₃.data_eq, applied_comm h]
  · rw [hc₂, hc₁, hc₄, hc₃, hfirst, hsecond, List.append_assoc, List.append_assoc]
    exact List.perm_append_comm.append_left _
  · rw [ht₂, ht₁, ht₄, ht₃, List.append_assoc, List.append_assoc]
    exact List.perm_append_comm.append_left _

/-- **Reordering the queue.** Serving the requests in another order, in which those that conflict
keep theirs, leaves the same disk, returns every segment with the same bytes and status, and
accesses the same bytes. -/
theorem alike_of_sameOrder (st : Progress) {queue queue' : List Request}
    (hrange : ∀ req ∈ queue, req.InRange) (horder : SameOrder Conflict queue queue') :
    Alike (simpBlkdevDoRequest st queue) (simpBlkdevDoRequest st queue') := by
  refine horder.rel (P := Request.InRange)
    (R := fun queue queue' => Alike (simpBlkdevDoRequest st queue) (simpBlkdevDoRequest st queue'))
    Conflict.symm hrange (fun _ => ⟨rfl, .refl _, .refl _⟩) (fun h h' =>
      ⟨h.data.trans h'.data, h.completions.trans h'.completions, h.touched.trans h'.touched⟩) ?_
  intro before after a b ha hb hfree
  rw [simpBlkdevDoRequest_append, simpBlkdevDoRequest_append]
  exact (alike_exchange _ ha hb hfree).simpBlkdevDoRequest after

/-- A write of sector 5 is moved before a read of sector 3. -/
theorem alike_of_sameOrder_run :
    Alike
      (simpBlkdevDoRequest ⟨fun _ => 0, [], []⟩
        [⟨3, .read, sectorOf 0 0, []⟩, ⟨5, .write, sectorOf 1 8, []⟩])
      (simpBlkdevDoRequest ⟨fun _ => 0, [], []⟩
        [⟨5, .write, sectorOf 1 8, []⟩, ⟨3, .read, sectorOf 0 0, []⟩]) := by
  have hfree : ¬ Conflict ⟨3, .read, sectorOf 0 0, []⟩ ⟨5, .write, sectorOf 1 8, []⟩ := by
    simp [Conflict, Request.total, Request.segments]
  refine alike_of_sameOrder _ ?_ (sameOrder_swap Conflict.symm hfree [])
  simp [Request.InRange, Request.total, Request.segments, simpBlkdevBytes]

end LinuxDevNote.Block
