import LinuxDevNote.Library.Execution
import LinuxDevNote.Library.Paging

/-!
# The mmap driver

`dev_init` of `mmap_drv.c` registers the device and then allocates a buffer of one page.
`my_map` maps the whole area of a caller to consecutive frames, the first of which is that
of the buffer. Addresses and sizes are `unsigned long`, of 64 bits; the physical address of
a kernel address is a constant away from it.
-/

namespace LinuxDevNote.Mmap

open Execution Paging

/-- `PAGE_SHIFT`. -/
def PAGE_SHIFT : ℕ := 12

/-- `PAGE_SIZE`. -/
def PAGE_SIZE : ℕ := 4096

/-- An area to be mapped, as `mmap` passes it on: whole pages, and at least one. -/
structure Vma where
  /-- `vm_start`. -/
  vmStart : BitVec 64
  /-- `vm_end`, the first address behind the area. -/
  vmEnd : BitVec 64
  /-- `vm_pgoff`, the page of the device that the caller asks for. -/
  vmPgoff : BitVec 64
  /-- The area starts with a page. -/
  start_aligned : vmStart.toNat % PAGE_SIZE = 0
  /-- It ends with a page. -/
  end_aligned : vmEnd.toNat % PAGE_SIZE = 0
  /-- It is not empty. -/
  nonempty : vmStart.toNat < vmEnd.toNat

/-- The length of a request, in bytes. -/
def Vma.length (vma : Vma) : ℕ := vma.vmEnd.toNat - vma.vmStart.toNat

/-- The offset of a request, in bytes. -/
def Vma.offset (vma : Vma) : ℕ := vma.vmPgoff.toNat * PAGE_SIZE

/-- How the kernel maps the physical memory: by adding a multiple of the page size. -/
structure DirectMap where
  /-- What is added to a kernel address. -/
  shift : BitVec 64
  /-- Pages go to pages. -/
  aligned : shift.toNat % PAGE_SIZE = 0

/-- `virt_to_phys`. -/
def DirectMap.virtToPhys (m : DirectMap) (addr : BitVec 64) : BitVec 64 := addr + m.shift

/-- What `kmalloc(PAGE_SIZE, GFP_KERNEL)` returns: the address of a page. -/
structure PageBuffer where
  /-- The kernel address. -/
  addr : BitVec 64
  /-- It is that of a page. -/
  aligned : addr.toNat % PAGE_SIZE = 0

/-- The physical address of `buffer[k]`. -/
def DirectMap.bufferByte (m : DirectMap) (b : PageBuffer) (k : ℕ) : ℕ :=
  (m.virtToPhys (b.addr + BitVec.ofNat 64 k)).toNat

/-- The frame of a kernel address. -/
def DirectMap.pfn (m : DirectMap) (addr : BitVec 64) : BitVec 64 := m.virtToPhys addr >>> PAGE_SHIFT

/-- `remap_pfn_range`: page `i` of the range is mapped to frame `pfn + i`; `none` when it
fails, which leaves the pages as they were. -/
def remapPfnRange (fails : Bool) (table : Table) (addr pfn size : BitVec 64) : Option Table :=
  if fails then none
  else some (table.remap (addr.toNat / PAGE_SIZE) (size.toNat / PAGE_SIZE) pfn.toNat)

/-- `my_map`: the value returned, and the pages of the caller. -/
def myMap (m : DirectMap) (buffer : BitVec 64) (fails : Bool) (vma : Vma) (table : Table) :
    ℤ × Table :=
  let start := vma.vmStart
  let size := vma.vmEnd - vma.vmStart
  let page := m.virtToPhys buffer
  match remapPfnRange fails table start (page >>> PAGE_SHIFT) size with
  | none => (-1, table)
  | some mapped => (0, mapped)

/-- The driver and the pages that each process has mapped from it. -/
structure State (ι : Type*) where
  /-- Whether `misc_register` was executed. -/
  registered : Bool
  /-- `buffer`, a null pointer until `kmalloc` was executed. -/
  buffer : Option PageBuffer
  /-- The pages of each process. -/
  table : ι → Table

/-- Before the module is loaded. -/
def State.init (ι : Type*) : State ι := ⟨false, none, fun _ => Table.empty⟩

/-- The value of the pointer `buffer`. -/
def State.bufferAddr {ι : Type*} (s : State ι) : BitVec 64 := s.buffer.elim 0 PageBuffer.addr

/-- A scheduling decision: the two statements of `dev_init` that matter to a request, a request,
for which `remap_pfn_range` may fail, or the end of a mapping. -/
inductive Label (ι : Type*)
  | miscRegister
  | kmalloc (b : PageBuffer)
  | mmap (i : ι) (vma : Vma) (fails : Bool)
  | munmap (i : ι) (page count : ℕ)

/-- A request that was answered: the buffer at that time, the area, the value returned, and
the pages of the caller afterwards. -/
structure Answer where
  /-- `buffer`. -/
  buffer : Option PageBuffer
  /-- `vma`. -/
  vma : Vma
  /-- The value `my_map` returned. -/
  ret : ℤ
  /-- The pages of the caller. -/
  table : Table

variable {ι : Type*} [DecidableEq ι]

/-- One step. Requests reach the driver from `misc_register` on. -/
def State.step (m : DirectMap) (s : State ι) : Label ι → Option (State ι × List Answer)
  | .miscRegister => if s.registered then none else some ({ s with registered := true }, [])
  | .kmalloc b =>
    if s.registered ∧ s.buffer.isNone then some ({ s with buffer := some b }, []) else none
  | .mmap i vma fails =>
    if s.registered then
      let r := myMap m s.bufferAddr fails vma (s.table i)
      some ({ s with table := Function.update s.table i r.2 }, [⟨s.buffer, vma, r.1, r.2⟩])
    else none
  | .munmap i page count =>
    some ({ s with table := Function.update s.table i ((s.table i).unmap page count) }, [])

/-- The ways a step can go. -/
inductive Steps (m : DirectMap) (s : State ι) : Label ι → State ι → List Answer → Prop
  | miscRegister : Steps m s .miscRegister { s with registered := true } []
  | kmalloc {b : PageBuffer} : s.buffer = none →
      Steps m s (.kmalloc b) { s with buffer := some b } []
  | mmap {i : ι} {vma : Vma} {fails : Bool} :
      Steps m s (.mmap i vma fails)
        { s with table :=
            Function.update s.table i (myMap m s.bufferAddr fails vma (s.table i)).2 }
        [⟨s.buffer, vma, (myMap m s.bufferAddr fails vma (s.table i)).1,
          (myMap m s.bufferAddr fails vma (s.table i)).2⟩]
  | munmap {i : ι} {page count : ℕ} :
      Steps m s (.munmap i page count)
        { s with table := Function.update s.table i ((s.table i).unmap page count) } []

/-- Every step goes in one of these ways. -/
theorem State.steps {m : DirectMap} {s t : State ι} {a : Label ι} {es : List Answer}
    (h : s.step m a = some (t, es)) : Steps m s a t es := by
  cases a with
  | miscRegister =>
    simp only [step, Option.ite_none_left_eq_some, Option.some.injEq, Prod.mk.injEq] at h
    obtain ⟨_, rfl, rfl⟩ := h
    exact .miscRegister
  | kmalloc b =>
    simp only [step, Option.ite_none_right_eq_some, Option.some.injEq, Prod.mk.injEq] at h
    obtain ⟨⟨_, hnone⟩, rfl, rfl⟩ := h
    exact .kmalloc (Option.isNone_iff_eq_none.mp hnone)
  | mmap i vma fails =>
    simp only [step, Option.ite_none_right_eq_some, Option.some.injEq, Prod.mk.injEq] at h
    obtain ⟨_, rfl, rfl⟩ := h
    exact .mmap
  | munmap i page count =>
    obtain ⟨rfl, rfl⟩ := Prod.mk.inj (Option.some.inj h)
    exact .munmap

omit [DecidableEq ι] in
/-- After `kmalloc` the pointer is that of the buffer. -/
theorem State.bufferAddr_eq {s : State ι} {b : PageBuffer} (h : s.buffer = some b) :
    s.bufferAddr = b.addr := by
  rw [bufferAddr, h]
  rfl

/-- The length of a request, as `my_map` computes it. -/
theorem Vma.toNat_size (vma : Vma) : (vma.vmEnd - vma.vmStart).toNat = vma.length := by
  have hle := vma.nonempty
  rw [BitVec.toNat_sub_of_le (BitVec.le_def.mpr hle.le), length]

/-- A request is for whole pages. -/
theorem Vma.length_mod (vma : Vma) : vma.length % PAGE_SIZE = 0 := by
  have hstart := vma.start_aligned
  have hend := vma.end_aligned
  unfold length PAGE_SIZE at *
  omega

/-- A request is for at least one page. -/
theorem Vma.PAGE_SIZE_le_length (vma : Vma) : PAGE_SIZE ≤ vma.length := by
  have hpos : 0 < vma.length := Nat.sub_pos_of_lt vma.nonempty
  exact Nat.le_of_dvd hpos (Nat.dvd_of_mod_eq_zero vma.length_mod)

/-- The bytes of the buffer are consecutive in the memory. -/
theorem DirectMap.bufferByte_eq (m : DirectMap) (b : PageBuffer) {k : ℕ} (hk : k < PAGE_SIZE) :
    m.bufferByte b k = (m.pfn b.addr).toNat * PAGE_SIZE + k := by
  have hshift := m.aligned
  have haddr := b.aligned
  unfold PAGE_SIZE at *
  rw [bufferByte, pfn, PAGE_SHIFT, BitVec.toNat_ushiftRight, Nat.shiftRight_eq_div_pow, virtToPhys,
    virtToPhys, BitVec.toNat_add, BitVec.toNat_add, BitVec.toNat_add, BitVec.toNat_ofNat]
  omega

/-- A request that succeeds is mapped from the start of the buffer, whatever its offset and
its length are. -/
theorem myMap_translate (m : DirectMap) (buffer : BitVec 64) (vma : Vma) (table : Table) {i : ℕ}
    (hi : i < vma.length) :
    (myMap m buffer false vma table).2.translate PAGE_SIZE (vma.vmStart.toNat + i) =
      some ((m.pfn buffer).toNat * PAGE_SIZE + i) := by
  have hstart : vma.vmStart.toNat = vma.vmStart.toNat / PAGE_SIZE * PAGE_SIZE :=
    (Nat.div_mul_cancel (Nat.dvd_of_mod_eq_zero vma.start_aligned)).symm
  have hlength : i < vma.length / PAGE_SIZE * PAGE_SIZE := by
    rwa [Nat.div_mul_cancel (Nat.dvd_of_mod_eq_zero vma.length_mod)]
  conv_lhs => rw [hstart]
  simp only [myMap, remapPfnRange, Bool.false_eq_true, if_false, vma.toNat_size]
  exact Table.translate_remap (by decide) hlength

end LinuxDevNote.Mmap
