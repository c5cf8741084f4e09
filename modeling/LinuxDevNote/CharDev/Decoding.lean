import LinuxDevNote.Kernel.Ioctl

/-!
# Decoding the commands of the character device

`_ioctl` of `char_drv.c` refuses a word by its type or its number, and then switches on the
whole word. No case of the switch returns a value, the four commands of the application
included. So a word is answered as it should be exactly when one of the two checks
refuses it.
-/

namespace LinuxDevNote.CharDev

open Kernel

/-- `ENOTTY`: inappropriate `ioctl` for the device. -/
def ENOTTY : ℤ := 25

/-- `MAGIC_NUMBER`, the letter C. -/
def magicNumber : BitVec 32 := 0x43

/-- `_EXECUTE`. -/
def execute : BitVec 32 := io magicNumber 1

/-- `_WRITE`, with an `int`. -/
def write : BitVec 32 := iow magicNumber 6 4

/-- `_READ`, with an `int`. -/
def read : BitVec 32 := ior magicNumber 2 4

/-- `_RW`, with an `int`. -/
def rw : BitVec 32 := iowr magicNumber 7 4

/-- `_IOCTL_MAXNR`. -/
def ioctlMaxnr : BitVec 32 := 8

/-- The commands that `main` of the application sends, in this order. -/
def appCommands : List (BitVec 32) := [execute, write, read, rw]

/-- What a call of `_ioctl` does. -/
structure Outcome where
  /-- The message in the kernel log. -/
  log : String
  /-- The value returned; `none` where the function ends without one. -/
  ret : Option ℤ

/-- `_ioctl`. -/
def ioctl (cmd : BitVec 32) : Outcome :=
  if iocType cmd ≠ magicNumber then ⟨"cmd error", some (-ENOTTY)⟩
  else if ioctlMaxnr < iocNr cmd then ⟨"number error", some (-ENOTTY)⟩
  -- behind the switch there is no `return`
  else if cmd = execute then ⟨"EXECUTE", none⟩
  else if cmd = write then ⟨"WRITE", none⟩
  else if cmd = read then ⟨"READ", none⟩
  else if cmd = rw then ⟨"RW", none⟩
  else ⟨"default", none⟩

/-- One of the two checks refuses the word. -/
def Refused (cmd : BitVec 32) : Prop := iocType cmd ≠ magicNumber ∨ ioctlMaxnr < iocNr cmd

instance (cmd : BitVec 32) : Decidable (Refused cmd) := inferInstanceAs (Decidable (_ ∨ _))

/-- The word is decoded: the four commands are accepted, and no others. -/
structure DecodeLaw (cmd : BitVec 32) (ret : Option ℤ) : Prop where
  /-- Zero is for the commands of the application. -/
  accepts : ret = some 0 ↔ cmd ∈ appCommands
  /-- Every other word is refused. -/
  refuses : cmd ∉ appCommands → ret = some (-ENOTTY)
  /-- There is a result. -/
  defined : ret ≠ none

/-- The checks read the type and the number of a word. -/
theorem refused_iff (cmd : BitVec 32) :
    Refused cmd ↔ (fields cmd).type ≠ 0x43 ∨ 8 < (fields cmd).nr := by
  obtain ⟨_, htype, hnr, _⟩ := toNat_fields cmd
  have htype' : (iocType cmd).toNat = (fields cmd).type.toNat :=
    (BitField.toNat_field cmd 8 (by decide)).trans htype.symm
  have hnr' : (iocNr cmd).toNat = (fields cmd).nr.toNat :=
    (BitField.toNat_field cmd 0 (by decide)).trans hnr.symm
  rw [Refused, Ne, Ne, ← BitVec.toNat_inj, ← BitVec.toNat_inj, BitVec.lt_def, BitVec.lt_def, htype',
    hnr']
  rfl

/-- Neither check refuses a command of the application. -/
theorem not_refused_of_mem {cmd : BitVec 32} (h : cmd ∈ appCommands) : ¬ Refused cmd := by
  simp only [appCommands, List.mem_cons, List.not_mem_nil, or_false] at h
  rcases h with rfl | rfl | rfl | rfl <;> decide +kernel

/-- A refused word gets `-ENOTTY`. -/
theorem ioctl_of_refused {cmd : BitVec 32} (h : Refused cmd) :
    (ioctl cmd).ret = some (-ENOTTY) := by
  unfold ioctl
  by_cases htype : iocType cmd ≠ magicNumber
  · rw [if_pos htype]
  · rw [if_neg htype, if_pos (h.resolve_left htype)]

/-- Every other word gets no result, whichever case the switch takes. -/
theorem ioctl_of_not_refused {cmd : BitVec 32} (h : ¬ Refused cmd) : (ioctl cmd).ret = none := by
  rw [Refused, not_or] at h
  unfold ioctl
  rw [if_neg h.1, if_neg h.2]
  split_ifs <;> rfl

/-- The switch falls through to its default for every word that passes both checks and is no
command of the application. -/
theorem log_eq_default_iff (cmd : BitVec 32) :
    (ioctl cmd).log = "default" ↔ ¬ Refused cmd ∧ cmd ∉ appCommands := by
  unfold ioctl Refused appCommands
  split_ifs with htype hnr hexecute hwrite hread hrw
  · simp [htype]
  · simp [hnr]
  · simp [hexecute]
  · simp [hwrite]
  · simp [hread]
  · simp [hrw]
  · simp [htype, hnr, hexecute, hwrite, hread, hrw]

/-- The words without a result: those of the type C with a number up to 8, whatever their
direction and their size. -/
theorem ioctl_eq_none_iff (cmd : BitVec 32) :
    (ioctl cmd).ret = none ↔ ∃ f : Fields, f.type = 0x43 ∧ f.nr ≤ 8 ∧ cmd = f.word := by
  constructor
  · intro hnone
    have hpassed : ¬ Refused cmd := by
      intro hrefused
      rw [ioctl_of_refused hrefused] at hnone
      cases hnone
    rw [refused_iff, not_or, not_not] at hpassed
    exact ⟨fields cmd, hpassed.1, BitVec.not_lt.mp hpassed.2, (word_fields cmd).symm⟩
  · rintro ⟨f, htype, hnr, rfl⟩
    refine ioctl_of_not_refused ?_
    rw [refused_iff, fields_word, not_or, not_not]
    exact ⟨htype, BitVec.not_lt.mpr hnr⟩

/-- **Decoding a command word.** A word is answered as it should be exactly when the check of
the type or that of the number refuses it. -/
theorem decodeLaw_iff (cmd : BitVec 32) :
    DecodeLaw cmd (ioctl cmd).ret ↔ iocType cmd ≠ magicNumber ∨ ioctlMaxnr < iocNr cmd := by
  constructor
  · intro hlaw
    by_contra hpassed
    exact hlaw.defined (ioctl_of_not_refused hpassed)
  · intro hrefused
    have hforeign : cmd ∉ appCommands := fun h => not_refused_of_mem h hrefused
    rw [ioctl_of_refused hrefused]
    exact ⟨iff_of_false (by decide) hforeign, fun _ => rfl, by simp⟩

/-- The first command of the application gets no result. -/
theorem execute_not_accepted : ¬ ∀ cmd : BitVec 32, DecodeLaw cmd (ioctl cmd).ret := by
  intro h
  have hmem : execute ∈ appCommands := List.mem_cons_self
  exact (h execute).defined (ioctl_of_not_refused (not_refused_of_mem hmem))

end LinuxDevNote.CharDev
