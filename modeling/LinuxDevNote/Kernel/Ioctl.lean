import LinuxDevNote.Library.BitField

/-!
# Command words of `ioctl`

A command word has 32 bits: a number of 8 bits, a type of 8, the size of the argument in
14, and its direction in 2. The macros build a word from its fields and read them back, and
every word is that of its fields.
-/

namespace LinuxDevNote.Kernel

open BitField

/-- `_IOC`. -/
def ioc (dir type nr size : BitVec 32) : BitVec 32 :=
  dir <<< 30 ||| type <<< 8 ||| nr <<< 0 ||| size <<< 16

/-- `_IOC_DIR`. -/
def iocDir (cmd : BitVec 32) : BitVec 32 := field cmd 30 2

/-- `_IOC_TYPE`. -/
def iocType (cmd : BitVec 32) : BitVec 32 := field cmd 8 8

/-- `_IOC_NR`. -/
def iocNr (cmd : BitVec 32) : BitVec 32 := field cmd 0 8

/-- `_IOC_SIZE`. -/
def iocSize (cmd : BitVec 32) : BitVec 32 := field cmd 16 14

/-- `_IO`: no argument. -/
def io (type nr : BitVec 32) : BitVec 32 := ioc 0 type nr 0

/-- `_IOW`: the argument is read by the driver. -/
def iow (type nr size : BitVec 32) : BitVec 32 := ioc 1 type nr size

/-- `_IOR`: the argument is written by the driver. -/
def ior (type nr size : BitVec 32) : BitVec 32 := ioc 2 type nr size

/-- `_IOWR`: both. -/
def iowr (type nr size : BitVec 32) : BitVec 32 := ioc 3 type nr size

/-- The fields of a command word, each within its bits. -/
@[ext] structure Fields where
  /-- The direction. -/
  dir : BitVec 2
  /-- The type. -/
  type : BitVec 8
  /-- The number. -/
  nr : BitVec 8
  /-- The size of the argument. -/
  size : BitVec 14

/-- The command word of some fields. -/
def Fields.word (f : Fields) : BitVec 32 :=
  ioc (f.dir.setWidth 32) (f.type.setWidth 32) (f.nr.setWidth 32) (f.size.setWidth 32)

/-- The fields of a command word. -/
def fields (cmd : BitVec 32) : Fields :=
  ⟨(iocDir cmd).setWidth 2, (iocType cmd).setWidth 8, (iocNr cmd).setWidth 8,
    (iocSize cmd).setWidth 14⟩

/-- The fields side by side, in the order of their bits. -/
theorem ioc_eq (dir type nr size : BitVec 32) :
    ioc dir type nr size = dir <<< 30 ||| (size <<< 16 ||| (type <<< 8 ||| nr)) := by
  rw [ioc, BitVec.shiftLeft_zero, BitVec.or_assoc, BitVec.or_assoc, BitVec.or_comm nr,
    ← BitVec.or_assoc (type <<< 8), BitVec.or_comm (type <<< 8), BitVec.or_assoc]

/-- The number that fields within their bits make. -/
theorem toNat_ioc {dir type nr size : BitVec 32} (hdir : dir.toNat < 2 ^ 2)
    (htype : type.toNat < 2 ^ 8) (hnr : nr.toNat < 2 ^ 8) (hsize : size.toNat < 2 ^ 14) :
    (ioc dir type nr size).toNat =
      dir.toNat * 2 ^ 30 + (size.toNat * 2 ^ 16 + (type.toNat * 2 ^ 8 + nr.toNat)) := by
  have hlow : (type <<< 8 ||| nr).toNat = type.toNat * 2 ^ 8 + nr.toNat :=
    toNat_shiftLeft_or hnr (by omega)
  have hmiddle : (size <<< 16 ||| (type <<< 8 ||| nr)).toNat =
      size.toNat * 2 ^ 16 + (type <<< 8 ||| nr).toNat :=
    toNat_shiftLeft_or (by omega) (by omega)
  rw [ioc_eq, toNat_shiftLeft_or (by omega) (by omega), hmiddle, hlow]

/-- The number that a command word is. -/
theorem Fields.toNat_word (f : Fields) :
    f.word.toNat =
      f.dir.toNat * 2 ^ 30 + (f.size.toNat * 2 ^ 16 + (f.type.toNat * 2 ^ 8 + f.nr.toNat)) := by
  have hdir : (f.dir.setWidth 32).toNat = f.dir.toNat := BitVec.toNat_setWidth_of_le (by decide)
  have htype : (f.type.setWidth 32).toNat = f.type.toNat := BitVec.toNat_setWidth_of_le (by decide)
  have hnr : (f.nr.setWidth 32).toNat = f.nr.toNat := BitVec.toNat_setWidth_of_le (by decide)
  have hsize : (f.size.setWidth 32).toNat = f.size.toNat := BitVec.toNat_setWidth_of_le (by decide)
  rw [word, toNat_ioc (hdir ▸ f.dir.isLt) (htype ▸ f.type.isLt) (hnr ▸ f.nr.isLt)
    (hsize ▸ f.size.isLt), hdir, htype, hnr, hsize]

/-- The fields of a command word, as numbers. -/
theorem toNat_fields (cmd : BitVec 32) :
    (fields cmd).dir.toNat = cmd.toNat / 2 ^ 30 % 2 ^ 2 ∧
      (fields cmd).type.toNat = cmd.toNat / 2 ^ 8 % 2 ^ 8 ∧
      (fields cmd).nr.toNat = cmd.toNat / 2 ^ 0 % 2 ^ 8 ∧
      (fields cmd).size.toNat = cmd.toNat / 2 ^ 16 % 2 ^ 14 := by
  simp only [fields, iocDir, iocType, iocNr, iocSize, BitVec.toNat_setWidth]
  rw [toNat_field cmd 30 (by decide), toNat_field cmd 8 (by decide), toNat_field cmd 0 (by decide),
    toNat_field cmd 16 (by decide)]
  exact ⟨Nat.mod_mod _ _, Nat.mod_mod _ _, Nat.mod_mod _ _, Nat.mod_mod _ _⟩

/-- Every word is that of its fields. -/
theorem word_fields (cmd : BitVec 32) : (fields cmd).word = cmd := by
  obtain ⟨hdir, htype, hnr, hsize⟩ := toNat_fields cmd
  have hlt := cmd.isLt
  apply BitVec.eq_of_toNat_eq
  rw [Fields.toNat_word, hdir, htype, hnr, hsize]
  omega

/-- The fields of a word are those it was built from. -/
theorem fields_word (f : Fields) : fields f.word = f := by
  obtain ⟨hdir, htype, hnr, hsize⟩ := toNat_fields f.word
  have hword := f.toNat_word
  have hdirLt := f.dir.isLt
  have htypeLt := f.type.isLt
  have hnrLt := f.nr.isLt
  have hsizeLt := f.size.isLt
  ext1
  · exact BitVec.eq_of_toNat_eq (by omega)
  · exact BitVec.eq_of_toNat_eq (by omega)
  · exact BitVec.eq_of_toNat_eq (by omega)
  · exact BitVec.eq_of_toNat_eq (by omega)

end LinuxDevNote.Kernel
