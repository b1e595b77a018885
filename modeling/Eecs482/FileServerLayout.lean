import Mathlib.Algebra.GroupWithZero.Nat
import Mathlib.Data.Fin.Basic
import Mathlib.Data.List.OfFn
import Mathlib.Tactic.Common

/-!
# On-disk layout of the file server

A disk block is 512 raw bytes.  The server reads and writes it through the
structs `fs_inode` and `fs_direntry`, each a fixed little-endian layout without
padding, so any block can be read as either.  What is written through a struct
is read back through it unchanged.
-/

namespace Eecs482
namespace FileServer

abbrev fsBlockSize : ℕ := 512
abbrev fsMaxFileBlocks : ℕ := 124
abbrev fsMaxFileName : ℕ := 59
abbrev fsMaxPathName : ℕ := 128
abbrev fsMaxUserName : ℕ := 10
abbrev fsDiskSize : ℕ := 4096

abbrev Byte := UInt8
abbrev BlockNo := UInt32

/-- The bytes of a `std::string`, or of a C string up to its NUL. -/
abbrev Name := List Byte

abbrev Block := Fin fsBlockSize → Byte

structure FsDirentry where
  name : Fin (fsMaxFileName + 1) → Byte
  /-- Disk block of the inode; 0 if this direntry is unused. -/
  inodeBlock : BlockNo

structure FsInode where
  type : Byte
  owner : Fin (fsMaxUserName + 1) → Byte
  size : UInt32
  blocks : Fin fsMaxFileBlocks → BlockNo

/-- `FS_BLOCKSIZE / sizeof(fs_direntry)`. -/
abbrev fsDirentries : ℕ := 8

instance : NeZero fsDirentries := ⟨by decide⟩

abbrev Entries := Fin fsDirentries → FsDirentry

/-- The character `'f'`. -/
abbrev fileType : Byte := 102

/-- The character `'d'`. -/
abbrev dirType : Byte := 100

theorem fileType_ne_dirType : fileType ≠ dirType := by decide

/-! ## Little-endian words -/

/-- Byte `k` of a 32-bit word, least significant first. -/
def u32Byte (word : UInt32) (k : ℕ) : Byte :=
  UInt8.ofNat (word.toNat / 256 ^ k)

/-- The word whose bytes are `byte 0` to `byte 3`. -/
def u32OfBytes (byte : ℕ → Byte) : UInt32 :=
  UInt32.ofNat ((byte 0).toNat + 256 * (byte 1).toNat +
    65536 * (byte 2).toNat + 16777216 * (byte 3).toNat)

theorem u32OfBytes_u32Byte (word : UInt32) :
    u32OfBytes (u32Byte word) = word := by
  apply UInt32.toNat_inj.mp
  have hlt : word.toNat < 4294967296 := word.toNat_lt
  simp only [u32OfBytes, u32Byte, UInt8.toNat_ofNat', UInt32.toNat_ofNat',
    Nat.pow_zero, Nat.div_one]
  omega

/-! ## Struct views of a block -/

/-- The byte at an offset of a block. -/
def byteAt (block : Block) (offset : ℕ) : Byte :=
  if h : offset < fsBlockSize then block ⟨offset, h⟩ else 0

/-- The little-endian word at an offset of a block. -/
def u32At (block : Block) (offset : ℕ) : UInt32 :=
  u32OfBytes fun k => byteAt block (offset + k)

/-- The block read as an `fs_inode`. -/
def asInode (block : Block) : FsInode where
  type := byteAt block 0
  owner := fun k => byteAt block (1 + k)
  size := u32At block 12
  blocks := fun k => u32At block (16 + 4 * k)

/-- The block an `fs_inode` is written as. -/
def ofInode (inode : FsInode) : Block := fun offset =>
  if offset.val = 0 then inode.type
  else if offset.val < 12 then inode.owner (Fin.ofNat 11 (offset - 1))
  else if offset.val < 16 then u32Byte inode.size (offset - 12)
  else u32Byte (inode.blocks (Fin.ofNat 124 ((offset - 16) / 4)))
    ((offset - 16) % 4)

/-- The block read as an array of `fs_direntry`. -/
def asEntries (block : Block) : Entries := fun k => {
  name := fun i => byteAt block (64 * k + i)
  inodeBlock := u32At block (64 * k + 60) }

/-- The block an array of `fs_direntry` is written as. -/
def ofEntries (entries : Entries) : Block := fun offset =>
  let entry := entries (Fin.ofNat 8 (offset / 64))
  if offset.val % 64 < 60 then entry.name (Fin.ofNat 60 (offset % 64))
  else u32Byte entry.inodeBlock (offset % 64 - 60)

theorem byteAt_of_lt (block : Block) {offset : ℕ} (h : offset < 512) :
    byteAt block offset = block ⟨offset, h⟩ := by
  simp [byteAt, h]

theorem fin_ofNat_eq {n : ℕ} [NeZero n] (k : Fin n) {m : ℕ} (h : m = k.val) :
    Fin.ofNat n m = k := by
  subst h
  exact Fin.ofNat_val_eq_self k

theorem u32OfBytes_congr {byte byte' : ℕ → Byte}
    (h : ∀ k, k < 4 → byte k = byte' k) :
    u32OfBytes byte = u32OfBytes byte' := by
  simp [u32OfBytes, h]

/-- A word stored byte by byte is read back. -/
theorem u32At_eq {block : Block} {offset : ℕ} {word : UInt32}
    (h : ∀ k, k < 4 → byteAt block (offset + k) = u32Byte word k) :
    u32At block offset = word := by
  rw [u32At, u32OfBytes_congr h, u32OfBytes_u32Byte]

@[simp] theorem asInode_ofInode (inode : FsInode) :
    asInode (ofInode inode) = inode := by
  obtain ⟨type, owner, size, blocks⟩ := inode
  simp only [asInode, FsInode.mk.injEq]
  refine ⟨?_, ?_, ?_, ?_⟩
  · simp [byteAt, ofInode]
  · funext k
    have hk : k.val < 11 := k.isLt
    rw [byteAt_of_lt _ (by omega)]
    simp [ofInode, show 1 + k.val < 12 by omega]
  · apply u32At_eq
    intro k hk
    rw [byteAt_of_lt _ (by omega)]
    simp [ofInode, show 12 + k < 16 by omega]
  · funext i
    have hi : i.val < 124 := i.isLt
    apply u32At_eq
    intro k hk
    rw [byteAt_of_lt _ (by omega)]
    have hdiv : (16 + 4 * i.val + k - 16) / 4 = i.val := by omega
    have hmod : (16 + 4 * i.val + k - 16) % 4 = k := by omega
    simp only [ofInode, show ¬16 + 4 * i.val + k = 0 by omega,
      show ¬16 + 4 * i.val + k < 12 by omega,
      show ¬16 + 4 * i.val + k < 16 by omega, if_false, hmod]
    rw [fin_ofNat_eq i hdiv]

@[simp] theorem asEntries_ofEntries (entries : Entries) :
    asEntries (ofEntries entries) = entries := by
  funext k
  have hk : k.val < 8 := k.isLt
  cases hentry : entries k with
  | mk name inodeBlock =>
      simp only [asEntries, FsDirentry.mk.injEq]
      refine ⟨?_, ?_⟩
      · funext i
        have hi : i.val < 60 := i.isLt
        rw [byteAt_of_lt _ (by omega)]
        have hdiv : (64 * k.val + i.val) / 64 = k.val := by omega
        have hmod : (64 * k.val + i.val) % 64 = i.val := by omega
        simp only [ofEntries, hmod, if_pos hi]
        rw [fin_ofNat_eq k hdiv, fin_ofNat_eq i rfl, hentry]
      · apply u32At_eq
        intro j hj
        rw [byteAt_of_lt _ (by omega)]
        have hdiv : (64 * k.val + 60 + j) / 64 = k.val := by omega
        have hmod : (64 * k.val + 60 + j) % 64 = 60 + j := by omega
        simp only [ofEntries, hmod, show ¬60 + j < 60 by omega, if_false]
        rw [fin_ofNat_eq k hdiv, hentry, Nat.add_sub_cancel_left]

/-! ## C strings in fixed arrays -/

/-- `std::string(array)`: the bytes before the first NUL. -/
def cString {n : ℕ} (array : Fin n → Byte) : Name :=
  (List.ofFn array).takeWhile (· ≠ 0)

/-- The array ends its string inside its own bounds. -/
def Terminated {n : ℕ} (array : Fin n → Byte) : Prop :=
  ∃ i, array i = 0

/-- `strcpy(array, src)`: the bytes of `src` and a NUL; what lies behind keeps
its value. -/
def strcpy {n : ℕ} (array : Fin n → Byte) (src : Name) : Fin n → Byte :=
  fun i => (src ++ [0])[i.val]?.getD (array i)

theorem ofFn_strcpy {n : ℕ} (array : Fin n → Byte) {src : Name}
    (hlength : src.length < n) :
    List.ofFn (strcpy array src) =
      src ++ 0 :: (List.ofFn array).drop (src.length + 1) := by
  apply List.ext_getElem
  · simp
    omega
  · intro i hi hi'
    rw [List.getElem_ofFn]
    rcases Nat.lt_trichotomy i src.length with h | h | h
    · simp [strcpy, h, List.getElem_append_left, List.getElem?_append_left]
    · subst h
      simp [strcpy]
    · have hnone : (src ++ [0])[i]? = none := by
        simp
        omega
      obtain ⟨k, rfl⟩ : ∃ k, i = src.length + 1 + k := ⟨i - src.length - 1, by omega⟩
      simp only [strcpy, hnone, Option.getD_none]
      rw [List.getElem_append_right (by omega)]
      simp [show src.length + 1 + k - src.length = k + 1 by omega]

theorem cString_strcpy {n : ℕ} (array : Fin n → Byte) {src : Name}
    (hlength : src.length < n) (hnul : (0 : Byte) ∉ src) :
    cString (strcpy array src) = src := by
  rw [cString, ofFn_strcpy array hlength, List.takeWhile_append_of_pos]
  · simp
  · intro byte hbyte
    simp only [ne_eq, decide_not, Bool.not_eq_eq_eq_not, Bool.not_true,
      decide_eq_false_iff_not]
    rintro rfl
    exact hnul hbyte

theorem terminated_strcpy {n : ℕ} (array : Fin n → Byte) {src : Name}
    (hlength : src.length < n) :
    Terminated (strcpy array src) :=
  ⟨⟨src.length, hlength⟩, by simp [strcpy]⟩

end FileServer
end Eecs482
