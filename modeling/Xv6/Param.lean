import Mathlib.Data.Nat.Basic

/-!
# Constants

The constants of `param.h`, `fs.h`, `stat.h` and `fcntl.h` that the model uses.
-/

namespace Xv6

/-! ## `param.h` -/

/-- Maximum number of processes. -/
abbrev NPROC : Nat := 64

instance : @NeZero Nat (@Zero.ofOfNat0 Nat (instOfNatNat 0)) NPROC := ⟨by decide⟩

/-- Open files per process. -/
abbrev NOFILE : Nat := 16
/-- Open files per system. -/
abbrev NFILE : Nat := 100

instance : @NeZero Nat (@Zero.ofOfNat0 Nat (instOfNatNat 0)) NFILE := ⟨by decide⟩

/-- Maximum number of active i-nodes. -/
abbrev NINODE : Nat := 50

instance : @NeZero Nat (@Zero.ofOfNat0 Nat (instOfNatNat 0)) NINODE := ⟨by decide⟩

/-- Maximum major device number. -/
abbrev NDEV : Nat := 10
/-- Device number of the root disk. -/
abbrev ROOTDEV : Nat := 1
/-- Maximum number of blocks any file system operation writes. -/
abbrev MAXOPBLOCKS : Nat := 10
/-- Maximum number of data blocks in the on-disk log. -/
abbrev LOGSIZE : Nat := MAXOPBLOCKS * 3
/-- Size of the disk block cache. -/
abbrev NBUF : Nat := MAXOPBLOCKS * 3
/-- Size of the file system in blocks. -/
abbrev FSSIZE : Nat := 1000
/-- Running processes are swapped out after this many clock ticks. -/
abbrev QUANTA : Int32 := 5

/-! ## `fs.h` -/

abbrev ROOTINO : Nat := 1
abbrev BSIZE : Nat := 512
/-- Direct block addresses of an inode. -/
abbrev NDIRECT : Nat := 12
/-- Block addresses in an indirect block. -/
abbrev NINDIRECT : Nat := BSIZE / 4
/-- The largest file, in blocks. -/
abbrev MAXFILE : Nat := NDIRECT + NINDIRECT
/-- Inodes per block: `sizeof(struct dinode)` is 64. -/
abbrev IPB : Nat := BSIZE / 64
/-- Bitmap bits per block. -/
abbrev BPB : Nat := BSIZE * 8
/-- Bytes of a directory entry's name. -/
abbrev DIRSIZ : Nat := 14

/-! ## `file.h`, `fcntl.h`, `mmu.h` and `elf.h` -/

/-- The major number of the console. -/
abbrev CONSOLE : Nat := 1
abbrev O_RDONLY : Nat := 0
abbrev O_WRONLY : Nat := 1
abbrev O_RDWR : Nat := 2
/-- Create the file if it does not exist. -/
abbrev O_CREATE : Nat := 0x200
abbrev PGSIZE : Nat := 4096
/-- The first word of an ELF file. -/
abbrev ELF_MAGIC : Nat := 0x464C457F
/-- The type of a program segment to load. -/
abbrev ELF_PROG_LOAD : Nat := 1

/-! ## `mkfs.c` -/

abbrev NINODES : Nat := 200

end Xv6
