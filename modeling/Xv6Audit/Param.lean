import Mathlib

/-! Limits of `kernel/param.h`, the flags of `kernel/fcntl.h`, and the inode types of
`kernel/stat.h`. -/
namespace Xv6Audit

abbrev NPROC : Nat := 64
abbrev NOFILE : Nat := 16
abbrev NFILE : Nat := 100
abbrev NINODE : Nat := 50
abbrev NDEV : Nat := 10

def O_RDONLY : Nat := 0x000
def O_WRONLY : Nat := 0x001
def O_RDWR : Nat := 0x002
def O_CREATE : Nat := 0x200
def O_TRUNC : Nat := 0x400

instance NPROC.neZero : NeZero NPROC := ⟨by decide⟩
instance NOFILE.neZero : NeZero NOFILE := ⟨by decide⟩
instance NFILE.neZero : NeZero NFILE := ⟨by decide⟩
instance NINODE.neZero : NeZero NINODE := ⟨by decide⟩

inductive InodeType where
  | dir
  | file
  | device
deriving DecidableEq

end Xv6Audit
