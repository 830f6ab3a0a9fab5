/-
# LostWakeup.Fs.Fat32.Fcb — what a short directory entry and the inode of its file say about each other.

A short entry is 32 bytes of its directory.  Loading an inode copies fields out of the entry and
`fat32_inode_update` copies fields back; neither copies all of them, and the size of a directory or a
device file is not kept in the entry at all.
-/
import Mathlib.Data.UInt
import LostWakeup.Fs.Fat32.LongName

namespace LostWakeup.Fs.Fat32.Fcb

open Fs.Fat32.LongName (ATTR_DIRECTORY ATTR_ARCHIVE)

/-! ## File types -/

def S_IFMT : UInt32 := 0o170000
def S_IFREG : UInt32 := 0o100000
def S_IFBLK : UInt32 := 0o060000
def S_IFDIR : UInt32 := 0o040000
def S_IFCHR : UInt32 := 0o020000

def S_ISREG (mode : UInt32) : Bool := mode &&& S_IFMT == S_IFREG
def S_ISDIR (mode : UInt32) : Bool := mode &&& S_IFMT == S_IFDIR
def S_ISCHR (mode : UInt32) : Bool := mode &&& S_IFMT == S_IFCHR
def S_ISBLK (mode : UInt32) : Bool := mode &&& S_IFMT == S_IFBLK

def DIR_BOOL (attr : UInt8) : Bool := attr &&& ATTR_DIRECTORY != 0

/-! ## Entries and inodes -/

/-- The 32 bytes of a short entry. -/
structure dirent_s_t where
  DIR_Name : Vector UInt8 11
  DIR_Attr : UInt8
  DIR_Dev : UInt8
  DIR_CrtTimeTenth : UInt8
  DIR_CrtTime : UInt16
  DIR_CrtDate : UInt16
  DIR_LstAccDate : UInt16
  DIR_FstClusHI : UInt16
  DIR_WrtTime : UInt16
  DIR_WrtDate : UInt16
  DIR_FstClusLO : UInt16
  DIR_FileSize : UInt32
  deriving DecidableEq

/-- The part of `struct inode`, its `fat32_i` included, that goes into the entry or comes out of it. -/
structure inode_info where
  i_mode : UInt32
  i_rdev : UInt16
  i_size : UInt32
  Attr : UInt8
  DIR_CrtTimeTenth : UInt8
  DIR_CrtTime : UInt16
  DIR_CrtDate : UInt16
  DIR_LstAccDate : UInt16
  cluster_start : UInt32
  DIR_WrtTime : UInt16
  DIR_WrtDate : UInt16
  DIR_FileSize : UInt32
  deriving DecidableEq, Inhabited

def DIR_FIRST_HIGH (x : UInt32) : UInt16 := (x >>> 16).toUInt16
def DIR_FIRST_LOW (x : UInt32) : UInt16 := (x &&& 0xFFFF).toUInt16
def DIR_FIRST_CLUS (high low : UInt16) : UInt32 := high.toUInt32 <<< 16 ||| low.toUInt32

def MAJOR (rdev : UInt16) : UInt16 := rdev >>> 8 &&& 0xFF
def MINOR (rdev : UInt16) : UInt16 := rdev &&& 0xFF

def ITYPE_TO_FATDEV (type : UInt32) : UInt8 := ((type &&& S_IFMT) >>> 8).toUInt8
def FATDEV_TO_ITYPE (dev : UInt8) : UInt32 := (dev &&& 0xF0).toUInt32 <<< 8
def FATDEV_TO_IRDEV (dev : UInt8) : UInt16 := ((dev &&& 0xC) >>> 2).toUInt16 <<< 8 ||| (dev &&& 0x3).toUInt16

def inode_update_to_fatdev (i_mode : UInt32) (i_rdev : UInt16) : UInt8 :=
  ITYPE_TO_FATDEV i_mode ||| ((MAJOR i_rdev &&& 0x3) <<< 2 ||| MINOR i_rdev &&& 0x3).toUInt8

/-- The size that the entry of a file is to have: those of directories and devices are not kept there. -/
def inode_info.DirFileSize (ip : inode_info) : UInt32 :=
  if S_ISDIR ip.i_mode || S_ISCHR ip.i_mode || S_ISBLK ip.i_mode then 0 else ip.i_size

/-- The entry as `fat32_inode_update` leaves it. -/
def update_fcb (ip : inode_info) (fcb : dirent_s_t) : dirent_s_t :=
  { fcb with
    DIR_Attr := ip.Attr
    DIR_LstAccDate := ip.DIR_LstAccDate
    DIR_WrtDate := ip.DIR_WrtDate
    DIR_WrtTime := ip.DIR_WrtTime
    DIR_FstClusHI := DIR_FIRST_HIGH ip.cluster_start
    DIR_FstClusLO := DIR_FIRST_LOW ip.cluster_start
    DIR_FileSize := ip.DirFileSize
    DIR_Dev := inode_update_to_fatdev ip.i_mode ip.i_rdev }

/-- The type and the size that `fat32_inode_load_from_disk` takes from an entry; `dirLength` is `DIRLENGTH`,
what the cluster chain of the file holds. -/
def loaded_type (dirLength : UInt32) (fcb : dirent_s_t) : UInt32 × UInt32 :=
  let mode := FATDEV_TO_ITYPE fcb.DIR_Dev
  if S_ISCHR mode || S_ISBLK mode then (mode, 0)
  else if DIR_BOOL fcb.DIR_Attr then (S_IFDIR, dirLength)
  else (S_IFREG, fcb.DIR_FileSize)

/-- `fat32_inode_load_from_disk`.  The creation date is read twice and the write date never. -/
def load_fcb (dirLength : UInt32) (fcb : dirent_s_t) (ip : inode_info) : inode_info :=
  { ip with
    i_mode := (loaded_type dirLength fcb).1 ||| 0o777
    i_rdev := FATDEV_TO_IRDEV fcb.DIR_Dev
    i_size := (loaded_type dirLength fcb).2
    Attr := fcb.DIR_Attr
    DIR_CrtTimeTenth := fcb.DIR_CrtTimeTenth
    DIR_CrtTime := fcb.DIR_CrtTime
    DIR_CrtDate := fcb.DIR_CrtDate
    DIR_LstAccDate := fcb.DIR_LstAccDate
    cluster_start := DIR_FIRST_CLUS fcb.DIR_FstClusHI fcb.DIR_FstClusLO
    DIR_WrtTime := fcb.DIR_WrtTime
    DIR_FileSize := fcb.DIR_FileSize }

/-- The short entry that `fat32_fcb_init` makes for a new file. -/
def fcb_init (name : Vector UInt8 11) (type first_c : UInt32) : dirent_s_t where
  DIR_Name := name
  DIR_Attr := if S_ISDIR type then ATTR_DIRECTORY else ATTR_ARCHIVE
  DIR_Dev := ITYPE_TO_FATDEV type
  DIR_CrtTimeTenth := 0
  DIR_CrtTime := 0
  DIR_CrtDate := 0
  DIR_LstAccDate := 0
  DIR_FstClusHI := DIR_FIRST_HIGH first_c
  DIR_WrtTime := 0
  DIR_WrtDate := 0
  DIR_FstClusLO := DIR_FIRST_LOW first_c
  DIR_FileSize := 0

/-! ## What agrees -/

theorem s_isreg_or (mode : UInt32) : S_ISREG (mode ||| 0o777) = S_ISREG mode := by
  have hbits : (0o777 : BitVec 32) &&& S_IFMT.toBitVec = 0 := by decide
  have hmask : (mode ||| 0o777) &&& S_IFMT = mode &&& S_IFMT := by
    rw [← UInt32.toBitVec_inj]
    show (mode.toBitVec ||| 0o777) &&& S_IFMT.toBitVec = mode.toBitVec &&& S_IFMT.toBitVec
    rw [BitVec.and_or_distrib_right, hbits]
    exact BitVec.or_zero
  unfold S_ISREG
  rw [hmask]

theorem s_isreg_dir : S_ISREG (S_IFDIR ||| 0o777) = false := by decide

theorem dir_bool_directory : DIR_BOOL ATTR_DIRECTORY = true := by decide

theorem DirFileSize_of_reg {ip : inode_info} (h : S_ISREG ip.i_mode = true) : ip.DirFileSize = ip.i_size := by
  have hmode : ip.i_mode &&& S_IFMT = S_IFREG := by simpa [S_ISREG] using h
  simp [inode_info.DirFileSize, S_ISDIR, S_ISCHR, S_ISBLK, hmode, S_IFREG, S_IFDIR, S_IFCHR, S_IFBLK]

theorem loaded_type_of_reg {dirLength : UInt32} {fcb : dirent_s_t}
    (h : S_ISREG (loaded_type dirLength fcb).1 = true) :
    DIR_BOOL fcb.DIR_Attr = false ∧ (loaded_type dirLength fcb).2 = fcb.DIR_FileSize := by
  unfold loaded_type at h ⊢
  rcases hdev : S_ISCHR (FATDEV_TO_ITYPE fcb.DIR_Dev) || S_ISBLK (FATDEV_TO_ITYPE fcb.DIR_Dev) with _ | _
  · rcases hdir : DIR_BOOL fcb.DIR_Attr with _ | _
    · simp only [hdev, Bool.false_eq_true, if_false, and_self]
    · -- a directory is not regular
      simp only [hdev, hdir, Bool.false_eq_true, if_false, if_true] at h
      cases h
  · exfalso
    simp only [hdev, if_true] at h
    have hmode : FATDEV_TO_ITYPE fcb.DIR_Dev &&& S_IFMT = S_IFREG := by simpa [S_ISREG] using h
    simp [S_ISCHR, S_ISBLK, hmode, S_IFREG, S_IFCHR, S_IFBLK] at hdev

theorem load_size {dirLength : UInt32} {fcb : dirent_s_t} {ip : inode_info}
    (h : S_ISREG (load_fcb dirLength fcb ip).i_mode = true) : (load_fcb dirLength fcb ip).i_size = fcb.DIR_FileSize :=
  (loaded_type_of_reg ((s_isreg_or _).symm.trans h)).2

theorem load_attr {dirLength : UInt32} {fcb : dirent_s_t} {ip : inode_info}
    (h : S_ISREG (load_fcb dirLength fcb ip).i_mode = true) : DIR_BOOL (load_fcb dirLength fcb ip).Attr = false :=
  (loaded_type_of_reg ((s_isreg_or _).symm.trans h)).1

theorem update_size {ip : inode_info} (h : S_ISREG ip.i_mode = true) (fcb : dirent_s_t) :
    (update_fcb ip fcb).DIR_FileSize = ip.i_size := DirFileSize_of_reg h

end LostWakeup.Fs.Fat32.Fcb
