import Mathlib.Data.Nat.Notation

/-!
# The boot layout

The constants of `boot/qizoboot.inc`, which the assembly includes and the Python tools parse, and
the few that `tools/common/qizolayout.py` derives from them. Symbols that no embedded function
reads are left out.
-/

namespace Qizo

/-! ### Disk -/

/-- `SECTOR`. -/
def sector : ℕ := 512
/-- `QIZO_PART_LBA`, the first sector stage1 reads. -/
def partLba : ℕ := 16
/-- `QIZO_STAGE2_SECTORS`. -/
def stage2Sectors : ℕ := 8
/-- `QIZO_STAGE2_BYTES`. -/
def stage2Bytes : ℕ := 0x1000
/-- `QIZO_BLOB_LBA`. -/
def blobLba : ℕ := 24
/-- `QIZO_BLOB_MAX`. -/
def blobMax : ℕ := 248 * 512

/-! ### The argument block of stage1 -/

/-- `QIZO_BIOS_ARG`. -/
def biosArg : ℕ := 0x7DD0
/-- `QIZO_ARG_DRIVE`. -/
def argDrive : ℕ := 0
/-- `QIZO_ARG_LBA`. -/
def argLba : ℕ := 4
/-- `QIZO_ARG_TOTAL`. -/
def argTotal : ℕ := 8
/-- `QIZO_ARG_CRC`. -/
def argCrc : ℕ := 12
/-- `QIZO_ARG_ADDR`. -/
def argAddr : ℕ := 0x7DD0
/-- `QIZO_ARG_BOOTDRIVE`. -/
def argBootdrive : ℕ := 1
/-- `QIZO_ARG_TRY`. -/
def argTry : ℕ := 2
/-- `QIZO_ARG_ERR`. -/
def argErr : ℕ := 16
/-- `QIZO_DAP_ADDR`, the disk address packet. -/
def dapAddr : ℕ := 0x7E00
/-- `STAGE1_ARGS_OFF`, the argument block inside the sector loaded at `0x7C00`. -/
def stage1ArgsOff : ℕ := biosArg - 0x7C00

/-! ### Memory -/

/-- `QIZO_STAGE2`. -/
def stage2 : ℕ := 0x20000
/-- `QIZO_STAGE2_SEG`. -/
def stage2Seg : ℕ := 0x2000
/-- `QIZO_BLOB_PHYS`. -/
def blobPhys : ℕ := 0x21000
/-- `QIZO_E820_BUF`. -/
def e820Buf : ℕ := 0x41000
/-- `QIZO_E820_SEG`. -/
def e820Seg : ℕ := 0x4100
/-- `QIZO_E820_CNT`. -/
def e820Cnt : ℕ := 0x41300
/-- `QIZO_E820_CNT_OFS`. -/
def e820CntOfs : ℕ := 0x300
/-- `QIZO_PM_STACK`. -/
def pmStack : ℕ := 0x44000
/-- `QIZO_BOOTINFO`. -/
def bootinfo : ℕ := 0x10000
/-- `QIZO_BOOTINFO_SEG`. -/
def bootinfoSeg : ℕ := 0x1000
/-- `QIZO_SCRATCH`. -/
def scratch : ℕ := 0x180000
/-- `QIZO_KTEXT`. -/
def ktext : ℕ := 0x100000
/-- `QIZO_PAGE_PML4`. -/
def pagePml4 : ℕ := 0x300000
/-- `QIZO_PAGE_PDPT`. -/
def pagePdpt : ℕ := 0x301000
/-- `QIZO_PAGE_PDT`. -/
def pagePdt : ℕ := 0x302000
/-- `QIZO_IDT_BOOT`. -/
def idtBoot : ℕ := 0x307000
/-- `QIZO_PT_PAGE`. -/
def ptPage : ℕ := 0x83
/-- `QIZO_PT_DIR`. -/
def ptDir : ℕ := 0x03

/-! ### Fields of bootinfo -/

/-- `QIZO_BI_MAGIC`. -/
def biMagic : ℕ := 0
/-- `QIZO_BI_DRIVE`. -/
def biDrive : ℕ := 4
/-- `QIZO_BI_MODE`. -/
def biMode : ℕ := 5
/-- `QIZO_BI_ERR`. -/
def biErr : ℕ := 6
/-- `QIZO_BI_BLOB_LBA`. -/
def biBlobLba : ℕ := 8
/-- `QIZO_BI_BLOB_SECTORS`. -/
def biBlobSectors : ℕ := 12
/-- `QIZO_BI_BLOB_CRC`. -/
def biBlobCrc : ℕ := 16
/-- `QIZO_BI_BLOB_PHYS`. -/
def biBlobPhys : ℕ := 20
/-- `QIZO_BI_BLOB_SIZE`. -/
def biBlobSize : ℕ := 24
/-- `QIZO_BI_SCRATCH`. -/
def biScratch : ℕ := 28
/-- `QIZO_BI_KTEXT`. -/
def biKtext : ℕ := 0x30
/-- `QIZO_BI_KERNEL_SIZE`. -/
def biKernelSize : ℕ := 0x34
/-- `QIZO_BI_KERNEL_ENTRY`. -/
def biKernelEntry : ℕ := 0x38
/-- `QIZO_BI_KERNEL_TOTAL`. -/
def biKernelTotal : ℕ := 0x3C
/-- `QIZO_BI_KERNEL_BSS`. -/
def biKernelBss : ℕ := 0x40
/-- `QIZO_BI_FLAGS`. -/
def biFlags : ℕ := 0x44
/-- `QIZO_BI_CPUS`. -/
def biCpus : ℕ := 0x50
/-- `QIZO_BI_CPUID_MAX`. -/
def biCpuidMax : ℕ := 0x54
/-- `QIZO_BI_LONGMODE`. -/
def biLongmode : ℕ := 0x58
/-- `QIZO_BI_A20`. -/
def biA20 : ℕ := 0x59
/-- `QIZO_BI_E820`. -/
def biE820 : ℕ := 0x100
/-- `QIZO_BI_E820_N`. -/
def biE820N : ℕ := 0x400
/-- `QIZO_BI_VENDOR`. -/
def biVendor : ℕ := 0x600
/-- `QIZO_BI_BRAND`. -/
def biBrand : ℕ := 0x610
/-- `QIZO_BI_TOTAL_RAM`. -/
def biTotalRam : ℕ := 0x670
/-- `QIZO_BI_SIZE`. -/
def biSize : ℕ := 0x700

/-! ### Formats and limits -/

/-- `QIZO_QIZOK_MAGIC`. -/
def qizokMagic : ℕ := 0x4B4F5A49
/-- `QIZO_QIZOK_HDR`. -/
def qizokHdr : ℕ := 64
/-- `QIZO_E820_ENT`. -/
def e820Ent : ℕ := 24
/-- `QIZO_E820_MAX`. -/
def e820Max : ℕ := 32
/-- `QIZO_KERNEL_MAX`. -/
def kernelMax : ℕ := 0x80000
/-- `QIZO_BOOTVER`. -/
def bootver : ℕ := 0x0100

end Qizo
