import Qizo.Layout
import Qizo.Lib.RealMode

/-!
# stage1

The boot sector, `boot/stage1.S`, with the boot trace assembled in, one label per label of the
source and one line per instruction. The return points of calls have names here.

The firmware enters at `start` with the sector at `0x7C00`, the drive in `dl`, and registers
and a stack of its own. `cli` and `cld` have no counterpart: interrupts are not modelled, and the
direction flag is clear.

## Where a run ends

`stage2Entry` is the far jump to the second stage. `halt` is the loop around `hlt` behind the error
message, with interrupts off.
-/

namespace Qizo

namespace Stage1

open Real Operand

/-- The labels of the boot sector. -/
inductive Label where
  | start | com1Back | driveOk | driveTry | driveCheck | driveNext | driveNone | driveGot
  | traceX | traceAh | traceCl | traceDrive
  | readChunk | chunkSet | readOk | goStage2 | stage2Entry
  | bootFail | failE | failErr | failDrive | print | halt
  | qizoTty | qizoTtyByte | ttyLow | ttyByteRet | qizoTtyNibble | ttyDec | ttyOut | ttyOutRet
  | qizoCom1Init
  deriving DecidableEq, Repr

open Label

/-- `movw $port, %dx; movb $v, %al; outb %al, %dx`. -/
def outPort (port v : ℕ) : List (Instr Label) :=
  [.op (mov 16 (imm port) dx), .op (mov 8 (imm v) ax), .op outb]

/-- `movb $v, %al; movw $0x3F8, %dx; outb %al, %dx`. -/
def trace (v : ℕ) : List (Instr Label) :=
  [.op (mov 8 (imm v) ax), .op (mov 16 (imm 0x3F8) dx), .op outb]

/-- The code. `cand` and `msg` are the addresses of `qizo_cand` and `qizo_fail_msg`. -/
def code (fw : Firmware) (cand msg : ℕ) : Label → Option (Block Label)
  | start => some ⟨[.call qizoCom1Init], com1Back⟩
  | com1Back => some ⟨trace 0x31 ++
      [.op (mov 8 (imm 0x3A) ax), .op outb,
       .op (xor 16 ax ax), .op movDs, .op movEs, .op movSs,
       .op (mov 16 (imm 0x7A00) sp),
       .op (mov 8 dx (abs (argAddr + argDrive))),
       .op (mov 8 dx (abs (argAddr + argBootdrive))),
       .op (mov 8 (imm 0) (abs (argAddr + argErr))),
       .op (mov 8 (imm 0x10) (abs dapAddr)),
       .op (mov 8 (imm 0) (abs (dapAddr + 1))),
       .op (cmp 8 (imm 0x80) dx),
       jae driveOk,
       .op (cmp 8 (imm 0xE0) dx),
       jae driveOk,
       .op (mov 8 (imm 0x80) dx),
       .op (mov 8 dx (abs (argAddr + argDrive)))], driveOk⟩
  | driveOk => some ⟨
      [.op (xor 16 di di),
       .op (mov 8 (imm 0) (abs (argAddr + argTry))),
       .op (mov 16 (imm cand) si)], driveTry⟩
  | driveTry => some ⟨
      [.op (mov 16 (imm 0x55AA) bx),
       .op (mov 8 (imm 0x41) ah),
       .op (int fw 0x13),
       jae driveCheck,
       .jmp driveNext], driveCheck⟩
  | driveCheck => some ⟨
      [.op (cmp 8 (imm 0x30) ah),
       jne driveNext,
       .op (test 8 (imm 2) cx),
       jne driveGot], driveNext⟩
  | driveNext => some ⟨
      [.op (inc 8 (abs (argAddr + argTry))),
       .op (cmp 8 (imm 4) (abs (argAddr + argTry))),
       jae driveNone,
       .op lodsb,
       .op (mov 8 ax (abs (argAddr + argDrive))),
       .op (mov 8 ax dx),
       .jmp driveTry], driveNone⟩
  | driveNone => some ⟨
      [.op (mov 8 (abs (argAddr + argBootdrive)) dx),
       .op (mov 8 dx (abs (argAddr + argDrive)))], driveGot⟩
  | driveGot => some ⟨
      [.op (mov 8 (abs (argAddr + argDrive)) dx),
       .op (mov 16 (imm 0x55AA) bx),
       .op (mov 8 (imm 0x41) ah),
       .op (int fw 0x13),
       .op (pushw ax),
       .op (pushw cx),
       .op (mov 8 (imm 0x58) ax),
       .call qizoTty], traceX⟩
  | traceX => some ⟨[.op (mov 8 ah ax), .call qizoTtyByte], traceAh⟩
  | traceAh => some ⟨[.op (mov 8 cx ax), .call qizoTtyByte], traceCl⟩
  | traceCl => some ⟨[.op (mov 8 (abs (argAddr + argDrive)) ax), .call qizoTtyByte], traceDrive⟩
  | traceDrive => some ⟨
      [.op (popw cx),
       .op (popw ax),
       .op (mov 16 (imm dapAddr) bx),
       .op (mov 16 (imm dapAddr) si)], readChunk⟩
  | readChunk => some ⟨
      [.op (mov 16 (abs (argAddr + argTotal)) ax),
       .op (sub 16 di ax),
       jbe goStage2,
       .op (cmp 16 (imm 64) ax),
       jbe chunkSet,
       .op (mov 16 (imm 64) ax)], chunkSet⟩
  | chunkSet => some ⟨
      [.op (mov 16 ax (abs (dapAddr + 2))),
       .op (mov 32 di ax),
       .op (shl 32 9 ax),
       .op (mov 32 (imm stage2Seg) dx),
       .op (shl 32 4 dx),
       .op (add 32 dx ax),
       .op (mov 32 ax cx),
       .op (shr 32 4 ax),
       .op (mov 16 ax (abs (dapAddr + 6))),
       .op (and 32 (imm 0x000F) cx),
       .op (mov 16 cx (abs (dapAddr + 4))),
       .op (mov 32 (abs (argAddr + argLba)) ax),
       .op (add 32 di ax),
       .op (mov 32 ax (abs (dapAddr + 8))),
       .op (mov 32 (imm 0) (abs (dapAddr + 12))),
       .op (mov 8 (imm 0x42) ah),
       .op (mov 8 (abs (argAddr + argDrive)) dx),
       .op (int fw 0x13),
       jae readOk,
       .op (mov 8 ah (abs (argAddr + argErr))),
       .jmp bootFail], readOk⟩
  | readOk => some ⟨trace 0x52 ++
      [.op (mov 16 (abs (dapAddr + 2)) ax),
       .op (add 16 ax di),
       .jmp readChunk], goStage2⟩
  | goStage2 => some ⟨trace 0x4A ++ [.jmp stage2Entry], stage2Entry⟩
  | stage2Entry => none
  | bootFail => some ⟨[.op (mov 8 (imm 0x45) ax), .call qizoTty], failE⟩
  | failE => some ⟨[.op (mov 8 (abs (argAddr + argErr)) ax), .call qizoTtyByte], failErr⟩
  | failErr => some ⟨[.op (mov 8 (abs (argAddr + argDrive)) ax), .call qizoTtyByte], failDrive⟩
  | failDrive => some ⟨[.op (mov 16 (imm msg) si), .op (xor 16 bx bx), .jmp print], print⟩
  | print => some ⟨
      [.op lodsb,
       .op (test 8 ax ax),
       je halt,
       .op (mov 8 (imm 0x0E) ah),
       .op (xor 16 bx bx),
       .op (mov 8 ax dx),
       .op (int fw 0x10),
       .jmp print], halt⟩
  | halt => none
  | qizoTty => some ⟨[.op (mov 16 (imm 0x3F8) dx), .op outb, .ret], qizoTtyByte⟩
  | qizoTtyByte => some ⟨
      [.op (mov 8 ax ah),
       .op (shr 8 4 ax),
       .call qizoTtyNibble], ttyLow⟩
  | ttyLow => some ⟨
      [.op (mov 8 ah ax),
       .op (and 8 (imm 0x0F) ax),
       .call qizoTtyNibble], ttyByteRet⟩
  | ttyByteRet => some ⟨[.ret], qizoTtyNibble⟩
  | qizoTtyNibble => some ⟨
      [.op (cmp 8 (imm 9) ax),
       jbe ttyDec,
       .op (add 8 (imm 0x37) ax),
       .jmp ttyOut], ttyDec⟩
  | ttyDec => some ⟨[.op (add 8 (imm 0x30) ax)], ttyOut⟩
  | ttyOut => some ⟨[.call qizoTty], ttyOutRet⟩
  | ttyOutRet => some ⟨[.ret], qizoCom1Init⟩
  | qizoCom1Init => some ⟨outPort 0x3FB 0x83 ++ outPort 0x3F8 0x01 ++ outPort 0x3F9 0x00 ++
      outPort 0x3FB 0x03 ++ outPort 0x3F2 0xC7 ++ outPort 0x3FD 0x0B ++ [.ret], qizoCom1Init⟩

/-- One block of the boot sector. -/
def step (fw : Firmware) (cand msg : ℕ) (k : Link Label) : Label × Cpu → Option (Label × Cpu) :=
  Real.step k (code fw cand msg)

end Stage1

end Qizo
