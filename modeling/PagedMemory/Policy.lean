/-!
# Frame policies

What a client that asks for a frame allows the pool to do, and what it needs of the frame.
-/

namespace PagedMemory

/-- A set of wishes about a frame, kept as a word: bits without a meaning are passed on. -/
structure FramePolicy where
  bits : UInt32
  deriving DecidableEq, Inhabited

inductive PolicyFlag where
  /-- the caller can wait -/
  | mayBlock
  /-- devices may be used to make room -/
  | mayUseDevices
  /-- file systems may be used to make room -/
  | mayUseFiles
  /-- a frame outside the direct map is good enough -/
  | highMemory
  /-- the frame has to be all zero -/
  | zero
  /-- the frame has to lie in low memory -/
  | lowMemory
  deriving DecidableEq

def PolicyFlag.mask : PolicyFlag → UInt32
  | mayBlock => 0x1
  | mayUseDevices => 0x2
  | mayUseFiles => 0x4
  | highMemory => 0x8
  | zero => 0x10
  | lowMemory => 0x20

namespace FramePolicy

def has (p : FramePolicy) (f : PolicyFlag) : Bool := (p.bits &&& f.mask) != 0

def set (p : FramePolicy) (f : PolicyFlag) (on : Bool) : FramePolicy :=
  ⟨if on then p.bits ||| f.mask else p.bits &&& ~~~f.mask⟩

/-- A frame for the kernel's own structures. -/
def kernel : FramePolicy :=
  (((⟨0⟩ : FramePolicy).set .mayBlock true).set .mayUseDevices true).set .mayUseFiles true

/-- A frame that is reached through page tables only. -/
def kernelHigh : FramePolicy := kernel.set .highMemory true

/-- A frame that a device with 32 address lines can reach. -/
def kernelLow : FramePolicy := kernel.set .lowMemory true

/-- The policy for frames that hold the handles of frames taken under `p`: read through the
direct map, and all zero at the start. -/
def forHandles (p : FramePolicy) : FramePolicy := (p.set .highMemory false).set .zero true

end FramePolicy

end PagedMemory
