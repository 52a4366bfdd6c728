import Mathlib.Data.BitVec
import Mathlib.Data.List.Nodup

/-! # Packets, OpenMAX buffers, time stamps and flags

    The data the threads pass to each other: `packet_t` of `packet_queue.h`,
    the OpenMAX buffer header, and the two conversions between a PTS and
    `OMX_TICKS` of `omx.c`.  The flag values are the OpenMAX header's; all
    that is used of them is that each is one bit and no two are the same. -/

namespace OmxPacket

abbrev Bytes := List UInt8

/-- A block of bytes whose size fits an `int`. -/
abbrev Payload := { data : Bytes // data.length < 2 ^ 31 }

/-- An `int` converted to a 32-bit unsigned number. -/
def u32 (x : Int) : Nat := (x % 2 ^ 32).toNat

/-- A 32-bit unsigned number converted to `int`. -/
def i32 (x : Nat) : Int := if x < 2 ^ 31 then x else (x : Int) - 2 ^ 32

/-- `packet_t`; `data_length` is the number of bytes `data` points to, an
    `int`. -/
structure packet_t where
  data : Bytes
  PTS : Int64
  DTS : Int64
  duration : Int
  flags : BitVec 32
  fits : data.length < 2 ^ 31
  deriving DecidableEq

def packet_t.data_length (p : packet_t) : Int := p.data.length

/-- What `malloc` leaves in a packet, if it leaves zeros. -/
def zeros : packet_t := ⟨[], 0, 0, 0, 0, by decide⟩

/-! ## Flags -/

/-- Which bit each OpenMAX buffer flag is, and libavcodec's key frame mask. -/
structure Constants where
  STARTTIME : Fin 32
  TIME_UNKNOWN : Fin 32
  SYNCFRAME : Fin 32
  ENDOFFRAME : Fin 32
  EOS : Fin 32
  ENDOFNAL : Fin 32
  AV_PKT_FLAG_KEY : BitVec 32
  distinct : [STARTTIME, TIME_UNKNOWN, SYNCFRAME, ENDOFFRAME, EOS,
    ENDOFNAL].Nodup

/-- The values in the headers of OpenMAX IL and of libavcodec. -/
def Constants.il : Constants where
  STARTTIME := 1
  TIME_UNKNOWN := 8
  SYNCFRAME := 5
  ENDOFFRAME := 4
  EOS := 0
  ENDOFNAL := 10
  AV_PKT_FLAG_KEY := 1
  distinct := by decide

/-- The mask of a bit. -/
def flag (i : Fin 32) : BitVec 32 := BitVec.twoPow 32 i

def Constants.OMX_BUFFERFLAG_STARTTIME (C : Constants) : BitVec 32 :=
  flag C.STARTTIME

def Constants.OMX_BUFFERFLAG_TIME_UNKNOWN (C : Constants) : BitVec 32 :=
  flag C.TIME_UNKNOWN

def Constants.OMX_BUFFERFLAG_SYNCFRAME (C : Constants) : BitVec 32 :=
  flag C.SYNCFRAME

def Constants.OMX_BUFFERFLAG_ENDOFFRAME (C : Constants) : BitVec 32 :=
  flag C.ENDOFFRAME

def Constants.OMX_BUFFERFLAG_EOS (C : Constants) : BitVec 32 := flag C.EOS

def Constants.OMX_BUFFERFLAG_ENDOFNAL (C : Constants) : BitVec 32 :=
  flag C.ENDOFNAL

/-- The C test `flags & mask`. -/
def isOn (flags mask : BitVec 32) : Bool := flags &&& mask != 0#32

theorem isOn_or_flag (x y : BitVec 32) (i : Fin 32) :
    isOn (x ||| y) (flag i) = (isOn x (flag i) || isOn y (flag i)) := by
  have htest : ∀ z : BitVec 32, isOn z (flag i) = z.getLsbD i := by
    intro z
    show (z &&& BitVec.twoPow 32 i != 0#32) = _
    have hne : BitVec.twoPow 32 i ≠ 0#32 := by
      intro he
      have hb := congrArg (fun v => v.getLsbD i) he
      simp [i.isLt] at hb
    rw [BitVec.and_twoPow]
    by_cases hz : z.getLsbD i = true
    · rw [if_pos hz, hz]
      exact bne_iff_ne.mpr hne
    · rw [if_neg hz]
      exact (Bool.not_eq_true _ ▸ hz).symm
  rw [htest, htest, htest, BitVec.getLsbD_or]

theorem isOn_flag_flag (i j : Fin 32) :
    isOn (flag i) (flag j) = decide (i = j) := by
  revert i j
  decide

/-! ## Time stamps -/

structure AVRational where
  num : Int
  den : Int
  deriving DecidableEq

def AV_NOPTS_VALUE : Int64 := Int64.minValue

structure OMX_TICKS where
  nLowPart : UInt32
  nHighPart : UInt32
  deriving DecidableEq

def pts_to_omx (pts : UInt64) : OMX_TICKS where
  nLowPart := pts.toUInt32
  nHighPart := (pts >>> 32).toUInt32

def omx_to_pts (ticks : OMX_TICKS) : UInt64 :=
  ticks.nHighPart.toUInt64 <<< 32 ||| ticks.nLowPart.toUInt64

/-- Bit by bit, the two halves give the word back. -/
private theorem halves (x : BitVec 64) :
    ((x >>> 32).setWidth 32).setWidth 64 <<< 32
      ||| (x.setWidth 32).setWidth 64 = x := by
  apply BitVec.eq_of_getLsbD_eq
  intro i hi
  simp only [BitVec.getLsbD_or, BitVec.getLsbD_shiftLeft,
    BitVec.getLsbD_setWidth, BitVec.getLsbD_ushiftRight]
  by_cases h : i < 32
  · simp [h, hi]
  · have h1 : i - 32 < 32 := by omega
    have h2 : 32 + (i - 32) = i := by omega
    have h3 : i - 32 < 64 := by omega
    simp [h, hi, h1, h2, h3]

/-- The two conversions are inverse. -/
theorem omx_to_pts_pts_to_omx (pts : UInt64) :
    omx_to_pts (pts_to_omx pts) = pts := by
  apply UInt64.toBitVec_inj.mp
  exact halves pts.toBitVec

/-! ## Buffers -/

/-- `memcpy` of `n` bytes over the front of `dst`; reading or writing past
    the end of either block is a fault. -/
def memcpy (dst src : Bytes) (n : Nat) :
    Option { l : Bytes // l.length = dst.length } :=
  if h : n ≤ src.length ∧ n ≤ dst.length then
    some ⟨src.take n ++ dst.drop n, by
      rw [List.length_append, List.length_take, List.length_drop]
      omega⟩
  else none

/-- The members of `OMX_BUFFERHEADERTYPE` the program uses; `pBuffer` is the
    block of `nAllocLen` bytes. -/
structure OMX_BUFFERHEADERTYPE where
  pBuffer : Bytes
  nAllocLen : UInt32
  nFilledLen : UInt32
  nTimeStamp : OMX_TICKS
  nFlags : BitVec 32
  sized : pBuffer.length = nAllocLen.toNat
  deriving DecidableEq

/-- The bytes a submitted buffer carries. -/
def OMX_BUFFERHEADERTYPE.filled (b : OMX_BUFFERHEADERTYPE) : Bytes :=
  b.pBuffer.take b.nFilledLen.toNat

end OmxPacket
