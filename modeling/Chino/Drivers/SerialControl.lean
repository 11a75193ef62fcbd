import Chino.Drivers.HostSerial
import Chino.Library.Bits

/-!
# The settings of the serial port

`host_serial_device::fast_control` translates between `termios` and what the host keeps for a port:
a `DCB`, whose flags are bit-fields, and a `COMMTIMEOUTS`.  For each group of flags there is a
function that writes the fields and one that reads them back, and the two are inverse to each other:
reading back is `copyBits` of the mask of the group.  The timeouts have four cases, of which one is
told apart from the others by a field that has its largest value.

The two flow control flags have no such functions.  They are assigned to bit-fields of one and two
bits without being shifted, and both from `CCTS_OFLOW`, so the fields are always zero
(`setWidth_and_cctsOflow`); that is when the settings come back changed (`tcgets_tcsets_iff`).

A call of the host succeeds or fails with an error; which is up to the environment.  `unsigned long`
has 32 bits on the host.

## The groups

Every group of flags is a pair of functions and one lemma, which says that reading back what was
written gives the bits of the group and leaves the others alone: parity, stop bits and size.  As the
masks are disjoint, the order of the writes does not matter, and `readDcb_writeDcb` puts the groups
together with `Chino.Library.Bits`.  The size is the exception in the other direction: reading only
adds its bits, which is right because `TCGETS` starts from zero.

`Returns` is what `TCGETS` is to return after `TCSETS` of `t`: the flags that the port keeps, the
speed, and the timeouts as far as a port can express them.  `returns_iff` computes when it does, and
`tcgets_tcsets_iff` turns this into a condition on `c_cflag` of what was set: neither flow control
flag is there.
-/

set_option autoImplicit false

namespace Chino

/-! ## The data -/

/-- The members of a `DCB` that the driver uses.  A bit-field has as many bits as the host
declares. -/
structure Dcb where
  baudRate : BitVec 32
  fParity : BitVec 1
  fOutxCtsFlow : BitVec 1
  fDtrControl : BitVec 2
  fDsrSensitivity : BitVec 1
  fOutX : BitVec 1
  fInX : BitVec 1
  fRtsControl : BitVec 2
  byteSize : BitVec 8
  parity : BitVec 8
  stopBits : BitVec 8

/-- `COMMTIMEOUTS` -/
structure CommTimeouts where
  readIntervalTimeout : BitVec 32
  readTotalTimeoutMultiplier : BitVec 32
  readTotalTimeoutConstant : BitVec 32
  writeTotalTimeoutMultiplier : BitVec 32
  writeTotalTimeoutConstant : BitVec 32

/-- `termios` -/
structure Termios where
  cIflag : BitVec 32
  cOflag : BitVec 32
  cCflag : BitVec 32
  cLflag : BitVec 32
  cCc : ℕ → BitVec 8
  cSpeed : BitVec 32

/-- What the host keeps for a port. -/
structure SerialPort where
  dcb : Dcb
  timeouts : CommTimeouts

namespace Termios

/-- `*term = {}` -/
def zero : Termios := ⟨0, 0, 0, 0, fun _ ↦ 0, 0⟩

/-- `CSIZE`, and the sizes -/
def csize : BitVec 32 := 3#32 <<< 4
/-- `CS5` -/
def cs5 : BitVec 32 := 0#32 <<< 4
/-- `CS6` -/
def cs6 : BitVec 32 := 1#32 <<< 4
/-- `CS7` -/
def cs7 : BitVec 32 := 2#32 <<< 4
/-- `CS8` -/
def cs8 : BitVec 32 := 3#32 <<< 4

/-- `CSTOPB` -/
def cstopb : BitVec 32 := 1#32 <<< 6
/-- `PARENB` -/
def parenb : BitVec 32 := 1#32 <<< 8
/-- `PARODD` -/
def parodd : BitVec 32 := 1#32 <<< 9
/-- `CCTS_OFLOW` -/
def cctsOflow : BitVec 32 := 1#32 <<< 29
/-- `CRTS_IFLOW` -/
def crtsIflow : BitVec 32 := 1#32 <<< 31

/-- `VTIME` -/
def vtime : ℕ := 5
/-- `VMIN` -/
def vmin : ℕ := 6

/-- `set_bits` of `chino/bits.h` -/
def setBits (dest mask : BitVec 32) (enable : Bool) : BitVec 32 :=
  if enable then dest ||| mask else dest &&& ~~~mask

/-- Bits of `c_cflag` are set or cleared. -/
def setCflag (term : Termios) (mask : BitVec 32) (enable : Bool) : Termios :=
  { term with cCflag := setBits term.cCflag mask enable }

/-- An entry of `c_cc` is written. -/
def setCc (term : Termios) (i : ℕ) (c : BitVec 8) : Termios :=
  { term with cCc := Function.update term.cCc i c }

/-! ## Encoders and decoders -/

/-- The parity of the host goes to the `termios`. -/
def getParity (term : Termios) (dcb : Dcb) : Termios :=
  (term.setCflag parenb (dcb.fParity ≠ 0)).setCflag parodd (dcb.parity = 1)

/-- `ODDPARITY` is 1, `EVENPARITY` is 2 and `NOPARITY` is 0. -/
def setParity (dcb : Dcb) (term : Termios) : Dcb :=
  if term.cCflag &&& parenb ≠ 0 then
    if term.cCflag &&& parodd ≠ 0 then { dcb with fParity := 1, parity := 1 }
    else { dcb with fParity := 1, parity := 2 }
  else { dcb with fParity := 0, parity := 0 }

/-- So does the number of stop bits. -/
def getStopbits (term : Termios) (dcb : Dcb) : Termios := term.setCflag cstopb (dcb.stopBits = 2)

/-- `TWOSTOPBITS` is 2 and `ONESTOPBIT` is 0. -/
def setStopbits (dcb : Dcb) (term : Termios) : Dcb :=
  if term.cCflag &&& cstopb ≠ 0 then { dcb with stopBits := 2 } else { dcb with stopBits := 0 }

/-- The bits of the size are only added, to what is there. -/
def getBytesize (term : Termios) (dcb : Dcb) : Termios :=
  if dcb.byteSize = 5 then { term with cCflag := term.cCflag ||| cs5 }
  else if dcb.byteSize = 6 then { term with cCflag := term.cCflag ||| cs6 }
  else if dcb.byteSize = 7 then { term with cCflag := term.cCflag ||| cs7 }
  else if dcb.byteSize = 8 then { term with cCflag := term.cCflag ||| cs8 }
  else term

/-- The size goes to the host. -/
def setBytesize (dcb : Dcb) (term : Termios) : Dcb :=
  if term.cCflag &&& csize = cs5 then { dcb with byteSize := 5 }
  else if term.cCflag &&& csize = cs6 then { dcb with byteSize := 6 }
  else if term.cCflag &&& csize = cs7 then { dcb with byteSize := 7 }
  else if term.cCflag &&& csize = cs8 then { dcb with byteSize := 8 }
  else dcb

/-- `MAXDWORD` -/
def maxDword : BitVec 32 := BitVec.allOnes 32

/-- The timeouts of the host go to `VMIN` and `VTIME`, in tenths of a second. -/
def getTimeouts (term : Termios) (timeouts : CommTimeouts) : Termios :=
  if timeouts.readIntervalTimeout = maxDword then
    if timeouts.readTotalTimeoutMultiplier = maxDword then
      -- 1. Blocking wait for any data
      (term.setCc vmin 0).setCc vtime ((timeouts.readTotalTimeoutConstant / 100#32).setWidth 8)
    else
      -- 2. Non-blocking
      (term.setCc vmin 0).setCc vtime 0
  else if timeouts.readIntervalTimeout = 0 ∧ timeouts.readTotalTimeoutMultiplier = 0 ∧
      timeouts.readTotalTimeoutConstant = 0 then
    -- 3. Blocking forever
    (term.setCc vmin 1).setCc vtime 0
  else (term.setCc vmin 1).setCc vtime ((timeouts.readIntervalTimeout / 100#32).setWidth 8)

/-- `VMIN` and `VTIME` go to the timeouts of the host. -/
def setTimeouts (term : Termios) : CommTimeouts :=
  if term.cCc vmin = 0 then
    if term.cCc vtime ≠ 0 then
      -- 1. Blocking wait for any data
      ⟨maxDword, maxDword, (term.cCc vtime).setWidth 32 * 100#32, 0, 0⟩
    else
      -- 2. Non-blocking
      ⟨maxDword, 0, 0, 0, 0⟩
  else if term.cCc vtime = 0 then
    -- 3. Blocking forever
    ⟨0, 0, 0, 0, 0⟩
  else ⟨(term.cCc vtime).setWidth 32 * 100#32, 0, 0, 0, 0⟩

/-! ## The control codes -/

end Termios

/-- A function of the host that `fast_control` calls. -/
inductive CommCall where
  | getCommState
  | setCommState
  | getCommTimeouts
  | setCommTimeouts
  | purgeComm
  | flushFileBuffers
deriving DecidableEq

/-- A control code with its argument; a pointer may be null. -/
inductive SerialControl where
  | tcgets (term : Option Termios)
  | tcsets (term : Option Termios)
  | tcflsh (flags : ℕ)
  | tcdrn
  | other

/-- What `fast_control` returns, the port afterwards, and what the argument points to. -/
structure ControlResult where
  result : Except ErrorCode ℕ
  port : SerialPort
  term : Option Termios

namespace SerialPort

open Termios

variable (fails : CommCall → Option UInt32)

/-- The flags and the speed that `TCGETS` reads off a `DCB`. -/
def readDcb (dcb : Dcb) : Termios :=
  let term := ((zero.getParity dcb).getStopbits dcb).getBytesize dcb
  let term := term.setCflag cctsOflow (dcb.fOutxCtsFlow ≠ 0)
  let term := term.setCflag crtsIflow (dcb.fRtsControl ≠ 0)
  { term with cSpeed := dcb.baudRate }

/-- What `TCSETS` writes to a `DCB`. -/
def writeDcb (dcb : Dcb) (term : Termios) : Dcb :=
  let dcb := setBytesize (setStopbits (setParity dcb term) term) term
  { dcb with
    fOutxCtsFlow := (term.cCflag &&& cctsOflow).setWidth 1
    fRtsControl := (term.cCflag &&& cctsOflow).setWidth 2
    baudRate := term.cSpeed
    fDtrControl := 0
    fInX := 0
    fOutX := 0
    fDsrSensitivity := 0 }

/-- `fast_control`, where `fails` are the errors of the calls of the host -/
def fastControl (port : SerialPort) : SerialControl → ControlResult
  | .tcgets none | .tcsets none => ⟨.error .argumentNull, port, none⟩
  | .tcgets (some _) =>
    match fails .getCommState with
    | some e => ⟨.error (win32ToErrorCode e), port, some zero⟩
    | none =>
      let term := readDcb port.dcb
      match fails .getCommTimeouts with
      | some e => ⟨.error (win32ToErrorCode e), port, some term⟩
      | none => ⟨.ok 0, port, some (term.getTimeouts port.timeouts)⟩
  | .tcsets (some term) =>
    match fails .getCommState with
    | some e => ⟨.error (win32ToErrorCode e), port, some term⟩
    | none =>
      match fails .setCommState with
      | some e => ⟨.error (win32ToErrorCode e), port, some term⟩
      | none =>
        let port := { port with dcb := writeDcb port.dcb term }
        match fails .setCommTimeouts with
        | some e => ⟨.error (win32ToErrorCode e), port, some term⟩
        | none => ⟨.ok 0, { port with timeouts := term.setTimeouts }, some term⟩
  | .tcflsh flags =>
    -- `TCIFLUSH`, `TCOFLUSH` and `TCIOFLUSH` are 0, 1 and 2
    if flags ≤ 2 then
      match fails .purgeComm with
      | some e => ⟨.error (win32ToErrorCode e), port, none⟩
      | none => ⟨.ok 0, port, none⟩
    else ⟨.error .invalidArgument, port, none⟩
  | .tcdrn =>
    match fails .flushFileBuffers with
    | some e => ⟨.error (win32ToErrorCode e), port, none⟩
    | none => ⟨.ok 0, port, none⟩
  | .other => ⟨.error .notSupported, port, none⟩

end SerialPort

/-! ## Each decoder reads what its encoder wrote -/

namespace Termios

variable {dest : BitVec 32} {term t : Termios} {d : Dcb} {i : ℕ} {c : BitVec 8}

@[simp] theorem setCflag_cCflag {mask : BitVec 32} {enable : Bool} :
    (term.setCflag mask enable).cCflag = setBits term.cCflag mask enable := rfl

/-- A flag that is set as another one is. -/
theorem setBits_eq_copyBits {src mask : BitVec 32} (h : src &&& mask = 0 ∨ src &&& mask = mask) :
    setBits dest mask (src &&& mask ≠ 0) = copyBits dest src mask := by
  rw [setBits, copyBits]
  rcases h with h | h
  · rw [h]
    simp
  · rw [h]
    split
    · refine BitVec.eq_of_getLsbD_eq fun i hi ↦ ?_
      simp only [BitVec.getLsbD_or, BitVec.getLsbD_and, BitVec.getLsbD_not]
      cases mask.getLsbD i <;> simp [hi]
    · rename_i hz
      have hzero : mask = 0 := by simpa using hz
      rw [hzero]
      simp

theorem getParity_setParity (h : t.cCflag &&& parodd ≠ 0 → t.cCflag &&& parenb ≠ 0) :
    (term.getParity (setParity d t)).cCflag =
      copyBits (copyBits term.cCflag t.cCflag parenb) t.cCflag parodd := by
  have hfields : ((setParity d t).fParity ≠ 0 ↔ t.cCflag &&& parenb ≠ 0) ∧
      ((setParity d t).parity = 1 ↔ t.cCflag &&& parodd ≠ 0) := by
    unfold setParity
    split
    · rename_i henb
      split
      · rename_i hodd
        exact ⟨iff_of_true (by simp) henb, iff_of_true rfl hodd⟩
      · rename_i hodd
        exact ⟨iff_of_true (by simp) henb, iff_of_false (by simp) hodd⟩
    · rename_i henb
      exact ⟨iff_of_false (by simp) henb, iff_of_false (by simp) fun hodd ↦ henb (h hodd)⟩
  have henb : t.cCflag &&& parenb = 0 ∨ t.cCflag &&& parenb = parenb := and_one_shiftLeft _ 8
  have hodd : t.cCflag &&& parodd = 0 ∨ t.cCflag &&& parodd = parodd := and_one_shiftLeft _ 9
  rw [getParity, setCflag_cCflag, setCflag_cCflag, decide_eq_decide.mpr hfields.1,
    decide_eq_decide.mpr hfields.2, setBits_eq_copyBits henb, setBits_eq_copyBits hodd]

theorem getStopbits_setStopbits :
    (term.getStopbits (setStopbits d t)).cCflag = copyBits term.cCflag t.cCflag cstopb := by
  have hfield : (setStopbits d t).stopBits = 2 ↔ t.cCflag &&& cstopb ≠ 0 := by
    unfold setStopbits
    split
    · exact iff_of_true rfl ‹_›
    · exact iff_of_false (by simp) ‹_›
  have hstop : t.cCflag &&& cstopb = 0 ∨ t.cCflag &&& cstopb = cstopb := and_one_shiftLeft _ 6
  rw [getStopbits, setCflag_cCflag, decide_eq_decide.mpr hfield, setBits_eq_copyBits hstop]

/-- There are four sizes. -/
theorem csize_cases (x : BitVec 32) :
    x &&& csize = cs5 ∨ x &&& csize = cs6 ∨ x &&& csize = cs7 ∨ x &&& csize = cs8 := by
  have hsplit : x &&& csize = (x &&& 1#32 <<< 4) ||| (x &&& 1#32 <<< 5) := by
    rw [← BitVec.and_or_distrib_left]
    rfl
  rw [hsplit]
  rcases and_one_shiftLeft x 4 with h₄ | h₄ <;> rcases and_one_shiftLeft x 5 with h₅ | h₅ <;>
    (rw [h₄, h₅]; decide)

theorem getBytesize_setBytesize (h : term.cCflag &&& csize = 0) :
    (term.getBytesize (setBytesize d t)).cCflag = copyBits term.cCflag t.cCflag csize := by
  rw [← or_eq_copyBits h]
  rcases csize_cases t.cCflag with hs | hs | hs | hs <;>
    simp [getBytesize, setBytesize, hs, cs5, cs6, cs7, cs8]

/-- **The assignments to the flow control fields lose the flag.** -/
theorem setWidth_and_cctsOflow {k : ℕ} (hk : k ≤ 29) (x : BitVec 32) :
    (x &&& cctsOflow).setWidth k = 0 := by
  refine BitVec.eq_of_getLsbD_eq fun i hi ↦ ?_
  have hlt : i < 29 := Nat.lt_of_lt_of_le hi hk
  rw [BitVec.getLsbD_setWidth, BitVec.getLsbD_and, cctsOflow, BitVec.getLsbD_shiftLeft]
  simp [hlt]

/-- Times are in units of 100 ms. -/
theorem toNat_time (c : BitVec 8) : (c.setWidth 32 * 100#32).toNat = c.toNat * 100 := by
  have hc := c.isLt
  rw [BitVec.toNat_mul, BitVec.toNat_setWidth_of_le (by decide), BitVec.toNat_ofNat]
  exact Nat.mod_eq_of_lt (by omega)

theorem time_div (c : BitVec 8) : ((c.setWidth 32 * 100#32) / 100#32).setWidth 8 = c := by
  refine BitVec.eq_of_toNat_eq ?_
  rw [BitVec.toNat_setWidth, BitVec.toNat_udiv, toNat_time, BitVec.toNat_ofNat]
  exact (congrArg (· % 2 ^ 8) (Nat.mul_div_cancel _ (by decide))).trans (Nat.mod_eq_of_lt c.isLt)

theorem time_ne (c : BitVec 8) : c.setWidth 32 * 100#32 ≠ maxDword := by
  intro h
  have hnat := congrArg BitVec.toNat h
  rw [toNat_time, maxDword, BitVec.toNat_allOnes] at hnat
  have hc := c.isLt
  omega

theorem time_eq_zero (h : c.setWidth 32 * 100#32 = 0) : c = 0 := by
  have := time_div c
  rw [h] at this
  exact this.symm

/-- A time that was set comes back, and whether a read waits for a character. -/
theorem getTimeouts_setTimeouts :
    (term.getTimeouts t.setTimeouts).cCc vtime = t.cCc vtime ∧
      (term.getTimeouts t.setTimeouts).cCc vmin = if t.cCc vmin = 0 then 0 else 1 := by
  have hne : vmin ≠ vtime := by decide
  have hmax : (0 : BitVec 32) ≠ maxDword := by decide
  by_cases hmin : t.cCc vmin = 0
  · by_cases htime : t.cCc vtime = 0
    · simp only [getTimeouts, setTimeouts, hmin, htime, hmax, ne_eq, not_true_eq_false, if_true,
        if_false]
      simp [setCc, hne]
    · simp only [getTimeouts, setTimeouts, hmin, htime, ne_eq, not_false_eq_true, if_true]
      simp [setCc, hne, time_div]
  · by_cases htime : t.cCc vtime = 0
    · simp only [getTimeouts, setTimeouts, hmin, htime, hmax, if_true, if_false, and_self]
      simp [setCc, hne]
    · have hzero : (t.cCc vtime).setWidth 32 * 100#32 ≠ 0 := fun h ↦ htime (time_eq_zero h)
      simp only [getTimeouts, setTimeouts, hmin, htime, time_ne, hzero, if_false, false_and]
      simp [setCc, hne, time_div]

end Termios

namespace SerialPort

open Termios

variable {fails fails' : CommCall → Option UInt32} {port : SerialPort} {t arg : Termios}

/-! ## The settings come back -/

/-- The flags of `c_cflag` that the port keeps. -/
def portFlags : List (BitVec 32) := [csize, cstopb, parenb, parodd, cctsOflow, crtsIflow]

/-- The settings that `TCGETS` is to return when `t` was set. -/
structure Returns (t t' : Termios) : Prop where
  flags : ∀ mask ∈ portFlags, t'.cCflag &&& mask = t.cCflag &&& mask
  speed : t'.cSpeed = t.cSpeed
  vtime : t'.cCc Termios.vtime = t.cCc Termios.vtime
  vmin : t'.cCc Termios.vmin = if t.cCc Termios.vmin = 0 then 0 else 1

/-- An encoder leaves the fields of the others alone. -/
theorem writeDcb_fields (dcb : Dcb) (t : Termios) :
    (writeDcb dcb t).fParity = (setParity dcb t).fParity ∧
      (writeDcb dcb t).parity = (setParity dcb t).parity ∧
      (writeDcb dcb t).stopBits = (setStopbits (setParity dcb t) t).stopBits ∧
      (writeDcb dcb t).byteSize = (setBytesize (setStopbits (setParity dcb t) t) t).byteSize := by
  have hsize : ∀ d, (setBytesize d t).fParity = d.fParity ∧ (setBytesize d t).parity = d.parity ∧
      (setBytesize d t).stopBits = d.stopBits := fun d ↦ by
    rcases csize_cases t.cCflag with hs | hs | hs | hs <;>
      simp [setBytesize, hs, cs5, cs6, cs7, cs8]
  have hstop : ∀ d, (setStopbits d t).fParity = d.fParity ∧ (setStopbits d t).parity = d.parity :=
    fun d ↦ by unfold setStopbits; split <;> exact ⟨rfl, rfl⟩
  refine ⟨?_, ?_, (hsize _).2.2, rfl⟩
  · exact (hsize _).1.trans (hstop _).1
  · exact (hsize _).2.1.trans (hstop _).2

/-- The flags that come back: those that were set, without flow control. -/
theorem readDcb_writeDcb {dcb : Dcb} (hodd : t.cCflag &&& parodd ≠ 0 → t.cCflag &&& parenb ≠ 0) :
    (readDcb (writeDcb dcb t)).cCflag =
      setBits (setBits (copyBits (copyBits (copyBits (copyBits 0 t.cCflag parenb) t.cCflag parodd)
        t.cCflag cstopb) t.cCflag csize) cctsOflow false) crtsIflow false := by
  obtain ⟨hfpar, hpar, hstop, hsize⟩ := writeDcb_fields dcb t
  have hparity : (zero.getParity (writeDcb dcb t)).cCflag =
      copyBits (copyBits 0 t.cCflag parenb) t.cCflag parodd := by
    rw [← show zero.cCflag = 0 from rfl, ← getParity_setParity (d := dcb) hodd, getParity,
      getParity, hfpar, hpar]
  have hstopbits : ((zero.getParity (writeDcb dcb t)).getStopbits (writeDcb dcb t)).cCflag =
      copyBits (copyBits (copyBits 0 t.cCflag parenb) t.cCflag parodd) t.cCflag cstopb := by
    rw [← hparity, ← getStopbits_setStopbits (d := setParity dcb t), getStopbits, getStopbits,
      hstop]
  have hclear :
      ((zero.getParity (writeDcb dcb t)).getStopbits (writeDcb dcb t)).cCflag &&& csize = 0 := by
    rw [hstopbits, copyBits_and_of_disjoint (by decide), copyBits_and_of_disjoint (by decide),
      copyBits_and_of_disjoint (by decide)]
    rfl
  have hbytesize : (((zero.getParity (writeDcb dcb t)).getStopbits (writeDcb dcb t)).getBytesize
      (writeDcb dcb t)).cCflag =
        copyBits (copyBits (copyBits (copyBits 0 t.cCflag parenb) t.cCflag parodd)
          t.cCflag cstopb) t.cCflag csize := by
    rw [← hstopbits, ← getBytesize_setBytesize (d := setStopbits (setParity dcb t) t) hclear,
      getBytesize, getBytesize, hsize]
  have hcts : (writeDcb dcb t).fOutxCtsFlow = 0 := setWidth_and_cctsOflow (by decide) _
  have hrts : (writeDcb dcb t).fRtsControl = 0 := setWidth_and_cctsOflow (by decide) _
  simp only [readDcb, setCflag_cCflag, hbytesize, hcts, hrts, ne_eq, not_true_eq_false,
    decide_false]

theorem setBits_false (x mask : BitVec 32) : setBits x mask false = copyBits x 0 mask := by
  have hzero : 0 &&& mask = 0#32 := BitVec.zero_and
  rw [setBits, if_neg (by decide), copyBits, hzero, BitVec.or_zero]

/-- What a call with `TCSETS` that succeeds leaves behind. -/
theorem port_tcsets (h : (fastControl fails port (.tcsets (some t))).result = .ok 0) :
    (fastControl fails port (.tcsets (some t))).port = ⟨writeDcb port.dcb t, t.setTimeouts⟩ := by
  unfold fastControl at h ⊢
  cases hget : fails .getCommState with
  | some e => simp [hget] at h
  | none =>
    cases hset : fails .setCommState with
    | some e => simp [hget, hset] at h
    | none =>
      cases htime : fails .setCommTimeouts with
      | some e => simp [hget, hset, htime] at h
      | none => simp

/-- The timeouts are none of the flags. -/
theorem getTimeouts_flags (term : Termios) (timeouts : CommTimeouts) :
    (term.getTimeouts timeouts).cCflag = term.cCflag ∧
      (term.getTimeouts timeouts).cSpeed = term.cSpeed := by
  unfold getTimeouts
  split
  · split <;> exact ⟨rfl, rfl⟩
  · split <;> exact ⟨rfl, rfl⟩

/-- **What comes back.** -/
theorem returns_iff {d : Dcb} (hodd : t.cCflag &&& parodd ≠ 0 → t.cCflag &&& parenb ≠ 0) :
    Returns t ((readDcb (writeDcb d t)).getTimeouts t.setTimeouts) ↔
      t.cCflag &&& cctsOflow = 0 ∧ t.cCflag &&& crtsIflow = 0 := by
  have hflags : ((readDcb (writeDcb d t)).getTimeouts t.setTimeouts).cCflag =
      copyBits (copyBits (copyBits (copyBits (copyBits (copyBits 0 t.cCflag parenb) t.cCflag parodd)
        t.cCflag cstopb) t.cCflag csize) 0 cctsOflow) 0 crtsIflow := by
    rw [(getTimeouts_flags _ _).1, readDcb_writeDcb hodd, setBits_false, setBits_false]
  have hzero : ∀ mask : BitVec 32, 0 &&& mask = 0 := fun _ ↦ BitVec.zero_and
  constructor
  · intro h
    have hcts := h.flags cctsOflow (by decide)
    have hrts := h.flags crtsIflow (by decide)
    rw [hflags, copyBits_and_of_disjoint (by decide), copyBits_and_self, hzero] at hcts
    rw [hflags, copyBits_and_self, hzero] at hrts
    exact ⟨hcts.symm, hrts.symm⟩
  · rintro ⟨hcts, hrts⟩
    refine ⟨fun mask hm ↦ ?_, (getTimeouts_flags _ _).2, getTimeouts_setTimeouts.1,
      getTimeouts_setTimeouts.2⟩
    rw [hflags]
    simp only [portFlags, List.mem_cons, List.not_mem_nil, or_false] at hm
    rcases hm with rfl | rfl | rfl | rfl | rfl | rfl
    · rw [copyBits_and_of_disjoint (by decide), copyBits_and_of_disjoint (by decide),
        copyBits_and_self]
    · rw [copyBits_and_of_disjoint (by decide), copyBits_and_of_disjoint (by decide),
        copyBits_and_of_disjoint (by decide), copyBits_and_self]
    · rw [copyBits_and_of_disjoint (by decide), copyBits_and_of_disjoint (by decide),
        copyBits_and_of_disjoint (by decide), copyBits_and_of_disjoint (by decide),
        copyBits_and_of_disjoint (by decide), copyBits_and_self]
    · rw [copyBits_and_of_disjoint (by decide), copyBits_and_of_disjoint (by decide),
        copyBits_and_of_disjoint (by decide), copyBits_and_of_disjoint (by decide),
        copyBits_and_self]
    · rw [copyBits_and_of_disjoint (by decide), copyBits_and_self, hzero, hcts]
    · rw [copyBits_and_self, hzero, hrts]

/-- **When the settings come back**: if no flow control was asked for. -/
theorem tcgets_tcsets_iff (hodd : t.cCflag &&& parodd ≠ 0 → t.cCflag &&& parenb ≠ 0)
    (hset : (fastControl fails port (.tcsets (some t))).result = .ok 0)
    (hstate : fails' .getCommState = none) (htimeouts : fails' .getCommTimeouts = none) :
    (∃ t', let port' := (fastControl fails port (.tcsets (some t))).port
      let r := fastControl fails' port' (.tcgets (some arg))
      r.result = .ok 0 ∧ r.term = some t' ∧ Returns t t') ↔
      t.cCflag &&& cctsOflow = 0 ∧ t.cCflag &&& crtsIflow = 0 := by
  rw [port_tcsets hset, ← returns_iff (d := port.dcb) hodd]
  simp only [fastControl, hstate, htimeouts, true_and]
  constructor
  · rintro ⟨t', ht, h⟩
    cases ht
    exact h
  · exact fun h ↦ ⟨_, rfl, h⟩

/-- 8 bits, even parity, two stop bits, 115200 baud, and reads that wait for 200 ms -/
def settings : Termios :=
  ⟨0, 0, cs8 ||| parenb ||| cstopb, 0, fun i ↦ if i = Termios.vtime then 2 else 0, 115200⟩

/-- A port that was never set. -/
def unset : SerialPort := ⟨⟨0, 0, 0, 0, 0, 0, 0, 0, 0, 0, 0⟩, ⟨0, 0, 0, 0, 0⟩⟩

theorem tcgets_tcsets_iff_settings :
    ∃ t', let port := (fastControl (fun _ ↦ none) unset (.tcsets (some settings))).port
      let r := fastControl (fun _ ↦ none) port (.tcgets (some zero))
      r.result = .ok 0 ∧ r.term = some t' ∧ Returns settings t' :=
  (tcgets_tcsets_iff (by decide) rfl rfl rfl).mpr ⟨by decide, by decide⟩

/-- Flow control in both directions is set without an error, and `TCGETS` says that there is
none. -/
theorem flow_control_lost :
    let t := { settings with cCflag := settings.cCflag ||| cctsOflow ||| crtsIflow }
    let r := fastControl (fun _ ↦ none) unset (.tcsets (some t))
    let r' := fastControl (fun _ ↦ none) r.port (.tcgets (some zero))
    r.result = .ok 0 ∧ r'.result = .ok 0 ∧ ∀ t', r'.term = some t' →
      t'.cCflag &&& cctsOflow ≠ t.cCflag &&& cctsOflow ∧
        t'.cCflag &&& crtsIflow ≠ t.cCflag &&& crtsIflow := by
  refine ⟨rfl, rfl, fun t' ht ↦ ?_⟩
  cases ht
  decide

end SerialPort

end Chino
