import Chino.ErrorCode
import Mathlib.Algebra.Order.Field.Rat
import Mathlib.Algebra.Order.Field.Basic
import Mathlib.Tactic.Linarith
import Mathlib.Tactic.NormNum
import Mathlib.Tactic.Ring

/-!
# The receive timeout of a socket

Both socket drivers turn the `timeval` of `SO_RCVTIMEO` into milliseconds.  `host_socket_device`
computes in `long` and hands a `DWORD` to the host; it divides the microseconds by a million, so
that nothing is left of them.  `lwip_socket_device` divides them by a thousand, refuses a negative
number, and cuts what is left to 32 bits.  To both stacks zero means that there is no timeout.

`long` has `w` bits, 32 on the host.  An overflow of it, which the language leaves undefined, wraps
around here, as it does on the machine.

## The condition

`Honoured` asks three things: both drivers program the same number or refuse, the number is less
than a millisecond off what was asked for, and it is zero only if no time was asked for.

* `near_destTime_iff` is about the host driver.  Its number is right if there are whole seconds
  only, or next to nothing behind them, and if the seconds in milliseconds fit.
* The other driver is right for every time that is not negative and fits.
* `honoured_iff` compares the two, for every `long` width from 32 bits on and every number the
  caller may give.

Half a second is zero to the host driver, and so no timeout at all (`timeouts_differ`).
-/

set_option autoImplicit false

namespace Chino

/-- `timeval` -/
structure TimeVal where
  tvSec : ℤ
  tvUsec : ℤ
deriving DecidableEq

/-- The `level` of a socket option. -/
inductive SocketLevel where
  | solSocket
  | other
deriving DecidableEq

/-- The options that the drivers tell apart. -/
inductive SocketOption where
  | soRcvtimeo
  | other
deriving DecidableEq

/-- `hal::wsa_to_error_code`; `WSAEINVAL` is 10022. -/
def wsaToErrorCode (wsa : UInt32) : ErrorCode :=
  if wsa = 0 then .success else if wsa = 10022 then .invalidArgument else .fail

namespace ReceiveTimeout

/-- What a `long` of `w` bits holds of a number. -/
def long (w : ℕ) (x : ℤ) : ℤ := x.bmod (2 ^ w)

/-- The conversion to an unsigned type of 32 bits. -/
def toU32 (x : ℤ) : ℕ := (x % 2 ^ 32).toNat

/-- `sizeof(timeval)`: two of type `long` -/
def sizeofTimeVal (w : ℕ) : ℕ := 2 * (w / 8)

/-- `dest_time` -/
def destTime (w : ℕ) (srcTime : TimeVal) : ℕ :=
  toU32 (long w (long w (srcTime.tvSec * 1000) + srcTime.tvUsec.tdiv 1000000))

/-- `host_socket_device::setsockopt`: the milliseconds that the host is given.  `setsockopt` is the
host's function, with the error that it returns. -/
def hostSetsockopt (w : ℕ) (setsockopt : ℕ → Option UInt32) (optname : SocketOption)
    (optval : TimeVal) : Except ErrorCode ℕ :=
  match optname with
  | .soRcvtimeo =>
    match setsockopt (destTime w optval) with
    | some e => .error (wsaToErrorCode e)
    | none => .ok (destTime w optval)
  | .other => .error .notSupported

/-- `SO_SNDRCVTIMEO_GET_MS` -/
def getMs (w : ℕ) (optval : TimeVal) : ℤ :=
  long w (long w (optval.tvSec * 1000) + optval.tvUsec.tdiv 1000)

/-- `lwip_socket_device::setsockopt`: the milliseconds that the connection is given -/
def lwipSetsockopt (w : ℕ) (level : SocketLevel) (optname : SocketOption) (optval : TimeVal)
    (optlen : ℕ) : Except ErrorCode ℕ :=
  match level, optname with
  | .solSocket, .soRcvtimeo =>
    if optlen < sizeofTimeVal w then .error .invalidArgument
    else if getMs w optval < 0 then .error .invalidArgument
    else .ok (toU32 (getMs w optval))
  | _, _ => .error .notSupported

/-! ## The arithmetic -/

variable {w : ℕ} {x y : ℤ} {t : TimeVal}

theorem long_add_long : long w (long w x + y) = long w (x + y) := Int.bmod_add_bmod

/-- A `long` has the lowest 32 bits of the number. -/
theorem toU32_long (hw : 32 ≤ w) : toU32 (long w x) = toU32 x := by
  have hdvd : (2 ^ 32 : ℤ) ∣ ((2 ^ w : ℕ) : ℤ) := by
    push_cast
    exact pow_dvd_pow 2 hw
  rw [toU32, toU32, long, Int.bmod_def]
  split
  · rw [Int.emod_emod_of_dvd _ hdvd]
  · rw [Int.sub_emod, Int.emod_emod_of_dvd _ hdvd, Int.emod_eq_zero_of_dvd hdvd, sub_zero,
      Int.emod_emod]

theorem two_pow_pred (hw : 32 ≤ w) : (2 : ℤ) ^ w = 2 * 2 ^ (w - 1) := by
  rw [← pow_succ', Nat.sub_add_cancel (by omega)]

/-- A number below half of the range is what it is, and one of the upper half is negative. -/
theorem long_eq (hw : 32 ≤ w) (h₀ : 0 ≤ x) (h : x < 2 ^ w) :
    long w x = if x < 2 ^ (w - 1) then x else x - 2 ^ w := by
  have hpow := two_pow_pred hw
  have hmod : x % ((2 ^ w : ℕ) : ℤ) = x := by
    push_cast
    exact Int.emod_eq_of_lt h₀ h
  rw [long, Int.bmod_def, hmod]
  push_cast
  have hiff : x < (2 ^ w + 1) / 2 ↔ x < 2 ^ (w - 1) := by omega
  simp only [hiff]

theorem toU32_eq (h₀ : 0 ≤ x) (h : x < 2 ^ 32) : (toU32 x : ℤ) = x := by
  rw [toU32, Int.emod_eq_of_lt h₀ h, Int.toNat_of_nonneg h₀]

theorem toU32_lt : (toU32 x : ℤ) < 2 ^ 32 := by
  rw [toU32]
  omega

/-! ## The two drivers -/

/-- The time that was asked for. -/
def milliseconds (t : TimeVal) : ℚ := t.tvSec * 1000 + t.tvUsec / 1000

/-- Both drivers honour the timeout: they program the same number or refuse, the number is off by
less than a millisecond, and is zero only for no time at all. -/
structure Honoured (t : TimeVal) (host lwip : Except ErrorCode ℕ) : Prop where
  same : ∀ ms, host = .ok ms ↔ lwip = .ok ms
  near : ∀ ms, host = .ok ms ∨ lwip = .ok ms → |(ms : ℚ) - milliseconds t| < 1
  forever : ∀ ms, host = .ok ms ∨ lwip = .ok ms → ms = 0 → t.tvSec = 0 ∧ t.tvUsec = 0
  refused : 2 ^ 32 ≤ milliseconds t → ∀ ms, host ≠ .ok ms ∧ lwip ≠ .ok ms

/-- The distance in microseconds. -/
theorem near_iff {ms : ℕ} : |(ms : ℚ) - milliseconds t| < 1 ↔
    |(ms : ℤ) * 1000 - (t.tvSec * 1000000 + t.tvUsec)| < 1000 := by
  have hcast : (ms : ℚ) - milliseconds t =
      (((ms : ℤ) * 1000 - (t.tvSec * 1000000 + t.tvUsec) : ℤ) : ℚ) / 1000 := by
    rw [milliseconds]
    push_cast
    ring
  rw [hcast, abs_div, div_lt_one (by norm_num), abs_of_pos (by norm_num : (0 : ℚ) < 1000)]
  exact_mod_cast Iff.rfl

/-- Nothing is left of the microseconds. -/
theorem destTime_eq (hw : 32 ≤ w) (h₀ : 0 ≤ t.tvUsec) (h : t.tvUsec < 1000000) :
    destTime w t = toU32 (t.tvSec * 1000) := by
  rw [destTime, long_add_long, toU32_long hw, Int.tdiv_eq_zero_of_lt h₀ h, add_zero]

/-- **When the host is given the right number.** -/
theorem near_destTime_iff (hw : 32 ≤ w) (hsec : 0 ≤ t.tvSec) (h₀ : 0 ≤ t.tvUsec)
    (h : t.tvUsec < 1000000) :
    |(destTime w t : ℚ) - milliseconds t| < 1 ↔ t.tvUsec < 1000 ∧ t.tvSec * 1000 < 2 ^ 32 := by
  rw [near_iff, destTime_eq hw h₀ h]
  constructor
  · intro hnear
    rw [abs_lt] at hnear
    have hlt := toU32_lt (x := t.tvSec * 1000)
    have hsmall : t.tvSec * 1000 < 2 ^ 32 := by omega
    rw [toU32_eq (by omega) hsmall] at hnear
    exact ⟨by omega, hsmall⟩
  · rintro ⟨husec, hsmall⟩
    rw [toU32_eq (by omega) hsmall, abs_lt]
    constructor <;> omega

theorem getMs_eq (hw : 32 ≤ w) (hsec : 0 ≤ t.tvSec) (h₀ : 0 ≤ t.tvUsec) (husec : t.tvUsec < 1000)
    (hsmall : t.tvSec * 1000 < 2 ^ 32) :
    getMs w t =
      if t.tvSec * 1000 < 2 ^ (w - 1) then t.tvSec * 1000 else t.tvSec * 1000 - 2 ^ w := by
  have hle : (2 : ℤ) ^ 32 ≤ 2 ^ w := pow_le_pow_right₀ (by norm_num) hw
  rw [getMs, long_add_long, Int.tdiv_eq_zero_of_lt h₀ husec, add_zero]
  exact long_eq hw (by omega) (by omega)

/-- **When both drivers honour the timeout.** -/
theorem honoured_iff {setsockopt : ℕ → Option UInt32} {optlen : ℕ} (hw : 32 ≤ w)
    (hsec : 0 ≤ t.tvSec) (h₀ : 0 ≤ t.tvUsec) (h : t.tvUsec < 1000000)
    (hlen : sizeofTimeVal w ≤ optlen) (hhost : ∀ ms, setsockopt ms = none) :
    Honoured t (hostSetsockopt w setsockopt .soRcvtimeo t)
      (lwipSetsockopt w .solSocket .soRcvtimeo t optlen) ↔
      t.tvUsec < 1000 ∧ (t.tvSec = 0 → t.tvUsec = 0) ∧ t.tvSec * 1000 < 2 ^ 32 ∧
        t.tvSec * 1000 < 2 ^ (w - 1) := by
  have hok : hostSetsockopt w setsockopt .soRcvtimeo t = .ok (destTime w t) := by
    simp only [hostSetsockopt, hhost]
  rw [hok]
  have hlwip : lwipSetsockopt w .solSocket .soRcvtimeo t optlen =
      if getMs w t < 0 then .error .invalidArgument else .ok (toU32 (getMs w t)) := by
    rw [lwipSetsockopt, if_neg (by omega)]
  constructor
  · intro hh
    obtain ⟨husec, hsmall⟩ := (near_destTime_iff hw hsec h₀ h).mp (hh.near _ (Or.inl rfl))
    have hdest : (destTime w t : ℤ) = t.tvSec * 1000 := by
      rw [destTime_eq hw h₀ h, toU32_eq (by omega) hsmall]
    refine ⟨husec, fun hz ↦ ?_, hsmall, ?_⟩
    · exact (hh.forever _ (Or.inl rfl) (by omega)).2
    · -- otherwise lwIP refuses what the host accepts
      have hacc := (hh.same _).mp rfl
      rw [hlwip, getMs_eq hw hsec h₀ husec hsmall] at hacc
      by_contra hge
      have hle : (2 : ℤ) ^ 32 ≤ 2 ^ w := pow_le_pow_right₀ (by norm_num) hw
      rw [if_neg hge, if_pos (by omega)] at hacc
      cases hacc
  · rintro ⟨husec, hzero, hsmall, hhalf⟩
    have hget : getMs w t = t.tvSec * 1000 := by rw [getMs_eq hw hsec h₀ husec hsmall, if_pos hhalf]
    have hdest := destTime_eq hw h₀ h
    have hval : (destTime w t : ℤ) = t.tvSec * 1000 := by rw [hdest, toU32_eq (by omega) hsmall]
    have hlwip' : lwipSetsockopt w .solSocket .soRcvtimeo t optlen = .ok (destTime w t) := by
      rw [hlwip, hget, if_neg (by omega), hdest]
    have hms : ∀ ms, (Except.ok (destTime w t) : Except ErrorCode ℕ) = .ok ms ∨
        (Except.ok (destTime w t) : Except ErrorCode ℕ) = .ok ms → ms = destTime w t := by
      rintro ms (hms | hms) <;> (cases hms; rfl)
    have hnear := (near_destTime_iff hw hsec h₀ h).mpr ⟨husec, hsmall⟩
    rw [hlwip']
    refine ⟨fun ms ↦ Iff.rfl, fun ms hor ↦ ?_, fun ms hor hz ↦ ?_, fun hbig ↦ ?_⟩
    · rw [hms ms hor]
      exact hnear
    · have hms := hms ms hor
      have hs : t.tvSec = 0 := by omega
      exact ⟨hs, hzero hs⟩
    · exfalso
      have hlt : milliseconds t < 2 ^ 32 := by
        have hs : (t.tvSec : ℚ) * 1000 + 1 ≤ 2 ^ 32 := by
          have : t.tvSec * 1000 + 1 ≤ 2 ^ 32 := hsmall
          exact_mod_cast this
        have hu : (t.tvUsec : ℚ) < 1000 := by exact_mod_cast husec
        rw [milliseconds]
        linarith
      exact absurd hlt (not_lt.mpr hbig)

theorem honoured_iff_five_seconds :
    Honoured ⟨5, 0⟩ (hostSetsockopt 32 (fun _ ↦ none) .soRcvtimeo ⟨5, 0⟩)
      (lwipSetsockopt 32 .solSocket .soRcvtimeo ⟨5, 0⟩ 8) :=
  (honoured_iff (by decide) (by decide) (by decide) (by decide) (by decide) fun _ ↦ rfl).mpr
    ⟨by decide, by decide, by decide, by decide⟩

/-- Half a second is for ever on the host, and 50 days are less than one. -/
theorem timeouts_differ :
    hostSetsockopt 32 (fun _ ↦ none) .soRcvtimeo ⟨0, 500000⟩ = .ok 0 ∧
    lwipSetsockopt 32 .solSocket .soRcvtimeo ⟨0, 500000⟩ 8 = .ok 500 ∧
    hostSetsockopt 32 (fun _ ↦ none) .soRcvtimeo ⟨4320000, 0⟩ = .ok 25032704 ∧
    ¬ Honoured ⟨0, 500000⟩ (hostSetsockopt 32 (fun _ ↦ none) .soRcvtimeo ⟨0, 500000⟩)
      (lwipSetsockopt 32 .solSocket .soRcvtimeo ⟨0, 500000⟩ 8) := by
  have hhost : hostSetsockopt 32 (fun _ ↦ none) .soRcvtimeo ⟨0, 500000⟩ = .ok 0 := by decide
  refine ⟨hhost, by decide, by decide, fun h ↦ ?_⟩
  have := (h.forever 0 (Or.inl hhost) rfl).2
  cases this

end ReceiveTimeout

end Chino
