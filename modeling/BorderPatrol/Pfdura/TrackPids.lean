import BorderPatrol.Basic
import BorderPatrol.Foundations.CString
import BorderPatrol.Foundations.Runs
import Mathlib.Data.Set.Insert

/-!
# The processes that are tracked

`pfdura-mod.c` keeps a bit for each process id, and two files: a process id that is written to `on`
is tracked, one that is written to `off` is not any more, and 0 written to `off` ends all tracking.
The bits are the set of the ids that the files accepted (`write_tracks`), as long as no negative
number is written: the files compare an id with `PID_MAX_DEFAULT` only, and a negative one is used
as an index (`tracks_iff`).
-/

namespace BorderPatrol.Pfdura

open Foundations

/-- `PID_MAX_DEFAULT` -/
def pidMaxDefault : ℤ := 32768

/-- `EINVAL` -/
def einval : ℤ := 22

/-- `EFAULT` -/
def efault : ℤ := 14

/-- Conversion to `size_t`. -/
def sizeT (x : ℤ) : ℕ := (x % 2 ^ 32).toNat

/-- Conversion to `long`, of 32 bits as the pointers. -/
def toLong (x : ℤ) : ℤ := x.bmod (2 ^ 32)

/-- `simple_strtol` in base 10, on the memory from the string on: the number, and how many
characters of the string are in it. -/
abbrev SimpleStrtol := List Byte → ℤ × ℕ

/-! ## The bits -/

/-- `track_pids`. Bits below 0 and from `PID_MAX_DEFAULT` on are outside its memory. -/
abbrev TrackPids := ℤ → Bool

/-- The index of a bit. -/
def pidIndex (pid : ℤ) : Except Fault Unit := inBounds (0 ≤ pid ∧ pid < pidMaxDefault)

/-- `test_bit` -/
def testBit (pid : ℤ) (trackPids : TrackPids) : Except Fault Bool := do
  pidIndex pid
  return trackPids pid

/-- `set_bit` -/
def setBit (pid : ℤ) (trackPids : TrackPids) : Except Fault TrackPids := do
  pidIndex pid
  return Function.update trackPids pid true

/-- `clear_bit` -/
def clearBit (pid : ℤ) (trackPids : TrackPids) : Except Fault TrackPids := do
  pidIndex pid
  return Function.update trackPids pid false

/-! ## The files -/

/-- A write to a file of the module: the bytes, whether the kernel can copy them, what lies behind
`buf` on the stack, and what the variable `pid` holds before. `vfs_write` refuses a count that is
negative as a `ssize_t`. -/
structure UserWrite where
  bytes : List Byte
  readable : Bool
  behind : List Byte
  pid₀ : ℤ
  count_lt : bytes.length < 2 ^ 31

namespace UserWrite

/-- `count` -/
def count (u : UserWrite) : ℕ := u.bytes.length

/-- The memory from `buf` on, once the bytes are copied. -/
def buf (u : UserWrite) : List Byte := u.bytes ++ List.replicate (16 - u.count) 0 ++ u.behind

end UserWrite

/-- `get_pid_from_buf`: what it returns, and the variable `pid`. -/
def getPidFromBuf (strtol : SimpleStrtol) (u : UserWrite) : ℕ × ℤ :=
  if 16 < u.count then (sizeT (-einval), u.pid₀)
  else if u.readable = false then (sizeT (-efault), u.pid₀)
  else
    let (pid, n) := strtol u.buf
    if n = 0 then (sizeT (-einval), pid) else (u.count, pid)

/-- `pid_on_write` -/
def pidOnWrite (strtol : SimpleStrtol) (trackPids : TrackPids) (u : UserWrite) :
    Except Fault (TrackPids × ℤ) := do
  let (r, pid) := getPidFromBuf strtol u
  -- the `long` and the `size_t` are compared as unsigned numbers
  if r ≠ u.count then return (trackPids, toLong r)
  else if pidMaxDefault ≤ pid then return (trackPids, -einval)
  else
    let trackPids ← setBit pid trackPids
    return (trackPids, u.count)

/-- `pid_off_write` -/
def pidOffWrite (strtol : SimpleStrtol) (trackPids : TrackPids) (u : UserWrite) :
    Except Fault (TrackPids × ℤ) := do
  let (r, pid) := getPidFromBuf strtol u
  if r ≠ u.count then return (trackPids, toLong r)
  else if pidMaxDefault ≤ pid then return (trackPids, -einval)
  -- PID 0 turns off all PID tracking
  else if pid = 0 then return (fun _ => false, u.count)
  else if !(← testBit pid trackPids) then return (trackPids, -einval)
  else
    let trackPids ← clearBit pid trackPids
    return (trackPids, u.count)

/-- The two files. -/
inductive PidFile
  | on | off
  deriving DecidableEq, Repr

/-- A write to one of them. -/
def pidWrite (strtol : SimpleStrtol) (trackPids : TrackPids) (file : PidFile) (u : UserWrite) :
    Except Fault (TrackPids × ℤ) :=
  match file with
  | .on => pidOnWrite strtol trackPids u
  | .off => pidOffWrite strtol trackPids u

/-! ## The set -/

/-- The ids tracked after a file accepted one. -/
def PidFile.accepts (pids : Set ℤ) (pid : ℤ) : PidFile → Set ℤ
  | .on => insert pid pids
  | .off => if pid = 0 then ∅ else pids \ {pid}

/-- The bits of the module, with the set of the ids that the files accepted. -/
structure Tracking where
  trackPids : TrackPids
  pids : Set ℤ

namespace Tracking

/-- Nothing is tracked. -/
def start : Tracking := ⟨fun _ => false, ∅⟩

/-- What a write leaves. The file accepts the number unless it returns an error. -/
def after (strtol : SimpleStrtol) (d : Tracking) (a : PidFile × UserWrite) (q : TrackPids × ℤ) :
    Tracking :=
  ⟨q.1, if 0 ≤ q.2 then a.1.accepts d.pids (strtol a.2.buf).1 else d.pids⟩

/-- A write. -/
def step (strtol : SimpleStrtol) (d : Tracking) (a : PidFile × UserWrite) :
    Except Fault Tracking :=
  pidWrite strtol d.trackPids a.1 a.2 >>= fun q => .ok (d.after strtol a q)

/-- The bits are those of the set. -/
def Agrees (d : Tracking) : Prop := ∀ i, d.trackPids i = true ↔ i ∈ d.pids

/-- The write uses no index out of range, leaves the bits of the set, and leaves all bits as they
are when it returns an error. -/
def Tracks (strtol : SimpleStrtol) (d : Tracking) (a : PidFile × UserWrite) : Prop :=
  ∃ q, pidWrite strtol d.trackPids a.1 a.2 = .ok q ∧ (d.after strtol a q).Agrees ∧
    (q.2 < 0 → q.1 = d.trackPids)

end Tracking

/-- The number that the bytes of a write stand for, when there is one, is not negative. -/
def NonNegative (strtol : SimpleStrtol) (u : UserWrite) : Prop :=
  u.count ≤ 16 → u.readable = true → (strtol u.buf).2 ≠ 0 → 0 ≤ (strtol u.buf).1

/-! ## What is parsed -/

variable {strtol : SimpleStrtol} {u : UserWrite} {d d' : Tracking} {pid : ℤ}

/-- An error number is not a count, and is the same as a `long`. -/
theorem sizeT_neg {e : ℤ} (h : e = einval ∨ e = efault) :
    sizeT (-e) ≠ u.count ∧ toLong (sizeT (-e)) = -e := by
  have hlt := u.count_lt
  rw [UserWrite.count]
  rcases h with rfl | rfl
  · have hval : sizeT (-einval) = 4294967274 := by decide
    rw [hval]
    exact ⟨by omega, by decide⟩
  · have hval : sizeT (-efault) = 4294967282 := by decide
    rw [hval]
    exact ⟨by omega, by decide⟩

/-- **What is parsed.** Either an error is returned, or there is a number in the bytes. -/
theorem getPidFromBuf_cases (strtol : SimpleStrtol) (u : UserWrite) :
    (∃ e pid, getPidFromBuf strtol u = (sizeT (-e), pid) ∧ (e = einval ∨ e = efault) ∧
        ¬ (u.count ≤ 16 ∧ u.readable = true ∧ (strtol u.buf).2 ≠ 0)) ∨
      getPidFromBuf strtol u = (u.count, (strtol u.buf).1) ∧
        u.count ≤ 16 ∧ u.readable = true ∧ (strtol u.buf).2 ≠ 0 := by
  unfold getPidFromBuf
  by_cases hcount : 16 < u.count
  · rw [if_pos hcount]
    exact .inl ⟨_, _, rfl, .inl rfl, fun h => by omega⟩
  rw [if_neg hcount]
  by_cases hread : u.readable = false
  · rw [if_pos hread]
    exact .inl ⟨_, _, rfl, .inr rfl, fun h => by rw [hread] at h; cases h.2.1⟩
  rw [if_neg hread]
  simp only
  by_cases hn : (strtol u.buf).2 = 0
  · rw [if_pos hn]
    exact .inl ⟨_, _, rfl, .inl rfl, fun h => h.2.2 hn⟩
  · rw [if_neg hn]
    exact .inr ⟨rfl, by omega, Bool.eq_true_of_not_eq_false hread, hn⟩

/-! ## What a write does to the bits -/

/-- A write that leaves the bits and returns an error is right. -/
theorem Tracking.Agrees.refused (h : d.Agrees) {a : PidFile × UserWrite} {r : ℤ} (hr : r < 0)
    (hw : pidWrite strtol d.trackPids a.1 a.2 = .ok (d.trackPids, r)) : d.Tracks strtol a := by
  refine ⟨_, hw, ?_, fun _ => rfl⟩
  rw [Tracking.after, if_neg (not_le.2 hr)]
  exact h

/-- A write that is accepted is right when the bits are then those of the set. -/
theorem Tracking.tracks_accepted {a : PidFile × UserWrite} (bits : TrackPids) (n : ℕ)
    (hw : pidWrite strtol d.trackPids a.1 a.2 = .ok (bits, (n : ℤ)))
    (hbits : ∀ i, bits i = true ↔ i ∈ a.1.accepts d.pids (strtol a.2.buf).1) :
    d.Tracks strtol a := by
  have hn : (0 : ℤ) ≤ n := Int.natCast_nonneg n
  refine ⟨_, hw, ?_, fun hr => absurd hn (not_le.2 hr)⟩
  rw [Tracking.after, if_pos hn]
  exact hbits

/-- A write that uses an index out of range is not right. -/
theorem Tracking.not_tracks {a : PidFile × UserWrite} {e : Fault}
    (hw : pidWrite strtol d.trackPids a.1 a.2 = .error e) : ¬ d.Tracks strtol a := by
  rintro ⟨q, hq, -⟩
  cases hw.symm.trans hq

theorem pidIndex_of (h₀ : 0 ≤ pid) (h : pid < pidMaxDefault) : pidIndex pid = .ok () :=
  inBounds_of ⟨h₀, h⟩

theorem pidIndex_neg (h : pid < 0) : pidIndex pid = .error .overrun :=
  if_neg fun hin => absurd hin.1 (not_le.2 h)

/-- A number is written to `on`. -/
theorem on_tracks_iff (h : d.Agrees) (hparse : getPidFromBuf strtol u = (u.count, pid))
    (hpid : (strtol u.buf).1 = pid) (hlt : pid < pidMaxDefault) :
    d.Tracks strtol (.on, u) ↔ 0 ≤ pid := by
  have hw : pidWrite strtol d.trackPids .on u =
      setBit pid d.trackPids >>= fun bits => .ok (bits, (u.count : ℤ)) := by
    rw [pidWrite, pidOnWrite, hparse]
    simp only [ne_eq, not_true_eq_false, if_false]
    rw [if_neg (not_le.2 hlt)]
    rfl
  by_cases h₀ : 0 ≤ pid
  · refine iff_of_true (Tracking.tracks_accepted (Function.update d.trackPids pid true)
      u.count ?_ fun i => ?_) h₀
    · rw [hw, setBit, pidIndex_of h₀ hlt]
      rfl
    · rw [hpid, PidFile.accepts, Set.mem_insert_iff, ← h i, Function.update_apply]
      by_cases hi : i = pid <;> simp [hi]
  · refine iff_of_false (Tracking.not_tracks (e := .overrun) ?_) h₀
    rw [hw, setBit, pidIndex_neg (not_le.1 h₀)]
    rfl

/-- A number is written to `off`. -/
theorem off_tracks_iff (h : d.Agrees) (hparse : getPidFromBuf strtol u = (u.count, pid))
    (hpid : (strtol u.buf).1 = pid) (hlt : pid < pidMaxDefault) :
    d.Tracks strtol (.off, u) ↔ 0 ≤ pid := by
  have hw : pidWrite strtol d.trackPids .off u =
      if pid = 0 then .ok (fun _ => false, (u.count : ℤ))
      else testBit pid d.trackPids >>= fun b =>
        if b = false then .ok (d.trackPids, -einval)
        else clearBit pid d.trackPids >>= fun bits => .ok (bits, (u.count : ℤ)) := by
    rw [pidWrite, pidOffWrite, hparse]
    simp only [ne_eq, not_true_eq_false, if_false]
    rw [if_neg (not_le.2 hlt)]
    simp only [Bool.not_eq_true']
    rfl
  by_cases hzero : pid = 0
  · refine iff_of_true (Tracking.tracks_accepted (fun _ => false) u.count ?_
      fun i => ?_) hzero.ge
    · rw [hw, if_pos hzero]
    · rw [hpid, PidFile.accepts, if_pos hzero]
      exact iff_of_false Bool.false_ne_true (Set.notMem_empty i)
  rw [if_neg hzero] at hw
  by_cases h₀ : 0 ≤ pid
  · refine iff_of_true ?_ h₀
    rw [testBit, pidIndex_of h₀ hlt, ok_bind] at hw
    rcases hbit : d.trackPids pid with _ | _
    · -- not tracked
      refine h.refused (r := -einval) (by decide) ?_
      rw [hw, hbit]
      rfl
    · refine Tracking.tracks_accepted (Function.update d.trackPids pid false)
        u.count ?_ fun i => ?_
      · rw [hw, hbit, clearBit, pidIndex_of h₀ hlt]
        rfl
      · rw [hpid, PidFile.accepts, if_neg hzero, Set.mem_sdiff, Set.mem_singleton_iff, ← h i,
          Function.update_apply]
        by_cases hi : i = pid <;> simp [hi]
  · refine iff_of_false (Tracking.not_tracks (e := .overrun) ?_) h₀
    rw [hw, testBit, pidIndex_neg (not_le.1 h₀)]
    rfl

/-- **One write** is right if and only if no negative number is written. -/
theorem write_tracks_iff (h : d.Agrees) (file : PidFile) (u : UserWrite) :
    d.Tracks strtol (file, u) ↔ NonNegative strtol u := by
  rcases getPidFromBuf_cases strtol u with ⟨e, v, hparse, he, hnot⟩ | ⟨hparse, hcount, hread, hn⟩
  · -- an error of the parser
    obtain ⟨hne, hlong⟩ := sizeT_neg (u := u) he
    refine iff_of_true ?_ fun h₁ h₂ h₃ => absurd ⟨h₁, h₂, h₃⟩ hnot
    refine h.refused (r := -e) ?_ ?_
    · rcases he with rfl | rfl <;> decide
    · cases file with
      | on => simp only [pidWrite, pidOnWrite, hparse, if_pos hne, hlong, pure, Except.pure]
      | off => simp only [pidWrite, pidOffWrite, hparse, if_pos hne, hlong, pure, Except.pure]
  have hnonneg : NonNegative strtol u ↔ 0 ≤ (strtol u.buf).1 :=
    ⟨fun hall => hall hcount hread hn, fun h₀ _ _ _ => h₀⟩
  rw [hnonneg]
  by_cases hlt : (strtol u.buf).1 < pidMaxDefault
  · cases file with
    | on => exact on_tracks_iff h hparse rfl hlt
    | off => exact off_tracks_iff h hparse rfl hlt
  · -- refused as too large
    have hle := not_lt.1 hlt
    have hpos : (0 : ℤ) ≤ pidMaxDefault := by decide
    refine iff_of_true (h.refused (r := -einval) (by decide) ?_) (hpos.trans hle)
    cases file with
    | on => simp only [pidWrite, pidOnWrite, hparse, ne_eq, not_true_eq_false, if_false, if_pos hle,
        pure, Except.pure]
    | off => simp only [pidWrite, pidOffWrite, hparse, ne_eq, not_true_eq_false, if_false,
        if_pos hle, pure, Except.pure]

/-- **The tracking set.** In any sequence of writes of any bytes to the two files, every write uses
an index in range, leaves the bits of the ids that the files accepted, and changes nothing when it
returns an error, if and only if no write that is tried is of a negative number. -/
theorem tracks_iff (strtol : SimpleStrtol) (as : List (PidFile × UserWrite)) :
    Tried (Tracking.step strtol) .start as (Tracking.Tracks strtol) ↔
      Tried (Tracking.step strtol) .start as fun _ a => NonNegative strtol a.2 := by
  refine tried_iff (I := Tracking.Agrees) ?_ (fun d a h => write_tracks_iff h a.1 a.2) ?_
  · exact fun i => iff_of_false Bool.false_ne_true (Set.notMem_empty i)
  · rintro d a d' - ⟨q, hq, hagrees, -⟩ hstep
    rw [Tracking.step, hq] at hstep
    cases hstep
    exact hagrees

/-- `simple_strtol` as the kernel has it, in base 10: a sign and digits, which may run over. -/
def decimalStrtol : SimpleStrtol
  | 45 :: t => (toLong (-leadingNat t), 1 + (t.takeWhile isdigit).length)
  | t => (toLong (leadingNat t), (t.takeWhile isdigit).length)

/-- A write of a text that can be copied. -/
def textWrite (text : String) (h : (ascii text).length < 2 ^ 31) : UserWrite :=
  ⟨ascii text, true, [], 0, h⟩

/-- When -5 is written to `on`, a bit in front of the bits is set. -/
theorem negative_pid_overruns : ¬ Tried (Tracking.step decimalStrtol) .start
    [(.on, textWrite "-5" (by decide))] (Tracking.Tracks decimalStrtol) := by
  intro h
  have hparse : getPidFromBuf decimalStrtol (textWrite "-5" (by decide)) = (2, -5) := by
    decide +kernel
  have hoverrun : pidWrite decimalStrtol Tracking.start.trackPids .on
      (textWrite "-5" (by decide)) = .error .overrun := by
    rw [pidWrite, pidOnWrite, hparse]
    rfl
  exact Tracking.not_tracks hoverrun (h [] _ (List.prefix_refl _) .start rfl)

end BorderPatrol.Pfdura
