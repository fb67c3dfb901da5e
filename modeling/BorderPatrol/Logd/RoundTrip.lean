import BorderPatrol.Logd.Binlog
import BorderPatrol.Logd.Common
import Mathlib.Data.List.Forall2
import Mathlib.Data.List.TakeWhile

/-!
# What is logged is what is read

One thread logs any sequence of calls and flushes its buffer. The log is then the records of the
calls, one behind the other (`logbinRun_spec`), and reading it gives the entries that were logged,
then its end (`log_roundtrip`).
-/

namespace BorderPatrol.Logd

open Foundations

variable {ctx : ThreadCtx} {calls : List (LogEnv × LogbinCall)}

/-- The calls are logged as they are, through writes that may be short. -/
def AllFit (calls : List (LogEnv × LogbinCall)) : Prop :=
  ∀ q ∈ calls, q.1.writes.Short ∧ q.2.Fits

/-- **A run of log calls** adds their records, in order, to what the log and the buffer hold. -/
theorem logbinRun_spec (hcalls : AllFit calls) (hctx : ctx.InBuffer) :
    ∃ ctx' out rs, logbinRun ctx calls = .ok (ctx', out) ∧
      List.Forall₂ (fun q r => Logged ctx.pid ctx.tid q.2 r) calls rs ∧
      out ++ ctx'.held = ctx.held ++ rs.flatMap Record.bytes ∧ ctx'.InBuffer := by
  induction calls generalizing ctx with
  | nil => exact ⟨ctx, [], [], rfl, .nil, by simp, hctx⟩
  | cons q calls ih =>
    obtain ⟨hw, hfits⟩ := hcalls q (by simp)
    obtain ⟨ctx₁, out₁, r, hgen, hlog, hout₁, hin₁, hpid, htid⟩ :=
      logbinGen_spec hw.moves hfits.sized hctx
    obtain ⟨ctx', out', rs, hrun, hlogs, hout', hin'⟩ :=
      ih (fun q hq => hcalls q (by simp [hq])) hin₁
    rw [hpid, htid] at hlogs
    refine ⟨ctx', out₁ ++ out', r :: rs, ?_, .cons hlog hlogs, ?_, hin'⟩
    · simp only [logbinRun, hgen, hrun, ok_bind]
      rfl
    · rw [List.append_assoc, hout', ← List.append_assoc, hout₁, List.flatMap_cons,
        List.append_assoc]

/-- The entry read is the call logged: its arguments, zeros for those it has not, and its string
without newlines. -/
structure ReadBack (pid : Int32) (tid : UInt64) (c : LogbinCall) (e : LogentryThaw) : Prop where
  sc : e.fz.sc.toInt = c.sc.toInt
  rv : e.fz.rv.toInt = c.rv.toInt
  pid : e.fz.pid = pid.toUInt32
  tid : e.fz.tid = tid
  arg : e.arg = c.args ++ List.replicate (3 - c.args.length) 0
  string : e.string = c.str.map underscored

theorem cstr_append_zero {l : List Byte} (h : ∀ b ∈ l, b ≠ 0) : cstr (l ++ [0]) = l := by
  rw [cstr, List.takeWhile_append_of_pos (by simpa using h)]
  simp

theorem ne_zero_of_mem_cstr {m : List Byte} {b : Byte} (h : b ∈ cstr m) : b ≠ 0 := by
  simpa using List.mem_takeWhile_imp h

theorem underscored_ne_zero {b : Byte} (h : b ≠ 0) : underscored b ≠ 0 := by
  unfold underscored
  split
  · decide
  · exact h

/-- The string of a record of characters is its string. -/
theorem string_entry {r : Record} (h : ∀ b ∈ r.str, b ≠ 0) : r.entry.string = r.str := by
  have hstr := r.strLen
  by_cases h₀ : r.str = []
  · have hn : ¬ (0 < r.entry.fz.strLen.toInt) := by
      change ¬ (0 < r.fz.strLen.toInt)
      rw [hstr, h₀]
      simp
    rw [LogentryThaw.string, if_neg hn, h₀]
  · have hpos : 0 < r.entry.fz.strLen.toInt := by
      change 0 < r.fz.strLen.toInt
      have := List.length_pos_of_ne_nil h₀
      omega
    rw [LogentryThaw.string, if_pos hpos, Record.entry]
    simp only [h₀, if_false, Option.getD_some]
    exact cstr_append_zero h

/-- The entry of the record of a call is the call. -/
theorem readBack {pid : Int32} {tid : UInt64} {c : LogbinCall} {r : Record} (hc : c.Fits)
    (h : Logged pid tid c r) : ReadBack pid tid c r.entry where
  sc := by
    have := hc.sc
    rw [show r.entry.fz.sc = c.sc.toInt16 from h.sc, Int32.toInt_toInt16, Int.bmod_def]
    omega
  rv := by
    have := hc.rv
    rw [show r.entry.fz.rv = c.rv.toInt16 from h.rv, Int32.toInt_toInt16, Int.bmod_def]
    omega
  pid := h.pid
  tid := h.tid
  arg := by rw [Record.entry, h.args]
  string := by
    rw [string_entry, h.str]
    intro b hb
    rw [h.str] at hb
    obtain ⟨x, hx, rfl⟩ := List.mem_map.1 hb
    exact underscored_ne_zero (ne_zero_of_mem_cstr hx)

/-- **Log round trip.** Any sequence of log calls of one thread goes through, the end of the buffer
staying within it at any time; after a last flush, and wherever the reads cut the log, `get_le`
returns the entries of the calls, one after the other, and then null pointers. -/
theorem log_roundtrip (pid : Int32) (tid : UInt64) (lb : Mem Byte)
    (calls : List (LogEnv × LogbinCall)) (hcalls : AllFit calls) (w : Writes) (hw : w.Short) :
    (∀ pre, pre <+: calls →
      ∃ ctx out, logbinRun (allocCtx pid tid lb) pre = .ok (ctx, out) ∧ ctx.InBuffer) ∧
    ∃ ctx out ctx' out', logbinRun (allocCtx pid tid lb) calls = .ok (ctx, out) ∧
      lbFlush w ctx = .ok (ctx', out') ∧ ctx'.InBuffer ∧
      ∀ (chunks : List (List Byte)), (∀ b ∈ chunks, 1 ≤ b.length ∧ b.length ≤ pipeBuf) →
        chunks.flatten = out ++ out' → ∀ (buf : Mem Byte) (k : ℕ),
          ∃ rd es, getLes false (calls.length + (k + 1)) (Reader.start buf chunks) =
              .ok (es.map some ++ List.replicate (k + 1) none, rd) ∧
            List.Forall₂ (fun q e => ReadBack pid tid q.2 e) calls es := by
  have hin : (allocCtx pid tid lb).InBuffer := ⟨Int.le_refl 0, by simp [allocCtx]⟩
  refine ⟨fun pre hpre => ?_, ?_⟩
  · obtain ⟨ctx, out, -, hrun, -, -, hctx⟩ :=
      logbinRun_spec (fun q hq => hcalls q (hpre.subset hq)) hin
    exact ⟨ctx, out, hrun, hctx⟩
  · obtain ⟨ctx, out, rs, hrun, hlogs, hout, hctx⟩ := logbinRun_spec hcalls hin
    refine ⟨ctx, out, _, _, hrun, lbFlush_spec hw.moves hctx, ⟨Int.le_refl 0, by simp⟩, ?_⟩
    intro chunks hchunks hflat buf k
    have hheld : (allocCtx pid tid lb).held = [] := rfl
    rw [hheld, List.nil_append] at hout
    have hgives := gives_start buf hchunks
    rw [hflat, hout] at hgives
    obtain ⟨rd, hles⟩ := getLes_records rs hgives k
    refine ⟨rd, rs.map Record.entry, ?_, ?_⟩
    · rw [hlogs.length_eq, hles, List.map_map]
      rfl
    · rw [List.forall₂_map_right_iff]
      have hfits := (List.forall₂_and_left _ _).2 ⟨fun q hq => (hcalls q hq).2, hlogs⟩
      exact hfits.imp fun q r h => readBack h.1 h.2

/-- Two calls whose records are written a byte at a time. -/
def twoCalls : List (LogEnv × LogbinCall) :=
  [(⟨fun _ _ => 1, ⟨100, 7⟩, ascii "apache"⟩, ⟨1, 0, 5, 6, 0, 2, some (ascii "a\nb\x00")⟩),
    (⟨fun _ _ => 1, ⟨101, 3⟩, ascii "apache"⟩, ⟨2, -1, 9, 0, 0, 1, none⟩)]

theorem log_roundtrip_twoCalls :
    (∀ pre, pre <+: twoCalls →
      ∃ ctx out, logbinRun (allocCtx 300 17 fun _ => 0) pre = .ok (ctx, out) ∧ ctx.InBuffer) ∧
    ∃ ctx out ctx' out', logbinRun (allocCtx 300 17 fun _ => 0) twoCalls = .ok (ctx, out) ∧
      lbFlush (fun _ _ => 1) ctx = .ok (ctx', out') ∧ ctx'.InBuffer ∧
      ∀ (chunks : List (List Byte)), (∀ b ∈ chunks, 1 ≤ b.length ∧ b.length ≤ pipeBuf) →
        chunks.flatten = out ++ out' → ∀ (buf : Mem Byte) (k : ℕ),
          ∃ rd es, getLes false (twoCalls.length + (k + 1)) (Reader.start buf chunks) =
              .ok (es.map some ++ List.replicate (k + 1) none, rd) ∧
            List.Forall₂ (fun q e => ReadBack 300 17 q.2 e) twoCalls es := by
  have hshort : Writes.Short fun _ _ => 1 := fun _ _ h => ⟨Int.le_refl 1, h⟩
  have hfits : AllFit twoCalls := by
    intro q hq
    simp only [twoCalls, List.mem_cons, List.not_mem_nil, or_false] at hq
    rcases hq with rfl | rfl
    · exact ⟨hshort, by decide, by decide, by decide, by decide⟩
    · exact ⟨hshort, by decide, by decide, by decide, by decide⟩
  exact log_roundtrip 300 17 (fun _ => 0) twoCalls hfits (fun _ _ => 1) hshort

end BorderPatrol.Logd
