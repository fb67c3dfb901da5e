import BorderPatrol.Logd.Turns
import Mathlib.Data.List.Forall2

/-!
# Draining a slot

What `transfer_out` writes are the whole records in front of the buffer, one after the other and at
another time, and what it leaves in the buffer is the rest (`transferOut_spec`). The loop only fails
on bytes that no tracer sends. `transfer_in` adds to the buffer what it reads, and drains it when
there may be more than a bare header (`transferIn_spec`).
-/

namespace BorderPatrol.Logd

open Foundations

/-- A record tells where it ends. -/
theorem record_selfDelimiting : SelfDelimiting Record.bytes where
  ne_nil := by
    intro r h
    have := r.length_bytes
    rw [h, List.length_nil, frozenLen] at this
    omega
  inj := by
    intro r r' x x' h
    rw [Record.bytes, Record.bytes, List.append_assoc, List.append_assoc] at h
    obtain ⟨hfz, h⟩ := List.append_inj h (by simp)
    have hfz := LogentryFrozen.bytes_inj hfz
    have ha := r.argLen
    rw [hfz, r'.argLen] at ha
    have hs := r.strLen
    rw [hfz, r'.strLen] at hs
    rw [Record.rest, Record.rest, List.append_assoc, List.append_assoc] at h
    obtain ⟨hargs, h⟩ := List.append_inj h (by
      rw [Record.length_args_bytes, Record.length_args_bytes]
      omega)
    obtain ⟨hstr, -⟩ := List.append_inj h (by omega)
    cases r
    cases r'
    simp only [Record.mk.injEq]
    exact ⟨hfz, args_bytes_inj (by simp only at ha; omega) hargs, hstr⟩

/-- There is no whole record in front of less than a header. -/
theorem unfinished_of_lt {b : List Byte} (h : b.length < frozenLen) :
    Unfinished Record.bytes b := by
  rintro r x rfl
  have := r.length_bytes
  rw [List.length_append] at h
  omega

/-- What was written for a record is the record at another time. -/
def Stamped (r : Record) (w : List Byte) : Prop := ∃ high low, w = (r.stamp high low).bytes

/-- The slot has the bytes `b` in its buffer, and room for the rest. -/
structure Slot.Holds (s : Slot) (b : List Byte) : Prop where
  relay : ∃ m, s.relay = some m ∧ m.slice 0 b.length = b
  bEnd : s.bEnd = b.length
  avail : s.bEnd + s.avail = relayBuf

variable {env : RelayEnv} {s : Slot} {b : List Byte}

/-- On clean bytes the header is well-formed. -/
theorem wf_of_clean {m : Mem Byte} (hm : m.slice 0 b.length = b) (hlen : frozenLen ≤ b.length)
    (h : Clean Record.bytes b) : (thaw1 m 0).Wf := by
  obtain ⟨d, l, hd⟩ := h
  rcases l with _ | ⟨r, l⟩
  · have := (List.append_eq_nil_iff.1 hd).1
    rw [this] at hlen
    simp [frozenLen] at hlen
  · have hhead : (b ++ d).take frozenLen = r.fz.bytes := by
      rw [hd, List.flatMap_cons, Record.bytes, List.append_assoc,
        List.take_left' r.fz.length_bytes]
    have : thaw1 m 0 = r.fz := by
      rw [thaw1_eq_iff, ← Mem.take_slice m 0 hlen, hm, ← hhead,
        List.take_append_of_le_length hlen]
    rw [this]
    exact r.wf

/-- Clean bytes with no whole record in front are fewer than the largest record has. -/
theorem length_of_unfinished (hc : Clean Record.bytes b) (hu : Unfinished Record.bytes b) :
    b.length < frozenLen + 2 ^ 15 + 12 := by
  obtain ⟨d, l, hd⟩ := hc
  rcases l with _ | ⟨r, l⟩
  · rw [(List.append_eq_nil_iff.1 hd).1]
    simp [frozenLen]
  · have hlen := r.length_bytes
    have hlt := r.wf.restLen_lt
    by_contra hge
    rw [List.flatMap_cons] at hd
    have hbd : r.bytes <+: b ++ d := by
      rw [hd]
      exact List.prefix_append ..
    obtain ⟨x, hx⟩ := List.prefix_of_prefix_length_le hbd (List.prefix_append ..) (by omega)
    exact hu r x hx.symm

/-- The outcome of draining a buffer of the bytes `b`. -/
def Drained (b : List Byte) (q : Slot × List (List Byte)) : Prop :=
  ∃ rs rest, b = rs.flatMap Record.bytes ++ rest ∧ Unfinished Record.bytes rest ∧
    q.1.Holds rest ∧ List.Forall₂ Stamped rs q.2

/-- The bytes of the header that bytes begin with. -/
def headerOf (b : List Byte) : LogentryFrozen := thaw1 (Mem.store (fun _ => 0) 0 b) 0

/-- Behind the records that the bytes begin with, a header whose bytes are all there is well-formed.
-/
def Thawable (b : List Byte) : Prop :=
  ∀ (rs : List Record) (rest : List Byte), b = rs.flatMap Record.bytes ++ rest →
    frozenLen ≤ rest.length → (frozenSize (headerOf rest) % 2 ^ 32).toNat ≤ rest.length →
      (headerOf rest).Wf

theorem Drain.Holds.headerOf_eq {d : Drain} (h : d.Holds b) (hlen : frozenLen ≤ b.length) :
    headerOf b = d.frozen := by
  rw [headerOf, thaw1_eq_iff, ← Mem.take_slice _ 0 hlen, Mem.slice_store_self, Drain.frozen,
    thaw1_bytes, ← Mem.take_slice _ 0 hlen, h.bytes]

theorem headerOf_record (r : Record) (x : List Byte) : headerOf (r.bytes ++ x) = r.fz :=
  thaw1_of_record (Mem.slice_store_self ..) rfl

/-- A record in front does not matter. -/
theorem thawable_cons_iff {r : Record} {x : List Byte} : Thawable (r.bytes ++ x) ↔ Thawable x := by
  constructor
  · rintro h rs rest rfl
    exact h (r :: rs) rest (by rw [List.flatMap_cons, List.append_assoc])
  · intro h rs rest hb hlen hsize
    rcases rs with _ | ⟨r', rs⟩
    · rw [List.flatMap_nil, List.nil_append] at hb
      rw [← hb, headerOf_record]
      exact r.wf
    · rw [List.flatMap_cons, List.append_assoc] at hb
      obtain rfl := record_selfDelimiting.inj hb
      exact h rs rest (List.append_cancel_left hb) hlen hsize

/-- Where there is no whole record in front, the header decides. -/
theorem thawable_of_wf (h : Unfinished Record.bytes b)
    (hwf : frozenLen ≤ b.length → (frozenSize (headerOf b) % 2 ^ 32).toNat ≤ b.length →
      (headerOf b).Wf) : Thawable b := by
  intro rs rest hb
  rcases rs with _ | ⟨r, rs⟩
  · rw [List.flatMap_nil, List.nil_append] at hb
    exact hb ▸ hwf
  · rw [List.flatMap_cons, List.append_assoc] at hb
    exact absurd hb (h r _)

/-- The beginning of a sequence of records is thawable. -/
theorem Clean.thawable (h : Clean Record.bytes b) : Thawable b := by
  rintro rs rest rfl hlen -
  exact wf_of_clean (Mem.slice_store_self ..) hlen (h.rest record_selfDelimiting)

/-- The outcome of draining a buffer of the bytes `b`, when `out` was written before. -/
def DrainedFrom (out : List (List Byte)) (b : List Byte) (q : Slot × List (List Byte)) : Prop :=
  ∃ rs rest ws, b = rs.flatMap Record.bytes ++ rest ∧ Unfinished Record.bytes rest ∧
    q.1.Holds rest ∧ q.2 = out ++ ws ∧ List.Forall₂ Stamped rs ws

theorem stamped_shift (r : Record) (diff : Timeval) : Stamped r (r.shift diff).bytes :=
  ⟨_, _, rfl⟩

/-- The loop ends at bytes with no whole record in front, unless their header makes it fail. -/
theorem drained_unfinished {n k : ℕ} {d : Drain} (h : d.Holds b)
    (hun : Unfinished Record.bytes b) :
    Post (drained env (n + 1) k d) (fun q => Thawable b ∧ DrainedFrom d.out b q)
      (fun _ => ¬ Thawable b) := by
  have hend := h.bEnd
  have havail := h.avail
  have hstop : ∀ s' : Slot, s'.bEnd = d.slot.bEnd → s'.avail = d.slot.avail →
      DrainedFrom d.out b ({ s' with relay := some d.buf }, d.out) := fun s' h₁ h₂ =>
    ⟨[], b, [], rfl, hun, ⟨⟨d.buf, rfl, h.bytes⟩, h₁.trans hend, by simp only; omega⟩,
      (List.append_nil _).symm, .nil⟩
  rw [drained_succ]
  rcases Nat.lt_or_ge b.length frozenLen with hlt | hlen
  · rw [turn_of_lt (by omega)]
    exact ⟨thawable_of_wf hun fun hle => absurd hle (by omega), hstop d.slot rfl rfl⟩
  have hheader := h.headerOf_eq hlen
  rcases Nat.lt_or_ge b.length d.size with hlt | hsize
  · rw [turn_of_size_lt (by omega) (by omega)]
    refine ⟨thawable_of_wf hun fun _ hle => ?_, hstop (d.timed env k) (Slot.timed_bEnd ..)
      (Slot.timed_avail ..)⟩
    rw [hheader] at hle
    exact absurd hle (Nat.not_le.2 hlt)
  by_cases hwf : d.frozen.Wf
  · obtain ⟨r, x, hb⟩ := h.exists_record hsize hwf
    exact absurd hb (hun r x)
  · obtain ⟨f, hf⟩ := turn_of_not_wf h hlen hsize hwf env k
    rw [hf]
    refine fun hthaw => hwf ?_
    rw [← hheader]
    exact hthaw [] b rfl hlen (by rwa [hheader])

/-- **Draining a buffer** writes its whole records, and keeps the rest. It fails only on bytes that
are not thawable. -/
theorem drained_spec {n k : ℕ} {d : Drain} (hw : env.Complete) (h : d.Holds b)
    (hn : b.length < n) :
    Post (drained env n k d) (fun q => Thawable b ∧ DrainedFrom d.out b q)
      (fun _ => ¬ Thawable b) := by
  induction n generalizing k d b with
  | zero => omega
  | succ n ih =>
    by_cases hex : ∃ r x, b = Record.bytes r ++ x
    · obtain ⟨r, x, rfl⟩ := hex
      have hpos := r.length_bytes
      rw [List.length_append] at hn
      obtain ⟨hturn, hholds⟩ :=
        turn_complete h (k := k) (hw k r.bytes.length (by simp only [frozenLen] at hpos; omega))
      rw [drained_succ, hturn, afterTurn]
      simp only [thawable_cons_iff]
      refine (ih hholds (by simp only [frozenLen] at hpos; omega)).mono fun q hq => ?_
      obtain ⟨hthaw, rs, rest, ws, rfl, hun, hrest, hout, hall⟩ := hq
      refine ⟨hthaw, r :: rs, rest, (r.shift (d.timed env k).timediff).bytes :: ws, ?_, hun,
        hrest, ?_, .cons (stamped_shift r _) hall⟩
      · rw [List.flatMap_cons, List.append_assoc]
      · rw [hout]
        exact List.append_assoc ..
    · exact drained_unfinished h fun r x hb => hex ⟨r, x, hb⟩

theorem Slot.Holds.drain (h : s.Holds b) : ∃ m, s.relay = some m ∧ Drain.Holds ⟨m, s, []⟩ b := by
  obtain ⟨m, hrelay, hm⟩ := h.relay
  exact ⟨m, hrelay, hm, h.bEnd, h.avail⟩

/-- `transfer_out` goes through exactly on thawable bytes. -/
theorem transferOut_thawable (hw : env.Complete) (h : s.Holds b) :
    Post (transferOut env s) (fun q => Thawable b ∧ Drained b q) (fun _ => ¬ Thawable b) := by
  obtain ⟨m, hrelay, hholds⟩ := h.drain
  rw [transferOut_eq env hrelay]
  refine (drained_spec hw hholds (by rw [h.bEnd]; omega)).mono ?_
  rintro q ⟨hthaw, rs, rest, ws, hb, hun, hrest, hout, hall⟩
  exact ⟨hthaw, rs, rest, hb, hun, hrest, by rwa [hout]⟩

/-- What `transfer_out` does to a slot that holds `b`. -/
theorem transferOut_spec (hw : env.Complete) (h : s.Holds b) :
    Post (transferOut env s) (Drained b) (fun _ => ¬ Clean Record.bytes b) :=
  ((transferOut_thawable hw h).mono fun _ hq => hq.2).mono_error fun _ hthaw hc =>
    hthaw (Clean.thawable hc)

/-- Bytes that may wait in a buffer: there is no whole record in front, or nothing but a bare
header. -/
def Waiting (rest : List Byte) : Prop :=
  Unfinished Record.bytes rest ∨ rest.length = frozenLen

/-- The slot when `c` was read into its buffer `m`. -/
def Slot.fill (s : Slot) (m : Mem Byte) (c : List Byte) : Slot :=
  { s with
    relay := some (m.store s.bEnd c)
    avail := usub s.avail c.length
    bEnd := s.bEnd + c.length }

theorem Slot.Holds.fill {m : Mem Byte} {c : List Byte} (h : s.Holds b) (hm : s.relay = some m)
    (hle : c.length ≤ s.avail) : (s.fill m c).Holds (b ++ c) := by
  obtain ⟨m', hm', hbytes⟩ := h.relay
  obtain rfl : m' = m := Option.some_inj.1 (hm'.symm.trans hm)
  have hend := h.bEnd
  have havail := h.avail
  have hlen : (b ++ c).length = s.bEnd + c.length := by rw [List.length_append, hend]
  have hbuf : relayBuf < 2 ^ 32 := by decide
  have hroom : usub s.avail c.length = s.avail - c.length := usub_of_le hle (by omega)
  refine ⟨⟨_, rfl, ?_⟩, hlen.symm, by simp only [Slot.fill, hroom]; omega⟩
  have hstore := Mem.slice_store_append m' c (Nat.zero_le s.bEnd)
  rwa [Nat.sub_zero, ← hlen, hend, hbytes, ← hend] at hstore

/-- What arrives is stored, and drained when there is more than a header. -/
theorem transferIn_some {m : Mem Byte} {c : List Byte} (hm : s.relay = some m) (hc : c ≠ [])
    (hle : s.bEnd + c.length ≤ relayBuf) : transferIn env s (some c) =
      if frozenLen < s.bEnd + c.length then
        transferOut env (s.fill m c) >>= fun q => .ok ((c.length : ℤ), q.1, q.2)
      else .ok (c.length, s.fill m c, []) := by
  unfold transferIn
  simp only [hm, hc, if_false]
  rw [inBounds_of hle, ok_bind]
  rfl

/-- What `transfer_in` does to a slot that holds `b` when `c` arrives. -/
theorem transferIn_thawable {c : List Byte} (hw : env.Complete) (h : s.Holds b) (hc : c ≠ [])
    (hle : c.length ≤ s.avail) :
    Post (transferIn env s (some c))
      (fun q => (frozenLen < (b ++ c).length → Thawable (b ++ c)) ∧ 0 < q.1 ∧ ∃ rs rest,
        b ++ c = rs.flatMap Record.bytes ++ rest ∧ Waiting rest ∧ q.2.1.Holds rest ∧
          List.Forall₂ Stamped rs q.2.2)
      (fun _ => frozenLen < (b ++ c).length ∧ ¬ Thawable (b ++ c)) := by
  obtain ⟨m, hrelay, -⟩ := h.relay
  have hend := h.bEnd
  have havail := h.avail
  have hpos : 0 < c.length := List.length_pos_of_ne_nil hc
  have hlen : (b ++ c).length = s.bEnd + c.length := by rw [List.length_append, hend]
  have hholds := h.fill hrelay hle
  rw [transferIn_some hrelay hc (by omega), hlen]
  split
  · next hlt =>
    refine ((transferOut_thawable hw hholds).mono_error fun _ hthaw => ⟨hlt, hthaw⟩).bind ?_
    rintro ⟨s', out⟩ ⟨hthaw, rs, rest, hsplit, hun, hrest, hall⟩
    exact ⟨fun _ => hthaw, by simp only; omega, rs, rest, hsplit, Or.inl hun, hrest, hall⟩
  · next hsmall =>
    refine ⟨fun hlt => absurd hlt hsmall, by simp only; omega, [], b ++ c, rfl, ?_, hholds, .nil⟩
    simp only [not_lt] at hsmall
    rcases Nat.lt_or_eq_of_le hsmall with hlt | heq
    · exact Or.inl (unfinished_of_lt (by omega))
    · exact Or.inr (by omega)

/-- It fails only on bytes that no tracer sends. -/
theorem transferIn_spec {c : List Byte} (hw : env.Complete) (h : s.Holds b) (hc : c ≠ [])
    (hle : c.length ≤ s.avail) :
    Post (transferIn env s (some c)) (fun q => 0 < q.1 ∧ ∃ rs rest,
        b ++ c = rs.flatMap Record.bytes ++ rest ∧ Waiting rest ∧ q.2.1.Holds rest ∧
          List.Forall₂ Stamped rs q.2.2)
      (fun _ => ¬ Clean Record.bytes (b ++ c)) :=
  ((transferIn_thawable hw h hc hle).mono fun _ hq => hq.2).mono_error fun _ he hclean =>
    he.2 (Clean.thawable hclean)

/-- The call of the loop of `transfer_out` that a step makes, if it makes one. -/
def drainOf (st : State) : Step → Option (RelayEnv × Drain)
  | .accept _ => none
  | .input i env r =>
    match (st.slots i).relay with
    | none => none
    | some m =>
      if r.getD [] = [] then some (env, ⟨m, st.slots i, []⟩)
      else if frozenLen < (st.slots i).bEnd + (r.getD []).length then
        some (env, ⟨m.store (st.slots i).bEnd (r.getD []), (st.slots i).fill m (r.getD []), []⟩)
      else none

/-- The state when a step leaves the slot `s`. When nothing was read, the client is gone. -/
def State.leave (st : State) (i : ℕ) (r : Option (List Byte)) (s : Slot) : State :=
  if r.getD [] = [] then
    { slots := Function.update st.slots i { s with relay := none }
      active := Function.update st.active i false }
  else { st with slots := Function.update st.slots i s }

section Serve

variable {st : State} {i : ℕ} {r : Option (List Byte)} {d : Drain}

theorem drainOf_env {env' : RelayEnv} (h : drainOf st (.input i env r) = some (env', d)) :
    env' = env := by
  rw [drainOf] at h
  rcases hm : (st.slots i).relay with _ | m
  · rw [hm] at h
    cases h
  · rw [hm] at h
    simp only at h
    split at h
    · cases h
      rfl
    split at h
    · cases h
      rfl
    · cases h

theorem exists_some_of_getD {r : Option (List Byte)} (h : r.getD [] ≠ []) : ∃ c, r = some c := by
  rcases r with _ | c
  · exact absurd rfl h
  · exact ⟨c, rfl⟩

/-- What `transfer_in` does when there is nothing to read. -/
theorem transferIn_gone {m : Mem Byte} (hm : s.relay = some m) (hr : r.getD [] = []) :
    ∃ ret : ℤ, ret ≤ 0 ∧ transferIn env s r = .ok (ret, s, []) := by
  rcases r with _ | c
  · exact ⟨-1, by decide, by simp [transferIn, hm]⟩
  · obtain rfl : c = [] := hr
    exact ⟨0, by decide, by simp [transferIn, hm]⟩

/-- A slot that has no buffer is closed. -/
theorem serve_unallocated (hm : (st.slots i).relay = none) :
    serve st (.input i env r) = .ok (
      { slots := Function.update st.slots i { st.slots i with relay := none }
        active := Function.update st.active i false }, []) := by
  have hin : transferIn env (st.slots i) r = .ok (-1, st.slots i, []) := by
    simp [transferIn, hm]
  have hout : transferOut env (st.slots i) = .ok (st.slots i, []) := by rw [transferOut, hm]
  rw [serve, hin, ok_bind]
  simp only [show ((-1 : ℤ) ≤ 0) by decide, if_true, hout, ok_bind]
  rfl

/-- **A step that drains** is the loop of `transfer_out`. -/
theorem serve_drains (hd : drainOf st (.input i env r) = some (env, d))
    (hroom : r.getD [] ≠ [] → (st.slots i).bEnd + (r.getD []).length ≤ relayBuf) :
    serve st (.input i env r) =
      drained env (d.slot.bEnd + 1) 0 d >>= fun q => .ok (st.leave i r q.1, q.2) := by
  rcases hm : (st.slots i).relay with _ | m
  · rw [drainOf, hm] at hd
    cases hd
  rw [drainOf, hm] at hd
  simp only at hd
  by_cases hr : r.getD [] = []
  · rw [if_pos hr] at hd
    cases hd
    obtain ⟨ret, hret, hin⟩ :
        ∃ ret : ℤ, ret ≤ 0 ∧ transferIn env (st.slots i) r = .ok (ret, st.slots i, []) :=
      transferIn_gone hm hr
    rw [serve, hin, ok_bind]
    simp only [hret, if_true, State.leave, hr]
    rw [transferOut_eq env hm]
    rfl
  · obtain ⟨c, rfl⟩ := exists_some_of_getD hr
    rw [Option.getD_some] at hr hroom hd
    rw [if_neg hr] at hd
    split at hd
    swap
    · cases hd
    next hlt =>
    cases hd
    have hpos : 0 < c.length := List.length_pos_of_ne_nil hr
    rw [serve, transferIn_some hm hr (hroom hr), if_pos hlt,
      transferOut_eq (s := (st.slots i).fill m c) env rfl]
    rcases drained env (((st.slots i).fill m c).bEnd + 1) 0
      ⟨m.store (st.slots i).bEnd c, (st.slots i).fill m c, []⟩ with f | q
    · rfl
    · simp only [ok_bind, show ¬ ((c.length : ℤ) ≤ 0) by omega, if_false, State.leave,
        Option.getD_some, hr]
      rfl

/-- A step that does not drain adds what was read to the buffer. -/
theorem serve_rests {m : Mem Byte} (hm : (st.slots i).relay = some m)
    (hd : drainOf st (.input i env r) = none)
    (hroom : r.getD [] ≠ [] → (st.slots i).bEnd + (r.getD []).length ≤ relayBuf) :
    r.getD [] ≠ [] ∧
      serve st (.input i env r) = .ok (st.leave i r ((st.slots i).fill m (r.getD [])), []) := by
  rw [drainOf, hm] at hd
  simp only at hd
  split at hd
  · cases hd
  next hr =>
  split at hd
  · cases hd
  next hlt =>
  obtain ⟨c, rfl⟩ := exists_some_of_getD hr
  rw [Option.getD_some] at hr hroom hlt ⊢
  have hpos : 0 < c.length := List.length_pos_of_ne_nil hr
  refine ⟨hr, ?_⟩
  rw [serve, transferIn_some hm hr (hroom hr), if_neg hlt, ok_bind]
  simp only [show ¬ ((c.length : ℤ) ≤ 0) by omega, if_false, State.leave, Option.getD_some, hr]
  rfl

/-- A step that goes through has room for what was read. -/
theorem room_of_serve {m : Mem Byte} (hm : (st.slots i).relay = some m)
    {q : State × List (List Byte)} (h : serve st (.input i env r) = .ok q) :
    r.getD [] ≠ [] → (st.slots i).bEnd + (r.getD []).length ≤ relayBuf := by
  intro hr
  by_contra hnot
  obtain ⟨c, rfl⟩ := exists_some_of_getD hr
  rw [Option.getD_some] at hr hnot
  have hin : transferIn env (st.slots i) (some c) = .error .overrun := by
    simp only [transferIn, hm, hr, if_false, inBounds, hnot]
    rfl
  rw [serve, hin] at h
  cases h

end Serve

end BorderPatrol.Logd
