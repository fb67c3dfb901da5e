import BorderPatrol.Logd.Clients

/-!
# Bytes that no tracer sends

`transfer_out` takes two lengths from a header as the client sent them: the number of arguments,
which is a signed byte, and the length of the string, which is a signed word. It only asks whether
the bytes they announce have arrived, where a negative number of them counts as a huge one. A header
that has more than three arguments or a negative length then makes `thaw2` write or read outside of
its buffers, or fail its assertion, as soon as those bytes are there. So `logd` goes on, with every
turn of the loop as it should be, exactly as long as each header whose bytes are all there is
well-formed, and the log takes the bytes of a header at least (`survives_iff`).
-/

namespace BorderPatrol.Logd

open Foundations

variable {env : RelayEnv} {d : Drain} {b : List Byte} {k : ℕ} {st st' : State} {a : Step}

/-- Turn `k` of `transfer_out` is sound: the size of a record is at least that of its header, the
arguments fit, the string has a length and has arrived, nothing fails, and what goes through takes
at least a header out of the buffer. -/
structure TurnSound (env : RelayEnv) (d : Drain) (k : ℕ) : Prop where
  size : frozenLen ≤ d.slot.bEnd → frozenLen ≤ d.size
  arg : frozenLen ≤ d.slot.bEnd → d.size ≤ d.slot.bEnd → d.frozen.argLen.toInt ≤ 3
  str : frozenLen ≤ d.slot.bEnd → d.size ≤ d.slot.bEnd → 0 ≤ d.frozen.strLen.toInt ∧
    frozenLen + 4 * d.frozen.argLen.toInt + d.frozen.strLen.toInt ≤ d.slot.bEnd
  passes : ∀ f, turn env d k ≠ .error (.failed f)
  consumes : ∀ d', turn env d k = .ok d' → d'.slot.bEnd + frozenLen ≤ d.slot.bEnd

/-- `logd` survives a step: it goes through, and every turn of its loop is sound. -/
def Survives (st : State) (_ : Traffic) (a : Step) : Prop :=
  (∃ q, serve st a = .ok q) ∧ ∀ env d, drainOf st a = some (env, d) →
    ∀ n, Tried (turn env) d (List.range n) (TurnSound env)

/-- What `write` returns: an error, or how many of the bytes it took. -/
def Writes.Returns (w : Writes) : Prop := ∀ i amt, 1 ≤ amt → -1 ≤ w i amt ∧ w i amt ≤ amt

/-- A step that can come, whatever the log takes of what is written. -/
def Arrives (st : State) (_ : Traffic) : Step → Prop
  | .accept status => status < fdSetsize ∧ st.active status = false
  | .input i env r =>
    st.active i = true ∧ (∀ b, r = some b → b.length ≤ (st.slots i).avail) ∧ env.writes.Returns

/-- Turn `k` finds a well-formed header, when the bytes it announces are there, and of these the log
takes as many as a header has. -/
def TurnFine (env : RelayEnv) (d : Drain) (k : ℕ) : Prop :=
  frozenLen ≤ d.slot.bEnd → d.size ≤ d.slot.bEnd → d.frozen.Wf ∧ frozenLen ≤ env.writes k d.size

/-- So do all turns of the loop in a step. -/
def TurnsFine (st : State) (_ : Traffic) (a : Step) : Prop :=
  ∀ env d, drainOf st a = some (env, d) → ∀ n, Tried (turn env) d (List.range n) (TurnFine env)

/-- The bytes in the buffer, with those that are read, are thawable when they are drained, because
there is more than a header or the client is gone. -/
def BringsThawable (st : State) (_ : Traffic) : Step → Prop
  | .accept _ => True
  | .input i _ r => ∀ b, (st.slots i).Holds b →
    (r.getD [] ≠ [] → frozenLen < (b ++ r.getD []).length) → Thawable (b ++ r.getD [])

/-! ## Turns -/

/-- The loop has some bytes in its buffer when the counts of the slot agree. -/
theorem Drain.exists_holds (h : d.slot.bEnd + d.slot.avail = relayBuf) : ∃ b, d.Holds b := by
  refine ⟨d.buf.slice 0 d.slot.bEnd, ?_, ?_, h⟩
  · rw [Mem.length_slice]
  · rw [Mem.length_slice]

/-- A turn on a record fails with its write, or takes as many bytes as the write. -/
theorem turn_of_returns (hw : env.writes.Returns) {r : Record} {x : List Byte}
    (h : d.Holds (r.bytes ++ x)) (k : ℕ) :
    (env.writes k r.bytes.length = -1 ∧ turn env d k = .error (.failed (.exit 1))) ∨
      ∃ (t : ℕ) (d' : Drain), env.writes k r.bytes.length = t ∧ turn env d k = .ok d' ∧
        d'.slot.bEnd + t = d.slot.bEnd ∧ d'.slot.avail = d.slot.avail + t := by
  obtain ⟨hend, hlen, hlt, htbEnd, htavail⟩ := h.counts env k
  obtain ⟨hge, hle⟩ := hw k r.bytes.length (by omega)
  rw [turn_of_record h, Drain.wrote]
  by_cases hfail : env.writes k r.bytes.length = -1
  · rw [if_pos hfail]
    exact Or.inl ⟨hfail, rfl⟩
  rw [if_neg hfail]
  obtain ⟨t, ht⟩ := Int.eq_ofNat_of_zero_le (show 0 ≤ env.writes k r.bytes.length by omega)
  rw [ht] at hle ⊢
  right
  by_cases hpos : (0 : ℤ) < t
  · refine ⟨t, _, rfl, by rw [if_pos hpos]; rfl, ?_, ?_⟩
    · simp only [htbEnd, Int.toNat_natCast]
      rw [usub_of_le (by omega) (by omega)]
      omega
    · simp only [htavail, Int.toNat_natCast]
  · refine ⟨t, _, rfl, by rw [if_neg hpos]; rfl, ?_, ?_⟩
    · simp only [htbEnd]
      omega
    · simp only [htavail]
      omega

/-- The counts of the slot agree behind a turn. -/
theorem turn_holds (hw : env.writes.Returns) (h : d.Holds b) {d' : Drain}
    (hturn : turn env d k = .ok d') : ∃ b', d'.Holds b' := by
  obtain ⟨r, x, rfl⟩ := exists_record_of_turn h hturn
  have havail := h.avail
  rcases turn_of_returns hw h k with ⟨-, hfail⟩ | ⟨t, d₁, -, hok, hbEnd₁, havail₁⟩
  · rw [hfail] at hturn
    cases hturn
  · rw [hok] at hturn
    cases hturn
    exact Drain.exists_holds (by omega)

/-- **A turn is sound** if and only if it is fine. -/
theorem turnSound_iff (hw : env.writes.Returns) (h : d.Holds b) (k : ℕ) :
    TurnSound env d k ↔ TurnFine env d k := by
  have hend := h.bEnd
  constructor
  · intro hs hlen hsize
    by_cases hwf : d.frozen.Wf
    · obtain ⟨r, x, rfl⟩ := h.exists_record (by omega) hwf
      refine ⟨hwf, ?_⟩
      rw [h.size_eq]
      rcases turn_of_returns hw h k with ⟨-, hfail⟩ | ⟨t, d', ht, hok, hbEnd, -⟩
      · exact absurd hfail (hs.passes _)
      · have := hs.consumes d' hok
        omega
    · obtain ⟨f, hf⟩ := turn_of_not_wf h (by omega) (by omega) hwf env k
      exact absurd hf (hs.passes f)
  · intro hfine
    have hrecord : frozenLen ≤ d.slot.bEnd → d.size ≤ d.slot.bEnd →
        ∃ (r : Record) (x : List Byte), b = r.bytes ++ x :=
      fun hlen hsize => h.exists_record (by omega) (hfine hlen hsize).1
    have htakes : ∀ {r : Record} {x : List Byte}, b = r.bytes ++ x →
        ∃ (t : ℕ) (d' : Drain), frozenLen ≤ t ∧ turn env d k = .ok d' ∧
          d'.slot.bEnd + t = d.slot.bEnd := by
      rintro r x rfl
      have hsize := h.size_eq
      have hlen := r.length_bytes
      rw [List.length_append] at hend
      have hle := (hfine (by omega) (by omega)).2
      rw [hsize] at hle
      rcases turn_of_returns hw h k with ⟨ht, -⟩ | ⟨t, d', ht, hok, hbEnd, -⟩
      · omega
      · exact ⟨t, d', by omega, hok, hbEnd⟩
    refine ⟨fun hlen => ?_, fun hlen hsize => (hfine hlen hsize).1.arg.2, fun hlen hsize => ?_,
      fun f hf => ?_, fun d' hd' => ?_⟩
    · rcases Nat.lt_or_ge d.slot.bEnd d.size with hlt | hsize
      · omega
      · obtain ⟨r, x, rfl⟩ := hrecord hlen hsize
        rw [h.size_eq, r.length_bytes]
        exact Nat.le_add_right ..
    · obtain ⟨harg, hstr⟩ := (hfine hlen hsize).1
      obtain ⟨r, x, rfl⟩ := hrecord hlen hsize
      rw [h.size_eq, r.length_bytes, LogentryFrozen.restLen, ← h.frozen_eq] at hsize
      exact ⟨hstr, by omega⟩
    · rcases Nat.lt_or_ge d.slot.bEnd frozenLen with hlt | hlen
      · rw [turn_of_lt hlt] at hf
        cases hf
      rcases Nat.lt_or_ge d.slot.bEnd d.size with hlt | hsize
      · rw [turn_of_size_lt hlen hlt] at hf
        cases hf
      obtain ⟨r, x, hb⟩ := hrecord hlen hsize
      obtain ⟨t, d', -, hok, -⟩ := htakes hb
      rw [hok] at hf
      cases hf
    · obtain ⟨r, x, hb⟩ := exists_record_of_turn h hd'
      obtain ⟨t, d₁, ht, hok, hbEnd⟩ := htakes hb
      rw [hok] at hd'
      cases hd'
      omega

/-- All turns of a loop are sound if and only if they are fine. -/
theorem tried_turnSound_iff (hw : env.writes.Returns) (h : d.Holds b) (ks : List ℕ) :
    Tried (turn env) d ks (TurnSound env) ↔ Tried (turn env) d ks (TurnFine env) := by
  refine tried_iff (I := fun d => ∃ b, d.Holds b) ⟨b, h⟩ ?_ ?_
  · rintro d k ⟨b, h⟩
    exact turnSound_iff hw h k
  · rintro d k d' ⟨b, h⟩ - hturn
    exact turn_holds hw h hturn

/-- A loop that returns leaves a slot whose counts agree. -/
theorem drained_holds (hw : env.writes.Returns) {n : ℕ} (h : d.Holds b)
    {q : Slot × List (List Byte)} (hq : drained env n k d = .ok q) : ∃ rest, q.1.Holds rest := by
  obtain ⟨j, d', s, hrun, hend, rfl⟩ := exists_run_of_drained hq
  obtain ⟨b', hb'⟩ : ∃ b, d'.Holds b := by
    refine always_of_step (I := fun d : Drain => ∃ b, d.Holds b) ⟨b, h⟩ ?_ _ List.prefix_rfl d' hrun
    rintro d k d' ⟨b, h⟩ hturn
    exact turn_holds hw h hturn
  obtain ⟨hbEnd, havail⟩ := turn_returned hend
  have hsum := hb'.avail
  exact ⟨b', ⟨d'.buf, rfl, hb'.bytes⟩, hbEnd.trans hb'.bEnd, by simp only; omega⟩

/-- A loop whose turns are sound returns: a turn takes something from the buffer. -/
theorem drained_total {n : ℕ} (hn : d.slot.bEnd < n)
    (hs : ∀ m, Tried (turn env) d (List.range' k m) (TurnSound env)) :
    ∃ q, drained env n k d = .ok q := by
  induction n generalizing k d with
  | zero => omega
  | succ n ih =>
    have hsound : TurnSound env d k := (tried_cons.1 (hs 1)).1
    rw [drained_succ]
    rcases hturn : turn env d k with e | d'
    · rcases e with s | f
      · exact ⟨_, rfl⟩
      · exact absurd hturn (hsound.passes f)
    · have hlt := hsound.consumes d' hturn
      have hfroz : frozenLen = 32 := rfl
      exact ih (by omega) fun m => (tried_cons.1 (hs (m + 1))).2 d' hturn

/-! ## Steps -/

/-- The slots account for their buffers, and those that are read have one. -/
structure Sized (st : State) : Prop where
  sized : ∀ i, (st.slots i).bEnd + (st.slots i).avail = relayBuf
  opened : ∀ i, st.active i = true → ∃ b, (st.slots i).Holds b

theorem sized_init : Sized State.init := ⟨fun _ => Nat.zero_add _, fun _ h => nomatch h⟩

/-- A step on one slot. -/
theorem Sized.update (h : Sized st) {i : ℕ} {s : Slot} {act : ℕ → Bool}
    (hs : s.bEnd + s.avail = relayBuf) (hact : ∀ j, j ≠ i → act j = st.active j)
    (hopen : act i = true → ∃ b, s.Holds b) :
    Sized { slots := Function.update st.slots i s, active := act } where
  sized := by
    intro j
    by_cases hj : j = i
    · subst hj
      simpa using hs
    · simpa [hj] using h.sized j
  opened := by
    intro j hj
    by_cases hji : j = i
    · subst hji
      simpa using hopen hj
    · simp only [Function.update_of_ne hji]
      exact h.opened j ((hact j hji).symm.trans hj)

/-- What a step of a client drains is in a buffer whose counts agree, and there is room for what is
read. -/
theorem Sized.input (h : Sized st) {tr : Traffic} {i : ℕ} {r : Option (List Byte)}
    (ha : Arrives st tr (.input i env r)) : ∃ (b : List Byte) (m : Mem Byte),
      (st.slots i).Holds b ∧ (st.slots i).relay = some m ∧ (r.getD []).length ≤ (st.slots i).avail ∧
        (st.slots i).bEnd + (r.getD []).length ≤ relayBuf := by
  obtain ⟨hact, hroom, -⟩ := ha
  obtain ⟨b, hb⟩ := h.opened i hact
  obtain ⟨m, hm, -⟩ := hb.relay
  have havail := hb.avail
  have hle : (r.getD []).length ≤ (st.slots i).avail := by
    rcases r with _ | c
    · exact Nat.zero_le _
    · exact hroom c rfl
  exact ⟨b, m, hb, hm, hle, by omega⟩

/-- The loop of a step holds the bytes in the buffer and those that are read. -/
theorem drainOf_holds {i : ℕ} {r : Option (List Byte)} (hb : (st.slots i).Holds b)
    (hle : (r.getD []).length ≤ (st.slots i).avail)
    (hd : drainOf st (.input i env r) = some (env, d)) : d.Holds (b ++ r.getD []) ∧
      (r.getD [] ≠ [] → frozenLen < (b ++ r.getD []).length) := by
  obtain ⟨m, hm, hbytes⟩ := hb.relay
  rw [drainOf, hm] at hd
  simp only at hd
  by_cases hr : r.getD [] = []
  · rw [if_pos hr] at hd
    cases hd
    rw [hr, List.append_nil]
    exact ⟨⟨hbytes, hb.bEnd, hb.avail⟩, fun hne => absurd rfl hne⟩
  · rw [if_neg hr] at hd
    split at hd
    · next hlt =>
      cases hd
      obtain ⟨m', hm', hfill⟩ := (hb.fill hm hle).drain
      cases hm'
      refine ⟨hfill, fun _ => ?_⟩
      rw [List.length_append, ← hb.bEnd]
      exact hlt
    · cases hd

/-- A step that leaves a slot whose counts agree keeps the slots sized. -/
theorem Sized.leave (h : Sized st) {i : ℕ} (r : Option (List Byte)) {s : Slot}
    (hs : ∃ b, s.Holds b) : Sized (st.leave i r s) := by
  obtain ⟨b, hb⟩ := hs
  rw [State.leave]
  split
  · exact h.update hb.avail (fun j hj => Function.update_of_ne hj ..) (by simp)
  · exact h.update hb.avail (fun _ _ => rfl) fun _ => ⟨b, hb⟩

/-- **A step** that goes through keeps the slots sized. -/
theorem Sized.step (h : Sized st) {tr : Traffic} (ha : Arrives st tr a)
    {q : State × List (List Byte)} (hserve : serve st a = .ok q) : Sized q.1 := by
  rcases a with i | ⟨i, env, r⟩
  · rw [serve, inBounds_of ha.1, ok_bind] at hserve
    cases hserve
    exact h.update (h.sized i) (fun j hj => Function.update_of_ne hj ..)
      fun _ => ⟨(Mem.slice (fun _ => 0) 0 (st.slots i).bEnd),
        ⟨_, rfl, by rw [Mem.length_slice]⟩, (Mem.length_slice ..).symm, h.sized i⟩
  · obtain ⟨b, m, hb, hm, hle, hroom⟩ := h.input ha
    rcases hd : drainOf st (.input i env r) with _ | ⟨env', d⟩
    · rw [(serve_rests hm hd fun _ => hroom).2] at hserve
      cases hserve
      exact h.leave r ⟨_, hb.fill hm hle⟩
    · obtain rfl := drainOf_env hd
      rw [serve_drains hd fun _ => hroom] at hserve
      obtain ⟨q', hdrained, hret⟩ := bind_eq_ok hserve
      cases hret
      exact h.leave r (drained_holds ha.2.2 (drainOf_holds hb hle hd).1 hdrained)

/-- A step goes through when the turns of its loop are sound. -/
theorem serve_total (h : Sized st) {tr : Traffic} (ha : Arrives st tr a)
    (hs : ∀ env d, drainOf st a = some (env, d) →
      ∀ n, Tried (turn env) d (List.range n) (TurnSound env)) : ∃ q, serve st a = .ok q := by
  rcases a with i | ⟨i, env, r⟩
  · rw [serve, inBounds_of ha.1, ok_bind]
    exact ⟨_, rfl⟩
  · obtain ⟨b, m, hb, hm, hle, hroom⟩ := h.input ha
    rcases hd : drainOf st (.input i env r) with _ | ⟨env', d⟩
    · exact ⟨_, (serve_rests hm hd fun _ => hroom).2⟩
    · obtain rfl := drainOf_env hd
      obtain ⟨q, hq⟩ := drained_total (n := d.slot.bEnd + 1) (k := 0) (Nat.lt_succ_self _)
        fun m => List.range_eq_range' ▸ hs env' d hd m
      rw [serve_drains hd fun _ => hroom, hq]
      exact ⟨_, rfl⟩

/-- A step is survived if and only if its turns are fine. -/
theorem survives_iff_fine (h : Sized st) {tr : Traffic} (ha : Arrives st tr a) :
    Survives st tr a ↔ TurnsFine st tr a := by
  have hturns : (∀ env d, drainOf st a = some (env, d) →
      ∀ n, Tried (turn env) d (List.range n) (TurnSound env)) ↔ TurnsFine st tr a := by
    refine forall_congr' fun env => forall_congr' fun d => imp_congr_right fun hd =>
      forall_congr' fun n => ?_
    rcases a with i | ⟨i, env', r⟩
    · cases hd
    · obtain rfl := drainOf_env hd
      obtain ⟨b, m, hb, hm, hle, -⟩ := h.input ha
      exact tried_turnSound_iff ha.2.2 (drainOf_holds hb hle hd).1 _
  rw [← hturns]
  exact ⟨fun hs => hs.2, fun hs => ⟨serve_total h ha hs, hs⟩⟩

/-! ## Writes that take everything -/

theorem RelayEnv.Complete.returns (hw : env.Complete) : env.writes.Returns := by
  intro i amt hamt
  rw [hw i amt (by omega)]
  exact ⟨by omega, Int.le_refl _⟩

theorem Allowed.arrives {tr : Traffic} (h : Allowed st tr a) : Arrives st tr a := by
  rcases a with i | ⟨i, env, r⟩
  · exact h
  · exact ⟨h.1, h.2.1, h.2.2.returns⟩

/-- The turns of a loop whose writes take everything are fine if and only if its bytes are thawable.
-/
theorem tried_turnFine_iff (hw : env.Complete) (h : d.Holds b) :
    (∀ n, Tried (turn env) d (List.range n) (TurnFine env)) ↔ Thawable b := by
  constructor
  · intro hfine
    obtain ⟨q, hq⟩ := drained_total (n := d.slot.bEnd + 1) (k := 0) (Nat.lt_succ_self _) fun m =>
      (tried_turnSound_iff hw.returns h _).2 (List.range_eq_range' ▸ hfine m)
    exact ((drained_spec hw h (by rw [h.bEnd]; exact Nat.lt_succ_self _)).of_eq_ok hq).1
  · intro ht n
    refine tried_of_invariant (I := fun d => ∃ b, d.Holds b ∧ Thawable b) ⟨b, h, ht⟩ ?_ ?_
    · rintro d k ⟨b, h, ht⟩ hlen hsize
      have hend := h.bEnd
      have hheader := h.headerOf_eq (by omega)
      have hwf : d.frozen.Wf := by
        rw [← hheader]
        refine ht [] b rfl (by omega) ?_
        rw [hheader]
        exact hsize.trans (by omega)
      obtain ⟨r, x, rfl⟩ := h.exists_record (by omega) hwf
      have hpos := r.length_bytes
      refine ⟨hwf, ?_⟩
      rw [h.size_eq, hw k _ (by simp only [frozenLen] at hpos; omega), hpos]
      omega
    · rintro d k d' ⟨b, h, ht⟩ hturn
      obtain ⟨r, x, rfl⟩ := exists_record_of_turn h hturn
      have hpos := r.length_bytes
      obtain ⟨heq, hholds⟩ :=
        turn_complete h (hw k r.bytes.length (by simp only [frozenLen] at hpos; omega))
      rw [heq] at hturn
      cases hturn
      exact ⟨x, hholds, thawable_cons_iff.1 ht⟩

theorem Slot.Holds.unique {s : Slot} {b' : List Byte} (h : s.Holds b) (h' : s.Holds b') :
    b' = b := by
  obtain ⟨m, hm, hbytes⟩ := h.relay
  obtain ⟨m', hm', hbytes'⟩ := h'.relay
  obtain rfl := Option.some_inj.1 (hm.symm.trans hm')
  rw [← hbytes, ← hbytes', ← h.bEnd, ← h'.bEnd]

/-- A step whose writes take everything has fine turns if and only if it brings thawable bytes. -/
theorem turnsFine_iff_brings (h : Sized st) {tr : Traffic} (ha : Allowed st tr a) :
    TurnsFine st tr a ↔ BringsThawable st tr a := by
  rcases a with i | ⟨i, env, r⟩
  · exact iff_of_true (fun _ _ hd => by cases hd) trivial
  obtain ⟨b, m, hb, hm, hle, hroom⟩ := h.input ha.arrives
  -- the slot holds nothing else
  have hbrings : BringsThawable st tr (.input i env r) ↔
      ((r.getD [] ≠ [] → frozenLen < (b ++ r.getD []).length) → Thawable (b ++ r.getD [])) := by
    refine ⟨fun hbrings => hbrings b hb, fun hthaw b' hb' => ?_⟩
    rw [hb.unique hb']
    exact hthaw
  rw [hbrings]
  rcases hd : drainOf st (.input i env r) with _ | ⟨env', d⟩
  · refine iff_of_true (fun _ _ hd' => ?_) fun hlt => ?_
    · rw [hd] at hd'
      cases hd'
    · rw [drainOf, hm] at hd
      simp only at hd
      split at hd
      · cases hd
      next hr =>
      split at hd
      · cases hd
      next hsmall =>
      have := hlt hr
      rw [List.length_append, ← hb.bEnd] at this
      exact absurd this hsmall
  · obtain rfl := drainOf_env hd
    obtain ⟨hholds, hlt⟩ := drainOf_holds hb hle hd
    have hiff := tried_turnFine_iff ha.2.2 hholds
    refine ⟨fun hfine _ => hiff.1 (hfine env' d hd), fun hthaw env d' hd' => ?_⟩
    cases hd.symm.trans hd'
    exact hiff.2 (hthaw hlt)

/-! ## Runs -/

/-- The slots are sized in every state of a run. -/
theorem serveAll_sized {as pre : List Step} (ha : Along Arrives as) (hpre : pre <+: as)
    {tr : Traffic} (hrun : serveAll .init .init pre = .ok (st, tr)) : Sized st := by
  refine (along_iff_tried.1 ha).always (I := fun q => Sized q.1) sized_init ?_ pre hpre (st, tr)
    (by rw [← serveAll_eq_runSteps, hrun])
  rintro ⟨st, tr⟩ a ⟨st', tr'⟩ hsized harrives hstep
  obtain ⟨⟨st₁, out⟩, hserve, heq⟩ := bind_eq_ok hstep
  cases heq
  exact hsized.step harrives hserve

/-- Two properties of steps that are the same where the slots are sized. -/
theorem along_congr {as : List Step} {P Q : State → Traffic → Step → Prop}
    (ha : Along Arrives as)
    (h : ∀ st tr a, Sized st → (∃ pre, pre ++ [a] <+: as ∧
      serveAll .init .init pre = .ok (st, tr)) → (P st tr a ↔ Q st tr a)) :
    Along P as ↔ Along Q as := by
  refine forall_congr' fun pre => forall_congr' fun a => imp_congr_right fun hpre =>
    forall_congr' fun st => forall_congr' fun tr => imp_congr_right fun hrun => ?_
  exact h st tr a (serveAll_sized ha ((List.prefix_append pre [a]).trans hpre) hrun)
    ⟨pre, hpre, hrun⟩

/-- **`logd` survives** every step of a run, if and only if every turn of its loops finds a
well-formed header and the log takes a header's bytes; and when the log takes all that is written,
if and only if at each step the headers it drains whose bytes are all there are well-formed. -/
theorem survives_iff (as : List Step) (ha : Along Arrives as) :
    (Along Survives as ↔ Along TurnsFine as) ∧
      (Along Allowed as → (Along Survives as ↔ Along BringsThawable as)) := by
  have hfine : Along Survives as ↔ Along TurnsFine as :=
    along_congr ha fun st tr a hsized ⟨pre, hpre, hrun⟩ =>
      survives_iff_fine hsized (ha pre a hpre st tr hrun)
  refine ⟨hfine, fun hallowed => hfine.trans ?_⟩
  exact along_congr ha fun st tr a hsized ⟨pre, hpre, hrun⟩ =>
    turnsFine_iff_brings hsized (hallowed pre a hpre st tr hrun)

/-- A client sends a header whose string has the length -1, and one more byte. -/
def negativeLength : List Step :=
  [.accept 5, .input 5 noon (some (List.replicate 26 0 ++ [255, 255] ++ List.replicate 5 0))]

theorem negativeLength_allowed : Along Allowed negativeLength := by
  refine along_of_check (p := checkAllowed) (by decide +kernel) fun st tr a ha h => ?_
  refine allowed_of_check h ?_
  rintro i env r rfl
  simp only [negativeLength, List.mem_cons, Step.input.injEq, reduceCtorEq, false_or,
    List.not_mem_nil, or_false] at ha
  obtain ⟨-, rfl, -⟩ := ha
  exact noon_complete

theorem negativeLength_arrives : Along Arrives negativeLength :=
  fun pre a hpre st tr hrun => (negativeLength_allowed pre a hpre st tr hrun).arrives

theorem survives_iff_negativeLength :
    (Along Survives negativeLength ↔ Along TurnsFine negativeLength) ∧
      (Along Allowed negativeLength →
        (Along Survives negativeLength ↔ Along BringsThawable negativeLength)) :=
  survives_iff negativeLength negativeLength_arrives

/-- **A negative length** makes `thaw2` copy out of bounds. -/
theorem negative_length_overruns :
    Along Allowed negativeLength ∧ ¬ Along Survives negativeLength := by
  refine ⟨negativeLength_allowed, fun h => ?_⟩
  have hfail : serveAll .init .init negativeLength = .error .overrun := rfl
  rcases hrun : serveAll .init .init [.accept 5] with e | ⟨st, tr⟩
  · cases hrun
  obtain ⟨⟨q, hq⟩, -⟩ := h [.accept 5] _ List.prefix_rfl st tr hrun
  have hall := serveAll_concat State.init Traffic.init [.accept 5]
    (.input 5 noon (some (List.replicate 26 0 ++ [255, 255] ++ List.replicate 5 0)))
  rw [hrun, ok_bind, hq, ok_bind] at hall
  cases hfail.symm.trans hall

end BorderPatrol.Logd
