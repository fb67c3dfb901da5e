import BorderPatrol.Logd.Clients

/-!
# The clock offsets

`record_timediff` takes the difference of the clocks at the first header that is decoded while the
slot of the descriptor has none, which is told by its being zero. The difference is not reset when a
connection ends, and a difference that is zero is taken again at the next header. So the stamps that
the log gets from a connection are all shifted by its own difference exactly when its first header
finds none, or the right one, and the difference taken then is not zero, or zero at each header up
to the last whose record is logged (`one_offset_iff`).
-/

namespace BorderPatrol.Logd

open Foundations

variable {env : RelayEnv} {d : Drain} {k : ℕ} {st st' : State} {tr : Traffic} {a : Step}

/-- A header that was decoded: the time, the difference in the slot before and behind, the bytes
that were given to `write`, if it came to that, and how many it took. -/
structure Decode where
  fz : LogentryFrozen
  now : Timeval
  before : Timeval
  diff : Timeval
  buf : Option (List Byte)
  took : ℤ

/-- The difference of the clocks at a header. -/
def Decode.recorded (e : Decode) : Timeval := timersub e.now e.fz.time

/-- What the log got. -/
def Decode.out (e : Decode) : List (List Byte) :=
  match e.buf with
  | none => []
  | some w => if 0 < e.took then [w.take e.took.toNat] else []

/-- The header decoded in a turn, when there is one. -/
def decodeOf (env : RelayEnv) (d : Drain) (k : ℕ) : List Decode :=
  if d.slot.bEnd < frozenLen then []
  else
    [{  fz := d.frozen
        now := env.clock k
        before := d.slot.timediff
        diff := (d.timed env k).timediff
        buf := if d.slot.bEnd < d.size then none else (d.stamped env k).toOption
        took := env.writes k d.size }]

/-- The headers decoded in a call of the loop of `transfer_out`. -/
def decodesOf (env : RelayEnv) (n k : ℕ) (d : Drain) : List Decode :=
  (triedSteps (turn env) d (List.range' k n)).flatMap fun q => decodeOf env q.1 q.2

/-! ## What a list of headers does to the difference -/

/-- The headers were decoded one after the other, the first with the difference `diff` in the slot.
-/
def Chained : Timeval → List Decode → Prop
  | _, [] => True
  | diff, e :: es => e.before = diff ∧
    e.diff = (if timerisset diff then diff else e.recorded) ∧ Chained e.diff es

/-- The difference behind the headers. -/
def lastDiff (diff : Timeval) (es : List Decode) : Timeval := es.foldl (fun _ e => e.diff) diff

theorem chained_append {diff : Timeval} {es es' : List Decode} :
    Chained diff (es ++ es') ↔ Chained diff es ∧ Chained (lastDiff diff es) es' := by
  induction es generalizing diff with
  | nil => simp [Chained, lastDiff]
  | cons e es ih =>
    rw [List.cons_append, Chained, Chained, ih, and_assoc, and_assoc]
    rfl

theorem eq_zero_of_not_timerisset {t : Timeval} (h : ¬ timerisset t) : t = ⟨0, 0⟩ := by
  obtain ⟨sec, usec⟩ := t
  simpa [timerisset] using h

theorem not_timerisset_zero : ¬ timerisset ⟨0, 0⟩ := by decide

/-- A difference that is set stays. -/
theorem Chained.eq_of_set {diff : Timeval} {es : List Decode} (h : Chained diff es)
    (hset : timerisset diff) : ∀ e ∈ es, e.diff = diff := by
  induction es with
  | nil => simp
  | cons e es ih =>
    obtain ⟨-, hdiff, hes⟩ := h
    rw [if_pos hset] at hdiff
    rw [hdiff] at hes
    exact List.forall_mem_cons.2 ⟨hdiff, ih hes⟩

/-- One that is not set stays zero as long as the clocks agree. -/
theorem Chained.eq_zero_iff {es : List Decode} (h : Chained ⟨0, 0⟩ es) :
    (∀ e ∈ es, e.diff = ⟨0, 0⟩) ↔ ∀ e ∈ es, ¬ timerisset e.recorded := by
  induction es with
  | nil => simp
  | cons e es ih =>
    obtain ⟨-, hdiff, hes⟩ := h
    rw [if_neg not_timerisset_zero] at hdiff
    rw [List.forall_mem_cons, List.forall_mem_cons, hdiff]
    constructor
    · rintro ⟨hzero, hall⟩
      rw [hdiff, hzero] at hes
      exact ⟨hzero ▸ not_timerisset_zero, (ih hes).1 hall⟩
    · rintro ⟨hunset, hall⟩
      have hzero := eq_zero_of_not_timerisset hunset
      rw [hdiff, hzero] at hes
      exact ⟨hzero, (ih hes).2 hall⟩

/-- The offset of a connection: the difference of the clocks at its first header. -/
def offset : List Decode → Timeval
  | [] => ⟨0, 0⟩
  | e :: _ => e.recorded

/-- The first header of a connection finds no difference, or the right one; and when it finds none,
the one that is then recorded is not zero, or is so at each header. -/
def StartsRight : List Decode → Prop
  | [] => True
  | e :: es => (timerisset e.before → e.before = e.recorded) ∧
    (¬ timerisset e.before → timerisset e.recorded ∨ ∀ e' ∈ es, ¬ timerisset e'.recorded)

/-- **All headers are given one offset** if and only if they start right. -/
theorem Chained.offset_iff {diff : Timeval} {es : List Decode} (h : Chained diff es) :
    (∀ e ∈ es, e.diff = offset es) ↔ StartsRight es := by
  rcases es with _ | ⟨e, es⟩
  · simp [StartsRight]
  obtain ⟨rfl, hdiff, hes⟩ := h
  rw [List.forall_mem_cons, offset, StartsRight]
  by_cases hset : timerisset e.before
  · -- an old difference is kept
    rw [if_pos hset] at hdiff
    rw [hdiff] at hes ⊢
    simp only [hset, true_imp_iff, not_true_eq_false, false_imp_iff, and_true]
    refine ⟨fun hall => hall.1, fun heq => ⟨heq, fun e' he' => ?_⟩⟩
    rw [hes.eq_of_set hset e' he', heq]
  · rw [if_neg hset] at hdiff
    rw [hdiff] at hes ⊢
    simp only [hset, false_imp_iff, not_false_eq_true, true_imp_iff, true_and]
    by_cases hrec : timerisset e.recorded
    · exact iff_of_true (hes.eq_of_set hrec) (.inl hrec)
    · have hzero := eq_zero_of_not_timerisset hrec
      rw [hzero] at hes ⊢
      rw [hes.eq_zero_iff, or_iff_right not_timerisset_zero]

/-- Before a header that leaves none, no difference was set. -/
theorem Chained.unset_of_last {diff : Timeval} {es : List Decode} {e : Decode}
    (h : Chained diff (es ++ [e])) (hlast : ¬ timerisset e.diff) :
    ∀ e' ∈ es, ¬ timerisset e'.diff := by
  induction es generalizing diff with
  | nil => simp
  | cons a es ih =>
    obtain ⟨-, -, hes⟩ := h
    refine List.forall_mem_cons.2 ⟨fun hset => hlast ?_, ih hes⟩
    rwa [hes.eq_of_set hset e (by simp)]

/-- **The last header is given the offset** if and only if the headers up to it start right. -/
theorem Chained.last_iff {diff : Timeval} {es : List Decode} {e : Decode}
    (h : Chained diff (es ++ [e])) :
    e.diff = offset (es ++ [e]) ↔ StartsRight (es ++ [e]) := by
  rw [← h.offset_iff]
  refine ⟨fun hlast => ?_, fun hall => hall e (by simp)⟩
  rcases es with _ | ⟨e₀, es⟩
  · simpa using hlast
  obtain ⟨rfl, hdiff, hes⟩ := h
  change e.diff = e₀.recorded at hlast
  refine List.forall_mem_cons.2 ?_
  change e₀.diff = e₀.recorded ∧ ∀ e' ∈ es ++ [e], e'.diff = e₀.recorded
  by_cases hset : timerisset e₀.diff
  · have hall := hes.eq_of_set hset
    have heq : e₀.diff = e₀.recorded := (hall e (by simp)).symm.trans hlast
    exact ⟨heq, fun e' he' => (hall e' he').trans heq⟩
  · -- the first header finds none, and the clocks agree up to the last
    have hbefore : ¬ timerisset e₀.before := by
      intro hb
      rw [if_pos hb] at hdiff
      exact hset (hdiff ▸ hb)
    rw [if_neg hbefore] at hdiff
    have hunset := hes.unset_of_last (by rwa [hlast, ← hdiff])
    refine ⟨hdiff, fun e' he' => ?_⟩
    rcases List.mem_append.1 he' with he' | he'
    · rw [eq_zero_of_not_timerisset (hunset e' he'), ← hdiff, eq_zero_of_not_timerisset hset]
    · rw [List.mem_singleton.1 he', hlast]

/-! ## The loop -/

theorem orFailed_bind_eq_ok {α β : Type} {x : Except Fault α} {f : α → Except Fault β} {b : β}
    (h : orFailed (x >>= f) = .ok b) : ∃ a, x = .ok a ∧ f a = .ok b := by
  rcases x with e | a
  · cases h
  · refine ⟨a, rfl, ?_⟩
    rw [ok_bind] at h
    rcases hf : f a with e | b'
    · rw [hf] at h
      cases h
    · rw [hf] at h
      cases h
      rfl

theorem Slot.timediff_mk (relay : Option (Mem Byte)) (bEnd avail : ℕ) (diff : Timeval) :
    (Slot.mk relay bEnd avail diff).timediff = diff := rfl

theorem Drain.wrote_eq_ok {s : Slot} {buf : List Byte} {t : ℤ} {d' : Drain}
    (h : d.wrote s buf t = .ok d') : d'.slot.timediff = s.timediff ∧
      d'.out = d.out ++ if 0 < t then [buf.take t.toNat] else [] := by
  unfold Drain.wrote at h
  split at h
  · cases h
  split at h
  · next hpos =>
    obtain rfl := Except.ok.inj h
    rw [if_pos hpos]
    exact ⟨Slot.timediff_mk .., rfl⟩
  · next hpos =>
    obtain rfl := Except.ok.inj h
    rw [if_neg hpos, List.append_nil]
    exact ⟨rfl, rfl⟩

/-- The difference that a turn leaves, and what it adds to the log. -/
theorem turn_timediff {d' : Drain} (h : turn env d k = .ok d') :
    d'.slot.timediff = lastDiff d.slot.timediff (decodeOf env d k) ∧
      d'.out = d.out ++ (decodeOf env d k).flatMap Decode.out := by
  rw [turn] at h
  by_cases hlt : d.slot.bEnd < frozenLen
  · rw [if_pos hlt] at h
    cases h
  by_cases hsize : d.slot.bEnd < d.size
  · rw [if_neg hlt, if_pos hsize] at h
    cases h
  rw [if_neg hlt, if_neg hsize] at h
  obtain ⟨buf, hbuf, hwrote⟩ := orFailed_bind_eq_ok h
  obtain ⟨hdiff, hout⟩ := Drain.wrote_eq_ok hwrote
  rw [decodeOf, if_neg hlt, if_neg hsize, hbuf, List.flatMap_singleton]
  exact ⟨hdiff, hout⟩

theorem chained_decodeOf (env : RelayEnv) (d : Drain) (k : ℕ) :
    Chained d.slot.timediff (decodeOf env d k) := by
  rw [decodeOf]
  split
  · trivial
  · refine ⟨rfl, ?_, trivial⟩
    simp only [Drain.timed, Slot.timed, Decode.recorded, recordTimediff]
    split <;> rfl

/-- The headers of the loop are decoded one after the other. -/
theorem chained_decodesOf (env : RelayEnv) (n k : ℕ) (d : Drain) :
    Chained d.slot.timediff (decodesOf env n k d) := by
  induction n generalizing k d with
  | zero => trivial
  | succ n ih =>
    rw [decodesOf, List.range'_succ]
    rcases hturn : turn env d k with e | d'
    · rw [triedSteps_of_error hturn, List.flatMap_singleton]
      exact chained_decodeOf env d k
    · rw [triedSteps_of_ok hturn, List.flatMap_cons, chained_append, ← (turn_timediff hturn).1]
      exact ⟨chained_decodeOf env d k, ih (k + 1) d'⟩

/-- **What the loop leaves**: the difference behind its headers, and what was written of them. -/
theorem drained_decodes {n k : ℕ} {q : Slot × List (List Byte)}
    (h : drained env n k d = .ok q) :
    q.1.timediff = lastDiff d.slot.timediff (decodesOf env n k d) ∧
      q.2 = d.out ++ (decodesOf env n k d).flatMap Decode.out := by
  induction n generalizing k d with
  | zero => cases h
  | succ n ih =>
    rw [drained_succ] at h
    rw [decodesOf, List.range'_succ]
    rcases hturn : turn env d k with e | d'
    · rw [triedSteps_of_error hturn, List.flatMap_singleton]
      rw [hturn] at h
      rcases e with s | f
      · cases h
        -- a turn that returns writes nothing
        rw [turn] at hturn
        by_cases hlt : d.slot.bEnd < frozenLen
        · rw [if_pos hlt] at hturn
          cases hturn
          simp [decodeOf, hlt, lastDiff]
        by_cases hsize : d.slot.bEnd < d.size
        · rw [if_neg hlt, if_pos hsize] at hturn
          cases hturn
          simp [decodeOf, hlt, hsize, lastDiff, Decode.out]
        · rw [if_neg hlt, if_neg hsize] at hturn
          generalize (d.stamped env k >>= fun buf =>
            d.wrote (d.timed env k) buf (env.writes k d.size)) = x at hturn
          cases x <;> cases hturn
      · cases h
    · rw [hturn] at h
      obtain ⟨hdiff, hout⟩ := turn_timediff hturn
      obtain ⟨ih₁, ih₂⟩ := ih h
      rw [triedSteps_of_ok hturn, List.flatMap_cons, ← decodesOf]
      constructor
      · rw [ih₁, hdiff, lastDiff, lastDiff, lastDiff, List.foldl_append]
      · rw [ih₂, hout, List.flatMap_append, List.append_assoc]

/-! ## The steps -/

/-- The headers decoded in a step. -/
def stepDecodes (st : State) (a : Step) : List Decode :=
  match drainOf st a with
  | none => []
  | some (env, d) => decodesOf env (d.slot.bEnd + 1) 0 d

/-- The loop of a step begins with the difference in the slot, and nothing written. -/
theorem drainOf_timediff {i : ℕ} {env' : RelayEnv} {r : Option (List Byte)}
    (h : drainOf st (.input i env r) = some (env', d)) :
    d.slot.timediff = (st.slots i).timediff ∧ d.out = [] := by
  rw [drainOf] at h
  rcases hm : (st.slots i).relay with _ | m
  · rw [hm] at h
    cases h
  · rw [hm] at h
    simp only at h
    split at h
    · cases h
      exact ⟨rfl, rfl⟩
    split at h
    · cases h
      exact ⟨Slot.timediff_mk .., rfl⟩
    · cases h

/-- What a step does to the slot it serves, when it goes through. -/
structure Served (st : State) (a : Step) (i : ℕ) (st' : State) (out : List (List Byte)) : Prop where
  timediff : (st'.slots i).timediff = lastDiff (st.slots i).timediff (stepDecodes st a)
  out : out = (stepDecodes st a).flatMap Decode.out
  others : ∀ j, j ≠ i → st'.slots j = st.slots j ∧ st'.active j = st.active j

theorem serve_input {i : ℕ} {r : Option (List Byte)} {out : List (List Byte)}
    (h : serve st (.input i env r) = .ok (st', out)) :
    Served st (.input i env r) i st' out := by
  rcases hm : (st.slots i).relay with _ | m
  · -- there is no buffer
    have hnone : drainOf st (.input i env r) = none := by rw [drainOf, hm]
    rw [serve_unallocated hm] at h
    cases h
    refine ⟨?_, ?_, fun j hj => ⟨Function.update_of_ne hj .., Function.update_of_ne hj ..⟩⟩
    · simp only [stepDecodes, hnone, Function.update_self]
      rfl
    · simp only [stepDecodes, hnone]
      rfl
  have hroom := room_of_serve hm h
  rcases hd : drainOf st (.input i env r) with _ | ⟨env', d⟩
  · obtain ⟨hr, heq⟩ := serve_rests hm hd hroom
    rw [heq, State.leave, if_neg hr] at h
    cases h
    refine ⟨?_, ?_, fun j hj => ⟨Function.update_of_ne hj .., rfl⟩⟩
    · simp only [stepDecodes, hd, Function.update_self]
      exact Slot.timediff_mk ..
    · simp only [stepDecodes, hd]
      rfl
  · obtain rfl := drainOf_env hd
    rw [serve_drains hd hroom] at h
    obtain ⟨⟨s', out'⟩, hdrained, h⟩ := bind_eq_ok h
    cases h
    obtain ⟨hdiff, hout⟩ := drained_decodes hdrained
    obtain ⟨htimediff, hnil⟩ := drainOf_timediff hd
    rw [hnil, List.nil_append] at hout
    rw [htimediff] at hdiff
    refine ⟨?_, ?_, fun j hj => ?_⟩
    · rw [stepDecodes, hd, State.leave]
      split
      · simp only [Function.update_self]
        exact (Slot.timediff_mk ..).trans hdiff
      · simp only [Function.update_self]
        exact hdiff
    · rw [stepDecodes, hd]
      exact hout
    · rw [State.leave]
      split
      · exact ⟨Function.update_of_ne hj .., Function.update_of_ne hj ..⟩
      · exact ⟨Function.update_of_ne hj .., rfl⟩

/-! ## The connections -/

/-- The connection that a step is for. -/
def Step.owner (tr : Traffic) : Step → Option ℕ
  | .accept _ => none
  | .input i _ _ => tr.owner i

/-- The headers decoded in a sequence of steps, each with its connection. -/
def allDecodes (q : State × Traffic) (as : List Step) : List (Option ℕ × Decode) :=
  (triedSteps serveStep q as).flatMap fun p => (stepDecodes p.1.1 p.2).map (p.2.owner p.1.2, ·)

/-- The headers decoded on connection `k`. -/
def connDecodes (k : ℕ) (as : List Step) : List Decode :=
  proj (some k) (allDecodes (.init, .init) as)

/-- `accept` returns a descriptor that is not open, and only active descriptors are read. -/
def Selected (st : State) (_ : Traffic) : Step → Prop
  | .accept i => st.active i = false
  | .input i _ _ => st.active i = true

/-- Connections have different descriptors, and active descriptors have connections. -/
structure Owned (st : State) (tr : Traffic) : Prop where
  lt : ∀ {i k}, tr.owner i = some k → k < tr.count
  inj : ∀ {i j k}, tr.owner i = some k → tr.owner j = some k → i = j
  active : ∀ {i}, st.active i = true → ∃ k, tr.owner i = some k

theorem allDecodes_of_error {q : State × Traffic} {f : Fault} (h : serveStep q a = .error f)
    (as : List Step) :
    allDecodes q (a :: as) = (stepDecodes q.1 a).map (a.owner q.2, ·) := by
  rw [allDecodes, triedSteps_of_error h, List.flatMap_singleton]

theorem allDecodes_of_ok {q q' : State × Traffic} (h : serveStep q a = .ok q') (as : List Step) :
    allDecodes q (a :: as) = (stepDecodes q.1 a).map (a.owner q.2, ·) ++ allDecodes q' as := by
  rw [allDecodes, triedSteps_of_ok h, List.flatMap_cons, ← allDecodes]

/-- The headers of a step are decoded one after the other. -/
theorem chained_stepDecodes (st : State) (i : ℕ) (env : RelayEnv) (r : Option (List Byte)) :
    Chained (st.slots i).timediff (stepDecodes st (.input i env r)) := by
  rw [stepDecodes]
  rcases hd : drainOf st (.input i env r) with _ | ⟨env', d⟩
  · trivial
  · have hdiff := (drainOf_timediff hd).1
    rw [← hdiff]
    exact chained_decodesOf env' _ 0 d

theorem owned_init : Owned State.init Traffic.init :=
  ⟨fun h => (by cases h), fun h => (by cases h), fun h => (by cases h)⟩

/-- The connections of a run. -/
theorem Owned.step {q' : State × Traffic} (h : Owned st tr)
    (hstep : serveStep (st, tr) a = .ok q') : Owned q'.1 q'.2 := by
  obtain ⟨⟨st', out⟩, hserve, heq⟩ := bind_eq_ok hstep
  cases heq
  rcases a with i | ⟨i, env, r⟩
  · obtain ⟨-, -, heq⟩ := bind_eq_ok hserve
    cases heq
    refine ⟨fun {j k} hk => ?_, fun {j j' k} hk hk' => ?_, fun {j} hj => ?_⟩
    · simp only [Traffic.step, Function.update_apply] at hk ⊢
      split at hk
      · cases hk
        exact Nat.lt_succ_self _
      · exact Nat.lt_succ_of_lt (h.lt hk)
    · simp only [Traffic.step, Function.update_apply] at hk hk'
      split at hk <;> split at hk'
      · next hj hj' => rw [hj, hj']
      · cases hk
        exact absurd (h.lt hk') (Nat.lt_irrefl _)
      · cases hk'
        exact absurd (h.lt hk) (Nat.lt_irrefl _)
      · exact h.inj hk hk'
    · simp only [Traffic.step, Function.update_apply] at hj ⊢
      split
      · exact ⟨_, rfl⟩
      · next hne =>
        rw [if_neg hne] at hj
        exact h.active hj
  · refine ⟨h.lt, h.inj, fun {j} hj => h.active ?_⟩
    obtain ⟨-, -, hothers⟩ := serve_input hserve
    by_cases hji : j = i
    · subst hji
      rw [serve] at hserve
      obtain ⟨⟨ret, s, out₁⟩, -, hserve⟩ := bind_eq_ok hserve
      simp only at hserve
      split at hserve
      · obtain ⟨⟨s', out₂⟩, -, hserve⟩ := bind_eq_ok hserve
        cases hserve
        simp at hj
      · cases hserve
        exact hj
    · rw [← (hothers j hji).2]
      exact hj

/-- The headers of connection `k` in a run that goes on from `st`: an open connection goes on with
the difference in its slot, one that has ended decodes no more, and one that is yet to come begins
with some difference. -/
structure ChainedFrom (st : State) (tr : Traffic) (k : ℕ) (es : List Decode) : Prop where
  opened : ∀ i, tr.owner i = some k → st.active i = true → Chained (st.slots i).timediff es
  ended : k < tr.count → (∀ i, tr.owner i = some k → st.active i = false) → es = []
  later : tr.count ≤ k → ∃ diff, Chained diff es

theorem chainedFrom_nil (st : State) (tr : Traffic) (k : ℕ) : ChainedFrom st tr k [] :=
  ⟨fun _ _ _ => trivial, fun _ _ => rfl, fun _ => ⟨⟨0, 0⟩, trivial⟩⟩

/-- An `accept` begins a connection. -/
theorem ChainedFrom.accept {i : ℕ} {es : List Decode} {out : List (List Byte)}
    (hi : st.active i = false)
    (hserve : serve st (.accept i) = .ok (st', out))
    (h : ChainedFrom st' (tr.step out (.accept i)) k es) : ChainedFrom st tr k es := by
  obtain ⟨-, -, heq⟩ := bind_eq_ok hserve
  cases heq
  refine ⟨fun j hj hact => ?_, fun hlt hall => h.ended (Nat.lt_succ_of_lt hlt) fun j hj => ?_,
    fun hle => ?_⟩
  · have hne : j ≠ i := by
      rintro rfl
      rw [hi] at hact
      cases hact
    have hchain := h.opened j (by simp only [Traffic.step, Function.update_of_ne hne, hj])
      (by simp only [Function.update_of_ne hne, hact])
    simpa only [Function.update_of_ne hne] using hchain
  · simp only [Traffic.step, Function.update_apply] at hj ⊢
    split at hj
    · cases hj
      exact absurd hlt (Nat.lt_irrefl _)
    · next hne =>
      rw [if_neg hne]
      exact hall j hj
  · rcases Nat.lt_or_eq_of_le hle with hlt | rfl
    · exact h.later hlt
    · exact ⟨_, h.opened i (by simp [Traffic.step]) (by simp)⟩

/-- A step that fails is the last one of its connection. -/
theorem chainedFrom_stepDecodes {i k₀ : ℕ} {r : Option (List Byte)} (howned : Owned st tr)
    (hi : st.active i = true) (hk₀ : tr.owner i = some k₀) :
    ChainedFrom st tr k (if k₀ = k then stepDecodes st (.input i env r) else []) := by
  by_cases hk : k₀ = k
  · subst hk
    rw [if_pos rfl]
    refine ⟨fun j hj _ => ?_, fun _ hall => ?_, fun hle => ?_⟩
    · obtain rfl := howned.inj hj hk₀
      exact chained_stepDecodes st j env r
    · rw [hall i hk₀] at hi
      cases hi
    · exact absurd (howned.lt hk₀) (Nat.not_lt.2 hle)
  · rw [if_neg hk]
    exact chainedFrom_nil st tr k

/-- A step that reads goes on with its connection. -/
theorem ChainedFrom.input {i k₀ : ℕ} {r : Option (List Byte)} {es : List Decode}
    {out : List (List Byte)} (howned : Owned st tr) (hi : st.active i = true)
    (hk₀ : tr.owner i = some k₀) (hserve : serve st (.input i env r) = .ok (st', out))
    (h : ChainedFrom st' (tr.step out (.input i env r)) k es) :
    ChainedFrom st tr k ((if k₀ = k then stepDecodes st (.input i env r) else []) ++ es) := by
  obtain ⟨hdiff, -, hothers⟩ := serve_input hserve
  by_cases hk : k₀ = k
  · subst hk
    rw [if_pos rfl]
    refine ⟨fun j hj hact => ?_, fun _ hall => ?_, fun hle => ?_⟩
    · obtain rfl := howned.inj hj hk₀
      rw [chained_append, ← hdiff]
      refine ⟨chained_stepDecodes st j env r, ?_⟩
      rcases hact' : st'.active j with _ | _
      · have hnil : es = [] := h.ended (howned.lt hk₀) fun j' hj' => by
          obtain rfl := howned.inj hj' hk₀
          exact hact'
        rw [hnil]
        trivial
      · exact h.opened j hj hact'
    · rw [hall i hk₀] at hi
      cases hi
    · exact absurd (howned.lt hk₀) (Nat.not_lt.2 hle)
  · rw [if_neg hk, List.nil_append]
    have hne : ∀ j, tr.owner j = some k → j ≠ i := by
      rintro j hj rfl
      exact hk (Option.some_inj.1 (hk₀.symm.trans hj))
    refine ⟨fun j hj hact => ?_, fun hlt hall => h.ended hlt fun j hj => ?_, fun hle => h.later hle⟩
    · obtain ⟨hslot, hactive⟩ := hothers j (hne j hj)
      rw [← hslot]
      exact h.opened j hj (hactive.trans hact)
    · rw [(hothers j (hne j hj)).2]
      exact hall j hj

/-- **The headers of a connection** are decoded one after the other, through all steps of a run. -/
theorem chainedFrom_allDecodes {as : List Step} (howned : Owned st tr)
    (hs : Tried serveStep (st, tr) as fun q a => Selected q.1 q.2 a) (k : ℕ) :
    ChainedFrom st tr k (proj (some k) (allDecodes (st, tr) as)) := by
  induction as generalizing st tr with
  | nil => exact chainedFrom_nil st tr k
  | cons a as ih =>
    obtain ⟨hsel, hrest⟩ := tried_cons.1 hs
    rcases hstep : serveStep (st, tr) a with f | q'
    · rw [allDecodes_of_error hstep, proj_map]
      rcases a with i | ⟨i, env, r⟩
      · exact chainedFrom_nil st tr k
      · obtain ⟨k₀, hk₀⟩ := howned.active hsel
        simp only [Step.owner, hk₀, Option.some.injEq]
        exact chainedFrom_stepDecodes howned hsel hk₀
    · have ih := ih (howned.step hstep) (hrest q' hstep)
      rw [allDecodes_of_ok hstep, proj_append, proj_map]
      obtain ⟨⟨st', out⟩, hserve, heq⟩ := bind_eq_ok hstep
      cases heq
      rcases a with i | ⟨i, env, r⟩
      · exact ih.accept hsel hserve
      · obtain ⟨k₀, hk₀⟩ := howned.active hsel
        simp only [Step.owner, hk₀, Option.some.injEq]
        exact ih.input howned hsel hk₀ hserve

/-- **The log** has what was written of the headers, in their order. -/
theorem log_eq_allDecodes {as : List Step} {q q' : State × Traffic}
    (h : runSteps serveStep q as = .ok q') : q'.2.log = q.2.log ++
      (allDecodes q as).flatMap fun x => x.2.out.map (x.1, ·) := by
  induction as generalizing q with
  | nil =>
    cases h
    exact (List.append_nil _).symm
  | cons a as ih =>
    obtain ⟨q₁, hstep, hrun⟩ := bind_eq_ok h
    rw [ih hrun, allDecodes_of_ok hstep, List.flatMap_append, ← List.append_assoc]
    refine congrArg (· ++ _) ?_
    obtain ⟨⟨st', out⟩, hserve, heq⟩ := bind_eq_ok hstep
    cases heq
    rcases a with i | ⟨i, env, r⟩
    · exact (List.append_nil _).symm
    · rw [(serve_input hserve).out]
      simp only [Traffic.step, Step.owner, List.map_flatMap, List.flatMap_map]

/-! ## The stamps -/

theorem thaw2_fz {m : Mem Byte} {a : ℕ} {fz : LogentryFrozen} {sz : ℤ} {le : LogentryThaw}
    (h : thaw2 m a fz sz = .ok le) : le.fz = fz := by
  obtain ⟨-, -, h⟩ := bind_eq_ok h
  obtain ⟨-, -, h⟩ := bind_eq_ok h
  obtain ⟨-, -, h⟩ := bind_eq_ok h
  cases h
  rfl

theorem freeze_fz {le : LogentryThaw} {size : ℤ} {w : List Byte} (h : freeze le size = .ok w) :
    ∃ x, w = le.fz.bytes ++ x := by
  obtain ⟨-, -, h⟩ := bind_eq_ok h
  obtain ⟨str, -, h⟩ := bind_eq_ok h
  obtain ⟨-, -, h⟩ := bind_eq_ok h
  cases h
  exact ⟨_, List.append_assoc ..⟩

theorem headerOf_take {fz : LogentryFrozen} {x : List Byte} {n : ℕ}
    (hn : frozenLen ≤ ((fz.bytes ++ x).take n).length) :
    headerOf ((fz.bytes ++ x).take n) = fz := by
  have hle : frozenLen ≤ n := hn.trans (List.length_take_le ..)
  rw [headerOf, thaw1_eq_iff, ← Mem.take_slice _ 0 hn, Mem.slice_store_self, List.take_take,
    Nat.min_eq_left hle, List.take_left' (LogentryFrozen.length_bytes _)]

/-- What is given to `write` begins with the header at its new time. -/
theorem headerOf_stamped {w : List Byte} (h : d.stamped env k = .ok w) {n : ℕ}
    (hn : frozenLen ≤ (w.take n).length) :
    headerOf (w.take n) = d.frozen.retime (timeradd d.frozen.time (d.timed env k).timediff) := by
  obtain ⟨le, hthaw, hfreeze⟩ := bind_eq_ok h
  obtain ⟨x, rfl⟩ := freeze_fz hfreeze
  rw [headerOf_take hn]
  simp only [thaw2_fz hthaw]

/-- The header that the log got of a record, when it got all of it. -/
def Decode.logged (e : Decode) : List LogentryFrozen :=
  (e.out.filter (frozenLen ≤ ·.length)).map headerOf

/-- The stamp that the log got is shifted by `diff`. -/
def Decode.Shifted (e : Decode) (diff : Timeval) : Prop :=
  ∀ fz ∈ e.logged, fz = e.fz.retime (timeradd e.fz.time diff)

theorem shifted_of_mem_allDecodes {q : State × Traffic} {as : List Step} {x : Option ℕ × Decode}
    (h : x ∈ allDecodes q as) : x.2.Shifted x.2.diff := by
  obtain ⟨p, -, hx⟩ := List.mem_flatMap.1 h
  obtain ⟨e, he, rfl⟩ := List.mem_map.1 hx
  intro fz hfz
  obtain ⟨w, hw, rfl⟩ := List.mem_map.1 hfz
  obtain ⟨hout, hlen⟩ := List.mem_filter.1 hw
  have hlen := of_decide_eq_true hlen
  rw [stepDecodes] at he
  split at he
  · cases he
  · obtain ⟨⟨d, k⟩, -, he⟩ := List.mem_flatMap.1 he
    rw [decodeOf] at he
    split at he
    · cases he
    · obtain rfl := List.mem_singleton.1 he
      simp only [Decode.out] at hout
      split at hout
      · cases hout
      · next w' hw' =>
        split at hout
        · obtain rfl := List.mem_singleton.1 hout
          split at hw'
          · cases hw'
          · rcases hst : d.stamped _ k with f | w''
            · rw [hst] at hw'
              cases hw'
            · rw [hst] at hw'
              cases hw'
              exact headerOf_stamped hst hlen
        · cases hout

theorem mem_proj {κ α : Type} [DecidableEq κ] {t : κ} {a : α} {l : List (κ × α)}
    (h : a ∈ proj t l) : (t, a) ∈ l := by
  obtain ⟨x, hx, rfl⟩ := List.mem_map.1 h
  obtain ⟨hmem, ht⟩ := List.mem_filter.1 hx
  rwa [← of_decide_eq_true ht]

/-! ## The times -/

/-- A time in microseconds. -/
def Timeval.micros (t : Timeval) : ℤ := 1000000 * t.sec + t.usec

theorem micros_timeradd (a b : Timeval) : (timeradd a b).micros = a.micros + b.micros := by
  simp only [timeradd, Timeval.micros]
  split <;> simp only <;> omega

/-- A time has microseconds below a second. -/
def Timeval.Normal (t : Timeval) : Prop := 0 ≤ t.usec ∧ t.usec < 1000000

instance (t : Timeval) : Decidable t.Normal := inferInstanceAs (Decidable (_ ∧ _))

theorem normal_zero : Timeval.Normal ⟨0, 0⟩ := by decide

theorem normal_timersub {a b : Timeval} (ha : a.Normal) (hb : b.Normal) :
    (timersub a b).Normal := by
  simp only [Timeval.Normal, timersub] at ha hb ⊢
  split <;> simp only <;> omega

theorem normal_timeradd {a b : Timeval} (ha : a.Normal) (hb : b.Normal) :
    (timeradd a b).Normal := by
  simp only [Timeval.Normal, timeradd] at ha hb ⊢
  split <;> simp only <;> omega

theorem Timeval.Normal.eq_of_micros {a b : Timeval} (ha : a.Normal) (hb : b.Normal)
    (h : a.micros = b.micros) : a = b := by
  obtain ⟨sec, usec⟩ := a
  obtain ⟨sec', usec'⟩ := b
  simp only [Normal, micros, Timeval.mk.injEq] at ha hb h ⊢
  omega

theorem time_retime {fz : LogentryFrozen} {t : Timeval} (hsec : 0 ≤ t.sec ∧ t.sec < 2 ^ 32)
    (husec : t.Normal) : (fz.retime t).time = t := by
  have h32 : ∀ x : ℤ, 0 ≤ x → x < 2 ^ 32 → ((toUint32 x).toNat : ℤ) = x := by
    intro x h₀ h₁
    rw [toUint32, UInt32.toNat_ofNat']
    omega
  rw [LogentryFrozen.retime, LogentryFrozen.time]
  simp only
  rw [h32 t.sec hsec.1 hsec.2, h32 t.usec husec.1 (husec.2.trans (by decide))]

/-- The stamp of a header and the time it was decoded at have microseconds below a second. -/
def Decode.Timely (e : Decode) : Prop := e.fz.time.Normal ∧ e.now.Normal

/-- The seconds of the stamp, shifted by `diff`, do not wrap. -/
def Decode.NoWrap (e : Decode) (diff : Timeval) : Prop :=
  0 ≤ (timeradd e.fz.time diff).sec ∧ (timeradd e.fz.time diff).sec < 2 ^ 32

instance (e : Decode) : Decidable e.Timely := inferInstanceAs (Decidable (_ ∧ _))

instance (e : Decode) (diff : Timeval) : Decidable (e.NoWrap diff) :=
  inferInstanceAs (Decidable (_ ∧ _))

/-- A difference that is normal stays so. -/
theorem Chained.normal {diff : Timeval} {es : List Decode} (h : Chained diff es)
    (hdiff : diff.Normal) (hes : ∀ e ∈ es, e.Timely) :
    (∀ e ∈ es, e.diff.Normal) ∧ (lastDiff diff es).Normal := by
  induction es generalizing diff with
  | nil => exact ⟨by simp, hdiff⟩
  | cons e es ih =>
    obtain ⟨-, heq, hrest⟩ := h
    obtain ⟨he, hes⟩ := List.forall_mem_cons.1 hes
    have hnormal : e.diff.Normal := by
      rw [heq]
      split
      · exact hdiff
      · exact normal_timersub he.2 he.1
    obtain ⟨hall, hlast⟩ := ih hrest hnormal hes
    exact ⟨List.forall_mem_cons.2 ⟨hnormal, hall⟩, hlast⟩

/-- **The differences of a run** are normal. -/
theorem normal_allDecodes {as : List Step} {q : State × Traffic}
    (hq : ∀ i, (q.1.slots i).timediff.Normal) (ht : ∀ x ∈ allDecodes q as, x.2.Timely) :
    ∀ x ∈ allDecodes q as, x.2.diff.Normal := by
  induction as generalizing q with
  | nil => simp [allDecodes, triedSteps]
  | cons a as ih =>
    have hhere : (∀ e ∈ stepDecodes q.1 a, e.Timely) →
        (∀ e ∈ stepDecodes q.1 a, e.diff.Normal) ∧
          ∀ q', serveStep q a = .ok q' → ∀ i, (q'.1.slots i).timediff.Normal := by
      intro ht
      rcases a with i | ⟨i, env, r⟩
      · refine ⟨by simp [stepDecodes, drainOf], fun q' hstep j => ?_⟩
        obtain ⟨⟨st', out⟩, hserve, heq⟩ := bind_eq_ok hstep
        cases heq
        obtain ⟨-, -, heq⟩ := bind_eq_ok hserve
        cases heq
        simp only [Function.update_apply]
        split
        · next hj => exact hj ▸ hq i
        · exact hq j
      · obtain ⟨hall, hlast⟩ := (chained_stepDecodes q.1 i env r).normal (hq i) ht
        refine ⟨hall, fun q' hstep j => ?_⟩
        obtain ⟨⟨st', out⟩, hserve, heq⟩ := bind_eq_ok hstep
        cases heq
        obtain ⟨hdiff, -, hothers⟩ := serve_input hserve
        by_cases hj : j = i
        · subst hj
          rw [hdiff]
          exact hlast
        · rw [(hothers j hj).1]
          exact hq j
    rcases hstep : serveStep q a with f | q'
    · rw [allDecodes_of_error hstep, List.forall_mem_map] at ht ⊢
      exact (hhere ht).1
    · rw [allDecodes_of_ok hstep, List.forall_mem_append, List.forall_mem_map] at ht ⊢
      obtain ⟨hall, hnext⟩ := hhere ht.1
      exact ⟨hall, ih (hnext q' hstep) ht.2⟩

/-- The times of a run have microseconds below a second, and no seconds wrap. -/
structure InRange (as : List Step) : Prop where
  timely : ∀ x ∈ allDecodes (.init, .init) as, x.2.Timely
  noWrap : ∀ k, ∀ e ∈ connDecodes k as, e.NoWrap e.diff ∧ e.NoWrap (offset (connDecodes k as))

section InRange

variable {as : List Step} {e : Decode}

theorem InRange.normal_diff (hr : InRange as) (he : e ∈ connDecodes k as) : e.diff.Normal := by
  exact normal_allDecodes (fun _ => normal_zero) hr.timely _ (mem_proj he)

theorem InRange.normal_offset (hr : InRange as) : (offset (connDecodes k as)).Normal := by
  rcases hes : connDecodes k as with _ | ⟨e, es⟩
  · exact normal_zero
  · have he : e ∈ connDecodes k as := hes ▸ List.mem_cons_self
    obtain ⟨hstamp, hnow⟩ := hr.timely _ (mem_proj he)
    exact normal_timersub hnow hstamp

/-- The stamp that the log got of a header, if any, is shifted by the offset if and only if the
header was given it. -/
theorem InRange.shifted_iff (hr : InRange as) (he : e ∈ connDecodes k as) :
    e.Shifted (offset (connDecodes k as)) ↔
      (e.logged ≠ [] → e.diff = offset (connDecodes k as)) := by
  have hshift := shifted_of_mem_allDecodes (mem_proj he)
  obtain ⟨hdiff, hoffset⟩ := hr.noWrap k e he
  have hstamp := (hr.timely _ (mem_proj he)).1
  constructor
  · intro h hne
    obtain ⟨fz, hfz⟩ := List.exists_mem_of_ne_nil _ hne
    have heq := congrArg LogentryFrozen.time ((hshift fz hfz).symm.trans (h fz hfz))
    rw [time_retime hdiff (normal_timeradd hstamp (hr.normal_diff he)),
      time_retime hoffset (normal_timeradd hstamp hr.normal_offset)] at heq
    refine (hr.normal_diff he).eq_of_micros hr.normal_offset ?_
    have hmicros := congrArg Timeval.micros heq
    rw [micros_timeradd, micros_timeradd] at hmicros
    exact Int.add_left_cancel hmicros
  · intro h fz hfz
    rw [← h (List.ne_nil_of_mem hfz)]
    exact hshift fz hfz

/-- The microseconds of a stamp that is shifted by the offset. -/
theorem InRange.micros_logged (hr : InRange as) (he : e ∈ connDecodes k as)
    (hshift : e.Shifted (offset (connDecodes k as))) {fz : LogentryFrozen} (hfz : fz ∈ e.logged) :
    fz.time.micros = e.fz.time.micros + (offset (connDecodes k as)).micros := by
  have hstamp := (hr.timely _ (mem_proj he)).1
  rw [hshift fz hfz, time_retime (hr.noWrap k e he).2 (normal_timeradd hstamp hr.normal_offset),
    micros_timeradd]

end InRange

/-! ## One offset -/

/-- The differences of the stamps that the log got are those of the headers. -/
def KeepsDifferences (es : List Decode) : Prop :=
  ∀ e ∈ es, ∀ e' ∈ es, ∀ fz ∈ e.logged, ∀ fz' ∈ e'.logged,
    fz.time.micros - fz'.time.micros = e.fz.time.micros - e'.fz.time.micros

/-- Every record that is written for a connection has its stamp shifted by the offset of the
connection, and the differences of the stamps are kept. -/
def OneOffset (es : List Decode) : Prop :=
  (∀ e ∈ es, e.Shifted (offset es)) ∧ KeepsDifferences es

/-- Whenever the log gets the header of a record, the headers up to it start right. -/
def LoggedStartRight (es : List Decode) : Prop :=
  ∀ pre e, pre ++ [e] <+: es → e.logged ≠ [] → StartsRight (pre ++ [e])

theorem offset_prefix {pre es : List Decode} {e : Decode} (h : pre ++ [e] <+: es) :
    offset (pre ++ [e]) = offset es := by
  obtain ⟨x, rfl⟩ := h
  rcases pre with _ | ⟨e₀, pre⟩
  · rfl
  · rfl

/-- **One offset for a connection.** In a run with any connections, every record written to the log
has its stamp shifted by the offset of its own connection, and the differences of the stamps of a
connection are kept, if and only if the headers of each connection, up to one whose record is
logged, start right. -/
theorem one_offset_iff (as : List Step) (ha : Along Selected as) (hr : InRange as) :
    (∀ k, OneOffset (connDecodes k as)) ↔ ∀ k, LoggedStartRight (connDecodes k as) := by
  have hgiven : ∀ k pre e, pre ++ [e] <+: connDecodes k as →
      (e.diff = offset (connDecodes k as) ↔ StartsRight (pre ++ [e])) := by
    intro k pre e hpre
    obtain ⟨diff, hchained⟩ :=
      (chainedFrom_allDecodes owned_init (along_iff_tried.1 ha) k).later (Nat.zero_le k)
    rw [← offset_prefix hpre]
    obtain ⟨post, hpost⟩ := hpre
    rw [← connDecodes, ← hpost, chained_append] at hchained
    exact hchained.1.last_iff
  refine forall_congr' fun k => ⟨fun h pre e hpre hne => ?_, fun h => ?_⟩
  · have he : e ∈ connDecodes k as := hpre.mem (by simp)
    exact (hgiven k pre e hpre).1 ((hr.shifted_iff he).1 (h.1 e he) hne)
  · have hall : ∀ e ∈ connDecodes k as, e.Shifted (offset (connDecodes k as)) := by
      intro e he
      refine (hr.shifted_iff he).2 fun hne => ?_
      obtain ⟨pre, post, hes⟩ := List.append_of_mem he
      have hpre : pre ++ [e] <+: connDecodes k as := ⟨post, by rw [hes]; simp⟩
      exact (hgiven k pre e hpre).2 (h pre e hpre hne)
    refine ⟨hall, fun e he e' he' fz hfz fz' hfz' => ?_⟩
    rw [hr.micros_logged he (hall e he) hfz, hr.micros_logged he' (hall e' he') hfz']
    omega

/-- The log takes everything, in the evening. -/
def evening : RelayEnv := ⟨fun _ amt => amt, fun _ => ⟨72000, 0⟩⟩

/-- A client sends a record at noon and is gone, and in the evening the next one comes on its
descriptor. -/
def reusedDescriptor : List Step :=
  [.accept 5, .input 5 noon (some hello.bytes), .input 5 noon (some []), .accept 5,
    .input 5 evening (some hello.bytes)]

def checkSelected (st : State) (_ : Traffic) : Step → Bool
  | .accept i => !st.active i
  | .input i _ _ => st.active i

theorem selected_of_check (st : State) (tr : Traffic) (a : Step)
    (h : checkSelected st tr a = true) : Selected st tr a := by
  rcases a with i | ⟨i, env, r⟩
  · simpa [checkSelected, Selected] using h
  · exact h

theorem reusedDescriptor_selected : Along Selected reusedDescriptor :=
  along_of_check (p := checkSelected) (by decide +kernel) fun st tr a _ => selected_of_check st tr a

/-- Whether the times of a run are in range. -/
def checkInRange (as : List Step) : Bool :=
  (allDecodes (.init, .init) as).all fun x =>
    x.2.Timely ∧ x.2.NoWrap x.2.diff ∧ x.1.all fun k => x.2.NoWrap (offset (connDecodes k as))

theorem inRange_of_check {as : List Step} (h : checkInRange as = true) : InRange as := by
  have hall := fun x hx => of_decide_eq_true (List.all_eq_true.1 h x hx)
  refine ⟨fun x hx => (hall x hx).1, fun k e he => ?_⟩
  obtain ⟨-, hdiff, hoffset⟩ := hall _ (mem_proj he)
  exact ⟨hdiff, of_decide_eq_true hoffset⟩

theorem reusedDescriptor_inRange : InRange reusedDescriptor :=
  inRange_of_check (by decide +kernel)

theorem one_offset_iff_reusedDescriptor :
    (∀ k, OneOffset (connDecodes k reusedDescriptor)) ↔
      ∀ k, LoggedStartRight (connDecodes k reusedDescriptor) :=
  one_offset_iff reusedDescriptor reusedDescriptor_selected reusedDescriptor_inRange

/-- Whether the seconds of the stamps that the log got are shifted by the offset. -/
def checkShifted (es : List Decode) : Bool :=
  es.all fun e => e.logged.all fun fz =>
    fz.cycleHigh = toUint32 (timeradd e.fz.time (offset es)).sec

theorem checkShifted_of {es : List Decode} (h : ∀ e ∈ es, e.Shifted (offset es)) :
    checkShifted es = true := by
  refine List.all_eq_true.2 fun e he => List.all_eq_true.2 fun fz hfz => ?_
  rw [decide_eq_true_eq, h e he fz hfz, LogentryFrozen.retime]

/-- **The second connection** is given the offset of the first. -/
theorem offset_of_the_first : Along Selected reusedDescriptor ∧ InRange reusedDescriptor ∧
    ¬ ∀ k, OneOffset (connDecodes k reusedDescriptor) := by
  refine ⟨reusedDescriptor_selected, reusedDescriptor_inRange, fun h => ?_⟩
  have hfail : checkShifted (connDecodes 1 reusedDescriptor) = false := by decide +kernel
  rw [checkShifted_of (h 1).1] at hfail
  cases hfail

end BorderPatrol.Logd
