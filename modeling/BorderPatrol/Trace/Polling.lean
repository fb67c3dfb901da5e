import BorderPatrol.Trace.Reported
import Mathlib.Data.Nat.Bitwise

/-!
# What poll counts

`poll` asks `speak_select` with the sets of its entries, and puts what it is told into the first
entry of the descriptor. It does not look at what that entry asked for, and what it is told need not
have been asked for at all. So the entry it counts is one that asked exactly when the descriptor
told has an entry and the first of its entries asks for the kind told; and where nothing is counted
no entry is marked (`polls_count_iff`).
-/

namespace BorderPatrol.Trace

open Foundations

variable {σ : Type} {p : Process σ} {ufds : List Pollfd} {timeout : ℤ} {env : SelectEnv σ}

/-- The entry asks for a kind of readiness. -/
def Pollfd.asks (u : Pollfd) : VfdRwe → Bool
  | .read => u.events &&& pollin ≠ 0
  | .write => u.events &&& pollout ≠ 0
  | .except => false

/-- A `poll` that returns 1 has marked one entry, with events that the entry asks for, and one that
returns 0 has marked none. -/
def Polled.Counts (r : Polled σ) : Prop :=
  (r.sel.ret = 1 → ∃ u, (r.ufds.filter fun u => u.revents ≠ 0) = [u] ∧
    u.revents &&& u.events = u.revents) ∧
  (r.sel.ret = 0 → ∀ u ∈ r.ufds, u.revents = 0)

/-- The descriptors of the entries fit in a set. -/
def PollFds (ufds : List Pollfd) : Prop := ∀ u ∈ ufds, 0 ≤ u.fd ∧ u.fd < maxFds

/-- What `speak_select` tells, asked about `sets` below `n`, when `real_select` would answer `res`:
the first descriptor asked for in the cache; or, where none is and something is reported, the first
in the cache with that added. -/
inductive Told (p : Process σ) (sets : FdSets) (n : ℤ) (res : ℤ × FdSets) : ℤ → VfdRwe → Prop
  | cached {fd : ℤ} {k : VfdRwe} (hn : fd < n)
    (h : FirstHit (fun k i => sets.get k i && p.vselData.get k i) 0 fd k) : Told p sets n res fd k
  | merged {fd : ℤ} {k : VfdRwe} (hn : fd < n)
    (hnone : ∀ i, 0 ≤ i → i < n → ∀ k, (sets.get k i && p.vselData.get k i) = false)
    (hpos : 0 < res.1) (h : FirstHit (p.vselData.absorb n res.2).get 0 fd k) :
    Told p sets n res fd k

/-- The first entry of the descriptor told asks for the kind told; or nothing asked for is in the
cache, and `real_select` reports nothing. -/
def Requested (p : Process σ) (ufds : List Pollfd) (timeout : ℤ) (env : SelectEnv σ) : Prop :=
  ∃ sets maxfd, pollSets ufds FdSets.zero 0 = .ok (sets, maxfd) ∧
    ((∃ fd k u, Told p sets (maxfd + 1)
        (env.realSelect (maxfd + 1) sets (pollTimeout timeout)) fd k ∧
        ufds.find? (fun u => u.fd = fd) = some u ∧ u.asks k = true) ∨
      (∀ i, 0 ≤ i → i < maxfd + 1 → ∀ k, (sets.get k i && p.vselData.get k i) = false) ∧
        (env.realSelect (maxfd + 1) sets (pollTimeout timeout)).1 ≤ 0)

/-! ## The sets -/

theorem fdSetWhen_of {c : Bool} {s : FdSets} {k : VfdRwe} {fd : ℤ} (h : 0 ≤ fd ∧ fd < maxFds) :
    ∃ s', fdSetWhen c s k fd = .ok s' := by
  unfold fdSetWhen
  cases c with
  | true => exact ⟨_, by rw [if_pos rfl, inBounds_of h, ok_bind]⟩
  | false => exact ⟨s, rfl⟩

theorem pollSets_of (h : PollFds ufds) (sets : FdSets) {m : ℤ} (hm : m < maxFds) :
    ∃ sets' m', pollSets ufds sets m = .ok (sets', m') ∧ m' < maxFds := by
  induction ufds generalizing sets m with
  | nil => exact ⟨sets, m, rfl, hm⟩
  | cons u ufds ih =>
    obtain ⟨hu, hufds⟩ := List.forall_mem_cons.1 h
    obtain ⟨s₁, h₁⟩ := fdSetWhen_of (c := u.events &&& pollin ≠ 0) (s := sets) (k := .read) hu
    obtain ⟨s₂, h₂⟩ := fdSetWhen_of (c := u.events &&& pollout ≠ 0) (s := s₁) (k := .write) hu
    have hmax : (if m < u.fd then u.fd else m) < maxFds := by
      split
      · exact hu.2
      · exact hm
    obtain ⟨sets', m', hrest, hm'⟩ := ih hufds s₂ hmax
    exact ⟨sets', m', by rw [pollSets, h₁, ok_bind, h₂, ok_bind, hrest], hm'⟩

/-! ## The marks -/

/-- The entries before the marks are made. -/
def unmarked (ufds : List Pollfd) : List Pollfd := ufds.map fun u => { u with revents := 0 }

/-- What `poll` writes for a kind. -/
def markOf : VfdRwe → ℕ
  | .read => pollin
  | .write => pollout
  | .except => 0

/-- The first entry of a descriptor is marked. -/
def markFirst (fd : ℤ) (b : ℕ) : List Pollfd → List Pollfd
  | [] => []
  | u :: ufds => if u.fd = fd then { u with revents := b } :: ufds else u :: markFirst fd b ufds

theorem markFirst_zero (fd : ℤ) (ufds : List Pollfd) :
    markFirst fd 0 (unmarked ufds) = unmarked ufds := by
  induction ufds with
  | nil => rfl
  | cons u ufds ih =>
    change markFirst fd 0 ({ u with revents := 0 } :: unmarked ufds) = _
    rw [markFirst, ih]
    exact ite_self _

/-- Nothing is marked when no entry has the descriptor. -/
theorem pollRevents_of_ne {sets : FdSets} {fd : ℤ} (h : ∀ u ∈ ufds, u.fd ≠ fd) :
    pollRevents sets fd ufds = .ok ufds := by
  induction ufds with
  | nil => rfl
  | cons u ufds ih =>
    obtain ⟨hu, hufds⟩ := List.forall_mem_cons.1 h
    rw [pollRevents, if_pos hu, ih hufds, ok_bind]

/-- The loop over the entries, when one bit is set. -/
theorem pollRevents_only (h : PollFds ufds) (k : VfdRwe) (fd : ℤ) :
    pollRevents (FdSets.only k fd) fd (unmarked ufds) =
      .ok (markFirst fd (markOf k) (unmarked ufds)) := by
  have hread : (FdSets.only k fd).read fd = decide (k = .read) := by
    have hget := FdSets.get_only k .read fd fd
    simpa [FdSets.get, eq_comm] using hget
  have hwrite : (FdSets.only k fd).write fd = decide (k = .write) := by
    have hget := FdSets.get_only k .write fd fd
    simpa [FdSets.get, eq_comm] using hget
  induction ufds with
  | nil => rfl
  | cons u ufds ih =>
    obtain ⟨hu, hufds⟩ := List.forall_mem_cons.1 h
    have hrest := ih hufds
    change pollRevents (FdSets.only k fd) fd ({ u with revents := 0 } :: unmarked ufds) =
      .ok (markFirst fd (markOf k) ({ u with revents := 0 } :: unmarked ufds))
    rw [pollRevents, markFirst]
    by_cases hfd : u.fd = fd
    · rw [if_neg (not_not.2 hfd), if_pos hfd]
      simp only [hfd, hread, hwrite]
      rw [inBounds_of (hfd ▸ hu), ok_bind, hrest]
      cases k with
      | read => rfl
      | write => rfl
      | except =>
        -- no bit that is looked at, and the entries stay as they are
        simp only [markOf, markFirst_zero]
        rfl
    · rw [if_pos hfd, if_neg hfd, hrest]
      rfl

/-- What is marked then. -/
theorem filter_markFirst (fd : ℤ) (b : ℕ) (ufds : List Pollfd) :
    ((markFirst fd b (unmarked ufds)).filter fun u => u.revents ≠ 0) =
      match ufds.find? (fun u => u.fd = fd) with
      | none => []
      | some u => if b = 0 then [] else [{ u with revents := b }] := by
  have hnone : ∀ ufds, ((unmarked ufds).filter fun u => u.revents ≠ 0) = [] := by
    intro ufds
    rw [List.filter_eq_nil_iff]
    intro u hu
    obtain ⟨u₀, -, rfl⟩ := List.mem_map.1 hu
    simp
  induction ufds with
  | nil => rfl
  | cons u ufds ih =>
    change ((markFirst fd b ({ u with revents := 0 } :: unmarked ufds)).filter _) = _
    rw [markFirst, List.find?_cons]
    by_cases hfd : u.fd = fd
    · simp only [hfd, if_true, decide_true]
      rw [List.filter_cons, hnone]
      by_cases hb : b = 0 <;> simp [hb]
    · simp only [hfd, if_false, decide_false]
      rw [List.filter_cons, ih]
      simp

/-- A bit that is written is one asked for when the entry has it. -/
theorem bit_among_iff (i e : ℕ) : 2 ^ i &&& e = 2 ^ i ↔ e &&& 2 ^ i ≠ 0 := by
  rw [Nat.and_comm e, Nat.two_pow_and]
  have hpos : 2 ^ i ≠ 0 := pow_ne_zero i two_ne_zero
  cases e.testBit i <;> simp [hpos.symm]

/-- The mark is among the events of the entry if and only if the entry asks for the kind. -/
theorem mark_among_iff (u : Pollfd) (k : VfdRwe) :
    (markOf k ≠ 0 ∧ markOf k &&& u.events = markOf k) ↔ u.asks k = true := by
  cases k with
  | read =>
    rw [Pollfd.asks, decide_eq_true_iff]
    exact (and_iff_right one_ne_zero).trans (bit_among_iff 0 u.events)
  | write =>
    rw [Pollfd.asks, decide_eq_true_iff]
    exact (and_iff_right four_ne_zero).trans (bit_among_iff 2 u.events)
  | except => simp [markOf, Pollfd.asks]

/-! ## The answer -/

/-- The sets that `poll` passes. -/
def pollArgs (sets : FdSets) : FdArgs := ⟨some sets.read, some sets.write, some sets.except⟩

theorem poll_eq {sets : FdSets} {maxfd : ℤ}
    (h : pollSets ufds FdSets.zero 0 = .ok (sets, maxfd)) {q : Selected σ}
    (hq : speakSelect p (maxfd + 1) (pollArgs sets) (pollTimeout timeout) env = .ok q)
    {marked : List Pollfd} (hm : pollRevents q.sets.sets q.rfd (unmarked ufds) = .ok marked) :
    ∃ r, poll p ufds timeout env = .ok r ∧ r.ufds = marked ∧ r.sel.ret = q.ret := by
  have hsel : pollSelect p (unmarked ufds) timeout env = .ok q := by
    rw [pollSelect, unmarked, pollSets_map, h, ok_bind]
    exact hq
  simp only [unmarked] at hsel hm
  unfold poll
  simp only
  rw [hsel, ok_bind, hm, ok_bind]
  exact ⟨_, rfl, rfl, rfl⟩

/-- Where one bit is told, it is counted if and only if the first entry of the descriptor asks for
it. -/
theorem counts_told {r : Polled σ} {k : VfdRwe} {fd : ℤ}
    (hr : r.ufds = markFirst fd (markOf k) (unmarked ufds)) (hret : r.sel.ret = 1) :
    r.Counts ↔ ∃ u, ufds.find? (fun u => u.fd = fd) = some u ∧ u.asks k = true := by
  rw [Polled.Counts, hr, filter_markFirst]
  simp only [hret, true_imp_iff, one_ne_zero, false_imp_iff, and_true]
  generalize ufds.find? (fun u => u.fd = fd) = o
  rcases o with _ | u
  · simp
  · simp only [Option.some_inj, exists_eq_left', ← mark_among_iff]
    by_cases hb : markOf k = 0 <;> simp [hb]

/-- Where nothing is told, no entry is marked. -/
theorem counts_unmarked {r : Polled σ} (hr : r.ufds = unmarked ufds) :
    r.Counts ↔ r.sel.ret ≠ 1 := by
  have hzero : ∀ u ∈ r.ufds, u.revents = 0 := by
    intro u hu
    rw [hr] at hu
    obtain ⟨u₀, -, rfl⟩ := List.mem_map.1 hu
    rfl
  constructor
  · rintro ⟨hone, -⟩ hret
    obtain ⟨u, hu, -⟩ := hone hret
    have hmem : u ∈ r.ufds.filter fun u => u.revents ≠ 0 := by
      rw [hu]
      exact List.mem_singleton_self u
    rw [List.mem_filter] at hmem
    exact (decide_eq_true_iff.1 hmem.2) (hzero u hmem.1)
  · exact fun hne => ⟨fun h => absurd h hne, fun _ => hzero⟩

/-- There is no first hit below `n` where nothing below `n` is hit. -/
theorem FirstHit.not_missed {hit : VfdRwe → ℤ → Bool} {n fd : ℤ} {k : VfdRwe}
    (h : FirstHit hit 0 fd k) (hn : fd < n) :
    ¬ ∀ i, 0 ≤ i → i < n → ∀ k, hit k i = false := by
  intro hnone
  have hmiss := hnone fd h.1 hn k
  rw [h.2.1] at hmiss
  cases hmiss

/-- `speak_select` finds no descriptor when `real_select` reports none. -/
theorem speakSelect_rfd {n : ℤ} {args : FdArgs} {tv : Option Timeval} {q : Selected σ}
    (h : speakSelect p n args tv env = .ok q)
    (hnone : ∀ i, 0 ≤ i → i < n → ∀ k, p.cachedHit args k i = false)
    (hr : (env.realSelect n args.sets tv).1 ≤ 0) : q.rfd = -1 := by
  unfold speakSelect at h
  obtain ⟨o, ho, h⟩ := bind_eq_ok h
  rcases o with _ | ⟨fd, k⟩
  · simp only [if_pos hr] at h
    cases h
    exact (selDone_spec _ env).2.2.2.1
  · -- a hit in the cache, which there is not
    obtain ⟨hfirst, hlt, -⟩ := firstHit_some ho
    have h₀ := hfirst.1
    exact absurd hnone (hfirst.not_missed (by omega))

section

variable {sets : FdSets} {n fd : ℤ} {k : VfdRwe} {res : ℤ × FdSets}

theorem Told.unique (h : Told p sets n res fd k) {fd' : ℤ} {k' : VfdRwe}
    (h' : Told p sets n res fd' k') : fd = fd' ∧ k = k' := by
  rcases h with ⟨hn, h⟩ | ⟨hn, hnone, hpos, h⟩
  · rcases h' with ⟨hn', h'⟩ | ⟨hn', hnone', -, -⟩
    · exact h.unique h'
    · exact absurd hnone' (h.not_missed hn)
  · rcases h' with ⟨hn', h'⟩ | ⟨hn', -, -, h'⟩
    · exact absurd hnone (h'.not_missed hn')
    · exact h.unique h'

/-- Something is told only when something is reported or asked for in the cache. -/
theorem Told.not_quiet (h : Told p sets n res fd k)
    (hnone : ∀ i, 0 ≤ i → i < n → ∀ k, (sets.get k i && p.vselData.get k i) = false) :
    ¬ res.1 ≤ 0 := by
  rcases h with ⟨hn, h⟩ | ⟨-, -, hpos, -⟩
  · exact absurd hnone (h.not_missed hn)
  · omega

end

/-- What is told decides. -/
theorem requested_told {sets : FdSets} {maxfd fd : ℤ} {k : VfdRwe}
    (hsets : pollSets ufds FdSets.zero 0 = .ok (sets, maxfd))
    (h : Told p sets (maxfd + 1) (env.realSelect (maxfd + 1) sets (pollTimeout timeout)) fd k) :
    Requested p ufds timeout env ↔
      ∃ u, ufds.find? (fun u => u.fd = fd) = some u ∧ u.asks k = true := by
  constructor
  · rintro ⟨sets', maxfd', hsets', hcase⟩
    cases hsets.symm.trans hsets'
    rcases hcase with ⟨fd', k', u, htold, hu⟩ | ⟨hnone, hr⟩
    · obtain ⟨rfl, rfl⟩ := h.unique htold
      exact ⟨u, hu⟩
    · exact absurd hr (h.not_quiet hnone)
  · rintro ⟨u, hu⟩
    exact ⟨sets, maxfd, hsets, .inl ⟨fd, k, u, h, hu⟩⟩

/-- **One `poll`.** It goes through, and marks what it counts if and only if the first entry of the
descriptor told asks for the kind told, or nothing is told. -/
theorem poll_counts_iff (p : Process σ) (h : PollFds ufds) (timeout : ℤ) (env : SelectEnv σ) :
    ∃ r, poll p ufds timeout env = .ok r ∧ (r.Counts ↔ Requested p ufds timeout env) := by
  obtain ⟨sets, maxfd, hsets, hmax⟩ := pollSets_of h FdSets.zero (m := 0) (by decide)
  have hle : maxfd + 1 ≤ maxFds := hmax
  obtain ⟨q, hq⟩ := (answers_iff p (maxfd + 1) (pollArgs sets) (pollTimeout timeout) env).1 hle
  have hneg : ∀ u ∈ unmarked ufds, u.fd ≠ -1 := by
    intro u hu
    obtain ⟨u₀, hu₀, rfl⟩ := List.mem_map.1 hu
    have := (h u₀ hu₀).1
    simp only
    omega
  rcases speakSelect_cases hq with ⟨fd, k, hfirst, hn, hgive, hret, hrfd, -⟩ | ⟨hnone, -, hrest⟩
  · -- told from the cache
    have hmarks : pollRevents q.sets.sets q.rfd (unmarked ufds) =
        .ok (markFirst fd (markOf k) (unmarked ufds)) := by
      rw [hgive, hrfd]
      exact pollRevents_only h k fd
    obtain ⟨r, hr, hufds, hrret⟩ := poll_eq hsets hq hmarks
    refine ⟨r, hr, ?_⟩
    rw [counts_told hufds (hrret.trans hret), requested_told hsets (.cached hn hfirst)]
  rcases hrest with ⟨hr₀, hret, -⟩ | ⟨hpos, hret, hvsel, -, hfound⟩
  · -- nothing is reported
    have hmarks : pollRevents q.sets.sets q.rfd (unmarked ufds) = .ok (unmarked ufds) := by
      rw [speakSelect_rfd hq hnone hr₀]
      exact pollRevents_of_ne hneg
    obtain ⟨r, hr, hufds, hrret⟩ := poll_eq hsets hq hmarks
    refine ⟨r, hr, iff_of_true ?_ ⟨sets, maxfd, hsets, .inr ⟨hnone, hr₀⟩⟩⟩
    have hne : r.sel.ret ≠ 1 := by
      rw [hrret, hret]
      intro h₁
      rw [h₁] at hr₀
      exact absurd hr₀ (by decide)
    exact (counts_unmarked hufds).2 hne
  rcases hfound with ⟨k, hfirst, hn, hgive⟩ | ⟨hempty, hrfd, hgive⟩
  · -- told from the cache with what is reported
    have hmarks : pollRevents q.sets.sets q.rfd (unmarked ufds) =
        .ok (markFirst q.rfd (markOf k) (unmarked ufds)) := by
      rw [hgive]
      exact pollRevents_only h k q.rfd
    obtain ⟨r, hr, hufds, hrret⟩ := poll_eq hsets hq hmarks
    refine ⟨r, hr, ?_⟩
    rw [hvsel] at hfirst
    rw [counts_told hufds (hrret.trans hret), requested_told hsets (.merged hn hnone hpos hfirst)]
  · -- something is reported, but no descriptor
    have hmarks : pollRevents q.sets.sets q.rfd (unmarked ufds) = .ok (unmarked ufds) := by
      rw [hrfd]
      exact pollRevents_of_ne hneg
    obtain ⟨r, hr, hufds, hrret⟩ := poll_eq hsets hq hmarks
    refine ⟨r, hr, iff_of_false ?_ ?_⟩
    · rw [counts_unmarked hufds, not_not]
      exact hrret.trans hret
    · rintro ⟨sets', maxfd', hsets', hcase⟩
      cases hsets.symm.trans hsets'
      rcases hcase with ⟨fd, k, u, htold, -⟩ | ⟨-, hr₀⟩
      · rcases htold with ⟨hn, hfirst⟩ | ⟨hn, -, -, hfirst⟩
        · exact hfirst.not_missed hn hnone
        · rw [hvsel] at hempty
          exact hfirst.not_missed hn hempty
      · exact absurd hpos (not_lt.2 hr₀)

/-! ## Runs -/

/-- A `poll` over entries whose descriptors fit in a set goes through and marks what it counts. -/
def PollCounts (p : Process σ) (a : WrappedCall σ) : Prop :=
  ∀ ufds timeout env, a = .poll ufds timeout env → PollFds ufds →
    ∃ r, poll p ufds timeout env = .ok r ∧ r.Counts

/-- The first entry of the descriptor that such a `poll` is told asks for the kind it is told. -/
def PollRequested (p : Process σ) (a : WrappedCall σ) : Prop :=
  ∀ ufds timeout env, a = .poll ufds timeout env → PollFds ufds → Requested p ufds timeout env

/-- **What poll counts.** In a run of wrapped calls every `poll` marks what it counts if and only if
every one is told what the first entry of the descriptor asks for, or is told nothing. -/
theorem polls_count_iff (p : Process σ) (as : List (WrappedCall σ)) :
    Tried Process.after p as PollCounts ↔ Tried Process.after p as PollRequested := by
  refine tried_iff (I := fun _ => True) trivial (fun p a _ => ?_) fun _ _ _ _ _ _ => trivial
  refine forall_congr' fun ufds => forall_congr' fun timeout => forall_congr' fun env =>
    forall_congr' fun _ => forall_congr' fun hfds => ?_
  obtain ⟨r, hr, hiff⟩ := poll_counts_iff p hfds timeout env
  constructor
  · rintro ⟨r', hr', hcounts⟩
    cases hr.symm.trans hr'
    exact hiff.1 hcounts
  · exact fun hreq => ⟨r, hr, hiff.2 hreq⟩

/-- A `poll` that asks whether 8 is readable, and finds it so. -/
def pollEight : WrappedCall PpPsqlState := .poll [⟨8, pollin, 0⟩] 0 (readyEnv 8)

/-- After 3 and 5 were found readable and 3 was told, a `poll` that asks for 8 returns 1 and marks
no entry: it is told 3. -/
theorem poll_marks_nothing :
    ¬ Tried Process.after untouched [selectBoth, pollEight] PollCounts := by
  intro h
  have hrun : runSteps Process.after untouched [selectBoth] = .ok _ := rfl
  obtain ⟨r, hr, hone, -⟩ := h [selectBoth] pollEight (List.prefix_refl _) _ hrun _ _ _ rfl
    (by simp [PollFds, maxFds])
  cases hr
  obtain ⟨u, hu, -⟩ := hone rfl
  exact absurd hu (List.cons_ne_nil _ _).symm

end BorderPatrol.Trace
