import BorderPatrol.Trace.Polling

/-!
# Descriptors as indices

`vfd_tab` has `MAX_FDS` entries and a descriptor set has `FD_SETSIZE` bits, 1024 of both. A process
may have more descriptors. The wrappers that are given a descriptor look whether it is in the table
before they use it. Those that are returned one by the kernel do not, nor does `fcntl` look at the
one it duplicates, nor `poll` at those of its entries. So the indices stay in range exactly when the
kernel returns descriptors below 1024, `fcntl` duplicates such a one, and `poll` is asked about such
ones only and finds one, or has no entry with the descriptor -1 (`indices_in_range_iff`). This is
for a run with `bb_disable_all = 0`; with the flag the wrappers only call the kernel's functions.
-/

namespace BorderPatrol.Trace

open Foundations

variable {σ : Type}

/-! ## Opening -/

/-- `FD_SETSIZE` -/
def fdSetsize : ℤ := 1024

/-- An entry as `pipe`, `open` and `creat` leave it. -/
def openedAs (p : Process σ) (fd : ℤ) (type : VfdType) : Process σ :=
  p.setVfd fd { vfdTabInitOne (p.vfdTab fd) with type, inProg := 0 }

/-- `pipe`, where the kernel's returns `r` and the descriptors. The integers are those logged with
`SYS_PIPE`. -/
def pipe (p : Process σ) (r fd₀ fd₁ : ℤ) : Except Fault (Process σ × ℤ × List ℤ) := do
  if r = 0 then
    inBounds (0 ≤ fd₀ ∧ fd₀ < maxFds ∧ 0 ≤ fd₁ ∧ fd₁ < maxFds)
    return (openedAs (openedAs p fd₀ .pipe) fd₁ .pipe, r, [fd₀, fd₁])
  else return (p, r, [fd₀, fd₁])

/-- `open`, where the kernel's returns `r`. The integer and the text are those logged with
`SYS_OPEN`. -/
def open' (p : Process σ) (pathname : List Byte) (flags r : ℤ) :
    Except Fault (Process σ × ℤ × ℤ × List Byte) := do
  if r ≠ -1 then
    inBounds (0 ≤ r ∧ r < maxFds)
    return (openedAs p r .file, r, flags, pathname)
  else return (p, r, flags, pathname)

/-- `creat`, where the kernel's returns `r`. The integer and the text are those logged with
`SYS_CREATE`. -/
def creat (p : Process σ) (pathname : List Byte) (_ r : ℤ) :
    Except Fault (Process σ × ℤ × ℤ × List Byte) := do
  if r ≠ -1 then
    inBounds (0 ≤ r ∧ r < maxFds)
    return (openedAs p r .file, r, 0, pathname)
  else return (p, r, 0, pathname)

/-- `F_DUPFD` -/
def fDupfd : ℤ := 0

/-- `fcntl`, where the kernel's returns `r`. -/
def fcntl (p : Process σ) (fd cmd r : ℤ) : Except Fault (Process σ × ℤ × List LogCall) :=
  if cmd = fDupfd then fcntlDupfd p fd r else .ok (p, r, [])

/-! ## The calls and what they index -/

/-- A wrapped call, with what it meets in the kernel. -/
inductive FdCall (σ : Type)
  | pipe (r fd₀ fd₁ : ℤ)
  | dup (oldfd newfd : ℤ)
  | dup2 (oldfd newfd r : ℤ)
  | fcntl (fd cmd r : ℤ)
  | socket (domain type protocol s : ℤ)
  | bind (s r : ℤ) (id : Option (PpDispatcher σ)) (idLog : List LogCall)
  | accept (s newFd : ℤ) (peer : Peer σ)
  | connect (s r : ℤ) (inProgress : Bool) (peer : Peer σ)
  | open' (pathname : List Byte) (flags r : ℤ)
  | creat (pathname : List Byte) (mode r : ℤ)
  | close (s ret : ℤ)
  | read (s : ℤ) (len : ℕ) (k : Kernel)
  | write (s : ℤ) (buf : List Byte) (r : ℤ)
  | poll (ufds : List Pollfd) (timeout : ℤ) (env : SelectEnv σ)

/-- The process after a call. -/
def FdCall.step (p : Process σ) : FdCall σ → Except Fault (Process σ)
  | .pipe r fd₀ fd₁ => Trace.pipe p r fd₀ fd₁ >>= fun q => .ok q.1
  | .dup oldfd newfd => Trace.dup p oldfd newfd >>= fun q => .ok q.1
  | .dup2 oldfd newfd r => Trace.dup2 p oldfd newfd r >>= fun q => .ok q.1
  | .fcntl fd cmd r => Trace.fcntl p fd cmd r >>= fun q => .ok q.1
  | .socket domain type protocol s => Trace.socket p domain type protocol s >>= fun q => .ok q.1
  | .bind s r id idLog => .ok (Trace.bind p s r id idLog).1
  | .accept s newFd peer => Trace.accept p s newFd peer >>= fun q => .ok q.1
  | .connect s r inProgress peer => .ok (Trace.connect p s r inProgress peer).1
  | .open' pathname flags r => Trace.open' p pathname flags r >>= fun q => .ok q.1
  | .creat pathname mode r => Trace.creat p pathname mode r >>= fun q => .ok q.1
  | .close s ret => .ok (Trace.close p s ret).1
  | .read s len k => Trace.read p s len k >>= fun q => .ok q.proc
  | .write s buf r => Trace.write p s buf r >>= fun q => .ok q.proc
  | .poll ufds timeout env => Trace.poll p ufds timeout env >>= fun q => .ok q.sel.proc

/-- A use of a descriptor as an index: of `vfd_tab`, or in `FD_SET`, `FD_CLR` or `FD_ISSET`. -/
inductive IndexUse
  | vfdTab (i : ℤ)
  | fdSet (fd : ℤ)
  deriving DecidableEq, Repr

/-- The index lies in the table, or in the set. -/
def IndexUse.InRange : IndexUse → Prop
  | .vfdTab i => 0 ≤ i ∧ i < maxFds
  | .fdSet fd => 0 ≤ fd ∧ fd < fdSetsize

/-- The check that most wrappers begin with. -/
def guarded (s : ℤ) (uses : List IndexUse) : List IndexUse :=
  if s < 0 ∨ maxFds ≤ s then [] else uses

/-- `FD_SET(newfd, &tracked)` and `dup_vfd`, where the kernel gave `newfd`. -/
def dupUses (oldfd newfd : ℤ) : List IndexUse :=
  if 0 ≤ newfd then [.fdSet newfd, .vfdTab newfd, .vfdTab oldfd, .vfdTab newfd] else []

/-- The loop that fills the sets of `poll`. -/
def setUses (ufds : List Pollfd) : List IndexUse :=
  ufds.flatMap fun u =>
    (if u.asks .read then [.fdSet u.fd] else []) ++ if u.asks .write then [.fdSet u.fd] else []

/-- A loop of `speak_select` that ends at the first hit, each descriptor once. -/
def scanUses (hit : VfdRwe → ℤ → Bool) : ℕ → ℤ → List IndexUse
  | 0, _ => []
  | m + 1, i =>
    .fdSet i :: if hit .read i || hit .write i || hit .except i then [] else scanUses hit m (i + 1)

/-- The descriptor a loop found, in `FD_SET` and `FD_CLR`, and its entry. -/
def foundUses : Option (ℤ × VfdRwe) → List IndexUse
  | some (fd, _) => [.fdSet fd, .vfdTab fd]
  | none => []

/-- What follows the loop of `speak_select` over the cache. -/
def speakRestUses (p : Process σ) (n : ℤ) (args : FdArgs) (timeout : Option Timeval)
    (env : SelectEnv σ) : Option (ℤ × VfdRwe) → List IndexUse
  | some hit => foundUses (some hit)
  | none =>
    let (r, res) := env.realSelect n args.sets timeout
    if r ≤ 0 then []
    else
      let vsel := p.vselData.absorb n res
      -- the loop that copies the bits goes on to the end
      scanUses (fun _ _ => false) n.toNat 0 ++ scanUses vsel.get n.toNat 0 ++
        match firstHit vsel.get n.toNat 0 with
        | .ok hit => foundUses hit
        | .error _ => []

/-- `speak_select` -/
def speakUses (p : Process σ) (n : ℤ) (args : FdArgs) (timeout : Option Timeval)
    (env : SelectEnv σ) : List IndexUse :=
  scanUses (p.cachedHit args) n.toNat 0 ++
    match firstHit (p.cachedHit args) n.toNat 0 with
    | .ok hit => speakRestUses p n args timeout env hit
    | .error _ => []

/-- The loop that sets `revents`. -/
def markUses (sets : FdSets) (rfd : ℤ) : List Pollfd → List IndexUse
  | [] => []
  | u :: ufds =>
    if u.fd ≠ rfd then markUses sets rfd ufds
    else .fdSet u.fd :: if sets.read u.fd || sets.write u.fd then [] else markUses sets rfd ufds

/-- `poll`. Behind an index that is out of range the program has no defined behaviour, and no
further ones are listed. -/
def pollUses (p : Process σ) (ufds : List Pollfd) (timeout : ℤ) (env : SelectEnv σ) :
    List IndexUse :=
  setUses ufds ++
    match pollSets ufds FdSets.zero 0 with
    | .error _ => []
    | .ok (sets, maxfd) =>
      speakUses p (maxfd + 1) (pollArgs sets) (pollTimeout timeout) env ++
        match speakSelect p (maxfd + 1) (pollArgs sets) (pollTimeout timeout) env with
        | .error _ => []
        | .ok q => markUses q.sets.sets q.rfd ufds

/-- `clear_readable_cache` and `set_readable_cache` in a `read`. -/
def readUses (p : Process σ) (s : ℤ) (len : ℕ) (k : Kernel) : List IndexUse :=
  if (p.vfdTab s).ppDispatcher.isSome then
    match virtualRead (p.vfdTab s) s len k with
    | .error _ => []
    | .ok g => if g.readable.isSome then [.fdSet s] else []
  else [.fdSet s]

/-- The indices a call uses, in the order of the source. -/
def FdCall.uses (p : Process σ) : FdCall σ → List IndexUse
  | .pipe r fd₀ fd₁ =>
    if r = 0 then [.fdSet fd₀, .fdSet fd₁, .vfdTab fd₀, .vfdTab fd₁] else []
  | .dup oldfd newfd => guarded oldfd (dupUses oldfd newfd)
  | .dup2 oldfd newfd r => guarded oldfd (guarded newfd (dupUses oldfd r))
  | .fcntl fd cmd r => if cmd = fDupfd then dupUses fd r else []
  | .socket _ _ _ s => if 0 ≤ s then [.fdSet s, .vfdTab s] else []
  | .bind s r _ _ => guarded s (if r = 0 then [.vfdTab s] else [])
  | .accept s newFd _ =>
    guarded s (.fdSet s :: if newFd ≠ -1 then [.fdSet newFd, .vfdTab newFd] else [])
  | .connect s r inProgress _ => guarded s (if r ≠ -1 ∨ inProgress then [.vfdTab s] else [])
  | .open' _ _ r => if r ≠ -1 then [.fdSet r, .vfdTab r] else []
  | .creat _ _ r => if r ≠ -1 then [.fdSet r, .vfdTab r] else []
  | .close s _ =>
    if s = logdFd then []
    else guarded s [.fdSet s, .vfdTab s, .fdSet s, .fdSet s, .fdSet s]
  | .read s len k => guarded s (.vfdTab s :: readUses p s len k)
  | .write s _ _ => guarded s [.vfdTab s, .fdSet s]
  | .poll ufds timeout env => pollUses p ufds timeout env

/-- Every index of the list is in range. -/
def AllInRange (l : List IndexUse) : Prop := ∀ u ∈ l, u.InRange

/-- Every index that the call uses is in range. -/
def UsesInRange (p : Process σ) (a : FdCall σ) : Prop := AllInRange (a.uses p)

variable {p : Process σ} {ufds : List Pollfd} {timeout : ℤ} {env : SelectEnv σ}
  {l l' : List IndexUse}

@[simp] theorem allInRange_nil : AllInRange [] := fun _ h => absurd h List.not_mem_nil

@[simp] theorem allInRange_cons {u : IndexUse} :
    AllInRange (u :: l) ↔ u.InRange ∧ AllInRange l := List.forall_mem_cons

@[simp] theorem allInRange_append : AllInRange (l ++ l') ↔ AllInRange l ∧ AllInRange l' :=
  List.forall_mem_append

theorem allInRange_ite {c : Prop} [Decidable c] :
    AllInRange (if c then l else l') ↔ if c then AllInRange l else AllInRange l' := by
  split <;> rfl

theorem allInRange_ite_nil {c : Prop} [Decidable c] :
    AllInRange (if c then l else []) ↔ (c → AllInRange l) := by
  split
  · next h => exact (imp_iff_right h).symm
  · next h => exact iff_of_true allInRange_nil fun h' => absurd h' h

theorem guarded_iff {s : ℤ} : AllInRange (guarded s l) ↔ (0 ≤ s ∧ s < maxFds → AllInRange l) := by
  rw [guarded]
  split
  · exact iff_of_true allInRange_nil fun h => by omega
  · next h => exact (imp_iff_right (by omega)).symm

/-! ## Checks -/

/-- A check, and what is given behind it. -/
theorem exists_inBounds_ok_iff {α : Type} {c : Prop} [Decidable c] {a : α} :
    (∃ b, (inBounds c >>= fun _ => .ok a) = .ok b) ↔ c := by
  refine exists_bind_ok_iff.trans ⟨?_, fun hc => ⟨(), inBounds_of hc⟩⟩
  rintro ⟨u, h⟩
  exact of_inBounds h

/-- A check that is made in one case only. -/
theorem exists_check_ok_iff {α : Type} {c d : Prop} [Decidable c] [Decidable d] {a b : α} :
    (∃ r, (if c then inBounds d >>= fun _ => .ok a else .ok b) = .ok r) ↔ (c → d) := by
  split
  · next h => exact exists_inBounds_ok_iff.trans (imp_iff_right h).symm
  · next h => exact iff_of_true ⟨b, rfl⟩ fun h' => absurd h' h

/-! ## The loops -/

/-- **A loop of `speak_select`** stays in range if and only if it goes through. -/
theorem scanUses_iff (hit : VfdRwe → ℤ → Bool) {m : ℕ} {i : ℤ} (hi : 0 ≤ i) :
    AllInRange (scanUses hit m i) ↔ ∃ o, firstHit hit m i = .ok o := by
  induction m generalizing i with
  | zero => exact iff_of_true allInRange_nil ⟨none, rfl⟩
  | succ m ih =>
    rw [scanUses, allInRange_cons, firstHit]
    by_cases hlt : i < maxFds
    · have hin : (IndexUse.fdSet i).InRange := ⟨hi, hlt⟩
      rw [inBounds_of hlt, ok_bind, and_iff_right hin]
      cases hr : hit .read i with
      | true => exact iff_of_true allInRange_nil ⟨_, rfl⟩
      | false =>
        cases hw : hit .write i with
        | true => exact iff_of_true allInRange_nil ⟨_, rfl⟩
        | false =>
          cases he : hit .except i with
          | true => exact iff_of_true allInRange_nil ⟨_, rfl⟩
          | false => exact ih (by omega)
    · refine iff_of_false (fun h => hlt h.1.2) ?_
      rintro ⟨o, ho⟩
      obtain ⟨u, hin, -⟩ := bind_eq_ok ho
      exact hlt (of_inBounds hin)

/-- A loop that goes through without a hit has looked at all. -/
theorem firstHit_none_le {hit : VfdRwe → ℤ → Bool} {m : ℕ} {i : ℤ} (hi : i ≤ maxFds)
    (h : firstHit hit m i = .ok none) : i + m ≤ maxFds := by
  induction m generalizing i with
  | zero => simpa using hi
  | succ m ih =>
    obtain ⟨u, hin, h⟩ := bind_eq_ok h
    have hlt := of_inBounds hin
    split at h
    · cases h
    split at h
    · cases h
    split at h
    · cases h
    have hle := ih (by omega) h
    push_cast
    omega

/-- A loop goes through when a hit in the sets ends it. -/
theorem firstHit_ok_of_hit {hit : VfdRwe → ℤ → Bool} {m : ℕ} {i j : ℤ} {k : VfdRwe} (hij : i ≤ j)
    (hm : j < i + m) (hj : j < maxFds) (hhit : hit k j = true) :
    ∃ o, firstHit hit m i = .ok o := by
  induction m generalizing i with
  | zero => exact absurd hm (by push_cast; omega)
  | succ m ih =>
    unfold firstHit
    rw [inBounds_of (by omega), ok_bind]
    split
    · exact ⟨_, rfl⟩
    next hr =>
    split
    · exact ⟨_, rfl⟩
    next hw =>
    split
    · exact ⟨_, rfl⟩
    next he =>
    have hne : i ≠ j := by
      rintro rfl
      cases k
      · exact hr hhit
      · exact hw hhit
      · exact he hhit
    exact ih (by omega) (by push_cast at hm; omega)

/-- A loop from 0 on goes through if the sets have all it looks at, or a hit. -/
theorem firstHit_ok_iff {hit : VfdRwe → ℤ → Bool} {n : ℤ} :
    (∃ o, firstHit hit n.toNat 0 = .ok o) ↔
      n ≤ maxFds ∨ ∃ i k, 0 ≤ i ∧ i < n ∧ i < maxFds ∧ hit k i = true := by
  have hmax : (0 : ℤ) ≤ maxFds := by decide
  constructor
  · rintro ⟨_ | ⟨fd, k⟩, ho⟩
    · have hle := firstHit_none_le hmax ho
      exact .inl (by omega)
    · obtain ⟨hfirst, hlt, hfd⟩ := firstHit_some ho
      have h₀ := hfirst.1
      exact .inr ⟨fd, k, h₀, by omega, hfd, hfirst.2.1⟩
  · rintro (hn | ⟨i, k, h₀, hi, hlt, hhit⟩)
    · exact firstHit_ok hit (by omega)
    · exact firstHit_ok_of_hit h₀ (by omega) hlt hhit

/-- What a loop found is in range. -/
theorem foundUses_inRange {hit : VfdRwe → ℤ → Bool} {m : ℕ} {o : Option (ℤ × VfdRwe)}
    (h : firstHit hit m 0 = .ok o) : AllInRange (foundUses o) := by
  rcases o with _ | ⟨fd, k⟩
  · exact allInRange_nil
  · obtain ⟨hfirst, -, hfd⟩ := firstHit_some h
    rw [foundUses, allInRange_cons, allInRange_cons]
    exact ⟨⟨hfirst.1, hfd⟩, ⟨hfirst.1, hfd⟩, allInRange_nil⟩

section Speak

variable {n : ℤ} {args : FdArgs} {tv : Option Timeval}

theorem speakRestUses_inRange {o : Option (ℤ × VfdRwe)}
    (h : firstHit (p.cachedHit args) n.toNat 0 = .ok o) :
    AllInRange (speakRestUses p n args tv env o) := by
  rcases o with _ | hit
  · have hn : (0 : ℤ) + n.toNat ≤ maxFds := firstHit_none_le (by decide) h
    rw [speakRestUses]
    rcases env.realSelect n args.sets tv with ⟨r, res⟩
    simp only
    split
    · exact allInRange_nil
    obtain ⟨o, ho⟩ := firstHit_ok (p.vselData.absorb n res).get hn
    rw [allInRange_append, allInRange_append, scanUses_iff _ le_rfl, scanUses_iff _ le_rfl, ho]
    exact ⟨⟨firstHit_ok _ hn, o, rfl⟩, foundUses_inRange ho⟩
  · exact foundUses_inRange h

/-- **`speak_select`** stays in range if and only if its loop over the cache does. -/
theorem speakUses_inRange_iff : AllInRange (speakUses p n args tv env) ↔
    ∃ o, firstHit (p.cachedHit args) n.toNat 0 = .ok o := by
  rw [speakUses, allInRange_append, scanUses_iff (p.cachedHit args) le_rfl]
  refine and_iff_left_of_imp ?_
  rintro ⟨o, ho⟩
  rw [ho]
  exact speakRestUses_inRange ho

/-- It goes through then, and only then. -/
theorem speakSelect_ok_iff : (∃ q, speakSelect p n args tv env = .ok q) ↔
    ∃ o, firstHit (p.cachedHit args) n.toNat 0 = .ok o := by
  constructor
  · rintro ⟨q, hq⟩
    obtain ⟨o, ho, -⟩ := bind_eq_ok hq
    exact ⟨o, ho⟩
  · rintro ⟨_ | ⟨fd, k⟩, ho⟩
    · have hn : (0 : ℤ) + n.toNat ≤ maxFds := firstHit_none_le (by decide) ho
      exact (answers_iff p n args tv env).1 (by omega)
    · have hcached : firstHit (fun k i => args.sets.get k i && p.vselData.get k i) n.toNat 0 =
          .ok (some (fd, k)) := ho
      simp only [speakSelect, hcached]
      exact ⟨_, rfl⟩

end Speak

/-! ## The marks -/

/-- **The loop over the entries** stays in range if and only if it goes through. -/
theorem markUses_iff {sets : FdSets} {rfd : ℤ} :
    AllInRange (markUses sets rfd ufds) ↔ ∃ us, pollRevents sets rfd (unmarked ufds) = .ok us := by
  induction ufds with
  | nil => exact iff_of_true allInRange_nil ⟨[], rfl⟩
  | cons u ufds ih =>
    change _ ↔ ∃ us, pollRevents sets rfd ({ u with revents := 0 } :: unmarked ufds) = .ok us
    rw [markUses, pollRevents]
    simp only
    by_cases hfd : u.fd = rfd
    · rw [if_neg (not_not.2 hfd), if_neg (not_not.2 hfd), allInRange_cons]
      by_cases hin : 0 ≤ u.fd ∧ u.fd < maxFds
      · rw [inBounds_of hin, ok_bind]
        have huse : (IndexUse.fdSet u.fd).InRange := hin
        rw [and_iff_right huse]
        cases hr : sets.read u.fd with
        | true => exact iff_of_true allInRange_nil ⟨_, rfl⟩
        | false =>
          cases hw : sets.write u.fd with
          | true => exact iff_of_true allInRange_nil ⟨_, rfl⟩
          | false => exact ih.trans exists_bind_ok_iff.symm
      · refine iff_of_false (fun h => hin h.1) ?_
        rintro ⟨us, h⟩
        obtain ⟨w, hcheck, -⟩ := bind_eq_ok h
        exact hin (of_inBounds hcheck)
    · rw [if_pos hfd, if_pos hfd, ih]
      exact exists_bind_ok_iff.symm

/-- It uses the descriptor that was found, where an entry has it, and no other. -/
theorem markUses_inRange_iff {sets : FdSets} {rfd : ℤ} : AllInRange (markUses sets rfd ufds) ↔
    ((∃ u ∈ ufds, u.fd = rfd) → 0 ≤ rfd ∧ rfd < fdSetsize) := by
  induction ufds with
  | nil => exact iff_of_true allInRange_nil fun h => by simp at h
  | cons u ufds ih =>
    rw [markUses]
    by_cases hfd : u.fd = rfd
    · rw [if_neg (not_not.2 hfd), allInRange_cons, allInRange_ite, ih]
      have hmem : ∃ w ∈ u :: ufds, w.fd = rfd := ⟨u, List.mem_cons_self, hfd⟩
      rw [imp_iff_right hmem, hfd]
      refine and_iff_left_of_imp fun hin => ?_
      split
      · exact allInRange_nil
      · exact fun _ => hin
    · rw [if_pos hfd, ih]
      simp [hfd]

/-! ## The sets of a `poll` -/

/-- The descriptors that are asked for lie in the sets. -/
def AskedFit (ufds : List Pollfd) : Prop :=
  ∀ u ∈ ufds, u.asks .read = true ∨ u.asks .write = true → 0 ≤ u.fd ∧ u.fd < fdSetsize

theorem setUses_inRange_iff : AllInRange (setUses ufds) ↔ AskedFit ufds := by
  induction ufds with
  | nil => exact iff_of_true allInRange_nil fun u h => absurd h List.not_mem_nil
  | cons u ufds ih =>
    rw [setUses, List.flatMap_cons, ← setUses, allInRange_append, ih, allInRange_append]
    refine Iff.trans ?_ List.forall_mem_cons.symm
    refine and_congr_left fun _ => ?_
    cases hr : u.asks .read <;> cases hw : u.asks .write <;> simp [IndexUse.InRange]

theorem fdSetWhen_ok_iff {c : Bool} {s : FdSets} {k : VfdRwe} {fd : ℤ} :
    (∃ s', fdSetWhen c s k fd = .ok s') ↔ (c = true → 0 ≤ fd ∧ fd < maxFds) :=
  exists_check_ok_iff

/-- **The loop that fills the sets** goes through if and only if it stays in range. -/
theorem pollSets_ok_iff {sets : FdSets} {m : ℤ} :
    (∃ r, pollSets ufds sets m = .ok r) ↔ AskedFit ufds := by
  induction ufds generalizing sets m with
  | nil => exact iff_of_true ⟨(sets, m), rfl⟩ fun u h => absurd h List.not_mem_nil
  | cons u ufds ih =>
    constructor
    · rintro ⟨r, h⟩
      obtain ⟨s₁, h₁, h⟩ := bind_eq_ok h
      obtain ⟨s₂, h₂, h⟩ := bind_eq_ok h
      refine List.forall_mem_cons.2 ⟨?_, ih.1 ⟨r, h⟩⟩
      rintro (hr | hw)
      · exact fdSetWhen_ok_iff.1 ⟨s₁, h₁⟩ hr
      · exact fdSetWhen_ok_iff.1 ⟨s₂, h₂⟩ hw
    · intro h
      obtain ⟨hu, hufds⟩ := List.forall_mem_cons.1 h
      obtain ⟨s₁, h₁⟩ := fdSetWhen_ok_iff (s := sets) (k := .read).2 fun hr => hu (.inl hr)
      obtain ⟨s₂, h₂⟩ := fdSetWhen_ok_iff (s := s₁) (k := .write).2 fun hw => hu (.inr hw)
      have h₁' : fdSetWhen (u.events &&& pollin ≠ 0) sets .read u.fd = .ok s₁ := h₁
      have h₂' : fdSetWhen (u.events &&& pollout ≠ 0) s₁ .write u.fd = .ok s₂ := h₂
      rw [pollSets, h₁', ok_bind, h₂', ok_bind]
      exact ih.2 hufds

/-- The sets that `poll` asks about. -/
def pollAsked (ufds : List Pollfd) : FdSets where
  read i := ufds.any fun u => u.asks .read && decide (u.fd = i)
  write i := ufds.any fun u => u.asks .write && decide (u.fd = i)
  except _ := false

/-- The largest descriptor, or 0. -/
def pollMax (ufds : List Pollfd) : ℤ := (ufds.map Pollfd.fd).foldl max 0

theorem foldl_max_lt_iff {l : List ℤ} {m n : ℤ} :
    l.foldl max m < n ↔ m < n ∧ ∀ x ∈ l, x < n := by
  induction l generalizing m with
  | nil => simp
  | cons x l ih =>
    rw [List.foldl_cons, ih, max_lt_iff, List.forall_mem_cons, and_assoc]

theorem pollMax_lt_iff {n : ℤ} : pollMax ufds < n ↔ 0 < n ∧ ∀ u ∈ ufds, u.fd < n := by
  rw [pollMax, foldl_max_lt_iff, List.forall_mem_map]

theorem pollSets_max {sets sets' : FdSets} {m m' : ℤ}
    (h : pollSets ufds sets m = .ok (sets', m')) : m' = (ufds.map Pollfd.fd).foldl max m := by
  induction ufds generalizing sets m with
  | nil =>
    cases h
    rfl
  | cons u ufds ih =>
    obtain ⟨s₁, -, h⟩ := bind_eq_ok h
    obtain ⟨s₂, -, h⟩ := bind_eq_ok h
    rw [ih h, List.map_cons, List.foldl_cons]
    congr 1
    split <;> omega

theorem pollSets_eq {sets : FdSets} {maxfd : ℤ}
    (h : pollSets ufds FdSets.zero 0 = .ok (sets, maxfd)) :
    sets = pollAsked ufds ∧ maxfd = pollMax ufds := by
  refine ⟨?_, pollSets_max h⟩
  obtain ⟨-, hget, -⟩ := pollSets_ok h
  have hsets : ∀ k i, sets.get k i = (pollAsked ufds).get k i := by
    intro k i
    have hzero : FdSets.zero.get k i = false := by cases k <;> rfl
    rw [Bool.eq_iff_iff, hget, hzero]
    cases k <;> simp [pollAsked, FdSets.get, Pollfd.asks, and_comm]
  have hread : sets.read = (pollAsked ufds).read := funext (hsets .read)
  have hwrite : sets.write = (pollAsked ufds).write := funext (hsets .write)
  have hexcept : sets.except = (pollAsked ufds).except := funext (hsets .except)
  calc sets = ⟨sets.read, sets.write, sets.except⟩ := rfl
    _ = pollAsked ufds := by rw [hread, hwrite, hexcept]

/-! ## One `poll` -/

/-- A descriptor that is asked for is in the cache. -/
def CachedAsk (p : Process σ) (ufds : List Pollfd) : Prop :=
  ∃ u ∈ ufds, ∃ k, u.asks k = true ∧ p.vselData.get k u.fd = true

/-- `real_select` reports something, and a descriptor that it is asked about is in the cache or in
its report. -/
def ReportedBelow (p : Process σ) (ufds : List Pollfd) (timeout : ℤ) (env : SelectEnv σ) : Prop :=
  let answer := env.realSelect (pollMax ufds + 1) (pollAsked ufds) (pollTimeout timeout)
  0 < answer.1 ∧ ∃ i k, 0 ≤ i ∧ i ≤ pollMax ufds ∧
    (p.vselData.get k i = true ∨ answer.2.get k i = true)

/-- The condition on a `poll`. -/
structure PollFits (p : Process σ) (ufds : List Pollfd) (timeout : ℤ) (env : SelectEnv σ) :
    Prop where
  asked : AskedFit ufds
  below : (∀ u ∈ ufds, u.fd < fdSetsize) ∨ CachedAsk p ufds
  found : (∀ u ∈ ufds, u.fd ≠ -1) ∨ CachedAsk p ufds ∨ ReportedBelow p ufds timeout env

theorem pollArgs_sets (sets : FdSets) : (pollArgs sets).sets = sets := rfl

theorem pollAsked_get {k : VfdRwe} {i : ℤ} :
    (pollAsked ufds).get k i = true ↔ ∃ u ∈ ufds, u.asks k = true ∧ u.fd = i := by
  cases k <;> simp [pollAsked, FdSets.get, Pollfd.asks]

theorem cachedHit_pollAsked {k : VfdRwe} {i : ℤ} :
    p.cachedHit (pollArgs (pollAsked ufds)) k i = true ↔
      (∃ u ∈ ufds, u.asks k = true ∧ u.fd = i) ∧ p.vselData.get k i = true := by
  rw [Process.cachedHit, pollArgs_sets, Bool.and_eq_true, pollAsked_get]

/-- An entry that asks for something has a descriptor in the sets. -/
theorem AskedFit.of_asks (h : AskedFit ufds) {u : Pollfd} (hu : u ∈ ufds) {k : VfdRwe}
    (hk : u.asks k = true) : 0 ≤ u.fd ∧ u.fd < fdSetsize := by
  cases k with
  | read => exact h u hu (.inl hk)
  | write => exact h u hu (.inr hk)
  | except => cases hk

theorem cachedAsk_iff (h : AskedFit ufds) : CachedAsk p ufds ↔
    ∃ i k, 0 ≤ i ∧ i < pollMax ufds + 1 ∧ i < maxFds ∧
      p.cachedHit (pollArgs (pollAsked ufds)) k i = true := by
  constructor
  · rintro ⟨u, hu, k, hk, hcache⟩
    obtain ⟨h₀, hlt⟩ := h.of_asks hu hk
    have hmax : u.fd < pollMax ufds + 1 := (pollMax_lt_iff.1 (Int.lt_succ _)).2 u hu
    exact ⟨u.fd, k, h₀, hmax, hlt, cachedHit_pollAsked.2 ⟨⟨u, hu, hk, rfl⟩, hcache⟩⟩
  · rintro ⟨i, k, -, -, -, hhit⟩
    obtain ⟨⟨u, hu, hk, rfl⟩, hcache⟩ := cachedHit_pollAsked.1 hhit
    exact ⟨u, hu, k, hk, hcache⟩

/-- The loop over the cache. -/
theorem firstHit_cached_ok_iff (h : AskedFit ufds) :
    (∃ o, firstHit (p.cachedHit (pollArgs (pollAsked ufds))) (pollMax ufds + 1).toNat 0 = .ok o) ↔
      (∀ u ∈ ufds, u.fd < fdSetsize) ∨ CachedAsk p ufds := by
  have hpos : (0 : ℤ) < maxFds := by decide
  rw [firstHit_ok_iff, cachedAsk_iff h, Int.add_one_le_iff, pollMax_lt_iff, and_iff_right hpos]
  rfl

theorem absorb_get_iff {s res : FdSets} {n i : ℤ} {k : VfdRwe} (h₀ : 0 ≤ i) (hn : i < n) :
    (s.absorb n res).get k i = true ↔ s.get k i = true ∨ res.get k i = true := by
  rw [FdSets.get_absorb, Bool.or_eq_true, decide_eq_true ⟨h₀, hn⟩, Bool.true_and]

/-- **What a `poll` finds.** The descriptor that `speak_select` gives lies in the sets, when
something asked for is in the cache or something is reported; otherwise it is -1. -/
theorem speakSelect_found (h : AskedFit ufds) {q : Selected σ}
    (hq : speakSelect p (pollMax ufds + 1) (pollArgs (pollAsked ufds)) (pollTimeout timeout) env =
      .ok q) :
    (CachedAsk p ufds ∨ ReportedBelow p ufds timeout env) ∧ 0 ≤ q.rfd ∧ q.rfd < fdSetsize ∨
      ¬ (CachedAsk p ufds ∨ ReportedBelow p ufds timeout env) ∧ q.rfd = -1 := by
  rcases speakSelect_cases hq with ⟨fd, k, hfirst, hn, -, -, rfl, -⟩ | ⟨hnone, -, hrest⟩
  · -- told from the cache
    obtain ⟨⟨u, hu, hk, hfd⟩, hcache⟩ := cachedHit_pollAsked.1 hfirst.2.1
    have hin := h.of_asks hu hk
    rw [hfd] at hin
    exact .inl ⟨.inl ⟨u, hu, k, hk, hfd ▸ hcache⟩, hin⟩
  have hcached : ¬ CachedAsk p ufds := by
    rw [cachedAsk_iff h]
    rintro ⟨i, k, h₀, hlt, -, hhit⟩
    rw [hnone i h₀ hlt k] at hhit
    cases hhit
  have hle : pollMax ufds < maxFds := by
    rcases (firstHit_cached_ok_iff h).1 (speakSelect_ok_iff.1 ⟨q, hq⟩) with hall | hask
    · exact pollMax_lt_iff.2 ⟨by decide, hall⟩
    · exact absurd hask hcached
  rw [pollArgs_sets] at hrest
  rcases hrest with ⟨hr₀, -, -⟩ | ⟨hpos, -, hvsel, -, hfound⟩
  · -- nothing is reported
    refine .inr ⟨?_, speakSelect_rfd hq hnone hr₀⟩
    rintro (hask | ⟨hpos, -⟩)
    · exact hcached hask
    · exact absurd hpos (not_lt.2 hr₀)
  rcases hfound with ⟨k, hfirst, hn, -⟩ | ⟨hempty, hrfd, -⟩
  · -- told from the cache with what is reported
    refine .inl ⟨.inr ⟨hpos, q.rfd, k, hfirst.1, by omega, ?_⟩, hfirst.1, hn.trans_le hle⟩
    have hget := hfirst.2.1
    rw [hvsel] at hget
    exact (absorb_get_iff hfirst.1 hn).1 hget
  · -- something is reported, but no descriptor
    refine .inr ⟨?_, hrfd⟩
    rintro (hask | ⟨-, i, k, h₀, hi, hbit⟩)
    · exact hcached hask
    · have hmiss := hempty i h₀ (by omega) k
      rw [hvsel, (absorb_get_iff h₀ (by omega)).2 hbit] at hmiss
      cases hmiss

/-- **One `poll`** stays in range if and only if the descriptors it asks for lie in the sets, as all
of its entries do or one it asks for is in the cache, and it finds a descriptor or no entry has the
descriptor -1. -/
theorem pollUses_inRange_iff :
    AllInRange (pollUses p ufds timeout env) ↔ PollFits p ufds timeout env := by
  rw [pollUses, allInRange_append, setUses_inRange_iff]
  by_cases hasked : AskedFit ufds
  · have hfill : ∃ r, pollSets ufds FdSets.zero 0 = .ok r := pollSets_ok_iff.2 hasked
    obtain ⟨⟨sets, maxfd⟩, hsets⟩ := hfill
    obtain ⟨rfl, rfl⟩ := pollSets_eq hsets
    rw [hsets, and_iff_right hasked]
    simp only
    rw [allInRange_append, speakUses_inRange_iff]
    constructor
    · rintro ⟨ho, hmarks⟩
      obtain ⟨q, hq⟩ := speakSelect_ok_iff.2 ho
      rw [hq] at hmarks
      refine ⟨hasked, (firstHit_cached_ok_iff hasked).1 ho, ?_⟩
      rcases speakSelect_found hasked hq with ⟨hfound, -⟩ | ⟨-, hrfd⟩
      · exact .inr hfound
      · refine .inl fun u hu hfd => ?_
        have hin := markUses_inRange_iff.1 hmarks ⟨u, hu, hfd.trans hrfd.symm⟩
        omega
    · intro hfits
      have ho := (firstHit_cached_ok_iff hasked).2 hfits.below
      obtain ⟨q, hq⟩ := speakSelect_ok_iff.2 ho
      rw [hq]
      refine ⟨ho, markUses_inRange_iff.2 ?_⟩
      rintro ⟨u, hu, hfd⟩
      rcases speakSelect_found hasked hq with ⟨-, hin⟩ | ⟨hnot, hrfd⟩
      · exact hin
      · rcases hfits.found with hne | hfound
        · exact absurd (hfd.trans hrfd) (hne u hu)
        · exact absurd hfound hnot
  · exact iff_of_false (fun h => hasked h.1) fun h => hasked h.asked

/-- A `poll` whose uses are in range goes through, and no other. -/
theorem poll_ok_iff :
    (∃ r, poll p ufds timeout env = .ok r) ↔ AllInRange (pollUses p ufds timeout env) := by
  rw [pollUses, allInRange_append, setUses_inRange_iff]
  constructor
  · rintro ⟨r, hr⟩
    obtain ⟨q, hq, hr⟩ := bind_eq_ok hr
    obtain ⟨us, hus, -⟩ := bind_eq_ok hr
    rw [pollSelect, pollSets_map] at hq
    obtain ⟨⟨sets, maxfd⟩, hsets, hspeak⟩ := bind_eq_ok hq
    have hspeak' : speakSelect p (maxfd + 1) (pollArgs sets) (pollTimeout timeout) env = .ok q :=
      hspeak
    refine ⟨pollSets_ok_iff.1 ⟨_, hsets⟩, ?_⟩
    simp only [hsets, hspeak', allInRange_append, speakUses_inRange_iff]
    exact ⟨speakSelect_ok_iff.1 ⟨q, hspeak'⟩, markUses_iff.2 ⟨us, hus⟩⟩
  · rintro ⟨hasked, huses⟩
    have hfill : ∃ r, pollSets ufds FdSets.zero 0 = .ok r := pollSets_ok_iff.2 hasked
    obtain ⟨⟨sets, maxfd⟩, hsets⟩ := hfill
    simp only [hsets, allInRange_append, speakUses_inRange_iff] at huses
    obtain ⟨ho, hmarks⟩ := huses
    obtain ⟨q, hq⟩ := speakSelect_ok_iff.2 ho
    rw [hq] at hmarks
    obtain ⟨us, hus⟩ := markUses_iff.1 hmarks
    obtain ⟨r, hr, -⟩ := poll_eq hsets hq hus
    exact ⟨r, hr⟩

/-! ## The calls -/

/-- The condition on a call: the kernel returns descriptors below `MAX_FDS`, where the wrapper goes
on to use them; `fcntl` duplicates one that is in the table; and that on `poll`. -/
def FdCall.Fits (p : Process σ) : FdCall σ → Prop
  | .pipe r fd₀ fd₁ => r = 0 → (0 ≤ fd₀ ∧ fd₀ < maxFds) ∧ 0 ≤ fd₁ ∧ fd₁ < maxFds
  | .dup oldfd newfd => 0 ≤ oldfd ∧ oldfd < maxFds → 0 ≤ newfd → newfd < maxFds
  | .dup2 oldfd newfd r => 0 ≤ oldfd ∧ oldfd < maxFds → 0 ≤ newfd ∧ newfd < maxFds →
      0 ≤ r → r < maxFds
  | .fcntl fd cmd r => cmd = fDupfd → 0 ≤ r → r < maxFds ∧ 0 ≤ fd ∧ fd < maxFds
  | .socket _ _ _ s => 0 ≤ s → s < maxFds
  | .accept s newFd _ => 0 ≤ s ∧ s < maxFds → newFd ≠ -1 → 0 ≤ newFd ∧ newFd < maxFds
  | .open' _ _ r => r ≠ -1 → 0 ≤ r ∧ r < maxFds
  | .creat _ _ r => r ≠ -1 → 0 ≤ r ∧ r < maxFds
  | .poll ufds timeout env => PollFits p ufds timeout env
  -- these look at the descriptor first, and are returned none
  | .bind _ _ _ _ | .connect _ _ _ _ | .close _ _ | .read _ _ _ | .write _ _ _ => True

/-- A descriptor that is put into a set and looked up in the table. -/
theorem setAndEntry_inRange_iff {fd : ℤ} :
    AllInRange [.fdSet fd, .vfdTab fd] ↔ 0 ≤ fd ∧ fd < maxFds := by
  simp only [allInRange_cons, allInRange_nil, and_true, IndexUse.InRange]
  exact and_iff_right_of_imp id

theorem dupUses_inRange_iff {oldfd newfd : ℤ} : AllInRange (dupUses oldfd newfd) ↔
    (0 ≤ newfd → newfd < maxFds ∧ 0 ≤ oldfd ∧ oldfd < maxFds) := by
  rw [dupUses, allInRange_ite_nil]
  refine forall_congr' fun h => ?_
  simp only [allInRange_cons, allInRange_nil, and_true, IndexUse.InRange]
  constructor
  · rintro ⟨-, hnew, hold, -⟩
    exact ⟨hnew.2, hold⟩
  · rintro ⟨hnew, hold⟩
    exact ⟨⟨h, hnew⟩, ⟨h, hnew⟩, hold, h, hnew⟩

theorem readUses_inRange {s : ℤ} {len : ℕ} {k : Kernel} (hs : 0 ≤ s ∧ s < maxFds) :
    AllInRange (readUses p s len k) := by
  have hone : AllInRange [.fdSet s] := allInRange_cons.2 ⟨hs, allInRange_nil⟩
  rw [readUses]
  split
  · split
    · exact allInRange_nil
    · split
      · exact hone
      · exact allInRange_nil
  · exact hone

/-- **One call** stays in range if and only if it meets the condition. -/
theorem usesInRange_iff (p : Process σ) (a : FdCall σ) : UsesInRange p a ↔ a.Fits p := by
  cases a with
  | pipe r fd₀ fd₁ =>
    rw [UsesInRange, FdCall.uses, allInRange_ite_nil]
    refine forall_congr' fun _ => ?_
    simp only [allInRange_cons, allInRange_nil, and_true, IndexUse.InRange]
    exact ⟨fun h => h.2.2, fun h => ⟨h.1, h.2, h⟩⟩
  | dup oldfd newfd =>
    rw [UsesInRange, FdCall.uses, guarded_iff, dupUses_inRange_iff]
    exact forall_congr' fun hold => forall_congr' fun _ => and_iff_left hold
  | dup2 oldfd newfd r =>
    rw [UsesInRange, FdCall.uses, guarded_iff, guarded_iff, dupUses_inRange_iff]
    exact forall_congr' fun hold => forall_congr' fun _ => forall_congr' fun _ => and_iff_left hold
  | fcntl fd cmd r =>
    rw [UsesInRange, FdCall.uses, allInRange_ite_nil, dupUses_inRange_iff, FdCall.Fits]
  | socket domain type protocol s =>
    rw [UsesInRange, FdCall.uses, allInRange_ite_nil, setAndEntry_inRange_iff]
    exact forall_congr' fun hs => and_iff_right hs
  | bind s r id idLog =>
    rw [UsesInRange, FdCall.uses, guarded_iff, allInRange_ite_nil]
    exact iff_of_true (fun hs _ => allInRange_cons.2 ⟨hs, allInRange_nil⟩) trivial
  | accept s newFd peer =>
    rw [UsesInRange, FdCall.uses, guarded_iff, allInRange_cons, allInRange_ite_nil,
      setAndEntry_inRange_iff]
    exact forall_congr' fun hs => and_iff_right (show (IndexUse.fdSet s).InRange from hs)
  | connect s r inProgress peer =>
    rw [UsesInRange, FdCall.uses, guarded_iff, allInRange_ite_nil]
    exact iff_of_true (fun hs _ => allInRange_cons.2 ⟨hs, allInRange_nil⟩) trivial
  | open' pathname flags r =>
    rw [UsesInRange, FdCall.uses, allInRange_ite_nil, setAndEntry_inRange_iff, FdCall.Fits]
  | creat pathname mode r =>
    rw [UsesInRange, FdCall.uses, allInRange_ite_nil, setAndEntry_inRange_iff, FdCall.Fits]
  | close s ret =>
    rw [UsesInRange, FdCall.uses, allInRange_ite, guarded_iff]
    refine iff_of_true ?_ trivial
    split
    · exact allInRange_nil
    · intro hs
      simp only [allInRange_cons, allInRange_nil, and_true, IndexUse.InRange]
      exact ⟨hs, hs, hs, hs, hs⟩
  | read s len k =>
    rw [UsesInRange, FdCall.uses, guarded_iff]
    exact iff_of_true (fun hs => allInRange_cons.2 ⟨hs, readUses_inRange hs⟩) trivial
  | write s buf r =>
    rw [UsesInRange, FdCall.uses, guarded_iff]
    refine iff_of_true (fun hs => ?_) trivial
    exact allInRange_cons.2 ⟨hs, allInRange_cons.2 ⟨hs, allInRange_nil⟩⟩
  | poll ufds timeout env => exact pollUses_inRange_iff

/-! ## The checks of the model -/

theorem dupWhen_ok_iff {oldfd r : ℤ} : (∃ p', dupWhen p oldfd r = .ok p') ↔
    (0 ≤ r → r < maxFds ∧ 0 ≤ oldfd ∧ oldfd < maxFds) := by
  refine exists_check_ok_iff.trans ?_
  omega

/-- A call that receives or sends. -/
def FdCall.Transfers : FdCall σ → Prop
  | .read _ _ _ | .write _ _ _ => True
  | _ => False

/-- **The checks of the model** are those of the indices: a call that does not transfer bytes goes
through if and only if it stays in range. -/
theorem step_ok_iff {a : FdCall σ} (h : ¬ a.Transfers) :
    (∃ p', a.step p = .ok p') ↔ UsesInRange p a := by
  rw [usesInRange_iff]
  cases a with
  | pipe r fd₀ fd₁ =>
    refine exists_bind_ok_iff.trans (exists_check_ok_iff.trans ?_)
    exact forall_congr' fun _ => by omega
  | dup oldfd newfd =>
    refine exists_bind_ok_iff.trans ?_
    rw [Trace.dup, FdCall.Fits]
    split
    · next hold => exact iff_of_true ⟨_, rfl⟩ fun h => by omega
    · next hold =>
      refine exists_bind_ok_iff.trans (dupWhen_ok_iff.trans ?_)
      omega
  | dup2 oldfd newfd r =>
    refine exists_bind_ok_iff.trans ?_
    rw [Trace.dup2, FdCall.Fits]
    split
    · next hout => exact iff_of_true ⟨_, rfl⟩ fun _ _ => by omega
    · next hout =>
      refine exists_bind_ok_iff.trans (dupWhen_ok_iff.trans ?_)
      omega
  | fcntl fd cmd r =>
    refine exists_bind_ok_iff.trans ?_
    rw [Trace.fcntl, FdCall.Fits]
    split
    · next hcmd =>
      rw [imp_iff_right hcmd]
      exact exists_bind_ok_iff.trans dupWhen_ok_iff
    · next hcmd => exact iff_of_true ⟨_, rfl⟩ fun h => absurd h hcmd
  | socket domain type protocol s => exact exists_bind_ok_iff.trans exists_check_ok_iff
  | bind s r id idLog => exact iff_of_true ⟨_, rfl⟩ trivial
  | accept s newFd peer =>
    refine exists_bind_ok_iff.trans ?_
    rw [Trace.accept, FdCall.Fits]
    split
    · next hs => exact iff_of_true ⟨_, rfl⟩ fun h => by omega
    · next hs => exact exists_check_ok_iff.trans (imp_iff_right (by omega)).symm
  | connect s r inProgress peer => exact iff_of_true ⟨_, rfl⟩ trivial
  | open' pathname flags r => exact exists_bind_ok_iff.trans exists_check_ok_iff
  | creat pathname mode r => exact exists_bind_ok_iff.trans exists_check_ok_iff
  | close s ret => exact iff_of_true ⟨_, rfl⟩ trivial
  | read s len k => exact absurd trivial h
  | write s buf r => exact absurd trivial h
  | poll ufds timeout env =>
    refine exists_bind_ok_iff.trans ?_
    rw [poll_ok_iff, pollUses_inRange_iff]
    rfl

/-! ## Runs -/

/-- **Descriptors as indices.** In a run of wrapped calls from any process every index is in range,
if and only if every call meets the condition. -/
theorem indices_in_range_iff (p : Process σ) (as : List (FdCall σ)) :
    Tried FdCall.step p as UsesInRange ↔ Tried FdCall.step p as fun p a => a.Fits p :=
  tried_iff (I := fun _ => True) trivial (fun p a _ => usesInRange_iff p a)
    fun _ _ _ _ _ _ => trivial

/-- An entry with the descriptor -1 stands for none. It asks for input nevertheless, and -1 is put
into a set. -/
theorem poll_none_out_of_range : ¬ Tried FdCall.step untouched
    [.poll [⟨-1, pollin, 0⟩] 0 (readyEnv 8)] UsesInRange := by
  intro h
  have huses := h [] _ (List.prefix_refl _) _ rfl
  have hmem : IndexUse.fdSet (-1) ∈ pollUses untouched [⟨-1, pollin, 0⟩] 0 (readyEnv 8) :=
    List.mem_append_left _ (by decide)
  exact absurd (huses _ hmem).1 (by decide)

end BorderPatrol.Trace
