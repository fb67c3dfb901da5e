import BorderPatrol.Foundations.Runs
import BorderPatrol.Trace.Protocol.Psql
import BorderPatrol.Trace.Readiness
import BorderPatrol.Trace.Sending
import BorderPatrol.Trace.Sockets

/-!
# The data of a processor

An entry of `vfd_tab` has a processor and a pointer to its data, which the wrappers set, copy and
clear, not always together. `Life` is a process with the history of these pointers beside it: which
call of `pp_init` made what the pointer of an entry points to, and what was passed to `pp_shutdown`.
Every call of a processor is on data that its own `pp_init` made for the descriptor and that was not
shut down, exactly when the processor is the last whose `pp_init` made data there since the
descriptor was opened (`lifecycle_iff`). A processor that `bind` puts into an entry is not.

`makes` says of a processor that its `pp_init` makes data: those of `pp_httpc` and `pp_perlpc` do
nothing, and leave the pointer as it is.
-/

namespace BorderPatrol.Trace

open Foundations

variable {σ : Type}

/-- A call of `pp_init` that made data: its number, the processor, the descriptor and which use of
it. -/
structure Made (σ : Type) where
  id : ℕ
  disp : PpDispatcher σ
  fd : ℤ
  use : ℕ

/-- A process, and what happened to the data of its processors. For each entry, `made` is the
`pp_init` call whose data `pp_data` points to, `use` counts the uses of the descriptor and `last` is
the processor that last made data in this use; `inits` counts the calls of `pp_init` that made data,
and `shut` are those whose data was passed to `pp_shutdown`. -/
structure Life (σ : Type) where
  proc : Process σ
  made : ℤ → Option (Made σ)
  use : ℤ → ℕ
  last : ℤ → Option (PpDispatcher σ)
  inits : ℕ
  shut : List ℕ

/-- A call of the application, with what the kernel answers. -/
inductive LifeCall (σ : Type)
  | socket (domain type protocol s : ℤ)
  | bind (s r : ℤ) (id : Option (PpDispatcher σ)) (idLog : List LogCall)
  | listen (s r : ℤ)
  | accept (s newFd : ℤ) (peer : Peer σ)
  | connect (s r : ℤ) (inProgress : Bool) (peer : Peer σ)
  | dup (oldfd newfd : ℤ)
  | dup2 (oldfd newfd r : ℤ)
  | close (s ret : ℤ)
  | read (s : ℤ) (len : ℕ) (k : Kernel)
  | write (s : ℤ) (buf : List Byte) (r : ℤ)

/-- `s` has an entry of `vfd_tab`. -/
def InTable (s : ℤ) : Prop := 0 ≤ s ∧ s < maxFds

instance (s : ℤ) : Decidable (InTable s) := inferInstanceAs (Decidable (_ ∧ _))

/-- The check that the wrappers make. -/
theorem inTable_iff {s : ℤ} : InTable s ↔ ¬ (s < 0 ∨ maxFds ≤ s) := by
  rw [InTable, not_or, not_lt, not_le]

/-! ## When a processor is called -/

/-- `virtual_read` comes to call `pp_read`: on the bytes that wait, or on them and new ones. -/
def Vfd.Presents (v : Vfd σ) (k : Kernel) : Prop :=
  v.tosend = 0 ∧ (v.rbufofs < v.rbuflen ∧ v.ppwantmore = 0 ∨
    ∃ v' r ev, fetch v 0 k = .ok (v', r, ev) ∧ 0 < r ∧ v'.rbuflen - v'.rbufofs ≠ 0)

/-- `vwrite_req` comes to call `pp_write`. -/
def Vfd.Shows (v : Vfd σ) (buf : List Byte) (len : ℤ) : Prop :=
  0 < len ∧ (len ≤ buf.length ∧ 0 ≤ v.wbuflen ∧ v.wbuflen + len ≤ vbufsize) ∧
    v.wbuflen + len - v.wbufofs ≠ 0

/-- A call of the application comes to call `pp_read`, `pp_write` or `pp_shutdown` of the processor
`P` through `vfd_tab[s]`. -/
def Process.Calls (p : Process σ) (s : ℤ) (P : PpDispatcher σ) : LifeCall σ → Prop
  | .read t _ k =>
    t = s ∧ InTable s ∧ (p.vfdTab s).ppDispatcher = some P ∧ (p.vfdTab s).Presents k
  | .write t buf r =>
    t = s ∧ InTable s ∧ (p.vfdTab s).ppDispatcher = some P ∧ (p.vfdTab s).Shows buf (toInt r)
  | .close t _ => t = s ∧ s ≠ logdFd ∧ InTable s ∧ (p.vfdTab s).ppDispatcher = some P
  | _ => False

/-- `pp_read` is called in a trace. -/
def ReadCalled (tr : List Event) : Prop := ∃ n a, Event.ppRead n a ∈ tr

/-- `pp_write` is called in a trace. -/
def WriteCalled (tr : List Event) : Prop := ∃ n a, Event.ppWrite n a ∈ tr

theorem readCalled_append {t₁ t₂ : List Event} :
    ReadCalled (t₁ ++ t₂) ↔ ReadCalled t₁ ∨ ReadCalled t₂ := by
  simp only [ReadCalled, List.mem_append, exists_or]

theorem not_readCalled_nil : ¬ ReadCalled [] := by
  rintro ⟨n, a, h⟩
  cases h

theorem presentPp_calls (v : Vfd σ) (s : ℤ) :
    Post (presentPp v s) (fun q => ReadCalled q.2 ↔ v.rbuflen - v.rbufofs ≠ 0) AnyFault := by
  unfold presentPp
  dsimp only
  split
  · next h => exact iff_of_false not_readCalled_nil (not_not_intro h)
  · next h =>
    split
    · trivial
    · refine (anyFault_post _).bind ?_
      rintro ⟨a, d, l⟩ -
      refine iff_of_true ⟨v.rbuflen - v.rbufofs, a, ?_⟩ h
      unfold ppAnswered
      split <;> simp

/-- What a receive of the kernel is recorded as. -/
theorem fetch_event (v : Vfd σ) (flags : ℤ) (k : Kernel) :
    Post (fetch v flags k) (fun q => ¬ ReadCalled [q.2.2]) AnyFault := by
  unfold fetch
  refine (anyFault_post _).bind fun _ _ => ?_
  refine (anyFault_post _).bind fun _ _ => ?_
  dsimp only
  split <;> simp [ReadCalled]

/-- A piece returned behind a trace. -/
theorem bufRet_readCalled (v : Vfd σ) (n : ℕ) (tr : List Event) :
    Post (bufRet v n >>= fun g => pure { g with trace := tr ++ g.trace })
      (fun g => ReadCalled g.trace ↔ ReadCalled tr) AnyFault := by
  refine (bufRet_trace v n).bind fun g hg => ?_
  simp only [Post.pure_iff, hg, List.append_nil]

theorem refill_calls (checked : Bool) (v : Vfd σ) (s : ℤ) (len : ℕ) (k : Kernel) :
    Post (refill checked v s len 0 k) (fun g => ReadCalled g.trace ↔
      ∃ v' r ev, fetch v 0 k = .ok (v', r, ev) ∧ 0 < r ∧ v'.rbuflen - v'.rbufofs ≠ 0)
      AnyFault := by
  unfold refill
  refine (anyFault_post _).bind fun _ _ => ?_
  have hev := fetch_event v 0 k
  rcases hf : fetch v 0 k with e | ⟨v₁, r, ev⟩
  · trivial
  rw [hf, Post.ok_iff] at hev
  rw [ok_bind]
  dsimp only at hev ⊢
  split
  · next hr =>
    refine iff_of_false hev ?_
    rintro ⟨v', r', ev', heq, hpos, -⟩
    cases heq
    omega
  · next hr =>
    refine (presentPp_calls v₁ s).bind fun q hq => ?_
    refine (anyFault_post _).bind fun _ _ => ?_
    refine (bufRet_readCalled q.1 len (ev :: q.2)).mono fun g hg => ?_
    rw [hg, ← List.singleton_append, readCalled_append, hq]
    constructor
    · exact fun h => ⟨v₁, r, ev, rfl, by omega, h.resolve_left hev⟩
    · rintro ⟨v', r', ev', heq, -, hne⟩
      cases heq
      exact Or.inr hne

theorem virtualGet_calls (checked : Bool) (v : Vfd σ) (s : ℤ) (len : ℕ) (k : Kernel) :
    Post (virtualGet checked v s len 0 k) (fun g => ReadCalled g.trace ↔ v.Presents k)
      AnyFault := by
  unfold virtualGet Vfd.Presents
  split
  · next ht =>
    refine (bufRet_trace v len).mono fun g hg => ?_
    rw [hg]
    exact iff_of_false not_readCalled_nil fun h => ht h.1
  · next ht =>
    rw [and_iff_right (not_not.1 ht)]
    split
    · next hw =>
      have hne : v.rbuflen - v.rbufofs ≠ 0 := by omega
      refine (presentPp_calls v s).bind ?_
      rintro ⟨v₁, tr⟩ hq
      have hcalled : ReadCalled tr := hq.2 hne
      dsimp only
      split
      · refine (bufRet_readCalled v₁ len tr).mono fun g hg => ?_
        exact iff_of_true (hg.2 hcalled) (Or.inl hw)
      · refine (anyFault_post _).bind fun g _ => ?_
        exact iff_of_true (readCalled_append.2 (Or.inl hcalled)) (Or.inl hw)
    · next hw =>
      rw [or_iff_right hw]
      exact refill_calls checked v s len k

/-- **When `read` calls `pp_read`.** -/
theorem read_calls_iff {p : Process σ} {s : ℤ} {len : ℕ} {k : Kernel} {r : Reply σ}
    (h : read p s len k = .ok r) :
    ReadCalled r.trace ↔ ∃ P, p.Calls s P (.read s len k) := by
  suffices hpost : Post (read p s len k)
      (fun r => ReadCalled r.trace ↔ ∃ P, p.Calls s P (.read s len k)) AnyFault from
    hpost.of_eq_ok h
  unfold read wrapReceive
  split
  · next hs =>
    refine iff_of_false (by simp [ReadCalled, realReceive]) ?_
    rintro ⟨P, -, hin, -⟩
    exact inTable_iff.1 hin hs
  · next hs =>
    have hin : InTable s := inTable_iff.2 hs
    split
    · next hd =>
      obtain ⟨P, hP⟩ := Option.isSome_iff_exists.1 hd
      refine (virtualGet_calls true (p.vfdTab s) s len k).bind fun g hg => ?_
      refine (anyFault_post _).bind fun _ _ => ?_
      simp only [Post.pure_iff, readCalled_append, hg]
      constructor
      · rintro ((⟨n, a, hmem⟩ | hpres) | ⟨n, a, hmem⟩)
        · simp at hmem
        · exact ⟨P, rfl, hin, hP, hpres⟩
        · simp at hmem
      · rintro ⟨P', -, -, -, hpres⟩
        exact Or.inl (Or.inr hpres)
    · next hd =>
      refine iff_of_false (by simp [ReadCalled, realReceive]) ?_
      rintro ⟨P, -, -, hP, -⟩
      exact hd (Option.isSome_iff_exists.2 ⟨P, hP⟩)

theorem vwriteLoop_calls (n : ℕ) {v : Vfd σ} {P : PpDispatcher σ} (hP : v.ppDispatcher = some P)
    (s : ℤ) :
    Post (vwriteLoop (n + 1) v s) (fun q => WriteCalled q.2 ↔ v.wbuflen - v.wbufofs ≠ 0)
      AnyFault := by
  rw [vwriteLoop]
  dsimp only
  rw [hP]
  split
  · next h => exact iff_of_false (by simp [WriteCalled]) (not_not_intro h)
  · next h =>
    refine (anyFault_post _).bind ?_
    rintro ⟨req, d, l⟩ -
    dsimp only
    split
    · refine (anyFault_post _).bind fun q _ => ?_
      exact iff_of_true ⟨v.wbuflen - v.wbufofs, req, by simp⟩ h
    · exact iff_of_true ⟨v.wbuflen - v.wbufofs, req, by simp⟩ h

theorem vwriteReq_calls (v : Vfd σ) (s : ℤ) (buf : List Byte) (len : ℤ) :
    Post (vwriteReq v s buf len)
      (fun q => WriteCalled q.2 ↔ v.ppDispatcher.isSome ∧ v.Shows buf len) AnyFault := by
  unfold vwriteReq
  split
  · next h =>
    refine iff_of_false (by simp [WriteCalled]) ?_
    rintro ⟨hd, hpos, -⟩
    rcases h with h | h
    · rw [Option.isNone_iff_eq_none] at h
      rw [h] at hd
      cases hd
    · omega
  · next h =>
    rw [not_or, not_le] at h
    obtain ⟨hd, hpos⟩ := h
    obtain ⟨P, hP⟩ := Option.ne_none_iff_exists'.1 (mt Option.isNone_iff_eq_none.2 hd)
    by_cases hin : len ≤ buf.length ∧ 0 ≤ v.wbuflen ∧ v.wbuflen + len ≤ vbufsize
    · rw [inBounds_of hin, ok_bind]
      dsimp only
      have hsome : v.ppDispatcher.isSome = true := Option.isSome_iff_exists.2 ⟨P, hP⟩
      refine Post.bind (vwriteLoop_calls _ (P := P) (by exact hP) s) ?_
      rintro ⟨v₁, tr⟩ hq
      refine (anyFault_post _).bind fun _ _ => hq.trans ?_
      rw [Vfd.Shows, and_iff_right hsome, and_iff_right hpos, and_iff_right hin]
    · rw [inBounds, if_neg hin]
      trivial

/-- **When `write` calls `pp_write`.** -/
theorem write_calls_iff {p : Process σ} {s r : ℤ} {buf : List Byte} {q : Reply σ}
    (h : write p s buf r = .ok q) :
    WriteCalled q.trace ↔ ∃ P, p.Calls s P (.write s buf r) := by
  suffices hpost : Post (write p s buf r)
      (fun q => WriteCalled q.trace ↔ ∃ P, p.Calls s P (.write s buf r)) AnyFault from
    hpost.of_eq_ok h
  unfold write wrapSend
  split
  · next hs =>
    refine iff_of_false (by simp [WriteCalled]) ?_
    rintro ⟨P, -, hin, -⟩
    exact inTable_iff.1 hin hs
  · next hs =>
    have hin : InTable s := inTable_iff.2 hs
    refine (vwriteReq_calls (p.vfdTab s) s buf (toInt r)).bind fun g hg => ?_
    have htrace : WriteCalled ([.log (logbinIi .writeBegin 0 s buf.length)] ++ g.2 ++
        [.log (logbinIi .write r s buf.length)]) ↔ WriteCalled g.2 := by
      simp [WriteCalled]
    refine htrace.trans (hg.trans ?_)
    constructor
    · rintro ⟨hd, hshows⟩
      obtain ⟨P, hP⟩ := Option.isSome_iff_exists.1 hd
      exact ⟨P, rfl, hin, hP, hshows⟩
    · rintro ⟨P, -, -, hP, hshows⟩
      exact ⟨Option.isSome_iff_exists.2 ⟨P, hP⟩, hshows⟩

/-! ## The history -/

namespace Life

/-- Nothing was initialised yet. -/
def start (p : Process σ) : Life σ := ⟨p, fun _ => none, fun _ => 0, fun _ => none, 0, []⟩

/-- Another use of the descriptor `r` begins. `pp_data` is left as it is. -/
def renew (st : Life σ) (r : ℤ) : Life σ :=
  { st with
    use := Function.update st.use r (st.use r + 1)
    last := Function.update st.last r none }

/-- The kernel gave the descriptor `r`. -/
def given (st : Life σ) (r : ℤ) : Life σ := if 0 ≤ r then st.renew r else st

/-- `pp_init` of `P` makes data for the entry `s`. -/
def init (st : Life σ) (s : ℤ) (P : PpDispatcher σ) : Life σ :=
  { st with
    made := Function.update st.made s (some ⟨st.inits, P, s, st.use s⟩)
    last := Function.update st.last s (some P)
    inits := st.inits + 1 }

/-- `pp_data` of the entry `r` is that of `oldfd`. -/
def copy (st : Life σ) (oldfd r : ℤ) : Life σ :=
  { st with made := Function.update st.made r (st.made oldfd) }

/-- What a duplication does, where the kernel gives `r` and the entry is copied if `tracked`. -/
def duplicated (st : Life σ) (tracked : Bool) (oldfd r : ℤ) : Life σ :=
  if 0 ≤ r then (if tracked then st.copy oldfd r else st).renew r else st

variable (makes : PpDispatcher σ → Bool)

/-- `pp_init` of the processor that `pp_id_bind` or `pp_id_connect` gives, if it gives one. -/
def initWhen (st : Life σ) (s : ℤ) : Option (PpDispatcher σ) → Life σ
  | some P => if makes P then st.init s P else st
  | none => st

/-- `pp_data` of the entry `s` is passed to `pp_shutdown` of `P`, which frees what it made and sets
the pointer to null. -/
def shutDown (st : Life σ) (s : ℤ) (P : PpDispatcher σ) : Life σ :=
  match st.made s with
  | some m => { st with
      made := if makes P then Function.update st.made s none else st.made
      shut := m.id :: st.shut }
  | none => st

/-- What `close` does with the data of the entry `s`. -/
def closed (st : Life σ) (s : ℤ) : Life σ :=
  match (st.proc.vfdTab s).ppDispatcher with
  | some P => st.shutDown makes s P
  | none => st

/-- What becomes of the data in a call. -/
def history (st : Life σ) : LifeCall σ → Life σ
  | .socket _ _ _ s => st.given s
  | .accept s newFd peer =>
    if InTable s ∧ newFd ≠ -1 then (st.given newFd).initWhen makes newFd peer.id
    else st.given newFd
  | .connect s r _ peer => if InTable s ∧ r ≠ -1 then st.initWhen makes s peer.id else st
  | .dup oldfd newfd => st.duplicated (InTable oldfd) oldfd newfd
  | .dup2 oldfd newfd r => st.duplicated (InTable oldfd ∧ InTable newfd) oldfd r
  | .close s _ =>
    if s = logdFd then st else (if InTable s then st.closed makes s else st).renew s
  | .bind _ _ _ _ | .listen _ _ | .read _ _ _ | .write _ _ _ => st

/-- The process after a call. -/
def callProc (p : Process σ) : LifeCall σ → Except Fault (Process σ)
  | .socket domain type protocol s => socket p domain type protocol s >>= fun q => .ok q.1
  | .bind s r id idLog => .ok (bind p s r id idLog).1
  | .listen s r => .ok (listen p s r).1
  | .accept s newFd peer => accept p s newFd peer >>= fun q => .ok q.1
  | .connect s r inProgress peer => .ok (connect p s r inProgress peer).1
  | .dup oldfd newfd => dup p oldfd newfd >>= fun q => .ok q.1
  | .dup2 oldfd newfd r => dup2 p oldfd newfd r >>= fun q => .ok q.1
  | .close s ret => .ok (close p s ret).1
  | .read s len k => read p s len k >>= fun r => .ok r.proc
  | .write s buf r => write p s buf r >>= fun r => .ok r.proc

/-- A call. -/
def step (st : Life σ) (c : LifeCall σ) : Except Fault (Life σ) := do
  let p ← callProc st.proc c
  return { st.history makes c with proc := p }

/-- `pp_data` of the entry `s` is data that `pp_init` of `P` made for this use of the descriptor,
and that was not shut down. -/
def Serves (st : Life σ) (s : ℤ) (P : PpDispatcher σ) : Prop :=
  ∃ m, st.made s = some m ∧ m.disp = P ∧ m.fd = s ∧ m.use = st.use s ∧ m.id ∉ st.shut

/-- A call that calls a processor does so on the data of the processor. -/
def Sound (st : Life σ) (c : LifeCall σ) : Prop := ∀ s P, st.proc.Calls s P c → st.Serves s P

/-- The processor that a call calls is the last that made data in this use of the descriptor. -/
def Initialised (st : Life σ) (c : LifeCall σ) : Prop :=
  ∀ s P, st.proc.Calls s P c → st.last s = some P

/-! ## The history follows the entries -/

/-- How a call goes on with `pp_data` of the entry `r`: it is that of an entry before the call, or
`pp_init` or `pp_shutdown` was called on it. -/
inductive Follows (makes : PpDispatcher σ → Bool) (st st' : Life σ) (r : ℤ) : Prop
  | copied (s : ℤ) (made : st'.made r = st.made s)
    (data : (st'.proc.vfdTab r).ppData = (st.proc.vfdTab s).ppData)
  | init (P : PpDispatcher σ)
    (made : st'.made r = if makes P then some ⟨st.inits, P, r, st'.use r⟩ else st.made r)
    (data : (st'.proc.vfdTab r).ppData = (P.ppInit r (st.proc.vfdTab r).ppData).1)
  | shutDown (P : PpDispatcher σ) (made : st'.made r = if makes P then none else st.made r)
    (data : (st'.proc.vfdTab r).ppData = (P.ppShutdown (st.proc.vfdTab r).ppData).1)

end Life

/-- A call that is about descriptors and not about what goes through them. -/
def LifeCall.manages : LifeCall σ → Bool
  | .read _ _ _ | .write _ _ _ => false
  | _ => true

namespace Life

variable {makes : PpDispatcher σ → Bool} {st : Life σ}

/-- `pp_data` of all entries is as it was. -/
theorem follows_kept {st' : Life σ} (hm : st'.made = st.made)
    (hd : ∀ t, (st'.proc.vfdTab t).ppData = (st.proc.vfdTab t).ppData) (r : ℤ) :
    Follows makes st st' r :=
  .copied r (congrFun hm r) (hd r)

theorem given_made (r : ℤ) : (st.given r).made = st.made := by
  unfold given
  split <;> rfl

theorem given_inits (r : ℤ) : (st.given r).inits = st.inits := by
  unfold given
  split <;> rfl

theorem setVfd_data {p : Process σ} {s : ℤ} {v : Vfd σ} (hv : v.ppData = (p.vfdTab s).ppData)
    (t : ℤ) : ((p.setVfd s v).vfdTab t).ppData = (p.vfdTab t).ppData := by
  by_cases ht : t = s
  · subst ht
    simp [Process.setVfd, hv]
  · simp [Process.setVfd, ht]

/-- A duplication gives its descriptor the pointer of the old one. -/
theorem follows_duplicated {p : Process σ} {tracked : Bool} {oldfd r : ℤ}
    (hp : tracked = true → dupWhen st.proc oldfd r = .ok p) (hn : tracked = false → p = st.proc)
    (t : ℤ) : Follows makes st { st.duplicated tracked oldfd r with proc := p } t := by
  cases tracked with
  | false =>
    obtain rfl := hn rfl
    refine follows_kept ?_ ?_ t
    · simp only [duplicated]
      split <;> rfl
    · exact fun _ => rfl
  | true =>
    have hp := hp rfl
    unfold dupWhen at hp
    split at hp
    · next hr =>
      obtain ⟨u, -, hp⟩ := bind_eq_ok hp
      cases hp
      by_cases ht : t = r
      · subst ht
        refine .copied oldfd ?_ ?_
        · simp [duplicated, hr, copy, renew]
        · simp [Process.setVfd, vfdTabInitOne]
      · refine .copied t ?_ ?_
        · simp [duplicated, hr, copy, renew, ht]
        · simp [Process.setVfd, ht]
    · next hr =>
      cases hp
      refine follows_kept ?_ ?_ t
      · simp [duplicated, hr]
      · exact fun _ => rfl

/-- `pp_init` of the processor that was found, on the entry `s`. -/
theorem follows_initWhen {p : Process σ} {st₁ : Life σ} {s : ℤ} {id : Option (PpDispatcher σ)}
    (hm : st₁.made = st.made) (hi : st₁.inits = st.inits)
    (hother : ∀ t, t ≠ s → (p.vfdTab t).ppData = (st.proc.vfdTab t).ppData)
    (hself : (p.vfdTab s).ppData = match id with
      | none => (st.proc.vfdTab s).ppData
      | some P => (P.ppInit s (st.proc.vfdTab s).ppData).1) (t : ℤ) :
    Follows makes st { st₁.initWhen makes s id with proc := p } t := by
  by_cases ht : t = s
  · subst ht
    cases id with
    | none => exact .copied t (congrFun hm t) hself
    | some P =>
      refine .init P ?_ hself
      simp only [initWhen]
      split
      · simp [Life.init, hi]
      · exact congrFun hm t
  · refine .copied t ?_ (hother t ht)
    rw [← congrFun hm t]
    unfold initWhen
    split
    · split
      · exact Function.update_of_ne ht _ _
      · rfl
    · rfl

/-- `pp_shutdown` of the processor of the entry `s`, if it has one. -/
theorem follows_closed {p : Process σ} (s : ℤ)
    (hp : ∀ t, p.vfdTab t = if t = s then (closeVfd (st.proc.vfdTab s)).1 else st.proc.vfdTab t)
    (t : ℤ) : Follows makes st { (st.closed makes s).renew s with proc := p } t := by
  by_cases ht : t = s
  · subst ht
    have hdata := hp t
    rw [if_pos rfl] at hdata
    rcases hd : (st.proc.vfdTab t).ppDispatcher with _ | P
    · refine .copied t ?_ ?_
      · simp [renew, closed, hd]
      · simp [hdata, closeVfd, hd]
    · refine .shutDown P ?_ ?_
      · simp only [renew, closed, hd, Life.shutDown]
        rcases hm : st.made t with _ | m
        · simp [hm]
        · cases makes P <;> simp [hm]
      · simp [hdata, closeVfd, hd]
  · refine .copied t ?_ ?_
    · simp only [renew, closed]
      split
      · unfold Life.shutDown
        split
        · dsimp only
          split
          · exact Function.update_of_ne ht _ _
          · rfl
        · rfl
      · rfl
    · change (p.vfdTab t).ppData = _
      rw [hp t, if_neg ht]

theorem follows_accept {s newFd : ℤ} {peer : Peer σ} {st' : Life σ}
    (h : step makes st (.accept s newFd peer) = .ok st') (r : ℤ) : Follows makes st st' r := by
  obtain ⟨p, hp, hst'⟩ := bind_eq_ok h
  obtain ⟨q, hq, hp⟩ := bind_eq_ok hp
  cases hst'
  cases hp
  unfold accept at hq
  by_cases hin : InTable s ∧ newFd ≠ -1
  · -- the new entry is initialised for the local address
    rw [if_neg (inTable_iff.1 hin.1)] at hq
    dsimp only at hq
    rw [if_pos hin.2] at hq
    obtain ⟨u, -, hq⟩ := bind_eq_ok hq
    cases hq
    simp only [history, if_pos hin]
    refine follows_initWhen (given_made newFd) (given_inits newFd) (fun t ht => ?_) ?_ r
    · simp [Process.setVfd, Process.clearReadableCache, Process.putVsel, ht]
    · simp only [Process.setVfd, Function.update_self, acceptVfd]
      cases peer.id <;> rfl
  · simp only [history, if_neg hin]
    refine follows_kept ?_ (fun t => ?_) r
    · exact given_made newFd
    split at hq
    · cases hq
      rfl
    · next hs =>
      have hne : ¬ newFd ≠ -1 := fun hne => hin ⟨inTable_iff.2 hs, hne⟩
      dsimp only at hq
      rw [if_neg hne] at hq
      cases hq
      rfl

theorem follows_connect {s ret : ℤ} {inProgress : Bool} {peer : Peer σ} {st' : Life σ}
    (h : step makes st (.connect s ret inProgress peer) = .ok st') (r : ℤ) :
    Follows makes st st' r := by
  obtain ⟨p, hp, hst'⟩ := bind_eq_ok h
  cases hst'
  cases hp
  unfold connect
  by_cases hin : InTable s ∧ ret ≠ -1
  · rw [if_neg (inTable_iff.1 hin.1), if_pos hin.2]
    simp only [history, if_pos hin]
    refine follows_initWhen rfl rfl (fun t ht => ?_) ?_ r
    · simp [Process.setVfd, ht]
    · simp only [Process.setVfd, Function.update_self, connectEvent]
      cases peer.id <;> rfl
  · simp only [history, if_neg hin]
    refine follows_kept ?_ (fun t => ?_) r
    · rfl
    split
    · rfl
    · next hs =>
      rw [if_neg fun hne => hin ⟨inTable_iff.2 hs, hne⟩]
      split
      · refine setVfd_data ?_ t
        rfl
      · rfl

theorem follows_close {s ret : ℤ} {st' : Life σ} (h : step makes st (.close s ret) = .ok st')
    (r : ℤ) : Follows makes st st' r := by
  obtain ⟨p, hp, hst'⟩ := bind_eq_ok h
  cases hst'
  cases hp
  simp only [history]
  unfold close
  split
  · exact follows_kept rfl (fun _ => rfl) r
  · split
    · next hs =>
      rw [if_neg fun hin => inTable_iff.1 hin hs]
      refine follows_kept ?_ ?_ r
      · rfl
      · exact fun _ => rfl
    · next hs =>
      rw [if_pos (inTable_iff.2 hs)]
      refine follows_closed s (fun t => ?_) r
      simp [Process.setVfd, Process.putVsel, Function.update_apply]

theorem follows_dup {oldfd newfd : ℤ} {st' : Life σ}
    (h : step makes st (.dup oldfd newfd) = .ok st') (r : ℤ) : Follows makes st st' r := by
  obtain ⟨p, hp, hst'⟩ := bind_eq_ok h
  obtain ⟨q, hq, hp⟩ := bind_eq_ok hp
  cases hst'
  cases hp
  unfold dup at hq
  split at hq
  · next hs =>
    cases hq
    refine follows_duplicated (fun hin => ?_) (fun _ => rfl) r
    exact absurd hs (inTable_iff.1 (of_decide_eq_true hin))
  · next hs =>
    obtain ⟨u, hu, hq⟩ := bind_eq_ok hq
    cases hq
    refine follows_duplicated (fun _ => hu) (fun hin => ?_) r
    exact absurd (inTable_iff.2 hs) (of_decide_eq_false hin)

theorem follows_dup2 {oldfd newfd ret : ℤ} {st' : Life σ}
    (h : step makes st (.dup2 oldfd newfd ret) = .ok st') (r : ℤ) : Follows makes st st' r := by
  obtain ⟨p, hp, hst'⟩ := bind_eq_ok h
  obtain ⟨q, hq, hp⟩ := bind_eq_ok hp
  cases hst'
  cases hp
  have hboth : (InTable oldfd ∧ InTable newfd) ↔
      ¬ (oldfd < 0 ∨ maxFds ≤ oldfd ∨ newfd < 0 ∨ maxFds ≤ newfd) := by
    rw [inTable_iff, inTable_iff, ← not_or, or_assoc]
  unfold dup2 at hq
  split at hq
  · next hs =>
    cases hq
    refine follows_duplicated (fun hin => ?_) (fun _ => rfl) r
    exact absurd hs (hboth.1 (of_decide_eq_true hin))
  · next hs =>
    obtain ⟨u, hu, hq⟩ := bind_eq_ok hq
    cases hq
    refine follows_duplicated (fun _ => hu) (fun hin => ?_) r
    exact absurd (hboth.2 hs) (of_decide_eq_false hin)

/-- **The history follows the entries** through every call that is about descriptors. -/
theorem follows {c : LifeCall σ} (hc : c.manages = true) {st' : Life σ}
    (h : step makes st c = .ok st') (r : ℤ) : Follows makes st st' r := by
  cases c with
  | read s len k => cases hc
  | write s buf r => cases hc
  | accept s newFd peer => exact follows_accept h r
  | connect s ret inProgress peer => exact follows_connect h r
  | dup oldfd newfd => exact follows_dup h r
  | dup2 oldfd newfd ret => exact follows_dup2 h r
  | close s ret => exact follows_close h r
  | socket domain type protocol s =>
    obtain ⟨p, hp, hst'⟩ := bind_eq_ok h
    obtain ⟨q, hq, hp⟩ := bind_eq_ok hp
    cases hst'
    cases hp
    refine follows_kept ?_ (fun t => ?_) r
    · exact given_made s
    unfold socket at hq
    dsimp only at hq
    split at hq
    · obtain ⟨u, -, hq⟩ := bind_eq_ok hq
      cases hq
      refine setVfd_data ?_ t
      rfl
    · cases hq
      rfl
  | bind s ret id idLog =>
    cases h
    refine follows_kept ?_ (fun t => ?_) r
    · rfl
    unfold bind
    split
    · rfl
    · split
      · refine setVfd_data ?_ t
        rfl
      · rfl
  | listen s ret =>
    cases h
    exact follows_kept rfl (fun _ => rfl) r

/-! ## What the history keeps -/

/-- Each call of `pp_init` made one piece of data, before now. -/
structure Owned (st : Life σ) : Prop where
  id_lt : ∀ {s m}, st.made s = some m → m.id < st.inits
  inj : ∀ {s t m n}, st.made s = some m → st.made t = some n → m.id = n.id → m = n
  use_le : ∀ {s m}, st.made s = some m → m.use ≤ st.use m.fd
  shut_lt : ∀ {n}, n ∈ st.shut → n < st.inits

/-- The entry `s` has the data of `P` exactly when `P` is the last that made data there, and what it
has was not shut down. -/
structure Agrees (st : Life σ) (s : ℤ) : Prop where
  last_iff : ∀ P, st.last s = some P ↔
    ∃ m, st.made s = some m ∧ m.disp = P ∧ m.fd = s ∧ m.use = st.use s
  live : ∀ {m}, st.made s = some m → m.fd = s → m.use = st.use s → m.id ∉ st.shut

/-- The invariant. -/
structure Inv (st : Life σ) : Prop where
  owned : st.Owned
  agrees : ∀ s, st.Agrees s

theorem Agrees.serves_iff {s : ℤ} (h : st.Agrees s) (P : PpDispatcher σ) :
    st.Serves s P ↔ st.last s = some P := by
  rw [h.last_iff]
  constructor
  · rintro ⟨m, hm, hd, hf, hu, -⟩
    exact ⟨m, hm, hd, hf, hu⟩
  · rintro ⟨m, hm, hd, hf, hu⟩
    exact ⟨m, hm, hd, hf, hu, h.live hm hf hu⟩

theorem start_inv (p : Process σ) : (start p).Inv where
  owned := ⟨nofun, nofun, nofun, nofun⟩
  agrees _ := ⟨fun _ => ⟨nofun, fun ⟨_, h, _⟩ => nomatch h⟩, nofun⟩

/-- In a new use of `r` nothing was made yet, whatever `pp_data` is. -/
theorem Owned.renew (h : st.Owned) {r : ℤ} (hothers : ∀ s, s ≠ r → st.Agrees s) :
    (st.renew r).Inv := by
  have huse : ∀ t, st.use t ≤ (st.renew r).use t := by
    intro t
    by_cases ht : t = r
    · subst ht
      simp [Life.renew]
    · simp [Life.renew, ht]
  refine ⟨⟨h.id_lt, h.inj, fun hm => (h.use_le hm).trans (huse _), h.shut_lt⟩, fun s => ?_⟩
  by_cases hs : s = r
  · subst hs
    have hold : ∀ m, st.made s = some m → m.fd = s → m.use ≠ (st.renew s).use s := by
      rintro m hm rfl hu
      have := h.use_le hm
      simp only [Life.renew, Function.update_self] at hu
      omega
    refine ⟨fun P => iff_of_false (by simp [Life.renew]) ?_, ?_⟩
    · rintro ⟨m, hm, -, hf, hu⟩
      exact hold m hm hf hu
    · exact fun hm hf hu => absurd hu (hold _ hm hf)
  · have hu : (st.renew r).use s = st.use s := Function.update_of_ne hs _ _
    have hl : (st.renew r).last s = st.last s := Function.update_of_ne hs _ _
    refine ⟨fun P => ?_, fun hm hf hu' => ?_⟩
    · rw [hl, hu]
      exact (hothers s hs).last_iff P
    · exact (hothers s hs).live hm hf (hu'.trans hu)

theorem Inv.renew (h : st.Inv) (r : ℤ) : (st.renew r).Inv :=
  h.owned.renew fun s _ => h.agrees s

theorem Inv.given (h : st.Inv) (r : ℤ) : (st.given r).Inv := by
  unfold Life.given
  split
  · exact h.renew r
  · exact h

/-- What an update of one entry's pointer leaves of the other entries. -/
theorem Agrees.setMade {s r : ℤ} (h : st.Agrees s) (hs : s ≠ r) (d : Option (Made σ)) :
    Agrees { st with made := Function.update st.made r d } s := by
  have hm : Function.update st.made r d s = st.made s := Function.update_of_ne hs _ _
  refine ⟨fun P => ?_, fun h₁ h₂ h₃ => h.live (hm.symm.trans h₁) h₂ h₃⟩
  simp only [hm]
  exact h.last_iff P

/-- The pointer of another entry, or none. -/
theorem Owned.setMade (h : st.Owned) (r : ℤ) {d : Option (Made σ)}
    (hd : ∀ m, d = some m → ∃ s, st.made s = some m) :
    Owned { st with made := Function.update st.made r d } := by
  have hsource : ∀ t m, Function.update st.made r d t = some m → ∃ s, st.made s = some m := by
    intro t m hm
    by_cases ht : t = r
    · subst ht
      rw [Function.update_self] at hm
      exact hd m hm
    · rw [Function.update_of_ne ht] at hm
      exact ⟨t, hm⟩
  refine ⟨fun hm => ?_, fun hm hn heq => ?_, fun hm => ?_, h.shut_lt⟩
  · obtain ⟨t, ht⟩ := hsource _ _ hm
    exact h.id_lt ht
  · obtain ⟨t₁, ht₁⟩ := hsource _ _ hm
    obtain ⟨t₂, ht₂⟩ := hsource _ _ hn
    exact h.inj ht₁ ht₂ heq
  · obtain ⟨t, ht⟩ := hsource _ _ hm
    exact h.use_le ht

theorem Inv.duplicated (h : st.Inv) (tracked : Bool) (oldfd r : ℤ) :
    (st.duplicated tracked oldfd r).Inv := by
  unfold Life.duplicated
  split
  · split
    · refine (h.owned.setMade r fun m hm => ⟨oldfd, hm⟩).renew fun s hs => ?_
      exact (h.agrees s).setMade hs _
    · exact h.renew r
  · exact h

theorem Inv.init (h : st.Inv) (s : ℤ) (P : PpDispatcher σ) : (st.init s P).Inv := by
  have hself : (st.init s P).made s = some ⟨st.inits, P, s, st.use s⟩ := Function.update_self ..
  have hother : ∀ {t}, t ≠ s → (st.init s P).made t = st.made t := fun ht =>
    Function.update_of_ne ht _ _
  -- what an entry has is new, or was there
  have hcases : ∀ {t m}, (st.init s P).made t = some m →
      m = ⟨st.inits, P, s, st.use s⟩ ∨ st.made t = some m ∧ m.id < st.inits := by
    intro t m hm
    by_cases ht : t = s
    · subst ht
      exact Or.inl (Option.some.inj (hm.symm.trans hself))
    · have hm' := (hother ht).symm.trans hm
      exact Or.inr ⟨hm', h.owned.id_lt hm'⟩
  refine ⟨⟨fun hm => ?_, fun hm hn heq => ?_, fun hm => ?_, fun hn => ?_⟩, fun t => ?_⟩
  · rcases hcases hm with rfl | ⟨-, hlt⟩
    · exact Nat.lt_succ_self _
    · exact Nat.lt_succ_of_lt hlt
  · rcases hcases hm with rfl | ⟨hm', hlt⟩ <;> rcases hcases hn with rfl | ⟨hn', hlt'⟩
    · rfl
    · exact absurd heq (Nat.ne_of_gt hlt')
    · exact absurd heq (Nat.ne_of_lt hlt)
    · exact h.owned.inj hm' hn' heq
  · rcases hcases hm with rfl | ⟨hm', -⟩
    · exact le_refl _
    · exact h.owned.use_le hm'
  · exact Nat.lt_succ_of_lt (h.owned.shut_lt hn)
  · by_cases ht : t = s
    · subst ht
      refine ⟨fun Q => ?_, fun hm _ _ => ?_⟩
      · rw [hself]
        simp [Life.init]
      · obtain rfl := Option.some.inj (hself.symm.trans hm)
        exact fun hn => absurd (h.owned.shut_lt hn) (lt_irrefl _)
    · have hl : (st.init s P).last t = st.last t := Function.update_of_ne ht _ _
      refine ⟨fun Q => ?_, fun hm => (h.agrees t).live ((hother ht).symm.trans hm)⟩
      rw [hl, hother ht]
      exact (h.agrees t).last_iff Q

theorem Inv.initWhen (h : st.Inv) (s : ℤ) (id : Option (PpDispatcher σ)) :
    (st.initWhen makes s id).Inv := by
  cases id with
  | none => exact h
  | some P =>
    simp only [Life.initWhen]
    split
    · exact h.init s P
    · exact h

/-- What `close` shuts down is the data of its own entry, so that no other entry is left with it. -/
theorem Inv.shutDown (h : st.Inv) {s : ℤ} {P : PpDispatcher σ} (hs : st.Serves s P) :
    (st.shutDown makes s P).Owned ∧ ∀ t, t ≠ s → (st.shutDown makes s P).Agrees t := by
  obtain ⟨m, hm, -, hf, -⟩ := hs
  have hshut : ∀ {n}, n ∈ m.id :: st.shut → n < st.inits := by
    intro n hn
    rcases List.mem_cons.1 hn with rfl | hn
    · exact h.owned.id_lt hm
    · exact h.owned.shut_lt hn
  have howned : Owned { st with shut := m.id :: st.shut } :=
    ⟨h.owned.id_lt, h.owned.inj, h.owned.use_le, hshut⟩
  have hagrees : ∀ t, t ≠ s → Agrees { st with shut := m.id :: st.shut } t := by
    intro t ht
    refine ⟨(h.agrees t).last_iff, fun {n} hn hnf hnu hmem => ?_⟩
    rcases List.mem_cons.1 hmem with heq | hmem
    · have hnm : n = m := h.owned.inj hn hm heq
      exact ht (hnf.symm.trans (hnm ▸ hf))
    · exact (h.agrees t).live hn hnf hnu hmem
  rw [Life.shutDown, hm]
  dsimp only
  split
  · exact ⟨howned.setMade s nofun, fun t ht => (hagrees t ht).setMade ht none⟩
  · exact ⟨howned, hagrees⟩

theorem Inv.closed (h : st.Inv) (makes : PpDispatcher σ → Bool) {s : ℤ}
    (hs : ∀ P, (st.proc.vfdTab s).ppDispatcher = some P → st.Serves s P) :
    (st.closed makes s).Owned ∧ ∀ t, t ≠ s → (st.closed makes s).Agrees t := by
  unfold Life.closed
  split
  · next P hP => exact h.shutDown (hs P hP)
  · exact ⟨h.owned, fun t _ => h.agrees t⟩

theorem Inv.history (h : st.Inv) {c : LifeCall σ} (hc : st.Sound c) :
    (st.history makes c).Inv := by
  cases c with
  | socket domain type protocol s => exact h.given s
  | bind s r id idLog => exact h
  | listen s r => exact h
  | accept s newFd peer =>
    simp only [Life.history]
    split
    · exact (h.given newFd).initWhen newFd peer.id
    · exact h.given newFd
  | connect s r inProgress peer =>
    simp only [Life.history]
    split
    · exact h.initWhen s peer.id
    · exact h
  | dup oldfd newfd => exact h.duplicated _ oldfd newfd
  | dup2 oldfd newfd r => exact h.duplicated _ oldfd r
  | close s ret =>
    simp only [Life.history]
    split
    · exact h
    · next hlog =>
      split
      · next hin =>
        obtain ⟨howned, hagrees⟩ := h.closed makes fun P hP =>
          hc s P ⟨rfl, hlog, hin, hP⟩
        exact howned.renew hagrees
      · exact h.renew s
  | read s len k => exact h
  | write s buf r => exact h

/-- The process does not matter to the history. -/
theorem Inv.setProc (h : st.Inv) (p : Process σ) : Inv { st with proc := p } :=
  ⟨⟨h.owned.id_lt, h.owned.inj, h.owned.use_le, h.owned.shut_lt⟩,
    fun s => ⟨(h.agrees s).last_iff, (h.agrees s).live⟩⟩

/-- **One call** keeps the invariant. -/
theorem Inv.step (h : st.Inv) {c : LifeCall σ} (hc : st.Sound c) {st' : Life σ}
    (hstep : step makes st c = .ok st') : st'.Inv := by
  obtain ⟨p, -, hp⟩ := bind_eq_ok hstep
  cases hp
  exact (h.history hc).setProc p

end Life

/-- **The lifecycle of the data.** In any run of the wrappers, every call of a processor is on data
that its own `pp_init` made for this use of the descriptor and that was not shut down, if and only
if every call of a processor is of the one that last made data in this use. -/
theorem lifecycle_iff (makes : PpDispatcher σ → Bool) (p : Process σ) (cs : List (LifeCall σ)) :
    Tried (Life.step makes) (Life.start p) cs Life.Sound ↔
      Tried (Life.step makes) (Life.start p) cs Life.Initialised := by
  refine tried_iff (Life.start_inv p) (fun st c h => ?_) fun st c st' h hc hstep => h.step hc hstep
  constructor
  · exact fun hc s P hcall => ((h.agrees s).serves_iff P).1 (hc s P hcall)
  · exact fun hc s P hcall => ((h.agrees s).serves_iff P).2 (hc s P hcall)

/-! ## Data that is freed twice -/

/-- A connection is duplicated, both descriptors are closed, and the number of the duplicate is used
again, for a socket that is bound to the port of a processor and closed. -/
def bindReused : List (LifeCall PpPsqlState) :=
  [.accept 3 5 ⟨[], some ppPsqls, []⟩, .dup 5 6, .close 6 0, .close 5 0, .socket 2 1 0 6,
    .bind 6 0 (some ppPsqls) [], .close 6 0]

/-- A process that did nothing yet. -/
def idle : Process PpPsqlState :=
  ⟨fun _ => Vfd.zero ⟨⟨0, 0, 0, 0, 0⟩, ⟨0, 0, 0, 0, 0⟩⟩, FdSets.zero⟩

/-- The entry of the last `close` still has the data that was freed with the connection. -/
theorem bindReused_dangling : ∃ st : Life PpPsqlState,
    runSteps (Life.step fun _ => true) (Life.start idle) bindReused.dropLast = .ok st ∧
      (st.proc.vfdTab 6).ppDispatcher = some ppPsqls ∧
      st.made 6 = some ⟨0, ppPsqls, 5, 1⟩ ∧ st.shut = [0] :=
  ⟨_, rfl, rfl, rfl, rfl⟩

/-- The last `close` passes data to `pp_shutdown` that was passed to it before. -/
theorem data_freed_twice :
    ¬ Tried (Life.step fun _ => true) (Life.start idle) bindReused Life.Sound := by
  intro h
  obtain ⟨st, hrun, hd, hm, hshut⟩ := bindReused_dangling
  have hcall : st.proc.Calls 6 ppPsqls (.close 6 0) := ⟨rfl, by decide, by decide, hd⟩
  have hlast : bindReused.dropLast ++ [.close 6 0] <+: bindReused := List.prefix_refl _
  obtain ⟨m, hm', -, -, -, hlive⟩ := h _ _ hlast st hrun 6 ppPsqls hcall
  obtain rfl := Option.some.inj (hm.symm.trans hm')
  rw [hshut] at hlive
  exact hlive (List.mem_singleton_self 0)

end BorderPatrol.Trace
