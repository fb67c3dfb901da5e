import BorderPatrol.Foundations.Runs
import BorderPatrol.Trace.FcgiFraming
import BorderPatrol.Trace.Protocol.Others

/-!
# The contract of a processor

Both virtual buffers rely on what a processor returns: -1, or at least one and at most the number of
bytes it is called on; and after -1, when it next takes something, more than it had then
(`Conforms`).
The parsers of `psqlc` and `psqls`, `mysqlc` and `mysqls` and of `xc` keep this contract in every
state. `speak_fcgi` keeps it in every state it can reach, except that at the end of a body it copies
what it logs into a buffer of 1024 bytes, whose size it does not look at (`conforms_iff`).
-/

namespace BorderPatrol.Trace

open Foundations Foundations.Resumable

variable {σ τ : Type}

/-- What a processor is called on: a memory of whose bytes the first `len` are valid, and there is
one at least. -/
structure PpBuffer where
  mem : List Byte
  len : ℕ
  pos : 0 < len
  le : len ≤ mem.length
  isInt : len < 2 ^ 31

/-- The valid bytes. -/
def PpBuffer.bytes (b : PpBuffer) : List Byte := b.mem.take b.len

@[simp] theorem PpBuffer.length_bytes (b : PpBuffer) : b.bytes.length = b.len := by
  rw [bytes, List.length_take, Nat.min_eq_left b.le]

/-- A `pp_read` or `pp_write`, on a descriptor. -/
abbrev PpFn (σ : Type) := σ → List Byte → ℤ → Except Fault (ℤ × σ × List LogCall)

/-- Called on buffers that begin with the bytes `b`, from the data given, the function returns
negative numbers up to a call in which it returns `r`. -/
inductive Next (f : PpFn σ) (b : List Byte) : σ → ℤ → Prop
  | now {d d' : σ} {r : ℤ} {l : List LogCall} (c : PpBuffer) : b <+: c.bytes →
      f d c.mem c.len = .ok (r, d', l) → 0 ≤ r → Next f b d r
  | later {d d' : σ} {a r : ℤ} {l : List LogCall} (c : PpBuffer) : b <+: c.bytes →
      f d c.mem c.len = .ok (a, d', l) → a < 0 → Next f b d' r → Next f b d r

/-- The call returns, and keeps the contract: it gives -1, and what is next taken of a longer buffer
is more than this one has, or it takes at least one byte and at most those there are. -/
def Conforms (f : PpFn σ) (d : σ) (b : PpBuffer) : Prop :=
  ∃ a d' l, f d b.mem b.len = .ok (a, d', l) ∧
    (a = -1 ∧ (∀ r, Next f b.bytes d' r → b.len < r) ∨ 1 ≤ a ∧ a ≤ b.len)

variable {f : PpFn σ} {d : σ} {b : PpBuffer}

/-- A call that asks for more keeps the contract when from there on, as long as `I` holds of the
data, a call on a longer buffer asks for more again or takes more than was there. -/
theorem Conforms.of_wait {d' : σ} {l : List LogCall} {I : σ → Prop}
    (h : f d b.mem b.len = .ok (-1, d', l)) (hI : I d')
    (hnext : ∀ (d : σ) (c : PpBuffer) a d' l, I d → b.bytes <+: c.bytes →
      f d c.mem c.len = .ok (a, d', l) → a < 0 ∧ I d' ∨ b.len < a) : Conforms f d b := by
  refine ⟨-1, d', l, h, Or.inl ⟨rfl, fun r hr => ?_⟩⟩
  clear h
  induction hr with
  | @now d d' r l c hpre hf hr =>
    rcases hnext d c r d' l hI hpre hf with ⟨hneg, -⟩ | hlt
    · omega
    · exact hlt
  | @later d d' a r l c hpre hf ha _ ih =>
    rcases hnext d c a d' l hI hpre hf with ⟨-, hI'⟩ | hlt
    · exact ih hI'
    · omega

/-- A call that takes something keeps the contract. -/
theorem Conforms.of_take {a : ℤ} {d' : σ} {l : List LogCall} (h : f d b.mem b.len = .ok (a, d', l))
    (h₁ : 1 ≤ a) (h₂ : a ≤ b.len) : Conforms f d b :=
  ⟨a, d', l, h, Or.inr ⟨h₁, h₂⟩⟩

/-- A function that runs a lawful parser on the part `get` of its data keeps the contract. -/
theorem Conforms.of_lawful {step : Step τ Byte ℤ} (get : σ → τ) (hs : Lawful step)
    (hf : ∀ d (b : PpBuffer), ∃ a d' l, f d b.mem b.len = .ok (a, d', l) ∧
      (a = -1 ∧ step (get d) b.bytes = none ∧ get d' = get d ∨
        ∃ (k : ℕ) (e : List ℤ), a = k ∧ step (get d) b.bytes = some (k, get d', e)))
    (d : σ) (b : PpBuffer) : Conforms f d b := by
  have hne : b.bytes ≠ [] := by
    apply List.ne_nil_of_length_pos
    rw [b.length_bytes]
    exact b.pos
  obtain ⟨a, d', l, hd, ⟨rfl, hnone, hget⟩ | ⟨k, e, rfl, hsome⟩⟩ := hf d b
  · refine Conforms.of_wait (I := fun d' => get d' = get d) hd hget ?_
    rintro d₁ c a d₂ l hI ⟨x, hx⟩ hc
    obtain ⟨a', d₂', l', hc', h⟩ := hf d₁ c
    have heq := hc.symm.trans hc'
    simp only [Except.ok.injEq, Prod.mk.injEq] at heq
    obtain ⟨rfl, rfl, rfl⟩ := heq
    rcases h with ⟨rfl, -, hget'⟩ | ⟨k, e, rfl, hsome⟩
    · exact Or.inl ⟨by omega, hget'.trans hI⟩
    · rw [hI, ← hx] at hsome
      have hlt := hs.exceeds hne hnone hsome
      rw [b.length_bytes] at hlt
      omega
  · have hk := hs.bounds hne hsome
    rw [b.length_bytes] at hk
    exact Conforms.of_take hd (by omega) (by omega)

/-! ## The parsers -/

/-- When `speak_psql` asks for more, it returns -1. -/
theorem speakPsql_neg {state : PpPsqlStateSide} {s : ℤ} {m : List Byte} {len : ℕ} {role : PpId}
    {dir : PpDirection} (hr : role = .psqlc ∨ role = .psqls) (hl : len < 2 ^ 31)
    (h : (speakPsql state s m len role dir).1 < 0) :
    (speakPsql state s m len role dir).1 = -1 := by
  by_cases ht : 0 < state.todo
  · simp only [speakPsql, if_pos ht] at h ⊢
    split at h
    · next hQ => rw [if_pos hQ]
    · simp only [toInt_natCast_lt (show min len state.todo < 2 ^ 31 by omega)] at h
      omega
  by_cases hg : state.gotStartup = 0
  · simp only [speakPsql, if_neg ht, if_pos hg] at h ⊢
    split at h
    · next hlt => rw [if_pos hlt]
    · dsimp only at h
      omega
  by_cases hh : state.gotHeader = 0
  · by_cases hlt : len < 5
    · simp only [speakPsql, if_neg ht, if_neg hg, if_pos hh, if_pos hlt]
    · have hhead := speakPsql_header (s := s) (m := m) dir hr (by omega) hg hh
        (show 5 ≤ len by omega)
      omega
  · simp only [speakPsql, if_neg ht, if_neg hg, if_neg hh]

/-- When `speak_mysql` asks for more, it returns -1. -/
theorem speakMysql_neg {state : PpMysqlStateSide} {s : ℤ} {m : List Byte} {len : ℕ} {role : PpId}
    {dir : PpDirection} (hl : len < 2 ^ 31) (h : (speakMysql state s m len role dir).1 < 0) :
    (speakMysql state s m len role dir).1 = -1 := by
  by_cases ht : 0 < state.todo
  · simp only [speakMysql, if_pos ht] at h
    rw [toInt_natCast_lt (show min len state.todo < 2 ^ 31 by omega)] at h
    omega
  by_cases hlt : len < 4
  · simp only [speakMysql, if_neg ht, if_pos hlt]
  · simp only [speakMysql, if_neg ht, if_neg hlt] at h
    exact absurd h (by decide)

theorem PpBuffer.unsigned (b : PpBuffer) : ((b.len : ℤ) % 2 ^ 32).toNat = b.len := by
  have := b.isInt
  omega

theorem psqlRead_conforms {role : PpId} (hr : role = .psqlc ∨ role = .psqls) (s : ℤ)
    (d : PpPsqlState) (b : PpBuffer) : Conforms (fun d => psqlRead role d s) d b := by
  refine Conforms.of_lawful PpPsqlState.read (psqlUnits_lawful (psqlType role .read)) ?_ d b
  intro d b
  simp only [psqlRead, b.unsigned]
  refine ⟨_, _, _, rfl, ?_⟩
  rcases @speakPsql_spec d.read s b.mem b.len role .read hr b.le b.isInt
    with ⟨hneg, hnone, hst, -⟩ | ⟨k, ids, hk, hsome, -⟩
  · exact Or.inl ⟨speakPsql_neg hr b.isInt hneg, hnone, hst⟩
  · exact Or.inr ⟨k, ids, hk, hsome⟩

theorem psqlWrite_conforms {role : PpId} (hr : role = .psqlc ∨ role = .psqls) (s : ℤ)
    (d : PpPsqlState) (b : PpBuffer) : Conforms (fun d => psqlWrite role d s) d b := by
  refine Conforms.of_lawful PpPsqlState.write (psqlUnits_lawful (psqlType role .write)) ?_ d b
  intro d b
  simp only [psqlWrite, b.unsigned]
  refine ⟨_, _, _, rfl, ?_⟩
  rcases @speakPsql_spec d.write s b.mem b.len role .write hr b.le b.isInt
    with ⟨hneg, hnone, hst, -⟩ | ⟨k, ids, hk, hsome, -⟩
  · exact Or.inl ⟨speakPsql_neg hr b.isInt hneg, hnone, hst⟩
  · exact Or.inr ⟨k, ids, hk, hsome⟩

theorem mysqlRead_conforms {role : PpId} (hr : role = .mysqlc ∨ role = .mysqls) (s : ℤ)
    (d : PpMysqlState) (b : PpBuffer) : Conforms (fun d => mysqlRead role d s) d b := by
  refine Conforms.of_lawful PpMysqlState.read mysqlUnits_lawful ?_ d b
  intro d b
  simp only [mysqlRead, b.unsigned]
  refine ⟨_, _, _, rfl, ?_⟩
  rcases @speakMysql_spec d.read s b.mem b.len role .read hr b.le b.isInt
    with ⟨hneg, hnone, hst, -⟩ | ⟨k, ids, hk, hsome, -⟩
  · exact Or.inl ⟨speakMysql_neg b.isInt hneg, hnone, hst⟩
  · exact Or.inr ⟨k, ids, hk, hsome⟩

theorem mysqlWrite_conforms {role : PpId} (hr : role = .mysqlc ∨ role = .mysqls) (s : ℤ)
    (d : PpMysqlState) (b : PpBuffer) : Conforms (fun d => mysqlWrite role d s) d b := by
  refine Conforms.of_lawful PpMysqlState.write mysqlUnits_lawful ?_ d b
  intro d b
  simp only [mysqlWrite, b.unsigned]
  refine ⟨_, _, _, rfl, ?_⟩
  rcases @speakMysql_spec d.write s b.mem b.len role .write hr b.le b.isInt
    with ⟨hneg, hnone, hst, -⟩ | ⟨k, ids, hk, hsome, -⟩
  · exact Or.inl ⟨speakMysql_neg b.isInt hneg, hnone, hst⟩
  · exact Or.inr ⟨k, ids, hk, hsome⟩

/-- What `pp_xc_read` does when the first byte of the reply is 1: it waits for a number of bytes,
and takes as many. -/
theorem ppXcRead_cases (d : PpXState) (s : ℤ) : ∃ k : ℤ, 1 ≤ k ∧ ∀ b : PpBuffer,
    (d.success = 0 → b.mem.getD 0 0 = 1) →
      ∃ d' l, ppXcRead d s b.mem b.len = .ok (if b.len < k then (-1, d, []) else (k, d', l)) := by
  by_cases hs : d.success = 0
  · refine ⟨8, by decide, fun b hx => ?_⟩
    rw [ppXcRead, if_pos hs, cAssert_of (hx hs), ok_bind]
    split
    · exact ⟨d, [], rfl⟩
    · exact ⟨_, _, rfl⟩
  by_cases hsetup : 0 < d.setup
  · refine ⟨d.setup, hsetup, fun b _ => ?_⟩
    rw [ppXcRead, if_neg hs, if_pos hsetup]
    split
    · exact ⟨d, [], rfl⟩
    · exact ⟨_, _, rfl⟩
  · refine ⟨32, by decide, fun b _ => ?_⟩
    rw [ppXcRead, if_neg hs, if_neg hsetup]
    split
    · exact ⟨d, [], rfl⟩
    · exact ⟨_, _, rfl⟩

theorem ppXcRead_conforms {d : PpXState} (s : ℤ) {b : PpBuffer}
    (hx : d.success = 0 → b.mem.getD 0 0 = 1) : Conforms (fun d => ppXcRead d s) d b := by
  obtain ⟨k, hk, hcall⟩ := ppXcRead_cases d s
  obtain ⟨d', l, hd⟩ := hcall b hx
  by_cases hlt : b.len < k
  · rw [if_pos hlt] at hd
    refine Conforms.of_wait (I := (· = d)) hd rfl ?_
    rintro d₁ c a d₂ l₂ rfl hpre hc
    have hle := hpre.length_le
    rw [b.length_bytes, c.length_bytes] at hle
    have hfirst : d₁.success = 0 → c.mem.getD 0 0 = 1 := by
      intro hs
      obtain ⟨x, hx'⟩ := hpre
      have htake : c.bytes.take b.len = b.bytes := by rw [← hx', List.take_left' b.length_bytes]
      have hfirst := congrArg (fun l => l.getD 0 0) htake
      simp only [PpBuffer.bytes, getD_take b.pos, getD_take c.pos] at hfirst
      rw [hfirst, hx hs]
    obtain ⟨d₃, l₃, hd₃⟩ := hcall c hfirst
    have heq := hc.symm.trans hd₃
    split at heq
    · simp only [Except.ok.injEq, Prod.mk.injEq] at heq
      exact Or.inl ⟨by omega, heq.2.1⟩
    · simp only [Except.ok.injEq, Prod.mk.injEq] at heq
      omega
  · rw [if_neg hlt] at hd
    exact Conforms.of_take hd hk (by omega)

/-! ## FastCGI -/

/-- A header that announces something is followed by a body. -/
def PpFcgiState.Sound (state : PpFcgiState) : Prop := state.success ≠ 0 → 0 < state.body

/-- What `speak_fcgi` copies when it is called on `n` bytes has room in its buffer. -/
def PpFcgiState.CopyFits (state : PpFcgiState) (n : ℕ) : Prop :=
  state.done = 0 → state.success ≠ 0 → state.body ≤ n → state.Loggable

instance (state : PpFcgiState) (n : ℕ) : Decidable (state.CopyFits n) :=
  inferInstanceAs (Decidable (_ → _))

theorem PpFcgiState.sound_header (state : PpFcgiState) (m : List Byte) :
    (state.header m).Sound := by
  intro hs
  simp only [header, ne_eq, ite_eq_left_iff, one_ne_zero, imp_false, not_not, body] at hs ⊢
  have h₁ : 0 ≤ fcgiConlen m := by
    unfold fcgiConlen
    omega
  have h₂ : 0 ≤ fcgiPadlen m := Int.natCast_nonneg _
  omega

section Fcgi

variable {junk : PpFcgiState → List Byte} {s : ℤ} {role : PpId} {dir : PpDirection}
  {state : PpFcgiState} {b : PpBuffer}

/-- A call of `speak_fcgi` that has something to copy, and room for it or not. -/
theorem speakFcgi_end (junk : PpFcgiState → List Byte) (s : ℤ) (role : PpId) (dir : PpDirection)
    (hd : state.done = 0) (hs : state.success ≠ 0) (hbody : 0 < state.body)
    (hle : state.body ≤ b.len) : if state.Loggable then
      ∃ l, speakFcgi junk state s b.mem b.len role dir = .ok (state.body, state.finish, l)
    else speakFcgi junk state s b.mem b.len role dir = .error .overrun := by
  rw [speakFcgi, if_neg (not_not.2 hd), if_neg hs]
  simp only [cAssert_of hbody, ok_bind, if_pos hle, PpFcgiState.Loggable]
  rcases state.streamType with _ | t
  · rw [if_pos (Or.inl rfl)]
    exact ⟨[], rfl⟩
  · by_cases hc : 2 ≤ state.conlen ∧ state.conlen ≤ 1026
    · rw [if_pos (Or.inr hc)]
      dsimp only
      rw [inBounds_of (by omega)]
      exact ⟨_, rfl⟩
    · rw [if_neg (by simpa using hc)]
      dsimp only
      rw [inBounds, if_neg (by omega)]
      rfl

/-- What a call of `speak_fcgi` does. -/
theorem speakFcgi_spec (junk : PpFcgiState → List Byte) (s : ℤ) (role : PpId) (dir : PpDirection)
    (b : PpBuffer) (hstate : state.Sound) :
    if state.CopyFits b.len then
      ∃ a state' l, speakFcgi junk state s b.mem b.len role dir = .ok (a, state', l) ∧
        state'.Sound ∧ (a = -1 ∧ state' = state ∧ b.len < 8 ∧ state.done = 0 ∧ state.success = 0 ∨
          1 ≤ a ∧ a ≤ b.len ∧ (state.done = 0 → state.success = 0 → a = 8))
    else speakFcgi junk state s b.mem b.len role dir = .error .overrun := by
  have hpos := b.pos
  by_cases hd : state.done = 0
  · by_cases hs : state.success = 0
    · rw [if_pos (show state.CopyFits b.len from fun _ h => absurd hs h)]
      by_cases hl : b.len < 8
      · refine ⟨-1, state, [], ?_, hstate, Or.inl ⟨rfl, rfl, hl, hd, hs⟩⟩
        rw [speakFcgi, if_neg (not_not.2 hd), if_pos hs,
          if_pos (by simp only [fcgiHeaderLen]; omega)]
        rfl
      · refine ⟨8, state.header b.mem, fcgiHeaderLog b.mem s role dir, ?_, state.sound_header _,
          Or.inr ⟨by omega, by omega, fun _ _ => rfl⟩⟩
        rw [speakFcgi, if_neg (not_not.2 hd), if_pos hs,
          if_neg (by simp only [fcgiHeaderLen]; omega)]
        rfl
    · have hbody := hstate hs
      by_cases hle : state.body ≤ b.len
      · have hend := speakFcgi_end junk s role dir hd hs hbody hle
        have hiff : state.CopyFits b.len ↔ state.Loggable :=
          ⟨fun h => h hd hs hle, fun h _ _ _ => h⟩
        by_cases hlog : state.Loggable
        · rw [if_pos hlog] at hend
          rw [if_pos (hiff.2 hlog)]
          obtain ⟨l, hcall⟩ := hend
          exact ⟨_, _, l, hcall, fun h => absurd rfl h,
            Or.inr ⟨by omega, hle, fun _ h => absurd h hs⟩⟩
        · rw [if_neg hlog] at hend
          rw [if_neg (fun h => hlog (hiff.1 h))]
          exact hend
      · rw [if_pos (show state.CopyFits b.len from fun _ _ h => absurd h hle)]
        refine ⟨b.len, state, [], ?_, hstate,
          Or.inr ⟨by omega, Int.le_refl _, fun _ h => absurd h hs⟩⟩
        rw [speakFcgi, if_neg (not_not.2 hd), if_neg hs]
        simp only [cAssert_of hbody, ok_bind, if_neg hle]
        rfl
  · rw [if_pos (show state.CopyFits b.len from fun h => absurd h hd)]
    refine ⟨b.len, state, [], ?_, hstate, Or.inr ⟨by omega, Int.le_refl _, fun h => absurd h hd⟩⟩
    rw [speakFcgi, if_pos hd]
    rfl

/-- `speak_fcgi` on the part of the data that `get` reads and `put` writes. -/
theorem speakFcgi_conforms (get : σ → PpFcgiState) (put : σ → PpFcgiState → σ) {f : PpFn σ}
    (hput : ∀ d state, get (put d state) = state)
    (hf : ∀ d m n, f d m n =
      speakFcgi junk (get d) s m n role dir >>= fun r => .ok (r.1, put d r.2.1, r.2.2))
    {d : σ} (hd : (get d).Sound) : Conforms f d b ↔ (get d).CopyFits b.len := by
  have hspec := speakFcgi_spec junk s role dir b hd
  by_cases hfit : (get d).CopyFits b.len
  · refine iff_of_true ?_ hfit
    rw [if_pos hfit] at hspec
    obtain ⟨a, state', l, hcall, hsound, ⟨rfl, rfl, hlt, hdone, hsucc⟩ | ⟨h₁, h₂, -⟩⟩ := hspec
    · have hcall' : f d b.mem b.len = .ok (-1, put d (get d), l) := by rw [hf, hcall, ok_bind]
      refine Conforms.of_wait (I := fun d' => get d' = get d) hcall' (hput _ _) ?_
      intro d₁ c a d₂ l₂ hI hpre hc
      have hspec := speakFcgi_spec junk s role dir c (show (get d₁).Sound from hI ▸ hd)
      rw [hI, if_pos (show (get d).CopyFits c.len from fun _ h => absurd hsucc h)] at hspec
      obtain ⟨a', state', l', hcall', -, h⟩ := hspec
      rw [hf, hI, hcall', ok_bind] at hc
      simp only [Except.ok.injEq, Prod.mk.injEq] at hc
      obtain ⟨rfl, rfl, rfl⟩ := hc
      rcases h with ⟨rfl, rfl, -⟩ | ⟨-, -, h⟩
      · exact Or.inl ⟨by omega, hput _ _⟩
      · have := h hdone hsucc
        omega
    · exact Conforms.of_take (by rw [hf, hcall, ok_bind]) h₁ h₂
  · refine iff_of_false ?_ hfit
    rw [if_neg hfit] at hspec
    rintro ⟨a, d', l, hcall, -⟩
    rw [hf, hspec] at hcall
    cases hcall

end Fcgi

/-! ## From the states that are reached -/

/-- The side of a connection that a direction goes through. -/
def PpFcgiStateWrap.side (d : PpFcgiStateWrap) : PpDirection → PpFcgiState
  | .read => d.read
  | .write => d.write

namespace Installed

/-- The `pp_read` or `pp_write` of a processor, on descriptor `s`. -/
def fn (i : Installed) (s : ℤ) : PpDirection → PpFn i.Data
  | .read => fun d => i.pp.ppRead d s
  | .write => fun d => i.pp.ppWrite d s

/-- A call, and the data it leaves. -/
def call (i : Installed) (s : ℤ) (d : i.Data) (c : PpDirection × PpBuffer) : Except Fault i.Data :=
  i.fn s c.1 d c.2.mem c.2.len >>= fun r => .ok r.2.1

/-- The processors whose functions are `speak_psql`, `speak_mysql`, `speak_fcgi` and, reading,
`pp_xc_read`. -/
def Speaks : Installed → Prop
  | psqls | psqlc | mysqls | mysqlc | fcgis _ | fcgic _ | xc => True
  | https .. | perlps | httpc => False

/-- The first byte of a reply to `xc` is the 1 that is asserted. -/
def Greeted : (i : Installed) → i.Data → PpDirection → PpBuffer → Prop
  | xc, d, .read, b => (d : PpXState).success = 0 → b.mem.getD 0 0 = 1
  | _, _, _, _ => True

/-- The string that the call copies has room where it is copied to. -/
def CopyFits : (i : Installed) → i.Data → PpDirection → ℕ → Prop
  | fcgis _, d, dir, n => (PpFcgiStateWrap.side d dir).CopyFits n
  | fcgic _, d, dir, n => (PpFcgiStateWrap.side d dir).CopyFits n
  | _, _, _, _ => True

/-- Both sides of a processor for FastCGI are sound. -/
def Sound : (i : Installed) → i.Data → Prop
  | fcgis _, d => ∀ dir, (PpFcgiStateWrap.side d dir).Sound
  | fcgic _, d => ∀ dir, (PpFcgiStateWrap.side d dir).Sound
  | _, _ => True

end Installed

/-- A call of `speak_fcgi` that returns leaves a sound state. -/
theorem sound_of_speakFcgi {junk : PpFcgiState → List Byte} {s : ℤ} {role : PpId}
    {dir : PpDirection} {state state' : PpFcgiState} {b : PpBuffer} {a : ℤ} {l : List LogCall}
    (h : state.Sound) (hcall : speakFcgi junk state s b.mem b.len role dir = .ok (a, state', l)) :
    state'.Sound := by
  have hspec := speakFcgi_spec junk s role dir b h
  split at hspec
  · obtain ⟨a', state'', l', hcall', hsound, -⟩ := hspec
    rw [hcall] at hcall'
    cases hcall'
    exact hsound
  · rw [hcall] at hspec
    cases hspec

/-- A call on either side of a processor for FastCGI leaves both sides sound. -/
theorem sound_of_fcgi {junk : PpFcgiState → List Byte} {s : ℤ} {role : PpId} {dir : PpDirection}
    {d : PpFcgiStateWrap} {d' : PpFcgiStateWrap} {b : PpBuffer} {a : ℤ} {l : List LogCall}
    (h : ∀ dir, (d.side dir).Sound)
    (hcall : (if dir = .read then fcgiRead junk role d s b.mem b.len
      else fcgiWrite junk role d s b.mem b.len) = .ok (a, d', l)) :
    ∀ dir, (d'.side dir).Sound := by
  cases dir with
  | read =>
    obtain ⟨⟨a', state, l'⟩, hspeak, hret⟩ := bind_eq_ok hcall
    cases hret
    have hread := sound_of_speakFcgi (h .read) hspeak
    intro dir
    cases dir with
    | read => exact hread
    | write => exact h .write
  | write =>
    obtain ⟨⟨a', state, l'⟩, hspeak, hret⟩ := bind_eq_ok hcall
    cases hret
    have hwrite := sound_of_speakFcgi (h .write) hspeak
    intro dir
    cases dir with
    | read => exact h .read
    | write => exact hwrite

theorem Installed.sound_init (i : Installed) (s : ℤ) (d : i.Data) :
    i.Sound (i.pp.ppInit s d).1 := by
  have hinit : ∀ dir, (ppFcgiInitHelp.side dir).Sound := by
    intro dir
    cases dir <;> exact fun h => absurd rfl h
  cases i with
  | fcgis junk => exact hinit
  | fcgic junk => exact hinit
  | _ => trivial

theorem Installed.sound_call (i : Installed) {s : ℤ} {d d' : i.Data} {c : PpDirection × PpBuffer}
    (h : i.Sound d) (hcall : i.call s d c = .ok d') : i.Sound d' := by
  obtain ⟨⟨a, d₁, l⟩, hfn, hret⟩ := bind_eq_ok hcall
  cases hret
  obtain ⟨dir, b⟩ := c
  cases i with
  | fcgis junk =>
    have hfn' : (if dir = .read then fcgiRead junk .fcgis d s b.mem b.len
        else fcgiWrite junk .fcgis d s b.mem b.len) = .ok (a, d₁, l) := by
      cases dir <;> exact hfn
    exact sound_of_fcgi h hfn'
  | fcgic junk =>
    have hfn' : (if dir = .read then fcgiRead junk .fcgic d s b.mem b.len
        else fcgiWrite junk .fcgic d s b.mem b.len) = .ok (a, d₁, l) := by
      cases dir <;> exact hfn
    exact sound_of_fcgi h hfn'
  | _ => trivial

/-- **The contract** is kept in every state that calls lead to, by every call but one that copies
a string for which there is no room. -/
theorem conforms_iff (i : Installed) (hi : i.Speaks) (s : ℤ) (d₀ : i.Data)
    (cs : List (PpDirection × PpBuffer)) {d : i.Data}
    (hrun : runSteps (i.call s) (i.pp.ppInit s d₀).1 cs = .ok d) (dir : PpDirection) (b : PpBuffer)
    (hx : i.Greeted d dir b) : Conforms (i.fn s dir) d b ↔ i.CopyFits d dir b.len := by
  have hsound : i.Sound d :=
    always_of_step (i.sound_init s d₀) (fun _ _ _ h hc => i.sound_call h hc) cs
      (List.prefix_refl _) d hrun
  have hfcgi : ∀ (junk : PpFcgiState → List Byte) (role : PpId) (d : PpFcgiStateWrap),
      (∀ dir, (d.side dir).Sound) →
      (Conforms (fun d => fcgiRead junk role d s) d b ↔ (d.side .read).CopyFits b.len) ∧
      (Conforms (fun d => fcgiWrite junk role d s) d b ↔ (d.side .write).CopyFits b.len) := by
    intro junk role d hd
    exact ⟨speakFcgi_conforms PpFcgiStateWrap.read (fun d state => { d with read := state })
        (fun _ _ => rfl)
        (fun _ _ _ => rfl) (hd .read),
      speakFcgi_conforms PpFcgiStateWrap.write (fun d state => { d with write := state })
        (fun _ _ => rfl)
        (fun _ _ _ => rfl) (hd .write)⟩
  cases i with
  | https heap write => exact hi.elim
  | perlps => exact hi.elim
  | httpc => exact hi.elim
  | psqls =>
    cases dir with
    | read => exact iff_of_true (psqlRead_conforms (Or.inr rfl) s d b) trivial
    | write => exact iff_of_true (psqlWrite_conforms (Or.inr rfl) s d b) trivial
  | psqlc =>
    cases dir with
    | read => exact iff_of_true (psqlRead_conforms (Or.inl rfl) s d b) trivial
    | write => exact iff_of_true (psqlWrite_conforms (Or.inl rfl) s d b) trivial
  | mysqls =>
    cases dir with
    | read => exact iff_of_true (mysqlRead_conforms (Or.inr rfl) s d b) trivial
    | write => exact iff_of_true (mysqlWrite_conforms (Or.inr rfl) s d b) trivial
  | mysqlc =>
    cases dir with
    | read => exact iff_of_true (mysqlRead_conforms (Or.inl rfl) s d b) trivial
    | write => exact iff_of_true (mysqlWrite_conforms (Or.inl rfl) s d b) trivial
  | fcgis junk =>
    cases dir with
    | read => exact (hfcgi junk .fcgis d hsound).1
    | write => exact (hfcgi junk .fcgis d hsound).2
  | fcgic junk =>
    cases dir with
    | read => exact (hfcgi junk .fcgic d hsound).1
    | write => exact (hfcgi junk .fcgic d hsound).2
  | xc =>
    cases dir with
    | read => exact iff_of_true (ppXcRead_conforms s hx) trivial
    | write =>
      refine iff_of_true (Conforms.of_take (a := b.len) rfl ?_ (Int.le_refl _)) trivial
      have := b.pos
      omega

/-- The header of a `PARAMS` record with one byte of content. -/
def shortParams : PpBuffer := ⟨[1, 4, 0, 1, 0, 1, 0, 0], 8, by decide, by decide, by decide⟩

/-- Its content. -/
def shortContent : PpBuffer := ⟨[0], 1, by decide, by decide, by decide⟩

/-- Behind the header of a `PARAMS` record with one byte of content. -/
def paramsState : PpFcgiStateWrap := ⟨fcgiInit.header shortParams.mem, fcgiInit⟩

theorem paramsState_reached :
    runSteps (Installed.call (.fcgis fun _ => []) 5) ppFcgiInitHelp [(.read, shortParams)] =
      .ok paramsState := rfl

theorem conforms_iff_shortParams :
    Conforms (Installed.fn (.fcgis fun _ => []) 5 .read) paramsState shortContent ↔
      Installed.CopyFits (.fcgis fun _ => []) paramsState .read 1 :=
  conforms_iff (.fcgis fun _ => []) trivial 5 ppFcgiInitHelp [(.read, shortParams)]
    paramsState_reached
    .read shortContent trivial

/-- With fewer than two bytes of content the number of bytes to copy is negative. -/
theorem short_params_overrun : ¬ ∀ (i : Installed), i.Speaks → ∀ (s : ℤ) (d₀ : i.Data)
    (cs : List (PpDirection × PpBuffer)) (d : i.Data),
    runSteps (i.call s) (i.pp.ppInit s d₀).1 cs = .ok d → ∀ (dir : PpDirection) (b : PpBuffer),
      i.Greeted d dir b → Conforms (i.fn s dir) d b := by
  intro h
  obtain ⟨a, d', l, hcall, -⟩ := h (.fcgis fun _ => []) trivial 5 ppFcgiInitHelp
    [(.read, shortParams)] paramsState rfl .read shortContent trivial
  have hover : Installed.fn (.fcgis fun _ => []) 5 .read paramsState shortContent.mem
      shortContent.len = .error .overrun := rfl
  rw [hover] at hcall
  cases hcall

end BorderPatrol.Trace
