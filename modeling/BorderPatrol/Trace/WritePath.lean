import BorderPatrol.Trace.Protocol.Mysql
import BorderPatrol.Trace.Writes

/-!
# The writing side loses nothing

Whatever the processor is, as long as it asks for more or takes some of what it is called on:
`vwrite_req` ends, leaves its cursors at the start of the buffer, and what the processor has taken
followed by what the buffer holds are the bytes that were passed to it (`reqRun_lossless`). The
instance of `Writes` behind it says of a run of calls which bytes they consumed.
-/

namespace BorderPatrol.Trace

open Foundations

variable {σ : Type}

/-- The range of the buffer that a call of the processor consumes. -/
def PpCall.range (c : PpCall σ) : List Byte := c.before.mem.take c.ret.toNat

/-- The ranges that calls consume, one after the other. -/
def ranges (cs : List (PpCall σ)) : List Byte := cs.flatMap PpCall.range

@[simp] theorem ranges_nil : ranges ([] : List (PpCall σ)) = [] := rfl

@[simp] theorem ranges_append (cs₁ cs₂ : List (PpCall σ)) :
    ranges (cs₁ ++ cs₂) = ranges cs₁ ++ ranges cs₂ := by
  simp [ranges]

@[simp] theorem ranges_singleton (c : PpCall σ) : ranges [c] = c.range := by
  simp [ranges]

/-- In every state `pp_write` returns, and what it returns is zero or negative, or at least one and
at most the number of bytes it is called on. -/
def ReturnsWithin (P : PpDispatcher σ) (s : ℤ) : Prop :=
  ∀ (d : σ) (m : List Byte) (n : ℕ), 0 < n → n ≤ m.length →
    ∃ a d' l, P.ppWrite d s m n = .ok (a, d', l) ∧ (a ≤ 0 ∨ 1 ≤ a ∧ a ≤ n)

/-- A call of `vwrite_req`: a buffer, and the number of its bytes that were written. -/
structure WriteCall where
  buf : List Byte
  len : ℤ
  le : len ≤ buf.length

/-- The bytes that a call passes in. -/
def WriteCall.bytes (c : WriteCall) : List Byte := c.buf.take c.len.toNat

theorem WriteCall.length_bytes (c : WriteCall) : c.bytes.length = c.len.toNat := by
  have hle := c.le
  rw [WriteCall.bytes, List.length_take]
  omega

/-- A sequence of calls of `vwrite_req`, with the calls of the processor they make. -/
def reqRun (s : ℤ) : Vfd σ → List WriteCall → Except Fault (Vfd σ × List (PpCall σ))
  | v, [] => .ok (v, [])
  | v, c :: cs => do
    let (v', _) ← vwriteReq v s c.buf c.len
    let (v'', calls) ← reqRun s v' cs
    return (v'', reqCalls v s c.bytes ++ calls)

/-- At every call of the sequence what is left in the buffer and what is new fit in it. -/
def ReqFits (s : ℤ) : Vfd σ → List WriteCall → Prop
  | _, [] => True
  | v, c :: cs => v.wbuflen + c.len ≤ vbufsize ∧
      ∀ v' tr, vwriteReq v s c.buf c.len = .ok (v', tr) → ReqFits s v' cs

theorem ReqFits.of_append {s : ℤ} {v : Vfd σ} {cs₁ cs₂ : List WriteCall}
    (h : ReqFits s v (cs₁ ++ cs₂)) : ReqFits s v cs₁ := by
  induction cs₁ generalizing v with
  | nil => trivial
  | cons c cs₁ ih => exact ⟨h.1, fun v' tr hw => ih (h.2 v' tr hw)⟩

/-- Only the first `len` bytes of the buffer matter. -/
theorem vwriteReq_bytes (v : Vfd σ) (s : ℤ) (c : WriteCall) :
    vwriteReq v s c.buf c.len = vwriteReq v s c.bytes c.bytes.length := by
  have hle := c.le
  have hlen := c.length_bytes
  by_cases hpos : c.len ≤ 0
  · simp only [vwriteReq, hlen, Int.toNat_of_nonpos hpos, hpos, Int.natCast_zero, Int.le_refl,
      or_true, if_true]
  · have hcast : ((c.len.toNat : ℕ) : ℤ) = c.len := by omega
    have htake : c.bytes.take c.len.toNat = c.buf.take c.len.toNat := by
      rw [WriteCall.bytes, List.take_take, Nat.min_self]
    have hiff : (c.len ≤ c.buf.length ∧ 0 ≤ v.wbuflen ∧ v.wbuflen + c.len ≤ vbufsize) ↔
        c.len ≤ c.len.toNat ∧ 0 ≤ v.wbuflen ∧ v.wbuflen + c.len ≤ vbufsize := by
      omega
    simp only [vwriteReq, hlen, hcast, htake, inBounds, hiff]

variable {P : PpDispatcher σ} {s : ℤ}

/-- The calls made so far have consumed the first `taken` bytes. -/
def Consumed : Writing σ := fun seen taken _ h => taken ≤ seen.length ∧ ranges h = seen.take taken

/-- Every processor that returns within its bounds consumes the bytes in order. -/
theorem ReturnsWithin.writes (hP : ReturnsWithin P s) (b : List Byte) :
    Writes P s b Consumed Consumed (fun _ => True) fun _ => False where
  arrive := by
    rintro seen taken d h c - ⟨hle, hr⟩
    refine ⟨by rw [List.length_append]; omega, ?_⟩
    rw [hr, List.take_append_of_le_length hle]
  rest := fun h => h
  call := by
    rintro seen taken d h m n ⟨hle, hr⟩ hn hlen hm -
    have hml := congrArg List.length hm
    rw [List.length_take, List.length_drop] at hml
    obtain ⟨a, d', l, hw, ha⟩ := hP d m n hn (by omega)
    refine Post.of_ok hw ?_
    simp only [Consumed, ranges_append, ranges_singleton, PpCall.range, PpCall.ret]
    rcases ha with ha | ⟨h₁, h₂⟩
    · refine Or.inl ⟨ha, hle, ?_⟩
      rw [Int.toNat_of_nonpos ha, List.take_zero, List.append_nil, hr]
    · refine Or.inr (Or.inl ⟨by omega, h₂, by omega, ?_⟩)
      have htake : m.take a.toNat = (seen.drop taken).take a.toNat := by
        rw [← hm, List.take_take, Nat.min_eq_left (by omega)]
      rw [hr, htake, ← List.take_add]

/-- One call from a buffer that holds what is written and not consumed. -/
theorem vwriteReq_held (hP : ReturnsWithin P s) {v : Vfd σ} {seen : List Byte} {taken : ℕ}
    {h : List (PpCall σ)} (hv : Held P v seen taken) (h₀ : v.wbufofs = 0)
    (hR : ranges h = seen.take taken) {c : WriteCall} (hfit : v.wbuflen + c.len ≤ vbufsize) :
    ∃ v' tr taken', vwriteReq v s c.buf c.len = .ok (v', tr) ∧ v'.wbufofs = 0 ∧
      Held P v' (seen ++ c.bytes) taken' ∧
      ranges (h ++ reqCalls v s c.bytes) = (seen ++ c.bytes).take taken' := by
  have hlen := c.length_bytes
  have hfits : v.wbuflen + c.bytes.length ≤ vbufsize := by
    have := hv.fits
    omega
  have hreq := vwriteReq_rule (hP.writes (seen ++ c.bytes)) hv h₀ ⟨hv.le, hR⟩
    (List.prefix_refl _) hfits fun _ _ => trivial
  obtain ⟨⟨v', tr⟩, hw, taken', hv', hz', ⟨-, hR'⟩, -⟩ := hreq.total
  rw [← vwriteReq_bytes] at hw
  exact ⟨v', tr, taken', hw, hz', hv', hR'⟩

/-- A run of calls from a buffer that holds what is written and not consumed. -/
theorem reqRun_spec (hP : ReturnsWithin P s) {v : Vfd σ} {seen : List Byte} {taken : ℕ}
    {h : List (PpCall σ)} (hv : Held P v seen taken) (h₀ : v.wbufofs = 0)
    (hR : ranges h = seen.take taken) {cs : List WriteCall} (hfit : ReqFits s v cs) :
    ∃ v' calls taken', reqRun s v cs = .ok (v', calls) ∧ v'.wbufofs = 0 ∧
      Held P v' (seen ++ cs.flatMap WriteCall.bytes) taken' ∧
      ranges (h ++ calls) = (seen ++ cs.flatMap WriteCall.bytes).take taken' := by
  induction cs generalizing v seen taken h with
  | nil => exact ⟨v, [], taken, rfl, h₀, by simpa using hv, by simpa using hR⟩
  | cons c cs ih =>
    obtain ⟨v₁, tr, taken₁, hw, hz₁, hv₁, hR₁⟩ := vwriteReq_held hP hv h₀ hR hfit.1
    obtain ⟨v₂, calls, taken₂, hrun, hz₂, hv₂, hR₂⟩ := ih hv₁ hz₁ hR₁ (hfit.2 v₁ tr hw)
    rw [List.append_assoc, ← List.flatMap_cons] at hv₂
    rw [List.append_assoc, List.append_assoc, ← List.flatMap_cons] at hR₂
    refine ⟨v₂, reqCalls v s c.bytes ++ calls, taken₂, ?_, hz₂, hv₂, hR₂⟩
    simp only [reqRun, hw, hrun, ok_bind]
    rfl

/-- Calls whose bytes fit in the buffer all together never overrun it. -/
theorem reqFits_of_short (hP : ReturnsWithin P s) {v : Vfd σ} {seen : List Byte} {taken : ℕ}
    {h : List (PpCall σ)} (hv : Held P v seen taken) (h₀ : v.wbufofs = 0)
    (hR : ranges h = seen.take taken) {cs : List WriteCall}
    (hshort : (seen ++ cs.flatMap WriteCall.bytes).length ≤ vbufsize) : ReqFits s v cs := by
  induction cs generalizing v seen taken h with
  | nil => trivial
  | cons c cs ih =>
    have hlen := hv.len
    have hc := c.length_bytes
    rw [List.flatMap_cons, ← List.append_assoc] at hshort
    have hfit : v.wbuflen + c.len ≤ vbufsize := by
      simp only [List.length_append] at hshort
      omega
    obtain ⟨v₁, tr, taken₁, hw, hz₁, hv₁, hR₁⟩ := vwriteReq_held hP hv h₀ hR hfit
    refine ⟨hfit, fun v' tr' hw' => ?_⟩
    rw [hw] at hw'
    cases hw'
    exact ih hv₁ hz₁ hR₁ hshort

/-- An empty buffer. -/
theorem held_empty {v : Vfd σ} (hd : v.ppDispatcher = some P) (hlen : v.wbuflen = 0)
    (hofs : v.wbufofs = 0) : Held P v [] 0 := by
  constructor
  · exact hd
  · exact Nat.le_refl _
  · simp [hlen, hofs]
  · omega
  · rw [hlen]
    exact Int.natCast_nonneg _
  · rfl

/-- **The writing side loses nothing.** After every call of a sequence that starts with an empty
buffer and never overruns it, the cursors are at the start of the buffer, and the ranges that the
processor has consumed, followed by what the buffer holds, are the bytes passed in. -/
theorem reqRun_lossless (hP : ReturnsWithin P s) {v : Vfd σ} (hd : v.ppDispatcher = some P)
    (hlen : v.wbuflen = 0) (hofs : v.wbufofs = 0) {cs : List WriteCall} (hfit : ReqFits s v cs) :
    ∀ pre, pre <+: cs → ∃ v' calls, reqRun s v pre = .ok (v', calls) ∧ v'.wbufofs = 0 ∧
      0 ≤ v'.wbuflen ∧ v'.wbuflen ≤ vbufsize ∧
      ranges calls ++ v'.wbuf.slice 0 v'.wbuflen.toNat = pre.flatMap WriteCall.bytes := by
  rintro pre ⟨suf, rfl⟩
  have hheld := held_empty hd hlen hofs
  obtain ⟨v', calls, taken, hrun, hz, hv', hR⟩ :=
    reqRun_spec hP (h := []) hheld hofs rfl hfit.of_append
  have hl := hv'.len
  have hb := hv'.bytes
  simp only [List.nil_append] at hl hb hR
  refine ⟨v', calls, hrun, hz, by omega, hv'.fits, ?_⟩
  rw [hz, Int.toNat_zero] at hb
  rw [hR, show v'.wbuflen.toNat = (pre.flatMap WriteCall.bytes).length - taken by omega, hb,
    List.take_append_drop]

/-! ## A processor that waits for headers -/

/-- `speak_mysql` asks for more, or takes some of what it is called on. -/
theorem ppMysqls_returnsWithin (s : ℤ) : ReturnsWithin ppMysqls s := by
  intro d m n hn _
  refine ⟨_, _, _, rfl, ?_⟩
  have hu : ((n : ℤ) % 2 ^ 32).toNat ≤ n ∧ ((n : ℤ) % 2 ^ 32).toNat < 2 ^ 32 := by omega
  generalize ((n : ℤ) % 2 ^ 32).toNat = len at hu
  unfold speakMysql
  split
  · have hint : toInt (min len d.write.todo : ℕ) ≤ 0 ∨
        toInt (min len d.write.todo : ℕ) = (min len d.write.todo : ℕ) := by
      rw [toInt, Int.bmod_def]
      split <;> omega
    dsimp only
    omega
  split
  · dsimp only
    omega
  · dsimp only
    omega

/-- The header of a packet of two bytes, written in two parts, and its bytes. -/
def packetWrites : List WriteCall :=
  [⟨[2, 0, 0, 9], 3, by decide⟩, ⟨[], -1, by decide⟩, ⟨[1, 7, 8], 3, by decide⟩]

theorem reqRun_lossless_packet :
    ∃ v' calls, reqRun 5 ((Vfd.zero ppMysqlCommonInit).opened ppMysqls ppMysqlCommonInit)
        packetWrites = .ok (v', calls) ∧ v'.wbufofs = 0 ∧ 0 ≤ v'.wbuflen ∧ v'.wbuflen ≤ vbufsize ∧
      ranges calls ++ v'.wbuf.slice 0 v'.wbuflen.toNat = packetWrites.flatMap WriteCall.bytes :=
  reqRun_lossless (ppMysqls_returnsWithin 5) rfl rfl rfl
    (reqFits_of_short (h := []) (ppMysqls_returnsWithin 5) (held_empty rfl rfl rfl) rfl rfl
      (by decide)) packetWrites (List.prefix_refl _)

end BorderPatrol.Trace
