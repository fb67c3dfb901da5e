import BorderPatrol.Trace.Protocol.Mysql
import BorderPatrol.Trace.Protocol.Psql

/-!
# Both ends number messages alike

The sender's processor is driven eagerly by writes and the receiver's lazily by receive calls, over
fragmentations that have nothing to do with each other. When both run the same lawful parser from
the same state, what both have emitted once the receiver has been handed the whole stream is one
drain of that stream (`numbersAlike_of_parses`). PostgreSQL and MySQL are instances in both
directions (`both_ends_number_alike`).
-/

namespace BorderPatrol.Trace

open Foundations Foundations.Resumable

variable {σ τ : Type}

/-- A sender on descriptor `s₁` with processor `P₁`, whose write side has the state `get₁`, and a
receiver on `s₂` with `P₂`, whose read side has the state `get₂`, number the messages of every
stream alike: for all writes `cs` whose unconsumed bytes fit in the buffer and all receive calls
against kernels that return the stream in any pieces, once the receiver has been handed the stream
the ids reported and the states of the two sides are equal. -/
def NumbersAlike (P₁ P₂ : PpDispatcher σ) (get₁ get₂ : σ → τ) : Prop :=
  ∀ (s₁ s₂ : ℤ) (u₁ u₂ : Vfd σ) (x₁ x₂ : σ) (cs : List (List Byte)) (rs : List RecvCall),
    WriteFits s₁ (u₁.accepted P₁ s₁ x₁) cs → (∀ r ∈ rs, r.len < 2 ^ 31) →
    ∃ v₁ tr v₂ gs, writeRun s₁ (u₁.accepted P₁ s₁ x₁) cs = .ok (v₁, tr) ∧
      recvRun s₂ (u₂.accepted P₂ s₂ x₂) rs = .ok (v₂, gs) ∧
      (kernelBytes (traces gs) <+: cs.flatten → handed gs = cs.flatten →
        msgIds .ppMsgSend (logs tr) = msgIds .ppMsgRecv (logs (traces gs)) ∧
          get₁ v₁.ppData = get₂ v₂.ppData)

/-- The log call that reports message `i` for the events `sc` of one processor. -/
def reports (sc : Sc) (role s : ℤ) (name : List Byte) (i : ℤ) : LogCall :=
  logbinIiis sc 0 role s i name

variable {P₁ P₂ : PpDispatcher σ} {get₁ get₂ : σ → τ} {step : Step τ Byte ℤ}
  {r₁ r₂ : ℤ} {n₁ n₂ : List Byte}

/-- **Two ends that run one lawful parser number messages alike.** -/
theorem numbersAlike_of_parses (hs : Lawful step)
    (hw : ∀ s, Parses (fun d => P₁.ppWrite d s) get₁ step (reports .ppMsgSend r₁ s n₁))
    (hr : ∀ s, Parses (fun d => P₂.ppRead d s) get₂ step (reports .ppMsgRecv r₂ s n₂))
    (hinit : ∀ s₁ s₂ x₁ x₂, get₁ (P₁.ppInit s₁ x₁).1 = get₂ (P₂.ppInit s₂ x₂).1) :
    NumbersAlike P₁ P₂ get₁ get₂ := by
  intro s₁ s₂ u₁ u₂ x₁ x₂ cs rs hfit hl
  obtain ⟨v₁, tr, hrun₁, -, hst₁, hm₁⟩ := writeRun_parses hs (hw s₁) u₁ (P₁.ppInit s₁ x₁).1 hfit
  obtain ⟨v₂, gs, out, left, hrun₂, hm₂, -, hpre, hdrain⟩ :=
    recvRun_parses hs (hr s₂) u₂ (P₂.ppInit s₂ x₂).1 hl
  refine ⟨v₁, tr, v₂, gs, hrun₁, hrun₂, fun hk hall => ?_⟩
  -- the kernel has returned the whole stream
  have hkern : kernelBytes (traces gs) = cs.flatten :=
    hk.eq_of_length (Nat.le_antisymm hk.length_le (hall ▸ hpre.length_le))
  have hd := hdrain (hall.trans hkern.symm)
  rw [hkern, ← hinit s₁ s₂ x₁ x₂] at hd
  rw [hd] at hst₁ hm₁
  exact ⟨(msgIds_eq (Or.inl rfl) hm₁).trans (msgIds_eq (Or.inr rfl) hm₂).symm, hst₁⟩

/-- **PostgreSQL and MySQL**: from client to server and from server to client, both ends number
the messages of every stream alike. -/
theorem both_ends_number_alike :
    NumbersAlike ppPsqlc ppPsqls PpPsqlState.write PpPsqlState.read ∧
      NumbersAlike ppPsqls ppPsqlc PpPsqlState.write PpPsqlState.read ∧
      NumbersAlike ppMysqlc ppMysqls PpMysqlState.write PpMysqlState.read ∧
      NumbersAlike ppMysqls ppMysqlc PpMysqlState.write PpMysqlState.read := by
  refine ⟨?_, ?_, ?_, ?_⟩
  · exact numbersAlike_of_parses (psqlUnits_lawful 'Q'.toUInt8) (psqlWrite_parses (Or.inl rfl))
      (psqlRead_parses (Or.inr rfl)) fun _ _ _ _ => rfl
  · exact numbersAlike_of_parses (psqlUnits_lawful 'Z'.toUInt8) (psqlWrite_parses (Or.inr rfl))
      (psqlRead_parses (Or.inl rfl)) fun _ _ _ _ => rfl
  · exact numbersAlike_of_parses mysqlUnits_lawful (mysqlWrite_parses (Or.inl rfl))
      (mysqlRead_parses (Or.inr rfl)) fun _ _ _ _ => rfl
  · exact numbersAlike_of_parses mysqlUnits_lawful (mysqlWrite_parses (Or.inr rfl))
      (mysqlRead_parses (Or.inl rfl)) fun _ _ _ _ => rfl

/-- A descriptor of a client of MySQL, or of a server, that was just opened. -/
def mysqlAccepted (P : PpDispatcher PpMysqlState) (s : ℤ) : Vfd PpMysqlState :=
  (Vfd.zero ⟨⟨0, 0⟩, ⟨0, 0⟩⟩).accepted P s ⟨⟨0, 0⟩, ⟨0, 0⟩⟩

/-- Two packets, the second with one byte, in three writes. -/
def splitWrites : List (List Byte) := [[0, 0], [0, 0, 1, 0, 0], [1, 7]]

/-- The same packets in two reads of the kernel, the third read is answered from the buffer. -/
def splitReads : List RecvCall :=
  [⟨.read, 100, .give [0, 0, 0, 0]⟩, ⟨.read, 100, .give [1, 0, 0, 1, 7]⟩, ⟨.read, 100, .give []⟩]

theorem splitWrites_fit : WriteFits 5 (mysqlAccepted ppMysqlc 5) splitWrites := by
  refine ⟨by decide, fun v₁ tr₁ h₁ => ⟨?_, fun v₂ tr₂ h₂ => ⟨?_, fun _ _ _ => trivial⟩⟩⟩
  · cases h₁
    decide +kernel
  · cases h₁
    cases h₂
    decide +kernel

theorem both_ends_number_alike_packets : ∃ v₁ tr v₂ gs,
    writeRun 5 (mysqlAccepted ppMysqlc 5) splitWrites = .ok (v₁, tr) ∧
      recvRun 6 (mysqlAccepted ppMysqls 6) splitReads = .ok (v₂, gs) ∧
      handed gs = splitWrites.flatten ∧
      msgIds .ppMsgSend (logs tr) = msgIds .ppMsgRecv (logs (traces gs)) ∧
      v₁.ppData.write = v₂.ppData.read := by
  obtain ⟨v₁, tr, v₂, gs, hwrite, hrecv, halike⟩ := both_ends_number_alike.2.2.1 5 6
    (.zero ⟨⟨0, 0⟩, ⟨0, 0⟩⟩) (.zero ⟨⟨0, 0⟩, ⟨0, 0⟩⟩) ⟨⟨0, 0⟩, ⟨0, 0⟩⟩ ⟨⟨0, 0⟩, ⟨0, 0⟩⟩ splitWrites
    splitReads splitWrites_fit (by decide)
  obtain ⟨q, hq, hbytes⟩ := exists_ok_of_map
    (f := fun q : Vfd PpMysqlState × List (Got PpMysqlState) =>
      (kernelBytes (traces q.2), handed q.2))
    (x := recvRun 6 (mysqlAccepted ppMysqls 6) splitReads)
    (b := (splitWrites.flatten, splitWrites.flatten)) (by decide +kernel)
  cases hrecv.symm.trans hq
  obtain ⟨hkernel, hhanded⟩ := Prod.mk.inj hbytes
  exact ⟨v₁, tr, v₂, gs, hwrite, hrecv, hhanded, halike (hkernel ▸ List.prefix_rfl) hhanded⟩

end BorderPatrol.Trace
