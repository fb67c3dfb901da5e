import BorderPatrol.Trace.Protocol.Mysql

/-!
# How `speak_mysql` frames a stream of packets

`get_mysql_size` puts the length of a packet together from bytes of type `char`: one of 128 or more
is negative and sets every bit above it, so that the length read is at least `2 ^ 31`
(`le_getMysqlSize`). A packet whose three length bytes are below 128 leads from between packets to
between packets (`drain_packet`); behind any other, what is read next, if anything is, does not
begin where a packet does (`drain_long`). So a stream is framed, whatever the fragmentation, exactly
when the length bytes of every packet but the last are below 128 (`mysql_frames_iff`).
-/

namespace BorderPatrol.Trace

open Foundations Foundations.Resumable

/-! ## Packets -/

/-- A packet: its number, and its payload behind the length. -/
structure MysqlPacket where
  seq : Byte
  payload : List Byte
  fits : payload.length < 2 ^ 24

/-- The length and the number. -/
def MysqlPacket.head (p : MysqlPacket) : List Byte := toLE 3 p.payload.length ++ [p.seq]

def MysqlPacket.bytes (p : MysqlPacket) : List Byte := p.head ++ p.payload

def mysqlStream (ps : List MysqlPacket) : List Byte := ps.flatMap MysqlPacket.bytes

/-- The bytes of the length are below 128. -/
def MysqlPacket.Short (p : MysqlPacket) : Prop := ∀ b ∈ toLE 3 p.payload.length, b.toNat < 128

/-- The packets of a stream that begins at `o`: where each begins, and its number. -/
def mysqlUnitsAt : ℕ → List MysqlPacket → List (ℕ × ℤ)
  | _, [] => []
  | o, p :: ps => (o, p.seq.toNat) :: mysqlUnitsAt (o + p.bytes.length) ps

/-! ## Feeding -/

/-- A side that has been fed: its state, the bytes it has consumed, the bytes left to be presented
again, and the messages it has reported, each with the offset in the stream it was called at. -/
structure MysqlFed where
  state : PpMysqlStateSide
  off : ℕ
  left : List Byte
  made : List (ℕ × LogCall)

/-- A side that has been fed nothing. -/
def MysqlFed.start : MysqlFed := ⟨⟨0, 0⟩, 0, [], []⟩

/-- Call `speak_mysql` until it asks for more or nothing is left. The first argument bounds the
calls. -/
def pumpMysql (s : ℤ) (role : PpId) (d : PpDirection) : ℕ → MysqlFed → Except Fault MysqlFed
  | 0, _ => .error .fuel
  | n + 1, f =>
    if f.left = [] then .ok f
    else
      let (used, state, l) := speakMysql f.state s f.left f.left.length role d
      let made := f.made ++ (messages l).map fun e => (f.off, e)
      if 0 < used then
        pumpMysql s role d n ⟨state, f.off + used.toNat, f.left.drop used.toNat, made⟩
      else .ok { f with state := state, made := made }

/-- Feed chunk after chunk, what is left being presented again in front of the next. -/
def feedMysql (s : ℤ) (role : PpId) (d : PpDirection) :
    MysqlFed → List (List Byte) → Except Fault MysqlFed
  | f, [] => .ok f
  | f, c :: cs => do
    let left := f.left ++ c
    let f ← pumpMysql s role d (left.length + 1) { f with left := left }
    feedMysql s role d f cs

/-- Every presentation has a length that is an `int`. -/
def FitsInt (s : ℤ) (role : PpId) (d : PpDirection) : MysqlFed → List (List Byte) → Prop
  | _, [] => True
  | f, c :: cs => (f.left ++ c).length < 2 ^ 31 ∧
      ∀ f', pumpMysql s role d ((f.left ++ c).length + 1) { f with left := f.left ++ c } = .ok f' →
        FitsInt s role d f' cs

/-! ## The length of a packet -/

theorem toChar_of_lt {b : Byte} (h : b.toNat < 128) : toChar b = b.toNat := by
  unfold toChar
  rw [Int.bmod_def]
  split <;> omega

theorem toChar_of_le {b : Byte} (h : 128 ≤ b.toNat) : toChar b = b.toNat - 256 := by
  have := b.toNat_lt
  unfold toChar
  rw [Int.bmod_def]
  split <;> omega

theorem toNat_char_of_lt {b : Byte} (h : b.toNat < 128) :
    (BitVec.ofInt 32 (toChar b)).toNat = b.toNat := by
  rw [BitVec.toNat_ofInt, toChar_of_lt h]
  omega

/-- A byte of 128 or more sets the bits above it, up to the last. -/
theorem le_toNat_char_shift {b : Byte} (h : 128 ≤ b.toNat) {k : ℕ}
    (hk : k = 0 ∨ k = 8 ∨ k = 16) : 2 ^ 31 ≤ (BitVec.ofInt 32 (toChar b) <<< k).toNat := by
  have hb := b.toNat_lt
  have hval : (BitVec.ofInt 32 (toChar b)).toNat = 2 ^ 32 - (256 - b.toNat) := by
    rw [BitVec.toNat_ofInt, toChar_of_le h]
    omega
  rw [BitVec.toNat_shiftLeft, hval, Nat.shiftLeft_eq]
  rcases hk with rfl | rfl | rfl <;> omega

/-- Three bytes below 128 are put together right. -/
theorem getMysqlSize_of_lt {m : List Byte} (h₀ : (m.getD 0 0).toNat < 128)
    (h₁ : (m.getD 1 0).toNat < 128) (h₂ : (m.getD 2 0).toNat < 128) :
    getMysqlSize m =
      (m.getD 0 0).toNat + 256 * (m.getD 1 0).toNat + 65536 * (m.getD 2 0).toNat := by
  unfold getMysqlSize
  dsimp only
  rw [BitVec.toNat_or, BitVec.toNat_or, BitVec.toNat_shiftLeft, BitVec.toNat_shiftLeft,
    toNat_char_of_lt h₀, toNat_char_of_lt h₁, toNat_char_of_lt h₂, Nat.shiftLeft_eq,
    Nat.shiftLeft_eq, Nat.mod_eq_of_lt (by omega), Nat.mod_eq_of_lt (by omega)]
  -- no two of them have a bit in common
  have h₁₀ := Nat.two_pow_add_eq_or_of_lt (i := 8) (b := (m.getD 0 0).toNat) (by omega)
    (m.getD 1 0).toNat
  have h₂₁ := Nat.two_pow_add_eq_or_of_lt (i := 16)
    (b := 2 ^ 8 * (m.getD 1 0).toNat + (m.getD 0 0).toNat) (by omega) (m.getD 2 0).toNat
  rw [Nat.or_comm, Nat.or_comm (m.getD 0 0).toNat, Nat.mul_comm _ (2 ^ 8), Nat.mul_comm _ (2 ^ 16),
    ← h₁₀, ← h₂₁]
  omega

/-- A byte of 128 or more makes the length too long by far. -/
theorem le_getMysqlSize {m : List Byte} (h : 128 ≤ (m.getD 0 0).toNat ∨ 128 ≤ (m.getD 1 0).toNat ∨
    128 ≤ (m.getD 2 0).toNat) : 2 ^ 31 ≤ getMysqlSize m := by
  unfold getMysqlSize
  dsimp only
  rw [BitVec.toNat_or, BitVec.toNat_or]
  rcases h with h | h | h
  · have := le_toNat_char_shift h (k := 0) (by simp)
    rw [BitVec.shiftLeft_zero] at this
    exact this.trans (Nat.left_le_or.trans Nat.left_le_or)
  · exact (le_toNat_char_shift h (by simp)).trans (Nat.right_le_or.trans Nat.left_le_or)
  · exact (le_toNat_char_shift h (by simp)).trans Nat.right_le_or

namespace MysqlPacket

variable (p : MysqlPacket)

theorem head_eq : p.head = [UInt8.ofNat p.payload.length, UInt8.ofNat (p.payload.length / 256),
    UInt8.ofNat (p.payload.length / 256 / 256), p.seq] := rfl

@[simp] theorem length_head : p.head.length = 4 := by simp [head]

@[simp] theorem length_bytes : p.bytes.length = 4 + p.payload.length := by simp [bytes]

theorem short_iff : p.Short ↔ (p.head.getD 0 0).toNat < 128 ∧ (p.head.getD 1 0).toNat < 128 ∧
    (p.head.getD 2 0).toNat < 128 := by
  simp [Short, head_eq, toLE]

/-- The length of a packet with short length bytes is read right. -/
theorem getMysqlSize_head (h : p.Short) : getMysqlSize p.head = p.payload.length := by
  have hfits := p.fits
  obtain ⟨h₀, h₁, h₂⟩ := p.short_iff.1 h
  rw [getMysqlSize_of_lt h₀ h₁ h₂, head_eq]
  simp only [List.getD_cons_zero, List.getD_cons_succ, UInt8.toNat_ofNat']
  omega

/-- Any other is read as a length of half the memory and more. -/
theorem le_getMysqlSize_head (h : ¬ p.Short) : 2 ^ 31 ≤ getMysqlSize p.head := by
  rw [short_iff] at h
  exact le_getMysqlSize (by omega)

end MysqlPacket

/-! ## Draining -/

/-- The parser inside `speak_mysql`, keeping the offset. -/
def mysqlAt : Step (PpMysqlStateSide × ℕ) Byte (ℕ × ℤ) := unitStep (Want.located mysqlWant)

theorem mysqlAt_lawful : Lawful mysqlAt :=
  unitStep_lawful (Want.located_coherent mysqlWant_coherent)

section Drain

variable {i : ℤ} {o t : ℕ} {b r : List Byte} {p : MysqlPacket} {ps : List MysqlPacket}

/-- The header of a packet, then what follows it. -/
theorem drain_head (hi : 0 ≤ i ∧ i < 256) (p : MysqlPacket) (o : ℕ) (r : List Byte) :
    drain mysqlAt (⟨0, i⟩, o) (p.bytes ++ r) =
      (drain mysqlAt (⟨getMysqlSize p.head, p.seq.toNat⟩, o + 4) (p.payload ++ r)).after
        [(o, (p.seq.toNat : ℤ))] := by
  have hid : (PpMysqlStateSide.header ⟨0, i⟩ p.head) = ⟨getMysqlSize p.head, p.seq.toNat⟩ := by
    have hseq : p.head.getD 3 0 = p.seq := rfl
    simp only [PpMysqlStateSide.header, hseq, PpMysqlStateSide.mk.injEq, true_and]
    omega
  have hw : Want.located mysqlWant (⟨0, i⟩, o) = .whole 4 fun b =>
      ((PpMysqlStateSide.header ⟨0, i⟩ b, o + 4), [(o, (PpMysqlStateSide.header ⟨0, i⟩ b).id)]) :=
    rfl
  rw [MysqlPacket.bytes, List.append_assoc, mysqlAt,
    drain_whole (Want.located_coherent mysqlWant_coherent) hw p.length_head, hid]

theorem located_skip (ht : 0 < t) : Want.located mysqlWant (⟨t, i⟩, o) =
    .skip t fun n => (⟨t - n, i⟩, o + n) := by
  simp only [Want.located, mysqlWant, if_pos ht]

/-- The bytes of a payload, then what follows them. -/
theorem drain_payload (hb : b.length = t) : drain mysqlAt (⟨t, i⟩, o) (b ++ r) =
    drain mysqlAt (⟨0, i⟩, o + t) r := by
  rcases t with _ | t
  · rw [List.eq_nil_of_length_eq_zero hb]
    rfl
  · rw [mysqlAt, drain_skip (Want.located_coherent mysqlWant_coherent)
      (located_skip (Nat.succ_pos t)) hb, Nat.sub_self]

/-- **A packet with short length bytes** leads from between packets to between packets. -/
theorem drain_packet (hi : 0 ≤ i ∧ i < 256) (hp : p.Short) (o : ℕ) (r : List Byte) :
    drain mysqlAt (⟨0, i⟩, o) (p.bytes ++ r) =
      (drain mysqlAt (⟨0, p.seq.toNat⟩, o + p.bytes.length) r).after
        [(o, (p.seq.toNat : ℤ))] := by
  rw [drain_head hi, p.getMysqlSize_head hp, drain_payload rfl, p.length_bytes, Nat.add_assoc]

/-- While bytes are to be skipped, nothing is read before their end. -/
theorem drain_skipping (b : List Byte) :
    (b.length ≤ t → (drain mysqlAt (⟨t, i⟩, o) b).rest = []) ∧
      ∀ e ∈ (drain mysqlAt (⟨t, i⟩, o) b).out, o + t ≤ e.1 := by
  by_cases hb : b.length < t
  · by_cases hne : b = []
    · subst hne
      exact ⟨fun _ => rfl, fun e he => absurd he List.not_mem_nil⟩
    have hstep := unitStep_skip (located_skip (i := i) (o := o) (t := t) (by omega)) b
    rw [Nat.min_eq_left hb.le] at hstep
    rw [drain_of_some mysqlAt_lawful hne hstep, List.drop_length]
    exact ⟨fun _ => rfl, fun e he => absurd he List.not_mem_nil⟩
  · have hcut := drain_payload (i := i) (o := o) (b := b.take t) (r := b.drop t) (t := t)
      (by rw [List.length_take]; omega)
    rw [List.take_append_drop] at hcut
    rw [hcut]
    refine ⟨fun hle => ?_, drain_located_ge mysqlWant_coherent _ _ _⟩
    rw [List.drop_eq_nil_of_le hle, drain_nil]

/-- **Any other packet**: what is read behind it, if anything is, is read too late. -/
theorem drain_long (hi : 0 ≤ i ∧ i < 256) (hp : ¬ p.Short) (o : ℕ) (r : List Byte) :
    ∃ out, (drain mysqlAt (⟨0, i⟩, o) (p.bytes ++ r)).out = (o, (p.seq.toNat : ℤ)) :: out ∧
      (∀ e ∈ out, o + p.bytes.length < e.1) ∧
      (r = [] → (drain mysqlAt (⟨0, i⟩, o) (p.bytes ++ r)).rest = [] ∧ out = []) := by
  have hsize := p.le_getMysqlSize_head hp
  have hfits := p.fits
  obtain ⟨hrest, hout⟩ := drain_skipping (i := p.seq.toNat) (o := o + 4) (t := getMysqlSize p.head)
    (p.payload ++ r)
  rw [drain_head hi]
  refine ⟨_, rfl, fun e he => ?_, fun hr => ?_⟩
  · have := hout e he
    rw [p.length_bytes]
    omega
  · subst hr
    rw [List.append_nil] at hrest hout ⊢
    refine ⟨hrest (by omega), ?_⟩
    have hstep := unitStep_skip (located_skip (i := p.seq.toNat) (o := o + 4)
      (t := getMysqlSize p.head) (by omega)) p.payload
    by_cases hne : p.payload = []
    · rw [hne]
      rfl
    · rw [Nat.min_eq_left (by omega)] at hstep
      rw [drain_of_some mysqlAt_lawful hne hstep, List.drop_length]
      rfl

/-- **The stream** is consumed and its packets are read where they begin, in order, exactly when
the length bytes of every packet but the last are short. -/
theorem drain_stream_iff (ps : List MysqlPacket) (hi : 0 ≤ i ∧ i < 256) (o : ℕ) :
    (drain mysqlAt (⟨0, i⟩, o) (mysqlStream ps)).rest = [] ∧
        (drain mysqlAt (⟨0, i⟩, o) (mysqlStream ps)).out = mysqlUnitsAt o ps ↔
      ∀ p ∈ ps.dropLast, p.Short := by
  induction ps generalizing i o with
  | nil => exact iff_of_true ⟨rfl, rfl⟩ fun p hp => absurd hp List.not_mem_nil
  | cons p ps ih =>
    have hcons : mysqlStream (p :: ps) = p.bytes ++ mysqlStream ps := rfl
    rw [hcons, mysqlUnitsAt]
    by_cases hp : p.Short
    · have hseq : (0 : ℤ) ≤ p.seq.toNat ∧ (p.seq.toNat : ℤ) < 256 := by
        have := p.seq.toNat_lt
        omega
      have hih := ih hseq (o + p.bytes.length)
      rw [drain_packet hi hp, Result.after_rest, Result.after_out, List.singleton_append,
        List.cons.injEq, eq_self_iff_true, true_and, hih]
      rcases ps with _ | ⟨q, ps⟩
      · simp
      · simp [hp]
    · obtain ⟨out, hout, hlate, hlast⟩ := drain_long hi hp o (mysqlStream ps)
      rw [hout, List.cons.injEq, eq_self_iff_true, true_and]
      rcases ps with _ | ⟨q, ps⟩
      · obtain ⟨hrest, rfl⟩ := hlast rfl
        exact iff_of_true ⟨hrest, rfl⟩ fun p hp => absurd hp List.not_mem_nil
      · refine iff_of_false ?_ fun h => hp (h p (by simp))
        rintro ⟨-, rfl⟩
        exact absurd (hlate _ List.mem_cons_self) (Nat.lt_irrefl _)

end Drain

/-! ## Feeding is draining -/

section Feeding

variable {s : ℤ} {role : PpId} {d : PpDirection}

/-- What is reported where units begin. -/
def mysqlMade (role : PpId) (d : PpDirection) (s : ℤ) (out : List (ℕ × ℤ)) : List (ℕ × LogCall) :=
  out.map fun e => (e.1, mysqlMsg role d s e.2)

/-- The side `f` once the parser has come to `r`. -/
def MysqlFed.drained (role : PpId) (d : PpDirection) (s : ℤ) (f : MysqlFed)
    (r : Result (PpMysqlStateSide × ℕ) Byte (ℕ × ℤ)) : MysqlFed :=
  ⟨r.state.1, r.state.2, r.rest, f.made ++ mysqlMade role d s r.out⟩

theorem mysqlWant_ne_sink (state : PpMysqlStateSide) : mysqlWant state ≠ .sink := by
  unfold mysqlWant
  split <;> simp

/-- One chunk. -/
theorem pumpMysql_eq (hr : role = .mysqlc ∨ role = .mysqls) {n : ℕ} {f : MysqlFed}
    (hn : f.left.length < n) (hint : f.left.length < 2 ^ 31) : pumpMysql s role d n f =
      .ok (f.drained role d s (drain mysqlAt (f.state, f.off) f.left)) := by
  induction n generalizing f with
  | zero => omega
  | succ n ih =>
    rw [pumpMysql]
    by_cases hl : f.left = []
    · obtain ⟨state, off, left, made⟩ := f
      simp only at hl
      subst hl
      simp [MysqlFed.drained, mysqlMade]
    rw [if_neg hl]
    have hat := unitStep_located (o := f.off) f.left (mysqlWant_ne_sink f.state)
    change mysqlAt _ _ = (mysqlUnits _ _).map _ at hat
    have hspec := @speakMysql_spec f.state s f.left f.left.length role d hr (Nat.le_refl _) hint
    rw [List.take_length] at hspec
    rcases hcall : speakMysql f.state s f.left f.left.length role d with ⟨used, state, l⟩
    rw [hcall] at hspec
    dsimp only at hspec ⊢
    rcases hspec with ⟨hneg, hnone, rfl, hmsg⟩ | ⟨k, ids, rfl, hsome, hmsg⟩
    · rw [hnone] at hat
      rw [if_neg (by omega), drain_of_none hat, hmsg]
      simp [MysqlFed.drained, mysqlMade]
    · rw [hsome] at hat
      have hk := mysqlUnits_lawful.bounds hl hsome
      rw [if_pos (by omega), drain_of_some mysqlAt_lawful hl hat, Int.toNat_natCast, ih
        (by simp only [List.length_drop]; omega) (by simp only [List.length_drop]; omega), hmsg]
      simp [MysqlFed.drained, mysqlMade, Function.comp_def]

/-- **Feeding chunks** is draining their concatenation. -/
theorem feedMysql_eq (hr : role = .mysqlc ∨ role = .mysqls) {cs : List (List Byte)} {f : MysqlFed}
    (hleft : drain mysqlAt (f.state, f.off) f.left = ⟨(f.state, f.off), f.left, []⟩)
    (hint : FitsInt s role d f cs) : feedMysql s role d f cs =
      .ok (f.drained role d s (drain mysqlAt (f.state, f.off) (f.left ++ cs.flatten))) := by
  induction cs generalizing f with
  | nil =>
    rw [List.flatten_nil, List.append_nil, hleft]
    simp [feedMysql, MysqlFed.drained, mysqlMade]
  | cons c cs ih =>
    have hpump := pumpMysql_eq (s := s) (d := d) hr (f := { f with left := f.left ++ c })
      (Nat.lt_succ_self _) hint.1
    rw [feedMysql, hpump, ok_bind, ih (drain_drain mysqlAt_lawful _ _) (hint.2 _ hpump),
      List.flatten_cons, ← List.append_assoc, drain_append mysqlAt_lawful _ (f.left ++ c)]
    simp [MysqlFed.drained, mysqlMade]

/-- `speak_mysql`, fed the stream `ps` in the chunks `cs`, consumes exactly the stream and reports
one message for each packet, called at the packet, in order and with the packet's number. -/
def MysqlFramed (s : ℤ) (role : PpId) (d : PpDirection) (ps : List MysqlPacket)
    (cs : List (List Byte)) : Prop :=
  ∃ f, feedMysql s role d .start cs = .ok f ∧ f.left = [] ∧ f.off = (mysqlStream ps).length ∧
    f.made = mysqlMade role d s (mysqlUnitsAt 0 ps)

theorem mysqlMade_injective (role : PpId) (d : PpDirection) (s : ℤ) :
    Function.Injective (mysqlMade role d s) := by
  refine List.map_injective_iff.2 ?_
  rintro ⟨o, i⟩ ⟨o', i'⟩ h
  simpa [mysqlMsg, logbinIiis] using h

/-- **How `speak_mysql` frames**: for every stream of packets and every way of feeding it in chunks,
the stream is framed if and only if the length bytes of every packet but the last are below 128. -/
theorem mysql_frames_iff (hr : role = .mysqlc ∨ role = .mysqls) (s : ℤ) (d : PpDirection)
    (ps : List MysqlPacket) (cs : List (List Byte)) (hcs : cs.flatten = mysqlStream ps)
    (hint : FitsInt s role d .start cs) :
    MysqlFramed s role d ps cs ↔ ∀ p ∈ ps.dropLast, p.Short := by
  have hfeed := feedMysql_eq (f := .start) hr rfl hint
  have hstart : MysqlFed.start.left ++ cs.flatten = mysqlStream ps := hcs
  rw [hstart] at hfeed
  rw [← drain_stream_iff ps (i := 0) (by decide) 0, MysqlFramed, hfeed]
  constructor
  · rintro ⟨f, hf, hleft, -, hmade⟩
    cases hf
    exact ⟨hleft, mysqlMade_injective role d s hmade⟩
  · rintro ⟨hrest, hout⟩
    have hoff := drain_located_off mysqlWant_coherent mysqlWant_ne_sink ⟨0, 0⟩ 0 (mysqlStream ps)
    change (drain mysqlAt _ _).state.2 + (drain mysqlAt _ _).rest.length = _ at hoff
    rw [hrest, List.length_nil, Nat.add_zero, Nat.zero_add] at hoff
    refine ⟨_, rfl, hrest, hoff, ?_⟩
    change [] ++ mysqlMade role d s _ = _
    rw [List.nil_append, ← hout]
    rfl

end Feeding

/-- A packet whose length does not fit in seven bits, and another. -/
def longThenShort : List MysqlPacket :=
  [⟨0, List.replicate 128 0, by rw [List.length_replicate]; omega⟩, ⟨1, [14], by decide⟩]

/-- The bytes of both in one chunk fit. -/
theorem longThenShort_fits : FitsInt 5 .mysqls .read .start [mysqlStream longThenShort] :=
  ⟨by decide +kernel, fun _ _ => trivial⟩

theorem mysql_frames_iff_longThenShort :
    MysqlFramed 5 .mysqls .read longThenShort [mysqlStream longThenShort] ↔
      ∀ p ∈ longThenShort.dropLast, p.Short :=
  mysql_frames_iff (Or.inr rfl) 5 .read longThenShort [mysqlStream longThenShort] (by simp)
    longThenShort_fits

/-- Behind a packet of 128 bytes the next is swallowed. -/
theorem long_packet_swallows :
    [mysqlStream longThenShort].flatten = mysqlStream longThenShort ∧
      FitsInt 5 .mysqls .read .start [mysqlStream longThenShort] ∧
      ¬ MysqlFramed 5 .mysqls .read longThenShort [mysqlStream longThenShort] := by
  refine ⟨by simp, longThenShort_fits, ?_⟩
  rintro ⟨f, hf, -, -, hmade⟩
  have hcount : (feedMysql 5 .mysqls .read .start [mysqlStream longThenShort]).toOption.map
      (·.made.length) = some 1 := by
    decide +kernel
  rw [hf] at hcount
  have hone : f.made.length = 1 := Option.some.inj hcount
  rw [hmade] at hone
  exact absurd hone (by decide)

end BorderPatrol.Trace
