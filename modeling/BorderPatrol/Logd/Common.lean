import BorderPatrol.Logd.Fmt

/-!
# Reading the log

`common.c`: `get_le` reads the log one entry at a time, through a buffer that each `read` fills with
what it has to give. Where the reads cut the log does not matter: `fill` gives the next bytes of the
log, however many reads it takes (`fill_spec`), and `get_le` gives the next entry (`getLe_record`)
or, when less than a header is left, nothing (`getLe_end`). Of a log that is cut off it gives the
whole records, unless the cut is behind a header (`readsWhole_iff`).
-/

namespace BorderPatrol.Logd

open Foundations

/-- `BOK` and `BEOF`. -/
inductive Filled
  | ok | eof
  deriving DecidableEq, Repr

/-- The statics of `common.c`, and what each further `read` gives: an error, the end of the file, or
bytes. When the list ends, so does the file. -/
structure Reader where
  lbBuf : Mem Byte
  lbCur : ℤ
  lbLast : ℤ
  bytesSeen : ℤ
  input : List (Option (List Byte))

/-- The statics before the first read, the buffer holding `buf`, on a log that is read in the pieces
`chunks`. -/
def Reader.start (buf : Mem Byte) (chunks : List (List Byte)) : Reader :=
  ⟨buf, 0, -1, 0, chunks.map some⟩

/-- The loop of `refill`. Without `persist` the end of the file is reported; with it the loop goes
on until there is more. -/
def refillLoop (persist : Bool) (rd : Reader) :
    List (Option (List Byte)) → Except Fault (Filled × Reader)
  | [] => if persist then .error .fuel else .ok (.eof, { rd with input := [] })
  | none :: _ => .error (.exit 1)
  | some b :: input =>
    if b = [] then
      if persist then refillLoop persist rd input else .ok (.eof, { rd with input := input })
    else do
      inBounds (b.length ≤ pipeBuf)
      return (.ok,
        { rd with lbBuf := rd.lbBuf.store 0 b, lbLast := b.length - 1, input := input })

/-- `refill` -/
def refill (persist : Bool) (rd : Reader) : Except Fault (Filled × Reader) :=
  refillLoop persist { rd with lbCur := 0, lbLast := -1 } rd.input

/-- The part of the loop of `fill` that copies what the buffer has: the bytes copied, of the `num`
wanted. -/
def fillCopy (rd : Reader) (num : ℤ) : List Byte × Reader :=
  if rd.lbCur ≤ rd.lbLast then
    let tocopy := min num (rd.lbLast - rd.lbCur + 1)
    (rd.lbBuf.slice rd.lbCur.toNat tocopy.toNat,
      { rd with lbCur := rd.lbCur + tocopy, bytesSeen := toInt (rd.bytesSeen + tocopy) })
  else ([], rd)

/-- The loop of `fill`: how it ended, and the bytes stored. The first argument bounds the rounds. -/
def fillLoop (persist : Bool) : ℕ → Reader → ℤ → Except Fault (Filled × List Byte × Reader)
  | 0, _, _ => .error .fuel
  | n + 1, rd, num =>
    if 0 < num then
      let (out, rd) := fillCopy rd num
      let num := num - out.length
      if 0 < num then do
        let (f, rd) ← refill persist rd
        if f = .eof then return (.eof, out, rd)
        else
          let (f, out', rd) ← fillLoop persist n rd num
          return (f, out ++ out', rd)
      else .ok (.ok, out, rd)
    else .ok (.ok, [], rd)

/-- `fill`, which needs at most one round for each further `read`. -/
def fill (persist : Bool) (rd : Reader) (num : ℤ) : Except Fault (Filled × List Byte × Reader) :=
  fillLoop persist (rd.input.length + 1) rd num

/-- A new block of memory that was filled with `b`. -/
def filled (b : List Byte) : Mem Byte := Mem.store (fun _ => 0) 0 b

/-- `get_le`: the next entry, or a null pointer at the end. -/
def getLe (persist : Bool) (rd : Reader) : Except Fault (Option LogentryThaw × Reader) := do
  -- part 1
  let (f, buf, rd) ← fill persist rd frozenLen
  if f = .eof then return (none, rd)
  else
    let fz := thaw1 (filled buf) 0
    -- part 2
    let sz := toInt (frozenSize fz - frozenLen)
    let (f, buf, rd) ← fill persist rd sz
    cAssert (f ≠ .eof)
    let th ← thaw2 (filled buf) 0 fz sz
    return (some th, rd)

/-- What `n` calls of `get_le` return, one after the other. -/
def getLes (persist : Bool) : ℕ → Reader → Except Fault (List (Option LogentryThaw) × Reader)
  | 0, rd => .ok ([], rd)
  | n + 1, rd => do
    let (le, rd) ← getLe persist rd
    let (les, rd) ← getLes persist n rd
    return (le :: les, rd)

/-! ## What is left to read -/

/-- The bytes that were read and not yet used. -/
def Reader.unused (rd : Reader) : List Byte :=
  rd.lbBuf.slice rd.lbCur.toNat (rd.lbLast - rd.lbCur + 1).toNat

/-- The reader has the bytes `s` still to give, those it has read and those it will read in the
pieces `cs`, none of which is empty or too long for the buffer. -/
structure Reader.Gives (rd : Reader) (s : List Byte) (cs : List (List Byte)) : Prop where
  cur : 0 ≤ rd.lbCur
  last : rd.lbCur ≤ rd.lbLast + 1
  input : rd.input = cs.map some
  pieces : ∀ b ∈ cs, 1 ≤ b.length ∧ b.length ≤ pipeBuf
  bytes : s = rd.unused ++ cs.flatten

variable {rd : Reader} {s : List Byte} {cs : List (List Byte)}

theorem gives_start (buf : Mem Byte) {cs : List (List Byte)}
    (hcs : ∀ b ∈ cs, 1 ≤ b.length ∧ b.length ≤ pipeBuf) :
    (Reader.start buf cs).Gives cs.flatten cs where
  cur := Int.le_refl 0
  last := by simp [Reader.start]
  input := rfl
  pieces := hcs
  bytes := by simp [Reader.unused, Reader.start]

/-- The bytes copied are the next ones: as many as are wanted, or all that were read. -/
theorem fillCopy_spec (h : rd.Gives s cs) {num : ℕ} (hn : 0 < num) :
    ∃ out rd' s', fillCopy rd num = (out, rd') ∧ s = out ++ s' ∧ rd'.Gives s' cs ∧
      (out.length = num ∨ out.length < num ∧ rd'.unused = []) := by
  have hcur := h.cur
  have hlast := h.last
  by_cases hav : rd.lbCur ≤ rd.lbLast
  · obtain ⟨k, hk⟩ : ∃ k : ℕ, min (num : ℤ) (rd.lbLast - rd.lbCur + 1) = k :=
      ⟨(min (num : ℤ) (rd.lbLast - rd.lbCur + 1)).toNat, by omega⟩
    have hsplit : rd.unused = rd.lbBuf.slice rd.lbCur.toNat k ++
        rd.lbBuf.slice (rd.lbCur + k).toNat (rd.lbLast - (rd.lbCur + k) + 1).toNat := by
      rw [Reader.unused, show (rd.lbLast - rd.lbCur + 1).toNat =
        k + (rd.lbLast - (rd.lbCur + k) + 1).toNat by omega, Mem.slice_add]
      congr 2
      omega
    refine ⟨rd.lbBuf.slice rd.lbCur.toNat k,
      { rd with lbCur := rd.lbCur + k, bytesSeen := toInt (rd.bytesSeen + k) },
      rd.lbBuf.slice (rd.lbCur + k).toNat (rd.lbLast - (rd.lbCur + k) + 1).toNat ++ cs.flatten,
      by simp only [fillCopy, hav, if_true, hk, Int.toNat_natCast], ?_, ?_, ?_⟩
    · rw [h.bytes, hsplit, List.append_assoc]
    · exact ⟨by simp only; omega, by simp only; omega, h.input, h.pieces, rfl⟩
    · rw [Mem.length_slice]
      by_cases hle : k = num
      · exact Or.inl hle
      · refine Or.inr ⟨by omega, ?_⟩
        rw [Reader.unused]
        simp only
        rw [show (rd.lbLast - (rd.lbCur + k) + 1).toNat = 0 by omega, Mem.slice_zero]
  · refine ⟨[], rd, s, by simp only [fillCopy, hav, if_false], rfl, h, Or.inr ⟨hn, ?_⟩⟩
    rw [Reader.unused, show (rd.lbLast - rd.lbCur + 1).toNat = 0 by omega, Mem.slice_zero]

/-- The next read gives the next piece. -/
theorem refill_spec {c : List Byte} (h : rd.Gives s (c :: cs)) (hu : rd.unused = []) :
    ∃ rd', refill false rd = .ok (.ok, rd') ∧ rd'.Gives s cs ∧ rd'.input = cs.map some := by
  obtain ⟨h₁, h₂⟩ := h.pieces c (by simp)
  have hne : c ≠ [] := List.ne_nil_of_length_pos (by omega)
  refine ⟨{ rd with
      lbBuf := rd.lbBuf.store 0 c, lbCur := 0, lbLast := c.length - 1, input := cs.map some },
    ?_, ⟨Int.le_refl 0, by simp only; omega, rfl, fun b hb => h.pieces b (by simp [hb]), ?_⟩, rfl⟩
  · simp only [refill, h.input, List.map_cons, refillLoop, hne, if_false, inBounds_of h₂]
    rfl
  · rw [h.bytes, hu, Reader.unused]
    simp only [Int.toNat_zero]
    rw [show ((c.length : ℤ) - 1 - 0 + 1).toNat = c.length by omega, Mem.slice_store_self]
    rfl

theorem refill_eof (h : rd.Gives s []) :
    ∃ rd', refill false rd = .ok (.eof, rd') ∧ rd'.Gives [] [] := by
  refine ⟨{ rd with lbCur := 0, lbLast := -1, input := [] }, ?_, ⟨Int.le_refl 0, ?_, rfl, ?_, ?_⟩⟩
  · simp only [refill, h.input, List.map_nil, refillLoop]
    rfl
  · simp
  · exact fun b hb => absurd hb (by simp)
  · simp [Reader.unused]

/-- `fill` gives the next `num` bytes, if there are so many; else it comes to the end. -/
theorem fillLoop_spec {n : ℕ} (hn : cs.length < n) (h : rd.Gives s cs) (num : ℕ) :
    (num ≤ s.length → ∃ rd' cs', fillLoop false n rd num = .ok (.ok, s.take num, rd') ∧
      rd'.Gives (s.drop num) cs') ∧
    (s.length < num → ∃ out rd', fillLoop false n rd num = .ok (.eof, out, rd') ∧
      rd'.Gives [] []) := by
  induction n generalizing rd s cs num with
  | zero => omega
  | succ n ih =>
    by_cases hpos : 0 < num
    · obtain ⟨out, rd₁, s', hcopy, rfl, h₁, hlen⟩ := fillCopy_spec h hpos
      rw [fillLoop, if_pos (by omega), hcopy]
      simp only
      rcases hlen with rfl | ⟨hlt, hu⟩
      · -- the buffer had enough
        rw [if_neg (by omega), List.take_left, List.drop_left, List.length_append]
        exact ⟨fun _ => ⟨rd₁, cs, rfl, h₁⟩, fun hlt => absurd hlt (by omega)⟩
      · rw [if_pos (by omega)]
        rcases cs with _ | ⟨c, cs⟩
        · -- the file ends
          obtain ⟨rd₂, hre, h₂⟩ := refill_eof h₁
          have hs : s' = [] := by
            rw [h₁.bytes, hu]
            rfl
          rw [hre, ok_bind, hs, List.append_nil]
          exact ⟨fun hle => absurd hle (by omega), fun _ => ⟨out, rd₂, rfl, h₂⟩⟩
        · obtain ⟨rd₂, hre, h₂, -⟩ := refill_spec h₁ hu
          obtain ⟨ih₁, ih₂⟩ := ih (by simp only [List.length_cons] at hn; omega) h₂
            (num - out.length)
          rw [hre, ok_bind, List.length_append]
          simp only [reduceCtorEq, if_false]
          rw [← Nat.cast_sub (by omega)]
          refine ⟨fun hle => ?_, fun hlt' => ?_⟩
          · obtain ⟨rd', cs', hfill, h'⟩ := ih₁ (by omega)
            rw [hfill, ok_bind]
            refine ⟨rd', cs', ?_, ?_⟩
            · rw [List.take_append, List.take_of_length_le (l := out) (by omega)]
              rfl
            · rwa [List.drop_append, List.drop_eq_nil_of_le (by omega), List.nil_append]
          · obtain ⟨out', rd', hfill, h'⟩ := ih₂ (by omega)
            rw [hfill, ok_bind]
            exact ⟨_, rd', rfl, h'⟩
    · obtain rfl : num = 0 := by omega
      rw [fillLoop, if_neg (by omega)]
      exact ⟨fun _ => ⟨rd, cs, rfl, h⟩, fun hlt => absurd hlt (by omega)⟩

theorem fill_spec (h : rd.Gives s cs) (num : ℕ) (hle : num ≤ s.length) :
    ∃ rd' cs', fill false rd num = .ok (.ok, s.take num, rd') ∧ rd'.Gives (s.drop num) cs' :=
  (fillLoop_spec (by rw [h.input, List.length_map]; omega) h num).1 hle

theorem fill_eof (h : rd.Gives s cs) {num : ℕ} (hlt : s.length < num) :
    ∃ out rd', fill false rd num = .ok (.eof, out, rd') ∧ rd'.Gives [] [] :=
  (fillLoop_spec (by rw [h.input, List.length_map]; omega) h num).2 hlt

/-! ## Entries -/

theorem slice_filled {b : List Byte} {n : ℕ} (h : b.length = n) : (filled b).slice 0 n = b :=
  Mem.slice_store_eq _ _ h

/-- **`get_le` reads a record** wherever the reads have cut it. -/
theorem getLe_record {r : Record} (h : rd.Gives (r.bytes ++ s) cs) :
    ∃ rd' cs', getLe false rd = .ok (some r.entry, rd') ∧ rd'.Gives s cs' := by
  have hlen := r.length_bytes
  obtain ⟨rd₁, cs₁, hfill₁, h₁⟩ :=
    fill_spec h frozenLen (by rw [List.length_append]; omega)
  rw [Record.bytes, List.append_assoc, List.take_left' r.fz.length_bytes] at hfill₁
  rw [Record.bytes, List.append_assoc, List.drop_left' r.fz.length_bytes] at h₁
  have hfz : thaw1 (filled r.fz.bytes) 0 = r.fz :=
    (thaw1_eq_iff _ _).2 (slice_filled r.fz.length_bytes)
  have hsz : toInt (frozenSize r.fz - frozenLen) = r.fz.restLen := by
    have := r.wf.restLen_lt
    rw [frozenSize_of_wf r.wf, toInt_of_lt] <;> omega
  obtain ⟨rd₂, cs₂, hfill₂, h₂⟩ :=
    fill_spec h₁ r.fz.restLen (by rw [List.length_append, r.length_rest]; omega)
  rw [List.take_left' r.length_rest] at hfill₂
  rw [List.drop_left' r.length_rest] at h₂
  have hthaw := thaw2_record (slice_filled (r.length_rest))
  refine ⟨rd₂, cs₂, ?_, h₂⟩
  simp only [getLe, hfill₁, ok_bind, reduceCtorEq, if_false, hfz, hsz, hfill₂, hthaw]
  rfl

/-- When less than a header is left there is no entry. -/
theorem getLe_end (h : rd.Gives s cs) (hlt : s.length < frozenLen) :
    ∃ rd', getLe false rd = .ok (none, rd') ∧ rd'.Gives [] [] := by
  obtain ⟨out, rd', hfill, h'⟩ := fill_eof h hlt
  refine ⟨rd', ?_, h'⟩
  simp only [getLe, hfill, ok_bind, if_true]
  rfl

/-- At the end of the file there are no more entries, however often they are asked for. -/
theorem getLes_end (h : rd.Gives [] []) (k : ℕ) :
    ∃ rd', getLes false k rd = .ok (List.replicate k none, rd') := by
  induction k generalizing rd with
  | zero => exact ⟨rd, rfl⟩
  | succ k ih =>
    obtain ⟨rd₁, hle, h₁⟩ := getLe_end h (by simp [frozenLen])
    obtain ⟨rd', hles⟩ := ih h₁
    refine ⟨rd', ?_⟩
    simp only [getLes, hle, hles, ok_bind, List.replicate_succ]
    rfl

/-- When less than a header is left, null pointers are all that is returned. -/
theorem getLes_of_lt (h : rd.Gives s cs) (hlt : s.length < frozenLen) (k : ℕ) :
    ∃ rd', getLes false (k + 1) rd = .ok (List.replicate (k + 1) none, rd') := by
  obtain ⟨rd₁, hle, h₁⟩ := getLe_end h hlt
  obtain ⟨rd', hles⟩ := getLes_end h₁ k
  refine ⟨rd', ?_⟩
  simp only [getLes, hle, hles, ok_bind, List.replicate_succ]
  rfl

/-- The records at the beginning of a log are read one after the other. -/
theorem getLes_append (rs : List Record) (h : rd.Gives (rs.flatMap Record.bytes ++ s) cs) :
    ∃ rd' cs', rd'.Gives s cs' ∧ ∀ m, getLes false (rs.length + m) rd =
      getLes false m rd' >>= fun p => .ok (rs.map (fun r => some r.entry) ++ p.1, p.2) := by
  induction rs generalizing rd cs with
  | nil =>
    refine ⟨rd, cs, h, fun m => ?_⟩
    rw [List.length_nil, Nat.zero_add]
    cases getLes false m rd <;> rfl
  | cons r rs ih =>
    rw [List.flatMap_cons, List.append_assoc] at h
    obtain ⟨rd₁, cs₁, hle, h₁⟩ := getLe_record h
    obtain ⟨rd', cs', h', hles⟩ := ih h₁
    refine ⟨rd', cs', h', fun m => ?_⟩
    rw [List.length_cons, show rs.length + 1 + m = rs.length + m + 1 by omega, getLes, hle,
      ok_bind]
    simp only [hles]
    cases getLes false m rd' <;> rfl

/-- **A log of whole records** reads as their entries, and then as its end. -/
theorem getLes_records (rs : List Record) (h : rd.Gives (rs.flatMap Record.bytes) cs) (k : ℕ) :
    ∃ rd', getLes false (rs.length + (k + 1)) rd =
      .ok (rs.map (fun r => some r.entry) ++ List.replicate (k + 1) none, rd') := by
  rw [← List.append_nil (rs.flatMap Record.bytes)] at h
  obtain ⟨rd₁, cs₁, h₁, hles⟩ := getLes_append rs h
  obtain ⟨rd', hend⟩ := getLes_of_lt h₁ (by simp [frozenLen]) k
  exact ⟨rd', by rw [hles, hend, ok_bind]⟩

/-! ## A log that is cut off -/

/-- The records that are whole in the first `n` bytes of a log. -/
def wholeIn : ℕ → List Record → List Record
  | _, [] => []
  | n, r :: rs => if r.bytes.length ≤ n then r :: wholeIn (n - r.bytes.length) rs else []

/-- The number of the bytes behind them. -/
def leftIn (n : ℕ) (rs : List Record) : ℕ := n - ((wholeIn n rs).flatMap Record.bytes).length

/-- The calls of `get_le` return the records that are whole in the first `n` bytes, and then null
pointers, however many calls there are. -/
def ReadsWhole (rd : Reader) (n : ℕ) (rs : List Record) : Prop :=
  ∀ k, ∃ rd', getLes false ((wholeIn n rs).length + (k + 1)) rd =
    .ok ((wholeIn n rs).map (fun r => some r.entry) ++ List.replicate (k + 1) none, rd')

/-- The beginning of a log is its whole records and a beginning of the next one. -/
theorem exists_left {rs : List Record} (h : s <+: rs.flatMap Record.bytes) :
    ∃ t, s = (wholeIn s.length rs).flatMap Record.bytes ++ t ∧
      (t = [] ∨ ∃ (r : Record) (x : List Byte), t ++ x = r.bytes ∧ x ≠ []) := by
  induction rs generalizing s with
  | nil => exact ⟨s, rfl, .inl (List.prefix_nil.1 h)⟩
  | cons r rs ih =>
    rw [List.flatMap_cons] at h
    by_cases hle : r.bytes.length ≤ s.length
    · obtain ⟨s', rfl⟩ := List.prefix_of_prefix_length_le (List.prefix_append _ _) h hle
      obtain ⟨t, hs', ht⟩ := ih ((List.prefix_append_right_inj _).1 h)
      refine ⟨t, ?_, ht⟩
      rw [wholeIn, if_pos hle, List.length_append, Nat.add_sub_cancel_left, List.flatMap_cons,
        List.append_assoc, ← hs']
    · obtain ⟨x, hx⟩ := List.prefix_of_prefix_length_le h (List.prefix_append _ _) (by omega)
      refine ⟨s, ?_, .inr ⟨r, x, hx, ?_⟩⟩
      · rw [wholeIn, if_neg hle]
        rfl
      · rintro rfl
        rw [List.append_nil] at hx
        exact hle (by rw [hx])

/-- When the log ends behind a header, the rest of its record is missed and an assertion fails. -/
theorem getLe_cut {r : Record} {x : List Byte} (h : rd.Gives s cs) (hs : s ++ x = r.bytes)
    (hx : x ≠ []) (hlen : frozenLen ≤ s.length) : getLe false rd = .error .assertion := by
  obtain ⟨t, rfl⟩ : r.fz.bytes <+: s := by
    have hfz : r.fz.bytes <+: r.bytes := List.prefix_append _ _
    refine List.prefix_of_prefix_length_le hfz ⟨x, hs⟩ ?_
    rwa [r.fz.length_bytes]
  have hrest : t ++ x = r.rest := by
    rw [Record.bytes, List.append_assoc] at hs
    exact List.append_cancel_left hs
  obtain ⟨rd₁, cs₁, hfill₁, h₁⟩ := fill_spec h frozenLen hlen
  rw [List.take_left' r.fz.length_bytes] at hfill₁
  rw [List.drop_left' r.fz.length_bytes] at h₁
  have hfz : thaw1 (filled r.fz.bytes) 0 = r.fz :=
    (thaw1_eq_iff _ _).2 (slice_filled r.fz.length_bytes)
  have hsz : toInt (frozenSize r.fz - frozenLen) = r.fz.restLen := by
    have := r.wf.restLen_lt
    rw [frozenSize_of_wf r.wf, toInt_of_lt] <;> omega
  have hlt : t.length < r.fz.restLen := by
    have hxlen := List.length_pos_iff.2 hx
    rw [← r.length_rest, ← hrest, List.length_append]
    omega
  obtain ⟨out, rd₂, hfill₂, -⟩ := fill_eof h₁ hlt
  simp only [getLe, hfill₁, ok_bind, reduceCtorEq, if_false, hfz, hsz, hfill₂]
  rfl

/-- **A log that is cut off** reads as the records that are whole, and then as its end, if and only
if what is left of the next record is less than a header. -/
theorem readsWhole_iff (rs : List Record) (buf : Mem Byte)
    (hcs : ∀ b ∈ cs, 1 ≤ b.length ∧ b.length ≤ pipeBuf)
    (hcut : cs.flatten <+: rs.flatMap Record.bytes) :
    ReadsWhole (.start buf cs) cs.flatten.length rs ↔
      leftIn cs.flatten.length rs < frozenLen := by
  obtain ⟨t, ht, hnext⟩ := exists_left hcut
  have hleft : leftIn cs.flatten.length rs = t.length := by
    have hlen := congrArg List.length ht
    rw [List.length_append] at hlen
    rw [leftIn]
    omega
  rw [hleft]
  unfold ReadsWhole
  generalize hrs : wholeIn cs.flatten.length rs = whole at ht ⊢
  obtain ⟨rd₁, cs₁, h₁, hles⟩ := getLes_append whole (ht ▸ gives_start buf hcs)
  constructor
  · intro hreads
    by_contra hlt
    rcases hnext with rfl | ⟨r, x, hr, hx⟩
    · exact hlt (by simp [frozenLen])
    · have hf := getLe_cut h₁ hr hx (by omega)
      obtain ⟨rd', hrd'⟩ := hreads 0
      rw [hles, getLes, hf] at hrd'
      cases hrd'
  · intro hlt k
    obtain ⟨rd', hend⟩ := getLes_of_lt h₁ hlt k
    exact ⟨rd', by rw [hles, hend, ok_bind]⟩

theorem length_zeroPadding : ([0, 0, 0, 0] : List UInt8).length = 4 := rfl

/-- A record with a string of one byte. -/
def oneByte : Record where
  fz :=
    { tid := 17, pid := 300, cycleHigh := 100, cycleLow := 7, sc := 3, rv := 0, nm := 97,
      argLen := 0, strLen := 1, padding := ⟨[0, 0, 0, 0], length_zeroPadding⟩ }
  args := []
  str := [120]
  args_le := by decide
  argLen := by decide
  strLen := by decide

/-- The second record is cut off inside its header. -/
theorem readsWhole_iff_oneByte :
    ReadsWhole (.start (fun _ => 0) [oneByte.bytes, oneByte.bytes.take 20])
        [oneByte.bytes, oneByte.bytes.take 20].flatten.length [oneByte, oneByte] ↔
      leftIn [oneByte.bytes, oneByte.bytes.take 20].flatten.length [oneByte, oneByte] < frozenLen :=
  readsWhole_iff [oneByte, oneByte] (fun _ => 0) (by decide +kernel) (by decide +kernel)

/-- **The string is cut off**: an assertion fails. -/
theorem cut_behind_header :
    [oneByte.bytes.take 32].flatten <+: [oneByte].flatMap Record.bytes ∧
      ¬ ReadsWhole (.start (fun _ => 0) [oneByte.bytes.take 32])
        [oneByte.bytes.take 32].flatten.length [oneByte] := by
  refine ⟨by decide +kernel, fun h => ?_⟩
  have hfail : getLes false 1 (.start (fun _ => 0) [oneByte.bytes.take 32]) =
      .error .assertion := rfl
  have hwhole : wholeIn [oneByte.bytes.take 32].flatten.length [oneByte] = [] := by decide +kernel
  obtain ⟨rd', hrd'⟩ := h 0
  rw [hwhole] at hrd'
  cases hfail.symm.trans hrd'

end BorderPatrol.Logd
