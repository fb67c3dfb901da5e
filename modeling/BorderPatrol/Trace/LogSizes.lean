import BorderPatrol.Logd.Binlog
import BorderPatrol.Trace.Capacity
import BorderPatrol.Trace.Contract
import BorderPatrol.Trace.HttpsWrites
import BorderPatrol.Trace.WritePath

/-!
# The sizes of log calls

`lb_alloc_bytes` ends the process that logs an entry larger than the log buffer. Most log calls of
the processors have short strings (`fits_of_short`): a name, a formatted line, a token of a status,
of which no more than 1024 bytes are copied. Not so a query, the head of a request and its first
three words, and the parameters of a request, which are logged as long as they come
(`logs_fit_iff`).
-/

namespace BorderPatrol.Trace

open Foundations

/-! ## Entries -/

/-- The bytes that `LOGBIN_gen` asks `lb_alloc_entry` for. -/
def LogCall.size (e : LogCall) : ℤ := Logd.predictSize e.args.length (toInt e.str.length)

/-- The entry fits in the log buffer, and allocating it does not end the process. -/
def LogCall.Fits (e : LogCall) : Prop :=
  e.size ≤ Logd.pipeBuf ∧ ∀ (w : Logd.Writes) (ctx : Logd.ThreadCtx), w.Moves → ctx.InBuffer →
    Logd.lbAllocEntry w ctx e.args.length (toInt e.str.length) ≠ .error (.exit 1)

/-- An allocation that fits in the buffer goes through. -/
theorem LogCall.fits_iff_size {e : LogCall} : e.Fits ↔ e.size ≤ Logd.pipeBuf := by
  refine and_iff_left_of_imp fun hsize w ctx hw hctx => ?_
  have hle : ¬ (Logd.pipeBuf : ℤ) < Logd.predictSize e.args.length (toInt e.str.length) :=
    not_lt.2 hsize
  rw [Logd.lbAllocEntry, Logd.lbAllocBytes, if_neg hle]
  split
  · rw [Logd.lbFlush_spec hw hctx, ok_bind]
    intro h
    cases h
  · intro h
    cases h

/-- An entry with at most three arguments fits if and only if its string does. -/
theorem LogCall.fits_iff {e : LogCall} (ha : e.args.length ≤ 3) (hs : e.str.length ≤ 2 ^ 31 - 64) :
    e.Fits ↔ 4 * e.args.length + e.str.length ≤ 4064 := by
  have hlen : Logd.frozenLen = 32 := rfl
  have hsize : e.size = 32 + e.args.length * 4 + e.str.length := by
    rw [size, Logd.predictSize, toInt_natCast_lt (by omega), hlen]
    exact toInt_of_lt (by omega) (by omega)
  rw [fits_iff_size, hsize, show Logd.pipeBuf = 4096 from rfl]
  omega

theorem fits_of_short {e : LogCall} (ha : e.args.length ≤ 3) (hs : e.str.length ≤ 4000) :
    e.Fits := by
  rw [LogCall.fits_iff ha (hs.trans (by decide))]
  omega

/-- A string alone. -/
theorem fits_logbinS {sc : Sc} {rv : ℤ} {t : List Byte} (ht : t.length ≤ 2 ^ 31 - 64) :
    (logbinS sc rv t).Fits ↔ t.length ≤ 4064 := by
  rw [LogCall.fits_iff (e := logbinS sc rv t) (Nat.zero_le 3) ht]
  simp [logbinS]

/-- A string behind its name. -/
theorem fits_logbinSs {sc : Sc} {rv : ℤ} {n t : List Byte} (hn : n.length ≤ 20)
    (ht : t.length ≤ 2 ^ 31 - 128) : (logbinSs sc rv n t).Fits ↔ n.length + t.length ≤ 4061 := by
  have hlen : (n ++ ascii "=-=" ++ t).length = n.length + 3 + t.length := by
    rw [List.length_append, List.length_append]
    rfl
  rw [logbinSs, fits_logbinS (by omega), hlen]
  omega

/-- The event of a message, with the name of the processor. -/
theorem fits_message {sc : Sc} {rv r s i : ℤ} {n : List Byte} (hn : n.length ≤ 20) :
    (logbinIiis sc rv r s i n).Fits :=
  fits_of_short (Nat.le_refl 3) (hn.trans (by decide))

theorem length_cstr_le (m : List Byte) : (cstr m).length ≤ m.length :=
  (List.takeWhile_prefix _).length_le

/-- The most bytes there are from a buffer pointer on. -/
def windowMax : ℕ := vbufsize + 4

/-- A text that goes on in memory that is not initialised: an `int` counts it, if that memory has a
zero in its first 2^30 bytes. -/
theorem length_cstr_append {b y : List Byte} (hb : b.length ≤ windowMax)
    (hy : (cstr y).length ≤ 2 ^ 30) : (cstr (b ++ y)).length ≤ 2 ^ 31 - 256 := by
  have hmax : windowMax = 65540 := rfl
  have hb' := length_cstr_le b
  rw [cstr] at hb' hy ⊢
  rw [List.takeWhile_append]
  split
  · rw [List.length_append]
    omega
  · omega

/-! ## PostgreSQL -/

/-- When a query is complete at the end of the memory shown, its text is short enough. -/
def PpPsqlStateSide.QueryFits (state : PpPsqlStateSide) (m : List Byte) (len : ℕ) : Prop :=
  0 < state.todo → state.type = 'Q'.toUInt8 → state.todo ≤ len → (cstr m).length ≤ 4056

theorem speakPsql_fits {state : PpPsqlStateSide} {s : ℤ} {m : List Byte} {len : ℕ} {role : PpId}
    {dir : PpDirection} (hm : m.length ≤ windowMax) :
    (∀ e ∈ (speakPsql state s m len role dir).2.2, e.Fits) ↔ state.QueryFits m len := by
  unfold speakPsql PpPsqlStateSide.QueryFits
  by_cases ht : 0 < state.todo
  · rw [if_pos ht]
    by_cases hQ : state.type = 'Q'.toUInt8
    · by_cases hlen : len < state.todo
      · rw [if_pos ⟨hQ, hlen⟩]
        exact iff_of_true (by simp) fun _ _ hle => absurd hle (by omega)
      · have hfits : (logbinSs .ppProp 0 (ascii "QUERY") (cstr m)).Fits ↔ _ :=
          fits_logbinSs (by decide) ((length_cstr_le m).trans (hm.trans (by decide)))
        rw [if_neg (fun h => hlen h.2), if_pos hQ, List.forall_mem_singleton, hfits]
        have hn : (ascii "QUERY").length = 5 := rfl
        constructor
        · intro h _ _ _
          omega
        · intro h
          have := h ht hQ (by omega)
          omega
    · rw [if_neg (fun h => hQ h.1), if_neg hQ]
      exact iff_of_true (by simp) fun _ h => absurd h hQ
  · rw [if_neg ht]
    have hdata : ∀ text, (logbinS .ppData 0 (snprintf 67 text)).Fits := by
      intro text
      refine fits_of_short (Nat.zero_le 3) ((length_cstr_le _).trans ?_)
      rw [List.length_take]
      omega
    have hname : (ascii "psqlc").length ≤ 20 ∧ (ascii "psqls").length ≤ 20 := by decide
    refine iff_of_true ?_ fun h => absurd h ht
    dsimp only
    split_ifs <;>
      simp only [List.forall_mem_cons, List.not_mem_nil, false_imp_iff, implies_true, and_true,
        hdata, fits_message hname.1, fits_message hname.2]

/-! ## FastCGI -/

/-- What a call of a processor has logged, when one that fails does so before it logs anything. -/
def loggedBy {σ : Type} (r : Except Fault (ℤ × σ × List LogCall)) : List LogCall :=
  match r with
  | .ok r => r.2.2
  | .error _ => []

/-- The text of the parameters that `speak_fcgi` logs. -/
def PpFcgiState.paramsText (junk : PpFcgiState → List Byte) (state : PpFcgiState)
    (cbuf : List Byte) (len : ℤ) : List Byte :=
  cstr ((cbuf.drop 2).take (min (state.conlen - 2) len).toNat ++ junk state)

/-- When the parameters of a request are complete, and there is room for their copy, their text is
short enough. -/
def PpFcgiState.ParamsFit (junk : PpFcgiState → List Byte) (state : PpFcgiState)
    (cbuf : List Byte) (len : ℤ) : Prop :=
  state.done = 0 → state.success ≠ 0 → 0 < state.body → state.body ≤ len →
    state.streamType.isSome → 2 ≤ state.conlen → state.conlen ≤ 1026 →
      (state.paramsText junk cbuf len).length ≤ 4054

/-- The only type of stream whose content is logged. -/
def PpFcgiState.Typed (state : PpFcgiState) : Prop :=
  ∀ t ∈ state.streamType, t = ascii "PARAMS:"

theorem length_typeOfRecord_le (n : ℕ) : (typeOfRecord n).length ≤ 25 := by
  unfold typeOfRecord
  split <;> decide

theorem fcgiHeaderLog_fits (m : List Byte) (s : ℤ) (role : PpId) (d : PpDirection) :
    ∀ e ∈ fcgiHeaderLog m s role d, e.Fits := by
  have hname : (ascii (if role = .fcgis then "fcgis" else "fcgic")).length ≤ 20 := by
    split <;> decide
  rw [fcgiHeaderLog, List.forall_mem_cons]
  constructor
  · exact fits_of_short (Nat.zero_le 3) ((length_typeOfRecord_le _).trans (by decide))
  · split
    · rw [List.forall_mem_singleton]
      exact fits_message hname
    · simp

theorem speakFcgi_fits {junk : PpFcgiState → List Byte} {state : PpFcgiState} (s : ℤ)
    {cbuf : List Byte} {len : ℤ} (role : PpId) (d : PpDirection)
    (hj : ∀ st, (cstr (junk st)).length ≤ 2 ^ 30) (hm : cbuf.length ≤ windowMax)
    (ht : state.Typed) :
    (∀ e ∈ loggedBy (speakFcgi junk state s cbuf len role d), e.Fits) ↔
      state.ParamsFit junk cbuf len := by
  have hnil : (∀ e ∈ ([] : List LogCall), e.Fits) := by simp
  unfold speakFcgi PpFcgiState.ParamsFit
  by_cases hd : state.done = 0
  swap
  · rw [if_pos hd]
    exact iff_of_true hnil fun h => absurd h hd
  rw [if_neg (not_not.2 hd)]
  by_cases hs : state.success = 0
  · rw [if_pos hs]
    refine iff_of_true ?_ fun _ h => absurd hs h
    split
    · exact hnil
    · exact fcgiHeaderLog_fits cbuf s role d
  rw [if_neg hs]
  dsimp only
  by_cases hbody : 0 < state.body
  swap
  · rw [cAssert, if_neg hbody]
    exact iff_of_true hnil fun _ _ h => absurd h hbody
  rw [cAssert_of hbody, ok_bind]
  by_cases hle : state.body ≤ len
  swap
  · rw [if_neg hle]
    exact iff_of_true hnil fun _ _ _ h => absurd h hle
  rw [if_pos hle]
  rcases htype : state.streamType with _ | t
  · exact iff_of_true hnil fun _ _ _ _ h => absurd h (by simp)
  obtain rfl := ht t htype
  by_cases hroom : 0 ≤ state.conlen - 2 ∧ state.conlen - 2 ≤ 1024
  · have htext : (state.paramsText junk cbuf len).length ≤ 2 ^ 31 - 128 := by
      rw [PpFcgiState.paramsText]
      refine (length_cstr_append ?_ (hj state)).trans (by decide)
      rw [List.length_take, List.length_drop]
      omega
    have hfits : (logbinSs .ppProp 0 (ascii "PARAMS:") (state.paramsText junk cbuf len)).Fits ↔ _ :=
      fits_logbinSs (by decide) htext
    rw [show (ascii "PARAMS:").length = 7 from rfl] at hfits
    dsimp only
    rw [inBounds_of hroom, ok_bind]
    change (∀ e ∈ [logbinSs .ppProp 0 (ascii "PARAMS:") (state.paramsText junk cbuf len)],
      e.Fits) ↔ _
    rw [List.forall_mem_singleton, hfits]
    constructor
    · intro h _ _ _ _ _ _ _
      omega
    · intro h
      have := h hd hs hbody hle rfl (by omega) (by omega)
      omega
  · dsimp only
    rw [inBounds, if_neg hroom]
    exact iff_of_true hnil fun _ _ _ _ _ h₁ h₂ => absurd ⟨by omega, by omega⟩ hroom

section Sides

variable {junk : PpFcgiState → List Byte} {role : PpId} {s : ℤ} {m : List Byte} {n : ℤ}

/-- What `speak_fcgi` leaves logs nothing else. -/
theorem speakFcgi_typed {state : PpFcgiState} {dir : PpDirection} (h : state.Typed) :
    Post (speakFcgi junk state s m n role dir) (fun r => r.2.1.Typed) AnyFault := by
  unfold speakFcgi
  split
  · exact h
  split
  · split
    · exact h
    · intro t ht
      dsimp only [PpFcgiState.header] at ht
      split at ht
      · exact (Option.some.inj ht).symm
      · exact h t ht
  · refine (anyFault_post _).bind fun _ _ => ?_
    dsimp only
    split
    · have hfinish : state.finish.Typed := fun t ht => by cases ht
      split
      · exact hfinish
      · exact (anyFault_post _).bind fun _ _ => hfinish
    · exact h

theorem fcgiRead_fits (hj : ∀ st, (cstr (junk st)).length ≤ 2 ^ 30) (hm : m.length ≤ windowMax)
    {d : PpFcgiStateWrap} (ht : d.read.Typed) :
    (∀ e ∈ loggedBy (fcgiRead junk role d s m n), e.Fits) ↔ d.read.ParamsFit junk m n := by
  rw [← speakFcgi_fits s role .read hj hm ht, fcgiRead]
  rcases speakFcgi junk d.read s m n role .read with e | r
  · rfl
  · rfl

theorem fcgiWrite_fits (hj : ∀ st, (cstr (junk st)).length ≤ 2 ^ 30) (hm : m.length ≤ windowMax)
    {d : PpFcgiStateWrap} (ht : d.write.Typed) :
    (∀ e ∈ loggedBy (fcgiWrite junk role d s m n), e.Fits) ↔ d.write.ParamsFit junk m n := by
  rw [← speakFcgi_fits s role .write hj hm ht, fcgiWrite]
  rcases speakFcgi junk d.write s m n role .write with e | r
  · rfl
  · rfl

theorem fcgiRead_typed {d : PpFcgiStateWrap} (h : ∀ dir, (d.side dir).Typed) :
    Post (fcgiRead junk role d s m n) (fun r => ∀ dir, (r.2.1.side dir).Typed) AnyFault := by
  refine (speakFcgi_typed (h .read)).bind fun r hr dir => ?_
  cases dir with
  | read => exact hr
  | write => exact h .write

theorem fcgiWrite_typed {d : PpFcgiStateWrap} (h : ∀ dir, (d.side dir).Typed) :
    Post (fcgiWrite junk role d s m n) (fun r => ∀ dir, (r.2.1.side dir).Typed) AnyFault := by
  refine (speakFcgi_typed (h .write)).bind fun r hr dir => ?_
  cases dir with
  | read => exact h .read
  | write => exact hr

end Sides

/-! ## The head of a request -/

/-- The first three words of a request, each with what is behind it. -/
def methodOf (tmp : List Byte) : Option (List Byte × List Byte) := strtok headerDelim tmp

def urlOf (tmp : List Byte) : Option (List Byte × List Byte) :=
  (methodOf tmp).bind fun t => strtok headerDelim t.2

def versionOf (tmp : List Byte) : Option (List Byte × List Byte) :=
  (urlOf tmp).bind fun t => strtok headerDelim t.2

/-- What is logged of a word. -/
def wordOrNull : Option (List Byte × List Byte) → List Byte
  | some t => t.1
  | none => ascii "null"

/-- The log calls of the header branch of `pp_https_read`. They come before its null pointer and its
assertion. -/
def headerLogs (heap : ℤ → List Byte) (state : PpHttpStateRead) (s : ℤ) (cbuf : List Byte)
    (len : ℤ) : List LogCall :=
  let tmp := cstr (cbuf.take len.toNat ++ heap state.seqno)
  [logbinIiis .ppMsgRecv 0 (PpId.num .https) s state.seqno (ascii "https"),
    logbinS .httpsRead len tmp,
    logbinSs .ppProp 0 (ascii "METHOD") (wordOrNull (methodOf tmp)),
    logbinSs .ppProp 0 (ascii "URL") (wordOrNull (urlOf tmp)),
    logbinSs .ppProp 0 (ascii "VERSION") (wordOrNull (versionOf tmp))]

theorem httpsHeader_logs {heap : ℤ → List Byte} {state : PpHttpStateRead} {s : ℤ}
    {cbuf : List Byte} {len : ℤ} {stop : ℕ} :
    Post (httpsHeader heap state s cbuf len stop)
      (fun r => r.2.2 = headerLogs heap state s cbuf len) AnyFault := by
  unfold httpsHeader headerLogs versionOf urlOf methodOf
  dsimp only
  split
  · trivial
  · next version rest h =>
    obtain ⟨url, hurl, -⟩ := Option.bind_eq_some_iff.1 h
    obtain ⟨meth, hmeth, -⟩ := Option.bind_eq_some_iff.1 hurl
    rw [h, hurl, hmeth]
    split
    · rfl
    · split
      · rfl
      · trivial

/-- The log calls of `pp_https_read`. -/
def httpsReadLogs (heap : ℤ → List Byte) (data : PpHttpState) (s : ℤ) (cbuf : List Byte)
    (len : ℤ) : List LogCall :=
  if data.read.done = 0 ∧ data.read.awaitHeader ≠ 0 ∧ (strstr headerEnd cbuf).isSome then
    headerLogs heap data.read s cbuf len
  else []

theorem ppHttpsRead_logs {heap : ℤ → List Byte} {data : PpHttpState} {s : ℤ} {cbuf : List Byte}
    {len : ℤ} : Post (ppHttpsRead heap data s cbuf len)
      (fun r => r.2.2 = httpsReadLogs heap data s cbuf len) AnyFault := by
  unfold httpsReadLogs
  by_cases hd : data.read.done = 0
  swap
  · rw [ppHttpsRead_done hd, if_neg fun h => hd h.1]
    rfl
  by_cases ha : data.read.awaitHeader = 0
  · rw [ppHttpsRead_idle hd ha, if_neg fun h => h.2.1 ha]
    exact (anyFault_post _).bind fun _ _ => rfl
  rcases hstr : strstr headerEnd cbuf with _ | stop
  · rw [ppHttpsRead_none hd ha hstr, if_neg (by simp)]
    rfl
  · rw [ppHttpsRead_some hd ha hstr, if_pos ⟨hd, ha, rfl⟩]
    exact httpsHeader_logs.bind fun r hr => hr

/-- The head of a request is short enough, and so are its first three words. -/
def HeaderShort (tmp : List Byte) : Prop :=
  tmp.length ≤ 4064 ∧ (wordOrNull (methodOf tmp)).length ≤ 4055 ∧
    (wordOrNull (urlOf tmp)).length ≤ 4058 ∧ (wordOrNull (versionOf tmp)).length ≤ 4054

/-- When the head of a request is complete, its copy is short enough. -/
def HeaderFits (heap : ℤ → List Byte) (data : PpHttpState) (cbuf : List Byte) (len : ℤ) : Prop :=
  data.read.done = 0 → data.read.awaitHeader ≠ 0 → (strstr headerEnd cbuf).isSome →
    HeaderShort (cstr (cbuf.take len.toNat ++ heap data.read.seqno))

theorem strtok_length {delim t : List Byte} {q : List Byte × List Byte}
    (h : strtok delim t = some q) : q.1.length ≤ t.length ∧ q.2.length ≤ t.length := by
  simp only [strtok] at h
  split at h
  · cases h
  · cases h
    have hdrop := (List.dropWhile_suffix (l := t) (· ∈ delim)).length_le
    refine ⟨(List.takeWhile_prefix _).length_le.trans hdrop, ?_⟩
    rw [List.length_drop]
    exact (Nat.sub_le _ _).trans ((List.dropWhile_suffix _).length_le.trans hdrop)

/-- The words of a text are no longer than it, or four letters long. -/
theorem words_length (tmp : List Byte) : (wordOrNull (methodOf tmp)).length ≤ tmp.length + 4 ∧
    (wordOrNull (urlOf tmp)).length ≤ tmp.length + 4 ∧
    (wordOrNull (versionOf tmp)).length ≤ tmp.length + 4 := by
  have hword : ∀ w : Option (List Byte × List Byte),
      (∀ q ∈ w, q.1.length ≤ tmp.length ∧ q.2.length ≤ tmp.length) →
        (wordOrNull w).length ≤ tmp.length + 4 := by
    intro w hw
    rcases w with _ | q
    · exact Nat.le_add_left ..
    · have := (hw q rfl).1
      rw [wordOrNull]
      omega
  have hnext : ∀ w : Option (List Byte × List Byte),
      (∀ q ∈ w, q.1.length ≤ tmp.length ∧ q.2.length ≤ tmp.length) →
        ∀ q ∈ w.bind fun t => strtok headerDelim t.2,
          q.1.length ≤ tmp.length ∧ q.2.length ≤ tmp.length := by
    intro w hw q hq
    obtain ⟨t, ht, hq⟩ := Option.bind_eq_some_iff.1 hq
    have hq := strtok_length hq
    have ht := (hw t ht).2
    omega
  have hmeth : ∀ q ∈ methodOf tmp, q.1.length ≤ tmp.length ∧ q.2.length ≤ tmp.length :=
    fun q hq => strtok_length hq
  have hurl := hnext _ hmeth
  exact ⟨hword _ hmeth, hword _ hurl, hword _ (hnext _ hurl)⟩

theorem httpsReadLogs_fits {heap : ℤ → List Byte} {data : PpHttpState} {s : ℤ} {cbuf : List Byte}
    {len : ℤ} (hh : ∀ n, (cstr (heap n)).length ≤ 2 ^ 30) (hm : cbuf.length ≤ windowMax) :
    (∀ e ∈ httpsReadLogs heap data s cbuf len, e.Fits) ↔ HeaderFits heap data cbuf len := by
  unfold httpsReadLogs HeaderFits
  split
  swap
  · next h => exact iff_of_true (by simp) fun hd ha hstr => absurd ⟨hd, ha, hstr⟩ h
  next h =>
  refine Iff.trans ?_ ⟨fun hshort _ _ _ => hshort, fun hfits => hfits h.1 h.2.1 h.2.2⟩
  have hlen : (cstr (cbuf.take len.toNat ++ heap data.read.seqno)).length ≤ 2 ^ 31 - 256 := by
    refine length_cstr_append ?_ (hh _)
    rw [List.length_take]
    omega
  unfold headerLogs HeaderShort
  generalize cstr (cbuf.take len.toNat ++ heap data.read.seqno) = tmp at hlen ⊢
  obtain ⟨hmeth, hurl, hversion⟩ := words_length tmp
  have hname : (ascii "https").length ≤ 20 := by decide
  simp only [List.forall_mem_cons, List.not_mem_nil, false_imp_iff, implies_true, and_true,
    fits_message hname, true_and]
  rw [fits_logbinS (hlen.trans (by decide)), fits_logbinSs (by decide) (by omega),
    fits_logbinSs (by decide) (by omega), fits_logbinSs (by decide) (by omega)]
  have hm : (ascii "METHOD").length = 6 := rfl
  have hu : (ascii "URL").length = 3 := rfl
  have hv : (ascii "VERSION").length = 7 := rfl
  omega

/-! ## The status of a response -/

/-- The log call of the loop of `pp_https_write`, as far as the loop gets. -/
def lineLogs : ℕ → List Byte → List LogCall
  | 0, _ => []
  | n + 1, tmp =>
    match strtokIn [13] tmp with
    | some (some line) =>
      if contains contentLength line.text then
        match stringIn ((line.text ++ 0 :: line.behind).drop 17) with
        | .ok clen => [logbinSs .ppProp 0 (ascii "CLEN") clen]
        | .error _ => []
      else if contains connectionClose line.text then []
      else lineLogs n line.next
    | _ => []

/-- The log calls behind the status, when there are lines `tmp` left. -/
def linesLogs (state : PpHttpStateWrite) (s : ℤ) (tmp : List Byte) : List LogCall :=
  lineLogs (statusCopy + 1) tmp ++
    match statusLines (statusCopy + 1) tmp { state with awaitStatus := 0 } with
    | .ok _ => [logbinIiis .ppMsgSend 0 (PpId.num .https) s state.seqno (ascii "https")]
    | .error _ => []

/-- The log calls of the status branch of `pp_https_write`, those in front of an access out of
bounds included. -/
def statusLogs (state : PpHttpStateWrite) (s : ℤ) (cbuf : List Byte) : List LogCall :=
  match strtokIn headerDelim (strncpy statusCopy cbuf) with
  | none => []
  | some version =>
    logbinSs .ppProp 0 (ascii "VERSION") ((version.map (·.text)).getD (ascii "null")) ::
      match strtokIn headerDelim ((version.map (·.next)).getD [0]) with
      | none => []
      | some status =>
        logbinSs .ppProp 0 (ascii "STATUS") ((status.map (·.text)).getD (ascii "null")) ::
          linesLogs state s ((status.map (·.next)).getD [0])

/-- The log calls of `pp_https_write`. -/
def httpsWriteLogs (data : PpHttpState) (s : ℤ) (cbuf : List Byte) : List LogCall :=
  if data.write.done = 0 ∧ data.write.toread = 0 ∧ data.write.awaitStatus ≠ 0 ∧
      (strstr headerEnd cbuf).isSome then statusLogs data.write s cbuf
  else []

theorem statusLines_logs (n : ℕ) (tmp : List Byte) (state : PpHttpStateWrite) :
    Post (statusLines n tmp state) (fun r => r.2 = lineLogs n tmp ∧ r.1.seqno = state.seqno)
      AnyFault := by
  induction n generalizing tmp with
  | zero => trivial
  | succ n ih =>
    rw [statusLines, lineLogs]
    rcases strtokIn [13] tmp with _ | _ | line
    · trivial
    · exact ⟨rfl, rfl⟩
    · rw [orOverrun, Option.elim_some, ok_bind]
      dsimp only
      split
      · rcases stringIn ((line.text ++ 0 :: line.behind).drop 17) with e | clen
        · trivial
        · exact ⟨rfl, rfl⟩
      · split
        · exact ⟨rfl, rfl⟩
        · exact ih line.next

theorem httpsStatus_logs (state : PpHttpStateWrite) (s : ℤ) (cbuf : List Byte) :
    Post (httpsStatus state s cbuf) (fun r => r.2 = statusLogs state s cbuf) AnyFault := by
  unfold httpsStatus statusLogs
  dsimp only
  rcases strtokIn headerDelim (strncpy statusCopy cbuf) with _ | version
  · trivial
  rw [orOverrun, Option.elim_some, ok_bind]
  dsimp only
  generalize strtokIn headerDelim ((version.map (·.next)).getD [0]) = status
  rcases status with _ | status
  · trivial
  rw [orOverrun, Option.elim_some, ok_bind]
  dsimp only
  unfold linesLogs
  generalize (status.map (·.next)).getD [0] = tmp
  have hlines := statusLines_logs (statusCopy + 1) tmp { state with awaitStatus := 0 }
  generalize statusLines (statusCopy + 1) tmp { state with awaitStatus := 0 } = r at hlines ⊢
  rcases r with e | ⟨state', l⟩
  · trivial
  · obtain ⟨rfl, hseq⟩ := hlines
    rw [ok_bind, Post.pure_iff]
    simp only [List.cons_append, List.nil_append]
    rw [show state'.seqno = state.seqno from hseq]

theorem ppHttpsWrite_logs (data : PpHttpState) (s : ℤ) (cbuf : List Byte) (len : ℤ) :
    Post (ppHttpsWrite data s cbuf len) (fun r => r.2.2 = httpsWriteLogs data s cbuf) AnyFault := by
  unfold httpsWriteLogs
  by_cases hd : data.write.done = 0
  swap
  · rw [ppHttpsWrite_done hd, if_neg fun h => hd h.1]
    rfl
  by_cases ht : data.write.toread = 0
  swap
  · rw [ppHttpsWrite_body hd ht, if_neg fun h => ht h.2.1]
    rfl
  by_cases ha : data.write.awaitStatus = 0
  · rw [ppHttpsWrite_silent hd ht ha, if_neg fun h => h.2.2.1 ha]
    rfl
  rcases hstr : strstr headerEnd cbuf with _ | stop
  · rw [ppHttpsWrite_none hd ht ha hstr, if_neg (by simp)]
    rfl
  · rw [ppHttpsWrite_some hd ht ha hstr, if_pos ⟨hd, ht, ha, rfl⟩]
    exact (httpsStatus_logs data.write s cbuf).bind fun r hr => hr

theorem length_takeWhile_of_dropWhile {α : Type} {p : α → Bool} {l rest : List α} {c : α}
    (h : l.dropWhile p = c :: rest) : (l.takeWhile p).length + rest.length + 1 = l.length := by
  have hparts := congrArg List.length (List.takeWhile_append_dropWhile (p := p) (l := l))
  rwa [h, List.length_append, List.length_cons, ← Nat.add_assoc] at hparts

/-- A token and what is behind it lie in the array. -/
theorem strtokIn_length {delim t : List Byte} {tok : Token}
    (h : strtokIn delim t = some (some tok)) :
    tok.text.length + tok.behind.length < t.length ∧ tok.next.length ≤ t.length := by
  unfold strtokIn at h
  have hskip := (List.dropWhile_suffix (l := t) (· ∈ delim)).length_le
  split at h
  · cases h
  · next b t' heq =>
    rw [heq] at hskip
    split at h
    · cases h
    · split at h
      · cases h
      · next c rest hdrop =>
        have hparts := length_takeWhile_of_dropWhile hdrop
        cases h
        dsimp only
        refine ⟨by omega, ?_⟩
        split
        · rw [List.length_cons]
          omega
        · omega

theorem length_stringIn {m t : List Byte} (h : stringIn m = .ok t) : t.length ≤ m.length := by
  obtain ⟨-, -, ht⟩ := bind_eq_ok h
  cases ht
  exact length_cstr_le m

/-- The length of a body is a string in the copy of the status. -/
theorem lineLogs_fits (n : ℕ) {tmp : List Byte} (h : tmp.length ≤ statusCopy) :
    ∀ e ∈ lineLogs n tmp, e.Fits := by
  have hcopy : statusCopy = 1024 := rfl
  induction n generalizing tmp with
  | zero => simp [lineLogs]
  | succ n ih =>
    rw [lineLogs]
    split
    · next line htok =>
      obtain ⟨htext, hnext⟩ := strtokIn_length htok
      split
      · split
        · next clen hclen =>
          have hlen := length_stringIn hclen
          rw [List.length_drop, List.length_append, List.length_cons] at hlen
          rw [List.forall_mem_singleton, fits_logbinSs (by decide) (by omega)]
          have hn : (ascii "CLEN").length = 4 := rfl
          omega
        · simp
      · split
        · simp
        · exact ih (hnext.trans h)
    · simp

/-- Whatever is written, the log calls about a status fit. -/
theorem statusLogs_fits (state : PpHttpStateWrite) (s : ℤ) (cbuf : List Byte) :
    ∀ e ∈ statusLogs state s cbuf, e.Fits := by
  have hcopy : statusCopy = 1024 := rfl
  -- a word is one of the copy or "null", and what is left of the copy is no longer than it
  have hword : ∀ {delim t : List Byte} {w : Option Token} {n : List Byte}, n.length ≤ 20 →
      t.length ≤ statusCopy → strtokIn delim t = some w →
      (logbinSs .ppProp 0 n ((w.map (·.text)).getD (ascii "null"))).Fits ∧
        ((w.map (·.next)).getD [0]).length ≤ statusCopy := by
    intro delim t w n hn ht hw
    rcases w with _ | tok
    · rw [Option.map_none, Option.map_none, Option.getD_none, Option.getD_none,
        fits_logbinSs hn (by decide)]
      have hnull : (ascii "null").length = 4 := rfl
      exact ⟨by omega, by decide⟩
    · obtain ⟨htext, hnext⟩ := strtokIn_length hw
      rw [Option.map_some, Option.map_some, Option.getD_some, Option.getD_some,
        fits_logbinSs hn (by omega)]
      exact ⟨by omega, hnext.trans ht⟩
  unfold statusLogs
  split
  · simp
  · next version hversion =>
    obtain ⟨hfits, hleft⟩ := hword (n := ascii "VERSION") (by decide)
      (by rw [strncpy, List.length_take]; omega) hversion
    refine List.forall_mem_cons.2 ⟨hfits, ?_⟩
    split
    · simp
    · next status hstatus =>
      obtain ⟨hfits', hleft'⟩ := hword (n := ascii "STATUS") (by decide) hleft hstatus
      refine List.forall_mem_cons.2 ⟨hfits', ?_⟩
      rw [linesLogs, List.forall_mem_append]
      refine ⟨lineLogs_fits _ hleft', ?_⟩
      split
      · rw [List.forall_mem_singleton]
        exact fits_message (by decide)
      · simp

/-! ## Both paths -/

section Paths

variable {σ : Type}

/-- A call on the virtual read path or on the virtual write path. -/
inductive Passing
  | recv (c : RecvCall)
  | req (c : WriteCall)

/-- The calls of the processor that it makes, with what they are shown. -/
def Passing.presented (s : ℤ) (v : Vfd σ) : Passing → List (PpDirection × Presentation σ)
  | recv c => (callPresents v s c).map fun p => (.read, p)
  | req c => (reqCalls v s c.bytes).map fun call => (.write, call.before)

/-- The descriptor after it. -/
def passStep (s : ℤ) (v : Vfd σ) : Passing → Except Fault (Vfd σ)
  | .recv c => recvStep s v c
  | .req c => vwriteReq v s c.buf c.len >>= fun q => .ok q.1

/-- The memory from a buffer pointer on. -/
theorem length_rwindow_le (v : Vfd σ) (ofs : ℤ) : (v.rwindow ofs).length ≤ windowMax := by
  rw [Vfd.rwindow, List.length_append, Mem.length_slice, length_intBytes, windowMax]
  omega

theorem length_wwindow_le (v : Vfd σ) (ofs : ℤ) : (v.wwindow ofs).length ≤ windowMax := by
  rw [Vfd.wwindow, List.length_append, Mem.length_slice, length_intBytes, windowMax]
  omega

/-- The processor of the descriptor is `P`, and `I` holds of its data. -/
def Vfd.Bears (P : PpDispatcher σ) (I : σ → Prop) (v : Vfd σ) : Prop :=
  v.ppDispatcher = some P ∧ I v.ppData

/-- Every call of the processor keeps `I` of its data. -/
structure KeepsAll (P : PpDispatcher σ) (s : ℤ) (I : σ → Prop) : Prop where
  read : ∀ {d m n a d' l}, I d → P.ppRead d s m n = .ok (a, d', l) → I d'
  write : ∀ {d m n a d' l}, I d → P.ppWrite d s m n = .ok (a, d', l) → I d'

variable {P : PpDispatcher σ} {s : ℤ} {I : σ → Prop} {v : Vfd σ}

theorem bufRet_bears (h : v.Bears P I) (len : ℕ) :
    Post (bufRet v len) (fun g => g.vfd.Bears P I) AnyFault := by
  refine (bufRet_post v len).mono fun g hg => ?_
  obtain ⟨n, hg, -⟩ := hg
  rw [hg]
  exact h

theorem presentPp_bears (hP : KeepsAll P s I) (h : v.Bears P I) :
    Post (presentPp v s) (fun q => q.1.Bears P I) AnyFault := by
  obtain ⟨hd, hI⟩ := h
  by_cases hz : v.rbuflen - v.rbufofs = 0
  · rw [presentPp]
    dsimp only
    rw [if_pos hz]
    exact ⟨hd, hI⟩
  rw [presentPp_of hd hz]
  rcases hres : P.ppRead v.ppData s (v.rwindow v.rbufofs) (v.rbuflen - v.rbufofs)
    with e | ⟨a, d, l⟩
  · trivial
  · have hI' := hP.read hI hres
    rw [ok_bind, Post.ok_iff, ppAnswered]
    split
    · exact ⟨hd, hI'⟩
    · exact ⟨hd, hI'⟩

theorem fetch_bears (h : v.Bears P I) (flags : ℤ) (k : Kernel) :
    Post (fetch v flags k) (fun r => r.1.Bears P I) AnyFault := by
  have hshift : Post (bufShift v) (fun v' => v'.Bears P I) AnyFault := by
    unfold bufShift
    dsimp only
    split
    · exact h
    · exact (anyFault_post _).bind fun _ _ => h
  unfold fetch
  refine hshift.bind fun v' hv' => ?_
  refine (anyFault_post _).bind fun _ _ => ?_
  dsimp only
  split
  · exact hv'
  · exact hv'

theorem refill_bears (hP : KeepsAll P s I) (h : v.Bears P I) (checked : Bool) (len : ℕ) (flags : ℤ)
    (k : Kernel) : Post (refill checked v s len flags k) (fun g => g.vfd.Bears P I) AnyFault := by
  unfold refill
  refine (anyFault_post _).bind fun _ _ => ?_
  refine (fetch_bears h flags k).bind ?_
  rintro ⟨v₁, r, ev⟩ h₁
  dsimp only at h₁ ⊢
  split
  · exact h₁
  · refine (presentPp_bears hP h₁).bind fun q hq => ?_
    refine (anyFault_post _).bind fun _ _ => ?_
    exact (bufRet_bears hq len).bind fun g hg => hg

theorem recvOne_bears (hP : KeepsAll P s I) (h : v.Bears P I) (c : RecvCall) :
    Post (recvOne v s c) (fun g => g.vfd.Bears P I) AnyFault := by
  rw [recvOne_eq]
  have hget : Post (virtualGet (decide (c.fn = .read)) v s c.len 0 c.kernel)
      (fun g => g.vfd.Bears P I) AnyFault := by
    unfold virtualGet
    split
    · exact bufRet_bears h c.len
    split
    · refine (presentPp_bears hP h).bind fun q hq => ?_
      dsimp only
      split
      · exact (bufRet_bears hq c.len).bind fun g hg => hg
      · exact (refill_bears hP hq _ c.len 0 c.kernel).bind fun g hg => hg
    · exact refill_bears hP h _ c.len 0 c.kernel
  refine hget.bind fun g hg => ?_
  exact (anyFault_post _).bind fun _ _ => hg

theorem vwriteLoop_bears (hP : KeepsAll P s I) (n : ℕ) (h : v.Bears P I) :
    Post (vwriteLoop n v s) (fun q => q.1.Bears P I) AnyFault := by
  induction n generalizing v with
  | zero => trivial
  | succ n ih =>
    obtain ⟨hd, hI⟩ := h
    by_cases hz : v.wbuflen - v.wbufofs = 0
    · rw [vwriteLoop]
      dsimp only
      rw [if_pos hz]
      exact ⟨hd, hI⟩
    rcases hres : P.ppWrite v.ppData s (v.wwindow v.wbufofs) (v.wbuflen - v.wbufofs)
      with e | ⟨req, d, l⟩
    · rw [vwriteLoop_error n hd hz hres]
      trivial
    · have hI' := hP.write hI hres
      rw [vwriteLoop_of n hd rfl hz hres]
      split
      · have h' : Vfd.Bears P I { v with ppData := d, wbufofs := v.wbufofs + req } := ⟨hd, hI'⟩
        exact (ih h').bind fun q hq => hq
      · exact ⟨hd, hI'⟩

theorem vwriteReq_bears (hP : KeepsAll P s I) (h : v.Bears P I) (buf : List Byte) (len : ℤ) :
    Post (vwriteReq v s buf len) (fun q => q.1.Bears P I) AnyFault := by
  unfold vwriteReq
  split
  · exact h
  · refine (anyFault_post _).bind fun _ _ => ?_
    have h' : Vfd.Bears P I { v with
        wbuf := v.wbuf.store v.wbuflen.toNat (buf.take len.toNat)
        wbuflen := v.wbuflen + len } := h
    refine (vwriteLoop_bears hP _ h').bind fun q hq => ?_
    exact (anyFault_post _).bind fun _ _ => hq

/-- A call on either path keeps what the calls of the processor keep. -/
theorem passStep_bears (hP : KeepsAll P s I) (h : v.Bears P I) {c : Passing} {v' : Vfd σ}
    (hstep : passStep s v c = .ok v') : v'.Bears P I := by
  cases c with
  | recv c =>
    obtain ⟨g, hg, rfl⟩ := recvStep_ok hstep
    exact (recvOne_bears hP h c).of_eq_ok hg
  | req c =>
    obtain ⟨q, hq, hret⟩ := bind_eq_ok hstep
    cases hret
    exact (vwriteReq_bears hP h c.buf c.len).of_eq_ok hq

theorem callPresents_bears (hP : KeepsAll P s I) (h : v.Bears P I) (c : RecvCall) :
    ∀ p ∈ callPresents v s c, I p.data ∧ p.mem.length ≤ windowMax := by
  have hone : ∀ {v : Vfd σ}, v.Bears P I → I v.presentation.data ∧
      v.presentation.mem.length ≤ windowMax := fun h => ⟨h.2, length_rwindow_le _ _⟩
  have hfetch : ∀ {v : Vfd σ}, v.Bears P I → ∀ p ∈ fetchPresents v c.kernel,
      I p.data ∧ p.mem.length ≤ windowMax := by
    intro v h
    have hpost := fetch_bears h 0 c.kernel
    unfold fetchPresents
    rcases hfetch : fetch v 0 c.kernel with e | ⟨v', r, ev⟩
    · simp
    · dsimp only
      split
      · simp
      · rw [List.forall_mem_singleton]
        exact hone (hpost.of_eq_ok hfetch)
  unfold callPresents
  split
  · simp
  split
  · refine List.forall_mem_cons.2 ⟨hone h, ?_⟩
    have hpost := presentPp_bears hP h
    rcases hpresent : presentPp v s with e | ⟨v', tr⟩
    · simp
    · dsimp only
      split
      · simp
      · exact hfetch (hpost.of_eq_ok hpresent)
  · exact hfetch h

theorem loopCalls_bears (hP : KeepsAll P s I) (n : ℕ) (h : v.Bears P I) :
    ∀ c ∈ loopCalls n v s, I c.before.data ∧ c.before.mem.length ≤ windowMax := by
  induction n generalizing v with
  | zero => simp [loopCalls]
  | succ n ih =>
    obtain ⟨hd, hI⟩ := h
    by_cases hz : v.wbuflen - v.wbufofs = 0
    · rw [loopCalls, if_pos hz]
      simp
    rw [loopCalls_succ n hd hz]
    refine List.forall_mem_cons.2 ⟨⟨hI, length_wwindow_le _ _⟩, ?_⟩
    rcases hres : (v.writeCall P s).result with e | ⟨req, d, l⟩
    · simp
    · dsimp only
      split
      · exact ih ⟨hd, hP.write hI hres⟩
      · simp

/-- What is presented is a window of the buffer, with data that the calls before have left. -/
theorem presented_bears (hP : KeepsAll P s I) (h : v.Bears P I) (c : Passing) :
    ∀ q ∈ c.presented s v, I q.2.data ∧ q.2.mem.length ≤ windowMax := by
  intro q hq
  cases c with
  | recv c =>
    obtain ⟨p, hp, rfl⟩ := List.mem_map.1 hq
    exact callPresents_bears hP h c p hp
  | req c =>
    obtain ⟨call, hcall, rfl⟩ := List.mem_map.1 hq
    rw [reqCalls] at hcall
    split at hcall
    · cases hcall
    · have h' : Vfd.Bears P I { v with
          wbuf := v.wbuf.store v.wbuflen.toNat c.bytes
          wbuflen := v.wbuflen + c.bytes.length } := h
      exact loopCalls_bears hP _ h' call hcall

end Paths

/-! ## The processors -/

/-- The side of a connection that a direction goes through. -/
def PpPsqlState.side (d : PpPsqlState) : PpDirection → PpPsqlStateSide
  | .read => d.read
  | .write => d.write

namespace Installed

/-- The processors whose functions are `speak_psql`, `pp_https_read` and `pp_https_write`, and
`speak_fcgi`. The memory that is not initialised has a zero within 2^30 bytes, as any memory of a
process has on a machine with 32 bits. -/
def Logging : Installed → Prop
  | https heap write => write = ppHttpsWrite ∧ ∀ n, (cstr (heap n)).length ≤ 2 ^ 30
  | psqls | psqlc => True
  | fcgis junk | fcgic junk => ∀ state, (cstr (junk state)).length ≤ 2 ^ 30
  | mysqls | mysqlc | perlps | httpc | xc => False

/-- The log calls of a call, those in front of a failure included. -/
def logCalls : (i : Installed) → ℤ → PpDirection → Presentation i.Data → List LogCall
  | https heap _, s, .read, p => httpsReadLogs heap p.data s p.mem p.len
  | https _ _, s, .write, p => httpsWriteLogs p.data s p.mem
  | i, s, dir, p => loggedBy (i.fn s dir p.data p.mem p.len)

/-- What is logged of the bytes presented, as long as they come, is short enough. -/
def StringsFit : (i : Installed) → PpDirection → Presentation i.Data → Prop
  | https heap _, .read, p => HeaderFits heap p.data p.mem p.len
  | psqls, dir, p => (PpPsqlState.side p.data dir).QueryFits p.mem (p.len % 2 ^ 32).toNat
  | psqlc, dir, p => (PpPsqlState.side p.data dir).QueryFits p.mem (p.len % 2 ^ 32).toNat
  | fcgis junk, dir, p => (PpFcgiStateWrap.side p.data dir).ParamsFit junk p.mem p.len
  | fcgic junk, dir, p => (PpFcgiStateWrap.side p.data dir).ParamsFit junk p.mem p.len
  | _, _, _ => True

/-- Both sides of a processor for FastCGI log the content of one type of stream. -/
def Typed : (i : Installed) → i.Data → Prop
  | fcgis _, d => ∀ dir, (PpFcgiStateWrap.side d dir).Typed
  | fcgic _, d => ∀ dir, (PpFcgiStateWrap.side d dir).Typed
  | _, _ => True

variable {i : Installed} {s : ℤ} {dir : PpDirection}

/-- A call that goes through has made the log calls it tells of. -/
theorem logCalls_eq (hi : i.Logging) {p : Presentation i.Data} {a : ℤ} {d : i.Data}
    {l : List LogCall} (h : i.fn s dir p.data p.mem p.len = .ok (a, d, l)) :
    i.logCalls s dir p = l := by
  cases i with
  | https heap write =>
    cases dir with
    | read => exact (ppHttpsRead_logs.of_eq_ok h).symm
    | write =>
      obtain ⟨rfl, -⟩ := hi
      exact ((ppHttpsWrite_logs p.data s p.mem p.len).of_eq_ok h).symm
  | psqls | psqlc | fcgis | fcgic => exact congrArg loggedBy h
  | mysqls | mysqlc | perlps | httpc | xc => exact hi.elim

/-- **The log calls of one call** fit if and only if what they log of the bytes presented does. -/
theorem logCalls_fit_iff (hi : i.Logging) {p : Presentation i.Data} (hd : i.Typed p.data)
    (hm : p.mem.length ≤ windowMax) :
    (∀ e ∈ i.logCalls s dir p, e.Fits) ↔ i.StringsFit dir p := by
  cases i with
  | https heap write =>
    cases dir with
    | read => exact httpsReadLogs_fits hi.2 hm
    | write =>
      refine iff_of_true ?_ trivial
      change ∀ e ∈ httpsWriteLogs p.data s p.mem, e.Fits
      unfold httpsWriteLogs
      split
      · exact statusLogs_fits _ s p.mem
      · simp
  | psqls =>
    cases dir with
    | read => exact speakPsql_fits hm
    | write => exact speakPsql_fits hm
  | psqlc =>
    cases dir with
    | read => exact speakPsql_fits hm
    | write => exact speakPsql_fits hm
  | fcgis junk =>
    cases dir with
    | read => exact fcgiRead_fits hi hm (hd .read)
    | write => exact fcgiWrite_fits hi hm (hd .write)
  | fcgic junk =>
    cases dir with
    | read => exact fcgiRead_fits hi hm (hd .read)
    | write => exact fcgiWrite_fits hi hm (hd .write)
  | mysqls | mysqlc | perlps | httpc | xc => exact hi.elim

/-- The calls of a processor log the content of no other stream later. -/
theorem keeps_typed (i : Installed) (s : ℤ) : KeepsAll i.pp s i.Typed := by
  cases i with
  | fcgis junk => exact ⟨fun h hr => (fcgiRead_typed h).of_eq_ok hr,
      fun h hr => (fcgiWrite_typed h).of_eq_ok hr⟩
  | fcgic junk => exact ⟨fun h hr => (fcgiRead_typed h).of_eq_ok hr,
      fun h hr => (fcgiWrite_typed h).of_eq_ok hr⟩
  | _ => exact ⟨fun _ _ => trivial, fun _ _ => trivial⟩

theorem typed_init (i : Installed) (s : ℤ) (d : i.Data) : i.Typed (i.pp.ppInit s d).1 := by
  have hinit : ∀ dir, (ppFcgiInitHelp.side dir).Typed := by
    intro dir t ht
    cases dir <;> cases ht
  cases i with
  | fcgis junk => exact hinit
  | fcgic junk => exact hinit
  | _ => trivial

/-- Every log call made in a call on either path fits. -/
def LogsFit (i : Installed) (s : ℤ) (v : Vfd i.Data) (c : Passing) : Prop :=
  ∀ q ∈ c.presented s v, ∀ e ∈ i.logCalls s q.1 q.2, e.Fits

/-- What is logged of the bytes presented in a call on either path is short enough. -/
def TextsFit (i : Installed) (s : ℤ) (v : Vfd i.Data) (c : Passing) : Prop :=
  ∀ q ∈ c.presented s v, i.StringsFit q.1 q.2

/-- **The log calls of a run**, with any calls on the read path and the write path, all fit, also in
a call that fails, if and only if each query, head of a request, word of it and parameters of a
request is short enough when it is presented whole. -/
theorem logs_fit_iff (i : Installed) (hi : i.Logging) (s : ℤ) (u : Vfd i.Data) (x : i.Data)
    (cs : List Passing) :
    Tried (passStep s) (u.accepted i.pp s x) cs (i.LogsFit s) ↔
      Tried (passStep s) (u.accepted i.pp s x) cs (i.TextsFit s) := by
  refine tried_iff (I := Vfd.Bears i.pp i.Typed) ⟨rfl, i.typed_init s x⟩ ?_ ?_
  · intro v c hv
    have hbears := presented_bears (i.keeps_typed s) hv c
    refine forall_congr' fun q => forall_congr' fun hq => ?_
    exact logCalls_fit_iff hi (hbears q hq).1 (hbears q hq).2
  · intro v c v' hv _ hstep
    exact passStep_bears (i.keeps_typed s) hv hstep

end Installed

theorem length_cstr_zero : (cstr [0]).length ≤ 2 ^ 30 := by decide

/-- A descriptor that is traced as `https`, with a zero behind each copy. -/
def httpsOpened : Vfd PpHttpState :=
  (Vfd.zero default).accepted (ppHttps (fun _ => [0]) ppHttpsWrite) 5 default

/-- A request of one line. -/
def shortRequest : List Passing :=
  [.recv ⟨.read, 8192, .give (ascii "GET / HTTP/1.1\r\n\r\n")⟩]

theorem logs_fit_iff_shortRequest :
    Tried (passStep 5) httpsOpened shortRequest
        (Installed.LogsFit (.https (fun _ => [0]) ppHttpsWrite) 5) ↔
      Tried (passStep 5) httpsOpened shortRequest
        (Installed.TextsFit (.https (fun _ => [0]) ppHttpsWrite) 5) :=
  Installed.logs_fit_iff (.https (fun _ => [0]) ppHttpsWrite) ⟨rfl, fun _ => length_cstr_zero⟩ 5
    (Vfd.zero (default : PpHttpState)) (default : PpHttpState) shortRequest

/-- What a read presents on a descriptor just opened, when the kernel has `b` to give. -/
theorem callPresents_give {σ : Type} (u : Vfd σ) (P : PpDispatcher σ) (d : σ) (s : ℤ)
    {b : List Byte} (hb : b ≠ []) (hlen : b.length ≤ vbufsize) (n : ℕ) :
    ∃ rest, callPresents (u.opened P d) s ⟨.read, n, .give b⟩ = [⟨d, b ++ rest, b.length⟩] := by
  obtain ⟨hret, hbytes⟩ := give_whole hb 0 hlen
  have hpos : 0 < b.length := List.length_pos_of_ne_nil hb
  have hfetch := fetch_of 0 (.give b) (show bufShift (u.opened P d) = .ok (u.opened P d) from rfl)
    (show (0 : ℤ) ≤ vbufsize by omega)
  rw [show (vbufsize - (u.opened P d).rbuflen).toNat = vbufsize from rfl] at hfetch
  simp only [hret, hbytes, if_neg (show ¬ (b.length : ℤ) ≤ 0 by omega)] at hfetch
  unfold callPresents
  rw [if_neg (show ¬ (u.opened P d).tosend ≠ 0 from fun h => h rfl),
    if_neg (show ¬ ((u.opened P d).rbufofs < (u.opened P d).rbuflen ∧ _) from
      fun h => absurd h.1 (Int.lt_irrefl 0)), fetchPresents, hfetch]
  dsimp only
  rw [if_neg (by omega)]
  have hslice := Mem.slice_store_self u.rbuf 0 b
  have hsplit := Mem.slice_add (u.rbuf.store 0 b) 0 b.length (vbufsize - b.length)
  rw [hslice, Nat.add_sub_cancel' hlen] at hsplit
  refine ⟨(u.rbuf.store 0 b).slice (0 + b.length) (vbufsize - b.length) ++ intBytes b.length, ?_⟩
  rw [Vfd.presentation, Vfd.rwindow, ← List.append_assoc, ← hsplit]
  simp [Vfd.opened, vfdTabInitOne]

/-- The lines of a request with a long path, up to the end of its head. -/
def longLines : List Byte := ascii "GET /" ++ List.replicate 4100 97 ++ ascii " HTTP/1.1"

theorem longLines_text : ∀ b ∈ longLines, b ≠ 0 ∧ b ≠ 13 := by
  have hfront : ∀ b ∈ ascii "GET /", b ≠ 0 ∧ b ≠ 13 :=
    List.forall_iff_forall_mem.1 (by decide)
  have hback : ∀ b ∈ ascii " HTTP/1.1", b ≠ 0 ∧ b ≠ 13 :=
    List.forall_iff_forall_mem.1 (by decide)
  intro b hb
  rw [longLines, List.mem_append, List.mem_append, List.mem_replicate] at hb
  rcases hb with (hb | ⟨-, rfl⟩) | hb
  · exact hfront b hb
  · decide
  · exact hback b hb

theorem length_longLines : longLines.length = 4114 := by
  rw [longLines, List.length_append, List.length_append, List.length_replicate]
  rfl

/-- It is read at once. -/
def longHeadReads : List Passing := [.recv ⟨.read, 8192, .give (longLines ++ headerEnd)⟩]

/-- **The head of a long request** does not fit in the log buffer. -/
theorem long_head_ends :
    ¬ Tried (passStep 5) httpsOpened longHeadReads
      (Installed.LogsFit (.https (fun _ => [0]) ppHttpsWrite) 5) := by
  have hlines := length_longLines
  have hlen : (longLines ++ headerEnd).length = 4118 := by rw [List.length_append, hlines]; rfl
  obtain ⟨rest, hpresents⟩ := callPresents_give (Vfd.zero default)
    (ppHttps (fun _ => [0]) ppHttpsWrite) (ppHttpsInit 5 default).1 5 (b := longLines ++ headerEnd)
    (List.ne_nil_of_length_pos (by omega)) (by rw [hlen]; decide) 8192
  intro h
  have hmem : (PpDirection.read, (⟨(ppHttpsInit 5 default).1, longLines ++ headerEnd ++ rest,
      (longLines ++ headerEnd).length⟩ : Presentation PpHttpState)) ∈
      Passing.presented 5 httpsOpened (.recv ⟨.read, 8192, .give (longLines ++ headerEnd)⟩) := by
    refine List.mem_map.2 ⟨_, ?_, rfl⟩
    rw [show httpsOpened = (Vfd.zero default).opened (ppHttps (fun _ => [0]) ppHttpsWrite)
      (ppHttpsInit 5 default).1 from rfl, hpresents]
    exact List.mem_singleton_self _
  have hlogs := h [] _ List.prefix_rfl _ rfl _ hmem
  have hfound : (strstr headerEnd (longLines ++ headerEnd ++ rest)).isSome := by
    have hhere : strstr headerEnd (headerEnd ++ rest) = some 0 := by
      rw [headerEnd, List.cons_append, strstr, if_pos (by simp [List.isPrefixOf])]
    have hskip : strstr headerEnd (longLines ++ (headerEnd ++ rest)) =
        (strstr headerEnd (headerEnd ++ rest)).map (· + longLines.length) :=
      strstr_append longLines_text
    rw [List.append_assoc, hskip, hhere]
    rfl
  have htmp : cstr ((longLines ++ headerEnd ++ rest).take (longLines ++ headerEnd).length ++ [0]) =
      longLines ++ headerEnd := by
    rw [List.take_left, cstr]
    have hend : ∀ b ∈ headerEnd, decide (b ≠ 0) = true :=
      List.forall_iff_forall_mem.1 (by decide)
    refine takeWhile_append_of_neg ?_ (by decide)
    intro b hb
    rcases List.mem_append.1 hb with hb | hb
    · simpa using (longLines_text b hb).1
    · exact hend b hb
  have hlogged : logbinS .httpsRead (longLines ++ headerEnd).length (longLines ++ headerEnd) ∈
      httpsReadLogs (fun _ => [0]) (ppHttpsInit 5 default).1 5 (longLines ++ headerEnd ++ rest)
        (longLines ++ headerEnd).length := by
    rw [httpsReadLogs, if_pos ⟨rfl, by decide, hfound⟩, headerLogs, Int.toNat_natCast, htmp]
    exact List.mem_cons_of_mem _ List.mem_cons_self
  have hfits := (fits_logbinS (by omega)).1 (hlogs _ hlogged)
  omega

end BorderPatrol.Trace
