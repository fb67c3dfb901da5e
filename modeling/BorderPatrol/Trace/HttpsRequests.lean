import BorderPatrol.Trace.HttpText
import BorderPatrol.Trace.HttpsReads
import Mathlib.Data.List.Infix

/-!
# The framing of HTTP requests

`pp_https_read` never skips a body. It takes a body for the beginning of the next header, up to the
next end of a header, and reads the method, the path and the version off what it took. What it takes
at once is what `Clear` speaks of: the body of a request and the header of the next one. A run of
receive calls that reads a sequence of requests is framed, with one message for each request, taken
up to the end of its header and with its method, if and only if the requests are clear and at every
presentation the end of a header lies within the bytes presented (`requests_framed_iff`).
-/

namespace BorderPatrol.Trace

open Foundations

/-! ## Requests -/

/-- A letter in lower case. -/
def lower (b : Byte) : Byte := if 65 ≤ b ∧ b ≤ 90 then b + 32 else b

/-- The line `f` is a field `Content-Length`, in any spelling, with the value `n`. -/
def TellsLength (f : List Byte) (n : ℕ) : Prop :=
  ∃ name blanks digits blanks', f = name ++ 58 :: (blanks ++ digits ++ blanks') ∧
    name.map lower = ascii "content-length" ∧ (∀ b ∈ blanks ++ blanks', b = 32 ∨ b = 9) ∧
    digits ≠ [] ∧ (∀ b ∈ digits, isdigit b) ∧ leadingNat digits = n

/-- A request of HTTP/1.1: its request line, its other lines and its body, of which one of the lines
tells the length when there is one. -/
structure Request where
  method : List Byte
  target : List Byte
  fields : List (List Byte)
  body : List Byte
  method_text : method ≠ [] ∧ LineText method ∧ 32 ∉ method
  target_text : target ≠ [] ∧ LineText target ∧ 32 ∉ target
  fields_text : ∀ f ∈ fields, f ≠ [] ∧ LineText f
  body_length : body = [] ∨ ∃ f ∈ fields, TellsLength f body.length

namespace Request

/-- The request line. -/
def requestLine (r : Request) : List Byte :=
  r.method ++ 32 :: (r.target ++ 32 :: ascii "HTTP/1.1")

/-- The header. -/
def header (r : Request) : List Byte := headerBlock (r.requestLine :: r.fields)

/-- The request as it is sent. -/
def message (r : Request) : List Byte := r.header ++ r.body

end Request

/-- What is sent for a sequence of requests. -/
def requestStream (rs : List Request) : List Byte := rs.flatMap Request.message

/-- Where the headers end, in a stream that begins at `n`. -/
def headerEnds : ℕ → List Request → List ℕ
  | _, [] => []
  | n, r :: rs => (n + r.header.length) :: headerEnds (n + r.message.length) rs

/-- The first token of a header, the method. -/
def methodToken (x : List Byte) : Option (List Byte × List Byte) := strtok headerDelim x

/-- The second token. -/
def urlToken (x : List Byte) : Option (List Byte × List Byte) :=
  (methodToken x).bind fun t => strtok headerDelim t.2

/-- The third token, the version. -/
def versionToken (x : List Byte) : Option (List Byte × List Byte) :=
  (urlToken x).bind fun t => strtok headerDelim t.2

/-- The requests `rs`, behind a body `b`, are clear to `pp_https_read`: in `b` and the header behind
it the first end of a header is the end, the first token is the method of the request, and the third
has `HTTP/1.1` in it, or `HTTP/1.0` when it is the last request. There is no end of a header in the
last body. -/
def Clear : List Byte → List Request → Prop
  | b, [] => strstr headerEnd (b ++ [0]) = none
  | b, r :: rs =>
    strstr headerEnd (b ++ r.header) = some ((b ++ r.header).length - 4) ∧
      (methodToken (b ++ r.header)).map Prod.fst = some r.method ∧
      ∃ t, versionToken (b ++ r.header) = some t ∧
        (contains (ascii "HTTP/1.0") t.1 ∧ rs = [] ∨
          ¬ contains (ascii "HTTP/1.0") t.1 ∧ contains (ascii "HTTP/1.1") t.1 ∧ Clear r.body rs)

/-! ## Reports -/

/-- The log call that reports request `k`. -/
def received (s k : ℤ) : LogCall := logbinIiis .ppMsgRecv 0 (PpId.num .https) s k (ascii "https")

/-- The log call that gives its method. -/
def methodProp (m : List Byte) : LogCall := logbinSs .ppProp 0 (ascii "METHOD") m

/-- The messages received and the properties `METHOD` of a log. -/
def requestLog (l : List LogCall) : List LogCall :=
  l.filter fun e => e.sc = .ppMsgRecv ∨ e.sc = .ppProp ∧ (ascii "METHOD=-=").isPrefixOf e.str

/-- What is to be reported for requests of which the first is number `n`, by a processor that counts
in an `int`. -/
def requestReports (s : ℤ) : ℕ → List Request → List LogCall
  | _, [] => []
  | n, r :: rs => received s (toInt n) :: methodProp r.method :: requestReports s (n + 1) rs

@[simp] theorem requestLog_append (l₁ l₂ : List LogCall) :
    requestLog (l₁ ++ l₂) = requestLog l₁ ++ requestLog l₂ := by
  simp [requestLog]

section Lists

variable {s : ℤ}

theorem requestStream_append (rs rs' : List Request) :
    requestStream (rs ++ rs') = requestStream rs ++ requestStream rs' := List.flatMap_append

theorem requestStream_cons (r : Request) (rs : List Request) :
    requestStream (r :: rs) = r.header ++ (r.body ++ requestStream rs) := by
  rw [requestStream, List.flatMap_cons, Request.message, List.append_assoc, requestStream]

theorem headerEnds_append (n : ℕ) (rs rs' : List Request) : headerEnds n (rs ++ rs') =
    headerEnds n rs ++ headerEnds (n + (requestStream rs).length) rs' := by
  induction rs generalizing n with
  | nil => rfl
  | cons r rs ih =>
    have hlen : (requestStream (r :: rs)).length =
        r.message.length + (requestStream rs).length := by
      rw [requestStream, List.flatMap_cons, List.length_append, requestStream]
    rw [List.cons_append, headerEnds, ih, headerEnds, List.cons_append, hlen, Nat.add_assoc]

theorem requestReports_append (n : ℕ) (rs rs' : List Request) : requestReports s n (rs ++ rs') =
    requestReports s n rs ++ requestReports s (n + rs.length) rs' := by
  induction rs generalizing n with
  | nil => rfl
  | cons r rs ih =>
    rw [List.cons_append, requestReports, ih, requestReports, List.cons_append, List.cons_append,
      List.length_cons, Nat.add_assoc, Nat.add_comm 1]

theorem length_requestReports (n : ℕ) (rs : List Request) :
    (requestReports s n rs).length = 2 * rs.length := by
  induction rs generalizing n with
  | nil => rfl
  | cons r rs ih =>
    rw [requestReports, List.length_cons, List.length_cons, ih, List.length_cons]
    omega

end Lists

/-! ## What is taken at once -/

namespace Request

variable (r : Request)

theorem four_le_length_header : 4 ≤ r.header.length := by
  have := two_le_length_headerBlock r.fields
  rw [header, headerBlock_cons, List.length_append, List.length_cons, List.length_cons]
  omega

/-- The header as `strtok` takes it apart. -/
theorem header_eq : r.header = r.method ++ 32 :: (r.target ++ 32 :: (ascii "HTTP/1.1" ++
    13 :: 10 :: headerBlock r.fields)) := by
  rw [header, headerBlock_cons, requestLine]
  simp only [List.append_assoc, List.cons_append]

/-- Text that is not empty and has no blank in it begins with no delimiter. -/
theorem exists_text {t : List Byte} (hne : t ≠ []) (ht : LineText t) (hb : 32 ∉ t)
    (u : List Byte) : ∃ c ∈ u ++ t, c ∉ headerDelim := by
  obtain ⟨c, t, rfl⟩ := List.exists_cons_of_ne_nil hne
  exact ⟨c, List.mem_append_right _ List.mem_cons_self, (ht.not_delim hb c List.mem_cons_self).1⟩

/-- **The tokens of a header** behind a body do not depend on what follows. -/
theorem tokens (b : List Byte) : ∃ m u v x₁ x₂ x₃, ∀ y,
    strtok headerDelim (b ++ r.header ++ y) = some (m, x₁ ++ y) ∧
      strtok headerDelim (x₁ ++ y) = some (u, x₂ ++ y) ∧
      strtok headerDelim (x₂ ++ y) = some (v, x₃ ++ y) := by
  obtain ⟨m, u₁, h₁⟩ := strtok_front headerDelim 32
    (exists_text r.method_text.1 r.method_text.2.1 r.method_text.2.2 b) (by decide)
  obtain ⟨u, u₂, h₂⟩ := strtok_front headerDelim 32
    (exists_text r.target_text.1 r.target_text.2.1 r.target_text.2.2 u₁) (by decide)
  obtain ⟨v, u₃, h₃⟩ := strtok_front headerDelim 13
    (exists_text (t := ascii "HTTP/1.1") (by decide) (by decide) (by decide) u₂) (by decide)
  refine ⟨m, u, v, u₁ ++ (r.target ++ 32 :: (ascii "HTTP/1.1" ++ 13 :: 10 :: headerBlock r.fields)),
    u₂ ++ (ascii "HTTP/1.1" ++ 13 :: 10 :: headerBlock r.fields), u₃ ++ 10 :: headerBlock r.fields,
    fun y => ⟨?_, ?_, ?_⟩⟩
  · rw [r.header_eq]
    have := h₁ (r.target ++ 32 :: (ascii "HTTP/1.1" ++ 13 :: 10 :: headerBlock r.fields) ++ y)
    simpa only [List.append_assoc, List.cons_append] using this
  · have := h₂ (ascii "HTTP/1.1" ++ 13 :: 10 :: headerBlock r.fields ++ y)
    simpa only [List.append_assoc, List.cons_append] using this
  · have := h₃ (10 :: headerBlock r.fields ++ y)
    simpa only [List.append_assoc, List.cons_append] using this

end Request

/-! ## The header branch -/

section Header

variable {heap : ℤ → List Byte} {st : PpHttpStateRead} {s len : ℤ} {m : List Byte} {i : ℕ}

theorem requestLog_received (k rv : ℤ) (x u v n : List Byte) :
    requestLog [received s k, logbinS .httpsRead rv x, methodProp n,
        logbinSs .ppProp 0 (ascii "URL") u, logbinSs .ppProp 0 (ascii "VERSION") v] =
      [received s k, methodProp n] := by
  have h₁ : ascii "METHOD=-=" = [77, 69, 84, 72, 79, 68, 61, 45, 61] := by decide
  have h₂ : ascii "METHOD" = [77, 69, 84, 72, 79, 68] := by decide
  have h₃ : ascii "=-=" = [61, 45, 61] := by decide
  have h₄ : ascii "URL" = [85, 82, 76] := by decide
  have h₅ : ascii "VERSION" = [86, 69, 82, 83, 73, 79, 78] := by decide
  simp [requestLog, received, methodProp, logbinIiis, logbinSs, logbinS, h₁, h₂, h₃, h₄, h₅]

/-- **The header branch** on memory whose first three tokens are known. -/
theorem httpsHeader_eq (s : ℤ) (i : ℕ) {n u v x₁ x₂ x₃ : List Byte}
    (h₁ : strtok headerDelim (cstr (m.take len.toNat ++ heap st.seqno)) = some (n, x₁))
    (h₂ : strtok headerDelim x₁ = some (u, x₂)) (h₃ : strtok headerDelim x₂ = some (v, x₃)) :
    ∃ l, requestLog l = [received s st.seqno, methodProp n] ∧
      httpsHeader heap st s m len i =
        if contains (ascii "HTTP/1.0") v then
          .ok (i + 4, { st with
            awaitHeader := 0, seqno := toInt (st.seqno + 1), version := 0, done := 1 }, l)
        else if contains (ascii "HTTP/1.1") v then
          .ok (i + 4, { st with
            awaitHeader := 1, seqno := toInt (st.seqno + 1), version := 1 }, l)
        else .error .assertion := by
  refine ⟨_, requestLog_received st.seqno len (cstr (m.take len.toNat ++ heap st.seqno)) u v n, ?_⟩
  unfold httpsHeader
  simp only [h₁, h₂, h₃, Option.bind_some]
  rfl

/-- Whatever is taken for a header, something is reported. -/
theorem httpsHeader_report : Post (httpsHeader heap st s m len i)
    (fun q => q.1 = i + 4 ∧ requestLog q.2.2 ≠ []) fun _ => True := by
  unfold httpsHeader
  dsimp only
  split
  · trivial
  · have hmem : ∀ l, requestLog (received s st.seqno :: l) ≠ [] := by
      intro l
      simp [requestLog, received, logbinIiis]
    split
    · exact ⟨rfl, hmem _⟩
    · split
      · exact ⟨rfl, hmem _⟩
      · trivial

end Header

/-! ## What holds over a run -/

/-- The requests `rs₁` are reported, each at the end of its header. Behind them there are the last
body `b` and the requests `rest`, and the requests are clear if and only if these are. -/
structure Heard (s : ℤ) (rs : List Request) (f : Flow Byte) (d : PpHttpState) (l : List LogCall)
    (rs₁ rest : List Request) (b : List Byte) : Prop where
  split : rs = rs₁ ++ rest
  clear_iff : Clear [] rs ↔ Clear b rest
  ahead : (requestStream rs).drop f.taken = b ++ requestStream rest
  taken_add : f.taken + b.length = (requestStream rs₁).length
  cuts : f.cuts = headerEnds 0 rs₁
  log : requestLog l = requestReports s 0 rs₁
  done : d.read.done = 0
  seqno : d.read.seqno = toInt rs₁.length

/-- All requests are reported and the processor is done. -/
structure Over (s : ℤ) (rs : List Request) (f : Flow Byte) (d : PpHttpState) (l : List LogCall) :
    Prop where
  clear : Clear [] rs
  cuts : headerEnds 0 rs <+: f.cuts
  log : requestLog l = requestReports s 0 rs
  done : d.read.done ≠ 0

/-- Something else is reported: at a place where no header ends, or with another method, or nothing
any more. -/
structure Misheard (s : ℤ) (rs : List Request) (f : Flow Byte) (d : PpHttpState)
    (l : List LogCall) : Prop where
  unclear : ¬ Clear [] rs
  off : ¬ (f.cuts <+: headerEnds 0 rs ∨ headerEnds 0 rs <+: f.cuts) ∨
    ¬ requestLog l <+: requestReports s 0 rs ∨
    d.read.done ≠ 0 ∧ requestLog l ≠ requestReports s 0 rs

/-- One of the three. -/
def Listening (s : ℤ) (rs : List Request) (f : Flow Byte) (d : PpHttpState) (l : List LogCall) :
    Prop :=
  (∃ rs₁ rest b, Heard s rs f d l rs₁ rest b) ∨ Over s rs f d l ∨ Misheard s rs f d l

/-- What holds between calls. -/
def Hearing (s : ℤ) (rs : List Request) : Observer PpHttpState := fun f w d l =>
  Awaiting f w d l ∧ f.seen <+: requestStream rs ∧ Listening s rs f d l

section Steps

variable {rs rs₁ rest : List Request} {r : Request} {s : ℤ} {f f' : Flow Byte} {d d' : PpHttpState}
  {l l' : List LogCall} {b : List Byte}

/-- The three do not depend on what has arrived and been given, nor on other log calls. -/
theorem Listening.congr (h : Listening s rs f d l) (ht : f'.taken = f.taken)
    (hc : f'.cuts = f.cuts) (hl : requestLog l' = requestLog l) : Listening s rs f' d l' := by
  rcases h with ⟨rs₁, rest, b, h⟩ | h | h
  · exact Or.inl ⟨rs₁, rest, b, h.split, h.clear_iff, ht ▸ h.ahead, ht ▸ h.taken_add, hc ▸ h.cuts,
      hl ▸ h.log, h.done, h.seqno⟩
  · exact Or.inr (Or.inl ⟨h.clear, hc ▸ h.cuts, hl ▸ h.log, h.done⟩)
  · refine Or.inr (Or.inr ⟨h.unclear, ?_⟩)
    rw [hc, hl]
    exact h.off

theorem not_comparable_append {α : Type} {x y z : List α} (h : ¬ (x <+: y ∨ y <+: x)) :
    ¬ (x ++ z <+: y ∨ y <+: x ++ z) := by
  rintro (h' | h')
  · exact h (Or.inl ((List.prefix_append ..).trans h'))
  · exact h (List.prefix_or_prefix_of_prefix (List.prefix_append x z) h')

/-- What was misheard stays so, whatever the processor takes for a header. -/
theorem Misheard.take (h : Misheard s rs f d l) (n : ℕ) (hd : d.read.done = 0) :
    Misheard s rs (f.take n) d' (l ++ l') := by
  refine ⟨h.unclear, ?_⟩
  rw [requestLog_append]
  rcases h.off with hoff | hoff | ⟨hdone, -⟩
  · exact Or.inl (not_comparable_append hoff)
  · exact Or.inr (Or.inl fun hp => hoff ((List.prefix_append ..).trans hp))
  · exact absurd hd hdone

/-- A processor that is done takes everything. -/
theorem Listening.pass (h : Listening s rs f d l) (hd : d.read.done ≠ 0) (n : ℕ) :
    Listening s rs (f.take n) d l := by
  rcases h with ⟨rs₁, rest, b, h⟩ | h | h
  · exact absurd h.done hd
  · exact Or.inr (Or.inl ⟨h.clear, h.cuts.trans (List.prefix_append ..), h.log, h.done⟩)
  · refine Or.inr (Or.inr ⟨h.unclear, ?_⟩)
    rcases h.off with hoff | hoff | hoff
    · exact Or.inl (not_comparable_append hoff)
    · exact Or.inr (Or.inl hoff)
    · exact Or.inr (Or.inr hoff)

/-- An end of a header behind the last request. -/
theorem Heard.extra (h : Heard s rs f d l rs₁ [] b) (n : ℕ) (hl : requestLog l' ≠ [])
    (hb : strstr headerEnd (b ++ [0]) ≠ none) : Misheard s rs (f.take n) d' (l ++ l') := by
  have hrs := h.split
  rw [List.append_nil] at hrs
  refine ⟨fun hc => hb (h.clear_iff.1 hc), Or.inr (Or.inl fun hp => hl ?_)⟩
  have hlen := hp.length_le
  rw [requestLog_append, h.log, hrs, List.length_append] at hlen
  exact List.eq_nil_of_length_eq_zero (by omega)

/-- An end of a header that is not the end of the next header. -/
theorem Heard.early (h : Heard s rs f d l rs₁ (r :: rest) b) {n : ℕ}
    (hn : n ≠ (b ++ r.header).length) (hc : ¬ Clear b (r :: rest)) :
    Misheard s rs (f.take n) d' (l ++ l') := by
  refine ⟨fun hcl => hc (h.clear_iff.1 hcl), Or.inl ?_⟩
  have hends : headerEnds 0 rs = headerEnds 0 rs₁ ++
      ((requestStream rs₁).length + r.header.length) ::
        headerEnds ((requestStream rs₁).length + r.message.length) rest := by
    rw [h.split, headerEnds_append, headerEnds, Nat.zero_add]
  have hcut : (f.take n).cuts = headerEnds 0 rs₁ ++ [f.taken + n] := by
    rw [Flow.take, h.cuts]
  have hne : f.taken + n ≠ (requestStream rs₁).length + r.header.length := by
    rw [List.length_append] at hn
    have := h.taken_add
    omega
  rw [hcut, hends, List.prefix_append_right_inj, List.prefix_append_right_inj]
  rintro (hp | hp)
  · exact hne (List.cons_prefix_cons.1 hp).1
  · exact hne (List.cons_prefix_cons.1 hp).1.symm

/-- The next request is reported, with a method that is its own or not. -/
theorem Heard.report (h : Heard s rs f d l rs₁ (r :: rest) b) {n : List Byte}
    (hl : requestLog l' = [received s d.read.seqno, methodProp n]) :
    requestLog (l ++ l') = requestReports s 0 (rs₁ ++ [r]) ↔ n = r.method := by
  have hreports : requestReports s 0 (rs₁ ++ [r]) = requestReports s 0 rs₁ ++
      [received s d.read.seqno, methodProp r.method] := by
    rw [requestReports_append, requestReports, requestReports, Nat.zero_add, h.seqno]
  rw [hreports, requestLog_append, h.log, hl, List.append_cancel_left_eq]
  constructor
  · intro heq
    have := (List.cons.inj (List.cons.inj heq).2).1
    simpa [methodProp, logbinSs, logbinS] using this
  · rintro rfl
    rfl

/-- A report with another method. -/
theorem Heard.wrong (h : Heard s rs f d l rs₁ (r :: rest) b) (k : ℕ) {n : List Byte}
    (hl : requestLog l' = [received s d.read.seqno, methodProp n]) (hn : n ≠ r.method)
    (hc : ¬ Clear b (r :: rest)) : Misheard s rs (f.take k) d' (l ++ l') := by
  refine ⟨fun hcl => hc (h.clear_iff.1 hcl), Or.inr (Or.inl fun hp => hn ((h.report hl).1 ?_))⟩
  have hfull : requestReports s 0 (rs₁ ++ [r]) <+: requestReports s 0 rs := by
    rw [h.split, List.append_cons rs₁ r rest, requestReports_append 0 (rs₁ ++ [r])]
    exact List.prefix_append ..
  have hlen : (requestLog (l ++ l')).length = (requestReports s 0 (rs₁ ++ [r])).length := by
    rw [requestLog_append, h.log, hl, List.length_append, length_requestReports,
      length_requestReports, List.length_append]
    simp only [List.length_cons, List.length_nil]
    omega
  exact (List.prefix_of_prefix_length_le hp hfull hlen.le).eq_of_length hlen

/-- What a list and another begin with alike. -/
theorem prefix_take_eq {α : Type} {x y : List α} (h : x <+: y) {n : ℕ} (hn : n ≤ x.length) :
    y.take n = x.take n := by
  obtain ⟨z, rfl⟩ := h
  exact List.take_append_of_le_length hn

/-- The state behind a header that is read right. -/
theorem Heard.next (h : Heard s rs f d l rs₁ (r :: rest) b) {n v x : List Byte}
    (hblock : strstr headerEnd (b ++ r.header) = some ((b ++ r.header).length - 4))
    (hm : methodToken (b ++ r.header) = some (n, x))
    {t : List Byte} (hv : versionToken (b ++ r.header) = some (v, t))
    (hl : requestLog l' = [received s d.read.seqno, methodProp n])
    (h₀ : ¬ contains (ascii "HTTP/1.0") v) (h₁ : contains (ascii "HTTP/1.1") v) :
    Listening s rs (f.take (b ++ r.header).length)
      { d with read := { d.read with
        awaitHeader := 1, seqno := toInt (d.read.seqno + 1), version := 1 } } (l ++ l') := by
  by_cases hn : n = r.method
  · have hclear : Clear b (r :: rest) ↔ Clear r.body rest := by
      simp only [Clear, hblock, hm, hv, Option.map_some, hn, true_and, Option.some.injEq,
        exists_eq_left', h₀, h₁, Bool.false_eq_true, false_and, false_or, not_false_eq_true]
    have hahead := h.ahead
    have htaken := h.taken_add
    rw [requestStream_cons, ← List.append_assoc] at hahead
    refine Or.inl ⟨rs₁ ++ [r], rest, r.body, ?_, h.clear_iff.trans hclear, ?_, ?_, ?_,
      (h.report hl).2 hn, h.done, ?_⟩
    · rw [h.split, List.append_assoc, List.singleton_append]
    · have := congrArg (List.drop (b ++ r.header).length) hahead
      rw [List.drop_drop, List.drop_left] at this
      exact this
    · simp only [Flow.take]
      rw [requestStream_append, List.length_append, List.length_append,
        show requestStream [r] = r.header ++ (r.body ++ requestStream []) from
          requestStream_cons r [], List.length_append, List.length_append,
        show (requestStream []).length = 0 from rfl]
      omega
    · simp only [Flow.take]
      rw [h.cuts, headerEnds_append, headerEnds, headerEnds, Nat.zero_add, List.length_append]
      congr 2
      omega
    · simp only [h.seqno, toInt_succ, List.length_append, List.length_singleton]
  · refine Or.inr (Or.inr (h.wrong _ hl hn fun hc => hn ?_))
    have := hc.2.1
    rw [hm] at this
    exact Option.some.inj this

/-- The state behind a header of a last request, by its version. -/
theorem Heard.last (h : Heard s rs f d l rs₁ (r :: rest) b) {n v x : List Byte}
    (hblock : strstr headerEnd (b ++ r.header) = some ((b ++ r.header).length - 4))
    (hm : methodToken (b ++ r.header) = some (n, x))
    {t : List Byte} (hv : versionToken (b ++ r.header) = some (v, t))
    (hl : requestLog l' = [received s d.read.seqno, methodProp n])
    (h₀ : contains (ascii "HTTP/1.0") v) (hd' : d'.read.done ≠ 0) :
    Listening s rs (f.take (b ++ r.header).length) d' (l ++ l') := by
  by_cases hn : n = r.method
  · have hclear : Clear b (r :: rest) ↔ rest = [] := by
      simp only [Clear, hblock, hm, hv, Option.map_some, hn, true_and, Option.some.injEq,
        exists_eq_left', h₀, not_true_eq_false, false_and, or_false]
    have hlog := (h.report hl).2 hn
    by_cases hrest : rest = []
    · subst hrest
      have htaken := h.taken_add
      rw [← h.split] at hlog
      refine Or.inr (Or.inl ⟨h.clear_iff.2 (hclear.2 rfl), ?_, hlog, hd'⟩)
      simp only [Flow.take]
      rw [h.split, h.cuts, headerEnds_append, headerEnds, headerEnds, Nat.zero_add,
        List.length_append, show f.taken + (b.length + r.header.length) =
          (requestStream rs₁).length + r.header.length by omega]
    · refine Or.inr (Or.inr ⟨fun hc => hrest (hclear.1 (h.clear_iff.1 hc)), Or.inr (Or.inr
        ⟨hd', fun heq => hrest ?_⟩)⟩)
      rw [hlog, h.split] at heq
      have := congrArg List.length heq
      simp only [length_requestReports, List.length_append, List.length_cons,
        List.length_nil] at this
      exact List.eq_nil_of_length_eq_zero (by omega)
  · refine Or.inr (Or.inr (h.wrong _ hl hn fun hc => hn ?_))
    have := hc.2.1
    rw [hm] at this
    exact Option.some.inj this

end Steps

section Run

variable {rs : List Request} {s : ℤ} {f : Flow Byte} {w : ℤ} {d : PpHttpState} {l : List LogCall}
  {heap : ℤ → List Byte}
  {write : PpHttpState → ℤ → List Byte → ℤ → Except Fault (ℤ × PpHttpState × List LogCall)}

theorem ne_zero_of_headerEnd {x : List Byte} (hlen : 4 ≤ x.length)
    (hx : strstr headerEnd x = some (x.length - 4)) : ∀ c ∈ x, c ≠ 0 := by
  intro c hc
  rw [← List.take_append_drop (x.length - 4) x, List.mem_append] at hc
  rcases hc with hc | hc
  · exact strstr_ne_zero hx c hc
  · have h4 : headerEnd.length = 4 := rfl
    have hlast := (strstr_found hx).eq_of_length (by rw [List.length_drop, h4]; omega)
    rw [← hlast] at hc
    have hall : ∀ c ∈ headerEnd, c ≠ 0 := by simp [headerEnd]
    exact hall c hc

/-- The end of the next header is found: what the header branch makes of what has been heard. -/
theorem Heard.header {rs₁ rest : List Request} {r : Request} {b m y : List Byte} {i n : ℕ}
    (h : Heard s rs f d l rs₁ (r :: rest) b)
    (hblock : strstr headerEnd (b ++ r.header) = some ((b ++ r.header).length - 4))
    (hm : m.take n = b ++ r.header ++ y) (hi : i + 4 = (b ++ r.header).length) :
    Post (httpsHeader heap d.read s m n i) (fun q => q.1 = i + 4 ∧
      Listening s rs (f.take (i + 4)) { d with read := q.2.1 } (l ++ q.2.2))
      fun _ => ¬ Clear [] rs := by
  have hzero := ne_zero_of_headerEnd (by omega) hblock
  obtain ⟨meth, u, v, x₁, x₂, x₃, htok⟩ := r.tokens b
  obtain ⟨z, hz⟩ : ∃ z, cstr (m.take n ++ heap d.read.seqno) = b ++ r.header ++ z := by
    rw [hm, List.append_assoc, cstr, List.takeWhile_append_of_pos fun c hc => by
      simpa using hzero c hc]
    exact ⟨_, rfl⟩
  have hmeth : methodToken (b ++ r.header) = some (meth, x₁ ++ []) := by
    have := (htok []).1
    rwa [List.append_nil] at this
  have hversion : versionToken (b ++ r.header) = some (v, x₃ ++ []) := by
    rw [versionToken, urlToken, hmeth]
    simp only [Option.bind_some, (htok []).2.1, (htok []).2.2]
  have hcopy : strtok headerDelim (cstr (m.take (n : ℤ).toNat ++ heap d.read.seqno)) =
      some (meth, x₁ ++ z) := by
    rw [Int.toNat_natCast, hz]
    exact (htok z).1
  obtain ⟨l', hl', hheader⟩ := httpsHeader_eq s i hcopy (htok z).2.1 (htok z).2.2
  rw [hheader, hi]
  split
  · next h₀ =>
    exact ⟨rfl, h.last hblock hmeth hversion hl' h₀ (by simp)⟩
  · next h₀ =>
    split
    · next h₁ =>
      exact ⟨rfl, h.next hblock hmeth hversion hl' h₀ h₁⟩
    · next h₁ =>
      intro hc
      obtain ⟨-, -, t, ht, hver⟩ := h.clear_iff.1 hc
      obtain rfl : (v, x₃ ++ []) = t := Option.some.inj (hversion.symm.trans ht)
      rcases hver with ⟨h₀', -⟩ | ⟨-, h₁', -⟩
      · exact h₀ h₀'
      · exact h₁ h₁'

/-- A header that is none of those awaited. -/
theorem httpsHeader_misheard {m : List Byte} {n : ℤ} {i : ℕ} (hE : ¬ Clear [] rs)
    (hM : ∀ d' l', requestLog l' ≠ [] → Misheard s rs (f.take (i + 4)) d' (l ++ l')) :
    Post (httpsHeader heap d.read s m n i) (fun q => q.1 = i + 4 ∧
      Listening s rs (f.take (i + 4)) { d with read := q.2.1 } (l ++ q.2.2))
      fun _ => ¬ Clear [] rs := by
  refine (httpsHeader_report.mono_error fun _ _ => hE).mono ?_
  rintro q ⟨hq, hlog⟩
  exact ⟨hq, Or.inr (Or.inr (hM _ _ hlog))⟩

/-- An end of a header is found in what lies behind the requests heard. -/
theorem Heard.found {rs₁ rest : List Request} {b : List Byte} (h : Heard s rs f d l rs₁ rest b)
    (hpre : f.seen <+: requestStream rs) {m : List Byte}
    (hm : m.take f.pending.length = f.pending) {i : ℕ} (hstr : strstr headerEnd m = some i)
    (hin : i + 4 ≤ f.pending.length) :
    Post (httpsHeader heap d.read s m f.pending.length i) (fun q => q.1 = i + 4 ∧
      Listening s rs (f.take (i + 4)) { d with read := q.2.1 } (l ++ q.2.2))
      fun _ => ¬ Clear [] rs := by
  have hpend : f.pending <+: b ++ requestStream rest := by
    rw [← h.ahead]
    exact List.IsPrefix.drop hpre f.taken
  have hmtake : ∀ k ≤ f.pending.length, m.take k = (b ++ requestStream rest).take k := by
    intro k hk
    rw [prefix_take_eq hpend hk, ← hm, List.take_take, Nat.min_eq_left hk]
  have h4 : headerEnd.length = 4 := rfl
  rcases rest with _ | ⟨r, rest⟩
  · -- behind the last request
    have hb : strstr headerEnd (b ++ [0]) ≠ none := by
      have hle := hpend.length_le
      rw [show requestStream [] = [] from rfl, List.append_nil] at hle hmtake
      rw [strstr_congr (by decide) hstr (by
        rw [h4, List.take_append_of_le_length (by omega), hmtake _ hin])]
      simp
    exact httpsHeader_misheard (fun hc => hb (h.clear_iff.1 hc)) fun d' l' hl => h.extra _ hl hb
  rw [requestStream_cons, ← List.append_assoc] at hmtake hpend
  by_cases hend : i + 4 = (b ++ r.header).length
  · -- the end of the next header
    have hblock : strstr headerEnd (b ++ r.header) = some ((b ++ r.header).length - 4) := by
      rw [strstr_congr (by decide) hstr (by
        rw [h4, hmtake _ hin]
        exact (List.take_append_of_le_length hend.le).symm)]
      congr 1
      omega
    have hmem : m.take f.pending.length =
        b ++ r.header ++ (m.take f.pending.length).drop (i + 4) := by
      have htake := hmtake _ hin
      rw [hend, List.take_left] at htake
      conv_lhs => rw [← List.take_append_drop (i + 4) (m.take f.pending.length)]
      rw [List.take_take, Nat.min_eq_left hin, hend, htake]
    exact h.header hblock hmem hend
  · have hnot : ¬ Clear b (r :: rest) := by
      intro hc
      -- the two would be found at one place
      have h₁ : strstr headerEnd (b ++ r.header ++ (r.body ++ requestStream rest)) = some i :=
        strstr_congr (by decide) hstr (by rw [h4, hmtake _ hin])
      have hlen : 4 ≤ (b ++ r.header).length := by
        have := r.four_le_length_header
        rw [List.length_append]
        omega
      have h₂ : strstr headerEnd (b ++ r.header ++ (r.body ++ requestStream rest)) =
          some ((b ++ r.header).length - 4) :=
        strstr_congr (by decide) hc.1 (List.take_append_of_le_length (by omega))
      rw [h₁, Option.some.injEq] at h₂
      omega
    exact httpsHeader_misheard (fun hc => hnot (h.clear_iff.1 hc)) fun d' l' _ => h.early hend hnot

/-- What the processor does at a presentation to what has been heard. -/
theorem Listening.read (h : Listening s rs f d l) (ha : d.read.done = 0 → d.read.awaitHeader ≠ 0)
    (hpre : f.seen <+: requestStream rs) {m : List Byte}
    (hm : m.take f.pending.length = f.pending) (hw : HeaderWithin ⟨d, m, f.pending.length⟩) :
    Post (ppHttpsRead heap d s m f.pending.length) (fun q =>
      (q.1 < 0 → Listening s rs f.starve q.2.1 (l ++ q.2.2)) ∧
        (0 ≤ q.1 → q.1 ≤ f.pending.length ∧
          Listening s rs (f.take q.1.toNat) q.2.1 (l ++ q.2.2))) fun _ => ¬ Clear [] rs := by
  by_cases hd : d.read.done = 0
  swap
  · rw [ppHttpsRead_done hd]
    refine ⟨fun hneg => ?_, fun _ => ⟨Int.le_refl _, ?_⟩⟩
    · simp only at hneg
      omega
    · rw [List.append_nil]
      exact h.pass hd _
  have hah := ha hd
  rcases hstr : strstr headerEnd m with _ | i
  · rw [ppHttpsRead_none hd hah hstr]
    refine ⟨fun _ => ?_, fun hpos => ?_⟩
    · rw [List.append_nil]
      exact h.congr rfl rfl rfl
    · simp only at hpos
      omega
  have hin : i + 4 ≤ f.pending.length := by
    rcases hw with hw | hw | hw
    · exact absurd hd hw
    · exact absurd hw hah
    · have := hw i hstr
      simp only at this
      omega
  have hheader : Post (httpsHeader heap d.read s m f.pending.length i) (fun q => q.1 = i + 4 ∧
      Listening s rs (f.take (i + 4)) { d with read := q.2.1 } (l ++ q.2.2))
      fun _ => ¬ Clear [] rs := by
    rcases h with ⟨rs₁, rest, b, h⟩ | h | h
    · exact h.found hpre hm hstr hin
    · exact absurd hd h.done
    · exact httpsHeader_misheard h.unclear fun d' l' _ => h.take _ hd
  rw [ppHttpsRead_some hd hah hstr]
  refine hheader.bind ?_
  rintro ⟨a, st, l'⟩ ⟨rfl, hq⟩
  refine ⟨fun hneg => ?_, fun _ => ⟨by simp only; omega, ?_⟩⟩
  · simp only at hneg
    omega
  · simp only
    rw [show ((i : ℤ) + 4).toNat = i + 4 by omega]
    exact hq

/-- **Runs of receive calls** on a stream of requests, when ends of a header are found in the bytes
presented. -/
theorem https_hears : ServesOn (ppHttps heap write) s (requestStream rs) HeaderWithin (Hearing s rs)
    fun _ => ¬ Clear [] rs where
  arrive := by
    rintro f w d l c ht hpre ⟨hA, -, hL⟩
    have hserves : Serves (ppHttps heap write) s Awaiting HttpsFault := https_serves
    exact ⟨hserves.arrive c ht hA, hpre, hL.congr rfl rfl rfl⟩
  deliver := fun n ⟨hA, hpre, hL⟩ => ⟨hA, hpre, hL.congr rfl rfl rfl⟩
  iso := by
    rintro f w d l a n ⟨hA, hpre, hL⟩
    refine ⟨hA, hpre, hL.congr rfl rfl ?_⟩
    simp [requestLog, logbinIi]
  read := by
    rintro f w d l m ⟨hA, hpre, hL⟩ hf hg hw hp hfit hm hK
    have hserves : Serves (ppHttps heap write) s Awaiting HttpsFault := https_serves
    have hread := hserves.read m hA hf hg hw hp hfit hm
    change Post (ppHttpsRead heap d s m f.pending.length) _ _ at hread ⊢
    refine (hread.and (hL.read hA.1 hpre hm hK)).mono ?_
    rintro ⟨a, d', l'⟩ ⟨h | h | h, hneg, hpos⟩
    · exact Or.inl ⟨h.1, h.2, hpre, hneg h.1⟩
    · exact Or.inr (Or.inl ⟨h.1, h.2.1, h.2.2.1, h.2.2.2, hpre, (hpos h.2.1).2⟩)
    · simp only at h hpos
      have := (hpos (by omega)).1
      omega

/-! ## The exact condition -/

variable {u v v' : Vfd PpHttpState} {x : PpHttpState} {cs : List RecvCall}
  {gs : List (Got PpHttpState)}

/-- A descriptor just accepted hears the requests. -/
theorem hearing_accepted (u : Vfd PpHttpState) (x : PpHttpState) (rs : List Request) :
    Tracks (ppHttps heap write) (Hearing s rs) (u.accepted (ppHttps heap write) s x) Flow.start
      [] := by
  refine tracks_opened u (ppHttps heap write) ⟨⟨fun _ => by simp [ppHttps, ppHttpsInit],
    fun h => absurd rfl h⟩, List.nil_prefix, Or.inl ⟨[], rs, [], rfl, Iff.rfl, ?_, rfl, rfl, rfl,
    rfl, rfl⟩⟩
  rw [Flow.start, List.drop_zero, List.nil_append]

theorem length_le_requestStream (rs : List Request) : rs.length ≤ (requestStream rs).length := by
  induction rs with
  | nil => rfl
  | cons r rs ih =>
    have := r.four_le_length_header
    rw [requestStream_cons, List.length_append, List.length_append, List.length_cons]
    omega

/-- When everything has been given to the application, nothing clear is left. -/
theorem Heard.settled {rs₁ rest : List Request} {b : List Byte} (h : Heard s rs f d l rs₁ rest b)
    (hA : Awaiting f w d l) (hw : w = 0 → f.goal = f.taken) (hseen : f.seen = requestStream rs)
    (hgoal : f.goal = f.seen.length) : Clear [] rs ↔ rest = [] := by
  have hpend : f.pending = b ++ requestStream rest := by rw [Flow.pending, hseen, h.ahead]
  have hplen : f.pending.length = f.seen.length - f.taken := List.length_drop
  have hblen := congrArg List.length hpend
  rw [List.length_append] at hblen
  have hrest := length_le_requestStream rest
  suffices hheadless : Headless f.pending by
    rw [h.clear_iff]
    rw [hpend] at hheadless
    rcases rest with _ | ⟨r, rest⟩
    · -- the last body has no end of a header in it
      refine iff_of_true ?_ rfl
      rw [show requestStream [] = [] from rfl, List.append_nil] at hheadless
      rw [Clear, Option.eq_none_iff_forall_not_mem]
      intro i hi
      have hle := strstr_terminated (by decide) (by decide) hi
      have := hheadless _ i hi
      have h4 : headerEnd.length = 4 := rfl
      omega
    · refine iff_of_false (fun hc => ?_) (List.cons_ne_nil _ _)
      have h4 : headerEnd.length = 4 := rfl
      have hlen := r.four_le_length_header
      have hfound : strstr headerEnd (b ++ requestStream (r :: rest) ++ []) =
          some ((b ++ r.header).length - 4) := by
        refine strstr_congr (by decide) hc.1 ?_
        rw [requestStream_cons, List.append_nil, ← List.append_assoc]
        refine List.take_append_of_le_length ?_
        rw [List.length_append]
        omega
      have := hheadless _ _ hfound
      simp only [requestStream_cons, List.length_append] at this
      omega
  by_cases hw' : w = 0
  · -- all of it has been consumed
    have hnil : f.pending = [] := by
      have := hw hw'
      exact List.eq_nil_of_length_eq_zero (by omega)
    rw [hnil]
    intro c i _
    simp only [List.length_nil]
    omega
  · obtain ⟨-, b', hb', hg, hh⟩ := hA.2 hw'
    have hle := hb'.length_le
    have heq := hb'.eq_of_length (by omega)
    rwa [← heq]

/-- The run goes through, and there is one message for each of the requests, when everything up to
the end of its header is taken and nothing behind it, with its method. -/
def RequestsFramed (s : ℤ) (rs : List Request) (v : Vfd PpHttpState) (cs : List RecvCall) : Prop :=
  ∃ v' gs, recvRun s v cs = .ok (v', gs) ∧ requestLog (logs (traces gs)) = requestReports s 0 rs ∧
    headerEnds 0 rs <+: cutsFrom 0 (traces gs)

/-- The first of the requests are framed, up to the last whose header is taken. -/
def TakenFramed (s : ℤ) (rs : List Request) (v : Vfd PpHttpState) (cs : List RecvCall) : Prop :=
  ∃ rs₁, rs₁ <+: rs ∧ RequestsFramed s rs₁ v cs ∧
    ∀ v' gs, recvRun s v cs = .ok (v', gs) →
      ∀ e ∈ headerEnds 0 rs, e ∈ cutsFrom 0 (traces gs) → e ∈ headerEnds 0 rs₁

/-- In a run that goes through the end of a header found lies within the bytes presented. -/
theorem headerWithin_of_contained {p : Presentation PpHttpState}
    (hp : Contained (ppHttps heap write) s p) : HeaderWithin p := by
  obtain ⟨r, hr, hle⟩ := hp
  by_cases hd : p.data.read.done = 0
  swap
  · exact Or.inl hd
  by_cases ha : p.data.read.awaitHeader = 0
  · exact Or.inr (Or.inl ha)
  refine Or.inr (Or.inr fun i hi => ?_)
  change ppHttpsRead heap p.data s p.mem p.len = .ok r at hr
  have hret : Post (ppHttpsRead heap p.data s p.mem p.len) (fun r => r.1 = i + 4) AnyFault := by
    rw [ppHttpsRead_some hd ha hi]
    exact (httpsHeader_spec.mono_error fun _ _ => trivial).bind fun r hr => hr.1
  have := hret.of_eq_ok hr
  omega

/-- What a run over a stream of requests comes to. -/
theorem requests_run (hl : ∀ c ∈ cs, c.len < 2 ^ 31)
    (hs : runArrives s (u.accepted (ppHttps heap write) s x) cs <+: requestStream rs)
    (hK : ∀ p ∈ runPresents s (u.accepted (ppHttps heap write) s x) cs, HeaderWithin p) :
    Post (recvRun s (u.accepted (ppHttps heap write) s x) cs) (fun q =>
      ∃ f, Tracks (ppHttps heap write) (Hearing s rs) q.1 f (logs (traces q.2)) ∧
        f.cuts = cutsFrom 0 (traces q.2) ∧ f.seen.take f.given = handed q.2)
      fun _ => ¬ Clear [] rs := by
  refine (recvRun_rule https_hears hl (hearing_accepted u x rs) hs hK).mono ?_
  rintro ⟨v', gs⟩ ⟨f, hT, hm⟩
  rw [List.nil_append] at hT
  have hcuts := hm.cuts
  have hout := hm.out
  simp only [Flow.start, List.take_nil, List.nil_append] at hcuts hout
  exact ⟨f, hT, hcuts, hout⟩

/-- What the application has been given is everything. -/
theorem settled_of_handed {f : Flow Byte} {l : List LogCall} {rs₁ rest : List Request}
    {b : List Byte} (hT : Tracks (ppHttps heap write) (Hearing s rs) v f l)
    (h : Heard s rs f v.ppData l rs₁ rest b) (hall : f.seen.take f.given = requestStream rs) :
    Clear [] rs ↔ rest = [] := by
  obtain ⟨hA, hpre, -⟩ := hT.obs
  have hlen := congrArg List.length hall
  rw [List.length_take] at hlen
  have hseen := hpre.length_le
  have hgiven := hT.wf.given_le
  have hgoal := hT.wf.goal_le
  exact h.settled hA hT.unit (hpre.eq_of_length (by omega)) (by omega)

section Framing

variable (hl : ∀ c ∈ cs, c.len < 2 ^ 31)
  (hs : runArrives s (u.accepted (ppHttps heap write) s x) cs <+: requestStream rs)

include hl hs

/-- Clear requests are framed as far as the run goes, and all of them when all has been given to the
application. -/
theorem framed_of_clear (hc : Clear [] rs)
    (hK : ∀ p ∈ runPresents s (u.accepted (ppHttps heap write) s x) cs, HeaderWithin p) :
    ∃ v' gs rs₁, recvRun s (u.accepted (ppHttps heap write) s x) cs = .ok (v', gs) ∧ rs₁ <+: rs ∧
      RequestsFramed s rs₁ (u.accepted (ppHttps heap write) s x) cs ∧
      (∀ e ∈ headerEnds 0 rs, e ∈ cutsFrom 0 (traces gs) → e ∈ headerEnds 0 rs₁) ∧
      (handed gs = requestStream rs → rs₁ = rs) := by
  have hpost := requests_run hl hs hK
  rcases hrun : recvRun s (u.accepted (ppHttps heap write) s x) cs with e | ⟨v', gs⟩
  · rw [hrun] at hpost
    exact absurd hc hpost
  rw [hrun] at hpost
  obtain ⟨f, hT, hcuts, hout⟩ := hpost
  refine ⟨v', gs, ?_⟩
  obtain ⟨-, -, ⟨rs₁, rest, b, h⟩ | h | h⟩ := hT.obs
  · refine ⟨rs₁, rfl, h.split ▸ List.prefix_append .., ⟨v', gs, hrun, h.log, ?_⟩, ?_,
      fun hall => ?_⟩
    · rw [← hcuts, h.cuts]
    · intro e _ he
      rwa [← hcuts, h.cuts] at he
    · obtain rfl := (settled_of_handed hT h (hout.trans hall)).1 hc
      rw [h.split, List.append_nil]
  · exact ⟨rs, rfl, List.prefix_refl _, ⟨v', gs, hrun, h.log, hcuts ▸ h.cuts⟩,
      fun e he _ => he, fun _ => rfl⟩
  · exact absurd hc h.unclear

/-- Requests that are framed, and all given to the application, are clear. -/
theorem clear_of_framed (hF : RequestsFramed s rs (u.accepted (ppHttps heap write) s x) cs)
    (hall : ∀ v' gs, recvRun s (u.accepted (ppHttps heap write) s x) cs = .ok (v', gs) →
      handed gs = requestStream rs) :
    Clear [] rs ∧ ∀ p ∈ runPresents s (u.accepted (ppHttps heap write) s x) cs, HeaderWithin p := by
  obtain ⟨v', gs, hrun, hlog, hends⟩ := hF
  have hT₀ := tracks_opened (J := Awaiting) u (ppHttps heap write)
    (d := ((ppHttps heap write).ppInit s x).1)
    ⟨fun _ => by simp [ppHttps, ppHttpsInit], fun h => absurd rfl h⟩
  have hK : ∀ p ∈ runPresents s (u.accepted (ppHttps heap write) s x) cs, HeaderWithin p :=
    fun p hp => headerWithin_of_contained (runPresents_contained https_serves hl hT₀ hrun p hp)
  refine ⟨?_, hK⟩
  obtain ⟨f, hT, hcuts, hout⟩ := (requests_run hl hs hK).of_eq_ok hrun
  obtain ⟨-, -, ⟨rs₁, rest, b, h⟩ | h | h⟩ := hT.obs
  · refine (settled_of_handed hT h (hout.trans (hall v' gs hrun))).2 ?_
    -- as many messages as requests
    have hlen := congrArg List.length (h.log.symm.trans hlog)
    simp only [length_requestReports, h.split, List.length_append] at hlen
    exact List.eq_nil_of_length_eq_zero (by omega)
  · exact h.clear
  · simp only at hcuts hlog hends
    rcases h.off with hoff | hoff | ⟨-, hoff⟩
    · exact absurd (Or.inr (hcuts ▸ hends)) hoff
    · exact absurd (hlog ▸ List.prefix_refl _) hoff
    · exact absurd hlog hoff

end Framing

/-- **The framing of HTTP requests.** A descriptor with the processor `https` is accepted, a
sequence of requests arrives on it, and the application reads. If the requests are clear and at
every presentation the end of a header lies within the bytes presented, those whose headers are
taken in the run are framed. If the application is given all of them, they are framed if and only if
this is so. -/
theorem requests_framed_iff (heap : ℤ → List Byte)
    (write : PpHttpState → ℤ → List Byte → ℤ → Except Fault (ℤ × PpHttpState × List LogCall))
    (s : ℤ) (u : Vfd PpHttpState) (x : PpHttpState) (rs : List Request) (cs : List RecvCall)
    (hl : ∀ c ∈ cs, c.len < 2 ^ 31)
    (hs : runArrives s (u.accepted (ppHttps heap write) s x) cs <+: requestStream rs) :
    (Clear [] rs ∧
        (∀ p ∈ runPresents s (u.accepted (ppHttps heap write) s x) cs, HeaderWithin p) →
      TakenFramed s rs (u.accepted (ppHttps heap write) s x) cs) ∧
    ((∀ v' gs, recvRun s (u.accepted (ppHttps heap write) s x) cs = .ok (v', gs) →
        handed gs = requestStream rs) →
      (RequestsFramed s rs (u.accepted (ppHttps heap write) s x) cs ↔ Clear [] rs ∧
        ∀ p ∈ runPresents s (u.accepted (ppHttps heap write) s x) cs, HeaderWithin p)) := by
  refine ⟨fun ⟨hc, hK⟩ => ?_, fun hall => ⟨fun hF => clear_of_framed hl hs hF hall, ?_⟩⟩
  · obtain ⟨v', gs, rs₁, hrun, hpre, hF, htaken, -⟩ := framed_of_clear hl hs hc hK
    refine ⟨rs₁, hpre, hF, fun v'' gs' hrun' => ?_⟩
    cases hrun.symm.trans hrun'
    exact htaken
  · rintro ⟨hc, hK⟩
    obtain ⟨v', gs, rs₁, hrun, -, hF, -, heq⟩ := framed_of_clear hl hs hc hK
    exact heq (hall v' gs hrun) ▸ hF

/-- A request with no body. -/
def getIndex : Request where
  method := ascii "GET"
  target := ascii "/"
  fields := []
  body := []
  method_text := by decide
  target_text := by decide
  fields_text := by decide
  body_length := Or.inl rfl

/-- A request with a body of two bytes. -/
def postTwo : Request where
  method := ascii "POST"
  target := ascii "/"
  fields := [ascii "Content-Length: 2"]
  body := ascii "hi"
  method_text := by decide
  target_text := by decide
  fields_text := by decide
  body_length := Or.inr ⟨ascii "Content-Length: 2", by decide, ascii "Content-Length", [32],
    ascii "2", [], by decide, by decide, by simp, by decide, List.all_eq_true.1 (by decide),
    by decide⟩

/-- A descriptor just accepted, in a process that has accepted none before. -/
def acceptedHttps : Vfd PpHttpState := (Vfd.zero default).accepted httpsTaking 5 default

/-- The application reads twice; everything is there when it does so first. -/
def readTwice (rs : List Request) : List RecvCall :=
  [⟨.read, 1000, .give (requestStream rs)⟩, ⟨.read, 1000, .give []⟩]

theorem requests_framed_iff_getIndex :
    (Clear [] [getIndex] ∧
        (∀ p ∈ runPresents 5 acceptedHttps (readTwice [getIndex]), HeaderWithin p) →
      TakenFramed 5 [getIndex] acceptedHttps (readTwice [getIndex])) ∧
    ((∀ v' gs, recvRun 5 acceptedHttps (readTwice [getIndex]) = .ok (v', gs) →
        handed gs = requestStream [getIndex]) →
      (RequestsFramed 5 [getIndex] acceptedHttps (readTwice [getIndex]) ↔ Clear [] [getIndex] ∧
        ∀ p ∈ runPresents 5 acceptedHttps (readTwice [getIndex]), HeaderWithin p)) :=
  requests_framed_iff (fun _ => [0]) (fun d _ _ n => .ok (n, d, [])) 5 (Vfd.zero default) default
    [getIndex] (readTwice [getIndex]) (by decide)
    (List.isPrefixOf_iff_prefix.1 (by decide +kernel))

/-- Of a body of two bytes and the request line behind it `pp_https_read` makes one: the method of
the second request is reported as `hiGET`. -/
theorem body_joins_method :
    (∃ v gs, recvRun 5 acceptedHttps (readTwice [postTwo, getIndex]) = .ok (v, gs) ∧
        handed gs = requestStream [postTwo, getIndex] ∧
        methodProp (ascii "hiGET") ∈ logs (traces gs)) ∧
      ¬ RequestsFramed 5 [postTwo, getIndex] acceptedHttps (readTwice [postTwo, getIndex]) := by
  have hrun : (match recvRun 5 acceptedHttps (readTwice [postTwo, getIndex]) with
      | .ok (_, gs) => decide (handed gs = requestStream [postTwo, getIndex] ∧
          methodProp (ascii "hiGET") ∈ logs (traces gs))
      | .error _ => false) = true := by
    decide +kernel
  rcases hres : recvRun 5 acceptedHttps (readTwice [postTwo, getIndex]) with e | ⟨v, gs⟩
  · rw [hres] at hrun
    cases hrun
  rw [hres] at hrun
  obtain ⟨hall, hmem⟩ := of_decide_eq_true hrun
  refine ⟨⟨v, gs, rfl, hall, hmem⟩, ?_⟩
  rintro ⟨v', gs', hrun', hlog, -⟩
  cases hres.symm.trans hrun'
  have hin : methodProp (ascii "hiGET") ∈ requestLog (logs (traces gs)) :=
    List.mem_filter.2 ⟨hmem, by decide⟩
  rw [hlog] at hin
  exact absurd hin (by decide)

end Run

end BorderPatrol.Trace
