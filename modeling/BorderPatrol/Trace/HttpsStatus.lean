import BorderPatrol.Trace.HttpText

/-!
# The status of an HTTP response

`pp_https_write` reads the length of a body off the status of a response: off the first line of it
that has `Content-Length: ` in it or says that the connection is closed, in a copy of 1024 bytes.
`Response.Announced` says that it reads the length right off this line. On the status of a response
the branch does what that line tells, when the line is in the copy, and runs off the end of the copy
otherwise (`httpsStatus_spec`).
-/

namespace BorderPatrol.Trace

open Foundations

/-! ## Responses -/

/-- A response of HTTP/1.1 with the length of its body in a line of its own. The text of the status
line does not end in a blank. -/
structure Response where
  status : List Byte
  reason : List Byte
  fields : List (List Byte)
  body : List Byte
  status_text : status ≠ [] ∧ LineText status ∧ 32 ∉ status
  reason_text : LineText reason ∧ reason.getLast? ≠ some 32
  fields_text : ∀ f ∈ fields, f ≠ [] ∧ LineText f
  length_field : ∃ n, n ≠ [] ∧ (∀ b ∈ n, isdigit b) ∧ leadingNat n = body.length ∧
    contentLength ++ n ∈ fields

namespace Response

/-- The status line. -/
def statusLine (r : Response) : List Byte :=
  ascii "HTTP/1.1" ++ 32 :: (r.status ++ 32 :: r.reason)

/-- The header. -/
def header (r : Response) : List Byte := headerBlock (r.statusLine :: r.fields)

/-- The response as it is written. -/
def message (r : Response) : List Byte := r.header ++ r.body

/-- The lines `pp_https_write` looks at: the reason phrase, and the fields, each with the line feed
in front of it. -/
def lines (r : Response) : List (List Byte) := r.reason :: r.fields.map (10 :: ·)

end Response

/-- A line that `pp_https_write` stops at. -/
def tells (line : List Byte) : Bool := contains contentLength line || contains connectionClose line

/-- Lines, each with its carriage return. -/
def withReturns (lines : List (List Byte)) : List Byte := lines.flatMap (· ++ [13])

namespace Response

/-- The lines in front of the one it stops at. -/
def untold (r : Response) : List (List Byte) := r.lines.takeWhile (! tells ·)

/-- The line it stops at. -/
def told (r : Response) : List Byte := (r.lines.find? tells).getD []

/-- What it has to copy to see the end of that line. -/
def copied (r : Response) : List Byte :=
  ascii "HTTP/1.1" ++ 32 :: (r.status ++ 32 :: withReturns (r.untold ++ [r.told]))

/-- The response announces its body: the line `pp_https_write` stops at lies in the bytes it copies,
has `Content-Length: ` in it and, at the place where the number is expected, the length of the body,
which is not empty. -/
structure Announced (r : Response) : Prop where
  copied_le : r.copied.length ≤ statusCopy
  content : contains contentLength r.told
  value : atoi (r.told.drop 17) = r.body.length
  body_ne : r.body ≠ []

end Response

theorem withReturns_append (l l' : List (List Byte)) :
    withReturns (l ++ l') = withReturns l ++ withReturns l' := by
  simp [withReturns]

theorem withReturns_cons (l : List Byte) (ls : List (List Byte)) :
    withReturns (l :: ls) = l ++ 13 :: withReturns ls := by
  simp [withReturns]

theorem contains_le {needle line : List Byte} (hne : needle ≠ []) (h₀ : 0 ∉ needle)
    (h : contains needle line) : needle.length ≤ line.length := by
  obtain ⟨i, hi⟩ := Option.isSome_iff_exists.1 h
  have := strstr_terminated hne h₀ hi
  omega

/-- A field with a line feed in front has what it begins with. -/
theorem contains_field {x : Byte} {needle : List Byte} (hx : x ≠ 10) (n : List Byte) :
    contains (x :: needle) (10 :: (x :: needle ++ n)) := by
  have hskip : ∀ b ∈ [(10 : Byte)], b ≠ 0 ∧ b ≠ x := by
    simpa using hx.symm
  have hpre : (x :: needle).isPrefixOf (x :: needle ++ n ++ [0]) := by
    rw [List.isPrefixOf_iff_prefix, List.append_assoc]
    exact List.prefix_append ..
  have h : strstr (x :: needle) ([10] ++ (x :: needle ++ n ++ [0])) = _ := strstr_append hskip
  simp only [List.cons_append, List.nil_append] at h hpre
  rw [contains, List.cons_append, List.cons_append, List.cons_append, h, strstr, if_pos hpre]
  rfl

namespace Response

variable (r : Response)

/-- The lines, told apart. -/
theorem lines_eq : ∃ post, r.lines = r.untold ++ r.told :: post ∧ tells r.told ∧
    ∀ l ∈ r.untold, tells l = false := by
  obtain ⟨n, -, -, -, hn⟩ := r.length_field
  have hmem : 10 :: (contentLength ++ n) ∈ r.lines :=
    List.mem_cons_of_mem _ (List.mem_map.2 ⟨_, hn, rfl⟩)
  have htells : tells (10 :: (contentLength ++ n)) := by
    have : contains (67 :: contentLength.tail) (10 :: (67 :: contentLength.tail ++ n)) :=
      contains_field (by decide) n
    rw [tells, Bool.or_eq_true]
    exact Or.inl this
  rcases hfind : r.lines.find? tells with _ | l
  · exact absurd htells (by simpa using List.find?_eq_none.1 hfind _ hmem)
  obtain ⟨hl, pre, post, heq, hpre⟩ := List.find?_eq_some_iff_append.1 hfind
  have htold : r.told = l := by rw [told, hfind, Option.getD_some]
  have huntold : r.untold = pre := by
    rw [untold, heq]
    exact takeWhile_append_of_neg hpre (by simp [hl])
  refine ⟨post, by rw [htold, huntold, heq], by rw [htold]; exact hl, fun x hx => ?_⟩
  rw [huntold] at hx
  simpa using hpre x hx

theorem statusLine_text : r.statusLine ≠ [] ∧ LineText r.statusLine := by
  refine ⟨by simp [statusLine], fun b hb => ?_⟩
  rw [statusLine, List.mem_append, List.mem_cons, List.mem_append, List.mem_cons] at hb
  rcases hb with hb | rfl | hb | rfl | hb
  · have hall : LineText (ascii "HTTP/1.1") := by decide
    exact hall b hb
  · decide
  · exact r.status_text.2.1 b hb
  · decide
  · exact r.reason_text.1 b hb

/-- Where the end of the header is found. -/
theorem strstr_header (c : List Byte) :
    strstr headerEnd (r.header ++ c) = some (r.header.length - 4) := by
  refine strstr_headerBlock (by simp) ?_ c
  rintro l (_ | ⟨_, hl⟩)
  · exact r.statusLine_text
  · exact r.fields_text l hl

theorem four_le_length_header : 4 ≤ r.header.length := by
  have := two_le_length_headerBlock r.fields
  rw [header, headerBlock_cons, List.length_append, List.length_cons, List.length_cons]
  omega

/-- The lines have no zero and no carriage return. -/
theorem lines_text : ∀ l ∈ r.lines, ∀ b ∈ l, b ≠ 0 ∧ b ≠ 13 := by
  intro l hl b hb
  rcases List.mem_cons.1 hl with rfl | hl
  · have := r.reason_text.1 b hb
    exact ⟨this.1, this.2.2⟩
  · obtain ⟨f, hf, rfl⟩ := List.mem_map.1 hl
    rcases List.mem_cons.1 hb with rfl | hb
    · decide
    · have := (r.fields_text f hf).2 b hb
      exact ⟨this.1, this.2.2⟩

theorem withReturns_fields (fields : List (List Byte)) :
    withReturns (fields.map (10 :: ·)) ++ [10, 13, 10] = 10 :: headerBlock fields := by
  induction fields with
  | nil => rfl
  | cons f fields ih =>
    rw [List.map_cons, withReturns_cons, headerBlock_cons, List.append_assoc, List.cons_append,
      List.cons_append, ih]

/-- The header as `strtok` takes it apart. -/
theorem header_eq : r.header =
    ascii "HTTP/1.1" ++ 32 :: (r.status ++ 32 :: (withReturns r.lines ++ [10, 13, 10])) := by
  rw [lines, withReturns_cons, List.append_assoc, List.cons_append, withReturns_fields, header,
    headerBlock_cons, statusLine]
  simp only [List.append_assoc, List.cons_append]

theorem header_ne_zero : ∀ b ∈ r.header, b ≠ 0 := by
  intro b hb
  rw [header, headerBlock, List.mem_append] at hb
  rcases hb with hb | hb
  · obtain ⟨l, hl, hb⟩ := List.mem_flatMap.1 hb
    rcases List.mem_append.1 hb with hb | hb
    · rcases List.mem_cons.1 hl with rfl | hl
      · exact (r.statusLine_text.2 b hb).1
      · exact ((r.fields_text l hl).2 b hb).1
    · have hall : ∀ b ∈ [(13 : Byte), 10], b ≠ 0 := by simp
      exact hall b hb
  · have hall : ∀ b ∈ [(13 : Byte), 10], b ≠ 0 := by simp
    exact hall b hb

theorem told_mem : r.told ∈ r.lines := by
  obtain ⟨post, heq, -⟩ := r.lines_eq
  rw [heq]
  exact List.mem_append_right _ List.mem_cons_self

/-- There is something behind `Content-Length: ` or in front of it. -/
theorem told_length (h : contains contentLength r.told) : 17 ≤ r.told.length := by
  have hle : 16 ≤ r.told.length := contains_le (by decide) (by decide) h
  by_contra hlt
  obtain ⟨i, hi⟩ := Option.isSome_iff_exists.1 h
  have hend := strstr_terminated (by decide) (by decide) hi
  have h16 : contentLength.length = 16 := rfl
  obtain rfl : i = 0 := by omega
  -- then the line is `Content-Length: ` and nothing else
  have hpre := strstr_found hi
  rw [List.drop_zero] at hpre
  have heq : contentLength = r.told :=
    (List.prefix_of_prefix_length_le hpre (List.prefix_append ..) (by omega)).eq_of_length
      (by omega)
  rcases List.mem_cons.1 r.told_mem with hm | hm
  · refine r.reason_text.2 ?_
    rw [← hm, ← heq]
    decide
  · obtain ⟨f, -, hf⟩ := List.mem_map.1 hm
    rw [← heq] at hf
    exact absurd (congrArg List.head? hf) (by simp; decide)

end Response

/-! ## The status branch -/

section Status

variable {st : PpHttpStateWrite} {s : ℤ}

theorem statusLines_skip (n w : ℕ) (tmp : List Byte) :
    statusLines (n + 1) ((13 :: tmp).take (w + 1)) st = statusLines (n + 1) (tmp.take w) st := by
  rw [statusLines, strtokIn_skip (by decide), statusLines]

theorem stringIn_append {l m : List Byte} (hl : ∀ b ∈ l, b ≠ 0) :
    stringIn (l ++ 0 :: m) = .ok l := by
  rw [stringIn, inBounds_of (by simp), ok_bind, cstr,
    takeWhile_append_of_neg (fun b hb => by simpa using hl b hb) (by simp)]
  rfl

/-- What the line it stops at makes of the state. -/
def tell (line : List Byte) (st : PpHttpStateWrite) : PpHttpStateWrite :=
  if contains contentLength line then { st with toread := atoi (line.drop 17) }
  else { st with done := 1 }

/-- **The loop over the lines** comes to the line that tells, when all of it is in the copy. -/
theorem statusLines_spec {pre : List (List Byte)} {line : List Byte} (st : PpHttpStateWrite)
    (y : List Byte) {n w : ℕ}
    (hpre : ∀ l ∈ pre, (∀ b ∈ l, b ≠ 0 ∧ b ≠ 13) ∧ tells l = false)
    (hline : ∀ b ∈ line, b ≠ 0 ∧ b ≠ 13) (ht : tells line)
    (h17 : contains contentLength line → 17 ≤ line.length) (hn : w < n) :
    if (withReturns (pre ++ [line])).length ≤ w then
      ∃ l, statusLines n ((withReturns (pre ++ [line]) ++ y).take w) st = .ok (tell line st, l) ∧
        messages l = []
    else statusLines n ((withReturns (pre ++ [line]) ++ y).take w) st = .error .overrun := by
  induction pre generalizing n w with
  | nil =>
    obtain ⟨n, rfl⟩ : ∃ n', n = n' + 1 := ⟨n - 1, by omega⟩
    have hne : line ≠ [] := by
      rintro rfl
      exact absurd ht (by decide)
    have htok : strtokIn [13] ((line ++ 13 :: y).take w) = _ := strtokIn_token hne
      (fun b hb => ⟨by simpa using (hline b hb).2, (hline b hb).1⟩) (by decide) (by decide)
    rw [List.nil_append, withReturns_cons, show withReturns [] = [] from rfl, List.length_append,
      List.length_singleton, List.append_assoc, List.singleton_append, statusLines, htok]
    by_cases hw : line.length < w
    · rw [if_pos (by omega), if_pos hw]
      simp only [orOverrun, Option.elim_some, ok_bind, tell]
      by_cases hc : contains contentLength line
      · have hdrop : (line ++ 0 :: y.take (w - line.length - 1)).drop 17 =
            line.drop 17 ++ 0 :: y.take (w - line.length - 1) :=
          List.drop_append_of_le_length (h17 hc)
        rw [if_pos hc, hdrop, stringIn_append fun b hb => (hline b (List.mem_of_mem_drop hb)).1,
          if_pos hc]
        exact ⟨_, rfl, by simp [messages, logbinSs, logbinS]⟩
      · have hclose : contains connectionClose line := by
          rw [tells, Bool.or_eq_true] at ht
          exact ht.resolve_left hc
        rw [if_neg hc, if_pos hclose, if_neg hc]
        exact ⟨[], rfl, rfl⟩
    · rw [if_neg (by omega), if_neg hw]
      rfl
  | cons l pre ih =>
    obtain ⟨⟨hl, htl⟩, hrest⟩ := List.forall_mem_cons.1 hpre
    obtain ⟨n, rfl⟩ : ∃ n', n = n' + 1 := ⟨n - 1, by omega⟩
    rw [List.cons_append, withReturns_cons, List.append_assoc, List.cons_append]
    by_cases hne : l = []
    · -- `strtok` does not see an empty line
      subst hne
      rw [List.nil_append, List.nil_append]
      rcases w with _ | w
      · rw [if_neg (by simp), List.take_zero]
        rfl
      · rw [statusLines_skip, List.length_cons]
        have := ih (n := n + 1) (w := w) hrest (by omega)
        simpa only [Nat.add_le_add_iff_right] using this
    · have htok : strtokIn [13] ((l ++ 13 :: (withReturns (pre ++ [line]) ++ y)).take w) = _ :=
        strtokIn_token hne (fun b hb => ⟨by simpa using (hl b hb).2, (hl b hb).1⟩) (by decide)
          (by decide)
      rw [statusLines, htok, List.length_append, List.length_cons]
      rw [tells, Bool.or_eq_false_iff] at htl
      by_cases hw : l.length < w
      · rw [if_pos hw]
        simp only [orOverrun, Option.elim_some, ok_bind, htl, Bool.false_eq_true, if_false]
        have := ih (n := n) (w := w - l.length - 1) hrest (by omega)
        simpa only [show l.length + ((withReturns (pre ++ [line])).length + 1) ≤ w ↔
          (withReturns (pre ++ [line])).length ≤ w - l.length - 1 by omega] using this
      · rw [if_neg (by omega), if_neg hw]
        rfl

/-- The log call that reports response `k`. -/
def sent (s k : ℤ) : LogCall := logbinIiis .ppMsgSend 0 (PpId.num .https) s k (ascii "https")

theorem tell_seqno (line : List Byte) : (tell line st).seqno = st.seqno := by
  unfold tell
  split <;> rfl

/-- **The status of a response**: it is read off the copy, or the copy is too short. -/
theorem httpsStatus_spec (st : PpHttpStateWrite) (s : ℤ) (r : Response) (c : List Byte) :
    if r.copied.length ≤ statusCopy then
      ∃ l, httpsStatus st s (r.header ++ c) = .ok ({ tell r.told { st with awaitStatus := 0 } with
        seqno := toInt (st.seqno + 1) }, l) ∧ messages l = [sent s st.seqno]
    else httpsStatus st s (r.header ++ c) = .error .overrun := by
  obtain ⟨y, hy⟩ := strncpy_append (m := c) statusCopy r.header_ne_zero
  obtain ⟨post, hlines, htold, huntold⟩ := r.lines_eq
  have htext := r.lines_text
  set z := withReturns post ++ [10, 13, 10] ++ y with hz
  have hheader : r.header ++ y = ascii "HTTP/1.1" ++ 32 :: (r.status ++ 32 ::
      (withReturns (r.untold ++ [r.told]) ++ z)) := by
    rw [r.header_eq, hlines, hz, List.append_cons r.untold r.told post, withReturns_append]
    simp only [List.append_assoc, List.cons_append]
  have hlen : r.copied.length = r.status.length + 10 +
      (withReturns (r.untold ++ [r.told])).length := by
    rw [Response.copied, List.length_append, List.length_cons, List.length_append, List.length_cons,
      show (ascii "HTTP/1.1").length = 8 from rfl]
    omega
  have hversion : strtokIn headerDelim ((ascii "HTTP/1.1" ++ 32 :: (r.status ++ 32 ::
      (withReturns (r.untold ++ [r.told]) ++ z))).take statusCopy) = _ := strtokIn_token (by decide)
    (LineText.not_delim (by decide) (by decide)) (by decide) (by decide)
  rw [if_pos (show (ascii "HTTP/1.1").length < statusCopy by decide),
    show statusCopy - (ascii "HTTP/1.1").length - 1 = 1015 from rfl] at hversion
  have hstatus : strtokIn headerDelim ((r.status ++ 32 ::
      (withReturns (r.untold ++ [r.told]) ++ z)).take 1015) = _ := strtokIn_token r.status_text.1
    (r.status_text.2.1.not_delim r.status_text.2.2) (by decide) (by decide)
  have hcopy : statusCopy = 1024 := rfl
  have hloop := statusLines_spec { st with awaitStatus := 0 } z
    (n := statusCopy + 1) (w := 1015 - r.status.length - 1)
    (fun l hl => ⟨htext l (hlines ▸ List.mem_append_left _ hl), huntold l hl⟩)
    (htext r.told r.told_mem) htold r.told_length (by omega)
  have hpos : 0 < (withReturns (r.untold ++ [r.told])).length := by
    rw [withReturns_append, List.length_append, withReturns_cons]
    simp
  rw [httpsStatus, hy, hheader, hversion]
  simp only [orOverrun, Option.elim_some, ok_bind, Option.map_some, Option.getD_some, hstatus]
  by_cases hst : r.status.length < 1015
  · simp only [if_pos hst, Option.elim_some, ok_bind, Option.map_some, Option.getD_some]
    by_cases hcop : r.copied.length ≤ statusCopy
    · rw [if_pos (by omega)] at hloop
      obtain ⟨l, hl, hmsg⟩ := hloop
      rw [if_pos hcop, hl, ok_bind]
      refine ⟨_, by rw [tell_seqno]; rfl, ?_⟩
      simp only [messages_append, hmsg]
      simp [messages, logbinSs, logbinS, logbinIiis, sent]
    · rw [if_neg (by omega)] at hloop
      rw [if_neg hcop, hloop]
      rfl
  · rw [if_neg (show ¬ r.copied.length ≤ statusCopy by omega), if_neg hst]
    rfl

theorem atoi_bounds (t : List Byte) : -2 ^ 31 ≤ atoi t ∧ atoi t < 2 ^ 31 := by
  unfold atoi
  dsimp only
  omega

theorem statusLines_post (n : ℕ) (tmp : List Byte) : Post (statusLines n tmp st)
    (fun q => messages q.2 = [] ∧ q.1.seqno = st.seqno ∧ q.1.awaitStatus = st.awaitStatus ∧
      (q.1.toread = st.toread ∨ -2 ^ 31 ≤ q.1.toread ∧ q.1.toread < 2 ^ 31)) AnyFault := by
  induction n generalizing tmp with
  | zero => trivial
  | succ n ih =>
    rw [statusLines]
    rcases strtokIn [13] tmp with _ | _ | line
    · trivial
    · exact ⟨rfl, rfl, rfl, Or.inl rfl⟩
    · simp only [orOverrun, Option.elim_some, ok_bind]
      split
      · refine (anyFault_post _).bind fun clen _ => ?_
        exact ⟨by simp [messages, logbinSs, logbinS], rfl, rfl, Or.inr (atoi_bounds clen)⟩
      · split
        · exact ⟨rfl, rfl, rfl, Or.inl rfl⟩
        · exact ih line.next

/-- Whatever is taken for a status, one message is reported. -/
theorem httpsStatus_post (m : List Byte) : Post (httpsStatus st s m)
    (fun q => messages q.2 = [sent s st.seqno] ∧ q.1.seqno = toInt (st.seqno + 1) ∧
      q.1.awaitStatus = 0 ∧
      (q.1.toread = st.toread ∨ -2 ^ 31 ≤ q.1.toread ∧ q.1.toread < 2 ^ 31)) AnyFault := by
  unfold httpsStatus
  dsimp only
  refine (anyFault_post _).bind fun version _ => ?_
  refine (anyFault_post _).bind fun status _ => ?_
  refine (statusLines_post ..).bind ?_
  rintro ⟨state, l⟩ ⟨hmsg, hseq, hawait, hread⟩
  refine ⟨?_, ?_, hawait, hread⟩
  · simp only at hmsg hseq ⊢
    simp only [messages_append, hmsg, hseq]
    simp [messages, logbinSs, logbinS, logbinIiis, sent]
  · simp only at hseq ⊢
    rw [hseq]

end Status

end BorderPatrol.Trace
