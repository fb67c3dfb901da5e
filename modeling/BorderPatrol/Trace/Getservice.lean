import BorderPatrol.Basic
import BorderPatrol.Foundations.CString

/-!
# Ports of services

`getservice.c`: the lookup of a service by its name, first in `/etc/services` and then in the file
of the user. Both lookups put what they read into the same static record. So when the name is in
`/etc/services` and not in the user's file, the answer is read from a record that the second lookup
has written: it is the port of the last entry of the user's file, if that has any (`getports_iff`).

A file that is open for reading is the list of the pieces that `fgets` will return. The buffer the
strings of a record lie in is left out: no string of a record is read after the next line.
-/

namespace BorderPatrol.Trace

open Foundations

/-- `BUFSIZ` -/
def bufsiz : ℕ := 8192

/-- `MAXALIASES` -/
def maxAliases : ℕ := 35

/-- `_PATH_SERVICES` -/
def pathServices : List Byte := ascii "/etc/services"

/-- The file system: what a file that can be opened contains. -/
abbrev FileSystem := List Byte → Option (List Byte)

/-- `htons`, and `ntohs`. -/
def htons (x : ℕ) : ℕ := x % 256 * 256 + x / 256 % 256

/-- `struct servent` -/
structure Servent where
  name : List Byte
  aliases : List (List Byte)
  port : ℕ
  proto : List Byte
  deriving DecidableEq, Repr

/-- A `FILE` open for reading: the pieces that `fgets` returns from its start, and from where it is.
-/
structure File where
  all : List (List Byte)
  rest : List (List Byte)
  deriving DecidableEq, Repr

/-- The static variables of `getservice.c`. `env` is `services_file` once it `is_set`. -/
structure Services where
  servf : Option File
  serv : Servent
  stayopen : ℤ
  env : Option (Option (List Byte))
  deriving DecidableEq, Repr

/-- The static variables before the first call. -/
def Services.start : Services := ⟨none, ⟨[], [], 0, []⟩, 0, none⟩

/-- The pieces that `fgets(line, n, f)` returns: each ends with a line feed, or has `n - 1` bytes,
or is the last. The second argument is the piece begun, backwards. -/
def fgetsAll (n : ℕ) : List Byte → List Byte → List (List Byte)
  | [], [] => []
  | piece, [] => [piece.reverse]
  | piece, b :: s =>
    if b = 10 ∨ piece.length + 2 = n then (b :: piece).reverse :: fgetsAll n [] s
    else fgetsAll n (b :: piece) s

/-- `fopen`, for a file that is read with `fgets(line, BUFSIZ, f)`. -/
def fopen (fs : FileSystem) (path : List Byte) : Option File :=
  (fs path).map fun s => ⟨fgetsAll bufsiz [] s, fgetsAll bufsiz [] s⟩

/-- The characters `" \t"`. -/
def blanks : List Byte := [32, 9]

/-- A line of the file, as `bpgetservent_r` reads it into the record. A line without an entry may
change the name in the record. -/
def readEntry (serv : Servent) (line : List Byte) : Bool × Servent :=
  let p := cstr line
  if p.head? = some 35 then (false, serv)
  else
    match strpbrk [35, 10] p with
    | none => (false, serv)
    | some (p, _) =>
      match strpbrk blanks p with
      | none => (false, { serv with name := p })
      | some (name, p) =>
        match strpbrk [44, 47] (p.dropWhile (· ∈ blanks)) with
        | none => (false, { serv with name := name })
        | some (port, cp) =>
          let (proto, rest) := (strpbrk blanks cp).getD (cp, [])
          (true, {
            name := name
            aliases := ((rest.splitOnP (· ∈ blanks)).filter (· ≠ [])).take (maxAliases - 1)
            port := htons (atoi port % 2 ^ 16).toNat
            proto := proto })

/-- `bpsetservent` -/
def bpsetservent (fs : FileSystem) (st : Services) (f : ℤ) (servicesFile : Option (List Byte)) :
    Services :=
  let servf := match st.servf with
    | none => fopen fs (servicesFile.getD pathServices)
    | some file => some { file with rest := file.all }
  { st with servf := servf, stayopen := if f ≠ 0 then 1 else st.stayopen }

/-- `bpendservent` -/
def bpendservent (st : Services) : Services := { st with servf := none, stayopen := 0 }

/-- The loop of `bpgetservent_r` over the lines, up to the first with an entry. -/
def nextEntry (serv : Servent) : List (List Byte) → Bool × Servent × List (List Byte)
  | [] => (false, serv, [])
  | line :: lines =>
    match readEntry serv line with
    | (false, serv) => nextEntry serv lines
    | (true, serv) => (true, serv, lines)

/-- `bpgetservent_r` on the static record: whether it found an entry. -/
def bpgetserventR (fs : FileSystem) (st : Services) (servicesFile : Option (List Byte)) :
    Bool × Services :=
  match st.servf <|> fopen fs (servicesFile.getD pathServices) with
  | none => (false, st)
  | some file =>
    let (found, serv, rest) := nextEntry st.serv file.rest
    (found, { st with servf := some { file with rest := rest }, serv := serv })

/-- The entry has the name, or an alias of it, and the protocol when one is asked for. -/
def Servent.named (e : Servent) (name : List Byte) (proto : Option (List Byte)) : Bool :=
  (name = e.name || name ∈ e.aliases) && (proto = none || proto = some e.proto)

/-- The loop of `bpgetservbyname_r`. The first argument bounds the entries read. -/
def bynameLoop (fs : FileSystem) (name : List Byte) (proto servicesFile : Option (List Byte)) :
    ℕ → Services → Except Fault (Bool × Services)
  | 0, _ => .error .fuel
  | n + 1, st =>
    match bpgetserventR fs st servicesFile with
    | (false, st) => .ok (false, st)
    | (true, st) =>
      if st.serv.named name proto then .ok (true, st)
      else bynameLoop fs name proto servicesFile n st

/-- `bpgetservbyname` with `bpgetservbyname_r`: whether the static record is the answer. -/
def bpgetservbyname (fs : FileSystem) (st : Services) (name : List Byte)
    (proto servicesFile : Option (List Byte)) : Except Fault (Bool × Services) :=
  let st := bpsetservent fs st st.stayopen servicesFile
  let n := match st.servf with
    | none => 0
    | some file => file.rest.length
  bynameLoop fs name proto servicesFile (n + 1) st >>= fun r =>
    .ok (r.1, if r.2.stayopen = 0 then bpendservent r.2 else r.2)

/-- `getportbyname`, where `getenv` is the value of `LIBBTRACE_SERVICES`. -/
def getportbyname (fs : FileSystem) (getenv : Option (List Byte)) (st : Services)
    (name : List Byte) : Except Fault (ℤ × Services) :=
  let servicesFile := st.env.getD getenv
  let st := { st with env := some servicesFile }
  bpgetservbyname fs st name none none >>= fun (service, st) =>
    let default (st : Services) : ℤ := if service then htons st.serv.port else -1
    match servicesFile with
    | none => .ok (default st, st)
    | some path =>
      bpgetservbyname fs st name none (some path) >>= fun (userService, st) =>
        if userService then .ok (htons st.serv.port, st) else .ok (default st, st)

/-- A sequence of calls. -/
def getports (fs : FileSystem) (getenv : Option (List Byte)) :
    Services → List (List Byte) → Except Fault (List ℤ)
  | _, [] => .ok []
  | st, name :: names =>
    getportbyname fs getenv st name >>= fun (port, st) =>
      getports fs getenv st names >>= fun ports => .ok (port :: ports)

/-! ## What a file says -/

/-- The entry on a line. -/
def entryOf (line : List Byte) : Option Servent :=
  match readEntry Services.start.serv line with
  | (true, e) => some e
  | (false, _) => none

/-- The entries on the lines. -/
def entries (lines : List (List Byte)) : List Servent := lines.filterMap entryOf

/-- The entries of a file, none when it cannot be opened. -/
def fileEntries (fs : FileSystem) (path : List Byte) : List Servent :=
  match fopen fs path with
  | some file => entries file.rest
  | none => []

/-- The port the loop of `bpgetservbyname` finds in a file alone. -/
def findAlone (fs : FileSystem) (name path : List Byte) : Option ℤ :=
  match bpgetservbyname fs .start name none (some path) with
  | .ok (true, st) => some (htons st.serv.port)
  | _ => none

/-- What a user who overrides the defaults expects: the port in the user's file if there is one,
else the port in `/etc/services` if there is one, else -1. -/
def overridden (fs : FileSystem) (getenv : Option (List Byte)) (name : List Byte) : ℤ :=
  ((getenv.bind (findAlone fs name)).or (findAlone fs name pathServices)).getD (-1)

/-- The last entry of the user's file, if there is a file with one, has the default port of a name
that the user's file does not have. -/
def Kept (fs : FileSystem) (getenv : Option (List Byte)) (name : List Byte) : Prop :=
  ∀ path, getenv = some path → findAlone fs name path = none →
    ∀ port, findAlone fs name pathServices = some port →
      ∀ e ∈ (fileEntries fs path).getLast?, (htons e.port : ℤ) = port

/-! ## Lookups -/

/-- A line has an entry, or leaves the port in the record alone. -/
theorem readEntry_cases (serv : Servent) (line : List Byte) :
    (∃ e, entryOf line = some e ∧ readEntry serv line = (true, e)) ∨
      entryOf line = none ∧ ∃ serv', readEntry serv line = (false, serv') ∧
        serv'.port = serv.port := by
  have hskip : ∀ f : Servent → Servent, (∀ s, readEntry s line = (false, f s)) →
      (∀ s, (f s).port = s.port) → entryOf line = none ∧ ∃ serv',
        readEntry serv line = (false, serv') ∧ serv'.port = serv.port := by
    intro f h hport
    exact ⟨by rw [entryOf, h], f serv, h serv, hport serv⟩
  by_cases hp : (cstr line).head? = some 35
  · exact Or.inr (hskip id (fun s => by simp only [readEntry, hp, if_true]; rfl) fun _ => rfl)
  rcases h₁ : strpbrk [35, 10] (cstr line) with _ | ⟨p, t⟩
  · exact Or.inr (hskip id (fun s => by simp only [readEntry, hp, if_false, h₁]; rfl) fun _ => rfl)
  rcases h₂ : strpbrk blanks p with _ | ⟨name, q⟩
  · exact Or.inr (hskip (fun s => { s with name := p })
      (fun s => by simp only [readEntry, hp, if_false, h₁, h₂]) fun _ => rfl)
  rcases h₃ : strpbrk [44, 47] (q.dropWhile (· ∈ blanks)) with _ | ⟨port, cp⟩
  · exact Or.inr (hskip (fun s => { s with name := name })
      (fun s => by simp only [readEntry, hp, if_false, h₁, h₂, h₃]) fun _ => rfl)
  · left
    have hread : ∃ e, ∀ s, readEntry s line = (true, e) := by
      refine ⟨(readEntry serv line).2, fun s => ?_⟩
      simp only [readEntry, hp, if_false, h₁, h₂, h₃]
    obtain ⟨e, he⟩ := hread
    exact ⟨e, by rw [entryOf, he], he serv⟩

/-- The loop of `bpgetservent_r` stops at the first entry. -/
theorem nextEntry_spec (serv : Servent) (lines : List (List Byte)) :
    (∃ e rest, nextEntry serv lines = (true, e, rest) ∧ entries lines = e :: entries rest) ∨
      entries lines = [] ∧ ∃ serv', nextEntry serv lines = (false, serv', []) ∧
        serv'.port = serv.port := by
  induction lines generalizing serv with
  | nil => exact Or.inr ⟨rfl, serv, rfl, rfl⟩
  | cons line lines ih =>
    rcases readEntry_cases serv line with ⟨e, he, hread⟩ | ⟨he, serv', hread, hport⟩
    · left
      refine ⟨e, lines, by rw [nextEntry, hread], ?_⟩
      rw [entries, List.filterMap_cons_some he]
      rfl
    · have hskip : nextEntry serv (line :: lines) = nextEntry serv' lines := by
        rw [nextEntry, hread]
      have hent : entries (line :: lines) = entries lines := List.filterMap_cons_none he
      rw [hskip, hent]
      rcases ih serv' with h | ⟨hnil, serv'', hnext, hport'⟩
      · exact Or.inl h
      · exact Or.inr ⟨hnil, serv'', hnext, hport'.trans hport⟩

/-- The record behind a lookup: the entry found, or one with the port of the last entry read, which
is the old one when there was none. -/
structure Looked (name : List Byte) (proto : Option (List Byte)) (es : List Servent)
    (serv : Servent) (found : Bool) (serv' : Servent) : Prop where
  found_iff : found = (es.find? (·.named name proto)).isSome
  port : serv'.port = match es.find? (·.named name proto) with
    | some e => e.port
    | none => (es.getLast?.map Servent.port).getD serv.port

variable {fs : FileSystem} {name : List Byte} {proto servicesFile : Option (List Byte)}

variable (fs name proto servicesFile) in
theorem bynameLoop_spec {n : ℕ} (st : Services) {file : File} (hf : st.servf = some file)
    (hn : (entries file.rest).length < n) :
    ∃ found st', bynameLoop fs name proto servicesFile n st = .ok (found, st') ∧
      Looked name proto (entries file.rest) st.serv found st'.serv ∧
      st'.stayopen = st.stayopen ∧ st'.env = st.env := by
  induction n generalizing st file with
  | zero => omega
  | succ n ih =>
    have hopen : (st.servf <|> fopen fs (servicesFile.getD pathServices)) = some file := by
      rw [hf]
      rfl
    have hent : bpgetserventR fs st servicesFile =
        ((nextEntry st.serv file.rest).1, { st with
          servf := some { file with rest := (nextEntry st.serv file.rest).2.2 }
          serv := (nextEntry st.serv file.rest).2.1 }) := by
      simp only [bpgetserventR, hopen]
    rcases nextEntry_spec st.serv file.rest with ⟨e, rest, hnext, hes⟩ | ⟨hes, serv', hnext, hport⟩
    · rw [hnext] at hent
      simp only at hent
      rw [hes, List.length_cons] at hn
      by_cases hm : e.named name proto
      · refine ⟨true, { st with servf := some { file with rest := rest }, serv := e }, ?_, ⟨?_, ?_⟩,
          rfl, rfl⟩
        · simp only [bynameLoop, hent, hm, if_true]
        · simp only [hes, List.find?_cons, hm, Option.isSome_some]
        · simp only [hes, List.find?_cons, hm]
      · have hm' : e.named name proto = false := by simpa using hm
        obtain ⟨found, st', hloop, hlook, hstay, henv⟩ :=
          ih { st with servf := some { file with rest := rest }, serv := e } rfl
            (by simp only; omega)
        refine ⟨found, st', ?_, ⟨?_, ?_⟩, hstay, henv⟩
        · rw [bynameLoop, hent]
          simp only [hm', Bool.false_eq_true, if_false]
          exact hloop
        · rw [hlook.found_iff, hes]
          simp only [List.find?_cons, hm']
        · rw [hlook.port, hes]
          simp only [List.find?_cons, hm', List.getLast?_cons]
          generalize (entries rest).find? (·.named name proto) = r
          cases r
          · -- the record holds `e` when nothing else is read
            cases (entries rest).getLast? <;> rfl
          · rfl
    · rw [hnext] at hent
      refine ⟨false, { st with servf := some { file with rest := [] }, serv := serv' }, ?_,
        ⟨?_, ?_⟩, rfl, rfl⟩
      · simp only [bynameLoop, hent]
      · rw [hes]
        rfl
      · rw [hes]
        exact hport

variable (fs name proto servicesFile) in
/-- `bpgetservbyname` on closed files. -/
theorem bpgetservbyname_spec (st : Services) (hf : st.servf = none) (hs : st.stayopen = 0) :
    ∃ found st', bpgetservbyname fs st name proto servicesFile = .ok (found, st') ∧
      Looked name proto (fileEntries fs (servicesFile.getD pathServices)) st.serv found st'.serv ∧
      st'.servf = none ∧ st'.stayopen = 0 ∧ st'.env = st.env := by
  obtain ⟨servf, serv, stayopen, env⟩ := st
  obtain rfl : servf = none := hf
  obtain rfl : stayopen = 0 := hs
  have hset : bpsetservent fs ⟨none, serv, 0, env⟩ 0 servicesFile =
      ⟨fopen fs (servicesFile.getD pathServices), serv, 0, env⟩ := rfl
  unfold bpgetservbyname
  rw [hset]
  rcases hopen : fopen fs (servicesFile.getD pathServices) with _ | file
  · -- the file cannot be opened, and `bpgetservent_r` tries again
    have hnone : bpgetserventR fs ⟨none, serv, 0, env⟩ servicesFile =
        (false, ⟨none, serv, 0, env⟩) := by
      unfold bpgetserventR
      rw [hopen]
      rfl
    have hloop : bynameLoop fs name proto servicesFile 1 ⟨none, serv, 0, env⟩ =
        .ok (false, ⟨none, serv, 0, env⟩) := by
      rw [bynameLoop, hnone]
    refine ⟨false, ⟨none, serv, 0, env⟩, congrArg (· >>= _) hloop, ⟨?_, ?_⟩, rfl, rfl, rfl⟩
    · rw [fileEntries, hopen]
      rfl
    · rw [fileEntries, hopen]
      rfl
  · have hlen : (entries file.rest).length < file.rest.length + 1 :=
      Nat.lt_succ_of_le (List.length_filterMap_le _ _)
    obtain ⟨found, st', hloop, hlook, hstay, henv⟩ := bynameLoop_spec fs name proto servicesFile
      ⟨some file, serv, 0, env⟩ rfl hlen
    refine ⟨found, bpendservent st', ?_, ?_, rfl, rfl, henv⟩
    · simp only [hloop, ok_bind]
      rw [if_pos hstay]
    · rw [fileEntries, hopen]
      exact hlook

/-- A lookup finds what the loop finds in the file alone. -/
theorem Looked.alone {path : List Byte} {serv serv' : Servent} {found : Bool}
    (h : Looked name none (fileEntries fs path) serv found serv') :
    findAlone fs name path = if found then some (htons serv'.port : ℤ) else none := by
  obtain ⟨found₀, st₀, hget, hlook, -⟩ :=
    bpgetservbyname_spec fs name none (some path) .start rfl rfl
  have hsame : found₀ = found := hlook.found_iff.trans h.found_iff.symm
  subst hsame
  rw [findAlone, hget]
  cases found₀ with
  | false => rfl
  | true =>
    have hport := h.port
    have hport₀ := hlook.port
    rw [Option.getD_some] at hport₀
    obtain ⟨e, he⟩ := Option.isSome_iff_exists.1 h.found_iff.symm
    rw [he] at hport hport₀
    simp only [hport, hport₀, if_true]

/-- A lookup that finds nothing leaves the port of the last entry. -/
theorem Looked.leftover {es : List Servent} {serv serv' : Servent}
    (h : Looked name proto es serv false serv') :
    serv'.port = (es.getLast?.map Servent.port).getD serv.port := by
  have hport := h.port
  have hnone : es.find? (·.named name proto) = none := by
    rw [← Option.not_isSome_iff_eq_none, ← h.found_iff]
    exact Bool.false_ne_true
  rwa [hnone] at hport

/-- The static variables between calls. -/
structure Closed (getenv : Option (List Byte)) (st : Services) : Prop where
  servf : st.servf = none
  stayopen : st.stayopen = 0
  env : st.env.getD getenv = getenv

theorem closed_start (getenv : Option (List Byte)) : Closed getenv .start := ⟨rfl, rfl, rfl⟩

/-- One call. -/
theorem getportbyname_spec {getenv : Option (List Byte)} {st : Services} (h : Closed getenv st)
    (fs : FileSystem) (name : List Byte) :
    ∃ port st', getportbyname fs getenv st name = .ok (port, st') ∧ Closed getenv st' ∧
      (port = overridden fs getenv name ↔ Kept fs getenv name) := by
  obtain ⟨service, st₁, hget, hlook, hf, hs, henv⟩ := bpgetservbyname_spec fs name none none
    { st with env := some getenv } h.servf h.stayopen
  rw [Option.getD_none] at hlook
  have hdef := hlook.alone
  unfold getportbyname
  simp only [h.env, hget, ok_bind]
  rcases getenv with _ | path
  · refine ⟨_, st₁, rfl, ⟨hf, hs, by rw [henv]; rfl⟩, iff_of_true ?_ fun path hp => by cases hp⟩
    rw [overridden, hdef, Option.bind_none, Option.none_or]
    cases service <;> rfl
  obtain ⟨userService, st₂, hget₂, hlook₂, hf₂, hs₂, henv₂⟩ := bpgetservbyname_spec fs name none
    (some path) st₁ hf hs
  rw [Option.getD_some] at hlook₂
  have huser := hlook₂.alone
  have hclosed : Closed (some path) st₂ := ⟨hf₂, hs₂, by rw [henv₂, henv]; rfl⟩
  simp only [hget₂, ok_bind]
  cases userService with
  | true =>
    refine ⟨_, st₂, rfl, hclosed, iff_of_true ?_ ?_⟩
    · rw [overridden, Option.bind_some, huser]
      rfl
    · rintro _ ⟨⟩ hnone
      rw [huser] at hnone
      cases hnone
  | false =>
    have hleft := hlook₂.leftover
    have hover : overridden fs (some path) name = (findAlone fs name pathServices).getD (-1) := by
      rw [overridden, Option.bind_some, huser]
      rfl
    refine ⟨_, st₂, rfl, hclosed, ?_⟩
    rw [hover, hdef]
    cases service with
    | false =>
      refine iff_of_true rfl ?_
      rintro _ ⟨⟩ - port hport
      rw [hdef] at hport
      cases hport
    | true =>
      simp only [if_true, Option.getD_some, hleft]
      constructor
      · rintro heq _ ⟨⟩ - port hport e he
        rw [hdef, if_pos rfl, Option.some.injEq] at hport
        rw [Option.mem_def.1 he] at heq
        rw [← hport]
        exact heq
      · intro hkept
        rcases hlast : (fileEntries fs path).getLast? with _ | e
        · rfl
        · exact hkept path rfl (by rw [huser]; rfl) _ (by rw [hdef]; rfl) e hlast

/-- A lookup among the same entries finds the same port in any record, if it finds one. -/
theorem Looked.same {es : List Servent} {serv₁ serv₁' serv₂ serv₂' : Servent} {found₁ found₂ : Bool}
    (h₁ : Looked name proto es serv₁ found₁ serv₁') (h₂ : Looked name proto es serv₂ found₂ serv₂')
    (hport : found₁ = true ∨ serv₁.port = serv₂.port) :
    found₁ = found₂ ∧ serv₁'.port = serv₂'.port := by
  refine ⟨h₁.found_iff.trans h₂.found_iff.symm, ?_⟩
  rw [h₁.port, h₂.port]
  cases hfind : es.find? (·.named name proto) with
  | some e => rfl
  | none =>
    have hnot : found₁ = false := by rw [h₁.found_iff, hfind]; rfl
    rcases hport with h | h
    · exact absurd h (hnot ▸ Bool.false_ne_true)
    · rw [h]

/-- **The port of a service** does not depend on what was looked up before. -/
theorem getportbyname_same {getenv : Option (List Byte)} {st st' : Services}
    (h : Closed getenv st) (h' : Closed getenv st') (fs : FileSystem) (name : List Byte) :
    ∃ port st₁ st₁', getportbyname fs getenv st name = .ok (port, st₁) ∧
      getportbyname fs getenv st' name = .ok (port, st₁') ∧ Closed getenv st₁ := by
  obtain ⟨service, st₁, hget, hlook, hf, hs, henv⟩ := bpgetservbyname_spec fs name none none
    { st with env := some getenv } h.servf h.stayopen
  obtain ⟨service', st₁', hget', hlook', hf', hs', -⟩ := bpgetservbyname_spec fs name none none
    { st' with env := some getenv } h'.servf h'.stayopen
  have hservice : service = service' := hlook.found_iff.trans hlook'.found_iff.symm
  subst hservice
  unfold getportbyname
  simp only [h.env, h'.env, hget, hget', ok_bind]
  -- only a record of an entry found is read
  have hport : service = true → st₁.serv.port = st₁'.serv.port :=
    fun ht => (hlook.same hlook' (Or.inl ht)).2
  rcases getenv with _ | path
  · refine ⟨_, st₁, st₁', rfl, ?_, hf, hs, by rw [henv]; rfl⟩
    cases service with
    | false => simp only [Bool.false_eq_true, if_false]
    | true => simp only [hport rfl]
  obtain ⟨user, st₂, hget₂, hlook₂, hf₂, hs₂, henv₂⟩ := bpgetservbyname_spec fs name none
    (some path) st₁ hf hs
  obtain ⟨user', st₂', hget₂', hlook₂', -⟩ := bpgetservbyname_spec fs name none (some path) st₁' hf'
    hs'
  have huser : user = user' := hlook₂.found_iff.trans hlook₂'.found_iff.symm
  subst huser
  have hclosed : Closed (some path) st₂ := ⟨hf₂, hs₂, by rw [henv₂, henv]; rfl⟩
  simp only [hget₂, hget₂', ok_bind]
  cases user with
  | true =>
    refine ⟨_, st₂, st₂', rfl, ?_, hclosed⟩
    rw [if_pos rfl, (hlook₂.same hlook₂' (Or.inl rfl)).2]
  | false =>
    refine ⟨_, st₂, st₂', rfl, ?_, hclosed⟩
    cases service with
    | false => simp only [Bool.false_eq_true, if_false]
    | true =>
      simp only [(hlook₂.same hlook₂' (Or.inr (hport rfl))).2]
      rfl

/-- **User services override the defaults**: any sequence of calls goes through, and all calls
answer what a user who overrides the defaults expects if and only if, whenever the user's file does
not have the name and `/etc/services` does, the last entry of the user's file, if it has any, is
for the same port. -/
theorem getports_iff (fs : FileSystem) (getenv : Option (List Byte)) (names : List (List Byte)) :
    ∃ ports, getports fs getenv .start names = .ok ports ∧
      (ports = names.map (overridden fs getenv) ↔ ∀ name ∈ names, Kept fs getenv name) := by
  have hst := closed_start getenv
  generalize Services.start = st at hst
  induction names generalizing st with
  | nil => exact ⟨[], rfl, by simp⟩
  | cons name names ih =>
    obtain ⟨port, st', hget, hst', hiff⟩ := getportbyname_spec hst fs name
    obtain ⟨ports, hports, hall⟩ := ih st' hst'
    refine ⟨port :: ports, ?_, ?_⟩
    · simp only [getports, hget, hports, ok_bind]
    · rw [List.map_cons, List.cons.injEq, hiff, hall]
      simp only [List.mem_cons, forall_eq_or_imp]

/-- `/etc/services` has `http`, and the user's file has `postgresql` only. -/
def twoFiles : FileSystem := fun path =>
  if path = pathServices then some (ascii "http\t80/tcp www\n")
  else if path = ascii "/home/services" then some (ascii "postgresql 7000/tcp\n")
  else none

/-- The port of `http` is said to be 7000. -/
theorem other_entry_taken : ∃ ports,
    getports twoFiles (some (ascii "/home/services")) .start [ascii "http"] = .ok ports ∧
      ports ≠ [ascii "http"].map (overridden twoFiles (some (ascii "/home/services"))) := by
  refine ⟨[7000], ?_, ?_⟩ <;> decide +kernel

end BorderPatrol.Trace
