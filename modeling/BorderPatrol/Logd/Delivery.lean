import BorderPatrol.Logd.Common
import BorderPatrol.Logd.Hosts
import BorderPatrol.Logd.MainLoop

/-!
# From the log calls to the reader

The whole way of the log. On each host the threads of a tree of processes log through buffers to
one connection, which `logd` serves with others and whose records it writes to the file at other
times, and `get_le` reads the file. When all connections have ended and the threads have written all
that they logged, what is read are the calls of all threads of all hosts: each entry is one call,
and the entries of a thread are its calls in the order it made them (`logs_delivered`).
-/

namespace BorderPatrol.Logd

open Foundations

/-! ## The file -/

/-- However the reads cut the file, `get_le` gives these entries and then null pointers. -/
def ReadsAs (file : List Byte) (les : List LogentryThaw) : Prop :=
  ∀ chunks : List (List Byte), (∀ b ∈ chunks, 1 ≤ b.length ∧ b.length ≤ pipeBuf) →
    chunks.flatten = file → ∀ (buf : Mem Byte) (n : ℕ),
      ∃ rd, getLes false (les.length + (n + 1)) (Reader.start buf chunks) =
        .ok (les.map some ++ List.replicate (n + 1) none, rd)

theorem readsAs_records (rs : List Record) :
    ReadsAs (rs.flatMap Record.bytes) (rs.map Record.entry) := by
  intro chunks hchunks hflat buf n
  have hgives := gives_start buf hchunks
  rw [hflat] at hgives
  obtain ⟨rd, hles⟩ := getLes_records rs hgives n
  refine ⟨rd, ?_⟩
  rw [List.length_map, List.map_map]
  exact hles

/-- A record at another time. -/
def Restamped (r r' : Record) : Prop := ∃ high low, r' = r.stamp high low

/-- The file of the relay is records, with the tags of those it was given. -/
theorem LogOf.records {file : List Byte} {items : List (Option ℕ × Record)} (h : LogOf file items) :
    ∃ rs : List (Option ℕ × Record), file = (rs.map (·.2)).flatMap Record.bytes ∧
      List.Forall₂ (fun a b => a.1 = b.1 ∧ Restamped a.2 b.2) items rs := by
  obtain ⟨ws, rfl, hws⟩ := h
  obtain ⟨rs, rfl, hrs⟩ : ∃ rs : List Record, ws = rs.map Record.bytes ∧
      List.Forall₂ (fun a r => Restamped a.2 r) items rs := by
    induction hws with
    | nil => exact ⟨[], rfl, .nil⟩
    | cons hw _ ih =>
      obtain ⟨rs, rfl, hrs⟩ := ih
      obtain ⟨high, low, rfl⟩ := hw
      exact ⟨_ :: rs, rfl, .cons ⟨high, low, rfl⟩ hrs⟩
  obtain ⟨rs', rfl, hrs'⟩ := exists_tagged hrs
  exact ⟨rs', by rw [← List.flatMap_def], hrs'⟩

theorem Entered.Logs.restamped {e : Entered} {r r' : Record} (h : e.Logs r) (hr : Restamped r r') :
    e.Logs r' := by
  obtain ⟨high, low, rfl⟩ := hr
  exact ⟨h.tid, h.pid, h.sc, h.rv, h.args, h.str⟩

/-- The calls that were logged, at other times. -/
theorem logs_restamped {es : List Entered} {rs rs' : List Record}
    (h : List.Forall₂ Entered.Logs es rs) (hrs : List.Forall₂ Restamped rs rs') :
    List.Forall₂ Entered.Logs es rs' := by
  induction h generalizing rs' with
  | nil =>
    cases hrs
    exact .nil
  | cons he _ ih =>
    cases hrs with
    | cons hr hrs => exact .cons (he.restamped hr) (ih hrs)

/-- The entry read is the call that was logged. -/
def Entered.ReadAs (e : Entered) (le : LogentryThaw) : Prop :=
  e.call.Fits → ReadBack e.pid e.tid e.call le

/-- What the log has from one host: the records of its calls at other times, each with the number of
the thread. -/
theorem Ran.restamped {sysFork sysPthCreateChild : Int32} {W : Writers}
    (h : Ran sysFork sysPthCreateChild W) {rs rs' : List Record}
    (hsent : W.stream = rs.flatMap Record.bytes) (hrs : List.Forall₂ Restamped rs rs') :
    ∃ R : List (ℕ × Record), R.map (·.2) = rs' ∧
      ∀ t, List.Forall₂ Entered.Logs (proj t W.entered) (proj t R) := by
  obtain ⟨R, hstream, hlogs⟩ := h.records
  have hnil := unfinished_nil record_selfDelimiting
  have heq : R.map (·.2) = rs := by
    refine (flatMap_append_inj record_selfDelimiting hnil hnil ?_).1
    rw [List.append_nil, List.append_nil, ← hstream, hsent]
  rw [← heq, List.forall₂_map_left_iff] at hrs
  obtain ⟨R', hR', hrel⟩ := exists_tagged hrs
  refine ⟨R', hR', fun t => ?_⟩
  exact logs_restamped (hlogs t) (forall₂_proj hrel t)

/-! ## All hosts -/

/-- What serves a step, besides that the descriptor is active: `accept` returns one that is not, and
what is read and written is taken whole. -/
def Serves (st : State) (_ : Traffic) : Step → Prop
  | .accept status => status < fdSetsize ∧ st.active status = false
  | .input i env r => (∀ b, r = some b → b.length ≤ (st.slots i).avail) ∧ env.Complete

theorem allowed_of_onActive {as : List Step}
    (ha : Tried serveStep (State.init, Traffic.init) as OnActive) (hs : Along Serves as) :
    Along Allowed as := by
  rw [along_iff_tried] at hs ⊢
  intro pre a hpre q hrun
  have hactive := ha pre a hpre q hrun
  have hserves := hs pre a hpre q hrun
  cases a with
  | accept status => exact hserves
  | input i env r => exact ⟨hactive, hserves.1, hserves.2⟩

/-- `get_le` reads from the file the calls of the threads of the `hosts`, each from the connection
with its number, those of a thread in order, and nothing else. -/
def Delivered (count : ℕ) (hosts : ℕ → Writers) (file : List Byte) : Prop :=
  ∃ E : List ((Option ℕ × ℕ) × LogentryThaw), ReadsAs file (E.map (·.2)) ∧
    (∀ x ∈ E, ∃ k t, k < count ∧ x.1 = (some k, t)) ∧
    ∀ k, k < count → ∀ t,
      List.Forall₂ Entered.ReadAs (proj t (hosts k).entered) (proj (some k, t) E)

/-- The log of connections that have ended, of which each brought what the threads of a host wrote.
-/
theorem delivered {sysFork sysPthCreateChild : Int32} {tr : Traffic}
    {items : List (Option ℕ × Record)} (hlog : LogOf tr.file items)
    (htags : ∀ x ∈ items, ∃ k, k < tr.count ∧ x.1 = some k)
    (hsent : ∀ k, k < tr.count → tr.sent k = (proj (some k) items).flatMap Record.bytes)
    {hosts : ℕ → Writers} (hhosts : ∀ k, k < tr.count → Ran sysFork sysPthCreateChild (hosts k) ∧
      tr.sent k = (hosts k).stream) : Delivered tr.count hosts tr.file := by
  obtain ⟨rs, hfile, hrel⟩ := hlog.records
  have hex : ∀ k : ℕ, ∃ R : List (ℕ × Record), k < tr.count → R.map (·.2) = proj (some k) rs ∧
      ∀ t, List.Forall₂ Entered.Logs (proj t (hosts k).entered) (proj t R) := by
    intro k
    by_cases hk : k < tr.count
    · obtain ⟨hran, hstream⟩ := hhosts k hk
      obtain ⟨R, hR⟩ := hran.restamped (hstream.symm.trans (hsent k hk)) (forall₂_proj hrel _)
      exact ⟨R, fun _ => hR⟩
    · exact ⟨[], fun h => absurd h hk⟩
  choose R hR using hex
  -- the numbers of the threads are put on the records of each host
  have htags' : ∀ x ∈ rs, ∃ k, k < tr.count ∧ x.1 = some k := by
    intro x hx
    have hmap : items.map (·.1) = rs.map (·.1) := map_eq_of_forall₂ (hrel.imp fun _ _ h => h.1)
    have htag : x.1 ∈ items.map (·.1) := hmap ▸ List.mem_map_of_mem hx
    obtain ⟨y, hy, hxy⟩ := List.mem_map.1 htag
    rw [← hxy]
    exact htags y hy
  obtain ⟨items', hitems', hall, hproj⟩ := exists_interleaving (R := fun a b => a.2 = b)
    (fun t => ∃ k, k < tr.count ∧ t = some k) rs (fun t => R (t.getD 0)) htags' (by
      rintro _ ⟨k, hk, rfl⟩
      rw [← (hR k hk).1, List.forall₂_map_right_iff]
      exact List.forall₂_same.2 fun _ _ => rfl)
  refine ⟨items'.map fun a => ((a.1, a.2.1), a.2.2.entry), ?_, ?_, fun k hk t => ?_⟩
  · have hmap : items'.map (·.2.2) = rs.map (·.2) :=
      map_eq_of_forall₂ (hitems'.imp fun _ _ h => h.2)
    rw [hfile, ← hmap, List.map_map]
    have hreads := readsAs_records (items'.map (·.2.2))
    rw [List.map_map] at hreads
    exact hreads
  · intro x hx
    obtain ⟨a, ha, rfl⟩ := List.mem_map.1 hx
    obtain ⟨k, hk, hak⟩ := hall a ha
    exact ⟨k, a.2.1, hk, Prod.ext hak rfl⟩
  · rw [proj_pair Record.entry, hproj _ ⟨k, hk, rfl⟩, List.forall₂_map_right_iff]
    exact ((hR k hk).2 t).imp fun e r hlogs hfits => readBack hfits hlogs

/-- `Serves`, where it can be checked. -/
def checkServes (st : State) (_ : Traffic) : Step → Bool
  | .accept status => status < fdSetsize && !st.active status
  | .input i _ r => (r.getD []).length ≤ (st.slots i).avail

theorem serves_of_check {st : State} {tr : Traffic} {a : Step} (h : checkServes st tr a = true)
    (hw : ∀ i env r, a = .input i env r → env.Complete) : Serves st tr a := by
  rcases a with i | ⟨i, env, r⟩
  · simpa [checkServes, Serves] using h
  · refine ⟨?_, hw i env r rfl⟩
    rintro b rfl
    exact of_decide_eq_true h

theorem twoClientsServed_serves :
    Along Serves (twoClientsServed.flatMap (Turn.steps 3)) := by
  refine along_of_check (p := checkServes) (by decide +kernel) fun st tr a ha h => ?_
  refine serves_of_check h ?_
  rintro i env r rfl
  obtain ⟨u, hu, ha⟩ := List.mem_flatMap.1 ha
  obtain ⟨j, -, hj⟩ := List.mem_map.1 ha
  have henv : env = u.envs i := by
    rw [Turn.stepOn] at hj
    split at hj
    · cases hj
    · cases hj
      rfl
  simp only [twoClientsServed, List.mem_cons, List.not_mem_nil, or_false] at hu
  rw [henv]
  rcases hu with rfl | rfl | rfl | rfl <;> exact noon_complete

theorem twoClientsServed_behaves :
    Along Behaves (twoClientsServed.flatMap (Turn.steps 3)) :=
  along_of_check (p := checkHello) (by decide +kernel) fun _ _ _ _ => behaves_of_checkHello

/-- A thread logs the record `hello`, and writes it. -/
def helloSteps : List HostStep :=
  [.thread (.log 0 ⟨fun _ amt => amt, ⟨100, 7⟩, ascii "a"⟩
      ⟨3, 0, 5, 0, 0, 1, some (ascii "hi\x00")⟩),
    .thread (.flush 0 fun _ amt => amt)]

/-- A host whose connection brings the record `hello`. -/
theorem exists_helloHost : ∃ W, Ran 29 53 W ∧ W.stream = hello.bytes := by
  have hwhole : Writes.Whole fun _ amt => amt := fun _ _ _ _ => rfl
  have has : HostRun (1, {0}) helloSteps := by
    refine ⟨⟨⟨by decide, hwhole.moves, ?_⟩, hwhole⟩, ⟨⟨by decide, hwhole.moves⟩, hwhole⟩, trivial⟩
    constructor <;> decide
  obtain ⟨W, hrun, hstream⟩ := exists_ok_of_map (f := fun W => (W.stream, W.count,
      (W.ctx 0).map (·.lbptr)))
    (x := runSteps (hostStep 29 53) (Writers.empty.alloc 300 17 fun _ => 0) helloSteps)
    (b := (hello.bytes, 1, some 0)) (by decide +kernel)
  have hinit : HostInv (Writers.empty.alloc 300 17 fun _ => 0) [] (1, {0}) :=
    ⟨threadInv_init 300 17 fun _ => 0, fun x hx => absurd hx List.not_mem_nil⟩
  obtain ⟨W', rs, hrun', hinv⟩ := hostRun_spec hinit has
  cases hrun'.symm.trans hrun
  simp only [Prod.mk.injEq, Option.map_eq_some_iff] at hstream
  obtain ⟨hbytes, hcount, ctx, hctx, hptr⟩ := hstream
  refine ⟨W, ⟨⟨300, 17, _, helloSteps, has, hrun⟩, fun t ctx' hctx' => ?_⟩, hbytes⟩
  rcases Nat.eq_zero_or_pos t with rfl | hpos
  · cases hctx.symm.trans hctx'
    exact hptr
  · rw [hinv.threads.accounted.later (by omega)] at hctx'
    cases hctx'

end BorderPatrol.Logd
