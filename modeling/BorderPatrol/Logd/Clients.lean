import BorderPatrol.Logd.Draining
import Mathlib.Data.List.Induction

/-!
# The connections of `logd`

Any number of clients, whose connections come, send and go in any order. As long as each connection
is accepted on a slot whose buffer is empty, what was written for a connection are the records its
bytes begin with, and the rest waits in its slot (`serveAll_inv`). A closed slot is empty exactly
when the last connection on it had sent whole records, so that this is what isolates connections
(`isolated_iff`); when all clients send whole records, the log is an interleaving of what they
sent (`relay_interleaves`).
-/

namespace BorderPatrol.Logd

open Foundations

/-- The writes `ws` are the records that the bytes `sent` begin with, and `rest` is what is left. -/
def Relays (sent : List Byte) (ws : List (List Byte)) (rest : List Byte) : Prop :=
  ∃ rs, sent = rs.flatMap Record.bytes ++ rest ∧ List.Forall₂ Stamped rs ws

theorem relays_nil : Relays [] [] [] := ⟨[], rfl, .nil⟩

/-- Further bytes, of which the records `rs` are written. -/
theorem Relays.more {sent c rest rest' : List Byte} {ws out : List (List Byte)} {rs : List Record}
    (h : Relays sent ws rest) (hsplit : rest ++ c = rs.flatMap Record.bytes ++ rest')
    (hout : List.Forall₂ Stamped rs out) : Relays (sent ++ c) (ws ++ out) rest' := by
  obtain ⟨rs₀, rfl, hws⟩ := h
  refine ⟨rs₀ ++ rs, ?_, List.rel_append hws hout⟩
  rw [List.flatMap_append, List.append_assoc, hsplit, List.append_assoc]

/-- The bytes are whole records. -/
def Whole (b : List Byte) : Prop := ∃ rs : List Record, b = rs.flatMap Record.bytes

/-- Whole records leave nothing unfinished. -/
theorem Relays.whole_iff {sent rest : List Byte} {ws : List (List Byte)} (h : Relays sent ws rest)
    (hun : Unfinished Record.bytes rest) : Whole sent ↔ rest = [] := by
  obtain ⟨rs, rfl, -⟩ := h
  constructor
  · rintro ⟨rs', hrs'⟩
    rw [← List.append_nil (rs'.flatMap Record.bytes)] at hrs'
    exact (flatMap_append_inj record_selfDelimiting hun
      (unfinished_nil record_selfDelimiting) hrs').2
  · rintro rfl
    exact ⟨rs, List.append_nil _⟩

/-! ## The invariant -/

/-- The bytes of every connection are accounted for: in the log, and in the slot of its descriptor.
-/
structure Inv (st : State) (tr : Traffic) : Prop where
  sized : ∀ i, (st.slots i).bEnd + (st.slots i).avail = relayBuf
  owner_lt : ∀ {i k}, tr.owner i = some k → k < tr.count
  owner_inj : ∀ {i j k}, tr.owner i = some k → tr.owner j = some k → i = j
  later : ∀ {k}, tr.count ≤ k → tr.sent k = []
  tags : ∀ q ∈ tr.log, ∃ k, k < tr.count ∧ q.1 = some k
  idle : ∀ {i}, tr.owner i = none → st.active i = false ∧ (st.slots i).bEnd = 0
  opened : ∀ {i k}, st.active i = true → tr.owner i = some k →
    ∃ rest, Relays (tr.sent k) (tr.writesOf k) rest ∧ Waiting rest ∧ (st.slots i).Holds rest
  closed : ∀ {i k}, st.active i = false → tr.owner i = some k →
    ∃ rest, Relays (tr.sent k) (tr.writesOf k) rest ∧ Unfinished Record.bytes rest ∧
      (st.slots i).bEnd = rest.length
  gone : ∀ {k}, k < tr.count → (∀ i, tr.owner i ≠ some k) →
    ∃ rest, Relays (tr.sent k) (tr.writesOf k) rest ∧ Unfinished Record.bytes rest

theorem inv_init : Inv State.init Traffic.init where
  sized := fun i => Nat.zero_add _
  owner_lt := by simp [Traffic.init]
  owner_inj := by simp [Traffic.init]
  later := fun _ => rfl
  tags := by simp [Traffic.init]
  idle := fun _ => ⟨rfl, rfl⟩
  opened := by simp [Traffic.init]
  closed := by simp [Traffic.init]
  gone := by simp [Traffic.init]

variable {st : State} {tr : Traffic}

/-- Nothing was written for a connection that is yet to come. -/
theorem Inv.writesOf_later (h : Inv st tr) {k : ℕ} (hk : tr.count ≤ k) : tr.writesOf k = [] := by
  rw [Traffic.writesOf, proj, List.filter_eq_nil_iff.2, List.map_nil]
  intro q hq
  obtain ⟨k', hlt, hq'⟩ := h.tags q hq
  simp only [hq', Option.some.injEq, decide_eq_true_eq]
  omega

/-- On a closed descriptor the slot is empty exactly when the last connection sent whole records. -/
theorem Inv.empty_iff (h : Inv st tr) {i : ℕ} (hi : st.active i = false) :
    (st.slots i).bEnd = 0 ↔ ∀ k, tr.owner i = some k → Whole (tr.sent k) := by
  rcases hown : tr.owner i with _ | k
  · simp [(h.idle hown).2]
  · obtain ⟨rest, hrel, hun, hlen⟩ := h.closed hi hown
    simp only [Option.some.injEq, forall_eq', hrel.whole_iff hun, hlen, List.length_eq_zero_iff]

/-- A connection is accepted on an empty slot. -/
theorem Inv.accept (h : Inv st tr) {i : ℕ} (hi : st.active i = false)
    (hempty : (st.slots i).bEnd = 0) :
    Inv { slots := Function.update st.slots i { st.slots i with relay := some fun _ => 0 }
          active := Function.update st.active i true }
      (tr.step [] (.accept i)) where
  sized := by
    intro j
    by_cases hj : j = i
    · subst hj
      simpa using h.sized j
    · simpa [hj] using h.sized j
  owner_lt := by
    intro j k hk
    simp only [Traffic.step] at hk ⊢
    by_cases hj : j = i
    · subst hj
      simp only [Function.update_self, Option.some.injEq] at hk
      omega
    · rw [Function.update_of_ne hj] at hk
      have := h.owner_lt hk
      omega
  owner_inj := by
    intro j j' k hk hk'
    simp only [Traffic.step] at hk hk'
    by_cases hj : j = i <;> by_cases hj' : j' = i
    · rw [hj, hj']
    · subst hj
      rw [Function.update_self, Option.some.injEq] at hk
      rw [Function.update_of_ne hj'] at hk'
      have := h.owner_lt hk'
      omega
    · subst hj'
      rw [Function.update_self, Option.some.injEq] at hk'
      rw [Function.update_of_ne hj] at hk
      have := h.owner_lt hk
      omega
    · rw [Function.update_of_ne hj] at hk
      rw [Function.update_of_ne hj'] at hk'
      exact h.owner_inj hk hk'
  later := by
    intro k hk
    exact h.later (Nat.le_of_succ_le hk)
  tags := by
    intro q hq
    obtain ⟨k, hk, hq'⟩ := h.tags q hq
    exact ⟨k, Nat.lt_succ_of_lt hk, hq'⟩
  idle := by
    intro j hj
    simp only [Traffic.step] at hj
    by_cases hji : j = i
    · subst hji
      simp at hj
    · rw [Function.update_of_ne hji] at hj
      simpa [hji] using h.idle hj
  opened := by
    intro j k hact hk
    simp only [Traffic.step] at hk
    by_cases hj : j = i
    · subst hj
      obtain rfl : tr.count = k := by simpa using hk
      refine ⟨[], ?_, Or.inl (unfinished_nil record_selfDelimiting), ?_⟩
      · change Relays (tr.sent tr.count) (tr.writesOf tr.count) []
        rw [h.later (Nat.le_refl _), h.writesOf_later (Nat.le_refl _)]
        exact relays_nil
      · simp only [Function.update_self]
        exact ⟨⟨_, rfl, rfl⟩, hempty, h.sized j⟩
    · simp only [Function.update_of_ne hj] at hk hact ⊢
      exact h.opened hact hk
  closed := by
    intro j k hact hk
    simp only [Traffic.step] at hk
    by_cases hj : j = i
    · subst hj
      simp at hact
    · simp only [Function.update_of_ne hj] at hk hact ⊢
      exact h.closed hact hk
  gone := by
    intro k hk hgone
    simp only [Traffic.step] at hk hgone
    have hne : k ≠ tr.count := by
      rintro rfl
      exact hgone i (Function.update_self ..)
    by_cases hown : tr.owner i = some k
    · -- the connection that the new one replaces
      obtain ⟨rest, hrel, hun, -⟩ := h.closed hi hown
      exact ⟨rest, hrel, hun⟩
    · refine h.gone (by omega) fun j hj => ?_
      by_cases hji : j = i
      · exact hown (hji ▸ hj)
      · exact hgone j (by rwa [Function.update_of_ne hji])

/-- The writes of a step are added to those of the connection served, and to no others. -/
theorem writesOf_input {i k : ℕ} (hk : tr.owner i = some k) (out : List (List Byte))
    (env : RelayEnv) (r : Option (List Byte)) (k' : ℕ) :
    (tr.step out (.input i env r)).writesOf k' =
      if k' = k then tr.writesOf k ++ out else tr.writesOf k' := by
  simp only [Traffic.writesOf, Traffic.step, hk, proj_append, proj_map, Option.some.injEq]
  by_cases h : k' = k
  · subst h
    simp
  · simp [h, Ne.symm h]

theorem sent_input {i k : ℕ} (hk : tr.owner i = some k) (out : List (List Byte))
    (env : RelayEnv) (r : Option (List Byte)) (k' : ℕ) :
    (tr.step out (.input i env r)).sent k' =
      if k' = k then tr.sent k ++ r.getD [] else tr.sent k' := by
  simp only [Traffic.step, hk, Function.update_apply]

/-- A descriptor is served: its connection sends more or ends. -/
theorem Inv.input (h : Inv st tr) {i k : ℕ} (hk : tr.owner i = some k) {s : Slot} {act : ℕ → Bool}
    {env : RelayEnv} {r : Option (List Byte)} {out : List (List Byte)} {rest : List Byte}
    (hact : ∀ j, j ≠ i → act j = st.active j) (hs : s.bEnd + s.avail = relayBuf)
    (hrel : Relays (tr.sent k ++ r.getD []) (tr.writesOf k ++ out) rest)
    (hopen : act i = true → Waiting rest ∧ s.Holds rest)
    (hclosed : act i = false → Unfinished Record.bytes rest ∧ s.bEnd = rest.length) :
    Inv { slots := Function.update st.slots i s, active := act }
      (tr.step out (.input i env r)) where
  sized := by
    intro j
    by_cases hj : j = i
    · subst hj
      simpa using hs
    · simpa [hj] using h.sized j
  owner_lt := h.owner_lt
  owner_inj := h.owner_inj
  later := by
    intro k' hk'
    have hlt := h.owner_lt hk
    have hk' : tr.count ≤ k' := hk'
    rw [sent_input hk, if_neg (by omega)]
    exact h.later hk'
  tags := by
    intro q hq
    rcases List.mem_append.1 hq with hq | hq
    · exact h.tags q hq
    · obtain ⟨x, -, rfl⟩ := List.mem_map.1 hq
      exact ⟨k, h.owner_lt hk, hk⟩
  idle := by
    intro j hj
    have hown : tr.owner j = none := hj
    have hne : j ≠ i := by
      rintro rfl
      rw [hk] at hown
      cases hown
    simp only [hact j hne, Function.update_of_ne hne]
    exact h.idle hown
  opened := by
    intro j k' hj hk'
    have hown : tr.owner j = some k' := hk'
    rw [sent_input hk, writesOf_input hk]
    by_cases hji : j = i
    · subst hji
      obtain rfl : k = k' := by simpa [hk] using hown
      simp only [if_true, Function.update_self]
      exact ⟨rest, hrel, hopen hj⟩
    · have hne : k' ≠ k := fun he => hji (h.owner_inj hown (he ▸ hk))
      simp only [if_neg hne, Function.update_of_ne hji]
      exact h.opened ((hact j hji).symm.trans hj) hown
  closed := by
    intro j k' hj hk'
    have hown : tr.owner j = some k' := hk'
    rw [sent_input hk, writesOf_input hk]
    by_cases hji : j = i
    · subst hji
      obtain rfl : k = k' := by simpa [hk] using hown
      simp only [if_true, Function.update_self]
      exact ⟨rest, hrel, hclosed hj⟩
    · have hne : k' ≠ k := fun he => hji (h.owner_inj hown (he ▸ hk))
      simp only [if_neg hne, Function.update_of_ne hji]
      exact h.closed ((hact j hji).symm.trans hj) hown
  gone := by
    intro k' hk' hgone
    have hgone : ∀ j, tr.owner j ≠ some k' := hgone
    have hne : k' ≠ k := by
      rintro rfl
      exact hgone i hk
    rw [sent_input hk, writesOf_input hk, if_neg hne, if_neg hne]
    exact h.gone hk' hgone

/-- The bytes that a step brings are, with those before them, the beginning of records. -/
def CleanStep (tr : Traffic) : Step → Prop
  | .accept _ => True
  | .input i _ r => ∀ k, tr.owner i = some k → Clean Record.bytes (tr.sent k ++ r.getD [])

/-- The descriptors that are active after a step. -/
def Step.active (act : ℕ → Bool) : Step → ℕ → Bool
  | .accept i => Function.update act i true
  | .input i _ r => if r.getD [] = [] then Function.update act i false else act

/-- **A step keeps the account**, when a connection is accepted on an empty slot only. It fails only
on bytes that are not the beginning of records. -/
theorem serve_spec (h : Inv st tr) {a : Step} (ha : Allowed st tr a)
    (hempty : ∀ i, a = .accept i → (st.slots i).bEnd = 0) :
    Post (serve st a) (fun q => Inv q.1 (tr.step q.2 a) ∧ q.1.active = a.active st.active)
      (fun _ => ¬ CleanStep tr a) := by
  rcases a with i | ⟨i, env, r⟩
  · rw [serve, inBounds_of ha.1, ok_bind]
    exact ⟨h.accept ha.2 (hempty i rfl), rfl⟩
  obtain ⟨hact, hroom, hw⟩ := ha
  obtain ⟨k, hk⟩ : ∃ k, tr.owner i = some k := by
    rcases hown : tr.owner i with _ | k
    · have := (h.idle hown).1
      rw [hact] at this
      cases this
    · exact ⟨k, rfl⟩
  obtain ⟨rest, hrel, hwait, hholds⟩ := h.opened hact hk
  obtain ⟨m, hm, -⟩ := hholds.relay
  -- bytes that are clean behind what was sent are clean behind the rest
  have hclean : ∀ c, ¬ Clean Record.bytes (rest ++ c) →
      ¬ Clean Record.bytes (tr.sent k ++ c) := by
    intro c hc hc'
    obtain ⟨rs, hsent, -⟩ := hrel
    rw [hsent, List.append_assoc] at hc'
    exact hc (hc'.rest record_selfDelimiting)
  by_cases hr : r = none ∨ r = some []
  · -- the client is gone
    have hnil : r.getD [] = [] := by rcases hr with rfl | rfl <;> rfl
    obtain ⟨ret, hret, hin⟩ : ∃ ret : ℤ, ret ≤ 0 ∧
        transferIn env (st.slots i) r = .ok (ret, st.slots i, []) := by
      rcases hr with rfl | rfl
      · exact ⟨-1, by decide, by simp [transferIn, hm]⟩
      · exact ⟨0, by decide, by simp [transferIn, hm]⟩
    rw [serve, hin, ok_bind]
    simp only [hret, if_true]
    refine ((transferOut_spec hw hholds).mono_error fun e he hc => ?_).bind ?_
    · refine hclean [] (by rwa [List.append_nil]) ?_
      have := hc k hk
      rwa [hnil] at this
    · rintro ⟨s, out⟩ ⟨rs, rest', hsplit, hun, hs, hall⟩
      refine ⟨h.input hk (fun j hj => Function.update_of_ne hj ..) hs.avail
        (Relays.more hrel ?_ hall)
        (fun hopen => by simp at hopen) fun _ => ⟨hun, hs.bEnd⟩, by simp [Step.active, hnil]⟩
      rwa [hnil, List.append_nil]
  · obtain ⟨c, rfl, hc⟩ : ∃ c, r = some c ∧ c ≠ [] := by
      rcases r with _ | c
      · exact absurd (Or.inl rfl) hr
      · exact ⟨c, rfl, fun hc => hr (Or.inr (by rw [hc]))⟩
    rw [serve]
    refine ((transferIn_spec hw hholds hc (hroom c rfl)).mono_error fun e he hcl => ?_).bind ?_
    · exact hclean c he (hcl k hk)
    · rintro ⟨ret, s, out⟩ ⟨hret, rs, rest', hsplit, hwait', hs, hall⟩
      simp only at hret
      simp only [show ¬ ret ≤ 0 by omega, if_false]
      refine ⟨h.input hk (fun j _ => rfl) hs.avail (hrel.more hsplit hall)
        (fun _ => ⟨hwait', hs⟩) fun hcl => ?_, by simp [Step.active, hc]⟩
      rw [hact] at hcl
      cases hcl

/-! ## Runs -/

variable {as : List Step}

theorem Along.concat {P : State → Traffic → Step → Prop} (h : Along P as) {pre : List Step}
    {a : Step} (hpre : pre ++ [a] <+: as) (hrun : serveAll .init .init pre = .ok (st, tr)) :
    P st tr a :=
  h pre a hpre st tr hrun

/-- **A run keeps the account**, when connections are accepted on empty slots only. -/
theorem serveAll_inv (ha : Along Allowed as)
    (he : Along (fun st tr a => Inv st tr → ∀ i, a = .accept i → (st.slots i).bEnd = 0) as)
    {pre : List Step} (hpre : pre <+: as) (hrun : serveAll .init .init pre = .ok (st, tr)) :
    Inv st tr := by
  induction pre using List.reverseRecOn generalizing st tr with
  | nil =>
    cases hrun
    exact inv_init
  | append_singleton pre a ih =>
    have hpre' : pre <+: as := (List.prefix_append pre [a]).trans hpre
    rw [serveAll_concat] at hrun
    rcases hrun₁ : serveAll .init .init pre with e | ⟨st₁, tr₁⟩
    · rw [hrun₁] at hrun
      cases hrun
    · rw [hrun₁, ok_bind] at hrun
      have hinv := ih hpre' hrun₁
      have hspec := serve_spec hinv (ha.concat hpre hrun₁) (he.concat hpre hrun₁ hinv)
      rcases hserve : serve st₁ a with e | ⟨st₂, out⟩
      · rw [hserve] at hrun
        cases hrun
      · rw [hserve] at hrun
        cases hrun
        exact (hspec.of_eq_ok hserve).1

/-- A step of `logd`, with the traffic. -/
def serveStep (q : State × Traffic) (a : Step) : Except Fault (State × Traffic) :=
  serve q.1 a >>= fun o => .ok (o.1, q.2.step o.2 a)

theorem serveAll_eq_runSteps (st : State) (tr : Traffic) (as : List Step) :
    serveAll st tr as = runSteps serveStep (st, tr) as := by
  induction as generalizing st tr with
  | nil => rfl
  | cons a as ih =>
    rw [serveAll, runSteps, serveStep, bind_assoc]
    simp only [ih, ok_bind]

/-- The steps of a run are those that are tried. -/
theorem along_iff_tried {P : State → Traffic → Step → Prop} :
    Along P as ↔ Tried serveStep (.init, .init) as fun q a => P q.1 q.2 a := by
  constructor
  · rintro h pre a hpre ⟨st, tr⟩ hrun
    exact h pre a hpre st tr (by rw [serveAll_eq_runSteps, hrun])
  · intro h pre a hpre st tr hrun
    exact h pre a hpre (st, tr) (by rw [← serveAll_eq_runSteps, hrun])

/-- A check made at each step of a run. -/
def checkAll (p : State → Traffic → Step → Bool) : State → Traffic → List Step → Bool
  | _, _, [] => true
  | st, tr, a :: as => p st tr a &&
    match serve st a with
    | .ok (st, out) => checkAll p st (tr.step out a) as
    | .error _ => true

theorem checkAll_append {p : State → Traffic → Step → Bool} {st st' : State} {tr tr' : Traffic}
    {pre as : List Step} (h : checkAll p st tr (pre ++ as) = true)
    (hrun : serveAll st tr pre = .ok (st', tr')) : checkAll p st' tr' as = true := by
  induction pre generalizing st tr with
  | nil =>
    cases hrun
    exact h
  | cons a pre ih =>
    rw [List.cons_append, checkAll, Bool.and_eq_true] at h
    rw [serveAll] at hrun
    rcases hserve : serve st a with e | ⟨st₁, out⟩
    · rw [hserve] at hrun
      cases hrun
    · rw [hserve] at h hrun
      exact ih h.2 hrun

/-- A predicate that a check decides holds along the runs on which the check succeeds. -/
theorem along_of_check {P : State → Traffic → Step → Prop} {p : State → Traffic → Step → Bool}
    {as : List Step} (h : checkAll p .init .init as = true)
    (hp : ∀ st tr, ∀ a ∈ as, p st tr a = true → P st tr a) : Along P as := by
  rintro pre a ⟨suf, rfl⟩ st tr hrun
  rw [List.append_assoc] at h
  have hcheck := checkAll_append h hrun
  rw [List.singleton_append, checkAll, Bool.and_eq_true] at hcheck
  exact hp st tr a (by simp) hcheck.1

/-- The part of `Allowed` that can be checked. -/
def checkAllowed (st : State) (_ : Traffic) : Step → Bool
  | .accept status => status < fdSetsize && !st.active status
  | .input i _ r => st.active i && (r.getD []).length ≤ (st.slots i).avail

theorem allowed_of_check {st : State} {tr : Traffic} {a : Step} (h : checkAllowed st tr a = true)
    (hw : ∀ i env r, a = .input i env r → env.Complete) : Allowed st tr a := by
  rcases a with i | ⟨i, env, r⟩
  · simpa [checkAllowed, Allowed] using h
  · simp only [checkAllowed, Bool.and_eq_true, decide_eq_true_eq] at h
    refine ⟨h.1, ?_, hw i env r rfl⟩
    rintro b rfl
    exact h.2

/-! ## Isolation -/

/-- The slot of a new connection has an empty buffer. -/
def Fresh (s : Slot) : Prop := s.bEnd = 0 ∧ s.avail = relayBuf

/-- The records extracted from a connection are those its bytes begin with, all of them, except that
a bare header may wait in the slot of an open connection. -/
def Extracted (st : State) (tr : Traffic) (k : ℕ) : Prop :=
  ∃ rest, Relays (tr.sent k) (tr.writesOf k) rest ∧ (Unfinished Record.bytes rest ∨
    rest.length = frozenLen ∧ ∃ i, st.active i = true ∧ tr.owner i = some k)

/-- A connection is accepted on a fresh slot. -/
def AcceptsFresh (st : State) (_ : Traffic) (a : Step) : Prop :=
  ∀ i, a = .accept i → Fresh (st.slots i)

/-- A connection is accepted on a descriptor whose last connection, if any, had sent whole records.
-/
def AcceptsWhole (_ : State) (tr : Traffic) (a : Step) : Prop :=
  ∀ i, a = .accept i → ∀ k, tr.owner i = some k → Whole (tr.sent k)

theorem Inv.extracted (h : Inv st tr) {k : ℕ} (hk : k < tr.count) : Extracted st tr k := by
  by_cases hown : ∃ i, tr.owner i = some k
  · obtain ⟨i, hi⟩ := hown
    by_cases hact : st.active i = true
    · obtain ⟨rest, hrel, hwait, -⟩ := h.opened hact hi
      refine ⟨rest, hrel, ?_⟩
      rcases hwait with hun | hlen
      · exact Or.inl hun
      · exact Or.inr ⟨hlen, i, hact, hi⟩
    · obtain ⟨rest, hrel, hun, -⟩ := h.closed (by simpa using hact) hi
      exact ⟨rest, hrel, Or.inl hun⟩
  · obtain ⟨rest, hrel, hun⟩ := h.gone hk fun i hi => hown ⟨i, hi⟩
    exact ⟨rest, hrel, Or.inl hun⟩

theorem Inv.fresh_iff (h : Inv st tr) {a : Step} (ha : Allowed st tr a) :
    AcceptsFresh st tr a ↔ AcceptsWhole st tr a := by
  rcases a with i | ⟨i, env, r⟩
  · have hsized := h.sized i
    have hempty := h.empty_iff ha.2
    simp only [AcceptsFresh, AcceptsWhole, Step.accept.injEq, forall_eq', Fresh]
    rw [← hempty]
    omega
  · simp [AcceptsFresh, AcceptsWhole]

/-- **Connections are isolated** in a run, every one accepted on a fresh slot and the records
extracted from it being its own, if and only if each is accepted on a descriptor whose last
connection had sent whole records. -/
theorem isolated_iff (as : List Step) (ha : Along Allowed as) :
    (Along AcceptsFresh as ∧ ∀ pre, pre <+: as → ∀ st tr,
      serveAll .init .init pre = .ok (st, tr) → ∀ k, k < tr.count → Extracted st tr k) ↔
    Along AcceptsWhole as := by
  constructor
  · rintro ⟨hfresh, -⟩ pre a hpre st tr hrun
    have he : Along (fun st tr a => Inv st tr → ∀ i, a = .accept i → (st.slots i).bEnd = 0) as :=
      fun pre a hpre st tr hrun _ i hi => (hfresh pre a hpre st tr hrun i hi).1
    have hinv := serveAll_inv ha he ((List.prefix_append pre [a]).trans hpre) hrun
    exact (hinv.fresh_iff (ha pre a hpre st tr hrun)).1 (hfresh pre a hpre st tr hrun)
  · intro hwhole
    have he : Along (fun st tr a => Inv st tr → ∀ i, a = .accept i → (st.slots i).bEnd = 0) as :=
      fun pre a hpre st tr hrun hinv i hi =>
        ((hinv.fresh_iff (ha pre a hpre st tr hrun)).2 (hwhole pre a hpre st tr hrun) i hi).1
    refine ⟨fun pre a hpre st tr hrun => ?_, fun pre hpre st tr hrun k hk => ?_⟩
    · have hinv := serveAll_inv ha he ((List.prefix_append pre [a]).trans hpre) hrun
      exact (hinv.fresh_iff (ha pre a hpre st tr hrun)).2 (hwhole pre a hpre st tr hrun)
    · exact (serveAll_inv ha he hpre hrun).extracted hk

/-- The log takes everything, at noon. -/
def noon : RelayEnv := ⟨fun _ amt => amt, fun _ => ⟨43200, 0⟩⟩

theorem noon_complete : noon.Complete := fun _ _ _ => rfl

/-- A client sends ten bytes and is gone, and the next one comes on its descriptor. -/
def truncatedThenReused : List Step :=
  [.accept 5, .input 5 noon (some (List.replicate 10 1)), .input 5 noon (some []), .accept 5]

theorem truncatedThenReused_allowed : Along Allowed truncatedThenReused := by
  refine along_of_check (p := checkAllowed) (by decide +kernel) fun st tr a ha h => ?_
  refine allowed_of_check h ?_
  rintro i env r rfl
  simp only [truncatedThenReused, List.mem_cons, Step.input.injEq, reduceCtorEq, false_or,
    List.not_mem_nil, or_false] at ha
  rcases ha with ⟨-, rfl, -⟩ | ⟨-, rfl, -⟩ <;> exact noon_complete

theorem isolated_iff_truncatedThenReused :
    (Along AcceptsFresh truncatedThenReused ∧ ∀ pre, pre <+: truncatedThenReused → ∀ st tr,
      serveAll .init .init pre = .ok (st, tr) → ∀ k, k < tr.count → Extracted st tr k) ↔
    Along AcceptsWhole truncatedThenReused :=
  isolated_iff truncatedThenReused truncatedThenReused_allowed

/-- The number of bytes in a slot when a run ends. -/
def bytesLeft (i : ℕ) (as : List Step) : Option ℕ :=
  match serveAll .init .init as with
  | .ok (st, _) => some (st.slots i).bEnd
  | .error _ => none

/-- The second connection is accepted on a slot that holds the ten bytes of the first. -/
theorem truncated_client_left :
    ¬ (Along AcceptsFresh truncatedThenReused ∧ ∀ pre, pre <+: truncatedThenReused → ∀ st tr,
      serveAll .init .init pre = .ok (st, tr) → ∀ k, k < tr.count → Extracted st tr k) := by
  rintro ⟨h, -⟩
  have hleft : bytesLeft 5 (truncatedThenReused.take 3) = some 10 := by decide +kernel
  rcases hrun : serveAll .init .init (truncatedThenReused.take 3) with e | ⟨st, tr⟩
  · simp [bytesLeft, hrun] at hleft
  · have hfresh := h (truncatedThenReused.take 3) (.accept 5) (List.prefix_refl _) st tr hrun 5 rfl
    simp only [bytesLeft, hrun, Option.some.injEq] at hleft
    have := hfresh.1
    omega

/-! ## Clients that send whole records -/

/-- What a client sends is the beginning of records, and whole records when it disconnects. -/
def Behaves (_ : State) (tr : Traffic) : Step → Prop
  | .accept _ => True
  | .input i _ r => ∀ k, tr.owner i = some k →
    Clean Record.bytes (tr.sent k ++ r.getD []) ∧ (r.getD [] = [] → Whole (tr.sent k))

/-- Connections that have ended had sent whole records, the others the beginning of records. -/
structure Settled (act : ℕ → Bool) (tr : Traffic) : Prop where
  clean : ∀ k, Clean Record.bytes (tr.sent k)
  closed : ∀ {i k}, act i = false → tr.owner i = some k → Whole (tr.sent k)
  gone : ∀ {k}, k < tr.count → (∀ i, tr.owner i ≠ some k) → Whole (tr.sent k)

theorem settled_init : Settled State.init.active Traffic.init where
  clean := fun _ => clean_nil
  closed := by simp [Traffic.init]
  gone := by simp [Traffic.init]

theorem Settled.step (h : Settled st.active tr) (hinv : Inv st tr) {a : Step}
    (ha : Allowed st tr a) (hb : Behaves st tr a) (out : List (List Byte)) :
    Settled (a.active st.active) (tr.step out a) := by
  rcases a with i | ⟨i, env, r⟩
  · refine ⟨h.clean, fun {j k} hact hown => ?_, fun {k} hk hgone => ?_⟩
    · simp only [Step.active, Traffic.step] at hact hown ⊢
      by_cases hj : j = i
      · subst hj
        simp at hact
      · rw [Function.update_of_ne hj] at hact hown
        exact h.closed hact hown
    · simp only [Traffic.step] at hk hgone ⊢
      have hne : k ≠ tr.count := by
        rintro rfl
        exact hgone i (Function.update_self ..)
      by_cases hown : tr.owner i = some k
      · exact h.closed ha.2 hown
      · refine h.gone (by omega) fun j hj => ?_
        by_cases hji : j = i
        · exact hown (hji ▸ hj)
        · exact hgone j (by rwa [Function.update_of_ne hji])
  · obtain ⟨k, hk⟩ : ∃ k, tr.owner i = some k := by
      rcases hown : tr.owner i with _ | k
      · have := (hinv.idle hown).1
        rw [ha.1] at this
        cases this
      · exact ⟨k, rfl⟩
    obtain ⟨hclean, hwhole⟩ := hb k hk
    refine ⟨fun k' => ?_, fun {j k'} hact hown => ?_, fun {k'} hk' hgone => ?_⟩
    · rw [sent_input hk]
      split
      · exact hclean
      · exact h.clean k'
    · have hown' : tr.owner j = some k' := hown
      simp only [Step.active] at hact
      rw [sent_input hk]
      by_cases hj : j = i
      · subst hj
        obtain rfl : k = k' := by simpa [hk] using hown'
        rw [if_pos rfl]
        by_cases hr : r.getD [] = []
        · rw [hr, List.append_nil]
          exact hwhole hr
        · rw [if_neg hr, ha.1] at hact
          cases hact
      · have hne : k' ≠ k := fun he => hj (hinv.owner_inj hown' (he ▸ hk))
        rw [if_neg hne]
        refine h.closed ?_ hown'
        split at hact
        · rwa [Function.update_of_ne hj] at hact
        · exact hact
    · have hgone' : ∀ j, tr.owner j ≠ some k' := hgone
      have hne : k' ≠ k := by
        rintro rfl
        exact hgone' i hk
      rw [sent_input hk, if_neg hne]
      exact h.gone hk' hgone'

/-- **A run with clients that send whole records** goes through and keeps the account. -/
theorem serveAll_settled (ha : Along Allowed as) (hb : Along Behaves as) {pre : List Step}
    (hpre : pre <+: as) : ∃ st tr, serveAll .init .init pre = .ok (st, tr) ∧ Inv st tr ∧
      Settled st.active tr := by
  induction pre using List.reverseRecOn with
  | nil => exact ⟨_, _, rfl, inv_init, settled_init⟩
  | append_singleton pre a ih =>
    obtain ⟨st, tr, hrun, hinv, hset⟩ := ih ((List.prefix_append pre [a]).trans hpre)
    have hallowed := ha.concat hpre hrun
    have hbehaves := hb.concat hpre hrun
    have hempty : ∀ i, a = .accept i → (st.slots i).bEnd = 0 := by
      rintro i rfl
      exact (hinv.empty_iff hallowed.2).2 fun k hk => hset.closed hallowed.2 hk
    have hclean : CleanStep tr a := by
      rcases a with i | ⟨i, env, r⟩
      · trivial
      · exact fun k hk => (hbehaves k hk).1
    obtain ⟨⟨st', out⟩, hserve, hinv', hact⟩ :=
      ((serve_spec hinv hallowed hempty).mono_error fun _ he => he hclean).total
    refine ⟨st', tr.step out a, ?_, hinv', ?_⟩
    · rw [serveAll_concat, hrun, ok_bind]
      simp only [hserve, ok_bind]
    · simp only at hact
      rw [hact]
      exact hset.step hinv hallowed hbehaves out

/-- An open slot has room. -/
theorem Inv.avail_pos (h : Inv st tr) (hset : Settled st.active tr) {i : ℕ}
    (hi : st.active i = true) : 0 < (st.slots i).avail := by
  obtain ⟨k, hk⟩ : ∃ k, tr.owner i = some k := by
    rcases hown : tr.owner i with _ | k
    · have := (h.idle hown).1
      rw [hi] at this
      cases this
    · exact ⟨k, rfl⟩
  obtain ⟨rest, ⟨rs, hsent, -⟩, hwait, hholds⟩ := h.opened hi hk
  have hclean : Clean Record.bytes rest := by
    have := hset.clean k
    rw [hsent] at this
    exact this.rest record_selfDelimiting
  have hlen : rest.length < frozenLen + 2 ^ 15 + 12 := by
    rcases hwait with hun | hlen
    · exact length_of_unfinished hclean hun
    · omega
  have hend := hholds.bEnd
  have havail := hholds.avail
  simp only [relayBuf, frozenLen] at havail hlen
  omega

/-- The file is made up of the records of `items`, each at another time. -/
def LogOf (file : List Byte) (items : List (Option ℕ × Record)) : Prop :=
  ∃ ws, file = ws.flatten ∧ List.Forall₂ (fun x w => Stamped x.2 w) items ws

/-- The records written for a connection that has ended, with or without another on its descriptor,
are those it sent. -/
theorem Inv.ended (h : Inv st tr) (hset : Settled st.active tr) (hall : ∀ i, st.active i = false)
    {k : ℕ} (hk : k < tr.count) : ∃ rs, tr.sent k = rs.flatMap Record.bytes ∧
      List.Forall₂ Stamped rs (tr.writesOf k) := by
  obtain ⟨rest, hrel, hun, hwhole⟩ : ∃ rest, Relays (tr.sent k) (tr.writesOf k) rest ∧
      Unfinished Record.bytes rest ∧ Whole (tr.sent k) := by
    by_cases hown : ∃ i, tr.owner i = some k
    · obtain ⟨i, hi⟩ := hown
      obtain ⟨rest, hrel, hun, -⟩ := h.closed (hall i) hi
      exact ⟨rest, hrel, hun, hset.closed (hall i) hi⟩
    · have hgone : ∀ i, tr.owner i ≠ some k := fun i hi => hown ⟨i, hi⟩
      obtain ⟨rest, hrel, hun⟩ := h.gone hk hgone
      exact ⟨rest, hrel, hun, hset.gone hk hgone⟩
  obtain rfl := (hrel.whole_iff hun).1 hwhole
  obtain ⟨rs, hsent, hws⟩ := hrel
  exact ⟨rs, by rw [hsent, List.append_nil], hws⟩

/-- The log of connections that have all ended is an interleaving of what they sent. -/
theorem Inv.logOf (h : Inv st tr) (hset : Settled st.active tr)
    (hall : ∀ i, st.active i = false) : ∃ items, LogOf tr.file items ∧
      (∀ x ∈ items, ∃ k, k < tr.count ∧ x.1 = some k) ∧
      ∀ k, k < tr.count → tr.sent k = (proj (some k) items).flatMap Record.bytes := by
  have hex : ∀ k : ℕ, ∃ rs, k < tr.count → tr.sent k = rs.flatMap Record.bytes ∧
      List.Forall₂ Stamped rs (tr.writesOf k) := by
    intro k
    by_cases hk : k < tr.count
    · obtain ⟨rs, hrs⟩ := h.ended hset hall hk
      exact ⟨rs, fun _ => hrs⟩
    · exact ⟨[], fun hlt => absurd hlt hk⟩
  choose rs hrs using hex
  obtain ⟨items, hitems, htags, hproj⟩ := exists_interleaving (R := Stamped)
    (fun t => ∃ k, k < tr.count ∧ t = some k) tr.log (fun t => rs (t.getD 0)) h.tags (by
      rintro _ ⟨k, hk, rfl⟩
      exact (hrs k hk).2)
  refine ⟨items, ⟨tr.log.map (·.2), by rw [Traffic.file, List.flatMap_def], ?_⟩, htags,
    fun k hk => ?_⟩
  · rw [List.forall₂_map_right_iff]
    exact hitems.imp fun _ _ hxq => hxq.2
  · rw [hproj (some k) ⟨k, hk, rfl⟩]
    exact (hrs k hk).1

/-- **Relay of many clients.** Any run of `logd` with clients that send whole records goes through;
at any time the slots account for their buffers, and those that are read have room. When all clients
have disconnected, the log is made up of the records of an interleaving, each at another time, and
what a connection sent are its records in the interleaving. -/
theorem relay_interleaves (as : List Step) (ha : Along Allowed as) (hb : Along Behaves as) :
    (∀ pre, pre <+: as → ∃ st tr, serveAll .init .init pre = .ok (st, tr) ∧
      (∀ i, (st.slots i).bEnd + (st.slots i).avail = relayBuf) ∧
      ∀ i, st.active i = true → 0 < (st.slots i).avail) ∧
    ∃ st tr, serveAll .init .init as = .ok (st, tr) ∧ ((∀ i, st.active i = false) →
      ∃ items, LogOf tr.file items ∧ (∀ x ∈ items, ∃ k, k < tr.count ∧ x.1 = some k) ∧
        ∀ k, k < tr.count → tr.sent k = (proj (some k) items).flatMap Record.bytes) := by
  refine ⟨fun pre hpre => ?_, ?_⟩
  · obtain ⟨st, tr, hrun, hinv, hset⟩ := serveAll_settled ha hb hpre
    exact ⟨st, tr, hrun, hinv.sized, fun i hi => hinv.avail_pos hset hi⟩
  · obtain ⟨st, tr, hrun, hinv, hset⟩ := serveAll_settled ha hb (List.prefix_refl as)
    exact ⟨st, tr, hrun, fun hall => hinv.logOf hset hall⟩

theorem length_noPadding : ([0, 0, 0, 0] : List UInt8).length = 4 := rfl

/-- A record with an argument and a string. -/
def hello : Record where
  fz :=
    { tid := 17, pid := 300, cycleHigh := 100, cycleLow := 7, sc := 3, rv := 0, nm := 97,
      argLen := 1, strLen := 2, padding := ⟨[0, 0, 0, 0], length_noPadding⟩ }
  args := [5]
  str := [104, 105]
  args_le := by decide
  argLen := by decide
  strLen := by decide

/-- Two clients send a record each, the second in two pieces, while the first disconnects. -/
def twoClients : List Step :=
  [.accept 5, .accept 6, .input 6 noon (some (hello.bytes.take 20)),
    .input 5 noon (some hello.bytes), .input 5 noon (some []),
    .input 6 noon (some (hello.bytes.drop 20)), .input 6 noon (some [])]

theorem twoClients_allowed : Along Allowed twoClients := by
  refine along_of_check (p := checkAllowed) (by decide +kernel) fun st tr a ha h => ?_
  refine allowed_of_check h ?_
  rintro i env r rfl
  simp only [twoClients, List.mem_cons, Step.input.injEq, reduceCtorEq, false_or,
    List.not_mem_nil, or_false] at ha
  rcases ha with ⟨-, rfl, -⟩ | ⟨-, rfl, -⟩ | ⟨-, rfl, -⟩ | ⟨-, rfl, -⟩ | ⟨-, rfl, -⟩ <;>
    exact noon_complete

/-- Clients that send at most the record `hello`, and this when they disconnect. -/
def checkHello (_ : State) (tr : Traffic) : Step → Bool
  | .accept _ => true
  | .input i _ r =>
    match tr.owner i with
    | none => true
    | some k => (tr.sent k ++ r.getD []).isPrefixOf hello.bytes &&
      (!(r.getD []).isEmpty || tr.sent k = hello.bytes)

theorem behaves_of_checkHello {a : Step} (h : checkHello st tr a = true) : Behaves st tr a := by
  rcases a with i | ⟨i, env, r⟩
  · trivial
  · intro k hk
    simp only [checkHello, hk, Bool.and_eq_true, Bool.or_eq_true, Bool.not_eq_true',
      decide_eq_true_eq, List.isPrefixOf_iff_prefix] at h
    have hbytes : hello.bytes = [hello].flatMap Record.bytes := by simp
    refine ⟨?_, fun hr => ?_⟩
    · rw [hbytes] at h
      exact (clean_flatMap [hello]).of_append h.1
    · rcases h.2 with hne | heq
      · simp [hr] at hne
      · exact ⟨[hello], heq.trans hbytes⟩

theorem relay_interleaves_twoClients :
    (∀ pre, pre <+: twoClients → ∃ st tr, serveAll .init .init pre = .ok (st, tr) ∧
      (∀ i, (st.slots i).bEnd + (st.slots i).avail = relayBuf) ∧
      ∀ i, st.active i = true → 0 < (st.slots i).avail) ∧
    ∃ st tr, serveAll .init .init twoClients = .ok (st, tr) ∧ ((∀ i, st.active i = false) →
      ∃ items, LogOf tr.file items ∧ (∀ x ∈ items, ∃ k, k < tr.count ∧ x.1 = some k) ∧
        ∀ k, k < tr.count → tr.sent k = (proj (some k) items).flatMap Record.bytes) :=
  relay_interleaves twoClients twoClients_allowed
    (along_of_check (p := checkHello) (by decide +kernel) fun _ _ _ _ h => behaves_of_checkHello h)

end BorderPatrol.Logd
