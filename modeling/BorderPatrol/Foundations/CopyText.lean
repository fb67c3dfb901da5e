import BorderPatrol.Foundations.CString

/-!
# Text that is copied into a table

The text format of PostgreSQL's `COPY`: a line for each row and a delimiter between the columns, and
a backslash in front of a character of a value that would be taken for one of them. A file is split
into lines and a line into columns at the separators that have no backslash in front
(`splitUnescaped`), the backslashes of a column are resolved then (`unescape`), and what the column
has in it is read as the type of the column says. The line `\.`, which may end the data, is not
treated here.
-/

namespace Foundations

/-! ## Separators -/

/-- A byte in front of the first piece. -/
def consHead (b : UInt8) : List (List UInt8) → List (List UInt8)
  | [] => [[b]]
  | p :: ps => (b :: p) :: ps

/-- The pieces between the separators that no backslash is in front of. The flag says that there is
one in front of the text. -/
def splitUnescaped (sep : UInt8) : Bool → List UInt8 → List (List UInt8)
  | _, [] => [[]]
  | true, b :: l => consHead b (splitUnescaped sep false l)
  | false, b :: l =>
    if b = sep then [] :: splitUnescaped sep false l
    else consHead b (splitUnescaped sep (b = 92) l)

/-- The number of separators a text is split at. -/
def separators (sep : UInt8) : Bool → List UInt8 → ℕ
  | _, [] => 0
  | true, _ :: l => separators sep false l
  | false, b :: l => if b = sep then separators sep false l + 1 else separators sep (b = 92) l

/-- Behind the text there is a backslash that what follows is escaped by. -/
def escapes : Bool → List UInt8 → Bool
  | e, [] => e
  | true, _ :: l => escapes false l
  | false, b :: l => escapes (b = 92) l

variable {sep : UInt8} {e : Bool} {l m : List UInt8}

theorem length_consHead (b : UInt8) {ps : List (List UInt8)} (h : ps ≠ []) :
    (consHead b ps).length = ps.length := by
  cases ps with
  | nil => exact absurd rfl h
  | cons p ps => rfl

theorem splitUnescaped_ne_nil (sep : UInt8) (e : Bool) (l : List UInt8) :
    splitUnescaped sep e l ≠ [] := by
  have hcons : ∀ b ps, consHead b ps ≠ [] := by
    intro b ps
    cases ps <;> simp [consHead]
  cases l with
  | nil => simp [splitUnescaped]
  | cons b l =>
    cases e with
    | true => exact hcons b _
    | false =>
      rw [splitUnescaped]
      split
      · simp
      · exact hcons b _

theorem length_splitUnescaped (sep : UInt8) (e : Bool) (l : List UInt8) :
    (splitUnescaped sep e l).length = separators sep e l + 1 := by
  induction l generalizing e with
  | nil => cases e <;> rfl
  | cons b l ih =>
    cases e with
    | true =>
      rw [splitUnescaped, separators, length_consHead b (splitUnescaped_ne_nil _ _ _), ih]
    | false =>
      rw [splitUnescaped, separators]
      split
      · rw [List.length_cons, ih]
      · rw [length_consHead b (splitUnescaped_ne_nil _ _ _), ih]

theorem separators_append (hsep : sep ≠ 92) (e : Bool) (l m : List UInt8) :
    separators sep e (l ++ m) = separators sep e l + separators sep (escapes e l) m := by
  induction l generalizing e with
  | nil => cases e <;> simp [separators, escapes]
  | cons b l ih =>
    cases e with
    | true => exact ih false
    | false =>
      rw [List.cons_append, separators, separators, escapes]
      split
      · next hb =>
        have hb' : decide (b = 92) = false := by
          rw [hb]
          exact decide_eq_false hsep
        rw [ih, hb']
        omega
      · exact ih _

/-- Text that is not split is in front of the first piece. -/
theorem splitUnescaped_append (h : separators sep e l = 0) (m : List UInt8) :
    ∃ p ps, splitUnescaped sep (escapes e l) m = p :: ps ∧
      splitUnescaped sep e (l ++ m) = (l ++ p) :: ps := by
  induction l generalizing e with
  | nil =>
    obtain ⟨p, ps, hp⟩ := List.exists_cons_of_ne_nil (splitUnescaped_ne_nil sep e m)
    cases e <;> exact ⟨p, ps, hp, hp⟩
  | cons b l ih =>
    cases e with
    | true =>
      obtain ⟨p, ps, hp, hlm⟩ := ih h
      exact ⟨p, ps, hp, by rw [List.cons_append, splitUnescaped, hlm]; rfl⟩
    | false =>
      rw [separators] at h
      split at h
      · exact absurd h (Nat.succ_ne_zero _)
      · next hb =>
        obtain ⟨p, ps, hp, hlm⟩ := ih h
        refine ⟨p, ps, hp, ?_⟩
        rw [List.cons_append, splitUnescaped, if_neg hb, hlm]
        rfl

/-- Text that is not split is one piece. -/
theorem splitUnescaped_of_separators (h : separators sep e l = 0) :
    splitUnescaped sep e l = [l] := by
  obtain ⟨p, ps, hp, hl⟩ := splitUnescaped_append h []
  have hnil : splitUnescaped sep (escapes e l) [] = [[]] := by cases escapes e l <;> rfl
  rw [hnil] at hp
  cases hp
  rwa [List.append_nil] at hl

/-- **The first piece** ends at the first separator. -/
theorem splitUnescaped_front (h : separators sep e l = 0) (hl : escapes e l = false)
    (m : List UInt8) :
    splitUnescaped sep e (l ++ sep :: m) = l :: splitUnescaped sep false m := by
  obtain ⟨p, ps, hp, hlm⟩ := splitUnescaped_append h (sep :: m)
  rw [hl, splitUnescaped, if_pos rfl] at hp
  obtain ⟨rfl, rfl⟩ := List.cons.inj hp
  rw [hlm, List.append_nil]

theorem escapes_append (e : Bool) (l m : List UInt8) :
    escapes e (l ++ m) = escapes (escapes e l) m := by
  induction l generalizing e with
  | nil => cases e <;> rfl
  | cons b l ih =>
    cases e with
    | true => exact ih false
    | false => exact ih _

/-- Text without a backslash does not escape what follows. -/
theorem escapes_of_plain (h : 92 ∉ l) : escapes false l = false := by
  induction l with
  | nil => rfl
  | cons b l ih =>
    rw [List.mem_cons, not_or] at h
    rw [escapes, decide_eq_false (Ne.symm h.1)]
    exact ih h.2

/-- There is nothing to split at where the separator does not occur. -/
theorem separators_of_notMem (h : sep ∉ l) : separators sep e l = 0 := by
  induction l generalizing e with
  | nil => cases e <;> rfl
  | cons b l ih =>
    rw [List.mem_cons, not_or] at h
    cases e with
    | true => exact ih h.2
    | false =>
      rw [separators, if_neg (Ne.symm h.1)]
      exact ih h.2

/-! ## Lists read element by element -/

section MapM

variable {α β : Type} {f : α → Option β} {a : α} {as : List α} {bs : List β}

theorem mapM_cons_eq_some (h : (a :: as).mapM f = some bs) :
    ∃ b bs', f a = some b ∧ as.mapM f = some bs' ∧ bs = b :: bs' := by
  rw [List.mapM_cons] at h
  obtain ⟨b, hb, h⟩ := Option.bind_eq_some_iff.1 h
  obtain ⟨bs', hbs, h⟩ := Option.bind_eq_some_iff.1 h
  exact ⟨b, bs', hb, hbs, (Option.some_inj.1 h).symm⟩

theorem mapM_eq_some_singleton {b : β} : as.mapM f = some [b] ↔ ∃ a, as = [a] ∧ f a = some b := by
  constructor
  · intro h
    rcases as with _ | ⟨a, as⟩
    · cases h
    · obtain ⟨b', bs', hb, hbs, heq⟩ := mapM_cons_eq_some h
      obtain ⟨rfl, rfl⟩ := List.cons.inj heq
      rcases as with _ | ⟨a', as⟩
      · exact ⟨a, rfl, hb⟩
      · obtain ⟨_, _, _, _, heq'⟩ := mapM_cons_eq_some hbs
        cases heq'
  · rintro ⟨a, rfl, ha⟩
    rw [List.mapM_cons, ha]
    rfl

theorem length_of_mapM_eq_some (h : as.mapM f = some bs) : bs.length = as.length := by
  induction as generalizing bs with
  | nil =>
    cases h
    rfl
  | cons a as ih =>
    obtain ⟨b, bs', -, hbs, rfl⟩ := mapM_cons_eq_some h
    rw [List.length_cons, List.length_cons, ih hbs]

end MapM

/-! ## Lines -/

/-- The lines of a file. The last one may lack its newline. -/
def copyLines (file : List UInt8) : List (List UInt8) :=
  let ls := splitUnescaped 10 false file
  if ls.getLast? = some [] then ls.dropLast else ls

/-- The first line, when it is not empty. -/
theorem copyLines_cons {file : List UInt8} {ls : List (List UInt8)}
    (h : splitUnescaped 10 false file = l :: ls) (hl : l ≠ []) :
    copyLines file = l :: if ls.getLast? = some [] then ls.dropLast else ls := by
  rw [copyLines, h]
  cases ls with
  | nil => simp [hl]
  | cons p ps =>
    simp only [List.getLast?_cons_cons]
    split <;> rfl

theorem copyLines_of_split {file rest : List UInt8}
    (h : splitUnescaped 10 false file = l :: splitUnescaped 10 false rest) :
    copyLines file = l :: copyLines rest := by
  obtain ⟨p, ps, hp⟩ := List.exists_cons_of_ne_nil (splitUnescaped_ne_nil 10 false rest)
  rw [copyLines, copyLines, h, hp]
  simp only [List.getLast?_cons_cons]
  split <;> rfl

/-- A line that nothing is escaped behind ends at its newline. -/
theorem copyLines_front (h : separators 10 false l = 0) (hl : escapes false l = false)
    (rest : List UInt8) : copyLines (l ++ 10 :: rest) = l :: copyLines rest :=
  copyLines_of_split (splitUnescaped_front h hl rest)

/-! ## Columns -/

/-- The value of a digit of any base up to 16, or 16. -/
def digitVal (c : UInt8) : ℕ :=
  if 48 ≤ c ∧ c ≤ 57 then c.toNat - 48
  else if 97 ≤ c ∧ c ≤ 102 then c.toNat - 87
  else if 65 ≤ c ∧ c ≤ 70 then c.toNat - 55
  else 16

/-- The number that digits stand for. -/
def digitsVal (base : ℕ) (ds : List UInt8) : ℕ :=
  ds.foldl (fun n c => base * n + digitVal c) 0

/-- The character that a letter behind a backslash stands for. -/
def escaped (c : UInt8) : UInt8 :=
  match c with
  | 98 => 8
  | 102 => 12
  | 110 => 10
  | 114 => 13
  | 116 => 9
  | 118 => 11
  | c => c

/-- The backslashes of a column resolved, in at most `n` steps. A backslash stands in front of up to
three octal digits, of an `x` and up to two hexadecimal digits, of a letter with a meaning, or of
what is taken as it is. -/
def unescapeLoop : ℕ → List UInt8 → List UInt8
  | 0, _ => []
  | _ + 1, [] => []
  | n + 1, b :: l =>
    if b ≠ 92 then b :: unescapeLoop n l
    else
      match l with
      | [] => []
      | c :: l =>
        let os := ((c :: l).takeWhile fun d => digitVal d < 8).take 3
        let hs := (l.takeWhile fun d => digitVal d < 16).take 2
        if os ≠ [] then UInt8.ofNat (digitsVal 8 os) :: unescapeLoop n ((c :: l).drop os.length)
        else if c = 120 ∧ hs ≠ [] then
          UInt8.ofNat (digitsVal 16 hs) :: unescapeLoop n (l.drop hs.length)
        else escaped c :: unescapeLoop n l

/-- The backslashes of a column resolved. -/
def unescape (l : List UInt8) : List UInt8 := unescapeLoop l.length l

/-- Steps beyond those needed change nothing. -/
theorem unescapeLoop_congr {n k : ℕ} (hn : l.length ≤ n) (hk : l.length ≤ k) :
    unescapeLoop n l = unescapeLoop k l := by
  induction n generalizing k l with
  | zero =>
    obtain rfl := List.length_eq_zero_iff.1 (Nat.le_zero.1 hn)
    cases k <;> rfl
  | succ n ih =>
    rcases l with _ | ⟨b, l⟩
    · cases k <;> rfl
    obtain ⟨k, rfl⟩ : ∃ k', k = k' + 1 := ⟨k - 1, by rw [List.length_cons] at hk; omega⟩
    rw [List.length_cons, Nat.add_le_add_iff_right] at hn hk
    have ih' : ∀ m : List UInt8, m.length ≤ l.length → unescapeLoop n m = unescapeLoop k m :=
      fun m hm => ih (hm.trans hn) (hm.trans hk)
    rw [unescapeLoop.eq_def, unescapeLoop.eq_def (k + 1)]
    dsimp only
    by_cases hb : b ≠ 92
    · rw [if_pos hb, if_pos hb, ih' l le_rfl]
    · rw [if_neg hb, if_neg hb]
      rcases l with _ | ⟨c, l⟩
      · rfl
      · simp only [List.length_cons] at ih'
        dsimp only
        rw [ih' ((c :: l).drop _) (by simp), ih' (l.drop _) (by simp; omega), ih' l (by omega)]

theorem unescapeLoop_eq {n : ℕ} (h : l.length ≤ n) : unescapeLoop n l = unescape l :=
  unescapeLoop_congr h le_rfl

theorem length_unescapeLoop_le (n : ℕ) (l : List UInt8) : (unescapeLoop n l).length ≤ l.length := by
  induction n generalizing l with
  | zero => exact Nat.zero_le _
  | succ n ih =>
    rcases l with _ | ⟨b, l⟩
    · exact le_rfl
    rw [unescapeLoop.eq_def]
    dsimp only
    split
    · exact Nat.succ_le_succ (ih l)
    · rcases l with _ | ⟨c, l⟩
      · exact Nat.zero_le _
      · dsimp only
        split
        · have hdrop := ih
            ((c :: l).drop (((c :: l).takeWhile fun d => digitVal d < 8).take 3).length)
          rw [List.length_drop] at hdrop
          simp only [List.length_cons] at hdrop ⊢
          omega
        · split
          · have hdrop := ih (l.drop ((l.takeWhile fun d => digitVal d < 16).take 2).length)
            rw [List.length_drop] at hdrop
            simp only [List.length_cons] at hdrop ⊢
            omega
          · have htail := ih l
            simp only [List.length_cons] at htail ⊢
            omega

/-- Resolving backslashes makes a column no longer. -/
theorem length_unescape_le (l : List UInt8) : (unescape l).length ≤ l.length :=
  length_unescapeLoop_le l.length l

/-- A byte that is not a backslash stands for itself. -/
theorem unescape_cons {b : UInt8} (h : b ≠ 92) (l : List UInt8) :
    unescape (b :: l) = b :: unescape l :=
  if_pos h

theorem unescape_append (h : 92 ∉ l) (m : List UInt8) : unescape (l ++ m) = l ++ unescape m := by
  induction l with
  | nil => rfl
  | cons b l ih =>
    rw [List.mem_cons, not_or] at h
    rw [List.cons_append, unescape_cons (Ne.symm h.1), ih h.2, List.cons_append]

theorem unescape_of_plain (h : 92 ∉ l) : unescape l = l := by
  have happend := unescape_append h []
  rwa [List.append_nil, show unescape [] = [] from rfl, List.append_nil] at happend

/-- Two backslashes stand for one. -/
theorem unescape_backslash (l : List UInt8) : unescape (92 :: 92 :: l) = 92 :: unescape l := by
  rw [← unescapeLoop_eq (Nat.le_succ l.length)]
  rfl

theorem unescape_backslashes (n : ℕ) (l : List UInt8) :
    unescape (List.replicate (2 * n) 92 ++ l) = List.replicate n 92 ++ unescape l := by
  induction n with
  | zero => rfl
  | succ n ih =>
    rw [Nat.mul_succ, List.replicate_succ, List.replicate_succ, List.replicate_succ,
      List.cons_append, List.cons_append, unescape_backslash, ih, List.cons_append]

/-- An even number of backslashes escapes nothing behind it. -/
theorem escapes_backslashes (n : ℕ) (l : List UInt8) :
    escapes false (List.replicate (2 * n) 92 ++ l) = escapes false l := by
  induction n with
  | zero => rfl
  | succ n ih =>
    rw [Nat.mul_succ, List.replicate_succ, List.replicate_succ, List.cons_append,
      List.cons_append]
    exact ih

/-- What a column has in it, or nothing when it is null (`\N`) or refused because of a carriage
return. -/
def copyColumn (col : List UInt8) : Option (List UInt8) :=
  if col = [92, 78] ∨ separators 13 false col ≠ 0 then none else some (unescape col)

theorem copyColumn_of_plain (h : 92 ∉ l) (h₁₃ : 13 ∉ l) : copyColumn l = some l := by
  have hnull : l ≠ [92, 78] := by
    rintro rfl
    simp at h
  rw [copyColumn, if_neg (by simp [hnull, separators_of_notMem h₁₃]), unescape_of_plain h]

/-- The sign in front of a number, and what is behind it. -/
def splitSign : List UInt8 → Bool × List UInt8
  | 45 :: t => (true, t)
  | 43 :: t => (false, t)
  | t => (false, t)

/-- What an integer type that ranges from `lo` to `hi` takes a text for. -/
def intIn (lo hi : ℤ) (s : List UInt8) : Option ℤ :=
  let (neg, t) := splitSign (s.dropWhile isspace)
  let v : ℤ := if neg then -leadingNat t else leadingNat t
  if t.takeWhile isdigit ≠ [] ∧ (t.dropWhile isdigit).all isspace ∧ lo ≤ v ∧ v ≤ hi then some v
  else none

/-- What `varchar(n)` takes a text for: spaces behind the first `n` characters are cut off. -/
def varcharIn (n : ℕ) (s : List UInt8) : Option (List UInt8) :=
  if (s.drop n).all (· = 32) then some (s.take n) else none

end Foundations
