import Mathlib.Algebra.Group.Int.Defs
import Mathlib.Data.List.Basic
import Mathlib.Data.List.TakeWhile
import Mathlib.Data.Int.Notation
import Mathlib.Data.Nat.Notation
import Mathlib.Tactic.Common

/-!
# C strings in memory

The string functions of C stop at the first zero byte and at nothing else: they see a memory, of
which the caller may have filled only the beginning. `strstr` looks for a needle in front of the
first zero, and what it finds depends on the memory up to the end of the needle found
(`strstr_congr`). `strtok` splits a string, given without its zero.
-/

namespace Foundations

/-- `strstr`: the offset of the first occurrence of the needle in the string at the start of the
memory. -/
def strstr (needle : List UInt8) : List UInt8 → Option ℕ
  | [] => none
  | b :: m =>
    if needle.isPrefixOf (b :: m) then some 0
    else if b = 0 then none
    else (strstr needle m).map (· + 1)

/-- `strtok`: the first token of the string and what is behind the delimiter that ends it. -/
def strtok (delim s : List UInt8) : Option (List UInt8 × List UInt8) :=
  let t := s.dropWhile (· ∈ delim)
  if t = [] then none
  else some (t.takeWhile (· ∉ delim), (t.dropWhile (· ∉ delim)).drop 1)

/-- A token found in an array: its text, what is behind the zero that ends it now, and where the
next call goes on. -/
structure Token where
  text : List UInt8
  behind : List UInt8
  next : List UInt8
  deriving DecidableEq, Repr

/-- `strtok` in an array. It stops at a delimiter, which it overwrites, or at a zero, where it will
go on; an array that neither stops it in it runs off the end of. The outer `none` is that, the
inner one a null pointer. -/
def strtokIn (delim s : List UInt8) : Option (Option Token) :=
  match s.dropWhile (· ∈ delim) with
  | [] => none
  | b :: t =>
    if b = 0 then some none
    else
      match (b :: t).dropWhile (fun c => c ∉ delim ∧ c ≠ 0) with
      | [] => none
      | c :: rest => some (some {
          text := (b :: t).takeWhile (fun c => c ∉ delim ∧ c ≠ 0)
          behind := rest
          next := if c = 0 then c :: rest else rest })

/-- `strncpy`: the `n` bytes it writes, the string and behind it zeros. A string of `n` bytes or
more is cut and has no zero then. -/
def strncpy (n : ℕ) (m : List UInt8) : List UInt8 :=
  (m.takeWhile (· ≠ 0) ++ List.replicate n 0).take n

/-- `strpbrk`: what is in front of the first character of the string that is in `accept`, and what
is behind it. -/
def strpbrk (accept s : List UInt8) : Option (List UInt8 × List UInt8) :=
  match s.dropWhile (· ∉ accept) with
  | [] => none
  | _ :: t => some (s.takeWhile (· ∉ accept), t)

/-- `isspace` -/
def isspace (c : UInt8) : Bool := c = 32 || 9 ≤ c && c ≤ 13

/-- `isdigit` -/
def isdigit (c : UInt8) : Bool := 48 ≤ c && c ≤ 57

/-- The number the decimal digits at the start of a string stand for. -/
def leadingNat (s : List UInt8) : ℕ :=
  (s.takeWhile isdigit).foldl (fun n c => 10 * n + (c.toNat - 48)) 0

/-- `atoi`, with 32 bits for an `int` and a `long`: a number out of range becomes the nearest one in
range. -/
def atoi (s : List UInt8) : ℤ :=
  let v : ℤ := match s.dropWhile isspace with
    | 45 :: t => -(leadingNat t : ℤ)
    | 43 :: t => leadingNat t
    | t => leadingNat t
  max (-2 ^ 31) (min v (2 ^ 31 - 1))

variable {needle m m' : List UInt8} {i : ℕ}

/-- The needle found lies in the memory. -/
theorem strstr_le (h : strstr needle m = some i) : i + needle.length ≤ m.length := by
  induction m generalizing i with
  | nil => cases h
  | cons b m ih =>
    rw [strstr] at h
    split at h
    · next hp =>
      cases h
      have := (List.isPrefixOf_iff_prefix.1 hp).length_le
      omega
    · split at h
      · cases h
      · obtain ⟨j, hj, rfl⟩ := Option.map_eq_some_iff.1 h
        have := ih hj
        simp only [List.length_cons]
        omega

/-- The needle is where it was found. -/
theorem strstr_found (h : strstr needle m = some i) : needle <+: m.drop i := by
  induction m generalizing i with
  | nil => cases h
  | cons b m ih =>
    rw [strstr] at h
    split at h
    · next hp =>
      cases h
      exact List.isPrefixOf_iff_prefix.1 hp
    · split at h
      · cases h
      · obtain ⟨j, hj, rfl⟩ := Option.map_eq_some_iff.1 h
        exact ih hj

/-- A needle is not found in a string that has none of its first characters. -/
theorem strstr_eq_none {x : UInt8} {b : List UInt8} (hx : x ≠ 0) (hb : x ∉ b) :
    strstr (x :: needle) (b ++ 0 :: m) = none := by
  induction b with
  | nil =>
    have hne : ¬ (x :: needle).isPrefixOf (0 :: m) := by
      simp [List.isPrefixOf, hx]
    rw [List.nil_append, strstr, if_neg hne, if_pos rfl]
  | cons y b ih =>
    rw [List.mem_cons, not_or] at hb
    have hne : ¬ (x :: needle).isPrefixOf (y :: (b ++ 0 :: m)) := by
      simp [List.isPrefixOf, hb.1]
    rw [List.cons_append, strstr, if_neg hne, ih hb.2]
    split <;> rfl

/-- `strstr` runs over bytes that the needle does not begin with. -/
theorem strstr_append {x : UInt8} {l : List UInt8} (hl : ∀ b ∈ l, b ≠ 0 ∧ b ≠ x) :
    strstr (x :: needle) (l ++ m) = (strstr (x :: needle) m).map (· + l.length) := by
  induction l with
  | nil => simp
  | cons y l ih =>
    obtain ⟨hy, hl⟩ := List.forall_mem_cons.1 hl
    have hne : ¬ (x :: needle).isPrefixOf (y :: (l ++ m)) := by
      simp [List.isPrefixOf, Ne.symm hy.2]
    rw [List.cons_append, strstr, if_neg hne, if_neg hy.1, ih hl, Option.map_map]
    congr 1

/-! ## Tokens of an array -/

section Tokens

variable {delim tok s : List UInt8} {d : UInt8} {w : ℕ}

/-- A delimiter in front is skipped. -/
theorem strtokIn_skip (hd : d ∈ delim) :
    strtokIn delim ((d :: s).take (w + 1)) = strtokIn delim (s.take w) := by
  rw [List.take_succ_cons, strtokIn, strtokIn, List.dropWhile_cons_of_pos (by simpa using hd)]

theorem takeWhile_append_of_neg {α : Type*} {p : α → Bool} {l r : List α} {a : α}
    (hl : ∀ b ∈ l, p b = true) (ha : p a = false) : (l ++ a :: r).takeWhile p = l := by
  rw [List.takeWhile_append_of_pos hl, List.takeWhile_cons_of_neg (by simp [ha]), List.append_nil]

theorem dropWhile_append_of_neg {α : Type*} {p : α → Bool} {l r : List α} {a : α}
    (hl : ∀ b ∈ l, p b = true) (ha : p a = false) : (l ++ a :: r).dropWhile p = a :: r := by
  rw [List.dropWhile_append_of_pos hl, List.dropWhile_cons_of_neg (by simp [ha])]

/-- **A token of an array** of `w` bytes: it is found if the delimiter behind it is in the array. -/
theorem strtokIn_token (hne : tok ≠ []) (htok : ∀ b ∈ tok, b ∉ delim ∧ b ≠ 0) (hd : d ∈ delim)
    (hd₀ : d ≠ 0) : strtokIn delim ((tok ++ d :: s).take w) =
      if tok.length < w then
        some (some ⟨tok, s.take (w - tok.length - 1), s.take (w - tok.length - 1)⟩)
      else none := by
  have hin : ∀ t : List UInt8, (∀ b ∈ t, b ∉ delim ∧ b ≠ 0) →
      ∀ b ∈ t, (fun c => decide (c ∉ delim ∧ c ≠ 0)) b = true := fun t ht b hb => by
    simpa using ht b hb
  split
  · next hw =>
    obtain ⟨k, rfl⟩ : ∃ k, w = tok.length + (k + 1) := ⟨w - tok.length - 1, by omega⟩
    have htake : (tok ++ d :: s).take (tok.length + (k + 1)) = tok ++ d :: s.take k := by
      rw [List.take_append, List.take_of_length_le (by omega), Nat.add_sub_cancel_left,
        List.take_succ_cons]
    obtain ⟨b, t, rfl⟩ := List.exists_cons_of_ne_nil hne
    have hb := htok b List.mem_cons_self
    have hskip : (b :: t ++ d :: s.take k).dropWhile (· ∈ delim) = b :: t ++ d :: s.take k := by
      rw [List.cons_append, List.dropWhile_cons_of_neg (by simpa using hb.1)]
    rw [htake, strtokIn, hskip, List.cons_append]
    simp only [if_neg hb.2]
    rw [← List.cons_append,
      dropWhile_append_of_neg (hin _ htok) (by simp [hd]),
      takeWhile_append_of_neg (hin _ htok) (by simp [hd])]
    simp only [if_neg hd₀]
    rw [show (b :: t).length + (k + 1) - (b :: t).length - 1 = k by omega]
  · next hw =>
    rw [List.take_append_of_le_length (by omega)]
    have ht : ∀ b ∈ tok.take w, b ∉ delim ∧ b ≠ 0 := fun b hb => htok b (List.mem_of_mem_take hb)
    rcases h : tok.take w with _ | ⟨b, t⟩
    · rfl
    · rw [h] at ht
      have hb := ht b List.mem_cons_self
      rw [strtokIn, List.dropWhile_cons_of_neg (by simpa using hb.1)]
      simp only [if_neg hb.2]
      rw [List.dropWhile_eq_nil_iff.2 (hin _ ht)]

end Tokens

/-- What `strncpy` copies of a string in front of something else. -/
theorem strncpy_append {l : List UInt8} (n : ℕ) (hl : ∀ b ∈ l, b ≠ 0) :
    ∃ y, strncpy n (l ++ m) = (l ++ y).take n := by
  refine ⟨m.takeWhile (· ≠ 0) ++ List.replicate n 0, ?_⟩
  rw [strncpy, List.takeWhile_append_of_pos fun b hb => by simpa using hl b hb, List.append_assoc]

/-- In front of a needle found there is no zero. -/
theorem strstr_ne_zero (h : strstr needle m = some i) : ∀ b ∈ m.take i, b ≠ 0 := by
  induction m generalizing i with
  | nil => cases h
  | cons y m ih =>
    rw [strstr] at h
    split at h
    · cases h
      simp
    · split at h
      · cases h
      · next hy =>
        obtain ⟨j, hj, rfl⟩ := Option.map_eq_some_iff.1 h
        rw [List.take_succ_cons]
        exact List.forall_mem_cons.2 ⟨hy, ih hj⟩

/-- Text in front of the first delimiter, and what is behind it. -/
theorem append_cons_inj_of_front {α : Type*} {d : α} {x x' y y' : List α} (hx : d ∉ x)
    (hx' : d ∉ x') (h : x ++ d :: y = x' ++ d :: y') : x = x' ∧ y = y' := by
  induction x generalizing x' with
  | nil =>
    cases x' with
    | nil => exact ⟨rfl, (List.cons.inj h).2⟩
    | cons c x' => exact absurd ((List.cons.inj h).1 ▸ List.mem_cons_self) hx'
  | cons c x ih =>
    cases x' with
    | nil => exact absurd ((List.cons.inj h).1 ▸ List.mem_cons_self) hx
    | cons c' x' =>
      rw [List.mem_cons, not_or] at hx hx'
      obtain ⟨rfl, htail⟩ := List.cons.inj h
      obtain ⟨rfl, rfl⟩ := ih hx.2 hx'.2 htail
      exact ⟨rfl, rfl⟩

/-- **A token and what is behind it**: in front of a delimiter the first token does not depend on
what follows the delimiter. -/
theorem strtok_front {x : List UInt8} (delim : List UInt8) (d : UInt8) (hx : ∃ c ∈ x, c ∉ delim)
    (hd : d ∈ delim) :
    ∃ tok u, ∀ w, strtok delim (x ++ d :: w) = some (tok, u ++ w) := by
  set t := x.dropWhile (· ∈ delim) with ht
  have hne : t ≠ [] := by
    intro h
    obtain ⟨c, hc, hcd⟩ := hx
    exact hcd (by simpa using List.dropWhile_eq_nil_iff.1 h c hc)
  have hdrop : ∀ w, (x ++ d :: w).dropWhile (· ∈ delim) = t ++ d :: w := by
    intro w
    rw [List.dropWhile_append, if_neg (by rw [List.isEmpty_iff]; exact hne)]
  by_cases hall : ∀ c ∈ t, c ∉ delim
  · -- the delimiter ends the token
    have hall' : ∀ c ∈ t, (fun c => decide (c ∉ delim)) c = true := fun c hc => by
      simpa using hall c hc
    refine ⟨t, [], fun w => ?_⟩
    rw [strtok]
    simp only [hdrop]
    rw [if_neg (by simp), List.takeWhile_append_of_pos hall', List.dropWhile_append_of_pos hall',
      List.takeWhile_cons_of_neg (by simpa using hd),
      List.dropWhile_cons_of_neg (by simpa using hd)]
    simp
  · have hrest : t.dropWhile (· ∉ delim) ≠ [] := by
      intro h
      exact hall fun c hc => by simpa using List.dropWhile_eq_nil_iff.1 h c hc
    obtain ⟨e, u, hu⟩ := List.exists_cons_of_ne_nil hrest
    have hlen : (t.takeWhile (· ∉ delim)).length ≠ t.length := by
      intro h
      have := congrArg List.length (List.takeWhile_append_dropWhile (p := (· ∉ delim)) (l := t))
      rw [List.length_append, hu, List.length_cons, h] at this
      omega
    refine ⟨t.takeWhile (· ∉ delim), u ++ [d], fun w => ?_⟩
    rw [strtok]
    simp only [hdrop]
    rw [if_neg (by simp), List.takeWhile_append, if_neg hlen, List.dropWhile_append,
      if_neg (by rw [List.isEmpty_iff, hu]; simp), hu]
    simp

/-- In a terminated string the needle lies before the zero. -/
theorem strstr_terminated {b : List UInt8} (hne : needle ≠ []) (h₀ : 0 ∉ needle)
    (h : strstr needle (b ++ [0]) = some i) : i + needle.length ≤ b.length := by
  have hle := strstr_le h
  rw [List.length_append, List.length_singleton] at hle
  by_contra hgt
  have hlen : needle.length = ((b ++ [0]).drop i).length := by
    rw [List.length_drop, List.length_append, List.length_singleton]
    omega
  have heq := (strstr_found h).eq_of_length hlen
  by_cases hi : i ≤ b.length
  · rw [List.drop_append_of_le_length hi] at heq
    exact h₀ (heq ▸ by simp)
  · rw [List.drop_eq_nil_of_le (by rw [List.length_append, List.length_singleton]; omega)] at heq
    exact hne heq

/-- A text with no zero in it that a string begins with lies before the zero. -/
theorem prefix_front {b : List UInt8} (h₀ : 0 ∉ needle) (h : needle <+: b ++ 0 :: m) :
    needle <+: b := by
  rcases List.prefix_or_prefix_of_prefix h (List.prefix_append b (0 :: m)) with h | ⟨t, rfl⟩
  · exact h
  rw [List.prefix_append_right_inj] at h
  rw [List.mem_append, not_or] at h₀
  cases t with
  | nil => simp only [List.append_nil, List.prefix_rfl]
  | cons x t =>
    obtain ⟨rfl, -⟩ := List.cons_prefix_cons.1 h
    exact absurd List.mem_cons_self h₀.2

theorem strstr_self (hne : needle ≠ []) : strstr needle (needle ++ m) = some 0 := by
  obtain ⟨b, t, rfl⟩ := List.exists_cons_of_ne_nil hne
  have hp : (b :: t).isPrefixOf (b :: (t ++ m)) :=
    List.isPrefixOf_iff_prefix.2 (List.prefix_append (b :: t) m)
  rw [List.cons_append, strstr, if_pos hp]

/-- The needle found lies before the zero. -/
theorem strstr_front {b : List UInt8} (h₀ : 0 ∉ needle)
    (h : strstr needle (b ++ 0 :: m) = some i) : needle <+: b.drop i := by
  have hi : i ≤ b.length := by
    by_contra hgt
    apply strstr_ne_zero h 0 _ rfl
    rw [List.take_append, List.mem_append]
    right
    obtain ⟨n, hn⟩ : ∃ n, i - b.length = n + 1 := ⟨i - b.length - 1, by omega⟩
    rw [hn, List.take_succ_cons]
    exact List.mem_cons_self
  have hfound := strstr_found h
  rw [List.drop_append_of_le_length hi] at hfound
  exact prefix_front h₀ hfound

theorem prefix_of_take_eq {n : ℕ} (h : m'.take n = m.take n) (hn : needle.length ≤ n) :
    needle <+: m → needle <+: m' := by
  intro hp
  have h₁ : needle <+: m.take n := List.prefix_take_iff.2 ⟨hp, hn⟩
  rw [← h] at h₁
  exact h₁.trans (List.take_prefix ..)

/-- **What `strstr` finds** depends on the memory up to the end of the needle found. -/
theorem strstr_congr (hne : needle ≠ []) (h : strstr needle m = some i)
    (hm : m'.take (i + needle.length) = m.take (i + needle.length)) :
    strstr needle m' = some i := by
  have hpos : 0 < needle.length := List.length_pos_of_ne_nil hne
  induction m generalizing m' i with
  | nil => cases h
  | cons b m ih =>
    obtain ⟨b', m', rfl⟩ : ∃ b' m'', m' = b' :: m'' := by
      apply List.exists_cons_of_ne_nil
      rintro rfl
      have := congrArg List.length hm
      simp only [List.take_nil, List.length_nil, List.length_take, List.length_cons] at this
      omega
    rw [strstr] at h ⊢
    split at h
    · next hp =>
      cases h
      have hp' := prefix_of_take_eq hm (by omega) (List.isPrefixOf_iff_prefix.1 hp)
      rw [if_pos (List.isPrefixOf_iff_prefix.2 hp')]
    · next hp =>
      split at h
      · cases h
      · next hb =>
        obtain ⟨j, hj, rfl⟩ := Option.map_eq_some_iff.1 h
        have hp' : ¬ needle.isPrefixOf (b' :: m') := by
          intro hq
          exact hp (List.isPrefixOf_iff_prefix.2
            (prefix_of_take_eq hm.symm (by omega) (List.isPrefixOf_iff_prefix.1 hq)))
        rw [show j + 1 + needle.length = j + needle.length + 1 by omega, List.take_succ_cons,
          List.take_succ_cons] at hm
        obtain ⟨rfl, htail⟩ := List.cons.inj hm
        rw [if_neg hp', if_neg hb, ih hj htail]
        rfl

end Foundations
