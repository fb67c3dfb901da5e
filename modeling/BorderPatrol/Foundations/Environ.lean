import Mathlib.Data.List.Basic
import Mathlib.Tactic.Common

/-!
# Environments of a process

An environment is an array of strings `name=value`. `getenv` looks for the first that begins with
the name and an equals sign, so that an entry hides those behind it with its name: entries in front
of an environment are looked up first (`getenv_append`), in entries of variables the lookup is that
of an association list (`getenv_entries`), and `setenv` changes one variable and no other
(`getenv_setenv`). The name of a variable has no equals sign.
-/

namespace Foundations

/-- The entry of a variable. -/
def envEntry (name value : List UInt8) : List UInt8 := name ++ 61 :: value

/-- What `getenv` looks for in an entry. -/
def envValue (name e : List UInt8) : Option (List UInt8) :=
  if name ++ [61] <+: e then some (e.drop (name.length + 1)) else none

/-- `getenv` -/
def getenv (env : List (List UInt8)) (name : List UInt8) : Option (List UInt8) :=
  env.findSome? (envValue name)

/-- `setenv`, which overwrites: the first entry of the variable is replaced, and a new one put at
the end if there is none. -/
def setenv (name value : List UInt8) : List (List UInt8) → List (List UInt8)
  | [] => [envEntry name value]
  | e :: env =>
    if name ++ [61] <+: e then envEntry name value :: env else e :: setenv name value env

/-- `unsetenv`: all entries of the variable go. -/
def unsetenv (name : List UInt8) (env : List (List UInt8)) : List (List UInt8) :=
  env.filter fun e => ¬ name ++ [61] <+: e

variable {name name' value e : List UInt8} {env : List (List UInt8)}

theorem getenv_cons : getenv (e :: env) name = (envValue name e).or (getenv env name) := by
  rw [getenv, List.findSome?_cons]
  cases envValue name e <;> rfl

theorem getenv_append (env₁ env₂ : List (List UInt8)) (name : List UInt8) :
    getenv (env₁ ++ env₂) name = (getenv env₁ name).or (getenv env₂ name) :=
  List.findSome?_append

/-- An equals sign ends a name. -/
theorem prefix_envEntry_iff (hn : 61 ∉ name) (hn' : 61 ∉ name') :
    name ++ [61] <+: envEntry name' value ↔ name = name' := by
  constructor
  · rintro ⟨t, ht⟩
    rw [envEntry, List.append_assoc, List.singleton_append] at ht
    induction name generalizing name' with
    | nil =>
      cases name' with
      | nil => rfl
      | cons b name' =>
        obtain rfl : 61 = b := (List.cons.inj ht).1
        exact absurd List.mem_cons_self hn'
    | cons a name ih =>
      cases name' with
      | nil =>
        obtain rfl : a = 61 := (List.cons.inj ht).1
        exact absurd List.mem_cons_self hn
      | cons b name' =>
        obtain ⟨rfl, htail⟩ := List.cons.inj ht
        have hname : 61 ∉ name := fun h => hn (List.mem_cons_of_mem a h)
        have hname' : 61 ∉ name' := fun h => hn' (List.mem_cons_of_mem a h)
        rw [ih hname hname' htail]
  · rintro rfl
    exact ⟨value, by rw [envEntry, List.append_assoc, List.singleton_append]⟩

theorem envValue_envEntry (hn : 61 ∉ name) (hn' : 61 ∉ name') :
    envValue name (envEntry name' value) = if name = name' then some value else none := by
  refine if_ctx_congr (prefix_envEntry_iff hn hn') (fun h => ?_) fun _ => rfl
  subst h
  rw [envEntry, ← List.singleton_append, ← List.append_assoc, List.drop_left' (by simp)]

/-- The entries of variables are an association list. -/
theorem getenv_entries {vars : List (List UInt8 × List UInt8)} (hn : 61 ∉ name)
    (hvars : ∀ v ∈ vars, 61 ∉ v.1) :
    getenv (vars.map fun v => envEntry v.1 v.2) name = vars.lookup name := by
  induction vars with
  | nil => rfl
  | cons v vars ih =>
    rw [List.map_cons, getenv_cons, envValue_envEntry hn (hvars v List.mem_cons_self),
      ih fun w hw => hvars w (List.mem_cons_of_mem v hw), List.lookup_cons]
    by_cases h : name = v.1
    · rw [if_pos h, beq_iff_eq.2 h]
      rfl
    · rw [if_neg h, beq_eq_false_iff_ne.2 h]
      rfl

/-- An entry is of one variable. -/
theorem envValue_of_ne (hn : 61 ∉ name) (hn' : 61 ∉ name') (he : name' ++ [61] <+: e)
    (hne : name ≠ name') : envValue name e = none := by
  obtain ⟨t, rfl⟩ := he
  have h : envValue name (envEntry name' t) = none := by
    rw [envValue_envEntry hn hn', if_neg hne]
  rwa [envEntry, ← List.singleton_append, ← List.append_assoc] at h

/-- **One variable is set** and no other. -/
theorem getenv_setenv (hn : 61 ∉ name) (hn' : 61 ∉ name') :
    getenv (setenv name' value env) name =
      if name = name' then some value else getenv env name := by
  induction env with
  | nil =>
    rw [setenv, getenv_cons, envValue_envEntry hn hn']
    split <;> rfl
  | cons e env ih =>
    rw [setenv]
    split
    · next he =>
      rw [getenv_cons, getenv_cons, envValue_envEntry hn hn']
      split
      · rfl
      · next hne =>
        rw [envValue_of_ne hn hn' he hne]
    · rw [getenv_cons, getenv_cons, ih]
      split
      · next he heq =>
        subst heq
        rw [envValue, if_neg he]
        rfl
      · rfl

end Foundations
