import BorderPatrol.Basic
import BorderPatrol.Foundations.Environ

/-!
# Programs that a traced program starts

`execve` of `vfd.c` puts entries of the tracer in front of the environment it is given, so that the
program started is traced as well: where the library is, the thread that called, the path of the
program, and what is switched off. The entry with the name of the program is formatted, but the
entry of the library is stored in its place, a second time. So the program has its name in
`TRACE_FN` only if it had been there before (`execve_carries_iff`); all else is carried over, as
long as the texts fit the arrays of 1024 bytes they are formatted in. `setenv_carry`, which the
other functions of the family call, stores the name (`setenvCarry_carried`). `vfd_init` of the
program started reads the flags, the thread and the path as they were (`Carried.started`).
-/

namespace BorderPatrol.Trace

open Foundations

/-! ## The model -/

/-- The variables of the tracer. -/
inductive EnvName
  | ldPreload | traceFn | bbExecPtid | bbExecPath | bbDisablePp | bbDisableLog | bbDisableAll
  deriving DecidableEq

/-- Their names. -/
def EnvName.text : EnvName → List Byte
  | ldPreload => ascii "LD_PRELOAD"
  | traceFn => ascii "TRACE_FN"
  | bbExecPtid => ascii "BB_EXEC_PTID"
  | bbExecPath => ascii "BB_EXEC_PATH"
  | bbDisablePp => ascii "BB_DISABLE_PP"
  | bbDisableLog => ascii "BB_DISABLE_LOG"
  | bbDisableAll => ascii "BB_DISABLE_ALL"

/-- What the process that starts a program has: its own environment, the path the library was built
for, the id of the thread, and the flags. -/
structure ExecCaller where
  environ : List (List Byte)
  traceLib : List Byte
  tid : UInt64
  bbDisablePp : ℤ
  bbDisableLog : ℤ
  bbDisableAll : ℤ

/-- The path of the library. -/
def ExecCaller.libPath (t : ExecCaller) : List Byte :=
  (getenv t.environ (ascii "LIBBTRACE_PATH")).getD t.traceLib

/-- `basename`, of `string.h`: what is behind the last slash. -/
def basename (path : List Byte) : List Byte := (path.reverse.takeWhile (· ≠ 47)).reverse

/-- `sprintf` into an array of `n` bytes. -/
def sprintf (n : ℕ) (text : List Byte) : Except Fault (List Byte) := do
  inBounds (text.length < n)
  return text

/-- `mod_envp[i++] = e`, in an array of `slots` pointers. -/
def pushEnv (slots : ℕ) (modEnvp : List (List Byte)) (e : List Byte) :
    Except Fault (List (List Byte)) := do
  inBounds (modEnvp.length < slots)
  return modEnvp ++ [e]

/-- `if(flag) mod_envp[i++] = e` -/
def pushEnvIf (flag : ℤ) (slots : ℕ) (modEnvp : List (List Byte)) (e : List Byte) :
    Except Fault (List (List Byte)) :=
  if flag ≠ 0 then pushEnv slots modEnvp e else .ok modEnvp

/-- What `real_execve` is called with, and the integer and the string logged with `SYS_EXEC`. -/
structure ExecveCall where
  filename : List Byte
  argv : List (List Byte)
  envp : List (List Byte)
  logged : ℤ × List Byte

/-- `execve` -/
def execve (t : ExecCaller) (filename : List Byte) (argv envp : List (List Byte)) :
    Except Fault ExecveCall := do
  -- malloc space for more
  let slots := envp.length + 10
  -- put in my stuff first
  let ldp ← sprintf 1024 (ascii "LD_PRELOAD=" ++ t.libPath)
  let modEnvp ← pushEnv slots [] ldp
  -- the text of `pn` is not used
  let _pn ← sprintf 1024 (ascii "TRACE_FN=" ++ basename filename)
  let modEnvp ← pushEnv slots modEnvp ldp
  let ept ← sprintf 1024 (ascii "BB_EXEC_PTID=" ++ decimal t.tid.toNat)
  let modEnvp ← pushEnv slots modEnvp ept
  let pa ← sprintf 1024 (ascii "BB_EXEC_PATH=" ++ filename)
  let modEnvp ← pushEnv slots modEnvp pa
  let modEnvp ← pushEnvIf t.bbDisablePp slots modEnvp (ascii "BB_DISABLE_PP=yes")
  let modEnvp ← pushEnvIf t.bbDisableAll slots modEnvp (ascii "BB_DISABLE_ALL=yes")
  -- copy envp
  let modEnvp ← envp.foldlM (pushEnv slots) modEnvp
  -- the null pointer behind the entries
  inBounds (modEnvp.length < slots)
  return ⟨filename, argv, modEnvp, (modEnvp.length, filename)⟩

/-- `setenv_carry`: the environment of the process afterwards. -/
def setenvCarry (t : ExecCaller) (path : List Byte) : List (List Byte) :=
  let env := setenv (ascii "BB_EXEC_PTID") (decimal t.tid.toNat) t.environ
  let env := setenv (ascii "BB_EXEC_PATH") path env
  let env := setenv (ascii "TRACE_FN") (basename path) env
  let env := setenv (ascii "LD_PRELOAD") t.libPath env
  let env := if t.bbDisablePp ≠ 0 then setenv (ascii "BB_DISABLE_PP") (ascii "yes") env else env
  let env := if t.bbDisableLog ≠ 0 then setenv (ascii "BB_DISABLE_LOG") (ascii "yes") env else env
  if t.bbDisableAll ≠ 0 then setenv (ascii "BB_DISABLE_ALL") (ascii "yes") env else env

/-- `strtoull` in base 10. -/
def strtoull (s : List Byte) : ℕ :=
  match s.dropWhile isspace with
  | 45 :: t => if leadingNat t < 2 ^ 64 then (2 ^ 64 - leadingNat t) % 2 ^ 64 else 2 ^ 64 - 1
  | 43 :: t => min (leadingNat t) (2 ^ 64 - 1)
  | t => min (leadingNat t) (2 ^ 64 - 1)

/-- What `vfd_init` takes from the environment: the flags, the name of the program, the thread that
is logged with `SYS_EXEC_CHILD`, the path `pp_id_exec` is called on, and the environment left. -/
structure VfdEnv where
  bbDisableAll : ℤ
  progName : List Byte
  debugEvents : ℤ
  bbDisablePp : ℤ
  ptid : Option ℕ
  path : Option (List Byte)
  environ : List (List Byte)

/-- The part of `vfd_init` that reads the environment. -/
def vfdInitEnv (env : List (List Byte)) : VfdEnv where
  bbDisableAll := if (getenv env (ascii "BB_DISABLE_ALL")).isSome then 1 else 0
  progName := (getenv env (ascii "TRACE_FN")).getD (ascii "__")
  debugEvents := if (getenv env (ascii "DEBUG_EVENTS")).isSome ∨
    (getenv env (ascii "DEBUG_EV")).isSome then 1 else 0
  bbDisablePp := if (getenv env (ascii "BB_DISABLE_PP")).isSome then 1 else 0
  ptid := (getenv env (ascii "BB_EXEC_PTID")).map strtoull
  path := getenv env (ascii "BB_EXEC_PATH")
  environ := unsetenv (ascii "BB_EXEC_PATH") (unsetenv (ascii "BB_EXEC_PTID") env)

/-! ## What is carried over -/

/-- The variables that `execve` is to set. -/
def ExecCaller.names (t : ExecCaller) : List EnvName :=
  [.ldPreload, .traceFn, .bbExecPtid, .bbExecPath] ++
    (if t.bbDisablePp ≠ 0 then [.bbDisablePp] else []) ++
    if t.bbDisableAll ≠ 0 then [.bbDisableAll] else []

/-- The variables that `setenv_carry` sets. -/
def ExecCaller.carryNames (t : ExecCaller) : List EnvName :=
  t.names ++ if t.bbDisableLog ≠ 0 then [.bbDisableLog] else []

/-- The environment `env` of the program `path` has the values of the tracer in the variables
`names`, and those of `user` in all others. -/
structure Carried (t : ExecCaller) (path : List Byte) (names : List EnvName)
    (user env : List (List Byte)) : Prop where
  ldPreload : getenv env (ascii "LD_PRELOAD") = some t.libPath
  traceFn : getenv env (ascii "TRACE_FN") = some (basename path)
  ptid : getenv env (ascii "BB_EXEC_PTID") = some (decimal t.tid.toNat)
  path : getenv env (ascii "BB_EXEC_PATH") = some path
  disablePp : t.bbDisablePp ≠ 0 → (getenv env (ascii "BB_DISABLE_PP")).isSome = true
  disableAll : t.bbDisableAll ≠ 0 → (getenv env (ascii "BB_DISABLE_ALL")).isSome = true
  other : ∀ name, 61 ∉ name → (∀ a ∈ names, name ≠ a.text) → getenv env name = getenv user name

/-- The texts fit the arrays they are formatted in. -/
def ExecFits (t : ExecCaller) (filename : List Byte) : Prop :=
  (ascii "LD_PRELOAD=").length + t.libPath.length < 1024 ∧
    (ascii "BB_EXEC_PATH=").length + filename.length < 1024

/-- The variables that `execve` puts in front. -/
def ExecCaller.vars (t : ExecCaller) (filename : List Byte) : List (List Byte × List Byte) :=
  [(EnvName.ldPreload.text, t.libPath), (EnvName.ldPreload.text, t.libPath),
      (EnvName.bbExecPtid.text, decimal t.tid.toNat), (EnvName.bbExecPath.text, filename)] ++
    (if t.bbDisablePp ≠ 0 then [(EnvName.bbDisablePp.text, ascii "yes")] else []) ++
    if t.bbDisableAll ≠ 0 then [(EnvName.bbDisableAll.text, ascii "yes")] else []

variable {t : ExecCaller} {filename path : List Byte} {argv envp : List (List Byte)}

theorem EnvName.eq_not_mem (a : EnvName) : 61 ∉ a.text := by
  cases a <;> decide

theorem EnvName.text_inj {a b : EnvName} : a.text = b.text ↔ a = b := by
  refine ⟨fun h => ?_, congrArg _⟩
  revert h
  cases a <;> cases b <;> decide

@[simp] theorem EnvName.text_beq {a b : EnvName} : (a.text == b.text) = decide (a = b) := by
  rw [beq_eq_decide, decide_eq_decide, EnvName.text_inj]

theorem basename_length_le (path : List Byte) : (basename path).length ≤ path.length := by
  rw [basename, List.length_reverse]
  have hle := (List.takeWhile_sublist (· ≠ 47) (l := path.reverse)).length_le
  rwa [List.length_reverse] at hle

/-! ## The entries -/

theorem sprintf_of {n : ℕ} {text : List Byte} (h : text.length < n) :
    sprintf n text = .ok text := by
  rw [sprintf, inBounds_of h]
  rfl

theorem length_of_sprintf {n : ℕ} {text text' : List Byte} (h : sprintf n text = .ok text') :
    text.length < n := by
  obtain ⟨u, hin, -⟩ := bind_eq_ok h
  exact of_inBounds hin

theorem pushEnv_of {slots : ℕ} {env : List (List Byte)} (e : List Byte) (h : env.length < slots) :
    pushEnv slots env e = .ok (env ++ [e]) := by
  rw [pushEnv, inBounds_of h]
  rfl

theorem pushEnvIf_of {slots : ℕ} {env : List (List Byte)} (flag : ℤ) (e : List Byte)
    (h : env.length < slots) :
    pushEnvIf flag slots env e = .ok (env ++ if flag ≠ 0 then [e] else []) := by
  rw [pushEnvIf, pushEnv_of e h]
  split <;> simp

/-- The copy of an environment that there is room for. -/
theorem foldlM_pushEnv {slots : ℕ} {env : List (List Byte)} (envp : List (List Byte))
    (h : env.length + envp.length ≤ slots) :
    envp.foldlM (pushEnv slots) env = .ok (env ++ envp) := by
  induction envp generalizing env with
  | nil =>
    rw [List.append_nil]
    rfl
  | cons e envp ih =>
    rw [List.length_cons] at h
    rw [List.foldlM_cons, pushEnv_of e (by omega), ok_bind,
      ih (by rw [List.length_append, List.length_singleton]; omega), List.append_assoc,
      List.singleton_append]

/-- The entries that `execve` puts in front. -/
def ExecCaller.entries (t : ExecCaller) (filename : List Byte) : List (List Byte) :=
  (t.vars filename).map fun v => envEntry v.1 v.2

theorem length_entries_le (t : ExecCaller) (filename : List Byte) :
    (t.entries filename).length ≤ 6 := by
  rw [ExecCaller.entries, List.length_map, ExecCaller.vars]
  split <;> split <;> simp

theorem entries_eq : t.entries filename =
    [ascii "LD_PRELOAD=" ++ t.libPath] ++ [ascii "LD_PRELOAD=" ++ t.libPath] ++
      [ascii "BB_EXEC_PTID=" ++ decimal t.tid.toNat] ++ [ascii "BB_EXEC_PATH=" ++ filename] ++
      (if t.bbDisablePp ≠ 0 then [ascii "BB_DISABLE_PP=yes"] else []) ++
      if t.bbDisableAll ≠ 0 then [ascii "BB_DISABLE_ALL=yes"] else [] := by
  rw [ExecCaller.entries, ExecCaller.vars]
  split <;> split <;> rfl

/-- **What `execve` does** when the texts fit. -/
theorem execve_of_fits (argv envp : List (List Byte)) (h : ExecFits t filename) :
    execve t filename argv envp = .ok ⟨filename, argv, t.entries filename ++ envp,
      ((t.entries filename ++ envp).length, filename)⟩ := by
  obtain ⟨hldp, hpa⟩ := h
  have hpn : (ascii "TRACE_FN=").length + (basename filename).length < 1024 := by
    have hlen : (ascii "TRACE_FN=").length ≤ (ascii "BB_EXEC_PATH=").length := by decide
    have := basename_length_le filename
    omega
  have hept : (ascii "BB_EXEC_PTID=").length + (decimal t.tid.toNat).length < 1024 := by
    have hlen : (ascii "BB_EXEC_PTID=").length ≤ 13 := by decide
    have hlt : t.tid.toNat < 10 ^ 20 := t.tid.toNat_lt.trans (by decide)
    have := length_decimal_le (by decide) hlt
    omega
  rw [← List.length_append] at hldp hpa hpn hept
  simp only [execve]
  rw [sprintf_of hldp, ok_bind, pushEnv_of _ (by simp), ok_bind, sprintf_of hpn, ok_bind,
    pushEnv_of _ (by simp), ok_bind, sprintf_of hept, ok_bind, pushEnv_of _ (by simp), ok_bind,
    sprintf_of hpa, ok_bind, pushEnv_of _ (by simp), ok_bind, pushEnvIf_of _ _ (by simp), ok_bind,
    pushEnvIf_of _ _ (by split <;> simp), ok_bind]
  rw [List.nil_append, ← entries_eq]
  have hlen : (t.entries filename).length ≤ 6 := length_entries_le t filename
  rw [foldlM_pushEnv envp (by omega), ok_bind, inBounds_of (by rw [List.length_append]; omega),
    ok_bind]
  rfl

/-- It does not return when they do not. -/
theorem fits_of_execve {call : ExecveCall} (h : execve t filename argv envp = .ok call) :
    ExecFits t filename := by
  simp only [execve] at h
  obtain ⟨ldp, hldp, h⟩ := bind_eq_ok h
  obtain ⟨m₁, -, h⟩ := bind_eq_ok h
  obtain ⟨pn, -, h⟩ := bind_eq_ok h
  obtain ⟨m₂, -, h⟩ := bind_eq_ok h
  obtain ⟨ept, -, h⟩ := bind_eq_ok h
  obtain ⟨m₃, -, h⟩ := bind_eq_ok h
  obtain ⟨pa, hpa, -⟩ := bind_eq_ok h
  have hldp' := length_of_sprintf hldp
  have hpa' := length_of_sprintf hpa
  rw [List.length_append] at hldp' hpa'
  exact ⟨hldp', hpa'⟩

/-! ## The lookup -/

/-- The variables put in front are the tracer's, without `TRACE_FN`. -/
theorem mem_vars {v : List Byte × List Byte} (hv : v ∈ t.vars filename) :
    ∃ a ∈ t.names, a ≠ .traceFn ∧ v.1 = a.text := by
  simp only [ExecCaller.vars, List.mem_append, List.mem_ite_nil_right, List.mem_cons,
    List.not_mem_nil, or_false] at hv
  simp only [ExecCaller.names, List.mem_append, List.mem_ite_nil_right, List.mem_cons,
    List.not_mem_nil, or_false]
  rcases hv with ((rfl | rfl | rfl | rfl) | ⟨hpp, rfl⟩) | ⟨hall, rfl⟩
  · exact ⟨.ldPreload, by simp⟩
  · exact ⟨.ldPreload, by simp⟩
  · exact ⟨.bbExecPtid, by simp⟩
  · exact ⟨.bbExecPath, by simp⟩
  · exact ⟨.bbDisablePp, by simp [hpp]⟩
  · exact ⟨.bbDisableAll, by simp [hall]⟩

/-- A lookup in what `execve` passes on. -/
theorem getenv_entries_append {name : List Byte} (hn : 61 ∉ name) :
    getenv (t.entries filename ++ envp) name =
      ((t.vars filename).lookup name).or (getenv envp name) := by
  have hvars : ∀ v ∈ t.vars filename, 61 ∉ v.1 := by
    intro v hv
    obtain ⟨a, -, -, ha⟩ := mem_vars hv
    rw [ha]
    exact a.eq_not_mem
  rw [getenv_append, ExecCaller.entries, getenv_entries hn hvars]

/-- What is not put in front is looked up in the environment of the user. -/
theorem getenv_of_not_vars {name : List Byte} (hn : 61 ∉ name)
    (h : ∀ a ∈ t.names, a ≠ .traceFn → name ≠ a.text) :
    getenv (t.entries filename ++ envp) name = getenv envp name := by
  have hnone : (t.vars filename).lookup name = none := by
    rw [List.lookup_eq_none_iff]
    intro v hv
    obtain ⟨a, ha, hne, hv₁⟩ := mem_vars hv
    rw [bne_iff_ne, hv₁]
    exact h a ha hne
  rw [getenv_entries_append hn, hnone, Option.none_or]

/-- What is put in front hides what the user has. -/
theorem getenv_of_vars (a : EnvName) {value : List Byte}
    (h : (t.vars filename).lookup a.text = some value) :
    getenv (t.entries filename ++ envp) a.text = some value := by
  rw [getenv_entries_append a.eq_not_mem, h, Option.some_or]

/-- `TRACE_FN` is not put in front. -/
theorem getenv_traceFn : getenv (t.entries filename ++ envp) (ascii "TRACE_FN") =
    getenv envp (ascii "TRACE_FN") :=
  getenv_of_not_vars EnvName.traceFn.eq_not_mem fun a _ hne h =>
    hne (EnvName.text_inj (a := .traceFn) (b := a).1 h).symm

/-- **All but the name** is carried over. -/
theorem carried_entries_iff : Carried t filename t.names envp (t.entries filename ++ envp) ↔
    getenv envp (ascii "TRACE_FN") = some (basename filename) := by
  refine ⟨fun h => getenv_traceFn.symm.trans h.traceFn, fun h => ?_⟩
  refine
    { ldPreload := getenv_of_vars .ldPreload (by simp [ExecCaller.vars])
      traceFn := getenv_traceFn.trans h
      ptid := getenv_of_vars .bbExecPtid (by simp [ExecCaller.vars, List.lookup_cons])
      path := getenv_of_vars .bbExecPath (by simp [ExecCaller.vars, List.lookup_cons])
      disablePp := fun hpp => ?_
      disableAll := fun hall => ?_
      other := fun name hn hne => getenv_of_not_vars hn fun a ha _ => hne a ha }
  · have hyes : getenv (t.entries filename ++ envp) EnvName.bbDisablePp.text =
        some (ascii "yes") :=
      getenv_of_vars .bbDisablePp (by simp [ExecCaller.vars, List.lookup_cons, hpp])
    exact Option.isSome_of_eq_some hyes
  · have hyes : getenv (t.entries filename ++ envp) EnvName.bbDisableAll.text =
        some (ascii "yes") :=
      getenv_of_vars .bbDisableAll (by
        by_cases hpp : t.bbDisablePp = 0 <;>
          simp [ExecCaller.vars, List.lookup_cons, hall, hpp])
    exact Option.isSome_of_eq_some hyes

/-- **`execve` carries the tracer over**, for every program and every environment, if and only if
the path of the library and that of the program fit their arrays, and the environment the program
is given has the name of the program in `TRACE_FN` already. -/
theorem execve_carries_iff (t : ExecCaller) (filename : List Byte) (argv envp : List (List Byte)) :
    (∃ call, execve t filename argv envp = .ok call ∧
      Carried t filename t.names envp call.envp ∧ call.envp.length + 1 ≤ envp.length + 10) ↔
    ExecFits t filename ∧ getenv envp (ascii "TRACE_FN") = some (basename filename) := by
  constructor
  · rintro ⟨call, hcall, hcarried, -⟩
    have hfits := fits_of_execve hcall
    rw [execve_of_fits argv envp hfits] at hcall
    cases hcall
    exact ⟨hfits, carried_entries_iff.1 hcarried⟩
  · rintro ⟨hfits, hname⟩
    refine ⟨_, execve_of_fits argv envp hfits, carried_entries_iff.2 hname, ?_⟩
    have hlen := length_entries_le t filename
    rw [List.length_append]
    omega

/-- A thread of a process with no environment of its own. -/
def plainCaller : ExecCaller := ⟨[], ascii "/usr/lib/libbtrace.so", 7, 0, 0, 0⟩

/-- From an empty environment the program `/bin/ls` gets no name. -/
theorem execve_ls_no_name : ¬ ∃ call,
    execve plainCaller (ascii "/bin/ls") [ascii "ls"] [] = .ok call ∧
      Carried plainCaller (ascii "/bin/ls") plainCaller.names [] call.envp ∧
      call.envp.length + 1 ≤ ([] : List (List Byte)).length + 10 := by
  rintro ⟨call, hcall, hcarried, -⟩
  rw [execve_of_fits _ _ ⟨by decide, by decide⟩] at hcall
  cases hcall
  have hname := getenv_traceFn.symm.trans hcarried.traceFn
  cases hname

/-! ## The other functions of the family -/

/-- A variable that is set when a flag is. -/
theorem getenv_setenv_ite {name name' value : List Byte} {env : List (List Byte)} {c : Prop}
    [Decidable c] (hn : 61 ∉ name) (hn' : 61 ∉ name') :
    getenv (if c then setenv name' value env else env) name =
      if c ∧ name = name' then some value else getenv env name := by
  by_cases hc : c
  · simp only [hc, if_true, true_and]
    exact getenv_setenv hn hn'
  · simp only [hc, if_false, false_and]

/-- A lookup behind `setenv_carry`. -/
theorem getenv_setenvCarry {name : List Byte} (hn : 61 ∉ name) :
    getenv (setenvCarry t path) name =
      if t.bbDisableAll ≠ 0 ∧ name = EnvName.bbDisableAll.text then some (ascii "yes")
      else if t.bbDisableLog ≠ 0 ∧ name = EnvName.bbDisableLog.text then some (ascii "yes")
      else if t.bbDisablePp ≠ 0 ∧ name = EnvName.bbDisablePp.text then some (ascii "yes")
      else if name = EnvName.ldPreload.text then some t.libPath
      else if name = EnvName.traceFn.text then some (basename path)
      else if name = EnvName.bbExecPath.text then some path
      else if name = EnvName.bbExecPtid.text then some (decimal t.tid.toNat)
      else getenv t.environ name := by
  refine (getenv_setenv_ite hn EnvName.bbDisableAll.eq_not_mem).trans ?_
  refine if_congr Iff.rfl rfl ((getenv_setenv_ite hn EnvName.bbDisableLog.eq_not_mem).trans ?_)
  refine if_congr Iff.rfl rfl ((getenv_setenv_ite hn EnvName.bbDisablePp.eq_not_mem).trans ?_)
  refine if_congr Iff.rfl rfl ((getenv_setenv hn EnvName.ldPreload.eq_not_mem).trans ?_)
  refine if_congr Iff.rfl rfl ((getenv_setenv hn EnvName.traceFn.eq_not_mem).trans ?_)
  refine if_congr Iff.rfl rfl ((getenv_setenv hn EnvName.bbExecPath.eq_not_mem).trans ?_)
  exact if_congr Iff.rfl rfl (getenv_setenv hn EnvName.bbExecPtid.eq_not_mem)

/-- **`setenv_carry` carries the tracer over**, with the name of the program. -/
theorem setenvCarry_carried (t : ExecCaller) (path : List Byte) :
    Carried t path t.carryNames t.environ (setenvCarry t path) where
  ldPreload := by
    refine (getenv_setenvCarry EnvName.ldPreload.eq_not_mem).trans ?_
    simp [EnvName.text_inj]
  traceFn := by
    refine (getenv_setenvCarry EnvName.traceFn.eq_not_mem).trans ?_
    simp [EnvName.text_inj]
  ptid := by
    refine (getenv_setenvCarry EnvName.bbExecPtid.eq_not_mem).trans ?_
    simp [EnvName.text_inj]
  path := by
    refine (getenv_setenvCarry EnvName.bbExecPath.eq_not_mem).trans ?_
    simp [EnvName.text_inj]
  disablePp hpp := by
    refine (congrArg Option.isSome (getenv_setenvCarry EnvName.bbDisablePp.eq_not_mem)).trans ?_
    simp [EnvName.text_inj, hpp]
  disableAll hall := by
    refine (congrArg Option.isSome (getenv_setenvCarry EnvName.bbDisableAll.eq_not_mem)).trans ?_
    simp [hall]
  other name hn hne := by
    simp only [ExecCaller.carryNames, ExecCaller.names, List.mem_append, List.mem_ite_nil_right,
      List.mem_cons, List.not_mem_nil, or_false] at hne
    rw [getenv_setenvCarry hn, if_neg fun h => hne .bbDisableAll (by simp [h.1]) h.2,
      if_neg fun h => hne .bbDisableLog (by simp [h.1]) h.2,
      if_neg fun h => hne .bbDisablePp (by simp [h.1]) h.2, if_neg (hne .ldPreload (by simp)),
      if_neg (hne .traceFn (by simp)), if_neg (hne .bbExecPath (by simp)),
      if_neg (hne .bbExecPtid (by simp))]

/-! ## The program started -/

theorem strtoull_decimal {n : ℕ} (h : n < 2 ^ 64) : strtoull (decimal n) = n := by
  have hdigit := fun b => isdigit_of_mem_decimal (n := n) (b := b)
  rw [strtoull, dropWhile_isspace_decimal]
  split
  · next t ht => exact absurd (hdigit 45 (ht ▸ List.mem_cons_self)) (by decide)
  · next t ht => exact absurd (hdigit 43 (ht ▸ List.mem_cons_self)) (by decide)
  · rw [leadingNat_decimal]
    omega

variable {names : List EnvName} {user env : List (List Byte)}

/-- The program started behind an environment that is carried over. -/
theorem Carried.started (h : Carried t path names user env) :
    (vfdInitEnv env).progName = basename path ∧ (vfdInitEnv env).ptid = some t.tid.toNat ∧
      (vfdInitEnv env).path = some path ∧ (t.bbDisablePp ≠ 0 → (vfdInitEnv env).bbDisablePp = 1) ∧
      (t.bbDisableAll ≠ 0 → (vfdInitEnv env).bbDisableAll = 1) := by
  refine ⟨?_, ?_, h.path, fun hpp => if_pos (h.disablePp hpp), fun hall => ?_⟩
  · simp only [vfdInitEnv, h.traceFn, Option.getD_some]
  · simp only [vfdInitEnv, h.ptid, Option.map_some, strtoull_decimal t.tid.toNat_lt]
  · exact if_pos (h.disableAll hall)

end BorderPatrol.Trace
